/-
# Invoking continuations

The specifications of the continuations that `then` and `fulfill_promise_future` make: the call
of the function, what is done with what it returns, and the handlers around it.  At whatever
depth continuations are nested, an invocation keeps the invariant, provided the functions do.
-/
import AraCore.Future.Fulfil

namespace AraCore.Future

open Lib Comp

variable {V α : Type} {h h' h₀ : Heap V} {C : Client V} {X : Option PromiseLoc} {fuel k : ℕ}
  {env : ℕ → Option Exn} {call : Cont V × FutureLoc → Code V Unit} {m n : ℕ} {κ : Kind}

/-! ## The call of a function -/

/-- The code `body` of the function with the successor `m`, called with a ready future, keeps the
invariant, and the client accepts how it ends. -/
def BodyOk (C : Client V) (fuel k m : ℕ) {κ : Kind} (body : Code V (κ.Ret V)) : Prop :=
  ∀ h n st, Inv C none h → h.futures (.handle (.param m)) = some ⟨some n, some n⟩ →
    h.shared n = some st → .called m (some st) ∈ h.log → .registered m n ∈ h.log →
    h.Running m → fuel ≤ k + h.startedCount →
    wp (do
      let r ← body
      receive m r
      pure r) (after C fuel h
      (fun r h' => C.J (h'.note (.returned m (how h' m r))) ∧
        (κ = .future → (h'.futures (.inner m)).isSome))
      fun x h' => C.J (h'.note (.returned m (.threw x))) ∧ h'.Known x) h

/-- The code `body` keeps the invariant, as `BodyOk` says, when it is called from the memory `g`
in which the client has maintained its property. -/
def BodyFits (C : Client V) (fuel k m : ℕ) {κ : Kind} (body : Code V (κ.Ret V)) : Prop :=
  ∀ g n st, C.J g → ¬ g.Called m → Inv C none (g.note (.called m (some st))) →
    g.futures (.handle (.param m)) = some ⟨some n, some n⟩ → g.shared n = some st →
    .registered m n ∈ g.log → (g.note (.called m (some st))).Running m →
    fuel ≤ k + (g.note (.called m (some st))).startedCount →
    wp (do
      let r ← body
      receive m r
      pure r) (after C fuel (g.note (.called m (some st)))
      (fun r h' => C.J (h'.note (.returned m (how h' m r))) ∧
        (κ = .future → (h'.futures (.inner m)).isSome))
      fun x h' => C.J (h'.note (.returned m (.threw x))) ∧ h'.Known x)
      (g.note (.called m (some st)))

lemma BodyOk.fits {body : Code V (κ.Ret V)} (hb : BodyOk C fuel k m body) :
    BodyFits C fuel k m body :=
  fun _ n st _ _ hi hp hst hreg hrun hfuel =>
    hb _ n st hi hp hst List.mem_cons_self (List.mem_cons_of_mem _ hreg) hrun hfuel

/-- The continuation for the successor `m` has been invoked and has not yet called its
function. -/
structure Entered (C : Client V) (m : ℕ) (h : Heap V) : Prop where
  inv : Inv C (some (.succ m)) h
  started : h.Started (.succ m)
  uncalled : ¬ h.Called m
  holds : h.Holds (.succ m) m
  unready : h.shared m = none
  guard : ∀ s c, (h.states s).continuation = some c → c.promise = .succ m → h.Guarded s
  arg : ∃ n st, h.futures (.arg m) = some ⟨some n, some n⟩ ∧ h.shared n = some st ∧
    .registered m n ∈ h.log

lemma Inv.moveFuture (hi : Inv C X h) {a b : FutureLoc} {o : FutureObj}
    (ho : h.futures a = some o) (hJ : C.J (h.moveFuture a b o)) :
    Inv C X (h.moveFuture a b o) :=
  hi.setFutures (k := h.copies) (fun _ hr => hr) (hi.core.graph.moveFuture ho) hJ

lemma Heap.moveFuture_futures (h : Heap V) (a b f : FutureLoc) (o : FutureObj) :
    (h.moveFuture a b o).futures f =
      if f = b then some o else if f = a then some ⟨none, none⟩ else h.futures f := by
  simp only [Heap.moveFuture, Heap.setFuture, Table.set_apply]

lemma Ext.moveFuture (h : Heap V) {a b : FutureLoc} (o : FutureObj)
    (ha : ∀ m, a ≠ .next m) (hb : ∀ m, b ≠ .next m) :
    Ext h (h.moveFuture a b o) := by
  refine .setFutures h (fun _ hr => hr) fun m _ => ?_
  show (h.moveFuture a b o).futures (.next m) = _
  rw [Heap.moveFuture_futures, if_neg (hb m).symm, if_neg (ha m).symm]

/-- Futures that are no variables of the program move. -/
lemma Heap.view_moveFuture {a b : FutureLoc} (o : FutureObj)
    (ha : ∀ k, a ≠ .handle (.named k)) (hb : ∀ k, b ≠ .handle (.named k)) :
    (h.moveFuture a b o).view = h.view := by
  simp only [Heap.view, View.mk.injEq]
  refine ⟨rfl, ?_, rfl, rfl⟩
  funext k
  rw [Heap.moveFuture_futures, if_neg (hb k).symm, if_neg (ha k).symm]

lemma Heap.view_note (hv : h'.view = h.view) (e : Event V) :
    (h'.note e).view = (h.note e).view := by
  simp only [Heap.view, View.mk.injEq] at hv
  simp only [Heap.view, Heap.note_promises, Heap.note_futures, Heap.note_next, Heap.note_log,
    List.filter_cons, hv]

/-- The function is called with the future that the continuation has received. -/
lemma Entered.func_called (he : Entered C m h) : ∃ n st,
    h.futures (.arg m) = some ⟨some n, some n⟩ ∧ h.shared n = some st ∧
    .registered m n ∈ h.log ∧
    Inv C none ((h.moveFuture (.arg m) (.handle (.param m)) ⟨some n, some n⟩).note
      (.called m (some st))) := by
  obtain ⟨n, st, harg, hst, hreg⟩ := he.arg
  refine ⟨n, st, harg, hst, hreg, ?_⟩
  have hview := Heap.view_moveFuture (h := h) ⟨some n, some n⟩ (a := .arg m)
    (b := .handle (.param m)) (by simp) (by simp)
  have hi := he.inv.moveFuture harg (C.quiet h _ hview he.inv.client)
  exact hi.note_called hreg hst he.started he.uncalled he.holds he.unready he.guard

/-- A function has returned or thrown. -/
lemma Owing.of_returned {w : How V} (hi : Inv C none h) (hr : h.Running m)
    (hst : h.Started (.succ m)) (hw : ∀ j, w = .inner (some j) → j < h.next)
    (hJ : C.J (h.note (.returned m w))) : Owing C m w (h.note (.returned m w)) := by
  obtain ⟨hp, hn⟩ := hi.core.calls.running m hr
  have hret : ∀ w', .returned m w' ∉ h.log := fun w' hw' => hr.2 ⟨w', hw'⟩
  constructor
  · exact hi.note_returned hr hw hJ
  · exact hp
  · exact hn
  · exact List.mem_cons_of_mem _ hst
  · exact List.mem_cons_self
  · intro s c hs hc
    exact hi.core.calls.guard s c hs (Or.inr ⟨m, hc, hr⟩)
  · rcases ho : h.promises (.outer m) with _ | o
    · exact ho
    · exact absurd (hi.core.conts.outer m o ho) hr.2
  · intro hs
    have hs : h.Started (.outer m) := (Heap.mem_note (by simp)).mp hs
    exact hr.2 ((hi.core.chronicle.backed _ hs).2 m rfl)
  · intro s c hs hc
    cases c with
    | link => cases hc
    | relay k =>
      cases hc
      exact hret _ (hi.core.conts.relay s m hs)
  · intro n hn
    have hn := (Heap.mem_note (by simp)).mp hn
    exact hr.2 ((hi.core.chronicle.backed _ hn).2 m rfl)

/-- A function is called, runs and ends. -/
lemma Ext.of_called {st : Option (Stored V)} {w : How V} (hnew : ¬ h.Called m)
    (he : Ext (h.note (.called m st)) h') : Ext h (h'.note (.returned m w)) where
  held := he.held
  fulfilling := he.fulfilling
  next := he.next
  history := ((List.suffix_cons _ _).trans he.history).trans (List.suffix_cons _ _)
  shared := he.shared
  running j := by
    by_cases hj : j = m
    · subst hj
      exact iff_of_false (fun hr => hr.2 ⟨w, List.mem_cons_self⟩) fun hr => hnew hr.1
    · have hcalled : (h.note (.called m st)).Running j ↔ h.Running j :=
        and_congr (exists_congr fun st' => Heap.mem_note (by simp [hj]))
          (not_congr (exists_congr fun w' => Heap.mem_note (by simp)))
      have hret : (h'.note (.returned m w)).Running j ↔ h'.Running j :=
        and_congr (exists_congr fun st' => Heap.mem_note (by simp))
          (not_congr (exists_congr fun w' => Heap.mem_note (by simp [hj])))
      exact hret.trans ((he.running j).trans hcalled)
  holds := he.holds
  cont := he.cont
  nextSlots := he.nextSlots
  spent j hj := by
    obtain ⟨hs, ho, hg⟩ := he.spent j ⟨List.mem_cons_of_mem _ hj.1, hj.2⟩
    exact ⟨List.mem_cons_of_mem _ hs, ho, hg⟩
  retrieved := he.retrieved

lemma how_congr {κ : Kind} (hf : h'.futures (.inner m) = h.futures (.inner m)) (r : κ.Ret V) :
    how h' m r = how h m r := by
  cases κ with
  | future => rw [how, how, hf]
  | result => cases r <;> rfl
  | value | void => rfl

/-- A future that a function returns is one of the memory. -/
lemma Graph.how_lt (hg : Graph h) {κ : Kind} {r : κ.Ret V} {j : ℕ}
    (hw : how h m r = .inner (some j)) : j < h.next := by
  cases κ with
  | future =>
    rw [how, How.inner.injEq, Option.bind_eq_some_iff] at hw
    obtain ⟨o, ho, hj⟩ := hw
    by_contra hlt
    have hr := (hg.fresh j (Nat.le_of_not_lt hlt)).2.1
    rw [hg.future_retrieved _ o j ho hj] at hr
    cases hr
  | result => cases r <;> cases hw
  | value | void => cases hw

theorem wp_callFunc {body : Code V (κ.Ret V)} (hbody : BodyFits C fuel k m body)
    (hent : Entered C m h) (hfuel : fuel ≤ k + h.startedCount)
    {Q : Post (Heap V) Exn Fault (κ.Ret V)}
    (hok : ∀ r h', Owing C m (how h' m r) h' → Ext h h' →
      (κ = .future → (h'.futures (.inner m)).isSome) → Q.ok r h')
    (hthrow : ∀ x h', Owing C m (.threw x) h' → Ext h h' → h'.Known x → Q.throw x h')
    (hstop : ∀ f h', Blame C fuel f h' → Q.stop f h') :
    wp (callFunc m body (.arg m)) Q h := by
  obtain ⟨n, st, harg, hst, hreg, hi⟩ := hent.func_called
  have hmx := hent.inv.not_held_future (.arg m)
  unfold BodyFits at hbody
  unfold callFunc
  generalize (do let r ← body; receive m r; pure r : Code V (κ.Ret V)) = code at hbody ⊢
  simp only [wp_bind, wp_future harg, wp_constructFuture harg hmx, wp_modify, wp_unwind,
    wp_cleanup]
  have hbind : (some n).bind (h.moveFuture (.arg m) (.handle (.param m))
      ⟨some n, some n⟩).shared = some st := hst
  rw [hbind]
  generalize hg : h.moveFuture (.arg m) (.handle (.param m)) ⟨some n, some n⟩ = g at hi
  have hnew : ¬ g.Called m := by
    subst hg
    exact hent.uncalled
  have hnret : ¬ g.Returned m := by
    rintro ⟨w, hw⟩
    subst hg
    exact hent.uncalled (hent.inv.core.chronicle.backed _ hw).1
  have hJ : C.J g := by
    subst hg
    exact C.quiet h _ (Heap.view_moveFuture _ (by simp) (by simp)) hent.inv.client
  have hrun : (g.note (.called m (some st))).Running m :=
    ⟨⟨_, List.mem_cons_self⟩,
      mt (Exists.imp fun _ hw => (Heap.mem_note (by simp)).mp hw) hnret⟩
  have he : Ext h g := by
    subst hg
    exact .moveFuture h _ (by simp) (by simp)
  have hstarted : g.Started (.succ m) := he.log hent.started
  -- what is left to do when the function has ended, by whatever `w` tells
  have hend : ∀ (w : How V) h₁, Inv C none h₁ → Ext (g.note (.called m (some st))) h₁ →
      (∀ j, w = .inner (some j) → j < h₁.next) → C.J (h₁.note (.returned m w)) →
      Owing C m w ((h₁.destroyFuture (.handle (.param m))).note (.returned m w)) ∧
        Ext h ((h₁.destroyFuture (.handle (.param m))).note (.returned m w)) ∧
        (h₁.destroyFuture (.handle (.param m))).futures (.inner m) = h₁.futures (.inner m) ∧
        h₁.log ⊆ ((h₁.destroyFuture (.handle (.param m))).note (.returned m w)).log := by
    intro w h₁ hi₁ he₁ hw hJ
    obtain ⟨hi₂, he₂, hq, hfut, hview⟩ := hi₁.dropFuture he₁ (f := .handle (.param m)) (by simp)
      (by simp)
    refine ⟨.of_returned hi₂ ((he₂.running m).mpr hrun) ?_ ?_ ?_, he.trans (.of_called hnew he₂),
      ?_, fun e he => List.mem_cons_of_mem _ (hq.log he)⟩
    · exact he₂.log (List.mem_cons_of_mem _ hstarted)
    · exact fun j hj => Nat.lt_of_lt_of_le (hw j hj) hq.next
    · exact C.quiet _ _ (Heap.view_note hview _) hJ
    · rw [hfut, if_neg (by simp)]
  have hfuel' : fuel ≤ k + (g.note (.called m (some st))).startedCount :=
    Nat.le_trans hfuel (Nat.add_le_add_left
      (Nat.le_trans he.startedCount (List.suffix_cons _ _).countP_le) k)
  have hparam : g.futures (.handle (.param m)) = some ⟨some n, some n⟩ := by
    subst hg
    rw [Heap.moveFuture_futures, if_pos rfl]
  have hready : g.shared n = some st := by
    subst hg
    exact hst
  refine wp_mono (hbody g n st hJ hnew hi hparam hready (he.log hreg) hrun hfuel') ?_ ?_ hstop
  · rintro r h₁ ⟨hi₁, he₁, hJ, hinner⟩
    obtain ⟨ho, he₂, hfut, -⟩ := hend _ h₁ hi₁ he₁ (fun j => hi₁.core.graph.how_lt) hJ
    have hhow := how_congr hfut r
    dsimp only
    rw [hhow]
    have hhow' : how ((h₁.destroyFuture (.handle (.param m))).note
        (.returned m (how h₁ m r))) m r = how h₁ m r := how_congr hfut r
    refine hok r _ ?_ he₂ ?_
    · rw [hhow']
      exact ho
    · intro hκ
      rw [Heap.note_futures, hfut]
      exact hinner hκ
  · rintro x h₁ ⟨hi₁, he₁, hJ, hx⟩
    obtain ⟨ho, he₂, -, hlog⟩ := hend (.threw x) h₁ hi₁ he₁ (by simp) hJ
    exact hthrow x _ ho he₂ (hx.mono hlog)

/-! ## The result of a future -/

/-- What `GetResult` returns for the contents of a shared state, unless it terminates. -/
def Stored.result : Stored V → Option (Result V)
  | value v => some (.ok v)
  | error e => some (.error e)
  | exception x => x.reported.map .error

lemma Stored.forward_ok {st : Stored V} {v : Option V} (hr : st.result = some (.ok v)) :
    st.forward = some (.value v) := by
  cases st with
  | value v' =>
    cases hr
    rfl
  | error e => cases hr
  | exception x =>
    rw [result, Option.map_eq_some_iff] at hr
    obtain ⟨e, -, he⟩ := hr
    cases he

lemma Stored.forward_error {st : Stored V} {e : ErrorCode} (hr : st.result = some (.error e)) :
    st.forward = some (.error e) := by
  cases st with
  | value v => cases hr
  | error e' =>
    cases hr
    rfl
  | exception x =>
    rw [result, Option.map_eq_some_iff] at hr
    obtain ⟨e', he', heq⟩ := hr
    cases heq
    rw [forward, he']
    rfl

/-- `GetResult` of a future that is ready releases its shared state. -/
lemma wp_getResult {f : FutureLoc} {o : FutureObj} {st : Stored V}
    {Q : Post (Heap V) Exn Fault (Result V)} (ho : h.futures f = some o)
    (hn : o.delegate = some n) (hst : h.shared n = some st)
    (hok : ∀ r, st.result = some r → Q.ok r (h.setFuture f ⟨none, o.extra⟩))
    (hstop : st.result = none → Q.stop .terminate (h.setFuture f ⟨none, o.extra⟩)) :
    wp (getResult f) Q h := by
  simp only [getResult, wp_bind, wp_future ho, hn, wp_get, hst, wp_modify]
  cases st with
  | value v => exact hok _ rfl
  | error e => exact hok _ rfl
  | exception x =>
    dsimp only
    split
    · next e he => exact hok _ (by rw [Stored.result, ← Exn.toError_eq, he]; rfl)
    · next he => exact hstop (by rw [Stored.result, ← Exn.toError_eq, he]; rfl)

/-- A shared state of which `GetResult` terminates holds an exception of the program. -/
lemma Chronicle.raised {st : Stored V} (hl : Chronicle h) (hst : h.shared n = some st)
    (hr : st.result = none) : ∃ x, ¬ x.IsStd ∧ .raised x ∈ h.log := by
  cases st with
  | value v => cases hr
  | error e => cases hr
  | exception x =>
    have hx : ¬ x.IsStd := Exn.errorBy_eq_none.mp (Option.map_eq_none_iff.mp hr)
    exact ⟨x, hx, (hl.exception n x hst).resolve_left hx⟩

lemma Inv.setFuture_none (hi : Inv C X h) (f : FutureLoc) (e : Option ℕ)
    (hJ : C.J (h.setFuture f ⟨none, e⟩)) : Inv C X (h.setFuture f ⟨none, e⟩) :=
  hi.setFutures (k := h.copies) (fun _ hr => hr) (hi.core.graph.setFuture_none f e) hJ

lemma Heap.view_setFuture {f : FutureLoc} (o : FutureObj) (hf : ∀ k, f ≠ .handle (.named k)) :
    (h.setFuture f o).view = h.view := by
  simp only [Heap.view, Heap.setFuture, Table.set_apply, View.mk.injEq, true_and, and_true]
  funext k
  rw [if_neg (hf k).symm]

lemma Ext.setFuture (h : Heap V) {f : FutureLoc} (o : FutureObj) (hf : ∀ m, f ≠ .next m) :
    Ext h (h.setFuture f o) := by
  refine .setFutures h (fun _ hr => hr) fun m _ => ?_
  rw [Table.set_apply, if_neg (hf m).symm]

/-! ## The inner continuation -/

theorem wp_innerContinuation (hcall : CallSpec C fuel k call)
    (henv : ∀ k x, env k = some x → C.copyThrows) (hi : Inv C (some (.outer m)) h)
    (hs : Settable h (.outer m) m) {st : Stored V}
    (hf : h.futures (.innerArg m) = some ⟨some n, some n⟩) (hst : h.shared n = some st)
    (hret : .returned m (.inner (some n)) ∈ h.log) (hfuel : fuel ≤ k + h.startedCount) :
    wp (innerContinuation env call m (.innerArg m))
      (after C fuel h (fun _ _ => True) Escapes) h := by
  have hi₁ := hi.setFuture_none (.innerArg m) (some n)
    (C.quiet h _ (Heap.view_setFuture _ (by simp)) hi.client)
  have he₁ := Ext.setFuture h (f := .innerArg m) ⟨none, some n⟩ (by simp)
  have hs₁ : Settable (h.setFuture (.innerArg m) ⟨none, some n⟩) (.outer m) m :=
    hs.congr rfl rfl rfl rfl (List.Subset.refl _) fun _ hr => hr
  have hfuel₁ : fuel ≤ k + (h.setFuture (.innerArg m) ⟨none, some n⟩).startedCount := hfuel
  have hsettles : ∀ r, st.forward = some r →
      Settles (h.setFuture (.innerArg m) ⟨none, some n⟩) m r := by
    intro r hr w hw
    have heq := hi.core.chronicle.eq_of_key hw hret rfl rfl
    cases heq
    exact Or.inr (Or.inr (Or.inr ⟨n, st, rfl, hst, hr⟩))
  simp only [innerContinuation, wp_bind]
  refine wp_getResult hf rfl hst ?_ ?_
  · intro r hr
    cases r with
    | ok v =>
      refine wp_setValue hcall henv hi₁ (Or.inr rfl) hs₁
        (fun _ => hsettles _ (Stored.forward_ok hr)) hfuel₁ .lvalue ?_ ?_ ?_ fun _ _ hb => hb
      · exact fun h' hi' he' _ _ => ⟨hi', he₁.trans he', trivial⟩
      · exact fun x h' hi' he' hx _ _ => ⟨hi', he₁.trans he', hx⟩
      · intro x h' hi' he' _ hx _ _ _
        have ht : h'.Tainted := Or.inr ⟨m, x, hx⟩
        exact ⟨hi'.of_tainted ht, he₁.trans he', ht, Or.inr (Or.inr ⟨_, hx⟩)⟩
    | error e =>
      refine wp_mono (wp_makeReady hcall henv hi₁ (Or.inr rfl) hs₁
        (fun _ => hsettles _ (Stored.forward_error hr)) (by simp) .moved hfuel₁) ?_ ?_
        fun _ _ hb => hb
      · rintro _ h' ⟨hi', he', -⟩
        exact ⟨hi', he₁.trans he', trivial⟩
      · rintro x h' ⟨hi', he', hx, -⟩
        exact ⟨hi', he₁.trans he', hx⟩
  · intro hr
    exact hi₁.core.chronicle.blame_terminate (Or.inr (hi.core.chronicle.raised hst hr))

/-! ## The future that a function returned -/

/-- The promise of a successor moves into an `inner_continuation`. -/
lemma Owing.handOver {w : How V} (ho : Owing C m w h) :
    Inv C (some (.outer m)) (h.movePromise (.succ m) (.outer m) ⟨some m, some m⟩) ∧
      Ext h (h.movePromise (.succ m) (.outer m) ⟨some m, some m⟩) ∧
      (h.movePromise (.succ m) (.outer m) ⟨some m, some m⟩).Spent m := by
  have hlt : m < h.next := ho.inv.core.graph.loc_lt _ _ m ho.holds rfl
  have hidle : ¬ h.InUse (.succ m) := by
    rintro (hb | ⟨k, hk, hr⟩)
    · exact ho.inv.core.not_busy ho.holds ho.unready hb
    · exact ho.settable.idle k hk hr
  have hprom : ∀ p, (h.movePromise (.succ m) (.outer m) ⟨some m, some m⟩).promises p =
      if p = .outer m then some ⟨some m, some m⟩
      else if p = .succ m then some ⟨none, none⟩ else h.promises p := by
    intro p
    simp only [Heap.movePromise, Heap.setPromise, Table.set_apply]
  have hsub : ∀ p o n, (h.movePromise (.succ m) (.outer m) ⟨some m, some m⟩).promises p = some o →
      o.delegate = some n → ∃ q o', h.promises q = some o' ∧ o'.delegate = some n := by
    intro p o n hp hn
    rw [hprom] at hp
    split at hp
    · cases hp
      exact ⟨_, _, ho.holds, hn⟩
    · split at hp
      · cases hp
        cases hn
      · exact ⟨p, o, hp, hn⟩
  have hholds : ∀ p n, h.InUse p → h.promises p = some ⟨some n, some n⟩ →
      (h.movePromise (.succ m) (.outer m) ⟨some m, some m⟩).promises p =
        some ⟨some n, some n⟩ := by
    intro p n hu hp
    rw [hprom, if_neg, if_neg]
    · exact hp
    · rintro rfl
      exact hidle hu
    · rintro rfl
      rw [ho.vacant] at hp
      cases hp
  have hq := Quiet.setPromises h _ hsub hholds
  have hspent : (h.movePromise (.succ m) (.outer m) ⟨some m, some m⟩).Spent m := by
    refine ⟨ho.started, ⟨⟨none, none⟩, ?_, by simp [Heap.Refuses]⟩, ?_⟩
    · rw [hprom, if_neg (by simp), if_pos rfl]
    · exact fun s c hs hc => hq.guarded (ho.guard s c hs hc)
  refine ⟨?_, hq.ext (fun _ _ => rfl) ?_, hspent⟩
  · refine ho.inv.setPromises ?_ ?_ hsub hholds ?_
    · exact ho.inv.core.graph.movePromise ho.holds (by simpa [PromiseLoc.node] using hlt)
    · refine ho.inv.core.conts.movePromise ho.vacant ?_ ?_ (by simp)
      · exact fun s c _ hst hc => hst (hc ▸ ho.started)
      · rintro k hk
        cases hk
        exact ⟨w, ho.returned⟩
    · refine C.quiet h _ ?_ ho.inv.client
      have hsame : ∀ k, (h.movePromise (.succ m) (.outer m) ⟨some m, some m⟩).promises
          (.named k) = h.promises (.named k) := by
        intro k
        rw [hprom, if_neg (by simp), if_neg (by simp)]
      simp only [Heap.view, View.mk.injEq, and_true]
      exact funext hsame
  · intro k hk
    by_cases hkm : k = m
    · subst hkm
      exact hspent
    · refine hq.spent hk ?_
      show (h.movePromise (.succ m) (.outer m) ⟨some m, some m⟩).promises (.succ k) = _
      rw [hprom, if_neg (by simp), if_neg (by simpa using hkm)]

lemma Ext.setContinuation {s : ℕ} {c : Cont V} {f : FutureLoc} {o : FutureObj}
    (hnone : (h.states s).continuation = none) (hn : h.shared s = none)
    (hst : ¬ h.Started c.promise) (hf : ∀ m, f ≠ .next m) :
    Ext h (h.setContinuation s c f o) := by
  rw [Heap.setContinuation_eq hnone]
  have hcont := h.setFuture_setState_continuation s c o.delegate f ⟨none, o.extra⟩
  refine ⟨rfl, rfl, Nat.le_refl _, List.suffix_refl _, fun _ _ hs => hs, fun _ => Iff.rfl,
    fun _ _ _ hp => hp, ?_, fun m _ => ?_, ?_, fun _ hr => hr⟩
  · intro t ht
    right
    rw [hcont, if_neg]
    rintro rfl
    simp [hn] at ht
  · simp only [Heap.setFuture, Table.set_apply, if_neg (hf m).symm]
    rfl
  · rintro m ⟨hs, ho, hg⟩
    refine ⟨hs, ho, fun t c' hc' hcm => ?_⟩
    rw [hcont] at hc'
    split at hc'
    · cases hc'
      exact absurd (hcm ▸ hs) hst
    · exact hg t c' hc' hcm

/-- The inner future is ready: its continuation can be invoked. -/
lemma Owing.callable {j : ℕ} {st : Stored V} (ho : Owing C m (.inner (some j)) h)
    (hf : h.futures (.inner m) = some ⟨some j, some j⟩) (hst : h.shared j = some st) :
    Callable C (.relay m) ((h.movePromise (.succ m) (.outer m) ⟨some m, some m⟩).moveFuture
      (.inner m) (.innerArg m) ⟨some j, some j⟩) := by
  have hlt : m < h.next := ho.inv.core.graph.loc_lt _ _ m ho.holds rfl
  obtain ⟨hi, -, -⟩ := ho.handOver
  have hview := Heap.view_moveFuture (h := h.movePromise (.succ m) (.outer m) ⟨some m, some m⟩)
    (a := .inner m) (b := .innerArg m) ⟨some j, some j⟩ (by simp) (by simp)
  have hi' := hi.moveFuture (a := .inner m) (b := .innerArg m) hf
    (C.quiet _ _ hview hi.client)
  constructor
  · refine hi'.note_started (p := .outer m) ho.unstarted ho.unstored ho.unabandoned ?_ ?_
    · rintro k ⟨⟩
      exact hlt
    · rintro k ⟨⟩
      exact ⟨_, ho.returned⟩
  · exact ho.unstarted
  · show ((h.setPromise (.succ m) ⟨none, none⟩).promises.set (.outer m) ⟨some m, some m⟩)
      (.outer m) = _
    rw [Table.set_apply, if_pos rfl]
    rfl
  · exact ho.unready
  · exact fun s c' hs hc => absurd hc (ho.unstored s c' hs)
  · refine ⟨j, st, ?_, hst, by simp, ?_⟩
    · show (Heap.moveFuture _ _ _ _).futures (.innerArg m) = _
      rw [Heap.moveFuture_futures, if_pos rfl]
    · rintro k ⟨⟩
      exact ho.returned
  · simp

/-- The inner future is not ready: its continuation can be stored. -/
lemma Owing.storable {j : ℕ} (ho : Owing C m (.inner (some j)) h) :
    Storable (h.movePromise (.succ m) (.outer m) ⟨some m, some m⟩) j (.relay m) where
  unstarted := ho.unstarted
  holds := by
    show ((h.setPromise (.succ m) ⟨none, none⟩).promises.set (.outer m) ⟨some m, some m⟩)
      (.outer m) = _
    rw [Table.set_apply, if_pos rfl]
    rfl
  unready := ho.unready
  new := ho.unstored
  unabandoned := ho.unabandoned
  link := by simp
  relay k hk := by
    cases hk
    exact ho.returned

/-- An `inner_continuation` has been invoked and goes away. -/
lemma Inv.dropOuter (hi : Inv C X h) (he : Ext h₀ h) (hst : h.Started (.outer m))
    (hidle : ¬ h.Busy (.outer m)) :
    Inv C X (h.destroyPromise (.outer m)) ∧ Ext h₀ (h.destroyPromise (.outer m)) ∧
      h.log ⊆ (h.destroyPromise (.outer m)).log ∧
      ∀ k, h.Spent k → (h.destroyPromise (.outer m)).Spent k := by
  have huse : ¬ h.InUse (.outer m) := by
    rintro (hb | ⟨k, hk, -⟩)
    · exact hidle hb
    · cases hk
  have hview : ({ h with promises := h.promises.erase (.outer m) } : Heap V).view = h.view := by
    simp [Heap.view]
  obtain ⟨hi', hq, hfut, -, hkeep⟩ := hi.destroyPromise huse
    (fun s c _ hst' hc => hst' (hc ▸ hst)) (C.quiet h _ hview hi.client)
  refine ⟨hi', hq.after he ?_ ?_, hq.log, fun k => hkeep k (by simp)⟩
  · intro k _
    rw [hfut]
  · exact fun k _ => hkeep k (by simp)

lemma Owing.locking {w : How V} (ho : Owing C m w h) : Owing C m w (h.locking [.succ m]) where
  inv := ho.inv.note_locks (by simp) (by simp)
  holds := ho.holds
  unready := ho.unready
  started := List.mem_cons_of_mem _ ho.started
  returned := List.mem_cons_of_mem _ ho.returned
  guard := ho.guard
  vacant := ho.vacant
  unstarted hs := ho.unstarted ((Heap.mem_note (by simp)).mp hs)
  unstored := ho.unstored
  unabandoned n hn := ho.unabandoned n ((Heap.mem_note (by simp)).mp hn)

lemma Heap.setContinuation_lock {s : ℕ} (hnone : (h.states s).continuation = none) (c : Cont V)
    (f : FutureLoc) (o : FutureObj) (mx : Mutex) :
    ((h.lock mx).setContinuation s c f o).unlock mx = h.setContinuation s c f o := by
  have hnone' : ((h.lock mx).states s).continuation = none := hnone
  rw [Heap.setContinuation_eq hnone, Heap.setContinuation_eq hnone']
  simp [Heap.unlock, Heap.lock, Heap.setFuture, Heap.setState]

theorem wp_attachInner (hcall : CallSpec C fuel k call) {o : FutureObj}
    (ho : Owing C m (.inner o.delegate) h) (hf : h.futures (.inner m) = some o)
    (hfuel : fuel ≤ k + h.startedCount) :
    wp (attachInner call m) (after C fuel h (fun _ _ => True)
      fun x h' => Escapes x h' ∧ h'.Spent m) h := by
  simp only [attachInner, wp_bind, wp_future hf]
  obtain ⟨d, e⟩ := o
  cases d with
  | none =>
    refine wp_mono (wp_makeReady hcall copies_succeed ho.inv (Or.inr rfl)
      ho.settable (fun _ => ho.settles (Or.inl rfl)) (by simp) .moved hfuel) ?_ ?_
      fun _ _ hb => hb
    · rintro _ h' ⟨hi', he', -⟩
      exact ⟨hi', he', trivial⟩
    · rintro x h' ⟨hi', he', hx, -, hs⟩
      exact ⟨hi', he', hx, hs m rfl ho.started⟩
  | some j =>
    obtain rfl : e = some j := ho.inv.core.graph.future_extra _ _ j hf rfl
    have hmx := ho.inv.not_held_state j
    have hbusy : ¬ (h.lock (.state j)).Busy (.succ m) := by
      intro hb
      rcases List.mem_cons.mp hb with hb | hb
      · cases hb
      · exact ho.inv.core.not_busy ho.holds ho.unready hb
    simp only [wp_bind, wp_lock hmx]
    refine (wp_constructPromise (h := h.lock (.state j)) ho.holds hbusy).mpr ?_
    -- the same memory, in which the mutex of the `State` is locked at last
    have ho' := ho.locking
    have he' : Ext h (h.locking [.succ m]) := .note h (by simp) (by simp)
    have hf' : (h.locking [.succ m]).futures (.inner m) = some ⟨some j, some j⟩ := hf
    have heq :
        ((h.lock (.state j)).locking [.succ m]).movePromise (.succ m) (.outer m)
          ⟨some m, some m⟩ =
        ((h.locking [.succ m]).movePromise (.succ m) (.outer m) ⟨some m, some m⟩).lock
          (.state j) := rfl
    rw [heq]
    have hshared : (h.locking [.succ m]).shared j = h.shared j := rfl
    have hfuel' : fuel ≤ k + (h.locking [.succ m]).startedCount :=
      Nat.le_trans hfuel (Nat.add_le_add_left he'.startedCount k)
    generalize h.locking [.succ m] = g at *
    obtain ⟨hig, heg, hspent⟩ := ho'.handOver
    have hsj : ((g.movePromise (.succ m) (.outer m) ⟨some m, some m⟩).lock (.state j)).shared j =
        g.shared j := rfl
    simp only [wp_get]
    rw [hsj]
    rcases hst : g.shared j with _ | st
    · have hnone := hig.core.continuation_eq_none (f := .inner m) hf' rfl hst
      simp only [wp_modify]
      rw [Heap.setContinuation_lock hnone]
      refine ⟨?_, he'.trans (heg.trans (.setContinuation hnone hst ho'.unstarted (by simp))),
        trivial⟩
      refine hig.setContinuation (c := .relay m) hf' rfl hst ho'.storable (by simp) ?_
      refine C.quiet _ _ ?_ hig.client
      rw [Heap.setContinuation_eq hnone]
      exact Heap.view_setFuture _ (by simp)
    · have hcallable := ho'.callable hf' hst
      have hem := Ext.moveFuture (g.movePromise (.succ m) (.outer m) ⟨some m, some m⟩)
        (a := .inner m) (b := .innerArg m) ⟨some j, some j⟩ (by simp) (by simp)
      have hidle : ¬ g.Busy (.outer m) := by
        intro hb
        obtain ⟨i, hi, -⟩ := ho'.inv.core.calls.busy _ hb
        rw [Heap.Holds, ho'.vacant] at hi
        cases hi
      simp only [wp_bind, wp_modify, wp_cleanup]
      rw [Heap.unlock_lock]
      refine (wp_constructFuture (h := g.movePromise (.succ m) (.outer m) ⟨some m, some m⟩) hf'
        (hig.not_held_future _)).mpr ?_
      have hfuel'' := Nat.le_trans hfuel' (Nat.add_le_add_left (heg.trans hem).startedCount k)
      -- what is left to do when the continuation has been invoked
      have hend : ∀ h₁, Inv C none h₁ → Ext ((g.movePromise (.succ m) (.outer m)
          ⟨some m, some m⟩).moveFuture (.inner m) (.innerArg m) ⟨some j, some j⟩) h₁ →
          h₁.Started (.outer m) →
          Inv C none ((h₁.destroyFuture (.innerArg m)).destroyPromise (.outer m)) ∧
            Ext h ((h₁.destroyFuture (.innerArg m)).destroyPromise (.outer m)) ∧
            h₁.log ⊆ ((h₁.destroyFuture (.innerArg m)).destroyPromise (.outer m)).log ∧
            ((h₁.destroyFuture (.innerArg m)).destroyPromise (.outer m)).Spent m := by
        intro h₁ hi₁ he₁ hs₁
        obtain ⟨hi₂, he₂, hq, -⟩ := hi₁.dropFuture he₁ (f := .innerArg m) (by simp) (by simp)
        have hidle₂ : ¬ (h₁.destroyFuture (.innerArg m)).Busy (.outer m) := by
          rw [he₂.busy]
          exact hidle
        obtain ⟨hi₃, he₃, hlog, hkeep⟩ := hi₂.dropOuter he₂ (hq.log hs₁) hidle₂
        refine ⟨hi₃, he'.trans (heg.trans (hem.trans he₃)), fun e he => hlog (hq.log he), ?_⟩
        exact he₃.spent m (hem.spent m hspent)
      refine wp_mono (hcall (.relay m) _ hcallable hfuel'') ?_ ?_ fun _ _ hb => hb
      · rintro - h₁ ⟨hi₁, he₁, hs₁⟩
        obtain ⟨hi₂, he₂, -, -⟩ := hend h₁ hi₁ he₁ hs₁
        exact ⟨hi₂, he₂, trivial⟩
      · rintro x h₁ ⟨hi₁, he₁, hx, hs₁⟩
        obtain ⟨hi₂, he₂, hlog, hsp⟩ := hend h₁ hi₁ he₁ hs₁
        exact ⟨hi₂, he₂, ⟨hx.1.mono hlog, hx.2.mono hlog⟩, hsp⟩

/-! ## The continuation of `then` -/

/-- A successor is fulfilled with the result of its function, or with the error that a handler
makes of an exception. -/
lemma wp_settle_owing (hcall : CallSpec C fuel k call)
    (henv : ∀ k x, env k = some x → C.copyThrows) {r : Result V} {w : How V}
    (ho : Owing C m w h)
    (hw : w.settles = some (match r with | .ok v => .value v | .error e => .error e))
    (hfuel : fuel ≤ k + h.startedCount) :
    wp (tryCatch (match r with
      | .ok v => setValue env call (.succ m) .lvalue v
      | .error e => setError call (.succ m) e) (handlers call m))
      (after C fuel h (fun _ _ => True) Escapes) h := by
  have hidle := ho.inv.core.not_busy ho.holds ho.unready
  rw [wp_tryCatch]
  -- the exceptions that leave what the fulfilled successor has invoked
  have hspent : ∀ x h', Inv C none h' → Ext h h' → Escapes x h' → h'.Spent m →
      wp (handlers call m x) (after C fuel h (fun _ _ => True) Escapes) h' := by
    intro x h' hi he hx hs
    exact wp_after_trans he (wp_handlers_spent hi hs ((he.busy _).not.mpr hidle) hx)
  cases r with
  | ok v =>
    refine wp_setValue hcall henv ho.inv (Or.inr rfl) ho.settable
      (fun _ => ho.settles (Or.inl hw)) hfuel .lvalue ?_ ?_ ?_ fun _ _ hb => hb
    · exact fun h' hi he _ _ => ⟨hi, he, trivial⟩
    · exact fun x h' hi he hx _ hs => hspent x h' hi he hx (hs m rfl ho.started)
    · intro x h' hi he hs hx hlog hprom hstates
      have hmem : ∀ e, e ≠ .copyThrew (.succ m) x → e ∈ h'.log → e ∈ h.log :=
        fun e hne he => (hlog e he).resolve_right hne
      have ho' : Owing C m w h' := by
        constructor
        · exact hi
        · exact hs.holds
        · exact hs.unready
        · exact he.log ho.started
        · exact he.log ho.returned
        · exact hs.guard
        · rw [hprom]
          exact ho.vacant
        · exact fun hst => ho.unstarted (hmem _ (by simp) hst)
        · rw [hstates]
          exact ho.unstored
        · exact fun n hn => ho.unabandoned n (hmem _ (by simp) hn)
      exact wp_after_trans he (wp_handlers_owing hcall ho' (Or.inr (Or.inr ⟨_, hx⟩))
        (Or.inr ⟨⟨v, hw⟩, hx⟩)
        (Nat.le_trans hfuel (Nat.add_le_add_left he.startedCount k)))
  | error e =>
    refine wp_mono (wp_makeReady hcall henv ho.inv (Or.inr rfl) ho.settable
      (fun _ => ho.settles (Or.inl hw)) (by simp) .moved hfuel) ?_ ?_ fun _ _ hb => hb
    · exact fun _ h' ⟨hi, he, _⟩ => ⟨hi, he, trivial⟩
    · exact fun x h' ⟨hi, he, hx, _, hs⟩ => hspent x h' hi he hx (hs m rfl ho.started)

/-- The function is called, and what it returns is handled by `rest`, within the handlers. -/
lemma wp_tryCallFunc (hcall : CallSpec C fuel k call) {body : Code V (κ.Ret V)}
    (hbody : BodyFits C fuel k m body) (hent : Entered C m h) (hfuel : fuel ≤ k + h.startedCount)
    {rest : κ.Ret V → Code V Unit}
    (hrest : ∀ r h', Owing C m (how h' m r) h' → fuel ≤ k + h'.startedCount →
      (κ = .future → (h'.futures (.inner m)).isSome) →
      wp (tryCatch (rest r) (handlers call m)) (after C fuel h' (fun _ _ => True) Escapes) h') :
    wp (tryCatch (callFunc m body (.arg m) >>= rest) (handlers call m))
      (after C fuel h (fun _ _ => True) Escapes) h := by
  rw [wp_tryCatch, wp_bind]
  refine wp_callFunc hbody hent hfuel ?_ ?_ fun _ _ hb => hb
  · intro r h' ho he hinner
    have hfuel' := Nat.le_trans hfuel (Nat.add_le_add_left he.startedCount k)
    exact wp_tryCatch.mp (wp_after_trans he (hrest r h' ho hfuel' hinner))
  · intro x h' ho he hx
    have hfuel' := Nat.le_trans hfuel (Nat.add_le_add_left he.startedCount k)
    exact wp_after_trans he (wp_handlers_owing hcall ho hx (Or.inl rfl) hfuel')

/-- The continuation of `then` for a function of any of the four kinds. -/
theorem wp_fulfillPromise (hcall : CallSpec C fuel k call)
    (henv : ∀ k x, env k = some x → C.copyThrows) {body : Code V (κ.Ret V)}
    (hbody : BodyFits C fuel k m body) (hent : Entered C m h)
    (hfuel : fuel ≤ k + h.startedCount) :
    wp (fulfillPromise env call m κ body (.arg m))
      (after C fuel h (fun _ _ => True) Escapes) h := by
  cases κ with
  | future =>
    refine wp_tryCallFunc hcall hbody hent hfuel fun r h' ho hfuel' hinner => ?_
    obtain ⟨o, hf⟩ := Option.isSome_iff_exists.mp (hinner rfl)
    have ho' : Owing C m (.inner o.delegate) h' := by
      rw [how, hf] at ho
      exact ho
    have hidle := ho.inv.core.not_busy ho.holds ho.unready
    rw [wp_tryCatch, wp_cleanup]
    refine wp_mono (wp_attachInner hcall ho' hf hfuel') ?_ ?_ fun _ _ hb => hb
    · rintro - h₁ ⟨hi₁, he₁, -⟩
      obtain ⟨hi₂, he₂, -⟩ := hi₁.dropFuture he₁ (f := .inner m) (by simp) (by simp)
      exact ⟨hi₂, he₂, trivial⟩
    · rintro x h₁ ⟨hi₁, he₁, hx, hs⟩
      obtain ⟨hi₂, he₂, hq, -⟩ := hi₁.dropFuture (.refl h₁) (f := .inner m) (by simp) (by simp)
      have he := he₁.trans he₂
      exact wp_after_trans he (wp_handlers_spent hi₂ (he₂.spent m hs)
        ((he.busy _).not.mpr hidle) ⟨hx.1.mono hq.log, hx.2.mono hq.log⟩)
  | result =>
    refine wp_tryCallFunc hcall hbody hent hfuel fun r h' ho hfuel' _ => ?_
    refine wp_settle_owing hcall henv ho ?_ hfuel'
    cases r <;> rfl
  | value =>
    refine wp_tryCallFunc hcall hbody hent hfuel fun r h' ho hfuel' _ => ?_
    exact wp_settle_owing (r := .ok (some r)) hcall henv ho rfl hfuel'
  | void =>
    refine wp_tryCallFunc hcall hbody hent hfuel fun r h' ho hfuel' _ => ?_
    exact wp_settle_owing (r := .ok none) hcall henv ho rfl hfuel'

/-! ## Continuations at any depth -/

lemma Heap.startedCount_note (p : PromiseLoc) :
    (h.note (.started p)).startedCount = h.startedCount + 1 := by
  simp [Heap.startedCount]

lemma Callable.entered {func : Handle → Prog V κ} (hc : Callable C (.link m κ func) h) :
    Entered C m (h.note (.started (.succ m))) := by
  obtain ⟨n, st, hf, hst, hreg, -⟩ := hc.arg
  constructor
  · exact hc.inv
  · exact List.mem_cons_self
  · rintro ⟨st', hst'⟩
    exact (hc.func m κ func rfl).2 ⟨st', (Heap.mem_note (by simp)).mp hst'⟩
  · exact hc.holds
  · exact hc.unready
  · exact hc.guard
  · exact ⟨n, st, hf, hst, List.mem_cons_of_mem _ (hreg m κ func rfl)⟩

/-- What a continuation does once it has been started. -/
lemma wp_started (hcall : CallSpec C fuel k call)
    (henv : ∀ k x, env k = some x → C.copyThrows)
    (hbody : ∀ m κ func, C.K m κ func →
      BodyFits C fuel k m (runProg env call (func (.param m))))
    {c : Cont V} (hc : Callable C c h) (hfuel : fuel ≤ k + 1 + h.startedCount) :
    wp (match c with
      | .link m κ func => fulfillPromise env call m κ (runProg env call (func (.param m))) c.arg
      | .relay m => innerContinuation env call m c.arg)
      (after C fuel (h.note (.started c.promise)) (fun _ _ => True) Escapes)
      (h.note (.started c.promise)) := by
  have hfuel' : fuel ≤ k + (h.note (.started c.promise)).startedCount := by
    rw [Heap.startedCount_note]
    omega
  cases c with
  | link m κ func =>
    exact wp_fulfillPromise hcall henv (hbody m κ func (hc.func m κ func rfl).1) hc.entered
      hfuel'
  | relay m =>
    obtain ⟨n, st, hf, hst, -, hret⟩ := hc.arg
    have hs : Settable (h.note (.started (.outer m))) (.outer m) m := by
      refine ⟨hc.holds, hc.unready, ?_, by simp, hc.guard⟩
      exact fun s c _ hst hcp => hst (hcp ▸ List.mem_cons_self)
    exact wp_innerContinuation hcall henv hc.inv hs hf hst
      (List.mem_cons_of_mem _ (hret m rfl)) hfuel'

/-- The invocation of a continuation, if its function and the continuations that this invokes
are as they should be. -/
theorem wp_invokeStep (hcall : CallSpec C fuel k call)
    (henv : ∀ k x, env k = some x → C.copyThrows)
    (hbody : ∀ m κ func, C.K m κ func →
      BodyFits C fuel k m (runProg env call (func (.param m)))) :
    CallSpec C fuel (k + 1) (invokeStep env call) := by
  intro c h hc hfuel
  have he : Ext h (h.note (.started c.promise)) := .note h (by simp) (by simp)
  simp only [invokeStep, wp_bind, wp_modify, wp_unwind]
  refine wp_mono (wp_started hcall henv hbody hc hfuel) ?_ ?_ fun _ _ hb => hb
  · rintro - h' ⟨hi, he', -⟩
    exact ⟨hi, he.trans he', he'.log List.mem_cons_self⟩
  · rintro x h' ⟨hi, he', ht, hk⟩
    have ht' : (h'.note (.left c.promise x)).Tainted := ht.mono (h'.subset_note _)
    refine ⟨hi.note_hidden trivial rfl ht' rfl, ?_, ⟨ht', hk.mono (h'.subset_note _)⟩, ?_⟩
    · exact he.trans (he'.trans (.note h' (by simp) (by simp)))
    · exact List.mem_cons_of_mem _ (he'.log List.mem_cons_self)

/-- Whatever the bound, and whatever is done at the bound, the invocation of a continuation keeps
the invariant of each of the clients, if their functions do so wherever continuations can be
invoked. -/
theorem callSpec_iterate {ι : Type} {C : ι → Client V}
    {base : Cont V × FutureLoc → Code V Unit} (hbase : ∀ i, CallSpec (C i) fuel 0 base)
    (henv : ∀ i k x, env k = some x → (C i).copyThrows)
    (hbody : ∀ k call, (∀ i, CallSpec (C i) fuel k call) → ∀ i m κ func, (C i).K m κ func →
      BodyFits (C i) fuel k m (runProg env call (func (.param m)))) :
    ∀ k i, CallSpec (C i) fuel k ((invokeStep env)^[k] base) := by
  intro k
  induction k with
  | zero => exact hbase
  | succ k ih =>
    intro i
    rw [Function.iterate_succ_apply']
    exact wp_invokeStep (ih i) (henv i) (hbody k _ ih i)

lemma invoke_eq (env : ℕ → Option Exn) (fuel : ℕ) :
    (invoke env fuel : Cont V × FutureLoc → Code V Unit) =
      (invokeStep env)^[fuel] fun _ => stop .outOfFuel := by
  induction fuel with
  | zero => rfl
  | succ fuel ih =>
    rw [Function.iterate_succ_apply', ← ih]
    rfl

/-- Where a continuation can be invoked, but the bound is reached. -/
lemma CallSpec.outOfFuel : CallSpec C fuel 0 fun _ => stop .outOfFuel := by
  intro c h hc hfuel
  refine Blame.of_outOfFuel ?_ (by omega)
  rintro ⟨e, he, hconf⟩
  exact hc.inv.core.chronicle.no_conflict ⟨e, List.mem_cons_of_mem _ he, hconf⟩

/-- **Invocation.**  Whatever the bound, the invocation of a continuation keeps the invariant,
if the functions of the client do so wherever continuations can be invoked. -/
theorem callSpec_invoke (henv : ∀ k x, env k = some x → C.copyThrows)
    (hbody : ∀ k call, CallSpec C fuel k call → ∀ m κ func, C.K m κ func →
      BodyOk C fuel k m (runProg env call (func (.param m)))) :
    CallSpec C fuel fuel (invoke env fuel) := by
  rw [invoke_eq]
  exact callSpec_iterate (C := fun _ : Unit => C) (fun _ => .outOfFuel) (fun _ => henv)
    (fun k call hcall _ m κ func hK => (hbody k call (hcall ()) m κ func hK).fits) fuel ()

end AraCore.Future
