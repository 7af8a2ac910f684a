/-
# What holds between the moves

The memory between two moves of a program that builds a chain, and what each move does: `then`
attaches a function, which may be called at once, and a promise is fulfilled, which may call the
functions of a part of the chain.  A plan says what the functions maintain; with it every program
comes to its last operation, whatever its schedule.
-/
import AraCore.Future.Schedule

namespace AraCore.Future

open Lib Comp

variable {V : Type} {h h' t : Heap V} {C C' : Client V} {fuel i k n : ℕ} {X : Option PromiseLoc}
  {env : ℕ → Option Exn} {call : Cont V × FutureLoc → Code V Unit} {given : List (Given V)}
  {stages : List (Stage V)} {done done' : List ℕ} {g : Given V} {K : ℕ → Prop}
  {σ : List Move}

/-! ## Between two moves -/

/-- The memory between two moves, when `i` functions are attached and the promises in `done`
are fulfilled. -/
structure AtRest (C : Client V) (given : List (Given V)) (i : ℕ) (done : List ℕ) (h : Heap V) :
    Prop where
  inv : Inv C none h
  idle : h.held = []
  returned : ∀ m, ¬ h.Running m
  sane : ∀ e ∈ h.log, e.Sane
  passive : h.Passive
  registered : ∀ j < i, .registered (given.length + j) (tail given.length j) ∈ h.log
  fulfilled : ∀ k ∈ done, ∀ g, given[k]? = some g → .fulfilled k g.stored ∈ h.log
  unfulfilled : ∀ k < given.length, k ∉ done → h.Sole k k ∧ h.shared k = none

/-- What continuations leave of a memory between two moves. -/
lemma AtRest.extend {i' : ℕ} (ha : AtRest C given i done h) (hi : Inv C' none h') (he : Ext h h')
    (hp : h'.Passive) (hs : Spared K h h')
    (hreg : ∀ j < i', .registered (given.length + j) (tail given.length j) ∈ h'.log)
    (hdone : ∀ k ∈ done', k ∈ done ∨ ∀ g, given[k]? = some g → .fulfilled k g.stored ∈ h'.log)
    (hK : ∀ k, k ∉ done' → k ∉ done ∧ K k) : AtRest C' given i' done' h' where
  inv := hi
  idle := he.held.trans ha.idle
  returned m hm := ha.returned m ((he.running m).mp hm)
  sane e hmem := (hs.calm e hmem).elim (ha.sane e) Event.Calm.sane
  passive := hp
  registered := hreg
  fulfilled k hk g hg :=
    (hdone k hk).elim (fun hk => he.log (ha.fulfilled k hk g hg)) fun hk => hk g hg
  unfulfilled k hlt hk := by
    obtain ⟨hsole, hnone⟩ := ha.unfulfilled k hlt (hK k hk).1
    obtain ⟨hsole', hsame⟩ := hs.sole k k (hK k hk).2 hsole
    exact ⟨hsole', hsame.trans hnone⟩

/-- A function is called when the future is ready that it was passed to `then` of. -/
lemma AtRest.called (ha : AtRest C given i done h) {m : ℕ} {st : Stored V}
    (hreg : .registered m n ∈ h.log) (hst : h.shared n = some st) (hful : h.Fulfilled n) :
    .called m (some st) ∈ h.log := by
  rcases ha.inv.linked m (by simp) n hreg with ⟨st', hc, hst'⟩ | ⟨-, -, hn⟩ | ⟨-, hn⟩
  · rw [hst] at hst'
    cases hst'
    exact hc
  · exact absurd hful hn
  · exact absurd hful hn

lemma AtRest.returned_of_called (ha : AtRest C given i done h) {m : ℕ} {st : Option (Stored V)}
    (hc : .called m st ∈ h.log) : h.Returned m := by
  by_contra hret
  exact ha.returned m ⟨⟨st, hc⟩, hret⟩

/-- What a successor is ready with that has the result `r`. -/
def Stored.of : Result V → Stored V
  | .ok v => .value v
  | .error e => .error e

@[simp] lemma Stored.result_of (r : Result V) : (Stored.of r).result = some r := by
  cases r <;> rfl

lemma Stored.forward_of_result {st : Stored V} {r : Result V} (hr : st.result = some r) :
    st.forward = some (.of r) := by
  cases r with
  | ok v => exact Stored.forward_ok hr
  | error e => exact Stored.forward_error hr

/-- The function that ended with `w` fulfils its successor with the result `r`: at once, or as the
future does that it returned. -/
def Heap.Yields (h : Heap V) (w : How V) (r : Result V) : Prop :=
  w.settles = some (.of r) ∨
    ∃ j st, w = .inner (some j) ∧ h.shared j = some st ∧ h.Fulfilled j ∧ st.result = some r

/-- A successor is fulfilled when its function has returned and the inner future is ready. -/
lemma AtRest.passesOn (ha : AtRest C given i done h) (hc : ¬ C.copyThrows)
    (hthrew : ∀ x, .threw x ∈ h.log → x.IsStd) {m : ℕ} {w : How V} {r : Result V}
    (hw : .returned m w ∈ h.log) (hr : h.Yields w r) : .fulfilled m (.of r) ∈ h.log := by
  rcases ha.inv.forwarded m (by simp) w hw with ht | ⟨st, hst, hmem⟩ | ⟨v, x, e, -, hx, -⟩ |
    ⟨j, rfl, hin⟩
  · exact absurd ht (ha.inv.not_tainted hc hthrew)
  · rcases hr with hset | ⟨j, -, rfl, -⟩
    · rw [hset] at hst
      cases hst
      exact hmem
    · cases hst
  · exact absurd (ha.inv.copies _ x hx) hc
  · rcases hr with hset | ⟨j', st, hj, hst, hful, hres⟩
    · cases hset
    · cases hj
      rcases hin with ⟨st', r', hst', hr', hmem⟩ | ⟨-, -, -, hn⟩ | ⟨-, -, hn⟩
      · rw [hst] at hst'
        cases hst'
        rw [Stored.forward_of_result hres] at hr'
        cases hr'
        exact hmem
      · exact absurd hful hn
      · exact absurd hful hn

/-! ## A promise is fulfilled -/

/-- The code fulfils the promise of the shared state `n`. -/
abbrev fulfils (C : Client V) (fuel : ℕ) (h : Heap V) (n : ℕ) (st : Stored V) :
    Post (Heap V) Exn Fault Unit where
  ok _ h' := Inv C none h' ∧ Ext h h' ∧ .fulfilled n st ∈ h'.log
  throw _ h' := Inv C none h' ∧ h'.Tainted
  stop f h' := Blame C fuel f h'

/-- Continuations that are passive, and come to the bound only where they are not orderly. -/
def Unharmful (call : Cont V × FutureLoc → Code V Unit) : Prop :=
  ∀ (K : ℕ → Prop) c f, Cont.Passive c → Sparing K (fun h => ¬ h.orderly) (call (c, f))

/-- What fulfilling the promise `k` leaves of the others. -/
abbrev leaves (k : ℕ) (h : Heap V) : Post (Heap V) Exn Fault Unit :=
  .kept Heap.Passive (Spared (· ≠ k)) (fun f h => f = .outOfFuel → ¬ h.orderly) h

/-- A value that is moved is not copied. -/
lemma copying_moved : Copying (fun _ => none) (pure () : Code V Unit) := .moved

lemma wp_makeReady_leaves (hcall : Unharmful call) (hi : Inv C none h) (hp : h.Passive)
    (hheld : h.held = []) {copy : Code V Unit} (hcopy : Copying env copy) (st : Stored V) :
    wp (makeReady call (.named k) copy st) (leaves k h) h := by
  have hidle : ¬ h.Busy (.named k) := by
    rw [Heap.Busy, hheld]
    exact List.not_mem_nil
  have hcalm : (Event.locks [.named k] h.fulfilling : Event V).Calm := by
    rw [hi.fulfilling_eq_nil hheld]
    rintro (hdup | ⟨j, -, hj⟩)
    · exact hdup (by simp)
    · cases hj
  have hlock : Spares (· ≠ k) h
      ((h.locking [.named k]).lock (.promise (.named k))) :=
    (Spares.note h hcalm).trans (.held _ _ _)
  obtain ⟨hp', hs⟩ := hlock hp
  rw [makeReady, wp_bind, wp_lockPromise hidle]
  refine (respects_locked (hcall _) ?_ hcopy st).after hp' hs
  intro j hj heq
  cases heq
  exact hj rfl

lemma wp_setValue_leaves (hcall : Unharmful call) (hi : Inv C none h) (hp : h.Passive)
    (hheld : h.held = []) (c : Category) (v : Option V) :
    wp (setValue (fun _ => none) call (.named k) c v) (leaves k h) h := by
  cases v with
  | none =>
    exact wp_makeReady_leaves hcall hi hp hheld copying_moved _
  | some v =>
    cases c with
    | rvalue => exact wp_makeReady_leaves hcall hi hp hheld .copied _
    | lvalue =>
      have hcopied : Spares (· ≠ k) h { h with copies := h.copies + 1 } :=
        .of_eq rfl rfl (Nat.le_refl _) (fun _ he => Or.inl he) fun _ _ hc => hc
      obtain ⟨hp', hs⟩ := hcopied hp
      have hready := wp_makeReady_leaves (h := { h with copies := h.copies + 1 }) (k := k) hcall
        (hi.copied _) hp' hheld (Copying.copied (V := V) : Copying (fun _ => none) _)
        (.value (some v))
      refine wp_mono hready ?_ ?_ ?_
      · exact fun _ _ hq => ⟨hq.1, IsTrans.trans _ _ _ hs hq.2⟩
      · exact fun _ _ hq => ⟨hq.1, IsTrans.trans _ _ _ hs hq.2⟩
      · exact fun _ _ hq => ⟨IsTrans.trans _ _ _ hs hq.1, hq.2⟩

/-- A move of the program fulfils the promise `k`. -/
lemma AtRest.fulfil {c : Code V Unit} (ha : AtRest C given i done h) (hg : given[k]? = some g)
    (hm : ¬ C.misuse) (hc : ¬ C.copyThrows)
    (hthrew : ∀ h, C.J h → ∀ x, .threw x ∈ h.log → x.IsStd)
    (hful : wp c (fulfils C fuel h k g.stored) h) (hleaves : wp c (leaves k h) h) :
    wp c ⟨fun _ h' => AtRest C given i (k :: done) h', fun _ _ => False, fun _ _ => False⟩ h := by
  refine wp_mono (wp_and hful hleaves) ?_ ?_ ?_
  · rintro - h' ⟨⟨hi, he, hmem⟩, hp, hs⟩
    refine ha.extend hi he hp hs (fun j hj => he.log (ha.registered j hj)) ?_ ?_
    · intro j hj
      rcases List.mem_cons.mp hj with rfl | hj
      · refine Or.inr fun g' hg' => ?_
        obtain rfl : g = g' := Option.some.inj (hg.symm.trans hg')
        exact hmem
      · exact Or.inl hj
    · exact fun j hj => ⟨fun hd => hj (List.mem_cons_of_mem _ hd), fun heq => hj (by simp [heq])⟩
  · rintro x h' ⟨⟨hi, ht⟩, -⟩
    exact hi.not_tainted hc (hthrew h' hi.client) ht
  · rintro f h' ⟨hb, hs, hT⟩
    exact hb.absurd hm hc ha.sane hs hT

lemma wp_makeReady_fulfils (hcall : CallSpec C fuel fuel call)
    (henv : ∀ k x, env k = some x → C.copyThrows) (hi : Inv C none h)
    (hp : h.Holds (.named k) n) (hn : h.shared n = none) {st : Stored V}
    (hx : ∀ x, st = .exception x → x.IsStd ∨ .raised x ∈ h.log) {copy : Code V Unit}
    (hcopy : Copying env copy) :
    wp (makeReady call (.named k) copy st) (fulfils C fuel h n st) h := by
  refine wp_mono (wp_makeReady hcall henv hi (Or.inl rfl) (Settable.named hp hn) (by simp) hx
    hcopy (Nat.le_add_right _ _)) ?_ ?_ fun _ _ hb => hb
  · exact fun _ h' ⟨hi', he, _, hmem⟩ => ⟨hi', he, hmem⟩
  · exact fun x h' ⟨hi', _, hx, _⟩ => ⟨hi', hx.1⟩

lemma wp_setValue_fulfils (hcall : CallSpec C fuel fuel call) (hc : ¬ C.copyThrows)
    (hi : Inv C none h) (hp : h.Holds (.named k) n) (hn : h.shared n = none) (c : Category)
    (v : Option V) :
    wp (setValue (fun _ => none) call (.named k) c v) (fulfils C fuel h n (.value v)) h := by
  refine wp_setValue hcall copies_succeed hi (Or.inl rfl) (Settable.named hp hn) (by simp)
    (Nat.le_add_right _ _) c ?_ ?_ ?_ fun _ _ hb => hb
  · exact fun h' hi' he _ hmem => ⟨hi', he, hmem⟩
  · exact fun x h' hi' _ hx _ _ => ⟨hi', hx.1⟩
  · exact fun x h' hi' _ _ hmem _ _ _ => absurd (hi'.copies _ x hmem) hc

/-- An exception is passed to `set_exception`. -/
lemma AtRest.note_raised (ha : AtRest C given i done h) {x : Exn} (hx : x.IsStd)
    (hJ : C.J (h.note (.raised x))) : AtRest C given i done (h.note (.raised x)) where
  inv := ha.inv.note (e := .raised x) trivial rfl trivial hJ
  idle := ha.idle
  returned m hm := ha.returned m ((Heap.running_note (by simp) (by simp)).mp hm)
  sane e he := by
    rcases List.mem_cons.mp he with rfl | he
    · exact hx
    · exact ha.sane e he
  passive := ha.passive
  registered j hj := List.mem_cons_of_mem _ (ha.registered j hj)
  fulfilled k hk g hg := List.mem_cons_of_mem _ (ha.fulfilled k hk g hg)
  unfulfilled k hlt hk :=
    have hsole := (ha.unfulfilled k hlt hk).1
    ⟨⟨hsole.holds, hsole.only, hsole.lt⟩, (ha.unfulfilled k hlt hk).2⟩

/-- The operation that fulfils a promise. -/
lemma AtRest.wp_fulfil (ha : AtRest C given i done h) (hcall : CallSpec C fuel fuel call)
    (hharm : Unharmful call) (hm : ¬ C.misuse) (hc : ¬ C.copyThrows)
    (hthrew : ∀ h, C.J h → ∀ x, .threw x ∈ h.log → x.IsStd)
    (hraised : ∀ h x, x.IsStd → C.J h → C.J (h.note (.raised x))) (hg : given[k]? = some g)
    (hk : k ∉ done) :
    wp (perform (fun _ => none) call (g.act k))
      ⟨fun _ h' => AtRest C given i (k :: done) h', fun _ _ => False, fun _ _ => False⟩ h := by
  have hlt : k < given.length := (List.getElem?_eq_some_iff.mp hg).1
  obtain ⟨hsole, hnone⟩ := ha.unfulfilled k hlt hk
  cases g with
  | value v c =>
    simp only [Given.act, perform, wp_bind, wp_promise hsole.holds, wp_pure]
    exact ha.fulfil hg hm hc hthrew (wp_setValue_fulfils hcall hc ha.inv hsole.holds hnone c v)
      (wp_setValue_leaves hharm ha.inv ha.passive ha.idle c v)
  | error e =>
    simp only [Given.act, perform, wp_bind, wp_promise hsole.holds, wp_pure]
    exact ha.fulfil hg hm hc hthrew
      (wp_makeReady_fulfils hcall copies_succeed ha.inv hsole.holds hnone (by simp) copying_moved)
      (wp_makeReady_leaves hharm ha.inv ha.passive ha.idle copying_moved _)
  | exception x hx =>
    have ha' := ha.note_raised hx (hraised h x hx ha.inv.client)
    simp only [Given.act, perform, wp_bind, wp_promise hsole.holds, wp_modify, wp_pure]
    refine ha'.fulfil hg hm hc hthrew
      (wp_makeReady_fulfils hcall copies_succeed ha'.inv hsole.holds hnone ?_ copying_moved)
      (wp_makeReady_leaves hharm ha'.inv ha'.passive ha'.idle copying_moved _)
    rintro y ⟨⟩
    exact Or.inl hx

/-! ## Plans -/

/-- What the functions of a chain maintain: `rest i` is the client between two moves when `i`
functions are attached, and `busy i` the one during the next call of `then`. -/
structure Plan (given : List (Given V)) (stages : List (Stage V)) where
  blind : Client V
  rest : ℕ → Client V
  busy : ℕ → Client V
  /-- a bound for the number of promises -/
  bound : ℕ
  rest_blind : ∀ i, (rest i).blind = blind
  busy_blind : ∀ i, (busy i).blind = blind
  misuse : ¬ blind.misuse
  copyThrows : ¬ blind.copyThrows
  func : ∀ i s, stages[i]? = some s → blind.K (given.length + i) s.kind s.code
  passive : ∀ s ∈ stages, ∀ x, (s.code x).Passive
  calls : ∀ fuel, 2 * bound < fuel → ∀ i,
    CallSpec (rest i) fuel fuel ((invokeStep fun _ => none)^[fuel] watched) ∧
    CallSpec (busy i) fuel fuel ((invokeStep fun _ => none)^[fuel] watched)
  threw_rest : ∀ i h, (rest i).J h → ∀ x, .threw x ∈ h.log → x.IsStd
  threw_busy : ∀ i h, (busy i).J h → ∀ x, .threw x ∈ h.log → x.IsStd
  raised : ∀ i h x, x.IsStd → (rest i).J h → (rest i).J (h.note (.raised x))
  next : ∀ i h, i < stages.length → (rest i).J h → h.next = given.length + i
  last : ∀ i h, (rest i).J h → h.futures (.handle (.named (tail given.length i))) =
    some ⟨some (tail given.length i), some (tail given.length i)⟩
  free : ∀ i h, (busy i).J h → h.futures (.handle (.named (given.length + i))) = none
  registered : ∀ i h e, i < stages.length → (rest i).J h →
    (busy i).J ((h.registered (tail given.length i)).setFuture
      (.handle (.named (tail given.length i))) ⟨none, e⟩)
  declared : ∀ i h, i < stages.length → (busy i).J h →
    (rest (i + 1)).J (h.setFuture (.handle (.named (given.length + i)))
      ⟨some (given.length + i), some (given.length + i)⟩)
  start : ∀ h : Heap V, h.next = given.length → h.log = [] →
    (∀ k, h.futures (.handle (.named k)) =
      if k < given.length then some ⟨some k, some k⟩ else none) → (rest 0).J h

namespace Plan

variable (P : Plan given stages)

include P

lemma sound (hC : C.blind = P.blind) : ¬ C.misuse ∧ ¬ C.copyThrows := by
  have hm : ¬ C.blind.misuse := hC ▸ P.misuse
  have hc : ¬ C.blind.copyThrows := hC ▸ P.copyThrows
  exact ⟨hm, hc⟩

/-- A promise is fulfilled. -/
lemma wp_fulfil (hcall : CallSpec (P.rest i) fuel fuel call) (hharm : Unharmful call)
    (ha : AtRest (P.rest i) given i done h) (hg : given[k]? = some g) (hk : k ∉ done) :
    wp (perform (fun _ => none) call (g.act k))
      ⟨fun _ h' => AtRest (P.rest i) given i (k :: done) h', fun _ _ => False, fun _ _ => False⟩
      h := by
  obtain ⟨hm, hc⟩ := P.sound (P.rest_blind i)
  exact ha.wp_fulfil hcall hharm hm hc (P.threw_rest i) (fun h x hx => P.raised i h x hx) hg hk

/-- The next call of `then`. -/
lemma wp_attach (hcall : CallSpec (P.busy i) fuel fuel call) (hharm : Unharmful call)
    (ha : AtRest (P.rest i) given i done h) {s : Stage V} (hs : stages[i]? = some s) :
    wp (declareNext call (.named (tail given.length i)) s.kind s.code (given.length + i))
      ⟨fun _ h' => AtRest (P.rest (i + 1)) given (i + 1) done h', fun _ _ => False,
        fun _ _ => False⟩ h := by
  have hi := ha.inv
  have hlt : i < stages.length := (List.getElem?_eq_some_iff.mp hs).1
  have hmem : s ∈ stages := List.mem_of_getElem? hs
  have hnext := P.next i h hlt hi.client
  obtain ⟨hm, hc⟩ := P.sound (P.busy_blind i)
  have hblind : Inv (P.busy i).blind none h := by
    rw [P.busy_blind, ← P.rest_blind i]
    exact hi.blind
  have hK : (P.busy i).K h.next s.kind s.code := by
    have hK := P.func i s hs
    rw [← P.busy_blind i] at hK
    rw [hnext]
    exact hK
  have hthen : wp (declareNext call (.named (tail given.length i)) s.kind s.code
      (given.length + i)) ⟨fun _ h' => Inv (P.rest (i + 1)) none h' ∧ Ext h h' ∧
        .registered (given.length + i) (tail given.length i) ∈ h'.log,
        fun _ h' => Inv (P.busy i) none h' ∧ h'.Tainted, fun f h' => Blame (P.busy i) fuel f h'⟩
      h := by
    simp only [declareNext, wp_bind]
    refine wp_andThen_valid hcall hblind hK (fun e => P.registered i h e hlt hi.client)
      (P.last i h hi.client) (Nat.le_add_right _ _) ?_ ?_ fun _ _ hb => hb
    · intro h₁ hi₁ he₁ hslot hreg
      have hfree := P.free i h₁ hi₁.client
      have hi₁' : Inv (P.rest (i + 1)).blind none h₁ := by
        rw [P.rest_blind, ← P.busy_blind i]
        exact hi₁.blind
      rw [hnext] at hslot hreg ⊢
      simp only [freeFuture, wp_bind, wp_get, hfree, Option.isSome_none, Bool.false_eq_true,
        if_false, wp_pure]
      refine wp_bind.mp (wp_takeNext hi₁' he₁ (Nat.le_of_eq hnext) hslot
        (P.declared i h₁ hlt hi₁.client) ?_)
      exact fun h' hi' he' hlog _ => ⟨hi', he', hlog hreg⟩
    · exact fun x h₁ hi₁ _ hx _ => ⟨hi₁, hx.1⟩
  have hkept := respects_declareNext (K := fun _ => True) (hharm _)
    (.named (tail given.length i)) (P.passive s hmem) (given.length + i) h ha.passive
  refine wp_mono (wp_and hthen hkept) ?_ ?_ ?_
  · rintro - h' ⟨⟨hi', he', hreg⟩, hp, hsp⟩
    refine ha.extend hi' he' hp hsp (fun j hj => ?_) (fun j hj => Or.inl hj)
      fun j hj => ⟨hj, trivial⟩
    rcases Nat.lt_succ_iff_lt_or_eq.mp hj with hj | rfl
    · exact he'.log (ha.registered j hj)
    · exact hreg
  · rintro x h' ⟨⟨hi', ht⟩, -⟩
    exact hi'.not_tainted hc (P.threw_busy i h' hi'.client) ht
  · rintro f h' ⟨hb, hsp, hT⟩
    exact hb.absurd hm hc ha.sane hsp hT

end Plan

/-! ## The promises are made -/

/-- The memory in which the promises before `k` have been made, and their futures retrieved. -/
structure Prepared (C : Client V) (k : ℕ) (h : Heap V) : Prop where
  inv : Inv C.blind none h
  idle : h.held = []
  log : h.log = []
  next : h.next = k
  named : ∀ j, h.promises (.named j) = if j < k then some ⟨some j, some j⟩ else none
  only : ∀ p o, h.promises p = some o → ∃ j, p = .named j
  future : ∀ j, h.futures (.handle (.named j)) = if j < k then some ⟨some j, some j⟩ else none
  vacant : ∀ s, (h.states s).continuation = none
  unready : ∀ n, h.shared n = none

lemma Prepared.initial : Prepared C 0 (.initial : Heap V) where
  inv := Inv.initial trivial
  idle := rfl
  log := rfl
  next := rfl
  named _ := rfl
  only _ _ := nofun
  future _ := rfl
  vacant _ := rfl
  unready _ := rfl

/-- One more promise is made. -/
lemma Prepared.succ (hp : Prepared C k h) :
    Prepared C (k + 1) { (h.newPromise (.named k)).setFuture (.handle (.named k))
      ⟨some k, some k⟩ with retrieved := Function.update h.retrieved k true } := by
  have hnext := hp.next
  have hfree : h.promises (.named k) = none := by
    rw [hp.named, if_neg (Nat.lt_irrefl k)]
  have hmade : (h.newPromise (.named k)).promises (.named k) = some ⟨some k, some k⟩ := by
    simp [Heap.newPromise, Heap.setPromise, hnext]
  have hunretrieved : (h.newPromise (.named k)).retrieved k = false :=
    (hp.inv.core.graph.fresh k (Nat.le_of_eq hnext)).2.1
  obtain ⟨hi₁, -⟩ := hp.inv.newPromise hfree trivial
  obtain ⟨hi₂, -⟩ := hi₁.retrieve (.named k) hmade rfl hunretrieved trivial
  have hlt : ∀ j, j < k + 1 ↔ j = k ∨ j < k := fun j => by omega
  refine ⟨hi₂, hp.idle, hp.log, congrArg (· + 1) hnext, fun j => ?_, fun p o ho => ?_,
    fun j => ?_, hp.vacant, hp.unready⟩
  · show (h.promises.set _ _) _ = _
    rw [Table.set_apply, hp.named, hnext]
    by_cases hj : j = k <;> simp [hj, hlt]
  · have ho : (h.promises.set (.named k) ⟨some h.next, some h.next⟩) p = some o := ho
    rw [Table.set_apply] at ho
    split at ho
    · next heq => exact ⟨k, heq⟩
    · exact hp.only p o ho
  · show (h.futures.set _ _) _ = _
    rw [Table.set_apply, hp.future]
    by_cases hj : j = k <;> simp [hj, hlt]

lemma wp_prepare {κ : Kind} {p : Prog V κ} {Q : Post (Heap V) Exn Fault (κ.Ret V)} (j : ℕ)
    (hp : Prepared C k h) (hQ : ∀ h', Prepared C (k + j) h' → wp (runProg env call p) Q h') :
    wp (runProg env call (prepare j k p)) Q h := by
  induction j generalizing k h with
  | zero => exact hQ h hp
  | succ j ih =>
    have hfree : h.promises (.named k) = none := by
      rw [hp.named, if_neg (Nat.lt_irrefl k)]
    have hfree' : (h.newPromise (.named k)).futures (.handle (.named k)) = none := by
      show h.futures _ = _
      rw [hp.future, if_neg (Nat.lt_irrefl k)]
    have hmade : (h.newPromise (.named k)).promises (.named k) = some ⟨some k, some k⟩ := by
      simp [Heap.newPromise, Heap.setPromise, hp.next]
    have hunretrieved : (h.newPromise (.named k)).retrieved k = false :=
      (hp.inv.core.graph.fresh k (Nat.le_of_eq hp.next)).2.1
    simp only [prepare, runProg, perform, wp_bind, wp_attempt, freePromise, freeFuture, wp_get,
      wp_modify, wp_pure, hfree, hfree', wp_promise hmade, hunretrieved, Option.isSome_none,
      Bool.false_eq_true, if_false]
    refine ih hp.succ fun h' hp' => hQ h' ?_
    rwa [Nat.add_right_comm, Nat.add_assoc] at hp'

/-- Before the first move. -/
lemma Prepared.atRest (hp : Prepared C given.length h) (hJ : C.J h) : AtRest C given 0 [] h where
  inv := hp.inv.of_blind hJ
  idle := hp.idle
  returned m hm := by
    obtain ⟨st, hst⟩ := hm.1
    rw [hp.log] at hst
    cases hst
  sane e he := by
    rw [hp.log] at he
    cases he
  passive s c hc := by
    rw [hp.vacant] at hc
    cases hc
  registered _ := nofun
  fulfilled _ := nofun
  unfulfilled k hk _ := by
    refine ⟨⟨?_, fun p o ho hn => ?_, hp.next ▸ hk⟩, hp.unready k⟩
    · rw [Heap.Holds, hp.named, if_pos hk]
    · obtain ⟨j, rfl⟩ := hp.only p o ho
      rw [hp.named] at ho
      split at ho
      · cases ho
        cases hn
        rfl
      · cases ho

/-! ## Runs -/

/-- The promise that a move fulfils. -/
def Move.fulfilled : Move → Option ℕ
  | attach => none
  | fulfil k => some k

/-- The next promise that a schedule fulfils. -/
lemma next_unfulfilled {l : List ℕ}
    (hfulfil : (done ++ k :: l).Perm (List.range given.length)) :
    k ∉ done ∧ ∃ g, given[k]? = some g := by
  have hnodup := hfulfil.nodup_iff.mpr List.nodup_range
  have hlt : k < given.length := by
    simpa using hfulfil.mem_iff.mp (List.mem_append_right _ List.mem_cons_self)
  refine ⟨fun hk => ?_, _, List.getElem?_eq_getElem hlt⟩
  exact (List.nodup_append.mp hnodup).2.2 k hk k List.mem_cons_self rfl

namespace Plan

variable (P : Plan given stages)

/-- The memory when all functions are attached and all promises are fulfilled. -/
def Finished (h : Heap V) : Prop :=
  ∃ done, AtRest (P.rest stages.length) given stages.length done h ∧
    ∀ k < given.length, k ∈ done

/-- The program comes to its last operation. -/
theorem wp_follow (hcall : ∀ i, CallSpec (P.rest i) fuel fuel call ∧
    CallSpec (P.busy i) fuel fuel call) (hharm : Unharmful call)
    {Q : Post (Heap V) Exn Fault (Kind.result.Ret V)}
    (hQ : ∀ h', P.Finished h' →
      wp (runProg (fun _ => none) call (finish (tail given.length stages.length))) Q h')
    (σ : List Move) (hattach : i + σ.count .attach = stages.length)
    (hfulfil : (done ++ σ.filterMap Move.fulfilled).Perm (List.range given.length))
    (ha : AtRest (P.rest i) given i done h) :
    wp (runProg (fun _ => none) call (follow given stages i σ)) Q h := by
  induction σ generalizing i done h with
  | nil =>
    obtain rfl : i = stages.length := hattach
    refine hQ h ⟨done, ha, fun k hk => ?_⟩
    have hmem := hfulfil.mem_iff.mpr (List.mem_range.mpr hk)
    simpa using hmem
  | cons a σ ih =>
    cases a with
    | attach =>
      rw [List.count_cons_self] at hattach
      have hs := List.getElem?_eq_getElem (show i < stages.length by omega)
      simp only [follow, hs, runProg, wp_bind, wp_attempt]
      refine wp_mono (P.wp_attach (hcall i).2 hharm ha hs) ?_ (fun _ _ hf => hf.elim)
        fun _ _ hf => hf.elim
      exact fun _ h' ha' => ih (by omega) hfulfil ha'
    | fulfil k =>
      have hfulfil : (done ++ k :: σ.filterMap Move.fulfilled).Perm _ := hfulfil
      obtain ⟨hnot, g, hg⟩ := next_unfulfilled hfulfil
      simp only [follow, hg, runProg, wp_bind, wp_attempt]
      refine wp_mono (P.wp_fulfil (hcall i).1 hharm ha hg hnot) ?_ (fun _ _ hf => hf.elim)
        fun _ _ hf => hf.elim
      refine fun _ h' ha' => ih ?_ (List.perm_middle.symm.trans hfulfil) ha'
      rwa [List.count_cons_of_ne (by simp)] at hattach

end Plan

lemma Complete.count (hσ : Complete given stages σ) : σ.count .attach = stages.length := by
  have hzero : ((List.range given.length).map Move.fulfil).count .attach = 0 := by
    rw [List.count_eq_zero]
    simp
  rw [hσ.count_eq, fulfilFirst, List.count_append, hzero, List.count_replicate_self, Nat.zero_add]

lemma Complete.fulfilled (hσ : Complete given stages σ) :
    (σ.filterMap Move.fulfilled).Perm (List.range given.length) := by
  have hfirst : (fulfilFirst given stages).filterMap Move.fulfilled = List.range given.length := by
    have hnone : (List.replicate stages.length Move.attach).filterMap Move.fulfilled = [] :=
      List.filterMap_eq_nil_iff.mpr fun a ha => by rw [List.eq_of_mem_replicate ha]; rfl
    rw [fulfilFirst, List.filterMap_append, hnone, List.append_nil, List.filterMap_map]
    exact List.filterMap_some
  exact hfirst ▸ hσ.filterMap Move.fulfilled

lemma wp_finish {st : Stored V} {r : Result V} {f : ℕ}
    (ho : h.futures (.handle (.named f)) = some ⟨some n, some n⟩) (hst : h.shared n = some st)
    (hr : st.result = some r) {Q : Post (Heap V) Exn Fault (Kind.result.Ret V)}
    (hQ : Q.ok r (h.setFuture (.handle (.named f)) ⟨none, some n⟩)) :
    wp (runProg env call (finish f)) Q h := by
  simp only [finish, runProg, perform, wp_bind, wp_attempt]
  refine wp_getResult ho rfl hst (fun r' hr' => ?_) fun hnone => ?_
  · obtain rfl : r = r' := Option.some.inj (hr.symm.trans hr')
    exact hQ
  · rw [hr] at hnone
    cases hnone

lemma unharmful_iterate (fuel : ℕ) :
    Unharmful ((invokeStep fun _ => none)^[fuel] (watched (V := V))) :=
  fun _ c f hc => respects_iterate respects_watched fuel c f hc

/-- A program that comes to its end when the bound is watched comes to the same end. -/
lemma runMain_of_wp {κ : Kind} {p : Prog V κ} {R : κ.Ret V → Heap V → Prop}
    (hrun : wp (runProg (fun _ => none) ((invokeStep fun _ => none)^[fuel] watched) p)
      ⟨R, fun _ _ => False, fun _ _ => False⟩ .initial) :
    ∃ r h, runMain (fun _ => none) fuel p = .ok r h ∧ R r h := by
  have hagree : Agree .outOfFuel (runProg (fun _ => none) (invoke (fun _ => none) fuel) p)
      (runProg (fun _ => none) ((invokeStep fun _ => none)^[fuel] watched) p) :=
    agree_runProg (agree_invoke _ watched watched_stop fuel) _
  have heq := hagree.eq_of_wp hrun fun _ _ => id
  unfold wp at hrun
  rw [← heq] at hrun
  unfold runMain
  split at hrun
  · next r h hr => exact ⟨r, h, hr, hrun⟩
  · exact hrun.elim
  · exact hrun.elim

/-- **Runs.**  If the last future of the chain is ready in the end, the program returns its result,
whatever the schedule. -/
theorem Plan.run (P : Plan given stages) (hfuel : 2 * P.bound < fuel)
    (hσ : Complete given stages σ) {r : Result V} (hready : ∀ h, P.Finished h →
      ∃ st, h.shared (tail given.length stages.length) = some st ∧ st.result = some r) :
    ∃ h f o, runMain (fun _ => none) fuel (build given stages σ) = .ok r (h.setFuture f o) ∧
      P.Finished h := by
  have hrun : wp (runProg (fun _ => none) ((invokeStep fun _ => none)^[fuel] watched)
      (build given stages σ)) ⟨fun s t => s = r ∧ ∃ h f o, t = h.setFuture f o ∧ P.Finished h,
        fun _ _ => False, fun _ _ => False⟩ .initial := by
    refine wp_prepare given.length (.initial : Prepared (P.rest 0) 0 _) fun h hp => ?_
    rw [Nat.zero_add] at hp
    refine P.wp_follow (P.calls fuel hfuel) (unharmful_iterate fuel) (fun h' hfin => ?_) σ
      ((Nat.zero_add _).trans hσ.count) hσ.fulfilled
      (hp.atRest (P.start h hp.next hp.log hp.future))
    obtain ⟨st, hst, hr⟩ := hready h' hfin
    obtain ⟨done, ha, hdone⟩ := hfin
    exact wp_finish (P.last _ h' ha.inv.client) hst hr ⟨rfl, h', _, _, rfl, done, ha, hdone⟩
  obtain ⟨s, t, hs, rfl, h, f, o, rfl, hfin⟩ := runMain_of_wp hrun
  exact ⟨h, f, o, hs, hfin⟩

end AraCore.Future
