/-
# Code that only looks at futures

Functions that only look at their argument and pass functions of this kind to `then` fulfil no
promise of the program themselves.  Whatever continuations are invoked with them, the promises of
the program stay as they are, no mutex of one of them is locked, and nothing is passed to
`set_exception`.
-/
import AraCore.Future.Depth
import AraCore.Future.Program

namespace AraCore.Future

open Lib Comp

variable {V α : Type} {h h' h'' : Heap V} {K : ℕ → Prop} {p : PromiseLoc} {k n : ℕ}
  {env : ℕ → Option Exn} {call : Cont V × FutureLoc → Code V Unit}

/-! ## What stays as it is -/

/-- The operation only looks at a future. -/
def Act.Looks : Act V → Prop
  | .valid _ | .isReady _ | .wait _ | .getResult _ | .get _ => True
  | _ => False

/-- The program only looks at futures and calls `then`. -/
abbrev Prog.Passive {κ : Kind} (p : Prog V κ) : Prop := p.Within Act.Looks fun _ => True

/-- The continuation is one for a passive function, or an `inner_continuation`. -/
def Cont.Passive : Cont V → Prop
  | link _ _ func => ∀ x, (func x).Passive
  | relay _ => True

/-- Events of passive code. -/
def Event.Calm : Event V → Prop
  | locks ps fulfilling => ¬ (locks ps fulfilling : Event V).Conflict
  | raised _ => False
  | started p => p.node.isSome
  | _ => True

/-- The stored continuations are passive. -/
def Heap.Passive (h : Heap V) : Prop := ∀ s c, (h.states s).continuation = some c → c.Passive

/-- The variable `k` is the promise of the shared state `n`, and there is no other. -/
structure Heap.Sole (h : Heap V) (k n : ℕ) : Prop where
  holds : h.Holds (.named k) n
  only : ∀ p o, h.promises p = some o → o.delegate = some n → p = .named k
  lt : n < h.next

/-- What passive code leaves of the promises in `K`. -/
structure Spared (K : ℕ → Prop) (h h' : Heap V) : Prop where
  calm : ∀ e ∈ h'.log, e ∈ h.log ∨ e.Calm
  sole : ∀ k n, K k → h.Sole k n → h'.Sole k n ∧ h'.shared n = h.shared n

instance : Std.Refl (Spared K : Heap V → Heap V → Prop) where
  refl _ := ⟨fun _ he => Or.inl he, fun _ _ _ hs => ⟨hs, rfl⟩⟩

instance : IsTrans (Heap V) (Spared K) where
  trans _ _ _ h₁ h₂ := by
    refine ⟨fun e he => ?_, fun k n hk hkn => ?_⟩
    · rcases h₂.calm e he with he | he
      · exact h₁.calm e he
      · exact Or.inr he
    · obtain ⟨hkn', heq⟩ := h₁.sole k n hk hkn
      obtain ⟨hkn'', heq'⟩ := h₂.sole k n hk hkn'
      exact ⟨hkn'', heq'.trans heq⟩

/-- A change of the memory that passive code may make. -/
def Spares (K : ℕ → Prop) (h h' : Heap V) : Prop := h.Passive → h'.Passive ∧ Spared K h h'

lemma Spares.refl (h : Heap V) : Spares K h h := fun hp => ⟨hp, Std.Refl.refl h⟩

lemma Spares.trans (h₁ : Spares K h h') (h₂ : Spares K h' h'') : Spares K h h'' := by
  intro hp
  obtain ⟨hp', hs⟩ := h₁ hp
  obtain ⟨hp'', hs'⟩ := h₂ hp'
  exact ⟨hp'', IsTrans.trans _ _ _ hs hs'⟩

/-- A change that fulfils nothing, moves no promise and stores no continuation. -/
lemma Spares.of_eq (hprom : h'.promises = h.promises) (hshared : h'.shared = h.shared)
    (hnext : h.next ≤ h'.next) (hlog : ∀ e ∈ h'.log, e ∈ h.log ∨ e.Calm)
    (hcont : ∀ s c, (h'.states s).continuation = some c → (h.states s).continuation = some c) :
    Spares K h h' := by
  refine fun hp => ⟨fun s c hc => hp s c (hcont s c hc), hlog, fun k n _ hs => ⟨?_, ?_⟩⟩
  · refine ⟨?_, ?_, Nat.lt_of_lt_of_le hs.lt hnext⟩
    · rw [Heap.Holds, hprom]
      exact hs.holds
    · rw [hprom]
      exact hs.only
  · rw [hshared]

lemma Spares.note (h : Heap V) {e : Event V} (he : e.Calm) : Spares K h (h.note e) := by
  refine .of_eq rfl rfl (Nat.le_refl _) (fun e' he' => ?_) fun _ _ hc => hc
  rcases List.mem_cons.mp he' with rfl | he'
  · exact Or.inr he
  · exact Or.inl he'

lemma Spares.setFutures (h : Heap V) (fs : Table FutureLoc FutureObj) :
    Spares K h { h with futures := fs } :=
  .of_eq rfl rfl (Nat.le_refl _) (fun _ he => Or.inl he) fun _ _ hc => hc

lemma Spares.held (h : Heap V) (mxs : List Mutex) (ps : List PromiseLoc) :
    Spares K h { h with held := mxs, fulfilling := ps } :=
  .of_eq rfl rfl (Nat.le_refl _) (fun _ he => Or.inl he) fun _ _ hc => hc

lemma Spares.takeFuture (h : Heap V) (s : ℕ) (f : FutureLoc) : Spares K h (h.takeFuture s f) := by
  refine .of_eq rfl rfl (Nat.le_refl _) (fun _ he => Or.inl he) fun t c hc => ?_
  simp only [Heap.takeFuture, Heap.setFuture, Heap.setState, Function.update_apply] at hc
  split at hc
  · next hts => exact hts ▸ hc
  · exact hc

/-! ## Destruction -/

/-- A promise is abandoned whose shared state is not `n`. -/
lemma Heap.Sole.breakPromise (hs : h.Sole k n) {d : Option ℕ} (hd : d ≠ some n)
    (c : Option PromiseLoc) :
    (h.breakPromise d c).Sole k n ∧ (h.breakPromise d c).shared n = h.shared n := by
  rcases d with _ | m
  · exact ⟨hs, rfl⟩
  simp only [Heap.breakPromise]
  split
  · refine ⟨⟨hs.holds, hs.only, hs.lt⟩, ?_⟩
    simp only [Heap.note, Heap.setShared, Function.update_apply]
    exact if_neg fun heq => hd (by rw [heq])
  · exact ⟨hs, rfl⟩

lemma Spares.breakPromise_rest (h : Heap V) (d : Option ℕ) (c : Option PromiseLoc) :
    (∀ e ∈ (h.breakPromise d c).log, e ∈ h.log ∨ e.Calm) ∧
      (h.breakPromise d c).states = h.states := by
  rcases d with _ | m
  · exact ⟨fun _ he => Or.inl he, rfl⟩
  simp only [Heap.breakPromise]
  split
  · refine ⟨fun e he => ?_, rfl⟩
    rcases List.mem_cons.mp he with rfl | he
    · exact Or.inr trivial
    · exact Or.inl he
  · exact ⟨fun _ he => Or.inl he, rfl⟩

/-- A promise that is not in `K` goes away, and with it what `rel` releases. -/
lemma Spares.drop {rel : Heap V → Heap V} (hrel : ∀ g, Spares K g (rel g)) {o : PromiseObj}
    (ho : h.promises p = some o) (hp : ∀ k, K k → p ≠ .named k) (c : Option PromiseLoc) :
    Spares K h ((rel { h with promises := h.promises.erase p }).breakPromise o.delegate c) := by
  intro hpas
  have herase : Spares K h { h with promises := h.promises.erase p } := by
    refine fun hpas => ⟨hpas, fun _ he => Or.inl he, fun k n hk hs => ⟨⟨?_, ?_, hs.lt⟩, rfl⟩⟩
    · simp only [Heap.Holds, Table.erase_apply, if_neg (hp k hk).symm]
      exact hs.holds
    · intro q o' hq hn
      simp only [Table.erase_apply] at hq
      split at hq
      · cases hq
      · exact hs.only q o' hq hn
  obtain ⟨hpas', hc, hs⟩ := (herase.trans (hrel _)) hpas
  obtain ⟨hlog, hstates⟩ := Spares.breakPromise_rest
    (rel { h with promises := h.promises.erase p }) o.delegate c
  refine ⟨?_, fun e he => ?_, fun k n hk hkn => ?_⟩
  · rw [Heap.Passive, hstates]
    exact hpas'
  · rcases hlog e he with he | he
    · exact hc e he
    · exact Or.inr he
  · obtain ⟨hkn', heq⟩ := hs k n hk hkn
    have hd : o.delegate ≠ some n := fun hd => hp k hk (hkn.only p o ho hd)
    obtain ⟨hkn'', heq'⟩ := hkn'.breakPromise hd c
    exact ⟨hkn'', heq'.trans heq⟩

lemma Spares.releaseState (j s : ℕ) (h : Heap V) : Spares K h (Heap.releaseState j s h) := by
  induction j generalizing s h with
  | zero => exact Spares.refl h
  | succ j ih =>
    rw [Heap.releaseState]
    split
    · exact Spares.refl h
    have hclear : Spares K h (h.setState s ⟨none, none⟩) := by
      refine .of_eq rfl rfl (Nat.le_refl _) (fun _ he => Or.inl he) fun t c hc => ?_
      simp only [Heap.setState, Function.update_apply] at hc
      split at hc
      · cases hc
      · exact hc
    dsimp only
    rcases hc : (h.states s).continuation.bind fun c =>
      ((h.setState s ⟨none, none⟩).promises c.promise).map fun o => (c.promise, o) with _ | ⟨p, o⟩
    · exact hclear
    · obtain ⟨c, -, hpo⟩ := Option.bind_eq_some_iff.mp hc
      obtain ⟨o', ho, heq⟩ := Option.map_eq_some_iff.mp hpo
      cases heq
      have hnamed : ∀ k, K k → c.promise ≠ .named k := fun k _ => c.promise_ne_named k
      refine hclear.trans ?_
      dsimp only
      cases o.extra with
      | none => exact .drop Spares.refl ho hnamed _
      | some s' => exact .drop (ih s') ho hnamed _

lemma Spares.release (h : Heap V) (e : Option ℕ) : Spares K h (h.release e) := by
  cases e with
  | none => exact Spares.refl h
  | some s => exact .releaseState h.next s h

lemma Spares.destroyPromise (h : Heap V) (hp : ∀ k, K k → p ≠ .named k) :
    Spares K h (h.destroyPromise p) := by
  rw [Heap.destroyPromise]
  split
  · exact Spares.refl h
  · next o ho => exact .drop (fun g => .release g o.extra) ho hp _

lemma Spares.destroyFuture (h : Heap V) (f : FutureLoc) : Spares K h (h.destroyFuture f) := by
  rw [Heap.destroyFuture]
  split
  · exact Spares.refl h
  · exact (Spares.setFutures h _).trans (.release _ _)

/-! ## Changes of promises and `State`s -/

lemma Spares.movePromise {src dst : PromiseLoc} {o : PromiseObj} (ho : h.promises src = some o)
    (hsrc : ∀ k, K k → src ≠ .named k) (hdst : ∀ k, K k → dst ≠ .named k) :
    Spares K h (h.movePromise src dst o) := by
  have hget : ∀ q, (h.movePromise src dst o).promises q =
      if q = dst then some o else if q = src then some ⟨none, none⟩ else h.promises q := by
    intro q
    simp only [Heap.movePromise, Heap.setPromise, Table.set_apply]
  refine fun hpas => ⟨hpas, fun _ he => Or.inl he, fun k n hk hs => ⟨⟨?_, ?_, hs.lt⟩, rfl⟩⟩
  · rw [Heap.Holds, hget, if_neg (hdst k hk).symm, if_neg (hsrc k hk).symm]
    exact hs.holds
  · intro q o' hq hn
    rw [hget] at hq
    split at hq
    · cases hq
      exact absurd (hs.only src o ho hn) (hsrc k hk)
    · split at hq
      · cases hq
        cases hn
      · exact hs.only q o' hq hn

/-- A promise that is not in `K` is fulfilled. -/
lemma Spares.fulfil {o : PromiseObj} {m : ℕ} (ho : h.promises p = some o)
    (hm : o.delegate = some m) (hp : ∀ k, K k → p ≠ .named k) (j : ℕ) (st : Stored V) :
    Spares K h ((({ h with copies := j } : Heap V).setShared m st).note (.fulfilled m st)) := by
  refine fun hpas => ⟨hpas, fun e he => ?_, fun k n hk hs => ⟨⟨hs.holds, hs.only, hs.lt⟩, ?_⟩⟩
  · rcases List.mem_cons.mp he with rfl | he
    · exact Or.inr trivial
    · exact Or.inl he
  · simp only [Heap.note, Heap.setShared, Function.update_apply]
    refine if_neg ?_
    rintro rfl
    exact hp k hk (hs.only p o ho hm)

lemma Spares.nextPromise (h : Heap V) : Spares K h (Future.nextPromise h) := by
  refine fun hpas => ⟨hpas, fun _ he => Or.inl he, fun k n _ hs => ⟨⟨?_, ?_, ?_⟩, rfl⟩⟩
  · rw [Heap.Holds, nextPromise_promises, if_neg (by simp)]
    exact hs.holds
  · intro q o hq hn
    rw [nextPromise_promises] at hq
    split at hq
    · cases hq
      cases hn
      exact absurd hs.lt (Nat.lt_irrefl _)
    · exact hs.only q o hq hn
  · exact Nat.lt_succ_of_lt hs.lt

lemma Spares.setContinuation (h : Heap V) (s : ℕ) {c : Cont V} (hc : c.Passive) (f : FutureLoc)
    (o : FutureObj) : Spares K h (h.setContinuation s c f o) := by
  have hstore : Spares K h (h.setState s ⟨some c, (h.states s).delegate⟩) := by
    refine fun hpas => ⟨fun t c' hc' => ?_, fun _ he => Or.inl he, fun k n _ hs =>
      ⟨⟨hs.holds, hs.only, hs.lt⟩, rfl⟩⟩
    simp only [Heap.setState, Function.update_apply] at hc'
    split at hc'
    · cases hc'
      exact hc
    · exact hpas t c' hc'
  have hend : ∀ g : Heap V, Spares K g
      ((g.setState s ⟨(g.states s).continuation, o.delegate⟩).setFuture f ⟨none, o.extra⟩) := by
    intro g
    refine .of_eq rfl rfl (Nat.le_refl _) (fun _ he => Or.inl he) fun t c' hc' => ?_
    simp only [Heap.setState, Heap.setFuture, Function.update_apply] at hc'
    split at hc'
    · next hts => exact hts ▸ hc'
    · exact hc'
  rw [Heap.setContinuation]
  refine hstore.trans (Spares.trans ?_ (hend _))
  split
  · exact Spares.refl _
  · next c' _ => exact .destroyPromise _ fun k _ => c'.promise_ne_named k

/-! ## Passive code -/

/-- Code that passive code may consist of, which comes to the bound only where `T` holds. -/
abbrev Sparing (K : ℕ → Prop) (T : Heap V → Prop) (c : Code V α) : Prop :=
  Respects Heap.Passive (Spared K) (fun f h => f = .outOfFuel → T h) c

variable {T : Heap V → Prop}

lemma respects_promise (p : PromiseLoc) : Sparing K T (promise p : Code V PromiseObj) := by
  refine .bind .get fun h => ?_
  cases h.promises p with
  | none => exact .stop nofun
  | some o => exact .pure o

lemma respects_future (f : FutureLoc) : Sparing K T (future f : Code V FutureObj) := by
  refine .bind .get fun h => ?_
  cases h.futures f with
  | none => exact .stop nofun
  | some o => exact .pure o

lemma respects_lock (mx : Mutex) : Sparing K T (lock mx : Code V Unit) := by
  refine .bind .get fun h => ?_
  split
  · exact .stop nofun
  · exact .modify fun g => Spares.held g _ _

lemma Event.calm_locks (hp : ∀ k, p ≠ .named k) (ps : List PromiseLoc) :
    (locks [p] ps : Event V).Calm := by
  rintro (hdup | ⟨k, hk, -⟩)
  · exact hdup (by simp)
  · exact hp k (List.mem_singleton.mp hk).symm

lemma respects_lockPromise (hp : ∀ k, p ≠ .named k) :
    Sparing K T (lockPromise p : Code V Unit) :=
  .bind (.modify fun h => Spares.note h (Event.calm_locks hp _)) fun _ => respects_lock _

lemma respects_constructPromise {src dst : PromiseLoc} (hsrc : ∀ k, src ≠ .named k)
    (hdst : ∀ k, dst ≠ .named k) :
    Sparing K T (constructPromise src dst : Code V Unit) := by
  intro h hpas
  rcases ho : h.promises src with _ | o
  · simp only [constructPromise, wp_bind, wp_promise_none ho]
    exact ⟨Std.Refl.refl h, nofun⟩
  have hnote := Spares.note (K := K) h (Event.calm_locks hsrc h.fulfilling)
  simp only [constructPromise, lockPromise, wp_bind, wp_promise ho, wp_modify]
  by_cases hmx : .promise src ∈ h.held
  · exact (wp_lock_held (h := h.locking [src]) hmx).mpr ⟨(hnote hpas).2, nofun⟩
  · refine (wp_lock (h := h.locking [src]) hmx).mpr ?_
    have hmove : Spares K ((h.locking [src]).lock (.promise src))
        (((h.locking [src]).lock (.promise src)).movePromise src dst o) :=
      .movePromise ho (fun k _ => hsrc k) fun k _ => hdst k
    exact hnote.trans ((Spares.held _ _ _).trans (hmove.trans (.held _ _ _))) hpas

lemma respects_constructFuture (src dst : FutureLoc) :
    Sparing K T (constructFuture src dst : Code V Unit) :=
  .bind (respects_future _) fun _ => .bind (respects_lock _) fun _ =>
    .modify fun h => (Spares.setFutures h _).trans (.held _ _ _)

lemma respects_copyValue (p : PromiseLoc) :
    Sparing K T (copyValue env p : Code V Unit) := by
  have hcopies : ∀ (h : Heap V) j, Spares K h { h with copies := j } := fun h j =>
    .of_eq rfl rfl (Nat.le_refl _) (fun _ he => Or.inl he) fun _ _ hc => hc
  refine .bind .get fun h => .bind (.modify fun g => hcopies g _) fun _ => ?_
  cases env h.copies with
  | none => exact .pure ()
  | some x => exact .bind (.modify fun g => Spares.note g trivial) fun _ => .throw x

/-- A promise that is not in `K` is fulfilled, or refuses. -/
lemma respects_setDelegate (hp : ∀ k, K k → p ≠ .named k) {copy : Code V Unit}
    (hcopy : Copying env copy) (st : Stored V) : Sparing K T (setDelegate p copy st) := by
  intro h hpas
  rcases ho : h.promises p with _ | o
  · simp only [setDelegate, wp_bind, wp_promise_none ho]
    exact ⟨Std.Refl.refl h, nofun⟩
  rcases hm : o.delegate with _ | m
  · simp only [setDelegate, wp_bind, wp_promise ho, hm]
    exact Spares.refl h hpas
  rcases hst : h.shared m with _ | st'
  · refine wp_setDelegate ho hm hst hcopy (fun j => Spares.fulfil ho hm hp j st hpas)
      fun j x _ => ⟨?_, nofun⟩
    have hcopied : Spares K h (({ h with copies := j } : Heap V).note (.copyAborted x)) := by
      refine .of_eq rfl rfl (Nat.le_refl _) (fun e he => ?_) fun _ _ hc => hc
      rcases List.mem_cons.mp he with rfl | he
      · exact Or.inr trivial
      · exact Or.inl he
    exact (hcopied hpas).2
  · simp only [setDelegate, wp_bind, wp_promise ho, hm, wp_get, hst]
    exact Spares.refl h hpas

lemma respects_getResult (f : FutureLoc) :
    Sparing K T (getResult f : Code V (Result V)) := by
  refine .bind (respects_future f) fun o => ?_
  cases o.delegate with
  | none => exact .pure _
  | some n =>
    refine .bind .get fun h => ?_
    cases h.shared n with
    | none => exact .stop nofun
    | some st =>
      refine .bind (.modify fun g => Spares.setFutures g _) fun _ => ?_
      cases st with
      | value v => exact .pure _
      | error e => exact .pure _
      | exception x =>
        dsimp only
        cases x.toError with
        | none => exact .stop nofun
        | some e => exact .pure _

lemma respects_isReady (f : FutureLoc) : Sparing K T (isReady f : Code V Bool) := by
  refine .bind (respects_future f) fun o => ?_
  cases o.delegate with
  | none => exact .throw _
  | some n => exact .bind .get fun h => .pure _

section Calls

variable (hcall : ∀ c f, Cont.Passive c → Sparing K T (call (c, f)))

include hcall

lemma respects_fireContinuation (s : ℕ) : Sparing K T (fireContinuation call s) := by
  intro h hpas
  simp only [fireContinuation, wp_bind, wp_get]
  rcases hc : (h.states s).continuation with _ | c
  · exact Spares.refl h hpas
  · have hfire : Sparing K T (do
        modify fun h => h.takeFuture s c.arg
        cleanup (call (c, c.arg)) fun h => h.destroyFuture c.arg : Code V Unit) :=
      .bind (.modify fun g => Spares.takeFuture g s _) fun _ =>
        .cleanup (hcall c _ (hpas s c hc)) fun g => Spares.destroyFuture g _
    exact hfire h hpas

/-- What `makeReady` does while the mutex is locked. -/
lemma respects_locked (hp : ∀ k, K k → p ≠ .named k) {copy : Code V Unit}
    (hcopy : Copying env copy) (st : Stored V) :
    Sparing K T (do
      modify fun h => h.enter p
      cleanup (do
        setDelegate p copy st
        match (← promise p).extra with
        | none => stop .undefined
        | some s => fireContinuation call s) fun h => h.leave p) := by
  refine .bind (.modify fun g => Spares.held g _ _) fun _ =>
    .cleanup (.bind (respects_setDelegate hp hcopy st) fun _ =>
      .bind (respects_promise p) fun o => ?_) fun g => Spares.held g _ _
  cases o.extra with
  | none => exact .stop nofun
  | some s => exact respects_fireContinuation hcall s

lemma respects_makeReady (hp : ∀ k, p ≠ .named k) {copy : Code V Unit}
    (hcopy : Copying env copy) (st : Stored V) :
    Sparing K T (makeReady call p copy st) :=
  .bind (respects_lockPromise hp) fun _ => respects_locked hcall (fun k _ => hp k) hcopy st

lemma respects_setValue (hp : ∀ k, p ≠ .named k) (c : Category) (v : Option V) :
    Sparing K T (setValue env call p c v) := by
  cases v with
  | none => exact respects_makeReady hcall hp (.moved : Copying env _) _
  | some v =>
    cases c with
    | lvalue =>
      exact .bind (respects_copyValue p) fun _ => respects_makeReady hcall hp .copied _
    | rvalue => exact respects_makeReady hcall hp .copied _

lemma respects_setError (hp : ∀ k, p ≠ .named k) (e : ErrorCode) :
    Sparing K T (setError call p e) :=
  respects_makeReady hcall hp (.moved : Copying (fun _ => none) _) _

lemma respects_innerContinuation (m : ℕ) (f : FutureLoc) :
    Sparing K T (innerContinuation env call m f) := by
  refine .bind (respects_getResult f) fun r => ?_
  cases r with
  | ok v => exact respects_setValue hcall (by simp) _ _
  | error e => exact respects_setError hcall (by simp) e

lemma respects_handlers (m : ℕ) (x : Exn) : Sparing K T (handlers call m x) := by
  unfold handlers
  cases x.handled with
  | none => exact .throw x
  | some e => exact respects_setError hcall (by simp) e

omit hcall in
lemma respects_callFunc {κ : Kind} {body : Code V (κ.Ret V)} (hb : Sparing K T body)
    (m : ℕ) (f : FutureLoc) : Sparing K T (callFunc m body f) := by
  have hreceive : ∀ r : κ.Ret V, Sparing K T (receive m r : Code V Unit) := by
    intro r
    cases κ with
    | future =>
      cases r with
      | none => exact .modify fun g => Spares.setFutures g _
      | some x => exact respects_constructFuture _ _
    | result | value | void => exact .pure ()
  refine .bind (respects_future f) fun o => .bind (respects_constructFuture _ _) fun _ =>
    .bind (.modify fun g => Spares.note g trivial) fun _ => .bind (.unwind (.cleanup
      (.bind hb fun r => .bind (hreceive r) fun _ => .pure r) fun g => Spares.destroyFuture g _)
        fun x g => Spares.note g trivial) fun r =>
          .bind (.modify fun g => Spares.note g trivial) fun _ => .pure r

lemma respects_attachInner (m : ℕ) : Sparing K T (attachInner call m) := by
  refine .bind (respects_future _) fun o => ?_
  cases o.delegate with
  | none => exact respects_setError hcall (by simp) _
  | some j =>
    cases o.extra with
    | none => exact .stop nofun
    | some s =>
      refine .bind (respects_lock _) fun _ =>
        .bind (respects_constructPromise (by simp) (by simp)) fun _ => .bind .get fun h => ?_
      cases h.shared j with
      | none =>
        exact .modify fun g =>
          (Spares.setContinuation g s (c := .relay m) trivial _ o).trans (.held _ _ _)
      | some st =>
        exact .bind (.modify fun g => Spares.held g _ _) fun _ => .cleanup
          (.bind (respects_constructFuture _ _) fun _ =>
            .cleanup (hcall _ _ trivial) fun g => Spares.destroyFuture g _)
          fun g => Spares.destroyPromise g (by simp)

lemma respects_fulfillPromise {κ : Kind} {body : Code V (κ.Ret V)}
    (hb : Sparing K T body) (m : ℕ) (f : FutureLoc) :
    Sparing K T (fulfillPromise env call m κ body f) := by
  cases κ with
  | future =>
    exact .tryCatch (.bind (respects_callFunc hb m f) fun _ =>
      .cleanup (respects_attachInner hcall m) fun g => Spares.destroyFuture g _)
        (respects_handlers hcall m)
  | result =>
    refine .tryCatch (.bind (respects_callFunc hb m f) fun r => ?_) (respects_handlers hcall m)
    cases r with
    | ok v => exact respects_setValue hcall (by simp) _ _
    | error e => exact respects_setError hcall (by simp) e
  | value | void =>
    exact .tryCatch (.bind (respects_callFunc hb m f) fun _ =>
      respects_setValue hcall (by simp) _ _) (respects_handlers hcall m)

lemma respects_andThen (f : Handle) {κ : Kind} {func : Handle → Prog V κ}
    (hfunc : ∀ x, (func x).Passive) : Sparing K T (andThen call f κ func) := by
  refine .bind (respects_future _) fun o => ?_
  cases o.extra with
  | none => exact .stop nofun
  | some s =>
    refine .bind (respects_lock _) fun _ => .bind .get fun h =>
      .bind (.modify fun g => Spares.nextPromise g) fun _ => ?_
    cases o.delegate with
    | none =>
      exact .bind (.modify fun g => (Spares.destroyPromise g (by simp)).trans
        ((Spares.destroyFuture _ _).trans (.held _ _ _))) fun _ => .throw _
    | some n =>
      refine .bind (.modify fun g => Spares.note g trivial) fun _ => .bind .get fun g => ?_
      cases g.shared n with
      | none =>
        exact .bind (.modify fun g => (Spares.setContinuation g s (c := .link h.next κ func)
          hfunc _ o).trans (.held _ _ _)) fun _ => .pure _
      | some st =>
        exact .bind (.modify fun g => Spares.held g _ _) fun _ => .bind (.unwind (.cleanup
          (.bind (respects_constructFuture _ _) fun _ =>
            .cleanup (hcall _ _ hfunc) fun g => Spares.destroyFuture g _)
          fun g => Spares.destroyPromise g (by simp)) fun _ g => Spares.destroyFuture g _)
            fun _ => .pure _

lemma respects_declareNext (f : Handle) {κ : Kind} {func : Handle → Prog V κ}
    (hfunc : ∀ x, (func x).Passive) (next : ℕ) :
    Sparing K T (declareNext call f κ func next) := by
  refine .bind (respects_andThen hcall f hfunc) fun m => .bind (.bind .get fun h => ?_) fun _ =>
    .bind (respects_constructFuture _ _) fun _ => .modify fun g => Spares.destroyFuture g _
  split
  · exact .stop nofun
  · exact .pure ()

omit hcall in
lemma respects_perform {a : Act V} (ha : a.Looks) :
    Sparing K T (perform env call a) := by
  cases a with
  | valid f => exact .bind (respects_future _) fun o => .pure _
  | isReady f => exact .bind (respects_isReady _) fun b => .pure _
  | wait f =>
    refine .bind (.bind (respects_isReady _) fun b => ?_) fun _ => .pure _
    split
    · exact .pure ()
    · exact .stop nofun
  | getResult f => exact .bind (respects_getResult _) fun r => .pure _
  | get f =>
    refine .bind (.bind (respects_getResult _) fun r => ?_) fun v => .pure _
    cases r with
    | ok v => exact .pure v
    | error e => exact .throw _
  | _ => exact ha.elim

/-- Passive programs leave the promises as they are. -/
theorem respects_runProg {κ : Kind} {p : Prog V κ} (hp : p.Passive) :
    Sparing K T (runProg env call p) := by
  induction p with
  | ret r => exact .pure r
  | throw x => exact .bind (.modify fun g => Spares.note g trivial) fun _ => .throw x
  | act a k ih => exact .bind (.attempt (respects_perform hp.1)) fun r => ih r (hp.2 r)
  | thenCall f κ' func next k _ ih =>
    exact .bind (.attempt (respects_declareNext hcall f hp.2.1 next)) fun r => ih r (hp.2.2 r)

lemma respects_invokeStep (c : Cont V) (f : FutureLoc) (hc : c.Passive) :
    Sparing K T (invokeStep env call (c, f)) := by
  have hcalm : (Event.started c.promise : Event V).Calm := by
    rw [Event.Calm, Cont.node_promise]
    rfl
  refine .bind (.modify fun g => Spares.note g hcalm) fun _ => .unwind ?_
    fun x g => Spares.note g trivial
  cases c with
  | link m κ func => exact respects_fulfillPromise hcall (respects_runProg hcall (hc _)) m f
  | relay m => exact respects_innerContinuation hcall m f

end Calls

/-- **Passive continuations** leave the promises as they are, at whatever depth they are
invoked. -/
theorem respects_iterate {base : Cont V × FutureLoc → Code V Unit}
    (hbase : ∀ c f, Sparing K T (base (c, f))) (fuel : ℕ) (c : Cont V) (f : FutureLoc)
    (hc : c.Passive) : Sparing K T ((invokeStep env)^[fuel] base (c, f)) := by
  induction fuel generalizing c f with
  | zero => exact hbase c f
  | succ fuel ih =>
    rw [Function.iterate_succ_apply']
    exact respects_invokeStep ih c f hc

end AraCore.Future
