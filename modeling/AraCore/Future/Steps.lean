/-
# The parts of the invariant under elementary changes

How the objects, the stored continuations, the calls in progress and the chronicle fare when
one object, one `State`, one shared state or the chronicle changes.
-/
import AraCore.Future.Invariant

namespace AraCore.Future

open Lib Comp

variable {V : Type} {h h' : Heap V}

section Note

variable {e : Event V}

@[simp] lemma Heap.note_next : (h.note e).next = h.next := rfl
@[simp] lemma Heap.note_shared : (h.note e).shared = h.shared := rfl
@[simp] lemma Heap.note_retrieved : (h.note e).retrieved = h.retrieved := rfl
@[simp] lemma Heap.note_states : (h.note e).states = h.states := rfl
@[simp] lemma Heap.note_promises : (h.note e).promises = h.promises := rfl
@[simp] lemma Heap.note_futures : (h.note e).futures = h.futures := rfl
@[simp] lemma Heap.note_held : (h.note e).held = h.held := rfl
@[simp] lemma Heap.note_fulfilling : (h.note e).fulfilling = h.fulfilling := rfl
@[simp] lemma Heap.note_log : (h.note e).log = e :: h.log := rfl

lemma Heap.subset_note (h : Heap V) (e : Event V) : h.log ⊆ (h.note e).log :=
  List.subset_cons_self _ _

end Note

/-! ## Objects -/

/-- Nothing that the objects refer to has changed. -/
lemma Graph.of_eq (hg : Graph h) (hnext : h'.next = h.next) (hshared : h'.shared = h.shared)
    (hretr : h'.retrieved = h.retrieved) (hstates : h'.states = h.states)
    (hprom : h'.promises.lookup = h.promises.lookup)
    (hfut : h'.futures.lookup = h.futures.lookup) : Graph h' := by
  obtain ⟨_, _, _, _, _, _, _, _, _, _⟩ := hg
  constructor <;> simp only [hnext, hshared, hretr, hstates, hprom, hfut] <;> assumption

lemma Graph.newPromise (hg : Graph h) {p : PromiseLoc} (hp : ∀ m, p.node = some m → m ≤ h.next) :
    Graph (h.newPromise p) := by
  obtain ⟨_, _, _, _, _, _, _, _, _, _⟩ := hg
  constructor <;> simp only [Heap.newPromise, Heap.setPromise, Table.set_apply] <;> grind

lemma Graph.movePromise (hg : Graph h) {a b : PromiseLoc} {o : PromiseObj}
    (ho : h.promises a = some o) (hb : ∀ m, b.node = some m → m < h.next) :
    Graph (h.movePromise a b o) := by
  obtain ⟨_, _, _, _, _, _, _, _, _, _⟩ := hg
  constructor <;> simp only [Heap.movePromise, Heap.setPromise, Table.set_apply] <;> grind

lemma Graph.swapPromise (hg : Graph h) {p q : PromiseLoc} {o o' : PromiseObj}
    (ho : h.promises p = some o) (ho' : h.promises q = some o') :
    Graph (h.swapPromise p q o o') := by
  obtain ⟨_, _, _, _, _, _, _, _, _, _⟩ := hg
  constructor <;> simp only [Heap.swapPromise, Heap.setPromise, Table.set_apply] <;> grind

lemma Graph.erasePromise (hg : Graph h) (p : PromiseLoc) :
    Graph { h with promises := h.promises.erase p } := by
  obtain ⟨_, _, _, _, _, _, _, _, _, _⟩ := hg
  constructor <;> simp only [Table.erase_apply] <;> grind

lemma Graph.setShared (hg : Graph h) {n : ℕ} (hn : n < h.next) (st : Stored V) :
    Graph (h.setShared n st) := by
  obtain ⟨_, _, _, _, _, _, _, _, _, _⟩ := hg
  constructor <;> simp only [Heap.setShared, Function.update_apply] <;> grind

lemma Graph.clearState (hg : Graph h) (s : ℕ) : Graph (h.setState s ⟨none, none⟩) := by
  obtain ⟨_, _, _, _, _, _, _, _, _, _⟩ := hg
  constructor <;> simp only [Heap.setState, Function.update_apply] <;> grind

lemma Graph.moveFuture (hg : Graph h) {a b : FutureLoc} {o : FutureObj}
    (ho : h.futures a = some o) : Graph (h.moveFuture a b o) := by
  obtain ⟨_, _, _, _, _, _, _, _, _, _⟩ := hg
  constructor <;> simp only [Heap.moveFuture, Heap.setFuture, Table.set_apply] <;> grind

lemma Graph.setFuture_none (hg : Graph h) (f : FutureLoc) (e : Option ℕ) :
    Graph (h.setFuture f ⟨none, e⟩) := by
  obtain ⟨_, _, _, _, _, _, _, _, _, _⟩ := hg
  constructor <;> simp only [Heap.setFuture, Table.set_apply] <;> grind

lemma Graph.eraseFuture (hg : Graph h) (f : FutureLoc) :
    Graph { h with futures := h.futures.erase f } := by
  obtain ⟨_, _, _, _, _, _, _, _, _, _⟩ := hg
  constructor <;> simp only [Table.erase_apply] <;> grind

lemma Graph.retrieve (hg : Graph h) {p : PromiseLoc} {o : PromiseObj} {n : ℕ} (f : FutureLoc)
    (ho : h.promises p = some o) (hn : o.delegate = some n) (hr : h.retrieved n = false) :
    Graph { h.setFuture f ⟨some n, o.extra⟩ with
      retrieved := Function.update h.retrieved n true } := by
  have hd : (h.states n).delegate = none := by
    rcases hs : (h.states n).delegate with _ | k
    · rfl
    · obtain ⟨rfl, hk⟩ := hg.state_delegate n k hs
      simp [hr] at hk
  obtain ⟨_, _, _, _, _, _, _, _, _, _⟩ := hg
  constructor <;> simp only [Heap.setFuture, Table.set_apply, Function.update_apply] <;> grind

lemma Graph.nextPromise (hg : Graph h) : Graph (nextPromise h) := by
  obtain ⟨_, _, _, _, _, _, _, _, _, _⟩ := hg
  constructor <;>
    simp only [Future.nextPromise, Heap.newPromise, Heap.setPromise, Heap.setFuture,
      Table.set_apply, Function.update_apply] <;> grind [PromiseLoc.node]

lemma Graph.takeFuture (hg : Graph h) (s : ℕ) (f : FutureLoc) : Graph (h.takeFuture s f) := by
  obtain ⟨_, _, _, _, _, _, _, _, _, _⟩ := hg
  constructor <;>
    simp only [Heap.takeFuture, Heap.setFuture, Heap.setState, Table.set_apply,
      Function.update_apply] <;> grind

/-- The delegate of a future moves into its `State`. -/
lemma Graph.register (hg : Graph h) {s : ℕ} (c : Cont V) {f : FutureLoc} {o : FutureObj}
    (ho : h.futures f = some o) (hs : o.delegate = some s) (hlt : s < h.next) :
    Graph ((h.setState s ⟨some c, o.delegate⟩).setFuture f ⟨none, o.extra⟩) := by
  obtain ⟨_, _, _, _, _, _, _, _, _, _⟩ := hg
  constructor <;>
    simp only [Heap.setFuture, Heap.setState, Table.set_apply, Function.update_apply] <;> grind

/-! ## Stored continuations -/

lemma Conts.of_eq (hk : Conts h) (hnext : h.next ≤ h'.next) (hshared : h'.shared = h.shared)
    (hstates : h'.states = h.states) (hprom : h'.promises.lookup = h.promises.lookup)
    (hlog : h'.log = h.log) : Conts h' := by
  obtain ⟨_, _, _, _, _, _, _, _, _⟩ := hk
  constructor <;>
    simp only [Heap.Started, Heap.Holds, Heap.Returned, hshared, hstates, hprom, hlog] at * <;>
    grind

lemma Conts.note (hk : Conts h) {e : Event V} (hs : ∀ p, e ≠ .started p)
    (ha : ∀ n p, e ≠ .abandoned n (some p)) : Conts (h.note e) := by
  obtain ⟨_, _, _, _, _, _, _, _, _⟩ := hk
  constructor <;>
    simp only [Heap.Started, Heap.Holds, Heap.Returned, Heap.note_next, Heap.note_shared,
      Heap.note_states, Heap.note_promises, Heap.note_log, List.mem_cons] at * <;> grind

lemma Conts.note_started (hk : Conts h) {p : PromiseLoc}
    (hp : ∀ s c, (h.states s).continuation = some c → c.promise = p → h.shared s ≠ none)
    (ha : ∀ n, .abandoned n (some p) ∉ h.log) : Conts (h.note (.started p)) := by
  obtain ⟨_, _, _, _, _, _, _, _, _⟩ := hk
  constructor <;>
    simp only [Heap.Started, Heap.Holds, Heap.Returned, Heap.note_next, Heap.note_shared,
      Heap.note_states, Heap.note_promises, Heap.note_log, List.mem_cons] at * <;> grind

lemma Conts.note_abandoned (hk : Conts h) {n : ℕ} {c : Option PromiseLoc}
    (hp : ∀ p, c = some p → ¬ h.Started p ∧
      ∀ s c, (h.states s).continuation = some c → c.promise = p → s = n) :
    Conts (h.note (.abandoned n c)) := by
  obtain ⟨_, _, _, _, _, _, _, _, _⟩ := hk
  constructor <;>
    simp only [Heap.Started, Heap.Holds, Heap.Returned, Heap.note_next, Heap.note_shared,
      Heap.note_states, Heap.note_promises, Heap.note_log, List.mem_cons] at * <;> grind

lemma Conts.newPromise (hk : Conts h) {p : PromiseLoc}
    (hc : ∀ s c, (h.states s).continuation = some c → c.promise ≠ p)
    (ho : ∀ m, p ≠ .outer m) : Conts (h.newPromise p) := by
  obtain ⟨_, _, _, _, _, _, _, _, _⟩ := hk
  constructor <;>
    simp only [Heap.newPromise, Heap.setPromise, Table.set_apply, Heap.Started, Heap.Holds,
      Heap.Returned] at * <;> grind

lemma Conts.movePromise (hk : Conts h) {src dst : PromiseLoc} {o : PromiseObj}
    (hdst : h.promises dst = none)
    (hc : ∀ s c, (h.states s).continuation = some c → ¬ h.Started c.promise → c.promise ≠ src)
    (hout : ∀ m, dst = .outer m → h.Returned m) (hout' : ∀ m, src = .outer m → h.Returned m) :
    Conts (h.movePromise src dst o) := by
  obtain ⟨_, _, _, _, _, _, _, _, _⟩ := hk
  constructor <;>
    simp only [Heap.movePromise, Heap.setPromise, Table.set_apply, Heap.Started, Heap.Holds,
      Heap.Returned] at * <;> grind

/-- Promises that no continuation has captured change. -/
lemma Conts.setPromise (hk : Conts h) {k : ℕ} (o : PromiseObj) :
    Conts (h.setPromise (.named k) o) := by
  have hc : ∀ s c, (h.states s).continuation = some c → c.promise ≠ .named k := by
    intro s c _
    cases c <;> simp [Cont.promise]
  obtain ⟨_, _, _, _, _, _, _, _, _⟩ := hk
  constructor <;>
    simp only [Heap.setPromise, Table.set_apply, Heap.Started, Heap.Holds, Heap.Returned] at * <;>
    grind

lemma Conts.erasePromise (hk : Conts h) {p : PromiseLoc}
    (hc : ∀ s c, (h.states s).continuation = some c → ¬ h.Started c.promise → c.promise ≠ p) :
    Conts { h with promises := h.promises.erase p } := by
  obtain ⟨_, _, _, _, _, _, _, _, _⟩ := hk
  constructor <;>
    simp only [Table.erase_apply, Heap.Started, Heap.Holds, Heap.Returned] at * <;> grind

lemma Conts.clearState (hk : Conts h) (s : ℕ) : Conts (h.setState s ⟨none, none⟩) := by
  obtain ⟨_, _, _, _, _, _, _, _, _⟩ := hk
  constructor <;>
    simp only [Heap.setState, Function.update_apply, Heap.Started, Heap.Holds,
      Heap.Returned] at * <;> grind

lemma Conts.setShared (hk : Conts h) {n : ℕ} (st : Stored V)
    (hc : ∀ s c, (h.states s).continuation = some c → ¬ h.Started c.promise → c.node ≠ n) :
    Conts (h.setShared n st) := by
  obtain ⟨_, _, _, _, _, _, _, _, _⟩ := hk
  constructor <;>
    simp only [Heap.setShared, Function.update_apply, Heap.Started, Heap.Holds,
      Heap.Returned] at * <;> grind

/-- A `State` gives its delegate to the continuation that is invoked. -/
lemma Conts.takeFuture (hk : Conts h) {s : ℕ} {c : Cont V}
    (hc : (h.states s).continuation = some c) (hs : h.shared s ≠ none)
    (ha : ∀ n, .abandoned n (some c.promise) ∉ h.log) :
    Conts ((h.takeFuture s c.arg).note (.started c.promise)) := by
  obtain ⟨_, _, _, _, _, _, _, _, _⟩ := hk
  constructor <;>
    simp only [Heap.takeFuture, Heap.setState, Heap.setFuture, Function.update_apply,
      Heap.Started, Heap.Holds, Heap.Returned, Heap.note_next, Heap.note_shared,
      Heap.note_states, Heap.note_promises, Heap.note_log, List.mem_cons] at * <;> grind

/-- A continuation that no other `State` has is stored. -/
lemma Conts.register (hk : Conts h) {s : ℕ} {c : Cont V} {f : FutureLoc} {o : FutureObj}
    (ho : o.delegate = some s) (hlt : c.node < h.next) (hs : ¬ h.Started c.promise)
    (hp : h.Holds c.promise c.node) (hn : h.shared c.node = none)
    (hnew : ∀ t c', (h.states t).continuation = some c' → c'.promise ≠ c.promise)
    (ha : ∀ n, .abandoned n (some c.promise) ∉ h.log)
    (hl : ∀ m κ func, c = .link m κ func → .registered m s ∈ h.log)
    (hr : ∀ m, c = .relay m → .returned m (.inner (some s)) ∈ h.log) :
    Conts ((h.setState s ⟨some c, o.delegate⟩).setFuture f ⟨none, o.extra⟩) := by
  obtain ⟨_, _, _, _, _, _, _, _, _⟩ := hk
  constructor <;>
    simp only [Heap.setState, Heap.setFuture, Function.update_apply, Heap.Started, Heap.Holds,
      Heap.Returned] at * <;> grind

/-! ## Calls in progress -/

/-- The calls in progress are as before, and what they rely on has not changed. -/
lemma Calls.frame (hc : Calls h) (hrun : ∀ m, h'.Running m → h.Running m)
    (hbusy : ∀ p, h'.Busy p ↔ h.Busy p)
    (hholds : ∀ p n, h.InUse p → h.Holds p n → h'.Holds p n)
    (hsome : ∀ n, (h.shared n).isSome → (h'.shared n).isSome)
    (hnone : ∀ m, h.Running m → h.shared m = none → h'.shared m = none)
    (hcont : ∀ s c, (h'.states s).continuation = some c →
      (h.states s).continuation = some c ∨ ¬ h.InUse c.promise) : Calls h' := by
  have huse : ∀ p, h'.InUse p → h.InUse p := by
    rintro p (hp | ⟨m, rfl, hm⟩)
    · exact Or.inl ((hbusy p).mp hp)
    · exact Or.inr ⟨m, rfl, hrun m hm⟩
  constructor
  · intro m hm
    obtain ⟨hp, hn⟩ := hc.running m (hrun m hm)
    exact ⟨hholds _ _ (Or.inr ⟨m, rfl, hrun m hm⟩) hp, hnone m (hrun m hm) hn⟩
  · intro p hp
    obtain ⟨n, hpn, hn⟩ := hc.busy p ((hbusy p).mp hp)
    exact ⟨n, hholds p n (Or.inl ((hbusy p).mp hp)) hpn, hsome n hn⟩
  · intro s c hs hu
    rcases hcont s c hs with hs | hno
    · obtain ⟨p, hp, hps⟩ := hc.guard s c hs (huse _ hu)
      exact ⟨p, (hbusy p).mpr hp, hholds p s (Or.inl hp) hps⟩
    · exact absurd (huse _ hu) hno

/-- A function is called whose continuation is kept alive, if a `State` has it. -/
lemma Calls.note_called (hc : Calls h) {m : ℕ} (st : Option (Stored V))
    (hp : h.Holds (.succ m) m) (hn : h.shared m = none)
    (hg : ∀ s c, (h.states s).continuation = some c → c.promise = .succ m → h.Guarded s) :
    Calls (h.note (.called m st)) := by
  have hrun : ∀ k, (h.note (.called m st)).Running k → k = m ∨ h.Running k := by
    rintro k ⟨⟨st', hk⟩, hr⟩
    rcases List.mem_cons.mp hk with hk | hk
    · exact Or.inl (by cases hk; rfl)
    · exact Or.inr ⟨⟨st', hk⟩, fun ⟨w, hw⟩ => hr ⟨w, List.mem_cons_of_mem _ hw⟩⟩
  constructor
  · intro k hk
    rcases hrun k hk with rfl | hk
    · exact ⟨hp, hn⟩
    · exact hc.running k hk
  · exact hc.busy
  · rintro s c hs (hb | ⟨k, hk, hrk⟩)
    · exact hc.guard s c hs (Or.inl hb)
    · rcases hrun k hrk with rfl | hrk
      · exact hg s c hs hk
      · exact hc.guard s c hs (Or.inr ⟨k, hk, hrk⟩)

/-- A promise begins to be fulfilled. -/
lemma Calls.enter (hc : Calls h) {p : PromiseLoc} {n : ℕ} (hp : h.Holds p n)
    (hn : (h.shared n).isSome)
    (hg : ∀ s c, (h.states s).continuation = some c → c.promise = p → h.Guarded s) :
    Calls ((h.lock (.promise p)).enter p) := by
  have hbusy : ∀ q, ((h.lock (.promise p)).enter p).Busy q → q = p ∨ h.Busy q := by
    intro q hq
    rcases List.mem_cons.mp hq with hq | hq
    · exact Or.inl (by cases hq; rfl)
    · exact Or.inr hq
  have hguard : ∀ s, h.Guarded s → ((h.lock (.promise p)).enter p).Guarded s := by
    rintro s ⟨q, hq, hqs⟩
    exact ⟨q, List.mem_cons_of_mem _ hq, hqs⟩
  constructor
  · exact hc.running
  · intro q hq
    rcases hbusy q hq with rfl | hq
    · exact ⟨n, hp, hn⟩
    · exact hc.busy q hq
  · rintro s c hs (hb | hr)
    · rcases hbusy _ hb with hcp | hb
      · exact hguard s (hg s c hs hcp)
      · exact hguard s (hc.guard s c hs (Or.inl hb))
    · exact hguard s (hc.guard s c hs (Or.inr hr))

/-- A promise is no longer being fulfilled, and the continuation that it has invoked is no
longer in progress. -/
lemma Calls.leave (hc : Calls h) {p : PromiseLoc}
    (hdone : ∀ s c, h.Holds p s → (h.states s).continuation = some c →
      ¬ (h.leave p).InUse c.promise) : Calls (h.leave p) := by
  have hsub : ∀ q, (h.leave p).Busy q → h.Busy q :=
    fun q hq => List.mem_of_mem_erase hq
  have hkeep : ∀ q, q ≠ p → h.Busy q → (h.leave p).Busy q := by
    intro q hqp hq
    refine (List.mem_erase_of_ne ?_).mpr hq
    simpa using hqp
  constructor
  · exact hc.running
  · exact fun q hq => hc.busy q (hsub q hq)
  · intro s c hs hu
    obtain ⟨q, hq, hqs⟩ := hc.guard s c hs (hu.imp_left (hsub _))
    by_cases hqp : q = p
    · subst hqp
      exact absurd hu (hdone s c hqs hs)
    · exact ⟨q, hkeep q hqp hq, hqs⟩

/-! ## The chronicle -/

lemma Heap.Tainted.mono (ht : h.Tainted) (hlog : h.log ⊆ h'.log) : h'.Tainted := by
  rcases ht with ⟨x, hx, ht⟩ | ⟨m, x, ht⟩
  · refine Or.inl ⟨x, hx, ?_⟩
    rcases ht with ht | ⟨p, ht⟩
    · exact Or.inl (hlog ht)
    · exact Or.inr ⟨p, hlog ht⟩
  · exact Or.inr ⟨m, x, hlog ht⟩

lemma Heap.Known.mono {x : Exn} (hx : h.Known x) (hlog : h.log ⊆ h'.log) : h'.Known x := by
  rcases hx with hx | hx | ⟨p, hx⟩
  · exact Or.inl hx
  · exact Or.inr (Or.inl (hlog hx))
  · exact Or.inr (Or.inr ⟨p, hlog hx⟩)

lemma Heap.Called.mono {m : ℕ} (hc : h.Called m) (hlog : h.log ⊆ h'.log) : h'.Called m := by
  obtain ⟨st, hst⟩ := hc
  exact ⟨st, hlog hst⟩

lemma Heap.Returned.mono {m : ℕ} (hr : h.Returned m) (hlog : h.log ⊆ h'.log) :
    h'.Returned m := by
  obtain ⟨w, hw⟩ := hr
  exact ⟨w, hlog hw⟩

lemma Event.Backed.mono {e : Event V} (he : e.Backed h) (hlog : h.log ⊆ h'.log)
    (hnext : h.next ≤ h'.next)
    (hshared : ∀ n st, h.shared n = some st → h'.shared n = some st) : e.Backed h' := by
  cases e with
  | registered m n => exact ⟨Nat.lt_of_lt_of_le he.1 hnext, Nat.lt_of_lt_of_le he.2 hnext⟩
  | fulfilled n st => exact hshared n st he
  | started p =>
    exact ⟨fun m hm => Nat.lt_of_lt_of_le (he.1 m hm) hnext, fun m hm => (he.2 m hm).mono hlog⟩
  | abandoned n c =>
    cases c with
    | none => trivial
    | some p =>
      exact ⟨fun m hm => Nat.lt_of_lt_of_le (he.1 m hm) hnext,
        fun m hm => (he.2 m hm).mono hlog⟩
  | left p x => exact Heap.Tainted.mono he hlog
  | called m st =>
    obtain ⟨hs, n, st', hreg, hst, hn⟩ := he
    exact ⟨hlog hs, n, st', hlog hreg, hst, hshared n st' hn⟩
  | returned m w => exact ⟨he.1.mono hlog, fun j hj => Nat.lt_of_lt_of_le (he.2 j hj) hnext⟩
  | locks ps fulfilling => exact he
  | threw x | raised x | copyThrew p x | copyAborted x => trivial

/-- The memory changes, but neither the events nor the contents of shared states. -/
lemma Chronicle.of_eq (hl : Chronicle h) (hlog : h'.log = h.log) (hshared : h'.shared = h.shared)
    (hnext : h.next ≤ h'.next) : Chronicle h' := by
  constructor
  · exact hlog ▸ hl.once
  · intro n
    rw [hlog, hshared]
    exact hl.settled n
  · rw [hlog, hshared]
    exact hl.exception
  · rw [hlog]
    intro e he
    exact (hl.backed e he).mono (hlog ▸ List.Subset.refl _) hnext fun n st hs => hshared ▸ hs

/-- An event that settles nothing is noted. -/
lemma Chronicle.note (hl : Chronicle h) {e : Event V} (hb : e.Backed (h.note e))
    (hkey : ∀ k, e.key = some k → k ∉ h.log.filterMap Event.key ∧ ∀ n, k ≠ .settled n) :
    Chronicle (h.note e) := by
  constructor
  · rw [Heap.note_log, List.filterMap_cons]
    split
    · exact hl.once
    · next k hk => exact List.nodup_cons.mpr ⟨(hkey k hk).1, hl.once⟩
  · intro n
    rw [Heap.note_shared, ← hl.settled, Heap.note_log, List.filterMap_cons]
    split
    · exact Iff.rfl
    · next k hk =>
      rw [List.mem_cons, or_iff_right ((hkey k hk).2 n).symm]
  · intro n x hx
    exact (hl.exception n x hx).imp_right fun hr => h.subset_note e hr
  · intro e' he'
    rcases List.mem_cons.mp he' with rfl | he'
    · exact hb
    · exact (hl.backed e' he').mono (h.subset_note e) (Nat.le_refl _) fun _ _ hs => hs

/-- A shared state that is not ready is settled. -/
lemma Chronicle.settle (hl : Chronicle h) {n : ℕ} {st : Stored V} {e : Event V}
    (hn : h.shared n = none) (hkey : e.key = some (.settled n))
    (hb : e.Backed ((h.setShared n st).note e))
    (hx : ∀ x, st = .exception x → x.IsStd ∨ .raised x ∈ h.log) :
    Chronicle ((h.setShared n st).note e) := by
  have hnew : Key.settled n ∉ h.log.filterMap Event.key := by
    rw [hl.settled, hn]
    simp
  have hlog : ((h.setShared n st).note e).log = e :: h.log := rfl
  have hshared : ∀ k,
      ((h.setShared n st).note e).shared k = if k = n then some st else h.shared k :=
    fun k => Function.update_apply _ _ _ _
  constructor
  · rw [hlog, List.filterMap_cons_some hkey]
    exact List.nodup_cons.mpr ⟨hnew, hl.once⟩
  · intro k
    rw [hlog, List.filterMap_cons_some hkey, List.mem_cons, hl.settled, hshared]
    split
    · next hk => simp [hk]
    · next hk => simp [hk]
  · intro k x
    rw [hshared]
    split
    · intro hst
      exact (hx x (Option.some.inj hst)).imp_right (List.mem_cons_of_mem _)
    · intro hst
      exact (hl.exception k x hst).imp_right (List.mem_cons_of_mem _)
  · intro e' he'
    rcases List.mem_cons.mp he' with rfl | he'
    · exact hb
    · refine (hl.backed e' he').mono (List.subset_cons_self _ _) (Nat.le_refl _) ?_
      intro k st' hk
      rw [hshared, if_neg]
      · exact hk
      · rintro rfl
        rw [hn] at hk
        cases hk

end AraCore.Future
