/-
# Moving a promise away while it is fulfilled

`Promise(Promise &&other)` takes the mutex of `other` through its member `lock_`, and the
members are initialized in the order of their declarations, which differs between
`Promise<T, E>` and `Promise<void, E>`.  This file models one move construction from a promise
and one fulfilment of that promise as two sequences of atomic steps, and determines for which
interleavings the outcome is that of one of the two calls after the other.
-/
import AraCore.Future.Race

namespace AraCore.MoveRace

open Lib Trace
open Race (Method)

/-- `Promise<T, E>` and `Promise<void, E>`. -/
inductive Template where
  | value
  | void
deriving DecidableEq, Repr

/-- The data members of a promise. -/
inductive Member where
  | mutex
  | lock
  | delegatePromise
  | extraState
deriving DecidableEq, Repr

/-- The order in which a template declares its data members. -/
def Template.members : Template → List Member
  | .value => [.mutex, .lock, .delegatePromise, .extraState]
  | .void => [.delegatePromise, .extraState, .mutex, .lock]

/-- The steps of the move constructor. -/
inductive MoveStep where
  /-- `lock_(other.mutex_)` -/
  | lock
  /-- `delegate_promise_(std::move(other.delegate_promise_))` -/
  | moveDelegate
  /-- `extra_state_(std::move(other.extra_state_))` -/
  | moveExtra
  /-- `lock_.unlock()` -/
  | unlock
deriving DecidableEq, Repr

/-- What the initialization of a member does to `other`.  The new mutex is its own. -/
def Member.initializer : Member → Option MoveStep
  | .mutex => none
  | .lock => some .lock
  | .delegatePromise => some .moveDelegate
  | .extraState => some .moveExtra

/-- The move constructor: the members in the order of their declarations, then the body. -/
def Template.moveConstructor (t : Template) : List MoveStep :=
  t.members.filterMap Member.initializer ++ [.unlock]

/-- The next step of `set_value`, `SetError` or `set_exception`. -/
inductive Fulfil where
  /-- `Lock lock(mutex_)` -/
  | lock
  /-- the call on `delegate_promise_` -/
  | makeReady
  /-- `extra_state_->FireContinuation()` -/
  | fire
  /-- the end of the scope of `lock`, left by an exception (`no_state`) or not -/
  | release (threw : Bool)
  | returned (threw : Bool)
  /-- the dereference of an `extra_state_` that is null -/
  | faulted
deriving DecidableEq, Repr

/-- Who holds the mutex of `other`. -/
inductive Party where
  | mover
  | fulfiller
deriving DecidableEq, Repr

/-- The atomic steps of both sides. -/
inductive Event where
  | construct (k : MoveStep)
  | lockPromise | makeReady | fire | releasePromise
deriving DecidableEq, Repr

/-- Both sides and the memory they share. -/
structure Sys where
  /-- What the move constructor has still to do. -/
  construct : List MoveStep
  fulfil : Fulfil
  /-- `other.mutex_` -/
  mutex : Option Party
  /-- `other.delegate_promise_` has a shared state. -/
  otherDelegate : Bool
  /-- `other.extra_state_` is not null. -/
  otherExtra : Bool
  /-- `delegate_promise_` of the new promise has the shared state. -/
  newDelegate : Bool
  /-- `extra_state_` of the new promise is the `State`. -/
  newExtra : Bool
  /-- What the shared state of the `std::promise` is ready with. -/
  result : Option Method
  /-- What the shared state was ready with at each invocation of the continuation. -/
  calls : List (Option Method)
deriving DecidableEq, Repr

/-- Before both calls. -/
def start (t : Template) : Sys :=
  ⟨t.moveConstructor, .lock, none, true, true, false, false, none, []⟩

/-- What a step of the move constructor does, if it is not blocked. -/
def Sys.move (s : Sys) : MoveStep → Option Sys
  | .lock => if s.mutex = none then some { s with mutex := some .mover } else none
  | .moveDelegate => some { s with otherDelegate := false, newDelegate := s.otherDelegate }
  | .moveExtra => some { s with otherExtra := false, newExtra := s.otherExtra }
  | .unlock => some { s with mutex := none }

/-- One atomic step, if the side that performs it has come there and is not blocked.  The
`State` holds a continuation if `pending`. -/
def step (m : Method) (pending : Bool) (s : Sys) : Event → Option Sys
  | .construct k =>
    match s.construct with
    | [] => none
    | k' :: ks => if k' = k then ({ s with construct := ks } : Sys).move k else none
  | .lockPromise =>
    if s.fulfil = .lock ∧ s.mutex = none then
      some { s with fulfil := .makeReady, mutex := some .fulfiller }
    else none
  | .makeReady =>
    if s.fulfil = .makeReady then
      if s.otherDelegate then some { s with fulfil := .fire, result := some m }
      else some { s with fulfil := .release true }
    else none
  | .fire =>
    if s.fulfil = .fire then
      if s.otherExtra then
        some { s with
          fulfil := .release false
          calls := if pending then s.result :: s.calls else s.calls }
      else some { s with fulfil := .faulted }
    else none
  | .releasePromise =>
    match s.fulfil with
    | .release threw => some { s with fulfil := .returned threw, mutex := none }
    | _ => none

/-- Both calls have returned, or the program has dereferenced a null pointer. -/
def Sys.Ended (s : Sys) : Prop :=
  s.fulfil = .faulted ∨ s.construct = [] ∧ ∃ threw, s.fulfil = .returned threw

/-- The promise is fulfilled, then moved away. -/
def fulfilFirst (t : Template) : List Event :=
  [.lockPromise, .makeReady, .fire, .releasePromise] ++ t.moveConstructor.map .construct

/-- The promise is moved away, then the fulfilment throws. -/
def moveFirst (t : Template) : List Event :=
  t.moveConstructor.map .construct ++ [.lockPromise, .makeReady, .releasePromise]

/-- The outcome of one of the two calls after the other. -/
def Sequential (t : Template) (m : Method) (pending : Bool) (s : Sys) : Prop :=
  Run.run (step m pending) (start t) (fulfilFirst t) = some s ∨
    Run.run (step m pending) (start t) (moveFirst t) = some s

/-- What is left after the promise was fulfilled and then moved away. -/
def afterFulfilFirst (m : Method) (pending : Bool) : Sys :=
  ⟨[], .returned false, none, false, false, true, true, some m,
    if pending then [some m] else []⟩

/-- What is left after the promise was moved away and then not fulfilled. -/
def afterMoveFirst : Sys := ⟨[], .returned true, none, false, false, true, true, none, []⟩

lemma sequential_iff (t : Template) (m : Method) (pending : Bool) (s : Sys) :
    Sequential t m pending s ↔ s = afterFulfilFirst m pending ∨ s = afterMoveFirst := by
  have hfirst : Run.run (step m pending) (start t) (fulfilFirst t) =
      some (afterFulfilFirst m pending) := by
    cases t <;> rfl
  have hmove : Run.run (step m pending) (start t) (moveFirst t) = some afterMoveFirst := by
    cases t <;> rfl
  rw [Sequential, hfirst, hmove, Option.some.injEq, Option.some.injEq, eq_comm,
    @eq_comm _ afterMoveFirst]

/-! ## What both sides have done so far -/

variable {t : Template} {m : Method} {pending : Bool} {s s' : Sys} {l : List Event} {e : Event}

/-- The delegate was moved away when the fulfilling side came to it. -/
def MovedBefore (l : List Event) : Prop := Before (.construct .moveDelegate) .makeReady l

/-- The `State` was still there when the fulfilling side came to it. -/
def FiredBefore (l : List Event) : Prop := Before .fire (.construct .moveExtra) l

/-- What the move constructor has done, and what it has moved. -/
structure MoveInv (t : Template) (s : Sys) (l : List Event) : Prop where
  steps : ∃ done, t.moveConstructor = done ++ s.construct ∧
    ∀ k, .construct k ∈ l ↔ k ∈ done
  otherDelegate : s.otherDelegate = true ↔ .construct .moveDelegate ∉ l
  newDelegate : s.newDelegate = true ↔ .construct .moveDelegate ∈ l
  otherExtra : s.otherExtra = true ↔ .construct .moveExtra ∉ l
  newExtra : s.newExtra = true ↔ .construct .moveExtra ∈ l

/-- Who holds the mutex, by where the two sides are. -/
structure MutexInv (s : Sys) (l : List Event) : Prop where
  mover : s.mutex = some .mover ↔ .construct .lock ∈ l ∧ .construct .unlock ∉ l
  fulfiller : s.mutex = some .fulfiller ↔ s.fulfil ≠ .lock ∧ ∀ threw, s.fulfil ≠ .returned threw

/-- Where the fulfilling side is and what it has written, by the trace so far.  Where the lock
comes first, nothing has been moved between the two uses of `other`. -/
def FulfilInv (t : Template) (m : Method) (pending : Bool) (s : Sys) (l : List Event) : Prop :=
  match s.fulfil with
  | .lock | .makeReady => .makeReady ∉ l ∧ .fire ∉ l ∧ s.result = none ∧ s.calls = []
  | .fire => .makeReady ∈ l ∧ ¬ MovedBefore l ∧ .fire ∉ l ∧ s.result = some m ∧ s.calls = [] ∧
      (t = .value → .construct .moveDelegate ∉ l)
  | .release true | .returned true => .makeReady ∈ l ∧ MovedBefore l ∧ .fire ∉ l ∧
      s.result = none ∧ s.calls = []
  | .release false | .returned false => .makeReady ∈ l ∧ ¬ MovedBefore l ∧ .fire ∈ l ∧
      FiredBefore l ∧ s.result = some m ∧ s.calls = if pending then [some m] else []
  | .faulted => .makeReady ∈ l ∧ ¬ MovedBefore l ∧ .fire ∈ l ∧ ¬ FiredBefore l ∧ t = .void

/-- The invariant of every interleaving. -/
structure Inv (t : Template) (m : Method) (pending : Bool) (s : Sys) (l : List Event) :
    Prop where
  move : MoveInv t s l
  mutex : MutexInv s l
  fulfil : FulfilInv t m pending s l

/-! ## Every step keeps the invariant -/

lemma step_construct {k : MoveStep} (hs : step m pending s (.construct k) = some s') :
    ∃ ks, s.construct = k :: ks ∧ ({ s with construct := ks } : Sys).move k = some s' := by
  rw [step] at hs
  split at hs
  · cases hs
  · next k' ks hk =>
    rw [Option.ite_none_right_eq_some] at hs
    obtain ⟨rfl, hs⟩ := hs
    exact ⟨ks, hk, hs⟩

/-- Before its next step the move constructor has done the first `n` of its four steps. -/
lemma MoveInv.progress (h : MoveInv t s l) {k : MoveStep} {ks : List MoveStep}
    (hk : s.construct = k :: ks) :
    ∃ n, (n = 0 ∨ n = 1 ∨ n = 2 ∨ n = 3) ∧ t.moveConstructor[n]? = some k ∧
      ∀ k', .construct k' ∈ l ↔ k' ∈ t.moveConstructor.take n := by
  obtain ⟨done, hsteps, hmem⟩ := h.steps
  rw [hk] at hsteps
  refine ⟨done.length, ?_, ?_, ?_⟩
  · have hlen : t.moveConstructor.length = 4 := by cases t <;> rfl
    rw [hsteps, List.length_append, List.length_cons] at hlen
    omega
  · rw [hsteps]
    simp
  · rw [hsteps, List.take_left]
    exact hmem

/-- No step is done twice, and the mutex is not unlocked before it is locked. -/
lemma MoveInv.notMem (h : MoveInv t s l) {k : MoveStep} {ks : List MoveStep}
    (hk : s.construct = k :: ks) :
    .construct k ∉ l ∧ (k = .lock → .construct .unlock ∉ l) := by
  obtain ⟨n, hn, hnext, hmem⟩ := h.progress hk
  rw [hmem, hmem]
  rcases hn with rfl | rfl | rfl | rfl <;> cases t <;> cases hnext <;> decide

/-- The move constructor unlocks what it has locked.  Where the lock is a member before the two
pointers, it is also held while they are moved. -/
lemma MoveInv.locked (h : MoveInv t s l) {k : MoveStep} {ks : List MoveStep}
    (hk : s.construct = k :: ks) (hlock : k ≠ .lock) (ht : t = .value ∨ k = .unlock) :
    .construct .lock ∈ l ∧ .construct .unlock ∉ l := by
  obtain ⟨n, hn, hnext, hmem⟩ := h.progress hk
  rw [hmem, hmem]
  rcases hn with rfl | rfl | rfl | rfl <;> cases t <;> cases hnext <;>
    first | decide | simp at hlock ht

/-- Both templates move the delegate before the `State`. -/
lemma MoveInv.delegate_first (h : MoveInv t s l) (hextra : .construct .moveExtra ∈ l) :
    .construct .moveDelegate ∈ l := by
  obtain ⟨done, hsteps, hmem⟩ := h.steps
  rw [hmem] at hextra ⊢
  have hdone : done = t.moveConstructor.take done.length := by
    rw [hsteps, List.take_left]
  have hlen : done.length = 0 ∨ done.length = 1 ∨ done.length = 2 ∨ 3 ≤ done.length := by omega
  rw [hdone] at hextra ⊢
  rcases hlen with hn | hn | hn | hn
  · simp [hn] at hextra
  · rw [hn] at hextra ⊢
    revert hextra
    cases t <;> decide
  · rw [hn] at hextra ⊢
    revert hextra
    cases t <;> decide
  · have hthree : .moveDelegate ∈ t.moveConstructor.take 3 := by cases t <;> decide
    exact (List.take_subset_take_left _ hn) hthree

lemma MoveInv.construct (h : MoveInv t s l) {k : MoveStep}
    (hs : step m pending s (.construct k) = some s') : MoveInv t s' (l ++ [.construct k]) := by
  obtain ⟨ks, hk, hs⟩ := step_construct hs
  have hnot := (h.notMem hk).1
  obtain ⟨⟨done, hsteps, hmem⟩, hod, hnd, hoe, hne⟩ := h
  have hsteps' : s'.construct = ks := by
    cases k <;> simp [Sys.move] at hs <;> grind
  refine ⟨⟨done ++ [k], by rw [hsteps, hk, hsteps', List.append_assoc]; rfl, ?_⟩, ?_, ?_, ?_, ?_⟩
  · intro k'
    simp [hmem k']
  all_goals cases k <;> simp [Sys.move] at hs <;> grind

/-- The steps of the fulfilling side do not touch what the move constructor has written. -/
lemma MoveInv.other (h : MoveInv t s l) (he : ∀ k, e ≠ .construct k)
    (hs : step m pending s e = some s') : MoveInv t s' (l ++ [e]) := by
  have hmem : ∀ k, (.construct k ∈ l ++ [e] ↔ .construct k ∈ l) := by
    intro k
    simp [(he k).symm]
  have hsame : s'.construct = s.construct ∧ s'.otherDelegate = s.otherDelegate ∧
      s'.newDelegate = s.newDelegate ∧ s'.otherExtra = s.otherExtra ∧
      s'.newExtra = s.newExtra := by
    cases e <;> grind [step]
  obtain ⟨hc, hod, hnd, hoe, hne⟩ := hsame
  obtain ⟨steps, hod', hnd', hoe', hne'⟩ := h
  constructor <;> simp only [hmem, hc, hod, hnd, hoe, hne] <;> assumption

lemma MutexInv.step (h : MutexInv s l) (hm : MoveInv t s l)
    (hs : MoveRace.step m pending s e = some s') : MutexInv s' (l ++ [e]) := by
  cases e with
  | construct k =>
    obtain ⟨ks, hk, hmove⟩ := step_construct hs
    obtain ⟨hnot, hunlock⟩ := hm.notMem hk
    obtain ⟨hmover, hfulfiller⟩ := h
    cases k with
    | unlock =>
      have hlocked := hm.locked hk (by simp) (Or.inr rfl)
      have hheld := hmover.mpr hlocked
      cases hmove
      constructor <;> simp_all
    | lock =>
      simp only [Sys.move, Option.ite_none_right_eq_some, Option.some.injEq] at hmove
      obtain ⟨hfree, rfl⟩ := hmove
      have hheld := hunlock rfl
      constructor <;> simp_all
    | moveDelegate | moveExtra =>
      cases hmove
      constructor <;> simp_all
  | _ =>
    obtain ⟨hmover, hfulfiller⟩ := h
    constructor <;> grind [MoveRace.step]

/-- The steps of the move constructor do not touch what the fulfilling side knows.  Where the
lock comes first, none of them moves the delegate away under that side. -/
lemma FulfilInv.construct (h : FulfilInv t m pending s l) (hm : MoveInv t s l)
    (hx : MutexInv s l) {k : MoveStep} (hs : MoveRace.step m pending s (.construct k) = some s') :
    FulfilInv t m pending s' (l ++ [.construct k]) := by
  obtain ⟨ks, hk, hmove⟩ := step_construct hs
  have hsame : s'.fulfil = s.fulfil ∧ s'.result = s.result ∧ s'.calls = s.calls := by
    cases k <;> simp [Sys.move] at hmove <;> grind
  obtain ⟨hful, hres, hcalls⟩ := hsame
  have hready : .makeReady ∈ l ++ [.construct k] ↔ .makeReady ∈ l := by simp
  have hfire : .fire ∈ l ++ [.construct k] ↔ .fire ∈ l := by simp
  have hmoved : .makeReady ∈ l → (MovedBefore (l ++ [.construct k]) ↔ MovedBefore l) :=
    before_concat_of_mem
  have hfired : FiredBefore (l ++ [.construct k]) ↔ FiredBefore l := by
    rw [FiredBefore, before_concat]
    exact or_iff_left fun h => nomatch h.1
  -- the mutex cannot be held by both
  have hheld : t = .value → s.fulfil = .fire → k ≠ .moveDelegate := by
    rintro rfl hpc rfl
    have hmover := hx.mover.mpr (hm.locked hk (by simp) (Or.inl rfl))
    have hfulfiller := hx.fulfiller.mpr (by simp [hpc])
    simp [hmover] at hfulfiller
  rw [FulfilInv] at h ⊢
  simp only [hful, hres, hcalls, hready, hfire, hfired]
  cases hpc : s.fulfil with
  | release threw | returned threw =>
    simp only [hpc] at h ⊢
    cases threw <;> grind
  | _ =>
    simp only [hpc] at h hheld ⊢
    grind

/-- The use of `delegate_promise_` finds it, unless it was moved away before. -/
lemma FulfilInv.makeReady (h : FulfilInv t m pending s l) (hm : MoveInv t s l)
    (hs : MoveRace.step m pending s .makeReady = some s') :
    FulfilInv t m pending s' (l ++ [.makeReady]) := by
  simp only [MoveRace.step, Option.ite_none_right_eq_some] at hs
  obtain ⟨hpc, hs⟩ := hs
  simp only [FulfilInv, hpc] at h
  obtain ⟨hready, hfire, hres, hcalls⟩ := h
  have hmoved : MovedBefore (l ++ [.makeReady]) ↔ .construct .moveDelegate ∈ l := by
    rw [MovedBefore, before_concat, before_of_notMem hready]
    simp
  split at hs
  · next hdel =>
    cases hs
    have hnot := hm.otherDelegate.mp hdel
    simp [FulfilInv, hmoved, hnot, hfire, hcalls]
  · next hdel =>
    cases hs
    have hmem : .construct .moveDelegate ∈ l := by
      by_contra hnot
      exact hdel (hm.otherDelegate.mpr hnot)
    simp [FulfilInv, hmoved, hmem, hfire, hres, hcalls]

/-- The dereference of `extra_state_` fails only where the lock comes last. -/
lemma FulfilInv.fire (h : FulfilInv t m pending s l) (hm : MoveInv t s l)
    (hs : MoveRace.step m pending s .fire = some s') :
    FulfilInv t m pending s' (l ++ [.fire]) := by
  simp only [MoveRace.step, Option.ite_none_right_eq_some] at hs
  obtain ⟨hpc, hs⟩ := hs
  simp only [FulfilInv, hpc] at h
  obtain ⟨hready, hmoved, hfire, hres, hcalls, hvalue⟩ := h
  have hmoved' : MovedBefore (l ++ [.fire]) ↔ MovedBefore l := before_concat_of_mem hready
  have hfired : FiredBefore (l ++ [.fire]) ↔ .construct .moveExtra ∉ l := by
    rw [FiredBefore, before_concat]
    have hnot : ¬ Before .fire (.construct .moveExtra) l := fun h => hfire h.mem
    simp [hnot]
  split at hs
  · next hextra =>
    cases hs
    have hnot := hm.otherExtra.mp hextra
    simp [FulfilInv, hmoved', hmoved, hfired, hnot, hready, hres, hcalls]
  · next hextra =>
    cases hs
    have hmem : .construct .moveExtra ∈ l := by
      by_contra hnot
      exact hextra (hm.otherExtra.mpr hnot)
    have hvoid : t = .void := by
      cases t with
      | value => exact absurd (hm.delegate_first hmem) (hvalue rfl)
      | void => rfl
    simp [FulfilInv, hmoved', hmoved, hfired, hmem, hready, hvoid]

lemma FulfilInv.step (h : FulfilInv t m pending s l) (hm : MoveInv t s l)
    (hx : MutexInv s l) (hs : MoveRace.step m pending s e = some s') :
    FulfilInv t m pending s' (l ++ [e]) := by
  cases e with
  | construct k => exact h.construct hm hx hs
  | makeReady => exact h.makeReady hm hs
  | fire => exact h.fire hm hs
  | lockPromise =>
    simp only [MoveRace.step, Option.ite_none_right_eq_some, Option.some.injEq] at hs
    obtain ⟨⟨hpc, -⟩, rfl⟩ := hs
    simp only [FulfilInv, hpc] at h
    simpa [FulfilInv] using h
  | releasePromise =>
    simp only [MoveRace.step] at hs
    split at hs
    · next threw hpc =>
      cases hs
      have hmoved : .makeReady ∈ l →
          (MovedBefore (l ++ [.releasePromise]) ↔ MovedBefore l) := before_concat_of_mem
      have hfired : FiredBefore (l ++ [.releasePromise]) ↔ FiredBefore l := by
        rw [FiredBefore, before_concat]
        exact or_iff_left fun h => nomatch h.1
      simp only [FulfilInv, hpc] at h ⊢
      cases threw <;> simp [hfired] <;> grind
    · cases hs

/-! ## Whole interleavings -/

lemma inv_start : Inv t m pending (start t) [] := by
  refine ⟨?_, ?_, ?_⟩
  · exact ⟨⟨[], rfl, by simp⟩, by simp [start], by simp [start], by simp [start], by simp [start]⟩
  · constructor <;> simp [start]
  · simp [FulfilInv, start]

lemma Inv.step (h : Inv t m pending s l) (hs : MoveRace.step m pending s e = some s') :
    Inv t m pending s' (l ++ [e]) := by
  refine ⟨?_, h.mutex.step h.move hs, h.fulfil.step h.move h.mutex hs⟩
  by_cases he : ∃ k, e = .construct k
  · obtain ⟨k, rfl⟩ := he
    exact h.move.construct hs
  · exact h.move.other (fun k hk => he ⟨k, hk⟩) hs

lemma inv_run (hrun : Run.run (step m pending) (start t) l = some s) :
    Inv t m pending s l := by
  induction l using List.reverseRecOn generalizing s with
  | nil =>
    obtain rfl : start t = s := by simpa using hrun
    exact inv_start
  | append_singleton l e ih =>
    rw [Run.run_append] at hrun
    obtain ⟨s₁, hs₁, hrun⟩ := Option.bind_eq_some_iff.mp hrun
    obtain ⟨s₂, hs₂, hrun⟩ := Option.bind_eq_some_iff.mp hrun
    obtain rfl : s₂ = s := by simpa using hrun
    exact (ih hs₁).step hs₂

/-- When the move constructor has returned, everything is with the new promise. -/
lemma MoveInv.of_done (h : MoveInv t s l) (hdone : s.construct = []) :
    s.otherDelegate = false ∧ s.newDelegate = true ∧ s.otherExtra = false ∧ s.newExtra = true ∧
      .construct .unlock ∈ l := by
  obtain ⟨⟨done, hsteps, hmem⟩, hod, hnd, hoe, hne⟩ := h
  rw [hdone, List.append_nil] at hsteps
  subst hsteps
  have hdel : .construct .moveDelegate ∈ l := (hmem _).mpr (by cases t <;> decide)
  have hextra : .construct .moveExtra ∈ l := (hmem _).mpr (by cases t <;> decide)
  refine ⟨?_, hnd.mpr hdel, ?_, hne.mpr hextra, (hmem _).mpr (by cases t <;> decide)⟩
  · exact Bool.eq_false_iff.mpr fun h => hod.mp h hdel
  · exact Bool.eq_false_iff.mpr fun h => hoe.mp h hextra

/-- What is left when both calls have returned. -/
lemma Inv.returned (h : Inv t m pending s l) (hdone : s.construct = []) {threw : Bool}
    (hret : s.fulfil = .returned threw) :
    s = if threw then afterMoveFirst else afterFulfilFirst m pending := by
  obtain ⟨hod, hnd, hoe, hne, hunlock⟩ := h.move.of_done hdone
  have hmutex : s.mutex = none := by
    have hmover : s.mutex ≠ some .mover := fun hm => (h.mutex.mover.mp hm).2 hunlock
    have hful : s.mutex ≠ some .fulfiller := fun hm => (h.mutex.fulfiller.mp hm).2 threw hret
    rcases hs : s.mutex with _ | _ | _
    · rfl
    · exact absurd hs hmover
    · exact absurd hs hful
  have hf := h.fulfil
  simp only [FulfilInv, hret] at hf
  obtain ⟨construct, fulfil, mutex, otherDelegate, otherExtra, newDelegate, newExtra, result,
    calls⟩ := s
  simp only at hdone hret hod hnd hoe hne hmutex hf
  subst hdone hret hod hnd hoe hne hmutex
  cases threw with
  | true =>
    obtain ⟨-, -, -, rfl, rfl⟩ := hf
    rfl
  | false =>
    obtain ⟨-, -, -, -, rfl, rfl⟩ := hf
    rfl

/-- **Moving a promise away while it is fulfilled.**  In every interleaving of the move
constructor and a fulfilment, in which a continuation may be pending, the outcome is that of
one call after the other exactly if the mutex covers the two moves, as in `Promise<T, E>`, or
in `Promise<void, E>` the delegate was moved before the fulfilment came to it, or the `State`
after the fulfilment was done with it. -/
theorem move_atomic_iff (t : Template) (m : Method) (pending : Bool) (l : List Event) (s : Sys)
    (hrun : Run.run (step m pending) (start t) l = some s) (hend : s.Ended) :
    Sequential t m pending s ↔
      t = .value ∨ Before (.construct .moveDelegate) .makeReady l ∨
        Before .fire (.construct .moveExtra) l := by
  have h := inv_run hrun
  rw [sequential_iff]
  rcases hend with hfault | ⟨hdone, threw, hret⟩
  · have hf := h.fulfil
    simp only [FulfilInv, hfault] at hf
    obtain ⟨-, hmoved, -, hfired, rfl⟩ := hf
    refine iff_of_false ?_ ?_
    · rintro (rfl | rfl) <;> simp [afterFulfilFirst, afterMoveFirst] at hfault
    · rintro (ht | hb | hb)
      · cases ht
      · exact hmoved hb
      · exact hfired hb
  · have hs := h.returned hdone hret
    have hf := h.fulfil
    simp only [FulfilInv, hret] at hf
    refine iff_of_true ?_ ?_
    · cases threw
      · exact Or.inl hs
      · exact Or.inr hs
    · cases threw
      · exact Or.inr (Or.inr hf.2.2.2.1)
      · exact Or.inr (Or.inl hf.2.1)

/-- The fulfilment has the mutex and has made the promise ready when both members of a
`Promise<void, E>` are moved away. -/
def movedBetween : List Event :=
  [.lockPromise, .makeReady, .construct .moveDelegate, .construct .moveExtra, .fire]

/-- The same promise, fulfilled and fired before its members are moved away. -/
def movedAfter : List Event :=
  [.lockPromise, .makeReady, .construct .moveDelegate, .fire, .construct .moveExtra,
    .releasePromise, .construct .lock, .construct .unlock]

theorem move_atomic_movedAfter : ∃ s,
    Run.run (step .setValue true) (start .void) movedAfter = some s ∧
      Sequential .void .setValue true s := by
  refine ⟨_, rfl, (move_atomic_iff _ _ _ movedAfter _ rfl ?_).mpr (Or.inr (Or.inr ?_))⟩
  · exact Or.inr ⟨rfl, false, rfl⟩
  · exact ⟨[.lockPromise, .makeReady, .construct .moveDelegate], _, rfl, by decide⟩

/-- The promise is ready, the continuation is not called, and null is dereferenced. -/
theorem moved_between_faults : ∃ s,
    Run.run (step .setValue true) (start .void) movedBetween = some s ∧
      s.fulfil = .faulted ∧ s.result = some .setValue ∧ s.calls = [] ∧
      ¬ Sequential .void .setValue true s := by
  refine ⟨_, rfl, rfl, rfl, rfl, ?_⟩
  rw [sequential_iff]
  decide

end AraCore.MoveRace
