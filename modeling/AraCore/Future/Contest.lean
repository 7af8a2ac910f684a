/-
# Many threads fulfil one promise

Any number of threads call `set_value`, `SetError` or `set_exception` on the same promise while a
continuation is registered.  The mutex of the promise decides between them: the thread that locks
it first fulfils the promise, and every other one is told that it is satisfied already.  What the
winner and the registering side do is a run of the race between these two alone.
-/
import AraCore.Future.Race

namespace AraCore.Contest

open Lib Trace
open Race (Site Method Call Register)

/-- The next step of `set_value`, `SetError` or `set_exception`, which end in an exception if the
shared state is ready. -/
inductive Fulfil where
  /-- `Lock lock(mutex_)` -/
  | lock
  /-- the call on `delegate_promise_` -/
  | makeReady
  /-- `HasContinuation()` -/
  | hasContinuation
  /-- `unique_continuation_(get_future())` -/
  | fire
  /-- the end of the scope of `lock` -/
  | release
  | returned
  /-- the end of the scope of `lock`, on the way of the exception -/
  | unwind
  /-- `std::future_error(promise_already_satisfied)` has been thrown. -/
  | threw
deriving DecidableEq, Repr

namespace Fulfil

/-- The thread holds the mutex of the promise. -/
def inside : Fulfil → Bool
  | lock | returned | threw => false
  | makeReady | hasContinuation | fire | release | unwind => true

/-- The thread has made the shared state ready. -/
def won : Fulfil → Bool
  | hasContinuation | fire | release | returned => true
  | lock | makeReady | unwind | threw => false

/-- The thread has found the shared state ready. -/
def lost : Fulfil → Bool
  | unwind | threw => true
  | lock | makeReady | hasContinuation | fire | release | returned => false

/-- The call has ended. -/
def done : Fulfil → Bool
  | returned | threw => true
  | lock | makeReady | hasContinuation | fire | release | unwind => false

/-- How many steps there are at most to the end of the call. -/
def rank : Fulfil → ℕ
  | lock => 5
  | makeReady => 4
  | hasContinuation => 3
  | fire => 2
  | release | unwind => 1
  | returned | threw => 0

variable {pc : Fulfil}

lemma eq_returned (hd : pc.done) (hw : pc.won) : pc = returned := by
  cases pc <;> simp_all [done, won]

lemma eq_threw (hd : pc.done) (hw : ¬ pc.won) : pc = threw := by
  cases pc <;> simp_all [done, won]

lemma eq_lock (hd : ¬ pc.done) (hin : pc.inside = false) : pc = lock := by
  cases pc <;> simp_all [done, inside]

/-- Where the fulfilling side of the race is. -/
def race : Fulfil → Race.Fulfil
  | lock => .lock
  | makeReady => .makeReady
  | hasContinuation => .hasContinuation
  | fire => .fire
  | release | unwind => .release
  | returned | threw => .returned

end Fulfil

/-- How many steps there are at most to the end of the registration. -/
def rankRegister : Register → ℕ
  | .lock => 5
  | .isReady => 4
  | .storeContinuation => 3
  | .storeDelegate | .unlock => 2
  | .release | .invoke => 1
  | .returned => 0

/-- The atomic steps of the registering side, and of the thread `i`. -/
inductive Event (ι : Type) where
  | lockState | isReady | unlockState | invoke | storeContinuation | storeDelegate | releaseState
  | lockPromise (i : ι)
  | makeReady (i : ι)
  | alreadySatisfied (i : ι)
  | hasContinuation (i : ι)
  | fire (i : ι)
  | releasePromise (i : ι)
  | unwindPromise (i : ι)
deriving DecidableEq, Repr

variable {ι : Type}

/-- All sides and the memory they share. -/
structure Sys (ι : Type) where
  register : Register
  fulfil : ι → Fulfil
  /-- `State::mutex_` is locked. -/
  stateMutex : Bool
  /-- `Promise::mutex_` is locked. -/
  promiseMutex : Bool
  /-- What the shared state of the `std::promise` is ready with. -/
  result : Option Method
  /-- `unique_continuation_` -/
  continuation : Option Site
  /-- `State::delegate_future` is valid. -/
  delegate : Bool
  /-- The `delegate_future_` of the predecessor is valid. -/
  predecessor : Bool
  calls : List Call

/-- Before all calls: nothing is fulfilled or registered. -/
def start : Sys ι := ⟨.lock, fun _ => .lock, false, false, none, none, false, true, []⟩

variable [DecidableEq ι]

/-- The thread `i` comes to its next step. -/
def Sys.goto (s : Sys ι) (i : ι) (pc : Fulfil) : Sys ι :=
  { s with fulfil := Function.update s.fulfil i pc }

lemma Sys.goto_fulfil (s : Sys ι) (i j : ι) (pc : Fulfil) :
    (s.goto i pc).fulfil j = if j = i then pc else s.fulfil j :=
  Function.update_apply s.fulfil i pc j

/-- One atomic step, if the side that performs it has come there and is not blocked. -/
def step (site : Site) (m : ι → Method) (s : Sys ι) : Event ι → Option (Sys ι)
  | .lockState =>
    if s.register = .lock ∧ s.stateMutex = false then
      some { s with register := .isReady, stateMutex := true }
    else none
  | .isReady =>
    if s.register = .isReady then
      some { s with register := if s.result.isSome then .unlock else .storeContinuation }
    else none
  | .unlockState =>
    if s.register = .unlock then some { s with register := .invoke, stateMutex := false }
    else none
  | .invoke =>
    if s.register = .invoke then
      some { s with
        register := .returned
        predecessor := false
        calls := ⟨site, s.predecessor, s.result⟩ :: s.calls }
    else none
  | .storeContinuation =>
    if s.register = .storeContinuation then
      some { s with register := .storeDelegate, continuation := some site }
    else none
  | .storeDelegate =>
    if s.register = .storeDelegate then
      some { s with register := .release, delegate := s.predecessor, predecessor := false }
    else none
  | .releaseState =>
    if s.register = .release then some { s with register := .returned, stateMutex := false }
    else none
  | .lockPromise i =>
    if s.fulfil i = .lock ∧ s.promiseMutex = false then
      some { s.goto i .makeReady with promiseMutex := true }
    else none
  | .makeReady i =>
    if s.fulfil i = .makeReady ∧ s.result = none then
      some { s.goto i .hasContinuation with result := some (m i) }
    else none
  | .alreadySatisfied i =>
    if s.fulfil i = .makeReady ∧ s.result.isSome then some (s.goto i .unwind) else none
  | .hasContinuation i =>
    if s.fulfil i = .hasContinuation then
      some (s.goto i (if s.continuation.isSome then .fire else .release))
    else none
  | .fire i =>
    match s.fulfil i, s.continuation with
    | .fire, some k =>
      some { s.goto i .release with
        delegate := false
        calls := ⟨k, s.delegate, s.result⟩ :: s.calls }
    | _, _ => none
  | .releasePromise i =>
    if s.fulfil i = .release then some { s.goto i .returned with promiseMutex := false }
    else none
  | .unwindPromise i =>
    if s.fulfil i = .unwind then some { s.goto i .threw with promiseMutex := false }
    else none

/-! ## What a step can do -/

variable {site : Site} {m : ι → Method} {s s' : Sys ι} {e : Event ι} {l : List (Event ι)}
  {i j w : ι}

/-- The steps of the registering side and of the threads, with the conditions under which they
are taken. -/
inductive Step (site : Site) (m : ι → Method) (s : Sys ι) : Event ι → Sys ι → Prop where
  | lockState (hpc : s.register = .lock) (hfree : s.stateMutex = false) :
    Step site m s .lockState { s with register := .isReady, stateMutex := true }
  | isReady (hpc : s.register = .isReady) :
    Step site m s .isReady
      { s with register := if s.result.isSome then .unlock else .storeContinuation }
  | unlockState (hpc : s.register = .unlock) :
    Step site m s .unlockState { s with register := .invoke, stateMutex := false }
  | invoke (hpc : s.register = .invoke) :
    Step site m s .invoke { s with
      register := .returned
      predecessor := false
      calls := ⟨site, s.predecessor, s.result⟩ :: s.calls }
  | storeContinuation (hpc : s.register = .storeContinuation) :
    Step site m s .storeContinuation
      { s with register := .storeDelegate, continuation := some site }
  | storeDelegate (hpc : s.register = .storeDelegate) :
    Step site m s .storeDelegate
      { s with register := .release, delegate := s.predecessor, predecessor := false }
  | releaseState (hpc : s.register = .release) :
    Step site m s .releaseState { s with register := .returned, stateMutex := false }
  | lockPromise (i : ι) (hpc : s.fulfil i = .lock) (hfree : s.promiseMutex = false) :
    Step site m s (.lockPromise i) { s.goto i .makeReady with promiseMutex := true }
  | makeReady (i : ι) (hpc : s.fulfil i = .makeReady) (hnone : s.result = none) :
    Step site m s (.makeReady i) { s.goto i .hasContinuation with result := some (m i) }
  | alreadySatisfied (i : ι) (hpc : s.fulfil i = .makeReady) (hsome : s.result.isSome) :
    Step site m s (.alreadySatisfied i) (s.goto i .unwind)
  | hasContinuation (i : ι) (hpc : s.fulfil i = .hasContinuation) :
    Step site m s (.hasContinuation i)
      (s.goto i (if s.continuation.isSome then .fire else .release))
  | fire (i : ι) (k : Site) (hpc : s.fulfil i = .fire) (hk : s.continuation = some k) :
    Step site m s (.fire i) { s.goto i .release with
      delegate := false
      calls := ⟨k, s.delegate, s.result⟩ :: s.calls }
  | releasePromise (i : ι) (hpc : s.fulfil i = .release) :
    Step site m s (.releasePromise i) { s.goto i .returned with promiseMutex := false }
  | unwindPromise (i : ι) (hpc : s.fulfil i = .unwind) :
    Step site m s (.unwindPromise i) { s.goto i .threw with promiseMutex := false }

lemma step_cases (hs : step site m s e = some s') : Step site m s e s' := by
  cases e with
  | lockState | lockPromise | makeReady | alreadySatisfied =>
    simp only [step, Option.ite_none_right_eq_some, Option.some.injEq] at hs
    obtain ⟨⟨hpc, hcond⟩, rfl⟩ := hs
    constructor <;> assumption
  | fire i =>
    simp only [step] at hs
    split at hs
    · next k hpc hk =>
      cases hs
      exact .fire i k hpc hk
    · cases hs
  | _ =>
    simp only [step, Option.ite_none_right_eq_some, Option.some.injEq] at hs
    obtain ⟨hpc, rfl⟩ := hs
    constructor
    exact hpc

/-! ## Mutual exclusion -/

/-- The registering side holds the mutex of the `State`. -/
def holdsState : Register → Bool
  | .lock | .invoke | .returned => false
  | .isReady | .unlock | .storeContinuation | .storeDelegate | .release => true

/-- The invariant of every interleaving: a mutex is locked by the side that is inside, and the
shared state has been made ready by one thread. -/
structure Inv (m : ι → Method) (s : Sys ι) : Prop where
  locked : s.promiseMutex = true ↔ ∃ i, (s.fulfil i).inside
  alone : ∀ i j, (s.fulfil i).inside → (s.fulfil j).inside → i = j
  undecided : s.result = none → ∀ i, s.fulfil i = .lock ∨ s.fulfil i = .makeReady
  decided : ∀ r, s.result = some r → ∃ w, r = m w ∧ ∀ i, (s.fulfil i).won ↔ i = w
  state : s.stateMutex = holdsState s.register
  stored : ∀ i, s.fulfil i = .fire → s.continuation.isSome

omit [DecidableEq ι] in
lemma inv_start : Inv m start := by
  constructor <;> simp [start, Fulfil.inside, holdsState]

omit [DecidableEq ι] in
/-- The steps of the registering side. -/
lemma Inv.registers (h : Inv m s) (hful : s'.fulfil = s.fulfil)
    (hmutex : s'.promiseMutex = s.promiseMutex) (hres : s'.result = s.result)
    (hcont : s.continuation.isSome → s'.continuation.isSome)
    (hstate : s'.stateMutex = holdsState s'.register) : Inv m s' := by
  refine ⟨?_, ?_, ?_, ?_, hstate, ?_⟩
  · simpa only [hful, hmutex] using h.locked
  · simpa only [hful] using h.alone
  · simpa only [hful, hres] using h.undecided
  · simpa only [hful, hres] using h.decided
  · intro i hi
    rw [hful] at hi
    exact hcont (h.stored i hi)

/-- The thread `i`, which is inside, comes to its next step, and leaves the mutex perhaps. -/
lemma Inv.goes (h : Inv m s) (pc : Fulfil) (hin : (s.fulfil i).inside)
    (hful : s'.fulfil = Function.update s.fulfil i pc)
    (hmutex : s'.promiseMutex = pc.inside)
    (hdec : ∃ w, s'.result = some (m w) ∧ (pc.won ↔ i = w) ∧ ∀ j ≠ i, (s.fulfil j).won ↔ j = w)
    (hstate : s'.stateMutex = s.stateMutex) (hreg : s'.register = s.register)
    (hcont : s'.continuation = s.continuation) (hfire : pc = .fire → s.continuation.isSome) :
    Inv m s' := by
  have hother : ∀ j ≠ i, (s.fulfil j).inside = false := fun j hj =>
    Bool.eq_false_iff.mpr fun hin' => hj (h.alone j i hin' hin)
  have hpc : ∀ j, s'.fulfil j = if j = i then pc else s.fulfil j := fun j => by
    rw [hful, Function.update_apply]
  have hinside : ∀ j, (s'.fulfil j).inside ↔ j = i ∧ pc.inside = true := by
    intro j
    rw [hpc]
    by_cases hj : j = i
    · simp [hj]
    · simp [hj, hother j hj]
  obtain ⟨w, hres, hi, hrest⟩ := hdec
  refine ⟨?_, ?_, ?_, ?_, ?_, ?_⟩
  · simp [hmutex, hinside]
  · intro j k hj hk
    rw [((hinside j).mp hj).1, ((hinside k).mp hk).1]
  · simp [hres]
  · intro r hr
    refine ⟨w, ?_, fun j => ?_⟩
    · rw [hres, Option.some.injEq] at hr
      exact hr.symm
    · rw [hpc]
      split
      · next hj => exact hj ▸ hi
      · next hj => exact hrest j hj
  · rw [hstate, hreg]
    exact h.state
  · intro j hj
    rw [hcont]
    rw [hpc] at hj
    split at hj
    · exact hfire hj
    · exact h.stored j hj

omit [DecidableEq ι] in
/-- What is known of a thread that has made the shared state ready. -/
lemma Inv.winner (h : Inv m s) (hw : (s.fulfil w).won) :
    s.result = some (m w) ∧ ∀ j, (s.fulfil j).won ↔ j = w := by
  cases hres : s.result with
  | none =>
    rcases h.undecided hres w with hpc | hpc <;> simp [hpc, Fulfil.won] at hw
  | some r =>
    obtain ⟨w', rfl, hall⟩ := h.decided r hres
    obtain rfl := (hall w).mp hw
    exact ⟨rfl, hall⟩

lemma Inv.step (h : Inv m s) (hs : Contest.step site m s e = some s') : Inv m s' := by
  have hstate := h.state
  cases step_cases hs with
  | lockState | unlockState | releaseState | invoke | storeDelegate =>
    exact h.registers rfl rfl rfl id (by simp_all [holdsState])
  | isReady hpc =>
    refine h.registers rfl rfl rfl id ?_
    rw [hpc] at hstate
    show s.stateMutex = _
    rw [hstate]
    split <;> rfl
  | storeContinuation hpc => exact h.registers rfl rfl rfl (by simp) (by simp_all [holdsState])
  | lockPromise i hpc hfree =>
    -- nobody is inside, and the thread has decided nothing yet
    have hout : ∀ j, (s.fulfil j).inside = false := fun j =>
      Bool.eq_false_iff.mpr fun hin => by simp [h.locked.mpr ⟨j, hin⟩] at hfree
    have hin : ∀ j, ((s.goto i .makeReady).fulfil j).inside ↔ j = i := by
      intro j
      rw [Sys.goto_fulfil]
      split
      · next hj => exact iff_of_true rfl hj
      · next hj => simp [hj, hout j]
    have hwon : ∀ j, ((s.goto i .makeReady).fulfil j).won = (s.fulfil j).won := by
      intro j
      rw [Sys.goto_fulfil]
      by_cases hj : j = i <;> simp [hj, hpc, Fulfil.won]
    refine ⟨by simpa using ⟨i, (hin i).mpr rfl⟩, ?_, ?_, ?_, hstate, ?_⟩
    · exact fun j k hj hk => ((hin j).mp hj).trans ((hin k).mp hk).symm
    · intro hnone j
      show (s.goto i .makeReady).fulfil j = _ ∨ (s.goto i .makeReady).fulfil j = _
      rw [Sys.goto_fulfil]
      split
      · exact Or.inr rfl
      · exact h.undecided hnone j
    · intro r hr
      obtain ⟨w, hw, hall⟩ := h.decided r hr
      exact ⟨w, hw, fun j => by rw [← hall, ← hwon]⟩
    · intro j hj
      have hj : (s.goto i .makeReady).fulfil j = .fire := hj
      rw [Sys.goto_fulfil] at hj
      split at hj
      · cases hj
      · exact h.stored j hj
  | makeReady i hpc hnone =>
    refine h.goes .hasContinuation (by rw [hpc]; rfl) rfl
      (h.locked.mpr ⟨i, by rw [hpc]; rfl⟩) ⟨i, rfl, by simp [Fulfil.won], fun j hj => ?_⟩
      rfl rfl rfl (by simp)
    rcases h.undecided hnone j with hj' | hj' <;> simp [hj', hj, Fulfil.won]
  | alreadySatisfied i hpc hsome =>
    obtain ⟨r, hr⟩ := Option.isSome_iff_exists.mp hsome
    obtain ⟨w, rfl, hall⟩ := h.decided r hr
    have hi := hall i
    rw [hpc] at hi
    refine h.goes .unwind (by rw [hpc]; rfl) rfl (h.locked.mpr ⟨i, by rw [hpc]; rfl⟩)
      ⟨w, hr, by simpa [Fulfil.won] using hi, fun j _ => hall j⟩ rfl rfl rfl (by simp)
  | hasContinuation i hpc =>
    have hw := h.winner (w := i) (by rw [hpc]; rfl)
    refine h.goes (if s.continuation.isSome then .fire else .release) (by rw [hpc]; rfl) rfl
      ?_ ⟨i, hw.1, ?_, fun j _ => hw.2 j⟩ rfl rfl rfl ?_
    · have hlocked : (s.goto i (if s.continuation.isSome then .fire else .release)).promiseMutex =
          true := h.locked.mpr ⟨i, by rw [hpc]; rfl⟩
      rw [hlocked]
      split <;> rfl
    · split <;> simp [Fulfil.won]
    · split <;> simp_all
  | fire i k hpc hk =>
    have hw := h.winner (w := i) (by rw [hpc]; rfl)
    exact h.goes .release (by rw [hpc]; rfl) rfl (h.locked.mpr ⟨i, by rw [hpc]; rfl⟩)
      ⟨i, hw.1, by simp [Fulfil.won], fun j _ => hw.2 j⟩ rfl rfl rfl (by simp)
  | releasePromise i hpc =>
    have hw := h.winner (w := i) (by rw [hpc]; rfl)
    exact h.goes .returned (by rw [hpc]; rfl) rfl rfl
      ⟨i, hw.1, by simp [Fulfil.won], fun j _ => hw.2 j⟩ rfl rfl rfl (by simp)
  | unwindPromise i hpc =>
    have hnot : s.result ≠ none := fun hnone => by
      rcases h.undecided hnone i with hpc' | hpc' <;> simp [hpc] at hpc'
    obtain ⟨r, hr⟩ := Option.ne_none_iff_exists'.mp hnot
    obtain ⟨w, rfl, hall⟩ := h.decided r hr
    have hi := hall i
    rw [hpc] at hi
    exact h.goes .threw (by rw [hpc]; rfl) rfl rfl
      ⟨w, hr, by simpa [Fulfil.won] using hi, fun j _ => hall j⟩ rfl rfl rfl (by simp)

lemma inv_run (hrun : Run.run (step site m) start l = some s) : Inv m s :=
  Run.run_invariant (fun _ _ _ h hs => h.step hs) inv_start hrun

/-! ## Who wins -/

/-- What the trace so far tells of the threads. -/
structure Traced (s : Sys ι) (l : List (Event ι)) : Prop where
  locked : ∀ i, .lockPromise i ∈ l ↔ s.fulfil i ≠ .lock
  won : ∀ i, .makeReady i ∈ l ↔ (s.fulfil i).won
  lost : ∀ i, .alreadySatisfied i ∈ l ↔ (s.fulfil i).lost
  first : ∀ w, (s.fulfil w).won → ∀ i ≠ w, Before (.lockPromise w) (.lockPromise i) l

omit [DecidableEq ι] in
/-- The step is none of those that matter. -/
lemma Traced.other (h : Traced s l) (hlock : ∀ i, e ≠ .lockPromise i)
    (hready : ∀ i, e ≠ .makeReady i) (hsat : ∀ i, e ≠ .alreadySatisfied i)
    (hpc : ∀ i, (s'.fulfil i = .lock ↔ s.fulfil i = .lock) ∧
      (s'.fulfil i).won = (s.fulfil i).won ∧ (s'.fulfil i).lost = (s.fulfil i).lost) :
    Traced s' (l ++ [e]) := by
  refine ⟨fun i => ?_, fun i => ?_, fun i => ?_, fun w hw i hi => ?_⟩
  · rw [List.mem_append, List.mem_singleton, or_iff_left (hlock i).symm, Ne, (hpc i).1]
    exact h.locked i
  · rw [List.mem_append, List.mem_singleton, or_iff_left (hready i).symm, (hpc i).2.1]
    exact h.won i
  · rw [List.mem_append, List.mem_singleton, or_iff_left (hsat i).symm, (hpc i).2.2]
    exact h.lost i
  · rw [(hpc w).2.1] at hw
    exact before_concat.mpr (Or.inl (h.first w hw i hi))

lemma Traced.step (h : Traced s l) (hi : Inv m s) (hs : Contest.step site m s e = some s') :
    Traced s' (l ++ [e]) := by
  cases step_cases hs with
  | lockPromise i hpc hfree =>
    refine ⟨fun j => ?_, fun j => ?_, fun j => ?_, fun w hw j hj => ?_⟩
    · show _ ↔ (s.goto i .makeReady).fulfil j ≠ _
      rw [Sys.goto_fulfil]
      grind [h.locked j]
    · show _ ↔ ((s.goto i .makeReady).fulfil j).won
      rw [Sys.goto_fulfil]
      grind [h.won j, Fulfil.won]
    · show _ ↔ ((s.goto i .makeReady).fulfil j).lost
      rw [Sys.goto_fulfil]
      grind [h.lost j, Fulfil.lost]
    · have hw : ((s.goto i .makeReady).fulfil w).won := hw
      rw [Sys.goto_fulfil] at hw
      split at hw
      · cases hw
      · exact before_concat.mpr (Or.inl (h.first w hw j hj))
  | makeReady i hpc hnone =>
    refine ⟨fun j => ?_, fun j => ?_, fun j => ?_, fun w hw j hj => ?_⟩
    · show _ ↔ (s.goto i .hasContinuation).fulfil j ≠ _
      rw [Sys.goto_fulfil]
      grind [h.locked j]
    · show _ ↔ ((s.goto i .hasContinuation).fulfil j).won
      rw [Sys.goto_fulfil]
      grind [h.won j, Fulfil.won]
    · show _ ↔ ((s.goto i .hasContinuation).fulfil j).lost
      rw [Sys.goto_fulfil]
      grind [h.lost j, Fulfil.lost]
    · -- no other thread has locked the mutex before
      have hw : ((s.goto i .hasContinuation).fulfil w).won := hw
      rw [Sys.goto_fulfil] at hw
      have hlocked : ∀ k ≠ i, s.fulfil k = .lock := fun k hk =>
        (hi.undecided hnone k).resolve_right fun hk' =>
          hk (hi.alone k i (by rw [hk']; rfl) (by rw [hpc]; rfl))
      obtain rfl : w = i := by
        by_contra hne
        rw [if_neg hne, hlocked w hne] at hw
        cases hw
      have hnot : .lockPromise j ∉ l := fun hmem => (h.locked j).mp hmem (hlocked j hj)
      refine before_concat.mpr (Or.inl ((before_of_notMem hnot).mpr ((h.locked w).mpr ?_)))
      rw [hpc]
      simp
  | alreadySatisfied i hpc hsome =>
    refine ⟨fun j => ?_, fun j => ?_, fun j => ?_, fun w hw j hj => ?_⟩
    · rw [Sys.goto_fulfil]
      grind [h.locked j]
    · rw [Sys.goto_fulfil]
      grind [h.won j, Fulfil.won]
    · rw [Sys.goto_fulfil]
      grind [h.lost j, Fulfil.lost]
    · rw [Sys.goto_fulfil] at hw
      split at hw
      · cases hw
      · exact before_concat.mpr (Or.inl (h.first w hw j hj))
  | lockState | isReady | unlockState | invoke | storeContinuation | storeDelegate
    | releaseState =>
    exact h.other (by simp) (by simp) (by simp) fun _ => ⟨Iff.rfl, rfl, rfl⟩
  | hasContinuation i hpc | fire i k hpc hk | releasePromise i hpc | unwindPromise i hpc =>
    refine h.other (by simp) (by simp) (by simp) fun j => ?_
    simp only [Sys.goto, Function.update_apply]
    split
    · next hj =>
      rw [hj, hpc]
      grind [Fulfil.won, Fulfil.lost]
    · exact ⟨Iff.rfl, rfl, rfl⟩

lemma traced_run (hrun : Run.run (step site m) start l = some s) : Traced s l := by
  induction l using List.reverseRecOn generalizing s with
  | nil =>
    obtain rfl : start = s := by simpa using hrun
    constructor <;> simp [start, Fulfil.won, Fulfil.lost]
  | append_singleton l e ih =>
    rw [Run.run_append] at hrun
    obtain ⟨s₁, hs₁, hrun⟩ := Option.bind_eq_some_iff.mp hrun
    obtain ⟨s₂, hs₂, hrun⟩ := Option.bind_eq_some_iff.mp hrun
    obtain rfl : s₂ = s := by simpa using hrun
    exact (ih hs₁).step (inv_run hs₁) hs₂

/-! ## The race of the winner -/

/-- What the thread `w` and the registering side see. -/
def Sys.view (w : ι) (s : Sys ι) : Race.Sys :=
  ⟨s.register, (s.fulfil w).race, s.stateMutex, (s.fulfil w).inside, s.result, s.continuation,
    s.delegate, s.predecessor, s.calls⟩

/-- The steps of the thread `w` and of the registering side. -/
def Event.seen (w : ι) : Event ι → Option Race.Event
  | lockState => some .lockState
  | isReady => some .isReady
  | unlockState => some .unlockState
  | invoke => some .invoke
  | storeContinuation => some .storeContinuation
  | storeDelegate => some .storeDelegate
  | releaseState => some .releaseState
  | lockPromise i => if i = w then some .lockPromise else none
  | makeReady i => if i = w then some .makeReady else none
  | hasContinuation i => if i = w then some .hasContinuation else none
  | fire i => if i = w then some .fire else none
  | releasePromise i => if i = w then some .releasePromise else none
  | alreadySatisfied _ | unwindPromise _ => none

lemma Sys.view_goto_of_ne (h : i ≠ w) (s : Sys ι) (pc : Fulfil) :
    (s.goto i pc).view w = s.view w := by
  simp only [view, goto, Function.update_of_ne h.symm]

/-- The thread `w` wins: no other one makes the shared state ready, and `w` does not find it
ready. -/
def Event.Favours (w : ι) (e : Event ι) : Prop :=
  (∀ i, e = makeReady i → i = w) ∧ e ≠ alreadySatisfied w

/-- In a run that `w` wins, a step is seen as a step of the race, or not at all. -/
lemma step_seen (hlost : ∀ i ≠ w, ¬ (s.fulfil i).won) (hw : ¬ (s.fulfil w).lost)
    (hf : e.Favours w) (hs : step site m s e = some s') :
    ((∀ i ≠ w, ¬ (s'.fulfil i).won) ∧ ¬ (s'.fulfil w).lost) ∧
      (e.seen w = none ∧ s'.view w = s.view w ∨
        ∃ e', e.seen w = some e' ∧ Race.step site (m w) (s.view w) e' = some (s'.view w)) := by
  cases step_cases hs with
  | lockState hpc hfree | storeContinuation hpc | releaseState hpc | unlockState hpc | isReady hpc
    | invoke hpc | storeDelegate hpc =>
    refine ⟨⟨hlost, hw⟩, Or.inr ⟨_, rfl, ?_⟩⟩
    simp [Race.step, Sys.view, *]
  | lockPromise i hpc hfree =>
    refine ⟨⟨fun j hj => ?_, ?_⟩, ?_⟩
    · show ¬ ((s.goto i .makeReady).fulfil j).won
      rw [Sys.goto_fulfil]
      split
      · simp [Fulfil.won]
      · exact hlost j hj
    · show ¬ ((s.goto i .makeReady).fulfil w).lost
      rw [Sys.goto_fulfil]
      split
      · simp [Fulfil.lost]
      · exact hw
    · by_cases hi : i = w
      · subst hi
        refine Or.inr ⟨.lockPromise, if_pos rfl, ?_⟩
        simp [Race.step, Sys.view, Sys.goto, hpc, Fulfil.race, Fulfil.inside]
      · exact Or.inl ⟨if_neg hi, Sys.view_goto_of_ne hi s _⟩
  | makeReady i hpc hnone =>
    obtain rfl := hf.1 i rfl
    refine ⟨⟨fun j hj => ?_, ?_⟩, Or.inr ⟨.makeReady, if_pos rfl, ?_⟩⟩
    · show ¬ ((s.goto i .hasContinuation).fulfil j).won
      rw [Sys.goto_fulfil, if_neg hj]
      exact hlost j hj
    · show ¬ ((s.goto i .hasContinuation).fulfil i).lost
      rw [Sys.goto_fulfil, if_pos rfl]
      simp [Fulfil.lost]
    · simp [Race.step, Sys.view, Sys.goto, hpc, Fulfil.race, Fulfil.inside]
  | alreadySatisfied i hpc hsome =>
    have hi : i ≠ w := fun heq => hf.2 (heq ▸ rfl)
    refine ⟨⟨fun j hj => ?_, ?_⟩, Or.inl ⟨rfl, Sys.view_goto_of_ne hi s _⟩⟩
    · rw [Sys.goto_fulfil]
      split
      · simp [Fulfil.won]
      · exact hlost j hj
    · rw [Sys.goto_fulfil, if_neg hi.symm]
      exact hw
  | unwindPromise i hpc =>
    have hi : i ≠ w := by
      rintro rfl
      simp [hpc, Fulfil.lost] at hw
    refine ⟨⟨fun j hj => ?_, ?_⟩, Or.inl ⟨rfl, Sys.view_goto_of_ne hi s _⟩⟩
    · show ¬ ((s.goto i .threw).fulfil j).won
      rw [Sys.goto_fulfil]
      split
      · simp [Fulfil.won]
      · exact hlost j hj
    · show ¬ ((s.goto i .threw).fulfil w).lost
      rw [Sys.goto_fulfil, if_neg hi.symm]
      exact hw
  | hasContinuation i hpc | fire i k hpc hk | releasePromise i hpc =>
    -- only the winner comes to these steps
    obtain rfl : i = w := by
      by_contra hi
      exact hlost i hi (by rw [hpc]; rfl)
    refine ⟨⟨fun j hj => ?_, ?_⟩, Or.inr ⟨_, if_pos rfl, ?_⟩⟩
    · simpa [Sys.goto, Function.update_apply, hj] using hlost j hj
    · simp only [Sys.goto, Function.update_self]
      grind [Fulfil.lost]
    · simp only [Race.step, Sys.view, Sys.goto, Function.update_self, hpc, Fulfil.race]
      grind [Fulfil.race, Fulfil.inside]

/-- A run that `w` wins is seen as a run of the race. -/
lemma run_seen (hf : ∀ e ∈ l, e.Favours w) (hrun : Run.run (step site m) start l = some s) :
    Run.run (Race.step site (m w)) Race.start (l.filterMap (Event.seen w)) = some (s.view w) :=
  Run.run_project (I := fun s => (∀ i ≠ w, ¬ (s.fulfil i).won) ∧ ¬ (s.fulfil w).lost)
    (fun _ _ _ hI hf hs => step_seen hI.1 hI.2 hf hs) ⟨by simp [start, Fulfil.won],
      by simp [start, Fulfil.lost]⟩ hf hrun

/-! ## Whole interleavings -/

/-- How the race ends between the winner and the registering side. -/
lemma race_outcome {site : Site} {m : Method} {l : List Race.Event} {s : Race.Sys}
    (hi : Race.Inv site m s l) (hreg : s.register = .returned) (hful : s.fulfil = .returned) :
    (s.calls = [] ∨ ∃ valid, s.calls = [⟨site, valid, some m⟩]) ∧
      (s.calls = [⟨site, true, some m⟩] ↔ Before .makeReady .isReady l ∨
        Before .storeContinuation .hasContinuation l ∧ Before .storeDelegate .fire l) := by
  obtain ⟨hr, hf, hc⟩ := hi
  simp only [Race.RegisterInv, hreg] at hr
  simp only [Race.FulfilInv, hful] at hf
  obtain ⟨-, -, -, hfired⟩ := hf
  rcases hr.2 with ⟨hsaw, hcont, -, hinv, -⟩ | ⟨hsaw, -, -, hinv, -⟩
  · -- the registering side has invoked the continuation
    have hfire : .fire ∉ l := fun hmem => hcont (hfired.mp hmem).mem
    have hcalls := hc.invoke hinv hfire
    exact ⟨Or.inr ⟨true, hcalls⟩, iff_of_true hcalls (Or.inl hsaw)⟩
  · by_cases hfire : .fire ∈ l
    · obtain ⟨valid, hcalls, hvalid⟩ := hc.fire hfire hinv
      have hstored : Before .storeContinuation .hasContinuation l := hfired.mp hfire
      rw [Race.SawReady] at hsaw
      refine ⟨Or.inr ⟨valid, hcalls⟩, ?_⟩
      rw [hcalls, or_iff_right hsaw, and_iff_right hstored]
      simpa [Race.SawDelegate] using hvalid
    · have hcalls := hc.none hinv hfire
      refine ⟨Or.inl hcalls, iff_of_false (by simp [hcalls]) ?_⟩
      rintro (hready | ⟨hstored, -⟩)
      · exact hsaw hready
      · exact hfire (hfired.mpr hstored)

/-- How the contest has been decided that `w` wins. -/
structure Decided (site : Site) (m : ι → Method) (w : ι) (l : List (Event ι)) (s : Sys ι) :
    Prop where
  won : s.fulfil w = .returned
  lost : ∀ i ≠ w, s.fulfil i = .threw
  first : ∀ i ≠ w, Before (.lockPromise w) (.lockPromise i) l
  result : s.result = some (m w)
  settled : ∀ l₁ l₂ t, l = l₁ ++ l₂ → Run.run (step site m) start l₁ = some t →
    t.result = none ∨ t.result = some (m w)
  calls : s.calls = [] ∨ ∃ valid, s.calls = [⟨site, valid, some (m w)⟩]
  invoked : s.calls = [⟨site, true, some (m w)⟩] ↔ Before (.makeReady w) .isReady l ∨
    Before .storeContinuation (.hasContinuation w) l ∧ Before .storeDelegate (.fire w) l

/-- **The contest.**  When all calls have returned, the thread that locked the mutex first has
fulfilled the promise, and all others have thrown; the shared state was never ready with anything
else; and the continuation has been invoked at most once, with the result of the winner, and with a
valid future exactly if the winner and the registering side were in step. -/
theorem contest_decided [Nonempty ι] (hrun : Run.run (step site m) start l = some s)
    (hreg : s.register = .returned) (hful : ∀ i, (s.fulfil i).done) :
    ∃ w, Decided site m w l s := by
  have hi := inv_run hrun
  have ht := traced_run hrun
  obtain ⟨i⟩ := ‹Nonempty ι›
  obtain ⟨r, hr⟩ : ∃ r, s.result = some r := by
    refine Option.ne_none_iff_exists'.mp fun hnone => ?_
    have hdone := hful i
    rcases hi.undecided hnone i with hpc | hpc <;> simp [hpc, Fulfil.done] at hdone
  obtain ⟨w, rfl, hall⟩ := hi.decided r hr
  have hwon : s.fulfil w = .returned := Fulfil.eq_returned (hful w) ((hall w).mpr rfl)
  have hlost : ∀ j ≠ w, s.fulfil j = .threw := fun j hj =>
    Fulfil.eq_threw (hful j) ((hall j).not.mpr hj)
  have hfavours : ∀ e ∈ l, e.Favours w := by
    refine fun e he => ⟨fun j hj => (hall j).mp ((ht.won j).mp (hj ▸ he)), ?_⟩
    rintro rfl
    have hl := (ht.lost w).mp he
    rw [hwon] at hl
    cases hl
  -- what the winner and the registering side have done is a run of the race
  have hrace := race_outcome (Race.inv_run (run_seen hfavours hrun)) hreg
    (by rw [Sys.view, hwon]; rfl)
  refine ⟨w, hwon, hlost, ht.first w ((hall w).mpr rfl), hr, ?_, hrace.1, hrace.2.trans ?_⟩
  · rintro l₁ l₂ t rfl ht₁
    refine or_iff_not_imp_left.mpr fun hsome => ?_
    obtain ⟨r, hr'⟩ := Option.ne_none_iff_exists'.mp hsome
    obtain ⟨w', rfl, hall'⟩ := (inv_run ht₁).decided r hr'
    have hmem := ((traced_run ht₁).won w').mpr ((hall' w').mpr rfl)
    obtain rfl := (hall w').mp ((ht.won w').mp (List.mem_append_left _ hmem))
    exact hr'
  · refine or_congr ?_ (and_congr ?_ ?_)
    all_goals
      refine before_filterMap (fun e => ?_) fun e => ?_
      all_goals cases e <;> simp [Event.seen]

/-- Two threads fulfil the promise; the second one wins, and has seen the continuation. -/
def secondWins : List (Event Bool) :=
  [.lockState, .isReady, .storeContinuation, .lockPromise true, .storeDelegate, .makeReady true,
    .releaseState, .hasContinuation true, .fire true, .releasePromise true, .lockPromise false,
    .alreadySatisfied false, .unwindPromise false]

theorem contest_decided_secondWins : ∃ s,
    Run.run (step .thenCall fun i => if i then .setError else .setValue) start secondWins = some s ∧
      ∃ w, Decided .thenCall (fun i => if i then .setError else .setValue) w secondWins s :=
  ⟨_, rfl, contest_decided rfl rfl (by decide)⟩

/-! ## Progress -/

/-- How many steps there are at most until all calls have returned. -/
def Sys.rank [Fintype ι] (s : Sys ι) : ℕ :=
  rankRegister s.register + ∑ i, (s.fulfil i).rank

lemma sum_rank_goto [Fintype ι] (s : Sys ι) {pc : Fulfil} (h : pc.rank < (s.fulfil i).rank) :
    ∑ j, ((s.goto i pc).fulfil j).rank < ∑ j, (s.fulfil j).rank := by
  refine Finset.sum_lt_sum (fun j _ => ?_) ⟨i, Finset.mem_univ i, ?_⟩
  · rw [Sys.goto_fulfil]
    split
    · next hj => exact hj ▸ Nat.le_of_lt h
    · exact Nat.le_refl _
  · rw [Sys.goto_fulfil, if_pos rfl]
    exact h

/-- Every step brings the end nearer. -/
lemma rank_decreases [Fintype ι] (hs : step site m s e = some s') : s'.rank < s.rank := by
  cases step_cases hs with
  | lockState hpc hfree | storeContinuation hpc | releaseState hpc | unlockState hpc | invoke hpc
    | storeDelegate hpc =>
    simp [Sys.rank, rankRegister, hpc]
  | isReady hpc =>
    simp only [Sys.rank, hpc]
    split <;> simp [rankRegister]
  | hasContinuation i hpc =>
    refine Nat.add_lt_add_left (sum_rank_goto s ?_) _
    rw [hpc]
    split <;> simp [Fulfil.rank]
  | lockPromise i hpc hfree | makeReady i hpc hnone | alreadySatisfied i hpc hsome
    | fire i k hpc hk | releasePromise i hpc | unwindPromise i hpc =>
    refine Nat.add_lt_add_left (sum_rank_goto s ?_) _
    simp [hpc, Fulfil.rank]

/-- Some call has a next step, or all have returned. -/
lemma progress (hi : Inv m s) :
    (s.register = .returned ∧ ∀ i, (s.fulfil i).done) ∨
      ∃ e s', step site m s e = some s' := by
  by_cases hreg : s.register = .returned
  · by_cases hful : ∀ i, (s.fulfil i).done
    · exact Or.inl ⟨hreg, hful⟩
    refine Or.inr ?_
    by_cases hmutex : s.promiseMutex = true
    · -- the thread that holds the mutex goes on
      obtain ⟨i, hin⟩ := hi.locked.mp hmutex
      cases hpc : s.fulfil i with
      | makeReady =>
        by_cases hnone : s.result = none
        · exact ⟨.makeReady i, _, if_pos ⟨hpc, hnone⟩⟩
        · exact ⟨.alreadySatisfied i, _, if_pos ⟨hpc, Option.isSome_iff_ne_none.mpr hnone⟩⟩
      | hasContinuation => exact ⟨.hasContinuation i, _, if_pos hpc⟩
      | fire =>
        obtain ⟨k, hk⟩ := Option.isSome_iff_exists.mp (hi.stored i hpc)
        refine ⟨.fire i, { s.goto i .release with
          delegate := false
          calls := ⟨k, s.delegate, s.result⟩ :: s.calls }, ?_⟩
        simp only [step, hpc, hk]
      | release => exact ⟨.releasePromise i, _, if_pos hpc⟩
      | unwind => exact ⟨.unwindPromise i, _, if_pos hpc⟩
      | lock | returned | threw =>
        rw [hpc] at hin
        cases hin
    · -- a thread that has not returned waits for the mutex, which is free
      have hfree : s.promiseMutex = false := by simpa using hmutex
      obtain ⟨i, hdone⟩ := not_forall.mp hful
      have hout : (s.fulfil i).inside = false :=
        Bool.eq_false_iff.mpr fun hin => hmutex (hi.locked.mpr ⟨i, hin⟩)
      exact ⟨.lockPromise i, _, if_pos ⟨Fulfil.eq_lock hdone hout, hfree⟩⟩
  · -- only the registering side locks the mutex of the `State`
    refine Or.inr ?_
    have hstate := hi.state
    cases hpc : s.register with
    | lock =>
      rw [hpc] at hstate
      exact ⟨.lockState, _, if_pos ⟨hpc, hstate⟩⟩
    | isReady => exact ⟨.isReady, _, if_pos hpc⟩
    | unlock => exact ⟨.unlockState, _, if_pos hpc⟩
    | invoke => exact ⟨.invoke, _, if_pos hpc⟩
    | storeContinuation => exact ⟨.storeContinuation, _, if_pos hpc⟩
    | storeDelegate => exact ⟨.storeDelegate, _, if_pos hpc⟩
    | release => exact ⟨.releaseState, _, if_pos hpc⟩
    | returned => exact absurd hpc hreg

/-- **No deadlock.**  However the threads are interleaved, no more than five steps are taken for
each call, and from wherever they are all calls can come to their end. -/
theorem contest_finishes [Fintype ι] (hrun : Run.run (step site m) start l = some s) :
    l.length ≤ 5 + 5 * Fintype.card ι ∧
      ∃ l' t, Run.run (step site m) s l' = some t ∧ t.register = .returned ∧
        ∀ i, (t.fulfil i).done := by
  constructor
  · have hle := Run.length_le_of_decreasing Sys.rank (fun _ _ _ => rank_decreases) hrun
    have hstart : (start : Sys ι).rank = 5 + 5 * Fintype.card ι := by
      simp [Sys.rank, start, rankRegister, Fulfil.rank, Nat.mul_comm]
    omega
  · exact Run.exists_run_final Sys.rank (fun _ _ _ => rank_decreases)
      (fun _ _ _ h hs => h.step hs) (fun _ h => progress h) (inv_run hrun)

theorem contest_finishes_secondWins : ∃ s,
    Run.run (step .thenCall fun i => if i then .setError else .setValue) start
      (secondWins.take 8) = some s ∧ (secondWins.take 8).length ≤ 5 + 5 * Fintype.card Bool ∧
      ∃ l' t, Run.run (step .thenCall fun i => if i then .setError else .setValue) s l' = some t ∧
        t.register = .returned ∧ ∀ i, (t.fulfil i).done :=
  ⟨_, rfl, contest_finishes rfl⟩

end AraCore.Contest
