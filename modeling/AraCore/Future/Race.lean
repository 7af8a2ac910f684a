/-
# Registering a continuation while the promise is fulfilled

`Future::then` and `fulfill_promise_future` register a continuation under the mutex of the
shared `State`, the promise looks for one under a mutex of its own.  This file models one
registration and one fulfilment as two sequences of atomic steps, in the order the code has
them, and determines for which interleavings the continuation is invoked as it should be.
-/
import AraCore.Lib.Run
import AraCore.Lib.Trace

namespace AraCore.Race

open Lib Trace

/-- Who registers: `Future::then` its `continuation`, or `fulfill_promise_future` its
`inner_continuation` at the inner future. -/
inductive Site where
  | thenCall
  | innerFuture
deriving DecidableEq, Repr

/-- Who fulfils, and thereby makes the `std::promise` ready. -/
inductive Method where
  | setValue
  | setError
  | setException
deriving DecidableEq, Repr

/-- An invocation of the continuation: whether the future it receives is valid, and what it is
ready with. -/
structure Call where
  continuation : Site
  valid : Bool
  result : Option Method
deriving DecidableEq, Repr

/-- The next step of the registering side. -/
inductive Register where
  /-- `Lock lock(extra_state_->mutex_)` -/
  | lock
  /-- `is_ready()` -/
  | isReady
  /-- `lock.unlock()` -/
  | unlock
  /-- `continuation(std::move(*this))` -/
  | invoke
  /-- `unique_continuation_ = std::move(func)` -/
  | storeContinuation
  /-- `delegate_future = std::move(predecessor.delegate_future_)` -/
  | storeDelegate
  /-- the end of the scope of `lock` -/
  | release
  | returned
deriving DecidableEq, Repr

/-- The next step of `set_value`, `SetError` or `set_exception`. -/
inductive Fulfil where
  /-- `Lock lock(mutex_)` -/
  | lock
  /-- the call on `delegate_promise_` -/
  | makeReady
  /-- `HasContinuation()` -/
  | hasContinuation
  /-- `unique_continuation_(get_future())` -/
  | fire
  /-- the end of the scope of `lock` -/
  | release
  | returned
deriving DecidableEq, Repr

/-- The atomic steps of both sides. -/
inductive Event where
  | lockState | isReady | unlockState | invoke | storeContinuation | storeDelegate | releaseState
  | lockPromise | makeReady | hasContinuation | fire | releasePromise
deriving DecidableEq, Repr

/-- Both sides and the memory they share. -/
structure Sys where
  register : Register
  fulfil : Fulfil
  /-- `State::mutex_` is locked. -/
  stateMutex : Bool
  /-- `Promise::mutex_` is locked. -/
  promiseMutex : Bool
  /-- What the shared state of the `std::promise` is ready with. -/
  result : Option Method
  /-- `unique_continuation_` -/
  continuation : Option Site
  /-- `State::delegate_future` is valid. -/
  delegate : Bool
  /-- The `delegate_future_` of the predecessor is valid. -/
  predecessor : Bool
  calls : List Call
deriving DecidableEq, Repr

/-- Before both calls: nothing is fulfilled or registered. -/
def start : Sys := ⟨.lock, .lock, false, false, none, none, false, true, []⟩

/-- One atomic step, if the side that performs it has come there and is not blocked. -/
def step (site : Site) (m : Method) (s : Sys) : Event → Option Sys
  | .lockState =>
    if s.register = .lock ∧ s.stateMutex = false then
      some { s with register := .isReady, stateMutex := true }
    else none
  | .isReady =>
    if s.register = .isReady then
      some { s with register := if s.result.isSome then .unlock else .storeContinuation }
    else none
  | .unlockState =>
    if s.register = .unlock then some { s with register := .invoke, stateMutex := false }
    else none
  | .invoke =>
    if s.register = .invoke then
      some { s with
        register := .returned
        predecessor := false
        calls := ⟨site, s.predecessor, s.result⟩ :: s.calls }
    else none
  | .storeContinuation =>
    if s.register = .storeContinuation then
      some { s with register := .storeDelegate, continuation := some site }
    else none
  | .storeDelegate =>
    if s.register = .storeDelegate then
      some { s with register := .release, delegate := s.predecessor, predecessor := false }
    else none
  | .releaseState =>
    if s.register = .release then some { s with register := .returned, stateMutex := false }
    else none
  | .lockPromise =>
    if s.fulfil = .lock ∧ s.promiseMutex = false then
      some { s with fulfil := .makeReady, promiseMutex := true }
    else none
  | .makeReady =>
    if s.fulfil = .makeReady then some { s with fulfil := .hasContinuation, result := some m }
    else none
  | .hasContinuation =>
    if s.fulfil = .hasContinuation then
      some { s with fulfil := if s.continuation.isSome then .fire else .release }
    else none
  | .fire =>
    match s.fulfil, s.continuation with
    | .fire, some k =>
      some { s with
        fulfil := .release
        delegate := false
        calls := ⟨k, s.delegate, s.result⟩ :: s.calls }
    | _, _ => none
  | .releasePromise =>
    if s.fulfil = .release then some { s with fulfil := .returned, promiseMutex := false }
    else none

/-! ## What both sides have done so far -/

variable {site : Site} {m : Method} {s s' : Sys} {l : List Event} {e : Event}

/-- The registering side saw the promise ready. -/
def SawReady (l : List Event) : Prop := Before .makeReady .isReady l

/-- The fulfilling side saw the continuation. -/
def SawContinuation (l : List Event) : Prop := Before .storeContinuation .hasContinuation l

/-- The continuation was given a future with the delegate. -/
def SawDelegate (l : List Event) : Prop := Before .storeDelegate .fire l

/-- Where the registering side is and what it has written, by the trace so far. -/
def RegisterInv (site : Site) (s : Sys) (l : List Event) : Prop :=
  match s.register with
  | .lock | .isReady => .isReady ∉ l ∧ .storeContinuation ∉ l ∧ .storeDelegate ∉ l ∧
      .invoke ∉ l ∧ s.continuation = none ∧ s.predecessor = true
  | .unlock | .invoke => .isReady ∈ l ∧ SawReady l ∧ .storeContinuation ∉ l ∧
      .storeDelegate ∉ l ∧ .invoke ∉ l ∧ s.continuation = none ∧ s.predecessor = true
  | .storeContinuation => .isReady ∈ l ∧ ¬ SawReady l ∧ .storeContinuation ∉ l ∧
      .storeDelegate ∉ l ∧ .invoke ∉ l ∧ s.continuation = none ∧ s.predecessor = true
  | .storeDelegate => .isReady ∈ l ∧ ¬ SawReady l ∧ .storeContinuation ∈ l ∧
      .storeDelegate ∉ l ∧ .invoke ∉ l ∧ s.continuation = some site ∧ s.predecessor = true
  | .release => .isReady ∈ l ∧ ¬ SawReady l ∧ .storeContinuation ∈ l ∧ .storeDelegate ∈ l ∧
      .invoke ∉ l ∧ s.continuation = some site
  | .returned => .isReady ∈ l ∧
      (SawReady l ∧ .storeContinuation ∉ l ∧ .storeDelegate ∉ l ∧ .invoke ∈ l ∧
          s.continuation = none ∨
        ¬ SawReady l ∧ .storeContinuation ∈ l ∧ .storeDelegate ∈ l ∧ .invoke ∉ l ∧
          s.continuation = some site)

/-- Where the fulfilling side is and what it has written, by the trace so far. -/
def FulfilInv (m : Method) (s : Sys) (l : List Event) : Prop :=
  match s.fulfil with
  | .lock | .makeReady => .makeReady ∉ l ∧ .hasContinuation ∉ l ∧ .fire ∉ l ∧ s.result = none
  | .hasContinuation => .makeReady ∈ l ∧ .hasContinuation ∉ l ∧ .fire ∉ l ∧ s.result = some m
  | .fire => .makeReady ∈ l ∧ .hasContinuation ∈ l ∧ SawContinuation l ∧ .fire ∉ l ∧
      s.result = some m
  | .release | .returned => .makeReady ∈ l ∧ .hasContinuation ∈ l ∧ s.result = some m ∧
      (.fire ∈ l ↔ SawContinuation l)

/-- The invocations so far, and what the next one would pass on. -/
structure CallsInv (site : Site) (m : Method) (s : Sys) (l : List Event) : Prop where
  delegate : .fire ∉ l → (s.delegate = true ↔ .storeDelegate ∈ l)
  none : .invoke ∉ l → .fire ∉ l → s.calls = []
  invoke : .invoke ∈ l → .fire ∉ l → s.calls = [⟨site, true, some m⟩]
  fire : .fire ∈ l → .invoke ∉ l →
    ∃ valid, s.calls = [⟨site, valid, some m⟩] ∧ (valid = true ↔ SawDelegate l)

/-! ## Every step keeps the invariant -/

/-- The steps of the fulfilling side do not touch what the registering side knows. -/
lemma RegisterInv.other (h : RegisterInv site s l) (hreg : s'.register = s.register)
    (hcont : s'.continuation = s.continuation) (hpred : s'.predecessor = s.predecessor)
    (he : e ∈ [Event.lockPromise, .makeReady, .hasContinuation, .fire, .releasePromise]) :
    RegisterInv site s' (l ++ [e]) := by
  have hmem : ∀ e' ∈ [Event.isReady, .storeContinuation, .storeDelegate, .invoke],
      (e' ∈ l ++ [e] ↔ e' ∈ l) := by
    cases e <;> simp_all
  simp only [List.mem_cons, List.not_mem_nil, or_false, forall_eq_or_imp, forall_eq] at hmem
  obtain ⟨h₁, h₂, h₃, h₄⟩ := hmem
  have hsaw : .isReady ∈ l → (SawReady (l ++ [e]) ↔ SawReady l) := before_concat_of_mem
  rw [RegisterInv] at h ⊢
  simp only [hreg, hcont, hpred, h₁, h₂, h₃, h₄]
  cases hs : s.register <;> simp only [hs] at h ⊢ <;> grind

lemma RegisterInv.step (h : RegisterInv site s l) (hf : FulfilInv m s l)
    (hs : Race.step site m s e = some s') : RegisterInv site s' (l ++ [e]) := by
  cases e with
  | isReady =>
    simp only [Race.step, Option.ite_none_right_eq_some, Option.some.injEq] at hs
    obtain ⟨hreg, rfl⟩ := hs
    simp only [RegisterInv, hreg] at h
    -- the branch taken records whether the promise was ready before
    have hready : s.result.isSome = true ↔ .makeReady ∈ l := by grind [FulfilInv]
    have hsaw : SawReady l ↔ .makeReady ∈ l := before_of_notMem h.1
    grind [RegisterInv, SawReady, before_concat]
  | fire =>
    simp only [Race.step] at hs
    split at hs
    · cases hs
      exact h.other rfl rfl rfl (by simp)
    · cases hs
  | lockPromise | makeReady | hasContinuation | releasePromise =>
    simp only [Race.step, Option.ite_none_right_eq_some, Option.some.injEq] at hs
    obtain ⟨-, rfl⟩ := hs
    exact h.other rfl rfl rfl (by simp)
  | _ =>
    simp only [Race.step, Option.ite_none_right_eq_some, Option.some.injEq] at hs
    obtain ⟨hpc, rfl⟩ := hs
    grind [RegisterInv, SawReady, before_concat]

/-- The steps of the registering side do not touch what the fulfilling side knows. -/
lemma FulfilInv.other (h : FulfilInv m s l) (hful : s'.fulfil = s.fulfil)
    (hres : s'.result = s.result)
    (he : e ∉ [Event.lockPromise, .makeReady, .hasContinuation, .fire, .releasePromise]) :
    FulfilInv m s' (l ++ [e]) := by
  have hmem : ∀ e' ∈ [Event.makeReady, .hasContinuation, .fire], (e' ∈ l ++ [e] ↔ e' ∈ l) := by
    cases e <;> simp_all
  simp only [List.mem_cons, List.not_mem_nil, or_false, forall_eq_or_imp, forall_eq] at hmem
  obtain ⟨h₁, h₂, h₃⟩ := hmem
  have hsaw : .hasContinuation ∈ l → (SawContinuation (l ++ [e]) ↔ SawContinuation l) :=
    before_concat_of_mem
  rw [FulfilInv] at h ⊢
  simp only [hful, hres, h₁, h₂, h₃]
  cases hs : s.fulfil <;> simp only [hs] at h ⊢ <;> grind

lemma FulfilInv.step (h : FulfilInv m s l) (hr : RegisterInv site s l)
    (hs : Race.step site m s e = some s') : FulfilInv m s' (l ++ [e]) := by
  cases e with
  | hasContinuation =>
    simp only [Race.step, Option.ite_none_right_eq_some, Option.some.injEq] at hs
    obtain ⟨hful, rfl⟩ := hs
    simp only [FulfilInv, hful] at h
    -- the branch taken records whether the continuation was stored before
    have hstored : s.continuation.isSome = true ↔ .storeContinuation ∈ l := by
      grind [RegisterInv]
    have hsaw : SawContinuation l ↔ .storeContinuation ∈ l := before_of_notMem h.2.1
    grind [FulfilInv, SawContinuation, before_concat]
  | fire =>
    simp only [Race.step] at hs
    split at hs
    · next hful hcont =>
      cases hs
      simp only [FulfilInv, hful] at h
      have hsaw : SawContinuation (l ++ [.fire]) ↔ SawContinuation l :=
        before_concat_of_mem h.2.1
      simp [FulfilInv, hsaw, h]
    · cases hs
  | lockPromise | makeReady | releasePromise =>
    simp only [Race.step, Option.ite_none_right_eq_some, Option.some.injEq] at hs
    obtain ⟨hful, rfl⟩ := hs
    grind [FulfilInv, SawContinuation, before_concat]
  | _ =>
    simp only [Race.step, Option.ite_none_right_eq_some, Option.some.injEq] at hs
    obtain ⟨-, rfl⟩ := hs
    exact h.other rfl rfl (by simp)

/-- Only three steps matter for the invocations. -/
lemma CallsInv.other (h : CallsInv site m s l) (hcalls : s'.calls = s.calls)
    (hdel : s'.delegate = s.delegate)
    (he : e ∉ [Event.invoke, .storeDelegate, .fire]) : CallsInv site m s' (l ++ [e]) := by
  have hmem : ∀ e' ∈ [Event.invoke, .storeDelegate, .fire], (e' ∈ l ++ [e] ↔ e' ∈ l) := by
    intro e' he'
    rw [List.mem_append, List.mem_singleton, or_iff_left]
    rintro rfl
    exact he he'
  simp only [List.mem_cons, List.not_mem_nil, or_false, forall_eq_or_imp, forall_eq] at hmem
  obtain ⟨h₁, h₂, h₃⟩ := hmem
  have hsaw : .fire ∈ l → (SawDelegate (l ++ [e]) ↔ SawDelegate l) := before_concat_of_mem
  constructor <;> simp only [hcalls, hdel, h₁, h₂, h₃]
  · exact h.delegate
  · exact h.none
  · exact h.invoke
  · intro hfire hinv
    obtain ⟨valid, hc, hv⟩ := h.fire hfire hinv
    exact ⟨valid, hc, hv.trans (hsaw hfire).symm⟩

lemma CallsInv.step (h : CallsInv site m s l) (hr : RegisterInv site s l)
    (hf : FulfilInv m s l) (hs : Race.step site m s e = some s') :
    CallsInv site m s' (l ++ [e]) := by
  cases e with
  | invoke =>
    simp only [Race.step, Option.ite_none_right_eq_some, Option.some.injEq] at hs
    obtain ⟨hreg, rfl⟩ := hs
    simp only [RegisterInv, hreg] at hr
    obtain ⟨-, hsaw, hcont, hdel, hinv, hnone, hpred⟩ := hr
    -- the promise is ready, and the fulfilling side finds no continuation
    have hres : s.result = some m := by
      have := hsaw.mem
      grind [FulfilInv]
    have hfire : .fire ∉ l := by
      intro hfire
      have : ¬ SawContinuation l := fun h => hcont h.mem
      grind [FulfilInv]
    have hcalls := h.none hinv hfire
    constructor
    · intro _
      simpa using h.delegate hfire
    · simp
    · simp [hcalls, hres, hpred]
    · simp [hfire]
  | storeDelegate =>
    simp only [Race.step, Option.ite_none_right_eq_some, Option.some.injEq] at hs
    obtain ⟨hreg, rfl⟩ := hs
    simp only [RegisterInv, hreg] at hr
    obtain ⟨-, -, -, -, hinv, -, hpred⟩ := hr
    constructor
    · simp [hpred]
    · intro _ hfire
      exact h.none hinv (by simpa using hfire)
    · simp [hinv]
    · intro hfire _
      have hfire : .fire ∈ l := by simpa using hfire
      obtain ⟨valid, hc, hv⟩ := h.fire hfire hinv
      exact ⟨valid, hc, hv.trans (before_concat_of_mem hfire).symm⟩
  | fire =>
    simp only [Race.step] at hs
    split at hs
    · next k hful hk =>
      cases hs
      simp only [FulfilInv, hful] at hf
      obtain ⟨-, -, hsaw, hfire, hres⟩ := hf
      -- the registering side is past the store of the continuation
      have hstored := hsaw.mem
      have hk' : k = site ∧ .invoke ∉ l := by grind [RegisterInv]
      obtain ⟨rfl, hinv⟩ := hk'
      have hcalls := h.none hinv hfire
      have hdel : SawDelegate (l ++ [.fire]) ↔ s.delegate = true := by
        rw [SawDelegate, before_concat, before_of_notMem hfire, h.delegate hfire]
        simp
      constructor
      · simp
      · simp
      · simp
      · intro _ _
        exact ⟨s.delegate, by rw [hcalls, hres], hdel.symm⟩
    · cases hs
  | _ =>
    simp only [Race.step, Option.ite_none_right_eq_some, Option.some.injEq] at hs
    obtain ⟨-, rfl⟩ := hs
    exact h.other rfl rfl (by simp)

/-! ## Whole interleavings -/

/-- The invariant of every interleaving. -/
structure Inv (site : Site) (m : Method) (s : Sys) (l : List Event) : Prop where
  register : RegisterInv site s l
  fulfil : FulfilInv m s l
  calls : CallsInv site m s l

lemma inv_start : Inv site m start [] := by
  refine ⟨?_, ?_, ?_⟩
  · simp [RegisterInv, start]
  · simp [FulfilInv, start]
  · constructor <;> simp [start]

lemma inv_run (hrun : Run.run (step site m) start l = some s) : Inv site m s l := by
  induction l using List.reverseRecOn generalizing s with
  | nil =>
    obtain rfl : start = s := by simpa using hrun
    exact inv_start
  | append_singleton l e ih =>
    rw [Run.run_append] at hrun
    obtain ⟨s₁, hs₁, hrun⟩ := Option.bind_eq_some_iff.mp hrun
    obtain ⟨s₂, hs₂, hrun⟩ := Option.bind_eq_some_iff.mp hrun
    obtain rfl : s₂ = s := by simpa using hrun
    have h := ih hs₁
    exact ⟨h.register.step h.fulfil hs₂, h.fulfil.step h.register hs₂,
      h.calls.step h.register h.fulfil hs₂⟩

/-- **The race of registration and fulfilment.**  When both calls have returned, the
continuation was invoked once, with a valid and ready future, exactly if the registering side
found the promise ready, or otherwise had stored the continuation before the fulfilling side
asked for one and the delegate before that side used it. -/
theorem invoked_once_iff (site : Site) (m : Method) (l : List Event) (s : Sys)
    (hrun : Run.run (step site m) start l = some s)
    (hreg : s.register = .returned) (hful : s.fulfil = .returned) :
    s.calls = [⟨site, true, some m⟩] ↔
      Before .makeReady .isReady l ∨
        Before .storeContinuation .hasContinuation l ∧ Before .storeDelegate .fire l := by
  obtain ⟨hr, hf, hc⟩ := inv_run hrun
  simp only [RegisterInv, hreg] at hr
  simp only [FulfilInv, hful] at hf
  obtain ⟨-, -, -, hfired⟩ := hf
  rcases hr.2 with ⟨hsaw, hcont, -, hinv, -⟩ | ⟨hsaw, -, -, hinv, -⟩
  · -- the registering side invoked the continuation itself
    have hfire : .fire ∉ l := fun h => hcont (hfired.mp h).mem
    exact iff_of_true (hc.invoke hinv hfire) (Or.inl hsaw)
  · rw [SawReady] at hsaw
    by_cases hfire : .fire ∈ l
    · obtain ⟨valid, hcalls, hvalid⟩ := hc.fire hfire hinv
      have hstored : Before .storeContinuation .hasContinuation l := hfired.mp hfire
      rw [hcalls, or_iff_right hsaw, and_iff_right hstored]
      simpa [SawDelegate] using hvalid
    · have hnot : ¬ Before .storeContinuation .hasContinuation l := fun h => hfire (hfired.mpr h)
      rw [hc.none hinv hfire]
      simp [hsaw, hnot]

/-- The future is not ready when `then` asks, and all is stored when the promise looks. -/
def storedFirst : List Event :=
  [.lockState, .isReady, .storeContinuation, .storeDelegate, .lockPromise, .releaseState,
    .makeReady, .hasContinuation, .fire, .releasePromise]

theorem invoked_once_storedFirst : ∃ s,
    Run.run (step .thenCall .setValue) start storedFirst = some s ∧
      s.calls = [⟨.thenCall, true, some .setValue⟩] := by
  refine ⟨_, rfl, (invoked_once_iff _ _ storedFirst _ rfl rfl rfl).mpr (Or.inr ⟨?_, ?_⟩)⟩
  · exact ⟨[.lockState, .isReady], _, rfl, by decide⟩
  · exact ⟨[.lockState, .isReady, .storeContinuation], _, rfl, by decide⟩

/-- The promise is fulfilled after `then` found it not ready and before it stores the
continuation. -/
def fulfilledBetween : List Event :=
  [.lockState, .isReady, .lockPromise, .makeReady, .hasContinuation, .releasePromise,
    .storeContinuation, .storeDelegate, .releaseState]

/-- The promise is fulfilled between the two stores. -/
def firedBetween : List Event :=
  [.lockState, .isReady, .storeContinuation, .lockPromise, .makeReady, .hasContinuation, .fire,
    .releasePromise, .storeDelegate, .releaseState]

/-- One interleaving loses the continuation, another one invokes it with an invalid future. -/
theorem continuation_lost :
    (∃ s, Run.run (step .thenCall .setValue) start fulfilledBetween = some s ∧
      s.register = .returned ∧ s.fulfil = .returned ∧ s.calls = []) ∧
    ∃ s, Run.run (step .innerFuture .setError) start firedBetween = some s ∧
      s.register = .returned ∧ s.fulfil = .returned ∧
      s.calls = [⟨.innerFuture, false, some .setError⟩] :=
  ⟨⟨_, rfl, rfl, rfl, rfl⟩, ⟨_, rfl, rfl, rfl, rfl⟩⟩

end AraCore.Race
