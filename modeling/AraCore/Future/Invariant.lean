/-
# What holds of the memory between operations

The invariant of every run of a program over promises and futures.  Its parts speak of the
objects and what they refer to, of the continuations stored in `State`s, of the calls that are
in progress, of the events so far, and of what a continuation owes to its successor.
-/
import AraCore.Future.Model

namespace AraCore.Future

open Lib Comp

variable {V : Type}

/-! ## Vocabulary -/

/-- The successor whose promise lives at a captured location. -/
def PromiseLoc.node : PromiseLoc → Option ℕ
  | named _ => none
  | succ m | outer m => some m

/-- The successor of a continuation. -/
def Cont.node : Cont V → ℕ
  | link m _ _ | relay m => m

@[simp] lemma Cont.node_promise (c : Cont V) : c.promise.node = some c.node := by
  cases c <;> rfl

/-- What happens at most once. -/
inductive Key where
  | registered (m : ℕ)
  | settled (n : ℕ)
  | started (p : PromiseLoc)
  | called (m : ℕ)
  | returned (m : ℕ)
deriving DecidableEq

def Event.key : Event V → Option Key
  | registered m _ => some (.registered m)
  | fulfilled n _ | abandoned n _ => some (.settled n)
  | started p => some (.started p)
  | called m _ => some (.called m)
  | returned m _ => some (.returned m)
  | left _ _ | threw _ | raised _ | copyThrew _ _ | copyAborted _ | locks _ _ => none

/-- The program locks the mutex of one of its promises while `set_value`, `SetError` or
`set_exception` of the promise is in progress, or locks the mutex of one promise twice. -/
def Event.Conflict : Event V → Prop
  | locks ps fulfilling => ¬ ps.Nodup ∨ ∃ k, .named k ∈ ps ∧ .named k ∈ fulfilling
  | _ => False

namespace Heap

variable (h : Heap V)

/-- The continuation that has captured `p` has been invoked. -/
def Started (p : PromiseLoc) : Prop := .started p ∈ h.log

def Fulfilled (n : ℕ) : Prop := ∃ st, .fulfilled n st ∈ h.log

def Called (m : ℕ) : Prop := ∃ st, .called m st ∈ h.log

def Returned (m : ℕ) : Prop := ∃ w, .returned m w ∈ h.log

/-- The function with the successor `m` is running. -/
def Running (m : ℕ) : Prop := h.Called m ∧ ¬ h.Returned m

/-- A method of the promise `p` is making its shared state ready. -/
def Busy (p : PromiseLoc) : Prop := .promise p ∈ h.held

/-- The promise `p` has the shared state and the `State` `n`. -/
def Holds (p : PromiseLoc) (n : ℕ) : Prop := h.promises p = some ⟨some n, some n⟩

/-- No promise has the shared state `n` any more. -/
def Dead (n : ℕ) : Prop := ∀ p o, h.promises p = some o → o.delegate ≠ some n

/-- A promise that is being fulfilled keeps the `State` `s` alive. -/
def Guarded (s : ℕ) : Prop := ∃ p, h.Busy p ∧ h.Holds p s

/-- A promise refuses to be fulfilled: its shared state is gone or ready. -/
def Refuses (o : PromiseObj) : Prop := ∀ n, o.delegate = some n → (h.shared n).isSome

/-- The continuation for the successor `m` is being invoked, and the promise of the successor
is fulfilled or has been moved away. -/
def Spent (m : ℕ) : Prop :=
  h.Started (.succ m) ∧ (∃ o, h.promises (.succ m) = some o ∧ h.Refuses o) ∧
    ∀ s c, (h.states s).continuation = some c → c.promise = .succ m → h.Guarded s

/-- The future `j` was not ready when the function with the successor `m` returned it. -/
def Awaits (m j : ℕ) : Prop := ∃ l, .returned m (.inner (some j)) :: l <:+ h.log ∧
  .settled j ∉ l.filterMap Event.key

/-- The promise `p` must not be destroyed yet. -/
def InUse (p : PromiseLoc) : Prop := h.Busy p ∨ ∃ m, p = .succ m ∧ h.Running m

/-- A function threw what is not derived from `std::exception`, or a value could not be copied
for an `outer_promise`. -/
def Tainted : Prop :=
  (∃ x, ¬ x.IsStd ∧ (.threw x ∈ h.log ∨ ∃ p, .copyThrew p x ∈ h.log)) ∨
    ∃ m x, .copyThrew (.outer m) x ∈ h.log

/-- Where the exception `x` comes from. -/
def Known (x : Exn) : Prop := x.IsStd ∨ .threw x ∈ h.log ∨ ∃ p, .copyThrew p x ∈ h.log

/-- How many continuations have been invoked. -/
def startedCount : ℕ :=
  h.log.countP fun e => match e with
    | .started _ => true
    | _ => false

end Heap

/-! ## The parts of the invariant -/

/-- The objects: a promise or a future that has a shared state has the `State` that was made
with it, and no two promises, futures or `State`s have the same one. -/
structure Graph (h : Heap V) : Prop where
  promise_lt : ∀ p o n, h.promises p = some o → o.delegate = some n → n < h.next
  promise_extra : ∀ p o n, h.promises p = some o → o.delegate = some n → o.extra = some n
  promise_inj : ∀ p q o o' n, h.promises p = some o → h.promises q = some o' →
    o.delegate = some n → o'.delegate = some n → p = q
  loc_lt : ∀ p o m, h.promises p = some o → p.node = some m → m < h.next
  future_extra : ∀ f o n, h.futures f = some o → o.delegate = some n → o.extra = some n
  future_retrieved : ∀ f o n, h.futures f = some o → o.delegate = some n → h.retrieved n = true
  future_inj : ∀ f g o o' n, h.futures f = some o → h.futures g = some o' →
    o.delegate = some n → o'.delegate = some n → f = g
  state_delegate : ∀ s n, (h.states s).delegate = some n → n = s ∧ h.retrieved n = true
  future_state : ∀ f o n, h.futures f = some o → o.delegate = some n →
    (h.states n).delegate = none
  fresh : ∀ n, h.next ≤ n → h.shared n = none ∧ h.retrieved n = false ∧
    (h.states n).continuation = none ∧ (h.states n).delegate = none

/-- The stored continuations: one that has not been invoked has the delegate and an unfulfilled
promise. -/
structure Conts (h : Heap V) : Prop where
  link : ∀ s m κ func, (h.states s).continuation = some (.link m κ func) →
    .registered m s ∈ h.log
  relay : ∀ s m, (h.states s).continuation = some (.relay m) →
    .returned m (.inner (some s)) ∈ h.log
  lt : ∀ s c, (h.states s).continuation = some c → c.node < h.next
  delegate : ∀ s c, (h.states s).continuation = some c → ¬ h.Started c.promise →
    (h.states s).delegate = some s
  holds : ∀ s c, (h.states s).continuation = some c → ¬ h.Started c.promise →
    h.Holds c.promise c.node ∧ h.shared c.node = none
  waiting : ∀ s c, (h.states s).continuation = some c → h.shared s = none →
    ¬ h.Started c.promise
  inj : ∀ s t c c', (h.states s).continuation = some c → (h.states t).continuation = some c' →
    c.promise = c'.promise → s = t
  outer : ∀ m o, h.promises (.outer m) = some o → h.Returned m
  abandoned : ∀ n p, .abandoned n (some p) ∈ h.log →
    ¬ h.Started p ∧ ∀ s c, (h.states s).continuation = some c → c.promise = p → s = n

/-- The calls in progress: the promise of a running function is not fulfilled, a promise whose
method is running is, and a stored continuation in progress is kept alive by such a promise. -/
structure Calls (h : Heap V) : Prop where
  running : ∀ m, h.Running m → h.Holds (.succ m) m ∧ h.shared m = none
  busy : ∀ p, h.Busy p → ∃ n, h.Holds p n ∧ (h.shared n).isSome
  guard : ∀ s c, (h.states s).continuation = some c → h.InUse c.promise → h.Guarded s

/-- What an event tells about the memory after it. -/
def Event.Backed (h : Heap V) : Event V → Prop
  | registered m n => m < h.next ∧ n < h.next
  | fulfilled n st => h.shared n = some st
  | abandoned _ none => True
  | abandoned _ (some p) | started p =>
    (∀ m, p.node = some m → m < h.next) ∧ ∀ m, p = .outer m → h.Returned m
  | left _ _ => h.Tainted
  | called m st => h.Started (.succ m) ∧
    ∃ n st', .registered m n ∈ h.log ∧ st = some st' ∧ h.shared n = some st'
  | returned m w => h.Called m ∧ ∀ j, w = .inner (some j) → j < h.next
  | locks ps fulfilling => ¬ (locks ps fulfilling : Event V).Conflict
  | threw _ | raised _ | copyThrew _ _ | copyAborted _ => True

/-- The events so far. -/
structure Chronicle (h : Heap V) : Prop where
  once : (h.log.filterMap Event.key).Nodup
  settled : ∀ n, .settled n ∈ h.log.filterMap Event.key ↔ (h.shared n).isSome
  exception : ∀ n x, h.shared n = some (.exception x) → x.IsStd ∨ .raised x ∈ h.log
  backed : ∀ e ∈ h.log, e.Backed h

/-- What holds in the middle of operations, too. -/
structure Core (h : Heap V) : Prop where
  graph : Graph h
  conts : Conts h
  calls : Calls h
  chronicle : Chronicle h

/-! ## Exceptions as errors -/

/-- The `future_errc` that corresponds to the code of a `std::future_error`. -/
def FutureErrc.ofStd (ec : StdErrorCode) : Option FutureErrc :=
  [brokenPromise, futureAlreadyRetrieved, promiseAlreadySatisfied, noState].find?
    fun e => e.toStd = ec

/-- The `future_errc` that corresponds to a code of the given value. -/
def FutureErrc.ofValue (k : ℤ) : Option FutureErrc :=
  [brokenPromise, futureAlreadyRetrieved, promiseAlreadySatisfied, noState].find?
    fun e => e.toStd.value = k

/-- The error that stands for an exception: the `future_errc` that `errc` finds for the code of a
`std::future_error`, and `broken_promise` for what else is derived from `std::exception`. -/
def Exn.errorBy (errc : StdErrorCode → Option FutureErrc) : Exn → Option ErrorCode
  | futureError ec => some ((errc ec).elim invalidArgument FutureErrc.toErrorCode)
  | ara _ | std => some FutureErrc.brokenPromise.toErrorCode
  | other => none

/-- What a future reports of the exception that its shared state holds. -/
def Exn.reported : Exn → Option ErrorCode := errorBy FutureErrc.ofStd

/-- What a successor gets for the exception that a function throws. -/
def Exn.passedOn : Exn → Option ErrorCode := errorBy fun ec => FutureErrc.ofValue ec.value

/-- The error of the first `future_errc` that satisfies `p`. -/
lemma FutureErrc.elim_find (p : FutureErrc → Bool) :
    ([brokenPromise, futureAlreadyRetrieved, promiseAlreadySatisfied, noState].find? p).elim
        invalidArgument toErrorCode =
      if p brokenPromise then brokenPromise.toErrorCode
      else if p futureAlreadyRetrieved then futureAlreadyRetrieved.toErrorCode
      else if p promiseAlreadySatisfied then promiseAlreadySatisfied.toErrorCode
      else if p noState then noState.toErrorCode
      else invalidArgument := by
  simp only [List.find?]
  cases p brokenPromise <;> cases p futureAlreadyRetrieved <;>
    cases p promiseAlreadySatisfied <;> cases p noState <;> rfl

lemma Exn.toError_eq (x : Exn) : x.toError = x.reported := by
  cases x with
  | futureError ec =>
    simp only [toError, reported, errorBy, FutureErrc.ofStd, FutureErrc.elim_find,
      decide_eq_true_eq, eq_comm (b := ec), apply_ite some]
  | ara e | std | other => rfl

lemma Exn.handled_eq (x : Exn) : x.handled = x.passedOn := by
  cases x with
  | futureError ec =>
    simp only [handled, handleFutureError, passedOn, errorBy, FutureErrc.ofValue,
      FutureErrc.elim_find, decide_eq_true_eq, eq_comm (b := ec.value)]
  | ara e | std | other => rfl

/-- Only what is not derived from `std::exception` has no error. -/
lemma Exn.errorBy_eq_none {errc : StdErrorCode → Option FutureErrc} {x : Exn} :
    x.errorBy errc = none ↔ ¬ x.IsStd := by
  cases x <;> simp [errorBy, IsStd]

/-! ## What a continuation owes to its successor -/

/-- What an `inner_continuation` passes on of the contents of the inner future. -/
def Stored.forward : Stored V → Option (Stored V)
  | value v => some (.value v)
  | error e => some (.error e)
  | exception x => x.reported.map .error

/-- What a function that ended in this way fulfils its successor with at once. -/
def How.settles : How V → Option (Stored V)
  | value v => some (.value v)
  | error e => some (.error e)
  | inner none => some (.error FutureErrc.brokenPromise.toErrorCode)
  | inner (some _) => none
  | threw x => x.passedOn.map .error

/-- The function with the successor `m` has been called with what its predecessor is ready
with, or it waits, or the predecessor is never fulfilled. -/
def Linked (h : Heap V) (m : ℕ) : Prop :=
  ∀ n, .registered m n ∈ h.log →
    (∃ st, .called m (some st) ∈ h.log ∧ h.shared n = some st) ∨
    (∃ κ func, (h.states n).continuation = some (.link m κ func)) ∧
      ¬ h.Started (.succ m) ∧ ¬ h.Fulfilled n ∨
    h.Dead n ∧ ¬ h.Fulfilled n

/-- The successor `m` is fulfilled as its function ended, or waits for the inner future, or the
inner future is never fulfilled. -/
def Forwarded (h : Heap V) (m : ℕ) : Prop :=
  ∀ w, .returned m w ∈ h.log → h.Tainted ∨
    (∃ st, w.settles = some st ∧ .fulfilled m st ∈ h.log) ∨
    (∃ v x e, w.settles = some (.value v) ∧ .copyThrew (.succ m) x ∈ h.log ∧
      x.passedOn = some e ∧ .fulfilled m (.error e) ∈ h.log) ∨
    ∃ j, w = .inner (some j) ∧
      ((∃ st r, h.shared j = some st ∧ st.forward = some r ∧ .fulfilled m r ∈ h.log) ∨
        h.Awaits m j ∧ (h.states j).continuation = some (.relay m) ∧
          ¬ h.Started (.outer m) ∧ ¬ h.Fulfilled j ∨
        h.Awaits m j ∧ h.Dead j ∧ ¬ h.Fulfilled j)

end AraCore.Future
