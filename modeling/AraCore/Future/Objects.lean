/-
# Promises, futures and the states they share

The memory of a single-threaded program over `Promise` and `Future`: the shared states of
`std::promise` and `std::future`, the `State`s with the continuations stored in them, the
promise and future objects, and the mutexes that are locked.  The special members of these
objects, which run no code of the user, are functions on that memory.
-/
import AraCore.Lib.Comp
import AraCore.Lib.Store
import AraCore.Lib.Table

namespace AraCore.Future

open Lib

/-! ## Errors and exceptions -/

/-- The domain of an `ErrorCode`. -/
inductive ErrorDomain where
  | core
  | future
  | optional
  | other (id : ℕ)
deriving DecidableEq, Repr

/-- `ara::core::ErrorCode` -/
structure ErrorCode where
  value : ℤ
  domain : ErrorDomain
  supportData : ℤ
deriving DecidableEq, Repr

/-- `future_errc` -/
inductive FutureErrc where
  | brokenPromise
  | futureAlreadyRetrieved
  | promiseAlreadySatisfied
  | noState
deriving DecidableEq, Repr

/-- `MakeErrorCode(future_errc)` -/
def FutureErrc.toErrorCode : FutureErrc → ErrorCode
  | brokenPromise => ⟨101, .future, 0⟩
  | futureAlreadyRetrieved => ⟨102, .future, 0⟩
  | promiseAlreadySatisfied => ⟨103, .future, 0⟩
  | noState => ⟨104, .future, 0⟩

/-- The error code of `CoreErrc::kInvalidArgument`. -/
def invalidArgument : ErrorCode := ⟨22, .core, 0⟩

/-- A `std::error_code`: its value, and whether its category is `std::future_category()`. -/
structure StdErrorCode where
  value : ℤ
  futureCategory : Bool
deriving DecidableEq, Repr

/-- `std::future_errc`, with the values it has in libstdc++. -/
def FutureErrc.toStd : FutureErrc → StdErrorCode
  | futureAlreadyRetrieved => ⟨1, true⟩
  | promiseAlreadySatisfied => ⟨2, true⟩
  | noState => ⟨3, true⟩
  | brokenPromise => ⟨4, true⟩

/-- Exceptions, as far as handlers tell them apart. -/
inductive Exn where
  /-- `std::future_error` -/
  | futureError (ec : StdErrorCode)
  /-- `ara::core::Exception` -/
  | ara (e : ErrorCode)
  /-- any other class derived from `std::exception` -/
  | std
  /-- not derived from `std::exception` -/
  | other
deriving DecidableEq, Repr

/-- The exception is derived from `std::exception`. -/
def Exn.IsStd (x : Exn) : Prop := x ≠ .other

instance (x : Exn) : Decidable x.IsStd := inferInstanceAs (Decidable (x ≠ .other))

/-- What `GetResult` makes of an exception that `delegate_future_.get()` throws; of an
exception that is not derived from `std::exception` it makes nothing. -/
def Exn.toError : Exn → Option ErrorCode
  | futureError ec =>
    if ec = FutureErrc.brokenPromise.toStd then
      some FutureErrc.brokenPromise.toErrorCode
    else if ec = FutureErrc.futureAlreadyRetrieved.toStd then
      some FutureErrc.futureAlreadyRetrieved.toErrorCode
    else if ec = FutureErrc.promiseAlreadySatisfied.toStd then
      some FutureErrc.promiseAlreadySatisfied.toErrorCode
    else if ec = FutureErrc.noState.toStd then
      some FutureErrc.noState.toErrorCode
    else some invalidArgument
  | ara _ | std => some FutureErrc.brokenPromise.toErrorCode
  | other => none

/-- The error that `handle_future_error` passes on, which looks at the value of the code only. -/
def handleFutureError (ec : StdErrorCode) : ErrorCode :=
  if ec.value = FutureErrc.brokenPromise.toStd.value then
    FutureErrc.brokenPromise.toErrorCode
  else if ec.value = FutureErrc.futureAlreadyRetrieved.toStd.value then
    FutureErrc.futureAlreadyRetrieved.toErrorCode
  else if ec.value = FutureErrc.promiseAlreadySatisfied.toStd.value then
    FutureErrc.promiseAlreadySatisfied.toErrorCode
  else if ec.value = FutureErrc.noState.toStd.value then
    FutureErrc.noState.toErrorCode
  else invalidArgument

/-- The error that the handlers of `fulfill_promise_*` pass on for an exception they catch. -/
def Exn.handled : Exn → Option ErrorCode
  | futureError ec => some (handleFutureError ec)
  | ara _ | std => some FutureErrc.brokenPromise.toErrorCode
  | other => none

/-! ## Contents and locations -/

/-- What a shared state is ready with.  The value `none` is that of a `Result<void>`. -/
inductive Stored (V : Type) where
  | value (v : Option V)
  | error (e : ErrorCode)
  | exception (x : Exn)
deriving DecidableEq, Repr

/-- A shared state that its last promise abandons. -/
def Stored.broken {V : Type} : Stored V := .exception (.futureError FutureErrc.brokenPromise.toStd)

/-- `Result<T, E>`, or `Result<void, E>` -/
abbrev Result (V : Type) := Except ErrorCode (Option V)

/-- Where a `Promise` lives. -/
inductive PromiseLoc where
  /-- a variable of the program -/
  | named (k : ℕ)
  /-- the `promise` captured by the continuation that `then` makes -/
  | succ (m : ℕ)
  /-- the `outer_promise` captured by an `inner_continuation` -/
  | outer (m : ℕ)
deriving DecidableEq, Repr

/-- The futures that code of the user can name: variables, and the parameter of the function
passed to `then`. -/
inductive Handle where
  | named (k : ℕ)
  | param (m : ℕ)
deriving DecidableEq, Repr

/-- Where a `Future` lives. -/
inductive FutureLoc where
  | handle (x : Handle)
  /-- `next_future` of `then` -/
  | next (m : ℕ)
  /-- the parameter `predecessor_future` of the continuation that `then` makes -/
  | arg (m : ℕ)
  /-- `inner_future` of `fulfill_promise_future` -/
  | inner (m : ℕ)
  /-- the parameter `inner_future` of an `inner_continuation` -/
  | innerArg (m : ℕ)
deriving DecidableEq, Repr

inductive Mutex where
  | promise (p : PromiseLoc)
  | future (f : FutureLoc)
  | state (s : ℕ)
deriving DecidableEq, Repr

/-! ## Programs -/

/-- The four kinds of functions that can be passed to `then`, by what they return. -/
inductive Kind where
  | future
  | result
  | value
  | void
deriving DecidableEq, Repr

/-- What a function of the kind returns: a future moved out of a variable, or a
default-constructed one; a `Result`; a value; nothing. -/
def Kind.Ret (V : Type) : Kind → Type
  | future => Option Handle
  | result => Result V
  | value => V
  | void => Unit

/-- The operations of a program, apart from `then`. -/
inductive Act (V : Type) where
  | newPromise (k : ℕ)
  | destroyPromise (k : ℕ)
  | movePromise (src dst : ℕ)
  | assignPromise (dst src : ℕ)
  | swapPromise (k other : ℕ)
  | getFuture (k f : ℕ)
  | setValue (k : ℕ) (v : Option V) (c : Category)
  | setError (k : ℕ) (e : ErrorCode)
  | setException (k : ℕ) (x : Exn)
  | newFuture (f : ℕ)
  | moveFuture (src : Handle) (dst : ℕ)
  | assignFuture (dst src : Handle)
  | destroyFuture (f : ℕ)
  | valid (f : Handle)
  | isReady (f : Handle)
  | wait (f : Handle)
  | getResult (f : Handle)
  | get (f : Handle)

/-- What an operation returns. -/
inductive Resp (V : Type) where
  | unit
  | bool (b : Bool)
  | result (r : Result V)
  | value (v : Option V)

/-- A program that returns what functions of the kind return.  It goes on with what an
operation returns or throws. -/
inductive Prog (V : Type) : Kind → Type where
  | ret {κ : Kind} (r : κ.Ret V) : Prog V κ
  | throw {κ : Kind} (x : Exn) : Prog V κ
  | act {κ : Kind} (a : Act V) (k : Except Exn (Resp V) → Prog V κ) : Prog V κ
  /-- `auto next = f.then(func);` -/
  | thenCall {κ : Kind} (f : Handle) (κ' : Kind) (func : Handle → Prog V κ') (next : ℕ)
      (k : Except Exn Unit → Prog V κ) : Prog V κ

/-- A continuation: the one that `then` makes for `func`, or an `inner_continuation`. -/
inductive Cont (V : Type) where
  | link (m : ℕ) (κ : Kind) (func : Handle → Prog V κ)
  | relay (m : ℕ)

variable {V : Type}

/-- The promise that a continuation has captured. -/
def Cont.promise : Cont V → PromiseLoc
  | link m _ _ => .succ m
  | relay m => .outer m

/-- The future that is the parameter of a continuation. -/
def Cont.arg : Cont V → FutureLoc
  | link m _ _ => .arg m
  | relay m => .innerArg m

/-! ## Memory -/

/-- How a function passed to `then` ended: with a value, with an error, with a future (and its
shared state, if it is valid), or with an exception. -/
inductive How (V : Type) where
  | value (v : Option V)
  | error (e : ErrorCode)
  | inner (j : Option ℕ)
  | threw (x : Exn)
deriving DecidableEq, Repr

/-- What a run is observed by. -/
inductive Event (V : Type) where
  /-- `then` on a future of the shared state `n` returns a future of the shared state `m`. -/
  | registered (m n : ℕ)
  /-- The shared state `n` is made ready by a promise. -/
  | fulfilled (n : ℕ) (st : Stored V)
  /-- The promise of `n` is abandoned, with the continuation that has captured `c` pending. -/
  | abandoned (n : ℕ) (c : Option PromiseLoc)
  /-- The continuation that has captured `p` is invoked. -/
  | started (p : PromiseLoc)
  /-- An exception leaves the continuation that has captured `p`. -/
  | left (p : PromiseLoc) (x : Exn)
  /-- The function whose successor is `m` is called with a future that is ready with `st`. -/
  | called (m : ℕ) (st : Option (Stored V))
  | returned (m : ℕ) (how : How V)
  /-- The program throws. -/
  | threw (x : Exn)
  /-- The program passes an exception to `set_exception`. -/
  | raised (x : Exn)
  /-- The copy of a value throws in `set_value` of the promise `p`. -/
  | copyThrew (p : PromiseLoc) (x : Exn)
  /-- The copy of a value throws in the copy constructor of `Variant`, which is `noexcept`. -/
  | copyAborted (x : Exn)
  /-- The program calls a method that locks the mutexes of the promises `ps`, while those of
  `fulfilling` are being fulfilled. -/
  | locks (ps : List PromiseLoc) (fulfilling : List PromiseLoc)
deriving DecidableEq, Repr

/-- `delegate_promise_` (its shared state) and `extra_state_` -/
structure PromiseObj where
  delegate : Option ℕ
  extra : Option ℕ
deriving DecidableEq, Repr

/-- `delegate_future_` (its shared state) and `extra_state_` -/
structure FutureObj where
  delegate : Option ℕ
  extra : Option ℕ
deriving DecidableEq, Repr

/-- `unique_continuation_` and `delegate_future` of a `State` -/
structure StateObj (V : Type) where
  continuation : Option (Cont V)
  delegate : Option ℕ

/-- The memory.  A `Promise` is constructed with a shared state and a `State`, which get the
same number. -/
structure Heap (V : Type) where
  next : ℕ
  shared : ℕ → Option (Stored V)
  /-- The `std::future` of the shared state has been retrieved. -/
  retrieved : ℕ → Bool
  states : ℕ → StateObj V
  promises : Table PromiseLoc PromiseObj
  futures : Table FutureLoc FutureObj
  held : List Mutex
  /-- The promises of which `set_value`, `SetError` or `set_exception` is in progress. -/
  fulfilling : List PromiseLoc
  /-- How many copies of values have been made. -/
  copies : ℕ
  log : List (Event V)

namespace Heap

/-- The memory at the start of a program. -/
def initial : Heap V :=
  ⟨0, fun _ => none, fun _ => false, fun _ => ⟨none, none⟩, .empty, .empty, [], [], 0, []⟩

/-- Record an event. -/
def note (h : Heap V) (e : Event V) : Heap V := { h with log := e :: h.log }

/-- The mutex is locked. -/
def lock (h : Heap V) (mx : Mutex) : Heap V := { h with held := mx :: h.held }

/-- `lock.unlock()`, or the end of the scope of `lock` -/
def unlock (h : Heap V) (mx : Mutex) : Heap V := { h with held := h.held.erase mx }

/-- A method is about to lock the mutexes of the promises `ps`. -/
abbrev locking (h : Heap V) (ps : List PromiseLoc) : Heap V := h.note (.locks ps h.fulfilling)

/-- A method that fulfils the promise `p` has locked its mutex. -/
def enter (h : Heap V) (p : PromiseLoc) : Heap V := { h with fulfilling := p :: h.fulfilling }

/-- The memory in which the promise `p` is being fulfilled. -/
abbrev entered (h : Heap V) (p : PromiseLoc) : Heap V :=
  ((h.locking [p]).lock (.promise p)).enter p

/-- The end of a method that fulfils the promise `p`, and of the scope of its `lock`. -/
def leave (h : Heap V) (p : PromiseLoc) : Heap V :=
  { h.unlock (.promise p) with fulfilling := h.fulfilling.erase p }

def setPromise (h : Heap V) (p : PromiseLoc) (o : PromiseObj) : Heap V :=
  { h with promises := h.promises.set p o }

def setFuture (h : Heap V) (f : FutureLoc) (o : FutureObj) : Heap V :=
  { h with futures := h.futures.set f o }

def setState (h : Heap V) (s : ℕ) (o : StateObj V) : Heap V :=
  { h with states := Function.update h.states s o }

def setShared (h : Heap V) (n : ℕ) (st : Stored V) : Heap V :=
  { h with shared := Function.update h.shared n (some st) }

/-- Some promise or future shares the `State` `s`. -/
def Owned (h : Heap V) (s : ℕ) : Prop :=
  h.promises.Any (fun o => o.extra = some s) ∨ h.futures.Any (fun o => o.extra = some s)

instance (h : Heap V) (s : ℕ) : Decidable (h.Owned s) := by unfold Owned; infer_instance

/-- `Promise()`: the promise `p` with the new shared state and `State` `h.next`. -/
def newPromise (h : Heap V) (p : PromiseLoc) : Heap V :=
  { h.setPromise p ⟨some h.next, some h.next⟩ with next := h.next + 1 }

/-! ## Destruction -/

/-- The continuation that is stored in the `State` of a promise. -/
def pending (h : Heap V) (o : PromiseObj) : Option PromiseLoc :=
  o.extra.bind fun s => (h.states s).continuation.map Cont.promise

/-- The `std::promise` of the shared state `d` goes away; `c` tells what it leaves pending. -/
def breakPromise (h : Heap V) (d : Option ℕ) (c : Option PromiseLoc) : Heap V :=
  match d with
  | none => h
  | some n =>
    match h.shared n with
    | none => (h.setShared n .broken).note (.abandoned n c)
    | some _ => h

/-- An owner of the `State` `s` has gone.  If it was the last one the `State` is destroyed, and
with it the stored continuation and the promise that this has captured, which is an owner of a
`State` itself.  No more than `k` of them are destroyed. -/
def releaseState : ℕ → ℕ → Heap V → Heap V
  | 0, _, h => h
  | k + 1, s, h =>
    if h.Owned s then h
    else
      let c := (h.states s).continuation
      let h := h.setState s ⟨none, none⟩
      match c.bind fun c => (h.promises c.promise).map fun o => (c.promise, o) with
      | none => h
      | some (p, o) =>
        let c := h.pending o
        let h := { h with promises := h.promises.erase p }
        let h := match o.extra with
          | none => h
          | some s' => releaseState k s' h
        h.breakPromise o.delegate c

/-- The `extra_state_` `e` of a promise or a future goes away. -/
def release (h : Heap V) (e : Option ℕ) : Heap V :=
  match e with
  | none => h
  | some s => releaseState h.next s h

/-- `~Promise`: `extra_state_` goes before `delegate_promise_`. -/
def destroyPromise (h : Heap V) (p : PromiseLoc) : Heap V :=
  match h.promises p with
  | none => h
  | some o =>
    let c := h.pending o
    let h := { h with promises := h.promises.erase p }
    (h.release o.extra).breakPromise o.delegate c

/-- `~Future` -/
def destroyFuture (h : Heap V) (f : FutureLoc) : Heap V :=
  match h.futures f with
  | none => h
  | some o => { h with futures := h.futures.erase f }.release o.extra

/-! ## Moves -/

/-- The members of `Promise(Promise &&)` are initialized. -/
def movePromise (h : Heap V) (src dst : PromiseLoc) (o : PromiseObj) : Heap V :=
  (h.setPromise src ⟨none, none⟩).setPromise dst o

/-- `Promise &operator=(Promise &&)`: `delegate_promise_` abandons its shared state, then
`extra_state_` is replaced. -/
def assignPromise (h : Heap V) (dst src : PromiseLoc) (d o : PromiseObj) : Heap V :=
  let c := h.pending d
  let h := (h.setPromise dst ⟨o.delegate, d.extra⟩).setPromise src ⟨none, o.extra⟩
  let h := h.breakPromise d.delegate c
  let h := (h.setPromise dst o).setPromise src ⟨none, none⟩
  h.release d.extra

/-- `Promise::swap` -/
def swapPromise (h : Heap V) (p q : PromiseLoc) (o o' : PromiseObj) : Heap V :=
  (h.setPromise p o').setPromise q o

/-- The members of `Future(Future &&)` are initialized. -/
def moveFuture (h : Heap V) (src dst : FutureLoc) (o : FutureObj) : Heap V :=
  (h.setFuture src ⟨none, none⟩).setFuture dst o

/-- `Future &operator=(Future &&)` -/
def assignFuture (h : Heap V) (dst src : FutureLoc) (d o : FutureObj) : Heap V :=
  ((h.setFuture dst o).setFuture src ⟨none, none⟩).release d.extra

/-! ## `State` -/

/-- `State::SetContinuation`: the continuation `c` replaces the stored one, and the delegate of
the future `f` moves into the `State`. -/
def setContinuation (h : Heap V) (s : ℕ) (c : Cont V) (f : FutureLoc) (o : FutureObj) : Heap V :=
  let old := (h.states s).continuation
  let h := h.setState s ⟨some c, (h.states s).delegate⟩
  let h := match old with
    | none => h
    | some c' => h.destroyPromise c'.promise
  (h.setState s ⟨(h.states s).continuation, o.delegate⟩).setFuture f ⟨none, o.extra⟩

/-- `State::get_future`: the delegate moves out of the `State` into the future `f`. -/
def takeFuture (h : Heap V) (s : ℕ) (f : FutureLoc) : Heap V :=
  (h.setState s ⟨(h.states s).continuation, none⟩).setFuture f ⟨(h.states s).delegate, some s⟩

end Heap
end AraCore.Future
