/-
# The class templates `Promise` and `Future`

The methods of `Promise` and `Future`, `Future::then` with its four kinds of continuations,
and programs that call them, executed by a single thread.  A continuation is code that is
called, by `then` or by the promise; the definitions take the function `call` that does so as
a parameter, and `invoke` is that function for continuations nested to a given depth.
-/
import AraCore.Future.Objects

namespace AraCore.Future

open Lib Comp

/-- Why a program does not go on. -/
inductive Fault where
  /-- It locks a mutex that it has locked already. -/
  | deadlock (mx : Mutex)
  /-- `std::terminate()` -/
  | terminate
  /-- It has no defined behaviour: an object is used that does not exist, constructed where one
  exists, or destroyed while a method of it is running; or a null pointer is followed. -/
  | undefined
  /-- It waits for a future that nothing can make ready. -/
  | blocked
  /-- Continuations are nested more deeply than the bound allows. -/
  | outOfFuel
deriving DecidableEq, Repr

/-- Code that reads and changes the memory. -/
abbrev Code (V : Type) := Comp (Heap V) Exn Fault

variable {V : Type}

/-- `std::future_error` with the code `e` -/
def stdError (e : FutureErrc) : Exn := .futureError e.toStd

/-! ## Objects and locks -/

/-- The promise at `p`. -/
def promise (p : PromiseLoc) : Code V PromiseObj := do
  match (← get).promises p with
  | some o => pure o
  | none => stop .undefined

/-- The future at `f`. -/
def future (f : FutureLoc) : Code V FutureObj := do
  match (← get).futures f with
  | some o => pure o
  | none => stop .undefined

/-- A new promise can be constructed at `p`. -/
def freePromise (p : PromiseLoc) : Code V Unit := do
  if ((← get).promises p).isSome then stop .undefined else pure ()

/-- A new future can be constructed at `f`. -/
def freeFuture (f : FutureLoc) : Code V Unit := do
  if ((← get).futures f).isSome then stop .undefined else pure ()

/-- `std::mutex::lock` -/
def lock (mx : Mutex) : Code V Unit := do
  if mx ∈ (← get).held then stop (.deadlock mx)
  else modify fun h => h.lock mx

/-- `Lock lock(mutex_)` in a method of the promise `p`. -/
def lockPromise (p : PromiseLoc) : Code V Unit := do
  modify fun h => h.note (.locks [p] h.fulfilling)
  lock (.promise p)

/-- `std::lock` of the mutexes of two promises. -/
def lockPromises (p q : PromiseLoc) : Code V Unit := do
  modify fun h => h.note (.locks [p, q] h.fulfilling)
  lock (.promise p)
  lock (.promise q)

/-- `Promise(Promise &&)` -/
def constructPromise (src dst : PromiseLoc) : Code V Unit := do
  let o ← promise src
  lockPromise src
  modify fun h => (h.movePromise src dst o).unlock (.promise src)

/-- `Future(Future &&)` -/
def constructFuture (src dst : FutureLoc) : Code V Unit := do
  let o ← future src
  lock (.future src)
  modify fun h => (h.moveFuture src dst o).unlock (.future src)

/-! ## Fulfilling a promise

The `k`-th copy of a value of the program throws the exception `env k`, if there is one. -/

section Fulfil

variable (env : ℕ → Option Exn) (call : Cont V × FutureLoc → Code V Unit)

/-- `R r = value` in `set_value(T const &)` of the promise `p` -/
def copyValue (p : PromiseLoc) : Code V Unit := do
  let k := (← get).copies
  modify fun h => { h with copies := k + 1 }
  match env k with
  | none => pure ()
  | some x => do
    modify fun h => h.note (.copyThrew p x)
    throw x

/-- The copy of a `Result` that holds a value: the copy constructor of `Variant` is
`noexcept`. -/
def copyResult : Code V Unit := do
  let k := (← get).copies
  modify fun h => { h with copies := k + 1 }
  match env k with
  | none => pure ()
  | some x => do
    modify fun h => h.note (.copyAborted x)
    stop .terminate

/-- `delegate_promise_.set_value(r)` or `delegate_promise_.set_exception(p)`; the argument is
copied after the checks. -/
def setDelegate (p : PromiseLoc) (copy : Code V Unit) (st : Stored V) : Code V Unit := do
  match (← promise p).delegate with
  | none => throw (stdError .noState)
  | some n =>
    match (← get).shared n with
    | some _ => throw (stdError .promiseAlreadySatisfied)
    | none => do
      copy
      modify fun h => (h.setShared n st).note (.fulfilled n st)

/-- `State::FireContinuation` -/
def fireContinuation (s : ℕ) : Code V Unit := do
  match ((← get).states s).continuation with
  | none => pure ()
  | some c => do
    modify fun h => h.takeFuture s c.arg
    cleanup (call (c, c.arg)) fun h => h.destroyFuture c.arg

/-- What `set_value`, `SetError` and `set_exception` have in common. -/
def makeReady (p : PromiseLoc) (copy : Code V Unit) (st : Stored V) : Code V Unit := do
  lockPromise p
  modify fun h => h.enter p
  cleanup (do
    setDelegate p copy st
    match (← promise p).extra with
    | none => stop .undefined
    | some s => fireContinuation call s) fun h => h.leave p

/-- `set_value(T const &)`, `set_value(T &&)`, and `set_value()` of a `Promise<void>` -/
def setValue (p : PromiseLoc) (c : Category) (v : Option V) : Code V Unit :=
  match v, c with
  | none, _ => makeReady call p (pure ()) (.value none)
  | some v, .lvalue => do
    copyValue env p
    makeReady call p (copyResult env) (.value (some v))
  | some v, .rvalue => makeReady call p (copyResult env) (.value (some v))

/-- `SetError` -/
def setError (p : PromiseLoc) (e : ErrorCode) : Code V Unit :=
  makeReady call p (pure ()) (.error e)

/-- `set_exception` -/
def setException (p : PromiseLoc) (x : Exn) : Code V Unit :=
  makeReady call p (pure ()) (.exception x)

/-! ## Futures -/

/-- `GetResult`, which is `noexcept` -/
def getResult (f : FutureLoc) : Code V (Result V) := do
  let o ← future f
  match o.delegate with
  | none => pure (.error FutureErrc.noState.toErrorCode)
  | some n =>
    match (← get).shared n with
    | none => stop .blocked
    | some st => do
      -- the shared state is released whether there is a result or an exception in it
      modify fun h => h.setFuture f ⟨none, o.extra⟩
      match st with
      | .value v => pure (.ok v)
      | .error e => pure (.error e)
      | .exception x =>
        match x.toError with
        | some e => pure (.error e)
        | none => stop .terminate

/-- `get`: `GetResult().ValueOrThrow()` -/
def getValue (f : FutureLoc) : Code V (Option V) := do
  match ← getResult f with
  | .ok v => pure v
  | .error e => throw (.ara e)

/-- `is_ready` -/
def isReady (f : FutureLoc) : Code V Bool := do
  match (← future f).delegate with
  | none => throw (stdError .noState)
  | some n => pure ((← get).shared n).isSome

/-- `wait` -/
def wait (f : FutureLoc) : Code V Unit := do
  if ← isReady f then pure () else stop .blocked

/-! ## Continuations -/

/-- The `inner_continuation` of `fulfill_promise_future`, with its parameter at `f`. -/
def innerContinuation (m : ℕ) (f : FutureLoc) : Code V Unit := do
  match ← getResult f with
  | .ok v => setValue env call (.outer m) .lvalue v
  | .error e => setError call (.outer m) e

/-- The handlers of `fulfill_promise_*`. -/
def handlers (m : ℕ) (x : Exn) : Code V Unit :=
  match x.handled with
  | some e => setError call (.succ m) e
  | none => throw x

/-- How a function that returned `r` has ended. -/
def how (h : Heap V) (m : ℕ) : {κ : Kind} → κ.Ret V → How V
  | .future, _ => .inner ((h.futures (.inner m)).bind FutureObj.delegate)
  | .result, .ok v => .value v
  | .result, .error e => .error e
  | .value, v => .value (some v)
  | .void, _ => .value none

/-- The returned future becomes `inner_future`. -/
def receive (m : ℕ) : {κ : Kind} → κ.Ret V → Code V Unit
  | .future, some x => constructFuture (.handle x) (.inner m)
  | .future, none => modify fun h => h.setFuture (.inner m) ⟨none, none⟩
  | .result, _ | .value, _ | .void, _ => pure ()

/-- `func_(std::move(predecessor_future_))`, where `body` is the code of the function. -/
def callFunc (m : ℕ) {κ : Kind} (body : Code V (κ.Ret V)) (f : FutureLoc) :
    Code V (κ.Ret V) := do
  let o ← future f
  constructFuture f (.handle (.param m))
  modify fun h => h.note (.called m (o.delegate.bind h.shared))
  let r ← unwind
    (cleanup (do
      let r ← body
      receive m r
      pure r) fun h => h.destroyFuture (.handle (.param m)))
    fun x h => h.note (.returned m (.threw x))
  modify fun h => h.note (.returned m (how h m r))
  pure r

/-- `fulfill_promise_future` after the call of the function. -/
def attachInner (m : ℕ) : Code V Unit := do
  let o ← future (.inner m)
  match o.delegate with
  | none => setError call (.succ m) FutureErrc.brokenPromise.toErrorCode
  | some j =>
    match o.extra with
    | none => stop .undefined
    | some s => do
      lock (.state s)
      constructPromise (.succ m) (.outer m)
      match (← get).shared j with
      | some _ => do
        modify fun h => h.unlock (.state s)
        cleanup (do
          constructFuture (.inner m) (.innerArg m)
          cleanup (call (.relay m, .innerArg m)) fun h => h.destroyFuture (.innerArg m))
          fun h => h.destroyPromise (.outer m)
      | none =>
        modify fun h => (h.setContinuation s (.relay m) (.inner m) o).unlock (.state s)

/-- `fulfill_promise_future` -/
def fulfillPromiseFuture (m : ℕ) (body : Code V (Kind.future.Ret V)) (f : FutureLoc) :
    Code V Unit :=
  tryCatch (do
    let _ ← callFunc m body f
    cleanup (attachInner call m) fun h => h.destroyFuture (.inner m)) (handlers call m)

/-- `fulfill_promise_result` -/
def fulfillPromiseResult (m : ℕ) (body : Code V (Kind.result.Ret V)) (f : FutureLoc) :
    Code V Unit :=
  tryCatch (do
    match ← callFunc m body f with
    | .ok v => setValue env call (.succ m) .lvalue v
    | .error e => setError call (.succ m) e) (handlers call m)

/-- `fulfill_promise_valuetype` -/
def fulfillPromiseValuetype (m : ℕ) (body : Code V (Kind.value.Ret V)) (f : FutureLoc) :
    Code V Unit :=
  tryCatch (do
    let v ← callFunc m body f
    setValue env call (.succ m) .lvalue (some v)) (handlers call m)

/-- `fulfill_promise_void` -/
def fulfillPromiseVoid (m : ℕ) (body : Code V (Kind.void.Ret V)) (f : FutureLoc) :
    Code V Unit :=
  tryCatch (do
    let _ ← callFunc m body f
    setValue env call (.succ m) .lvalue none) (handlers call m)

/-- The function that the overload of `then` for the kind uses. -/
def fulfillPromise (m : ℕ) : (κ : Kind) → Code V (κ.Ret V) → FutureLoc → Code V Unit
  | .future => fulfillPromiseFuture call m
  | .result => fulfillPromiseResult env call m
  | .value => fulfillPromiseValuetype env call m
  | .void => fulfillPromiseVoid env call m

/-- `next_promise` and `next_future` of `then` -/
def nextPromise (h : Heap V) : Heap V :=
  let m := h.next
  { (h.newPromise (.succ m)).setFuture (.next m) ⟨some m, some m⟩ with
    retrieved := Function.update h.retrieved m true }

/-- `then`: the number of the successor. -/
def andThen (f : Handle) (κ : Kind) (func : Handle → Prog V κ) : Code V ℕ := do
  let o ← future (.handle f)
  match o.extra with
  | none => stop .undefined
  | some s => do
    lock (.state s)
    let m := (← get).next
    modify nextPromise
    match o.delegate with
    | none => do
      -- `is_ready()` throws
      modify fun h => ((h.destroyPromise (.succ m)).destroyFuture (.next m)).unlock (.state s)
      throw (stdError .noState)
    | some n => do
      modify fun h => h.note (.registered m n)
      match (← get).shared n with
      | some _ => do
        modify fun h => h.unlock (.state s)
        unwind
          (cleanup (do
            constructFuture (.handle f) (.arg m)
            cleanup (call (.link m κ func, .arg m)) fun h => h.destroyFuture (.arg m))
            fun h => h.destroyPromise (.succ m))
          fun _ h => h.destroyFuture (.next m)
      | none =>
        modify fun h => (h.setContinuation s (.link m κ func) (.handle f) o).unlock (.state s)
      pure m

/-! ## Programs -/

/-- One operation of a program. -/
def perform : Act V → Code V (Resp V)
  | .newPromise k => do
    freePromise (.named k)
    modify fun h => h.newPromise (.named k)
    pure .unit
  | .destroyPromise k => do
    let _ ← promise (.named k)
    if .promise (.named k) ∈ (← get).held then stop .undefined
    else modify fun h => h.destroyPromise (.named k)
    pure .unit
  | .movePromise src dst => do
    freePromise (.named dst)
    constructPromise (.named src) (.named dst)
    pure .unit
  | .assignPromise dst src => do
    let d ← promise (.named dst)
    let o ← promise (.named src)
    if dst ≠ src then do
      lockPromises (.named dst) (.named src)
      modify fun h => ((h.assignPromise (.named dst) (.named src) d o).unlock
        (.promise (.named src))).unlock (.promise (.named dst))
    pure .unit
  | .swapPromise k k' => do
    let o ← promise (.named k)
    let o' ← promise (.named k')
    lockPromises (.named k) (.named k')
    modify fun h => ((h.swapPromise (.named k) (.named k') o o').unlock
      (.promise (.named k'))).unlock (.promise (.named k))
    pure .unit
  | .getFuture k f => do
    freeFuture (.handle (.named f))
    let o ← promise (.named k)
    match o.delegate with
    | none => throw (stdError .noState)
    | some n =>
      if (← get).retrieved n then throw (stdError .futureAlreadyRetrieved)
      else modify fun h => { h.setFuture (.handle (.named f)) ⟨some n, o.extra⟩ with
        retrieved := Function.update h.retrieved n true }
    pure .unit
  | .setValue k v c => do
    let _ ← promise (.named k)
    setValue env call (.named k) c v
    pure .unit
  | .setError k e => do
    let _ ← promise (.named k)
    setError call (.named k) e
    pure .unit
  | .setException k x => do
    let _ ← promise (.named k)
    modify fun h => h.note (.raised x)
    setException call (.named k) x
    pure .unit
  | .newFuture f => do
    freeFuture (.handle (.named f))
    modify fun h => h.setFuture (.handle (.named f)) ⟨none, none⟩
    pure .unit
  | .moveFuture src dst => do
    freeFuture (.handle (.named dst))
    constructFuture (.handle src) (.handle (.named dst))
    pure .unit
  | .assignFuture dst src => do
    let d ← future (.handle dst)
    let o ← future (.handle src)
    if dst ≠ src then do
      lock (.future (.handle dst))
      lock (.future (.handle src))
      modify fun h => ((h.assignFuture (.handle dst) (.handle src) d o).unlock
        (.future (.handle src))).unlock (.future (.handle dst))
    pure .unit
  | .destroyFuture f => do
    let _ ← future (.handle (.named f))
    modify fun h => h.destroyFuture (.handle (.named f))
    pure .unit
  | .valid f => do
    pure (.bool (← future (.handle f)).delegate.isSome)
  | .isReady f => do
    pure (.bool (← isReady (.handle f)))
  | .wait f => do
    wait (.handle f)
    pure .unit
  | .getResult f => do
    pure (.result (← getResult (.handle f)))
  | .get f => do
    pure (.value (← getValue (.handle f)))

/-- `auto next = f.then(func);` -/
def declareNext (f : Handle) (κ : Kind) (func : Handle → Prog V κ) (next : ℕ) :
    Code V Unit := do
  let m ← andThen call f κ func
  freeFuture (.handle (.named next))
  constructFuture (.next m) (.handle (.named next))
  modify fun h => h.destroyFuture (.next m)

/-- The code of a program. -/
def runProg : {κ : Kind} → Prog V κ → Code V (κ.Ret V)
  | _, .ret r => pure r
  | _, .throw x => do
    modify fun h => h.note (.threw x)
    throw x
  | _, .act a k => do
    let r ← attempt (perform env call a)
    runProg (k r)
  | _, .thenCall f κ' func next k => do
    let r ← attempt (declareNext call f κ' func next)
    runProg (k r)

/-- Invoke a continuation with its parameter at `f`. -/
def invokeStep : Cont V × FutureLoc → Code V Unit
  | (c, f) => do
    modify fun h => h.note (.started c.promise)
    unwind
      (match c with
        | .link m κ func => fulfillPromise env call m κ (runProg env call (func (.param m))) f
        | .relay m => innerContinuation env call m f)
      fun x h => h.note (.left c.promise x)

end Fulfil

/-- Invoke a continuation; at most `fuel` continuations are nested. -/
def invoke (env : ℕ → Option Exn) (fuel : ℕ) : Cont V × FutureLoc → Code V Unit :=
  iterate .outOfFuel (invokeStep env) fuel

/-- Run a whole program. -/
def runMain (env : ℕ → Option Exn) (fuel : ℕ) {κ : Kind} (p : Prog V κ) :
    Res (Heap V) Exn Fault (κ.Ret V) :=
  runProg env (invoke env fuel) p .initial

end AraCore.Future
