/-
# Promises, futures and their `State`s stay together

The shared state of `std::promise` and `std::future` and the `State` with the continuation
travel as two members through moves, swaps, `then` and the invocation of continuations.  In
every memory between two operations they belong together, so that a promise that makes a future
ready finds the continuation that was registered on it.
-/
import AraCore.Future.Program

namespace AraCore.Future

open Lib Comp

variable {V : Type} {h : Heap V}

/-- Where a `std::future` can be: in a `Future`, or as the `delegate_future` of a `State`. -/
inductive DelegateLoc where
  | future (f : FutureLoc)
  | state (s : ℕ)

/-- The `std::future` at `r` refers to the shared state `n`. -/
def Heap.Refers (h : Heap V) (n : ℕ) : DelegateLoc → Prop
  | .future f => ∃ o, h.futures f = some o ∧ o.delegate = some n
  | .state s => (h.states s).delegate = some n

/-- Promises, futures and `State`s belong together.  The `State` that is made with a shared state
has the same number. -/
structure Paired (h : Heap V) : Prop where
  promise : ∀ p o n, h.promises p = some o → o.delegate = some n → o.extra = some n
  future : ∀ f o n, h.futures f = some o → o.delegate = some n → o.extra = some n
  /-- No two `std::future`s refer to the same shared state. -/
  unique : ∀ n r r', h.Refers n r → h.Refers n r' → r = r'
  /-- A continuation that has not been invoked is stored with a valid delegate. -/
  pending : ∀ s c, (h.states s).continuation = some c → ¬ h.Started c.promise →
    (h.states s).delegate = some s
  registered : ∀ s m κ func, (h.states s).continuation = some (.link m κ func) →
    .registered m s ∈ h.log
  /-- A continuation that is registered is not lost: its function has been called with what the
  shared state is ready with, or it waits in the `State`, or the promise is gone for good. -/
  kept : ∀ m n, .registered m n ∈ h.log →
    (∃ st, .called m (some st) ∈ h.log ∧ h.shared n = some st) ∨
    (∃ κ func, (h.states n).continuation = some (.link m κ func)) ∧
      ¬ h.Started (.succ m) ∧ ¬ h.Fulfilled n ∨
    h.Dead n ∧ ¬ h.Fulfilled n
  /-- The promise of the future on which a continuation was registered invokes it, with a future
  that is ready with what the promise is given. -/
  fired : ∀ (copy : Code V Unit) st p o n c, (∀ g, ∃ j, copy g = .ok () { g with copies := j }) →
    h.promises p = some o → o.delegate = some n → h.shared n = none →
    (h.states n).continuation = some c →
    ∃ g : Heap V, g.futures c.arg = some ⟨some n, some n⟩ ∧ g.shared n = some st ∧
      ∀ call : Cont V × FutureLoc → Code V Unit, makeReady call p copy st h =
        cleanup (cleanup (call (c, c.arg)) fun h => h.destroyFuture c.arg)
          (fun h => h.leave p) g
  /-- A function passed to `then` has received a valid and ready future of the shared state on
  which it was registered. -/
  called : ∀ m st, .called m st ∈ h.log →
    ∃ n st', .registered m n ∈ h.log ∧ st = some st' ∧ h.shared n = some st'

lemma Graph.refers_unique (hg : Graph h) {n : ℕ} {r r' : DelegateLoc} (hr : h.Refers n r)
    (hr' : h.Refers n r') : r = r' := by
  cases r with
  | future f =>
    obtain ⟨o, ho, hn⟩ := hr
    cases r' with
    | future g =>
      obtain ⟨o', ho', hn'⟩ := hr'
      rw [hg.future_inj f g o o' n ho ho' hn hn']
    | state s =>
      obtain ⟨rfl, -⟩ := hg.state_delegate s n hr'
      have hnone := hg.future_state f o n ho hn
      rw [show (h.states n).delegate = some n from hr'] at hnone
      cases hnone
  | state s =>
    obtain ⟨rfl, -⟩ := hg.state_delegate s n hr
    cases r' with
    | future g =>
      obtain ⟨o', ho', hn'⟩ := hr'
      have hnone := hg.future_state g o' n ho' hn'
      rw [show (h.states n).delegate = some n from hr] at hnone
      cases hnone
    | state s' => rw [(hg.state_delegate s' n hr').1]

/-- A promise with a stored continuation makes its future ready and invokes the continuation. -/
lemma makeReady_eq {copy : Code V Unit} {st : Stored V} {p : PromiseLoc} {n : ℕ} {c : Cont V}
    (hcopy : ∀ g, ∃ j, copy g = .ok () { g with copies := j }) (hp : h.Holds p n)
    (hn : h.shared n = none) (hbusy : ¬ h.Busy p) (hc : (h.states n).continuation = some c) :
    ∃ j, ∀ call : Cont V × FutureLoc → Code V Unit, makeReady call p copy st h =
      cleanup (cleanup (call (c, c.arg)) fun h => h.destroyFuture c.arg) (fun h => h.leave p)
        ((({ h.locking [p] with copies := j } : Heap V).settled p n st).takeFuture n c.arg) := by
  obtain ⟨j, hj⟩ := hcopy (h.entered p)
  refine ⟨j, fun call => ?_⟩
  have hlock : lockPromise p h = .ok () ((h.locking [p]).lock (.promise p)) := by
    have hheld : .promise p ∉ (h.locking [p]).held := hbusy
    simp only [lockPromise, lock, bind, Comp.modify, Comp.get, if_neg hheld]
  have hpromise : ∀ g : Heap V, g.promises = h.promises →
      promise p g = .ok ⟨some n, some n⟩ g := by
    intro g hg
    have hgp : g.promises p = some ⟨some n, some n⟩ := by
      rw [hg]
      exact hp
    simp only [promise, bind, Comp.get, hgp]
    rfl
  have hset : setDelegate p copy st (h.entered p) =
      .ok () (({ h.locking [p] with copies := j } : Heap V).settled p n st) := by
    have hgn : (h.entered p).shared n = none := hn
    refine (bind_of_ok (hpromise (h.entered p) rfl)).trans ?_
    simp only [bind, Comp.get, hgn, hj, Comp.modify]
    rfl
  have hfire : ∀ g : Heap V, (g.states n).continuation = some c →
      fireContinuation call n g = cleanup (call (c, c.arg)) (fun h => h.destroyFuture c.arg)
        (g.takeFuture n c.arg) := by
    intro g hg
    simp only [fireContinuation, bind, Comp.get, hg, Comp.modify]
  have henter : (Comp.modify fun h : Heap V => h.enter p : Code V Unit)
      ((h.locking [p]).lock (.promise p)) = .ok () (h.entered p) := rfl
  refine (bind_of_ok hlock).trans ((bind_of_ok henter).trans (cleanup_congr ?_))
  refine (bind_of_ok hset).trans ((bind_of_ok (hpromise
    (({ h.locking [p] with copies := j } : Heap V).settled p n st) rfl)).trans ?_)
  exact hfire _ hc

/-- A stored continuation is invoked with a future that is ready with what the promise is
given. -/
lemma Core.fired (hc : Core h) {copy : Code V Unit} {st : Stored V} {p : PromiseLoc}
    {o : PromiseObj} {n : ℕ} {c : Cont V}
    (hcopy : ∀ g, ∃ j, copy g = .ok () { g with copies := j }) (ho : h.promises p = some o)
    (hn : o.delegate = some n) (hun : h.shared n = none)
    (hcont : (h.states n).continuation = some c) :
    ∃ g : Heap V, g.futures c.arg = some ⟨some n, some n⟩ ∧ g.shared n = some st ∧
      ∀ call : Cont V × FutureLoc → Code V Unit, makeReady call p copy st h =
        cleanup (cleanup (call (c, c.arg)) fun h => h.destroyFuture c.arg)
          (fun h => h.leave p) g := by
  have hp : h.Holds p n := by
    rcases o with ⟨d, e⟩
    cases hn
    cases hc.graph.promise_extra p _ n ho rfl
    exact ho
  obtain ⟨j, hj⟩ : ∃ j, ∀ call : Cont V × FutureLoc → Code V Unit, makeReady call p copy st h = _ :=
    makeReady_eq hcopy hp hun (hc.not_busy hp hun) hcont
  have hd := hc.conts.delegate n c hcont (hc.conts.waiting n c hcont hun)
  refine ⟨_, ?_, ?_, hj⟩
  · rw [Heap.takeFuture, Heap.setFuture, Table.set_apply, if_pos rfl]
    exact congrArg (fun d => some (FutureObj.mk d (some n))) hd
  · exact (Heap.settled_shared _ _ _ _ _).trans (if_pos rfl)

/-- In every memory between two operations of a single-threaded program promises, futures and
`State`s belong together. -/
theorem paired (hr : Reachable h) : Paired h := by
  have hcore := hr.inv.core
  constructor
  · exact hcore.graph.promise_extra
  · exact hcore.graph.future_extra
  · exact fun n r r' hn hn' => hcore.graph.refers_unique hn hn'
  · exact hcore.conts.delegate
  · exact hcore.conts.link
  · exact fun m => hr.inv.linked m (by simp)
  · exact fun copy st p o n c hcopy ho hn hun hcont => hcore.fired hcopy ho hn hun hcont
  · exact fun m st hm => (hcore.chronicle.backed _ hm).2

/-- `then` is called on the future of a promise that is not fulfilled yet. -/
def pendingThen : Prog ℕ .void :=
  .act (.newPromise 0) fun _ => .act (.getFuture 0 0) fun _ =>
    .thenCall (.named 0) .void (fun _ => .ret ()) 1 fun _ => .ret ()

theorem paired_pendingThen :
    ((runMain (fun _ => none) 1 pendingThen).state.states 0).continuation.isSome ∧
      Paired (runMain (fun _ => none) 1 pendingThen).state :=
  ⟨rfl, paired ⟨fun _ => none, 1, .void, pendingThen, rfl, fun _ hf => by cases hf⟩⟩

end AraCore.Future
