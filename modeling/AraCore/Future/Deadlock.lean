/-
# Deadlocks

A single thread that locks a mutex which it holds waits for ever.  Mutexes of futures, of
`State`s and of captured promises are never locked twice.  The mutex of a promise of the program
is locked while the promise is being fulfilled, so that continuations run under it.
-/
import AraCore.Future.Program

namespace AraCore.Future

open Lib Comp

variable {V : Type} {κ : Kind}

/-- A run ends in a deadlock exactly if the program calls a method that locks the mutex of a
promise which is being fulfilled, or one that locks the mutex of one promise twice. -/
theorem deadlock_iff (env : ℕ → Option Exn) (fuel : ℕ) (p : Prog V κ) :
    (∃ mx, (runMain env fuel p).fault = some (.deadlock mx)) ↔
      ∃ e ∈ (runMain env fuel p).state.log, e.Conflict := by
  have hrun := Client.any_tolerant.run trivial env fuel p.within_true
  unfold wp at hrun
  unfold runMain
  split at hrun
  · next heq =>
    rw [heq]
    refine iff_of_false ?_ hrun.1.core.chronicle.no_conflict
    rintro ⟨mx, hmx⟩
    cases hmx
  · next heq =>
    rw [heq]
    refine iff_of_false ?_ hrun.1.core.chronicle.no_conflict
    rintro ⟨mx, hmx⟩
    cases hmx
  · next f h heq =>
    rw [heq]
    have hblame : Blame Client.any fuel f h := hrun
    refine Iff.trans (exists_congr fun mx => ?_) hblame.deadlock
    exact Option.some_inj

/-- `p.swap(p)` -/
def swapSelf : Prog ℕ .void :=
  .act (.newPromise 0) fun _ => .act (.swapPromise 0 0) fun _ => .ret ()

/-- A continuation fulfils the promise by which it is invoked. -/
def fulfilAgain : Prog ℕ .void :=
  .act (.newPromise 0) fun _ => .act (.getFuture 0 0) fun _ =>
    .thenCall (.named 0) .void (fun _ => .act (.setError 0 ⟨7, .optional, 5⟩) fun _ => .ret ()) 1
      fun _ => .act (.setValue 0 (some 3) .rvalue) fun _ => .ret ()

/-- A promise that is swapped with itself, and one that is fulfilled again by its continuation,
lock a mutex twice. -/
theorem locks_twice :
    (runMain (fun _ => none) 0 swapSelf).fault = some (.deadlock (.promise (.named 0))) ∧
      (runMain (fun _ => none) 1 fulfilAgain).fault = some (.deadlock (.promise (.named 0))) :=
  ⟨rfl, rfl⟩

end AraCore.Future
