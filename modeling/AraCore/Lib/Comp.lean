/-
# Computations with exceptions and faults

A computation over states of type `σ` returns a value, throws an exception that a caller may
catch, or comes to a fault from which nothing recovers.  This file provides such computations
as a monad, the constructs that react to exceptions, computations that call themselves a
bounded number of times, and the rules for their weakest preconditions.
-/
import Mathlib

namespace AraCore.Lib

variable {σ ε φ α β : Type}

/-- How a computation ends, and in which state. -/
inductive Res (σ ε φ α : Type) where
  | ok (a : α) (s : σ)
  | throw (x : ε) (s : σ)
  | stop (f : φ) (s : σ)

namespace Res

/-- The state at the end. -/
def state : Res σ ε φ α → σ
  | ok _ s | throw _ s | stop _ s => s

/-- The fault, if it ends with one. -/
def fault : Res σ ε φ α → Option φ
  | stop f _ => some f
  | _ => none

end Res

/-- A computation over states of type `σ`, with exceptions of type `ε` and faults of type
`φ`. -/
def Comp (σ ε φ α : Type) := σ → Res σ ε φ α

namespace Comp

instance : Monad (Comp σ ε φ) where
  pure a := fun s => .ok a s
  bind c g := fun s =>
    match c s with
    | .ok a s' => g a s'
    | .throw x s' => .throw x s'
    | .stop f s' => .stop f s'

instance : LawfulMonad (Comp σ ε φ) := by
  refine LawfulMonad.mk' _ (fun c => funext fun s => ?_) (fun _ _ => rfl)
    fun c g k => funext fun s => ?_
  · show (c >>= pure) s = c s
    simp only [bind, pure]
    cases c s <;> rfl
  · simp only [bind]
    cases c s <;> rfl

/-- The current state. -/
def get : Comp σ ε φ σ := fun s => .ok s s

/-- Change the state. -/
def modify (g : σ → σ) : Comp σ ε φ Unit := fun s => .ok () (g s)

/-- Throw the exception `x`. -/
def throw (x : ε) : Comp σ ε φ α := fun s => .throw x s

/-- Come to the fault `f`. -/
def stop (f : φ) : Comp σ ε φ α := fun s => .stop f s

/-- Handle the exceptions of `c`. -/
def tryCatch (c : Comp σ ε φ α) (handler : ε → Comp σ ε φ α) : Comp σ ε φ α := fun s =>
  match c s with
  | .throw x s' => handler x s'
  | r => r

/-- Change the state when the scope of `c` is left, be it by an exception. -/
def cleanup (c : Comp σ ε φ α) (g : σ → σ) : Comp σ ε φ α := fun s =>
  match c s with
  | .ok a s' => .ok a (g s')
  | .throw x s' => .throw x (g s')
  | .stop f s' => .stop f s'

/-- Change the state only when `c` is left by an exception. -/
def unwind (c : Comp σ ε φ α) (g : ε → σ → σ) : Comp σ ε φ α := fun s =>
  match c s with
  | .throw x s' => .throw x (g x s')
  | r => r

/-- What `c` returns or throws, as a value. -/
def attempt (c : Comp σ ε φ α) : Comp σ ε φ (Except ε α) := fun s =>
  match c s with
  | .ok a s' => .ok (.ok a) s'
  | .throw x s' => .ok (.error x) s'
  | .stop f s' => .stop f s'

/-- A computation that returns is followed by the next one. -/
lemma bind_of_ok {c : Comp σ ε φ α} {g : α → Comp σ ε φ β} {s s' : σ} {a : α}
    (h : c s = .ok a s') : (c >>= g) s = g a s' := by
  simp only [bind, h]

lemma cleanup_congr {c c' : Comp σ ε φ α} {g : σ → σ} {s s' : σ} (h : c s = c' s') :
    cleanup c g s = cleanup c' g s' := by
  simp only [cleanup, h]

/-- The computation `F call` in which `call` is `F` again, to the depth `k`; deeper calls come
to the fault `out`. -/
def iterate (out : φ) (F : (α → Comp σ ε φ β) → α → Comp σ ε φ β) : ℕ → α → Comp σ ε φ β
  | 0 => fun _ => stop out
  | k + 1 => F (iterate out F k)

/-! ## Weakest preconditions -/

/-- A postcondition for each way a computation can end. -/
structure Post (σ ε φ α : Type) where
  ok : α → σ → Prop
  throw : ε → σ → Prop
  stop : φ → σ → Prop

/-- `c`, started in `s`, ends as `Q` says. -/
def wp (c : Comp σ ε φ α) (Q : Post σ ε φ α) (s : σ) : Prop :=
  match c s with
  | .ok a s' => Q.ok a s'
  | .throw x s' => Q.throw x s'
  | .stop f s' => Q.stop f s'

variable {c : Comp σ ε φ α} {Q Q' : Post σ ε φ α} {s : σ}

theorem wp_mono (h : wp c Q s) (hok : ∀ a s', Q.ok a s' → Q'.ok a s')
    (hthrow : ∀ x s', Q.throw x s' → Q'.throw x s')
    (hstop : ∀ f s', Q.stop f s' → Q'.stop f s') : wp c Q' s := by
  unfold wp at h ⊢
  split at h
  · exact hok _ _ h
  · exact hthrow _ _ h
  · exact hstop _ _ h

theorem eq_ok_of_wp {a : α} {s' : σ}
    (h : wp c ⟨fun b t => b = a ∧ t = s', fun _ _ => False, fun _ _ => False⟩ s) :
    c s = .ok a s' := by
  unfold wp at h
  split at h
  · next heq => rw [heq, h.1, h.2]
  · exact h.elim
  · exact h.elim

theorem eq_throw_of_wp {x : ε} {s' : σ}
    (h : wp c ⟨fun _ _ => False, fun y t => y = x ∧ t = s', fun _ _ => False⟩ s) :
    c s = .throw x s' := by
  unfold wp at h
  split at h
  · exact h.elim
  · next heq => rw [heq, h.1, h.2]
  · exact h.elim

theorem eq_stop_of_wp {f : φ} {s' : σ}
    (h : wp c ⟨fun _ _ => False, fun _ _ => False, fun g t => g = f ∧ t = s'⟩ s) :
    c s = .stop f s' := by
  unfold wp at h
  split at h
  · exact h.elim
  · exact h.elim
  · next heq => rw [heq, h.1, h.2]

@[simp] lemma wp_pure {a : α} : wp (pure a) Q s ↔ Q.ok a s := Iff.rfl

@[simp] lemma wp_bind {c : Comp σ ε φ β} {g : β → Comp σ ε φ α} :
    wp (c >>= g) Q s ↔ wp c ⟨fun b s' => wp (g b) Q s', Q.throw, Q.stop⟩ s := by
  unfold wp
  simp only [bind]
  cases c s <;> rfl

@[simp] lemma wp_map {c : Comp σ ε φ β} {g : β → α} :
    wp (g <$> c) Q s ↔ wp c ⟨fun b s' => Q.ok (g b) s', Q.throw, Q.stop⟩ s :=
  wp_bind

@[simp] lemma wp_get {Q : Post σ ε φ σ} : wp get Q s ↔ Q.ok s s := Iff.rfl

@[simp] lemma wp_modify {Q : Post σ ε φ Unit} {g : σ → σ} : wp (modify g) Q s ↔ Q.ok () (g s) :=
  Iff.rfl

@[simp] lemma wp_throw {x : ε} : wp (throw x : Comp σ ε φ α) Q s ↔ Q.throw x s := Iff.rfl

@[simp] lemma wp_stop {f : φ} : wp (stop f : Comp σ ε φ α) Q s ↔ Q.stop f s := Iff.rfl

@[simp] lemma wp_tryCatch {handler : ε → Comp σ ε φ α} :
    wp (tryCatch c handler) Q s ↔ wp c ⟨Q.ok, fun x s' => wp (handler x) Q s', Q.stop⟩ s := by
  unfold wp tryCatch
  cases c s <;> rfl

@[simp] lemma wp_cleanup {g : σ → σ} :
    wp (cleanup c g) Q s ↔
      wp c ⟨fun a s' => Q.ok a (g s'), fun x s' => Q.throw x (g s'), Q.stop⟩ s := by
  unfold wp cleanup
  cases c s <;> rfl

@[simp] lemma wp_unwind {g : ε → σ → σ} :
    wp (unwind c g) Q s ↔ wp c ⟨Q.ok, fun x s' => Q.throw x (g x s'), Q.stop⟩ s := by
  unfold wp unwind
  cases c s <;> rfl

@[simp] lemma wp_attempt {Q : Post σ ε φ (Except ε α)} :
    wp (attempt c) Q s ↔
      wp c ⟨fun a s' => Q.ok (.ok a) s', fun x s' => Q.ok (.error x) s', Q.stop⟩ s := by
  unfold wp attempt
  cases c s <;> rfl

end Comp
end AraCore.Lib
