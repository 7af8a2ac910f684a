/-
# Stores of named objects

A program declares objects, refers to them by name and destroys them.  A store maps the
names of the objects that exist to their current contents.
-/
import Mathlib

namespace AraCore.Lib

/-- Whether an argument was passed as an lvalue or as an rvalue. -/
inductive Category where
  | lvalue
  | rvalue
deriving DecidableEq, Repr

/-- The objects that exist, by name. -/
abbrev Store (α : Type*) := ℕ → Option α

namespace Store

variable {α : Type*} {P : α → Prop} {w : Store α} {v u : ℕ} {a : α}

/-- The store before anything is declared. -/
def empty : Store α := fun _ => none

/-- Declare the object `v`, or give it the contents `a`. -/
def set (w : Store α) (v : ℕ) (a : α) : Store α := Function.update w v (some a)

/-- The lifetime of `v` ends. -/
def erase (w : Store α) (v : ℕ) : Store α := Function.update w v none

/-- Every object that exists satisfies `P`. -/
def All (P : α → Prop) (w : Store α) : Prop := ∀ v a, w v = some a → P a

@[simp] lemma empty_apply (v : ℕ) : (empty : Store α) v = none := rfl

@[simp] lemma set_self (w : Store α) (v : ℕ) (a : α) : w.set v a v = some a := by
  simp [set]

lemma set_of_ne (w : Store α) (a : α) (h : u ≠ v) : w.set v a u = w u := by
  simp [set, h]

@[simp] lemma erase_self (w : Store α) (v : ℕ) : w.erase v v = none := by
  simp [erase]

lemma erase_of_ne (w : Store α) (h : u ≠ v) : w.erase v u = w u := by
  simp [erase, h]

lemma all_empty : All P (empty : Store α) := by
  intro v a h
  simp at h

lemma All.set (hw : w.All P) (ha : P a) (v : ℕ) : (w.set v a).All P := by
  intro u b hb
  by_cases huv : u = v
  · subst huv
    rw [set_self, Option.some.injEq] at hb
    exact hb ▸ ha
  · rw [set_of_ne w a huv] at hb
    exact hw u b hb

lemma All.erase (hw : w.All P) (v : ℕ) : (w.erase v).All P := by
  intro u b hb
  by_cases huv : u = v
  · subst huv
    rw [erase_self] at hb
    exact absurd hb (by simp)
  · rw [erase_of_ne w huv] at hb
    exact hw u b hb

end Store
end AraCore.Lib
