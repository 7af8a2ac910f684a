/-
# Tables

A table maps finitely many keys to values.  It carries a list that contains all of its keys,
so that one can decide whether some entry has a property.
-/
import Mathlib

namespace AraCore.Lib

/-- A partial map with a list of keys outside which it is undefined. -/
structure Table (α β : Type) where
  lookup : α → Option β
  keys : List α
  mem_keys : ∀ a b, lookup a = some b → a ∈ keys

namespace Table

variable {α β : Type}

instance : CoeFun (Table α β) fun _ => α → Option β := ⟨lookup⟩

/-- The table without entries. -/
def empty : Table α β := ⟨fun _ => none, [], by simp⟩

/-- Some entry has the property `P`. -/
def Any (t : Table α β) (P : β → Prop) : Prop := ∃ a b, t a = some b ∧ P b

instance (t : Table α β) (P : β → Prop) [DecidablePred P] : Decidable (t.Any P) :=
  decidable_of_iff (t.keys.any fun a => (t a).any fun b => decide (P b)) (by
    simp only [List.any_eq_true, Option.any_eq_true, decide_eq_true_eq]
    constructor
    · rintro ⟨a, -, b, hb, hP⟩
      exact ⟨a, b, hb, hP⟩
    · rintro ⟨a, b, hb, hP⟩
      exact ⟨a, t.mem_keys a b hb, b, hb, hP⟩)

@[simp] lemma empty_apply (a : α) : (empty : Table α β) a = none := rfl

variable [DecidableEq α]

/-- Enter or replace the value of `a`. -/
def set (t : Table α β) (a : α) (b : β) : Table α β where
  lookup := Function.update t a (some b)
  keys := a :: t.keys
  mem_keys := by
    intro a' b' h
    by_cases ha : a' = a
    · exact ha ▸ List.mem_cons_self
    · rw [Function.update_of_ne ha] at h
      exact List.mem_cons_of_mem _ (t.mem_keys a' b' h)

/-- Remove the entry of `a`. -/
def erase (t : Table α β) (a : α) : Table α β where
  lookup := Function.update t a none
  keys := t.keys
  mem_keys := by
    intro a' b' h
    by_cases ha : a' = a
    · simp [ha] at h
    · rw [Function.update_of_ne ha] at h
      exact t.mem_keys a' b' h

@[simp] lemma set_apply (t : Table α β) (a a' : α) (b : β) :
    t.set a b a' = if a' = a then some b else t a' := by
  show Function.update t a (some b) a' = _
  rw [Function.update_apply]

@[simp] lemma erase_apply (t : Table α β) (a a' : α) :
    t.erase a a' = if a' = a then none else t a' := by
  show Function.update t a none a' = _
  rw [Function.update_apply]

end Table
end AraCore.Lib
