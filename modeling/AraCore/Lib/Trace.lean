/-
# The order of events in a trace

An interleaving of several parties is the list of the events they perform, in the order in
which they perform them.  What decides about the outcome of a race is which of two events
comes first.
-/
import Mathlib

namespace AraCore.Lib.Trace

variable {α : Type*} {a b e : α} {l : List α}

/-- The event `a` occurs in the trace, and `b` does not occur before it. -/
def Before (a b : α) (l : List α) : Prop := ∃ l₁ l₂, l = l₁ ++ a :: l₂ ∧ b ∉ l₁

lemma Before.mem (h : Before a b l) : a ∈ l := by
  obtain ⟨l₁, l₂, rfl, -⟩ := h
  simp

/-- The first event decides the order if it is one of the two. -/
lemma before_cons : Before a b (e :: l) ↔ e = a ∨ e ≠ b ∧ Before a b l := by
  constructor
  · rintro ⟨l₁, l₂, h, hb⟩
    rcases l₁ with _ | ⟨e', l₁⟩
    · exact Or.inl (List.cons.inj h).1
    · obtain ⟨rfl, rfl⟩ := List.cons.inj h
      rw [List.mem_cons, not_or] at hb
      exact Or.inr ⟨Ne.symm hb.1, l₁, l₂, rfl, hb.2⟩
  · rintro (rfl | ⟨hne, l₁, l₂, rfl, hb⟩)
    · exact ⟨[], l, rfl, List.not_mem_nil⟩
    · refine ⟨e :: l₁, l₂, rfl, ?_⟩
      rw [List.mem_cons, not_or]
      exact ⟨hne.symm, hb⟩

/-- The next event decides the order only if it is the first one of the two. -/
lemma before_concat : Before a b (l ++ [e]) ↔ Before a b l ∨ (e = a ∧ b ∉ l) := by
  constructor
  · rintro ⟨l₁, l₂, h, hb⟩
    rcases List.eq_nil_or_concat l₂ with rfl | ⟨l₂, e', rfl⟩
    · obtain ⟨rfl, hea⟩ := List.append_inj' h rfl
      rw [List.cons.injEq] at hea
      exact Or.inr ⟨hea.1, hb⟩
    · have h' : l ++ [e] = (l₁ ++ a :: l₂) ++ [e'] := by
        rw [h]
        simp
      obtain ⟨rfl, -⟩ := List.append_inj' h' rfl
      exact Or.inl ⟨l₁, l₂, rfl, hb⟩
  · rintro (⟨l₁, l₂, rfl, hb⟩ | ⟨rfl, hb⟩)
    · exact ⟨l₁, l₂ ++ [e], by simp, hb⟩
    · exact ⟨l, [], rfl, hb⟩

lemma before_of_notMem (hb : b ∉ l) : Before a b l ↔ a ∈ l := by
  constructor
  · exact Before.mem
  · intro ha
    obtain ⟨l₁, l₂, rfl⟩ := List.append_of_mem ha
    exact ⟨l₁, l₂, rfl, fun h => hb (List.mem_append_left _ h)⟩

/-- The order of two events is settled when the second one has occurred. -/
lemma before_concat_of_mem (hb : b ∈ l) : Before a b (l ++ [e]) ↔ Before a b l := by
  rw [before_concat]
  exact or_iff_left fun h => h.2 hb

/-- A projection that keeps both events keeps their order. -/
lemma before_filterMap {β : Type*} {proj : α → Option β} {a' b' : β}
    (ha : ∀ e, proj e = some a' ↔ e = a) (hb : ∀ e, proj e = some b' ↔ e = b) :
    Before a' b' (l.filterMap proj) ↔ Before a b l := by
  induction l with
  | nil => simp [Before]
  | cons e l ih =>
    cases he : proj e with
    | none =>
      have hea : e ≠ a := fun heq => by simp [(ha e).mpr heq] at he
      have heb : e ≠ b := fun heq => by simp [(hb e).mpr heq] at he
      rw [List.filterMap_cons_none he, before_cons, ih]
      simp [hea, heb]
    | some e' =>
      have hea : e' = a' ↔ e = a := by rw [← ha, he, Option.some.injEq]
      have heb : e' = b' ↔ e = b := by rw [← hb, he, Option.some.injEq]
      rw [List.filterMap_cons_some he, before_cons, before_cons, ih, hea, Ne, heb]

end AraCore.Lib.Trace
