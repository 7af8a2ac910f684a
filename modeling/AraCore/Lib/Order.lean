/-
# Lists that respect a relation

An order of building is a list in which every element stands before all that it is related to.
This file says what editing a list does to the order of its elements, and which lists respect a
relation.
-/
import AraCore.Lib.Trace

namespace AraCore.Lib.Order

open Trace

variable {α : Type*} {u v n : α} {l l' l₁ l₂ : List α} {R R' : α → α → Prop}

/-! ## Editing a list -/

lemma before_append_left (h : Before u v l) : Before u v (l ++ l') := by
  obtain ⟨l₁, l₂, rfl, hv⟩ := h
  exact ⟨l₁, l₂ ++ l', by simp, hv⟩

lemma before_append_right (hv : v ∉ l) (h : Before u v l') : Before u v (l ++ l') := by
  obtain ⟨l₁, l₂, rfl, hv'⟩ := h
  exact ⟨l ++ l₁, l₂, by simp, by simp [hv, hv']⟩

lemma before_append_of_mem (hu : u ∈ l) (hv : v ∉ l) : Before u v (l ++ l') :=
  before_append_left ((before_of_notMem hv).mpr hu)

/-- A third element does not matter. -/
lemma before_insert (hu : n ≠ u) (hv : n ≠ v) :
    Before u v (l₁ ++ n :: l₂) ↔ Before u v (l₁ ++ l₂) := by
  induction l₁ with
  | nil =>
    rw [List.nil_append, before_cons]
    simp [hu, hv]
  | cons x l₁ ih => rw [List.cons_append, List.cons_append, before_cons, before_cons, ih]

lemma Before.mem_left (h : Before u n (l₁ ++ n :: l₂)) (hu : n ≠ u) : u ∈ l₁ := by
  induction l₁ with
  | nil =>
    rw [List.nil_append, before_cons] at h
    simp [hu] at h
  | cons x l₁ ih =>
    rw [List.cons_append, before_cons] at h
    rcases h with rfl | ⟨-, h⟩
    · exact List.mem_cons_self
    · exact List.mem_cons_of_mem _ (ih h)

/-- An element that is moved back is still behind all that it was behind, and the order of the
others does not change. -/
lemma before_moved {l₃ : List α} (hn : (l₁ ++ n :: (l₂ ++ l₃)).Nodup) (hu : n ≠ u)
    (h : Before u v (l₁ ++ n :: (l₂ ++ l₃))) : Before u v (l₁ ++ l₂ ++ n :: l₃) := by
  by_cases hv : n = v
  · subst hv
    have hmem := Before.mem_left h hu
    have hnot : n ∉ l₁ ++ l₂ := by
      intro hmem'
      rw [List.nodup_middle, List.nodup_cons, ← List.append_assoc] at hn
      exact hn.1 (List.mem_append_left _ hmem')
    exact before_append_of_mem (List.mem_append_left _ hmem) hnot
  · rw [before_insert hu hv] at h ⊢
    rwa [List.append_assoc]

lemma before_filter {p : α → Bool} (hu : p u = true) (h : Before u v l) :
    Before u v (l.filter p) := by
  obtain ⟨l₁, l₂, rfl, hv⟩ := h
  refine ⟨l₁.filter p, l₂.filter p, ?_, fun hmem => hv (List.mem_of_mem_filter hmem)⟩
  rw [List.filter_append, List.filter_cons_of_pos hu]

/-- Read backwards, the list has its elements in the opposite order. -/
lemma before_reverse (hl : l.Nodup) (hv : v ∈ l) (huv : u ≠ v) (h : Before u v l) :
    Before v u l.reverse := by
  obtain ⟨l₁, l₂, rfl, hnot⟩ := h
  rw [List.nodup_middle, List.nodup_cons] at hl
  have hv₂ : v ∈ l₂ := by
    rcases List.mem_append.mp hv with hv | hv
    · exact absurd hv hnot
    · exact (List.mem_cons.mp hv).resolve_left huv.symm
  have hu₂ : u ∉ l₂.reverse := fun hu => hl.1 (List.mem_append_right _ (List.mem_reverse.mp hu))
  rw [List.reverse_append, List.reverse_cons, List.append_assoc]
  exact before_append_of_mem (List.mem_reverse.mpr hv₂) hu₂

/-! ## Respecting a relation -/

/-- The list contains, with an element, all that it is related to, and behind it. -/
structure Ordered (R : α → α → Prop) (l : List α) : Prop where
  nodup : l.Nodup
  closed : ∀ u ∈ l, ∀ v, R u v → v ∈ l
  before : ∀ u ∈ l, ∀ v, R u v → Before u v l

namespace Ordered

lemma nil : Ordered R ([] : List α) := ⟨List.nodup_nil, nofun, nofun⟩

lemma mono (h : Ordered R l) (hR : ∀ u ∈ l, ∀ v, R' u v → R u v) : Ordered R' l :=
  ⟨h.nodup, fun u hu v hv => h.closed u hu v (hR u hu v hv),
    fun u hu v hv => h.before u hu v (hR u hu v hv)⟩

/-- What is new in a list is put in front of another one. -/
lemma merge [DecidableEq α] (h : Ordered R l) (h' : Ordered R l') :
    Ordered R (l.filter (· ∉ l') ++ l') := by
  have hmem : ∀ x, x ∈ l.filter (· ∉ l') ++ l' ↔ x ∈ l ∨ x ∈ l' := by
    intro x
    rw [List.mem_append, List.mem_filter]
    by_cases hx : x ∈ l' <;> simp [hx]
  refine ⟨?_, fun u hu v hv => ?_, fun u hu v hv => ?_⟩
  · refine List.nodup_append.mpr ⟨h.nodup.filter _, h'.nodup, ?_⟩
    rintro x hx y hy rfl
    exact of_decide_eq_true (List.mem_filter.mp hx).2 hy
  · rw [hmem] at hu ⊢
    exact hu.imp (fun hu => h.closed u hu v hv) fun hu => h'.closed u hu v hv
  · rcases List.mem_append.mp hu with hu | hu
    · obtain ⟨hul, hul'⟩ := List.mem_filter.mp hu
      exact before_append_left (before_filter hul' (h.before u hul v hv))
    · have hv' := h'.closed u hu v hv
      refine before_append_right (fun hmem' => ?_) (h'.before u hu v hv)
      exact of_decide_eq_true (List.mem_filter.mp hmem').2 hv'

/-- An element can be taken out to which nothing is related. -/
lemma filter {p : α → Bool} (h : Ordered R l) (hp : ∀ u ∈ l, ∀ v, R u v → p v = true) :
    Ordered R (l.filter p) := by
  refine ⟨h.nodup.filter _, fun u hu v hv => ?_, fun u hu v hv => ?_⟩
  · have hul := List.mem_of_mem_filter hu
    exact List.mem_filter.mpr ⟨h.closed u hul v hv, hp u hul v hv⟩
  · exact before_filter (List.mem_filter.mp hu).2 (h.before u (List.mem_of_mem_filter hu) v hv)

/-- Read backwards, the list has before an element all that it is related to. -/
lemma reverse (h : Ordered R l) (hirrefl : ∀ u, ¬ R u u) (hu : u ∈ l) (huv : R u v) :
    Before v u l.reverse :=
  before_reverse h.nodup (h.closed u hu v huv) (fun heq => hirrefl u (heq ▸ huv))
    (h.before u hu v huv)

end Ordered

end AraCore.Lib.Order
