/-
# Paths in a finite relation

How far a recursion goes that follows the pairs of a relation: if there is no cycle among finitely
many elements, no path is longer than there are elements, and every element can be reached from
one that nothing leads to.
-/
import Mathlib

namespace AraCore.Lib.Reach

open Relation

variable {α : Type*} {R R' : α → α → Prop} {n k : ℕ} {p q : α}

/-- Every path from `p` has fewer than `n` steps. -/
def Within (R : α → α → Prop) : ℕ → α → Prop
  | 0, _ => False
  | n + 1, p => ∀ v, R p v → Within R n v

lemma Within.descend (h : Within R n p) (hpq : TransGen R p q) : ∃ k < n, Within R k q := by
  induction hpq with
  | single hpq =>
    cases n with
    | zero => exact h.elim
    | succ n => exact ⟨n, Nat.lt_succ_self n, h _ hpq⟩
  | tail _ hbq ih =>
    obtain ⟨k, hk, hb⟩ := ih
    cases k with
    | zero => exact hb.elim
    | succ k => exact ⟨k, Nat.lt_of_succ_lt hk, hb _ hbq⟩

/-- There is no cycle where all paths are bounded. -/
lemma Within.acyclic (h : Within R n p) : ¬ TransGen R p p := by
  intro hcycle
  induction n using Nat.strong_induction_on with
  | _ n ih =>
    obtain ⟨k, hk, hp⟩ := h.descend hcycle
    exact ih k hk hp

lemma Within.succ (h : Within R n p) : Within R (n + 1) p := by
  induction n generalizing p with
  | zero => exact h.elim
  | succ n ih => exact fun v hv => ih (h v hv)

lemma Within.mono (h : Within R n p) (hk : n ≤ k) : Within R k p := by
  induction hk with
  | refl => exact h
  | step _ ih => exact ih.succ

section Finite

variable {s : Finset α} (hacyclic : ∀ u, ¬ TransGen R u u)

open Classical in
/-- The elements of `s` that can be reached from `p`. -/
noncomputable def reached (R : α → α → Prop) (s : Finset α) (p : α) : Finset α :=
  s.filter (TransGen R p)

omit hacyclic in
lemma mem_reached {x : α} : x ∈ reached R s p ↔ x ∈ s ∧ TransGen R p x := by
  simp [reached]

include hacyclic

lemma reached_ssubset (hp : p ∈ s) : reached R s p ⊂ s := by
  refine Finset.ssubset_iff_of_subset (fun x hx => (mem_reached.mp hx).1) |>.mpr ⟨p, hp, ?_⟩
  exact fun hmem => hacyclic p (mem_reached.mp hmem).2

lemma reached_lt (hs : ∀ u v, R u v → v ∈ s) (hpq : R p q) :
    (reached R s q).card < (reached R s p).card := by
  refine Finset.card_lt_card ((Finset.ssubset_iff_of_subset fun x hx => ?_).mpr ⟨q, ?_, ?_⟩)
  · obtain ⟨hxs, hqx⟩ := mem_reached.mp hx
    exact mem_reached.mpr ⟨hxs, .head hpq hqx⟩
  · exact mem_reached.mpr ⟨hs p q hpq, .single hpq⟩
  · exact fun hq => hacyclic q (mem_reached.mp hq).2

lemma within_of_reached (hs : ∀ u v, R u v → v ∈ s) (hn : (reached R s p).card < n) :
    Within R n p := by
  induction n generalizing p with
  | zero => exact absurd hn (Nat.not_lt_zero _)
  | succ n ih =>
    intro v hv
    have hlt := reached_lt hacyclic hs hv
    exact ih (by omega)

/-- No path is longer than there are elements. -/
theorem within_card (hs : ∀ u v, R u v → v ∈ s) (hp : p ∈ s) : Within R s.card p :=
  within_of_reached hacyclic hs (Finset.card_lt_card (reached_ssubset hacyclic hp))

/-- Every element can be reached from one that nothing leads to. -/
theorem exists_root (hs : ∀ u v, R u v → u ∈ s) (hp : p ∈ s) :
    ∃ r ∈ s, (∀ u, ¬ R u r) ∧ ReflTransGen R r p := by
  have hflip : ∀ u, ¬ TransGen (flip R) u u := fun u hu =>
    hacyclic u (transGen_swap.mp hu)
  induction hn : (reached (flip R) s p).card using Nat.strong_induction_on generalizing p with
  | _ n ih =>
    by_cases hroot : ∀ u, ¬ R u p
    · exact ⟨p, hp, hroot, .refl⟩
    · obtain ⟨u, hu⟩ := not_forall_not.mp hroot
      have hlt := reached_lt (R := flip R) hflip (fun u v huv => hs v u huv) hu
      obtain ⟨r, hr, hnone, hru⟩ := ih _ (hn ▸ hlt) (hs u p hu) rfl
      exact ⟨r, hr, hnone, hru.tail hu⟩

end Finite

end AraCore.Lib.Reach
