/-
# The life of a variant's storage

Seen from outside, a variant is undeclared, valueless, or holds an alternative.  The member
functions of `Variant` lead from one of these phases to another in six kinds of moves, of
which exactly one leaves a live object behind that nothing will ever destroy: moving out of a
variant invalidates its index without a destructor call.  This file states the moves, the
invariant they keep, their effect on the contents, and which of them abandon an object.
-/
import AraCore.Variant.Model

namespace AraCore.Variant

open Lib

variable {τ V : Type*} (A : Alternatives τ V)

/-- What the variants hold: nothing if undeclared, and otherwise maybe an alternative. -/
abbrev Contents (V : Type*) := Loc → Option (Option (ℕ × V))

/-- The contents of all variants. -/
def content (w : World τ V) : Contents V := fun l =>
  (w.index l).map fun i =>
    if i = invalidVariantIndex then none else (w.mem.cell l).map fun x => (i, x.val)

/-- The variant `l` holds the object `x` as its alternative `i`. -/
structure Holds (w : World τ V) (l : Loc) (i : ℕ) (x : Obj τ V) : Prop where
  index : w.index l = some i
  cell : w.mem.cell l = some x
  type : A.types[i]? = some x.ty

/-- An index fits its storage: if it is valid, there is an object of the type it names. -/
def Fits (index : Option ℕ) (cell : Option (Obj τ V)) : Prop :=
  match index with
  | none => cell = none
  | some i => i = invalidVariantIndex ∨ ∃ x, cell = some x ∧ A.types[i]? = some x.ty

/-- The invariant of all programs: every index fits its storage, and no object was used
outside its lifetime. -/
structure Wellformed (w : World τ V) : Prop where
  fits : ∀ l, Fits A (w.index l) (w.mem.cell l)
  misused : w.mem.misused = 0

variable {A} {w w' w'' : World τ V} {l : Loc} {i : ℕ} {x : Obj τ V} {v : V}

lemma wellformed_empty : Wellformed A (World.empty : World τ V) := ⟨fun _ => rfl, rfl⟩

lemma content_eq_none : content w l = none ↔ w.index l = none := by
  simp [content]

lemma content_of_invalid (h : w.index l = some invalidVariantIndex) :
    content w l = some none := by
  simp [content, h]

lemma Holds.index_ne (h : Holds A w l i x) : i ≠ invalidVariantIndex :=
  A.index_ne_invalid h.type

lemma Holds.content_eq (h : Holds A w l i x) : content w l = some (some (i, x.val)) := by
  simp [content, h.index, h.cell, h.index_ne]

lemma Wellformed.index_of_valueless (hw : Wellformed A w) (h : content w l = some none) :
    w.index l = some invalidVariantIndex := by
  have hfit := hw.fits l
  cases hi : w.index l with
  | none => simp [content, hi] at h
  | some i =>
    rw [hi] at hfit
    rcases hfit with rfl | ⟨x, hx, -⟩
    · rfl
    · by_cases hinv : i = invalidVariantIndex
      · rw [hinv]
      · simp [content, hi, hx, hinv] at h

lemma Wellformed.holds (hw : Wellformed A w) (h : content w l = some (some (i, v))) :
    ∃ x, Holds A w l i x ∧ x.val = v := by
  have hfit := hw.fits l
  cases hi : w.index l with
  | none => simp [content, hi] at h
  | some j =>
    by_cases hinv : j = invalidVariantIndex
    · simp [content, hi, hinv] at h
    · rw [hi] at hfit
      obtain ⟨x, hx, ht⟩ := hfit.resolve_left hinv
      simp only [content, hi, hx, hinv, if_false, Option.map_some, Option.some.injEq,
        Prod.mk.injEq] at h
      obtain ⟨rfl, rfl⟩ := h
      exact ⟨x, ⟨hi, hx, ht⟩, rfl⟩

/-! ## Changing one variant -/

/-- Nothing but the variant `l` differs. -/
structure SameOff (l : Loc) (w w' : World τ V) : Prop where
  index : ∀ k, k ≠ l → w'.index k = w.index k
  cell : ∀ k, k ≠ l → w'.mem.cell k = w.mem.cell k

lemma Wellformed.of_sameOff (hw : Wellformed A w) (hs : SameOff l w w')
    (hl : Fits A (w'.index l) (w'.mem.cell l)) (hm : w'.mem.misused = 0) :
    Wellformed A w' := by
  refine ⟨fun k => ?_, hm⟩
  by_cases hk : k = l
  · exact hk ▸ hl
  · rw [hs.index k hk, hs.cell k hk]
    exact hw.fits k

lemma content_of_sameOff (hs : SameOff l w w') {c : Option (Option (ℕ × V))}
    (hl : content w' l = c) : content w' = Function.update (content w) l c := by
  funext k
  by_cases hk : k = l
  · subst hk
    simp [hl]
  · rw [Function.update_of_ne hk]
    simp [content, hs.index k hk, hs.cell k hk]

lemma sameOff_setIndex (w : World τ V) (l : Loc) (i : ℕ) : SameOff l w (w.setIndex l i) :=
  ⟨fun k hk => by simp [World.setIndex, hk], fun _ _ => rfl⟩

lemma sameOff_construct (w : World τ V) (l : Loc) (i : Option ℕ) (t : τ) (v : V) :
    SameOff l w ⟨Function.update w.index l i, w.mem.construct l t v⟩ :=
  ⟨fun k hk => by simp [hk], fun k hk => Mem.cell_construct_of_ne hk⟩

lemma sameOff_release (w : World τ V) (l : Loc) (i : Option ℕ) :
    SameOff l w ⟨Function.update w.index l i, w.mem.release l⟩ :=
  ⟨fun k hk => by simp [hk], fun k hk => Mem.cell_release_of_ne hk⟩

lemma Holds.update_index (h : Holds A w l i x) : Function.update w.index l (some i) = w.index :=
  Function.update_eq_self_iff.mpr h.index.symm

lemma content_declare (w : World τ V) (l : Loc) :
    content (w.setIndex l invalidVariantIndex) = Function.update (content w) l (some none) :=
  content_of_sameOff (sameOff_setIndex w l _) (content_of_invalid (by simp [World.setIndex]))

lemma content_place {t : τ} (ht : A.types[i]? = some t) :
    content (⟨Function.update w.index l (some i), w.mem.construct l t v⟩ : World τ V) =
      Function.update (content w) l (some (some (i, v))) :=
  content_of_sameOff (sameOff_construct w l _ t v)
    (by simp [content, A.index_ne_invalid ht])

lemma content_leave (w : World τ V) (l : Loc) :
    content (⟨Function.update w.index l none, w.mem.release l⟩ : World τ V) =
      Function.update (content w) l none :=
  content_of_sameOff (sameOff_release w l _) (by simp [content])

/-! ## Abandoned objects -/

/-- The object `id` is alive in the storage of a variant whose index does not say so. -/
def Stray (w : World τ V) (l : Loc) (id : ℕ) : Prop :=
  (∀ i, w.index l = some i → i = invalidVariantIndex) ∧ id ∈ w.mem.idsAt l

/-- The object `id` will never be destroyed: its storage was reused or went away while it was
alive, or it is a stray. -/
def Abandoned (w : World τ V) (id : ℕ) : Prop :=
  id ∈ w.mem.overwritten ∨ id ∈ w.mem.leaked ∨ ∃ l, Stray w l id

/-- Some object was abandoned. -/
def Dirty (w : World τ V) : Prop := ∃ id, Abandoned w id

lemma not_dirty_empty : ¬ Dirty (World.empty : World τ V) := by
  rintro ⟨id, h⟩
  simp [Abandoned, Stray, World.empty, Mem.empty, Mem.idsAt] at h

/-- Whether an object is abandoned can change only with the variant that changes. -/
lemma abandoned_congr {id : ℕ} (hs : SameOff l w w')
    (hl : (id ∈ w'.mem.overwritten ∨ id ∈ w'.mem.leaked ∨ Stray w' l id) ↔
      (id ∈ w.mem.overwritten ∨ id ∈ w.mem.leaked ∨ Stray w l id)) :
    Abandoned w' id ↔ Abandoned w id := by
  have hoff : ∀ k, k ≠ l → (Stray w' k id ↔ Stray w k id) := fun k hk => by
    simp only [Stray, Mem.idsAt, hs.index k hk, hs.cell k hk]
  have hsplit : ∀ u : World τ V, Abandoned u id ↔
      (id ∈ u.mem.overwritten ∨ id ∈ u.mem.leaked ∨ Stray u l id) ∨
        ∃ k, k ≠ l ∧ Stray u k id := by
    intro u
    constructor
    · rintro (h | h | ⟨k, h⟩)
      · exact Or.inl (Or.inl h)
      · exact Or.inl (Or.inr (Or.inl h))
      · by_cases hk : k = l
        · exact Or.inl (Or.inr (Or.inr (hk ▸ h)))
        · exact Or.inr ⟨k, hk, h⟩
    · rintro ((h | h | h) | ⟨k, -, h⟩)
      · exact Or.inl h
      · exact Or.inr (Or.inl h)
      · exact Or.inr (Or.inr ⟨l, h⟩)
      · exact Or.inr (Or.inr ⟨k, h⟩)
  rw [hsplit, hsplit, hl]
  refine or_congr_right (exists_congr fun k => and_congr_right fun hk => hoff k hk)

lemma Holds.not_stray (h : Holds A w l i x) (id : ℕ) : ¬ Stray w l id :=
  fun hs => h.index_ne (hs.1 i h.index)

lemma stray_of_invalid (h : w.index l = some invalidVariantIndex) {id : ℕ} :
    Stray w l id ↔ id ∈ w.mem.idsAt l := by
  simp [Stray, h]

variable [DecidableEq τ]

lemma Holds.sameOff_assign (h : Holds A w l i x) (j : Option ℕ) :
    SameOff l w ⟨Function.update w.index l j, w.mem.assign l x.ty v⟩ := by
  rw [Mem.assign_of_alive h.cell rfl]
  exact ⟨fun k hk => by simp [hk], fun k hk => by simp [hk]⟩

lemma Holds.sameOff_destroy (h : Holds A w l i x) (j : Option ℕ) :
    SameOff l w ⟨Function.update w.index l j, w.mem.destroy l x.ty⟩ := by
  rw [Mem.destroy_of_alive h.cell rfl]
  exact ⟨fun k hk => by simp [hk], fun k hk => by simp [hk]⟩

lemma Holds.content_store (h : Holds A w l i x) :
    content { w with mem := w.mem.assign l x.ty v } =
      Function.update (content w) l (some (some (i, v))) := by
  have hs := h.sameOff_assign (v := v) (some i)
  rw [h.update_index] at hs
  refine content_of_sameOff hs ?_
  simp [content, h.index, h.index_ne, Mem.assign_of_alive h.cell rfl]

lemma Holds.content_clear (h : Holds A w l i x) :
    content (⟨Function.update w.index l (some invalidVariantIndex), w.mem.destroy l x.ty⟩ :
      World τ V) = Function.update (content w) l (some none) :=
  content_of_sameOff (h.sameOff_destroy _) (content_of_invalid (by simp))

lemma Holds.content_vacate (h : Holds A w l i x) :
    content (⟨Function.update w.index l (some invalidVariantIndex), w.mem.assign l x.ty v⟩ :
      World τ V) = Function.update (content w) l (some none) :=
  content_of_sameOff (h.sameOff_assign _) (content_of_invalid (by simp))

/-! ## Moves -/

variable (A) in
/-- The moves on the storage.  The label says whether a live object is abandoned. -/
inductive Move : Bool → World τ V → World τ V → Prop
  /-- A valueless variant is declared. -/
  | declare {w : World τ V} {l : Loc} : w.index l = none →
      Move false w (w.setIndex l invalidVariantIndex)
  /-- A valueless variant receives an alternative. -/
  | place {w : World τ V} {l : Loc} {i : ℕ} {t : τ} {v : V} :
      w.index l = some invalidVariantIndex → A.types[i]? = some t →
      Move false w ⟨Function.update w.index l (some i), w.mem.construct l t v⟩
  /-- The alternative is assigned to. -/
  | store {w : World τ V} {l : Loc} {i : ℕ} {x : Obj τ V} {v : V} : Holds A w l i x →
      Move false w { w with mem := w.mem.assign l x.ty v }
  /-- The alternative is destroyed. -/
  | clear {w : World τ V} {l : Loc} {i : ℕ} {x : Obj τ V} : Holds A w l i x →
      Move false w ⟨Function.update w.index l (some invalidVariantIndex), w.mem.destroy l x.ty⟩
  /-- The alternative is moved from and the index invalidated. -/
  | vacate {w : World τ V} {l : Loc} {i : ℕ} {x : Obj τ V} {v : V} : Holds A w l i x →
      Move true w
        ⟨Function.update w.index l (some invalidVariantIndex), w.mem.assign l x.ty v⟩
  /-- A valueless variant goes out of scope. -/
  | leave {w : World τ V} {l : Loc} : w.index l = some invalidVariantIndex →
      Move false w ⟨Function.update w.index l none, w.mem.release l⟩

variable (A) in
/-- A sequence of moves; the label says whether one of them abandons an object. -/
inductive Moves : Bool → World τ V → World τ V → Prop
  | refl (w : World τ V) : Moves false w w
  | tail {b c : Bool} {w w' w'' : World τ V} : Moves b w w' → Move A c w' w'' →
      Moves (b || c) w w''

variable {b c : Bool}

lemma Move.single (h : Move A b w w') : Moves A b w w' := by
  simpa using (Moves.refl w).tail h

lemma Moves.trans (h : Moves A b w w') (h' : Moves A c w' w'') : Moves A (b || c) w w'' := by
  induction h' with
  | refl => simpa using h
  | tail _ hm ih => simpa [Bool.or_assoc] using (ih h).tail hm

/-! ## Every move keeps the invariant -/

lemma Move.wellformed (h : Move A b w w') (hw : Wellformed A w) : Wellformed A w' := by
  have hmis := hw.misused
  cases h with
  | declare =>
    exact hw.of_sameOff (sameOff_setIndex _ _ _) (by simp [Fits, World.setIndex]) hmis
  | place hl ht =>
    exact hw.of_sameOff (sameOff_construct _ _ _ _ _) (by simp [Fits, ht]) hmis
  | @store _ l i x v hl =>
    have hs := hl.sameOff_assign (v := v) (some i)
    rw [hl.update_index] at hs
    refine hw.of_sameOff hs ?_ ?_
    · simp [Mem.assign_of_alive hl.cell rfl, hl.index, Fits, hl.type]
    · simpa [Mem.assign_of_alive hl.cell rfl] using hmis
  | clear hl =>
    refine hw.of_sameOff (hl.sameOff_destroy _) (by simp [Fits]) ?_
    simpa [Mem.destroy_of_alive hl.cell rfl] using hmis
  | vacate hl =>
    refine hw.of_sameOff (hl.sameOff_assign _) (by simp [Fits]) ?_
    simpa [Mem.assign_of_alive hl.cell rfl] using hmis
  | leave hl => exact hw.of_sameOff (sameOff_release _ _ _) (by simp [Fits]) hmis

lemma Moves.wellformed (h : Moves A b w w') (hw : Wellformed A w) : Wellformed A w' := by
  induction h with
  | refl => exact hw
  | tail _ hm ih => exact hm.wellformed (ih hw)

lemma Move.accounted (h : Move A b w w') (hw : w.mem.Accounted) : w'.mem.Accounted := by
  cases h with
  | declare => exact hw
  | place => exact hw.construct _ _ _
  | store => exact hw.assign _ _ _
  | clear => exact hw.destroy _ _
  | vacate => exact hw.assign _ _ _
  | leave => exact hw.release _

lemma Moves.accounted (h : Moves A b w w') (hw : w.mem.Accounted) : w'.mem.Accounted := by
  induction h with
  | refl => exact hw
  | tail _ hm ih => exact hm.accounted (ih hw)

/-! ## Which moves abandon an object -/

lemma Move.abandoned_iff (h : Move A false w w') (id : ℕ) :
    Abandoned w' id ↔ Abandoned w id := by
  cases h with
  | declare hl =>
    refine abandoned_congr (sameOff_setIndex _ _ _) ?_
    simp [Stray, World.setIndex, Mem.idsAt, hl]
  | @place _ l i t v hl ht =>
    -- what was in the storage is overwritten now, and was a stray before
    refine abandoned_congr (sameOff_construct _ _ _ _ _) ?_
    have hnew : ¬ Stray ⟨Function.update w.index l (some i), w.mem.construct l t v⟩ l id :=
      fun hs => A.index_ne_invalid ht (hs.1 i (by simp))
    simp only [hnew, stray_of_invalid hl, or_false]
    simp only [Mem.construct, List.mem_append]
    rw [or_assoc, or_comm, or_assoc]
  | @store _ l i x v hl =>
    have hs := hl.sameOff_assign (v := v) (some i)
    rw [hl.update_index] at hs
    refine abandoned_congr hs ?_
    have hnew : ¬ Stray { w with mem := w.mem.assign l x.ty v } l id :=
      fun hs => hl.index_ne (hs.1 i hl.index)
    simp only [hnew, hl.not_stray id, Mem.overwritten_assign, Mem.leaked_assign]
  | clear hl =>
    refine abandoned_congr (hl.sameOff_destroy _) ?_
    simp only [hl.not_stray id]
    simp [Stray, Mem.idsAt, Mem.destroy_of_alive hl.cell rfl]
  | @leave _ l hl =>
    refine abandoned_congr (sameOff_release _ _ _) ?_
    have hnew : ¬ Stray ⟨Function.update w.index l none, w.mem.release l⟩ l id :=
      fun hs => by simp [Stray, Mem.idsAt] at hs
    simp only [hnew, stray_of_invalid hl, or_false]
    simp only [Mem.release, List.mem_append]
    exact or_congr_right or_comm

/-- Moving out of a variant abandons its object, on top of those abandoned before. -/
lemma Move.abandons (h : Move A true w w') :
    (∀ id, Abandoned w id → Abandoned w' id) ∧ Dirty w' := by
  cases h with
  | @vacate _ l i x v hl =>
    have hstray : Stray ⟨Function.update w.index l (some invalidVariantIndex),
        w.mem.assign l x.ty v⟩ l x.id := by
      simp [Stray, Mem.idsAt, Mem.assign_of_alive hl.cell rfl]
    refine ⟨fun id hid => ?_, x.id, Or.inr (Or.inr ⟨l, hstray⟩)⟩
    have hs := hl.sameOff_assign (v := v) (some invalidVariantIndex)
    rcases hid with h | h | ⟨k, h⟩
    · exact Or.inl (by simpa using h)
    · exact Or.inr (Or.inl (by simpa using h))
    · have hk : k ≠ l := fun hk => hl.not_stray id (hk ▸ h)
      refine Or.inr (Or.inr ⟨k, ?_⟩)
      rw [Stray, Mem.idsAt, hs.index k hk, hs.cell k hk]
      exact h

/-- A sequence of moves ends with abandoned objects exactly if it began with some or one of
its moves abandoned one. -/
theorem Moves.dirty_iff (h : Moves A b w w') : Dirty w' ↔ b = true ∨ Dirty w := by
  induction h with
  | refl => simp
  | @tail b c _ _ _ _ hm ih =>
    cases c with
    | false => simp only [Dirty, hm.abandoned_iff, Bool.or_false]; exact ih
    | true => simp [hm.abandons.2]

end AraCore.Variant
