/-
# What the member functions of `Variant` do to the contents

Each member function, started in a wellformed world, is a sequence of the moves of
`Variant.Storage`, and its effect on the contents depends on the contents alone.  The lemmas
below are the only place where the bodies of the member functions are opened.
-/
import AraCore.Variant.Storage

namespace AraCore.Variant

open Lib

variable {τ V : Type*} {A : Alternatives τ V} {w w' : World τ V} {l r : Loc} {i : ℕ}
  {x : Obj τ V} {t : τ} {v : V}

/-! ## Indices -/

@[simp] lemma typeIndex_setIndex_self (w : World τ V) (l : Loc) (i : ℕ) :
    (w.setIndex l i).typeIndex l = i := by simp [World.setIndex, World.typeIndex]

lemma typeIndex_setIndex_of_ne (w : World τ V) (i : ℕ) (h : r ≠ l) :
    (w.setIndex l i).typeIndex r = w.typeIndex r := by
  simp [World.setIndex, World.typeIndex, h]

@[simp] lemma setIndex_setIndex (w : World τ V) (l : Loc) (i j : ℕ) :
    (w.setIndex l i).setIndex l j = w.setIndex l j := by simp [World.setIndex]

lemma setIndex_of_index (h : w.index l = some i) : w.setIndex l i = w := by
  have hupd : Function.update w.index l (some i) = w.index :=
    Function.update_eq_self_iff.mpr h.symm
  simp [World.setIndex, hupd]

lemma typeIndex_of_index (h : w.index l = some i) : w.typeIndex l = i := by
  simp [World.typeIndex, h]

lemma Wellformed.typeIndex_of_valueless (hw : Wellformed A w) (h : content w l = some none) :
    w.typeIndex l = invalidVariantIndex :=
  typeIndex_of_index (hw.index_of_valueless h)

lemma Wellformed.valuelessByException_iff (hw : Wellformed A w) {p : Option (ℕ × V)}
    (hl : content w l = some p) :
    w.valuelessByException l = true ↔ p = none := by
  cases p with
  | none => simp [World.valuelessByException, hw.typeIndex_of_valueless hl]
  | some iv =>
    obtain ⟨x, hx, -⟩ := hw.holds hl
    simpa [World.valuelessByException, typeIndex_of_index hx.index] using hx.index_ne

lemma Holds.of_sameOff (h : Holds A w r i x) (hs : SameOff l w w') (hne : r ≠ l) :
    Holds A w' r i x :=
  ⟨(hs.index r hne).trans h.index, (hs.cell r hne).trans h.cell, h.type⟩

lemma callAtIndex_of_type (ht : A.types[i]? = some t) (op : τ → Mem Loc τ V) :
    callAtIndex A w i op = .ok { w with mem := op t } := by
  simp [callAtIndex, ht]

/-- Two variants with the same index are both valueless or hold the same alternative. -/
lemma same_index (hw : Wellformed A w) {p q : Option (ℕ × V)}
    (hl : content w l = some q) (hr : content w r = some p)
    (hidx : w.typeIndex l = w.typeIndex r) :
    (q = none ∧ p = none) ∨ ∃ i x y, Holds A w l i x ∧ Holds A w r i y ∧
      p = some (i, y.val) ∧ x.ty = y.ty := by
  cases q with
  | none =>
    cases p with
    | none => exact Or.inl ⟨rfl, rfl⟩
    | some iy =>
      obtain ⟨y, hy, -⟩ := hw.holds hr
      rw [hw.typeIndex_of_valueless hl, typeIndex_of_index hy.index] at hidx
      exact absurd hidx.symm hy.index_ne
  | some ix =>
    obtain ⟨x, hx, -⟩ := hw.holds hl
    cases p with
    | none =>
      rw [hw.typeIndex_of_valueless hr, typeIndex_of_index hx.index] at hidx
      exact absurd hidx hx.index_ne
    | some jy =>
      obtain ⟨y, hy, hval⟩ := hw.holds hr
      rw [typeIndex_of_index hx.index, typeIndex_of_index hy.index] at hidx
      have hty : x.ty = y.ty := by
        have htype := hx.type
        rw [hidx, hy.type, Option.some.injEq] at htype
        exact htype.symm
      exact Or.inr ⟨ix.1, x, y, hx, by rw [hidx]; exact hy, by rw [hidx, hval], hty⟩

lemma update_content_self {c : Option (Option (ℕ × V))} (h : content w l = c) :
    Function.update (content w) l c = content w :=
  Function.update_eq_self_iff.mpr h.symm

/-! ## Rules for `Yields` -/

variable [DecidableEq τ]

variable (A) in
/-- The member function `r`, called in the world `w`, ends after moves with the label `b`, and
the contents are `c` then. -/
def Yields (w : World τ V) (r : Except Fault (World τ V)) (b : Bool) (c : Contents V) : Prop :=
  ∃ w', r = .ok w' ∧ Moves A b w w' ∧ content w' = c

variable {b b' : Bool} {c c' : Contents V} {p q : Option (ℕ × V)} {res : Except Fault (World τ V)}
  {f : World τ V → Except Fault (World τ V)}

lemma Yields.ok (w : World τ V) : Yields A w (.ok w) false (content w) :=
  ⟨w, rfl, Moves.refl w, rfl⟩

lemma Yields.step (h : Move A b w w') (h' : Yields A w' res b' c) :
    Yields A w res (b || b') c := by
  obtain ⟨w'', hres, hm, hc⟩ := h'
  exact ⟨w'', hres, h.single.trans hm, hc⟩

lemma Yields.bind (hw : Wellformed A w) (h : Yields A w res b c)
    (hf : ∀ w', Wellformed A w' → content w' = c → Yields A w' (f w') b' c') :
    Yields A w (res >>= f) (b || b') c' := by
  obtain ⟨w', hres, hm, hc⟩ := h
  obtain ⟨w'', hres', hm', hc'⟩ := hf w' (hm.wellformed hw) hc
  exact ⟨w'', by rw [hres]; exact hres', hm.trans hm', hc'⟩

lemma Yields.congr (h : Yields A w res b c) (hb : b = b') (hc : c = c') :
    Yields A w res b' c' := hb ▸ hc ▸ h

/-! ## Dispatch on an alternative -/

lemma destructor_of_type (ht : A.types[i]? = some t) :
    destructor A w i l = .ok { w with mem := w.mem.destroy l t } :=
  callAtIndex_of_type ht _

lemma copyConstructor_of_cell (hx : w.mem.cell r = some x) (ht : A.types[i]? = some x.ty) :
    copyConstructor A w i r l = .ok { w with mem := w.mem.construct l x.ty x.val } := by
  rw [copyConstructor, callAtIndex_of_type ht, Mem.read_of_alive hx rfl]

lemma moveConstructor_of_cell (hx : w.mem.cell r = some x) (ht : A.types[i]? = some x.ty) :
    moveConstructor A w i r l = .ok { w with
      mem := (w.mem.construct l x.ty x.val).assign r x.ty (A.movedFrom x.ty x.val) } := by
  rw [moveConstructor, callAtIndex_of_type ht, Mem.read_of_alive hx rfl]

lemma copy_of_cell (hx : w.mem.cell r = some x) (ht : A.types[i]? = some x.ty) :
    copy A w i r l = .ok { w with mem := w.mem.assign l x.ty x.val } := by
  rw [copy, callAtIndex_of_type ht, Mem.read_of_alive hx rfl]

lemma move_of_cell (hx : w.mem.cell r = some x) (ht : A.types[i]? = some x.ty) :
    move A w i r l = .ok { w with
      mem := (w.mem.assign l x.ty x.val).assign r x.ty (A.movedFrom x.ty x.val) } := by
  rw [move, callAtIndex_of_type ht, Mem.read_of_alive hx rfl]

/-! ## Clearing a variant -/

/-- Destroying the alternative makes the variant valueless, up to its index, which the caller
of `call_element_destructor` changes next. -/
lemma callElementDestructor_spec (hw : Wellformed A w) (hl : content w l = some p) :
    ∃ w₁, callElementDestructor A w l = .ok w₁ ∧
      Moves A false w (w₁.setIndex l invalidVariantIndex) ∧
      content (w₁.setIndex l invalidVariantIndex) =
        Function.update (content w) l (some none) := by
  cases p with
  | none =>
    have hidx := hw.index_of_valueless hl
    refine ⟨w, by simp [callElementDestructor, typeIndex_of_index hidx], ?_, ?_⟩
    · rw [setIndex_of_index hidx]
      exact Moves.refl w
    · rw [setIndex_of_index hidx, update_content_self hl]
  | some iv =>
    obtain ⟨i, v⟩ := iv
    obtain ⟨x, hx, -⟩ := hw.holds hl
    refine ⟨{ w with mem := w.mem.destroy l x.ty }, ?_, (Move.clear hx).single,
      hx.content_clear⟩
    rw [callElementDestructor, typeIndex_of_index hx.index, if_pos hx.index_ne,
      destructor_of_type hx.type]

/-- A member function that first clears `l`, and then does not look at the index of `l`. -/
lemma Yields.clear (hw : Wellformed A w) (hl : content w l = some p)
    (hf : ∀ w₁ : World τ V, f (w₁.setIndex l invalidVariantIndex) = f w₁)
    (h : ∀ w', Wellformed A w' → w'.index l = some invalidVariantIndex →
      content w' = Function.update (content w) l (some none) → Yields A w' (f w') b c) :
    Yields A w (callElementDestructor A w l >>= f) b c := by
  obtain ⟨w₁, hcall, hm, hc⟩ := callElementDestructor_spec hw hl
  have hidx : (w₁.setIndex l invalidVariantIndex).index l = some invalidVariantIndex := by
    simp [World.setIndex]
  obtain ⟨w₂, hf₂, hm₂, hc₂⟩ := h _ (hm.wellformed hw) hidx hc
  refine ⟨w₂, ?_, by simpa using hm.trans hm₂, hc₂⟩
  rw [hcall, ← hf₂, hf]
  rfl

/-- The guarded call of the destructor, as some member functions write it. -/
lemma callElementDestructor_guarded (w : World τ V) (l : Loc) :
    (if w.typeIndex l ≠ invalidVariantIndex then callElementDestructor A w l else .ok w) =
      callElementDestructor A w l := by
  by_cases h : w.typeIndex l = invalidVariantIndex <;> simp [callElementDestructor, h]

lemma destroy_yields (hw : Wellformed A w) (hl : content w l = some p) :
    Yields A w (destroy A w l) false (Function.update (content w) l none) := by
  refine Yields.clear hw hl (fun w₁ => by simp [World.setIndex]) fun w' _ hidx hc => ?_
  refine ⟨_, rfl, (Move.leave hidx).single, ?_⟩
  rw [content_leave, hc, Function.update_idem]

/-! ## Copying -/

lemma copyConstruct_setIndex (w : World τ V) (i : ℕ) (hne : r ≠ l) :
    copyConstruct A (w.setIndex l i) l r = copyConstruct A w l r := by
  simp only [copyConstruct, setIndex_setIndex, typeIndex_setIndex_of_ne w i hne]

lemma copyConstruct_valueless (hw : Wellformed A w) (hl : w.index l = some invalidVariantIndex)
    (hr : content w r = some p) :
    Yields A w (copyConstruct A w l r) false (Function.update (content w) l (some p)) := by
  cases p with
  | none =>
    have hridx := hw.typeIndex_of_valueless hr
    refine ⟨w, ?_, Moves.refl w, ?_⟩
    · simp [copyConstruct, hridx, setIndex_of_index hl, typeIndex_of_index hl]
    · exact (update_content_self (content_of_invalid hl)).symm
  | some iv =>
    obtain ⟨i, v⟩ := iv
    obtain ⟨x, hx, rfl⟩ := hw.holds hr
    have hcell : (w.setIndex l i).mem.cell r = some x := hx.cell
    refine ⟨_, ?_, (Move.place hl hx.type).single, content_place hx.type⟩
    simp only [copyConstruct, typeIndex_of_index hx.index, typeIndex_setIndex_self]
    rw [if_pos hx.index_ne, copyConstructor_of_cell hcell hx.type]
    rfl

/-- Declaring `l` before a constructor that does not look at its index changes nothing. -/
lemma Yields.declare (hw : Wellformed A w) (hl : content w l = none)
    (hf : f (w.setIndex l invalidVariantIndex) = f w)
    (h : ∀ w', Wellformed A w' → w'.index l = some invalidVariantIndex →
      content w' = Function.update (content w) l (some none) → Yields A w' (f w') b c) :
    Yields A w (f w) b c := by
  have hdecl : Move A false w (w.setIndex l invalidVariantIndex) :=
    Move.declare (content_eq_none.mp hl)
  have hidx : (w.setIndex l invalidVariantIndex).index l = some invalidVariantIndex := by
    simp [World.setIndex]
  have := Yields.step hdecl (h _ (hdecl.wellformed hw) hidx (content_declare w l))
  rwa [hf, Bool.false_or] at this

lemma copyConstruct_yields (hw : Wellformed A w) (hl : content w l = none)
    (hr : content w r = some p) :
    Yields A w (copyConstruct A w l r) false (Function.update (content w) l (some p)) := by
  have hne : r ≠ l := by
    rintro rfl
    rw [hl] at hr
    cases hr
  refine Yields.declare (f := fun w => copyConstruct A w l r) hw hl
    (copyConstruct_setIndex w _ hne) fun w' hw' hidx hc => ?_
  have hr' : content w' r = some p := by rw [hc, Function.update_of_ne hne, hr]
  refine (copyConstruct_valueless hw' hidx hr').congr rfl ?_
  rw [hc, Function.update_idem]

lemma copyAssign_yields (hw : Wellformed A w) (hl : content w l = some q)
    (hr : content w r = some p) :
    Yields A w (copyAssign A w l r) false (Function.update (content w) l (some p)) := by
  by_cases hlr : l = r
  · subst hlr
    rw [copyAssign, if_neg (not_not.mpr rfl)]
    exact (Yields.ok w).congr rfl (update_content_self hr).symm
  have hne : r ≠ l := fun h => hlr h.symm
  rw [copyAssign, if_pos hlr]
  by_cases hidx : w.typeIndex l = w.typeIndex r
  · rw [if_neg (not_not.mpr hidx)]
    rcases same_index hw hl hr hidx with ⟨rfl, rfl⟩ | ⟨i, x, y, hx, hy, rfl, hty⟩
    · rw [if_neg (not_not.mpr (hw.typeIndex_of_valueless hl))]
      exact (Yields.ok w).congr rfl (update_content_self hl).symm
    · rw [if_pos (by rw [typeIndex_of_index hx.index]; exact hx.index_ne),
        typeIndex_of_index hx.index, copy_of_cell hy.cell hy.type, ← hty]
      exact ⟨_, rfl, (Move.store hx).single, hx.content_store⟩
  · rw [if_pos hidx]
    refine Yields.clear (f := fun w => copyConstruct A w l r) hw hl
      (fun w₁ => copyConstruct_setIndex w₁ _ hne) fun w' hw' hidx hc => ?_
    have hr' : content w' r = some p := by rw [hc, Function.update_of_ne hne, hr]
    refine (copyConstruct_valueless hw' hidx hr').congr rfl ?_
    rw [hc, Function.update_idem]

/-! ## Moving -/

lemma moveConstruct_setIndex (w : World τ V) (i : ℕ) (hne : r ≠ l) :
    moveConstruct A (w.setIndex l i) l r = moveConstruct A w l r := by
  simp only [moveConstruct, setIndex_setIndex, typeIndex_setIndex_of_ne w i hne]

lemma moveConstruct_valueless (hw : Wellformed A w) (hl : w.index l = some invalidVariantIndex)
    (hr : content w r = some p) (hne : r ≠ l) :
    Yields A w (moveConstruct A w l r) p.isSome
      (Function.update (Function.update (content w) l (some p)) r (some none)) := by
  cases p with
  | none =>
    have hridx := hw.typeIndex_of_valueless hr
    refine ⟨w, ?_, Moves.refl w, ?_⟩
    · have hl' : w.setIndex l (w.typeIndex r) = w := by rw [hridx, setIndex_of_index hl]
      simp only [moveConstruct, hl', typeIndex_of_index hl]
      rw [if_neg (not_not.mpr rfl)]
      exact congrArg Except.ok (setIndex_of_index (hw.index_of_valueless hr))
    · rw [update_content_self (content_of_invalid hl), update_content_self hr]
  | some iv =>
    obtain ⟨i, v⟩ := iv
    obtain ⟨x, hx, rfl⟩ := hw.holds hr
    have hcell : (w.setIndex l i).mem.cell r = some x := hx.cell
    have hx' := hx.of_sameOff (sameOff_construct w l (some i) x.ty x.val) hne
    have hvacate := Move.vacate (v := A.movedFrom x.ty x.val) hx'
    refine ⟨_, ?_, (Move.place hl hx.type).single.trans hvacate.single, ?_⟩
    · simp only [moveConstruct, typeIndex_of_index hx.index, typeIndex_setIndex_self]
      rw [if_pos hx.index_ne, moveConstructor_of_cell hcell hx.type]
      rfl
    · rw [hx'.content_vacate, content_place hx.type]

lemma moveConstruct_yields (hw : Wellformed A w) (hl : content w l = none)
    (hr : content w r = some p) :
    Yields A w (moveConstruct A w l r) p.isSome
      (Function.update (Function.update (content w) l (some p)) r (some none)) := by
  have hne : r ≠ l := by
    rintro rfl
    rw [hl] at hr
    cases hr
  refine Yields.declare (f := fun w => moveConstruct A w l r) hw hl
    (moveConstruct_setIndex w _ hne) fun w' hw' hidx hc => ?_
  have hr' : content w' r = some p := by rw [hc, Function.update_of_ne hne, hr]
  refine (moveConstruct_valueless hw' hidx hr' hne).congr rfl ?_
  rw [hc, Function.update_idem]

/-- Invalidating the index of a valueless variant changes nothing. -/
lemma Yields.invalidate (hw : Wellformed A w) (h : Yields A w res b c) (hr : c r = some none) :
    Yields A w (res >>= fun w => .ok (w.setIndex r invalidVariantIndex)) b c := by
  refine (Yields.bind hw h fun w' hw' hc => ?_).congr (b := b || false) (c := c) (by simp) rfl
  rw [← hc] at hr
  rw [setIndex_of_index (hw'.index_of_valueless hr)]
  exact (Yields.ok w').congr rfl hc

lemma moveAssign_self (w : World τ V) (l : Loc) : moveAssign A w l l = .ok w := by
  rw [moveAssign, if_neg (not_not.mpr rfl)]

/-- With different indices, move assignment clears the target and goes on like the move
constructor. -/
lemma moveAssign_of_index_ne (hlr : l ≠ r) (hidx : w.typeIndex l ≠ w.typeIndex r) :
    moveAssign A w l r = (callElementDestructor A w l >>= fun w => moveConstruct A w l r) >>=
      fun w => .ok (w.setIndex r invalidVariantIndex) := by
  rw [moveAssign, if_pos hlr, if_pos hidx, bind_assoc]
  refine bind_congr fun w₁ => ?_
  simp only [moveConstruct]
  split
  · rw [bind_assoc]
  · rfl

lemma moveAssign_yields (hw : Wellformed A w) (hl : content w l = some q)
    (hr : content w r = some p) (hne : r ≠ l) :
    Yields A w (moveAssign A w l r) p.isSome
      (Function.update (Function.update (content w) l (some p)) r (some none)) := by
  by_cases hidx : w.typeIndex l = w.typeIndex r
  · rw [moveAssign, if_pos hne.symm, if_neg (not_not.mpr hidx)]
    rcases same_index hw hl hr hidx with ⟨rfl, rfl⟩ | ⟨i, x, y, hx, hy, rfl, hty⟩
    · rw [if_neg (not_not.mpr (hw.typeIndex_of_valueless hl))]
      refine (Yields.invalidate hw (Yields.ok w) hr).congr rfl ?_
      rw [update_content_self hl, update_content_self hr]
    · have hs := hx.sameOff_assign (v := y.val) (some i)
      have hstore := Move.store (v := y.val) hx
      have hcontent := hx.content_store (v := y.val)
      rw [hx.update_index] at hs
      rw [hty] at hs hstore hcontent
      have hy' := hy.of_sameOff hs hne
      have hvacate := Move.vacate (v := A.movedFrom y.ty y.val) hy'
      rw [if_pos (by rw [typeIndex_of_index hx.index]; exact hx.index_ne),
        typeIndex_of_index hx.index, move_of_cell hy.cell hy.type]
      refine ⟨_, rfl, hstore.single.trans hvacate.single, ?_⟩
      exact hy'.content_vacate.trans (by rw [hcontent])
  · rw [moveAssign_of_index_ne hne.symm hidx]
    refine Yields.invalidate hw (Yields.clear (f := fun w => moveConstruct A w l r) hw hl
      (fun w₁ => moveConstruct_setIndex w₁ _ hne) fun w' hw' hidx hc => ?_)
      (Function.update_self _ _ _)
    have hr' : content w' r = some p := by rw [hc, Function.update_of_ne hne, hr]
    refine (moveConstruct_valueless hw' hidx hr' hne).congr rfl ?_
    rw [hc, Function.update_idem]

/-! ## Swapping -/

lemma stdSwap_self_yields (hw : Wellformed A w) (htemp : content w .temp = none)
    (hl : content w l = some p) :
    Yields A w (stdSwap A w l l) p.isSome (content w) := by
  have hlt : l ≠ .temp := by
    rintro rfl
    rw [htemp] at hl
    cases hl
  refine (Yields.bind hw (moveConstruct_yields hw htemp hl) fun w₁ hw₁ hc₁ => ?_).congr
    (b := p.isSome || (p.isSome || false)) (by simp) rfl
  rw [moveAssign_self]
  have hl₁ : content w₁ l = some none := by rw [hc₁, Function.update_self]
  have ht₁ : content w₁ .temp = some p := by
    rw [hc₁, Function.update_of_ne hlt.symm, Function.update_self]
  change Yields A w₁ (moveAssign A w₁ l .temp >>= fun w => destroy A w .temp) _ _
  refine Yields.bind hw₁ (moveAssign_yields hw₁ hl₁ ht₁ hlt.symm) fun w₂ hw₂ hc₂ => ?_
  have ht₂ : content w₂ .temp = some none := by rw [hc₂, Function.update_self]
  refine (destroy_yields hw₂ ht₂).congr rfl ?_
  rw [hc₂, hc₁, Function.update_idem, Function.update_idem]
  funext k
  by_cases hk : k = .temp
  · rw [hk, Function.update_self, htemp]
  · rw [Function.update_of_ne hk]
    by_cases hkl : k = l
    · rw [hkl, Function.update_self, hl]
    · rw [Function.update_of_ne hkl, Function.update_of_ne hk]

lemma stdSwap_yields (hw : Wellformed A w) (htemp : content w .temp = none)
    (hl : content w l = some p) (hr : content w r = some q) (hne : r ≠ l) :
    Yields A w (stdSwap A w l r) (p.isSome || q.isSome)
      (Function.update (Function.update (content w) l (some q)) r (some p)) := by
  have hlt : l ≠ .temp := by
    rintro rfl
    rw [htemp] at hl
    cases hl
  have hrt : r ≠ .temp := by
    rintro rfl
    rw [htemp] at hr
    cases hr
  refine (Yields.bind hw (moveConstruct_yields hw htemp hl) fun w₁ hw₁ hc₁ => ?_).congr
    (b := p.isSome || (q.isSome || (p.isSome || false))) ?_ rfl
  · have hl₁ : content w₁ l = some none := by rw [hc₁, Function.update_self]
    have hr₁ : content w₁ r = some q := by
      rw [hc₁, Function.update_of_ne hne, Function.update_of_ne hrt, hr]
    have ht₁ : content w₁ .temp = some p := by
      rw [hc₁, Function.update_of_ne hlt.symm, Function.update_self]
    refine Yields.bind hw₁ (moveAssign_yields hw₁ hl₁ hr₁ hne) fun w₂ hw₂ hc₂ => ?_
    have hr₂ : content w₂ r = some none := by rw [hc₂, Function.update_self]
    have ht₂ : content w₂ .temp = some p := by
      rw [hc₂, Function.update_of_ne hrt.symm, Function.update_of_ne hlt.symm, ht₁]
    refine Yields.bind hw₂ (moveAssign_yields hw₂ hr₂ ht₂ hrt.symm) fun w₃ hw₃ hc₃ => ?_
    have ht₃ : content w₃ .temp = some none := by rw [hc₃, Function.update_self]
    refine (destroy_yields hw₃ ht₃).congr rfl ?_
    rw [hc₃, hc₂, hc₁, Function.update_idem, Function.update_idem, Function.update_idem]
    funext k
    by_cases hk : k = .temp
    · rw [hk, Function.update_self, Function.update_of_ne hrt.symm,
        Function.update_of_ne hlt.symm, htemp]
    · rw [Function.update_of_ne hk]
      by_cases hkr : k = r
      · rw [hkr, Function.update_self, Function.update_self]
      · rw [Function.update_of_ne hkr, Function.update_of_ne hkr]
        by_cases hkl : k = l
        · rw [hkl, Function.update_self, Function.update_self]
        · rw [Function.update_of_ne hkl, Function.update_of_ne hkl, Function.update_of_ne hk]
  · cases p.isSome <;> cases q.isSome <;> rfl

lemma swap_yields (hw : Wellformed A w) (htemp : content w .temp = none)
    (hl : content w l = some p) (hr : content w r = some q) :
    Yields A w (swap A w l r) (p.isSome || q.isSome)
      (Function.update (Function.update (content w) l (some q)) r (some p)) := by
  by_cases hboth : (w.valuelessByException l && w.valuelessByException r) = true
  · rw [swap, if_pos hboth]
    rw [Bool.and_eq_true, hw.valuelessByException_iff hl, hw.valuelessByException_iff hr] at hboth
    obtain ⟨rfl, rfl⟩ := hboth
    exact (Yields.ok w).congr rfl (by rw [update_content_self hl, update_content_self hr])
  · rw [swap, if_neg hboth]
    by_cases hlr : r = l
    · subst hlr
      obtain rfl : p = q := Option.some.inj (hl.symm.trans hr)
      refine (stdSwap_self_yields hw htemp hl).congr (by simp) ?_
      rw [update_content_self hl, update_content_self hl]
    · exact stdSwap_yields hw htemp hl hr hlr

end AraCore.Variant
