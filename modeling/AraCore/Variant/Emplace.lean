/-
# Constructing alternatives from arguments

Converting construction, converting assignment and `emplace` construct an alternative from an
argument, which may be a reference into another variant.  The effect of these members on the
contents completes the account that `Variant.Members` gives of the special members.
-/
import AraCore.Variant.Members

namespace AraCore.Variant

open Lib

variable {τ V : Type*} {A : Alternatives τ V} {w w' : World τ V} {l r : Loc} {i : ℕ}
  {t u : τ} {x v : V} {a : Arg τ V}

/-! ## Arguments -/

variable (A) in
/-- The type and value of an argument, by the contents of the variants. -/
def argumentIn (c : Contents V) : Arg τ V → Option (τ × V)
  | .value t x => some (t, x)
  | .ref v _ =>
    match c (.named v) with
    | some (some (i, x)) => (A.types[i]?).map fun t => (t, x)
    | _ => none

variable (A) in
/-- The contents after the argument `a`, which was a `u` of value `x`, is used up. -/
def consumed (c : Contents V) (a : Arg τ V) (u : τ) (x : V) : Contents V :=
  match a with
  | .ref v .rvalue =>
    Function.update c (.named v) ((c (.named v)).map (Option.map fun p => (p.1, A.movedFrom u x)))
  | _ => c

lemma content_argument (hw : Wellformed A w) (a : Arg τ V) :
    argument w a = match argumentIn A (content w) a with
      | some ux => .ok ux
      | none => .error .nullDeref := by
  cases a with
  | value t x => rfl
  | ref v c =>
    cases hv : content w (.named v) with
    | none => simp [argument, argumentIn, hv, World.typeIndex, content_eq_none.mp hv]
    | some p =>
      cases p with
      | none => simp [argument, argumentIn, hv, hw.typeIndex_of_valueless hv]
      | some iv =>
        obtain ⟨i, v'⟩ := iv
        obtain ⟨x, hx, rfl⟩ := hw.holds hv
        simp [argument, argumentIn, hv, typeIndex_of_index hx.index, hx.index_ne, hx.cell, hx.type]

/-- A reference with a value refers to the object that a variant holds. -/
lemma Wellformed.holds_argument {n : ℕ} {k : Category} (hw : Wellformed A w)
    (ha : argumentIn A (content w) (.ref n k) = some (u, x)) :
    ∃ j y, Holds A w (.named n) j y ∧ y.ty = u ∧ y.val = x := by
  cases hn : content w (.named n) with
  | none => simp [argumentIn, hn] at ha
  | some p =>
    cases p with
    | none => simp [argumentIn, hn] at ha
    | some jy =>
      obtain ⟨y, hy, hval⟩ := hw.holds hn
      simp only [argumentIn, hn, hy.type, Option.map_some, Option.some.injEq,
        Prod.mk.injEq] at ha
      exact ⟨jy.1, y, hy, ha.1, hval.trans ha.2⟩

lemma argument_setIndex (w : World τ V) (i : ℕ) (hne : ∀ v ∈ a.refers, Loc.named v ≠ l) :
    argument (w.setIndex l i) a = argument w a := by
  cases a with
  | value t x => rfl
  | ref v c =>
    have hv : Loc.named v ≠ l := hne v (by simp [Arg.refers])
    simp only [argument, typeIndex_setIndex_of_ne w i hv]
    rfl

/-- Of an argument that does not refer into `l`, neither its value nor its use depends on
`l`. -/
lemma argumentIn_update (c : Contents V) (p : Option (Option (ℕ × V)))
    (hne : ∀ v ∈ a.refers, Loc.named v ≠ l) :
    argumentIn A (Function.update c l p) a = argumentIn A c a := by
  cases a with
  | value t x => rfl
  | ref v k =>
    have hv : Loc.named v ≠ l := hne v (by simp [Arg.refers])
    rw [argumentIn, Function.update_of_ne hv]
    rfl

lemma consumed_update (c : Contents V) (p : Option (Option (ℕ × V)))
    (hne : ∀ v ∈ a.refers, Loc.named v ≠ l) :
    consumed A (Function.update c l p) a u x = Function.update (consumed A c a u x) l p := by
  cases a with
  | value t x => rfl
  | ref v k =>
    have hv : Loc.named v ≠ l := hne v (by simp [Arg.refers])
    cases k with
    | lvalue => rfl
    | rvalue =>
      rw [consumed, Function.update_of_ne hv, Function.update_comm hv.symm]
      rfl

/-- Using up an argument declares no variant and removes none. -/
lemma isSome_consumed (c : Contents V) (a : Arg τ V) (u : τ) (x : V) (k : Loc) :
    (consumed A c a u x k).isSome = (c k).isSome := by
  cases a with
  | value t x => rfl
  | ref v b =>
    cases b with
    | lvalue => rfl
    | rvalue =>
      by_cases hk : k = .named v
      · rw [hk, consumed, Function.update_self, Option.isSome_map]
      · rw [consumed, Function.update_of_ne hk]

lemma consumed_temp (c : Contents V) (a : Arg τ V) (u : τ) (x : V) :
    consumed A c a u x .temp = c .temp := by
  cases a with
  | value t x => rfl
  | ref v b => cases b <;> rfl

lemma callAtIndex_invalid (w : World τ V) (op : τ → Mem Loc τ V) :
    callAtIndex A w invalidVariantIndex op = .error .assertFailed := by
  have hnone : A.types[invalidVariantIndex]? = none := by
    rw [List.getElem?_eq_none_iff]
    have := A.size_lt
    simp only [invalidVariantIndex]
    omega
  simp [callAtIndex, hnone]

variable [DecidableEq τ]

/-- Setting the index before or after the construction makes no difference. -/
lemma constructFrom_setIndex (w : World τ V) (i : ℕ) (hne : ∀ v ∈ a.refers, Loc.named v ≠ l) :
    constructFrom A (w.setIndex l i) l t a =
      constructFrom A w l t a >>= fun w => .ok (w.setIndex l i) := by
  rw [constructFrom, constructFrom, argument_setIndex w i hne]
  cases argument w a with
  | error e => rfl
  | ok ux =>
    cases a with
    | value t x => rfl
    | ref v c => cases c <;> rfl

variable (A) in
/-- Construct a `t` in `l` and set the index to `i`. -/
def fill (l : Loc) (i : ℕ) (t : τ) (a : Arg τ V) (w : World τ V) : Except Fault (World τ V) :=
  constructFrom A w l t a >>= fun w => .ok (w.setIndex l i)

lemma fill_setIndex (w : World τ V) (i j : ℕ) (hne : ∀ v ∈ a.refers, Loc.named v ≠ l) :
    fill A l i t a (w.setIndex l j) = fill A l i t a w := by
  rw [fill, fill, constructFrom_setIndex w j hne, bind_assoc]
  refine bind_congr fun w₁ => ?_
  exact congrArg Except.ok (setIndex_setIndex w₁ l j i)

lemma fill_yields (hw : Wellformed A w) (hl : w.index l = some invalidVariantIndex)
    (ht : A.types[i]? = some t) (ha : argumentIn A (content w) a = some (u, x))
    (hne : ∀ v ∈ a.refers, Loc.named v ≠ l) :
    Yields A w (fill A l i t a w) false
      (Function.update (consumed A (content w) a u x) l (some (some (i, A.convert t u x)))) := by
  have hplace : Move A false w _ := Move.place (v := A.convert t u x) hl ht
  have hcontent := content_place (w := w) (l := l) (v := A.convert t u x) ht
  rw [fill, constructFrom, content_argument hw, ha]
  cases a with
  | value u' x' => exact ⟨_, rfl, hplace.single, hcontent⟩
  | ref v k =>
    cases k with
    | lvalue => exact ⟨_, rfl, hplace.single, hcontent⟩
    | rvalue =>
      -- the object that is referred to is assigned to in its own storage
      have hv : Loc.named v ≠ l := hne v (by simp [Arg.refers])
      obtain ⟨j, y, hy, rfl, rfl⟩ := hw.holds_argument ha
      have hy' := hy.of_sameOff (sameOff_construct w l (some i) t (A.convert t y.ty y.val)) hv
      have hstore := Move.store (v := A.movedFrom y.ty y.val) hy'
      refine ⟨_, rfl, hplace.single.trans hstore.single, ?_⟩
      refine hy'.content_store.trans ?_
      rw [hcontent, Function.update_comm hv.symm, consumed, hy.content_eq]
      rfl

/-- A reference to a valueless variant is no argument. -/
lemma fill_fails (hw : Wellformed A w) (ha : argumentIn A (content w) a = none) :
    fill A l i t a w = .error .nullDeref := by
  rw [fill, constructFrom, content_argument hw, ha]
  rfl

/-! ## `emplace` -/

variable (A) in
/-- The alternative that an `emplace` constructs, and its index. -/
def selected : Selector τ → Option (ℕ × τ)
  | .index i => (A.types[i]?).map fun t => (i, t)
  | .type t => (getIndexOfType 0 t A.types).map fun i => (i, t)

lemma selected_type {s : Selector τ} (h : selected A s = some (i, t)) :
    A.types[i]? = some t := by
  cases s with
  | index j =>
    rw [selected, Option.map_eq_some_iff] at h
    obtain ⟨t', ht, heq⟩ := h
    rw [Prod.mk.injEq] at heq
    rwa [← heq.1, ← heq.2]
  | type t' =>
    rw [selected, getIndexOfType_eq, Nat.zero_add] at h
    by_cases hmem : t' ∈ A.types
    · rw [if_pos hmem, Option.map_some, Option.some.injEq, Prod.mk.injEq] at h
      rw [← h.1, ← h.2]
      exact List.getElem?_idxOf hmem
    · rw [if_neg hmem] at h
      cases h

/-- The four overloads do the same. -/
lemma emplace_eq (w : World τ V) (l : Loc) (s : Selector τ) (list : Bool) (a : Arg τ V) :
    emplace A w l s list a = match selected A s with
      | some (i, t) => callElementDestructor A w l >>= fill A l i t a
      | none => .error .illFormed := by
  cases s with
  | index i =>
    cases hi : A.types[i]? with
    | none => cases list <;>
        simp [emplace, emplaceIndex, emplaceAtIndex, emplaceIndexList, selected, hi]
    | some t => cases list <;>
        simp only [emplace, emplaceIndex, emplaceAtIndex, emplaceIndexList, selected, hi,
          getTypeAtIndex_zero, Option.map_some] <;> rfl
  | type t =>
    cases hi : getIndexOfType 0 t A.types with
    | none => cases list <;> simp [emplace, emplaceType, emplaceTypeList, selected, hi]
    | some i =>
      cases list with
      | true => simp only [emplace, emplaceTypeList, selected, hi, Option.map_some]; rfl
      | false =>
        -- this overload guards the call of the destructor a second time
        simp only [emplace, emplaceType, selected, hi, Option.map_some]
        by_cases hv : w.typeIndex l = invalidVariantIndex
        · rw [if_neg (not_not.mpr hv), callElementDestructor, if_neg (not_not.mpr hv)]
          rfl
        · rw [if_pos hv]
          rfl

lemma emplace_yields {s : Selector τ} {p : Option (ℕ × V)} (hw : Wellformed A w)
    (hl : content w l = some p) (hs : selected A s = some (i, t))
    (ha : argumentIn A (content w) a = some (u, x)) (hne : ∀ v ∈ a.refers, Loc.named v ≠ l)
    (list : Bool) :
    Yields A w (emplace A w l s list a) false
      (Function.update (consumed A (content w) a u x) l (some (some (i, A.convert t u x)))) := by
  rw [emplace_eq, hs]
  refine Yields.clear hw hl (fun w₁ => fill_setIndex w₁ i _ hne) fun w' hw' hidx hc => ?_
  have ha' : argumentIn A (content w') a = some (u, x) := by
    rw [hc, argumentIn_update _ _ hne, ha]
  refine (fill_yields hw' hidx (selected_type hs) ha' hne).congr rfl ?_
  rw [hc, consumed_update _ _ hne, Function.update_idem]

lemma emplace_fails {s : Selector τ} {p : Option (ℕ × V)} (hw : Wellformed A w)
    (hl : content w l = some p)
    (h : selected A s = none ∨ argumentIn A (content w) a = none)
    (hne : ∀ v ∈ a.refers, Loc.named v ≠ l) (list : Bool) :
    ∃ e, emplace A w l s list a = .error e := by
  rw [emplace_eq]
  cases hs : selected A s with
  | none => exact ⟨_, rfl⟩
  | some it =>
    obtain ⟨i, t⟩ := it
    have ha := h.resolve_left (by simp [hs])
    obtain ⟨w₁, hcall, hm, hc⟩ := callElementDestructor_spec hw hl
    have ha' : argumentIn A (content (w₁.setIndex l invalidVariantIndex)) a = none := by
      rw [hc, argumentIn_update _ _ hne, ha]
    refine ⟨.nullDeref, ?_⟩
    rw [hcall, ← fill_fails (hm.wellformed hw) ha', fill_setIndex w₁ i _ hne]
    rfl

/-- Emplacing from the alternative that is destroyed first does not work. -/
lemma emplace_self_fails {s : Selector τ} {n : ℕ} {p : ℕ × V} {k : Category}
    (hw : Wellformed A w) (hl : content w (.named n) = some (some p)) (list : Bool) :
    ∃ e, emplace A w (.named n) s list (.ref n k) = .error e := by
  rw [emplace_eq]
  cases selected A s with
  | none => exact ⟨_, rfl⟩
  | some it =>
    obtain ⟨y, hy, -⟩ := hw.holds hl
    have hidx := typeIndex_of_index hy.index
    have hcall : callElementDestructor A w (.named n) =
        .ok { w with mem := w.mem.destroy (.named n) y.ty } := by
      rw [callElementDestructor, hidx, if_pos hy.index_ne, destructor_of_type hy.type]
    have harg : argument { w with mem := w.mem.destroy (.named n) y.ty } (.ref n k) =
        (.error .nullDeref : Except Fault (τ × V)) := by
      simp [argument, Mem.destroy_of_alive hy.cell rfl]
    refine ⟨.nullDeref, ?_⟩
    rw [hcall]
    change fill A (.named n) it.1 it.2 (.ref n k) _ = _
    rw [fill, constructFrom, harg]
    rfl

lemma construct_content (hl : content w l = none) :
    Moves A false w (construct w l) ∧
      content (construct w l) = Function.update (content w) l (some none) :=
  ⟨(Move.declare (content_eq_none.mp hl)).single, content_declare w l⟩

lemma inPlace_yields {s : Selector τ} (hw : Wellformed A w) (hl : content w l = none)
    (hs : selected A s = some (i, t)) (ha : argumentIn A (content w) a = some (u, x))
    (hne : ∀ v ∈ a.refers, Loc.named v ≠ l) (list : Bool) :
    Yields A w (inPlace A w l s list a) false
      (Function.update (consumed A (content w) a u x) l (some (some (i, A.convert t u x)))) := by
  obtain ⟨hm, hc⟩ := construct_content (A := A) hl
  have hl' : content (construct w l) l = some none := by rw [hc, Function.update_self]
  have ha' : argumentIn A (content (construct w l)) a = some (u, x) := by
    rw [hc, argumentIn_update _ _ hne, ha]
  obtain ⟨w', hres, hm', hc'⟩ := emplace_yields (hm.wellformed hw) hl' hs ha' hne list
  refine ⟨w', hres, by simpa using hm.trans hm', ?_⟩
  rw [hc', hc, consumed_update _ _ hne, Function.update_idem]

lemma inPlace_fails {s : Selector τ} (hw : Wellformed A w) (hl : content w l = none)
    (h : selected A s = none ∨ argumentIn A (content w) a = none)
    (hne : ∀ v ∈ a.refers, Loc.named v ≠ l) (list : Bool) :
    ∃ e, inPlace A w l s list a = .error e := by
  obtain ⟨hm, hc⟩ := construct_content (A := A) hl
  have hl' : content (construct w l) l = some none := by rw [hc, Function.update_self]
  refine emplace_fails (hm.wellformed hw) hl' ?_ hne list
  rwa [hc, argumentIn_update _ _ hne]

/-! ## Converting construction and assignment -/

variable (A) in
/-- The alternative that a converting construction from a `T` makes, and its index. -/
def selectedFor (T : τ) : Option (ℕ × τ) :=
  if TDetail.valid A.convertible T A.types then
    (TDetail.varType A.convertible T A.types).map fun t =>
      (TDetail.varIndex A.convertible T A.types, t)
  else none

lemma selectedFor_eq (T : τ) :
    selectedFor A T = (TDetail.chosen A.convertible T A.types).bind fun i =>
      (A.types[i]?).map fun t => (i, t) := by
  rw [selectedFor, TDetail.valid_eq A.size_lt]
  cases h : TDetail.chosen A.convertible T A.types with
  | none => rfl
  | some i =>
    obtain ⟨hidx, hty⟩ := TDetail.varIndex_of_chosen A.size_lt h
    rw [hidx, hty]
    rfl

lemma selectedFor_type {T : τ} (h : selectedFor A T = some (i, t)) : A.types[i]? = some t := by
  rw [selectedFor_eq, Option.bind_eq_some_iff] at h
  obtain ⟨j, -, h⟩ := h
  rw [Option.map_eq_some_iff] at h
  obtain ⟨t', ht, heq⟩ := h
  rw [Prod.mk.injEq] at heq
  rwa [← heq.1, ← heq.2]

lemma convertConstruct_of_argument (ha : argument w a = .ok (u, x)) :
    convertConstruct A w l a =
      if TDetail.valid A.convertible u A.types then
        match TDetail.varType A.convertible u A.types with
        | some t =>
          constructFrom A (w.setIndex l (TDetail.varIndex A.convertible u A.types)) l t a
        | none => .error .illFormed
      else .error .illFormed := by
  rw [convertConstruct, ha]
  rfl

lemma convertConstruct_eq (hw : Wellformed A w)
    (ha : argumentIn A (content w) a = some (u, x)) (hne : ∀ v ∈ a.refers, Loc.named v ≠ l) :
    convertConstruct A w l a = match selectedFor A u with
      | some (i, t) => fill A l i t a w
      | none => .error .illFormed := by
  have harg : argument w a = .ok (u, x) := by rw [content_argument hw, ha]
  rw [convertConstruct_of_argument harg, selectedFor]
  by_cases hv : TDetail.valid A.convertible u A.types = true
  · rw [if_pos hv, if_pos hv]
    cases TDetail.varType A.convertible u A.types with
    | none => rfl
    | some t => exact constructFrom_setIndex w _ hne
  · rw [if_neg hv, if_neg hv]

lemma convertConstruct_yields (hw : Wellformed A w) (hl : content w l = none)
    (ha : argumentIn A (content w) a = some (u, x)) (hs : selectedFor A u = some (i, t))
    (hne : ∀ v ∈ a.refers, Loc.named v ≠ l) :
    Yields A w (convertConstruct A w l a) false
      (Function.update (consumed A (content w) a u x) l (some (some (i, A.convert t u x)))) := by
  rw [convertConstruct_eq hw ha hne, hs]
  refine Yields.declare hw hl (fill_setIndex w i _ hne) fun w' hw' hidx hc => ?_
  have ha' : argumentIn A (content w') a = some (u, x) := by
    rw [hc, argumentIn_update _ _ hne, ha]
  refine (fill_yields hw' hidx (selectedFor_type hs) ha' hne).congr rfl ?_
  rw [hc, consumed_update _ _ hne, Function.update_idem]

lemma convertConstruct_fails (hw : Wellformed A w)
    (h : (argumentIn A (content w) a).bind (fun ux => selectedFor A ux.1) = none)
    (hne : ∀ v ∈ a.refers, Loc.named v ≠ l) : ∃ e, convertConstruct A w l a = .error e := by
  cases ha : argumentIn A (content w) a with
  | none =>
    refine ⟨.nullDeref, ?_⟩
    rw [convertConstruct, content_argument hw, ha]
    rfl
  | some ux =>
    rw [ha, Option.bind_some] at h
    rw [convertConstruct_eq hw (x := ux.2) ha hne, h]
    exact ⟨_, rfl⟩

lemma moveConstructor_setIndex (w : World τ V) (i j : ℕ) (l r : Loc) :
    moveConstructor A (w.setIndex l j) i r l =
      moveConstructor A w i r l >>= fun w => .ok (w.setIndex l j) := by
  simp only [moveConstructor, callAtIndex, callAtIndex_zero]
  cases A.types[i]? <;> rfl

lemma assignTemp_eq (w : World τ V) (l : Loc) :
    assignTemp A w l = callElementDestructor A w l >>= fun w =>
      moveConstructor A w (w.typeIndex .temp) .temp l >>= fun w =>
        destroy A (w.setIndex l (w.typeIndex .temp)) .temp := by
  rw [← callElementDestructor_guarded]
  by_cases hv : w.typeIndex l = invalidVariantIndex
  · rw [if_neg (not_not.mpr hv), assignTemp, if_neg (not_not.mpr hv)]
  · rw [if_pos hv, assignTemp, if_pos hv]

/-- The second part of a converting assignment moves the temporary into its target. -/
lemma assignTemp_yields {p : Option (ℕ × V)} (hw : Wellformed A w) (hl : content w l = some p)
    (ht : content w .temp = some (some (i, v))) (hlt : l ≠ .temp) :
    Yields A w (assignTemp A w l) false
      (Function.update (Function.update (content w) l (some (some (i, v)))) .temp none) := by
  rw [assignTemp_eq]
  refine Yields.clear hw hl (fun w₁ => ?_) fun w' hw' hidx hc => ?_
  · rw [typeIndex_setIndex_of_ne _ _ hlt.symm, moveConstructor_setIndex, bind_assoc]
    refine bind_congr fun w₂ => ?_
    change destroy A ((w₂.setIndex l _).setIndex l _) _ = _
    rw [setIndex_setIndex, typeIndex_setIndex_of_ne _ _ hlt.symm]
  · have ht' : content w' .temp = some (some (i, v)) := by
      rw [hc, Function.update_of_ne hlt.symm, ht]
    obtain ⟨x, hx, rfl⟩ := hw'.holds ht'
    have hplace : Move A false w' _ := Move.place (v := x.val) hidx hx.type
    have hx' := hx.of_sameOff (sameOff_construct w' l (some i) x.ty x.val) hlt.symm
    have hstore := Move.store (v := A.movedFrom x.ty x.val) hx'
    have hcontent := hx'.content_store (v := A.movedFrom x.ty x.val)
    rw [content_place hx.type, hc, Function.update_idem] at hcontent
    have hw₂ := (hplace.single.trans hstore.single).wellformed hw'
    have ht₂ : content _ .temp = some (some (i, A.movedFrom x.ty x.val)) :=
      (congrFun hcontent _).trans (Function.update_self _ _ _)
    obtain ⟨w₃, hres, hm, hc₃⟩ := Yields.step hplace (Yields.step hstore (destroy_yields hw₂ ht₂))
    refine ⟨w₃, ?_, hm, by rw [hc₃, hcontent, Function.update_idem]⟩
    -- the code sets the index after the move, which gives the same world
    rw [typeIndex_of_index hx.index, moveConstructor_of_cell hx.cell hx.type]
    refine Eq.trans ?_ hres
    change destroy A (World.setIndex _ l (w'.typeIndex .temp)) _ = _
    rw [typeIndex_of_index hx.index]
    rfl

/-- What the temporary held is forgotten. -/
lemma update_temp {n : ℕ} {c : Contents V} {p q : Option (Option (ℕ × V))}
    (h : c .temp = none) :
    Function.update (Function.update (Function.update c .temp p) (.named n) q) .temp none =
      Function.update c (.named n) q := by
  have hne : Loc.named n ≠ .temp := Loc.noConfusion
  have hself : Function.update c .temp none = c := Function.update_eq_self_iff.mpr h.symm
  rw [Function.update_comm hne, Function.update_idem, hself]

lemma convertAssign_yields {n : ℕ} {p : Option (ℕ × V)} (hw : Wellformed A w)
    (htemp : content w .temp = none) (hl : content w (.named n) = some p)
    (ha : argumentIn A (content w) a = some (u, x)) (hs : selectedFor A u = some (i, t)) :
    Yields A w (convertAssign A w (.named n) a) false
      (Function.update (consumed A (content w) a u x) (.named n)
        (some (some (i, A.convert t u x)))) := by
  have hne : ∀ v ∈ a.refers, Loc.named v ≠ .temp := fun v _ => Loc.noConfusion
  have hnt : Loc.named n ≠ .temp := Loc.noConfusion
  refine (Yields.bind hw (convertConstruct_yields hw htemp ha hs hne)
    fun w₁ hw₁ hc₁ => ?_).congr (b := false || false) rfl rfl
  have ht₁ : content w₁ .temp = some (some (i, A.convert t u x)) := by
    rw [hc₁, Function.update_self]
  have hsome : (content w₁ (.named n)).isSome := by
    rw [hc₁, Function.update_of_ne hnt, isSome_consumed, hl, Option.isSome_some]
  obtain ⟨p', hp'⟩ := Option.isSome_iff_exists.mp hsome
  refine (assignTemp_yields hw₁ hp' ht₁ hnt).congr rfl ?_
  rw [hc₁, update_temp ((consumed_temp _ _ _ _).trans htemp)]

lemma convertAssign_fails (hw : Wellformed A w)
    (h : (argumentIn A (content w) a).bind (fun ux => selectedFor A ux.1) = none) :
    ∃ e, convertAssign A w l a = .error e := by
  obtain ⟨e, he⟩ := convertConstruct_fails (l := .temp) hw h fun v _ => Loc.noConfusion
  exact ⟨e, by rw [convertAssign, he]; rfl⟩

lemma constMoveAssign_yields {n : ℕ} {p : Option (ℕ × V)} (hw : Wellformed A w)
    (htemp : content w .temp = none) (hl : content w (.named n) = some p)
    (hr : content w r = some (some (i, v))) :
    Yields A w (constMoveAssign A w (.named n) r) false
      (Function.update (content w) (.named n) (some (some (i, v)))) := by
  have hnt : Loc.named n ≠ .temp := Loc.noConfusion
  refine (Yields.bind hw (copyConstruct_yields hw htemp hr) fun w₁ hw₁ hc₁ => ?_).congr
    (b := false || false) rfl rfl
  have ht₁ : content w₁ .temp = some (some (i, v)) := by rw [hc₁, Function.update_self]
  have hl₁ : content w₁ (.named n) = some p := by rw [hc₁, Function.update_of_ne hnt, hl]
  refine (assignTemp_yields hw₁ hl₁ ht₁ hnt).congr rfl ?_
  rw [hc₁, update_temp htemp]

/-- Assigning from a valueless `const` rvalue fails the `assert` of the dispatch: this path
does not ask whether the temporary holds anything. -/
lemma constMoveAssign_fails {n : ℕ} {p : Option (ℕ × V)} (hw : Wellformed A w)
    (htemp : content w .temp = none) (hl : content w (.named n) = some p)
    (hr : content w r = some none) :
    ∃ e, constMoveAssign A w (.named n) r = .error e := by
  have hnt : Loc.named n ≠ .temp := Loc.noConfusion
  obtain ⟨w₁, hcopy, hm, hc₁⟩ := copyConstruct_yields hw htemp hr
  have hw₁ := hm.wellformed hw
  have ht₁ : content w₁ .temp = some none := by rw [hc₁, Function.update_self]
  have hl₁ : content w₁ (.named n) = some p := by rw [hc₁, Function.update_of_ne hnt, hl]
  obtain ⟨w₂, hcall, hm₂, hc₂⟩ := callElementDestructor_spec hw₁ hl₁
  have ht₂ : w₂.typeIndex .temp = invalidVariantIndex := by
    rw [← typeIndex_setIndex_of_ne w₂ invalidVariantIndex hnt.symm]
    refine (hm₂.wellformed hw₁).typeIndex_of_valueless ?_
    rw [hc₂, Function.update_of_ne hnt.symm, ht₁]
  refine ⟨.assertFailed, ?_⟩
  have hmove : moveConstructor A w₂ (w₂.typeIndex .temp) .temp (.named n) =
      .error .assertFailed := by rw [ht₂, moveConstructor, callAtIndex_invalid]
  have hassign : assignTemp A w₁ (.named n) = .error .assertFailed := by
    rw [assignTemp_eq, hcall, ← hmove]
    change moveConstructor A w₂ (w₂.typeIndex .temp) .temp (.named n) >>= _ = _
    rw [hmove]
    rfl
  rw [constMoveAssign, hcopy, ← hassign]
  rfl

end AraCore.Variant
