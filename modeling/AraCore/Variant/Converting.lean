/-
# Which alternative a converting construction makes

`T_detail` counts the types behind an alternative, `get_index_of_type` counts those before it,
and `get_type_at_index` goes back from an index to a type.  They agree, so that the alternative
made by a converting construction is the one that `holds_alternative` and `get` look for.
-/
import AraCore.Variant.Emplace

namespace AraCore.Variant

open Lib

variable {τ V : Type*} [DecidableEq τ]

/-! ## Access by type -/

section Access

variable (A : Alternatives τ V) (w : World τ V) (this : Loc) (T : τ)

/-- `has_bad_variant_element_access<T>()`; a type that is no alternative does not compile. -/
def hasBadVariantElementAccess : Bool := getIndexOfType 0 T A.types != some (w.typeIndex this)

/-- `get<T>()`; nothing for `nullptr`. -/
def get : Option (Obj τ V) :=
  if hasBadVariantElementAccess A w this T then none else w.mem.cell this

/-- `holds_alternative<T>` -/
def holdsAlternative : Bool := (get A w this T).isSome

end Access

/-! ## Positions -/

section Position

variable {convertible : τ → τ → Bool} {T U : τ} {Types : List τ} {i : ℕ}

omit [DecidableEq τ] in
/-- A property of one element only is a property at one position only. -/
lemma existsUnique_position {p : τ → Bool} :
    Types.countP p = 1 ↔ ∃! i : ℕ, ∃ U, Types[i]? = some U ∧ p U = true := by
  induction Types with
  | nil => simp [ExistsUnique]
  | cons N Types ih =>
    have hnone : Types.countP p = 0 ↔ ¬ ∃ i : ℕ, ∃ U, Types[i]? = some U ∧ p U = true := by
      rw [List.countP_eq_zero]
      constructor
      · rintro h ⟨i, U, hi, hU⟩
        exact h U (List.mem_of_getElem? hi) hU
      · intro h U hU hp
        obtain ⟨i, hi⟩ := List.mem_iff_getElem?.mp hU
        exact h ⟨i, U, hi, hp⟩
    cases hN : p N with
    | true =>
      rw [List.countP_cons_of_pos hN, Nat.add_eq_right, hnone]
      constructor
      · intro h
        refine ⟨0, ⟨N, rfl, hN⟩, ?_⟩
        rintro (_ | i) ⟨U, hi, hU⟩
        · rfl
        · exact absurd ⟨i, U, hi, hU⟩ h
      · rintro ⟨j, -, hj⟩ ⟨i, U, hi, hU⟩
        have h0 := hj 0 ⟨N, rfl, hN⟩
        have hi := hj (i + 1) ⟨U, hi, hU⟩
        omega
    | false =>
      rw [List.countP_cons_of_neg (by simp [hN]), ih]
      constructor
      · rintro ⟨i, ⟨U, hi, hU⟩, huniq⟩
        refine ⟨i + 1, ⟨U, hi, hU⟩, ?_⟩
        rintro (_ | j) ⟨U', hj, hU'⟩
        · cases hj
          rw [hN] at hU'
          cases hU'
        · rw [huniq j ⟨U', hj, hU'⟩]
      · rintro ⟨_ | i, ⟨U, hi, hU⟩, huniq⟩
        · cases hi
          rw [hN] at hU
          cases hU
        · refine ⟨i, ⟨U, hi, hU⟩, fun j hj => ?_⟩
          exact Nat.succ.inj (huniq (j + 1) hj)

lemma chosen_of_mem (h : T ∈ Types) :
    TDetail.chosen convertible T Types = some (Types.idxOf T) := by
  rw [TDetail.chosen, if_pos h]

/-- A chosen alternative is of the type itself, or the only one that the type converts to. -/
lemma chosen_of_not_mem (h : T ∉ Types) (hi : TDetail.chosen convertible T Types = some i) :
    (∃ U, Types[i]? = some U ∧ convertible T U = true) ∧
      ∀ j U, Types[j]? = some U → convertible T U = true → j = i := by
  rw [TDetail.chosen, if_neg h] at hi
  split at hi
  · next hone =>
    cases hi
    obtain ⟨k, hk, huniq⟩ := existsUnique_position.mp hone
    obtain ⟨U, hU, hconv⟩ := List.countP_pos_iff.mp (by rw [hone]; exact Nat.one_pos)
    have hlt := List.findIdx_lt_length_of_exists ⟨U, hU, hconv⟩
    have hat : ∃ U, Types[Types.findIdx (convertible T)]? = some U ∧ convertible T U = true :=
      ⟨_, List.getElem?_eq_getElem hlt, List.findIdx_getElem⟩
    refine ⟨hat, fun j U hj hconv => ?_⟩
    rw [huniq j ⟨U, hj, hconv⟩, huniq _ hat]
  · cases hi

end Position

/-! ## Construction -/

variable {A : Alternatives τ V} {w : World τ V} {l : Loc} {t u : τ} {x : V} {a : Arg τ V}

/-- What is constructed from an argument is in the storage, also if the argument is used up. -/
lemma constructFrom_cell (hl : w.index l = none) (i : ℕ) (ha : argument w a = .ok (u, x)) :
    ∃ w', constructFrom A (w.setIndex l i) l t a = .ok w' ∧ w'.typeIndex l = i ∧
      ∃ obj, w'.mem.cell l = some obj ∧ obj.ty = t ∧ obj.val = A.convert t u x := by
  have hne : ∀ v ∈ a.refers, Loc.named v ≠ l := by
    rintro v hv rfl
    cases a with
    | value t x => cases hv
    | ref n c =>
      obtain rfl : v = n := by simpa [Arg.refers] using hv
      simp [argument, World.typeIndex, hl] at ha
  have ha' : argument (w.setIndex l i) a = .ok (u, x) := by rw [argument_setIndex w i hne, ha]
  rw [constructFrom, ha']
  cases a with
  | value t x =>
    exact ⟨_, rfl, typeIndex_setIndex_self w l i, _, Function.update_self _ _ _, rfl, rfl⟩
  | ref v c =>
    cases c with
    | lvalue =>
      exact ⟨_, rfl, typeIndex_setIndex_self w l i, _, Function.update_self _ _ _, rfl, rfl⟩
    | rvalue =>
      -- the object that is moved from is in another storage
      have hv : l ≠ Loc.named v := (hne v (by simp [Arg.refers])).symm
      refine ⟨_, rfl, typeIndex_setIndex_self w l i,
        ⟨(w.setIndex l i).mem.next, t, A.convert t u x⟩, ?_, rfl, rfl⟩
      exact (Mem.cell_assign_of_ne hv).trans (Function.update_self _ _ _)

/-- **Converting construction.**  It is possible exactly if the type is among the alternatives
or converts to exactly one of them; it then makes the first alternative of the type, or that
one; and all ways to compute an index agree on it. -/
theorem converting_selects (A : Alternatives τ V) (T : τ) :
    (TDetail.valid A.convertible T A.types = true ↔
        T ∈ A.types ∨
          T ∉ A.types ∧ ∃! i : ℕ, ∃ U, A.types[i]? = some U ∧ A.convertible T U = true) ∧
      (T ∈ A.types →
        A.types[TDetail.varIndex A.convertible T A.types]? = some T ∧
          ∀ j < TDetail.varIndex A.convertible T A.types, A.types[j]? ≠ some T) ∧
      (T ∉ A.types → TDetail.valid A.convertible T A.types = true →
        (∃ U, A.types[TDetail.varIndex A.convertible T A.types]? = some U ∧
          A.convertible T U = true) ∧
          ∀ j U, A.types[j]? = some U → A.convertible T U = true →
            j = TDetail.varIndex A.convertible T A.types) ∧
      (TDetail.valid A.convertible T A.types = true →
        TDetail.varIndex A.convertible T A.types < A.types.length ∧
          TDetail.varType A.convertible T A.types =
            A.types[TDetail.varIndex A.convertible T A.types]?) ∧
      (T ∈ A.types →
        getIndexOfType 0 T A.types = some (TDetail.varIndex A.convertible T A.types) ∧
          getTypeAtIndex 0 (TDetail.varIndex A.convertible T A.types) A.types = some T ∧
          ∀ (w : World τ V) l a x, w.index l = none → argument w a = .ok (T, x) →
            ∃ w', convertConstruct A w l a = .ok w' ∧ holdsAlternative A w' l T = true ∧
              ∃ obj, get A w' l T = some obj ∧ obj.ty = T ∧ obj.val = x) := by
  have hvalid : TDetail.valid A.convertible T A.types =
      (TDetail.chosen A.convertible T A.types).isSome := TDetail.valid_eq A.size_lt
  have hfirst : T ∈ A.types →
      TDetail.varIndex A.convertible T A.types = A.types.idxOf T ∧
        TDetail.varType A.convertible T A.types = some T := by
    intro hmem
    have hchosen : TDetail.chosen A.convertible T A.types = some (A.types.idxOf T) :=
      chosen_of_mem hmem
    obtain ⟨hidx, hty⟩ := TDetail.varIndex_of_chosen A.size_lt hchosen
    rw [hty, List.getElem?_idxOf hmem]
    exact ⟨hidx, rfl⟩
  refine ⟨?_, ?_, ?_, ?_, ?_⟩
  · rw [hvalid, TDetail.chosen, ← existsUnique_position]
    by_cases hmem : T ∈ A.types
    · simp [hmem]
    · by_cases hone : A.types.countP (A.convertible T) = 1 <;> simp [hmem, hone]
  · intro hmem
    rw [(hfirst hmem).1]
    refine ⟨List.getElem?_idxOf hmem, fun j hj hjT => ?_⟩
    obtain ⟨hlt, hjT⟩ := List.getElem?_eq_some_iff.mp hjT
    have := List.not_of_lt_findIdx hj
    simp [hjT] at this
  · intro hmem hv
    rw [hvalid] at hv
    obtain ⟨i, hi⟩ := Option.isSome_iff_exists.mp hv
    rw [(TDetail.varIndex_of_chosen A.size_lt hi).1]
    exact chosen_of_not_mem hmem hi
  · intro hv
    rw [hvalid] at hv
    obtain ⟨i, hi⟩ := Option.isSome_iff_exists.mp hv
    obtain ⟨hidx, hty⟩ := TDetail.varIndex_of_chosen A.size_lt hi
    rw [hidx, hty]
    exact ⟨TDetail.chosen_lt hi, rfl⟩
  · intro hmem
    obtain ⟨hidx, hty⟩ := hfirst hmem
    have hget : getIndexOfType 0 T A.types = some (TDetail.varIndex A.convertible T A.types) := by
      rw [getIndexOfType_eq, if_pos hmem, Nat.zero_add, hidx]
    refine ⟨hget, ?_, fun w l a x hl ha => ?_⟩
    · rw [getTypeAtIndex_zero, hidx, List.getElem?_idxOf hmem]
    · obtain ⟨w', hres, htype, obj, hcell, hobj, hval⟩ :=
        constructFrom_cell (A := A) (t := T) hl (TDetail.varIndex A.convertible T A.types) ha
      have hcons : convertConstruct A w l a = .ok w' := by
        rw [convertConstruct, ha, ← hres]
        change (if TDetail.valid A.convertible T A.types = true then _ else _) = _
        rw [if_pos (by rw [hvalid, chosen_of_mem hmem]; rfl), hty]
      have hobj' : get A w' l T = some obj := by
        rw [get, hasBadVariantElementAccess, hget, htype, if_neg (by simp), hcell]
      refine ⟨w', hcons, by rw [holdsAlternative, hobj']; rfl, obj, hobj', hobj, ?_⟩
      rw [hval, A.convert_self]

end AraCore.Variant
