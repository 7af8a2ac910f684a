/-
# Computations on the list of alternatives

`variant.h` does three kinds of recursion over its list of types: `call_at_index` dispatches
an operation to the alternative at an index known at run time, `get_index_of_type` and
`get_type_at_index` look an alternative up from the front, and `T_detail` selects the
alternative for a converting construction by counting the types that remain behind.
-/
import Mathlib

namespace AraCore

/-- The number of values of `std::size_t`. -/
def sizeRange : ℕ := 2 ^ 64

/-- `INVALID_VARIANT_INDEX`, that is `std::size_t(-1)`. -/
def invalidVariantIndex : ℕ := sizeRange - 1

/-- `internal::invalid_index`, that is `index_type(-1)`. -/
def invalidIndex : ℕ := sizeRange - 1

/-- The alternatives `Types...` of a variant: at least one, and few enough for `sizeof...` to
be a `std::size_t`. -/
structure TypeList (τ : Type*) where
  types : List τ
  nonempty : types ≠ []
  size_lt : types.length < sizeRange

variable {τ α : Type*}

/-! ## Dispatch on an index -/

/-- `internal::call_at_index<N, Types...>`, the recursion shared by its five members: apply
`op` to the alternative at `index`.  The value `none` is the failing `assert`. -/
def callAtIndex (op : τ → α) : ℕ → List τ → ℕ → Option α
  | _, [], _ => none
  | N, T :: Targs, index => if N = index then some (op T) else callAtIndex op (N + 1) Targs index

/-- `internal::get_type_at_index<N, Index, Types...>` -/
def getTypeAtIndex : ℕ → ℕ → List τ → Option τ
  | _, _, [] => none
  | N, Index, T :: Targs => if N = Index then some T else getTypeAtIndex (N + 1) Index Targs

lemma callAtIndex_eq (op : τ → α) (N : ℕ) (Types : List τ) (index : ℕ) (h : N ≤ index) :
    callAtIndex op N Types index = (Types[index - N]?).map op := by
  induction Types generalizing N with
  | nil => rfl
  | cons T Targs ih =>
    by_cases hN : N = index
    · subst hN
      simp [callAtIndex]
    · have hlt : N + 1 ≤ index := by omega
      have hsub : index - N = (index - (N + 1)) + 1 := by omega
      rw [callAtIndex, if_neg hN, ih (N + 1) hlt, hsub, List.getElem?_cons_succ]

/-- The dispatch reaches the alternative at the index, or the `assert` if there is none. -/
@[simp] lemma callAtIndex_zero (op : τ → α) (Types : List τ) (index : ℕ) :
    callAtIndex op 0 Types index = (Types[index]?).map op := by
  rw [callAtIndex_eq op 0 Types index (Nat.zero_le _), Nat.sub_zero]

lemma getTypeAtIndex_eq (N Index : ℕ) (Types : List τ) :
    getTypeAtIndex N Index Types = callAtIndex id N Types Index := by
  induction Types generalizing N with
  | nil => rfl
  | cons T Targs ih => rw [getTypeAtIndex, callAtIndex, ih]; rfl

@[simp] lemma getTypeAtIndex_zero (Index : ℕ) (Types : List τ) :
    getTypeAtIndex 0 Index Types = Types[Index]? := by
  rw [getTypeAtIndex_eq, callAtIndex_zero, Option.map_id, id]

/-! ## The position of a type -/

section Position

/-- `disjunction<std::is_convertible<T, Types>...>::value` -/
def disjunction (convertible : τ → τ → Bool) (T : τ) : List τ → Bool
  | [] => false
  | N :: Types => if convertible T N then true else disjunction convertible T Types

/-- `internal::get_convertible_type_index<T, Types...>::index` -/
def getConvertibleTypeIndex (convertible : τ → τ → Bool) (T : τ) : List τ → ℕ
  | [] => invalidIndex
  | N :: Types =>
    if convertible T N then
      if disjunction convertible T Types then invalidIndex else Types.length
    else getConvertibleTypeIndex convertible T Types

lemma disjunction_eq_any (convertible : τ → τ → Bool) (T : τ) (Types : List τ) :
    disjunction convertible T Types = Types.any (convertible T) := by
  induction Types with
  | nil => rfl
  | cons N Types ih => cases h : convertible T N <;> simp [disjunction, ih, h]

/-- A convertible index is found if exactly one alternative can be converted to, and counts
the types behind it. -/
lemma getConvertibleTypeIndex_eq (convertible : τ → τ → Bool) (T : τ) (Types : List τ) :
    getConvertibleTypeIndex convertible T Types =
      if Types.countP (convertible T) = 1 then
        Types.length - 1 - Types.findIdx (convertible T)
      else invalidIndex := by
  induction Types with
  | nil => rfl
  | cons N Types ih =>
    cases hN : convertible T N with
    | true =>
      have hany : Types.any (convertible T) = true ↔ Types.countP (convertible T) ≠ 0 := by
        rw [List.any_eq_true, ← Nat.pos_iff_ne_zero, List.countP_pos_iff]
      by_cases h : Types.any (convertible T) = true
      · have hcount := hany.mp h
        simp [getConvertibleTypeIndex, disjunction_eq_any, hN, h, hcount]
      · have hcount : Types.countP (convertible T) = 0 := by
          by_contra hne
          exact h (hany.mpr hne)
        simp [getConvertibleTypeIndex, disjunction_eq_any, hN, h, hcount, List.findIdx_cons]
    | false =>
      rw [getConvertibleTypeIndex, if_neg (by simp [hN]), ih]
      simp only [List.countP_cons, hN, List.findIdx_cons, List.length_cons]
      by_cases hone : Types.countP (convertible T) = 1
      · have hlt : Types.findIdx (convertible T) < Types.length := by
          obtain ⟨U, hU, hconv⟩ := List.countP_pos_iff.mp (by rw [hone]; exact Nat.one_pos)
          exact List.findIdx_lt_length_of_exists ⟨U, hU, hconv⟩
        simp [hone]
        omega
      · simp [hone]

variable [DecidableEq τ]

/-- `internal::get_index_of_type<N, U, Types...>::index`; nothing if it does not compile. -/
def getIndexOfType : ℕ → τ → List τ → Option ℕ
  | _, _, [] => none
  | N, U, T :: Targs => if U = T then some N else getIndexOfType (N + 1) U Targs

/-- `internal::get_direct_type_index<T, Types...>::index`, the number of types behind the
first occurrence. -/
def getDirectTypeIndex (T : τ) : List τ → ℕ
  | [] => invalidIndex
  | N :: Types => if T = N then Types.length else getDirectTypeIndex T Types

namespace TDetail

variable (convertible : τ → τ → Bool) (T : τ) (Types : List τ)

/-- `T_detail<T, Types...>::T_direct`, for `T` without reference and `const`. -/
def direct : ℕ := getDirectTypeIndex T Types

/-- `T_present` -/
def present : Bool := direct T Types != invalidIndex

/-- `T_index` -/
def index : ℕ :=
  if present T Types then direct T Types else getConvertibleTypeIndex convertible T Types

/-- `T_valid` -/
def valid : Bool := index convertible T Types != invalidIndex

/-- `T_final` -/
def final : ℕ :=
  if valid convertible T Types then Types.length - index convertible T Types else 0

/-- `T_varIndex`; the subtraction is in `std::size_t`. -/
def varIndex : ℕ := (final convertible T Types + (sizeRange - 1)) % sizeRange

/-- `T_varType`, an element of the tuple `<void, Types...>`; `none` stands for `void`. -/
def varType : Option τ := ((none :: Types.map some)[final convertible T Types]?).join

end TDetail

lemma getIndexOfType_eq (N : ℕ) (T : τ) (Types : List τ) :
    getIndexOfType N T Types =
      if T ∈ Types then some (N + Types.idxOf T) else none := by
  induction Types generalizing N with
  | nil => rfl
  | cons U Types ih =>
    by_cases hT : T = U
    · subst hT
      simp [getIndexOfType]
    · rw [getIndexOfType, if_neg hT, ih]
      by_cases hmem : T ∈ Types
      · rw [if_pos hmem, if_pos (List.mem_cons_of_mem _ hmem),
          List.idxOf_cons_ne _ (fun h => hT h.symm), Option.some.injEq]
        omega
      · simp [hT, hmem]

/-- A direct index counts the types behind the first occurrence. -/
lemma getDirectTypeIndex_eq (T : τ) (Types : List τ) :
    getDirectTypeIndex T Types =
      if T ∈ Types then Types.length - 1 - Types.idxOf T else invalidIndex := by
  induction Types with
  | nil => rfl
  | cons U Types ih =>
    by_cases hT : T = U
    · subst hT
      simp [getDirectTypeIndex]
    · rw [getDirectTypeIndex, if_neg hT, ih]
      by_cases hmem : T ∈ Types
      · rw [if_pos hmem, if_pos (List.mem_cons_of_mem _ hmem),
          List.idxOf_cons_ne _ (fun h => hT h.symm), List.length_cons]
        omega
      · simp [hT, hmem]

namespace TDetail

/-- The alternative that `T_detail` selects: the first one of the type itself, or else the
only one that the type converts to. -/
def chosen (convertible : τ → τ → Bool) (T : τ) (Types : List τ) : Option ℕ :=
  if T ∈ Types then some (Types.idxOf T)
  else if Types.countP (convertible T) = 1 then some (Types.findIdx (convertible T))
  else none

variable {convertible : τ → τ → Bool} {T : τ} {Types : List τ} {i : ℕ}

lemma chosen_lt (h : chosen convertible T Types = some i) : i < Types.length := by
  by_cases hmem : T ∈ Types
  · rw [chosen, if_pos hmem, Option.some.injEq] at h
    exact h ▸ List.idxOf_lt_length_of_mem hmem
  · rw [chosen, if_neg hmem] at h
    by_cases hone : Types.countP (convertible T) = 1
    · rw [if_pos hone, Option.some.injEq] at h
      obtain ⟨U, hU, hconv⟩ := List.countP_pos_iff.mp (by rw [hone]; exact Nat.one_pos)
      exact h ▸ List.findIdx_lt_length_of_exists ⟨U, hU, hconv⟩
    · rw [if_neg hone] at h
      cases h

lemma index_eq (hsize : Types.length < sizeRange) :
    index convertible T Types = match chosen convertible T Types with
      | some i => Types.length - 1 - i
      | none => invalidIndex := by
  by_cases hmem : T ∈ Types
  · have hlt := List.idxOf_lt_length_of_mem hmem
    have hdirect : direct T Types = Types.length - 1 - Types.idxOf T := by
      rw [direct, getDirectTypeIndex_eq, if_pos hmem]
    have hpresent : present T Types = true := by
      rw [present, hdirect, bne_iff_ne, invalidIndex]
      omega
    rw [index, if_pos hpresent, hdirect, chosen, if_pos hmem]
  · have hpresent : present T Types = false := by
      rw [present, direct, getDirectTypeIndex_eq, if_neg hmem, bne_self_eq_false]
    rw [index, if_neg (by simp [hpresent]), getConvertibleTypeIndex_eq, chosen, if_neg hmem]
    split <;> rfl

lemma valid_eq (hsize : Types.length < sizeRange) :
    valid convertible T Types = (chosen convertible T Types).isSome := by
  rw [valid, index_eq hsize]
  cases hc : chosen convertible T Types with
  | none => simp
  | some i =>
    have := chosen_lt hc
    simp only [invalidIndex, Option.isSome_some, bne_iff_ne]
    omega

/-- The two ways of naming the selected alternative agree, and name the chosen one. -/
lemma varIndex_of_chosen (hsize : Types.length < sizeRange)
    (h : chosen convertible T Types = some i) :
    varIndex convertible T Types = i ∧ varType convertible T Types = Types[i]? := by
  have hlt := chosen_lt h
  have hindex : index convertible T Types = Types.length - 1 - i := by rw [index_eq hsize, h]
  have hvalid : valid convertible T Types = true := by rw [valid_eq hsize, h]; rfl
  have hfinal : final convertible T Types = i + 1 := by
    rw [final, if_pos hvalid, hindex]
    omega
  constructor
  · rw [varIndex, hfinal]
    have : i + 1 + (sizeRange - 1) = i + sizeRange := by omega
    rw [this, Nat.add_mod_right, Nat.mod_eq_of_lt (by omega)]
  · rw [varType, hfinal, List.getElem?_cons_succ, List.getElem?_map]
    cases Types[i]? <;> rfl

end TDetail

end Position

namespace TypeList

variable (Ts : TypeList τ)

lemma index_ne_invalid {i : ℕ} {T : τ} (h : Ts.types[i]? = some T) : i ≠ invalidVariantIndex := by
  obtain ⟨hlt, -⟩ := List.getElem?_eq_some_iff.mp h
  have := Ts.size_lt
  simp only [invalidVariantIndex]
  omega

/-! The types `false` and `true` are the alternatives of the examples. -/

lemma bools_ne_nil : [false, true] ≠ [] := List.cons_ne_nil _ _

lemma bools_length_lt : [false, true].length < sizeRange := by decide

end TypeList
end AraCore
