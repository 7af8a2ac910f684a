/-
# The comparison operators of `Optional`

There are ten overloads each for two `Optional`s, for an `Optional` and `nullopt`, and for an
`Optional` and a value.  `==` and `<` are written out; the other operators are derived from
them by formulas, of which the one for `>` is not the converse of `<`.
-/
import AraCore.Optional.Invariant

namespace AraCore.Optional

variable {T : Type*}

/-! ## Derived operators -/

/-- The operator `||`; its operands may dereference null. -/
def orElse (a b : Option Bool) : Option Bool := a.bind fun x => if x then some true else b

/-- The operator `&&` -/
def andThen (a b : Option Bool) : Option Bool := a.bind fun x => if x then b else some false

/-- `!(x == y)` -/
def neOf (eq : Option Bool) : Option Bool := eq.map not

/-- `!(x < y) && !(x == y)` -/
def gtOf (lt eq : Option Bool) : Option Bool := andThen (lt.map not) (eq.map not)

/-- `(x < y) || (x == y)` -/
def leOf (lt eq : Option Bool) : Option Bool := orElse lt eq

/-- `!(x < y)` -/
def geOf (lt : Option Bool) : Option Bool := lt.map not

section Operators

variable [BEq T] (less : T → T → Bool)

/-! ## Relational operators -/

/-- `operator!=(const Optional&, const Optional&)` -/
def ne (x y : Optional T) : Option Bool := neOf (eq x y)

/-- `operator<(const Optional&, const Optional&)`, where `less` is `std::less<T>` -/
def lt (x y : Optional T) : Option Bool :=
  if !y.hasValue then some false
  else if !x.hasValue then some true
  else
    match x.deref, y.deref with
    | some a, some b => some (less a b)
    | _, _ => none

/-- `operator>(const Optional&, const Optional&)` -/
def gt (x y : Optional T) : Option Bool := gtOf (lt less x y) (eq x y)

/-- `operator<=(const Optional&, const Optional&)` -/
def le (x y : Optional T) : Option Bool := leOf (lt less x y) (eq x y)

/-- `operator>=(const Optional&, const Optional&)` -/
def ge (x y : Optional T) : Option Bool := geOf (lt less x y)

/-! ## Comparison with `nullopt` -/

/-- `operator==(const Optional&, nullopt_t)` -/
def eqNullopt (x : Optional T) : Option Bool := some (!x.hasValue)

/-- `operator==(nullopt_t, const Optional&)` -/
def nulloptEq (x : Optional T) : Option Bool := some (!x.hasValue)

/-- `operator<(const Optional&, nullopt_t)` -/
def ltNullopt (_x : Optional T) : Option Bool := some false

/-- `operator<(nullopt_t, const Optional&)` -/
def nulloptLt (x : Optional T) : Option Bool := some x.hasValue

/-- `operator!=(const Optional&, nullopt_t)` -/
def neNullopt (x : Optional T) : Option Bool := neOf (eqNullopt x)

/-- `operator!=(nullopt_t, const Optional&)` -/
def nulloptNe (x : Optional T) : Option Bool := neOf (nulloptEq x)

/-- `operator<=(const Optional&, nullopt_t)` -/
def leNullopt (x : Optional T) : Option Bool := leOf (ltNullopt x) (eqNullopt x)

/-- `operator<=(nullopt_t, const Optional&)` -/
def nulloptLe (x : Optional T) : Option Bool := leOf (nulloptLt x) (nulloptEq x)

/-- `operator>(const Optional&, nullopt_t)` -/
def gtNullopt (x : Optional T) : Option Bool := gtOf (ltNullopt x) (eqNullopt x)

/-- `operator>(nullopt_t, const Optional&)` -/
def nulloptGt (x : Optional T) : Option Bool := gtOf (nulloptLt x) (nulloptEq x)

/-- `operator>=(const Optional&, nullopt_t)` -/
def geNullopt (x : Optional T) : Option Bool := geOf (ltNullopt x)

/-- `operator>=(nullopt_t, const Optional&)` -/
def nulloptGe (x : Optional T) : Option Bool := geOf (nulloptLt x)

/-! ## Comparison with a value -/

/-- `operator==(const Optional&, const T&)` -/
def eqValue (x : Optional T) (v : T) : Option Bool :=
  if x.hasValue then x.deref.map fun a => a == v else some false

/-- `operator==(const T&, const Optional&)` -/
def valueEq (v : T) (x : Optional T) : Option Bool :=
  if x.hasValue then x.deref.map fun a => v == a else some false

/-- `operator<(const Optional&, const T&)` -/
def ltValue (x : Optional T) (v : T) : Option Bool :=
  if x.hasValue then x.deref.map fun a => less a v else some true

/-- `operator<(const T&, const Optional&)` -/
def valueLt (v : T) (x : Optional T) : Option Bool :=
  if x.hasValue then x.deref.map fun a => less v a else some false

/-- `operator!=(const Optional&, const T&)` -/
def neValue (x : Optional T) (v : T) : Option Bool := neOf (eqValue x v)

/-- `operator!=(const T&, const Optional&)` -/
def valueNe (v : T) (x : Optional T) : Option Bool := neOf (valueEq v x)

/-- `operator<=(const Optional&, const T&)` -/
def leValue (x : Optional T) (v : T) : Option Bool := leOf (ltValue less x v) (eqValue x v)

/-- `operator<=(const T&, const Optional&)` -/
def valueLe (v : T) (x : Optional T) : Option Bool := leOf (valueLt less v x) (valueEq v x)

/-- `operator>(const Optional&, const T&)` -/
def gtValue (x : Optional T) (v : T) : Option Bool := gtOf (ltValue less x v) (eqValue x v)

/-- `operator>(const T&, const Optional&)` -/
def valueGt (v : T) (x : Optional T) : Option Bool := gtOf (valueLt less v x) (valueEq v x)

/-- `operator>=(const Optional&, const T&)` -/
def geValue (x : Optional T) (v : T) : Option Bool := geOf (ltValue less x v)

/-- `operator>=(const T&, const Optional&)` -/
def valueGe (v : T) (x : Optional T) : Option Bool := geOf (valueLt less v x)

end Operators

/-! ## The laws of a consistent order -/

/-- `<` is a strict partial order of the values, and `==` is symmetric and excludes it. -/
structure StrictOrder [BEq T] (less : T → T → Bool) : Prop where
  irrefl : ∀ a, less a a = false
  trans : ∀ a b c, less a b = true → less b c = true → less a c = true
  eq_symm : ∀ a b : T, (a == b) = (b == a)
  eq_excludes : ∀ a b, (a == b) = true → less a b = false

/-- The values are comparable. -/
def Comparable [BEq T] (less : T → T → Bool) (a b : T) : Prop :=
  less a b = true ∨ (a == b) = true ∨ less b a = true

/-- The operators treat `x` and `y` as a consistent order does. -/
structure Consistent [BEq T] (less : T → T → Bool) (x y : Optional T) : Prop where
  /-- No comparison dereferences null. -/
  defined : ∀ r ∈ [lt less x y, eq x y, gt less x y, le less x y, ge less x y, ne x y], r.isSome
  gt_iff_lt : gt less x y = lt less y x
  not_lt_eq : ¬ (lt less x y = some true ∧ eq x y = some true)
  not_lt_gt : ¬ (lt less x y = some true ∧ gt less x y = some true)
  not_eq_gt : ¬ (eq x y = some true ∧ gt less x y = some true)
  le_iff_ge : le less x y = ge less y x
  ne_eq : ne x y = (eq x y).map not

/-- Comparing `x` with `nullopt` is comparing it with an empty `Optional`, which is the least
element, and comparing it with a value is comparing it with an `Optional` of that value. -/
structure Agrees [BEq T] (less : T → T → Bool) (x : Optional T) : Prop where
  eqNullopt : eqNullopt x = eq x nullopt ∧ nulloptEq x = eq nullopt x
  neNullopt : neNullopt x = ne x nullopt ∧ nulloptNe x = ne nullopt x
  ltNullopt : ltNullopt x = lt less x nullopt ∧ nulloptLt x = lt less nullopt x
  leNullopt : leNullopt x = le less x nullopt ∧ nulloptLe x = le less nullopt x
  gtNullopt : gtNullopt x = gt less x nullopt ∧ nulloptGt x = gt less nullopt x
  geNullopt : geNullopt x = ge less x nullopt ∧ nulloptGe x = ge less nullopt x
  least : lt less x nullopt = some false ∧ lt less nullopt x = some x.hasValue
  eqValue : ∀ v, eqValue x v = eq x ⟨true, some v⟩ ∧ valueEq v x = eq ⟨true, some v⟩ x
  neValue : ∀ v, neValue x v = ne x ⟨true, some v⟩ ∧ valueNe v x = ne ⟨true, some v⟩ x
  ltValue : ∀ v, ltValue less x v = lt less x ⟨true, some v⟩ ∧
    valueLt less v x = lt less ⟨true, some v⟩ x
  leValue : ∀ v, leValue less x v = le less x ⟨true, some v⟩ ∧
    valueLe less v x = le less ⟨true, some v⟩ x
  gtValue : ∀ v, gtValue less x v = gt less x ⟨true, some v⟩ ∧
    valueGt less v x = gt less ⟨true, some v⟩ x
  geValue : ∀ v, geValue less x v = ge less x ⟨true, some v⟩ ∧
    valueGe less v x = ge less ⟨true, some v⟩ x

variable [BEq T] {less : T → T → Bool}

/-! ### Mixed comparisons -/

/-- `==` and `<` with `nullopt` are those with an empty `Optional`. -/
lemma compare_nullopt (less : T → T → Bool) (x : Optional T) :
    (eqNullopt x = eq x nullopt ∧ nulloptEq x = eq nullopt x) ∧
      ltNullopt x = lt less x nullopt ∧ nulloptLt x = lt less nullopt x := by
  obtain ⟨i, p⟩ := x
  cases i <;>
    simp [eqNullopt, nulloptEq, ltNullopt, nulloptLt, eq, lt, nullopt, hasValue]

/-- `==` and `<` with a value are those with an `Optional` of it. -/
lemma compare_value (less : T → T → Bool) (x : Optional T) (v : T) :
    (eqValue x v = eq x ⟨true, some v⟩ ∧ valueEq v x = eq ⟨true, some v⟩ x) ∧
      ltValue less x v = lt less x ⟨true, some v⟩ ∧
        valueLt less v x = lt less ⟨true, some v⟩ x := by
  obtain ⟨i, p⟩ := x
  cases i <;> cases p <;>
    simp [eqValue, valueEq, ltValue, valueLt, eq, lt, hasValue, deref]

/-- The derived operators agree because the two operators they are derived from do. -/
lemma agrees (less : T → T → Bool) (x : Optional T) : Agrees less x := by
  obtain ⟨⟨heq, heq'⟩, hlt, hlt'⟩ := compare_nullopt less x
  refine ⟨⟨heq, heq'⟩, ⟨congrArg neOf heq, congrArg neOf heq'⟩, ⟨hlt, hlt'⟩,
    ⟨congrArg₂ leOf hlt heq, congrArg₂ leOf hlt' heq'⟩,
    ⟨congrArg₂ gtOf hlt heq, congrArg₂ gtOf hlt' heq'⟩,
    ⟨congrArg geOf hlt, congrArg geOf hlt'⟩, ⟨hlt.symm, hlt'.symm⟩, ?_, ?_, ?_, ?_, ?_, ?_⟩ <;>
    intro v <;> obtain ⟨⟨heq, heq'⟩, hlt, hlt'⟩ := compare_value less x v
  · exact ⟨heq, heq'⟩
  · exact ⟨congrArg neOf heq, congrArg neOf heq'⟩
  · exact ⟨hlt, hlt'⟩
  · exact ⟨congrArg₂ leOf hlt heq, congrArg₂ leOf hlt' heq'⟩
  · exact ⟨congrArg₂ gtOf hlt heq, congrArg₂ gtOf hlt' heq'⟩
  · exact ⟨congrArg geOf hlt, congrArg geOf hlt'⟩

/-! ### Two `Optional`s -/

/-- If one of the two is not engaged, the operators are consistent. -/
lemma consistent_of_not_both {x y : Optional T} (h : ¬ (x.hasValue ∧ y.hasValue)) :
    Consistent less x y := by
  obtain ⟨i, p⟩ := x
  obtain ⟨j, q⟩ := y
  constructor <;> cases i <;> cases j <;>
    simp_all [gt, le, ge, ne, neOf, gtOf, leOf, geOf, orElse, andThen, eq, lt, hasValue]

/-- A comparison of two engaged operands has a value only if both point to one. -/
lemma Consistent.deref {x y : Optional T} (hc : Consistent less x y) (hx : x.hasValue)
    (hy : y.hasValue) : ∃ a b, x = ⟨true, some a⟩ ∧ y = ⟨true, some b⟩ := by
  have hdef := hc.defined (eq x y) (by simp)
  obtain ⟨i, p⟩ := x
  obtain ⟨j, q⟩ := y
  cases hx
  cases hy
  cases p <;> cases q <;> simp_all [eq, hasValue, Optional.deref]

/-- On two values the operators are consistent exactly if the values are comparable. -/
lemma consistent_some_iff (hs : StrictOrder less) (a b : T) :
    Consistent less ⟨true, some a⟩ ⟨true, some b⟩ ↔ Comparable less a b := by
  have hlt : lt less ⟨true, some a⟩ ⟨true, some b⟩ = some (less a b) := rfl
  have hlt' : lt less ⟨true, some b⟩ ⟨true, some a⟩ = some (less b a) := rfl
  have heq : eq (⟨true, some a⟩ : Optional T) ⟨true, some b⟩ = some (a == b) := rfl
  have hasymm : less a b = true → less b a = false := by
    intro hab
    by_contra hba
    have haa := hs.trans a b a hab (by simpa using hba)
    rw [hs.irrefl] at haa
    cases haa
  have hexcl : (a == b) = true → less a b = false ∧ less b a = false :=
    fun h => ⟨hs.eq_excludes a b h, hs.eq_excludes b a (hs.eq_symm a b ▸ h)⟩
  constructor
  · -- otherwise each of the two is greater than the other one
    intro hc
    have hgt := hc.gt_iff_lt
    simp only [gt, gtOf, andThen, hlt, hlt', heq] at hgt
    rw [Comparable]
    cases h : less a b <;> cases h' : (a == b) <;> simp_all
  · intro hc
    rw [Comparable] at hc
    constructor <;>
      simp only [gt, le, ge, ne, neOf, gtOf, leOf, geOf, orElse, andThen, hlt, hlt', heq] <;>
      cases h : less a b <;> cases h' : (a == b) <;> simp_all

/-- **The ordering of `Optional`s.**  The mixed comparisons always agree with those of two
`Optional`s, and these are consistent exactly on operands that are not both engaged, or point
to two values that can be compared. -/
theorem consistent_iff (hs : StrictOrder less) (x y : Optional T) :
    (Consistent less x y ↔ (x.hasValue → y.hasValue →
        ∃ a b, x = ⟨true, some a⟩ ∧ y = ⟨true, some b⟩ ∧ Comparable less a b)) ∧
      Agrees less x := by
  refine ⟨⟨?_, ?_⟩, agrees less x⟩
  · intro hc hx hy
    obtain ⟨a, b, rfl, rfl⟩ := hc.deref hx hy
    exact ⟨a, b, rfl, rfl, (consistent_some_iff hs a b).mp hc⟩
  · intro h
    by_cases hboth : x.hasValue ∧ y.hasValue
    · obtain ⟨a, b, rfl, rfl, hab⟩ := h hboth.1 hboth.2
      exact (consistent_some_iff hs a b).mpr hab
    · exact consistent_of_not_both hboth

/-- Proper divisibility, an order in which 2 and 3 cannot be compared. -/
def properlyDivides (a b : ℕ) : Bool := a != b && b % a == 0

lemma properlyDivides_strictOrder : StrictOrder properlyDivides where
  irrefl a := by simp [properlyDivides]
  trans a b c hab hbc := by
    simp only [properlyDivides, Bool.and_eq_true, bne_iff_ne, beq_iff_eq,
      ← Nat.dvd_iff_mod_eq_zero] at hab hbc ⊢
    refine ⟨?_, Nat.dvd_trans hab.2 hbc.2⟩
    rintro rfl
    exact hab.1 (Nat.dvd_antisymm hab.2 hbc.2)
  eq_symm a b := Bool.beq_comm
  eq_excludes a b h := by simp_all [properlyDivides]

theorem consistent_two_six : Consistent properlyDivides ⟨true, some 2⟩ ⟨true, some 6⟩ :=
  (consistent_iff properlyDivides_strictOrder _ _).1.mpr fun _ _ =>
    ⟨2, 6, rfl, rfl, Or.inl rfl⟩

/-- Of two values that cannot be compared each is greater than the other one. -/
theorem greater_both_ways :
    StrictOrder properlyDivides ∧
      gt properlyDivides ⟨true, some 2⟩ ⟨true, some 3⟩ = some true ∧
      gt properlyDivides ⟨true, some 3⟩ ⟨true, some 2⟩ = some true ∧
      ¬ Consistent properlyDivides ⟨true, some 2⟩ ⟨true, some 3⟩ := by
  refine ⟨properlyDivides_strictOrder, rfl, rfl, ?_⟩
  intro hc
  exact absurd hc.gt_iff_lt (by decide)

end AraCore.Optional
