/-
# The representation invariant of `Optional`

`init` and `val` are two fields that every operation has to keep in step.  All of them do,
except the move constructor applied to an engaged source: it leaves `other.init` set over a
null `other.val`.  Accordingly a program keeps all its objects usable exactly when it never
move-constructs from an engaged `Optional`.
-/
import AraCore.Optional.Model

namespace AraCore

/-- No constructor of the element type throws. -/
structure Element.NoThrow {T A ε : Type*} (E : Element T A ε) : Prop where
  copy : ∀ x, ∃ y, E.copy x = .ok y
  move : ∀ x, ∃ y, E.move x = .ok y
  construct : ∀ a, ∃ y, E.construct a = .ok y

namespace Optional

open Lib

variable {T A ε : Type*} {E : Element T A ε}

/-- The representation invariant: the flag is set exactly when the pointer is not null. -/
def RepOk (o : Optional T) : Prop := o.init = true ↔ o.val ≠ none

/-! ## What each operation leaves -/

lemma repOk_nullopt : RepOk (nullopt : Optional T) := by simp [RepOk, nullopt]

lemma repOk_some (x : T) : RepOk (⟨true, some x⟩ : Optional T) := by simp [RepOk]

lemma repOk_none : RepOk (⟨false, none⟩ : Optional T) := by simp [RepOk]

lemma repOk_assignNullopt (o : Optional T) : RepOk (assignNullopt o) := repOk_none

lemma repOk_reset (o : Optional T) : RepOk (reset o) := repOk_none

lemma repOk_swap {a b : Optional T} (ha : RepOk a) (hb : RepOk b) :
    RepOk (swap a b).1 ∧ RepOk (swap a b).2 := ⟨hb, ha⟩

lemma repOk_engage {r : Except ε T} {o : Optional T} (h : engage r = .done o) : RepOk o := by
  cases r with
  | ok y =>
    simp only [engage, Outcome.done.injEq] at h
    exact h ▸ repOk_some y
  | error e => simp [engage] at h

lemma repOk_copyConstruct {o o' : Optional T} (h : copyConstruct E o = .done o') :
    RepOk o' := by
  obtain ⟨i, v⟩ := o
  cases i with
  | false =>
    simp only [copyConstruct, Bool.false_eq_true, if_false, Outcome.done.injEq] at h
    exact h ▸ repOk_none
  | true =>
    cases v with
    | none => simp [copyConstruct] at h
    | some x =>
      cases hx : E.copy x with
      | ok y =>
        simp only [copyConstruct, if_true, hx, Outcome.done.injEq] at h
        exact h ▸ repOk_some y
      | error e => simp [copyConstruct, hx] at h

lemma repOk_copyAssign {a b a' : Optional T} (h : copyAssign E a b = .done a') :
    RepOk a' := by
  obtain ⟨i, v⟩ := b
  cases i with
  | false =>
    simp only [copyAssign, Bool.false_eq_true, if_false, Outcome.done.injEq] at h
    exact h ▸ repOk_none
  | true =>
    cases v with
    | none => simp [copyAssign] at h
    | some x =>
      cases hx : E.copy x with
      | ok y =>
        simp only [copyAssign, if_true, hx, Outcome.done.injEq] at h
        exact h ▸ repOk_some y
      | error e => simp [copyAssign, hx] at h

lemma repOk_moveAssign {a b a' b' : Optional T} (hb : RepOk b)
    (h : moveAssign E a b = .done (a', b')) : RepOk a' ∧ RepOk b' := by
  obtain ⟨i, v⟩ := b
  cases i with
  | false =>
    simp only [moveAssign, Bool.false_eq_true, if_false, Outcome.done.injEq,
      Prod.mk.injEq] at h
    obtain ⟨rfl, rfl⟩ := h
    exact ⟨repOk_none, hb⟩
  | true =>
    cases v with
    | none => simp [moveAssign] at h
    | some x =>
      cases hx : E.move x with
      | ok y =>
        simp only [moveAssign, if_true, hx, Outcome.done.injEq, Prod.mk.injEq] at h
        obtain ⟨rfl, rfl⟩ := h
        exact ⟨repOk_some y, repOk_some _⟩
      | error e => simp [moveAssign, hx] at h

lemma repOk_assignValue {a a' : Optional T} {x x' : T}
    (h : assignValue E a x = .done (a', x')) : RepOk a' := by
  cases hx : E.move x with
  | ok y =>
    simp only [assignValue, hx, Outcome.done.injEq, Prod.mk.injEq] at h
    exact h.1 ▸ repOk_some y
  | error e => simp [assignValue, hx] at h

lemma repOk_assignFrom {a a' : Optional T} {x x' : A}
    (h : assignFrom E a x = .done (a', x')) : RepOk a' := by
  cases hx : E.construct x with
  | ok y =>
    simp only [assignFrom, hx, Outcome.done.injEq, Prod.mk.injEq] at h
    exact h.1 ▸ repOk_some y
  | error e => simp [assignFrom, hx] at h

lemma repOk_emplace {a a' : Optional T} {x x' : A} {c : Category}
    (h : emplace E a x c = .done (a', x')) : RepOk a' := by
  cases hx : E.construct x with
  | ok y =>
    simp only [emplace, hx, Outcome.done.injEq, Prod.mk.injEq] at h
    exact h.1 ▸ repOk_some y
  | error e => simp [emplace, hx] at h

/-- The move constructor keeps the invariant of its source only if the source is empty. -/
lemma repOk_moveConstruct_source {o : Optional T} :
    RepOk (moveConstruct o).2 ↔ o.hasValue = false := by
  obtain ⟨i, v⟩ := o
  cases i <;> simp [RepOk, moveConstruct, hasValue]

/-! ## One step -/

section Step

variable {w w' : Store (Optional T)} {v : ℕ}

lemma all_declare {r : Outcome ε (Optional T) Unit} (hw : w.All RepOk)
    (hr : ∀ o, r = .done o → RepOk o) (h : declare w v r = some w') : w'.All RepOk := by
  cases r with
  | done o =>
    simp only [declare, Option.some.injEq] at h
    exact h ▸ hw.set (hr o rfl) v
  | threw e u =>
    simp only [declare, Option.some.injEq] at h
    exact h ▸ hw
  | nullDeref => simp [declare] at h

lemma all_assign {β : Type*} {r : Outcome ε (Optional T × β) (Optional T)}
    (hw : w.All RepOk) (hr : ∀ o b, r = .done (o, b) → RepOk o)
    (hthrow : ∀ e o, r ≠ .threw e o) (h : assign w v r = some w') : w'.All RepOk := by
  cases r with
  | done o =>
    simp only [assign, Option.some.injEq] at h
    exact h ▸ hw.set (hr o.1 o.2 rfl) v
  | threw e o => exact absurd rfl (hthrow e o)
  | nullDeref => simp [assign] at h

lemma copyAssign_ne_threw (hE : E.NoThrow) (a b : Optional T) (e : ε) (o : Optional T) :
    copyAssign E a b ≠ .threw e o := by
  obtain ⟨i, v⟩ := b
  cases i with
  | false => simp [copyAssign]
  | true =>
    cases v with
    | none => simp [copyAssign]
    | some x =>
      obtain ⟨y, hy⟩ := hE.copy x
      simp [copyAssign, hy]

lemma moveAssign_ne_threw (hE : E.NoThrow) (a b : Optional T) (e : ε) (o : Optional T) :
    moveAssign E a b ≠ .threw e o := by
  obtain ⟨i, v⟩ := b
  cases i with
  | false => simp [moveAssign]
  | true =>
    cases v with
    | none => simp [moveAssign]
    | some x =>
      obtain ⟨y, hy⟩ := hE.move x
      simp [moveAssign, hy]

lemma assignValue_ne_threw (hE : E.NoThrow) (a : Optional T) (x : T) (e : ε)
    (o : Optional T) : assignValue E a x ≠ .threw e o := by
  obtain ⟨y, hy⟩ := hE.move x
  simp [assignValue, hy]

lemma assignFrom_ne_threw (hE : E.NoThrow) (a : Optional T) (x : A) (e : ε)
    (o : Optional T) : assignFrom E a x ≠ .threw e o := by
  obtain ⟨y, hy⟩ := hE.construct x
  simp [assignFrom, hy]

lemma emplace_ne_threw (hE : E.NoThrow) (a : Optional T) (x : A) (c : Category) (e : ε)
    (o : Optional T) : emplace E a x c ≠ .threw e o := by
  obtain ⟨y, hy⟩ := hE.construct x
  simp [emplace, hy]

/-- The operation move-constructs an object from an engaged source. -/
def MovesEngaged (w : Store (Optional T)) : Op T A → Prop
  | .moveConstruct _ u => ∃ o, w u = some o ∧ o.hasValue = true
  | _ => False

lemma guard_eq_some {α : Type*} {b : Bool} {r : Option α} {a : α}
    (h : (if b then none else r) = some a) : r = some a := by
  cases b <;> simp_all

/-- From a state in which the invariant holds, a step keeps it exactly if the step does not
move-construct from an engaged source. -/
lemma step_repOk_iff (hE : E.NoThrow) {op : Op T A} (hw : w.All RepOk)
    (h : step E w op = some w') : w'.All RepOk ↔ ¬ MovesEngaged w op := by
  cases op with
  | moveConstruct v u =>
    obtain ⟨o, ho, rfl⟩ := Option.map_eq_some_iff.mp (guard_eq_some h)
    have hvu : v ≠ u := by
      rintro rfl
      simp [step, ho] at h
    constructor
    · rintro hw' ⟨o', ho', hval⟩
      rw [ho, Option.some.injEq] at ho'
      subst ho'
      have hsrc := hw' u (moveConstruct o).2 (by
        rw [Store.set_of_ne _ _ hvu.symm, Store.set_self])
      rw [repOk_moveConstruct_source, hval] at hsrc
      exact absurd hsrc (by simp)
    · intro hne
      have hval : o.hasValue = false := by
        by_contra hval
        exact hne ⟨o, ho, by simpa using hval⟩
      exact (hw.set (repOk_moveConstruct_source.mpr hval) u).set (hw u o ho) v
  | construct v =>
    have h' := guard_eq_some h
    simp only [Option.some.injEq] at h'
    simpa [MovesEngaged] using h' ▸ hw.set repOk_nullopt v
  | constructCopy v x =>
    simpa [MovesEngaged] using all_declare hw (fun o => repOk_engage) (guard_eq_some h)
  | constructMove v x =>
    simpa [MovesEngaged] using all_declare hw (fun o => repOk_engage) (guard_eq_some h)
  | copyConstruct v u =>
    obtain ⟨o, -, h'⟩ := Option.bind_eq_some_iff.mp (guard_eq_some h)
    simpa [MovesEngaged] using all_declare hw (fun o => repOk_copyConstruct) h'
  | copyAssign v u =>
    obtain ⟨a, -, h'⟩ := Option.bind_eq_some_iff.mp h
    obtain ⟨b, -, h'⟩ := Option.bind_eq_some_iff.mp h'
    cases hr : copyAssign E a b with
    | done a' =>
      simp only [hr, Option.some.injEq] at h'
      simpa [MovesEngaged] using h' ▸ hw.set (repOk_copyAssign hr) v
    | threw e o => exact absurd hr (copyAssign_ne_threw hE a b e o)
    | nullDeref => simp [hr] at h'
  | moveAssign v u =>
    obtain ⟨a, -, h'⟩ := Option.bind_eq_some_iff.mp h
    obtain ⟨b, hb, h'⟩ := Option.bind_eq_some_iff.mp h'
    cases hr : moveAssign E a b with
    | done p =>
      obtain ⟨ha', hb'⟩ := repOk_moveAssign (hw u b hb) hr
      simp only [hr, Option.some.injEq] at h'
      simpa [MovesEngaged] using h' ▸ (hw.set hb' u).set ha' v
    | threw e o => exact absurd hr (moveAssign_ne_threw hE a b e o)
    | nullDeref => simp [hr] at h'
  | assignNullopt v =>
    obtain ⟨a, -, rfl⟩ := Option.map_eq_some_iff.mp h
    simpa [MovesEngaged] using hw.set (repOk_assignNullopt a) v
  | assignValue v x =>
    obtain ⟨a, -, h'⟩ := Option.bind_eq_some_iff.mp h
    simpa [MovesEngaged] using all_assign hw (fun o b => repOk_assignValue)
      (assignValue_ne_threw hE a x) h'
  | assignFrom v x =>
    obtain ⟨a, -, h'⟩ := Option.bind_eq_some_iff.mp h
    simpa [MovesEngaged] using all_assign hw (fun o b => repOk_assignFrom)
      (assignFrom_ne_threw hE a x) h'
  | emplace v x c =>
    obtain ⟨a, -, h'⟩ := Option.bind_eq_some_iff.mp h
    simpa [MovesEngaged] using all_assign hw (fun o b => repOk_emplace)
      (emplace_ne_threw hE a x c) h'
  | emplaceList v x c =>
    obtain ⟨a, -, h'⟩ := Option.bind_eq_some_iff.mp h
    simpa [MovesEngaged] using all_assign hw (fun o b => repOk_emplace)
      (emplace_ne_threw hE a x c) h'
  | reset v =>
    obtain ⟨a, -, rfl⟩ := Option.map_eq_some_iff.mp h
    simpa [MovesEngaged] using hw.set (repOk_reset a) v
  | swap v u =>
    obtain ⟨a, ha, h'⟩ := Option.bind_eq_some_iff.mp h
    obtain ⟨b, hb, rfl⟩ := Option.map_eq_some_iff.mp h'
    obtain ⟨ha', hb'⟩ := repOk_swap (hw v a ha) (hw u b hb)
    simpa [MovesEngaged] using (hw.set hb' u).set ha' v
  | destroy v =>
    obtain ⟨a, -, rfl⟩ := Option.map_eq_some_iff.mp h
    simpa [MovesEngaged] using hw.erase v

end Step

/-! ## Whole programs -/

/-- What users of an object rely on: the invariant, and that no observer of an object that
claims a value, and no copy or comparison, dereferences null. -/
structure Usable [BEq T] (E : Element T A ε) (w : Store (Optional T)) : Prop where
  rep : w.All RepOk
  deref : ∀ v o, w v = some o → o.hasValue = true → ∃ x, o.deref = some x
  valueOr : ∀ v o (x : A), w v = some o → o.valueOr E x ≠ .nullDeref
  copy : ∀ v o, w v = some o → copyConstruct E o ≠ .nullDeref
  eq : ∀ v u o o', w v = some o → w u = some o' → ∃ b, o.eq o' = some b

section Observers

variable {o o' : Optional T}

lemma exists_deref (h : RepOk o) (hval : o.hasValue = true) : ∃ x, o.deref = some x :=
  Option.ne_none_iff_exists'.mp (h.mp hval)

lemma valueOr_ne_nullDeref (h : RepOk o) (x : A) : o.valueOr E x ≠ .nullDeref := by
  cases hval : o.hasValue with
  | false => cases hx : E.construct x <;> simp [valueOr, hval, hx]
  | true =>
    obtain ⟨y, hy⟩ := exists_deref h hval
    cases hx : E.copy y <;> simp [valueOr, hval, hy, hx]

lemma copyConstruct_ne_nullDeref (h : RepOk o) : copyConstruct E o ≠ .nullDeref := by
  cases hval : o.init with
  | false => simp [copyConstruct, hval]
  | true =>
    obtain ⟨y, hy⟩ := Option.ne_none_iff_exists'.mp (h.mp hval)
    cases hx : E.copy y <;> simp [copyConstruct, hval, hy, hx]

lemma exists_eq [BEq T] (h : RepOk o) (h' : RepOk o') : ∃ b, o.eq o' = some b := by
  by_cases hne : o.hasValue = o'.hasValue
  · cases hval : o.hasValue with
    | false => exact ⟨true, by simp [Optional.eq, ← hne, hval]⟩
    | true =>
      obtain ⟨x, hx⟩ := exists_deref h hval
      obtain ⟨y, hy⟩ := exists_deref h' (hne ▸ hval)
      exact ⟨x == y, by simp [Optional.eq, ← hne, hval, hx, hy]⟩
  · exact ⟨false, by simp [Optional.eq, hne]⟩

end Observers

lemma usable_iff [BEq T] {w : Store (Optional T)} : Usable E w ↔ w.All RepOk := by
  refine ⟨Usable.rep, fun h => ⟨h, ?_, ?_, ?_, ?_⟩⟩
  · exact fun v o ho => exists_deref (h v o ho)
  · exact fun v o x ho => valueOr_ne_nullDeref (h v o ho) x
  · exact fun v o ho => copyConstruct_ne_nullDeref (h v o ho)
  · exact fun v u o o' ho ho' => exists_eq (h v o ho) (h u o' ho')

/-- **A program keeps every `Optional` usable exactly if it never move-constructs from an
engaged one.** -/
theorem always_usable_iff [BEq T] (E : Element T A ε) (hE : E.NoThrow) (ops : List (Op T A)) :
    Run.Always (step E) (Usable E) Store.empty ops ↔
      Run.Along (step E) (fun w op => ¬ MovesEngaged w op) Store.empty ops := by
  refine Run.always_iff_along (I := fun _ => True) ?_ trivial
    (usable_iff.mpr Store.all_empty) ops
  intro w op w' _ hw h
  rw [usable_iff]
  exact ⟨trivial, step_repOk_iff hE hw.rep h⟩

/-- An element type for examples: numbers, of which a moved-from one is zero. -/
def natElement : Element ℕ ℕ Empty where
  copy x := .ok x
  move x := .ok x
  movedFrom _ := 0
  construct x := .ok x
  movedArg _ := 0

lemma natElement_noThrow : natElement.NoThrow :=
  ⟨fun x => ⟨x, rfl⟩, fun x => ⟨x, rfl⟩, fun x => ⟨x, rfl⟩⟩

theorem always_usable_swap :
    Run.Always (step natElement) (Usable natElement) Store.empty
      [.constructCopy 0 7, .construct 1, .swap 0 1, .copyConstruct 2 1] :=
  (always_usable_iff natElement natElement_noThrow _).mpr (by simp [Run.Along, MovesEngaged])

/-- After `Optional<int> b(std::move(a))` with `a` holding 7, `a` still claims a value, and
copying it dereferences null. -/
theorem moved_from_claims_value :
    ¬ Run.Always (step natElement) (Usable natElement) Store.empty
        [.constructCopy 0 7, .moveConstruct 1 0] ∧
      (∃ w, Run.run (step natElement) Store.empty [.constructCopy 0 7, .moveConstruct 1 0]
        = some w ∧ w 0 = some ⟨true, none⟩) ∧
      Run.run (step natElement) Store.empty
        [.constructCopy 0 7, .moveConstruct 1 0, .copyConstruct 2 0] = none := by
  refine ⟨fun h => ?_, ⟨_, rfl, rfl⟩, rfl⟩
  have hw := h.last (t := _) rfl
  obtain ⟨x, hx⟩ := hw.deref 0 ⟨true, none⟩ rfl rfl
  exact absurd hx (by simp [Optional.deref])

end Optional
end AraCore
