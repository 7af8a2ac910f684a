/-
# Constructors of the element type that throw

Assignment and `emplace` set `init` before they call a constructor of `T`, and `val` after it.
So what a throwing constructor leaves behind depends on whether the object already owned a
value, which an assignment keeps and an `emplace` has given up by then.
-/
import AraCore.Optional.Invariant

namespace AraCore.Optional

open Lib

variable {T A ε : Type*} {E : Element T A ε}

/-! ## Operations that throw -/

/-- The constructor that the operation calls throws, and leaves the object `v`, which was `o`,
as `o'`. -/
inductive Throws (E : Element T A ε) (w : Store (Optional T)) :
    Op T A → ℕ → Optional T → Optional T → Prop
  | copyAssign {v u : ℕ} {o rhs o' : Optional T} {e : ε} : w v = some o → w u = some rhs →
      copyAssign E o rhs = .threw e o' → Throws E w (.copyAssign v u) v o o'
  | moveAssign {v u : ℕ} {o rhs o' : Optional T} {e : ε} : w v = some o → w u = some rhs →
      moveAssign E o rhs = .threw e o' → Throws E w (.moveAssign v u) v o o'
  | assignValue {v : ℕ} {x : T} {o o' : Optional T} {e : ε} : w v = some o →
      assignValue E o x = .threw e o' → Throws E w (.assignValue v x) v o o'
  | assignFrom {v : ℕ} {a : A} {o o' : Optional T} {e : ε} : w v = some o →
      assignFrom E o a = .threw e o' → Throws E w (.assignFrom v a) v o o'
  | emplace {v : ℕ} {a : A} {c : Category} {o o' : Optional T} {e : ε} : w v = some o →
      emplace E o a c = .threw e o' → Throws E w (.emplace v a c) v o o'
  | emplaceList {v : ℕ} {a : A} {c : Category} {o o' : Optional T} {e : ε} : w v = some o →
      emplaceList E o a c = .threw e o' → Throws E w (.emplaceList v a c) v o o'

/-- The operation is one of the two overloads of `emplace`. -/
def Op.isEmplace : Op T A → Bool
  | .emplace _ _ _ | .emplaceList _ _ _ => true
  | _ => false

/-- What users of an object rely on after an operation on it has thrown: the invariant; after
an assignment the old value, and after an `emplace` none. -/
structure Safe (op : Op T A) (o o' : Optional T) : Prop where
  rep : RepOk o'
  assigned : op.isEmplace = false → o'.hasValue = o.hasValue ∧ o'.deref = o.deref
  emplaced : op.isEmplace = true → o'.hasValue = false ∧ o'.deref = none

/-! ## What a throwing constructor leaves -/

section Left

variable {o rhs o' : Optional T} {x : T} {a : A} {c : Category} {e : ε}

lemma left_copyAssign (h : copyAssign E o rhs = .threw e o') : o' = ⟨true, o.val⟩ := by
  obtain ⟨i, p⟩ := rhs
  cases i with
  | false => simp [copyAssign] at h
  | true =>
    cases p with
    | none => simp [copyAssign] at h
    | some y =>
      cases hy : E.copy y <;> simp [copyAssign, hy] at h
      exact h.2.symm

lemma left_moveAssign (h : moveAssign E o rhs = .threw e o') : o' = ⟨true, o.val⟩ := by
  obtain ⟨i, p⟩ := rhs
  cases i with
  | false => simp [moveAssign] at h
  | true =>
    cases p with
    | none => simp [moveAssign] at h
    | some y =>
      cases hy : E.move y <;> simp [moveAssign, hy] at h
      exact h.2.symm

lemma left_assignValue (h : assignValue E o x = .threw e o') : o' = ⟨true, o.val⟩ := by
  cases hx : E.move x <;> simp [assignValue, hx] at h
  exact h.2.symm

lemma left_assignFrom (h : assignFrom E o a = .threw e o') : o' = ⟨true, o.val⟩ := by
  cases ha : E.construct a <;> simp [assignFrom, ha] at h
  exact h.2.symm

lemma left_emplace (h : emplace E o a c = .threw e o') : o' = ⟨true, none⟩ := by
  cases ha : E.construct a <;> simp [emplace, ha, assignNullopt] at h
  exact h.2.symm

end Left

variable {w w' : Store (Optional T)} {op : Op T A} {v : ℕ} {o o' : Optional T}

/-- The flag is set in any case; an assignment keeps the value, an `emplace` does not. -/
lemma Throws.left_eq (h : Throws E w op v o o') :
    w v = some o ∧ o' = ⟨true, if op.isEmplace then none else o.val⟩ := by
  cases h with
  | copyAssign hv _ h => exact ⟨hv, left_copyAssign h⟩
  | moveAssign hv _ h => exact ⟨hv, left_moveAssign h⟩
  | assignValue hv h => exact ⟨hv, left_assignValue h⟩
  | assignFrom hv h => exact ⟨hv, left_assignFrom h⟩
  | emplace hv h | emplaceList hv h => exact ⟨hv, left_emplace h⟩

/-- The step of a program in which the constructor throws. -/
lemma Throws.step_eq (h : Throws E w op v o o') : step E w op = some (w.set v o') := by
  cases h with
  | copyAssign hv hu h | moveAssign hv hu h => simp [step, hv, hu, h]
  | assignValue hv h | assignFrom hv h | emplace hv h | emplaceList hv h =>
    simp [step, hv, h, assign]

/-! ## Reachable objects -/

/-- No object owns a value without saying so. -/
def Claimed (o : Optional T) : Prop := o.init = false → o.val = none

lemma RepOk.claimed (h : RepOk o) : Claimed o := by
  intro hi
  by_contra hne
  rw [h.mpr hne] at hi
  cases hi

lemma claimed_declare {r : Outcome ε (Optional T) Unit} (hw : w.All Claimed)
    (hr : ∀ o, r = .done o → RepOk o) (h : declare w v r = some w') : w'.All Claimed := by
  cases r with
  | done o =>
    simp only [declare, Option.some.injEq] at h
    exact h ▸ hw.set (hr o rfl).claimed v
  | threw e u =>
    simp only [declare, Option.some.injEq] at h
    exact h ▸ hw
  | nullDeref => cases h

lemma claimed_assign {β : Type*} {r : Outcome ε (Optional T × β) (Optional T)}
    (hw : w.All Claimed) (hdone : ∀ o b, r = .done (o, b) → RepOk o)
    (hthrew : ∀ e o, r = .threw e o → Claimed o) (h : assign w v r = some w') :
    w'.All Claimed := by
  cases r with
  | done o =>
    simp only [assign, Option.some.injEq] at h
    exact h ▸ hw.set (hdone o.1 o.2 rfl).claimed v
  | threw e o =>
    simp only [assign, Option.some.injEq] at h
    exact h ▸ hw.set (hthrew e o rfl) v
  | nullDeref => cases h

lemma claimed_of_eq {p : Option T} (h : o' = ⟨true, p⟩) : Claimed o' := by
  subst h
  exact Bool.noConfusion

/-- Whatever throws, no step leaves a value behind that is not claimed. -/
lemma step_claimed (hw : w.All Claimed) (h : step E w op = some w') : w'.All Claimed := by
  cases op with
  | construct v =>
    have h := guard_eq_some h
    simp only [Option.some.injEq] at h
    exact h ▸ hw.set repOk_nullopt.claimed v
  | constructCopy v x => exact claimed_declare hw (fun o => repOk_engage) (guard_eq_some h)
  | constructMove v x => exact claimed_declare hw (fun o => repOk_engage) (guard_eq_some h)
  | copyConstruct v u =>
    obtain ⟨o, -, h⟩ := Option.bind_eq_some_iff.mp (guard_eq_some h)
    exact claimed_declare hw (fun o => repOk_copyConstruct) h
  | moveConstruct v u =>
    obtain ⟨o, ho, rfl⟩ := Option.map_eq_some_iff.mp (guard_eq_some h)
    exact (hw.set (fun _ => rfl) u).set (hw u o ho) v
  | copyAssign v u =>
    obtain ⟨a, -, h⟩ := Option.bind_eq_some_iff.mp h
    obtain ⟨b, -, h⟩ := Option.bind_eq_some_iff.mp h
    split at h
    · next hr =>
      cases h
      exact hw.set (repOk_copyAssign hr).claimed v
    · next hr =>
      cases h
      exact hw.set (claimed_of_eq (left_copyAssign hr)) v
    · cases h
  | moveAssign v u =>
    obtain ⟨a, -, h⟩ := Option.bind_eq_some_iff.mp h
    obtain ⟨b, hb, h⟩ := Option.bind_eq_some_iff.mp h
    split at h
    · next a' b' hr =>
      cases h
      -- the source either is as before or holds what was moved from
      have hsrc : Claimed a' ∧ Claimed b' := by
        obtain ⟨i, p⟩ := b
        cases i with
        | false =>
          simp only [moveAssign, Bool.false_eq_true, if_false, Outcome.done.injEq,
            Prod.mk.injEq] at hr
          obtain ⟨rfl, rfl⟩ := hr
          exact ⟨repOk_none.claimed, hw u _ hb⟩
        | true =>
          cases p with
          | none => simp [moveAssign] at hr
          | some x =>
            obtain ⟨ha, hb⟩ := repOk_moveAssign (repOk_some x) hr
            exact ⟨ha.claimed, hb.claimed⟩
      exact (hw.set hsrc.2 u).set hsrc.1 v
    · next hr =>
      cases h
      exact hw.set (claimed_of_eq (left_moveAssign hr)) v
    · cases h
  | assignNullopt v =>
    obtain ⟨a, -, rfl⟩ := Option.map_eq_some_iff.mp h
    exact hw.set (repOk_assignNullopt a).claimed v
  | assignValue v x =>
    obtain ⟨a, -, h⟩ := Option.bind_eq_some_iff.mp h
    exact claimed_assign hw (fun o b => repOk_assignValue)
      (fun e o hr => claimed_of_eq (left_assignValue hr)) h
  | assignFrom v x =>
    obtain ⟨a, -, h⟩ := Option.bind_eq_some_iff.mp h
    exact claimed_assign hw (fun o b => repOk_assignFrom)
      (fun e o hr => claimed_of_eq (left_assignFrom hr)) h
  | emplace v x c | emplaceList v x c =>
    obtain ⟨a, -, h⟩ := Option.bind_eq_some_iff.mp h
    exact claimed_assign hw (fun o b => repOk_emplace)
      (fun e o hr => claimed_of_eq (left_emplace hr)) h
  | reset v =>
    obtain ⟨a, -, rfl⟩ := Option.map_eq_some_iff.mp h
    exact hw.set (repOk_reset a).claimed v
  | swap v u =>
    obtain ⟨a, ha, h⟩ := Option.bind_eq_some_iff.mp h
    obtain ⟨b, hb, rfl⟩ := Option.map_eq_some_iff.mp h
    exact (hw.set (hw v a ha) u).set (hw u b hb) v
  | destroy v =>
    obtain ⟨a, -, rfl⟩ := Option.map_eq_some_iff.mp h
    exact hw.erase v

lemma run_claimed {ops : List (Op T A)} (hrun : Run.run (step E) Store.empty ops = some w) :
    w.All Claimed :=
  (Run.Always.of_step (fun _ _ _ hw h => step_claimed hw h) Store.all_empty ops).last hrun

/-- **Exception safety.**  In every state that a program reaches, whatever has thrown before, an
operation whose constructor throws leaves the object as it should exactly if the operation is an
assignment and the object owned a value before. -/
theorem safe_iff (E : Element T A ε) (ops : List (Op T A)) (w : Store (Optional T))
    (hrun : Run.run (step E) Store.empty ops = some w) (op : Op T A) (v : ℕ) (o o' : Optional T)
    (h : Throws E w op v o o') :
    step E w op = some (w.set v o') ∧
      (Safe op o o' ↔ op.isEmplace = false ∧ o.deref ≠ none) := by
  obtain ⟨hv, rfl⟩ := h.left_eq
  have hclaimed : Claimed o := run_claimed hrun v o hv
  refine ⟨h.step_eq, ?_⟩
  cases hop : op.isEmplace with
  | true =>
    refine iff_of_false (fun hs => ?_) (by simp)
    exact absurd (hs.emplaced hop).1 (by simp [hasValue])
  | false =>
    simp only [Bool.false_eq_true, if_false, true_and]
    constructor
    · exact fun hs => hs.rep.mp rfl
    · intro hne
      refine ⟨by simpa [RepOk, deref] using hne, fun _ => ⟨?_, rfl⟩, by simp [hop]⟩
      -- an object that owned a value also said so
      cases hi : o.init with
      | true => simp [hasValue, hi]
      | false => exact absurd (hclaimed hi) hne

/-- An element type for examples, whose copy constructor throws on zero. -/
def throwingElement : Element ℕ ℕ Unit where
  copy x := if x = 0 then .error () else .ok x
  move x := .ok x
  movedFrom _ := 0
  construct x := if x = 0 then .error () else .ok x
  movedArg _ := 0

theorem safe_copyAssign_engaged :
    step throwingElement (w := (Store.empty.set 0 ⟨true, some 5⟩).set 1 ⟨true, some 0⟩)
        (.copyAssign 0 1) = some (((Store.empty.set 0 ⟨true, some 5⟩).set 1 ⟨true, some 0⟩).set 0
          ⟨true, some 5⟩) ∧
      (Safe (.copyAssign 0 1 : Op ℕ ℕ) ⟨true, some 5⟩ ⟨true, some 5⟩ ↔
        (.copyAssign 0 1 : Op ℕ ℕ).isEmplace = false ∧
          (⟨true, some 5⟩ : Optional ℕ).deref ≠ none) :=
  safe_iff throwingElement [.constructMove 0 5, .constructMove 1 0] _ rfl (.copyAssign 0 1) 0 _ _
    (.copyAssign rfl rfl rfl)

/-- Assigning a value whose constructor throws to an empty object, or emplacing one in any
object, leaves an object that claims a value it does not have. -/
theorem empty_claims_value :
    (∃ w o', Run.run (step throwingElement) Store.empty [.construct 0, .constructMove 1 0] =
        some w ∧ Throws throwingElement w (.copyAssign 0 1) 0 nullopt o' ∧
      ¬ Safe (.copyAssign 0 1 : Op ℕ ℕ) nullopt o') ∧
    ∃ w o', Run.run (step throwingElement) Store.empty [.constructMove 0 5] = some w ∧
      Throws throwingElement w (.emplace 0 0 .lvalue) 0 ⟨true, some 5⟩ o' ∧
      ¬ Safe (.emplace 0 0 .lvalue : Op ℕ ℕ) ⟨true, some 5⟩ o' := by
  refine ⟨⟨_, ⟨true, none⟩, rfl, .copyAssign rfl rfl rfl, ?_⟩,
    ⟨_, ⟨true, none⟩, rfl, .emplace rfl rfl, ?_⟩⟩
  · exact fun hs => hs.rep.mp rfl rfl
  · exact fun hs => hs.rep.mp rfl rfl

end AraCore.Optional
