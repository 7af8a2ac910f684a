/-
# When the dispatch on an index fails

The recursion of `call_at_index` ends in an `assert` for an index that names no alternative.
Its callers ask before whether the index is valid, except the converting `operator=`, which
relies on its temporary to hold something; a `const` rvalue makes it copy a valueless variant.
-/
import AraCore.Variant.Refinement

namespace AraCore.Variant

open Lib

variable {τ V : Type*} {A : Alternatives τ V} {w w' : World τ V} {l r : Loc} {i : ℕ}
  {P Q : World τ V → Prop} {res : Except Fault (World τ V)} {a : Arg τ V}

/-- The index names an alternative or none. -/
def InRange (A : Alternatives τ V) (i : ℕ) : Prop := i = invalidVariantIndex ∨ i < A.types.length

/-- All indices do. -/
def IndexOk (A : Alternatives τ V) (w : World τ V) : Prop := ∀ l, InRange A (w.typeIndex l)

/-- The `assert` does not fail, and what results is a world with `Q`. -/
def Dispatches (Q : World τ V → Prop) : Except Fault (World τ V) → Prop
  | .ok w => Q w
  | .error f => f ≠ .assertFailed

lemma Dispatches.mono (h : Dispatches P res) (hPQ : ∀ w, P w → Q w) : Dispatches Q res := by
  cases res with
  | ok w => exact hPQ w h
  | error f => exact h

lemma Dispatches.bind {f : World τ V → Except Fault (World τ V)} (h : Dispatches P res)
    (hf : ∀ w, P w → Dispatches Q (f w)) : Dispatches Q (res >>= f) := by
  cases res with
  | ok w => exact hf w h
  | error f => exact h

lemma IndexOk.setIndex (hw : IndexOk A w) (l : Loc) (hi : InRange A i) :
    IndexOk A (w.setIndex l i) := by
  intro k
  by_cases hk : k = l
  · rw [hk, typeIndex_setIndex_self]
    exact hi
  · rw [typeIndex_setIndex_of_ne w i hk]
    exact hw k

lemma IndexOk.of_index_eq (hw : IndexOk A w) (h : w'.index = w.index) : IndexOk A w' := by
  intro l
  rw [World.typeIndex, h]
  exact hw l

lemma IndexOk.of_update (hw : IndexOk A w) (hi : InRange A i)
    (h : w'.index = Function.update w.index l (some i)) : IndexOk A w' :=
  (hw.setIndex l hi).of_index_eq h

lemma IndexOk.lt (hw : IndexOk A w) (h : w.typeIndex l ≠ invalidVariantIndex) :
    w.typeIndex l < A.types.length :=
  (hw l).resolve_left h

lemma indexOk_empty : IndexOk A (World.empty : World τ V) := fun _ => Or.inl rfl

/-! ## The dispatch itself -/

/-- An index in range reaches its alternative, and no other index reaches one. -/
lemma callAtIndex_eq_type (A : Alternatives τ V) (w : World τ V) (i : ℕ) (op : τ → Mem Loc τ V) :
    callAtIndex A w i op = match A.types[i]? with
      | some T => .ok { w with mem := op T }
      | none => .error .assertFailed := by
  rw [callAtIndex, callAtIndex_zero]
  cases A.types[i]? <;> rfl

lemma dispatches_callAtIndex (w : World τ V) (hi : i < A.types.length)
    (op : τ → Mem Loc τ V) :
    Dispatches (fun w' => w'.index = w.index) (callAtIndex A w i op) := by
  rw [callAtIndex_eq_type, List.getElem?_eq_getElem hi]
  rfl

section Members

variable [DecidableEq τ]

lemma dispatches_callElementDestructor (hw : IndexOk A w) (l : Loc) :
    Dispatches (fun w' => w'.index = w.index) (callElementDestructor A w l) := by
  rw [callElementDestructor]
  split
  · next hne => exact dispatches_callAtIndex w (hw.lt hne) _
  · rfl

lemma dispatches_destroy (hw : IndexOk A w) (l : Loc) :
    Dispatches (IndexOk A) (destroy A w l) := by
  refine (dispatches_callElementDestructor hw l).bind fun w₁ hw₁ k => ?_
  by_cases hk : k = l
  · exact Or.inl (by simp [World.typeIndex, hk])
  · have hk₁ : Function.update w₁.index l none k = w.index k := by
      rw [Function.update_of_ne hk, hw₁]
    change InRange A ((Function.update w₁.index l none k).getD invalidVariantIndex)
    rw [hk₁]
    exact hw k

lemma dispatches_copyConstruct (hw : IndexOk A w) (l r : Loc) :
    Dispatches (fun w' => w'.index = Function.update w.index l (some (w.typeIndex r)))
      (copyConstruct A w l r) := by
  rw [copyConstruct]
  split
  · next hne => exact dispatches_callAtIndex _ ((hw.setIndex l (hw r)).lt hne) _
  · rfl

lemma dispatches_copyAssign (hw : IndexOk A w) (l r : Loc) :
    Dispatches (IndexOk A) (copyAssign A w l r) := by
  rw [copyAssign]
  split
  · split
    · refine (dispatches_callElementDestructor hw l).bind fun w₁ hw₁ => ?_
      have hw₁ := hw.of_index_eq hw₁
      exact (dispatches_copyConstruct hw₁ l r).mono fun w₂ hw₂ => hw₁.of_update (hw₁ r) hw₂
    · split
      · next hne =>
        exact (dispatches_callAtIndex w (hw.lt hne) _).mono fun w₁ => hw.of_index_eq
      · exact hw
  · exact hw

lemma dispatches_moveConstruct (hw : IndexOk A w) (l r : Loc) :
    Dispatches (IndexOk A) (moveConstruct A w l r) := by
  rw [moveConstruct]
  split
  · next hne =>
    refine (dispatches_callAtIndex _ ((hw.setIndex l (hw r)).lt hne) _).bind fun w₁ hw₁ => ?_
    exact (hw.of_update (hw r) hw₁).setIndex r (Or.inl rfl)
  · exact (hw.setIndex l (hw r)).setIndex r (Or.inl rfl)

lemma dispatches_moveAssign (hw : IndexOk A w) (l r : Loc) :
    Dispatches (IndexOk A) (moveAssign A w l r) := by
  by_cases hlr : l = r
  · rw [moveAssign, if_neg (not_not.mpr hlr)]
    exact hw
  · by_cases hidx : w.typeIndex l = w.typeIndex r
    · rw [moveAssign, if_pos hlr, if_neg (not_not.mpr hidx)]
      split
      · next hne =>
        refine (dispatches_callAtIndex w (hw.lt hne) _).bind fun w₁ hw₁ => ?_
        exact (hw.of_index_eq hw₁).setIndex r (Or.inl rfl)
      · exact hw.setIndex r (Or.inl rfl)
    · rw [moveAssign_of_index_ne hlr hidx]
      refine Dispatches.bind (P := IndexOk A) ?_ fun w₁ hw₁ => ?_
      · refine (dispatches_callElementDestructor hw l).bind fun w₁ hw₁ => ?_
        exact dispatches_moveConstruct (hw.of_index_eq hw₁) l r
      · exact IndexOk.setIndex hw₁ r (Or.inl rfl)

lemma dispatches_constructFrom (w : World τ V) (l : Loc) (t : τ) (a : Arg τ V) :
    Dispatches (fun w' => w'.index = w.index) (constructFrom A w l t a) := by
  rw [constructFrom]
  cases a with
  | value u x => rfl
  | ref v c =>
    simp only [argument]
    split
    · exact Fault.noConfusion
    · split
      · cases c <;> rfl
      · exact Fault.noConfusion

lemma selectedFor_lt {T t : τ} (h : selectedFor A T = some (i, t)) : i < A.types.length :=
  (List.getElem?_eq_some_iff.mp (selectedFor_type h)).1

/-- A converting construction sets the index to that of an alternative. -/
lemma dispatches_convertConstruct (w : World τ V) (l : Loc) (a : Arg τ V) :
    Dispatches (fun w' => ∃ i < A.types.length, w'.index = Function.update w.index l (some i))
      (convertConstruct A w l a) := by
  rw [convertConstruct]
  have harg : ∀ e, argument w a = .error e → e ≠ .assertFailed := by
    intro e he
    cases a with
    | value u x => cases he
    | ref v c =>
      simp only [argument] at he
      split at he
      · cases he
        exact Fault.noConfusion
      · split at he
        · cases he
        · cases he
          exact Fault.noConfusion
  cases ha : argument w a with
  | error e => exact harg e ha
  | ok ux =>
    change Dispatches _ (if TDetail.valid A.convertible ux.1 A.types = true then _ else _)
    split
    · next hv =>
      cases ht : TDetail.varType A.convertible ux.1 A.types with
      | none => exact Fault.noConfusion
      | some t =>
        have hs : selectedFor A ux.1 = some (TDetail.varIndex A.convertible ux.1 A.types, t) := by
          rw [selectedFor, if_pos hv, ht]
          rfl
        refine (dispatches_constructFrom _ l t a).mono fun w' hw' => ?_
        exact ⟨_, selectedFor_lt hs, hw'⟩
    · exact Fault.noConfusion

/-- The second part of a converting assignment needs a temporary that holds something. -/
lemma dispatches_assignTemp (hw : IndexOk A w) (l : Loc)
    (ht : w.typeIndex .temp ≠ invalidVariantIndex) :
    Dispatches (IndexOk A) (assignTemp A w l) := by
  rw [assignTemp_eq]
  refine (dispatches_callElementDestructor hw l).bind fun w₁ hw₁ => ?_
  have hok := hw.of_index_eq hw₁
  have ht₁ : w₁.typeIndex .temp ≠ invalidVariantIndex := by
    rw [World.typeIndex, hw₁]
    exact ht
  refine (dispatches_callAtIndex w₁ (hok.lt ht₁) _).bind fun w₂ hw₂ => ?_
  have hok₂ := hok.of_index_eq hw₂
  exact dispatches_destroy (hok₂.setIndex l (hok₂ .temp)) .temp

lemma dispatches_convertAssign (hw : IndexOk A w) (l : Loc) (a : Arg τ V) :
    Dispatches (IndexOk A) (convertAssign A w l a) := by
  refine (dispatches_convertConstruct w .temp a).bind fun w₁ hw₁ => ?_
  obtain ⟨i, hi, hw₁⟩ := hw₁
  refine dispatches_assignTemp (hw.of_update (Or.inr hi) hw₁) l ?_
  rw [World.typeIndex, hw₁, Function.update_self, Option.getD_some]
  exact A.index_ne_invalid (List.getElem?_eq_getElem hi)

lemma dispatches_emplace (hw : IndexOk A w) (l : Loc) (s : Selector τ) (list : Bool)
    (a : Arg τ V) : Dispatches (IndexOk A) (emplace A w l s list a) := by
  rw [emplace_eq]
  cases hs : selected A s with
  | none => exact Fault.noConfusion
  | some it =>
    refine (dispatches_callElementDestructor hw l).bind fun w₁ hw₁ => ?_
    refine (dispatches_constructFrom w₁ l it.2 a).bind fun w₂ hw₂ => ?_
    have hi := (List.getElem?_eq_some_iff.mp (selected_type (A := A) (i := it.1) (t := it.2) hs)).1
    exact ((hw.of_index_eq hw₁).of_index_eq hw₂).setIndex l (Or.inr hi)

lemma dispatches_stdSwap (hw : IndexOk A w) (l r : Loc) :
    Dispatches (IndexOk A) (stdSwap A w l r) :=
  (dispatches_moveConstruct hw .temp l).bind fun _ hw₁ =>
    (dispatches_moveAssign hw₁ l r).bind fun _ hw₂ =>
      (dispatches_moveAssign hw₂ r .temp).bind fun _ hw₃ => dispatches_destroy hw₃ .temp

/-! ## The call without a check -/

lemma dispatches_constMoveAssign (hw : IndexOk A w) (l r : Loc)
    (hr : w.valuelessByException r = false) :
    Dispatches (IndexOk A) (constMoveAssign A w l r) := by
  refine (dispatches_copyConstruct hw .temp r).bind fun w₁ hw₁ => ?_
  refine dispatches_assignTemp (hw.of_update (hw r) hw₁) l ?_
  rw [World.typeIndex, hw₁, Function.update_self, Option.getD_some]
  simpa [World.valuelessByException] using hr

/-- The temporary of a converting assignment is a copy of the valueless variant, and is moved
from all the same. -/
lemma constMoveAssign_valueless (hw : IndexOk A w) (v : ℕ)
    (hr : w.valuelessByException r = true) :
    constMoveAssign A w (.named v) r = .error .assertFailed := by
  have hr : w.typeIndex r = invalidVariantIndex := by
    simpa [World.valuelessByException] using hr
  have hcopy : copyConstruct A w .temp r = .ok (w.setIndex .temp invalidVariantIndex) := by
    simp [copyConstruct, hr]
  have hok : IndexOk A (w.setIndex .temp invalidVariantIndex) := hw.setIndex _ (Or.inl rfl)
  rw [constMoveAssign, hcopy]
  change assignTemp A (w.setIndex .temp invalidVariantIndex) (.named v) = _
  rw [assignTemp_eq]
  have hdes := dispatches_callElementDestructor hok (.named v)
  cases hres : callElementDestructor A (w.setIndex .temp invalidVariantIndex) (.named v) with
  | error f =>
    -- the destructor of the target is called with an index in range
    rw [callElementDestructor] at hres
    split at hres
    · next hne =>
      rw [destructor, callAtIndex_eq_type, List.getElem?_eq_getElem (hok.lt hne)] at hres
      cases hres
    · cases hres
  | ok w₁ =>
    rw [hres] at hdes
    have ht : w₁.typeIndex .temp = invalidVariantIndex := by
      rw [World.typeIndex, show w₁.index = _ from hdes]
      exact typeIndex_setIndex_self w .temp _
    change moveConstructor A w₁ (w₁.typeIndex .temp) .temp (.named v) >>= _ = _
    rw [ht, moveConstructor, callAtIndex_invalid]
    rfl

end Members

/-! ## Programs -/

/-- The operation assigns from a valueless variant that is a `const` rvalue. -/
def assignsConstValueless (w : World τ V) : Op τ V → Bool
  | .constMoveAssign _ u => w.valuelessByException (.named u)
  | _ => false

variable [DecidableEq τ]

lemma dispatches_perform (hw : IndexOk A w) {op : Op τ V}
    (hop : assignsConstValueless w op = false) : Dispatches (IndexOk A) (perform A w op) := by
  cases op with
  | construct v => exact hw.setIndex _ (Or.inl rfl)
  | inPlace v s list a => exact dispatches_emplace (hw.setIndex _ (Or.inl rfl)) _ s list a
  | convertConstruct v a =>
    refine (dispatches_convertConstruct w _ a).mono fun w₁ hw₁ => ?_
    obtain ⟨i, hi, hw₁⟩ := hw₁
    exact hw.of_update (Or.inr hi) hw₁
  | copyConstruct v u =>
    exact (dispatches_copyConstruct hw _ _).mono fun w₁ hw₁ => hw.of_update (hw _) hw₁
  | moveConstruct v u => exact dispatches_moveConstruct hw _ _
  | copyAssign v u => exact dispatches_copyAssign hw _ _
  | moveAssign v u => exact dispatches_moveAssign hw _ _
  | convertAssign v a => exact dispatches_convertAssign hw _ a
  | constMoveAssign v u => exact dispatches_constMoveAssign hw _ _ hop
  | emplace v s list a => exact dispatches_emplace hw _ s list a
  | swap v u =>
    change Dispatches (IndexOk A) (swap A w (.named v) (.named u))
    rw [swap]
    split
    · exact hw
    · exact dispatches_stdSwap hw _ _
  | destroy v => exact dispatches_destroy hw _

lemma indexOk_step (hw : IndexOk A w) {op : Op τ V} (h : step A w op = some w') :
    IndexOk A w' := by
  cases hop : assignsConstValueless w op with
  | true =>
    cases op with
    | constMoveAssign v u =>
      rw [step, exec, perform, constMoveAssign_valueless hw v hop] at h
      split at h <;> cases h
    | _ => cases hop
  | false =>
    have hd := dispatches_perform hw hop
    rw [step, exec] at h
    split at h
    · cases hp : perform A w op with
      | error f =>
        rw [hp] at h
        cases h
      | ok w₁ =>
        rw [hp] at hd h
        cases h
        exact hd
    · cases h

lemma run_indexOk {ops : List (Op τ V)} (hrun : Run.run (step A) World.empty ops = some w) :
    IndexOk A w :=
  (Run.Always.of_step (fun _ _ _ hw h => indexOk_step hw h) indexOk_empty ops).last hrun

/-- **The assertions of the dispatch.**  In every state that a program reaches, an operation
fails none of them exactly if it does not assign from a valueless variant that is a `const`
rvalue.  As long as none fails, the operation of the alternative at the index is applied. -/
theorem assert_holds_iff (A : Alternatives τ V) (ops : List (Op τ V)) (w : World τ V)
    (hrun : Run.run (step A) World.empty ops = some w) (op : Op τ V) :
    (exec A w op ≠ .error .assertFailed ↔
        ¬ (op.inScope w = true ∧ assignsConstValueless w op = true)) ∧
      ∀ (w : World τ V) index (member : τ → Mem Loc τ V),
        (∀ h : index < A.types.length, callAtIndex A w index member =
          .ok { w with mem := member (A.types.get ⟨index, h⟩) }) ∧
        (¬ index < A.types.length → callAtIndex A w index member = .error .assertFailed) := by
  have hw := run_indexOk hrun
  refine ⟨?_, fun w index member => ⟨fun h => ?_, fun h => ?_⟩⟩
  · rw [exec]
    cases hscope : op.inScope w with
    | false => simp
    | true =>
      cases hop : assignsConstValueless w op with
      | true =>
        cases op with
        | constMoveAssign v u =>
          simp only [if_true, perform, constMoveAssign_valueless hw v hop, ne_eq,
            not_true_eq_false, and_self]
        | _ => cases hop
      | false =>
        refine iff_of_true (fun h => ?_) (by simp)
        have hd := dispatches_perform hw hop
        rw [if_pos rfl] at h
        rw [h] at hd
        exact hd rfl
  · rw [callAtIndex_eq_type, List.getElem?_eq_getElem h]
    rfl
  · rw [callAtIndex_eq_type, List.getElem?_eq_none (Nat.le_of_not_lt h)]

/-- Variable 0 holds a value, and variable 1 has none. -/
def oneValueless : List (Op Bool ℕ) := [.inPlace 0 (.index 0) false (.value false 3), .construct 1]

/-- Copying the value over the variable that has none fails no assertion. -/
theorem assert_holds_copyAssign : ∃ w, Run.run (step pair) World.empty oneValueless = some w ∧
    (.copyAssign 1 0 : Op Bool ℕ).inScope w = true ∧
    (exec pair w (.copyAssign 1 0) ≠ .error .assertFailed ↔
        ¬ ((.copyAssign 1 0 : Op Bool ℕ).inScope w = true ∧
          assignsConstValueless w (.copyAssign 1 0 : Op Bool ℕ) = true)) ∧
      ∀ (w : World Bool ℕ) index (member : Bool → Mem Loc Bool ℕ),
        (∀ h : index < pair.types.length, callAtIndex pair w index member =
          .ok { w with mem := member (pair.types.get ⟨index, h⟩) }) ∧
        (¬ index < pair.types.length →
          callAtIndex pair w index member = .error .assertFailed) :=
  ⟨_, rfl, rfl, assert_holds_iff pair oneValueless _ rfl (.copyAssign 1 0)⟩

/-- `a = static_cast<const Variant &&>(b)` with a valueless `b` fails the assertion. -/
theorem assert_fails : ∃ w, Run.run (step pair) World.empty oneValueless = some w ∧
    exec pair w (.constMoveAssign 0 1) = .error .assertFailed := by
  exact ⟨_, rfl, rfl⟩

end AraCore.Variant
