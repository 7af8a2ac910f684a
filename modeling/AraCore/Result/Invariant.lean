/-
# When a `Result` holds a value or an error

The accessors of `Result` know two states, a value or an error, but the variant below has a
third one, and the default move members leave it in their source.  So all `Result`s of a
program are usable in all its states exactly if it never move-constructs a `Result` from
another one, and never move-assigns between two different ones.
-/
import AraCore.Result.Model

namespace AraCore.Result

open Lib Variant

variable {τ V : Type*} {R : ResultTypes τ V} {w w' : World τ V}

/-! ## Contents without valueless variants -/

/-- Every variant that exists holds an alternative, and there is no temporary. -/
structure Full (c : Contents V) : Prop where
  temp : c .temp = none
  ne_none : ∀ l, c l ≠ some none

lemma Full.holds {c : Contents V} {l : Loc} (h : Full c) (hl : (c l).isSome = true) :
    ∃ ix, c l = some (some ix) := by
  obtain ⟨p, hp⟩ := Option.isSome_iff_exists.mp hl
  cases p with
  | none => exact absurd hp (h.ne_none l)
  | some ix => exact ⟨ix, hp⟩

lemma Full.update {c : Contents V} {p : Option (Option (ℕ × V))} (h : Full c) (v : ℕ)
    (hp : p ≠ some none) : Full (Function.update c (.named v) p) := by
  refine ⟨?_, fun l => ?_⟩
  · rw [Function.update_of_ne (Loc.noConfusion : Loc.temp ≠ .named v), h.temp]
  · by_cases hl : l = .named v
    · rw [hl, Function.update_self]
      exact hp
    · rw [Function.update_of_ne hl]
      exact h.ne_none l

lemma Full.consumed {A : Alternatives τ V} {c : Contents V} (h : Full c) (a : Arg τ V) (u : τ)
    (x : V) : Full (consumed A c a u x) := by
  cases a with
  | value t x => exact h
  | ref v k =>
    cases k with
    | lvalue => exact h
    | rvalue =>
      refine h.update v fun hp => ?_
      obtain ⟨p, hp, hmap⟩ := Option.map_eq_some_iff.mp hp
      cases p with
      | none => exact h.ne_none _ hp
      | some ix => cases hmap

lemma Full.not_of_valueless {c : Contents V} {l : Loc} (hl : c l = some none) : ¬ Full c :=
  fun h => h.ne_none l hl

/-! ## The invariant and what it is good for -/

/-- What holds between two operations of every program. -/
structure Settled (R : ResultTypes τ V) (w : World τ V) : Prop where
  wellformed : Wellformed R.toAlternatives w
  temp : content w .temp = none

/-- Every `Result` has a value or an error, and its accessors and comparisons know which. -/
structure Usable [DecidableEq τ] (R : ResultTypes τ V) (eq : V → V → Bool) (w : World τ V) :
    Prop where
  index : ∀ v i, w.index (.named v) = some i → i = 0 ∨ i = 1
  error : ∀ v, (w.index (.named v)).isSome = true → hasValue w (.named v) = false →
    ∃ e, error R w (.named v) = .returned e
  valueOrThrow : ∀ v, (w.index (.named v)).isSome = true →
    ∃ x, w.mem.cell (.named v) = some x ∧
      (x.ty = R.T ∧ valueOrThrow R w (.named v) = .returned x.val ∨
        x.ty = R.E ∧ valueOrThrow R w (.named v) = .threw x.val)
  beq : ∀ v u, (w.index (.named v)).isSome = true → (w.index (.named u)).isSome = true →
    ∃ b, beq R eq w (.named v) (.named u) = .returned b

lemma index_lt {i : ℕ} {t : τ} (ht : R.types[i]? = some t) : i = 0 ∨ i = 1 := by
  have hlt := (List.getElem?_eq_some_iff.mp ht).1
  rw [R.types_eq] at hlt
  simp only [List.length_cons, List.length_nil] at hlt
  omega

/-- The operation moves a `Result` into a new one or another one. -/
def Op.moves : Op τ V → Bool
  | .moveConstruct _ _ => true
  | .moveAssign v u => v != u
  | _ => false

/-- Wherever the operation leads, no `Result` is valueless. -/
def Keeps (R : ResultTypes τ V) (res : Except Fault (World τ V)) : Prop :=
  ∀ w', res = .ok w' → Settled R w' ∧ Full (content w')

lemma keeps_error {e : Fault} : Keeps R (.error e : Except Fault (World τ V)) :=
  fun w' h => by cases h

variable [DecidableEq τ]

lemma getIndexOfType_T : getIndexOfType 0 R.T R.types = some 0 := by
  simp [R.types_eq, getIndexOfType]

lemma getIndexOfType_E : getIndexOfType 0 R.E R.types = some 1 := by
  simp [R.types_eq, getIndexOfType, R.T_ne_E.symm]

/-- The accessors of a `Result` that holds alternative `i`. -/
lemma access_of_holds {l : Loc} {i : ℕ} {x : Obj τ V} (h : Holds R.toAlternatives w l i x) :
    (i = 0 ∧ x.ty = R.T ∧ hasValue w l = true ∧ value R w l = .returned x.val ∧
        valueOrThrow R w l = .returned x.val) ∨
      (i = 1 ∧ x.ty = R.E ∧ hasValue w l = false ∧ error R w l = .returned x.val ∧
        valueOrThrow R w l = .threw x.val) := by
  have hidx := typeIndex_of_index h.index
  have hty := h.type
  rw [R.types_eq] at hty
  rcases index_lt h.type with rfl | rfl
  · refine Or.inl ⟨rfl, (Option.some.inj hty).symm, ?_, ?_, ?_⟩ <;>
      simp [hasValue, value, valueOrThrow, getIf, getIndexOfType_T, hidx, h.cell]
  · refine Or.inr ⟨rfl, (Option.some.inj hty).symm, ?_, ?_, ?_⟩ <;>
      simp [hasValue, error, valueOrThrow, getIf, getIndexOfType_T, getIndexOfType_E, hidx,
        h.cell]

/-- Usable worlds are those without valueless `Result`s. -/
lemma usable_iff (h : Settled R w) (eq : V → V → Bool) :
    Usable R eq w ↔ Full (content w) := by
  constructor
  · refine fun hu => ⟨h.temp, fun l hl => ?_⟩
    cases l with
    | temp =>
      rw [h.temp] at hl
      cases hl
    | named v =>
      have := hu.index v _ (h.wellformed.index_of_valueless hl)
      simp [invalidVariantIndex, sizeRange] at this
  · intro hf
    have hholds : ∀ v, (w.index (.named v)).isSome = true →
        ∃ i x, Holds R.toAlternatives w (.named v) i x := by
      intro v hv
      have hc : (content w (.named v)).isSome = true := by rwa [content, Option.isSome_map]
      obtain ⟨ix, hix⟩ := hf.holds hc
      obtain ⟨x, hx, -⟩ := h.wellformed.holds hix
      exact ⟨_, x, hx⟩
    refine ⟨fun v i hi => ?_, fun v hv hval => ?_, fun v hv => ?_, fun v u hv hu => ?_⟩
    · obtain ⟨j, x, hx⟩ := hholds v (by rw [hi]; rfl)
      obtain rfl : i = j := Option.some.inj (hi.symm.trans hx.index)
      exact index_lt hx.type
    · obtain ⟨j, x, hx⟩ := hholds v hv
      rcases access_of_holds hx with ⟨-, -, hhas, -⟩ | ⟨-, -, -, herr, -⟩
      · rw [hhas] at hval
        cases hval
      · exact ⟨_, herr⟩
    · obtain ⟨j, x, hx⟩ := hholds v hv
      rcases access_of_holds hx with ⟨-, hty, -, -, hret⟩ | ⟨-, hty, -, -, hthrow⟩
      · exact ⟨x, hx.cell, Or.inl ⟨hty, hret⟩⟩
      · exact ⟨x, hx.cell, Or.inr ⟨hty, hthrow⟩⟩
    · obtain ⟨i, x, hx⟩ := hholds v hv
      obtain ⟨j, y, hy⟩ := hholds u hu
      rcases access_of_holds hx with ⟨-, -, hvx, hx, -⟩ | ⟨-, -, hvx, hx, -⟩ <;>
        rcases access_of_holds hy with ⟨-, -, hvy, hy, -⟩ | ⟨-, -, hvy, hy, -⟩ <;>
        simp [beq, hvx, hvy, hx, hy, Access.compare]

/-! ## One operation -/

lemma keeps_of_yields {res : Except Fault (World τ V)} {b : Bool} {c : Contents V}
    (hw : Wellformed R.toAlternatives w) (h : Yields R.toAlternatives w res b c) (hc : Full c) :
    Keeps R res := by
  rintro w' rfl
  obtain ⟨w₁, heq, hm, hcontent⟩ := h
  obtain rfl : w' = w₁ := Except.ok.inj heq
  rw [hcontent]
  exact ⟨⟨hm.wellformed hw, hcontent ▸ hc.temp⟩, hc⟩

lemma keeps_convertConstruct {v : ℕ} {a : Arg τ V} (hw : Wellformed R.toAlternatives w)
    (hf : Full (content w)) (hv : content w (.named v) = none)
    (hne : ∀ n ∈ a.refers, Loc.named n ≠ .named v) :
    Keeps R (convertConstruct R.toAlternatives w (.named v) a) := by
  cases hs : (argumentIn R.toAlternatives (content w) a).bind
      (fun ux => selectedFor R.toAlternatives ux.1) with
  | none =>
    obtain ⟨e, he⟩ := convertConstruct_fails hw hs hne
    rw [he]
    exact keeps_error
  | some it =>
    obtain ⟨ux, ha, hsel⟩ := Option.bind_eq_some_iff.mp hs
    exact keeps_of_yields hw (convertConstruct_yields hw hv ha hsel hne)
      ((hf.consumed a ux.1 ux.2).update v (by simp))

/-- Using up the arguments of a constructor stores values, and declares nothing. -/
lemma fromArgs_spec {v : ℕ} {w₁ : World τ V} {t : τ} {a : Arg τ V} {x : V}
    (hw : Wellformed R.toAlternatives w) (hf : Full (content w))
    (hne : ∀ n ∈ a.refers, Loc.named n ≠ .named v) (h : fromArgs R w t a = .ok (w₁, x)) :
    Wellformed R.toAlternatives w₁ ∧ Full (content w₁) ∧
      content w₁ (.named v) = content w (.named v) := by
  rw [fromArgs, content_argument hw] at h
  cases ha : argumentIn R.toAlternatives (content w) a with
  | none =>
    rw [ha] at h
    cases h
  | some ux =>
    rw [ha] at h
    cases a with
    | value u y =>
      cases h
      exact ⟨hw, hf, rfl⟩
    | ref n k =>
      cases k with
      | lvalue =>
        cases h
        exact ⟨hw, hf, rfl⟩
      | rvalue =>
        obtain ⟨j, y, hy, hty, hval⟩ := hw.holds_argument (u := ux.1) (x := ux.2) ha
        cases h
        have hmove : Move R.toAlternatives false w _ :=
          Move.store (v := R.movedFrom ux.1 ux.2) hy
        have hcontent := hy.content_store (v := R.movedFrom ux.1 ux.2)
        rw [hty] at hmove hcontent
        refine ⟨hmove.wellformed hw, ?_, ?_⟩
        · rw [hcontent]
          exact hf.update n (by simp)
        · rw [hcontent, Function.update_of_ne (hne n (by simp [Arg.refers])).symm]

lemma keeps_fromAlternative {v : ℕ} {t : τ} {a : Arg τ V} (hw : Wellformed R.toAlternatives w)
    (hf : Full (content w)) (hv : content w (.named v) = none)
    (hne : ∀ n ∈ a.refers, Loc.named n ≠ .named v) :
    Keeps R (fromAlternative R w (.named v) t a) := by
  rw [fromAlternative]
  cases harg : argument w a with
  | error e => exact keeps_error
  | ok ux =>
    change Keeps R (if ux.1 = t then _ else _)
    by_cases ht : ux.1 = t
    · rw [if_pos ht]
      exact keeps_convertConstruct hw hf hv hne
    · rw [if_neg ht]
      cases hfrom : fromArgs R w t a with
      | error e => exact keeps_error
      | ok wx =>
        obtain ⟨hw₁, hf₁, hdecl⟩ := fromArgs_spec hw hf hne hfrom
        exact keeps_convertConstruct (a := .value t wx.2) hw₁ hf₁ (hdecl.trans hv)
          (by simp [Arg.refers])

lemma keeps_emplace {v : ℕ} {n : Selector τ} {a : Arg τ V} {ix : ℕ × V}
    (hw : Wellformed R.toAlternatives w) (hf : Full (content w))
    (hv : content w (.named v) = some (some ix)) :
    Keeps R (emplace R.toAlternatives w (.named v) n false a) := by
  by_cases hself : v ∈ a.refers
  · cases a with
    | value t x => simp [Arg.refers] at hself
    | ref u k =>
      obtain rfl : v = u := by simpa [Arg.refers] using hself
      obtain ⟨e, he⟩ := emplace_self_fails (s := n) (k := k) hw hv false
      rw [he]
      exact keeps_error
  · have hne : ∀ u ∈ a.refers, Loc.named u ≠ .named v := by
      rintro u hu heq
      exact hself (Loc.named.inj heq ▸ hu)
    cases hsel : selected R.toAlternatives n with
    | none =>
      obtain ⟨e, he⟩ := emplace_fails hw hv (Or.inl hsel) hne false
      rw [he]
      exact keeps_error
    | some it =>
      cases ha : argumentIn R.toAlternatives (content w) a with
      | none =>
        obtain ⟨e, he⟩ := emplace_fails (s := n) hw hv (Or.inr ha) hne false
        rw [he]
        exact keeps_error
      | some ux =>
        exact keeps_of_yields hw (emplace_yields hw hv hsel ha hne false)
          ((hf.consumed a ux.1 ux.2).update v (by simp))

/-- Moving leaves the source valueless. -/
lemma not_full_of_moved {res : Except Fault (World τ V)} {b : Bool} {v u : ℕ}
    {p : Option (ℕ × V)} (h : Settled R w)
    (hy : Yields R.toAlternatives w res b (Function.update
      (Function.update (content w) (.named v) (some p)) (.named u) (some none)))
    (hres : res = .ok w') : Settled R w' ∧ ¬ Full (content w') := by
  subst hres
  obtain ⟨w₁, heq, hm, hc⟩ := hy
  obtain rfl : w' = w₁ := Except.ok.inj heq
  refine ⟨⟨hm.wellformed h.wellformed, ?_⟩, ?_⟩
  · rw [hc, Function.update_of_ne Loc.noConfusion, Function.update_of_ne Loc.noConfusion, h.temp]
  · rw [hc]
    exact Full.not_of_valueless (Function.update_self _ _ _)

/-- An operation leaves every `Result` with a value or an error exactly if it does not move. -/
lemma perform_full {op : Op τ V} (h : Settled R w) (hf : Full (content w))
    (hscope : op.inScope w = true) (hres : perform R w op = .ok w') :
    Settled R w' ∧ (Full (content w') ↔ op.moves = false) := by
  have hw := h.wellformed
  rw [Op.inScope, Bool.and_eq_true, List.all_eq_true, List.all_eq_true] at hscope
  obtain ⟨hnew, huse⟩ := hscope
  have hnew : ∀ v ∈ op.constructs, content w (.named v) = none := fun v hv =>
    content_eq_none.mpr (Option.isNone_iff_eq_none.mp (hnew v hv))
  have huse : ∀ v ∈ op.uses, ∃ ix, content w (.named v) = some (some ix) := fun v hv =>
    hf.holds (by rw [content, Option.isSome_map]; exact huse v hv)
  have hargs : ∀ {v} {a : Arg τ V}, content w (.named v) = none → (∀ n ∈ a.refers, n ∈ op.uses) →
      ∀ n ∈ a.refers, Loc.named n ≠ .named v := by
    intro v a hv ha n hn heq
    obtain ⟨ix, hix⟩ := huse n (ha n hn)
    rw [Loc.named.inj heq, hv] at hix
    cases hix
  have keeps : Keeps R (perform R w op) → op.moves = false →
      Settled R w' ∧ (Full (content w') ↔ op.moves = false) := fun hk hm =>
    ⟨(hk w' hres).1, iff_of_true (hk w' hres).2 hm⟩
  cases op with
  | fromValue v a =>
    have hv := hnew v (by simp [Op.constructs])
    exact keeps (keeps_fromAlternative hw hf hv (hargs hv fun n hn => hn)) rfl
  | fromError v a =>
    have hv := hnew v (by simp [Op.constructs])
    exact keeps (keeps_fromAlternative hw hf hv (hargs hv fun n hn => hn)) rfl
  | copyConstruct v u =>
    obtain ⟨ix, hu⟩ := huse u (by simp [Op.uses])
    refine keeps (keeps_of_yields hw (copyConstruct_yields hw
      (hnew v (by simp [Op.constructs])) hu) (hf.update v (by simp))) rfl
  | moveConstruct v u =>
    obtain ⟨ix, hu⟩ := huse u (by simp [Op.uses])
    obtain ⟨hs, hn⟩ := not_full_of_moved h
      (moveConstruct_yields hw (hnew v (by simp [Op.constructs])) hu) hres
    exact ⟨hs, iff_of_false hn (by simp [Op.moves])⟩
  | copyAssign v u =>
    obtain ⟨iv, hv⟩ := huse v (by simp [Op.uses])
    obtain ⟨ix, hu⟩ := huse u (by simp [Op.uses])
    exact keeps (keeps_of_yields hw (copyAssign_yields hw hv hu) (hf.update v (by simp))) rfl
  | moveAssign v u =>
    obtain ⟨iv, hv⟩ := huse v (by simp [Op.uses])
    obtain ⟨ix, hu⟩ := huse u (by simp [Op.uses])
    by_cases hvu : v = u
    · subst hvu
      rw [perform, moveAssign_self] at hres
      cases hres
      exact ⟨h, iff_of_true hf (by simp [Op.moves])⟩
    · obtain ⟨hs, hn⟩ := not_full_of_moved h
        (moveAssign_yields hw hv hu fun heq => hvu (Loc.named.inj heq).symm) hres
      exact ⟨hs, iff_of_false hn (by simp [Op.moves, hvu])⟩
  | emplaceValue v a =>
    obtain ⟨ix, hv⟩ := huse v (by simp [Op.uses])
    exact keeps (keeps_emplace (n := .type R.T) (a := a) hw hf hv) rfl
  | emplaceError v a =>
    obtain ⟨ix, hv⟩ := huse v (by simp [Op.uses])
    exact keeps (keeps_emplace (n := .type R.E) (a := a) hw hf hv) rfl
  | swap v u =>
    obtain ⟨iv, hv⟩ := huse v (by simp [Op.uses])
    obtain ⟨ix, hu⟩ := huse u (by simp [Op.uses])
    by_cases hvu : u = v
    · subst hvu
      exact keeps (keeps_of_yields hw (stdSwap_self_yields hw h.temp hv) hf) rfl
    · exact keeps (keeps_of_yields hw (stdSwap_yields hw h.temp hv hu fun heq =>
        hvu (Loc.named.inj heq)) ((hf.update v (by simp)).update u (by simp))) rfl
  | destroy v =>
    obtain ⟨ix, hv⟩ := huse v (by simp [Op.uses])
    exact keeps (keeps_of_yields hw (destroy_yields hw hv) (hf.update v (by simp))) rfl

/-! ## Programs -/

/-- **The states of `Result`.**  In every state of a program all `Result`s that exist hold a value
or an error and their accessors agree with that, exactly if the program moves no `Result`
into a new one or another one. -/
theorem always_value_or_error_iff (R : ResultTypes τ V) (eq : V → V → Bool) (ops : List (Op τ V)) :
    Run.Always (step R) (Usable R eq) World.empty ops ↔
      Run.Along (step R) (fun _ op => op.moves = false) World.empty ops := by
  have hempty : Settled R (World.empty : World τ V) := ⟨wellformed_empty, rfl⟩
  refine Run.always_iff_along (I := Settled R) (fun w op w' hI hP hs => ?_) hempty ?_ ops
  · rw [usable_iff hI] at hP
    rw [step] at hs
    by_cases hscope : op.inScope w = true
    · rw [if_pos hscope] at hs
      have hres : perform R w op = .ok w' := by
        cases he : perform R w op with
        | error e => simp [he, Except.toOption] at hs
        | ok w₁ => simpa [he, Except.toOption] using hs
      obtain ⟨hI', hiff⟩ := perform_full hI hP hscope hres
      exact ⟨hI', by rw [usable_iff hI', hiff]⟩
    · rw [if_neg hscope] at hs
      cases hs
  · rw [usable_iff hempty]
    exact ⟨rfl, fun l => by simp [content, World.empty]⟩

/-- Values and errors that are numbers. -/
def numbers : ResultTypes Bool ℕ where
  types := [false, true]
  nonempty := TypeList.bools_ne_nil
  size_lt := TypeList.bools_length_lt
  convertible _ _ := false
  convert _ _ x := x
  movedFrom _ _ := 0
  convert_self _ _ := rfl
  T := false
  E := true
  T_ne_E := Bool.false_ne_true
  types_eq := rfl

/-- The value of the first `Result` is moved into the second one. -/
def moveProgram : List (Op Bool ℕ) := [.fromValue 0 (.value false 3), .moveConstruct 1 0]

/-- After the move the first `Result` has neither a value nor an error: its accessors end the
program or dereference a null pointer, and it cannot be compared with itself. -/
theorem moved_from_unusable : ∃ w, Run.run (step numbers) World.empty moveProgram = some w ∧
    w.index (.named 0) = some invalidVariantIndex ∧
    hasValue w (.named 0) = false ∧ error numbers w (.named 0) = .terminated ∧
    valueOrThrow numbers w (.named 0) = .nullDeref ∧
    beq numbers Nat.beq w (.named 0) (.named 0) = .terminated := by
  refine ⟨_, rfl, rfl, rfl, rfl, rfl, rfl⟩

end AraCore.Result
