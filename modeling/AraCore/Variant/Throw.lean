/-
# An `emplace` whose constructor throws

The overloads of `emplace` that take an initializer list let exceptions of the constructor
pass.  They have destroyed the old alternative by then and have not set the index, so that the
index goes on to name an alternative that is no more, unless the variant was valueless.
-/
import AraCore.Variant.Lifetimes

namespace AraCore.Variant

open Lib

variable {τ V : Type*}

section Model

variable [DecidableEq τ] (A : Alternatives τ V)

/-- The constructor of the alternative throws; `used` tells whether it has moved from an rvalue
by then. -/
def constructThrows (w : World τ V) (a : Arg τ V) (used : Bool) : Except Fault (World τ V) := do
  let (u, x) ← argument w a
  match a, used with
  | .ref v .rvalue, true =>
    .ok { w with mem := w.mem.assign (.named v) u (A.movedFrom u x) }
  | _, _ => .ok w

/-- `emplace<ClassIndex>(initializer_list, args...)`, left by an exception -/
def emplaceIndexListThrows (w : World τ V) (this : Loc) (classIndex : ℕ) (a : Arg τ V)
    (used : Bool) : Except Fault (World τ V) :=
  match getTypeAtIndex 0 classIndex A.types with
  | some _ => do
    let w ← callElementDestructor A w this
    constructThrows A w a used
  | none => .error .illFormed

/-- `emplace<T>(initializer_list, args...)`, left by an exception; also `EmplaceValue` and
`EmplaceError` of a `Result`, with its two types for `T` -/
def emplaceTypeListThrows (w : World τ V) (this : Loc) (T : τ) (a : Arg τ V) (used : Bool) :
    Except Fault (World τ V) :=
  match getIndexOfType 0 T A.types with
  | some _ => do
    let w ← callElementDestructor A w this
    constructThrows A w a used
  | none => .error .illFormed

/-- Both overloads. -/
def emplaceThrows (w : World τ V) (this : Loc) (s : Selector τ) (a : Arg τ V) (used : Bool) :
    Except Fault (World τ V) :=
  match s with
  | .index i => emplaceIndexListThrows A w this i a used
  | .type T => emplaceTypeListThrows A w this T a used

/-- One operation of a program in which `emplace` may throw. -/
inductive ThrowingOp (τ V : Type*) where
  | completes (op : Op τ V)
  | emplaceThrows (v : ℕ) (s : Selector τ) (a : Arg τ V) (used : Bool)
deriving DecidableEq, Repr

/-- One step of such a program, which handles the exceptions. -/
def throwingStep (w : World τ V) : ThrowingOp τ V → Option (World τ V)
  | .completes op => step A w op
  | .emplaceThrows v s a used =>
    if (Op.emplace v s true a).inScope w then
      (emplaceThrows A w (.named v) s a used).toOption
    else none

end Model

/-! ## What every operation can rely on -/

/-- A variant is valueless or holds a live object of the type that its index names, and no
operation so far met an object that was not alive, or destroyed one a second time. -/
structure Sound (A : Alternatives τ V) (w : World τ V) : Prop where
  live : ∀ v i, w.index (.named v) = some i → i = invalidVariantIndex ∨
    ∃ x, w.mem.cell (.named v) = some x ∧ A.types[i]? = some x.ty
  misused : w.mem.misused = 0
  destroyed : w.mem.destroyed.Nodup

/-- What holds whether or not something has gone wrong. -/
structure Basic (w : World τ V) : Prop where
  accounted : w.mem.Accounted
  temp : w.index .temp = none
  undeclared : ∀ l, w.index l = none → w.mem.cell l = none

variable {A : Alternatives τ V} {w w' : World τ V} {a : Arg τ V} {s : Selector τ} {used : Bool}

/-- The invariant of programs in which nothing throws, split up. -/
lemma settled_iff : Settled A w ↔ Basic w ∧ Sound A w := by
  constructor
  · intro h
    refine ⟨⟨h.accounted, content_eq_none.mp h.temp, fun l hl => ?_⟩, fun v i hv => ?_,
      h.wellformed.misused, h.accounted.gone_nodup.of_append_left⟩
    · have hfit := h.wellformed.fits l
      rwa [hl] at hfit
    · have hfit := h.wellformed.fits (.named v)
      rwa [hv] at hfit
  · rintro ⟨hb, hs⟩
    refine ⟨⟨fun l => ?_, hs.misused⟩, hb.accounted, content_eq_none.mpr hb.temp⟩
    cases hl : w.index l with
    | none => exact hb.undeclared l hl
    | some i =>
      cases l with
      | named v => exact hs.live v i hl
      | temp =>
        rw [hb.temp] at hl
        cases hl

section Steps

variable [DecidableEq τ]

/-- An `emplace` from the alternative that it destroys first does not come to an end. -/
lemma Settled.step_of_not_separate {op : Op τ V} (h : Settled A w) (hop : ¬ op.Separate) :
    Variant.step A w op = none := by
  cases op with
  | emplace v s list a =>
    obtain ⟨k, rfl⟩ : ∃ k, a = .ref v k := by
      cases a with
      | value t x => exact absurd List.not_mem_nil hop
      | ref n k =>
        obtain rfl : v = n := by simpa [Op.Separate, Arg.refers] using hop
        exact ⟨k, rfl⟩
    have hfail : ∃ e, emplace A w (.named v) s list (.ref v k) = .error e := by
      cases hv : content w (.named v) with
      | none =>
        rw [emplace_eq]
        cases hsel : selected A s with
        | none => exact ⟨_, rfl⟩
        | some it =>
          refine ⟨.nullDeref, ?_⟩
          have hidx : w.typeIndex (.named v) = invalidVariantIndex := by
            simp [World.typeIndex, content_eq_none.mp hv]
          rw [callElementDestructor, if_neg (not_not.mpr hidx)]
          exact fill_fails h.wellformed (by simp [argumentIn, hv])
      | some p =>
        cases p with
        | some ix => exact emplace_self_fails h.wellformed hv list
        | none =>
          rw [emplace_eq]
          cases hsel : selected A s with
          | none => exact ⟨_, rfl⟩
          | some it =>
            refine ⟨.nullDeref, ?_⟩
            have hidx := h.wellformed.typeIndex_of_valueless hv
            rw [callElementDestructor, if_neg (not_not.mpr hidx)]
            exact fill_fails h.wellformed (by simp [argumentIn, hv])
    obtain ⟨e, he⟩ := hfail
    rw [Variant.step, exec]
    split
    · rw [perform, he]
      rfl
    · rfl
  | _ => exact absurd trivial hop

lemma Settled.of_step {op : Op τ V} (h : Settled A w) (hs : Variant.step A w op = some w') :
    Settled A w' := by
  by_cases hop : op.Separate
  · exact (h.step hop hs).1
  · rw [h.step_of_not_separate hop] at hs
    cases hs

/-- Both overloads destroy the old alternative before they call the constructor. -/
lemma emplaceThrows_ok {l : Loc} (h : emplaceThrows A w l s a used = .ok w') :
    ∃ w₁, callElementDestructor A w l = .ok w₁ ∧ constructThrows A w₁ a used = .ok w' := by
  have hbind : callElementDestructor A w l >>= (fun w => constructThrows A w a used) =
      .ok w' := by
    cases s with
    | index i =>
      rw [emplaceThrows, emplaceIndexListThrows] at h
      split at h
      · exact h
      · cases h
    | type T =>
      rw [emplaceThrows, emplaceTypeListThrows] at h
      split at h
      · exact h
      · cases h
  cases hc : callElementDestructor A w l with
  | error e =>
    rw [hc] at hbind
    cases hbind
  | ok w₁ =>
    rw [hc] at hbind
    exact ⟨w₁, rfl, hbind⟩

/-- At most the argument has changed when the constructor throws. -/
lemma constructThrows_ok (h : constructThrows A w a used = .ok w') :
    w' = w ∨ ∃ v u x, argument w a = .ok (u, x) ∧ a = .ref v .rvalue ∧
      w' = { w with mem := w.mem.assign (.named v) u (A.movedFrom u x) } := by
  rw [constructThrows] at h
  cases ha : argument w a with
  | error e =>
    rw [ha] at h
    cases h
  | ok ux =>
    rw [ha] at h
    cases a with
    | value t x =>
      cases h
      exact Or.inl rfl
    | ref v k =>
      cases k with
      | lvalue =>
        cases h
        exact Or.inl rfl
      | rvalue =>
        cases used with
        | true =>
          cases h
          exact Or.inr ⟨v, ux.1, ux.2, rfl, rfl, rfl⟩
        | false =>
          cases h
          exact Or.inl rfl

lemma constructThrows_index (h : constructThrows A w a used = .ok w') : w'.index = w.index := by
  rcases constructThrows_ok h with rfl | ⟨v, u, x, -, -, rfl⟩ <;> rfl

lemma constructThrows_accounted (h : constructThrows A w a used = .ok w')
    (hw : w.mem.Accounted) : w'.mem.Accounted := by
  rcases constructThrows_ok h with rfl | ⟨v, u, x, -, -, rfl⟩
  · exact hw
  · exact hw.assign _ _ _

/-- No object comes to life when the constructor throws. -/
lemma constructThrows_cell (h : constructThrows A w a used = .ok w') {l : Loc}
    (hl : w.mem.cell l = none) : w'.mem.cell l = none := by
  rcases constructThrows_ok h with rfl | ⟨v, u, x, -, -, rfl⟩
  · exact hl
  · by_cases hlv : l = .named v
    · subst hlv
      simp [Mem.assign, hl, Mem.misuse]
    · exact (Mem.cell_assign_of_ne hlv).trans hl

/-- On a valueless variant an `emplace` that throws is at most an assignment to its argument. -/
lemma Settled.emplaceThrows_valueless {v : ℕ} (h : Settled A w)
    (hv : w.valuelessByException (.named v) = true)
    (hs : emplaceThrows A w (.named v) s a used = .ok w') : Settled A w' := by
  have hidx : w.typeIndex (.named v) = invalidVariantIndex := by
    simpa [World.valuelessByException] using hv
  obtain ⟨w₁, hcall, hthrow⟩ := emplaceThrows_ok hs
  rw [callElementDestructor, if_neg (not_not.mpr hidx)] at hcall
  cases hcall
  rcases constructThrows_ok hthrow with rfl | ⟨n, u, x, harg, rfl, rfl⟩
  · exact h
  · rw [content_argument h.wellformed] at harg
    split at harg
    · next ux hux =>
      cases harg
      obtain ⟨j, y, hy, rfl, rfl⟩ := h.wellformed.holds_argument hux
      have hm := Move.store (v := A.movedFrom y.ty y.val) hy
      refine ⟨hm.wellformed h.wellformed, hm.accounted h.accounted, ?_⟩
      have htemp : w.index .temp = none := content_eq_none.mp h.temp
      exact content_eq_none.mpr htemp
    · cases harg

/-- Otherwise the index goes on to name the alternative that was destroyed. -/
lemma Settled.emplaceThrows_engaged {v : ℕ} (h : Settled A w)
    (hv : w.valuelessByException (.named v) = false)
    (hs : emplaceThrows A w (.named v) s a used = .ok w') : Basic w' ∧ ¬ Sound A w' := by
  have hidx : w.typeIndex (.named v) ≠ invalidVariantIndex := by
    simpa [World.valuelessByException] using hv
  have hfit := h.wellformed.fits (.named v)
  cases hi : w.index (.named v) with
  | none => exact absurd (by simp [World.typeIndex, hi]) hidx
  | some i =>
    rw [typeIndex_of_index hi] at hidx
    rw [hi] at hfit
    obtain ⟨x, hx, ht⟩ := hfit.resolve_left hidx
    obtain ⟨w₁, hcall, hthrow⟩ := emplaceThrows_ok hs
    rw [callElementDestructor, typeIndex_of_index hi, if_pos hidx, destructor,
      callAtIndex_of_type ht] at hcall
    cases hcall
    have hcell : (w.mem.destroy (.named v) x.ty).cell (.named v) = none := by
      rw [Mem.destroy_of_alive hx rfl]
      exact Function.update_self _ _ _
    have hindex := constructThrows_index hthrow
    obtain ⟨hb, -⟩ := settled_iff.mp h
    refine ⟨⟨constructThrows_accounted hthrow (h.accounted.destroy _ _), ?_, ?_⟩, fun hsound => ?_⟩
    · rw [hindex]
      exact hb.temp
    · intro l hl
      rw [hindex] at hl
      refine constructThrows_cell hthrow ?_
      by_cases hlv : l = .named v
      · rw [hlv]
        exact hcell
      · rw [Mem.destroy_of_alive hx rfl]
        exact (Function.update_of_ne hlv _ _).trans (hb.undeclared l hl)
    · rcases hsound.live v i (by rw [hindex]; exact hi) with hinv | ⟨y, hy, -⟩
      · exact hidx hinv
      · rw [constructThrows_cell hthrow hcell] at hy
        cases hy

end Steps

/-- The step lets no exception out of an `emplace` into a variant that holds something. -/
def ThrowsOnlyValueless (w : World τ V) : ThrowingOp τ V → Prop
  | .completes _ => True
  | .emplaceThrows v _ _ _ => w.valuelessByException (.named v) = true

variable [DecidableEq τ]

lemma throwingStep_sound_iff {op : ThrowingOp τ V} (hb : Basic w) (hs : Sound A w)
    (h : throwingStep A w op = some w') :
    Basic w' ∧ (Sound A w' ↔ ThrowsOnlyValueless w op) := by
  have hset : Settled A w := settled_iff.mpr ⟨hb, hs⟩
  cases op with
  | completes op =>
    obtain ⟨hb', hs'⟩ := settled_iff.mp (hset.of_step h)
    exact ⟨hb', iff_of_true hs' trivial⟩
  | emplaceThrows v s a used =>
    rw [throwingStep] at h
    split at h
    · cases hres : emplaceThrows A w (.named v) s a used with
      | error e =>
        rw [hres] at h
        cases h
      | ok w₁ =>
        rw [hres] at h
        cases h
        cases hv : w.valuelessByException (.named v) with
        | true =>
          obtain ⟨hb', hs'⟩ := settled_iff.mp (hset.emplaceThrows_valueless hv hres)
          exact ⟨hb', iff_of_true hs' hv⟩
        | false =>
          obtain ⟨hb', hs'⟩ := hset.emplaceThrows_engaged hv hres
          refine ⟨hb', iff_of_false hs' ?_⟩
          rw [ThrowsOnlyValueless, hv]
          exact Bool.noConfusion
    · cases h

/-- **Throwing constructors.**  The variants of a program are sound in all its states exactly if
every exception that leaves an `emplace` leaves that of a variant that was valueless before. -/
theorem always_sound_iff (A : Alternatives τ V) (ops : List (ThrowingOp τ V)) :
    Run.Always (throwingStep A) (Sound A) World.empty ops ↔
      Run.Along (throwingStep A) ThrowsOnlyValueless World.empty ops := by
  obtain ⟨hb, hs⟩ := settled_iff.mp (settled_empty (A := A))
  exact Run.always_iff_along (I := Basic)
    (fun w op w' hb hs h => throwingStep_sound_iff hb hs h) hb hs ops

/-- After an exception from `emplace` the index of the variant names an alternative that is
gone, and the destructor of the variant destroys it a second time. -/
theorem emplace_leaves_index : ∃ w w', Run.run (throwingStep pair) World.empty
      [.completes (.inPlace 0 (.index 0) false (.value false 3)),
        .emplaceThrows 0 (.type true) (.value true 5) false] = some w ∧
    w.index (.named 0) = some 0 ∧ w.mem.cell (.named 0) = none ∧ ¬ Sound pair w ∧
      throwingStep pair w (.completes (.destroy 0)) = some w' ∧ w'.mem.misused = 1 := by
  refine ⟨_, _, rfl, rfl, rfl, fun h => ?_, rfl, rfl⟩
  rcases h.live 0 0 rfl with h | ⟨x, hx, -⟩
  · exact absurd h (by decide)
  · cases hx

end AraCore.Variant
