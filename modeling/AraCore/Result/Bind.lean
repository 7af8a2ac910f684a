/-
# `Result::Bind`

`Bind` calls a function with the value of a `Result`, or passes its error on in a new `Result`.
There is an overload for functions that return a `Result` and one for functions that return a
value, and both exist again in the specialization for `void`, where the functions have no
parameter.  All four read the `Result` by its accessors and construct the new one by the converting
constructors of the variant in it.
-/
import AraCore.Lib.Comp
import AraCore.Result.Invariant

namespace AraCore.Result

open Lib Variant Comp

variable {τ V σ ε α β : Type} [DecidableEq τ]

/-! ## Code that uses `Result`s -/

/-- Why code does not go on. -/
inductive Halt where
  /-- `std::terminate()` -/
  | terminate
  | fault (f : Fault)
deriving DecidableEq, Repr

/-- Code that may change the state of the rest of the program, and throw. -/
abbrev Code (σ ε α : Type) := Comp σ ε Halt α

/-- An operation of a variant as code. -/
def operation : Except Fault α → Code σ ε α
  | .ok a => pure a
  | .error f => stop (.fault f)

/-- `Value()` and `Error()` as code. -/
def Access.code : Access V α → Code σ ε α
  | .returned a => pure a
  | .terminated => stop .terminate
  | .threw _ | .nullDeref => stop (.fault .nullDeref)

/-- The template, or the specialization for `void` with the only value of its `dummy`. -/
inductive Family (V : Type) where
  | object
  | void (dummy : V)

namespace Family

/-- What the `Result`s have for a value: the parameters of a function that `Bind` calls. -/
abbrev Val : Family V → Type
  | object => V
  | void _ => Unit

/-- The value in the variant. -/
def pack : (a : Family V) → a.Val → V
  | object, x => x
  | void dummy, _ => dummy

/-- The value that is in the variant. -/
def unpack : (a : Family V) → V → a.Val
  | object, x => x
  | void _, _ => ()

lemma unpack_pack (a : Family V) (x : a.Val) : a.unpack (a.pack x) = x := by
  cases a <;> rfl

end Family

/-- What a `Result` holds: a value or an error. -/
abbrev Held (a : Family V) : Type := Except V a.Val

variable (R R' R'' : ResultTypes τ V) (a b c : Family V)

/-- What the accessors find in the `Result` `v`. -/
def held (w : World τ V) (v : ℕ) : Option (Held a) :=
  if hasValue w (.named v) then
    match value R w (.named v) with
    | .returned x => some (.ok (a.unpack x))
    | _ => none
  else
    match error R w (.named v) with
    | .returned e => some (.error e)
    | _ => none

/-- A function returns a `Result` that holds `r`, which is constructed at `dst`. -/
def place (w : World τ V) (dst : ℕ) : Held a → Except Fault (World τ V)
  | .ok x => fromValue R w (.named dst) (.value R.T (a.pack x))
  | .error e => fromError R w (.named dst) (.value R.E e)

/-! ## The overloads of `Bind` -/

/-- `U(Error())` and `R(Error())`: the error is copied into a new `Result`. -/
def ofError (w : World τ V) (this dst : ℕ) : Code σ ε (World τ V) := do
  let _ ← (error R w (.named this)).code
  operation (convertConstruct R'.toAlternatives w (.named dst) (.ref this .lvalue))

/-- `Bind(F&& f)` for functions that return a `Result`; the new `Result` is at `dst`. -/
def bind (w : World τ V) (this dst : ℕ) :
    {a : Family V} → (a.Val → Code σ ε (Held b)) → Code σ ε (World τ V)
  | .object, f =>
    if hasValue w (.named this) then do
      let r ← f (← (value R w (.named this)).code)
      operation (place R' b w dst r)
    else ofError R R' w this dst
  | .void _, f =>
    if hasValue w (.named this) then do
      let r ← f ()
      operation (place R' b w dst r)
    else ofError R R' w this dst

/-- `Bind(F&& f)` for functions that return a value, which is converted to the new `Result`. -/
def bindPlain (w : World τ V) (this dst : ℕ) :
    {a : Family V} → (a.Val → Code σ ε V) → Code σ ε (World τ V)
  | .object, f =>
    if hasValue w (.named this) then do
      let x ← f (← (value R w (.named this)).code)
      operation (convertConstruct R'.toAlternatives w (.named dst) (.value R'.T x))
    else ofError R R' w this dst
  | .void _, f =>
    if hasValue w (.named this) then do
      let x ← f ()
      operation (convertConstruct R'.toAlternatives w (.named dst) (.value R'.T x))
    else ofError R R' w this dst

/-- A function returns the `Result` `v`. -/
def returned (w : World τ V) (v : ℕ) : Code σ ε (Held a) :=
  match held R a w v with
  | some r => pure r
  | none => stop (.fault .noObject)

/-- `return FromValue(x);` -/
def returnFromValue (x : a.Val) : Code σ ε (Held a) := do
  let w ← operation (fromValue R .empty (.named 0) (.value R.T (a.pack x)))
  returned R a w 0

/-- `return r.Bind(f);` for a temporary `r` -/
def returnBind {a : Family V} (r : Held a) (f : a.Val → Code σ ε (Held b)) :
    Code σ ε (Held b) := do
  let w ← operation (place R a .empty 0 r)
  let w ← bind R R' b w 0 1 f
  returned R' b w 1

/-- What the new `Result` holds when the code has constructed it. -/
def observed (dst : ℕ) (code : Code σ ε (World τ V)) : Code σ ε (Option (Held a)) :=
  (fun w => held R a w dst) <$> code

/-- The function `f`, with a record of the arguments with which it is called. -/
def recorded (f : α → Code σ ε β) (x : α) : Code (List α × σ) ε β := fun (l, s) =>
  match f x s with
  | .ok y s => .ok y (l ++ [x], s)
  | .throw e s => .throw e (l ++ [x], s)
  | .stop k s => .stop k (l ++ [x], s)

/-! ## What a `Result` holds -/

/-- The `Result` `v` exists and holds `r`. -/
structure Stands (w : World τ V) (v : ℕ) (r : Held a) : Prop where
  holds : ∃ i x, Holds R.toAlternatives w (.named v) i x
  held : held R a w v = some r

variable {R R' R'' : ResultTypes τ V} {a b c : Family V} {w w' : World τ V} {v this dst : ℕ}
  {r : Held a}

/-- The accessors tell a value and an error apart by the alternative. -/
lemma held_of_holds {i : ℕ} {x : Obj τ V} (h : Holds R.toAlternatives w (.named v) i x) :
    held R a w v = some (if i = 0 then .ok (a.unpack x.val) else .error x.val) := by
  rcases access_of_holds h with ⟨hi, -, hhas, hval, -⟩ | ⟨hi, -, hhas, herr, -⟩
  · rw [held, if_pos hhas, hval, if_pos hi]
  · rw [held, if_neg (by simp [hhas]), herr, if_neg (by omega)]

lemma Stands.of_sameOff (h : Stands R a w v r) (hs : SameOff (.named dst) w w')
    (hne : v ≠ dst) : Stands R a w' v r := by
  obtain ⟨⟨i, x, hx⟩, hheld⟩ := h
  have hx' := hx.of_sameOff hs fun heq => hne (Loc.named.inj heq)
  exact ⟨⟨i, x, hx'⟩, by rw [held_of_holds hx', ← held_of_holds hx, hheld]⟩

lemma Stands.ne (h : Stands R a w v r) (hdst : w.index (.named dst) = none) : v ≠ dst := by
  rintro rfl
  obtain ⟨⟨i, x, hx⟩, -⟩ := h
  rw [hx.index] at hdst
  cases hdst

/-! ## What a constructor makes -/

lemma selectedFor_T : selectedFor R.toAlternatives R.T = some (0, R.T) := by
  simp [selectedFor_eq, TDetail.chosen, R.types_eq]

lemma selectedFor_E : selectedFor R.toAlternatives R.E = some (1, R.E) := by
  simp [selectedFor_eq, TDetail.chosen, R.types_eq, R.T_ne_E]

/-- The converting constructor stores a value of the type of an alternative. -/
lemma convertConstruct_value {A : Alternatives τ V} {l : Loc} {i : ℕ} {t : τ} {x : V}
    (h : selectedFor A t = some (i, t)) (ht : A.types[i]? = some t) :
    ∃ w', convertConstruct A w l (.value t x) = .ok w' ∧ Holds A w' l i ⟨w.mem.next, t, x⟩ ∧
      SameOff l w w' := by
  rw [selectedFor] at h
  split at h
  · next hvalid =>
    obtain ⟨u, hu, hiu⟩ := Option.map_eq_some_iff.mp h
    obtain ⟨hi, rfl⟩ := Prod.mk.inj hiu
    have hnew : convertConstruct A w l (.value u x) =
        .ok ⟨Function.update w.index l (some i), w.mem.construct l u x⟩ := by
      change (if TDetail.valid A.convertible u A.types = true then _ else _) = _
      rw [if_pos hvalid, hu, hi]
      change Except.ok (⟨_, w.mem.construct l u (A.convert u u x)⟩ : World τ V) = _
      rw [A.convert_self]
      rfl
    exact ⟨_, hnew, ⟨Function.update_self _ _ _, Function.update_self _ _ _, ht⟩,
      sameOff_construct w _ _ _ _⟩
  · cases h

/-- A copy of the object in a variant is stored like its value. -/
lemma convertConstruct_ref {A A' : Alternatives τ V} {i : ℕ} {x : Obj τ V}
    (h : Holds A w (.named v) i x) (hne : v ≠ dst) :
    convertConstruct A' w (.named dst) (.ref v .lvalue) =
      convertConstruct A' w (.named dst) (.value x.ty x.val) := by
  have harg : argument w (.ref v .lvalue) = .ok (x.ty, x.val) := by
    simp [argument, typeIndex_of_index h.index, h.index_ne, h.cell]
  have hset : ∀ j, argument (w.setIndex (.named dst) j) (.ref v .lvalue) =
      .ok (x.ty, x.val) := fun j => by
    rw [argument_setIndex w j fun u hu => ?_, harg]
    obtain rfl : u = v := by simpa [Arg.refers] using hu
    exact fun heq => hne (Loc.named.inj heq)
  simp only [convertConstruct, harg, constructFrom, hset]
  rfl

/-- A new `Result` holds what it was constructed with, and no other one changes. -/
lemma place_spec (R : ResultTypes τ V) (a : Family V) (w : World τ V) (dst : ℕ) (r : Held a) :
    ∃ w', place R a w dst r = .ok w' ∧ Stands R a w' dst r ∧ SameOff (.named dst) w w' := by
  cases r with
  | ok x =>
    have hplace : place R a w dst (.ok x) =
        convertConstruct R.toAlternatives w (.named dst) (.value R.T (a.pack x)) := if_pos rfl
    obtain ⟨w', hnew, hx, hsame⟩ := convertConstruct_value (w := w) (l := .named dst)
      (x := a.pack x) (selectedFor_T (R := R)) (by simp [R.types_eq])
    refine ⟨w', hplace.trans hnew, ⟨⟨_, _, hx⟩, (held_of_holds hx).trans ?_⟩, hsame⟩
    rw [if_pos rfl, a.unpack_pack]
  | error e =>
    have hplace : place R a w dst (.error e) =
        convertConstruct R.toAlternatives w (.named dst) (.value R.E e) := if_pos rfl
    obtain ⟨w', hnew, hx, hsame⟩ := convertConstruct_value (w := w) (l := .named dst)
      (x := e) (selectedFor_E (R := R)) (by simp [R.types_eq])
    exact ⟨w', hplace.trans hnew, ⟨⟨_, _, hx⟩, held_of_holds hx⟩, hsame⟩

/-! ## `Bind` of what a `Result` holds -/

/-- The bind of the exception transformer: go on with a value, and pass an error on. -/
def bindHeld (r : Held a) (f : a.Val → Code σ ε (Held b)) : Code σ ε (Held b) :=
  ExceptT.bindCont f r

/-- The error is passed on. -/
lemma ofError_eq (hE : R'.E = R.E) {e : V} (h : Stands R a w this (.error e))
    (hne : this ≠ dst) :
    (ofError R R' w this dst : Code σ ε (World τ V)) = operation (place R' b w dst (.error e)) := by
  obtain ⟨⟨i, x, hx⟩, hheld⟩ := h
  rw [held_of_holds hx] at hheld
  rcases access_of_holds hx with ⟨hi, -⟩ | ⟨hi, hty, -, herr, -⟩
  · rw [if_pos hi] at hheld
    cases hheld
  · rw [if_neg (by omega)] at hheld
    cases hheld
    have hplace : place R' b w dst (.error x.val) =
        convertConstruct R'.toAlternatives w (.named dst) (.value R'.E x.val) := if_pos rfl
    rw [ofError, herr, convertConstruct_ref hx hne, hty, hplace, hE]
    rfl

/-- `Bind` is the bind of the exception transformer, and constructs a `Result` of what comes
out. -/
theorem bind_eq (hE : R'.E = R.E) (h : Stands R a w this r) (hne : this ≠ dst)
    (f : a.Val → Code σ ε (Held b)) :
    bind R R' b w this dst f =
      bindHeld r f >>= fun r' => operation (place R' b w dst r') := by
  have hstands := h
  obtain ⟨⟨i, x, hx⟩, hheld⟩ := h
  rw [held_of_holds hx] at hheld
  rcases access_of_holds hx with ⟨hi, -, hhas, hval, -⟩ | ⟨hi, -, hhas, -⟩
  · rw [if_pos hi] at hheld
    cases hheld
    cases a <;> simp only [bind, hhas, hval, if_true] <;> rfl
  · rw [if_neg (by omega)] at hheld
    cases hheld
    have herr : (ofError R R' w this dst : Code σ ε (World τ V)) = _ :=
      ofError_eq (b := b) hE hstands hne
    cases a <;> simp only [bind, hhas, herr] <;> rfl

/-- The overload for functions that return a value is the one for functions that return a
`Result`, which holds the value. -/
lemma bindPlain_eq (f : a.Val → Code σ ε V) :
    bindPlain R R' w this dst f = bind R R' .object w this dst fun x => .ok <$> f x := by
  have hplace : ∀ x : V, place R' .object w dst (.ok x) =
      convertConstruct R'.toAlternatives w (.named dst) (.value R'.T x) := fun x => if_pos rfl
  have hconvert : ∀ code : Code σ ε (Family.Val (.object : Family V)),
      ((Except.ok <$> code) >>= fun r => operation (place R' .object w dst r)) =
      code >>= fun x =>
        operation (convertConstruct R'.toAlternatives w (.named dst) (.value R'.T x)) :=
    fun code => by
      rw [map_eq_pure_bind, bind_assoc]
      exact bind_congr fun x => (pure_bind _ _).trans (congrArg operation (hplace x))
  cases a with
  | object =>
    simp only [bindPlain, bind]
    refine if_congr Iff.rfl (bind_congr fun x => (hconvert (f x)).symm) rfl
  | void dummy =>
    simp only [bindPlain, bind]
    refine if_congr Iff.rfl (hconvert (f ())).symm rfl

/-- What runs after `Bind` sees only what came out of the bind of the exception transformer. -/
lemma bind_then (hE : R'.E = R.E) (h : Stands R a w this r) (hne : this ≠ dst)
    (f : a.Val → Code σ ε (Held b)) {rest : World τ V → Code σ ε β} {rest' : Held b → Code σ ε β}
    (hrest : ∀ r' w', Stands R' b w' dst r' → rest w' = rest' r') :
    bind R R' b w this dst f >>= rest = bindHeld r f >>= rest' := by
  rw [bind_eq hE h hne, bind_assoc]
  refine bind_congr fun r' => ?_
  obtain ⟨w', hplace, hstands, -⟩ := place_spec R' b w dst r'
  rw [hplace]
  exact (pure_bind _ _).trans (hrest r' w' hstands)

lemma returned_eq (h : Stands R a w v r) : (returned R a w v : Code σ ε (Held a)) = pure r := by
  rw [returned, h.held]

lemma returnFromValue_eq (x : a.Val) :
    (returnFromValue R a x : Code σ ε (Held a)) = pure (.ok x) := by
  obtain ⟨w', hplace, hstands, -⟩ := place_spec R a .empty 0 (.ok x)
  change operation (place R a .empty 0 (.ok x)) >>= _ = _
  rw [hplace]
  exact (pure_bind _ _).trans (returned_eq hstands)

lemma returnBind_eq (hE : R'.E = R.E) (f : a.Val → Code σ ε (Held b)) :
    returnBind R R' b r f = bindHeld r f := by
  obtain ⟨w', hplace, hstands, -⟩ := place_spec R a .empty 0 r
  rw [returnBind, hplace]
  refine (pure_bind _ _).trans ?_
  rw [bind_then hE hstands (by decide) f fun r' w' h => returned_eq h, bind_pure]

/-- The new `Result` holds what came out. -/
lemma observed_bind (hE : R'.E = R.E) (h : Stands R a w this r) (hne : this ≠ dst)
    (f : a.Val → Code σ ε (Held b)) :
    observed R' b dst (bind R R' b w this dst f) = some <$> bindHeld r f := by
  rw [observed, map_eq_pure_bind, map_eq_pure_bind]
  exact bind_then hE h hne f fun r' w' hstands => congrArg pure hstands.held

/-- One `Bind` after the other. -/
lemma observed_bind_bind (hE : R'.E = R.E) (hE' : R''.E = R'.E) {tmp : ℕ}
    (h : Stands R a w this r) (hne : this ≠ tmp) (hdst : tmp ≠ dst)
    (f : a.Val → Code σ ε (Held b)) (g : b.Val → Code σ ε (Held c)) :
    observed R'' c dst (bind R R' b w this tmp f >>= fun w => bind R' R'' c w tmp dst g) =
      some <$> bindHeld r fun x => f x >>= fun r' => bindHeld r' g := by
  rw [observed, map_bind]
  refine (bind_then hE h hne f fun r' w' hstands => observed_bind hE' hstands hdst g).trans ?_
  cases r with
  | ok x => exact (map_bind _ _ _).symm
  | error e => rfl

lemma recorded_map {γ : Type} (g : β → γ) (f : α → Code σ ε β) (x : α) :
    recorded (fun x => g <$> f x) x = g <$> recorded f x := by
  funext ⟨l, s⟩
  simp only [map_eq_pure_bind, Bind.bind, recorded]
  cases f x s <;> rfl

/-- In the record of a function that `Bind` calls there is the value, once. -/
lemma called_bind (hE : R'.E = R.E) (h : Stands R a w this r) (hne : this ≠ dst)
    (f : a.Val → Code σ ε (Held b)) (s : σ) (l : List a.Val) :
    (bind R R' b w this dst (recorded f) (l, s)).state.1 = l ++ r.toOption.toList := by
  rw [bind_eq hE h hne]
  cases r with
  | ok x =>
    change ((recorded f x >>= fun r' => operation (place R' b w dst r')) (l, s)).state.1 = l ++ [x]
    simp only [Bind.bind, recorded]
    cases f x s with
    | ok r' s' =>
      obtain ⟨w', hplace, -⟩ := place_spec R' b w dst r'
      simp only [hplace]
      rfl
    | throw y s' => rfl
    | stop k s' => rfl
  | error e =>
    obtain ⟨w', hplace, -⟩ := place_spec R' b w dst (.error e)
    change ((operation (place R' b w dst (.error e)) : Code _ ε _) (l, s)).state.1 = l ++ []
    rw [hplace, List.append_nil]
    rfl

/-- An error appears in the new `Result`, and no other one changes. -/
lemma bind_error (hE : R'.E = R.E) {e : V} (h : Stands R a w this (.error e))
    (hne : this ≠ dst) :
    ∃ w', held R' b w' dst = some (.error e) ∧ SameOff (.named dst) w w' ∧
      ∀ f : a.Val → Code σ ε (Held b), bind R R' b w this dst f = pure w' := by
  obtain ⟨w', hplace, hstands, hsame⟩ := place_spec R' b w dst (.error e)
  refine ⟨w', hstands.held, hsame, fun f => ?_⟩
  rw [bind_eq hE h hne]
  change operation (place R' b w dst (.error e)) = _
  rw [hplace]
  rfl

/-! ## The laws -/

/-- The laws of a bind and of a map for the `Result` `v`, which holds `r`. -/
structure BindLaws (R R' R'' : ResultTypes τ V) (a b c : Family V) (σ ε : Type) (w : World τ V)
    (v tmp dst : ℕ) (r : Held a) : Prop where
  fromValue_bind : ∀ (t : a.Val) (f : a.Val → Code σ ε (Held b)),
    observed R' b dst (do
      let w ← operation (fromValue R w (.named tmp) (.value R.T (a.pack t)))
      bind R R' b w tmp dst f) = some <$> f t
  bind_fromValue :
    observed R a dst (bind R R a w v dst (returnFromValue R a) : Code σ ε _) = pure (some r)
  bind_bind : ∀ (f : a.Val → Code σ ε (Held b)) (g : b.Val → Code σ ε (Held c)),
    observed R'' c dst (do
      let w ← bind R R' b w v tmp f
      bind R' R'' c w tmp dst g) =
    observed R'' c dst (bind R R'' c w v dst fun x => do
      let r ← f x
      returnBind R' R'' c r g)
  bindPlain_bindPlain : ∀ (f : a.Val → Code σ ε V) (g : V → Code σ ε V),
    observed R'' .object dst (do
      let w ← bindPlain R R' w v tmp f
      bindPlain (a := .object) R' R'' w tmp dst g) =
    observed R'' .object dst (bindPlain R R'' w v dst fun x => f x >>= g)
  bindPlain_eq : ∀ f : a.Val → Code σ ε V,
    bindPlain R R' w v dst f =
      bind R R' .object w v dst fun x => f x >>= returnFromValue R' .object
  called : ∀ (f : a.Val → Code σ ε (Held b)) s l,
    (bind R R' b w v dst (recorded f) (l, s)).state.1 = l ++ r.toOption.toList
  called_plain : ∀ (f : a.Val → Code σ ε V) s l,
    (bindPlain R R' w v dst (recorded f) (l, s)).state.1 = l ++ r.toOption.toList
  error : ∀ e, r = .error e → ∃ w', held R' b w' dst = some (.error e) ∧
    SameOff (.named dst) w w' ∧
      ∀ f : a.Val → Code σ ε (Held b), bind R R' b w v dst f = pure w'
  error_plain : ∀ e, r = .error e → ∃ w', held R' .object w' dst = some (.error e) ∧
    SameOff (.named dst) w w' ∧ ∀ f : a.Val → Code σ ε V, bindPlain R R' w v dst f = pure w'

end AraCore.Result
