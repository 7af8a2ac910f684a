/-
# `Variant` refines an optional tagged sum

In the reference model a variant is empty or a pair of an index and a value, and an operation
assigns pairs.  Whatever a program does, the variants of the code show what the reference
model says: every member that can be asked about a variant answers accordingly, and the
storage of a variant that is not empty holds a live object of the type its index names.
-/
import AraCore.Variant.Emplace

namespace AraCore.Variant

open Lib

variable {τ V : Type*} (A : Alternatives τ V)

/-! ## The reference model -/

namespace Reference

/-- The variants of a program: each is empty, or an index with a value. -/
abbrev State (V : Type*) := Store (Option (ℕ × V))

/-- The type and value of an argument; a reference to an empty variant has none. -/
def argument (s : State V) : Arg τ V → Option (τ × V)
  | .value t x => some (t, x)
  | .ref v _ =>
    match s v with
    | some (some (i, x)) => (A.types[i]?).map fun t => (t, x)
    | _ => none

/-- An rvalue that refers into a variant leaves a moved-from value there. -/
def useUp (s : State V) (a : Arg τ V) (u : τ) (x : V) : State V :=
  match a with
  | .ref v .rvalue =>
    Function.update s v ((s v).map (Option.map fun p => (p.1, A.movedFrom u x)))
  | _ => s

variable [DecidableEq τ]

/-- The alternative that an `emplace` names. -/
def named : Selector τ → Option ℕ
  | .index i => if i < A.types.length then some i else none
  | .type t => if t ∈ A.types then some (A.types.idxOf t) else none

/-- Replace the pair of `v` by alternative `i`, constructed from the argument `a`. -/
def put (s : State V) (v : ℕ) (i : Option ℕ) (a : Arg τ V) : Option (State V) :=
  i.bind fun i => (A.types[i]?).bind fun t => (argument A s a).map fun ux =>
    (useUp A s a ux.1 ux.2).set v (some (i, A.convert t ux.1 ux.2))

/-- Replace the pair of `v` by the alternative that suits the type of the argument `a`. -/
def convert (s : State V) (v : ℕ) (a : Arg τ V) : Option (State V) :=
  (argument A s a).bind fun ux =>
    put A s v (TDetail.chosen A.convertible ux.1 A.types) a

/-- Every variant the operation constructs is new, and every one it uses exists. -/
def inScope (s : State V) (op : Op τ V) : Bool :=
  op.constructs.all (fun v => (s v).isNone) && op.uses.all fun v => (s v).isSome

/-- The effect of an operation whose operands are in scope. -/
def perform (s : State V) : Op τ V → Option (State V)
  | .construct v => some (s.set v none)
  | .inPlace v n _ a | .emplace v n _ a => put A s v (named A n) a
  | .convertConstruct v a | .convertAssign v a => convert A s v a
  | .copyConstruct v u | .copyAssign v u => (s u).map fun p => s.set v p
  | .moveConstruct v u => (s u).map fun p => (s.set v p).set u none
  | .moveAssign v u =>
    if v = u then some s else (s u).map fun p => (s.set v p).set u none
  | .constMoveAssign v u => (s u).join.map fun p => s.set v (some p)
  | .swap v u => (s v).bind fun p => (s u).map fun q => (s.set v q).set u p
  | .destroy v => some (s.erase v)

/-- One step of a program in the reference model. -/
def step (s : State V) (op : Op τ V) : Option (State V) :=
  if inScope s op then perform A s op else none

end Reference

/-! ## The contents of the code's variants -/

/-- The reference state as contents: there is no temporary between two operations. -/
def lift (s : Reference.State V) : Contents V
  | .named v => s v
  | .temp => none

variable {A : Alternatives τ V} {w : World τ V} {s : Reference.State V} {u : τ} {x : V}
  {a : Arg τ V}

lemma content_empty : content (World.empty : World τ V) = lift Store.empty := by
  funext k
  cases k <;> rfl

lemma lift_set (s : Reference.State V) (v : ℕ) (p : Option (ℕ × V)) :
    lift (s.set v p) = Function.update (lift s) (.named v) (some p) := by
  funext k
  cases k with
  | temp => rfl
  | named n =>
    by_cases hn : n = v
    · subst hn
      simp [lift]
    · rw [Function.update_of_ne (fun h => hn (Loc.named.inj h))]
      exact s.set_of_ne p hn

lemma lift_erase (s : Reference.State V) (v : ℕ) :
    lift (s.erase v) = Function.update (lift s) (.named v) none := by
  funext k
  cases k with
  | temp => rfl
  | named n =>
    by_cases hn : n = v
    · subst hn
      simp [lift]
    · rw [Function.update_of_ne (fun h => hn (Loc.named.inj h))]
      exact s.erase_of_ne hn

lemma argumentIn_lift (s : Reference.State V) (a : Arg τ V) :
    argumentIn A (lift s) a = Reference.argument A s a := by
  cases a <;> rfl

lemma consumed_lift (s : Reference.State V) (a : Arg τ V) (u : τ) (x : V) :
    consumed A (lift s) a u x = lift (Reference.useUp A s a u x) := by
  cases a with
  | value t x => rfl
  | ref v k =>
    cases k with
    | lvalue => rfl
    | rvalue =>
      funext l
      cases l with
      | temp => rfl
      | named n =>
        by_cases hn : n = v
        · subst hn
          simp [consumed, Reference.useUp, lift]
        · rw [consumed, Function.update_of_ne (fun h => hn (Loc.named.inj h))]
          exact (Function.update_of_ne hn _ _).symm

lemma inScope_lift (hs : content w = lift s) (op : Op τ V) :
    op.inScope w = Reference.inScope s op := by
  have hsome : ∀ v, (w.index (.named v)).isSome = (s v).isSome := fun v => by
    have hv : content w (.named v) = s v := congrFun hs _
    rw [← hv, content, Option.isSome_map]
  have hnone : ∀ v, (w.index (.named v)).isNone = (s v).isNone := fun v => by
    rw [← Option.not_isSome, ← Option.not_isSome, hsome]
  simp only [Op.inScope, Reference.inScope, hsome, hnone]

/-! ## What can be seen of a variant -/

/-- The arguments of an `emplace` do not refer into the variant itself. -/
def Op.Separate : Op τ V → Prop
  | .emplace v _ _ a => v ∉ a.refers
  | _ => True

/-- What the variants of the code show is what the reference model says. -/
structure Matches (A : Alternatives τ V) (w : World τ V) (s : Reference.State V) : Prop where
  declared : ∀ v, (w.index (.named v)).isSome = (s v).isSome
  /-- `index()` -/
  index : ∀ v p, s v = some p →
    w.typeIndex (.named v) = (p.map Prod.fst).getD invalidVariantIndex
  /-- `valueless_by_exception()` -/
  valueless : ∀ v p, s v = some p → w.valuelessByException (.named v) = p.isNone
  /-- `get_at_index<I>()` -/
  getAtIndex : ∀ v p I, s v = some p → I < A.types.length →
    (w.getAtIndex (.named v) I).map Obj.val = (p.filter fun ix => ix.1 = I).map Prod.snd
  /-- The storage holds a live object of the type the index names, with the value. -/
  stored : ∀ v i x, s v = some (some (i, x)) → ∃ o, w.mem.cell (.named v) = some o ∧
    A.types[i]? = some o.ty ∧ o.val = x

/-- Contents determine what can be seen of the variants. -/
lemma Matches.of_content (hw : Wellformed A w) (hs : content w = lift s) : Matches A w s := by
  have hcontent : ∀ v, content w (.named v) = s v := fun v => congrFun hs _
  refine ⟨fun v => ?_, fun v p hp => ?_, fun v p hp => ?_, fun v p I hp hI => ?_,
    fun v i x hx => ?_⟩
  · rw [← hcontent v, content, Option.isSome_map]
  · rw [← hcontent v] at hp
    cases p with
    | none => exact hw.typeIndex_of_valueless hp
    | some ix =>
      obtain ⟨o, ho, -⟩ := hw.holds hp
      exact typeIndex_of_index ho.index
  · rw [← hcontent v] at hp
    have := hw.valuelessByException_iff hp
    cases p <;> simp_all
  · rw [← hcontent v] at hp
    cases p with
    | none =>
      have hne : I ≠ invalidVariantIndex := by
        have := A.size_lt
        simp only [invalidVariantIndex]
        omega
      simp [World.getAtIndex, hw.typeIndex_of_valueless hp, hne]
    | some ix =>
      obtain ⟨o, ho, hval⟩ := hw.holds hp
      rw [World.getAtIndex, typeIndex_of_index ho.index]
      by_cases hIi : I = ix.1
      · subst hIi
        simp [ho.cell, hval, Option.filter]
      · have hiI : ¬ ix.1 = I := fun h => hIi h.symm
        simp [hIi, hiI, Option.filter]
  · rw [← hcontent v] at hx
    obtain ⟨o, ho, hval⟩ := hw.holds hx
    exact ⟨o, ho.cell, ho.type, hval⟩

/-! ## One operation -/

/-- The operations that move out of a variant that is not empty. -/
def abandons (s : Reference.State V) : Op τ V → Bool
  | .moveConstruct _ u => (s u).join.isSome
  | .moveAssign v u => v != u && (s u).join.isSome
  | .swap v u => (s v).join.isSome || (s u).join.isSome
  | _ => false

variable [DecidableEq τ]

variable (A) in
/-- The result of an operation of the code agrees with that of the reference model. -/
def Simulates (w : World τ V) (res : Except Fault (World τ V)) (b : Bool) :
    Option (Reference.State V) → Prop
  | some s' => Yields A w res b (lift s')
  | none => ∃ e, res = .error e

lemma selected_eq (n : Selector τ) :
    selected A n = (Reference.named A n).bind fun i => (A.types[i]?).map fun t => (i, t) := by
  cases n with
  | index i =>
    by_cases hi : i < A.types.length
    · simp [selected, Reference.named, hi]
    · simp [selected, Reference.named, hi]
  | type t =>
    by_cases ht : t ∈ A.types
    · simp [selected, Reference.named, getIndexOfType_eq, ht, List.getElem?_idxOf ht]
    · simp [selected, Reference.named, getIndexOfType_eq, ht]

/-- Replacing a pair, whichever member function does it: `res` constructs the alternative that
was selected from the argument, or fails if there is none. -/
lemma put_simulates {res : Except Fault (World τ V)} {v : ℕ} {n : Option ℕ}
    (hs : content w = lift s)
    (hok : ∀ i t u x, (n.bind fun i => (A.types[i]?).map fun t => (i, t)) = some (i, t) →
      argumentIn A (content w) a = some (u, x) → Yields A w res false
        (Function.update (consumed A (content w) a u x) (.named v)
          (some (some (i, A.convert t u x)))))
    (hfail : (n.bind fun i => (A.types[i]?).map fun t => (i, t)) = none ∨
      argumentIn A (content w) a = none → ∃ e, res = .error e) :
    Simulates A w res false (Reference.put A s v n a) := by
  rw [hs, argumentIn_lift] at hok hfail
  cases n with
  | none => exact hfail (Or.inl rfl)
  | some i =>
    rw [Option.bind_some] at hok hfail
    rw [Reference.put, Option.bind_some]
    cases ht : A.types[i]? with
    | none => exact hfail (Or.inl (by rw [ht]; rfl))
    | some t =>
      cases ha : Reference.argument A s a with
      | none => exact hfail (Or.inr ha)
      | some ux =>
        have := hok i t ux.1 ux.2 (by rw [ht]; rfl) ha
        rw [consumed_lift, ← lift_set] at this
        exact this

variable {v : ℕ}

lemma emplace_simulates (hw : Wellformed A w) (hs : content w = lift s)
    (hv : (s v).isSome) (hsep : v ∉ a.refers) (n : Selector τ) (list : Bool) :
    Simulates A w (emplace A w (.named v) n list a) false
      (Reference.put A s v (Reference.named A n) a) := by
  obtain ⟨p, hp⟩ := Option.isSome_iff_exists.mp hv
  have hl : content w (.named v) = some p := (congrFun hs _).trans hp
  have hne : ∀ u ∈ a.refers, Loc.named u ≠ .named v := by
    rintro u hu heq
    exact hsep (Loc.named.inj heq ▸ hu)
  refine put_simulates hs (fun i t u x hn ha => ?_) fun h => ?_
  · rw [← selected_eq] at hn
    exact emplace_yields hw hl hn ha hne list
  · rw [← selected_eq] at h
    exact emplace_fails hw hl h hne list

lemma inPlace_simulates (hw : Wellformed A w) (hs : content w = lift s)
    (hv : s v = none) (href : ∀ u ∈ a.refers, (s u).isSome) (n : Selector τ) (list : Bool) :
    Simulates A w (inPlace A w (.named v) n list a) false
      (Reference.put A s v (Reference.named A n) a) := by
  have hl : content w (.named v) = none := (congrFun hs _).trans hv
  have hne : ∀ u ∈ a.refers, Loc.named u ≠ .named v := by
    rintro u hu heq
    have := href u hu
    rw [Loc.named.inj heq, hv] at this
    cases this
  refine put_simulates hs (fun i t u x hn ha => ?_) fun h => ?_
  · rw [← selected_eq] at hn
    exact inPlace_yields hw hl hn ha hne list
  · rw [← selected_eq] at h
    exact inPlace_fails hw hl h hne list

lemma convert_simulates {res : Except Fault (World τ V)} (hs : content w = lift s)
    (hok : ∀ i t u x, argumentIn A (content w) a = some (u, x) →
      selectedFor A u = some (i, t) → Yields A w res false
        (Function.update (consumed A (content w) a u x) (.named v)
          (some (some (i, A.convert t u x)))))
    (hfail : (argumentIn A (content w) a).bind (fun ux => selectedFor A ux.1) = none →
      ∃ e, res = .error e) :
    Simulates A w res false (Reference.convert A s v a) := by
  rw [Reference.convert]
  cases ha : Reference.argument A s a with
  | none =>
    rw [← argumentIn_lift, ← hs] at ha
    exact hfail (by rw [ha]; rfl)
  | some ux =>
    rw [Option.bind_some]
    rw [← argumentIn_lift, ← hs] at ha
    refine put_simulates hs (fun i t u x hn ha' => ?_) fun h => ?_
    · obtain rfl : ux = (u, x) := Option.some.inj (ha.symm.trans ha')
      exact hok i t u x ha' (by rw [selectedFor_eq]; exact hn)
    · refine hfail ?_
      rw [ha, Option.bind_some, selectedFor_eq]
      exact h.resolve_right (by simp [ha])

/-- The operations of the code and of the reference model agree when the operands are in
scope. -/
lemma perform_simulates (hw : Wellformed A w) (hs : content w = lift s) {op : Op τ V}
    (hop : op.Separate) (hscope : Reference.inScope s op = true) :
    Simulates A w (perform A w op) (abandons s op) (Reference.perform A s op) := by
  have htemp : content w .temp = none := congrFun hs _
  have hcontent : ∀ {v p}, s v = some p → content w (.named v) = some p := fun hv =>
    (congrFun hs _).trans hv
  have hnone : ∀ {v}, s v = none → content w (.named v) = none := fun hv =>
    (congrFun hs _).trans hv
  rw [Reference.inScope, Bool.and_eq_true, List.all_eq_true, List.all_eq_true] at hscope
  obtain ⟨hnew, huse⟩ := hscope
  cases op with
  | construct v =>
    have hv := hnone (Option.isNone_iff_eq_none.mp (hnew v (by simp [Op.constructs])))
    obtain ⟨hm, hc⟩ := construct_content (A := A) hv
    exact ⟨_, rfl, hm, by rw [hc, hs, lift_set]⟩
  | inPlace v n list a =>
    exact inPlace_simulates hw hs (Option.isNone_iff_eq_none.mp (hnew v (by simp [Op.constructs])))
      huse n list
  | convertConstruct v a =>
    have hv := Option.isNone_iff_eq_none.mp (hnew v (by simp [Op.constructs]))
    have hne : ∀ u ∈ a.refers, Loc.named u ≠ .named v := by
      rintro u hu heq
      have := huse u hu
      rw [Loc.named.inj heq, hv] at this
      cases this
    exact convert_simulates hs
      (fun i t u x ha hn => convertConstruct_yields hw (hnone hv) ha hn hne)
      fun h => convertConstruct_fails hw h hne
  | copyConstruct v u =>
    obtain ⟨p, hp⟩ := Option.isSome_iff_exists.mp (huse u (by simp [Op.uses]))
    have hv := hnone (Option.isNone_iff_eq_none.mp (hnew v (by simp [Op.constructs])))
    have := copyConstruct_yields hw hv (hcontent hp)
    rw [hs, ← lift_set] at this
    rw [Reference.perform, hp]
    exact this
  | moveConstruct v u =>
    obtain ⟨p, hp⟩ := Option.isSome_iff_exists.mp (huse u (by simp [Op.uses]))
    have hv := hnone (Option.isNone_iff_eq_none.mp (hnew v (by simp [Op.constructs])))
    have := moveConstruct_yields hw hv (hcontent hp)
    rw [hs, ← lift_set, ← lift_set] at this
    rw [Reference.perform, abandons, hp]
    exact this
  | copyAssign v u =>
    obtain ⟨q, hq⟩ := Option.isSome_iff_exists.mp (huse v (by simp [Op.uses]))
    obtain ⟨p, hp⟩ := Option.isSome_iff_exists.mp (huse u (by simp [Op.uses]))
    have := copyAssign_yields hw (hcontent hq) (hcontent hp)
    rw [hs, ← lift_set] at this
    rw [Reference.perform, hp]
    exact this
  | moveAssign v u =>
    obtain ⟨q, hq⟩ := Option.isSome_iff_exists.mp (huse v (by simp [Op.uses]))
    obtain ⟨p, hp⟩ := Option.isSome_iff_exists.mp (huse u (by simp [Op.uses]))
    by_cases hvu : v = u
    · subst hvu
      rw [Reference.perform, if_pos rfl, abandons, bne_self_eq_false, Bool.false_and, perform,
        moveAssign_self]
      exact (Yields.ok w).congr rfl hs
    · have := moveAssign_yields hw (hcontent hq) (hcontent hp)
        (fun h => hvu (Loc.named.inj h).symm)
      rw [hs, ← lift_set, ← lift_set] at this
      rw [Reference.perform, if_neg hvu, abandons, bne_iff_ne.mpr hvu, Bool.true_and, hp]
      exact this
  | convertAssign v a =>
    obtain ⟨q, hq⟩ := Option.isSome_iff_exists.mp (huse v (by simp [Op.uses]))
    exact convert_simulates hs
      (fun i t u x ha hn => convertAssign_yields hw htemp (hcontent hq) ha hn)
      fun h => convertAssign_fails hw h
  | constMoveAssign v u =>
    obtain ⟨q, hq⟩ := Option.isSome_iff_exists.mp (huse v (by simp [Op.uses]))
    obtain ⟨p, hp⟩ := Option.isSome_iff_exists.mp (huse u (by simp [Op.uses]))
    rw [Reference.perform, hp]
    cases p with
    | none => exact constMoveAssign_fails hw htemp (hcontent hq) (hcontent hp)
    | some ix =>
      have := constMoveAssign_yields hw htemp (hcontent hq) (hcontent hp)
      rw [hs, ← lift_set] at this
      exact this
  | emplace v n list a =>
    exact emplace_simulates hw hs (huse v (by simp [Op.uses])) hop n list
  | swap v u =>
    obtain ⟨p, hp⟩ := Option.isSome_iff_exists.mp (huse v (by simp [Op.uses]))
    obtain ⟨q, hq⟩ := Option.isSome_iff_exists.mp (huse u (by simp [Op.uses]))
    have := swap_yields hw htemp (hcontent hp) (hcontent hq)
    rw [hs, ← lift_set, ← lift_set] at this
    rw [Reference.perform, abandons, hp, hq]
    exact this
  | destroy v =>
    obtain ⟨p, hp⟩ := Option.isSome_iff_exists.mp (huse v (by simp [Op.uses]))
    have := destroy_yields hw (hcontent hp)
    rw [hs, ← lift_erase] at this
    exact this

/-- The step lemma of the simulation. -/
lemma exec_simulates (hw : Wellformed A w) (hs : content w = lift s) {op : Op τ V}
    (hop : op.Separate) :
    Simulates A w (exec A w op) (abandons s op) (Reference.step A s op) := by
  rw [exec, Reference.step, inScope_lift hs]
  by_cases hscope : Reference.inScope s op = true
  · rw [if_pos hscope, if_pos hscope]
    exact perform_simulates hw hs hop hscope
  · rw [if_neg hscope, if_neg hscope]
    exact ⟨_, rfl⟩

/-! ## Programs -/

/-- The run lemma of the simulation. -/
lemma run_simulates (hw : Wellformed A w) (hs : content w = lift s) (ops : List (Op τ V))
    (hops : ∀ op ∈ ops, op.Separate) :
    Option.Rel (Matches A) (Run.run (step A) w ops) (Run.run (Reference.step A) s ops) := by
  induction ops generalizing w s with
  | nil => exact Option.Rel.some (Matches.of_content hw hs)
  | cons op ops ih =>
    rw [Run.run_cons, Run.run_cons, step]
    have hstep := exec_simulates hw hs (hops op List.mem_cons_self)
    cases hs' : Reference.step A s op with
    | none =>
      rw [hs'] at hstep
      obtain ⟨e, he⟩ := hstep
      rw [he]
      exact Option.Rel.none
    | some s' =>
      rw [hs'] at hstep
      obtain ⟨w', hres, hm, hc⟩ := hstep
      rw [hres]
      exact ih (hm.wellformed hw) hc fun op hop => hops op (List.mem_cons_of_mem _ hop)

/-- **Refinement.**  Every program of variants runs as it does in the reference model, and
what can be seen of the variants afterwards is what the reference model says. -/
theorem refines (A : Alternatives τ V) (ops : List (Op τ V))
    (hops : ∀ op ∈ ops, op.Separate) :
    Option.Rel (Matches A) (Run.run (step A) World.empty ops)
      (Run.run (Reference.step A) Store.empty ops) := by
  refine run_simulates wellformed_empty ?_ ops hops
  exact content_empty

/-- Two alternatives; what is moved from is zero afterwards. -/
def pair : Alternatives Bool ℕ where
  types := [false, true]
  nonempty := TypeList.bools_ne_nil
  size_lt := TypeList.bools_length_lt
  convertible _ _ := false
  convert _ _ x := x
  movedFrom _ _ := 0
  convert_self _ _ := rfl

/-- A program of two variants, one emplaced from the alternative of the other. -/
def emplaceAndSwap : List (Op Bool ℕ) :=
  [.inPlace 0 (.index 0) false (.value false 3), .construct 1,
    .emplace 1 (.type true) true (.ref 0 .rvalue), .swap 0 1]

theorem refines_emplaceAndSwap :
    (Run.run (Reference.step pair) Store.empty emplaceAndSwap).isSome = true ∧
      Option.Rel (Matches pair) (Run.run (step pair) World.empty emplaceAndSwap)
        (Run.run (Reference.step pair) Store.empty emplaceAndSwap) := by
  refine ⟨by decide, refines pair emplaceAndSwap ?_⟩
  simp [emplaceAndSwap, Op.Separate, Arg.refers]

end AraCore.Variant
