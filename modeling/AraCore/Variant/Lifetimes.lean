/-
# The lifetimes of a variant's objects

The destructor call that is missing from the move members shows up in the ledger of the
storage: the object that was moved from stays alive in storage whose index does not name it
any more.  So the objects of a program are all destroyed, each once, exactly if the program
never moves out of a variant that holds an alternative.
-/
import AraCore.Variant.Refinement

namespace AraCore.Variant

open Lib

variable {τ V : Type*} {A : Alternatives τ V} {w w' : World τ V}

/-- The operation moves out of a variant that holds an alternative: it move-constructs from
it, move-assigns from it to another one, or swaps it. -/
def movesOut (w : World τ V) : Op τ V → Bool
  | .moveConstruct _ u => !w.valuelessByException (.named u)
  | .moveAssign v u => v != u && !w.valuelessByException (.named u)
  | .swap v u => !(w.valuelessByException (.named v) && w.valuelessByException (.named u))
  | _ => false

/-- The invariant of a program between two operations. -/
structure Settled (A : Alternatives τ V) (w : World τ V) : Prop where
  wellformed : Wellformed A w
  accounted : w.mem.Accounted
  temp : content w .temp = none

lemma settled_empty : Settled A (World.empty : World τ V) :=
  ⟨wellformed_empty, Mem.accounted_empty, rfl⟩

lemma Settled.eq_lift (h : Settled A w) : ∃ s, content w = lift s := by
  refine ⟨fun v => content w (.named v), ?_⟩
  funext k
  cases k with
  | named v => rfl
  | temp => exact h.temp

lemma Settled.valueless_eq {s : Reference.State V} (h : Settled A w) (hs : content w = lift s)
    (v : ℕ) : (!w.valuelessByException (.named v)) = (s v).join.isSome := by
  have hv : content w (.named v) = s v := congrFun hs _
  cases hp : s v with
  | none =>
    rw [hp] at hv
    simp [World.valuelessByException, World.typeIndex, content_eq_none.mp hv]
  | some p =>
    have := h.wellformed.valuelessByException_iff (hv.trans hp)
    cases p <;> simp_all

/-- When all variants are gone, so are the objects, and what was abandoned is in the ledger. -/
lemma Settled.clean_iff (h : Settled A w) (hend : ∀ v, w.index (.named v) = none) :
    (∀ l, w.mem.cell l = none) ∧ (w.mem.Clean ↔ ¬ Dirty w) := by
  have hcell : ∀ l, w.mem.cell l = none := by
    intro l
    have hidx : w.index l = none := by
      cases l with
      | named v => exact hend v
      | temp => exact content_eq_none.mp h.temp
    have hfit := h.wellformed.fits l
    rwa [hidx] at hfit
  refine ⟨hcell, fun hc => ?_, fun hd => ⟨?_, ?_, h.wellformed.misused⟩⟩
  · rintro ⟨id, hid | hid | ⟨l, -, hid⟩⟩
    · simp [hc.overwritten] at hid
    · simp [hc.leaked] at hid
    · simp [Mem.idsAt_of_none (hcell l)] at hid
  · exact List.eq_nil_iff_forall_not_mem.mpr fun id hid => hd ⟨id, Or.inl hid⟩
  · exact List.eq_nil_iff_forall_not_mem.mpr fun id hid => hd ⟨id, Or.inr (Or.inl hid)⟩

lemma Settled.movesOut_eq {s : Reference.State V} (h : Settled A w) (hs : content w = lift s)
    (op : Op τ V) : movesOut w op = abandons s op := by
  cases op with
  | moveConstruct v u => exact h.valueless_eq hs u
  | moveAssign v u => rw [movesOut, abandons, h.valueless_eq hs u]
  | swap v u =>
    rw [movesOut, abandons, ← h.valueless_eq hs v, ← h.valueless_eq hs u, Bool.not_and]
  | _ => rfl

variable [DecidableEq τ]

/-- One operation keeps the invariant, and leaves objects abandoned if some were before or if
it moves out of a variant that holds an alternative. -/
lemma Settled.step {op : Op τ V} (h : Settled A w) (hop : op.Separate)
    (hstep : Variant.step A w op = some w') :
    Settled A w' ∧ (Dirty w' ↔ Dirty w ∨ ¬ movesOut w op = false) := by
  obtain ⟨s, hs⟩ := h.eq_lift
  have hsim := exec_simulates h.wellformed hs hop
  have hexec : exec A w op = .ok w' := by
    rw [Variant.step] at hstep
    cases he : exec A w op with
    | error e => simp [he, Except.toOption] at hstep
    | ok w₁ => simpa [he, Except.toOption] using hstep
  cases hs' : Reference.step A s op with
  | none =>
    rw [hs', hexec] at hsim
    obtain ⟨e, he⟩ := hsim
    cases he
  | some s' =>
    rw [hs', hexec] at hsim
    obtain ⟨w₁, hw₁, hm, hc⟩ := hsim
    obtain rfl : w' = w₁ := Except.ok.inj hw₁
    refine ⟨⟨hm.wellformed h.wellformed, hm.accounted h.accounted, by rw [hc]; rfl⟩, ?_⟩
    rw [hm.dirty_iff, h.movesOut_eq hs, Bool.not_eq_false, or_comm]

/-- A program ends without variants if it does so in the reference model. -/
lemma undeclared_of_reference {ops : List (Op τ V)} {s : Reference.State V}
    (hops : ∀ op ∈ ops, op.Separate) (hrun : Run.run (step A) World.empty ops = some w)
    (href : Run.run (Reference.step A) Store.empty ops = some s) (hs : ∀ v, s v = none)
    (v : ℕ) : w.index (.named v) = none := by
  have h := run_simulates (A := A) wellformed_empty content_empty ops hops
  rw [hrun, href] at h
  cases h with
  | some h =>
    have := h.declared v
    rwa [hs v, Option.isSome_none, Option.isSome_eq_false_iff, Option.isNone_iff_eq_none] at this

/-- **Object lifetimes.**  A program at whose end all variants are destroyed has destroyed each
of its objects once, used none outside its lifetime and overwritten none, exactly if none of
its operations moved out of a variant that held an alternative. -/
theorem destroyed_once_iff (A : Alternatives τ V) (ops : List (Op τ V))
    (hops : ∀ op ∈ ops, op.Separate) (w : World τ V)
    (hrun : Run.run (step A) World.empty ops = some w) (hend : ∀ v, w.index (.named v) = none) :
    ((∀ id < w.mem.next, w.mem.destroyed.count id = 1) ∧ w.mem.overwritten = [] ∧
        w.mem.misused = 0) ↔
      Run.Along (step A) (fun w op => movesOut w op = false) World.empty ops := by
  have hstep : ∀ (w : World τ V) op w', op.Separate → Settled A w → step A w op = some w' →
      Settled A w' ∧ (Dirty w' ↔ Dirty w ∨ ¬ movesOut w op = false) :=
    fun w op w' hop h hs => h.step hop hs
  obtain ⟨hw, hdirty⟩ := Run.taint_iff_along hstep hops settled_empty hrun
  obtain ⟨hcell, hclean⟩ := hw.clean_iff hend
  rw [← Mem.clean_iff_destroyed_once hw.accounted hcell, hclean, hdirty]
  exact and_iff_right not_dirty_empty

/-- Two variants that share a value by copying. -/
def copyProgram : List (Op Bool ℕ) :=
  [.inPlace 0 (.index 0) false (.value false 3), .copyConstruct 1 0,
    .emplace 1 (.type true) false (.ref 0 .lvalue), .destroy 1, .destroy 0]

theorem destroyed_once_copyProgram : ∃ w, Run.run (step pair) World.empty copyProgram = some w ∧
    (∀ id < w.mem.next, w.mem.destroyed.count id = 1) ∧ w.mem.overwritten = [] ∧
      w.mem.misused = 0 := by
  have hops : ∀ op ∈ copyProgram, op.Separate := by
    simp [copyProgram, Op.Separate, Arg.refers]
  obtain ⟨w, hw⟩ := Option.isSome_iff_exists.mp
    (show (Run.run (step pair) World.empty copyProgram).isSome = true by decide)
  refine ⟨w, hw, (destroyed_once_iff pair copyProgram hops w hw ?_).mpr ?_⟩
  · refine undeclared_of_reference hops hw rfl fun v => ?_
    by_cases h0 : v = 0 <;> by_cases h1 : v = 1 <;>
      simp [Store.set, Store.erase, Reference.useUp, h0, h1]
  · exact fun _ _ => ⟨rfl, fun _ _ => ⟨rfl, fun _ _ => ⟨rfl, fun _ _ => ⟨rfl, fun _ _ =>
      ⟨rfl, trivial⟩⟩⟩⟩⟩

/-- The second variant takes the value of the first one by moving. -/
def moveProgram : List (Op Bool ℕ) :=
  [.inPlace 0 (.index 0) false (.value false 3), .moveConstruct 1 0, .destroy 1, .destroy 0]

/-- The object that was moved from is never destroyed. -/
theorem moved_from_not_destroyed : ∃ w, Run.run (step pair) World.empty moveProgram = some w ∧
    (∀ v, w.index (.named v) = none) ∧ 0 < w.mem.next ∧ w.mem.destroyed.count 0 = 0 := by
  have hops : ∀ op ∈ moveProgram, op.Separate := by
    simp [moveProgram, Op.Separate]
  have hmap : (Run.run (step pair) World.empty moveProgram).map
      (fun w => (w.mem.next, w.mem.destroyed)) = some (2, [1]) := by decide
  obtain ⟨w, hw, hmem⟩ := Option.map_eq_some_iff.mp hmap
  rw [Prod.mk.injEq] at hmem
  refine ⟨w, hw, undeclared_of_reference hops hw rfl fun v => ?_, ?_, ?_⟩
  · by_cases h0 : v = 0 <;> by_cases h1 : v = 1 <;>
      simp [Store.set, Store.erase, Reference.useUp, h0, h1]
  · rw [hmem.1]
    decide
  · rw [hmem.2]
    decide

end AraCore.Variant
