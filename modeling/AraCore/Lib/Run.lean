/-
# Finite programs over a partial step function

A component is described by a step function `step : σ → ω → Option σ`: performing the
operation `op` in the state `s` gives a new state, or nothing when the operation has no
defined outcome there.  A program is a list of operations.  This file provides the run of a
program, predicates that hold in every state a run visits, conditions that every performed
operation meets, and the rules that pass from one step to a whole run.
-/
import Mathlib

namespace AraCore.Lib.Run

variable {σ ω : Type*} (step : σ → ω → Option σ)

/-- The state after a program, if every operation of it has an outcome. -/
def run : σ → List ω → Option σ
  | s, [] => some s
  | s, op :: ops => (step s op).bind fun s' => run s' ops

/-- `P` holds in every state that the program visits. -/
def Always (P : σ → Prop) : σ → List ω → Prop
  | s, [] => P s
  | s, op :: ops => P s ∧ ∀ s', step s op = some s' → Always P s' ops

/-- Every operation that the program performs meets the condition `C`. -/
def Along (C : σ → ω → Prop) : σ → List ω → Prop
  | _, [] => True
  | s, op :: ops => ∀ s', step s op = some s' → C s op ∧ Along C s' ops

variable {step} {P Q : σ → Prop} {C : σ → ω → Prop}

@[simp] lemma run_nil (s : σ) : run step s [] = some s := rfl

@[simp] lemma run_cons (s : σ) (op : ω) (ops : List ω) :
    run step s (op :: ops) = (step s op).bind fun s' => run step s' ops := rfl

lemma run_append (s : σ) (ops ops' : List ω) :
    run step s (ops ++ ops') = (run step s ops).bind fun t => run step t ops' := by
  induction ops generalizing s with
  | nil => rfl
  | cons op ops ih =>
    rw [List.cons_append, run_cons, run_cons, Option.bind_assoc]
    congr 1
    funext s'
    exact ih s'

/-- `Always` speaks of the states after the prefixes of the program, and of no others. -/
theorem always_iff_initial (s : σ) (ops : List ω) :
    Always step P s ops ↔
      ∀ pre suf t, ops = pre ++ suf → run step s pre = some t → P t := by
  induction ops generalizing s with
  | nil =>
    constructor
    · intro h pre suf t heq ht
      obtain ⟨rfl, -⟩ := List.append_eq_nil_iff.mp heq.symm
      simp only [run_nil, Option.some.injEq] at ht
      exact ht ▸ h
    · intro h
      exact h [] [] s rfl rfl
  | cons op ops ih =>
    constructor
    · rintro ⟨hs, hrest⟩ pre suf t heq ht
      cases pre with
      | nil =>
        simp only [run_nil, Option.some.injEq] at ht
        exact ht ▸ hs
      | cons op' pre =>
        obtain ⟨rfl, rfl⟩ := List.cons.inj heq
        obtain ⟨s', hs', ht'⟩ := Option.bind_eq_some_iff.mp ht
        exact (ih s').mp (hrest s' hs') pre suf t rfl ht'
    · intro h
      refine ⟨h [] (op :: ops) s rfl rfl, fun s' hs' => (ih s').mpr ?_⟩
      intro pre suf t heq ht
      exact h (op :: pre) suf t (by rw [heq, List.cons_append])
        (by rw [run_cons, hs', Option.bind_some, ht])

lemma Always.head {s : σ} {ops : List ω} (h : Always step P s ops) : P s := by
  cases ops with
  | nil => exact h
  | cons op ops => exact h.1

/-- The state after a whole program is one of the states it visits. -/
lemma Always.last {s t : σ} {ops : List ω} (h : Always step P s ops)
    (ht : run step s ops = some t) : P t :=
  (always_iff_initial s ops).mp h ops [] t (by rw [List.append_nil]) ht

/-- The invariant rule: what every step preserves holds in every state of every run. -/
theorem Always.of_step (hstep : ∀ s op s', P s → step s op = some s' → P s') {s : σ}
    (hs : P s) (ops : List ω) : Always step P s ops := by
  induction ops generalizing s with
  | nil => exact hs
  | cons op ops ih => exact ⟨hs, fun s' hs' => ih (hstep s op s' hs hs')⟩

/-- When a step leads from a `P`-state to a `P`-state exactly if it meets the condition, the
runs that stay in `P` are exactly the runs all of whose steps meet it.  An invariant `I` may
help to see that. -/
theorem always_iff_along {I : σ → Prop}
    (hstep : ∀ s op s', I s → P s → step s op = some s' → I s' ∧ (P s' ↔ C s op))
    {s : σ} (hI : I s) (hs : P s) (ops : List ω) : Always step P s ops ↔ Along step C s ops := by
  induction ops generalizing s with
  | nil => exact ⟨fun _ => trivial, fun _ => hs⟩
  | cons op ops ih =>
    constructor
    · intro h s' hs'
      obtain ⟨hI', hiff⟩ := hstep s op s' hI hs hs'
      have hP' : P s' := (h.2 s' hs').head
      exact ⟨hiff.mp hP', (ih hI' hP').mp (h.2 s' hs')⟩
    · intro h
      refine ⟨hs, fun s' hs' => ?_⟩
      obtain ⟨hI', hiff⟩ := hstep s op s' hI hs hs'
      obtain ⟨hop, hrest⟩ := h s' hs'
      exact (ih hI' (hiff.mpr hop)).mpr hrest

/-- Conditions that agree on the steps that have an outcome. -/
lemma along_congr {C' : σ → ω → Prop}
    (h : ∀ s op s', step s op = some s' → (C s op ↔ C' s op)) {s : σ} {ops : List ω} :
    Along step C s ops ↔ Along step C' s ops := by
  induction ops generalizing s with
  | nil => exact Iff.rfl
  | cons op ops ih =>
    exact forall_congr' fun s' => forall_congr' fun hs' => and_congr (h s op s' hs') ih

/-- The taint rule: if the steps that miss the condition are those that taint a state, and a
tainted state stays tainted, then a run ends untainted exactly if it begins so and all its
steps meet the condition. -/
theorem taint_iff_along {G : ω → Prop} {I D : σ → Prop}
    (hstep : ∀ s op s', G op → I s → step s op = some s' → I s' ∧ (D s' ↔ D s ∨ ¬ C s op))
    {s t : σ} {ops : List ω} (hops : ∀ op ∈ ops, G op) (hs : I s)
    (ht : run step s ops = some t) : I t ∧ (¬ D t ↔ ¬ D s ∧ Along step C s ops) := by
  induction ops generalizing s with
  | nil =>
    obtain rfl : s = t := by simpa using ht
    exact ⟨hs, by simp [Along]⟩
  | cons op ops ih =>
    rw [run_cons] at ht
    obtain ⟨s', hs', ht⟩ := Option.bind_eq_some_iff.mp ht
    obtain ⟨hI, hD⟩ := hstep s op s' (hops op List.mem_cons_self) hs hs'
    obtain ⟨hIt, hDt⟩ := ih (fun o ho => hops o (List.mem_cons_of_mem _ ho)) hI ht
    have halong : Along step C s (op :: ops) ↔ C s op ∧ Along step C s' ops := by
      simp [Along, hs']
    rw [hDt, hD, halong, not_or, not_not, and_assoc]
    exact ⟨hIt, Iff.rfl⟩

/-- A run ends in a state of the invariant. -/
lemma run_invariant (hstep : ∀ s op s', P s → step s op = some s' → P s') {s t : σ} {ops : List ω}
    (hs : P s) (ht : run step s ops = some t) : P t :=
  (Always.of_step hstep hs ops).last ht

/-- The projection rule: if every step is a step of another system, or does not change what is
seen of it, then so is every run. -/
theorem run_project {σ' ω' : Type*} {step' : σ' → ω' → Option σ'} {view : σ → σ'}
    {proj : ω → Option ω'} {G : ω → Prop} {I : σ → Prop}
    (hstep : ∀ s op t, I s → G op → step s op = some t → I t ∧
      ((proj op = none ∧ view t = view s) ∨
        ∃ op', proj op = some op' ∧ step' (view s) op' = some (view t)))
    {s t : σ} {ops : List ω} (hs : I s) (hops : ∀ op ∈ ops, G op)
    (ht : run step s ops = some t) : run step' (view s) (ops.filterMap proj) = some (view t) := by
  induction ops generalizing s with
  | nil =>
    obtain rfl : s = t := by simpa using ht
    rfl
  | cons op ops ih =>
    rw [run_cons] at ht
    obtain ⟨s', hs', ht⟩ := Option.bind_eq_some_iff.mp ht
    obtain ⟨hI, hproj⟩ := hstep s op s' hs (hops op List.mem_cons_self) hs'
    have hrest := ih hI (fun o ho => hops o (List.mem_cons_of_mem _ ho)) ht
    rcases hproj with ⟨hnone, hview⟩ | ⟨op', hsome, hstep'⟩
    · rw [List.filterMap_cons_none hnone, ← hview]
      exact hrest
    · rw [List.filterMap_cons_some hsome, run_cons, hstep', Option.bind_some]
      exact hrest

section Measure

variable {I F : σ → Prop} {s t : σ} {ops : List ω}

/-- A run is no longer than the measure that each of its steps decreases. -/
lemma length_le_of_decreasing (μ : σ → ℕ) (hstep : ∀ s op t, step s op = some t → μ t < μ s)
    (ht : run step s ops = some t) : ops.length + μ t ≤ μ s := by
  induction ops generalizing s with
  | nil =>
    obtain rfl : s = t := by simpa using ht
    simp
  | cons op ops ih =>
    rw [run_cons] at ht
    obtain ⟨s', hs', ht⟩ := Option.bind_eq_some_iff.mp ht
    have hlt := hstep s op s' hs'
    have hle := ih ht
    rw [List.length_cons]
    omega

/-- The progress rule: if steps decrease a measure, and a state without a next step is a final one,
then every run can be continued to a final state. -/
theorem exists_run_final (μ : σ → ℕ) (hstep : ∀ s op t, step s op = some t → μ t < μ s)
    (hI : ∀ s op t, I s → step s op = some t → I t)
    (hprogress : ∀ s, I s → F s ∨ ∃ op t, step s op = some t) (hs : I s) :
    ∃ ops t, run step s ops = some t ∧ F t := by
  induction hμ : μ s using Nat.strong_induction_on generalizing s with
  | _ n ih =>
    rcases hprogress s hs with hfinal | ⟨op, s', hs'⟩
    · exact ⟨[], s, rfl, hfinal⟩
    · obtain ⟨ops, t, ht, hfinal⟩ := ih (μ s') (hμ ▸ hstep s op s' hs') (hI s op s' hs hs') rfl
      exact ⟨op :: ops, t, by rw [run_cons, hs', Option.bind_some, ht], hfinal⟩

end Measure

end AraCore.Lib.Run
