/-
# Abandoned promises

A promise that is destroyed or assigned to makes its shared state ready in `std::promise`, where
no continuation is invoked.
-/
import AraCore.Future.Outcome

namespace AraCore.Future

open Lib Comp

variable {V : Type} {h h₁ : Heap V} {k n : ℕ} {env : ℕ → Option Exn}
  {call : Cont V × FutureLoc → Code V Unit}

/-- The continuation that has captured `p` is invoked. -/
def Event.isStart (p : PromiseLoc) : Event V → Bool
  | started q => q = p
  | _ => false

/-- The continuation that has captured `p` has been invoked once, its function has received a
future that reports `broken_promise`, and its successor is ready. -/
structure Notified (h : Heap V) (p : PromiseLoc) : Prop where
  once : h.log.countP (Event.isStart p) = 1
  broken : ∀ m, p = .succ m → .called m (some .broken) ∈ h.log
  ready : ∀ m, p.node = some m → (h.shared m).isSome

lemma Notified.started {p : PromiseLoc} (hn : Notified h p) : h.Started p := by
  have hpos : 0 < h.log.countP (Event.isStart p) := by
    rw [hn.once]
    exact Nat.one_pos
  obtain ⟨e, he, hs⟩ := List.countP_pos_iff.mp hpos
  cases e <;> simp [Event.isStart] at hs
  subst hs
  exact he

lemma Heap.breakPromise_shared {d : Option ℕ} (hd : d ≠ some n) (c : Option PromiseLoc) :
    (h.breakPromise d c).shared n = h.shared n := by
  unfold Heap.breakPromise
  split
  · rfl
  · next j =>
    split
    · exact Function.update_of_ne (fun heq => hd (congrArg some heq.symm)) _ _
    · rfl

lemma Heap.log_breakPromise (d : Option ℕ) (c : Option PromiseLoc) :
    h.log ⊆ (h.breakPromise d c).log := by
  unfold Heap.breakPromise
  split
  · exact List.Subset.refl _
  · split
    · exact List.subset_cons_self _ _
    · exact List.Subset.refl _

lemma Heap.mem_breakPromise (hn : h.shared n = none) (c : Option PromiseLoc) :
    .abandoned n c ∈ (h.breakPromise (some n) c).log := by
  simp only [Heap.breakPromise, hn]
  exact List.mem_cons_self

lemma Heap.log_releaseState (j s : ℕ) : h.log ⊆ (Heap.releaseState j s h).log := by
  induction j generalizing h s with
  | zero => exact List.Subset.refl _
  | succ j ih =>
    rw [Heap.releaseState]
    split
    · exact List.Subset.refl _
    dsimp only
    split
    · exact List.Subset.refl _
    · refine List.Subset.trans ?_ (Heap.log_breakPromise _ _)
      split
      · exact List.Subset.refl _
      · exact ih (h := { h.setState s ⟨none, none⟩ with promises := _ }) _

/-- `State`s that disappear do not abandon a shared state that no promise has any more. -/
lemma Heap.releaseState_shared (hd : h.Dead n) (j s : ℕ) :
    (Heap.releaseState j s h).shared n = h.shared n := by
  induction j generalizing h s with
  | zero => rfl
  | succ j ih =>
    rw [Heap.releaseState]
    split
    · rfl
    dsimp only
    split
    · rfl
    · next p o hpo =>
      have ho : h.promises p = some o := by
        obtain ⟨c, -, hc⟩ := Option.bind_eq_some_iff.mp hpo
        obtain ⟨o', ho', heq⟩ := Option.map_eq_some_iff.mp hc
        cases heq
        exact ho'
      have hd' : ({ h.setState s ⟨none, none⟩ with
          promises := h.promises.erase p } : Heap V).Dead n := by
        intro q o' hq
        simp only [Table.erase_apply] at hq
        split at hq
        · cases hq
        · exact hd q o' hq
      rw [Heap.breakPromise_shared (hd p o ho)]
      split
      · rfl
      · exact ih hd' _

/-- The operation that abandons a promise calls nothing. -/
lemma Gives.wp_abandoned (hi : Inv Client.any none h) {a : Act V} (ha : Gives h k .abandoned a)
    (hp : h.Holds (.named k) n) (hn : h.shared n = none) {c : Cont V}
    (hc : (h.states n).continuation = some c) :
    wp (perform env call a) ⟨fun _ h₁ => .abandoned n (some c.promise) ∈ h₁.log ∧
      ∀ p, h₁.Started p ↔ h.Started p, fun _ _ => False, fun _ _ => False⟩ h := by
  have hbusy := hi.core.not_busy hp hn
  have hpend : h.pending ⟨some n, some n⟩ = some c.promise := congrArg (Option.map Cont.promise) hc
  cases ha with
  | destroyed =>
    have hp' : h.promises (.named k) = some ⟨some n, some n⟩ := hp
    have hdead : ({ h with promises := h.promises.erase (.named k) } : Heap V).Dead n := by
      intro q o hq hqn
      simp only [Table.erase_apply] at hq
      split at hq
      · cases hq
      · next hne => exact hne (hi.core.graph.promise_inj q _ o _ n hq hp hqn rfl)
    obtain ⟨-, -, hq⟩ := hi.destroyNamed hbusy trivial
    simp only [perform, wp_bind, wp_promise hp, wp_get]
    rw [if_neg (show .promise (.named k) ∉ h.held from hbusy)]
    refine ⟨?_, hq.started_iff⟩
    simp only [Heap.destroyPromise, hp', hpend]
    exact Heap.mem_breakPromise ((Heap.releaseState_shared hdead _ _).trans hn) _
  | replaced src hne hsrc hsb =>
    obtain ⟨o, ho⟩ := Option.isSome_iff_exists.mp hsrc
    obtain ⟨hi₁, he₁⟩ := hi.note_both hne hbusy hsb
    obtain ⟨-, he', hq⟩ := hi₁.assignPromise (i := k) (j := src) hne hp ho hbusy hsb trivial
    simp only [perform, wp_bind, wp_promise hp, wp_promise ho]
    rw [if_pos hne]
    simp only [wp_bind]
    rw [wp_lockPromises_free hne hbusy hsb]
    simp only [wp_modify, wp_pure]
    rw [Heap.assignPromise_withHeld, Heap.unlock_withHeld (he₁.trans he').held]
    refine ⟨?_, fun p => (hq.started_iff p).trans (Heap.mem_note (by simp))⟩
    obtain ⟨ps, -, heq⟩ := Heap.assignPromise_eq
      (h.locking [.named k, .named src]) (.named k) (.named src)
      ⟨some n, some n⟩ o
    rw [heq, ← hpend]
    exact Heap.log_releaseState _ _ (Heap.mem_breakPromise
      (h := { h.locking [.named k, .named src] with promises := ps }) hn _)

/-- No continuation hears of an abandonment. -/
theorem abandonment_unheard (hr : Reachable h) :
    (∀ n p, .abandoned n (some p) ∈ h.log → ¬ Notified h p) ∧
      ∀ k n c a, h.Holds (.named k) n → h.shared n = none → (h.states n).continuation = some c →
        Gives h k .abandoned a → ∀ env call, ∃ r h₁, perform env call a h = .ok r h₁ ∧
          .abandoned n (some c.promise) ∈ h₁.log ∧ ¬ Notified h₁ c.promise := by
  have hconts := hr.inv.core.conts
  refine ⟨fun n p ha hno => (hconts.abandoned n p ha).1 hno.started, ?_⟩
  intro k n c a hp hn hc ha env call
  have hwp : wp (perform env call a) _ h := ha.wp_abandoned hr.inv hp hn hc
  unfold wp at hwp
  split at hwp
  · next r h₁ heq =>
    refine ⟨r, h₁, heq, hwp.1, fun hno => ?_⟩
    exact hconts.waiting n c hc hn ((hwp.2 _).mp hno.started)
  · exact hwp.elim
  · exact hwp.elim

theorem abandonment_unheard_pendingThen :
    ∃ r h₁, perform (fun _ => none) (fun _ => pure ()) (.destroyPromise 0)
        (runMain (fun _ => none) 1 pendingThen).state = .ok r h₁ ∧
      .abandoned 0 (some (.succ 1)) ∈ h₁.log ∧ ¬ Notified h₁ (.succ 1) :=
  (abandonment_unheard
    ⟨fun _ => none, 1, .void, pendingThen, rfl, fun _ hf => by cases hf⟩).2 0 0
      (.link 1 .void fun _ => .ret ()) _ rfl rfl rfl .destroyed _ _

/-- The promise is destroyed on whose future `then` has been called. -/
def abandonedThen : Prog ℕ .void :=
  .act (.newPromise 0) fun _ => .act (.getFuture 0 0) fun _ =>
    .thenCall (.named 0) .void (fun _ => .ret ()) 1 fun _ =>
      .act (.destroyPromise 0) fun _ => .ret ()

/-- The continuation of an abandoned promise is never invoked, and its successor never ready,
although the predecessor still owns the `State`. -/
theorem continuation_unheard :
    ¬ ∀ (h : Heap ℕ) n p, Reachable h → .abandoned n (some p) ∈ h.log → Notified h p := by
  intro hall
  have hno := hall (runMain (fun _ => none) 1 abandonedThen).state 0 (.succ 1)
    ⟨fun _ => none, 1, .void, abandonedThen, rfl, fun _ hf => by cases hf⟩ List.mem_cons_self
  cases hno.ready 1 rfl

end AraCore.Future
