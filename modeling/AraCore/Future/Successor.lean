/-
# What a continuation does with its successor

A function that was passed to `then` has ended, and its successor is fulfilled as it ended, once,
unless it has to wait for an inner future; no exception leaves the continuation.  This fails where
the copy of a value throws that an `inner_continuation` sets, and where a `Result` is copied.
-/
import AraCore.Future.Program

namespace AraCore.Future

open Lib Comp

variable {V : Type} {h : Heap V} {κ : Kind}

/-- The shared state `n` is made ready by a promise. -/
def Event.isFulfilment (n : ℕ) : Event V → Bool
  | fulfilled k _ => k = n
  | _ => false

/-- The continuations so far have done with their successors what they should. -/
structure Delivered (h : Heap V) : Prop where
  /-- No exception has left a continuation. -/
  contained : ∀ p x, .left p x ∉ h.log
  once : ∀ n, h.log.countP (Event.isFulfilment n) ≤ 1
  /-- The function has ended with a value, an error, an invalid future or an exception, and the
  successor has this, or the error for the exception that the copy of the value has thrown. -/
  settled : ∀ m w st, .returned m w ∈ h.log → w.settles = some st → .fulfilled m st ∈ h.log ∨
    ∃ v x e, st = .value v ∧ .copyThrew (.succ m) x ∈ h.log ∧ x.passedOn = some e ∧
      .fulfilled m (.error e) ∈ h.log
  /-- The function has returned a future that was ready or has been fulfilled since, and the
  successor has what this has. -/
  forwarded : ∀ m j, .returned m (.inner (some j)) ∈ h.log → ¬ h.Awaits m j ∨ h.Fulfilled j →
    ∃ st r, h.shared j = some st ∧ st.forward = some r ∧ .fulfilled m r ∈ h.log

/-- All exceptions are derived from `std::exception`. -/
structure OnlyStd (h : Heap V) : Prop where
  threw : ∀ x, .threw x ∈ h.log → x.IsStd
  raised : ∀ x, .raised x ∈ h.log → x.IsStd
  copyThrew : ∀ p x, .copyThrew p x ∈ h.log → x.IsStd

/-- No value could not be copied that an `inner_continuation` sets. -/
def RelaysCopy (h : Heap V) : Prop := ∀ m x, .copyThrew (.outer m) x ∉ h.log

/-- No `Result` could not be copied. -/
def ResultsCopy (h : Heap V) : Prop := ∀ x, .copyAborted x ∉ h.log

lemma OnlyStd.not_tainted (hs : OnlyStd h) (hr : RelaysCopy h) : ¬ h.Tainted := by
  rintro (⟨x, hx, ht | ⟨p, ht⟩⟩ | ⟨m, x, ht⟩)
  · exact hx (hs.threw x ht)
  · exact hx (hs.copyThrew p x ht)
  · exact hr m x ht

lemma Chronicle.countP_isFulfilment (hc : Chronicle h) (n : ℕ) :
    h.log.countP (Event.isFulfilment n) ≤ 1 := by
  refine hc.countP_le_one (k := .settled n) fun e he => ?_
  cases e <;> simp_all [Event.isFulfilment, Event.key]

lemma Inv.delivered (hi : Inv Client.any none h) (ht : ¬ h.Tainted) : Delivered h where
  contained p x hx := ht (hi.core.chronicle.backed _ hx)
  once := hi.core.chronicle.countP_isFulfilment
  settled m w st hw hst := by
    rcases hi.forwarded m (by simp) w hw with ht' | ⟨st', hst', hf⟩ | ⟨v, x, e, hv, hx, he, hf⟩ |
      ⟨j, rfl, -⟩
    · exact absurd ht' ht
    · rw [hst] at hst'
      cases hst'
      exact Or.inl hf
    · rw [hst] at hv
      exact Or.inr ⟨v, x, e, Option.some.inj hv, hx, he, hf⟩
    · cases hst
  forwarded m j hw hj := by
    rcases hi.forwarded m (by simp) _ hw with ht' | ⟨st', hst', hf⟩ | ⟨v, x, e, hv, -⟩ |
      ⟨i, heq, hr⟩
    · exact absurd ht' ht
    · cases hst'
    · cases hv
    · cases heq
      rcases hr with hr | ⟨ha, -, -, hf⟩ | ⟨ha, -, hf⟩
      · exact hr
      · exact absurd hj (not_or.mpr ⟨not_not.mpr ha, hf⟩)
      · exact absurd hj (not_or.mpr ⟨not_not.mpr ha, hf⟩)

/-- In every run in which all exceptions are derived from `std::exception`, no copy throws of a
value that an `inner_continuation` sets, and no copy of a `Result` throws, every continuation does
what it should, and nothing terminates the program. -/
theorem delivers (env : ℕ → Option Exn) (fuel : ℕ) (p : Prog V κ)
    (hstd : OnlyStd (runMain env fuel p).state) (hrelay : RelaysCopy (runMain env fuel p).state)
    (hresult : ResultsCopy (runMain env fuel p).state) :
    (runMain env fuel p).fault ≠ some .terminate ∧
      ((∀ f, (runMain env fuel p).fault = some f → f = .undefined ∨ f = .blocked) →
        Delivered (runMain env fuel p).state) := by
  refine ⟨fun hfault => ?_, fun hf => ?_⟩
  · have hrun := Client.any_tolerant.run trivial env fuel p.within_true
    unfold wp at hrun
    unfold runMain at hfault hstd hresult
    split at hrun
    · next heq =>
      rw [heq] at hfault
      cases hfault
    · next heq =>
      rw [heq] at hfault
      cases hfault
    · next f h heq =>
      rw [heq] at hfault hstd hresult
      rcases hrun.terminate (Option.some.inj hfault) with ⟨-, x, hx⟩ | ⟨x, hx, hr⟩
      · exact hresult x hx
      · exact hx (hstd.raised x hr)
  · have hr : Reachable (runMain env fuel p).state := ⟨env, fuel, κ, p, rfl, hf⟩
    exact hr.inv.delivered (hstd.not_tainted hrelay)

/-- A function returns a future that is fulfilled later. -/
def relayed : Prog ℕ .void :=
  .act (.newPromise 0) fun _ => .act (.getFuture 0 0) fun _ =>
    .act (.newPromise 1) fun _ => .act (.getFuture 1 1) fun _ =>
      .thenCall (.named 0) .future (fun _ => .ret (some (.named 1))) 2 fun _ =>
        .act (.setValue 0 (some 3) .rvalue) fun _ =>
          .act (.setValue 1 (some 4) .rvalue) fun _ => .ret ()

lemma log_relayed : (runMain (fun _ => none) 4 relayed).state.log =
    [.fulfilled 2 (.value (some 4)), .locks [.outer 2] [.named 1], .started (.outer 2),
      .fulfilled 1 (.value (some 4)), .locks [.named 1] [],
      .locks [.succ 2] [.named 0], .returned 2 (.inner (some 1)),
      .called 2 (some (.value (some 3))), .started (.succ 2), .fulfilled 0 (.value (some 3)),
      .locks [.named 0] [], .registered 2 0] :=
  rfl

theorem delivers_relayed :
    (runMain (fun _ => none) 4 relayed).fault ≠ some .terminate ∧
      ((∀ f, (runMain (fun _ => none) 4 relayed).fault = some f → f = .undefined ∨ f = .blocked) →
        Delivered (runMain (fun _ => none) 4 relayed).state) :=
  delivers (fun _ => none) 4 relayed
    ⟨by simp [log_relayed], by simp [log_relayed], by simp [log_relayed]⟩
    (by simp [RelaysCopy, log_relayed]) (by simp [ResultsCopy, log_relayed])

/-- The third copy throws, the one that the `inner_continuation` makes. -/
def throwsThird (k : ℕ) : Option Exn := if k = 2 then some .std else none

lemma log_relayed_throwsThird : (runMain throwsThird 4 relayed).state.log =
    [.left (.outer 2) .std, .copyThrew (.outer 2) .std, .started (.outer 2),
      .fulfilled 1 (.value (some 4)), .locks [.named 1] [],
      .locks [.succ 2] [.named 0], .returned 2 (.inner (some 1)),
      .called 2 (some (.value (some 3))), .started (.succ 2), .fulfilled 0 (.value (some 3)),
      .locks [.named 0] [], .registered 2 0] :=
  rfl

/-- The exception leaves the continuation, and the successor is not fulfilled. -/
theorem relay_throws :
    ¬ ∀ (env : ℕ → Option Exn) (fuel : ℕ) (p : Prog ℕ .void), (∀ k x, env k = some x → x.IsStd) →
      OnlyStd (runMain env fuel p).state → (runMain env fuel p).fault = none →
      Delivered (runMain env fuel p).state := by
  intro hall
  have henv : ∀ k x, throwsThird k = some x → x.IsStd := by
    intro k x hx
    rw [throwsThird] at hx
    split at hx <;> cases hx
    trivial
  have hd := hall throwsThird 4 relayed henv
    ⟨by simp [log_relayed_throwsThird], by simp [log_relayed_throwsThird], by
      simp [log_relayed_throwsThird, Exn.IsStd]⟩ rfl
  exact hd.contained (.outer 2) .std (by simp [log_relayed_throwsThird])

end AraCore.Future
