/-
# Operations on invalid futures

A future can become invalid in several ways, which differ in whether it keeps its `State`:
`GetResult` and a `then` that stores the continuation leave it, moves and a `then` on a ready
future take it away.  `then` locks the mutex in the `State` before it looks at the future.
-/
import AraCore.Future.Pairing

namespace AraCore.Future

open Lib Comp

variable {V : Type} {h : Heap V} {f : Handle} {o : FutureObj}

/-- `GetResult` and `then` fail on the future `f` without calling the function, without touching
a stored continuation, and with every mutex released. -/
structure FailsCleanly (f : Handle) (h : Heap V) : Prop where
  getResult : getResult (.handle f) h = .ok (.error FutureErrc.noState.toErrorCode) h
  /-- What `then` leaves does not depend on the function, nor on what a call would do. -/
  andThen : ∃ h' : Heap V, h'.states = h.states ∧ h'.held = h.held ∧
    (∀ g, h'.futures (.handle g) = h.futures (.handle g)) ∧
    ∀ (call : Cont V × FutureLoc → Code V Unit) κ (func : Handle → Prog V κ),
      andThen call f κ func h = .throw (stdError .noState) h'

lemma getResult_invalid {g : FutureLoc} (ho : h.futures g = some o) (hd : o.delegate = none) :
    getResult g h = .ok (.error FutureErrc.noState.toErrorCode) h := by
  have hf : future g h = .ok o h := by
    simp only [future, bind, Comp.get, ho]
    rfl
  refine (bind_of_ok hf).trans ?_
  rw [hd]
  rfl

lemma andThen_invalid (hi : Inv Client.any none h) {s : ℕ}
    (ho : h.futures (.handle f) = some ⟨none, some s⟩)
    (call : Cont V × FutureLoc → Code V Unit) (κ : Kind) (func : Handle → Prog V κ) :
    andThen call f κ func h = .throw (stdError .noState) h.discarded :=
  eq_throw_of_wp (wp_andThen_invalid hi ho ⟨rfl, rfl⟩)

/-- `then` on a future without a `State` follows a null pointer. -/
lemma not_failsCleanly (ho : h.futures (.handle f) = some ⟨none, none⟩) : ¬ FailsCleanly f h := by
  rintro ⟨-, h', -, -, -, heq⟩
  have hstop : andThen (fun _ => pure ()) f .void (fun _ => .ret ()) h = .stop .undefined h :=
    eq_stop_of_wp (wp_andThen_null ho ⟨rfl, rfl⟩)
  rw [heq] at hstop
  cases hstop

/-- `GetResult` on an invalid future returns that there is no state; the future fails cleanly
exactly if it still has its `State`. -/
theorem failsCleanly_iff (hr : Reachable h) (ho : h.futures (.handle f) = some o)
    (hd : o.delegate = none) :
    getResult (.handle f) h = .ok (.error FutureErrc.noState.toErrorCode) h ∧
      (FailsCleanly f h ↔ o.extra ≠ none) := by
  refine ⟨getResult_invalid ho hd, ?_⟩
  obtain ⟨d, e⟩ := o
  cases hd
  constructor
  · rintro hf rfl
    exact not_failsCleanly ho hf
  · intro he
    obtain ⟨s, rfl⟩ := Option.ne_none_iff_exists'.mp he
    refine ⟨getResult_invalid ho rfl, h.discarded, rfl, rfl, fun g => ?_,
      andThen_invalid hr.inv ho⟩
    show ((nextPromise h).futures.erase (.next h.next)) (.handle g) = _
    rw [Table.erase_apply, if_neg (by simp), nextPromise_futures, if_neg (by simp)]

theorem failsCleanly_pendingThen :
    FailsCleanly (.named 0) (runMain (fun _ => none) 1 pendingThen).state :=
  (failsCleanly_iff (o := ⟨none, some 0⟩)
    ⟨fun _ => none, 1, .void, pendingThen, rfl, fun _ hf => by cases hf⟩ rfl rfl).2.mpr (by simp)

/-- `then` is called on a future that is ready. -/
def readyThen : Prog ℕ .void :=
  .act (.newPromise 0) fun _ => .act (.getFuture 0 0) fun _ => .act (.setValue 0 (some 3) .rvalue)
    fun _ => .thenCall (.named 0) .void (fun _ => .ret ()) 1 fun _ => .ret ()

/-- After `then` on a ready future, a second `then` follows a null pointer. -/
theorem then_after_ready :
    ¬ ∀ (h : Heap ℕ) (f : Handle) (o : FutureObj), Reachable h →
      h.futures (.handle f) = some o → o.delegate = none → FailsCleanly f h := by
  intro hall
  refine not_failsCleanly (f := .named 0) (h := (runMain (fun _ => none) 1 readyThen).state) rfl ?_
  exact hall _ (.named 0) ⟨none, none⟩
    ⟨fun _ => none, 1, .void, readyThen, rfl, fun _ hf => by cases hf⟩ rfl rfl

end AraCore.Future
