/-
# From the promise to the future

What the future reports of each outcome that a promise can be given: by `set_value`, `SetError`
or `set_exception`, or by being abandoned.  `GetResult` is `noexcept` and catches what is derived
from `std::exception` only.
-/
import AraCore.Future.Invalid

namespace AraCore.Future

open Lib Comp

variable {V : Type} {h : Heap V} {f : Handle} {n k : ℕ} {p : PromiseLoc}
  {env : ℕ → Option Exn} {call : Cont V × FutureLoc → Code V Unit} {a : Act V}

/-! ## Outcomes -/

inductive Outcome (V : Type) where
  | value (v : Option V)
  | error (e : ErrorCode)
  | exception (x : Exn)
  | abandoned
deriving DecidableEq, Repr

namespace Outcome

/-- What the shared state is ready with. -/
def stored : Outcome V → Stored V
  | value v => .value v
  | error e => .error e
  | exception x => .exception x
  | abandoned => .broken

/-- What the future is to report. -/
def result : Outcome V → Result V
  | value v => .ok v
  | error e => .error e
  | exception (.futureError ec) =>
    match FutureErrc.ofStd ec with
    | some e => .error e.toErrorCode
    | none => .error invalidArgument
  | exception _ | abandoned => .error FutureErrc.brokenPromise.toErrorCode

end Outcome

/-- The operation gives the promise `k` the outcome. -/
inductive Gives (h : Heap V) (k : ℕ) : Outcome V → Act V → Prop
  | value (v : Option V) (c : Category) : Gives h k (.value v) (.setValue k v c)
  | error (e : ErrorCode) : Gives h k (.error e) (.setError k e)
  | exception (x : Exn) : Gives h k (.exception x) (.setException k x)
  | destroyed : Gives h k .abandoned (.destroyPromise k)
  | replaced (src : ℕ) : k ≠ src → (h.promises (.named src)).isSome → ¬ h.Busy (.named src) →
    Gives h k .abandoned (.assignPromise k src)

/-- `GetResult` on the future `f` returns `r`, and from then on that there is no state; `get` agrees
with it. -/
def Reports (h : Heap V) (f : FutureLoc) (r : Result V) : Prop :=
  ∃ h', getResult f h = .ok r h' ∧
    (∀ h'' : Heap V, h''.futures f = h'.futures f →
      getResult f h'' = .ok (.error FutureErrc.noState.toErrorCode) h'') ∧
    getValue f h = match r with
      | .ok v => .ok v h'
      | .error e => .throw (.ara e) h'

/-- The outcome `x` that the promise `k` is given reaches its future, which refers to the shared
state `n`. -/
structure RoundTrip (h : Heap V) (k n : ℕ) (x : Outcome V) : Prop where
  /-- The promise can be given the outcome. -/
  returns : (h.states n).continuation = none →
    ∀ (env : ℕ → Option Exn) (call : Cont V × FutureLoc → Code V Unit) (a : Act V),
    Gives h k x a → (x = .abandoned → ∃ f, h.futures f = some ⟨some n, some n⟩) →
    (∀ i, env i = none) → ∃ r h₁, perform env call a h = .ok r h₁
  /-- As long as the shared state is what it is then, the future reports the outcome. -/
  reported : (h.states n).continuation = none →
    ∀ (env : ℕ → Option Exn) (call : Cont V × FutureLoc → Code V Unit) (a : Act V) r h₁,
    Gives h k x a → (x = .abandoned → ∃ f, h.futures f = some ⟨some n, some n⟩) →
    perform env call a h = .ok r h₁ →
    ∀ (h₂ : Heap V) (f : FutureLoc), h₂.shared n = h₁.shared n →
      h₂.futures f = some ⟨some n, some n⟩ → Reports h₂ f x.result
  /-- If `then` has been called on the future, the one that the continuation gets reports it. -/
  handed : ∀ c, (h.states n).continuation = some c → x ≠ .abandoned →
    ∀ copy : Code V Unit, (∀ g, ∃ j, copy g = .ok () { g with copies := j }) →
    ∃ g : Heap V, Reports g c.arg x.result ∧
      ∀ call : Cont V × FutureLoc → Code V Unit, makeReady call (.named k) copy x.stored h =
        cleanup (cleanup (call (c, c.arg)) fun h => h.destroyFuture c.arg)
          (fun h => h.leave (.named k)) g

variable {x : Outcome V}

lemma Outcome.stored_result : x.stored.result = some x.result ↔
    ∀ y, x = .exception y → y.IsStd := by
  cases x with
  | value v => exact iff_of_true rfl (by simp)
  | error e => exact iff_of_true rfl (by simp)
  | abandoned => exact iff_of_true rfl (by simp)
  | exception y =>
    cases y with
    | futureError ec =>
      refine iff_of_true ?_ (by simp [Exn.IsStd])
      simp only [stored, Stored.result, Exn.reported, Exn.errorBy, result]
      cases FutureErrc.ofStd ec <;> rfl
    | ara e => exact iff_of_true rfl (by simp [Exn.IsStd])
    | std => exact iff_of_true rfl (by simp [Exn.IsStd])
    | other =>
      exact iff_of_false (by simp [stored, Stored.result, Exn.reported, Exn.errorBy])
        (by simp [Exn.IsStd])

/-! ## Storing the outcome -/

/-- A promise is fulfilled whose future is still valid, so that no continuation waits for it. -/
lemma wp_makeReady_alone (hp : h.Holds p n) (hn : h.shared n = none) (hbusy : ¬ h.Busy p)
    (hc : (h.states n).continuation = none) {copy : Code V Unit} (hcopy : Copying env copy)
    {st : Stored V} {Q : Post (Heap V) Exn Fault Unit}
    (hok : ∀ j, Q.ok () ((({ h.locking [p] with copies := j } : Heap V).settled p n st).leave p))
    (hstop : ∀ i y f h₁, env i = some y → Q.stop f h₁) :
    wp (makeReady call p copy st) Q h := by
  simp only [makeReady, wp_bind, wp_lockPromise hbusy, wp_modify, wp_cleanup]
  refine wp_setDelegate (n := n) (h := h.entered p) hp rfl hn hcopy (fun j => ?_)
    fun _ y hy => hstop _ y _ _ hy
  refine (wp_promise (h := ({ h.locking [p] with copies := j } : Heap V).settled p n st)
    hp).mpr ?_
  have hnone : ((({ h.locking [p] with copies := j } : Heap V).settled p n st).states
    n).continuation = none := hc
  simp only [fireContinuation, wp_bind, wp_get, hnone, wp_pure]
  exact hok j

/-- A future keeps its `State` alive. -/
lemma Heap.release_of_future {g : FutureLoc} {o : FutureObj} (ho : h.futures g = some o)
    (hn : o.extra = some n) : h.release (some n) = h :=
  Heap.release_owned (Or.inr ⟨g, o, ho, hn⟩)

/-- A promise is abandoned. -/
lemma Heap.breakPromise_unready (hn : h.shared n = none) (c : Option PromiseLoc) :
    (h.breakPromise (some n) c).shared n = some .broken ∧
      (h.breakPromise (some n) c).futures = h.futures := by
  simp only [Heap.breakPromise, hn]
  exact ⟨(Function.update_apply _ _ _ _).trans (if_pos rfl), rfl⟩

lemma Heap.break_release {f : FutureLoc} (hn : h.shared n = none)
    (hf : h.futures f = some ⟨some n, some n⟩) (c : Option PromiseLoc) :
    ((h.breakPromise (some n) c).release (some n)).shared n = some .broken := by
  obtain ⟨hs, hfut⟩ := Heap.breakPromise_unready hn c
  rw [Heap.release_of_future (by rw [hfut]; exact hf) rfl]
  exact hs

/-- The outcome is stored in the shared state. -/
lemma Gives.wp_perform (hi : Inv Client.any none h) (hp : h.Holds (.named k) n)
    (hn : h.shared n = none) (hc : (h.states n).continuation = none) (ha : Gives h k x a)
    (hx : x = .abandoned → ∃ f, h.futures f = some ⟨some n, some n⟩) :
    wp (perform env call a) ⟨fun _ h₁ => h₁.shared n = some x.stored,
      fun _ _ => ∃ i y, env i = some y, fun _ _ => ∃ i y, env i = some y⟩ h := by
  have hbusy := hi.core.not_busy hp hn
  have hready : ∀ {g : Heap V} {copy : Code V Unit} {st : Stored V}, Copying env copy →
      g.promises = h.promises → g.shared = h.shared → g.states = h.states → g.held = h.held →
      wp (makeReady call (.named k) copy st) ⟨fun _ h₁ => h₁.shared n = some st,
        fun _ _ => ∃ i y, env i = some y, fun _ _ => ∃ i y, env i = some y⟩ g := by
    intro g copy st hcopy hgp hgs hgt hgh
    refine wp_makeReady_alone (n := n) ?_ (by rw [hgs]; exact hn) ?_ (by rw [hgt]; exact hc)
      hcopy (fun j => (Heap.settled_shared _ _ _ _ _).trans (if_pos rfl))
      fun i y _ _ hy => ⟨i, y, hy⟩
    · rw [Heap.Holds, hgp]
      exact hp
    · rw [Heap.Busy, hgh]
      exact hbusy
  cases ha with
  | value v c =>
    simp only [perform, wp_bind, wp_promise hp, wp_pure]
    cases v with
    | none => exact hready .moved rfl rfl rfl rfl
    | some v =>
      cases c with
      | lvalue =>
        simp only [setValue, wp_bind]
        refine wp_copyValue (hready .copied rfl rfl rfl rfl) fun y hy => ⟨_, y, hy⟩
      | rvalue => exact hready .copied rfl rfl rfl rfl
  | error e =>
    simp only [perform, wp_bind, wp_promise hp, wp_pure]
    exact hready .moved rfl rfl rfl rfl
  | exception y =>
    simp only [perform, wp_bind, wp_promise hp, wp_pure, wp_modify]
    exact hready .moved rfl rfl rfl rfl
  | destroyed =>
    obtain ⟨f, hf⟩ := hx rfl
    have hp' : h.promises (.named k) = some ⟨some n, some n⟩ := hp
    simp only [perform, wp_bind, wp_promise hp, wp_get]
    rw [if_neg (show .promise (.named k) ∉ h.held from hbusy)]
    simp only [wp_bind, wp_modify, wp_pure, Heap.destroyPromise, hp']
    rw [Heap.release_of_future (h := { h with promises := h.promises.erase (.named k) }) hf rfl]
    exact (Heap.breakPromise_unready
      (h := { h with promises := h.promises.erase (.named k) }) hn _).1
  | replaced src hne hsrc hsb =>
    obtain ⟨f, hf⟩ := hx rfl
    obtain ⟨o, ho⟩ := Option.isSome_iff_exists.mp hsrc
    simp only [perform, wp_bind, wp_promise hp, wp_promise ho]
    rw [if_pos hne]
    simp only [wp_bind]
    rw [wp_lockPromises_free hne hbusy hsb]
    simp only [wp_modify, wp_pure]
    obtain ⟨ps, -, heq⟩ := Heap.assignPromise_eq
      (h.locking [.named k, .named src]) (.named k) (.named src)
      ⟨some n, some n⟩ o
    rw [Heap.assignPromise_withHeld, heq]
    exact Heap.break_release (h := { h.locking [.named k, .named src] with
      promises := ps }) hn hf _

/-! ## Reading it -/

variable {g : FutureLoc} {st : Stored V}

/-- `GetResult` on a future that is ready. -/
lemma getResult_ready {r : Result V} (hg : h.futures g = some ⟨some n, some n⟩)
    (hn : h.shared n = some st) (hr : st.result = some r) :
    getResult g h = .ok r (h.setFuture g ⟨none, some n⟩) := by
  refine eq_ok_of_wp (wp_getResult hg rfl hn (fun r' hr' => ⟨?_, rfl⟩) fun hnone => ?_)
  · rw [hr] at hr'
    exact (Option.some.inj hr').symm
  · rw [hr] at hnone
    cases hnone

/-- The future reports what `GetResult` makes of the contents of its shared state. -/
lemma reports_iff {r : Result V} (hg : h.futures g = some ⟨some n, some n⟩)
    (hn : h.shared n = some st) : Reports h g r ↔ st.result = some r := by
  constructor
  · rintro ⟨h', hget, -⟩
    rcases hr : st.result with _ | r'
    · have hstop : getResult g h = .stop .terminate (h.setFuture g ⟨none, some n⟩) := by
        refine eq_stop_of_wp (wp_getResult hg rfl hn (fun r' hr' => ?_) fun _ => ⟨rfl, rfl⟩)
        rw [hr] at hr'
        cases hr'
      rw [hget] at hstop
      cases hstop
    · rw [getResult_ready hg hn hr] at hget
      cases hget
      rfl
  · intro hr
    have hget := getResult_ready hg hn hr
    refine ⟨_, hget, fun h₃ hg₃ => ?_, ?_⟩
    · refine getResult_invalid (o := ⟨none, some n⟩) (hg₃.trans ?_) rfl
      simp [Heap.setFuture]
    · refine (bind_of_ok hget).trans ?_
      cases r <;> rfl

/-- Every outcome makes the round trip, except for an exception that is not derived from
`std::exception`. -/
theorem roundTrip_iff (hr : Reachable h) (hp : h.Holds (.named k) n) (hn : h.shared n = none)
    (x : Outcome V) : RoundTrip h k n x ↔ ∀ y, x = .exception y → y.IsStd := by
  have hstored : ∀ {env call a r h₁}, (h.states n).continuation = none → Gives h k x a →
      (x = .abandoned → ∃ f, h.futures f = some ⟨some n, some n⟩) →
      perform env call a h = .ok r h₁ → h₁.shared n = some x.stored := by
    intro env call a r h₁ hc ha hx heq
    have hwp : wp (perform env call a) _ h := ha.wp_perform hr.inv hp hn hc hx
    unfold wp at hwp
    rw [heq] at hwp
    exact hwp
  have hreturns : ∀ {env a} call, (h.states n).continuation = none → Gives h k x a →
      (x = .abandoned → ∃ f, h.futures f = some ⟨some n, some n⟩) → (∀ i, env i = none) →
      ∃ r h₁, perform env call a h = .ok r h₁ := by
    intro env a call hc ha hx henv
    have hwp : wp (perform env call a) _ h := ha.wp_perform hr.inv hp hn hc hx
    unfold wp at hwp
    split at hwp
    · next r h₁ heq => exact ⟨r, h₁, heq⟩
    all_goals
      obtain ⟨i, y, hy⟩ := hwp
      rw [henv] at hy
      cases hy
  constructor
  · rintro hround y rfl
    suffices hres : (Outcome.exception y : Outcome V).stored.result =
        some (Outcome.exception y : Outcome V).result from Outcome.stored_result.mp hres y rfl
    rcases hc : (h.states n).continuation with _ | c
    · obtain ⟨r, h₁, heq⟩ := hreturns (fun _ => pure ()) hc (.exception y) (by simp)
        fun _ => rfl
      have hf : (h₁.setFuture (.handle (.named 0)) ⟨some n, some n⟩).futures
          (.handle (.named 0)) = some ⟨some n, some n⟩ := by simp [Heap.setFuture]
      have hrep := hround.reported hc _ _ _ r h₁ (.exception y) (by simp) heq
        (h₁.setFuture (.handle (.named 0)) ⟨some n, some n⟩) _ rfl hf
      have hs := hstored hc (.exception y) (by simp) heq
      exact (reports_iff hf hs).mp hrep
    · -- a continuation that stops shows the memory in which it is invoked
      have hcopy : ∀ g : Heap V, ∃ j, (pure () : Code V Unit) g =
          .ok () { g with copies := j } := fun g => ⟨g.copies, rfl⟩
      obtain ⟨g, hrep, heq⟩ := hround.handed c hc (by simp) _ hcopy
      obtain ⟨g', hgf, hgn, heq'⟩ := hr.inv.core.fired hcopy hp rfl hn hc
      have hsame := (heq fun _ => stop .undefined).symm.trans (heq' fun _ => stop .undefined)
      cases hsame
      exact (reports_iff hgf hgn).mp hrep
  · intro hx
    have hres := Outcome.stored_result.mpr hx
    refine ⟨fun hc _ call _ => hreturns call hc, fun hc env call a r h₁ ha hx' heq h₂ f hs hf => ?_,
      fun c hc _ copy hcopy => ?_⟩
    · exact (reports_iff hf (hs.trans (hstored hc ha hx' heq))).mpr hres
    · obtain ⟨g, hgf, hgn, heq⟩ := hr.inv.core.fired hcopy hp rfl hn hc
      exact ⟨g, (reports_iff hgf hgn).mpr hres, heq⟩

/-- The future of a promise that is not fulfilled yet has been retrieved. -/
def retrieved : Prog ℕ .void :=
  .act (.newPromise 0) fun _ => .act (.getFuture 0 0) fun _ => .ret ()

theorem roundTrip_retrieved :
    RoundTrip (runMain (fun _ => none) 0 retrieved).state 0 0 (.error ⟨7, .optional, 5⟩) :=
  (roundTrip_iff (k := 0) (n := 0)
    ⟨fun _ => none, 0, .void, retrieved, rfl, fun _ hf => by cases hf⟩ rfl rfl _).mpr (by simp)

/-- An exception that is not derived from `std::exception` terminates the program in
`GetResult`. -/
theorem getResult_of_other :
    ¬ ∀ (h : Heap ℕ) k n x, Reachable h → h.Holds (.named k) n → h.shared n = none →
      RoundTrip h k n x := by
  intro hall
  have hround := hall (runMain (fun _ => none) 0 retrieved).state 0 0 (.exception .other)
    ⟨fun _ => none, 0, .void, retrieved, rfl, fun _ hf => by cases hf⟩ rfl rfl
  obtain ⟨h', hget, -⟩ := hround.reported rfl (fun _ => none) (fun _ => pure ()) _ _ _
    (.exception .other) (by simp) rfl _ (.handle (.named 0)) rfl rfl
  cases hget

end AraCore.Future
