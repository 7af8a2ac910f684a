/-
# `Future::then`

The specification of `then`: the call on an invalid future, on a future that is ready, whose
continuation it invokes, and on one that is not, in whose `State` it stores the continuation.
-/
import AraCore.Future.Invoke

namespace AraCore.Future

open Lib Comp

variable {V α : Type} {h h' h₀ : Heap V} {C : Client V} {X : Option PromiseLoc} {fuel k : ℕ}
  {env : ℕ → Option Exn} {call : Cont V × FutureLoc → Code V Unit} {n : ℕ} {κ : Kind}
  {f : Handle} {func : Handle → Prog V κ}

/-! ## The successor that `then` makes -/

lemma nextPromise_futures (h : Heap V) (f : FutureLoc) : (nextPromise h).futures f =
    if f = .next h.next then some ⟨some h.next, some h.next⟩ else h.futures f :=
  Table.set_apply _ _ _ _

/-- The memory after the destruction of the promise and the future that `then` has just made. -/
def Heap.discarded (h : Heap V) : Heap V :=
  { h with
    next := h.next + 1
    shared := Function.update h.shared h.next (some .broken)
    retrieved := Function.update h.retrieved h.next true
    promises := (nextPromise h).promises.erase (.succ h.next)
    futures := (nextPromise h).futures.erase (.next h.next)
    log := .abandoned h.next none :: h.log }

lemma Heap.release_owned {s : ℕ} (hs : h.Owned s) : h.release (some s) = h := by
  show releaseState h.next s h = h
  cases h.next with
  | zero => rfl
  | succ k => rw [releaseState, if_pos hs]

/-- A `State` without a continuation that has no owner is cleared, at most. -/
lemma Heap.release_empty {s : ℕ} (hs : h.states s = ⟨none, none⟩) : h.release (some s) = h := by
  by_cases ho : h.Owned s
  · exact Heap.release_owned ho
  · show releaseState h.next s h = h
    have hstates : Function.update h.states s ⟨none, none⟩ = h.states := by
      rw [← hs, Function.update_eq_self]
    cases h.next with
    | zero => rfl
    | succ k =>
      rw [releaseState, if_neg ho]
      simp only [hs, Option.bind_none, setState, hstates]

/-- With the promise only its own shared state goes: the future still has the `State`. -/
lemma Graph.discarded_promise (hg : Graph h) :
    (Future.nextPromise h).destroyPromise (.succ h.next) =
      { h.discarded with futures := (Future.nextPromise h).futures } := by
  obtain ⟨hshared, -, hcont, -⟩ := hg.fresh h.next (Nat.le_refl _)
  have hp : (Future.nextPromise h).promises (.succ h.next) = some ⟨some h.next, some h.next⟩ := by
    rw [nextPromise_promises, if_pos rfl]
  have hpending : (Future.nextPromise h).pending ⟨some h.next, some h.next⟩ = none := by
    show ((h.states h.next).continuation.map Cont.promise) = none
    rw [hcont]
    rfl
  have howned : Heap.Owned { Future.nextPromise h with
      promises := (Future.nextPromise h).promises.erase (.succ h.next) } h.next :=
    Or.inr ⟨.next h.next, _, by rw [nextPromise_futures, if_pos rfl], rfl⟩
  have hun : (Future.nextPromise h).shared h.next = none := hshared
  simp only [Heap.destroyPromise, hp, hpending, Heap.release_owned howned, Heap.breakPromise, hun]
  rfl

/-- With the future the `State` goes, which is empty. -/
lemma Graph.discarded (hg : Graph h) :
    ((Future.nextPromise h).destroyPromise (.succ h.next)).destroyFuture (.next h.next) =
      h.discarded := by
  obtain ⟨-, -, hcont, hdel⟩ := hg.fresh h.next (Nat.le_refl _)
  have hf : (Future.nextPromise h).futures (.next h.next) = some ⟨some h.next, some h.next⟩ := by
    rw [nextPromise_futures, if_pos rfl]
  have hempty : h.discarded.states h.next = ⟨none, none⟩ := by
    show h.states h.next = _
    rcases hs : h.states h.next with ⟨c, d⟩
    rw [hs] at hcont hdel
    cases hcont
    cases hdel
    rfl
  rw [hg.discarded_promise]
  simp only [Heap.destroyFuture, hf]
  exact Heap.release_empty hempty

/-- Nothing is known of the number of a successor before `then` gives it. -/
structure Unused (h : Heap V) (m : ℕ) : Prop where
  vacant : ∀ p : PromiseLoc, p.node = some m → h.promises p = none
  unstarted : ∀ p : PromiseLoc, p.node = some m → ¬ h.Started p
  unstored : ∀ s c, (h.states s).continuation = some c → c.promise.node ≠ some m
  unabandoned : ∀ p : PromiseLoc, p.node = some m → ∀ n, .abandoned n (some p) ∉ h.log
  unregistered : ∀ n, .registered m n ∉ h.log
  idle : ¬ h.Busy (.succ m)
  uncalled : ¬ h.Called m

lemma Core.unused (hc : Core h) : Unused h h.next where
  vacant p hp := by
    rcases ho : h.promises p with _ | o
    · rfl
    · exact absurd (hc.graph.loc_lt p o _ ho hp) (Nat.lt_irrefl _)
  unstarted p hp hs := absurd ((hc.chronicle.backed _ hs).1 _ hp) (Nat.lt_irrefl _)
  unstored s c hs hp := by
    rw [Cont.node_promise, Option.some.injEq] at hp
    exact absurd (hp ▸ hc.conts.lt s c hs) (Nat.lt_irrefl _)
  unabandoned p hp n hn := absurd ((hc.chronicle.backed _ hn).1 _ hp) (Nat.lt_irrefl _)
  unregistered n hn := absurd (hc.chronicle.backed _ hn).1 (Nat.lt_irrefl _)
  idle hb := by
    obtain ⟨n, hp, -⟩ := hc.calls.busy _ hb
    exact absurd (hc.graph.loc_lt _ _ _ hp rfl) (Nat.lt_irrefl _)
  uncalled := by
    rintro ⟨st, hst⟩
    have hs : h.Started (.succ h.next) := (hc.chronicle.backed _ hst).1
    exact absurd ((hc.chronicle.backed _ hs).1 _ rfl) (Nat.lt_irrefl _)

lemma Unused.not_spent {m : ℕ} (hu : Unused h m) : ¬ h.Spent m :=
  fun hs => hu.unstarted (.succ m) rfl hs.1

lemma Ext.nextPromise (hc : Core h) : Ext h (Future.nextPromise h) := by
  have hq := Quiet.nextPromise hc.graph
  refine hq.ext ?_ ?_
  · intro m hm
    rw [nextPromise_futures, if_neg]
    simpa using Nat.ne_of_lt hm
  · intro m hm
    refine hq.spent hm ?_
    rw [nextPromise_promises, if_neg]
    simp only [PromiseLoc.succ.injEq]
    rintro rfl
    exact hc.unused.not_spent hm

/-- The promise of a successor goes away that has been invoked, or that nobody has seen. -/
lemma Inv.dropSucc (hi : Inv C X h) {m : ℕ} (he : Ext h₀ h) (hu : Unused h₀ m)
    (hm : ∀ s c, (h.states s).continuation = some c → ¬ h.Started c.promise →
      c.promise ≠ .succ m) (hrun : ¬ h.Running m) :
    Inv C X (h.destroyPromise (.succ m)) ∧ Ext h₀ (h.destroyPromise (.succ m)) ∧
      h.log ⊆ (h.destroyPromise (.succ m)).log ∧
      (h.destroyPromise (.succ m)).futures = h.futures := by
  have huse : ¬ h.InUse (.succ m) := by
    rintro (hb | ⟨k, hk, hr⟩)
    · exact hu.idle ((he.busy _).mp hb)
    · cases hk
      exact hrun hr
  have hview : ({ h with promises := h.promises.erase (.succ m) } : Heap V).view = h.view := by
    simp [Heap.view]
  obtain ⟨hi', hq, hfut, -, hkeep⟩ := hi.destroyPromise huse hm (C.quiet h _ hview hi.client)
  refine ⟨hi', hq.after he ?_ ?_, hq.log, hfut⟩
  · intro k _
    rw [hfut]
  · intro k hk
    refine hkeep k ?_
    simp only [ne_eq, PromiseLoc.succ.injEq]
    rintro rfl
    exact hu.not_spent hk

lemma Inv.discarded (hi : Inv C none h) (hJ : C.J h.discarded) :
    Inv C none h.discarded ∧ Ext h h.discarded := by
  have he := Ext.nextPromise hi.core
  have hi₁ : Inv C.blind none (Future.nextPromise h) := hi.blind.nextPromise trivial
  have hu := hi.core.unused
  obtain ⟨hi₂, he₂, -, -⟩ := hi₁.dropSucc he hu
    (fun s c hs _ hc => hu.unstored s c hs (hc ▸ rfl)) fun hr => hu.uncalled hr.1
  obtain ⟨hi₃, he₃, -⟩ := hi₂.dropFuture he₂ (f := .next h.next) (by simp) fun m hm => by
    simpa using Nat.ne_of_gt hm
  rw [hi.core.graph.discarded] at hi₃ he₃
  exact ⟨hi₃.of_blind hJ, he₃⟩

/-! ## Registration -/

/-- The memory in which `then` has registered the successor `h.next` at the shared state `n`. -/
def Heap.registered (h : Heap V) (n : ℕ) : Heap V := (nextPromise h).note (.registered h.next n)

/-- The client accepts a call of `then` with the function `func`. -/
structure Acceptable (C : Client V) (f : Handle) (κ : Kind) (func : Handle → Prog V κ)
    (h : Heap V) : Prop where
  func : C.K h.next κ func
  invalid : C.J h.discarded
  registered : ∀ o n e, h.futures (.handle f) = some o → o.delegate = some n →
    C.J ((h.registered n).setFuture (.handle f) ⟨none, e⟩)

lemma Inv.registered (hi : Inv C.blind none h) {n : ℕ} (hn : n < h.next) :
    Inv C.blind (some (.succ h.next)) (h.registered n) := by
  have hi₁ : Inv C.blind none (Future.nextPromise h) := hi.nextPromise trivial
  exact hi₁.note_registered (Nat.lt_succ_self _) (Nat.lt_succ_of_lt hn)
    hi.core.unused.unregistered trivial

lemma Ext.registered (hc : Core h) (n : ℕ) : Ext h (h.registered n) :=
  (Ext.nextPromise hc).trans (.note _ (by simp) (by simp))

lemma Heap.registered_next (h : Heap V) (n : ℕ) :
    (h.registered n).futures (.next h.next) = some ⟨some h.next, some h.next⟩ := by
  show (Future.nextPromise h).futures _ = _
  rw [nextPromise_futures, if_pos rfl]

lemma Heap.registered_handle (h : Heap V) (n : ℕ) (f : Handle) :
    (h.registered n).futures (.handle f) = h.futures (.handle f) := by
  show (Future.nextPromise h).futures _ = _
  rw [nextPromise_futures, if_neg (by simp)]

lemma Graph.future_lt (hg : Graph h) {f : FutureLoc} {o : FutureObj} {n : ℕ}
    (ho : h.futures f = some o) (hn : o.delegate = some n) : n < h.next := by
  by_contra hlt
  have hr := (hg.fresh n (Nat.le_of_not_lt hlt)).2.1
  rw [hg.future_retrieved f o n ho hn] at hr
  cases hr

lemma Unused.registered_holds (h : Heap V) (n : ℕ) :
    (h.registered n).Holds (.succ h.next) h.next := by
  show (Future.nextPromise h).promises _ = _
  rw [nextPromise_promises, if_pos rfl]

/-- The continuation of a future that is not ready can be stored. -/
lemma Core.storable_registered (hc : Core h) (n : ℕ) (κ : Kind) (func : Handle → Prog V κ) :
    Storable (h.registered n) n (.link h.next κ func) where
  unstarted hs := hc.unused.unstarted (.succ h.next) rfl ((Heap.mem_note (by simp)).mp hs)
  holds := Unused.registered_holds h n
  unready := (hc.graph.fresh h.next (Nat.le_refl _)).1
  new t c hc' hp := hc.unused.unstored t c hc' (by rw [hp]; rfl)
  unabandoned k hk :=
    hc.unused.unabandoned (.succ h.next) rfl k ((Heap.mem_note (by simp)).mp hk)
  link m κ func hm := by
    cases hm
    exact List.mem_cons_self
  relay m hm := by cases hm

/-- The continuation of a future that is ready can be invoked. -/
lemma Inv.callable_registered (hi : Inv C.blind none h) (hfunc : C.K h.next κ func)
    (hJ : ∀ e, C.J ((h.registered n).setFuture (.handle f) ⟨none, e⟩)) {st : Stored V}
    (ho : h.futures (.handle f) = some ⟨some n, some n⟩) (hst : h.shared n = some st) :
    Callable C (.link h.next κ func)
      ((h.registered n).moveFuture (.handle f) (.arg h.next) ⟨some n, some n⟩) := by
  have hu := hi.core.unused
  have hlt := hi.core.graph.future_lt ho rfl
  have hf := (h.registered_handle n f).trans ho
  have hmem : ∀ e : Event V, e ≠ .registered h.next n →
      (e ∈ ((h.registered n).moveFuture (.handle f) (.arg h.next) ⟨some n, some n⟩).log ↔
        e ∈ h.log) := fun e he => Heap.mem_note he
  have hi₁ := (hi.registered hlt).moveFuture (b := .arg h.next) hf trivial
  have hview : ((h.registered n).moveFuture (.handle f) (.arg h.next) ⟨some n, some n⟩).view =
      ((h.registered n).setFuture (.handle f) ⟨none, none⟩).view := by
    simp only [Heap.view, View.mk.injEq]
    refine ⟨rfl, ?_, rfl, rfl⟩
    funext j
    rw [Heap.moveFuture_futures, if_neg (by simp)]
    simp only [Heap.setFuture, Table.set_apply]
  have hi₂ : Inv C (some (.succ h.next)) ((h.registered n).moveFuture (.handle f)
      (.arg h.next) ⟨some n, some n⟩) :=
    hi₁.of_blind (C.quiet _ _ hview (hJ none))
  have hunstarted : ¬ ((h.registered n).moveFuture (.handle f) (.arg h.next)
      ⟨some n, some n⟩).Started (.succ h.next) :=
    fun hs => hu.unstarted (.succ h.next) rfl ((hmem _ (by simp)).mp hs)
  have hunstored : ∀ s c, (h.states s).continuation = some c → c.promise ≠ .succ h.next :=
    fun s c hs hc => hu.unstored s c hs (by rw [hc]; rfl)
  constructor
  · refine hi₂.note_started hunstarted hunstored ?_ ?_ (by simp)
    · exact fun k hk => hu.unabandoned (.succ h.next) rfl k ((hmem _ (by simp)).mp hk)
    · rintro m ⟨⟩
      exact Nat.lt_succ_self _
  · exact hunstarted
  · exact Unused.registered_holds h n
  · exact (hi.core.graph.fresh h.next (Nat.le_refl _)).1
  · exact fun s c' hs hc => absurd hc (hunstored s c' hs)
  · refine ⟨n, st, ?_, hst, ?_, by simp⟩
    · show (Heap.moveFuture _ _ _ _).futures (.arg h.next) = _
      rw [Heap.moveFuture_futures, if_pos rfl]
    · rintro m κ func ⟨⟩
      exact List.mem_cons_self
  · rintro m κ func ⟨⟩
    refine ⟨hfunc, ?_⟩
    rintro ⟨st', hst'⟩
    exact hu.uncalled ⟨st', (hmem _ (by simp)).mp hst'⟩

/-! ## The specification -/

lemma Graph.discarded_lock (hg : Graph h) (mx : Mutex) :
    (((Future.nextPromise (h.lock mx)).destroyPromise (.succ h.next)).destroyFuture
      (.next h.next)).unlock mx = h.discarded := by
  have hg' : Graph (h.lock mx) := hg.of_eq rfl rfl rfl rfl rfl rfl
  have heq := hg'.discarded
  change ((Future.nextPromise (h.lock mx)).destroyPromise (.succ h.next)).destroyFuture
    (.next h.next) = _ at heq
  rw [heq]
  show ({ h.discarded with held := (mx :: h.held).erase mx } : Heap V) = h.discarded
  rw [List.erase_cons_head]
  rfl

/-- On an invalid future that still has its `State`, `is_ready` throws, and nothing is left of
the call. -/
lemma wp_andThen_invalid (hi : Inv C X h) {s : ℕ} (ho : h.futures (.handle f) = some ⟨none, some s⟩)
    {Q : Post (Heap V) Exn Fault ℕ} (hQ : Q.throw (stdError .noState) h.discarded) :
    wp (andThen call f κ func) Q h := by
  simp only [andThen, wp_bind, wp_future ho, wp_lock (hi.not_held_state s), wp_get, wp_modify,
    wp_throw]
  have heq := hi.core.graph.discarded_lock (.state s)
  change Q.throw _ ((((Future.nextPromise (h.lock (.state s))).destroyPromise
    (.succ h.next)).destroyFuture (.next h.next)).unlock (.state s))
  rw [heq]
  exact hQ

/-- A future without a `State` is used, which is a null pointer. -/
lemma wp_andThen_null {d : Option ℕ} (ho : h.futures (.handle f) = some ⟨d, none⟩)
    {Q : Post (Heap V) Exn Fault ℕ} (hQ : Q.stop .undefined h) :
    wp (andThen call f κ func) Q h := by
  simp only [andThen, wp_bind, wp_future ho]
  exact hQ

/-- `then` has registered the successor on the future `f`, if this was valid. -/
def RegisteredBy (h : Heap V) (f : Handle) (h' : Heap V) : Prop :=
  ∀ o n, h.futures (.handle f) = some o → o.delegate = some n → .registered h.next n ∈ h'.log

lemma RegisteredBy.of_mem (ho : h.futures (.handle f) = some ⟨some n, some n⟩)
    (hr : .registered h.next n ∈ h'.log) : RegisteredBy h f h' := by
  intro o k ho' hk
  rw [ho] at ho'
  cases ho'
  cases hk
  exact hr

/-- The ends of a call of `then`. -/
abbrev thenEnds (C : Client V) (fuel : ℕ) (f : Handle) (h : Heap V) : Post (Heap V) Exn Fault ℕ :=
  after C fuel h
    (fun m h' => m = h.next ∧ h'.futures (.next m) = some ⟨some m, some m⟩ ∧ RegisteredBy h f h')
    fun x h' => h'.Known x ∧ RegisteredBy h f h'

/-- On a future that is not ready, the continuation is stored in the `State`. -/
lemma wp_andThen_store (hi : Inv C.blind none h)
    (ho : h.futures (.handle f) = some ⟨some n, some n⟩) (hn : h.shared n = none)
    {Q : Post (Heap V) Exn Fault ℕ}
    (hQ : Q.ok h.next ((h.registered n).setContinuation n (.link h.next κ func) (.handle f)
      ⟨some n, some n⟩)) :
    wp (andThen call f κ func) Q h := by
  have hf := (h.registered_handle n f).trans ho
  have hi₁ := hi.registered (hi.core.graph.future_lt ho rfl)
  have hnone := hi₁.core.continuation_eq_none hf rfl hn
  simp only [andThen, wp_bind, wp_future ho, wp_lock (hi.not_held_state n), wp_modify, wp_get]
  have hnum : (h.lock (.state n)).next = h.next := rfl
  have hlock : (nextPromise (h.lock (.state n))).note (.registered h.next n) =
      (h.registered n).lock (.state n) := rfl
  have hshared : ((h.registered n).lock (.state n)).shared n = h.shared n := rfl
  rw [hnum, hlock, hshared]
  simp only [hn, wp_bind, wp_modify, wp_pure]
  rw [Heap.setContinuation_lock hnone]
  exact hQ

lemma wp_andThen_pending (hi : Inv C.blind none h) (hfunc : C.K h.next κ func)
    (hJ : ∀ e, C.J ((h.registered n).setFuture (.handle f) ⟨none, e⟩))
    (ho : h.futures (.handle f) = some ⟨some n, some n⟩) (hn : h.shared n = none)
    {Q : Post (Heap V) Exn Fault ℕ}
    (hok : ∀ h', Inv C none h' → Ext h h' →
      h'.futures (.next h.next) = some ⟨some h.next, some h.next⟩ →
      .registered h.next n ∈ h'.log → Q.ok h.next h') :
    wp (andThen call f κ func) Q h := by
  have hf := (h.registered_handle n f).trans ho
  have hi₁ := hi.registered (hi.core.graph.future_lt ho rfl)
  have hnone := hi₁.core.continuation_eq_none hf rfl hn
  have hstore := hi.core.storable_registered n κ func
  refine wp_andThen_store hi ho hn (hok _ ?_ ((Ext.registered hi.core n).trans
    (.setContinuation hnone hn hstore.unstarted (by simp))) ?_ ?_)
  · refine (hi₁.setContinuation (c := .link h.next κ func) hf rfl hn hstore ?_
      trivial).of_blind ?_
    · rintro m κ func ⟨⟩
      exact hfunc
    · refine C.quiet _ _ ?_ (hJ (some n))
      rw [Heap.setContinuation_eq hnone]
      rfl
  · rw [Heap.setContinuation_eq hnone]
    simp only [Heap.setFuture, Table.set_apply, if_neg (FutureLoc.noConfusion :
      ¬ FutureLoc.next h.next = .handle f)]
    exact h.registered_next n
  · rw [Heap.setContinuation_eq hnone]
    exact List.mem_cons_self

/-- The continuation is invoked. -/
lemma wp_andThen_ready (hcall : CallSpec C fuel k call) (hi : Inv C.blind none h)
    (hfunc : C.K h.next κ func) (hJ : ∀ e, C.J ((h.registered n).setFuture (.handle f) ⟨none, e⟩))
    (ho : h.futures (.handle f) = some ⟨some n, some n⟩)
    {st : Stored V} (hst : h.shared n = some st) (hfuel : fuel ≤ k + h.startedCount)
    {Q : Post (Heap V) Exn Fault ℕ}
    (hok : ∀ h', Inv C none h' → Ext h h' →
      h'.futures (.next h.next) = some ⟨some h.next, some h.next⟩ →
      .registered h.next n ∈ h'.log → Q.ok h.next h')
    (hthrow : ∀ x h', Inv C none h' → Ext h h' → Escapes x h' →
      .registered h.next n ∈ h'.log → Q.throw x h')
    (hstop : ∀ f h', Blame C fuel f h' → Q.stop f h') :
    wp (andThen call f κ func) Q h := by
  have hf := (h.registered_handle n f).trans ho
  have hi₁ := hi.registered (hi.core.graph.future_lt ho rfl)
  have he₁ := Ext.registered hi.core n
  have hu := hi.core.unused
  have hnext : ∀ j, j < h.next → FutureLoc.next h.next ≠ .next j := by
    intro j hj
    simpa using Nat.ne_of_gt hj
  have hcallable := hi.callable_registered hfunc hJ ho hst
  have hem := Ext.moveFuture (h.registered n) (a := .handle f) (b := .arg h.next)
    ⟨some n, some n⟩ (by simp) (by simp)
  have hreg : .registered h.next n ∈ ((h.registered n).moveFuture (.handle f) (.arg h.next)
      ⟨some n, some n⟩).log := List.mem_cons_self
  simp only [andThen, wp_bind, wp_future ho, wp_lock (hi.not_held_state n), wp_modify, wp_get]
  have hnum : (h.lock (.state n)).next = h.next := rfl
  have hlock : (nextPromise (h.lock (.state n))).note (.registered h.next n) =
      (h.registered n).lock (.state n) := rfl
  have hshared : ((h.registered n).lock (.state n)).shared n = h.shared n := rfl
  rw [hnum, hlock, hshared]
  simp only [hst, wp_bind, wp_modify, wp_pure, wp_unwind, wp_cleanup]
  rw [Heap.unlock_lock]
  refine (wp_constructFuture hf (hi₁.not_held_future _)).mpr ?_
  have hfuel' := Nat.le_trans hfuel (Nat.add_le_add_left (he₁.trans hem).startedCount k)
  -- what is left to do when the continuation has been invoked
  have hend : ∀ h₁, Inv C none h₁ → Ext ((h.registered n).moveFuture (.handle f)
      (.arg h.next) ⟨some n, some n⟩) h₁ → h₁.Started (.succ h.next) →
      Inv C none ((h₁.destroyFuture (.arg h.next)).destroyPromise (.succ h.next)) ∧
        Ext h ((h₁.destroyFuture (.arg h.next)).destroyPromise (.succ h.next)) ∧
        h₁.log ⊆ ((h₁.destroyFuture (.arg h.next)).destroyPromise (.succ h.next)).log ∧
        ((h₁.destroyFuture (.arg h.next)).destroyPromise (.succ h.next)).futures
          (.next h.next) = some ⟨some h.next, some h.next⟩ := by
    intro h₁ hi₁' he₁' hs₁
    obtain ⟨hi₂, he₂, hq, hfut, -⟩ := hi₁'.dropFuture (he₁.trans (hem.trans he₁'))
      (f := .arg h.next) (by simp) (by simp)
    obtain ⟨hi₃, he₃, hlog, hfut'⟩ := hi₂.dropSucc he₂ hu
      (fun t c _ hst' hc => hst' (hc ▸ hq.log hs₁))
      fun hr => hu.uncalled ((he₂.running _).mp hr).1
    refine ⟨hi₃, he₃, fun e he => hlog (hq.log he), ?_⟩
    rw [hfut', hfut, if_neg (by simp), he₁'.nextSlots h.next (Nat.lt_succ_self _),
      Heap.moveFuture_futures, if_neg (by simp), if_neg (by simp)]
    exact h.registered_next n
  refine wp_mono (hcall (.link h.next κ func) _ hcallable hfuel') ?_ ?_ hstop
  · rintro - h₁ ⟨hi₁', he₁', hs₁⟩
    obtain ⟨hi₂, he₂, hlog, hslot⟩ := hend h₁ hi₁' he₁' hs₁
    exact hok _ hi₂ he₂ hslot (hlog (he₁'.log hreg))
  · rintro x h₁ ⟨hi₁', he₁', hx, hs₁⟩
    obtain ⟨hi₂, he₂, hlog, -⟩ := hend h₁ hi₁' he₁' hs₁
    obtain ⟨hi₃, he₃, hq, -⟩ := hi₂.dropFuture he₂ (f := .next h.next) (by simp) hnext
    have hlog₃ : h₁.log ⊆ _ := fun e he => hq.log (hlog he)
    exact hthrow x _ hi₃ he₃ ⟨hx.1.mono hlog₃, hx.2.mono hlog₃⟩ (hlog₃ (he₁'.log hreg))

/-- On a valid future, `then` returns a future for the successor. -/
lemma wp_andThen_valid (hcall : CallSpec C fuel k call) (hi : Inv C.blind none h)
    (hfunc : C.K h.next κ func) (hJ : ∀ e, C.J ((h.registered n).setFuture (.handle f) ⟨none, e⟩))
    (ho : h.futures (.handle f) = some ⟨some n, some n⟩)
    (hfuel : fuel ≤ k + h.startedCount) {Q : Post (Heap V) Exn Fault ℕ}
    (hok : ∀ h', Inv C none h' → Ext h h' →
      h'.futures (.next h.next) = some ⟨some h.next, some h.next⟩ →
      .registered h.next n ∈ h'.log → Q.ok h.next h')
    (hthrow : ∀ x h', Inv C none h' → Ext h h' → Escapes x h' →
      .registered h.next n ∈ h'.log → Q.throw x h')
    (hstop : ∀ f h', Blame C fuel f h' → Q.stop f h') :
    wp (andThen call f κ func) Q h := by
  rcases hst : h.shared n with _ | st
  · exact wp_andThen_pending hi hfunc hJ ho hst hok
  · exact wp_andThen_ready hcall hi hfunc hJ ho hst hfuel hok hthrow hstop

theorem wp_andThen (hcall : CallSpec C fuel k call) (hi : Inv C none h)
    (ha : Acceptable C f κ func h)
    (hmis : C.misuse ∨ ∃ o, h.futures (.handle f) = some o ∧ o.extra ≠ none)
    (hfuel : fuel ≤ k + h.startedCount) :
    wp (andThen call f κ func) (thenEnds C fuel f h) h := by
  rcases ho : h.futures (.handle f) with _ | ⟨d, e⟩
  · simp only [andThen, wp_bind, wp_future_none ho]
    refine hi.blame ?_ (Or.inl rfl)
    simpa [ho] using hmis
  cases e with
  | none =>
    refine wp_andThen_null ho (hi.blame ?_ (Or.inl rfl))
    simpa [ho] using hmis
  | some s =>
    cases d with
    | none =>
      obtain ⟨hi', he'⟩ := hi.discarded ha.invalid
      refine wp_andThen_invalid hi ho ⟨hi', he', Or.inl (stdError_isStd _), fun o k ho' hk => ?_⟩
      rw [ho] at ho'
      cases ho'
      cases hk
    | some n =>
      obtain rfl : s = n := Option.some.inj (hi.core.graph.future_extra _ _ n ho rfl)
      exact wp_andThen_valid hcall hi.blind ha.func (fun e => ha.registered _ s e ho rfl) ho hfuel
        (fun h' hi' he' hslot hreg => ⟨hi', he', rfl, hslot, .of_mem ho hreg⟩)
        (fun x h' hi' he' hx hreg => ⟨hi', he', hx.2, .of_mem ho hreg⟩) fun _ _ hb => hb

end AraCore.Future
