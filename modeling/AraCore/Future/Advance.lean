/-
# Steps that register, invoke and fulfil

How the invariant fares when `then` registers a continuation, when a continuation is stored,
invoked or ends, and when a promise becomes ready.
-/
import AraCore.Future.Release

namespace AraCore.Future

open Lib Comp

variable {V : Type} {h h' : Heap V} {C : Client V} {X : Option PromiseLoc}

/-! ## Events that happen once -/

lemma eq_of_nodup_filterMap {α β : Type} {f : α → Option β} {l : List α} {a a' : α} {b : β}
    (hl : (l.filterMap f).Nodup) (ha : a ∈ l) (ha' : a' ∈ l) (hb : f a = some b)
    (hb' : f a' = some b) : a = a' := by
  induction l with
  | nil => cases ha
  | cons x l ih =>
    have htail : (l.filterMap f).Nodup := by
      rw [List.filterMap_cons] at hl
      split at hl
      · exact hl
      · exact hl.of_cons
    have hhead : f x = some b → ∀ y ∈ l, f y ≠ some b := by
      intro hx y hy hyb
      rw [List.filterMap_cons_some hx, List.nodup_cons] at hl
      exact hl.1 (List.mem_filterMap.mpr ⟨y, hy, hyb⟩)
    rcases List.mem_cons.mp ha with hx | hm <;> rcases List.mem_cons.mp ha' with hx' | hm'
    · rw [hx, hx']
    · exact absurd hb' (hhead (hx ▸ hb) a' hm')
    · exact absurd hb (hhead (hx' ▸ hb') a hm)
    · exact ih htail hm hm'

lemma Chronicle.eq_of_key (hl : Chronicle h) {e e' : Event V} {k : Key} (he : e ∈ h.log)
    (he' : e' ∈ h.log) (hk : e.key = some k) (hk' : e'.key = some k) : e = e' :=
  eq_of_nodup_filterMap hl.once he he' hk hk'

/-- At most one event has a key. -/
lemma Chronicle.countP_le_one (hl : Chronicle h) {k : Key} {p : Event V → Bool}
    (hp : ∀ e, p e = true → e.key = some k) : h.log.countP p ≤ 1 := by
  have hcount : h.log.countP p ≤ (h.log.filterMap Event.key).count k := by
    rw [List.count, List.countP_filterMap]
    refine List.countP_mono_left fun e _ he => ?_
    rw [hp e he]
    exact beq_self_eq_true k
  exact Nat.le_trans hcount (List.nodup_iff_count.mp hl.once k)

lemma Heap.mem_keys {e : Event V} {k : Key} (he : e ∈ h.log) (hk : e.key = some k) :
    k ∈ h.log.filterMap Event.key :=
  List.mem_filterMap.mpr ⟨e, he, hk⟩

lemma Chronicle.not_fulfilled (hl : Chronicle h) {n : ℕ} (hn : h.shared n = none) :
    ¬ h.Fulfilled n := by
  rintro ⟨st, hst⟩
  have hs : h.shared n = some st := hl.backed _ hst
  rw [hn] at hs
  cases hs

/-- A future that is not ready was not when it was returned. -/
lemma Chronicle.awaits (hl : Chronicle h) {m j : ℕ} (hr : .returned m (.inner (some j)) ∈ h.log)
    (hn : h.shared j = none) : h.Awaits m j := by
  obtain ⟨l', l, heq⟩ := List.append_of_mem hr
  refine ⟨l, heq ▸ List.suffix_append _ _, fun hj => ?_⟩
  have hkey : .settled j ∈ h.log.filterMap Event.key := by
    rw [heq, List.filterMap_append]
    exact List.mem_append_right _ (List.mem_filterMap.mpr
      ((List.mem_filterMap.mp hj).imp fun e he => ⟨List.mem_cons_of_mem _ he.1, he.2⟩))
  rw [hl.settled, hn] at hkey
  cases hkey

/-- The client of which only the functions are known. -/
def Client.blind (C : Client V) : Client V where
  J _ := True
  quiet _ _ _ _ := trivial
  called _ _ _ _ := trivial
  K := C.K
  misuse := C.misuse
  copyThrows := C.copyThrows

lemma Inv.blind (hi : Inv C X h) : Inv C.blind X h :=
  ⟨hi.core, hi.held, hi.linked, hi.forwarded, hi.funcs, hi.copies, trivial⟩

lemma Inv.of_blind (hi : Inv C.blind X h) (hJ : C.J h) : Inv C X h :=
  ⟨hi.core, hi.held, hi.linked, hi.forwarded, hi.funcs, hi.copies, hJ⟩

/-! ## Registration -/

lemma nextPromise_promises (h : Heap V) (p : PromiseLoc) : (nextPromise h).promises p =
    if p = .succ h.next then some ⟨some h.next, some h.next⟩ else h.promises p :=
  Table.set_apply _ _ _ _

lemma Quiet.nextPromise (hg : Graph h) : Quiet h (nextPromise h) := by
  refine ⟨rfl, rfl, Nat.le_succ _, List.suffix_refl _, fun _ he => Or.inl he, fun _ _ hs => hs, ?_,
    ?_, fun _ => Or.inl rfl, ?_⟩
  · intro n hn hd p o hp
    rw [nextPromise_promises] at hp
    split at hp
    · cases hp
      simpa using Nat.ne_of_gt hn
    · exact hd p o hp
  · intro p n _ hp
    have hne : p ≠ .succ h.next := by
      rintro rfl
      exact absurd (hg.loc_lt _ _ _ hp rfl) (Nat.lt_irrefl _)
    rw [Heap.Holds, nextPromise_promises, if_neg hne]
    exact hp
  · intro n hr
    show Function.update h.retrieved h.next true n = true
    rw [Function.update_apply]
    split
    · rfl
    · exact hr

/-- `next_promise` and `next_future` are constructed. -/
lemma Inv.nextPromise (hi : Inv C X h) (hJ : C.J (nextPromise h)) :
    Inv C X (nextPromise h) := by
  have hq := Quiet.nextPromise hi.core.graph
  obtain ⟨hg, hco, hca, hch⟩ := hi.core
  have hcapt : ∀ s c, (h.states s).continuation = some c → c.promise ≠ .succ h.next := by
    intro s c hs hc
    have hn : some h.next = some c.node := by
      rw [← c.node_promise, hc]
      rfl
    have hlt := hco.lt s c hs
    rw [← Option.some.inj hn] at hlt
    exact absurd hlt (Nat.lt_irrefl _)
  refine hi.quiet ⟨hg.nextPromise, ?_, ?_, ?_⟩ hq hJ
  · exact (hco.newPromise hcapt fun _ => by simp).of_eq (Nat.le_refl _) rfl rfl rfl rfl
  · exact hca.quiet hq fun _ _ hn => hn
  · exact hch.of_eq rfl rfl (Nat.le_succ _)

/-- A successor is registered at the shared state `n`. -/
lemma Inv.note_registered (hi : Inv C none h) {m n : ℕ} (hm : m < h.next) (hn : n < h.next)
    (hnew : ∀ k, .registered m k ∉ h.log) (hJ : C.J (h.note (.registered m n))) :
    Inv C (some (.succ m)) (h.note (.registered m n)) := by
  obtain ⟨hg, hco, hca, hch⟩ := hi.core
  have hmem : ∀ e : Event V, (∀ k, e ≠ .registered m k) →
      (e ∈ (h.note (.registered m n)).log ↔ e ∈ h.log) := by
    intro e he
    rw [Heap.note_log, List.mem_cons, or_iff_right (he n)]
  constructor
  · refine ⟨hg.of_eq rfl rfl rfl rfl rfl rfl, ?_, ?_, ?_⟩
    · exact hco.note (by simp) (by simp)
    · refine hca.frame ?_ (fun _ => Iff.rfl) (fun _ _ _ hp => hp) (fun _ hs => hs)
        (fun _ _ hn => hn) fun _ _ hs => Or.inl hs
      rintro k ⟨⟨st, hst⟩, hr⟩
      exact ⟨⟨st, (hmem _ (by simp)).mp hst⟩, fun ⟨w, hw⟩ => hr ⟨w, (hmem _ (by simp)).mpr hw⟩⟩
    · refine hch.note ⟨hm, hn⟩ ?_
      intro k hk
      cases hk
      refine ⟨?_, by simp⟩
      intro hk
      obtain ⟨e, he, hek⟩ := List.mem_filterMap.mp hk
      cases e <;>
        simp only [Event.key, Option.some.injEq, Key.registered.injEq, reduceCtorEq] at hek
      exact hnew _ (hek ▸ he)
  · exact hi.held
  · intro k hk
    have hkm : k ≠ m := by
      rintro rfl
      exact hk rfl
    refine (hi.linked k (by simp)).frame (h.subset_note _) (fun _ _ hs => hs)
      (hmem _ (by simp)).mp fun j hj => ⟨(hmem _ (by simp [hkm])).mp hj, ?_, id, fun _ => Or.inl⟩
    exact fun ⟨st, hst⟩ => ⟨st, (hmem _ (by simp)).mp hst⟩
  · intro k _
    refine (hi.forwarded k (by simp)).frame (List.suffix_cons _ _) (fun _ _ hs => hs)
      (hmem _ (by simp)).mp (fun w => (hmem _ (by simp)).mp) fun j _ => ⟨?_, id, fun _ => Or.inl⟩
    exact fun ⟨st, hst⟩ => ⟨st, (hmem _ (by simp)).mp hst⟩
  · exact hi.funcs
  · exact hi.copies_note (by simp)
  · exact hJ

/-! ## Storing a continuation -/

/-- The promise of a continuation that has not been invoked is not in use. -/
lemma Core.not_inUse (hc : Core h) {p : PromiseLoc} {n : ℕ} (hp : h.Holds p n)
    (hn : h.shared n = none) (hs : ¬ h.Started p) : ¬ h.InUse p := by
  rintro (hb | ⟨m, rfl, hr, -⟩)
  · obtain ⟨k, hk, hsome⟩ := hc.calls.busy p hb
    have heq : some (PromiseObj.mk (some n) (some n)) = some ⟨some k, some k⟩ := hp.symm.trans hk
    cases heq
    simp [hn] at hsome
  · obtain ⟨st, hst⟩ := hr
    exact hs (hc.chronicle.backed _ hst).1

/-- Whoever has the future of a shared state that is not ready can store a continuation. -/
lemma Core.continuation_eq_none (hc : Core h) {f : FutureLoc} {o : FutureObj} {s : ℕ}
    (ho : h.futures f = some o) (hs : o.delegate = some s) (hn : h.shared s = none) :
    (h.states s).continuation = none := by
  rcases hcont : (h.states s).continuation with _ | c
  · rfl
  · have hd := hc.conts.delegate s c hcont (hc.conts.waiting s c hcont hn)
    rw [hc.graph.future_state f o s ho hs] at hd
    cases hd

/-- What must be known of a continuation before it is stored in the `State` `s`. -/
structure Storable (h : Heap V) (s : ℕ) (c : Cont V) : Prop where
  unstarted : ¬ h.Started c.promise
  holds : h.Holds c.promise c.node
  unready : h.shared c.node = none
  new : ∀ t c', (h.states t).continuation = some c' → c'.promise ≠ c.promise
  unabandoned : ∀ n, .abandoned n (some c.promise) ∉ h.log
  link : ∀ m κ func, c = .link m κ func → .registered m s ∈ h.log
  relay : ∀ m, c = .relay m → .returned m (.inner (some s)) ∈ h.log

/-- The memory after `State::SetContinuation` of a `State` without a continuation. -/
lemma Heap.setContinuation_eq {s : ℕ} (hs : (h.states s).continuation = none) (c : Cont V)
    (f : FutureLoc) (o : FutureObj) : h.setContinuation s c f o =
      (h.setState s ⟨some c, o.delegate⟩).setFuture f ⟨none, o.extra⟩ := by
  unfold Heap.setContinuation
  simp only [hs]
  simp [Heap.setState]

/-- Only the `State` in which a continuation is stored changes. -/
lemma Heap.setFuture_setState_continuation (s : ℕ) (c : Cont V) (d : Option ℕ) (f : FutureLoc)
    (o : FutureObj) (t : ℕ) : (((h.setState s ⟨some c, d⟩).setFuture f o).states t).continuation =
      if t = s then some c else (h.states t).continuation := by
  simp only [Heap.setFuture, Heap.setState, Function.update_apply]
  split <;> rfl

lemma Core.setContinuation (hc : Core h) {f : FutureLoc} {o : FutureObj} {s : ℕ} {c : Cont V}
    (ho : h.futures f = some o) (hs : o.delegate = some s) (hn : h.shared s = none)
    (hst : Storable h s c) : Core (h.setContinuation s c f o) := by
  have hnone := hc.continuation_eq_none ho hs hn
  have hlt : s < h.next := by
    by_contra hlt
    have hf := (hc.graph.fresh s (Nat.le_of_not_lt hlt)).2.1
    rw [hc.graph.future_retrieved f o s ho hs] at hf
    cases hf
  rw [Heap.setContinuation_eq hnone]
  refine ⟨hc.graph.register c ho hs hlt, ?_, ?_, ?_⟩
  · exact hc.conts.register hs (hc.graph.promise_lt _ _ _ hst.holds rfl) hst.unstarted hst.holds
      hst.unready hst.new hst.unabandoned hst.link hst.relay
  · refine hc.calls.frame (fun _ hr => hr) (fun _ => Iff.rfl) (fun _ _ _ hp => hp)
      (fun _ hs => hs) (fun _ _ hn => hn) ?_
    intro t c' ht
    simp only [Heap.setFuture, Heap.setState, Function.update_apply] at ht
    split at ht
    · cases ht
      exact Or.inr (hc.not_inUse hst.holds hst.unready hst.unstarted)
    · exact Or.inl ht
  · exact hc.chronicle.of_eq rfl rfl (Nat.le_refl _)

/-- A continuation is stored for the successor that has just been registered, or for a function
that has just returned the future. -/
lemma Inv.setContinuation {c : Cont V} (hi : Inv C (some c.promise) h) {f : FutureLoc}
    {o : FutureObj} {s : ℕ} (ho : h.futures f = some o) (hs : o.delegate = some s)
    (hn : h.shared s = none) (hst : Storable h s c)
    (hK : ∀ m κ func, c = .link m κ func → C.K m κ func)
    (hJ : C.J (h.setContinuation s c f o)) : Inv C none (h.setContinuation s c f o) := by
  have hnone := hi.core.continuation_eq_none ho hs hn
  have hcore := hi.core.setContinuation ho hs hn hst
  have hnf := hi.core.chronicle.not_fulfilled hn
  rw [Heap.setContinuation_eq hnone] at hcore hJ ⊢
  have hcont := h.setFuture_setState_continuation s c o.delegate f ⟨none, o.extra⟩
  have hkeep : ∀ t c', (h.states t).continuation = some c' →
      (((h.setState s ⟨some c, o.delegate⟩).setFuture f ⟨none, o.extra⟩).states
        t).continuation = some c' := by
    intro t c' ht
    rw [hcont, if_neg]
    · exact ht
    · rintro rfl
      rw [hnone] at ht
      cases ht
  refine ⟨hcore, hi.held, ?_, ?_, ?_, hi.copies, hJ⟩
  · intro k _
    by_cases hk : c.promise = .succ k
    · -- the successor now waits in the `State` where it is registered
      intro n hreg
      cases c with
      | relay => cases hk
      | link m κ func =>
        cases hk
        have heq := hi.core.chronicle.eq_of_key hreg (hst.link k κ func rfl) rfl rfl
        cases heq
        exact Or.inr (Or.inl ⟨⟨κ, func, by rw [hcont, if_pos rfl]⟩, hst.unstarted, hnf⟩)
    · exact (hi.linked k (by simpa using hk)).frame (List.Subset.refl _) (fun _ _ hs => hs) id
        fun n hn => ⟨hn, id, id, fun c' hc' => Or.inl (hkeep n c' hc')⟩
  · intro k _
    by_cases hk : c.promise = .outer k
    · intro w hw
      cases c with
      | link => cases hk
      | relay m =>
        cases hk
        have heq := hi.core.chronicle.eq_of_key hw (hst.relay k rfl) rfl rfl
        cases heq
        exact Or.inr (Or.inr (Or.inr ⟨s, rfl, Or.inr (Or.inl ⟨hi.core.chronicle.awaits hw hn,
          by rw [hcont, if_pos rfl], hst.unstarted, hnf⟩)⟩))
    · exact (hi.forwarded k (by simpa using hk)).frame (List.suffix_refl _) (fun _ _ hs => hs)
        id (fun _ hw => hw) fun j _ => ⟨id, id, fun c' hc' => Or.inl (hkeep j c' hc')⟩
  · intro t m κ func ht
    rw [hcont] at ht
    split at ht
    · cases ht
      exact hK m κ func rfl
    · exact hi.funcs t m κ func ht

/-! ## Fulfilment -/

/-- What must be known of a promise before it becomes ready with the shared state `n`. -/
structure Settable (h : Heap V) (p : PromiseLoc) (n : ℕ) : Prop where
  holds : h.Holds p n
  unready : h.shared n = none
  free : ∀ s c, (h.states s).continuation = some c → ¬ h.Started c.promise → c.promise ≠ p
  idle : ∀ m, p = .succ m → ¬ h.Running m
  guard : ∀ s c, (h.states s).continuation = some c → c.promise = p → h.Guarded s

lemma Cont.promise_ne_named (c : Cont V) (k : ℕ) : c.promise ≠ .named k := by
  cases c <;> simp [Cont.promise]

/-- A promise of the program can always be fulfilled. -/
lemma Settable.named {k n : ℕ} (hp : h.Holds (.named k) n) (hn : h.shared n = none) :
    Settable h (.named k) n where
  holds := hp
  unready := hn
  free _ c _ _ := c.promise_ne_named k
  idle _ hm := by cases hm
  guard _ c _ hc := absurd hc (c.promise_ne_named k)

/-- The contents `st` are what the successor `n` is owed. -/
def Settles (h : Heap V) (n : ℕ) (st : Stored V) : Prop :=
  ∀ w, .returned n w ∈ h.log → h.Tainted ∨ w.settles = some st ∨
    (∃ v x e, w.settles = some (.value v) ∧ .copyThrew (.succ n) x ∈ h.log ∧
      x.passedOn = some e ∧ st = .error e) ∨
    ∃ j st', w = .inner (some j) ∧ h.shared j = some st' ∧ st'.forward = some st

/-- The memory in which the promise `p` is locked and has become ready. -/
def Heap.settled (h : Heap V) (p : PromiseLoc) (n : ℕ) (st : Stored V) : Heap V :=
  (((h.lock (.promise p)).enter p).setShared n st).note (.fulfilled n st)

lemma Heap.settled_shared (h : Heap V) (p : PromiseLoc) (n k : ℕ) (st : Stored V) :
    (h.settled p n st).shared k = if k = n then some st else h.shared k :=
  Function.update_apply _ _ _ _

lemma Heap.shared_settled_of_some {p : PromiseLoc} {n k : ℕ} {st st' : Stored V}
    (hn : h.shared n = none) (hk : h.shared k = some st') :
    (h.settled p n st).shared k = some st' := by
  rw [h.settled_shared, if_neg]
  · exact hk
  · rintro rfl
    rw [hn] at hk
    cases hk

lemma Core.settled (hc : Core h) {p : PromiseLoc} {n : ℕ} {st : Stored V}
    (hs : Settable h p n) (hx : ∀ x, st = .exception x → x.IsStd ∨ .raised x ∈ h.log) :
    Core (h.settled p n st) := by
  have hlt := hc.graph.promise_lt _ _ _ hs.holds rfl
  refine ⟨?_, ?_, ?_, ?_⟩
  · exact (hc.graph.setShared hlt st).of_eq rfl rfl rfl rfl rfl rfl
  · have hk := hc.conts.setShared (n := n) st (by
      rintro s c hcont hst rfl
      -- otherwise this is the promise that the continuation has captured
      exact hs.free s c hcont hst
        (hc.graph.promise_inj _ _ _ _ _ (hc.conts.holds s c hcont hst).1 hs.holds rfl rfl))
    have hk' : Conts (((h.lock (.promise p)).enter p).setShared n st) :=
      hk.of_eq (Nat.le_refl _) rfl rfl rfl rfl
    exact hk'.note (by simp) (by simp)
  · have hrun : ∀ m, h.Running m → h.shared m = none → (h.setShared n st).shared m = none := by
      intro m hm hnone
      show Function.update h.shared n (some st) m = none
      rw [Function.update_of_ne]
      · exact hnone
      · rintro rfl
        have hp := hc.graph.promise_inj _ _ _ _ _ (hc.calls.running m hm).1 hs.holds rfl rfl
        exact hs.idle m hp.symm hm
    have hsome : ∀ k, (h.shared k).isSome → ((h.setShared n st).shared k).isSome := by
      intro k hk
      show (Function.update h.shared n (some st) k).isSome
      rw [Function.update_apply]
      split
      · rfl
      · exact hk
    have hc₁ : Calls (h.setShared n st) := hc.calls.frame (fun _ hr => hr) (fun _ => Iff.rfl)
      (fun _ _ _ hp => hp) hsome hrun fun _ _ hs => Or.inl hs
    have hc₂ : Calls (((h.setShared n st).lock (.promise p)).enter p) :=
      hc₁.enter (n := n) hs.holds (by simp [Heap.setShared]) hs.guard
    refine hc₂.frame ?_ (fun _ => Iff.rfl) (fun _ _ _ hp => hp) (fun _ hs => hs)
      (fun _ _ hn => hn) fun _ _ hs => Or.inl hs
    rintro m ⟨⟨st', hst⟩, hr⟩
    refine ⟨⟨st', ?_⟩, mt (Exists.imp fun _ hw => List.mem_cons_of_mem _ hw) hr⟩
    rcases List.mem_cons.mp hst with hst | hst
    · cases hst
    · exact hst
  · have hb : (Event.fulfilled n st).Backed ((h.setShared n st).note (.fulfilled n st)) := by
      show Function.update h.shared n (some st) n = some st
      rw [Function.update_self]
    exact (hc.chronicle.settle hs.unready rfl hb hx).of_eq rfl rfl (Nat.le_refl _)

/-- A promise becomes ready.  What waits in its `State` has then to be invoked. -/
lemma Inv.settled (hi : Inv C X h) {p : PromiseLoc} {n : ℕ} {st : Stored V}
    (hX : X = none ∨ X = some (.outer n)) (hs : Settable h p n)
    (hset : X = some (.outer n) → Settles h n st)
    (hx : ∀ x, st = .exception x → x.IsStd ∨ .raised x ∈ h.log) :
    Inv C ((h.states n).continuation.map Cont.promise) (h.settled p n st) := by
  have hmem : ∀ e : Event V, e ≠ .fulfilled n st → (e ∈ (h.settled p n st).log ↔ e ∈ h.log) := by
    intro e he
    exact List.mem_cons.trans (or_iff_right he)
  have hlog : h.log ⊆ (h.settled p n st).log := List.subset_cons_self _ _
  have hshared : ∀ k st', h.shared k = some st' → (h.settled p n st).shared k = some st' :=
    fun k st' hk => Heap.shared_settled_of_some hs.unready hk
  have hful : ∀ k, k ≠ n → (h.settled p n st).Fulfilled k → h.Fulfilled k := by
    rintro k hk ⟨st', hst⟩
    exact ⟨st', (hmem _ (by simp [hk])).mp hst⟩
  have hdead : ¬ h.Dead n := fun hd => hd _ _ hs.holds rfl
  refine ⟨hi.core.settled hs hx, ?_, ?_, ?_, hi.funcs,
    fun q x hqx => hi.copies q x ((hmem _ (by simp)).mp hqx), ?_⟩
  · exact congrArg (List.cons (.promise p)) hi.held
  · intro m hm k hreg
    have hreg := (hmem _ (by simp)).mp hreg
    have hX' : X ≠ some (.succ m) := by
      rcases hX with rfl | rfl <;> simp
    rcases hi.linked m hX' k hreg with ⟨st', hc, hst⟩ | ⟨⟨κ, func, hc⟩, hst, hf⟩ | ⟨hd, hf⟩
    · exact Or.inl ⟨st', hlog hc, hshared k st' hst⟩
    · have hkn : k ≠ n := by
        rintro rfl
        rw [hc] at hm
        exact hm rfl
      exact Or.inr (Or.inl ⟨⟨κ, func, hc⟩, (hmem _ (by simp)).not.mpr hst, mt (hful k hkn) hf⟩)
    · have hkn : k ≠ n := by
        rintro rfl
        exact hdead hd
      exact Or.inr (Or.inr ⟨hd, mt (hful k hkn) hf⟩)
  · intro m hm w hw'
    have hw := (hmem _ (by simp)).mp hw'
    by_cases hXm : X = some (.outer m)
    · -- the successor that has just been fulfilled
      obtain rfl : m = n := by
        rcases hX with hX | hX <;> rw [hX] at hXm <;> cases hXm
        rfl
      have hw := (hmem _ (by simp)).mp hw'
      have hnow : .fulfilled m st ∈ (h.settled p m st).log := List.mem_cons_self
      rcases hset hXm w hw with ht | hws | ⟨v, x, e, hv, hxe, he, rfl⟩ |
        ⟨j, st', rfl, hj, hfw⟩
      · exact Or.inl (ht.mono hlog)
      · exact Or.inr (Or.inl ⟨st, hws, hnow⟩)
      · exact Or.inr (Or.inr (Or.inl ⟨v, x, e, hv, hlog hxe, he, hnow⟩))
      · exact Or.inr (Or.inr (Or.inr ⟨j, rfl, Or.inl ⟨st', st, hshared j st' hj, hfw, hnow⟩⟩))
    · rcases hi.forwarded m hXm w hw with
        ht | ⟨st', hst, hf⟩ | ⟨v, x, e, hv, hxe, he, hf⟩ | ⟨j, rfl, hj⟩
      · exact Or.inl (ht.mono hlog)
      · exact Or.inr (Or.inl ⟨st', hst, hlog hf⟩)
      · exact Or.inr (Or.inr (Or.inl ⟨v, x, e, hv, hlog hxe, he, hlog hf⟩))
      · refine Or.inr (Or.inr (Or.inr ⟨j, rfl, ?_⟩))
        rcases hj with ⟨st', r, hst, hr, hf⟩ | ⟨ha, hc, hst, hf⟩ | ⟨ha, hd, hf⟩
        · exact Or.inl ⟨st', r, hshared j st' hst, hr, hlog hf⟩
        · have hjn : j ≠ n := by
            rintro rfl
            rw [hc] at hm
            exact hm rfl
          exact Or.inr (Or.inl ⟨ha.mono (List.suffix_cons _ _), hc,
            (hmem _ (by simp)).not.mpr hst, mt (hful j hjn) hf⟩)
        · have hjn : j ≠ n := by
            rintro rfl
            exact hdead hd
          exact Or.inr (Or.inr ⟨ha.mono (List.suffix_cons _ _), hd, mt (hful j hjn) hf⟩)
  · refine C.quiet h _ ?_ hi.client
    simp [Heap.view, Heap.settled, Heap.setShared, Heap.lock, Heap.enter,
      Event.Visible]

/-- A promise is no longer being fulfilled. -/
lemma Inv.leave (hi : Inv C X h) {p : PromiseLoc} {ps : List PromiseLoc}
    (hp : h.fulfilling = p :: ps)
    (hdone : ∀ s c, h.Holds p s → (h.states s).continuation = some c →
      ¬ (h.leave p).InUse c.promise) : Inv C X (h.leave p) := by
  obtain ⟨hg, hco, hca, hch⟩ := hi.core
  refine ⟨⟨?_, ?_, hca.leave hdone, ?_⟩, ?_, hi.linked, hi.forwarded, hi.funcs,
    hi.copies, ?_⟩
  · exact hg.of_eq rfl rfl rfl rfl rfl rfl
  · exact hco.of_eq (Nat.le_refl _) rfl rfl rfl rfl
  · exact hch.of_eq rfl rfl (Nat.le_refl _)
  · show h.held.erase (.promise p) = (h.fulfilling.erase p).map .promise
    rw [hi.held, hp, List.map_cons, List.erase_cons_head, List.erase_cons_head]
  · exact C.quiet h _ rfl hi.client

/-! ## Invocation -/

section Invocation

variable {e e' : Event V}

lemma Heap.mem_note (hne : e' ≠ e) : e' ∈ (h.note e).log ↔ e' ∈ h.log :=
  List.mem_cons.trans (or_iff_right hne)

lemma Heap.fulfilled_note (hne : ∀ n st, e ≠ .fulfilled n st) {n : ℕ} :
    (h.note e).Fulfilled n ↔ h.Fulfilled n :=
  exists_congr fun st => Heap.mem_note (hne n st).symm

lemma Heap.running_note (hc : ∀ m st, e ≠ .called m st) (hr : ∀ m w, e ≠ .returned m w)
    {m : ℕ} : (h.note e).Running m ↔ h.Running m :=
  and_congr (exists_congr fun st => Heap.mem_note (hc m st).symm)
    (not_congr (exists_congr fun w => Heap.mem_note (hr m w).symm))

/-- The links and what is owed to the successors depend on an event only as far as it is about
them. -/
lemma Inv.obligations_note (hi : Inv C X h) (hreg : ∀ m n, e ≠ .registered m n)
    (hf : ∀ n st, e ≠ .fulfilled n st) :
    (∀ m, X ≠ some (.succ m) → e ≠ .started (.succ m) → Linked (h.note e) m) ∧
      ∀ m, X ≠ some (.outer m) → e ≠ .started (.outer m) → (∀ w, e ≠ .returned m w) →
        Forwarded (h.note e) m := by
  constructor
  · intro m hm hs
    exact (hi.linked m hm).frame (h.subset_note e) (fun _ _ hs => hs) (Heap.mem_note hs.symm).mp
      fun n hn => ⟨(Heap.mem_note (hreg m n).symm).mp hn, (Heap.fulfilled_note hf).mp, id,
        fun _ => Or.inl⟩
  · intro m hm hs hr
    exact (hi.forwarded m hm).frame (List.suffix_cons _ _) (fun _ _ hs => hs)
      (Heap.mem_note hs.symm).mp (fun w => (Heap.mem_note (hr w).symm).mp)
      fun _ _ => ⟨(Heap.fulfilled_note hf).mp, id, fun _ => Or.inl⟩

end Invocation

lemma Chronicle.note_started (hl : Chronicle h) {p : PromiseLoc} (hs : ¬ h.Started p)
    (hlt : ∀ m, p.node = some m → m < h.next) (hout : ∀ m, p = .outer m → h.Returned m) :
    Chronicle (h.note (.started p)) := by
  refine hl.note ⟨hlt, fun m hm => (hout m hm).mono (h.subset_note _)⟩ ?_
  intro k hk
  cases hk
  refine ⟨?_, by simp⟩
  intro hk
  obtain ⟨e, he, hek⟩ := List.mem_filterMap.mp hk
  cases e <;> simp only [Event.key, Option.some.injEq, Key.started.injEq, reduceCtorEq] at hek
  exact hs (hek ▸ he)

/-- A continuation that no `State` waits to invoke is invoked. -/
lemma Inv.note_started {p : PromiseLoc} (hi : Inv C (some p) h) (hs : ¬ h.Started p)
    (hcap : ∀ s c, (h.states s).continuation = some c → c.promise ≠ p)
    (ha : ∀ n, .abandoned n (some p) ∉ h.log) (hlt : ∀ m, p.node = some m → m < h.next)
    (hout : ∀ m, p = .outer m → h.Returned m) : Inv C (some p) (h.note (.started p)) := by
  obtain ⟨hg, hco, hca, hch⟩ := hi.core
  obtain ⟨hlink, hforw⟩ := hi.obligations_note (e := .started p) (by simp) (by simp)
  refine ⟨⟨?_, ?_, ?_, hch.note_started hs hlt hout⟩, hi.held, ?_, ?_, hi.funcs,
    hi.copies_note (by simp), ?_⟩
  · exact hg.of_eq rfl rfl rfl rfl rfl rfl
  · exact hco.note_started (fun s c hc hp => absurd hp (hcap s c hc)) ha
  · exact hca.frame (fun _ => (Heap.running_note (by simp) (by simp)).mp) (fun _ => Iff.rfl)
      (fun _ _ _ hp => hp) (fun _ hs => hs) (fun _ _ hn => hn) fun _ _ hs => Or.inl hs
  · exact fun m hm => hlink m hm (by simpa using hm)
  · exact fun m hm => hforw m hm (by simpa using hm) (by simp)
  · refine C.quiet h _ ?_ hi.client
    simp [Heap.view, Event.Visible]

/-- A continuation stored in a `State` is invoked with the delegate of the `State`. -/
lemma Inv.takeFuture {c : Cont V} (hi : Inv C (some c.promise) h) {n : ℕ}
    (hc : (h.states n).continuation = some c) (hn : h.shared n ≠ none)
    (hs : ¬ h.Started c.promise) (ha : ∀ n, .abandoned n (some c.promise) ∉ h.log) :
    Inv C (some c.promise) ((h.takeFuture n c.arg).note (.started c.promise)) := by
  obtain ⟨hg, hco, hca, hch⟩ := hi.core
  have hcont : ∀ s, (((h.takeFuture n c.arg).note (.started c.promise)).states s).continuation =
      (h.states s).continuation := by
    intro s
    simp only [Heap.note_states, Heap.takeFuture, Heap.setFuture, Heap.setState,
      Function.update_apply]
    split
    · next hsn => rw [hsn]
    · rfl
  obtain ⟨hlink, hforw⟩ := hi.obligations_note (e := .started c.promise) (by simp) (by simp)
  have hlt : ∀ m, c.promise.node = some m → m < h.next := by
    intro m hm
    rw [Cont.node_promise, Option.some.injEq] at hm
    exact hm ▸ hco.lt n c hc
  have hout : ∀ m, c.promise = .outer m → h.Returned m := by
    intro m hm
    cases c with
    | link => cases hm
    | relay k =>
      cases hm
      exact ⟨_, hco.relay n m hc⟩
  refine ⟨⟨?_, ?_, ?_, ?_⟩, hi.held, ?_, ?_, ?_, hi.copies_note (e := .started _) (by simp), ?_⟩
  · exact (hg.takeFuture n c.arg).of_eq rfl rfl rfl rfl rfl rfl
  · exact hco.takeFuture hc hn ha
  · refine hca.frame (fun _ => (Heap.running_note (by simp) (by simp)).mp) (fun _ => Iff.rfl)
      (fun _ _ _ hp => hp) (fun _ hs => hs) (fun _ _ hn => hn) ?_
    intro s c' hs'
    rw [hcont] at hs'
    exact Or.inl hs'
  · exact (hch.note_started hs hlt hout).of_eq rfl rfl (Nat.le_refl _)
  · intro m hm
    refine (hlink m hm (by simpa using hm)).frame (List.Subset.refl _) (fun _ _ hs => hs) id ?_
    exact fun k hk => ⟨hk, id, id, fun c' hc' => Or.inl ((hcont k).trans hc')⟩
  · intro m hm
    refine (hforw m hm (by simpa using hm) (by simp)).frame (List.suffix_refl _)
      (fun _ _ hs => hs) id (fun _ hw => hw) ?_
    exact fun k _ => ⟨id, id, fun c' hc' => Or.inl ((hcont k).trans hc')⟩
  · intro s m κ func hs'
    rw [hcont] at hs'
    exact hi.funcs s m κ func hs'
  · refine C.quiet h _ ?_ hi.client
    cases c <;> simp [Heap.view, Event.Visible, Heap.takeFuture, Heap.setFuture, Heap.setState,
      Cont.arg]

/-- A function is called with the future that it was registered for. -/
lemma Inv.note_called {m n : ℕ} {st : Stored V} (hi : Inv C (some (.succ m)) h)
    (hreg : .registered m n ∈ h.log) (hst : h.shared n = some st) (hs : h.Started (.succ m))
    (hnew : ¬ h.Called m) (hp : h.Holds (.succ m) m) (hnone : h.shared m = none)
    (hg : ∀ s c, (h.states s).continuation = some c → c.promise = .succ m → h.Guarded s) :
    Inv C none (h.note (.called m (some st))) := by
  obtain ⟨hgr, hco, hca, hch⟩ := hi.core
  obtain ⟨hlink, hforw⟩ := hi.obligations_note (e := .called m (some st)) (by simp) (by simp)
  refine ⟨⟨?_, ?_, hca.note_called _ hp hnone hg, ?_⟩, hi.held, ?_, ?_, hi.funcs,
    hi.copies_note (by simp), ?_⟩
  · exact hgr.of_eq rfl rfl rfl rfl rfl rfl
  · exact hco.note (by simp) (by simp)
  · refine hch.note ⟨List.mem_cons_of_mem _ hs, n, st, List.mem_cons_of_mem _ hreg, rfl, hst⟩ ?_
    intro k hk
    cases hk
    refine ⟨?_, by simp⟩
    intro hk
    obtain ⟨e, he, hek⟩ := List.mem_filterMap.mp hk
    cases e <;> simp only [Event.key, Option.some.injEq, Key.called.injEq, reduceCtorEq] at hek
    exact hnew ⟨_, hek ▸ he⟩
  · intro k _
    by_cases hk : k = m
    · subst hk
      intro n' hn'
      have hn' := (Heap.mem_note (by simp)).mp hn'
      have heq := hch.eq_of_key hn' hreg rfl rfl
      cases heq
      exact Or.inl ⟨st, List.mem_cons_self, hst⟩
    · exact hlink k (by simpa using fun h => hk h.symm) (by simp)
  · exact fun k _ => hforw k (by simp) (by simp) (by simp)
  · exact C.called h m _ hi.client

/-- A function returns or throws. -/
lemma Inv.note_returned {m : ℕ} {w : How V} (hi : Inv C none h) (hr : h.Running m)
    (hw : ∀ j, w = .inner (some j) → j < h.next) (hJ : C.J (h.note (.returned m w))) :
    Inv C (some (.outer m)) (h.note (.returned m w)) := by
  obtain ⟨hg, hco, hca, hch⟩ := hi.core
  obtain ⟨hlink, hforw⟩ := hi.obligations_note (e := .returned m w) (by simp) (by simp)
  refine ⟨⟨?_, ?_, ?_, ?_⟩, hi.held, ?_, ?_, hi.funcs, hi.copies_note (by simp), hJ⟩
  · exact hg.of_eq rfl rfl rfl rfl rfl rfl
  · exact hco.note (by simp) (by simp)
  · refine hca.frame ?_ (fun _ => Iff.rfl) (fun _ _ _ hp => hp) (fun _ hs => hs)
      (fun _ _ hn => hn) fun _ _ hs => Or.inl hs
    rintro k ⟨⟨st, hst⟩, hret⟩
    exact ⟨⟨st, (Heap.mem_note (by simp)).mp hst⟩, fun hk => hret (hk.mono (h.subset_note _))⟩
  · refine hch.note ⟨hr.1.mono (h.subset_note _), hw⟩ ?_
    intro k hk
    cases hk
    refine ⟨?_, by simp⟩
    intro hk
    obtain ⟨e, he, hek⟩ := List.mem_filterMap.mp hk
    cases e <;> simp only [Event.key, Option.some.injEq, Key.returned.injEq, reduceCtorEq] at hek
    exact hr.2 ⟨_, hek ▸ he⟩
  · exact fun k _ => hlink k (by simp) (by simp)
  · intro k hk
    have hkm : k ≠ m := by
      rintro rfl
      exact hk rfl
    refine hforw k (by simp) (by simp) ?_
    rintro w' heq
    cases heq
    exact hkm rfl

end AraCore.Future
