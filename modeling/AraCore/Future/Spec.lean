/-
# What the code between two operations guarantees

The specifications of the parts of an operation: a part that comes to its end or throws keeps
the invariant and leaves the calls in progress as they were, and a fault has a known cause.
-/
import AraCore.Future.Advance

namespace AraCore.Future

open Lib Comp

variable {V α : Type} {h h' h₀ : Heap V} {C : Client V} {X : Option PromiseLoc} {fuel : ℕ}

/-! ## Postconditions -/

/-- What is known where a run with the bound `fuel` comes to a fault. -/
structure Blame (C : Client V) (fuel : ℕ) (f : Fault) (h : Heap V) : Prop where
  between : f = .undefined ∨ f = .blocked → Inv C none h ∧ C.misuse
  deadlock : (∃ mx, f = .deadlock mx) ↔ ∃ e ∈ h.log, e.Conflict
  terminate : f = .terminate → C.copyThrows ∧ (∃ x, .copyAborted x ∈ h.log) ∨
    ∃ x, ¬ x.IsStd ∧ .raised x ∈ h.log
  outOfFuel : f = .outOfFuel → fuel ≤ h.startedCount

/-- The ends of a part that was entered in the memory `h₀`: it returns as `Q` says, throws as
`T` says, or comes to a fault. -/
def after (C : Client V) (fuel : ℕ) (h₀ : Heap V) (Q : α → Heap V → Prop)
    (T : Exn → Heap V → Prop) : Post (Heap V) Exn Fault α where
  ok a h := Inv C none h ∧ Ext h₀ h ∧ Q a h
  throw x h := Inv C none h ∧ Ext h₀ h ∧ T x h
  stop f h := Blame C fuel f h

lemma wp_after_trans {c : Code V α} {Q : α → Heap V → Prop} {T : Exn → Heap V → Prop}
    (he : Ext h₀ h) (hc : wp c (after C fuel h Q T) h') : wp c (after C fuel h₀ Q T) h' :=
  wp_mono hc (fun _ _ ⟨hi, he', hq⟩ => ⟨hi, he.trans he', hq⟩)
    (fun _ _ ⟨hi, he', ht⟩ => ⟨hi, he.trans he', ht⟩) fun _ _ hb => hb

/-- An exception that leaves a continuation. -/
def Escapes (x : Exn) (h : Heap V) : Prop := h.Tainted ∧ h.Known x

lemma Chronicle.no_conflict (hl : Chronicle h) : ¬ ∃ e ∈ h.log, e.Conflict := by
  rintro ⟨e, he, hc⟩
  have hb := hl.backed e he
  cases e with
  | locks => exact hb hc
  | _ => exact hc

/-- A misuse, or a wait for ever, between two operations. -/
lemma Inv.blame (hi : Inv C none h) (hm : C.misuse) {f : Fault}
    (hf : f = .undefined ∨ f = .blocked) : Blame C fuel f h where
  between _ := ⟨hi, hm⟩
  deadlock := by
    refine iff_of_false ?_ hi.core.chronicle.no_conflict
    rintro ⟨mx, rfl⟩
    simp at hf
  terminate := by
    rintro rfl
    simp at hf
  outOfFuel := by
    rintro rfl
    simp at hf

/-- The code terminates the program. -/
lemma Chronicle.blame_terminate (hl : Chronicle h)
    (hf : C.copyThrows ∧ (∃ x, .copyAborted x ∈ h.log) ∨ ∃ x, ¬ x.IsStd ∧ .raised x ∈ h.log) :
    Blame C fuel .terminate h where
  between := by simp
  deadlock := iff_of_false (by simp) hl.no_conflict
  terminate _ := hf
  outOfFuel := by simp

lemma Blame.of_conflict {mx : Mutex} {e : Event V} (he : e ∈ h.log) (hc : e.Conflict) :
    Blame C fuel (.deadlock mx) h where
  between := by simp
  deadlock := iff_of_true ⟨mx, rfl⟩ ⟨e, he, hc⟩
  terminate := by simp
  outOfFuel := by simp

lemma Blame.of_outOfFuel (hl : ¬ ∃ e ∈ h.log, e.Conflict) (hf : fuel ≤ h.startedCount) :
    Blame C fuel .outOfFuel h where
  between := by simp
  deadlock := iff_of_false (by simp) hl
  terminate := by simp
  outOfFuel _ := hf

/-! ## Elementary extensions -/

lemma Ext.note (h : Heap V) {e : Event V} (hc : ∀ m st, e ≠ .called m st)
    (hr : ∀ m w, e ≠ .returned m w) : Ext h (h.note e) where
  held := rfl
  fulfilling := rfl
  next := Nat.le_refl _
  history := List.suffix_cons _ _
  shared _ _ hs := hs
  running _ := Heap.running_note hc hr
  holds _ _ _ hp := hp
  cont _ _ := Or.inr rfl
  nextSlots _ _ := rfl
  spent _ hm := ⟨List.mem_cons_of_mem _ hm.1, hm.2⟩
  retrieved _ hr := hr

lemma Ext.copies (h : Heap V) (k : ℕ) : Ext h { h with copies := k } :=
  ⟨rfl, rfl, Nat.le_refl _, List.suffix_refl _, fun _ _ hs => hs, fun _ => Iff.rfl,
    fun _ _ _ hp => hp, fun _ _ => Or.inr rfl, fun _ _ => rfl, fun _ hm => hm, fun _ hr => hr⟩

/-- The futures change, but not those that `then` is going to return. -/
lemma Ext.setFutures (h : Heap V) {fs : Table FutureLoc FutureObj} {r : ℕ → Bool}
    (hr : ∀ n, h.retrieved n = true → r n = true)
    (hfs : ∀ m, m < h.next → fs (.next m) = h.futures (.next m)) :
    Ext h { h with futures := fs, retrieved := r } :=
  ⟨rfl, rfl, Nat.le_refl _, List.suffix_refl _, fun _ _ hs => hs, fun _ => Iff.rfl,
    fun _ _ _ hp => hp, fun _ _ => Or.inr rfl, hfs, fun _ hm => hm, hr⟩

/-- A continuation is invoked with the delegate of its `State`. -/
lemma Ext.takeFuture (h : Heap V) (s : ℕ) (c : Cont V) : Ext h (h.takeFuture s c.arg) := by
  have hcont : ∀ t, ((h.takeFuture s c.arg).states t).continuation =
      (h.states t).continuation := by
    intro t
    simp only [Heap.takeFuture, Heap.setFuture, Heap.setState, Function.update_apply]
    split
    · next hts => rw [hts]
    · rfl
  refine ⟨rfl, rfl, Nat.le_refl _, List.suffix_refl _, fun _ _ hs => hs, fun _ => Iff.rfl,
    fun _ _ _ hp => hp, fun t _ => Or.inr (hcont t), fun m _ => ?_, ?_, fun _ hr => hr⟩
  · simp only [Heap.takeFuture, Heap.setFuture, Table.set_apply]
    rw [if_neg]
    · rfl
    · cases c <;> simp [Cont.arg]
  · rintro m ⟨hs, hp, hg⟩
    refine ⟨hs, hp, fun t c' hc' hcm => ?_⟩
    rw [hcont] at hc'
    exact hg t c' hc' hcm

lemma Core.not_busy (hc : Core h) {p : PromiseLoc} {n : ℕ} (hp : h.Holds p n)
    (hn : h.shared n = none) : ¬ h.Busy p := by
  intro hb
  obtain ⟨k, hk, hsome⟩ := hc.calls.busy p hb
  have heq : some (PromiseObj.mk (some n) (some n)) = some ⟨some k, some k⟩ := hp.symm.trans hk
  cases heq
  simp [hn] at hsome

/-- The `State`s that were kept alive before a promise became ready are so when its mutex is
unlocked. -/
lemma Heap.guarded_of_settled (hc : Core h) {p q : PromiseLoc} {n : ℕ} {st : Stored V}
    (hp : h.Holds p n) (hn : h.shared n = none) (he : Ext (h.settled p n st) h')
    (hg : ∀ s c, (h.states s).continuation = some c → c.promise = q → h.Guarded s)
    (hg' : ∀ s c, (h'.states s).continuation = some c → c.promise = q → h'.Guarded s) :
    ∀ s c, (h'.states s).continuation = some c → c.promise = q →
      (h'.leave p).Guarded s := by
  have hheld : (h'.leave p).held = h.held := by
    show h'.held.erase _ = _
    rw [he.held]
    exact List.erase_cons_head _ _
  intro s c hs hcq
  obtain ⟨r, hr, hrs⟩ := hg' s c hs hcq
  have hr : Mutex.promise r ∈ (h.settled p n st).held := he.held ▸ hr
  refine ⟨r, ?_, hrs⟩
  show Mutex.promise r ∈ (h'.leave p).held
  rw [hheld]
  rcases List.mem_cons.mp hr with hr | hr
  · -- the promise itself would have kept the `State` before, while it was not locked
    cases hr
    have hself : (h.settled p n st).Busy p := List.mem_cons_self
    have heq : some (PromiseObj.mk (some n) (some n)) = some ⟨some s, some s⟩ :=
      (he.holds p n hself hp).symm.trans hrs
    cases heq
    have hsome : ((h.settled p n st).shared n).isSome := by
      rw [Heap.settled_shared, if_pos rfl]
      rfl
    have hcont : (h.states n).continuation = some c := by
      rcases he.cont n hsome with hnone | hsame
      · exact absurd (hs.symm.trans hnone) (by simp)
      · exact hsame.symm.trans hs
    obtain ⟨r, hrb, hrn⟩ := hg n c hcont hcq
    obtain rfl := hc.graph.promise_inj r p _ _ n hrn hp rfl rfl
    exact absurd hrb (hc.not_busy hp hn)
  · exact hr

/-- What is done after a promise became ready and before its mutex is unlocked. -/
lemma Ext.of_settled (hc : Core h) {p : PromiseLoc} {n : ℕ} {st : Stored V} (hp : h.Holds p n)
    (hn : h.shared n = none) (he : Ext (h.settled p n st) h') :
    Ext h (h'.leave p) := by
  have hheld : (h'.leave p).held = h.held := by
    show h'.held.erase _ = _
    rw [he.held]
    exact List.erase_cons_head _ _
  have hbusy : ∀ q, h.Busy q → (h.settled p n st).Busy q := fun q hq => List.mem_cons_of_mem _ hq
  have hrun : ∀ m, (h.settled p n st).Running m ↔ h.Running m :=
    fun m => Heap.running_note (by simp) (by simp)
  have hful : (h'.leave p).fulfilling = h.fulfilling := by
    show h'.fulfilling.erase _ = _
    rw [he.fulfilling]
    exact List.erase_cons_head _ _
  refine ⟨hheld, hful, he.next, ?_, ?_, fun m => (he.running m).trans (hrun m), ?_, ?_,
    he.nextSlots, ?_, he.retrieved⟩
  · exact (List.suffix_cons _ _).trans he.history
  · exact fun k st' hk => he.shared k st' (Heap.shared_settled_of_some hn hk)
  · exact fun q k hq hqk => he.holds q k (hbusy q hq) hqk
  · intro s hs
    obtain ⟨st', hst'⟩ := Option.isSome_iff_exists.mp hs
    exact he.cont s (by rw [Heap.shared_settled_of_some hn hst']; rfl)
  · intro m hm
    obtain ⟨hst, ⟨o, ho, hr⟩, hg⟩ := hm
    have hkeep : ∀ k, (h.shared k).isSome → ((h.settled p n st).shared k).isSome := by
      intro k hk
      rw [Heap.settled_shared]
      split
      · rfl
      · exact hk
    obtain ⟨hst', hp', hg'⟩ := he.spent m ⟨List.mem_cons_of_mem _ hst,
      ⟨o, ho, fun k hk => hkeep k (hr k hk)⟩,
      fun s c hs hcm => (hg s c hs hcm).imp fun q hq => ⟨hbusy q hq.1, hq.2⟩⟩
    exact ⟨hst', hp', Heap.guarded_of_settled hc hp hn he hg hg'⟩

/-! ## Small steps of the invariant -/

/-- Between the parts of an operation the locked mutexes are those of the promises that are being
fulfilled. -/
lemma Inv.busy_iff (hi : Inv C X h) {p : PromiseLoc} : h.Busy p ↔ p ∈ h.fulfilling := by
  rw [Heap.Busy, hi.held]
  simp

lemma Inv.fulfilling_eq_nil (hi : Inv C X h) (hidle : h.held = []) : h.fulfilling = [] :=
  List.map_eq_nil_iff.mp (hi.held.symm.trans hidle)

lemma Inv.copied (hi : Inv C X h) (k : ℕ) : Inv C X { h with copies := k } :=
  hi.setFutures (fun _ hr => hr) (hi.core.graph.of_eq rfl rfl rfl rfl rfl rfl)
    (C.quiet h _ rfl hi.client)

/-- The copy of a value throws. -/
lemma Inv.note_copyThrew (hi : Inv C X h) (hc : C.copyThrows) (p : PromiseLoc) (x : Exn) :
    Inv C X (h.note (.copyThrew p x)) := by
  obtain ⟨hg, hco, hca, hch⟩ := hi.core
  obtain ⟨hlink, hforw⟩ := hi.obligations_note (e := .copyThrew p x) (by simp) (by simp)
  refine ⟨⟨?_, ?_, ?_, ?_⟩, hi.held, ?_, ?_, hi.funcs, fun _ _ _ => hc, ?_⟩
  · exact hg.of_eq rfl rfl rfl rfl rfl rfl
  · exact hco.note (by simp) (by simp)
  · exact hca.frame (fun _ => (Heap.running_note (by simp) (by simp)).mp) (fun _ => Iff.rfl)
      (fun _ _ _ hp => hp) (fun _ hs => hs) (fun _ _ hn => hn) fun _ _ hs => Or.inl hs
  · refine hch.note (by trivial) fun k hk => ?_
    cases hk
  · exact fun m hm => hlink m hm (by simp)
  · exact fun m hm => hforw m hm (by simp) (by simp)
  · refine C.quiet h _ ?_ hi.client
    simp [Heap.view, Event.Visible]

/-- Mutexes of promises are locked, and the variables of the program among them are not being
fulfilled. -/
lemma Inv.note_locks (hi : Inv C X h) {ps qs : List PromiseLoc}
    (hnd : ps.Nodup) (hps : ∀ k, .named k ∈ ps → .named k ∉ qs) :
    Inv C X (h.note (.locks ps qs)) := by
  refine hi.note_hidden trivial rfl ?_ rfl
  rintro (hdup | ⟨k, hk, hq⟩)
  · exact hdup hnd
  · exact hps k hk hq

/-- The mutex of a promise that is not being fulfilled is locked. -/
lemma Inv.note_lock (hi : Inv C X h) {p : PromiseLoc} (hp : ¬ h.Busy p) :
    Inv C X (h.locking [p]) := by
  refine hi.note_locks (by simp) fun k hk => ?_
  rw [List.mem_singleton.mp hk]
  exact mt hi.busy_iff.mpr hp

lemma Inv.of_tainted {m : ℕ} (hi : Inv C (some (.outer m)) h) (ht : h.Tainted) :
    Inv C none h where
  core := hi.core
  held := hi.held
  linked k _ := hi.linked k (by simp)
  forwarded k _ := by
    by_cases hk : k = m
    · exact fun _ _ => Or.inl ht
    · exact hi.forwarded k (by simpa using fun h => hk h.symm)
  funcs := hi.funcs
  copies := hi.copies
  client := hi.client

lemma Heap.view_eraseFuture {f : FutureLoc} (hf : ∀ k, f ≠ .handle (.named k)) :
    ({ h with futures := h.futures.erase f } : Heap V).view = h.view := by
  simp only [Heap.view, Table.erase_apply, View.mk.injEq, true_and, and_true]
  funext k
  rw [if_neg (hf k).symm]

/-- A future that is no variable of the program is destroyed. -/
lemma Inv.dropFuture (hi : Inv C X h) (he : Ext h₀ h) {f : FutureLoc}
    (hf : ∀ k, f ≠ .handle (.named k)) (hn : ∀ m, m < h₀.next → f ≠ .next m) :
    Inv C X (h.destroyFuture f) ∧ Ext h₀ (h.destroyFuture f) ∧ Quiet h (h.destroyFuture f) ∧
      (∀ g, (h.destroyFuture f).futures g = if g = f then none else h.futures g) ∧
      (h.destroyFuture f).view = h.view := by
  obtain ⟨hi', hq, hfut, hview, hkeep⟩ :=
    hi.destroyFuture f (C.quiet h _ (Heap.view_eraseFuture hf) hi.client)
  refine ⟨hi', hq.after he ?_ fun m _ hm => hkeep m hm, hq, hfut,
    hview.trans (Heap.view_eraseFuture hf)⟩
  intro m hm
  rw [hfut, if_neg (hn m hm).symm]

/-- A promise is no longer being fulfilled when what it has invoked is done. -/
lemma Inv.leave_settled (hc : Core h) {p : PromiseLoc} {n : ℕ} {st : Stored V}
    (hs : Settable h p n) (hi : Inv C none h') (he : Ext (h.settled p n st) h') :
    Inv C none (h'.leave p) := by
  have hself : (h.settled p n st).Busy p := List.mem_cons_self
  have he' := Ext.of_settled hc hs.holds hs.unready he
  refine hi.leave (he.fulfilling : h'.fulfilling = p :: h.fulfilling) ?_
  intro s c hps hcont huse
  have heq : some (PromiseObj.mk (some n) (some n)) = some ⟨some s, some s⟩ :=
    (he.holds p n hself hs.holds).symm.trans hps
  cases heq
  have hsome : ((h.settled p n st).shared n).isSome := by
    rw [Heap.settled_shared, if_pos rfl]
    rfl
  have hcont' : (h.states n).continuation = some c := by
    rcases he.cont n hsome with hnone | hsame
    · exact absurd (hcont.symm.trans hnone) (by simp)
    · exact hsame.symm.trans hcont
  -- the continuation was not in use when the promise became ready
  have hst := hc.conts.waiting n c hcont' hs.unready
  obtain ⟨hcp, hcn⟩ := hc.conts.holds n c hcont' hst
  refine hc.not_inUse hcp hcn hst (huse.imp (he'.busy _).mp ?_)
  rintro ⟨m, hm, hr⟩
  exact ⟨m, hm, (he'.running m).mp hr⟩

/-! ## Calls of continuations -/

/-- A continuation can be invoked, with its parameter in place. -/
structure Callable (C : Client V) (c : Cont V) (h : Heap V) : Prop where
  inv : Inv C (some c.promise) (h.note (.started c.promise))
  unstarted : ¬ h.Started c.promise
  holds : h.Holds c.promise c.node
  unready : h.shared c.node = none
  guard : ∀ s c', (h.states s).continuation = some c' → c'.promise = c.promise → h.Guarded s
  arg : ∃ n st, h.futures c.arg = some ⟨some n, some n⟩ ∧ h.shared n = some st ∧
    (∀ m κ func, c = .link m κ func → .registered m n ∈ h.log) ∧
    ∀ m, c = .relay m → .returned m (.inner (some n)) ∈ h.log
  func : ∀ m κ func, c = .link m κ func → C.K m κ func ∧ ¬ h.Called m

/-- What is known of the invocation of a continuation when `k` of them may be nested. -/
def CallSpec (C : Client V) (fuel k : ℕ) (call : Cont V × FutureLoc → Code V Unit) : Prop :=
  ∀ c h, Callable C c h → fuel ≤ k + h.startedCount →
    wp (call (c, c.arg)) (after C fuel h (fun _ h' => h'.Started c.promise)
      fun x h' => Escapes x h' ∧ h'.Started c.promise) h

/-- The continuation that waits in the `State` of a promise can be invoked when the promise has
become ready. -/
lemma Callable.of_settled (hc : Core h) {p : PromiseLoc} {n : ℕ} {st : Stored V}
    (hs : Settable h p n) {c : Cont V} (hcont : (h.states n).continuation = some c)
    (hi : Inv C (some c.promise) (h.settled p n st)) :
    Callable C c ((h.settled p n st).takeFuture n c.arg) := by
  have hst := hc.conts.waiting n c hcont hs.unready
  obtain ⟨hcp, hcn⟩ := hc.conts.holds n c hcont hst
  have hst' : ¬ (h.settled p n st).Started c.promise :=
    (Heap.mem_note (by simp)).not.mpr hst
  have hready : (h.settled p n st).shared n = some st := by
    rw [Heap.settled_shared, if_pos rfl]
  have hnew : ∀ k, .abandoned k (some c.promise) ∉ (h.settled p n st).log := by
    intro k hk
    have hk : .abandoned k (some c.promise) ∈ h.log := (Heap.mem_note (by simp)).mp hk
    obtain rfl := (hc.conts.abandoned k _ hk).2 n c hcont rfl
    have hkey := Heap.mem_keys hk rfl
    rw [hc.chronicle.settled, hs.unready] at hkey
    cases hkey
  have hcont' : ∀ t, (((h.settled p n st).takeFuture n c.arg).states t).continuation =
      (h.states t).continuation := by
    intro t
    simp only [Heap.takeFuture, Heap.setFuture, Heap.setState, Function.update_apply]
    split
    · next hts => rw [hts]; rfl
    · rfl
  constructor
  · exact hi.takeFuture hcont (by rw [hready]; simp) hst' hnew
  · exact hst'
  · exact hcp
  · show (h.settled p n st).shared c.node = none
    rw [Heap.settled_shared, if_neg]
    · exact hcn
    · rintro rfl
      exact hs.free _ c hcont hst (hc.graph.promise_inj _ _ _ _ _ hcp hs.holds rfl rfl)
  · intro s c' hs' hcc
    rw [hcont'] at hs'
    obtain rfl := hc.conts.inj s n c' c hs' hcont hcc
    exact ⟨p, List.mem_cons_self, hs.holds⟩
  · refine ⟨n, st, ?_, hready, ?_, ?_⟩
    · show (((h.settled p n st).setState n _).setFuture c.arg _).futures c.arg = _
      simp only [Heap.setFuture, Table.set_apply, if_pos]
      show some (FutureObj.mk (h.states n).delegate (some n)) = _
      rw [hc.conts.delegate n c hcont hst]
    · rintro m κ func rfl
      exact List.mem_cons_of_mem _ (hc.conts.link n m κ func hcont)
    · rintro m rfl
      exact List.mem_cons_of_mem _ (hc.conts.relay n m hcont)
  · rintro m κ func rfl
    refine ⟨hi.funcs n m κ func hcont, ?_⟩
    rintro ⟨st', hst''⟩
    exact hst (hc.chronicle.backed _ ((Heap.mem_note (by simp)).mp hst'')).1

end AraCore.Future
