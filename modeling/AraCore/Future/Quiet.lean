/-
# What operations leave alone

The invariant of a run for a given client, that is, for given functions passed to `then` and a
given property that they maintain of what they can see.  Most changes of the memory are quiet:
they call nothing, fulfil nothing and let continuations only disappear with their promise.
-/
import AraCore.Future.Steps

namespace AraCore.Future

open Lib Comp

variable {V : Type} {h h' h'' : Heap V}

/-! ## Clients -/

/-- Events that a client may rely on. -/
def Event.Visible : Event V → Bool
  | registered _ _ | called _ _ | returned _ _ | threw _ | raised _ => true
  | fulfilled _ _ | abandoned _ _ | started _ | left _ _ | copyThrew _ _ | copyAborted _
  | locks _ _ => false

/-- What a client sees of the memory: the variables and the events. -/
structure View (V : Type) where
  promises : ℕ → Option PromiseObj
  futures : ℕ → Option FutureObj
  next : ℕ
  log : List (Event V)

/-- The view of a memory. -/
def Heap.view (h : Heap V) : View V where
  promises k := h.promises (.named k)
  futures k := h.futures (.handle (.named k))
  next := h.next
  log := h.log.filter Event.Visible

/-- The functions that are passed to `then`, by the number of the successor, and what they
maintain. -/
structure Client (V : Type) where
  J : Heap V → Prop
  quiet : ∀ h h', h'.view = h.view → J h → J h'
  called : ∀ h m st, J h → J (h.note (.called m st))
  K : ℕ → (κ : Kind) → (Handle → Prog V κ) → Prop
  /-- The program may misuse its objects or wait for ever. -/
  misuse : Prop
  /-- The copies of values may throw. -/
  copyThrows : Prop

/-- The client of which nothing is known. -/
def Client.any : Client V where
  J _ := True
  quiet _ _ _ _ := trivial
  called _ _ _ _ := trivial
  K _ _ _ := True
  misuse := True
  copyThrows := True

/-- The invariant of a run.  In the middle of an operation there may be an exception: the link
to its predecessor of a successor whose continuation is being invoked, or what a function that
has just returned owes to its successor. -/
structure Inv (C : Client V) (X : Option PromiseLoc) (h : Heap V) : Prop where
  core : Core h
  held : h.held = h.fulfilling.map .promise
  linked : ∀ m, X ≠ some (.succ m) → Linked h m
  forwarded : ∀ m, X ≠ some (.outer m) → Forwarded h m
  funcs : ∀ s m κ func, (h.states s).continuation = some (.link m κ func) → C.K m κ func
  copies : ∀ p x, .copyThrew p x ∈ h.log → C.copyThrows
  client : C.J h

/-- What an operation leaves as it was, whatever continuations it invokes. -/
structure Ext (h h' : Heap V) : Prop where
  held : h'.held = h.held
  fulfilling : h'.fulfilling = h.fulfilling
  next : h.next ≤ h'.next
  history : h.log <:+ h'.log
  shared : ∀ n st, h.shared n = some st → h'.shared n = some st
  running : ∀ m, h'.Running m ↔ h.Running m
  holds : ∀ p n, h.Busy p → h.Holds p n → h'.Holds p n
  cont : ∀ s, (h.shared s).isSome → (h'.states s).continuation = none ∨
    (h'.states s).continuation = (h.states s).continuation
  nextSlots : ∀ m, m < h.next → h'.futures (.next m) = h.futures (.next m)
  spent : ∀ m, h.Spent m → h'.Spent m
  retrieved : ∀ n, h.retrieved n = true → h'.retrieved n = true

namespace Ext

lemma refl (h : Heap V) : Ext h h :=
  ⟨rfl, rfl, Nat.le_refl _, List.suffix_refl _, fun _ _ hs => hs, fun _ => Iff.rfl,
    fun _ _ _ hp => hp, fun _ _ => Or.inr rfl, fun _ _ => rfl, fun _ hm => hm, fun _ hr => hr⟩

lemma busy (he : Ext h h') (p : PromiseLoc) : h'.Busy p ↔ h.Busy p := by
  unfold Heap.Busy
  rw [he.held]

lemma trans (h₁ : Ext h h') (h₂ : Ext h' h'') : Ext h h'' where
  held := h₂.held.trans h₁.held
  fulfilling := h₂.fulfilling.trans h₁.fulfilling
  next := Nat.le_trans h₁.next h₂.next
  history := h₁.history.trans h₂.history
  shared n st hs := h₂.shared n st (h₁.shared n st hs)
  running m := (h₂.running m).trans (h₁.running m)
  holds p n hb hp := h₂.holds p n ((h₁.busy p).mpr hb) (h₁.holds p n hb hp)
  cont s hs := by
    obtain ⟨st, hst⟩ := Option.isSome_iff_exists.mp hs
    have hs' : (h'.shared s).isSome := by
      rw [h₁.shared s st hst]
      rfl
    rcases h₂.cont s hs' with h₂ | h₂
    · exact Or.inl h₂
    · rw [h₂]
      exact h₁.cont s hs
  nextSlots m hm := (h₂.nextSlots m (Nat.lt_of_lt_of_le hm h₁.next)).trans (h₁.nextSlots m hm)
  spent m hm := h₂.spent m (h₁.spent m hm)
  retrieved n hr := h₂.retrieved n (h₁.retrieved n hr)

lemma log (he : Ext h h') : h.log ⊆ h'.log := he.history.subset

lemma startedCount (he : Ext h h') : h.startedCount ≤ h'.startedCount := he.history.countP_le

end Ext

/-! ## Obligations -/

/-- A link to the predecessor stays good if the successor is not registered anew and not
invoked, and the predecessor is not fulfilled and keeps the continuation as long as it may be
fulfilled. -/
lemma Linked.frame {m : ℕ} (hm : Linked h m) (hlog : h.log ⊆ h'.log)
    (hshared : ∀ n st, h.shared n = some st → h'.shared n = some st)
    (hs : h'.Started (.succ m) → h.Started (.succ m))
    (hn : ∀ n, .registered m n ∈ h'.log → .registered m n ∈ h.log ∧
      (h'.Fulfilled n → h.Fulfilled n) ∧ (h.Dead n → h'.Dead n) ∧
      ∀ c, (h.states n).continuation = some c →
        (h'.states n).continuation = some c ∨ h'.Dead n) : Linked h' m := by
  intro n hreg
  obtain ⟨hreg, hful, hdead, hcont⟩ := hn n hreg
  rcases hm n hreg with ⟨st, hc, hst⟩ | ⟨⟨κ, func, hc⟩, hst, hf⟩ | ⟨hd, hf⟩
  · exact Or.inl ⟨st, hlog hc, hshared n st hst⟩
  · rcases hcont _ hc with hc' | hd
    · exact Or.inr (Or.inl ⟨⟨κ, func, hc'⟩, mt hs hst, mt hful hf⟩)
    · exact Or.inr (Or.inr ⟨hd, mt hful hf⟩)
  · exact Or.inr (Or.inr ⟨hdead hd, mt hful hf⟩)

lemma Heap.Awaits.mono {m j : ℕ} (ha : h.Awaits m j) (hhist : h.log <:+ h'.log) :
    h'.Awaits m j := by
  obtain ⟨l, hl, hj⟩ := ha
  exact ⟨l, hl.trans hhist, hj⟩

/-- What is owed to a successor stays so if its function does not return now and its relay is
not invoked, and the inner future is not fulfilled and keeps the relay as long as it may be
fulfilled. -/
lemma Forwarded.frame {m : ℕ} (hm : Forwarded h m) (hhist : h.log <:+ h'.log)
    (hshared : ∀ n st, h.shared n = some st → h'.shared n = some st)
    (hs : h'.Started (.outer m) → h.Started (.outer m))
    (hret : ∀ w, .returned m w ∈ h'.log → .returned m w ∈ h.log)
    (hj : ∀ j, .returned m (.inner (some j)) ∈ h.log →
      (h'.Fulfilled j → h.Fulfilled j) ∧ (h.Dead j → h'.Dead j) ∧
      ∀ c, (h.states j).continuation = some c →
        (h'.states j).continuation = some c ∨ h'.Dead j) : Forwarded h' m := by
  have hlog := hhist.subset
  intro w hw
  rcases hm w (hret w hw) with ht | ⟨st, hst, hf⟩ | ⟨v, x, e, hv, hx, he, hf⟩ |
    ⟨j, rfl, hin⟩
  · exact Or.inl (ht.mono hlog)
  · exact Or.inr (Or.inl ⟨st, hst, hlog hf⟩)
  · exact Or.inr (Or.inr (Or.inl ⟨v, x, e, hv, hlog hx, he, hlog hf⟩))
  · obtain ⟨hful, hdead, hcont⟩ := hj j (hret _ hw)
    refine Or.inr (Or.inr (Or.inr ⟨j, rfl, ?_⟩))
    rcases hin with ⟨st, r, hst, hr, hf⟩ | ⟨ha, hc, hst, hf⟩ | ⟨ha, hd, hf⟩
    · exact Or.inl ⟨st, r, hshared j st hst, hr, hlog hf⟩
    · rcases hcont _ hc with hc' | hd
      · exact Or.inr (Or.inl ⟨ha.mono hhist, hc', mt hs hst, mt hful hf⟩)
      · exact Or.inr (Or.inr ⟨ha.mono hhist, hd, mt hful hf⟩)
    · exact Or.inr (Or.inr ⟨ha.mono hhist, hdead hd, mt hful hf⟩)

/-! ## Quiet changes -/

/-- Events that neither call nor fulfil anything. -/
def Event.Minor : Event V → Prop
  | abandoned _ _ | left _ _ | threw _ | raised _ | copyAborted _ | locks _ _ => True
  | registered _ _ | fulfilled _ _ | started _ | called _ _ | returned _ _ | copyThrew _ _ => False

/-- Nothing is called or fulfilled, and a continuation disappears only if no promise can invoke
it any more. -/
structure Quiet (h h' : Heap V) : Prop where
  held : h'.held = h.held
  fulfilling : h'.fulfilling = h.fulfilling
  next : h.next ≤ h'.next
  history : h.log <:+ h'.log
  minor : ∀ e ∈ h'.log, e ∈ h.log ∨ e.Minor
  shared : ∀ n st, h.shared n = some st → h'.shared n = some st
  dead : ∀ n, n < h.next → h.Dead n → h'.Dead n
  holds : ∀ p n, h.InUse p → h.Holds p n → h'.Holds p n
  cont : ∀ s, (h'.states s).continuation = (h.states s).continuation ∨
    (h'.states s).continuation = none ∧ h'.Dead s ∧ s < h'.next
  retrieved : ∀ n, h.retrieved n = true → h'.retrieved n = true

namespace Quiet

lemma refl (h : Heap V) : Quiet h h :=
  ⟨rfl, rfl, Nat.le_refl _, List.suffix_refl _, fun _ he => Or.inl he, fun _ _ hs => hs,
    fun _ _ hd => hd, fun _ _ _ hp => hp, fun _ => Or.inl rfl, fun _ hr => hr⟩

lemma log (hq : Quiet h h') : h.log ⊆ h'.log := hq.history.subset

lemma mem_iff (hq : Quiet h h') {e : Event V} (he : ¬ e.Minor) : e ∈ h'.log ↔ e ∈ h.log :=
  ⟨fun hm => (hq.minor e hm).resolve_right he, fun hm => hq.log hm⟩

lemma started_iff (hq : Quiet h h') (p : PromiseLoc) : h'.Started p ↔ h.Started p :=
  hq.mem_iff id

lemma fulfilled_iff (hq : Quiet h h') (n : ℕ) : h'.Fulfilled n ↔ h.Fulfilled n :=
  exists_congr fun _ => hq.mem_iff id

lemma called_iff (hq : Quiet h h') (m : ℕ) : h'.Called m ↔ h.Called m :=
  exists_congr fun _ => hq.mem_iff id

lemma returned_iff (hq : Quiet h h') (m : ℕ) : h'.Returned m ↔ h.Returned m :=
  exists_congr fun _ => hq.mem_iff id

lemma running_iff (hq : Quiet h h') (m : ℕ) : h'.Running m ↔ h.Running m :=
  and_congr (hq.called_iff m) (not_congr (hq.returned_iff m))

lemma busy_iff (hq : Quiet h h') (p : PromiseLoc) : h'.Busy p ↔ h.Busy p := by
  unfold Heap.Busy
  rw [hq.held]

lemma inUse_iff (hq : Quiet h h') (p : PromiseLoc) : h'.InUse p ↔ h.InUse p :=
  or_congr (hq.busy_iff p) (exists_congr fun m => and_congr Iff.rfl (hq.running_iff m))

lemma trans (h₁ : Quiet h h') (h₂ : Quiet h' h'') : Quiet h h'' where
  held := h₂.held.trans h₁.held
  fulfilling := h₂.fulfilling.trans h₁.fulfilling
  next := Nat.le_trans h₁.next h₂.next
  history := h₁.history.trans h₂.history
  minor e he := by
    rcases h₂.minor e he with he | he
    · exact h₁.minor e he
    · exact Or.inr he
  shared n st hs := h₂.shared n st (h₁.shared n st hs)
  dead n hn hd := h₂.dead n (Nat.lt_of_lt_of_le hn h₁.next) (h₁.dead n hn hd)
  holds p n hu hp := h₂.holds p n ((h₁.inUse_iff p).mpr hu) (h₁.holds p n hu hp)
  cont s := by
    rcases h₂.cont s with hc' | ⟨hc', hd', hlt'⟩
    · rcases h₁.cont s with hc | ⟨hc, hd, hlt⟩
      · exact Or.inl (hc'.trans hc)
      · exact Or.inr ⟨hc'.trans hc, h₂.dead s hlt hd, Nat.lt_of_lt_of_le hlt h₂.next⟩
    · exact Or.inr ⟨hc', hd', hlt'⟩
  retrieved n hr := h₂.retrieved n (h₁.retrieved n hr)

lemma isSome (hq : Quiet h h') {n : ℕ} (hn : (h.shared n).isSome) : (h'.shared n).isSome := by
  obtain ⟨st, hst⟩ := Option.isSome_iff_exists.mp hn
  rw [hq.shared n st hst]
  rfl

lemma guarded (hq : Quiet h h') {s : ℕ} (hs : h.Guarded s) : h'.Guarded s := by
  obtain ⟨p, hp, hps⟩ := hs
  exact ⟨p, (hq.busy_iff p).mpr hp, hq.holds p s (Or.inl hp) hps⟩

lemma spent (hq : Quiet h h') {m : ℕ} (hm : h.Spent m)
    (hp : h'.promises (.succ m) = h.promises (.succ m)) : h'.Spent m := by
  obtain ⟨hs, ⟨o, ho, hr⟩, hg⟩ := hm
  refine ⟨hq.log hs, ⟨o, hp.trans ho, fun n hn => hq.isSome (hr n hn)⟩,
    fun s c hc hcm => hq.guarded ?_⟩
  rcases hq.cont s with hc' | ⟨hc', -, -⟩
  · exact hg s c (hc'.symm.trans hc) hcm
  · rw [hc'] at hc
    cases hc

/-- A quiet change extends what has been done before, if it leaves the futures to be returned by
`then`, and the promises that are spent. -/
lemma after {h₀ : Heap V} (he : Ext h₀ h) (hq : Quiet h h')
    (hnext : ∀ m, m < h₀.next → h'.futures (.next m) = h.futures (.next m))
    (hspent : ∀ m, h₀.Spent m → h.Spent m → h'.Spent m) : Ext h₀ h' where
  held := hq.held.trans he.held
  fulfilling := hq.fulfilling.trans he.fulfilling
  next := Nat.le_trans he.next hq.next
  history := he.history.trans hq.history
  shared n st hs := hq.shared n st (he.shared n st hs)
  running m := (hq.running_iff m).trans (he.running m)
  holds p n hb hp := hq.holds p n (Or.inl ((he.busy p).mpr hb)) (he.holds p n hb hp)
  cont s hs := by
    rcases hq.cont s with hc | ⟨hc, -, -⟩
    · rw [hc]
      exact he.cont s hs
    · exact Or.inl hc
  nextSlots m hm := (hnext m hm).trans (he.nextSlots m hm)
  spent m hm := hspent m hm (he.spent m hm)
  retrieved n hr := hq.retrieved n (he.retrieved n hr)

/-- A quiet change is an extension, if it leaves the futures to be returned by `then`, and the
promises that are spent. -/
lemma ext (hq : Quiet h h')
    (hnext : ∀ m, m < h.next → h'.futures (.next m) = h.futures (.next m))
    (hspent : ∀ m, h.Spent m → h'.Spent m) : Ext h h' :=
  hq.after (.refl h) hnext fun m hm _ => hspent m hm

lemma linked (hq : Quiet h h') (hl : Chronicle h) {m : ℕ} (hm : Linked h m) : Linked h' m := by
  refine hm.frame hq.log hq.shared (hq.started_iff _).mp fun n hn => ?_
  have hn := (hq.mem_iff id).mp hn
  refine ⟨hn, (hq.fulfilled_iff n).mp, hq.dead n (hl.backed _ hn).2, ?_⟩
  intro c hc
  exact (hq.cont n).imp (fun hc' => hc'.trans hc) fun hc' => hc'.2.1

lemma forwarded (hq : Quiet h h') (hl : Chronicle h) {m : ℕ} (hm : Forwarded h m) :
    Forwarded h' m := by
  refine hm.frame hq.history hq.shared (hq.started_iff _).mp
    (fun w hw => (hq.mem_iff id).mp hw) fun j hj => ?_
  refine ⟨(hq.fulfilled_iff j).mp, hq.dead j ((hl.backed _ hj).2 j rfl), ?_⟩
  intro c hc
  exact (hq.cont j).imp (fun hc' => hc'.trans hc) fun hc' => hc'.2.1

end Quiet

variable {C : Client V} {X : Option PromiseLoc}

/-- The rule for quiet changes: it is enough to look at the core of the invariant and at what
the client maintains. -/
lemma Inv.quiet (hi : Inv C X h) (hcore : Core h') (hq : Quiet h h') (hJ : C.J h') :
    Inv C X h' where
  core := hcore
  held := by
    rw [hq.held, hq.fulfilling]
    exact hi.held
  linked m hm := hq.linked hi.core.chronicle (hi.linked m hm)
  forwarded m hm := hq.forwarded hi.core.chronicle (hi.forwarded m hm)
  funcs s m κ func hc := by
    rcases hq.cont s with hc' | ⟨hc', -, -⟩
    · exact hi.funcs s m κ func (hc'.symm.trans hc)
    · rw [hc'] at hc
      cases hc
  copies p x hx := hi.copies p x ((hq.mem_iff id).mp hx)
  client := hJ

lemma Inv.copies_note (hi : Inv C X h) {e : Event V} (he : ∀ p x, e ≠ .copyThrew p x) :
    ∀ p x, .copyThrew p x ∈ (h.note e).log → C.copyThrows := by
  intro p x hx
  rcases List.mem_cons.mp hx with hx | hx
  · exact absurd hx.symm (he p x)
  · exact hi.copies p x hx

/-- The calls in progress are not affected by a quiet change that fulfils no successor of a
running function. -/
lemma Calls.quiet (hc : Calls h) (hq : Quiet h h')
    (hnone : ∀ m, h.Running m → h.shared m = none → h'.shared m = none) : Calls h' := by
  refine hc.frame (fun m => (hq.running_iff m).mp) hq.busy_iff hq.holds (fun _ => hq.isSome)
    hnone ?_
  intro s c hs
  rcases hq.cont s with hc' | ⟨hc', -, -⟩
  · exact Or.inl (hc'.symm.trans hs)
  · rw [hc'] at hs
    cases hs

end AraCore.Future
