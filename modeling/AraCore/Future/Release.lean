/-
# Quiet operations keep the invariant

The operations that run no code of the user: events that are noted, futures and promises that
are constructed or moved, and the destruction of promises, of futures and of the `State`s that
nobody shares any more.
-/
import AraCore.Future.Quiet

namespace AraCore.Future

open Lib Comp

variable {V : Type} {h h' h'' : Heap V} {C : Client V} {X : Option PromiseLoc}

/-! ## Events and futures -/

lemma Quiet.note (h : Heap V) {e : Event V} (hm : e.Minor) : Quiet h (h.note e) where
  held := rfl
  fulfilling := rfl
  next := Nat.le_refl _
  history := List.suffix_cons _ _
  minor e' he' := by
    rcases List.mem_cons.mp he' with rfl | he'
    · exact Or.inr hm
    · exact Or.inl he'
  shared _ _ hs := hs
  dead _ _ hd := hd
  holds _ _ _ hp := hp
  cont _ := Or.inl rfl
  retrieved _ hr := hr

/-- An event that only tells what has been done is noted. -/
lemma Inv.note (hi : Inv C X h) {e : Event V} (hm : e.Minor) (hk : e.key = none)
    (hb : e.Backed (h.note e)) (hJ : C.J (h.note e)) : Inv C X (h.note e) := by
  have hq := Quiet.note h hm
  obtain ⟨hg, hco, hca, hch⟩ := hi.core
  refine hi.quiet ⟨?_, ?_, ?_, ?_⟩ hq hJ
  · exact hg.of_eq rfl rfl rfl rfl rfl rfl
  · refine hco.note ?_ ?_
    · rintro p rfl
      exact hm
    · rintro n p rfl
      cases hk
  · exact hca.quiet hq fun _ _ hn => hn
  · refine hch.note hb fun k hk' => ?_
    rw [hk] at hk'
    cases hk'

/-- An event that the client does not see is noted. -/
lemma Inv.note_hidden (hi : Inv C X h) {e : Event V} (hm : e.Minor) (hk : e.key = none)
    (hb : e.Backed (h.note e)) (hv : e.Visible = false) : Inv C X (h.note e) := by
  refine hi.note hm hk hb (C.quiet h _ ?_ hi.client)
  simp [Heap.view, hv]

lemma Quiet.setFutures (h : Heap V) (fs : Table FutureLoc FutureObj) {r : ℕ → Bool}
    (hr : ∀ n, h.retrieved n = true → r n = true) (k : ℕ) :
    Quiet h { h with futures := fs, retrieved := r, copies := k } :=
  ⟨rfl, rfl, Nat.le_refl _, List.suffix_refl _, fun _ he => Or.inl he, fun _ _ hs => hs,
    fun _ _ hd => hd, fun _ _ _ hp => hp, fun _ => Or.inl rfl, hr⟩

/-- Only futures change. -/
lemma Inv.setFutures (hi : Inv C X h) {fs : Table FutureLoc FutureObj} {r : ℕ → Bool} {k : ℕ}
    (hr : ∀ n, h.retrieved n = true → r n = true)
    (hg : Graph { h with futures := fs, retrieved := r, copies := k })
    (hJ : C.J { h with futures := fs, retrieved := r, copies := k }) :
    Inv C X { h with futures := fs, retrieved := r, copies := k } := by
  have hq := Quiet.setFutures h fs hr k
  obtain ⟨-, hco, hca, hch⟩ := hi.core
  refine hi.quiet ⟨hg, ?_, ?_, ?_⟩ hq hJ
  · exact hco.of_eq (Nat.le_refl _) rfl rfl rfl rfl
  · exact hca.quiet hq fun _ _ hn => hn
  · exact hch.of_eq rfl rfl (Nat.le_refl _)

/-! ## Promises -/

/-- The promises change, but none that is in use, and none gets a shared state that no promise
had before. -/
lemma Quiet.setPromises (h : Heap V) (ps : Table PromiseLoc PromiseObj)
    (hsub : ∀ p o n, ps p = some o → o.delegate = some n →
      ∃ q o', h.promises q = some o' ∧ o'.delegate = some n)
    (hholds : ∀ p n, h.InUse p → h.promises p = some ⟨some n, some n⟩ →
      ps p = some ⟨some n, some n⟩) : Quiet h { h with promises := ps } where
  held := rfl
  fulfilling := rfl
  next := Nat.le_refl _
  history := List.suffix_refl _
  minor _ he := Or.inl he
  shared _ _ hs := hs
  dead n _ hd p o hp ho := by
    obtain ⟨q, o', hq, ho'⟩ := hsub p o n hp ho
    exact hd q o' hq ho'
  holds := hholds
  cont _ := Or.inl rfl
  retrieved _ hr := hr

/-- Only promises change, and none that is in use. -/
lemma Inv.setPromises (hi : Inv C X h) {ps : Table PromiseLoc PromiseObj}
    (hg : Graph { h with promises := ps }) (hco : Conts { h with promises := ps })
    (hsub : ∀ p o n, ps p = some o → o.delegate = some n →
      ∃ q o', h.promises q = some o' ∧ o'.delegate = some n)
    (hholds : ∀ p n, h.InUse p → h.promises p = some ⟨some n, some n⟩ →
      ps p = some ⟨some n, some n⟩)
    (hJ : C.J { h with promises := ps }) : Inv C X { h with promises := ps } := by
  have hq := Quiet.setPromises h ps hsub hholds
  obtain ⟨-, -, hca, hch⟩ := hi.core
  refine hi.quiet ⟨hg, hco, ?_, ?_⟩ hq hJ
  · exact hca.quiet hq fun _ _ hn => hn
  · exact hch.of_eq rfl rfl (Nat.le_refl _)

/-! ## Destruction -/

/-- Besides promises only `State`s and pending results disappear. -/
structure Shrinks (h h' : Heap V) : Prop extends Quiet h h' where
  futures : h'.futures = h.futures
  view : h'.view = h.view
  keeps : ∀ m, h.Spent m → h'.Spent m

namespace Shrinks

lemma refl (h : Heap V) : Shrinks h h := ⟨Quiet.refl h, rfl, rfl, fun _ hm => hm⟩

lemma trans (h₁ : Shrinks h h') (h₂ : Shrinks h' h'') : Shrinks h h'' :=
  ⟨h₁.toQuiet.trans h₂.toQuiet, h₂.futures.trans h₁.futures, h₂.view.trans h₁.view,
    fun m hm => h₂.keeps m (h₁.keeps m hm)⟩

end Shrinks

/-- The `State` `n` may abandon the continuation that has captured `p`. -/
structure Abandonable (h : Heap V) (n : ℕ) (p : PromiseLoc) : Prop where
  unstarted : ¬ h.Started p
  only : ∀ s c, (h.states s).continuation = some c → c.promise = p → s = n
  lt : ∀ m, p.node = some m → m < h.next
  outer : ∀ m, p = .outer m → h.Returned m

lemma Abandonable.quiet {n : ℕ} {p : PromiseLoc} (ha : Abandonable h n p) (hq : Quiet h h') :
    Abandonable h' n p where
  unstarted := (hq.started_iff p).not.mpr ha.unstarted
  only s c hs hp := by
    rcases hq.cont s with hc | ⟨hc, -, -⟩
    · exact ha.only s c (hc.symm.trans hs) hp
    · rw [hc] at hs
      cases hs
  lt m hm := Nat.lt_of_lt_of_le (ha.lt m hm) hq.next
  outer m hm := (hq.returned_iff m).mpr (ha.outer m hm)

/-- What a promise whose shared state is not ready leaves pending has not been invoked. -/
lemma Core.abandonable (hc : Core h) {q p : PromiseLoc} {o : PromiseObj} {n : ℕ}
    (hq : h.promises q = some o) (hn : o.delegate = some n) (hs : h.shared n = none)
    (hp : h.pending o = some p) : Abandonable h n p := by
  rw [Heap.pending, hc.graph.promise_extra q o n hq hn, Option.bind_some,
    Option.map_eq_some_iff] at hp
  obtain ⟨c, hcont, rfl⟩ := hp
  constructor
  · exact hc.conts.waiting n c hcont hs
  · exact fun s c' hs' hp' => hc.conts.inj s n c' c hs' hcont hp'
  · intro m hm
    rw [Cont.node_promise, Option.some.injEq] at hm
    exact hm ▸ hc.conts.lt n c hcont
  · intro m hm
    cases c with
    | link => cases hm
    | relay k =>
      cases hm
      exact ⟨_, hc.conts.relay n m hcont⟩

/-- The shared state of a promise that is no more is abandoned. -/
lemma Inv.breakPromise (hi : Inv C X h) {d : Option ℕ} {c : Option PromiseLoc}
    (hd : ∀ n, d = some n → h.Dead n ∧ n < h.next)
    (hc : ∀ n p, d = some n → h.shared n = none → c = some p → Abandonable h n p) :
    Inv C X (h.breakPromise d c) ∧ Shrinks h (h.breakPromise d c) := by
  unfold Heap.breakPromise
  split
  · exact ⟨hi, Shrinks.refl h⟩
  next n =>
  split
  swap
  · exact ⟨hi, Shrinks.refl h⟩
  next hn =>
  obtain ⟨hdead, hlt⟩ := hd n rfl
  have hshared : ∀ k, ((h.setShared n .broken).note (.abandoned n c)).shared k =
      if k = n then some .broken else h.shared k := fun k => Function.update_apply _ _ _ _
  have hq : Quiet h ((h.setShared n .broken).note (.abandoned n c)) := by
    refine ⟨rfl, rfl, Nat.le_refl _, List.suffix_cons _ _, ?_, ?_, fun _ _ hd => hd,
      fun _ _ _ hp => hp, fun _ => Or.inl rfl, fun _ hr => hr⟩
    · exact (Quiet.note h (e := .abandoned n c) trivial).minor
    · intro k st hk
      rw [hshared, if_neg]
      · exact hk
      · rintro rfl
        rw [hn] at hk
        cases hk
  have hview : ((h.setShared n .broken).note (.abandoned n c)).view = h.view := by
    simp [Heap.view, Heap.setShared, Event.Visible]
  obtain ⟨hg, hco, hca, hch⟩ := hi.core
  refine ⟨hi.quiet ⟨?_, ?_, ?_, ?_⟩ hq (C.quiet h _ hview hi.client), hq, rfl, hview,
    fun m hm => hq.spent hm rfl⟩
  · exact (hg.setShared hlt _).of_eq rfl rfl rfl rfl rfl rfl
  · -- no stored continuation has the abandoned shared state as its successor
    refine (hco.setShared _ ?_).note_abandoned ?_
    · rintro s c' hs hst rfl
      exact hdead _ _ (hco.holds s c' hs hst).1 rfl
    · intro p hp
      have ha := hc n p rfl hn hp
      exact ⟨ha.unstarted, ha.only⟩
  · refine hca.quiet hq ?_
    intro m hm hnone
    rw [hshared, if_neg]
    · exact hnone
    · rintro rfl
      exact hdead _ _ (hca.running m hm).1 rfl
  · refine hch.settle hn rfl ?_ ?_
    · cases c with
      | none => trivial
      | some p =>
        have ha := hc n p rfl hn rfl
        exact ⟨ha.lt, fun m hm => (ha.outer m hm).mono (h.subset_note _)⟩
    · intro x hx
      cases hx
      exact Or.inl (by simp [Exn.IsStd])

/-- A promise is destroyed that is not in use and that no continuation waits for; `g` releases
its `State`. -/
lemma Inv.dropPromise (hi : Inv C X h) {p : PromiseLoc} {o : PromiseObj}
    (ho : h.promises p = some o) (hu : ¬ h.InUse p)
    (hc : ∀ s c, (h.states s).continuation = some c → ¬ h.Started c.promise → c.promise ≠ p)
    (hJ : C.J { h with promises := h.promises.erase p }) {g : Heap V → Heap V}
    (hg : ∀ h, Inv C X h → Inv C X (g h) ∧ Shrinks h (g h)) :
    Inv C X ((g { h with promises := h.promises.erase p }).breakPromise o.delegate
        (h.pending o)) ∧
      Shrinks { h with promises := h.promises.erase p }
        ((g { h with promises := h.promises.erase p }).breakPromise o.delegate
          (h.pending o)) ∧
      Quiet h { h with promises := h.promises.erase p } := by
  have hsub : ∀ q o' n, h.promises.erase p q = some o' → o'.delegate = some n →
      ∃ r o'', h.promises r = some o'' ∧ o''.delegate = some n := by
    intro q o' n hq hn
    rw [Table.erase_apply] at hq
    split at hq
    · cases hq
    · exact ⟨q, o', hq, hn⟩
  have hholds : ∀ q n, h.InUse q → h.promises q = some ⟨some n, some n⟩ →
      h.promises.erase p q = some ⟨some n, some n⟩ := by
    intro q n hq hqn
    rw [Table.erase_apply, if_neg]
    · exact hqn
    · rintro rfl
      exact hu hq
  have hi₁ : Inv C X { h with promises := h.promises.erase p } :=
    hi.setPromises (hi.core.graph.erasePromise p) (hi.core.conts.erasePromise hc) hsub hholds hJ
  have hq₁ := Quiet.setPromises h _ hsub hholds
  obtain ⟨hi₂, hs₂⟩ := hg _ hi₁
  have hq₂ := hq₁.trans hs₂.toQuiet
  -- the destroyed promise was the only one with its shared state
  have hdead : ∀ n, o.delegate = some n →
      ({ h with promises := h.promises.erase p } : Heap V).Dead n := by
    intro n hn q o' hq hn'
    simp only [Table.erase_apply] at hq
    split at hq
    · cases hq
    · next hqp => exact hqp (hi.core.graph.promise_inj q p o' o n hq ho hn' hn)
  obtain ⟨hi₃, hs₃⟩ := hi₂.breakPromise (d := o.delegate) (c := h.pending o) (by
    intro n hn
    have hlt := hi.core.graph.promise_lt p o n ho hn
    exact ⟨hs₂.dead n hlt (hdead n hn), Nat.lt_of_lt_of_le hlt hs₂.next⟩) (by
    intro n q hn hnone hq
    refine (hi.core.abandonable ho hn ?_ hq).quiet hq₂
    rcases hs : h.shared n with _ | st
    · rfl
    · rw [hq₂.shared n st hs] at hnone
      cases hnone)
  exact ⟨hi₃, hs₂.trans hs₃, hq₁⟩

/-- A `State` that nobody shares disappears. -/
lemma Inv.clearState (hi : Inv C X h) {s : ℕ} (hs : ¬ h.Owned s) :
    Inv C X (h.setState s ⟨none, none⟩) ∧ Shrinks h (h.setState s ⟨none, none⟩) := by
  have hcont : ∀ t, ((h.setState s ⟨none, none⟩).states t).continuation =
      if t = s then none else (h.states t).continuation := by
    intro t
    show (Function.update h.states s ⟨none, none⟩ t).continuation = _
    rw [Function.update_apply]
    split <;> rfl
  have hdead : h.Dead s := by
    intro p o hp ho
    exact hs (Or.inl ⟨p, o, hp, hi.core.graph.promise_extra p o s hp ho⟩)
  have hq : Quiet h (h.setState s ⟨none, none⟩) := by
    refine ⟨rfl, rfl, Nat.le_refl _, List.suffix_refl _, fun _ he => Or.inl he, fun _ _ hs => hs,
      fun _ _ hd => hd, fun _ _ _ hp => hp, ?_, fun _ hr => hr⟩
    intro t
    rw [hcont]
    split
    · next hts =>
      subst hts
      rcases hc : (h.states t).continuation with _ | c
      · exact Or.inl rfl
      · refine Or.inr ⟨rfl, hdead, ?_⟩
        by_contra hlt
        have hfresh := (hi.core.graph.fresh t (Nat.le_of_not_lt hlt)).2.2.1
        rw [hc] at hfresh
        cases hfresh
    · exact Or.inl rfl
  obtain ⟨hg, hco, hca, hch⟩ := hi.core
  refine ⟨hi.quiet ⟨?_, ?_, ?_, ?_⟩ hq (C.quiet h _ rfl hi.client), hq, rfl, rfl,
    fun m hm => hq.spent hm rfl⟩
  · exact hg.clearState s
  · exact hco.clearState s
  · exact hca.quiet hq fun _ _ hn => hn
  · exact hch.of_eq rfl rfl (Nat.le_refl _)

lemma not_inUse_of_not_owned (hc : Core h) {s : ℕ} {c : Cont V} (hs : ¬ h.Owned s)
    (hcont : (h.states s).continuation = some c) : ¬ h.InUse c.promise := by
  intro hu
  obtain ⟨p, -, hp⟩ := hc.calls.guard s c hcont hu
  exact hs (Or.inl ⟨p, _, hp, rfl⟩)

/-- However many `State`s disappear one after the other, the invariant is kept. -/
lemma Inv.releaseState (hi : Inv C X h) (k s : ℕ) :
    Inv C X (Heap.releaseState k s h) ∧ Shrinks h (Heap.releaseState k s h) := by
  induction k generalizing s h with
  | zero => exact ⟨hi, Shrinks.refl h⟩
  | succ k ih =>
    rw [Heap.releaseState]
    split
    · exact ⟨hi, Shrinks.refl h⟩
    next hs =>
    obtain ⟨hi₁, hs₁⟩ := hi.clearState hs
    dsimp only
    split
    · exact ⟨hi₁, hs₁⟩
    next p o hpo =>
    obtain ⟨c, hc, hpo⟩ := Option.bind_eq_some_iff.mp hpo
    obtain ⟨o', ho, heq⟩ := Option.map_eq_some_iff.mp hpo
    obtain ⟨rfl, rfl⟩ := Prod.mk.inj heq
    -- no other `State` has the continuation that goes
    have hother : ∀ t c', ((h.setState s ⟨none, none⟩).states t).continuation = some c' →
        ¬ (h.setState s ⟨none, none⟩).Started c'.promise → c'.promise ≠ c.promise := by
      intro t c' hc' _ heq
      by_cases hts : t = s
      · subst hts
        simp [Heap.setState] at hc'
      · simp only [Heap.setState, Function.update_of_ne hts] at hc'
        exact hts (hi.core.conts.inj t s c' c hc' hc heq)
    have hcapt : ∀ q : ℕ, c.promise ≠ .named q := by
      intro q
      cases c <;> simp [Cont.promise]
    have hview : ({ h.setState s ⟨none, none⟩ with
        promises := h.promises.erase c.promise } : Heap V).view = h.view := by
      simp [Heap.view, Heap.setState, (hcapt _).symm]
    have hdrop : ∀ g : Heap V → Heap V, (∀ h, Inv C X h → Inv C X (g h) ∧ Shrinks h (g h)) →
        Inv C X ((g { h.setState s ⟨none, none⟩ with
          promises := h.promises.erase c.promise }).breakPromise o'.delegate
            ((h.setState s ⟨none, none⟩).pending o')) ∧
        Shrinks h ((g { h.setState s ⟨none, none⟩ with
          promises := h.promises.erase c.promise }).breakPromise o'.delegate
            ((h.setState s ⟨none, none⟩).pending o')) := by
      intro g hg
      obtain ⟨hi₂, hs₂, hq₂⟩ := hi₁.dropPromise ho (not_inUse_of_not_owned hi.core hs hc) hother
        (C.quiet h _ hview hi.client) hg
      refine ⟨hi₂, (hs₁.toQuiet.trans hq₂).trans hs₂.toQuiet, hs₂.futures,
        hs₂.view.trans hview, fun m hm => hs₂.keeps m (hq₂.spent (hs₁.keeps m hm) ?_)⟩
      -- the promise of a continuation in progress keeps its `State`
      have hne : c.promise ≠ .succ m := by
        intro heq
        obtain ⟨q, -, hq⟩ := hm.2.2 s c hc heq
        exact hs (Or.inl ⟨q, _, hq, rfl⟩)
      show h.promises.erase c.promise (.succ m) = _
      rw [Table.erase_apply, if_neg hne.symm]
      rfl
    split
    · exact hdrop id fun h hi => ⟨hi, Shrinks.refl h⟩
    · exact hdrop (Heap.releaseState k _) fun h hi => ih hi _

lemma Inv.release (hi : Inv C X h) (e : Option ℕ) :
    Inv C X (h.release e) ∧ Shrinks h (h.release e) := by
  cases e with
  | none => exact ⟨hi, Shrinks.refl h⟩
  | some s => exact hi.releaseState _ s

/-- `~Future` -/
lemma Inv.destroyFuture (hi : Inv C X h) (f : FutureLoc)
    (hJ : C.J { h with futures := h.futures.erase f }) :
    Inv C X (h.destroyFuture f) ∧ Quiet h (h.destroyFuture f) ∧
      (∀ g, (h.destroyFuture f).futures g = if g = f then none else h.futures g) ∧
      (h.destroyFuture f).view = ({ h with futures := h.futures.erase f } : Heap V).view ∧
      ∀ m, h.Spent m → (h.destroyFuture f).Spent m := by
  unfold Heap.destroyFuture
  split
  · next hf =>
    refine ⟨hi, Quiet.refl h, ?_, ?_, fun _ hm => hm⟩
    · intro g
      split
      · next hg => exact hg ▸ hf
      · rfl
    · simp only [Heap.view, Table.erase_apply, View.mk.injEq, true_and, and_true]
      funext k
      split
      · next hk => exact hk ▸ hf
      · rfl
  · next o _ =>
    have hi₁ := hi.setFutures (r := h.retrieved) (k := h.copies) (fun _ hr => hr)
      ((hi.core.graph.eraseFuture f).of_eq rfl rfl rfl rfl rfl rfl) hJ
    obtain ⟨hi₂, hs₂⟩ := hi₁.release o.extra
    refine ⟨hi₂, (Quiet.setFutures h _ (fun _ hr => hr) _).trans hs₂.toQuiet, ?_, hs₂.view, ?_⟩
    swap
    · exact fun m hm => hs₂.keeps m ((Quiet.setFutures h _ (fun _ hr => hr) _).spent hm rfl)
    intro g
    show (Heap.release _ _).futures g = _
    rw [hs₂.futures, Table.erase_apply]

/-- `~Promise` for a promise that is not in use and that no continuation waits for. -/
lemma Inv.destroyPromise (hi : Inv C X h) {p : PromiseLoc} (hu : ¬ h.InUse p)
    (hc : ∀ s c, (h.states s).continuation = some c → ¬ h.Started c.promise → c.promise ≠ p)
    (hJ : C.J { h with promises := h.promises.erase p }) :
    Inv C X (h.destroyPromise p) ∧ Quiet h (h.destroyPromise p) ∧
      (h.destroyPromise p).futures = h.futures ∧
      (h.destroyPromise p).view = ({ h with promises := h.promises.erase p } : Heap V).view ∧
      ∀ m, p ≠ .succ m → h.Spent m → (h.destroyPromise p).Spent m := by
  unfold Heap.destroyPromise
  split
  · next hp =>
    refine ⟨hi, Quiet.refl h, rfl, ?_, fun _ _ hm => hm⟩
    simp only [Heap.view, Table.erase_apply, View.mk.injEq, and_true]
    funext k
    split
    · next hk => exact hk ▸ hp
    · rfl
  · next o ho =>
    obtain ⟨hi₁, hs₁, hq₁⟩ := hi.dropPromise ho hu hc hJ fun h hi => hi.release o.extra
    refine ⟨hi₁, hq₁.trans hs₁.toQuiet, hs₁.futures, hs₁.view, fun m hne hm => ?_⟩
    refine hs₁.keeps m (hq₁.spent hm ?_)
    show h.promises.erase p (.succ m) = _
    rw [Table.erase_apply, if_neg hne.symm]

end AraCore.Future
