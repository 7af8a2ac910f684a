/-
# The special members keep the invariant

Construction, moves, move assignment and swap of the promises and futures of a program, which
run no code of the user but may abandon a promise or release a `State`.
-/
import AraCore.Future.Then

namespace AraCore.Future

open Lib Comp

variable {V : Type} {h h' h₀ : Heap V} {C : Client V} {X : Option PromiseLoc}

/-! ## Mutexes do not matter -/

/-- The memory with other locked mutexes. -/
def Heap.withHeld (h : Heap V) (mxs : List Mutex) : Heap V := { h with held := mxs }

lemma Heap.breakPromise_withHeld (h : Heap V) (d : Option ℕ) (c : Option PromiseLoc)
    (mxs : List Mutex) :
    (h.withHeld mxs).breakPromise d c = (h.breakPromise d c).withHeld mxs := by
  cases d with
  | none => rfl
  | some n =>
    have hsame : (h.withHeld mxs).shared n = h.shared n := rfl
    simp only [Heap.breakPromise, hsame]
    cases h.shared n <;> rfl

lemma Heap.releaseState_withHeld (k s : ℕ) (h : Heap V) (mxs : List Mutex) :
    releaseState k s (h.withHeld mxs) = (releaseState k s h).withHeld mxs := by
  induction k generalizing s h with
  | zero => rfl
  | succ k ih =>
    rw [releaseState, releaseState]
    by_cases ho : h.Owned s
    · rw [if_pos ho, if_pos (show (h.withHeld mxs).Owned s from ho)]
    · rw [if_neg ho, if_neg (show ¬ (h.withHeld mxs).Owned s from ho)]
      dsimp only
      rcases hx : ((h.states s).continuation.bind fun c =>
        ((h.setState s ⟨none, none⟩).promises c.promise).map fun o => (c.promise, o)) with
        _ | ⟨p, o⟩
      · have hx' : (((h.withHeld mxs).states s).continuation.bind fun c =>
          (((h.withHeld mxs).setState s ⟨none, none⟩).promises c.promise).map
            fun o => (c.promise, o)) = none := hx
        rw [hx']
        rfl
      · have hx' : (((h.withHeld mxs).states s).continuation.bind fun c =>
          (((h.withHeld mxs).setState s ⟨none, none⟩).promises c.promise).map
            fun o => (c.promise, o)) = some (p, o) := hx
        rw [hx']
        dsimp only
        rcases o.extra with _ | s'
        · exact Heap.breakPromise_withHeld { h.setState s ⟨none, none⟩ with
            promises := h.promises.erase p } _ _ mxs
        · change (releaseState k s' (({ h.setState s ⟨none, none⟩ with
            promises := h.promises.erase p } : Heap V).withHeld mxs)).breakPromise _ _ = _
          rw [ih, Heap.breakPromise_withHeld]
          rfl

lemma Heap.release_withHeld (h : Heap V) (e : Option ℕ) (mxs : List Mutex) :
    (h.withHeld mxs).release e = (h.release e).withHeld mxs := by
  cases e with
  | none => rfl
  | some s => exact Heap.releaseState_withHeld h.next s h mxs

/-! ## Promises -/

lemma PromiseLoc.named_not_inUse {k : ℕ} (hk : ¬ h.Busy (.named k)) : ¬ h.InUse (.named k) := by
  rintro (hb | ⟨m, hm, -⟩)
  · exact hk hb
  · cases hm

/-- Only variables among the promises change, and none that is being fulfilled. -/
lemma Inv.setNamed (hi : Inv C X h) {t : Table PromiseLoc PromiseObj}
    (hg : Graph { h with promises := t }) (hco : Conts { h with promises := t })
    (hsub : ∀ p o n, t p = some o → o.delegate = some n →
      ∃ q o', h.promises q = some o' ∧ o'.delegate = some n)
    (hsame : ∀ p, (∀ k, p = .named k → h.Busy p) → t p = h.promises p)
    (hJ : C.J { h with promises := t }) :
    Inv C X { h with promises := t } ∧ Ext h { h with promises := t } ∧
      Quiet h { h with promises := t } := by
  have hholds : ∀ p n, h.InUse p → h.promises p = some ⟨some n, some n⟩ →
      t p = some ⟨some n, some n⟩ := by
    intro p n hu hp
    rw [hsame]
    · exact hp
    · rintro k rfl
      by_contra hb
      exact PromiseLoc.named_not_inUse hb hu
  have hq := Quiet.setPromises h t hsub hholds
  refine ⟨hi.setPromises hg hco hsub hholds hJ, hq.ext (fun _ _ => rfl) ?_, hq⟩
  exact fun m hm => hq.spent hm (hsame _ (by simp))

/-- `Promise()` -/
lemma Inv.newPromise (hi : Inv C X h) {k : ℕ} (hk : h.promises (.named k) = none)
    (hJ : C.J (h.newPromise (.named k))) :
    Inv C X (h.newPromise (.named k)) ∧ Ext h (h.newPromise (.named k)) := by
  have hprom : ∀ p, (h.newPromise (.named k)).promises p =
      if p = .named k then some ⟨some h.next, some h.next⟩ else h.promises p :=
    fun p => Table.set_apply _ _ _ _
  have hq : Quiet h (h.newPromise (.named k)) := by
    refine ⟨rfl, rfl, Nat.le_succ _, List.suffix_refl _, fun _ he => Or.inl he, fun _ _ hs => hs,
      ?_, ?_, fun _ => Or.inl rfl, fun _ hr => hr⟩
    · intro n hn hd p o hp
      rw [hprom] at hp
      split at hp
      · cases hp
        simpa using Nat.ne_of_gt hn
      · exact hd p o hp
    · intro p n _ hp
      rw [Heap.Holds, hprom, if_neg]
      · exact hp
      · rintro rfl
        rw [Heap.Holds, hk] at hp
        cases hp
  obtain ⟨hg, hco, hca, hch⟩ := hi.core
  refine ⟨hi.quiet ⟨?_, ?_, ?_, ?_⟩ hq hJ, hq.ext (fun _ _ => rfl) ?_⟩
  · exact hg.newPromise (by simp [PromiseLoc.node])
  · exact hco.newPromise (fun s c _ => c.promise_ne_named k) (by simp)
  · exact hca.quiet hq fun _ _ hn => hn
  · exact hch.of_eq rfl rfl (Nat.le_succ _)
  · exact fun m hm => hq.spent hm (by rw [hprom, if_neg (by simp)])

/-- `Promise(Promise &&)` -/
lemma Inv.movePromise (hi : Inv C X h) {i j : ℕ} {o : PromiseObj}
    (ho : h.promises (.named i) = some o) (hbi : ¬ h.Busy (.named i))
    (hj : h.promises (.named j) = none)
    (hJ : C.J (h.movePromise (.named i) (.named j) o)) :
    Inv C X (h.movePromise (.named i) (.named j) o) ∧
      Ext h (h.movePromise (.named i) (.named j) o) := by
  have hprom : ∀ p, (h.movePromise (.named i) (.named j) o).promises p =
      if p = .named j then some o
      else if p = .named i then some ⟨none, none⟩ else h.promises p := by
    intro p
    simp only [Heap.movePromise, Heap.setPromise, Table.set_apply]
  have hbusy : ¬ h.Busy (.named j) := by
    intro hb
    obtain ⟨n, hn, -⟩ := hi.core.calls.busy _ hb
    rw [Heap.Holds, hj] at hn
    cases hn
  have hsub : ∀ p o' n, (h.movePromise (.named i) (.named j) o).promises p = some o' →
      o'.delegate = some n → ∃ q o', h.promises q = some o' ∧ o'.delegate = some n := by
    intro p o' n hp hn
    rw [hprom] at hp
    split at hp
    · cases hp
      exact ⟨_, _, ho, hn⟩
    · split at hp
      · cases hp
        cases hn
      · exact ⟨p, o', hp, hn⟩
  have hsame : ∀ p, (∀ k, p = .named k → h.Busy p) →
      (h.movePromise (.named i) (.named j) o).promises p = h.promises p := by
    intro p hp
    rw [hprom, if_neg, if_neg]
    · rintro rfl
      exact hbi (hp _ rfl)
    · rintro rfl
      exact hbusy (hp _ rfl)
  obtain ⟨hi', he', -⟩ := hi.setNamed (hi.core.graph.movePromise ho (by simp [PromiseLoc.node]))
    (hi.core.conts.movePromise hj (fun s c _ _ => c.promise_ne_named i) (by simp) (by simp))
    hsub hsame hJ
  exact ⟨hi', he'⟩

/-- `Promise::swap` -/
lemma Inv.swapPromise (hi : Inv C X h) {i j : ℕ} {o o' : PromiseObj}
    (ho : h.promises (.named i) = some o) (ho' : h.promises (.named j) = some o')
    (hk : ¬ h.Busy (.named i)) (hk' : ¬ h.Busy (.named j))
    (hJ : C.J (h.swapPromise (.named i) (.named j) o o')) :
    Inv C X (h.swapPromise (.named i) (.named j) o o') ∧
      Ext h (h.swapPromise (.named i) (.named j) o o') := by
  have hprom : ∀ p, (h.swapPromise (.named i) (.named j) o o').promises p =
      if p = .named j then some o else if p = .named i then some o' else h.promises p := by
    intro p
    simp only [Heap.swapPromise, Heap.setPromise, Table.set_apply]
  have hsub : ∀ p o'' n, (h.swapPromise (.named i) (.named j) o o').promises p = some o'' →
      o''.delegate = some n → ∃ q o', h.promises q = some o' ∧ o'.delegate = some n := by
    intro p o'' n hp hn
    rw [hprom] at hp
    split at hp
    · cases hp
      exact ⟨_, _, ho, hn⟩
    · split at hp
      · cases hp
        exact ⟨_, _, ho', hn⟩
      · exact ⟨p, o'', hp, hn⟩
  have hsame : ∀ p, (∀ k, p = .named k → h.Busy p) →
      (h.swapPromise (.named i) (.named j) o o').promises p = h.promises p := by
    intro p hp
    rw [hprom, if_neg, if_neg]
    · rintro rfl
      exact hk (hp _ rfl)
    · rintro rfl
      exact hk' (hp _ rfl)
  obtain ⟨hi', he', -⟩ := hi.setNamed (hi.core.graph.swapPromise ho ho')
    ((hi.core.conts.setPromise o').setPromise o) hsub hsame hJ
  exact ⟨hi', he'⟩

lemma Shrinks.ext (hs : Shrinks h h') : Ext h h' :=
  hs.toQuiet.ext (fun _ _ => by rw [hs.futures]) hs.keeps

lemma Heap.pending_withHeld (h : Heap V) (d : PromiseObj) (mxs : List Mutex) :
    (h.withHeld mxs).pending d = h.pending d := rfl

/-- The two members of a promise can be assigned before what the promise had goes away. -/
lemma Heap.assignPromise_eq (h : Heap V) (p q : PromiseLoc) (d o : PromiseObj) :
    ∃ ps : Table PromiseLoc PromiseObj,
      (∀ r, ps r = if r = q then some ⟨none, none⟩ else if r = p then some o
        else h.promises r) ∧
      h.assignPromise p q d o =
        (({ h with promises := ps } : Heap V).breakPromise d.delegate (h.pending d)).release
          d.extra := by
  refine ⟨(((h.promises.set p ⟨o.delegate, d.extra⟩).set q ⟨none, o.extra⟩).set p o).set q
    ⟨none, none⟩, ?_, ?_⟩
  · intro r
    simp only [Table.set_apply]
    grind
  · rw [Heap.assignPromise]
    congr 1
    cases d.delegate with
    | none => rfl
    | some n =>
      have hset : ((h.setPromise p ⟨o.delegate, d.extra⟩).setPromise q ⟨none, o.extra⟩).shared n =
          h.shared n := rfl
      simp only [Heap.breakPromise]
      rw [hset]
      cases h.shared n <;> rfl

lemma Heap.assignPromise_withHeld (h : Heap V) (p q : PromiseLoc) (d o : PromiseObj)
    (mxs : List Mutex) :
    (h.withHeld mxs).assignPromise p q d o = (h.assignPromise p q d o).withHeld mxs := by
  simp only [Heap.assignPromise, Heap.pending_withHeld]
  rw [← Heap.release_withHeld]
  congr 1
  have hbreak := Heap.breakPromise_withHeld ((h.setPromise p ⟨o.delegate, d.extra⟩).setPromise q
    ⟨none, o.extra⟩) d.delegate (h.pending d) mxs
  exact congrArg (fun g => (g.setPromise p o).setPromise q ⟨none, none⟩) hbreak

/-- `Promise &operator=(Promise &&)` between two variables -/
lemma Inv.assignPromise (hi : Inv C X h) {i j : ℕ} {d o : PromiseObj} (hne : i ≠ j)
    (hd : h.promises (.named i) = some d) (ho : h.promises (.named j) = some o)
    (hbi : ¬ h.Busy (.named i)) (hbj : ¬ h.Busy (.named j))
    (hJ : C.J (h.movePromise (.named j) (.named i) o)) :
    Inv C X (h.assignPromise (.named i) (.named j) d o) ∧
      Ext h (h.assignPromise (.named i) (.named j) d o) ∧
      Quiet h (h.assignPromise (.named i) (.named j) d o) := by
  have hloc : PromiseLoc.named i ≠ .named j := by simpa using hne
  obtain ⟨ps, hps, heq⟩ := h.assignPromise_eq (.named i) (.named j) d o
  have hmove : ps.lookup = (h.movePromise (.named j) (.named i) o).promises.lookup := by
    funext p
    simp only [Heap.movePromise, Heap.setPromise, Table.set_apply, hps]
    grind
  have hsub : ∀ p o' n, ps p = some o' → o'.delegate = some n →
      ∃ q o', h.promises q = some o' ∧ o'.delegate = some n := by
    intro p o' n hp hn
    rw [hps] at hp
    split at hp
    · cases hp
      cases hn
    · split at hp
      · cases hp
        exact ⟨_, _, ho, hn⟩
      · exact ⟨p, o', hp, hn⟩
  have hsame : ∀ p, (∀ k, p = .named k → h.Busy p) → ps p = h.promises p := by
    intro p hp
    rw [hps, if_neg, if_neg]
    · rintro rfl
      exact hbi (hp _ rfl)
    · rintro rfl
      exact hbj (hp _ rfl)
  have hview : ({ h with promises := ps } : Heap V).view =
      (h.movePromise (.named j) (.named i) o).view := by
    simp only [Heap.view, hmove]
    rfl
  have hg := hi.core.graph.movePromise (b := .named i) ho (by simp [PromiseLoc.node])
  have hco : Conts (h.movePromise (.named j) (.named i) o) :=
    (hi.core.conts.setPromise ⟨none, none⟩).setPromise o
  obtain ⟨hi₁, he₁, hq₁⟩ := hi.setNamed (t := ps) (hg.of_eq rfl rfl rfl rfl hmove rfl)
    (hco.of_eq (Nat.le_refl _) rfl rfl hmove rfl) hsub hsame (C.quiet _ _ hview hJ)
  -- no promise has what was assigned to
  have hdead : ∀ n, d.delegate = some n → ({ h with promises := ps } : Heap V).Dead n := by
    intro n hn p o' hp hn'
    dsimp only at hp
    rw [hps] at hp
    split at hp
    · cases hp
      cases hn'
    · next hpq =>
      split at hp
      · cases hp
        exact hloc (hi.core.graph.promise_inj _ _ _ _ n hd ho hn hn')
      · next hpd => exact hpd (hi.core.graph.promise_inj _ _ _ _ n hp hd hn' hn)
  obtain ⟨hi₂, hs₂⟩ := hi₁.breakPromise (d := d.delegate) (c := h.pending d)
    (fun n hn => ⟨hdead n hn, hi.core.graph.promise_lt _ d n hd hn⟩)
    fun n p hn hun hp => (hi.core.abandonable hd hn hun hp).quiet hq₁
  obtain ⟨hi₃, hs₃⟩ := hi₂.release d.extra
  rw [heq]
  exact ⟨hi₃, he₁.trans (hs₂.trans hs₃).ext, hq₁.trans (hs₂.trans hs₃).toQuiet⟩

/-- `~Promise` of a variable -/
lemma Inv.destroyNamed (hi : Inv C X h) {k : ℕ} (hk : ¬ h.Busy (.named k))
    (hJ : C.J { h with promises := h.promises.erase (.named k) }) :
    Inv C X (h.destroyPromise (.named k)) ∧ Ext h (h.destroyPromise (.named k)) ∧
      Quiet h (h.destroyPromise (.named k)) := by
  obtain ⟨hi', hq, hfut, -, hkeep⟩ := hi.destroyPromise (PromiseLoc.named_not_inUse hk)
    (fun _ c _ _ => c.promise_ne_named k) hJ
  exact ⟨hi', hq.ext (fun _ _ => by rw [hfut]) fun m => hkeep m (by simp), hq⟩

/-! ## Futures -/

/-- Only futures change, and none that `then` is going to return. -/
lemma Inv.setHandles (hi : Inv C X h) {fs : Table FutureLoc FutureObj} {r : ℕ → Bool}
    (hr : ∀ n, h.retrieved n = true → r n = true)
    (hg : Graph { h with futures := fs, retrieved := r })
    (hfs : ∀ m, fs (.next m) = h.futures (.next m))
    (hJ : C.J { h with futures := fs, retrieved := r }) :
    Inv C X { h with futures := fs, retrieved := r } ∧
      Ext h { h with futures := fs, retrieved := r } :=
  ⟨hi.setFutures (k := h.copies) hr hg hJ, Ext.setFutures h hr fun m _ => hfs m⟩

/-- `Promise::get_future` -/
lemma Inv.retrieve (hi : Inv C X h) {p : PromiseLoc} {o : PromiseObj} {n : ℕ} (f : Handle)
    (ho : h.promises p = some o) (hn : o.delegate = some n) (hr : h.retrieved n = false)
    (hJ : C.J { h.setFuture (.handle f) ⟨some n, o.extra⟩ with
      retrieved := Function.update h.retrieved n true }) :
    Inv C X { h.setFuture (.handle f) ⟨some n, o.extra⟩ with
        retrieved := Function.update h.retrieved n true } ∧
      Ext h { h.setFuture (.handle f) ⟨some n, o.extra⟩ with
        retrieved := Function.update h.retrieved n true } := by
  refine hi.setHandles (fun k hk => ?_) (hi.core.graph.retrieve (.handle f) ho hn hr)
    (fun m => ?_) hJ
  · rw [Function.update_apply]
    split
    · rfl
    · exact hk
  · simp [Heap.setFuture]

/-- `Future &operator=(Future &&)` -/
lemma Inv.assignFuture (hi : Inv C X h) {dst src : Handle} {d o : FutureObj} (hne : dst ≠ src)
    (ho : h.futures (.handle src) = some o)
    (hJ : C.J ((h.setFuture (.handle dst) o).setFuture (.handle src) ⟨none, none⟩)) :
    Inv C X (h.assignFuture (.handle dst) (.handle src) d o) ∧
      Ext h (h.assignFuture (.handle dst) (.handle src) d o) := by
  have hloc : FutureLoc.handle dst ≠ .handle src := by simpa using hne
  have hmove : ((h.futures.set (.handle dst) o).set (.handle src) ⟨none, none⟩).lookup =
      (h.moveFuture (.handle src) (.handle dst) o).futures.lookup := by
    funext f
    simp only [Heap.moveFuture, Heap.setFuture, Table.set_apply]
    grind
  have hg : Graph ((h.setFuture (.handle dst) o).setFuture (.handle src) ⟨none, none⟩) :=
    (hi.core.graph.moveFuture (b := .handle dst) ho).of_eq rfl rfl rfl rfl rfl hmove
  obtain ⟨hi₁, he₁⟩ := hi.setHandles (fun _ hr => hr) hg
    (fun m => by simp [Heap.setFuture]) hJ
  obtain ⟨hi₂, hs₂⟩ := hi₁.release d.extra
  exact ⟨hi₂, he₁.trans hs₂.ext⟩

lemma Heap.assignFuture_withHeld (h : Heap V) (f g : FutureLoc) (d o : FutureObj)
    (mxs : List Mutex) :
    (h.withHeld mxs).assignFuture f g d o = (h.assignFuture f g d o).withHeld mxs :=
  Heap.release_withHeld ((h.setFuture f o).setFuture g ⟨none, none⟩) d.extra mxs

end AraCore.Future
