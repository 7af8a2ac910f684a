/-
# Fulfilling a promise

The specifications of `set_value`, `SetError` and `set_exception`: of a promise that can be
fulfilled, of one that refuses, and as the code of `then` uses them.
-/
import AraCore.Future.Spec

namespace AraCore.Future

open Lib Comp

variable {V α : Type} {h h' h₀ : Heap V} {C : Client V} {X : Option PromiseLoc} {fuel k : ℕ}
  {env : ℕ → Option Exn} {call : Cont V × FutureLoc → Code V Unit} {p : PromiseLoc} {n m : ℕ}
  {st : Stored V}

/-! ## Objects and locks -/

section Objects

variable {f : FutureLoc}

lemma wp_promise {o : PromiseObj} {Q : Post (Heap V) Exn Fault PromiseObj}
    (ho : h.promises p = some o) : wp (promise p) Q h ↔ Q.ok o h := by
  simp [promise, ho]

lemma wp_promise_none {Q : Post (Heap V) Exn Fault PromiseObj} (ho : h.promises p = none) :
    wp (promise p) Q h ↔ Q.stop .undefined h := by
  simp [promise, ho]

lemma wp_future {o : FutureObj} {Q : Post (Heap V) Exn Fault FutureObj}
    (ho : h.futures f = some o) : wp (future f) Q h ↔ Q.ok o h := by
  simp [future, ho]

lemma wp_future_none {Q : Post (Heap V) Exn Fault FutureObj} (ho : h.futures f = none) :
    wp (future f) Q h ↔ Q.stop .undefined h := by
  simp [future, ho]

lemma wp_lock {mx : Mutex} {Q : Post (Heap V) Exn Fault Unit} (hmx : mx ∉ h.held) :
    wp (lock mx) Q h ↔ Q.ok () (h.lock mx) := by
  simp [lock, hmx]

lemma wp_lock_held {mx : Mutex} {Q : Post (Heap V) Exn Fault Unit} (hmx : mx ∈ h.held) :
    wp (lock mx) Q h ↔ Q.stop (.deadlock mx) h := by
  simp [lock, hmx]

lemma wp_lockPromise {Q : Post (Heap V) Exn Fault Unit} (hp : ¬ h.Busy p) :
    wp (lockPromise p) Q h ↔ Q.ok () ((h.locking [p]).lock (.promise p)) := by
  simp only [lockPromise, wp_bind, wp_modify]
  exact wp_lock hp

lemma Heap.unlock_lock (h : Heap V) (mx : Mutex) : (h.lock mx).unlock mx = h := by
  simp [Heap.unlock, Heap.lock]

lemma Heap.leave_enter (h : Heap V) (p : PromiseLoc) :
    ((h.lock (.promise p)).enter p).leave p = h := by
  simp [Heap.leave, Heap.unlock, Heap.enter, Heap.lock]

lemma Inv.not_held_state (hi : Inv C X h) (s : ℕ) : .state s ∉ h.held := by
  rw [hi.held]
  simp

lemma Inv.not_held_future (hi : Inv C X h) (f : FutureLoc) : .future f ∉ h.held := by
  rw [hi.held]
  simp

lemma wp_constructFuture {src dst : FutureLoc} {o : FutureObj}
    {Q : Post (Heap V) Exn Fault Unit} (ho : h.futures src = some o)
    (hmx : .future src ∉ h.held) :
    wp (constructFuture src dst) Q h ↔ Q.ok () (h.moveFuture src dst o) := by
  simp only [constructFuture, wp_bind, wp_future ho, wp_lock hmx, wp_modify]
  have heq : ((h.lock (.future src)).moveFuture src dst o).unlock (.future src) =
      h.moveFuture src dst o := by
    simp [Heap.unlock, Heap.lock, Heap.moveFuture, Heap.setFuture]
  rw [heq]

lemma wp_constructPromise {src dst : PromiseLoc} {o : PromiseObj}
    {Q : Post (Heap V) Exn Fault Unit} (ho : h.promises src = some o) (hsrc : ¬ h.Busy src) :
    wp (constructPromise src dst) Q h ↔ Q.ok () ((h.locking [src]).movePromise src dst o) := by
  simp only [constructPromise, wp_bind, wp_promise ho, wp_lockPromise hsrc, wp_modify]
  have heq : (((h.locking [src]).lock (.promise src)).movePromise src dst o).unlock
      (.promise src) = (h.locking [src]).movePromise src dst o := by
    simp [Heap.unlock, Heap.lock, Heap.movePromise, Heap.setPromise]
  rw [heq]

end Objects

/-! ## Copies of values -/

section Copies

variable {Q : Post (Heap V) Exn Fault Unit}

lemma wp_copyValue (hok : Q.ok () { h with copies := h.copies + 1 })
    (hthrow : ∀ x, env h.copies = some x →
      Q.throw x ({ h with copies := h.copies + 1 }.note (.copyThrew p x))) :
    wp (copyValue env p) Q h := by
  simp only [copyValue, wp_bind, wp_get, wp_modify]
  split
  · exact hok
  · next x hx => exact hthrow x hx

/-- No copy of a value throws. -/
lemma copies_succeed {P : Prop} :
    ∀ (k : ℕ) (x : Exn), (fun _ => none : ℕ → Option Exn) k = some x → P := by
  simp

/-- How the argument of `delegate_promise_.set_value` or `set_exception` is copied. -/
inductive Copying (env : ℕ → Option Exn) : Code V Unit → Prop
  | moved : Copying env (pure ())
  | copied : Copying env (copyResult env)

lemma Copying.wp {copy : Code V Unit} (hc : Copying env copy)
    (hok : ∀ k, Q.ok () { h with copies := k })
    (hstop : ∀ k x, env h.copies = some x →
      Q.stop .terminate ({ h with copies := k }.note (.copyAborted x))) :
    Comp.wp copy Q h := by
  cases hc with
  | moved => exact hok h.copies
  | copied =>
    simp only [copyResult, wp_bind, wp_get, wp_modify]
    split
    · exact hok _
    · next x hx => exact hstop _ x hx

end Copies

/-! ## Fulfilment -/

lemma wp_setDelegate {o : PromiseObj} {copy : Code V Unit} {Q : Post (Heap V) Exn Fault Unit}
    (ho : h.promises p = some o) (hn : o.delegate = some n) (hun : h.shared n = none)
    (hcopy : Copying env copy)
    (hok : ∀ j, Q.ok () ((({ h with copies := j } : Heap V).setShared n st).note
      (.fulfilled n st)))
    (hstop : ∀ j x, env h.copies = some x →
      Q.stop .terminate (({ h with copies := j } : Heap V).note (.copyAborted x))) :
    wp (setDelegate p copy st) Q h := by
  simp only [setDelegate, wp_bind, wp_promise ho, hn, wp_get, hun, wp_modify]
  exact hcopy.wp hok hstop

lemma wp_setDelegate_refused {o : PromiseObj} {copy : Code V Unit}
    {Q : Post (Heap V) Exn Fault Unit} (ho : h.promises p = some o) (hr : h.Refuses o)
    (hQ : ∀ e, Q.throw (stdError e) h) : wp (setDelegate p copy st) Q h := by
  simp only [setDelegate, wp_bind, wp_promise ho]
  split
  · exact hQ _
  · next n hn =>
    obtain ⟨st', hst'⟩ := Option.isSome_iff_exists.mp (hr n hn)
    simp only [wp_bind, wp_get, hst']
    exact hQ _

/-- What waits in the `State` of a promise that has become ready is invoked. -/
lemma wp_fireContinuation (hcall : CallSpec C fuel k call) (hc : Core h) (hs : Settable h p n)
    (hi : Inv C ((h.states n).continuation.map Cont.promise) (h.settled p n st))
    (hfuel : fuel ≤ k + h.startedCount) :
    wp (fireContinuation call n) (after C fuel (h.settled p n st) (fun _ _ => True) Escapes)
      (h.settled p n st) := by
  simp only [fireContinuation, wp_bind, wp_get]
  have hsame : ((h.settled p n st).states n).continuation = (h.states n).continuation := rfl
  rw [hsame]
  rcases hcont : (h.states n).continuation with _ | c
  · rw [hcont] at hi
    exact ⟨hi, Ext.refl _, trivial⟩
  · rw [hcont] at hi
    have hcallable := Callable.of_settled hc hs hcont hi
    simp only [wp_bind, wp_modify, wp_cleanup]
    have htake := Ext.takeFuture (h.settled p n st) n c
    have harg : ∀ k, c.arg ≠ .handle (.named k) := by
      cases c <;> simp [Cont.arg]
    have hnext : ∀ m, c.arg ≠ .next m := by
      cases c <;> simp [Cont.arg]
    have hfuel' : fuel ≤ k + ((h.settled p n st).takeFuture n c.arg).startedCount := hfuel
    refine wp_mono (hcall c _ hcallable hfuel') ?_ ?_ fun _ _ hb => hb
    · rintro - h' ⟨hi', he, -⟩
      obtain ⟨hi'', he', -⟩ := hi'.dropFuture (htake.trans he) harg fun m _ => hnext m
      exact ⟨hi'', he', trivial⟩
    · rintro x h' ⟨hi', he, ⟨ht, hk⟩, -⟩
      obtain ⟨hi'', he', hq, -⟩ := hi'.dropFuture (htake.trans he) harg fun m _ => hnext m
      exact ⟨hi'', he', ht.mono hq.log, hk.mono hq.log⟩

lemma Settable.congr (hs : Settable h p n) (hprom : h'.promises = h.promises)
    (hshared : h'.shared = h.shared) (hstates : h'.states = h.states) (hheld : h'.held = h.held)
    (hlog : h.log ⊆ h'.log) (hrun : ∀ m, h'.Running m → h.Running m) : Settable h' p n where
  holds := by
    rw [Heap.Holds, hprom]
    exact hs.holds
  unready := by
    rw [hshared]
    exact hs.unready
  free s c hc hst := by
    rw [hstates] at hc
    exact hs.free s c hc fun hst' => hst (hlog hst')
  idle m hm hr := hs.idle m hm (hrun m hr)
  guard s c hc hcp := by
    rw [hstates] at hc
    obtain ⟨q, hq, hqs⟩ := hs.guard s c hc hcp
    refine ⟨q, ?_, ?_⟩
    · rw [Heap.Busy, hheld]
      exact hq
    · rw [Heap.Holds, hprom]
      exact hqs

/-- The promise of a successor is spent when it has been fulfilled. -/
lemma Settable.spent_leave (hs : Settable h (.succ m) n) (hc : Core h)
    (hst : h.Started (.succ m)) (he : Ext (h.settled (.succ m) n st) h') :
    (h'.leave (.succ m)).Spent m := by
  have hready : (h.settled (.succ m) n st).Refuses ⟨some n, some n⟩ := by
    rintro k ⟨⟩
    rw [Heap.settled_shared, if_pos rfl]
    rfl
  obtain ⟨hst', hp', hg'⟩ := he.spent m ⟨List.mem_cons_of_mem _ hst, ⟨_, hs.holds, hready⟩,
    fun s c hcont hcm => (hs.guard s c hcont hcm).imp fun q hq =>
      ⟨List.mem_cons_of_mem _ hq.1, hq.2⟩⟩
  exact ⟨hst', hp', Heap.guarded_of_settled hc hs.holds hs.unready he hs.guard hg'⟩

lemma Settles.mono (hs : Settles h n st) (hlog : h.log ⊆ h'.log)
    (hshared : ∀ n st, h.shared n = some st → h'.shared n = some st)
    (hret : ∀ w, .returned n w ∈ h'.log → .returned n w ∈ h.log) : Settles h' n st := by
  intro w hw
  rcases hs w (hret w hw) with ht | hw' | ⟨v, x, e, hv, hx, he⟩ |
    ⟨j, st', rfl, hj, hf⟩
  · exact Or.inl (ht.mono hlog)
  · exact Or.inr (Or.inl hw')
  · exact Or.inr (Or.inr (Or.inl ⟨v, x, e, hv, hlog hx, he⟩))
  · exact Or.inr (Or.inr (Or.inr ⟨j, st', rfl, hshared j st' hj, hf⟩))

/-- A promise that can be fulfilled is fulfilled, whatever the invoked continuation does. -/
theorem wp_makeReady (hcall : CallSpec C fuel k call)
    (henv : ∀ k x, env k = some x → C.copyThrows) (hi : Inv C X h)
    (hX : X = none ∨ X = some (.outer n)) (hs : Settable h p n)
    (hset : X = some (.outer n) → Settles h n st)
    (hx : ∀ x, st = .exception x → x.IsStd ∨ .raised x ∈ h.log) {copy : Code V Unit}
    (hcopy : Copying env copy) (hfuel : fuel ≤ k + h.startedCount) :
    wp (makeReady call p copy st) (after C fuel h
      (fun _ h' => h'.Holds p n ∧ .fulfilled n st ∈ h'.log)
      fun x h' => Escapes x h' ∧ .fulfilled n st ∈ h'.log ∧
        ∀ m, p = .succ m → h.Started p → h'.Spent m) h := by
  have hbusy := hi.core.not_busy hs.holds hs.unready
  have hi₁ := hi.note_lock hbusy
  have he₁ : Ext h (h.locking [p]) := .note h (by simp) (by simp)
  have hself : ∀ g : Heap V, (g.settled p n st).Busy p := fun g => List.mem_cons_self
  simp only [makeReady, wp_bind, wp_lockPromise hbusy, wp_modify, wp_cleanup]
  refine wp_setDelegate (h := h.entered p) hs.holds rfl hs.unready hcopy ?_ ?_
  · intro j
    -- the memory in which only the method and the copy have been noted
    have hi₂ := hi₁.copied j
    have he₂ := he₁.trans (Ext.copies _ j)
    generalize hg : ({ h.locking [p] with copies := j } : Heap V) = g at hi₂ he₂
    have hsg : Settable g p n := by
      subst hg
      refine hs.congr rfl rfl rfl rfl (h.subset_note _) fun m => ?_
      exact (Heap.running_note (by simp) (by simp)).mp
    have hsett : Settles g n st ∨ X = none := by
      rcases hX with hX | hX
      · exact Or.inr hX
      · refine Or.inl ?_
        subst hg
        exact (hset hX).mono he₂.log he₂.shared fun w => (Heap.mem_note (by simp)).mp
    have hi₃ := hi₂.settled hX hsg (fun h => hsett.resolve_right (by rw [h]; simp))
      fun x hxs => (hx x hxs).imp_right fun hr => he₂.log hr
    have heq : (({ h.entered p with copies := j } : Heap V).setShared n st).note
        (.fulfilled n st) = g.settled p n st := by
      subst hg
      rfl
    rw [heq]
    refine (wp_promise (h := g.settled p n st) hsg.holds).mpr ?_
    refine wp_mono (wp_fireContinuation hcall hi₂.core hsg hi₃
      (Nat.le_trans hfuel (Nat.add_le_add_left he₂.startedCount k))) ?_ ?_ fun _ _ hb => hb
    · rintro - h' ⟨hi', he, -⟩
      refine ⟨hi'.leave_settled hi₂.core hsg he,
        he₂.trans (.of_settled hi₂.core hsg.holds hsg.unready he), ?_, ?_⟩
      · exact he.holds p n (hself g) hsg.holds
      · exact he.log List.mem_cons_self
    · rintro x h' ⟨hi', he, hesc⟩
      refine ⟨hi'.leave_settled hi₂.core hsg he,
        he₂.trans (.of_settled hi₂.core hsg.holds hsg.unready he), hesc, ?_, ?_⟩
      · exact he.log List.mem_cons_self
      rintro m rfl hst
      exact hsg.spent_leave hi₂.core (he₂.log hst) he
  · intro j x hjx
    have hch : Chronicle ({ h.entered p with copies := j } : Heap V) :=
      hi₁.core.chronicle.of_eq rfl rfl (Nat.le_refl _)
    have hch' := hch.note (e := .copyAborted x) trivial fun k hk => by cases hk
    exact hch'.blame_terminate (Or.inl ⟨henv _ x hjx, x, List.mem_cons_self⟩)

/-- A promise that refuses throws, and only its method is noted. -/
lemma wp_makeReady_refused {o : PromiseObj} {copy : Code V Unit}
    {Q : Post (Heap V) Exn Fault Unit} (ho : h.promises p = some o) (hr : h.Refuses o)
    (hbusy : ¬ h.Busy p) (hQ : ∀ e, Q.throw (stdError e) (h.locking [p])) :
    wp (makeReady call p copy st) Q h := by
  simp only [makeReady, wp_bind, wp_lockPromise hbusy, wp_modify, wp_cleanup]
  refine wp_setDelegate_refused (h := h.entered p) ho hr ?_
  intro e
  dsimp only
  rw [Heap.leave_enter]
  exact hQ e

/-- A promise of the program that is being fulfilled is fulfilled again. -/
lemma wp_makeReady_busy {j : ℕ} {copy : Code V Unit} {Q : Post (Heap V) Exn Fault Unit}
    (hi : Inv C X h) (hbusy : h.Busy (.named j))
    (hQ : ∀ f h', Blame C fuel f h' → Q.stop f h') :
    wp (makeReady call (.named j) copy st) Q h := by
  simp only [makeReady, lockPromise, wp_bind, wp_modify]
  refine (wp_lock_held (h := h.locking [.named j]) hbusy).mpr (hQ _ _ ?_)
  exact .of_conflict List.mem_cons_self
    (Or.inr ⟨j, List.mem_singleton_self _, hi.busy_iff.mp hbusy⟩)

/-- A value is set for a promise that can be fulfilled. -/
theorem wp_setValue (hcall : CallSpec C fuel k call)
    (henv : ∀ k x, env k = some x → C.copyThrows) (hi : Inv C X h)
    (hX : X = none ∨ X = some (.outer n)) (hs : Settable h p n) {v : Option V}
    (hset : X = some (.outer n) → Settles h n (.value v)) (hfuel : fuel ≤ k + h.startedCount)
    (c : Category) {Q : Post (Heap V) Exn Fault Unit}
    (hok : ∀ h', Inv C none h' → Ext h h' → h'.Holds p n → .fulfilled n (.value v) ∈ h'.log →
      Q.ok () h')
    (hesc : ∀ x h', Inv C none h' → Ext h h' → Escapes x h' → .fulfilled n (.value v) ∈ h'.log →
      (∀ m, p = .succ m → h.Started p → h'.Spent m) → Q.throw x h')
    (hcopy : ∀ x h', Inv C X h' → Ext h h' → Settable h' p n → .copyThrew p x ∈ h'.log →
      (∀ e, e ∈ h'.log → e ∈ h.log ∨ e = .copyThrew p x) → h'.promises = h.promises →
      h'.states = h.states → Q.throw x h')
    (hstop : ∀ f h', Blame C fuel f h' → Q.stop f h') :
    wp (setValue env call p c v) Q h := by
  have hexc : ∀ (g : Heap V) x, Stored.value v = .exception x → x.IsStd ∨ .raised x ∈ g.log := by
    intro g x hx
    cases hx
  have hready : ∀ {copy}, Copying env copy → ∀ {g : Heap V}, Inv C X g → Ext h g →
      Settable g p n → (X = some (.outer n) → Settles g n (.value v)) →
      wp (makeReady call p copy (.value v)) Q g := by
    intro copy hcopy g hig heg hsg hsetg
    refine wp_mono (wp_makeReady hcall henv hig hX hsg hsetg (hexc g) hcopy
      (Nat.le_trans hfuel (Nat.add_le_add_left heg.startedCount k))) ?_ ?_ hstop
    · rintro - h' ⟨hi', he, hp, hst⟩
      exact hok h' hi' (heg.trans he) hp hst
    · rintro x h' ⟨hi', he, hx, hst, hs'⟩
      exact hesc x h' hi' (heg.trans he) hx hst fun m hm hst => hs' m hm (heg.log hst)
  cases v with
  | none =>
    rw [setValue]
    exact hready .moved hi (.refl h) hs hset
  | some v =>
    cases c with
    | rvalue =>
      rw [setValue]
      exact hready .copied hi (.refl h) hs hset
    | lvalue =>
      simp only [setValue, wp_bind]
      have hic := hi.copied (h.copies + 1)
      have hec := Ext.copies h (h.copies + 1)
      have hsc : Settable { h with copies := h.copies + 1 } p n :=
        hs.congr rfl rfl rfl rfl (List.Subset.refl _) fun _ hr => hr
      refine wp_copyValue ?_ ?_
      · refine hready .copied hic hec hsc fun hX => ?_
        exact (hset hX).mono (List.Subset.refl _) (fun _ _ hs => hs) fun _ hw => hw
      · intro x hx
        refine hcopy x _ (hic.note_copyThrew (henv _ x hx) p x)
          (hec.trans (.note _ (by simp) (by simp))) ?_ List.mem_cons_self ?_ rfl rfl
        · refine hsc.congr rfl rfl rfl rfl (Heap.subset_note _ _) fun m => ?_
          exact (Heap.running_note (by simp) (by simp)).mp
        · exact fun e he => (List.mem_cons.mp he).symm

/-! ## Fulfilment by the program -/

lemma stdError_isStd (e : FutureErrc) : (stdError e).IsStd := by
  simp [stdError, Exn.IsStd]

/-- A promise of the program is fulfilled, refuses, or is being fulfilled already. -/
lemma Inv.fulfil_cases (hi : Inv C X h) {j : ℕ} {o : PromiseObj}
    (ho : h.promises (.named j) = some o) :
    h.Busy (.named j) ∨ ¬ h.Busy (.named j) ∧
      (h.Refuses o ∨ ∃ n, o.delegate = some n ∧ Settable h (.named j) n) := by
  by_cases hbusy : h.Busy (.named j)
  · exact Or.inl hbusy
  refine Or.inr ⟨hbusy, ?_⟩
  by_cases hr : h.Refuses o
  · exact Or.inl hr
  · rw [Heap.Refuses, not_forall] at hr
    obtain ⟨n, hr⟩ := hr
    rw [Classical.not_imp, Option.not_isSome_iff_eq_none] at hr
    obtain ⟨hn, hun⟩ := hr
    refine Or.inr ⟨n, hn, .named ?_ hun⟩
    have hextra := hi.core.graph.promise_extra _ _ n ho hn
    obtain ⟨d, e⟩ := o
    cases hn
    cases hextra
    exact ho

/-- `SetError` or `set_exception` of a promise of the program. -/
lemma wp_makeReady_named (hcall : CallSpec C fuel k call)
    (henv : ∀ k x, env k = some x → C.copyThrows) (hi : Inv C none h) {j : ℕ} {o : PromiseObj}
    (ho : h.promises (.named j) = some o)
    (hx : ∀ x, st = .exception x → x.IsStd ∨ .raised x ∈ h.log) {copy : Code V Unit}
    (hcopy : Copying env copy) (hfuel : fuel ≤ k + h.startedCount) :
    wp (makeReady call (.named j) copy st)
      (after C fuel h (fun _ _ => True) fun x h' => h'.Known x) h := by
  rcases hi.fulfil_cases ho with hbusy | ⟨hbusy, hr | ⟨n, -, hs⟩⟩
  · exact wp_makeReady_busy hi hbusy fun _ _ hb => hb
  · refine wp_makeReady_refused ho hr hbusy fun e => ⟨?_, ?_, Or.inl (stdError_isStd e)⟩
    · exact hi.note_lock hbusy
    · exact .note h (by simp) (by simp)
  · refine wp_mono (wp_makeReady hcall henv hi (Or.inl rfl) hs (by simp) hx hcopy hfuel) ?_ ?_
      fun _ _ hb => hb
    · exact fun _ h' ⟨hi', he, _⟩ => ⟨hi', he, trivial⟩
    · exact fun _ h' ⟨hi', he, hesc, _⟩ => ⟨hi', he, hesc.2⟩

/-- `set_value` of a promise of the program. -/
lemma wp_setValue_named (hcall : CallSpec C fuel k call)
    (henv : ∀ k x, env k = some x → C.copyThrows) (hi : Inv C none h) {j : ℕ} {o : PromiseObj}
    (ho : h.promises (.named j) = some o) (c : Category) (v : Option V)
    (hfuel : fuel ≤ k + h.startedCount) :
    wp (setValue env call (.named j) c v)
      (after C fuel h (fun _ _ => True) fun x h' => h'.Known x) h := by
  have hready : ∀ {copy}, Copying env copy → ∀ {g : Heap V}, Inv C none g → Ext h g →
      g.promises (.named j) = some o →
      wp (makeReady call (.named j) copy (.value v))
        (after C fuel h (fun _ _ => True) fun x h' => h'.Known x) g := by
    intro copy hcopy g hig heg hog
    refine wp_mono (wp_makeReady_named hcall henv hig hog (by simp) hcopy
      (Nat.le_trans hfuel (Nat.add_le_add_left heg.startedCount k))) ?_ ?_ fun _ _ hb => hb
    · exact fun _ h' ⟨hi', he, _⟩ => ⟨hi', heg.trans he, trivial⟩
    · exact fun _ h' ⟨hi', he, hk⟩ => ⟨hi', heg.trans he, hk⟩
  cases v with
  | none =>
    rw [setValue]
    exact hready .moved hi (.refl h) ho
  | some v =>
    cases c with
    | rvalue =>
      rw [setValue]
      exact hready .copied hi (.refl h) ho
    | lvalue =>
      simp only [setValue, wp_bind]
      have hic := hi.copied (h.copies + 1)
      have hec := Ext.copies h (h.copies + 1)
      refine wp_copyValue (hready .copied hic hec ho) ?_
      intro x hx
      exact ⟨hic.note_copyThrew (henv _ x hx) _ x, hec.trans (.note _ (by simp) (by simp)),
        Or.inr (Or.inr ⟨_, List.mem_cons_self⟩)⟩

/-! ## Fulfilment of a successor -/

/-- The function with the successor `m` has ended with `w`, and its continuation has still to
do something about the successor. -/
structure Owing (C : Client V) (m : ℕ) (w : How V) (h : Heap V) : Prop where
  inv : Inv C (some (.outer m)) h
  holds : h.Holds (.succ m) m
  unready : h.shared m = none
  started : h.Started (.succ m)
  returned : .returned m w ∈ h.log
  guard : ∀ s c, (h.states s).continuation = some c → c.promise = .succ m → h.Guarded s
  vacant : h.promises (.outer m) = none
  unstarted : ¬ h.Started (.outer m)
  unstored : ∀ s c, (h.states s).continuation = some c → c.promise ≠ .outer m
  unabandoned : ∀ n, .abandoned n (some (.outer m)) ∉ h.log

lemma Owing.settable {w : How V} (ho : Owing C m w h) : Settable h (.succ m) m where
  holds := ho.holds
  unready := ho.unready
  free _ _ _ hst hc := hst (hc ▸ ho.started)
  idle _ hm hr := by
    cases hm
    exact hr.2 ⟨w, ho.returned⟩
  guard := ho.guard

/-- The successor of a function that ended with `w` is settled with `st`. -/
lemma Owing.settles {w : How V} (ho : Owing C m w h)
    (hst : w.settles = some st ∨ ∃ v x e, w.settles = some (.value v) ∧
      .copyThrew (.succ m) x ∈ h.log ∧ x.passedOn = some e ∧ st = .error e) :
    Settles h m st := by
  intro w' hw'
  have heq := ho.inv.core.chronicle.eq_of_key hw' ho.returned rfl rfl
  cases heq
  exact Or.inr (hst.imp_right Or.inl)

lemma Exn.isStd_iff {x : Exn} : x.IsStd ↔ ∃ e, x.passedOn = some e := by
  rw [← Option.ne_none_iff_exists', Ne, passedOn, errorBy_eq_none, not_not]

/-- An exception that no handler takes taints the run. -/
lemma Heap.Known.tainted {x : Exn} (hk : h.Known x) (hx : x.passedOn = none) : h.Tainted := by
  have hstd : ¬ x.IsStd := Exn.errorBy_eq_none.mp hx
  rcases hk with hk | hk | hk
  · exact absurd hk hstd
  · exact Or.inl ⟨x, hstd, Or.inl hk⟩
  · exact Or.inl ⟨x, hstd, Or.inr hk⟩

/-- The handlers, when the successor is not fulfilled. -/
lemma wp_handlers_owing (hcall : CallSpec C fuel k call) {w : How V} (ho : Owing C m w h)
    {x : Exn} (hx : h.Known x)
    (hw : w = .threw x ∨ (∃ v, w.settles = some (.value v)) ∧ .copyThrew (.succ m) x ∈ h.log)
    (hfuel : fuel ≤ k + h.startedCount) :
    wp (handlers call m x) (after C fuel h (fun _ _ => True) Escapes) h := by
  rw [handlers, Exn.handled_eq]
  split
  · next e he =>
    have hst : w.settles = some (.error e) ∨ ∃ v x e', w.settles = some (.value v) ∧
        .copyThrew (.succ m) x ∈ h.log ∧ x.passedOn = some e' ∧
        (.error e : Stored V) = .error e' := by
      rcases hw with rfl | ⟨⟨v, hv⟩, hw⟩
      · exact Or.inl (by rw [How.settles, he]; rfl)
      · exact Or.inr ⟨v, x, e, hv, hw, he, rfl⟩
    refine wp_mono (wp_makeReady hcall copies_succeed ho.inv (Or.inr rfl)
      ho.settable (fun _ => ho.settles hst) (by simp) .moved hfuel) ?_ ?_ fun _ _ hb => hb
    · exact fun _ h' ⟨hi', he, _⟩ => ⟨hi', he, trivial⟩
    · exact fun _ h' ⟨hi', he, hesc, _⟩ => ⟨hi', he, hesc⟩
  · next hnone =>
    have ht := hx.tainted hnone
    exact ⟨ho.inv.of_tainted ht, .refl h, ht, hx⟩

/-- The handlers, when an exception has left what was done after the successor had been fulfilled
or handed over. -/
lemma wp_handlers_spent (hi : Inv C none h) (hs : h.Spent m) (hidle : ¬ h.Busy (.succ m))
    {x : Exn} (hx : Escapes x h) :
    wp (handlers call m x) (after C fuel h (fun _ _ => True) Escapes) h := by
  rw [handlers, Exn.handled_eq]
  split
  · next e he =>
    obtain ⟨o, ho, hr⟩ := hs.2.1
    refine wp_makeReady_refused ho hr hidle fun e => ⟨?_, ?_, ?_, Or.inl (stdError_isStd e)⟩
    · exact hi.note_lock hidle
    · exact .note h (by simp) (by simp)
    · exact hx.1.mono (h.subset_note _)
  · exact ⟨hi, .refl h, hx⟩

end AraCore.Future
