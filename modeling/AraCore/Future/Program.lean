/-
# Programs keep the invariant

Every operation of a program keeps the invariant, whatever the continuations do that it
invokes, and so does every program, as long as its operations keep what the client maintains.
-/
import AraCore.Future.Special

namespace AraCore.Future

open Lib Comp

variable {V α : Type} {h h' h₀ : Heap V} {C : Client V} {X : Option PromiseLoc} {fuel k : ℕ}
  {env : ℕ → Option Exn} {call : Cont V × FutureLoc → Code V Unit} {κ : Kind}

/-! ## Operations -/

/-- The operation `a` keeps what the client maintains, apart from what continuations do that it
invokes. -/
def Act.Kept (C : Client V) (h : Heap V) : Act V → Prop
  | .newPromise j => C.J (h.newPromise (.named j))
  | .destroyPromise j => C.J { h with promises := h.promises.erase (.named j) }
  | .movePromise src dst | .assignPromise dst src => ∀ o, h.promises (.named src) = some o →
    C.J (h.movePromise (.named src) (.named dst) o)
  | .swapPromise i j => ∀ o o', h.promises (.named i) = some o →
    h.promises (.named j) = some o' → C.J (h.swapPromise (.named i) (.named j) o o')
  | .getFuture j f => ∀ o n, h.promises (.named j) = some o → o.delegate = some n →
    C.J { h.setFuture (.handle (.named f)) ⟨some n, o.extra⟩ with
      retrieved := Function.update h.retrieved n true }
  | .setException _ x => C.J (h.note (.raised x))
  | .newFuture f => C.J (h.setFuture (.handle (.named f)) ⟨none, none⟩)
  | .moveFuture src dst => ∀ o, h.futures (.handle src) = some o →
    C.J (h.moveFuture (.handle src) (.handle (.named dst)) o)
  | .assignFuture dst src => ∀ o, h.futures (.handle src) = some o →
    C.J ((h.setFuture (.handle dst) o).setFuture (.handle src) ⟨none, none⟩)
  | .destroyFuture f => C.J { h with futures := h.futures.erase (.handle (.named f)) }
  | .getResult f | .get f => ∀ e, C.J (h.setFuture (.handle f) ⟨none, e⟩)
  | .setValue _ _ _ | .setError _ _ | .valid _ | .isReady _ | .wait _ => True

section Objects

variable {Q : Post (Heap V) Exn Fault Unit}

lemma wp_freePromise {p : PromiseLoc} (hok : h.promises p = none → Q.ok () h)
    (hstop : Q.stop .undefined h) : wp (freePromise p) Q h := by
  simp only [freePromise, wp_bind, wp_get]
  split
  · exact hstop
  · next hp => exact hok (Option.not_isSome_iff_eq_none.mp hp)

lemma wp_freeFuture {f : FutureLoc} (hok : h.futures f = none → Q.ok () h)
    (hstop : Q.stop .undefined h) : wp (freeFuture f) Q h := by
  simp only [freeFuture, wp_bind, wp_get]
  split
  · exact hstop
  · next hf => exact hok (Option.not_isSome_iff_eq_none.mp hf)

/-- An object of the program is used. -/
lemma wp_promise_some {p : PromiseLoc} {Q : Post (Heap V) Exn Fault PromiseObj}
    (hok : ∀ o, h.promises p = some o → Q.ok o h) (hstop : Q.stop .undefined h) :
    wp (promise p) Q h := by
  rcases ho : h.promises p with _ | o
  · exact (wp_promise_none ho).mpr hstop
  · exact (wp_promise ho).mpr (hok o ho)

lemma wp_future_some {f : FutureLoc} {Q : Post (Heap V) Exn Fault FutureObj}
    (hok : ∀ o, h.futures f = some o → Q.ok o h) (hstop : Q.stop .undefined h) :
    wp (future f) Q h := by
  rcases ho : h.futures f with _ | o
  · exact (wp_future_none ho).mpr hstop
  · exact (wp_future ho).mpr (hok o ho)

end Objects

/-- The mutexes of two variables are locked that are not being fulfilled. -/
lemma wp_lockPromises_free {Q : Post (Heap V) Exn Fault Unit} {i j : ℕ} (hne : i ≠ j)
    (hi : ¬ h.Busy (.named i)) (hj : ¬ h.Busy (.named j)) :
    wp (lockPromises (.named i) (.named j)) Q h ↔
      Q.ok () ((h.locking [.named i, .named j]).withHeld
        (.promise (.named j) :: .promise (.named i) :: h.held)) := by
  simp only [lockPromises, wp_bind, wp_modify]
  rw [wp_lock (h := h.locking [.named i, .named j]) hi]
  refine wp_lock fun hmem => ?_
  rcases List.mem_cons.mp hmem with heq | hmem
  · simp only [Mutex.promise.injEq, PromiseLoc.named.injEq] at heq
    exact hne heq.symm
  · exact hj hmem

/-- A method that locks the mutexes of two variables. -/
lemma wp_lockPromises (hinv : Inv C X h) {Q : Post (Heap V) Exn Fault Unit} {i j : ℕ}
    (hok : i ≠ j → ¬ h.Busy (.named i) → ¬ h.Busy (.named j) →
      Q.ok () ((h.locking [.named i, .named j]).withHeld
        (.promise (.named j) :: .promise (.named i) :: h.held)))
    (hstop : ∀ f h', Blame C fuel f h' → Q.stop f h') :
    wp (lockPromises (.named i) (.named j)) Q h := by
  by_cases hfree : i ≠ j ∧ ¬ h.Busy (.named i) ∧ ¬ h.Busy (.named j)
  · obtain ⟨hne, hi, hj⟩ := hfree
    exact (wp_lockPromises_free hne hi hj).mpr (hok hne hi hj)
  have hblame : ∀ mx, (Event.locks [.named i, .named j] h.fulfilling : Event V).Conflict →
      ∀ g : Heap V, g.log = (h.locking [.named i, .named j]).log →
        Q.stop (.deadlock mx) g :=
    fun mx hc g hg => hstop _ _ (.of_conflict (hg ▸ List.mem_cons_self) hc)
  simp only [lockPromises, wp_bind, wp_modify]
  by_cases hi : h.Busy (.named i)
  · refine (wp_lock_held (h := h.locking [.named i, .named j]) hi).mpr ?_
    exact hblame _ (Or.inr ⟨i, by simp, hinv.busy_iff.mp hi⟩) _ rfl
  refine (wp_lock (h := h.locking [.named i, .named j]) hi).mpr ?_
  by_cases hj : h.Busy (.named j)
  · exact (wp_lock_held (List.mem_cons_of_mem _ hj)).mpr
      (hblame _ (Or.inr ⟨j, by simp, hinv.busy_iff.mp hj⟩) _ rfl)
  · obtain rfl : i = j := by
      by_contra hne
      exact hfree ⟨hne, hi, hj⟩
    exact (wp_lock_held List.mem_cons_self).mpr (hblame _ (Or.inl (by simp)) _ rfl)

/-- The ends of an operation of a program. -/
abbrev operation (C : Client V) (fuel : ℕ) (h : Heap V) : Post (Heap V) Exn Fault α :=
  after C fuel h (fun _ _ => True) fun x h' => h'.Known x

lemma Heap.view_locks (h : Heap V) (ps qs : List PromiseLoc) :
    (h.note (.locks ps qs)).view = h.view := by
  simp [Heap.view, Event.Visible]

/-- Two mutexes that have been locked are unlocked. -/
lemma Heap.unlock_withHeld {mxs : List Mutex} (hh : h.held = mxs) (a b : Mutex) :
    ((h.withHeld (b :: a :: mxs)).unlock b).unlock a = h := by
  subst hh
  simp [Heap.withHeld, Heap.unlock]

/-! ### Promises -/

lemma wp_perform_destroyPromise (hm : C.misuse) (hi : Inv C none h) {j : ℕ}
    (ha : (Act.destroyPromise j : Act V).Kept C h) :
    wp (perform env call (.destroyPromise j)) (operation C fuel h) h := by
  simp only [perform, wp_bind]
  refine wp_promise_some (fun o ho => ?_) (hi.blame hm (Or.inl rfl))
  simp only [wp_get]
  split
  · exact hi.blame hm (Or.inl rfl)
  · next hbusy =>
    simp only [wp_bind, wp_modify, wp_pure]
    obtain ⟨hi', he', -⟩ := hi.destroyNamed hbusy ha
    exact ⟨hi', he', trivial⟩

lemma wp_perform_movePromise (hm : C.misuse) (hi : Inv C none h) {src dst : ℕ}
    (ha : (Act.movePromise src dst : Act V).Kept C h) :
    wp (perform env call (.movePromise src dst)) (operation C fuel h) h := by
  simp only [perform, wp_bind]
  refine wp_freePromise (fun hdst => ?_) (hi.blame hm (Or.inl rfl))
  rcases ho : h.promises (.named src) with _ | o
  · simp only [constructPromise, wp_bind, wp_promise_none ho]
    exact hi.blame hm (Or.inl rfl)
  by_cases hbusy : h.Busy (.named src)
  · simp only [constructPromise, lockPromise, wp_bind, wp_promise ho, wp_modify]
    refine (wp_lock_held (h := h.locking [.named src]) hbusy).mpr ?_
    exact .of_conflict List.mem_cons_self
      (Or.inr ⟨src, List.mem_singleton_self _, hi.busy_iff.mp hbusy⟩)
  · refine (wp_constructPromise ho hbusy).mpr ?_
    have hi₁ := hi.note_lock hbusy
    have he₁ : Ext h (h.locking [.named src]) := .note h (by simp) (by simp)
    have hview : ((h.movePromise (.named src) (.named dst) o).note
        (.locks [.named src] h.fulfilling)).view =
          (h.movePromise (.named src) (.named dst) o).view := Heap.view_locks _ _ _
    obtain ⟨hi', he'⟩ := hi₁.movePromise (i := src) (j := dst) ho hbusy hdst
      (C.quiet _ _ hview (ha o ho))
    exact ⟨hi', he₁.trans he', trivial⟩

/-- The mutexes of two variables are locked that are not being fulfilled. -/
lemma Inv.note_both (hi : Inv C X h) {i j : ℕ} (hne : i ≠ j) (hbi : ¬ h.Busy (.named i))
    (hbj : ¬ h.Busy (.named j)) :
    Inv C X (h.locking [.named i, .named j]) ∧
      Ext h (h.locking [.named i, .named j]) := by
  refine ⟨hi.note_locks (by simpa using hne) ?_, .note h (by simp) (by simp)⟩
  intro k hk
  rcases List.mem_cons.mp hk with hk | hk
  · cases hk
    exact mt hi.busy_iff.mpr hbi
  · cases List.mem_singleton.mp hk
    exact mt hi.busy_iff.mpr hbj

lemma wp_perform_assignPromise (hm : C.misuse) (hi : Inv C none h) {dst src : ℕ}
    (ha : (Act.assignPromise dst src : Act V).Kept C h) :
    wp (perform env call (.assignPromise dst src)) (operation C fuel h) h := by
  simp only [perform, wp_bind]
  refine wp_promise_some (fun d hd => ?_) (hi.blame hm (Or.inl rfl))
  refine wp_promise_some (fun o ho => ?_) (hi.blame hm (Or.inl rfl))
  split
  swap
  · exact ⟨hi, .refl h, trivial⟩
  simp only [wp_bind]
  refine wp_lockPromises hi (fun hne hdst hsrc => ?_) fun _ _ hb => hb
  obtain ⟨hi₁, he₁⟩ := hi.note_both hne hdst hsrc
  have hview : ((h.movePromise (.named src) (.named dst) o).note
      (.locks [.named dst, .named src] h.fulfilling)).view =
        (h.movePromise (.named src) (.named dst) o).view := Heap.view_locks _ _ _
  obtain ⟨hi', he', -⟩ := hi₁.assignPromise (i := dst) (j := src) hne hd ho hdst hsrc
    (C.quiet _ _ hview (ha o ho))
  simp only [wp_modify, wp_pure]
  rw [Heap.assignPromise_withHeld, Heap.unlock_withHeld (he₁.trans he').held]
  exact ⟨hi', he₁.trans he', trivial⟩

lemma wp_perform_swapPromise (hm : C.misuse) (hi : Inv C none h) {i j : ℕ}
    (ha : (Act.swapPromise i j : Act V).Kept C h) :
    wp (perform env call (.swapPromise i j)) (operation C fuel h) h := by
  simp only [perform, wp_bind]
  refine wp_promise_some (fun o ho => ?_) (hi.blame hm (Or.inl rfl))
  refine wp_promise_some (fun o' ho' => ?_) (hi.blame hm (Or.inl rfl))
  refine wp_lockPromises hi (fun hne hbi hbj => ?_) fun _ _ hb => hb
  obtain ⟨hi₁, he₁⟩ := hi.note_both hne hbi hbj
  have hview : ((h.swapPromise (.named i) (.named j) o o').note
      (.locks [.named i, .named j] h.fulfilling)).view =
        (h.swapPromise (.named i) (.named j) o o').view := Heap.view_locks _ _ _
  obtain ⟨hi', he'⟩ := hi₁.swapPromise (i := i) (j := j) ho ho' hbi hbj
    (C.quiet _ _ hview (ha o o' ho ho'))
  simp only [wp_modify, wp_pure]
  have heq : (((h.locking [.named i, .named j]).withHeld
      (.promise (.named j) :: .promise (.named i) :: h.held)).swapPromise (.named i) (.named j)
        o o') = ((h.locking [.named i, .named j]).swapPromise (.named i)
          (.named j) o o').withHeld (.promise (.named j) :: .promise (.named i) :: h.held) := rfl
  rw [heq, Heap.unlock_withHeld (he₁.trans he').held]
  exact ⟨hi', he₁.trans he', trivial⟩

lemma wp_perform_getFuture (hm : C.misuse) (hi : Inv C none h) {j f : ℕ}
    (ha : (Act.getFuture j f : Act V).Kept C h) :
    wp (perform env call (.getFuture j f)) (operation C fuel h) h := by
  simp only [perform, wp_bind]
  refine wp_freeFuture (fun _ => ?_) (hi.blame hm (Or.inl rfl))
  refine wp_promise_some (fun o ho => ?_) (hi.blame hm (Or.inl rfl))
  have hthrow : ∀ e : FutureErrc, Inv C none h ∧ Ext h h ∧ h.Known (stdError e) :=
    fun e => ⟨hi, .refl h, Or.inl (stdError_isStd e)⟩
  rcases hd : o.delegate with _ | n
  · simp only [hd]
    exact hthrow _
  simp only [hd, wp_bind, wp_get]
  split
  · exact hthrow _
  · next hr =>
    simp only [Bool.not_eq_true] at hr
    obtain ⟨hi', he'⟩ := hi.retrieve (.named f) ho hd hr (ha o n ho hd)
    exact ⟨hi', he', trivial⟩

/-! ### Futures -/

lemma wp_perform_moveFuture (hm : C.misuse) (hi : Inv C none h) {src : Handle} {dst : ℕ}
    (ha : (Act.moveFuture src dst : Act V).Kept C h) :
    wp (perform env call (.moveFuture src dst)) (operation C fuel h) h := by
  simp only [perform, wp_bind]
  refine wp_freeFuture (fun _ => ?_) (hi.blame hm (Or.inl rfl))
  rcases ho : h.futures (.handle src) with _ | o
  · simp only [constructFuture, wp_bind, wp_future_none ho]
    exact hi.blame hm (Or.inl rfl)
  · refine (wp_constructFuture ho (hi.not_held_future _)).mpr ?_
    exact ⟨hi.moveFuture ho (ha o ho), .moveFuture h o (by simp) (by simp), trivial⟩

lemma wp_perform_assignFuture (hm : C.misuse) (hi : Inv C none h) {dst src : Handle}
    (ha : (Act.assignFuture dst src : Act V).Kept C h) :
    wp (perform env call (.assignFuture dst src)) (operation C fuel h) h := by
  simp only [perform, wp_bind]
  refine wp_future_some (fun d hd => ?_) (hi.blame hm (Or.inl rfl))
  refine wp_future_some (fun o ho => ?_) (hi.blame hm (Or.inl rfl))
  split
  swap
  · exact ⟨hi, .refl h, trivial⟩
  next hne =>
  have hsrc : .future (.handle src) ∉ (h.lock (.future (.handle dst))).held := by
    intro hmem
    rcases List.mem_cons.mp hmem with heq | hmem
    · simp only [Mutex.future.injEq, FutureLoc.handle.injEq] at heq
      exact hne heq.symm
    · exact hi.not_held_future _ hmem
  obtain ⟨hi', he'⟩ := hi.assignFuture (d := d) hne ho (ha o ho)
  simp only [wp_bind, wp_lock (hi.not_held_future _), wp_lock hsrc, wp_modify, wp_pure]
  have heq : (((h.lock (.future (.handle dst))).lock (.future (.handle src))).assignFuture
      (.handle dst) (.handle src) d o) = (h.assignFuture (.handle dst) (.handle src) d o).withHeld
        (.future (.handle src) :: .future (.handle dst) :: h.held) :=
    h.assignFuture_withHeld _ _ _ _ _
  rw [heq, Heap.unlock_withHeld he'.held]
  exact ⟨hi', he', trivial⟩

lemma wp_perform_destroyFuture (hm : C.misuse) (hi : Inv C none h) {f : ℕ}
    (ha : (Act.destroyFuture f : Act V).Kept C h) :
    wp (perform env call (.destroyFuture f)) (operation C fuel h) h := by
  simp only [perform, wp_bind]
  refine wp_future_some (fun o _ => ?_) (hi.blame hm (Or.inl rfl))
  obtain ⟨hi', hq, hfut, -, hkeep⟩ := hi.destroyFuture (.handle (.named f)) ha
  refine ⟨hi', hq.ext (fun m _ => ?_) hkeep, trivial⟩
  rw [hfut, if_neg (by simp)]

lemma wp_isReady (hm : C.misuse) (hi : Inv C none h) (f : FutureLoc) :
    wp (isReady f) (after C fuel h (fun _ h' => h' = h) fun x h' => h' = h ∧ x.IsStd) h := by
  simp only [isReady, wp_bind]
  refine wp_future_some (fun o _ => ?_) (hi.blame hm (Or.inl rfl))
  rcases hd : o.delegate with _ | n
  · simp only [hd]
    exact ⟨hi, .refl h, rfl, stdError_isStd _⟩
  · simp only [hd]
    exact ⟨hi, .refl h, rfl⟩

/-- `GetResult` on a future of the program, which may be invalid, not ready, or ready with an
exception that it cannot handle. -/
lemma wp_getResult_handle (hm : C.misuse) (hi : Inv C none h) {f : Handle}
    (ha : ∀ e, C.J (h.setFuture (.handle f) ⟨none, e⟩)) :
    wp (getResult (.handle f)) (operation C fuel h) h := by
  rcases ho : h.futures (.handle f) with _ | o
  · simp only [getResult, wp_bind, wp_future_none ho]
    exact hi.blame hm (Or.inl rfl)
  have hi' := hi.setFuture_none (.handle f) o.extra (ha o.extra)
  have he' : Ext h (h.setFuture (.handle f) ⟨none, o.extra⟩) := .setFuture h _ (by simp)
  rcases hd : o.delegate with _ | n
  · simp only [getResult, wp_bind, wp_future ho, hd, wp_pure]
    exact ⟨hi, .refl h, trivial⟩
  rcases hst : h.shared n with _ | st
  · simp only [getResult, wp_bind, wp_future ho, hd, wp_get, hst]
    exact hi.blame hm (Or.inr rfl)
  · refine wp_getResult ho hd hst (fun r _ => ⟨hi', he', trivial⟩) fun hr => ?_
    exact hi'.core.chronicle.blame_terminate (Or.inr (hi.core.chronicle.raised hst hr))

/-! ### All operations -/

/-- Every operation of a program keeps the invariant, and what it throws has a known source. -/
theorem wp_perform (hcall : CallSpec C fuel k call) (henv : ∀ k x, env k = some x → C.copyThrows)
    (hm : C.misuse) (hi : Inv C none h) {a : Act V} (ha : a.Kept C h)
    (hfuel : fuel ≤ k + h.startedCount) :
    wp (perform env call a) (operation C fuel h) h := by
  cases a with
  | newPromise j =>
    simp only [perform, wp_bind]
    refine wp_freePromise (fun hj => ?_) (hi.blame hm (Or.inl rfl))
    obtain ⟨hi', he'⟩ := hi.newPromise hj ha
    exact ⟨hi', he', trivial⟩
  | destroyPromise j => exact wp_perform_destroyPromise hm hi ha
  | movePromise src dst => exact wp_perform_movePromise hm hi ha
  | assignPromise dst src => exact wp_perform_assignPromise hm hi ha
  | swapPromise i j => exact wp_perform_swapPromise hm hi ha
  | getFuture j f => exact wp_perform_getFuture hm hi ha
  | setValue j v c =>
    simp only [perform, wp_bind]
    refine wp_promise_some (fun o ho => ?_) (hi.blame hm (Or.inl rfl))
    exact wp_setValue_named hcall henv hi ho c v hfuel
  | setError j e =>
    simp only [perform, wp_bind]
    refine wp_promise_some (fun o ho => ?_) (hi.blame hm (Or.inl rfl))
    exact wp_makeReady_named hcall henv hi ho (by simp) .moved hfuel
  | setException j x =>
    simp only [perform, wp_bind]
    refine wp_promise_some (fun o ho => ?_) (hi.blame hm (Or.inl rfl))
    have hi₁ := hi.note (e := .raised x) trivial rfl trivial ha
    have he₁ : Ext h (h.note (.raised x)) := .note h (by simp) (by simp)
    refine wp_after_trans he₁ (wp_makeReady_named hcall henv hi₁ ho ?_ .moved ?_)
    · rintro y ⟨⟩
      exact Or.inr List.mem_cons_self
    · exact Nat.le_trans hfuel (Nat.add_le_add_left he₁.startedCount k)
  | newFuture f =>
    simp only [perform, wp_bind]
    refine wp_freeFuture (fun _ => ?_) (hi.blame hm (Or.inl rfl))
    exact ⟨hi.setFuture_none _ _ ha, .setFuture h _ (by simp), trivial⟩
  | moveFuture src dst => exact wp_perform_moveFuture hm hi ha
  | assignFuture dst src => exact wp_perform_assignFuture hm hi ha
  | destroyFuture f => exact wp_perform_destroyFuture hm hi ha
  | valid f =>
    simp only [perform, wp_bind]
    refine wp_future_some (fun o _ => ?_) (hi.blame hm (Or.inl rfl))
    exact ⟨hi, .refl h, trivial⟩
  | isReady f =>
    have hready : wp (isReady (.handle f)) (after C fuel h (fun _ h' => h' = h) _) h :=
      wp_isReady hm hi (.handle f)
    simp only [perform, wp_bind]
    refine wp_mono hready ?_ ?_ fun _ _ hb => hb
    · rintro b h' ⟨hi', he', -⟩
      exact ⟨hi', he', trivial⟩
    · rintro x h' ⟨hi', he', -, hx⟩
      exact ⟨hi', he', Or.inl hx⟩
  | wait f =>
    have hready : wp (isReady (.handle f)) (after C fuel h (fun _ h' => h' = h) _) h :=
      wp_isReady hm hi (.handle f)
    simp only [perform, wait, wp_bind]
    refine wp_mono hready ?_ ?_ fun _ _ hb => hb
    · rintro b h' ⟨hi', he', -⟩
      cases b
      · exact hi'.blame hm (Or.inr rfl)
      · exact ⟨hi', he', trivial⟩
    · rintro x h' ⟨hi', he', -, hx⟩
      exact ⟨hi', he', Or.inl hx⟩
  | getResult f =>
    simp only [perform, wp_bind]
    exact wp_mono (wp_getResult_handle hm hi ha) (fun _ _ hp => hp) (fun _ _ hp => hp)
      fun _ _ hb => hb
  | get f =>
    simp only [perform, getValue, wp_bind]
    refine wp_mono (wp_getResult_handle hm hi ha) ?_ (fun _ _ hp => hp) fun _ _ hb => hb
    rintro (e | v) h' ⟨hi', he', -⟩
    · exact ⟨hi', he', Or.inl (by simp [Exn.IsStd])⟩
    · exact ⟨hi', he', trivial⟩

/-- The future that `then` returns is moved into the variable `next`. -/
lemma wp_takeNext {m next : ℕ} (hi : Inv C.blind none h) (he : Ext h₀ h) (hm : h₀.next ≤ m)
    (ho : h.futures (.next m) = some ⟨some m, some m⟩)
    (hJ : C.J (h.setFuture (.handle (.named next)) ⟨some m, some m⟩))
    {Q : Post (Heap V) Exn Fault Unit}
    (hQ : ∀ h', Inv C none h' → Ext h₀ h' → h.log ⊆ h'.log →
      h'.futures (.handle (.named next)) = some ⟨some m, some m⟩ → Q.ok () h') :
    wp (do
      constructFuture (.next m) (.handle (.named next))
      modify fun h => h.destroyFuture (.next m)) Q h := by
  have hne : ∀ j, j < h₀.next → FutureLoc.next m ≠ .next j := by
    rintro j hj heq
    cases heq
    exact absurd hm (Nat.not_le_of_lt hj)
  rw [wp_bind]
  refine (wp_constructFuture ho (hi.not_held_future _)).mpr ?_
  simp only [wp_modify]
  have hview : (h.moveFuture (.next m) (.handle (.named next)) ⟨some m, some m⟩).view =
      (h.setFuture (.handle (.named next)) ⟨some m, some m⟩).view := by
    simp only [Heap.view, View.mk.injEq]
    refine ⟨rfl, ?_, rfl, rfl⟩
    funext j
    simp [Heap.moveFuture, Heap.setFuture]
  have hi₁ := (hi.moveFuture (b := .handle (.named next)) ho trivial).of_blind
    (C.quiet _ _ hview hJ)
  have hq₁ : Quiet h (h.moveFuture (.next m) (.handle (.named next)) ⟨some m, some m⟩) :=
    Quiet.setFutures h _ (fun _ hr => hr) _
  have he₁ := hq₁.after he (fun j hj => by
    rw [Heap.moveFuture_futures, if_neg (by simp), if_neg (hne j hj).symm]) fun _ _ hs => hs
  obtain ⟨hi₂, he₂, hq₂, hfut₂, -⟩ := hi₁.dropFuture he₁ (f := .next m) (by simp) hne
  refine hQ _ hi₂ he₂ hq₂.log ?_
  rw [hfut₂, if_neg (by simp), Heap.moveFuture_futures, if_pos rfl]

/-- `auto next = f.then(func);` -/
theorem wp_declareNext (hcall : CallSpec C fuel k call) (hm : C.misuse) (hi : Inv C none h)
    {f : Handle} {func : Handle → Prog V κ} {next : ℕ} (ha : Acceptable C f κ func h)
    (hJ : ∀ g m, C.J g → C.J (g.setFuture (.handle (.named next)) ⟨some m, some m⟩))
    (hfuel : fuel ≤ k + h.startedCount) :
    wp (declareNext call f κ func next) (after C fuel h (fun _ h' => RegisteredBy h f h')
      fun x h' => h'.Known x ∧ RegisteredBy h f h') h := by
  simp only [declareNext, wp_bind]
  refine wp_mono (wp_andThen hcall hi ha (Or.inl hm) hfuel) ?_ (fun _ _ hp => hp) fun _ _ hb => hb
  rintro m h₁ ⟨hi₁, he₁, rfl, hnext, hreg⟩
  refine wp_freeFuture (fun _ => ?_) (hi₁.blame hm (Or.inl rfl))
  refine wp_bind.mp (wp_takeNext hi₁.blind he₁ (Nat.le_refl _) hnext (hJ h₁ h.next hi₁.client) ?_)
  exact fun h' hi' he' hlog _ => ⟨hi', he', fun o n ho hn => hlog (hreg o n ho hn)⟩

/-! ## Programs -/

/-- The program, and the functions that it passes to `then`, perform only operations with the
property `P`, and name their futures as `N` allows. -/
def Prog.Within (P : Act V → Prop) (N : ℕ → Prop) : {κ : Kind} → Prog V κ → Prop
  | _, .ret _ | _, .throw _ => True
  | _, .act a k => P a ∧ ∀ r, (k r).Within P N
  | _, .thenCall _ _ func next k => N next ∧ (∀ x, (func x).Within P N) ∧ ∀ r, (k r).Within P N

/-- A client that maintains its property whatever programs within `P` and `N` do. -/
structure Tolerant (C : Client V) (P : Act V → Prop) (N : ℕ → Prop) : Prop where
  misuse : C.misuse
  copyThrows : C.copyThrows
  func : ∀ m κ func, C.K m κ func ↔ ∀ x, (func x).Within P N
  act : ∀ a h, Inv C none h → P a → a.Kept C h
  discarded : ∀ h, Inv C none h → C.J h.discarded
  registered : ∀ f h n e, Inv C none h → C.J ((h.registered n).setFuture (.handle f) ⟨none, e⟩)
  declared : ∀ h next m, N next → C.J h →
    C.J (h.setFuture (.handle (.named next)) ⟨some m, some m⟩)
  moved : ∀ h f, C.J h → C.J (h.setFuture (.handle f) ⟨none, none⟩)
  threw : ∀ h x, C.J h → C.J (h.note (.threw x))
  returned : ∀ h m w, C.J h → C.J (h.note (.returned m w))

variable {P : Act V → Prop} {N : ℕ → Prop}

/-- A program is a run of operations. -/
theorem wp_runProg (hC : Tolerant C P N) (hcall : CallSpec C fuel k call)
    (p : Prog V κ) (hp : p.Within P N) (hi : Inv C none h) (hfuel : fuel ≤ k + h.startedCount) :
    wp (runProg env call p) (operation C fuel h) h := by
  induction p generalizing h with
  | ret r => exact ⟨hi, .refl h, trivial⟩
  | throw x =>
    have he : Ext h (h.note (.threw x)) := .note h (by simp) (by simp)
    refine ⟨?_, he, Or.inr (Or.inl List.mem_cons_self)⟩
    exact hi.note trivial rfl trivial (hC.threw h x hi.client)
  | act a next ih =>
    simp only [runProg, wp_bind, wp_attempt]
    have hstep : ∀ r h', Inv C none h' → Ext h h' →
        wp (runProg env call (next r)) (operation C fuel h) h' := by
      intro r h' hi' he'
      exact wp_after_trans he' (ih r (hp.2 r) hi'
        (Nat.le_trans hfuel (Nat.add_le_add_left he'.startedCount k)))
    refine wp_mono (wp_perform hcall (fun _ _ _ => hC.copyThrows) hC.misuse hi
      (hC.act a h hi hp.1) hfuel) ?_ ?_ fun _ _ hb => hb
    · exact fun r h' hp => hstep _ h' hp.1 hp.2.1
    · exact fun x h' hp => hstep _ h' hp.1 hp.2.1
  | thenCall f κ' func name next _ ih =>
    simp only [runProg, wp_bind, wp_attempt]
    have hstep : ∀ r h', Inv C none h' → Ext h h' →
        wp (runProg env call (next r)) (operation C fuel h) h' := by
      intro r h' hi' he'
      exact wp_after_trans he' (ih r (hp.2.2 r) hi'
        (Nat.le_trans hfuel (Nat.add_le_add_left he'.startedCount k)))
    have ha : Acceptable C f κ' func h :=
      ⟨(hC.func _ _ _).mpr hp.2.1, hC.discarded h hi, fun _ n e _ _ => hC.registered f h n e hi⟩
    refine wp_mono (wp_declareNext hcall hC.misuse hi ha
      (fun g m => hC.declared g name m hp.1) hfuel) ?_ ?_ fun _ _ hb => hb
    · exact fun r h' hp => hstep _ h' hp.1 hp.2.1
    · exact fun x h' hp => hstep _ h' hp.1 hp.2.1

/-- The future that a function returns moves out of the variable. -/
lemma wp_receive (hC : Tolerant C P N) (hi : Inv C none h) (m : ℕ) (r : κ.Ret V) :
    wp (receive m r) (after C fuel h (fun _ h' => κ = .future → (h'.futures (.inner m)).isSome)
      fun _ _ => False) h := by
  cases κ with
  | result | value | void => exact ⟨hi, .refl h, by simp⟩
  | future =>
    cases r with
    | none =>
      refine ⟨?_, .setFuture h _ (by simp), fun _ => by simp [Heap.setFuture]⟩
      exact hi.setFuture_none _ _ (C.quiet h _ (Heap.view_setFuture _ (by simp)) hi.client)
    | some x =>
      simp only [receive]
      rcases ho : h.futures (.handle x) with _ | o
      · simp only [constructFuture, wp_bind, wp_future_none ho]
        exact hi.blame hC.misuse (Or.inl rfl)
      · refine (wp_constructFuture ho (hi.not_held_future _)).mpr ?_
        have hview : (h.moveFuture (.handle x) (.inner m) o).view =
            (h.setFuture (.handle x) ⟨none, none⟩).view :=
          Heap.view_setFuture (h := h.setFuture (.handle x) ⟨none, none⟩) o (by simp)
        refine ⟨hi.moveFuture ho (C.quiet _ _ hview (hC.moved h x hi.client)),
          .moveFuture h o (by simp) (by simp), fun _ => ?_⟩
        rw [Heap.moveFuture_futures, if_pos rfl]
        rfl

/-- The functions that are passed to `then` keep the invariant. -/
lemma Tolerant.bodyOk (hC : Tolerant C P N) (hcall : CallSpec C fuel k call) {p : Prog V κ}
    (hp : p.Within P N) (m : ℕ) : BodyOk C fuel k m (runProg env call p) := by
  intro h n st hi _ _ _ _ _ hfuel
  simp only [wp_bind, wp_pure]
  refine wp_mono (wp_runProg hC hcall p hp hi hfuel) ?_ ?_ fun _ _ hb => hb
  · rintro r h' ⟨hi', he', -⟩
    refine wp_mono (wp_receive hC hi' m r) ?_ (fun _ _ hf => hf.2.2.elim) fun _ _ hb => hb
    rintro _ h'' ⟨hi'', he'', hr⟩
    exact ⟨hi'', he'.trans he'', hC.returned _ _ _ hi''.client, hr⟩
  · rintro x h' ⟨hi', he', hk⟩
    exact ⟨hi', he', hC.returned _ _ _ hi'.client, hk⟩

lemma Tolerant.callSpec (hC : Tolerant C P N) (env : ℕ → Option Exn) (fuel : ℕ) :
    CallSpec C fuel fuel (invoke env fuel) :=
  callSpec_invoke (fun _ _ _ => hC.copyThrows) fun _ _ hcall m κ func hK =>
    hC.bodyOk hcall ((hC.func m κ func).mp hK (.param m)) m

/-! ## Runs -/

/-- The invariant holds at the start. -/
lemma Inv.initial (hJ : C.J .initial) : Inv C none .initial := by
  refine ⟨⟨?_, ?_, ?_, ?_⟩, by simp [Heap.initial], ?_, ?_, ?_, ?_, hJ⟩
  · constructor <;> simp [Heap.initial]
  · constructor <;> simp [Heap.initial]
  · constructor <;> simp [Heap.initial, Heap.Running, Heap.Called, Heap.Busy]
  · constructor <;> simp [Heap.initial]
  · simp [Linked, Heap.initial]
  · simp [Forwarded, Heap.initial]
  · simp [Heap.initial]
  · simp [Heap.initial]

/-- Every run of a program keeps the invariant. -/
theorem Tolerant.run (hC : Tolerant C P N) (hJ : C.J .initial) (env : ℕ → Option Exn)
    (fuel : ℕ) {p : Prog V κ} (hp : p.Within P N) :
    wp (runProg env (invoke env fuel) p) (operation C fuel .initial) .initial :=
  wp_runProg hC (hC.callSpec env fuel) p hp (.initial hJ) (Nat.le_add_right _ _)

lemma Prog.within_true (p : Prog V κ) : p.Within (fun _ => True) fun _ => True := by
  induction p with
  | ret r | throw x => trivial
  | act a k ih => exact ⟨trivial, ih⟩
  | thenCall f κ' func next k ih ih' => exact ⟨trivial, ih, ih'⟩

lemma Client.any_tolerant :
    Tolerant (Client.any : Client V) (fun _ => True) fun _ => True := by
  refine ⟨trivial, trivial, ?_, ?_, ?_, ?_, ?_, ?_, ?_, ?_⟩
  · exact fun m κ func => iff_of_true trivial fun x => Prog.within_true _
  · intro a h _ _
    cases a <;> simp [Act.Kept, Client.any]
  all_goals
    intros
    trivial

/-- The memories between two operations of single-threaded programs, be they in a function that
was passed to `then`: those in which a program ends, or does what has no defined behaviour or
waits for ever.  As a program can do so after any of its operations, they are all such
memories. -/
def Reachable (h : Heap V) : Prop :=
  ∃ (env : ℕ → Option Exn) (fuel : ℕ) (κ : Kind) (p : Prog V κ),
    (runMain env fuel p).state = h ∧
      ∀ f, (runMain env fuel p).fault = some f → f = .undefined ∨ f = .blocked

/-- The invariant holds between any two operations of any program. -/
theorem Reachable.inv (hr : Reachable h) : Inv Client.any none h := by
  obtain ⟨env, fuel, κ, p, rfl, hfault⟩ := hr
  have hrun := Client.any_tolerant.run trivial env fuel p.within_true
  unfold wp at hrun
  unfold runMain at hfault ⊢
  split at hrun
  · next heq =>
    rw [heq]
    exact hrun.1
  · next heq =>
    rw [heq]
    exact hrun.1
  · next f s heq =>
    rw [heq] at hfault ⊢
    exact (hrun.between (hfault f rfl)).1

end AraCore.Future
