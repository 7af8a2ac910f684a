/-
# A call of `then` inside a function

A function may call another one, and pass a third to `then` of the future that this returns.
Such a composite function is called once, as is each of its parts, and its successor becomes
ready with the outcome of the last part, wherever the promises are fulfilled.  So two calls of
`then` in a row and a nested one have the same outcome.
-/
import AraCore.Future.Laws

namespace AraCore.Future

open Lib Comp

/-- A function that calls `g`, and passes `f` to `then` of what `g` returns.  The inner promises of
`g` are fulfilled with `a`, and those of `f` with `b`. -/
structure Composite (V : Type) where
  g : Func V .future
  f : Func V .future
  a : List (Given V)
  b : List (Given V)

variable {V : Type} {h h' : Heap V} {c : Composite V} {fuel i k n j : ℕ} {busy inner : Bool}
  {env : ℕ → Option Exn} {call : Cont V × FutureLoc → Code V Unit}

/-! ## The composite function -/

namespace Composite

variable (c)

/-- The promises of a program that uses the function: the first one, and those of `g` and `f`. -/
def given (root : Given V) : List (Given V) := root :: (c.a ++ c.b)

/-- The number of these promises, and the successor of the function.  That of `f` is the next. -/
def next : ℕ := (c.a ++ c.b).length + 1

/-- The variables of the inner futures of `g`. -/
def innerG : List ℕ := innerFutures 1 c.a

/-- The variables of the inner futures of `f`. -/
def innerF : List ℕ := innerFutures (c.a.length + 1) c.b

/-- `auto s = y.then(f); return s;` for the future `y` that `g` has returned. -/
def nest (y : Option Handle) : Prog V .future :=
  .thenCall (y.getD (.named (c.next + 1))) .future (fun z => c.f.code z c.innerF) (c.next + 1)
    fun s =>
      match s with
      | .ok _ => .ret (some (.named (c.next + 1)))
      | .error x => .throw x

/-- The code of the function. -/
def code (x : Handle) : Prog V .future := (c.g.code x c.innerG).bind fun y => c.nest y

def stage : Stage V := ⟨.future, c.code⟩

lemma next_pos : 0 < c.next := Nat.succ_pos _

lemma nest_passive (y : Option Handle) : (c.nest y).Passive := by
  refine ⟨trivial, fun x => c.f.passive x _, fun s => ?_⟩
  cases s <;> trivial

lemma code_passive (x : Handle) : (c.code x).Passive := (c.g.passive x _).bind c.nest_passive

variable {c}

lemma lt_of_mem_innerG (hk : k ∈ c.innerG) : 0 < k ∧ k < c.next := by
  have hk := mem_innerFutures.mp hk
  rw [next, List.length_append]
  omega

lemma lt_of_mem_innerF (hk : k ∈ c.innerF) : 0 < k ∧ k < c.next := by
  have hk := mem_innerFutures.mp hk
  rw [next, List.length_append]
  omega

lemma notMem_innerF (hk : k ∈ c.innerG) : k ∉ c.innerF := by
  intro hk'
  have hk := mem_innerFutures.mp hk
  have hk' := mem_innerFutures.mp hk'
  omega

/-- The promises of `g` are fulfilled with `a`. -/
lemma given_innerG {root x : Given V} {k : ℕ} (hx : c.a[k]? = some x) :
    (c.given root)[1 + k]? = some x := by
  have hk : k < c.a.length := (List.getElem?_eq_some_iff.mp hx).1
  rw [given, Nat.add_comm, List.getElem?_cons_succ, List.getElem?_append_left hk]
  exact hx

/-- The promises of `f` are fulfilled with `b`. -/
lemma given_innerF {root x : Given V} {k : ℕ} (hx : c.b[k]? = some x) :
    (c.given root)[c.a.length + 1 + k]? = some x := by
  rw [given, Nat.add_right_comm, List.getElem?_cons_succ,
    List.getElem?_append_right (Nat.le_add_right _ _), Nat.add_sub_cancel_left]
  exact hx

end Composite

/-! ## What the functions maintain -/

/-- The events so far account for the event: the composite function has returned the future that
`then` has registered for the successor of `f`, and `f` has ended as its meaning says. -/
def Event.Justified (c : Composite V) (l : List (Event V)) : Event V → Prop
  | threw x | raised x => x.IsStd
  | returned m w =>
    (m = c.next → ∃ n st r j, .called c.next (some st) ∈ l ∧ .registered c.next n ∈ l ∧
      st.result = some r ∧ c.g.how r n c.innerG = .inner (some j) ∧
      .registered (c.next + 1) j ∈ l ∧ w = .inner (some (c.next + 1))) ∧
    (m = c.next + 1 → ∃ n st r, .called (c.next + 1) (some st) ∈ l ∧
      .registered (c.next + 1) n ∈ l ∧ st.result = some r ∧ w = c.f.how r n c.innerF)
  | _ => True

lemma Event.Justified.mono {e : Event V} {l l' : List (Event V)} (he : e.Justified c l)
    (hl : ∀ e : Event V, e.Visible → e ∈ l → e ∈ l') : e.Justified c l' := by
  cases e with
  | returned m w =>
    refine ⟨fun hm => ?_, fun hm => ?_⟩
    · obtain ⟨n, st, r, j, hc, hr, hres, hhow, hr', hw⟩ := he.1 hm
      exact ⟨n, st, r, j, hl _ rfl hc, hl _ rfl hr, hres, hhow, hl _ rfl hr', hw⟩
    · obtain ⟨n, st, r, hc, hr, hres, hw⟩ := he.2 hm
      exact ⟨n, st, r, hl _ rfl hc, hl _ rfl hr, hres, hw⟩
  | threw x | raised x => exact he
  | _ => trivial

/-- What the composite function maintains when `i` functions are attached, during a call of
`then` by the program, and during the one by the function itself. -/
structure Nesting (c : Composite V) (i : ℕ) (busy inner : Bool) (h : Heap V) : Prop where
  justified : ∀ e ∈ h.log, e.Justified c h.log
  first : ¬ h.Called c.next → h.next = c.next + i + busy.toNat ∧
    (∀ k ∈ c.innerG, h.futures (.handle (.named k)) = some ⟨some k, some k⟩) ∧
    h.futures (.handle (.named (c.next + 1))) = none
  second : ¬ h.Called (c.next + 1) →
    ∀ k ∈ c.innerF, h.futures (.handle (.named k)) = some ⟨some k, some k⟩
  within : inner = true → h.Called c.next ∧ h.futures (.handle (.named (c.next + 1))) = none
  before : i + busy.toNat = 0 → h.next = c.next ∧ ∀ m n, .registered m n ∉ h.log
  le : h.next ≤ c.next + 2
  attached : i + busy.toNat ≤ 1
  free : i = 0 → h.futures (.handle (.named c.next)) = none
  last : busy = false → h.futures (.handle (.named (tail c.next i))) =
    some ⟨some (tail c.next i), some (tail c.next i)⟩

namespace Nesting

lemma of_view (hc : Nesting c i busy inner h) (hv : h'.view = h.view) :
    Nesting c i busy inner h' := by
  have hnext : h'.next = h.next := congrArg View.next hv
  have hfut : ∀ k, h'.futures (.handle (.named k)) = h.futures (.handle (.named k)) :=
    fun k => congrFun (congrArg View.futures hv) k
  have hmem : ∀ e : Event V, e.Visible → (e ∈ h'.log ↔ e ∈ h.log) :=
    fun e he => Heap.mem_of_view hv he
  have hcalled : ∀ m, h'.Called m ↔ h.Called m := fun m => exists_congr fun st => hmem _ rfl
  refine ⟨fun e he => ?_, ?_, ?_, ?_, ?_, hnext ▸ hc.le, hc.attached, ?_, ?_⟩
  · by_cases hvis : e.Visible
    · exact (hc.justified e ((hmem e hvis).mp he)).mono fun e' hv' => (hmem e' hv').mpr
    · cases e <;> trivial
  · simpa only [hcalled, hnext, hfut] using hc.first
  · simpa only [hcalled, hfut] using hc.second
  · simpa only [hcalled, hfut] using hc.within
  · intro hi
    exact ⟨hnext.trans (hc.before hi).1, fun m n hr => (hc.before hi).2 m n ((hmem _ rfl).mp hr)⟩
  · simpa only [hfut] using hc.free
  · simpa only [hfut] using hc.last

/-- An event is noted, which is no call of `then`. -/
lemma note (hc : Nesting c i busy inner h) {e : Event V} (he : e.Justified c h.log)
    (hreg : ∀ m n, e ≠ .registered m n) : Nesting c i busy inner (h.note e) := by
  have hsub : ∀ e' : Event V, e'.Visible → e' ∈ h.log → e' ∈ (h.note e).log :=
    fun _ _ => List.mem_cons_of_mem _
  have hcalled : ∀ m, h.Called m → (h.note e).Called m := by
    rintro m ⟨st, hst⟩
    exact ⟨st, hsub _ rfl hst⟩
  -- only a call of `then` could break `before`
  refine ⟨fun e' he' => ?_, fun hn => hc.first (mt (hcalled _) hn),
    fun hn => hc.second (mt (hcalled _) hn), fun hin => ?_, fun hi => ?_, hc.le, hc.attached,
    hc.free, hc.last⟩
  · rcases List.mem_cons.mp he' with rfl | he'
    · exact he.mono hsub
    · exact (hc.justified e' he').mono hsub
  · exact ⟨hcalled _ (hc.within hin).1, (hc.within hin).2⟩
  · exact ⟨(hc.before hi).1, fun m n hr =>
      (hc.before hi).2 m n ((Heap.mem_note (hreg m n).symm).mp hr)⟩

/-! ### Variables -/

/-- The variable `x` changes, and calls of `then` are noted. -/
structure Sets (x : Handle) (o : FutureObj) (h h' : Heap V) : Prop where
  log : h.log ⊆ h'.log
  new : ∀ e ∈ h'.log, e ∈ h.log ∨ ∃ m n, e = .registered m n
  futures : ∀ k, h'.futures (.handle (.named k)) =
    if x = .named k then some o else h.futures (.handle (.named k))

variable {x : Handle} {o : FutureObj}

lemma Sets.setFuture (h : Heap V) (x : Handle) (o : FutureObj) :
    Sets x o h (h.setFuture (.handle x) o) := by
  refine ⟨List.Subset.refl _, fun _ he => Or.inl he, fun k => ?_⟩
  simp only [Heap.setFuture, Table.set_apply, FutureLoc.handle.injEq, eq_comm]

lemma Sets.registered (h : Heap V) (n : ℕ) (x : Handle) (o : FutureObj) :
    Sets x o h ((h.registered n).setFuture (.handle x) o) := by
  refine ⟨List.subset_cons_self _ _, fun e he => ?_, fun k => ?_⟩
  · exact (List.mem_cons.mp he).elim (fun heq => Or.inr ⟨_, _, heq⟩) Or.inl
  · rw [(Sets.setFuture _ x o).futures, Heap.registered_handle]

lemma Sets.called (hs : Sets x o h h') (m : ℕ) : h'.Called m ↔ h.Called m := by
  constructor
  · rintro ⟨st, hst⟩
    exact ⟨st, (hs.new _ hst).resolve_right (by simp)⟩
  · rintro ⟨st, hst⟩
    exact ⟨st, hs.log hst⟩

lemma Sets.justified (hs : Sets x o h h') (hj : ∀ e ∈ h.log, e.Justified c h.log) :
    ∀ e ∈ h'.log, e.Justified c h'.log := by
  intro e he
  rcases hs.new e he with he | ⟨m, n, rfl⟩
  · exact (hj e he).mono fun _ _ hmem => hs.log hmem
  · trivial

lemma Sets.other (hs : Sets x o h h') {k : ℕ} (hk : x ≠ .named k) :
    h'.futures (.handle (.named k)) = h.futures (.handle (.named k)) := by
  rw [hs.futures, if_neg hk]

lemma Sets.ne {k' : ℕ} (hs : Sets (.named k') o h h') {k : ℕ} (hk : k ≠ k') :
    h'.futures (.handle (.named k)) = h.futures (.handle (.named k)) :=
  hs.other fun heq => hk (Handle.named.inj heq).symm

lemma Sets.self {k : ℕ} (hs : Sets (.named k) o h h') :
    h'.futures (.handle (.named k)) = some o := by
  rw [hs.futures, if_pos rfl]

/-- The program passes the composite function to `then`. -/
lemma attach (hc : Nesting c 0 false false h) (hs : Sets (.named 0) o h h')
    (hnext : h'.next = h.next + 1) : Nesting c 0 true false h' := by
  have hbefore := (hc.before rfl).1
  refine ⟨hs.justified hc.justified, fun hn => ?_, fun hn k hk => ?_, by simp, by simp, ?_,
    by simp, fun _ => ?_, by simp⟩
  · rw [hs.called] at hn
    obtain ⟨-, hinner, hfree⟩ := hc.first hn
    refine ⟨by simp [hnext, hbefore], fun k hk => ?_, ?_⟩
    · rw [hs.ne (Nat.ne_of_gt (Composite.lt_of_mem_innerG hk).1)]
      exact hinner k hk
    · rw [hs.ne (Nat.succ_ne_zero _)]
      exact hfree
  · rw [hs.called] at hn
    rw [hs.ne (Nat.ne_of_gt (Composite.lt_of_mem_innerF hk).1)]
    exact hc.second hn k hk
  · omega
  · rw [hs.ne (Nat.ne_of_gt c.next_pos)]
    exact hc.free rfl

/-- The future that `then` has returned to the program is in its variable. -/
lemma declare (hc : Nesting c 0 true false h)
    (hs : Sets (.named c.next) ⟨some c.next, some c.next⟩ h h') (hnext : h'.next = h.next) :
    Nesting c 1 false false h' := by
  refine ⟨hs.justified hc.justified, fun hn => ?_, fun hn k hk => ?_, by simp, by simp,
    hnext ▸ hc.le, by simp, by simp, fun _ => hs.self⟩
  · rw [hs.called] at hn
    obtain ⟨hlt, hinner, hfree⟩ := hc.first hn
    refine ⟨hnext.trans hlt, fun k hk => ?_, ?_⟩
    · rw [hs.ne (Nat.ne_of_lt (Composite.lt_of_mem_innerG hk).2)]
      exact hinner k hk
    · rw [hs.ne (Nat.succ_ne_self _)]
      exact hfree
  · rw [hs.called] at hn
    rw [hs.ne (Nat.ne_of_lt (Composite.lt_of_mem_innerF hk).2)]
    exact hc.second hn k hk

/-- The composite function passes `f` to `then`. -/
lemma attachNested (hc : Nesting c i busy false h) (hs : Sets x o h h')
    (hnext : h'.next = c.next + 2) (hcalled : h.Called c.next)
    (hfree : h.futures (.handle (.named (c.next + 1))) = none)
    (hx : ∀ k, x = .named k → k ∈ c.innerG) (hi : i + busy.toNat ≠ 0) :
    Nesting c i busy true h' := by
  have hother : ∀ k, k ∉ c.innerG →
      h'.futures (.handle (.named k)) = h.futures (.handle (.named k)) :=
    fun k hk => hs.other fun heq => hk (hx k heq)
  have hle : ∀ k, c.next ≤ k → k ∉ c.innerG :=
    fun k hk hmem => Nat.not_lt.mpr hk (Composite.lt_of_mem_innerG hmem).2
  refine ⟨hs.justified hc.justified, fun hn => ?_, fun hn k hk => ?_, fun _ => ?_, fun h0 => ?_,
    Nat.le_of_eq hnext, hc.attached, fun h0 => ?_, fun hb => ?_⟩
  · -- the composite function is being called, so that `first` says nothing any more
    exact absurd ((hs.called _).mpr hcalled) hn
  · rw [hother k fun hmem => Composite.notMem_innerF hmem hk]
    exact hc.second (mt (hs.called _).mpr hn) k hk
  · rw [hother _ (hle _ (Nat.le_succ _))]
    exact ⟨(hs.called _).mpr hcalled, hfree⟩
  · exact absurd h0 hi
  · rw [hother _ (hle _ (Nat.le_refl _))]
    exact hc.free h0
  · rw [hother]
    · exact hc.last hb
    · intro hmem
      have hlt := Composite.lt_of_mem_innerG hmem
      exact ne_tail hlt.1 hlt.2 i rfl

/-- A variable changes in which nothing is any more that matters. -/
lemma forget {inner' : Bool} (hc : Nesting c i busy inner h) (o : FutureObj)
    (hk : k = c.next + 1 ∧ h.Called c.next ∨ k ∈ c.innerF ∧ h.Called (c.next + 1))
    (hin : inner' = true → inner = true ∧ k ∈ c.innerF) :
    Nesting c i busy inner' (h.setFuture (.handle (.named k)) o) := by
  have hs := Sets.setFuture h (.named k) o
  have hpos : 0 < k := hk.elim (fun heq => heq.1 ▸ Nat.succ_pos _)
    fun hmem => (Composite.lt_of_mem_innerF hmem.1).1
  have hne : k ≠ c.next := by
    rcases hk with ⟨rfl, -⟩ | ⟨hmem, -⟩
    · exact Nat.succ_ne_self _
    · exact Nat.ne_of_lt (Composite.lt_of_mem_innerF hmem).2
  refine ⟨hc.justified, fun hn => ?_, fun hn j hj => ?_, fun hin' => ?_, hc.before, hc.le,
    hc.attached, fun h0 => ?_, fun hb => ?_⟩
  · obtain ⟨hmem, -⟩ := hk.resolve_left fun h1 => hn h1.2
    obtain ⟨hlt, hinner, hfree⟩ := hc.first hn
    refine ⟨hlt, fun j hj => ?_, ?_⟩
    · rw [hs.ne fun heq : j = k => Composite.notMem_innerF hj (heq ▸ hmem)]
      exact hinner j hj
    · have hk := (Composite.lt_of_mem_innerF hmem).2
      rw [hs.ne (by omega)]
      exact hfree
  · obtain ⟨rfl, -⟩ := hk.resolve_right fun h2 => hn h2.2
    have hj' := (Composite.lt_of_mem_innerF hj).2
    rw [hs.ne (by omega)]
    exact hc.second hn j hj
  · obtain ⟨hinner, hmem⟩ := hin hin'
    have hk := (Composite.lt_of_mem_innerF hmem).2
    rw [hs.ne (by omega)]
    exact hc.within hinner
  · rw [hs.ne hne.symm]
    exact hc.free h0
  · have hle := hc.attached
    rw [hs.ne]
    · exact hc.last hb
    · -- the last future of the program is that of the first promise, or of the composite function
      cases i with
      | zero => exact Nat.ne_of_lt hpos
      | succ i =>
        obtain rfl : i = 0 := by omega
        exact hne.symm

end Nesting

/-- The clients when `i` functions are attached, during a call of `then` by the program, and
during one by the composite function. -/
def Nesting.client (c : Composite V) (i : ℕ) (busy inner : Bool) : Client V where
  J := Nesting c i busy inner
  quiet _ _ hv hc := hc.of_view hv
  called _ _ _ hc := hc.note trivial (by simp)
  K m κ func := m = c.next ∧ (⟨κ, func⟩ : Stage V) = c.stage ∨
    m = c.next + 1 ∧ (⟨κ, func⟩ : Stage V) = ⟨.future, fun z => c.f.code z c.innerF⟩
  misuse := False
  copyThrows := False

/-! ## The functions keep what they maintain -/

/-- No call of `then` has been registered before the first one. -/
lemma Nesting.attached_of (hc : Nesting c i busy inner h) {m n : ℕ}
    (hreg : .registered m n ∈ h.log) : i + busy.toNat ≠ 0 :=
  fun h0 => (hc.before h0).2 m n hreg

/-- The function `f` is one of the client. -/
lemma Nesting.admits : Admits (Nesting.client c i busy inner) c.f (c.next + 1) c.innerF where
  raised _ hc x hx := hc.justified _ hx
  inner _ hc := hc.second
  moved _ hc hcalled k hk := hc.forget _ (Or.inr ⟨hk, hcalled⟩) fun hin => ⟨hin, hk⟩
  threw _ _ hc hx := hc.note hx (by simp)
  returned h n st r hc hcalled hreg hr := by
    refine hc.note ⟨fun hm => ?_, fun _ => ?_⟩ (by simp)
    · exact absurd hm (Nat.succ_ne_self _)
    · exact ⟨n, st, r, hcalled, hreg, hr, rfl⟩

/-- What another client with the same functions knows where a run comes to a fault. -/
lemma Blame.transfer {C C' : Client V} {x : Fault} (hb : Blame C fuel x h) (hm : ¬ C.misuse)
    (hc : ¬ C.copyThrows) : Blame C' fuel x h where
  between hx := (hm (hb.between hx).2).elim
  deadlock := hb.deadlock
  terminate hx := Or.inr ((hb.terminate hx).resolve_left fun hthrows => hc hthrows.1)
  outOfFuel := hb.outOfFuel

/-- The composite function passes `f` to `then` of the future `x`. -/
lemma wp_nest (hcall : CallSpec (Nesting.client c i busy true) fuel k call)
    (hi : Inv (Nesting.client c i busy false) none h) {x : Handle}
    (hnext : h.next = c.next + 1) (hcalled : h.Called c.next)
    (hfree : h.futures (.handle (.named (c.next + 1))) = none)
    (hx : ∀ k, x = .named k → k ∈ c.innerG) (hib : i + busy.toNat ≠ 0)
    (ho : h.futures (.handle x) = some ⟨some j, some j⟩) (hfuel : fuel ≤ k + h.startedCount) :
    wp (runProg env call (c.nest (some x))) (after (Nesting.client c i busy false) fuel h
      (fun v h' => v = some (.named (c.next + 1)) ∧ .registered (c.next + 1) j ∈ h'.log ∧
        h'.futures (.handle (.named (c.next + 1))) =
          some ⟨some (c.next + 1), some (c.next + 1)⟩) fun _ _ => False) h := by
  have hblind : Inv (Nesting.client c i busy true).blind none h := hi.blind
  have hthen : wp (declareNext call x .future (fun z => c.f.code z c.innerF) (c.next + 1))
      (after (Nesting.client c i busy false) fuel h (fun _ h' =>
        .registered (c.next + 1) j ∈ h'.log ∧ h'.futures (.handle (.named (c.next + 1))) =
          some ⟨some (c.next + 1), some (c.next + 1)⟩) fun _ _ => False) h := by
    simp only [declareNext, wp_bind]
    refine wp_andThen_valid hcall hblind (Or.inr ⟨hnext, rfl⟩) (fun e => ?_) ho hfuel
      (fun h₁ hi₁ he₁ hslot hreg => ?_) (fun y h₁ hi₁ _ hy _ => ?_) fun _ _ hb =>
        hb.transfer id id
    · exact hi.client.attachNested (.registered h j x _) (congrArg (· + 1) hnext) hcalled
        hfree hx hib
    · have hc₁ := hi₁.client
      obtain ⟨hcalled₁, hfree₁⟩ := hc₁.within rfl
      rw [hnext] at hslot hreg ⊢
      simp only [freeFuture, wp_bind, wp_get, hfree₁, Option.isSome_none, Bool.false_eq_true,
        if_false, wp_pure]
      have hblind₁ : Inv (Nesting.client c i busy false).blind none h₁ := hi₁.blind
      refine wp_bind.mp (wp_takeNext hblind₁ he₁ (Nat.le_of_eq hnext) hslot
        (hc₁.forget _ (Or.inl ⟨rfl, hcalled₁⟩) (by simp)) ?_)
      exact fun h' hi' he' hlog hnamed => ⟨hi', he', hlog hreg, hnamed⟩
    · exact (hi₁.not_tainted id (fun z hz => hi₁.client.justified _ hz) hy.1).elim
  simp only [Composite.nest, Option.getD_some, runProg, wp_bind, wp_attempt]
  refine wp_mono hthen ?_ (fun _ _ hf => hf.2.2.elim) fun _ _ hb => hb
  rintro - h' ⟨hi', he', hreg, hnamed⟩
  exact ⟨hi', he', rfl, hreg, hnamed⟩

/-- The future that `g` has returned is valid. -/
lemma Composite.give (hg : c.g.Valid c.a.length) {e : Source} {b : Bool} {r : Result V} {m : ℕ}
    (heval : c.g.eval r true = (.ok e, b)) (hx : h.futures (.handle (.param m)) = some (.of n b))
    (hinner : ∀ k ∈ c.innerG, h.futures (.handle (.named k)) = some ⟨some k, some k⟩) :
    ∃ x j, @Kind.give V (.param m) c.innerG .future e = some x ∧
      c.g.how r n c.innerG = .inner (some j) ∧ h.futures (.handle x) = some ⟨some j, some j⟩ ∧
      ∀ k, x = .named k → k ∈ c.innerG := by
  rcases hg.cases r n 1 with ⟨d, x, hd, hcase, hhow, -⟩ | ⟨hcase, hhow, -⟩
  · rw [heval] at hcase
    cases hcase
    have hget : c.innerG[d]? = some (1 + d) := innerFutures_getElem? hd
    have hmem : 1 + d ∈ c.innerG := List.mem_of_getElem? hget
    exact ⟨.named (1 + d), 1 + d, congrArg (Option.map Handle.named) hget, hhow, hinner _ hmem,
      fun k hk => Handle.named.inj hk ▸ hmem⟩
  · rw [heval] at hcase
    cases hcase
    exact ⟨.param m, n, rfl, hhow, hx, by simp⟩

/-- **The composite function** keeps what the clients maintain. -/
lemma Composite.fits (hg : c.g.Valid c.a.length)
    (hcall : CallSpec (Nesting.client c i busy true) fuel k call) :
    BodyFits (Nesting.client c i busy inner) fuel k c.next
      (runProg env call (c.code (.param c.next))) := by
  intro h₀ n st hJ hnew hi hp hst hreg _ hfuel
  have hib := hJ.attached_of hreg
  -- the function is not called while it is calling `then` itself
  obtain rfl : inner = false := by
    cases inner
    · rfl
    · exact absurd (hJ.within rfl).1 hnew
  obtain ⟨hnext₀, hinner₀, hfree₀⟩ := hJ.first hnew
  generalize hh : h₀.note (.called c.next (some st)) = h at hi hfuel ⊢
  have hcalled : .called c.next (some st) ∈ h.log := hh ▸ List.mem_cons_self
  have hreg' : .registered c.next n ∈ h.log := hh ▸ List.mem_cons_of_mem _ hreg
  have hparam : h.futures (.handle (.param c.next)) = some (.of n true) := hh ▸ hp
  have hshared : h.shared n = some st := hh ▸ hst
  have hfree : h.futures (.handle (.named (c.next + 1))) = none := hh ▸ hfree₀
  have hinner : ∀ k ∈ c.innerG, h.futures (.handle (.named k)) = some ⟨some k, some k⟩ :=
    hh ▸ hinner₀
  have hnext : h.next = c.next + 1 := by
    have hle := hJ.attached
    rw [← hh]
    show h₀.next = c.next + 1
    omega
  obtain ⟨r, hr⟩ := hi.result_of_shared (fun x hx => hi.client.justified _ hx) hshared
  -- what the looks of `g` at its argument leave
  let P : Heap V → Prop := fun h' =>
    Inv (Nesting.client c i busy false) none h' ∧ Ext h h' ∧ h'.log = h.log ∧
      h'.next = c.next + 1 ∧
      ∀ k, h'.futures (.handle (.named k)) = h.futures (.handle (.named k))
  have hP : ∀ h', P h' → P (h'.setFuture (.handle (.param c.next)) ⟨none, some n⟩) := by
    rintro h' ⟨hi', he', hlog, hnext', hfut⟩
    have hview := h'.view_setFuture (f := .handle (.param c.next)) ⟨none, some n⟩ (by simp)
    refine ⟨hi'.setFuture_none _ _ (hi'.client.of_view hview),
      he'.trans (.setFuture h' _ (by simp)), hlog, hnext', fun k => ?_⟩
    exact (congrFun (congrArg View.futures hview) k).trans (hfut k)
  rw [wp_bind, code, wp_runProg_bind]
  refine wp_mono (wp_code hr hP c.g ⟨hi, .refl h, rfl, hnext, fun _ => rfl⟩ hparam hshared) ?_ ?_
    fun _ _ hf => hf.elim
  · rintro v h' ⟨e, b, heval, rfl, ⟨hi', he', hlog, hnext', hfut⟩, hx⟩
    obtain ⟨x, j, hgive, hhow, ho, hx1⟩ :=
      give hg heval hx fun k hk => (hfut k).trans (hinner k hk)
    have hcalled' : h'.Called c.next := ⟨_, hlog ▸ hcalled⟩
    have hfuel' := Nat.le_trans hfuel (Nat.add_le_add_left he'.startedCount k)
    rw [hgive]
    refine wp_mono (wp_nest hcall hi' hnext' hcalled' ((hfut _).trans hfree) hx1 hib ho hfuel') ?_
      (fun _ _ hf => hf.2.2.elim) fun _ _ hb => hb
    rintro v h₁ ⟨hi₁, he₁, rfl, hreg₁, hnamed⟩
    have hcalled₁ : h₁.Called c.next := ⟨_, he₁.log (hlog ▸ hcalled)⟩
    refine wp_bind.mpr (wp_mono (wp_receive_move hi₁ hnamed
      (hi₁.client.forget _ (Or.inl ⟨rfl, hcalled₁⟩) (by simp))
      (P := fun h₂ => Inv (Nesting.client c i busy false) none h₂ ∧ Ext h h₂ ∧
        Nesting c i busy false (h₂.note (.returned c.next (.inner (some (c.next + 1))))) ∧
        h₂.futures (.inner c.next) = some ⟨some (c.next + 1), some (c.next + 1)⟩) ?_) ?_
      (fun _ _ hf => hf.elim) fun _ _ hf => hf.elim)
    · intro h₂ hi₂ he₂ ho₂ hlog₂
      have he : Ext h h₂ := he'.trans (he₁.trans he₂)
      refine ⟨hi₂, he, hi₂.client.note ⟨fun _ => ?_, fun hm => ?_⟩ (by simp), ho₂⟩
      · exact ⟨n, st, r, j, he.log hcalled, he.log hreg', hr, hhow, hlog₂ ▸ hreg₁, rfl⟩
      · exact absurd hm.symm (Nat.succ_ne_self _)
    · rintro - h₂ ⟨hi₂, he, hJ₂, ho₂⟩
      refine ⟨hi₂, he, ?_, fun _ => by rw [ho₂]; rfl⟩
      exact (congrArg (fun w => Nesting c i busy false (h₂.note (.returned c.next w)))
        (how_future c.next _ ho₂)).mpr hJ₂
  · rintro z h' ⟨b, g', heval, -⟩
    rcases hg r with ⟨d, -, hcase⟩ | hcase <;> rw [heval] at hcase <;> cases hcase

lemma Nesting.callSpec (hg : c.g.Valid c.a.length) (hfuel : 2 * (c.next + 2) < fuel) (i : ℕ)
    (busy inner : Bool) :
    CallSpec (Nesting.client c i busy inner) fuel fuel
      ((invokeStep fun _ => none)^[fuel] (watched (V := V))) := by
  refine callSpec_iterate (C := fun x : ℕ × Bool × Bool => Nesting.client c x.1 x.2.1 x.2.2) ?_
    (fun _ => copies_succeed) ?_ fuel (i, busy, inner)
  · rintro ⟨i, busy, inner⟩
    exact callSpec_watched (fun h hc => hc.le) hfuel
  · rintro k call hcall ⟨i, busy, inner⟩ m κ func (⟨rfl, hstage⟩ | ⟨rfl, hstage⟩)
    · cases hstage
      exact Composite.fits hg (hcall (i, busy, true))
    · cases hstage
      exact Func.fits Nesting.admits

/-! ## Runs -/

section Plan

/-- The program that passes the composite function to `then`. -/
def nested (root : Given V) (c : Composite V) (σ : List Move) : Prog V .result :=
  build (c.given root) [c.stage] σ

variable {root : Given V}

lemma Nesting.start (hnext : h.next = c.next) (hlog : h.log = [])
    (hfut : ∀ k, h.futures (.handle (.named k)) =
      if k < c.next then some ⟨some k, some k⟩ else none) :
    Nesting c 0 false false h := by
  refine ⟨by simp [hlog], fun _ => ?_, fun _ k hk => ?_, by simp, fun _ => ?_, by omega, by simp,
    fun _ => ?_, fun _ => ?_⟩
  · refine ⟨by simp [hnext], fun k hk => ?_, ?_⟩
    · rw [hfut, if_pos (Composite.lt_of_mem_innerG hk).2]
    · rw [hfut, if_neg (by omega)]
  · rw [hfut, if_pos (Composite.lt_of_mem_innerF hk).2]
  · simp [hnext, hlog]
  · rw [hfut, if_neg (Nat.lt_irrefl _)]
  · rw [tail, hfut, if_pos c.next_pos]

/-- The only function of the program is the composite one. -/
lemma Composite.stage_eq {i : ℕ} {s : Stage V} (hs : [c.stage][i]? = some s) :
    i = 0 ∧ s = c.stage := by
  cases i with
  | zero => exact ⟨rfl, (Option.some.inj hs).symm⟩
  | succ i => simp at hs

lemma Composite.func {i : ℕ} {s : Stage V} (hs : [c.stage][i]? = some s) :
    (Nesting.client c 0 false false).K (c.next + i) s.kind s.code := by
  obtain ⟨rfl, rfl⟩ := stage_eq hs
  exact Or.inl ⟨rfl, rfl⟩

lemma Composite.stage_passive {s : Stage V} (hs : s ∈ [c.stage]) (x : Handle) :
    (s.code x).Passive := by
  rw [List.mem_singleton.mp hs]
  exact c.code_passive x

namespace Nesting

lemma next_of (hc : Nesting c i false false h) (hi : i < 1) : h.next = c.next + i := by
  obtain rfl : i = 0 := by omega
  exact (hc.before rfl).1

lemma free_of (hc : Nesting c i true false h) :
    h.futures (.handle (.named (c.next + i))) = none := by
  obtain rfl : i = 0 := by simpa using hc.attached
  exact hc.free rfl

lemma attach_of (hc : Nesting c i false false h) (hi : i < 1) (e : Option ℕ) :
    Nesting c i true false
      ((h.registered (tail c.next i)).setFuture (.handle (.named (tail c.next i))) ⟨none, e⟩) := by
  obtain rfl : i = 0 := by omega
  exact hc.attach (.registered h 0 _ _) rfl

lemma declare_of (hc : Nesting c i true false h) (hi : i < 1) :
    Nesting c (i + 1) false false
      (h.setFuture (.handle (.named (c.next + i))) ⟨some (c.next + i), some (c.next + i)⟩) := by
  obtain rfl : i = 0 := by omega
  exact hc.declare (.setFuture h _ _) rfl

end Nesting

/-- The program goes as planned. -/
def nestPlan (root : Given V) (hg : c.g.Valid c.a.length) : Plan (c.given root) [c.stage] where
  blind := (Nesting.client c 0 false false).blind
  rest i := Nesting.client c i false false
  busy i := Nesting.client c i true false
  bound := c.next + 2
  rest_blind _ := rfl
  busy_blind _ := rfl
  misuse := id
  copyThrows := id
  func _ _ hs := Composite.func hs
  passive _ hs := Composite.stage_passive hs
  calls _ hfuel i :=
    ⟨Nesting.callSpec hg hfuel i false false, Nesting.callSpec hg hfuel i true false⟩
  threw_rest _ _ hc _ hx := hc.justified _ hx
  threw_busy _ _ hc _ hx := hc.justified _ hx
  raised _ _ _ hx hc := hc.note hx (by simp)
  next _ _ hi hc := hc.next_of hi
  last _ _ hc := hc.last rfl
  free _ _ hc := hc.free_of
  registered _ _ e hi hc := hc.attach_of hi e
  declared _ _ hi hc := hc.declare_of hi
  start _ hnext hlog hfut := Nesting.start hnext hlog hfut

namespace Composite

variable (c) in
/-- The result that `g` passes on. -/
def resultG (root : Given V) : Result V := c.g.next (c.a.map Given.result) root.result

variable (c) in
/-- The result that `f` passes on of what `g` passes on. -/
def resultF (root : Given V) : Result V := c.f.next (c.b.map Given.result) (c.resultG root)

/-- Both functions have been called, and the successors are fulfilled. -/
lemma finished (hg : c.g.Valid c.a.length) (hf : c.f.Valid c.b.length)
    (hfin : (nestPlan root hg).Finished h) :
    .called c.next (some root.stored) ∈ h.log ∧
      (∃ st, .called (c.next + 1) (some st) ∈ h.log ∧ st.result = some (c.resultG root)) ∧
      .fulfilled c.next (.of (c.resultF root)) ∈ h.log := by
  obtain ⟨done, ha, hdone⟩ := hfin
  have hc : Nesting c 1 false false h := ha.inv.client
  have hch := ha.inv.core.chronicle
  have hthrew : ∀ x, .threw x ∈ h.log → x.IsStd := fun x hx => hc.justified _ hx
  have hgiven : ∀ k x, (c.given root)[k]? = some x → .fulfilled k x.stored ∈ h.log :=
    fun k x hx => ha.fulfilled k (hdone k (List.getElem?_eq_some_iff.mp hx).1) x hx
  have hroot : .fulfilled 0 root.stored ∈ h.log := hgiven 0 root rfl
  have hreg₀ : .registered c.next 0 ∈ h.log := ha.registered 0 (by simp)
  -- the composite function is called with the outcome of the first promise
  have hcalled : .called c.next (some root.stored) ∈ h.log :=
    ha.called hreg₀ (hch.backed _ hroot) ⟨_, hroot⟩
  obtain ⟨w, hw⟩ := ha.returned_of_called hcalled
  obtain ⟨n, st, r, j, hcalled', hreg, hr, hhow, hregF, rfl⟩ := (hc.justified _ hw).1 rfl
  cases hch.eq_of_key hcalled hcalled' rfl rfl
  cases hch.eq_of_key hreg hreg₀ rfl rfl
  obtain rfl : root.result = r := Option.some.inj (root.stored_result.symm.trans hr)
  -- the future that `g` has returned becomes ready, and `f` is called
  obtain ⟨st, hst, hres⟩ : ∃ st, .fulfilled j st ∈ h.log ∧
      st.result = some (c.resultG root) := by
    rcases hg.cases root.result 0 1 with ⟨d, x, hx, -, hhow', hnext⟩ | ⟨-, hhow', hnext⟩
    · cases hhow.symm.trans hhow'
      exact ⟨_, hgiven _ x (given_innerG hx), x.stored_result.trans (congrArg some hnext.symm)⟩
    · cases hhow.symm.trans hhow'
      exact ⟨_, hroot, root.stored_result.trans (congrArg some hnext.symm)⟩
  have hcalledF : .called (c.next + 1) (some st) ∈ h.log :=
    ha.called hregF (hch.backed _ hst) ⟨_, hst⟩
  obtain ⟨w, hwF⟩ := ha.returned_of_called hcalledF
  obtain ⟨n, st', r, hcalledF', hregF', hr', rfl⟩ := (hc.justified _ hwF).2 rfl
  cases hch.eq_of_key hcalledF hcalledF' rfl rfl
  cases hch.eq_of_key hregF hregF' rfl rfl
  obtain rfl := Option.some.inj (hres.symm.trans hr')
  -- its future becomes ready, and with it both successors
  have hfulF : .fulfilled (c.next + 1) (.of (c.resultF root)) ∈ h.log := by
    refine ha.passesOn id hthrew hwF (Or.inr ?_)
    rcases hf.cases (c.resultG root) j (c.a.length + 1) with ⟨d, x, hx, -, hhow', hnext⟩ |
      ⟨-, hhow', hnext⟩
    · have hful := hgiven _ x (given_innerF hx)
      rw [resultF, hnext]
      exact ⟨_, _, hhow', hch.backed _ hful, ⟨_, hful⟩, x.stored_result⟩
    · rw [resultF, hnext]
      exact ⟨j, _, hhow', hch.backed _ hst, ⟨_, hst⟩, hres⟩
  refine ⟨hcalled, ⟨st, hcalledF, hres⟩, ha.passesOn id hthrew hw (Or.inr ?_)⟩
  exact ⟨c.next + 1, _, rfl, hch.backed _ hfulF, ⟨_, hfulF⟩, Stored.result_of _⟩

end Composite

/-- Whatever the schedule, the program returns what `f` passes on of what `g` passes on, and both
functions are called once. -/
theorem run_nested (hg : c.g.Valid c.a.length) (hf : c.f.Valid c.b.length)
    (hfuel : 2 * (c.next + 2) < fuel) {σ : List Move} (hσ : Complete (c.given root) [c.stage] σ) :
    ∃ h st, runMain (fun _ => none) fuel (nested root c σ) = .ok (c.resultF root) h ∧
      h.calls c.next = [some root.stored] ∧ h.calls (c.next + 1) = [some st] ∧
      st.result = some (c.resultG root) := by
  have hready : ∀ h, (nestPlan root hg).Finished h → ∃ st, h.shared c.next = some st ∧
      st.result = some (c.resultF root) := by
    intro h hfin
    obtain ⟨-, -, hful⟩ := Composite.finished hg hf hfin
    obtain ⟨done, ha, -⟩ := hfin
    exact ⟨_, ha.inv.core.chronicle.backed _ hful, Stored.result_of _⟩
  obtain ⟨h, x, o, hrun, hfin⟩ := (nestPlan root hg).run hfuel hσ hready
  obtain ⟨hcalled, ⟨st, hcalledF, hres⟩, -⟩ := Composite.finished hg hf hfin
  obtain ⟨done, ha, -⟩ := hfin
  have hch := ha.inv.core.chronicle
  exact ⟨_, st, hrun, hch.calls_eq hcalled, hch.calls_eq hcalledF, hres⟩

end Plan

/-! ## The laws -/

namespace Composite

variable (c)

/-- The function `g`, passed to `then` itself. -/
def linkG : Link V := ⟨.future, c.g, c.a⟩

/-- The function `f`, passed to `then` itself. -/
def linkF : Link V := ⟨.future, c.f, c.b⟩

lemma promises_links (root : Given V) : promises root [c.linkG, c.linkF] = c.given root := by
  simp [promises, given, linkG, linkF]

end Composite

/-- The laws of a monad, for a future whose promise is fulfilled with `root`, and functions `g` and
`f` whose inner promises are fulfilled with `a` and `b`, all of them at any point. -/
structure ThenLaws (env : ℕ → Option Exn) (fuel : ℕ) (root : Given V) (c : Composite V) :
    Prop where
  /-- `x.then(x => x)` has the outcome of `x`. -/
  identity : ∀ σ, Complete (promises root [⟨.future, .same, c.a⟩])
      (stages [⟨.future, .same, c.a⟩]) σ →
    ∃ h, runMain env fuel (chain root [⟨.future, .same, c.a⟩] σ) = .ok root.result h
  /-- When `x` is ready, `x.then(g)` has the outcome of `g(x)`. -/
  unit : ∀ σ, Complete (promises root [c.linkG]) (stages [c.linkG]) σ →
    Trace.Before (.fulfil 0) .attach σ → ∃ r h h',
      runMain env fuel (chain root [c.linkG] σ) = .ok r h ∧
      runMain env fuel (direct root c.a c.g σ) = .ok r h'
  /-- `x.then(g).then(f)` has the outcome of `x.then(y => g(y).then(f))`, and in both `g` and `f`
  are called once, with the same outcomes. -/
  associative : ∀ σ σ',
    Complete (promises root [c.linkG, c.linkF]) (stages [c.linkG, c.linkF]) σ →
    Complete (c.given root) [c.stage] σ' → ∃ r h h' st st',
      runMain env fuel (chain root [c.linkG, c.linkF] σ) = .ok r h ∧
      runMain env fuel (nested root c σ') = .ok r h' ∧
      h.calls c.next = [some root.stored] ∧ h'.calls c.next = [some root.stored] ∧
      h.calls (c.next + 1) = [some st] ∧ h'.calls (c.next + 1) = [some st'] ∧
      st.result = st'.result

/-- **The laws of `then`** hold for functions that return valid futures, whatever the order in
which the promises are fulfilled. -/
theorem then_laws {env : ℕ → Option Exn} (henv : ∀ k, env k = none) {root : Given V}
    (hg : c.g.Valid c.a.length) (hf : c.f.Valid c.b.length) (hfuel : 2 * (c.next + 2) < fuel) :
    ThenLaws env fuel root c := by
  obtain rfl : env = fun _ => none := funext henv
  have hnext : c.next = c.a.length + c.b.length + 1 := by rw [Composite.next, List.length_append]
  have hone : ∀ l : Link V, l.inner = c.a →
      2 * ((promises root [l]).length + [l].length) < fuel := by
    intro l hl
    simp only [promises, List.flatMap_singleton, List.length_cons, List.length_nil, hl]
    omega
  refine ⟨fun σ hσ => ?_, fun σ hσ hready => ?_, fun σ σ' hσ hσ' => ?_⟩
  · obtain ⟨h, hrun, -⟩ := run_chain hσ (hone _ rfl)
    exact ⟨h, hrun⟩
  · obtain ⟨h, hrun, -⟩ := run_chain hσ (hone _ rfl)
    have hσ' : Complete (root :: c.a) (stages [c.linkG]) σ := by
      simpa [promises, Composite.linkG] using hσ
    have hfuel' : 2 * (c.a.length + 1) < fuel := by omega
    obtain ⟨h', hrun'⟩ := run_direct hfuel' hg hσ' hready
    exact ⟨_, h, h', hrun, hrun'⟩
  · have hlen : (promises root [c.linkG, c.linkF]).length = c.next := by
      rw [c.promises_links]
      rfl
    obtain ⟨h, hrun, hcalls⟩ := run_chain hσ (by rw [hlen]; exact hfuel)
    rw [hlen] at hcalls
    obtain ⟨h', st', hrun', hG, hF, hres⟩ := run_nested hg hf hfuel hσ'
    exact ⟨_, h, h', _, st', hrun, hrun', hcalls 0 (by simp), hG, hcalls 1 (by simp), hF,
      (argument_result root _ 1).trans hres.symm⟩

/-- The function `g` returns its first inner future for an error and its second for a value, `f`
returns its argument, and the first promise is fulfilled with an exception. -/
def choosing : Composite ℕ where
  g := .look .get fun s =>
    match s with
    | .ok _ => .ret (.inner 1)
    | .error _ => .ret (.inner 0)
  f := .same
  a := [.value (some 3) .lvalue, .error invalidArgument]
  b := []

lemma choosing_valid : choosing.g.Valid 2 := by
  rintro (e | v)
  · exact Or.inl ⟨0, by simp, rfl⟩
  · exact Or.inl ⟨1, by simp, rfl⟩

theorem then_laws_choosing :
    ThenLaws (fun _ => none) 11 (.exception .std (by decide)) choosing :=
  then_laws (fun _ => rfl) choosing_valid (Func.same_valid 0) (by decide)

end AraCore.Future
