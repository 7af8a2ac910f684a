/-
# Chains of calls of `then`

A program builds a chain of calls of `then` with functions of any of the four kinds, and fulfils
the first promise and the inner promises of the functions in any order.  In the end each function
has been called once, with what the one before it has left, and the result of the chain is the
same as if all promises had been fulfilled at first.
-/
import AraCore.Future.Build
import AraCore.Future.Functions

namespace AraCore.Future

open Lib Comp

variable {V : Type} {h h' : Heap V}

/-! ## Programs -/

/-- A link of a chain: a function, and what its inner promises are fulfilled with. -/
structure Link (V : Type) where
  kind : Kind
  func : Func V kind
  inner : List (Given V)

/-- The variables of the inner futures of a function whose promises are those from the `k`-th on,
and are fulfilled with `gs`. -/
def innerFutures (k : ℕ) (gs : List (Given V)) : List ℕ := List.range' k gs.length

/-- The function of a link whose inner promises are those from the `k`-th on. -/
def Link.stage (k : ℕ) (l : Link V) : Stage V :=
  ⟨l.kind, fun x => l.func.code x (innerFutures k l.inner)⟩

section Program

variable (root : Given V) (links : List (Link V))

/-- What the promises are fulfilled with: the first one, and the inner promises. -/
def promises : List (Given V) := root :: links.flatMap Link.inner

/-- The first inner promise of the `i`-th link. -/
def firstInner (i : ℕ) : ℕ := ((links.take i).flatMap Link.inner).length + 1

def stages : List (Stage V) := links.mapIdx fun i l => l.stage (firstInner links i)

/-- The program that builds the chain and fulfils its promises as the schedule says. -/
def chain (σ : List Move) : Prog V .result := build (promises root links) (stages links) σ

end Program

/-! ## The inner promises -/

section Inner

variable {root : Given V} {links : List (Link V)} {i j k c : ℕ} {l l' : Link V}
  {gs : List (Given V)} {g : Given V}

lemma mem_innerFutures : j ∈ innerFutures k gs ↔ k ≤ j ∧ j < k + gs.length :=
  List.mem_range'_1

lemma innerFutures_getElem? (hg : gs[c]? = some g) : (innerFutures k gs)[c]? = some (k + c) := by
  have hc : c < gs.length := (List.getElem?_eq_some_iff.mp hg).1
  rw [innerFutures, List.getElem?_range' hc, Nat.one_mul]

lemma innerFutures_getElem?_none (hg : gs[c]? = none) : (innerFutures k gs)[c]? = none := by
  rw [List.getElem?_eq_none_iff] at hg ⊢
  rwa [innerFutures, List.length_range']

lemma firstInner_succ (hl : links[i]? = some l) :
    firstInner links (i + 1) = firstInner links i + l.inner.length := by
  simp only [firstInner, List.take_add_one, hl, List.flatMap_append, List.length_append,
    Option.toList_some, List.flatMap_singleton]
  omega

variable (links) in
lemma firstInner_mono (hij : i ≤ j) : firstInner links i ≤ firstInner links j := by
  induction hij with
  | refl => exact Nat.le_refl _
  | step _ ih =>
    refine Nat.le_trans ih ?_
    simp only [firstInner, List.take_add_one, List.flatMap_append, List.length_append]
    omega

variable (root links) in
lemma length_promises : (promises root links).length = firstInner links links.length := by
  rw [promises, firstInner, List.take_length, List.length_cons]

/-- The inner promises of a link are among those of the program, after the first one. -/
lemma lt_of_mem_innerFutures (hl : links[i]? = some l)
    (hk : k ∈ innerFutures (firstInner links i) l.inner) :
    0 < k ∧ k < firstInner links links.length := by
  have hlt : i < links.length := (List.getElem?_eq_some_iff.mp hl).1
  have hle := firstInner_mono links (show i + 1 ≤ links.length from hlt)
  rw [mem_innerFutures] at hk
  rw [firstInner_succ hl] at hle
  have hpos : 0 < firstInner links i := Nat.succ_pos _
  omega

/-- Different links have different inner promises. -/
lemma eq_of_mem_innerFutures (hl : links[i]? = some l) (hl' : links[j]? = some l')
    (hk : k ∈ innerFutures (firstInner links i) l.inner)
    (hk' : k ∈ innerFutures (firstInner links j) l'.inner) : i = j := by
  rw [mem_innerFutures, ← firstInner_succ hl] at hk
  rw [mem_innerFutures, ← firstInner_succ hl'] at hk'
  rcases Nat.lt_trichotomy i j with hlt | heq | hlt
  · have hle := firstInner_mono links (show i + 1 ≤ j from hlt)
    omega
  · exact heq
  · have hle := firstInner_mono links (show j + 1 ≤ i from hlt)
    omega

variable (root) in
lemma promises_getElem? (hl : links[i]? = some l) (hg : l.inner[c]? = some g) :
    (promises root links)[firstInner links i + c]? = some g := by
  obtain ⟨hi, rfl⟩ := List.getElem?_eq_some_iff.mp hl
  have hsplit : links.flatMap Link.inner = (links.take i).flatMap Link.inner ++
      (links[i].inner ++ (links.drop (i + 1)).flatMap Link.inner) := by
    conv_lhs => rw [← List.take_append_drop i links]
    rw [List.flatMap_append, List.drop_eq_getElem_cons hi, List.flatMap_cons]
  have hc : c < links[i].inner.length := (List.getElem?_eq_some_iff.mp hg).1
  rw [promises, firstInner, Nat.add_right_comm, List.getElem?_cons_succ, hsplit,
    List.getElem?_append_right (Nat.le_add_right _ _), Nat.add_sub_cancel_left,
    List.getElem?_append_left hc]
  exact hg

end Inner

/-! ## Meaning -/

/-- The result with which a promise is ready. -/
def Given.result : Given V → Result V
  | value v _ => .ok v
  | error e => .error e
  | exception x _ => .error (x.reported.getD invalidArgument)

lemma Given.stored_result (g : Given V) : g.stored.result = some g.result := by
  cases g with
  | value v c => rfl
  | error e => rfl
  | exception x hx =>
    obtain ⟨e, he⟩ : ∃ e, x.reported = some e :=
      Option.ne_none_iff_exists'.mp fun hnone => Exn.errorBy_eq_none.mp hnone hx
    simp [stored, Stored.result, result, he]

/-- How a function ends that is called with the result `r` decides with what its successor is
ready: at once, or when the future is ready that it returned. -/
lemma Func.how_cases {κ : Kind} (f : Func V κ) (gs : List (Given V)) (r : Result V) (n k : ℕ) :
    (f.how r n (innerFutures k gs)).settles = some (.of (f.next (gs.map Given.result) r)) ∨
      f.how r n (innerFutures k gs) = .inner (some n) ∧ f.next (gs.map Given.result) r = r ∨
      ∃ c g, gs[c]? = some g ∧ f.how r n (innerFutures k gs) = .inner (some (k + c)) ∧
        f.next (gs.map Given.result) r = g.result := by
  -- an exception ends the call; otherwise the kind says what becomes of what is returned
  rcases heval : f.eval r true with ⟨e | e, b⟩
  · have hstd := isStd_of_eval heval
    obtain ⟨c, hc⟩ := Exn.isStd_iff.mp hstd
    simp [how, next, heval, How.settles, hc, Stored.of]
  · cases κ with
    | future =>
      cases e with
      | invalid => simp [how, next, heval, Kind.how, Kind.outcome, How.settles, Stored.of]
      | argument =>
        cases b <;> simp [how, next, heval, Kind.how, Kind.outcome, How.settles, Stored.of]
      -- the function returns its `c`-th future, or an invalid one if there are not so many
      | inner c =>
        rcases hg : gs[c]? with _ | g
        · simp [how, next, heval, Kind.how, Kind.outcome, How.settles, Stored.of,
            innerFutures_getElem?_none hg, hg]
        · refine Or.inr (Or.inr ⟨c, g, hg, ?_, ?_⟩)
          · simp [how, heval, Kind.how, innerFutures_getElem? hg]
          · simp [next, heval, Kind.outcome, hg]
    | result => cases e <;> simp [how, next, heval, Kind.how, Kind.outcome, How.settles, Stored.of]
    | value => simp [how, next, heval, Kind.how, Kind.outcome, How.settles, Stored.of]
    | void => simp [how, next, heval, Kind.how, Kind.outcome, How.settles, Stored.of]

section Meaning

variable (root : Given V) (links : List (Link V))

/-- The result of the future on which the `i`-th call of `then` is. -/
def outcome (i : ℕ) : Result V :=
  (links.take i).foldl (fun r l => l.func.next (l.inner.map Given.result) r) root.result

/-- What the function of the `i`-th link is called with. -/
def argument : ℕ → Stored V
  | 0 => root.stored
  | i + 1 => .of (outcome root links (i + 1))

@[simp] lemma argument_result (i : ℕ) :
    (argument root links i).result = some (outcome root links i) := by
  cases i with
  | zero => exact root.stored_result
  | succ i => exact Stored.result_of _

lemma outcome_succ {i : ℕ} {l : Link V} (hl : links[i]? = some l) :
    outcome root links (i + 1) =
      l.func.next (l.inner.map Given.result) (outcome root links i) := by
  rw [outcome, List.take_add_one, hl, List.foldl_append]
  rfl

end Meaning

/-! ## What the functions maintain -/

lemma Heap.mem_of_view (hv : h'.view = h.view) {e : Event V} (he : e.Visible) :
    e ∈ h'.log ↔ e ∈ h.log := by
  have hlog : h'.log.filter Event.Visible = h.log.filter Event.Visible := congrArg View.log hv
  have hmem := congrArg (e ∈ ·) hlog
  simpa [he] using hmem

/-- What the functions of the chain maintain when `i` of them are attached, and during the next
call of `then`. -/
structure Chained (links : List (Link V)) (p i : ℕ) (busy : Bool) (h : Heap V) : Prop where
  threw : ∀ x, .threw x ∈ h.log → x.IsStd
  raised : ∀ x, .raised x ∈ h.log → x.IsStd
  inner : ∀ j l, links[j]? = some l → ¬ h.Called (p + j) →
    ∀ k ∈ innerFutures (firstInner links j) l.inner,
      h.futures (.handle (.named k)) = some ⟨some k, some k⟩
  returned : ∀ j l w, links[j]? = some l → .returned (p + j) w ∈ h.log →
    ∃ n st r, .called (p + j) (some st) ∈ h.log ∧ .registered (p + j) n ∈ h.log ∧
      st.result = some r ∧ w = l.func.how r n (innerFutures (firstInner links j) l.inner)
  le : i + busy.toNat ≤ links.length
  next : h.next = p + i + busy.toNat
  free : ∀ k, p + i ≤ k → h.futures (.handle (.named k)) = none
  last : busy = false →
    h.futures (.handle (.named (tail p i))) = some ⟨some (tail p i), some (tail p i)⟩

namespace Chained

variable {links : List (Link V)} {p i : ℕ} {busy : Bool}

/-- Nothing changes but that events are noted. -/
lemma of_log (hc : Chained links p i busy h) (hnext : h'.next = h.next)
    (hfut : ∀ k, h'.futures (.handle (.named k)) = h.futures (.handle (.named k)))
    (hlog : ∀ e, e.Visible → e ∈ h.log → e ∈ h'.log)
    (hthrew : ∀ x, .threw x ∈ h'.log → x.IsStd) (hraised : ∀ x, .raised x ∈ h'.log → x.IsStd)
    (hreturned : ∀ j l w, links[j]? = some l → .returned (p + j) w ∈ h'.log →
      .returned (p + j) w ∈ h.log ∨ ∃ n st r, .called (p + j) (some st) ∈ h.log ∧
        .registered (p + j) n ∈ h.log ∧ st.result = some r ∧
        w = l.func.how r n (innerFutures (firstInner links j) l.inner)) :
    Chained links p i busy h' where
  threw := hthrew
  raised := hraised
  inner j l hl hnew k hk := by
    rw [hfut]
    exact hc.inner j l hl (fun ⟨st, hst⟩ => hnew ⟨st, hlog _ rfl hst⟩) k hk
  returned j l w hl hw := by
    have hold : ∃ n st r, .called (p + j) (some st) ∈ h.log ∧ .registered (p + j) n ∈ h.log ∧
        st.result = some r ∧ w = l.func.how r n (innerFutures (firstInner links j) l.inner) :=
      (hreturned j l w hl hw).elim (hc.returned j l w hl) id
    obtain ⟨n, st, r, hcalled, hreg, hr, hhow⟩ := hold
    exact ⟨n, st, r, hlog _ rfl hcalled, hlog _ rfl hreg, hr, hhow⟩
  le := hc.le
  next := hnext.trans hc.next
  free k hk := (hfut k).trans (hc.free k hk)
  last hb := (hfut _).trans (hc.last hb)

lemma of_view (hc : Chained links p i busy h) (hv : h'.view = h.view) :
    Chained links p i busy h' := by
  refine hc.of_log (congrArg View.next hv) (fun k => congrFun (congrArg View.futures hv) k)
    (fun e he => (Heap.mem_of_view hv he).mpr) ?_ ?_ ?_
  · exact fun x hx => hc.threw x ((Heap.mem_of_view hv rfl).mp hx)
  · exact fun x hx => hc.raised x ((Heap.mem_of_view hv rfl).mp hx)
  · exact fun j l w _ hw => Or.inl ((Heap.mem_of_view hv rfl).mp hw)

/-- An event is noted. -/
lemma note (hc : Chained links p i busy h) {e : Event V} (hthrew : ∀ x, e = .threw x → x.IsStd)
    (hraised : ∀ x, e = .raised x → x.IsStd)
    (hreturned : ∀ j l w, links[j]? = some l → e = .returned (p + j) w →
      ∃ n st r, .called (p + j) (some st) ∈ h.log ∧ .registered (p + j) n ∈ h.log ∧
        st.result = some r ∧ w = l.func.how r n (innerFutures (firstInner links j) l.inner)) :
    Chained links p i busy (h.note e) := by
  refine hc.of_log rfl (fun _ => rfl) (fun _ _ => List.mem_cons_of_mem _) ?_ ?_ ?_
  · exact fun x hx => (List.mem_cons.mp hx).elim (fun heq => hthrew x heq.symm) (hc.threw x)
  · exact fun x hx => (List.mem_cons.mp hx).elim (fun heq => hraised x heq.symm) (hc.raised x)
  · exact fun j l w hl hw => (List.mem_cons.mp hw).elim
      (fun heq => Or.inr (hreturned j l w hl heq.symm)) Or.inl

lemma note_raised (hc : Chained links p i busy h) {x : Exn} (hx : x.IsStd) :
    Chained links p i busy (h.note (.raised x)) :=
  hc.note (by simp) (by simpa using hx) (by simp)

end Chained

/-- No inner future is the last one of the chain. -/
lemma ne_tail {p k : ℕ} (hk : 0 < k) (hp : k < p) (i : ℕ) : k ≠ tail p i := by
  cases i with
  | zero => simpa [tail] using Nat.ne_of_gt hk
  | succ i => simp only [tail]; omega

section Clients

variable (links : List (Link V)) (p : ℕ)

/-- The client when `i` functions are attached, and during the next call of `then`. -/
def Chained.client (i : ℕ) (busy : Bool) : Client V where
  J := Chained links p i busy
  quiet _ _ hv hc := hc.of_view hv
  called _ _ _ hc := hc.note (by simp) (by simp) (by simp)
  K m κ func := ∃ j l, links[j]? = some l ∧ m = p + j ∧
    (⟨κ, func⟩ : Stage V) = l.stage (firstInner links j)
  misuse := False
  copyThrows := False

variable {links} {p}

/-- A link of the chain keeps what the chain maintains. -/
lemma Chained.admits {i j : ℕ} {busy : Bool} {l : Link V} (hl : links[j]? = some l)
    (hp : firstInner links links.length ≤ p) :
    Admits (Chained.client links p i busy) l.func (p + j)
      (innerFutures (firstInner links j) l.inner) where
  raised _ hc := hc.raised
  inner _ hc := hc.inner j l hl
  moved h hc hcalled x hx := by
    have hother : ∀ k, k ≠ x →
        (h.setFuture (.handle (.named x)) ⟨none, none⟩).futures (.handle (.named k)) =
          h.futures (.handle (.named k)) := by
      intro k hk
      rw [Heap.setFuture, Table.set_apply, if_neg (by simpa using hk)]
    have hlt := lt_of_mem_innerFutures hl hx
    refine ⟨hc.threw, hc.raised, fun j' l' hl' hnew k hk => ?_, hc.returned, hc.le, hc.next,
      fun k hk => ?_, fun hb => ?_⟩
    · rw [hother k]
      · exact hc.inner j' l' hl' hnew k hk
      · -- the variable would be one of the same link, whose function has been called
        rintro rfl
        cases eq_of_mem_innerFutures hl hl' hx hk
        exact hnew hcalled
    · rw [hother k (by omega)]
      exact hc.free k hk
    · rw [hother _ (ne_tail hlt.1 (Nat.lt_of_lt_of_le hlt.2 hp) i).symm]
      exact hc.last hb
  threw h x hc hx := hc.note (by simpa using hx) (by simp) (by simp)
  returned h n st r hc hcalled hreg hr := by
    refine hc.note (by simp) (by simp) fun k l' w hl' heq => ?_
    simp only [Event.returned.injEq, Nat.add_left_cancel_iff] at heq
    obtain ⟨rfl, rfl⟩ := heq
    obtain rfl : l = l' := Option.some.inj (hl.symm.trans hl')
    exact ⟨n, st, r, hcalled, hreg, hr, rfl⟩

lemma Chained.callSpec (hp : firstInner links links.length ≤ p) {fuel : ℕ}
    (hfuel : 2 * (p + links.length) < fuel) (i : ℕ) (busy : Bool) :
    CallSpec (Chained.client links p i busy) fuel fuel
      ((invokeStep fun _ => none)^[fuel] watched) := by
  refine callSpec_iterate (C := fun x : ℕ × Bool => Chained.client links p x.1 x.2) ?_
    (fun _ => copies_succeed) ?_ fuel (i, busy)
  · rintro ⟨i, busy⟩
    refine callSpec_watched (fun h hc => ?_) hfuel
    have hnext := hc.next
    have hle := hc.le
    omega
  · rintro k call - ⟨i, busy⟩ m κ func ⟨j, l, hl, rfl, hstage⟩
    obtain ⟨κ', func', inner⟩ := l
    cases hstage
    exact Func.fits (Chained.admits hl hp)

end Clients

/-- The last future of the chain is used up, or there is a new one. -/
lemma Chained.setLast {links : List (Link V)} {p i i' x : ℕ} {busy busy' : Bool} {o : FutureObj}
    (hc : Chained links p i busy h) (hle : i' + busy'.toNat ≤ links.length)
    (hnext : h'.next = p + i' + busy'.toNat) (hx : ∀ j l, links[j]? = some l →
      ∀ k ∈ innerFutures (firstInner links j) l.inner, k ≠ x)
    (hfut : ∀ k, h'.futures (.handle (.named k)) =
      if k = x then some o else h.futures (.handle (.named k)))
    (hlog : h.log ⊆ h'.log) (hnew : ∀ e ∈ h'.log, e ∈ h.log ∨ ∃ m n, e = .registered m n)
    (hfree : ∀ k, p + i' ≤ k → k ≠ x ∧ p + i ≤ k)
    (hlast : busy' = false → tail p i' = x ∧ o = ⟨some (tail p i'), some (tail p i')⟩) :
    Chained links p i' busy' h' where
  threw y hy := hc.threw y ((hnew _ hy).resolve_right (by simp))
  raised y hy := hc.raised y ((hnew _ hy).resolve_right (by simp))
  inner j l hl hn k hk := by
    rw [hfut, if_neg (hx j l hl k hk)]
    exact hc.inner j l hl (fun ⟨st, hst⟩ => hn ⟨st, hlog hst⟩) k hk
  returned j l w hl hw := by
    obtain ⟨n, st, r, hcalled, hreg, hr, hhow⟩ :=
      hc.returned j l w hl ((hnew _ hw).resolve_right (by simp))
    exact ⟨n, st, r, hlog hcalled, hlog hreg, hr, hhow⟩
  le := hle
  next := hnext
  free k hk := by
    rw [hfut, if_neg (hfree k hk).1]
    exact hc.free k (hfree k hk).2
  last hb := by
    rw [hfut, if_pos (hlast hb).1, (hlast hb).2]

section Plan

variable (root : Given V) (links : List (Link V))

lemma stages_getElem? (i : ℕ) :
    (stages links)[i]? = (links[i]?).map (Link.stage (firstInner links i)) := by
  rw [stages, List.getElem?_mapIdx]

lemma stages_length : (stages links).length = links.length := by
  rw [stages, List.length_mapIdx]

lemma tail_lt {p : ℕ} (hp : 0 < p) (i : ℕ) : tail p i < p + i := by
  cases i with
  | zero => simpa [tail] using hp
  | succ i => simp only [tail]; omega

variable {root links}

lemma Chained.passive {s : Stage V} (hs : s ∈ stages links) (x : Handle) : (s.code x).Passive := by
  obtain ⟨i, hi⟩ := List.getElem?_of_mem hs
  rw [stages_getElem?, Option.map_eq_some_iff] at hi
  obtain ⟨l, -, rfl⟩ := hi
  exact l.func.passive x _

/-- The next call of `then` uses up the last future of the chain. -/
lemma Chained.registered {p i : ℕ} (hc : Chained links p i false h)
    (hp : firstInner links links.length ≤ p) (hi : i < links.length) (e : Option ℕ) :
    Chained links p i true
      ((h.registered (tail p i)).setFuture (.handle (.named (tail p i))) ⟨none, e⟩) := by
  have hlt := tail_lt (Nat.lt_of_lt_of_le (Nat.succ_pos _) hp) i
  have hne : ∀ j l, links[j]? = some l → ∀ k ∈ innerFutures (firstInner links j) l.inner,
      k ≠ tail p i := by
    intro j l hl k hk
    have hk := lt_of_mem_innerFutures hl hk
    exact ne_tail hk.1 (Nat.lt_of_lt_of_le hk.2 hp) i
  refine hc.setLast (o := ⟨none, e⟩) hi (congrArg (· + 1) hc.next) hne (fun k => ?_)
    (List.subset_cons_self _ _) (fun e' he' => ?_) (fun k hk => ?_) (by simp)
  · rw [Heap.setFuture, Table.set_apply, Heap.registered_handle]
    simp
  · exact (List.mem_cons.mp he').elim (fun heq => Or.inr ⟨_, _, heq⟩) Or.inl
  · omega

/-- The future that `then` returns is the last one of the chain. -/
lemma Chained.declared {p i : ℕ} (hc : Chained links p i true h)
    (hp : firstInner links links.length ≤ p) (hi : i < links.length) :
    Chained links p (i + 1) false
      (h.setFuture (.handle (.named (p + i))) ⟨some (p + i), some (p + i)⟩) := by
  refine hc.setLast (x := p + i) hi hc.next (fun j l hl k hk => ?_) (fun k => ?_)
    (List.Subset.refl _) (fun e he => Or.inl he) (fun k hk => ?_) fun _ => ⟨rfl, rfl⟩
  · have hk := lt_of_mem_innerFutures hl hk
    omega
  · rw [Heap.setFuture, Table.set_apply]
    simp [tail]
  · omega

lemma Chained.start {p : ℕ} (hp : firstInner links links.length ≤ p) (hnext : h.next = p)
    (hlog : h.log = [])
    (hfut : ∀ k, h.futures (.handle (.named k)) = if k < p then some ⟨some k, some k⟩ else none) :
    Chained links p 0 false h := by
  have hpos : 0 < p := Nat.lt_of_lt_of_le (Nat.succ_pos _) hp
  refine ⟨by simp [hlog], by simp [hlog], fun j l hl _ k hk => ?_, by simp [hlog], Nat.zero_le _,
    hnext, fun k hk => ?_, fun _ => ?_⟩
  · have hk := lt_of_mem_innerFutures hl hk
    rw [hfut, if_pos (by omega)]
  · rw [hfut, if_neg (by omega)]
  · rw [hfut, if_pos (by simp only [tail]; omega)]

lemma Chained.func {i p : ℕ} {s : Stage V} (hs : (stages links)[i]? = some s) :
    ∃ j l, links[j]? = some l ∧ p + i = p + j ∧
      (⟨s.kind, s.code⟩ : Stage V) = l.stage (firstInner links j) := by
  rw [stages_getElem?, Option.map_eq_some_iff] at hs
  obtain ⟨l, hl, rfl⟩ := hs
  exact ⟨i, l, hl, rfl, rfl⟩

variable (root links)

lemma first_le : firstInner links links.length ≤ (promises root links).length :=
  Nat.le_of_eq (length_promises root links).symm

/-- The chain goes as planned. -/
def chainPlan : Plan (promises root links) (stages links) where
  blind := (Chained.client links (promises root links).length 0 false).blind
  rest i := Chained.client links (promises root links).length i false
  busy i := Chained.client links (promises root links).length i true
  bound := (promises root links).length + links.length
  rest_blind _ := rfl
  busy_blind _ := rfl
  misuse := id
  copyThrows := id
  func _ _ hs := Chained.func hs
  passive _ hs x := Chained.passive hs x
  calls _ hfuel i := ⟨Chained.callSpec (first_le root links) hfuel i false,
    Chained.callSpec (first_le root links) hfuel i true⟩
  threw_rest _ _ hc := hc.threw
  threw_busy _ _ hc := hc.threw
  raised _ _ _ hx hc := hc.note_raised hx
  next _ _ _ hc := hc.next
  last _ _ hc := hc.last rfl
  free _ _ hc := hc.free _ (Nat.le_refl _)
  registered _ _ e hi hc :=
    hc.registered (first_le root links) (stages_length links ▸ hi) e
  declared _ _ hi hc := hc.declared (first_le root links) (stages_length links ▸ hi)
  start _ hnext hlog hfut := Chained.start (first_le root links) hnext hlog hfut

end Plan

/-! ## Results -/

/-- What the function with the successor `m` has been called with. -/
def Heap.calls (h : Heap V) (m : ℕ) : List (Option (Stored V)) :=
  h.log.filterMap fun e =>
    match e with
    | .called m' st => if m' = m then some st else none
    | _ => none

lemma Chronicle.calls_eq (hl : Chronicle h) {m : ℕ} {st : Option (Stored V)}
    (hc : .called m st ∈ h.log) : h.calls m = [st] := by
  have hmem : ∀ st', st' ∈ h.calls m → st' = st := by
    intro st' hst'
    obtain ⟨e, he, heq⟩ := List.mem_filterMap.mp hst'
    cases e with
    | called m' st'' =>
      simp only at heq
      split at heq
      · next hm =>
        cases heq
        subst hm
        have hev := hl.eq_of_key he hc rfl rfl
        cases hev
        rfl
      · cases heq
    | _ => cases heq
  -- two calls for one successor would have the same key
  have hlen : (h.calls m).length ≤ 1 := by
    rw [Heap.calls, List.length_filterMap_eq_countP]
    refine hl.countP_le_one (k := .called m) fun e he => ?_
    cases e with
    | called m' st' =>
      simp only [Option.isSome_ite] at he
      rw [he]
      rfl
    | _ => cases he
  have hin : st ∈ h.calls m := List.mem_filterMap.mpr ⟨_, hc, by simp⟩
  rcases hcalls : h.calls m with _ | ⟨st', _ | ⟨_, _⟩⟩
  · rw [hcalls] at hin
    cases hin
  · rw [hmem st' (by rw [hcalls]; simp)]
  · rw [hcalls] at hlen
    simp at hlen

section Results

variable {root : Given V} {links : List (Link V)}

/-- A future of the chain is ready with what it is to be ready with. -/
structure Ready (root : Given V) (links : List (Link V)) (h : Heap V) (i : ℕ) : Prop where
  shared : h.shared (tail (promises root links).length i) = some (argument root links i)
  fulfilled : h.Fulfilled (tail (promises root links).length i)

/-- The first future of the chain is ready. -/
lemma Ready.zero (hf : (chainPlan root links).Finished h) : Ready root links h 0 := by
  obtain ⟨done, ha, hdone⟩ := hf
  have hmem : .fulfilled 0 root.stored ∈ h.log :=
    ha.fulfilled 0 (hdone 0 (Nat.succ_pos _)) root rfl
  exact ⟨ha.inv.core.chronicle.backed _ hmem, root.stored, hmem⟩

/-- The function of a link has been called with what its predecessor was ready with. -/
lemma Ready.called {i : ℕ} (hr : Ready root links h i) (hf : (chainPlan root links).Finished h)
    (hi : i < links.length) :
    .called ((promises root links).length + i) (some (argument root links i)) ∈ h.log := by
  obtain ⟨done, ha, -⟩ := hf
  exact ha.called (ha.registered i (by rwa [stages_length])) hr.shared hr.fulfilled

/-- The next future of the chain is ready, too. -/
lemma Ready.succ {i : ℕ} (hr : Ready root links h i) (hf : (chainPlan root links).Finished h)
    (hi : i < links.length) : Ready root links h (i + 1) := by
  have hcalled := hr.called hf hi
  obtain ⟨done, ha, hdone⟩ := hf
  have hch := ha.inv.core.chronicle
  have hl := List.getElem?_eq_getElem hi
  generalize links[i] = l at hl
  -- it is enough that the promise of the successor has been fulfilled
  suffices hmem : .fulfilled ((promises root links).length + i) (argument root links (i + 1)) ∈
      h.log from ⟨hch.backed _ hmem, _, hmem⟩
  have hreg := ha.registered i (by rwa [stages_length])
  obtain ⟨w, hw⟩ := ha.returned_of_called hcalled
  obtain ⟨n, st, r, hcalled', hreg', hres, rfl⟩ := ha.inv.client.returned i l w hl hw
  have heq := hch.eq_of_key hcalled hcalled' rfl rfl
  have heq' := hch.eq_of_key hreg hreg' rfl rfl
  cases heq
  cases heq'
  rw [argument_result, Option.some.injEq] at hres
  subst hres
  rw [argument, outcome_succ root links hl]
  refine ha.passesOn id ha.inv.client.threw hw ?_
  -- at once, by the future that the function was called with, or by a future of its own
  rcases l.func.how_cases l.inner (outcome root links i) (tail (promises root links).length i)
    (firstInner links i) with hset | ⟨hhow, hnext⟩ | ⟨c, g, hg, hhow, hnext⟩
  · exact Or.inl hset
  · rw [hnext]
    exact Or.inr ⟨_, _, hhow, hr.shared, hr.fulfilled, argument_result root links i⟩
  · rw [hnext]
    have hprom := promises_getElem? root hl hg
    have hlt := (List.getElem?_eq_some_iff.mp hprom).1
    have hinner : .fulfilled (firstInner links i + c) g.stored ∈ h.log :=
      ha.fulfilled _ (hdone _ hlt) g hprom
    exact Or.inr ⟨_, _, hhow, hch.backed _ hinner, ⟨_, hinner⟩, g.stored_result⟩

lemma Plan.Finished.ready (hf : (chainPlan root links).Finished h) {i : ℕ}
    (hi : i ≤ links.length) : Ready root links h i := by
  induction i with
  | zero => exact .zero hf
  | succ i ih => exact (ih (Nat.le_of_lt hi)).succ hf hi

/-- A chain has come to its end: each function has been called once, with what the functions before
it come to, each successor has been fulfilled, and there is nothing left to do. -/
structure Evaluated (root : Given V) (links : List (Link V)) (h : Heap V) : Prop where
  called : ∀ i < links.length,
    h.calls ((promises root links).length + i) = [some (argument root links i)]
  passedOn : ∀ i < links.length,
    .fulfilled ((promises root links).length + i) (argument root links (i + 1)) ∈ h.log
  idle : h.held = []
  returned : ∀ m, ¬ h.Running m
  invoked : ∀ s c, (h.states s).continuation = some c → h.Started c.promise

lemma Plan.Finished.evaluated (hf : (chainPlan root links).Finished h) (f : FutureLoc)
    (o : FutureObj) : Evaluated root links (h.setFuture f o) := by
  have hready := fun i (hi : i ≤ links.length) => hf.ready hi
  have hcalled := fun i (hi : i < links.length) => (hready i (Nat.le_of_lt hi)).called hf hi
  obtain ⟨done, ha, hdone⟩ := hf
  have hcore := ha.inv.core
  refine ⟨fun i hi => hcore.chronicle.calls_eq (hcalled i hi), fun i hi => ?_, ha.idle,
    ha.returned, fun s c hc => ?_⟩
  · obtain ⟨hsh, st, hst⟩ := hready (i + 1) hi
    have hbacked : h.shared _ = some st := hcore.chronicle.backed _ hst
    rw [hsh] at hbacked
    cases hbacked
    exact hst
  · -- a continuation that has not been invoked has a successor that is not ready
    by_contra hnot
    have hnone := (hcore.conts.holds s c hc hnot).2
    have hlt := hcore.conts.lt s c hc
    have hnext : h.next = (promises root links).length + links.length := by
      rw [← stages_length links]
      exact ha.inv.client.next
    rw [hnext] at hlt
    by_cases hp : c.node < (promises root links).length
    · have hmem := ha.fulfilled _ (hdone _ hp) _ (List.getElem?_eq_getElem hp)
      have hbacked : h.shared c.node = some _ := hcore.chronicle.backed _ hmem
      rw [hnone] at hbacked
      cases hbacked
    · obtain ⟨i, hi⟩ := Nat.exists_eq_add_of_le (Nat.le_of_not_lt hp)
      have hsh := (hready (i + 1) (by omega)).shared
      rw [tail, ← hi, hnone] at hsh
      cases hsh

/-- Whatever the schedule, the program returns the result of the last future of the chain. -/
lemma run_evaluated {σ : List Move} (hσ : Complete (promises root links) (stages links) σ)
    {fuel : ℕ} (hfuel : 2 * ((promises root links).length + links.length) < fuel) :
    ∃ h, runMain (fun _ => none) fuel (chain root links σ) =
      .ok (outcome root links links.length) h ∧ Evaluated root links h := by
  have hready : ∀ h, (chainPlan root links).Finished h → ∃ st,
      h.shared (tail (promises root links).length (stages links).length) = some st ∧
        st.result = some (outcome root links links.length) := by
    intro h hf
    rw [stages_length]
    exact ⟨_, (hf.ready (Nat.le_refl _)).shared, argument_result _ _ _⟩
  obtain ⟨h, f, o, hrun, hf⟩ := (chainPlan root links).run hfuel hσ hready
  exact ⟨_, hrun, hf.evaluated f o⟩

/-- Whatever the schedule, the program returns the result of the last future of the chain, and
every function has been called once. -/
theorem run_chain {σ : List Move} (hσ : Complete (promises root links) (stages links) σ)
    {fuel : ℕ} (hfuel : 2 * ((promises root links).length + links.length) < fuel) :
    ∃ h, runMain (fun _ => none) fuel (chain root links σ) =
        .ok (outcome root links links.length) h ∧
      ∀ i < links.length, h.calls ((promises root links).length + i) =
        [some (argument root links i)] := by
  obtain ⟨h, hrun, hev⟩ := run_evaluated hσ hfuel
  exact ⟨h, hrun, hev.called⟩

/-- **Confluence.**  Wherever the promises are fulfilled, each function of the chain is called
once, with the same outcome, and the last future has the same result, as when all promises are
fulfilled before the chain is built. -/
theorem chain_confluent {env : ℕ → Option Exn} (henv : ∀ k, env k = none) {σ : List Move}
    (hσ : Complete (promises root links) (stages links) σ) {fuel : ℕ}
    (hfuel : 2 * ((promises root links).length + links.length) < fuel) :
    ∃ r h h₀, runMain env fuel (chain root links σ) = .ok r h ∧
      runMain env fuel (chain root links (fulfilFirst (promises root links) (stages links))) =
        .ok r h₀ ∧
      ∀ i < links.length, ∃ st, h.calls ((promises root links).length + i) = [some st] ∧
        h₀.calls ((promises root links).length + i) = [some st] := by
  obtain rfl : env = fun _ => none := funext henv
  obtain ⟨h, hrun, hcalls⟩ := run_chain hσ hfuel
  have hfirst : Complete (promises root links) (stages links)
      (fulfilFirst (promises root links) (stages links)) := List.Perm.refl _
  obtain ⟨h₀, hrun₀, hcalls₀⟩ := run_chain hfirst hfuel
  exact ⟨_, h, h₀, hrun, hrun₀, fun i hi => ⟨_, hcalls i hi, hcalls₀ i hi⟩⟩

/-- A chain of four functions, one of each kind: the first takes the result of its argument and
returns the first of its inner futures for an error and the second for a value, and the others
return a result, a value, and nothing but an exception. -/
def fourLinks : List (Link ℕ) :=
  [⟨.future, .look .get fun s =>
      match s with
      | .ok _ => .ret (.inner 1)
      | .error _ => .ret (.inner 0), [.value (some 1) .lvalue, .exception .std (by decide)]⟩,
    ⟨.result, .look .getResult fun s =>
      match s with
      | .ok (.result r) => .ret r
      | _ => .ret (.ok none), []⟩,
    ⟨.value, .ret (7 : ℕ), []⟩,
    ⟨.void, .look .get fun s =>
      match s with
      | .ok _ => .throw .std (by decide)
      | .error _ => .ret (), []⟩]

theorem chain_confluent_fourLinks :
    ∃ r h h₀, runMain (fun _ => none) 15 (chain (.value (some 3) .lvalue) fourLinks
        [.attach, .fulfil 1, .attach, .fulfil 0, .attach, .attach, .fulfil 2]) = .ok r h ∧
      runMain (fun _ => none) 15 (chain (.value (some 3) .lvalue) fourLinks
        (fulfilFirst (promises (.value (some 3) .lvalue) fourLinks) (stages fourLinks))) =
          .ok r h₀ ∧
      ∀ i < 4, ∃ st, h.calls (3 + i) = [some st] ∧ h₀.calls (3 + i) = [some st] :=
  chain_confluent (fun _ => rfl) (by decide) (by decide)

/-- **Evaluation.**  Whatever the schedule, the program returns what the functions come to one after
the other, each is called once with what those before it come to, and no continuation is left
that has not been invoked. -/
theorem chain_evaluates {env : ℕ → Option Exn} (henv : ∀ k, env k = none) {σ : List Move}
    (hσ : Complete (promises root links) (stages links) σ) {fuel : ℕ}
    (hfuel : 2 * ((promises root links).length + links.length) < fuel) :
    ∃ h, runMain env fuel (chain root links σ) =
      .ok (links.foldl (fun r l => l.func.next (l.inner.map Given.result) r) root.result) h ∧
      Evaluated root links h := by
  obtain rfl : env = fun _ => none := funext henv
  obtain ⟨h, hrun, hev⟩ := run_evaluated hσ hfuel
  rw [outcome, List.take_length] at hrun
  exact ⟨h, hrun, hev⟩

theorem chain_evaluates_fourLinks :
    ∃ h, runMain (fun _ => none) 15 (chain (.value (some 3) .lvalue) fourLinks
        [.attach, .fulfil 1, .attach, .fulfil 0, .attach, .attach, .fulfil 2]) =
          .ok (.error FutureErrc.brokenPromise.toErrorCode) h ∧
      Evaluated (.value (some 3) .lvalue) fourLinks h := by
  have hσ : Complete (promises (.value (some 3) .lvalue) fourLinks) (stages fourLinks)
      [.attach, .fulfil 1, .attach, .fulfil 0, .attach, .attach, .fulfil 2] := by decide
  have hfuel : 2 * ((promises (.value (some 3) .lvalue) fourLinks).length + fourLinks.length) <
      15 := by decide
  exact chain_evaluates (fun _ => rfl) hσ hfuel

end Results

end AraCore.Future
