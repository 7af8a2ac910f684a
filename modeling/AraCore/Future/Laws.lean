/-
# The laws of `then`

For functions that return valid futures, `then` obeys the laws of a monad: with the function that
returns its argument it yields the outcome of the future, on a ready future it yields what the
function yields, and two calls of `then` can be nested in either way.
-/
import AraCore.Future.Chain
import AraCore.Lib.Trace

namespace AraCore.Future

open Lib Comp

variable {V : Type} {h h' : Heap V} {C : Client V} {fuel i n : ℕ} {env : ℕ → Option Exn}
  {call : Cont V × FutureLoc → Code V Unit} {given : List (Given V)} {done : List ℕ}

/-! ## Functions that return valid futures -/

/-- The function returns a valid future and does not throw, if it has `w` inner promises. -/
def Func.Valid (w : ℕ) (f : Func V .future) : Prop :=
  ∀ r, (∃ c < w, (f.eval r true).1 = .ok (.inner c)) ∨ f.eval r true = (.ok .argument, true)

/-- The function that returns its argument. -/
def Func.same : Func V .future := .ret .argument

lemma Func.same_valid (w : ℕ) : (Func.same : Func V .future).Valid w := fun _ => Or.inr rfl

/-- A valid future that a function returns is that of one of its inner promises, or its
argument. -/
lemma Func.Valid.cases {f : Func V .future} {gs : List (Given V)} (hf : f.Valid gs.length)
    (r : Result V) (n k : ℕ) :
    (∃ c g, gs[c]? = some g ∧ (f.eval r true).1 = .ok (.inner c) ∧
      f.how r n (innerFutures k gs) = .inner (some (k + c)) ∧
      f.next (gs.map Given.result) r = g.result) ∨
    f.eval r true = (.ok .argument, true) ∧ f.how r n (innerFutures k gs) = .inner (some n) ∧
      f.next (gs.map Given.result) r = r := by
  rcases hf r with ⟨c, hc, heval⟩ | heval
  · have hg := List.getElem?_eq_getElem hc
    refine Or.inl ⟨c, _, hg, heval, ?_⟩
    rcases hcase : f.eval r true with ⟨x, b⟩
    rw [hcase] at heval
    cases heval
    simp [how, next, hcase, Kind.how, Kind.outcome, innerFutures_getElem? hg, hg]
  · exact Or.inr ⟨heval, by simp [how, heval, Kind.how], by simp [next, heval, Kind.outcome]⟩

/-! ## Programs in sequence -/

/-- `p`, and then `k` with what it returns. -/
def Prog.bind {κ' : Kind} : {κ : Kind} → Prog V κ → (κ.Ret V → Prog V κ') → Prog V κ'
  | _, .ret r, k => k r
  | _, .throw x, _ => .throw x
  | _, .act a p, k => .act a fun s => (p s).bind k
  | _, .thenCall f κ func next p, k => .thenCall f κ func next fun s => (p s).bind k

lemma wp_runProg_bind {κ κ' : Kind} (p : Prog V κ) (k : κ.Ret V → Prog V κ')
    {Q : Post (Heap V) Exn Fault (κ'.Ret V)} :
    wp (runProg env call (p.bind k)) Q h ↔
      wp (runProg env call p) ⟨fun r h' => wp (runProg env call (k r)) Q h', Q.throw, Q.stop⟩
        h := by
  induction p generalizing h with
  | ret r => rfl
  | throw x => rfl
  | act a p ih => simp only [Prog.bind, runProg, wp_bind, ih]
  | thenCall f κ func next p _ ih => simp only [Prog.bind, runProg, wp_bind, ih]

lemma Prog.Passive.bind {κ κ' : Kind} {p : Prog V κ} {k : κ.Ret V → Prog V κ'} (hp : p.Passive)
    (hk : ∀ r, (k r).Passive) : (p.bind k).Passive := by
  induction p with
  | ret r => exact hk r
  | throw x => trivial
  | act a p ih => exact ⟨hp.1, fun r => ih r (hp.2 r) hk⟩
  | thenCall f κ func next p _ ih => exact ⟨trivial, hp.2.1, fun r => ih r (hp.2.2 r) hk⟩

/-! ## A function that is called directly -/

/-- The result of the future that a function has returned. -/
def finishAt (y : Handle) : Prog V .result :=
  .act (.getResult y) fun s =>
    match s with
    | .ok (.result r) => .ret r
    | _ => .throw .std

section Applied

variable (given : List (Given V)) (f : Func V .future) (js : List ℕ)

/-- The rest of a program that calls `f` on the first future instead of passing it to `then`: `y`
is what it has returned. -/
def applied : Option Handle → List Move → Prog V .result
  | none, [] => .ret (.error FutureErrc.noState.toErrorCode)
  | some y, [] => finishAt y
  | _, .attach :: σ => (f.code (.named 0) js).bind fun y => applied y σ
  | y, .fulfil k :: σ =>
    match given[k]? with
    | none => applied y σ
    | some g => .act (g.act k) fun _ => applied y σ

end Applied

/-- The program that calls `f` on the first future, and returns the result of the future that `f`
returns: the promises are fulfilled with `root` and, for `f`, with `inner`. -/
def direct (root : Given V) (inner : List (Given V)) (f : Func V .future) (σ : List Move) :
    Prog V .result :=
  prepare (root :: inner).length 0 (applied (root :: inner) f (innerFutures 1 inner) none σ)

/-- The variables of a program that passes no function to `then`. -/
structure Keeping (p : ℕ) (o : ℕ → FutureObj) (h : Heap V) : Prop where
  threw : ∀ x, .threw x ∈ h.log → x.IsStd
  raised : ∀ x, .raised x ∈ h.log → x.IsStd
  next : h.next = p
  futures : ∀ k < p, h.futures (.handle (.named k)) = some (o k)

/-- No functions are passed to `then`. -/
def Keeping.client (p : ℕ) (o : ℕ → FutureObj) : Client V where
  J := Keeping p o
  quiet h h' hv hk := by
    refine ⟨fun x hx => hk.threw x ((Heap.mem_of_view hv rfl).mp hx),
      fun x hx => hk.raised x ((Heap.mem_of_view hv rfl).mp hx),
      (congrArg View.next hv).trans hk.next, fun k hlt => ?_⟩
    exact (congrFun (congrArg View.futures hv) k).trans (hk.futures k hlt)
  called h m st hk := ⟨fun x hx => hk.threw x ((Heap.mem_note (by simp)).mp hx),
    fun x hx => hk.raised x ((Heap.mem_note (by simp)).mp hx), hk.next, hk.futures⟩
  K _ _ _ := False
  misuse := False
  copyThrows := False

lemma Keeping.note_raised {p : ℕ} {o : ℕ → FutureObj} (hk : Keeping p o h) {x : Exn}
    (hx : x.IsStd) : Keeping p o (h.note (.raised x)) := by
  refine ⟨fun y hy => hk.threw y ((Heap.mem_note (by simp)).mp hy), fun y hy => ?_, hk.next,
    hk.futures⟩
  rcases List.mem_cons.mp hy with heq | hy
  · cases heq
    exact hx
  · exact hk.raised y hy

lemma Keeping.callSpec {p : ℕ} (hfuel : 2 * p < fuel) (o : ℕ → FutureObj) :
    CallSpec (Keeping.client p o) fuel fuel
      ((invokeStep fun _ => none)^[fuel] (watched (V := V))) := by
  refine callSpec_iterate (C := fun o => Keeping.client p o) (fun o => ?_)
    (fun _ => copies_succeed) (fun k call _ o m κ func hK => hK.elim) fuel o
  exact callSpec_watched (fun h hk => Nat.le_of_eq hk.next) hfuel

/-- A promise is fulfilled while no function is attached. -/
lemma AtRest.wp_fulfil_keeping {o : ℕ → FutureObj} (hfuel : 2 * given.length < fuel)
    (ha : AtRest (Keeping.client given.length o) given 0 done h) {k : ℕ} {g : Given V}
    (hg : given[k]? = some g) (hk : k ∉ done) :
    wp (perform (fun _ => none) ((invokeStep fun _ => none)^[fuel] watched) (g.act k))
      ⟨fun _ h' => AtRest (Keeping.client given.length o) given 0 (k :: done) h',
        fun _ _ => False, fun _ _ => False⟩ h :=
  ha.wp_fulfil (Keeping.callSpec hfuel o) (unharmful_iterate fuel) id id (fun _ hk => hk.threw)
    (fun _ _ hx hk => hk.note_raised hx) hg hk

/-- A variable of the program gives its result away. -/
lemma AtRest.setFuture {C' : Client V} (ha : AtRest C given i done h) (hb : C'.blind = C.blind)
    (f : FutureLoc) (e : Option ℕ) (hJ : C'.J (h.setFuture f ⟨none, e⟩)) :
    AtRest C' given i done (h.setFuture f ⟨none, e⟩) where
  inv := by
    have hblind : Inv C'.blind none h := hb ▸ ha.inv.blind
    exact (hblind.setFuture_none f e trivial).of_blind hJ
  idle := ha.idle
  returned := ha.returned
  sane := ha.sane
  passive := ha.passive
  registered := ha.registered
  fulfilled := ha.fulfilled
  unfulfilled k hlt hk :=
    have hsole := (ha.unfulfilled k hlt hk).1
    ⟨⟨hsole.holds, hsole.only, hsole.lt⟩, (ha.unfulfilled k hlt hk).2⟩

/-- A promise is ready with what it has been fulfilled with. -/
lemma AtRest.ready (ha : AtRest C given i done h) {k : ℕ} {g : Given V} (hk : k ∈ done)
    (hg : given[k]? = some g) : h.shared k = some g.stored :=
  ha.inv.core.chronicle.backed _ (ha.fulfilled k hk g hg)

section Applied

variable {f : Func V .future} {o : ℕ → FutureObj} {σ : List Move} {root : Given V}
  {inner : List (Given V)} {js : List ℕ}

/-- When `f` has returned the future of the `j`-th promise, the program returns the result of this
promise in the end. -/
lemma wp_applied_some (hfuel : 2 * given.length < fuel) {j : ℕ} {g : Given V}
    (hg : given[j]? = some g) (ho : o j = .of j true) (hattach : .attach ∉ σ)
    (hfulfil : (done ++ σ.filterMap Move.fulfilled).Perm (List.range given.length))
    (ha : AtRest (Keeping.client given.length o) given 0 done h) :
    wp (runProg (fun _ => none) ((invokeStep fun _ => none)^[fuel] watched)
      (applied given f js (some (.named j)) σ))
      ⟨fun r _ => r = g.result, fun _ _ => False, fun _ _ => False⟩ h := by
  have hj : j < given.length := (List.getElem?_eq_some_iff.mp hg).1
  induction σ generalizing done h with
  -- all promises are fulfilled, so that the result is there
  | nil =>
    have hmem : j ∈ done := by simpa using hfulfil.mem_iff.mpr (List.mem_range.mpr hj)
    have hfut := ha.inv.client.futures j hj
    rw [ho] at hfut
    exact wp_finish hfut (ha.ready hmem hg) g.stored_result rfl
  | cons a σ ih =>
    have hattach' : .attach ∉ σ := fun hmem => hattach (List.mem_cons_of_mem _ hmem)
    cases a with
    | attach => exact absurd List.mem_cons_self hattach
    | fulfil k =>
      have hfulfil : (done ++ k :: σ.filterMap Move.fulfilled).Perm _ := hfulfil
      obtain ⟨hnot, g', hg'⟩ := next_unfulfilled hfulfil
      simp only [applied, hg', runProg, wp_bind, wp_attempt]
      refine wp_mono (ha.wp_fulfil_keeping hfuel hg' hnot) ?_ (fun _ _ hf => hf.elim)
        fun _ _ hf => hf.elim
      exact fun _ h' ha' => ih hattach' (List.perm_middle.symm.trans hfulfil) ha'

/-- The futures of the program, of which `f` may have used the first one. -/
def looked (b : Bool) (k : ℕ) : FutureObj := .of k (if k = 0 then b else true)

lemma Keeping.use {p : ℕ} {b : Bool} (hk : Keeping p (looked b) h) :
    Keeping p (looked false) (h.setFuture (.handle (.named 0)) ⟨none, some 0⟩) := by
  refine ⟨hk.threw, hk.raised, hk.next, fun k hlt => ?_⟩
  rw [Heap.setFuture, Table.set_apply]
  by_cases hk0 : k = 0
  · simp [hk0, looked, FutureObj.of]
  · rw [if_neg (by simpa using hk0), hk.futures k hlt]
    simp [looked, hk0]

lemma AtRest.use {b : Bool}
    (ha : AtRest (Keeping.client given.length (looked b)) given i done h) :
    AtRest (Keeping.client given.length (looked false)) given i done
      (h.setFuture (.handle (.named 0)) ⟨none, some 0⟩) := by
  have hb : (Keeping.client given.length (looked false) : Client V).blind =
      (Keeping.client given.length (looked b)).blind := rfl
  exact ha.setFuture hb _ _ ha.inv.client.use

/-- The program calls `f` when the first promise is fulfilled. -/
lemma wp_applied (hgiven : given = root :: inner) (hfuel : 2 * given.length < fuel)
    (hf : f.Valid inner.length) (hattach : σ.count .attach = 1)
    (hready : 0 ∈ done ∨ Trace.Before (.fulfil 0) .attach σ)
    (hfulfil : (done ++ σ.filterMap Move.fulfilled).Perm (List.range given.length))
    (ha : AtRest (Keeping.client given.length (looked true)) given 0 done h) :
    wp (runProg (fun _ => none) ((invokeStep fun _ => none)^[fuel] watched)
      (applied given f (innerFutures 1 inner) none σ))
      ⟨fun r _ => r = f.next (inner.map Given.result) root.result, fun _ _ => False,
        fun _ _ => False⟩ h := by
  have hroot : given[0]? = some root := by rw [hgiven]; rfl
  have hlen : 0 < given.length := (List.getElem?_eq_some_iff.mp hroot).1
  induction σ generalizing done h with
  | nil => cases hattach
  | cons a σ ih =>
    cases a with
    | fulfil k =>
      have hfulfil : (done ++ k :: σ.filterMap Move.fulfilled).Perm _ := hfulfil
      -- a promise is fulfilled before the call, which is then still to come
      obtain ⟨hnot, g, hg⟩ := next_unfulfilled hfulfil
      simp only [applied, hg, runProg, wp_bind, wp_attempt]
      refine wp_mono (ha.wp_fulfil_keeping hfuel hg hnot) ?_ (fun _ _ hf => hf.elim)
        fun _ _ hf => hf.elim
      refine fun _ h' ha' => ih ?_ ?_ (List.perm_middle.symm.trans hfulfil) ha'
      · rwa [List.count_cons_of_ne (by simp)] at hattach
      · rcases hready with hmem | hbefore
        · exact Or.inl (List.mem_cons_of_mem _ hmem)
        · rcases Trace.before_cons.mp hbefore with heq | ⟨-, hbefore⟩
          · cases heq
            exact Or.inl List.mem_cons_self
          · exact Or.inr hbefore
    | attach =>
      rw [List.count_cons_self, Nat.add_eq_right, List.count_eq_zero] at hattach
      have hmem : 0 ∈ done := hready.resolve_right fun hbefore => by
        simpa using Trace.before_cons.mp hbefore
      have hfulfil : (done ++ σ.filterMap Move.fulfilled).Perm _ := hfulfil
      have hst := ha.ready hmem hroot
      have hx : h.futures (.handle (.named 0)) = some (.of 0 true) :=
        ha.inv.client.futures 0 hlen
      -- `f` looks at the first future, and may use it
      let P : Heap V → Prop := fun h' =>
        ∃ b, AtRest (Keeping.client given.length (looked b)) given 0 done h'
      have hP : ∀ h', P h' → P (h'.setFuture (.handle (.named 0)) ⟨none, some 0⟩) := by
        rintro h' ⟨_, ha'⟩
        exact ⟨false, ha'.use⟩
      rw [applied, wp_runProg_bind]
      refine wp_mono (wp_code root.stored_result hP f ⟨true, ha⟩ hx hst) ?_ ?_
        fun _ _ hf => hf.elim
      · rintro v h' ⟨e, b, heval, rfl, ⟨b', ha'⟩, hx'⟩
        -- a valid function returns a future of its own, or the one that it was called with
        rcases hf.cases root.result 0 1 with ⟨c, g, hg, hcase, -, hnext⟩ | ⟨hcase, -, hnext⟩
        · rw [heval] at hcase
          cases hcase
          have hgive : @Kind.give V (.named 0) (innerFutures 1 inner) .future (.inner c) =
              some (.named (1 + c)) :=
            congrArg (Option.map Handle.named) (innerFutures_getElem? hg)
          have hinner : given[1 + c]? = some g := by
            rw [hgiven, Nat.add_comm]
            exact hg
          have ho : looked b' (1 + c) = .of (1 + c) true := by
            rw [looked, if_neg (by omega)]
          rw [hnext, hgive]
          exact wp_applied_some hfuel hinner ho hattach hfulfil ha'
        · rw [heval] at hcase
          cases hcase
          rw [hnext]
          -- it has not used the future that it returns
          have hb := ha'.inv.client.futures 0 hlen
          rw [hx'] at hb
          have hb' : b' = true := by
            cases b'
            · simp [looked, FutureObj.of] at hb
            · rfl
          subst hb'
          exact wp_applied_some hfuel hroot rfl hattach hfulfil ha'
      · rintro z h' ⟨b, g, heval, -⟩
        rcases hf root.result with ⟨c, -, hcase⟩ | hcase <;> rw [heval] at hcase <;> cases hcase

/-- Whatever the schedule, the program returns the result of the future that `f` returns. -/
theorem run_direct (hfuel : 2 * (inner.length + 1) < fuel) (hf : f.Valid inner.length)
    {s : Stage V} (hσ : Complete (root :: inner) [s] σ)
    (hready : Trace.Before (.fulfil 0) .attach σ) :
    ∃ h, runMain (fun _ => none) fuel (direct root inner f σ) =
      .ok (f.next (inner.map Given.result) root.result) h := by
  have hrun : wp (runProg (fun _ => none) ((invokeStep fun _ => none)^[fuel] watched)
      (direct root inner f σ)) ⟨fun r _ => r = f.next (inner.map Given.result) root.result,
        fun _ _ => False, fun _ _ => False⟩ .initial := by
    refine wp_prepare _ (.initial : Prepared
      (Keeping.client (root :: inner).length (looked true)) 0 _) fun h hp => ?_
    rw [Nat.zero_add] at hp
    refine wp_applied rfl hfuel hf hσ.count (Or.inr hready) hσ.fulfilled
      (hp.atRest ⟨?_, ?_, hp.next, fun k hk => ?_⟩)
    · simp [hp.log]
    · simp [hp.log]
    · rw [hp.future, if_pos hk]
      simp [looked, FutureObj.of]
  obtain ⟨r, h, hr, rfl⟩ := runMain_of_wp hrun
  exact ⟨h, hr⟩

end Applied

end AraCore.Future
