/-
# Functions passed to `then`

Functions of the four kinds that look at the future they are called with, in any of the ways a
`Future` offers, and then return or throw.  A function that returns a future returns an invalid
one, its argument, or the future of one of its inner promises.  What such a function does, and
which inner promise it chooses, depends only on what its argument is ready with.
-/
import AraCore.Future.Passive
import AraCore.Future.Outcome

namespace AraCore.Future

open Lib Comp

variable {V : Type} {κ : Kind}

/-! ## Code -/

/-- How a function looks at its argument. -/
inductive Look where
  | valid
  | isReady
  | wait
  | getResult
  | get
deriving DecidableEq, Repr

def Look.act (x : Handle) : Look → Act V
  | valid => .valid x
  | isReady => .isReady x
  | wait => .wait x
  | getResult => .getResult x
  | get => .get x

/-- The future that a function returns: a default-constructed one, its argument, or that of the
`c`-th inner promise. -/
inductive Source where
  | invalid
  | argument
  | inner (c : ℕ)
deriving DecidableEq, Repr

/-- What a function of the kind may return. -/
def Kind.End (V : Type) : Kind → Type
  | future => Source
  | result => Result V
  | value => V
  | void => Unit

/-- The value returned by a function with the argument `x` whose inner futures are in the variables
`js`. -/
def Kind.give (x : Handle) (js : List ℕ) : {κ : Kind} → κ.End V → κ.Ret V
  | future, .invalid => (none : Option Handle)
  | future, .argument => some x
  | future, .inner c => (js[c]?).map Handle.named
  | result, r => r
  | value, v => v
  | void, u => u

/-- A function that looks at its argument, and then returns or throws what is derived from
`std::exception`. -/
inductive Func (V : Type) (κ : Kind) where
  | ret (e : κ.End V)
  | throw (x : Exn) (hx : x.IsStd)
  | look (a : Look) (k : Except Exn (Resp V) → Func V κ)

namespace Func

/-- The code of the function. -/
def code (x : Handle) (js : List ℕ) : Func V κ → Prog V κ
  | ret e => .ret (κ.give x js e)
  | throw z _ => .throw z
  | look a k => .act (a.act x) fun s => (k s).code x js

lemma passive (f : Func V κ) (x : Handle) (js : List ℕ) : (f.code x js).Passive := by
  induction f with
  | ret e => trivial
  | throw z hz => trivial
  | look a k ih => exact ⟨by cases a <;> trivial, ih⟩

end Func

/-! ## Meaning -/

/-- What a look at a future returns or throws that is ready with the result `r`, or is not valid
any more. -/
def Look.answer (r : Result V) : Bool → Look → Except Exn (Resp V) × Bool
  | b, valid => (.ok (.bool b), b)
  | true, isReady => (.ok (.bool true), true)
  | true, wait => (.ok .unit, true)
  | false, isReady | false, wait => (.error (stdError .noState), false)
  | true, getResult => (.ok (.result r), false)
  | false, getResult => (.ok (.result (.error FutureErrc.noState.toErrorCode)), false)
  | true, get =>
    match r with
    | .ok v => (.ok (.value v), false)
    | .error e => (.error (.ara e), false)
  | false, get => (.error (.ara FutureErrc.noState.toErrorCode), false)

namespace Func

/-- What the function returns or throws for the result `r`, and whether its argument is still
valid then. -/
def eval (r : Result V) : Bool → Func V κ → Except Exn (κ.End V) × Bool
  | b, ret e => (.ok e, b)
  | b, throw z _ => (.error z, b)
  | b, look a k => (k (a.answer r b).1).eval r (a.answer r b).2

end Func

/-- How a function has ended whose argument was the future of the shared state `n`, and is valid
if `b` says so, and whose inner futures are those of `js`. -/
def Kind.how (n : ℕ) (js : List ℕ) (b : Bool) : {κ : Kind} → κ.End V → How V
  | future, .invalid => .inner none
  | future, .argument => .inner (if b then some n else none)
  | future, .inner c => .inner js[c]?
  | result, .ok v => .value v
  | result, .error e => .error e
  | value, v => .value (some v)
  | void, _ => .value none

/-- The result that a function of the kind passes on, if its argument has the result `r` and is
valid if `b` says so, and its inner futures have the results `ss`. -/
def Kind.outcome (r : Result V) (ss : List (Result V)) (b : Bool) : {κ : Kind} → κ.End V → Result V
  | future, .invalid => .error FutureErrc.brokenPromise.toErrorCode
  | future, .argument => if b then r else .error FutureErrc.brokenPromise.toErrorCode
  | future, .inner c => (ss[c]?).getD (.error FutureErrc.brokenPromise.toErrorCode)
  | result, x => x
  | value, v => .ok (some v)
  | void, _ => .ok none

namespace Func

/-- How the function ends. -/
def how (f : Func V κ) (r : Result V) (n : ℕ) (js : List ℕ) : How V :=
  match f.eval r true with
  | (.ok e, b) => κ.how n js b e
  | (.error z, _) => .threw z

/-- The result of the future that `then` returns for the function, if that of its argument is `r`
and those of its inner futures are `ss`. -/
def next (f : Func V κ) (ss : List (Result V)) (r : Result V) : Result V :=
  match f.eval r true with
  | (.ok e, b) => κ.outcome r ss b e
  | (.error z, _) => .error (z.passedOn.getD invalidArgument)

/-- What a function throws is derived from `std::exception`, or comes from `get`. -/
lemma isStd_of_eval {f : Func V κ} {r : Result V} {b b' : Bool} {z : Exn}
    (hz : f.eval r b = (.error z, b')) : z.IsStd := by
  induction f generalizing b with
  | ret e => cases hz
  | throw x hx =>
    cases hz
    exact hx
  | look a k ih => exact ih _ hz

end Func

/-! ## The code does what the meaning says -/

variable {h : Heap V} {C : Client V} {fuel k m n : ℕ} {js : List ℕ} {env : ℕ → Option Exn}
  {call : Cont V × FutureLoc → Code V Unit} {x : Handle} {st : Stored V} {r : Result V}

/-- The future of the shared state `n`, which is valid if `b` says so. -/
def FutureObj.of (n : ℕ) (b : Bool) : FutureObj := ⟨if b then some n else none, some n⟩

section Code

variable {P : Heap V → Prop} (hr : st.result = some r)
  (hP : ∀ g, P g → P (g.setFuture (.handle x) ⟨none, some n⟩))

include hr hP

/-- A look at the argument; what the code relies on is kept if it is when the argument gives its
result away. -/
lemma wp_look (a : Look) {b : Bool} (hPh : P h) (ho : h.futures (.handle x) = some (.of n b))
    (hst : h.shared n = some st) :
    wp (attempt (perform env call (a.act x))) ⟨fun s h' => s = (a.answer r b).1 ∧ P h' ∧
      h'.futures (.handle x) = some (.of n (a.answer r b).2) ∧ h'.shared n = some st,
      fun _ _ => False, fun _ _ => False⟩ h := by
  have hset : (h.setFuture (.handle x) ⟨none, some n⟩).futures (.handle x) =
      some (.of n false) := by
    simp [Heap.setFuture, FutureObj.of]
  rw [wp_attempt]
  cases a with
  | valid =>
    simp only [Look.act, perform, wp_bind, wp_future ho, wp_pure]
    cases b <;> exact ⟨rfl, hPh, ho, hst⟩
  | isReady =>
    simp only [Look.act, perform, isReady, wp_bind, wp_future ho]
    cases b with
    | false => exact ⟨rfl, hPh, ho, hst⟩
    | true =>
      simp only [FutureObj.of, if_true, wp_bind, wp_get, wp_pure, hst]
      exact ⟨rfl, hPh, ho, trivial⟩
  | wait =>
    simp only [Look.act, perform, wait, isReady, wp_bind, wp_future ho]
    cases b with
    | false => exact ⟨rfl, hPh, ho, hst⟩
    | true =>
      simp only [FutureObj.of, if_true, wp_bind, wp_get, wp_pure, hst, Option.isSome_some]
      exact ⟨rfl, hPh, ho, trivial⟩
  | getResult =>
    cases b with
    | false =>
      simp only [Look.act, perform, getResult, wp_bind, wp_future ho]
      exact ⟨rfl, hPh, ho, hst⟩
    | true =>
      simp only [Look.act, perform, wp_bind]
      refine wp_getResult ho rfl hst (fun r' hr' => ?_) fun hnone => ?_
      · obtain rfl : r = r' := Option.some.inj (hr.symm.trans hr')
        exact ⟨rfl, hP h hPh, hset, hst⟩
      · rw [hr] at hnone
        cases hnone
  | get =>
    cases b with
    | false =>
      simp only [Look.act, perform, getValue, getResult, wp_bind, wp_future ho]
      exact ⟨rfl, hPh, ho, hst⟩
    | true =>
      simp only [Look.act, perform, getValue, wp_bind]
      refine wp_getResult ho rfl hst (fun r' hr' => ?_) fun hnone => ?_
      · obtain rfl : r = r' := Option.some.inj (hr.symm.trans hr')
        cases r <;> exact ⟨rfl, hP h hPh, hset, hst⟩
      · rw [hr] at hnone
        cases hnone

/-- The code of a function returns or throws what its meaning says. -/
theorem wp_code (f : Func V κ) {b : Bool} (hPh : P h)
    (ho : h.futures (.handle x) = some (.of n b)) (hst : h.shared n = some st) :
    wp (runProg env call (f.code x js)) ⟨fun v h' => ∃ e b', f.eval r b = (.ok e, b') ∧
      v = κ.give x js e ∧ P h' ∧ h'.futures (.handle x) = some (.of n b'),
      fun z h' => ∃ b' g, f.eval r b = (.error z, b') ∧ P g ∧ h' = g.note (.threw z),
      fun _ _ => False⟩ h := by
  induction f generalizing b h with
  | ret e => exact ⟨e, b, rfl, rfl, hPh, ho⟩
  | throw z hz => exact ⟨b, h, rfl, hPh, rfl⟩
  | look a k ih =>
    simp only [Func.code, runProg, wp_bind]
    refine wp_mono (wp_look hr hP a hPh ho hst) ?_ (fun _ _ hf => hf.elim) fun _ _ hf => hf.elim
    rintro s h' ⟨rfl, hPh', ho', hst'⟩
    exact ih _ hPh' ho' hst'

end Code

/-! ## Functions of a client -/

/-- What a client has to maintain for the function `f` with the successor `m`, whose inner futures
are in the variables `js` and refer to the shared states of the same numbers. -/
structure Admits (C : Client V) (f : Func V κ) (m : ℕ) (js : List ℕ) : Prop where
  raised : ∀ h, C.J h → ∀ x, .raised x ∈ h.log → x.IsStd
  inner : ∀ h, C.J h → ¬ h.Called m → ∀ j ∈ js,
    h.futures (.handle (.named j)) = some ⟨some j, some j⟩
  moved : ∀ h, C.J h → h.Called m → ∀ j ∈ js,
    C.J (h.setFuture (.handle (.named j)) ⟨none, none⟩)
  threw : ∀ h x, C.J h → x.IsStd → C.J (h.note (.threw x))
  returned : ∀ h n st r, C.J h → .called m (some st) ∈ h.log → .registered m n ∈ h.log →
    st.result = some r → C.J (h.note (.returned m (f.how r n js)))

/-- The shared states of a client hold no exception that `GetResult` cannot handle. -/
lemma Inv.result_of_shared {X : Option PromiseLoc} (hi : Inv C X h)
    (hraised : ∀ x, .raised x ∈ h.log → x.IsStd) (hst : h.shared n = some st) :
    ∃ r, st.result = some r := by
  rcases hr : st.result with _ | r
  · obtain ⟨x, hx, hmem⟩ := hi.core.chronicle.raised hst hr
    exact absurd (hraised x hmem) hx
  · exact ⟨r, rfl⟩

lemma how_future (m : ℕ) (v : Kind.future.Ret V) {o : FutureObj}
    (ho : h.futures (.inner m) = some o) : how h m v = .inner o.delegate := by
  show How.inner _ = _
  rw [ho]
  rfl

/-- The future that a function returns moves to where `fulfill_promise_future` expects it. -/
lemma wp_receive_move {P : Heap V → Prop} {o : FutureObj} (hi : Inv C none h)
    (ho : h.futures (.handle x) = some o) (hJ : C.J (h.setFuture (.handle x) ⟨none, none⟩))
    (hP : ∀ h', Inv C none h' → Ext h h' → h'.futures (.inner m) = some o →
      h'.log = h.log → P h') :
    wp (@receive V m .future (some x))
      ⟨fun _ h' => P h', fun _ _ => False, fun _ _ => False⟩ h := by
  have hview : (h.moveFuture (.handle x) (.inner m) o).view =
      (h.setFuture (.handle x) ⟨none, none⟩).view :=
    Heap.view_setFuture (h := h.setFuture (.handle x) ⟨none, none⟩) o (by simp)
  simp only [receive]
  refine (wp_constructFuture ho (hi.not_held_future _)).mpr (hP _ ?_ ?_ ?_ rfl)
  · exact hi.moveFuture ho (C.quiet _ _ hview hJ)
  · exact .moveFuture h o (by simp) (by simp)
  · rw [Heap.moveFuture_futures, if_pos rfl]

/-- What `fulfill_promise_*` gets to know of how the function has ended. -/
lemma wp_receive_give {P : Heap V → Prop} {b : Bool} (hi : Inv C none h)
    (hx : h.futures (.handle (.param m)) = some (.of n b))
    (hjs : ∀ j ∈ js, h.futures (.handle (.named j)) = some ⟨some j, some j⟩)
    (hmoved : ∀ j ∈ js, C.J (h.setFuture (.handle (.named j)) ⟨none, none⟩)) (e : κ.End V)
    (hP : ∀ h', Inv C none h' → Ext h h' → h'.log = h.log →
      how h' m (κ.give (.param m) js e) = κ.how n js b e →
      (κ = .future → (h'.futures (.inner m)).isSome) → P h') :
    wp (receive m (κ.give (.param m) js e))
      ⟨fun _ h' => P h', fun _ _ => False, fun _ _ => False⟩ h := by
  cases κ with
  | result =>
    refine hP h hi (.refl h) rfl ?_ (by simp)
    cases e <;> rfl
  | value | void => exact hP h hi (.refl h) rfl rfl (by simp)
  | future =>
    have hfuture : ∀ h' o, Inv C none h' → Ext h h' → h'.futures (.inner m) = some o →
        h'.log = h.log → .inner o.delegate = @Kind.how V n js b .future e → P h' := by
      intro h' o hi' he' ho hlog heq
      exact hP h' hi' he' hlog ((how_future m _ ho).trans heq) fun _ => by rw [ho]; rfl
    have hinvalid : .inner none = @Kind.how V n js b .future e →
        P (h.setFuture (.inner m) ⟨none, none⟩) := by
      intro heq
      have hview := h.view_setFuture (f := .inner m) ⟨none, none⟩ (by simp)
      refine hfuture _ ⟨none, none⟩ (hi.setFuture_none _ _ (C.quiet h _ hview hi.client))
        (.setFuture h _ (by simp)) ?_ rfl heq
      simp [Heap.setFuture]
    cases e with
    | invalid => exact hinvalid rfl
    | argument =>
      have hview := h.view_setFuture (f := .handle (.param m)) ⟨none, none⟩ (by simp)
      refine wp_receive_move hi hx (C.quiet h _ hview hi.client) fun h' hi' he' ho hlog => ?_
      exact hfuture h' _ hi' he' ho hlog rfl
    | inner c =>
      rcases hc : js[c]? with _ | j
      · -- there is no such promise, and the function returns an invalid future
        simp only [Kind.give, hc, Option.map_none]
        exact hinvalid (by simp only [Kind.how, hc])
      · have hj : j ∈ js := List.mem_of_getElem? hc
        simp only [Kind.give, hc, Option.map_some]
        refine wp_receive_move hi (hjs j hj) (hmoved j hj) fun h' hi' he' ho hlog => ?_
        exact hfuture h' _ hi' he' ho hlog (by simp only [Kind.how, hc])

/-- **Functions** keep what a client maintains that admits them, and end as their meaning says. -/
theorem Func.fits {f : Func V κ} (hA : Admits C f m js) {i : ℕ} :
    BodyFits C fuel i m (runProg env call (f.code (.param m) js)) := by
  intro g n st hJ hnew hi hp hst hreg _ _
  generalize hh : g.note (.called m (some st)) = h at hi
  have hcalled : .called m (some st) ∈ h.log := hh ▸ List.mem_cons_self
  have hreg' : .registered m n ∈ h.log := hh ▸ List.mem_cons_of_mem _ hreg
  have hparam : h.futures (.handle (.param m)) = some (.of n true) := by
    rw [← hh]
    exact hp
  have hshared : h.shared n = some st := by
    rw [← hh]
    exact hst
  have hjs : ∀ j ∈ js, h.futures (.handle (.named j)) = some ⟨some j, some j⟩ := by
    rw [← hh]
    exact hA.inner g hJ hnew
  obtain ⟨r, hr⟩ := hi.result_of_shared (hA.raised h hi.client) hshared
  -- what the looks of the function at its argument leave
  let P : Heap V → Prop := fun h' => Inv C none h' ∧ Ext h h' ∧ h'.log = h.log ∧
    ∀ j ∈ js, h'.futures (.handle (.named j)) = some ⟨some j, some j⟩
  have hP : ∀ h', P h' → P (h'.setFuture (.handle (.param m)) ⟨none, some n⟩) := by
    rintro h' ⟨hi', he', hlog, hjs'⟩
    have hview := h'.view_setFuture (f := .handle (.param m)) ⟨none, some n⟩ (by simp)
    refine ⟨hi'.setFuture_none _ _ (C.quiet h' _ hview hi'.client),
      he'.trans (.setFuture h' _ (by simp)), hlog, fun j hj => ?_⟩
    rw [Heap.setFuture, Table.set_apply, if_neg (by simp)]
    exact hjs' j hj
  rw [wp_bind]
  refine wp_mono (wp_code hr hP f ⟨hi, .refl h, rfl, hjs⟩ hparam hshared) ?_ ?_
    fun _ _ hf => hf.elim
  · rintro v h' ⟨e, b, heval, rfl, ⟨hi', he', hlog, hjs'⟩, hx⟩
    have hhow : f.how r n js = κ.how n js b e := by rw [how, heval]
    have hcalled' : h'.Called m := ⟨_, hlog ▸ hcalled⟩
    refine wp_bind.mpr (wp_mono (wp_receive_give hi' hx hjs' (hA.moved h' hi'.client hcalled') e
      (P := fun h'' => Inv C none h'' ∧ Ext h h'' ∧ C.J (h''.note (.returned m (Future.how h'' m
        (κ.give (.param m) js e)))) ∧ (κ = .future → (h''.futures (.inner m)).isSome))
      ?_) (fun _ _ hp => hp) (fun _ _ hf => hf.elim) fun _ _ hf => hf.elim)
    intro h'' hi'' he'' hlog' heq hinner
    refine ⟨hi'', he'.trans he'', ?_, hinner⟩
    rw [heq, ← hhow]
    have hlog'' := hlog'.trans hlog
    exact hA.returned h'' n st r hi''.client (hlog'' ▸ hcalled) (hlog'' ▸ hreg') hr
  · rintro z h' ⟨b, h₁, heval, ⟨hi₁, he₁, hlog, -⟩, rfl⟩
    have hz := isStd_of_eval heval
    have hhow : f.how r n js = .threw z := by rw [how, heval]
    have hJ' := hA.threw h₁ z hi₁.client hz
    refine ⟨hi₁.note (e := .threw z) trivial rfl trivial hJ',
      he₁.trans (.note h₁ (by simp) (by simp)), ?_, Or.inl hz⟩
    rw [← hhow]
    refine hA.returned _ n st r hJ' ?_ ?_ hr
    · exact List.mem_cons_of_mem _ (hlog ▸ hcalled)
    · exact List.mem_cons_of_mem _ (hlog ▸ hreg')

end AraCore.Future
