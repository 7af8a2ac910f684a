/-
# The first fulfilment wins

Sequences of calls on one promise, with calls of `then` on its future.  The first fulfilment
decides, and the calls that come too late throw and change nothing, although the continuation
that has been invoked stays in the `State`.
-/
import AraCore.Future.Outcome

namespace AraCore.Future

open Lib Comp

variable {V : Type} {h h' : Heap V} {k n fuel : ℕ} {env : ℕ → Option Exn}
  {call : Cont V × FutureLoc → Code V Unit} {st : Stored V}

/-! ## Clients that leave a promise alone -/

/-- The operation does not name the promise `k`. -/
def Act.Spares (k : ℕ) : Act V → Prop
  | .newPromise j | .destroyPromise j | .getFuture j _ | .setValue j _ _ | .setError j _
  | .setException j _ => j ≠ k
  | .movePromise i j | .assignPromise i j | .swapPromise i j => i ≠ k ∧ j ≠ k
  | .newFuture _ | .moveFuture _ _ | .assignFuture _ _ | .destroyFuture _ | .valid _ | .isReady _
  | .wait _ | .getResult _ | .get _ => True

/-- The client that leaves the promise `k` as it is. -/
def Client.sparing (k : ℕ) (o : Option PromiseObj) : Client V where
  J h := h.promises (.named k) = o
  quiet _ _ hv hJ := (congrFun (congrArg View.promises hv) k).trans hJ
  called _ _ _ hJ := hJ
  K _ _ func := ∀ x, (func x).Within (Act.Spares k) fun _ => True
  misuse := True
  copyThrows := True

lemma Client.sparing_tolerant (k : ℕ) (o : Option PromiseObj) :
    Tolerant (Client.sparing k o : Client V) (Act.Spares k) fun _ => True := by
  refine ⟨trivial, trivial, fun _ _ _ => Iff.rfl, ?_, ?_, ?_, fun _ _ _ _ hJ => hJ,
    fun _ _ hJ => hJ, fun _ _ hJ => hJ, fun _ _ _ hJ => hJ⟩
  · intro a h hi ha
    have hJ : h.promises (.named k) = o := hi.client
    cases a <;> simp only [Act.Spares] at ha <;>
      simp only [Act.Kept, Client.sparing, Heap.newPromise, Heap.movePromise, Heap.swapPromise,
        Heap.moveFuture, Heap.setPromise, Heap.setFuture, Heap.note, Table.set_apply,
        Table.erase_apply, PromiseLoc.named.injEq] <;> grind
  · intro h hi
    have hJ : h.promises (.named k) = o := hi.client
    simp [Client.sparing, Heap.discarded, nextPromise_promises, hJ]
  · intro f h n e hi
    have hJ : h.promises (.named k) = o := hi.client
    show (nextPromise h).promises (.named k) = o
    rw [nextPromise_promises, if_neg (by simp)]
    exact hJ

/-! ## Sequences of calls -/

/-- A call on the promise, or of `then` on the variable `f` with its future. -/
inductive PromiseCall (V : Type) where
  | setValue (v : Option V) (c : Category)
  | setError (e : ErrorCode)
  | setException (x : Exn)
  | getFuture (f : ℕ)
  | andThen (f : ℕ) (κ : Kind) (func : Handle → Prog V κ) (next : ℕ)

namespace PromiseCall

/-- The call on the promise `k`. -/
def code (env : ℕ → Option Exn) (call : Cont V × FutureLoc → Code V Unit) (k : ℕ) :
    PromiseCall V → Code V Unit
  | setValue v c => do let _ ← perform env call (.setValue k v c); pure ()
  | setError e => do let _ ← perform env call (.setError k e); pure ()
  | setException x => do let _ ← perform env call (.setException k x); pure ()
  | getFuture f => do let _ ← perform env call (.getFuture k f); pure ()
  | andThen f κ func next => declareNext call (.named f) κ func next

/-- What the call is to fulfil the promise with. -/
def stored : PromiseCall V → Option (Stored V)
  | setValue v _ => some (.value v)
  | setError e => some (.error e)
  | setException x => some (.exception x)
  | getFuture _ | andThen _ _ _ _ => none

/-- What the copy `R r = value` in `set_value(T const &)` throws. -/
def copyFault (env : ℕ → Option Exn) (h : Heap V) : PromiseCall V → Option Exn
  | setValue (some _) .lvalue => env h.copies
  | _ => none

/-- The variable that `get_future` initializes. -/
def retrieves : PromiseCall V → Option ℕ
  | getFuture f => some f
  | _ => none

def isThen : PromiseCall V → Bool
  | andThen _ _ _ _ => true
  | _ => false

/-- The functions that the call passes to `then` do not name the promise `k`. -/
def Spares (k : ℕ) : PromiseCall V → Prop
  | andThen _ _ func _ => ∀ x, (func x).Within (Act.Spares k) fun _ => True
  | _ => True

/-- The call can come after the calls `pre`: `then` is called once, after `get_future`. -/
def Follows (pre : List (PromiseCall V)) : PromiseCall V → Prop
  | andThen f _ _ _ => (∀ c ∈ pre, c.isThen = false) ∧ pre.findSome? retrieves = some f
  | _ => True

end PromiseCall

/-- A sequence of calls on the promise `k` that are not nested, with at most one call of `then` on
its future. -/
def Proper (k : ℕ) (cs : List (PromiseCall V)) : Prop :=
  ∀ pre c post, cs = pre ++ c :: post → c.Spares k ∧ c.Follows pre

/-- How a call ends. -/
inductive Ending where
  | returned
  | threw (x : Exn)
  | stopped (f : Fault)
deriving DecidableEq, Repr

/-- A call in a sequence, with the memory before it and after it. -/
structure Step (V : Type) where
  before : Heap V
  call : PromiseCall V
  ending : Ending
  after : Heap V

/-- The call in the memory `h`. -/
def PromiseCall.run (env : ℕ → Option Exn) (call : Cont V × FutureLoc → Code V Unit) (k : ℕ)
    (c : PromiseCall V) (h : Heap V) : Step V :=
  match c.code env call k h with
  | .ok _ h' => ⟨h, c, .returned, h'⟩
  | .throw x h' => ⟨h, c, .threw x, h'⟩
  | .stop f h' => ⟨h, c, .stopped f, h'⟩

/-- The calls of a sequence, one after the other, up to one that comes to a fault. -/
def steps (env : ℕ → Option Exn) (call : Cont V × FutureLoc → Code V Unit) (k : ℕ) :
    List (PromiseCall V) → Heap V → List (Step V)
  | [], _ => []
  | c :: cs, h =>
    c.run env call k h :: match (c.run env call k h).ending with
      | .stopped _ => []
      | .returned | .threw _ => steps env call k cs (c.run env call k h).after

namespace Step

def Stopped (s : Step V) : Prop := ∃ f, s.ending = .stopped f

/-- Apart from the records of what has been done, the call has left everything as it was. -/
def Unchanged (s : Step V) : Prop :=
  ∃ j l, s.after = { s.before with copies := j, log := l }

/-- What the call fulfils the promise with, if it is the first that does. -/
def outcome (env : ℕ → Option Exn) (s : Step V) : Option (Stored V) :=
  if (s.call.copyFault env s.before).isSome then none else s.call.stored

end Step

/-- The outcome of the first fulfilment. -/
def first (env : ℕ → Option Exn) (tr : List (Step V)) : Option (Stored V) :=
  tr.findSome? (Step.outcome env)

/-- The function with the successor `m` is called. -/
def Event.isCall (m : ℕ) : Event V → Bool
  | called m' _ => m' = m
  | _ => false

/-- In a sequence of calls on a promise with the shared state `n` the first fulfilment wins. -/
structure FirstWins (env : ℕ → Option Exn) (n : ℕ) (tr : List (Step V)) : Prop where
  decided : ∀ pre s post, tr = pre ++ s :: post → ¬ s.Stopped →
    s.after.shared n = first env (pre ++ [s])
  reported : ∀ pre s post st, tr = pre ++ s :: post → ¬ s.Stopped →
    first env (pre ++ [s]) = some st → ∀ f r, s.after.futures f = some ⟨some n, some n⟩ →
    (Reports s.after f r ↔ st.result = some r)
  /-- A later fulfilment fails, and nothing changes. -/
  refused : ∀ pre s post, tr = pre ++ s :: post → (first env pre).isSome →
    s.call.stored.isSome → s.call.copyFault env s.before = none →
    s.ending = .threw (stdError .promiseAlreadySatisfied) ∧ s.Unchanged
  /-- A `set_value` whose copy of the value throws does not fulfil the promise. -/
  copyThrew : ∀ s ∈ tr, ∀ x, s.call.copyFault env s.before = some x →
    s.ending = .threw x ∧ s.Unchanged
  retrieved : ∀ pre s post f, tr = pre ++ s :: post → s.call = .getFuture f →
    s.before.futures (.handle (.named f)) = none →
    if (pre.findSome? fun s => s.call.retrieves).isSome then
      s.ending = .threw (stdError .futureAlreadyRetrieved) ∧ s.after = s.before
    else s.ending = .returned ∧ s.after.futures (.handle (.named f)) = some ⟨some n, some n⟩
  /-- `then` registers its function, in whatever order it is called. -/
  registered : ∀ s ∈ tr, s.call.isThen → ¬ s.Stopped →
    .registered s.before.next n ∈ s.after.log
  atMostOnce : ∀ s ∈ tr, ¬ s.Stopped → ∀ m, s.after.log.countP (Event.isCall m) ≤ 1
  /-- A registered function is called with the outcome of the first fulfilment. -/
  called : ∀ pre s post st, tr = pre ++ s :: post → ¬ s.Stopped →
    first env (pre ++ [s]) = some st → ∀ m, .registered m n ∈ s.after.log →
    .called m (some st) ∈ s.after.log ∧ s.after.log.countP (Event.isCall m) = 1

/-! ## One call -/

section Call

variable {c : PromiseCall V} {s : Step V} {o : PromiseObj}

/-- The call ends as `Q` says. -/
def Step.Ends (s : Step V) (Q : Post (Heap V) Exn Fault Unit) : Prop :=
  match s.ending with
  | .returned => Q.ok () s.after
  | .threw x => Q.throw x s.after
  | .stopped f => Q.stop f s.after

lemma PromiseCall.run_ends {Q : Post (Heap V) Exn Fault Unit}
    (hc : wp (c.code env call k) Q h) : (c.run env call k h).Ends Q := by
  unfold wp at hc
  unfold run Step.Ends
  split at hc <;> simp_all only

@[simp] lemma PromiseCall.run_call : (c.run env call k h).call = c := by
  unfold run
  split <;> rfl

@[simp] lemma PromiseCall.run_before : (c.run env call k h).before = h := by
  unfold run
  split <;> rfl

/-- The call returns or throws in a memory with the property `P`, or stops. -/
def ended (P : Heap V → Prop) : Post (Heap V) Exn Fault Unit where
  ok _ h := P h
  throw _ h := P h
  stop _ _ := True

lemma Step.Ends.after {P : Heap V → Prop} (hs : s.Ends (ended P)) (hn : ¬ s.Stopped) :
    P s.after := by
  unfold Ends at hs
  split at hs
  · exact hs
  · exact hs
  · next f hf => exact absurd ⟨f, hf⟩ hn

/-- The call throws `x` and leaves everything as it was. -/
def refusal (h : Heap V) (x : Exn) : Post (Heap V) Exn Fault Unit where
  ok _ _ := False
  throw y h' := y = x ∧ ∃ j l, h' = { h with copies := j, log := l }
  stop _ _ := False

lemma Step.Ends.refused {x : Exn} (hs : s.Ends (refusal s.before x)) :
    s.ending = .threw x ∧ s.Unchanged := by
  unfold Ends at hs
  split at hs
  · exact hs.elim
  · next y hy =>
    obtain ⟨rfl, hun⟩ := hs
    exact ⟨hy, hun⟩
  · exact hs.elim

/-- Every call that does not stop keeps the invariant. -/
lemma PromiseCall.wp_code {call : Cont V × FutureLoc → Code V Unit}
    (hcall : CallSpec (Client.sparing k (some o)) fuel fuel call)
    (hi : Inv (Client.sparing k (some o)) none h) (hc : c.Spares k) :
    wp (c.code env call k) (ended fun h' => Inv (Client.sparing k (some o)) none h' ∧ Ext h h')
      h := by
  have hC := Client.sparing_tolerant (V := V) k (some o)
  have hp : h.promises (.named k) = some o := hi.client
  have hact : ∀ a : Act V, a.Kept (Client.sparing k (some o)) h →
      wp (do let _ ← perform env call a; pure ())
        (ended fun h' => Inv (Client.sparing k (some o)) none h' ∧ Ext h h') h := by
    intro a ha
    simp only [wp_bind, wp_pure]
    refine wp_mono (wp_perform hcall (fun _ _ _ => hC.copyThrows) hC.misuse hi ha
      (Nat.le_add_right _ _)) ?_ ?_ fun _ _ _ => trivial
    · exact fun _ _ h' => ⟨h'.1, h'.2.1⟩
    · exact fun _ _ h' => ⟨h'.1, h'.2.1⟩
  cases c with
  | setValue v cat => exact hact _ trivial
  | setError e => exact hact _ trivial
  | setException x => exact hact _ hp
  | getFuture f => exact hact _ fun _ _ _ _ => hp
  | andThen f κ func next =>
    have ha : Acceptable (Client.sparing k (some o)) (.named f) κ func h :=
      ⟨(hC.func _ _ _).mpr hc, hC.discarded h hi, fun _ n e _ _ => hC.registered _ h n e hi⟩
    refine wp_mono (wp_declareNext hcall hC.misuse hi ha
      (fun g m => hC.declared g next m trivial) (Nat.le_add_right _ _)) ?_ ?_ fun _ _ _ => trivial
    · exact fun _ _ h' => ⟨h'.1, h'.2.1⟩
    · exact fun _ _ h' => ⟨h'.1, h'.2.1⟩

/-- What the fulfilling methods have in common. -/
lemma PromiseCall.wp_fulfil (hi : Inv (Client.sparing k (some o)) none h) {st : Stored V}
    (hst : c.stored = some st) {Q : Post (Heap V) Exn Fault Unit}
    (hthrow : ∀ x j l, c.copyFault env h = some x → Q.throw x { h with copies := j, log := l })
    (hready : c.copyFault env h = none → ∀ g copy, Inv (Client.sparing k (some o)) none g →
      Ext h g → (∃ j l, g = { h with copies := j, log := l }) →
      (∀ x, st = .exception x → .raised x ∈ g.log) → Copying env copy →
      wp (makeReady call (.named k) copy st) Q g) :
    wp (c.code env call k) Q h := by
  have hp : h.promises (.named k) = some o := hi.client
  have hsame : ∃ j l, h = { h with copies := j, log := l } := ⟨h.copies, h.log, rfl⟩
  cases c with
  | setValue v cat =>
    cases hst
    simp only [code, perform, wp_bind, wp_promise hp, wp_pure]
    rcases v with _ | v
    · exact hready rfl h _ hi (.refl h) hsame (by simp) .moved
    cases cat with
    | rvalue => exact hready rfl h _ hi (.refl h) hsame (by simp) .copied
    | lvalue =>
      simp only [Future.setValue, wp_bind, copyValue, wp_get, wp_modify]
      split
      · next hc =>
        exact hready hc _ _ (hi.copied _) (.copies h _) ⟨h.copies + 1, h.log, rfl⟩ (by simp) .copied
      · next x hx => exact hthrow x _ _ hx
  | setError e =>
    cases hst
    simp only [code, perform, wp_bind, wp_promise hp, wp_pure]
    exact hready rfl h _ hi (.refl h) hsame (by simp) .moved
  | setException x =>
    cases hst
    simp only [code, perform, wp_bind, wp_promise hp, wp_pure, wp_modify]
    refine hready rfl _ _ (hi.note (e := .raised x) trivial rfl trivial hp)
      (.note h (by simp) (by simp)) ⟨h.copies, .raised x :: h.log, rfl⟩ ?_ .moved
    rintro y ⟨⟩
    exact List.mem_cons_self
  | getFuture f => cases hst
  | andThen f κ func next => cases hst

/-- A promise that is ready refuses. -/
lemma wp_makeReady_satisfied {copy : Code V Unit} {Q : Post (Heap V) Exn Fault Unit}
    {st' : Stored V} (hp : h.Holds (.named k) n) (hn : h.shared n = some st')
    (hbusy : ¬ h.Busy (.named k))
    (hQ : Q.throw (stdError .promiseAlreadySatisfied) (h.locking [.named k])) :
    wp (makeReady call (.named k) copy st) Q h := by
  have hn' : (h.entered (.named k)).shared n = some st' := hn
  simp only [makeReady, wp_bind, wp_lockPromise hbusy, wp_modify, wp_cleanup, setDelegate]
  refine (wp_promise (h := h.entered (.named k)) hp).mpr ?_
  simp only [wp_bind, wp_get, hn', wp_throw, Heap.leave_enter]
  exact hQ

lemma Heap.not_busy (hidle : h.held = []) (p : PromiseLoc) : ¬ h.Busy p := by
  rw [Heap.Busy, hidle]
  exact List.not_mem_nil

/-- The copy of the value throws. -/
lemma PromiseCall.wp_copyFault (hi : Inv (Client.sparing k (some o)) none h) {x : Exn}
    (hx : c.copyFault env h = some x) : wp (c.code env call k) (refusal h x) h := by
  rcases hst : c.stored with _ | st
  · cases c <;> simp [copyFault, stored] at hx hst
  · refine wp_fulfil hi hst (fun y j l hy => ?_) fun hnone => ?_
    · exact ⟨Option.some.inj (hy.symm.trans hx), j, l, rfl⟩
    · rw [hx] at hnone
      cases hnone

/-- A later fulfilment fails. -/
lemma PromiseCall.wp_refused (hi : Inv (Client.sparing k (some ⟨some n, some n⟩)) none h)
    (hidle : h.held = []) {st : Stored V} (hn : h.shared n = some st)
    (hc : c.copyFault env h = none) (hst : c.stored.isSome) :
    wp (c.code env call k) (refusal h (stdError .promiseAlreadySatisfied)) h := by
  obtain ⟨st', hst'⟩ := Option.isSome_iff_exists.mp hst
  refine wp_fulfil hi hst' (fun x j l hx => ?_) fun _ g copy hig _ hg _ _ => ?_
  · rw [hc] at hx
    cases hx
  · obtain ⟨j, l, rfl⟩ := hg
    exact wp_makeReady_satisfied hig.client hn (Heap.not_busy hidle _) ⟨rfl, _, _, rfl⟩

/-- The first fulfilment is recorded. -/
lemma PromiseCall.wp_first {call : Cont V × FutureLoc → Code V Unit}
    (hcall : CallSpec (Client.sparing k (some ⟨some n, some n⟩)) fuel fuel call)
    (hi : Inv (Client.sparing k (some ⟨some n, some n⟩)) none h) (hn : h.shared n = none)
    (hc : c.copyFault env h = none) {st : Stored V} (hst : c.stored = some st) :
    wp (c.code env call k) (ended fun h' => .fulfilled n st ∈ h'.log) h := by
  refine wp_fulfil hi hst (fun x j l hx => ?_) fun _ g copy hig _ hg hx hcopy => ?_
  · rw [hc] at hx
    cases hx
  · have hs : Settable g (.named k) n := by
      obtain ⟨j, l, rfl⟩ := hg
      exact .named hig.client hn
    refine wp_mono (wp_makeReady hcall (fun _ _ _ => trivial) hig (Or.inl rfl) hs (by simp)
      (fun x hxs => Or.inr (hx x hxs)) hcopy (Nat.le_add_right _ _)) ?_ ?_ fun _ _ _ => trivial
    · exact fun _ _ ⟨_, _, _, hf⟩ => hf
    · exact fun _ _ ⟨_, _, _, hf, _⟩ => hf

/-- A fulfilment for which no continuation waits changes no future and no `State`. -/
lemma PromiseCall.wp_alone (hi : Inv (Client.sparing k (some ⟨some n, some n⟩)) none h)
    (hidle : h.held = []) (hn : h.shared n = none) (hcont : (h.states n).continuation = none)
    (hst : c.stored.isSome) :
    wp (c.code env call k) (ended fun h' => h'.futures = h.futures ∧ h'.states = h.states ∧
      h'.retrieved = h.retrieved) h := by
  obtain ⟨st, hst'⟩ := Option.isSome_iff_exists.mp hst
  refine wp_fulfil hi hst' (fun x j l _ => ⟨rfl, rfl, rfl⟩) fun _ g copy hig _ hg _ hcopy => ?_
  obtain ⟨j, l, rfl⟩ := hg
  exact wp_makeReady_alone hig.client hn (Heap.not_busy hidle _) hcont hcopy
    (fun j => ⟨rfl, rfl, rfl⟩) fun _ _ _ _ _ => trivial

/-- `get_future` works once. -/
lemma PromiseCall.wp_getFuture (hi : Inv (Client.sparing k (some ⟨some n, some n⟩)) none h) (f : ℕ)
    {Q : Post (Heap V) Exn Fault Unit}
    (hok : h.futures (.handle (.named f)) = none → h.retrieved n = false →
      Q.ok () { h.setFuture (.handle (.named f)) ⟨some n, some n⟩ with
        retrieved := Function.update h.retrieved n true })
    (hthrow : h.futures (.handle (.named f)) = none → h.retrieved n = true →
      Q.throw (stdError .futureAlreadyRetrieved) h)
    (hstop : h.futures (.handle (.named f)) ≠ none → Q.stop .undefined h) :
    wp ((getFuture f : PromiseCall V).code env call k) Q h := by
  have hp : h.promises (.named k) = some ⟨some n, some n⟩ := hi.client
  simp only [code, perform, wp_bind, wp_pure, freeFuture, wp_get]
  rcases hf : h.futures (.handle (.named f)) with _ | o
  · simp only [Option.isSome_none, Bool.false_eq_true, if_false, wp_pure, wp_promise hp, wp_bind,
      wp_get]
    cases hr : h.retrieved n
    · exact hok hf hr
    · exact hthrow hf hr
  · simp only [Option.isSome_some, if_true]
    exact hstop (by simp [hf])

/-- `then` on a future that is not ready makes nothing ready. -/
lemma PromiseCall.wp_store (hi : Inv (Client.sparing k (some ⟨some n, some n⟩)) none h)
    (hn : h.shared n = none) {f next : ℕ} {κ : Kind} {func : Handle → Prog V κ}
    (hf : h.futures (.handle (.named f)) = some ⟨some n, some n⟩) :
    wp ((andThen f κ func next : PromiseCall V).code env call k)
      (ended fun h' => h'.shared = h.shared) h := by
  simp only [code, declareNext, wp_bind]
  refine wp_andThen_store hi.blind hf hn ?_
  have hnone : ((h.registered n).states n).continuation = none :=
    hi.core.continuation_eq_none hf rfl hn
  rw [Heap.setContinuation_eq hnone]
  set g := ((h.registered n).setState n ⟨some (.link h.next κ func), some n⟩).setFuture
    (.handle (.named f)) ⟨none, some n⟩ with hg
  have hnext : g.futures (.next h.next) = some ⟨some h.next, some h.next⟩ := by
    rw [hg, Heap.setFuture, Table.set_apply, if_neg (by simp)]
    exact h.registered_next n
  refine wp_freeFuture (fun _ => ?_) trivial
  refine (wp_constructFuture hnext (hi.not_held_future _)).mpr ?_
  simp only [wp_modify]
  have hmoved : (g.moveFuture (.next h.next) (.handle (.named next))
      ⟨some h.next, some h.next⟩).futures (.next h.next) = some ⟨none, none⟩ := by
    rw [Heap.moveFuture_futures, if_neg (by simp), if_pos rfl]
  show (Heap.destroyFuture _ _).shared = h.shared
  simp only [Heap.destroyFuture, hmoved]
  rfl

/-- `then` registers its function. -/
lemma PromiseCall.wp_registers {call : Cont V × FutureLoc → Code V Unit}
    (hcall : CallSpec (Client.sparing k (some o)) fuel fuel call)
    (hi : Inv (Client.sparing k (some o)) none h) {f next : ℕ} {κ : Kind}
    {func : Handle → Prog V κ} (hc : (andThen f κ func next).Spares k)
    (hf : h.futures (.handle (.named f)) = some ⟨some n, some n⟩) :
    wp ((andThen f κ func next).code env call k) (ended fun h' => .registered h.next n ∈ h'.log)
      h := by
  have hC := Client.sparing_tolerant (V := V) k (some o)
  have ha : Acceptable (Client.sparing k (some o)) (.named f) κ func h :=
    ⟨(hC.func _ _ _).mpr hc, hC.discarded h hi, fun _ n e _ _ => hC.registered _ h n e hi⟩
  refine wp_mono (wp_declareNext hcall hC.misuse hi ha
    (fun g m => hC.declared g next m trivial) (Nat.le_add_right _ _)) ?_ ?_ fun _ _ _ => trivial
  · exact fun _ _ ⟨_, _, hreg⟩ => hreg _ n hf rfl
  · exact fun _ _ ⟨_, _, _, hreg⟩ => hreg _ n hf rfl

end Call

/-! ## Runs -/

/-- What holds after the calls `pre`. -/
structure At (env : ℕ → Option Exn) (k n : ℕ) (pre : List (Step V)) (h : Heap V) : Prop where
  inv : Inv (Client.sparing k (some ⟨some n, some n⟩)) none h
  idle : h.held = []
  shared : h.shared n = first env pre
  fulfilled : ∀ st, first env pre = some st → .fulfilled n st ∈ h.log
  retrieved : h.retrieved n = (pre.findSome? fun s => s.call.retrieves).isSome
  ordered : (∃ s ∈ pre, s.call.isThen) → h.retrieved n = true
  /-- Before `then` is called, the future is where `get_future` has put it. -/
  plain : (∀ s ∈ pre, s.call.isThen = false) → (h.states n).continuation = none ∧
    ∀ f, (pre.findSome? fun s => s.call.retrieves) = some f →
      h.futures (.handle (.named f)) = some ⟨some n, some n⟩

variable {pre : List (Step V)} {c : PromiseCall V}

lemma first_append (pre : List (Step V)) (s : Step V) :
    first env (pre ++ [s]) = (first env pre).or (s.outcome env) := by
  simp [first, List.findSome?_append]

lemma retrieves_append (pre : List (Step V)) (s : Step V) :
    ((pre ++ [s]).findSome? fun s => s.call.retrieves) =
      (pre.findSome? fun s => s.call.retrieves).or s.call.retrieves := by
  simp [List.findSome?_append]

/-- The future is ready once a fulfilment has been recorded. -/
lemma At.ready (hat : At env k n pre h) (he : Ext h h') {st : Stored V}
    (hst : first env pre = some st) : h'.shared n = some st ∧ .fulfilled n st ∈ h'.log :=
  ⟨he.shared n st (hat.shared.trans hst), he.log (hat.fulfilled st hst)⟩

lemma Step.Unchanged.same {s : Step V} (hs : s.Unchanged) :
    s.after.shared = s.before.shared ∧ s.after.futures = s.before.futures ∧
      s.after.states = s.before.states ∧ s.after.retrieved = s.before.retrieved := by
  obtain ⟨j, l, hs⟩ := hs
  rw [hs]
  exact ⟨rfl, rfl, rfl, rfl⟩

/-- A fulfilment that is too late or whose copy throws leaves everything as it was. -/
lemma At.unchanged (hat : At env k n pre h) (hst : c.stored.isSome)
    (hlate : (c.copyFault env h).isSome ∨ (first env pre).isSome) :
    (c.run env call k h).Unchanged := by
  rcases hc : c.copyFault env h with _ | x
  · rw [hc] at hlate
    obtain ⟨st, hfirst⟩ := Option.isSome_iff_exists.mp (hlate.resolve_left (by simp))
    have hwp : wp (c.code env call k) _ h := PromiseCall.wp_refused hat.inv hat.idle
      (hat.shared.trans hfirst) hc hst
    exact (Step.Ends.refused (by simpa using PromiseCall.run_ends hwp)).2
  · have hwp : wp (c.code env call k) _ h := PromiseCall.wp_copyFault hat.inv hc
    exact (Step.Ends.refused (by simpa using PromiseCall.run_ends hwp)).2

/-- No fulfilment changes the future as long as `then` has not been called. -/
lemma At.undisturbed (hat : At env k n pre h) (hst : c.stored.isSome)
    (hcont : (h.states n).continuation = none) (hn : ¬ (c.run env call k h).Stopped) :
    (c.run env call k h).after.futures = h.futures ∧
      (c.run env call k h).after.states = h.states ∧
      (c.run env call k h).after.retrieved = h.retrieved := by
  by_cases hlate : (c.copyFault env h).isSome ∨ (first env pre).isSome
  · have hun : (c.run env call k h).Unchanged := hat.unchanged hst hlate
    obtain ⟨-, hfut, hstates, hret⟩ := hun.same
    rw [PromiseCall.run_before] at hfut hstates hret
    exact ⟨hfut, hstates, hret⟩
  · rw [not_or, Option.not_isSome_iff_eq_none, Option.not_isSome_iff_eq_none] at hlate
    exact Step.Ends.after (PromiseCall.run_ends (PromiseCall.wp_alone hat.inv hat.idle
      (hat.shared.trans hlate.2) hcont hst)) hn

/-- The first fulfilment is kept, and the next one is recorded if there is none. -/
lemma At.recorded {call : Cont V × FutureLoc → Code V Unit} (hat : At env k n pre h)
    (hcall : CallSpec (Client.sparing k (some ⟨some n, some n⟩)) fuel fuel call)
    (hst : c.stored.isSome) (hi : Inv (Client.sparing k (some ⟨some n, some n⟩)) none
      (c.run env call k h).after) (he : Ext h (c.run env call k h).after)
    (hn : ¬ (c.run env call k h).Stopped) :
    (c.run env call k h).after.shared n = first env (pre ++ [c.run env call k h]) ∧
      ∀ st, first env (pre ++ [c.run env call k h]) = some st →
        .fulfilled n st ∈ (c.run env call k h).after.log := by
  rw [first_append, Step.outcome, PromiseCall.run_call, PromiseCall.run_before]
  rcases hfirst : first env pre with _ | st
  · rcases hc : c.copyFault env h with _ | x
    · obtain ⟨st, hst'⟩ := Option.isSome_iff_exists.mp hst
      have hmem := Step.Ends.after (PromiseCall.run_ends (PromiseCall.wp_first hcall hat.inv
        (hat.shared.trans hfirst) hc hst')) hn
      simp only [Option.none_or, Option.isSome_none, Bool.false_eq_true, if_false, hst']
      refine ⟨hi.core.chronicle.backed _ hmem, ?_⟩
      rintro _ ⟨⟩
      exact hmem
    · have hun : (c.run env call k h).Unchanged := hat.unchanged hst (Or.inl (by rw [hc]; rfl))
      obtain ⟨hshared, -⟩ := hun.same
      rw [PromiseCall.run_before] at hshared
      simp only [Option.none_or, Option.isSome_some, if_true]
      exact ⟨(congrFun hshared n).trans (hat.shared.trans hfirst), by simp⟩
  · obtain ⟨hshared, hmem⟩ := hat.ready he hfirst
    rw [Option.some_or]
    refine ⟨hshared, ?_⟩
    rintro _ ⟨⟩
    exact hmem

/-- What does not fulfil the promise keeps what has been recorded. -/
lemma At.kept {s : Step V} (hat : At env k n pre h) (he : Ext h s.after)
    (hs : s.call.stored = none) (hshared : h.shared n = none → s.after.shared n = none) :
    s.after.shared n = first env (pre ++ [s]) ∧
      ∀ st, first env (pre ++ [s]) = some st → .fulfilled n st ∈ s.after.log := by
  have hout : s.outcome env = none := by
    rw [Step.outcome, hs]
    split <;> rfl
  rw [first_append, hout, Option.or_none]
  refine ⟨?_, fun st hst => (hat.ready he hst).2⟩
  rcases hfirst : first env pre with _ | st
  · exact hshared (hat.shared.trans hfirst)
  · exact (hat.ready he hfirst).1

/-- The calls of `set_value`, `SetError` and `set_exception`. -/
lemma At.fulfil {call : Cont V × FutureLoc → Code V Unit} (hat : At env k n pre h)
    (hcall : CallSpec (Client.sparing k (some ⟨some n, some n⟩)) fuel fuel call)
    (hst : c.stored.isSome) (hi : Inv (Client.sparing k (some ⟨some n, some n⟩)) none
      (c.run env call k h).after) (he : Ext h (c.run env call k h).after)
    (hn : ¬ (c.run env call k h).Stopped) :
    At env k n (pre ++ [c.run env call k h]) (c.run env call k h).after := by
  obtain ⟨hshared, hful⟩ := hat.recorded hcall hst hi he hn
  have hthen : c.isThen = false := by
    cases c <;> first | rfl | cases hst
  have hret : c.retrieves = none := by
    cases c <;> first | rfl | cases hst
  have hundisturbed : (∀ s ∈ pre, s.call.isThen = false) →
      (c.run env call k h).after.futures = h.futures ∧
        (c.run env call k h).after.states = h.states ∧
        (c.run env call k h).after.retrieved = h.retrieved :=
    fun hpre => hat.undisturbed hst (hat.plain hpre).1 hn
  have hold : ∀ P : Bool, (∀ s ∈ pre ++ [c.run env call k h], s.call.isThen = P) →
      ∀ s ∈ pre, s.call.isThen = P :=
    fun P hall s hs => hall s (List.mem_append_left _ hs)
  refine ⟨hi, he.held.trans hat.idle, hshared, hful, ?_, ?_, fun hall => ?_⟩
  · rw [retrieves_append, PromiseCall.run_call, hret, Option.or_none, ← hat.retrieved]
    cases hr : h.retrieved n with
    | true => exact he.retrieved n hr
    | false =>
      have hpre : ∀ s ∈ pre, s.call.isThen = false := by
        intro s hs
        by_contra hthen
        rw [hat.ordered ⟨s, hs, by simpa using hthen⟩] at hr
        cases hr
      rw [(hundisturbed hpre).2.2, hr]
  · rintro ⟨s, hs, hsthen⟩
    rcases List.mem_append.mp hs with hs | hs
    · exact he.retrieved n (hat.ordered ⟨s, hs, hsthen⟩)
    · rw [List.mem_singleton.mp hs, PromiseCall.run_call, hthen] at hsthen
      cases hsthen
  · obtain ⟨hfut, hstates, -⟩ := hundisturbed (hold _ hall)
    rw [retrieves_append, PromiseCall.run_call, hret, Option.or_none, hfut, hstates]
    exact hat.plain (hold _ hall)

/-- The calls of `get_future`. -/
lemma At.getFuture {call : Cont V × FutureLoc → Code V Unit} {f : ℕ} (hat : At env k n pre h)
    (hi : Inv (Client.sparing k (some ⟨some n, some n⟩)) none
      ((PromiseCall.getFuture f).run env call k h).after)
    (he : Ext h ((PromiseCall.getFuture f).run env call k h).after)
    (hn : ¬ ((PromiseCall.getFuture f).run env call k h).Stopped) :
    At env k n (pre ++ [(PromiseCall.getFuture f).run env call k h])
      ((PromiseCall.getFuture f).run env call k h).after := by
  have hwp : wp ((PromiseCall.getFuture f).code env call k) (ended fun h' =>
      h.retrieved n = false ∧ h' = { h.setFuture (.handle (.named f)) ⟨some n, some n⟩ with
        retrieved := Function.update h.retrieved n true } ∨ h.retrieved n = true ∧ h' = h) h :=
    PromiseCall.wp_getFuture hat.inv f (fun _ hr => Or.inl ⟨hr, rfl⟩)
      (fun _ hr => Or.inr ⟨hr, rfl⟩) fun _ => trivial
  have hend := Step.Ends.after (PromiseCall.run_ends hwp) hn
  have hsame : (h.shared n = none → ((PromiseCall.getFuture f).run env call k h).after.shared n =
      none) := by
    rcases hend with ⟨-, heq⟩ | ⟨-, heq⟩ <;> rw [heq] <;> exact id
  obtain ⟨hshared, hful⟩ := hat.kept he (by rw [PromiseCall.run_call]; rfl) hsame
  have hthen : (∃ s ∈ pre ++ [(PromiseCall.getFuture f).run env call k h], s.call.isThen) →
      ∃ s ∈ pre, s.call.isThen := by
    rintro ⟨s, hs, hsthen⟩
    rcases List.mem_append.mp hs with hs | hs
    · exact ⟨s, hs, hsthen⟩
    · rw [List.mem_singleton.mp hs, PromiseCall.run_call] at hsthen
      cases hsthen
  refine ⟨hi, he.held.trans hat.idle, hshared, hful, ?_, ?_, fun hall => ?_⟩
  · rw [retrieves_append, PromiseCall.run_call]
    rcases hend with ⟨-, heq⟩ | ⟨hr, heq⟩
    · rw [heq]
      simp [PromiseCall.retrieves]
    · rw [heq, hr, Option.isSome_or, ← hat.retrieved, hr, Bool.true_or]
  · exact fun hex => he.retrieved n (hat.ordered (hthen hex))
  · obtain ⟨hcont, hfut⟩ := hat.plain fun s hs => hall s (List.mem_append_left _ hs)
    rw [retrieves_append, PromiseCall.run_call]
    rcases hend with ⟨hr, heq⟩ | ⟨hr, heq⟩
    · rw [hat.retrieved, Option.isSome_eq_false_iff, Option.isNone_iff_eq_none] at hr
      rw [heq, hr]
      refine ⟨hcont, ?_⟩
      rintro f' ⟨⟩
      simp [Heap.setFuture]
    · rw [hat.retrieved, Option.isSome_iff_exists] at hr
      obtain ⟨f', hf'⟩ := hr
      rw [heq, hf']
      refine ⟨hcont, ?_⟩
      rintro g ⟨⟩
      exact hfut _ hf'

/-- The call of `then`. -/
lemma At.andThen {call : Cont V × FutureLoc → Code V Unit} (hat : At env k n pre h)
    {f next : ℕ} {κ : Kind} {func : Handle → Prog V κ}
    (hf : h.futures (.handle (.named f)) = some ⟨some n, some n⟩)
    (hi : Inv (Client.sparing k (some ⟨some n, some n⟩)) none
      ((PromiseCall.andThen f κ func next).run env call k h).after)
    (he : Ext h ((PromiseCall.andThen f κ func next).run env call k h).after)
    (hn : ¬ ((PromiseCall.andThen f κ func next).run env call k h).Stopped) :
    At env k n (pre ++ [(PromiseCall.andThen f κ func next).run env call k h])
      ((PromiseCall.andThen f κ func next).run env call k h).after := by
  have hret : h.retrieved n = true := hat.inv.core.graph.future_retrieved _ _ n hf rfl
  have hunready : h.shared n = none →
      ((PromiseCall.andThen f κ func next).run env call k h).after.shared n = none := by
    intro hnone
    have hwp : wp ((PromiseCall.andThen f κ func next).code env call k) _ h :=
      PromiseCall.wp_store hat.inv hnone hf
    have hend := Step.Ends.after (PromiseCall.run_ends hwp) hn
    rw [hend, hnone]
  obtain ⟨hshared, hful⟩ := hat.kept he (by rw [PromiseCall.run_call]; rfl) hunready
  refine ⟨hi, he.held.trans hat.idle, hshared, hful, ?_, fun _ => he.retrieved n hret, ?_⟩
  · rw [retrieves_append, Option.isSome_or, ← hat.retrieved, hret, Bool.true_or]
    exact he.retrieved n hret
  · intro hall
    have hthen := hall _ (List.mem_append_right _ (List.mem_singleton_self _))
    rw [PromiseCall.run_call] at hthen
    cases hthen

/-- `then` is called on the future that `get_future` has returned. -/
lemma At.valid {f next : ℕ} {κ : Kind} {func : Handle → Prog V κ} (hat : At env k n pre h)
    (hf : (PromiseCall.andThen f κ func next).Follows (pre.map Step.call)) :
    h.futures (.handle (.named f)) = some ⟨some n, some n⟩ := by
  obtain ⟨hpre, hfirst⟩ := hf
  refine (hat.plain fun s hs => hpre _ (List.mem_map_of_mem hs)).2 f ?_
  rw [← hfirst, List.findSome?_map]
  rfl

theorem At.step {call : Cont V × FutureLoc → Code V Unit} (hat : At env k n pre h)
    (hcall : CallSpec (Client.sparing k (some ⟨some n, some n⟩)) fuel fuel call)
    (hc : c.Spares k) (hf : c.Follows (pre.map Step.call))
    (hn : ¬ (c.run env call k h).Stopped) :
    At env k n (pre ++ [c.run env call k h]) (c.run env call k h).after := by
  obtain ⟨hi, he⟩ := Step.Ends.after (PromiseCall.run_ends (PromiseCall.wp_code hcall hat.inv hc))
    hn
  cases c with
  | setValue v cat => exact hat.fulfil hcall rfl hi he hn
  | setError e => exact hat.fulfil hcall rfl hi he hn
  | setException x => exact hat.fulfil hcall rfl hi he hn
  | getFuture f => exact hat.getFuture hi he hn
  | andThen f κ func next => exact hat.andThen (hat.valid hf) hi he hn

/-- Every call of a sequence is run in a memory for which the calls before it account. -/
theorem steps_at {call : Cont V × FutureLoc → Code V Unit}
    (hcall : CallSpec (Client.sparing k (some ⟨some n, some n⟩)) fuel fuel call)
    (hat : At env k n pre h) {cs : List (PromiseCall V)}
    (hcs : ∀ a c b, cs = a ++ c :: b → c.Spares k ∧ c.Follows (pre.map Step.call ++ a)) :
    ∀ tr s post, steps env call k cs h = tr ++ s :: post →
      At env k n (pre ++ tr) s.before ∧ s.call.run env call k s.before = s ∧ s.call.Spares k ∧
        s.call.Follows ((pre ++ tr).map Step.call) := by
  induction cs generalizing pre h with
  | nil =>
    intro tr s post heq
    simp [steps] at heq
  | cons c cs ih =>
    obtain ⟨hc, hfollows⟩ := hcs [] c cs rfl
    rw [List.append_nil] at hfollows
    intro tr s post heq
    rw [steps] at heq
    cases tr with
    | nil =>
      obtain ⟨rfl, -⟩ := List.cons.inj heq
      simpa using ⟨hat, hc, hfollows⟩
    | cons s₀ tr =>
      obtain ⟨rfl, htail⟩ := List.cons.inj heq
      have hn : ¬ (c.run env call k h).Stopped := by
        rintro ⟨f, hf⟩
        rw [hf] at htail
        simp at htail
      have hnext : steps env call k cs (c.run env call k h).after = tr ++ s :: post := by
        refine Eq.trans ?_ htail
        split
        · next f hf => exact absurd ⟨f, hf⟩ hn
        · rfl
        · rfl
      have hat' := hat.step hcall hc hfollows hn
      have hcs' : ∀ a c' b, cs = a ++ c' :: b → c'.Spares k ∧
          c'.Follows ((pre ++ [c.run env call k h]).map Step.call ++ a) := by
        rintro a c' b rfl
        simpa using hcs (c :: a) c' b rfl
      simpa using ih hat' hcs' tr s post hnext

/-- The promise has just been constructed. -/
lemma At.initial (hi : Inv (Client.sparing k none) none h) (hidle : h.held = []) :
    At env k h.next [] (h.newPromise (.named k)) := by
  have hk : h.promises (.named k) = none := hi.client
  have hfresh := hi.core.graph.fresh h.next (Nat.le_refl _)
  have hJ : (h.newPromise (.named k)).promises (.named k) = some ⟨some h.next, some h.next⟩ := by
    simp [Heap.newPromise, Heap.setPromise]
  have hi' : Inv (Client.sparing k (some ⟨some h.next, some h.next⟩)).blind none
      (h.newPromise (.named k)) := (hi.blind.newPromise hk trivial).1
  refine ⟨hi'.of_blind hJ, hidle, hfresh.1, by simp [first], hfresh.2.1, by simp, fun _ => ?_⟩
  exact ⟨hfresh.2.2.1, by simp⟩

/-! ## The first fulfilment wins -/

lemma Chronicle.countP_isCall (hc : Chronicle h) (m : ℕ) : h.log.countP (Event.isCall m) ≤ 1 := by
  refine hc.countP_le_one (k := .called m) fun e he => ?_
  cases e <;> simp_all [Event.isCall, Event.key]

/-- A function that was registered at a promise of the program has been called when this is
fulfilled. -/
lemma At.called (hat : At env k n pre h) (hst : first env pre = some st) {m : ℕ}
    (hm : .registered m n ∈ h.log) :
    .called m (some st) ∈ h.log ∧ h.log.countP (Event.isCall m) = 1 := by
  have hful : h.Fulfilled n := ⟨st, hat.fulfilled st hst⟩
  have hcalled : .called m (some st) ∈ h.log := by
    rcases hat.inv.linked m (by simp) n hm with ⟨st', hc, hst'⟩ | ⟨-, -, hf⟩ | ⟨-, hf⟩
    · rw [hat.shared, hst] at hst'
      cases hst'
      exact hc
    · exact absurd hful hf
    · exact absurd hful hf
  refine ⟨hcalled, Nat.le_antisymm (hat.inv.core.chronicle.countP_isCall m) ?_⟩
  exact List.countP_pos_iff.mpr ⟨_, hcalled, by simp [Event.isCall]⟩

/-- `get_future` works the first time. -/
lemma At.getFuture_ends {s : Step V} (hat : At env k n pre s.before) {f : ℕ}
    (hs : s.call.run env call k s.before = s) (hcall : s.call = .getFuture f)
    (hfree : s.before.futures (.handle (.named f)) = none) :
    if (pre.findSome? fun s => s.call.retrieves).isSome then
      s.ending = .threw (stdError .futureAlreadyRetrieved) ∧ s.after = s.before
    else s.ending = .returned ∧ s.after.futures (.handle (.named f)) = some ⟨some n, some n⟩ := by
  rw [← hat.retrieved]
  have hwp : wp ((PromiseCall.getFuture f).code env call k)
      ⟨fun _ h' => s.before.retrieved n = false ∧
          h'.futures (.handle (.named f)) = some ⟨some n, some n⟩,
        fun x h' => s.before.retrieved n = true ∧ x = stdError .futureAlreadyRetrieved ∧
          h' = s.before, fun _ _ => False⟩ s.before := by
    refine PromiseCall.wp_getFuture hat.inv f (fun _ hr => ⟨hr, ?_⟩) (fun _ hr => ⟨hr, rfl, rfl⟩)
      fun hne => hne hfree
    simp [Heap.setFuture]
  have hend := PromiseCall.run_ends hwp
  rw [← hcall, hs] at hend
  unfold Step.Ends at hend
  split at hend
  · next heq =>
    rw [hend.1]
    exact ⟨heq, hend.2⟩
  · next heq =>
    obtain ⟨hr, rfl, hsame⟩ := hend
    rw [hr]
    exact ⟨heq, hsame⟩
  · exact hend.elim

lemma At.registers {s : Step V} {call : Cont V × FutureLoc → Code V Unit}
    (hat : At env k n pre s.before)
    (hcall : CallSpec (Client.sparing k (some ⟨some n, some n⟩)) fuel fuel call)
    (hs : s.call.run env call k s.before = s) (hc : s.call.Spares k)
    (hf : s.call.Follows (pre.map Step.call)) (hthen : s.call.isThen) (hn : ¬ s.Stopped) :
    .registered s.before.next n ∈ s.after.log := by
  rcases s with ⟨h, c, e, h'⟩
  cases c with
  | andThen f κ func next =>
    have hwp : wp ((PromiseCall.andThen f κ func next).code env call k) _ h :=
      PromiseCall.wp_registers hcall hat.inv hc (hat.valid hf)
    have hend := PromiseCall.run_ends hwp
    rw [hs] at hend
    exact hend.after hn
  | setValue | setError | setException | getFuture => cases hthen

/-- In every sequence of calls on a promise, of `then` at most once, the first fulfilment
wins. -/
theorem firstWins (env : ℕ → Option Exn) (fuel : ℕ) {κ : Kind} (p : Prog V κ)
    (hp : p.Within (Act.Spares k) fun _ => True) (hend : (runMain env fuel p).fault = none)
    {cs : List (PromiseCall V)} (hcs : Proper k cs) :
    FirstWins env (runMain env fuel p).state.next
      (steps env (invoke env fuel) k cs ((runMain env fuel p).state.newPromise (.named k))) := by
  obtain ⟨hi, hidle⟩ : Inv (Client.sparing k none) none (runMain env fuel p).state ∧
      (runMain env fuel p).state.held = [] := by
    have hrun := (Client.sparing_tolerant (V := V) k none).run rfl env fuel hp
    unfold wp at hrun
    unfold runMain at hend ⊢
    split at hrun
    · next heq =>
      rw [heq]
      exact ⟨hrun.1, hrun.2.1.held⟩
    · next heq =>
      rw [heq]
      exact ⟨hrun.1, hrun.2.1.held⟩
    · next heq =>
      rw [heq] at hend
      cases hend
  generalize (runMain env fuel p).state = h at hi hidle ⊢
  have hcall : CallSpec (Client.sparing k (some ⟨some h.next, some h.next⟩)) fuel fuel
      (invoke env fuel) := (Client.sparing_tolerant (V := V) k _).callSpec env fuel
  have hstart : At env k h.next [] (h.newPromise (.named k)) := At.initial hi hidle
  have hat := steps_at hcall hstart (fun a c b heq => hcs a c b heq)
  have hafter : ∀ tr s post, steps env (invoke env fuel) k cs (h.newPromise (.named k)) =
      tr ++ s :: post → ¬ s.Stopped → At env k h.next (tr ++ [s]) s.after := by
    intro tr s post heq hn
    obtain ⟨hat, hrun, hc, hf⟩ := hat tr s post heq
    rw [← hrun] at hn ⊢
    exact hat.step hcall hc hf hn
  constructor
  · exact fun tr s post heq hn => (hafter tr s post heq hn).shared
  · intro tr s post st heq hn hst f r hf
    exact reports_iff hf ((hafter tr s post heq hn).shared.trans hst)
  · intro tr s post heq hfirst hst hc
    obtain ⟨hat, hrun, -, -⟩ := hat tr s post heq
    obtain ⟨st, hfirst⟩ := Option.isSome_iff_exists.mp hfirst
    have hwp : wp (s.call.code env (invoke env fuel) k) _ s.before :=
      PromiseCall.wp_refused hat.inv hat.idle (hat.shared.trans hfirst) hc hst
    have hs := PromiseCall.run_ends hwp
    rw [hrun] at hs
    exact hs.refused
  · intro s hs x hx
    obtain ⟨tr, post, heq⟩ := List.append_of_mem hs
    obtain ⟨hat, hrun, -, -⟩ := hat tr s post heq
    have hwp : wp (s.call.code env (invoke env fuel) k) _ s.before :=
      PromiseCall.wp_copyFault hat.inv hx
    have hs := PromiseCall.run_ends hwp
    rw [hrun] at hs
    exact hs.refused
  · intro tr s post f heq hcallf hfree
    obtain ⟨hat, hrun, -, -⟩ := hat tr s post heq
    exact hat.getFuture_ends hrun hcallf hfree
  · intro s hs hthen hn
    obtain ⟨tr, post, heq⟩ := List.append_of_mem hs
    obtain ⟨hat, hrun, hc, hf⟩ := hat tr s post heq
    exact hat.registers hcall hrun hc hf hthen hn
  · intro s hs hn m
    obtain ⟨tr, post, heq⟩ := List.append_of_mem hs
    exact (hafter tr s post heq hn).inv.core.chronicle.countP_isCall m
  · exact fun tr s post st heq hn hst m hm => (hafter tr s post heq hn).called hst hm

/-- The promise is fulfilled, `then` is called, and what comes later fails. -/
def fulfilTwice : List (PromiseCall ℕ) :=
  [.getFuture 0, .setValue (some 3) .lvalue, .andThen 0 .void (fun _ => .ret ()) 1,
    .setError ⟨7, .optional, 5⟩, .getFuture 2]

lemma fulfilTwice_proper : Proper 0 fulfilTwice := by
  intro pre c post heq
  rcases pre with _ | ⟨_, _ | ⟨_, _ | ⟨_, _ | ⟨_, _ | ⟨_, pre⟩⟩⟩⟩⟩ <;>
    simp only [fulfilTwice, List.nil_append, List.cons_append, List.cons.injEq, reduceCtorEq,
      and_false, List.nil_eq, List.append_eq_nil_iff] at heq
  · obtain ⟨rfl, -⟩ := heq
    exact ⟨trivial, trivial⟩
  · obtain ⟨-, rfl, -⟩ := heq
    exact ⟨trivial, trivial⟩
  · obtain ⟨rfl, rfl, rfl, -⟩ := heq
    exact ⟨fun _ => trivial, by simp [PromiseCall.isThen], rfl⟩
  · obtain ⟨-, -, -, rfl, -⟩ := heq
    exact ⟨trivial, trivial⟩
  · obtain ⟨-, -, -, -, rfl, -⟩ := heq
    exact ⟨trivial, trivial⟩

theorem firstWins_fulfilTwice :
    FirstWins (fun _ => none) 0
      (steps (fun _ => none) (invoke (fun _ => none) 1) 0 fulfilTwice
        (Heap.initial.newPromise (.named 0))) :=
  firstWins (fun _ => none) 1 (.ret () : Prog ℕ .void) trivial rfl fulfilTwice_proper

/-- A late `set_value` copies the value before it finds out that it is late. -/
theorem setValue_copies_first :
    ¬ ∀ (env : ℕ → Option Exn) (cs : List (PromiseCall ℕ)) pre s post, Proper 0 cs →
      steps env (invoke env 0) 0 cs (Heap.initial.newPromise (.named 0)) = pre ++ s :: post →
      (∃ s' ∈ pre, s'.call.stored.isSome ∧ s'.ending = .returned) → s.call.stored.isSome →
      s.ending = .threw (stdError .promiseAlreadySatisfied) := by
  intro hall
  have hproper : Proper 0 [.setError ⟨7, .optional, 5⟩, .setValue (some 3) .lvalue] := by
    intro pre c post heq
    rcases pre with _ | ⟨_, _ | ⟨_, pre⟩⟩ <;>
      simp only [List.nil_append, List.cons_append, List.cons.injEq, reduceCtorEq,
        and_false, List.nil_eq, List.append_eq_nil_iff] at heq
    · obtain ⟨rfl, -⟩ := heq
      exact ⟨trivial, trivial⟩
    · obtain ⟨-, rfl, -⟩ := heq
      exact ⟨trivial, trivial⟩
  have hthrew := hall (fun _ => some .std) _ [_] _ [] hproper rfl
    ⟨_, List.mem_singleton_self _, rfl, rfl⟩ rfl
  cases hthrew

end AraCore.Future
