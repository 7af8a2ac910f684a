/-
# Programs that build a chain

A program makes some promises, retrieves their futures, and builds a chain of calls of `then` on
the first one.  In between, in any order, it fulfils the promises; at last it takes the result of
the last future of the chain.  If the functions only look at futures, no move of the program
throws or comes to a fault.
-/
import AraCore.Future.Passive

namespace AraCore.Future

open Lib Comp

variable {V : Type}

/-! ## Programs -/

/-- What a promise is fulfilled with: a value, an error, or an exception that is derived from
`std::exception`. -/
inductive Given (V : Type) where
  | value (v : Option V) (c : Category)
  | error (e : ErrorCode)
  | exception (x : Exn) (hx : x.IsStd)

namespace Given

/-- The operation that fulfils the promise `k`. -/
def act (k : ℕ) : Given V → Act V
  | value v c => .setValue k v c
  | error e => .setError k e
  | exception x _ => .setException k x

/-- What the shared state is ready with. -/
def stored : Given V → Stored V
  | value v _ => .value v
  | error e => .error e
  | exception x _ => .exception x

end Given

/-- A function that is passed to `then`. -/
structure Stage (V : Type) where
  kind : Kind
  code : Handle → Prog V kind

/-- A move of the program: it calls `then` with the next function, or fulfils the promise `k`. -/
inductive Move where
  | attach
  | fulfil (k : ℕ)
deriving DecidableEq, Repr

/-- The last future of a chain of `i` calls of `then`, if there are `p` promises: its variable and
its shared state. -/
def tail (p : ℕ) : ℕ → ℕ
  | 0 => 0
  | i + 1 => p + i

/-- `j` promises are made, from the `k`-th on, and their futures are retrieved. -/
def prepare {κ : Kind} : ℕ → ℕ → Prog V κ → Prog V κ
  | 0, _, p => p
  | j + 1, k, p => .act (.newPromise k) fun _ => .act (.getFuture k k) fun _ => prepare j (k + 1) p

/-- The result of the last future. -/
def finish (f : ℕ) : Prog V .result :=
  .act (.getResult (.named f)) fun s =>
    match s with
    | .ok (.result r) => .ret r
    | _ => .throw .std

section Program

variable (given : List (Given V)) (stages : List (Stage V))

/-- The rest of the program when `i` functions have been passed to `then`. -/
def follow : ℕ → List Move → Prog V .result
  | i, [] => finish (tail given.length i)
  | i, .attach :: σ =>
    match stages[i]? with
    | none => follow i σ
    | some s =>
      .thenCall (.named (tail given.length i)) s.kind s.code (given.length + i) fun _ =>
        follow (i + 1) σ
  | i, .fulfil k :: σ =>
    match given[k]? with
    | none => follow i σ
    | some g => .act (g.act k) fun _ => follow i σ

/-- The program with the given schedule. -/
def build (σ : List Move) : Prog V .result :=
  prepare given.length 0 (follow given stages 0 σ)

/-- Every promise is fulfilled before `then` is called. -/
def fulfilFirst : List Move :=
  (List.range given.length).map .fulfil ++ List.replicate stages.length .attach

/-- Every promise is fulfilled once, and every function passed to `then`, at any point. -/
def Complete (σ : List Move) : Prop := σ.Perm (fulfilFirst given stages)

instance (σ : List Move) : Decidable (Complete given stages σ) :=
  inferInstanceAs (Decidable (σ.Perm _))

end Program

/-! ## No faults -/

/-- Events of a program that passes nothing to `set_exception` but what is derived from
`std::exception`, and fulfils its promises between other operations. -/
def Event.Sane : Event V → Prop
  | locks ps fulfilling => ¬ (locks ps fulfilling : Event V).Conflict
  | raised x => x.IsStd
  | started p => p.node.isSome
  | _ => True

lemma Event.Calm.sane {e : Event V} (he : e.Calm) : e.Sane := by
  cases e with
  | raised x => exact he.elim
  | _ => exact he

namespace Heap

/-- The continuations that have been invoked are such as `then` makes them. -/
def orderly (h : Heap V) : Bool :=
  h.log.all fun e =>
    match e with
    | .started p => p.node.isSome
    | _ => true

variable {h : Heap V}

lemma orderly_iff : h.orderly ↔ ∀ p, .started p ∈ h.log → p.node.isSome := by
  simp only [orderly, List.all_eq_true]
  constructor
  · exact fun hall p hp => hall _ hp
  · intro hall e he
    cases e with
    | started p => exact hall p he
    | _ => rfl

lemma orderly_of_sane (hs : ∀ e ∈ h.log, e.Sane) : h.orderly :=
  orderly_iff.mpr fun _ hp => hs _ hp

/-- The promises that invoked continuations have captured. -/
def startedPromises (h : Heap V) : List PromiseLoc :=
  h.log.filterMap fun e =>
    match e with
    | .started p => some p
    | _ => none

lemma length_startedPromises (h : Heap V) : h.startedPromises.length = h.startedCount := by
  rw [startedPromises, startedCount, List.length_filterMap_eq_countP]
  refine List.countP_congr fun e _ => ?_
  cases e <;> simp

lemma mem_startedPromises {p : PromiseLoc} : p ∈ h.startedPromises ↔ h.Started p := by
  rw [startedPromises, List.mem_filterMap]
  constructor
  · rintro ⟨e, he, hp⟩
    cases e with
    | started q =>
      cases hp
      exact he
    | _ => cases hp
  · exact fun hp => ⟨_, hp, rfl⟩

end Heap

variable {h h' t : Heap V} {C : Client V} {fuel k : ℕ} {call : Cont V × FutureLoc → Code V Unit}

lemma Chronicle.nodup_startedPromises (hl : Chronicle h) : h.startedPromises.Nodup := by
  have hkeys : (h.startedPromises.map Key.started).Nodup := by
    refine hl.once.sublist ?_
    rw [Heap.startedPromises, List.map_filterMap]
    generalize h.log = l
    induction l with
    | nil => simp
    | cons e l ih =>
      cases e with
      | started p => exact ih.cons_cons _
      | registered | fulfilled | abandoned | called | returned => exact ih.cons _
      | left | threw | raised | copyThrew | copyAborted | locks => exact ih
  exact hkeys.of_map _

/-- For a successor no more than two continuations are invoked. -/
lemma Chronicle.startedCount_le (hl : Chronicle h) (ho : h.orderly) :
    h.startedCount ≤ 2 * h.next := by
  rw [← h.length_startedPromises]
  have hsub : h.startedPromises ⊆
      (List.range h.next).map PromiseLoc.succ ++ (List.range h.next).map PromiseLoc.outer := by
    intro p hp
    rw [Heap.mem_startedPromises] at hp
    have hlt := (hl.backed _ hp).1
    have hsome := Heap.orderly_iff.mp ho p hp
    cases p with
    | named k => cases hsome
    | succ m => simpa using hlt m rfl
    | outer m => simpa using hlt m rfl
  calc h.startedPromises.length
      ≤ ((List.range h.next).map PromiseLoc.succ ++
          (List.range h.next).map PromiseLoc.outer).length :=
        (List.subperm_of_subset hl.nodup_startedPromises hsub).length_le
    _ = 2 * h.next := by simp [two_mul]

/-- What is done where the bound on the nesting is reached: as long as no more continuations have
been invoked than `then` can have made, this does not happen. -/
def watched : Cont V × FutureLoc → Code V Unit := fun _ => do
  if (← get).orderly then stop .blocked else stop .outOfFuel

lemma watched_stop (x : Cont V × FutureLoc) (h : Heap V) : ∃ f, watched x h = .stop f h := by
  show ∃ f, (if h.orderly then stop .blocked else stop .outOfFuel : Code V Unit) h = .stop f h
  split
  · exact ⟨.blocked, rfl⟩
  · exact ⟨.outOfFuel, rfl⟩

/-- The bound is not reached where the client bounds the number of successors. -/
lemma callSpec_watched {N : ℕ} (hN : ∀ h, C.J h → h.next ≤ N) (hfuel : 2 * N < fuel) :
    CallSpec C fuel 0 watched := by
  intro c h hc hle
  have hch := hc.inv.core.chronicle
  simp only [watched, wp_bind, wp_get]
  split
  · next ho =>
    have ho' : (h.note (.started c.promise)).orderly := by
      rw [Heap.orderly_iff] at ho ⊢
      intro p hp
      rcases List.mem_cons.mp hp with heq | hp
      · cases heq
        simp
      · exact ho p hp
    have hcount := hch.startedCount_le ho'
    have hnext := hN _ hc.inv.client
    rw [Heap.startedCount_note] at hcount
    omega
  · exact CallSpec.outOfFuel c h hc hle

lemma respects_watched {K : ℕ → Prop} (c : Cont V) (f : FutureLoc) :
    Sparing K (fun h => ¬ h.orderly) (watched (c, f)) := by
  intro h _
  simp only [watched, wp_bind, wp_get]
  split
  · exact ⟨Std.Refl.refl h, by simp⟩
  · next ho => exact ⟨Std.Refl.refl h, fun _ => ho⟩

/-- What the code of such a program does not come to. -/
lemma Blame.absurd {K : ℕ → Prop} {f : Fault} (hb : Blame C fuel f t) (hm : ¬ C.misuse)
    (hc : ¬ C.copyThrows) (hsane : ∀ e ∈ h.log, e.Sane) (hs : Spared K h t)
    (hT : f = .outOfFuel → ¬ t.orderly) : False := by
  have hsane' : ∀ e ∈ t.log, e.Sane := fun e he =>
    (hs.calm e he).elim (hsane e) Event.Calm.sane
  cases f with
  | deadlock mx =>
    obtain ⟨e, he, hconf⟩ := hb.deadlock.mp ⟨mx, rfl⟩
    have hse := hsane' e he
    cases e with
    | locks ps fulfilling => exact hse hconf
    | _ => exact hconf
  | terminate =>
    rcases hb.terminate rfl with ⟨hthrows, -⟩ | ⟨x, hx, hmem⟩
    · exact hc hthrows
    · exact hx (hsane' _ hmem)
  | undefined => exact hm (hb.between (Or.inl rfl)).2
  | blocked => exact hm (hb.between (Or.inr rfl)).2
  | outOfFuel => exact hT rfl (Heap.orderly_of_sane hsane')

/-- No exception leaves a continuation if none is thrown but such as are derived from
`std::exception`. -/
lemma Inv.not_tainted {X : Option PromiseLoc} (hi : Inv C X h) (hc : ¬ C.copyThrows)
    (hthrew : ∀ x, .threw x ∈ h.log → x.IsStd) : ¬ h.Tainted := by
  rintro (⟨x, hx, hmem | ⟨p, hmem⟩⟩ | ⟨m, x, hmem⟩)
  · exact hx (hthrew x hmem)
  · exact hc (hi.copies p x hmem)
  · exact hc (hi.copies _ x hmem)

end AraCore.Future
