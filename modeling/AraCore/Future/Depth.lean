/-
# How deeply continuations are nested

The bound on the nesting of continuations has no influence on a run, unless the run comes to it:
a program does the same whatever happens at the bound.  A run that cannot come to the bound, as
not enough continuations exist for that, is thus the same as one without a bound.
-/
import AraCore.Future.Then
import AraCore.Lib.Respects

namespace AraCore.Future

open Lib Comp

variable {V : Type} {env : ℕ → Option Exn} {call call' : Cont V × FutureLoc → Code V Unit}

section Agreement

variable (hcall : ∀ x, Agree .outOfFuel (call x) (call' x))

include hcall

lemma agree_fireContinuation (s : ℕ) :
    Agree .outOfFuel (fireContinuation call s) (fireContinuation call' s) := by
  refine .bind (.refl _ _) fun h => ?_
  cases (h.states s).continuation with
  | none => exact .refl _ _
  | some c => exact .bind (.refl _ _) fun _ => .cleanup (hcall _) _

lemma agree_makeReady (p : PromiseLoc) (copy : Code V Unit) (st : Stored V) :
    Agree .outOfFuel (makeReady call p copy st) (makeReady call' p copy st) := by
  refine .bind (.refl _ _) fun _ => .cleanup (.bind (.refl _ _) fun _ => ?_) _
  refine .bind (.refl _ _) fun o => ?_
  cases o.extra with
  | none => exact .refl _ _
  | some s => exact agree_fireContinuation hcall s

lemma agree_setValue (p : PromiseLoc) (c : Category) (v : Option V) :
    Agree .outOfFuel (setValue env call p c v) (setValue env call' p c v) := by
  cases v with
  | none => exact agree_makeReady hcall _ _ _
  | some v =>
    cases c with
    | lvalue => exact .bind (.refl _ _) fun _ => agree_makeReady hcall _ _ _
    | rvalue => exact agree_makeReady hcall _ _ _

lemma agree_innerContinuation (m : ℕ) (f : FutureLoc) :
    Agree .outOfFuel (innerContinuation env call m f) (innerContinuation env call' m f) := by
  refine .bind (.refl _ _) fun r => ?_
  cases r with
  | ok v => exact agree_setValue hcall _ _ _
  | error e => exact agree_makeReady hcall _ _ _

lemma agree_handlers (m : ℕ) (x : Exn) :
    Agree .outOfFuel (handlers call m x) (handlers call' m x) := by
  unfold handlers
  cases x.handled with
  | none => exact .refl _ _
  | some e => exact agree_makeReady hcall _ _ _

lemma agree_attachInner (m : ℕ) :
    Agree .outOfFuel (attachInner call m) (attachInner call' m) := by
  refine .bind (.refl _ _) fun o => ?_
  cases o.delegate with
  | none => exact agree_makeReady hcall _ _ _
  | some j =>
    cases o.extra with
    | none => exact .refl _ _
    | some s =>
      refine .bind (.refl _ _) fun _ => .bind (.refl _ _) fun _ => .bind (.refl _ _) fun h => ?_
      cases h.shared j with
      | none => exact .refl _ _
      | some st =>
        exact .bind (.refl _ _) fun _ =>
          .cleanup (.bind (.refl _ _) fun _ => .cleanup (hcall _) _) _

omit hcall in
/-- A function is called that does the same. -/
lemma agree_callFunc {κ : Kind} {body body' : Code V (κ.Ret V)} (hb : Agree .outOfFuel body body')
    (m : ℕ) (f : FutureLoc) : Agree .outOfFuel (callFunc m body f) (callFunc m body' f) := by
  refine .bind (.refl _ _) fun o => .bind (.refl _ _) fun _ => .bind (.refl _ _) fun _ => ?_
  exact .bind (.unwind (.cleanup (.bind hb fun r => .refl _ _) _) _) fun r => .refl _ _

lemma agree_fulfillPromise {κ : Kind} {body body' : Code V (κ.Ret V)}
    (hb : Agree .outOfFuel body body') (m : ℕ) (f : FutureLoc) :
    Agree .outOfFuel (fulfillPromise env call m κ body f)
      (fulfillPromise env call' m κ body' f) := by
  cases κ with
  | future =>
    exact .tryCatch (.bind (agree_callFunc hb m f) fun _ =>
      .cleanup (agree_attachInner hcall m) _) (agree_handlers hcall m)
  | result =>
    refine .tryCatch (.bind (agree_callFunc hb m f) fun r => ?_) (agree_handlers hcall m)
    cases r with
    | ok v => exact agree_setValue hcall _ _ _
    | error e => exact agree_makeReady hcall _ _ _
  | value =>
    exact .tryCatch (.bind (agree_callFunc hb m f) fun _ => agree_setValue hcall _ _ _)
      (agree_handlers hcall m)
  | void =>
    exact .tryCatch (.bind (agree_callFunc hb m f) fun _ => agree_setValue hcall _ _ _)
      (agree_handlers hcall m)

lemma agree_andThen (f : Handle) (κ : Kind) (func : Handle → Prog V κ) :
    Agree .outOfFuel (andThen call f κ func) (andThen call' f κ func) := by
  refine .bind (.refl _ _) fun o => ?_
  cases o.extra with
  | none => exact .refl _ _
  | some s =>
    refine .bind (.refl _ _) fun _ => .bind (.refl _ _) fun h => .bind (.refl _ _) fun _ => ?_
    cases o.delegate with
    | none => exact .refl _ _
    | some n =>
      refine .bind (.refl _ _) fun _ => .bind (.refl _ _) fun g => ?_
      dsimp only
      cases g.shared n with
      | none => exact .refl _ _
      | some st =>
        exact .bind (.refl _ _) fun _ => .bind (.unwind (.cleanup (.bind (.refl _ _) fun _ =>
          .cleanup (hcall _) _) _) _) fun _ => .refl _ _

lemma agree_perform (a : Act V) :
    Agree .outOfFuel (perform env call a) (perform env call' a) := by
  cases a with
  | setValue k v c =>
    exact .bind (.refl _ _) fun _ => .bind (agree_setValue hcall _ _ _) fun _ => .refl _ _
  | setError k e =>
    exact .bind (.refl _ _) fun _ => .bind (agree_makeReady hcall _ _ _) fun _ => .refl _ _
  | setException k x =>
    exact .bind (.refl _ _) fun _ => .bind (.refl _ _) fun _ =>
      .bind (agree_makeReady hcall _ _ _) fun _ => .refl _ _
  | _ => exact .refl _ _

lemma agree_runProg {κ : Kind} (p : Prog V κ) :
    Agree .outOfFuel (runProg env call p) (runProg env call' p) := by
  induction p with
  | ret r => exact .refl _ _
  | throw x => exact .refl _ _
  | act a k ih => exact .bind (.attempt (agree_perform hcall a)) ih
  | thenCall f κ' func next k _ ih =>
    exact .bind (.attempt (.bind (agree_andThen hcall f κ' func) fun m => .refl _ _)) ih

lemma agree_invokeStep (x : Cont V × FutureLoc) :
    Agree .outOfFuel (invokeStep env call x) (invokeStep env call' x) := by
  obtain ⟨c, f⟩ := x
  refine .bind (.refl _ _) fun _ => .unwind ?_ _
  cases c with
  | link m κ func => exact agree_fulfillPromise hcall (agree_runProg hcall _) m f
  | relay m => exact agree_innerContinuation hcall m f

end Agreement

/-- What is done where the bound is reached does not matter to a run that does not come there. -/
lemma agree_invoke (env : ℕ → Option Exn) (base : Cont V × FutureLoc → Code V Unit)
    (hbase : ∀ x h, ∃ f, base x h = .stop f h) (fuel : ℕ) (x : Cont V × FutureLoc) :
    Agree .outOfFuel (invoke env fuel x) ((invokeStep env)^[fuel] base x) := by
  rw [invoke_eq]
  refine .iterate (fun call call' hcall => agree_invokeStep hcall) (fun y h => ?_) fuel x
  obtain ⟨f, hf⟩ := hbase y h
  exact Or.inr ⟨f, h, rfl, hf⟩

end AraCore.Future
