/-
# The class template `Result`

A `Result<T, E>` is a `Variant<T, E>` with default special members.  Its accessors take the
absence of a value for the presence of an error.  The specialization `Result<void, E>` has
the same members over `Variant<dummy, E>`; its `FromValue()` passes a `dummy`.
-/
import AraCore.Variant.Emplace

namespace AraCore

open Lib

/-- The types of a `Result`: those of a variant with the alternatives `T` and `E`. -/
structure ResultTypes (τ V : Type*) extends Alternatives τ V where
  /-- `value_type`, or `dummy` -/
  T : τ
  /-- `error_type` -/
  E : τ
  T_ne_E : T ≠ E
  types_eq : types = [T, E]

namespace Result

variable {τ V : Type*} [DecidableEq τ] (R : ResultTypes τ V)

/-! ## Construction and assignment -/

/-- `T { std::forward<Args>(args)... }`: the value of the prvalue, and the world after the
arguments were used. -/
def fromArgs (w : World τ V) (t : τ) (args : Arg τ V) : Except Fault (World τ V × V) := do
  let (u, x) ← Variant.argument w args
  match args with
  | .ref n .rvalue =>
    .ok ({ w with mem := w.mem.assign (.named n) u (R.movedFrom u x) }, R.convert t u x)
  | _ => .ok (w, R.convert t u x)

/-- `FromValue` and `FromError` for the alternative `t`: a `t` is passed on to `mData`, and of
other arguments a `t` is made first. -/
def fromAlternative (w : World τ V) (this : Loc) (t : τ) (args : Arg τ V) :
    Except Fault (World τ V) := do
  let (u, _) ← Variant.argument w args
  if u = t then Variant.convertConstruct R.toAlternatives w this args
  else do
    let (w, x) ← fromArgs R w t args
    Variant.convertConstruct R.toAlternatives w this (.value t x)

/-- `FromValue` -/
def fromValue (w : World τ V) (this : Loc) (args : Arg τ V) : Except Fault (World τ V) :=
  fromAlternative R w this R.T args

/-- `FromError` -/
def fromError (w : World τ V) (this : Loc) (args : Arg τ V) : Except Fault (World τ V) :=
  fromAlternative R w this R.E args

/-- `EmplaceValue` -/
def emplaceValue (w : World τ V) (this : Loc) (args : Arg τ V) : Except Fault (World τ V) :=
  Variant.emplace R.toAlternatives w this (.type R.T) false args

/-- `EmplaceError` -/
def emplaceError (w : World τ V) (this : Loc) (args : Arg τ V) : Except Fault (World τ V) :=
  Variant.emplace R.toAlternatives w this (.type R.E) false args

/-- `Swap`, which finds `std::swap` for `mData` -/
def swap (w : World τ V) (this other : Loc) : Except Fault (World τ V) :=
  Variant.stdSwap R.toAlternatives w this other

/-! ## Access -/

/-- How an access to a `Result` ends. -/
inductive Access (V α : Type*) where
  | returned (a : α)
  /-- The exception of the error `e` is thrown. -/
  | threw (e : V)
  /-- `std::terminate()` -/
  | terminated
  | nullDeref
deriving DecidableEq, Repr

/-- `get_if<t>(&mData)`, the object for a pointer that is not null -/
def getIf (w : World τ V) (l : Loc) (t : τ) : Option (Obj τ V) :=
  if getIndexOfType 0 t R.types = some (w.typeIndex l) then w.mem.cell l else none

/-- `HasValue()` -/
def hasValue (w : World τ V) (l : Loc) : Bool := w.typeIndex l == 0

/-- `Value()` -/
def value (w : World τ V) (l : Loc) : Access V V :=
  match getIf R w l R.T with
  | some x => .returned x.val
  | none => .terminated

/-- `Error()` -/
def error (w : World τ V) (l : Loc) : Access V V :=
  match getIf R w l R.E with
  | some x => .returned x.val
  | none => .terminated

/-- `ValueOrThrow()` -/
def valueOrThrow (w : World τ V) (l : Loc) : Access V V :=
  match getIf R w l R.T with
  | some x => .returned x.val
  | none =>
    match getIf R w l R.E with
    | some e => .threw e.val
    | none => .nullDeref

/-- Compare what two accesses return. -/
def Access.compare (eq : V → V → Bool) : Access V V → Access V V → Access V Bool
  | .returned a, .returned b => .returned (eq a b)
  | .returned _, .threw e | .threw e, _ => .threw e
  | .returned _, .terminated | .terminated, _ => .terminated
  | .returned _, .nullDeref | .nullDeref, _ => .nullDeref

/-- `operator==` of two `Result`s, given that of their values and errors -/
def beq (eq : V → V → Bool) (w : World τ V) (lhs rhs : Loc) : Access V Bool :=
  if hasValue w lhs ≠ hasValue w rhs then .returned false
  else if hasValue w lhs then (value R w lhs).compare eq (value R w rhs)
  else (error R w lhs).compare eq (error R w rhs)

/-! ## Programs -/

/-- One operation of a program over named `Result`s. -/
inductive Op (τ V : Type*) where
  | fromValue (v : ℕ) (args : Arg τ V)
  | fromError (v : ℕ) (args : Arg τ V)
  | copyConstruct (v u : ℕ)
  | moveConstruct (v u : ℕ)
  | copyAssign (v u : ℕ)
  | moveAssign (v u : ℕ)
  | emplaceValue (v : ℕ) (args : Arg τ V)
  | emplaceError (v : ℕ) (args : Arg τ V)
  | swap (v u : ℕ)
  | destroy (v : ℕ)
deriving DecidableEq, Repr

/-- The `Result`s that an operation constructs. -/
def Op.constructs : Op τ V → List ℕ
  | .fromValue v _ | .fromError v _ | .copyConstruct v _ | .moveConstruct v _ => [v]
  | _ => []

/-- The `Result`s that have to exist for an operation. -/
def Op.uses : Op τ V → List ℕ
  | .fromValue _ args | .fromError _ args => args.refers
  | .copyConstruct _ u | .moveConstruct _ u => [u]
  | .copyAssign v u | .moveAssign v u | .swap v u => [v, u]
  | .emplaceValue v args | .emplaceError v args => v :: args.refers
  | .destroy v => [v]

/-- Every `Result` the operation constructs is new, and every one it uses exists. -/
def Op.inScope (w : World τ V) (op : Op τ V) : Bool :=
  op.constructs.all (fun v => (w.index (.named v)).isNone) &&
    op.uses.all (fun v => (w.index (.named v)).isSome)

/-- The effect of an operation whose operands are in scope. -/
def perform (w : World τ V) : Op τ V → Except Fault (World τ V)
  | .fromValue v args => fromValue R w (.named v) args
  | .fromError v args => fromError R w (.named v) args
  | .copyConstruct v u => Variant.copyConstruct R.toAlternatives w (.named v) (.named u)
  | .moveConstruct v u => Variant.moveConstruct R.toAlternatives w (.named v) (.named u)
  | .copyAssign v u => Variant.copyAssign R.toAlternatives w (.named v) (.named u)
  | .moveAssign v u => Variant.moveAssign R.toAlternatives w (.named v) (.named u)
  | .emplaceValue v args => emplaceValue R w (.named v) args
  | .emplaceError v args => emplaceError R w (.named v) args
  | .swap v u => swap R w (.named v) (.named u)
  | .destroy v => Variant.destroy R.toAlternatives w (.named v)

/-- One step of a program, for runs. -/
def step (w : World τ V) (op : Op τ V) : Option (World τ V) :=
  if op.inScope w then (perform R w op).toOption else none

end Result
end AraCore
