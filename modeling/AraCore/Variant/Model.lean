/-
# The class template `Variant`

A variant is raw storage and a type index, which every member function keeps up to date by
hand.  The functions below follow `variant.h` statement by statement; the storage is a cell of
`Lib.Mem`, so that constructing, destroying and using alternatives is recorded in its ledger.
-/
import AraCore.Lib.Lifetime
import AraCore.Lib.Run
import AraCore.Lib.Store
import AraCore.Variant.TypeList

namespace AraCore

open Lib

/-- The alternatives of a variant with what constructing them does to values. -/
structure Alternatives (τ V : Type*) extends TypeList τ where
  /-- `std::is_convertible` -/
  convertible : τ → τ → Bool
  /-- The value of a `t` that is constructed from a value of type `u`. -/
  convert : (t u : τ) → V → V
  /-- What moving leaves in its source. -/
  movedFrom : τ → V → V
  /-- Copying and moving preserve the value. -/
  convert_self : ∀ t v, convert t t v = v

/-- Where a variant lives: an object of the program, or the temporary of the running
operation. -/
inductive Loc where
  | named (v : ℕ)
  | temp
deriving DecidableEq, Repr

/-- The argument of a construction or assignment: a value of some type, or a reference to the
object that is stored in a variant of the program. -/
inductive Arg (τ V : Type*) where
  | value (t : τ) (x : V)
  | ref (v : ℕ) (c : Category)
deriving DecidableEq, Repr

/-- The variants that an argument refers into. -/
def Arg.refers {τ V : Type*} : Arg τ V → List ℕ
  | .value _ _ => []
  | .ref v _ => [v]

/-- How an `emplace` names the alternative. -/
inductive Selector (τ : Type*) where
  | index (i : ℕ)
  | type (t : τ)
deriving DecidableEq, Repr

/-- Why an operation has no outcome. -/
inductive Fault where
  /-- The program does not compile. -/
  | illFormed
  /-- A variable is used outside its scope. -/
  | noObject
  /-- `get` returned a null pointer that was dereferenced. -/
  | nullDeref
  /-- The `assert` at the end of `call_at_index` fails. -/
  | assertFailed
deriving DecidableEq, Repr

/-- The variants of a program: `m_type_index` of those that exist, and all `m_storage`. -/
structure World (τ V : Type*) where
  index : Loc → Option ℕ
  mem : Mem Loc τ V

namespace World

variable {τ V : Type*}

/-- Before any variant is declared. -/
def empty : World τ V := ⟨fun _ => none, Mem.empty⟩

/-- `m_type_index` -/
def typeIndex (w : World τ V) (l : Loc) : ℕ := (w.index l).getD invalidVariantIndex

/-- Assign to `m_type_index`. -/
def setIndex (w : World τ V) (l : Loc) (i : ℕ) : World τ V :=
  { w with index := Function.update w.index l (some i) }

/-- `valueless_by_exception()` -/
def valuelessByException (w : World τ V) (l : Loc) : Bool := w.typeIndex l == invalidVariantIndex

/-- `get_at_index<TypeIndex>()`; nothing for `nullptr`. -/
def getAtIndex (w : World τ V) (l : Loc) (typeIndex : ℕ) : Option (Obj τ V) :=
  if typeIndex ≠ w.typeIndex l then none else w.mem.cell l

end World

namespace Variant

variable {τ V : Type*} [DecidableEq τ] (A : Alternatives τ V)

/-! ## `call_at_index` -/

/-- Run one of the members of `call_at_index<0, Types...>` on the storage. -/
def callAtIndex (w : World τ V) (index : ℕ) (op : τ → Mem Loc τ V) :
    Except Fault (World τ V) :=
  match AraCore.callAtIndex op 0 A.types index with
  | some m => .ok { w with mem := m }
  | none => .error .assertFailed

/-- `call_at_index<0, Types...>::destructor` -/
def destructor (w : World τ V) (index : ℕ) (ptr : Loc) : Except Fault (World τ V) :=
  callAtIndex A w index fun T => w.mem.destroy ptr T

/-- `call_at_index<0, Types...>::move` -/
def move (w : World τ V) (index : ℕ) (source destination : Loc) : Except Fault (World τ V) :=
  callAtIndex A w index fun T =>
    match w.mem.read source T with
    | some v => (w.mem.assign destination T v).assign source T (A.movedFrom T v)
    | none => w.mem.misuse

/-- `call_at_index<0, Types...>::moveConstructor` -/
def moveConstructor (w : World τ V) (index : ℕ) (source destination : Loc) :
    Except Fault (World τ V) :=
  callAtIndex A w index fun T =>
    match w.mem.read source T with
    | some v => (w.mem.construct destination T v).assign source T (A.movedFrom T v)
    | none => w.mem.misuse

/-- `call_at_index<0, Types...>::copy` -/
def copy (w : World τ V) (index : ℕ) (source destination : Loc) : Except Fault (World τ V) :=
  callAtIndex A w index fun T =>
    match w.mem.read source T with
    | some v => w.mem.assign destination T v
    | none => w.mem.misuse

/-- `call_at_index<0, Types...>::copyConstructor` -/
def copyConstructor (w : World τ V) (index : ℕ) (source destination : Loc) :
    Except Fault (World τ V) :=
  callAtIndex A w index fun T =>
    match w.mem.read source T with
    | some v => w.mem.construct destination T v
    | none => w.mem.misuse

/-! ## Special members -/

/-- `call_element_destructor()` -/
def callElementDestructor (w : World τ V) (this : Loc) : Except Fault (World τ V) :=
  if w.typeIndex this ≠ invalidVariantIndex then destructor A w (w.typeIndex this) this
  else .ok w

/-- `~Variant()`, after which the storage goes away. -/
def destroy (w : World τ V) (this : Loc) : Except Fault (World τ V) := do
  let w ← callElementDestructor A w this
  .ok ⟨Function.update w.index this none, w.mem.release this⟩

/-- `Variant(const Variant &rhs)` -/
def copyConstruct (w : World τ V) (this rhs : Loc) : Except Fault (World τ V) :=
  let w := w.setIndex this (w.typeIndex rhs)
  if w.typeIndex this ≠ invalidVariantIndex then
    copyConstructor A w (w.typeIndex this) rhs this
  else .ok w

/-- `operator=(const Variant &rhs)` -/
def copyAssign (w : World τ V) (this rhs : Loc) : Except Fault (World τ V) :=
  if this ≠ rhs then
    if w.typeIndex this ≠ w.typeIndex rhs then do
      let w ← callElementDestructor A w this
      let w := w.setIndex this (w.typeIndex rhs)
      if w.typeIndex this ≠ invalidVariantIndex then
        copyConstructor A w (w.typeIndex this) rhs this
      else .ok w
    else if w.typeIndex this ≠ invalidVariantIndex then
      copy A w (w.typeIndex this) rhs this
    else .ok w
  else .ok w

/-- `Variant(Variant &&rhs)` -/
def moveConstruct (w : World τ V) (this rhs : Loc) : Except Fault (World τ V) := do
  let w := w.setIndex this (w.typeIndex rhs)
  let w ←
    if w.typeIndex this ≠ invalidVariantIndex then
      moveConstructor A w (w.typeIndex this) rhs this
    else .ok w
  .ok (w.setIndex rhs invalidVariantIndex)

/-- `operator=(Variant &&rhs)` -/
def moveAssign (w : World τ V) (this rhs : Loc) : Except Fault (World τ V) :=
  if this ≠ rhs then do
    let w ←
      if w.typeIndex this ≠ w.typeIndex rhs then do
        let w ← callElementDestructor A w this
        let w := w.setIndex this (w.typeIndex rhs)
        let w ←
          if w.typeIndex this ≠ invalidVariantIndex then
            moveConstructor A w (w.typeIndex this) rhs this
          else .ok w
        .ok (w.setIndex rhs invalidVariantIndex)
      else if w.typeIndex this ≠ invalidVariantIndex then
        move A w (w.typeIndex this) rhs this
      else .ok w
    .ok (w.setIndex rhs invalidVariantIndex)
  else .ok w

/-! ## Converting construction and assignment -/

/-- The type and value of an argument. -/
def argument (w : World τ V) : Arg τ V → Except Fault (τ × V)
  | .value t x => .ok (t, x)
  | .ref v _ =>
    if w.typeIndex (.named v) = invalidVariantIndex then .error .nullDeref
    else
      match w.mem.cell (.named v) with
      | some x => .ok (x.ty, x.val)
      | none => .error .nullDeref

/-- Construct a `t` in the storage of `this` from an argument, which is moved from if it is
an rvalue. -/
def constructFrom (w : World τ V) (this : Loc) (t : τ) (a : Arg τ V) :
    Except Fault (World τ V) := do
  let (u, x) ← argument w a
  let m := w.mem.construct this t (A.convert t u x)
  match a with
  | .ref v .rvalue => .ok { w with mem := m.assign (.named v) u (A.movedFrom u x) }
  | _ => .ok { w with mem := m }

/-- `Variant(T &&rhs)` for `T` no variant; it takes part in overload resolution if
`T_detail<T, Types...>::T_valid`. -/
def convertConstruct (w : World τ V) (this : Loc) (rhs : Arg τ V) :
    Except Fault (World τ V) := do
  let (T, _) ← argument w rhs
  if TDetail.valid A.convertible T A.types then
    match TDetail.varType A.convertible T A.types with
    | some t =>
      let w := w.setIndex this (TDetail.varIndex A.convertible T A.types)
      constructFrom A w this t rhs
    | none => .error .illFormed
  else .error .illFormed

/-- The part of `operator=(T &&rhs)` after the construction of `temp`. -/
def assignTemp (w : World τ V) (this : Loc) : Except Fault (World τ V) := do
  let w ←
    if w.typeIndex this ≠ invalidVariantIndex then callElementDestructor A w this else .ok w
  let w ← moveConstructor A w (w.typeIndex .temp) .temp this
  let w := w.setIndex this (w.typeIndex .temp)
  destroy A w .temp

/-- `operator=(T &&rhs)` for `T` no variant. -/
def convertAssign (w : World τ V) (this : Loc) (rhs : Arg τ V) : Except Fault (World τ V) := do
  let w ← convertConstruct A w .temp rhs
  assignTemp A w this

/-- `operator=(T &&rhs)` for `T = const Variant`, which a `const` rvalue selects. -/
def constMoveAssign (w : World τ V) (this rhs : Loc) : Except Fault (World τ V) := do
  let w ← copyConstruct A w .temp rhs
  assignTemp A w this

/-! ## `emplace` and `swap` -/

/-- `emplace_at_index<TypeIndex>(args...)` -/
def emplaceAtIndex (w : World τ V) (this : Loc) (typeIndex : ℕ) (a : Arg τ V) :
    Except Fault (World τ V) :=
  match getTypeAtIndex 0 typeIndex A.types with
  | some T => do
    let w ← callElementDestructor A w this
    let w ← constructFrom A w this T a
    .ok (w.setIndex this typeIndex)
  | none => .error .illFormed

/-- `emplace<TypeIndex>(args...)` -/
def emplaceIndex (w : World τ V) (this : Loc) (typeIndex : ℕ) (a : Arg τ V) :
    Except Fault (World τ V) := emplaceAtIndex A w this typeIndex a

/-- `emplace<T>(args...)` -/
def emplaceType (w : World τ V) (this : Loc) (T : τ) (a : Arg τ V) : Except Fault (World τ V) :=
  match getIndexOfType 0 T A.types with
  | some index => do
    let w ←
      if w.typeIndex this ≠ invalidVariantIndex then callElementDestructor A w this else .ok w
    let w ← constructFrom A w this T a
    .ok (w.setIndex this index)
  | none => .error .illFormed

/-- `emplace<ClassIndex>(initializer_list, args...)`; the list is part of the argument. -/
def emplaceIndexList (w : World τ V) (this : Loc) (classIndex : ℕ) (a : Arg τ V) :
    Except Fault (World τ V) :=
  match getTypeAtIndex 0 classIndex A.types with
  | some T => do
    let w ← callElementDestructor A w this
    let w ← constructFrom A w this T a
    .ok (w.setIndex this classIndex)
  | none => .error .illFormed

/-- `emplace<T>(initializer_list, args...)`; the list is part of the argument. -/
def emplaceTypeList (w : World τ V) (this : Loc) (T : τ) (a : Arg τ V) :
    Except Fault (World τ V) :=
  match getIndexOfType 0 T A.types with
  | some index => do
    let w ← callElementDestructor A w this
    let w ← constructFrom A w this T a
    .ok (w.setIndex this index)
  | none => .error .illFormed

/-- The four overloads of `emplace`. -/
def emplace (w : World τ V) (this : Loc) (s : Selector τ) (list : Bool) (a : Arg τ V) :
    Except Fault (World τ V) :=
  match s, list with
  | .index i, false => emplaceIndex A w this i a
  | .type T, false => emplaceType A w this T a
  | .index i, true => emplaceIndexList A w this i a
  | .type T, true => emplaceTypeList A w this T a

/-- `Variant()` -/
def construct (w : World τ V) (this : Loc) : World τ V := w.setIndex this invalidVariantIndex

/-- The four in-place constructors. -/
def inPlace (w : World τ V) (this : Loc) (s : Selector τ) (list : Bool) (a : Arg τ V) :
    Except Fault (World τ V) := emplace A (construct w this) this s list a

/-- `std::swap` -/
def stdSwap (w : World τ V) (a b : Loc) : Except Fault (World τ V) := do
  let w ← moveConstruct A w .temp a
  let w ← moveAssign A w a b
  let w ← moveAssign A w b .temp
  destroy A w .temp

/-- `swap(Variant &rhs)` -/
def swap (w : World τ V) (this rhs : Loc) : Except Fault (World τ V) :=
  if w.valuelessByException this && w.valuelessByException rhs then .ok w
  else stdSwap A w this rhs

/-! ## Programs -/

/-- One operation of a program over named variants. -/
inductive Op (τ V : Type*) where
  | construct (v : ℕ)
  | inPlace (v : ℕ) (s : Selector τ) (list : Bool) (a : Arg τ V)
  | convertConstruct (v : ℕ) (a : Arg τ V)
  | copyConstruct (v u : ℕ)
  | moveConstruct (v u : ℕ)
  | copyAssign (v u : ℕ)
  | moveAssign (v u : ℕ)
  | convertAssign (v : ℕ) (a : Arg τ V)
  | constMoveAssign (v u : ℕ)
  | emplace (v : ℕ) (s : Selector τ) (list : Bool) (a : Arg τ V)
  | swap (v u : ℕ)
  | destroy (v : ℕ)
deriving DecidableEq, Repr

/-- The variants that an operation constructs. -/
def Op.constructs : Op τ V → List ℕ
  | .construct v | .inPlace v _ _ _ | .convertConstruct v _ | .copyConstruct v _
  | .moveConstruct v _ => [v]
  | _ => []

/-- The variants that have to exist for an operation. -/
def Op.uses : Op τ V → List ℕ
  | .construct _ => []
  | .inPlace _ _ _ a | .convertConstruct _ a => a.refers
  | .copyConstruct _ u | .moveConstruct _ u => [u]
  | .copyAssign v u | .moveAssign v u | .constMoveAssign v u | .swap v u => [v, u]
  | .convertAssign v a | .emplace v _ _ a => v :: a.refers
  | .destroy v => [v]

/-- Every variant the operation constructs is new, and every one it uses exists. -/
def Op.inScope (w : World τ V) (op : Op τ V) : Bool :=
  op.constructs.all (fun v => (w.index (.named v)).isNone) &&
    op.uses.all (fun v => (w.index (.named v)).isSome)

/-- The effect of an operation whose operands are in scope. -/
def perform (w : World τ V) : Op τ V → Except Fault (World τ V)
  | .construct v => .ok (construct w (.named v))
  | .inPlace v s list a => inPlace A w (.named v) s list a
  | .convertConstruct v a => convertConstruct A w (.named v) a
  | .copyConstruct v u => copyConstruct A w (.named v) (.named u)
  | .moveConstruct v u => moveConstruct A w (.named v) (.named u)
  | .copyAssign v u => copyAssign A w (.named v) (.named u)
  | .moveAssign v u => moveAssign A w (.named v) (.named u)
  | .convertAssign v a => convertAssign A w (.named v) a
  | .constMoveAssign v u => constMoveAssign A w (.named v) (.named u)
  | .emplace v s list a => emplace A w (.named v) s list a
  | .swap v u => swap A w (.named v) (.named u)
  | .destroy v => destroy A w (.named v)

/-- One operation of a program. -/
def exec (w : World τ V) (op : Op τ V) : Except Fault (World τ V) :=
  if op.inScope w then perform A w op else .error .noObject

/-- One step of a program, for runs. -/
def step (w : World τ V) (op : Op τ V) : Option (World τ V) := (exec A w op).toOption

end Variant
end AraCore
