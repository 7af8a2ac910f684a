/-
# The class template `Optional`

`Optional<T>` keeps a flag `init` and an owning pointer `val`.  Every operation of
`optional.h` is a function on this pair; a constructor of `T` that it calls may throw, and a
`val` that it dereferences may be null.
-/
import AraCore.Lib.Run
import AraCore.Lib.Store

namespace AraCore

open Lib

/-- What `Optional<T>` uses of its element type: the constructors of `T`.  `A` stands for the
argument lists of the remaining constructors, values of other types included. -/
structure Element (T A ε : Type*) where
  /-- `T(const T&)` -/
  copy : T → Except ε T
  /-- `T(T&&)` -/
  move : T → Except ε T
  /-- What `T(T&&)` leaves in its source. -/
  movedFrom : T → T
  /-- `T(Args...)` -/
  construct : A → Except ε T
  /-- What constructing from an rvalue argument leaves in it. -/
  movedArg : A → A

/-- The result of an operation: it completes, a constructor of `T` throws and leaves the
operands as given, or a null pointer is dereferenced. -/
inductive Outcome (ε α β : Type*) where
  | done (a : α)
  | threw (e : ε) (left : β)
  | nullDeref
deriving DecidableEq, Repr

/-- An object of type `Optional<T>`.  `none` in `val` is the null pointer. -/
structure Optional (T : Type*) where
  init : Bool
  val : Option T
deriving DecidableEq, Repr

namespace Optional

variable {T A ε : Type*} (E : Element T A ε)

/-! ## Construction -/

/-- `Optional()` and `Optional(nullopt_t)` -/
def nullopt : Optional T := ⟨false, none⟩

/-- `Optional(const Optional& other)` -/
def copyConstruct (other : Optional T) : Outcome ε (Optional T) Unit :=
  if other.init then
    match other.val with
    | none => .nullDeref
    | some x =>
      match E.copy x with
      | .ok y => .done ⟨other.init, some y⟩
      | .error e => .threw e ()
  else .done ⟨other.init, none⟩

/-- `Optional(Optional&& other)`: the new object and `other` afterwards. -/
def moveConstruct (other : Optional T) : Optional T × Optional T :=
  (⟨other.init, other.val⟩, { other with val := none })

/-- The object that `new T(...)` returned, as an engaged `Optional`. -/
def engage : Except ε T → Outcome ε (Optional T) Unit
  | .ok y => .done ⟨true, some y⟩
  | .error e => .threw e ()

/-- `Optional(const T& v)` -/
def ofConstRef (v : T) : Outcome ε (Optional T) Unit := engage (E.copy v)

/-- `Optional(T&& v)` -/
def ofRvalueRef (v : T) : Outcome ε (Optional T) Unit := engage (E.move v)

/-! ## Assignment -/

/-- `operator=(nullopt_t)` -/
def assignNullopt (_self : Optional T) : Optional T := ⟨false, none⟩

/-- `operator=(const Optional& rhs)` -/
def copyAssign (self rhs : Optional T) : Outcome ε (Optional T) (Optional T) :=
  let self := { self with init := rhs.init }
  if rhs.init then
    match rhs.val with
    | none => .nullDeref
    | some x =>
      match E.copy x with
      | .ok y => .done { self with val := some y }
      | .error e => .threw e self
  else .done { self with val := none }

/-- `operator=(Optional&& rhs)`: the assigned object and `rhs` afterwards. -/
def moveAssign (self rhs : Optional T) :
    Outcome ε (Optional T × Optional T) (Optional T) :=
  let self := { self with init := rhs.init }
  if rhs.init then
    match rhs.val with
    | none => .nullDeref
    | some x =>
      match E.move x with
      | .ok y => .done ({ self with val := some y }, { rhs with val := some (E.movedFrom x) })
      | .error e => .threw e self
  else .done ({ self with val := none }, rhs)

/-- `operator=(U&& rhs)` for `U` the element type, of either category: the assigned object
and `rhs` afterwards. -/
def assignValue (self : Optional T) (rhs : T) : Outcome ε (Optional T × T) (Optional T) :=
  let self := { self with init := true }
  match E.move rhs with
  | .ok y => .done ({ self with val := some y }, E.movedFrom rhs)
  | .error e => .threw e self

/-- `operator=(U&& rhs)` for another type `U`, of either category. -/
def assignFrom (self : Optional T) (rhs : A) : Outcome ε (Optional T × A) (Optional T) :=
  let self := { self with init := true }
  match E.construct rhs with
  | .ok y => .done ({ self with val := some y }, E.movedArg rhs)
  | .error e => .threw e self

/-- What `std::forward` leaves in an argument of the category `c`. -/
def forwarded (c : Category) (args : A) : A :=
  match c with
  | .lvalue => args
  | .rvalue => E.movedArg args

/-- `emplace(Args&&... args)` -/
def emplace (self : Optional T) (args : A) (c : Category) :
    Outcome ε (Optional T × A) (Optional T) :=
  let self := assignNullopt self
  let self := { self with init := true }
  match E.construct args with
  | .ok y => .done ({ self with val := some y }, forwarded E c args)
  | .error e => .threw e self

/-- `emplace(std::initializer_list<U> il, Args&&... args)`; `args` includes the list. -/
def emplaceList (self : Optional T) (args : A) (c : Category) :
    Outcome ε (Optional T × A) (Optional T) := emplace E self args c

/-- `reset()` -/
def reset (_self : Optional T) : Optional T := ⟨false, none⟩

/-- `swap(Optional& rhs)` -/
def swap (self rhs : Optional T) : Optional T × Optional T :=
  (⟨rhs.init, rhs.val⟩, ⟨self.init, self.val⟩)

/-! ## Observers -/

/-- `has_value()` and `operator bool` -/
def hasValue (self : Optional T) : Bool := self.init

/-- `operator*` and `operator->`; nothing if the pointer is null. -/
def deref (self : Optional T) : Option T := self.val

/-- `value_or(U&& v) const&` -/
def valueOr (self : Optional T) (v : A) : Outcome ε T Unit :=
  if self.hasValue then
    match self.deref with
    | none => .nullDeref
    | some x =>
      match E.copy x with
      | .ok y => .done y
      | .error e => .threw e ()
  else
    match E.construct v with
    | .ok y => .done y
    | .error e => .threw e ()

/-- `operator==(const Optional&, const Optional&)`; nothing if it dereferences null. -/
def eq [BEq T] (x y : Optional T) : Option Bool :=
  if x.hasValue ≠ y.hasValue then some false
  else if !x.hasValue then some true
  else
    match x.deref, y.deref with
    | some a, some b => some (a == b)
    | _, _ => none

/-! ## Programs -/

/-- One operation of a program over `Optional` objects, which are referred to by name. -/
inductive Op (T A : Type*) where
  | construct (v : ℕ)
  | constructCopy (v : ℕ) (x : T)
  | constructMove (v : ℕ) (x : T)
  | copyConstruct (v u : ℕ)
  | moveConstruct (v u : ℕ)
  | copyAssign (v u : ℕ)
  | moveAssign (v u : ℕ)
  | assignNullopt (v : ℕ)
  | assignValue (v : ℕ) (x : T)
  | assignFrom (v : ℕ) (a : A)
  | emplace (v : ℕ) (a : A) (c : Category)
  | emplaceList (v : ℕ) (a : A) (c : Category)
  | reset (v : ℕ)
  | swap (v u : ℕ)
  | destroy (v : ℕ)
deriving DecidableEq, Repr

variable (w : Store (Optional T)) (v : ℕ)

/-- The lifetime of `v` begins with the constructed object, unless the constructor throws. -/
def declare : Outcome ε (Optional T) Unit → Option (Store (Optional T))
  | .done o => some (w.set v o)
  | .threw _ _ => some w
  | .nullDeref => none

/-- `v` has been assigned to; its operand is not an object of the store. -/
def assign {β : Type*} :
    Outcome ε (Optional T × β) (Optional T) → Option (Store (Optional T))
  | .done (o, _) => some (w.set v o)
  | .threw _ o => some (w.set v o)
  | .nullDeref => none

/-- One step of a program.  It has no outcome if a null pointer is dereferenced, if an
operand does not exist, or if an object is constructed twice. -/
def step (w : Store (Optional T)) : Op T A → Option (Store (Optional T))
  | .construct v => if (w v).isSome then none else some (w.set v nullopt)
  | .constructCopy v x => if (w v).isSome then none else declare w v (ofConstRef E x)
  | .constructMove v x => if (w v).isSome then none else declare w v (ofRvalueRef E x)
  | .copyConstruct v u =>
    if (w v).isSome then none else (w u).bind fun o => declare w v (copyConstruct E o)
  | .moveConstruct v u =>
    if (w v).isSome then none
    else (w u).map fun o => (w.set u (moveConstruct o).2).set v (moveConstruct o).1
  | .copyAssign v u =>
    (w v).bind fun a => (w u).bind fun b =>
      match copyAssign E a b with
      | .done a' => some (w.set v a')
      | .threw _ a' => some (w.set v a')
      | .nullDeref => none
  | .moveAssign v u =>
    (w v).bind fun a => (w u).bind fun b =>
      match moveAssign E a b with
      -- when `v` is `u`, `val.reset` comes last and deletes what was moved from
      | .done (a', b') => some ((w.set u b').set v a')
      | .threw _ a' => some (w.set v a')
      | .nullDeref => none
  | .assignNullopt v => (w v).map fun a => w.set v (assignNullopt a)
  | .assignValue v x => (w v).bind fun a => assign w v (assignValue E a x)
  | .assignFrom v x => (w v).bind fun a => assign w v (assignFrom E a x)
  | .emplace v x c => (w v).bind fun a => assign w v (emplace E a x c)
  | .emplaceList v x c => (w v).bind fun a => assign w v (emplaceList E a x c)
  | .reset v => (w v).map fun a => w.set v (reset a)
  | .swap v u =>
    (w v).bind fun a => (w u).map fun b => (w.set u (swap a b).2).set v (swap a b).1
  | .destroy v => (w v).map fun _ => w.erase v

end Optional
end AraCore
