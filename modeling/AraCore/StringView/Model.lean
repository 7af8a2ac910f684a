/-
# The class `StringView`

A `StringView` is a pointer to the first of some characters and their number.  The number and
the positions in the view are of type `int`, whereas `std::char_traits<char>::length` counts in
`size_t`.  The characters of the program are an array, and reading has an outcome only within it.
-/
import Mathlib

namespace AraCore

/-- A `char const *`: null, or a position relative to the start of the array. -/
inductive CharPtr where
  | null
  | offset (i : ℤ)
deriving DecidableEq, Repr

/-- `p + k` -/
def CharPtr.add : CharPtr → ℤ → CharPtr
  | null, _ => null
  | .offset i, k => .offset (i + k)

/-- `value_` and `size_` -/
structure StringView where
  value : CharPtr
  size : Int32
deriving DecidableEq

namespace StringView

/-! ## Characters -/

/-- `*p`; nothing outside the array -/
def read (m : List UInt8) : CharPtr → Option UInt8
  | .null => none
  | .offset i => if 0 ≤ i then m[i.toNat]? else none

/-- The number of characters before the first null character. -/
def countToNull : List UInt8 → Option ℕ
  | [] => none
  | c :: cs => if c = 0 then some 0 else (countToNull cs).map (· + 1)

/-- `std::char_traits<char>::length(p)`; nothing if it reads outside the array -/
def charTraitsLength (m : List UInt8) : CharPtr → Option UInt64
  | .null => none
  | .offset i => if 0 ≤ i then (countToNull (m.drop i.toNat)).map UInt64.ofNat else none

/-! ## Constructors -/

/-- The conversion of a `size_t` to an `int`, which is modulo 2³². -/
def narrow (n : UInt64) : Int32 := n.toUInt32.toInt32

/-- `StringView()` -/
def ofNothing : StringView := ⟨.null, 0⟩

/-- `StringView(const char *value, int size)` -/
def ofPointer (value : CharPtr) (size : Int32) : StringView := ⟨value, size⟩

/-- `StringView(const char *p)` -/
def ofCString (m : List UInt8) (p : CharPtr) : Option StringView :=
  if p = .null then some (ofPointer p (narrow 0))
  else (charTraitsLength m p).map fun n => ofPointer p (narrow n)

/-- `StringView(StringView const &other)` -/
def copyConstruct (other : StringView) : StringView := ⟨other.value, other.size⟩

/-- `operator=(StringView const &other)` -/
def copyAssign (self other : StringView) : StringView :=
  { self with value := other.value, size := other.size }

/-! ## Iterators -/

/-- `begin()` -/
def beginIter (v : StringView) : CharPtr := v.value

/-- `end()` -/
def endIter (v : StringView) : CharPtr := v.value.add v.size.toInt

/-- `rbegin()`, by its base -/
def rbeginIter (v : StringView) : CharPtr := v.endIter

/-- `rend()`, by its base -/
def rendIter (v : StringView) : CharPtr := v.beginIter

/-- `for (auto it = first; it != last; ++it)`: the characters `*it`.  It has no outcome if it
reads outside the array, as it does if it goes on for longer than `fuel`. -/
def loop (deref : CharPtr → Option UInt8) (next : CharPtr → CharPtr) (last : CharPtr) :
    ℕ → CharPtr → Option (List UInt8)
  | 0, _ => none
  | fuel + 1, it =>
    if it = last then some []
    else (deref it).bind fun c => (loop deref next last fuel (next it)).map (c :: ·)

/-- The characters from `begin()` to `end()` -/
def forwardChars (m : List UInt8) (v : StringView) : Option (List UInt8) :=
  loop (read m) (·.add 1) v.endIter (m.length + 1) v.beginIter

/-- The characters from `rbegin()` to `rend()`; a `std::reverse_iterator` refers to what is
before its base. -/
def reverseChars (m : List UInt8) (v : StringView) : Option (List UInt8) :=
  loop (fun it => read m (it.add (-1))) (·.add (-1)) v.rendIter (m.length + 1) v.rbeginIter

/-! ## Element access -/

/-- `at(pos)`: the character that it refers to; nothing for `std::terminate()` -/
def atPos (v : StringView) (pos : Int32) : Option CharPtr :=
  if v.size ≤ pos then none else some (v.value.add pos.toInt)

end StringView
end AraCore
