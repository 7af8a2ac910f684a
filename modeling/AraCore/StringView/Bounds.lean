/-
# Where a `StringView` reads

A view that is made from a text and from nothing else reads what it should, unless the text has
2³¹ characters or more, so that its length is no `int`, or a negative position is passed to `at`,
which compares positions with the length only.
-/
import AraCore.StringView.Model

namespace AraCore.StringView

variable {m text : List UInt8} {v : StringView} {p : CharPtr}

/-! ## The text of a view -/

/-- The characters `text` are in the array at `p`. -/
def TextAt (m : List UInt8) (p : CharPtr) (text : List UInt8) : Prop :=
  match p with
  | .null => text = []
  | .offset i => 0 ≤ i ∧ text <+: m.drop i.toNat

/-- The view has been made from `text` by one of the constructors or by copying. -/
inductive Built (m : List UInt8) : List UInt8 → StringView → Prop where
  | ofNothing : Built m [] ofNothing
  /-- A pointer, and a length that does not exceed the memory behind it. -/
  | ofPointer {value : CharPtr} {size : Int32} {text : List UInt8} (ht : TextAt m value text)
      (hs : size.toInt = text.length) : Built m text (ofPointer value size)
  | ofNull {v : StringView} (hv : ofCString m .null = some v) : Built m [] v
  /-- A pointer to characters with a null character behind them. -/
  | ofCString {p : CharPtr} {text : List UInt8} {v : StringView} (ht : TextAt m p (text ++ [0]))
      (hnull : 0 ∉ text) (hv : ofCString m p = some v) : Built m text v
  | copyConstruct {text : List UInt8} {v : StringView} (hv : Built m text v) :
      Built m text (copyConstruct v)
  | copyAssign {text : List UInt8} {v : StringView} (self : StringView) (hv : Built m text v) :
      Built m text (copyAssign self v)

/-- The view of `text` is as long as this, its iterators read exactly this, and so does `at` at
the position `pos`, if it returns. -/
structure ReadsInside (m : List UInt8) (text : List UInt8) (v : StringView) (pos : Int32) :
    Prop where
  size : v.size.toInt = text.length
  forward : forwardChars m v = some text
  reverse : reverseChars m v = some text.reverse
  atPos : ∀ p, atPos v pos = some p → 0 ≤ pos ∧ pos < v.size ∧
    ∃ c, text[pos.toInt.toNat]? = some c ∧ read m p = some c

/-! ## Lengths -/

lemma narrow_toInt (n : ℕ) : (narrow (UInt64.ofNat n)).toInt = (n : ℤ).bmod (2 ^ 32) := by
  have hn : narrow (UInt64.ofNat n) = Int32.ofNat n := by
    rw [narrow, UInt64.toUInt32_ofNat', UInt32.toInt32_ofNat']
  exact (congrArg Int32.toInt hn).trans Int32.toInt_ofNat'

lemma countToNull_append (hnull : 0 ∉ text) (rest : List UInt8) :
    countToNull (text ++ 0 :: rest) = some text.length := by
  induction text with
  | nil => rfl
  | cons c cs ih =>
    rw [List.mem_cons, not_or] at hnull
    rw [List.cons_append, countToNull, if_neg (Ne.symm hnull.1), ih hnull.2]
    rfl

lemma TextAt.left {rest : List UInt8} (h : TextAt m p (text ++ rest)) : TextAt m p text := by
  cases p with
  | null => exact (List.append_eq_nil_iff.mp h).1
  | offset i => exact ⟨h.1, (List.prefix_append text rest).trans h.2⟩

/-- The length that a constructor computes of a C string. -/
lemma ofCString_eq (ht : TextAt m p (text ++ [0])) (hnull : 0 ∉ text) :
    ofCString m p = some (ofPointer p (narrow (UInt64.ofNat text.length))) := by
  cases p with
  | null => simp [TextAt] at ht
  | offset i =>
    obtain ⟨hi, rest, hrest⟩ := ht
    have hcount : countToNull (m.drop i.toNat) = some text.length := by
      rw [← hrest, List.append_assoc]
      exact countToNull_append hnull rest
    simp [ofCString, charTraitsLength, hi, hcount]

/-- A view refers to its text, and its length is that of the text, up to the conversion. -/
lemma Built.spec (h : Built m text v) :
    TextAt m v.value text ∧ v.size.toInt = (text.length : ℤ).bmod (2 ^ 32) := by
  induction h with
  | ofNothing => exact ⟨rfl, rfl⟩
  | @ofPointer value size text ht hs =>
    refine ⟨ht, ?_⟩
    have hlt := size.toInt_lt
    show size.toInt = _
    rw [hs] at hlt ⊢
    rw [Int.bmod_eq_of_le] <;> omega
  | ofNull hv =>
    cases hv
    exact ⟨rfl, rfl⟩
  | ofCString ht hnull hv =>
    rw [ofCString_eq ht hnull] at hv
    cases hv
    exact ⟨ht.left, narrow_toInt _⟩
  | copyConstruct _ ih => exact ih
  | copyAssign _ _ ih => exact ih

/-- The length of a text fits an `int`, or its view has another one. -/
lemma bmod_eq_self_iff (n : ℕ) : (n : ℤ).bmod (2 ^ 32) = n ↔ n < 2 ^ 31 := by
  rw [Int.bmod_def]
  split <;> omega

/-! ## Iteration -/

lemma read_offset {i : ℕ} : read m (.offset i) = m[i]? := by
  rw [read, if_pos (Int.natCast_nonneg i), Int.toNat_natCast]

/-- The characters of a text are where it is. -/
lemma TextAt.read {i : ℤ} (h : TextAt m (.offset i) text) {k : ℕ} (hk : k < text.length) :
    read m (.offset (i + k)) = some text[k] := by
  obtain ⟨hi, hpre⟩ := h
  obtain ⟨n, rfl⟩ := Int.eq_ofNat_of_zero_le hi
  have hget : (m.drop n)[k]? = some text[k] := by
    rw [← List.prefix_iff_getElem?.mp hpre k hk]
    rfl
  rw [show (n : ℤ) + k = ((n + k : ℕ) : ℤ) by omega, read_offset, ← hget, List.getElem?_drop]

/-- A loop that reads the `k`-th of the characters `cs` in its `k`-th round, and stops after the
last one. -/
lemma loop_eq {deref : CharPtr → Option UInt8} {next : CharPtr → CharPtr} {last : CharPtr}
    {cs : List UInt8} {q : ℕ → CharPtr} {fuel : ℕ} (hfuel : cs.length < fuel)
    (hnext : ∀ k, next (q k) = q (k + 1)) (hlast : q cs.length = last)
    (hne : ∀ k < cs.length, q k ≠ last)
    (hread : ∀ k, ∀ hk : k < cs.length, deref (q k) = some cs[k]) :
    loop deref next last fuel (q 0) = some cs := by
  induction cs generalizing q fuel with
  | nil =>
    obtain ⟨fuel, rfl⟩ := Nat.exists_eq_add_of_lt hfuel
    exact if_pos hlast
  | cons c cs ih =>
    cases fuel with
    | zero => omega
    | succ fuel =>
      have hzero : deref (q 0) = some c := hread 0 (Nat.zero_lt_succ _)
      have htail : loop deref next last fuel (q 1) = some cs := by
        refine ih (q := fun k => q (k + 1)) (Nat.lt_of_succ_lt_succ hfuel)
          (fun k => hnext (k + 1)) hlast (fun k hk => hne (k + 1) (Nat.succ_lt_succ hk)) ?_
        exact fun k hk => hread (k + 1) (Nat.succ_lt_succ hk)
      rw [loop, if_neg (hne 0 (Nat.zero_lt_succ _)), hzero, hnext, htail]
      rfl

lemma TextAt.length_le (h : TextAt m p text) : text.length ≤ m.length := by
  cases p with
  | null =>
    obtain rfl : text = [] := h
    exact Nat.zero_le _
  | offset i =>
    have hle := h.2.length_le
    rw [List.length_drop] at hle
    omega

/-- From `begin()` to `end()` a view reads its text. -/
lemma forwardChars_eq (h : TextAt m v.value text) (hs : v.size.toInt = text.length) :
    forwardChars m v = some text := by
  have hfuel := Nat.lt_succ_of_le h.length_le
  obtain ⟨p, size⟩ := v
  cases p with
  | null =>
    obtain rfl : text = [] := h
    rfl
  | offset i =>
    have hzero : CharPtr.offset i = .offset (i + (0 : ℕ)) := by simp
    rw [forwardChars, endIter, beginIter, CharPtr.add, hs, hzero]
    refine loop_eq (q := fun k => .offset (i + k)) hfuel (fun k => ?_) (by simp) (fun k hk => ?_)
      fun k hk => h.read hk
    · rw [CharPtr.add, CharPtr.offset.injEq]
      omega
    · simp only [ne_eq, CharPtr.offset.injEq]
      omega

/-- From `rbegin()` to `rend()` a view reads its text from the end. -/
lemma reverseChars_eq (h : TextAt m v.value text) (hs : v.size.toInt = text.length) :
    reverseChars m v = some text.reverse := by
  have hfuel := Nat.lt_succ_of_le h.length_le
  obtain ⟨p, size⟩ := v
  cases p with
  | null =>
    obtain rfl : text = [] := h
    rfl
  | offset i =>
    have hzero : CharPtr.offset (i + text.length) = .offset (i + text.length - (0 : ℕ)) := by
      simp
    rw [reverseChars, rendIter, rbeginIter, endIter, beginIter, CharPtr.add, hs, hzero]
    refine loop_eq (q := fun k => .offset (i + text.length - k)) (by simpa using hfuel)
      (fun k => ?_) (by simp) (fun k hk => ?_) fun k hk => ?_
    · rw [CharPtr.add, CharPtr.offset.injEq]
      omega
    · rw [List.length_reverse] at hk
      simp only [ne_eq, CharPtr.offset.injEq]
      omega
    · -- the `k`-th character from the end
      rw [List.length_reverse] at hk
      have hread := h.read (k := text.length - 1 - k) (by omega)
      rw [CharPtr.add, List.getElem_reverse, ← hread]
      congr 2
      omega

/-! ## The main result -/

/-- **Bounds.**  A view of a text reads what it should, and nothing else, exactly if the length of
the text is an `int` and the position passed to `at` is not negative. -/
theorem readsInside_iff (h : Built m text v) (pos : Int32) :
    ReadsInside m text v pos ↔ text.length < 2 ^ 31 ∧ 0 ≤ pos := by
  obtain ⟨ht, hs⟩ := h.spec
  have hsize : v.size.toInt = text.length ↔ text.length < 2 ^ 31 := by
    rw [hs, bmod_eq_self_iff]
  have hpos : 0 ≤ pos ↔ 0 ≤ pos.toInt := by
    rw [Int32.le_iff_toInt_le]
    rfl
  constructor
  · intro hr
    refine ⟨hsize.mp hr.size, ?_⟩
    by_contra hneg
    have hlt : ¬ v.size ≤ pos := by
      rw [Int32.le_iff_toInt_le, hr.size]
      rw [hpos] at hneg
      omega
    exact hneg (hr.atPos _ (if_neg hlt)).1
  · rintro ⟨hlen, hnonneg⟩
    have hlen := hsize.mpr hlen
    refine ⟨hlen, forwardChars_eq ht hlen, reverseChars_eq ht hlen, fun p hp => ?_⟩
    rw [atPos] at hp
    split at hp
    · cases hp
    next hlt =>
    rw [Int32.le_iff_toInt_le, hlen] at hlt
    rw [hpos] at hnonneg
    have hk : pos.toInt.toNat < text.length := by omega
    refine ⟨hpos.mpr hnonneg, ?_, text[pos.toInt.toNat], List.getElem?_eq_getElem hk, ?_⟩
    · rw [Int32.lt_iff_toInt_lt, hlen]
      omega
    · have hvalue : v.value ≠ .null := by
        intro hnull
        rw [hnull] at ht
        obtain rfl : text = [] := ht
        simp at hk
      obtain ⟨i, hi⟩ : ∃ i, v.value = .offset i := by
        cases hv : v.value with
        | null => exact absurd hv hvalue
        | offset i => exact ⟨i, rfl⟩
      rw [hi] at ht hp
      cases hp
      have hread := ht.read hk
      rwa [Int.toNat_of_nonneg hnonneg] at hread

/-- The characters `hello,world`, and the null character behind them. -/
def helloWorld : List UInt8 := [104, 101, 108, 108, 111, 44, 119, 111, 114, 108, 100, 0]

lemma textAt_hello : TextAt helloWorld (.offset 0) [104, 101, 108, 108, 111] :=
  ⟨by decide, by decide⟩

theorem readsInside_hello :
    ReadsInside helloWorld [104, 101, 108, 108, 111] (ofPointer (.offset 0) 5) 4 :=
  (readsInside_iff (.ofPointer textAt_hello rfl) 4).mpr ⟨by decide, by decide⟩

/-- The position before the first one passes the check of `at`. -/
theorem at_before_begin :
    ¬ ∀ (m text : List UInt8) (v : StringView), Built m text v →
      ∀ pos, ReadsInside m text v pos := by
  intro h
  have hat := (h helloWorld [104, 101, 108, 108, 111] (ofPointer (.offset 0) 5)
    (.ofPointer textAt_hello rfl) (-1)).atPos (.offset (-1)) rfl
  exact absurd hat.1 (by decide)

end AraCore.StringView
