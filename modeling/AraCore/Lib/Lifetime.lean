/-
# Object lifetimes in raw storage

Storage cells are raw: an object comes to life in a cell by placement construction and stays
alive until it is destroyed explicitly.  The memory below keeps a ledger of what happened to
every object ever constructed: it is alive in some cell, was destroyed, was overwritten (its
cell was reused while it was alive) or leaked (its cell went away while it was alive).
`Mem.Accounted` says that these are all the possibilities and that they exclude one another;
every primitive keeps it, whatever the program does.
-/
import Mathlib

namespace AraCore.Lib

/-- An object in a cell: its identity, its type and its value. -/
structure Obj (τ V : Type*) where
  id : ℕ
  ty : τ
  val : V
deriving DecidableEq, Repr

/-- Raw storage with cells `ρ`, and the ledger of the objects constructed in it. -/
structure Mem (ρ τ V : Type*) where
  cell : ρ → Option (Obj τ V)
  /-- The identity of the next object. -/
  next : ℕ
  destroyed : List ℕ
  overwritten : List ℕ
  leaked : List ℕ
  /-- The number of reads, assignments and destructions that met no live object of the
  expected type. -/
  misused : ℕ

namespace Mem

variable {ρ τ V : Type*}

/-- Storage in which nothing was constructed yet. -/
def empty : Mem ρ τ V := ⟨fun _ => none, 0, [], [], [], 0⟩

/-- The identities of the objects in a cell. -/
def idsAt (m : Mem ρ τ V) (a : ρ) : List ℕ := ((m.cell a).map Obj.id).toList

/-- The objects whose lifetime or storage is over. -/
def gone (m : Mem ρ τ V) : List ℕ := m.destroyed ++ (m.overwritten ++ m.leaked)

section Primitives

variable [DecidableEq ρ] [DecidableEq τ]

/-- `new (a) T(...)` -/
def construct (m : Mem ρ τ V) (a : ρ) (t : τ) (v : V) : Mem ρ τ V :=
  { m with
    cell := Function.update m.cell a (some ⟨m.next, t, v⟩)
    next := m.next + 1
    overwritten := m.idsAt a ++ m.overwritten }

/-- A read, assignment or destruction met no live object of the expected type. -/
def misuse (m : Mem ρ τ V) : Mem ρ τ V := { m with misused := m.misused + 1 }

/-- `reinterpret_cast<T *>(a)->~T()` -/
def destroy (m : Mem ρ τ V) (a : ρ) (t : τ) : Mem ρ τ V :=
  match m.cell a with
  | some x =>
    if x.ty = t then
      { m with cell := Function.update m.cell a none, destroyed := x.id :: m.destroyed }
    else m.misuse
  | none => m.misuse

/-- The value of the `T` object in the cell. -/
def read (m : Mem ρ τ V) (a : ρ) (t : τ) : Option V :=
  (m.cell a).bind fun x => if x.ty = t then some x.val else none

/-- `*reinterpret_cast<T *>(a) = ...` -/
def assign (m : Mem ρ τ V) (a : ρ) (t : τ) (v : V) : Mem ρ τ V :=
  match m.cell a with
  | some x =>
    if x.ty = t then { m with cell := Function.update m.cell a (some { x with val := v }) }
    else m.misuse
  | none => m.misuse

/-- The storage of the cell goes away. -/
def release (m : Mem ρ τ V) (a : ρ) : Mem ρ τ V :=
  { m with cell := Function.update m.cell a none, leaked := m.idsAt a ++ m.leaked }

end Primitives

/-- Every object ever constructed is alive in exactly one cell, or gone for exactly one
reason, and not both. -/
structure Accounted (m : Mem ρ τ V) : Prop where
  live_lt : ∀ a x, m.cell a = some x → x.id < m.next
  live_inj : ∀ a b x y, m.cell a = some x → m.cell b = some y → x.id = y.id → a = b
  gone_lt : ∀ i ∈ m.gone, i < m.next
  gone_nodup : m.gone.Nodup
  live_not_gone : ∀ a x, m.cell a = some x → x.id ∉ m.gone
  total : ∀ i < m.next, i ∈ m.gone ∨ ∃ a x, m.cell a = some x ∧ x.id = i

/-- Nothing was overwritten, leaked or used outside its lifetime. -/
structure Clean (m : Mem ρ τ V) : Prop where
  overwritten : m.overwritten = []
  leaked : m.leaked = []
  misused : m.misused = 0

lemma accounted_empty : Accounted (empty : Mem ρ τ V) := by
  constructor <;> simp [empty, gone]

variable {m : Mem ρ τ V} {a b : ρ} {t : τ} {v : V}

lemma idsAt_of_none (h : m.cell a = none) : m.idsAt a = [] := by simp [idsAt, h]

lemma idsAt_of_some {x : Obj τ V} (h : m.cell a = some x) : m.idsAt a = [x.id] := by
  simp [idsAt, h]

/-! ## The ledger is kept by every primitive -/

section Ledger

/-- The object of a cell joins the objects that are gone, and a new object may take its
place: the step behind all primitives that end a lifetime or a storage. -/
lemma Accounted.replace [DecidableEq ρ] {m' : Mem ρ τ V} (h : m.Accounted) (a : ρ)
    (hcell : ∀ b, b ≠ a → m'.cell b = m.cell b)
    (hnew : ∀ x, m'.cell a = some x → x.id = m.next ∧ m'.next = m.next + 1)
    (hnone : m'.cell a = none → m'.next = m.next)
    (hgone : m'.gone.Perm (m.idsAt a ++ m.gone)) : m'.Accounted := by
  have hle : m.next ≤ m'.next := by
    cases hx : m'.cell a with
    | none => exact (hnone hx).ge
    | some x => rw [(hnew x hx).2]; exact Nat.le_succ _
  have hmem : ∀ i, i ∈ m'.gone ↔ i ∈ m.idsAt a ∨ i ∈ m.gone := fun i => by
    rw [hgone.mem_iff, List.mem_append]
  have hids : ∀ i ∈ m.idsAt a, ∃ x, m.cell a = some x ∧ x.id = i := by
    intro i hi
    cases hx : m.cell a with
    | none => simp [idsAt_of_none hx] at hi
    | some x => exact ⟨x, rfl, by simpa [idsAt_of_some hx, eq_comm] using hi⟩
  refine ⟨?_, ?_, ?_, ?_, ?_, ?_⟩
  · intro b x hb
    by_cases hba : b = a
    · subst hba
      rw [(hnew x hb).1, (hnew x hb).2]
      exact Nat.lt_succ_self _
    · rw [hcell b hba] at hb
      exact (h.live_lt b x hb).trans_le hle
  · intro b c x y hb hc hxy
    by_cases hba : b = a <;> by_cases hca : c = a
    · rw [hba, hca]
    · subst hba
      rw [hcell c hca] at hc
      have := h.live_lt c y hc
      rw [← hxy, (hnew x hb).1] at this
      exact absurd this (lt_irrefl _)
    · subst hca
      rw [hcell b hba] at hb
      have := h.live_lt b x hb
      rw [hxy, (hnew y hc).1] at this
      exact absurd this (lt_irrefl _)
    · rw [hcell b hba] at hb
      rw [hcell c hca] at hc
      exact h.live_inj b c x y hb hc hxy
  · intro i hi
    rcases (hmem i).mp hi with hi | hi
    · obtain ⟨x, hx, rfl⟩ := hids i hi
      exact (h.live_lt a x hx).trans_le hle
    · exact (h.gone_lt i hi).trans_le hle
  · refine hgone.nodup_iff.mpr (List.nodup_append'.mpr ⟨?_, h.gone_nodup, ?_⟩)
    · cases hx : m.cell a with
      | none => simp [idsAt_of_none hx]
      | some x => simp [idsAt_of_some hx]
    · intro i hi hi'
      obtain ⟨x, hx, rfl⟩ := hids i hi
      exact h.live_not_gone a x hx hi'
  · intro b x hb hi
    by_cases hba : b = a
    · subst hba
      rw [(hnew x hb).1] at hi
      rcases (hmem _).mp hi with hi | hi
      · obtain ⟨y, hy, hyi⟩ := hids _ hi
        exact absurd (h.live_lt b y hy) (by rw [hyi]; exact lt_irrefl _)
      · exact absurd (h.gone_lt _ hi) (lt_irrefl _)
    · rw [hcell b hba] at hb
      rcases (hmem _).mp hi with hi | hi
      · obtain ⟨y, hy, hyi⟩ := hids _ hi
        exact hba (h.live_inj b a x y hb hy hyi.symm)
      · exact h.live_not_gone b x hb hi
  · intro i hi
    by_cases him : i < m.next
    · rcases h.total i him with hg | ⟨b, x, hb, rfl⟩
      · exact Or.inl ((hmem i).mpr (Or.inr hg))
      · by_cases hba : b = a
        · subst hba
          exact Or.inl ((hmem _).mpr (Or.inl (by simp [idsAt_of_some hb])))
        · exact Or.inr ⟨b, x, (hcell b hba).trans hb, rfl⟩
    · cases hx : m'.cell a with
      | none => exact absurd (hnone hx ▸ hi) him
      | some x =>
        obtain ⟨hxid, hnext⟩ := hnew x hx
        exact Or.inr ⟨a, x, hx, by omega⟩

lemma Accounted.misuse (h : m.Accounted) : m.misuse.Accounted :=
  ⟨h.live_lt, h.live_inj, h.gone_lt, h.gone_nodup, h.live_not_gone, h.total⟩

variable [DecidableEq ρ]

lemma Accounted.construct (h : m.Accounted) (a : ρ) (t : τ) (v : V) :
    (m.construct a t v).Accounted := by
  refine h.replace a ?_ ?_ ?_ ?_
  · intro b hb
    simp [Mem.construct, hb]
  · intro x hx
    simp only [Mem.construct, Function.update_self, Option.some.injEq] at hx
    exact ⟨by rw [← hx], rfl⟩
  · intro hx
    simp [Mem.construct] at hx
  · simp only [gone, Mem.construct, List.append_assoc]
    exact List.perm_append_comm_assoc _ _ _

lemma Accounted.release (h : m.Accounted) (a : ρ) : (m.release a).Accounted := by
  refine h.replace a ?_ ?_ ?_ ?_
  · intro b hb
    simp [Mem.release, hb]
  · intro x hx
    simp [Mem.release] at hx
  · intro _
    rfl
  · simp only [gone, Mem.release]
    rw [← List.append_assoc, ← List.append_assoc m.destroyed]
    exact List.perm_append_comm_assoc _ _ _

variable [DecidableEq τ]

lemma Accounted.destroy (h : m.Accounted) (a : ρ) (t : τ) : (m.destroy a t).Accounted := by
  cases hx : m.cell a with
  | none => simpa [Mem.destroy, hx] using h.misuse
  | some x =>
    by_cases ht : x.ty = t
    · have heq : m.destroy a t =
          { m with cell := Function.update m.cell a none, destroyed := x.id :: m.destroyed } := by
        simp [Mem.destroy, hx, ht]
      rw [heq]
      refine h.replace a ?_ ?_ ?_ ?_
      · intro b hb
        simp [hb]
      · intro y hy
        simp at hy
      · intro _
        rfl
      · simp [gone, idsAt_of_some hx]
    · simpa [Mem.destroy, hx, ht] using h.misuse

lemma Accounted.assign (h : m.Accounted) (a : ρ) (t : τ) (v : V) :
    (m.assign a t v).Accounted := by
  cases hx : m.cell a with
  | none => simpa [Mem.assign, hx] using h.misuse
  | some x =>
    by_cases ht : x.ty = t
    · have heq : m.assign a t v =
          { m with cell := Function.update m.cell a (some { x with val := v }) } := by
        simp [Mem.assign, hx, ht]
      -- the identities in the cells are those of before
      have hcell : ∀ b y, (m.assign a t v).cell b = some y →
          ∃ y', m.cell b = some y' ∧ y'.id = y.id := by
        intro b y hb
        rw [heq] at hb
        by_cases hba : b = a
        · subst hba
          simp only [Function.update_self, Option.some.injEq] at hb
          exact ⟨x, hx, by rw [← hb]⟩
        · exact ⟨y, by simpa [hba] using hb, rfl⟩
      have hgone : (m.assign a t v).gone = m.gone := by rw [heq]; rfl
      have hnext : (m.assign a t v).next = m.next := by rw [heq]
      refine ⟨?_, ?_, ?_, ?_, ?_, ?_⟩
      · intro b y hb
        obtain ⟨y', hy', hid⟩ := hcell b y hb
        rw [hnext, ← hid]
        exact h.live_lt b y' hy'
      · intro b c y z hb hc hyz
        obtain ⟨y', hy', hid⟩ := hcell b y hb
        obtain ⟨z', hz', hid'⟩ := hcell c z hc
        exact h.live_inj b c y' z' hy' hz' (by rw [hid, hid', hyz])
      · rw [hgone, hnext]
        exact h.gone_lt
      · rw [hgone]
        exact h.gone_nodup
      · intro b y hb
        obtain ⟨y', hy', hid⟩ := hcell b y hb
        rw [hgone, ← hid]
        exact h.live_not_gone b y' hy'
      · intro i hi
        rw [hnext] at hi
        rw [hgone]
        rcases h.total i hi with hg | ⟨b, y, hb, rfl⟩
        · exact Or.inl hg
        · refine Or.inr ?_
          by_cases hba : b = a
          · subst hba
            refine ⟨b, { x with val := v }, by rw [heq]; simp, ?_⟩
            rw [hx, Option.some.injEq] at hb
            rw [← hb]
          · exact ⟨b, y, by rw [heq]; simpa [hba] using hb, rfl⟩
    · simpa [Mem.assign, hx, ht] using h.misuse

end Ledger

/-! ## When all storage is gone -/

/-- Once no cell holds an object, the ledger is clean exactly if nothing was misused, nothing
overwritten, and every object was destroyed exactly once. -/
theorem clean_iff_destroyed_once (h : m.Accounted) (hempty : ∀ a, m.cell a = none) :
    m.Clean ↔ (∀ i < m.next, m.destroyed.count i = 1) ∧ m.overwritten = [] ∧
      m.misused = 0 := by
  constructor
  · intro hc
    have hgone : m.gone = m.destroyed := by simp [gone, hc.overwritten, hc.leaked]
    refine ⟨fun i hi => ?_, hc.overwritten, hc.misused⟩
    rcases h.total i hi with hg | ⟨a, x, hx, -⟩
    · rw [hgone] at hg
      exact List.count_eq_one_of_mem (hgone ▸ h.gone_nodup) hg
    · exact absurd hx (by simp [hempty a])
  · rintro ⟨hone, hover, hmis⟩
    refine ⟨hover, List.eq_nil_iff_forall_not_mem.mpr fun i hi => ?_, hmis⟩
    have hig : i ∈ m.gone := by simp [gone, hi]
    have hd : i ∈ m.destroyed := List.count_pos_iff.mp (by
      rw [hone i (h.gone_lt i hig)]; exact Nat.one_pos)
    have hdisj := (List.nodup_append'.mp h.gone_nodup).2.2
    exact hdisj hd (List.mem_append_right _ hi)

/-! ## What the primitives leave in the cells -/

section Cells

lemma read_of_alive [DecidableEq τ] {x : Obj τ V} (hx : m.cell a = some x) (ht : x.ty = t) :
    m.read a t = some x.val := by simp [read, hx, ht]

variable [DecidableEq ρ]

@[simp] lemma cell_construct_self (m : Mem ρ τ V) (a : ρ) (t : τ) (v : V) :
    (m.construct a t v).cell a = some ⟨m.next, t, v⟩ := by simp [construct]

lemma cell_construct_of_ne (h : b ≠ a) : (m.construct a t v).cell b = m.cell b := by
  simp [construct, h]

lemma cell_assign_of_ne [DecidableEq τ] (h : b ≠ a) : (m.assign a t v).cell b = m.cell b := by
  rw [assign]
  split
  · split
    · exact Function.update_of_ne h _ _
    · rfl
  · rfl

@[simp] lemma cell_release_self (m : Mem ρ τ V) (a : ρ) : (m.release a).cell a = none := by
  simp [release]

lemma cell_release_of_ne (h : b ≠ a) : (m.release a).cell b = m.cell b := by
  simp [release, h]

lemma Clean.construct (h : m.Clean) (ha : m.cell a = none) : (m.construct a t v).Clean := by
  refine ⟨?_, h.leaked, h.misused⟩
  simp [Mem.construct, idsAt_of_none ha, h.overwritten]

lemma Clean.release (h : m.Clean) (ha : m.cell a = none) : (m.release a).Clean := by
  refine ⟨h.overwritten, ?_, h.misused⟩
  simp [Mem.release, idsAt_of_none ha, h.leaked]

variable [DecidableEq τ]

@[simp] lemma overwritten_assign (m : Mem ρ τ V) (a : ρ) (t : τ) (v : V) :
    (m.assign a t v).overwritten = m.overwritten := by
  unfold assign
  split
  · split <;> rfl
  · rfl

@[simp] lemma leaked_assign (m : Mem ρ τ V) (a : ρ) (t : τ) (v : V) :
    (m.assign a t v).leaked = m.leaked := by
  unfold assign
  split
  · split <;> rfl
  · rfl

lemma destroy_of_alive {x : Obj τ V} (hx : m.cell a = some x) (ht : x.ty = t) :
    m.destroy a t =
      { m with cell := Function.update m.cell a none, destroyed := x.id :: m.destroyed } := by
  simp [destroy, hx, ht]

lemma assign_of_alive {x : Obj τ V} (hx : m.cell a = some x) (ht : x.ty = t) :
    m.assign a t v = { m with cell := Function.update m.cell a (some { x with val := v }) } := by
  simp [assign, hx, ht]

end Cells

end Mem
end AraCore.Lib
