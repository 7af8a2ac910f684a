/-
# What computations respect

A computation respects an invariant and a relation between states if, started where the invariant
holds, it ends, in whatever way, in a state that is related to the first one, and with the
invariant unless it comes to a fault.  Two computations agree up to a fault if they end in the
same way, except where one comes to this fault and the other to some other.  All constructs for
computations keep both.
-/
import AraCore.Lib.Comp

namespace AraCore.Lib
namespace Comp

variable {σ ε φ α β : Type}

/-- Two postconditions that hold at the end hold together. -/
lemma wp_and {c : Comp σ ε φ α} {Q Q' : Post σ ε φ α} {s : σ} (h : wp c Q s) (h' : wp c Q' s) :
    wp c ⟨fun a t => Q.ok a t ∧ Q'.ok a t, fun x t => Q.throw x t ∧ Q'.throw x t,
      fun f t => Q.stop f t ∧ Q'.stop f t⟩ s := by
  unfold wp at h h' ⊢
  generalize c s = r at h h' ⊢
  cases r <;> exact ⟨h, h'⟩

/-! ## Invariants and relations -/

/-- The ends of a computation that was started in `s`: the invariant `I` holds, the state is
related to `s` by `R`, and where there is a fault, `S` tells what is known of it. -/
abbrev Post.kept (I : σ → Prop) (R : σ → σ → Prop) (S : φ → σ → Prop) (s : σ) : Post σ ε φ α :=
  ⟨fun _ t => I t ∧ R s t, fun _ t => I t ∧ R s t, fun f t => R s t ∧ S f t⟩

def Respects (I : σ → Prop) (R : σ → σ → Prop) (S : φ → σ → Prop) (c : Comp σ ε φ α) : Prop :=
  ∀ s, I s → wp c (.kept I R S s) s

namespace Respects

variable {I : σ → Prop} {R : σ → σ → Prop} {S : φ → σ → Prop} {c : Comp σ ε φ α}
  {k : α → Comp σ ε φ β} {g : σ → σ}

section

variable [Std.Refl R]

lemma pure (a : α) : Respects I R S (Pure.pure a : Comp σ ε φ α) :=
  fun s hs => ⟨hs, Std.Refl.refl s⟩

lemma get : Respects I R S (Comp.get : Comp σ ε φ σ) := fun s hs => ⟨hs, Std.Refl.refl s⟩

lemma throw (x : ε) : Respects I R S (Comp.throw x : Comp σ ε φ α) :=
  fun s hs => ⟨hs, Std.Refl.refl s⟩

lemma stop {f : φ} (hf : ∀ s, S f s) : Respects I R S (Comp.stop f : Comp σ ε φ α) :=
  fun s _ => ⟨Std.Refl.refl s, hf s⟩

end

lemma modify (hg : ∀ s, I s → I (g s) ∧ R s (g s)) :
    Respects I R S (Comp.modify g : Comp σ ε φ Unit) := hg

lemma attempt (hc : Respects I R S c) : Respects I R S (Comp.attempt c) := by
  intro s hs
  rw [wp_attempt]
  exact hc s hs

variable [IsTrans σ R]

/-- What is related to an earlier state stays so. -/
lemma after (hc : Respects I R S c) {s t : σ} (ht : I t) (hs : R s t) :
    wp c (.kept I R S s) t :=
  wp_mono (hc t ht) (fun _ _ h => ⟨h.1, IsTrans.trans _ _ _ hs h.2⟩)
    (fun _ _ h => ⟨h.1, IsTrans.trans _ _ _ hs h.2⟩)
    fun _ _ h => ⟨IsTrans.trans _ _ _ hs h.1, h.2⟩

lemma bind (hc : Respects I R S c) (hk : ∀ a, Respects I R S (k a)) :
    Respects I R S (c >>= k) := by
  intro s hs
  rw [wp_bind]
  exact wp_mono (hc s hs) (fun a t h => (hk a).after h.1 h.2) (fun _ _ h => h) fun _ _ h => h

lemma tryCatch {handler : ε → Comp σ ε φ α} (hc : Respects I R S c)
    (hh : ∀ x, Respects I R S (handler x)) : Respects I R S (Comp.tryCatch c handler) := by
  intro s hs
  rw [wp_tryCatch]
  exact wp_mono (hc s hs) (fun _ _ h => h) (fun x t h => (hh x).after h.1 h.2) fun _ _ h => h

lemma cleanup (hc : Respects I R S c) (hg : ∀ s, I s → I (g s) ∧ R s (g s)) :
    Respects I R S (Comp.cleanup c g) := by
  intro s hs
  rw [wp_cleanup]
  have hend : ∀ t, I t ∧ R s t → I (g t) ∧ R s (g t) := fun t ht =>
    ⟨(hg t ht.1).1, IsTrans.trans _ _ _ ht.2 (hg t ht.1).2⟩
  exact wp_mono (hc s hs) (fun _ t h => hend t h) (fun _ t h => hend t h) fun _ _ h => h

lemma unwind {g : ε → σ → σ} (hc : Respects I R S c)
    (hg : ∀ x s, I s → I (g x s) ∧ R s (g x s)) : Respects I R S (Comp.unwind c g) := by
  intro s hs
  rw [wp_unwind]
  exact wp_mono (hc s hs) (fun _ _ h => h)
    (fun x t h => ⟨(hg x t h.1).1, IsTrans.trans _ _ _ h.2 (hg x t h.1).2⟩) fun _ _ h => h

end Respects

/-! ## Agreement up to a fault -/

/-- `c` ends as `c'` does, or comes to the fault `f` where `c'` comes to some fault. -/
def Agree (f : φ) (c c' : Comp σ ε φ α) : Prop :=
  ∀ s, c s = c' s ∨ ∃ f' t, c s = .stop f t ∧ c' s = .stop f' t

namespace Agree

variable {f : φ} {c c' : Comp σ ε φ α} {k k' : α → Comp σ ε φ β}

lemma refl (f : φ) (c : Comp σ ε φ α) : Agree f c c := fun _ => Or.inl rfl

lemma bind (hc : Agree f c c') (hk : ∀ a, Agree f (k a) (k' a)) :
    Agree f (c >>= k) (c' >>= k') := by
  intro s
  simp only [Bind.bind]
  rcases hc s with heq | ⟨f', t, hl, hr⟩
  · rw [heq]
    cases c' s with
    | ok a t => exact hk a t
    | throw x t => exact Or.inl rfl
    | stop f' t => exact Or.inl rfl
  · rw [hl, hr]
    exact Or.inr ⟨f', t, rfl, rfl⟩

lemma tryCatch {handler handler' : ε → Comp σ ε φ α} (hc : Agree f c c')
    (hh : ∀ x, Agree f (handler x) (handler' x)) :
    Agree f (Comp.tryCatch c handler) (Comp.tryCatch c' handler') := by
  intro s
  simp only [Comp.tryCatch]
  rcases hc s with heq | ⟨f', t, hl, hr⟩
  · rw [heq]
    cases c' s with
    | ok a t => exact Or.inl rfl
    | throw x t => exact hh x t
    | stop f' t => exact Or.inl rfl
  · rw [hl, hr]
    exact Or.inr ⟨f', t, rfl, rfl⟩

lemma cleanup (hc : Agree f c c') (g : σ → σ) :
    Agree f (Comp.cleanup c g) (Comp.cleanup c' g) := by
  intro s
  simp only [Comp.cleanup]
  rcases hc s with heq | ⟨f', t, hl, hr⟩
  · exact Or.inl (by rw [heq])
  · rw [hl, hr]
    exact Or.inr ⟨f', t, rfl, rfl⟩

lemma unwind (hc : Agree f c c') (g : ε → σ → σ) :
    Agree f (Comp.unwind c g) (Comp.unwind c' g) := by
  intro s
  simp only [Comp.unwind]
  rcases hc s with heq | ⟨f', t, hl, hr⟩
  · exact Or.inl (by rw [heq])
  · rw [hl, hr]
    exact Or.inr ⟨f', t, rfl, rfl⟩

lemma attempt (hc : Agree f c c') : Agree f (Comp.attempt c) (Comp.attempt c') := by
  intro s
  simp only [Comp.attempt]
  rcases hc s with heq | ⟨f', t, hl, hr⟩
  · exact Or.inl (by rw [heq])
  · rw [hl, hr]
    exact Or.inr ⟨f', t, rfl, rfl⟩

/-- A computation that comes to no fault is the same as one with which it agrees. -/
lemma eq_of_wp {s : σ} {Q : Post σ ε φ α} (hc : Agree f c c') (h : wp c' Q s)
    (hQ : ∀ g t, ¬ Q.stop g t) : c s = c' s := by
  rcases hc s with heq | ⟨g, t, -, hr⟩
  · exact heq
  · unfold wp at h
    rw [hr] at h
    exact absurd h (hQ g t)

/-- Computations that call themselves agree at any depth if what they do at the bound agrees. -/
lemma iterate {F : (α → Comp σ ε φ β) → α → Comp σ ε φ β} {base base' : α → Comp σ ε φ β}
    (hF : ∀ call call', (∀ x, Agree f (call x) (call' x)) → ∀ x, Agree f (F call x) (F call' x))
    (hbase : ∀ x, Agree f (base x) (base' x)) :
    ∀ n x, Agree f (F^[n] base x) (F^[n] base' x) := by
  intro n
  induction n with
  | zero => exact hbase
  | succ n ih =>
    rw [Function.iterate_succ_apply', Function.iterate_succ_apply']
    exact hF _ _ ih

end Agree
end Comp
end AraCore.Lib
