/-
# The order in which packages are built

`figure_out_build_order` walks a dependency graph and moves packages back in a list, so that in the
end every package stands before those it depends on; the list is then read backwards.  It comes to
an end exactly if the recursion limit admits all paths of dependencies.
-/
import AraCore.BuildCentral.Graph

namespace AraCore.BuildCentral

open Lib Trace Order Reach Relation

/-! ## Translation -/

/-- `build_list.index(package)` -/
def index (buildList : List String) (package : String) : Except PyError ℕ :=
  if package ∈ buildList then pure (buildList.idxOf package) else throw .valueError

/-- The body of the first loop of `figure_out_build_order`. -/
def placeNeighbor (package : String) (idx : ℕ) (buildList : List String) (neighbor : String) :
    Except PyError (List String) :=
  if neighbor ∈ buildList.take idx then do
    let buildList := buildList.erase neighbor
    let i ← index buildList package
    pure (buildList.insertIdx (i + 1) neighbor)
  else if neighbor ∉ buildList.drop idx then pure (buildList ++ [neighbor])
  else pure buildList

/-- `figure_out_build_order`, with a limit for the depth of the recursion. -/
def figureOutBuildOrder (G : DiGraph) :
    ℕ → String → List String → Except PyError (List String)
  | 0, _, _ => throw .recursionError
  | limit + 1, package, buildList => do
    let idx ← index buildList package
    let neighbors ← G.neighbors package
    let buildList ← neighbors.foldlM (placeNeighbor package idx) buildList
    neighbors.foldlM (fun buildList neighbor => figureOutBuildOrder G limit neighbor buildList)
      buildList

/-- `generate_build_order_for_single_graph` -/
def generateBuildOrderForSingleGraph (limit : ℕ) (G : DiGraph) (package : String)
    (buildList : List String) : Except PyError (List String) :=
  if package ∉ buildList then figureOutBuildOrder G limit package (buildList ++ [package])
  else pure buildList

/-- `generate_all_build_order` -/
def generateAllBuildOrder (limit : ℕ) (graphs : List DiGraph) (buildList : List String) :
    Except PyError (List String) := do
  let orderedPackages ← graphs.foldlM (fun orderedPackages graph => do
    let bp ← generateBuildOrderForSingleGraph limit graph buildAllTarget []
    pure (bp.reverse.foldl appendNew orderedPackages)) []
  pure ((orderedPackages.reverse.erase buildAllTarget).foldl appendNew buildList)

/-- `generate_build_order` -/
def generateBuildOrder (limit : ℕ) (graphs : List DiGraph) (package : String)
    (buildList : List String) : Except PyError (List String) :=
  if package = buildAllTarget then generateAllBuildOrder limit graphs buildList
  else graphs.foldlM (fun buildList graph =>
    if package ∉ graph.nodes then pure buildList
    else generateBuildOrderForSingleGraph limit graph package buildList) buildList

/-- What `build_central.py` does with the packages that are asked for: the list that is built. -/
def depList (limit : ℕ) (graphs : List DiGraph) (packageList : List String) :
    Except PyError (List String) := do
  let depList ← packageList.foldlM (fun depList pkg => generateBuildOrder limit graphs pkg depList)
    []
  pure depList.reverse

/-! ## The neighbours are placed -/

variable {G : DiGraph} {limit idx : ℕ} {package neighbor : String}
  {l l₀ l₁ l₂ l' done ns : List String}

lemma index_of_shape (h : package ∉ l₁) :
    index (l₁ ++ package :: l₂) package = .ok l₁.length := by
  rw [index, if_pos (by simp), List.idxOf_append_of_notMem h, List.idxOf_cons_self, Nat.add_zero]
  rfl

lemma insertIdx_of_shape (l₁ l₂ : List String) (x y : String) :
    (l₁ ++ x :: l₂).insertIdx (l₁.length + 1) y = l₁ ++ x :: y :: l₂ := by
  induction l₁ with
  | nil => rfl
  | cons z l₁ ih => exact congrArg (z :: ·) ih

/-- The list during the first loop: what was in front of the package and has been moved stands
behind it, and `idx` tells where the package was at first. -/
structure Placed (package : String) (idx : ℕ) (l₀ done l : List String) : Prop where
  shape : ∃ front moved rest, l = front ++ package :: (moved ++ rest) ∧
    front.length + moved.length = idx ∧ moved ⊆ done ∧ done ⊆ moved ++ rest
  nodup : l.Nodup
  mem : ∀ x, x ∈ l ↔ x ∈ l₀ ∨ x ∈ done
  keeps : ∀ u v, u ∉ done → Before u v l₀ → Before u v l

lemma Placed.start (hl : l.Nodup) (hp : package ∈ l) :
    Placed package (l.idxOf package) l [] l := by
  obtain ⟨front, rest, rfl, hnot⟩ := List.eq_append_cons_of_mem hp
  refine ⟨⟨front, [], rest, rfl, ?_, nofun, nofun⟩, hl, by simp, fun _ _ _ h => h⟩
  rw [List.idxOf_append_of_notMem hnot, List.idxOf_cons_self]
  rfl

/-- The slices of the list that the first loop looks at, though `idx` may be out of date. -/
lemma mem_slices {front moved : List String} (rest : List String) {x : String}
    (hidx : front.length + moved.length = idx) (hx : x ≠ package) (hm : x ∉ moved) :
    (x ∈ (front ++ package :: (moved ++ rest)).take idx ↔ x ∈ front) ∧
      (x ∉ front → (x ∈ (front ++ package :: (moved ++ rest)).drop idx ↔ x ∈ rest)) := by
  have hsub : idx - front.length = moved.length := by omega
  have hle : moved.length ≤ (package :: moved).length := Nat.le_succ _
  have hnot : x ∉ package :: moved := by simp [hx, hm]
  rw [List.take_append, List.take_of_length_le (by omega), List.drop_append,
    List.drop_eq_nil_of_le (by omega), hsub, ← List.cons_append, List.take_append_of_le_length hle,
    List.drop_append_of_le_length hle]
  constructor
  · rw [List.mem_append, or_iff_left fun hmem => hnot (List.mem_of_mem_take hmem)]
  · intro _
    rw [List.nil_append, List.mem_append, or_iff_right fun hmem => hnot (List.mem_of_mem_drop hmem)]

/-- A neighbour in front of the package is put behind it. -/
lemma Placed.pull {f₁ f₂ moved rest : List String}
    (h : Placed package idx l₀ done (f₁ ++ neighbor :: f₂ ++ package :: (moved ++ rest)))
    (hidx : (f₁ ++ neighbor :: f₂).length + moved.length = idx) (hmoved : moved ⊆ done)
    (hrest : done ⊆ moved ++ rest) :
    Placed package idx l₀ (neighbor :: done)
      ((f₁ ++ f₂) ++ package :: (neighbor :: moved ++ rest)) := by
  have hshape : f₁ ++ neighbor :: f₂ ++ package :: (moved ++ rest) =
      f₁ ++ neighbor :: ((f₂ ++ [package]) ++ (moved ++ rest)) := by simp
  have hshape' : (f₁ ++ f₂) ++ package :: (neighbor :: moved ++ rest) =
      f₁ ++ (f₂ ++ [package]) ++ neighbor :: (moved ++ rest) := by simp
  have hperm : ((f₁ ++ f₂) ++ package :: (neighbor :: moved ++ rest)).Perm
      (f₁ ++ neighbor :: f₂ ++ package :: (moved ++ rest)) := by
    rw [hshape, hshape', List.append_assoc]
    exact List.Perm.append_left f₁ List.perm_middle
  refine ⟨⟨f₁ ++ f₂, neighbor :: moved, rest, rfl, ?_, ?_, ?_⟩, hperm.nodup_iff.mpr h.nodup,
    fun x => ?_, fun u v hu huv => ?_⟩
  · simp only [List.length_append, List.length_cons] at hidx ⊢
    omega
  · exact List.cons_subset_cons _ hmoved
  · exact List.cons_subset_cons _ hrest
  · have hold : neighbor ∈ l₀ ∨ neighbor ∈ done := (h.mem neighbor).mp (by simp)
    rw [hperm.mem_iff, h.mem, List.mem_cons]
    constructor
    · exact Or.imp_right Or.inr
    · rintro (hx | rfl | hx)
      · exact Or.inl hx
      · exact hold
      · exact Or.inr hx
  · rw [List.mem_cons, not_or] at hu
    have hnodup := h.nodup
    have huv' := h.keeps u v hu.2 huv
    rw [hshape] at huv' hnodup
    rw [hshape']
    exact before_moved hnodup (Ne.symm hu.1) huv'

/-- A neighbour behind the package stays where it is. -/
lemma Placed.stay {front moved rest : List String}
    (h : Placed package idx l₀ done (front ++ package :: (moved ++ rest)))
    (hidx : front.length + moved.length = idx) (hmoved : moved ⊆ done)
    (hrest : done ⊆ moved ++ rest) (hin : neighbor ∈ rest) :
    Placed package idx l₀ (neighbor :: done) (front ++ package :: (moved ++ rest)) := by
  have hold : neighbor ∈ l₀ ∨ neighbor ∈ done := (h.mem neighbor).mp (by simp [hin])
  refine ⟨⟨front, moved, rest, rfl, hidx, ?_, ?_⟩, h.nodup, fun x => ?_, fun u v hu huv => ?_⟩
  · exact fun x hx => List.mem_cons_of_mem _ (hmoved hx)
  · exact List.cons_subset.mpr ⟨List.mem_append_right _ hin, hrest⟩
  · rw [h.mem, List.mem_cons]
    constructor
    · exact Or.imp_right Or.inr
    · rintro (hx | rfl | hx)
      · exact Or.inl hx
      · exact hold
      · exact Or.inr hx
  · exact h.keeps u v (fun hd => hu (List.mem_cons_of_mem _ hd)) huv

/-- A new neighbour is put at the end. -/
lemma Placed.add {front moved rest : List String}
    (h : Placed package idx l₀ done (front ++ package :: (moved ++ rest)))
    (hidx : front.length + moved.length = idx) (hmoved : moved ⊆ done)
    (hrest : done ⊆ moved ++ rest) (hnew : neighbor ∉ front ++ package :: (moved ++ rest)) :
    Placed package idx l₀ (neighbor :: done)
      (front ++ package :: (moved ++ rest) ++ [neighbor]) := by
  refine ⟨⟨front, moved, rest ++ [neighbor], by simp, hidx, ?_, ?_⟩, ?_, fun x => ?_,
    fun u v hu huv => ?_⟩
  · exact fun x hx => List.mem_cons_of_mem _ (hmoved hx)
  · refine List.cons_subset.mpr ⟨by simp, fun x hx => ?_⟩
    rw [← List.append_assoc]
    exact List.mem_append_left _ (hrest hx)
  · refine List.nodup_append.mpr ⟨h.nodup, List.nodup_singleton _, ?_⟩
    rintro x hx y hy rfl
    exact hnew (List.mem_singleton.mp hy ▸ hx)
  · rw [List.mem_append, h.mem, List.mem_singleton, List.mem_cons, or_assoc,
      or_comm (a := x ∈ done)]
  · exact before_append_left (h.keeps u v (fun hd => hu (List.mem_cons_of_mem _ hd)) huv)

lemma Placed.step (h : Placed package idx l₀ done l) (hdone : neighbor ∉ done)
    (hne : neighbor ≠ package) :
    ∃ l', placeNeighbor package idx l neighbor = .ok l' ∧
      Placed package idx l₀ (neighbor :: done) l' := by
  obtain ⟨front, moved, rest, rfl, hidx, hmoved, hrest⟩ := h.shape
  have hnm : neighbor ∉ moved := fun hm => hdone (hmoved hm)
  obtain ⟨htake, hdrop⟩ := mem_slices rest hidx hne hnm
  by_cases hfront : neighbor ∈ front
  · obtain ⟨f₁, f₂, rfl, hf₁⟩ := List.eq_append_cons_of_mem hfront
    have hpulled := h.pull hidx hmoved hrest
    have hp : package ∉ f₁ ++ f₂ := fun hp =>
      List.disjoint_of_nodup_append hpulled.nodup hp List.mem_cons_self
    have herase : (f₁ ++ neighbor :: f₂ ++ package :: (moved ++ rest)).erase neighbor =
        (f₁ ++ f₂) ++ package :: (moved ++ rest) := by
      rw [List.append_assoc, List.erase_append_right _ hf₁, List.cons_append, List.erase_cons_head,
        List.append_assoc]
    refine ⟨_, ?_, hpulled⟩
    simp only [placeNeighbor, if_pos (htake.mpr hfront), herase, index_of_shape hp]
    exact congrArg Except.ok (insertIdx_of_shape _ _ _ _)
  · by_cases hin : neighbor ∈ rest
    · refine ⟨_, ?_, h.stay hidx hmoved hrest hin⟩
      rw [placeNeighbor, if_neg (htake.not.mpr hfront),
        if_neg (not_not.mpr ((hdrop hfront).mpr hin))]
      rfl
    · refine ⟨_, ?_, h.add hidx hmoved hrest (by simp [hfront, hne, hnm, hin])⟩
      rw [placeNeighbor, if_neg (htake.not.mpr hfront), if_pos ((hdrop hfront).not.mpr hin)]
      rfl

/-- The first loop. -/
lemma Placed.foldlM (h : Placed package idx l₀ done l) (hns : ns.Nodup)
    (hdis : ∀ n ∈ ns, n ∉ done ∧ n ≠ package) :
    ∃ l', ns.foldlM (placeNeighbor package idx) l = .ok l' ∧
      Placed package idx l₀ (ns.reverse ++ done) l' := by
  induction ns generalizing done l with
  | nil => exact ⟨l, rfl, h⟩
  | cons n ns ih =>
    rw [List.nodup_cons] at hns
    obtain ⟨hn, hne⟩ := hdis n List.mem_cons_self
    obtain ⟨l₁, hl₁, h₁⟩ := h.step hn hne
    obtain ⟨l', hl', h'⟩ := ih h₁ hns.2 fun m hm => by
      obtain ⟨hmd, hmp⟩ := hdis m (List.mem_cons_of_mem _ hm)
      refine ⟨fun hmem => ?_, hmp⟩
      rcases List.mem_cons.mp hmem with rfl | hmem
      · exact hns.1 hm
      · exact hmd hmem
    refine ⟨l', ?_, by simpa using h'⟩
    rw [List.foldlM_cons, hl₁]
    exact hl'

/-- All that has been placed stands behind the package. -/
lemma Placed.before (h : Placed package idx l₀ done l) {n : String} (hn : n ∈ done) :
    Before package n l := by
  obtain ⟨front, moved, rest, rfl, -, -, hrest⟩ := h.shape
  exact ⟨front, _, rfl, fun hf =>
    List.disjoint_of_nodup_append h.nodup hf (List.mem_cons_of_mem _ (hrest hn))⟩

/-! ## The walk -/

/-- What the walk from `package` makes of the list `l`. -/
structure Figured (G : DiGraph) (package : String) (l l' : List String) : Prop where
  nodup : l'.Nodup
  mem : ∀ x, x ∈ l' ↔ x ∈ l ∨ TransGen G.Edge package x
  edges : ∀ u v, ReflTransGen G.Edge package u → G.Edge u v → Before u v l'
  keeps : ∀ u v, ¬ TransGen G.Edge package u → Before u v l → Before u v l'

/-- What the walks from the neighbours in `done` make of the list `l`. -/
structure Visited (G : DiGraph) (done l l' : List String) : Prop where
  nodup : l'.Nodup
  mem : ∀ x, x ∈ l' ↔ x ∈ l ∨ ∃ n ∈ done, TransGen G.Edge n x
  edges : ∀ n ∈ done, ∀ u v, ReflTransGen G.Edge n u → G.Edge u v → Before u v l'
  keeps : ∀ u v, (∀ n ∈ done, ¬ TransGen G.Edge n u) → Before u v l → Before u v l'

lemma Visited.nil (hl : l.Nodup) : Visited G [] l l :=
  ⟨hl, by simp, nofun, fun _ _ _ h => h⟩

/-- The edges of a package that is not reached again are not touched, and the other ones are put in
order again. -/
lemma Visited.step (h : Visited G done l₀ l) (hn : Figured G neighbor l l') :
    Visited G (neighbor :: done) l₀ l' := by
  refine ⟨hn.nodup, fun x => ?_, fun n hmem u v hnu huv => ?_, fun u v hu huv => ?_⟩
  · rw [hn.mem, h.mem]
    simp only [List.mem_cons, exists_eq_or_imp]
    rw [or_assoc, or_comm (a := ∃ n ∈ done, _)]
  · by_cases hreach : ReflTransGen G.Edge neighbor u
    · exact hn.edges u v hreach huv
    · rcases List.mem_cons.mp hmem with rfl | hmem
      · exact absurd hnu hreach
      · exact hn.keeps u v (fun ht => hreach ht.to_reflTransGen) (h.edges n hmem u v hnu huv)
  · exact hn.keeps u v (hu neighbor List.mem_cons_self)
      (h.keeps u v (fun n hmem => hu n (List.mem_cons_of_mem _ hmem)) huv)

/-- The second loop. -/
lemma Visited.foldlM {f : List String → String → Except PyError (List String)}
    (h : Visited G done l₀ l) (hf : ∀ n ∈ ns, ∀ l, l.Nodup → n ∈ l →
      ∃ l', f l n = .ok l' ∧ Figured G n l l') (hns : ns ⊆ l₀) :
    ∃ l', ns.foldlM f l = .ok l' ∧ Visited G (ns.reverse ++ done) l₀ l' := by
  induction ns generalizing done l with
  | nil => exact ⟨l, rfl, h⟩
  | cons n ns ih =>
    have hnl : n ∈ l := (h.mem n).mpr (Or.inl (hns List.mem_cons_self))
    obtain ⟨l₁, hl₁, h₁⟩ := hf n List.mem_cons_self l h.nodup hnl
    obtain ⟨l', hl', h'⟩ := ih (h.step h₁) (fun m hm => hf m (List.mem_cons_of_mem _ hm))
      fun m hm => hns (List.mem_cons_of_mem _ hm)
    refine ⟨l', ?_, by simpa using h'⟩
    rw [List.foldlM_cons, hl₁]
    exact hl'

/-- Both loops together. -/
lemma Figured.of_loops (hacyclic : ¬ TransGen G.Edge package package)
    (h₁ : Placed package idx l₀ (G.successors package).reverse l₁)
    (h₂ : Visited G (G.successors package).reverse l₁ l₂) : Figured G package l₀ l₂ := by
  have hdone : ∀ n, n ∈ (G.successors package).reverse ↔ G.Edge package n := fun n =>
    List.mem_reverse
  have hback : ∀ n ∈ (G.successors package).reverse, ¬ TransGen G.Edge n package := fun n hn ht =>
    hacyclic (.head ((hdone n).mp hn) ht)
  refine ⟨h₂.nodup, fun x => ?_, fun u v hu huv => ?_, fun u v hu huv => ?_⟩
  · rw [h₂.mem, h₁.mem, TransGen.head'_iff, or_assoc]
    refine or_congr_right ⟨?_, ?_⟩
    · rintro (hx | ⟨n, hn, hnx⟩)
      · exact ⟨x, (hdone x).mp hx, .refl⟩
      · exact ⟨n, (hdone n).mp hn, hnx.to_reflTransGen⟩
    · rintro ⟨n, hn, hnx⟩
      rcases reflTransGen_iff_eq_or_transGen.mp hnx with rfl | hnx
      · exact Or.inl ((hdone x).mpr hn)
      · exact Or.inr ⟨n, (hdone n).mpr hn, hnx⟩
  · rcases ReflTransGen.cases_head hu with rfl | ⟨n, hn, hnu⟩
    · exact h₂.keeps _ v hback (h₁.before ((hdone v).mpr huv))
    · exact h₂.edges n ((hdone n).mpr hn) u v hnu huv
  · refine h₂.keeps u v (fun n hn ht => hu (.head ((hdone n).mp hn) ht)) (h₁.keeps u v ?_ huv)
    exact fun hn => hu (.single ((hdone u).mp hn))

/-- If the limit admits all paths of dependencies, the walk comes to its end. -/
lemma figureOut_of_within (hw : Within G.Edge limit package) (hG : package ∈ G.nodes)
    (hl : l.Nodup) (hp : package ∈ l) :
    ∃ l', figureOutBuildOrder G limit package l = .ok l' ∧ Figured G package l l' := by
  induction limit generalizing package l with
  | zero => exact hw.elim
  | succ limit ih =>
    have hacyclic := hw.acyclic
    have hnot : package ∉ G.successors package := fun h => hacyclic (.single h)
    obtain ⟨l₁, hl₁, h₁⟩ := (Placed.start hl hp).foldlM (G.successors_nodup package)
      fun n hn => ⟨List.not_mem_nil, fun heq => hnot (heq ▸ hn)⟩
    rw [List.append_nil] at h₁
    have hsub : G.successors package ⊆ l₁ := fun n hn =>
      (h₁.mem n).mpr (Or.inr (List.mem_reverse.mpr hn))
    obtain ⟨l₂, hl₂, h₂⟩ := (Visited.nil h₁.nodup).foldlM (G := G)
      (f := fun l n => figureOutBuildOrder G limit n l)
      (fun n hn l hl hnl => ih (hw n hn) (DiGraph.Edge.right hn) hl hnl) hsub
    rw [List.append_nil] at h₂
    refine ⟨l₂, ?_, Figured.of_loops hacyclic h₁ h₂⟩
    rw [figureOutBuildOrder, index, if_pos hp, G.neighbors_of_mem package hG]
    have hok : ((G.successors package).foldlM (placeNeighbor package (l.idxOf package)) l >>=
        fun l => (G.successors package).foldlM (fun l n => figureOutBuildOrder G limit n l) l) =
          .ok l₂ := by
      rw [hl₁]
      exact hl₂
    exact hok

lemma foldlM_ok {σ α ε : Type} {f : σ → α → Except ε σ} {xs : List α} {s s' : σ}
    (h : xs.foldlM f s = .ok s') : ∀ x ∈ xs, ∃ t t', f t x = .ok t' := by
  induction xs generalizing s with
  | nil => exact nofun
  | cons y xs ih =>
    rw [List.foldlM_cons] at h
    cases hy : f s y with
    | error e =>
      rw [hy] at h
      cases h
    | ok t =>
      rw [hy] at h
      rintro x (_ | ⟨_, hx⟩)
      · exact ⟨s, t, hy⟩
      · exact ih h x hx

/-- If the walk comes to its end, the limit admits all paths. -/
lemma within_of_figureOut (h : figureOutBuildOrder G limit package l = .ok l') :
    Within G.Edge limit package := by
  induction limit generalizing package l l' with
  | zero => cases h
  | succ limit ih =>
    rw [figureOutBuildOrder] at h
    cases hidx : index l package with
    | error e =>
      rw [hidx] at h
      cases h
    | ok idx =>
      rw [hidx] at h
      by_cases hG : package ∈ G.nodes
      · rw [G.neighbors_of_mem package hG] at h
        have h : ((G.successors package).foldlM (placeNeighbor package idx) l >>= fun l =>
          (G.successors package).foldlM (fun l n => figureOutBuildOrder G limit n l) l) =
            .ok l' := h
        cases hplaced : (G.successors package).foldlM (placeNeighbor package idx) l with
        | error e =>
          rw [hplaced] at h
          cases h
        | ok l₁ =>
          rw [hplaced] at h
          intro n hn
          obtain ⟨l₂, l₃, hn'⟩ := foldlM_ok h n hn
          exact ih hn'
      · rw [G.neighbors_of_notMem package hG] at h
        cases h

/-- **The walk** from a package comes to its end exactly if the recursion limit admits all paths of
dependencies; then every package that is reached stands before those it depends on, and what is not
reached keeps its place before the rest. -/
theorem figureOutBuildOrder_ok_iff (hG : package ∈ G.nodes) (hl : l.Nodup) (hp : package ∈ l) :
    ((∃ l', figureOutBuildOrder G limit package l = .ok l') ↔ Within G.Edge limit package) ∧
      ∀ l', figureOutBuildOrder G limit package l = .ok l' → Figured G package l l' := by
  constructor
  · constructor
    · rintro ⟨l', hl'⟩
      exact within_of_figureOut hl'
    · intro hw
      obtain ⟨l', hl', -⟩ := figureOut_of_within hw hG hl hp
      exact ⟨l', hl'⟩
  · intro l' hl'
    obtain ⟨l₂, hl₂, hfig⟩ := figureOut_of_within (within_of_figureOut hl') hG hl hp
    cases hl'.symm.trans hl₂
    exact hfig

/-- A graph in which a package is moved back twice. -/
def diamond : DiGraph :=
  ((((DiGraph.empty.addEdge "a" "c").addEdge "a" "b").addEdge "b" "c").addEdge "c" "d")

theorem figureOutBuildOrder_ok_iff_diamond :
    figureOutBuildOrder diamond 4 "a" ["d", "c", "a"] = .ok ["a", "b", "c", "d"] ∧
      Figured diamond "a" ["d", "c", "a"] ["a", "b", "c", "d"] := by
  have hrun : figureOutBuildOrder diamond 4 "a" ["d", "c", "a"] = .ok ["a", "b", "c", "d"] := by
    decide
  exact ⟨hrun, (figureOutBuildOrder_ok_iff (by decide) (by decide) (by decide)).2 _ hrun⟩

/-! ## Several graphs -/

variable {graphs : List DiGraph} {packageList : List String} {u v x : String}

/-- The package `u` depends on `v` in one of the graphs. -/
def Depends (graphs : List DiGraph) (u v : String) : Prop :=
  u ≠ buildAllTarget ∧ ∃ G ∈ graphs, G.Edge u v

/-- Two graphs with a package in common have the same dependencies for it. -/
def Agree (graphs : List DiGraph) : Prop :=
  ∀ G ∈ graphs, ∀ G' ∈ graphs, ∀ u ∈ G'.nodes, u ≠ buildAllTarget → ∀ v, G.Edge u v → G'.Edge u v

/-- The graphs of a variant, and a recursion limit that admits the longest of their paths. -/
structure Loaded (limit : ℕ) (graphs : List DiGraph) : Prop where
  rooted : ∀ G ∈ graphs, G.Rooted
  agree : Agree graphs
  limit : ∀ G ∈ graphs, G.nodes.length ≤ limit

namespace Loaded

variable (h : Loaded limit graphs)

include h

lemma edge_iff (hG : G ∈ graphs) (hu : u ∈ G.nodes) (hall : u ≠ buildAllTarget) :
    Depends graphs u v ↔ G.Edge u v := by
  constructor
  · rintro ⟨-, G', hG', huv⟩
    exact h.agree G' hG' G hG u hu hall v huv
  · exact fun huv => ⟨hall, G, hG, huv⟩

lemma ne_all (hdep : Depends graphs u v) : v ≠ buildAllTarget := by
  obtain ⟨-, G, hG, huv⟩ := hdep
  rintro rfl
  exact (h.rooted G hG).into u huv

lemma irrefl (u : String) : ¬ Depends graphs u u := fun ⟨_, G, hG, huu⟩ =>
  (h.rooted G hG).acyclic u (.single huu)

/-- In a graph, a package reaches what it depends on. -/
lemma reach_iff (hG : G ∈ graphs) (hu : u ∈ G.nodes) (hall : u ≠ buildAllTarget) :
    ReflTransGen G.Edge u x ↔ ReflTransGen (Depends graphs) u x := by
  have hstep : ∀ x, ReflTransGen G.Edge u x → x ∈ G.nodes ∧ x ≠ buildAllTarget := by
    intro x hx
    rcases reflTransGen_iff_eq_or_transGen.mp hx with rfl | hx
    · exact ⟨hu, hall⟩
    · obtain ⟨y, -, hyx⟩ := TransGen.tail'_iff.mp hx
      exact ⟨hyx.right, fun heq => (h.rooted G hG).into y (heq ▸ hyx)⟩
  constructor
  · intro hx
    induction hx with
    | refl => exact .refl
    | tail huy hyz ih =>
      obtain ⟨hy, hne⟩ := hstep _ huy
      exact ih.tail ((h.edge_iff hG hy hne).mpr hyz)
  · intro hx
    induction hx with
    | refl => exact .refl
    | tail _ hyz ih =>
      obtain ⟨hy, hne⟩ := hstep _ ih
      exact ih.tail ((h.edge_iff hG hy hne).mp hyz)

lemma within (hG : G ∈ graphs) (hu : u ∈ G.nodes) : Within G.Edge limit u :=
  (DiGraph.within_nodes (h.rooted G hG).acyclic hu).mono (h.limit G hG)

/-- A package of one of the graphs is added to a list that respects the dependencies. -/
lemma single (hG : G ∈ graphs) (hp : package ∈ G.nodes) (hall : package ≠ buildAllTarget)
    (hl : Ordered (Depends graphs) l) :
    ∃ l', generateBuildOrderForSingleGraph limit G package l = .ok l' ∧
      Ordered (Depends graphs) l' ∧
      ∀ x, x ∈ l' ↔ x ∈ l ∨ ReflTransGen (Depends graphs) package x := by
  by_cases hmem : package ∈ l
  · refine ⟨l, if_neg (not_not.mpr hmem), hl, fun x => ⟨Or.inl, ?_⟩⟩
    rintro (hx | hx)
    · exact hx
    · induction hx with
      | refl => exact hmem
      | tail _ hyz ih => exact hl.closed _ ih _ hyz
  · have hnodup : (l ++ [package]).Nodup := by
      refine List.nodup_append.mpr ⟨hl.nodup, List.nodup_singleton _, ?_⟩
      rintro x hx y hy rfl
      exact hmem (List.mem_singleton.mp hy ▸ hx)
    obtain ⟨l', hl', hfig⟩ := figureOut_of_within (h.within hG hp) hp hnodup (by simp)
    have hreach : ∀ x, ReflTransGen (Depends graphs) package x ↔ ReflTransGen G.Edge package x :=
      fun x => (h.reach_iff hG hp hall).symm
    have hmem' : ∀ x, x ∈ l' ↔ x ∈ l ∨ ReflTransGen G.Edge package x := by
      intro x
      rw [hfig.mem, List.mem_append, List.mem_singleton, reflTransGen_iff_eq_or_transGen, or_assoc]
    have hedge : ∀ u v, Depends graphs u v → ReflTransGen G.Edge package u → G.Edge u v := by
      rintro u v ⟨hne, G', hG', huv⟩ hu
      refine h.agree G' hG' G hG u ?_ hne v huv
      rcases reflTransGen_iff_eq_or_transGen.mp hu with rfl | hu
      · exact hp
      · obtain ⟨y, -, hyu⟩ := TransGen.tail'_iff.mp hu
        exact hyu.right
    refine ⟨l', (if_pos hmem).trans hl', ⟨hfig.nodup, fun u hu v huv => ?_, fun u hu v huv => ?_⟩,
      fun x => (hmem' x).trans (or_congr_right (hreach x).symm)⟩
    · rw [hmem'] at hu ⊢
      rcases hu with hu | hu
      · exact Or.inl (hl.closed u hu v huv)
      · exact Or.inr (hu.tail (hedge u v huv hu))
    · by_cases hu' : ReflTransGen G.Edge package u
      · exact hfig.edges u v hu' (hedge u v huv hu')
      · have hul := ((hmem' u).mp hu).resolve_right hu'
        exact hfig.keeps u v (fun ht => hu' ht.to_reflTransGen)
          (before_append_left (hl.before u hul v huv))

/-- Only the first graph that has the package matters. -/
lemma generate {gs : List DiGraph} (hgs : gs ⊆ graphs) (hall : package ≠ buildAllTarget)
    (hl : Ordered (Depends graphs) l) :
    ∃ l', gs.foldlM (fun l G => if package ∉ G.nodes then pure l
        else generateBuildOrderForSingleGraph limit G package l) l = .ok l' ∧
      Ordered (Depends graphs) l' ∧ ∀ x, x ∈ l' ↔
        x ∈ l ∨ (∃ G ∈ gs, package ∈ G.nodes) ∧ ReflTransGen (Depends graphs) package x := by
  induction gs generalizing l with
  | nil => exact ⟨l, rfl, hl, by simp⟩
  | cons G gs ih =>
    obtain ⟨hG, hgs⟩ := List.cons_subset.mp hgs
    by_cases hp : package ∈ G.nodes
    · obtain ⟨l₁, hl₁, hord₁, hmem₁⟩ := h.single hG hp hall hl
      obtain ⟨l', hl', hord', hmem'⟩ := ih hgs hord₁
      refine ⟨l', ?_, hord', fun x => ?_⟩
      · rw [List.foldlM_cons, if_neg (not_not.mpr hp), hl₁]
        exact hl'
      · rw [hmem', hmem₁]
        simp only [List.mem_cons, exists_eq_or_imp, hp, true_or, true_and]
        rw [or_assoc, or_iff_left_of_imp And.right]
    · obtain ⟨l', hl', hord', hmem'⟩ := ih hgs hl
      refine ⟨l', ?_, hord', fun x => ?_⟩
      · rw [List.foldlM_cons, if_pos hp]
        exact hl'
      · rw [hmem']
        simp only [List.mem_cons, exists_eq_or_imp, hp, false_or]

/-- The loop over the packages that are asked for. -/
lemma generateEach (hne : buildAllTarget ∉ packageList) (hl : Ordered (Depends graphs) l) :
    ∃ l', packageList.foldlM (fun l p => generateBuildOrder limit graphs p l) l = .ok l' ∧
      Ordered (Depends graphs) l' ∧ ∀ x, x ∈ l' ↔ x ∈ l ∨ ∃ p ∈ packageList,
        (∃ G ∈ graphs, p ∈ G.nodes) ∧ ReflTransGen (Depends graphs) p x := by
  induction packageList generalizing l with
  | nil => exact ⟨l, rfl, hl, by simp⟩
  | cons p ps ih =>
    rw [List.mem_cons, not_or] at hne
    have hall : p ≠ buildAllTarget := Ne.symm hne.1
    obtain ⟨l₁, hl₁, hord₁, hmem₁⟩ := h.generate (List.Subset.refl graphs) hall hl
    obtain ⟨l', hl', hord', hmem'⟩ := ih hne.2 hord₁
    refine ⟨l', ?_, hord', fun x => ?_⟩
    · rw [List.foldlM_cons, generateBuildOrder, if_neg hall, hl₁]
      exact hl'
    · rw [hmem', hmem₁]
      simp only [List.mem_cons, exists_eq_or_imp]
      rw [or_assoc]

end Loaded

/-- The list contains the packages that are wanted, once each, and each after all that it depends
on. -/
structure BuildOrder (graphs : List DiGraph) (wanted : String → Prop) (l : List String) : Prop where
  nodup : l.Nodup
  mem : ∀ x, x ∈ l ↔ wanted x
  before : ∀ u ∈ l, ∀ v, Depends graphs u v → Before v u l

lemma Loaded.buildOrder (h : Loaded limit graphs) {wanted : String → Prop}
    (hl : Ordered (Depends graphs) l) (hmem : ∀ x, x ∈ l ↔ wanted x) :
    BuildOrder graphs wanted l.reverse where
  nodup := List.nodup_reverse.mpr hl.nodup
  mem x := List.mem_reverse.trans (hmem x)
  before _ hu _ huv := hl.reverse h.irrefl (List.mem_reverse.mp hu) huv

/-- Whatever the order in which packages are asked for, the list that is built contains them and all
that they depend on. -/
lemma Loaded.requested (h : Loaded limit graphs) (hne : buildAllTarget ∉ packageList) :
    ∃ l, depList limit graphs packageList = .ok l ∧ BuildOrder graphs (fun x => ∃ p ∈ packageList,
      (∃ G ∈ graphs, p ∈ G.nodes) ∧ ReflTransGen (Depends graphs) p x) l := by
  obtain ⟨l, hl, hord, hmem⟩ := h.generateEach hne .nil
  refine ⟨l.reverse, ?_, h.buildOrder hord fun x => (hmem x).trans (by simp)⟩
  rw [depList, hl]
  rfl

/-- Two groups that have a package in common. -/
def twoGroups : List DiGraph :=
  [((DiGraph.empty.addEdge "gui" "net").addEdge "net" "log").addEdge buildAllTarget "gui",
    (DiGraph.empty.addEdge "app" "log").addEdge buildAllTarget "app"]

lemma loaded_twoGroups : Loaded 4 twoGroups where
  rooted := by
    have hrooted : ∀ G ∈ twoGroups,
        (∀ u ∈ G.nodes, ∀ v ∈ G.successors u,
          ["log", "net", "gui", "app", buildAllTarget].idxOf v <
            ["log", "net", "gui", "app", buildAllTarget].idxOf u) ∧ buildAllTarget ∈ G.nodes ∧
        (∀ u ∈ G.nodes, buildAllTarget ∉ G.successors u) ∧
        ∀ v ∈ G.nodes, v ≠ buildAllTarget → ∃ u ∈ G.nodes, v ∈ G.successors u := by decide
    intro G hG
    obtain ⟨hrank, hall, hinto, h⟩ := hrooted G hG
    exact .of_rank _ hrank hall hinto h
  agree := by
    have hagree : ∀ G ∈ twoGroups, ∀ G' ∈ twoGroups, ∀ u ∈ G'.nodes, u ≠ buildAllTarget →
        ∀ v ∈ G.successors u, v ∈ G'.successors u := by decide
    exact hagree
  limit := by decide

/-- The target that stands for all packages comes too late behind another one: `gui` is built before
`net`, on which it depends. -/
example : depList 4 twoGroups ["net", buildAllTarget] = .ok ["gui", "app", "log", "net"] := by
  decide

/-! ## All packages -/

lemma foldl_appendNew (hl : l.Nodup) (l₀ : List String) :
    l.foldl appendNew l₀ = l₀ ++ l.filter (· ∉ l₀) := by
  induction l generalizing l₀ with
  | nil => simp
  | cons x l ih =>
    rw [List.nodup_cons] at hl
    rw [List.foldl_cons, ih hl.2]
    by_cases hx : x ∈ l₀
    · rw [appendNew, if_pos hx, List.filter_cons_of_neg (by simpa using hx)]
    · have hfilter : l.filter (· ∉ l₀ ++ [x]) = l.filter (· ∉ l₀) := by
        refine List.filter_congr fun y hy => ?_
        have hne : y ≠ x := fun heq => hl.1 (heq ▸ hy)
        simp [hne]
      rw [appendNew, if_neg hx, hfilter, List.filter_cons_of_pos (by simpa using hx)]
      simp

lemma mem_foldl_appendNew {l₀ : List String} : x ∈ l.foldl appendNew l₀ ↔ x ∈ l₀ ∨ x ∈ l := by
  induction l generalizing l₀ with
  | nil => simp
  | cons y l ih => rw [List.foldl_cons, ih, mem_appendNew, List.mem_cons, or_assoc]

namespace Loaded

variable (h : Loaded limit graphs)

include h

/-- The walk from the target that stands for all packages. -/
lemma whole (hG : G ∈ graphs) :
    ∃ bp, generateBuildOrderForSingleGraph limit G buildAllTarget [] = .ok bp ∧
      Ordered (Depends graphs) bp ∧ ∀ x, x ∈ bp ↔ x ∈ G.nodes := by
  have hroot := h.rooted G hG
  obtain ⟨bp, hbp, hfig⟩ := figureOut_of_within (h.within hG hroot.all) hroot.all
    (List.nodup_singleton _) List.mem_cons_self
  have hmem : ∀ x, x ∈ bp ↔ x ∈ G.nodes := by
    intro x
    rw [hfig.mem, List.mem_singleton, ← reflTransGen_iff_eq_or_transGen]
    refine ⟨fun hx => ?_, hroot.reach x⟩
    rcases reflTransGen_iff_eq_or_transGen.mp hx with rfl | hx
    · exact hroot.all
    · obtain ⟨y, -, hyx⟩ := TransGen.tail'_iff.mp hx
      exact hyx.right
  have hedge : ∀ u ∈ bp, ∀ v, Depends graphs u v → G.Edge u v := by
    rintro u hu v ⟨hne, G', hG', huv⟩
    exact h.agree G' hG' G hG u ((hmem u).mp hu) hne v huv
  refine ⟨bp, hbp, ⟨hfig.nodup, fun u hu v huv => ?_, fun u hu v huv => ?_⟩, hmem⟩
  · exact (hmem v).mpr (hedge u hu v huv).right
  · exact hfig.edges u v (hroot.reach u ((hmem u).mp hu)) (hedge u hu v huv)

/-- The loop over the graphs, whose list has what a package depends on in front of it. -/
lemma generateGraphs {gs : List DiGraph} (hgs : gs ⊆ graphs)
    (hl : Ordered (Depends graphs) l.reverse) :
    ∃ l', gs.foldlM (fun l G => do
        let bp ← generateBuildOrderForSingleGraph limit G buildAllTarget []
        pure (bp.reverse.foldl appendNew l)) l = .ok l' ∧
      Ordered (Depends graphs) l'.reverse ∧
        ∀ x, x ∈ l' ↔ x ∈ l ∨ ∃ G ∈ gs, x ∈ G.nodes := by
  induction gs generalizing l with
  | nil => exact ⟨l, rfl, hl, by simp⟩
  | cons G gs ih =>
    obtain ⟨hG, hgs⟩ := List.cons_subset.mp hgs
    obtain ⟨bp, hbp, hord, hmem⟩ := h.whole hG
    have hfold := foldl_appendNew (List.nodup_reverse.mpr hord.nodup) l
    have hnew : Ordered (Depends graphs) (bp.reverse.foldl appendNew l).reverse := by
      have hmerged := hord.merge hl
      rw [hfold, List.reverse_append, List.filter_reverse, List.reverse_reverse]
      simpa only [List.mem_reverse] using hmerged
    obtain ⟨l', hl', hord', hmem'⟩ := ih hgs hnew
    refine ⟨l', ?_, hord', fun x => ?_⟩
    · rw [List.foldlM_cons, hbp]
      exact hl'
    · rw [hmem', hfold]
      by_cases hx : x ∈ l <;> simp [hmem, hx]

end Loaded

/-- The graphs are merged to a list that contains every package once, after all that it depends on
in any of them. -/
lemma Loaded.everything (h : Loaded limit graphs) :
    ∃ l, depList limit graphs [buildAllTarget] = .ok l ∧
      BuildOrder graphs (fun x => x ≠ buildAllTarget ∧ ∃ G ∈ graphs, x ∈ G.nodes) l := by
  obtain ⟨l, hl, hord, hmem⟩ := h.generateGraphs (l := []) (List.Subset.refl graphs) .nil
  have hfiltered : Ordered (Depends graphs) (l.reverse.filter (· ≠ buildAllTarget)) :=
    hord.filter fun u _ v huv => by simpa using h.ne_all huv
  refine ⟨(l.reverse.filter (· ≠ buildAllTarget)).reverse, ?_, h.buildOrder hfiltered fun x => ?_⟩
  · have herase : l.reverse.erase buildAllTarget = l.reverse.filter (· ≠ buildAllTarget) := by
      rw [hord.nodup.erase_eq_filter]
      exact List.filter_congr fun x _ => by simp [bne, beq_eq_decide]
    have hall : generateAllBuildOrder limit graphs [] =
        .ok (l.reverse.filter (· ≠ buildAllTarget)) := by
      rw [generateAllBuildOrder, hl]
      show Except.ok _ = _
      rw [herase, foldl_appendNew hfiltered.nodup]
      simp
    rw [depList, List.foldlM_cons, generateBuildOrder, if_pos rfl, hall]
    rfl
  · rw [List.mem_filter, List.mem_reverse, hmem]
    simp [and_comm]

/-! ## What is asked for -/

/-- The list of packages that is asked for contains the target that stands for all packages only if
it contains nothing else. -/
def Asked (packageList : List String) : Prop :=
  buildAllTarget ∉ packageList ∨ packageList = [buildAllTarget]

/-- What is built if packages are asked for. -/
def Wanted (graphs : List DiGraph) (packageList : List String) (x : String) : Prop :=
  x ≠ buildAllTarget ∧ ∃ G ∈ graphs, x ∈ G.nodes ∧ (packageList = [buildAllTarget] ∨
    ∃ p ∈ packageList, (∃ G ∈ graphs, p ∈ G.nodes) ∧ ReflTransGen (Depends graphs) p x)

lemma Loaded.asked (h : Loaded limit graphs)
    (hasked : Asked packageList) :
    ∃ l, depList limit graphs packageList = .ok l ∧
      BuildOrder graphs (Wanted graphs packageList) l := by
  rcases hasked with hne | rfl
  · obtain ⟨l, hl, hord⟩ := h.requested hne
    have hone : packageList ≠ [buildAllTarget] := by
      rintro rfl
      exact hne List.mem_cons_self
    refine ⟨l, hl, hord.nodup, fun x => (hord.mem x).trans ?_, hord.before⟩
    simp only [Wanted, hone, false_or]
    constructor
    · rintro ⟨p, hp, ⟨G, hG, hpG⟩, hpx⟩
      have hpa : p ≠ buildAllTarget := fun heq => hne (heq ▸ hp)
      refine ⟨?_, ?_⟩
      · rcases reflTransGen_iff_eq_or_transGen.mp hpx with rfl | hpx
        · exact hpa
        · obtain ⟨y, -, hyx⟩ := TransGen.tail'_iff.mp hpx
          exact h.ne_all hyx
      · rcases reflTransGen_iff_eq_or_transGen.mp hpx with rfl | hpx'
        · exact ⟨G, hG, hpG, x, hp, ⟨G, hG, hpG⟩, hpx⟩
        · obtain ⟨y, -, -, G', hG', hyx⟩ := TransGen.tail'_iff.mp hpx'
          exact ⟨G', hG', hyx.right, p, hp, ⟨G, hG, hpG⟩, hpx⟩
    · rintro ⟨-, G, -, -, hx⟩
      exact hx
  · obtain ⟨l, hl, hord⟩ := h.everything
    refine ⟨l, hl, hord.nodup, fun x => (hord.mem x).trans ?_, hord.before⟩
    simp [Wanted]

end AraCore.BuildCentral
