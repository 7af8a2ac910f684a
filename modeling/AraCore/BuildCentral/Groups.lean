/-
# Groups of packages

What `load_build_config` accepts: the packages of a group, what it is based on, and the graph of
their dependencies.  If what the packages need is listed with them as far as it needs anything
itself, the list that is built has every package after all that it needs.
-/
import AraCore.BuildCentral.Config

namespace AraCore.BuildCentral

open Lib Trace Order Reach Relation

/-! ## Groups -/

section Groups

variable {γ : Type} {env : Env γ} {arch variant groupName : String} {d d' : Option String}
  {g : LoadedGroup γ} {packageList : List String}

/-- What the code relies on: sets are iterated in some order, `networkx` does what it should, and no
package has the name of the target that stands for all packages. -/
structure Env.Sound (env : Env γ) (arch : String) : Prop where
  order : ∀ l, (env.order l).Perm l
  nx : env.nx.Sound
  reserved : ¬ Defined env arch buildAllTarget

lemma Defined.ne_all (henv : env.Sound arch) {u : String} (h : Defined env arch u) :
    u ≠ buildAllTarget := fun heq => henv.reserved (heq ▸ h)

/-- The package belongs to the group, or to one that the group is based on. -/
inductive Imports (groups : String → Option Group) : String → String → Prop
  | own {name : String} {group : Group} {pkg : String} (hg : groups name = some group)
    (hpkg : pkg ∈ group.packages.getD []) : Imports groups name pkg
  | base {name base : String} {group : Group} {pkg : String} (hg : groups name = some group)
    (hbase : base ∈ group.base.getD []) (hpkg : Imports groups base pkg) : Imports groups name pkg

lemma mem_union {l l' : List String} {x : String} : x ∈ union l l' ↔ x ∈ l ∨ x ∈ l' :=
  mem_foldl_appendNew

lemma nodup_union {l l' : List String} (hl : l.Nodup) : (union l l').Nodup := by
  induction l' generalizing l with
  | nil => exact hl
  | cons y l' ih => exact ih (nodup_appendNew hl)

/-- Importing a group imports the groups that it is based on, and then its packages. -/
lemma doImport_succ {groups : String → Option Group} {limit : ℕ} {l l' : List String}
    (h : doImportBuildGroup groups (limit + 1) groupName l = .ok l') :
    ∃ group l₁, groups groupName = some group ∧ (group.base.getD []).foldlM
        (fun packages groupName => doImportBuildGroup groups limit groupName packages) l = .ok l₁ ∧
      l' = union l₁ (group.packages.getD []) := by
  rw [doImportBuildGroup] at h
  cases hg : groups groupName with
  | none =>
    rw [hg] at h
    cases h
  | some group =>
    rw [hg] at h
    obtain ⟨l₁, hl₁, h⟩ := bind_ok h
    cases h
    exact ⟨group, l₁, rfl, hl₁, rfl⟩

lemma doImport_ok {groups : String → Option Group} {limit : ℕ} {l l' : List String}
    (hl : l.Nodup) (h : doImportBuildGroup groups limit groupName l = .ok l') :
    l'.Nodup ∧ ∀ x, x ∈ l' ↔ x ∈ l ∨ Imports groups groupName x := by
  induction limit generalizing groupName l l' with
  | zero => cases h
  | succ limit ih =>
    obtain ⟨group, l₁, hg, hl₁, rfl⟩ := doImport_succ h
    -- the loop over the base groups adds what each of them imports, by induction on the limit
    obtain ⟨hnodup, -, hmem⟩ := foldlM_adds (P := List.Nodup) (Q := fun _ => True)
      (T := fun l x => x ∈ l) (A := Imports groups)
      (fun s x s' hs _ h => ⟨(ih hs h).1, trivial, (ih hs h).2⟩) hl hl₁
    refine ⟨nodup_union hnodup, fun x => ?_⟩
    rw [mem_union, hmem, or_assoc]
    refine or_congr_right ⟨?_, ?_⟩
    · rintro (⟨b, hb, hx⟩ | hx)
      · exact .base hg hb hx
      · exact .own hg hx
    · intro hx
      cases hx with
      | own hg' hpkg =>
        cases hg.symm.trans hg'
        exact Or.inr hpkg
      | base hg' hbase hpkg =>
        cases hg.symm.trans hg'
        exact Or.inl ⟨_, hbase, hpkg⟩

/-- The group is based on the group `base`. -/
def Based (groups : String → Option Group) (name base : String) : Prop :=
  ∃ group, groups name = some group ∧ base ∈ group.base.getD []

lemma doImport_of_within {groups : String → Option Group} {limit : ℕ}
    (hw : Within (Based groups) limit groupName)
    (hdef : ∀ b, ReflTransGen (Based groups) groupName b → groups b ≠ none) (l : List String) :
    ∃ l', doImportBuildGroup groups limit groupName l = .ok l' := by
  induction limit generalizing groupName l with
  | zero => exact hw.elim
  | succ limit ih =>
    obtain ⟨group, hg⟩ := Option.ne_none_iff_exists'.mp (hdef groupName .refl)
    have hbase : ∀ b ∈ group.base.getD [], ∀ l,
        ∃ l', doImportBuildGroup groups limit b l = .ok l' := fun b hb l =>
      ih (hw b ⟨group, hg, hb⟩) (fun c hc => hdef c (.head ⟨group, hg, hb⟩ hc)) l
    obtain ⟨l₁, hl₁⟩ := foldlM_total hbase l
    rw [doImportBuildGroup, hg]
    refine ⟨union l₁ (group.packages.getD []), ?_⟩
    show (List.foldlM _ l _ >>= _) = _
    rw [hl₁]
    rfl

lemma within_of_doImport {groups : String → Option Group} {limit : ℕ} {l l' : List String}
    (h : doImportBuildGroup groups limit groupName l = .ok l') :
    Within (Based groups) limit groupName ∧
      ∀ b, ReflTransGen (Based groups) groupName b → groups b ≠ none := by
  induction limit generalizing groupName l l' with
  | zero => cases h
  | succ limit ih =>
    obtain ⟨group, l₁, hg, hl₁, -⟩ := doImport_succ h
    -- every base group has been imported, with one level of the recursion less
    have hbase : ∀ b, Based groups groupName b → Within (Based groups) limit b ∧
        ∀ c, ReflTransGen (Based groups) b c → groups c ≠ none := by
      rintro b ⟨group', hg', hb⟩
      cases hg.symm.trans hg'
      obtain ⟨t, t', ht⟩ := foldlM_ok hl₁ b hb
      exact ih ht
    refine ⟨fun b hb => (hbase b hb).1, fun c hc => ?_⟩
    rcases ReflTransGen.cases_head hc with rfl | ⟨b, hb, hbc⟩
    · exact Option.ne_none_iff_exists'.mpr ⟨group, hg⟩
    · exact (hbase b hb).2 c hbc

lemma doImport_error {groups : String → Option Group} {limit : ℕ} {l : List String} {e : Failure}
    (h : doImportBuildGroup groups limit groupName l = .error e) :
    (∃ b, ReflTransGen (Based groups) groupName b ∧ groups b = none ∧
      e = .ret ("Group " ++ b ++ " is not found!")) ∨
      e = .raised .recursionError ∧ ¬ Within (Based groups) limit groupName := by
  induction limit generalizing groupName l with
  | zero =>
    cases h
    exact Or.inr ⟨rfl, id⟩
  | succ limit ih =>
    rw [doImportBuildGroup] at h
    cases hg : groups groupName with
    | none =>
      rw [hg] at h
      cases h
      exact Or.inl ⟨groupName, .refl, hg, rfl⟩
    | some group =>
      rw [hg] at h
      have h : ((group.base.getD []).foldlM (fun packages groupName =>
          doImportBuildGroup groups limit groupName packages) l >>=
            fun packages => pure (union packages (group.packages.getD []))) = .error e := h
      cases hfold : (group.base.getD []).foldlM
          (fun packages groupName => doImportBuildGroup groups limit groupName packages) l with
      | ok l₁ =>
        rw [hfold] at h
        cases h
      | error e' =>
        rw [hfold] at h
        cases h
        -- the loop over the base groups fails at one of them, and with its failure
        obtain ⟨b, hb, t, ht⟩ := foldlM_error hfold
        have hbased : Based groups groupName b := ⟨group, hg, hb⟩
        rcases ih ht with ⟨c, hc, hnone, rfl⟩ | ⟨rfl, hw⟩
        · exact Or.inl ⟨c, .head hbased hc, hnone, rfl⟩
        · exact Or.inr ⟨rfl, fun h => hw (h b hbased)⟩

/-- **Importing a group** succeeds exactly if it and all groups that it is based on are defined, and
the recursion limit admits all paths between them; then the packages of all these groups are
collected.  Otherwise it names a group that is missing, or the limit is exceeded. -/
theorem doImportBuildGroup_ok_iff (groups : String → Option Group) (limit : ℕ)
    (groupName : String) {l : List String} (hl : l.Nodup) :
    ((∃ l', doImportBuildGroup groups limit groupName l = .ok l') ↔
      Within (Based groups) limit groupName ∧
        ∀ b, ReflTransGen (Based groups) groupName b → groups b ≠ none) ∧
      (∀ l', doImportBuildGroup groups limit groupName l = .ok l' →
        l'.Nodup ∧ ∀ x, x ∈ l' ↔ x ∈ l ∨ Imports groups groupName x) ∧
      ∀ e, doImportBuildGroup groups limit groupName l = .error e →
        (∃ b, ReflTransGen (Based groups) groupName b ∧ groups b = none ∧
          e = .ret ("Group " ++ b ++ " is not found!")) ∨
          e = .raised .recursionError ∧ ¬ Within (Based groups) limit groupName := by
  refine ⟨⟨?_, ?_⟩, fun l' h => doImport_ok hl h, fun e h => doImport_error h⟩
  · rintro ⟨l', h⟩
    exact within_of_doImport h
  · rintro ⟨hw, hdef⟩
    exact doImport_of_within hw hdef l

/-- A group that is based on two groups, one of which is based on the other. -/
def threeGroups (name : String) : Option Group :=
  if name = "all" then some ⟨some ["base", "net"], some ["gui"]⟩
  else if name = "net" then some ⟨some ["base"], some ["net"]⟩
  else if name = "base" then some ⟨none, some ["log"]⟩ else none

theorem doImportBuildGroup_ok_iff_threeGroups :
    doImportBuildGroup threeGroups 3 "all" ["app"] = .ok ["app", "log", "net", "gui"] ∧
      ∀ x, x ∈ ["app", "log", "net", "gui"] ↔ x ∈ ["app"] ∨ Imports threeGroups "all" x := by
  have hrun : doImportBuildGroup threeGroups 3 "all" ["app"] =
      .ok ["app", "log", "net", "gui"] := rfl
  exact ⟨hrun, ((doImportBuildGroup_ok_iff threeGroups 3 "all" (by decide)).2.1 _ hrun).2⟩

lemma expandTools_ok {l l' : List String} {pkg : String} {packages : String → Option Package}
    {cfg : Package} (hl : l.Nodup) (hpkg : pkg ∈ l) (hpackages : env.packages arch = some packages)
    (hcfg : packages pkg = some cfg) (h : expandTools env arch d l pkg cfg.tools = .ok l') :
    l'.Nodup ∧ l ⊆ l' ∧ ∀ x ∈ l', x ∈ l ∨ Needs env arch pkg x := by
  have hsame : l.Nodup ∧ l ⊆ l ∧ ∀ x ∈ l, x ∈ l ∨ Needs env arch pkg x :=
    ⟨hl, List.Subset.refl l, fun _ hx => Or.inl hx⟩
  cases htools : cfg.tools with
  | none =>
    rw [htools] at h
    cases h
    exact hsame
  | some tools =>
    rw [htools] at h
    unfold expandTools at h
    -- tools are packages of their own only where the target is the machine that builds
    by_cases harch : arch = env.osType
    · simp only [if_pos harch] at h
      cases d with
      | none => cases h
      | some d =>
        cases h
        by_cases hne : pkg ≠ d
        · rw [if_pos hne]
          refine ⟨nodup_union hl, fun x hx => mem_union.mpr (Or.inl hx), fun x hx => ?_⟩
          by_cases hx' : pkg = x
          · exact Or.inl (hx' ▸ hpkg)
          · refine (mem_union.mp hx).imp_right fun hx => ?_
            exact ⟨packages, cfg, hpackages, hcfg, Or.inr ⟨harch, by simpa [htools], hx'⟩⟩
        · rw [if_neg hne]
          exact hsame
    · simp only [if_neg harch] at h
      cases h
      exact hsame

/-- What a package brings in is among what it needs. -/
lemma expandPackage_ok {l l' : List String} {pkg : String} (hl : l.Nodup) (hpkg : pkg ∈ l)
    (h : expandPackage env arch d l pkg = .ok l') :
    l'.Nodup ∧ l ⊆ l' ∧ (∀ x ∈ l', x ∈ l ∨ Needs env arch pkg x) ∧
      ∀ packages cfg, env.packages arch = some packages → packages pkg = some cfg →
        cfg.dependency.getD [] ⊆ l' := by
  obtain ⟨packages, hpackages, h⟩ := bind_ok h
  obtain ⟨cfg, hcfg, h⟩ := bind_ok h
  obtain ⟨l₁, hl₁, h⟩ := bind_ok h
  cases h
  have hpackages := item_ok hpackages
  have hcfg := item_ok hcfg
  obtain ⟨hnodup, hsub, hmem⟩ := expandTools_ok hl hpkg hpackages hcfg hl₁
  refine ⟨nodup_union hnodup, fun x hx => mem_union.mpr (Or.inl (hsub hx)), fun x hx => ?_,
    fun packages' cfg' hp' hc' x hx => ?_⟩
  · rcases mem_union.mp hx with hx | hx
    · exact hmem x hx
    · exact Or.inr ⟨packages, cfg, hpackages, hcfg, Or.inl hx⟩
  · cases hpackages.symm.trans hp'
    cases hcfg.symm.trans hc'
    exact mem_union.mpr (Or.inr hx)

/-- What is loaded of a group that is accepted. -/
structure Accepted (env : Env γ) (arch groupName : String) (g : LoadedGroup γ) : Prop where
  nodup : g.packages.Nodup
  imported : ∀ x, Imports env.groups groupName x → x ∈ g.packages ∧
    ∀ packages cfg, env.packages arch = some packages → packages x = some cfg →
      cfg.dependency.getD [] ⊆ g.packages
  only : ∀ x ∈ g.packages, Imports env.groups groupName x ∨
    ∃ u, Imports env.groups groupName u ∧ Needs env arch u x
  reserved : buildAllTarget ∉ g.packages
  defined : ∀ u ∈ (env.nx.view g.graph).nodes, u ≠ buildAllTarget → Defined env arch u
  node : ∀ u ≠ buildAllTarget, u ∈ (env.nx.view g.graph).nodes ↔
    u ∈ g.packages ∨ ∃ v ∈ g.packages, Needs env arch v u
  edge : ∀ u ≠ buildAllTarget, ∀ v, (env.nx.view g.graph).Edge u v ↔
    u ∈ g.packages ∧ Needs env arch u v
  rooted : g.packages ≠ [] → (env.nx.view g.graph).Rooted

lemma expand_ok {l l₀ l' : List String} (hl₀ : l₀.Nodup) (hsub : l ⊆ l₀)
    (h : l.foldlM (expandPackage env arch d) l₀ = .ok l') :
    l'.Nodup ∧ l₀ ⊆ l' ∧ (∀ x ∈ l', x ∈ l₀ ∨ ∃ u ∈ l, Needs env arch u x) ∧
      ∀ u ∈ l, ∀ packages cfg, env.packages arch = some packages → packages u = some cfg →
        cfg.dependency.getD [] ⊆ l' := by
  induction l generalizing l₀ with
  | nil =>
    cases h
    exact ⟨hl₀, List.Subset.refl _, fun _ hx => Or.inl hx, nofun⟩
  | cons p l ih =>
    obtain ⟨hp, hsub⟩ := List.cons_subset.mp hsub
    rw [List.foldlM_cons] at h
    obtain ⟨l₁, hl₁, h⟩ := bind_ok h
    obtain ⟨hnodup₁, hsub₁, hmem₁, hdep₁⟩ := expandPackage_ok hl₀ hp hl₁
    obtain ⟨hnodup, hsub', hmem, hdep⟩ := ih hnodup₁ (fun x hx => hsub₁ (hsub hx)) h
    refine ⟨hnodup, fun x hx => hsub' (hsub₁ hx), fun x hx => ?_, fun u hu => ?_⟩
    · rcases hmem x hx with hx | ⟨u, hu, hux⟩
      · exact (hmem₁ x hx).imp_right fun hx => ⟨p, List.mem_cons_self, hx⟩
      · exact Or.inr ⟨u, List.mem_cons_of_mem _ hu, hux⟩
    · rcases List.mem_cons.mp hu with rfl | hu
      · exact fun packages cfg hpk hc x hx => hsub' (hdep₁ packages cfg hpk hc hx)
      · exact hdep u hu

lemma buildGraph_ok (henv : env.Sound arch) {s : Building γ}
    (h : buildGraph env arch packageList d = .ok s) :
    ∃ graph, Bare env arch packageList (env.nx.view graph) ∧
      (∀ u, ¬ TransGen (env.nx.view graph).Edge u u) ∧ s.1 = addAll env.nx packageList graph := by
  obtain ⟨⟨graph, d'⟩, hgraph, h⟩ := bind_ok h
  dsimp only at h
  cases hloop : (env.nx.simpleCycles graph).getLast? with
  | some loop =>
    rw [hloop] at h
    cases h
  | none =>
    rw [hloop] at h
    cases h
    have hnil := List.getLast?_eq_none_iff.mp hloop
    exact ⟨graph, bare_of_addPackages henv.nx hgraph, (henv.nx.simpleCycles graph).mp hnil, rfl⟩

lemma importGroup_ok {l : List String} (h : importGroup env arch variant groupName = .ok l) :
    doImportBuildGroup env.groups env.limit groupName [] = .ok l := by
  unfold importGroup at h
  split at h
  · cases h
  · cases h
  · next heq =>
    cases h
    exact heq

/-- All nodes of the graph of the packages are defined. -/
lemma Bare.defined_of_node {G : DiGraph} (hb : Bare env arch packageList G) {u : String}
    (hu : u ∈ G.nodes) : Defined env arch u := by
  rcases hb.tight u hu with ⟨v, huv⟩ | ⟨v, hvu⟩
  · exact hb.defined u ((hb.edge u v).mp huv).1
  · obtain ⟨hv, hneeds⟩ := (hb.edge v u).mp hvu
    exact hb.needed v hv u hneeds

/-- The nodes of the graph of a group are its packages and what these need. -/
lemma Bare.mem_nodes_addAll {graph : γ} (hb : Bare env arch packageList (env.nx.view graph))
    (henv : env.Sound arch) (hall : buildAllTarget ∉ packageList) (u : String)
    (hu : u ≠ buildAllTarget) : u ∈ (env.nx.view (addAll env.nx packageList graph)).nodes ↔
      u ∈ packageList ∨ ∃ v ∈ packageList, Needs env arch v u := by
  have hedge := addAll_edge henv.nx hall graph
  have hbare : u ∈ (env.nx.view graph).nodes →
      u ∈ packageList ∨ ∃ v ∈ packageList, Needs env arch v u := by
    intro hmem
    -- a node has an edge: as its source it is a package, as its target it is needed
    rcases hb.tight u hmem with ⟨v, huv⟩ | ⟨v, hvu⟩
    · exact Or.inl ((hb.edge u v).mp huv).1
    · exact Or.inr ⟨v, (hb.edge v u).mp hvu⟩
  constructor
  · intro hmem
    rcases tight_addAll henv.nx hb.tight packageList u hmem with ⟨v, huv⟩ | ⟨v, hvu⟩
    · exact hbare (((hedge u v).mp huv).resolve_right fun h => hu h.1).left
    · rcases (hedge v u).mp hvu with hvu | ⟨-, ⟨hmem, -⟩ | ⟨hmem, -⟩⟩
      · exact hbare hvu.right
      · exact hbare hmem
      · exact Or.inl hmem
  · rintro (hmem | ⟨v, hv, hvu⟩)
    · -- a package without edges hangs below the target `__all__`
      by_cases hnode : u ∈ (env.nx.view graph).nodes
      · rcases hb.tight u hnode with ⟨v, huv⟩ | ⟨v, hvu⟩
        · exact ((hedge u v).mpr (Or.inl huv)).left
        · exact ((hedge v u).mpr (Or.inl hvu)).right
      · exact ((hedge _ u).mpr (Or.inr ⟨rfl, Or.inr ⟨hmem, hnode⟩⟩)).right
    · exact ((hedge v u).mpr (Or.inl ((hb.edge v u).mpr ⟨hv, hvu⟩))).right

/-- A group that is loaded is accepted. -/
lemma loadGroup_accepted (henv : env.Sound arch)
    (h : loadGroup env arch variant d groupName = .ok (g, d')) :
    Accepted env arch groupName g := by
  -- the three steps of the code: import, expansion, graph
  obtain ⟨packages, himport, h⟩ := bind_ok h
  obtain ⟨expanded, hexpand, h⟩ := bind_ok h
  obtain ⟨s, hs, h⟩ := bind_ok h
  cases h
  obtain ⟨hnodup₀, hmem₀⟩ := doImport_ok List.nodup_nil (importGroup_ok himport)
  have hmem₀ : ∀ x, x ∈ packages ↔ Imports env.groups groupName x := fun x =>
    (hmem₀ x).trans (or_iff_right List.not_mem_nil)
  have hsub : env.order packages ⊆ packages := (henv.order packages).subset
  obtain ⟨hnodup, hsub', hmem, hdep⟩ := expand_ok hnodup₀ hsub hexpand
  obtain ⟨graph, hbare, hacyclic, hgraph⟩ := buildGraph_ok henv hs
  have horder := henv.order expanded
  have hall : buildAllTarget ∉ env.order expanded := fun hmem' =>
    (hbare.defined _ hmem').ne_all henv rfl
  have hnode : buildAllTarget ∉ (env.nx.view graph).nodes := fun hmem' =>
    (hbare.defined_of_node hmem').ne_all henv rfl
  have hedge := addAll_edge henv.nx hall graph
  have hmem_nodes := hbare.mem_nodes_addAll henv hall
  refine ⟨horder.nodup_iff.mpr hnodup, fun x hx => ⟨?_, fun pks cfg hp hc => ?_⟩, fun x hx => ?_,
    hall, fun u hu hua => ?_, fun u hua => ?_, fun u hu v => ?_, fun hnil => ?_⟩
  · exact horder.mem_iff.mpr (hsub' ((hmem₀ x).mpr hx))
  · have hx' : x ∈ env.order packages := (henv.order packages).mem_iff.mpr ((hmem₀ x).mpr hx)
    exact fun y hy => horder.mem_iff.mpr (hdep x hx' pks cfg hp hc hy)
  · rcases hmem x (horder.mem_iff.mp hx) with hx | ⟨u, hu, hux⟩
    · exact Or.inl ((hmem₀ x).mp hx)
    · exact Or.inr ⟨u, (hmem₀ u).mp (hsub hu), hux⟩
  · rw [hgraph, hmem_nodes u hua] at hu
    rcases hu with hu | ⟨v, hv, hvu⟩
    · exact hbare.defined u hu
    · exact hbare.needed v hv u hvu
  · rw [hgraph]
    exact hmem_nodes u hua
  · rw [hgraph, hedge, or_iff_left fun h => hu h.1]
    exact hbare.edge u v
  · rw [hgraph]
    exact rooted_addAll henv.nx hall hnode hbare.tight hacyclic hnil

lemma loadVariant_forall₂ (henv : env.Sound arch) {groups : List String}
    {loaded : List (LoadedGroup γ)} (h : loadVariant env arch variant d groups = .ok (loaded, d')) :
    List.Forall₂ (Accepted env arch) groups loaded := by
  induction groups generalizing d loaded with
  | nil =>
    cases h
    exact .nil
  | cons groupName groups ih =>
    obtain ⟨⟨g, d₁⟩, hg, h⟩ := bind_ok h
    obtain ⟨⟨rest, d₂⟩, hrest, h⟩ := bind_ok h
    cases h
    exact .cons (loadGroup_accepted henv hg) (ih hrest)

/-- What the packages of an accepted group need has no cycle among them. -/
lemma Accepted.acyclic (hg : Accepted env arch groupName g) (u : String) :
    ¬ TransGen (fun u v => u ∈ g.packages ∧ Needs env arch u v) u u := by
  intro hu
  have hmem : u ∈ g.packages := by
    obtain ⟨v, ⟨hu, -⟩, -⟩ := TransGen.head'_iff.mp hu
    exact hu
  have hedge : ∀ v w, v ∈ g.packages ∧ Needs env arch v w → (env.nx.view g.graph).Edge v w := by
    intro v w hvw
    have hne : v ≠ buildAllTarget := fun heq => hg.reserved (heq ▸ hvw.1)
    exact (hg.edge v hne w).mpr hvw
  exact (hg.rooted (List.ne_nil_of_mem hmem)).acyclic u (TransGen.mono hedge u u hu)

end Groups

/-! ## A configuration -/

/-- A host with three packages and two groups, one of which is based on the other. -/
def sample : Env DiGraph where
  cfgFile := "build_central.cfg"
  osType := "linux"
  groups name :=
    if name = "all" then some ⟨some ["base"], some ["gui"]⟩
    else if name = "base" then some ⟨none, some ["net", "log"]⟩ else none
  packages arch :=
    if arch = "linux" then some fun pkg =>
      if pkg = "gui" then some ⟨none, some ["net", "log"]⟩
      else if pkg = "net" then some ⟨none, some ["log"]⟩
      else if pkg = "log" then some ⟨none, none⟩ else none
    else none
  limit := 10
  order l := l
  nx := successorLists
  str _ := ""

lemma sample_sound : sample.Sound "linux" where
  order l := List.Perm.refl l
  nx := successorLists_sound
  reserved := by
    rintro ⟨packages, cfg, hp, hc⟩
    cases hp
    simp [buildAllTarget] at hc

/-- What is loaded of both groups. -/
def sampleLoaded : List (LoadedGroup DiGraph) :=
  [⟨["net", "log", "gui"], (((DiGraph.empty.addEdge "net" "log").addEdge "gui" "net").addEdge "gui"
    "log").addEdge buildAllTarget "gui"⟩,
    ⟨["net", "log"], (DiGraph.empty.addEdge "net" "log").addEdge buildAllTarget "net"⟩]

lemma sample_loaded :
    loadVariant sample "linux" "debug" none ["all", "base"] = .ok (sampleLoaded, some "log") := rfl

section Results

variable {γ : Type} {env : Env γ} {arch variant : String} {d d' : Option String}
  {loaded : List (LoadedGroup γ)} {groups packageList : List String} {limit : ℕ} {p x : String}

/-! ## Loading -/

/-- **Loading a variant.**  If the groups of a variant are accepted, the graph of each group has the
dependencies of its packages, all its packages are defined, and the target that stands for all
packages leads to each of them; what the packages need has no cycle. -/
theorem loadVariant_accepted (henv : env.Sound arch)
    (h : loadVariant env arch variant d groups = .ok (loaded, d')) :
    List.Forall₂ (Accepted env arch) groups loaded ∧
      ∀ g ∈ loaded, ∀ u, ¬ TransGen (fun u v => u ∈ g.packages ∧ Needs env arch u v) u u := by
  have hall := loadVariant_forall₂ henv h
  refine ⟨hall, fun g hg => ?_⟩
  obtain ⟨i, hi, rfl⟩ := List.getElem_of_mem hg
  exact (hall.get (hall.length_eq ▸ hi) hi).acyclic

theorem loadVariant_accepted_sample :
    List.Forall₂ (Accepted sample "linux") ["all", "base"] sampleLoaded ∧ ∀ g ∈ sampleLoaded, ∀ u,
      ¬ TransGen (fun u v => u ∈ g.packages ∧ Needs sample "linux" u v) u u :=
  loadVariant_accepted sample_sound sample_loaded

/-! ## From the configuration to the order -/

/-- `GRAPHS` of a variant. -/
def loadedGraphs (env : Env γ) (loaded : List (LoadedGroup γ)) : List DiGraph :=
  loaded.map fun g => env.nx.view g.graph

/-- The package belongs to a group, or a package of the group needs it. -/
def Known (env : Env γ) (arch : String) (loaded : List (LoadedGroup γ)) (x : String) : Prop :=
  ∃ g ∈ loaded, x ∈ g.packages ∨ ∃ u ∈ g.packages, Needs env arch u x

/-- What is to be built: everything, or what is asked for and all that it needs. -/
def Requested (env : Env γ) (arch : String) (loaded : List (LoadedGroup γ))
    (packageList : List String) (x : String) : Prop :=
  if packageList = [buildAllTarget] then Known env arch loaded x
  else ∃ p ∈ packageList, Known env arch loaded p ∧ ReflTransGen (Needs env arch) p x

/-- What a package of a group needs is listed with it, unless it needs nothing itself. -/
def Listed (env : Env γ) (arch : String) (loaded : List (LoadedGroup γ)) : Prop :=
  ∀ g ∈ loaded, ∀ p ∈ g.packages, ∀ u, Needs env arch p u → ∀ v, Needs env arch u v →
    u ∈ g.packages

/-- All groups that are loaded have been accepted. -/
def AllAccepted (env : Env γ) (arch : String) (loaded : List (LoadedGroup γ)) : Prop :=
  ∀ g ∈ loaded, ∃ name, Accepted env arch name g

lemma allAccepted (h : List.Forall₂ (Accepted env arch) groups loaded) :
    AllAccepted env arch loaded := by
  intro g hg
  obtain ⟨i, hi, rfl⟩ := List.getElem_of_mem hg
  exact ⟨_, h.get (h.length_eq ▸ hi) hi⟩

section Accepted

variable (hacc : AllAccepted env arch loaded)

include hacc

lemma known_iff (hx : x ≠ buildAllTarget) :
    (∃ G ∈ loadedGraphs env loaded, x ∈ G.nodes) ↔ Known env arch loaded x := by
  constructor
  · rintro ⟨G, hG, hxG⟩
    obtain ⟨g, hg, rfl⟩ := List.mem_map.mp hG
    obtain ⟨name, h⟩ := hacc g hg
    exact ⟨g, hg, (h.node x hx).mp hxG⟩
  · rintro ⟨g, hg, hxg⟩
    obtain ⟨name, h⟩ := hacc g hg
    exact ⟨_, List.mem_map_of_mem hg, (h.node x hx).mpr hxg⟩

lemma Known.ne_all (h : Known env arch loaded x) : x ≠ buildAllTarget := by
  rintro rfl
  obtain ⟨g, hg, hx⟩ := h
  obtain ⟨name, hg⟩ := hacc g hg
  rcases hx with hx | ⟨u, hu, hux⟩
  · exact hg.reserved hx
  · have hua : u ≠ buildAllTarget := fun heq => hg.reserved (heq ▸ hu)
    have hedge := (hg.edge u hua _).mpr ⟨hu, hux⟩
    exact (hg.rooted (List.ne_nil_of_mem hu)).into u hedge

variable (hlisted : Listed env arch loaded)

include hlisted

/-- What is needed of a graph is in its list of packages. -/
lemma mem_packages {g : LoadedGroup γ} (hg : g ∈ loaded) {u v : String}
    (hu : u ∈ (env.nx.view g.graph).nodes) (hua : u ≠ buildAllTarget) (huv : Needs env arch u v) :
    u ∈ g.packages := by
  obtain ⟨name, h⟩ := hacc g hg
  rcases (h.node u hua).mp hu with hu | ⟨p, hp, hpu⟩
  · exact hu
  · exact hlisted g hg p hp u hpu v huv

lemma depends_iff {u v : String} (hu : Known env arch loaded u) (hua : u ≠ buildAllTarget) :
    Depends (loadedGraphs env loaded) u v ↔ Needs env arch u v := by
  constructor
  · rintro ⟨-, G, hG, huv⟩
    obtain ⟨g, hg, rfl⟩ := List.mem_map.mp hG
    obtain ⟨name, h⟩ := hacc g hg
    exact ((h.edge u hua v).mp huv).2
  · intro huv
    obtain ⟨g, hg, hu⟩ := hu
    obtain ⟨name, h⟩ := hacc g hg
    have hmem := mem_packages hacc hlisted hg ((h.node u hua).mpr hu) hua huv
    exact ⟨hua, _, List.mem_map_of_mem hg, (h.edge u hua v).mpr ⟨hmem, huv⟩⟩

/-- What a package needs is known with it. -/
lemma Known.needs {u v : String} (hu : Known env arch loaded u) (huv : Needs env arch u v) :
    Known env arch loaded v := by
  have hua := hu.ne_all hacc
  obtain ⟨g, hg, hu⟩ := hu
  obtain ⟨name, h⟩ := hacc g hg
  exact ⟨g, hg, Or.inr ⟨u, mem_packages hacc hlisted hg ((h.node u hua).mpr hu) hua huv, huv⟩⟩

lemma reach_depends_iff (hp : Known env arch loaded p) :
    ReflTransGen (Depends (loadedGraphs env loaded)) p x ↔ ReflTransGen (Needs env arch) p x := by
  -- all that is reached is known, so that the graphs and the packages agree on each edge
  have hknown : ∀ y, ReflTransGen (Needs env arch) p y → Known env arch loaded y := by
    intro y hy
    induction hy with
    | refl => exact hp
    | tail _ hyz ih => exact ih.needs hacc hlisted hyz
  constructor
  · intro hx
    induction hx with
    | refl => exact .refl
    | tail _ hyz ih =>
      have hy := hknown _ ih
      exact ih.tail ((depends_iff hacc hlisted hy (hy.ne_all hacc)).mp hyz)
  · intro hx
    induction hx with
    | refl => exact .refl
    | tail hpy hyz ih =>
      have hy := hknown _ hpy
      exact ih.tail ((depends_iff hacc hlisted hy (hy.ne_all hacc)).mpr hyz)

/-- The graphs of accepted groups can be walked. -/
lemma loaded_of_accepted (hne : ∀ g ∈ loaded, g.packages ≠ [])
    (hlimit : ∀ g ∈ loaded, (env.nx.view g.graph).nodes.length ≤ limit) :
    Loaded limit (loadedGraphs env loaded) := by
  refine ⟨fun G hG => ?_, fun G hG G' hG' u hu hua v huv => ?_, fun G hG => ?_⟩
  · obtain ⟨g, hg, rfl⟩ := List.mem_map.mp hG
    obtain ⟨name, h⟩ := hacc g hg
    exact h.rooted (hne g hg)
  · obtain ⟨g, hg, rfl⟩ := List.mem_map.mp hG
    obtain ⟨g', hg', rfl⟩ := List.mem_map.mp hG'
    obtain ⟨name, h⟩ := hacc g hg
    obtain ⟨name', h'⟩ := hacc g' hg'
    have hneeds := ((h.edge u hua v).mp huv).2
    exact (h'.edge u hua v).mpr ⟨mem_packages hacc hlisted hg' hu hua hneeds, hneeds⟩
  · obtain ⟨g, hg, rfl⟩ := List.mem_map.mp hG
    exact hlimit g hg

lemma wanted_iff (hasked : Asked packageList) :
    Wanted (loadedGraphs env loaded) packageList x ↔ Requested env arch loaded packageList x := by
  unfold Wanted Requested
  rcases hasked with hnot | rfl
  · -- packages are named: the code walks the graphs from those of them that it knows
    have hone : packageList ≠ [buildAllTarget] := by
      rintro rfl
      exact hnot List.mem_cons_self
    simp only [hone, if_false, false_or]
    constructor
    · rintro ⟨-, G, -, -, p, hp, hpG, hpx⟩
      have hknown := (known_iff hacc fun heq => hnot (heq ▸ hp)).mp hpG
      exact ⟨p, hp, hknown, (reach_depends_iff hacc hlisted hknown).mp hpx⟩
    · rintro ⟨p, hp, hknown, hpx⟩
      have hx : Known env arch loaded x := by
        induction hpx with
        | refl => exact hknown
        | tail _ hyz ih => exact ih.needs hacc hlisted hyz
      have hxa := hx.ne_all hacc
      obtain ⟨G, hG, hxG⟩ := (known_iff hacc hxa).mpr hx
      exact ⟨hxa, G, hG, hxG, p, hp, (known_iff hacc (hknown.ne_all hacc)).mpr hknown,
        (reach_depends_iff hacc hlisted hknown).mpr hpx⟩
  · simp only [if_true, true_or, and_true]
    constructor
    · rintro ⟨hxa, hx⟩
      exact (known_iff hacc hxa).mp hx
    · intro hx
      have hxa := hx.ne_all hacc
      exact ⟨hxa, (known_iff hacc hxa).mpr hx⟩

end Accepted

/-- **From the configuration to the order.**  If the groups of a variant are accepted, none of them
is empty, and what is needed is listed, then the list that is built contains what is asked for and
all that it needs, or everything, and nothing else; every package in it stands after all that it
needs. -/
theorem configured_order (henv : env.Sound arch)
    (h : loadVariant env arch variant d groups = .ok (loaded, d'))
    (hne : ∀ g ∈ loaded, g.packages ≠ []) (hlisted : Listed env arch loaded)
    (hlimit : ∀ g ∈ loaded, (env.nx.view g.graph).nodes.length ≤ limit)
    (hasked : Asked packageList) :
    ∃ l, depList limit (loadedGraphs env loaded) packageList = .ok l ∧ l.Nodup ∧
      (∀ x, x ∈ l ↔ Requested env arch loaded packageList x) ∧
      (packageList = [buildAllTarget] → ∀ name ∈ groups, ∀ x, Imports env.groups name x → x ∈ l) ∧
      ∀ u ∈ l, ∀ v, Needs env arch u v → Before v u l := by
  have hforall := loadVariant_forall₂ henv h
  have hacc := allAccepted hforall
  have hloaded := loaded_of_accepted hacc hlisted hne hlimit
  obtain ⟨l, hl, hord⟩ := hloaded.asked hasked
  have hmem : ∀ x, x ∈ l ↔ Requested env arch loaded packageList x := fun x =>
    (hord.mem x).trans (wanted_iff hacc hlisted hasked)
  refine ⟨l, hl, hord.nodup, hmem, fun hall name hname x hx => (hmem x).mpr ?_,
    fun u hu v huv => hord.before u hu v ?_⟩
  · obtain ⟨i, hi, rfl⟩ := List.getElem_of_mem hname
    have hi' : i < loaded.length := hforall.length_eq ▸ hi
    rw [Requested, if_pos hall]
    exact ⟨_, List.getElem_mem hi', Or.inl ((hforall.get hi hi').imported x hx).1⟩
  · obtain ⟨hua, G, hG, huG, -⟩ := (hord.mem u).mp hu
    exact (depends_iff hacc hlisted ((known_iff hacc hua).mp ⟨G, hG, huG⟩) hua).mpr huv

lemma sample_needs {u v : String} (h : Needs sample "linux" u v) :
    (u, v) ∈ [("gui", "net"), ("gui", "log"), ("net", "log")] := by
  obtain ⟨packages, cfg, hp, hc, hv⟩ := h
  cases hp
  by_cases hgui : u = "gui"
  · subst hgui
    cases hc
    simpa using hv
  · by_cases hnet : u = "net"
    · subst hnet
      cases hc
      simpa using hv
    · by_cases hlog : u = "log"
      · subst hlog
        cases hc
        simp at hv
      · simp [hgui, hnet, hlog] at hc

lemma sample_listed : Listed sample "linux" sampleLoaded := by
  intro g hg p hp u hpu v huv
  have hpu := sample_needs hpu
  have huv := sample_needs huv
  have hnet : ∀ g ∈ sampleLoaded, "net" ∈ g.packages := by decide
  have hu : u = "net" := by
    simp only [List.mem_cons, Prod.mk.injEq, List.not_mem_nil, or_false] at hpu huv
    grind
  exact hu ▸ hnet g hg

theorem configured_order_sample :
    ∃ l, depList 4 (loadedGraphs sample sampleLoaded) ["log", "gui"] = .ok l ∧ l.Nodup ∧
      (∀ x, x ∈ l ↔ Requested sample "linux" sampleLoaded ["log", "gui"] x) ∧
      (["log", "gui"] = [buildAllTarget] →
        ∀ name ∈ ["all", "base"], ∀ x, Imports sample.groups name x → x ∈ l) ∧
      ∀ u ∈ l, ∀ v, Needs sample "linux" u v → Before v u l :=
  configured_order sample_sound sample_loaded (by decide) sample_listed (by decide)
    (Or.inl (by decide))

end Results

end AraCore.BuildCentral
