/-
# The graphs of a configuration

For every group of a variant `load_build_config` collects the packages of the group and of the
groups it is based on, adds what these need, and builds the graph of their dependencies.  What it
accepts has no cycle, and the target that stands for all packages leads to each of them.
-/
import AraCore.BuildCentral.Order

namespace AraCore.BuildCentral

open Lib Trace Order Reach Relation

/-! ## Translation -/

/-- How loading fails: with a text in `config['ret']`, or with an exception. -/
inductive Failure where
  | ret (message : String)
  | raised (e : PyError)
deriving DecidableEq, Repr

/-- A group of packages in `origin_cfg['GROUPS']`. -/
structure Group where
  base : Option (List String)
  packages : Option (List String)

/-- What `config['PACKAGES'][arch]` tells of a package: the tools, in the order in which the set is
iterated, and the dependencies. -/
structure Package where
  tools : Option (List String)
  dependency : Option (List String)

/-- The configuration, and what the code gets from elsewhere. -/
structure Env (γ : Type) where
  cfgFile : String
  osType : String
  groups : String → Option Group
  packages : String → Option (String → Option Package)
  /-- the limit of the recursion -/
  limit : ℕ
  /-- the order in which a set is iterated that has been built up in this way -/
  order : List String → List String
  nx : NetworkX γ
  /-- `str` of a list -/
  str : List String → String

/-- The value of a key. -/
def item {α : Type} : Option α → Except Failure α
  | some a => pure a
  | none => throw (.raised .keyError)

/-- `l |= set(l')` -/
def union (l l' : List String) : List String := l'.foldl appendNew l

/-- `do_import_build_group` -/
def doImportBuildGroup (groups : String → Option Group) :
    ℕ → String → List String → Except Failure (List String)
  | 0, _, _ => throw (.raised .recursionError)
  | limit + 1, groupName, packages =>
    match groups groupName with
    | none => throw (.ret ("Group " ++ groupName ++ " is not found!"))
    | some group => do
      let packages ← (group.base.getD []).foldlM
        (fun packages groupName => doImportBuildGroup groups limit groupName packages) packages
      pure (union packages (group.packages.getD []))

section Load

variable {γ : Type} (env : Env γ) (arch : String)

/-- The tools of a package are added.  `dep_pkg` is a variable of a later loop, which may not be
bound yet. -/
def expandTools (depPkg : Option String) (packageList : List String) (pkg : String) :
    Option (List String) → Except Failure (List String)
  | none => pure packageList
  | some tools =>
    if arch = env.osType then
      match depPkg with
      | none => throw (.raised .unboundLocalError)
      | some depPkg => pure (if pkg ≠ depPkg then union packageList tools else packageList)
    else pure packageList

/-- What a package of the group needs is added. -/
def expandPackage (depPkg : Option String) (packageList : List String) (pkg : String) :
    Except Failure (List String) := do
  let packages ← item (env.packages arch)
  let cfg ← item (packages pkg)
  let packageList ← expandTools env arch depPkg packageList pkg cfg.tools
  pure (union packageList (cfg.dependency.getD []))

/-- The graph so far, and the variable `dep_pkg`. -/
abbrev Building (γ : Type) := γ × Option String

/-- The edge to a tool. -/
def addTool (pkg : String) (s : Building γ) (depPkg : String) : Except Failure (Building γ) := do
  let hostPackages ← item (env.packages env.osType)
  match hostPackages depPkg with
  | none => throw (.ret ("Arch: " ++ arch ++ ", Tool " ++ depPkg ++ " is not defined for host " ++
      env.osType ++ " in file " ++ env.cfgFile ++ "!"))
  | some _ =>
    pure (if arch = env.osType ∧ pkg ≠ depPkg then env.nx.addEdge s.1 pkg depPkg else s.1,
      some depPkg)

/-- The edge to a dependency. -/
def addDependency (pkg : String) (s : Building γ) (depPkg : String) :
    Except Failure (Building γ) := do
  let packages ← item (env.packages arch)
  match packages depPkg with
  | none => throw (.ret ("Arch: " ++ arch ++ ", Package " ++ depPkg ++
      " is not defined in Dependency in file " ++ env.cfgFile ++ "!"))
  | some _ => pure (env.nx.addEdge s.1 pkg depPkg, some depPkg)

/-- The edges of a package. -/
def addPackage (s : Building γ) (pkg : String) : Except Failure (Building γ) := do
  let packages ← item (env.packages arch)
  match packages pkg with
  | none => throw (.ret ("Arch: " ++ arch ++ ": Package " ++ pkg ++
      " is not defined in PACKAGE in file " ++ env.cfgFile ++ "!"))
  | some cfg => do
    let s ← (cfg.tools.getD []).foldlM (addTool env arch pkg) s
    (cfg.dependency.getD []).foldlM (addDependency env arch pkg) s

/-- The edges from the target that stands for all packages. -/
def addAll (nx : NetworkX γ) (packageList : List String) (graph : γ) : γ :=
  let rootPkg := ((nx.inDegree graph).filter fun e => e.2 = 0).map Prod.fst
  let graph := rootPkg.foldl (fun graph pkg => nx.addEdge graph buildAllTarget pkg) graph
  packageList.foldl (fun graph pkg =>
    if pkg ∉ (nx.view graph).nodes then nx.addEdge graph buildAllTarget pkg else graph) graph

/-- The graph of a group. -/
def buildGraph (packageList : List String) (depPkg : Option String) :
    Except Failure (Building γ) := do
  let (graph, depPkg) ← packageList.foldlM (addPackage env arch) (env.nx.empty, depPkg)
  match (env.nx.simpleCycles graph).getLast? with
  | some loop => throw (.ret ("File " ++ env.cfgFile ++ ", arch " ++ arch ++
      ": Loop dependency is found: " ++ env.str loop ++ "!"))
  | none => pure (addAll env.nx packageList graph, depPkg)

/-- What is loaded of a group: an entry of `PACKAGES` and one of `GRAPHS`. -/
structure LoadedGroup (γ : Type) where
  packages : List String
  graph : γ

/-- The packages of a group, or the text that it cannot be parsed. -/
def importGroup (variant groupName : String) : Except Failure (List String) :=
  match doImportBuildGroup env.groups env.limit groupName [] with
  | .error (.ret message) => throw (.ret ("Error parsing BUILD_VARIANTS." ++ arch ++
      ".VARIANTS." ++ variant ++ ": " ++ message))
  | .error (.raised e) => throw (.raised e)
  | .ok packages => pure packages

/-- The body of the loop over the groups of a variant. -/
def loadGroup (variant : String) (depPkg : Option String) (groupName : String) :
    Except Failure (LoadedGroup γ × Option String) := do
  let packages ← importGroup env arch variant groupName
  let packageList ← (env.order packages).foldlM (expandPackage env arch depPkg) packages
  let (graph, depPkg) ← buildGraph env arch (env.order packageList) depPkg
  pure (⟨env.order packageList, graph⟩, depPkg)

/-- The loop over the groups of a variant. -/
def loadVariant (variant : String) :
    Option String → List String → Except Failure (List (LoadedGroup γ) × Option String)
  | depPkg, [] => pure ([], depPkg)
  | depPkg, groupName :: groups => do
    let (group, depPkg) ← loadGroup env arch variant depPkg groupName
    let (rest, depPkg) ← loadVariant variant depPkg groups
    pure (group :: rest, depPkg)

end Load

/-! ## Loops that may fail -/

variable {σ α β ε : Type} {l : List α}

lemma bind_ok {x : Except ε α} {f : α → Except ε β} {b : β} (h : (x >>= f) = .ok b) :
    ∃ a, x = .ok a ∧ f a = .ok b := by
  cases x with
  | error e => cases h
  | ok a => exact ⟨a, rfl, h⟩

lemma item_ok {o : Option α} {a : α} (h : item o = .ok a) : o = some a := by
  cases o with
  | none => cases h
  | some b =>
    cases h
    rfl

lemma foldlM_total {f : σ → α → Except ε σ} (hf : ∀ x ∈ l, ∀ s, ∃ s', f s x = .ok s') (s : σ) :
    ∃ s', l.foldlM f s = .ok s' := by
  induction l generalizing s with
  | nil => exact ⟨s, rfl⟩
  | cons x l ih =>
    obtain ⟨s₁, hs₁⟩ := hf x List.mem_cons_self s
    obtain ⟨s', hs'⟩ := ih (fun y hy => hf y (List.mem_cons_of_mem _ hy)) s₁
    exact ⟨s', by rw [List.foldlM_cons, hs₁]; exact hs'⟩

lemma foldlM_error {f : σ → α → Except ε σ} {s : σ} {e : ε} (h : l.foldlM f s = .error e) :
    ∃ x ∈ l, ∃ t, f t x = .error e := by
  induction l generalizing s with
  | nil => cases h
  | cons x l ih =>
    rw [List.foldlM_cons] at h
    cases hx : f s x with
    | error e' =>
      rw [hx] at h
      cases h
      exact ⟨x, List.mem_cons_self, s, hx⟩
    | ok t =>
      rw [hx] at h
      obtain ⟨y, hy, hfy⟩ := ih h
      exact ⟨y, List.mem_cons_of_mem _ hy, hfy⟩

/-- What one round of a loop adds, all rounds add together. -/
lemma foldlM_adds {f : σ → α → Except ε σ} {P : σ → Prop} {Q : α → Prop} {T : σ → β → Prop}
    {A : α → β → Prop} (hf : ∀ s x s', P s → x ∈ l → f s x = .ok s' →
      P s' ∧ Q x ∧ ∀ b, T s' b ↔ T s b ∨ A x b) {s s' : σ} (hs : P s)
    (h : l.foldlM f s = .ok s') :
    P s' ∧ (∀ x ∈ l, Q x) ∧ ∀ b, T s' b ↔ T s b ∨ ∃ x ∈ l, A x b := by
  induction l generalizing s with
  | nil =>
    cases h
    exact ⟨hs, nofun, by simp⟩
  | cons x l ih =>
    rw [List.foldlM_cons] at h
    obtain ⟨s₁, hs₁, h⟩ := bind_ok h
    obtain ⟨hP, hQ, hT⟩ := hf s x s₁ hs List.mem_cons_self hs₁
    obtain ⟨hP', hQ', hT'⟩ := ih (fun s y s' hs hy => hf s y s' hs (List.mem_cons_of_mem _ hy)) hP h
    refine ⟨hP', List.forall_mem_cons.mpr ⟨hQ, hQ'⟩, fun b => ?_⟩
    rw [hT', hT]
    simp only [List.mem_cons, exists_eq_or_imp]
    rw [or_assoc]

/-! ## The edges of the packages -/

section Edges

variable {γ : Type} {env : Env γ} {arch pkg depPkg : String} {d : Option String}
  {s s' : Building γ} {packageList : List String}

/-- The package is defined for the architecture. -/
def Defined (env : Env γ) (arch pkg : String) : Prop :=
  ∃ packages cfg, env.packages arch = some packages ∧ packages pkg = some cfg

/-- The package `u` depends on `v`, or `v` is a tool of `u` that the host builds for itself. -/
def Needs (env : Env γ) (arch u v : String) : Prop :=
  ∃ packages cfg, env.packages arch = some packages ∧ packages u = some cfg ∧
    (v ∈ cfg.dependency.getD [] ∨ arch = env.osType ∧ v ∈ cfg.tools.getD [] ∧ u ≠ v)

/-- Every node has an edge. -/
def DiGraph.Tight (G : DiGraph) : Prop := ∀ x ∈ G.nodes, (∃ y, G.Edge x y) ∨ ∃ y, G.Edge y x

lemma NetworkX.Sound.tight_addEdge {nx : NetworkX γ} (hnx : nx.Sound) {g : γ}
    (h : (nx.view g).Tight) (u v : String) : (nx.view (nx.addEdge g u v)).Tight := by
  intro x hx
  simp only [hnx.addEdge_edge]
  rcases (hnx.mem_nodes_addEdge g u v x).mp hx with hx | rfl | rfl
  · rcases h x hx with ⟨y, hy⟩ | ⟨y, hy⟩
    · exact Or.inl ⟨y, Or.inl hy⟩
    · exact Or.inr ⟨y, Or.inl hy⟩
  · exact Or.inl ⟨v, Or.inr ⟨rfl, rfl⟩⟩
  · exact Or.inr ⟨u, Or.inr ⟨rfl, rfl⟩⟩

/-- The edge is one of the graph that has been built so far. -/
def HasEdge (env : Env γ) (s : Building γ) (e : String × String) : Prop :=
  (env.nx.view s.1).Edge e.1 e.2

lemma addTool_adds (hnx : env.nx.Sound) (hs : (env.nx.view s.1).Tight)
    (h : addTool env arch pkg s depPkg = .ok s') :
    (env.nx.view s'.1).Tight ∧ (arch = env.osType → Defined env arch depPkg) ∧
      ∀ e, HasEdge env s' e ↔
        HasEdge env s e ∨ (arch = env.osType ∧ pkg ≠ depPkg) ∧ e.1 = pkg ∧ e.2 = depPkg := by
  obtain ⟨hostPackages, hhost, h⟩ := bind_ok h
  have hhost := item_ok hhost
  cases hdep : hostPackages depPkg with
  | none =>
    rw [hdep] at h
    cases h
  | some cfg =>
    rw [hdep] at h
    cases h
    have hdef : arch = env.osType → Defined env arch depPkg := fun heq =>
      ⟨hostPackages, cfg, heq ▸ hhost, hdep⟩
    unfold HasEdge
    by_cases hcond : arch = env.osType ∧ pkg ≠ depPkg
    · simp only [if_pos hcond]
      exact ⟨hnx.tight_addEdge hs _ _, hdef,
        fun e => by rw [hnx.addEdge_edge, and_iff_right hcond]⟩
    · simp only [if_neg hcond]
      exact ⟨hs, hdef, fun e => (or_iff_left fun h => hcond h.1).symm⟩

lemma addDependency_adds (hnx : env.nx.Sound) (hs : (env.nx.view s.1).Tight)
    (h : addDependency env arch pkg s depPkg = .ok s') :
    (env.nx.view s'.1).Tight ∧ Defined env arch depPkg ∧
      ∀ e, HasEdge env s' e ↔ HasEdge env s e ∨ e.1 = pkg ∧ e.2 = depPkg := by
  obtain ⟨packages, hpackages, h⟩ := bind_ok h
  cases hdep : packages depPkg with
  | none =>
    rw [hdep] at h
    cases h
  | some cfg =>
    rw [hdep] at h
    cases h
    exact ⟨hnx.tight_addEdge hs _ _, ⟨packages, cfg, item_ok hpackages, hdep⟩,
      fun e => hnx.addEdge_edge _ _ _ _ _⟩

lemma addPackage_adds (hnx : env.nx.Sound) (hs : (env.nx.view s.1).Tight)
    (h : addPackage env arch s pkg = .ok s') :
    (env.nx.view s'.1).Tight ∧
      (Defined env arch pkg ∧ ∀ v, Needs env arch pkg v → Defined env arch v) ∧
      ∀ e, HasEdge env s' e ↔ HasEdge env s e ∨ e.1 = pkg ∧ Needs env arch pkg e.2 := by
  obtain ⟨packages, hpackages, h⟩ := bind_ok h
  have hpackages := item_ok hpackages
  cases hpkg : packages pkg with
  | none =>
    rw [hpkg] at h
    cases h
  | some cfg =>
    rw [hpkg] at h
    obtain ⟨s₁, hs₁, h⟩ := bind_ok h
    obtain ⟨htight₁, hdef₁, hedge₁⟩ :=
      foldlM_adds (fun _ _ _ hs _ h => addTool_adds hnx hs h) hs hs₁
    obtain ⟨htight, hdef, hedge⟩ :=
      foldlM_adds (fun _ _ _ hs _ h => addDependency_adds hnx hs h) htight₁ h
    -- the only entry of the package is the one that has been looked up
    have hneeds : ∀ v, Needs env arch pkg v ↔ v ∈ cfg.dependency.getD [] ∨
        arch = env.osType ∧ v ∈ cfg.tools.getD [] ∧ pkg ≠ v := by
      intro v
      constructor
      · rintro ⟨packages', cfg', hp', hc', hv⟩
        cases hpackages.symm.trans hp'
        cases hpkg.symm.trans hc'
        exact hv
      · exact fun hv => ⟨packages, cfg, hpackages, hpkg, hv⟩
    refine ⟨htight, ⟨⟨packages, cfg, hpackages, hpkg⟩, fun v hv => ?_⟩, fun e => ?_⟩
    · rcases (hneeds v).mp hv with hv | ⟨harch, hv, -⟩
      · exact hdef v hv
      · exact hdef₁ v hv harch
    · rw [hedge, hedge₁, hneeds, or_assoc]
      refine or_congr_right ⟨?_, ?_⟩
      · rintro (⟨x, hx, ⟨harch, hne⟩, he, rfl⟩ | ⟨x, hx, he, rfl⟩)
        · exact ⟨he, Or.inr ⟨harch, hx, hne⟩⟩
        · exact ⟨he, Or.inl hx⟩
      · rintro ⟨he, hv | ⟨harch, hv, hne⟩⟩
        · exact Or.inr ⟨_, hv, he, rfl⟩
        · exact Or.inl ⟨_, hv, ⟨harch, hne⟩, he, rfl⟩

/-- The graph of the packages alone. -/
structure Bare (env : Env γ) (arch : String) (packageList : List String) (G : DiGraph) : Prop where
  tight : G.Tight
  defined : ∀ u ∈ packageList, Defined env arch u
  needed : ∀ u ∈ packageList, ∀ v, Needs env arch u v → Defined env arch v
  edge : ∀ u v, G.Edge u v ↔ u ∈ packageList ∧ Needs env arch u v

lemma bare_of_addPackages (hnx : env.nx.Sound)
    (h : packageList.foldlM (addPackage env arch) (env.nx.empty, d) = .ok s) :
    Bare env arch packageList (env.nx.view s.1) := by
  have hnone : ∀ x, x ∉ (env.nx.view env.nx.empty).nodes := fun x hx =>
    List.not_mem_nil (hnx.nodes_empty ▸ hx)
  obtain ⟨htight, hdef, hedge⟩ := foldlM_adds (fun _ _ _ hs _ h => addPackage_adds hnx hs h)
    (fun x hx => absurd hx (hnone x)) h
  refine ⟨htight, fun u hu => (hdef u hu).1, fun u hu => (hdef u hu).2, fun u v => ?_⟩
  refine (hedge (u, v)).trans ⟨?_, ?_⟩
  · rintro (hx | ⟨x, hx, rfl, hv⟩)
    · exact absurd (DiGraph.Edge.left hx) (hnone u)
    · exact ⟨hx, hv⟩
  · exact fun ⟨hu, hv⟩ => Or.inr ⟨u, hu, rfl, hv⟩

end Edges

/-! ## The target that stands for all packages -/

section All

variable {γ : Type} {nx : NetworkX γ} (hnx : nx.Sound) {g : γ} {packageList roots : List String}

include hnx

lemma foldl_addEdge (g : γ) (roots : List String) (u v : String) :
    (nx.view (roots.foldl (fun g pkg => nx.addEdge g buildAllTarget pkg) g)).Edge u v ↔
      (nx.view g).Edge u v ∨ u = buildAllTarget ∧ v ∈ roots := by
  induction roots generalizing g with
  | nil => simp
  | cons r roots ih =>
    rw [List.foldl_cons, ih, hnx.addEdge_edge, List.mem_cons, or_assoc, ← and_or_left]

lemma mem_nodes_foldl_addEdge (hroots : roots ⊆ (nx.view g).nodes) {x : String}
    (hx : x ≠ buildAllTarget) :
    x ∈ (nx.view (roots.foldl (fun g pkg => nx.addEdge g buildAllTarget pkg) g)).nodes ↔
      x ∈ (nx.view g).nodes := by
  induction roots generalizing g with
  | nil => exact Iff.rfl
  | cons r roots ih =>
    obtain ⟨hr, hroots⟩ := List.cons_subset.mp hroots
    have hsub : roots ⊆ (nx.view (nx.addEdge g buildAllTarget r)).nodes := fun y hy =>
      (hnx.mem_nodes_addEdge g _ _ y).mpr (Or.inl (hroots hy))
    rw [List.foldl_cons, ih hsub, hnx.mem_nodes_addEdge]
    constructor
    · rintro (hmem | hmem | rfl)
      · exact hmem
      · exact absurd hmem hx
      · exact hr
    · exact Or.inl

/-- The packages without dependencies that nothing depends on. -/
lemma foldl_addIsolated (hall : buildAllTarget ∉ packageList) (g : γ) (u v : String) :
    (nx.view (packageList.foldl (fun g pkg =>
      if pkg ∉ (nx.view g).nodes then nx.addEdge g buildAllTarget pkg else g) g)).Edge u v ↔
        (nx.view g).Edge u v ∨ u = buildAllTarget ∧ v ∈ packageList ∧ v ∉ (nx.view g).nodes := by
  induction packageList generalizing g with
  | nil => simp
  | cons p ps ih =>
    rw [List.mem_cons, not_or] at hall
    rw [List.foldl_cons, ih hall.2]
    by_cases hp : p ∈ (nx.view g).nodes
    · rw [if_neg (not_not.mpr hp), List.mem_cons]
      refine or_congr_right (and_congr_right fun _ => ?_)
      constructor
      · exact fun h => ⟨Or.inr h.1, h.2⟩
      · rintro ⟨rfl | hv, hnot⟩
        · exact absurd hp hnot
        · exact ⟨hv, hnot⟩
    · -- the edge makes `p` a node, so that `p` is not added again
      rw [if_pos hp, hnx.addEdge_edge, hnx.mem_nodes_addEdge, List.mem_cons, or_assoc]
      refine or_congr_right ⟨?_, ?_⟩
      · rintro (⟨hu, rfl⟩ | ⟨hu, hv, hnot⟩)
        · exact ⟨hu, Or.inl rfl, hp⟩
        · exact ⟨hu, Or.inr hv, fun hmem => hnot (Or.inl hmem)⟩
      · rintro ⟨hu, hv | hv, hnot⟩
        · exact Or.inl ⟨hu, hv⟩
        · by_cases hvp : v = p
          · exact Or.inl ⟨hu, hvp⟩
          · refine Or.inr ⟨hu, hv, ?_⟩
            rintro (hmem | rfl | hmem)
            · exact hnot hmem
            · exact hall.2 hv
            · exact hvp hmem

lemma tight_addAll (h : (nx.view g).Tight) (packageList : List String) :
    (nx.view (addAll nx packageList g)).Tight := by
  have hroots : ∀ (roots : List String) (g : γ), (nx.view g).Tight →
      (nx.view (roots.foldl (fun g pkg => nx.addEdge g buildAllTarget pkg) g)).Tight := by
    intro roots
    induction roots with
    | nil => exact fun _ h => h
    | cons r roots ih => exact fun _ h => ih _ (hnx.tight_addEdge h _ _)
  have hisolated : ∀ (l : List String) (g : γ), (nx.view g).Tight → (nx.view (l.foldl (fun g pkg =>
      if pkg ∉ (nx.view g).nodes then nx.addEdge g buildAllTarget pkg else g) g)).Tight := by
    intro l
    induction l with
    | nil => exact fun _ h => h
    | cons p l ih =>
      intro g h
      rw [List.foldl_cons]
      refine ih _ ?_
      split
      · exact hnx.tight_addEdge h _ _
      · exact h
  exact hisolated _ _ (hroots _ _ h)

/-- The packages that nothing depends on. -/
lemma mem_rootPkg (g : γ) (v : String) :
    v ∈ ((nx.inDegree g).filter fun e => e.2 = 0).map Prod.fst ↔
      v ∈ (nx.view g).nodes ∧ ∀ w, ¬ (nx.view g).Edge w v := by
  rw [List.mem_map]
  constructor
  · rintro ⟨⟨v, n⟩, hmem, rfl⟩
    obtain ⟨hin, hzero⟩ := List.mem_filter.mp hmem
    obtain ⟨hv, hn⟩ := (hnx.mem_inDegree g v n).mp hin
    exact ⟨hv, DiGraph.inDegree_eq_zero.mp (hn ▸ of_decide_eq_true hzero)⟩
  · rintro ⟨hv, hnone⟩
    have hzero := (DiGraph.inDegree_eq_zero.mpr hnone).symm
    exact ⟨(v, 0), List.mem_filter.mpr ⟨(hnx.mem_inDegree g v 0).mpr ⟨hv, hzero⟩, rfl⟩, rfl⟩

/-- The edges that are added lead to what nothing depends on. -/
lemma addAll_edge (hall : buildAllTarget ∉ packageList) (g : γ) (u v : String) :
    (nx.view (addAll nx packageList g)).Edge u v ↔ (nx.view g).Edge u v ∨ u = buildAllTarget ∧
      (v ∈ (nx.view g).nodes ∧ (∀ w, ¬ (nx.view g).Edge w v) ∨
        v ∈ packageList ∧ v ∉ (nx.view g).nodes) := by
  have hsub : ((nx.inDegree g).filter fun e => e.2 = 0).map Prod.fst ⊆ (nx.view g).nodes :=
    fun x hx => ((mem_rootPkg hnx g x).mp hx).1
  have hisolated : v ∈ packageList →
      (v ∉ (nx.view ((((nx.inDegree g).filter fun e => e.2 = 0).map Prod.fst).foldl
        (fun g pkg => nx.addEdge g buildAllTarget pkg) g)).nodes ↔ v ∉ (nx.view g).nodes) :=
    fun hv => (mem_nodes_foldl_addEdge hnx hsub fun heq => hall (heq ▸ hv)).not
  rw [addAll, foldl_addIsolated hnx hall, foldl_addEdge hnx, mem_rootPkg hnx, or_assoc,
    ← and_or_left, and_congr_right hisolated]

/-- The graph of a group is rooted if the graph of its packages has no cycle. -/
lemma rooted_addAll (hall : buildAllTarget ∉ packageList)
    (hnode : buildAllTarget ∉ (nx.view g).nodes) (htight : (nx.view g).Tight)
    (hacyclic : ∀ u, ¬ TransGen (nx.view g).Edge u u) (hne : packageList ≠ []) :
    (nx.view (addAll nx packageList g)).Rooted := by
  have hedge := addAll_edge hnx hall g
  have hinto : ∀ u, ¬ (nx.view (addAll nx packageList g)).Edge u buildAllTarget := by
    intro u hu
    rcases (hedge u _).mp hu with hu | ⟨-, ⟨hu, -⟩ | ⟨hu, -⟩⟩
    · exact hnode hu.right
    · exact hnode hu
    · exact hall hu
  -- a path that does not begin at the new target does not lead there
  have hpath : ∀ u v, TransGen (nx.view (addAll nx packageList g)).Edge u v →
      u ≠ buildAllTarget → TransGen (nx.view g).Edge u v := by
    intro u v huv hu
    have hstep : ∀ u v, (nx.view (addAll nx packageList g)).Edge u v → u ≠ buildAllTarget →
        (nx.view g).Edge u v := fun u v huv hu => ((hedge u v).mp huv).resolve_right fun h => hu h.1
    induction huv with
    | single huv => exact .single (hstep _ _ huv hu)
    | tail huw hwv ih =>
      refine ih.tail (hstep _ _ hwv ?_)
      rintro rfl
      obtain ⟨y, -, hy⟩ := TransGen.tail'_iff.mp huw
      exact hinto y hy
  have hpred : ∀ v, v ∈ (nx.view g).nodes ∨ v ∈ packageList →
      ∃ u, (nx.view (addAll nx packageList g)).Edge u v := by
    intro v hv
    by_cases hvG : v ∈ (nx.view g).nodes
    · by_cases hroot : ∀ w, ¬ (nx.view g).Edge w v
      · exact ⟨buildAllTarget, (hedge _ _).mpr (Or.inr ⟨rfl, Or.inl ⟨hvG, hroot⟩⟩)⟩
      · obtain ⟨w, hw⟩ := not_forall_not.mp hroot
        exact ⟨w, (hedge _ _).mpr (Or.inl hw)⟩
    · exact ⟨buildAllTarget, (hedge _ _).mpr (Or.inr ⟨rfl, Or.inr ⟨hv.resolve_left hvG, hvG⟩⟩)⟩
  refine .of_acyclic (fun u hu => ?_) ?_ hinto fun v hv hvne => ?_
  · refine hacyclic u (hpath u u hu ?_)
    rintro rfl
    obtain ⟨y, -, hy⟩ := TransGen.tail'_iff.mp hu
    exact hinto y hy
  · -- some package has no other package that depends on it
    obtain ⟨p, hp⟩ := List.exists_mem_of_ne_nil _ hne
    by_cases hpG : p ∈ (nx.view g).nodes
    · obtain ⟨r, hr, hnone, -⟩ := Reach.exists_root (s := (nx.view g).nodes.toFinset) hacyclic
        (fun u w huw => List.mem_toFinset.mpr huw.left) (List.mem_toFinset.mpr hpG)
      exact ((hedge _ r).mpr (Or.inr ⟨rfl, Or.inl ⟨List.mem_toFinset.mp hr, hnone⟩⟩)).left
    · exact ((hedge _ p).mpr (Or.inr ⟨rfl, Or.inr ⟨hp, hpG⟩⟩)).left
  · have hold : v ∈ (nx.view g).nodes ∨ v ∈ packageList := by
      rcases tight_addAll hnx htight packageList v hv with ⟨y, hy⟩ | ⟨y, hy⟩
      · exact ((hedge v y).mp hy).imp DiGraph.Edge.left fun h => absurd h.1 hvne
      · rcases (hedge y v).mp hy with hy | ⟨-, ⟨hy, -⟩ | ⟨hy, -⟩⟩
        · exact Or.inl hy.right
        · exact Or.inl hy
        · exact Or.inr hy
    obtain ⟨u, hu⟩ := hpred v hold
    exact ⟨u, hu.left, hu⟩

end All

end AraCore.BuildCentral
