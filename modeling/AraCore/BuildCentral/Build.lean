/-
# Building

`build_central.py` builds first the tools for the host and then the packages for the target, one
after the other, and stops at the first that fails.  A package is only built when all that it
depends on has been built, and the tools that it uses.  A run may also end before anything is
built: it is told to clean only, there is no place for the log, or an exception is raised.
-/
import AraCore.BuildCentral.Order

namespace AraCore.BuildCentral

open Lib Trace Order Relation

/-! ## Translation -/

/-- `get_build_cmd_type` -/
inductive CmdType where
  | cmake
  | make
  | unknown
deriving DecidableEq, Repr

/-- The stages of `create_build_command` at which packages are built. -/
inductive Stage where
  | cmake
  | make
deriving DecidableEq, Repr

/-- How a command ends: an exception is raised, the user stops the build, or it has a return
code. -/
inductive Answer where
  | raised
  | stopped
  | exited (code : ℤ)
deriving DecidableEq, Repr

/-- What the code finds, and what it gets from commands, for an architecture and a package. -/
structure Machine where
  /-- the directory for the log is there, or can be made -/
  canMakeLogDir : String → Bool
  /-- what is raised while the log is opened, and packages are configured and cleaned -/
  prepare : String → List String → Option PyError
  /-- nothing if an exception is raised -/
  cmdType : String → String → Option CmdType
  hasWorkPath : String → String → Bool
  canMakeDirs : String → String → Bool
  /-- the generator of the architecture is one of Visual Studio -/
  visualStudio : String → Bool
  answer : String → String → Stage → Answer

/-- `ret['info']` -/
inductive Info where
  | ok
  | noLogDir (arch : String)
  | workPathMissing (package : String)
  | noBuildCommand (package : String)
  | failRunning
  | stopped
  | fail (stage : Stage) (package : String) (code : ℤ)
deriving DecidableEq, Repr

/-- A command is started, or the body of the loop over the packages comes to its end. -/
inductive Event where
  | started (arch package : String) (stage : Stage)
  | finished (arch package : String)
deriving DecidableEq, Repr

section Translation

variable (m : Machine) (arch : String)

/-- `create_build_command` makes a command. -/
def hasCommand (cmdType : CmdType) : Stage → Bool
  | .cmake => cmdType = .cmake
  | .make => cmdType = .make ∨ cmdType = .cmake ∧ m.visualStudio arch = false

/-- One of the two commands of a package, and with what it breaks the loop. -/
def runStage (cmdType : CmdType) (package : String) (stage : Stage) :
    List Event × Option Info :=
  if hasCommand m arch cmdType stage then
    ([.started arch package stage],
      match m.answer arch package stage with
      | .raised => some .failRunning
      | .stopped => some .stopped
      | .exited code => if code = 0 then none else some (.fail stage package code))
  else ([], none)

/-- Both commands of a package. -/
def runStages (cmdType : CmdType) (package : String) : List Event × Option Info :=
  match runStage m arch cmdType package .cmake with
  | (log, some info) => (log, some info)
  | (log, none) =>
    match runStage m arch cmdType package .make with
    | (log', some info) => (log ++ log', some info)
    | (log', none) => (log ++ log' ++ [.finished arch package], none)

/-- The body of the loop that builds packages. -/
def buildPackage (package : String) : List Event × Option Info :=
  match m.cmdType arch package with
  | none => ([], some .failRunning)
  | some .unknown => ([], some (.noBuildCommand package))
  | some .make =>
    if m.hasWorkPath arch package then runStages m arch .make package
    else ([], some (.workPathMissing package))
  | some .cmake =>
    -- the text for the other case is put together wrongly, which raises an exception
    if m.hasWorkPath arch package ∨ m.canMakeDirs arch package then runStages m arch .cmake package
    else ([], some .failRunning)

/-- The loop that builds packages: the events, `ret`, and `cur_package`. -/
def buildPackages : List String → String → List Event × Info × String
  | [], curPackage => ([], .ok, curPackage)
  | pkg :: packages, _ =>
    match buildPackage m arch pkg with
    | (log, some info) => (log, info, pkg)
    | (log, none) =>
      match buildPackages packages pkg with
      | (log', ret) => (log ++ log', ret)

/-- What `do_build_packages` returns: `info`, and `package`, which may be `None`. -/
abbrev Ret := Info × Option String

/-- `do_build_packages` -/
def doBuildPackages (notBuild : Bool) (packages : List String) : List Event × Except PyError Ret :=
  if m.canMakeLogDir arch then
    match m.prepare arch (packages.erase buildAllTarget) with
    | some e => ([], throw e)
    | none =>
      if notBuild then ([], pure (.ok, none))
      else
        match buildPackages m arch (packages.erase buildAllTarget) "" with
        | (log, info, package) => (log, pure (info, some package))
  else ([], pure (.noLogDir arch, none))

end Translation

/-- `get_tools` -/
def getTools (tools : String → List String) (packages : List String) : List String :=
  packages.foldl (fun acc pkg =>
    if pkg ≠ buildAllTarget then (tools pkg).foldl appendNew acc else acc) []

/-- The events while tools are built, those while packages are built, and how the run ends: with
`ret['info']` and `failure_package`, or with an exception. -/
structure Report where
  tools : List Event
  packages : List Event
  ending : Except PyError Ret

/-- `ret['package'] + '(host)'` -/
def onHost : Option String → Except PyError String
  | some package => pure (package ++ "(host)")
  | none => throw .typeError

/-- The tools are built if there are any. -/
def buildTools (m : Machine) (hostArch : String) (notBuild : Bool) (toolsBuildList : List String) :
    List Event × Except PyError Ret :=
  if toolsBuildList = [] then ([], pure (.ok, none))
  else doBuildPackages m hostArch notBuild toolsBuildList

/-- The tools for the host are built, and then the packages for the target. -/
def buildLists (m : Machine) (targetArch hostArch : String) (notBuild : Bool)
    (toolsBuildList packageBuildList : List String) : Report :=
  match buildTools m hostArch notBuild toolsBuildList with
  | (toolsLog, .error e) => ⟨toolsLog, [], .error e⟩
  | (toolsLog, .ok (.ok, _)) =>
    let packageBuildList :=
      if targetArch = hostArch then packageBuildList.filter (· ∉ toolsBuildList)
      else packageBuildList
    match doBuildPackages m targetArch notBuild packageBuildList with
    | (log, ret) => ⟨toolsLog, log, ret⟩
  | (toolsLog, .ok (info, package)) =>
    ⟨toolsLog, [], (onHost package).map fun package => (info, some package)⟩

/-- The options of a run. -/
structure Args where
  clean : Bool
  cleanBuild : Bool
  dep : Bool
  packageList : List String

/-- `not_build` -/
def Args.notBuild (args : Args) : Bool := args.clean && !args.cleanBuild

/-- `args.dep`, which is set if everything is asked for. -/
def Args.withDep (args : Args) : Bool := args.dep || args.packageList = [buildAllTarget]

/-- What `build_central.py` does with the packages that are asked for, with or without what they
depend on. -/
def buildCentral (m : Machine) (limit : ℕ) (packageGraphs toolsGraphs : List DiGraph)
    (tools : String → List String) (order : List String → List String)
    (targetArch hostArch : String) (args : Args) : Except PyError Report := do
  let deps ← depList limit packageGraphs args.packageList
  let packageBuildList := if args.withDep then deps else deps.filter (· ∈ args.packageList)
  let toolsBuildList ← depList limit toolsGraphs
    (if args.withDep then order (getTools tools packageBuildList) else [])
  pure (buildLists m targetArch hostArch args.notBuild toolsBuildList packageBuildList)

/-! ## One package after the other -/

variable {m : Machine} {arch package cur : String} {cmdType : CmdType} {stage : Stage} {e : Event}
  {l packageList : List String} {u v : String}

/-- The event is one of the package. -/
def Event.Of (arch package : String) (e : Event) : Prop :=
  (∃ stage, e = started arch package stage) ∨ e = finished arch package

@[simp] lemma Event.started_of {a : String} :
    (started a u stage).Of arch package ↔ a = arch ∧ u = package := by
  simp [Of]

@[simp] lemma Event.finished_of {a : String} :
    (finished a u).Of arch package ↔ a = arch ∧ u = package := by
  simp [Of]

lemma runStage_spec (m : Machine) (arch : String) (cmdType : CmdType) (package : String)
    (stage : Stage) :
    (∀ e ∈ (runStage m arch cmdType package stage).1, e = .started arch package stage) ∧
      (runStage m arch cmdType package stage).2 ≠ some .ok := by
  unfold runStage
  split
  · refine ⟨by simp, ?_⟩
    dsimp only
    split
    · simp
    · simp
    · split <;> simp
  · simp

/-- What the commands of a package do: all events are its own, and it is finished exactly if the
loop goes on. -/
structure Single (arch package : String) (r : List Event × Option Info) : Prop where
  own : ∀ e ∈ r.1, e.Of arch package
  finished : r.2 = none ↔ .finished arch package ∈ r.1
  ne_ok : r.2 ≠ some .ok

lemma Single.failed {info : Info} (h : info ≠ .ok) : Single arch package ([], some info) :=
  ⟨nofun, by simp, by simpa using h⟩

lemma runStages_single : Single arch package (runStages m arch cmdType package) := by
  have hc := runStage_spec m arch cmdType package .cmake
  have hm := runStage_spec m arch cmdType package .make
  unfold runStages
  rcases hcr : runStage m arch cmdType package .cmake with ⟨log, _ | info⟩
  · rcases hmr : runStage m arch cmdType package .make with ⟨log', _ | info⟩
    · rw [hcr] at hc
      rw [hmr] at hm
      refine ⟨fun e he => ?_, by simp, by simp⟩
      simp only [List.mem_append, List.mem_singleton] at he
      rcases he with (he | he) | he
      · exact Or.inl ⟨_, hc.1 e he⟩
      · exact Or.inl ⟨_, hm.1 e he⟩
      · exact Or.inr he
    · rw [hcr] at hc
      rw [hmr] at hm
      -- `make` failed: both logs hold starts only, so the package is not finished
      have hown : ∀ e ∈ log ++ log', ∃ stage, e = .started arch package stage := by
        intro e he
        rcases List.mem_append.mp he with he | he
        · exact ⟨_, hc.1 e he⟩
        · exact ⟨_, hm.1 e he⟩
      refine ⟨fun e he => Or.inl (hown e he), ?_, hm.2⟩
      refine iff_of_false (by simp) fun hmem => ?_
      obtain ⟨stage, heq⟩ := hown _ hmem
      cases heq
  · -- `cmake` failed, `make` is not tried
    rw [hcr] at hc
    refine ⟨fun e he => Or.inl ⟨_, hc.1 e he⟩, ?_, hc.2⟩
    refine iff_of_false (by simp) fun hmem => ?_
    have heq := hc.1 _ hmem
    cases heq

lemma buildPackage_single (m : Machine) (arch package : String) :
    Single arch package (buildPackage m arch package) := by
  unfold buildPackage
  split
  · exact .failed (by simp)
  · exact .failed (by simp)
  · split
    · exact runStages_single
    · exact .failed (by simp)
  · split
    · exact runStages_single
    · exact .failed (by simp)

/-- What the loop over the packages does: a package is started when all before it are finished, and
the loop ends at the first package that fails. -/
structure Built (arch : String) (l : List String) (log : List Event) (info : Info)
    (package : String) : Prop where
  own : ∀ e ∈ log, ∃ u ∈ l, e.Of arch u
  before : ∀ u stage, .started arch u stage ∈ log → ∀ v, v ≠ u → Before v u l →
    Before (.finished arch v) (.started arch u stage) log
  ok : info = .ok → ∀ u ∈ l, .finished arch u ∈ log
  failed : info ≠ .ok → ∃ l₁ l₂, l = l₁ ++ package :: l₂ ∧ (∀ u ∈ l₁, .finished arch u ∈ log) ∧
    .finished arch package ∉ log ∧ ∀ u ∈ l₂, ∀ stage, .started arch u stage ∉ log

/-- The loop goes on after the package `p`. -/
lemma Built.cons {log log' : List Event} {info : Info} {p : String} (hp : p ∉ l)
    (hsingle : Single arch p (log, none)) (hrest : Built arch l log' info package) :
    Built arch (p :: l) (log ++ log') info package := by
  have hfin : .finished arch p ∈ log := hsingle.finished.mp rfl
  have hown : ∀ e ∈ log, e.Of arch p := hsingle.own
  have hstarted : ∀ u stage, .started arch u stage ∈ log → u = p := fun u stage hu =>
    (Event.started_of.mp (hown _ hu)).2
  refine ⟨fun e he => ?_, fun u stage he v hv hvu => ?_, fun hok u hu => ?_, fun hne => ?_⟩
  · rcases List.mem_append.mp he with he | he
    · exact ⟨p, List.mem_cons_self, hown e he⟩
    · obtain ⟨u, hu, hof⟩ := hrest.own e he
      exact ⟨u, List.mem_cons_of_mem _ hu, hof⟩
  · rcases List.mem_append.mp he with he | he
    · -- nothing stands before the first package
      obtain rfl := hstarted u stage he
      rcases before_cons.mp hvu with rfl | ⟨hne, -⟩
      · exact absurd rfl hv
      · exact absurd rfl hne
    · -- the first package is finished in `log`; what follows is in order by `hrest`
      obtain ⟨w, hw, hof⟩ := hrest.own _ he
      have hul : u ∈ l := (Event.started_of.mp hof).2 ▸ hw
      have hnot : .started arch u stage ∉ log := fun hmem => hp (hstarted u stage hmem ▸ hul)
      rcases before_cons.mp hvu with rfl | ⟨-, hvu⟩
      · exact before_append_of_mem hfin hnot
      · exact before_append_right hnot (hrest.before u stage he v hv hvu)
  · rcases List.mem_cons.mp hu with rfl | hu
    · exact List.mem_append_left _ hfin
    · exact List.mem_append_right _ (hrest.ok hok u hu)
  · -- the rest of the loop fails at the package, and the first one has been finished
    obtain ⟨l₁, l₂, rfl, hfin₁, hnot, hrest₂⟩ := hrest.failed hne
    refine ⟨p :: l₁, l₂, rfl, fun u hu => ?_, fun hmem => ?_, fun u hu stage hmem => ?_⟩
    · rcases List.mem_cons.mp hu with rfl | hu
      · exact List.mem_append_left _ hfin
      · exact List.mem_append_right _ (hfin₁ u hu)
    · rcases List.mem_append.mp hmem with hmem | hmem
      · exact hp ((Event.finished_of.mp (hown _ hmem)).2 ▸ by simp)
      · exact hnot hmem
    · rcases List.mem_append.mp hmem with hmem | hmem
      · exact hp (hstarted u stage hmem ▸ by simp [hu])
      · exact hrest₂ u hu stage hmem

/-- The loop ends at the package `p`. -/
lemma Built.break {log : List Event} {info : Info} {p : String} (hp : p ∉ l)
    (hsingle : Single arch p (log, some info)) : Built arch (p :: l) log info p := by
  have hown : ∀ e ∈ log, e.Of arch p := hsingle.own
  have hstarted : ∀ u stage, .started arch u stage ∈ log → u = p := fun u stage hu =>
    (Event.started_of.mp (hown _ hu)).2
  have hne : info ≠ .ok := fun heq => hsingle.ne_ok (congrArg some heq)
  refine ⟨fun e he => ⟨p, List.mem_cons_self, hown e he⟩, fun u stage he v hv hvu => ?_,
    fun hok => absurd hok hne, fun _ => ⟨[], l, rfl, nofun, ?_, fun u hu stage hmem => ?_⟩⟩
  · obtain rfl := hstarted u stage he
    rcases before_cons.mp hvu with rfl | ⟨hne', -⟩
    · exact absurd rfl hv
    · exact absurd rfl hne'
  · exact fun hmem => Option.some_ne_none _ (hsingle.finished.mpr hmem)
  · exact hp (hstarted u stage hmem ▸ hu)

lemma buildPackages_built (m : Machine) (arch cur : String) (hl : l.Nodup) :
    Built arch l (buildPackages m arch l cur).1 (buildPackages m arch l cur).2.1
      (buildPackages m arch l cur).2.2 := by
  induction l generalizing cur with
  | nil => exact ⟨nofun, nofun, nofun, fun h => absurd rfl h⟩
  | cons p l ih =>
    obtain ⟨hp, hl⟩ := List.nodup_cons.mp hl
    have hsingle := buildPackage_single m arch p
    rw [buildPackages]
    rcases hr : buildPackage m arch p with ⟨log, _ | info⟩
    · exact Built.cons hp (hr ▸ hsingle) (ih p hl)
    · exact Built.break hp (hr ▸ hsingle)

/-- What is done with a list of packages, whether it is built or not. -/
structure Done (m : Machine) (arch : String) (notBuild : Bool) (l : List String) (log : List Event)
    (ret : Except PyError Ret) : Prop where
  own : ∀ e ∈ log, ∃ u ∈ l, e.Of arch u
  before : ∀ u stage, .started arch u stage ∈ log → ∀ v, v ≠ u → Before v u l →
    Before (.finished arch v) (.started arch u stage) log
  clean : notBuild = true → log = []
  ok : notBuild = false → ∀ package, ret = .ok (.ok, package) → ∀ u ∈ l, .finished arch u ∈ log
  failed : ∀ info package, ret = .ok (info, package) → info ≠ .ok →
    info = .noLogDir arch ∧ package = none ∧ log = [] ∧ m.canMakeLogDir arch = false ∨
      ∃ p ∈ l, package = some p ∧ .finished arch p ∉ log
  raised : ∀ e, ret = .error e → log = [] ∧ ∃ l, m.prepare arch l = some e

lemma doBuildPackages_done (m : Machine) (arch : String) (notBuild : Bool) (hl : l.Nodup)
    (hall : buildAllTarget ∉ l) : Done m arch notBuild l (doBuildPackages m arch notBuild l).1
      (doBuildPackages m arch notBuild l).2 := by
  unfold doBuildPackages
  rw [List.erase_of_not_mem hall]
  by_cases hdir : m.canMakeLogDir arch
  · rw [if_pos hdir]
    cases hprepare : m.prepare arch l with
    -- an exception in preparing the packages leaves the function before the loop
    | some e =>
      refine ⟨nofun, nofun, fun _ => rfl, nofun, nofun, fun e' he' => ⟨rfl, l, ?_⟩⟩
      cases he'
      exact hprepare
    | none =>
      cases notBuild with
      -- only cleaning is asked for: the code returns before the loop
      | true =>
        refine ⟨nofun, nofun, fun _ => rfl, nofun, fun info package hret hne => ?_, nofun⟩
        cases hret
        exact absurd rfl hne
      | false =>
        have hbuilt := buildPackages_built m arch "" hl
        rcases hr : buildPackages m arch l "" with ⟨log, info, package⟩
        rw [hr] at hbuilt
        refine ⟨hbuilt.own, hbuilt.before, nofun, fun _ package' hret => ?_,
          fun info' package' hret hne => Or.inr ?_, nofun⟩
        · cases hret
          exact hbuilt.ok rfl
        · cases hret
          obtain ⟨l₁, l₂, heq, -, hnot, -⟩ := hbuilt.failed hne
          exact ⟨package, heq ▸ List.mem_append_right l₁ List.mem_cons_self, rfl, hnot⟩
  · -- no directory for the logs: no package is named
    rw [if_neg hdir]
    refine ⟨nofun, nofun, fun _ => rfl, fun _ package hret => ?_, fun info package hret _ => ?_,
      nofun⟩
    · cases hret
    · cases hret
      exact Or.inl ⟨rfl, rfl, rfl, Bool.eq_false_iff.mpr hdir⟩

lemma buildTools_done (m : Machine) (arch : String) (notBuild : Bool) (hl : l.Nodup)
    (hall : buildAllTarget ∉ l) : Done m arch notBuild l (buildTools m arch notBuild l).1
      (buildTools m arch notBuild l).2 := by
  unfold buildTools
  by_cases hnil : l = []
  · rw [if_pos hnil]
    refine ⟨nofun, nofun, fun _ => rfl, fun _ package _ u hu => ?_, fun info package hret hne => ?_,
      nofun⟩
    · rw [hnil] at hu
      cases hu
    · cases hret
      exact absurd rfl hne
  · rw [if_neg hnil]
    exact doBuildPackages_done m arch notBuild hl hall

/-! ## Tools and packages -/

section Main

variable {limit : ℕ} {packageGraphs toolsGraphs : List DiGraph} {tools : String → List String}
  {order : List String → List String} {targetArch hostArch : String} {dep : Bool}

lemma mem_getTools {packages : List String} {t : String} : t ∈ getTools tools packages ↔
    ∃ p ∈ packages, p ≠ buildAllTarget ∧ t ∈ tools p := by
  have hfold : ∀ acc : List String, t ∈ packages.foldl (fun acc pkg =>
      if pkg ≠ buildAllTarget then (tools pkg).foldl appendNew acc else acc) acc ↔
      t ∈ acc ∨ ∃ p ∈ packages, p ≠ buildAllTarget ∧ t ∈ tools p := by
    induction packages with
    | nil => simp
    | cons p ps ih =>
      intro acc
      rw [List.foldl_cons, ih]
      simp only [List.mem_cons, exists_eq_or_imp]
      by_cases hp : p ≠ buildAllTarget
      · rw [if_pos hp, mem_foldl_appendNew, or_assoc, and_iff_right hp]
      · rw [if_neg hp]
        simp [hp]
  exact (hfold []).trans (or_iff_right List.not_mem_nil)

/-- What the code builds of what is asked for. -/
structure Chosen (graphs : List DiGraph) (dep : Bool) (packageList l : List String) : Prop where
  nodup : l.Nodup
  mem : ∀ x, x ∈ l ↔ Wanted graphs packageList x ∧ (dep = true ∨ x ∈ packageList)
  before : ∀ u ∈ l, ∀ v, Depends graphs u v → dep = true ∨ v ∈ packageList → Before v u l

lemma chosen (dep : Bool) {deps : List String}
    (h : BuildOrder packageGraphs (Wanted packageGraphs packageList) deps) :
    Chosen packageGraphs dep packageList
      (if dep then deps else deps.filter (· ∈ packageList)) := by
  cases dep with
  | true =>
    refine ⟨h.nodup, fun x => ?_, fun u hu v huv _ => h.before u hu v huv⟩
    simpa using h.mem x
  | false =>
    refine ⟨h.nodup.filter _, fun x => ?_, fun u hu v huv hv => ?_⟩
    · simp [h.mem x]
    · have hv : v ∈ packageList := by simpa using hv
      exact before_filter (by simpa using hv) (h.before u (List.mem_of_mem_filter hu) v huv)

/-- How a run goes. -/
structure Orderly (m : Machine) (packageGraphs toolsGraphs : List DiGraph)
    (tools : String → List String) (targetArch hostArch : String) (args : Args) (r : Report) :
    Prop where
  /-- A tool is started when all that it depends on is finished. -/
  toolOrder : ∀ u stage, .started hostArch u stage ∈ r.tools → ∀ v, Depends toolsGraphs u v →
    Before (.finished hostArch v) (.started hostArch u stage) r.tools
  /-- A package is started when all that it depends on is finished, if that is built at all. -/
  packageOrder : ∀ u stage, .started targetArch u stage ∈ r.packages → ∀ v,
    Depends packageGraphs u v → args.withDep = true ∨ v ∈ args.packageList →
      Before (.finished targetArch v) (.started targetArch u stage) (r.tools ++ r.packages)
  /-- The tools of a package that are known to the host are finished before, if what packages depend
  on is built. -/
  toolsUsed : ∀ u stage, .started targetArch u stage ∈ r.packages → args.withDep = true →
    ∀ t ∈ tools u, (∃ G ∈ toolsGraphs, t ∈ G.nodes) → .finished hostArch t ∈ r.tools
  /-- A run that is told to clean only builds nothing. -/
  clean : args.notBuild = true → r.tools = [] ∧ r.packages = []
  /-- A build that succeeds has built all that is asked for. -/
  complete : args.notBuild = false → (∃ package, r.ending = .ok (.ok, package)) → ∀ u,
    Wanted packageGraphs args.packageList u → args.withDep = true ∨ u ∈ args.packageList →
      .finished targetArch u ∈ r.tools ++ r.packages
  /-- A build that fails names a tool, or a package that is asked for, that is not finished; without
  a place for the log it names none. -/
  failed : ∀ info package, r.ending = .ok (info, package) → info ≠ .ok →
    (r.packages = [] ∧ ∃ t, package = some (t ++ "(host)") ∧ .finished hostArch t ∉ r.tools) ∨
      (info = .noLogDir targetArch ∧ package = none ∧ r.packages = [] ∧
        m.canMakeLogDir targetArch = false) ∨
      ∃ p, package = some p ∧ Wanted packageGraphs args.packageList p ∧
        .finished targetArch p ∉ r.packages
  /-- An exception comes from what is done before building, or there was no place for the log on the
  host. -/
  raised : ∀ e, r.ending = .error e → r.packages = [] ∧
    (e = .typeError ∧ m.canMakeLogDir hostArch = false ∨
      ∃ arch ∈ [hostArch, targetArch], ∃ l, m.prepare arch l = some e)

/-- The tools that the code builds first. -/
structure ToolList (toolsGraphs : List DiGraph) (tools : String → List String) (dep : Bool)
    (packages l : List String) : Prop where
  nodup : l.Nodup
  all : buildAllTarget ∉ l
  before : ∀ u ∈ l, ∀ v, Depends toolsGraphs u v → Before v u l
  mem : dep = true → ∀ p ∈ packages, ∀ t ∈ tools p, (∃ G ∈ toolsGraphs, t ∈ G.nodes) → t ∈ l

lemma toolList (dep : Bool) (ht : Loaded limit toolsGraphs)
    (horder : ∀ l, (order l).Perm l)
    (htools : ∀ p, buildAllTarget ∉ tools p) {packages : List String}
    (hpackages : ∀ p ∈ packages, p ≠ buildAllTarget) :
    ∃ l, depList limit toolsGraphs (if dep then order (getTools tools packages) else []) = .ok l ∧
      ToolList toolsGraphs tools dep packages l := by
  have hmem : ∀ t, t ∈ order (getTools tools packages) ↔
      ∃ p ∈ packages, p ≠ buildAllTarget ∧ t ∈ tools p := fun t =>
    (horder _).mem_iff.trans mem_getTools
  -- no tool is the target `__all__`, so that the list of the tools is asked for as it is
  have hasked : Asked (if dep then order (getTools tools packages) else []) := by
    refine Or.inl fun h => ?_
    split at h
    · obtain ⟨p, -, -, hp⟩ := (hmem _).mp h
      exact htools p hp
    · cases h
  obtain ⟨l, hl, hord⟩ := ht.asked hasked
  refine ⟨l, hl, hord.nodup, fun hall => ((hord.mem _).mp hall).1 rfl, hord.before,
    fun hdep p hp t htp hG => ?_⟩
  have hta : t ≠ buildAllTarget := fun heq => htools p (heq ▸ htp)
  have hin : t ∈ if dep then order (getTools tools packages) else [] := by
    rw [if_pos hdep]
    exact (hmem t).mpr ⟨p, hp, hpackages p hp, htp⟩
  obtain ⟨G, hG, htG⟩ := hG
  exact (hord.mem t).mpr ⟨hta, G, hG, htG, Or.inr ⟨t, hin, ⟨G, hG, htG⟩, .refl⟩⟩

/-- What is built for the target when the tools have been built. -/
abbrev remaining (targetArch hostArch : String) (tbl packages : List String) : List String :=
  if targetArch = hostArch then packages.filter (· ∉ tbl) else packages

section Lists

variable {notBuild : Bool} {packages tbl : List String} {toolsLog log : List Event}
  {toolsRet ret : Except PyError Ret}

lemma mem_of_remaining (hu : u ∈ remaining targetArch hostArch tbl packages) : u ∈ packages := by
  unfold remaining at hu
  split at hu
  · exact List.mem_of_mem_filter hu
  · exact hu

/-- What is asked for has been built as a tool, or remains. -/
lemma tool_or_remaining (targetArch hostArch : String) (tbl : List String) (hu : u ∈ packages) :
    targetArch = hostArch ∧ u ∈ tbl ∨ u ∈ remaining targetArch hostArch tbl packages := by
  unfold remaining
  by_cases harch : targetArch = hostArch
  · by_cases hut : u ∈ tbl
    · exact Or.inl ⟨harch, hut⟩
    · exact Or.inr (by simp [harch, hu, hut])
  · exact Or.inr (by simp [harch, hu])

lemma before_remaining (hv : v ∈ remaining targetArch hostArch tbl packages)
    (h : Before v u packages) : Before v u (remaining targetArch hostArch tbl packages) := by
  unfold remaining at hv ⊢
  split at hv
  · next harch =>
    rw [if_pos harch]
    exact before_filter (List.mem_filter.mp hv).2 h
  · next harch =>
    rw [if_neg harch]
    exact h

/-- A package is not started while tools are built. -/
lemma not_started (htl : Done m hostArch notBuild tbl toolsLog toolsRet)
    (hpl : Done m targetArch notBuild (remaining targetArch hostArch tbl packages) log ret)
    (hu : .started targetArch u stage ∈ log) : .started targetArch u stage ∉ toolsLog := by
  intro hmem
  obtain ⟨w, hw, hof⟩ := htl.own _ hmem
  obtain ⟨harch, rfl⟩ := Event.started_of.mp hof
  obtain ⟨w, hw', hof⟩ := hpl.own _ hu
  obtain ⟨-, rfl⟩ := Event.started_of.mp hof
  rw [remaining, if_pos harch, List.mem_filter] at hw'
  exact of_decide_eq_true hw'.2 hw

/-- Tools are built in order. -/
lemma tool_order (ht : Loaded limit toolsGraphs)
    (htl : ToolList toolsGraphs tools dep packages tbl)
    (htd : Done m hostArch notBuild tbl toolsLog toolsRet)
    (hu : .started hostArch u stage ∈ toolsLog) (huv : Depends toolsGraphs u v) :
    Before (.finished hostArch v) (.started hostArch u stage) toolsLog := by
  obtain ⟨w, hw, hof⟩ := htd.own _ hu
  obtain ⟨-, rfl⟩ := Event.started_of.mp hof
  exact htd.before u stage hu v (fun heq => ht.irrefl u (heq ▸ huv)) (htl.before u hw v huv)

variable {args : Args}

/-- Nothing is built for the target if the tools are not built. -/
lemma orderly_of_tools (ht : Loaded limit toolsGraphs)
    (htl : ToolList toolsGraphs tools args.withDep packages tbl)
    (htd : Done m hostArch args.notBuild tbl toolsLog toolsRet)
    {ending : Except PyError Ret} (hok : ∀ package, ending ≠ .ok (.ok, package))
    (hfailed : ∀ info package, ending = .ok (info, package) →
      ∃ t, package = some (t ++ "(host)") ∧ .finished hostArch t ∉ toolsLog)
    (hraised : ∀ e, ending = .error e → e = .typeError ∧ m.canMakeLogDir hostArch = false ∨
      ∃ l, m.prepare hostArch l = some e) :
    Orderly m packageGraphs toolsGraphs tools targetArch hostArch args ⟨toolsLog, [], ending⟩ where
  toolOrder _ _ hu _ huv := tool_order ht htl htd hu huv
  packageOrder := nofun
  toolsUsed := nofun
  clean hclean := ⟨htd.clean hclean, rfl⟩
  complete := fun _ ⟨package, hend⟩ => absurd hend (hok package)
  failed info package hend _ := Or.inl ⟨rfl, hfailed info package hend⟩
  raised e he := ⟨rfl, (hraised e he).imp_right fun hl => ⟨hostArch, List.mem_cons_self, hl⟩⟩

/-- The packages are built when the tools have been built. -/
lemma orderly_of_packages (hp : Loaded limit packageGraphs) (ht : Loaded limit toolsGraphs)
    (hchosen : Chosen packageGraphs args.withDep args.packageList packages)
    (htl : ToolList toolsGraphs tools args.withDep packages tbl) {toolsPackage : Option String}
    (htd : Done m hostArch args.notBuild tbl toolsLog (.ok (.ok, toolsPackage)))
    (hpd : Done m targetArch args.notBuild (remaining targetArch hostArch tbl packages) log ret) :
    Orderly m packageGraphs toolsGraphs tools targetArch hostArch args ⟨toolsLog, log, ret⟩ := by
  have hmem : ∀ u stage, .started targetArch u stage ∈ log →
      u ∈ remaining targetArch hostArch tbl packages := by
    intro u stage hu
    obtain ⟨w, hw, hof⟩ := hpd.own _ hu
    obtain ⟨-, rfl⟩ := Event.started_of.mp hof
    exact hw
  -- all tools are finished when a package is started
  have htools : ∀ u stage, .started targetArch u stage ∈ log → ∀ t ∈ tbl,
      .finished hostArch t ∈ toolsLog := by
    intro u stage hu
    refine htd.ok (Bool.eq_false_iff.mpr fun hclean => ?_) _ rfl
    rw [hpd.clean hclean] at hu
    cases hu
  refine ⟨fun u stage hu v huv => tool_order ht htl htd hu huv, fun u stage hu v huv hv => ?_,
    fun u stage hu hdep t htu hG => ?_, fun hclean => ⟨htd.clean hclean, hpd.clean hclean⟩,
    fun hbuild hok u hu hdep => ?_, fun info package hret hne => Or.inr ?_, fun e he => ?_⟩
  · have hnot := not_started htd hpd hu
    have hbefore := hchosen.before u (mem_of_remaining (hmem u stage hu)) v huv hv
    rcases tool_or_remaining targetArch hostArch tbl hbefore.mem with ⟨harch, hvt⟩ | hvl
    · have hfin := htools u stage hu v hvt
      rw [← harch] at hfin
      exact before_append_of_mem hfin hnot
    · exact before_append_right hnot (hpd.before u stage hu v
        (fun heq => hp.irrefl u (heq ▸ huv)) (before_remaining hvl hbefore))
  · exact htools u stage hu t (htl.mem hdep u (mem_of_remaining (hmem u stage hu)) t htu hG)
  · obtain ⟨package, hok⟩ := hok
    have hup := (hchosen.mem u).mpr ⟨hu, hdep⟩
    rcases tool_or_remaining targetArch hostArch tbl hup with ⟨harch, hut⟩ | hul
    · have hfin := htd.ok hbuild _ rfl u hut
      rw [← harch] at hfin
      exact List.mem_append_left _ hfin
    · exact List.mem_append_right _ (hpd.ok hbuild package hok u hul)
  · rcases hpd.failed info package hret hne with h | ⟨p, hp, hpackage, hnot⟩
    · exact Or.inl h
    · exact Or.inr ⟨p, hpackage, ((hchosen.mem p).mp (mem_of_remaining hp)).1, hnot⟩
  · obtain ⟨hlog, hl⟩ := hpd.raised e he
    exact ⟨hlog, Or.inr ⟨targetArch, by simp, hl⟩⟩

end Lists

/-- Both lists are built in order. -/
lemma buildLists_orderly (m : Machine) {args : Args} {packages tbl : List String}
    (hp : Loaded limit packageGraphs) (ht : Loaded limit toolsGraphs)
    (hchosen : Chosen packageGraphs args.withDep args.packageList packages)
    (htl : ToolList toolsGraphs tools args.withDep packages tbl) :
    Orderly m packageGraphs toolsGraphs tools targetArch hostArch args
      (buildLists m targetArch hostArch args.notBuild tbl packages) := by
  have htd := buildTools_done m hostArch args.notBuild htl.nodup htl.all
  unfold buildLists
  rcases hrt : buildTools m hostArch args.notBuild tbl with ⟨toolsLog, e | ⟨info, package⟩⟩
  · rw [hrt] at htd
    refine orderly_of_tools ht htl htd nofun nofun fun e' he' => Or.inr ?_
    cases he'
    exact (htd.raised e rfl).2
  · rw [hrt] at htd
    by_cases hok : info = .ok
    · subst hok
      have hnodup : (remaining targetArch hostArch tbl packages).Nodup := by
        unfold remaining
        split
        · exact hchosen.nodup.filter _
        · exact hchosen.nodup
      have hall : buildAllTarget ∉ remaining targetArch hostArch tbl packages := fun hmem =>
        ((hchosen.mem _).mp (mem_of_remaining hmem)).1.1 rfl
      exact orderly_of_packages hp ht hchosen htl htd
        (doBuildPackages_done m targetArch args.notBuild hnodup hall)
    · -- when a tool fails, or their logs have no directory, no package is looked at
      have hlists : ∀ ending, (onHost package).map (fun package => (info, some package)) = ending →
          Orderly m packageGraphs toolsGraphs tools targetArch hostArch args
            ⟨toolsLog, [], ending⟩ := by
        rintro ending rfl
        rcases htd.failed info package rfl hok with ⟨-, rfl, -, hdir⟩ | ⟨t, -, rfl, hnot⟩
        · refine orderly_of_tools ht htl htd nofun nofun fun e he => Or.inl ?_
          cases he
          exact ⟨rfl, hdir⟩
        · refine orderly_of_tools ht htl htd (fun package hend => ?_)
            (fun info' package hend => ?_) nofun
          · cases hend
            exact hok rfl
          · cases hend
            exact ⟨t, rfl, hnot⟩
      cases info with
      | ok => exact absurd rfl hok
      | _ => exact hlists _ rfl

/-- A machine on which the tool `app` is built, and making the package `net` fails. -/
def brokenNet : Machine where
  canMakeLogDir _ := true
  prepare _ _ := none
  cmdType _ package := if package = "log" then some .make else some .cmake
  hasWorkPath _ package := package = "log"
  canMakeDirs _ _ := true
  visualStudio _ := false
  answer arch package stage :=
    if arch = "arm" ∧ package = "net" ∧ stage = .make then .exited 2 else .exited 0

end Main

end AraCore.BuildCentral
