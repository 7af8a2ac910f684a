/-
# Commands

`create_build_command` puts the commands together with which a package is configured, made, cleaned
and uninstalled.  All that is set reaches `cmake`, and a command is made exactly when the loop over
the packages expects one; but each command that is put together leaves its mark in the settings, and
a makefile is told of the last libraries only.
-/
import AraCore.BuildCentral.Build
import AraCore.BuildCentral.Settings

namespace AraCore.BuildCentral

open Lib

/-! ## Translation -/

/-- `stage` -/
inductive Phase where
  | build (stage : Stage)
  | clean
  | uninstall
deriving DecidableEq, Repr

/-- What `create_build_command` is told of the run, the package and the configuration. -/
structure Job where
  os : OsPath
  package : String
  arch : String
  debug : Bool
  verbose : Bool
  nrJobs : ℕ
  /-- the option, empty if there is none -/
  generator : String
  cmdType : CmdType
  projRoot : String
  external : String
  osType : String
  /-- `config['private'][arch]` -/
  privateArch : Private
  /-- what the variant defines, empty if nothing -/
  variantMacro : String
  extraMakeVar : List String
  stageDir : String
  path : String
  makeTarget : Option String
  /-- `shlex.split` raises no exception for the text. -/
  splits : String → Bool

/-- `add_definition` -/
def addDefinition (var value : String) : String := "-D" ++ var ++ "=" ++ value

/-- `[x] if b` -/
def optional (b : Bool) (x : String) : List String := if b then [x] else []

section Command

variable (j : Job)

/-- `get_generator_id` -/
def getGeneratorId : String :=
  let generator := if j.generator = "" then j.privateArch.text .cmakeGenerator else j.generator
  if generator = "" then
    if j.osType = "windows" ∧ (j.arch = j.osType ∨ j.arch = "rh850") then "nmake" else "eunix"
  else generator

/-- `check_generator` -/
def checkGenerator : Except PyError String :=
  match cmakeGenerator.lookup (getGeneratorId j) with
  | some generator => pure generator
  | none => throw .keyError

/-- The generator is one of Visual Studio. -/
def isVisualStudio (generator : String) : Bool :=
  "Visual Studio".toList <:+: generator.toList

/-- `make_tool` -/
def makeTool : List String := if getGeneratorId j = "nmake" then ["nmake"] else ["make"]

/-- `make_tool_with_job` -/
def makeToolWithJob : List String :=
  if getGeneratorId j = "nmake" then ["nmake"] else ["make", "-j", toString j.nrJobs]

/-- The texts that are passed to `cmake` under a name of its own. -/
def textDefinitions : List (Text × String) :=
  [(.toolchainRoot, "TOOL_ROOT"), (.compilerType, "COMPILER_TYPE"), (.targetArch, "TARGET_ARCH"),
    (.targetOs, "TARGET_OS"), (.archiver, "CMAKE_AR"), (.cFlags, "CMAKE_C_FLAGS"),
    (.asmCompiler, "CMAKE_ASM_COMPILER"), (.asmFlags, "CMAKE_ASM_FLAGS"),
    (.cxxFlags, "CMAKE_CXX_FLAGS"), (.releaseFlags, "REL_FLAGS"), (.debugFlags, "DBG_FLAGS")]

/-- The flags of the linker, with the name under which they are passed. -/
def linkerDefinitions : List (Text × String) :=
  [(.sharedLdFlags, "CMAKE_SHARED_LINKER_FLAGS"), (.exeLdFlags, "CMAKE_EXE_LINKER_FLAGS")]

/-- The lists of paths, with the name under which they are passed. -/
def pathDefinitions : List (Paths × String) :=
  [(.libSearchPath, "LIB_PATH"), (.headSearchPath, "INC_PATH")]

/-- `name=value`, or the name alone. -/
def macroEntry (e : String × String) : String := if e.2 ≠ "" then e.1 ++ "=" ++ e.2 else e.1

/-- `ld_flags` with the flags of shared libraries or of programs. -/
def linkerFlags (p : Private) (own : Text) : String :=
  if p.text own ≠ "" then p.text .ldFlags ++ " " ++ p.text own else p.text .ldFlags

/-- The parts of the command for `cmake`. -/
def cmakeParts (p : Private) (generator : String) : List (List String) :=
  let ruleDir := j.os.join [j.projRoot, "tools", "buildCentral", "rules"]
  let toolchainFile := p.text .toolchainFile
  [["cmake", addDefinition "PROJECT_ROOT" j.projRoot, addDefinition "RULE_DIR" ruleDir,
      addDefinition "EXTERNEL_INSTALL" (j.os.join [j.external, "external", "install"])],
    optional (j.arch ≠ j.osType) (addDefinition "CMAKE_TOOLCHAIN_FILE"
      (if toolchainFile = "" then j.os.join [ruleDir, "toolchain.cmake"] else toolchainFile)),
    [addDefinition "CMAKE_BUILD_TYPE" (if j.debug then "Debug" else "Release"), "-G", generator],
    (p.dict .makeVar).map fun e => "-D" ++ (e.1 ++ "=" ++ e.2),
    optional (p.dict .macroDefinition ≠ [])
      (addDefinition "MACRO_DEF" (";".intercalate ((p.dict .macroDefinition).map macroEntry))),
    optional (j.variantMacro ≠ "") (addDefinition "MACRO_VARIANT" j.variantMacro),
    textDefinitions.flatMap fun d => optional (p.text d.1 ≠ "") (addDefinition d.2 (p.text d.1)),
    linkerDefinitions.flatMap fun d =>
      optional (linkerFlags p d.1 ≠ "") (addDefinition d.2 (linkerFlags p d.1)),
    pathDefinitions.flatMap fun d =>
      optional (p.paths d.1 ≠ []) (addDefinition d.2 (";".intercalate (p.paths d.1))),
    [addDefinition "CMAKE_VERBOSE_MAKEFILE" (if j.verbose then "on" else "off")],
    optional (j.stageDir ≠ "") (addDefinition "CMAKE_INSTALL_PREFIX" j.stageDir),
    optional (p.paths .sysRoot ≠ [])
      (addDefinition "SYSTEM_ROOT" (";".intercalate (p.paths .sysRoot))),
    [addDefinition "PROJECT_ROOT" j.projRoot],
    j.extraMakeVar.map ("-D" ++ ·),
    [addDefinition "PACKAGE_NAME" j.package, j.path]]

/-- The command for a package that has a `CMakeLists.txt`. -/
def cmakePackageCommand (p : Private) (makeTarget : String) :
    Phase → Except PyError (List String)
  | .clean => pure (makeTool j ++ ["clean"])
  | .build .cmake => do
    let generator ← checkGenerator j
    pure (cmakeParts j p generator).flatten
  | .build .make => do
    let generator ← checkGenerator j
    pure (if isVisualStudio generator then []
      else makeToolWithJob j ++ optional (makeTarget ≠ "") makeTarget)
  | .uninstall => pure (makeTool j ++ ["uninstall"])

/-- `'-I' + path` or `'-L' + path` for each of the paths. -/
def pathOptions (flag : String) (paths : List String) : String :=
  " ".intercalate (paths.map fun path => flag ++ j.os.normpath (j.os.expanduser path))

/-- `cflags` and `cxxflags`, which differ in the last of their parts. -/
def compilerFlags (p : Private) (own : Text) : String :=
  let sysRoot := p.paths .sysRoot
  let flags := if sysRoot ≠ [] then
      " " ++ pathOptions j "-I" (sysRoot.map fun path => j.os.join [path, "include"]) ++
      " " ++ pathOptions j "-I" (sysRoot.map fun path => j.os.join [path, "usr", "include"])
    else ""
  let flags := if p.paths .headSearchPath ≠ [] then
      flags ++ " " ++ pathOptions j "-I" (p.paths .headSearchPath)
    else flags
  let flags := if p.dict .macroDefinition ≠ [] then
      flags ++ " " ++ " ".intercalate ((p.dict .macroDefinition).map fun e => "-D" ++ macroEntry e)
    else flags
  if p.text own ≠ "" then flags ++ " " ++ p.text own else flags

/-- `ldflags` -/
def ldflags (p : Private) : String :=
  let ldflags := ""
  let ldflags := if p.paths .sysRoot ≠ [] then
      -- what is put together first for `lib` is replaced
      " " ++ pathOptions j "-L" ((p.paths .sysRoot).map fun path => j.os.join [path, "usr", "lib"])
    else ldflags
  let ldflags := if p.paths .libSearchPath ≠ [] then
      " " ++ pathOptions j "-L" (p.paths .libSearchPath)
    else ldflags
  if p.text .ldFlags ≠ "" then ldflags ++ " " ++ p.text .ldFlags else ldflags

/-- The part of the command for a makefile that is the same for all stages. -/
def makefileVariables (p : Private) : List String :=
  let vars := (p.dict .makeVar).map (fun e => e.1 ++ "=" ++ e.2) ++ j.extraMakeVar
  optional (p.text .cCompiler ≠ "") ("CC=" ++ p.text .cCompiler) ++
    optional (p.text .cCompiler ≠ "") ("CXX=" ++ p.text .cxxCompiler) ++
    (if p.text .envSourceCmd = "" then
      optional (compilerFlags j p .cFlags ≠ "") ("CFLAGS=" ++ compilerFlags j p .cFlags) ++
        optional (compilerFlags j p .cxxFlags ≠ "") ("CXXFLAGS=" ++ compilerFlags j p .cxxFlags) ++
        optional (ldflags j p ≠ "") ("LDFLAGS=" ++ ldflags j p)
    else []) ++
    optional (vars ≠ []) (" ".intercalate vars)

/-- The command for a package that has a makefile; there is none for `cmake`. -/
def makePackageCommand (p : Private) (makeTarget : String) : Phase → Option (List String)
  | .clean => some (makeTool j ++ ["clean"] ++ makefileVariables j p)
  | .build .make => some (makeToolWithJob j ++ optional (makeTarget ≠ "") makeTarget ++
      optional (j.stageDir ≠ "") ("DESTDIR=" ++ j.stageDir) ++ makefileVariables j p)
  | .uninstall => some (makeTool j ++ ["uninstall"] ++ makefileVariables j p)
  | .build .cmake => none

/-- `shlex.split(' '.join(cmd))`, whose result is only printed. -/
def checkSplit (cmd : List String) : Except PyError (List String) :=
  if j.splits (" ".intercalate cmd) then pure cmd else throw .valueError

/-- The settings when the command is put together: `sys_root` is no copy. -/
def addStageRoot (p : Private) : Private :=
  if j.stageDir ≠ "" then p.apply (.extend .sysRoot [j.stageDir]) else p

/-- The compilers are passed in the environment. -/
def addCompilers (p : Private) : Private :=
  p.apply (.update .envVar
    [("C_COMPILER", p.text .cCompiler), ("CXX_COMPILER", p.text .cxxCompiler)])

/-- `create_build_command`: what becomes of the settings, and the command. -/
def createBuildCommand (phase : Phase) (p : Private) : Private × Except PyError (List String) :=
  let p := addStageRoot j p
  match j.makeTarget with
  | none => (p, throw .keyError)
  | some makeTarget =>
    match j.cmdType with
    | .cmake =>
      let p := addCompilers p
      (p, cmakePackageCommand j p makeTarget phase >>= checkSplit j)
    | .make =>
      match makePackageCommand j p makeTarget phase with
      | none => (p, pure [])
      | some cmd => (p, checkSplit j cmd)
    | .unknown => (p, checkSplit j [])

end Command

/-! ## The generator -/

variable {j : Job} {m : Machine} {p q : Private} {phase : Phase} {cmd : List String} {n : ℕ}

/-- The generator of the option and that of the architecture are known, if there are any. -/
structure Job.Known (j : Job) : Prop where
  option : j.generator = "" ∨ j.generator ∈ cmakeGenerator.map Prod.fst
  setting : j.privateArch.text .cmakeGenerator = "" ∨
    j.privateArch.text .cmakeGenerator ∈ cmakeGenerator.map Prod.fst

lemma Job.Known.generatorId (h : j.Known) : getGeneratorId j ∈ cmakeGenerator.map Prod.fst := by
  unfold getGeneratorId
  by_cases hopt : j.generator = ""
  · by_cases hset : j.privateArch.text .cmakeGenerator = ""
    · simp only [hopt, hset, if_true]
      split <;> decide
    · simpa only [hopt, hset, if_true, if_false] using h.setting.resolve_left hset
  · simpa only [hopt, if_false] using h.option.resolve_left hopt

/-- Whatever has been accepted, a generator is found. -/
lemma Job.Known.checkGenerator (h : j.Known) : ∃ generator, checkGenerator j = .ok generator := by
  unfold BuildCentral.checkGenerator
  cases hlookup : cmakeGenerator.lookup (getGeneratorId j) with
  | some generator => exact ⟨generator, rfl⟩
  | none =>
    obtain ⟨e, he, heq⟩ := List.mem_map.mp h.generatorId
    have hne := List.lookup_eq_none_iff.mp hlookup e he
    simp [heq] at hne

/-- The generator that is found is one of Visual Studio. -/
def usesVisualStudio (j : Job) : Bool :=
  match checkGenerator j with
  | .ok generator => isVisualStudio generator
  | .error _ => false

/-! ## The settings after some commands -/

/-- What is appended to `sys_root` while `n` commands are put together. -/
def stageRoots (j : Job) (n : ℕ) : List String :=
  if j.stageDir ≠ "" then List.replicate n j.stageDir else []

/-- The settings `p` after `n` commands. -/
structure After (j : Job) (p : Private) (n : ℕ) (q : Private) : Prop where
  text : q.text = p.text
  sysRoot : q.paths .sysRoot = p.paths .sysRoot ++ stageRoots j n
  search : ∀ path ≠ .sysRoot, q.paths path = p.paths path
  dict : ∀ d ≠ .envVar, q.dict d = p.dict d

lemma After.start (j : Job) (p : Private) : After j p 0 p :=
  ⟨rfl, by simp [stageRoots], fun _ _ => rfl, fun _ _ => rfl⟩

lemma After.addStageRoot (h : After j p n q) : After j p (n + 1) (addStageRoot j q) := by
  unfold BuildCentral.addStageRoot
  by_cases hdir : j.stageDir = ""
  · rw [if_neg (not_not.mpr hdir)]
    exact ⟨h.text, by simpa [stageRoots, hdir] using h.sysRoot, h.search, h.dict⟩
  · rw [if_pos hdir]
    refine ⟨h.text, ?_, fun path hpath => ?_, h.dict⟩
    · simp [Private.apply, h.sysRoot, stageRoots, hdir, List.replicate_succ']
    · simp [Private.apply, Function.update_of_ne hpath, h.search path hpath]

lemma After.addCompilers (h : After j p n q) : After j p n (addCompilers q) := by
  refine ⟨h.text, h.sysRoot, h.search, fun d hd => ?_⟩
  simp [BuildCentral.addCompilers, Private.apply, Function.update_of_ne hd, h.dict d hd]

/-- What is passed to `cmake` of the settings `p`, after `n` commands. -/
structure Passed (j : Job) (p : Private) (n : ℕ) (cmd : List String) : Prop where
  texts : ∀ d ∈ textDefinitions, p.text d.1 ≠ "" → addDefinition d.2 (p.text d.1) ∈ cmd
  linker : ∀ d ∈ linkerDefinitions, linkerFlags p d.1 ≠ "" →
    addDefinition d.2 (linkerFlags p d.1) ∈ cmd
  search : ∀ d ∈ pathDefinitions, p.paths d.1 ≠ [] →
    addDefinition d.2 (";".intercalate (p.paths d.1)) ∈ cmd
  vars : ∀ e ∈ p.dict .makeVar, "-D" ++ (e.1 ++ "=" ++ e.2) ∈ cmd
  macros : p.dict .macroDefinition ≠ [] →
    addDefinition "MACRO_DEF" (";".intercalate ((p.dict .macroDefinition).map macroEntry)) ∈ cmd
  /-- Every command has appended the directory for what is built. -/
  sysRoot : p.paths .sysRoot ++ stageRoots j (n + 1) ≠ [] → addDefinition "SYSTEM_ROOT"
    (";".intercalate (p.paths .sysRoot ++ stageRoots j (n + 1))) ∈ cmd

/-- What a command says if it is the one after `n` others, and the settings were `p` before them. -/
structure Told (j : Job) (p : Private) (n : ℕ) (phase : Phase) (cmd : List String) : Prop where
  passed : j.cmdType = .cmake → phase = .build .cmake → Passed j p n cmd
  /-- A makefile is told of no libraries but those of the search path, if there is one. -/
  ldflags : j.cmdType = .make → phase ≠ .build .cmake → p.text .envSourceCmd = "" →
    p.paths .libSearchPath ≠ [] →
      "LDFLAGS=" ++ (" " ++ pathOptions j "-L" (p.paths .libSearchPath) ++
        if p.text .ldFlags ≠ "" then " " ++ p.text .ldFlags else "") ∈ cmd
  /-- A command is made when the loop over the packages expects one. -/
  made : ∀ m : Machine, m.visualStudio j.arch = usesVisualStudio j → ∀ stage,
    phase = .build stage → (cmd ≠ [] ↔ hasCommand m j.arch j.cmdType stage = true)

lemma mem_optional {b : Bool} {x : String} (h : b = true) : x ∈ optional b x := by
  simp [optional, h]

lemma passed_cmakeParts (h : After j p (n + 1) q) (generator : String) :
    Passed j p n (cmakeParts j q generator).flatten := by
  -- `SYSTEM_ROOT` is added at each stage and has its own part of the command
  have hpaths : ∀ d ∈ pathDefinitions, d.1 ≠ .sysRoot := by decide
  refine ⟨fun d hd hne => ?_, fun d hd hne => ?_, fun d hd hne => ?_, fun e he => ?_,
    fun hne => ?_, fun hne => ?_⟩
  · have hpart : addDefinition d.2 (p.text d.1) ∈ textDefinitions.flatMap fun d =>
        optional (q.text d.1 ≠ "") (addDefinition d.2 (q.text d.1)) := by
      rw [h.text]
      exact List.mem_flatMap.mpr ⟨d, hd, mem_optional (decide_eq_true hne)⟩
    exact List.mem_flatten_of_mem (by simp [cmakeParts]) hpart
  · have hpart : addDefinition d.2 (linkerFlags p d.1) ∈ linkerDefinitions.flatMap fun d =>
        optional (linkerFlags q d.1 ≠ "") (addDefinition d.2 (linkerFlags q d.1)) := by
      have hflags : ∀ own, linkerFlags q own = linkerFlags p own := fun own => by
        rw [linkerFlags, linkerFlags, h.text]
      simp only [hflags]
      exact List.mem_flatMap.mpr ⟨d, hd, mem_optional (decide_eq_true hne)⟩
    exact List.mem_flatten_of_mem (by simp [cmakeParts]) hpart
  · have hpart : addDefinition d.2 (";".intercalate (p.paths d.1)) ∈
        pathDefinitions.flatMap fun d => optional (q.paths d.1 ≠ [])
          (addDefinition d.2 (";".intercalate (q.paths d.1))) := by
      rw [← h.search d.1 (hpaths d hd)] at hne ⊢
      exact List.mem_flatMap.mpr ⟨d, hd, mem_optional (decide_eq_true hne)⟩
    exact List.mem_flatten_of_mem (by simp [cmakeParts]) hpart
  · have hpart : "-D" ++ (e.1 ++ "=" ++ e.2) ∈
        (q.dict .makeVar).map fun e => "-D" ++ (e.1 ++ "=" ++ e.2) := by
      rw [h.dict .makeVar nofun]
      exact List.mem_map_of_mem he
    exact List.mem_flatten_of_mem (by simp [cmakeParts]) hpart
  · rw [← h.dict .macroDefinition nofun] at hne ⊢
    have hpart := mem_optional (x := addDefinition "MACRO_DEF"
      (";".intercalate ((q.dict .macroDefinition).map macroEntry))) (decide_eq_true hne)
    exact List.mem_flatten_of_mem (by simp [cmakeParts]) hpart
  · rw [← h.sysRoot] at hne ⊢
    have hpart := mem_optional (x := addDefinition "SYSTEM_ROOT"
      (";".intercalate (q.paths .sysRoot))) (decide_eq_true hne)
    exact List.mem_flatten_of_mem (by simp [cmakeParts]) hpart

lemma told_cmake (hj : j.cmdType = .cmake) (h : After j p (n + 1) q) {makeTarget : String}
    (hcmd : cmakePackageCommand j q makeTarget phase = .ok cmd) : Told j p n phase cmd := by
  have hnot : j.cmdType ≠ .make := by simp [hj]
  cases phase with
  -- nothing is promised of the other phases
  | clean | uninstall =>
    exact ⟨nofun, fun h => absurd h hnot, fun _ _ _ => nofun⟩
  | build stage =>
    cases hgen : checkGenerator j with
    | error e => cases stage <;> simp [cmakePackageCommand, hgen, bind, Except.bind] at hcmd
    | ok generator =>
      cases stage with
      | cmake =>
        simp only [cmakePackageCommand, hgen] at hcmd
        cases hcmd
        refine ⟨fun _ _ => passed_cmakeParts h generator, fun h => absurd h hnot,
          fun m _ stage hstage => ?_⟩
        cases hstage
        exact iff_of_true (by simp [cmakeParts]) (by simp [hasCommand, hj])
      | make =>
        simp only [cmakePackageCommand, hgen] at hcmd
        cases hcmd
        refine ⟨nofun, fun h => absurd h hnot, fun m hm stage hstage => ?_⟩
        cases hstage
        -- the machine knows the generator only by whether it is one of Visual Studio
        have hvs : usesVisualStudio j = isVisualStudio generator := by
          rw [usesVisualStudio, hgen]
        have htool : makeToolWithJob j ≠ [] := by
          unfold makeToolWithJob
          split <;> simp
        cases hg : isVisualStudio generator <;> simp [hasCommand, hj, hm, hvs, hg, htool]

lemma told_make (hj : j.cmdType = .make) (h : After j p (n + 1) q) {makeTarget : String}
    (hcmd : makePackageCommand j q makeTarget phase = some cmd) : Told j p n phase cmd := by
  have hnot : j.cmdType ≠ .cmake := by simp [hj]
  -- the variables are the same at all stages
  have hvars : ∀ x ∈ makefileVariables j q, x ∈ cmd := by
    intro x hx
    cases phase with
    | build stage =>
      cases stage with
      | cmake => cases hcmd
      | make =>
        cases hcmd
        exact List.mem_append_right _ hx
    | clean | uninstall =>
      cases hcmd
      exact List.mem_append_right _ hx
  refine ⟨fun h => absurd h hnot, fun _ _ hsource hne => hvars _ ?_, fun m _ stage hstage => ?_⟩
  · have hldflags : ldflags j q = " " ++ pathOptions j "-L" (p.paths .libSearchPath) ++
        if p.text .ldFlags ≠ "" then " " ++ p.text .ldFlags else "" := by
      unfold ldflags
      rw [h.search .libSearchPath nofun, h.text]
      by_cases hempty : p.text .ldFlags = ""
      · simp [hne, hempty]
      · simp [hne, hempty, String.append_assoc]
    have hset : ldflags j q ≠ "" := by
      rw [hldflags]
      simp
    rw [← hldflags]
    have hpart := mem_optional (x := "LDFLAGS=" ++ ldflags j q) (decide_eq_true hset)
    rw [← h.text] at hsource
    simp only [makefileVariables, if_pos hsource]
    exact List.mem_append_left _ (List.mem_append_right _ (List.mem_append_right _ hpart))
  · subst hstage
    cases stage with
    | cmake => cases hcmd
    | make =>
      cases hcmd
      refine iff_of_true ?_ (by simp [hasCommand, hj])
      unfold makeToolWithJob
      split <;> simp

lemma told_nil (hj : j.cmdType = .make ∧ phase = .build .cmake ∨ j.cmdType = .unknown) :
    Told j p n phase [] := by
  have hnot : j.cmdType ≠ .cmake := by rcases hj with ⟨hj, -⟩ | hj <;> simp [hj]
  refine ⟨fun h => absurd h hnot, fun h hphase => ?_,
    fun m _ stage hstage => iff_of_false (fun h => h rfl) ?_⟩
  · rcases hj with ⟨-, hj⟩ | hj
    · exact absurd hj hphase
    · exact nomatch hj.symm.trans h
  · rcases hj with ⟨hj, hphase⟩ | hj
    · cases hphase.symm.trans hstage
      simp [hasCommand, hj]
    · cases stage <;> simp [hasCommand, hj]

/-- The job if every text could be split. -/
def Job.unsplit (j : Job) : Job := { j with splits := fun _ => true }

/-- Why there may be no command: the package has no target, or what would be the command cannot be
split. -/
def Fails (j : Job) (r : Except PyError (List String)) (e : PyError) : Prop :=
  e = .keyError ∧ j.makeTarget = none ∨
    e = .valueError ∧ ∃ cmd, r = .ok cmd ∧ j.splits (" ".intercalate cmd) = false

lemma checkSplit_ok {cmd' : List String} (h : checkSplit j cmd = .ok cmd') : cmd' = cmd := by
  unfold checkSplit at h
  split at h
  · cases h
    rfl
  · cases h

lemma checkSplit_error {e : PyError} (h : checkSplit j cmd = .error e) :
    Fails j (checkSplit j.unsplit cmd) e := by
  unfold checkSplit at h
  split at h
  · cases h
  · next hsplit =>
    cases h
    exact Or.inr ⟨rfl, cmd, rfl, Bool.eq_false_iff.mpr hsplit⟩

/-! What is put together does not depend on what can be split. -/

lemma addStageRoot_unsplit (j : Job) (p : Private) : addStageRoot j.unsplit p = addStageRoot j p :=
  rfl

lemma cmakePackageCommand_unsplit (j : Job) (p : Private) (makeTarget : String) (phase : Phase) :
    cmakePackageCommand j.unsplit p makeTarget phase =
      cmakePackageCommand j p makeTarget phase := by
  cases phase with
  | build stage => cases stage <;> rfl
  | clean | uninstall => rfl

lemma makePackageCommand_unsplit (j : Job) (p : Private) (makeTarget : String) (phase : Phase) :
    makePackageCommand j.unsplit p makeTarget phase = makePackageCommand j p makeTarget phase := by
  cases phase with
  | build stage => cases stage <;> rfl
  | clean | uninstall => rfl

lemma createBuildCommand_unsplit (j : Job) (phase : Phase) (p : Private) :
    (createBuildCommand j.unsplit phase p).1 = (createBuildCommand j phase p).1 := by
  unfold createBuildCommand
  rw [addStageRoot_unsplit, show j.unsplit.makeTarget = j.makeTarget from rfl,
    show j.unsplit.cmdType = j.cmdType from rfl]
  cases j.makeTarget with
  | none => rfl
  | some makeTarget =>
    cases j.cmdType with
    | cmake | unknown => rfl
    | make =>
      dsimp only
      rw [makePackageCommand_unsplit]
      cases makePackageCommand j (addStageRoot j p) makeTarget phase <;> rfl

lemma cmakePackageCommand_ok (hj : j.Known) (p : Private) (makeTarget : String) (phase : Phase) :
    ∃ cmd, cmakePackageCommand j p makeTarget phase = .ok cmd := by
  obtain ⟨generator, hgen⟩ := hj.checkGenerator
  cases phase with
  | build stage =>
    cases stage <;> exact ⟨_, by rw [cmakePackageCommand, hgen]; rfl⟩
  | clean | uninstall => exact ⟨_, rfl⟩

/-- One command. -/
lemma createBuildCommand_spec (hj : j.Known) (h : After j p n q) (phase : Phase) :
    After j p (n + 1) (createBuildCommand j phase q).1 ∧
      (∀ cmd, (createBuildCommand j phase q).2 = .ok cmd → Told j p n phase cmd) ∧
      ∀ e, (createBuildCommand j phase q).2 = .error e →
        Fails j (createBuildCommand j.unsplit phase q).2 e := by
  have hroot := h.addStageRoot
  unfold createBuildCommand
  rw [addStageRoot_unsplit, show j.unsplit.makeTarget = j.makeTarget from rfl,
    show j.unsplit.cmdType = j.cmdType from rfl]
  cases htarget : j.makeTarget with
  -- the target is missing: the code fails before a command is made
  | none => exact ⟨hroot, nofun, fun e he => by cases he; exact Or.inl ⟨rfl, htarget⟩⟩
  | some makeTarget =>
    cases hcmdType : j.cmdType with
    | cmake =>
      have hcompilers := hroot.addCompilers
      obtain ⟨cmd', hcmd'⟩ := cmakePackageCommand_ok hj
        (addCompilers (addStageRoot j q)) makeTarget phase
      refine ⟨hcompilers, fun cmd hcmd => ?_, fun e he => ?_⟩
      · obtain ⟨cmd'', hcmd'', hsplit⟩ := bind_ok hcmd
        cases checkSplit_ok hsplit
        exact told_cmake hcmdType hcompilers hcmd''
      · dsimp only at he ⊢
        rw [cmakePackageCommand_unsplit, hcmd']
        rw [hcmd'] at he
        exact checkSplit_error he
    | make =>
      dsimp only
      rw [makePackageCommand_unsplit]
      cases hcmd' : makePackageCommand j (addStageRoot j q) makeTarget phase with
      | none =>
        -- a `make` package has nothing to do at the stage `cmake`
        have hphase : phase = .build .cmake := by
          cases phase with
          | build stage =>
            cases stage with
            | cmake => rfl
            | make => cases hcmd'
          | clean | uninstall => cases hcmd'
        refine ⟨hroot, fun cmd hcmd => ?_, nofun⟩
        cases hcmd
        exact told_nil (Or.inl ⟨hcmdType, hphase⟩)
      | some cmd' =>
        refine ⟨hroot, fun cmd hcmd => ?_, fun e he => checkSplit_error he⟩
        cases checkSplit_ok hcmd
        exact told_make hcmdType hroot hcmd'
    | unknown =>
      refine ⟨hroot, fun cmd hcmd => ?_, fun e he => checkSplit_error he⟩
      cases checkSplit_ok hcmd
      exact told_nil (Or.inr hcmdType)

/-! ## All commands of a package -/

/-- The commands for a package, one after the other. -/
def createBuildCommands (j : Job) : List Phase → Private → List (Except PyError (List String))
  | [], _ => []
  | phase :: phases, p =>
    let (p, cmd) := createBuildCommand j phase p
    cmd :: createBuildCommands j phases p

lemma createBuildCommands_spec (hj : j.Known) (h : After j p n q) (phases : List Phase) {i : ℕ}
    (hphase : phases[i]? = some phase) :
    ∃ r r', (createBuildCommands j phases q)[i]? = some r ∧
      (createBuildCommands j.unsplit phases q)[i]? = some r' ∧
      (∀ cmd, r = .ok cmd → Told j p (n + i) phase cmd) ∧ ∀ e, r = .error e → Fails j r' e := by
  induction phases generalizing n q i with
  | nil => cases hphase
  | cons phase' phases ih =>
    obtain ⟨hafter, hok, herror⟩ := createBuildCommand_spec hj h phase'
    cases i with
    | zero =>
      cases hphase
      exact ⟨_, _, rfl, rfl, hok, herror⟩
    | succ i =>
      obtain ⟨r, r', hr, hr', htold, hfails⟩ := ih hafter hphase
      rw [Nat.add_assoc, Nat.add_comm 1] at htold
      rw [← createBuildCommand_unsplit] at hr'
      exact ⟨r, r', hr, hr', htold, hfails⟩

variable {os : OsPath} {targetList : List String} {files : List (String × CfgFile)}
  {config : String → Private}

/-- A package with a makefile. -/
def sampleJob : Job where
  os := samplePath
  package := "log"
  arch := "arm"
  debug := false
  verbose := false
  nrJobs := 4
  generator := ""
  cmdType := .make
  projRoot := "/src"
  external := "/"
  osType := "linux"
  privateArch := sampleConfig "arm"
  variantMacro := ""
  extraMakeVar := []
  stageDir := "/stage"
  path := "/src/log"
  makeTarget := some "install"
  splits _ := true

end AraCore.BuildCentral
