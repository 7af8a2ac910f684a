/-
# Settings

The settings of an architecture are read from three files, one after the other, and those of a
package are added to a copy.  Some settings take the place of the earlier one, others are added to
it; whichever way, a setting depends on nothing but what the files say of it, in their order, and
for the environment on what the shell prints after the command that they name.
-/
import AraCore.BuildCentral.Config

namespace AraCore.BuildCentral

open Lib

/-! ## Translation -/

/-- A dictionary of texts. -/
abbrev Table := List (String × String)

/-- `d[key] = value` -/
def Table.set (d : Table) (e : String × String) : Table :=
  if e.1 ∈ d.map Prod.fst then d.map fun e' => if e'.1 = e.1 then e else e' else d ++ [e]

/-- `d.update(d')` -/
def Table.update (d d' : Table) : Table := d'.foldl set d

/-- The settings that are texts. -/
inductive Text where
  | toolchainRoot | cCompiler | cxxCompiler | asmCompiler | archiver | toolchainFile
  | compilerType | targetArch | targetOs | cmakeGenerator
  | cFlags | cxxFlags | asmFlags | releaseFlags | debugFlags
  | sharedLdFlags | exeLdFlags | ldFlags | stageDir | envSourceCmd
deriving DecidableEq, Repr

/-- The settings that are lists of paths. -/
inductive Paths where
  | sysRoot | libSearchPath | headSearchPath
deriving DecidableEq, Repr

/-- The settings that are dictionaries. -/
inductive Dict where
  | macroDefinition | makeVar | envVar
deriving DecidableEq, Repr

/-- `config['private'][arch]` -/
structure Private where
  text : Text → String
  paths : Paths → List String
  dict : Dict → Table

/-- What `init_private_config` makes for an architecture. -/
def initPrivate : Private := ⟨fun _ => "", fun _ => [], fun _ => []⟩

/-- What the code uses of `os.path`. -/
structure OsPath where
  expanduser : String → String
  normpath : String → String
  join : List String → String

/-- `cmake_generator` -/
def cmakeGenerator : Table :=
  [("vs16", "Visual Studio 16 2019"), ("vs15", "Visual Studio 15 2017"),
    ("vs14", "Visual Studio 14 2015"), ("vs12", "Visual Studio 12 2013"),
    ("vs11", "Visual Studio 11 2012"), ("vs10", "Visual Studio 10 2010"),
    ("vs9", "Visual Studio 9 2008"), ("nmake", "NMake Makefiles"), ("gh", "Green Hills MULTI"),
    ("mingw", "MinGW Makefiles"), ("unix", "Unix Makefiles"),
    ("emingw", "Eclipse CDT4 - MinGW Makefiles"), ("enmake", "Eclipse CDT4 - NMake Makefiles"),
    ("eunix", "Eclipse CDT4 - Unix Makefiles")]

/-- A key of a configuration with its value; `other` are the keys that `import_configs` does not
look for. -/
inductive Item where
  | toolchain (v : String) | toolchainCc (v : String) | toolchainCxx (v : String)
  | toolchainAsm (v : String) | toolchainAr (v : String) | sysroot (v : List String)
  | compilerType (v : String) | targetArch (v : String) | targetOs (v : String)
  | toolchainFile (v : String) | stageDir (v : String) | cmakeGenerator (v : String)
  | envSourceCmd (v : String) | macroDef (v : Table) | makeVar (v : Table)
  | cFlags (v : String) | cxxFlags (v : String) | asmFlags (v : String) | relFlags (v : String)
  | dbgFlags (v : String) | shaLdFlags (v : String) | exeLdFlags (v : String)
  | otherLibPath (v : List String) | otherIncPath (v : List String) | ldFlags (v : String)
  | envVar (v : Table) | other (key : String)

/-- What a branch of `import_configs` does. -/
inductive Change where
  /-- `dst[...] = v` -/
  | assign (t : Text) (v : String)
  /-- `dst[...] += v + ' '` -/
  | append (t : Text) (v : String)
  | assignPaths (p : Paths) (v : List String)
  /-- `dst[...] += v` -/
  | extend (p : Paths) (v : List String)
  | update (d : Dict) (v : Table)
  | skip

/-- The effect of a branch. -/
def Private.apply (dst : Private) : Change → Private
  | .assign t v => { dst with text := Function.update dst.text t v }
  | .append t v => { dst with text := Function.update dst.text t (dst.text t ++ (v ++ " ")) }
  | .assignPaths p v => { dst with paths := Function.update dst.paths p v }
  | .extend p v => { dst with paths := Function.update dst.paths p (dst.paths p ++ v) }
  | .update d v => { dst with dict := Function.update dst.dict d ((dst.dict d).update v) }
  | .skip => dst

section Import

variable (os : OsPath)

/-- The branches of `import_configs`. -/
def Item.change : Item → Change
  | toolchain v => .assign .toolchainRoot (os.normpath (os.expanduser v))
  | toolchainCc v => .assign .cCompiler (os.expanduser v)
  | toolchainCxx v => .assign .cxxCompiler (os.expanduser v)
  | toolchainAsm v => .assign .asmCompiler (os.expanduser v)
  | toolchainAr v => .assign .archiver (os.expanduser v)
  | sysroot v => .assignPaths .sysRoot (v.map fun x => os.normpath (os.expanduser x))
  | compilerType v => .assign .compilerType v
  | targetArch v => .assign .targetArch v
  | targetOs v => .assign .targetOs v
  | toolchainFile v => .assign .toolchainFile v
  | stageDir v => .assign .stageDir v
  | cmakeGenerator v => .assign .cmakeGenerator v
  | envSourceCmd v => .assign .envSourceCmd v
  | macroDef v => .update .macroDefinition v
  | makeVar v => .update .makeVar v
  | cFlags v => .append .cFlags v
  | cxxFlags v => .append .cxxFlags v
  | asmFlags v => .append .asmFlags v
  | relFlags v => .append .releaseFlags v
  | dbgFlags v => .append .debugFlags v
  | shaLdFlags v => .append .sharedLdFlags v
  | exeLdFlags v => .append .exeLdFlags v
  | otherLibPath v => .extend .libSearchPath (v.map fun x => os.normpath (os.expanduser x))
  | otherIncPath v => .extend .headSearchPath (v.map fun x => os.normpath (os.expanduser x))
  | ldFlags v => .append .ldFlags v
  | envVar v => .update .envVar v
  | other _ => .skip

/-- The check of the branch for `CMAKE_GENERATOR`. -/
def Item.unknownGenerator : Item → Option String
  | cmakeGenerator v => if v ∈ BuildCentral.cmakeGenerator.map Prod.fst then none else some v
  | _ => none

/-- `import_configs`: what becomes of `dst`, and the text of the error. -/
def importConfigs (dst : Private) : List Item → Private × Option String
  | [] => (dst, none)
  | item :: src =>
    match item.unknownGenerator with
    | some generator => (dst, some ("unknown generator " ++ generator ++ "!"))
    | none => importConfigs (dst.apply (item.change os)) src

/-- The content of a file: the items of each architecture that it names. -/
abbrev PrivateFile := List (String × List Item)

/-- What is found of a file: it may be missing, be no JSON, or have a placeholder that nothing takes
the place of. -/
inductive CfgFile where
  | missing
  | notJson (reason : String)
  | placeholder
  | parsed (privateCfg : PrivateFile)

/-- The body of the loop of `do_import_private_config`. -/
def importArch (targetList : List String) (config : String → Private)
    (e : String × List Item) : Except Failure (String → Private) :=
  if e.1 ∈ targetList then
    match importConfigs os (config e.1) e.2 with
    | (_, some info) => throw (.ret info)
    | (cfg, none) =>
      if cfg.text .targetArch = "" then
        throw (.ret ("TARGET_ARCH is not defined for " ++ e.1 ++ "!"))
      else if cfg.text .targetOs = "" then
        throw (.ret ("TARGET_OS is not defined for " ++ e.1 ++ "!"))
      else pure (Function.update config e.1 cfg)
  else pure config

/-- `do_import_private_config`, for the name of a file and what is found of it. -/
def doImportPrivateConfig (targetList : List String) (config : String → Private)
    (cfgFile : String × CfgFile) : Except Failure (String → Private) :=
  match cfgFile.2 with
  | .missing => pure config
  | .notJson reason =>
    throw (.ret (reason ++ ": Config file " ++ cfgFile.1 ++ " is not in json format!"))
  | .placeholder => throw (.raised .keyError)
  | .parsed privateCfg => privateCfg.foldlM (importArch os targetList) config

/-- `import_private_config`, for the three files. -/
def importPrivateConfig (targetList : List String) (files : List (String × CfgFile)) :
    Except Failure (String → Private) :=
  files.foldlM (doImportPrivateConfig os targetList) fun _ => initPrivate

/-- `load_env_from_source_file`, where `sourced` is what the shell prints after a command. -/
def loadEnvFromSourceFile (sourced : String → Table) (sourceFile : String) : Table :=
  if sourceFile = "" then [] else sourced sourceFile

/-- The settings of a package: those of the architecture, and what `PACKAGES` and
`PACKAGES-PER-ARCH` say of the package.  That a generator is unknown is not looked at here. -/
def packageConfig (sourced : String → Table) (config : Private) (package perArch : List Item) :
    Private :=
  let cfg := (importConfigs os (importConfigs os config package).1 perArch).1
  cfg.apply (.update .envVar (loadEnvFromSourceFile sourced (cfg.text .envSourceCmd)))

end Import

/-! ## What a setting depends on -/

/-- The setting is added to, and does not take the place of the earlier one. -/
def Text.accumulates : Text → Bool
  | .cFlags | .cxxFlags | .asmFlags | .releaseFlags | .debugFlags | .sharedLdFlags | .exeLdFlags
  | .ldFlags => true
  | _ => false

namespace Change

/-- What the change says of a text. -/
def text? (t : Text) : Change → Option String
  | assign t' v | append t' v => if t' = t then some v else none
  | _ => none

/-- What the change says of a list of paths. -/
def paths? (p : Paths) : Change → Option (List String)
  | assignPaths p' v | extend p' v => if p' = p then some v else none
  | _ => none

/-- What the change says of a dictionary. -/
def dict? (d : Dict) : Change → Option Table
  | update d' v => if d' = d then some v else none
  | _ => none

/-- The change is of the kind that its setting is made for. -/
def Proper : Change → Prop
  | assign t _ => t.accumulates = false
  | append t _ => t.accumulates = true
  | assignPaths p _ => p = .sysRoot
  | extend p _ => p ≠ .sysRoot
  | update _ _ | skip => True

end Change

/-- What a dictionary says last of the key. -/
def Table.last (key : String) (v : Table) : Option String :=
  (v.filterMap fun e => if e.1 = key then some e.2 else none).getLast?

/-- The settings `c` are what the changes say, beginning with `c₀`. -/
structure Layered (l : List Change) (c₀ c : Private) : Prop where
  /-- What is said last counts, -/
  text : ∀ t, t.accumulates = false →
    c.text t = (l.filterMap (Change.text? t)).getLast?.getD (c₀.text t)
  /-- and for flags all that is said, in this order. -/
  flags : ∀ t, t.accumulates = true →
    c.text t = c₀.text t ++ String.join ((l.filterMap (Change.text? t)).map (· ++ " "))
  sysRoot : c.paths .sysRoot =
    (l.filterMap (Change.paths? .sysRoot)).getLast?.getD (c₀.paths .sysRoot)
  search : ∀ p ≠ .sysRoot, c.paths p = c₀.paths p ++ (l.filterMap (Change.paths? p)).flatten
  dict : ∀ d key, (c.dict d).lookup key =
    (Table.last key (l.filterMap (Change.dict? d)).flatten).or ((c₀.dict d).lookup key)

variable {os : OsPath} {l : List Change} {c₀ c : Private} {items : List Item}

lemma Item.change_proper (i : Item) : (i.change os).Proper := by
  cases i <;> simp [Item.change, Change.Proper, Text.accumulates]

namespace Table

variable {d v : Table} {e : String × String} {key : String}

lemma lookup_replace_of_ne (h : e.1 ≠ key) :
    (d.map fun e' => if e'.1 = e.1 then e else e').lookup key = d.lookup key := by
  induction d with
  | nil => rfl
  | cons a d ih =>
    rw [List.map_cons, List.lookup_cons, List.lookup_cons, ih]
    by_cases ha : a.1 = e.1
    · have hne : (key == e.1) = false := beq_eq_false_iff_ne.mpr (Ne.symm h)
      rw [if_pos ha, ha, hne]
    · rw [if_neg ha]

lemma lookup_replace (h : e.1 ∈ d.map Prod.fst) :
    (d.map fun e' => if e'.1 = e.1 then e else e').lookup e.1 = some e.2 := by
  induction d with
  | nil => cases h
  | cons a d ih =>
    rw [List.map_cons, List.lookup_cons]
    by_cases ha : a.1 = e.1
    · simp [ha]
    · have hne : (e.1 == a.1) = false := beq_eq_false_iff_ne.mpr (Ne.symm ha)
      rw [if_neg ha, hne]
      exact ih ((List.mem_cons.mp h).resolve_left (Ne.symm ha))

lemma lookup_set (d : Table) (e : String × String) (key : String) :
    (d.set e).lookup key = if e.1 = key then some e.2 else d.lookup key := by
  unfold set
  by_cases hmem : e.1 ∈ d.map Prod.fst
  · rw [if_pos hmem]
    split
    · next hkey => exact hkey ▸ lookup_replace hmem
    · next hkey => exact lookup_replace_of_ne hkey
  · rw [if_neg hmem, List.lookup_append]
    split
    · next hkey =>
      subst hkey
      have hnone : d.lookup e.1 = none := by
        rw [List.lookup_eq_none_iff]
        intro a ha
        refine bne_iff_ne.mpr fun heq => hmem ?_
        rw [heq]
        exact List.mem_map_of_mem ha
      rw [hnone, Option.none_or, List.lookup_cons_self]
    · next hkey =>
      have hne : (key == e.1) = false := beq_eq_false_iff_ne.mpr (Ne.symm hkey)
      rw [List.lookup_cons, hne, List.lookup_nil, Option.or_none]

lemma last_append (l l' : Table) : last key (l ++ l') = (last key l').or (last key l) := by
  rw [last, List.filterMap_append, List.getLast?_append]
  rfl

/-- What a dictionary says last of a key is found in what is updated with it. -/
lemma lookup_update (d v : Table) (key : String) :
    (d.update v).lookup key = (last key v).or (d.lookup key) := by
  induction v generalizing d with
  | nil => rfl
  | cons e v ih =>
    rw [update, List.foldl_cons, ← update, ih, lookup_set, ← List.singleton_append, last_append,
      Option.or_assoc]
    congr 1
    by_cases hkey : e.1 = key <;> simp [last, hkey]

end Table

lemma Private.apply_text (c : Private) {ch : Change} (h : ch.Proper) (t : Text) :
    (c.apply ch).text t = match ch.text? t with
      | none => c.text t
      | some v => if t.accumulates then c.text t ++ (v ++ " ") else v := by
  cases ch with
  | assign t' v =>
    rw [Private.apply, Change.text?]
    by_cases ht : t' = t
    · subst ht
      simp [show t'.accumulates = false from h]
    · simp [ht, Function.update_of_ne (Ne.symm ht)]
  | append t' v =>
    rw [Private.apply, Change.text?]
    by_cases ht : t' = t
    · subst ht
      simp [show t'.accumulates = true from h]
    · simp [ht, Function.update_of_ne (Ne.symm ht)]
  | _ => rfl

lemma Private.apply_paths (c : Private) {ch : Change} (h : ch.Proper) (p : Paths) :
    (c.apply ch).paths p = match ch.paths? p with
      | none => c.paths p
      | some v => if p = .sysRoot then v else c.paths p ++ v := by
  cases ch with
  | assignPaths p' v =>
    rw [Private.apply, Change.paths?]
    by_cases hp : p' = p
    · subst hp
      simp [show p' = .sysRoot from h]
    · simp [hp, Function.update_of_ne (Ne.symm hp)]
  | extend p' v =>
    rw [Private.apply, Change.paths?]
    by_cases hp : p' = p
    · subst hp
      simp [show p' ≠ .sysRoot from h]
    · simp [hp, Function.update_of_ne (Ne.symm hp)]
  | _ => rfl

lemma Private.apply_dict (c : Private) (ch : Change) (d : Dict) :
    (c.apply ch).dict d = match ch.dict? d with
      | none => c.dict d
      | some v => (c.dict d).update v := by
  cases ch with
  | update d' v =>
    rw [Private.apply, Change.dict?]
    by_cases hd : d' = d
    · subst hd
      simp
    · simp [hd, Function.update_of_ne (Ne.symm hd)]
  | _ => rfl

lemma Layered.nil : Layered [] c c :=
  ⟨fun _ _ => rfl, fun _ _ => by simp, rfl, fun _ _ => by simp, fun _ _ => rfl⟩

/-- One more change. -/
lemma Layered.snoc (h : Layered l c₀ c) {ch : Change} (hch : ch.Proper) :
    Layered (l ++ [ch]) c₀ (c.apply ch) := by
  refine ⟨fun t ht => ?_, fun t ht => ?_, ?_, fun p hp => ?_, fun d key => ?_⟩
  · rw [c.apply_text hch, h.text t ht, List.filterMap_append]
    cases hv : ch.text? t <;> simp [hv, ht]
  · rw [c.apply_text hch, h.flags t ht, List.filterMap_append]
    cases hv : ch.text? t <;> simp [hv, ht, String.append_assoc]
  · rw [c.apply_paths hch, h.sysRoot, List.filterMap_append]
    cases hv : ch.paths? .sysRoot <;> simp [hv]
  · rw [c.apply_paths hch, h.search p hp, List.filterMap_append]
    cases hv : ch.paths? p <;> simp [hv, hp]
  · rw [c.apply_dict, List.filterMap_append]
    cases hv : ch.dict? d with
    | none => simpa [hv] using h.dict d key
    | some v =>
      rw [List.filterMap_cons_some hv, List.filterMap_nil, List.flatten_append,
        List.flatten_singleton, Table.last_append, Table.lookup_update, h.dict, Option.or_assoc]

lemma Layered.append {l' : List Change} (h : Layered l c₀ c) (hl' : ∀ ch ∈ l', ch.Proper) :
    Layered (l ++ l') c₀ (l'.foldl Private.apply c) := by
  induction l' generalizing l c with
  | nil => simpa using h
  | cons ch l' ih =>
    rw [List.append_cons]
    exact ih (h.snoc (hl' ch List.mem_cons_self)) fun x hx => hl' x (List.mem_cons_of_mem _ hx)

/-! ## Importing -/

/-- The items that are imported: those before a generator that is unknown. -/
def imported (src : List Item) : List Item := src.takeWhile fun i => i.unknownGenerator.isNone

lemma importConfigs_fst (os : OsPath) (dst : Private) (src : List Item) :
    (importConfigs os dst src).1 =
      ((imported src).map (Item.change os)).foldl Private.apply dst := by
  induction src generalizing dst with
  | nil => rfl
  | cons i src ih =>
    rw [importConfigs, imported, List.takeWhile_cons]
    cases hi : i.unknownGenerator with
    | some generator => rfl
    | none => exact ih _

lemma importConfigs_snd (os : OsPath) (dst : Private) (src : List Item) :
    (importConfigs os dst src).2 = none ↔ ∀ i ∈ src, i.unknownGenerator = none := by
  induction src generalizing dst with
  | nil => exact iff_of_true rfl nofun
  | cons i src ih =>
    rw [importConfigs, List.forall_mem_cons]
    cases hi : i.unknownGenerator with
    | some generator => exact iff_of_false nofun fun h => nomatch h.1
    | none => exact (ih _).trans (and_iff_right rfl).symm

lemma imported_eq_self {src : List Item} (h : ∀ i ∈ src, i.unknownGenerator = none) :
    imported src = src := by
  rw [imported, List.takeWhile_eq_self_iff]
  exact fun i hi => by rw [h i hi]; rfl

lemma known_of_imported {src : List Item} {i : Item} (h : i ∈ imported src) :
    i.unknownGenerator = none := by
  have hnone := List.mem_takeWhile_imp h
  exact Option.isNone_iff_eq_none.mp hnone

/-- The items of some more settings. -/
lemma Layered.importConfigs (h : Layered (items.map (Item.change os)) c₀ c) (src : List Item) :
    Layered ((items ++ imported src).map (Item.change os)) c₀ (importConfigs os c src).1 := by
  rw [importConfigs_fst, List.map_append]
  refine h.append fun ch hch => ?_
  obtain ⟨i, -, rfl⟩ := List.mem_map.mp hch
  exact i.change_proper

/-- What a file says. -/
def CfgFile.entries : CfgFile → PrivateFile
  | parsed privateCfg => privateCfg
  | _ => []

/-- A file may be missing, but what is there is JSON. -/
def CfgFile.Readable : CfgFile → Prop
  | missing | parsed _ => True
  | notJson _ | placeholder => False

/-- What the files say, one after the other. -/
def entries (files : List (String × CfgFile)) : PrivateFile := files.flatMap fun f => f.2.entries

/-- What is said of an architecture. -/
def itemsOf (arch : String) (l : PrivateFile) : List Item :=
  l.flatMap fun e => if e.1 = arch then e.2 else []

/-- What is said last of a text. -/
def said (os : OsPath) (t : Text) (items : List Item) : String :=
  ((items.map (Item.change os)).filterMap (Change.text? t)).getLast?.getD ""

/-- All that is said of a package, and what the shell prints after the command that is named. -/
def saidOf (os : OsPath) (sourced : String → Table) (items : List Item) : List Change :=
  items.map (Item.change os) ++
    [.update .envVar (loadEnvFromSourceFile sourced (said os .envSourceCmd items))]

/-- After what has been said in `l`, the entry `e` is accepted. -/
structure Acceptable (os : OsPath) (l : PrivateFile) (e : String × List Item) : Prop where
  generator : ∀ i ∈ e.2, i.unknownGenerator = none
  targetArch : said os .targetArch (itemsOf e.1 (l ++ [e])) ≠ ""
  targetOs : said os .targetOs (itemsOf e.1 (l ++ [e])) ≠ ""

/-- The settings of all architectures are what has been said of them. -/
def Imported (os : OsPath) (targetList : List String) (l : PrivateFile)
    (config : String → Private) : Prop :=
  ∀ arch ∈ targetList, Layered ((itemsOf arch l).map (Item.change os)) initPrivate (config arch)

variable {targetList : List String} {config config' : String → Private} {pre es : PrivateFile}
  {e : String × List Item} {files : List (String × CfgFile)} {sourced : String → Table}

lemma itemsOf_snoc (arch : String) (pre : PrivateFile) (e : String × List Item) :
    itemsOf arch (pre ++ [e]) = itemsOf arch pre ++ if e.1 = arch then e.2 else [] := by
  rw [itemsOf, List.flatMap_append, List.flatMap_singleton]
  rfl

lemma Imported.start (os : OsPath) (targetList : List String) :
    Imported os targetList [] fun _ => initPrivate :=
  fun _ _ => .nil

/-- An entry is imported into the settings of its architecture. -/
lemma Imported.update (h : Imported os targetList pre config)
    (he : Layered ((itemsOf e.1 (pre ++ [e])).map (Item.change os)) initPrivate c) :
    Imported os targetList (pre ++ [e]) (Function.update config e.1 c) := by
  intro arch harch
  by_cases hne : arch = e.1
  · subst hne
    rwa [Function.update_self]
  · rw [Function.update_of_ne hne, itemsOf_snoc, if_neg (Ne.symm hne), List.append_nil]
    exact h arch harch

/-- One entry of a file. -/
lemma importArch_spec (h : Imported os targetList pre config) (e : String × List Item) :
    ((∃ config', importArch os targetList config e = .ok config') ↔
      (e.1 ∈ targetList → Acceptable os pre e)) ∧
      ∀ config', importArch os targetList config e = .ok config' →
        Imported os targetList (pre ++ [e]) config' := by
  unfold importArch
  by_cases he : e.1 ∈ targetList
  · rw [if_pos he]
    have hitems : itemsOf e.1 (pre ++ [e]) = itemsOf e.1 pre ++ e.2 := by
      rw [itemsOf_snoc, if_pos rfl]
    have hsnd := importConfigs_snd os (config e.1) e.2
    have hlayered := (h e.1 he).importConfigs e.2
    rcases hcfg : importConfigs os (config e.1) e.2 with ⟨cfg, _ | info⟩
    · rw [hcfg] at hsnd hlayered
      have hknown := hsnd.mp rfl
      rw [imported_eq_self hknown, ← hitems] at hlayered
      have harch : cfg.text .targetArch = said os .targetArch (itemsOf e.1 (pre ++ [e])) :=
        hlayered.text _ rfl
      have hos : cfg.text .targetOs = said os .targetOs (itemsOf e.1 (pre ++ [e])) :=
        hlayered.text _ rfl
      dsimp only
      split
      · next hempty =>
        refine ⟨iff_of_false nofun fun hacc => ?_, nofun⟩
        exact (hacc he).targetArch (harch ▸ hempty)
      · next harch' =>
        split
        · next hempty =>
          refine ⟨iff_of_false nofun fun hacc => ?_, nofun⟩
          exact (hacc he).targetOs (hos ▸ hempty)
        · next hos' =>
          refine ⟨iff_of_true ⟨_, rfl⟩ fun _ => ⟨hknown, harch ▸ harch', hos ▸ hos'⟩, ?_⟩
          rintro config' hok
          cases hok
          exact h.update hlayered
    · -- the import has ended at a generator that is unknown
      rw [hcfg] at hsnd
      refine ⟨iff_of_false nofun fun hacc => ?_, nofun⟩
      exact nomatch hsnd.mpr (hacc he).generator
  · -- the architecture is not one of the targets: the entry is skipped
    rw [if_neg he]
    refine ⟨iff_of_true ⟨_, rfl⟩ fun h => absurd h he, ?_⟩
    rintro config' hok arch harch
    cases hok
    rw [itemsOf_snoc, if_neg fun heq : e.1 = arch => he (heq ▸ harch), List.append_nil]
    exact h arch harch

/-- All entries. -/
lemma importArchs_spec (h : Imported os targetList pre config) (es : PrivateFile) :
    ((∃ config', es.foldlM (importArch os targetList) config = .ok config') ↔
      ∀ l e l', es = l ++ e :: l' → e.1 ∈ targetList → Acceptable os (pre ++ l) e) ∧
      ∀ config', es.foldlM (importArch os targetList) config = .ok config' →
        Imported os targetList (pre ++ es) config' := by
  induction es generalizing pre config with
  | nil =>
    refine ⟨iff_of_true ⟨config, rfl⟩ fun l e l' heq => ?_, ?_⟩
    · cases l <;> cases heq
    · rintro config' hok
      cases hok
      rwa [List.append_nil]
  | cons e es ih =>
    obtain ⟨hok, hnext⟩ := importArch_spec h e
    rw [List.foldlM_cons]
    cases hstep : importArch os targetList config e with
    | error info =>
      refine ⟨iff_of_false nofun fun hall => ?_, nofun⟩
      obtain ⟨config', h'⟩ := hok.mpr fun he => by
        have hacc := hall [] e es rfl he
        rwa [List.append_nil] at hacc
      exact nomatch hstep.symm.trans h'
    | ok config₁ =>
      -- the entries before `e` are those of `pre`, so the hypothesis is used at `pre ++ [e]`
      obtain ⟨hiff, hrest⟩ := ih (hnext config₁ hstep)
      refine ⟨hiff.trans ⟨fun hall l e' l' heq he' => ?_, fun hall l e' l' heq he' => ?_⟩, ?_⟩
      · cases l with
        | nil =>
          cases heq
          rw [List.append_nil]
          exact hok.mp ⟨config₁, hstep⟩ he'
        | cons a l =>
          cases heq
          rw [List.append_cons]
          exact hall l e' l' rfl he'
      · rw [← List.append_cons]
        exact hall (e :: l) e' l' (heq ▸ rfl) he'
      · intro config' hconfig'
        rw [List.append_cons]
        exact hrest config' hconfig'

/-- All files. -/
lemma importFiles_ok (config : String → Private) (files : List (String × CfgFile)) :
    files.foldlM (doImportPrivateConfig os targetList) config = .ok config' ↔
      (∀ file ∈ files, file.2.Readable) ∧
        (entries files).foldlM (importArch os targetList) config = .ok config' := by
  induction files generalizing config with
  | nil => exact (and_iff_right nofun).symm
  | cons file files ih =>
    obtain ⟨name, file⟩ := file
    rw [List.foldlM_cons, List.forall_mem_cons, entries, List.flatMap_cons, List.foldlM_append,
      ← entries]
    cases file with
    | missing => exact (ih config).trans (and_congr_left fun _ => (and_iff_right trivial).symm)
    | notJson reason => exact iff_of_false nofun fun h => h.1.1
    | placeholder => exact iff_of_false nofun fun h => h.1.1
    | parsed privateCfg =>
      show (privateCfg.foldlM (importArch os targetList) config >>= _) = _ ↔
        _ ∧ (privateCfg.foldlM (importArch os targetList) config >>= _) = _
      cases privateCfg.foldlM (importArch os targetList) config with
      | error info => exact iff_of_false nofun fun h => by cases h.2
      | ok config₁ =>
        exact (ih config₁).trans (and_congr_left fun _ => (and_iff_right trivial).symm)

/-- A generator that has been imported is known. -/
lemma said_generator (h : ∀ i ∈ items, i.unknownGenerator = none) :
    said os .cmakeGenerator items = "" ∨
      said os .cmakeGenerator items ∈ cmakeGenerator.map Prod.fst := by
  cases hlast : ((items.map (Item.change os)).filterMap
      (Change.text? .cmakeGenerator)).getLast? with
  | none => exact Or.inl (by rw [said, hlast]; rfl)
  | some v =>
    obtain ⟨ch, hch, hv⟩ := List.mem_filterMap.mp (List.mem_of_getLast? hlast)
    obtain ⟨i, hi, rfl⟩ := List.mem_map.mp hch
    have hknown := h i hi
    have hsaid : said os .cmakeGenerator items = v := by rw [said, hlast]; rfl
    rw [hsaid]
    cases i with
    | cmakeGenerator v' =>
      cases hv
      unfold Item.unknownGenerator at hknown
      exact Or.inr (by_contra fun hnot => by simp [hnot] at hknown)
    | _ => cases hv

/-- The settings of a package. -/
lemma packageConfig_layered (sourced : String → Table)
    (h : importPrivateConfig os targetList files = .ok config) {arch : String}
    (harch : arch ∈ targetList) (package perArch : List Item) :
    Layered (saidOf os sourced (itemsOf arch (entries files) ++ imported package ++
        imported perArch)) initPrivate (packageConfig os sourced (config arch) package perArch) ∧
      ((packageConfig os sourced (config arch) package perArch).text .cmakeGenerator = "" ∨
        (packageConfig os sourced (config arch) package perArch).text .cmakeGenerator ∈
          cmakeGenerator.map Prod.fst) := by
  obtain ⟨-, hentries⟩ := (importFiles_ok _ files).mp h
  obtain ⟨hok, himported⟩ := importArchs_spec (.start os targetList) (entries files)
  have hlayered :=
    ((himported config hentries arch harch).importConfigs package).importConfigs perArch
  -- the command to source is read when all other settings have been made
  have hsource : (importConfigs os (importConfigs os (config arch) package).1 perArch).1.text
      .envSourceCmd = said os .envSourceCmd
        (itemsOf arch (entries files) ++ imported package ++ imported perArch) :=
    hlayered.text _ rfl
  have hlayers : Layered (saidOf os sourced (itemsOf arch (entries files) ++ imported package ++
      imported perArch)) initPrivate (packageConfig os sourced (config arch) package perArch) := by
    unfold packageConfig saidOf
    rw [← hsource]
    exact hlayered.snoc trivial
  refine ⟨hlayers, ?_⟩
  have htext : (packageConfig os sourced (config arch) package perArch).text .cmakeGenerator =
      said os .cmakeGenerator
        (itemsOf arch (entries files) ++ imported package ++ imported perArch) :=
    hlayered.text _ rfl
  rw [htext]
  refine said_generator fun i hi => ?_
  simp only [List.mem_append] at hi
  rcases hi with (hi | hi) | hi
  · -- an entry with an unknown generator would not have been accepted
    obtain ⟨e, he, hie⟩ := List.mem_flatMap.mp hi
    split at hie
    · next heq =>
      obtain ⟨l, l', hl⟩ := List.append_of_mem he
      exact (hok.mp ⟨config, hentries⟩ l e l' hl (heq ▸ harch)).generator i hie
    · cases hie
  · exact known_of_imported hi
  · exact known_of_imported hi

/-- A second file that takes back the name of the operating system is not accepted. -/
example : (importPrivateConfig ⟨id, id, "/".intercalate⟩ ["arm"]
    [("a", .parsed [("arm", [.targetArch "arm", .targetOs "linux"])]), ("b", .missing),
      ("c", .parsed [("arm", [.targetOs ""])])]).toOption.isSome = false := by
  decide

def samplePath : OsPath := ⟨id, id, "/".intercalate⟩

/-- Two of the three files, which say something of one architecture. -/
def sampleFiles : List (String × CfgFile) :=
  [("rules/buildcentralrc", .parsed [("arm", [.targetArch "arm", .targetOs "linux",
      .sysroot ["/sys"], .cFlags "-O2"])]),
    ("build/buildcentralrc", .missing),
    (".buildcentralrc", .parsed [("arm", [.otherLibPath ["/opt/lib"], .cFlags "-g"])])]

def sampleConfig : String → Private :=
  ((importPrivateConfig samplePath ["arm"] sampleFiles).toOption).getD fun _ => initPrivate

/-- What `PACKAGES` says of a package. -/
def samplePackage : List Item := [.macroDef [("DEBUG", "")], .envSourceCmd ". ./env"]

def sampleSettings : Private :=
  packageConfig samplePath (fun _ => [("CROSS", "arm-")]) (sampleConfig "arm") samplePackage []

end AraCore.BuildCentral
