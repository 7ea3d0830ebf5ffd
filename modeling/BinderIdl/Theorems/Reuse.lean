import BinderIdl.Interface.GenCpp
import BinderIdl.Theorems.Naming

/-! Whether the generated sources of a frozen version are kept: that both of its directories hold something is written
    to the log, and the `aidl` tool is run over them as for any other version. -/

namespace BinderIdl.Interface
open Py

variable {settings : GenSettings} {aidl : Generator} {interfaces : Dict Text AidlInterface} {i : AidlInterface}
  {name version : Text} {genDir : Option Text} {w : Workspace}

/-! ### The run -/

def logged (message : Text) (w : Workspace) : Workspace := { w with log := w.log ++ [message] }

/-- The workspace behind the two messages. -/
def announced (i : AidlInterface) (genVersion : Text) (dirs : GenDirs) (w : Workspace) : Workspace :=
  logged (generatingMessage i genVersion dirs)
    (if areGenerated i genVersion dirs w.files then logged (generatedMessage i genVersion dirs) w else w)

/-- The workspace behind the run of the tool. -/
def generated (aidl : Generator) (command : Text) (w : Workspace) : Workspace :=
  { w with files := (aidl command w.files).1, commands := w.commands ++ [command] }

@[simp] theorem announced_files (i : AidlInterface) (genVersion : Text) (dirs : GenDirs) (w : Workspace) :
    (announced i genVersion dirs w).files = w.files := by
  rw [announced, logged]
  split <;> rfl

@[simp] theorem announced_commands (i : AidlInterface) (genVersion : Text) (dirs : GenDirs) (w : Workspace) :
    (announced i genVersion dirs w).commands = w.commands := by
  rw [announced, logged]
  split <;> rfl

theorem logInfo_run (message : Text) (w : Workspace) : runFrom (logInfo message) w = (.ok (), logged message w) := rfl

theorem noteGenerated_run (i : AidlInterface) (genVersion : Text) (dirs : GenDirs) (w : Workspace) :
    runFrom (noteGenerated i genVersion dirs) w =
      (.ok (), if areGenerated i genVersion dirs w.files then logged (generatedMessage i genVersion dirs) w else w) := by
  rw [noteGenerated, runFrom_bind, runFrom_get]
  by_cases both : areGenerated i genVersion dirs w.files
  · simp only [if_pos both]
    exact logInfo_run _ _
  · simp only [if_neg both]
    exact runFrom_pure _ _

theorem callAidl_run (aidl : Generator) (command : Text) (w : Workspace) :
    runFrom (callAidl aidl command) w = (.ok (aidl command w.files).2, generated aidl command w) := rfl

/-- That the sources are there already changes nothing but the log. -/
theorem genCppSources_run (known : interfaces.get? name = some i) :
    runFrom (genCppSources settings aidl interfaces ⟨name, some version⟩ genDir) w =
      match aidlGenCmd settings interfaces i version (genDirs settings i version genDir) w.files with
      | .error e => (.error e, announced i version (genDirs settings i version genDir) w)
      | .ok command =>
        (if (aidl command w.files).2 ≠ 0 then .error (.compilation (aidl command w.files).2) else .ok (),
          generated aidl command (announced i version (genDirs settings i version genDir) w)) := by
  have start : lookupInterface interfaces name = .ok i := by rw [lookupInterface, known]
  rw [genCppSources, runFrom_bind, start, Except.mapError, runFrom_lift]
  simp only [Option.getD_some]
  rw [runFrom_bind, noteGenerated_run]
  simp only [runFrom_bind, logInfo_run, runFrom_get, runFrom_lift]
  rw [← announced, announced_files]
  cases aidlGenCmd settings interfaces i version (genDirs settings i version genDir) w.files with
  | error e => rfl
  | ok command =>
    simp only [callAidl_run, announced_files]
    by_cases failed : (aidl command w.files).2 = 0
    · rw [if_neg (not_not.mpr failed), if_neg (not_not.mpr failed), runFrom_pure]
    · rw [if_pos failed, if_pos failed, runFrom_throw]

/-! ### When there is a command -/

/-- Sources can be generated from the API directory of a version: there is something to generate from, its hash can be
    read, and its imports resolve. -/
structure Generatable (settings : GenSettings) (interfaces : Dict Text AidlInterface) (i : AidlInterface)
    (version : Text) (files : FileSystem) : Prop where
  sources : filesEnding ".aidl".toList (files (getVersionedDir settings i version)) ≠ []
  hash : ∀ e, hashEntry (files (getVersionedDir settings i version)) = some e → ∃ text, e = .file (some text)
  imports : ∃ deps, getDependencies (importHost settings files) interfaces i version false = .ok deps

theorem aidlFiles_ends {apiDir : Text} {api : Option Node} :
    (∃ srcs, aidlFiles i apiDir api = .ok srcs) ↔ filesEnding ".aidl".toList api ≠ [] := by
  rw [aidlFiles]
  by_cases missing : api = none
  · rw [if_pos missing, missing]
    exact iff_of_false (fun ⟨_, h⟩ => by cases h) fun h => h rfl
  · rw [if_neg missing]
    by_cases empty : filesEnding ".aidl".toList api = []
    · rw [if_pos empty]
      exact iff_of_false (fun ⟨_, h⟩ => by cases h) fun h => h empty
    · rw [if_neg empty]
      exact iff_of_true ⟨_, rfl⟩ empty

theorem hashGen_ends {apiDir : Text} {api : Option Node} :
    (∃ hash, hashGen apiDir api = .ok hash) ↔ ∀ e, hashEntry api = some e → ∃ text, e = .file (some text) := by
  rw [hashGen]
  cases found : hashEntry api with
  | none => exact iff_of_true ⟨_, rfl⟩ fun e h => by cases h
  | some e =>
    match e with
    | .file (some text) => exact iff_of_true ⟨_, rfl⟩ fun e h => by cases h; exact ⟨text, rfl⟩
    | .file none => exact iff_of_false (fun ⟨_, h⟩ => by cases h) fun h => by obtain ⟨_, h⟩ := h _ rfl; cases h
    | .directory => exact iff_of_false (fun ⟨_, h⟩ => by cases h) fun h => by obtain ⟨_, h⟩ := h _ rfl; cases h

theorem resolveEmitVersion_central {layout genVersion hash baseName : Text} (central : layout ≠ "module-local".toList)
    (moduleVersion : Option Text) : resolveEmitVersion layout moduleVersion genVersion hash baseName = .ok genVersion := by
  cases moduleVersion with
  | none => rfl
  | some version => rw [resolveEmitVersion, if_pos central]

theorem genVersionDir_frozen (central : i.layout ≠ "module-local".toList) (frozen : version ∈ i.versions) :
    genVersionDir i version = version := by
  have other : version ≠ i.nextVersion := fun next => i.nextVersion_notMem_versions (next ▸ frozen)
  rw [genVersionDir, if_neg central, versionDir, if_neg other]

theorem aidlGenCmd_ends (central : i.layout ≠ "module-local".toList) (frozen : version ∈ i.versions) {dirs : GenDirs}
    {files : FileSystem} :
    (∃ command, aidlGenCmd settings interfaces i version dirs files = .ok command) ↔
      Generatable settings interfaces i version files := by
  simp only [aidlGenCmd, genVersionDir_frozen central frozen, resolveEmitVersion_central central, bind_eq_ok,
    mapError_eq_ok]
  constructor
  · rintro ⟨_, srcs, sources, deps, imports, hash, read, -⟩
    exact ⟨aidlFiles_ends.mp ⟨srcs, sources⟩, hashGen_ends.mp ⟨hash, read⟩, ⟨deps, imports⟩⟩
  · rintro ⟨sources, hash, deps, imports⟩
    obtain ⟨srcs, sources⟩ := aidlFiles_ends.mpr sources
    obtain ⟨hash, read⟩ := hashGen_ends.mpr hash
    exact ⟨_, srcs, sources, deps, imports, hash, read, _, rfl, rfl⟩

/-! ### What is kept -/

/-- The workspace behind a request for the sources of a version. -/
def leaves (settings : GenSettings) (aidl : Generator) (interfaces : Dict Text AidlInterface) (name version : Text)
    (genDir : Option Text) (w : Workspace) : Workspace :=
  (runFrom (genCppSources settings aidl interfaces ⟨name, some version⟩ genDir) w).2

/-- What has been generated of a version is kept, whatever the tool would make of it now, and the tool is run exactly when
    the build would have the sources generated. -/
structure Reuses (settings : GenSettings) (interfaces : Dict Text AidlInterface) (name : Text) (i : AidlInterface)
    (version : Text) (genDir : Option Text) (w : Workspace) : Prop where
  quiet : ∀ aidl, (leaves settings aidl interfaces name version genDir w).commands = w.commands
  src : ∀ aidl, (leaves settings aidl interfaces name version genDir w).files
    (genDirs settings i version genDir).genDir = w.files (genDirs settings i version genDir).genDir
  inc : ∀ aidl, (leaves settings aidl interfaces name version genDir w).files
    (genDirs settings i version genDir).genDirInc = w.files (genDirs settings i version genDir).genDirInc
  build : ∀ aidl, (leaves settings aidl interfaces name version genDir w).commands ≠ w.commands ↔
    addInterfaceLibraryGenerates (cppTarget i.baseName version) (w.files (genDirs settings i version genDir).genDir) = true

theorem leaves_of_generatable (known : interfaces.get? name = some i) (central : i.layout ≠ "module-local".toList)
    (frozen : version ∈ i.versions) (generatable : Generatable settings interfaces i version w.files) :
    (leaves settings aidl interfaces name version genDir w).commands ≠ w.commands := by
  obtain ⟨command, built⟩ := (aidlGenCmd_ends central frozen).mpr generatable
  rw [leaves, genCppSources_run known, built]
  simp only [generated, announced_commands]
  exact fun same => List.cons_ne_nil _ _ (List.append_right_eq_self.mp same)

theorem leaves_of_not_generatable (known : interfaces.get? name = some i)
    (central : i.layout ≠ "module-local".toList) (frozen : version ∈ i.versions)
    (not_ : ¬Generatable settings interfaces i version w.files) :
    leaves settings aidl interfaces name version genDir w =
      announced i version (genDirs settings i version genDir) w := by
  rw [leaves, genCppSources_run known]
  cases built : aidlGenCmd settings interfaces i version (genDirs settings i version genDir) w.files with
  | error e => rfl
  | ok command => exact absurd ((aidlGenCmd_ends central frozen).mp ⟨command, built⟩) not_

/-- The build has the sources of a frozen version generated exactly when it finds none. -/
theorem addInterfaceLibraryGenerates_frozen (frozen : version ∈ i.versions) {sourceDir : Option Node} :
    addInterfaceLibraryGenerates (cppTarget i.baseName version) sourceDir = true ↔
      filesEnding ".cpp".toList sourceDir = [] := by
  obtain ⟨k, -, -, rfl⟩ := AidlInterface.mem_versions.mp frozen
  have dashless : '-' ∉ versionNumber k := fun member => by cases isDigit_versionNumber member
  have same : interfaceVersion (cppTarget i.baseName (versionNumber k)) = versionNumber k :=
    (interfaceVersion_cppTarget dashless).mpr (ofInt_ne_nil _)
  rw [addInterfaceLibraryGenerates, same, Bool.or_eq_true, beq_iff_eq, List.isEmpty_iff]
  exact or_iff_right (versionNumber_ne_current k)

/-- The generated sources of a frozen version are kept exactly where the request fails before the tool is run and the
    build finds a source in them. -/
theorem genCppSources_reuses_iff (known : interfaces.get? name = some i) (central : i.layout ≠ "module-local".toList)
    (frozen : version ∈ i.versions) (genDir : Option Text) (w : Workspace) :
    Reuses settings interfaces name i version genDir w ↔
      ¬Generatable settings interfaces i version w.files ∧
        filesEnding ".cpp".toList (w.files (genDirs settings i version genDir).genDir) ≠ [] := by
  constructor
  · intro reuses
    have idle : Generator := fun _ files => (files, 0)
    refine ⟨fun generatable => ?_, fun empty => ?_⟩
    · exact leaves_of_generatable known central frozen generatable (reuses.quiet idle)
    · exact (reuses.build idle).mpr ((addInterfaceLibraryGenerates_frozen frozen).mpr empty) (reuses.quiet idle)
  · rintro ⟨not_, sources⟩
    have same : ∀ aidl, leaves settings aidl interfaces name version genDir w =
        announced i version (genDirs settings i version genDir) w :=
      fun aidl => leaves_of_not_generatable known central frozen not_
    refine ⟨fun aidl => ?_, fun aidl => ?_, fun aidl => ?_, fun aidl => ?_⟩
    · rw [same, announced_commands]
    · rw [same, announced_files]
    · rw [same, announced_files]
    · rw [same, announced_commands, addInterfaceLibraryGenerates_frozen frozen]
      exact iff_of_false (fun h => h rfl) sources

/-! ### A frozen version with committed sources -/

def halSettings : GenSettings :=
  ⟨"/ws".toList, fun _ => "aidl".toList, fun _ => none, "/opt/aidl".toList, fun _ _ _ => true, 1000⟩

def halCommitted : AidlInterface :=
  ⟨"hal".toList, "/ws/hal/current".toList, "central".toList, [], Dict.empty, some "vintf".toList, 1,
    Dict.ofPairs [("1".toList, [])]⟩

def halInterfaces : Dict Text AidlInterface := Dict.ofPairs [("hal".toList, halCommitted)]

/-- The committed C++ sources of version 1, beside its API. -/
def committed (api : Option Node) : Workspace where
  files path :=
    if path = "/ws/stable/aidl/hal/1".toList then api
    else if path = "/ws/stable/generated/hal/1/src".toList then
      some (.directory (Dict.ofPairs [("IHal.cpp".toList, .file (some "// released".toList))]))
    else if path = "/ws/stable/generated/hal/1/include".toList then
      some (.directory (Dict.ofPairs [("IHal.h".toList, .file (some "// released".toList))]))
    else none
  commands := []
  log := []

def halApi : Node :=
  .directory (Dict.ofPairs [(".hash".toList, .file (some "c0ffee\n".toList)),
    ("IHal.aidl".toList, .file (some "interface IHal {}".toList))])

theorem reuses_without_api :
    areGenerated halCommitted "1".toList (genDirs halSettings halCommitted "1".toList none) (committed none).files ∧
      Reuses halSettings halInterfaces "hal".toList halCommitted "1".toList none (committed none) :=
  ⟨by decide +kernel,
    (genCppSources_reuses_iff (by decide +kernel) (by decide) (by decide +kernel) none (committed none)).mpr
      ⟨fun generatable => generatable.sources (by decide +kernel), by decide +kernel⟩⟩

/-- A tool that replaces what is there. -/
def replacing : Generator := fun _ _ => (fun _ => some (.directory Dict.empty), 0)

/-- The committed sources are reported as generated, and the tool is run over them. -/
theorem regenerates_committed :
    halCommitted.layout = "central".toList ∧ "1".toList ∈ halCommitted.versions ∧
      areGenerated halCommitted "1".toList (genDirs halSettings halCommitted "1".toList none)
        (committed (some halApi)).files ∧
      (leaves halSettings replacing halInterfaces "hal".toList "1".toList none (committed (some halApi))).files
        "/ws/stable/generated/hal/1/src".toList = some (.directory Dict.empty) ∧
      ¬Reuses halSettings halInterfaces "hal".toList halCommitted "1".toList none (committed (some halApi)) := by
  refine ⟨rfl, by decide +kernel, by decide +kernel, by decide +kernel, fun reuses => ?_⟩
  have quiet := reuses.quiet replacing
  revert quiet
  decide +kernel

end BinderIdl.Interface
