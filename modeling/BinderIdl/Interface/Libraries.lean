import BinderIdl.Interface.GenCpp

/-! The interface libraries of a build: `AddInterfaceLibrary`, `target_link_interfaces_libraries` and
    `target_build_interfaces_libraries` (`host/CMakeLists.inc`). -/

namespace BinderIdl.Interface
open Py Regex

/-! ### Sources -/

/-- What is recorded of a target by `add_library`, `target_include_directories` and `target_link_libraries`. -/
structure Library where
  target : Text
  sources : List Text
  includeDir : Text
  links : List Text
deriving DecidableEq

/-- What a configuration changes. -/
structure BuildState where
  files : FileSystem
  libraries : List Library
  linked : List (Text × Text) -- the interface libraries that targets of the project are linked to
  commands : List (Text × Option Text) -- the runs of `aidl_ops.py -g`: the interface, and what follows `-v`

/-- The messages of `FATAL_ERROR`. -/
inductive BuildError where
  | recursionDepth -- `Maximum recursion depth of .. exceeded`
  | generationFailed (interfaceName : Text) -- `AIDL generation failed for ..; check the aidl_ops.py output above.`
  | noSources (sourceDir : Text) -- `Source generation completed but no C++ files found in ..`
  | noTarget (target : Text) -- `Target '..' does not exist.`
  | notFound (target : Text) -- `Target .. not found in dependencies.`
  | frozenVersion -- `To build a specific frozen version, use -DINTERFACE_VERSION=<number>`
  | invalidVersion (version : Text) -- `Invalid version set .. provided while building all targets.`
deriving DecidableEq, Repr

structure BuildSettings where
  generatedRoot : Text -- `LINUX_BINDER_AIDL_GENERATED_ROOT`
  dependencies : List (Text × List Text) -- the targets `aidl_targets`, each with what `.._deps` holds
  projectTargets : List Text -- the targets of the project
  recursionDepth : ℕ -- how many calls of `AddInterfaceLibrary` may be open
  aidlOps : Text → Option Text → FileSystem → FileSystem × Int -- `aidl_ops.py -g`: what it makes of the files, its exit code

abbrev Configuring := ExceptT BuildError (StateM BuildState)

variable (settings : BuildSettings)

/-- `<generated root>/<interface>/<version>` -/
def generatedDir (name version : Text) : Text := settings.generatedRoot ++ '/' :: name ++ '/' :: version

def sourceDirOf (name version : Text) : Text := generatedDir settings name version ++ "/src".toList

/-- `source_dir` -/
def sourceDir (target : Text) : Text := sourceDirOf settings (interfaceName target) (interfaceVersion target)

/-- `include_dir` -/
def includeDir (target : Text) : Text :=
  generatedDir settings (interfaceName target) (interfaceVersion target) ++ "/include".toList

/-- `interface_version_arg` -/
def interfaceVersionArg (target : Text) : Option Text :=
  if interfaceVersion target = currentVersion then none else some (interfaceVersion target)

/-- `file(GLOB_RECURSE .. "${source_dir}/*.cpp")` -/
def globSources (target : Text) : Configuring (List Text) := do
  let s ← get
  return filesEnding ".cpp".toList (s.files (sourceDir settings target))

/-- `execute_process(COMMAND .../aidl_ops.py -g ...)` and the test of its result. -/
def runAidlOps (target : Text) : Configuring Unit := do
  let s ← get
  let run := settings.aidlOps (interfaceName target) (interfaceVersionArg target) s.files
  set { s with files := run.1, commands := s.commands ++ [(interfaceName target, interfaceVersionArg target)] }
  if run.2 ≠ 0 then throw (.generationFailed (interfaceName target)) else pure ()

/-- `source_files` -/
def sourceFiles (target : Text) : Configuring (List Text) := do
  let existing ← globSources settings target
  if interfaceVersion target = currentVersion then
    runAidlOps settings target
    let sources ← globSources settings target
    if sources ≠ [] then return sources
    else if existing ≠ [] then return existing -- with a warning that they may be stale
    else throw (.noSources (sourceDir settings target))
  else if existing = [] then
    runAidlOps settings target
    let sources ← globSources settings target
    if sources = [] then throw (.noSources (sourceDir settings target)) else return sources
  else return existing

/-! ### Libraries -/

/-- The list `${aidl_target}_deps`: of lines for the same target the last one counts. -/
def targetDeps (target : Text) : List Text := ((Dict.ofPairs settings.dependencies).get? target).getD []

/-- `aidl_targets` -/
def aidlTargets : List Text := settings.dependencies.map Prod.fst

/-- The names for which `if (TARGET ..)` holds. -/
def existingTargets (s : BuildState) : List Text := settings.projectTargets ++ s.libraries.map Library.target

/-- The second half of `AddInterfaceLibrary`. -/
def addLibrary (target : Text) : Configuring Unit := do
  let sources ← sourceFiles settings target
  let links := targetDeps settings target ++ ["binder".toList, "utils".toList]
  modify fun s => { s with libraries := s.libraries ++ [⟨target, sources, includeDir settings target, links⟩] }

/-- `AddInterfaceLibrary` -/
def addInterfaceLibrary : ℕ → Text → Configuring Unit
  | 0, _ => throw .recursionDepth
  | depth + 1, target => do
    let s ← get
    if target ∈ existingTargets settings s then pure ()
    else
      (targetDeps settings target).forM (addInterfaceLibrary depth)
      addLibrary settings target

/-- A round of `target_link_interfaces_libraries`: what is no interface library is passed over with a warning. -/
def linkInterfaceLibrary (target lib : Text) : Configuring Unit :=
  if lib ∈ aidlTargets settings then do
    addInterfaceLibrary settings settings.recursionDepth lib
    modify fun s => { s with linked := s.linked ++ [(target, lib)] }
  else pure ()

/-- `target_link_interfaces_libraries` -/
def targetLinkInterfacesLibraries (target : Text) (libs : List Text) : Configuring Unit := do
  let s ← get
  if target ∈ existingTargets settings s then libs.forM (linkInterfaceLibrary settings target)
  else throw (.noTarget target)

/-! ### Choosing libraries -/

def allTargets : Text := "all".toList

def latest : Text := "latest".toList

/-- `^${INTERFACE_TARGET}-v.*`, where a full stop in the name stands for any character. -/
def versionsOfPattern (target : Text) : List Piece :=
  target.map (fun c => .one fun d => c == '.' || d == c) ++ (literal "-v".toList ++ [.star fun _ => true])

def isVersionOf (target aidlTarget : Text) : Bool := (matchHere (versionsOfPattern target) aidlTarget).isSome

/-- `-vcurrent-cpp$` -/
def isCurrentTarget (aidlTarget : Text) : Bool :=
  (search (literal "-vcurrent-cpp".toList ++ [.finish]) aidlTarget).isSome

/-- The targets that `target_build_interfaces_libraries` adds. A given version of a given target that does not exist is
    passed over: what is said of it is no fatal error, since `FATAL_ERROR` has a comma behind it. -/
def chosenTargets (targets : List Text) (version target : Text) : Except BuildError (List Text) :=
  if version = allTargets then
    if target = allTargets then .ok targets else .ok (targets.filter (isVersionOf target))
  else if version = currentVersion then
    if target = allTargets then .ok (targets.filter isCurrentTarget)
    else if cppTarget target currentVersion ∈ targets then .ok [cppTarget target currentVersion]
    else .error (.notFound (cppTarget target currentVersion))
  else if version = latest then
    if target = allTargets then .ok (targets.filter fun t => !isCurrentTarget t) else .error .frozenVersion
  else if target = allTargets then .error (.invalidVersion version)
  else if cppTarget target version ∈ targets then .ok [cppTarget target version]
  else .ok []

/-- `target_build_interfaces_libraries`, with `INTERFACE_VERSION` and `INTERFACE_TARGET` where they are defined. -/
def targetBuildInterfacesLibraries (version target : Option Text) : Configuring Unit := do
  let targets ← chosenTargets (aidlTargets settings) (version.getD allTargets) (target.getD allTargets)
  targets.forM (addInterfaceLibrary settings settings.recursionDepth)

/-! ### Configuring -/

/-- A call in the `CMakeLists.txt` of a project. -/
inductive BuildCommand where
  | link (target : Text) (libs : List Text)
  | build (version target : Option Text)
deriving DecidableEq

def BuildCommand.run : BuildCommand → Configuring Unit
  | .link target libs => targetLinkInterfacesLibraries settings target libs
  | .build version target => targetBuildInterfacesLibraries settings version target

/-- A configuration of the project. -/
def configure (commands : List BuildCommand) : Configuring Unit := commands.forM (BuildCommand.run settings)

/-- A build directory that is new, over the files that are there. -/
def freshBuild (files : FileSystem) (commands : List (Text × Option Text)) : BuildState := ⟨files, [], [], commands⟩

end BinderIdl.Interface
