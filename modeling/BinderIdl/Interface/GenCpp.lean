import BinderIdl.Interface.CMake
import BinderIdl.Interface.Commands
import BinderIdl.Interface.Dependencies
import BinderIdl.Interface.SourceGen

/-! The sources of a version: `gen_cpp_sources`, `check_for_sources` and `resolve_emit_version`
    (`host/aidl_gen_rule.py`), and when `AddInterfaceLibrary` (`host/CMakeLists.inc`) asks for them. -/

namespace BinderIdl.Interface
open Py

/-! ### Files and paths -/

/-- What is below a directory; a file has its text, unless its bytes are none. -/
inductive Entry where
  | file (text : Option Text)
  | directory
deriving DecidableEq

/-- What a path leads to: a directory with all that is below it, by the paths from it and in the order of a walk. -/
inductive Node where
  | file
  | directory (below : Dict Text Entry)
deriving DecidableEq

abbrev FileSystem := Text → Option Node

/-- `path.join` -/
def joinPath (a b : Text) : Text :=
  if b.head? = some '/' then b
  else if a = [] ∨ a.getLast? = some '/' then a ++ b
  else a ++ '/' :: b

/-- `check_for_sources` -/
def checkForSources : Option Node → Bool
  | some (.directory below) => !below.entries.isEmpty
  | _ => false

def isFileEnding (ending : Text) (e : Text × Entry) : Bool := e.2 != .directory && ending.isSuffixOf (basename e.1)

/-- The files below a directory whose names end so: `get_path_for_files(src, "*…", True)` and `file(GLOB_RECURSE)`. -/
def filesEnding (ending : Text) : Option Node → List Text
  | some (.directory below) => (below.entries.filter (isFileEnding ending)).map Prod.fst
  | _ => []

/-- What `gen_cpp_sources` reads besides the interfaces. -/
structure GenSettings where
  firstRoot : Text -- `interfaces_roots[0]`
  stableAidlSubdir : AidlInterface → Text
  moduleVersion : AidlInterface → Option Text -- `str(module_version)`
  cmdAidl : Text -- `CMD_AIDL`
  preprocesses : AidlInterface → Text → Dependencies → Bool
  recursionLimit : ℕ

variable (settings : GenSettings)

/-- `interface_root_stable` -/
def interfaceRootStable (i : AidlInterface) : Text :=
  if i.layout = "module-local".toList then dirname i.interfaceRoot
  else joinPath (joinPath settings.firstRoot ("stable/".toList ++ settings.stableAidlSubdir i)) i.baseName

/-- `interface_gen_dir` -/
def interfaceGenDir (i : AidlInterface) : Text :=
  if i.layout = "module-local".toList then dirname i.interfaceRoot
  else joinPath (joinPath settings.firstRoot "stable/generated".toList) i.baseName

/-- `get_versioned_dir` -/
def getVersionedDir (i : AidlInterface) (version : Text) : Text := joinPath (interfaceRootStable settings i) version

/-- `version_dir` -/
def genVersionDir (i : AidlInterface) (genVersion : Text) : Text :=
  if i.layout = "module-local".toList then basename i.interfaceRoot else versionDir i genVersion

structure GenDirs where
  genDir : Text
  genDirInc : Text
deriving DecidableEq

/-- Where the sources go, given the argument `gen_dir`. -/
def genDirs (i : AidlInterface) (genVersion : Text) : Option Text → GenDirs
  | none =>
    let dir := joinPath (interfaceGenDir settings i) (genVersionDir i genVersion)
    ⟨joinPath dir "src".toList, joinPath dir "include".toList⟩
  | some dir => ⟨dir, joinPath dir "include".toList⟩

/-! ### The command -/

/-- The exceptions `gen_cpp_sources` ends with. -/
inductive GenError where
  | tool (e : ToolError)
  | noApiDirectory (apiDir : Text) -- `Could not fine api directory, ..`
  | noSources (name apiDir : Text) -- `No AIDL sources are found for the Interface .. in ..`
  | hashFile (path : Text) -- `IsADirectoryError` or `UnicodeDecodeError` where the hash is read
  | notPositive (name version : Text) -- `interface.yaml 'version' for .. must be a positive integer`
  | notFrozen (name version : Text) -- `a pinned version requires a frozen .hash`
  | compilation (result : Int) -- `AIDL compilation failed with exit code ..`
deriving DecidableEq, Repr

def notFrozenHash : Text := "notfrozen".toList

/-- `aidl_files` -/
def aidlFiles (i : AidlInterface) (apiDir : Text) (api : Option Node) : Except GenError (List Text) :=
  if api = none then .error (.noApiDirectory apiDir)
  else if filesEnding ".aidl".toList api = [] then .error (.noSources i.baseName apiDir)
  else .ok ((filesEnding ".aidl".toList api).map (joinPath apiDir))

/-- What is at the path of the hash file. -/
def hashEntry : Option Node → Option Entry
  | some (.directory below) => below.get? ".hash".toList
  | _ => none

/-- `hash_gen` -/
def hashGen (apiDir : Text) (api : Option Node) : Except GenError Text :=
  match hashEntry api with
  | none => .ok notFrozenHash
  | some (.file (some text)) => .ok (text.filter (· != '\n'))
  | some _ => .error (.hashFile (joinPath apiDir ".hash".toList))

/-- `resolve_emit_version` -/
def resolveEmitVersion (layout : Text) (moduleVersion : Option Text) (genVersion hash baseName : Text) :
    Except GenError Text :=
  match moduleVersion with
  | none => .ok genVersion
  | some version =>
    if layout ≠ "module-local".toList then .ok genVersion
    else if allDigits (strip version) = false then .error (.notPositive baseName version)
    else do
      let ordinal ← (intOf (strip version)).mapError GenError.tool
      if ordinal < 1 then throw (.notPositive baseName version)
      else if hash = notFrozenHash then throw (.notFrozen baseName (strip version))
      else return strip version

/-- What the resolution of the imports meets in these files. -/
def importHost (files : FileSystem) : Host :=
  ⟨fun i version => (files (getVersionedDir settings i version)).isSome, settings.preprocesses, settings.recursionLimit⟩

/-- The second list of `list_dependencies`. -/
def importDirs (interfaces : Dict Text AidlInterface) (deps : Dependencies) : List Text :=
  deps.entries.filterMap fun e => (interfaces.get? e.1).map fun i => getVersionedDir settings i e.2.importDir

/-- `" ".join(..)` -/
def joinWords (words : List Text) : Text := " ".toList.intercalate words

/-- `aidl_gen_cmd`, which is given to a shell. -/
def aidlGenCmd (interfaces : Dict Text AidlInterface) (i : AidlInterface) (genVersion : Text) (dirs : GenDirs)
    (files : FileSystem) : Except GenError Text := do
  let apiDir := getVersionedDir settings i (genVersionDir i genVersion)
  let srcs ← aidlFiles i apiDir (files apiDir)
  let deps ← (getDependencies (importHost settings files) interfaces i genVersion false).mapError GenError.tool
  let hash ← hashGen apiDir (files apiDir)
  let emitVersion ← resolveEmitVersion i.layout (settings.moduleVersion i) genVersion hash i.baseName
  let stability := if isStable i.stability then [stabilityFlag i.stability] else []
  let imports := (apiDir :: importDirs settings interfaces deps).map ("-I".toList ++ ·)
  return settings.cmdAidl ++ " --lang=cpp --structured --min_sdk_version=33 ".toList ++ joinWords (stability ++ imports) ++
    " -h ".toList ++ dirs.genDirInc ++ " --version=".toList ++ emitVersion ++ " --hash=".toList ++ hash ++
    " --out=".toList ++ dirs.genDir ++ " ".toList ++ joinWords srcs ++ " ".toList

/-! ### Generating -/

/-- The files, the commands given to a shell and the messages of `logger.info`. -/
structure Workspace where
  files : FileSystem
  commands : List Text
  log : List Text

abbrev Generation := ExceptT GenError (StateM Workspace)

/-- What the `aidl` tool makes of the files, and its exit code. -/
abbrev Generator := Text → FileSystem → FileSystem × Int

def logInfo (message : Text) : Generation Unit := modify fun w => { w with log := w.log ++ [message] }

def generatedMessage (i : AidlInterface) (genVersion : Text) (dirs : GenDirs) : Text :=
  "Sources are already generated for ".toList ++ i.baseName ++ ", version: ".toList ++ genVersion ++ " at ".toList ++
    dirs.genDir ++ " (Includes: ".toList ++ dirs.genDirInc

def generatingMessage (i : AidlInterface) (genVersion : Text) (dirs : GenDirs) : Text :=
  "Generating sources for ".toList ++ i.baseName ++ ", version: ".toList ++ genVersion ++ " at ".toList ++ dirs.genDir

/-- Both directories of a version other than the unfrozen one hold something. -/
def areGenerated (i : AidlInterface) (genVersion : Text) (dirs : GenDirs) (files : FileSystem) : Bool :=
  genVersion != i.nextVersion && checkForSources (files dirs.genDir) && checkForSources (files dirs.genDirInc)

/-- `skip if sources are already generated`: the message, and nothing else. -/
def noteGenerated (i : AidlInterface) (genVersion : Text) (dirs : GenDirs) : Generation Unit := do
  let w ← get
  if areGenerated i genVersion dirs w.files then logInfo (generatedMessage i genVersion dirs) else pure ()

/-- `subprocess.call(aidl_gen_cmd, shell=True)` -/
def callAidl (aidl : Generator) (command : Text) : Generation Int := do
  let w ← get
  set { w with files := (aidl command w.files).1, commands := w.commands ++ [command] }
  return (aidl command w.files).2

/-- `gen_cpp_sources` -/
def genCppSources (aidl : Generator) (interfaces : Dict Text AidlInterface) (call : GenCall) (genDir : Option Text) :
    Generation Unit := do
  let i ← (lookupInterface interfaces call.interfaceName).mapError GenError.tool
  let genVersion := call.genVersion.getD i.nextVersion
  let dirs := genDirs settings i genVersion genDir
  noteGenerated i genVersion dirs
  logInfo (generatingMessage i genVersion dirs)
  let w ← get
  let command ← aidlGenCmd settings interfaces i genVersion dirs w.files
  let result ← callAidl aidl command
  if result ≠ 0 then throw (.compilation result) else pure ()

/-- The decision of `AddInterfaceLibrary`: the sources of `current` are always generated, those of another version where
    no `.cpp` file is below its source directory. -/
def addInterfaceLibraryGenerates (target : Text) (sourceDir : Option Node) : Bool :=
  interfaceVersion target == currentVersion || (filesEnding ".cpp".toList sourceDir).isEmpty

end BinderIdl.Interface
