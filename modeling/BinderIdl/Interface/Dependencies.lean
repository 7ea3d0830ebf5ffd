import BinderIdl.Interface.Targets

/-! The versions an interface is checked and generated against: `get_dependencies`, `process_imports` and
    `ApiDependencies` (`host/aidl_interface.py`). -/

namespace BinderIdl.Interface
open Py

/-- Which version of an import is taken: the unfrozen one, the last frozen one, or the recorded one. -/
inductive ImportVerType where
  | next
  | latest
  | frozen
deriving DecidableEq, Repr

/-- An entry of `api_dependecies`; `importDir` is the version directory its APIs are taken from. -/
structure Dependency where
  version : Text
  importDir : Text
deriving DecidableEq, Repr

abbrev Dependencies := Dict Text Dependency

/-- What the resolution of imports meets outside the program: which version directories exist, whether the
    `aidl` tool preprocesses a version with these dependencies, and how deep calls may nest. -/
structure Host where
  dirExists : AidlInterface → Text → Bool
  preprocesses : AidlInterface → Text → Dependencies → Bool
  recursionLimit : ℕ

/-- An `aidl` tool that finds and does what it is asked for. -/
def willingHost : Host := ⟨fun _ _ => true, fun _ _ _ => true, 1000⟩

/-- The directory of a version; the unfrozen one is in `current`. -/
def versionDir (i : AidlInterface) (version : Text) : Text := if version = i.nextVersion then currentVersion else version

/-- `aidl_gen_preprocessed` -/
def aidlGenPreprocessed (host : Host) (i : AidlInterface) (version : Text) (deps : Dependencies) : Except ToolError Unit :=
  if host.dirExists i (versionDir i version) = false then .error (.noImportDirectory i.baseName version)
  else if host.preprocesses i version deps = false then .error (.preprocess i.baseName version)
  else .ok ()

def intOf (t : Text) : Except ToolError Int :=
  match int? t with
  | some n => .ok n
  | none => .error (.notNumber t)

theorem intOf_nextVersion {i : AidlInterface} (stable : ¬i.unstable) :
    intOf i.nextVersion = .ok ((i.versionCount : Int) + 1) := by
  rw [intOf, AidlInterface.nextVersion_of_stable stable, versionNumber, int?_ofInt]
  rfl

/-- `add_dependency`: of two versions of one interface the higher number is kept. The lower one is removed before the
    higher one is preprocessed. -/
def addDependency (host : Host) (deps : Dependencies) (i : AidlInterface) (version : Text) :
    Except ToolError Dependencies :=
  match deps.get? i.baseName with
  | some old => do
    if (← intOf old.version) ≥ (← intOf version) then return deps
    else
      aidlGenPreprocessed host i version (deps.erase i.baseName)
      return (deps.erase i.baseName).set i.baseName ⟨version, versionDir i version⟩
  | none => do
    aidlGenPreprocessed host i version deps
    return deps.set i.baseName ⟨version, versionDir i version⟩

def lookupInterface (interfaces : Dict Text AidlInterface) (name : Text) : Except ToolError AidlInterface :=
  match interfaces.get? name with
  | some i => .ok i
  | none => .error (.noInterface name)

/-- The last frozen version, or the unfrozen one of an interface that has none. -/
def latestOrNext (i : AidlInterface) : Text := if i.latestVersion = "0".toList then i.nextVersion else i.latestVersion

/-- The imports `process_imports` goes through; `direct` is `rec_counter == 1`. -/
def importsToProcess (mode : ImportVerType) (direct : Bool) (i : AidlInterface) (version : Text) :
    Except ToolError (Dict Text Text) :=
  match mode with
  | .next => i.getImports i.nextVersion
  | .latest => i.getImports (if direct then i.nextVersion else latestOrNext i)
  | .frozen => i.getImports version

/-- The version at which an import with this pin is processed. -/
def versionToProcess (mode : ImportVerType) (imp : AidlInterface) (pin : Text) : Text :=
  match mode with
  | .next => imp.nextVersion
  | .latest => if pin = importVersionUnpinned then latestOrNext imp else pin
  | .frozen => pin

/-- `process_imports`: the imports first, each with its own imports, and then the interface itself. The version
    field of `api_deps` is the argument `version`. -/
def processImports (host : Host) (interfaces : Dict Text AidlInterface) (mode : ImportVerType) :
    ℕ → Bool → AidlInterface → Text → Dependencies → Except ToolError Dependencies
  | 0, _, _, _, _ => .error .recursionDepth
  | depth + 1, direct, i, version, deps => do
    let imports ← importsToProcess mode direct i version
    let deps ← imports.entries.foldlM (fun deps e => do
      let imp ← lookupInterface interfaces e.1
      processImports host interfaces mode depth false imp (versionToProcess mode imp e.2) deps) deps
    if direct then return deps else addDependency host deps i version

/-- The mode `get_dependencies` works in. -/
def importVerType (i : AidlInterface) (version : Text) (isFreezeApi : Bool) : ImportVerType :=
  if version = i.nextVersion then if isFreezeApi then .latest else .next else .frozen

/-- `get_dependencies` -/
def getDependencies (host : Host) (interfaces : Dict Text AidlInterface) (i : AidlInterface) (version : Text)
    (isFreezeApi : Bool) : Except ToolError Dependencies :=
  if importVerType i version isFreezeApi = .frozen ∧ version = [] then .error .noVersion
  else
    processImports host interfaces (importVerType i version isFreezeApi) host.recursionLimit true i version Dict.empty

end BinderIdl.Interface
