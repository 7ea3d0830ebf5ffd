import BinderIdl.Interface.Dependencies

/-! Updating and freezing the API of an interface: `handle_update_api` and `handle_freeze_api`
    (`host/aidl_api.py`), and `validate_interface` with its checks (`host/aidl_interface.py`). -/

namespace BinderIdl.Interface
open Py

/-- The `.aidl` files of a directory by their relative paths. -/
abbrev Files := Dict Text Text

/-- A directory of the stable tree: its `.aidl` files and the lines of its `.hash`, if there is one. -/
structure Dump (Hash : Type) where
  files : Files
  hashFile : Option (List Hash)
deriving DecidableEq

/-- One interface on disk: its definition file, its sources and its version directories. -/
structure Store (Hash : Type) where
  definition : Definition
  source : Files
  stable : Dict Text (Dump Hash)
deriving DecidableEq

/-- What a run of a tool meets outside the program: the loaded interfaces and the outcomes of the commands. -/
structure Shell (Hash : Type) where
  host : Host
  interfaces : Dict Text AidlInterface
  /-- `aidl --checkapi=compatible` accepts the old and the new files -/
  compatible : Files → Files → Bool
  /-- the exit status of `aidl --checkapi=equal` -/
  equalStatus : Files → Files → ℕ
  /-- `aidl --preprocess` accepts the sources of the interface that is frozen -/
  fulfilled : Bool
  /-- what `cp -rf` of a dump into a version directory leaves there -/
  copied : Dump Hash → Option (Dump Hash) → Option (Dump Hash)
  /-- `interface-update` appends its entry to the definition file -/
  appends : Bool

/-- The files of both, those of `new` where both have one. -/
def overlay (old new : Files) : Files := new.entries.foldl (fun fs e => fs.set e.1 e.2) old

/-- `cp -rf` of a whole dump. -/
def copyDump {Hash : Type} (dump : Dump Hash) : Option (Dump Hash) → Dump Hash
  | none => dump
  | some old => ⟨overlay old.files dump.files, dump.hashFile.or old.hashFile⟩

/-- The files in the order they are hashed in. -/
def sortedFiles (files : Files) : List (Text × Text) := files.entries.insertionSort (·.1 ≤ ·.1)

/-- `version_for_hashgen` -/
def versionForHashgen (version : Text) : Except ToolError Text := do
  let ver ← intOf version
  return if ver > 1 then ofInt (ver - 1) else "latest-version".toList

/-- `has_frozen_versions` -/
def hasFrozenVersions {Hash : Type} (stable : Dict Text (Dump Hash)) : Bool := stable.keys.any allDigits

/-- An API dump: the version it counts as and its directory. -/
structure ApiDump (Hash : Type) where
  version : Text
  dump : Dump Hash

/-- A tool changes the store as it goes and may raise on the way. -/
abbrev Tool (Hash : Type) := ExceptT ToolError (StateM (Store Hash))

section Tools
variable {Hash : Type} [DecidableEq Hash] (hash : List (Text × Text) → Text → Hash) (shell : Shell Hash)
  (i : AidlInterface)

/-! ### Checks -/

/-- `check_integrity`: the last line of `.hash` is the hash of the files with the tag of the version. -/
def checkIntegrity (d : ApiDump Hash) : Except ToolError Unit := do
  let tag ← versionForHashgen d.version
  if d.dump.hashFile.bind List.getLast? = some (hash (sortedFiles d.dump.files) tag) then return ()
  else throw (.integrity i.baseName d.version)

/-- `check_compatibility` -/
def checkCompatibility (old new : Files) (newVersion : Text) : Except ToolError Unit := do
  let _ ← getDependencies shell.host shell.interfaces i newVersion false
  if shell.compatible old new then return () else throw (.checkApi i.baseName newVersion)

/-- The dump of a listed version, whose directory has to be there. -/
def versionDump (stable : Dict Text (Dump Hash)) (ver : Text) : Except ToolError (ApiDump Hash) :=
  match stable.get? ver with
  | some dump => .ok ⟨ver, dump⟩
  | none => .error (.noVersionDirectory ver)

/-- The dumps of the listed versions; they are only looked for when some numbered directory exists. -/
def frozenDumps (stable : Dict Text (Dump Hash)) : Except ToolError (List (ApiDump Hash)) :=
  if hasFrozenVersions stable then i.versions.mapM (versionDump stable) else .ok []

/-- The dumps of all versions of the interface, the current one last. -/
def apiDumps (stable : Dict Text (Dump Hash)) : Except ToolError (List (ApiDump Hash)) := do
  let frozen ← frozenDumps i stable
  return frozen ++ ((stable.get? currentVersion).map fun dump => ⟨i.nextVersion, dump⟩).toList

/-- Only the last dump, the current one, may lack a hash file. -/
def checkHashFile (last : Bool) (d : ApiDump Hash) : Except ToolError Unit :=
  if d.dump.hashFile.isSome then checkIntegrity hash i d
  else if last then .ok () else .error (.noHashFile d.version)

def checkAgainst (before : Option (ApiDump Hash)) (d : ApiDump Hash) : Except ToolError Unit :=
  match before with
  | some old => checkCompatibility shell i old.dump.files d.dump.files d.version
  | none => .ok ()

/-- The loop of `validate_interface` over the dumps behind `before`. -/
def validateDumps (before : Option (ApiDump Hash)) : List (ApiDump Hash) → Except ToolError Unit
  | [] => .ok ()
  | d :: rest => do
    checkHashFile hash i rest.isEmpty d
    checkAgainst shell i before d
    validateDumps (some d) rest

/-- `validate_interface` -/
def validateInterface (stable : Dict Text (Dump Hash)) : Except ToolError (List (ApiDump Hash)) := do
  let dumps ← apiDumps i stable
  validateDumps hash shell i none dumps
  return dumps

/-! ### Updating -/

/-- `update_hash_for_current_api`: the old hash file is removed, `aidl_hash_gen` appends a line to a new one. -/
def updateHashForCurrentApi : Tool Hash Unit := do
  let tag ← versionForHashgen i.nextVersion
  modify fun s =>
    match s.stable.get? currentVersion with
    | some dump =>
      { s with stable := s.stable.set currentVersion ⟨dump.files, some [hash (sortedFiles dump.files) tag]⟩ }
    | none => s

/-- `except (AssertionError, RuntimeError)` -/
def ToolError.caught : ToolError → Bool
  | .malformed _ | .importSpec _ | .notNumber _ | .noInterface _ | .noTarget _ | .cycle | .notEncodable _ | .fatal _ => false
  | _ => true

/-- The check of the sources against the stable API before they are copied over it. -/
def preValidate (s : Store Hash) : Except ToolError Unit :=
  match s.stable.get? currentVersion with
  | some dump =>
    if hasFrozenVersions s.stable then
      match checkCompatibility shell i dump.files s.source i.nextVersion with
      | .error e => if e.caught then .error .updateAborted else .error e
      | .ok u => .ok u
    else .ok ()
  | none => .ok ()

/-- `rsync` of the sources over the current directory, which is created if need be; it deletes nothing. -/
def copySources (s : Store Hash) : Store Hash :=
  let dump := (s.stable.get? currentVersion).getD ⟨Dict.empty, none⟩
  { s with stable := s.stable.set currentVersion ⟨overlay dump.files s.source, dump.hashFile⟩ }

/-- `handle_update_api` -/
def handleUpdateApi : Tool Hash Unit := do
  if i.layout = "module-local".toList then return ()
  else
    preValidate shell i (← get)
    modify copySources
    updateHashForCurrentApi hash i
    let _ ← validateInterface hash shell i (← get).stable

/-! ### Freezing -/

/-- `check_for_development`: the number it writes to the file `has_development`. -/
def checkForDevelopment (latest : Option (ApiDump Hash)) (tot : ApiDump Hash) : Except ToolError ℕ :=
  match latest with
  | some old => do
    let _ ← getDependencies shell.host shell.interfaces i tot.version false
    return shell.equalStatus old.dump.files tot.dump.files
  | none => .ok 1

/-- `dependecies_check_for_freeze` -/
def dependenciesCheckForFreeze (stable : Dict Text (Dump Hash)) : Except ToolError Unit := do
  let _ ← getDependencies shell.host shell.interfaces i i.nextVersion true
  if (stable.get? currentVersion).isNone then throw (.noImportDirectory i.baseName currentVersion)
  else if shell.fulfilled then return () else throw (.preprocess i.baseName i.nextVersion)

/-- What the command of `make_api_dump_as_version` does for a new version: without a development, nothing. -/
def dumpAsVersion (version : Text) (hasDevelopment : ℕ) (s : Store Hash) : Store Hash :=
  match s.stable.get? currentVersion with
  | some dump =>
    if hasDevelopment = 1 then
      match shell.copied dump (s.stable.get? version) with
      | some copy => { s with stable := s.stable.set version copy }
      | none => s
    else s
  | none => s

/-- `make_api_dump_as_version` for a version other than `current` -/
def makeApiDumpAsVersion (version : Text) (hasDevelopment : ℕ) : Tool Hash Unit :=
  modify (dumpAsVersion shell version hasDevelopment)

/-- The names `append_version` records for the imports of a version: each at its latest version. -/
def recordedImports (interfaces : Dict Text AidlInterface) : Except ToolError (List Text) :=
  i.imports.mapM fun imp => do
    let j ← lookupInterface interfaces imp
    return j.versionedName j.latestVersion

def Definition.addVersion (d : Definition) (e : VersionInfo) : Definition :=
  { d with versionsWithInfo := d.versionsWithInfo ++ [e] }

/-- What the command of `append_version` does. -/
def recordVersion (entry : VersionInfo) (hasDevelopment : ℕ) (s : Store Hash) : Store Hash :=
  if hasDevelopment = 1 ∧ shell.appends = true then { s with definition := s.definition.addVersion entry } else s

/-- `append_version` -/
def appendVersion (version : Text) (hasDevelopment : ℕ) : Tool Hash Unit := do
  let imports ← recordedImports i shell.interfaces
  modify (recordVersion shell ⟨version, imports⟩ hasDevelopment)

/-- `handle_freeze_api` -/
def handleFreezeApi : Tool Hash Unit := do
  let dumps ← validateInterface hash shell i (← get).stable
  match dumps.getLast? with
  | none => throw (.fatal i.baseName)
  | some tot =>
    if tot.version ≠ i.nextVersion then throw (.fatal i.baseName)
    else
      updateHashForCurrentApi hash i
      let hasDevelopment ← checkForDevelopment shell i dumps.dropLast.getLast? tot
      dependenciesCheckForFreeze shell i (← get).stable
      makeApiDumpAsVersion shell i.nextVersion hasDevelopment
      appendVersion shell i i.nextVersion hasDevelopment

end Tools

end BinderIdl.Interface
