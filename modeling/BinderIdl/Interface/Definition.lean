import BinderIdl.Py.Number
import BinderIdl.Py.Outcome
import BinderIdl.Py.Dict

/-! Interface definition files and the interfaces loaded from them (`host/aidl_interface.py`). -/

namespace BinderIdl.Interface
open Py

/-- The exceptions the tools end with, by cause. -/
inductive ToolError where
  | malformed (root : Text) -- what the loader raises for a definition file that is none
  | importSpec (spec : Text) -- `ValueError` of `parse_import_spec`
  | notNumber (v : Text) -- `ValueError` of `int(v)`
  | noInterface (name : Text) -- `KeyError` of `interfaces[name]`
  | unknownVersion (name version : Text) -- `Unknown version provided`
  | noVersion -- `version needs to be provided`
  | unresolvedTarget (target consumer : Text) -- `Unresolved versioned-import target`
  | noTarget (target : Text) -- `KeyError` of `indegree[dep]`
  | cycle -- `Cycle detected in dependencies`
  | recursionDepth -- `RecursionError`
  | noImportDirectory (name version : Text) -- `The import directory .., does not exist.`
  | preprocess (name version : Text) -- `aidl --preprocess` failed
  | noVersionDirectory (version : Text) -- `API version .. path .. does not exist.`
  | noHashFile (version : Text) -- `No hash file(..) found for the frozen version ..`
  | integrity (name version : Text) -- `Hash integrity check failed for ..`
  | checkApi (old new : Text) -- `Failed at check_api. Please update the module`
  | wrongVersion (name version : Text) -- `Provide the correct version.`
  | notEncodable (line : Text) -- `UnicodeEncodeError` of `file.write`
  | updateAborted -- `Compatibility validation failed - aborting update to prevent data corruption`
  | fatal (name : Text) -- the program ends in `logger.fatal`
deriving DecidableEq, Repr

def currentVersion : Text := "current".toList

/-- `IMPORT_VERSION_UNPINNED` -/
def importVersionUnpinned : Text := "unknown".toList

/-- An entry of `versions_with_info`. -/
structure VersionInfo where
  version : Text
  imports : List Text
deriving DecidableEq, Repr

/-- What the tools read of an `interface.yaml` or `interface.json`. -/
structure Definition where
  name : Text
  imports : List Text
  stability : Option Text
  layout : Option Text
  frozenLocation : Option Text
  versionsWithInfo : List VersionInfo
deriving DecidableEq, Repr

/-- `parse_import_spec` -/
def parseImportSpec (spec : Text) : Except ToolError (Text × Option Text) :=
  if '@' ∈ spec then
    let (name, version) := partition '@' spec
    if name = [] ∨ version = [] then .error (.importSpec spec) else .ok (name, some version)
  else .ok (spec, none)

/-- `path.basename` -/
def basename (p : Text) : Text := p.rtakeWhile (· != '/')

/-- `path.dirname` -/
def dirname (p : Text) : Text :=
  let head := p.rdropWhile (· != '/')
  if head.all (· == '/') then head else head.rdropWhile (· == '/')

/-- A loaded interface: `importVersions` has the pin of each imported name, if any, and `versionCount` is the
    number of its frozen versions. -/
structure AidlInterface where
  baseName : Text
  interfaceRoot : Text
  layout : Text
  imports : List Text
  importVersions : Dict Text (Option Text)
  stability : Option Text
  versionCount : Nat
  versionsWithInfo : Dict Text (List Text)
deriving DecidableEq

/-- `layout`, or what the older `frozen_location` says about it. -/
def Definition.layoutName (d : Definition) : Text :=
  match d.layout with
  | some l => l
  | none => if d.frozenLocation = some "interface".toList then "module-local".toList else "central".toList

/-- `_load_interface`. The versions are counted by their place in `versions_with_info`; the version field of an
    entry is only the key of its imports. -/
def loadInterface (root : Text) (d : Definition) : Except ToolError AidlInterface := do
  let imports ← d.imports.mapM parseImportSpec
  return {
    baseName := d.name
    interfaceRoot := root
    layout := d.layoutName
    imports := imports.map Prod.fst
    importVersions := Dict.ofPairs imports
    stability := d.stability
    versionCount := d.versionsWithInfo.length
    versionsWithInfo := Dict.ofPairs (d.versionsWithInfo.map fun e => (e.version, e.imports)) }

/-- `str(n)` -/
def versionNumber (n : Nat) : Text := ofInt (n : Int)

theorem versionNumber_injective {n m : Nat} (h : versionNumber n = versionNumber m) : n = m :=
  Int.ofNat.inj (ofInt_injective h)

theorem isDigit_versionNumber {n : ℕ} {c : Char} (h : c ∈ versionNumber n) : c.isDigit = true := by
  rw [versionNumber, ofInt_natCast] at h
  exact Nat.isDigit_of_mem_toDigits (by decide) (by decide) h

theorem versionNumber_ne_current (n : ℕ) : versionNumber n ≠ currentVersion := by
  intro same
  have digits := allDigits_ofInt n
  rw [show ofInt (n : Int) = currentVersion from same] at digits
  exact absurd digits (by decide)

namespace AidlInterface

/-- The list `versions`: `"1"`, `"2"`, … -/
def versions (i : AidlInterface) : List Text := (List.range i.versionCount).map fun k => versionNumber (k + 1)

def unstable (i : AidlInterface) : Prop := i.stability = some "unstable".toList

instance (i : AidlInterface) : Decidable i.unstable := inferInstanceAs (Decidable (_ = _))

/-- `next_version`; `int(ver)` does not fail on an entry of `versions`. -/
def nextVersion (i : AidlInterface) : Text :=
  if i.unstable then []
  else
    match i.versions.getLast? with
    | none => "1".toList
    | some ver => ofInt ((int? ver).getD 0 + 1)

/-- `latest_version` -/
def latestVersion (i : AidlInterface) : Text :=
  if i.unstable then []
  else
    match i.versions.getLast? with
    | none => "0".toList
    | some ver => ver

/-- `versioned_name` -/
def versionedName (i : AidlInterface) (version : Text) : Text := i.baseName ++ "-v".toList ++ version

/-- The pin `get_imports` gives an import of the unfrozen version; `@current` counts as none. -/
def pinOf (i : AidlInterface) (imp : Text) : Text :=
  match (i.importVersions.get? imp).join with
  | none => importVersionUnpinned
  | some pin => if pin = currentVersion then importVersionUnpinned else pin

/-- `get_imports` -/
def getImports (i : AidlInterface) (version : Text) : Except ToolError (Dict Text Text) :=
  match i.versionsWithInfo.get? version with
  | some imports => .ok (Dict.ofPairs (imports.map (partitionOn "-v".toList)))
  | none =>
    if version ≠ i.nextVersion then .error (.unknownVersion i.baseName version)
    else .ok (Dict.ofPairs (i.imports.map fun imp => (imp, i.pinOf imp)))

/-! ### Version numbers -/

variable {i : AidlInterface}

theorem getLast?_versions (i : AidlInterface) :
    i.versions.getLast? = if i.versionCount = 0 then none else some (versionNumber i.versionCount) := by
  rw [versions]
  cases i.versionCount with
  | zero => rfl
  | succ n => rw [List.range_succ, List.map_append, List.map_singleton, List.getLast?_concat, if_neg (by omega)]

/-- The next version is one more than the number of entries, whatever the entries say. -/
theorem nextVersion_of_stable (stable : ¬i.unstable) : i.nextVersion = versionNumber (i.versionCount + 1) := by
  rw [nextVersion, if_neg stable, getLast?_versions]
  cases i.versionCount with
  | zero => rfl
  | succ n =>
    rw [if_neg (by omega)]
    simp only [versionNumber, int?_ofInt]
    rfl

theorem latestVersion_of_stable (stable : ¬i.unstable) : i.latestVersion = versionNumber i.versionCount := by
  rw [latestVersion, if_neg stable, getLast?_versions]
  cases i.versionCount with
  | zero => rfl
  | succ n => rw [if_neg (by omega)]

theorem mem_versions {ver : Text} : ver ∈ i.versions ↔ ∃ k, 1 ≤ k ∧ k ≤ i.versionCount ∧ ver = versionNumber k := by
  rw [versions, List.mem_map]
  constructor
  · rintro ⟨k, member, rfl⟩
    exact ⟨k + 1, by omega, List.mem_range.mp member, rfl⟩
  · rintro ⟨k, pos, le, rfl⟩
    exact ⟨k - 1, List.mem_range.mpr (by omega), by rw [Nat.sub_add_cancel pos]⟩

theorem nextVersion_notMem_versions (i : AidlInterface) : i.nextVersion ∉ i.versions := by
  intro member
  obtain ⟨k, pos, le, same⟩ := mem_versions.mp member
  by_cases unstable : i.unstable
  · rw [nextVersion, if_pos unstable] at same
    exact ofInt_ne_nil _ same.symm
  · rw [nextVersion_of_stable unstable] at same
    have := versionNumber_injective same
    omega

theorem getImports_nextVersion (i : AidlInterface) : ∃ imports, i.getImports i.nextVersion = .ok imports := by
  rw [getImports]
  cases i.versionsWithInfo.get? i.nextVersion with
  | none => exact ⟨_, if_neg (fun h => h rfl)⟩
  | some imports => exact ⟨_, rfl⟩

end AidlInterface

theorem loadInterface_eq_ok {root : Text} {d : Definition} {i : AidlInterface} (h : loadInterface root d = .ok i) :
    ∃ imports, d.imports.mapM parseImportSpec = .ok imports ∧
      i = ⟨d.name, root, d.layoutName, imports.map Prod.fst, Dict.ofPairs imports, d.stability,
        d.versionsWithInfo.length, Dict.ofPairs (d.versionsWithInfo.map fun e => (e.version, e.imports))⟩ := by
  obtain ⟨imports, parsed, loaded⟩ := bind_eq_ok.mp h
  cases loaded
  exact ⟨imports, parsed, rfl⟩

end BinderIdl.Interface
