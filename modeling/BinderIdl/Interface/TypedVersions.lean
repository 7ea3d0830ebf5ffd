import BinderIdl.Interface.Definition

/-! Definition files whose version fields are not all quoted: what `_load_interface` keys the imports by, and what
    `get_imports` then finds (`host/aidl_interface.py`). -/

namespace BinderIdl.Interface
open Py

/-- The version field of an entry: a text, or a number when it is not quoted. Of the numbers it only matters which of
    them are equal. -/
inductive VersionField (Number : Type) where
  | text (t : Text)
  | number (n : Number)
deriving DecidableEq

/-- An entry of `versions_with_info` with the type of its version. -/
structure TypedInfo (Number : Type) where
  version : VersionField Number
  imports : List Text

/-- A definition file; `definition` has everything but the entries of `versions_with_info`. -/
structure TypedDefinition (Number : Type) where
  definition : Definition
  entries : List (TypedInfo Number)

/-- A loaded interface with `versions_with_info` as it is; `interface` has what is found by a text. -/
structure TypedInterface (Number : Type) [DecidableEq Number] where
  interface : AidlInterface
  versionsWithInfo : Dict (VersionField Number) (List Text)

variable {Number : Type} [DecidableEq Number]

/-- The entry with its version, if that is quoted. -/
def TypedInfo.quoted? (e : TypedInfo Number) : Option VersionInfo :=
  match e.version with
  | .text t => some ⟨t, e.imports⟩
  | .number _ => none

/-- `_load_interface` -/
def loadTyped (root : Text) (d : TypedDefinition Number) : Except ToolError (TypedInterface Number) := do
  let i ← loadInterface root { d.definition with versionsWithInfo := d.entries.filterMap TypedInfo.quoted? }
  return {
    interface := { i with versionCount := d.entries.length }
    versionsWithInfo := Dict.ofPairs (d.entries.map fun e => (e.version, e.imports)) }

/-- How `get_imports` reads the entry of a frozen version. -/
def readImports (imports : List Text) : Dict Text Text := Dict.ofPairs (imports.map (partitionOn "-v".toList))

/-- How `get_imports` reads the list of current imports. -/
def AidlInterface.currentImports (i : AidlInterface) : Dict Text Text :=
  Dict.ofPairs (i.imports.map fun imp => (imp, i.pinOf imp))

/-- `get_imports`: the key is `str(version)`. -/
def TypedInterface.getImports (i : TypedInterface Number) (version : Text) : Except ToolError (Dict Text Text) :=
  match i.versionsWithInfo.get? (.text version) with
  | some imports => .ok (readImports imports)
  | none =>
    if version ≠ i.interface.nextVersion then .error (.unknownVersion i.interface.baseName version)
    else .ok i.interface.currentImports

/-- The key and the value that an entry adds. -/
def TypedInfo.pair (e : TypedInfo Number) : VersionField Number × List Text := (e.version, e.imports)

theorem loadTyped_eq_ok {root : Text} {d : TypedDefinition Number} {i : TypedInterface Number}
    (loaded : loadTyped root d = .ok i) :
    i.interface.versionCount = d.entries.length ∧ i.versionsWithInfo = Dict.ofPairs (d.entries.map TypedInfo.pair) ∧
      i.interface.versionsWithInfo =
        Dict.ofPairs ((d.entries.filterMap TypedInfo.quoted?).map fun e => (e.version, e.imports)) := by
  obtain ⟨interface, found, same⟩ := bind_eq_ok.mp loaded
  cases same
  obtain ⟨imports, -, rfl⟩ := loadInterface_eq_ok found
  exact ⟨rfl, rfl, rfl⟩

end BinderIdl.Interface
