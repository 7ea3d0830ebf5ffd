import BinderIdl.Interface.TypedVersions

/-! Versions by their place in the list and versions by their field: when `get_imports` finds under the numbers that
    `latest_version` and `next_version` count what the entries and the import list say. -/

namespace BinderIdl.Interface
open Py

variable {Number : Type} [DecidableEq Number] {root : Text} {d : TypedDefinition Number} {i : TypedInterface Number}

/-! ### What the definition says -/

/-- The version an import asks for: `@current` counts as none. -/
def pinText : Option Text → Text
  | none => importVersionUnpinned
  | some pin => if pin = currentVersion then importVersionUnpinned else pin

/-- The current imports of a definition. -/
def TypedDefinition.currentImports (d : TypedDefinition Number) : Dict Text Text :=
  Dict.ofPairs ((d.definition.imports.filterMap fun spec => (parseImportSpec spec).toOption).map fun imp =>
    (imp.1, pinText imp.2))

/-- The imports of the last entry whose version is the quoted number. -/
def TypedDefinition.importsOf? (d : TypedDefinition Number) (n : ℕ) : Option (List Text) :=
  (d.entries.reverse.find? fun e => e.version = .text (versionNumber n)).map TypedInfo.imports

/-- The latest version has the imports of the last entry, and the next one the current imports; neither raises. -/
structure Positional (d : TypedDefinition Number) (i : TypedInterface Number) : Prop where
  latest : ∀ last ∈ d.entries.getLast?, ∃ imports,
    i.getImports i.interface.latestVersion = .ok imports ∧ imports.Same (readImports last.imports)
  next : ∃ imports, i.getImports i.interface.nextVersion = .ok imports ∧ imports.Same d.currentImports

/-- The entries are numbered by their places as far as it matters: the count is the version of an entry that imports what
    the last one does, and one more than the count of none that imports something else than the current list. -/
structure CountedAlike (d : TypedDefinition Number) : Prop where
  latest : ∀ last ∈ d.entries.getLast?, ∃ imports,
    d.importsOf? d.entries.length = some imports ∧ (readImports imports).Same (readImports last.imports)
  next : ∀ imports, d.importsOf? (d.entries.length + 1) = some imports →
    (readImports imports).Same d.currentImports

/-! ### What is loaded -/

theorem lookup_pair (entries : List (TypedInfo Number)) (v : VersionField Number) :
    (entries.map TypedInfo.pair).lookup v = (entries.find? fun e => e.version = v).map TypedInfo.imports := by
  induction entries with
  | nil => rfl
  | cons e entries ih =>
    rw [List.map_cons, TypedInfo.pair, Dict.lookup_cons_eq, List.find?_cons, ih]
    by_cases same : v = e.version
    · rw [if_pos same, decide_eq_true same.symm]
      rfl
    · rw [if_neg same, decide_eq_false fun h => same h.symm]

theorem get?_versionsWithInfo (loaded : loadTyped root d = .ok i) (n : ℕ) :
    i.versionsWithInfo.get? (.text (versionNumber n)) = d.importsOf? n := by
  obtain ⟨-, all, -⟩ := loadTyped_eq_ok loaded
  rw [all, Dict.get?_ofPairs, ← List.map_reverse, lookup_pair]
  rfl

theorem filterMap_parsed {specs : List Text} {parsed : List (Text × Option Text)}
    (h : specs.mapM parseImportSpec = .ok parsed) :
    (specs.filterMap fun spec => (parseImportSpec spec).toOption) = parsed := by
  rw [mapM_eq_ok_iff_forall₂] at h
  induction h with
  | nil => rfl
  | @cons spec imp specs parsed first _ ih =>
    have kept : (parseImportSpec spec).toOption = some imp := congrArg Except.toOption first
    rw [List.filterMap_cons, kept, ih]

/-- Reading the loaded names with the loaded pins is reading the definition: of a name that is imported twice, both have
    the last pin. -/
theorem currentImports_same (loaded : loadTyped root d = .ok i) : i.interface.currentImports.Same d.currentImports := by
  obtain ⟨interface, found, same⟩ := bind_eq_ok.mp loaded
  cases same
  obtain ⟨parsed, ok, rfl⟩ := loadInterface_eq_ok found
  intro name
  rw [TypedDefinition.currentImports, filterMap_parsed ok, Dict.get?_ofPairs_map]
  show (Dict.ofPairs ((parsed.map Prod.fst).map fun imp => (imp, pinText ((Dict.ofPairs parsed).get? imp).join))).get? name
    = _
  rw [Dict.get?_ofPairs_keyed]
  cases pin : (Dict.ofPairs parsed).get? name with
  | none => exact if_neg fun member => Dict.get?_eq_none_iff.mp pin (Dict.mem_keys_ofPairs.mpr member)
  | some v => exact if_pos (Dict.mem_keys_ofPairs.mp (Dict.mem_keys_of_get? pin))

/-! ### Numbers and fields -/

theorem getImports_latestVersion (loaded : loadTyped root d = .ok i) (stable : ¬i.interface.unstable) :
    i.getImports i.interface.latestVersion =
      match d.importsOf? d.entries.length with
      | some imports => .ok (readImports imports)
      | none => .error (.unknownVersion i.interface.baseName i.interface.latestVersion) := by
  obtain ⟨count, -⟩ := loadTyped_eq_ok loaded
  have counted := AidlInterface.latestVersion_of_stable stable
  have other : i.interface.latestVersion ≠ i.interface.nextVersion := by
    rw [counted, AidlInterface.nextVersion_of_stable stable]
    exact fun same => Nat.succ_ne_self _ (versionNumber_injective same).symm
  have found := get?_versionsWithInfo loaded d.entries.length
  rw [← count, ← counted, count] at found
  rw [TypedInterface.getImports, found]
  cases d.importsOf? d.entries.length with
  | some imports => rfl
  | none => exact if_pos other

theorem getImports_nextVersion (loaded : loadTyped root d = .ok i) (stable : ¬i.interface.unstable) :
    i.getImports i.interface.nextVersion =
      match d.importsOf? (d.entries.length + 1) with
      | some imports => .ok (readImports imports)
      | none => .ok i.interface.currentImports := by
  obtain ⟨count, -⟩ := loadTyped_eq_ok loaded
  have counted := AidlInterface.nextVersion_of_stable stable
  have found := get?_versionsWithInfo loaded (d.entries.length + 1)
  rw [← count, ← counted, count] at found
  rw [TypedInterface.getImports, found]
  cases d.importsOf? (d.entries.length + 1) with
  | some imports => rfl
  | none => exact if_neg fun h => h rfl

/-- The positions and the fields agree exactly when the entries are numbered by their places as far as it matters. -/
theorem positional_iff (loaded : loadTyped root d = .ok i) (stable : ¬i.interface.unstable) :
    Positional d i ↔ CountedAlike d := by
  have latest := getImports_latestVersion loaded stable
  have next := getImports_nextVersion loaded stable
  constructor
  · rintro ⟨recorded, current⟩
    refine ⟨fun last member => ?_, fun imports found => ?_⟩
    · obtain ⟨imports, returned, same⟩ := recorded last member
      rw [latest] at returned
      cases found : d.importsOf? d.entries.length with
      | none =>
        rw [found] at returned
        cases returned
      | some entry =>
        rw [found] at returned
        cases returned
        exact ⟨entry, rfl, same⟩
    · obtain ⟨_, returned, same⟩ := current
      rw [next, found] at returned
      cases returned
      exact same
  · rintro ⟨recorded, current⟩
    refine ⟨fun last member => ?_, ?_⟩
    · obtain ⟨imports, found, same⟩ := recorded last member
      rw [latest, found]
      exact ⟨_, rfl, same⟩
    · rw [next]
      cases found : d.importsOf? (d.entries.length + 1) with
      | none => exact ⟨_, rfl, currentImports_same loaded⟩
      | some imports => exact ⟨_, rfl, current imports found⟩

/-- One frozen version without imports, with the given version field. -/
def onceFrozen (version : VersionField ℚ) : TypedDefinition ℚ :=
  ⟨⟨"hal".toList, [], none, none, none, []⟩, [⟨version, []⟩]⟩

def halLoaded (version : VersionField ℚ) (recorded : Dict Text (List Text)) : TypedInterface ℚ :=
  ⟨⟨"hal".toList, "hal/current".toList, "central".toList, [], Dict.empty, none, 1, recorded⟩,
    Dict.ofPairs [(version, [])]⟩

theorem positional_quoted :
    Positional (onceFrozen (.text "1".toList)) (halLoaded (.text "1".toList) (Dict.ofPairs [("1".toList, [])])) ↔
      CountedAlike (onceFrozen (.text "1".toList)) :=
  positional_iff (rfl : loadTyped "hal/current".toList _ = _) (by decide +kernel)

/-- `version: 1` without quotes: the latest version is `"1"`, and there is no such key. -/
theorem unquoted_version_unknown :
    loadTyped "hal/current".toList (onceFrozen (.number 1)) = .ok (halLoaded (.number 1) Dict.empty) ∧
      (halLoaded (.number 1) Dict.empty).getImports (halLoaded (.number 1) Dict.empty).interface.latestVersion =
        .error (.unknownVersion "hal".toList "1".toList) ∧
      ¬Positional (onceFrozen (.number 1)) (halLoaded (.number 1) Dict.empty) := by
  have raised : (halLoaded (.number 1) Dict.empty).getImports (halLoaded (.number 1) Dict.empty).interface.latestVersion =
      .error (.unknownVersion "hal".toList "1".toList) := by decide +kernel
  refine ⟨rfl, raised, fun positional => ?_⟩
  obtain ⟨imports, returned, -⟩ := positional.latest _ rfl
  rw [raised] at returned
  cases returned

end BinderIdl.Interface
