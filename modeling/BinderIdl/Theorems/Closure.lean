import BinderIdl.Theorems.Registry
import BinderIdl.Theorems.Integrity
import BinderIdl.Theorems.Linking

/-! Freezing an interface and the map of targets of the reloaded set. `append_version` records each import at its
    latest version, whether or not that version is registered. -/

namespace BinderIdl.Interface
open Py

/-! ### Reloading with one more version -/

/-- The interface loaded from a definition with one more version. -/
def AidlInterface.withVersion (i : AidlInterface) (e : VersionInfo) : AidlInterface :=
  { i with versionCount := i.versionCount + 1, versionsWithInfo := i.versionsWithInfo.set e.version e.imports }

theorem loadInterface_withVersion {root : Text} {d : Definition} {i : AidlInterface}
    (load : loadInterface root d = .ok i) (e : VersionInfo) :
    loadInterface root (d.addVersion e) = .ok (i.withVersion e) := by
  obtain ⟨imports, parsed, rfl⟩ := loadInterface_eq_ok load
  refine bind_eq_ok.mpr ⟨imports, parsed, ?_⟩
  simp only [Definition.addVersion, AidlInterface.withVersion, List.length_append, List.map_append, Dict.ofPairs,
    List.foldl_append]
  rfl

/-- The loaded interfaces with `i` replaced by `j`. -/
def replaceLoaded (i j : AidlInterface) (allLoaded : List AidlInterface) : List AidlInterface :=
  allLoaded.map fun k => if k.interfaceRoot = i.interfaceRoot then j else k

theorem interfaceRoot_of_loadAt {ds : Definitions} {root : Text} {i : AidlInterface} (load : loadAt ds root = .ok i) :
    i.interfaceRoot = root ∧ ∃ d, ds.get? root = some d ∧ loadInterface root d = .ok i := by
  rw [loadAt] at load
  cases found : ds.get? root with
  | none =>
    rw [found] at load
    cases load
  | some d =>
    rw [found] at load
    obtain ⟨imports, -, rfl⟩ := loadInterface_eq_ok load
    exact ⟨rfl, d, rfl, load⟩

theorem loadAt_of_mem {ds : Definitions} {allLoaded : List AidlInterface} {i : AidlInterface}
    (load : loadAll ds = .ok allLoaded) (member : i ∈ allLoaded) : loadAt ds i.interfaceRoot = .ok i := by
  obtain ⟨root, -, loaded⟩ := exists_of_mem_mapM load member
  obtain ⟨same, -⟩ := interfaceRoot_of_loadAt loaded
  exact same ▸ loaded

theorem eq_of_interfaceRoot {ds : Definitions} {allLoaded : List AidlInterface} {i j : AidlInterface}
    (load : loadAll ds = .ok allLoaded) (hi : i ∈ allLoaded) (hj : j ∈ allLoaded)
    (same : j.interfaceRoot = i.interfaceRoot) : j = i := by
  have loaded := loadAt_of_mem load hj
  rw [same, loadAt_of_mem load hi] at loaded
  exact (Except.ok.inj loaded).symm

/-- After the definition of a loaded interface has changed, it alone is loaded anew. -/
theorem loadAll_set {ds : Definitions} {allLoaded : List AidlInterface} {i j : AidlInterface} {d : Definition}
    (load : loadAll ds = .ok allLoaded) (member : i ∈ allLoaded)
    (changed : loadInterface i.interfaceRoot d = .ok j) :
    loadAll (ds.set i.interfaceRoot d) = .ok (replaceLoaded i j allLoaded) := by
  have root : i.interfaceRoot ∈ ds.keys := by
    obtain ⟨-, d', found, -⟩ := interfaceRoot_of_loadAt (loadAt_of_mem load member)
    exact Dict.mem_keys_of_get? found
  rw [loadAll, mapM_eq_ok_iff_forall₂] at load
  have locations : interfaceLocations (ds.set i.interfaceRoot d) = interfaceLocations ds := by
    rw [interfaceLocations, Dict.keys_set_of_mem root]
    rfl
  rw [loadAll, locations, mapM_eq_ok_iff_forall₂, replaceLoaded, List.forall₂_map_right_iff]
  refine load.imp fun r k loaded => ?_
  obtain ⟨same, d', found, loadK⟩ := interfaceRoot_of_loadAt loaded
  rw [loadAt, Dict.get?_set, same]
  by_cases here : r = i.interfaceRoot
  · rw [if_pos here, if_pos here, here]
    exact changed
  · rw [if_neg here, if_neg here, found]
    exact loadK

section Replace
variable {ds : Definitions} {allLoaded : List AidlInterface} {name : Text} {i j : AidlInterface}

theorem entries_replaceLoaded (load : loadAll ds = .ok allLoaded)
    (known : (interfacesOf allLoaded).get? name = some i) (sameName : j.baseName = i.baseName) :
    ∃ before after, (interfacesOf allLoaded).entries = before ++ (name, i) :: after ∧
      (interfacesOf (replaceLoaded i j allLoaded)).entries = before ++ (name, j) :: after ∧
      (∀ e ∈ before, e.1 ≠ name) ∧ ∀ e ∈ after, e.1 ≠ name := by
  obtain ⟨memberI, nameI⟩ := mem_of_interfacesOf known
  have pairs : (replaceLoaded i j allLoaded).map (fun k => (k.baseName, k)) =
      (allLoaded.map fun k => (k.baseName, k)).map
        fun p => (p.1, if p.2.interfaceRoot = i.interfaceRoot then j else p.2) := by
    rw [replaceLoaded, List.map_map, List.map_map]
    refine List.map_congr_left fun k member => ?_
    simp only [Function.comp_apply]
    by_cases here : k.interfaceRoot = i.interfaceRoot
    · rw [if_pos here, sameName, eq_of_interfaceRoot load memberI member here]
    · rw [if_neg here]
  have entries := Dict.entries_ofPairs_map (fun k : AidlInterface => if k.interfaceRoot = i.interfaceRoot then j else k)
    (allLoaded.map fun k => (k.baseName, k))
  obtain ⟨before, after, split⟩ := List.append_of_mem (Dict.mem_entries_of_get? known)
  have keys := (interfacesOf allLoaded).nodup
  rw [split, List.map_append, List.map_cons, List.nodup_middle, List.nodup_cons, List.mem_append] at keys
  have others : ∀ es : List (Text × AidlInterface), (∀ e ∈ es, e ∈ (interfacesOf allLoaded).entries) →
      (∀ e ∈ es, e.1 ≠ name) →
      es.map (fun e => (e.1, if e.2.interfaceRoot = i.interfaceRoot then j else e.2)) = es := by
    intro es sub ne
    conv_rhs => rw [← List.map_id es]
    refine List.map_congr_left fun e member => ?_
    obtain ⟨memberE, nameE⟩ := mem_of_interfacesOf (Dict.get?_of_mem_entries (sub e member))
    rw [if_neg fun here => ne e member (nameE ▸ eq_of_interfaceRoot load memberI memberE here ▸ nameI)]
    rfl
  have notBefore : ∀ e ∈ before, e.1 ≠ name := fun e member same =>
    keys.1 (.inl (List.mem_map.mpr ⟨e, member, same⟩))
  have notAfter : ∀ e ∈ after, e.1 ≠ name := fun e member same =>
    keys.1 (.inr (List.mem_map.mpr ⟨e, member, same⟩))
  refine ⟨before, after, split, ?_, notBefore, notAfter⟩
  rw [interfacesOf, pairs, entries]
  show (interfacesOf allLoaded).entries.map _ = _
  rw [split, List.map_append, List.map_cons,
    others before (fun e member => split ▸ List.mem_append_left _ member) notBefore,
    others after (fun e member => split ▸ List.mem_append_right _ (List.mem_cons_of_mem _ member)) notAfter, if_pos rfl]

end Replace

/-! ### The map of targets afterwards -/

/-- The map `new` has what `old` has, but for the dependencies of the current version of an interface, which go from
    `deps` to `deps'`, and for one of its versions, which has `added`. -/
def Extends (name version : Text) (deps deps' added : List Text) (old new : Targets) : Prop :=
  ∀ k, new.get? k = old.get? k ∨
    (k = cppTarget name currentVersion ∧ old.get? k = some deps ∧ new.get? k = some deps') ∨
    (k = cppTarget name version ∧ new.get? k = some added)

namespace Extends
variable {name version : Text} {deps deps' added : List Text} {old new : Targets}

theorem isSome (ext : Extends name version deps deps' added old new) {k : Text} (found : (old.get? k).isSome) :
    (new.get? k).isSome := by
  rcases ext k with same | ⟨-, -, same⟩ | ⟨-, same⟩
  · rw [same]
    exact found
  · rw [same]
    rfl
  · rw [same]
    rfl

theorem register (ext : Extends name version deps deps' added old new) (e : Text × AidlInterface) :
    Extends name version deps deps' added (register old e) (register new e) := by
  intro k
  by_cases own : Registers e k
  · obtain ⟨list, found⟩ := get?_register_own own
    exact .inl ((found new).trans (found old).symm)
  · rw [get?_register_other own, get?_register_other own]
    exact ext k

theorem foldl_register (ext : Extends name version deps deps' added old new) (es : List (Text × AidlInterface)) :
    Extends name version deps deps' added (es.foldl Interface.register old) (es.foldl Interface.register new) := by
  induction es generalizing old new with
  | nil => exact ext
  | cons e es ih => exact ih (ext.register e)

theorem registerSnapshot (ext : Extends name version deps deps' added old new) (snap : AidlInterface) :
    Extends name version deps deps' added (registerSnapshot old snap) (registerSnapshot new snap) := by
  intro k
  rw [get?_registerSnapshot, get?_registerSnapshot]
  rcases ext k with same | ⟨here, before, after⟩ | ⟨here, after⟩
  · exact .inl (by rw [same])
  · exact .inr (.inl ⟨here, by rw [before]; rfl, by rw [after]; rfl⟩)
  · exact .inr (.inr ⟨here, by rw [after]; rfl⟩)

theorem foldl_registerSnapshot (ext : Extends name version deps deps' added old new) (snaps : List AidlInterface) :
    Extends name version deps deps' added (snaps.foldl Interface.registerSnapshot old)
      (snaps.foldl Interface.registerSnapshot new) := by
  induction snaps generalizing old new with
  | nil => exact ext
  | cons snap snaps ih => exact ih (ext.registerSnapshot snap)

end Extends

theorem extends_register (targets : Targets) (name : Text) (i : AidlInterface) (e : VersionInfo) :
    Extends name e.version (currentDeps i) (currentDeps (i.withVersion e)) (frozenDeps e.imports)
      (register targets (name, i)) (register targets (name, i.withVersion e)) := by
  intro k
  by_cases current : k = cppTarget name currentVersion
  · exact .inr (.inl ⟨current, current ▸ get?_register_current (e := (name, i)),
      current ▸ get?_register_current (e := (name, i.withVersion e))⟩)
  · by_cases frozen : ∃ v, k = cppTarget name v
    · obtain ⟨v, rfl⟩ := frozen
      have version : v ≠ currentVersion := fun h => current (by rw [h])
      have before := get?_register_frozen targets (name, i) version
      have after := get?_register_frozen targets (name, i.withVersion e) version
      by_cases new : v = e.version
      · subst new
        refine .inr (.inr ⟨rfl, after.trans ?_⟩)
        simp only [AidlInterface.withVersion, Dict.get?_set, if_true]
        rfl
      · refine .inl (after.trans (Eq.trans ?_ before.symm))
        simp only [AidlInterface.withVersion, Dict.get?_set, if_neg new]
    · have other : ∀ j, ¬Registers (name, j) k := by
        rintro j (here | ⟨v, -, here⟩)
        · exact current here
        · exact frozen ⟨v, here.symm⟩
      exact .inl ((get?_register_other (other _)).trans (get?_register_other (other _)).symm)

theorem registerSnapshot_withVersion (targets : Targets) (i : AidlInterface) (e : VersionInfo) :
    registerSnapshot targets (i.withVersion e) = registerSnapshot targets i := rfl

theorem foldl_registerSnapshot_replaceLoaded {ds : Definitions} {allLoaded : List AidlInterface} {i : AidlInterface}
    (load : loadAll ds = .ok allLoaded) (member : i ∈ allLoaded) (e : VersionInfo) (targets : Targets) :
    (replaceLoaded i (i.withVersion e) allLoaded).foldl registerSnapshot targets =
      allLoaded.foldl registerSnapshot targets := by
  rw [replaceLoaded, List.foldl_map]
  refine List.foldl_ext _ _ _ fun targets k memberK => ?_
  by_cases here : k.interfaceRoot = i.interfaceRoot
  · rw [if_pos here, registerSnapshot_withVersion, eq_of_interfaceRoot load member memberK here]
  · rw [if_neg here]

/-- No interface behind this one registers the name of its current target. -/
def OwnsCurrent (interfaces : Dict Text AidlInterface) (name : Text) : Prop :=
  ∀ e ∈ (interfaces.entries.dropWhile fun e => e.1 ≠ name).tail, ¬Registers e (cppTarget name currentVersion)

section Freeze
variable {ds : Definitions} {allLoaded : List AidlInterface} {name : Text} {i : AidlInterface} {targets : Targets}

theorem libDeps_withVersion (load : loadAll ds = .ok allLoaded) (known : (interfacesOf allLoaded).get? name = some i)
    (libs : libDeps allLoaded = .ok targets) (e : VersionInfo) :
    ∃ targets', libDeps (replaceLoaded i (i.withVersion e) allLoaded) = .ok targets' ∧
      Extends name e.version (currentDeps i) (currentDeps (i.withVersion e)) (frozenDeps e.imports) targets targets' ∧
      cppTarget name e.version ∈ targets'.keys ∧
      (OwnsCurrent (interfacesOf allLoaded) name →
        targets'.get? (cppTarget name currentVersion) = some (currentDeps (i.withVersion e))) ∧
      (¬OwnsCurrent (interfacesOf allLoaded) name →
        targets'.get? (cppTarget name currentVersion) = targets.get? (cppTarget name currentVersion)) := by
  have member := (mem_of_interfacesOf known).1
  obtain ⟨before, after, split, split', notBefore, -⟩ := entries_replaceLoaded load known (j := i.withVersion e) rfl
  have behind : ((interfacesOf allLoaded).entries.dropWhile fun e => e.1 ≠ name).tail = after := by
    rw [split, List.dropWhile_append_of_pos (fun e member => by simpa using notBefore e member),
      List.dropWhile_cons_of_neg (by simp), List.tail_cons]
  rw [libDeps_eq, split, List.foldl_append, List.foldl_cons] at libs
  cases libs
  have extended := ((extends_register (before.foldl register Dict.empty) name i e).foldl_register
    after).foldl_registerSnapshot allLoaded
  refine ⟨_, libDeps_eq _, ?_⟩
  rw [split', foldl_registerSnapshot_replaceLoaded load member, List.foldl_append, List.foldl_cons, OwnsCurrent, behind]
  refine ⟨extended, ?_, fun owns => ?_, fun shared => ?_⟩
  · have own : Registers (name, i.withVersion e) (cppTarget name e.version) :=
      .inr ⟨e.version, Dict.mem_keys_set.mpr (.inl rfl), rfl⟩
    obtain ⟨deps, found⟩ := get?_foldl_register_own (before ++ (name, i.withVersion e) :: after)
      ⟨_, List.mem_append_right _ List.mem_cons_self, own⟩
    have found := found Dict.empty
    rw [List.foldl_append, List.foldl_cons] at found
    rw [Dict.mem_keys_iff, get?_foldl_registerSnapshot_of_isSome _ (by rw [found]; rfl), found]
    rfl
  · have found := (get?_foldl_register_other owns (register (before.foldl register Dict.empty)
      (name, i.withVersion e))).trans get?_register_current
    rw [get?_foldl_registerSnapshot_of_isSome _ (by rw [found]; rfl), found]
  · obtain ⟨deps, found⟩ := get?_foldl_register_own after (by
      obtain ⟨e', shared⟩ := not_forall.mp shared
      obtain ⟨member', here⟩ := Classical.not_imp.mp shared
      exact ⟨e', member', Classical.not_not.mp here⟩)
    rw [get?_foldl_registerSnapshot_of_isSome _ (by rw [found]; rfl), get?_foldl_registerSnapshot_of_isSome _ (by rw [found]; rfl), found,
      found]

/-! ### When the map stays closed -/

/-- The equality check, or that there is no frozen version to compare with, makes a freeze create one. -/
def freezeDevelops {Hash : Type} (shell : Shell Hash) (i : AidlInterface) (s : Store Hash) : Bool :=
  match frozenDumps i s.stable, s.stable.get? currentVersion with
  | .ok frozen, some dump =>
    match frozen.getLast? with
    | some old => shell.equalStatus old.dump.files dump.files = 1
    | none => true
  | _, _ => false

/-- The numbers of the version that a freeze creates and of the one after it are no version fields yet. -/
def NumbersFree (i : AidlInterface) : Prop :=
  versionNumber (i.versionCount + 1) ∉ i.versionsWithInfo.keys ∧
    versionNumber (i.versionCount + 2) ∉ i.versionsWithInfo.keys

/-- What keeps the map closed when the interface is frozen: the latest version of each import is registered, and so
    is what the next unfrozen version depends on. -/
structure Freezable (allLoaded : List AidlInterface) (name : Text) (i : AidlInterface) (targets : Targets) : Prop where
  imports : ∀ imp ∈ i.imports, ∀ j, (interfacesOf allLoaded).get? imp = some j →
    cppTarget imp j.latestVersion ∈ targets.keys
  current : NumbersFree i ∨ ¬OwnsCurrent (interfacesOf allLoaded) name ∨
    ∀ dep ∈ currentDeps (i.withVersion ⟨i.nextVersion, []⟩), dep ∈ targets.keys ∨ dep = cppTarget name i.nextVersion

theorem getImports_withVersion {e : VersionInfo} (stable : ¬i.unstable)
    (version : e.version = versionNumber (i.versionCount + 1)) :
    (i.withVersion e).getImports (i.withVersion e).nextVersion =
      match i.versionsWithInfo.get? (versionNumber (i.versionCount + 2)) with
      | some imports => .ok (Dict.ofPairs (imports.map (partitionOn "-v".toList)))
      | none => .ok (Dict.ofPairs (i.imports.map fun imp => (imp, i.pinOf imp))) := by
  have next : (i.withVersion e).nextVersion = versionNumber (i.versionCount + 2) :=
    AidlInterface.nextVersion_of_stable stable
  have other : versionNumber (i.versionCount + 2) ≠ e.version := by
    rw [version]
    intro same
    have := versionNumber_injective same
    omega
  rw [AidlInterface.getImports, next]
  simp only [AidlInterface.withVersion, Dict.get?_set, if_neg other]
  cases i.versionsWithInfo.get? (versionNumber (i.versionCount + 2)) with
  | some imports => rfl
  | none => exact if_neg fun h => h rfl

/-- The dependencies of the next current version do not depend on what is recorded for the frozen one. -/
theorem currentDeps_withVersion {e : VersionInfo} (stable : ¬i.unstable) (version : e.version = i.nextVersion) :
    currentDeps (i.withVersion e) = currentDeps (i.withVersion ⟨i.nextVersion, []⟩) := by
  have number := AidlInterface.nextVersion_of_stable stable
  rw [currentDeps, currentDeps, getImports_withVersion stable (version.trans number),
    getImports_withVersion stable number]

theorem currentDeps_of_numbersFree {e : VersionInfo} (stable : ¬i.unstable) (version : e.version = i.nextVersion)
    (free : NumbersFree i) : currentDeps (i.withVersion e) = currentDeps i := by
  have number := AidlInterface.nextVersion_of_stable stable
  rw [currentDeps, currentDeps, getImports_withVersion stable (version.trans number),
    Dict.get?_eq_none_iff.mpr free.2, AidlInterface.getImports, number, Dict.get?_eq_none_iff.mpr free.1]
  simp only [ne_eq, not_true_eq_false, if_false]

theorem cppTarget_digits_injective {name name' v w : Text} (hv : ∀ c ∈ v, c.isDigit = true)
    (hw : ∀ c ∈ w, c.isDigit = true) (h : cppTarget name v = cppTarget name' w) : name = name' ∧ v = w := by
  have named : ∀ n u : Text, n ++ "-v".toList ++ u = (n ++ ['-']) ++ 'v' :: u := by simp
  have body := List.append_cancel_right h
  rw [named, named] at body
  obtain ⟨names, versions⟩ := append_cons_inj (by decide) hv hw body
  exact ⟨List.append_cancel_right names, versions⟩

theorem isDigit_latestVersion {j : AidlInterface} {c : Char} (h : c ∈ j.latestVersion) : c.isDigit = true := by
  by_cases unstable : j.unstable
  · rw [AidlInterface.latestVersion, if_pos unstable] at h
    cases h
  · rw [AidlInterface.latestVersion_of_stable unstable] at h
    exact isDigit_versionNumber h

/-- The latest version of an import is never the version that is being frozen. -/
theorem latest_ne_next {imp : Text} {j : AidlInterface} (stable : ¬i.unstable)
    (knownI : (interfacesOf allLoaded).get? name = some i) (known : (interfacesOf allLoaded).get? imp = some j) :
    cppTarget imp j.latestVersion ≠ cppTarget name i.nextVersion := by
  intro same
  rw [AidlInterface.nextVersion_of_stable stable] at same
  obtain ⟨rfl, version⟩ := cppTarget_digits_injective (fun c => isDigit_latestVersion) (fun c => isDigit_versionNumber) same
  cases knownI.symm.trans known
  rw [AidlInterface.latestVersion_of_stable stable] at version
  have := versionNumber_injective version
  omega

theorem mem_recordedImports {imports : List Text} (recorded : recordedImports i (interfacesOf allLoaded) = .ok imports)
    {dep : Text} : dep ∈ frozenDeps imports ↔
      ∃ imp ∈ i.imports, ∃ j, (interfacesOf allLoaded).get? imp = some j ∧ dep = cppTarget imp j.latestVersion := by
  rw [recordedImports, mapM_eq_ok_iff_forall₂] at recorded
  rw [frozenDeps]
  generalize i.imports = imps at recorded ⊢
  induction recorded with
  | nil => simp
  | @cons imp lib imps libs first _ ih =>
    obtain ⟨j, found, done⟩ := bind_eq_ok.mp first
    cases done
    rw [lookupInterface_eq_ok] at found
    have name := (mem_of_interfacesOf found).2
    rw [List.map_cons, List.mem_cons, ih, List.exists_mem_cons_iff]
    refine or_congr_left ⟨?_, ?_⟩
    · rintro rfl
      exact ⟨j, found, by rw [AidlInterface.versionedName, name, cppTarget]⟩
    · rintro ⟨j', found', rfl⟩
      cases found.symm.trans found'
      rw [AidlInterface.versionedName, name, cppTarget]

/-- The imports recorded in a new entry of `versions_with_info` are registered. -/
def RecordsRegistered (old new : Definition) (targets : Targets) : Prop :=
  ∀ e, new.versionsWithInfo = old.versionsWithInfo ++ [e] → ∀ dep ∈ frozenDeps e.imports, dep ∈ targets.keys

/-- The closure of the map after a version was added, by the three kinds of targets it may change. -/
theorem records_closed_iff {imports : List Text} {targets' : Targets} (stable : ¬i.unstable)
    (knownI : (interfacesOf allLoaded).get? name = some i) (libs : libDeps allLoaded = .ok targets)
    (closed : Closed targets) (recorded : recordedImports i (interfacesOf allLoaded) = .ok imports)
    (ext : Extends name i.nextVersion (currentDeps i) (currentDeps (i.withVersion ⟨i.nextVersion, imports⟩))
      (frozenDeps imports) targets targets')
    (new : cppTarget name i.nextVersion ∈ targets'.keys)
    (owns : OwnsCurrent (interfacesOf allLoaded) name → targets'.get? (cppTarget name currentVersion) =
      some (currentDeps (i.withVersion ⟨i.nextVersion, imports⟩)))
    (shared : ¬OwnsCurrent (interfacesOf allLoaded) name →
      targets'.get? (cppTarget name currentVersion) = targets.get? (cppTarget name currentVersion)) :
    ((∀ dep ∈ frozenDeps imports, dep ∈ targets'.keys) ∧ Closed targets') ↔
      Freezable allLoaded name i targets := by
  have kept : ∀ dep ∈ targets.keys, dep ∈ targets'.keys := fun dep member =>
    Dict.mem_keys_iff.mpr (ext.isSome (Dict.mem_keys_iff.mp member))
  have current : cppTarget name currentVersion ∈ targets.keys := mem_keys_libDeps libs knownI (.inl rfl)
  have keys : ∀ dep ∈ targets'.keys, dep ∈ targets.keys ∨ dep = cppTarget name i.nextVersion := by
    intro dep member
    rcases ext dep with same | ⟨rfl, -⟩ | ⟨here, -⟩
    · rw [Dict.mem_keys_iff, same] at member
      exact .inl (Dict.mem_keys_iff.mpr member)
    · exact .inl current
    · exact .inr here
  have deps := currentDeps_withVersion (e := ⟨i.nextVersion, imports⟩) stable rfl
  constructor
  · rintro ⟨records, closed'⟩
    refine ⟨fun imp member j found => ?_, ?_⟩
    · have dep := (mem_recordedImports recorded).mpr ⟨imp, member, j, found, rfl⟩
      exact (keys _ (records _ dep)).resolve_right (latest_ne_next stable knownI found)
    · by_cases own : OwnsCurrent (interfacesOf allLoaded) name
      · refine .inr (.inr fun dep member => keys dep (closed' _ _ (owns own) dep ?_))
        rw [deps]
        exact member
      · exact .inr (.inl own)
  · intro freezable
    have records : ∀ dep ∈ frozenDeps imports, dep ∈ targets'.keys := by
      intro dep member
      obtain ⟨imp, memberI, j, found, rfl⟩ := (mem_recordedImports recorded).mp member
      exact kept _ (freezable.imports imp memberI j found)
    refine ⟨records, fun k list found dep member => ?_⟩
    rcases ext k with same | ⟨rfl, before, after⟩ | ⟨-, added⟩
    · exact kept dep (closed k list (same ▸ found) dep member)
    · cases found.symm.trans after
      rcases freezable.current with free | other | registered
      · rw [currentDeps_of_numbersFree stable rfl free] at member
        exact kept dep (closed _ _ before dep member)
      · exact kept dep (closed _ _ (shared other ▸ after) dep member)
      · rw [deps] at member
        rcases registered dep member with old | rfl
        · exact kept dep old
        · exact new
    · cases found.symm.trans added
      exact records dep member

section Handler
variable {Hash : Type} {hash : List (Text × Text) → Text → Hash} {shell : Shell Hash} {s t : Store Hash}

/-- What a freeze that ends does to the definition file. -/
theorem definition_of_freeze [DecidableEq Hash] (works : shell.Works) (ends : Ends (handleFreezeApi hash shell i) s () t) :
    ∃ imports tag, recordedImports i shell.interfaces = .ok imports ∧ versionForHashgen i.nextVersion = .ok tag ∧
      t.definition = if freezeDevelops shell i s then s.definition.addVersion ⟨i.nextVersion, imports⟩
        else s.definition := by
  obtain ⟨frozen, dump, tag, n, imports, all, found, -, ok, developed, recorded, rfl⟩ := handleFreezeApi_ends ends
  refine ⟨imports, tag, recorded, ok, ?_⟩
  have one : n = 1 ↔ freezeDevelops shell i s = true := by
    simp only [freezeDevelops, all, found]
    cases last : frozen.getLast? with
    | none =>
      rw [last] at developed
      cases developed
      exact iff_of_true rfl rfl
    | some old =>
      rw [last] at developed
      obtain ⟨_, -, done⟩ := bind_eq_ok.mp developed
      cases done
      exact decide_eq_true_iff.symm
  rw [recordVersion]
  by_cases development : n = 1
  · rw [if_pos ⟨development, works.appends⟩, if_pos (one.mp development)]
    simp only [definition_dumpAsVersion, sealCurrent]
  · rw [if_neg (fun h => development h.1), if_neg (fun h => development (one.mpr h))]
    simp only [definition_dumpAsVersion, sealCurrent]

theorem replaceLoaded_self (load : loadAll ds = .ok allLoaded) (member : i ∈ allLoaded) :
    replaceLoaded i i allLoaded = allLoaded := by
  rw [replaceLoaded]
  conv_rhs => rw [← List.map_id allLoaded]
  refine List.map_congr_left fun k memberK => ?_
  by_cases here : k.interfaceRoot = i.interfaceRoot
  · rw [if_pos here, eq_of_interfaceRoot load member memberK here]
    rfl
  · rw [if_neg here]
    rfl

/-- A freeze that ends leaves imports that are all registered, and a set whose targets all resolve, exactly when it
    creates no version, or when the latest version of every import is registered and the next current version has
    its dependencies. -/
theorem freeze_keeps_targets_resolved_iff [DecidableEq Hash] {text : Text} (load : loadAll ds = .ok allLoaded)
    (generated : generateLibrariesDependencies allLoaded = .ok text)
    (known : (interfacesOf allLoaded).get? name = some i) (interfaces : shell.interfaces = interfacesOf allLoaded)
    (works : shell.Works) (stored : ds.get? i.interfaceRoot = some s.definition)
    (ends : Ends (handleFreezeApi hash shell i) s () t) :
    ∃ reloaded targets targets', loadAll (ds.set i.interfaceRoot t.definition) = .ok reloaded ∧
      libDeps allLoaded = .ok targets ∧ libDeps reloaded = .ok targets' ∧
      ((RecordsRegistered s.definition t.definition targets' ∧
          ∀ dep consumer, generateLibrariesDependencies reloaded ≠ .error (.unresolvedTarget dep consumer)) ↔
        (freezeDevelops shell i s = true → Freezable allLoaded name i targets)) := by
  have member := (mem_of_interfacesOf known).1
  have loaded : loadInterface i.interfaceRoot s.definition = .ok i := by
    have at_ := loadAt_of_mem load member
    rw [loadAt, stored] at at_
    exact at_
  have libs := libDeps_eq allLoaded
  have closed := (generate_unresolved_iff libs).mp fun dep consumer raised => by
    rw [generated] at raised
    cases raised
  obtain ⟨imports, tag, recorded, ok, definition⟩ := definition_of_freeze works ends
  obtain ⟨stable, -⟩ := tag_of_loaded loaded ok
  rw [interfaces] at recorded
  by_cases development : freezeDevelops shell i s = true
  · rw [if_pos development] at definition
    obtain ⟨targets', libs', ext, new, owns, shared⟩ :=
      libDeps_withVersion load known libs ⟨i.nextVersion, imports⟩
    refine ⟨_, _, targets', definition ▸ loadAll_set load member (loadInterface_withVersion loaded _), libs, libs', ?_⟩
    have iff := records_closed_iff stable known libs closed recorded ext new owns shared
    rw [generate_unresolved_iff libs', forall_prop_of_true development, ← iff]
    refine and_congr_left fun _ => ⟨fun h => h ⟨i.nextVersion, imports⟩ (by rw [definition]; rfl), fun h e same => ?_⟩
    rw [definition] at same
    cases List.append_cancel_left same
    exact h
  · rw [if_neg development] at definition
    have again := loadAll_set load member loaded
    rw [replaceLoaded_self load member] at again
    refine ⟨allLoaded, _, _, definition ▸ again, libs, libs, ?_⟩
    rw [generate_unresolved_iff libs]
    refine iff_of_true ⟨fun e same => ?_, closed⟩ fun h => absurd h development
    have lengths := congrArg List.length same
    rw [definition, List.length_append, List.length_singleton] at lengths
    omega

end Handler

end Freeze

/-! ### A consumer of `common` -/

def videoDefinition : Definition := ⟨"video".toList, ["common".toList], none, none, none, []⟩

/-- `video` imports `common`, which has these versions. -/
def videoDefinitions (versions : List VersionInfo) : Definitions :=
  Dict.ofPairs [("common/current".toList, ⟨"common".toList, [], none, none, none, versions⟩),
    ("video/current".toList, videoDefinition)]

/-- `common` as it is loaded without versions. -/
def commonUnfrozen : AidlInterface :=
  ⟨"common".toList, "common/current".toList, "central".toList, [], Dict.empty, none, 0, Dict.empty⟩

def videoShell (common : AidlInterface) : Shell (List (Text × Text) × Text) :=
  { willingShell with interfaces := interfacesOf [common, videoInterface none] }

def videoUpdated : Store (List (Text × Text) × Text) :=
  ⟨videoDefinition, halFiles, Dict.ofPairs [(currentVersion, halDump)]⟩

/-- `video` once version 1 is frozen with these imports. -/
def videoFrozen (imports : List Text) : Store (List (Text × Text) × Text) :=
  ⟨videoDefinition.addVersion ⟨"1".toList, imports⟩, halFiles,
    Dict.ofPairs [(currentVersion, halDump), ("1".toList, halDump)]⟩

theorem freeze_keeps_targets_resolved_video :
    ∃ reloaded targets targets',
      loadAll ((videoDefinitions [⟨"1".toList, []⟩]).set (videoInterface none).interfaceRoot
          (videoFrozen ["common-v1".toList]).definition) = .ok reloaded ∧
        libDeps [commonInterface, videoInterface none] = .ok targets ∧ libDeps reloaded = .ok targets' ∧
        ((RecordsRegistered videoUpdated.definition (videoFrozen ["common-v1".toList]).definition targets' ∧
            ∀ dep consumer, generateLibrariesDependencies reloaded ≠ .error (.unresolvedTarget dep consumer)) ↔
          (freezeDevelops (videoShell commonInterface) (videoInterface none) videoUpdated = true →
            Freezable [commonInterface, videoInterface none] "video".toList (videoInterface none) targets)) := by
  have load : loadAll (videoDefinitions [⟨"1".toList, []⟩]) = .ok [commonInterface, videoInterface none] := by
    decide +kernel
  have generated : generateLibrariesDependencies [commonInterface, videoInterface none] =
      .ok "common-vcurrent-cpp: \nvideo-vcurrent-cpp: common-vcurrent-cpp\ncommon-v1-cpp: \n".toList := by
    decide +kernel
  have known : (interfacesOf [commonInterface, videoInterface none]).get? "video".toList = some (videoInterface none) := by
    decide +kernel
  have stored : (videoDefinitions [⟨"1".toList, []⟩]).get? (videoInterface none).interfaceRoot =
      some videoUpdated.definition := by
    decide +kernel
  have ends : Ends (handleFreezeApi pairHash (videoShell commonInterface) (videoInterface none)) videoUpdated ()
      (videoFrozen ["common-v1".toList]) := by
    decide +kernel
  exact freeze_keeps_targets_resolved_iff load generated known rfl ⟨fun _ _ => rfl, rfl⟩ stored ends

/-- `common` was never frozen, so `common-v0` is recorded for the new version of `video`, and the reloaded set
    cannot be resolved. -/
theorem freeze_records_unregistered :
    loadAll (videoDefinitions []) = .ok [commonUnfrozen, videoInterface none] ∧
      generateLibrariesDependencies [commonUnfrozen, videoInterface none] =
        .ok "common-vcurrent-cpp: \nvideo-vcurrent-cpp: common-vcurrent-cpp\n".toList ∧
      Ends (handleFreezeApi pairHash (videoShell commonUnfrozen) (videoInterface none)) videoUpdated ()
        (videoFrozen ["common-v0".toList]) ∧
      (loadAll ((videoDefinitions []).set "video/current".toList (videoFrozen ["common-v0".toList]).definition) >>=
          generateLibrariesDependencies) =
        .error (.unresolvedTarget "common-v0-cpp".toList "video-v1-cpp".toList) := by
  refine ⟨?_, ?_, ?_, ?_⟩ <;> decide +kernel

end BinderIdl.Interface
