import BinderIdl.Theorems.FreezeCheck
import BinderIdl.Theorems.Closure

/-! The versions that a freeze records for its imports, beside those that it has checked. -/

namespace BinderIdl.Interface
open Py Graph

variable {Hash : Type} {hash : List (Text × Text) → Text → Hash} {shell : Shell Hash} {i j : AidlInterface}
  {s t : Store Hash} {imp pin : Text}

/-! ### What a freeze records -/

/-- A freeze that creates a version has resolved its imports and recorded each at its latest version. -/
theorem freeze_creates [DecidableEq Hash] (ends : Ends (handleFreezeApi hash shell i) s () t)
    (created : t.definition ≠ s.definition) :
    ∃ imports deps, recordedImports i shell.interfaces = .ok imports ∧
      getDependencies shell.host shell.interfaces i i.nextVersion true = .ok deps ∧
      t.definition = s.definition.addVersion ⟨i.nextVersion, imports⟩ := by
  change runFrom (handleFreezeApi hash shell i) s = _ at ends
  rw [handleFreezeApi_run] at ends
  cases passed : freezeStatus hash shell i s.stable with
  | error e =>
    rw [passed] at ends
    cases ends
  | ok n =>
    rw [passed] at ends
    obtain ⟨-, -, -, -, -, -, -, -, checked, -⟩ := freezeStatus_eq_ok passed
    obtain ⟨deps, resolved, -⟩ := bind_eq_ok.mp checked
    cases recorded : recordedImports i shell.interfaces with
    | error e =>
      rw [recorded] at ends
      cases ends
    | ok imports =>
      rw [recorded] at ends
      have same : _ = t := (Prod.mk.inj ends).2
      refine ⟨imports, deps, rfl, resolved, ?_⟩
      subst same
      rw [recordVersion] at created ⊢
      by_cases appended : n = 1 ∧ shell.appends = true
      · rw [if_pos appended]
        simp only [definition_dumpAsVersion, definition_sealedStore]
      · rw [if_neg appended, definition_dumpAsVersion, definition_sealedStore] at created
        exact absurd rfl created

/-- At the place of an import in the list of the interface, the entry has this version of it. -/
def Writes (i : AidlInterface) (e : VersionInfo) (j : AidlInterface) (imp version : Text) : Prop :=
  ∃ k : ℕ, i.imports[k]? = some imp ∧ e.imports[k]? = some (j.versionedName version)

theorem versionedName_injective {v w : Text} (same : j.versionedName v = j.versionedName w) : v = w :=
  List.append_cancel_left same

/-- `append_version` writes the latest version of every import, and no other. -/
theorem writes_iff {imports : List Text} (recorded : recordedImports i shell.interfaces = .ok imports)
    (known : shell.interfaces.get? imp = some j) (version ver : Text) :
    Writes i ⟨ver, imports⟩ j imp version ↔ imp ∈ i.imports ∧ version = j.latestVersion := by
  rw [recordedImports, mapM_eq_ok_iff_forall₂] at recorded
  have written : ∀ k : ℕ, i.imports[k]? = some imp → imports[k]? = some (j.versionedName j.latestVersion) := by
    intro k place
    obtain ⟨text, place', done⟩ := exists_getElem? recorded place
    obtain ⟨j', found, done⟩ := bind_eq_ok.mp done
    cases known.symm.trans (lookupInterface_eq_ok.mp found)
    cases done
    exact place'
  constructor
  · rintro ⟨k, place, text⟩
    exact ⟨List.mem_of_getElem? place, versionedName_injective (Option.some.inj (text.symm.trans (written k place)))⟩
  · rintro ⟨member, rfl⟩
    obtain ⟨k, place⟩ := List.mem_iff_getElem?.mp member
    exact ⟨k, place, written k place⟩

/-! ### What it has checked -/

/-- The imports of the version that is frozen, with their pins. -/
def DirectImport (i : AidlInterface) (imp pin : Text) : Prop :=
  ∃ imports, i.getImports i.nextVersion = .ok imports ∧ imports.get? imp = some pin

/-- A direct import that no other path leads to is resolved at its pin, or at its latest version. -/
theorem version_of_direct {interfaces : Dict Text AidlInterface} {host : Host} {deps : Dependencies}
    (named : Named interfaces) (resolved : getDependencies host interfaces i i.nextVersion true = .ok deps)
    (direct : DirectImport i imp pin) (alone : ¬AskedTwice interfaces .latest i i.nextVersion imp) :
    ∃ j dep, interfaces.get? imp = some j ∧ deps.get? imp = some dep ∧ dep.version = versionToProcess .latest j pin := by
  have summary := getDependencies_summarises resolved
  have resolvable := resolvable_of_getDependencies named resolved
  rw [importVerType_freeze] at summary resolvable
  obtain ⟨imports, read, imported⟩ := direct
  have found := resolvable.found _ .refl
  obtain ⟨j, known⟩ : ∃ j, interfaces.get? imp = some j := by
    obtain ⟨below, found⟩ := found
    obtain ⟨imports', read', matched⟩ := importedCalls_eq_ok.mp found
    cases read.symm.trans read'
    obtain ⟨-, -, j, known, -⟩ := exists_right_of_mem matched (Dict.mem_entries_of_get? imported)
    exact ⟨j, known⟩
  have child : Child (importedCalls interfaces .latest) ⟨true, i, i.nextVersion⟩
      ⟨false, j, versionToProcess .latest j pin⟩ := child_of_import read found imported known
  have name : j.baseName = imp := named _ _ known
  obtain ⟨dep, entry, -⟩ := summary.highest _ (.single child)
  obtain ⟨b, asked, nameB, rfl⟩ := summary.sound _ _ entry
  -- the call of the entry is the direct one
  obtain ⟨path, walk⟩ := exists_walk_iff.mpr asked.to_reflTransGen
  have only : path = [⟨false, j, versionToProcess .latest j pin⟩] := by
    by_contra other
    exact alone ⟨path, _, b, _, other, walk, .cons child (.nil _), ⟨asked.direct, nameB.trans name⟩, rfl, name⟩
  subst only
  cases walk with
  | cons _ rest =>
    cases rest
    exact ⟨j, _, known, (congrArg deps.get? name).symm.trans entry, rfl⟩

theorem latestOrNext_eq_iff : latestOrNext j = j.latestVersion ↔ j.latestVersion ≠ "0".toList := by
  rw [latestOrNext]
  by_cases never : j.latestVersion = "0".toList
  · rw [if_pos never]
    refine iff_of_false (fun same => ?_) fun h => h never
    by_cases unstable : j.unstable
    · rw [AidlInterface.latestVersion, if_pos unstable] at never
      cases never
    · rw [AidlInterface.nextVersion_of_stable unstable, AidlInterface.latestVersion_of_stable unstable] at same
      exact Nat.succ_ne_self _ (versionNumber_injective same)
  · rw [if_neg never]
    exact iff_of_true rfl never

/-- The version that is recorded for a direct import that no other path leads to is the one that was checked exactly when
    the import is not pinned and was frozen before, or is pinned to its latest version. -/
theorem records_what_is_checked_iff [DecidableEq Hash] (named : Named shell.interfaces)
    (ends : Ends (handleFreezeApi hash shell i) s () t) (created : t.definition ≠ s.definition)
    (direct : DirectImport i imp pin) (alone : ¬AskedTwice shell.interfaces .latest i i.nextVersion imp) :
    ∃ deps dep j e, getDependencies shell.host shell.interfaces i i.nextVersion true = .ok deps ∧
      deps.get? imp = some dep ∧ shell.interfaces.get? imp = some j ∧ t.definition = s.definition.addVersion e ∧
      (Writes i e j imp dep.version ↔ imp ∈ i.imports ∧
        if pin = importVersionUnpinned then j.latestVersion ≠ "0".toList else pin = j.latestVersion) := by
  obtain ⟨imports, deps, recorded, resolved, appended⟩ := freeze_creates ends created
  obtain ⟨j, dep, known, entry, version⟩ := version_of_direct named resolved direct alone
  refine ⟨deps, dep, j, _, resolved, entry, known, appended, ?_⟩
  rw [writes_iff recorded known, version, versionToProcess]
  refine and_congr_right fun _ => ?_
  by_cases unpinned : pin = importVersionUnpinned
  · rw [if_pos unpinned, if_pos unpinned]
    exact latestOrNext_eq_iff
  · rw [if_neg unpinned, if_neg unpinned]

/-! ### A consumer that pins `common` -/

theorem not_askedTwice {interfaces : Dict Text AidlInterface} {depth : ℕ} {l : List Call} (named : Named interfaces)
    (walk : calls interfaces .latest depth ⟨true, i, i.nextVersion⟩ = .ok (l ++ [⟨true, i, i.nextVersion⟩]))
    (once : l.countP (·.name = imp) ≤ 1) : ¬AskedTwice interfaces .latest i i.nextVersion imp := by
  intro twice
  have two := (countP_calls_iff named walk).mpr twice
  omega

theorem records_what_is_checked_video :
    Ends (handleFreezeApi pairHash (videoShell commonInterface) (videoInterface none)) videoUpdated ()
        (videoFrozen ["common-v1".toList]) ∧
      ∃ deps dep j e,
        getDependencies willingHost (videoShell commonInterface).interfaces (videoInterface none)
          (videoInterface none).nextVersion true = .ok deps ∧
        deps.get? "common".toList = some dep ∧ (videoShell commonInterface).interfaces.get? "common".toList = some j ∧
        (videoFrozen ["common-v1".toList]).definition = videoUpdated.definition.addVersion e ∧
        (Writes (videoInterface none) e j "common".toList dep.version ↔ "common".toList ∈ (videoInterface none).imports ∧
          if importVersionUnpinned = importVersionUnpinned then j.latestVersion ≠ "0".toList
          else importVersionUnpinned = j.latestVersion) := by
  have named : Named (videoShell commonInterface).interfaces := named_interfacesOf _
  have ends : Ends (handleFreezeApi pairHash (videoShell commonInterface) (videoInterface none)) videoUpdated ()
      (videoFrozen ["common-v1".toList]) := by decide +kernel
  have direct : DirectImport (videoInterface none) "common".toList importVersionUnpinned :=
    ⟨Dict.ofPairs [("common".toList, importVersionUnpinned)], by decide +kernel, by decide +kernel⟩
  have walk : calls (videoShell commonInterface).interfaces .latest 3
      ⟨true, videoInterface none, (videoInterface none).nextVersion⟩ =
        .ok ([⟨false, commonInterface, "1".toList⟩] ++ [⟨true, videoInterface none, (videoInterface none).nextVersion⟩]) := by
    decide +kernel
  exact ⟨ends, records_what_is_checked_iff named ends (by decide +kernel) direct
    (not_askedTwice named walk (by decide +kernel))⟩

/-- `common` with two frozen versions. -/
def commonTwice : AidlInterface :=
  ⟨"common".toList, "common/current".toList, "central".toList, [], Dict.empty, none, 2,
    Dict.ofPairs [("1".toList, []), ("2".toList, [])]⟩

/-- `video` when it imports `common@1`. -/
def videoPinned : AidlInterface := videoInterface (some "1".toList)

def pinnedShell : Shell (List (Text × Text) × Text) :=
  { willingShell with interfaces := interfacesOf [commonTwice, videoPinned] }

def pinnedDefinition : Definition := ⟨"video".toList, ["common@1".toList], none, none, none, []⟩

def pinnedUpdated : Store (List (Text × Text) × Text) := { videoUpdated with definition := pinnedDefinition }

def pinnedFrozen : Store (List (Text × Text) × Text) :=
  { videoFrozen [] with definition := pinnedDefinition.addVersion ⟨"1".toList, ["common-v2".toList]⟩ }

/-- The freeze checks version 1 of `common` and records version 2. -/
theorem unchecked_version_recorded :
    Ends (handleFreezeApi pairHash pinnedShell videoPinned) pinnedUpdated () pinnedFrozen ∧
      DirectImport videoPinned "common".toList "1".toList ∧
      ¬AskedTwice pinnedShell.interfaces .latest videoPinned videoPinned.nextVersion "common".toList ∧
      getDependencies willingHost pinnedShell.interfaces videoPinned videoPinned.nextVersion true =
        .ok (Dict.ofPairs [("common".toList, ⟨"1".toList, "1".toList⟩)]) ∧
      ¬Writes videoPinned ⟨"1".toList, ["common-v2".toList]⟩ commonTwice "common".toList "1".toList := by
  have direct : DirectImport videoPinned "common".toList "1".toList :=
    ⟨Dict.ofPairs [("common".toList, "1".toList)], by decide +kernel, by decide +kernel⟩
  have walk : calls pinnedShell.interfaces .latest 3 ⟨true, videoPinned, videoPinned.nextVersion⟩ =
      .ok ([⟨false, commonTwice, "1".toList⟩] ++ [⟨true, videoPinned, videoPinned.nextVersion⟩]) := by decide +kernel
  have recorded : recordedImports videoPinned pinnedShell.interfaces = .ok ["common-v2".toList] := by decide +kernel
  have known : pinnedShell.interfaces.get? "common".toList = some commonTwice := by decide +kernel
  refine ⟨by decide +kernel, direct, not_askedTwice (named_interfacesOf _) walk (by decide +kernel), by decide +kernel,
    fun written => ?_⟩
  have latest := ((writes_iff recorded known _ _).mp written).2
  revert latest
  decide +kernel

end BinderIdl.Interface
