import BinderIdl.Theorems.History

/-! Whether a freeze is all or nothing. The copy into the directory of the new version and the entry in the definition
    file are made by two commands, no result of which is looked at, and both are skipped for any status but 1. -/

namespace BinderIdl.Interface
open Py

variable {Hash : Type} {hash : List (Text × Text) → Text → Hash} {shell : Shell Hash} {root ver next : Text}
  {s t : Store Hash} {i : AidlInterface} {n : ℕ}

def Store.Lists (s : Store Hash) (ver : Text) : Prop := ver ∈ s.definition.versionsWithInfo.map VersionInfo.version

instance (s : Store Hash) (ver : Text) : Decidable (s.Lists ver) := inferInstanceAs (Decidable (_ ∈ _))

/-- The directory has every file of `cur`, and its hash file. -/
def Dump.HeldBy (cur : Dump Hash) (dir : Option (Dump Hash)) : Prop :=
  ∃ dump, dir = some dump ∧ cur.files.Sub dump.files ∧ dump.hashFile = cur.hashFile

/-- The directory of `ver` holds a complete copy of `current`. -/
def Store.HoldsCopy (s : Store Hash) (ver : Text) : Prop :=
  ∃ cur, s.stable.get? currentVersion = some cur ∧ cur.HeldBy (s.stable.get? ver)

/-- How a freeze should end: the next version is listed iff it is copied whole, and when the API differs from the
    newest version then there is a new one or an error. -/
structure AllOrNothing [DecidableEq Hash] (hash : List (Text × Text) → Text → Hash) (shell : Shell Hash)
    (i : AidlInterface) (s : Store Hash) : Prop where
  complete : (runFrom (handleFreezeApi hash shell i) s).2.Lists i.nextVersion ↔
    (runFrom (handleFreezeApi hash shell i) s).2.HoldsCopy i.nextVersion
  reported : ∀ cur, s.stable.get? currentVersion = some cur → equalityStatus shell s cur ≠ 0 →
    (runFrom (handleFreezeApi hash shell i) s).2.Lists i.nextVersion ∨
      ∃ e, (runFrom (handleFreezeApi hash shell i) s).1 = .error e

/-! ### The imports of the new version -/

theorem Numbered.not_lists_next (numbered : Numbered s) (load : loadInterface root s.definition = .ok i)
    (versioned : s.definition.stability ≠ some "unstable".toList) : ¬s.Lists i.nextVersion := by
  intro listed
  obtain ⟨e, member, same⟩ := List.mem_map.mp listed
  obtain ⟨k, bound, version⟩ := numbered.version_eq member
  rw [nextVersion_of_loaded load versioned, version] at same
  have := versionNumber_injective same
  omega

theorem versionsWithInfo_next (load : loadInterface root s.definition = .ok i) (unlisted : ¬s.Lists ver) :
    i.versionsWithInfo.get? ver = none := by
  obtain ⟨imports, -, rfl⟩ := loadInterface_eq_ok load
  rw [Dict.get?_eq_none_iff, Dict.mem_keys_ofPairs, List.map_map]
  exact unlisted

/-- The check of the dependencies looks every import up, so `append_version` finds them all. -/
theorem recordedImports_of_checked {stable : Dict Text (Dump Hash)}
    (checked : dependenciesCheckForFreeze shell i stable = .ok ())
    (unlisted : i.versionsWithInfo.get? i.nextVersion = none) :
    ∃ imports, recordedImports i shell.interfaces = .ok imports := by
  obtain ⟨deps, resolved, -⟩ := bind_eq_ok.mp checked
  have mode : importVerType i i.nextVersion true = .latest := by rw [importVerType, if_pos rfl, if_pos rfl]
  rw [getDependencies, mode, if_neg (fun h => by cases h.1)] at resolved
  cases depth : shell.host.recursionLimit with
  | zero =>
    rw [depth] at resolved
    cases resolved
  | succ depth =>
    rw [depth, processImports] at resolved
    obtain ⟨imports, named, resolved⟩ := bind_eq_ok.mp resolved
    obtain ⟨_, visited, -⟩ := bind_eq_ok.mp resolved
    rw [importsToProcess, if_pos rfl, AidlInterface.getImports, unlisted, if_neg (fun h => h rfl)] at named
    cases named
    refine ⟨_, (mapM_eq_ok []).mpr ⟨fun imp member => ?_, rfl⟩⟩
    have key : imp ∈ (Dict.ofPairs (i.imports.map fun imp => (imp, i.pinOf imp))).keys :=
      Dict.mem_keys_ofPairs.mpr (List.mem_map.mpr ⟨_, List.mem_map_of_mem member, rfl⟩)
    obtain ⟨e, entry, rfl⟩ := List.mem_map.mp key
    obtain ⟨_, _, _, round, -⟩ := foldlM_round entry visited
    obtain ⟨j, found, -⟩ := bind_eq_ok.mp round
    exact ⟨_, bind_eq_ok.mpr ⟨j, found, rfl⟩⟩

/-! ### What each end of a freeze leaves -/

theorem lists_recordVersion (imports : List Text) (unlisted : ¬s.Lists ver) :
    (recordVersion shell ⟨ver, imports⟩ n s).Lists ver ↔ n = 1 ∧ shell.appends = true := by
  rw [recordVersion]
  by_cases appended : n = 1 ∧ shell.appends = true
  · rw [if_pos appended, Store.Lists, Definition.addVersion, List.map_append]
    exact iff_of_true (List.mem_append_right _ (List.mem_singleton_self _)) appended
  · rw [if_neg appended]
    exact iff_of_false unlisted appended

theorem holdsCopy_recordVersion (e : VersionInfo) : (recordVersion shell e n s).HoldsCopy ver ↔ s.HoldsCopy ver := by
  rw [recordVersion]
  split <;> rfl

theorem Store.Lists.congr (same : t.definition = s.definition) : t.Lists ver ↔ s.Lists ver := by
  rw [Lists, Lists, same]

/-! ### When a freeze is all or nothing -/

/-- The directory of the next version does not hold a copy of `current` already, with the hash that the freeze gives
    it before it stops. -/
def NoLeftover [DecidableEq Hash] (hash : List (Text × Text) → Text → Hash) (shell : Shell Hash) (i : AidlInterface)
    (s : Store Hash) : Prop :=
  ¬(sealedStore hash shell i s).HoldsCopy i.nextVersion

/-- Both commands do their work: after the copy the directory holds all of the sealed `current`, and the entry is
    appended. -/
def CommandsWork [DecidableEq Hash] (hash : List (Text × Text) → Text → Hash) (shell : Shell Hash) (i : AidlInterface)
    (s : Store Hash) : Prop :=
  shell.appends = true ∧ ∀ cur, (sealedStore hash shell i s).stable.get? currentVersion = some cur →
    cur.HeldBy ((shell.copied cur (s.stable.get? i.nextVersion)).or (s.stable.get? i.nextVersion))

/-- A freeze that stops at a check or at the status 0 finds no copy in the way, one that goes on has the status 1 and
    both commands work. -/
def FreezeSound [DecidableEq Hash] (hash : List (Text × Text) → Text → Hash) (shell : Shell Hash) (i : AidlInterface)
    (s : Store Hash) : Prop :=
  match freezeStatus hash shell i s.stable with
  | .error _ => NoLeftover hash shell i s
  | .ok n => (n = 0 ∧ NoLeftover hash shell i s) ∨ (n = 1 ∧ CommandsWork hash shell i s)

section Ends
variable [DecidableEq Hash]

theorem not_lists_sealedStore (hash : List (Text × Text) → Text → Hash) (shell : Shell Hash) (i : AidlInterface)
    (unlisted : ¬s.Lists ver) : ¬(sealedStore hash shell i s).Lists ver :=
  fun h => unlisted ((Store.Lists.congr (definition_sealedStore s)).mp h)

theorem allOrNothing_of_stopped {e : ToolError} (stopped : freezeStatus hash shell i s.stable = .error e)
    (unlisted : ¬s.Lists i.nextVersion) : AllOrNothing hash shell i s ↔ NoLeftover hash shell i s := by
  have run : runFrom (handleFreezeApi hash shell i) s = (.error e, sealedStore hash shell i s) := by
    rw [handleFreezeApi_run, stopped]
  have unlistedSealed := not_lists_sealedStore hash shell i unlisted
  constructor
  · intro whole copy
    have listed := whole.complete.mpr
    rw [run] at listed
    exact unlistedSealed (listed copy)
  · intro noLeftover
    constructor
    · rw [run]
      exact iff_of_false unlistedSealed noLeftover
    · rw [run]
      exact fun _ _ _ => .inr ⟨e, rfl⟩

/-- A freeze that passes its checks ends without an error, whatever its commands have done. -/
theorem handleFreezeApi_passed (passed : freezeStatus hash shell i s.stable = .ok n)
    (load : loadInterface root s.definition = .ok i) (unlisted : ¬s.Lists i.nextVersion) :
    ∃ imports, runFrom (handleFreezeApi hash shell i) s = (.ok (), recordVersion shell ⟨i.nextVersion, imports⟩ n
      (dumpAsVersion shell i.nextVersion n (sealedStore hash shell i s))) := by
  obtain ⟨_, _, _, _, _, _, _, _, resolved, -⟩ := freezeStatus_eq_ok passed
  obtain ⟨imports, recorded⟩ := recordedImports_of_checked resolved (versionsWithInfo_next load unlisted)
  exact ⟨imports, by rw [handleFreezeApi_run, passed, recorded]⟩

theorem allOrNothing_of_undeveloped (passed : freezeStatus hash shell i s.stable = .ok n) (status : n ≠ 1)
    (load : loadInterface root s.definition = .ok i) (unlisted : ¬s.Lists i.nextVersion) :
    AllOrNothing hash shell i s ↔ n = 0 ∧ NoLeftover hash shell i s := by
  obtain ⟨imports, run⟩ := handleFreezeApi_passed passed load unlisted
  obtain ⟨frozen, cur, _, found, current, _, _, developed, _, _⟩ := freezeStatus_eq_ok passed
  have same : n = equalityStatus shell s cur := equalityStatus_of_checked load found developed
  have skipped : recordVersion shell ⟨i.nextVersion, imports⟩ n
      (dumpAsVersion shell i.nextVersion n (sealedStore hash shell i s)) = sealedStore hash shell i s := by
    rw [dumpAsVersion_undeveloped status, recordVersion, if_neg (fun h => status h.1)]
  rw [skipped] at run
  have unlistedSealed := not_lists_sealedStore hash shell i unlisted
  constructor
  · intro whole
    constructor
    · by_contra nonzero
      have reported := whole.reported cur current (same ▸ nonzero)
      rw [run] at reported
      rcases reported with listed | ⟨e, raised⟩
      · exact unlistedSealed listed
      · cases raised
    · intro copy
      have listed := whole.complete.mpr
      rw [run] at listed
      exact unlistedSealed (listed copy)
  · rintro ⟨zero, noLeftover⟩
    constructor
    · rw [run]
      exact iff_of_false unlistedSealed noLeftover
    · intro c found nonzero
      cases current.symm.trans found
      exact absurd (same.symm.trans zero) nonzero

/-- With the status 1 both commands run, and they have to work. -/
theorem allOrNothing_of_developed (passed : freezeStatus hash shell i s.stable = .ok 1)
    (load : loadInterface root s.definition = .ok i) (unlisted : ¬s.Lists i.nextVersion)
    (other : i.nextVersion ≠ currentVersion) :
    AllOrNothing hash shell i s ↔ CommandsWork hash shell i s := by
  obtain ⟨imports, run⟩ := handleFreezeApi_passed passed load unlisted
  obtain ⟨frozen, cur, tag, found, current, _, _, developed, _, sealed⟩ := freezeStatus_eq_ok passed
  have status : 1 = equalityStatus shell s cur := equalityStatus_of_checked load found developed
  have written : (sealedStore hash shell i s).stable.get? currentVersion =
      some ⟨cur.files, some [hash (sortedFiles cur.files) tag]⟩ := by
    rw [sealed, sealCurrent, Dict.get?_set, if_pos rfl]
  have old : (sealedStore hash shell i s).stable.get? i.nextVersion = s.stable.get? i.nextVersion := by
    rw [sealed, sealCurrent, Dict.get?_set, if_neg other]
  obtain ⟨kept, copied⟩ := dumpAsVersion_developed shell written other
  have unlistedDumped : ¬(dumpAsVersion shell i.nextVersion 1 (sealedStore hash shell i s)).Lists i.nextVersion :=
    fun h => not_lists_sealedStore hash shell i unlisted ((Store.Lists.congr (definition_dumpAsVersion _ _ _)).mp h)
  have lists : (runFrom (handleFreezeApi hash shell i) s).2.Lists i.nextVersion ↔ shell.appends = true := by
    rw [run, lists_recordVersion imports unlistedDumped]
    exact and_iff_right rfl
  have holds : (runFrom (handleFreezeApi hash shell i) s).2.HoldsCopy i.nextVersion ↔
      ∀ c, (sealedStore hash shell i s).stable.get? currentVersion = some c →
        c.HeldBy ((shell.copied c (s.stable.get? i.nextVersion)).or (s.stable.get? i.nextVersion)) := by
    rw [run, holdsCopy_recordVersion, Store.HoldsCopy, kept, copied, written, old]
    constructor
    · rintro ⟨c, same, held⟩ d same'
      cases same
      cases same'
      exact held
    · exact fun held => ⟨_, rfl, held _ rfl⟩
  constructor
  · intro whole
    have reported := whole.reported cur current (status ▸ Nat.one_ne_zero)
    rw [lists, run] at reported
    rcases reported with appended | ⟨e, raised⟩
    · exact ⟨appended, holds.mp (whole.complete.mp (lists.mpr appended))⟩
    · cases raised
  · rintro ⟨appended, copy⟩
    exact ⟨iff_of_true (lists.mpr appended) (holds.mpr copy), fun _ _ _ => .inl (lists.mpr appended)⟩

/-- In every reachable state and for every outcome of its commands, a freeze is all or nothing exactly when it is
    stopped by a check or ends with the status 0 and no complete copy was left in the directory of the next version
    before, or it has the status 1 and both the copy and the update of the definition file succeed. -/
theorem freeze_all_or_nothing_iff {s₀ : Store Hash} (fresh : Fresh s₀) (run : Reaches hash root s₀ s)
    (load : loadInterface root s.definition = .ok i) :
    AllOrNothing hash shell i s ↔ FreezeSound hash shell i s := by
  obtain ⟨stability, numbered, -⟩ := run.preserved fresh.versioned fresh.numbered
  have versioned : s.definition.stability ≠ some "unstable".toList := stability ▸ fresh.versioned
  have unlisted := numbered.not_lists_next load versioned
  have other : i.nextVersion ≠ currentVersion := by
    rw [nextVersion_of_loaded load versioned]
    exact versionNumber_ne_current _
  rw [FreezeSound]
  cases status : freezeStatus hash shell i s.stable with
  | error e => exact allOrNothing_of_stopped status unlisted
  | ok n =>
    by_cases one : n = 1
    · subst one
      rw [allOrNothing_of_developed status load unlisted other]
      exact ⟨fun work => .inr ⟨rfl, work⟩, fun h => h.elim (fun h => absurd h.1 Nat.one_ne_zero) And.right⟩
    · rw [allOrNothing_of_undeveloped status one load unlisted]
      exact ⟨.inl, fun h => h.elim id fun h => absurd h.1 one⟩

end Ends

/-! ### A first freeze -/

def halInterface : AidlInterface := ⟨"hal".toList, halRoot, "central".toList, [], Dict.empty, none, 0, Dict.empty⟩

theorem halInterface_loaded : loadInterface halRoot halUpdated.definition = .ok halInterface := by decide +kernel

theorem halUpdated_reached : Reaches pairHash halRoot halFresh halUpdated :=
  Relation.ReflTransGen.single ⟨.update willingShell, by decide +kernel⟩

theorem freeze_all_or_nothing_hal :
    Fresh halFresh ∧ Reaches pairHash halRoot halFresh halUpdated ∧
      loadInterface halRoot halUpdated.definition = .ok halInterface ∧
      (AllOrNothing pairHash willingShell halInterface halUpdated ↔
        FreezeSound pairHash willingShell halInterface halUpdated) :=
  ⟨halFresh_fresh, halUpdated_reached, halInterface_loaded,
    freeze_all_or_nothing_iff halFresh_fresh halUpdated_reached halInterface_loaded⟩

/-- When `interface-update` leaves the definition file alone, the freeze ends without an error on a directory of
    version 1 that no entry lists. -/
theorem freeze_unlisted_copy :
    Fresh halFresh ∧ Reaches pairHash halRoot halFresh halUpdated ∧
      loadInterface halRoot halUpdated.definition = .ok halInterface ∧
      ¬AllOrNothing pairHash { willingShell with appends := false } halInterface halUpdated := by
  refine ⟨halFresh_fresh, halUpdated_reached, halInterface_loaded, fun whole => ?_⟩
  have passed : freezeStatus pairHash { willingShell with appends := false } halInterface halUpdated.stable = .ok 1 :=
    by decide +kernel
  have work := (allOrNothing_of_developed passed halInterface_loaded (by decide) (by decide)).mp whole
  cases work.1

end BinderIdl.Interface
