import BinderIdl.Theorems.History
import BinderIdl.Theorems.Validation

/-! What an update does to the stable API: what is left of it when the update raises, and whether it is the API of the
    sources when the update ends. The sources are copied over `current` between two validations, and nothing is ever
    removed from it. -/

namespace BinderIdl.Interface
open Py

variable {Hash : Type} {hash : List (Text × Text) → Text → Hash} {shell : Shell Hash} {root : Text}
  {s t u : Store Hash} {i : AidlInterface} {old new : Files}

/-! ### Files laid over others -/

theorem get?_overlay (old new : Files) (path : Text) :
    (overlay old new).get? path = (new.get? path).or (old.get? path) := by
  rw [overlay, Dict.get?_foldl_copy (f := fun k => k) (g := fun v => v) (fun _ _ same => same)]
  cases new.get? path <;> rfl

theorem overlay_of_sub (sub : new.Sub old) : overlay old new = old := by
  rw [Dict.sub_iff_forall_entries] at sub
  rw [overlay]
  generalize new.entries = es at sub
  induction es with
  | nil => rfl
  | cons e es ih =>
    rw [List.foldl_cons, Dict.set_of_get? (sub e List.mem_cons_self)]
    exact ih fun e' member => sub e' (List.mem_cons_of_mem _ member)

theorem overlay_same_old : (overlay old new).Same old ↔ new.Sub old := by
  constructor
  · intro same path text found
    have this := same path
    rw [get?_overlay, found] at this
    exact this.symm
  · intro sub
    rw [overlay_of_sub sub]
    exact fun _ => rfl

theorem overlay_same_new : (overlay old new).Same new ↔ ∀ path ∈ old.keys, path ∈ new.keys := by
  constructor
  · intro same path member
    obtain ⟨text, found⟩ := Dict.exists_get? member
    have this := same path
    rw [get?_overlay, found] at this
    rw [Dict.mem_keys_iff, ← this]
    cases new.get? path <;> rfl
  · intro kept path
    rw [get?_overlay]
    cases missing : new.get? path with
    | some text => rfl
    | none =>
      rw [Option.none_or, Dict.get?_eq_none_iff]
      exact fun member => Dict.get?_eq_none_iff.mp missing (kept path member)

/-! ### The stable API -/

/-- What the current directory holds; one that is missing holds nothing. -/
def currentApi (s : Store Hash) : Dump Hash := (s.stable.get? currentVersion).getD ⟨Dict.empty, none⟩

/-- The files of the stable API and its hash are the same in both. -/
def SameApi (s t : Store Hash) : Prop :=
  (currentApi t).files.Same (currentApi s).files ∧ (currentApi t).hashFile = (currentApi s).hashFile

theorem currentApi_copySources (s : Store Hash) :
    currentApi (copySources s) = ⟨updatedFiles s, (currentApi s).hashFile⟩ := by
  rw [currentApi, current_copySources]
  rfl

theorem currentApi_updatedStore (tag : Text) (s : Store Hash) :
    currentApi (updatedStore hash tag s) = ⟨updatedFiles s, some [hash (sortedFiles (updatedFiles s)) tag]⟩ := by
  rw [currentApi, updatedStore, Dict.get?_set, if_pos rfl]
  rfl

theorem updatedFiles_of_sub (sub : s.source.Sub (currentApi s).files) : updatedFiles s = (currentApi s).files :=
  overlay_of_sub sub

theorem sameApi_copySources : SameApi s (copySources s) ↔ s.source.Sub (currentApi s).files := by
  rw [SameApi, currentApi_copySources]
  exact ⟨fun same => overlay_same_old.mp same.1, fun sub => ⟨overlay_same_old.mpr sub, rfl⟩⟩

theorem sameApi_updatedStore {tag : Text} : SameApi s (updatedStore hash tag s) ↔
    s.source.Sub (currentApi s).files ∧
      (currentApi s).hashFile = some [hash (sortedFiles (currentApi s).files) tag] := by
  rw [SameApi, currentApi_updatedStore]
  constructor
  · rintro ⟨same, hashed⟩
    have sub := overlay_same_old.mp same
    refine ⟨sub, ?_⟩
    rw [← hashed, updatedFiles_of_sub sub]
  · rintro ⟨sub, hashed⟩
    refine ⟨overlay_same_old.mpr sub, ?_⟩
    rw [hashed, updatedFiles_of_sub sub]

/-! ### Validation of a tree with a new `current` -/

theorem hasFrozenVersions_setCurrent (stable : Dict Text (Dump Hash)) (dump : Dump Hash) :
    hasFrozenVersions (stable.set currentVersion dump) = hasFrozenVersions stable := by
  rw [Bool.eq_iff_iff, hasFrozenVersions, hasFrozenVersions, List.any_eq_true, List.any_eq_true]
  refine exists_congr fun ver => and_congr_left fun digits => ?_
  rw [Dict.mem_keys_set, or_iff_right]
  rintro rfl
  exact absurd digits (by decide)

theorem frozenDumps_setCurrent (stable : Dict Text (Dump Hash)) (dump : Dump Hash) :
    frozenDumps i (stable.set currentVersion dump) = frozenDumps i stable := by
  rw [frozenDumps, frozenDumps, hasFrozenVersions_setCurrent]
  congr 1
  refine mapM_congr fun ver member => ?_
  obtain ⟨k, -, -, rfl⟩ := AidlInterface.mem_versions.mp member
  rw [versionDump, versionDump, Dict.get?_set, if_neg (versionNumber_ne_current k)]

section Checks
variable [DecidableEq Hash]

/-- What an update asks after it has written `current`: the frozen versions are sealed and each is compatible with the
    one before it, and the new `current` is compatible with the newest. -/
structure PassesAfterwards (hash : List (Text × Text) → Text → Hash) (shell : Shell Hash) (i : AidlInterface)
    (s : Store Hash) (frozen : List (ApiDump Hash)) : Prop where
  versioned : ¬i.unstable
  found : frozenDumps i s.stable = .ok frozen
  sealed : ∀ d ∈ frozen, d.dump.SealedAs hash d.version
  chain : List.IsChain (Follows shell i) frozen
  newest : ∀ d ∈ frozen.getLast?, checkCompatibility shell i d.dump.files (updatedFiles s) i.nextVersion = .ok ()

/-- The rewritten `current` is the one there was: the sources are among its files, and its hash is up to date. -/
def RewritesNothing (hash : List (Text × Text) → Text → Hash) (i : AidlInterface) (s : Store Hash) : Prop :=
  s.source.Sub (currentApi s).files ∧ ∀ tag, versionForHashgen i.nextVersion = .ok tag →
    (currentApi s).hashFile = some [hash (sortedFiles (currentApi s).files) tag]

theorem not_unstable_of_tagged {tag : Text} (tagged : versionForHashgen i.nextVersion = .ok tag) : ¬i.unstable := by
  intro unstable
  rw [AidlInterface.nextVersion, if_pos unstable] at tagged
  cases tagged

/-- `current` was sealed a moment ago, so only the other checks can still fail. -/
theorem validateInterface_updated (hash : List (Text × Text) → Text → Hash) (shell : Shell Hash) (s : Store Hash)
    {tag : Text} (tagged : versionForHashgen i.nextVersion = .ok tag) :
    (∃ dumps, validateInterface hash shell i (updatedStore hash tag s).stable = .ok dumps) ↔
      ∃ frozen, PassesAfterwards hash shell i s frozen := by
  have sealed : (⟨updatedFiles s, some [hash (sortedFiles (updatedFiles s)) tag]⟩ : Dump Hash).SealedAs hash
      i.nextVersion := ⟨tag, tagged, rfl⟩
  have current : (updatedStore hash tag s).stable.get? currentVersion =
      some ⟨updatedFiles s, some [hash (sortedFiles (updatedFiles s)) tag]⟩ := by
    rw [updatedStore, Dict.get?_set, if_pos rfl]
  have listed : frozenDumps i (updatedStore hash tag s).stable = frozenDumps i s.stable := frozenDumps_setCurrent _ _
  constructor
  · rintro ⟨dumps, valid⟩
    obtain ⟨frozen, found, checked, rfl⟩ := validateInterface_eq_ok valid
    rw [current, Option.map_some, Option.toList_some] at checked
    obtain ⟨others, -, chain⟩ := validateDumps_concat.mp checked
    rw [Option.toList_none, List.nil_append] at chain
    obtain ⟨chain, -, newest⟩ := List.isChain_append.mp chain
    exact ⟨frozen, not_unstable_of_tagged tagged, listed ▸ found, others, chain, fun d last => newest d last _ rfl⟩
  · rintro ⟨frozen, passes⟩
    have chain : List.IsChain (Follows shell i)
        (frozen ++ [⟨i.nextVersion, updatedFiles s, some [hash (sortedFiles (updatedFiles s)) tag]⟩]) := by
      refine List.isChain_append.mpr ⟨passes.chain, List.isChain_singleton _, fun d last cur first => ?_⟩
      cases first
      exact passes.newest d last
    have valid : validateDumps hash shell i none
        (frozen ++ [⟨i.nextVersion, updatedFiles s, some [hash (sortedFiles (updatedFiles s)) tag]⟩]) = .ok () :=
      validateDumps_concat.mpr ⟨passes.sealed, sealed.checkHashFile true, chain⟩
    have dumps : apiDumps i (updatedStore hash tag s).stable =
        .ok (frozen ++ [⟨i.nextVersion, updatedFiles s, some [hash (sortedFiles (updatedFiles s)) tag]⟩]) := by
      rw [apiDumps, listed, passes.found, current]
      rfl
    exact ⟨_, bind_eq_ok.mpr ⟨_, dumps, bind_eq_ok.mpr ⟨(), valid, rfl⟩⟩⟩

/-! ### Updates that raise -/

/-- An update that raises leaves the stable API as it was. -/
def KeptOnError (hash : List (Text × Text) → Text → Hash) (shell : Shell Hash) (i : AidlInterface) (s : Store Hash) :
    Prop :=
  ∀ e t, runFrom (handleUpdateApi hash shell i) s = (.error e, t) → SameApi s t

theorem keptOnError_of_run {r : Except ToolError Unit} (run : runFrom (handleUpdateApi hash shell i) s = (r, t))
    (same : (∃ e, r = .error e) → SameApi s t) : KeptOnError hash shell i s := by
  intro e t' raised
  rw [run] at raised
  obtain ⟨rfl, rfl⟩ := Prod.mk.inj raised
  exact same ⟨e, rfl⟩

theorem keptOnError_iff_of_raised {e : ToolError} (run : runFrom (handleUpdateApi hash shell i) s = (.error e, t)) :
    KeptOnError hash shell i s ↔ SameApi s t :=
  ⟨fun kept => kept e t run, fun same => keptOnError_of_run run fun _ => same⟩

/-- An update that raises has left the stable API alone exactly when the sources were rejected before the copy, or no
    check fails after it, or there was nothing to rewrite. -/
theorem update_kept_on_error_iff (central : i.layout ≠ "module-local".toList) :
    KeptOnError hash shell i s ↔ (∃ e, preValidate shell i s = .error e) ∨
      (∃ frozen, PassesAfterwards hash shell i s frozen) ∨ RewritesNothing hash i s := by
  have run := handleUpdateApi_run hash shell central s
  cases checked : preValidate shell i s with
  | error e =>
    rw [checked] at run
    exact iff_of_true (keptOnError_of_run run fun _ => ⟨fun _ => rfl, rfl⟩) (.inl ⟨e, rfl⟩)
  | ok u =>
    rw [checked] at run
    have accepted : ¬∃ e, (.ok u : Except ToolError Unit) = .error e := fun ⟨_, h⟩ => by cases h
    rw [or_iff_right accepted]
    cases tagged : versionForHashgen i.nextVersion with
    | error e =>
      -- only an unstable interface has no tag, and it passes no check afterwards
      rw [tagged] at run
      have fails : ¬∃ frozen, PassesAfterwards hash shell i s frozen := by
        rintro ⟨frozen, passes⟩
        rw [AidlInterface.nextVersion_of_stable passes.versioned, versionForHashgen_number] at tagged
        cases tagged
      rw [or_iff_right fails, keptOnError_iff_of_raised run, sameApi_copySources, RewritesNothing, tagged]
      exact (and_iff_left fun tag h => by cases h).symm
    | ok tag =>
      rw [tagged] at run
      dsimp only at run
      have passes := validateInterface_updated hash shell s tagged
      cases valid : validateInterface hash shell i (updatedStore hash tag s).stable with
      | error e =>
        rw [valid] at run passes
        have fails : ¬∃ frozen, PassesAfterwards hash shell i s frozen := by
          rw [← passes]
          rintro ⟨_, h⟩
          cases h
        rw [or_iff_right fails, keptOnError_iff_of_raised run, sameApi_updatedStore, RewritesNothing, tagged]
        exact and_congr_right fun _ => ⟨fun hashed _ h => Except.ok.inj h ▸ hashed, fun hashed => hashed tag rfl⟩
      | ok dumps =>
        rw [valid] at run
        exact iff_of_true (keptOnError_of_run run fun ⟨_, h⟩ => by cases h) (.inl (passes.mp ⟨dumps, valid⟩))

/-! ### Updates that end -/

/-- `t` is reached from `s` by edits of the sources and updates, each of which ends or raises. -/
def Updates (hash : List (Text × Text) → Text → Hash) (root : Text) : Store Hash → Store Hash → Prop :=
  Relation.ReflTransGen fun s t =>
    (∃ source, (Action.edit source).leaves hash root s = t) ∨ ∃ shell, (Action.update shell).leaves hash root s = t

/-- The stable API is that of the sources, and so is the version that is frozen next. -/
structure Mirrored (hash : List (Text × Text) → Text → Hash) (root : Text) (s : Store Hash) : Prop where
  current : (currentApi s).files.Same s.source
  next : ∀ (shell : Shell Hash) (t : Store Hash) (e : VersionInfo), shell.Works →
    Ends ((Action.freeze shell).perform hash root) s () t → t.definition = s.definition.addVersion e →
      ∃ dump, t.stable.get? e.version = some dump ∧ dump.files.Same s.source

theorem Updates.kept (run : Updates hash root s t) :
    t.definition = s.definition ∧ ∀ ver, ver ≠ currentVersion → t.stable.get? ver = s.stable.get? ver := by
  induction run with
  | refl => exact ⟨rfl, fun _ _ => rfl⟩
  | @tail t u _ step ih =>
    rcases step with ⟨source, rfl⟩ | ⟨shell, rfl⟩
    · exact ih
    · rw [Action.leaves, Action.perform, runFrom_loaded]
      cases loadInterface root t.definition with
      | error e => exact ih
      | ok i =>
        rcases handleUpdateApi_leaves hash shell i t with same | ⟨dump, written⟩
        · dsimp only
          rw [same]
          exact ih
        · dsimp only
          rw [written]
          refine ⟨ih.1, fun ver other => ?_⟩
          rw [Dict.get?_set, if_neg other]
          exact ih.2 ver other

theorem addVersion_injective {d : Definition} {e e' : VersionInfo} (same : d.addVersion e = d.addVersion e') :
    e = e' := by
  have lists := congrArg Definition.versionsWithInfo same
  exact List.head_eq_of_cons_eq (List.append_cancel_left lists)

theorem addVersion_ne (d : Definition) (e : VersionInfo) : d.addVersion e ≠ d := by
  intro same
  have lengths := congrArg (fun d => d.versionsWithInfo.length) same
  rw [Definition.addVersion, List.length_append] at lengths
  exact absurd lengths (by rw [List.length_singleton]; omega)

theorem frozen_files {e : VersionInfo} (works : shell.Works)
    (ends : Ends ((Action.freeze shell).perform hash root) s () t)
    (added : t.definition = s.definition.addVersion e)
    (unfrozen : s.stable.get? (versionNumber (s.definition.versionsWithInfo.length + 1)) = none) :
    ∃ dump, t.stable.get? e.version = some dump ∧ dump.files = (currentApi s).files := by
  obtain ⟨i, load, ends⟩ := ends_freeze ends
  obtain ⟨frozen, cur, tag, n, imports, -, current, -, tagged, -, -, rfl⟩ := handleFreezeApi_ends ends
  obtain ⟨-, next, -⟩ := tag_of_loaded load tagged
  have other : i.nextVersion ≠ currentVersion := next ▸ versionNumber_ne_current _
  rw [recordVersion] at added
  by_cases appended : n = 1 ∧ shell.appends = true
  · obtain ⟨rfl, -⟩ := appended
    rw [if_pos ⟨rfl, works.appends⟩] at added
    dsimp only at added
    rw [definition_dumpAsVersion] at added
    cases addVersion_injective added
    have written : (sealCurrent hash tag cur s).stable.get? currentVersion =
        some ⟨cur.files, some [hash (sortedFiles cur.files) tag]⟩ := by
      rw [sealCurrent, Dict.get?_set, if_pos rfl]
    have missing : (sealCurrent hash tag cur s).stable.get? i.nextVersion = none := by
      rw [sealCurrent, Dict.get?_set, if_neg other, next]
      exact unfrozen
    have copied := (dumpAsVersion_developed shell written other).2
    rw [missing, works.copied] at copied
    refine ⟨⟨cur.files, some [hash (sortedFiles cur.files) tag]⟩, ?_, ?_⟩
    · rw [recordVersion, if_pos ⟨rfl, works.appends⟩]
      exact copied
    · rw [currentApi, current]
      rfl
  · rw [if_neg appended, definition_dumpAsVersion] at added
    exact absurd added.symm (addVersion_ne _ _)

/-- In every run of edits and updates, after an update that ends the stable API and the version frozen next are those
    of the sources exactly when every path of the stable API is still one of the sources. -/
theorem update_mirrors_iff {s₀ : Store Hash} (central : s₀.definition.layoutName ≠ "module-local".toList)
    (unfrozen : s₀.stable.get? (versionNumber (s₀.definition.versionsWithInfo.length + 1)) = none)
    (run : Updates hash root s₀ s) (ends : Ends ((Action.update shell).perform hash root) s () t) :
    Mirrored hash root t ↔ ∀ path ∈ (currentApi s).files.keys, path ∈ s.source.keys := by
  obtain ⟨definition, dirs⟩ := run.kept
  obtain ⟨i, load, ends⟩ := ends_update ends
  have layout : i.layout ≠ "module-local".toList := by
    rw [layout_of_loaded load, definition]
    exact central
  obtain ⟨tag, -, rfl⟩ := handleUpdateApi_ends layout ends
  have files : (currentApi (updatedStore hash tag s)).files = overlay (currentApi s).files s.source := by
    rw [currentApi_updatedStore]
    rfl
  constructor
  · intro mirrored
    have same := mirrored.current
    rw [files] at same
    exact overlay_same_new.mp same
  · intro kept
    have same : (currentApi (updatedStore hash tag s)).files.Same s.source := by
      rw [files]
      exact overlay_same_new.mpr kept
    refine ⟨same, fun shell' u e works frozen added => ?_⟩
    have missing :
        (updatedStore hash tag s).stable.get? (versionNumber (s.definition.versionsWithInfo.length + 1)) = none := by
      rw [updatedStore, Dict.get?_set, if_neg (versionNumber_ne_current _), dirs _ (versionNumber_ne_current _),
        definition]
      exact unfrozen
    obtain ⟨dump, found, copied⟩ := frozen_files works frozen added missing
    exact ⟨dump, found, copied ▸ same⟩

end Checks

/-! ### Updates of one file -/

/-- Version 1 is frozen, its hash file is gone, and the sources have moved on. -/
def halUnsealed : Store (List (Text × Text) × Text) :=
  ⟨halDefinition.addVersion ⟨"1".toList, []⟩, Dict.ofPairs [("IHal.aidl".toList, "interface IHal2;".toList)],
    Dict.ofPairs [(currentVersion, halDump), ("1".toList, ⟨halFiles, none⟩)]⟩

theorem update_kept_on_error_hal :
    halListed.layout ≠ "module-local".toList ∧
      (KeptOnError pairHash willingShell halListed halFrozen ↔
        (∃ e, preValidate willingShell halListed halFrozen = .error e) ∨
          (∃ frozen, PassesAfterwards pairHash willingShell halListed halFrozen frozen) ∨
            RewritesNothing pairHash halListed halFrozen) :=
  ⟨by decide, update_kept_on_error_iff (by decide)⟩

/-- The update raises over the missing hash file of version 1, but `current` is rewritten by then. -/
theorem update_raises_after_copy :
    loadInterface halRoot halUnsealed.definition = .ok halListed ∧
      ¬KeptOnError pairHash willingShell halListed halUnsealed := by
  refine ⟨by decide +kernel, fun kept => ?_⟩
  have raised : runFrom (handleUpdateApi pairHash willingShell halListed) halUnsealed =
      (.error (.noHashFile "1".toList), updatedStore pairHash "1".toList halUnsealed) := by decide +kernel
  have hashed := (kept _ _ raised).2
  revert hashed
  decide +kernel

/-- The sources after a first update: a file has changed and one is new. -/
def halEdited : Store (List (Text × Text) × Text) := { halUpdated with source := halFiles2 }

def halReupdated : Store (List (Text × Text) × Text) :=
  { halEdited with
    stable := Dict.ofPairs [(currentVersion, ⟨halFiles2, some [pairHash (sortedFiles halFiles2) "latest-version".toList]⟩)] }

theorem leaves_halFresh : (Action.update willingShell).leaves pairHash halRoot halFresh = halUpdated := by decide +kernel

theorem update_mirrors_hal :
    Updates pairHash halRoot halFresh halEdited ∧
      Ends ((Action.update willingShell).perform pairHash halRoot) halEdited () halReupdated ∧
      Mirrored pairHash halRoot halReupdated := by
  have run : Updates pairHash halRoot halFresh halEdited :=
    (Relation.ReflTransGen.single (.inr ⟨_, leaves_halFresh⟩)).tail (.inl ⟨halFiles2, rfl⟩)
  have ends : Ends ((Action.update willingShell).perform pairHash halRoot) halEdited () halReupdated := by decide +kernel
  exact ⟨run, ends, (update_mirrors_iff (by decide) rfl run ends).mpr (by decide +kernel)⟩

/-- A file that is deleted from the sources stays in the stable API. -/
theorem update_keeps_deleted_file :
    Updates pairHash halRoot halFresh { halUpdated with source := Dict.empty } ∧
      Ends ((Action.update willingShell).perform pairHash halRoot) { halUpdated with source := Dict.empty } ()
        { halUpdated with source := Dict.empty } ∧
      ¬Mirrored pairHash halRoot { halUpdated with source := Dict.empty } := by
  refine ⟨(Relation.ReflTransGen.single (.inr ⟨_, leaves_halFresh⟩)).tail (.inl ⟨Dict.empty, rfl⟩), by decide +kernel, ?_⟩
  intro mirrored
  have same := mirrored.current "IHal.aidl".toList
  revert same
  decide +kernel

end BinderIdl.Interface
