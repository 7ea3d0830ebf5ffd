import BinderIdl.Interface.Api

/-! What an update and a freeze that end without an error have done: the checks they passed and the store they
    leave. -/

namespace BinderIdl.Interface
open Py

variable {Hash : Type} {hash : List (Text × Text) → Text → Hash} {shell : Shell Hash}
  {i : AidlInterface}

/-- The last line of the hash file is the hash of the files with the tag of this version. -/
def Dump.SealedAs (hash : List (Text × Text) → Text → Hash) (d : Dump Hash) (version : Text) : Prop :=
  ∃ tag, versionForHashgen version = .ok tag ∧
    d.hashFile.bind List.getLast? = some (hash (sortedFiles d.files) tag)

theorem Dump.SealedAs.isSome_hashFile {d : Dump Hash} {version : Text} (sealed : d.SealedAs hash version) :
    d.hashFile.isSome = true := by
  obtain ⟨tag, -, line⟩ := sealed
  cases lines : d.hashFile with
  | none =>
    rw [lines] at line
    cases line
  | some l => rfl

section Checks
variable [DecidableEq Hash]

theorem checkIntegrity_eq_ok {d : ApiDump Hash} :
    checkIntegrity hash i d = .ok () ↔ d.dump.SealedAs hash d.version := by
  rw [checkIntegrity, bind_eq_ok]
  refine exists_congr fun tag => and_congr_right fun _ => ?_
  by_cases line : d.dump.hashFile.bind List.getLast? = some (hash (sortedFiles d.dump.files) tag)
  · rw [if_pos line]
    exact iff_of_true rfl line
  · rw [if_neg line]
    exact iff_of_false (fun h => by cases h) line

theorem validateDumps_sealed {dumps : List (ApiDump Hash)} {before : Option (ApiDump Hash)}
    (valid : validateDumps hash shell i before dumps = .ok ()) :
    ∀ d ∈ dumps, d.dump.hashFile.isSome → d.dump.SealedAs hash d.version := by
  induction dumps generalizing before with
  | nil => exact fun d member => absurd member List.not_mem_nil
  | cons e dumps ih =>
    rw [validateDumps] at valid
    obtain ⟨_, checked, valid⟩ := bind_eq_ok.mp valid
    obtain ⟨_, -, valid⟩ := bind_eq_ok.mp valid
    intro d member hashed
    rcases List.mem_cons.mp member with rfl | member
    · rw [checkHashFile, if_pos hashed] at checked
      exact checkIntegrity_eq_ok.mp checked
    · exact ih valid d member hashed

/-! ### Updates -/

/-- The store once `current` is sealed with this tag. -/
def sealCurrent (hash : List (Text × Text) → Text → Hash) (tag : Text) (dump : Dump Hash) (s : Store Hash) :
    Store Hash :=
  { s with stable := s.stable.set currentVersion ⟨dump.files, some [hash (sortedFiles dump.files) tag]⟩ }

omit [DecidableEq Hash] in
theorem updateHashForCurrentApi_run (s : Store Hash) : runFrom (updateHashForCurrentApi hash i) s =
    match versionForHashgen i.nextVersion with
    | .error e => (.error e, s)
    | .ok tag => (.ok (), match s.stable.get? currentVersion with
      | some dump => sealCurrent hash tag dump s
      | none => s) := by
  rw [updateHashForCurrentApi, runFrom_bind, runFrom_lift]
  cases versionForHashgen i.nextVersion with
  | error e => rfl
  | ok tag => rfl

/-- The files `current` has after an update. -/
def updatedFiles (s : Store Hash) : Files :=
  overlay ((s.stable.get? currentVersion).getD ⟨Dict.empty, none⟩).files s.source

/-- The store with `current` as an update writes it. -/
def updatedStore (hash : List (Text × Text) → Text → Hash) (tag : Text) (s : Store Hash) : Store Hash :=
  { s with stable := s.stable.set currentVersion ⟨updatedFiles s, some [hash (sortedFiles (updatedFiles s)) tag]⟩ }

omit [DecidableEq Hash] in
theorem current_copySources (s : Store Hash) : (copySources s).stable.get? currentVersion =
    some ⟨updatedFiles s, ((s.stable.get? currentVersion).getD ⟨Dict.empty, none⟩).hashFile⟩ := by
  rw [copySources, Dict.get?_set, if_pos rfl]
  rfl

/-- An update that passes the check of the sources copies them, whatever it raises later. -/
theorem handleUpdateApi_run (hash : List (Text × Text) → Text → Hash) (shell : Shell Hash)
    (central : i.layout ≠ "module-local".toList) (s : Store Hash) :
    runFrom (handleUpdateApi hash shell i) s =
      match preValidate shell i s with
      | .error e => (.error e, s)
      | .ok _ => match versionForHashgen i.nextVersion with
        | .error e => (.error e, copySources s)
        | .ok tag => ((validateInterface hash shell i (updatedStore hash tag s).stable).map fun _ => (),
            updatedStore hash tag s) := by
  rw [handleUpdateApi, if_neg central, runFrom_bind, runFrom_get]
  dsimp only
  rw [runFrom_bind, runFrom_lift]
  cases preValidate shell i s with
  | error e => rfl
  | ok u =>
    dsimp only
    rw [runFrom_bind, runFrom_modify]
    dsimp only
    rw [runFrom_bind, updateHashForCurrentApi_run, current_copySources]
    cases versionForHashgen i.nextVersion with
    | error e => rfl
    | ok tag =>
      dsimp only
      rw [runFrom_bind, runFrom_get]
      have written : sealCurrent hash tag
          ⟨updatedFiles s, ((s.stable.get? currentVersion).getD ⟨Dict.empty, none⟩).hashFile⟩ (copySources s) =
          updatedStore hash tag s := by
        simp only [sealCurrent, copySources, updatedStore, Dict.set_set]
      dsimp only
      rw [written, runFrom_bind, runFrom_lift]
      cases validateInterface hash shell i (updatedStore hash tag s).stable with
      | error e => rfl
      | ok dumps => rfl

theorem handleUpdateApi_ends {s t : Store Hash} (central : i.layout ≠ "module-local".toList)
    (h : Ends (handleUpdateApi hash shell i) s () t) :
    ∃ tag, versionForHashgen i.nextVersion = .ok tag ∧ t = updatedStore hash tag s := by
  change runFrom (handleUpdateApi hash shell i) s = _ at h
  rw [handleUpdateApi_run hash shell central] at h
  cases checked : preValidate shell i s with
  | error e =>
    rw [checked] at h
    cases h
  | ok u =>
    rw [checked] at h
    cases tagged : versionForHashgen i.nextVersion with
    | error e =>
      rw [tagged] at h
      cases h
    | ok tag =>
      rw [tagged] at h
      exact ⟨tag, rfl, (Prod.mk.inj h).2.symm⟩

/-- Of the store, an update writes `current` alone. -/
theorem handleUpdateApi_leaves (hash : List (Text × Text) → Text → Hash) (shell : Shell Hash) (i : AidlInterface)
    (s : Store Hash) :
    (runFrom (handleUpdateApi hash shell i) s).2 = s ∨ ∃ dump,
      (runFrom (handleUpdateApi hash shell i) s).2 = { s with stable := s.stable.set currentVersion dump } := by
  by_cases central : i.layout = "module-local".toList
  · rw [handleUpdateApi, if_pos central]
    exact .inl rfl
  · rw [handleUpdateApi_run hash shell central]
    cases preValidate shell i s with
    | error e => exact .inl rfl
    | ok u =>
      cases versionForHashgen i.nextVersion with
      | error e => exact .inr ⟨_, rfl⟩
      | ok tag => exact .inr ⟨_, rfl⟩

/-! ### Freezes -/

omit [DecidableEq Hash] in
theorem versionDump_eq_ok {stable : Dict Text (Dump Hash)} {ver : Text} {d : ApiDump Hash} :
    versionDump stable ver = .ok d ↔ d.version = ver ∧ stable.get? ver = some d.dump := by
  rw [versionDump]
  cases found : stable.get? ver with
  | none => exact ⟨fun h => (by cases h), fun h => by cases h.2⟩
  | some dump =>
    constructor
    · intro h
      cases h
      exact ⟨rfl, rfl⟩
    · rintro ⟨rfl, same⟩
      cases same
      rfl

omit [DecidableEq Hash] in
theorem frozenDumps_eq_ok {stable : Dict Text (Dump Hash)} {frozen : List (ApiDump Hash)}
    (found : frozenDumps i stable = .ok frozen) :
    (∀ d ∈ frozen, d.version ∈ i.versions ∧ stable.get? d.version = some d.dump) ∧
      (hasFrozenVersions stable = true → frozen.map ApiDump.version = i.versions) := by
  rw [frozenDumps] at found
  by_cases numbered : hasFrozenVersions stable = true
  · rw [if_pos numbered, mapM_eq_ok_iff_forall₂] at found
    generalize i.versions = vers at found ⊢
    induction found with
    | nil => exact ⟨fun d member => absurd member List.not_mem_nil, fun _ => rfl⟩
    | @cons ver d vers ds first _ ih =>
      obtain ⟨rfl, dir⟩ := versionDump_eq_ok.mp first
      obtain ⟨each, names⟩ := ih
      refine ⟨fun e member => ?_, fun _ => by rw [List.map_cons, names numbered]⟩
      rcases List.mem_cons.mp member with rfl | member
      · exact ⟨List.mem_cons_self, dir⟩
      · exact ⟨List.mem_cons_of_mem _ (each e member).1, (each e member).2⟩
  · rw [if_neg numbered] at found
    cases found
    exact ⟨fun d member => absurd member List.not_mem_nil, fun h => absurd h numbered⟩

/-- The dump that is frozen. -/
def currentDump (i : AidlInterface) (stable : Dict Text (Dump Hash)) : Except ToolError (Dump Hash) :=
  match stable.get? currentVersion with
  | some dump => .ok dump
  | none => .error (.fatal i.baseName)

omit [DecidableEq Hash] in
theorem currentDump_eq_ok {stable : Dict Text (Dump Hash)} {dump : Dump Hash} :
    currentDump i stable = .ok dump ↔ stable.get? currentVersion = some dump := by
  rw [currentDump]
  cases stable.get? currentVersion with
  | none => exact ⟨fun h => (by cases h), fun h => by cases h⟩
  | some d => exact ⟨fun h => congrArg some (Except.ok.inj h), fun h => congrArg _ (Option.some.inj h)⟩

/-- The checks of a freeze, up to the status they end with. -/
def freezeStatus (hash : List (Text × Text) → Text → Hash) (shell : Shell Hash) (i : AidlInterface)
    (stable : Dict Text (Dump Hash)) : Except ToolError ℕ := do
  let dumps ← validateInterface hash shell i stable
  let dump ← currentDump i stable
  let _ ← versionForHashgen i.nextVersion
  let n ← checkForDevelopment shell i dumps.dropLast.getLast? ⟨i.nextVersion, dump⟩
  dependenciesCheckForFreeze shell i stable
  return n

/-- The store once the freeze has written the hash of `current`, if it comes to that. -/
def sealedStore (hash : List (Text × Text) → Text → Hash) (shell : Shell Hash) (i : AidlInterface)
    (s : Store Hash) : Store Hash :=
  match validateInterface hash shell i s.stable, s.stable.get? currentVersion, versionForHashgen i.nextVersion with
  | .ok _, some dump, .ok tag => sealCurrent hash tag dump s
  | _, _, _ => s

omit [DecidableEq Hash] in
theorem dependenciesCheckForFreeze_sealed {s : Store Hash} {dump : Dump Hash} {tag : Text}
    (found : s.stable.get? currentVersion = some dump) :
    dependenciesCheckForFreeze shell i (sealCurrent hash tag dump s).stable =
      dependenciesCheckForFreeze shell i s.stable := by
  rw [dependenciesCheckForFreeze, dependenciesCheckForFreeze, sealCurrent, Dict.get?_set, if_pos rfl, found]
  rfl

/-- The validated dumps end in `current`, if there is one, and no other dump counts as the next version. -/
theorem validateInterface_eq_ok {stable : Dict Text (Dump Hash)} {dumps : List (ApiDump Hash)}
    (valid : validateInterface hash shell i stable = .ok dumps) :
    ∃ frozen, frozenDumps i stable = .ok frozen ∧ validateDumps hash shell i none dumps = .ok () ∧
      dumps = frozen ++ ((stable.get? currentVersion).map fun dump => ⟨i.nextVersion, dump⟩).toList := by
  obtain ⟨all, listed, validated⟩ := bind_eq_ok.mp valid
  obtain ⟨_, checked, done⟩ := bind_eq_ok.mp validated
  cases done
  obtain ⟨frozen, found, done⟩ := bind_eq_ok.mp listed
  cases done
  exact ⟨frozen, found, checked, rfl⟩

theorem handleFreezeApi_run (s : Store Hash) :
    runFrom (handleFreezeApi hash shell i) s =
      match freezeStatus hash shell i s.stable with
      | .error e => (.error e, sealedStore hash shell i s)
      | .ok n => match recordedImports i shell.interfaces with
        | .error e => (.error e, dumpAsVersion shell i.nextVersion n (sealedStore hash shell i s))
        | .ok imports => (.ok (), recordVersion shell ⟨i.nextVersion, imports⟩ n
            (dumpAsVersion shell i.nextVersion n (sealedStore hash shell i s))) := by
  rw [handleFreezeApi, runFrom_bind, runFrom_get]
  dsimp only
  rw [runFrom_bind, runFrom_lift, freezeStatus, sealedStore]
  cases valid : validateInterface hash shell i s.stable with
  | error e => rfl
  | ok dumps =>
    obtain ⟨frozen, found, -, rfl⟩ := validateInterface_eq_ok valid
    rw [currentDump]
    cases current : s.stable.get? currentVersion with
    | none =>
      -- without `current` the last dump is of a listed version, which is not the next one
      rw [Option.map_none, Option.toList_none, List.append_nil]
      cases last : frozen.getLast? with
      | none =>
        simp only [last]
        rfl
      | some tot =>
        have version : tot.version ≠ i.nextVersion := fun same =>
          i.nextVersion_notMem_versions (same ▸ ((frozenDumps_eq_ok found).1 tot (List.mem_of_getLast? last)).1)
        simp only [last]
        rw [if_pos version]
        rfl
    | some dump =>
      simp only [Option.map_some, Option.toList_some, List.getLast?_concat, List.dropLast_concat, ne_eq,
        not_true_eq_false, if_false, ok_bind]
      rw [runFrom_bind, updateHashForCurrentApi_run]
      cases versionForHashgen i.nextVersion with
      | error e => rfl
      | ok tag =>
        simp only [current, ok_bind]
        rw [runFrom_bind, runFrom_lift]
        cases checkForDevelopment shell i frozen.getLast? ⟨i.nextVersion, dump⟩ with
        | error e => rfl
        | ok n =>
          dsimp only
          rw [runFrom_bind, runFrom_get]
          dsimp only
          rw [runFrom_bind, runFrom_lift, dependenciesCheckForFreeze_sealed current, ok_bind]
          cases dependenciesCheckForFreeze shell i s.stable with
          | error e => rfl
          | ok u =>
            rw [ok_bind]
            dsimp only
            rw [makeApiDumpAsVersion, runFrom_bind, runFrom_modify]
            dsimp only
            rw [appendVersion, runFrom_bind, runFrom_lift]
            cases recordedImports i shell.interfaces with
            | error e => rfl
            | ok imports => rfl

theorem freezeStatus_eq_ok {s : Store Hash} {n : ℕ} (h : freezeStatus hash shell i s.stable = .ok n) :
    ∃ frozen dump tag, frozenDumps i s.stable = .ok frozen ∧ s.stable.get? currentVersion = some dump ∧
      validateDumps hash shell i none (frozen ++ [⟨i.nextVersion, dump⟩]) = .ok () ∧
      versionForHashgen i.nextVersion = .ok tag ∧
      checkForDevelopment shell i frozen.getLast? ⟨i.nextVersion, dump⟩ = .ok n ∧
      dependenciesCheckForFreeze shell i s.stable = .ok () ∧
      sealedStore hash shell i s = sealCurrent hash tag dump s := by
  obtain ⟨dumps, valid, h⟩ := bind_eq_ok.mp h
  obtain ⟨dump, present, h⟩ := bind_eq_ok.mp h
  obtain ⟨tag, tagged, h⟩ := bind_eq_ok.mp h
  obtain ⟨m, developed, h⟩ := bind_eq_ok.mp h
  obtain ⟨_, resolved, done⟩ := bind_eq_ok.mp h
  cases done
  have current : s.stable.get? currentVersion = some dump := currentDump_eq_ok.mp present
  obtain ⟨frozen, found, checked, same⟩ := validateInterface_eq_ok valid
  rw [current, Option.map_some, Option.toList_some] at same
  subst same
  rw [List.dropLast_concat] at developed
  have sealed : sealedStore hash shell i s = sealCurrent hash tag dump s := by
    rw [sealedStore, valid, current, tagged]
  exact ⟨frozen, dump, tag, found, current, checked, tagged, developed, resolved, sealed⟩

/-- A freeze that ends has validated all dumps, then sealed `current`, and then added the version, if it found a
    development. -/
theorem handleFreezeApi_ends {s t : Store Hash} (h : Ends (handleFreezeApi hash shell i) s () t) :
    ∃ frozen dump tag n imports, frozenDumps i s.stable = .ok frozen ∧
      s.stable.get? currentVersion = some dump ∧
      validateDumps hash shell i none (frozen ++ [⟨i.nextVersion, dump⟩]) = .ok () ∧
      versionForHashgen i.nextVersion = .ok tag ∧
      checkForDevelopment shell i frozen.getLast? ⟨i.nextVersion, dump⟩ = .ok n ∧
      recordedImports i shell.interfaces = .ok imports ∧
      t = recordVersion shell ⟨i.nextVersion, imports⟩ n
        (dumpAsVersion shell i.nextVersion n (sealCurrent hash tag dump s)) := by
  change runFrom (handleFreezeApi hash shell i) s = _ at h
  rw [handleFreezeApi_run] at h
  cases checked : freezeStatus hash shell i s.stable with
  | error e =>
    rw [checked] at h
    cases h
  | ok n =>
    rw [checked] at h
    obtain ⟨frozen, dump, tag, found, current, valid, tagged, developed, -, sealed⟩ := freezeStatus_eq_ok checked
    cases recorded : recordedImports i shell.interfaces with
    | error e =>
      rw [recorded] at h
      cases h
    | ok imports =>
      rw [recorded, sealed] at h
      exact ⟨frozen, dump, tag, n, imports, found, current, valid, tagged, developed, rfl, (Prod.mk.inj h).2.symm⟩

omit [DecidableEq Hash] in
theorem definition_dumpAsVersion (version : Text) (n : ℕ) (s : Store Hash) :
    (dumpAsVersion shell version n s).definition = s.definition := by
  rw [dumpAsVersion]
  split
  · split
    · split <;> rfl
    · rfl
  · rfl

theorem definition_sealedStore (s : Store Hash) :
    (sealedStore hash shell i s).definition = s.definition := by
  rw [sealedStore]
  split <;> rfl

omit [DecidableEq Hash] in
theorem dumpAsVersion_developed (shell : Shell Hash) {s : Store Hash} {ver : Text} {cur : Dump Hash}
    (current : s.stable.get? currentVersion = some cur) (other : ver ≠ currentVersion) :
    (dumpAsVersion shell ver 1 s).stable.get? currentVersion = some cur ∧
      (dumpAsVersion shell ver 1 s).stable.get? ver = (shell.copied cur (s.stable.get? ver)).or (s.stable.get? ver) := by
  rw [dumpAsVersion, current]
  dsimp only
  rw [if_pos rfl]
  cases shell.copied cur (s.stable.get? ver) with
  | none => exact ⟨current, rfl⟩
  | some copy =>
    dsimp only
    rw [Dict.get?_set, if_neg (Ne.symm other), Dict.get?_set, if_pos rfl]
    exact ⟨current, rfl⟩

omit [DecidableEq Hash] in
theorem dumpAsVersion_undeveloped {s : Store Hash} {ver : Text} {n : ℕ} (other : n ≠ 1) :
    dumpAsVersion shell ver n s = s := by
  rw [dumpAsVersion]
  split
  · rw [if_neg other]
  · rfl

end Checks

end BinderIdl.Interface
