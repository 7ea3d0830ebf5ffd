import BinderIdl.Theorems.Integrity
import Mathlib.Data.List.Chain

/-! What `validate_interface` has checked when it returns: the dumps in their order, of which only the last may lack a
    hash file, whether it is `current` or not. -/

namespace BinderIdl.Interface
open Py

variable {Hash : Type} {hash : List (Text × Text) → Text → Hash} {shell : Shell Hash} {i : AidlInterface}
  {stable : Dict Text (Dump Hash)}

/-! ### The loop over the dumps -/

/-- The old and the new dump pass `check_compatibility`. -/
def Follows (shell : Shell Hash) (i : AidlInterface) (old new : ApiDump Hash) : Prop :=
  checkCompatibility shell i old.dump.files new.dump.files new.version = .ok ()

theorem checkAgainst_eq_ok {before : Option (ApiDump Hash)} {d : ApiDump Hash} :
    checkAgainst shell i before d = .ok () ↔ ∀ old ∈ before, Follows shell i old d := by
  cases before with
  | none => exact iff_of_true rfl fun _ h => by cases h
  | some old => exact ⟨fun h _ same => (by cases same; exact h), fun h => h old rfl⟩

theorem isChain_behind {before : Option (ApiDump Hash)} {d : ApiDump Hash} {rest : List (ApiDump Hash)} :
    List.IsChain (Follows shell i) (before.toList ++ d :: rest) ↔
      (∀ old ∈ before, Follows shell i old d) ∧ List.IsChain (Follows shell i) (d :: rest) := by
  cases before with
  | none => exact ⟨fun chain => ⟨fun _ h => (by cases h), chain⟩, And.right⟩
  | some old =>
    rw [Option.toList_some, List.singleton_append, List.isChain_cons_cons]
    exact and_congr_left fun _ => ⟨fun h _ same => (by cases same; exact h), fun h => h old rfl⟩

section Checks
variable [DecidableEq Hash]

theorem checkHashFile_frozen {d : ApiDump Hash} :
    checkHashFile hash i false d = .ok () ↔ d.dump.SealedAs hash d.version := by
  rw [checkHashFile]
  by_cases hashed : d.dump.hashFile.isSome = true
  · rw [if_pos hashed]
    exact checkIntegrity_eq_ok
  · rw [if_neg hashed, if_neg Bool.false_ne_true]
    exact ⟨fun h => (by cases h), fun sealed => absurd sealed.isSome_hashFile hashed⟩

theorem validateDumps_cons {before : Option (ApiDump Hash)} {d : ApiDump Hash} {rest : List (ApiDump Hash)} :
    validateDumps hash shell i before (d :: rest) = .ok () ↔ checkHashFile hash i rest.isEmpty d = .ok () ∧
      (∀ old ∈ before, Follows shell i old d) ∧ validateDumps hash shell i (some d) rest = .ok () := by
  rw [validateDumps, bind_eq_ok, ← checkAgainst_eq_ok]
  constructor
  · rintro ⟨_, hashed, h⟩
    exact ⟨hashed, bind_eq_ok.mp h |>.choose_spec⟩
  · rintro ⟨hashed, follows, valid⟩
    exact ⟨(), hashed, bind_eq_ok.mpr ⟨(), follows, valid⟩⟩

theorem Dump.SealedAs.checkHashFile {d : ApiDump Hash} (sealed : d.dump.SealedAs hash d.version) (last : Bool) :
    checkHashFile hash i last d = .ok () := by
  rw [Interface.checkHashFile, if_pos sealed.isSome_hashFile]
  exact checkIntegrity_eq_ok.mpr sealed

/-- `validate_interface` asks that every dump but the last is sealed, that the last one is if it has a hash file, and that
    each is compatible with the one before it. -/
theorem validateDumps_concat {dumps : List (ApiDump Hash)} {before : Option (ApiDump Hash)} {cur : ApiDump Hash} :
    validateDumps hash shell i before (dumps ++ [cur]) = .ok () ↔
      (∀ d ∈ dumps, d.dump.SealedAs hash d.version) ∧ checkHashFile hash i true cur = .ok () ∧
        List.IsChain (Follows shell i) (before.toList ++ (dumps ++ [cur])) := by
  induction dumps generalizing before with
  | nil =>
    rw [List.nil_append, validateDumps_cons, isChain_behind]
    constructor
    · rintro ⟨hashed, follows, -⟩
      exact ⟨fun _ member => absurd member List.not_mem_nil, hashed, follows, List.isChain_singleton cur⟩
    · rintro ⟨-, hashed, follows, -⟩
      exact ⟨hashed, follows, rfl⟩
  | cons d dumps ih =>
    have more : (dumps ++ [cur]).isEmpty = false := by cases dumps <;> rfl
    rw [List.cons_append, validateDumps_cons, isChain_behind, more, checkHashFile_frozen, ih, List.forall_mem_cons]
    constructor
    · rintro ⟨first, follows, others, hashed, chain⟩
      exact ⟨⟨first, others⟩, hashed, follows, chain⟩
    · rintro ⟨⟨first, others⟩, hashed, follows, chain⟩
      exact ⟨first, follows, others, hashed, chain⟩

/-! ### Every frozen version -/

/-- The dumps of the listed versions that have a directory, in their order. -/
def listedDumps (i : AidlInterface) (stable : Dict Text (Dump Hash)) : List (ApiDump Hash) :=
  i.versions.filterMap fun ver => (stable.get? ver).map (⟨ver, ·⟩)

/-- The dump of `current`, if there is one. -/
def currentApiDump (i : AidlInterface) (stable : Dict Text (Dump Hash)) : Option (ApiDump Hash) :=
  (stable.get? currentVersion).map (⟨i.nextVersion, ·⟩)

/-- Every listed version has a directory with a hash file that passes the integrity check, and each is compatible with
    the one before it, as `current` is with the last one. -/
structure Covered (hash : List (Text × Text) → Text → Hash) (shell : Shell Hash) (i : AidlInterface)
    (stable : Dict Text (Dump Hash)) : Prop where
  intact : ∀ ver ∈ i.versions, ∃ dump, stable.get? ver = some dump ∧ dump.hashFile.isSome ∧
    checkIntegrity hash i ⟨ver, dump⟩ = .ok ()
  compatible : List.IsChain (fun old new : ApiDump Hash =>
    checkCompatibility shell i old.dump.files new.dump.files new.version = .ok ())
    (listedDumps i stable ++ (currentApiDump i stable).toList)

omit [DecidableEq Hash] in
theorem frozenDumps_eq_listed {frozen : List (ApiDump Hash)} (numbered : hasFrozenVersions stable = true)
    (found : frozenDumps i stable = .ok frozen) :
    frozen = listedDumps i stable ∧ ∀ ver ∈ i.versions, ∃ dump, stable.get? ver = some dump := by
  rw [frozenDumps, if_pos numbered, mapM_eq_ok_iff_forall₂] at found
  rw [listedDumps]
  generalize i.versions = vers at found ⊢
  induction found with
  | nil => exact ⟨rfl, fun _ member => absurd member List.not_mem_nil⟩
  | @cons ver d vers frozen first _ ih =>
    rw [versionDump] at first
    cases dir : stable.get? ver with
    | none =>
      rw [dir] at first
      cases first
    | some dump =>
      rw [dir] at first
      cases first
      rw [List.filterMap_cons_some (b := ⟨ver, dump⟩) (by rw [dir]; rfl), ← ih.1]
      exact ⟨rfl, List.forall_mem_cons.mpr ⟨⟨dump, dir⟩, ih.2⟩⟩

theorem covered_iff (dirs : ∀ ver ∈ i.versions, ∃ dump, stable.get? ver = some dump) :
    Covered hash shell i stable ↔ (∀ d ∈ listedDumps i stable, d.dump.SealedAs hash d.version) ∧
      List.IsChain (Follows shell i) (listedDumps i stable ++ (currentApiDump i stable).toList) := by
  constructor
  · intro covered
    refine ⟨fun d member => ?_, covered.compatible⟩
    obtain ⟨ver, listed, found⟩ := List.mem_filterMap.mp member
    obtain ⟨dump, dir, -, intact⟩ := covered.intact ver listed
    rw [dir] at found
    cases found
    exact checkIntegrity_eq_ok.mp intact
  · rintro ⟨sealed, chain⟩
    refine ⟨fun ver listed => ?_, chain⟩
    obtain ⟨dump, dir⟩ := dirs ver listed
    have own := sealed ⟨ver, dump⟩ (List.mem_filterMap.mpr ⟨ver, listed, by rw [dir]; rfl⟩)
    exact ⟨dump, dir, own.isSome_hashFile, checkIntegrity_eq_ok.mpr own⟩

omit [DecidableEq Hash] in
theorem mem_listedDumps {d : ApiDump Hash} :
    d ∈ listedDumps i stable ↔ d.version ∈ i.versions ∧ stable.get? d.version = some d.dump := by
  rw [listedDumps, List.mem_filterMap]
  constructor
  · rintro ⟨ver, listed, found⟩
    obtain ⟨dump, dir, rfl⟩ := Option.map_eq_some_iff.mp found
    exact ⟨listed, dir⟩
  · rintro ⟨listed, dir⟩
    exact ⟨d.version, listed, by rw [dir]; rfl⟩

omit [DecidableEq Hash] in
theorem getLast?_listedDumps (dirs : ∀ ver ∈ i.versions, ∃ dump, stable.get? ver = some dump) :
    (listedDumps i stable).getLast?.map ApiDump.version = i.versions.getLast? := by
  rw [← List.getLast?_map, listedDumps, List.map_filterMap]
  have each : ∀ ver ∈ i.versions, ((stable.get? ver).map (ApiDump.mk ver)).map ApiDump.version = some ver := by
    intro ver listed
    obtain ⟨dump, dir⟩ := dirs ver listed
    rw [dir]
    rfl
  rw [List.filterMap_congr each, List.filterMap_some]

/-- When `validate_interface` returns, all that it should have checked has been checked, unless there is no `current`
    and the last frozen version, which then stands where `current` would, has no hash file. -/
theorem validated_covers_iff {dumps : List (ApiDump Hash)} (numbered : hasFrozenVersions stable = true)
    (valid : validateInterface hash shell i stable = .ok dumps) :
    Covered hash shell i stable ↔ (stable.get? currentVersion).isSome ∨
      ∀ ver ∈ i.versions.getLast?, ∀ dump, stable.get? ver = some dump → dump.hashFile.isSome := by
  obtain ⟨frozen, found, checked, rfl⟩ := validateInterface_eq_ok valid
  obtain ⟨rfl, dirs⟩ := frozenDumps_eq_listed numbered found
  rw [covered_iff dirs, currentApiDump]
  cases current : stable.get? currentVersion with
  | some dump =>
    rw [current, Option.map_some, Option.toList_some] at checked
    obtain ⟨sealed, -, chain⟩ := validateDumps_concat.mp checked
    exact iff_of_true ⟨sealed, chain⟩ (.inl rfl)
  | none =>
    rw [current, Option.map_none, Option.toList_none, List.append_nil] at checked
    rw [Option.map_none, Option.toList_none, List.append_nil, ← getLast?_listedDumps dirs]
    rcases List.eq_nil_or_concat' (listedDumps i stable) with none_ | ⟨init, last, split⟩
    · rw [none_]
      exact iff_of_true ⟨fun _ member => absurd member List.not_mem_nil, List.isChain_nil⟩
        (.inr fun _ member => by cases member)
    · have own := mem_listedDumps.mp (split ▸ List.mem_append_right init List.mem_cons_self)
      rw [split] at checked ⊢
      obtain ⟨sealed, hashed, chain⟩ := validateDumps_concat.mp checked
      rw [List.getLast?_concat, Option.map_some]
      constructor
      · rintro ⟨all, -⟩
        refine .inr fun ver same dump dir => ?_
        cases same
        cases own.2.symm.trans dir
        exact (all last (List.mem_append_right init List.mem_cons_self)).isSome_hashFile
      · rintro (absent | present)
        · cases absent
        have hashFile := present last.version rfl last.dump own.2
        rw [checkHashFile, if_pos hashFile] at hashed
        refine ⟨fun d member => ?_, chain⟩
        rcases List.mem_append.mp member with before | isLast
        · exact sealed d before
        · rw [List.mem_singleton.mp isLast]
          exact checkIntegrity_eq_ok.mp hashed

end Checks

/-! ### A version without `current` -/

/-- An interface with one frozen version. -/
def halListed : AidlInterface :=
  ⟨"hal".toList, halRoot, "central".toList, [], Dict.empty, none, 1, Dict.ofPairs [("1".toList, [])]⟩

/-- The same interface with a second version, in which a file has changed and one is new. -/
def halTwice : AidlInterface :=
  ⟨"hal".toList, halRoot, "central".toList, [], Dict.empty, none, 2, Dict.ofPairs [("1".toList, []), ("2".toList, [])]⟩

def halFiles2 : Files :=
  Dict.ofPairs [("IHal.aidl".toList, "interface IHal \x7b void ping(); \x7d".toList), ("IHal2.aidl".toList, "interface IHal2;".toList)]

def halDump2 : Dump (List (Text × Text) × Text) := ⟨halFiles2, some [pairHash (sortedFiles halFiles2) "1".toList]⟩

/-- The two versions are checked one against the other. -/
theorem validated_covers_hal :
    validateInterface pairHash willingShell halTwice (Dict.ofPairs [("1".toList, halDump), ("2".toList, halDump2)]) =
        .ok [⟨"1".toList, halDump⟩, ⟨"2".toList, halDump2⟩] ∧
      Covered pairHash willingShell halTwice (Dict.ofPairs [("1".toList, halDump), ("2".toList, halDump2)]) := by
  have valid : validateInterface pairHash willingShell halTwice
      (Dict.ofPairs [("1".toList, halDump), ("2".toList, halDump2)]) =
        .ok [⟨"1".toList, halDump⟩, ⟨"2".toList, halDump2⟩] := rfl
  refine ⟨valid, (validated_covers_iff (by decide +kernel) valid).mpr (.inr fun ver last dump dir => ?_)⟩
  have second : halTwice.versions.getLast? = some "2".toList := by decide +kernel
  rw [second] at last
  cases last
  have found : (Dict.ofPairs [("1".toList, halDump), ("2".toList, halDump2)]).get? "2".toList = some halDump2 := rfl
  cases found.symm.trans dir
  rfl

/-- Without `current`, version 1 passes without a hash file. -/
theorem unsealed_version_passes :
    (∃ dumps, validateInterface pairHash willingShell halListed (Dict.ofPairs [("1".toList, ⟨halFiles, none⟩)]) =
        .ok dumps) ∧
      hasFrozenVersions (Dict.ofPairs [("1".toList, (⟨halFiles, none⟩ : Dump (List (Text × Text) × Text)))]) = true ∧
      ¬Covered pairHash willingShell halListed (Dict.ofPairs [("1".toList, ⟨halFiles, none⟩)]) := by
  refine ⟨⟨[⟨"1".toList, ⟨halFiles, none⟩⟩], rfl⟩, by decide +kernel, fun covered => ?_⟩
  obtain ⟨dump, dir, hashed, -⟩ := covered.intact "1".toList (by decide +kernel)
  cases dir
  cases hashed

end BinderIdl.Interface
