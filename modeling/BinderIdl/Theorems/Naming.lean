import BinderIdl.Interface.CMake

/-! Versioned names and target names taken apart again: by `get_imports` at the first `-v`, and by the build at the
    first dash and at the last version. -/

namespace BinderIdl.Interface
open Py Regex

/-- Both the imports of a frozen version and the build take a name and a version apart as they were put together. -/
structure Decodes (i : AidlInterface) (version : Text) : Prop where
  imports : partitionOn "-v".toList (i.versionedName version) = (i.baseName, version)
  name : interfaceName (cppTarget i.baseName version) = i.baseName
  version : interfaceVersion (cppTarget i.baseName version) = version

variable {name version t : Text} {m : Match}

/-! ### Versioned names -/

theorem partitionOn_versioned (plain : '-' ∉ name) (version : Text) :
    partitionOn "-v".toList (name ++ "-v".toList ++ version) = (name, version) := by
  induction name with
  | nil => rfl
  | cons c name ih =>
    have other : "-v".toList.isPrefixOf (c :: (name ++ "-v".toList ++ version)) = false := by
      have ne : ('-' == c) = false := beq_eq_false_iff_ne.mpr fun same => plain (same ▸ List.mem_cons_self)
      show (('-' == c) && _) = false
      rw [ne, Bool.false_and]
    rw [List.cons_append, List.cons_append, partitionOn, other, if_neg Bool.false_ne_true,
      ih fun member => plain (List.mem_cons_of_mem _ member)]

/-! ### The name of the interface -/

theorem interfaceName_eq (target : Text) : interfaceName target = target.takeWhile (· != '-') := by
  rw [interfaceName, matchHere_plus_last]
  by_cases run : target.takeWhile (· != '-') = []
  · rw [if_pos run, run]
  · rw [if_neg run]
    exact List.append_nil _

theorem ne_dash {v : Text} (plain : '-' ∉ v) : ∀ c ∈ v, (c != '-') = true :=
  fun _ member => bne_iff_ne.mpr fun same => plain (same ▸ member)

theorem interfaceName_cppTarget : interfaceName (cppTarget name version) = name ↔ '-' ∉ name := by
  rw [interfaceName_eq, cppTarget, List.append_assoc, List.append_assoc]
  constructor
  · intro same member
    rw [← same] at member
    have own := List.mem_takeWhile_imp member
    cases own
  · intro plain
    exact takeWhile_append_cons (ne_dash plain) rfl _

/-! ### The version -/

theorem matchHere_versionPattern : matchHere versionPattern t = some m ↔
    ∃ v, v ≠ [] ∧ '-' ∉ v ∧ t = "-v".toList ++ (v ++ "-cpp".toList) ∧
      m = ([['-'], ['v'], v, ['-'], ['c'], ['p'], ['p'], []], []) := by
  have cpp : "-cpp".toList = '-' :: "cpp".toList := rfl
  rw [versionPattern, cpp]
  constructor
  · intro found
    obtain ⟨u, m₁, rfl, found₁, rfl⟩ := of_matchHere_literal found
    obtain ⟨run, m₂, found₂, rfl⟩ := (matchHere_plus_literal rfl).mp found₁
    obtain ⟨w, m₃, behind, found₃, rfl⟩ := of_matchHere_literal found₂
    obtain ⟨rfl, rfl⟩ := matchHere_finish.mp found₃
    refine ⟨u.takeWhile (· != '-'), run, fun member => ?_, ?_, rfl⟩
    · have own := List.mem_takeWhile_imp member
      cases own
    · rw [← List.append_nil ('-' :: _), ← behind, List.takeWhile_append_dropWhile]
  · rintro ⟨v, more, plain, rfl, rfl⟩
    have stop : ('-' != '-') = false := rfl
    have run := takeWhile_append_cons (ne_dash plain) stop "cpp".toList
    have behind := dropWhile_append_cons (ne_dash plain) stop "cpp".toList
    have found : matchHere (Piece.plus (· != '-') :: (literal ('-' :: "cpp".toList) ++ [Piece.finish]))
        (v ++ '-' :: "cpp".toList) = some ([v, ['-'], ['c'], ['p'], ['p'], []], []) := by
      refine (matchHere_plus_literal rfl).mpr ⟨run.symm ▸ more, ([['-'], ['c'], ['p'], ['p'], []], []), ?_, ?_⟩
      · rw [behind]
        rfl
      · rw [run]
        rfl
    rw [matchHere_literal_append, found]
    rfl

theorem count_of_matchHere (found : matchHere versionPattern t = some m) : t.count '-' = 2 := by
  obtain ⟨v, -, plain, rfl, -⟩ := matchHere_versionPattern.mp found
  rw [List.count_append, List.count_append, List.count_eq_zero.mpr plain]
  rfl

/-- The only place of the version is behind the name: from any dash of the name on there are three dashes. -/
theorem search_cppTarget (name version : Text) :
    search versionPattern (cppTarget name version) =
      (search versionPattern ("-v".toList ++ (version ++ "-cpp".toList))).map fun f => (name ++ f.1, f.2) := by
  rw [cppTarget, List.append_assoc, List.append_assoc]
  refine search_append fun u suffix more => ?_
  cases found : matchHere versionPattern (u ++ ("-v".toList ++ (version ++ "-cpp".toList))) with
  | none => rfl
  | some m =>
    have two := count_of_matchHere found
    obtain ⟨v, -, -, start, -⟩ := matchHere_versionPattern.mp found
    obtain ⟨c, u, rfl⟩ := List.exists_cons_of_ne_nil more
    have dash : c = '-' := (List.cons.inj start).1
    subst dash
    rw [List.cons_append, List.count_cons_self, List.count_append, List.count_append, List.count_append] at two
    have first : List.count '-' "-v".toList = 1 := by decide
    have last : List.count '-' "-cpp".toList = 1 := by decide
    omega

theorem matchedVersion_cppTarget (plain : '-' ∉ version) : matchedVersion (cppTarget name version) = version := by
  rw [matchedVersion, search_cppTarget]
  by_cases none_ : version = []
  · subst none_
    rfl
  · rw [search_of_matchHere (matchHere_versionPattern.mpr ⟨version, none_, plain, rfl, rfl⟩)]
    rfl

theorem interfaceVersion_cppTarget (plain : '-' ∉ version) :
    interfaceVersion (cppTarget name version) = version ↔ version ≠ [] := by
  rw [interfaceVersion, matchedVersion_cppTarget plain]
  by_cases none_ : version = []
  · rw [if_pos (.inl none_), none_]
    exact iff_of_false (by decide) fun h => h rfl
  · refine iff_of_true ?_ none_
    by_cases current : version = currentVersion
    · rw [if_pos (.inr current), current]
    · rw [if_neg (not_or.mpr ⟨none_, current⟩)]

/-- A name and a version without a dash are decoded as they were encoded exactly when the name has no dash and the
    version is not empty. -/
theorem versioned_name_decodes_iff (i : AidlInterface) (plain : '-' ∉ version) :
    Decodes i version ↔ '-' ∉ i.baseName ∧ version ≠ [] := by
  constructor
  · intro decodes
    exact ⟨interfaceName_cppTarget.mp decodes.name, (interfaceVersion_cppTarget plain).mp decodes.version⟩
  · rintro ⟨dashless, nonempty⟩
    exact ⟨partitionOn_versioned dashless version, interfaceName_cppTarget.mpr dashless,
      (interfaceVersion_cppTarget plain).mpr nonempty⟩

/-! ### Two names -/

/-- The interface of this name without imports and versions. -/
def bareInterface (name : Text) : AidlInterface :=
  ⟨name, name ++ "/current".toList, "central".toList, [], Dict.empty, none, 0, Dict.empty⟩

theorem versioned_name_decodes_hal :
    '-' ∉ "1".toList ∧ (Decodes (bareInterface "hal".toList) "1".toList ↔
      '-' ∉ (bareInterface "hal".toList).baseName ∧ "1".toList ≠ []) :=
  ⟨by decide, versioned_name_decodes_iff _ (by decide)⟩

/-- The build reads the target of version 1 of `av-codec` as one of `av`. -/
theorem dashed_name_misread :
    loadInterface "av-codec/current".toList ⟨"av-codec".toList, [], none, none, none, []⟩ =
        .ok (bareInterface "av-codec".toList) ∧
      interfaceName (cppTarget "av-codec".toList "1".toList) = "av".toList ∧
      ¬Decodes (bareInterface "av-codec".toList) "1".toList := by
  refine ⟨by decide +kernel, by decide +kernel, fun decodes => ?_⟩
  have name := decodes.name
  revert name
  decide +kernel

end BinderIdl.Interface
