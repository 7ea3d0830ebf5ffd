import BinderIdl.Interface.SourceGen
import BinderIdl.Theorems.BuildOrder
import BinderIdl.Theorems.Integrity

/-! Which of the targets that `generate_libraries_dependencies` lists can be generated: `handle_source_gen` only takes
    the numbers up to the next version, while a target may be listed under any name of a version. -/

namespace BinderIdl.Interface
open Py

/-! ### Listed versions -/

/-- A version of an interface that gets a target of its own: one of `versions_with_info`, or a snapshot directory. -/
inductive Registered (allLoaded : List AidlInterface) : Text → Text → Prop
  | frozen {name : Text} {i : AidlInterface} {version : Text} (known : (interfacesOf allLoaded).get? name = some i)
      (recorded : version ∈ i.versionsWithInfo.keys) : Registered allLoaded name version
  | snapshot {snap : AidlInterface} (member : snap ∈ allLoaded) :
      Registered allLoaded snap.baseName (basename snap.interfaceRoot)

/-- A registered version in a generation that ends. -/
structure Listed (allLoaded : List AidlInterface) (name version : Text) : Prop where
  generated : ∃ text, generateLibrariesDependencies allLoaded = .ok text
  registered : Registered allLoaded name version
  frozen : version ≠ currentVersion

section Loaded
variable {allLoaded : List AidlInterface} {name version : Text}

theorem Registered.known (registered : Registered allLoaded name version) :
    ∃ i, (interfacesOf allLoaded).get? name = some i := by
  cases registered with
  | frozen known _ => exact ⟨_, known⟩
  | snapshot member =>
    exact Dict.exists_get? (Dict.mem_keys_ofPairs.mpr (List.mem_map.mpr ⟨_, List.mem_map_of_mem member, rfl⟩))

theorem mem_keys_iff_registered {targets : Targets} (libs : libDeps allLoaded = .ok targets) {k : Text} :
    k ∈ targets.keys ↔ (∃ name i, (interfacesOf allLoaded).get? name = some i ∧ k = cppTarget name currentVersion) ∨
      ∃ name version, Registered allLoaded name version ∧ k = cppTarget name version := by
  cases libs.symm.trans (libDeps_eq allLoaded)
  refine mem_keys_foldl_registerSnapshot.trans ⟨?_, ?_⟩
  · rintro (⟨name, i, known, rfl | ⟨version, recorded, rfl⟩⟩ | ⟨snap, member, -, rfl⟩)
    · exact .inl ⟨name, i, known, rfl⟩
    · exact .inr ⟨name, version, .frozen known recorded, rfl⟩
    · exact .inr ⟨_, _, .snapshot member, rfl⟩
  · rintro (⟨name, i, known, rfl⟩ | ⟨name, version, registered, rfl⟩)
    · exact .inl ⟨name, i, known, .inl rfl⟩
    · cases registered with
      | frozen known recorded => exact .inl ⟨_, _, known, .inr ⟨_, recorded, rfl⟩⟩
      | snapshot member =>
        rename_i snap
        by_cases here : basename snap.interfaceRoot = currentVersion
        · rw [here]
          obtain ⟨i, known⟩ := (Registered.snapshot member).known
          exact .inl ⟨_, i, known, .inl rfl⟩
        · exact .inr ⟨snap, member, here, rfl⟩

theorem Listed.line (listed : Listed allLoaded name version) :
    ∃ targets text, libDeps allLoaded = .ok targets ∧ generateLibrariesDependencies allLoaded = .ok text ∧
      dependencyLine targets (cppTarget name version) <:+: text := by
  obtain ⟨text, generated⟩ := listed.generated
  obtain ⟨targets, order, libs, -, -, build, rfl⟩ := generate_eq_ok generated
  have member : cppTarget name version ∈ order :=
    (build.complete _).mpr ((mem_keys_iff_registered libs).mpr (.inr ⟨name, version, listed.registered, rfl⟩))
  obtain ⟨before, after, rfl⟩ := List.append_of_mem member
  refine ⟨targets, _, libs, generated, before.flatMap (dependencyLine targets), after.flatMap (dependencyLine targets), ?_⟩
  rw [List.flatMap_append, List.flatMap_cons, List.append_assoc]

end Loaded

/-! ### Requests -/

section Requests
variable {Hash : Type} [DecidableEq Hash] {hash : List (Text × Text) → Text → Hash} {shell : Shell Hash}
  {stable : Dict Text (Dump Hash)} {i : AidlInterface} {name version : Text}

/-- The interface is validated and has a `current` directory. -/
def ValidatedToCurrent (hash : List (Text × Text) → Text → Hash) (shell : Shell Hash) (stable : Dict Text (Dump Hash))
    (i : AidlInterface) : Prop :=
  ∃ dumps, validateInterface hash shell i stable = .ok dumps ∧ dumps.getLast?.map ApiDump.version = some i.nextVersion

/-- `handle_source_gen` gets past its checks. -/
def Accepted (hash : List (Text × Text) → Text → Hash) (shell : Shell Hash) (stable : Dict Text (Dump Hash))
    (name version : Text) : Prop :=
  ∃ call, handleSourceGen hash shell stable name (some version) = .ok call

/-- A number of a frozen version, or the next one. -/
def Ordinal (i : AidlInterface) (version : Text) : Prop :=
  ∃ n : Int, int? version = some n ∧ 1 ≤ n ∧ n ≤ i.versionCount + 1

/-- The versions that can be asked for. -/
def Generates (i : AidlInterface) (version : Text) : Prop :=
  i.unstable ∨ i.layout ≠ "module-local".toList ∧ Ordinal i version

theorem checkGenVersion_eq_ok (stable : ¬i.unstable) :
    checkGenVersion i version = .ok () ↔ i.layout ≠ "module-local".toList ∧ Ordinal i version := by
  rw [checkGenVersion, intOf_nextVersion stable]
  by_cases local_ : i.layout = "module-local".toList
  · rw [if_pos local_]
    exact iff_of_false (fun h => by cases h) fun h => h.1 local_
  · rw [if_neg local_, Ordinal, intOf]
    cases number : int? version with
    | none =>
      refine iff_of_false (fun h => by cases h) ?_
      rintro ⟨-, n, h, -⟩
      cases h
    | some n =>
      simp only [ok_bind]
      by_cases low : n < 1
      · rw [if_pos low]
        refine iff_of_false (fun h => by cases h) ?_
        rintro ⟨-, m, same, le, -⟩
        cases same
        omega
      · rw [if_neg low]
        by_cases high : n > (i.versionCount : Int) + 1
        · rw [if_pos high]
          refine iff_of_false (fun h => by cases h) ?_
          rintro ⟨-, m, same, -, le⟩
          cases same
          omega
        · rw [if_neg high]
          exact iff_of_true rfl ⟨local_, n, rfl, by omega, by omega⟩

theorem accepted_iff (known : shell.interfaces.get? name = some i) (valid : ValidatedToCurrent hash shell stable i) :
    Accepted hash shell stable name version ↔ Generates i version := by
  obtain ⟨dumps, validated, last⟩ := valid
  rw [Accepted, handleSourceGen, lookupInterface, known, ok_bind, validated, ok_bind, if_neg (not_not.mpr last), Generates]
  by_cases unstable : i.unstable
  · rw [if_pos unstable]
    exact iff_of_true ⟨_, rfl⟩ (.inl unstable)
  · rw [if_neg unstable, or_iff_right unstable, ← checkGenVersion_eq_ok unstable]
    constructor
    · rintro ⟨call, accepted⟩
      obtain ⟨_, checked, -⟩ := bind_eq_ok.mp accepted
      exact checked
    · intro checked
      exact ⟨some ⟨name, some version⟩, bind_eq_ok.mpr ⟨(), checked, rfl⟩⟩

/-- A listed version can be generated exactly when its interface is unstable, or keeps its versions in the central
    tree and has this one as a number. -/
theorem listed_version_accepted_iff {allLoaded : List AidlInterface} (listed : Listed allLoaded name version)
    (loaded : shell.interfaces = interfacesOf allLoaded)
    (valid : ∀ i, shell.interfaces.get? name = some i → ValidatedToCurrent hash shell stable i) :
    Accepted hash shell stable name version ↔
      ∃ i, (interfacesOf allLoaded).get? name = some i ∧ Generates i version := by
  obtain ⟨i, known⟩ := listed.registered.known
  rw [← loaded] at known ⊢
  rw [accepted_iff known (valid i known)]
  constructor
  · intro generates
    exact ⟨i, known, generates⟩
  · rintro ⟨j, known', generates⟩
    cases known.symm.trans known'
    exact generates

end Requests

/-! ### An ordinal and a release -/

/-- `hal` with one recorded version. -/
def halReleased (version : Text) : AidlInterface :=
  ⟨"hal".toList, halRoot, "central".toList, [], Dict.empty, none, 1, Dict.ofPairs [(version, [])]⟩

/-- The tools when only this interface is loaded. -/
def shellWith (i : AidlInterface) : Shell (List (Text × Text) × Text) :=
  { willingShell with interfaces := interfacesOf [i] }

/-- `hal` has no version directory beside `current` yet. -/
def onlyCurrent : Dict Text (Dump (List (Text × Text) × Text)) := Dict.ofPairs [(currentVersion, ⟨halFiles, none⟩)]

theorem halReleased_validated (version : Text) :
    ValidatedToCurrent pairHash (shellWith (halReleased version)) onlyCurrent (halReleased version) :=
  ⟨_, rfl, rfl⟩

theorem halReleased_listed {version text : Text} (frozen : version ≠ currentVersion)
    (generated : generateLibrariesDependencies [halReleased version] = .ok text) :
    Listed [halReleased version] "hal".toList version :=
  ⟨⟨text, generated⟩, .frozen (i := halReleased version) rfl (Dict.mem_keys_set.mpr (.inl rfl)), frozen⟩

theorem listed_version_accepted_hal :
    Accepted pairHash (shellWith (halReleased "1".toList)) onlyCurrent "hal".toList "1".toList ↔
      ∃ i, (interfacesOf [halReleased "1".toList]).get? "hal".toList = some i ∧ Generates i "1".toList := by
  have generated : generateLibrariesDependencies [halReleased "1".toList] =
      .ok "hal-vcurrent-cpp: \nhal-v1-cpp: \n".toList := by decide +kernel
  refine listed_version_accepted_iff (halReleased_listed (by decide) generated) rfl fun i known => ?_
  cases known
  exact halReleased_validated "1".toList

/-- A release with dots is listed as a target, and the request for it ends in a `ValueError`. -/
theorem dotted_release_rejected :
    Listed [halReleased "0.1.0.0".toList] "hal".toList "0.1.0.0".toList ∧
      ValidatedToCurrent pairHash (shellWith (halReleased "0.1.0.0".toList)) onlyCurrent
        (halReleased "0.1.0.0".toList) ∧
      handleSourceGen pairHash (shellWith (halReleased "0.1.0.0".toList)) onlyCurrent "hal".toList
        (some "0.1.0.0".toList) = .error (.notNumber "0.1.0.0".toList) ∧
      ¬Accepted pairHash (shellWith (halReleased "0.1.0.0".toList)) onlyCurrent "hal".toList "0.1.0.0".toList := by
  have generated : generateLibrariesDependencies [halReleased "0.1.0.0".toList] =
      .ok "hal-vcurrent-cpp: \nhal-v0.1.0.0-cpp: \n".toList := by decide +kernel
  have raised : handleSourceGen pairHash (shellWith (halReleased "0.1.0.0".toList)) onlyCurrent "hal".toList
      (some "0.1.0.0".toList) = .error (.notNumber "0.1.0.0".toList) := by decide +kernel
  refine ⟨halReleased_listed (by decide) generated, halReleased_validated _, raised, ?_⟩
  rintro ⟨call, accepted⟩
  cases accepted.symm.trans raised

end BinderIdl.Interface
