import BinderIdl.Theorems.Resolution

/-! Which registered interfaces can be resolved: registration follows the pins, resolution does not, and it compares
    versions when a second path leads to an interface. -/

namespace BinderIdl.Interface
open Py Graph

variable {allLoaded : List AidlInterface} {i : AidlInterface}

/-- Interfaces that registration accepts, with numbered versions and none that is unstable. -/
structure Registrable (allLoaded : List AidlInterface) : Prop where
  generated : ∃ text, generateLibrariesDependencies allLoaded = .ok text
  stable : ∀ k i, (interfacesOf allLoaded).get? k = some i → ¬i.unstable
  integers : ∀ k i, (interfacesOf allLoaded).get? k = some i → ∀ v ∈ i.versionsWithInfo.keys, (int? v).isSome

/-- On every working host that is deep enough, the dependencies of the next version are found, before a freeze and
    otherwise. -/
def Returns (interfaces : Dict Text AidlInterface) (i : AidlInterface) : Prop :=
  ∃ limit, ∀ host : Host, host.Works → limit ≤ host.recursionLimit →
    (∃ deps, getDependencies host interfaces i i.nextVersion true = .ok deps) ∧
      ∃ deps, getDependencies host interfaces i i.nextVersion false = .ok deps

theorem importVerType_freeze (i : AidlInterface) : importVerType i i.nextVersion true = .latest := by
  rw [importVerType, if_pos rfl]
  rfl

/-- A host that works and is as deep as required. -/
def deepHost (limit : ℕ) : Host := ⟨fun _ _ => true, fun _ _ _ => true, limit⟩

theorem works_deepHost (limit : ℕ) : (deepHost limit).Works := ⟨fun _ _ => rfl, fun _ _ _ => rfl⟩

theorem Returns.resolvable {interfaces : Dict Text AidlInterface} (named : Named interfaces)
    (returns : Returns interfaces i) :
    Resolvable interfaces .latest i i.nextVersion ∧ Resolvable interfaces .next i i.nextVersion := by
  obtain ⟨limit, returns⟩ := returns
  obtain ⟨⟨deps, freeze⟩, deps', next⟩ := returns (deepHost limit) (works_deepHost limit) le_rfl
  have resolvable := resolvable_of_getDependencies named freeze
  have resolvable' := resolvable_of_getDependencies named next
  rw [importVerType_freeze] at resolvable
  rw [importVerType_nextVersion] at resolvable'
  exact ⟨resolvable, resolvable'⟩

/-- A working host finds the dependencies of whatever can be resolved. -/
theorem exists_limit {interfaces : Dict Text AidlInterface} (named : Named interfaces) {mode : ImportVerType}
    {isFreezeApi : Bool} (same : importVerType i i.nextVersion isFreezeApi = mode) (other : mode ≠ .frozen)
    (resolvable : Resolvable interfaces mode i i.nextVersion) :
    ∃ limit, ∀ host : Host, host.Works → limit ≤ host.recursionLimit →
      ∃ deps, getDependencies host interfaces i i.nextVersion isFreezeApi = .ok deps := by
  subst same
  obtain ⟨limit, ends⟩ := resolvable.getDependencies named fun h => other h.1
  exact ⟨limit, fun host works deep => ends host deep fun c _ deps _ =>
    aidlGenPreprocessed_ok works c.interface c.version deps⟩

/-- Resolution returns in both modes exactly when the imports of both can be followed to their ends, and an interface
    that two paths lead to before a freeze is only asked for at numbers. -/
theorem resolution_returns_iff (registrable : Registrable allLoaded) (i : AidlInterface) :
    Returns (interfacesOf allLoaded) i ↔
      Resolvable (interfacesOf allLoaded) .latest i i.nextVersion ∧
        Followable (interfacesOf allLoaded) .next i i.nextVersion := by
  have named := named_interfacesOf allLoaded
  constructor
  · intro returns
    obtain ⟨freeze, next⟩ := returns.resolvable named
    exact ⟨freeze, next.toFollowable⟩
  · rintro ⟨freeze, next⟩
    have resolvable : Resolvable (interfacesOf allLoaded) .next i i.nextVersion :=
      ⟨next, fun c asked _ => isSome_of_asked_next named registrable.stable asked⟩
    obtain ⟨limit, ends⟩ := exists_limit named (importVerType_freeze i) (by decide) freeze
    obtain ⟨limit', ends'⟩ := exists_limit named (importVerType_nextVersion i) (by decide) resolvable
    refine ⟨max limit limit', fun host works deep => ?_⟩
    exact ⟨ends host works ((le_max_left _ _).trans deep), ends' host works ((le_max_right _ _).trans deep)⟩

/-! ### A pin on two paths -/

/-- `common`, in development or as a snapshot. -/
def diamondCommon (root : Text) : AidlInterface :=
  ⟨"common".toList, root, "module-local".toList, [], Dict.empty, none, 0, Dict.empty⟩

/-- An interface that was never frozen and imports `common` with this pin. -/
def pinsCommon (name pin : Text) : AidlInterface :=
  ⟨name, name ++ "/current".toList, "module-local".toList, ["common".toList],
    Dict.ofPairs [("common".toList, some pin)], none, 0, Dict.empty⟩

def diamondHal : AidlInterface :=
  ⟨"hal".toList, "hal/current".toList, "module-local".toList, ["audio".toList, "video".toList],
    Dict.ofPairs [("audio".toList, none), ("video".toList, none)], none, 0, Dict.empty⟩

/-- `hal` imports `audio` and `video`, which both import a snapshot of `common`. -/
def diamond : List AidlInterface := [
  diamondCommon "common/0.1.0.0".toList, pinsCommon "audio".toList "0.1.0.0".toList, diamondCommon "common/current".toList,
  diamondHal, pinsCommon "video".toList "0.1.0.0".toList]

theorem registrable_diamond : Registrable diamond :=
  ⟨⟨_, rfl⟩, by decide +kernel, by decide +kernel⟩

/-- The same interfaces with a frozen version 1 of `common`, which both paths ask for. -/
def numberedDiamond : List AidlInterface := [
  pinsCommon "audio".toList "1".toList,
  ⟨"common".toList, "common/current".toList, "module-local".toList, [], Dict.empty, none, 1, Dict.ofPairs [("1".toList, [])]⟩,
  diamondHal, pinsCommon "video".toList "1".toList]

theorem registrable_numberedDiamond : Registrable numberedDiamond :=
  ⟨⟨_, rfl⟩, by decide +kernel, by decide +kernel⟩

theorem resolution_returns_diamond :
    Registrable numberedDiamond ∧ Returns (interfacesOf numberedDiamond) diamondHal := by
  have named := named_interfacesOf numberedDiamond
  obtain ⟨deps, freeze⟩ : ∃ deps, getDependencies willingHost (interfacesOf numberedDiamond) diamondHal
      diamondHal.nextVersion true = .ok deps := ⟨_, rfl⟩
  obtain ⟨deps', next⟩ : ∃ deps, getDependencies willingHost (interfacesOf numberedDiamond) diamondHal
      diamondHal.nextVersion false = .ok deps := ⟨_, rfl⟩
  have resolvable := resolvable_of_getDependencies named freeze
  have resolvable' := resolvable_of_getDependencies named next
  rw [importVerType_freeze] at resolvable
  rw [importVerType_nextVersion] at resolvable'
  exact ⟨registrable_numberedDiamond,
    (resolution_returns_iff registrable_numberedDiamond diamondHal).mpr ⟨resolvable, resolvable'.toFollowable⟩⟩

/-- The second path to `common` compares `0.1.0.0` with itself, as a number. -/
theorem dotted_pin_raises :
    Registrable diamond ∧
      getDependencies willingHost (interfacesOf diamond) diamondHal diamondHal.nextVersion true =
        .error (.notNumber "0.1.0.0".toList) ∧
      ¬Returns (interfacesOf diamond) diamondHal := by
  refine ⟨registrable_diamond, by decide +kernel, fun returns => ?_⟩
  have resolvable := (returns.resolvable (named_interfacesOf diamond)).1
  let common : Call := ⟨false, diamondCommon "common/current".toList, "0.1.0.0".toList⟩
  -- both paths
  have through : ∀ name, name = "audio".toList ∨ name = "video".toList →
      Walk (Child (importedCalls (interfacesOf diamond) .latest)) ⟨true, diamondHal, diamondHal.nextVersion⟩
        [⟨false, pinsCommon name "0.1.0.0".toList, "1".toList⟩, common] common := by
    rintro name (rfl | rfl)
    · exact .cons ⟨_, rfl, by decide +kernel⟩ (.cons ⟨_, rfl, by decide +kernel⟩ (.nil _))
    · exact .cons ⟨_, rfl, by decide +kernel⟩ (.cons ⟨_, rfl, by decide +kernel⟩ (.nil _))
  have twice : AskedTwice (interfacesOf diamond) .latest diamondHal diamondHal.nextVersion common.name :=
    ⟨_, _, common, common, by decide +kernel, through "audio".toList (.inl rfl), through "video".toList (.inr rfl),
      ⟨rfl, rfl⟩, rfl, rfl⟩
  have asked : Asked (interfacesOf diamond) .latest diamondHal diamondHal.nextVersion common := by
    have reached := exists_walk_iff.mp ⟨_, through "audio".toList (.inl rfl)⟩
    exact (Relation.reflTransGen_iff_eq_or_transGen.mp reached).resolve_left (by decide +kernel)
  have number := resolvable.numbers common asked twice
  revert number
  decide +kernel

end BinderIdl.Interface
