import BinderIdl.Interface.Targets

/-! Loading the definition files that the walks find: the order in which they find them does not matter, `current` wins, and
    nothing is lost. -/

namespace BinderIdl.Interface
open Py

variable {load : Text → Except ToolError AidlInterface} {locations locations' : List Text}

theorem locationKey_injective {a b : Text} (same : locationKey a = locationKey b) : a = b :=
  (Prod.mk.inj (Prod.mk.inj same).2).2

theorem sortLocations_pairwise (locations : List Text) :
    (sortLocations locations).Pairwise fun a b => locationKey a ≤ locationKey b := by
  have total : Std.Total fun a b : Text => locationKey a ≤ locationKey b := ⟨fun a b => le_total _ _⟩
  have trans : IsTrans Text fun a b => locationKey a ≤ locationKey b := ⟨fun a b c => le_trans⟩
  exact List.pairwise_insertionSort _ _

theorem perm_sortLocations (locations : List Text) : (sortLocations locations).Perm locations := List.perm_insertionSort _ _

/-- The sort key holds the whole path, so the sorted list is the same for every order of the walk. -/
theorem sortLocations_eq (perm : locations.Perm locations') : sortLocations locations = sortLocations locations' := by
  have antisymm : ∀ a b, locationKey a ≤ locationKey b → locationKey b ≤ locationKey a → a = b :=
    fun a b below above => locationKey_injective (le_antisymm below above)
  exact ((perm_sortLocations _).trans (perm.trans (perm_sortLocations _).symm)).eq_of_pairwise
    (fun a b _ _ => antisymm a b) (sortLocations_pairwise _) (sortLocations_pairwise _)

/-- A path in a directory `current` sorts behind every other. -/
theorem current_of_le {a b : Text} (le : locationKey a ≤ locationKey b) (current : basename (dirname a) = currentVersion) :
    basename (dirname b) = currentVersion := by
  by_contra other
  rw [locationKey, locationKey, if_pos current, if_neg other] at le
  rcases Prod.Lex.toLex_le_toLex.mp le with lt | ⟨same, -⟩
  · exact Nat.not_lt_zero 1 lt
  · exact Nat.one_ne_zero same

theorem loadInterfaces_eq_ok {loaded : Loaded} :
    loadInterfaces load locations = .ok loaded ↔
      List.Forall₂ (fun loc i => load (dirname loc) = .ok i) (sortLocations locations) loaded.allLoaded ∧
        loaded.interfaces = interfacesOf loaded.allLoaded := by
  rw [loadInterfaces, bind_eq_ok]
  constructor
  · rintro ⟨all, read, same⟩
    cases same
    exact ⟨mapM_eq_ok_iff_forall₂.mp read, rfl⟩
  · rintro ⟨read, same⟩
    refine ⟨loaded.allLoaded, mapM_eq_ok_iff_forall₂.mpr read, ?_⟩
    rw [← same]
    rfl

/-- Some interface of that name comes from a directory `current`, and the dictionary holds such a one. -/
theorem loadInterfaces_current {loaded : Loaded} (done : loadInterfaces load locations = .ok loaded) {loc : Text}
    (member : loc ∈ locations) (current : basename (dirname loc) = currentVersion) {i : AidlInterface}
    (read : load (dirname loc) = .ok i) :
    ∃ loc' ∈ locations, basename (dirname loc') = currentVersion ∧
      ∃ j, load (dirname loc') = .ok j ∧ loaded.interfaces.get? i.baseName = some j := by
  obtain ⟨all, interfaces⟩ := loadInterfaces_eq_ok.mp done
  obtain ⟨ends, values⟩ := (mapM_eq_ok i).mp (mapM_eq_ok_iff_forall₂.mpr all)
  have among := (perm_sortLocations locations).mem_iff.mpr member
  have pairs : loaded.interfaces =
      Dict.ofPairs ((sortLocations locations).map fun loc => ((okOr i (load (dirname loc))).baseName, okOr i (load (dirname loc)))) := by
    rw [interfaces, interfacesOf, values, List.map_map]
    rfl
  have known : i.baseName ∈ loaded.interfaces.keys := by
    rw [pairs, Dict.mem_keys_ofPairs, List.map_map]
    refine List.mem_map.mpr ⟨loc, among, ?_⟩
    simp only [Function.comp_apply, read, okOr_ok]
  obtain ⟨j, found⟩ := Dict.exists_get? known
  obtain ⟨loc', among', pair, latest⟩ := Dict.get?_ofPairs_last (sortLocations_pairwise locations) (pairs ▸ found)
  obtain ⟨j', read'⟩ := ends loc' among'
  simp only [read', okOr_ok] at pair
  obtain ⟨-, rfl⟩ := Prod.mk.inj pair
  refine ⟨loc', (perm_sortLocations locations).mem_iff.mp among', ?_, j', read', found⟩
  rcases latest loc among (by simp only [read, okOr_ok]) with rfl | le
  · exact current
  · exact current_of_le le current

/-- Loading ends exactly when each file that was found can be loaded. -/
theorem loadInterfaces_ends_iff :
    (∃ loaded, loadInterfaces load locations = .ok loaded) ↔ ∀ loc ∈ locations, ∃ i, load (dirname loc) = .ok i := by
  constructor
  · rintro ⟨loaded, done⟩ loc member
    obtain ⟨all, -⟩ := loadInterfaces_eq_ok.mp done
    obtain ⟨i, -, read⟩ := exists_right_of_mem all ((perm_sortLocations locations).mem_iff.mpr member)
    exact ⟨i, read⟩
  · intro each
    obtain ⟨all, read⟩ := exists_forall₂ fun loc member => each loc ((perm_sortLocations locations).mem_iff.mp member)
    exact ⟨⟨interfacesOf all, all⟩, loadInterfaces_eq_ok.mpr ⟨read, rfl⟩⟩

/-- Whatever the order in which the definition files are found, the same is loaded, in the same order, and the same
    `dependencies.txt` is written; loading ends when each of them can be loaded, an interface from a directory `current`
    wins, and each file is loaded as often as it was found. -/
theorem loadInterfaces_perm (perm : locations.Perm locations') :
    loadInterfaces load locations = loadInterfaces load locations' ∧
      loadWithDependencies load locations = loadWithDependencies load locations' ∧
      ((∃ loaded, loadInterfaces load locations = .ok loaded) ↔ ∀ loc ∈ locations, ∃ i, load (dirname loc) = .ok i) ∧
      ∀ loaded, loadInterfaces load locations = .ok loaded →
        (∀ loc ∈ locations, basename (dirname loc) = currentVersion → ∀ i, load (dirname loc) = .ok i →
          ∃ loc' ∈ locations, basename (dirname loc') = currentVersion ∧
            ∃ j, load (dirname loc') = .ok j ∧ loaded.interfaces.get? i.baseName = some j) ∧
        ∃ found, List.Forall₂ (fun loc i => load (dirname loc) = .ok i) locations found ∧ found.Perm loaded.allLoaded := by
  have same : loadInterfaces load locations = loadInterfaces load locations' := by
    rw [loadInterfaces, sortLocations_eq perm, loadInterfaces]
  refine ⟨same, by rw [loadWithDependencies, same, loadWithDependencies], loadInterfaces_ends_iff, fun loaded done => ⟨?_, ?_⟩⟩
  · exact fun loc member current i read => loadInterfaces_current done member current read
  · obtain ⟨all, -⟩ := loadInterfaces_eq_ok.mp done
    obtain ⟨found, each, back⟩ := List.perm_comp_forall₂ (perm_sortLocations locations).symm all
    exact ⟨found, each, back⟩

/-- A module with a snapshot of a release and the directory `current`. -/
def commonAt (dir : Text) : AidlInterface :=
  ⟨"common".toList, "common/".toList ++ dir, "central".toList, [], Dict.empty, none, 0, Dict.empty⟩

/-- They are found in another order, and one of them twice, under two roots. -/
theorem loadInterfaces_perm_snapshot :
    let load := fun root => loadInterface root ⟨"common".toList, [], none, none, none, []⟩
    let current := "common/current/interface.yaml".toList
    let snapshot := "common/1.0.0/interface.yaml".toList
    let loaded : Loaded := ⟨Dict.ofPairs [("common".toList, commonAt currentVersion)],
      [commonAt "1.0.0".toList, commonAt currentVersion, commonAt currentVersion]⟩
    loadInterfaces load [current, snapshot, current] = .ok loaded ∧
      loadInterfaces load [snapshot, current, current] = .ok loaded ∧
      ∃ i, loaded.interfaces.get? "common".toList = some i ∧ basename i.interfaceRoot = currentVersion := by
  intro load current snapshot loaded
  have done : loadInterfaces load [current, snapshot, current] = .ok loaded := by decide +kernel
  obtain ⟨same, -, -, chosen⟩ := @loadInterfaces_perm load [current, snapshot, current] [snapshot, current, current]
    (List.Perm.swap _ _ _)
  obtain ⟨wins, -⟩ := chosen loaded done
  obtain ⟨loc, -, root, i, read, found⟩ := wins current List.mem_cons_self (by decide) (commonAt currentVersion) (by decide +kernel)
  obtain ⟨_, -, rfl⟩ := loadInterface_eq_ok read
  exact ⟨done, same ▸ done, _, found, root⟩

end BinderIdl.Interface
