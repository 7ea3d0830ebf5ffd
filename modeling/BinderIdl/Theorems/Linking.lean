import BinderIdl.Interface.Dependencies
import BinderIdl.Theorems.Registry

/-! The import versions that code is generated against, beside those that it is linked with. -/

namespace BinderIdl.Interface
open Py

variable {host : Host} {interfaces : Dict Text AidlInterface}

/-- Every interface is found under its own name. -/
def Named (interfaces : Dict Text AidlInterface) : Prop := ∀ k i, interfaces.get? k = some i → i.baseName = k

theorem named_interfacesOf (allLoaded : List AidlInterface) : Named (interfacesOf allLoaded) :=
  fun _ _ found => (mem_of_interfacesOf found).2

theorem lookupInterface_eq_ok {name : Text} {i : AidlInterface} :
    lookupInterface interfaces name = .ok i ↔ interfaces.get? name = some i := by
  rw [lookupInterface]
  cases interfaces.get? name with
  | none => exact ⟨fun h => (by cases h), fun h => by cases h⟩
  | some j => exact ⟨fun h => congrArg some (Except.ok.inj h), fun h => congrArg Except.ok (Option.some.inj h)⟩

/-! ### One dependency -/

/-- The tool finds and preprocesses every version. -/
structure Host.Works (host : Host) : Prop where
  dirExists : ∀ i v, host.dirExists i v = true
  preprocesses : ∀ i v deps, host.preprocesses i v deps = true

theorem aidlGenPreprocessed_ok (works : host.Works) (i : AidlInterface) (version : Text) (deps : Dependencies) :
    aidlGenPreprocessed host i version deps = .ok () := by
  rw [aidlGenPreprocessed, works.dirExists, works.preprocesses]
  rfl

theorem addDependency_eq_ok {deps deps' : Dependencies} {i : AidlInterface} {version : Text}
    (added : addDependency host deps i version = .ok deps') :
    (deps' = deps ∧ (deps.get? i.baseName).isSome) ∨
      ∀ k, deps'.get? k = if k = i.baseName then some ⟨version, versionDir i version⟩ else deps.get? k := by
  rw [addDependency] at added
  cases old : deps.get? i.baseName with
  | none =>
    rw [old] at added
    obtain ⟨_, -, done⟩ := bind_eq_ok.mp added
    cases done
    exact .inr fun k => Dict.get?_set _ _ _ _
  | some d =>
    rw [old] at added
    obtain ⟨n, -, added⟩ := bind_eq_ok.mp added
    obtain ⟨m, -, added⟩ := bind_eq_ok.mp added
    by_cases newer : n ≥ m
    · rw [if_pos newer] at added
      cases added
      exact .inl ⟨rfl, rfl⟩
    · rw [if_neg newer] at added
      obtain ⟨_, -, done⟩ := bind_eq_ok.mp added
      cases done
      refine .inr fun k => ?_
      rw [Dict.get?_set, Dict.get?_erase]
      by_cases same : k = i.baseName
      · rw [if_pos same, if_pos same]
      · rw [if_neg same, if_neg same, if_neg same]

theorem addDependency_keys {deps deps' : Dependencies} {i : AidlInterface} {version : Text}
    (added : addDependency host deps i version = .ok deps') :
    i.baseName ∈ deps'.keys ∧ ∀ k ∈ deps.keys, k ∈ deps'.keys := by
  rcases addDependency_eq_ok added with ⟨rfl, known⟩ | set
  · exact ⟨Dict.mem_keys_iff.mpr known, fun k member => member⟩
  · refine ⟨Dict.mem_keys_of_get? ((set _).trans (if_pos rfl)), fun k member => ?_⟩
    rw [Dict.mem_keys_iff, set]
    by_cases same : k = i.baseName
    · rw [if_pos same]
      rfl
    · rw [if_neg same]
      exact Dict.mem_keys_iff.mp member

/-! ### Resolving at the unfrozen versions -/

/-- Every dependency is taken at the next version of its interface. -/
def AllNext (interfaces : Dict Text AidlInterface) (deps : Dependencies) : Prop :=
  ∀ k d, deps.get? k = some d → ∃ i, interfaces.get? k = some i ∧ d.version = i.nextVersion

theorem allNext_empty : AllNext interfaces Dict.empty := fun _ _ h => by cases h

theorem AllNext.addDependency {deps deps' : Dependencies} {i : AidlInterface} (all : AllNext interfaces deps)
    (known : interfaces.get? i.baseName = some i) (added : addDependency host deps i i.nextVersion = .ok deps') :
    AllNext interfaces deps' := by
  rcases addDependency_eq_ok added with ⟨rfl, -⟩ | set
  · exact all
  · intro k d found
    rw [set] at found
    by_cases same : k = i.baseName
    · rw [if_pos same] at found
      cases found
      exact ⟨i, same ▸ known, rfl⟩
    · rw [if_neg same] at found
      exact all k d found

/-- What a call of `process_imports` does to the dependencies found before it. -/
structure Resolved (interfaces : Dict Text AidlInterface) (deps deps' : Dependencies) : Prop where
  keys : ∀ k ∈ deps.keys, k ∈ deps'.keys
  allNext : AllNext interfaces deps → AllNext interfaces deps'

theorem Resolved.trans {a b c : Dependencies} (ab : Resolved interfaces a b) (bc : Resolved interfaces b c) :
    Resolved interfaces a c :=
  ⟨fun k member => bc.keys k (ab.keys k member), fun all => bc.allNext (ab.allNext all)⟩

theorem resolved_round {depth : ℕ} {e : Text × Text} {deps deps' : Dependencies} (named : Named interfaces)
    (calls : ∀ i deps deps', interfaces.get? i.baseName = some i →
      processImports host interfaces .next depth false i i.nextVersion deps = .ok deps' →
        i.baseName ∈ deps'.keys ∧ Resolved interfaces deps deps')
    (round : (do
      let imp ← lookupInterface interfaces e.1
      processImports host interfaces .next depth false imp (versionToProcess .next imp e.2) deps) = .ok deps') :
    e.1 ∈ deps'.keys ∧ Resolved interfaces deps deps' := by
  obtain ⟨imp, found, call⟩ := bind_eq_ok.mp round
  rw [lookupInterface_eq_ok] at found
  have name := named _ _ found
  have result := calls imp deps deps' (name ▸ found) call
  exact name ▸ result

/-- By induction on the depth of the calls: an import ends up among the dependencies, at its next version. -/
theorem processImports_next (host : Host) (named : Named interfaces) (depth : ℕ) :
    ∀ i deps deps', interfaces.get? i.baseName = some i →
      processImports host interfaces .next depth false i i.nextVersion deps = .ok deps' →
        i.baseName ∈ deps'.keys ∧ Resolved interfaces deps deps' := by
  induction depth with
  | zero =>
    intro i deps deps' _ call
    cases call
  | succ depth ih =>
    intro i deps deps' known call
    obtain ⟨imports, -, call⟩ := bind_eq_ok.mp call
    obtain ⟨middle, loop, added⟩ := bind_eq_ok.mp call
    have before : Resolved interfaces deps middle :=
      foldlM_invariant (p := Resolved interfaces deps)
        (fun s e t _ start round => start.trans (resolved_round named ih round).2) ⟨fun _ member => member, id⟩ loop
    have keys := addDependency_keys added
    exact ⟨keys.1, before.trans ⟨keys.2, fun all => all.addDependency known added⟩⟩

theorem importVerType_nextVersion (i : AidlInterface) : importVerType i i.nextVersion false = .next := by
  rw [importVerType, if_pos rfl]
  rfl

/-- Every direct import is resolved, at its next version whatever its pin says. -/
theorem getDependencies_next (named : Named interfaces) {i : AidlInterface} {deps : Dependencies}
    (resolved : getDependencies host interfaces i i.nextVersion false = .ok deps) :
    ∃ imports, i.getImports i.nextVersion = .ok imports ∧ ∀ imp pin, imports.get? imp = some pin →
      ∃ j dep, interfaces.get? imp = some j ∧ deps.get? imp = some dep ∧ dep.version = j.nextVersion := by
  rw [getDependencies, importVerType_nextVersion, if_neg (fun h => by cases h.1)] at resolved
  cases limit : host.recursionLimit with
  | zero =>
    rw [limit] at resolved
    cases resolved
  | succ depth =>
    rw [limit] at resolved
    obtain ⟨imports, found, resolved⟩ := bind_eq_ok.mp resolved
    obtain ⟨middle, loop, done⟩ := bind_eq_ok.mp resolved
    cases done
    refine ⟨imports, found, fun imp pin member => ?_⟩
    have calls := processImports_next host named depth
    have nextOnly : AllNext interfaces deps :=
      foldlM_invariant (fun s e t _ start round => (resolved_round named calls round).2.allNext start)
        allNext_empty loop
    obtain ⟨s, u, rest, round, loop', -⟩ := foldlM_round (Dict.mem_entries_of_get? member) loop
    have kept : imp ∈ deps.keys :=
      foldlM_invariant (p := fun s : Dependencies => imp ∈ s.keys)
        (fun s e t _ start round => (resolved_round named calls round).2.keys _ start)
        (resolved_round named calls round).1 loop'
    obtain ⟨dep, entry⟩ := Dict.exists_get? kept
    obtain ⟨j, known, version⟩ := nextOnly imp dep entry
    exact ⟨j, dep, known, entry, version⟩

/-! ### Against the targets -/

/-- The version a target names for an import with this pin. -/
def linkVersion (pin : Text) : Text := if pin = importVersionUnpinned then currentVersion else pin

theorem importTarget_eq (e : Text × Text) : importTarget e = cppTarget e.1 (linkVersion e.2) := by
  rw [importTarget, linkVersion]
  by_cases unpinned : e.2 = importVersionUnpinned
  · rw [if_pos unpinned, if_pos unpinned]
  · rw [if_neg unpinned, if_neg unpinned]

/-- A target names the import at the version that its sources are generated against; `current` stands for the next
    version. -/
def LinkedAsGenerated (interfaces : Dict Text AidlInterface) (deps : Dependencies) (e : Text × Text) (target : Text) :
    Prop :=
  ∃ v j dep, target = cppTarget e.1 v ∧ interfaces.get? e.1 = some j ∧ deps.get? e.1 = some dep ∧
    dep.version = if v = currentVersion then j.nextVersion else v

/-- The version that the producer of an import develops: `current`, or the next one by its name. -/
def IsDeveloped (interfaces : Dict Text AidlInterface) (imp v : Text) : Prop :=
  ∃ j, interfaces.get? imp = some j ∧ (v = currentVersion ∨ v = j.nextVersion)

/-- The target of the current version stands for the imports of its interface, unpinned or pinned to what is developed.
    Where another interface has a version whose target has the same name, what that one records counts. -/
inductive LinksDeveloped (interfaces : Dict Text AidlInterface) (name : Text) (imports : Dict Text Text) : Prop where
  | own {i : AidlInterface} (last : LastToRegister interfaces (cppTarget name currentVersion) (name, i))
      (pins : ∀ imp pin, imports.get? imp = some pin → IsDeveloped interfaces imp (linkVersion pin))
  | taken {name' version : Text} {i : AidlInterface} {recorded : List Text} (other : name' ≠ name)
      (last : LastToRegister interfaces (cppTarget name currentVersion) (name', i))
      (same : cppTarget name' version = cppTarget name currentVersion)
      (records : i.versionsWithInfo.get? version = some recorded)
      (names : List.Forall₂ (fun e target => ∃ v, target = cppTarget e.1 v ∧ IsDeveloped interfaces e.1 v) imports.entries
        (frozenDeps recorded))

section Links
variable {allLoaded : List AidlInterface} {name : Text} {i : AidlInterface} {imports : Dict Text Text} {targets : Targets}

theorem currentDeps_eq (found : i.getImports i.nextVersion = .ok imports) :
    currentDeps i = imports.entries.map importTarget := by
  rw [currentDeps, found, okOr_ok]

theorem cppTarget_current_injective {name name' : Text} (same : cppTarget name currentVersion = cppTarget name' currentVersion) :
    name = name' := by
  rw [cppTarget, cppTarget] at same
  exact List.append_cancel_right (List.append_cancel_right (List.append_cancel_right same))

/-- The targets that are listed name the versions that are developed exactly when the condition on the inputs holds. -/
theorem linksDeveloped_iff (known : (interfacesOf allLoaded).get? name = some i)
    (found : i.getImports i.nextVersion = .ok imports) (libs : libDeps allLoaded = .ok targets) :
    ∃ listed, targets.get? (cppTarget name currentVersion) = some listed ∧
      (LastToRegister (interfacesOf allLoaded) (cppTarget name currentVersion) (name, i) →
        listed = imports.entries.map importTarget) ∧
      (List.Forall₂ (fun e target => ∃ v, target = cppTarget e.1 v ∧ IsDeveloped (interfacesOf allLoaded) e.1 v)
          imports.entries listed ↔ LinksDeveloped (interfacesOf allLoaded) name imports) := by
  have some_ : ∃ e ∈ (interfacesOf allLoaded).entries, Registers e (cppTarget name currentVersion) :=
    ⟨(name, i), Dict.mem_entries_of_get? known, .inl rfl⟩
  obtain ⟨⟨name', j⟩, last⟩ := exists_lastToRegister some_
  by_cases own : name' = name
  · subst own
    obtain rfl : j = i := by
      obtain ⟨before, after, split, -⟩ := last
      have member : (name', j) ∈ (interfacesOf allLoaded).entries := by
        rw [split]
        exact List.mem_append_right _ List.mem_cons_self
      exact Option.some.inj ((Dict.get?_of_mem_entries member).symm.trans known)
    refine ⟨_, (get?_libDeps_of_last libs last).trans get?_register_current, fun _ => currentDeps_eq found, ?_⟩
    rw [currentDeps_eq found, List.forall₂_map_right_iff, List.forall₂_same]
    constructor
    · refine fun names => .own last fun imp pin member => ?_
      obtain ⟨v, same, developed⟩ := names _ (Dict.mem_entries_of_get? member)
      rw [importTarget_eq] at same
      rwa [cppTarget_injective same]
    · rintro (⟨-, pins⟩ | ⟨other, last', -⟩)
      · exact fun e member => ⟨_, importTarget_eq e, pins e.1 e.2 (Dict.get?_of_mem_entries member)⟩
      · exact absurd (congrArg Prod.fst (last'.unique last)) other
  · have listed : ∀ {version recorded}, cppTarget name' version = cppTarget name currentVersion →
        j.versionsWithInfo.get? version = some recorded →
          targets.get? (cppTarget name currentVersion) = some (frozenDeps recorded) := by
      intro version recorded same records
      have older : version ≠ currentVersion := by
        rintro rfl
        exact own (cppTarget_current_injective same)
      rw [get?_libDeps_of_last libs last, ← same, get?_register_frozen _ (name', j) older, records]
      rfl
    have registers : Registers (name', j) (cppTarget name currentVersion) := last.registers
    obtain ⟨version, member, same⟩ := registers.resolve_left fun same => own (cppTarget_current_injective same).symm
    obtain ⟨recorded, records⟩ := Dict.exists_get? member
    refine ⟨_, listed same records, fun mine => absurd (congrArg Prod.fst (last.unique mine)) own, ?_⟩
    constructor
    · exact .taken own last same records
    · rintro (⟨mine, -⟩ | ⟨-, last', same', records', names⟩)
      · exact absurd (congrArg Prod.fst (last.unique mine)) own
      · obtain ⟨rfl, rfl⟩ := Prod.mk.inj (last.unique last')
        rwa [Option.some.inj ((listed same records).symm.trans (listed same' records'))]

theorem linkedAsGenerated_iff {interfaces : Dict Text AidlInterface} {deps : Dependencies} {e : Text × Text} {target : Text}
    {j : AidlInterface} {dep : Dependency} (known : interfaces.get? e.1 = some j) (entry : deps.get? e.1 = some dep)
    (next : dep.version = j.nextVersion) :
    LinkedAsGenerated interfaces deps e target ↔ ∃ v, target = cppTarget e.1 v ∧ IsDeveloped interfaces e.1 v := by
  refine exists_congr fun v => ?_
  constructor
  · rintro ⟨j', dep', names, known', entry', version⟩
    obtain rfl := Option.some.inj (known.symm.trans known')
    obtain rfl := Option.some.inj (entry.symm.trans entry')
    refine ⟨names, j, known, ?_⟩
    by_cases current : v = currentVersion
    · exact .inl current
    · rw [if_neg current, next] at version
      exact .inr version.symm
  · rintro ⟨names, j', known', developed⟩
    obtain rfl := Option.some.inj (known.symm.trans known')
    refine ⟨j, dep, names, known, entry, ?_⟩
    by_cases current : v = currentVersion
    · rw [if_pos current, next]
    · rw [if_neg current, next, developed.resolve_left current]

/-- Sources are generated against the versions that the target of the current version is linked with exactly when these
    are the ones in development: no import is pinned to another, and no other interface takes the name of the target. -/
theorem generated_as_linked_iff {deps : Dependencies} (known : (interfacesOf allLoaded).get? name = some i)
    (resolved : getDependencies host (interfacesOf allLoaded) i i.nextVersion false = .ok deps)
    (libs : libDeps allLoaded = .ok targets) :
    ∃ imports listed, i.getImports i.nextVersion = .ok imports ∧
      targets.get? (cppTarget name currentVersion) = some listed ∧
      (List.Forall₂ (LinkedAsGenerated (interfacesOf allLoaded) deps) imports.entries listed ↔
        LinksDeveloped (interfacesOf allLoaded) name imports) ∧
      (LastToRegister (interfacesOf allLoaded) (cppTarget name currentVersion) (name, i) →
        listed = imports.entries.map importTarget ∧ ∀ imp pin, imports.get? imp = some pin →
          (LinkedAsGenerated (interfacesOf allLoaded) deps (imp, pin) (importTarget (imp, pin)) ↔
            IsDeveloped (interfacesOf allLoaded) imp (linkVersion pin))) := by
  obtain ⟨imports, found, versions⟩ := getDependencies_next (named_interfacesOf allLoaded) resolved
  obtain ⟨listed, entry, own, developed⟩ := linksDeveloped_iff known found libs
  have each : ∀ imp pin, imports.get? imp = some pin → ∀ target,
      LinkedAsGenerated (interfacesOf allLoaded) deps (imp, pin) target ↔
        ∃ v, target = cppTarget imp v ∧ IsDeveloped (interfacesOf allLoaded) imp v := by
    intro imp pin member target
    obtain ⟨j, dep, loaded, taken, next⟩ := versions imp pin member
    exact linkedAsGenerated_iff loaded taken next
  refine ⟨imports, listed, found, entry, ?_, fun last => ⟨own last, fun imp pin member => ?_⟩⟩
  · rw [← developed, List.forall₂_iff_get, List.forall₂_iff_get]
    refine and_congr_right fun _ => forall₃_congr fun n inside _ => ?_
    exact each _ _ (Dict.get?_of_mem_entries (List.get_mem _ ⟨n, inside⟩)) _
  · rw [each imp pin member, importTarget_eq]
    constructor
    · rintro ⟨v, same, developed⟩
      rwa [cppTarget_injective same]
    · exact fun developed => ⟨_, rfl, developed⟩

end Links

/-- A producer with one frozen version. -/
def commonInterface : AidlInterface :=
  ⟨"common".toList, "common/current".toList, "central".toList, [], Dict.empty, none, 1,
    Dict.ofPairs [("1".toList, [])]⟩

/-- A consumer that imports it with this pin. -/
def videoInterface (pin : Option Text) : AidlInterface :=
  ⟨"video".toList, "video/current".toList, "central".toList, ["common".toList],
    Dict.ofPairs [("common".toList, pin)], none, 0, Dict.empty⟩

def commonAtTwo : Dependencies := Dict.ofPairs [("common".toList, ⟨"2".toList, currentVersion⟩)]

/-- The targets of both, with this one for the import. -/
def videoTargets (common : Text) : Targets :=
  Dict.ofPairs [("common-v1-cpp".toList, []), ("common-vcurrent-cpp".toList, []), ("video-vcurrent-cpp".toList, [common])]

theorem generated_as_linked_unpinned :
    getDependencies willingHost (interfacesOf [commonInterface, videoInterface none]) (videoInterface none)
        (videoInterface none).nextVersion false = .ok commonAtTwo ∧
      libDeps [commonInterface, videoInterface none] = .ok (videoTargets "common-vcurrent-cpp".toList) ∧
      List.Forall₂ (LinkedAsGenerated (interfacesOf [commonInterface, videoInterface none]) commonAtTwo)
        [("common".toList, importVersionUnpinned)] ["common-vcurrent-cpp".toList] := by
  have resolved : getDependencies willingHost (interfacesOf [commonInterface, videoInterface none])
      (videoInterface none) (videoInterface none).nextVersion false = .ok commonAtTwo := by decide +kernel
  have libs : libDeps [commonInterface, videoInterface none] = .ok (videoTargets "common-vcurrent-cpp".toList) := by
    decide +kernel
  have known : (interfacesOf [commonInterface, videoInterface none]).get? "video".toList = some (videoInterface none) := by
    decide +kernel
  obtain ⟨imports, listed, found, entry, linked, -⟩ := generated_as_linked_iff known resolved libs
  obtain rfl : imports = Dict.ofPairs [("common".toList, importVersionUnpinned)] :=
    Except.ok.inj (found.symm.trans (by decide +kernel))
  obtain rfl : listed = ["common-vcurrent-cpp".toList] := Option.some.inj (entry.symm.trans (by decide +kernel))
  have last : LastToRegister (interfacesOf [commonInterface, videoInterface none]) (cppTarget "video".toList currentVersion)
      ("video".toList, videoInterface none) :=
    ⟨[("common".toList, commonInterface)], [], by decide +kernel, .inl rfl, fun _ member => absurd member List.not_mem_nil⟩
  refine ⟨resolved, libs, linked.mpr (.own last fun imp pin member => ?_)⟩
  obtain ⟨rfl, rfl⟩ := Prod.mk.inj (List.mem_singleton.mp (Dict.mem_entries_of_get? member))
  exact ⟨commonInterface, by decide +kernel, .inl rfl⟩

/-- `video` pins `common@1` and is linked with `common-v1-cpp`, but its sources are generated against version 2,
    which is in development. -/
theorem pinned_import_generated_at_next :
    libDeps [commonInterface, videoInterface (some "1".toList)] = .ok (videoTargets "common-v1-cpp".toList) ∧
      getDependencies willingHost (interfacesOf [commonInterface, videoInterface (some "1".toList)])
        (videoInterface (some "1".toList)) (videoInterface (some "1".toList)).nextVersion false = .ok commonAtTwo ∧
      ¬List.Forall₂ (LinkedAsGenerated (interfacesOf [commonInterface, videoInterface (some "1".toList)]) commonAtTwo)
        [("common".toList, "1".toList)] ["common-v1-cpp".toList] := by
  refine ⟨by decide +kernel, by decide +kernel, fun all => ?_⟩
  obtain ⟨v, j, dep, names, -, entry, version⟩ := (List.forall₂_cons.mp all).1
  obtain rfl : v = "1".toList := cppTarget_injective (names.symm.trans (by decide +kernel))
  obtain rfl : dep = ⟨"2".toList, currentVersion⟩ := Option.some.inj (entry.symm.trans (by decide +kernel))
  rw [if_neg (by decide)] at version
  exact absurd version (by decide +kernel)

end BinderIdl.Interface
