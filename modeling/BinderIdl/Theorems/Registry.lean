import BinderIdl.Interface.Targets

/-! The map of library targets: which names are registered, and with which dependencies. -/

namespace BinderIdl.Interface
open Py

/-! ### Names of targets -/

theorem cppTarget_injective {name v w : Text} (h : cppTarget name v = cppTarget name w) : v = w :=
  List.append_cancel_left (List.append_cancel_right h)

/-! ### Registering never fails -/

/-- The dependencies of the current version of an interface. -/
def currentDeps (i : AidlInterface) : List Text :=
  (okOr Dict.empty (i.getImports i.nextVersion)).entries.map importTarget

theorem resolveLibDepsForCurrent_eq (i : AidlInterface) : resolveLibDepsForCurrent i = .ok (currentDeps i) := by
  obtain ⟨imports, found⟩ := i.getImports_nextVersion
  rw [resolveLibDepsForCurrent, currentDeps, found]
  rfl

/-- `registerInterface` as a plain function. -/
def register (targets : Targets) (e : Text × AidlInterface) : Targets :=
  (e.2.versionsWithInfo.entries.foldl (registerFrozen e.1) targets).set (cppTarget e.1 currentVersion) (currentDeps e.2)

theorem registerInterface_eq (targets : Targets) (e : Text × AidlInterface) :
    registerInterface targets e = .ok (register targets e) := by
  rw [registerInterface, resolveLibDepsForCurrent_eq]
  rfl

theorem libDeps_eq (allLoaded : List AidlInterface) :
    libDeps allLoaded =
      .ok (allLoaded.foldl registerSnapshot ((interfacesOf allLoaded).entries.foldl register Dict.empty)) := by
  rw [libDeps, foldlM_eq_ok registerInterface_eq]
  rfl

/-! ### One interface -/

/-- The dependencies a frozen version is registered with. -/
def frozenDeps (imports : List Text) : List Text := imports.map (· ++ "-cpp".toList)

section One
variable {targets : Targets} {e : Text × AidlInterface} {k : Text}

theorem get?_register_current : (register targets e).get? (cppTarget e.1 currentVersion) = some (currentDeps e.2) := by
  rw [register, Dict.get?_set, if_pos rfl]

theorem get?_register_frozen (targets : Targets) (e : Text × AidlInterface) {v : Text} (frozen : v ≠ currentVersion) :
    (register targets e).get? (cppTarget e.1 v) =
      ((e.2.versionsWithInfo.get? v).map frozenDeps).or (targets.get? (cppTarget e.1 v)) := by
  rw [register, Dict.get?_set, if_neg (fun h => frozen (cppTarget_injective h))]
  exact Dict.get?_foldl_copy (fun _ _ => cppTarget_injective) e.2.versionsWithInfo targets v

/-- The interface registers this name, for its current version or for a frozen one. -/
def Registers (e : Text × AidlInterface) (k : Text) : Prop :=
  k = cppTarget e.1 currentVersion ∨ ∃ v ∈ e.2.versionsWithInfo.keys, cppTarget e.1 v = k

theorem get?_register_other (other : ¬Registers e k) : (register targets e).get? k = targets.get? k := by
  rw [Registers, not_or] at other
  rw [register, Dict.get?_set, if_neg other.1]
  exact Dict.get?_foldl_copy_other (fun v member same => other.2 ⟨v, member, same⟩) targets

/-- A name that an interface registers gets its dependencies from it, whatever was there. -/
theorem get?_register_own (own : Registers e k) :
    ∃ deps, ∀ targets, (register targets e).get? k = some deps := by
  by_cases current : k = cppTarget e.1 currentVersion
  · subst current
    exact ⟨_, fun _ => get?_register_current⟩
  · obtain ⟨v, member, rfl⟩ := own.resolve_left current
    obtain ⟨imports, found⟩ := Dict.exists_get? member
    refine ⟨frozenDeps imports, fun targets => ?_⟩
    rw [get?_register_frozen targets e (fun h => current (by rw [h])), found]
    rfl

/-- What a snapshot directory registers under a name. -/
def snapshotDeps (snap : AidlInterface) (k : Text) : Option (List Text) :=
  if basename snap.interfaceRoot ≠ currentVersion ∧ k = cppTarget snap.baseName (basename snap.interfaceRoot) then
    some (snap.importVersions.entries.map fun e => cppTarget e.1 (e.2.getD currentVersion))
  else none

theorem get?_registerSnapshot (targets : Targets) (snap : AidlInterface) (k : Text) :
    (registerSnapshot targets snap).get? k = (targets.get? k).or (snapshotDeps snap k) := by
  simp only [registerSnapshot, snapshotDeps]
  by_cases label : basename snap.interfaceRoot = currentVersion
  · rw [if_pos (.inl label), if_neg (fun h => h.1 label), Option.or_none]
  · by_cases known : (targets.get? (cppTarget snap.baseName (basename snap.interfaceRoot))).isSome = true
    · rw [if_pos (.inr known)]
      by_cases same : k = cppTarget snap.baseName (basename snap.interfaceRoot)
      · rw [same, Option.or_of_isSome known]
      · rw [if_neg (fun h => same h.2), Option.or_none]
    · rw [if_neg (not_or.mpr ⟨label, known⟩), Dict.get?_set]
      by_cases same : k = cppTarget snap.baseName (basename snap.interfaceRoot)
      · rw [if_pos same, if_pos ⟨label, same⟩, same, Option.not_isSome_iff_eq_none.mp known]
        rfl
      · rw [if_neg same, if_neg (fun h => same h.2), Option.or_none]

end One

/-! ### The whole map -/

section All
variable {targets : Targets} {k : Text}

/-- Snapshots only add names: the first one of a name counts, and none that an interface has registered. -/
theorem get?_foldl_registerSnapshot (snaps : List AidlInterface) (targets : Targets) (k : Text) :
    (snaps.foldl registerSnapshot targets).get? k = (targets.get? k).or (snaps.findSome? (snapshotDeps · k)) := by
  induction snaps generalizing targets with
  | nil => rw [List.foldl_nil, List.findSome?_nil, Option.or_none]
  | cons snap snaps ih =>
    rw [List.foldl_cons, ih, get?_registerSnapshot, List.findSome?_cons]
    cases targets.get? k with
    | some deps => rfl
    | none => cases snapshotDeps snap k <;> rfl

theorem get?_foldl_registerSnapshot_of_isSome (snaps : List AidlInterface) (found : (targets.get? k).isSome) :
    (snaps.foldl registerSnapshot targets).get? k = targets.get? k := by
  rw [get?_foldl_registerSnapshot, Option.or_of_isSome found]

theorem get?_foldl_register_other {es : List (Text × AidlInterface)} (other : ∀ e ∈ es, ¬Registers e k)
    (targets : Targets) : (es.foldl register targets).get? k = targets.get? k := by
  induction es generalizing targets with
  | nil => rfl
  | cons e es ih =>
    rw [List.foldl_cons, ih (fun e' member => other e' (List.mem_cons_of_mem _ member)),
      get?_register_other (other e List.mem_cons_self)]

theorem get?_foldl_register_own (es : List (Text × AidlInterface)) (own : ∃ e ∈ es, Registers e k) :
    ∃ deps, ∀ targets, (es.foldl register targets).get? k = some deps := by
  induction es with
  | nil =>
    obtain ⟨e, member, -⟩ := own
    cases member
  | cons e es ih =>
    by_cases later : ∃ e ∈ es, Registers e k
    · obtain ⟨deps, found⟩ := ih later
      exact ⟨deps, fun targets => found _⟩
    · obtain ⟨e', member, here⟩ := own
      rcases List.mem_cons.mp member with rfl | member
      · obtain ⟨deps, found⟩ := get?_register_own here
        refine ⟨deps, fun targets => ?_⟩
        rw [List.foldl_cons, get?_foldl_register_other (fun e member h => later ⟨e, member, h⟩), found]
      · exact absurd ⟨e', member, here⟩ later

theorem mem_keys_libDeps {allLoaded : List AidlInterface} {name : Text} {i : AidlInterface}
    (libs : libDeps allLoaded = .ok targets) (known : (interfacesOf allLoaded).get? name = some i)
    (own : Registers (name, i) k) : k ∈ targets.keys := by
  rw [libDeps_eq] at libs
  cases libs
  obtain ⟨deps, found⟩ := get?_foldl_register_own _ ⟨(name, i), Dict.mem_entries_of_get? known, own⟩
  rw [Dict.mem_keys_iff, get?_foldl_registerSnapshot_of_isSome _ (by rw [found]; rfl), found]
  rfl

/-- The targets that the interfaces register. -/
def interfaceTargets (allLoaded : List AidlInterface) : Targets :=
  (interfacesOf allLoaded).entries.foldl register Dict.empty

theorem mem_keys_interfaceTargets {allLoaded : List AidlInterface} :
    k ∈ (interfaceTargets allLoaded).keys ↔
      ∃ name i, (interfacesOf allLoaded).get? name = some i ∧ Registers (name, i) k := by
  constructor
  · intro member
    by_contra none_
    rw [Dict.mem_keys_iff, interfaceTargets, get?_foldl_register_other fun e here own =>
      none_ ⟨e.1, e.2, Dict.get?_of_mem_entries here, own⟩] at member
    cases member
  · rintro ⟨name, i, known, own⟩
    obtain ⟨deps, found⟩ := get?_foldl_register_own _ ⟨(name, i), Dict.mem_entries_of_get? known, own⟩
    exact Dict.mem_keys_of_get? (found _)

/-- The dependencies under a name are those of an interface that registers it. -/
def RegistersWith (e : Text × AidlInterface) (k : Text) (deps : List Text) : Prop :=
  (k = cppTarget e.1 currentVersion ∧ resolveLibDepsForCurrent e.2 = .ok deps) ∨
    ∃ v imports, e.2.versionsWithInfo.get? v = some imports ∧ k = cppTarget e.1 v ∧ deps = frozenDeps imports

theorem registersWith_of_register {e : Text × AidlInterface} {deps : List Text}
    (found : (register targets e).get? k = some deps) : RegistersWith e k deps ∨ targets.get? k = some deps := by
  by_cases own : Registers e k
  · by_cases current : k = cppTarget e.1 currentVersion
    · subst current
      rw [get?_register_current] at found
      cases found
      exact .inl (.inl ⟨rfl, resolveLibDepsForCurrent_eq _⟩)
    · obtain ⟨v, member, rfl⟩ := own.resolve_left current
      obtain ⟨imports, listed⟩ := Dict.exists_get? member
      rw [get?_register_frozen _ _ (fun h => current (by rw [h])), listed] at found
      cases found
      exact .inl (.inr ⟨v, imports, listed, rfl, rfl⟩)
  · rw [get?_register_other own] at found
    exact .inr found

theorem registersWith_of_interfaceTargets {allLoaded : List AidlInterface} {deps : List Text}
    (found : (interfaceTargets allLoaded).get? k = some deps) :
    ∃ name i, (interfacesOf allLoaded).get? name = some i ∧ RegistersWith (name, i) k deps := by
  have cases_ : ∀ (es : List (Text × AidlInterface)) (targets : Targets),
      (es.foldl register targets).get? k = some deps →
        (∃ e ∈ es, RegistersWith e k deps) ∨ targets.get? k = some deps := by
    intro es
    induction es with
    | nil => exact fun targets found => .inr found
    | cons e es ih =>
      intro targets found
      rcases ih _ found with ⟨e', member, own⟩ | here
      · exact .inl ⟨e', List.mem_cons_of_mem _ member, own⟩
      · rcases registersWith_of_register here with own | before
        · exact .inl ⟨e, List.mem_cons_self, own⟩
        · exact .inr before
  rcases cases_ _ _ found with ⟨e, member, own⟩ | empty
  · exact ⟨e.1, e.2, Dict.get?_of_mem_entries member, own⟩
  · cases empty

/-- The last interface that registers this name. -/
def LastToRegister (interfaces : Dict Text AidlInterface) (k : Text) (e : Text × AidlInterface) : Prop :=
  ∃ before after, interfaces.entries = before ++ e :: after ∧ Registers e k ∧ ∀ e' ∈ after, ¬Registers e' k

theorem LastToRegister.registers {interfaces : Dict Text AidlInterface} {e : Text × AidlInterface}
    (last : LastToRegister interfaces k e) : Registers e k := by
  obtain ⟨_, _, -, own, -⟩ := last
  exact own

theorem exists_lastToRegister {interfaces : Dict Text AidlInterface} (own : ∃ e ∈ interfaces.entries, Registers e k) :
    ∃ e, LastToRegister interfaces k e := by
  have among : ∀ es : List (Text × AidlInterface), (∃ e ∈ es, Registers e k) →
      ∃ e before after, es = before ++ e :: after ∧ Registers e k ∧ ∀ e' ∈ after, ¬Registers e' k := by
    intro es
    induction es with
    | nil => exact fun ⟨e, member, _⟩ => absurd member List.not_mem_nil
    | cons e es ih =>
      intro own
      by_cases later : ∃ e ∈ es, Registers e k
      · obtain ⟨e', before, after, rfl, here, last⟩ := ih later
        exact ⟨e', e :: before, after, rfl, here, last⟩
      · obtain ⟨e', member, here⟩ := own
        rcases List.mem_cons.mp member with rfl | member
        · exact ⟨e', [], es, rfl, here, fun e member own => later ⟨e, member, own⟩⟩
        · exact absurd ⟨e', member, here⟩ later
  exact among _ own

theorem LastToRegister.unique {interfaces : Dict Text AidlInterface} {e e' : Text × AidlInterface}
    (last : LastToRegister interfaces k e) (last' : LastToRegister interfaces k e') : e = e' := by
  obtain ⟨before, after, split, own, behind⟩ := last
  obtain ⟨before', after', split', own', behind'⟩ := last'
  rcases List.append_eq_append_iff.mp (split.symm.trans split') with ⟨_ | ⟨x, between⟩, -, tail⟩ | ⟨_ | ⟨x, between⟩, -, tail⟩
  · exact (List.cons.inj tail).1
  · refine absurd own' (behind e' ?_)
    rw [(List.cons.inj tail).2]
    exact List.mem_append_right _ List.mem_cons_self
  · exact (List.cons.inj tail).1.symm
  · refine absurd own (behind' e ?_)
    rw [(List.cons.inj tail).2]
    exact List.mem_append_right _ List.mem_cons_self

/-- The dependencies under a name are those that the last interface to register it has for it. -/
theorem get?_libDeps_of_last {allLoaded : List AidlInterface} {e : Text × AidlInterface}
    (libs : libDeps allLoaded = .ok targets) (last : LastToRegister (interfacesOf allLoaded) k e) :
    targets.get? k = (register Dict.empty e).get? k := by
  obtain ⟨before, after, split, own, behind⟩ := last
  obtain ⟨deps, found⟩ := get?_register_own own
  rw [libDeps_eq, split, List.foldl_append, List.foldl_cons] at libs
  obtain rfl := Except.ok.inj libs
  have here := (get?_foldl_register_other behind (register (before.foldl register Dict.empty) e)).trans (found _)
  rw [get?_foldl_registerSnapshot_of_isSome _ (by rw [here]; rfl), here, found]

/-- Every dependency is a target. -/
def Closed (targets : Targets) : Prop := ∀ k deps, targets.get? k = some deps → ∀ dep ∈ deps, dep ∈ targets.keys

theorem unresolved?_eq_none_iff : unresolved? targets = none ↔ Closed targets := by
  rw [unresolved?, List.findSome?_eq_none_iff, Closed, Dict.forall_get?_iff]
  refine forall₂_congr fun e _ => ?_
  rw [Option.map_eq_none_iff, List.find?_eq_none]
  refine forall₂_congr fun dep _ => ?_
  rw [Dict.mem_keys_iff]
  cases targets.get? dep <;> simp

/-- The errors of `topological_sort`. -/
def ToolError.ofSort : ToolError → Prop
  | .noTarget _ | .cycle => True
  | _ => False

theorem topologicalSort_raises (targets : Targets) : RaisesOnly ToolError.ofSort (topologicalSort targets) := by
  have degree : ∀ n indegree dep, RaisesOnly ToolError.ofSort (addDegree n indegree dep) := by
    intro n indegree dep
    rw [addDegree]
    cases indegree.get? dep with
    | none => exact raisesOnly_error trivial
    | some k => exact raisesOnly_ok _
  have drains : ∀ rounds indegree queue order,
      RaisesOnly ToolError.ofSort (drain targets rounds indegree queue order) := by
    intro rounds
    induction rounds with
    | zero => exact fun _ _ _ => raisesOnly_ok _
    | succ rounds ih =>
      intro indegree queue order
      cases queue with
      | nil => exact raisesOnly_ok _
      | cons lib queue =>
        exact (RaisesOnly.foldlM (fun s dep => (degree _ _ _).bind fun _ => raisesOnly_ok _) _ _).bind
          fun _ => ih _ _ _
  refine (RaisesOnly.foldlM (degree 1) _ _).bind fun indegree => (drains _ _ _ _).bind fun order => ?_
  by_cases all : order.length = targets.keys.length
  · rw [if_pos all]
    exact raisesOnly_ok _
  · rw [if_neg all]
    exact raisesOnly_error trivial

/-- The error of an unresolved target is raised exactly when the map is not closed. -/
theorem generate_unresolved_iff {allLoaded : List AidlInterface} (libs : libDeps allLoaded = .ok targets) :
    (∀ dep consumer, generateLibrariesDependencies allLoaded ≠ .error (.unresolvedTarget dep consumer)) ↔
      Closed targets := by
  rw [← unresolved?_eq_none_iff, generateLibrariesDependencies, libs]
  simp only [ok_bind]
  cases first : unresolved? targets with
  | some e => exact iff_of_false (fun h => h e.1 e.2 rfl) (fun h => by cases h)
  | none =>
    refine iff_of_true (fun dep consumer raised => ?_) rfl
    exact (topologicalSort_raises targets).bind (fun libs => raisesOnly_ok _) _ raised

end All

end BinderIdl.Interface
