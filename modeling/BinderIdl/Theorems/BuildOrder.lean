import BinderIdl.Graph.Cycles
import BinderIdl.Theorems.Registry

/-! The order in which targets are written: `topological_sort` on a closed map finds an order exactly when there is
    no cycle, and then every dependency comes first. -/

namespace BinderIdl.Interface
open Py

variable {targets : Targets}

/-- The dependencies of a target. -/
def depsOf (targets : Targets) (lib : Text) : List Text := (targets.get? lib).getD []

/-- `lib` needs `dep`. -/
def Needs (targets : Targets) (lib dep : Text) : Prop := dep ∈ depsOf targets lib

theorem mem_keys_of_needs {lib dep : Text} (needs : Needs targets lib dep) : lib ∈ targets.keys := by
  rw [Dict.mem_keys_iff]
  rw [Needs, depsOf] at needs
  cases found : targets.get? lib with
  | none =>
    rw [found] at needs
    cases needs
  | some deps => rfl

theorem mem_keys_of_closed {lib dep : Text} (closed : Closed targets) (needs : Needs targets lib dep) :
    dep ∈ targets.keys := by
  obtain ⟨deps, found⟩ := Dict.exists_get? (mem_keys_of_needs needs)
  rw [Needs, depsOf, found] at needs
  exact closed lib deps found dep needs

/-! ### Counting consumers -/

theorem addDegree_eq {indegree : Dict Text Int} {dep : Text} {k : Int} (found : indegree.get? dep = some k) (n : Int) :
    addDegree n indegree dep = .ok (indegree.set dep (k + n)) := by
  rw [addDegree, found]

theorem foldlM_addDegree (l : List Text) (indegree : Dict Text Int) (known : ∀ dep ∈ l, dep ∈ indegree.keys) :
    ∃ indegree', l.foldlM (addDegree 1) indegree = .ok indegree' ∧
      ∀ k, indegree'.get? k = (indegree.get? k).map (· + (l.count k : Int)) := by
  induction l generalizing indegree with
  | nil => exact ⟨indegree, rfl, fun k => by cases indegree.get? k <;> simp⟩
  | cons dep l ih =>
    obtain ⟨n, found⟩ := Dict.exists_get? (known dep List.mem_cons_self)
    obtain ⟨indegree', loop, counted⟩ := ih (indegree.set dep (n + 1)) fun d member =>
      Dict.mem_keys_set.mpr (.inr (known d (List.mem_cons_of_mem _ member)))
    refine ⟨indegree', ?_, fun k => ?_⟩
    · rw [List.foldlM_cons, addDegree_eq found]
      exact loop
    · rw [counted, Dict.get?_set, List.count_cons]
      by_cases same : k = dep
      · subst same
        rw [if_pos rfl, found, beq_self_eq_true, if_pos rfl, Option.map_some, Option.map_some]
        congr 1
        omega
      · rw [if_neg same, if_neg (by simpa using Ne.symm same), Nat.add_zero]

theorem relax_cons {dep : Text} {deps : List Text} {indegree : Dict Text Int} {queue : List Text} {n : ℕ}
    (found : indegree.get? dep = some ((n + 1 : ℕ) : Int)) :
    relax (dep :: deps) indegree queue =
      relax deps (indegree.set dep (n : Int)) (if n = 0 then queue ++ [dep] else queue) := by
  have less : ((n + 1 : ℕ) : Int) + -1 = (n : Int) := by omega
  have zero : (indegree.set dep (n : Int)).get? dep = some 0 ↔ n = 0 := by
    rw [Dict.get?_set, if_pos rfl, Option.some.injEq]
    omega
  have joined : (if (indegree.set dep (n : Int)).get? dep = some 0 then queue ++ [dep] else queue) =
      if n = 0 then queue ++ [dep] else queue := if_congr zero rfl rfl
  rw [relax, List.foldlM_cons, addDegree_eq found, less, ← joined]
  rfl

/-- The round for one library takes one from each of its dependencies, and lets those join the queue for which
    that was the last. -/
theorem relax_eq (deps : List Text) {indegree : Dict Text Int} (queue : List Text)
    (enough : ∀ dep ∈ deps, ∃ n : ℕ, indegree.get? dep = some (n : Int) ∧ deps.count dep ≤ n) :
    ∃ indegree' news, relax deps indegree queue = .ok (indegree', queue ++ news) ∧
      (∀ k, indegree'.get? k = (indegree.get? k).map (· - (deps.count k : Int))) ∧ news.Nodup ∧
      ∀ k, k ∈ news ↔ k ∈ deps ∧ indegree.get? k = some (deps.count k : Int) := by
  induction deps generalizing indegree queue with
  | nil =>
    exact ⟨indegree, [], by rw [List.append_nil]; rfl, fun k => by cases indegree.get? k <;> simp, List.nodup_nil,
      fun k => by simp⟩
  | cons dep deps ih =>
    obtain ⟨n, found, le⟩ := enough dep List.mem_cons_self
    rw [List.count_cons_self] at le
    obtain ⟨m, rfl⟩ := Nat.exists_eq_succ_of_ne_zero (show n ≠ 0 by omega)
    have rest : ∀ d ∈ deps, ∃ n : ℕ,
        (indegree.set dep (m : Int)).get? d = some (n : Int) ∧ deps.count d ≤ n := by
      intro d member
      rw [Dict.get?_set]
      by_cases same : d = dep
      · subst same
        exact ⟨m, if_pos rfl, by omega⟩
      · obtain ⟨n, found, le⟩ := enough d (List.mem_cons_of_mem _ member)
        rw [List.count_cons_of_ne (Ne.symm same)] at le
        exact ⟨n, by rw [if_neg same]; exact found, le⟩
    have counts : ∀ k, ((indegree.set dep (m : Int)).get? k).map (· - (deps.count k : Int)) =
        (indegree.get? k).map (· - ((dep :: deps).count k : Int)) := by
      intro k
      rw [Dict.get?_set]
      by_cases same : k = dep
      · subst same
        rw [if_pos rfl, found, List.count_cons_self, Option.map_some, Option.map_some]
        congr 1
        omega
      · rw [if_neg same, List.count_cons_of_ne (Ne.symm same)]
    have others : ∀ k, k ≠ dep → ((k ∈ deps ∧ (indegree.set dep (m : Int)).get? k = some (deps.count k : Int)) ↔
        k ∈ dep :: deps ∧ indegree.get? k = some ((dep :: deps).count k : Int)) := by
      intro k other
      rw [Dict.get?_set, if_neg other, List.count_cons_of_ne (Ne.symm other), List.mem_cons, or_iff_right other]
    have here : indegree.get? dep = some ((dep :: deps).count dep : Int) ↔ m = deps.count dep := by
      rw [found, Option.some.injEq, List.count_cons_self]
      omega
    obtain ⟨indegree', news, loop, counted, nodup, members⟩ := ih (if m = 0 then queue ++ [dep] else queue) rest
    by_cases last : m = 0
    · -- the last consumer: `dep` joins the queue now and does not occur again
      subst last
      rw [if_pos rfl] at loop
      have absent : dep ∉ deps := fun member => by
        have := List.count_pos_iff.mpr member
        omega
      refine ⟨indegree', dep :: news, ?_, fun k => (counted k).trans (counts k), ?_, fun k => ?_⟩
      · rw [relax_cons found, if_pos rfl, loop, List.append_assoc]
        rfl
      · exact List.nodup_cons.mpr ⟨fun member => absent ((members dep).mp member).1, nodup⟩
      · by_cases same : k = dep
        · subst same
          refine iff_of_true List.mem_cons_self ⟨List.mem_cons_self, here.mpr ?_⟩
          rw [List.count_eq_zero_of_not_mem absent]
        · rw [List.mem_cons, or_iff_right same, members, others k same]
    · rw [if_neg last] at loop
      refine ⟨indegree', news, ?_, fun k => (counted k).trans (counts k), nodup, fun k => ?_⟩
      · rw [relax_cons found, if_neg last, loop]
      · by_cases same : k = dep
        · subst same
          rw [members, Dict.get?_set, if_pos rfl, here, Option.some.injEq]
          constructor
          · rintro ⟨-, same⟩
            exact ⟨List.mem_cons_self, by omega⟩
          · rintro ⟨-, same⟩
            exact ⟨List.count_pos_iff.mp (by omega), by omega⟩
        · rw [members, others k same]

/-! ### The queue loop -/

/-- The targets that have not been placed. -/
def pending (targets : Targets) (order : List Text) : List Text := targets.keys.filter (· ∉ order)

/-- How often targets that have not been placed list `k`. -/
def consumers (targets : Targets) (order : List Text) (k : Text) : ℕ :=
  ((pending targets order).flatMap (depsOf targets)).count k

theorem pending_perm {order : List Text} {lib : Text} (known : lib ∈ targets.keys) (unplaced : lib ∉ order) :
    (pending targets order).Perm (lib :: pending targets (order ++ [lib])) := by
  have member : lib ∈ pending targets order := List.mem_filter.mpr ⟨known, by simpa using unplaced⟩
  have nodup : (pending targets order).Nodup := targets.nodup_keys.filter _
  have rest : pending targets (order ++ [lib]) = (pending targets order).erase lib := by
    rw [nodup.erase_eq_filter, pending, pending, List.filter_filter]
    refine List.filter_congr fun k _ => ?_
    rw [Bool.eq_iff_iff]
    simp [and_comm]
  rw [rest]
  exact List.perm_cons_erase member

theorem consumers_eq {order : List Text} {lib : Text} (known : lib ∈ targets.keys) (unplaced : lib ∉ order) (k : Text) :
    consumers targets order k = (depsOf targets lib).count k + consumers targets (order ++ [lib]) k := by
  rw [consumers, ((pending_perm known unplaced).flatMap_right _).count_eq, List.flatMap_cons, List.count_append]
  rfl

/-- The state of the queue loop: a target waits in the queue or is placed once nothing unplaced needs it, and in the
    order so far every consumer stands before what it needs. -/
structure Draining (targets : Targets) (indegree : Dict Text Int) (queue order : List Text) : Prop where
  nodup : (order ++ queue).Nodup
  degree : ∀ k ∈ targets.keys, indegree.get? k = some (consumers targets order k : Int)
  ready : ∀ k, k ∈ order ++ queue ↔ k ∈ targets.keys ∧ consumers targets order k = 0
  respects : Graph.Respects (Needs targets) order

theorem Draining.round {indegree : Dict Text Int} {lib : Text} {queue order : List Text} (closed : Closed targets)
    (state : Draining targets indegree (lib :: queue) order) :
    ∃ indegree' queue', relax (depsOf targets lib) indegree queue = .ok (indegree', queue') ∧
      Draining targets indegree' queue' (order ++ [lib]) := by
  obtain ⟨known, none_⟩ := (state.ready lib).mp (List.mem_append_right _ List.mem_cons_self)
  have unplaced : lib ∉ order := fun member =>
    (List.nodup_append.mp state.nodup).2.2 lib member lib List.mem_cons_self rfl
  have count := consumers_eq known unplaced
  obtain ⟨indegree', news, loop, counted, nodup, members⟩ := relax_eq (depsOf targets lib) queue fun dep needs =>
    ⟨consumers targets order dep, state.degree dep (mem_keys_of_closed closed needs), by rw [count]; omega⟩
  have fresh : ∀ k ∈ news, k ∉ order ++ lib :: queue := by
    intro k member old
    obtain ⟨needs, number⟩ := (members k).mp member
    have zero := ((state.ready k).mp old).2
    have positive := List.count_pos_iff.mpr needs
    rw [count] at zero
    omega
  refine ⟨indegree', queue ++ news, loop, ?_, fun k keyK => ?_, fun k => ?_, ?_⟩
  · rw [List.append_assoc, List.singleton_append, ← List.cons_append, ← List.append_assoc]
    exact List.nodup_append.mpr ⟨state.nodup, nodup, fun a old b new same => fresh b new (same ▸ old)⟩
  · rw [counted, state.degree k keyK, count, Option.map_some]
    congr 1
    omega
  · have split : k ∈ order ++ [lib] ++ (queue ++ news) ↔ k ∈ order ++ lib :: queue ∨ k ∈ news := by
      simp only [List.mem_append, List.mem_cons, List.not_mem_nil, or_false]
      tauto
    rw [split, state.ready, members]
    constructor
    · rintro (⟨keyK, zero⟩ | ⟨needs, number⟩)
      · rw [count] at zero
        exact ⟨keyK, by omega⟩
      · have keyK := mem_keys_of_closed closed needs
        rw [state.degree k keyK, count, Option.some.injEq] at number
        exact ⟨keyK, by omega⟩
    · rintro ⟨keyK, zero⟩
      by_cases needs : k ∈ depsOf targets lib
      · refine .inr ⟨needs, ?_⟩
        rw [state.degree k keyK, count, zero, Nat.add_zero]
      · refine .inl ⟨keyK, ?_⟩
        rw [count, zero, List.count_eq_zero_of_not_mem needs]
  · refine state.respects.concat fun consumer needs => ?_
    by_contra unplaced'
    have waits : lib ∈ (pending targets order).flatMap (depsOf targets) :=
      List.mem_flatMap.mpr ⟨consumer, List.mem_filter.mpr ⟨mem_keys_of_needs needs, by simpa using unplaced'⟩, needs⟩
    rw [consumers] at none_
    exact absurd waits (List.count_eq_zero.mp none_)

theorem Draining.length_le {indegree : Dict Text Int} {queue order : List Text}
    (state : Draining targets indegree queue order) : order.length ≤ targets.keys.length :=
  ((List.nodup_append.mp state.nodup).1.subperm fun k member =>
    ((state.ready k).mp (List.mem_append_left _ member)).1).length_le

/-- The loop ends with an empty queue: every round places another target. -/
theorem drain_eq (closed : Closed targets) (rounds : ℕ) : ∀ indegree queue order,
    Draining targets indegree queue order → targets.keys.length < rounds + order.length →
      ∃ indegree' order', drain targets rounds indegree queue order = .ok order' ∧
        Draining targets indegree' [] order' := by
  induction rounds with
  | zero =>
    intro indegree queue order state enough
    have := state.length_le
    omega
  | succ rounds ih =>
    intro indegree queue order state enough
    cases queue with
    | nil => exact ⟨indegree, order, rfl, state⟩
    | cons lib queue =>
      obtain ⟨indegree', queue', round, state'⟩ := state.round closed
      obtain ⟨indegree'', order', loop, final⟩ := ih indegree' queue' (order ++ [lib]) state'
        (by rw [List.length_append, List.length_singleton]; omega)
      refine ⟨indegree'', order', ?_, final⟩
      rw [drain]
      exact bind_eq_ok.mpr ⟨(indegree', queue'), round, loop⟩

/-! ### The whole sort -/

theorem flatMap_depsOf (targets : Targets) : targets.entries.flatMap Prod.snd = targets.keys.flatMap (depsOf targets) := by
  rw [Dict.keys, List.flatMap_map]
  refine List.flatMap_congr fun e member => ?_
  rw [depsOf, Dict.get?_of_mem_entries member]
  rfl

theorem consumers_nil (targets : Targets) (k : Text) :
    consumers targets [] k = (targets.entries.flatMap Prod.snd).count k := by
  rw [flatMap_depsOf, consumers, pending, List.filter_eq_self.mpr (by simp)]

theorem get?_zeros {ks : List Text} {k : Text} (member : k ∈ ks) :
    (Dict.ofPairs (ks.map fun lib => (lib, (0 : Int)))).get? k = some 0 := by
  have key : k ∈ (Dict.ofPairs (ks.map fun lib => (lib, (0 : Int)))).keys := by
    rw [Dict.mem_keys_ofPairs, List.map_map]
    exact List.mem_map.mpr ⟨k, member, rfl⟩
  obtain ⟨n, found⟩ := Dict.exists_get? key
  obtain ⟨lib, -, same⟩ := List.mem_map.mp (Dict.mem_of_get?_ofPairs found)
  cases same
  exact found

theorem draining_start (closed : Closed targets) :
    ∃ indegree, (targets.entries.flatMap Prod.snd).foldlM (addDegree 1)
        (Dict.ofPairs (targets.keys.map fun lib => (lib, (0 : Int)))) = .ok indegree ∧
      Draining targets indegree (targets.keys.filter fun lib => indegree.get? lib = some 0) [] := by
  have zeros := fun k => @get?_zeros targets.keys k
  obtain ⟨indegree, loop, counted⟩ := foldlM_addDegree (targets.entries.flatMap Prod.snd)
    (Dict.ofPairs (targets.keys.map fun lib => (lib, (0 : Int)))) fun dep member => by
      rw [flatMap_depsOf] at member
      obtain ⟨lib, -, needs⟩ := List.mem_flatMap.mp member
      exact Dict.mem_keys_of_get? (zeros dep (mem_keys_of_closed closed needs))
  have degree : ∀ k ∈ targets.keys, indegree.get? k = some (consumers targets [] k : Int) := by
    intro k member
    rw [counted, zeros k member, consumers_nil, Option.map_some, Int.zero_add]
  refine ⟨indegree, loop, targets.nodup_keys.filter _, degree, fun k => ?_, fun before x after split => ?_⟩
  · rw [List.nil_append, List.mem_filter, decide_eq_true_iff]
    refine and_congr_right fun member => ?_
    rw [degree k member, Option.some.injEq]
    omega
  · exact absurd split (by simp)

/-- An order of the targets in which each stands once, behind all it needs. -/
structure BuildOrder (targets : Targets) (order : List Text) : Prop where
  nodup : order.Nodup
  complete : ∀ k, k ∈ order ↔ k ∈ targets.keys
  depsFirst : ∀ before lib after, order = before ++ lib :: after → ∀ dep ∈ depsOf targets lib, dep ∈ before

theorem buildOrder_reverse {order : List Text} (nodup : order.Nodup) (complete : ∀ k, k ∈ order ↔ k ∈ targets.keys)
    (respects : Graph.Respects (Needs targets) order) (closed : Closed targets) : BuildOrder targets order.reverse where
  nodup := List.nodup_reverse.mpr nodup
  complete := fun k => List.mem_reverse.trans (complete k)
  depsFirst := by
    intro before lib after split dep needs
    have order_eq : order = after.reverse ++ lib :: before.reverse := by
      rw [← List.reverse_reverse order, split]
      simp
    rw [order_eq] at nodup respects
    have once : lib ∉ after.reverse := fun member =>
      (List.nodup_append.mp nodup).2.2 lib member lib List.mem_cons_self rfl
    have member : dep ∈ order := (complete dep).mpr (mem_keys_of_closed closed needs)
    rw [order_eq, List.mem_append, List.mem_cons] at member
    rcases member with early | rfl | late
    · obtain ⟨p, q, within⟩ := List.append_of_mem early
      have consumer := respects p dep (q ++ lib :: before.reverse) (by rw [within, List.append_assoc]; rfl) lib needs
      exact absurd (within ▸ List.mem_append_left _ consumer) once
    · exact absurd (respects after.reverse dep before.reverse rfl dep needs) once
    · exact List.mem_reverse.mp late

/-- On a closed map, `topological_sort` finds an order when there is no cycle, and reports one when there is. -/
theorem topologicalSort_spec (closed : Closed targets) :
    (¬Graph.Cyclic (Needs targets) ∧ ∃ order, topologicalSort targets = .ok order ∧ BuildOrder targets order) ∨
      (Graph.Cyclic (Needs targets) ∧ topologicalSort targets = .error .cycle) := by
  obtain ⟨indegree, loop, start⟩ := draining_start closed
  obtain ⟨indegree', order, drained, final⟩ := drain_eq closed (targets.keys.length + 1) _ _ _ start (by simp)
  have nodup : order.Nodup := (List.nodup_append.mp final.nodup).1
  have members : ∀ k, k ∈ order ↔ k ∈ targets.keys ∧ consumers targets order k = 0 := fun k => by
    rw [← final.ready, List.append_nil]
  have result : topologicalSort targets =
      if order.length = targets.keys.length then .ok order.reverse else .error .cycle := by
    refine Eq.trans (b := (do
      let order ← drain targets (targets.keys.length + 1) indegree
        (targets.keys.filter fun lib => indegree.get? lib = some 0) []
      if order.length = targets.keys.length then return order.reverse else throw .cycle)) ?_ ?_
    · rw [topologicalSort, loop]
      rfl
    · rw [drained]
      rfl
  by_cases all : order.length = targets.keys.length
  · have complete : ∀ k, k ∈ order ↔ k ∈ targets.keys := by
      have perm : order.Perm targets.keys :=
        (nodup.subperm fun k member => ((members k).mp member).1).perm_of_length_le all.ge
      exact fun k => perm.mem_iff
    refine .inl ⟨Graph.not_cyclic_of_respects final.respects fun a b needs =>
      (complete b).mpr (mem_keys_of_closed closed needs), order.reverse, ?_,
      buildOrder_reverse nodup complete final.respects closed⟩
    rw [result, if_pos all]
  · refine .inr ⟨?_, by rw [result, if_neg all]⟩
    -- the targets that are left each have a consumer among them
    have left : pending targets order ≠ [] := by
      intro none_
      have subset : targets.keys ⊆ order := fun k member => by
        by_contra missing
        have waits : k ∈ pending targets order := List.mem_filter.mpr ⟨member, by simpa using missing⟩
        rw [none_] at waits
        cases waits
      have le := (targets.nodup_keys.subperm subset).length_le
      have ge := final.length_le
      omega
    refine Graph.cyclic_of_preceded left fun dep waits => ?_
    obtain ⟨member, unplaced⟩ := List.mem_filter.mp waits
    have needed : consumers targets order dep ≠ 0 := fun zero =>
      (by simpa using unplaced : dep ∉ order) ((members dep).mpr ⟨member, zero⟩)
    have listed : dep ∈ (pending targets order).flatMap (depsOf targets) := by
      by_contra absent
      exact needed (List.count_eq_zero_of_not_mem absent)
    obtain ⟨lib, waitsLib, needs⟩ := List.mem_flatMap.mp listed
    exact ⟨lib, waitsLib, needs⟩

/-! ### Generation -/

theorem generate_of_closed {allLoaded : List AidlInterface} (libs : libDeps allLoaded = .ok targets)
    (closed : Closed targets) :
    generateLibrariesDependencies allLoaded = (do
      let order ← topologicalSort targets
      return order.flatMap (dependencyLine targets)) := by
  rw [generateLibrariesDependencies, libs]
  simp only [ok_bind, unresolved?_eq_none_iff.mpr closed]

theorem generate_of_not_closed {allLoaded : List AidlInterface} (libs : libDeps allLoaded = .ok targets)
    (open_ : ¬Closed targets) : ∃ dep consumer, Needs targets consumer dep ∧ dep ∉ targets.keys ∧
      generateLibrariesDependencies allLoaded = .error (.unresolvedTarget dep consumer) := by
  cases first : unresolved? targets with
  | none => exact absurd (unresolved?_eq_none_iff.mp first) open_
  | some e =>
    obtain ⟨entry, member, found⟩ := List.exists_of_findSome?_eq_some first
    obtain ⟨dep, missing, rfl⟩ := Option.map_eq_some_iff.mp found
    refine ⟨dep, entry.1, ?_, ?_, ?_⟩
    · rw [Needs, depsOf, Dict.get?_of_mem_entries member]
      exact List.mem_of_find?_eq_some missing
    · rw [← Dict.get?_eq_none_iff]
      simpa using List.find?_some missing
    · rw [generateLibrariesDependencies, libs]
      simp only [ok_bind, first]
      rfl

theorem mem_keys_foldl_registerSnapshot {allLoaded : List AidlInterface} {k : Text} :
    k ∈ (allLoaded.foldl registerSnapshot (interfaceTargets allLoaded)).keys ↔
      (∃ name i, (interfacesOf allLoaded).get? name = some i ∧ Registers (name, i) k) ∨
        ∃ snap ∈ allLoaded, basename snap.interfaceRoot ≠ currentVersion ∧
          k = cppTarget snap.baseName (basename snap.interfaceRoot) := by
  rw [Dict.mem_keys_iff, get?_foldl_registerSnapshot, ← mem_keys_interfaceTargets, Option.isSome_or, Bool.or_eq_true,
    ← Dict.mem_keys_iff]
  refine or_congr_right ?_
  rw [List.findSome?_isSome_iff]
  refine exists_congr fun snap => and_congr_right fun _ => ?_
  rw [snapshotDeps]
  by_cases named : basename snap.interfaceRoot ≠ currentVersion ∧
      k = cppTarget snap.baseName (basename snap.interfaceRoot)
  · rw [if_pos named]
    exact iff_of_true rfl named
  · rw [if_neg named]
    exact iff_of_false (fun h => by cases h) named

theorem generate_eq_ok {allLoaded : List AidlInterface} {text : Text}
    (generated : generateLibrariesDependencies allLoaded = .ok text) :
    ∃ targets order, libDeps allLoaded = .ok targets ∧ Closed targets ∧ topologicalSort targets = .ok order ∧
      BuildOrder targets order ∧ text = order.flatMap (dependencyLine targets) := by
  have libs := libDeps_eq allLoaded
  by_cases closed : Closed (allLoaded.foldl registerSnapshot (interfaceTargets allLoaded))
  · rw [generate_of_closed libs closed] at generated
    obtain ⟨order, sorted, done⟩ := bind_eq_ok.mp generated
    cases done
    rcases topologicalSort_spec closed with ⟨-, order', sorted', build⟩ | ⟨-, failed⟩
    · cases sorted.symm.trans sorted'
      exact ⟨_, order, libs, closed, sorted, build, rfl⟩
    · cases sorted.symm.trans failed
  · obtain ⟨dep, consumer, -, -, raised⟩ := generate_of_not_closed libs closed
    cases generated.symm.trans raised

/-- Generation on any loaded set: what is registered, by whom and with which dependencies, how it ends, and with which
    lines. -/
theorem generateLibrariesDependencies_correct (allLoaded : List AidlInterface) :
    ∃ targets, libDeps allLoaded = .ok targets ∧
      (∀ k, k ∈ targets.keys ↔
        (∃ name i, (interfacesOf allLoaded).get? name = some i ∧ Registers (name, i) k) ∨
          ∃ snap ∈ allLoaded, basename snap.interfaceRoot ≠ currentVersion ∧
            k = cppTarget snap.baseName (basename snap.interfaceRoot)) ∧
      (∀ k, targets.get? k = ((interfaceTargets allLoaded).get? k).or (allLoaded.findSome? (snapshotDeps · k))) ∧
      (∀ k deps, (interfaceTargets allLoaded).get? k = some deps →
        ∃ name i, (interfacesOf allLoaded).get? name = some i ∧ RegistersWith (name, i) k deps) ∧
      (¬Closed targets → ∃ dep consumer, Needs targets consumer dep ∧ dep ∉ targets.keys ∧
        generateLibrariesDependencies allLoaded = .error (.unresolvedTarget dep consumer)) ∧
      (Closed targets → Graph.Cyclic (Needs targets) →
        generateLibrariesDependencies allLoaded = .error .cycle) ∧
      (Closed targets → ¬Graph.Cyclic (Needs targets) → ∃ order, BuildOrder targets order ∧
        generateLibrariesDependencies allLoaded = .ok (order.flatMap fun lib =>
          lib ++ ": ".toList ++ " ".toList.intercalate (depsOf targets lib) ++ "\n".toList)) ∧
      ∀ dep, generateLibrariesDependencies allLoaded ≠ .error (.noTarget dep) := by
  have libs : libDeps allLoaded = .ok (allLoaded.foldl registerSnapshot (interfaceTargets allLoaded)) :=
    libDeps_eq allLoaded
  have lookups := fun k => get?_foldl_registerSnapshot allLoaded (interfaceTargets allLoaded) k
  refine ⟨_, libs, fun k => ?_, lookups, fun k deps => registersWith_of_interfaceTargets,
    fun open_ => generate_of_not_closed libs open_, fun closed cyclic => ?_, fun closed acyclic => ?_, fun dep raised => ?_⟩
  · exact mem_keys_foldl_registerSnapshot
  · rcases topologicalSort_spec closed with ⟨acyclic, -⟩ | ⟨-, sorted⟩
    · exact absurd cyclic acyclic
    · rw [generate_of_closed libs closed, sorted]
      rfl
  · rcases topologicalSort_spec closed with ⟨-, order, sorted, build⟩ | ⟨cyclic, -⟩
    · refine ⟨order, build, ?_⟩
      rw [generate_of_closed libs closed, sorted]
      rfl
    · exact absurd cyclic acyclic
  · by_cases closed : Closed (allLoaded.foldl registerSnapshot (interfaceTargets allLoaded))
    · rw [generate_of_closed libs closed] at raised
      rcases topologicalSort_spec closed with ⟨-, order, sorted, -⟩ | ⟨-, sorted⟩
      · rw [sorted] at raised
        cases raised
      · rw [sorted] at raised
        cases raised
    · obtain ⟨dep', consumer, -, -, unresolved⟩ := generate_of_not_closed libs closed
      rw [unresolved] at raised
      cases raised

end BinderIdl.Interface
