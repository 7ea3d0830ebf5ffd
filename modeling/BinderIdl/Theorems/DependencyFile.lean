import BinderIdl.Interface.CMake
import BinderIdl.Theorems.BuildOrder

/-! `dependencies.txt` as the build reads it. The reader takes any run of the characters it knows for a name, so a
    version with another character is cut there, and nothing is reported. -/

namespace BinderIdl.Interface
open Py Regex

/-- Every character is one that the reader knows. -/
def Plain (t : Text) : Prop := ∀ c ∈ t, isTargetChar c = true

instance (t : Text) : Decidable (Plain t) := List.decidableBAll (fun c => isTargetChar c = true) t

/-- The characters of the dependencies of a line. -/
def PlainOrSpace (t : Text) : Prop := ∀ c ∈ t, (isTargetChar c || c == ' ') = true

variable {t lib body rest : Text} {m : Match}

theorem plain_append {s t : Text} : Plain (s ++ t) ↔ Plain s ∧ Plain t := List.forall_mem_append

theorem plain_cppTarget {name version : Text} : Plain (cppTarget name version) ↔ Plain name ∧ Plain version := by
  rw [cppTarget, plain_append, plain_append, plain_append]
  have fixed : Plain "-v".toList ∧ Plain "-cpp".toList := by decide
  exact ⟨fun h => ⟨h.1.1.1, h.1.2⟩, fun h => ⟨⟨⟨h.1, fixed.1⟩, h.2⟩, fixed.2⟩⟩

/-! ### One match -/

theorem apart_colon (c : Char) (own : isTargetChar c = true) : (c == ':') = false := by
  refine beq_eq_false_iff_ne.mpr fun same => ?_
  rw [same] at own
  cases own

theorem of_matchHere_dependency (found : matchHere dependencyPattern t = some m) :
    ∃ lib body, lib ≠ [] ∧ Plain lib ∧ PlainOrSpace body ∧ m.1 = [lib, [':'], body] := by
  obtain ⟨run, m₁, found₁, rfl⟩ := (matchHere_plus_one apart_colon).mp found
  obtain ⟨u, m₂, -, found₂, rfl⟩ := of_matchHere_literal (l := [':']) found₁
  rw [matchHere_star_last] at found₂
  cases found₂
  exact ⟨_, _, run, fun c member => List.mem_takeWhile_imp member,
    fun c member => List.mem_takeWhile_imp (p := fun c => isTargetChar c || c == ' ') member, rfl⟩

theorem matchHere_dependency (known : lib ≠ []) (plain : Plain lib) (t : Text) :
    matchHere dependencyPattern (lib ++ ':' :: t) =
      some ([lib, [':'], t.takeWhile fun c => isTargetChar c || c == ' '],
        t.dropWhile fun c => isTargetChar c || c == ' ') := by
  have stop : isTargetChar ':' = false := rfl
  have run := takeWhile_append_cons plain stop t
  have behind := dropWhile_append_cons plain stop t
  refine (matchHere_plus_one apart_colon).mpr ⟨run.symm ▸ known, ([[':'], _], _), ?_, by rw [run]; rfl⟩
  rw [behind, matchHere, if_pos (beq_self_eq_true ':'), matchHere_star_last]
  rfl

theorem search_nil : search dependencyPattern [] = none := rfl

theorem readMatch_eq (known : lib ≠ []) (plain : Plain lib) (spaced : PlainOrSpace body) :
    readMatch [lib, [':'], body] = (lib, stripBlanks body) := by
  have whole : ([lib, [':'], body] : List Text).flatten = lib ++ ':' :: body := by simp
  have taken : body.takeWhile (fun c => isTargetChar c || c == ' ') = body := List.takeWhile_eq_self_iff.mpr spaced
  have left : body.dropWhile (fun c => isTargetChar c || c == ' ') = [] := List.dropWhile_eq_nil_iff.mpr spaced
  have found := search_of_matchHere (matchHere_dependency known plain body)
  rw [taken, left] at found
  have replaced : ∀ f : List Text → Text, replaceAll dependencyPattern f (lib ++ ':' :: body) = f [lib, [':'], body] := by
    intro f
    rw [replaceAll, List.length_append, List.length_cons, ← Nat.add_assoc, replaceAllFrom, found]
    dsimp only
    rw [replaceAllFrom, search_nil]
    exact List.append_nil _
  rw [readMatch, whole, replaced, replaced]
  rfl

/-! ### Lines -/

/-- The dependencies of a line, behind its colon. -/
def spaced (deps : List Text) : Text := ' ' :: " ".toList.intercalate deps

theorem dependencyLine_eq (targets : Targets) (lib : Text) :
    dependencyLine targets lib = lib ++ ':' :: (spaced (depsOf targets lib) ++ ['\n']) := by
  rw [dependencyLine, spaced, List.append_assoc, List.append_assoc]
  rfl

theorem mem_intercalate_space {c : Char} {ws : List Text} (member : c ∈ [' '].intercalate ws) :
    c = ' ' ∨ ∃ w ∈ ws, c ∈ w := by
  induction ws with
  | nil => cases member
  | cons w ws ih =>
    by_cases last : ws = []
    · subst last
      rw [List.intercalate_singleton] at member
      exact .inr ⟨w, List.mem_cons_self, member⟩
    · rw [List.intercalate_cons_of_ne_nil last, List.append_assoc, List.mem_append, List.mem_append,
        List.mem_singleton] at member
      rcases member with here | space | later
      · exact .inr ⟨w, List.mem_cons_self, here⟩
      · exact .inl space
      · rcases ih later with space | ⟨w', among, inside⟩
        · exact .inl space
        · exact .inr ⟨w', List.mem_cons_of_mem _ among, inside⟩

theorem plainOrSpace_spaced {deps : List Text} (plain : ∀ dep ∈ deps, Plain dep) : PlainOrSpace (spaced deps) := by
  intro c member
  have source : c = ' ' ∨ ∃ dep ∈ deps, c ∈ dep := by
    rcases List.mem_cons.mp member with space | member
    · exact .inl space
    · exact mem_intercalate_space member
  rcases source with rfl | ⟨dep, among, inside⟩
  · rfl
  · rw [plain dep among c inside, Bool.true_or]

theorem ends_intercalate_space {ws : List Text} (some_ : ws ≠ []) (known : ∀ w ∈ ws, w ≠ []) :
    (∃ c u, [' '].intercalate ws = c :: u ∧ ∃ w ∈ ws, c ∈ w) ∧
      ∃ u c, [' '].intercalate ws = u ++ [c] ∧ ∃ w ∈ ws, c ∈ w := by
  induction ws with
  | nil => exact absurd rfl some_
  | cons w ws ih =>
    obtain ⟨c, u, first⟩ := List.exists_cons_of_ne_nil (known w List.mem_cons_self)
    by_cases last : ws = []
    · subst last
      rw [List.intercalate_singleton]
      refine ⟨⟨c, u, first, w, List.mem_cons_self, first ▸ List.mem_cons_self⟩, w.dropLast, w.getLast ?_, ?_, w,
        List.mem_cons_self, List.getLast_mem _⟩
      · exact known w List.mem_cons_self
      · exact (List.dropLast_append_getLast _).symm
    · obtain ⟨-, v, d, final, w', among, inside⟩ := ih last fun w' member => known w' (List.mem_cons_of_mem _ member)
      rw [List.intercalate_cons_of_ne_nil last, final]
      refine ⟨⟨c, u ++ [' '] ++ (v ++ [d]), by rw [first]; rfl, w, List.mem_cons_self, first ▸ List.mem_cons_self⟩,
        w ++ [' '] ++ v, d, by rw [List.append_assoc _ v], w', List.mem_cons_of_mem _ among, inside⟩

theorem not_blank_of_plain {c : Char} (plain : isTargetChar c = true) : isBlank c = false := by
  rw [← Bool.not_eq_true]
  intro blank
  rw [isBlank, Bool.or_eq_true, Bool.and_eq_true, decide_eq_true_iff, decide_eq_true_iff, beq_iff_eq] at blank
  rcases blank with rfl | ⟨low, high⟩
  · cases plain
  · rw [← Char.ofNat_toNat c] at plain
    generalize c.toNat = n at low high plain
    interval_cases n <;> cases plain

theorem stripBlanks_spaced {deps : List Text} (names : ∀ dep ∈ deps, dep ≠ [] ∧ Plain dep) :
    stripBlanks (spaced deps) = [' '].intercalate deps := by
  by_cases none_ : deps = []
  · subst none_
    rfl
  · obtain ⟨⟨c, u, first, w, among, inside⟩, v, d, last, w', among', inside'⟩ :=
      ends_intercalate_space none_ fun dep member => (names dep member).1
    have start := not_blank_of_plain ((names w among).2 c inside)
    have final := not_blank_of_plain ((names w' among').2 d inside')
    show ((' ' :: [' '].intercalate deps).dropWhile isBlank).rdropWhile isBlank = _
    rw [List.dropWhile_cons_of_pos rfl, first, List.dropWhile_cons_of_neg (by rw [start]; exact Bool.false_ne_true),
      ← first, last, List.rdropWhile_concat_neg _ _ _ (by rw [final]; exact Bool.false_ne_true)]

theorem dependencyList_intercalate {deps : List Text} (names : ∀ dep ∈ deps, dep ≠ [] ∧ Plain dep) :
    dependencyList ([' '].intercalate deps) = deps := by
  by_cases none_ : deps = []
  · subst none_
    rfl
  · obtain ⟨⟨c, u, first, -⟩, -⟩ := ends_intercalate_space none_ fun dep member => (names dep member).1
    rw [dependencyList, if_neg (by rw [first]; exact List.cons_ne_nil c u)]
    refine List.splitOn_intercalate ' ' (fun dep member space => ?_) none_
    have own := (names dep member).2 ' ' space
    cases own

theorem search_newline (t : Text) :
    search dependencyPattern ('\n' :: t) = (search dependencyPattern t).map fun f => ('\n' :: f.1, f.2) := by
  refine search_append (l := ['\n']) fun u suffix more => ?_
  rcases List.suffix_cons_iff.mp suffix with rfl | empty
  · cases found : matchHere dependencyPattern (['\n'] ++ t) with
    | none => rfl
    | some m => exact absurd ((matchHere_plus_one apart_colon).mp found).1 (fun h => h rfl)
  · exact absurd (List.suffix_nil.mp empty) more

theorem matchAllFrom_newline (n : ℕ) (t : Text) :
    matchAllFrom dependencyPattern n ('\n' :: t) = matchAllFrom dependencyPattern n t := by
  cases n with
  | zero => rfl
  | succ n =>
    rw [matchAllFrom, matchAllFrom, search_newline]
    cases search dependencyPattern t <;> rfl

/-- The groups of the line of a target. -/
def lineGroups (targets : Targets) (lib : Text) : List Text := [lib, [':'], spaced (depsOf targets lib)]

/-- By induction on the lines: each has one match, which ends at its newline. -/
theorem matchAllFrom_lines {targets : Targets} {order : List Text} {n : ℕ} (enough : order.length < n)
    (names : ∀ lib ∈ order, lib ≠ [] ∧ Plain lib ∧ ∀ dep ∈ depsOf targets lib, Plain dep) :
    matchAllFrom dependencyPattern n (order.flatMap (dependencyLine targets)) = order.map (lineGroups targets) := by
  induction order generalizing n with
  | nil =>
    cases n with
    | zero => rfl
    | succ n => rfl
  | cons lib order ih =>
    obtain ⟨n, rfl⟩ : ∃ k, n = k + 1 := ⟨n - 1, by rw [List.length_cons] at enough; omega⟩
    obtain ⟨known, plain, deps⟩ := names lib List.mem_cons_self
    have own := plainOrSpace_spaced deps
    have stop : (isTargetChar '\n' || '\n' == ' ') = false := rfl
    have run := takeWhile_append_cons own stop (order.flatMap (dependencyLine targets))
    have behind := dropWhile_append_cons own stop (order.flatMap (dependencyLine targets))
    have found := search_of_matchHere (matchHere_dependency known plain
      (spaced (depsOf targets lib) ++ '\n' :: order.flatMap (dependencyLine targets)))
    rw [run, behind] at found
    have line : (lib :: order).flatMap (dependencyLine targets) =
        lib ++ ':' :: (spaced (depsOf targets lib) ++ '\n' :: order.flatMap (dependencyLine targets)) := by
      rw [List.flatMap_cons, dependencyLine_eq]
      simp
    rw [line, matchAllFrom, found]
    dsimp only
    rw [matchAllFrom_newline, ih (by rw [List.length_cons] at enough; omega)
      fun lib member => names lib (List.mem_cons_of_mem _ member)]
    rfl

/-! ### The file -/

theorem joinArguments_of_notMem (unsplit : ';' ∉ t) (nesting : Int) : joinArguments nesting t = t := by
  induction t generalizing nesting with
  | nil => rfl
  | cons c t ih =>
    have kept : keptAt nesting c = [c] := by
      have other : ¬(c = ';' ∧ nesting = 0) := fun h => unsplit (h.1 ▸ List.mem_cons_self)
      rw [keptAt, if_neg other]
    have rest := fun nesting => ih (fun member => unsplit (List.mem_cons_of_mem _ member)) nesting
    cases t with
    | nil => exact kept
    | cons d t =>
      have escaped : ¬(c = '\\' ∧ d = ';') := fun h =>
        unsplit (h.2 ▸ List.mem_cons_of_mem _ List.mem_cons_self)
      rw [joinArguments, if_neg escaped, kept, rest]
      rfl

theorem notMem_lines {targets : Targets} {order : List Text}
    (names : ∀ lib ∈ order, Plain lib ∧ ∀ dep ∈ depsOf targets lib, Plain dep) :
    ';' ∉ order.flatMap (dependencyLine targets) := by
  intro member
  obtain ⟨lib, among, inside⟩ := List.mem_flatMap.mp member
  obtain ⟨plain, deps⟩ := names lib among
  rw [dependencyLine_eq, List.mem_append, List.mem_cons, List.mem_append, List.mem_singleton] at inside
  rcases inside with inName | colon | inDeps | newline
  · cases plain _ inName
  · cases colon
  · cases plainOrSpace_spaced deps _ inDeps
  · cases newline

theorem of_mem_matchAllFrom {n : ℕ} {groups : List Text} (member : groups ∈ matchAllFrom dependencyPattern n t) :
    ∃ lib body, lib ≠ [] ∧ Plain lib ∧ PlainOrSpace body ∧ groups = [lib, [':'], body] := by
  induction n generalizing t with
  | zero => cases member
  | succ n ih =>
    rw [matchAllFrom] at member
    cases found : search dependencyPattern t with
    | none =>
      rw [found] at member
      cases member
    | some f =>
      rw [found] at member
      rcases List.mem_cons.mp member with rfl | later
      · obtain ⟨u, here⟩ := of_search found
        exact of_matchHere_dependency here
      · exact ih later

theorem plain_of_read {file : Option Text} {entries : List (Text × List Text)}
    (read : readInterfacesLibDependencies file = some entries) : ∀ e ∈ entries, Plain e.1 := by
  obtain ⟨content, -, rfl⟩ := Option.map_eq_some_iff.mp read
  intro e member
  obtain ⟨groups, among, rfl⟩ := List.mem_map.mp member
  obtain ⟨lib, body, known, plain, spaced, rfl⟩ := of_mem_matchAllFrom among
  rw [readMatch_eq known plain spaced]
  exact plain

theorem length_le_lines (targets : Targets) (order : List Text) :
    order.length ≤ (order.flatMap (dependencyLine targets)).length := by
  induction order with
  | nil => exact Nat.le_refl 0
  | cons lib order ih =>
    rw [List.flatMap_cons, List.length_append, List.length_cons, dependencyLine_eq, List.length_append, List.length_cons]
    omega

/-- What was written is read when all names in it are plain. -/
theorem read_lines {targets : Targets} {order : List Text}
    (names : ∀ lib ∈ order, (lib ≠ [] ∧ Plain lib) ∧ ∀ dep ∈ depsOf targets lib, dep ≠ [] ∧ Plain dep) :
    readInterfacesLibDependencies (some (order.flatMap (dependencyLine targets))) =
      some (order.map fun lib => (lib, depsOf targets lib)) := by
  have plain : ∀ lib ∈ order, Plain lib ∧ ∀ dep ∈ depsOf targets lib, Plain dep := fun lib member =>
    ⟨(names lib member).1.2, fun dep needs => ((names lib member).2 dep needs).2⟩
  have enough := Nat.lt_succ_of_le (length_le_lines targets order)
  rw [readInterfacesLibDependencies, Option.map_some, joinArguments_of_notMem (notMem_lines plain), matchAll,
    matchAllFrom_lines enough fun lib member => ⟨(names lib member).1.1, plain lib member⟩, List.map_map]
  refine congrArg some (List.map_congr_left fun lib member => ?_)
  obtain ⟨⟨known, own⟩, deps⟩ := names lib member
  show ((readMatch (lineGroups targets lib)).1, dependencyList (readMatch (lineGroups targets lib)).2) = _
  rw [lineGroups, readMatch_eq known own (plainOrSpace_spaced (plain lib member).2), stripBlanks_spaced deps,
    dependencyList_intercalate deps]

/-! ### The loaded set -/

/-- There is an interface, and every name and every version of a target has only characters that the reader knows. -/
structure PlainNames (allLoaded : List AidlInterface) : Prop where
  some_ : allLoaded ≠ []
  names : ∀ i ∈ allLoaded, Plain i.baseName
  versions : ∀ name i, (interfacesOf allLoaded).get? name = some i → ∀ ver ∈ i.versionsWithInfo.keys, Plain ver
  snapshots : ∀ snap ∈ allLoaded, Plain (basename snap.interfaceRoot)

section Loaded
variable {allLoaded : List AidlInterface} {targets : Targets}

theorem registers_current {i : AidlInterface} (member : i ∈ allLoaded) :
    ∃ j, (interfacesOf allLoaded).get? i.baseName = some j ∧
      Registers (i.baseName, j) (cppTarget i.baseName currentVersion) := by
  have key : i.baseName ∈ (interfacesOf allLoaded).keys :=
    Dict.mem_keys_ofPairs.mpr (List.mem_map.mpr ⟨_, List.mem_map_of_mem member, rfl⟩)
  obtain ⟨j, known⟩ := Dict.exists_get? key
  exact ⟨j, known, .inl rfl⟩

theorem mem_keys_current (libs : libDeps allLoaded = .ok targets) {i : AidlInterface} (member : i ∈ allLoaded) :
    cppTarget i.baseName currentVersion ∈ targets.keys := by
  cases libs.symm.trans (libDeps_eq allLoaded)
  obtain ⟨j, known, own⟩ := registers_current member
  exact mem_keys_foldl_registerSnapshot.mpr (.inl ⟨_, j, known, own⟩)

theorem exists_cppTarget (libs : libDeps allLoaded = .ok targets) {k : Text} (member : k ∈ targets.keys) :
    ∃ name version, k = cppTarget name version := by
  cases libs.symm.trans (libDeps_eq allLoaded)
  rcases mem_keys_foldl_registerSnapshot.mp member with ⟨name, i, -, rfl | ⟨ver, -, rfl⟩⟩ | ⟨snap, -, -, rfl⟩
  · exact ⟨_, _, rfl⟩
  · exact ⟨_, _, rfl⟩
  · exact ⟨_, _, rfl⟩

theorem plainNames_iff (libs : libDeps allLoaded = .ok targets) :
    PlainNames allLoaded ↔ allLoaded ≠ [] ∧ ∀ k ∈ targets.keys, Plain k := by
  cases libs.symm.trans (libDeps_eq allLoaded)
  have current : Plain currentVersion := by decide
  constructor
  · intro names
    refine ⟨names.some_, fun k member => ?_⟩
    rcases mem_keys_foldl_registerSnapshot.mp member with ⟨name, i, known, own⟩ | ⟨snap, among, -, rfl⟩
    · obtain ⟨among, rfl⟩ := mem_of_interfacesOf known
      rcases own with rfl | ⟨ver, listed, rfl⟩
      · exact plain_cppTarget.mpr ⟨names.names i among, current⟩
      · exact plain_cppTarget.mpr ⟨names.names i among, names.versions _ i known ver listed⟩
    · exact plain_cppTarget.mpr ⟨names.names snap among, names.snapshots snap among⟩
  · rintro ⟨some_, plain⟩
    have own : ∀ name i k, (interfacesOf allLoaded).get? name = some i → Registers (name, i) k → Plain k :=
      fun name i k known registers =>
        plain k (mem_keys_foldl_registerSnapshot.mpr (.inl ⟨name, i, known, registers⟩))
    refine ⟨some_, fun i member => ?_, fun name i known ver listed => ?_, fun snap member => ?_⟩
    · exact (plain_cppTarget.mp (plain _ (mem_keys_current (libDeps_eq allLoaded) member))).1
    · exact (plain_cppTarget.mp (own name i _ known (.inr ⟨ver, listed, rfl⟩))).2
    · by_cases here : basename snap.interfaceRoot = currentVersion
      · rw [here]
        exact current
      · have target := plain _ (mem_keys_foldl_registerSnapshot.mpr (.inr ⟨snap, member, here, rfl⟩))
        exact (plain_cppTarget.mp target).2

/-- The build reads the same targets, in the same order, with the same dependencies. -/
def ReadsBack (allLoaded : List AidlInterface) (text : Text) : Prop :=
  ∃ targets order, libDeps allLoaded = .ok targets ∧ topologicalSort targets = .ok order ∧
    readInterfacesLibDependencies (dependenciesFile text) = some (order.map fun lib => (lib, depsOf targets lib))

/-- A generated file is read as it was written exactly when there is an interface and no name or version of a target
    has a character that the reader does not know. -/
theorem dependencies_read_back_iff {text : Text} (generated : generateLibrariesDependencies allLoaded = .ok text) :
    ReadsBack allLoaded text ↔ PlainNames allLoaded := by
  obtain ⟨targets, order, libs, closed, sorted, build, rfl⟩ := generate_eq_ok generated
  rw [plainNames_iff libs]
  constructor
  · rintro ⟨targets', order', libs', sorted', read⟩
    cases libs.symm.trans libs'
    cases sorted.symm.trans sorted'
    refine ⟨fun none_ => ?_, fun k member => ?_⟩
    · subst none_
      cases libs
      have empty : order = [] := List.eq_nil_iff_forall_not_mem.mpr fun k member =>
        List.not_mem_nil ((build.complete k).mp member)
      rw [empty] at read
      cases read
    · exact plain_of_read read _ (List.mem_map_of_mem ((build.complete k).mpr member))
  · rintro ⟨some_, plain⟩
    refine ⟨targets, order, libs, sorted, ?_⟩
    have known : ∀ k ∈ targets.keys, k ≠ [] ∧ Plain k := by
      intro k member
      obtain ⟨name, version, rfl⟩ := exists_cppTarget libs member
      exact ⟨by rw [cppTarget]; simp, plain _ member⟩
    have names : ∀ lib ∈ order, (lib ≠ [] ∧ Plain lib) ∧ ∀ dep ∈ depsOf targets lib, dep ≠ [] ∧ Plain dep := by
      intro lib member
      exact ⟨known lib ((build.complete lib).mp member), fun dep needs => known dep (mem_keys_of_closed closed needs)⟩
    have written : dependenciesFile (order.flatMap (dependencyLine targets)) =
        some (order.flatMap (dependencyLine targets)) := by
      refine if_neg fun empty => ?_
      have none_ : order.length = 0 := by
        have le := length_le_lines targets order
        rw [empty, List.length_nil] at le
        omega
      obtain ⟨i, rest, rfl⟩ := List.exists_cons_of_ne_nil some_
      have target := mem_keys_current libs (List.mem_cons_self (a := i) (l := rest))
      rw [← build.complete, List.length_eq_zero_iff.mp none_] at target
      cases target
    rw [written, read_lines names]

end Loaded

/-! ### A version with another character -/

/-- `common` with one frozen version and `video`, which imports that version. -/
def releasedCommon (version : Text) : List AidlInterface :=
  [⟨"common".toList, "common/current".toList, "central".toList, [], Dict.empty, none, 1, Dict.ofPairs [(version, [])]⟩,
    ⟨"video".toList, "video/current".toList, "central".toList, ["common".toList],
      Dict.ofPairs [("common".toList, some version)], none, 0, Dict.empty⟩]

/-- The file that is written for it. -/
def releasedFile (version : Text) : Text :=
  "common-v".toList ++ version ++ "-cpp: \nvideo-vcurrent-cpp: common-v".toList ++ version ++
    "-cpp\ncommon-vcurrent-cpp: \n".toList

theorem dependencies_read_back_released :
    generateLibrariesDependencies (releasedCommon "0.1.0.0".toList) = .ok (releasedFile "0.1.0.0".toList) ∧
      (ReadsBack (releasedCommon "0.1.0.0".toList) (releasedFile "0.1.0.0".toList) ↔
        PlainNames (releasedCommon "0.1.0.0".toList)) := by
  have generated :
      generateLibrariesDependencies (releasedCommon "0.1.0.0".toList) = .ok (releasedFile "0.1.0.0".toList) := by
    decide +kernel
  exact ⟨generated, dependencies_read_back_iff generated⟩

/-- The `+` of a pre-release ends the name for the reader, which goes on with the rest as a target of its own. -/
theorem prerelease_target_misread :
    generateLibrariesDependencies (releasedCommon "1.0+rc1".toList) = .ok (releasedFile "1.0+rc1".toList) ∧
      ¬ ReadsBack (releasedCommon "1.0+rc1".toList) (releasedFile "1.0+rc1".toList) := by
  have generated :
      generateLibrariesDependencies (releasedCommon "1.0+rc1".toList) = .ok (releasedFile "1.0+rc1".toList) := by
    decide +kernel
  refine ⟨generated, ?_⟩
  rintro ⟨targets, order, libs, sorted, read⟩
  obtain ⟨targets', order', libs', -, sorted', build, -⟩ := generate_eq_ok generated
  cases libs.symm.trans libs'
  cases sorted.symm.trans sorted'
  have target : cppTarget "common".toList "1.0+rc1".toList ∈ targets.keys := by
    cases libs.symm.trans (libDeps_eq (releasedCommon "1.0+rc1".toList))
    decide +kernel
  have strange : ¬ Plain (cppTarget "common".toList "1.0+rc1".toList) := by decide +kernel
  exact strange (plain_of_read read _ (List.mem_map_of_mem ((build.complete _).mpr target)))

end BinderIdl.Interface
