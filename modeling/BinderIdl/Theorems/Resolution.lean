import BinderIdl.Graph.Postorder
import BinderIdl.Theorems.Linking

/-! `process_imports` as a walk: what it asks for, in which order, does not depend on what has been found before. -/

namespace BinderIdl.Interface
open Py Graph

variable {host : Host} {interfaces : Dict Text AidlInterface} {mode : ImportVerType}

/-- A call of `process_imports`; `direct` is `rec_counter == 1`. -/
structure Call where
  direct : Bool
  interface : AidlInterface
  version : Text
deriving DecidableEq

def Call.name (c : Call) : Text := c.interface.baseName

/-- The calls that a call makes. -/
def importedCalls (interfaces : Dict Text AidlInterface) (mode : ImportVerType) (c : Call) :
    Except ToolError (List Call) := do
  let imports ← importsToProcess mode c.direct c.interface c.version
  imports.entries.mapM fun e => do
    let imp ← lookupInterface interfaces e.1
    return ⟨false, imp, versionToProcess mode imp e.2⟩

/-- What a call does when those that it makes are done. -/
def record (host : Host) (deps : Dependencies) (c : Call) : Except ToolError Dependencies :=
  if c.direct then .ok deps else addDependency host deps c.interface c.version

/-- All calls below a call, and the call itself, in the order in which they end. -/
def calls (interfaces : Dict Text AidlInterface) (mode : ImportVerType) : ℕ → Call → Except ToolError (List Call) :=
  postorder (importedCalls interfaces mode) .recursionDepth

/-! ### Calls and results -/

theorem importedCalls_eq_ok {c : Call} {below : List Call} : importedCalls interfaces mode c = .ok below ↔
    ∃ imports, importsToProcess mode c.direct c.interface c.version = .ok imports ∧
      List.Forall₂ (fun e b => ∃ imp, interfaces.get? e.1 = some imp ∧ b = ⟨false, imp, versionToProcess mode imp e.2⟩)
        imports.entries below := by
  rw [importedCalls, bind_eq_ok]
  refine exists_congr fun imports => and_congr_right fun _ => ?_
  rw [mapM_eq_ok_iff_forall₂]
  refine iff_of_eq (congrArg (fun r => List.Forall₂ r imports.entries below) (funext₂ fun e b => propext ?_))
  rw [bind_eq_ok]
  refine exists_congr fun imp => ?_
  rw [lookupInterface_eq_ok]
  exact and_congr_right fun _ => ⟨fun h => (Except.ok.inj h).symm, fun h => congrArg Except.ok h.symm⟩

theorem foldlM_flatten_cons {σ β ε : Type} {f : σ → β → Except ε σ} {l : List β} {lists : List (List β)} {s t : σ} :
    (l :: lists).flatten.foldlM f s = .ok t ↔ ∃ u, l.foldlM f s = .ok u ∧ lists.flatten.foldlM f u = .ok t := by
  rw [List.flatten_cons, List.foldlM_append, bind_eq_ok]

/-- The loop over the imports is the walk over the calls that it makes. -/
theorem importLoop_eq_ok {depth : ℕ} {es : List (Text × Text)} {deps deps' : Dependencies}
    (ih : ∀ c deps deps', processImports host interfaces mode depth c.direct c.interface c.version deps = .ok deps' ↔
      ∃ l, calls interfaces mode depth c = .ok l ∧ l.foldlM (record host) deps = .ok deps') :
    (es.foldlM (fun deps e => do
      let imp ← lookupInterface interfaces e.1
      processImports host interfaces mode depth false imp (versionToProcess mode imp e.2) deps) deps) = .ok deps' ↔
    ∃ below lists, List.Forall₂
        (fun e b => ∃ imp, interfaces.get? e.1 = some imp ∧ b = ⟨false, imp, versionToProcess mode imp e.2⟩) es below ∧
      List.Forall₂ (fun b l => calls interfaces mode depth b = .ok l) below lists ∧
        lists.flatten.foldlM (record host) deps = .ok deps' := by
  induction es generalizing deps with
  | nil =>
    constructor
    · intro done
      exact ⟨[], [], .nil, .nil, done⟩
    · rintro ⟨_, _, ⟨⟩, ⟨⟩, done⟩
      exact done
  | cons e es rest =>
    rw [List.foldlM_cons, bind_eq_ok]
    constructor
    · rintro ⟨middle, first, later⟩
      obtain ⟨imp, found, call⟩ := bind_eq_ok.mp first
      obtain ⟨l, walk, done⟩ := (ih ⟨false, imp, versionToProcess mode imp e.2⟩ deps middle).mp call
      obtain ⟨below, lists, found', walks, done'⟩ := rest.mp later
      exact ⟨_, _, .cons ⟨imp, lookupInterface_eq_ok.mp found, rfl⟩ found', .cons walk walks,
        foldlM_flatten_cons.mpr ⟨middle, done, done'⟩⟩
    · rintro ⟨all, lists, matched, walks, done⟩
      obtain ⟨b, below, ⟨imp, found, rfl⟩, found', rfl⟩ := List.forall₂_cons_left_iff.mp matched
      obtain ⟨l, lists, walk, walks', rfl⟩ := List.forall₂_cons_left_iff.mp walks
      obtain ⟨middle, done, done'⟩ := foldlM_flatten_cons.mp done
      refine ⟨middle, bind_eq_ok.mpr ⟨imp, lookupInterface_eq_ok.mpr found, ?_⟩, rest.mpr ⟨below, lists, found', walks', done'⟩⟩
      exact (ih ⟨false, imp, versionToProcess mode imp e.2⟩ deps middle).mpr ⟨l, walk, done⟩

/-- `process_imports` ends normally exactly when its walk does and each result can be recorded. -/
theorem processImports_eq_ok {depth : ℕ} {c : Call} {deps deps' : Dependencies} :
    processImports host interfaces mode depth c.direct c.interface c.version deps = .ok deps' ↔
      ∃ l, calls interfaces mode depth c = .ok l ∧ l.foldlM (record host) deps = .ok deps' := by
  induction depth generalizing c deps deps' with
  | zero => exact ⟨fun h => (by cases h), fun ⟨_, h, _⟩ => by cases h⟩
  | succ depth ih =>
    rw [processImports, bind_eq_ok]
    constructor
    · rintro ⟨imports, found, rest⟩
      obtain ⟨middle, loop, done⟩ := bind_eq_ok.mp rest
      obtain ⟨below, lists, found', walks, recorded⟩ := (importLoop_eq_ok fun c d d' => ih).mp loop
      refine ⟨lists.flatten ++ [c], postorder_succ_eq_ok.mpr
        ⟨below, lists, importedCalls_eq_ok.mpr ⟨imports, found, found'⟩, walks, rfl⟩, ?_⟩
      exact foldlM_concat_eq_ok.mpr ⟨middle, recorded, done⟩
    · rintro ⟨l, walk, recorded⟩
      obtain ⟨below, lists, found', walks, rfl⟩ := postorder_succ_eq_ok.mp walk
      obtain ⟨imports, found, matched⟩ := importedCalls_eq_ok.mp found'
      obtain ⟨middle, recorded, done⟩ := foldlM_concat_eq_ok.mp recorded
      exact ⟨imports, found, bind_eq_ok.mpr
        ⟨middle, (importLoop_eq_ok fun c d d' => ih).mpr ⟨below, lists, matched, walks, recorded⟩, done⟩⟩

theorem child_direct {c b : Call} (child : Child (importedCalls interfaces mode) c b) : b.direct = false := by
  obtain ⟨below, found, member⟩ := child
  obtain ⟨imports, -, matched⟩ := importedCalls_eq_ok.mp found
  obtain ⟨e, -, imp, -, rfl⟩ := exists_left_of_mem matched member
  rfl

/-- A call is found under its name. -/
def Call.Known (interfaces : Dict Text AidlInterface) (c : Call) : Prop := interfaces.get? c.name = some c.interface

theorem exists_import_of_child (named : Named interfaces) {c b : Call}
    (child : Child (importedCalls interfaces mode) c b) :
    b.Known interfaces ∧ ∃ imports pin, importsToProcess mode c.direct c.interface c.version = .ok imports ∧
      imports.get? b.name = some pin ∧ b.version = versionToProcess mode b.interface pin := by
  obtain ⟨below, found, member⟩ := child
  obtain ⟨imports, read, matched⟩ := importedCalls_eq_ok.mp found
  obtain ⟨e, entry, imp, known, rfl⟩ := exists_left_of_mem matched member
  have name : imp.baseName = e.1 := named _ _ known
  exact ⟨(congrArg interfaces.get? name).trans known, imports, e.2, read,
    (congrArg imports.get? name).trans (Dict.get?_of_mem_entries entry), rfl⟩

theorem exists_importedCalls {c : Call} {imports : Dict Text Text}
    (read : importsToProcess mode c.direct c.interface c.version = .ok imports)
    (loaded : ∀ name pin, imports.get? name = some pin → ∃ j, interfaces.get? name = some j) :
    ∃ below, importedCalls interfaces mode c = .ok below := by
  have each : ∀ e ∈ imports.entries, ∃ b : Call,
      ∃ imp, interfaces.get? e.1 = some imp ∧ b = ⟨false, imp, versionToProcess mode imp e.2⟩ := by
    intro e member
    obtain ⟨j, known⟩ := loaded e.1 e.2 (Dict.get?_of_mem_entries member)
    exact ⟨_, j, known, rfl⟩
  obtain ⟨below, matched⟩ := exists_forall₂ each
  exact ⟨below, importedCalls_eq_ok.mpr ⟨imports, read, matched⟩⟩

theorem child_of_import {c : Call} {imports : Dict Text Text} {name pin : Text} {j : AidlInterface}
    (read : importsToProcess mode c.direct c.interface c.version = .ok imports)
    (found : ∃ below, importedCalls interfaces mode c = .ok below) (imported : imports.get? name = some pin)
    (known : interfaces.get? name = some j) :
    Child (importedCalls interfaces mode) c ⟨false, j, versionToProcess mode j pin⟩ := by
  obtain ⟨below, found⟩ := found
  obtain ⟨imports', read', matched⟩ := importedCalls_eq_ok.mp found
  cases read.symm.trans read'
  obtain ⟨b, member, imp, known', rfl⟩ := exists_right_of_mem matched (Dict.mem_entries_of_get? imported)
  cases known.symm.trans known'
  exact ⟨below, found, member⟩

theorem calls_concat {depth : ℕ} {c : Call} {l : List Call} (walk : calls interfaces mode depth c = .ok l) :
    ∃ l', l = l' ++ [c] := by
  cases depth with
  | zero => cases walk
  | succ depth =>
    obtain ⟨_, lists, -, -, rfl⟩ := postorder_succ_eq_ok.mp walk
    exact ⟨lists.flatten, rfl⟩

/-- The first call records nothing. -/
theorem foldlM_concat_direct {c : Call} (direct : c.direct = true) {l : List Call} {deps : Dependencies} :
    (l ++ [c]).foldlM (record host) deps = l.foldlM (record host) deps := by
  rw [List.foldlM_append]
  cases l.foldlM (record host) deps with
  | error e => rfl
  | ok middle =>
    rw [ok_bind, List.foldlM_cons, record, if_pos direct]
    rfl

/-- `get_dependencies` records everything that is asked for but what it starts with. -/
theorem getDependencies_eq_ok {i : AidlInterface} {version : Text} {isFreezeApi : Bool} {deps : Dependencies} :
    getDependencies host interfaces i version isFreezeApi = .ok deps ↔
      ¬(importVerType i version isFreezeApi = .frozen ∧ version = []) ∧
        ∃ l, calls interfaces (importVerType i version isFreezeApi) host.recursionLimit ⟨true, i, version⟩ =
            .ok (l ++ [⟨true, i, version⟩]) ∧ l.foldlM (record host) Dict.empty = .ok deps := by
  rw [getDependencies]
  by_cases empty : importVerType i version isFreezeApi = .frozen ∧ version = []
  · rw [if_pos empty]
    exact ⟨fun h => (by cases h), fun h => absurd empty h.1⟩
  · rw [if_neg empty]
    refine Iff.trans (processImports_eq_ok (c := (⟨true, i, version⟩ : Call))) ?_
    constructor
    · rintro ⟨l, walk, recorded⟩
      obtain ⟨l, rfl⟩ := calls_concat walk
      rw [foldlM_concat_direct rfl] at recorded
      exact ⟨empty, l, walk, recorded⟩
    · rintro ⟨-, l, walk, recorded⟩
      exact ⟨_, walk, (foldlM_concat_direct rfl).trans recorded⟩

/-! ### What is recorded -/

/-- The same version, or not a higher number. -/
def NotNewer (v w : Text) : Prop := v = w ∨ ∃ n m, int? v = some n ∧ int? w = some m ∧ n ≤ m

theorem NotNewer.trans {u v w : Text} (first : NotNewer u v) (second : NotNewer v w) : NotNewer u w := by
  rcases first with rfl | ⟨n, m, numU, numV, le⟩
  · exact second
  · rcases second with rfl | ⟨m', k, numV', numW, le'⟩
    · exact .inr ⟨n, m, numU, numV, le⟩
    · cases numV.symm.trans numV'
      exact .inr ⟨n, k, numU, numW, le.trans le'⟩

theorem NotNewer.isSome {v w : Text} (le : NotNewer v w) (number : (int? w).isSome) : (int? v).isSome := by
  rcases le with rfl | ⟨n, -, numV, -⟩
  · exact number
  · rw [numV]
    rfl

/-- The entry that a call leaves. -/
def Call.entry (c : Call) : Dependency := ⟨c.version, versionDir c.interface c.version⟩

/-- The dependencies are what was asked for, at the highest version asked for. -/
structure Summarises (asked : Call → Prop) (deps : Dependencies) : Prop where
  sound : ∀ k dep, deps.get? k = some dep → ∃ c, asked c ∧ c.name = k ∧ dep = c.entry
  highest : ∀ c, asked c → ∃ dep, deps.get? c.name = some dep ∧ NotNewer c.version dep.version

theorem intOf_eq_ok {t : Text} {n : Int} : intOf t = .ok n ↔ int? t = some n := by
  rw [intOf]
  cases int? t with
  | none => exact ⟨fun h => (by cases h), fun h => by cases h⟩
  | some m => exact ⟨fun h => congrArg some (Except.ok.inj h), fun h => congrArg Except.ok (Option.some.inj h)⟩

theorem record_of_new {deps deps' : Dependencies} {c : Call} (indirect : c.direct = false)
    (new : deps.get? c.name = none) : record host deps c = .ok deps' ↔
      aidlGenPreprocessed host c.interface c.version deps = .ok () ∧ deps' = deps.set c.name c.entry := by
  have new' : deps.get? c.interface.baseName = none := new
  rw [record, indirect, if_neg Bool.false_ne_true, addDependency, new']
  constructor
  · intro added
    obtain ⟨_, preprocessed, done⟩ := bind_eq_ok.mp added
    cases done
    exact ⟨preprocessed, rfl⟩
  · rintro ⟨preprocessed, rfl⟩
    exact bind_eq_ok.mpr ⟨(), preprocessed, rfl⟩

theorem record_of_old {deps deps' : Dependencies} {c : Call} {old : Dependency} (indirect : c.direct = false)
    (known : deps.get? c.name = some old) : record host deps c = .ok deps' ↔
      ∃ n m, int? old.version = some n ∧ int? c.version = some m ∧
        (m ≤ n ∧ deps' = deps ∨ n < m ∧ aidlGenPreprocessed host c.interface c.version (deps.erase c.name) = .ok () ∧
          deps' = (deps.erase c.name).set c.name c.entry) := by
  have known' : deps.get? c.interface.baseName = some old := known
  rw [record, indirect, if_neg Bool.false_ne_true, addDependency, known']
  simp only [bind_eq_ok, intOf_eq_ok]
  refine exists_congr fun n => ?_
  constructor
  · rintro ⟨numOld, m, num, added⟩
    refine ⟨m, numOld, num, ?_⟩
    by_cases newer : n ≥ m
    · rw [if_pos newer] at added
      cases added
      exact .inl ⟨newer, rfl⟩
    · rw [if_neg newer] at added
      obtain ⟨_, preprocessed, done⟩ := bind_eq_ok.mp added
      cases done
      exact .inr ⟨not_le.mp newer, preprocessed, rfl⟩
  · rintro ⟨m, numOld, num, ⟨le, rfl⟩ | ⟨lt, preprocessed, rfl⟩⟩
    · exact ⟨numOld, m, num, if_pos le⟩
    · exact ⟨numOld, m, num, (if_neg (not_le.mpr lt)).trans (bind_eq_ok.mpr ⟨(), preprocessed, rfl⟩)⟩

theorem record_eq_ok {deps deps' : Dependencies} {c : Call} (indirect : c.direct = false)
    (recorded : record host deps c = .ok deps') :
    (deps' = deps ∧ ∃ old, deps.get? c.name = some old ∧ NotNewer c.version old.version) ∨
      (∀ k, deps'.get? k = if k = c.name then some c.entry else deps.get? k) ∧
        ∀ old, deps.get? c.name = some old → NotNewer old.version c.version := by
  cases known : deps.get? c.name with
  | none =>
    obtain ⟨-, rfl⟩ := (record_of_new indirect known).mp recorded
    exact .inr ⟨fun k => Dict.get?_set _ _ _ _, fun old h => by cases h⟩
  | some old =>
    obtain ⟨n, m, numOld, num, ⟨le, rfl⟩ | ⟨lt, -, rfl⟩⟩ := (record_of_old indirect known).mp recorded
    · exact .inl ⟨rfl, old, rfl, .inr ⟨m, n, num, numOld, le⟩⟩
    · refine .inr ⟨fun k => ?_, fun old' same => ?_⟩
      · rw [Dict.get?_set, Dict.get?_erase]
        by_cases same : k = c.name
        · rw [if_pos same, if_pos same]
        · rw [if_neg same, if_neg same, if_neg same]
      · cases same
        exact .inr ⟨n, m, numOld, num, lt.le⟩

theorem Summarises.concat {l : List Call} {c : Call} {deps deps' : Dependencies} (summary : Summarises (· ∈ l) deps)
    (indirect : c.direct = false) (recorded : record host deps c = .ok deps') : Summarises (· ∈ l ++ [c]) deps' := by
  rcases record_eq_ok indirect recorded with ⟨rfl, old, known, newer⟩ | ⟨set, older⟩
  · refine ⟨fun k dep entry => ?_, fun b member => ?_⟩
    · obtain ⟨b, member, same⟩ := summary.sound k dep entry
      exact ⟨b, List.mem_append_left _ member, same⟩
    · rcases List.mem_append.mp member with before | last
      · exact summary.highest b before
      · rw [List.mem_singleton.mp last]
        exact ⟨old, known, newer⟩
  · refine ⟨fun k dep entry => ?_, fun b member => ?_⟩
    · rw [set] at entry
      by_cases same : k = c.name
      · rw [if_pos same] at entry
        cases entry
        exact ⟨c, List.mem_append_right _ List.mem_cons_self, same.symm, rfl⟩
      · rw [if_neg same] at entry
        obtain ⟨b, member, same⟩ := summary.sound k dep entry
        exact ⟨b, List.mem_append_left _ member, same⟩
    · rw [set]
      rcases List.mem_append.mp member with before | last
      · obtain ⟨old, known, le⟩ := summary.highest b before
        by_cases same : b.name = c.name
        · rw [if_pos same]
          exact ⟨c.entry, rfl, le.trans (older old (same ▸ known))⟩
        · rw [if_neg same]
          exact ⟨old, known, le⟩
      · rw [List.mem_singleton.mp last, if_pos rfl]
        exact ⟨c.entry, rfl, .inl rfl⟩

theorem summarises_of_foldlM {l : List Call} {deps : Dependencies} (indirect : ∀ c ∈ l, c.direct = false)
    (recorded : l.foldlM (record host) Dict.empty = .ok deps) : Summarises (· ∈ l) deps := by
  induction l using List.reverseRecOn generalizing deps with
  | nil =>
    cases recorded
    exact ⟨fun k dep entry => (by cases entry), fun c member => absurd member List.not_mem_nil⟩
  | append_singleton l c ih =>
    obtain ⟨middle, before, last⟩ := foldlM_concat_eq_ok.mp recorded
    have summary := ih (fun b member => indirect b (List.mem_append_left _ member)) before
    exact summary.concat (indirect c (List.mem_append_right _ List.mem_cons_self)) last

/-! ### Versions that can be compared -/

/-- An interface that is asked for twice is only asked for at numbers. -/
def Comparable (l : List Call) : Prop := ∀ c ∈ l, 2 ≤ l.countP (·.name = c.name) → (int? c.version).isSome

theorem Comparable.of_concat {l : List Call} {c : Call} (comparable : Comparable (l ++ [c])) : Comparable l := by
  intro b member twice
  refine comparable b (List.mem_append_left _ member) ?_
  rw [List.countP_append]
  omega

theorem two_le_countP_concat {l : List Call} {b c : Call} (member : b ∈ l) (same : b.name = c.name) :
    2 ≤ (l ++ [c]).countP (·.name = c.name) := by
  have before : 0 < l.countP (·.name = c.name) := List.countP_pos_iff.mpr ⟨b, member, decide_eq_true same⟩
  rw [List.countP_append, List.countP_singleton, if_pos (decide_eq_true rfl)]
  omega

theorem comparable_of_foldlM {l : List Call} {deps : Dependencies} (indirect : ∀ c ∈ l, c.direct = false)
    (recorded : l.foldlM (record host) Dict.empty = .ok deps) : Comparable l := by
  induction l using List.reverseRecOn generalizing deps with
  | nil => exact fun c member => absurd member List.not_mem_nil
  | append_singleton l c ih =>
    obtain ⟨middle, before, last⟩ := foldlM_concat_eq_ok.mp recorded
    have indirect' : ∀ b ∈ l, b.direct = false := fun b member => indirect b (List.mem_append_left _ member)
    have summary := summarises_of_foldlM indirect' before
    have indirectC := indirect c (List.mem_append_right _ List.mem_cons_self)
    -- a call for the interface of the last one makes both of them numbers
    have compared : ∀ b ∈ l, b.name = c.name → (int? b.version).isSome ∧ (int? c.version).isSome := by
      intro b member same
      obtain ⟨old, known, le⟩ := summary.highest b member
      rw [same] at known
      obtain ⟨n, m, numOld, num, -⟩ := (record_of_old indirectC known).mp last
      exact ⟨le.isSome (by rw [numOld]; rfl), by rw [num]; rfl⟩
    intro b member twice
    rw [List.countP_append, List.countP_singleton] at twice
    rcases List.mem_append.mp member with inside | last'
    · by_cases same : b.name = c.name
      · exact (compared b inside same).1
      · rw [if_neg (by simpa using fun h => same h.symm)] at twice
        exact ih indirect' before b inside twice
    · rw [List.mem_singleton.mp last'] at twice ⊢
      rw [if_pos (decide_eq_true rfl)] at twice
      obtain ⟨b', inside, same⟩ := List.countP_pos_iff.mp (by omega : 0 < l.countP (·.name = c.name))
      exact (compared b' inside (of_decide_eq_true same)).2

/-- Every call is preprocessed when all other interfaces of the calls before it are there. -/
def Preprocessed (host : Host) (l : List Call) : Prop :=
  ∀ before c after, l = before ++ c :: after → ∀ deps : Dependencies,
    (∀ b ∈ before, b.name ≠ c.name → b.name ∈ deps.keys) →
      aidlGenPreprocessed host c.interface c.version deps = .ok ()

theorem Preprocessed.of_concat {l : List Call} {c : Call} (accepts : Preprocessed host (l ++ [c])) :
    Preprocessed host l := by
  rintro before b after rfl
  exact accepts before b (after ++ [c]) (by simp)

theorem foldlM_record_ends {l : List Call} (indirect : ∀ c ∈ l, c.direct = false) (comparable : Comparable l)
    (accepts : Preprocessed host l) : ∃ deps, l.foldlM (record host) Dict.empty = .ok deps := by
  induction l using List.reverseRecOn with
  | nil => exact ⟨Dict.empty, rfl⟩
  | append_singleton l c ih =>
    have indirect' : ∀ b ∈ l, b.direct = false := fun b member => indirect b (List.mem_append_left _ member)
    obtain ⟨middle, before⟩ := ih indirect' comparable.of_concat accepts.of_concat
    have summary := summarises_of_foldlM indirect' before
    have indirectC := indirect c (List.mem_append_right _ List.mem_cons_self)
    have keys : ∀ b ∈ l, b.name ∈ middle.keys := by
      intro b member
      obtain ⟨old, known, -⟩ := summary.highest b member
      exact Dict.mem_keys_of_get? known
    suffices last : ∃ deps, record host middle c = .ok deps by
      obtain ⟨deps, last⟩ := last
      exact ⟨deps, foldlM_concat_eq_ok.mpr ⟨middle, before, last⟩⟩
    cases known : middle.get? c.name with
    | none =>
      exact ⟨_, (record_of_new indirectC known).mpr ⟨accepts l c [] rfl middle fun b member _ => keys b member, rfl⟩⟩
    | some old =>
      obtain ⟨b, member, same, rfl⟩ := summary.sound _ _ known
      have twice := two_le_countP_concat member same
      obtain ⟨m, num⟩ := Option.isSome_iff_exists.mp
        (comparable c (List.mem_append_right _ List.mem_cons_self) twice)
      obtain ⟨n, numB⟩ := Option.isSome_iff_exists.mp
        (comparable b (List.mem_append_left _ member) (same ▸ twice))
      rcases le_or_gt m n with le | lt
      · exact ⟨_, (record_of_old indirectC known).mpr ⟨n, m, numB, num, .inl ⟨le, rfl⟩⟩⟩
      · refine ⟨_, (record_of_old indirectC known).mpr ⟨n, m, numB, num, .inr ⟨lt, ?_, rfl⟩⟩⟩
        refine accepts l c [] rfl _ fun b' member' other => ?_
        rw [Dict.mem_keys_iff, Dict.get?_erase, if_neg other]
        exact Dict.mem_keys_iff.mp (keys b' member')

/-! ### All dependencies of an interface -/

section Root
variable {i : AidlInterface} {version : Text} {isFreezeApi : Bool} {deps : Dependencies}

/-- A call that the resolution for a version makes, directly or not. -/
def Asked (interfaces : Dict Text AidlInterface) (mode : ImportVerType) (i : AidlInterface) (version : Text) (c : Call) :
    Prop :=
  Relation.TransGen (Child (importedCalls interfaces mode)) ⟨true, i, version⟩ c

theorem Asked.exists_child {c : Call} (asked : Asked interfaces mode i version c) :
    ∃ b, Child (importedCalls interfaces mode) b c := by
  cases asked with
  | single child => exact ⟨_, child⟩
  | tail _ child => exact ⟨_, child⟩

theorem Asked.direct {c : Call} (asked : Asked interfaces mode i version c) : c.direct = false := by
  obtain ⟨b, child⟩ := asked.exists_child
  exact child_direct child

/-- Every other call of the resolution for the next version is for the next version of its interface. -/
theorem version_of_asked_next (named : Named interfaces) {c : Call} (asked : Asked interfaces .next i version c) :
    c.Known interfaces ∧ c.version = c.interface.nextVersion := by
  obtain ⟨b, child⟩ := asked.exists_child
  obtain ⟨known, imports, pin, -, -, same⟩ := exists_import_of_child named child
  exact ⟨known, same⟩

theorem isSome_of_asked_next (named : Named interfaces) (stable : ∀ k i, interfaces.get? k = some i → ¬i.unstable)
    {c : Call} (asked : Asked interfaces .next i version c) : (int? c.version).isSome := by
  obtain ⟨known, same⟩ := version_of_asked_next named asked
  rw [same, AidlInterface.nextVersion_of_stable (stable _ _ known), versionNumber, int?_ofInt]
  rfl

theorem mem_calls_iff {depth : ℕ} {l : List Call} {c : Call}
    (walk : calls interfaces mode depth ⟨true, i, version⟩ = .ok (l ++ [⟨true, i, version⟩])) :
    c ∈ l ↔ Asked interfaces mode i version c := by
  cases depth with
  | zero => cases walk
  | succ depth =>
    obtain ⟨below, lists, found, walks, same⟩ := postorder_succ_eq_ok.mp walk
    obtain ⟨rfl, -⟩ := List.append_inj' same rfl
    rw [Asked, Relation.TransGen.head'_iff]
    constructor
    · intro inside
      obtain ⟨l, member, inside⟩ := List.mem_flatten.mp inside
      obtain ⟨b, child, walk⟩ := exists_left_of_mem walks member
      exact ⟨b, (child_iff found).mpr child, (mem_postorder walk).mp inside⟩
    · rintro ⟨b, child, reached⟩
      obtain ⟨l, member, walk⟩ := exists_right_of_mem walks ((child_iff found).mp child)
      exact List.mem_flatten.mpr ⟨l, member, (mem_postorder walk).mpr reached⟩

/-- Whatever `get_dependencies` returns summarises what it asks for. -/
theorem getDependencies_summarises (resolved : getDependencies host interfaces i version isFreezeApi = .ok deps) :
    Summarises (Asked interfaces (importVerType i version isFreezeApi) i version) deps := by
  obtain ⟨-, l, walk, recorded⟩ := getDependencies_eq_ok.mp resolved
  have member := fun c => mem_calls_iff (c := c) walk
  have summary := summarises_of_foldlM (fun c inside => ((member c).mp inside).direct) recorded
  refine ⟨fun k dep entry => ?_, fun c asked => summary.highest c ((member c).mpr asked)⟩
  obtain ⟨c, inside, same⟩ := summary.sound k dep entry
  exact ⟨c, (member c).mp inside, same⟩

theorem map_name_of_matched (named : Named interfaces) {es : List (Text × Text)} {below : List Call}
    (matched : List.Forall₂
      (fun e b => ∃ imp, interfaces.get? e.1 = some imp ∧ b = ⟨false, imp, versionToProcess mode imp e.2⟩) es below) :
    below.map Call.name = es.map Prod.fst := by
  induction matched with
  | nil => rfl
  | @cons e b es below first _ ih =>
    obtain ⟨imp, known, rfl⟩ := first
    rw [List.map_cons, List.map_cons, ih]
    exact congrArg (· :: _) (named _ _ known)

theorem nodup_importedCalls (named : Named interfaces) {c : Call} {below : List Call}
    (found : importedCalls interfaces mode c = .ok below) : below.Nodup := by
  obtain ⟨imports, -, matched⟩ := importedCalls_eq_ok.mp found
  have names := imports.nodup_keys
  rw [Dict.keys, ← map_name_of_matched named matched] at names
  exact List.Nodup.of_map _ names

/-- Two import paths lead to the interface of this name. -/
def AskedTwice (interfaces : Dict Text AidlInterface) (mode : ImportVerType) (i : AidlInterface) (version : Text)
    (name : Text) : Prop :=
  Twice (Child (importedCalls interfaces mode)) (fun c => c.direct = false ∧ c.name = name) ⟨true, i, version⟩

theorem countP_calls_iff (named : Named interfaces) {depth : ℕ} {l : List Call} {name : Text}
    (walk : calls interfaces mode depth ⟨true, i, version⟩ = .ok (l ++ [⟨true, i, version⟩])) :
    2 ≤ l.countP (·.name = name) ↔ AskedTwice interfaces mode i version name := by
  have count : (l ++ [(⟨true, i, version⟩ : Call)]).countP (fun c => c.direct = false ∧ c.name = name) =
      l.countP (·.name = name) := by
    rw [List.countP_append, List.countP_singleton, if_neg (by simp), Nat.add_zero]
    refine List.countP_congr fun c member => ?_
    have indirect := ((mem_calls_iff walk).mp member).direct
    simp [indirect]
  have distinct : ∀ b below, importedCalls interfaces mode b = .ok below → below.Nodup :=
    fun b below found => nodup_importedCalls named found
  rw [← count]
  exact ⟨twice_of_two_le_countP distinct walk, two_le_countP_of_twice distinct walk⟩

/-- The calls can be followed to their ends. -/
structure Followable (interfaces : Dict Text AidlInterface) (mode : ImportVerType) (i : AidlInterface) (version : Text) :
    Prop where
  ends : Acc (fun b a => Child (importedCalls interfaces mode) a b) ⟨true, i, version⟩
  found : ∀ c, Relation.ReflTransGen (Child (importedCalls interfaces mode)) ⟨true, i, version⟩ c →
    ∃ below, importedCalls interfaces mode c = .ok below

/-- The calls can be followed, and an interface that two paths lead to is only asked for at numbers. -/
structure Resolvable (interfaces : Dict Text AidlInterface) (mode : ImportVerType) (i : AidlInterface) (version : Text) :
    Prop extends Followable interfaces mode i version where
  numbers : ∀ c, Asked interfaces mode i version c → AskedTwice interfaces mode i version c.name →
    (int? c.version).isSome

theorem resolvable_of_getDependencies (named : Named interfaces)
    (resolved : getDependencies host interfaces i version isFreezeApi = .ok deps) :
    Resolvable interfaces (importVerType i version isFreezeApi) i version := by
  obtain ⟨-, l, walk, recorded⟩ := getDependencies_eq_ok.mp resolved
  have member := fun c => mem_calls_iff (c := c) walk
  refine ⟨⟨acc_of_postorder walk, fun c reached => computed_of_postorder walk reached⟩, fun c asked twice => ?_⟩
  have comparable := comparable_of_foldlM (fun c inside => ((member c).mp inside).direct) recorded
  exact comparable c ((member c).mpr asked) ((countP_calls_iff named walk).mpr twice)

/-- The walk has the same order on every host that is deep enough, and the dependencies are recorded on every one that
    preprocesses a call behind those that it makes. -/
theorem Resolvable.getDependencies (named : Named interfaces)
    (resolvable : Resolvable interfaces (importVerType i version isFreezeApi) i version)
    (given : ¬(importVerType i version isFreezeApi = .frozen ∧ version = [])) :
    ∃ limit, ∀ host : Host, limit ≤ host.recursionLimit →
      (∀ c, Asked interfaces (importVerType i version isFreezeApi) i version c → ∀ deps : Dependencies,
        (∀ b, Relation.TransGen (Child (importedCalls interfaces (importVerType i version isFreezeApi))) c b →
          b.name ≠ c.name → b.name ∈ deps.keys) → aidlGenPreprocessed host c.interface c.version deps = .ok ()) →
      ∃ deps, getDependencies host interfaces i version isFreezeApi = .ok deps := by
  obtain ⟨limit, whole, walk⟩ :
      ∃ limit l, calls interfaces (importVerType i version isFreezeApi) limit ⟨true, i, version⟩ = .ok l :=
    postorder_ends resolvable.ends resolvable.found
  obtain ⟨l, rfl⟩ := calls_concat walk
  have member := fun c => mem_calls_iff (c := c) walk
  refine ⟨limit, fun host deep accepts => ?_⟩
  have comparable : Comparable l := fun c inside twice =>
    resolvable.numbers c ((member c).mp inside) ((countP_calls_iff named walk).mp twice)
  have preprocessed : Preprocessed host l := by
    rintro before c after split deps there
    have respects := respects_postorder walk
    refine accepts c ((member c).mp (split ▸ List.mem_append_right _ List.mem_cons_self)) deps fun b reached other => ?_
    exact there b (respects before c (after ++ [⟨true, i, version⟩]) (by rw [split]; simp) b reached) other
  obtain ⟨deps, recorded⟩ := foldlM_record_ends (fun c inside => ((member c).mp inside).direct) comparable preprocessed
  exact ⟨deps, getDependencies_eq_ok.mpr ⟨given, l, postorder_mono walk deep, recorded⟩⟩

end Root

end BinderIdl.Interface
