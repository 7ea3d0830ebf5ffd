import BinderIdl.Interface.TypedVersions
import BinderIdl.Theorems.Resolution

/-! Resolution for the generation of sources: the transitive imports, each once and at the highest version. -/

namespace BinderIdl.Interface
open Py Graph

variable {host : Host} {interfaces : Dict Text AidlInterface}

/-! ### Imports -/

/-- A version of one interface records a version of another one as its import. -/
def Records (interfaces : Dict Text AidlInterface) (a b : Text × Text) : Prop :=
  ∃ i recorded, interfaces.get? a.1 = some i ∧ i.versionsWithInfo.get? a.2 = some recorded ∧
    (readImports recorded).get? b.1 = some b.2

/-- An interface imports another one in its current version. -/
def ImportsNow (interfaces : Dict Text AidlInterface) (name name' : Text) : Prop :=
  ∃ i, interfaces.get? name = some i ∧ name' ∈ i.imports

/-- Interfaces whose versions are numbered in order, with frozen versions of others as their records. -/
structure Versioned (interfaces : Dict Text AidlInterface) : Prop where
  named : Named interfaces
  keys : ∀ k i, interfaces.get? k = some i → i.versionsWithInfo.keys = i.versions
  frozen : ∀ a b, Records interfaces a b → ∃ j, interfaces.get? b.1 = some j ∧ b.2 ∈ j.versions

/-- Stable interfaces whose imports are loaded, without a cycle. -/
structure Consistent (interfaces : Dict Text AidlInterface) : Prop extends Versioned interfaces where
  stable : ∀ k i, interfaces.get? k = some i → ¬i.unstable
  loaded : ∀ name name', ImportsNow interfaces name name' → ∃ j, interfaces.get? name' = some j
  acyclicRecords : ¬Cyclic (Records interfaces)
  acyclicNow : ¬Cyclic (ImportsNow interfaces)

namespace Versioned
variable (versioned : Versioned interfaces) {i : AidlInterface}
include versioned

theorem getImports_frozen {version : Text} (known : interfaces.get? i.baseName = some i) (member : version ∈ i.versions) :
    ∃ recorded, i.versionsWithInfo.get? version = some recorded ∧ i.getImports version = .ok (readImports recorded) := by
  obtain ⟨recorded, entry⟩ := Dict.exists_get? ((versioned.keys _ _ known).symm ▸ member)
  refine ⟨recorded, entry, ?_⟩
  rw [AidlInterface.getImports, entry]
  rfl

theorem getImports_next (known : interfaces.get? i.baseName = some i) :
    i.getImports i.nextVersion = .ok i.currentImports := by
  have fresh : i.versionsWithInfo.get? i.nextVersion = none := by
    rw [Dict.get?_eq_none_iff, versioned.keys _ _ known]
    exact i.nextVersion_notMem_versions
  rw [AidlInterface.getImports, fresh]
  exact if_neg fun h => h rfl

end Versioned

namespace Consistent
variable (consistent : Consistent interfaces)
include consistent

theorem acc_records (a : Text × Text) : Acc (fun b a => Records interfaces a b) a := by
  refine acc_of_acyclic (interfaces.entries.flatMap fun e => e.2.versions.map (e.1, ·)) ?_
    consistent.acyclicRecords a
  rintro ⟨name, version⟩ b ⟨i, recorded, known, entry, -⟩
  refine List.mem_flatMap.mpr ⟨(name, i), Dict.mem_entries_of_get? known, List.mem_map.mpr ⟨version, ?_, rfl⟩⟩
  rw [← consistent.keys _ _ known]
  exact Dict.mem_keys_of_get? entry

theorem acc_importsNow (name : Text) : Acc (fun b a => ImportsNow interfaces a b) name := by
  refine acc_of_acyclic interfaces.keys ?_ consistent.acyclicNow name
  rintro a b ⟨i, known, -⟩
  exact Dict.mem_keys_of_get? known

end Consistent

/-- Interfaces that are listed behind their imports. -/
theorem Consistent.of_keys (named : ∀ k i, interfaces.get? k = some i → i.baseName = k)
    (stable : ∀ k i, interfaces.get? k = some i → ¬i.unstable)
    (keys : ∀ k i, interfaces.get? k = some i → i.versionsWithInfo.keys = i.versions)
    (imported : ∀ k i, interfaces.get? k = some i → ∀ name ∈ i.imports,
      (interfaces.get? name).isSome ∧ interfaces.keys.idxOf name < interfaces.keys.idxOf k)
    (recorded : ∀ k i, interfaces.get? k = some i → ∀ version recorded, i.versionsWithInfo.get? version = some recorded →
      ∀ name version', (readImports recorded).get? name = some version' →
        (interfaces.get? name).any (fun j => version' ∈ j.versions) = true ∧
          interfaces.keys.idxOf name < interfaces.keys.idxOf k) : Consistent interfaces := by
  refine ⟨⟨named, keys, ?_⟩, stable, ?_, ?_, ?_⟩
  · rintro ⟨name, version⟩ ⟨name', version'⟩ ⟨i, entry, known, found, edge⟩
    have frozen := (recorded name i known version entry found name' version' edge).1
    obtain ⟨j, known', member⟩ := (Option.any_eq_true _ _).mp frozen
    exact ⟨j, known', of_decide_eq_true member⟩
  · rintro name name' ⟨i, known, member⟩
    exact Option.isSome_iff_exists.mp (imported name i known name' member).1
  · refine not_cyclic_of_rank (fun a => interfaces.keys.idxOf a.1) ?_
    rintro ⟨name, version⟩ ⟨name', version'⟩ ⟨i, entry, known, found, edge⟩
    exact (recorded name i known version entry found name' version' edge).2
  · refine not_cyclic_of_rank interfaces.keys.idxOf ?_
    rintro name name' ⟨i, known, member⟩
    exact (imported name i known name' member).2

/-! ### Calls for frozen versions -/

/-- A call for a frozen version. -/
structure Call.Frozen (interfaces : Dict Text AidlInterface) (c : Call) : Prop where
  known : c.Known interfaces
  member : c.version ∈ c.interface.versions

def Call.pair (c : Call) : Text × Text := (c.name, c.version)

namespace Consistent
variable (consistent : Consistent interfaces)
include consistent

theorem importsToProcess_frozen {c : Call} (frozen : c.Frozen interfaces) :
    ∃ recorded, c.interface.versionsWithInfo.get? c.version = some recorded ∧
      importsToProcess .frozen c.direct c.interface c.version = .ok (readImports recorded) :=
  consistent.getImports_frozen frozen.known frozen.member

theorem found_frozen {c : Call} (frozen : c.Frozen interfaces) :
    ∃ below, importedCalls interfaces .frozen c = .ok below := by
  obtain ⟨recorded, entry, read⟩ := consistent.importsToProcess_frozen frozen
  refine exists_importedCalls read fun name pin imported => ?_
  obtain ⟨j, known, -⟩ := consistent.frozen c.pair (name, pin) ⟨c.interface, recorded, frozen.known, entry, imported⟩
  exact ⟨j, known⟩

theorem tracks_records :
    Tracks (Child (importedCalls interfaces .frozen)) (Records interfaces) Call.pair (Call.Frozen interfaces) := by
  refine ⟨fun c b frozen child => ?_, fun c pair frozen edge => ?_⟩
  · obtain ⟨known, imports, pin, read, imported, same⟩ := exists_import_of_child consistent.named child
    obtain ⟨recorded, entry, read'⟩ := consistent.importsToProcess_frozen frozen
    cases read.symm.trans read'
    have edge : Records interfaces c.pair b.pair :=
      ⟨c.interface, recorded, frozen.known, entry, imported.trans (congrArg some same.symm)⟩
    obtain ⟨j, known', member⟩ := consistent.frozen _ _ edge
    cases known.symm.trans known'
    exact ⟨⟨known, member⟩, edge⟩
  · obtain ⟨i, recorded, known, entry, imported⟩ := edge
    cases frozen.known.symm.trans known
    obtain ⟨j, known', -⟩ := consistent.frozen c.pair pair ⟨c.interface, recorded, frozen.known, entry, imported⟩
    obtain ⟨recorded', entry', read⟩ := consistent.importsToProcess_frozen frozen
    cases entry.symm.trans entry'
    refine ⟨_, child_of_import read (consistent.found_frozen frozen) imported known', ?_⟩
    exact Prod.ext (consistent.named _ _ known') rfl

/-! ### Calls for the next versions -/

theorem importsToProcess_next {c : Call} (known : c.Known interfaces) :
    importsToProcess .next c.direct c.interface c.version = .ok c.interface.currentImports :=
  consistent.getImports_next known

omit consistent in
theorem importsNow_of_currentImports {c : Call} (known : c.Known interfaces) {name pin : Text}
    (imported : c.interface.currentImports.get? name = some pin) : ImportsNow interfaces c.name name := by
  have member := Dict.mem_keys_of_get? imported
  rw [AidlInterface.currentImports, Dict.mem_keys_ofPairs, List.map_map] at member
  obtain ⟨imp, inside, rfl⟩ := List.mem_map.mp member
  exact ⟨c.interface, known, inside⟩

theorem found_next {c : Call} (known : c.Known interfaces) : ∃ below, importedCalls interfaces .next c = .ok below :=
  exists_importedCalls (consistent.importsToProcess_next known) fun _ _ imported =>
    consistent.loaded _ _ (importsNow_of_currentImports known imported)

theorem tracks_importsNow :
    Tracks (Child (importedCalls interfaces .next)) (ImportsNow interfaces) Call.name (Call.Known interfaces) := by
  refine ⟨fun c b known child => ?_, fun c name known edge => ?_⟩
  · obtain ⟨known', imports, pin, read, imported, -⟩ := exists_import_of_child consistent.named child
    cases read.symm.trans (consistent.importsToProcess_next known)
    exact ⟨known', importsNow_of_currentImports known imported⟩
  · obtain ⟨j, known'⟩ := consistent.loaded _ _ edge
    obtain ⟨i, knownI, member⟩ := edge
    cases known.symm.trans knownI
    have imported : name ∈ c.interface.currentImports.keys := by
      rw [AidlInterface.currentImports, Dict.mem_keys_ofPairs, List.map_map]
      exact List.mem_map.mpr ⟨name, member, rfl⟩
    obtain ⟨pin, imported⟩ := Dict.exists_get? imported
    exact ⟨_, child_of_import (consistent.importsToProcess_next known) (consistent.found_next known) imported known',
      consistent.named _ _ known'⟩

end Consistent

/-! ### A tool that insists on complete dependencies -/

/-- The name is imported, directly or not, by this version of the interface. -/
def LeadsTo (interfaces : Dict Text AidlInterface) (i : AidlInterface) (version name : Text) : Prop :=
  if version = i.nextVersion then Relation.TransGen (ImportsNow interfaces) i.baseName name
  else ∃ version', Relation.TransGen (Records interfaces) (i.baseName, version) (name, version')

/-- The dependencies have every other interface that the version leads to. -/
def Complete (interfaces : Dict Text AidlInterface) (i : AidlInterface) (version : Text) (deps : Dependencies) : Prop :=
  ∀ name, LeadsTo interfaces i version name → name ≠ i.baseName → name ∈ deps.keys

open Classical in
/-- The same host with a tool that refuses to preprocess a version as long as an interface that it leads to is missing. -/
noncomputable def Host.strict (host : Host) (interfaces : Dict Text AidlInterface) : Host :=
  { host with preprocesses := fun i version deps =>
      host.preprocesses i version deps && decide (Complete interfaces i version deps) }

theorem aidlGenPreprocessed_strict (works : host.Works) {i : AidlInterface} {version : Text} {deps : Dependencies}
    (complete : Complete interfaces i version deps) :
    aidlGenPreprocessed (host.strict interfaces) i version deps = .ok () := by
  rw [aidlGenPreprocessed, Host.strict]
  simp only [works.dirExists, works.preprocesses, complete, decide_true, Bool.and_true, Bool.true_eq_false, if_false]

theorem record_mono {host' : Host}
    (more : ∀ i version deps, aidlGenPreprocessed host i version deps = .ok () →
      aidlGenPreprocessed host' i version deps = .ok ()) {deps deps' : Dependencies} {c : Call}
    (recorded : record host deps c = .ok deps') : record host' deps c = .ok deps' := by
  cases direct : c.direct with
  | true =>
    rw [record, direct, if_pos rfl] at recorded ⊢
    exact recorded
  | false =>
    cases known : deps.get? c.name with
    | none =>
      obtain ⟨preprocessed, same⟩ := (record_of_new direct known).mp recorded
      exact (record_of_new direct known).mpr ⟨more _ _ _ preprocessed, same⟩
    | some old =>
      obtain ⟨n, m, numOld, num, done⟩ := (record_of_old direct known).mp recorded
      refine (record_of_old direct known).mpr ⟨n, m, numOld, num, done.imp_right ?_⟩
      rintro ⟨lt, preprocessed, same⟩
      exact ⟨lt, more _ _ _ preprocessed, same⟩

theorem foldlM_record_mono {host' : Host}
    (more : ∀ i version deps, aidlGenPreprocessed host i version deps = .ok () →
      aidlGenPreprocessed host' i version deps = .ok ()) {l : List Call} {deps deps' : Dependencies}
    (recorded : l.foldlM (record host) deps = .ok deps') : l.foldlM (record host') deps = .ok deps' := by
  induction l generalizing deps with
  | nil => exact recorded
  | cons c l ih =>
    rw [List.foldlM_cons, bind_eq_ok] at recorded ⊢
    obtain ⟨middle, first, rest⟩ := recorded
    exact ⟨middle, record_mono more first, ih rest⟩

theorem getDependencies_of_strict (works : host.Works) {i : AidlInterface} {version : Text} {isFreezeApi : Bool}
    {deps : Dependencies}
    (resolved : getDependencies (host.strict interfaces) interfaces i version isFreezeApi = .ok deps) :
    getDependencies host interfaces i version isFreezeApi = .ok deps := by
  obtain ⟨given, l, walk, recorded⟩ := getDependencies_eq_ok.mp resolved
  refine getDependencies_eq_ok.mpr ⟨given, l, walk, foldlM_record_mono (fun i version deps _ => ?_) recorded⟩
  exact aidlGenPreprocessed_ok works i version deps

/-! ### Dependencies at their highest versions -/

/-- The dependencies are the names that records lead to, each at the largest version that they lead to. -/
structure HighestRecorded (interfaces : Dict Text AidlInterface) (start : Text × Text) (deps : Dependencies) : Prop where
  reached : ∀ name dep, deps.get? name = some dep → Relation.TransGen (Records interfaces) start (name, dep.version)
  largest : ∀ name version, Relation.TransGen (Records interfaces) start (name, version) →
    ∃ dep n m, deps.get? name = some dep ∧ int? version = some n ∧ int? dep.version = some m ∧ n ≤ m

/-- The dependencies are the names that current imports lead to, each at its next version. -/
structure AllAtNext (interfaces : Dict Text AidlInterface) (start : Text) (deps : Dependencies) : Prop where
  reached : ∀ name, name ∈ deps.keys ↔ Relation.TransGen (ImportsNow interfaces) start name
  next : ∀ name dep, deps.get? name = some dep → ∃ j, interfaces.get? name = some j ∧ dep.version = j.nextVersion

theorem int?_versions {i : AidlInterface} {version : Text} (member : version ∈ i.versions) :
    (int? version).isSome := by
  obtain ⟨k, -, -, rfl⟩ := AidlInterface.mem_versions.mp member
  rw [versionNumber, int?_ofInt]
  rfl

namespace Consistent
variable (consistent : Consistent interfaces) {i : AidlInterface} {version : Text}
include consistent

omit consistent in
theorem importVerType_frozen (member : version ∈ i.versions) : importVerType i version false = .frozen := by
  refine if_neg fun same => i.nextVersion_notMem_versions ?_
  rw [← same]
  exact member

theorem frozen_of_asked (known : interfaces.get? i.baseName = some i) (member : version ∈ i.versions) {c : Call}
    (asked : Asked interfaces .frozen i version c) :
    c.Frozen interfaces ∧ Relation.TransGen (Records interfaces) (i.baseName, version) c.pair := by
  have start : Call.Frozen interfaces ⟨true, i, version⟩ := ⟨known, member⟩
  exact consistent.tracks_records.transGen start asked

theorem known_of_asked (known : interfaces.get? i.baseName = some i) {c : Call}
    (asked : Asked interfaces .next i version c) :
    c.Known interfaces ∧ Relation.TransGen (ImportsNow interfaces) i.baseName c.name := by
  have start : Call.Known interfaces ⟨true, i, version⟩ := known
  exact consistent.tracks_importsNow.transGen start asked

theorem resolvable_frozen (known : interfaces.get? i.baseName = some i) (member : version ∈ i.versions) :
    Resolvable interfaces .frozen i version := by
  have start : Call.Frozen interfaces ⟨true, i, version⟩ := ⟨known, member⟩
  refine ⟨⟨consistent.tracks_records.acc start (consistent.acc_records _), fun c reached => ?_⟩, fun c asked _ => ?_⟩
  · rcases Relation.reflTransGen_iff_eq_or_transGen.mp reached with rfl | asked
    · exact consistent.found_frozen start
    · exact consistent.found_frozen (consistent.frozen_of_asked known member asked).1
  · exact int?_versions (consistent.frozen_of_asked known member asked).1.member

theorem resolvable_next (known : interfaces.get? i.baseName = some i) :
    Resolvable interfaces .next i i.nextVersion := by
  have start : Call.Known interfaces ⟨true, i, i.nextVersion⟩ := known
  refine ⟨⟨consistent.tracks_importsNow.acc start (consistent.acc_importsNow _), fun c reached => ?_⟩,
    fun c asked _ => ?_⟩
  · rcases Relation.reflTransGen_iff_eq_or_transGen.mp reached with rfl | asked
    · exact consistent.found_next start
    · exact consistent.found_next (consistent.known_of_asked known asked).1
  · exact isSome_of_asked_next consistent.named consistent.stable asked

theorem complete_frozen {c : Call} {deps : Dependencies} (frozen : c.Frozen interfaces)
    (there : ∀ b, Relation.TransGen (Child (importedCalls interfaces .frozen)) c b → b.name ≠ c.name →
      b.name ∈ deps.keys) : Complete interfaces c.interface c.version deps := by
  intro name leads other
  have other' : c.version ≠ c.interface.nextVersion := by
    intro same
    have member := frozen.member
    rw [same] at member
    exact c.interface.nextVersion_notMem_versions member
  rw [LeadsTo, if_neg other'] at leads
  obtain ⟨version', path⟩ := leads
  obtain ⟨b, asked, image⟩ := consistent.tracks_records.exists_transGen (a := c) frozen path
  obtain ⟨rfl, -⟩ := Prod.ext_iff.mp image
  exact there b asked other

theorem complete_next {c : Call} {deps : Dependencies} (known : c.Known interfaces)
    (next : c.version = c.interface.nextVersion)
    (there : ∀ b, Relation.TransGen (Child (importedCalls interfaces .next)) c b → b.name ≠ c.name →
      b.name ∈ deps.keys) : Complete interfaces c.interface c.version deps := by
  intro name leads other
  rw [LeadsTo, if_pos next] at leads
  obtain ⟨b, asked, rfl⟩ := consistent.tracks_importsNow.exists_transGen (a := c) known leads
  exact there b asked other

theorem highestRecorded {deps : Dependencies} (known : interfaces.get? i.baseName = some i)
    (member : version ∈ i.versions) (summary : Summarises (Asked interfaces .frozen i version) deps) :
    HighestRecorded interfaces (i.baseName, version) deps := by
  have start : Call.Frozen interfaces ⟨true, i, version⟩ := ⟨known, member⟩
  refine ⟨fun name dep entry => ?_, fun name version' path => ?_⟩
  · obtain ⟨c, asked, rfl, rfl⟩ := summary.sound name dep entry
    exact (consistent.frozen_of_asked known member asked).2
  · obtain ⟨c, asked, image⟩ := consistent.tracks_records.exists_transGen start path
    obtain ⟨rfl, rfl⟩ := Prod.ext_iff.mp image
    obtain ⟨dep, entry, le⟩ := summary.highest c asked
    obtain ⟨n, num⟩ := Option.isSome_iff_exists.mp
      (int?_versions (consistent.frozen_of_asked known member asked).1.member)
    rcases le with same | ⟨n, m, num, numDep, le⟩
    · exact ⟨dep, n, n, entry, num, same ▸ num, le_rfl⟩
    · exact ⟨dep, n, m, entry, num, numDep, le⟩

theorem allAtNext {deps : Dependencies} (known : interfaces.get? i.baseName = some i)
    (summary : Summarises (Asked interfaces .next i version) deps) : AllAtNext interfaces i.baseName deps := by
  have start : Call.Known interfaces ⟨true, i, version⟩ := known
  refine ⟨fun name => ⟨fun member => ?_, fun path => ?_⟩, fun name dep entry => ?_⟩
  · obtain ⟨dep, entry⟩ := Dict.exists_get? member
    obtain ⟨c, asked, rfl, -⟩ := summary.sound name dep entry
    exact (consistent.known_of_asked known asked).2
  · obtain ⟨c, asked, rfl⟩ := consistent.tracks_importsNow.exists_transGen start path
    obtain ⟨dep, entry, -⟩ := summary.highest c asked
    exact Dict.mem_keys_of_get? entry
  · obtain ⟨c, asked, rfl, rfl⟩ := summary.sound name dep entry
    exact ⟨c.interface, (consistent.known_of_asked known asked).1, (version_of_asked_next consistent.named asked).2⟩

end Consistent

/-- Whatever can be resolved is resolved by a tool that insists on complete dependencies, with the same result. -/
theorem exists_limit_strict {i : AidlInterface} {version : Text} {mode : ImportVerType} (named : Named interfaces)
    (same : importVerType i version false = mode) (resolvable : Resolvable interfaces mode i version)
    (given : ¬(mode = .frozen ∧ version = []))
    (complete : ∀ c, Asked interfaces mode i version c → ∀ deps : Dependencies,
      (∀ b, Relation.TransGen (Child (importedCalls interfaces mode)) c b → b.name ≠ c.name → b.name ∈ deps.keys) →
        Complete interfaces c.interface c.version deps) :
    ∃ limit, ∀ host : Host, host.Works → limit ≤ host.recursionLimit →
      ∃ deps, getDependencies host interfaces i version false = .ok deps ∧
        Summarises (Asked interfaces mode i version) deps ∧
        getDependencies (host.strict interfaces) interfaces i version false = .ok deps := by
  subst same
  obtain ⟨limit, ends⟩ := resolvable.getDependencies named given
  refine ⟨limit, fun host works deep => ?_⟩
  obtain ⟨deps, resolved⟩ := ends (host.strict interfaces) deep fun c asked deps there =>
    aidlGenPreprocessed_strict works (complete c asked deps there)
  exact ⟨deps, getDependencies_of_strict works resolved, getDependencies_summarises resolved, resolved⟩

/-- For a frozen version, exactly the interfaces that its records lead to are returned, at their largest versions, and
    for the next version those that current imports lead to, at their next versions. That a tool works as well which
    refuses a version while an interface that it leads to is missing says that none is missing in any call. -/
theorem dependencies_at_highest (consistent : Consistent interfaces) {i : AidlInterface}
    (known : interfaces.get? i.baseName = some i) :
    (∀ version ∈ i.versions, ∃ limit, ∀ host : Host, host.Works → limit ≤ host.recursionLimit →
      ∃ deps, getDependencies host interfaces i version false = .ok deps ∧
        HighestRecorded interfaces (i.baseName, version) deps ∧
        getDependencies (host.strict interfaces) interfaces i version false = .ok deps) ∧
    ∃ limit, ∀ host : Host, host.Works → limit ≤ host.recursionLimit →
      ∃ deps, getDependencies host interfaces i i.nextVersion false = .ok deps ∧
        AllAtNext interfaces i.baseName deps ∧
        getDependencies (host.strict interfaces) interfaces i i.nextVersion false = .ok deps := by
  constructor
  · intro version member
    have given : ¬(ImportVerType.frozen = .frozen ∧ version = []) := by
      rintro ⟨-, rfl⟩
      obtain ⟨k, -, -, same⟩ := AidlInterface.mem_versions.mp member
      exact ofInt_ne_nil _ same.symm
    obtain ⟨limit, ends⟩ := exists_limit_strict consistent.named (Consistent.importVerType_frozen member)
      (consistent.resolvable_frozen known member) given fun c asked deps there =>
        consistent.complete_frozen (consistent.frozen_of_asked known member asked).1 there
    refine ⟨limit, fun host works deep => ?_⟩
    obtain ⟨deps, resolved, summary, strict⟩ := ends host works deep
    exact ⟨deps, resolved, consistent.highestRecorded known member summary, strict⟩
  · obtain ⟨limit, ends⟩ := exists_limit_strict consistent.named (importVerType_nextVersion i)
      (consistent.resolvable_next known) (fun h => by cases h.1) fun c asked deps there =>
        consistent.complete_next (consistent.known_of_asked known asked).1
          (version_of_asked_next consistent.named asked).2 there
    refine ⟨limit, fun host works deep => ?_⟩
    obtain ⟨deps, resolved, summary, strict⟩ := ends host works deep
    exact ⟨deps, resolved, consistent.allAtNext known summary, strict⟩

/-! ### Three interfaces -/

def mediaVideo : AidlInterface :=
  ⟨"video".toList, "video/current".toList, "central".toList, ["audio".toList, "common".toList],
    Dict.ofPairs [("audio".toList, none), ("common".toList, none)], none, 1,
    Dict.ofPairs [("1".toList, ["common-v2".toList, "audio-v1".toList])]⟩

/-- `common` is frozen twice, `audio` once with `common-v1`, and `video` once with both, `common` at version 2. -/
def media : Dict Text AidlInterface := Dict.ofPairs [
  ("common".toList, ⟨"common".toList, "common/current".toList, "central".toList, [], Dict.empty, none, 2,
    Dict.ofPairs [("1".toList, []), ("2".toList, [])]⟩),
  ("audio".toList, ⟨"audio".toList, "audio/current".toList, "central".toList, ["common".toList],
    Dict.ofPairs [("common".toList, none)], none, 1, Dict.ofPairs [("1".toList, ["common-v1".toList])]⟩),
  ("video".toList, mediaVideo)]

theorem consistent_media : Consistent media :=
  Consistent.of_keys (by decide +kernel) (by decide +kernel) (by decide +kernel) (by decide +kernel) (by decide +kernel)

theorem dependencies_at_highest_media :
    Consistent media ∧ media.get? mediaVideo.baseName = some mediaVideo ∧
      (∀ version ∈ mediaVideo.versions, ∃ limit, ∀ host : Host, host.Works → limit ≤ host.recursionLimit →
        ∃ deps, getDependencies host media mediaVideo version false = .ok deps ∧
          HighestRecorded media (mediaVideo.baseName, version) deps ∧
          getDependencies (host.strict media) media mediaVideo version false = .ok deps) ∧
      ∃ limit, ∀ host : Host, host.Works → limit ≤ host.recursionLimit →
        ∃ deps, getDependencies host media mediaVideo mediaVideo.nextVersion false = .ok deps ∧
          AllAtNext media mediaVideo.baseName deps ∧
          getDependencies (host.strict media) media mediaVideo mediaVideo.nextVersion false = .ok deps := by
  have known : media.get? mediaVideo.baseName = some mediaVideo := by decide +kernel
  exact ⟨consistent_media, known, dependencies_at_highest consistent_media known⟩

/-- `audio` asks for `common` at version 1 behind `video`, which asked for version 2. -/
example : getDependencies willingHost media mediaVideo "1".toList false =
    .ok (Dict.ofPairs [("common".toList, ⟨"2".toList, "2".toList⟩), ("audio".toList, ⟨"1".toList, "1".toList⟩)]) := by
  decide +kernel

end BinderIdl.Interface
