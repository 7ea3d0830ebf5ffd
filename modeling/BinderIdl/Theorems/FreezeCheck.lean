import BinderIdl.Theorems.Highest
import BinderIdl.Theorems.Acceptance

/-! The resolution before a freeze: a dependency is asked for at its pin or at its latest version, but its own imports are
    always those of the latest version. -/

namespace BinderIdl.Interface
open Py Graph

variable {host : Host} {interfaces : Dict Text AidlInterface} {i : AidlInterface} {deps : Dependencies}

/-! ### What is asked for -/

/-- Every pin of a current import is a frozen version of it. -/
def PinsFrozen (interfaces : Dict Text AidlInterface) : Prop :=
  ∀ k i, interfaces.get? k = some i → ∀ imp ∈ i.imports, i.pinOf imp = importVersionUnpinned ∨
    ∃ j, interfaces.get? imp = some j ∧ i.pinOf imp ∈ j.versions

/-- One of the versions of an interface. -/
def IsVersion (i : AidlInterface) (version : Text) : Prop := version ∈ i.versions ∨ version = i.nextVersion

theorem exists_versionNumber {version : Text} (isVersion : IsVersion i version) {n : Int} (num : int? version = some n) :
    ∃ k : ℕ, version = versionNumber k ∧ n = k := by
  suffices number : ∃ k : ℕ, version = versionNumber k by
    obtain ⟨k, rfl⟩ := number
    rw [versionNumber, int?_ofInt] at num
    exact ⟨k, rfl, (Option.some.inj num).symm⟩
  rcases isVersion with member | rfl
  · obtain ⟨k, -, -, same⟩ := AidlInterface.mem_versions.mp member
    exact ⟨k, same⟩
  · by_cases unstable : i.unstable
    · rw [AidlInterface.nextVersion, if_pos unstable] at num
      cases num
    · exact ⟨_, AidlInterface.nextVersion_of_stable unstable⟩

/-- Versions of an interface that are numbers are told apart by their values. -/
theorem IsVersion.eq_of_int? {v w : Text} (first : IsVersion i v) (second : IsVersion i w) {n : Int}
    (num : int? v = some n) (num' : int? w = some n) : v = w := by
  obtain ⟨k, rfl, same⟩ := exists_versionNumber first num
  obtain ⟨l, rfl, same'⟩ := exists_versionNumber second num'
  rw [Int.ofNat.inj (same.symm.trans same')]

theorem latestOrNext_isVersion (i : AidlInterface) : IsVersion i (latestOrNext i) := by
  rw [latestOrNext]
  by_cases never : i.latestVersion = "0".toList
  · rw [if_pos never]
    exact .inr rfl
  · rw [if_neg never]
    by_cases unstable : i.unstable
    · exact .inr (by rw [AidlInterface.latestVersion, AidlInterface.nextVersion, if_pos unstable, if_pos unstable])
    · have latest := AidlInterface.latestVersion_of_stable unstable
      refine .inl (AidlInterface.mem_versions.mpr ⟨i.versionCount, ?_, le_rfl, latest⟩)
      by_contra none_
      have zero : i.versionCount = 0 := by omega
      exact never (by rw [latest, zero]; rfl)

theorem unpinned_notMem_versions (i : AidlInterface) : importVersionUnpinned ∉ i.versions := by
  intro member
  have number := int?_versions member
  revert number
  decide +kernel

theorem latestOrNext_of_mem (member : i.latestVersion ∈ i.versions) : latestOrNext i = i.latestVersion := by
  refine if_neg fun never => ?_
  rw [never] at member
  obtain ⟨k, pos, -, same⟩ := AidlInterface.mem_versions.mp member
  have zero : versionNumber 0 = versionNumber k := same
  have := versionNumber_injective zero
  omega

section Freeze
variable (versioned : Versioned interfaces) (pins : PinsFrozen interfaces)
include versioned

/-- Before a freeze the current imports are processed, or those of the latest version. -/
theorem Versioned.importsToProcess_latest {c : Call} (known : c.Known interfaces) {imports : Dict Text Text}
    (read : importsToProcess .latest c.direct c.interface c.version = .ok imports) :
    imports = c.interface.currentImports ∨
      ∃ version recorded, c.interface.versionsWithInfo.get? version = some recorded ∧ imports = readImports recorded := by
  rw [importsToProcess] at read
  have cases_ : IsVersion c.interface (if c.direct then c.interface.nextVersion else latestOrNext c.interface) := by
    cases c.direct with
    | true => exact .inr rfl
    | false => exact latestOrNext_isVersion _
  rcases cases_ with member | next
  · obtain ⟨recorded, entry, read'⟩ := versioned.getImports_frozen known member
    exact .inr ⟨_, recorded, entry, Except.ok.inj (read.symm.trans read')⟩
  · rw [next] at read
    exact .inl (Except.ok.inj (read.symm.trans (versioned.getImports_next known)))

include pins in
theorem Versioned.isVersion_of_child {c b : Call} (known : c.Known interfaces)
    (child : Child (importedCalls interfaces .latest) c b) :
    b.Known interfaces ∧ IsVersion b.interface b.version := by
  obtain ⟨knownB, imports, pin, read, imported, same⟩ := exists_import_of_child versioned.named child
  refine ⟨knownB, ?_⟩
  rw [same, versionToProcess]
  by_cases unpinned : pin = importVersionUnpinned
  · rw [if_pos unpinned]
    exact latestOrNext_isVersion _
  · rw [if_neg unpinned]
    rcases versioned.importsToProcess_latest known read with rfl | ⟨version, recorded, entry, rfl⟩
    · rw [AidlInterface.currentImports, Dict.get?_ofPairs_keyed] at imported
      by_cases member : b.name ∈ c.interface.imports
      · rw [if_pos member] at imported
        cases imported
        obtain ⟨j, known', frozen⟩ := (pins _ _ known _ member).resolve_left unpinned
        cases knownB.symm.trans known'
        exact .inl frozen
      · rw [if_neg member] at imported
        cases imported
    · obtain ⟨j, known', frozen⟩ := versioned.frozen (c.name, version) (b.name, pin)
        ⟨c.interface, recorded, known, entry, imported⟩
      cases knownB.symm.trans known'
      exact .inl frozen

include pins in
theorem Versioned.isVersion_of_asked (known : interfaces.get? i.baseName = some i) {c : Call}
    (asked : Asked interfaces .latest i i.nextVersion c) : c.Known interfaces ∧ IsVersion c.interface c.version := by
  have start : Call.Known interfaces ⟨true, i, i.nextVersion⟩ := known
  induction asked with
  | single child => exact versioned.isVersion_of_child pins start child
  | tail _ child ih => exact versioned.isVersion_of_child pins ih.1 child

/-! ### The imports of a dependency -/

/-- Every import that a frozen dependency records for the version that it is resolved at is a dependency too, at that
    version or a later one. -/
def ResolvesRecords (interfaces : Dict Text AidlInterface) (deps : Dependencies) : Prop :=
  ∀ name dep i, deps.get? name = some dep → interfaces.get? name = some i → dep.version ∈ i.versions →
    ∀ imp version, Records interfaces (name, dep.version) (imp, version) →
      ∃ dep', deps.get? imp = some dep' ∧ NotNewer version dep'.version

/-- The call asks for the highest version of its interface. -/
def HighestAsked (interfaces : Dict Text AidlInterface) (i : AidlInterface) (c : Call) : Prop :=
  Asked interfaces .latest i i.nextVersion c ∧
    ∀ b, Asked interfaces .latest i i.nextVersion b → b.name = c.name → NotNewer b.version c.version

/-- What an interface records for the highest version that it is asked for at is also asked for, if that is a frozen
    version before its latest one. -/
def OlderRecordsAsked (interfaces : Dict Text AidlInterface) (i : AidlInterface) : Prop :=
  ∀ c, HighestAsked interfaces i c → c.version ∈ c.interface.versions → c.version ≠ c.interface.latestVersion →
    ∀ imp version, Records interfaces (c.name, c.version) (imp, version) →
      ∃ b, Asked interfaces .latest i i.nextVersion b ∧ b.name = imp ∧ NotNewer version b.version

theorem Versioned.asked_of_latest {c : Call} (asked : Asked interfaces .latest i i.nextVersion c)
    (known : c.Known interfaces) (found : ∃ below, importedCalls interfaces .latest c = .ok below)
    (member : c.version ∈ c.interface.versions) (latest : c.version = c.interface.latestVersion) {imp version : Text}
    (recorded : Records interfaces (c.name, c.version) (imp, version)) :
    ∃ b, Asked interfaces .latest i i.nextVersion b ∧ b.name = imp ∧ b.version = version := by
  obtain ⟨j, knownJ, frozen⟩ := versioned.frozen _ _ recorded
  obtain ⟨i', entries, known', entry, imported⟩ := recorded
  cases known.symm.trans known'
  have read : importsToProcess .latest c.direct c.interface c.version = .ok (readImports entries) := by
    rw [importsToProcess, asked.direct, if_neg Bool.false_ne_true, latestOrNext_of_mem (latest ▸ member), ← latest,
      AidlInterface.getImports, entry]
    rfl
  refine ⟨_, asked.tail (child_of_import read found imported knownJ), versioned.named _ _ knownJ, if_neg fun same => ?_⟩
  exact unpinned_notMem_versions j (same ▸ frozen)

include pins in
/-- A dependency is the entry of a call for its highest version, and of no other. -/
theorem Versioned.version_of_highestAsked (known : interfaces.get? i.baseName = some i)
    (summary : Summarises (Asked interfaces .latest i i.nextVersion) deps) {c : Call}
    (highest : HighestAsked interfaces i c) : ∃ dep, deps.get? c.name = some dep ∧ dep.version = c.version := by
  obtain ⟨dep, entry, le⟩ := summary.highest c highest.1
  obtain ⟨b, asked, name, rfl⟩ := summary.sound _ _ entry
  have ge := highest.2 b asked name
  refine ⟨_, entry, ?_⟩
  obtain ⟨knownC, isVersion⟩ := versioned.isVersion_of_asked pins known highest.1
  obtain ⟨knownB, isVersion'⟩ := versioned.isVersion_of_asked pins known asked
  rw [Call.Known, name] at knownB
  rw [← Option.some.inj (knownC.symm.trans knownB)] at isVersion'
  rcases le with same | ⟨n, m, num, num', le⟩
  · exact same.symm
  · rcases ge with same | ⟨m', n', num'', num''', ge⟩
    · exact same
    · cases num.symm.trans num'''
      cases num'.symm.trans num''
      cases le_antisymm le ge
      exact IsVersion.eq_of_int? isVersion' isVersion num' num

include pins in
/-- The dependencies that are found before a freeze resolve each other's records exactly when those are asked for that
    belong to a dependency's older version. -/
theorem resolves_records_iff (known : interfaces.get? i.baseName = some i)
    (resolved : getDependencies host interfaces i i.nextVersion true = .ok deps) :
    ResolvesRecords interfaces deps ↔ OlderRecordsAsked interfaces i := by
  have summary := getDependencies_summarises resolved
  have resolvable := resolvable_of_getDependencies versioned.named resolved
  rw [importVerType_freeze] at summary resolvable
  constructor
  · intro resolves c highest member older imp version recorded
    obtain ⟨dep, entry, same⟩ := versioned.version_of_highestAsked pins known summary highest
    have knownC := (versioned.isVersion_of_asked pins known highest.1).1
    obtain ⟨dep', entry', le⟩ := resolves c.name dep c.interface entry knownC (same ▸ member) imp version (same ▸ recorded)
    obtain ⟨b, asked, name, rfl⟩ := summary.sound _ _ entry'
    exact ⟨b, asked, name, le⟩
  · intro olderAsked name dep j entry knownJ member imp version recorded
    obtain ⟨c, asked, rfl, rfl⟩ := summary.sound _ _ entry
    have knownC := (versioned.isVersion_of_asked pins known asked).1
    cases knownC.symm.trans knownJ
    have highest : HighestAsked interfaces i c := by
      refine ⟨asked, fun b asked' same => ?_⟩
      obtain ⟨dep, entry', le⟩ := summary.highest b asked'
      rw [same] at entry'
      cases entry.symm.trans entry'
      exact le
    have there : ∃ b, Asked interfaces .latest i i.nextVersion b ∧ b.name = imp ∧ NotNewer version b.version := by
      by_cases latest : c.version = c.interface.latestVersion
      · obtain ⟨b, asked', name, same⟩ := versioned.asked_of_latest asked knownC
          (resolvable.found c asked.to_reflTransGen) member latest recorded
        exact ⟨b, asked', name, .inl same.symm⟩
      · exact olderAsked c highest member latest imp version recorded
    obtain ⟨b, asked', rfl, le⟩ := there
    obtain ⟨dep', entry', le'⟩ := summary.highest b asked'
    exact ⟨dep', entry', le.trans le'⟩

end Freeze

/-! ### A pin to an older version -/

def codec : AidlInterface :=
  ⟨"codec".toList, "codec/current".toList, "central".toList, [], Dict.empty, none, 2,
    Dict.ofPairs [("1".toList, ["common-v1".toList]), ("2".toList, [])]⟩

def codecHal : AidlInterface :=
  ⟨"hal".toList, "hal/current".toList, "central".toList, ["codec".toList],
    Dict.ofPairs [("codec".toList, some "1".toList)], none, 0, Dict.empty⟩

/-- `codec` recorded `common-v1` for its version 1, which `hal` imports, and dropped the import in version 2. -/
def codecs : Dict Text AidlInterface := Dict.ofPairs [
  ("common".toList, ⟨"common".toList, "common/current".toList, "central".toList, [], Dict.empty, none, 1,
    Dict.ofPairs [("1".toList, [])]⟩),
  ("codec".toList, codec), ("hal".toList, codecHal)]

def codecAtOne : Dependencies := Dict.ofPairs [("codec".toList, ⟨"1".toList, "1".toList⟩)]

theorem consistent_codecs : Consistent codecs :=
  Consistent.of_keys (by decide +kernel) (by decide +kernel) (by decide +kernel) (by decide +kernel) (by decide +kernel)

theorem pinsFrozen_codecs : PinsFrozen codecs := by
  have frozen : ∀ k i, codecs.get? k = some i → ∀ imp ∈ i.imports,
      (codecs.get? imp).any (fun j => i.pinOf imp ∈ j.versions) = true := by decide +kernel
  intro k i known imp member
  obtain ⟨j, known', inside⟩ := (Option.any_eq_true _ _).mp (frozen k i known imp member)
  exact .inr ⟨j, known', of_decide_eq_true inside⟩

theorem resolves_records_codecs :
    Consistent codecs ∧ PinsFrozen codecs ∧ codecs.get? codecHal.baseName = some codecHal ∧
      getDependencies willingHost codecs codecHal codecHal.nextVersion true = .ok codecAtOne ∧
      (ResolvesRecords codecs codecAtOne ↔ OlderRecordsAsked codecs codecHal) := by
  have known : codecs.get? codecHal.baseName = some codecHal := by decide +kernel
  have resolved : getDependencies willingHost codecs codecHal codecHal.nextVersion true = .ok codecAtOne := by
    decide +kernel
  exact ⟨consistent_codecs, pinsFrozen_codecs, known, resolved,
    resolves_records_iff consistent_codecs.toVersioned pinsFrozen_codecs known resolved⟩

/-- `codec` is resolved at version 1, and `common`, which that version records, is missing. -/
theorem older_record_missing :
    Consistent codecs ∧ PinsFrozen codecs ∧
      getDependencies willingHost codecs codecHal codecHal.nextVersion true = .ok codecAtOne ∧
      Records codecs ("codec".toList, "1".toList) ("common".toList, "1".toList) ∧
      codecAtOne.get? "common".toList = none ∧ ¬ResolvesRecords codecs codecAtOne := by
  have recorded : Records codecs ("codec".toList, "1".toList) ("common".toList, "1".toList) :=
    ⟨codec, ["common-v1".toList], by decide +kernel, by decide +kernel, by decide +kernel⟩
  have missing : codecAtOne.get? "common".toList = none := by decide +kernel
  refine ⟨consistent_codecs, pinsFrozen_codecs, by decide +kernel, recorded, missing, fun resolves => ?_⟩
  obtain ⟨dep, entry, -⟩ := resolves "codec".toList ⟨"1".toList, "1".toList⟩ codec (by decide +kernel) (by decide +kernel)
    (by decide +kernel) "common".toList "1".toList recorded
  cases missing.symm.trans entry

end BinderIdl.Interface
