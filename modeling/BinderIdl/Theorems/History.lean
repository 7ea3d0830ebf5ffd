import BinderIdl.Theorems.Integrity
import Mathlib.Logic.Relation

/-! The versions of an interface over whole runs of updates and freezes that end or raise wherever they may: a
    listed version stays listed as it is, and its directory is never written again. -/

namespace BinderIdl.Interface
open Py

variable {Hash : Type} {hash : List (Text × Text) → Text → Hash} {root : Text}
  {s t u : Store Hash} {i : AidlInterface} {next : Text}

/-- An interface of the central layout that is versioned and has no version yet. -/
structure Fresh (s : Store Hash) : Prop where
  central : s.definition.layoutName ≠ "module-local".toList
  versioned : s.definition.stability ≠ some "unstable".toList
  unversioned : s.definition.versionsWithInfo = []

theorem not_unstable_of_loaded (load : loadInterface root s.definition = .ok i)
    (versioned : s.definition.stability ≠ some "unstable".toList) : ¬i.unstable := by
  obtain ⟨imports, -, rfl⟩ := loadInterface_eq_ok load
  exact versioned

theorem nextVersion_of_loaded (load : loadInterface root s.definition = .ok i)
    (versioned : s.definition.stability ≠ some "unstable".toList) :
    i.nextVersion = versionNumber (s.definition.versionsWithInfo.length + 1) := by
  rw [AidlInterface.nextVersion_of_stable (not_unstable_of_loaded load versioned), versionCount_of_loaded load]

/-! ### What one action may write -/

/-- `t` differs from `s` at most in its sources, in `current`, in the directory of `next` and by an entry for it. -/
structure Touches (next : Text) (s t : Store Hash) : Prop where
  dirs : ∀ ver, ver ≠ currentVersion → ver ≠ next → t.stable.get? ver = s.stable.get? ver
  listed : t.definition = s.definition ∨ ∃ imports, t.definition = s.definition.addVersion ⟨next, imports⟩

theorem Touches.refl (next : Text) (s : Store Hash) : Touches next s s := ⟨fun _ _ _ => rfl, .inl rfl⟩

theorem Touches.set {ver : Text} (own : ver = currentVersion ∨ ver = next) (dump : Dump Hash)
    (before : Touches next s t) :
    Touches next s { t with stable := t.stable.set ver dump } := by
  refine ⟨fun other notCurrent notNext => ?_, before.listed⟩
  have different : other ≠ ver := by
    rcases own with rfl | rfl
    · exact notCurrent
    · exact notNext
  rw [Dict.get?_set, if_neg different]
  exact before.dirs other notCurrent notNext

theorem Touches.dumpAsVersion (before : Touches next s t) (shell : Shell Hash) (n : ℕ) :
    Touches next s (dumpAsVersion shell next n t) := by
  rw [Interface.dumpAsVersion]
  cases t.stable.get? currentVersion with
  | none => exact before
  | some dump =>
    dsimp only
    split
    · cases shell.copied dump (t.stable.get? next) with
      | none => exact before
      | some copy => exact before.set (.inr rfl) copy
    · exact before

theorem Touches.recordVersion (before : Touches next s t) (same : t.definition = s.definition) (shell : Shell Hash)
    (imports : List Text) (n : ℕ) : Touches next s (recordVersion shell ⟨next, imports⟩ n t) := by
  rw [Interface.recordVersion]
  split
  · exact ⟨before.dirs, .inr ⟨imports, by rw [same]⟩⟩
  · exact before

/-! ### What is kept of the listed versions -/

/-- The listed versions are `"1"`, `"2"`, … in this order. -/
def Numbered (s : Store Hash) : Prop :=
  s.definition.versionsWithInfo.map VersionInfo.version =
    (List.range s.definition.versionsWithInfo.length).map fun k => versionNumber (k + 1)

/-- No entry and no directory of a version listed in `s` has changed in `t`. -/
structure Preserved (s t : Store Hash) : Prop where
  entries : s.definition.versionsWithInfo <+: t.definition.versionsWithInfo
  dirs : ∀ e ∈ s.definition.versionsWithInfo, t.stable.get? e.version = s.stable.get? e.version

theorem Preserved.refl (s : Store Hash) : Preserved s s := ⟨List.prefix_rfl, fun _ _ => rfl⟩

theorem Preserved.trans (first : Preserved s t) (second : Preserved t u) : Preserved s u :=
  ⟨first.entries.trans second.entries,
    fun e member => (second.dirs e (first.entries.subset member)).trans (first.dirs e member)⟩

theorem Numbered.version_eq (numbered : Numbered s) {e : VersionInfo} (member : e ∈ s.definition.versionsWithInfo) :
    ∃ k < s.definition.versionsWithInfo.length, e.version = versionNumber (k + 1) := by
  have listed : e.version ∈ s.definition.versionsWithInfo.map VersionInfo.version := List.mem_map_of_mem member
  rw [numbered] at listed
  obtain ⟨k, bound, same⟩ := List.mem_map.mp listed
  exact ⟨k, List.mem_range.mp bound, same.symm⟩

theorem Numbered.touched (numbered : Numbered s)
    (touched : Touches (versionNumber (s.definition.versionsWithInfo.length + 1)) s t) : Numbered t := by
  rcases touched.listed with same | ⟨imports, added⟩
  · rw [Numbered, same]
    exact numbered
  · rw [Numbered, added, Definition.addVersion, List.map_append, numbered, List.length_append, List.length_singleton,
      List.range_succ, List.map_append]
    rfl

theorem Numbered.preserved (numbered : Numbered s)
    (touched : Touches (versionNumber (s.definition.versionsWithInfo.length + 1)) s t) : Preserved s t := by
  constructor
  · rcases touched.listed with same | ⟨imports, added⟩
    · rw [same]
    · rw [added]
      exact List.prefix_append _ _
  · intro e member
    obtain ⟨k, bound, same⟩ := numbered.version_eq member
    rw [same]
    refine touched.dirs _ (versionNumber_ne_current _) fun equal => ?_
    have := versionNumber_injective equal
    omega

theorem Touches.stability (touched : Touches next s t) : t.definition.stability = s.definition.stability := by
  rcases touched.listed with same | ⟨imports, added⟩
  · rw [same]
  · rw [added]
    rfl

theorem Fresh.numbered (fresh : Fresh s) : Numbered s := by
  rw [Numbered, fresh.unversioned]
  rfl

/-! ### Runs -/

section Runs
variable [DecidableEq Hash]

/-- The store an action leaves, whether it ends or raises. -/
def Action.leaves (hash : List (Text × Text) → Text → Hash) (root : Text) (a : Action Hash) (s : Store Hash) :
    Store Hash :=
  (runFrom (a.perform hash root) s).2

/-- `t` is reached from `s` by a run of actions, each of which ends or raises. -/
def Reaches (hash : List (Text × Text) → Text → Hash) (root : Text) : Store Hash → Store Hash → Prop :=
  Relation.ReflTransGen fun s t => ∃ a : Action Hash, a.leaves hash root s = t

theorem touches_update (shell : Shell Hash) (i : AidlInterface) (s : Store Hash) :
    Touches next s (runFrom (handleUpdateApi hash shell i) s).2 := by
  rcases handleUpdateApi_leaves hash shell i s with same | ⟨dump, written⟩
  · rw [same]
    exact .refl next s
  · rw [written]
    exact (Touches.refl next s).set (.inl rfl) dump

theorem touches_sealedStore (shell : Shell Hash) (i : AidlInterface) (s : Store Hash) :
    Touches next s (sealedStore hash shell i s) := by
  rw [sealedStore]
  split
  · exact (Touches.refl next s).set (.inl rfl) _
  · exact .refl next s

theorem touches_freeze (shell : Shell Hash) (i : AidlInterface) (s : Store Hash) :
    Touches i.nextVersion s (runFrom (handleFreezeApi hash shell i) s).2 := by
  have sealed : Touches i.nextVersion s (sealedStore hash shell i s) := touches_sealedStore shell i s
  rw [handleFreezeApi_run]
  cases freezeStatus hash shell i s.stable with
  | error e => exact sealed
  | ok n =>
    have dumped := sealed.dumpAsVersion shell n
    cases recordedImports i shell.interfaces with
    | error e => exact dumped
    | ok imports =>
      exact dumped.recordVersion ((definition_dumpAsVersion _ n _).trans (definition_sealedStore s)) shell
        imports n

theorem Action.touches (hash : List (Text × Text) → Text → Hash) (root : Text) (a : Action Hash)
    (versioned : s.definition.stability ≠ some "unstable".toList) :
    Touches (versionNumber (s.definition.versionsWithInfo.length + 1)) s (a.leaves hash root s) := by
  cases a with
  | edit source => exact ⟨fun _ _ _ => rfl, .inl rfl⟩
  | update shell =>
    rw [leaves, perform, runFrom_loaded]
    cases loadInterface root s.definition with
    | error e => exact .refl _ s
    | ok i => exact touches_update shell i s
  | freeze shell =>
    rw [leaves, perform, runFrom_loaded]
    cases load : loadInterface root s.definition with
    | error e => exact .refl _ s
    | ok i =>
      rw [← nextVersion_of_loaded load versioned]
      exact touches_freeze shell i s

/-- A versioned interface whose listed versions are numbered stays one, and keeps the versions it has. -/
theorem Reaches.preserved (run : Reaches hash root s t) (versioned : s.definition.stability ≠ some "unstable".toList)
    (numbered : Numbered s) : t.definition.stability = s.definition.stability ∧ Numbered t ∧ Preserved s t := by
  induction run with
  | refl => exact ⟨rfl, numbered, .refl s⟩
  | @tail t _ _ step ih =>
    obtain ⟨a, rfl⟩ := step
    obtain ⟨stability, numbered', kept⟩ := ih
    have touched := a.touches hash root (stability ▸ versioned)
    exact ⟨touched.stability.trans stability, numbered'.touched touched, kept.trans (numbered'.preserved touched)⟩

/-- From a fresh interface on, in every run and wherever its actions fail, the listed versions are `1` to `n`, no
    entry ever changes, and no directory of a listed version does. -/
theorem frozen_versions_immutable (fresh : Fresh s) (run : Reaches hash root s t) (later : Reaches hash root t u) :
    Numbered t ∧ t.definition.versionsWithInfo <+: u.definition.versionsWithInfo ∧
      ∀ e ∈ t.definition.versionsWithInfo, u.stable.get? e.version = t.stable.get? e.version := by
  obtain ⟨stability, numbered, -⟩ := run.preserved fresh.versioned fresh.numbered
  obtain ⟨-, -, kept⟩ := later.preserved (stability ▸ fresh.versioned) numbered
  exact ⟨numbered, kept.entries, kept.dirs⟩

end Runs

/-! ### A run that goes on after a freeze -/

def halFresh : Store (List (Text × Text) × Text) := ⟨halDefinition, halFiles, Dict.empty⟩

theorem halFresh_fresh : Fresh halFresh := ⟨by decide, by decide, rfl⟩

theorem halFrozen_reached : Reaches pairHash halRoot halFresh halFrozen := by
  have updated : (Action.update willingShell).leaves pairHash halRoot halFresh = halUpdated := by decide +kernel
  have frozen : (Action.freeze willingShell).leaves pairHash halRoot halUpdated = halFrozen := by decide +kernel
  exact (Relation.ReflTransGen.single ⟨_, updated⟩).tail ⟨_, frozen⟩

/-- The store after an update of emptied sources that follows the freeze. -/
def halEmptied : Store (List (Text × Text) × Text) :=
  (Action.update willingShell).leaves pairHash halRoot { halFrozen with source := Dict.empty }

theorem halEmptied_reached : Reaches pairHash halRoot halFrozen halEmptied :=
  (Relation.ReflTransGen.single ⟨.edit Dict.empty, rfl⟩).tail ⟨.update willingShell, rfl⟩

theorem frozen_versions_immutable_hal :
    Fresh halFresh ∧ Reaches pairHash halRoot halFresh halFrozen ∧ Reaches pairHash halRoot halFrozen halEmptied ∧
      (Numbered halFrozen ∧
        halFrozen.definition.versionsWithInfo <+: halEmptied.definition.versionsWithInfo ∧
          ∀ e ∈ halFrozen.definition.versionsWithInfo,
            halEmptied.stable.get? e.version = halFrozen.stable.get? e.version) :=
  ⟨halFresh_fresh, halFrozen_reached, halEmptied_reached,
    frozen_versions_immutable halFresh_fresh halFrozen_reached halEmptied_reached⟩

end BinderIdl.Interface
