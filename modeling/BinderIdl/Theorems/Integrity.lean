import BinderIdl.Theorems.Handlers

/-! The hashes of the stable tree over whole runs of updates and freezes. A freeze that creates a version moves
    `next_version` on after it wrote the hash of `current`, so that hash is stale until the next update. -/

namespace BinderIdl.Interface
open Py

variable {Hash : Type} {hash : List (Text × Text) → Text → Hash} {shell : Shell Hash}
  {i : AidlInterface}

/-! ### Hashes and their tags -/

/-- `version_for_hashgen` on a number. -/
def hashTag (n : ℕ) : Text := if 1 < n then versionNumber (n - 1) else "latest-version".toList

theorem versionForHashgen_number (n : ℕ) : versionForHashgen (versionNumber n) = .ok (hashTag n) := by
  refine bind_eq_ok.mpr ⟨(n : Int), by rw [intOf, versionNumber, int?_ofInt], ?_⟩
  rw [hashTag]
  by_cases several : 1 < n
  · rw [if_pos several, if_pos (by omega), versionNumber, Int.ofNat_sub (by omega)]
    rfl
  · rw [if_neg several, if_neg (by omega)]
    rfl

theorem hashTag_succ_ne {n : ℕ} (pos : 1 ≤ n) : hashTag n ≠ hashTag (n + 1) := by
  intro same
  rw [hashTag, hashTag, if_pos (show 1 < n + 1 by omega)] at same
  by_cases several : 1 < n
  · rw [if_pos several] at same
    have := versionNumber_injective same
    omega
  · have one : n = 1 := by omega
    subst one
    exact absurd same (by decide)

theorem sealedAs_number {d : Dump Hash} {n : ℕ} :
    d.SealedAs hash (versionNumber n) ↔
      d.hashFile.bind List.getLast? = some (hash (sortedFiles d.files) (hashTag n)) := by
  rw [Dump.SealedAs, versionForHashgen_number]
  exact ⟨fun ⟨tag, same, line⟩ => Except.ok.inj same ▸ line, fun line => ⟨_, rfl, line⟩⟩

/-- No file set and tag share their hash with others. -/
def CollisionFree (hash : List (Text × Text) → Text → Hash) : Prop :=
  ∀ fs fs' tag tag', hash fs tag = hash fs' tag' → fs = fs' ∧ tag = tag'

theorem not_sealedAs_succ {d : Dump Hash} {n : ℕ} (free : CollisionFree hash) (pos : 1 ≤ n)
    (old : d.SealedAs hash (versionNumber n)) : ¬d.SealedAs hash (versionNumber (n + 1)) := by
  rw [sealedAs_number] at old ⊢
  rw [old, Option.some.injEq]
  exact fun same => hashTag_succ_ne pos (free _ _ _ _ same).2

/-! ### Runs -/

/-- The commands do their work: a dump is copied whole and the entry is appended. -/
structure Shell.Works (shell : Shell Hash) : Prop where
  copied : ∀ dump old, shell.copied dump old = some (copyDump dump old)
  appends : shell.appends = true

/-- A step of a run: the sources are edited, or a tool is run on the definition as it then is. -/
inductive Action (Hash : Type) where
  | edit (source : Files)
  | update (shell : Shell Hash)
  | freeze (shell : Shell Hash)

def Action.Works : Action Hash → Prop
  | .edit _ => True
  | .update shell => shell.Works
  | .freeze shell => shell.Works

/-- The equality check against the newest frozen version finds a development; without such a version there is
    always one. -/
def develops (shell : Shell Hash) (s : Store Hash) : Bool :=
  match s.stable.get? (versionNumber s.definition.versionsWithInfo.length), s.stable.get? currentVersion with
  | some old, some cur => shell.equalStatus old.files cur.files = 1
  | _, _ => true

/-- Whether `current` was frozen as a version since the last update, after an action on `s`. -/
def Action.leavesFrozen (s : Store Hash) (frozen : Bool) : Action Hash → Bool
  | .edit _ => frozen
  | .update _ => false
  | .freeze shell => frozen || develops shell s

def Action.perform [DecidableEq Hash] (hash : List (Text × Text) → Text → Hash) (root : Text) : Action Hash → Tool Hash Unit
  | .edit source => modify fun s => { s with source }
  | .update shell => do
    let i ← loadInterface root (← get).definition
    handleUpdateApi hash shell i
  | .freeze shell => do
    let i ← loadInterface root (← get).definition
    handleFreezeApi hash shell i

section Performed
variable [DecidableEq Hash] {root : Text} {s t : Store Hash}

omit [DecidableEq Hash] in
theorem runFrom_loaded (tool : AidlInterface → Tool Hash Unit) (s : Store Hash) :
    runFrom (do let i ← loadInterface root (← get).definition; tool i : Tool Hash Unit) s =
      match loadInterface root s.definition with
      | .error e => (.error e, s)
      | .ok i => runFrom (tool i) s := by
  rw [runFrom_bind, runFrom_get]
  dsimp only
  rw [runFrom_bind, runFrom_lift]
  cases loadInterface root s.definition <;> rfl

omit [DecidableEq Hash] in
theorem ends_loaded {tool : AidlInterface → Tool Hash Unit}
    (ends : Ends (do let i ← loadInterface root (← get).definition; tool i : Tool Hash Unit) s () t) :
    ∃ i, loadInterface root s.definition = .ok i ∧ Ends (tool i) s () t := by
  change runFrom _ s = _ at ends
  rw [runFrom_loaded] at ends
  cases load : loadInterface root s.definition with
  | error e =>
    rw [load] at ends
    cases ends
  | ok i =>
    rw [load] at ends
    exact ⟨i, rfl, ends⟩

theorem ends_update (ends : Ends ((Action.update shell).perform hash root) s () t) :
    ∃ i, loadInterface root s.definition = .ok i ∧ Ends (handleUpdateApi hash shell i) s () t := ends_loaded ends

theorem ends_freeze (ends : Ends ((Action.freeze shell).perform hash root) s () t) :
    ∃ i, loadInterface root s.definition = .ok i ∧ Ends (handleFreezeApi hash shell i) s () t := ends_loaded ends

end Performed

/-- The stores that runs of actions lead to from an interface of the central layout with no stable tree and no
    versions, where every action ends without an error. The flag says whether `current` was frozen as a version
    since the last update. -/
inductive Run [DecidableEq Hash] (hash : List (Text × Text) → Text → Hash) (root : Text) : Store Hash → Bool → Prop where
  | start {d : Definition} (source : Files) (central : d.layoutName ≠ "module-local".toList)
      (fresh : d.versionsWithInfo = []) : Run hash root ⟨d, source, Dict.empty⟩ false
  | step {s t : Store Hash} {frozen : Bool} {a : Action Hash} (run : Run hash root s frozen) (works : a.Works)
      (ends : Ends (a.perform hash root) s () t) : Run hash root t (a.leavesFrozen s frozen)

/-- Every stored hash is the one `validate_interface` recomputes: of the listed versions and of `current`. -/
def Intact (hash : List (Text × Text) → Text → Hash) (root : Text) (s : Store Hash) : Prop :=
  ∀ i, loadInterface root s.definition = .ok i →
    (∀ ver ∈ i.versions, ∃ d, s.stable.get? ver = some d ∧ d.SealedAs hash ver) ∧
      ∀ d, s.stable.get? currentVersion = some d → d.SealedAs hash i.nextVersion

/-! ### The invariant -/

/-- With `n` versions listed, the numbered directories are `1` to `n`, each sealed as itself, and `current` is
    sealed as the version it became when it was frozen since its update, and as the next one when not. -/
structure Invariant (hash : List (Text × Text) → Text → Hash) (root : Text) (s : Store Hash) (frozen : Bool) (n : ℕ) :
    Prop where
  count : s.definition.versionsWithInfo.length = n
  central : s.definition.layoutName ≠ "module-local".toList
  keys : ∀ ver ∈ s.stable.keys, ver = currentVersion ∨ ∃ k, 1 ≤ k ∧ k ≤ n ∧ ver = versionNumber k
  listed : ∀ k, 1 ≤ k → k ≤ n → ∃ d, s.stable.get? (versionNumber k) = some d ∧ d.SealedAs hash (versionNumber k)
  current : ∀ d, s.stable.get? currentVersion = some d → d.SealedAs hash (versionNumber (if frozen then n else n + 1))
  stable : (s.stable.get? currentVersion).isSome → ∃ i, loadInterface root s.definition = .ok i ∧ ¬i.unstable
  populated : 1 ≤ n → (s.stable.get? currentVersion).isSome
  frozen_pos : frozen = true → 1 ≤ n

variable {root : Text} {s t : Store Hash} {frozen : Bool} {n : ℕ}

theorem versionCount_of_loaded {d : Definition} (load : loadInterface root d = .ok i) :
    i.versionCount = d.versionsWithInfo.length := by
  obtain ⟨imports, -, rfl⟩ := loadInterface_eq_ok load
  rfl

theorem layout_of_loaded {d : Definition} (load : loadInterface root d = .ok i) : i.layout = d.layoutName := by
  obtain ⟨imports, -, rfl⟩ := loadInterface_eq_ok load
  rfl

/-- The hash is only made for a version with a number: an unstable interface has none. -/
theorem tag_of_loaded {d : Definition} {tag : Text} (load : loadInterface root d = .ok i)
    (ok : versionForHashgen i.nextVersion = .ok tag) :
    ¬i.unstable ∧ i.nextVersion = versionNumber (d.versionsWithInfo.length + 1) ∧
      tag = hashTag (d.versionsWithInfo.length + 1) := by
  have count := versionCount_of_loaded load
  by_cases unstable : i.unstable
  · rw [AidlInterface.nextVersion, if_pos unstable] at ok
    cases ok
  · have next := AidlInterface.nextVersion_of_stable unstable
    rw [count] at next
    rw [next, versionForHashgen_number] at ok
    exact ⟨unstable, next, (Except.ok.inj ok).symm⟩

theorem sealedAs_written {files : Files} {k : ℕ} :
    (⟨files, some [hash (sortedFiles files) (hashTag k)]⟩ : Dump Hash).SealedAs hash (versionNumber k) :=
  sealedAs_number.mpr rfl

theorem Invariant.setCurrent (files : Files) (inv : Invariant hash root s frozen n)
    (load : loadInterface root s.definition = .ok i) (stable : ¬i.unstable) :
    Invariant hash root
      { s with stable := s.stable.set currentVersion ⟨files, some [hash (sortedFiles files) (hashTag (n + 1))]⟩ }
      false n where
  count := inv.count
  central := inv.central
  keys := by
    intro ver member
    rcases Dict.mem_keys_set.mp member with same | member
    · exact .inl same
    · exact inv.keys ver member
  listed := by
    intro k pos le
    obtain ⟨d, found, sealed⟩ := inv.listed k pos le
    refine ⟨d, ?_, sealed⟩
    rw [Dict.get?_set, if_neg (versionNumber_ne_current k)]
    exact found
  current := by
    intro d found
    rw [Dict.get?_set, if_pos rfl] at found
    cases found
    exact sealedAs_written
  stable := fun _ => ⟨i, load, stable⟩
  populated := fun _ => by rw [Dict.get?_set, if_pos rfl]; rfl
  frozen_pos := fun h => by cases h

theorem Invariant.start {d : Definition} (source : Files) (central : d.layoutName ≠ "module-local".toList)
    (fresh : d.versionsWithInfo = []) : Invariant hash root ⟨d, source, Dict.empty⟩ false 0 where
  count := by rw [fresh]; rfl
  central := central
  keys := fun _ member => absurd member List.not_mem_nil
  listed := fun k pos le => by omega
  current := fun _ found => by cases found
  stable := fun found => by cases found
  populated := fun pos => by omega
  frozen_pos := fun h => by cases h

theorem Invariant.edit (inv : Invariant hash root s frozen n) (source : Files) :
    Invariant hash root { s with source } frozen n :=
  ⟨inv.count, inv.central, inv.keys, inv.listed, inv.current, inv.stable, inv.populated, inv.frozen_pos⟩

theorem Invariant.update [DecidableEq Hash] (inv : Invariant hash root s frozen n)
    (load : loadInterface root s.definition = .ok i)
    (ends : Ends (handleUpdateApi hash shell i) s () t) : Invariant hash root t false n := by
  obtain ⟨tag, ok, rfl⟩ := handleUpdateApi_ends (layout_of_loaded load ▸ inv.central) ends
  obtain ⟨stable, -, rfl⟩ := tag_of_loaded load ok
  rw [inv.count]
  exact inv.setCurrent _ load stable

/-! ### Freezing -/

/-- A freeze never ends on a `current` that was frozen already: its hash has the tag of the version it became. -/
theorem Invariant.freshFrozen (inv : Invariant hash root s frozen n) (free : CollisionFree hash)
    {dump : Dump Hash} (found : s.stable.get? currentVersion = some dump)
    (sealed : dump.hashFile.isSome → dump.SealedAs hash (versionNumber (n + 1))) : frozen = false := by
  cases frozen with
  | false => rfl
  | true =>
    have old := inv.current dump found
    rw [if_pos rfl] at old
    exact absurd (sealed old.isSome_hashFile) (not_sealedAs_succ free (inv.frozen_pos rfl) old)

/-- The directory of the newest listed version. -/
def newestDump (s : Store Hash) : Option (Dump Hash) :=
  if s.definition.versionsWithInfo.length = 0 then none
  else s.stable.get? (versionNumber s.definition.versionsWithInfo.length)

theorem newestDump_of_frozenDumps {frozen : List (ApiDump Hash)} (load : loadInterface root s.definition = .ok i)
    (found : frozenDumps i s.stable = .ok frozen) : frozen.getLast?.map ApiDump.dump = newestDump s := by
  obtain ⟨each, names⟩ := frozenDumps_eq_ok found
  have count := versionCount_of_loaded load
  rw [newestDump]
  by_cases numbered : hasFrozenVersions s.stable = true
  · have last := congrArg List.getLast? (names numbered)
    rw [AidlInterface.getLast?_versions, count, List.getLast?_map] at last
    split
    · rename_i none_
      rw [if_pos none_, Option.map_eq_none_iff] at last
      rw [last]
      rfl
    · rename_i some_
      rw [if_neg some_, Option.map_eq_some_iff] at last
      obtain ⟨d, last, version⟩ := last
      rw [last, Option.map_some, ← (each d (List.mem_of_getLast? last)).2, version]
  · rw [frozenDumps, if_neg numbered] at found
    cases found
    split
    · rfl
    · symm
      rw [List.getLast?_nil, Option.map_none, Dict.get?_eq_none_iff]
      exact fun member => numbered (List.any_eq_true.mpr ⟨_, member, allDigits_ofInt _⟩)

/-- The status of the comparison of `cur` with the newest listed version; without such a version it counts as 1. -/
def equalityStatus (shell : Shell Hash) (s : Store Hash) (cur : Dump Hash) : ℕ :=
  match newestDump s with
  | some old => shell.equalStatus old.files cur.files
  | none => 1

theorem equalityStatus_of_checked {frozen : List (ApiDump Hash)} {cur : Dump Hash} {k : ℕ} {version : Text}
    (load : loadInterface root s.definition = .ok i) (found : frozenDumps i s.stable = .ok frozen)
    (developed : checkForDevelopment shell i frozen.getLast? ⟨version, cur⟩ = .ok k) :
    k = equalityStatus shell s cur := by
  have newest := newestDump_of_frozenDumps load found
  rw [equalityStatus, ← newest]
  cases last : frozen.getLast? with
  | none =>
    rw [last] at developed
    cases developed
    rfl
  | some old =>
    rw [last] at developed
    obtain ⟨_, -, done⟩ := bind_eq_ok.mp developed
    cases done
    rfl

theorem Invariant.developed (inv : Invariant hash root s frozen n) {dumps : List (ApiDump Hash)} {dump : Dump Hash}
    {k : ℕ} (load : loadInterface root s.definition = .ok i) (all : frozenDumps i s.stable = .ok dumps)
    (found : s.stable.get? currentVersion = some dump)
    (developed : checkForDevelopment shell i dumps.getLast? ⟨i.nextVersion, dump⟩ = .ok k) :
    k = 1 ↔ develops shell s = true := by
  rw [equalityStatus_of_checked load all developed, equalityStatus, newestDump, develops, inv.count, found]
  by_cases none_ : n = 0
  · have missing : s.stable.get? (versionNumber n) = none := by
      rw [Dict.get?_eq_none_iff]
      intro member
      rcases inv.keys _ member with same | ⟨m, pos, le, -⟩
      · exact versionNumber_ne_current n same
      · omega
    rw [if_pos none_, missing]
    exact iff_of_true rfl rfl
  · obtain ⟨newest, dir, -⟩ := inv.listed n (by omega) (Nat.le_refl n)
    rw [if_neg none_, dir]
    exact decide_eq_true_iff.symm

theorem loadInterface_addVersion {d : Definition} (load : loadInterface root d = .ok i) (e : VersionInfo) :
    ∃ j, loadInterface root (d.addVersion e) = .ok j ∧ j.stability = i.stability := by
  obtain ⟨imports, parsed, rfl⟩ := loadInterface_eq_ok load
  exact ⟨_, bind_eq_ok.mpr ⟨imports, parsed, rfl⟩, rfl⟩

/-- Copying a sealed `current` to the next version and listing it: both are then sealed as that version. -/
theorem Invariant.addVersion {dump : Dump Hash} (inv : Invariant hash root s false n)
    (load : loadInterface root s.definition = .ok i) (stable : ¬i.unstable)
    (found : s.stable.get? currentVersion = some dump) (e : VersionInfo) :
    Invariant hash root
      ⟨s.definition.addVersion e, s.source, s.stable.set (versionNumber (n + 1)) dump⟩ true (n + 1) where
  count := by rw [Definition.addVersion, List.length_append, inv.count]; rfl
  central := inv.central
  keys := by
    intro ver member
    rcases Dict.mem_keys_set.mp member with same | member
    · exact .inr ⟨n + 1, by omega, by omega, same⟩
    · rcases inv.keys ver member with same | ⟨k, pos, le, same⟩
      · exact .inl same
      · exact .inr ⟨k, pos, by omega, same⟩
  listed := by
    intro k pos le
    by_cases new : k = n + 1
    · subst new
      exact ⟨dump, by rw [Dict.get?_set, if_pos rfl], inv.current dump found⟩
    · obtain ⟨d, dir, sealed⟩ := inv.listed k pos (by omega)
      refine ⟨d, ?_, sealed⟩
      rw [Dict.get?_set, if_neg (fun same => new (versionNumber_injective same))]
      exact dir
  current := by
    intro d again
    rw [Dict.get?_set, if_neg (versionNumber_ne_current _).symm, found] at again
    cases again
    exact inv.current dump found
  stable := by
    obtain ⟨j, load', same⟩ := loadInterface_addVersion load e
    exact fun _ => ⟨j, load', fun unstable => stable (same.symm.trans unstable)⟩
  populated := by
    intro _
    rw [Dict.get?_set, if_neg (versionNumber_ne_current _).symm, found]
    rfl
  frozen_pos := fun _ => by omega

theorem Invariant.freeze [DecidableEq Hash] (inv : Invariant hash root s frozen n) (free : CollisionFree hash)
    (works : shell.Works) (load : loadInterface root s.definition = .ok i)
    (ends : Ends (handleFreezeApi hash shell i) s () t) :
    frozen = false ∧ Invariant hash root t (develops shell s) (if develops shell s then n + 1 else n) := by
  obtain ⟨dumps, dump, tag, k, imports, all, found, valid, ok, developed, -, rfl⟩ := handleFreezeApi_ends ends
  obtain ⟨stable, next, rfl⟩ := tag_of_loaded load ok
  rw [inv.count] at next
  have fresh : frozen = false := inv.freshFrozen free found fun hashed =>
    next ▸ validateDumps_sealed valid ⟨i.nextVersion, dump⟩ (List.mem_append_right _ List.mem_cons_self) hashed
  have sealed := inv.setCurrent dump.files load stable
  refine ⟨fresh, ?_⟩
  rw [inv.count, next]
  have development := inv.developed load all found developed
  by_cases one : k = 1
  · -- no directory has the number of the next version, so the copy is the sealed `current` itself
    have missing : s.stable.get? (versionNumber (n + 1)) = none := by
      rw [Dict.get?_eq_none_iff]
      intro member
      rcases inv.keys _ member with same | ⟨m, pos, le, same⟩
      · exact versionNumber_ne_current _ same
      · have := versionNumber_injective same
        omega
    rw [development.mp one, if_pos rfl, recordVersion, if_pos ⟨one, works.appends⟩]
    have result := sealed.addVersion load stable (by rw [Dict.get?_set, if_pos rfl]) ⟨versionNumber (n + 1), imports⟩
    simp only [dumpAsVersion, sealCurrent, Dict.get?_set, if_true, one, works.copied,
      if_neg (versionNumber_ne_current (n + 1)), missing, copyDump]
    exact result
  · have none_ : develops shell s = false := by
      rw [← Bool.not_eq_true]
      exact fun h => one (development.mpr h)
    rw [none_, if_neg Bool.false_ne_true, recordVersion, if_neg (fun h => one h.1)]
    simp only [dumpAsVersion, sealCurrent, Dict.get?_set, if_true, one, if_false]
    exact sealed

/-! ### Whole runs -/

theorem Run.invariant [DecidableEq Hash] (free : CollisionFree hash) (run : Run hash root s frozen) :
    ∃ n, Invariant hash root s frozen n := by
  induction run with
  | start source central fresh =>
    exact ⟨0, .start source central fresh⟩
  | @step s t frozen a _ works ends ih =>
    obtain ⟨n, inv⟩ := ih
    cases a with
    | edit source =>
      rw [← ends_modify.mp ends]
      exact ⟨n, inv.edit source⟩
    | update shell =>
      obtain ⟨i, load, ends⟩ := ends_update ends
      exact ⟨n, inv.update load ends⟩
    | freeze shell =>
      obtain ⟨i, load, ends⟩ := ends_freeze ends
      obtain ⟨rfl, after⟩ := inv.freeze free works load ends
      exact ⟨_, after⟩

theorem Invariant.intact_iff (inv : Invariant hash root s frozen n) (free : CollisionFree hash) :
    Intact hash root s ↔ frozen = false := by
  constructor
  · intro intact
    cases frozen with
    | false => rfl
    | true =>
      have pos := inv.frozen_pos rfl
      obtain ⟨d, found⟩ := Option.isSome_iff_exists.mp (inv.populated pos)
      obtain ⟨i, load, stable⟩ := inv.stable (inv.populated pos)
      have old := inv.current d found
      have new := (intact i load).2 d found
      rw [AidlInterface.nextVersion_of_stable stable, versionCount_of_loaded load, inv.count] at new
      exact absurd new (not_sealedAs_succ free pos old)
  · rintro rfl i load
    have count := (versionCount_of_loaded load).trans inv.count
    refine ⟨fun ver member => ?_, fun d found => ?_⟩
    · obtain ⟨k, pos, le, rfl⟩ := AidlInterface.mem_versions.mp member
      exact inv.listed k pos (count ▸ le)
    · obtain ⟨j, load', stable⟩ := inv.stable (by rw [found]; rfl)
      cases load.symm.trans load'
      rw [AidlInterface.nextVersion_of_stable stable, count]
      exact inv.current d found

/-- In every run the stored hashes pass the integrity checks exactly when `current` has not been frozen as a
    version since its last update. -/
theorem hashes_intact_iff [DecidableEq Hash] (free : CollisionFree hash) (run : Run hash root s frozen) :
    Intact hash root s ↔ frozen = false := by
  obtain ⟨n, inv⟩ := run.invariant free
  exact inv.intact_iff free

/-! ### The shortest run with a freeze -/

/-- A hash without collisions. -/
def pairHash : List (Text × Text) → Text → List (Text × Text) × Text := Prod.mk

theorem collisionFree_pairHash : CollisionFree pairHash := fun _ _ _ _ same => Prod.mk.inj same

/-- Tools that accept every API and find every interface as it was frozen last. -/
def willingShell : Shell (List (Text × Text) × Text) :=
  ⟨willingHost, Dict.empty, fun _ _ => true, fun _ _ => 0, true, fun dump old => some (copyDump dump old), true⟩

def halDefinition : Definition := ⟨"hal".toList, [], none, none, none, []⟩

def halRoot : Text := "hal/current".toList

def halFiles : Files := Dict.ofPairs [("IHal.aidl".toList, "interface IHal;".toList)]

/-- `current` as an update leaves it for version 1. -/
def halDump : Dump (List (Text × Text) × Text) :=
  ⟨halFiles, some [pairHash (sortedFiles halFiles) "latest-version".toList]⟩

def halUpdated : Store (List (Text × Text) × Text) :=
  ⟨halDefinition, halFiles, Dict.ofPairs [(currentVersion, halDump)]⟩

def halFrozen : Store (List (Text × Text) × Text) :=
  ⟨halDefinition.addVersion ⟨"1".toList, []⟩, halFiles, Dict.ofPairs [(currentVersion, halDump), ("1".toList, halDump)]⟩

theorem halUpdated_run : Run pairHash halRoot halUpdated false := by
  refine .step (s := ⟨halDefinition, halFiles, Dict.empty⟩) (a := .update willingShell)
    (.start halFiles (by decide) rfl) ⟨fun _ _ => rfl, rfl⟩ ?_
  decide +kernel

theorem halFrozen_run : Run pairHash halRoot halFrozen true := by
  refine .step (a := .freeze willingShell) halUpdated_run ⟨fun _ _ => rfl, rfl⟩ ?_
  decide +kernel

theorem hashes_intact_after_update :
    Run pairHash halRoot halUpdated false ∧ (Intact pairHash halRoot halUpdated ↔ false = false) :=
  ⟨halUpdated_run, hashes_intact_iff collisionFree_pairHash halUpdated_run⟩

/-- One update and one freeze leave a `current` whose stored hash carries the tag `latest-version`, while the next
    validation asks for the tag `1`. -/
theorem freeze_invalidates_hash : Run pairHash halRoot halFrozen true ∧ ¬Intact pairHash halRoot halFrozen := by
  refine ⟨halFrozen_run, fun intact => ?_⟩
  obtain ⟨n, inv⟩ := halFrozen_run.invariant collisionFree_pairHash
  have fresh := (inv.intact_iff collisionFree_pairHash).mp intact
  cases fresh

end BinderIdl.Interface
