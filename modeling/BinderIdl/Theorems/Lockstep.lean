import BinderIdl.Theorems.Configure

/-! The two entry files of the target build beside each other: `CMakeLists.inc` knows only the older switches and takes
    another default for the wire protocol. -/

namespace BinderIdl.Build
open Py

variable {vars : Cache Switch} {sizeofVoidP : ℕ}

/-! ### What `CMakeLists.txt` accepts -/

/-- The switch of the protocol and its older spelling come down to this protocol. -/
structure Settles (vars : Cache Switch) (protocol : Text) : Prop where
  known : protocol = protocol7 ∨ protocol = protocol8
  stated : vars .binderProtocol = none ∨ vars .binderProtocol = some protocol
  legacy : ∀ value, vars .binderIpc32Bit = some value → legacyProtocol value = protocol
  default : vars .binderProtocol = none → vars .binderIpc32Bit = none → protocol = protocol8

theorem resolveProtocol_eq_ok {protocol : Text} :
    resolveProtocol vars sizeofVoidP = .ok protocol ↔ Settles vars protocol ∧ ¬(protocol = protocol7 ∧ sizeofVoidP = 8) := by
  rw [resolveProtocol, bind_eq_ok]
  constructor
  · rintro ⟨stated, same, settled⟩
    obtain ⟨value, legacy⟩ := agreed_eq_ok same
    by_cases wrong : stated.getD protocol8 ≠ protocol7 ∧ stated.getD protocol8 ≠ protocol8
    · simp only [if_pos wrong] at settled
      cases settled
    · by_cases wide : stated.getD protocol8 = protocol7 ∧ sizeofVoidP = 8
      · simp only [if_neg wrong, if_pos wide] at settled
        cases settled
      · simp only [if_neg wrong, if_neg wide] at settled
        cases settled
        refine ⟨⟨by tauto, ?_, ?_, ?_⟩, wide⟩
        · cases given : vars .binderProtocol with
          | none => exact .inl rfl
          | some p => rw [value p given]; exact .inr rfl
        · intro v given
          rw [legacy (legacyProtocol v) (by rw [given]; rfl)]
          rfl
        · intro noProtocol noIpc
          rw [noProtocol, noIpc] at same
          cases same
          rfl
  · rintro ⟨settles, narrow⟩
    have agree : ∃ stated, agreed .protocolDisagrees (vars .binderProtocol) ((vars .binderIpc32Bit).map legacyProtocol) =
        .ok stated ∧ stated.getD protocol8 = protocol := by
      cases ipc : vars .binderIpc32Bit with
      | none =>
        rcases settles.stated with given | given
        · rw [given]
          exact ⟨none, rfl, (settles.default given ipc).symm⟩
        · rw [given]
          exact ⟨some protocol, rfl, rfl⟩
      | some v =>
        rw [Option.map_some, settles.legacy v ipc]
        rcases settles.stated with given | given
        · rw [given]
          exact ⟨some protocol, rfl, rfl⟩
        · rw [given]
          exact ⟨some protocol, if_pos rfl, rfl⟩
    obtain ⟨stated, same, rfl⟩ := agree
    refine ⟨stated, same, ?_⟩
    have known : ¬(stated.getD protocol8 ≠ protocol7 ∧ stated.getD protocol8 ≠ protocol8) := fun wrong =>
      settles.known.elim wrong.1 wrong.2
    simp only [if_neg known, if_neg narrow]
    rfl

theorem legacyBitness_suits_wide :
    ¬(isOn (vars .targetLib32Version) ∧ isOn (vars .targetLib64Version)) ∧ Suits 8 (legacyBitness vars) ↔
      isOn (vars .targetLib32Version) = false := by
  rw [legacyBitness]
  by_cases wide : isOn (vars .targetLib64Version) = true
  · rw [if_pos wide, wide]
    simp [Suits, show toolchainBits 8 = bits64 by decide +kernel]
  · rw [if_neg wide]
    cases vars .targetLib32Version with
    | none => simp [Suits, isOn]
    | some v =>
      cases truth : isTrue v with
      | false => simp [Suits, isOn, truth, show toolchainBits 8 = bits64 by decide +kernel]
      | true => simp [Suits, isOn, truth, show toolchainBits 8 = bits64 by decide +kernel, bits32, bits64]

theorem legacyBitness_suits_narrow :
    ¬(isOn (vars .targetLib32Version) ∧ isOn (vars .targetLib64Version)) ∧ Suits 4 (legacyBitness vars) ↔
      legacyBitness vars ≠ some bits64 := by
  rw [legacyBitness]
  by_cases wide : isOn (vars .targetLib64Version) = true
  · rw [if_pos wide, wide]
    simp [Suits, show toolchainBits 4 = bits32 by decide +kernel, bits32, bits64]
  · rw [if_neg wide, Bool.eq_false_of_not_eq_true wide]
    cases vars .targetLib32Version with
    | none => simp [Suits]
    | some v =>
      cases truth : isTrue v with
      | false => simp [Suits, truth, show toolchainBits 4 = bits32 by decide +kernel, bits32, bits64]
      | true => simp [Suits, truth, show toolchainBits 4 = bits32 by decide +kernel, bits32, bits64]

theorem cmakeLists_accepts (sized : Sized sizeofVoidP) {r : Resolution} :
    cmakeLists vars sizeofVoidP = .ok r ↔
      Suits sizeofVoidP (vars .targetBitness) ∧
        (¬(isOn (vars .targetLib32Version) ∧ isOn (vars .targetLib64Version)) ∧ Suits sizeofVoidP (legacyBitness vars)) ∧
        ∃ protocol, Settles vars protocol ∧ ¬(protocol = protocol7 ∧ sizeofVoidP = 8) ∧
          r = ⟨toolchainBits sizeofVoidP, protocol, protocol = protocol7⟩ := by
  rw [cmakeLists_eq_ok]
  constructor
  · rintro ⟨bitness, protocol, isBitness, isProtocol, rfl⟩
    obtain ⟨notBoth, suits, legacy, rfl⟩ := (resolveBitness_eq_ok sized).mp isBitness
    obtain ⟨settles, narrow⟩ := resolveProtocol_eq_ok.mp isProtocol
    exact ⟨suits, ⟨notBoth, legacy⟩, protocol, settles, narrow, rfl⟩
  · rintro ⟨suits, ⟨notBoth, legacy⟩, protocol, settles, narrow, rfl⟩
    exact ⟨_, protocol, (resolveBitness_eq_ok sized).mpr ⟨notBoth, suits, legacy, rfl⟩,
      resolveProtocol_eq_ok.mpr ⟨settles, narrow⟩, rfl⟩

/-! ### Both files -/

/-- Both files reject the configuration, or both accept it with the same wire protocol and the same bitness. -/
def Alike : Except ConfigError IncResolution → Except ConfigError Resolution → Prop
  | .ok inc, .ok txt => inc.ipc32Bit = txt.ipc32Bit ∧ inc.lib32 = txt.lib32
  | .error _, .error _ => True
  | _, _ => False

theorem alike_ok_iff {inc : IncResolution} {txt : Except ConfigError Resolution} :
    Alike (.ok inc) txt ↔ ∃ r, txt = .ok r ∧ inc.ipc32Bit = r.ipc32Bit ∧ inc.lib32 = r.lib32 := by
  cases txt with
  | error e => exact iff_of_false id fun ⟨_, same, _⟩ => by cases same
  | ok r => exact ⟨fun h => ⟨r, rfl, h⟩, fun ⟨_, same, h⟩ => by cases same; exact h⟩

theorem alike_error_iff {e : ConfigError} {txt : Except ConfigError Resolution} :
    Alike (.error e) txt ↔ ∀ r, txt ≠ .ok r := by
  cases txt with
  | error e' => exact iff_of_true trivial fun r same => by cases same
  | ok r => exact iff_of_false id fun h => h r rfl

/-- The switches on which the two files agree. With a 64-bit toolchain both reject protocol 7, and otherwise
    `CMakeLists.inc` accepts whatever else is set; with a 32-bit one it rejects a declared 64-bit target only at
    protocol 7, does not know the newer switches, and defaults to protocol 7. -/
def InLockstep (vars : Cache Switch) (sizeofVoidP : ℕ) : Prop :=
  if sizeofVoidP = 8 then
    isOn (vars .binderIpc32Bit) = true ∨
      isOn (vars .targetLib32Version) = false ∧ Suits 8 (vars .targetBitness) ∧
        (vars .binderProtocol = none ∨ vars .binderProtocol = some protocol8)
  else if legacyBitness vars = some bits64 then
    vars .binderIpc32Bit = none ∨ isOn (vars .binderIpc32Bit) = true
  else
    Suits 4 (vars .targetBitness) ∧ (vars .binderIpc32Bit = none → vars .binderProtocol = some protocol7) ∧
      ∀ value, vars .binderIpc32Bit = some value →
        vars .binderProtocol = none ∨ vars .binderProtocol = some (legacyProtocol value)

theorem alike_wide_iff : Alike (cmakeListsInc vars 8) (cmakeLists vars 8) ↔ InLockstep vars 8 := by
  have follows : followsToolchain (vars .binderIpc32Bit) 8 = isOn (vars .binderIpc32Bit) := by
    cases vars .binderIpc32Bit <;> rfl
  have follows' : followsToolchain (vars .targetLib32Version) 8 = isOn (vars .targetLib32Version) := by
    cases vars .targetLib32Version <;> rfl
  rw [InLockstep, if_pos rfl, cmakeListsInc, follows, follows']
  cases ipc : isOn (vars .binderIpc32Bit) with
  | true =>
    rw [if_pos ⟨rfl, rfl⟩, alike_error_iff]
    refine iff_of_true (fun r accepted => ?_) (.inl rfl)
    obtain ⟨-, -, protocol, settles, narrow, -⟩ := (cmakeLists_accepts (.inr rfl)).mp accepted
    obtain ⟨value, given, truth⟩ := isOn_eq_true.mp ipc
    have seven := settles.legacy value given
    rw [legacyProtocol, if_pos truth] at seven
    exact narrow ⟨seven.symm, rfl⟩
  | false =>
    rw [if_neg (fun h => by cases h.1), if_neg (fun h => by cases h.1), alike_ok_iff]
    have legacy8 : ∀ value, vars .binderIpc32Bit = some value → legacyProtocol value = protocol8 := by
      intro value given
      rw [given] at ipc
      have truth : isTrue value = false := ipc
      rw [legacyProtocol, truth]
      rfl
    constructor
    · rintro ⟨r, accepted, -, -⟩
      obtain ⟨suits, legacy, protocol, settles, narrow, -⟩ := (cmakeLists_accepts (.inr rfl)).mp accepted
      have eight : protocol = protocol8 := settles.known.resolve_left fun seven => narrow ⟨seven, rfl⟩
      exact .inr ⟨legacyBitness_suits_wide.mp legacy, suits, eight ▸ settles.stated⟩
    · rintro (on | ⟨notNarrow, suits, stated⟩)
      · cases on
      refine ⟨⟨toolchainBits 8, protocol8, false⟩, (cmakeLists_accepts (.inr rfl)).mpr
        ⟨suits, legacyBitness_suits_wide.mpr notNarrow, protocol8, ⟨.inr rfl, stated, legacy8, fun _ _ => rfl⟩, ?_, ?_⟩,
        rfl, ?_⟩
      · exact fun h => absurd h.1 (by decide)
      · rw [decide_eq_false (by decide)]
      · rw [notNarrow, Bool.and_false]
        decide +kernel

theorem lib32_narrow :
    (!isOn (vars .targetLib64Version) && followsToolchain (vars .targetLib32Version) 4) = true ↔
      legacyBitness vars ≠ some bits64 := by
  rw [legacyBitness]
  cases isOn (vars .targetLib64Version) with
  | true => simp
  | false =>
    cases vars .targetLib32Version with
    | none => simp [followsToolchain]
    | some v => cases truth : isTrue v <;> simp [followsToolchain, truth, bits32, bits64]

theorem alike_narrow_iff : Alike (cmakeListsInc vars 4) (cmakeLists vars 4) ↔ InLockstep vars 4 := by
  rw [InLockstep, if_neg (by decide), cmakeListsInc]
  by_cases wide : legacyBitness vars = some bits64
  · -- `CMakeLists.txt` rejects the declared bitness, `CMakeLists.inc` only protocol 7 with it
    have rejected : ∀ r, cmakeLists vars 4 ≠ .ok r := by
      intro r accepted
      obtain ⟨-, legacy, -⟩ := (cmakeLists_accepts (.inl rfl)).mp accepted
      exact legacyBitness_suits_narrow.mp legacy wide
    have lib32 : (!isOn (vars .targetLib64Version) && followsToolchain (vars .targetLib32Version) 4) = false :=
      Bool.eq_false_of_not_eq_true fun h => lib32_narrow.mp h wide
    rw [if_pos wide, lib32, if_neg (fun h => absurd h.2 (by decide))]
    cases ipc : vars .binderIpc32Bit with
    | none =>
      rw [if_pos ⟨rfl, rfl⟩, alike_error_iff]
      exact iff_of_true rejected (.inl rfl)
    | some value =>
      cases truth : isTrue value with
      | true =>
        rw [if_pos ⟨truth, rfl⟩, alike_error_iff]
        exact iff_of_true rejected (.inr truth)
      | false =>
        have off : followsToolchain (some value) 4 = false := truth
        rw [off, if_neg (fun h => by cases h.1), alike_ok_iff]
        refine iff_of_false (fun ⟨r, accepted, _⟩ => rejected r accepted) ?_
        rintro (none | on)
        · cases none
        · exact Bool.noConfusion (truth.symm.trans on)
  · have lib32 : (!isOn (vars .targetLib64Version) && followsToolchain (vars .targetLib32Version) 4) = true :=
      lib32_narrow.mpr wide
    rw [if_neg wide, lib32, if_neg (fun h => absurd h.2 (by decide)), if_neg (fun h => by cases h.2), alike_ok_iff]
    constructor
    · rintro ⟨r, accepted, sameIpc, -⟩
      obtain ⟨suits, -, protocol, settles, -, rfl⟩ := (cmakeLists_accepts (.inl rfl)).mp accepted
      refine ⟨suits, fun noIpc => ?_, fun value given => settles.legacy value given ▸ settles.stated⟩
      rw [noIpc] at sameIpc
      have seven : protocol = protocol7 := of_decide_eq_true sameIpc.symm
      rcases settles.stated with noProtocol | stated
      · have eight := settles.default noProtocol noIpc
        rw [seven] at eight
        exact absurd eight (by decide)
      · rw [stated, seven]
    · rintro ⟨suits, noIpc, given⟩
      have settled : ∃ protocol, Settles vars protocol ∧
          followsToolchain (vars .binderIpc32Bit) 4 = decide (protocol = protocol7) := by
        cases ipc : vars .binderIpc32Bit with
        | none =>
          have stated := noIpc ipc
          refine ⟨protocol7, ⟨.inl rfl, .inr stated, fun v h => ?_, fun h => ?_⟩, rfl⟩
          · cases ipc.symm.trans h
          · cases stated.symm.trans h
        | some value =>
          refine ⟨legacyProtocol value, ⟨?_, given value ipc, fun v h => ?_, fun _ h => ?_⟩, ?_⟩
          · cases truth : isTrue value <;> simp [legacyProtocol, truth]
          · cases ipc.symm.trans h
            rfl
          · cases ipc.symm.trans h
          · cases truth : isTrue value <;> simp [legacyProtocol, followsToolchain, truth, protocol7, protocol8]
      obtain ⟨protocol, settles, same⟩ := settled
      exact ⟨_, (cmakeLists_accepts (.inl rfl)).mpr ⟨suits, legacyBitness_suits_narrow.mpr wide, protocol, settles,
        (fun h => absurd h.2 (by decide)), rfl⟩, same,
          show true = decide (toolchainBits 4 = "32".toList) by decide +kernel⟩

/-- The two entry files agree on every configuration but those where the older switches of `CMakeLists.inc` say
    something else than all of the switches of `CMakeLists.txt`. -/
theorem entry_files_alike_iff (sized : Sized sizeofVoidP) :
    Alike (cmakeListsInc vars sizeofVoidP) (cmakeLists vars sizeofVoidP) ↔ InLockstep vars sizeofVoidP := by
  rcases sized with rfl | rfl
  · exact alike_narrow_iff
  · exact alike_wide_iff

/-- A 32-bit target with protocol 7, which both of its switches state. -/
def narrowSwitches : Cache Switch :=
  applyArgs [.define .targetBitness bits32, .define .binderProtocol protocol7, .define .binderIpc32Bit on] Cache.empty

theorem entry_files_alike_narrow :
    cmakeLists narrowSwitches 4 = .ok ⟨bits32, protocol7, true⟩ ∧
      Alike (cmakeListsInc narrowSwitches 4) (cmakeLists narrowSwitches 4) := by
  have lockstep : InLockstep narrowSwitches 4 := by
    rw [InLockstep, if_neg (by decide), if_neg (by decide +kernel)]
    refine ⟨.inr (by decide +kernel), fun missing => ?_, fun value given => .inr ?_⟩
    · cases missing
    · cases given
      decide +kernel
  exact ⟨by decide +kernel, (entry_files_alike_iff (.inl rfl)).mpr lockstep⟩

/-- With nothing set and a 32-bit toolchain one file builds protocol 7 and the other protocol 8. -/
theorem default_protocols_differ :
    cmakeListsInc Cache.empty 4 = .ok ⟨true, true⟩ ∧ cmakeLists Cache.empty 4 = .ok ⟨bits32, protocol8, false⟩ ∧
      ¬Alike (cmakeListsInc Cache.empty 4) (cmakeLists Cache.empty 4) := by
  have inc : cmakeListsInc Cache.empty 4 = .ok ⟨true, true⟩ := by decide +kernel
  have txt : cmakeLists Cache.empty 4 = .ok ⟨bits32, protocol8, false⟩ := by decide +kernel
  refine ⟨inc, txt, ?_⟩
  rw [inc, txt]
  rintro ⟨sameIpc, -⟩
  cases sameIpc

end BinderIdl.Build
