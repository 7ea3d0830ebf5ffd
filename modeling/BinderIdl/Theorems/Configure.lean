import BinderIdl.Build.Switches

/-! The two ways to configure the target build, beside each other: what the script asks of `cmake` does not depend on
    what is cached, and it accepts some values of the older switches that `CMakeLists.txt` rejects. -/

namespace BinderIdl.Build
open Py

variable {env cache : Cache Switch} {ptrSize : Text} {sizeofVoidP : ℕ}

/-! ### The variables `CMakeLists.txt` is read with -/

theorem applyArgs_directArgs (env : Cache Switch) : applyArgs (directArgs env) Cache.empty = env := by
  funext name
  rw [directArgs, applyArgs_defines]
  cases name <;> exact (if_pos (by decide)).trans (Option.or_none)

/-- Only the two newer switches are left when the script calls `cmake`. -/
def scriptVars (bits protocol : Option Text) : Cache Switch
  | .targetBitness => bits
  | .binderProtocol => protocol
  | _ => none

theorem applyArgs_cmakeArgs (bits protocol : Option Text) (cache : Cache Switch) :
    applyArgs (cmakeArgs bits protocol) cache = scriptVars bits protocol := by
  have named : ∀ name, ∃ arg ∈ cmakeArgs bits protocol, arg.name = name := by
    intro name
    cases bits <;> cases protocol <;> cases name <;> simp [cmakeArgs, setOrClear, CacheArg.name]
  funext name
  rw [applyArgs_of_named (named name) cache Cache.empty]
  cases bits <;> cases protocol <;> cases name <;> rfl

/-- The script ends as its own checks do, or as `CMakeLists.txt` does on the two newer switches. -/
theorem configureByScript_eq (env : Cache Switch) (ptrSize : Text) (sizeofVoidP : ℕ) (cache : Cache Switch) :
    configureByScript env ptrSize sizeofVoidP cache = (do
      let bitness ← foldBitness env
      let protocol ← foldProtocol env
      let bits := bitness.or (probedBits ptrSize)
      if bits = some bits64 ∧ ptrSize = "4".toList ∧ protocol = none then throw .narrowToolchain
      else cmakeLists (scriptVars bits protocol) sizeofVoidP) := by
  rw [configureByScript, buildScript]
  cases foldBitness env with
  | error e => rfl
  | ok bitness =>
    cases foldProtocol env with
    | error e => rfl
    | ok protocol =>
      simp only [ok_bind]
      by_cases narrow : bitness.or (probedBits ptrSize) = some bits64 ∧ ptrSize = "4".toList ∧ protocol = none
      · rw [if_pos narrow, if_pos narrow]
        rfl
      · rw [if_neg narrow, if_neg narrow, ← applyArgs_cmakeArgs _ _ cache]
        rfl

/-- Whatever earlier configurations have left in the build directory, the script ends as it would in a new one. -/
theorem script_ignores_cache (env : Cache Switch) (ptrSize : Text) (sizeofVoidP : ℕ) (cache : Cache Switch) :
    configureByScript env ptrSize sizeofVoidP cache = configureByScript env ptrSize sizeofVoidP Cache.empty := by
  rw [configureByScript_eq, configureByScript_eq]

/-! ### One bitness and one protocol -/

/-- Every variable that is set has a value. -/
def NonEmpty (env : Cache Switch) : Prop := ∀ name value, env name = some value → value ≠ []

theorem NonEmpty.given (nonEmpty : NonEmpty env) (name : Switch) : given env name = env name := by
  rw [Build.given]
  cases value : env name with
  | none => rfl
  | some v => exact Option.filter_some_pos (decide_eq_true (nonEmpty name v value))

/-- Nothing is stated of the bitness but what the toolchain has. -/
def Suits (sizeofVoidP : ℕ) (stated : Option Text) : Prop :=
  stated = none ∨ stated = some (toolchainBits sizeofVoidP)

theorem suits_agreed (disagree : Text → Text → ConfigError) {value legacy : Option Text} :
    (∃ stated, agreed disagree value legacy = .ok stated ∧ Suits sizeofVoidP stated) ↔
      Suits sizeofVoidP value ∧ Suits sizeofVoidP legacy := by
  cases value with
  | none =>
    constructor
    · rintro ⟨stated, same, suits⟩
      cases same
      exact ⟨.inl rfl, suits⟩
    · rintro ⟨-, suits⟩
      exact ⟨legacy, rfl, suits⟩
  | some v =>
    cases legacy with
    | none =>
      constructor
      · rintro ⟨stated, same, suits⟩
        cases same
        exact ⟨suits, .inl rfl⟩
      · rintro ⟨suits, -⟩
        exact ⟨some v, rfl, suits⟩
    | some l =>
      rw [agreed]
      constructor
      · rintro ⟨stated, same, suits⟩
        by_cases equal : v = l
        · subst equal
          rw [if_pos rfl] at same
          cases same
          exact ⟨suits, suits⟩
        · rw [if_neg equal] at same
          cases same
      · rintro ⟨suits, suits'⟩
        have value : some v = some (toolchainBits sizeofVoidP) := suits.resolve_left fun h => by cases h
        have legacy : some l = some (toolchainBits sizeofVoidP) := suits'.resolve_left fun h => by cases h
        cases value
        cases legacy
        exact ⟨_, if_pos rfl, suits⟩

theorem agreed_eq_ok {disagree : Text → Text → ConfigError} {value legacy stated : Option Text}
    (same : agreed disagree value legacy = .ok stated) :
    (∀ v, value = some v → stated = some v) ∧ ∀ l, legacy = some l → stated = some l := by
  cases value with
  | none =>
    cases same
    exact ⟨(fun v h => by cases h), fun l h => h⟩
  | some v =>
    cases legacy with
    | none =>
      cases same
      exact ⟨fun v h => h, (fun l h => by cases h)⟩
    | some l =>
      rw [agreed] at same
      by_cases equal : v = l
      · subst equal
        rw [if_pos rfl] at same
        cases same
        exact ⟨fun v h => h, fun l h => h⟩
      · rw [if_neg equal] at same
        cases same

theorem checkChoice_eq_ok {wrong : Text → ConfigError} {first second : Text} {stated checked : Option Text}
    (known : checkChoice wrong first second stated = .ok checked) :
    checked = stated ∧ ∀ value, stated = some value → value = first ∨ value = second := by
  cases stated with
  | none =>
    cases known
    exact ⟨rfl, fun value h => by cases h⟩
  | some v =>
    rw [checkChoice] at known
    by_cases choice : v = first ∨ v = second
    · rw [if_pos choice] at known
      cases known
      exact ⟨rfl, fun value same => Option.some.inj same ▸ choice⟩
    · rw [if_neg choice] at known
      cases known

/-- The pointer sizes that a target has. -/
def Sized (sizeofVoidP : ℕ) : Prop := sizeofVoidP = 4 ∨ sizeofVoidP = 8

theorem Sized.toolchainBits (sized : Sized sizeofVoidP) :
    toolchainBits sizeofVoidP = bits32 ∨ toolchainBits sizeofVoidP = bits64 := by
  rcases sized with rfl | rfl
  · exact .inl (by decide +kernel)
  · exact .inr (by decide +kernel)

theorem resolveBitness_eq_ok {vars : Cache Switch} {bitness : Text} (sized : Sized sizeofVoidP) :
    resolveBitness vars sizeofVoidP = .ok bitness ↔
      ¬(isOn (vars .targetLib32Version) ∧ isOn (vars .targetLib64Version)) ∧ Suits sizeofVoidP (vars .targetBitness) ∧
        Suits sizeofVoidP (legacyBitness vars) ∧ bitness = toolchainBits sizeofVoidP := by
  rw [resolveBitness]
  by_cases both : isOn (vars .targetLib32Version) ∧ isOn (vars .targetLib64Version)
  · rw [if_pos both]
    exact iff_of_false (fun h => by cases h) fun h => h.1 both
  · rw [if_neg both, and_iff_right both, ← and_assoc, ← suits_agreed .bitnessDisagrees, bind_eq_ok]
    constructor
    · rintro ⟨stated, same, resolved⟩
      by_cases wrong : stated.getD (toolchainBits sizeofVoidP) ≠ bits32 ∧ stated.getD (toolchainBits sizeofVoidP) ≠ bits64
      · simp only [if_pos wrong] at resolved
        cases resolved
      · simp only [if_neg wrong] at resolved
        by_cases own : stated.getD (toolchainBits sizeofVoidP) = toolchainBits sizeofVoidP
        · rw [if_neg (not_not.mpr own), own] at resolved
          cases resolved
          refine ⟨⟨stated, same, ?_⟩, rfl⟩
          cases stated with
          | none => exact .inl rfl
          | some value => exact .inr (congrArg some own)
        · rw [if_pos own] at resolved
          cases resolved
    · rintro ⟨⟨stated, same, suits⟩, rfl⟩
      refine ⟨stated, same, ?_⟩
      have own : stated.getD (toolchainBits sizeofVoidP) = toolchainBits sizeofVoidP := by
        rcases suits with rfl | rfl
        · rfl
        · rfl
      simp only [own]
      rw [if_neg (by rcases sized.toolchainBits with h | h <;> simp [h]), if_neg (not_not.mpr rfl)]
      rfl

/-- The answer of the compiler to the probe. -/
def probe (sizeofVoidP : ℕ) : Text := ofInt (sizeofVoidP : Int)

theorem probedBits_probe (sized : Sized sizeofVoidP) :
    probedBits (probe sizeofVoidP) = some (toolchainBits sizeofVoidP) := by
  rcases sized with rfl | rfl
  · decide +kernel
  · decide +kernel

/-! ### The protocol -/

/-- The checks of the protocol in `CMakeLists.txt`. -/
def settleProtocol (sizeofVoidP : ℕ) (stated : Option Text) : Except ConfigError Text :=
  let protocol := stated.getD protocol8
  if protocol ≠ protocol7 ∧ protocol ≠ protocol8 then .error (.wrongProtocol protocol)
  else if protocol = protocol7 ∧ sizeofVoidP = 8 then .error .wideToolchain
  else .ok protocol

theorem resolveProtocol_scriptVars (bits protocol : Option Text) :
    resolveProtocol (scriptVars bits protocol) sizeofVoidP = settleProtocol sizeofVoidP protocol := by
  cases protocol with
  | none => rfl
  | some value => rfl

theorem legacyProto_eq_ok (nonEmpty : NonEmpty env) {legacy : Option Text} (folded : legacyProto env = .ok legacy) :
    (env .binderIpc32Bit = none ∨ env .binderIpc32Bit = some on ∨ env .binderIpc32Bit = some off) ∧
      legacy = (env .binderIpc32Bit).map legacyProtocol := by
  rw [legacyProto, nonEmpty.given] at folded
  cases value : env .binderIpc32Bit with
  | none =>
    rw [value] at folded
    cases folded
    exact ⟨.inl rfl, rfl⟩
  | some v =>
    rw [value] at folded
    simp only [onOrOff] at folded
    by_cases isOn : v = on
    · subst isOn
      cases folded
      exact ⟨.inr (.inl rfl), by decide +kernel⟩
    · by_cases isOff : v = off
      · subst isOff
        cases folded
        exact ⟨.inr (.inr rfl), by decide +kernel⟩
      · rw [if_neg isOn, if_neg isOff] at folded
        cases folded

/-- The script and `CMakeLists.txt` fold the older spelling of the protocol alike. -/
theorem resolveProtocol_of_fold (nonEmpty : NonEmpty env) {stated : Option Text}
    (folded : foldProtocol env = .ok stated) :
    resolveProtocol env sizeofVoidP = settleProtocol sizeofVoidP stated := by
  obtain ⟨legacy, proto, rest⟩ := bind_eq_ok.mp folded
  obtain ⟨stated', same, checked⟩ := bind_eq_ok.mp rest
  rw [nonEmpty.given, (legacyProto_eq_ok nonEmpty proto).2] at same
  obtain ⟨rfl, -⟩ := checkChoice_eq_ok checked
  rw [resolveProtocol, same, ok_bind]
  rfl

/-- The switches of the protocol say one thing, and one that the toolchain can build. -/
structure OneProtocol (env : Cache Switch) (sizeofVoidP : ℕ) : Prop where
  protocol : env .binderProtocol = none ∨ env .binderProtocol = some protocol7 ∨ env .binderProtocol = some protocol8
  legacy : env .binderIpc32Bit = none ∨ env .binderIpc32Bit = some on ∨ env .binderIpc32Bit = some off
  notOff : ¬(env .binderProtocol = some protocol7 ∧ env .binderIpc32Bit = some off)
  notOn : ¬(env .binderProtocol = some protocol8 ∧ env .binderIpc32Bit = some on)
  narrow : sizeofVoidP = 8 → env .binderProtocol ≠ some protocol7 ∧ env .binderIpc32Bit ≠ some on

theorem foldProtocol_of_oneProtocol (nonEmpty : NonEmpty env) (one : OneProtocol env sizeofVoidP) :
    ∃ stated protocol, foldProtocol env = .ok stated ∧ settleProtocol sizeofVoidP stated = .ok protocol := by
  obtain ⟨protocol, legacy, notOff, notOn, narrow⟩ := one
  have settled8 : settleProtocol sizeofVoidP (some protocol8) = .ok protocol8 := by
    rw [settleProtocol, Option.getD_some, if_neg (by decide), if_neg fun h => absurd h.1 (by decide)]
  have settled7 (small : sizeofVoidP ≠ 8) : settleProtocol sizeofVoidP (some protocol7) = .ok protocol7 := by
    rw [settleProtocol, Option.getD_some, if_neg (by decide), if_neg fun h => small h.2]
  rcases protocol with unset | seven | eight
  · rcases legacy with unset' | isOn | isOff
    · refine ⟨none, protocol8, ?_, settled8⟩
      simp only [foldProtocol, legacyProto, nonEmpty.given, unset, unset']
      rfl
    · refine ⟨some protocol7, protocol7, ?_, settled7 fun wide => (narrow wide).2 isOn⟩
      simp only [foldProtocol, legacyProto, nonEmpty.given, unset, isOn]
      rfl
    · refine ⟨some protocol8, protocol8, ?_, settled8⟩
      simp only [foldProtocol, legacyProto, nonEmpty.given, unset, isOff]
      rfl
  · refine ⟨some protocol7, protocol7, ?_, settled7 fun wide => (narrow wide).1 seven⟩
    rcases legacy with unset' | isOn | isOff
    · simp only [foldProtocol, legacyProto, nonEmpty.given, seven, unset']
      rfl
    · simp only [foldProtocol, legacyProto, nonEmpty.given, seven, isOn]
      rfl
    · exact absurd ⟨seven, isOff⟩ notOff
  · refine ⟨some protocol8, protocol8, ?_, settled8⟩
    rcases legacy with unset' | isOn | isOff
    · simp only [foldProtocol, legacyProto, nonEmpty.given, eight, unset']
      rfl
    · exact absurd ⟨eight, isOn⟩ notOn
    · simp only [foldProtocol, legacyProto, nonEmpty.given, eight, isOff]
      rfl

theorem foldProtocol_eq_ok (nonEmpty : NonEmpty env) {stated : Option Text} (folded : foldProtocol env = .ok stated) :
    (∀ value, env .binderProtocol = some value → stated = some value) ∧
      (∀ value, env .binderIpc32Bit = some value → (value = on ∨ value = off) ∧ stated = some (legacyProtocol value)) ∧
      ∀ value, stated = some value → value = protocol7 ∨ value = protocol8 := by
  obtain ⟨legacy, proto, rest⟩ := bind_eq_ok.mp folded
  obtain ⟨stated', same, checked⟩ := bind_eq_ok.mp rest
  obtain ⟨spelt, legacyIs⟩ := legacyProto_eq_ok nonEmpty proto
  rw [nonEmpty.given] at same
  obtain ⟨fromValue, fromLegacy⟩ := agreed_eq_ok same
  obtain ⟨rfl, known⟩ := checkChoice_eq_ok checked
  refine ⟨fromValue, fun value isValue => ⟨?_, fromLegacy _ ?_⟩, known⟩
  · rw [isValue] at spelt
    rcases spelt with h | h | h
    · cases h
    · exact .inl (Option.some.inj h)
    · exact .inr (Option.some.inj h)
  · rw [legacyIs, isValue]
    rfl

theorem oneProtocol_of_fold (nonEmpty : NonEmpty env) {stated : Option Text} {protocol : Text}
    (folded : foldProtocol env = .ok stated) (settled : settleProtocol sizeofVoidP stated = .ok protocol) :
    OneProtocol env sizeofVoidP := by
  obtain ⟨fromValue, fromLegacy, known⟩ := foldProtocol_eq_ok nonEmpty folded
  have isOn (legacy : env .binderIpc32Bit = some on) : stated = some protocol7 :=
    (fromLegacy on legacy).2.trans (by decide +kernel)
  have isOff (legacy : env .binderIpc32Bit = some off) : stated = some protocol8 :=
    (fromLegacy off legacy).2.trans (by decide +kernel)
  have narrow (seven : stated = some protocol7) : sizeofVoidP ≠ 8 := by
    rintro rfl
    rw [seven] at settled
    cases settled
  refine ⟨?_, ?_, ?_, ?_, fun wide => ⟨fun seven => narrow (fromValue _ seven) wide, fun legacy => narrow (isOn legacy) wide⟩⟩
  · cases value : env .binderProtocol with
    | none => exact .inl rfl
    | some v =>
      rcases known v (fromValue v value) with rfl | rfl
      · exact .inr (.inl rfl)
      · exact .inr (.inr rfl)
  · cases value : env .binderIpc32Bit with
    | none => exact .inl rfl
    | some v =>
      rcases (fromLegacy v value).1 with rfl | rfl
      · exact .inr (.inl rfl)
      · exact .inr (.inr rfl)
  · rintro ⟨seven, legacy⟩
    cases (fromValue _ seven).symm.trans (isOff legacy)
  · rintro ⟨eight, legacy⟩
    cases (fromValue _ eight).symm.trans (isOn legacy)

/-! ### The bitness -/

theorem legacyBits_eq_ok (nonEmpty : NonEmpty env) {legacy : Option Text} :
    legacyBits env = .ok legacy ↔
      (env .targetLib64Version = some on ∧ legacy = some bits64) ∨
        (env .targetLib64Version ≠ some on ∧
          ((env .targetLib32Version = none ∧ legacy = none) ∨
            (env .targetLib32Version = some on ∧ legacy = some bits32) ∨
            (env .targetLib32Version = some off ∧ legacy = some bits64))) := by
  rw [legacyBits, nonEmpty.given, nonEmpty.given]
  by_cases wide : env .targetLib64Version = some on
  · rw [if_pos wide]
    constructor
    · intro folded
      cases folded
      exact .inl ⟨wide, rfl⟩
    · rintro (⟨-, rfl⟩ | ⟨other, -⟩)
      · rfl
      · exact absurd wide other
  · rw [if_neg wide]
    cases value : env .targetLib32Version with
    | none =>
      constructor
      · intro folded
        cases folded
        exact .inr ⟨wide, .inl ⟨rfl, rfl⟩⟩
      · rintro (⟨isWide, -⟩ | ⟨-, ⟨-, rfl⟩ | ⟨h, -⟩ | ⟨h, -⟩⟩)
        · exact absurd isWide wide
        · rfl
        · cases h
        · cases h
    | some v =>
      simp only [onOrOff]
      constructor
      · intro folded
        by_cases isOn : v = on
        · subst isOn
          cases folded
          exact .inr ⟨wide, .inr (.inl ⟨rfl, rfl⟩)⟩
        · by_cases isOff : v = off
          · subst isOff
            cases folded
            exact .inr ⟨wide, .inr (.inr ⟨rfl, rfl⟩)⟩
          · rw [if_neg isOn, if_neg isOff] at folded
            cases folded
      · rintro (⟨isWide, -⟩ | ⟨-, ⟨h, -⟩ | ⟨h, rfl⟩ | ⟨h, rfl⟩⟩)
        · exact absurd isWide wide
        · cases h
        · cases h
          rfl
        · cases h
          rfl

theorem suits_foldBitness (nonEmpty : NonEmpty env) (sized : Sized sizeofVoidP) :
    (∃ stated, foldBitness env = .ok stated ∧ Suits sizeofVoidP stated) ↔
      ¬(env .targetLib32Version = some on ∧ env .targetLib64Version = some on) ∧
        Suits sizeofVoidP (env .targetBitness) ∧
        ∃ legacy, legacyBits env = .ok legacy ∧ Suits sizeofVoidP legacy := by
  rw [foldBitness, nonEmpty.given, nonEmpty.given, nonEmpty.given]
  by_cases both : env .targetLib32Version = some on ∧ env .targetLib64Version = some on
  · rw [if_pos both]
    refine iff_of_false ?_ fun h => h.1 both
    rintro ⟨stated, folded, -⟩
    cases folded
  · rw [if_neg both, and_iff_right both]
    constructor
    · rintro ⟨stated, folded, suits⟩
      obtain ⟨legacy, isLegacy, rest⟩ := bind_eq_ok.mp folded
      obtain ⟨stated', same, checked⟩ := bind_eq_ok.mp rest
      obtain ⟨rfl, -⟩ := checkChoice_eq_ok checked
      obtain ⟨value, older⟩ := (suits_agreed _).mp ⟨_, same, suits⟩
      exact ⟨value, legacy, isLegacy, older⟩
    · rintro ⟨value, legacy, isLegacy, older⟩
      obtain ⟨stated, same, suits⟩ := (suits_agreed .bitnessDisagrees).mpr ⟨value, older⟩
      refine ⟨stated, ?_, suits⟩
      rw [isLegacy, ok_bind, same, ok_bind]
      rcases suits with rfl | rfl
      · rfl
      · exact if_pos sized.toolchainBits

/-- The older switches ask for a bitness in a value that the script passes over: a true one other than `ON`. -/
def Overlooked (env : Cache Switch) (sizeofVoidP : ℕ) : Prop :=
  (sizeofVoidP = 4 ∧ (∃ value, env .targetLib64Version = some value ∧ isTrue value ∧ value ≠ on) ∧
    (env .targetLib32Version = none ∨ env .targetLib32Version = some on)) ∨
  (sizeofVoidP = 8 ∧ env .targetLib64Version = some on ∧
    ∃ value, env .targetLib32Version = some value ∧ isTrue value ∧ value ≠ on)

theorem suits_bits32 (sized : Sized sizeofVoidP) : Suits sizeofVoidP (some bits32) ↔ sizeofVoidP = 4 := by
  rcases sized with rfl | rfl
  · exact iff_of_true (.inr (by decide +kernel)) rfl
  · exact iff_of_false (by rw [Suits]; decide +kernel) (by decide)

theorem suits_bits64 (sized : Sized sizeofVoidP) : Suits sizeofVoidP (some bits64) ↔ sizeofVoidP = 8 := by
  rcases sized with rfl | rfl
  · exact iff_of_false (by rw [Suits]; decide +kernel) (by decide)
  · exact iff_of_true (.inr (by decide +kernel)) rfl

theorem isOn_eq_true {value : Option Text} : isOn value = true ↔ ∃ v, value = some v ∧ isTrue v = true := by
  cases value with
  | none => exact iff_of_false (by decide) fun ⟨v, h, _⟩ => by cases h
  | some v => exact ⟨fun h => ⟨v, rfl, h⟩, fun ⟨w, same, h⟩ => Option.some.inj same ▸ h⟩

/-- `CMakeLists.txt` takes a bitness of the script's as well, unless it sees a value that was passed over. -/
theorem resolveBitness_of_fold (nonEmpty : NonEmpty env) (sized : Sized sizeofVoidP)
    (folded : ∃ stated, foldBitness env = .ok stated ∧ Suits sizeofVoidP stated) (seen : ¬Overlooked env sizeofVoidP) :
    resolveBitness env sizeofVoidP = .ok (toolchainBits sizeofVoidP) := by
  obtain ⟨notBoth, value, legacy, isLegacy, older⟩ := (suits_foldBitness nonEmpty sized).mp folded
  rw [resolveBitness_eq_ok sized]
  rcases (legacyBits_eq_ok nonEmpty).mp isLegacy with ⟨wide, rfl⟩ | ⟨notWide, narrow⟩
  · have eight := (suits_bits64 sized).mp older
    have wideOn : isOn (env .targetLib64Version) = true := by rw [wide]; decide +kernel
    refine ⟨fun ⟨narrowOn, _⟩ => ?_, value, ?_, rfl⟩
    · obtain ⟨v, isValue, true_⟩ := isOn_eq_true.mp narrowOn
      exact seen (.inr ⟨eight, wide, v, isValue, true_, fun same => notBoth ⟨same ▸ isValue, wide⟩⟩)
    · rw [legacyBitness, if_pos wideOn]
      exact older
  · by_cases wideOn : isOn (env .targetLib64Version) = true
    · obtain ⟨v, isValue, true_⟩ := isOn_eq_true.mp wideOn
      have otherTrue : ∃ value, env .targetLib64Version = some value ∧ isTrue value ∧ value ≠ on :=
        ⟨v, isValue, true_, fun same => notWide (same ▸ isValue)⟩
      have eight : sizeofVoidP = 8 := by
        rcases narrow with ⟨unset, rfl⟩ | ⟨isOn, rfl⟩ | ⟨isOff, rfl⟩
        · exact sized.resolve_left fun four => seen (.inl ⟨four, otherTrue, .inl unset⟩)
        · exact absurd (.inl ⟨(suits_bits32 sized).mp older, otherTrue, .inr isOn⟩) seen
        · exact (suits_bits64 sized).mp older
      refine ⟨fun ⟨narrowOn, _⟩ => ?_, value, ?_, rfl⟩
      · rcases narrow with ⟨unset, rfl⟩ | ⟨isOn, rfl⟩ | ⟨isOff, rfl⟩
        · rw [unset] at narrowOn
          cases narrowOn
        · have four := (suits_bits32 sized).mp older
          omega
        · rw [isOff] at narrowOn
          exact absurd narrowOn (by decide +kernel)
      · rw [legacyBitness, if_pos wideOn]
        exact (suits_bits64 sized).mpr eight
    · refine ⟨fun ⟨_, h⟩ => wideOn h, value, ?_, rfl⟩
      have same : legacyBitness env = legacy := by
        rw [legacyBitness, if_neg wideOn]
        rcases narrow with ⟨unset, rfl⟩ | ⟨isOn, rfl⟩ | ⟨isOff, rfl⟩
        · rw [unset]
          rfl
        · rw [isOn]
          decide +kernel
        · rw [isOff]
          decide +kernel
      rw [same]
      exact older

/-- A value that was passed over is one that `CMakeLists.txt` rejects. -/
theorem resolveBitness_of_overlooked (sized : Sized sizeofVoidP) (overlooked : Overlooked env sizeofVoidP)
    (bitness : Text) : resolveBitness env sizeofVoidP ≠ .ok bitness := by
  intro resolved
  obtain ⟨notBoth, -, older, -⟩ := (resolveBitness_eq_ok sized).mp resolved
  rcases overlooked with ⟨four, ⟨v, isValue, true_, -⟩, narrow⟩ | ⟨-, wide, v, isValue, true_, -⟩
  · have wideOn : isOn (env .targetLib64Version) = true := isOn_eq_true.mpr ⟨v, isValue, true_⟩
    rw [legacyBitness, if_pos wideOn, suits_bits64 sized] at older
    omega
  · exact notBoth ⟨isOn_eq_true.mpr ⟨v, isValue, true_⟩, isOn_eq_true.mpr ⟨on, wide, by decide +kernel⟩⟩

theorem foldBitness_of_overlooked (nonEmpty : NonEmpty env) (sized : Sized sizeofVoidP)
    (overlooked : Overlooked env sizeofVoidP) (value : Suits sizeofVoidP (env .targetBitness)) :
    ∃ stated, foldBitness env = .ok stated ∧ Suits sizeofVoidP stated := by
  rw [suits_foldBitness nonEmpty sized]
  rcases overlooked with ⟨four, ⟨v, isValue, -, other⟩, narrow⟩ | ⟨eight, wide, v, isValue, -, other⟩
  · have notWide : env .targetLib64Version ≠ some on := fun wide => other (Option.some.inj (isValue.symm.trans wide))
    refine ⟨fun both => notWide both.2, value, ?_⟩
    rcases narrow with unset | isOn
    · exact ⟨none, (legacyBits_eq_ok nonEmpty).mpr (.inr ⟨notWide, .inl ⟨unset, rfl⟩⟩), .inl rfl⟩
    · exact ⟨some bits32, (legacyBits_eq_ok nonEmpty).mpr (.inr ⟨notWide, .inr (.inl ⟨isOn, rfl⟩)⟩),
        (suits_bits32 sized).mpr four⟩
  · refine ⟨fun both => other (Option.some.inj (isValue.symm.trans both.1)), value, some bits64, ?_,
      (suits_bits64 sized).mpr eight⟩
    exact (legacyBits_eq_ok nonEmpty).mpr (.inl ⟨wide, rfl⟩)

/-! ### Both ways -/

theorem cmakeLists_eq_ok {vars : Cache Switch} {r : Resolution} :
    cmakeLists vars sizeofVoidP = .ok r ↔
      ∃ bitness protocol, resolveBitness vars sizeofVoidP = .ok bitness ∧
        resolveProtocol vars sizeofVoidP = .ok protocol ∧ r = ⟨bitness, protocol, protocol = protocol7⟩ := by
  rw [cmakeLists, bind_eq_ok]
  constructor
  · rintro ⟨bitness, isBitness, rest⟩
    obtain ⟨protocol, isProtocol, done⟩ := bind_eq_ok.mp rest
    cases done
    exact ⟨bitness, protocol, isBitness, isProtocol, rfl⟩
  · rintro ⟨bitness, protocol, isBitness, isProtocol, rfl⟩
    exact ⟨bitness, isBitness, bind_eq_ok.mpr ⟨protocol, isProtocol, rfl⟩⟩

theorem configureDirectly_eq_ok {r : Resolution} :
    configureDirectly env sizeofVoidP Cache.empty = .ok r ↔
      ∃ bitness protocol, resolveBitness env sizeofVoidP = .ok bitness ∧ resolveProtocol env sizeofVoidP = .ok protocol ∧
        r = ⟨bitness, protocol, protocol = protocol7⟩ := by
  rw [configureDirectly, applyArgs_directArgs, cmakeLists_eq_ok]

theorem resolveBitness_scriptVars (sized : Sized sizeofVoidP) {bits protocol : Option Text} {bitness : Text} :
    resolveBitness (scriptVars bits protocol) sizeofVoidP = .ok bitness ↔
      Suits sizeofVoidP bits ∧ bitness = toolchainBits sizeofVoidP := by
  rw [resolveBitness_eq_ok sized]
  constructor
  · rintro ⟨-, suits, -, same⟩
    exact ⟨suits, same⟩
  · rintro ⟨suits, same⟩
    exact ⟨(fun ⟨h, _⟩ => by cases h), suits, .inl rfl, same⟩

theorem suits_or_toolchainBits {stated : Option Text} :
    Suits sizeofVoidP (stated.or (some (toolchainBits sizeofVoidP))) ↔ Suits sizeofVoidP stated := by
  cases stated with
  | none => exact iff_of_true (.inr rfl) (.inl rfl)
  | some v => exact Iff.rfl

/-- The script accepts what it can fold to the toolchain's bitness and to a protocol that the toolchain can build. -/
theorem configureByScript_eq_ok (sized : Sized sizeofVoidP) {r : Resolution} :
    configureByScript env (probe sizeofVoidP) sizeofVoidP cache = .ok r ↔
      (∃ stated, foldBitness env = .ok stated ∧ Suits sizeofVoidP stated) ∧
        ∃ stated protocol, foldProtocol env = .ok stated ∧ settleProtocol sizeofVoidP stated = .ok protocol ∧
          r = ⟨toolchainBits sizeofVoidP, protocol, protocol = protocol7⟩ := by
  rw [configureByScript_eq, probedBits_probe sized, bind_eq_ok]
  constructor
  · rintro ⟨bitness, folded, rest⟩
    obtain ⟨stated, foldedProtocol, resolved⟩ := bind_eq_ok.mp rest
    by_cases narrow : bitness.or (some (toolchainBits sizeofVoidP)) = some bits64 ∧
        probe sizeofVoidP = "4".toList ∧ stated = none
    · rw [if_pos narrow] at resolved
      cases resolved
    · rw [if_neg narrow] at resolved
      obtain ⟨bits, isBits, rest⟩ := bind_eq_ok.mp resolved
      obtain ⟨protocol, settled, done⟩ := bind_eq_ok.mp rest
      rw [resolveBitness_scriptVars sized, suits_or_toolchainBits] at isBits
      rw [resolveProtocol_scriptVars] at settled
      obtain ⟨suits, rfl⟩ := isBits
      cases done
      exact ⟨⟨bitness, folded, suits⟩, stated, protocol, foldedProtocol, settled, rfl⟩
  · rintro ⟨⟨bitness, folded, suits⟩, stated, protocol, foldedProtocol, settled, rfl⟩
    refine ⟨bitness, folded, bind_eq_ok.mpr ⟨stated, foldedProtocol, ?_⟩⟩
    rw [← suits_or_toolchainBits] at suits
    have wide : ¬(bitness.or (some (toolchainBits sizeofVoidP)) = some bits64 ∧
        probe sizeofVoidP = "4".toList ∧ stated = none) := by
      rintro ⟨is64, four, -⟩
      rw [is64, suits_bits64 sized] at suits
      subst suits
      exact absurd four (by decide +kernel)
    rw [if_neg wide]
    refine bind_eq_ok.mpr ⟨_, (resolveBitness_scriptVars sized).mpr ⟨suits, rfl⟩, bind_eq_ok.mpr ⟨protocol, ?_, rfl⟩⟩
    rw [resolveProtocol_scriptVars]
    exact settled

/-- What one way rejects the other rejects, and what both accept they resolve alike. -/
structure SameMeaning (env : Cache Switch) (sizeofVoidP : ℕ) (cache : Cache Switch) : Prop where
  rejects : (∃ e, configureDirectly env sizeofVoidP Cache.empty = .error e) →
    ∃ e, configureByScript env (probe sizeofVoidP) sizeofVoidP cache = .error e
  resolves : ∀ r r', configureDirectly env sizeofVoidP Cache.empty = .ok r →
    configureByScript env (probe sizeofVoidP) sizeofVoidP cache = .ok r' →
      r.bitness = r'.bitness ∧ r.protocol = r'.protocol

/-- The script means what `CMakeLists.txt` does, except where it passes over an older switch and the others are in
    order. -/
theorem script_means_direct_iff (nonEmpty : NonEmpty env) (sized : Sized sizeofVoidP) :
    SameMeaning env sizeofVoidP cache ↔
      ¬(Overlooked env sizeofVoidP ∧ Suits sizeofVoidP (env .targetBitness) ∧ OneProtocol env sizeofVoidP) := by
  constructor
  · rintro same ⟨overlooked, value, one⟩
    obtain ⟨stated, protocol, folded, settled⟩ := foldProtocol_of_oneProtocol nonEmpty one
    have accepted : configureByScript env (probe sizeofVoidP) sizeofVoidP cache = .ok _ := (configureByScript_eq_ok sized).mpr
      ⟨foldBitness_of_overlooked nonEmpty sized overlooked value, stated, protocol, folded, settled, rfl⟩
    have rejected : ∃ e, configureDirectly env sizeofVoidP Cache.empty = .error e := by
      cases direct : configureDirectly env sizeofVoidP Cache.empty with
      | error e => exact ⟨e, rfl⟩
      | ok r =>
        obtain ⟨bitness, -, resolved, -⟩ := configureDirectly_eq_ok.mp direct
        exact absurd resolved (resolveBitness_of_overlooked sized overlooked bitness)
    obtain ⟨e, failed⟩ := same.rejects rejected
    cases accepted.symm.trans failed
  · intro seen
    -- what the script accepts, `CMakeLists.txt` accepts with the same result
    have direct : ∀ r, configureByScript env (probe sizeofVoidP) sizeofVoidP cache = .ok r →
        configureDirectly env sizeofVoidP Cache.empty = .ok r := by
      intro r accepted
      obtain ⟨foldedBitness, stated, protocol, folded, settled, rfl⟩ := (configureByScript_eq_ok sized).mp accepted
      have value := ((suits_foldBitness nonEmpty sized).mp foldedBitness).2.1
      have notOverlooked : ¬Overlooked env sizeofVoidP := fun overlooked =>
        seen ⟨overlooked, value, oneProtocol_of_fold nonEmpty folded settled⟩
      exact configureDirectly_eq_ok.mpr ⟨_, protocol, resolveBitness_of_fold nonEmpty sized foldedBitness notOverlooked,
        (resolveProtocol_of_fold nonEmpty folded).trans settled, rfl⟩
    constructor
    · rintro ⟨e, failed⟩
      cases script : configureByScript env (probe sizeofVoidP) sizeofVoidP cache with
      | error e => exact ⟨e, rfl⟩
      | ok r => cases failed.symm.trans (direct r script)
    · intro r r' isDirect isScript
      cases isDirect.symm.trans (direct r' isScript)
      exact ⟨rfl, rfl⟩

/-! ### A value beside `ON` -/

/-- `TARGET_LIB64_VERSION` alone is set. -/
def lib64 (value : Text) : Cache Switch := applyArg Cache.empty (.define .targetLib64Version value)

theorem nonEmpty_lib64 {value : Text} (nonEmpty : value ≠ []) : NonEmpty (lib64 value) := by
  intro name v isValue
  cases name with
  | targetLib64Version =>
    cases isValue
    exact nonEmpty
  | _ => cases isValue

theorem script_means_direct_on :
    SameMeaning (lib64 on) 8 Cache.empty ↔
      ¬(Overlooked (lib64 on) 8 ∧ Suits 8 (lib64 on .targetBitness) ∧ OneProtocol (lib64 on) 8) :=
  script_means_direct_iff (nonEmpty_lib64 (by decide)) (.inr rfl)

/-- `TARGET_LIB64_VERSION=1` for a 32-bit compiler: `CMakeLists.txt` stops, and the script builds 32-bit libraries. -/
theorem lib64_one_overlooked :
    NonEmpty (lib64 "1".toList) ∧
      configureDirectly (lib64 "1".toList) 4 Cache.empty = .error (.otherToolchain bits64 bits32) ∧
      configureByScript (lib64 "1".toList) (probe 4) 4 Cache.empty = .ok ⟨bits32, protocol8, false⟩ ∧
      ¬SameMeaning (lib64 "1".toList) 4 Cache.empty := by
  have direct : configureDirectly (lib64 "1".toList) 4 Cache.empty = .error (.otherToolchain bits64 bits32) := by
    decide +kernel
  have script : configureByScript (lib64 "1".toList) (probe 4) 4 Cache.empty = .ok ⟨bits32, protocol8, false⟩ := by
    decide +kernel
  refine ⟨nonEmpty_lib64 (by decide), direct, script, fun same => ?_⟩
  obtain ⟨e, failed⟩ := same.rejects ⟨_, direct⟩
  cases failed.symm.trans script

end BinderIdl.Build
