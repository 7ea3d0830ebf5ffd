import BinderIdl.Build.Cache
import BinderIdl.Py.Number
import BinderIdl.Py.Outcome

/-! The switches of the target build, bitness and wire protocol with their older spellings, as `CMakeLists.txt`,
    `CMakeLists.inc` and `build-linux-binder-aidl.sh` resolve them. -/

namespace BinderIdl.Build
open Py

inductive Switch where
  | targetBitness
  | targetLib32Version
  | targetLib64Version
  | binderProtocol
  | binderIpc32Bit
deriving DecidableEq, Repr

/-- The ways a configuration is rejected, by message. -/
inductive ConfigError where
  | bothLegacy -- `TARGET_LIB32_VERSION and TARGET_LIB64_VERSION are both ON.`
  | bitnessDisagrees (bitness legacy : Text) -- `TARGET_BITNESS=.. and TARGET_LIB32_VERSION/.. disagree.`
  | wrongBitness (bitness : Text) -- `TARGET_BITNESS is '..'; it must be 32 or 64.`
  | otherToolchain (bitness toolchain : Text) -- `TARGET_BITNESS=.. but the toolchain is ..-bit`
  | protocolDisagrees (protocol legacy : Text) -- `BINDER_PROTOCOL=.. and BINDER_IPC_32BIT=.. disagree.`
  | wrongProtocol (protocol : Text) -- `BINDER_PROTOCOL is '..'; the only wire protocols are 7 and 8.`
  | wideToolchain -- `BINDER_PROTOCOL=7 with a 64-bit toolchain`
  | wrongLib32 (value : Text) -- `TARGET_LIB32_VERSION is '..'; it must be ON or OFF.`
  | wrongIpc (value : Text) -- `BINDER_IPC_32BIT is '..'; it must be ON or OFF.`
  | declaredWide -- `BINDER_IPC_32BIT=ON (protocol 7) requires a 32-bit target, but TARGET_LIB32_VERSION is OFF.`
  | narrowToolchain -- `TARGET_BITNESS=64 declares a 64-bit target, but '..' is a 32-bit toolchain.`
deriving DecidableEq, Repr

/-- What a configuration builds; `ipc32Bit` is the compile definition `BINDER_IPC_32BIT=1`. -/
structure Resolution where
  bitness : Text
  protocol : Text
  ipc32Bit : Bool
deriving DecidableEq, Repr

/-- `TARGET_LIB32_VERSION` as it is derived back from the bitness. -/
def Resolution.lib32 (r : Resolution) : Bool := r.bitness = "32".toList

def on : Text := "ON".toList

def off : Text := "OFF".toList

def bits32 : Text := "32".toList

def bits64 : Text := "64".toList

def protocol7 : Text := "7".toList

def protocol8 : Text := "8".toList

/-- A switch and what its older spelling says: they must agree when both are given. -/
def agreed (disagree : Text → Text → ConfigError) : Option Text → Option Text → Except ConfigError (Option Text)
  | some value, some legacy => if value = legacy then .ok (some value) else .error (disagree value legacy)
  | some value, none => .ok (some value)
  | none, legacy => .ok legacy

/-! ### `CMakeLists.txt` -/

/-- `math(EXPR .. "${CMAKE_SIZEOF_VOID_P} * 8")` -/
def toolchainBits (sizeofVoidP : ℕ) : Text := ofInt ((sizeofVoidP * 8 : ℕ) : Int)

/-- `_legacy_bitness` -/
def legacyBitness (vars : Cache Switch) : Option Text :=
  if isOn (vars .targetLib64Version) then some bits64
  else (vars .targetLib32Version).map fun value => if isTrue value then bits32 else bits64

def resolveBitness (vars : Cache Switch) (sizeofVoidP : ℕ) : Except ConfigError Text := do
  if isOn (vars .targetLib32Version) ∧ isOn (vars .targetLib64Version) then throw .bothLegacy
  else
    let stated ← agreed .bitnessDisagrees (vars .targetBitness) (legacyBitness vars)
    let bitness := stated.getD (toolchainBits sizeofVoidP)
    if bitness ≠ bits32 ∧ bitness ≠ bits64 then throw (.wrongBitness bitness)
    else if bitness ≠ toolchainBits sizeofVoidP then throw (.otherToolchain bitness (toolchainBits sizeofVoidP))
    else return bitness

/-- `_legacy_says` -/
def legacyProtocol (value : Text) : Text := if isTrue value then protocol7 else protocol8

def resolveProtocol (vars : Cache Switch) (sizeofVoidP : ℕ) : Except ConfigError Text := do
  let stated ← agreed .protocolDisagrees (vars .binderProtocol) ((vars .binderIpc32Bit).map legacyProtocol)
  let protocol := stated.getD protocol8
  if protocol ≠ protocol7 ∧ protocol ≠ protocol8 then throw (.wrongProtocol protocol)
  else if protocol = protocol7 ∧ sizeofVoidP = 8 then throw .wideToolchain
  else return protocol

/-- The switches of `CMakeLists.txt`, read with these variables and this pointer size. -/
def cmakeLists (vars : Cache Switch) (sizeofVoidP : ℕ) : Except ConfigError Resolution := do
  let bitness ← resolveBitness vars sizeofVoidP
  let protocol ← resolveProtocol vars sizeofVoidP
  return ⟨bitness, protocol, protocol = protocol7⟩

/-! ### `CMakeLists.inc` -/

/-- What `CMakeLists.inc` builds: whether `TARGET_LIB32_VERSION` and `BINDER_IPC_32BIT` are true behind its guards. -/
structure IncResolution where
  lib32 : Bool
  ipc32Bit : Bool
deriving DecidableEq, Repr

/-- A switch that is on for a 32-bit toolchain unless it is given. -/
def followsToolchain (value : Option Text) (sizeofVoidP : ℕ) : Bool :=
  match value with
  | some v => isTrue v
  | none => sizeofVoidP = 4

/-- The switches of `CMakeLists.inc`, read with these variables and this pointer size. -/
def cmakeListsInc (vars : Cache Switch) (sizeofVoidP : ℕ) : Except ConfigError IncResolution :=
  let lib32 := !isOn (vars .targetLib64Version) && followsToolchain (vars .targetLib32Version) sizeofVoidP
  let ipc32Bit := followsToolchain (vars .binderIpc32Bit) sizeofVoidP
  if ipc32Bit ∧ sizeofVoidP = 8 then .error .wideToolchain
  else if ipc32Bit ∧ !lib32 then .error .declaredWide
  else .ok ⟨lib32, ipc32Bit⟩

/-! ### `cmake` by hand -/

/-- The variables that are set, each as a `-D`. -/
def directArgs (env : Cache Switch) : List (CacheArg Switch) :=
  [.targetBitness, .targetLib32Version, .targetLib64Version, .binderProtocol, .binderIpc32Bit].filterMap fun name =>
    (env name).map (CacheArg.define name)

/-- `cmake` without the script. -/
def configureDirectly (env : Cache Switch) (sizeofVoidP : ℕ) (cache : Cache Switch) : Except ConfigError Resolution :=
  cmakeLists (applyArgs (directArgs env) cache) sizeofVoidP

/-! ### `build-linux-binder-aidl.sh` -/

/-- `${NAME:-}` when it is not empty -/
def given (env : Cache Switch) (name : Switch) : Option Text := (env name).filter (· ≠ [])

/-- The `case` of an older spelling. -/
def onOrOff (wrong : Text → ConfigError) (whenOn whenOff value : Text) : Except ConfigError Text :=
  if value = on then .ok whenOn else if value = off then .ok whenOff else .error (wrong value)

/-- `_legacy_bits` -/
def legacyBits (env : Cache Switch) : Except ConfigError (Option Text) :=
  if given env .targetLib64Version = some on then .ok (some bits64)
  else
    match given env .targetLib32Version with
    | some value => some <$> onOrOff .wrongLib32 bits32 bits64 value
    | none => .ok none

/-- A switch that is given is one of two values. -/
def checkChoice (wrong : Text → ConfigError) (first second : Text) (stated : Option Text) :
    Except ConfigError (Option Text) :=
  match stated with
  | some value => if value = first ∨ value = second then .ok stated else .error (wrong value)
  | none => .ok none

/-- `TARGET_BITNESS` once the older spellings are folded into it. -/
def foldBitness (env : Cache Switch) : Except ConfigError (Option Text) := do
  if given env .targetLib32Version = some on ∧ given env .targetLib64Version = some on then throw .bothLegacy
  else
    let legacy ← legacyBits env
    let stated ← agreed .bitnessDisagrees (given env .targetBitness) legacy
    checkChoice .wrongBitness bits32 bits64 stated

/-- `_legacy_proto` -/
def legacyProto (env : Cache Switch) : Except ConfigError (Option Text) :=
  match given env .binderIpc32Bit with
  | some value => some <$> onOrOff .wrongIpc protocol7 protocol8 value
  | none => .ok none

/-- `BINDER_PROTOCOL` once the older spelling is folded into it. -/
def foldProtocol (env : Cache Switch) : Except ConfigError (Option Text) := do
  let legacy ← legacyProto env
  let stated ← agreed .protocolDisagrees (given env .binderProtocol) legacy
  checkChoice .wrongProtocol protocol7 protocol8 stated

/-- The bitness that the probe of the compiler gives; its answer is empty when the compiler cannot be run. -/
def probedBits (ptrSize : Text) : Option Text :=
  if ptrSize = [] then none else some (if ptrSize = "8".toList then bits64 else bits32)

def setOrClear (name : Switch) : Option Text → CacheArg Switch
  | some value => .define name value
  | none => .undefine name

/-- What `CMAKE_ARGS` has for the switches. -/
def cmakeArgs (bits protocol : Option Text) : List (CacheArg Switch) :=
  [.undefine .targetLib32Version, .undefine .targetLib64Version, .undefine .binderIpc32Bit,
    setOrClear .targetBitness bits, setOrClear .binderProtocol protocol]

/-- The script up to its call of `cmake`. -/
def buildScript (env : Cache Switch) (ptrSize : Text) : Except ConfigError (List (CacheArg Switch)) := do
  let bitness ← foldBitness env
  let protocol ← foldProtocol env
  let bits := bitness.or (probedBits ptrSize)
  if bits = some bits64 ∧ ptrSize = "4".toList ∧ protocol = none then throw .narrowToolchain
  else return cmakeArgs bits protocol

/-- The script with the `cmake` that it runs. -/
def configureByScript (env : Cache Switch) (ptrSize : Text) (sizeofVoidP : ℕ) (cache : Cache Switch) :
    Except ConfigError Resolution := do
  let args ← buildScript env ptrSize
  cmakeLists (applyArgs args cache) sizeofVoidP

end BinderIdl.Build
