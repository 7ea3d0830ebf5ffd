import BinderIdl.Ipc.Libbinder

/-! Parcelables: `readFromParcel` and `writeToParcel` of `ServiceDebugInfo` and `ConnectionInfo`
    (`binder_aidl_gen/android/os`). -/

namespace BinderIdl.Ipc
open Py Wire

variable {κ : Type} {capacity : ℕ} (lib : Libbinder κ capacity) {T : Type}

/-! ### Objects that start with their size -/

/-- The fields of an object; one that ends early leaves those behind its end as they are. -/
def readFields (start size : ℕ) : List (T → lib.OnParcel T) → T → lib.OnParcel T
  | [], x => do
    seekTo (start + size)
    return x
  | read :: reads, x => do
    if (← tell) - start ≥ size then
      seekTo (start + size)
      return x
    else
      let y ← read x
      readFields start size reads y

/-- `readFromParcel` of an object with these fields. -/
def readObject (reads : List (T → lib.OnParcel T)) (x : T) : lib.OnParcel T := do
  let start ← tell
  let rawSize ← lib.readInt32
  if rawSize < 4 then throw .badValue
  else
    let size := rawSize.toInt.toNat
    if start > lib.sizeMax - size then throw .badValue
    else readFields lib start size reads x

/-- A write whose result is not looked at. -/
def unchecked (w : lib.OnParcel Unit) : lib.OnParcel Unit := fun b =>
  match w b with
  | .ok (_, c) => .ok ((), c)
  | .error _ => .ok ((), b)

def writeFields : List (lib.OnParcel Unit) → lib.OnParcel Unit
  | [] => pure ()
  | write :: writes => do
    write
    writeFields writes

/-- `writeToParcel` of an object with these fields. -/
def writeObject (writes : List (lib.OnParcel Unit)) : lib.OnParcel Unit := do
  let start ← tell
  unchecked lib (lib.writeInt32 0)
  writeFields lib writes
  let stop ← tell
  seekTo start
  unchecked lib (lib.writeInt32 (Int32.ofNat (stop - start)))
  seekTo stop

/-! ### The parcelables -/

structure ServiceDebugInfo where
  name : Text := []
  debugPid : Int32 := 0
deriving DecidableEq

namespace ServiceDebugInfo

def reads : List (ServiceDebugInfo → lib.OnParcel ServiceDebugInfo) :=
  [fun x => (fun name => { x with name }) <$> lib.readUtf8FromUtf16,
    fun x => (fun debugPid => { x with debugPid }) <$> lib.readInt32]

def writes (x : ServiceDebugInfo) : List (lib.OnParcel Unit) := [lib.writeUtf8AsUtf16 x.name, lib.writeInt32 x.debugPid]

/-- `ServiceDebugInfo::readFromParcel` -/
def readFromParcel (x : ServiceDebugInfo) : lib.OnParcel ServiceDebugInfo := readObject lib (reads lib) x

/-- `ServiceDebugInfo::writeToParcel` -/
def writeToParcel (x : ServiceDebugInfo) : lib.OnParcel Unit := writeObject lib (writes lib x)

end ServiceDebugInfo

structure ConnectionInfo where
  ipAddress : Text := []
  port : Int32 := 0
deriving DecidableEq

namespace ConnectionInfo

def reads : List (ConnectionInfo → lib.OnParcel ConnectionInfo) :=
  [fun x => (fun ipAddress => { x with ipAddress }) <$> lib.readUtf8FromUtf16,
    fun x => (fun port => { x with port }) <$> lib.readInt32]

def writes (x : ConnectionInfo) : List (lib.OnParcel Unit) := [lib.writeUtf8AsUtf16 x.ipAddress, lib.writeInt32 x.port]

/-- `ConnectionInfo::readFromParcel` -/
def readFromParcel (x : ConnectionInfo) : lib.OnParcel ConnectionInfo := readObject lib (reads lib) x

/-- `ConnectionInfo::writeToParcel` -/
def writeToParcel (x : ConnectionInfo) : lib.OnParcel Unit := writeObject lib (writes lib x)

end ConnectionInfo

end BinderIdl.Ipc
