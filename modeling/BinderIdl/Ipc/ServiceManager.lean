import BinderIdl.Ipc.Parcelable

/-! Calls of the service manager: the proxy `BpServiceManager` and the stub `BnServiceManager`
    (`binder_aidl_gen/android/os/IServiceManager.cpp`). -/

namespace BinderIdl.Ipc
open Py Wire

variable {κ : Type} {capacity : ℕ} (lib : Libbinder κ capacity)

/-! ### The interface -/

/-- The methods of `IServiceManager`. -/
inductive Method where
  | getService | checkService | addService | listServices | registerForNotifications | unregisterForNotifications
  | isDeclared | getDeclaredInstances | updatableViaApex | getConnectionInfo | registerClientCallback
  | tryUnregisterService | getServiceDebugInfo
deriving DecidableEq

namespace Method

def all : List Method :=
  [getService, checkService, addService, listServices, registerForNotifications, unregisterForNotifications, isDeclared,
    getDeclaredInstances, updatableViaApex, getConnectionInfo, registerClientCallback, tryUnregisterService,
    getServiceDebugInfo]

/-- `IBinder::FIRST_CALL_TRANSACTION` -/
def firstCallTransaction : ℕ := 1

/-- `TRANSACTION_getService` and its like (`BnServiceManager.h`). -/
def transaction : Method → ℕ
  | getService => firstCallTransaction + 0
  | checkService => firstCallTransaction + 1
  | addService => firstCallTransaction + 2
  | listServices => firstCallTransaction + 3
  | registerForNotifications => firstCallTransaction + 4
  | unregisterForNotifications => firstCallTransaction + 5
  | isDeclared => firstCallTransaction + 6
  | getDeclaredInstances => firstCallTransaction + 7
  | updatableViaApex => firstCallTransaction + 8
  | getConnectionInfo => firstCallTransaction + 9
  | registerClientCallback => firstCallTransaction + 10
  | tryUnregisterService => firstCallTransaction + 11
  | getServiceDebugInfo => firstCallTransaction + 12

/-- The case of the `switch` for a code. -/
def ofTransaction? (code : ℕ) : Option Method := all.find? fun m => m.transaction = code

abbrev Arguments : Method → Type
  | getService | checkService | isDeclared | getDeclaredInstances | updatableViaApex | getConnectionInfo => Text
  | addService => Text × Option lib.Binder × Bool × Int32
  | listServices => Int32
  | registerForNotifications | unregisterForNotifications | tryUnregisterService => Text × Option lib.Binder
  | registerClientCallback => Text × Option lib.Binder × Option lib.Binder
  | getServiceDebugInfo => Unit

/-- What `_aidl_return` holds. -/
abbrev Result : Method → Type
  | getService | checkService => Option lib.Binder
  | listServices | getDeclaredInstances => List Text
  | isDeclared => Bool
  | updatableViaApex => Option Text
  | getConnectionInfo => Option ConnectionInfo
  | getServiceDebugInfo => List ServiceDebugInfo
  | _ => Unit

end Method

/-- An implementation of `IServiceManager`, which may change the world: the status it returns, and what it stores in
    `_aidl_return`. -/
abbrev IServiceManager (σ : Type) :=
  (m : Method) → m.Arguments lib → StateM σ (lib.Status × Option (m.Result lib))

/-- `IServiceManagerDefault` -/
def IServiceManagerDefault (σ : Type) : IServiceManager lib σ := fun _ _ =>
  return (lib.fromStatusT .unknownTransaction, none)

def descriptor : Text := "android.os.IServiceManager".toList

/-! ### The proxy -/

namespace BpServiceManager

/-- How the arguments of a call are written. -/
def writeArguments : (m : Method) → m.Arguments lib → lib.OnParcel Unit
  | .getService, name => lib.writeUtf8AsUtf16 name
  | .checkService, name => lib.writeUtf8AsUtf16 name
  | .addService, (name, service, allowIsolated, dumpPriority) => do
    lib.writeUtf8AsUtf16 name
    lib.writeStrongBinder service
    lib.writeBool allowIsolated
    lib.writeInt32 dumpPriority
  | .listServices, dumpPriority => lib.writeInt32 dumpPriority
  | .registerForNotifications, (name, callback) => do
    lib.writeUtf8AsUtf16 name
    lib.writeStrongBinder callback
  | .unregisterForNotifications, (name, callback) => do
    lib.writeUtf8AsUtf16 name
    lib.writeStrongBinder callback
  | .isDeclared, name => lib.writeUtf8AsUtf16 name
  | .getDeclaredInstances, iface => lib.writeUtf8AsUtf16 iface
  | .updatableViaApex, name => lib.writeUtf8AsUtf16 name
  | .getConnectionInfo, name => lib.writeUtf8AsUtf16 name
  | .registerClientCallback, (name, service, callback) => do
    lib.writeUtf8AsUtf16 name
    lib.writeStrongBinder service
    lib.writeStrongBinder callback
  | .tryUnregisterService, (name, service) => do
    lib.writeUtf8AsUtf16 name
    lib.writeStrongBinder service
  | .getServiceDebugInfo, () => pure ()

/-- How `_aidl_return` is read. -/
def readResult : (m : Method) → lib.OnParcel (m.Result lib)
  | .getService => lib.readNullableStrongBinder
  | .checkService => lib.readNullableStrongBinder
  | .addService => pure ()
  | .listServices => lib.readUtf8VectorFromUtf16Vector
  | .registerForNotifications => pure ()
  | .unregisterForNotifications => pure ()
  | .isDeclared => lib.readBool
  | .getDeclaredInstances => lib.readUtf8VectorFromUtf16Vector
  | .updatableViaApex => lib.readNullableUtf8FromUtf16
  | .getConnectionInfo => lib.readParcelable (ConnectionInfo.readFromParcel lib {})
  | .registerClientCallback => pure ()
  | .tryUnregisterService => pure ()
  | .getServiceDebugInfo => lib.readParcelableVector (ServiceDebugInfo.readFromParcel lib {})

/-- `_aidl_data` -/
def writeRequest (m : Method) (arguments : m.Arguments lib) : lib.OnParcel Unit := do
  lib.writeInterfaceToken descriptor
  writeArguments lib m arguments

/-- What a call makes of `_aidl_reply`. -/
def readReply (m : Method) (reply : lib.Parcel) : lib.Status × Option (m.Result lib) :=
  match lib.readStatus reply with
  | .error e => (lib.fromStatusT e, none)
  | .ok (status, behind) =>
    if lib.isOk status then
      match readResult lib m behind with
      | .error e => (lib.fromStatusT e, none)
      | .ok (result, _) => (lib.ok, some result)
    else (status, none)

section Call
variable {σ : Type} (defaultImpl : Option (IServiceManager lib σ)) (m : Method) (arguments : m.Arguments lib)

/-- What a call whose transaction fails so ends with: the default implementation stands in for a service that does not
    know the transaction. -/
def failedWith (e : StatusT) : StateM σ (lib.Status × Option (m.Result lib)) :=
  match defaultImpl with
  | some impl => if e = .unknownTransaction then impl m arguments else return (lib.fromStatusT e, none)
  | none => return (lib.fromStatusT e, none)

/-- What a call makes of the end of its transaction. -/
def receive (reply : Except StatusT lib.Parcel) : StateM σ (lib.Status × Option (m.Result lib)) :=
  match reply with
  | .error e => failedWith lib defaultImpl m arguments e
  | .ok reply => return readReply lib m reply.rewound

end Call

/-- A method of the proxy. `transact` is `remote()->transact`, and `defaultImpl` what `getDefaultImpl` returns. -/
def call {σ : Type} (transact : ℕ → lib.Parcel → StateM σ (Except StatusT lib.Parcel))
    (defaultImpl : Option (IServiceManager lib σ)) : IServiceManager lib σ := fun m arguments =>
  match writeRequest lib m arguments .empty with
  | .error e => return (lib.fromStatusT e, none)
  | .ok (_, data) => do
    let reply ← transact m.transaction data.rewound
    receive lib defaultImpl m arguments reply

end BpServiceManager

/-! ### The stub -/

namespace BnServiceManager

/-- How the arguments of a call are read. -/
def readArguments : (m : Method) → lib.OnParcel (m.Arguments lib)
  | .getService => lib.readUtf8FromUtf16
  | .checkService => lib.readUtf8FromUtf16
  | .addService => do
    let name ← lib.readUtf8FromUtf16
    let service ← lib.readStrongBinder
    let allowIsolated ← lib.readBool
    (name, service, allowIsolated, ·) <$> lib.readInt32
  | .listServices => lib.readInt32
  | .registerForNotifications => do
    let name ← lib.readUtf8FromUtf16
    (name, ·) <$> lib.readStrongBinder
  | .unregisterForNotifications => do
    let name ← lib.readUtf8FromUtf16
    (name, ·) <$> lib.readStrongBinder
  | .isDeclared => lib.readUtf8FromUtf16
  | .getDeclaredInstances => lib.readUtf8FromUtf16
  | .updatableViaApex => lib.readUtf8FromUtf16
  | .getConnectionInfo => lib.readUtf8FromUtf16
  | .registerClientCallback => do
    let name ← lib.readUtf8FromUtf16
    let service ← lib.readStrongBinder
    (name, service, ·) <$> lib.readStrongBinder
  | .tryUnregisterService => do
    let name ← lib.readUtf8FromUtf16
    (name, ·) <$> lib.readStrongBinder
  | .getServiceDebugInfo => pure ()

/-- `_aidl_return` before the call. -/
def initial : (m : Method) → m.Result lib
  | .getService | .checkService | .updatableViaApex | .getConnectionInfo => none
  | .listServices | .getDeclaredInstances => []
  | .getServiceDebugInfo => []
  | .isDeclared => lib.unset
  | .addService | .registerForNotifications | .unregisterForNotifications | .registerClientCallback
  | .tryUnregisterService => ()

/-- How `_aidl_return` is written. -/
def writeResult : (m : Method) → m.Result lib → lib.OnParcel Unit
  | .getService, service => lib.writeStrongBinder service
  | .checkService, service => lib.writeStrongBinder service
  | .addService, () => pure ()
  | .listServices, names => lib.writeUtf8VectorAsUtf16Vector names
  | .registerForNotifications, () => pure ()
  | .unregisterForNotifications, () => pure ()
  | .isDeclared, declared => lib.writeBool declared
  | .getDeclaredInstances, names => lib.writeUtf8VectorAsUtf16Vector names
  | .updatableViaApex, apex => lib.writeNullableUtf8AsUtf16 apex
  | .getConnectionInfo, info => lib.writeNullableParcelable (ConnectionInfo.writeToParcel lib) info
  | .registerClientCallback, () => pure ()
  | .tryUnregisterService, () => pure ()
  | .getServiceDebugInfo, infos => lib.writeParcelableVector (ServiceDebugInfo.writeToParcel lib) infos

/-- What a case reads of `_aidl_data`. -/
def readRequest (m : Method) : lib.OnParcel (m.Arguments lib) := do
  let mine ← lib.checkInterface descriptor
  if mine then readArguments lib m else throw .badType

/-- What a case writes to `_aidl_reply`. -/
def writeReply (m : Method) (answer : lib.Status × Option (m.Result lib)) : lib.OnParcel Unit := do
  lib.writeStatus answer.1
  if lib.isOk answer.1 then writeResult lib m (answer.2.getD (initial lib m)) else pure ()

variable {σ : Type} (impl : IServiceManager lib σ)

/-- A case of the `switch`. -/
def serve (m : Method) (data : lib.Parcel) : StateM σ (Except StatusT lib.Parcel) :=
  match readRequest lib m data with
  | .error e => return .error e
  | .ok (arguments, _) => do
    let answer ← impl m arguments
    return (writeReply lib m answer .empty).map Prod.snd

/-- A null where there must be none is an exception for the caller. -/
def overNull : Except StatusT lib.Parcel → Except StatusT lib.Parcel
  | .error .unexpectedNull => (lib.writeStatus lib.nullPointer .empty).map Prod.snd
  | reply => reply

/-- `BnServiceManager::onTransact`; `base` is `BBinder::onTransact`. -/
def onTransact (base : ℕ → lib.Parcel → StateM σ (Except StatusT lib.Parcel)) (code : ℕ) (data : lib.Parcel) :
    StateM σ (Except StatusT lib.Parcel) := do
  let reply ←
    match Method.ofTransaction? code with
    | some m => serve lib impl m data
    | none => base code data
  return overNull lib reply

end BnServiceManager

end BinderIdl.Ipc
