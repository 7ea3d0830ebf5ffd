import BinderIdl.Ipc.ServiceManager

/-! Callbacks of the service manager: proxies and stubs of `IServiceCallback` and `IClientCallback`
    (`binder_aidl_gen/android/os`), whose calls are oneway. -/

namespace BinderIdl.Ipc
open Py Wire

variable {κ : Type} {capacity : ℕ} (lib : Libbinder κ capacity)

/-- An interface with one method, which is oneway. -/
structure CallbackInterface (A : Type) where
  descriptor : Text
  writeArguments : A → lib.OnParcel Unit
  readArguments : lib.OnParcel A

/-- `IServiceCallback`, with `onRegistration(name, binder)` -/
def IServiceCallback : CallbackInterface lib (Text × Option lib.Binder) where
  descriptor := "android.os.IServiceCallback".toList
  writeArguments := fun (name, binder) => do
    lib.writeUtf8AsUtf16 name
    lib.writeStrongBinder binder
  readArguments := do
    let name ← lib.readUtf8FromUtf16
    (name, ·) <$> lib.readStrongBinder

/-- `IClientCallback`, with `onClients(registered, hasClients)` -/
def IClientCallback : CallbackInterface lib (Option lib.Binder × Bool) where
  descriptor := "android.os.IClientCallback".toList
  writeArguments := fun (registered, hasClients) => do
    lib.writeStrongBinder registered
    lib.writeBool hasClients
  readArguments := do
    let registered ← lib.readStrongBinder
    (registered, ·) <$> lib.readBool

/-- A callback object: the transactions that wait for it, which it takes one after the other, and the state of its
    process. -/
structure CallbackNode (σ : Type) where
  queue : List (ℕ × lib.Parcel)
  state : σ

namespace CallbackInterface
variable {lib} {A σ : Type} (cb : CallbackInterface lib A)

/-- `TRANSACTION_onRegistration`, `TRANSACTION_onClients` -/
def transaction : ℕ := Method.firstCallTransaction + 0

def writeRequest (a : A) : lib.OnParcel Unit := do
  lib.writeInterfaceToken cb.descriptor
  cb.writeArguments a

def readRequest : lib.OnParcel A := do
  let mine ← lib.checkInterface cb.descriptor
  if mine then cb.readArguments else throw .badType

/-- What a call whose transaction fails so ends with: the default implementation, in the process of the caller, stands in
    for an object that does not know the transaction. -/
def failedWith (defaultImpl : Option (A → lib.Status)) (a : A) (e : StatusT) : lib.Status :=
  match defaultImpl with
  | some impl => if e = .unknownTransaction then impl a else lib.fromStatusT e
  | none => lib.fromStatusT e

/-- The method of the proxy. With `FLAG_ONEWAY`, `transact` is done as soon as the transaction waits for the object; it is
    refused with an error where that cannot be. -/
def send (defaultImpl : Option (A → lib.Status)) (refusal : Option StatusT) (a : A) :
    StateM (CallbackNode lib σ) lib.Status := fun node =>
  match cb.writeRequest a .empty with
  | .error e => (lib.fromStatusT e, node)
  | .ok (_, data) =>
    match refusal with
    | some e => (failedWith defaultImpl a e, node)
    | none => (lib.ok, { node with queue := node.queue ++ [(transaction, data.rewound)] })

variable (impl : A → StateM σ lib.Status) (base : ℕ → lib.Parcel → StateM σ (Except StatusT lib.Parcel))

/-- The case of the method: what it returns is not sent back. -/
def serve (data : lib.Parcel) : StateM σ (Except StatusT lib.Parcel) :=
  match cb.readRequest data with
  | .error e => return .error e
  | .ok (a, _) => do
    let _ ← impl a
    return .ok .empty

/-- `onTransact` of the stub; `base` is `BBinder::onTransact`. -/
def onTransact (code : ℕ) (data : lib.Parcel) : StateM σ (Except StatusT lib.Parcel) := do
  let reply ← if code = transaction then cb.serve impl data else base code data
  return BnServiceManager.overNull lib reply

/-- The next transaction is taken from the queue. -/
def deliver : StateM (CallbackNode lib σ) Unit := fun node =>
  match node.queue with
  | [] => ((), node)
  | (code, data) :: rest => ((), ⟨rest, (cb.onTransact impl base code data node.state).2⟩)

end CallbackInterface

end BinderIdl.Ipc
