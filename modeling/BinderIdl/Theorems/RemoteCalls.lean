import BinderIdl.Ipc.ServiceManager
import BinderIdl.Ipc.TypedParcel
import BinderIdl.Theorems.Parcelables

/-! A call of the service manager through proxy and stub is a call of the service manager itself, but for what cannot be
    sent: null where a binder has to be, and statuses that stand for failed transactions. -/

namespace BinderIdl.Ipc
open Py Wire

variable {κ σ : Type} {capacity : ℕ} {lib : Libbinder κ capacity}

/-! ### Arguments and results -/

/-- The binders among the arguments, none of which may be null. -/
def binders (lib : Libbinder κ capacity) : (m : Method) → m.Arguments lib → List (Option lib.Binder)
  | .addService, arguments => [arguments.2.1]
  | .registerForNotifications, arguments => [arguments.2]
  | .unregisterForNotifications, arguments => [arguments.2]
  | .registerClientCallback, arguments => [arguments.2.1, arguments.2.2]
  | .tryUnregisterService, arguments => [arguments.2]
  | _, _ => []

def hasNull (lib : Libbinder κ capacity) (m : Method) (arguments : m.Arguments lib) : Bool :=
  (binders lib m arguments).any Option.isNone

section Carried
variable (lawful : lib.Lawful)
include lawful

theorem carries_utf16 (t : Text) : Carries (lib.writeUtf8AsUtf16 t) lib.readUtf8FromUtf16 (.ok t) :=
  Libbinder.carries_writeCells (lawful.utf16 t)

theorem carries_int32 (n : Int32) : Carries (lib.writeInt32 n) lib.readInt32 (.ok n) := .put (lawful.int32 n) lib.full

theorem carries_bool (b : Bool) : Carries (lib.writeBool b) lib.readBool (.ok b) := .put (lawful.bool b) lib.full

theorem carries_strongBinder (b : Option lib.Binder) :
    Carries (lib.writeStrongBinder b) lib.readStrongBinder (lib.nonNull b) :=
  Libbinder.carries_writeCells (lawful.strongBinder b)

theorem carries_status (s : lib.Status) :
    Carries (lib.writeStatus s) lib.readStatus (.ok (if lib.isOk s then lib.ok else s)) :=
  Libbinder.carries_writeCells (lawful.read s)

theorem carries_named {α : Type} (name : Text) (callback : Option lib.Binder) (f : Text → Option lib.Binder → α) :
    Carries (lib.writeUtf8AsUtf16 name >>= fun _ => lib.writeStrongBinder callback)
      (lib.readUtf8FromUtf16 >>= fun name => f name <$> lib.readStrongBinder) ((lib.nonNull callback).map (f name)) :=
  (carries_utf16 lawful name).bind ((carries_strongBinder lawful callback).map (f name))

theorem carries_flags {α : Type} (allowIsolated : Bool) (dumpPriority : Int32) (f : Bool → Int32 → α) :
    Carries (lib.writeBool allowIsolated >>= fun _ => lib.writeInt32 dumpPriority)
      (lib.readBool >>= fun allowIsolated => f allowIsolated <$> lib.readInt32) (.ok (f allowIsolated dumpPriority)) :=
  (carries_bool lawful allowIsolated).bind ((carries_int32 lawful dumpPriority).map (f allowIsolated))

/-- The arguments are read as they were written, unless a null is among them. -/
theorem arguments_carry (m : Method) (arguments : m.Arguments lib) :
    Carries (BpServiceManager.writeArguments lib m arguments) (BnServiceManager.readArguments lib m)
      (if hasNull lib m arguments then .error .unexpectedNull else .ok arguments) := by
  cases m with
  | getService | checkService | isDeclared | getDeclaredInstances | updatableViaApex | getConnectionInfo =>
    exact carries_utf16 lawful arguments
  | listServices => exact carries_int32 lawful arguments
  | getServiceDebugInfo => exact .pure () ()
  | registerForNotifications | unregisterForNotifications | tryUnregisterService =>
    obtain ⟨name, binder⟩ := arguments
    have carries := carries_named lawful name binder Prod.mk
    cases binder <;> exact carries
  | addService =>
    obtain ⟨name, service, allowIsolated, dumpPriority⟩ := arguments
    have first := carries_strongBinder lawful service
    have behind := carries_flags lawful allowIsolated dumpPriority fun a d => (name, service, a, d)
    cases service with
    | none => exact (carries_utf16 lawful name).bind (first.bind_error behind _)
    | some service => exact (carries_utf16 lawful name).bind (first.bind behind)
  | registerClientCallback =>
    obtain ⟨name, service, callback⟩ := arguments
    have first := carries_strongBinder lawful service
    have behind := (carries_strongBinder lawful callback).map fun c => (name, service, c)
    cases service with
    | none => exact (carries_utf16 lawful name).bind (first.bind_error behind _)
    | some service => cases callback <;> exact (carries_utf16 lawful name).bind (first.bind behind)

theorem request_carries (m : Method) (arguments : m.Arguments lib) :
    Carries (BpServiceManager.writeRequest lib m arguments) (BnServiceManager.readRequest lib m)
      (if hasNull lib m arguments then .error .unexpectedNull else .ok arguments) := by
  have token : Carries (lib.writeInterfaceToken descriptor) (lib.checkInterface descriptor) (.ok true) := by
    have read := lawful.interfaceToken descriptor descriptor
    rw [decide_eq_true rfl] at read
    exact .put read lib.full
  exact token.bind (arguments_carry lawful m arguments)

theorem result_carries (m : Method) (result : m.Result lib) :
    Carries (BnServiceManager.writeResult lib m result) (BpServiceManager.readResult lib m) (.ok result) := by
  cases m with
  | getService | checkService => exact Libbinder.carries_writeCells (lawful.nullableStrongBinder result)
  | listServices | getDeclaredInstances => exact Libbinder.carries_writeCells (lawful.utf16Vector result)
  | updatableViaApex => exact Libbinder.carries_writeCells (lawful.nullableUtf16 result)
  | isDeclared => exact carries_bool lawful result
  | getConnectionInfo =>
    exact lawful.nullableParcelable _ _ result fun info _ => ConnectionInfo.carries lawful info {}
  | getServiceDebugInfo =>
    exact lawful.parcelableVector _ _ result fun info _ => ServiceDebugInfo.carries lawful info {}
  | addService | registerForNotifications | unregisterForNotifications | registerClientCallback | tryUnregisterService =>
    exact .pure () ()

/-- What a reply says to the caller. -/
theorem readReply_written {m : Method} {answer : lib.Status × Option (m.Result lib)} {c : lib.Parcel} {u : Unit}
    (written : BnServiceManager.writeReply lib m answer .empty = .ok (u, c)) :
    BpServiceManager.readReply lib m c.rewound =
      if lib.isOk answer.1 then (lib.ok, some (answer.2.getD (BnServiceManager.initial lib m))) else (answer.1, none) := by
  have first := carries_status lawful answer.1
  rw [BnServiceManager.writeReply] at written
  by_cases fine : lib.isOk answer.1 = true
  · rw [if_pos fine] at first written
    rw [if_pos fine]
    have read := (first.bind ((result_carries lawful m (answer.2.getD (BnServiceManager.initial lib m))).map
      (lib.ok, ·))).run (r := lib.readStatus >>= fun s => (s, ·) <$> BpServiceManager.readResult lib m) written
    obtain ⟨status, behind, one, two⟩ := access_bind_eq_ok.mp read
    obtain ⟨result, second, same⟩ := access_map_eq_ok.mp two
    cases same
    rw [BpServiceManager.readReply, one]
    show (if lib.isOk lib.ok then _ else _) = _
    rw [if_pos lawful.ok, second]
  · rw [if_neg fine] at first written
    rw [if_neg fine]
    obtain ⟨⟨⟩, d, one, two⟩ := access_bind_eq_ok.mp written
    cases two
    rw [BpServiceManager.readReply, first.run one]
    show (if lib.isOk answer.1 then _ else _) = _
    rw [if_neg fine]

end Carried

/-! ### One call -/

section Call
variable (impl : IServiceManager lib σ) (defaultImpl : Option (IServiceManager lib σ))
  (base : ℕ → lib.Parcel → StateM σ (Except StatusT lib.Parcel)) (m : Method) (arguments : m.Arguments lib)

/-- What the caller is told of an answer of the service. -/
def told (answer : lib.Status × Option (m.Result lib)) : StateM σ (lib.Status × Option (m.Result lib)) :=
  match BnServiceManager.writeReply lib m answer .empty with
  | .ok _ =>
    return if lib.isOk answer.1 then (lib.ok, some (answer.2.getD (BnServiceManager.initial lib m))) else (answer.1, none)
  | .error .unexpectedNull => return (lib.nullPointer, none)
  | .error e => BpServiceManager.failedWith lib defaultImpl m arguments e

/-- A call in one process: what a call through proxy and stub comes to. -/
def directCall : IServiceManager lib σ := fun m arguments =>
  match BpServiceManager.writeRequest lib m arguments .empty with
  | .error e => return (lib.fromStatusT e, none)
  | .ok _ =>
    if hasNull lib m arguments then return (lib.nullPointer, none)
    else do
      let answer ← impl m arguments
      told defaultImpl m arguments answer

theorem ofTransaction?_transaction : Method.ofTransaction? m.transaction = some m := by cases m <;> rfl

theorem serve_written (lawful : lib.Lawful) {data : lib.Parcel} {u : Unit}
    (written : BpServiceManager.writeRequest lib m arguments .empty = .ok (u, data)) :
    BnServiceManager.serve lib impl m data.rewound =
      if hasNull lib m arguments then return .error .unexpectedNull
      else do
        let answer ← impl m arguments
        return (BnServiceManager.writeReply lib m answer .empty).map Prod.snd := by
  rw [BnServiceManager.serve, (request_carries lawful m arguments).run written]
  by_cases null : hasNull lib m arguments = true
  · rw [if_pos null, if_pos null]
    rfl
  · rw [if_neg null, if_neg null]
    rfl

theorem receive_overNull_null (lawful : lib.Lawful) :
    BpServiceManager.receive lib defaultImpl m arguments (BnServiceManager.overNull lib (.error .unexpectedNull)) =
      return (lib.nullPointer, none) := by
  obtain ⟨cs, cells, fits⟩ := lawful.nullPointer_fits
  have written : lib.writeStatus lib.nullPointer .empty = .ok ((), Buffer.overwrite .empty cs ((Nat.zero_add _).trans_le fits)) := by
    rw [Libbinder.writeStatus, cells]
    exact put_eq_ok.mpr ⟨_, rfl⟩
  have read := (carries_status lawful lib.nullPointer).run written
  rw [if_neg (by rw [lawful.nullPointer]; exact Bool.false_ne_true)] at read
  rw [BnServiceManager.overNull, written]
  show (pure (BpServiceManager.readReply lib m (Buffer.rewound _)) : StateM σ _) = _
  rw [BpServiceManager.readReply, read]
  show (pure (if lib.isOk lib.nullPointer then _ else _) : StateM σ _) = _
  rw [if_neg (by rw [lawful.nullPointer]; exact Bool.false_ne_true)]

theorem receive_overNull_reply (lawful : lib.Lawful) (answer : lib.Status × Option (m.Result lib)) :
    BpServiceManager.receive lib defaultImpl m arguments
        (BnServiceManager.overNull lib ((BnServiceManager.writeReply lib m answer .empty).map Prod.snd)) =
      told defaultImpl m arguments answer := by
  rw [told]
  cases written : BnServiceManager.writeReply lib m answer .empty with
  | ok r =>
    obtain ⟨u, reply⟩ := r
    show (pure (BpServiceManager.readReply lib m reply.rewound) : StateM σ _) = _
    rw [readReply_written lawful written]
  | error e =>
    cases e with
    | unexpectedNull => exact receive_overNull_null defaultImpl m arguments lawful
    | badType | badValue | unknownTransaction | other code => rfl

/-- Proxy and stub together are the service itself, as far as it can be reached. -/
theorem call_onTransact (lawful : lib.Lawful) :
    BpServiceManager.call lib (BnServiceManager.onTransact lib impl base) defaultImpl =
      directCall impl defaultImpl := by
  funext m arguments
  rw [BpServiceManager.call, directCall]
  cases written : BpServiceManager.writeRequest lib m arguments .empty with
  | error e => rfl
  | ok r =>
    obtain ⟨u, data⟩ := r
    have transacted : BnServiceManager.onTransact lib impl base m.transaction data.rewound =
        (BnServiceManager.overNull lib) <$> BnServiceManager.serve lib impl m data.rewound := by
      rw [BnServiceManager.onTransact, ofTransaction?_transaction]
      rfl
    show (BnServiceManager.onTransact lib impl base m.transaction data.rewound >>=
      BpServiceManager.receive lib defaultImpl m arguments) = _
    rw [transacted, serve_written impl m arguments lawful written]
    by_cases null : hasNull lib m arguments = true
    · rw [if_pos null, if_pos null]
      exact receive_overNull_null defaultImpl m arguments lawful
    · rw [if_neg null, if_neg null, map_bind, bind_assoc]
      refine congrArg (impl m arguments >>= ·) (funext fun answer => ?_)
      rw [map_pure, pure_bind]
      exact receive_overNull_reply defaultImpl m arguments lawful answer

end Call

/-! ### Runs -/

/-- What becomes of a transaction on its way: it may be refused before the service gets it, and its reply may be lost. -/
inductive Delivery where
  | delivered
  | refused (code : ℤ)
  | replyLost (code : ℤ)

def Delivery.transact (remote : ℕ → lib.Parcel → StateM σ (Except StatusT lib.Parcel)) :
    Delivery → ℕ → lib.Parcel → StateM σ (Except StatusT lib.Parcel)
  | .delivered => remote
  | .refused code => fun _ _ => return .error (.other code)
  | .replyLost code => fun transaction data => do
    let _ ← remote transaction data
    return .error (.other code)

/-- A call some client makes. -/
structure Attempt (lib : Libbinder κ capacity) (σ : Type) where
  method : Method
  arguments : method.Arguments lib
  delivery : Delivery
  /-- what is set in the process of the client -/
  defaultImpl : Option (IServiceManager lib σ)

/-- What a client is left with: the status, and the result if there is one. -/
abbrev Outcome (lib : Libbinder κ capacity) := Σ m : Method, lib.Status × Option (m.Result lib)

section Runs
variable (impl : IServiceManager lib σ) (base : ℕ → lib.Parcel → StateM σ (Except StatusT lib.Parcel))

def Attempt.make (a : Attempt lib σ) : StateM σ (Outcome lib) := do
  let outcome ← BpServiceManager.call lib (a.delivery.transact (BnServiceManager.onTransact lib impl base)) a.defaultImpl
    a.method a.arguments
  return ⟨a.method, outcome⟩

/-- The same call in one process, if it comes to it. -/
def Attempt.makeDirectly (a : Attempt lib σ) : StateM σ (Outcome lib) := do
  match BpServiceManager.writeRequest lib a.method a.arguments .empty with
  | .error e => return ⟨a.method, lib.fromStatusT e, none⟩
  | .ok _ =>
    match a.delivery with
    | .delivered =>
      let outcome ← directCall impl a.defaultImpl a.method a.arguments
      return ⟨a.method, outcome⟩
    | .refused code => return ⟨a.method, lib.fromStatusT (.other code), none⟩
    | .replyLost code =>
      if hasNull lib a.method a.arguments then return ⟨a.method, lib.fromStatusT (.other code), none⟩
      else
        let _ ← impl a.method a.arguments
        return ⟨a.method, lib.fromStatusT (.other code), none⟩

theorem failedWith_other {defaultImpl : Option (IServiceManager lib σ)} {m : Method} {arguments : m.Arguments lib}
    (code : ℤ) :
    BpServiceManager.failedWith lib defaultImpl m arguments (.other code) =
      return (lib.fromStatusT (.other code), none) := by
  cases defaultImpl with
  | none => rfl
  | some impl =>
    have known : StatusT.other code ≠ .unknownTransaction := fun h => by cases h
    rw [BpServiceManager.failedWith]
    exact if_neg known

theorem Attempt.make_eq (lawful : lib.Lawful) (a : Attempt lib σ) : a.make impl base = a.makeDirectly impl := by
  obtain ⟨m, arguments, delivery, defaultImpl⟩ := a
  rw [make, makeDirectly]
  cases delivery with
  | delivered =>
    show (BpServiceManager.call lib (BnServiceManager.onTransact lib impl base) defaultImpl m arguments >>= _) = _
    rw [call_onTransact impl defaultImpl base lawful]
    cases written : BpServiceManager.writeRequest lib m arguments .empty with
    | ok r => rfl
    | error e =>
      rw [directCall, written]
      rfl
  | refused code =>
    simp only [BpServiceManager.call]
    cases written : BpServiceManager.writeRequest lib m arguments .empty with
    | error e => rfl
    | ok r =>
      show (BpServiceManager.receive lib defaultImpl m arguments (.error (.other code)) >>= _) = _
      rw [BpServiceManager.receive, failedWith_other]
      rfl
  | replyLost code =>
    simp only [BpServiceManager.call]
    cases written : BpServiceManager.writeRequest lib m arguments .empty with
    | error e => rfl
    | ok r =>
      obtain ⟨u, data⟩ := r
      show (((BnServiceManager.onTransact lib impl base m.transaction data.rewound >>= fun _ =>
        return .error (.other code)) >>= BpServiceManager.receive lib defaultImpl m arguments) >>= _) = _
      rw [BnServiceManager.onTransact, ofTransaction?_transaction]
      show (((BnServiceManager.serve lib impl m data.rewound >>= fun reply => pure (BnServiceManager.overNull lib reply))
        >>= _) >>= _) >>= _ = _
      rw [serve_written impl m arguments lawful written]
      simp only [bind_assoc, pure_bind, BpServiceManager.receive, failedWith_other]
      by_cases null : hasNull lib m arguments = true
      · rw [if_pos null, if_pos null]
        rfl
      · rw [if_neg null, if_neg null]
        rfl

/-- The calls of all clients, in the order they are made in. -/
def makeAll (attempts : List (Attempt lib σ)) : StateM σ (List (Outcome lib)) := attempts.mapM (Attempt.make impl base)

theorem makeAll_cons (a : Attempt lib σ) (attempts : List (Attempt lib σ)) (s : σ) :
    makeAll impl base (a :: attempts) s =
      ((a.make impl base s).1 :: (makeAll impl base attempts (a.make impl base s).2).1,
        (makeAll impl base attempts (a.make impl base s).2).2) := by
  rw [makeAll, List.mapM_cons]
  rfl

/-- Whatever calls clients make in whatever order, and whatever becomes of their transactions on the way: they are told
    what the calls in one process tell them, and the service is left as those leave it. -/
theorem attempts_refine (lawful : lib.Lawful) (attempts : List (Attempt lib σ)) :
    makeAll impl base attempts = attempts.mapM (Attempt.makeDirectly impl) := by
  rw [makeAll, funext (Attempt.make_eq impl base lawful)]

end Runs

/-- A service that keeps services by their names. -/
def registry : IServiceManager Typed.lib (List (Text × ℕ)) := fun m arguments services =>
  match m, arguments with
  | .addService, (name, some (service : ℕ), _, _) => ((Typed.Outcome.ok, some ()), (name, service) :: services)
  | .getService, name => ((Typed.Outcome.ok, some (services.lookup name)), services)
  | _, _ => ((Typed.Outcome.exception (-7) [], none), services)

/-- `BBinder::onTransact` knows no transaction of the service. -/
def unknown {τ : Type} (_ : ℕ) (_ : Typed.lib.Parcel) : StateM τ (Except StatusT Typed.lib.Parcel) :=
  return .error .unknownTransaction

def audio : Text := "audio".toList

/-- A service is added, with the reply lost, looked up, replaced by null, and looked up in vain. -/
def audioAttempts : List (Attempt Typed.lib (List (Text × ℕ))) :=
  [⟨.addService, (audio, some (7 : ℕ), false, 8), .replyLost (-32), none⟩, ⟨.getService, audio, .delivered, none⟩,
    ⟨.addService, (audio, none, false, 8), .delivered, none⟩, ⟨.getService, audio, .refused (-32), none⟩]

theorem attempts_refine_audio :
    makeAll registry unknown audioAttempts = audioAttempts.mapM (Attempt.makeDirectly registry) ∧
      makeAll registry unknown audioAttempts [] =
        ([⟨.addService, Typed.Outcome.transactionFailed (.other (-32)), none⟩,
          ⟨.getService, Typed.Outcome.ok, some (some (7 : ℕ))⟩, ⟨.addService, Typed.Outcome.exception (-4) [], none⟩,
          ⟨.getService, Typed.Outcome.transactionFailed (.other (-32)), none⟩], [(audio, 7)]) :=
  ⟨attempts_refine registry unknown Typed.lawful audioAttempts, rfl⟩

/-! ### What is executed -/

/-- A call that the service executes. -/
abbrev Executed (lib : Libbinder κ capacity) := Σ m : Method, m.Arguments lib

/-- The service, with a log of the calls it executes. -/
def logging (impl : IServiceManager lib σ) : IServiceManager lib (σ × List (Executed lib)) := fun m arguments s =>
  let (answer, t) := impl m arguments s.1
  (answer, t, s.2 ++ [⟨m, arguments⟩])

/-- An implementation in the process of a client, which has no part in the log. -/
def besideLog (impl : IServiceManager lib σ) : IServiceManager lib (σ × List (Executed lib)) := fun m arguments s =>
  let (answer, t) := impl m arguments s.1
  (answer, t, s.2)

/-- The call comes to the service: it can be written, no binder in it is null, and its transaction is not refused. -/
def Attempt.reaches (a : Attempt lib σ) : Bool :=
  (BpServiceManager.writeRequest lib a.method a.arguments .empty).isOk && !hasNull lib a.method a.arguments &&
    match a.delivery with
    | .refused _ => false
    | _ => true

/-- The call, if it comes to the service. -/
def Attempt.executed? (a : Attempt lib σ) : Option (Executed lib) :=
  if a.reaches then some ⟨a.method, a.arguments⟩ else none

/-- The attempt, where the service keeps a log. -/
def Attempt.logged (a : Attempt lib σ) : Attempt lib (σ × List (Executed lib)) :=
  ⟨a.method, a.arguments, a.delivery, a.defaultImpl.map besideLog⟩

section Log
variable (impl : IServiceManager lib σ) (s : σ × List (Executed lib))

theorem log_failedWith (a : Attempt lib σ) (e : StatusT) :
    (BpServiceManager.failedWith lib (a.defaultImpl.map besideLog) a.method a.arguments e s).2.2 = s.2 := by
  cases a.defaultImpl with
  | none => rfl
  | some other =>
    show ((if e = .unknownTransaction then besideLog other a.method a.arguments else _ : StateM _ _) s).2.2 = _
    by_cases unknown : e = .unknownTransaction
    · rw [if_pos unknown]
      rfl
    · rw [if_neg unknown]
      rfl

theorem log_told (a : Attempt lib σ) (answer : lib.Status × Option (a.method.Result lib)) :
    (told (a.defaultImpl.map besideLog) a.method a.arguments answer s).2.2 = s.2 := by
  rw [told]
  cases BnServiceManager.writeReply lib a.method answer .empty with
  | ok r => rfl
  | error e =>
    cases e with
    | unexpectedNull => rfl
    | badType | badValue | unknownTransaction | other code => exact log_failedWith s a _

/-- An attempt adds its call to the log, once, if it comes to the service. -/
theorem log_makeDirectly (a : Attempt lib σ) :
    (a.logged.makeDirectly (logging impl) s).2.2 = s.2 ++ a.executed?.toList := by
  rw [Attempt.makeDirectly, Attempt.executed?, Attempt.reaches]
  show ((match BpServiceManager.writeRequest lib a.method a.arguments .empty with | .error e => _ | .ok r => _ :
    StateM _ _) s).2.2 = _
  cases written : BpServiceManager.writeRequest lib a.method a.arguments .empty with
  | error e => exact (List.append_nil _).symm
  | ok r =>
    show ((match a.delivery with | .delivered => _ | .refused code => _ | .replyLost code => _ : StateM _ _) s).2.2 = _
    cases delivery : a.delivery with
    | refused code =>
      rw [Bool.and_false]
      exact (List.append_nil _).symm
    | delivered =>
      show (directCall (logging impl) (a.defaultImpl.map besideLog) a.method a.arguments s).2.2 = _
      rw [directCall, written]
      show ((if hasNull lib a.method a.arguments then _ else _ : StateM _ _) s).2.2 = _
      cases hasNull lib a.method a.arguments with
      | true => exact (List.append_nil _).symm
      | false => exact log_told _ a _
    | replyLost code =>
      show ((if hasNull lib a.method a.arguments then _ else _ : StateM _ _) s).2.2 = _
      cases hasNull lib a.method a.arguments with
      | true => exact (List.append_nil _).symm
      | false => rfl

/-- A call that a client sees succeed has come to the service. -/
theorem reaches_of_isOk (lawful : lib.Lawful) (a : Attempt lib σ)
    (succeeded : lib.isOk (a.logged.makeDirectly (logging impl) s).1.2.1 = true) : a.reaches = true := by
  have never : ∀ e, lib.isOk (lib.fromStatusT e) ≠ true := fun e h => by rw [(lawful.transaction e).1] at h; cases h
  rw [Attempt.reaches]
  rw [Attempt.makeDirectly] at succeeded
  revert succeeded
  show lib.isOk ((match BpServiceManager.writeRequest lib a.method a.arguments .empty with | .error e => _ | .ok r => _ :
    StateM _ (Outcome lib)) s).1.2.1 = true → _
  cases written : BpServiceManager.writeRequest lib a.method a.arguments .empty with
  | error e => exact fun succeeded => absurd succeeded (never e)
  | ok r =>
    show lib.isOk ((match a.delivery with | .delivered => _ | .refused code => _ | .replyLost code => _ :
      StateM _ (Outcome lib)) s).1.2.1 = true → _
    cases delivery : a.delivery with
    | refused code => exact fun succeeded => absurd succeeded (never _)
    | delivered =>
      show lib.isOk (directCall (logging impl) (a.defaultImpl.map besideLog) a.method a.arguments s).1.1 = true → _
      rw [directCall, written]
      show lib.isOk ((if hasNull lib a.method a.arguments then _ else _ :
        StateM _ (lib.Status × Option (a.method.Result lib))) s).1.1 = true → _
      cases hasNull lib a.method a.arguments with
      | true =>
        intro succeeded
        have null : lib.isOk lib.nullPointer = true := succeeded
        rw [lawful.nullPointer] at null
        cases null
      | false => exact fun _ => rfl
    | replyLost code =>
      show lib.isOk ((if hasNull lib a.method a.arguments then _ else _ : StateM _ (Outcome lib)) s).1.2.1 = true → _
      cases hasNull lib a.method a.arguments with
      | true => exact fun succeeded => absurd succeeded (never _)
      | false => exact fun succeeded => absurd succeeded (never _)

/-- In any run, the service executes the calls that come to it, each once and in the order they are made in, and every
    call that a client sees succeed is among them. -/
theorem executed_in_order (lawful : lib.Lawful)
    (base : ℕ → lib.Parcel → StateM (σ × List (Executed lib)) (Except StatusT lib.Parcel))
    (attempts : List (Attempt lib σ)) :
    (makeAll (logging impl) base (attempts.map Attempt.logged) s).2.2 = s.2 ++ attempts.filterMap Attempt.executed? ∧
      List.Forall₂ (fun a (o : Outcome lib) => lib.isOk o.2.1 = true → a.executed? = some ⟨a.method, a.arguments⟩) attempts
        (makeAll (logging impl) base (attempts.map Attempt.logged) s).1 := by
  induction attempts generalizing s with
  | nil => exact ⟨(List.append_nil _).symm, .nil⟩
  | cons a attempts ih =>
    have first := log_makeDirectly impl s a
    have reached := reaches_of_isOk impl s lawful a
    rw [← Attempt.make_eq (logging impl) base lawful] at first reached
    obtain ⟨rest, others⟩ := ih (a.logged.make (logging impl) base s).2
    rw [List.map_cons, makeAll_cons, rest, first, List.append_assoc, List.filterMap_cons]
    refine ⟨?_, .cons (fun succeeded => if_pos (reached succeeded)) others⟩
    cases a.executed? <;> rfl

end Log

theorem executed_in_order_audio :
    (makeAll (logging registry) unknown (audioAttempts.map Attempt.logged) ([], [])).2.2 =
      [⟨.addService, (audio, some (7 : ℕ), false, 8)⟩, ⟨.getService, audio⟩] :=
  (executed_in_order registry ([], []) Typed.lawful unknown audioAttempts).1

end BinderIdl.Ipc
