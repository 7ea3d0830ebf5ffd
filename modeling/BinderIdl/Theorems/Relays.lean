import BinderIdl.Theorems.RemoteCalls

/-! What the stub keeps from the service whatever is sent to it, and what is lost where calls are passed on from one
    process to the next. -/

namespace BinderIdl.Ipc
open Py Wire

variable {κ σ : Type} {capacity : ℕ} {lib : Libbinder κ capacity}

/-! ### Any transactions -/

section Shield
variable (lawful : lib.Lawful) {b c : lib.Parcel}
include lawful

theorem readStrongBinder_isSome {x : Option lib.Binder} (run : lib.readStrongBinder b = .ok (x, c)) :
    x.isNone = false := by
  cases x with
  | none => exact absurd rfl (lawful.readStrongBinder_ne_null b none c run)
  | some x => rfl

/-- Arguments that are read have no null among them, whatever the parcel. -/
theorem hasNull_of_readArguments {m : Method} {arguments : m.Arguments lib}
    (run : BnServiceManager.readArguments lib m b = .ok (arguments, c)) : hasNull lib m arguments = false := by
  cases m with
  | getService | checkService | listServices | isDeclared | getDeclaredInstances | updatableViaApex | getConnectionInfo
  | getServiceDebugInfo => rfl
  | registerForNotifications | unregisterForNotifications | tryUnregisterService =>
    obtain ⟨name, d, -, run⟩ := access_bind_eq_ok.mp run
    obtain ⟨binder, read, rfl⟩ := access_map_eq_ok.mp run
    rw [hasNull, binders, List.any_cons, readStrongBinder_isSome lawful read]
    rfl
  | addService =>
    obtain ⟨name, d, -, run⟩ := access_bind_eq_ok.mp run
    obtain ⟨service, e, read, run⟩ := access_bind_eq_ok.mp run
    obtain ⟨allowIsolated, f, -, run⟩ := access_bind_eq_ok.mp run
    obtain ⟨dumpPriority, -, rfl⟩ := access_map_eq_ok.mp run
    rw [hasNull, binders, List.any_cons, readStrongBinder_isSome lawful read]
    rfl
  | registerClientCallback =>
    obtain ⟨name, d, -, run⟩ := access_bind_eq_ok.mp run
    obtain ⟨service, e, read, run⟩ := access_bind_eq_ok.mp run
    obtain ⟨callback, read', rfl⟩ := access_map_eq_ok.mp run
    rw [hasNull, binders, List.any_cons, List.any_cons, readStrongBinder_isSome lawful read,
      readStrongBinder_isSome lawful read']
    rfl

theorem hasNull_of_readRequest {m : Method} {arguments : m.Arguments lib}
    (run : BnServiceManager.readRequest lib m b = .ok (arguments, c)) : hasNull lib m arguments = false := by
  obtain ⟨mine, d, -, run⟩ := access_bind_eq_ok.mp run
  cases mine with
  | false => cases run
  | true => exact hasNull_of_readArguments lawful run

variable {impl : IServiceManager lib σ} {base : ℕ → lib.Parcel → StateM σ (Except StatusT lib.Parcel)} {P : σ → Prop}

theorem onTransact_keeps (kept : ∀ m arguments s, hasNull lib m arguments = false → P s → P (impl m arguments s).2)
    (keptByBase : ∀ code data s, P s → P (base code data s).2) (code : ℕ) (data : lib.Parcel) {s : σ} (holds : P s) :
    P (BnServiceManager.onTransact lib impl base code data s).2 := by
  rw [BnServiceManager.onTransact]
  cases Method.ofTransaction? code with
  | none => exact keptByBase code data s holds
  | some m =>
    show P (BnServiceManager.serve lib impl m data s).2
    rw [BnServiceManager.serve]
    cases read : BnServiceManager.readRequest lib m data with
    | error e => exact holds
    | ok r => exact kept m r.1 s (hasNull_of_readRequest lawful read) holds

end Shield

/-- Whatever transactions are sent to the stub, of any code and with any data, an invariant that the service keeps in
    every call without a null binder is kept: the service is given nothing else. -/
theorem onTransact_shields (lawful : lib.Lawful) {impl : IServiceManager lib σ}
    {base : ℕ → lib.Parcel → StateM σ (Except StatusT lib.Parcel)} {P : σ → Prop}
    (kept : ∀ m arguments s, hasNull lib m arguments = false → P s → P (impl m arguments s).2)
    (keptByBase : ∀ code data s, P s → P (base code data s).2) (transactions : List (ℕ × lib.Parcel)) {s : σ}
    (holds : P s) : P (transactions.mapM (fun t => BnServiceManager.onTransact lib impl base t.1 t.2) s).2 := by
  induction transactions generalizing s with
  | nil => exact holds
  | cons t transactions ih =>
    rw [List.mapM_cons]
    exact ih (onTransact_keeps lawful kept keptByBase t.1 t.2 holds)

theorem registry_keeps (m : Method) (arguments : m.Arguments Typed.lib) (services : List (Text × ℕ))
    (registered : (audio, 7) ∈ services) : (audio, 7) ∈ (registry m arguments services).2 := by
  cases m with
  | addService =>
    obtain ⟨name, _ | service, allowIsolated, dumpPriority⟩ := arguments
    · exact registered
    · exact List.mem_cons_of_mem _ registered
  | getService | checkService | listServices | registerForNotifications | unregisterForNotifications | isDeclared
  | getDeclaredInstances | updatableViaApex | getConnectionInfo | registerClientCallback | tryUnregisterService
  | getServiceDebugInfo => exact registered

/-- The transaction of a call of `addService`. -/
def addServiceData (name : Text) (service : Option ℕ) : Buffer Typed.Cell Typed.capacity :=
  okOr .empty ((BpServiceManager.writeRequest Typed.lib .addService (name, service, false, 0) .empty).map fun r => r.2.rewound)

/-- A service is added; one with a null binder, an empty parcel and an unknown code change nothing. -/
theorem onTransact_shields_audio :
    let sent := [(3, addServiceData "radio".toList (some 9)), (3, addServiceData "audio".toList none), (3, .empty), (99, .empty)]
    let served := (sent.mapM (fun t => BnServiceManager.onTransact Typed.lib registry unknown t.1 t.2) [(audio, 7)]).2
    served = [("radio".toList, 9), (audio, 7)] ∧ (audio, 7) ∈ served := by
  refine ⟨rfl, ?_⟩
  exact onTransact_shields Typed.lawful (P := fun services => (audio, 7) ∈ services)
    (fun m arguments s _ => registry_keeps m arguments s) (fun _ _ _ holds => holds) _ List.mem_cons_self

/-! ### Relays -/

/-- A service behind so many stubs with a proxy each, as an `IServiceManagerDelegator` for a proxy makes one more. -/
def relay (base : ℕ → lib.Parcel → StateM σ (Except StatusT lib.Parcel)) (impl : IServiceManager lib σ) :
    ℕ → IServiceManager lib σ
  | 0 => impl
  | n + 1 => BpServiceManager.call lib (BnServiceManager.onTransact lib (relay base impl n) base) none

section Told
variable {m : Method} (arguments : m.Arguments lib) (answer : lib.Status × Option (m.Result lib))

theorem writeReply_congr (answer' : lib.Status × Option (m.Result lib)) (status : lib.status answer.1 = lib.status answer'.1)
    (fine : lib.isOk answer.1 = lib.isOk answer'.1)
    (result : lib.isOk answer.1 = true → answer.2.getD (BnServiceManager.initial lib m) =
      answer'.2.getD (BnServiceManager.initial lib m)) :
    BnServiceManager.writeReply lib m answer = BnServiceManager.writeReply lib m answer' := by
  rw [BnServiceManager.writeReply, BnServiceManager.writeReply, Libbinder.writeStatus, Libbinder.writeStatus, status, fine]
  by_cases ok : lib.isOk answer'.1 = true
  · rw [if_pos ok, if_pos ok, result (fine.trans ok)]
  · rw [if_neg ok, if_neg ok]

theorem told_of_ok {r : Unit × lib.Parcel} (written : BnServiceManager.writeReply lib m answer .empty = .ok r) :
    (told none m arguments answer : StateM σ _) = return if lib.isOk answer.1 then
      (lib.ok, some (answer.2.getD (BnServiceManager.initial lib m))) else (answer.1, none) := by
  rw [told, written]

theorem told_of_error {e : StatusT} (unwritten : BnServiceManager.writeReply lib m answer .empty = .error e) :
    (told none m arguments answer : StateM σ _) =
      return if e = .unexpectedNull then (lib.nullPointer, none) else (lib.fromStatusT e, none) := by
  rw [told, unwritten]
  cases e <;> rfl

variable (lawful : lib.Lawful)
include lawful

theorem told_fromStatusT {e : StatusT} (other : e ≠ .unexpectedNull) :
    (told none m arguments (lib.fromStatusT e, none) : StateM σ _) = return (lib.fromStatusT e, none) := by
  have unwritten : BnServiceManager.writeReply lib m (lib.fromStatusT e, none) .empty = .error e := by
    rw [BnServiceManager.writeReply, access_bind, Libbinder.writeStatus, (lawful.transaction e).2]
    rfl
  rw [told_of_error arguments _ unwritten, if_neg other]

theorem told_nullPointer :
    (told none m arguments (lib.nullPointer, none) : StateM σ _) = return (lib.nullPointer, none) := by
  obtain ⟨cs, cells, fits⟩ := lawful.nullPointer_fits
  have raised : ¬lib.isOk lib.nullPointer = true := by
    rw [lawful.nullPointer]
    exact Bool.false_ne_true
  have written : BnServiceManager.writeReply lib m (lib.nullPointer, none) .empty =
      .ok ((), Buffer.overwrite .empty cs ((Nat.zero_add _).trans_le fits)) := by
    rw [BnServiceManager.writeReply, if_neg raised]
    refine access_bind_eq_ok.mpr ⟨(), _, ?_, rfl⟩
    rw [Libbinder.writeStatus, cells]
    exact put_eq_ok.mpr ⟨_, rfl⟩
  rw [told_of_ok arguments _ written, if_neg raised]

/-- What a caller is told passes on unchanged. -/
theorem told_told : (told none m arguments answer >>= told none m arguments : StateM σ _) = told none m arguments answer := by
  cases written : BnServiceManager.writeReply lib m answer .empty with
  | error e =>
    rw [told_of_error arguments answer written, pure_bind]
    by_cases null : e = .unexpectedNull
    · rw [if_pos null, told_nullPointer arguments lawful]
    · rw [if_neg null, told_fromStatusT arguments lawful null]
  | ok r =>
    rw [told_of_ok arguments answer written, pure_bind]
    by_cases ok : lib.isOk answer.1 = true
    · rw [if_pos ok]
      have same := writeReply_congr (lib.ok, some (answer.2.getD (BnServiceManager.initial lib m))) answer
        (lawful.plain _ ok).symm (lawful.ok.trans ok.symm) fun _ => rfl
      rw [told_of_ok arguments _ ((congrFun same .empty).trans written), if_pos lawful.ok]
      rfl
    · rw [if_neg ok]
      have same := writeReply_congr (answer.1, none) answer rfl rfl fun h => absurd h ok
      rw [told_of_ok arguments _ ((congrFun same .empty).trans written), if_neg ok]

end Told

theorem directCall_directCall (lawful : lib.Lawful) (impl : IServiceManager lib σ) :
    directCall (directCall impl none) none = directCall impl none := by
  funext m arguments
  rw [directCall]
  cases written : BpServiceManager.writeRequest lib m arguments .empty with
  | error e =>
    rw [directCall, written]
  | ok r =>
    by_cases null : hasNull lib m arguments = true
    · simp only [directCall, written, if_pos null]
    · simp only [directCall, written, if_neg null, bind_assoc]
      exact congrArg (impl m arguments >>= ·) (funext fun answer => told_told arguments answer lawful)

/-- A call that is passed on through any number of processes ends as one that is passed on once. -/
theorem relay_succ (lawful : lib.Lawful) (base : ℕ → lib.Parcel → StateM σ (Except StatusT lib.Parcel))
    (impl : IServiceManager lib σ) (n : ℕ) : relay base impl (n + 1) = relay base impl 1 := by
  have step : ∀ n, relay base impl (n + 1) = directCall (relay base impl n) none := fun n =>
    call_onTransact (relay base impl n) none base lawful
  induction n with
  | zero => rfl
  | succ n ih => rw [step, ih, step, directCall_directCall lawful]

theorem relay_audio : relay unknown registry 3 .getService audio [(audio, 7)] =
    ((Typed.Outcome.ok, some (some (7 : ℕ))), [(audio, 7)]) := by
  rw [relay_succ Typed.lawful unknown registry 2]
  rfl

end BinderIdl.Ipc
