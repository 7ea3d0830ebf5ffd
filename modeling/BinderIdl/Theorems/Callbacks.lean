import BinderIdl.Ipc.Callbacks
import BinderIdl.Theorems.RemoteCalls

/-! Oneway calls of callbacks arrive, each once and in order, except those with a null binder, which are lost without the
    caller being told. -/

namespace BinderIdl.Ipc
open Py Wire

variable {κ A σ : Type} {capacity : ℕ} {lib : Libbinder κ capacity}

namespace CallbackInterface
variable (cb : CallbackInterface lib A)

/-! ### What waits -/

/-- Arguments are read as they were written, unless a binder is null. -/
def CarriesUnless (hasNull : A → Bool) : Prop :=
  ∀ a, Carries (cb.writeArguments a) cb.readArguments (if hasNull a then .error .unexpectedNull else .ok a)

theorem request_carries (lawful : lib.Lawful) {hasNull : A → Bool} (carries : cb.CarriesUnless hasNull) (a : A) :
    Carries (cb.writeRequest a) cb.readRequest (if hasNull a then .error .unexpectedNull else .ok a) := by
  have token : Carries (lib.writeInterfaceToken cb.descriptor) (lib.checkInterface cb.descriptor) (.ok true) := by
    have read := lawful.interfaceToken cb.descriptor cb.descriptor
    rw [decide_eq_true rfl] at read
    exact .put read lib.full
  exact token.bind (carries a)

/-- A transaction that waits, by the call it will be; one with a null binder will be none. -/
def Waits (call : Option A) (t : ℕ × lib.Parcel) : Prop :=
  t.1 = transaction ∧ (cb.readRequest t.2).map Prod.fst = match call with
    | some a => .ok a
    | none => .error .unexpectedNull

/-- What happens to a callback object: a call is sent to it, or it takes the next. -/
inductive Event (A : Type) where
  | send (refusal : Option StatusT) (a : A)
  | deliver

/-- The call that is sent and can arrive. -/
def Event.accepted? (hasNull : A → Bool) : Event A → Option A
  | .send none a => if (cb.writeRequest a .empty).isOk && !hasNull a then some a else none
  | _ => none

/-- The object, with a log of the calls it executes. -/
def logging (impl : A → StateM σ lib.Status) : A → StateM (σ × List A) lib.Status := fun a s =>
  let (status, t) := impl a s.1
  (status, t, s.2 ++ [a])

section Steps
variable (impl : A → StateM σ lib.Status) (base : ℕ → lib.Parcel → StateM (σ × List A) (Except StatusT lib.Parcel))
  (defaultImpl : Option (A → lib.Status))

def Event.leaves (node : CallbackNode lib (σ × List A)) : Event A → CallbackNode lib (σ × List A)
  | .send refusal a => (cb.send defaultImpl refusal a node).2
  | .deliver => (cb.deliver (logging impl) base node).2

/-- The calls that were executed and those that wait are the calls that were sent. -/
def Accounted (node : CallbackNode lib (σ × List A)) (sent : List A) : Prop :=
  ∃ waiting, List.Forall₂ cb.Waits waiting node.queue ∧ node.state.2 ++ waiting.reduceOption = sent

variable {cb} {node : CallbackNode lib (σ × List A)} {sent : List A}

theorem Accounted.send (lawful : lib.Lawful) {hasNull : A → Bool} (carries : cb.CarriesUnless hasNull)
    (accounted : cb.Accounted node sent) (refusal : Option StatusT) (a : A) :
    cb.Accounted (cb.send defaultImpl refusal a node).2 (sent ++ ((Event.send refusal a).accepted? cb hasNull).toList) := by
  obtain ⟨waiting, all, log⟩ := accounted
  have same : cb.Accounted node (sent ++ []) := ⟨waiting, all, by rw [log, List.append_nil]⟩
  rw [CallbackInterface.send]
  cases refusal with
  | some e => cases cb.writeRequest a .empty <;> exact same
  | none =>
    rw [Event.accepted?]
    cases written : cb.writeRequest a .empty with
    | error e => exact same
    | ok r =>
      obtain ⟨u, data⟩ := r
      have read := (cb.request_carries lawful carries a).run written
      have waits : cb.Waits (if hasNull a then none else some a) (transaction, data.rewound) := by
        refine ⟨rfl, ?_⟩
        rw [read]
        cases hasNull a <;> rfl
      refine ⟨waiting ++ [if hasNull a then none else some a], List.rel_append all (.cons waits .nil), ?_⟩
      rw [List.reduceOption_append, ← List.append_assoc, log]
      cases hasNull a <;> rfl

theorem Accounted.deliver (accounted : cb.Accounted node sent) :
    cb.Accounted (cb.deliver (logging impl) base node).2 sent := by
  obtain ⟨waiting, all, log⟩ := accounted
  obtain ⟨queue, state⟩ := node
  cases all with
  | nil => exact ⟨[], .nil, log⟩
  | @cons call t waiting queue first rest =>
    obtain ⟨code, data⟩ := t
    obtain ⟨known, read⟩ := first
    refine ⟨waiting, rest, ?_⟩
    show (cb.onTransact (logging impl) base code data state).2.2 ++ _ = _
    rw [onTransact, if_pos known]
    show (cb.serve (logging impl) data state).2.2 ++ _ = _
    rw [serve]
    cases request : cb.readRequest data with
    | error e =>
      rw [request] at read
      cases call with
      | some a => cases read
      | none => exact log
    | ok r =>
      rw [request] at read
      cases call with
      | none => cases read
      | some a =>
        cases read
        show (state.2 ++ [r.1]) ++ _ = _
        rw [List.append_assoc]
        exact log

end Steps

/-- In any interleaving of calls that are sent and calls that are taken, the calls that were executed are the first of
    those that were sent and can arrive, in their order, and all of them once none waits. -/
structure InOrder (hasNull : A → Bool) : Prop where
  executed : ∀ {σ : Type} (impl : A → StateM σ lib.Status) base defaultImpl (events : List (Event A)) (s : σ),
    ∃ waiting, (events.foldl (Event.leaves cb impl base defaultImpl) ⟨[], s, []⟩).state.2 ++ waiting =
        events.filterMap (Event.accepted? cb hasNull) ∧
      waiting.length ≤ (events.foldl (Event.leaves cb impl base defaultImpl) ⟨[], s, []⟩).queue.length
  untold : ∀ {σ : Type} defaultImpl (a : A) (node : CallbackNode lib σ), (cb.writeRequest a .empty).isOk = true →
    hasNull a = true → (cb.send defaultImpl none a node).1 = lib.ok

theorem InOrder.of_carries (lawful : lib.Lawful) {hasNull : A → Bool} (carries : cb.CarriesUnless hasNull) :
    cb.InOrder hasNull := by
  refine ⟨fun {σ} impl base defaultImpl events s => ?_, fun {σ} defaultImpl a node written _ => ?_⟩
  · have run : ∀ (events : List (Event A)) (node : CallbackNode lib (σ × List A)) sent, cb.Accounted node sent →
        cb.Accounted (events.foldl (Event.leaves cb impl base defaultImpl) node)
          (sent ++ events.filterMap (Event.accepted? cb hasNull)) := by
      intro events
      induction events with
      | nil => exact fun node sent accounted => by rwa [List.filterMap_nil, List.append_nil]
      | cons e events ih =>
        intro node sent accounted
        have step : cb.Accounted (e.leaves cb impl base defaultImpl node) (sent ++ (e.accepted? cb hasNull).toList) := by
          cases e with
          | send refusal a => exact accounted.send defaultImpl lawful carries refusal a
          | deliver =>
            rw [show (Event.deliver : Event A).accepted? cb hasNull = none from rfl, Option.toList_none, List.append_nil]
            exact accounted.deliver impl base
        have rest := ih _ _ step
        rw [List.append_assoc] at rest
        rw [List.foldl_cons, List.filterMap_cons]
        revert rest
        cases e.accepted? cb hasNull <;> exact id
    obtain ⟨waiting, all, log⟩ := run events ⟨[], s, []⟩ [] ⟨[], .nil, rfl⟩
    exact ⟨waiting.reduceOption, log, (List.reduceOption_length_le _).trans all.length_eq.le⟩
  · rw [CallbackInterface.send]
    cases request : cb.writeRequest a .empty with
    | ok r => rfl
    | error e =>
      rw [request] at written
      cases written

end CallbackInterface

theorem callbacks_in_order (lawful : lib.Lawful) :
    (IServiceCallback lib).InOrder (fun a => a.2.isNone) ∧ (IClientCallback lib).InOrder (fun a => a.1.isNone) := by
  refine ⟨.of_carries _ lawful fun a => ?_, .of_carries _ lawful fun a => ?_⟩
  · obtain ⟨name, binder⟩ := a
    have carries := carries_named lawful name binder Prod.mk
    cases binder <;> exact carries
  · obtain ⟨registered, hasClients⟩ := a
    have first := carries_strongBinder lawful registered
    have behind := (carries_bool lawful hasClients).map (registered, ·)
    cases registered with
    | none => exact first.bind_error behind _
    | some registered => exact first.bind behind

/-- A registration, one with a null binder, one that is refused and another one, with the object taking calls between. -/
def registrations : List (CallbackInterface.Event (Text × Option ℕ)) := [
  .send none ("audio".toList, some 7), .send none ("video".toList, none), .deliver,
  .send (some .unknownTransaction) ("radio".toList, some 8), .send none ("radio".toList, some 9), .deliver, .deliver]

/-- A callback object that counts the calls it executes. -/
def counting (_ : Text × Option ℕ) : StateM ℕ Typed.Outcome := fun n => (.ok, n + 1)

theorem callbacks_in_order_typed :
    (registrations.foldl (CallbackInterface.Event.leaves (IServiceCallback Typed.lib) counting
        (fun _ _ s => (.error .unknownTransaction, s)) none) ⟨[], 0, []⟩).state.2 =
      ([("audio".toList, some 7), ("radio".toList, some 9)] : List (Text × Option ℕ)) := by
  obtain ⟨waiting, log, bound⟩ := (callbacks_in_order Typed.lawful).1.executed counting
    (fun _ _ s => (.error .unknownTransaction, s)) none registrations 0
  have delivered : (registrations.foldl (CallbackInterface.Event.leaves (IServiceCallback Typed.lib) counting
      (fun _ _ s => (.error .unknownTransaction, s)) none) ⟨[], 0, []⟩).queue = [] := rfl
  rw [delivered] at bound
  obtain rfl := List.length_eq_zero_iff.mp (Nat.le_zero.mp bound)
  rw [List.append_nil] at log
  exact log

end BinderIdl.Ipc
