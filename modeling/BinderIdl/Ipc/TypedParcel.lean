import BinderIdl.Ipc.Libbinder

/-! A `libbinder` whose parcels hold values: a value takes four cells, of which the first has it. It behaves as is
    documented, so that calls can be followed in it. -/

namespace BinderIdl.Ipc
open Py Wire

namespace Typed

/-- What an exception says, or how a transaction failed. -/
inductive Outcome where
  | ok
  | exception (code : ℤ) (message : Text)
  | transactionFailed (e : StatusT)
deriving DecidableEq

inductive Value where
  | token (descriptor : Text)
  | int32 (n : Int32)
  | bool (b : Bool)
  | utf16 (t : Text)
  | nullableUtf16 (t : Option Text)
  | utf16Vector (ts : List Text)
  | binder (b : Option ℕ)
  | status (s : Outcome)
deriving DecidableEq

abbrev Cell := Option Value

def cells (v : Value) : List Cell := [some v, none, none, none]

/-- A process may receive so much at a time. -/
def capacity : ℕ := 1024 * 1024

abbrev OnParcel := Access StatusT Cell capacity

def notEnoughData : StatusT := .other (-61)

/-- A value is read that is of the right kind. -/
def readValue {α : Type} (select : Value → Except StatusT α) : OnParcel α := fun b =>
  match b.rest with
  | some v :: none :: none :: none :: _ => (select v).map fun a => (a, b.seek (b.position + 4))
  | _ => .error notEnoughData

/-- What `checkInterface` does not find it does not report. -/
def checkInterface (descriptor : Text) : OnParcel Bool := fun b =>
  match readValue (fun | .token d => .ok d | _ => .error .badType) b with
  | .ok (d, c) => .ok (d = descriptor, c)
  | .error _ => .ok (false, b)

def writeMany {T : Type} (w : T → OnParcel Unit) : List T → OnParcel Unit
  | [] => pure ()
  | x :: xs => do
    w x
    writeMany w xs

def readMany {T : Type} (r : OnParcel T) : ℕ → OnParcel (List T)
  | 0 => pure []
  | n + 1 => do
    let x ← r
    (x :: ·) <$> readMany r n

def full : StatusT := .other (-12)

def readInt32 : OnParcel Int32 := readValue fun | .int32 n => .ok n | _ => .error .badType

def writeInt32 (n : Int32) : OnParcel Unit := put full (cells (.int32 n))

def readStrongBinder : OnParcel (Option ℕ) :=
  readValue fun | .binder (some b) => .ok (some b) | .binder none => .error .unexpectedNull | _ => .error .badType

/-- What is written of a status: nothing where the transaction failed. -/
def statusCells : Outcome → Except StatusT (List Cell)
  | .transactionFailed e => .error e
  | s => .ok (cells (.status s))

def lib : Libbinder Cell capacity where
  Binder := ℕ
  Status := Outcome
  sizeMax := 2 ^ 64 - 1
  full := full
  unset := false
  interfaceToken d := cells (.token d)
  checkInterface := checkInterface
  int32 n := cells (.int32 n)
  readInt32 := readInt32
  bool b := cells (.bool b)
  readBool := readValue fun | .bool b => .ok b | _ => .error .badType
  utf16 t := .ok (cells (.utf16 t))
  readUtf8FromUtf16 := readValue fun | .utf16 t => .ok t | _ => .error .badType
  nullableUtf16 t := .ok (cells (.nullableUtf16 t))
  readNullableUtf8FromUtf16 := readValue fun | .nullableUtf16 t => .ok t | _ => .error .badType
  utf16Vector ts := .ok (cells (.utf16Vector ts))
  readUtf8VectorFromUtf16Vector := readValue fun | .utf16Vector ts => .ok ts | _ => .error .badType
  strongBinder b := .ok (cells (.binder b))
  readStrongBinder := readStrongBinder
  readNullableStrongBinder := readValue fun | .binder b => .ok b | _ => .error .badType
  writeNullableParcelable w
    | none => writeInt32 0
    | some x => do
      writeInt32 1
      w x
  readParcelable r := do
    let present ← readInt32
    if present = 0 then return none else some <$> r
  writeParcelableVector w xs := do
    if xs.length < 2 ^ 31 then
      writeInt32 (Int32.ofNat xs.length)
      writeMany w xs
    else throw .badValue
  readParcelableVector r := do
    let size ← readInt32
    readMany r size.toInt.toNat
  isOk s := s = .ok
  ok := .ok
  fromStatusT := .transactionFailed
  nullPointer := .exception (-4) []
  status := statusCells
  readStatus := readValue fun | .status s => .ok s | _ => .error .badType

/-! ### Its behaviour -/

theorem yields_readValue {α : Type} (select : Value → Except StatusT α) (v : Value) :
    Yields (readValue select) (cells v) (select v) := by
  intro b here
  obtain ⟨more, whole⟩ := here
  rw [readValue, ← whole]
  rfl

theorem yields_checkInterface (d d' : Text) : Yields (checkInterface d') (cells (.token d)) (.ok (d = d')) := by
  intro b here
  rw [checkInterface, yields_readValue _ (.token d) b here]
  rfl

theorem carries_int32 (n : Int32) : Carries (writeInt32 n) readInt32 (.ok n) :=
  .put (yields_readValue _ (.int32 n)) full

theorem carries_many {T : Type} {w : T → OnParcel Unit} {r : OnParcel T} {xs : List T}
    (each : ∀ x ∈ xs, Carries (w x) r (.ok x)) : Carries (writeMany w xs) (readMany r xs.length) (.ok xs) := by
  induction xs with
  | nil => exact .pure () []
  | cons x xs ih =>
    have rest := ih fun y member => each y (List.mem_cons_of_mem _ member)
    exact (each x List.mem_cons_self).bind (rest.map (x :: ·))

theorem reads : lib.Reads where
  interfaceToken := yields_checkInterface
  int32 n := yields_readValue _ (.int32 n)
  bool b := yields_readValue _ (.bool b)
  utf16 t cs written := by
    cases written
    exact yields_readValue _ (.utf16 t)
  nullableUtf16 t cs written := by
    cases written
    exact yields_readValue _ (.nullableUtf16 t)
  utf16Vector ts cs written := by
    cases written
    exact yields_readValue _ (.utf16Vector ts)
  nullableStrongBinder b cs written := by
    cases written
    exact yields_readValue _ (.binder b)
  strongBinder b cs written := by
    cases written
    cases b with
    | none => exact yields_readValue _ (.binder none)
    | some b => exact yields_readValue _ (.binder (some b))
  nullableParcelable w r x each := by
    cases x with
    | none =>
      have carries := (carries_int32 0).bind (v := fun _ => pure ())
        (f := fun present => if present = 0 then pure none else some <$> r) (Carries.pure () none)
      rwa [bind_pure_unit] at carries
    | some y => exact (carries_int32 1).bind ((each y rfl).map some)
  parcelableVector w r xs each := by
    show Carries (if xs.length < 2 ^ 31 then _ else _ : OnParcel Unit) _ _
    by_cases short : xs.length < 2 ^ 31
    · rw [if_pos short]
      refine (carries_int32 (Int32.ofNat xs.length)).bind ?_
      rw [Int32.toInt_ofNat_of_lt short, Int.toNat_natCast]
      exact carries_many each
    · rw [if_neg short]
      exact .throw _

theorem statuses : lib.Statuses where
  ok := rfl
  nullPointer := rfl
  nullPointer_fits := ⟨_, rfl, by decide⟩
  transaction e := ⟨rfl, rfl⟩
  plain (s : Outcome) fine := by
    cases s with
    | ok => rfl
    | exception code message => cases fine
    | transactionFailed e => cases fine
  read (s : Outcome) cs written := by
    cases s with
    | ok =>
      cases written
      exact yields_readValue _ (.status .ok)
    | exception code message =>
      cases written
      exact yields_readValue _ (.status (.exception code message))
    | transactionFailed e => cases written

theorem readStrongBinder_ne_null {b c : Buffer Cell capacity} : readStrongBinder b ≠ .ok (none, c) := by
  intro run
  rw [readStrongBinder, readValue] at run
  split at run
  · next v behind _ =>
    obtain ⟨x, selected, same⟩ := map_eq_ok.mp run
    cases same
    cases v with
    | binder b => cases b <;> cases selected
    | token d | int32 n | bool b | utf16 t | nullableUtf16 t | utf16Vector ts | status s => cases selected
  · cases run

theorem lawful : lib.Lawful where
  toReads := reads
  toStatuses := statuses
  capacity_lt := by decide
  capacity_le := by decide
  int32_length _ := rfl
  utf16_length t cs written := by
    cases written
    exact le_rfl
  readStrongBinder_ne_null b x c run := by
    rintro rfl
    exact readStrongBinder_ne_null run

end Typed

end BinderIdl.Ipc
