import BinderIdl.Py.Chars
import BinderIdl.Wire.Buffer

/-! What the stubs in `binder_aidl_gen` use of `libbinder`: parcels, statuses and transactions. `libbinder` itself is not
    part of the repository: it is given as a structure, and its documented behaviour as another. -/

namespace BinderIdl.Ipc
open Py Wire

/-- `status_t`, when it is not `OK`. -/
inductive StatusT where
  | badType -- `BAD_TYPE`
  | badValue -- `BAD_VALUE`
  | unexpectedNull -- `UNEXPECTED_NULL`
  | unknownTransaction -- `UNKNOWN_TRANSACTION`
  | other (code : ℤ)
deriving DecidableEq

/-- What the stubs call. A parcel is a buffer of cells; cells are bytes and what stands for binders. -/
structure Libbinder (κ : Type) (capacity : ℕ) where
  Binder : Type
  Status : Type
  /-- `SIZE_MAX` -/
  sizeMax : ℕ
  /-- what a write into a full parcel returns -/
  full : StatusT
  /-- what a `bool` holds before it is set -/
  unset : Bool
  interfaceToken : Text → List κ
  checkInterface : Text → Access StatusT κ capacity Bool
  int32 : Int32 → List κ
  readInt32 : Access StatusT κ capacity Int32
  bool : Bool → List κ
  readBool : Access StatusT κ capacity Bool
  utf16 : Text → Except StatusT (List κ)
  readUtf8FromUtf16 : Access StatusT κ capacity Text
  /-- `std::optional<std::string>` -/
  nullableUtf16 : Option Text → Except StatusT (List κ)
  readNullableUtf8FromUtf16 : Access StatusT κ capacity (Option Text)
  utf16Vector : List Text → Except StatusT (List κ)
  readUtf8VectorFromUtf16Vector : Access StatusT κ capacity (List Text)
  strongBinder : Option Binder → Except StatusT (List κ)
  readStrongBinder : Access StatusT κ capacity (Option Binder)
  readNullableStrongBinder : Access StatusT κ capacity (Option Binder)
  /-- `writeNullableParcelable`, given `writeToParcel` -/
  writeNullableParcelable {T : Type} : (T → Access StatusT κ capacity Unit) → Option T → Access StatusT κ capacity Unit
  /-- `readParcelable` into an optional, given `readFromParcel` of a new object -/
  readParcelable {T : Type} : Access StatusT κ capacity T → Access StatusT κ capacity (Option T)
  writeParcelableVector {T : Type} : (T → Access StatusT κ capacity Unit) → List T → Access StatusT κ capacity Unit
  readParcelableVector {T : Type} : Access StatusT κ capacity T → Access StatusT κ capacity (List T)
  isOk : Status → Bool
  /-- `Status()` -/
  ok : Status
  /-- `Status::fromStatusT` and `setFromStatusT` of a status other than `OK` -/
  fromStatusT : StatusT → Status
  /-- `Status::fromExceptionCode(EX_NULL_POINTER)` -/
  nullPointer : Status
  /-- `Status::writeToParcel` -/
  status : Status → Except StatusT (List κ)
  /-- `Status::readFromParcel` -/
  readStatus : Access StatusT κ capacity Status

namespace Libbinder
variable {κ : Type} {capacity : ℕ} (lib : Libbinder κ capacity)

abbrev Parcel (_ : Libbinder κ capacity) := Buffer κ capacity

abbrev OnParcel (_ : Libbinder κ capacity) (α : Type) := Access StatusT κ capacity α

/-! ### Writing -/

/-- A value whose cells there may be none of is written. -/
def writeCells (cells : Except StatusT (List κ)) : lib.OnParcel Unit :=
  match cells with
  | .ok cs => put lib.full cs
  | .error e => throw e

def writeInterfaceToken (descriptor : Text) : lib.OnParcel Unit := put lib.full (lib.interfaceToken descriptor)

def writeInt32 (n : Int32) : lib.OnParcel Unit := put lib.full (lib.int32 n)

def writeBool (b : Bool) : lib.OnParcel Unit := put lib.full (lib.bool b)

def writeUtf8AsUtf16 (t : Text) : lib.OnParcel Unit := lib.writeCells (lib.utf16 t)

def writeNullableUtf8AsUtf16 (t : Option Text) : lib.OnParcel Unit := lib.writeCells (lib.nullableUtf16 t)

def writeUtf8VectorAsUtf16Vector (ts : List Text) : lib.OnParcel Unit := lib.writeCells (lib.utf16Vector ts)

def writeStrongBinder (b : Option lib.Binder) : lib.OnParcel Unit := lib.writeCells (lib.strongBinder b)

def writeStatus (s : lib.Status) : lib.OnParcel Unit := lib.writeCells (lib.status s)

/-! ### Documented behaviour -/

/-- What `readStrongBinder` makes of a binder that was written. -/
def nonNull : Option lib.Binder → Except StatusT (Option lib.Binder)
  | some b => .ok (some b)
  | none => .error .unexpectedNull

/-- What is written to a parcel is read from it. -/
structure Reads : Prop where
  interfaceToken : ∀ d d', Yields (lib.checkInterface d') (lib.interfaceToken d) (.ok (d = d'))
  int32 : ∀ n, Yields lib.readInt32 (lib.int32 n) (.ok n)
  bool : ∀ b, Yields lib.readBool (lib.bool b) (.ok b)
  utf16 : ∀ t cs, lib.utf16 t = .ok cs → Yields lib.readUtf8FromUtf16 cs (.ok t)
  nullableUtf16 : ∀ t cs, lib.nullableUtf16 t = .ok cs → Yields lib.readNullableUtf8FromUtf16 cs (.ok t)
  utf16Vector : ∀ ts cs, lib.utf16Vector ts = .ok cs → Yields lib.readUtf8VectorFromUtf16Vector cs (.ok ts)
  nullableStrongBinder : ∀ b cs, lib.strongBinder b = .ok cs → Yields lib.readNullableStrongBinder cs (.ok b)
  strongBinder : ∀ b cs, lib.strongBinder b = .ok cs → Yields lib.readStrongBinder cs (lib.nonNull b)
  nullableParcelable : ∀ {T : Type} (w : T → lib.OnParcel Unit) (r : lib.OnParcel T) (x : Option T),
    (∀ y ∈ x, Carries (w y) r (.ok y)) → Carries (lib.writeNullableParcelable w x) (lib.readParcelable r) (.ok x)
  parcelableVector : ∀ {T : Type} (w : T → lib.OnParcel Unit) (r : lib.OnParcel T) (xs : List T),
    (∀ y ∈ xs, Carries (w y) r (.ok y)) → Carries (lib.writeParcelableVector w xs) (lib.readParcelableVector r) (.ok xs)

/-- A status travels with its exception, a failed transaction as its `status_t`. -/
structure Statuses : Prop where
  ok : lib.isOk lib.ok = true
  nullPointer : lib.isOk lib.nullPointer = false
  nullPointer_fits : ∃ cs, lib.status lib.nullPointer = .ok cs ∧ cs.length ≤ capacity
  transaction : ∀ e, lib.isOk (lib.fromStatusT e) = false ∧ lib.status (lib.fromStatusT e) = .error e
  plain : ∀ s, lib.isOk s = true → lib.status s = lib.status lib.ok
  read : ∀ s cs, lib.status s = .ok cs → Yields lib.readStatus cs (.ok (if lib.isOk s then lib.ok else s))

/-- The documented behaviour of `libbinder`. -/
structure Lawful : Prop extends lib.Reads, lib.Statuses where
  /-- a parcel is shorter than `INT32_MAX` -/
  capacity_lt : capacity < 2 ^ 31
  capacity_le : capacity ≤ lib.sizeMax
  int32_length : ∀ n, (lib.int32 n).length = 4
  utf16_length : ∀ t cs, lib.utf16 t = .ok cs → 4 ≤ cs.length
  readStrongBinder_ne_null : ∀ b x c, lib.readStrongBinder b = .ok (x, c) → x ≠ none

/-! ### Writers and readers -/

variable {lib}

/-- What cannot be written need not be read. -/
theorem carries_writeCells {α : Type} {cells : Except StatusT (List κ)} {r : lib.OnParcel α} {x : Except StatusT α}
    (read : ∀ cs, cells = .ok cs → Yields r cs x) : Carries (lib.writeCells cells) r x := by
  cases cells with
  | error e => exact .throw e
  | ok cs => exact .put (read cs rfl) lib.full

end Libbinder

end BinderIdl.Ipc
