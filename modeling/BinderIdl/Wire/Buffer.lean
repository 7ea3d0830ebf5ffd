import BinderIdl.Py.Outcome
import Mathlib.Data.List.Infix

/-! Buffers of cells that are written and read at a position: what a writer adds, what a reader takes, and how writers
    and readers that agree are put together. -/

namespace Wire
open Py

/-- Cells and the place that is written or read next; there is room for so many cells. -/
structure Buffer (κ : Type) (capacity : ℕ) where
  cells : List κ
  position : ℕ
  bounded : cells.length ≤ capacity
deriving DecidableEq

namespace Buffer
variable {κ : Type} {capacity : ℕ}

def empty : Buffer κ capacity := ⟨[], 0, Nat.zero_le _⟩

def seek (n : ℕ) (b : Buffer κ capacity) : Buffer κ capacity := { b with position := n }

/-- The buffer with its position at the start. -/
def rewound (b : Buffer κ capacity) : Buffer κ capacity := b.seek 0

def AtEnd (b : Buffer κ capacity) : Prop := b.position = b.cells.length

/-- The cells from the position on. -/
def rest (b : Buffer κ capacity) : List κ := b.cells.drop b.position

theorem overwrite_bounded (b : Buffer κ capacity) (cs : List κ) (fits : b.position + cs.length ≤ capacity) :
    (b.cells.take b.position ++ cs ++ b.cells.drop (b.position + cs.length)).length ≤ capacity := by
  have := b.bounded
  simp only [List.length_append, List.length_take, List.length_drop]
  omega

/-- The cells are written over what is at the position, and behind it where there is nothing. -/
def overwrite (b : Buffer κ capacity) (cs : List κ) (fits : b.position + cs.length ≤ capacity) : Buffer κ capacity :=
  ⟨b.cells.take b.position ++ cs ++ b.cells.drop (b.position + cs.length), b.position + cs.length,
    b.overwrite_bounded cs fits⟩

@[simp] theorem cells_seek (n : ℕ) (b : Buffer κ capacity) : (b.seek n).cells = b.cells := rfl

@[simp] theorem position_seek (n : ℕ) (b : Buffer κ capacity) : (b.seek n).position = n := rfl

@[simp] theorem seek_seek (n m : ℕ) (b : Buffer κ capacity) : (b.seek m).seek n = b.seek n := rfl

theorem ext {b c : Buffer κ capacity} (cells : b.cells = c.cells) (position : b.position = c.position) : b = c := by
  cases b
  cases c
  cases cells
  cases position
  rfl

theorem overwrite_atEnd {b : Buffer κ capacity} (atEnd : b.AtEnd) {cs : List κ}
    (fits : b.position + cs.length ≤ capacity) :
    (b.overwrite cs fits).cells = b.cells ++ cs ∧ (b.overwrite cs fits).AtEnd := by
  have cells : (b.overwrite cs fits).cells = b.cells ++ cs := by
    show b.cells.take b.position ++ cs ++ b.cells.drop (b.position + cs.length) = _
    rw [show b.position = b.cells.length from atEnd, List.take_length, List.drop_eq_nil_of_le (Nat.le_add_right _ _),
      List.append_nil]
  refine ⟨cells, ?_⟩
  rw [AtEnd, cells, List.length_append]
  exact congrArg (· + cs.length) atEnd

/-- What stands at the position stands there behind a prefix of it too. -/
theorem rest_seek_of_prefix {b : Buffer κ capacity} {cs ds : List κ} (here : cs ++ ds <+: b.rest) :
    ds <+: (b.seek (b.position + cs.length)).rest := by
  obtain ⟨more, whole⟩ := here
  refine ⟨more, ?_⟩
  rw [rest, cells_seek, position_seek, ← List.drop_drop]
  show _ = List.drop cs.length b.rest
  rw [← whole, List.append_assoc, List.drop_left]

end Buffer

/-! ### Reading and writing -/

/-- A computation that reads or writes a buffer, and may fail. -/
abbrev Access (ε κ : Type) (capacity : ℕ) (α : Type) := StateT (Buffer κ capacity) (Except ε) α

section Access
variable {ε κ α β γ : Type} {capacity : ℕ}

def tell : Access ε κ capacity ℕ := fun b => .ok (b.position, b)

def seekTo (n : ℕ) : Access ε κ capacity Unit := fun b => .ok ((), b.seek n)

/-- Cells are written where there is room for them. -/
def put (full : ε) (cs : List κ) : Access ε κ capacity Unit := fun b =>
  if fits : b.position + cs.length ≤ capacity then .ok ((), b.overwrite cs fits) else .error full

theorem access_bind (x : Access ε κ capacity α) (f : α → Access ε κ capacity β) (b : Buffer κ capacity) :
    (x >>= f) b = x b >>= fun r => f r.1 r.2 := rfl

@[simp] theorem tell_bind (f : ℕ → Access ε κ capacity β) (b : Buffer κ capacity) : (tell >>= f) b = f b.position b := rfl

@[simp] theorem access_pure (a : α) (b : Buffer κ capacity) : (pure a : Access ε κ capacity α) b = .ok (a, b) := rfl

@[simp] theorem access_throw (e : ε) (b : Buffer κ capacity) :
    (throw e : Access ε κ capacity α) b = .error e := rfl

theorem access_bind_eq_ok {x : Access ε κ capacity α} {f : α → Access ε κ capacity β} {b d : Buffer κ capacity} {r : β} :
    (x >>= f) b = .ok (r, d) ↔ ∃ a c, x b = .ok (a, c) ∧ f a c = .ok (r, d) := by
  rw [access_bind, bind_eq_ok]
  exact ⟨fun ⟨r, first, second⟩ => ⟨r.1, r.2, first, second⟩, fun ⟨a, c, first, second⟩ => ⟨(a, c), first, second⟩⟩

theorem access_map_eq_ok {x : Access ε κ capacity α} {f : α → β} {b c : Buffer κ capacity} {r : β} :
    (f <$> x) b = .ok (r, c) ↔ ∃ a, x b = .ok (a, c) ∧ f a = r := by
  show (x >>= fun a => pure (f a)) b = _ ↔ _
  rw [access_bind_eq_ok]
  constructor
  · rintro ⟨a, d, first, same⟩
    cases same
    exact ⟨a, first, rfl⟩
  · rintro ⟨a, first, rfl⟩
    exact ⟨a, c, first, rfl⟩

theorem put_eq_ok {full : ε} {cs : List κ} {b c : Buffer κ capacity} {u : Unit} :
    put full cs b = .ok (u, c) ↔ ∃ fits : b.position + cs.length ≤ capacity, b.overwrite cs fits = c := by
  rw [put]
  by_cases fits : b.position + cs.length ≤ capacity
  · rw [dif_pos fits]
    exact ⟨fun h => ⟨fits, by cases h; rfl⟩, fun ⟨_, same⟩ => by rw [same]⟩
  · rw [dif_neg fits]
    exact ⟨fun h => (by cases h), fun ⟨h, _⟩ => absurd h fits⟩

/-! ### Readers -/

/-- Wherever these cells stand, this is read from them, or the reader fails so. -/
def Yields (r : Access ε κ capacity α) (cs : List κ) (x : Except ε α) : Prop :=
  ∀ b, cs <+: b.rest → r b = x.map fun a => (a, b.seek (b.position + cs.length))

theorem Yields.pure (a : α) : Yields (Pure.pure a : Access ε κ capacity α) [] (.ok a) := fun _ _ => rfl

theorem Yields.bind {r : Access ε κ capacity α} {f : α → Access ε κ capacity β} {cs ds : List κ} {x : Except ε α}
    {g : α → Except ε β} (first : Yields r cs x) (second : ∀ a, x = .ok a → Yields (f a) ds (g a)) :
    Yields (r >>= f) (cs ++ ds) (x >>= g) := by
  intro b here
  rw [access_bind, first b ((List.prefix_append cs ds).trans here)]
  cases x with
  | error e => rfl
  | ok a =>
    have read := second a rfl _ (Buffer.rest_seek_of_prefix here)
    show f a _ = (g a).map _
    rw [read, Buffer.seek_seek, Buffer.position_seek, Nat.add_assoc, List.length_append]

theorem Yields.map {r : Access ε κ capacity α} {cs : List κ} {x : Except ε α} (read : Yields r cs x) (f : α → β) :
    Yields (f <$> r) cs (x.map f) := by
  intro b here
  show r b >>= _ = _
  rw [read b here]
  cases x with
  | error e => rfl
  | ok a => rfl

/-! ### Writers and readers that agree -/

/-- What this writer adds at the end of a buffer, where it does not fail, this reader reads so. -/
def Carries (w : Access ε κ capacity Unit) (r : Access ε κ capacity α) (x : Except ε α) : Prop :=
  ∀ b c u, b.AtEnd → w b = .ok (u, c) → ∃ cs, c.cells = b.cells ++ cs ∧ c.AtEnd ∧ Yields r cs x

theorem Carries.pure (u : Unit) (a : α) : Carries (Pure.pure u : Access ε κ capacity Unit) (Pure.pure a) (.ok a) := by
  intro b c v atEnd run
  cases run
  exact ⟨[], (List.append_nil _).symm, atEnd, .pure a⟩

theorem Carries.put {r : Access ε κ capacity α} {cs : List κ} {x : Except ε α} (read : Yields r cs x) (full : ε) :
    Carries (put full cs) r x := by
  intro b c u atEnd run
  obtain ⟨fits, rfl⟩ := put_eq_ok.mp run
  obtain ⟨cells, atEnd'⟩ := Buffer.overwrite_atEnd atEnd fits
  exact ⟨cs, cells, atEnd', read⟩

theorem Carries.throw {r : Access ε κ capacity α} {x : Except ε α} (e : ε) :
    Carries (MonadExcept.throw e : Access ε κ capacity Unit) r x := fun _ _ _ _ run => by cases run

theorem Carries.bind {w : Access ε κ capacity Unit} {v : Unit → Access ε κ capacity Unit} {r : Access ε κ capacity α}
    {f : α → Access ε κ capacity β} {a : α} {y : Except ε β} (first : Carries w r (.ok a))
    (second : Carries (v ()) (f a) y) : Carries (w >>= v) (r >>= f) y := by
  intro b d u atEnd run
  obtain ⟨⟨⟩, c, one, two⟩ := access_bind_eq_ok.mp run
  obtain ⟨cs, cells, atEnd', yields⟩ := first b c () atEnd one
  obtain ⟨ds, cells', atEnd'', yields'⟩ := second c d u atEnd' two
  refine ⟨cs ++ ds, by rw [cells', cells, List.append_assoc], atEnd'', ?_⟩
  exact yields.bind (g := fun _ => y) fun b same => by cases same; exact yields'

/-- A reader that fails does so whatever is written behind. -/
theorem Carries.bind_error {w : Access ε κ capacity Unit} {v : Unit → Access ε κ capacity Unit}
    {r : Access ε κ capacity α} {s : Access ε κ capacity γ} {z : Except ε γ} {e : ε} (first : Carries w r (.error e))
    (second : Carries (v ()) s z) (f : α → Access ε κ capacity β) : Carries (w >>= v) (r >>= f) (.error e) := by
  intro b d u atEnd run
  obtain ⟨⟨⟩, c, one, two⟩ := access_bind_eq_ok.mp run
  obtain ⟨cs, cells, atEnd', yields⟩ := first b c () atEnd one
  obtain ⟨ds, cells', atEnd'', -⟩ := second c d u atEnd' two
  refine ⟨cs ++ ds, by rw [cells', cells, List.append_assoc], atEnd'', ?_⟩
  exact yields.bind (g := fun _ => .error e) fun a same => by cases same

theorem Carries.map {w : Access ε κ capacity Unit} {r : Access ε κ capacity α} {x : Except ε α} (carries : Carries w r x)
    (f : α → β) : Carries w (f <$> r) (x.map f) := by
  intro b c u atEnd run
  obtain ⟨cs, cells, atEnd', yields⟩ := carries b c u atEnd run
  exact ⟨cs, cells, atEnd', yields.map f⟩

/-- A buffer that is written from its start is read back from its start. -/
theorem Carries.run {w : Access ε κ capacity Unit} {r : Access ε κ capacity α} {x : Except ε α} (carries : Carries w r x)
    {c : Buffer κ capacity} {u : Unit} (written : w .empty = .ok (u, c)) :
    r c.rewound = x.map fun a => (a, c) := by
  obtain ⟨cs, cells, atEnd, yields⟩ := carries .empty c u rfl written
  have here : cs <+: c.rewound.rest := by
    show cs <+: c.cells.drop 0
    rw [cells]
    exact List.prefix_rfl
  rw [yields c.rewound here]
  refine congrArg (x.map ·) (funext fun a => congrArg (a, ·) (Buffer.ext rfl ?_))
  show 0 + cs.length = c.position
  rw [show c.position = c.cells.length from atEnd, cells, Nat.zero_add]
  rfl

end Access

end Wire
