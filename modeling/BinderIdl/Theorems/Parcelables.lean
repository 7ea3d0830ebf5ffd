import BinderIdl.Ipc.Parcelable
import BinderIdl.Ipc.TypedParcel

/-! What is written as an object is read as that object, also by a reader that knows fewer fields or more: an object
    starts with its size, so that what follows is found behind it. -/

namespace BinderIdl.Ipc
open Py Wire

variable {κ : Type} {capacity : ℕ} {lib : Libbinder κ capacity} {T α : Type}

/-! ### Fields -/

/-- Some cells are added, four at least, as of every value in a parcel. -/
def Appends (w : lib.OnParcel Unit) : Prop :=
  ∀ b c u, b.AtEnd → w b = .ok (u, c) → ∃ cs, 4 ≤ cs.length ∧ c.cells = b.cells ++ cs ∧ c.AtEnd

/-- The field is read from these cells. -/
def CellsOf (read : T → lib.OnParcel T) (update : T → T) (cs : List κ) : Prop :=
  4 ≤ cs.length ∧ ∀ x, Yields (read x) cs (.ok (update x))

/-- A field that the writer and the reader of an object share. -/
structure SharedField (lib : Libbinder κ capacity) (T : Type) where
  write : lib.OnParcel Unit
  read : T → lib.OnParcel T
  update : T → T
  carries : ∀ b c u, b.AtEnd → write b = .ok (u, c) → ∃ cs, CellsOf read update cs ∧ c.cells = b.cells ++ cs ∧ c.AtEnd

/-- The object behind the reading of these fields. -/
def updated (fields : List (SharedField lib T)) (x : T) : T := fields.foldl (fun y f => f.update y) x

theorem appends_writeCells {cells : Except StatusT (List κ)} (long : ∀ cs, cells = .ok cs → 4 ≤ cs.length) :
    Appends (lib.writeCells cells) := by
  intro b c u atEnd run
  cases cells with
  | error e => cases run
  | ok cs =>
    obtain ⟨fits, rfl⟩ := put_eq_ok.mp run
    obtain ⟨grown, atEnd'⟩ := Buffer.overwrite_atEnd atEnd fits
    exact ⟨cs, long cs rfl, grown, atEnd'⟩

/-- A value that is read back makes a field. -/
def SharedField.ofCells {a : α} {r : lib.OnParcel α} (cells : Except StatusT (List κ)) (f : T → α → T)
    (long : ∀ cs, cells = .ok cs → 4 ≤ cs.length) (read : ∀ cs, cells = .ok cs → Yields r cs (.ok a)) :
    SharedField lib T where
  write := lib.writeCells cells
  read x := f x <$> r
  update x := f x a
  carries := by
    intro b c u atEnd run
    cases cells with
    | error e => cases run
    | ok cs =>
      obtain ⟨fits, rfl⟩ := put_eq_ok.mp run
      obtain ⟨grown, atEnd'⟩ := Buffer.overwrite_atEnd atEnd fits
      exact ⟨cs, ⟨long cs rfl, fun x => (read cs rfl).map (f x)⟩, grown, atEnd'⟩

/-! ### Writing -/

theorem writeFields_append (ws vs : List (lib.OnParcel Unit)) :
    writeFields lib (ws ++ vs) = writeFields lib ws >>= fun _ => writeFields lib vs := by
  induction ws with
  | nil => rfl
  | cons w ws ih =>
    show (w >>= fun _ => writeFields lib (ws ++ vs)) = _
    rw [ih]
    exact (bind_assoc w _ _).symm

theorem writeFields_newer {ws : List (lib.OnParcel Unit)} (appends : ∀ w ∈ ws, Appends w) {b c : lib.Parcel} {u : Unit}
    (atEnd : b.AtEnd) (run : writeFields lib ws b = .ok (u, c)) :
    ∃ cs, c.cells = b.cells ++ cs ∧ c.AtEnd ∧ 4 * ws.length ≤ cs.length ∧ (ws = [] → cs = []) := by
  induction ws generalizing b with
  | nil =>
    cases run
    exact ⟨[], (List.append_nil _).symm, atEnd, le_rfl, fun _ => rfl⟩
  | cons w ws ih =>
    obtain ⟨⟨⟩, d, first, rest⟩ := access_bind_eq_ok.mp run
    obtain ⟨cs, long, grown, atEnd'⟩ := appends w List.mem_cons_self b d () atEnd first
    obtain ⟨ds, grown', atEnd'', long', -⟩ := ih (fun v member => appends v (List.mem_cons_of_mem _ member)) atEnd' rest
    refine ⟨cs ++ ds, by rw [grown', grown, List.append_assoc], atEnd'', ?_, fun h => by cases h⟩
    rw [List.length_cons, List.length_append]
    omega

theorem writeFields_shared {fields : List (SharedField lib T)} {b c : lib.Parcel} {u : Unit} (atEnd : b.AtEnd)
    (run : writeFields lib (fields.map SharedField.write) b = .ok (u, c)) :
    ∃ css, List.Forall₂ (fun f cs => CellsOf f.read f.update cs) fields css ∧ c.cells = b.cells ++ css.flatten ∧ c.AtEnd := by
  induction fields generalizing b with
  | nil =>
    cases run
    exact ⟨[], .nil, (List.append_nil _).symm, atEnd⟩
  | cons f fields ih =>
    obtain ⟨⟨⟩, d, first, rest⟩ := access_bind_eq_ok.mp run
    obtain ⟨cs, cells, grown, atEnd'⟩ := f.carries b d () atEnd first
    obtain ⟨css, all, grown', atEnd''⟩ := ih atEnd' rest
    exact ⟨cs :: css, .cons cells all, by rw [grown', grown, List.append_assoc, List.flatten_cons], atEnd''⟩

/-- The size is written over the place that was kept for it. -/
theorem writeObject_run (lawful : lib.Lawful) {ws : List (lib.OnParcel Unit)} {b c : lib.Parcel} {u : Unit}
    (atEnd : b.AtEnd) (run : writeObject lib ws b = .ok (u, c)) {P : List κ → Prop}
    (fields : ∀ d e v, d.AtEnd → writeFields lib ws d = .ok (v, e) →
      ∃ cs, P cs ∧ 4 ≤ cs.length ∧ e.cells = d.cells ++ cs ∧ e.AtEnd) :
    ∃ cs, P cs ∧ c.cells = b.cells ++ (lib.int32 (Int32.ofNat (4 + cs.length)) ++ cs) ∧ c.AtEnd := by
  obtain ⟨start, b, told, run⟩ := access_bind_eq_ok.mp run
  cases told
  obtain ⟨⟨⟩, d, kept, run⟩ := access_bind_eq_ok.mp run
  obtain ⟨⟨⟩, e, written, run⟩ := access_bind_eq_ok.mp run
  obtain ⟨stop, e, told, run⟩ := access_bind_eq_ok.mp run
  cases told
  obtain ⟨⟨⟩, f, sought, run⟩ := access_bind_eq_ok.mp run
  cases sought
  obtain ⟨⟨⟩, g, sized, run⟩ := access_bind_eq_ok.mp run
  cases run
  have four := lawful.int32_length
  have place : b.position = b.cells.length := atEnd
  by_cases fits : b.position + (lib.int32 0).length ≤ capacity
  · have start : d = b.overwrite (lib.int32 0) fits := by
      rw [unchecked, Libbinder.writeInt32, put, dif_pos fits] at kept
      cases kept
      rfl
    obtain ⟨grown, atEnd'⟩ := Buffer.overwrite_atEnd atEnd fits
    rw [← start] at grown atEnd'
    obtain ⟨cs, holds, -, grown', atEnd''⟩ := fields d e () atEnd' written
    have whole : e.cells = b.cells ++ (lib.int32 0 ++ cs) := by rw [grown', grown, List.append_assoc]
    have length : e.position = b.position + 4 + cs.length := by
      rw [show e.position = e.cells.length from atEnd'', whole, place]
      simp only [List.length_append, four]
      omega
    have size : e.position - b.position = 4 + cs.length := by omega
    have room : (e.seek b.position).position + (lib.int32 (Int32.ofNat (e.position - b.position))).length ≤ capacity := by
      have := e.bounded
      rw [four, Buffer.position_seek]
      have : e.position = e.cells.length := atEnd''
      omega
    rw [unchecked, Libbinder.writeInt32, put, dif_pos room] at sized
    cases sized
    have cells : ((e.seek b.position).overwrite (lib.int32 (Int32.ofNat (e.position - b.position))) room).cells =
        b.cells ++ (lib.int32 (Int32.ofNat (4 + cs.length)) ++ cs) := by
      show e.cells.take b.position ++ lib.int32 (Int32.ofNat (e.position - b.position)) ++
        e.cells.drop (b.position + (lib.int32 (Int32.ofNat (e.position - b.position))).length) = _
      rw [size, four, whole, place, List.take_left, ← List.drop_drop, List.drop_left, ← four 0, List.drop_left,
        List.append_assoc]
    refine ⟨cs, holds, cells, ?_⟩
    show e.position = _
    rw [Buffer.cells_seek, cells, length, place]
    simp only [List.length_append, four]
    omega
  · exfalso
    have same : d = b := by
      rw [unchecked, Libbinder.writeInt32, put, dif_neg fits] at kept
      cases kept
      rfl
    subst same
    obtain ⟨cs, -, long, grown, -⟩ := fields d e () atEnd written
    have := e.bounded
    rw [grown, List.length_append] at this
    rw [four, place] at fits
    omega

/-! ### Reading -/

theorem readFields_shared {fields : List (SharedField lib T)} {css : List (List κ)}
    (cells : List.Forall₂ (fun f cs => CellsOf f.read f.update cs) fields css) (more : List (T → lib.OnParcel T)) (x : T)
    {b : lib.Parcel} {start size : ℕ} (here : css.flatten <+: b.rest) (behind : start ≤ b.position)
    (inside : b.position + css.flatten.length ≤ start + size) :
    readFields lib start size (fields.map SharedField.read ++ more) x b =
      readFields lib start size more (updated fields x) (b.seek (b.position + css.flatten.length)) := by
  induction cells generalizing x b with
  | nil => rfl
  | @cons f cs fields css first _ ih =>
    rw [List.flatten_cons] at here inside ⊢
    rw [List.length_append] at inside ⊢
    have long := first.1
    have unfinished : ¬b.position - start ≥ size := by omega
    have read := first.2 x b ((List.prefix_append _ _).trans here)
    have step : readFields lib start size (f.read :: (fields.map SharedField.read ++ more)) x b =
        (f.read x >>= readFields lib start size (fields.map SharedField.read ++ more)) b := by
      rw [readFields, tell_bind, if_neg unfinished]
    rw [List.map_cons, List.cons_append, step, access_bind, read]
    show readFields lib start size _ (f.update x) (b.seek (b.position + cs.length)) = _
    rw [ih (f.update x) (Buffer.rest_seek_of_prefix here) (by rw [Buffer.position_seek]; omega)
      (by rw [Buffer.position_seek]; omega), Buffer.seek_seek, Buffer.position_seek, Nat.add_assoc]
    rfl

/-- A reader that knows no field more is done, as is one that is at the end of the object. -/
theorem readFields_done {start size : ℕ} {more : List (T → lib.OnParcel T)} {x : T} {b : lib.Parcel}
    (done : more = [] ∨ b.position - start ≥ size) :
    readFields lib start size more x b = .ok (x, b.seek (start + size)) := by
  cases more with
  | nil => rfl
  | cons read more =>
    obtain done | done := done
    · cases done
    · rw [readFields, tell_bind, if_pos done]
      rfl

theorem readObject_run (lawful : lib.Lawful) {reads : List (T → lib.OnParcel T)} {x : T} {b : lib.Parcel} {n : ℕ}
    {cs : List κ} (here : lib.int32 (Int32.ofNat n) ++ cs <+: b.rest) (size : n = 4 + cs.length) :
    readObject lib reads x b = readFields lib b.position n reads x (b.seek (b.position + 4)) := by
  have inside : b.position + n ≤ b.cells.length := by
    have := here.length_le
    rw [List.length_append, lawful.int32_length, Buffer.rest, List.length_drop] at this
    omega
  have bounded := b.bounded
  have small := lawful.capacity_lt
  have narrow := lawful.capacity_le
  have value : (Int32.ofNat n).toInt = n := Int32.toInt_ofNat_of_lt (by omega)
  have large : ¬Int32.ofNat n < 4 := by
    rw [Int32.lt_iff_toInt_lt, value]
    show ¬(n : ℤ) < 4
    omega
  have within : ¬b.position > lib.sizeMax - (Int32.ofNat n).toInt.toNat := by
    rw [value, Int.toNat_natCast]
    omega
  have read := lawful.int32 (Int32.ofNat n) b ((List.prefix_append _ _).trans here)
  rw [lawful.int32_length] at read
  rw [readObject, tell_bind, access_bind, read]
  show (if Int32.ofNat n < 4 then _ else _ : lib.OnParcel T) _ = _
  rw [if_neg large, if_neg within, value, Int.toNat_natCast]

/-! ### Objects -/

/-- What is written as an object is read as one, wherever it stands and whatever follows. The writer and the reader share
    some fields; behind them the writer may have fields that the reader does not know, or the other way round. -/
theorem object_carries (lawful : lib.Lawful) (fields : List (SharedField lib T)) (newer : List (lib.OnParcel Unit))
    (added : List (T → lib.OnParcel T)) (appends : ∀ w ∈ newer, Appends w)
    (some_ : fields.map SharedField.write ++ newer ≠ []) (oneSided : newer = [] ∨ added = []) (x : T) :
    Carries (writeObject lib (fields.map SharedField.write ++ newer))
      (readObject lib (fields.map SharedField.read ++ added) x) (.ok (updated fields x)) := by
  intro b c u atEnd run
  obtain ⟨cs, ⟨css, ds, all, rfl, extra⟩, cells, atEnd'⟩ := writeObject_run lawful atEnd run
    (P := fun cs => ∃ css ds, List.Forall₂ (fun f cs => CellsOf f.read f.update cs) fields css ∧ cs = css.flatten ++ ds ∧
      (newer = [] → ds = [])) (by
    intro d e v atEnd run
    rw [writeFields_append] at run
    obtain ⟨⟨⟩, f, first, rest⟩ := access_bind_eq_ok.mp run
    obtain ⟨css, all, grown, atEnd'⟩ := writeFields_shared atEnd first
    obtain ⟨ds, grown', atEnd'', long, extra⟩ := writeFields_newer appends atEnd' rest
    refine ⟨css.flatten ++ ds, ⟨css, ds, all, rfl, extra⟩, ?_, by rw [grown', grown, List.append_assoc], atEnd''⟩
    rw [List.length_append]
    cases all with
    | nil =>
      cases newer with
      | nil => exact absurd rfl some_
      | cons w ws =>
        rw [List.length_cons] at long
        omega
    | cons shared _ =>
      have := shared.1
      rw [List.flatten_cons, List.length_append]
      omega)
  refine ⟨_, cells, atEnd', fun d here => ?_⟩
  rw [readObject_run lawful here rfl]
  rw [@List.length_append _ css.flatten] at here ⊢
  have behind : css.flatten <+: (d.seek (d.position + 4)).rest := by
    have := Buffer.rest_seek_of_prefix here
    rw [lawful.int32_length] at this
    exact (List.prefix_append _ _).trans this
  rw [readFields_shared all added x behind (by rw [Buffer.position_seek]; omega) (by rw [Buffer.position_seek]; omega),
    Buffer.seek_seek, Buffer.position_seek, readFields_done]
  · rw [List.length_append, List.length_append, lawful.int32_length]
    rfl
  · rcases oneSided with none_ | none_
    · right
      rw [extra none_, Buffer.position_seek]
      show _ ≥ 4 + (css.flatten.length + 0)
      omega
    · exact .inl none_

/-! ### The parcelables -/

/-- The fields of a `ServiceDebugInfo` as it is written. -/
def ServiceDebugInfo.shared (lawful : lib.Lawful) (x : ServiceDebugInfo) : List (SharedField lib ServiceDebugInfo) :=
  [.ofCells (lib.utf16 x.name) (fun y name => { y with name }) (lawful.utf16_length x.name) (lawful.utf16 x.name),
    .ofCells (.ok (lib.int32 x.debugPid)) (fun y debugPid => { y with debugPid })
      (fun cs h => by cases h; exact (lawful.int32_length _).ge) (fun cs h => by cases h; exact lawful.int32 _)]

/-- The fields of a `ConnectionInfo` as it is written. -/
def ConnectionInfo.shared (lawful : lib.Lawful) (x : ConnectionInfo) : List (SharedField lib ConnectionInfo) :=
  [.ofCells (lib.utf16 x.ipAddress) (fun y ipAddress => { y with ipAddress }) (lawful.utf16_length x.ipAddress)
      (lawful.utf16 x.ipAddress),
    .ofCells (.ok (lib.int32 x.port)) (fun y port => { y with port })
      (fun cs h => by cases h; exact (lawful.int32_length _).ge) (fun cs h => by cases h; exact lawful.int32 _)]

theorem ServiceDebugInfo.carries (lawful : lib.Lawful) (x y : ServiceDebugInfo) :
    Carries (x.writeToParcel lib) (readFromParcel lib y) (.ok x) :=
  object_carries lawful (shared lawful x) [] [] (fun _ member => absurd member List.not_mem_nil) (List.cons_ne_nil _ _)
    (.inl rfl) y

theorem ConnectionInfo.carries (lawful : lib.Lawful) (x y : ConnectionInfo) :
    Carries (x.writeToParcel lib) (readFromParcel lib y) (.ok x) :=
  object_carries lawful (shared lawful x) [] [] (fun _ member => absurd member List.not_mem_nil) (List.cons_ne_nil _ _)
    (.inl rfl) y

/-- The reader of a field, in a later version of the type that has more fields. -/
def laterRead {U : Type} (read : T → lib.OnParcel T) (x : T × U) : lib.OnParcel (T × U) := (·, x.2) <$> read x.1

def SharedField.later (f : SharedField lib T) (U : Type) : SharedField lib (T × U) where
  write := f.write
  read := laterRead f.read
  update x := (f.update x.1, x.2)
  carries b c u atEnd run := by
    obtain ⟨cs, ⟨long, yields⟩, cells, atEnd'⟩ := f.carries b c u atEnd run
    exact ⟨cs, ⟨long, fun x => (yields x.1).map (·, x.2)⟩, cells, atEnd'⟩

/-- Objects are read as they were written, also where the writer or the reader is of a later version of the interface,
    which has more fields behind these: those that were not written are left as they are. -/
structure AcrossVersions (lib : Libbinder κ capacity) (writes : T → List (lib.OnParcel Unit))
    (reads : List (T → lib.OnParcel T)) : Prop where
  laterWriter : ∀ newer, (∀ w ∈ newer, Appends w) → ∀ x y,
    Carries (writeObject lib (writes x ++ newer)) (readObject lib reads y) (.ok x)
  laterReader : ∀ {U : Type} (added : List (T × U → lib.OnParcel (T × U))) x y u,
    Carries (writeObject lib (writes x)) (readObject lib (reads.map laterRead ++ added) (y, u)) (.ok (x, u))

theorem AcrossVersions.of_shared (lawful : lib.Lawful) {writes : T → List (lib.OnParcel Unit)}
    {reads : List (T → lib.OnParcel T)} (shared : T → List (SharedField lib T))
    (write : ∀ x, (shared x).map SharedField.write = writes x) (read : ∀ x, (shared x).map SharedField.read = reads)
    (whole : ∀ x y, updated (shared x) y = x) (some_ : ∀ x, writes x ≠ []) : AcrossVersions lib writes reads := by
  refine ⟨fun newer appends x y => ?_, fun {U} added x y u => ?_⟩
  · have carries := object_carries lawful (shared x) newer [] appends
      (by rw [write]; exact fun h => some_ x (List.append_eq_nil_iff.mp h).1) (.inr rfl) y
    rwa [write, read, whole, List.append_nil] at carries
  · have writes' : ((shared x).map fun f => f.later U).map SharedField.write = writes x := by
      rw [List.map_map]
      exact write x
    have reads' : ((shared x).map fun f => f.later U).map SharedField.read = reads.map laterRead := by
      rw [← read x, List.map_map, List.map_map]
      rfl
    have updates : ∀ (fields : List (SharedField lib T)) z,
        updated (fields.map fun f => f.later U) (z, u) = (updated fields z, u) := by
      intro fields
      induction fields with
      | nil => exact fun _ => rfl
      | cons f fields ih => exact fun z => ih (f.update z)
    have carries := object_carries lawful ((shared x).map fun f => f.later U) [] added
      (fun _ member => absurd member List.not_mem_nil) (by rw [writes', List.append_nil]; exact some_ x) (.inl rfl) (y, u)
    rwa [writes', reads', updates, whole, List.append_nil] at carries

theorem parcelables_across_versions (lawful : lib.Lawful) :
    AcrossVersions lib (ServiceDebugInfo.writes lib) (ServiceDebugInfo.reads lib) ∧
      AcrossVersions lib (ConnectionInfo.writes lib) (ConnectionInfo.reads lib) :=
  ⟨.of_shared lawful (ServiceDebugInfo.shared lawful) (fun _ => rfl) (fun _ => rfl) (fun _ _ => rfl)
      fun _ => List.cons_ne_nil _ _,
    .of_shared lawful (ConnectionInfo.shared lawful) (fun _ => rfl) (fun _ => rfl) (fun _ _ => rfl)
      fun _ => List.cons_ne_nil _ _⟩

def audioInfo : ServiceDebugInfo := ⟨"audio".toList, 7⟩

/-- It is written with another name behind its fields, and read by what knows of no such field. -/
theorem parcelables_across_versions_typed :
    ∃ parcel, writeObject Typed.lib (ServiceDebugInfo.writes Typed.lib audioInfo ++ [Typed.lib.writeUtf8AsUtf16 audioInfo.name])
        .empty = .ok ((), parcel) ∧
      readObject Typed.lib (ServiceDebugInfo.reads Typed.lib) {} parcel.rewound = .ok (audioInfo, parcel) := by
  have carries := (parcelables_across_versions Typed.lawful).1.laterWriter [Typed.lib.writeUtf8AsUtf16 audioInfo.name]
    (fun w newer => by
      rw [List.mem_singleton.mp newer]
      exact appends_writeCells (Typed.lawful.utf16_length audioInfo.name)) audioInfo {}
  obtain ⟨parcel, written⟩ : ∃ parcel, writeObject Typed.lib
      (ServiceDebugInfo.writes Typed.lib audioInfo ++ [Typed.lib.writeUtf8AsUtf16 audioInfo.name]) .empty = .ok ((), parcel) :=
    ⟨_, rfl⟩
  exact ⟨parcel, written, carries.run written⟩

end BinderIdl.Ipc
