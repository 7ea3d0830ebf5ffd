import BinderIdl.Py.Dict

/-! Computations that may raise: `Except`, taken apart at a normal end. -/

namespace Py
variable {α β ε : Type}

theorem bind_eq_ok {x : Except ε α} {f : α → Except ε β} {r : β} :
    (x >>= f) = .ok r ↔ ∃ a, x = .ok a ∧ f a = .ok r := by
  cases x with
  | error e => exact ⟨fun h => (by cases h), fun ⟨a, h, _⟩ => (by cases h)⟩
  | ok a => exact ⟨fun h => ⟨a, rfl, h⟩, fun ⟨b, hb, h⟩ => by cases hb; exact h⟩

theorem ok_bind (a : α) (f : α → Except ε β) : (Except.ok a >>= f) = f a := rfl

theorem map_eq_ok {x : Except ε α} {f : α → β} {r : β} : x.map f = .ok r ↔ ∃ a, x = .ok a ∧ f a = r := by
  cases x with
  | error e => exact ⟨fun h => (by cases h), fun ⟨a, h, _⟩ => by cases h⟩
  | ok a => exact ⟨fun h => ⟨a, rfl, Except.ok.inj h⟩, fun ⟨b, hb, h⟩ => by cases hb; exact congrArg _ h⟩

theorem mapError_eq_ok {δ : Type} {x : Except ε α} {f : ε → δ} {a : α} : x.mapError f = .ok a ↔ x = .ok a := by
  cases x with
  | error e => exact iff_of_false (fun h => by cases h) fun h => by cases h
  | ok b => exact ⟨fun h => by cases h; rfl, fun h => by cases h; rfl⟩

/-- The value of a computation that ends, or a default. -/
def okOr (d : α) : Except ε α → α
  | .ok a => a
  | .error _ => d

@[simp] theorem okOr_ok (d a : α) : okOr d (.ok a : Except ε α) = a := rfl

theorem eq_ok_okOr {d : α} {x : Except ε α} (h : ∃ a, x = .ok a) : x = .ok (okOr d x) := by
  obtain ⟨a, rfl⟩ := h
  rfl

/-- A list comprehension ends iff each of its elements does, and then holds their values. -/
theorem mapM_eq_ok {f : α → Except ε β} (d : β) {l : List α} {ys : List β} :
    l.mapM f = .ok ys ↔ (∀ x ∈ l, ∃ y, f x = .ok y) ∧ ys = l.map fun x => okOr d (f x) := by
  induction l generalizing ys with
  | nil =>
    constructor
    · intro h
      cases h
      exact ⟨fun x hx => absurd hx List.not_mem_nil, rfl⟩
    · rintro ⟨-, rfl⟩
      rfl
  | cons a l ih =>
    rw [List.mapM_cons, bind_eq_ok]
    constructor
    · rintro ⟨y, hy, h⟩
      obtain ⟨zs, hzs, h⟩ := bind_eq_ok.mp h
      obtain ⟨hall, rfl⟩ := ih.mp hzs
      cases h
      refine ⟨fun x hx => ?_, by rw [List.map_cons, hy, okOr_ok]⟩
      rcases List.mem_cons.mp hx with rfl | hx
      · exact ⟨y, hy⟩
      · exact hall x hx
    · rintro ⟨hall, rfl⟩
      refine ⟨_, eq_ok_okOr (hall a List.mem_cons_self), bind_eq_ok.mpr ⟨_, ih.mpr ⟨fun x hx => ?_, rfl⟩, rfl⟩⟩
      exact hall x (List.mem_cons_of_mem _ hx)

theorem mapM_eq_ok_iff_forall₂ {f : α → Except ε β} {l : List α} {ys : List β} :
    l.mapM f = .ok ys ↔ List.Forall₂ (fun x y => f x = .ok y) l ys := by
  induction l generalizing ys with
  | nil =>
    rw [List.forall₂_nil_left_iff]
    exact ⟨fun h => (Except.ok.inj h).symm, fun h => h ▸ rfl⟩
  | cons a l ih =>
    rw [List.mapM_cons, bind_eq_ok, List.forall₂_cons_left_iff]
    refine exists_congr fun y => ⟨?_, ?_⟩
    · rintro ⟨first, rest⟩
      obtain ⟨zs, tail, done⟩ := bind_eq_ok.mp rest
      cases done
      exact ⟨zs, first, ih.mp tail, rfl⟩
    · rintro ⟨zs, first, tail, rfl⟩
      exact ⟨first, bind_eq_ok.mpr ⟨zs, ih.mpr tail, rfl⟩⟩

theorem mapM_congr {f g : α → Except ε β} {l : List α} (same : ∀ x ∈ l, f x = g x) : l.mapM f = l.mapM g := by
  induction l with
  | nil => rfl
  | cons a l ih =>
    rw [List.mapM_cons, List.mapM_cons, same a List.mem_cons_self,
      ih fun x member => same x (List.mem_cons_of_mem _ member)]

theorem exists_right_of_mem {P : α → β → Prop} {l : List α} {l' : List β} (all : List.Forall₂ P l l') {a : α}
    (member : a ∈ l) : ∃ b ∈ l', P a b := by
  induction all with
  | nil => cases member
  | @cons c d l l' first _ ih =>
    rcases List.mem_cons.mp member with rfl | member
    · exact ⟨d, List.mem_cons_self, first⟩
    · obtain ⟨b, inside, holds⟩ := ih member
      exact ⟨b, List.mem_cons_of_mem _ inside, holds⟩

theorem exists_left_of_mem {P : α → β → Prop} {l : List α} {l' : List β} (all : List.Forall₂ P l l') {b : β}
    (member : b ∈ l') : ∃ a ∈ l, P a b :=
  exists_right_of_mem all.flip member

theorem exists_getElem? {P : α → β → Prop} {l : List α} {l' : List β} (all : List.Forall₂ P l l') {k : ℕ} {a : α}
    (place : l[k]? = some a) : ∃ b, l'[k]? = some b ∧ P a b := by
  induction all generalizing k with
  | nil => cases place
  | @cons c d l l' first _ ih =>
    cases k with
    | zero =>
      cases place
      exact ⟨d, rfl, first⟩
    | succ k => exact ih place

theorem exists_forall₂ {P : α → β → Prop} {l : List α} (each : ∀ a ∈ l, ∃ b, P a b) : ∃ l', List.Forall₂ P l l' := by
  induction l with
  | nil => exact ⟨[], .nil⟩
  | cons a l ih =>
    obtain ⟨b, first⟩ := each a List.mem_cons_self
    obtain ⟨l', rest⟩ := ih fun c member => each c (List.mem_cons_of_mem _ member)
    exact ⟨b :: l', .cons first rest⟩

theorem exists_of_mem_mapM {f : α → Except ε β} {l : List α} {ys : List β} (h : l.mapM f = .ok ys) {y : β}
    (member : y ∈ ys) : ∃ x ∈ l, f x = .ok y :=
  exists_left_of_mem (mapM_eq_ok_iff_forall₂.mp h) member

/-! ### Loops -/

section Loop
variable {σ : Type} {f : σ → α → Except ε σ} {l : List α} {s t : σ}

/-- What every round keeps, a loop that ends keeps. -/
theorem foldlM_invariant {p : σ → Prop} (step : ∀ s a t, a ∈ l → p s → f s a = .ok t → p t) (start : p s)
    (run : l.foldlM f s = .ok t) : p t := by
  induction l generalizing s with
  | nil =>
    cases run
    exact start
  | cons a l ih =>
    rw [List.foldlM_cons, bind_eq_ok] at run
    obtain ⟨u, first, rest⟩ := run
    exact ih (fun s b t member => step s b t (List.mem_cons_of_mem _ member))
      (step s a u List.mem_cons_self start first) rest

/-- Every element has its round, and the rest of the loop runs from its result. -/
theorem foldlM_round {a : α} (member : a ∈ l) (run : l.foldlM f s = .ok t) :
    ∃ s' u l', f s' a = .ok u ∧ l'.foldlM f u = .ok t ∧ l' ⊆ l := by
  induction l generalizing s with
  | nil => cases member
  | cons b l ih =>
    rw [List.foldlM_cons, bind_eq_ok] at run
    obtain ⟨u, first, rest⟩ := run
    rcases List.mem_cons.mp member with rfl | member
    · exact ⟨s, u, l, first, rest, List.subset_cons_self _ _⟩
    · obtain ⟨s', v, l', round, rest', sub⟩ := ih member rest
      exact ⟨s', v, l', round, rest', List.subset_cons_of_subset _ sub⟩

theorem foldlM_concat_eq_ok {a : α} : (l ++ [a]).foldlM f s = .ok t ↔ ∃ u, l.foldlM f s = .ok u ∧ f u a = .ok t := by
  rw [List.foldlM_append, bind_eq_ok]
  refine exists_congr fun u => and_congr_right fun _ => ?_
  rw [List.foldlM_cons, bind_eq_ok]
  exact ⟨fun ⟨_, last, done⟩ => by cases done; exact last, fun last => ⟨t, last, rfl⟩⟩

theorem foldlM_eq_ok {g : σ → α → σ} (h : ∀ s a, f s a = .ok (g s a)) (l : List α) (s : σ) :
    l.foldlM f s = .ok (l.foldl g s) := by
  induction l generalizing s with
  | nil => rfl
  | cons a l ih =>
    rw [List.foldlM_cons, h, List.foldl_cons]
    exact ih _

end Loop

/-! ### Which errors can be raised -/

/-- Every error the computation raises is of this kind. -/
def RaisesOnly (p : ε → Prop) (x : Except ε α) : Prop := ∀ e, x = .error e → p e

section Raises
variable {p : ε → Prop}

theorem raisesOnly_ok (a : α) : RaisesOnly p (.ok a) := fun _ h => by cases h

theorem raisesOnly_error {e : ε} (h : p e) : RaisesOnly p (.error e : Except ε α) := fun _ same => by cases same; exact h

theorem RaisesOnly.bind {x : Except ε α} {f : α → Except ε β} (hx : RaisesOnly p x) (hf : ∀ a, RaisesOnly p (f a)) :
    RaisesOnly p (x >>= f) := by
  cases x with
  | error e => exact fun e' same => by cases same; exact hx e rfl
  | ok a => exact hf a

theorem RaisesOnly.foldlM {σ : Type} {f : σ → α → Except ε σ} (hf : ∀ s a, RaisesOnly p (f s a)) (l : List α) (s : σ) :
    RaisesOnly p (l.foldlM f s) := by
  induction l generalizing s with
  | nil => exact raisesOnly_ok s
  | cons a l ih =>
    rw [List.foldlM_cons]
    exact (hf s a).bind ih

theorem RaisesOnly.map {x : Except ε α} (hx : RaisesOnly p x) (f : α → β) : RaisesOnly p (x.map f) := by
  cases x with
  | error e => exact fun e' same => by cases same; exact hx e rfl
  | ok a => exact raisesOnly_ok (f a)

theorem RaisesOnly.mapM {f : α → Except ε β} (hf : ∀ a, RaisesOnly p (f a)) (l : List α) : RaisesOnly p (l.mapM f) := by
  induction l with
  | nil => exact raisesOnly_ok []
  | cons a l ih =>
    rw [List.mapM_cons]
    exact (hf a).bind fun b => ih.bind fun bs => raisesOnly_ok _

end Raises

/-! ### Computations that change a state -/

section Ends
variable {σ : Type}

/-- The computation ends without an error, with this value and in this state. -/
def Ends (x : ExceptT ε (StateM σ) α) (s : σ) (a : α) (t : σ) : Prop := x.run.run s = (.ok a, t)

instance [DecidableEq ε] [DecidableEq σ] [DecidableEq α] (x : ExceptT ε (StateM σ) α) (s : σ) (a : α) (t : σ) :
    Decidable (Ends x s a t) :=
  inferInstanceAs (Decidable (@Eq (Except ε α × σ) (x.run.run s) (.ok a, t)))

/-- How the computation ends from this state: with a value or an error, and in which state. -/
def runFrom (x : ExceptT ε (StateM σ) α) (s : σ) : Except ε α × σ := x.run.run s

theorem runFrom_bind (x : ExceptT ε (StateM σ) α) (f : α → ExceptT ε (StateM σ) β) (s : σ) :
    runFrom (x >>= f) s = match runFrom x s with
      | (.ok a, u) => runFrom (f a) u
      | (.error e, u) => (.error e, u) := by
  unfold runFrom
  rw [ExceptT.run_bind, StateT.run_bind]
  show (match x.run.run s with | (r, u) => _ : Except ε β × σ) = _
  rcases x.run.run s with ⟨e | a, u⟩ <;> rfl

@[simp] theorem runFrom_lift (x : Except ε α) (s : σ) : runFrom (liftM x : ExceptT ε (StateM σ) α) s = (x, s) := rfl

@[simp] theorem runFrom_get (s : σ) : runFrom (get : ExceptT ε (StateM σ) σ) s = (.ok s, s) := rfl

@[simp] theorem runFrom_modify (f : σ → σ) (s : σ) :
    runFrom (modify f : ExceptT ε (StateM σ) PUnit) s = (.ok PUnit.unit, f s) := rfl

@[simp] theorem runFrom_set (t s : σ) : runFrom (set t : ExceptT ε (StateM σ) PUnit) s = (.ok PUnit.unit, t) := rfl

@[simp] theorem runFrom_pure (a : α) (s : σ) : runFrom (pure a : ExceptT ε (StateM σ) α) s = (.ok a, s) := rfl

@[simp] theorem runFrom_throw (e : ε) (s : σ) :
    runFrom (throw e : ExceptT ε (StateM σ) α) s = (.error e, s) := rfl

theorem ends_modify {f : σ → σ} {s t : σ} {u : PUnit} :
    Ends (modify f : ExceptT ε (StateM σ) PUnit) s u t ↔ f s = t := by
  show (Except.ok PUnit.unit, f s) = ((Except.ok u : Except ε PUnit), t) ↔ _
  rw [Prod.mk.injEq]
  exact and_iff_right rfl

end Ends

end Py
