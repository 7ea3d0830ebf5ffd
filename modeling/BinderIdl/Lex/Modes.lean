import Mathlib.Data.List.Basic

/-! Reading a text with double-quoted literals, one character at a time: the mode says whether the next
    character is code, stands in a literal, or stands in a literal behind a backslash. What a scanner does with
    a text is stated by `Within`: each character meets a condition in the mode in which it is read. -/

namespace Lex

inductive Mode where
  | code
  | lit
  | esc
deriving DecidableEq, Repr

def Mode.step : Mode → Char → Mode
  | .code, c => if c = '"' then .lit else .code
  | .lit, c => if c = '"' then .code else if c = '\\' then .esc else .lit
  | .esc, _ => .lit

/-- The mode behind a text. -/
def Mode.run (m : Mode) (t : List Char) : Mode := t.foldl Mode.step m

/-- Each character of a text meets a condition in the mode in which it is read. -/
def Within (p : Mode → Char → Prop) : Mode → List Char → Prop
  | _, [] => True
  | m, c :: t => p m c ∧ Within p (m.step c) t

instance Within.decidable (p : Mode → Char → Prop) [∀ m c, Decidable (p m c)] :
    (m : Mode) → (t : List Char) → Decidable (Within p m t)
  | _, [] => isTrue trivial
  | m, c :: t => @instDecidableAnd _ _ inferInstance (Within.decidable p (m.step c) t)

@[simp] theorem run_nil (m : Mode) : m.run [] = m := rfl
@[simp] theorem run_cons (m : Mode) (c : Char) (t : List Char) : m.run (c :: t) = (m.step c).run t := rfl
theorem run_append (m : Mode) (t u : List Char) : m.run (t ++ u) = (m.run t).run u := List.foldl_append

@[simp] theorem step_code_quote : Mode.code.step '"' = .lit := rfl
@[simp] theorem step_lit_quote : Mode.lit.step '"' = .code := rfl
theorem step_code {c : Char} (h : c ≠ '"') : Mode.code.step c = .code := if_neg h

section Conditions
variable {p q : Mode → Char → Prop} {m : Mode} {c : Char} {t u : List Char}

@[simp] theorem within_nil : Within p m [] := trivial

@[simp] theorem within_cons : Within p m (c :: t) ↔ p m c ∧ Within p (m.step c) t := Iff.rfl

theorem within_append : Within p m (t ++ u) ↔ Within p m t ∧ Within p (m.run t) u := by
  induction t generalizing m with
  | nil => simp
  | cons c t ih => rw [List.cons_append, within_cons, within_cons, ih, run_cons, and_assoc]

theorem run_code (h : ∀ c ∈ t, c ≠ '"') : Mode.code.run t = .code := by
  induction t with
  | nil => rfl
  | cons c t ih =>
    rw [run_cons, step_code (h c List.mem_cons_self)]
    exact ih fun x member => h x (List.mem_cons_of_mem _ member)

theorem within_code (h : ∀ c ∈ t, c ≠ '"') : Within p .code t ↔ ∀ c ∈ t, p .code c := by
  induction t with
  | nil => simp
  | cons c t ih =>
    rw [within_cons, step_code (h c List.mem_cons_self), ih fun x member => h x (List.mem_cons_of_mem _ member)]
    simp

theorem within_of_forall (h : ∀ m, ∀ c ∈ t, p m c) : Within p m t := by
  induction t generalizing m with
  | nil => exact trivial
  | cons c t ih => exact ⟨h m c List.mem_cons_self, ih fun m x member => h m x (List.mem_cons_of_mem _ member)⟩

end Conditions

end Lex
