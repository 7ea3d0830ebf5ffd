import BinderIdl.Py.Text

/-! Python's `int(s)` and `s.isdigit()`, and that `int` reads back what `str` writes. -/

namespace Py

/-- The digits of `int(s)` behind the first one, which single underscores may separate. -/
def digitsFrom (n : Nat) : Text → Option Nat
  | [] => some n
  | '_' :: c :: t =>
    match decimal? c with
    | some d => digitsFrom (10 * n + d) t
    | none => none
  | c :: t =>
    match decimal? c with
    | some d => digitsFrom (10 * n + d) t
    | none => none

def unsigned? : Text → Option Nat
  | [] => none
  | c :: t => (decimal? c).bind fun d => digitsFrom d t

/-- `int(s)`; `none` where it raises `ValueError`. -/
def int? (t : Text) : Option Int :=
  match strip t with
  | '+' :: u => (unsigned? u).map Int.ofNat
  | '-' :: u => (unsigned? u).map fun n => -Int.ofNat n
  | u => (unsigned? u).map Int.ofNat

/-- The digits of `str.isdigit` that are not decimals: superscripts, circled digits and the like. -/
def digitRanges : List (Nat × Nat) := [
  (0xb2, 0xb3), (0xb9, 0xb9), (0x1369, 0x1371), (0x19da, 0x19da), (0x2070, 0x2070), (0x2074, 0x2079),
  (0x2080, 0x2089), (0x2460, 0x2468), (0x2474, 0x247c), (0x2488, 0x2490), (0x24ea, 0x24ea), (0x24f5, 0x24fd),
  (0x24ff, 0x24ff), (0x2776, 0x277e), (0x2780, 0x2788), (0x278a, 0x2792), (0x10a40, 0x10a43), (0x10e60, 0x10e68),
  (0x11052, 0x1105a), (0x1f100, 0x1f10a)]

/-- `s.isdigit()` -/
def allDigits (t : Text) : Bool :=
  !t.isEmpty && t.all fun c => isDigit c || digitRanges.any fun r => r.1 ≤ c.toNat && c.toNat ≤ r.2

/-! ### Reading back what `str` writes -/

theorem decimal?_digitChar {n : Nat} (h : n < 10) : decimal? n.digitChar = some n := by
  have table : ∀ k < 10, decimal? (Nat.digitChar k) = some k := by decide
  exact table n h

theorem digitsFrom_digitChar {d : Nat} (h : d < 10) (n : Nat) (t : Text) :
    digitsFrom n (d.digitChar :: t) = digitsFrom (10 * n + d) t := by
  have digit := decimal?_digitChar h
  have solid : d.digitChar ≠ '_' := by
    intro same
    rw [same] at digit
    have none : decimal? '_' = none := by decide
    rw [none] at digit
    cases digit
  rw [digitsFrom, digit]
  exact fun _ _ same => absurd same solid

theorem digitsFrom_append {s t : Text} (h : ∀ c ∈ s, ∃ d < 10, c = Nat.digitChar d) (n : Nat) :
    digitsFrom n (s ++ t) = (digitsFrom n s).bind fun m => digitsFrom m t := by
  induction s generalizing n with
  | nil => rfl
  | cons c s ih =>
    obtain ⟨d, small, rfl⟩ := h c List.mem_cons_self
    rw [List.cons_append, digitsFrom_digitChar small, digitsFrom_digitChar small]
    exact ih (fun c' member => h c' (List.mem_cons_of_mem _ member)) _

theorem mem_toDigits {n : Nat} : ∀ c ∈ Nat.toDigits 10 n, ∃ d < 10, c = Nat.digitChar d := by
  induction n using Nat.strong_induction_on with
  | _ n ih =>
    intro c member
    by_cases small : n < 10
    · rw [Nat.toDigits_of_lt_base small, List.mem_singleton] at member
      exact ⟨n, small, member⟩
    · rw [Nat.toDigits_of_base_le (by decide) (by omega), List.mem_append, List.mem_singleton] at member
      rcases member with before | last
      · exact ih (n / 10) (by omega) c before
      · exact ⟨n % 10, by omega, last⟩

theorem unsigned?_toDigits (n : Nat) : unsigned? (Nat.toDigits 10 n) = some n := by
  induction n using Nat.strong_induction_on with
  | _ n ih =>
    by_cases small : n < 10
    · rw [Nat.toDigits_of_lt_base small, unsigned?, decimal?_digitChar small]
      rfl
    · have before := ih (n / 10) (by omega)
      have digits := mem_toDigits (n := n / 10)
      rw [Nat.toDigits_of_base_le (by decide) (by omega)]
      cases list : Nat.toDigits 10 (n / 10) with
      | nil => exact absurd list Nat.toDigits_ne_nil
      | cons c t =>
        rw [list] at before digits
        obtain ⟨d, dsmall, rfl⟩ := digits c List.mem_cons_self
        rw [unsigned?, decimal?_digitChar dsmall] at before
        rw [List.cons_append, unsigned?, decimal?_digitChar dsmall]
        simp only [Option.bind_some] at before ⊢
        rw [digitsFrom_append fun c' member => digits c' (List.mem_cons_of_mem _ member), before, Option.bind_some,
          digitsFrom_digitChar (by omega), digitsFrom]
        congr 1
        omega

theorem ofInt_natCast (n : Nat) : ofInt n = Nat.toDigits 10 n := by
  show (Nat.repr n).toList = _
  rw [Nat.toList_repr]

@[simp] theorem int?_ofInt (n : Nat) : int? (ofInt n) = some (n : Int) := by
  have digits := mem_toDigits (n := n)
  have plain : strip (ofInt n) = ofInt n := by
    refine stripped_of_ends (ofInt_ne_nil n) (ofInt_solid (List.head_mem _)) (ofInt_solid (List.getLast_mem _))
  have signless : ∀ d < 10, Nat.digitChar d ≠ '+' ∧ Nat.digitChar d ≠ '-' := by decide
  rw [int?, plain, ofInt_natCast]
  cases list : Nat.toDigits 10 n with
  | nil => exact absurd list Nat.toDigits_ne_nil
  | cons c t =>
    obtain ⟨d, dsmall, rfl⟩ := digits c (list ▸ List.mem_cons_self)
    have value := unsigned?_toDigits n
    rw [list] at value
    split
    · rename_i eq
      exact absurd (List.cons.inj eq).1 (signless d dsmall).1
    · rename_i eq
      exact absurd (List.cons.inj eq).1 (signless d dsmall).2
    · rw [value]
      rfl

theorem allDigits_ofInt (n : Nat) : allDigits (ofInt n) = true := by
  rw [allDigits, Bool.and_eq_true, Bool.not_eq_true', List.isEmpty_eq_false_iff, List.all_eq_true]
  refine ⟨ofInt_ne_nil n, fun c member => ?_⟩
  rw [ofInt_natCast] at member
  obtain ⟨d, dsmall, rfl⟩ := mem_toDigits c member
  rw [isDigit, decimal?_digitChar dsmall]
  rfl

end Py
