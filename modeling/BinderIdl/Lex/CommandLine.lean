import Mathlib.Data.List.TakeWhile
import Mathlib.Data.List.DropRight

/-! Command lines: how a shell cuts a text into arguments, and how a program finds the values of a short option among
    them. -/

namespace CommandLine

def isSeparator (c : Char) : Bool := c == ' ' || c == '\t' || c == '\n'

/-- A text without blanks. -/
def Unsplit (t : List Char) : Prop := ∀ c ∈ t, isSeparator c = false

/-- The arguments of a command line without quotes. -/
def arguments (t : List Char) : List (List Char) := (t.splitOnP isSeparator).filter fun w => !w.isEmpty

/-- The text without the blanks behind it. -/
def rtrim (t : List Char) : List Char := t.rdropWhile isSeparator

/-- The text without the blanks around it. -/
def trim (t : List Char) : List Char := rtrim (t.dropWhile isSeparator)

/-- The values of the short option `-c`: the rest of its argument, or the next argument when there is no rest. -/
def values (c : Char) : List (List Char) → List (List Char)
  | [] => []
  | arg :: args =>
    match arg with
    | ['-', d] =>
      if d = c then
        match args with
        | value :: args => value :: values c args
        | [] => []
      else values c args
    | '-' :: d :: value => if d = c then value :: values c args else values c args
    | _ => values c args

section
variable {s t : List Char} {b c : Char}

/-! ### Arguments -/

theorem arguments_append_cons (blank : isSeparator b = true) (s t : List Char) :
    arguments (s ++ b :: t) = arguments s ++ arguments t := by
  rw [arguments, List.splitOnP_append_cons s t blank, List.filter_append]
  rfl

theorem arguments_of_unsplit (nonempty : t ≠ []) (unsplit : Unsplit t) : arguments t = [t] := by
  rw [arguments, List.splitOnP_eq_singleton unsplit]
  exact List.filter_cons_of_pos (by simpa using nonempty)

theorem arguments_of_blank (blank : ∀ c ∈ t, isSeparator c = true) : arguments t = [] := by
  induction t with
  | nil => rfl
  | cons b t ih =>
    have rest := ih fun c member => blank c (List.mem_cons_of_mem _ member)
    exact (arguments_append_cons (blank b List.mem_cons_self) [] t).trans rest

theorem arguments_append_of_blank {g : List Char} (blank : ∀ c ∈ g, isSeparator c = true) (s : List Char) :
    arguments (s ++ g) = arguments s := by
  cases g with
  | nil => rw [List.append_nil]
  | cons b g =>
    rw [arguments_append_cons (blank b List.mem_cons_self),
      arguments_of_blank fun c member => blank c (List.mem_cons_of_mem _ member), List.append_nil]

theorem exists_rtrim (t : List Char) : ∃ g, (∀ c ∈ g, isSeparator c = true) ∧ t = rtrim t ++ g :=
  ⟨t.rtakeWhile isSeparator, fun _ member => List.mem_rtakeWhile_imp member, (List.rdropWhile_append_rtakeWhile ..).symm⟩

theorem arguments_rtrim (t : List Char) : arguments (rtrim t) = arguments t := by
  obtain ⟨g, blank, whole⟩ := exists_rtrim t
  conv_rhs => rw [whole]
  exact (arguments_append_of_blank blank _).symm

theorem arguments_intercalate (ws : List (List Char)) : arguments ([' '].intercalate ws) = ws.flatMap arguments := by
  induction ws with
  | nil => rfl
  | cons w ws ih =>
    by_cases last : ws = []
    · subst last
      simp [List.intercalate_singleton]
    · rw [List.intercalate_cons_of_ne_nil last, List.append_assoc, List.singleton_append,
        arguments_append_cons (by decide), ih]
      rfl

/-- The pieces between the blanks have none, and are no longer than the text. -/
theorem of_mem_splitOnP {w : List Char} (member : w ∈ t.splitOnP isSeparator) : Unsplit w ∧ w.length ≤ t.length := by
  induction t generalizing w with
  | nil =>
    rw [List.splitOnP_nil, List.mem_singleton] at member
    subst member
    exact ⟨fun _ inside => absurd inside List.not_mem_nil, le_rfl⟩
  | cons b t ih =>
    rw [List.splitOnP_cons_eq_if_modifyHead] at member
    by_cases blank : isSeparator b = true
    · rw [if_pos blank, List.mem_cons] at member
      rcases member with rfl | member
      · exact ⟨fun _ inside => absurd inside List.not_mem_nil, Nat.zero_le _⟩
      · exact ⟨(ih member).1, (ih member).2.trans (Nat.le_succ _)⟩
    · rw [if_neg blank] at member
      obtain ⟨first, rest, split⟩ := List.exists_cons_of_ne_nil (List.splitOnP_ne_nil isSeparator t)
      rw [split] at ih
      rw [split, List.modifyHead_cons, List.mem_cons] at member
      rcases member with rfl | member
      · obtain ⟨unsplit, short⟩ := ih List.mem_cons_self
        refine ⟨fun c inside => ?_, Nat.succ_le_succ short⟩
        rcases List.mem_cons.mp inside with rfl | inside
        · simpa using blank
        · exact unsplit c inside
      · obtain ⟨unsplit, short⟩ := ih (List.mem_cons_of_mem _ member)
        exact ⟨unsplit, short.trans (Nat.le_succ _)⟩

theorem of_mem_arguments {w : List Char} (member : w ∈ arguments t) : w ≠ [] ∧ Unsplit w ∧ w.length ≤ t.length := by
  obtain ⟨among, nonempty⟩ := List.mem_filter.mp member
  exact ⟨by simpa using nonempty, of_mem_splitOnP among⟩

/-! ### Trimming -/

theorem arguments_dropWhile (t : List Char) : arguments (t.dropWhile isSeparator) = arguments t := by
  induction t with
  | nil => rfl
  | cons b t ih =>
    by_cases blank : isSeparator b = true
    · rw [List.dropWhile_cons_of_pos blank, ih]
      exact (arguments_append_cons blank [] t).symm
    · rw [List.dropWhile_cons_of_neg blank]

theorem arguments_trim (t : List Char) : arguments (trim t) = arguments t := by
  rw [trim, arguments_rtrim, arguments_dropWhile]

theorem rtrim_of_unsplit (unsplit : Unsplit t) : rtrim t = t :=
  List.rdropWhile_eq_self_iff.mpr fun nonempty => by
    rw [unsplit _ (List.getLast_mem nonempty)]
    exact Bool.false_ne_true

theorem dropWhile_of_unsplit (unsplit : Unsplit t) : t.dropWhile isSeparator = t := by
  cases t with
  | nil => rfl
  | cons b t => exact List.dropWhile_cons_of_neg (by rw [unsplit b List.mem_cons_self]; exact Bool.false_ne_true)

theorem trim_of_unsplit (unsplit : Unsplit t) : trim t = t := by
  rw [trim, dropWhile_of_unsplit unsplit, rtrim_of_unsplit unsplit]

theorem rtrim_append_blank (blank : isSeparator b = true) (t : List Char) : rtrim (t ++ [b]) = rtrim t :=
  List.rdropWhile_concat_pos _ _ _ blank

theorem trim_cons_blank (blank : isSeparator b = true) (t : List Char) : trim (b :: t) = trim t := by
  rw [trim, trim, List.dropWhile_cons_of_pos blank]

theorem trim_append_of_blank {g : List Char} (blank : ∀ c ∈ g, isSeparator c = true) (t : List Char) :
    trim (g ++ t) = trim t := by
  induction g with
  | nil => rfl
  | cons b g ih =>
    rw [List.cons_append, trim_cons_blank (blank b List.mem_cons_self)]
    exact ih fun c member => blank c (List.mem_cons_of_mem _ member)

theorem trim_append_blank (blank : isSeparator b = true) (t : List Char) : trim (t ++ [b]) = trim t := by
  by_cases all : ∀ c ∈ t, isSeparator c = true
  · have all' : ∀ c ∈ t ++ [b], isSeparator c = true := by
      intro c member
      rcases List.mem_append.mp member with inside | last
      · exact all c inside
      · rw [List.mem_singleton.mp last]
        exact blank
    rw [trim, trim, List.dropWhile_eq_nil_iff.mpr all, List.dropWhile_eq_nil_iff.mpr all']
  · have left : t.dropWhile isSeparator ≠ [] := fun none_ => all (List.dropWhile_eq_nil_iff.mp none_)
    rw [trim, trim, List.dropWhile_append, if_neg (by simpa using left), rtrim_append_blank blank]

theorem trim_cons_of_solid (solid : isSeparator b = false) (t : List Char) : trim (b :: t) = rtrim (b :: t) := by
  rw [trim, List.dropWhile_cons_of_neg (by rw [solid]; exact Bool.false_ne_true)]

theorem trim_eq_rtrim (unsplit : Unsplit (rtrim t)) : trim t = rtrim t := by
  cases t with
  | nil => rfl
  | cons c t =>
    cases blank : isSeparator c with
    | false => exact trim_cons_of_solid blank t
    | true =>
      -- a blank in front is one behind a text without any
      have empty : rtrim (c :: t) = [] := by
        obtain ⟨g, -, whole⟩ := exists_rtrim (c :: t)
        cases left : rtrim (c :: t) with
        | nil => rfl
        | cons d u =>
          rw [left] at whole unsplit
          have same : c = d := (List.cons.inj whole).1
          rw [same, unsplit d List.mem_cons_self] at blank
          cases blank
      rw [empty, trim, List.dropWhile_eq_nil_iff.mpr (List.rdropWhile_eq_nil_iff.mp empty)]
      rfl

theorem rtrim_of_trim_eq_nil (empty : trim t = []) : rtrim t = [] := by
  have all : ∀ c ∈ t, isSeparator c = true := by
    by_contra some_
    have kept : t.dropWhile isSeparator ≠ [] := fun none_ => some_ (List.dropWhile_eq_nil_iff.mp none_)
    have blank := List.rdropWhile_eq_nil_iff.mp empty _ (List.head_mem kept)
    exact absurd blank (by simpa using List.head_dropWhile_not isSeparator kept)
  exact List.rdropWhile_eq_nil_iff.mpr all

/-! ### Options -/

theorem values_cons_of_ne {arg : List Char} (other : ∀ v, arg ≠ '-' :: c :: v) (args : List (List Char)) :
    values c (arg :: args) = values c args := by
  rw [values.eq_def]
  simp only
  split
  · rename_i d
    exact if_neg fun same : d = c => other [] (same ▸ rfl)
  · rename_i d value _
    exact if_neg fun same : d = c => other value (same ▸ rfl)
  · rfl

theorem values_cons_joined (c d : Char) (v : List Char) (args : List (List Char)) :
    values c (('-' :: c :: d :: v) :: args) = (d :: v) :: values c args := by
  rw [values]
  · exact if_pos rfl
  · exact List.cons_ne_nil d v

theorem values_cons_separate (c : Char) (v : List Char) (args : List (List Char)) :
    values c (['-', c] :: v :: args) = v :: values c args := by
  rw [values]
  exact if_pos rfl

/-- Without an option that waits for its value the arguments can be read piece by piece. -/
theorem values_append {args : List (List Char)} (closed : ['-', c] ∉ args) (more : List (List Char)) :
    values c (args ++ more) = values c args ++ values c more := by
  induction args with
  | nil => rfl
  | cons arg args ih =>
    have rest := ih fun member => closed (List.mem_cons_of_mem _ member)
    by_cases option : ∃ v, arg = '-' :: c :: v
    · obtain ⟨v, rfl⟩ := option
      cases v with
      | nil => exact absurd List.mem_cons_self closed
      | cons d v => rw [List.cons_append, values_cons_joined, values_cons_joined, rest, List.cons_append]
    · have other : ∀ v, arg ≠ '-' :: c :: v := fun v same => option ⟨v, same⟩
      rw [List.cons_append, values_cons_of_ne other, values_cons_of_ne other, rest]

theorem values_eq_nil {args : List (List Char)} (other : ∀ arg ∈ args, ∀ v, arg ≠ '-' :: c :: v) : values c args = [] := by
  induction args with
  | nil => rfl
  | cons arg args ih =>
    rw [values_cons_of_ne (other arg List.mem_cons_self)]
    exact ih fun a member => other a (List.mem_cons_of_mem _ member)

end

end CommandLine
