import BinderIdl.Theorems.Comments
import BinderIdl.Theorems.EnumValues

/-! The normal form of a statement keeps its literals, its words and its other characters, and is its own normal form. -/

namespace BinderIdl.Surface
open Py Lex

/-- What a statement is made of. -/
inductive Lexeme where
  | literal (text : Text)
  | word (text : Text)
  | mark (c : Char)
deriving DecidableEq

def ofWord (w : Text) : List Lexeme := if w = [] then [] else [.word w]

/-- The lexemes of a text behind the part `w` of a word: a literal is delimited by `_string_end`, a word is a maximal run
    of `\w`, and every other character that is not blank stands alone. -/
def lexemesFrom (w t : Text) : List Lexeme :=
  match t with
  | [] => ofWord w
  | '"' :: u => ofWord w ++ .literal ('"' :: (stringEnd u).1) :: lexemesFrom [] (stringEnd u).2
  | c :: u =>
    if isWord c then lexemesFrom (w ++ [c]) u
    else if isSpace c then ofWord w ++ lexemesFrom [] u
    else ofWord w ++ .mark c :: lexemesFrom [] u
termination_by t.length
decreasing_by
  · have := stringEnd_length u
    simp only [List.length_cons]
    omega
  · simp
  · simp
  · simp

def lexemes (t : Text) : List Lexeme := lexemesFrom [] t

/-! ### Blanks of a segment

A segment without literals is settled: a run of blanks becomes one, and it is dropped beside punctuation. -/

/-- `pending` stands for a blank that was read and not yet written, `tight` for punctuation that was written last. -/
def settle (pending tight : Bool) : Text → Text
  | [] => if pending then [' '] else []
  | c :: t =>
    if isSpace c then settle (!tight) tight t
    else if isPunct c then c :: settle false true t
    else (if pending then [' '] else []) ++ c :: settle false false t

section Settle
variable {pending tight : Bool} {c : Char} {t g : Text}

theorem settle_blank (blank : isSpace c = true) : settle pending tight (c :: t) = settle (!tight) tight t := by
  rw [settle, if_pos blank]

theorem isPunct_cases (punct : isPunct c = true) :
    c = '(' ∨ c = ')' ∨ c = ',' ∨ c = ';' ∨ c = '=' ∨ c = '[' ∨ c = ']' := by
  simpa [isPunct] using punct

theorem not_isSpace_of_isPunct (punct : isPunct c = true) : isSpace c = false := by
  rcases isPunct_cases punct with rfl | rfl | rfl | rfl | rfl | rfl | rfl <;> decide

theorem not_isWord_of_isPunct (punct : isPunct c = true) : isWord c = false := by
  rcases isPunct_cases punct with rfl | rfl | rfl | rfl | rfl | rfl | rfl <;> decide

theorem settle_punct (punct : isPunct c = true) : settle pending tight (c :: t) = c :: settle false true t := by
  rw [settle, if_neg (by simp [not_isSpace_of_isPunct punct]), if_pos punct]

theorem settle_other (solid : isSpace c = false) (other : isPunct c = false) :
    settle pending tight (c :: t) = (if pending then [' '] else []) ++ c :: settle false false t := by
  rw [settle, if_neg (by simp [solid]), if_neg (by simp [other])]

theorem settle_blanks_tight (blank : ∀ c ∈ g, isSpace c = true) : settle false true (g ++ t) = settle false true t := by
  induction g with
  | nil => rfl
  | cons c g ih =>
    rw [List.cons_append, settle_blank (blank c List.mem_cons_self)]
    exact ih fun d member => blank d (List.mem_cons_of_mem _ member)

theorem settle_blanks_punct (blank : ∀ c ∈ g, isSpace c = true) (punct : isPunct c = true) :
    settle pending tight (g ++ c :: t) = c :: settle false true t := by
  induction g generalizing pending with
  | nil => exact settle_punct punct
  | cons d g ih =>
    rw [List.cons_append, settle_blank (blank d List.mem_cons_self)]
    exact ih fun d member => blank d (List.mem_cons_of_mem _ member)

/-- Behind punctuation blanks are dropped. -/
theorem settle_tight (t : Text) : settle false true t = settle false false (t.dropWhile isSpace) := by
  induction t with
  | nil => rfl
  | cons c t ih =>
    by_cases blank : isSpace c = true
    · rw [settle_blank blank, List.dropWhile_cons_of_pos blank]
      exact ih
    · have solid : isSpace c = false := by simpa using blank
      rw [List.dropWhile_cons_of_neg blank]
      by_cases punct : isPunct c = true
      · rw [settle_punct punct, settle_punct punct]
      · have other : isPunct c = false := by simpa using punct
        rw [settle_other solid other, settle_other solid other]

theorem settle_pending (t : Text) : settle true false t = settle true false (t.dropWhile isSpace) := by
  induction t with
  | nil => rfl
  | cons c t ih =>
    by_cases blank : isSpace c = true
    · rw [settle_blank blank, List.dropWhile_cons_of_pos blank]
      exact ih
    · rw [List.dropWhile_cons_of_neg blank]

/-- A settled text is settled. -/
theorem settle_settle (open' : pending = true → tight = false) :
    settle false tight (settle pending tight t) = settle pending tight t := by
  have blank : isSpace ' ' = true := by decide
  induction t generalizing pending tight with
  | nil =>
    cases pending with
    | false => rfl
    | true =>
      rw [open' rfl]
      rfl
  | cons c t ih =>
    by_cases space : isSpace c = true
    · rw [settle_blank space]
      exact ih (by simp)
    · have solid : isSpace c = false := by simpa using space
      by_cases punct : isPunct c = true
      · rw [settle_punct punct, settle_punct punct, ih (by simp)]
      · have other : isPunct c = false := by simpa using punct
        rw [settle_other solid other]
        cases pending with
        | false =>
          rw [if_neg (by decide), List.nil_append, settle_other solid other, ih (by simp)]
          rfl
        | true =>
          rw [open' rfl, if_pos rfl, List.singleton_append, settle_blank blank, settle_other solid other, ih (by simp)]
          rfl

end Settle

theorem collapse_dropWhile (t : Text) : (collapse t).dropWhile isSpace = collapse (t.dropWhile isSpace) := by
  cases t with
  | nil => simp [collapse_nil]
  | cons c u =>
    by_cases blank : isSpace c = true
    · rw [collapse_cons, if_pos blank, List.dropWhile_cons_of_pos (by decide), List.dropWhile_cons_of_pos blank]
      -- behind a run of blanks stands none
      cases rest : u.dropWhile isSpace with
      | nil => simp [collapse_nil]
      | cons d v =>
        have solid := List.head?_dropWhile_not isSpace u
        rw [rest] at solid
        have solid : isSpace d = false := by simpa using solid
        rw [collapse_cons, if_neg (by simp [solid]), List.dropWhile_cons_of_neg (by simp [solid])]
    · rw [collapse_cons, if_neg blank, List.dropWhile_cons_of_neg blank, List.dropWhile_cons_of_neg blank, collapse_cons, if_neg blank]

theorem tighten_cons {c p : Char} {u v : Text} (head : (c :: u).dropWhile isSpace = p :: v) :
    tighten (c :: u) = if isPunct p then p :: tighten (v.dropWhile isSpace) else c :: tighten u := by
  conv_lhs => unfold tighten
  split
  · rename_i none
    rw [head] at none
    cases none
  · rename_i some
    rw [head] at some
    cases some
    rfl

theorem tighten_solid {c : Char} (solid : isSpace c = false) (t : Text) :
    tighten (c :: t) = if isPunct c then c :: tighten (t.dropWhile isSpace) else c :: tighten t :=
  tighten_cons (List.dropWhile_cons_of_neg (by simp [solid]))

theorem tighten_blank {c d : Char} (blank : isSpace c = true) (solid : isSpace d = false) (t : Text) :
    tighten (c :: d :: t) = if isPunct d then d :: tighten (t.dropWhile isSpace) else c :: tighten (d :: t) :=
  tighten_cons (by rw [List.dropWhile_cons_of_pos blank, List.dropWhile_cons_of_neg (by simp [solid])])

/-- The first two passes of `flush` settle the segment. -/
theorem tighten_collapse (t : Text) : tighten (collapse t) = settle false false t := by
  induction size : t.length using Nat.strong_induction_on generalizing t with
  | _ n ih =>
    subst size
    have shorter : ∀ u : Text, (u.dropWhile isSpace).length ≤ u.length := fun u => (List.dropWhile_suffix isSpace).length_le
    cases t with
    | nil =>
      rw [collapse_nil]
      exact tighten_of_no_punct fun d member => absurd member List.not_mem_nil
    | cons c u =>
      by_cases blank : isSpace c = true
      · rw [collapse_cons, if_pos blank, settle_blank blank]
        show _ = settle true false u
        rw [settle_pending]
        cases rest : u.dropWhile isSpace with
        | nil =>
          have last : tighten [' '] = [' '] :=
            tighten_of_no_punct fun d member => List.mem_singleton.mp member ▸ by decide
          simpa [collapse_nil, settle] using last
        | cons d v =>
          have solid := List.head?_dropWhile_not isSpace u
          rw [rest] at solid
          have solid : isSpace d = false := by simpa using solid
          have size := shorter u
          rw [rest, List.length_cons] at size
          rw [collapse_cons, if_neg (by simp [solid]), tighten_blank (by decide) solid]
          by_cases punct : isPunct d = true
          · rw [if_pos punct, settle_punct punct, collapse_dropWhile, settle_tight]
            rw [ih _ (by have := shorter v; simp only [List.length_cons]; omega) _ rfl]
          · have other : isPunct d = false := by simpa using punct
            have whole := ih (d :: v).length (by simp only [List.length_cons]; omega) (d :: v) rfl
            rw [collapse_cons, if_neg (by simp [solid])] at whole
            rw [if_neg punct, whole, settle_other solid other, settle_other solid other]
            rfl
      · have solid : isSpace c = false := by simpa using blank
        rw [collapse_cons, if_neg blank, tighten_solid solid]
        by_cases punct : isPunct c = true
        · rw [if_pos punct, settle_punct punct, collapse_dropWhile, settle_tight]
          rw [ih _ (by have := shorter u; simp only [List.length_cons]; omega) _ rfl]
        · have other : isPunct c = false := by simpa using punct
          rw [if_neg punct, settle_other solid other, ih u.length (by simp) u rfl]
          rfl

/-! ### Blanks put in -/

/-- The last three passes of `flush`. -/
def spacing (t : Text) : Text :=
  spaceAfterBracket (replaceChar '=' " = ".toList (replaceChar ',' ", ".toList t))

theorem flush_eq (segment : Text) : flush segment = spacing (settle false false segment) := by
  rw [flush, tighten_collapse, spacing]

theorem settle_replaceChar {c : Char} {g g' : Text} (punct : isPunct c = true) (blank : ∀ d ∈ g, isSpace d = true)
    (blank' : ∀ d ∈ g', isSpace d = true) {pending tight : Bool} (t : Text) :
    settle pending tight (replaceChar c (g ++ c :: g') t) = settle pending tight t := by
  induction t generalizing pending tight with
  | nil => rfl
  | cons d t ih =>
    rw [replaceChar, List.flatMap_cons, ← replaceChar]
    by_cases same : d = c
    · subst same
      rw [if_pos rfl, List.append_assoc, List.cons_append, settle_blanks_punct blank punct, settle_blanks_tight blank',
        settle_punct punct, ih]
    · rw [if_neg same, List.singleton_append, settle, settle, ih, ih, ih]

theorem settle_spaceAfterBracket {pending tight : Bool} (t : Text) :
    settle pending tight (spaceAfterBracket t) = settle pending tight t := by
  fun_induction spaceAfterBracket t generalizing pending tight with
  | case1 => rfl
  | case2 c t word ih =>
    have solid := not_isSpace_of_isWord word
    have other : isPunct c = false := by
      by_contra punct
      rw [not_isWord_of_isPunct (by simpa using punct)] at word
      cases word
    have bracket : isPunct ']' = true := by decide
    have blank : isSpace ' ' = true := by decide
    rw [settle_punct bracket, settle_punct bracket, settle_blank blank, settle_other solid other, settle_other solid other,
      ih]
    rfl
  | case3 c t _ ih =>
    have bracket : isPunct ']' = true := by decide
    rw [settle_punct bracket, settle_punct bracket, ih]
  | case4 c t _ ih => rw [settle, settle, ih, ih, ih]

/-- The blanks that are put in are those that settling drops. -/
theorem settle_spacing {pending tight : Bool} (t : Text) : settle pending tight (spacing t) = settle pending tight t := by
  rw [spacing, settle_spaceAfterBracket]
  have blank : ∀ d ∈ [' '], isSpace d = true := fun d member => List.mem_singleton.mp member ▸ by decide
  exact (settle_replaceChar (c := '=') (by decide) blank blank _).trans
    (settle_replaceChar (c := ',') (by decide) (fun d (member : d ∈ []) => absurd member List.not_mem_nil) blank t)

theorem flush_flush (segment : Text) : flush (flush segment) = flush segment := by
  rw [flush_eq (flush segment), flush_eq segment, settle_spacing, settle_settle (by simp)]

/-! ### Blanks at the ends of a segment -/

/-- No word character follows where blanks do. -/
theorem spaceAfterBracket_before {g : Text} (blank : ∀ c ∈ g, isSpace c = true) (c : Char) :
    spaceAfterBracket (c :: g) = c :: spaceAfterBracket g := by
  cases g with
  | nil => simp [spaceAfterBracket]
  | cons d g =>
    by_cases bracket : c = ']'
    · rw [bracket, spaceAfterBracket, if_neg (by simp [not_isWord_of_isSpace (blank d List.mem_cons_self)])]
    · rw [spaceAfterBracket]
      exact fun _ _ isBracket => absurd isBracket bracket

theorem spaceAfterBracket_blanks {g : Text} (blank : ∀ c ∈ g, isSpace c = true) (t : Text) :
    spaceAfterBracket (g ++ t) = g ++ spaceAfterBracket t ∧ spaceAfterBracket (t ++ g) = spaceAfterBracket t ++ g := by
  have apart : ∀ c ∈ g, c ≠ ']' := by
    rintro c member rfl
    exact absurd (blank _ member) (by decide)
  have alone : spaceAfterBracket g = g := spaceAfterBracket_of_not_mem fun member => apart _ member rfl
  constructor
  · induction g with
    | nil => rfl
    | cons c g ih =>
      have inner := ih (fun d member => blank d (List.mem_cons_of_mem _ member))
        (fun d member => apart d (List.mem_cons_of_mem _ member))
        (spaceAfterBracket_of_not_mem fun member => apart _ (List.mem_cons_of_mem _ member) rfl)
      rw [List.cons_append, spaceAfterBracket, inner]
      · rfl
      · exact fun _ _ isBracket => absurd isBracket (apart c List.mem_cons_self)
  · fun_induction spaceAfterBracket t with
    | case1 => exact alone
    | case2 c t word ih => rw [List.cons_append, List.cons_append, spaceAfterBracket, if_pos word, ih]; rfl
    | case3 c t other ih => rw [List.cons_append, List.cons_append, spaceAfterBracket, if_neg other, ← List.cons_append, ih]; rfl
    | case4 c t other ih =>
      cases t with
      | nil => rw [List.singleton_append, spaceAfterBracket_before blank, alone]; rfl
      | cons d t =>
        rw [List.cons_append, spaceAfterBracket, ih]
        · rfl
        · intro e v isBracket same
          exact other d t isBracket rfl

theorem replaceChar_blanks {c : Char} {r g : Text} (punct : isPunct c = true) (blank : ∀ d ∈ g, isSpace d = true)
    (t : Text) : replaceChar c r (g ++ t) = g ++ replaceChar c r t ∧ replaceChar c r (t ++ g) = replaceChar c r t ++ g := by
  have alone : replaceChar c r g = g := by
    refine replaceChar_of_not_mem fun member => ?_
    have solid := not_isSpace_of_isPunct punct
    rw [blank c member] at solid
    cases solid
  constructor
  · rw [replaceChar, List.flatMap_append, ← replaceChar, ← replaceChar, alone]
  · rw [replaceChar, List.flatMap_append, ← replaceChar, ← replaceChar, alone]

theorem spacing_blanks {g : Text} (blank : ∀ c ∈ g, isSpace c = true) (t : Text) :
    spacing (g ++ t) = g ++ spacing t ∧ spacing (t ++ g) = spacing t ++ g := by
  constructor
  · rw [spacing, (replaceChar_blanks (by decide) blank _).1, (replaceChar_blanks (by decide) blank _).1,
      (spaceAfterBracket_blanks blank _).1, spacing]
  · rw [spacing, (replaceChar_blanks (by decide) blank _).2, (replaceChar_blanks (by decide) blank _).2,
      (spaceAfterBracket_blanks blank _).2, spacing]

/-- A pending blank is written at the front of what follows, or not at all. -/
theorem settle_front (t : Text) : ∃ p, (∀ c ∈ p, isSpace c = true) ∧ settle true false t = p ++ settle false false t := by
  have blank : ∀ c ∈ [' '], isSpace c = true := fun c member => List.mem_singleton.mp member ▸ by decide
  have none : ∀ c ∈ ([] : Text), isSpace c = true := fun c member => absurd member List.not_mem_nil
  cases t with
  | nil => exact ⟨[' '], blank, rfl⟩
  | cons c t =>
    by_cases space : isSpace c = true
    · exact ⟨[], none, by rw [settle_blank space, settle_blank space]; rfl⟩
    · have solid : isSpace c = false := by simpa using space
      by_cases punct : isPunct c = true
      · exact ⟨[], none, by rw [settle_punct punct, settle_punct punct]; rfl⟩
      · have other : isPunct c = false := by simpa using punct
        exact ⟨[' '], blank, by rw [settle_other solid other, settle_other solid other]; rfl⟩

theorem settle_blanks_front {g : Text} (blank : ∀ c ∈ g, isSpace c = true) (t : Text) :
    ∃ p, (∀ c ∈ p, isSpace c = true) ∧ settle false false (g ++ t) = p ++ settle false false t := by
  have none : ∀ c ∈ ([] : Text), isSpace c = true := fun c member => absurd member List.not_mem_nil
  cases g with
  | nil => exact ⟨[], none, rfl⟩
  | cons c g =>
    have skip : settle true false (g ++ t) = settle true false t := by
      rw [settle_pending, List.dropWhile_append_of_pos fun d member => blank d (List.mem_cons_of_mem _ member),
        ← settle_pending]
    rw [List.cons_append, settle_blank (blank c List.mem_cons_self)]
    exact skip ▸ settle_front t

theorem settle_blanks_back {g : Text} (blank : ∀ c ∈ g, isSpace c = true) {pending tight : Bool}
    (open' : pending = true → tight = false) (t : Text) :
    ∃ p, (∀ c ∈ p, isSpace c = true) ∧ settle pending tight (t ++ g) = settle pending tight t ++ p := by
  induction t generalizing pending tight with
  | nil =>
    have none : ∀ c ∈ ([] : Text), isSpace c = true := fun c member => absurd member List.not_mem_nil
    have all : g.dropWhile isSpace = [] := List.dropWhile_eq_nil_iff.mpr blank
    cases pending with
    | true =>
      obtain rfl := open' rfl
      exact ⟨[], none, by rw [List.nil_append, settle_pending, all, List.append_nil]⟩
    | false =>
      cases tight with
      | true => exact ⟨[], none, by rw [List.nil_append, settle_tight, all, List.append_nil]; rfl⟩
      | false =>
        have front := settle_blanks_front blank []
        rw [List.append_nil] at front
        obtain ⟨p, blanks, same⟩ := front
        exact ⟨p, blanks, same.trans (List.append_nil p)⟩
  | cons c t ih =>
    rw [List.cons_append]
    by_cases space : isSpace c = true
    · rw [settle_blank space, settle_blank space]
      exact ih (by simp)
    · have solid : isSpace c = false := by simpa using space
      by_cases punct : isPunct c = true
      · obtain ⟨p, blanks, same⟩ := @ih false true (by simp)
        exact ⟨p, blanks, by rw [settle_punct punct, settle_punct punct, same]; rfl⟩
      · have other : isPunct c = false := by simpa using punct
        obtain ⟨p, blanks, same⟩ := @ih false false (by simp)
        exact ⟨p, blanks, by rw [settle_other solid other, settle_other solid other, same, List.append_assoc]; rfl⟩

theorem flush_front {g : Text} (blank : ∀ c ∈ g, isSpace c = true) (segment : Text) :
    ∃ p, (∀ c ∈ p, isSpace c = true) ∧ flush (g ++ segment) = p ++ flush segment := by
  obtain ⟨p, blanks, same⟩ := settle_blanks_front blank segment
  exact ⟨p, blanks, by rw [flush_eq, same, (spacing_blanks blanks _).1, flush_eq]⟩

theorem flush_back {g : Text} (blank : ∀ c ∈ g, isSpace c = true) (segment : Text) :
    ∃ p, (∀ c ∈ p, isSpace c = true) ∧ flush (segment ++ g) = flush segment ++ p := by
  obtain ⟨p, blanks, same⟩ := @settle_blanks_back g blank false false (by simp) segment
  exact ⟨p, blanks, by rw [flush_eq, same, (spacing_blanks blanks _).2, flush_eq]⟩

/-! ### The lexemes of a segment -/

section Lexemes
variable {w t : Text} {c : Char}

theorem lexemesFrom_word (word : isWord c = true) : lexemesFrom w (c :: t) = lexemesFrom (w ++ [c]) t := by
  rw [lexemesFrom, if_pos word]
  rintro rfl
  exact absurd word (by decide)

theorem lexemesFrom_blank (blank : isSpace c = true) : lexemesFrom w (c :: t) = ofWord w ++ lexemesFrom [] t := by
  rw [lexemesFrom, if_neg (by simp [not_isWord_of_isSpace blank]), if_pos blank]
  exact ne_quote_of_isSpace blank

theorem lexemesFrom_mark (quote : c ≠ '"') (word : isWord c = false) (solid : isSpace c = false) :
    lexemesFrom w (c :: t) = ofWord w ++ .mark c :: lexemesFrom [] t := by
  rw [lexemesFrom, if_neg (by simp [word]), if_neg (by simp [solid])]
  exact quote

theorem lexemesFrom_nil : lexemesFrom w [] = ofWord w := by rw [lexemesFrom]

/-- The lexemes before and behind the start of a literal. -/
theorem lexemesFrom_literal {x : Text} (code : '"' ∉ x) (u : Text) :
    lexemesFrom w (x ++ '"' :: u) = lexemesFrom w x ++ .literal ('"' :: (stringEnd u).1) :: lexemesFrom [] (stringEnd u).2 := by
  induction x generalizing w with
  | nil => rw [List.nil_append, lexemesFrom_nil, lexemesFrom]
  | cons c x ih =>
    have ih := fun w => ih (w := w) fun member => code (List.mem_cons_of_mem _ member)
    rw [List.cons_append]
    by_cases word : isWord c = true
    · rw [lexemesFrom_word word, lexemesFrom_word word, ih]
    · have notWord : isWord c = false := by simpa using word
      by_cases blank : isSpace c = true
      · rw [lexemesFrom_blank blank, lexemesFrom_blank blank, ih, List.append_assoc]
      · have solid : isSpace c = false := by simpa using blank
        have quote : c ≠ '"' := fun same => code (same ▸ List.mem_cons_self)
        rw [lexemesFrom_mark quote notWord solid, lexemesFrom_mark quote notWord solid, ih, List.append_assoc,
          List.cons_append]

/-- Settling a segment keeps its lexemes; a blank that is pending has ended the word before it. -/
theorem lexemesFrom_settle {pending tight : Bool} (code : '"' ∉ t) (open' : pending = true → tight = false)
    (done : tight = true → w = []) :
    lexemesFrom w (settle pending tight t) = if pending then ofWord w ++ lexemesFrom [] t else lexemesFrom w t := by
  have blank : isSpace ' ' = true := by decide
  induction t generalizing pending tight w with
  | nil =>
    cases pending with
    | false => rfl
    | true => exact lexemesFrom_blank blank
  | cons c t ih =>
    have ih := fun {w pending tight} => @ih w pending tight fun member => code (List.mem_cons_of_mem _ member)
    by_cases space : isSpace c = true
    · rw [settle_blank space, ih (by simp) done, lexemesFrom_blank space, lexemesFrom_blank space]
      cases tight with
      | false => cases pending <;> rfl
      | true =>
        obtain rfl := done rfl
        cases pending <;> rfl
    · have solid : isSpace c = false := by simpa using space
      have quote : c ≠ '"' := fun same => code (same ▸ List.mem_cons_self)
      by_cases punct : isPunct c = true
      · have mark := fun {w t} => @lexemesFrom_mark w t c quote (not_isWord_of_isPunct punct) solid
        rw [settle_punct punct, mark, mark, mark, ih (by simp) fun _ => rfl]
        cases pending <;> rfl
      · have other : isPunct c = false := by simpa using punct
        rw [settle_other solid other]
        have rest : ∀ w, lexemesFrom w (c :: settle false false t) = lexemesFrom w (c :: t) := by
          intro w
          by_cases word : isWord c = true
          · rw [lexemesFrom_word word, lexemesFrom_word word]
            exact ih (by simp) (by simp)
          · have notWord : isWord c = false := by simpa using word
            rw [lexemesFrom_mark quote notWord solid, lexemesFrom_mark quote notWord solid]
            exact congrArg _ (congrArg _ (ih (by simp) (by simp)))
        cases pending with
        | false => exact rest w
        | true => exact (lexemesFrom_blank blank).trans (congrArg _ (rest []))

end Lexemes

theorem quote_not_mem_flush {segment : Text} (code : '"' ∉ segment) : '"' ∉ flush segment := by
  intro member
  have kept : '"' ∈ dropSpaces (flush segment) := List.mem_filter.mpr ⟨member, by decide⟩
  rw [dropSpaces_flush] at kept
  exact code (List.mem_filter.mp kept).1

theorem quote_not_mem_settle {segment : Text} (code : '"' ∉ segment) : '"' ∉ settle false false segment := by
  rw [← tighten_collapse]
  intro member
  have kept : '"' ∈ dropSpaces (tighten (collapse segment)) := List.mem_filter.mpr ⟨member, by decide⟩
  rw [dropSpaces_tighten, dropSpaces_collapse] at kept
  exact code (List.mem_filter.mp kept).1

theorem lexemes_flush {segment : Text} (code : '"' ∉ segment) : lexemes (flush segment) = lexemes segment := by
  have settled : ∀ {t : Text}, '"' ∉ t → lexemes (settle false false t) = lexemes t :=
    fun code => lexemesFrom_settle code (by simp) (by simp)
  have out := quote_not_mem_flush code
  rw [flush_eq] at out ⊢
  calc lexemes (spacing (settle false false segment))
      = lexemes (settle false false (spacing (settle false false segment))) := (settled out).symm
    _ = lexemes (settle false false (settle false false segment)) := by rw [settle_spacing]
    _ = lexemes segment := by rw [settled (quote_not_mem_settle code), settled code]

/-! ### Statements -/

theorem flush_nil : flush [] = [] := by simp [flush_eq, settle, spacing, replaceChar, spaceAfterBracket]

/-- A literal that is followed by the normal form of the rest ends where it ended. -/
theorem stringEnd_normalizeFrom (u : Text) :
    stringEnd ((stringEnd u).1 ++ normalizeFrom [] (stringEnd u).2) = ((stringEnd u).1, normalizeFrom [] (stringEnd u).2) := by
  by_cases more : (stringEnd u).2 = []
  · have whole := stringEnd_append u
    rw [more, List.append_nil] at whole
    have empty : normalizeFrom [] [] = [] := by rw [normalizeFrom, flush_nil]
    rw [more, empty, List.append_nil]
    conv_lhs => rw [whole]
    rw [← more]
  · exact stringEnd_closed more _

theorem lexemes_normalizeFrom {buf t : Text} (code : '"' ∉ buf) : lexemes (normalizeFrom buf t) = lexemes (buf ++ t) := by
  fun_induction normalizeFrom buf t with
  | case1 buf => rw [lexemes_flush code, List.append_nil]
  | case2 buf u ih =>
    have ih := ih List.not_mem_nil
    rw [List.append_assoc, List.cons_append, lexemes, lexemes, lexemesFrom_literal (quote_not_mem_flush code),
      lexemesFrom_literal code, stringEnd_normalizeFrom]
    exact congrArg₂ (· ++ ·) (lexemes_flush code) (congrArg _ ih)
  | case3 buf c u quote ih =>
    rw [ih, List.append_assoc, List.singleton_append]
    simpa [code] using fun same : '"' = c => quote same.symm

theorem normalizeFrom_append {buf x : Text} (code : '"' ∉ x) (t : Text) :
    normalizeFrom buf (x ++ t) = normalizeFrom (buf ++ x) t := by
  induction x generalizing buf with
  | nil => rw [List.nil_append, List.append_nil]
  | cons c x ih =>
    rw [List.cons_append, normalizeFrom, ih fun member => code (List.mem_cons_of_mem _ member), List.append_assoc,
      List.singleton_append]
    rintro rfl
    exact code List.mem_cons_self

theorem normalizeFrom_again {buf t : Text} (code : '"' ∉ buf) :
    normalizeFrom [] (normalizeFrom buf t) = normalizeFrom buf t := by
  fun_induction normalizeFrom buf t with
  | case1 buf => rw [normalizeFrom_code (quote_not_mem_flush code), List.nil_append, flush_flush]
  | case2 buf u ih =>
    rw [List.append_assoc, List.cons_append, normalizeFrom_append (quote_not_mem_flush code), List.nil_append, normalizeFrom,
      flush_flush, stringEnd_normalizeFrom, ih List.not_mem_nil, List.append_assoc, List.cons_append]
  | case3 buf c u quote ih =>
    refine ih ?_
    simpa [code] using fun same : '"' = c => quote same.symm

theorem normalizeFrom_front {g : Text} (blank : ∀ c ∈ g, isSpace c = true) {buf : Text} (t : Text) :
    ∃ p, (∀ c ∈ p, isSpace c = true) ∧ normalizeFrom (g ++ buf) t = p ++ normalizeFrom buf t := by
  fun_induction normalizeFrom buf t with
  | case1 buf =>
    obtain ⟨p, blanks, same⟩ := flush_front blank buf
    exact ⟨p, blanks, by rw [normalizeFrom, same]⟩
  | case2 buf u _ =>
    obtain ⟨p, blanks, same⟩ := flush_front blank buf
    exact ⟨p, blanks, by rw [normalizeFrom, same]; simp⟩
  | case3 buf c u quote ih =>
    obtain ⟨p, blanks, same⟩ := ih
    refine ⟨p, blanks, ?_⟩
    rw [normalizeFrom, List.append_assoc, same]
    exact quote

/-- A literal that is closed is closed there whatever follows. -/
theorem stringEnd_of_run {u : Text} (closed : Mode.lit.run (stringEnd u).1 = .code) (g : Text) :
    stringEnd (u ++ g) = ((stringEnd u).1, (stringEnd u).2 ++ g) := by
  by_cases more : (stringEnd u).2 = []
  · fun_induction stringEnd u with
    | case1 => cases closed
    | case2 t =>
      rw [show t = [] from more]
      rfl
    | case3 c t ih =>
      rw [List.cons_append, List.cons_append, stringEnd, ih closed more]
    | case4 c t notQuote notEscape ih =>
      have quote : c ≠ '"' := notQuote
      by_cases slash : c = '\\'
      · subst slash
        cases t with
        | nil => cases closed
        | cons d t => exact absurd rfl (notEscape d t rfl)
      · rw [run_cons, Mode.step, if_neg quote, if_neg slash] at closed
        rw [List.cons_append, stringEnd, ih closed more]
        · exact quote
        · exact fun _ _ isEscape => absurd isEscape slash
  · conv_lhs => rw [← stringEnd_append u, List.append_assoc]
    exact stringEnd_closed more _

theorem run_literal {u : Text} : Mode.code.run ('"' :: u) = .code →
    Mode.lit.run (stringEnd u).1 = .code ∧ Mode.code.run (stringEnd u).2 = .code := by
  intro closed
  rw [run_cons, step_code_quote] at closed
  have whole := stringEnd_append u
  rcases run_stringEnd u with done | done
  · refine ⟨done, ?_⟩
    rw [← whole, run_append, done] at closed
    exact closed
  · rw [done, List.append_nil] at whole
    rw [whole, done]
    exact ⟨closed, rfl⟩

theorem normalizeFrom_back {g : Text} (blank : ∀ c ∈ g, isSpace c = true) {buf t : Text} (closed : Mode.code.run t = .code) :
    ∃ p, (∀ c ∈ p, isSpace c = true) ∧ normalizeFrom buf (t ++ g) = normalizeFrom buf t ++ p := by
  have code : '"' ∉ g := fun member => absurd (blank _ member) (by decide)
  fun_induction normalizeFrom buf t with
  | case1 buf =>
    rw [List.nil_append, normalizeFrom_code code]
    exact flush_back blank buf
  | case2 buf u ih =>
    obtain ⟨inside, behind⟩ := run_literal closed
    obtain ⟨p, blanks, same⟩ := ih behind
    refine ⟨p, blanks, ?_⟩
    rw [List.cons_append, normalizeFrom, stringEnd_of_run inside, same]
    simp
  | case3 buf c u quote ih =>
    rw [run_cons, step_code fun same => quote same] at closed
    rw [List.cons_append, normalizeFrom]
    · exact ih closed
    · exact quote

theorem lexemesFrom_back {g : Text} (blank : ∀ c ∈ g, isSpace c = true) {w t : Text} (closed : Mode.code.run t = .code) :
    lexemesFrom w (t ++ g) = lexemesFrom w t := by
  have only : ∀ w, lexemesFrom w g = ofWord w := by
    induction g with
    | nil => exact fun w => lexemesFrom_nil
    | cons c g ih =>
      intro w
      rw [lexemesFrom_blank (blank c List.mem_cons_self), ih (fun d member => blank d (List.mem_cons_of_mem _ member)) []]
      exact List.append_nil _
  fun_induction lexemesFrom w t with
  | case1 w => exact only w
  | case2 w u ih =>
    obtain ⟨inside, behind⟩ := run_literal closed
    rw [List.cons_append, lexemesFrom, stringEnd_of_run inside, ih behind]
  | case3 w c u quote word ih =>
    rw [run_cons, step_code fun same => quote same] at closed
    rw [List.cons_append, lexemesFrom_word word, ih closed]
  | case4 w c u quote _ space ih =>
    rw [run_cons, step_code fun same => quote same] at closed
    rw [List.cons_append, lexemesFrom_blank space, ih closed]
  | case5 w c u quote word space ih =>
    rw [run_cons, step_code fun same => quote same] at closed
    rw [List.cons_append, lexemesFrom_mark quote (by simpa using word) (by simpa using space), ih closed]

theorem lexemes_front {g : Text} (blank : ∀ c ∈ g, isSpace c = true) (t : Text) : lexemes (g ++ t) = lexemes t := by
  induction g with
  | nil => rfl
  | cons c g ih =>
    rw [List.cons_append, lexemes, lexemesFrom_blank (blank c List.mem_cons_self)]
    exact ih fun d member => blank d (List.mem_cons_of_mem _ member)

/-! ### The ends of a statement -/

theorem run_normalizeFrom {buf t : Text} (code : '"' ∉ buf) :
    Mode.code.run (normalizeFrom buf t) = Mode.code.run t := by
  have closed : ∀ {x : Text}, '"' ∉ x → Mode.code.run x = .code := fun none => run_code fun c member same => none (same ▸ member)
  fun_induction normalizeFrom buf t with
  | case1 buf => exact closed (quote_not_mem_flush code)
  | case2 buf u ih =>
    have ih := ih List.not_mem_nil
    rw [List.append_assoc, run_append, closed (quote_not_mem_flush code), List.cons_append, run_cons, run_cons,
      step_code_quote, run_append]
    conv_rhs => rw [← stringEnd_append u, run_append]
    rcases run_stringEnd u with done | done
    · rw [done, ih]
    · rw [done, normalizeFrom, flush_nil]
  | case3 buf c u quote ih =>
    rw [run_cons, step_code fun same => quote same]
    refine ih ?_
    simpa [code] using fun same : '"' = c => quote same.symm

/-- A literal that is not closed ends the normal form as it ends the statement. -/
theorem getLast_normalizeFrom {buf t : Text} (unclosed : Mode.code.run t ≠ .code) :
    (normalizeFrom buf t).getLast? = t.getLast? := by
  fun_induction normalizeFrom buf t with
  | case1 buf => exact absurd rfl unclosed
  | case2 buf u ih =>
    have whole := stringEnd_append u
    rw [run_cons, step_code_quote] at unclosed
    by_cases more : (stringEnd u).2 = []
    · rw [more, List.append_nil] at whole
      rw [more, whole, normalizeFrom, flush_nil, List.append_nil, List.getLast?_append_of_ne_nil _ (List.cons_ne_nil _ _)]
    · have done := (run_stringEnd u).resolve_right more
      rw [← whole, run_append, done] at unclosed
      have last := ih unclosed
      have some : normalizeFrom [] (stringEnd u).2 ≠ [] := by
        intro none
        rw [none] at last
        exact more (List.getLast?_eq_none_iff.mp last.symm)
      rw [List.getLast?_append_of_ne_nil _ some, last]
      conv_rhs => rw [← whole, ← List.cons_append, List.getLast?_append_of_ne_nil _ more]
  | case3 buf c u quote ih =>
    rw [run_cons, step_code fun same => quote same] at unclosed
    rw [ih unclosed]
    cases u with
    | nil => exact absurd rfl unclosed
    | cons d u => rw [List.getLast?_cons_cons]

theorem run_blanks {g : Text} (blank : ∀ c ∈ g, isSpace c = true) {m : Mode} (closed : m.run g = .code) : m = .code ∨ g = [] := by
  induction g generalizing m with
  | nil => exact .inr rfl
  | cons c g ih =>
    have space := blank c List.mem_cons_self
    have step : m.step c ≠ .code ∨ m = .code := by
      cases m with
      | code => exact .inr rfl
      | esc =>
        refine .inl ?_
        rw [Mode.step]
        decide
      | lit =>
        refine .inl ?_
        rw [Mode.step, if_neg (ne_quote_of_isSpace space)]
        split <;> decide
    rcases ih (fun d member => blank d (List.mem_cons_of_mem _ member)) closed with done | rfl
    · exact .inl (step.resolve_left fun other => other done)
    · exact .inl (step.resolve_left fun other => other closed)

/-- What `strip` removes at the end does not stand in a literal. -/
theorem exists_normalize_eq {s : Text} (stripped : Stripped s) :
    ∃ g g', (∀ c ∈ g, isSpace c = true) ∧ (∀ c ∈ g', isSpace c = true) ∧
      normalizeFrom [] s = g ++ normalize s ++ g' ∧ (Mode.code.run (normalize s) = .code ∨ g' = []) := by
  obtain ⟨g, g', blank, blank', same⟩ := exists_strip_eq (normalizeFrom [] s)
  refine ⟨g, g', blank, blank', same, ?_⟩
  by_cases closed : Mode.code.run s = .code
  · have run := @run_normalizeFrom [] s List.not_mem_nil
    rw [closed, same, run_append, run_append, run_code fun c member => ne_quote_of_isSpace (blank c member)] at run
    exact run_blanks blank' run
  · refine .inr ?_
    by_contra some
    have last := @getLast_normalizeFrom [] s closed
    have more : s ≠ [] := by
      rintro rfl
      exact closed rfl
    rw [same, List.getLast?_append_of_ne_nil _ some, List.getLast?_eq_some_getLast some, List.getLast?_eq_some_getLast more] at last
    have solid := stripped.getLast more
    rw [← Option.some.inj last, blank' _ (List.getLast_mem some)] at solid
    cases solid

theorem lexemes_normalize {s : Text} (stripped : Stripped s) : lexemes (normalize s) = lexemes s := by
  obtain ⟨g, g', blank, blank', same, closed⟩ := exists_normalize_eq stripped
  have whole := @lexemes_normalizeFrom [] s List.not_mem_nil
  rw [same, List.append_assoc, lexemes_front blank, List.nil_append] at whole
  rw [← whole]
  rcases closed with closed | rfl
  · exact (lexemesFrom_back blank' closed).symm
  · rw [List.append_nil]

theorem normalize_normalize {s : Text} (stripped : Stripped s) : normalize (normalize s) = normalize s := by
  obtain ⟨g, g', blank, blank', same, closed⟩ := exists_normalize_eq stripped
  have again := @normalizeFrom_again [] s List.not_mem_nil
  have code : '"' ∉ g := fun member => absurd (blank _ member) (by decide)
  obtain ⟨p, blanks, front⟩ := @normalizeFrom_front g blank [] (normalize s ++ g')
  have back : ∃ p', (∀ c ∈ p', isSpace c = true) ∧
      normalizeFrom [] (normalize s ++ g') = normalizeFrom [] (normalize s) ++ p' := by
    rcases closed with closed | rfl
    · exact normalizeFrom_back blank' closed
    · exact ⟨[], by simp, by rw [List.append_nil, List.append_nil]⟩
  obtain ⟨p', blanks', back⟩ := back
  -- the blanks that were stripped only add blanks to the normal form
  calc normalize (normalize s)
      = strip (p ++ normalizeFrom [] (normalize s) ++ p') := (strip_append_space blanks blanks' _).symm
    _ = strip (normalizeFrom [] (g ++ normalize s ++ g')) := by
      rw [List.append_assoc, ← back, ← front, List.append_nil, List.append_assoc, normalizeFrom_append code, List.nil_append]
    _ = normalize s := by rw [← same, again, normalize]

/-- The normal form of a stripped statement has the lexemes of the statement and is its own normal form, so statements
    with one normal form have the same lexemes. -/
theorem normalize_canonical {s : Text} (stripped : Stripped s) :
    lexemes (normalize s) = lexemes s ∧ normalize (normalize s) = normalize s ∧
      ∀ s', Stripped s' → normalize s' = normalize s → lexemes s' = lexemes s := by
  refine ⟨lexemes_normalize stripped, normalize_normalize stripped, fun s' stripped' same => ?_⟩
  rw [← lexemes_normalize stripped', same, lexemes_normalize stripped]

/-- A statement with blanks beside punctuation, in a literal and in front of it. -/
theorem normalize_canonical_literal :
    let s := "const String[]  S =  \"a ,  b\" +x".toList
    lexemes (normalize s) = lexemes s ∧ normalize (normalize s) = normalize s ∧
      ∀ s', Stripped s' → normalize s' = normalize s → lexemes s' = lexemes s :=
  normalize_canonical (by decide)

end BinderIdl.Surface
