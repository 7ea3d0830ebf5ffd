import BinderIdl.Theorems.Bodies
import BinderIdl.Theorems.NormalForm

/-! Which gaps between the tokens of a statement show in its normal form. A gap is settled to one blank or to nothing,
    whatever it is made of, and the normal form says which: only beside punctuation it says nothing. -/

namespace BinderIdl.Surface
open Py Lex

/-! ### Statements with settled blanks -/

/-- A blank that was read, before it is written. -/
def held (pending : Bool) : Text := if pending then [' '] else []

/-- A statement whose blanks are settled outside its literals. -/
def settleAll (pending tight : Bool) (t : Text) : Text :=
  match t with
  | [] => held pending
  | '"' :: u => held pending ++ '"' :: (stringEnd u).1 ++ settleAll false false (stringEnd u).2
  | c :: u =>
    if isSpace c then settleAll (!tight) tight u
    else if isPunct c then c :: settleAll false true u
    else held pending ++ c :: settleAll false false u
termination_by t.length
decreasing_by
  · have := stringEnd_length u
    simp only [List.length_cons]
    omega
  · simp
  · simp
  · simp

section SettleAll
variable {pending tight : Bool} {c : Char} {t g x : Text}

theorem settleAll_empty (pending tight : Bool) : settleAll pending tight [] = held pending := by
  unfold settleAll
  rfl

theorem settleAll_quote (pending tight : Bool) (u : Text) :
    settleAll pending tight ('"' :: u) =
      held pending ++ '"' :: (stringEnd u).1 ++ settleAll false false (stringEnd u).2 := by
  conv_lhs => unfold settleAll
  rfl

theorem settleAll_solid (quote : c ≠ '"') :
    settleAll pending tight (c :: t) =
      if isSpace c then settleAll (!tight) tight t
      else if isPunct c then c :: settleAll false true t
      else held pending ++ c :: settleAll false false t := by
  conv_lhs => unfold settleAll
  split
  · rename_i none
    cases none
  · rename_i same
    exact absurd (List.cons.inj same).1 quote
  · rename_i same
    cases same
    rfl

theorem settleAll_blank (blank : isSpace c = true) : settleAll pending tight (c :: t) = settleAll (!tight) tight t := by
  rw [settleAll_solid (ne_quote_of_isSpace blank), if_pos blank]

theorem settleAll_punct (punct : isPunct c = true) : settleAll pending tight (c :: t) = c :: settleAll false true t := by
  have quote : c ≠ '"' := by
    rintro rfl
    cases punct
  rw [settleAll_solid quote, if_neg (by simp [not_isSpace_of_isPunct punct]), if_pos punct]

theorem settleAll_other (quote : c ≠ '"') (solid : isSpace c = false) (other : isPunct c = false) :
    settleAll pending tight (c :: t) = held pending ++ c :: settleAll false false t := by
  rw [settleAll_solid quote, if_neg (by simp [solid]), if_neg (by simp [other])]

theorem settleAll_nil : settleAll false tight [] = [] := by
  rw [settleAll_empty]
  rfl

/-- Some blanks are settled as one. -/
theorem settleAll_blanks (blank : ∀ c ∈ g, isSpace c = true) (some : g ≠ []) (t : Text) :
    settleAll pending tight (g ++ t) = settleAll (!tight) tight t := by
  induction g generalizing pending with
  | nil => exact absurd rfl some
  | cons c g ih =>
    rw [List.cons_append, settleAll_blank (blank c List.mem_cons_self)]
    by_cases last : g = []
    · rw [last, List.nil_append]
    · exact ih (fun d member => blank d (List.mem_cons_of_mem _ member)) last

/-- What stands before a literal is settled by itself. -/
theorem settleAll_code (code : '"' ∉ x) :
    settleAll pending tight x = settle pending tight x ∧
      ∀ u, settleAll pending tight (x ++ '"' :: u) =
        settle pending tight x ++ '"' :: (stringEnd u).1 ++ settleAll false false (stringEnd u).2 := by
  induction x generalizing pending tight with
  | nil => exact ⟨by rw [settleAll_empty]; rfl, fun u => by rw [List.nil_append, settleAll_quote]; rfl⟩
  | cons c x ih =>
    have behind := fun member => code (List.mem_cons_of_mem c member)
    have quote : c ≠ '"' := fun same => code (same ▸ List.mem_cons_self)
    simp only [List.cons_append]
    by_cases space : isSpace c = true
    · simp only [settleAll_blank space, settle_blank space]
      exact ih behind
    have solid : isSpace c = false := by simpa using space
    by_cases punct : isPunct c = true
    · simp only [settleAll_punct punct, settle_punct punct]
      exact ⟨congrArg _ (ih behind).1, fun u => congrArg _ ((ih behind).2 u)⟩
    · have other : isPunct c = false := by simpa using punct
      simp only [settleAll_other quote solid other, settle_other solid other, (ih behind).1, (ih behind).2]
      exact ⟨rfl, fun u => by simp [held]⟩

/-- Normalising changes no settled blank. -/
theorem settleAll_normalizeFrom {buf : Text} (code : '"' ∉ buf) :
    settleAll false false (normalizeFrom buf t) = settleAll false false (buf ++ t) := by
  have settled : ∀ {segment : Text}, settle false false (flush segment) = settle false false segment := by
    intro segment
    rw [flush_eq, settle_spacing, settle_settle (by simp)]
  fun_induction normalizeFrom buf t with
  | case1 buf => rw [(settleAll_code (quote_not_mem_flush code)).1, settled, List.append_nil, (settleAll_code code).1]
  | case2 buf u ih =>
    rw [List.append_assoc, List.cons_append, (settleAll_code (quote_not_mem_flush code)).2, settled, stringEnd_normalizeFrom,
      ih List.not_mem_nil, (settleAll_code code).2]
    rfl
  | case3 buf c u quote ih =>
    rw [ih, List.append_assoc, List.singleton_append]
    simpa [code] using fun same : '"' = c => quote same.symm

theorem stringEnd_settleAll (u : Text) :
    stringEnd ((stringEnd u).1 ++ settleAll false false (stringEnd u).2) = ((stringEnd u).1, settleAll false false (stringEnd u).2) := by
  by_cases more : (stringEnd u).2 = []
  · have whole := stringEnd_append u
    rw [more, List.append_nil] at whole
    rw [more, settleAll_nil, List.append_nil]
    conv_lhs => rw [whole]
    rw [← more]
  · exact stringEnd_closed more _

/-- The settled blanks are all that counts for the normal form. -/
theorem normalizeFrom_settleAll {buf : Text} (code : '"' ∉ buf) :
    normalizeFrom [] (settleAll false false (buf ++ t)) = normalizeFrom buf t := by
  have settled : ∀ {segment : Text}, flush (settle false false segment) = flush segment := by
    intro segment
    rw [flush_eq, flush_eq, settle_settle (by simp)]
  fun_induction normalizeFrom buf t with
  | case1 buf =>
    rw [List.append_nil, (settleAll_code code).1, normalizeFrom_code (quote_not_mem_settle code), List.nil_append, settled]
  | case2 buf u ih =>
    rw [(settleAll_code code).2, List.append_assoc, List.cons_append, normalizeFrom_append (quote_not_mem_settle code),
      List.nil_append, normalizeFrom, settled, stringEnd_settleAll]
    have behind := ih List.not_mem_nil
    rw [List.nil_append] at behind
    rw [behind, List.append_assoc, List.cons_append]
  | case3 buf c u quote ih =>
    rw [← ih, List.append_assoc, List.singleton_append]
    simpa [code] using fun same : '"' = c => quote same.symm

/-! ### The ends of a statement -/

theorem settleAll_front (blank : ∀ c ∈ g, isSpace c = true) (t : Text) :
    ∃ p, (∀ c ∈ p, isSpace c = true) ∧ settleAll false false (g ++ t) = p ++ settleAll false false t := by
  have one : ∀ c ∈ [' '], isSpace c = true := fun c member => List.mem_singleton.mp member ▸ by decide
  have none : ∀ c ∈ ([] : Text), isSpace c = true := fun c member => absurd member List.not_mem_nil
  by_cases some : g = []
  · exact ⟨[], none, by rw [some]; rfl⟩
  rw [settleAll_blanks blank some]
  cases t with
  | nil => exact ⟨[' '], one, by rw [settleAll_empty, settleAll_empty]; rfl⟩
  | cons c t =>
    by_cases quote : c = '"'
    · exact ⟨[' '], one, by rw [quote, settleAll_quote, settleAll_quote]; rfl⟩
    by_cases space : isSpace c = true
    · exact ⟨[], none, by rw [settleAll_blank space, settleAll_blank space]; rfl⟩
    have solid : isSpace c = false := by simpa using space
    by_cases punct : isPunct c = true
    · exact ⟨[], none, by rw [settleAll_punct punct, settleAll_punct punct]; rfl⟩
    · have other : isPunct c = false := by simpa using punct
      exact ⟨[' '], one, by rw [settleAll_other quote solid other, settleAll_other quote solid other]; rfl⟩

theorem settleAll_back (blank : ∀ c ∈ g, isSpace c = true) (open' : pending = true → tight = false)
    (closed : Mode.code.run t = .code) :
    ∃ p, (∀ c ∈ p, isSpace c = true) ∧ settleAll pending tight (t ++ g) = settleAll pending tight t ++ p := by
  fun_induction settleAll pending tight t with
  | case1 pending tight =>
    have code : '"' ∉ g := fun member => absurd (blank _ member) (by decide)
    obtain ⟨p, blanks, same⟩ := settle_blanks_back blank open' []
    refine ⟨p, blanks, ?_⟩
    rw [List.nil_append, (settleAll_code code).1]
    exact same
  | case2 pending tight u ih =>
    obtain ⟨inside, behind⟩ := run_literal closed
    obtain ⟨p, blanks, same⟩ := ih (by simp) behind
    exact ⟨p, blanks, by rw [List.cons_append, settleAll_quote, stringEnd_of_run inside, same]; simp⟩
  | case3 pending tight c u quote space ih =>
    rw [run_cons, step_code fun same => quote same] at closed
    obtain ⟨p, blanks, same⟩ := ih (by simp) closed
    exact ⟨p, blanks, by rw [List.cons_append, settleAll_blank space, same]⟩
  | case4 pending tight c u quote space punct ih =>
    rw [run_cons, step_code fun same => quote same] at closed
    obtain ⟨p, blanks, same⟩ := ih (by simp) closed
    exact ⟨p, blanks, by rw [List.cons_append, settleAll_punct punct, same]; rfl⟩
  | case5 pending tight c u quote space punct ih =>
    rw [run_cons, step_code fun same => quote same] at closed
    obtain ⟨p, blanks, same⟩ := ih (by simp) closed
    refine ⟨p, blanks, ?_⟩
    rw [List.cons_append, settleAll_other quote (by simpa using space) (by simpa using punct), same]
    simp

theorem getLast_settleAll {d : Char} (last : t.getLast? = some d) (solid : isSpace d = false) :
    (settleAll pending tight t).getLast? = some d := by
  fun_induction settleAll pending tight t with
  | case1 => cases last
  | case2 pending tight u ih =>
    have whole := stringEnd_append u
    by_cases more : (stringEnd u).2 = []
    · rw [more, List.append_nil] at whole
      rw [more, settleAll_nil, List.append_nil, List.getLast?_append_of_ne_nil _ (List.cons_ne_nil _ _), whole]
      exact last
    · rw [← whole, ← List.cons_append, List.getLast?_append_of_ne_nil _ more] at last
      have behind := ih last
      have some : settleAll false false (stringEnd u).2 ≠ [] := by
        intro none
        rw [none] at behind
        cases behind
      rw [List.getLast?_append_of_ne_nil _ some, behind]
  | case3 pending tight c u quote space ih =>
    cases u with
    | nil =>
      have same : c = d := Option.some.inj last
      rw [same, solid] at space
      cases space
    | cons e u => exact ih (by rwa [List.getLast?_cons_cons] at last)
  | case4 pending tight c u quote space punct ih =>
    cases u with
    | nil => rwa [settleAll_nil]
    | cons e u =>
      rw [List.getLast?_cons_cons] at last
      rw [← List.singleton_append, List.getLast?_append, ih last]
      rfl
  | case5 pending tight c u quote space punct ih =>
    cases u with
    | nil =>
      rw [settleAll_nil, List.getLast?_append_of_ne_nil _ (List.cons_ne_nil _ _)]
      exact last
    | cons e u =>
      rw [List.getLast?_cons_cons] at last
      rw [List.getLast?_append_of_ne_nil _ (List.cons_ne_nil _ _), ← List.singleton_append, List.getLast?_append, ih last]
      rfl

/-- A stripped statement has no blank at its ends when it is settled. -/
theorem strip_settleAll {s : Text} (stripped : Stripped s) : strip (settleAll false false s) = settleAll false false s := by
  cases s with
  | nil =>
    rw [settleAll_nil]
    rfl
  | cons c u =>
    have solid : isSpace c = false := stripped.head (List.cons_ne_nil c u)
    have last := List.getLast?_eq_some_getLast (List.cons_ne_nil c u)
    have firm := stripped.getLast (List.cons_ne_nil c u)
    have last' := @getLast_settleAll false false _ _ last firm
    obtain ⟨v, same⟩ : ∃ v, settleAll false false (c :: u) = c :: v := by
      by_cases quote : c = '"'
      · exact ⟨_, by rw [quote, settleAll_quote]; rfl⟩
      by_cases punct : isPunct c = true
      · exact ⟨_, settleAll_punct punct⟩
      · exact ⟨_, settleAll_other quote solid (by simpa using punct)⟩
    rw [same] at last' ⊢
    rw [strip, lstrip_of_head solid]
    obtain ⟨w, whole⟩ := List.getLast?_eq_some_iff.mp last'
    rw [whole]
    exact rstrip_of_last firm w

/-- Statements have one normal form exactly when their settled texts are the same. -/
theorem normalize_eq_iff {s s' : Text} (stripped : Stripped s) (stripped' : Stripped s') :
    normalize s = normalize s' ↔ settleAll false false s = settleAll false false s' := by
  have read : ∀ {s : Text}, Stripped s → settleAll false false s = strip (settleAll false false (normalize s)) := by
    intro s stripped
    obtain ⟨g, g', blank, blank', same, closed⟩ := exists_normalize_eq stripped
    have whole := @settleAll_normalizeFrom s [] List.not_mem_nil
    obtain ⟨p, blanks, front⟩ := settleAll_front blank (normalize s ++ g')
    have back : ∃ p', (∀ c ∈ p', isSpace c = true) ∧
        settleAll false false (normalize s ++ g') = settleAll false false (normalize s) ++ p' := by
      rcases closed with closed | rfl
      · exact settleAll_back blank' (by simp) closed
      · exact ⟨[], by simp, by rw [List.append_nil, List.append_nil]⟩
    obtain ⟨p', blanks', back⟩ := back
    calc settleAll false false s
        = strip (settleAll false false s) := (strip_settleAll stripped).symm
      _ = strip (settleAll false false (g ++ normalize s ++ g')) := by rw [← same, whole, List.nil_append]
      _ = strip (p ++ settleAll false false (normalize s) ++ p') := by rw [List.append_assoc, front, back, List.append_assoc]
      _ = strip (settleAll false false (normalize s)) := strip_append_space blanks blanks' _
  constructor
  · intro same
    rw [read stripped, read stripped', same]
  · intro same
    have whole : ∀ s : Text, normalizeFrom [] (settleAll false false s) = normalizeFrom [] s := fun s =>
      @normalizeFrom_settleAll s [] List.not_mem_nil
    rw [normalize, normalize, ← whole s, ← whole s', same]

end SettleAll

/-! ### Gaps -/

/-- Punctuation, beside which `_normalize` drops the blanks. -/
def Token.isMark : Token → Bool
  | .symbol s => isPunct s.char
  | _ => false

/-- For each token whether the gap before it shows: it is there, and no punctuation stands on either side of it. -/
def shownGaps (tight : Bool) : List Spaced → List Bool
  | [] => []
  | t :: ts => (!tight && !t.token.isMark && !t.gap.isEmpty) :: shownGaps t.token.isMark ts

/-- A token in a settled text. -/
def Token.settled : Token → Text
  | .char c _ => if isSpace c then ['\'', ' ', '\''] else ['\'', c, '\'']
  | t => t.spell

theorem Token.settled_head (t : Token) : ∃ c u, t.settled = c :: u ∧ c ≠ ' ' := by
  cases t with
  | word w =>
    obtain ⟨c, u, head, solid⟩ := (Token.word w).spell_head
    exact ⟨c, u, head, fun same => by rw [same] at solid; cases solid⟩
  | symbol s => exact ⟨s.char, [], rfl, fun same => by have solid := s.solid; rw [same] at solid; cases solid⟩
  | string l => exact ⟨'"', _, rfl, by decide⟩
  | char c single =>
    rw [Token.settled]
    split
    · exact ⟨'\'', _, rfl, by decide⟩
    · exact ⟨'\'', _, rfl, by decide⟩

theorem settleAll_word {pending tight : Bool} (w : Word) (r : Text) :
    settleAll pending tight (w.text ++ r) = held pending ++ w.text ++ settleAll false false r := by
  have chars : ∀ c ∈ w.text, c ≠ '"' ∧ isSpace c = false ∧ isPunct c = false := by
    intro c member
    have word := w.isWord_of_mem member
    refine ⟨ne_of_isWord word (by decide), not_isSpace_of_isWord word, ?_⟩
    by_contra punct
    rw [not_isWord_of_isPunct (by simpa using punct)] at word
    cases word
  have inside : ∀ u : Text, (∀ c ∈ u, c ≠ '"' ∧ isSpace c = false ∧ isPunct c = false) →
      settleAll false false (u ++ r) = u ++ settleAll false false r := by
    intro u plain
    induction u with
    | nil => rfl
    | cons c u ih =>
      rw [List.forall_mem_cons] at plain
      rw [List.cons_append, settleAll_other plain.1.1 plain.1.2.1 plain.1.2.2, ih plain.2]
      rfl
  obtain ⟨c, u, text⟩ := List.exists_cons_of_ne_nil w.nonempty
  rw [text, List.forall_mem_cons] at chars
  rw [text, List.cons_append, settleAll_other chars.1.1 chars.1.2.1 chars.1.2.2, inside u chars.2, List.append_assoc,
    List.cons_append]

/-- What a token is settled to: a blank before it is kept unless it is punctuation. -/
theorem settleAll_token {pending tight : Bool} {t : Token} (quoteless : t.quoteless = true) (r : Text) :
    settleAll pending tight (t.spell ++ r) = held (pending && !t.isMark) ++ t.settled ++ settleAll false t.isMark r := by
  cases t with
  | word w =>
    show settleAll pending tight (w.text ++ r) = held (pending && !false) ++ w.text ++ settleAll false false r
    rw [Bool.not_false, Bool.and_true, settleAll_word]
  | symbol s =>
    show settleAll pending tight (s.char :: r) = held (pending && !isPunct s.char) ++ [s.char] ++ settleAll false (isPunct s.char) r
    cases punct : isPunct s.char with
    | true =>
      rw [settleAll_punct punct, Bool.not_true, Bool.and_false]
      rfl
    | false =>
      rw [settleAll_other s.notQuote.1 s.solid punct, Bool.not_false, Bool.and_true, List.append_assoc]
      rfl
  | string l =>
    have ends : stringEnd (l.text ++ '"' :: r) = (l.text ++ ['"'], r) := stringEnd_literal l.closed r
    show settleAll pending tight ('"' :: l.text ++ ['"'] ++ r) = held (pending && !false) ++ _ ++ settleAll false false r
    rw [Bool.not_false, Bool.and_true, List.append_assoc, List.cons_append, List.singleton_append, settleAll_quote, ends]
    rfl
  | char c single =>
    have quote : c ≠ '"' := by simpa [Token.quoteless] using quoteless
    have tick : ('\'' : Char) ≠ '"' ∧ isSpace '\'' = false ∧ isPunct '\'' = false := by decide
    show settleAll pending tight ('\'' :: c :: '\'' :: r) = held (pending && !false) ++ _ ++ settleAll false false r
    rw [Bool.not_false, Bool.and_true, settleAll_other tick.1 tick.2.1 tick.2.2, Token.settled]
    by_cases space : isSpace c = true
    · rw [if_pos space, settleAll_blank space, settleAll_other tick.1 tick.2.1 tick.2.2]
      simp [held]
    have solid : isSpace c = false := by simpa using space
    rw [if_neg space]
    by_cases punct : isPunct c = true
    · rw [settleAll_punct punct, settleAll_other tick.1 tick.2.1 tick.2.2]
      simp [held]
    · rw [settleAll_other quote solid (by simpa using punct), settleAll_other tick.1 tick.2.1 tick.2.2]
      simp [held]

theorem settleAll_cons {tight : Bool} {t : Spaced} {ts : List Spaced} (quoteless : t.token.quoteless = true) :
    settleAll false tight (blankSpell (t :: ts)) =
      held (!tight && !t.token.isMark && !t.gap.isEmpty) ++ t.token.settled ++ settleAll false t.token.isMark (blankSpell ts) := by
  rw [blankSpell_cons, List.append_assoc]
  by_cases none : t.gap = []
  · rw [none]
    show settleAll false tight (t.token.spell ++ blankSpell ts) = _
    rw [settleAll_token quoteless]
    simp
  · have some : t.gap.isEmpty = false := by simpa using none
    rw [settleAll_blanks t.gap.isBlank (Gap.blanks_ne_nil none), settleAll_token quoteless, some]
    simp

/-- Texts of the same tokens are settled alike exactly when the same gaps show. -/
theorem settleAll_eq_iff {ts us : List Spaced} (same : ts.map Spaced.token = us.map Spaced.token) (quoteless : Quoteless ts)
    {tight : Bool} : settleAll false tight (blankSpell ts) = settleAll false tight (blankSpell us) ↔
      shownGaps tight ts = shownGaps tight us := by
  induction ts generalizing us tight with
  | nil =>
    obtain rfl := List.map_eq_nil_iff.mp same.symm
    exact ⟨fun _ => rfl, fun _ => rfl⟩
  | cons t ts ih =>
    obtain ⟨u, us, rfl⟩ : ∃ u us', us = u :: us' := by
      cases us with
      | nil => cases same
      | cons u us => exact ⟨u, us, rfl⟩
    rw [List.map_cons, List.map_cons, List.cons.injEq] at same
    have first : t.token.quoteless = true := quoteless t List.mem_cons_self
    have rest := @ih us same.2 (fun v member => quoteless v (List.mem_cons_of_mem _ member)) t.token.isMark
    rw [settleAll_cons first, settleAll_cons (by rwa [← same.1]), shownGaps, shownGaps, ← same.1, List.cons.injEq, ← rest]
    obtain ⟨c, v, head, solid⟩ := t.token.settled_head
    cases (!tight && !t.token.isMark && !t.gap.isEmpty) <;> cases (!tight && !t.token.isMark && !u.gap.isEmpty) <;>
      simp [held, head, solid, Ne.symm solid]

/-- Members of the same tokens are recorded alike exactly when the same gaps show. -/
theorem memberLine_eq_iff {ts us : List Spaced} (same : ts.map Spaced.token = us.map Spaced.token) (some : ts ≠ [])
    (apart : Apart ts) (apart' : Apart us) (quoteless : Quoteless ts) (quoteless' : Quoteless us) :
    memberLine ts = memberLine us ↔ shownGaps true ts = shownGaps true us := by
  have some' : us ≠ [] := fun none => some (by simpa [none] using same)
  have read : ∀ {ts : List Spaced}, ts ≠ [] → Apart ts → Quoteless ts →
      ∃ s, Stripped s ∧ memberLine ts = normalize s ∧ settleAll false false s = settleAll false true (blankSpell ts) := by
    intro ts some apart quoteless
    obtain ⟨t, ts, rfl⟩ := List.exists_cons_of_ne_nil some
    refine ⟨strip (blankSpell (t :: ts) ++ Gap.blanks []), stripped_strip _, (memberLine_eq some apart quoteless []).symm, ?_⟩
    have first : t.token.quoteless = true := quoteless t List.mem_cons_self
    rw [strip_blankSpell (firm_blankSpell some) (Gap.isBlank []), settleAll_token first, settleAll_cons first]
    rfl
  obtain ⟨s, stripped, line, settled⟩ := read some apart quoteless
  obtain ⟨s', stripped', line', settled'⟩ := read some' apart' quoteless'
  rw [line, line', normalize_eq_iff stripped stripped', settled, settled', settleAll_eq_iff same quoteless]

end BinderIdl.Surface
