import BinderIdl.Theorems.Contract
import BinderIdl.Theorems.Gaps

/-! The names of members. A member is written as its type, its name and what stands behind the name; whatever its layout,
    the line that is recorded for it has its name where the diff looks for it, as long as no parenthesis or literal stands
    before the name. -/

namespace BinderIdl.Surface
open Py Lex

/-! ### Settled and spaced texts in two parts -/

section Parts
variable {pending tight : Bool} {c : Char} {x : Text}

theorem settle_split (solid : isSpace c = false) (pending tight : Bool) (x : Text) :
    ∃ w, ∀ y, settle pending tight (x ++ c :: y) = w ++ c :: settle false (isPunct c) y := by
  induction x generalizing pending tight with
  | nil =>
    cases punct : isPunct c with
    | true => exact ⟨[], fun y => settle_punct punct⟩
    | false => exact ⟨held pending, fun y => settle_other solid punct⟩
  | cons d x ih =>
    by_cases space : isSpace d = true
    · obtain ⟨w, split⟩ := ih (!tight) tight
      exact ⟨w, fun y => by rw [List.cons_append, settle_blank space, split]⟩
    have solid' : isSpace d = false := by simpa using space
    by_cases punct : isPunct d = true
    · obtain ⟨w, split⟩ := ih false true
      exact ⟨d :: w, fun y => by rw [List.cons_append, settle_punct punct, split]; rfl⟩
    · have other : isPunct d = false := by simpa using punct
      obtain ⟨w, split⟩ := ih false false
      exact ⟨held pending ++ d :: w, fun y => by rw [List.cons_append, settle_other solid' other, split]; simp [held]⟩

theorem spaceAfterBracket_cons (other : c ≠ ']') (y : Text) : spaceAfterBracket (c :: y) = c :: spaceAfterBracket y := by
  rw [spaceAfterBracket]
  exact fun _ _ isBracket => absurd isBracket other

/-- Only a bracket looks at what stands behind it. -/
theorem spaceAfterBracket_split (other : c ≠ ']') (x y : Text) :
    spaceAfterBracket (x ++ c :: y) = spaceAfterBracket (x ++ [c]) ++ spaceAfterBracket y := by
  fun_induction spaceAfterBracket x with
  | case1 =>
    rw [List.nil_append, List.nil_append, spaceAfterBracket_cons other, spaceAfterBracket_cons other]
    rfl
  | case2 d x word ih => simp only [List.cons_append, spaceAfterBracket, if_pos word, ih]
  | case3 d x word ih =>
    rw [List.cons_append, List.cons_append] at ih
    simp only [List.cons_append, spaceAfterBracket, if_neg word, ih]
  | case4 d x notBracket ih =>
    by_cases bracket : d = ']'
    · cases x with
      | cons e x => exact absurd bracket fun same => notBracket e x same rfl
      | nil =>
        subst bracket
        by_cases word : isWord c = true <;> simp [spaceAfterBracket, word, spaceAfterBracket_cons other]
    · rw [List.cons_append, List.cons_append, spaceAfterBracket_cons bracket, spaceAfterBracket_cons bracket, ih]
      rfl

theorem spaceAfterBracket_word (word : isWord c = true) (x y : Text) :
    spaceAfterBracket (x ++ ']' :: c :: y) = spaceAfterBracket (x ++ [']']) ++ ' ' :: c :: spaceAfterBracket y := by
  fun_induction spaceAfterBracket x with
  | case1 => simp [spaceAfterBracket, word]
  | case2 d x word' ih => simp only [List.cons_append, spaceAfterBracket, if_pos word', ih]
  | case3 d x word' ih =>
    rw [List.cons_append, List.cons_append] at ih
    simp only [List.cons_append, spaceAfterBracket, if_neg word', ih]
  | case4 d x notBracket ih =>
    by_cases bracket : d = ']'
    · cases x with
      | cons e x => exact absurd bracket fun same => notBracket e x same rfl
      | nil =>
        have notWord : isWord ']' = false := by decide
        subst bracket
        simp [spaceAfterBracket, word, notWord]
    · rw [List.cons_append, List.cons_append, spaceAfterBracket_cons bracket, spaceAfterBracket_cons bracket, ih]
      rfl

theorem spacing_split (other : isPunct c = false) (x y : Text) :
    spacing (x ++ c :: y) = spacing (x ++ [c]) ++ spacing y := by
  have ne : ∀ {d : Char}, isPunct d = true → c ≠ d := by
    rintro d punct rfl
    rw [punct] at other
    cases other
  have single : ∀ (d : Char) (r x y : Text), isPunct d = true →
      replaceChar d r (x ++ c :: y) = replaceChar d r x ++ c :: replaceChar d r y := by
    intro d r x y punct
    rw [replaceChar, List.flatMap_append, List.flatMap_cons, if_neg (ne punct)]
    rfl
  rw [spacing, spacing, spacing, single _ _ _ _ (by decide), single _ _ _ _ (by decide), single _ _ x [] (by decide),
    single _ _ _ _ (by decide), spaceAfterBracket_split (ne (by decide))]
  rfl

/-- A word takes no blanks. -/
theorem spacing_word {n : Text} (word : ∀ c ∈ n, isWord c = true) : spacing n = n := by
  have none : ∀ {d : Char}, isWord d = false → d ∉ n := fun notWord member => ne_of_isWord (word _ member) notWord rfl
  rw [spacing, replaceChar_of_not_mem (none (by decide)), replaceChar_of_not_mem (none (by decide)),
    spaceAfterBracket_of_not_mem (none (by decide))]

theorem settle_word {n : Text} (some : n ≠ []) (word : ∀ c ∈ n, isWord c = true) (pending tight : Bool) :
    settle pending tight n = held pending ++ n := by
  induction n generalizing pending tight with
  | nil => exact absurd rfl some
  | cons c n ih =>
    rw [List.forall_mem_cons] at word
    have other : isPunct c = false := by
      by_contra punct
      rw [not_isWord_of_isPunct (by simpa using punct)] at word
      cases word.1
    rw [settle_other (not_isSpace_of_isWord word.1) other]
    by_cases last : n = []
    · rw [last, held]
      rfl
    · rw [ih last word.2, held]
      rfl

/-- A word behind a type stands after one blank. -/
theorem flush_word {d : Char} {g n : Text} (solid : isSpace d = false) (far : d = ']' ∨ isPunct d = false ∧ g ≠ [])
    (blank : ∀ c ∈ g, isSpace c = true) (some : n ≠ []) (word : ∀ c ∈ n, isWord c = true) :
    flush (x ++ d :: (g ++ n)) = flush (x ++ [d]) ++ ' ' :: n := by
  obtain ⟨w, split⟩ := settle_split solid false false x
  rw [flush_eq, flush_eq, split, split]
  rcases far with rfl | ⟨other, gap⟩
  · have bracket : isPunct ']' = true := by decide
    obtain ⟨c, n, rfl⟩ := List.exists_cons_of_ne_nil some
    have replaced : ∀ (d : Char) (r x y : Text), d ≠ ']' → replaceChar d r (x ++ ']' :: y) = replaceChar d r x ++ ']' :: replaceChar d r y := by
      intro d r x y other
      rw [replaceChar, List.flatMap_append, List.flatMap_cons, if_neg other.symm]
      rfl
    have none : ∀ {d : Char}, isWord d = false → d ∉ c :: n := fun notWord member => ne_of_isWord (word _ member) notWord rfl
    rw [bracket, settle_blanks_tight blank, settle_word some word]
    show spacing (w ++ ']' :: c :: n) = spacing (w ++ ']' :: []) ++ ' ' :: c :: n
    rw [spacing, spacing, replaced _ _ w (c :: n) (by decide), replaced _ _ _ _ (by decide), replaced _ _ w [] (by decide),
      replaced _ _ _ _ (by decide), replaceChar_of_not_mem (none (by decide)), replaceChar_of_not_mem (none (by decide)),
      spaceAfterBracket_word (word c List.mem_cons_self),
      spaceAfterBracket_of_not_mem fun member => none (by decide) (List.mem_cons_of_mem _ member)]
    rfl
  · have one : settle false false (g ++ n) = ' ' :: n := by
      obtain ⟨c, g, rfl⟩ := List.exists_cons_of_ne_nil gap
      rw [List.forall_mem_cons] at blank
      rw [List.cons_append, settle_blank blank.1, Bool.not_false, settle_pending,
        List.dropWhile_append_of_pos blank.2, ← settle_pending, settle_word some word]
      rfl
    have space : isPunct ' ' = false := by decide
    have front := spacing_split space [] n
    have alone : spacing [' '] = [' '] := by
      rw [spacing, replaceChar_of_not_mem (by decide), replaceChar_of_not_mem (by decide),
        spaceAfterBracket_of_not_mem (by decide)]
    rw [List.nil_append, List.nil_append, alone, spacing_word word] at front
    rw [other, one, spacing_split other, front]
    rfl

/-- What stands behind a word is written behind it: a parenthesis as it is, an equals sign after a blank. -/
theorem normalizeFrom_word {d c : Char} {g : Text} (solid : isSpace d = false) (other : isPunct d = false)
    (blank : ∀ c ∈ g, isSpace c = true) (mark : isPunct c = true) (x r : Text) :
    ∃ z y, normalizeFrom (x ++ [d]) (g ++ c :: r) = flush (x ++ [d]) ++ spacing (c :: z) ++ y := by
  have reads : ∀ t buf : Text, ∃ x y, normalizeFrom buf t = flush (buf ++ x) ++ y := by
    intro t buf
    fun_induction normalizeFrom buf t with
    | case1 buf => exact ⟨[], [], by simp⟩
    | case2 buf u _ => exact ⟨[], '"' :: (stringEnd u).1 ++ normalizeFrom [] (stringEnd u).2, by simp⟩
    | case3 buf c u _ ih =>
      obtain ⟨x, y, same⟩ := ih
      exact ⟨c :: x, y, by rw [same]; simp⟩
  have code : '"' ∉ g ++ [c] := by
    simp only [List.mem_append, List.mem_singleton, not_or]
    refine ⟨fun member => absurd (blank _ member) (by decide), ?_⟩
    rintro rfl
    cases mark
  obtain ⟨z, y, read⟩ := reads r (x ++ [d] ++ (g ++ [c]))
  obtain ⟨w, split⟩ := settle_split solid false false x
  refine ⟨settle false true z, y, ?_⟩
  have text : x ++ [d] ++ (g ++ [c]) ++ z = x ++ d :: (g ++ c :: z) := by simp
  rw [show g ++ c :: r = g ++ [c] ++ r by simp, normalizeFrom_append code, read, text, flush_eq, flush_eq, split, split,
    settle_blanks_punct blank mark, other, spacing_split other]
  rfl

theorem spacing_paren (z : Text) : spacing ('(' :: z) = '(' :: spacing z := by
  simp [spacing, replaceChar, spaceAfterBracket]

theorem spacing_assign (z : Text) : spacing ('=' :: z) = ' ' :: '=' :: ' ' :: spacing z := by
  simp [spacing, replaceChar, spaceAfterBracket]

theorem spacing_cons (other : c ≠ '=') (y : Text) : ∃ z, spacing (c :: y) = c :: z := by
  have first : ∀ d : Char, d ≠ '=' → ∀ u, ∃ z, spaceAfterBracket (replaceChar '=' " = ".toList (d :: u)) = d :: z := by
    intro d notAssign u
    rw [replaceChar, List.flatMap_cons, if_neg notAssign, List.singleton_append]
    by_cases bracket : d = ']'
    · subst bracket
      generalize u.flatMap _ = w
      cases w with
      | nil => exact ⟨[], by simp [spaceAfterBracket]⟩
      | cons e v =>
        by_cases word : isWord e = true
        · exact ⟨' ' :: e :: spaceAfterBracket v, by simp [spaceAfterBracket, word]⟩
        · exact ⟨spaceAfterBracket (e :: v), by simp [spaceAfterBracket, word]⟩
    · exact ⟨_, spaceAfterBracket_cons bracket _⟩
  by_cases comma : c = ','
  · subst comma
    exact first ',' (by decide) (' ' :: replaceChar ',' ", ".toList y)
  · have kept : replaceChar ',' ", ".toList (c :: y) = c :: replaceChar ',' ", ".toList y := by
      rw [replaceChar, List.flatMap_cons, if_neg comma]
      rfl
    rw [spacing, kept]
    exact first c other _

theorem spacing_head (notWord : isWord c = false) (y : Text) : ∀ d ∈ (spacing (c :: y)).head?, isWord d = false := by
  intro d head
  by_cases assign : c = '='
  · rw [assign, spacing_assign] at head
    rw [← Option.some.inj head]
    decide
  · obtain ⟨z, text⟩ := spacing_cons assign y
    rw [text] at head
    rw [← Option.some.inj head]
    exact notWord

/-- What is written for a text that starts with no word starts with none. -/
theorem flush_head (behind : ∀ c ∈ x.head?, isWord c = false) : ∀ c ∈ (flush x).head?, isWord c = false := by
  rw [flush_eq]
  have solid : ∀ (d : Char) (u : Text) (p t : Bool), isSpace d = false → isWord d = false →
      ∀ c ∈ (spacing (settle p t (d :: u))).head?, isWord c = false := by
    intro d u p t firm notWord
    cases punct : isPunct d with
    | true =>
      rw [settle_punct punct]
      exact spacing_head notWord _
    | false =>
      rw [settle_other firm punct]
      cases p with
      | true => exact spacing_head (by decide) _
      | false => exact spacing_head notWord _
  cases x with
  | nil => exact fun c head => by simp [settle, spacing, replaceChar, spaceAfterBracket] at head
  | cons d u =>
    by_cases space : isSpace d = true
    · rw [settle_blank space, Bool.not_false, settle_pending]
      cases rest : u.dropWhile isSpace with
      | nil => exact spacing_head (by decide) _
      | cons e v =>
        have firm : isSpace e = false := by
          have first := List.head_dropWhile_not (p := isSpace) (l := u) (by rw [rest]; exact List.cons_ne_nil e v)
          simpa only [rest, List.head_cons] using first
        cases punct : isPunct e with
        | true =>
          rw [settle_punct punct]
          exact spacing_head (not_isWord_of_isPunct punct) _
        | false =>
          rw [settle_other firm punct]
          exact spacing_head (by decide) _
    · exact solid d u false false (by simpa using space) (behind d rfl)

/-- A word in front is written as it is. -/
theorem flush_front_word {n : Text} (some : n ≠ []) (word : ∀ c ∈ n, isWord c = true) (r : Text) :
    flush (n ++ r) = n ++ flush r := by
  obtain ⟨n', c, rfl⟩ := (List.eq_nil_or_concat' n).resolve_left some
  have last := word c (by simp)
  have other : isPunct c = false := by
    by_contra punct
    rw [not_isWord_of_isPunct (by simpa using punct)] at last
    cases last
  obtain ⟨w, split⟩ := settle_split (not_isSpace_of_isWord last) false false n'
  have whole := settle_word some word false false
  rw [split, other, settle, if_neg (by simp), held] at whole
  have text : settle false false (n' ++ [c] ++ r) = n' ++ c :: settle false false r := by
    have same : w = n' := List.append_cancel_right whole
    rw [List.append_assoc, List.singleton_append, split, other, same]
  rw [flush_eq, text, spacing_split other, spacing_word word, flush_eq]

theorem rstrip_split (solid : isSpace c = false) (x y : Text) : ∃ z, rstrip (x ++ c :: y) = x ++ c :: z := by
  have cut : (y.reverse ++ c :: x.reverse).dropWhile isSpace = y.reverse.dropWhile isSpace ++ c :: x.reverse := by
    by_cases blank : y.reverse.dropWhile isSpace = []
    · rw [blank, List.dropWhile_append_of_pos (List.dropWhile_eq_nil_iff.mp blank), List.dropWhile_cons_of_neg (by simp [solid])]
      rfl
    · exact dropWhile_append_of_ne_nil blank _
  refine ⟨(y.reverse.dropWhile isSpace).reverse, ?_⟩
  rw [rstrip, List.rdropWhile, List.reverse_append, List.reverse_cons, List.append_assoc, List.singleton_append, cut]
  simp

end Parts

/-! ### Names on a line -/

section Names
variable {x r n : Text}

/-- The method pattern matches no word of a text without a parenthesis. -/
theorem methodMatch_pass (plain : ∀ c ∈ x, c ≠ '(' ∧ c ≠ '=') (behind : ∀ v, r.dropWhile isSpace ≠ '(' :: v)
    (apart : (∀ c ∈ x.getLast?, isWord c = false) ∨ ∀ v, (r.dropWhile isWord).dropWhile isSpace ≠ '(' :: v) :
    methodMatch (x ++ r) = methodMatch r := by
  induction x with
  | nil => rfl
  | cons c x ih =>
    have rest : methodMatch (x ++ r) = methodMatch r := by
      refine ih (fun d member => plain d (List.mem_cons_of_mem _ member)) (apart.imp_left fun ends d last => ?_)
      refine ends d ?_
      cases x with
      | nil => cases last
      | cons e x => rwa [List.getLast?_cons_cons]
    have unmatched : ∀ v, ((c :: x ++ r).dropWhile isWord).dropWhile isSpace ≠ '(' :: v := by
      intro v found
      by_cases whole : (c :: x).dropWhile isWord = []
      · rw [List.dropWhile_append_of_pos (List.dropWhile_eq_nil_iff.mp whole)] at found
        rcases apart with ends | apart
        · have last := List.getLast?_eq_some_getLast (List.cons_ne_nil c x)
          have word := List.dropWhile_eq_nil_iff.mp whole _ (List.getLast_mem (List.cons_ne_nil c x))
          rw [ends _ last] at word
          cases word
        · exact apart v found
      · rw [dropWhile_append_of_ne_nil whole] at found
        by_cases blank : ((c :: x).dropWhile isWord).dropWhile isSpace = []
        · rw [List.dropWhile_append_of_pos (List.dropWhile_eq_nil_iff.mp blank)] at found
          exact behind v found
        · rw [dropWhile_append_of_ne_nil blank] at found
          obtain ⟨d, y, head⟩ := List.exists_cons_of_ne_nil blank
          rw [head] at found
          have member : d ∈ c :: x := (List.dropWhile_suffix isWord).subset
            ((List.dropWhile_suffix isSpace).subset (head ▸ List.mem_cons_self))
          exact (plain d member).1 (List.cons.inj found).1
    rw [List.cons_append] at unmatched ⊢
    rw [methodMatch]
    split
    · rename_i paren
      exact absurd paren (unmatched _)
    · rw [if_neg (by simpa using plain c List.mem_cons_self), rest]

/-- What is left of a text that ends in a blank when its annotations are removed. -/
theorem bare_pass (plain : ∀ c ∈ x, c ≠ '"' ∧ c ≠ '(') (ends : ∀ c ∈ x.getLast?, c = ' ')
    (behind : ∀ v, r.dropWhile isSpace ≠ '(' :: v) :
    ∃ v, (∀ c ∈ v, c ∈ x) ∧ v.getLast? = x.getLast? ∧ bare (x ++ r) = v ++ bare r := by
  induction size : x.length using Nat.strong_induction_on generalizing x with
  | _ k ih =>
    subst size
    cases x with
    | nil => exact ⟨[], fun _ member => member, rfl, rfl⟩
    | cons c x =>
      have endsTail : ∀ d ∈ x.getLast?, d = ' ' := by
        intro d last
        refine ends d ?_
        cases x with
        | nil => cases last
        | cons e x => rwa [List.getLast?_cons_cons]
      have plainTail : ∀ d ∈ x, d ≠ '"' ∧ d ≠ '(' := fun d member => plain d (List.mem_cons_of_mem _ member)
      by_cases annotation : c = '@'
      · subst annotation
        -- the name of the annotation stops inside the text
        have some : x ≠ [] := by
          rintro rfl
          exact absurd (ends '@' rfl) (by decide)
        have last := List.getLast?_eq_some_getLast some
        have stop : x.dropWhile isWord ≠ [] := by
          intro whole
          have word := List.dropWhile_eq_nil_iff.mp whole _ (List.getLast_mem some)
          rw [endsTail _ last] at word
          exact absurd word (by decide)
        have suffix := List.dropWhile_suffix (l := x) isWord
        have unmatched : ∀ v, (x.dropWhile isWord ++ r).dropWhile isSpace ≠ '(' :: v := by
          intro v found
          by_cases blank : (x.dropWhile isWord).dropWhile isSpace = []
          · rw [List.dropWhile_append_of_pos (List.dropWhile_eq_nil_iff.mp blank)] at found
            exact behind v found
          · rw [dropWhile_append_of_ne_nil blank] at found
            obtain ⟨d, y, head⟩ := List.exists_cons_of_ne_nil blank
            rw [head] at found
            exact (plainTail d (suffix.subset ((List.dropWhile_suffix isSpace).subset (head ▸ List.mem_cons_self)))).2
              (List.cons.inj found).1
        have same : (x.dropWhile isWord).getLast? = x.getLast? := by
          obtain ⟨y, whole⟩ := suffix
          rw [← whole, List.getLast?_append_of_ne_nil _ stop, whole]
        obtain ⟨v, inside, last', read⟩ := @ih _ (Nat.lt_succ_of_le suffix.length_le) (x.dropWhile isWord)
          (fun d member => plainTail d (suffix.subset member)) (same ▸ endsTail) rfl
        refine ⟨v, fun d member => List.mem_cons_of_mem _ (suffix.subset (inside d member)), ?_, ?_⟩
        · rw [last', same, last]
          obtain ⟨d, x, rfl⟩ := List.exists_cons_of_ne_nil some
          rw [List.getLast?_cons_cons, last]
        · rw [List.cons_append, bare, dropWhile_append_of_ne_nil stop]
          split
          · rename_i paren
            exact absurd paren (unmatched _)
          · exact read
      · obtain ⟨v, inside, last, read⟩ := @ih _ (Nat.lt_succ_self _) x plainTail endsTail rfl
        refine ⟨c :: v, ?_, ?_, ?_⟩
        · intro d member
          rcases List.mem_cons.mp member with rfl | member
          · exact List.mem_cons_self
          · exact List.mem_cons_of_mem _ (inside d member)
        · cases x with
          | nil =>
            have none : v = [] := List.getLast?_eq_none_iff.mp last
            rw [none]
          | cons e x =>
            cases v with
            | nil => cases last
            | cons f v => rw [List.getLast?_cons_cons, List.getLast?_cons_cons, last]
        · rw [List.cons_append, bare, read]
          · rfl
          · exact (plain c List.mem_cons_self).1
          · exact annotation

theorem bare_word (word : ∀ c ∈ n, isWord c = true) (r : Text) : bare (n ++ r) = n ++ bare r := by
  induction n with
  | nil => rfl
  | cons c n ih =>
    rw [List.forall_mem_cons] at word
    rw [List.cons_append, bare, ih word.2]
    · rfl
    · exact ne_of_isWord word.1 (by decide)
    · exact ne_of_isWord word.1 (by decide)

/-- The last word of a text. -/
theorem getLast_words {g : Text} (isWord : IsWord n) (blank : g = [] ∨ g = [' ']) : (words (x ++ ' ' :: (n ++ g))).getLast? = some n := by
  have behind : words (n ++ g) = [n] := by
    rcases blank with rfl | rfl
    · rw [List.append_nil, words_of_isWord isWord]
    · exact words_append_space isWord
  have split : words (x ++ ' ' :: (n ++ g)) = words x ++ words (n ++ g) := by
    rw [words, List.splitOnP_append_cons _ _ (by decide), List.filter_append]
    rfl
  rw [split, behind, List.getLast?_concat]

/-- What stands behind the name on a line: nothing, the arguments of a method, or a value. -/
inductive Tail : List Spaced → Text → Prop where
  | none : Tail [] []
  | arguments {t : Spaced} {ts : List Spaced} (opens : t.token.spell = ['(']) (w : Text) : Tail (t :: ts) ('(' :: w)
  | value {t : Spaced} {ts : List Spaced} (assigns : t.token.spell = ['=']) (w : Text) : Tail (t :: ts) (' ' :: '=' :: w)

variable {behind : List Spaced} {tail : Text}

theorem Tail.lastWord (tailed : Tail behind tail) (value : ∀ t ∈ behind.head?, t.token.spell = ['='])
    (plain : ∀ c ∈ x, c ≠ '=') (isWord : IsWord n) (word : ∀ c ∈ n, Py.isWord c = true) :
    Surface.lastWord (x ++ ' ' :: (n ++ tail)) = .ok n := by
  have before : ∀ c ∈ x ++ ' ' :: n, (c != '=') = true := by
    intro c member
    rcases List.mem_append.mp member with member | member
    · simpa using plain c member
    · rcases List.mem_cons.mp member with rfl | member
      · decide
      · simpa using ne_of_isWord (word c member) (d := '=') (by decide)
  have taken : ∃ g, (g = [] ∨ g = [' ']) ∧ (x ++ ' ' :: (n ++ tail)).takeWhile (· != '=') = x ++ ' ' :: (n ++ g) := by
    cases tailed with
    | none =>
      rw [List.append_nil]
      exact ⟨[], .inl rfl, by rw [List.append_nil, List.takeWhile_eq_self_iff.mpr before]⟩
    | arguments opens w =>
      have assigns := value _ rfl
      rw [opens] at assigns
      cases assigns
    | value _ w =>
      refine ⟨[' '], .inr rfl, ?_⟩
      have text : x ++ ' ' :: (n ++ ' ' :: '=' :: w) = x ++ ' ' :: (n ++ [' ']) ++ '=' :: w := by simp
      have all : ∀ c ∈ x ++ ' ' :: (n ++ [' ']), (c != '=') = true := by
        intro c member
        rw [← List.cons_append, ← List.append_assoc] at member
        rcases List.mem_append.mp member with member | member
        · exact before c member
        · rw [List.mem_singleton.mp member]
          decide
      rw [text, takeWhile_append_cons all (by decide)]
  obtain ⟨g, blank, read⟩ := taken
  simp only [Surface.lastWord, read, getLast_words isWord blank]
  rw [isWord.stripped]

/-- The diff finds the name of a line that has no annotation arguments before it, and it is the declared one. -/
theorem Tail.memberName {kind : Kind} (tailed : Tail behind tail) (plain : ∀ c ∈ x, c ≠ '(' ∧ c ≠ '=' ∧ c ≠ '"') (named : n ≠ [])
    (word : ∀ c ∈ n, Py.isWord c = true)
    (constant : kind = .enum ∨ isConst (x ++ ' ' :: (n ++ tail)) = true → ∀ t ∈ behind.head?, t.token.spell = ['=']) :
    Surface.memberName kind (x ++ ' ' :: (n ++ tail)) = .ok n ∧ declaredName kind (x ++ ' ' :: (n ++ tail)) = n := by
  have isWord : IsWord n := ⟨named, fun c member => not_isSpace_of_isWord (word c member)⟩
  obtain ⟨c, n', first⟩ := List.exists_cons_of_ne_nil named
  have solid : Py.isSpace c = false := isWord.solid c (first ▸ List.mem_cons_self)
  have notParen : c ≠ '(' := ne_of_isWord (word c (first ▸ List.mem_cons_self)) (by decide)
  have closed : ∀ v, (n ++ tail).dropWhile isSpace ≠ '(' :: v := by
    intro v
    rw [first, List.cons_append, List.dropWhile_cons_of_neg (by simp [solid])]
    exact fun same => notParen (List.cons.inj same).1
  have front : ∀ c ∈ x ++ [' '], c ≠ '(' ∧ c ≠ '=' ∧ c ≠ '"' := by
    intro c member
    rcases List.mem_append.mp member with member | member
    · exact plain c member
    · rw [List.mem_singleton.mp member]
      decide
  have split : x ++ ' ' :: (n ++ tail) = x ++ [' '] ++ (n ++ tail) := by simp
  by_cases entry : kind = .enum ∨ isConst (x ++ ' ' :: (n ++ tail)) = true
  · have last := tailed.lastWord (constant entry) (fun c member => (plain c member).2.1) isWord word
    rw [Surface.memberName, declaredName, if_pos entry, if_pos entry, last]
    exact ⟨rfl, rfl⟩
  constructor
  · have pass := methodMatch_pass (fun c member => ⟨(front c member).1, (front c member).2.1⟩) closed
      (.inl fun c last => by
        rw [List.getLast?_append_of_ne_nil _ (List.cons_ne_nil _ _)] at last
        rw [← Option.some.inj last]
        decide)
    rw [← split] at pass
    have unnamed : methodMatch (n ++ tail) = .none → (∀ t ∈ behind.head?, t.token.spell = ['=']) →
        Surface.memberName kind (x ++ ' ' :: (n ++ tail)) = .ok n := by
      intro nothing value
      rw [Surface.memberName, if_neg entry, pass, nothing]
      exact tailed.lastWord value (fun c member => (plain c member).2.1) isWord word
    have inName : ∀ c ∈ n, c ≠ '(' ∧ c ≠ '=' := fun c member =>
      ⟨ne_of_isWord (word c member) (by decide), ne_of_isWord (word c member) (by decide)⟩
    cases tailed with
    | none =>
      refine unnamed ?_ fun _ first => by cases first
      rw [methodMatch_pass (r := []) inName (by simp) (.inr (by simp)), methodMatch]
    | arguments opens w =>
      have all : n.takeWhile Py.isWord = n := List.takeWhile_eq_self_iff.mpr word
      have taken := takeWhile_append_cons (p := Py.isWord) word (show Py.isWord '(' = false by decide) w
      have dropped := dropWhile_append_cons (p := Py.isWord) word (show Py.isWord '(' = false by decide) w
      have found : methodMatch (n ++ '(' :: w) = some n := by
        rw [first, List.cons_append] at taken dropped ⊢
        rw [methodMatch, taken, dropped, List.dropWhile_cons_of_neg (by decide)]
        rfl
      rw [Surface.memberName, if_neg entry, pass, found]
    | value assigns w =>
      have sign : ∀ v, ('=' :: w).dropWhile isSpace ≠ '(' :: v := by
        intro v
        rw [List.dropWhile_cons_of_neg (by decide)]
        exact fun same => absurd (List.cons.inj same).1 (by decide)
      have apart : ∀ v, (('=' :: w).dropWhile Py.isWord).dropWhile isSpace ≠ '(' :: v := by
        rwa [List.dropWhile_cons_of_neg (by decide)]
      have inside : ∀ c ∈ n ++ [' '], c ≠ '(' ∧ c ≠ '=' := by
        intro c member
        rcases List.mem_append.mp member with member | member
        · exact inName c member
        · rw [List.mem_singleton.mp member]
          decide
      have blank : ('=' :: w).takeWhile Py.isWord = [] := List.takeWhile_cons_of_neg (by decide)
      refine unnamed ?_ fun t first => by rw [← Option.some.inj first]; exact assigns
      rw [List.append_cons, methodMatch_pass inside sign (.inr apart), methodMatch, blank]
      simp
  · obtain ⟨v, inside, last, read⟩ := bare_pass (x := x ++ [' ']) (r := n ++ tail)
      (fun c member => ⟨(front c member).2.2, (front c member).1⟩)
      (fun c last => by
        rw [List.getLast?_append_of_ne_nil _ (List.cons_ne_nil _ _)] at last
        exact (Option.some.inj last).symm) closed
    obtain ⟨w, whole⟩ : ∃ w, v = w ++ [' '] := by
      rw [List.getLast?_concat] at last
      exact List.getLast?_eq_some_iff.mp last
    have away : ∀ c ∈ v ++ n, (c != '(' && c != '=') = true := by
      intro c member
      rcases List.mem_append.mp member with member | member
      · have away := front c (inside c member)
        simp [away.1, away.2.1]
      · simp [ne_of_isWord (word c member) (d := '(') (by decide), ne_of_isWord (word c member) (d := '=') (by decide)]
    have cut : rstrip ((v ++ (n ++ bare tail)).takeWhile fun c => c != '(' && c != '=') = v ++ n := by
      have firm : ∀ g, (∀ c ∈ g, isSpace c = true) → rstrip (v ++ n ++ g) = v ++ n := by
        intro g blank
        have stop := isWord.solid _ (List.getLast_mem named)
        have ends := rstrip_of_last stop (v ++ n.dropLast)
        rw [List.append_assoc, List.dropLast_append_getLast] at ends
        rw [rstrip_append_of_space blank, ends]
      rw [← List.append_assoc]
      cases tailed with
      | none =>
        have none : bare [] = [] := by rw [bare]
        rw [none, List.append_nil, List.takeWhile_eq_self_iff.mpr away]
        have same := firm [] (fun _ member => absurd member List.not_mem_nil)
        rwa [List.append_nil] at same
      | arguments _ w =>
        have opens : bare ('(' :: w) = '(' :: bare w := by rw [bare] <;> simp
        rw [opens, takeWhile_append_cons away (by decide)]
        have same := firm [] (fun _ member => absurd member List.not_mem_nil)
        rwa [List.append_nil] at same
      | value _ w =>
        have assigns : bare (' ' :: '=' :: w) = ' ' :: '=' :: bare w := by
          rw [bare, bare] <;> simp
        have all : ∀ c ∈ v ++ n ++ [' '], (c != '(' && c != '=') = true := by
          intro c member
          rcases List.mem_append.mp member with member | member
          · exact away c member
          · rw [List.mem_singleton.mp member]
            decide
        have text : v ++ n ++ ' ' :: '=' :: bare w = v ++ n ++ [' '] ++ '=' :: bare w := by simp
        rw [assigns, text, takeWhile_append_cons all (by decide)]
        exact firm [' '] (fun c member => List.mem_singleton.mp member ▸ by decide)
    rw [declaredName, if_neg entry, split, read, bare_word word, cut, whole, List.rtakeWhile, List.reverse_append, List.reverse_append]
    have stop : ([' '].reverse ++ w.reverse) = ' ' :: w.reverse := rfl
    rw [stop, takeWhile_append_cons (fun c member => word c (List.mem_reverse.mp member)) (by decide), List.reverse_reverse]

end Names

/-! ### Members by their tokens -/

/-- A member: what stands before its name, which is its type with any annotations, and what stands behind it. -/
structure MemberTerm where
  before : List Spaced
  gap : Gap
  name : Word
  behind : List Spaced

def MemberTerm.tokens (m : MemberTerm) : List Spaced := m.before ++ ⟨m.gap, .word m.name⟩ :: m.behind

/-- A token of a type: no literal, parenthesis or equals sign. -/
def Token.isTyping : Token → Bool
  | .word _ => true
  | .symbol s => s.char != '(' && s.char != '='
  | _ => false

/-- The type is there, the name stands apart from it, and behind it stand arguments, a value or nothing; behind the name
    of a constant stands its value. -/
structure MemberTerm.Plain (m : MemberTerm) : Prop where
  typed : m.before ≠ []
  typing : ∀ t ∈ m.before, t.token.isTyping = true
  far : ∀ t ∈ m.before.getLast?, t.token.spell = [']'] ∨ t.token.isMark = false ∧ m.gap ≠ []
  behind : ∀ t ∈ m.behind.head?, t.token.spell = ['('] ∨ t.token.spell = ['=']
  constant : (∃ t ∈ m.before.head?, t.token.spell = "const".toList) → ∀ t ∈ m.behind.head?, t.token.spell = ['=']

theorem Token.typing_spell {t : Token} (typing : t.isTyping = true) : (∀ c ∈ t.spell, c ≠ '(' ∧ c ≠ '=' ∧ c ≠ '"') ∧
    ∃ v d, t.spell = v ++ [d] ∧ isSpace d = false ∧ isPunct d = t.isMark := by
  cases t with
  | string l => cases typing
  | char c single => cases typing
  | symbol s =>
    have other : s.char ≠ '(' ∧ s.char ≠ '=' := by simpa [Token.isTyping] using typing
    refine ⟨fun c member => ?_, [], s.char, rfl, s.solid, rfl⟩
    rw [List.mem_singleton.mp member]
    exact ⟨other.1, other.2, s.notQuote.1⟩
  | word w =>
    refine ⟨fun c member => ?_, ?_⟩
    · have word := w.isWord_of_mem member
      exact ⟨ne_of_isWord word (by decide), ne_of_isWord word (by decide), ne_of_isWord word (by decide)⟩
    · have word := w.isWord_of_mem (List.getLast_mem w.nonempty)
      refine ⟨w.text.dropLast, w.text.getLast w.nonempty, (List.dropLast_append_getLast w.nonempty).symm,
        not_isSpace_of_isWord word, ?_⟩
      show isPunct _ = false
      by_contra punct
      rw [not_isWord_of_isPunct (by simpa using punct)] at word
      cases word

/-- The line of some tokens of a type starts with the first of them. -/
theorem typing_start {b : Spaced} {bs : List Spaced} (typing : b.token.isTyping = true) (apart : Apart (b :: bs))
    (more : ∀ t ∈ bs, t.token.isTyping = true) :
    (lstrip (flush (b.token.spell ++ blankSpell bs))).takeWhile isWord = b.token.spell.takeWhile isWord := by
  cases token : b.token with
  | string l =>
    rw [token] at typing
    cases typing
  | char c single =>
    rw [token] at typing
    cases typing
  | symbol s =>
    have notAssign : s.char ≠ '=' := by
      have other : s.char ≠ '(' ∧ s.char ≠ '=' := by simpa [Token.isTyping, token] using typing
      exact other.2
    obtain ⟨w, read⟩ : ∃ w, settle false false ([s.char] ++ blankSpell bs) = s.char :: w := by
      cases punct : isPunct s.char with
      | true => exact ⟨_, settle_punct punct⟩
      | false => exact ⟨_, settle_other s.solid punct⟩
    obtain ⟨z, line⟩ := spacing_cons notAssign w
    rw [Token.spell, flush_eq, read, line, lstrip, List.dropWhile_cons_of_neg (by simp [s.solid]),
      List.takeWhile_cons_of_neg (by simp [s.notWord]), List.takeWhile_cons_of_neg (by simp [s.notWord])]
  | word w =>
    have word : ∀ c ∈ w.text, isWord c = true := fun c => w.isWord_of_mem
    have behind : ∀ c ∈ (blankSpell bs).head?, isWord c = false := by
      cases bs with
      | nil => exact fun c head => by cases head
      | cons t ts =>
        have before : b.Before t := (List.isChain_cons_cons.mp apart).1
        intro c head
        obtain ⟨gap, u⟩ := t
        cases gap with
        | cons f gap =>
          obtain ⟨d, g, first⟩ := List.exists_cons_of_ne_nil (Gap.blanks_ne_nil (List.cons_ne_nil f gap))
          have blank := Gap.isBlank (f :: gap) d (by rw [first]; exact List.mem_cons_self)
          rw [blankSpell_cons, first] at head
          rw [← Option.some.inj head]
          by_contra inWord
          rw [not_isSpace_of_isWord (by simpa using inWord)] at blank
          cases blank
        | nil =>
          cases u with
          | word v => rw [Spaced.Before, token] at before; cases before
          | symbol s =>
            rw [← Option.some.inj head]
            exact s.notWord
          | string l => cases more _ List.mem_cons_self
          | char c single => cases more _ List.mem_cons_self
    have solid : lstrip (w.text ++ flush (blankSpell bs)) = w.text ++ flush (blankSpell bs) := by
      obtain ⟨c, n, text⟩ := List.exists_cons_of_ne_nil w.nonempty
      rw [text, List.cons_append, lstrip, List.dropWhile_cons_of_neg]
      simp [not_isSpace_of_isWord (word c (text ▸ List.mem_cons_self))]
    have stop : (flush (blankSpell bs)).takeWhile isWord = [] := by
      cases rest : flush (blankSpell bs) with
      | nil => rfl
      | cons c u => exact List.takeWhile_cons_of_neg (by simp [flush_head behind c (by rw [rest]; rfl)])
    rw [Token.spell, flush_front_word w.nonempty word, solid, List.takeWhile_append_of_pos word, stop, List.append_nil,
      List.takeWhile_eq_self_iff.mpr word]

/-- What stands before the name on the line: nothing that ends a name, and the first token at its start. -/
structure Front (before : List Spaced) (u : Text) : Prop where
  plain : ∀ c ∈ u, c ≠ '(' ∧ c ≠ '=' ∧ c ≠ '"'
  start : ∀ t ∈ before.head?, u.takeWhile isWord = t.token.spell.takeWhile isWord

/-- The line of a member ends in its name and what stands behind it. -/
theorem MemberTerm.line {m : MemberTerm} (plain : m.Plain) (apart : Apart m.tokens) (quoteless : Quoteless m.tokens) :
    ∃ u tail, memberLine m.tokens = u ++ ' ' :: (m.name.text ++ tail) ∧ Front m.before u ∧ Tail m.behind tail := by
  obtain ⟨b, bs, before⟩ := List.exists_cons_of_ne_nil plain.typed
  -- the text before the name, and its last character
  have far : ∃ x d, b.token.spell ++ blankSpell bs = x ++ [d] ∧ isSpace d = false ∧ (d = ']' ∨ isPunct d = false ∧ m.gap.blanks ≠ []) := by
    have some : m.before.getLast? = some ((b :: bs).getLast (List.cons_ne_nil b bs)) := by
      rw [before, List.getLast?_eq_some_getLast]
    have typing := plain.typing _ (List.mem_of_getLast? some)
    obtain ⟨v, d, spell, solid, mark⟩ := (Token.typing_spell typing).2
    have far := plain.far _ some
    have last : ∃ x, b.token.spell ++ blankSpell bs = x ++ [d] := by
      rcases List.eq_nil_or_concat' bs with rfl | ⟨cs, t, rfl⟩
      · exact ⟨v, by rw [blankSpell_nil, List.append_nil]; exact spell⟩
      · have last : (b :: (cs ++ [t])).getLast (List.cons_ne_nil _ _) = t := by simp
        rw [last] at spell
        refine ⟨b.token.spell ++ (blankSpell cs ++ (t.gap.blanks ++ v)), ?_⟩
        rw [blankSpell_append, blankSpell_cons, spell]
        simp
    obtain ⟨x, last⟩ := last
    refine ⟨x, d, last, solid, far.imp (fun bracket => ?_) fun apart => ⟨by rw [mark, apart.1], Gap.blanks_ne_nil apart.2⟩⟩
    rw [spell] at bracket
    simpa using congrArg List.getLast? bracket
  obtain ⟨x, d, text, solid, far⟩ := far
  have chars : ∀ c ∈ b.token.spell ++ blankSpell bs, isSpace c = true ∨ c ≠ '(' ∧ c ≠ '=' ∧ c ≠ '"' := by
    intro c member
    rcases List.mem_append.mp member with first | rest
    · exact .inr ((Token.typing_spell (plain.typing b (by rw [before]; exact List.mem_cons_self))).1 c first)
    · rcases mem_blankSpell rest with space | ⟨t, among, spelled⟩
      · exact .inl space
      · exact .inr ((Token.typing_spell (plain.typing t (by rw [before]; exact List.mem_cons_of_mem _ among))).1 c spelled)
  have away : ∀ c : Char, isSpace c = true → c ≠ '(' ∧ c ≠ '=' ∧ c ≠ '"' := by
    rintro c space
    refine ⟨?_, ?_, ?_⟩ <;> (rintro rfl; exact absurd space (by decide))
  have word : ∀ c ∈ m.name.text, isWord c = true := fun c => m.name.isWord_of_mem
  -- the line before the blanks at its ends are removed
  have flushed := flush_word solid far m.gap.isBlank m.name.nonempty word (x := x)
  have code : '"' ∉ x ++ d :: (m.gap.blanks ++ m.name.text) := by
    rw [← List.singleton_append, ← List.append_assoc, ← text]
    intro member
    rcases List.mem_append.mp member with first | rest
    · exact (chars _ first).elim (fun space => absurd space (by decide)) fun other => other.2.2 rfl
    · rcases List.mem_append.mp rest with blank | name
      · exact absurd (m.gap.isBlank _ blank) (by decide)
      · exact absurd (word _ name) (by decide)
  have whole : memberLine m.tokens = strip (normalizeFrom (x ++ d :: (m.gap.blanks ++ m.name.text)) (blankSpell m.behind)) := by
    have tokens : m.tokens = b :: (bs ++ ⟨m.gap, .word m.name⟩ :: m.behind) := by rw [MemberTerm.tokens, before]; rfl
    have spelled : b.token.spell ++ blankSpell (bs ++ ⟨m.gap, .word m.name⟩ :: m.behind) =
        x ++ d :: (m.gap.blanks ++ m.name.text) ++ blankSpell m.behind := by
      rw [blankSpell_append, blankSpell_cons, ← List.append_assoc, text]
      simp [Token.spell]
    rw [tokens] at apart quoteless ⊢
    rw [memberLine, stripComments_memberText apart quoteless, spelled, normalize, normalizeFrom_append code, List.nil_append]
  have some : lstrip (flush (x ++ [d])) ≠ [] := by
    intro none
    have blank : dropSpaces (flush (x ++ [d])) = [] := dropSpaces_of_blank (lstrip_eq_nil_iff.mp none)
    rw [dropSpaces_flush] at blank
    have space := dropSpaces_eq_nil_iff.mp blank d (List.mem_append_right _ List.mem_cons_self)
    rw [solid] at space
    cases space
  have front : ∀ c ∈ lstrip (flush (x ++ [d])), c ≠ '(' ∧ c ≠ '=' ∧ c ≠ '"' := by
    intro c member
    by_cases space : isSpace c = true
    · exact away c space
    · have kept : c ∈ dropSpaces (flush (x ++ [d])) :=
        List.mem_filter.mpr ⟨(lstrip_suffix _).subset member, by simpa using space⟩
      rw [dropSpaces_flush, ← text] at kept
      exact (chars c (List.mem_filter.mp kept).1).resolve_left space
  have front : Front m.before (lstrip (flush (x ++ [d]))) := by
    refine ⟨front, fun t head => ?_⟩
    rw [before] at head
    obtain rfl := Option.some.inj head
    rw [← text]
    exact typing_start (plain.typing b (by rw [before]; exact List.mem_cons_self))
      (by rw [MemberTerm.tokens, before] at apart; exact apart.left_of_append)
      fun t member => plain.typing t (by rw [before]; exact List.mem_cons_of_mem _ member)
  refine ⟨lstrip (flush (x ++ [d])), ?_⟩
  have lead : ∀ r, lstrip (flush (x ++ [d]) ++ r) = lstrip (flush (x ++ [d])) ++ r := fun r => dropWhile_append_of_ne_nil some r
  obtain ⟨y, e, name, firm⟩ := m.name.firm
  have notPunct : isPunct e = false := by
    by_contra punct
    have inName : isWord e = true := word e (by rw [name]; simp)
    rw [not_isWord_of_isPunct (by simpa using punct)] at inName
    cases inName
  have ends : x ++ d :: (m.gap.blanks ++ m.name.text) = x ++ d :: (m.gap.blanks ++ y) ++ [e] := by rw [name]; simp
  cases behind : m.behind with
  | nil =>
    refine ⟨[], ?_, front, .none⟩
    rw [whole, behind, blankSpell_nil, normalizeFrom, flushed, strip, lead, List.append_nil, name, ← List.cons_append,
      ← List.append_assoc, rstrip_of_last firm]
  | cons t ts =>
    have after : ∀ {c : Char}, t.token.spell = [c] → isPunct c = true → ∃ z w, memberLine m.tokens =
        rstrip (lstrip (flush (x ++ [d])) ++ ' ' :: (m.name.text ++ (spacing (c :: z) ++ w))) := by
      intro c spell mark
      obtain ⟨z, w, read⟩ := normalizeFrom_word firm notPunct t.gap.isBlank mark (x ++ d :: (m.gap.blanks ++ y)) (blankSpell ts)
      rw [← ends, flushed] at read
      refine ⟨z, w, ?_⟩
      have text : blankSpell (t :: ts) = t.gap.blanks ++ c :: blankSpell ts := by simp [spell]
      rw [whole, behind, text, read, strip, List.append_assoc, List.append_assoc, lead]
      rfl
    rcases plain.behind t (by rw [behind]; rfl) with spell | spell
    · obtain ⟨z, w, line⟩ := after spell (by decide)
      obtain ⟨v, cut⟩ := rstrip_split (c := '(') (by decide) (lstrip (flush (x ++ [d])) ++ ' ' :: m.name.text) (spacing z ++ w)
      refine ⟨'(' :: v, ?_, front, .arguments spell v⟩
      rw [line, spacing_paren, List.cons_append, ← List.cons_append, ← List.append_assoc, cut]
      simp
    · obtain ⟨z, w, line⟩ := after spell (by decide)
      obtain ⟨v, cut⟩ := rstrip_split (c := '=') (by decide) (lstrip (flush (x ++ [d])) ++ ' ' :: (m.name.text ++ [' ']))
        (' ' :: spacing z ++ w)
      refine ⟨' ' :: '=' :: v, ?_, front, .value spell v⟩
      have text : lstrip (flush (x ++ [d])) ++ ' ' :: (m.name.text ++ (' ' :: '=' :: ' ' :: spacing z ++ w)) =
          lstrip (flush (x ++ [d])) ++ ' ' :: (m.name.text ++ [' ']) ++ '=' :: (' ' :: spacing z ++ w) := by simp
      rw [line, spacing_assign, text, cut]
      simp

/-- The diff finds a plain member under its name, which is the declared one. -/
theorem MemberTerm.named {m : MemberTerm} (plain : m.Plain) (apart : Apart m.tokens) (quoteless : Quoteless m.tokens)
    {kind : Kind} (structured : kind ≠ .enum) :
    memberName kind (memberLine m.tokens) = .ok m.name.text ∧ declaredName kind (memberLine m.tokens) = m.name.text := by
  obtain ⟨u, tail, line, front, tailed⟩ := m.line plain apart quoteless
  rw [line]
  refine tailed.memberName front.plain m.name.nonempty (fun c => m.name.isWord_of_mem) fun entry => plain.constant ?_
  obtain ⟨b, bs, before⟩ := List.exists_cons_of_ne_nil plain.typed
  refine ⟨b, by rw [before]; rfl, ?_⟩
  -- a constant is told by its first word
  obtain ⟨r, same⟩ := List.isPrefixOf_iff_prefix.mp (entry.resolve_left structured)
  have first : (u ++ ' ' :: (m.name.text ++ tail)).takeWhile isWord = "const".toList := by
    have text : "const ".toList ++ r = "const".toList ++ ' ' :: r := rfl
    rw [← same, text, takeWhile_append_cons (List.all_eq_true.mp (by decide +kernel)) (by decide)]
  have start := front.start b (by rw [before]; rfl)
  have typing := plain.typing b (by rw [before]; exact List.mem_cons_self)
  rw [takeWhile_append_stop (by decide), start] at first
  cases token : b.token with
  | word w =>
    rw [token, Token.spell, List.takeWhile_eq_self_iff.mpr fun c => w.isWord_of_mem] at first
    exact first
  | symbol s =>
    rw [token, Token.spell, List.takeWhile_cons_of_neg (by simp [s.notWord])] at first
    cases first
  | string l =>
    rw [token] at typing
    cases typing
  | char c single =>
    rw [token] at typing
    cases typing

/-! ### Lines -/

/-- Nothing in the token ends a line. -/
def Token.OneLine (t : Token) : Prop := ∀ c ∈ t.spell, isLineBreak c = false

instance (t : Token) : Decidable t.OneLine := decidable_of_iff (t.spell.all (! isLineBreak ·) = true) all_not_iff

theorem Token.within {t : Token} (quoteless : t.quoteless = true) (single : t.OneLine) :
    Within litSingle .code t.spell ∧ Mode.code.run t.spell = .code := by
  have code : (∀ c ∈ t.spell, c ≠ '"') → Within litSingle .code t.spell ∧ Mode.code.run t.spell = .code := fun plain =>
    ⟨(within_code plain).mpr fun _ _ inside => absurd rfl inside, run_code plain⟩
  cases t with
  | word w => exact code fun c member => ne_of_isWord (w.isWord_of_mem member) (by decide)
  | symbol s =>
    refine code fun c member => ?_
    rw [List.mem_singleton.mp member]
    exact s.notQuote.1
  | char c single' =>
    have notQuote : c ≠ '"' := by simpa [Token.quoteless] using quoteless
    refine code fun d member => ?_
    simp only [Token.spell, List.mem_cons, List.not_mem_nil, or_false] at member
    rcases member with rfl | rfl | rfl
    · decide
    · exact notQuote
    · decide
  | string l =>
    refine ⟨within_of_forall fun m c member _ => single c member, ?_⟩
    have closes := run_stringEnd (l.text ++ '"' :: [' '])
    rw [stringEnd_literal l.closed] at closes
    exact closes.resolve_right (List.cons_ne_nil _ _)

theorem within_blankSpell {ts : List Spaced} (quoteless : Quoteless ts) (single : ∀ t ∈ ts, t.token.OneLine) :
    Within litSingle .code (blankSpell ts) ∧ Mode.code.run (blankSpell ts) = .code := by
  induction ts with
  | nil => exact ⟨trivial, rfl⟩
  | cons t ts ih =>
    rw [Quoteless, List.forall_mem_cons] at quoteless
    rw [List.forall_mem_cons] at single
    have token := Token.within quoteless.1 single.1
    have rest := ih quoteless.2 single.2
    have blank : ∀ c ∈ t.gap.blanks, c ≠ '"' := by
      rintro c member rfl
      exact absurd (t.gap.isBlank _ member) (by decide)
    rw [blankSpell_cons, List.append_assoc, within_append, within_append, run_append, run_append, run_code blank, token.2]
    exact ⟨⟨(within_code blank).mpr fun _ _ inside => absurd rfl inside, token.1, rest.1⟩, rest.2⟩

/-- The line of tokens that end no line is read back from a dump. -/
theorem cleanLine_memberLine {ts : List Spaced} (some : ts ≠ []) (apart : Apart ts) (quoteless : Quoteless ts)
    (single : ∀ t ∈ ts, t.token.OneLine) : CleanLine (memberLine ts) := by
  rw [← memberLine_eq some apart quoteless []]
  refine cleanLine_normalize (stripped_strip _) (strip_blankSpell_ne_nil some []) (within_strip ?_)
  rw [show Gap.blanks [] = [] from rfl, List.append_nil]
  exact (within_blankSpell quoteless single).1

end BinderIdl.Surface
