import BinderIdl.Theorems.Layout
import BinderIdl.Theorems.ReadBack

/-! Declarations in any layout: which headers the parser recognises, and which statements it makes of a body. -/

namespace BinderIdl.Surface
open Py

/-! ### Ends of texts -/

/-- The text ends in a character that is not a blank. -/
def Firm (t : Text) : Prop := ∃ u c, t = u ++ [c] ∧ isSpace c = false

theorem Firm.append {t : Text} (firm : Firm t) (u : Text) : Firm (u ++ t) := by
  obtain ⟨v, c, rfl, solid⟩ := firm
  exact ⟨u ++ v, c, (List.append_assoc ..).symm, solid⟩

theorem Firm.rstrip {t : Text} (firm : Firm t) : rstrip t = t := by
  obtain ⟨u, c, rfl, solid⟩ := firm
  exact rstrip_of_last solid u

theorem Word.firm (w : Word) : Firm w.text := by
  refine ⟨w.text.dropLast, w.text.getLast w.nonempty, (List.dropLast_append_getLast w.nonempty).symm, ?_⟩
  exact not_isSpace_of_isWord (w.isWord_of_mem (List.getLast_mem w.nonempty))

theorem Token.firm (t : Token) : Firm t.spell := by
  cases t with
  | word w => exact w.firm
  | symbol s => exact ⟨[], s.char, rfl, s.solid⟩
  | string l => exact ⟨'"' :: l.text, '"', rfl, by decide⟩
  | char c single => exact ⟨['\'', c], '\'', rfl, by decide⟩

theorem firm_blankSpell {ts : List Spaced} (some : ts ≠ []) : Firm (blankSpell ts) := by
  obtain ⟨us, t, rfl⟩ := List.eq_nil_or_concat' ts |>.resolve_left some
  rw [blankSpell_append, blankSpell_cons, blankSpell_nil, List.append_nil]
  exact (t.token.firm.append _).append _

theorem firm_of_append {t : Text} {c : Char} {u : Text} (firm : Firm (t ++ c :: u)) : Firm (c :: u) := by
  obtain ⟨v, d, same, solid⟩ := firm
  rw [← List.dropLast_append_getLast (List.cons_ne_nil c u), ← List.append_assoc] at same
  obtain ⟨-, last⟩ := List.append_inj' same rfl
  refine ⟨(c :: u).dropLast, d, ?_, solid⟩
  rw [← last, List.dropLast_append_getLast]

/-- Stripping takes the blanks before and behind a text that starts and ends in something else. -/
theorem strip_between {g g' t : Text} {c : Char} (blank : ∀ c ∈ g, isSpace c = true) (blank' : ∀ c ∈ g', isSpace c = true)
    (solid : isSpace c = false) (firm : Firm (c :: t)) : strip (g ++ c :: t ++ g') = c :: t := by
  rw [strip_append_space blank blank', strip, lstrip_of_head solid]
  exact firm.rstrip

theorem dropSpaces_of_blank {g : Text} (blank : ∀ c ∈ g, isSpace c = true) : dropSpaces g = [] :=
  dropSpaces_eq_nil_iff.mpr blank

theorem dropSpaces_blankSpell (ts : List Spaced) : dropSpaces (blankSpell ts) = dropSpaces (tightSpell ts) := by
  induction ts with
  | nil => rfl
  | cons t ts ih =>
    rw [blankSpell_cons, dropSpaces_append, dropSpaces_append, ih, dropSpaces_of_blank fun _ member => Gap.isSpace_of_mem member]
    exact (dropSpaces_append t.token.spell (tightSpell ts)).symm

theorem mem_blankSpell {ts : List Spaced} {c : Char} (member : c ∈ blankSpell ts) :
    isSpace c = true ∨ ∃ t ∈ ts, c ∈ t.token.spell := by
  obtain ⟨t, among, inside⟩ := List.mem_flatMap.mp member
  rcases List.mem_append.mp inside with blank | spelt
  · exact .inl (Gap.isSpace_of_mem blank)
  · exact .inr ⟨t, among, spelt⟩

theorem takeWhile_word (w : Word) {r : Text} (word : ∀ c u, r = c :: u → isWord c = false) :
    (w.text ++ r).takeWhile isWord = w.text ∧ (w.text ++ r).dropWhile isWord = r := by
  have all : ∀ c ∈ w.text, isWord c = true := fun _ member => w.isWord_of_mem member
  cases r with
  | nil => exact ⟨by simp [List.takeWhile_eq_self_iff.mpr all], by simpa using all⟩
  | cons c u => exact ⟨takeWhile_append_cons all (word c u rfl) u, dropWhile_append_cons all (word c u rfl) u⟩

/-! ### Ends of tokens -/

theorem Gap.blanks_ne_nil {g : Gap} (some : g ≠ []) : g.blanks ≠ [] := by
  obtain ⟨f, g, rfl⟩ := List.exists_cons_of_ne_nil some
  cases f with
  | blank c space => exact List.cons_ne_nil _ _
  | line text single => exact List.cons_ne_nil _ _
  | block text unclosed => exact List.cons_ne_nil _ _

/-- A word is not continued behind the token. -/
def Token.Stops (t : Token) (r : Text) : Prop := ∀ w, t = .word w → ∀ c u, r = c :: u → isWord c = false

theorem Spaced.Before.stops {a b : Spaced} (before : a.Before b) (ts : List Spaced) (r : Text) :
    a.token.Stops (blankSpell (b :: ts) ++ r) := by
  rintro w word c u same
  obtain ⟨gap, token⟩ := b
  have text : gap.blanks ++ (token.spell ++ (blankSpell ts ++ r)) = c :: u := by simpa using same
  cases gap with
  | nil =>
    rw [Spaced.Before, word] at before
    cases token with
    | word w' => cases before
    | symbol s =>
      cases text
      exact s.notWord
    | string l =>
      cases text
      decide
    | char e single =>
      cases text
      decide
  | cons f gap =>
    obtain ⟨d, v, first⟩ := List.exists_cons_of_ne_nil (Gap.blanks_ne_nil (List.cons_ne_nil f gap))
    rw [first] at text
    cases text
    exact not_isWord_of_isSpace (Gap.isBlank (f :: gap) c (by rw [first]; exact List.mem_cons_self))

/-- The word that stands at the start of a text is the keyword that is matched there. -/
theorem takeWhile_of_keywordMatch {kw t u : Text} (word : kw.all isWord = true) (found : keywordMatch kw t = some u) :
    t.takeWhile isWord = kw := by
  obtain ⟨g, some, blank, rfl⟩ := keywordMatch_spec found
  obtain ⟨c, g, rfl⟩ := List.exists_cons_of_ne_nil some
  rw [List.append_assoc, List.cons_append]
  exact takeWhile_append_cons (List.all_eq_true.mp word) (not_isWord_of_isSpace (blank c List.mem_cons_self)) _

theorem Token.takeWhile_spell {t : Token} {r : Text} (stops : t.Stops r) :
    (t.spell ++ r).takeWhile isWord = t.spell ∨ (t.spell ++ r).takeWhile isWord = [] := by
  cases t with
  | word w => exact .inl (takeWhile_word w (stops w rfl)).1
  | symbol s => exact .inr (List.takeWhile_cons_of_neg (by simp [s.notWord]))
  | string l => exact .inr (List.takeWhile_cons_of_neg (by decide))
  | char c single => exact .inr (List.takeWhile_cons_of_neg (by decide))

/-! ### Annotations -/

/-- No brace stands between the parentheses, and no char literal of a character that the scanner looks for. -/
def AnnotationTerm.Plain (a : AnnotationTerm) : Prop := ∀ t ∈ a.inside, t.token.plain = true

instance (a : AnnotationTerm) : Decidable a.Plain := inferInstanceAs (Decidable (∀ _ ∈ _, _))

/-- No closing parenthesis stands between the parentheses, in the literals neither. -/
def AnnotationTerm.Closed (a : AnnotationTerm) : Prop := ∀ t ∈ a.inside, ')' ∉ t.token.spell

/-- The literals hold no blank. -/
def AnnotationTerm.Kept (a : AnnotationTerm) : Prop := ∀ t ∈ a.inside, ∀ c ∈ t.token.spell, isSpace c = false

theorem AnnotationTerm.mem_tokens {a : AnnotationTerm} {t : Spaced} (member : t ∈ a.tokens) :
    t ∈ a.inside ∨ t.token = .word a.name ∨ t.token = .symbol .at ∨ t.token = .symbol .openParen ∨
      t.token = .symbol .closeParen := by
  rw [AnnotationTerm.tokens] at member
  rcases List.mem_cons.mp member with rfl | member
  · exact .inr (.inr (.inl rfl))
  rcases List.mem_cons.mp member with rfl | member
  · exact .inr (.inl rfl)
  rw [AnnotationTerm.inside]
  cases found : a.arguments with
  | none =>
    rw [found] at member
    cases member
  | some args =>
    rw [found] at member
    rcases List.mem_cons.mp member with rfl | member
    · exact .inr (.inr (.inr (.inl rfl)))
    rcases List.mem_append.mp member with among | last
    · exact .inl among
    · rw [List.mem_singleton.mp last]
      exact .inr (.inr (.inr (.inr rfl)))

/-- The text of an annotation from its `@` on. -/
def AnnotationTerm.body (a : AnnotationTerm) : Text :=
  '@' :: a.name.text ++
    match a.arguments with
    | some args => args.before.blanks ++ '(' :: (blankSpell args.tokens ++ args.after.blanks) ++ [')']
    | none => []

theorem AnnotationTerm.blankSpell_tokens (a : AnnotationTerm) : blankSpell a.tokens = a.gap.blanks ++ a.body := by
  rw [AnnotationTerm.tokens, AnnotationTerm.body]
  cases a.arguments with
  | none => simp [Gap.blanks, Token.spell, Symbol.at]
  | some args => simp [blankSpell_append, Gap.blanks, Token.spell, Symbol.at, Symbol.openParen, Symbol.closeParen]

/-- The annotation as it is recorded. -/
def AnnotationTerm.recorded (a : AnnotationTerm) : Text := dropSpaces a.text

theorem AnnotationTerm.dropSpaces_body (a : AnnotationTerm) : dropSpaces a.body = a.recorded := by
  have whole := dropSpaces_blankSpell a.tokens
  rw [blankSpell_tokens, dropSpaces_append, dropSpaces_of_blank a.gap.isBlank] at whole
  exact whole

theorem AnnotationTerm.solid_text {a : AnnotationTerm} (kept : a.Kept) : ∀ c ∈ a.text, isSpace c = false := by
  intro c inText
  obtain ⟨t, member, inside⟩ := List.mem_flatMap.mp inText
  rcases a.mem_tokens member with among | same | same | same | same
  · exact kept t among c inside
  · rw [same] at inside
    exact not_isSpace_of_isWord (a.name.isWord_of_mem inside)
  all_goals
    rw [same] at inside
    rw [List.mem_singleton.mp inside]
    rfl

/-- An annotation without blanks in its literals is recorded as it is. -/
theorem AnnotationTerm.Kept.recorded {a : AnnotationTerm} (kept : a.Kept) : a.recorded = a.text :=
  dropSpaces_eq_self (a.solid_text kept)

/-- What can be recorded as an annotation has no blank and no parenthesis in its literals. -/
theorem AnnotationTerm.kept_closed {a : AnnotationTerm} (text : AnnotationText a.text) : a.Kept ∧ a.Closed := by
  rw [AnnotationTerm.Kept, AnnotationTerm.Closed, AnnotationTerm.inside]
  cases found : a.arguments with
  | none => exact ⟨fun _ member => absurd member List.not_mem_nil, fun _ member => absurd member List.not_mem_nil⟩
  | some args =>
    have whole : a.text = '@' :: (a.name.text ++ '(' :: (tightSpell args.tokens ++ [')'])) := by
      rw [AnnotationTerm.text, AnnotationTerm.tokens, found]
      simp [tightSpell, Token.spell, Symbol.at, Symbol.openParen, Symbol.closeParen]
    rw [whole] at text
    refine ⟨fun t member c inside => text.solid c ?_, fun t member paren => ?_⟩
    · have among : c ∈ tightSpell args.tokens := List.mem_flatMap.mpr ⟨t, member, inside⟩
      simp [among]
    · have among : ')' ∈ tightSpell args.tokens := List.mem_flatMap.mpr ⟨t, member, paren⟩
      obtain ⟨x, y, split, first⟩ := List.eq_append_cons_of_mem among
      have cut : argsMatch ('(' :: (tightSpell args.tokens ++ [')'])) = some ('(' :: x ++ [')'], y ++ [')']) := by
        have matched := argsMatch_args (g := []) (fun _ member => absurd member List.not_mem_nil)
          (fun c inside same => first (same ▸ inside)) (y ++ [')'])
        rw [split, List.append_assoc]
        exact matched
      have word : ∀ c u, '(' :: (tightSpell args.tokens ++ [')']) = c :: u → isWord c = false := by
        rintro c u same
        cases same
        decide
      obtain ⟨taken, left⟩ := takeWhile_word a.name word
      have matched := text.whole
      rw [annotationMatch, taken, left, if_neg a.name.nonempty, cut] at matched
      have rest := (Prod.mk.inj (Option.some.inj matched)).2
      exact List.append_ne_nil_of_right_ne_nil y (List.cons_ne_nil _ _) rest

/-- What follows an annotation is not read as part of it. -/
structure EndsAnnotation (r : Text) : Prop where
  word : ∀ c u, r = c :: u → isWord c = false
  args : argsMatch r = none

theorem AnnotationTerm.annotationMatch_body {a : AnnotationTerm} (closed : a.Closed) {r : Text}
    (bare : a.arguments = none → EndsAnnotation r) : annotationMatch (a.body ++ r) = some (a.body, r) := by
  rw [AnnotationTerm.body]
  rw [AnnotationTerm.Closed, AnnotationTerm.inside] at closed
  cases found : a.arguments with
  | none =>
    have follows := bare found
    obtain ⟨taken, left⟩ := takeWhile_word a.name follows.word
    simp only [List.append_nil, List.cons_append]
    rw [annotationMatch, taken, left, if_neg a.name.nonempty, follows.args]
  | some args =>
    rw [found] at closed
    have inside : ∀ c ∈ blankSpell args.tokens ++ args.after.blanks, c ≠ ')' := by
      rintro c member rfl
      rcases List.mem_append.mp member with among | blank
      · rcases mem_blankSpell among with blank | ⟨t, inArgs, inToken⟩
        · cases blank
        · exact closed t inArgs inToken
      · cases args.after.isBlank _ blank
    have matched := argsMatch_args args.before.isBlank inside r
    have word : ∀ c u, args.before.blanks ++ '(' :: (blankSpell args.tokens ++ args.after.blanks) ++ ')' :: r = c :: u →
        isWord c = false := by
      intro c u same
      cases blanks : args.before.blanks with
      | nil =>
        rw [blanks] at same
        cases same
        decide
      | cons d v =>
        rw [blanks] at same
        cases same
        exact not_isWord_of_isSpace (args.before.isBlank c (blanks ▸ List.mem_cons_self))
    obtain ⟨taken, left⟩ := takeWhile_word a.name word
    have text : '@' :: a.name.text ++
          (args.before.blanks ++ '(' :: (blankSpell args.tokens ++ args.after.blanks) ++ [')']) ++ r =
        '@' :: (a.name.text ++ (args.before.blanks ++ '(' :: (blankSpell args.tokens ++ args.after.blanks) ++ ')' :: r)) := by
      simp
    simp only
    rw [text, annotationMatch, taken, left, if_neg a.name.nonempty, matched]

/-- A token that is not an opening parenthesis, apart from the annotation. -/
theorem endsAnnotation_of_before {g : Gap} {w : Word} {b : Spaced} {ts : List Spaced} (before : Spaced.Before ⟨g, .word w⟩ b)
    (notParen : ∀ u, b.token.spell ≠ '(' :: u) : EndsAnnotation (blankSpell (b :: ts)) := by
  obtain ⟨c, u, head, solid⟩ := b.token.spell_head
  have other : c ≠ '(' := by
    rintro rfl
    exact notParen u head
  have text : blankSpell (b :: ts) = b.gap.blanks ++ c :: (u ++ blankSpell ts) := by
    rw [blankSpell_cons, head, List.append_assoc]
    rfl
  refine ⟨fun d v same => before.stops ts [] w rfl d v (by rw [List.append_nil]; exact same), argsMatch_of_noArgs fun v opens => ?_⟩
  rw [text, dropWhile_append_cons b.gap.isBlank solid] at opens
  exact other (List.cons.inj opens).1

/-- The text of a word and what follows it starts with a character that is not a blank. -/
theorem strip_blankSpell {t : Spaced} {ts : List Spaced} (firm : Firm (blankSpell (t :: ts))) {g : Text}
    (blank : ∀ c ∈ g, isSpace c = true) : strip (blankSpell (t :: ts) ++ g) = t.token.spell ++ blankSpell ts := by
  obtain ⟨c, u, head, solid⟩ := t.token.spell_head
  have text : blankSpell (t :: ts) = t.gap.blanks ++ c :: (u ++ blankSpell ts) := by
    rw [blankSpell_cons, head, List.append_assoc]
    rfl
  have behind : Firm (c :: (u ++ blankSpell ts)) := by
    obtain ⟨v, d, same, last⟩ := firm
    rw [text] at same
    exact firm_of_append (by rw [same]; exact ⟨v, d, rfl, last⟩)
  rw [text, strip_between (fun _ member => Gap.isSpace_of_mem member) blank solid behind, head]
  rfl

theorem takeAnnotationsFrom_of_none {t : Text} (none : annotationMatch t = .none) : takeAnnotationsFrom t = ([], t) := by
  rw [takeAnnotationsFrom]
  split
  · rfl
  · rename_i found
    rw [none] at found
    cases found

theorem takeAnnotationsFrom_of_match {t a r : Text} (found : annotationMatch t = some (a, r)) :
    takeAnnotationsFrom t = (dropSpaces a :: (takeAnnotationsFrom (strip r)).1, (takeAnnotationsFrom (strip r)).2) := by
  rw [takeAnnotationsFrom]
  split
  · rename_i none
    rw [found] at none
    cases none
  · rename_i found'
    rw [found] at found'
    cases found'
    rfl

theorem annotationMatch_word (w : Word) (r : Text) : annotationMatch (w.text ++ r) = none := by
  obtain ⟨c, u, same⟩ := List.exists_cons_of_ne_nil w.nonempty
  have notAt : c ≠ '@' := ne_of_isWord (w.isWord_of_mem (same ▸ List.mem_cons_self)) (by decide)
  rw [same, List.cons_append]
  unfold annotationMatch
  split
  · rename_i head
    exact absurd (List.cons.inj head).1 notAt
  · rfl

/-- The annotations of a header are taken off one by one. -/
theorem takeAnnotationsFrom_annotations {as : List AnnotationTerm} {k : Spaced} {ks : List Spaced}
    (closed : ∀ a ∈ as, a.Closed) (apart : Apart (as.flatMap AnnotationTerm.tokens ++ k :: ks))
    (notParen : ∀ u, k.token.spell ≠ '(' :: u) :
    takeAnnotationsFrom (strip (blankSpell (as.flatMap AnnotationTerm.tokens ++ k :: ks))) =
      (as.map AnnotationTerm.recorded ++ (takeAnnotationsFrom (strip (blankSpell (k :: ks)))).1,
        (takeAnnotationsFrom (strip (blankSpell (k :: ks)))).2) := by
  have noBlank : ∀ c ∈ ([] : Text), isSpace c = true := fun _ member => absurd member List.not_mem_nil
  induction as with
  | nil => rfl
  | cons a as ih =>
    have text : blankSpell ((a :: as).flatMap AnnotationTerm.tokens ++ k :: ks) =
        a.gap.blanks ++ (a.body ++ blankSpell (as.flatMap AnnotationTerm.tokens ++ k :: ks)) := by
      rw [List.flatMap_cons, List.append_assoc, blankSpell_append, a.blankSpell_tokens, List.append_assoc]
    have behind : Firm (blankSpell (as.flatMap AnnotationTerm.tokens ++ k :: ks)) :=
      firm_blankSpell (List.append_ne_nil_of_right_ne_nil _ (List.cons_ne_nil _ _))
    have stripped : strip (blankSpell ((a :: as).flatMap AnnotationTerm.tokens ++ k :: ks)) =
        a.body ++ blankSpell (as.flatMap AnnotationTerm.tokens ++ k :: ks) := by
      have := strip_between a.gap.isBlank noBlank (by decide) (behind.append a.body)
      rw [List.append_nil] at this
      rw [text]
      exact this
    have bare : a.arguments = none → EndsAnnotation (blankSpell (as.flatMap AnnotationTerm.tokens ++ k :: ks)) := by
      intro none
      have tokens : a.tokens = [⟨a.gap, .symbol .at⟩, ⟨[], .word a.name⟩] := by rw [AnnotationTerm.tokens, none]
      rw [List.flatMap_cons, tokens, List.append_assoc] at apart
      have next := (List.isChain_cons_cons.mp apart).2
      cases as with
      | nil => exact endsAnnotation_of_before (List.isChain_cons_cons.mp next).1 notParen
      | cons b as =>
        refine endsAnnotation_of_before (b := ⟨b.gap, .symbol .at⟩) (List.isChain_cons_cons.mp next).1 fun u paren => ?_
        cases paren
    rw [stripped, takeAnnotationsFrom_of_match (a.annotationMatch_body (closed a List.mem_cons_self) bare),
      a.dropSpaces_body]
    rw [List.flatMap_cons, List.append_assoc] at apart
    rw [ih (fun b member => closed b (List.mem_cons_of_mem _ member)) apart.right_of_append]
    rfl

theorem Word.not_paren (w : Word) (u : Text) : w.text ≠ '(' :: u := fun paren =>
  ne_of_isWord (w.isWord_of_mem (paren ▸ List.mem_cons_self)) (by decide) rfl

/-- The annotations before a word. -/
theorem takeAnnotationsFrom_word {as : List AnnotationTerm} {g : Gap} {w : Word} {ks : List Spaced}
    (closed : ∀ a ∈ as, a.Closed) (apart : Apart (as.flatMap AnnotationTerm.tokens ++ ⟨g, .word w⟩ :: ks)) :
    takeAnnotationsFrom (strip (blankSpell (as.flatMap AnnotationTerm.tokens ++ ⟨g, .word w⟩ :: ks))) =
      (as.map AnnotationTerm.recorded, w.text ++ blankSpell ks) := by
  have rest := strip_blankSpell (firm_blankSpell (List.cons_ne_nil (⟨g, .word w⟩ : Spaced) ks)) (g := [])
    fun _ member => absurd member List.not_mem_nil
  rw [List.append_nil] at rest
  have none : takeAnnotationsFrom ((Token.word w).spell ++ blankSpell ks) = ([], w.text ++ blankSpell ks) :=
    takeAnnotationsFrom_of_none (annotationMatch_word w _)
  rw [takeAnnotationsFrom_annotations closed apart w.not_paren, rest, none, List.append_nil]

/-! ### Headers -/

theorem keywordMatch_gap (kw : Text) {g u : Text} (some : g ≠ []) (blank : ∀ c ∈ g, isSpace c = true) {c : Char}
    (solid : isSpace c = false) : keywordMatch kw (kw ++ (g ++ c :: u)) = .some (c :: u) := by
  obtain ⟨d, g, rfl⟩ := List.exists_cons_of_ne_nil some
  rw [keywordMatch, if_pos (List.prefix_append _ _), List.drop_left, List.cons_append]
  simp only [blank d List.mem_cons_self, if_true]
  rw [dropWhile_append_cons (fun e member => blank e (List.mem_cons_of_mem _ member)) solid]

/-- A keyword is not matched where another letter stands. -/
theorem keywordMatch_other {k c : Char} (other : k ≠ c) (ks t : Text) : keywordMatch (k :: ks) (c :: t) = none := by
  rw [keywordMatch, if_neg]
  rintro ⟨u, same⟩
  exact other (List.cons.inj same).1

theorem keywordMatch_token {kw r : Text} (word : kw ≠ [] ∧ kw.all isWord = true) {t : Token} (stops : t.Stops r)
    (other : t.spell ≠ kw) : keywordMatch kw (t.spell ++ r) = none := by
  cases found : keywordMatch kw (t.spell ++ r) with
  | none => rfl
  | some u =>
    have starts := takeWhile_of_keywordMatch word.2 found
    rcases Token.takeWhile_spell stops with same | same
    · exact absurd (same.symm.trans starts) other
    · exact absurd (starts.symm.trans same) word.1

/-- `(?P<name>\w+)\s*(?P<term>[{;])` behind the kind. -/
def nameMatch (kind : Kind) (u : Text) : Option (Kind × Text) :=
  match u.takeWhile isWord, (u.dropWhile isWord).dropWhile isSpace with
  | c :: w, term :: _ => if term = '\x7b' ∨ term = ';' then some (kind, c :: w) else none
  | _, _ => none

theorem findSome?_of_only {α β : Type} {f : α → Option β} {l : List α} {a : α} (member : a ∈ l)
    (others : ∀ b, b ≠ a → f b = none) : l.findSome? f = f a := by
  induction l with
  | nil => cases member
  | cons b l ih =>
    rw [List.findSome?_cons]
    by_cases same : b = a
    · subst same
      cases found : f b with
      | some x => rfl
      | none =>
        refine List.findSome?_eq_none_iff.mpr fun c _ => ?_
        by_cases same : c = b
        · exact same ▸ found
        · exact others c same
    · rw [others b same]
      exact ih ((List.mem_cons.mp member).resolve_left fun h => same h.symm)

/-- A header is matched for the kind that it starts with. -/
theorem kindMatch_of_keyword {kind : Kind} {t u : Text} (found : keywordMatch kind.text t = some u)
    (others : ∀ k, k ≠ kind → keywordMatch k.text t = none) : kindMatch t = nameMatch kind u := by
  have member : kind ∈ Kind.all := by cases kind <;> decide
  rw [kindMatch, findSome?_of_only member fun k other => by rw [others k other], found]
  rfl

/-- The text behind a name goes on with the body of the type or ends the declaration. -/
def EndsName (tail : Text) : Prop := ∃ term u, tail.dropWhile isSpace = term :: u ∧ (term = '\x7b' ∨ term = ';')

theorem nameMatch_name {kind : Kind} (name : Word) {tail : Text} (word : ∀ c u, tail = c :: u → isWord c = false) :
    (EndsName tail → nameMatch kind (name.text ++ tail) = some (kind, name.text)) ∧
      (¬EndsName tail → nameMatch kind (name.text ++ tail) = none) := by
  obtain ⟨c, w, same⟩ := List.exists_cons_of_ne_nil name.nonempty
  have read := takeWhile_word name word
  rw [nameMatch, read.1, read.2, same, EndsName]
  cases tail.dropWhile isSpace with
  | nil => exact ⟨fun ⟨_, _, h, _⟩ => (by cases h), fun _ => rfl⟩
  | cons term u =>
    refine ⟨fun ends => ?_, fun not_ => ?_⟩
    · obtain ⟨_, _, h, ends⟩ := ends
      cases h
      exact if_pos ends
    · exact if_neg fun ends => not_ ⟨term, u, rfl, ends⟩

/-- What the text of a header starts with, for any kind. -/
theorem kindMatch_header (kind : Kind) (name : Word) {g : Text} (some : g ≠ []) (blank : ∀ c ∈ g, isSpace c = true)
    (tail : Text) : kindMatch (kind.text ++ (g ++ (name.text ++ tail))) = nameMatch kind (name.text ++ tail) := by
  obtain ⟨c, w, same⟩ := List.exists_cons_of_ne_nil name.nonempty
  have solid : isSpace c = false := not_isSpace_of_isWord (name.isWord_of_mem (same ▸ List.mem_cons_self))
  refine kindMatch_of_keyword ?_ fun k other => ?_
  · rw [same]
    exact keywordMatch_gap _ some blank solid
  · cases k <;> cases kind <;> first | exact absurd rfl other | exact keywordMatch_other (by decide) _ _

/-- What the parser makes of a header. -/
def Head.read (h : Head) (kind : Kind) : DeclHead := ⟨h.oneway.isSome, kind, h.name.text⟩

/-- No closing parenthesis stands between the parentheses of its annotations. -/
def Head.Closed (h : Head) : Prop := ∀ a ∈ h.annotations, a.Closed

@[simp] theorem Kind.word_text (kind : Kind) : kind.word.text = kind.text := rfl

theorem Kind.head_text (kind : Kind) : ∃ c u, kind.text = c :: u ∧ isSpace c = false ∧ c ≠ 'o' := by
  cases kind with
  | interface => exact ⟨_, _, rfl, by decide, by decide⟩
  | parcelable => exact ⟨_, _, rfl, by decide, by decide⟩
  | union => exact ⟨_, _, rfl, by decide, by decide⟩
  | enum => exact ⟨_, _, rfl, by decide, by decide⟩

/-- Something stands between two words. -/
theorem Spaced.Before.gap_ne_nil {a b : Spaced} {v w : Word} (before : a.Before b) (first : a.token = .word v)
    (second : b.token = .word w) : b.gap.blanks ≠ [] := by
  refine Gap.blanks_ne_nil fun none => ?_
  rw [Spaced.Before, none, first, second] at before
  cases before

theorem declMatch_kind (kind : Kind) (name : Word) {g : Text} (some : g ≠ []) (blank : ∀ c ∈ g, isSpace c = true)
    (tail : Text) : declMatch (kind.text ++ (g ++ (name.text ++ tail))) =
      (nameMatch kind (name.text ++ tail)).map fun r => ⟨false, r.1, r.2⟩ := by
  have noOneway : keywordMatch "oneway".toList (kind.text ++ (g ++ (name.text ++ tail))) = none := by
    obtain ⟨c, u, head, -, other⟩ := kind.head_text
    rw [head]
    exact keywordMatch_other other.symm _ _
  rw [declMatch, noOneway, kindMatch_header kind name some blank]
  rfl

theorem declMatch_oneway (kind : Kind) (name : Word) {g g' : Text} (some : g ≠ []) (blank : ∀ c ∈ g, isSpace c = true)
    (some' : g' ≠ []) (blank' : ∀ c ∈ g', isSpace c = true) (tail : Text) :
    declMatch ("oneway".toList ++ (g ++ (kind.text ++ (g' ++ (name.text ++ tail))))) =
      (nameMatch kind (name.text ++ tail)).map fun r => ⟨true, r.1, r.2⟩ := by
  have oneway : keywordMatch "oneway".toList ("oneway".toList ++ (g ++ (kind.text ++ (g' ++ (name.text ++ tail))))) =
      .some (kind.text ++ (g' ++ (name.text ++ tail))) := by
    obtain ⟨c, u, head, solid, -⟩ := kind.head_text
    rw [head]
    exact keywordMatch_gap _ some blank solid
  have noKind : kindMatch ("oneway".toList ++ (g ++ (kind.text ++ (g' ++ (name.text ++ tail))))) = none := by
    refine List.findSome?_eq_none_iff.mpr fun k _ => ?_
    obtain ⟨c, u, head, -, other⟩ := k.head_text
    have noKeyword : keywordMatch k.text ("oneway".toList ++ (g ++ (kind.text ++ (g' ++ (name.text ++ tail))))) = none := by
      rw [head]
      exact keywordMatch_other other u _
    rw [noKeyword]
  rw [declMatch, oneway, Option.bind_some, kindMatch_header kind name some' blank', noKind]
  cases nameMatch kind (name.text ++ tail) with
  | none => rfl
  | some r => rfl

/-- No declaration starts with another word than its keywords. -/
theorem declMatch_token {t : Token} {r : Text} (stops : t.Stops r) (notOneway : t.spell ≠ "oneway".toList)
    (noKind : ∀ kind : Kind, t.spell ≠ kind.text) : declMatch (t.spell ++ r) = none := by
  have oneway : keywordMatch "oneway".toList (t.spell ++ r) = none :=
    keywordMatch_token (by decide +kernel) stops notOneway
  have kind : kindMatch (t.spell ++ r) = none := by
    refine List.findSome?_eq_none_iff.mpr fun kind _ => ?_
    have word : kind.text ≠ [] ∧ kind.text.all isWord = true := ⟨kind.word.nonempty, kind.word.plain⟩
    rw [keywordMatch_token word stops (noKind kind)]
  rw [declMatch, oneway, kind]
  rfl

/-- Behind the name of a header nothing goes on with the name, and the declaration does exactly where there are no type
    parameters. -/
theorem Head.tail (h : Head) {term : Char} (ends : term = '\x7b' ∨ term = ';') :
    (∀ c u, blankSpell h.parameterTokens ++ [' ', term] = c :: u → isWord c = false) ∧
      (EndsName (blankSpell h.parameterTokens ++ [' ', term]) ↔ h.parameters = none) := by
  rw [Head.parameterTokens]
  cases h.parameters with
  | none =>
    refine ⟨fun c u same => ?_, iff_of_true ⟨term, [], ?_, ends⟩ rfl⟩
    · cases same
      decide
    · rcases ends with rfl | rfl
      · decide
      · decide
  | some parameters =>
    obtain ⟨before, parameters, after⟩ := parameters
    have blank : ∀ c ∈ before.blanks, isSpace c = true := fun _ member => Gap.isSpace_of_mem member
    simp only [List.cons_append, blankSpell_cons, Token.spell, Symbol.less, List.append_assoc, List.nil_append]
    refine ⟨fun c u same => ?_, iff_of_false ?_ fun h => by cases h⟩
    · cases blanks : before.blanks with
      | nil =>
        rw [blanks] at same
        cases same
        decide
      | cons d v =>
        rw [blanks] at same blank
        cases same
        exact not_isWord_of_isSpace (blank _ List.mem_cons_self)
    · rintro ⟨d, u, left, opens⟩
      rw [dropWhile_append_cons blank (by decide)] at left
      cases left
      exact absurd opens (by decide)

theorem Word.oneway_text : Word.oneway.text = "oneway".toList := rfl

/-- The annotations of a header are taken off, and its declaration is read unless it has type parameters. -/
theorem Head.read_tokens {h : Head} (closed : h.Closed) (kind : Kind) (apart : Apart (h.tokens kind)) {g : Text}
    (blank : ∀ c ∈ g, isSpace c = true) {term : Char} (ends : term = '\x7b' ∨ term = ';') :
    ∃ rest, takeAnnotations (strip (blankSpell (h.tokens kind) ++ g)) = (h.annotations.map AnnotationTerm.recorded, rest) ∧
      (h.parameters = none → declMatch (rest ++ [' ', term]) = some (h.read kind)) ∧
      (h.parameters ≠ none → declMatch (rest ++ [' ', term]) = none) := by
  have stripped : takeAnnotations (strip (blankSpell (h.tokens kind) ++ g)) =
      takeAnnotationsFrom (strip (blankSpell (h.tokens kind))) := by
    have := strip_append_space (fun _ member => absurd member List.not_mem_nil) blank (blankSpell (h.tokens kind))
    rw [List.nil_append] at this
    rw [takeAnnotations, strip_strip, this]
  obtain ⟨word, tail⟩ := h.tail ends
  obtain ⟨named, unnamed⟩ := @nameMatch_name kind h.name _ word
  rw [stripped]
  rw [Head.tokens] at apart ⊢
  cases once : h.oneway with
  | none =>
    rw [once] at apart
    rw [Option.map_none, Option.toList_none, List.append_nil] at apart ⊢
    have gap := (List.isChain_append_cons_cons.mp apart).2.1.gap_ne_nil rfl rfl
    refine ⟨kind.text ++ (h.nameGap.blanks ++ (h.name.text ++ blankSpell h.parameterTokens)), ?_, ?_⟩
    · rw [takeAnnotationsFrom_word closed apart]
      simp [Token.spell]
    · simp only [List.append_assoc]
      rw [declMatch_kind kind h.name gap h.nameGap.isBlank, Head.read, once]
      exact ⟨fun none_ => by rw [named (tail.mpr none_)]; rfl, fun some_ => by rw [unnamed (some_ ∘ tail.mp)]; rfl⟩
  | some gap =>
    rw [once] at apart
    rw [Option.map_some, Option.toList_some, List.append_assoc, List.singleton_append] at apart ⊢
    have chain := (List.isChain_append_cons_cons.mp apart).2
    have kindGap := chain.1.gap_ne_nil rfl rfl
    have nameGap := (List.isChain_cons_cons.mp chain.2).1.gap_ne_nil rfl rfl
    refine ⟨"oneway".toList ++ (h.kindGap.blanks ++ (kind.text ++ (h.nameGap.blanks ++ (h.name.text ++
      blankSpell h.parameterTokens)))), ?_, ?_⟩
    · rw [takeAnnotationsFrom_word closed apart]
      simp [Token.spell, Word.oneway_text]
    · simp only [List.append_assoc]
      rw [declMatch_oneway kind h.name kindGap h.kindGap.isBlank nameGap h.nameGap.isBlank, Head.read, once]
      exact ⟨fun none_ => by rw [named (tail.mpr none_)]; rfl, fun some_ => by rw [unnamed (some_ ∘ tail.mp)]; rfl⟩

end BinderIdl.Surface
