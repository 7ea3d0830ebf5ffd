import BinderIdl.Surface.Source
import BinderIdl.Theorems.Comments
import BinderIdl.Theorems.Literals

/-! Sources in any layout: stripping the comments leaves the tokens between blanks, and the scanners take the tokens
    of a declaration as they stand. -/

namespace BinderIdl.Surface
open Py

/-! ### Literals and comments -/

theorem stringEnd_literal {t : Text} (closed : isClosed t = true) (r : Text) :
    stringEnd (t ++ '"' :: r) = (t ++ ['"'], r) := by
  fun_induction isClosed t with
  | case1 => rfl
  | case2 => cases closed
  | case3 => cases closed
  | case4 c t ih =>
    rw [List.cons_append, List.cons_append, stringEnd, ih closed]
    rfl
  | case5 c t notQuote notEscape notLast ih =>
    rw [List.cons_append, stringEnd, ih closed]
    · rfl
    · exact notQuote
    · intro d u isEscape same
      cases t with
      | nil => exact notEscape isEscape rfl
      | cons e t => exact notLast e t isEscape rfl

theorem stripComments_cons {c : Char} (notQuote : c ≠ '"') (notSlash : c ≠ '/') (u : Text) :
    stripComments (c :: u) = c :: stripComments u :=
  stripComments_char notQuote fun opens => notSlash (opens_cons.mp opens).1

theorem stripComments_slash {u : Text} (noLine : ∀ v, u ≠ '/' :: v) (noBlock : ∀ v, u ≠ '*' :: v) :
    stripComments ('/' :: u) = '/' :: stripComments u := by
  refine stripComments_char (by decide) fun opens => ?_
  obtain ⟨-, d, v, same, rfl | rfl⟩ := opens_cons.mp opens
  · exact noLine v same
  · exact noBlock v same

theorem ne_slash_of_isSpace {c : Char} (space : isSpace c = true) : c ≠ '/' := by
  rintro rfl
  cases space

theorem Filler.stripComments_spell (f : Filler) (r : Text) :
    stripComments (f.spell ++ r) = f.blanks ++ stripComments r := by
  cases f with
  | blank c space => exact stripComments_cons (ne_quote_of_isSpace space) (ne_slash_of_isSpace space) r
  | line text single =>
    have rest : (text ++ ['\n'] ++ r).dropWhile (· != '\n') = '\n' :: r := by
      rw [List.append_assoc]
      exact dropWhile_append_cons (fun c member => by simpa using fun same : c = '\n' => single (same ▸ member)) rfl r
    show stripComments ('/' :: '/' :: (text ++ ['\n'] ++ r)) = _
    rw [stripComments, rest]
    exact stripComments_cons (by decide) (by decide) r
  | block text unclosed =>
    show stripComments ('/' :: '*' :: (text ++ ['*', '/'] ++ r)) = _
    rw [stripComments, List.append_assoc]
    exact congrArg (' ' :: stripComments ·) (afterBlock_closed unclosed r).2

theorem Gap.stripComments_spell (g : Gap) (r : Text) : stripComments (g.spell ++ r) = g.blanks ++ stripComments r := by
  induction g with
  | nil => rfl
  | cons f g ih =>
    rw [Gap.spell, Gap.blanks, List.flatMap_cons, List.flatMap_cons, List.append_assoc, f.stripComments_spell,
      List.append_assoc]
    exact congrArg (f.blanks ++ ·) ih

theorem Word.isWord_of_mem (w : Word) {c : Char} (member : c ∈ w.text) : isWord c = true :=
  List.all_eq_true.mp w.plain c member

theorem ne_of_isWord {c d : Char} (word : isWord c = true) (notWord : isWord d = false) : c ≠ d := by
  rintro rfl
  rw [word] at notWord
  cases notWord

theorem stripComments_plain {t : Text} (plain : ∀ c ∈ t, c ≠ '"' ∧ c ≠ '/') (r : Text) :
    stripComments (t ++ r) = t ++ stripComments r := by
  induction t with
  | nil => rfl
  | cons c t ih =>
    obtain ⟨notQuote, notSlash⟩ := plain c List.mem_cons_self
    rw [List.cons_append, stripComments_cons notQuote notSlash, ih fun d member => plain d (List.mem_cons_of_mem _ member)]
    rfl

/-- The first character behind a token does not make a comment of it. -/
def Token.Ends (t : Token) (r : Text) : Prop := t.isSlash = true → (∀ v, r ≠ '/' :: v) ∧ ∀ v, r ≠ '*' :: v

theorem Token.ends_nil (t : Token) : t.Ends [] := fun _ =>
  ⟨fun v => (List.cons_ne_nil '/' v).symm, fun v => (List.cons_ne_nil '*' v).symm⟩

/-- A char literal is not taken for the start of a string. -/
def Token.quoteless : Token → Bool
  | .char c _ => c != '"'
  | _ => true

theorem Token.stripComments_spell {t : Token} {r : Text} (ends : t.Ends r) (quoteless : t.quoteless = true) :
    stripComments (t.spell ++ r) = t.spell ++ stripComments r := by
  cases t with
  | word w =>
    refine stripComments_plain (fun c member => ?_) r
    have word := w.isWord_of_mem member
    exact ⟨ne_of_isWord word (by decide), ne_of_isWord word (by decide)⟩
  | symbol s =>
    by_cases slash : s.char = '/'
    · obtain ⟨noLine, noBlock⟩ := ends (by simpa [Token.isSlash] using slash)
      rw [Token.spell, slash]
      exact stripComments_slash noLine noBlock
    · exact stripComments_cons s.notQuote.1 slash r
  | string l =>
    have read : stringEnd (l.text ++ ['"'] ++ r) = (l.text ++ ['"'], r) := by
      rw [List.append_assoc]
      exact stringEnd_literal l.closed r
    rw [Token.spell, List.cons_append, List.cons_append, stripComments, read]
  | char c single =>
    have notQuote : c ≠ '"' := by simpa [Token.quoteless] using quoteless
    have rest : stripComments ('\'' :: r) = '\'' :: stripComments r := stripComments_cons (by decide) (by decide) r
    have middle : stripComments (c :: '\'' :: r) = c :: '\'' :: stripComments r := by
      by_cases slash : c = '/'
      · subst slash
        rw [stripComments_slash (fun v h => by cases h) (fun v h => by cases h), rest]
      · rw [stripComments_cons notQuote slash, rest]
    show stripComments ('\'' :: c :: '\'' :: r) = _
    rw [stripComments_cons (by decide) (by decide), middle]
    rfl

/-! ### Tokens apart -/

@[simp] theorem blankSpell_nil : blankSpell [] = [] := rfl

@[simp] theorem spell_cons (t : Spaced) (ts : List Spaced) : spell (t :: ts) = t.gap.spell ++ t.token.spell ++ spell ts :=
  rfl

@[simp] theorem blankSpell_cons (t : Spaced) (ts : List Spaced) :
    blankSpell (t :: ts) = t.gap.blanks ++ t.token.spell ++ blankSpell ts := rfl

theorem blankSpell_append (ts us : List Spaced) : blankSpell (ts ++ us) = blankSpell ts ++ blankSpell us :=
  List.flatMap_append

/-- The first character of a filler. -/
theorem Filler.spell_head (f : Filler) : ∃ c u, f.spell = c :: u ∧ (f.isComment = false → isSpace c = true) := by
  cases f with
  | blank c space => exact ⟨c, [], rfl, fun _ => space⟩
  | line text single => exact ⟨'/', _, rfl, fun h => by cases h⟩
  | block text unclosed => exact ⟨'/', _, rfl, fun h => by cases h⟩

theorem Token.spell_head (t : Token) : ∃ c u, t.spell = c :: u ∧ isSpace c = false := by
  cases t with
  | word w =>
    obtain ⟨c, u, same⟩ := List.exists_cons_of_ne_nil w.nonempty
    exact ⟨c, u, same, not_isSpace_of_isWord (w.isWord_of_mem (same ▸ List.mem_cons_self))⟩
  | symbol s => exact ⟨s.char, [], rfl, s.solid⟩
  | string l => exact ⟨'"', _, rfl, by decide⟩
  | char c _ => exact ⟨'\'', _, rfl, by decide⟩

/-- Behind a slash without a gap stands neither another one nor a star. -/
theorem Token.runsInto_head {a b : Token} (slash : a.isSlash = true) (apart : a.runsInto b = false) {c : Char} {u : Text}
    (head : b.spell = c :: u) : c ≠ '/' ∧ c ≠ '*' := by
  cases b with
  | word w =>
    have same : w.text = c :: u := head
    have word := w.isWord_of_mem (same ▸ List.mem_cons_self)
    exact ⟨ne_of_isWord word (by decide), ne_of_isWord word (by decide)⟩
  | symbol s =>
    cases head
    cases a with
    | symbol t =>
      simp only [Token.isSlash] at slash
      simpa [Token.runsInto, slash] using apart
    | word w => cases slash
    | string l => cases slash
    | char c h => cases slash
  | string l =>
    cases head
    decide
  | char d single =>
    cases head
    decide

/-- A slash before another token stays one. -/
theorem Spaced.Before.ends {a b : Spaced} (before : a.Before b) (r : Text) :
    a.token.Ends (b.gap.spell ++ b.token.spell ++ r) := by
  intro slash
  suffices first : ∃ c u, b.gap.spell ++ b.token.spell ++ r = c :: u ∧ c ≠ '/' ∧ c ≠ '*' by
    obtain ⟨c, u, same, noLine, noBlock⟩ := first
    rw [same]
    exact ⟨fun v h => noLine (List.cons.inj h).1, fun v h => noBlock (List.cons.inj h).1⟩
  obtain ⟨gap, token⟩ := b
  cases gap with
  | nil =>
    obtain ⟨c, u, head, -⟩ := token.spell_head
    exact ⟨c, u ++ r, by rw [head]; rfl, Token.runsInto_head slash before head⟩
  | cons f g =>
    obtain ⟨c, u, head, blank⟩ := f.spell_head
    have space : isSpace c = true := blank (by simpa [Spaced.Before, slash] using before)
    refine ⟨c, u ++ (Gap.spell g ++ token.spell ++ r), ?_, ne_slash_of_isSpace space, ?_⟩
    · rw [Gap.spell, List.flatMap_cons, head]
      simp [Gap.spell]
    · rintro rfl
      cases space

/-- Stripping the comments of a source leaves its tokens between blanks. -/
theorem stripComments_spell {ts : List Spaced} (apart : Apart ts) (quoteless : ∀ t ∈ ts, t.token.quoteless = true)
    {r : Text} (ends : ∀ t ∈ ts.getLast?, t.token.Ends r) :
    stripComments (spell ts ++ r) = blankSpell ts ++ stripComments r := by
  induction ts with
  | nil => rfl
  | cons t ts ih =>
    have next : t.token.Ends (spell ts ++ r) := by
      cases ts with
      | nil => exact ends t rfl
      | cons u ts =>
        rw [spell_cons, List.append_assoc]
        exact (List.rel_of_isChain_cons_cons apart).ends _
    have rest := ih apart.of_cons (fun u member => quoteless u (List.mem_cons_of_mem _ member)) fun u last => by
      cases ts with
      | nil => cases last
      | cons v ts => exact ends u (by rw [List.getLast?_cons_cons]; exact last)
    rw [spell_cons, blankSpell_cons, List.append_assoc, List.append_assoc, Gap.stripComments_spell,
      Token.stripComments_spell next (quoteless t List.mem_cons_self), rest, List.append_assoc, List.append_assoc]

/-! ### What the scanners take along -/

/-- The characters that the scanners of a body look for. -/
def isStructural (c : Char) : Bool := c ∈ ['"', ';', '{', '}']

/-- The token is neither a brace nor a semicolon, and no char literal of such a character. -/
def Token.plain : Token → Bool
  | .symbol s => !isStructural s.char
  | .char c _ => !isStructural c
  | _ => true

/-- A text that belongs to the statement which is read. -/
def Carried (x : Text) : Prop := ∀ buf r, splitFrom buf (x ++ r) = splitFrom (buf ++ x) r

/-- A text that belongs to the body which is read, and closes as many braces as it opens. -/
def Passed (x : Text) : Prop :=
  ∀ depth r, matchBrace (depth + 1) (x ++ r) = (x ++ (matchBrace (depth + 1) r).1, (matchBrace (depth + 1) r).2)

theorem carried_nil : Carried [] := fun buf r => by rw [List.nil_append, List.append_nil]

theorem Carried.append {x y : Text} (hx : Carried x) (hy : Carried y) : Carried (x ++ y) := fun buf r => by
  rw [List.append_assoc, hx, hy, List.append_assoc]

theorem passed_nil : Passed [] := fun _ _ => rfl

theorem Passed.append {x y : Text} (hx : Passed x) (hy : Passed y) : Passed (x ++ y) := fun depth r => by
  rw [List.append_assoc, hx, hy, List.append_assoc]

theorem carried_char {c : Char} (plain : isStructural c = false) : Carried [c] := fun buf r => by
  have other : c ≠ '"' ∧ c ≠ ';' ∧ c ≠ '{' ∧ c ≠ '}' := by simpa [isStructural] using plain
  rw [List.singleton_append, splitFrom]
  · exact other.1
  · exact other.2.2.1
  · exact other.2.1

theorem passed_char {c : Char} (plain : isStructural c = false ∨ c = ';') : Passed [c] := fun depth r => by
  have other : c ≠ '"' ∧ c ≠ '{' ∧ c ≠ '}' := by
    rcases plain with plain | rfl
    · have other : c ≠ '"' ∧ c ≠ ';' ∧ c ≠ '{' ∧ c ≠ '}' := by simpa [isStructural] using plain
      exact ⟨other.1, other.2.2⟩
    · decide
  rw [List.singleton_append, matchBrace]
  · rfl
  · exact other.1
  · exact other.2.1
  · exact other.2.2

theorem carried_of_plain {x : Text} (plain : ∀ c ∈ x, isStructural c = false) : Carried x := by
  induction x with
  | nil => exact carried_nil
  | cons c x ih =>
    exact (carried_char (plain c List.mem_cons_self)).append (ih fun d member => plain d (List.mem_cons_of_mem _ member))

theorem passed_of_plain {x : Text} (plain : ∀ c ∈ x, isStructural c = false) : Passed x := by
  induction x with
  | nil => exact passed_nil
  | cons c x ih =>
    exact (passed_char (.inl (plain c List.mem_cons_self))).append (ih fun d member => plain d (List.mem_cons_of_mem _ member))

theorem carried_literal (l : Literal) : Carried ('"' :: l.text ++ ['"']) := fun buf r => by
  have read : stringEnd (l.text ++ ['"'] ++ r) = (l.text ++ ['"'], r) := by
    rw [List.append_assoc]
    exact stringEnd_literal l.closed r
  rw [List.cons_append, List.cons_append, splitFrom, read]

theorem passed_literal (l : Literal) : Passed ('"' :: l.text ++ ['"']) := fun depth r => by
  have read : stringEnd (l.text ++ ['"'] ++ r) = (l.text ++ ['"'], r) := by
    rw [List.append_assoc]
    exact stringEnd_literal l.closed r
  rw [List.cons_append, List.cons_append, matchBrace, read]

theorem not_isStructural_of_isSpace {c : Char} (space : isSpace c = true) : isStructural c = false := by
  simp only [isStructural, List.mem_cons, List.not_mem_nil, or_false, decide_eq_false_iff_not, not_or]
  refine ⟨ne_quote_of_isSpace space, ?_, ?_, ?_⟩
  · rintro rfl
    cases space
  · rintro rfl
    cases space
  · rintro rfl
    cases space

theorem not_isStructural_of_isWord {c : Char} (word : isWord c = true) : isStructural c = false := by
  simp only [isStructural, List.mem_cons, List.not_mem_nil, or_false, decide_eq_false_iff_not, not_or]
  exact ⟨ne_of_isWord word (by decide), ne_of_isWord word (by decide), ne_of_isWord word (by decide),
    ne_of_isWord word (by decide)⟩

theorem Gap.isSpace_of_mem {g : Gap} {c : Char} (member : c ∈ g.blanks) : isSpace c = true := by
  obtain ⟨f, -, among⟩ := List.mem_flatMap.mp member
  cases f with
  | blank d space =>
    cases List.mem_singleton.mp among
    exact space
  | line text single =>
    cases List.mem_singleton.mp among
    rfl
  | block text unclosed =>
    cases List.mem_singleton.mp among
    rfl

theorem Gap.isBlank (g : Gap) : ∀ c ∈ g.blanks, isSpace c = true := fun _ member => Gap.isSpace_of_mem member

theorem Gap.plain (g : Gap) : ∀ c ∈ g.blanks, isStructural c = false :=
  fun _ member => not_isStructural_of_isSpace (Gap.isSpace_of_mem member)

/-- Apart from literals a plain token has no character that the scanners look for. -/
theorem Token.carried {t : Token} (plain : t.plain = true) : Carried t.spell ∧ Passed t.spell := by
  cases t with
  | word w =>
    have chars : ∀ c ∈ w.text, isStructural c = false := fun c member =>
      not_isStructural_of_isWord (w.isWord_of_mem member)
    exact ⟨carried_of_plain chars, passed_of_plain chars⟩
  | symbol s =>
    have char : isStructural s.char = false := by simpa [Token.plain] using plain
    exact ⟨carried_char char, passed_char (.inl char)⟩
  | string l => exact ⟨carried_literal l, passed_literal l⟩
  | char c single =>
    have chars : ∀ d ∈ ['\'', c, '\''], isStructural d = false := by
      have char : isStructural c = false := by simpa [Token.plain] using plain
      have quote : isStructural '\'' = false := by decide
      simp [char, quote]
    exact ⟨carried_of_plain chars, passed_of_plain chars⟩

theorem carried_blankSpell {ts : List Spaced} (plain : ∀ t ∈ ts, t.token.plain = true) :
    Carried (blankSpell ts) ∧ Passed (blankSpell ts) := by
  induction ts with
  | nil => exact ⟨carried_nil, passed_nil⟩
  | cons t ts ih =>
    obtain ⟨carried, passed⟩ := Token.carried (plain t List.mem_cons_self)
    obtain ⟨carried', passed'⟩ := ih fun u member => plain u (List.mem_cons_of_mem _ member)
    rw [blankSpell_cons]
    exact ⟨((carried_of_plain t.gap.plain).append carried).append carried',
      ((passed_of_plain t.gap.plain).append passed).append passed'⟩

end BinderIdl.Surface
