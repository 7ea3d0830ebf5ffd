import BinderIdl.Theorems.Declarations

/-! Braces in any layout: what the scanner makes of tokens with braces in them, and of a header whose annotations have
    them. -/

namespace BinderIdl.Surface
open Py

/-! ### Balanced braces -/

/-- The token is no brace, and no char literal of a brace or a quote. -/
def Token.closed : Token → Bool
  | .symbol s => s.char != '\x7b' && s.char != '\x7d'
  | .char c _ => c != '"' && c != '\x7b' && c != '\x7d'
  | _ => true

/-- Tokens with balanced braces. -/
inductive Enclosed : List Spaced → Prop where
  | nil : Enclosed []
  | token {t : Spaced} {ts : List Spaced} (closed : t.token.closed = true) (rest : Enclosed ts) : Enclosed (t :: ts)
  | braces {before after : Gap} {ts us : List Spaced} (inner : Enclosed ts) (rest : Enclosed us) :
      Enclosed (⟨before, .symbol .openBrace⟩ :: ts ++ ⟨after, .symbol .closeBrace⟩ :: us)

theorem Enclosed.append {ts us : List Spaced} (first : Enclosed ts) (second : Enclosed us) : Enclosed (ts ++ us) := by
  induction first with
  | nil => exact second
  | token closed _ ih => exact .token closed ih
  | @braces before after ts vs inner _ _ ih =>
    have whole := @Enclosed.braces before after _ _ inner ih
    simpa using whole

theorem Token.closed_of_plain {t : Token} (plain : t.plain = true) : t.closed = true := by
  cases t with
  | word w => rfl
  | string l => rfl
  | symbol s =>
    have other : isStructural s.char = false := by simpa [Token.plain] using plain
    simp_all [Token.closed, isStructural]
  | char c single =>
    have other : isStructural c = false := by simpa [Token.plain] using plain
    simp_all [Token.closed, isStructural]

theorem enclosed_of_plain {ts : List Spaced} (plain : ∀ t ∈ ts, t.token.plain = true) : Enclosed ts := by
  induction ts with
  | nil => exact .nil
  | cons t ts ih =>
    exact .token (Token.closed_of_plain (plain t List.mem_cons_self)) (ih fun u member => plain u (List.mem_cons_of_mem _ member))

theorem plain_quoteless {t : Token} (plain : t.plain = true) : t.quoteless = true := by
  cases t with
  | word w => rfl
  | symbol s => rfl
  | string l => rfl
  | char c single =>
    have other : isStructural c = false := by simpa [Token.plain] using plain
    have notQuote : c ≠ '"' := by
      rintro rfl
      cases other
    simpa [Token.quoteless] using notQuote

/-- No token is a char literal of a quote. -/
def Quoteless (ts : List Spaced) : Prop := ∀ t ∈ ts, t.token.quoteless = true

theorem Enclosed.quoteless {ts : List Spaced} (enclosed : Enclosed ts) : Quoteless ts := by
  induction enclosed with
  | nil => exact fun _ member => absurd member List.not_mem_nil
  | @token t ts closed _ ih =>
    intro u member
    rcases List.mem_cons.mp member with rfl | member
    · cases token : u.token with
      | char c single =>
        rw [token] at closed
        simp only [Token.closed, Bool.and_eq_true] at closed
        exact closed.1.1
      | word w => rfl
      | symbol s => rfl
      | string l => rfl
    · exact ih u member
  | braces _ _ ihInner ih =>
    intro u member
    simp only [List.cons_append, List.mem_cons, List.mem_append] at member
    rcases member with rfl | among | rfl | among
    · rfl
    · exact ihInner u among
    · rfl
    · exact ih u among

theorem Quoteless.append {ts us : List Spaced} (first : Quoteless ts) (second : Quoteless us) : Quoteless (ts ++ us) :=
  fun t member => (List.mem_append.mp member).elim (first t) (second t)

/-! ### Splitting -/

theorem Passed.braces {x : Text} (passed : Passed x) : Passed ('\x7b' :: x ++ ['\x7d']) := fun depth r => by
  rw [List.cons_append, List.cons_append, matchBrace, List.append_assoc, passed, List.singleton_append, matchBrace]
  simp

theorem strip_blank_append {buf : Text} (blank : ∀ c ∈ buf, isSpace c = true) (t : Text) : strip (buf ++ t) = strip t := by
  have same := strip_append_space blank (fun _ member => absurd member List.not_mem_nil) t
  rwa [List.append_nil] at same

theorem flushStmt_blank_append {buf : Text} (blank : ∀ c ∈ buf, isSpace c = true) (t : Text) :
    flushStmt (buf ++ t) = flushStmt t := by
  rw [flushStmt, flushStmt, strip_blank_append blank]

theorem splitFrom_statement {buf x : Text} (blank : ∀ c ∈ buf, isSpace c = true) (carried : Carried x) (r : Text) :
    splitFrom buf (x ++ ';' :: r) = flushStmt x ++ splitFrom [] r := by
  rw [carried, splitFrom, flushStmt_blank_append blank]

theorem splitFrom_declaration {buf x y : Text} (blank : ∀ c ∈ buf, isSpace c = true) (carried : Carried x)
    (passed : Passed y) (r : Text) : splitFrom buf (x ++ '\x7b' :: (y ++ '\x7d' :: r)) = .decl (strip x) y :: splitFrom [] r := by
  have inner : matchBrace 1 (y ++ '\x7d' :: r) = (y ++ ['\x7d'], r) := by
    rw [passed 0, matchBrace, matchBrace]
  rw [carried, splitFrom, inner, List.dropLast_concat, strip_blank_append blank]

theorem splitFrom_blank {buf g : Text} (blank : ∀ c ∈ buf, isSpace c = true) (blank' : ∀ c ∈ g, isSpace c = true) :
    splitFrom buf g = [] := by
  have carried := carried_of_plain (fun c member => not_isStructural_of_isSpace (blank' c member)) buf []
  rw [List.append_nil] at carried
  rw [carried, splitFrom, flushStmt_blank_append blank, flushStmt, if_pos (strip_eq_nil_iff.mpr blank')]

theorem passed_of_ne {c : Char} (other : c ≠ '"' ∧ c ≠ '\x7b' ∧ c ≠ '\x7d') : Passed [c] := by
  refine passed_char ?_
  by_cases semicolon : c = ';'
  · exact .inr semicolon
  · exact .inl (by simpa [isStructural] using ⟨other.1, semicolon, other.2⟩)

theorem Token.passed {t : Token} (closed : t.closed = true) : Passed t.spell := by
  cases t with
  | word w => exact (Token.carried (t := .word w) rfl).2
  | string l => exact passed_literal l
  | symbol s =>
    have other : s.char ≠ '\x7b' ∧ s.char ≠ '\x7d' := by simpa [Token.closed] using closed
    exact passed_of_ne ⟨s.notQuote.1, other⟩
  | char c single =>
    have other : c ≠ '"' ∧ c ≠ '\x7b' ∧ c ≠ '\x7d' := by simpa [Token.closed, and_assoc] using closed
    have quote : Passed ['\''] := passed_of_ne (by decide)
    exact (quote.append (passed_of_ne other)).append quote

theorem Enclosed.passed {ts : List Spaced} (enclosed : Enclosed ts) : Passed (blankSpell ts) := by
  induction enclosed with
  | nil => exact passed_nil
  | @token t ts closed _ ih =>
    rw [blankSpell_cons]
    exact ((passed_of_plain t.gap.plain).append (Token.passed closed)).append ih
  | @braces before after ts us _ _ ihInner ih =>
    have body := (ihInner.append (passed_of_plain after.plain)).braces
    have whole := ((passed_of_plain before.plain).append body).append ih
    simpa [blankSpell_append, Token.spell, Symbol.openBrace, Symbol.closeBrace] using whole

/-! ### Braces that open no type -/

/-- A text is not taken for the header of a type. -/
def NoHeader (term : Char) (header : Text) : Prop := declMatch ((takeAnnotations header).2 ++ [' ', term]) = none

/-- What the scanner may hold before a run of tokens: blanks, or the end of a char literal that was cut. -/
def Lead (buf : Text) : Prop := (∀ c ∈ buf, isSpace c = true) ∨ buf = ['\'']

theorem lead_nil : Lead [] := .inl fun _ member => absurd member List.not_mem_nil

theorem declMatch_of_notWord {c : Char} (notWord : isWord c = false) (t : Text) : declMatch (c :: t) = none := by
  have noKeyword : ∀ kw : Text, kw ≠ [] → kw.all isWord = true → keywordMatch kw (c :: t) = none := by
    intro kw some word
    cases found : keywordMatch kw (c :: t) with
    | none => rfl
    | some u =>
      have starts := takeWhile_of_keywordMatch word found
      rw [List.takeWhile_cons_of_neg (by simp [notWord])] at starts
      exact absurd starts.symm some
  have kind : kindMatch (c :: t) = none := List.findSome?_eq_none_iff.mpr fun kind _ => by
    rw [noKeyword kind.text kind.word.nonempty kind.word.plain]
  rw [declMatch, noKeyword "oneway".toList (by decide) (by decide +kernel), kind]
  rfl

theorem noHeader_nil (term : Char) : NoHeader term [] := by
  have nothing : takeAnnotations [] = ([], []) := takeAnnotationsFrom_of_none rfl
  rw [NoHeader, nothing]
  exact declMatch_of_notWord (by decide) _

/-- A header starts with a word or an annotation. -/
theorem noHeader_of_notWord {c : Char} (solid : isSpace c = false) (notWord : isWord c = false) (notAt : c ≠ '@')
    (term : Char) (t : Text) : NoHeader term (strip (c :: t)) := by
  obtain ⟨u, same⟩ := rstrip_cons_ne_nil solid t
  have stripped : strip (c :: t) = c :: u := by rw [strip, lstrip_of_head solid, same]
  have unmatched : annotationMatch (c :: u) = none := by
    unfold annotationMatch
    split
    · rename_i head
      exact absurd (List.cons.inj head).1 notAt
    · rfl
  rw [NoHeader, takeAnnotations, strip_strip, stripped, takeAnnotationsFrom_of_none unmatched]
  exact declMatch_of_notWord notWord _

theorem noHeader_lead {term : Char} {buf header : Text} (lead : Lead buf) (plain : NoHeader term (strip header)) :
    NoHeader term (strip (buf ++ header)) := by
  rcases lead with blank | rfl
  · rwa [strip_blank_append blank]
  · exact noHeader_of_notWord (by decide) (by decide) (by decide) _ header

/-- Tokens with braces that open no type, and those of them behind the last brace. -/
inductive Harmless : List Spaced → List Spaced → Prop where
  | run {ts : List Spaced} (plain : ∀ t ∈ ts, t.token.plain = true) : Harmless ts ts
  | braces {run inner rest last : List Spaced} {before after : Gap} (plain : ∀ t ∈ run, t.token.plain = true)
      (header : NoHeader '\x7b' (strip (blankSpell run ++ before.blanks))) (enclosed : Enclosed inner)
      (more : Harmless rest last) :
      Harmless (run ++ ⟨before, .symbol .openBrace⟩ :: inner ++ ⟨after, .symbol .closeBrace⟩ :: rest) last

/-- An item for which nothing is recorded. -/
def Item.Skipped : Item → Prop
  | .decl header _ => NoHeader '\x7b' header
  | .stmt _ => False

/-- The text without its blanks is as long. -/
def extent (ts : List Spaced) : ℕ := (dropSpaces (blankSpell ts)).length

theorem extent_append (ts us : List Spaced) : extent (ts ++ us) = extent ts + extent us := by
  rw [extent, blankSpell_append, dropSpaces_append, List.length_append]
  rfl

theorem Harmless.last_plain {ts last : List Spaced} (harmless : Harmless ts last) : ∀ t ∈ last, t.token.plain = true := by
  induction harmless with
  | run plain => exact plain
  | braces _ _ _ _ ih => exact ih

/-- What is behind the last brace is shorter than the whole, if there is a brace. -/
theorem Harmless.extent_last {ts last : List Spaced} (harmless : Harmless ts last) :
    ((∀ t ∈ ts, t.token.plain = true) ∧ last = ts) ∨ (¬(∀ t ∈ ts, t.token.plain = true) ∧ extent last < extent ts) := by
  induction harmless with
  | run plain => exact .inl ⟨plain, rfl⟩
  | @braces run inner rest last before after _ _ _ _ ih =>
    refine .inr ⟨fun all => ?_, ?_⟩
    · have brace := all ⟨before, .symbol .openBrace⟩ (by simp)
      cases brace
    · have behind : extent last ≤ extent rest := by
        rcases ih with ⟨-, rfl⟩ | ⟨-, shorter⟩
        · exact Nat.le_refl _
        · exact shorter.le
      have brace : extent [⟨before, .symbol .openBrace⟩] = 1 := by
        simp only [extent, blankSpell_cons, dropSpaces_append, dropSpaces_of_blank before.isBlank]
        rfl
      have split : run ++ ⟨before, .symbol .openBrace⟩ :: inner ++ ⟨after, .symbol .closeBrace⟩ :: rest =
          run ++ ([⟨before, .symbol .openBrace⟩] ++ (inner ++ ([⟨after, .symbol .closeBrace⟩] ++ rest))) := by simp
      rw [split]
      simp only [extent_append, brace]
      omega

/-- The scanner passes over the braces. -/
theorem Harmless.split {ts last : List Spaced} (harmless : Harmless ts last) {buf : Text} (lead : Lead buf) :
    ∃ skipped buf', (∀ i ∈ skipped, i.Skipped) ∧ Lead buf' ∧ (buf' = buf ∨ buf' = []) ∧
      ((∀ t ∈ ts, t.token.plain = true) → skipped = [] ∧ buf' = buf) ∧
      ∀ r, splitFrom buf (blankSpell ts ++ r) = skipped ++ splitFrom buf' (blankSpell last ++ r) := by
  induction harmless generalizing buf with
  | run plain =>
    exact ⟨[], buf, fun _ member => absurd member List.not_mem_nil, lead, .inl rfl, fun _ => ⟨rfl, rfl⟩, fun _ => rfl⟩
  | @braces run inner rest last before after plain header enclosed more ih =>
    obtain ⟨skipped, buf', skips, lead', nothing, -, split⟩ := ih lead_nil
    refine ⟨.decl (strip (buf ++ (blankSpell run ++ before.blanks))) (blankSpell inner ++ after.blanks) :: skipped, buf', ?_,
      lead', .inr (nothing.elim id id), ?_, fun r => ?_⟩
    · intro i member
      rcases List.mem_cons.mp member with rfl | member
      · exact noHeader_lead lead header
      · exact skips i member
    · intro all
      have brace := all ⟨before, .symbol .openBrace⟩ (by simp)
      cases brace
    · have text : blankSpell (run ++ ⟨before, .symbol .openBrace⟩ :: inner ++ ⟨after, .symbol .closeBrace⟩ :: rest) ++ r =
          blankSpell run ++ before.blanks ++ '\x7b' :: (blankSpell inner ++ after.blanks ++ '\x7d' :: (blankSpell rest ++ r)) := by
        simp [blankSpell_append, Token.spell, Symbol.openBrace, Symbol.closeBrace]
      have carried := (carried_blankSpell plain).1.append (carried_of_plain before.plain)
      have inner : matchBrace 1 (blankSpell inner ++ after.blanks ++ '\x7d' :: (blankSpell rest ++ r)) =
          (blankSpell inner ++ after.blanks ++ ['\x7d'], blankSpell rest ++ r) := by
        rw [(enclosed.passed.append (passed_of_plain after.plain)) 0, matchBrace, matchBrace]
      rw [text, carried, splitFrom, inner, List.dropLast_concat, split]
      rfl

/-! ### Headers with braces -/

/-- What starts with the token is no header. -/
def Token.continues : Token → Bool
  | .word w => w.text != Word.oneway.text && Kind.all.all (fun kind => w.text != kind.text)
  | .symbol s => s.char != '@'
  | _ => true

theorem Token.continues_of_isConstant {t : Token} (constant : t.isConstant = true) : t.continues = true := by
  cases t with
  | word w => exact constant
  | symbol s =>
    rw [Token.isConstant, Bool.and_eq_true] at constant
    exact constant.1
  | string l => rfl
  | char c single => rfl

theorem noHeader_continues {ts : List Spaced} (apart : Apart ts) (continues : ∀ t ∈ ts.head?, t.token.continues = true)
    (gap : Gap) (term : Char) : NoHeader term (strip (blankSpell ts ++ gap.blanks)) := by
  cases ts with
  | nil =>
    have nothing : strip (blankSpell [] ++ gap.blanks) = [] := strip_eq_nil_iff.mpr gap.isBlank
    rw [nothing]
    exact noHeader_nil term
  | cons t ts =>
    have starts := continues t rfl
    have same := strip_blankSpell (firm_blankSpell (List.cons_ne_nil t ts)) gap.isBlank
    have fixed : strip (t.token.spell ++ blankSpell ts) = t.token.spell ++ blankSpell ts := by rw [← same, strip_strip]
    rw [same]
    cases token : t.token with
    | word w =>
      rw [token, Token.continues, Bool.and_eq_true, List.all_eq_true] at starts
      have stops : t.token.Stops (blankSpell ts ++ [' ', term]) := by
        cases ts with
        | nil =>
          rintro - - c u same
          cases same
          decide
        | cons u ts => exact (List.rel_of_isChain_cons_cons apart).stops ts [' ', term]
      rw [token] at stops fixed
      have notOneway : w.text ≠ Word.oneway.text := by simpa using starts.1
      have noKind : ∀ kind : Kind, w.text ≠ kind.text := fun kind => by
        have member : kind ∈ Kind.all := by cases kind <;> decide
        simpa using starts.2 kind member
      have unread := declMatch_token stops notOneway noKind
      have read : takeAnnotationsFrom ((Token.word w).spell ++ blankSpell ts) = ([], (Token.word w).spell ++ blankSpell ts) :=
        takeAnnotationsFrom_of_none (annotationMatch_word w _)
      rw [NoHeader, takeAnnotations, fixed, read, List.append_assoc]
      exact unread
    | symbol s =>
      rw [token] at starts fixed
      rw [← fixed]
      exact noHeader_of_notWord s.solid s.notWord (by simpa [Token.continues] using starts) term _
    | string l =>
      rw [token] at fixed
      rw [← fixed]
      exact noHeader_of_notWord (by decide) (by decide) (by decide) term _
    | char c single =>
      rw [token] at fixed
      rw [← fixed]
      exact noHeader_of_notWord (by decide) (by decide) (by decide) term _

/-- The header is read as parts in braces, none of which is taken for a header. -/
def Torn (ts : List Spaced) : Prop :=
  ∃ last, Harmless ts last ∧ ∀ (gap : Gap) (term : Char), NoHeader term (strip (blankSpell last ++ gap.blanks))

/-- Tokens that can follow anything behind a brace. -/
def Trailing (rest : List Spaced) : Prop :=
  ∀ run, (∀ t ∈ run, t.token.plain = true) → run ≠ [] → (∀ t ∈ run.head?, t.token.continues = true) → Apart (run ++ rest) →
    Torn (run ++ rest)

theorem trailing_plain {ts : List Spaced} (plain : ∀ t ∈ ts, t.token.plain = true) : Trailing ts := by
  intro run plainRun some continues apart
  refine ⟨run ++ ts, .run fun t member => ?_, noHeader_continues apart fun t first => ?_⟩
  · exact (List.mem_append.mp member).elim (plainRun t) (plain t)
  · rw [List.head?_append_of_ne_nil _ some] at first
    exact continues t first

theorem Trailing.cons {t : Spaced} {ts : List Spaced} (plain : t.token.plain = true) (rest : Trailing ts) :
    Trailing (t :: ts) := by
  intro run plainRun some continues apart
  rw [List.append_cons] at apart ⊢
  refine rest (run ++ [t]) (fun u member => ?_) (List.append_ne_nil_of_left_ne_nil some _) (fun u first => ?_) apart
  · rcases List.mem_append.mp member with among | last
    · exact plainRun u among
    · exact List.mem_singleton.mp last ▸ plain
  · rw [List.head?_append_of_ne_nil _ some] at first
    exact continues u first

/-- The token is no char literal of a semicolon. -/
def Token.noSemicolon : Token → Bool
  | .char c _ => c != ';'
  | _ => true

theorem Token.plain_of_constant {t : Token} (closed : t.closed = true) (constant : t.isConstant = true)
    (noSemicolon : t.noSemicolon = true) : t.plain = true := by
  cases t with
  | word w => rfl
  | string l => rfl
  | symbol s =>
    have braces : s.char ≠ '\x7b' ∧ s.char ≠ '\x7d' := by simpa [Token.closed] using closed
    have others : s.char ≠ '@' ∧ s.char ≠ ';' := by simpa [Token.isConstant] using constant
    simp [Token.plain, isStructural, s.notQuote.1, others.2, braces]
  | char c single =>
    have others : c ≠ '"' ∧ c ≠ '\x7b' ∧ c ≠ '\x7d' := by simpa [Token.closed, and_assoc] using closed
    have semicolon : c ≠ ';' := by simpa [Token.noSemicolon] using noSemicolon
    simp [Token.plain, isStructural, others, semicolon]

theorem continues_concat {run : List Spaced} (continues : ∀ t ∈ run.head?, t.token.continues = true) {u : Spaced}
    (next : u.token.continues = true) : ∀ t ∈ (run ++ [u]).head?, t.token.continues = true := by
  cases run with
  | nil =>
    intro t first
    cases first
    exact next
  | cons v run => exact continues

theorem plain_concat {run : List Spaced} (plain : ∀ t ∈ run, t.token.plain = true) {u : Spaced}
    (next : u.token.plain = true) : ∀ t ∈ run ++ [u], t.token.plain = true := by
  intro t member
  rcases List.mem_append.mp member with among | last
  · exact plain t among
  · exact List.mem_singleton.mp last ▸ next

/-- A constant expression up to its closing parenthesis. -/
theorem Enclosed.torn {args : List Spaced} (enclosed : Enclosed args) (constant : ∀ t ∈ args, t.token.isConstant = true)
    (noSemicolon : ∀ t ∈ args, t.token.noSemicolon = true) {g : Gap} {rest : List Spaced} (trailing : Trailing rest)
    {run : List Spaced} (plain : ∀ t ∈ run, t.token.plain = true) (continues : ∀ t ∈ run.head?, t.token.continues = true)
    (apart : Apart (run ++ (args ++ ⟨g, .symbol .closeParen⟩ :: rest))) :
    Torn (run ++ (args ++ ⟨g, .symbol .closeParen⟩ :: rest)) := by
  induction enclosed generalizing run with
  | nil =>
    rw [List.nil_append, List.append_cons] at apart ⊢
    exact trailing _ (plain_concat plain rfl) (List.append_ne_nil_of_right_ne_nil _ (List.cons_ne_nil _ _))
      (continues_concat continues rfl) apart
  | @token t ts closed _ ih =>
    have constant' := constant t List.mem_cons_self
    have plain' := Token.plain_of_constant closed constant' (noSemicolon t List.mem_cons_self)
    rw [List.cons_append, List.append_cons] at apart ⊢
    exact ih (fun u member => constant u (List.mem_cons_of_mem _ member))
      (fun u member => noSemicolon u (List.mem_cons_of_mem _ member)) (plain_concat plain plain')
      (continues_concat continues (Token.continues_of_isConstant constant')) apart
  | @braces before after ts us inner _ _ ih =>
    have text : run ++ (⟨before, .symbol .openBrace⟩ :: ts ++ ⟨after, .symbol .closeBrace⟩ :: us ++
          ⟨g, .symbol .closeParen⟩ :: rest) =
        run ++ ⟨before, .symbol .openBrace⟩ :: ts ++ ⟨after, .symbol .closeBrace⟩ ::
          (us ++ ⟨g, .symbol .closeParen⟩ :: rest) := by simp
    have among : ∀ t ∈ us, t ∈ ⟨before, .symbol .openBrace⟩ :: ts ++ ⟨after, .symbol .closeBrace⟩ :: us := fun t member => by
      simp [member]
    rw [text] at apart ⊢
    have behind : Apart (us ++ ⟨g, .symbol .closeParen⟩ :: rest) := apart.right_of_append.of_cons
    have first : Apart run := (List.append_assoc run _ _ ▸ apart).left_of_append
    obtain ⟨last, harmless, none⟩ : Torn ([] ++ (us ++ ⟨g, .symbol .closeParen⟩ :: rest)) :=
      ih (fun t member => constant t (among t member)) (fun t member => noSemicolon t (among t member))
        (fun _ member => absurd member List.not_mem_nil) (fun _ member => by cases member) behind
    exact ⟨last, .braces plain (noHeader_continues first continues before _) inner harmless, none⟩

/-- The braces between the parentheses are balanced, and no char literal is one of a character that ends a statement. -/
def AnnotationTerm.Balanced (a : AnnotationTerm) : Prop := Enclosed a.inside ∧ ∀ t ∈ a.inside, t.token.noSemicolon = true

theorem AnnotationTerm.constant (a : AnnotationTerm) : ∀ t ∈ a.inside, t.token.isConstant = true := by
  rw [AnnotationTerm.inside]
  cases a.arguments with
  | none => exact fun _ member => absurd member List.not_mem_nil
  | some args => exact args.constant

theorem Trailing.annotated {a : AnnotationTerm} (balanced : a.Balanced) {rest : List Spaced} (trailing : Trailing rest) :
    Trailing (a.tokens ++ rest) := by
  have constant := a.constant
  rw [AnnotationTerm.Balanced] at balanced
  rw [AnnotationTerm.inside] at balanced constant
  rw [AnnotationTerm.tokens]
  cases found : a.arguments with
  | none => exact (trailing.cons rfl).cons rfl
  | some args =>
    rw [found] at balanced constant
    simp only [List.cons_append, List.append_assoc]
    refine Trailing.cons rfl (Trailing.cons rfl fun run plain some continues apart => ?_)
    rw [List.append_cons] at apart ⊢
    refine balanced.1.torn constant balanced.2 trailing (plain_concat plain rfl) (fun t first => ?_) apart
    rw [List.head?_append_of_ne_nil _ some] at first
    exact continues t first

theorem argsMatch_open {g x : Text} (blank : ∀ c ∈ g, isSpace c = true) (open' : ')' ∉ x) : argsMatch (g ++ '(' :: x) = none := by
  have nothing : x.dropWhile (· != ')') = [] :=
    List.dropWhile_eq_nil_iff.mpr fun c member => by simpa using fun same : c = ')' => open' (same ▸ member)
  unfold argsMatch
  rw [dropWhile_append_cons blank (by decide)]
  simp only [nothing]

/-- An annotation whose arguments are not closed ends at its name. -/
theorem noHeader_open {as : List AnnotationTerm} (closed : ∀ a ∈ as, a.Closed) {g g' : Gap} {name : Word} {ts : List Spaced}
    (open' : ∀ t ∈ ts, ')' ∉ t.token.spell)
    (apart : Apart (as.flatMap AnnotationTerm.tokens ++
      ⟨g, .symbol .at⟩ :: ⟨[], .word name⟩ :: ⟨g', .symbol .openParen⟩ :: ts)) (gap : Gap) (term : Char) :
    NoHeader term (strip (blankSpell (as.flatMap AnnotationTerm.tokens ++
      ⟨g, .symbol .at⟩ :: ⟨[], .word name⟩ :: ⟨g', .symbol .openParen⟩ :: ts) ++ gap.blanks)) := by
  have noBlank : ∀ c ∈ ([] : Text), isSpace c = true := fun _ member => absurd member List.not_mem_nil
  have stripped := strip_append_space noBlank gap.isBlank (blankSpell (as.flatMap AnnotationTerm.tokens ++
      ⟨g, .symbol .at⟩ :: ⟨[], .word name⟩ :: ⟨g', .symbol .openParen⟩ :: ts))
  have rest := strip_blankSpell (firm_blankSpell (List.cons_ne_nil (⟨g, .symbol .at⟩ : Spaced)
    (⟨[], .word name⟩ :: ⟨g', .symbol .openParen⟩ :: ts))) noBlank
  have text : (Token.symbol Symbol.at).spell ++ blankSpell (⟨[], .word name⟩ :: ⟨g', .symbol .openParen⟩ :: ts) =
      '@' :: (name.text ++ (g'.blanks ++ '(' :: blankSpell ts)) := by
    simp [Gap.blanks, Token.spell, Symbol.at, Symbol.openParen]
  have unclosed : ')' ∉ blankSpell ts := by
    intro member
    rcases mem_blankSpell member with blank | ⟨t, among, inside⟩
    · cases blank
    · exact open' t among inside
  have word : ∀ c u, g'.blanks ++ '(' :: blankSpell ts = c :: u → isWord c = false := by
    intro c u same
    cases blanks : g'.blanks with
    | nil =>
      rw [blanks] at same
      cases same
      decide
    | cons d v =>
      rw [blanks] at same
      cases same
      exact not_isWord_of_isSpace (g'.isBlank c (blanks ▸ List.mem_cons_self))
  obtain ⟨taken, left⟩ := takeWhile_word name word
  have matched : annotationMatch ('@' :: (name.text ++ (g'.blanks ++ '(' :: blankSpell ts))) =
      some ('@' :: name.text, g'.blanks ++ '(' :: blankSpell ts) := by
    rw [annotationMatch, taken, left, if_neg name.nonempty, argsMatch_open g'.isBlank unclosed]
  have unread := noHeader_of_notWord (c := '(') (by decide) (by decide) (by decide) term (blankSpell ts)
  rw [NoHeader, takeAnnotations, strip_strip] at unread ⊢
  rw [List.nil_append] at stripped
  rw [List.append_nil] at rest
  rw [stripped, takeAnnotationsFrom_annotations closed apart (fun u paren => by cases paren), rest, text,
    takeAnnotationsFrom_of_match matched, strip_blank_append g'.isBlank]
  exact unread

/-- The first annotation with braces: what is before its first brace ends in arguments that are not closed. -/
theorem Enclosed.torn_first {args : List Spaced} (enclosed : Enclosed args)
    (constant : ∀ t ∈ args, t.token.isConstant = true) (noSemicolon : ∀ t ∈ args, t.token.noSemicolon = true)
    (closed : ∀ t ∈ args, ')' ∉ t.token.spell) (braced : ¬∀ t ∈ args, t.token.plain = true) {g : Gap} {rest : List Spaced}
    (trailing : Trailing rest) {run : List Spaced} (plain : ∀ t ∈ run, t.token.plain = true)
    (header : ∀ ts, (∀ t ∈ ts, ')' ∉ t.token.spell) → Apart (run ++ ts) → ∀ gap : Gap,
      NoHeader '\x7b' (strip (blankSpell (run ++ ts) ++ gap.blanks)))
    (apart : Apart (run ++ (args ++ ⟨g, .symbol .closeParen⟩ :: rest))) :
    Torn (run ++ (args ++ ⟨g, .symbol .closeParen⟩ :: rest)) := by
  induction enclosed generalizing run with
  | nil => exact absurd (fun _ member => absurd member List.not_mem_nil) braced
  | @token t ts closed' _ ih =>
    have plain' := Token.plain_of_constant closed' (constant t List.mem_cons_self) (noSemicolon t List.mem_cons_self)
    have braced' : ¬∀ u ∈ ts, u.token.plain = true := fun all => braced fun u member => by
      rcases List.mem_cons.mp member with rfl | member
      · exact plain'
      · exact all u member
    rw [List.cons_append, List.append_cons] at apart ⊢
    refine ih (fun u member => constant u (List.mem_cons_of_mem _ member))
      (fun u member => noSemicolon u (List.mem_cons_of_mem _ member)) (fun u member => closed u (List.mem_cons_of_mem _ member))
      braced' (plain_concat plain plain') (fun us open' apart' gap => ?_) apart
    rw [← List.append_cons] at apart' ⊢
    refine header (t :: us) (fun u member => ?_) apart' gap
    rcases List.mem_cons.mp member with rfl | member
    · exact closed u List.mem_cons_self
    · exact open' u member
  | @braces before after ts us inner more _ _ =>
    have text : run ++ (⟨before, .symbol .openBrace⟩ :: ts ++ ⟨after, .symbol .closeBrace⟩ :: us ++
          ⟨g, .symbol .closeParen⟩ :: rest) =
        run ++ ⟨before, .symbol .openBrace⟩ :: ts ++ ⟨after, .symbol .closeBrace⟩ ::
          (us ++ ⟨g, .symbol .closeParen⟩ :: rest) := by simp
    have among : ∀ t ∈ us, t ∈ ⟨before, .symbol .openBrace⟩ :: ts ++ ⟨after, .symbol .closeBrace⟩ :: us := fun t member => by
      simp [member]
    rw [text] at apart ⊢
    have first : Apart run := (List.append_assoc run _ _ ▸ apart).left_of_append
    have named := header [] (fun _ member => absurd member List.not_mem_nil) (by rwa [List.append_nil]) before
    rw [List.append_nil] at named
    obtain ⟨last, harmless, none⟩ : Torn ([] ++ (us ++ ⟨g, .symbol .closeParen⟩ :: rest)) :=
      more.torn (fun t member => constant t (among t member)) (fun t member => noSemicolon t (among t member)) trailing
        (fun _ member => absurd member List.not_mem_nil) (fun _ member => by cases member)
        apart.right_of_append.of_cons
    exact ⟨last, .braces plain named inner harmless, none⟩

theorem AnnotationTerm.Plain.tokens {a : AnnotationTerm} (plain : a.Plain) : ∀ t ∈ a.tokens, t.token.plain = true := by
  intro t member
  rcases a.mem_tokens member with among | same | same | same | same
  · exact plain t among
  all_goals
    rw [same]
    rfl

theorem plain_annotations {as : List AnnotationTerm} (plain : ∀ a ∈ as, a.Plain) :
    ∀ t ∈ as.flatMap AnnotationTerm.tokens, t.token.plain = true := by
  intro t member
  obtain ⟨a, among, inside⟩ := List.mem_flatMap.mp member
  exact (plain a among).tokens t inside

theorem Trailing.annotations {as : List AnnotationTerm} (balanced : ∀ a ∈ as, a.Balanced) {rest : List Spaced}
    (trailing : Trailing rest) : Trailing (as.flatMap AnnotationTerm.tokens ++ rest) := by
  induction as with
  | nil => exact trailing
  | cons a as ih =>
    rw [List.flatMap_cons, List.append_assoc]
    exact (ih fun b member => balanced b (List.mem_cons_of_mem _ member)).annotated (balanced a List.mem_cons_self)

theorem torn_annotated {as : List AnnotationTerm} (plain : ∀ a ∈ as, a.Plain) (closed : ∀ a ∈ as, a.Closed) {a : AnnotationTerm}
    (balanced : a.Balanced) (closed' : a.Closed) (braced : ¬a.Plain) {rest : List Spaced} (trailing : Trailing rest)
    (apart : Apart (as.flatMap AnnotationTerm.tokens ++ (a.tokens ++ rest))) :
    Torn (as.flatMap AnnotationTerm.tokens ++ (a.tokens ++ rest)) := by
  have constant := a.constant
  rw [AnnotationTerm.Balanced] at balanced
  rw [AnnotationTerm.Closed] at closed'
  rw [AnnotationTerm.Plain] at braced
  rw [AnnotationTerm.inside] at balanced closed' braced constant
  rw [AnnotationTerm.tokens] at apart ⊢
  cases found : a.arguments with
  | none =>
    rw [found] at braced
    exact absurd (fun _ member => absurd member List.not_mem_nil) braced
  | some args =>
    rw [found] at balanced closed' braced constant apart
    have text : as.flatMap AnnotationTerm.tokens ++ (⟨a.gap, .symbol .at⟩ :: ⟨[], .word a.name⟩ ::
          (⟨args.before, .symbol .openParen⟩ :: args.tokens ++ [⟨args.after, .symbol .closeParen⟩]) ++ rest) =
        as.flatMap AnnotationTerm.tokens ++ [⟨a.gap, .symbol .at⟩, ⟨[], .word a.name⟩, ⟨args.before, .symbol .openParen⟩] ++
          (args.tokens ++ ⟨args.after, .symbol .closeParen⟩ :: rest) := by simp
    simp only at apart ⊢
    rw [text] at apart ⊢
    refine balanced.1.torn_first constant balanced.2 closed' braced trailing (fun t member => ?_)
      (fun ts open' apart' gap => ?_) apart
    · rcases List.mem_append.mp member with among | among
      · exact plain_annotations plain t among
      · simp only [List.mem_cons, List.not_mem_nil, or_false] at among
        rcases among with rfl | rfl | rfl
        all_goals rfl
    · rw [List.append_assoc] at apart' ⊢
      exact noHeader_open closed open' apart' gap _

/-- The arguments of its annotations have balanced braces, and the type parameters have none. -/
structure Head.Balanced (h : Head) : Prop where
  annotations : ∀ a ∈ h.annotations, a.Balanced
  parameters : ∀ t ∈ h.parameterTokens, t.token.plain = true

/-- The tokens of a header behind its annotations. -/
def Head.declared (h : Head) (kind : Kind) : List Spaced :=
  (h.oneway.map fun gap => (⟨gap, .word .oneway⟩ : Spaced)).toList ++
    ⟨h.kindGap, .word kind.word⟩ :: ⟨h.nameGap, .word h.name⟩ :: h.parameterTokens

theorem Head.tokens_eq (h : Head) (kind : Kind) : h.tokens kind = h.annotations.flatMap AnnotationTerm.tokens ++ h.declared kind :=
  List.append_assoc ..

theorem Head.Balanced.declared {h : Head} (balanced : h.Balanced) (kind : Kind) :
    ∀ t ∈ h.declared kind, t.token.plain = true := by
  intro t member
  simp only [Head.declared, List.mem_append, Option.mem_toList, Option.map_eq_some_iff, List.mem_cons] at member
  rcases member with ⟨gap, -, rfl⟩ | rfl | rfl | among
  · rfl
  · rfl
  · rfl
  · exact balanced.parameters t among

theorem Head.Balanced.plain {h : Head} (balanced : h.Balanced) (plain : ∀ a ∈ h.annotations, a.Plain) (kind : Kind) :
    ∀ t ∈ h.tokens kind, t.token.plain = true := by
  rw [h.tokens_eq]
  exact fun t member => (List.mem_append.mp member).elim (plain_annotations plain t) (balanced.declared kind t)

/-- A header with braces in its annotations is torn at the first of them. -/
theorem Head.Balanced.torn {h : Head} (balanced : h.Balanced) (closed : h.Closed) (braced : ¬∀ a ∈ h.annotations, a.Plain)
    {kind : Kind} (apart : Apart (h.tokens kind)) : Torn (h.tokens kind) := by
  suffices first : ∀ as pre : List AnnotationTerm, (∀ a ∈ pre, a.Plain) → (∀ a ∈ pre ++ as, a.Closed) → (∀ a ∈ as, a.Balanced) →
      (¬∀ a ∈ as, a.Plain) → Apart ((pre ++ as).flatMap AnnotationTerm.tokens ++ h.declared kind) →
      Torn ((pre ++ as).flatMap AnnotationTerm.tokens ++ h.declared kind) by
    rw [h.tokens_eq] at apart ⊢
    exact first h.annotations [] (fun _ member => absurd member List.not_mem_nil) closed balanced.annotations braced apart
  have trailing : Trailing (h.declared kind) := trailing_plain (balanced.declared kind)
  intro as
  induction as with
  | nil => exact fun _ _ _ _ braced _ => absurd (fun _ member => absurd member List.not_mem_nil) braced
  | cons a as ih =>
    intro pre plain closed balanced braced apart
    by_cases here : a.Plain
    · rw [List.append_cons] at closed apart ⊢
      refine ih (pre ++ [a]) (fun b member => ?_) closed (fun b member => balanced b (List.mem_cons_of_mem _ member))
        (fun all => braced fun b member => ?_) apart
      · rcases List.mem_append.mp member with among | last
        · exact plain b among
        · exact List.mem_singleton.mp last ▸ here
      · rcases List.mem_cons.mp member with rfl | member
        · exact here
        · exact all b member
    · rw [List.flatMap_append, List.flatMap_cons, List.append_assoc, List.append_assoc] at apart ⊢
      exact torn_annotated plain (fun b member => closed b (List.mem_append_left _ member)) (balanced a List.mem_cons_self)
        (closed a (List.mem_append_right _ List.mem_cons_self)) here
        (trailing.annotations fun b member => balanced b (List.mem_cons_of_mem _ member)) apart

theorem AnnotationTerm.Balanced.enclosed {a : AnnotationTerm} (balanced : a.Balanced) : Enclosed a.tokens := by
  have args := balanced.1
  rw [AnnotationTerm.inside] at args
  rw [AnnotationTerm.tokens]
  cases found : a.arguments with
  | none => exact .token rfl (.token rfl .nil)
  | some arguments =>
    rw [found] at args
    exact .token rfl (.token rfl (.token rfl (Enclosed.append args (.token rfl .nil))))

theorem Head.Balanced.enclosed {h : Head} (balanced : h.Balanced) (kind : Kind) : Enclosed (h.tokens kind) := by
  have all : ∀ as : List AnnotationTerm, (∀ a ∈ as, a.Balanced) → Enclosed (as.flatMap AnnotationTerm.tokens) := by
    intro as balanced
    induction as with
    | nil => exact .nil
    | cons a as ih =>
      rw [List.flatMap_cons]
      exact (balanced a List.mem_cons_self).enclosed.append (ih fun b member => balanced b (List.mem_cons_of_mem _ member))
  rw [h.tokens_eq]
  exact (all _ balanced.annotations).append (enclosed_of_plain (balanced.declared kind))

/-! ### Splitting headers -/

/-- The text of a header up to its body. -/
def Head.text (h : Head) (kind : Kind) (gap : Gap) : Text := blankSpell (h.tokens kind) ++ gap.blanks

/-- A header without braces belongs to one item. -/
theorem Head.Balanced.carried {h : Head} (balanced : h.Balanced) (plain : ∀ a ∈ h.annotations, a.Plain) (kind : Kind)
    (gap : Gap) : Carried (h.text kind gap) :=
  (carried_blankSpell (balanced.plain plain kind)).1.append (carried_of_plain gap.plain)

/-- Nothing is found in a torn header, nor in the body behind it. -/
theorem Torn.split_type {ts : List Spaced} (torn : Torn ts) {buf : Text} (lead : Lead buf) (gap : Gap) {y : Text}
    (passed : Passed y) : ∃ skipped : List Item, (∀ i ∈ skipped, i.Skipped) ∧
      ∀ r, splitFrom buf (blankSpell ts ++ gap.blanks ++ '\x7b' :: (y ++ '\x7d' :: r)) = skipped ++ splitFrom [] r := by
  obtain ⟨last, harmless, none⟩ := torn
  obtain ⟨skipped, buf', skips, lead', -, -, split⟩ := harmless.split lead
  refine ⟨skipped ++ [.decl (strip (buf' ++ (blankSpell last ++ gap.blanks))) y], fun i member => ?_, fun r => ?_⟩
  · rcases List.mem_append.mp member with among | last
    · exact skips i among
    · rw [List.mem_singleton.mp last]
      exact noHeader_lead lead' (none gap _)
  · have inner : matchBrace 1 (y ++ '\x7d' :: r) = (y ++ ['\x7d'], r) := by
      rw [passed 0, matchBrace, matchBrace]
    have carried := (carried_blankSpell harmless.last_plain).1.append (carried_of_plain gap.plain)
    have text : splitFrom buf' (blankSpell last ++ (gap.blanks ++ '\x7b' :: (y ++ '\x7d' :: r))) =
        .decl (strip (buf' ++ (blankSpell last ++ gap.blanks))) y :: splitFrom [] r := by
      rw [← List.append_assoc, carried, splitFrom, inner, List.dropLast_concat]
    rw [List.append_assoc, split, text, List.append_assoc, List.singleton_append]

theorem Torn.split_forward {ts : List Spaced} (torn : Torn ts) {buf : Text} (lead : Lead buf) (gap : Gap) :
    ∃ (skipped : List Item) (last : Text), (∀ i ∈ skipped, i.Skipped) ∧ NoHeader ';' (strip last) ∧
      ∀ r, splitFrom buf (blankSpell ts ++ gap.blanks ++ ';' :: r) = skipped ++ (flushStmt last ++ splitFrom [] r) := by
  obtain ⟨last, harmless, none⟩ := torn
  obtain ⟨skipped, buf', skips, lead', -, -, split⟩ := harmless.split lead
  refine ⟨skipped, buf' ++ (blankSpell last ++ gap.blanks), skips, noHeader_lead lead' (none gap _), fun r => ?_⟩
  have carried := (carried_blankSpell harmless.last_plain).1.append (carried_of_plain gap.plain)
  have text : splitFrom buf' (blankSpell last ++ (gap.blanks ++ ';' :: r)) =
      flushStmt (buf' ++ (blankSpell last ++ gap.blanks)) ++ splitFrom [] r := by
    rw [← List.append_assoc, carried, splitFrom]
  rw [List.append_assoc, split, text]

end BinderIdl.Surface
