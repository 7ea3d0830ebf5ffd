import BinderIdl.Theorems.Bodies

/-! Files in any layout: the clauses in front of the declarations, and what is recorded for a whole source. -/

namespace BinderIdl.Surface
open Py

/-! ### Line starts -/

/-- The keywords of clauses. -/
def clauseKeywords : List Text := ["package".toList, "import".toList]

/-- What stands before the flag `lineStart` is reached behind a text. -/
def lineStartBehind (lineStart : Bool) (t : Text) : Bool := (t.getLast?.map (· == '\n')).getD lineStart

theorem lineStartBehind_cons (lineStart : Bool) (c : Char) (t : Text) :
    lineStartBehind lineStart (c :: t) = lineStartBehind (c == '\n') t := by
  cases t with
  | nil => rfl
  | cons d t => rw [lineStartBehind, lineStartBehind, List.getLast?_cons_cons, List.getLast?_cons, Option.map_some]; rfl

/-- No clause is found at the line starts of a text that is followed by `r`. -/
def Quiet (keywords : List Text) (inName : Char → Bool) (r : Text) : Bool → Text → Prop
  | _, [] => True
  | lineStart, c :: t =>
    (lineStart = true → clauseMatch keywords inName (c :: (t ++ r)) = none) ∧ Quiet keywords inName r (c == '\n') t

section Quiet
variable {keywords : List Text} {inName : Char → Bool} {r t u : Text} {lineStart : Bool}

theorem Quiet.append (first : Quiet keywords inName (u ++ r) lineStart t)
    (second : Quiet keywords inName r (lineStartBehind lineStart t) u) : Quiet keywords inName r lineStart (t ++ u) := by
  induction t generalizing lineStart with
  | nil => exact second
  | cons c t ih =>
    rw [lineStartBehind_cons] at second
    refine ⟨fun start => ?_, ih first.2 second⟩
    show clauseMatch keywords inName (c :: ((t ++ u) ++ r)) = none
    rw [List.append_assoc]
    exact first.1 start

/-- Inside a line no clause is looked for. -/
theorem quiet_of_single (single : '\n' ∉ t) : Quiet keywords inName r false t := by
  induction t with
  | nil => trivial
  | cons c t ih =>
    have other : (c == '\n') = false := by simpa using fun same : c = '\n' => single (same ▸ List.mem_cons_self)
    refine ⟨fun start => absurd start Bool.false_ne_true, ?_⟩
    rw [other]
    exact ih fun member => single (List.mem_cons_of_mem _ member)

theorem removeImports_of_none {c : Char} {u : Text}
    (none : lineStart = true → clauseMatch clauseKeywords inClause (c :: u) = .none) :
    removeImports lineStart (c :: u) = c :: removeImports (c == '\n') u := by
  rw [removeImports]
  split
  · rename_i found
    split at found
    · rename_i start
      cases (none start).symm.trans found
    · cases found
  · rfl

theorem removeImports_of_match {c : Char} {u : Text} {name rest : Text}
    (found : clauseMatch clauseKeywords inClause (c :: u) = some (name, rest)) :
    removeImports true (c :: u) = removeImports false rest := by
  rw [removeImports]
  split
  · rename_i found'
    rw [if_pos rfl] at found'
    cases found.symm.trans found'
    rfl
  · rename_i none
    rw [if_pos rfl] at none
    cases found.symm.trans none

theorem Quiet.removeImports (quiet : Quiet clauseKeywords inClause r lineStart t) :
    removeImports lineStart (t ++ r) = t ++ removeImports (lineStartBehind lineStart t) r := by
  induction t generalizing lineStart with
  | nil => rfl
  | cons c t ih =>
    rw [List.cons_append, removeImports_of_none quiet.1, ih quiet.2, lineStartBehind_cons]
    rfl

theorem Quiet.searchPackage
    (quiet : Quiet ["package".toList] (fun d => isWord d || d == '.') r lineStart t) :
    searchPackage lineStart (t ++ r) = searchPackage (lineStartBehind lineStart t) r := by
  induction t generalizing lineStart with
  | nil => rfl
  | cons c t ih =>
    rw [List.cons_append, Surface.searchPackage, lineStartBehind_cons]
    split
    · rename_i found
      split at found
      · rename_i start
        cases (quiet.1 start).symm.trans found
      · cases found
    · exact ih quiet.2

end Quiet

/-! ### Tokens that start no clause -/

theorem Token.dropWhile_spell (t : Token) (r : Text) : (t.spell ++ r).dropWhile isSpace = t.spell ++ r := by
  obtain ⟨c, u, head, solid⟩ := t.spell_head
  rw [head]
  exact List.dropWhile_cons_of_neg (by simp [solid])

/-- The words are not empty. -/
def Keywords (kws : List Text) : Prop := ∀ kw ∈ kws, kw ≠ [] ∧ kw.all isWord = true

section Tokens
variable {kws : List Text} {inName : Char → Bool} {r : Text}

theorem clauseMatch_token (words : Keywords kws) {t : Token} (stops : t.Stops r) (other : t.spell ∉ kws) :
    clauseMatch kws inName (t.spell ++ r) = none := by
  refine List.findSome?_eq_none_iff.mpr fun kw member => ?_
  rw [t.dropWhile_spell, keywordMatch_token (words kw member) stops fun same => other (same ▸ member)]

theorem clauseMatch_blank {g : Text} (blank : ∀ c ∈ g, isSpace c = true) (t : Text) :
    clauseMatch kws inName (g ++ t) = clauseMatch kws inName t := by
  rw [clauseMatch, clauseMatch, List.dropWhile_append_of_pos blank]

theorem quiet_blank {g t : Text} (blank : ∀ c ∈ g, isSpace c = true) (none : clauseMatch kws inName t = none)
    (lineStart : Bool) : Quiet kws inName t lineStart g := by
  induction g generalizing lineStart with
  | nil => trivial
  | cons c g ih =>
    refine ⟨fun _ => ?_, ih (fun d member => blank d (List.mem_cons_of_mem _ member)) _⟩
    exact (clauseMatch_blank blank t).trans none

theorem Token.single (t : Token) : '\n' ∉ t.spell := by
  cases t with
  | word w => exact fun member => absurd (w.isWord_of_mem member) (by decide)
  | symbol s =>
    intro member
    have solid := s.solid
    rw [← List.mem_singleton.mp member] at solid
    cases solid
  | string l =>
    intro member
    simp only [Token.spell, List.cons_append, List.mem_cons, List.mem_append, List.not_mem_nil, or_false] at member
    rcases member with quote | inside | quote
    · cases quote
    · exact l.single inside
    · cases quote
  | char c single =>
    intro member
    simp only [Token.spell, List.mem_cons, List.not_mem_nil, or_false] at member
    rcases member with quote | same | quote
    · cases quote
    · exact single same.symm
    · cases quote

theorem quiet_token (words : Keywords kws) {t : Token} (stops : t.Stops r) (other : t.spell ∉ kws) (lineStart : Bool) :
    Quiet kws inName r lineStart t.spell := by
  have none : clauseMatch kws inName (t.spell ++ r) = .none := clauseMatch_token words stops other
  have single := t.single
  obtain ⟨c, u, head, -⟩ := t.spell_head
  rw [head] at none single ⊢
  refine ⟨fun _ => none, ?_⟩
  have first : (c == '\n') = false := by simpa using fun same : c = '\n' => single (same ▸ List.mem_cons_self)
  rw [first]
  exact quiet_of_single fun member => single (List.mem_cons_of_mem _ member)

/-- No clause is found among tokens without its keywords. -/
theorem quiet_tokens (words : Keywords kws) {ts : List Spaced} (apart : Apart ts) (others : ∀ t ∈ ts, t.token.spell ∉ kws)
    (last : ∀ t ∈ ts.getLast?, t.token.Stops r) (lineStart : Bool) : Quiet kws inName r lineStart (blankSpell ts) := by
  induction ts generalizing lineStart with
  | nil => trivial
  | cons t ts ih =>
    have stops : t.token.Stops (blankSpell ts ++ r) := by
      cases ts with
      | nil => exact last t rfl
      | cons u ts => exact (List.rel_of_isChain_cons_cons apart).stops ts r
    have other := others t List.mem_cons_self
    have rest := ih apart.of_cons (fun u member => others u (List.mem_cons_of_mem _ member)) fun u member => by
      cases ts with
      | nil => cases member
      | cons v ts => exact last u (by rw [List.getLast?_cons_cons]; exact member)
    rw [blankSpell_cons, List.append_assoc]
    refine Quiet.append ?_ (Quiet.append (quiet_token words stops other _) (rest _))
    rw [List.append_assoc]
    exact quiet_blank t.gap.isBlank (clauseMatch_token words stops other) lineStart

end Tokens

/-! ### Clauses -/

theorem keywords_clause : Keywords clauseKeywords := by
  unfold Keywords
  decide +kernel

theorem Token.Free.not_mem {t : Token} (free : t.Free) : t.spell ∉ clauseKeywords := by
  intro member
  rcases List.mem_cons.mp member with same | member
  · exact free.1 same
  · exact free.2 (List.mem_singleton.mp member)

/-- What is matched as a clause ends at the first semicolon. -/
theorem clauseMatch_semicolon {kws : List Text} {inName : Char → Bool} (words : Keywords kws) (outside : inName ';' = false)
    {k r name rest : Text} (open' : ';' ∉ k) (found : clauseMatch kws inName (k ++ ';' :: r) = some (name, rest)) :
    rest = r ∧ ∃ kw ∈ kws, ∃ g g₁ g₂, (∀ c ∈ g, isSpace c = true) ∧ (∀ c ∈ g₁, isSpace c = true) ∧
      (∀ c ∈ g₂, isSpace c = true) ∧ (∀ c ∈ name, inName c = true) ∧ k = g ++ kw ++ g₁ ++ name ++ g₂ := by
  obtain ⟨kw, member, g, g₁, g₂, blank, blank₁, blank₂, -, inName', same⟩ := clauseMatch_spec found
  have left : ∀ c ∈ k, (c != ';') = true := fun c member => by simpa using fun h : c = ';' => open' (h ▸ member)
  have right : ∀ c ∈ g ++ kw ++ g₁ ++ name ++ g₂, (c != ';') = true := by
    simp only [List.mem_append, bne_iff_ne]
    rintro c ((((inside | inside) | inside) | inside) | inside) rfl
    · cases blank _ inside
    · exact absurd (List.all_eq_true.mp (words kw member).2 _ inside) (by decide)
    · cases blank₁ _ inside
    · cases (inName' _ inside).symm.trans outside
    · cases blank₂ _ inside
  have behind := congrArg (List.dropWhile (· != ';')) same
  have before := congrArg (List.takeWhile (· != ';')) same
  rw [dropWhile_append_cons left (by decide), dropWhile_append_cons right (by decide)] at behind
  rw [takeWhile_append_cons left (by decide), takeWhile_append_cons right (by decide)] at before
  exact ⟨(List.cons.inj behind).2.symm, kw, member, g, g₁, g₂, blank, blank₁, blank₂, inName', before⟩

/-- Where no clause starts, none is found from the start of a line either. -/
theorem Quiet.start {kws : List Text} {inName : Char → Bool} {r t : Text} (quiet : Quiet kws inName r false t)
    (none : clauseMatch kws inName (t ++ r) = .none) (lineStart : Bool) : Quiet kws inName r lineStart t := by
  cases t with
  | nil => trivial
  | cons c t => exact ⟨fun _ => none, quiet.2⟩

theorem removeImports_leading {g k r : Text} (blank : ∀ c ∈ g, isSpace c = true) (open' : ';' ∉ k)
    (quiet : Quiet clauseKeywords inClause r false (k ++ [';'])) (lineStart : Bool) :
    ∃ kept, (kept = g ++ k ++ [';'] ∨ ∀ c ∈ kept, isSpace c = true) ∧
      removeImports lineStart (g ++ k ++ ';' :: r) = kept ++ removeImports false r := by
  have behind : ∀ b, lineStartBehind b (k ++ [';']) = false := fun b => by
    rw [lineStartBehind, List.getLast?_concat]
    rfl
  have text : k ++ ';' :: r = k ++ [';'] ++ r := by simp
  have whole : ∀ name rest, clauseMatch clauseKeywords inClause (k ++ ';' :: r) = some (name, rest) → rest = r :=
    
    fun _ _ found => (clauseMatch_semicolon keywords_clause (by decide) open' found).1
  induction g generalizing lineStart with
  | nil =>
    obtain ⟨c, u, first⟩ := List.exists_cons_of_ne_nil (List.append_ne_nil_of_right_ne_nil k (List.cons_ne_nil ';' []))
    by_cases start : lineStart = true ∧ clauseMatch clauseKeywords inClause (k ++ ';' :: r) ≠ none
    · obtain ⟨rfl, some⟩ := start
      obtain ⟨⟨name, rest⟩, found⟩ := Option.ne_none_iff_exists'.mp some
      obtain rfl := whole name rest found
      refine ⟨[], .inr fun _ member => absurd member List.not_mem_nil, ?_⟩
      rw [List.nil_append, text, first] at *
      exact removeImports_of_match found
    · have all : Quiet clauseKeywords inClause r lineStart (k ++ [';']) := by
        cases lineStart with
        | false => exact quiet
        | true => exact quiet.start (text ▸ not_not.mp (not_and.mp start rfl)) true
      refine ⟨k ++ [';'], .inl (by simp), ?_⟩
      rw [List.nil_append, text, all.removeImports, behind]
  | cons c g ih =>
    by_cases start : lineStart = true ∧ clauseMatch clauseKeywords inClause (k ++ ';' :: r) ≠ none
    · obtain ⟨rfl, some⟩ := start
      obtain ⟨⟨name, rest⟩, found⟩ := Option.ne_none_iff_exists'.mp some
      obtain rfl := whole name rest found
      refine ⟨[], .inr fun _ member => absurd member List.not_mem_nil, ?_⟩
      have found' := (clauseMatch_blank blank (k ++ ';' :: rest)).trans found
      rw [← List.append_assoc] at found'
      exact removeImports_of_match found'
    · obtain ⟨kept, kind, rest⟩ := ih (fun d member => blank d (List.mem_cons_of_mem _ member)) (c == '\n')
      refine ⟨c :: kept, ?_, ?_⟩
      · rcases kind with rfl | spaces
        · exact .inl rfl
        · refine .inr fun d member => ?_
          rcases List.mem_cons.mp member with rfl | member
          · exact blank d List.mem_cons_self
          · exact spaces d member
      · have none : lineStart = true → clauseMatch clauseKeywords inClause (c :: (g ++ k ++ ';' :: r)) = .none := by
          intro isStart
          have same := @clauseMatch_blank clauseKeywords inClause _ blank (k ++ ';' :: r)
          rw [List.cons_append, ← List.append_assoc] at same
          exact same.trans (not_not.mp (not_and.mp start isStart))
        rw [List.cons_append, List.cons_append, removeImports_of_none none, rest]
        rfl

/-- A text of which no type is recorded. -/
def Ignored (package x : Text) : Prop :=
  ∀ buf r, (∀ c ∈ buf, isSpace c = true) → ∃ items buf', (∀ c ∈ buf', isSpace c = true) ∧
    (∀ i ∈ items, parseTop package i = .ok []) ∧ splitFrom buf (x ++ r) = items ++ splitFrom buf' r

theorem ignored_blank {g : Text} (package : Text) (blank : ∀ c ∈ g, isSpace c = true) : Ignored package g := by
  intro buf r spaces
  refine ⟨[], buf ++ g, fun c member => ?_, fun _ member => absurd member List.not_mem_nil, ?_⟩
  · rcases List.mem_append.mp member with member | member
    · exact spaces c member
    · exact blank c member
  · exact carried_of_plain (fun c member => not_isStructural_of_isSpace (blank c member)) buf r

theorem Ignored.append {package x y : Text} (first : Ignored package x) (second : Ignored package y) :
    Ignored package (x ++ y) := by
  intro buf r blank
  obtain ⟨items, buf', blank', nothing, split⟩ := first buf (y ++ r) blank
  obtain ⟨items', buf'', blank'', nothing', split'⟩ := second buf' r blank'
  refine ⟨items ++ items', buf'', blank'', fun i member => ?_, ?_⟩
  · rcases List.mem_append.mp member with member | member
    · exact nothing i member
    · exact nothing' i member
  · rw [List.append_assoc, split, split', List.append_assoc]

/-- The text of a clause from its keyword to its semicolon. -/
def Clause.text (keyword : Word) (c : Clause) : Text := keyword.text ++ blankSpell c.name ++ c.after.blanks

theorem Clause.blankSpell_tokens (keyword : Word) (c : Clause) :
    blankSpell (c.tokens keyword) = c.gap.blanks ++ c.text keyword ++ [';'] := by
  simp [Clause.tokens, Clause.text, blankSpell_append, Token.spell, Symbol.semicolon]

/-- The characters of the name are those of words, and dots. -/
theorem Clause.name_path (c : Clause) : ∀ t ∈ c.name, ∀ d ∈ t.token.spell, isWord d = true ∨ d = '.' := by
  intro t member d inside
  rcases List.mem_cons.mp member with rfl | member
  · exact .inl (c.first.isWord_of_mem inside)
  · have path := c.path t member
    cases token : t.token with
    | word w =>
      rw [token] at inside
      exact .inl (w.isWord_of_mem inside)
    | symbol s =>
      rw [token] at inside path
      obtain rfl := List.mem_singleton.mp inside
      exact .inr (by simpa [Token.isPath] using path)
    | string l =>
      rw [token] at path
      cases path
    | char e single =>
      rw [token] at path
      cases path

theorem Clause.text_open (keyword : Word) (c : Clause) : ';' ∉ c.text keyword := by
  intro member
  simp only [Clause.text, List.mem_append] at member
  rcases member with (inside | inside) | blank
  · exact absurd (keyword.isWord_of_mem inside) (by decide)
  · rcases mem_blankSpell inside with blank | ⟨t, among, inToken⟩
    · cases blank
    · exact absurd (c.name_path t among _ inToken) (by decide)
  · cases c.after.isBlank _ blank

theorem Clause.plain (keyword : Word) (c : Clause) : ∀ t ∈ ⟨c.gap, .word keyword⟩ :: c.name, t.token.plain = true := by
  intro t member
  rcases List.mem_cons.mp member with rfl | member
  · rfl
  rcases List.mem_cons.mp member with rfl | member
  · rfl
  · have path := c.path t member
    cases token : t.token with
    | word w => rfl
    | symbol s =>
      rw [token] at path
      have dot : s.char = '.' := by simpa [Token.isPath] using path
      rw [Token.plain, dot]
      decide
    | string l => rfl
    | char e single =>
      rw [token] at path
      cases path

/-- A clause that stays in the text is a statement that declares nothing. -/
theorem Clause.ignored {keyword : Word} {c : Clause} (key : keyword.text ∈ clauseKeywords) (apart : Apart (c.tokens keyword))
    (package : Text) : Ignored package (c.gap.blanks ++ c.text keyword ++ [';']) := by
  intro buf r blank
  have text : c.gap.blanks ++ c.text keyword ++ [';'] ++ r =
      blankSpell (⟨c.gap, .word keyword⟩ :: c.name) ++ c.after.blanks ++ ';' :: r := by
    simp [Clause.text, Token.spell]
  have carried := (carried_blankSpell (c.plain keyword)).1.append (carried_of_plain c.after.plain)
  refine ⟨[.stmt (strip (blankSpell (⟨c.gap, .word keyword⟩ :: c.name) ++ c.after.blanks))], [],
    fun _ member => absurd member List.not_mem_nil, ?_, ?_⟩
  · have stops : (Token.word keyword).Stops (blankSpell c.name ++ " ;".toList) :=
      (List.rel_of_isChain_cons_cons apart).stops c.rest " ;".toList
    have unread : declMatch (keyword.text ++ (blankSpell c.name ++ " ;".toList)) = none := by
      refine declMatch_token stops ?_ fun kind => ?_
      · rcases List.mem_cons.mp key with same | member
        · exact fun h => absurd (same.symm.trans h) (by decide)
        · exact fun h => absurd ((List.mem_singleton.mp member).symm.trans h) (by decide)
      · rcases List.mem_cons.mp key with same | member
        · exact fun h => absurd (same.symm.trans h) (by cases kind <;> decide)
        · exact fun h => absurd ((List.mem_singleton.mp member).symm.trans h) (by cases kind <;> decide)
    have taken : takeAnnotationsFrom ((Token.word keyword).spell ++ blankSpell c.name) =
        ([], keyword.text ++ blankSpell c.name) := takeAnnotationsFrom_of_none (annotationMatch_word keyword _)
    intro i member
    rw [List.mem_singleton.mp member, parseTop, takeAnnotations, strip_strip,
      strip_blankSpell (firm_blankSpell (List.cons_ne_nil _ _)) c.after.isBlank, taken]
    simp only [List.append_assoc, unread]
  · rw [text, splitFrom_statement blank carried, flushStmt_tokens (List.cons_ne_nil _ _)]

/-- Behind its first character a clause holds no other. -/
theorem Clause.quiet {kws : List Text} {inName : Char → Bool} (words : Keywords kws) {keyword : Word} {c : Clause}
    (apart : Apart (c.tokens keyword)) (others : ∀ t ∈ c.name, t.token.spell ∉ kws) (r : Text) :
    Quiet kws inName r false (c.text keyword ++ [';']) := by
  have others' : ∀ t ∈ c.name ++ [⟨c.after, .symbol .semicolon⟩], t.token.spell ∉ kws := by
    intro t member
    rcases List.mem_append.mp member with member | member
    · exact others t member
    · rw [List.mem_singleton.mp member]
      exact fun among => absurd (words [';'] among).2 (by decide)
  have last : ∀ t ∈ (c.name ++ [(⟨c.after, .symbol .semicolon⟩ : Spaced)]).getLast?, t.token.Stops r := by
    intro t member
    rw [List.getLast?_concat] at member
    cases member
    exact fun w word => by cases word
  have text : c.text keyword ++ [';'] = keyword.text ++ blankSpell (c.name ++ [⟨c.after, .symbol .semicolon⟩]) := by
    simp [Clause.text, blankSpell_append, Token.spell, Symbol.semicolon]
  rw [text]
  exact Quiet.append (quiet_of_single (Token.single (.word keyword))) (quiet_tokens words apart.of_cons others' last _)

/-- Of a clause the parser keeps blanks, or all of it as a statement that declares nothing. -/
theorem Clause.removeImports {keyword : Word} {c : Clause} (key : keyword.text ∈ clauseKeywords)
    (apart : Apart (c.tokens keyword)) (free : ∀ t ∈ c.name, t.token.Free) (package : Text) (lineStart : Bool) (r : Text) :
    ∃ kept, Ignored package kept ∧
      Surface.removeImports lineStart (blankSpell (c.tokens keyword) ++ r) = kept ++ Surface.removeImports false r := by
  have quiet : Quiet clauseKeywords inClause r false (c.text keyword ++ [';']) :=
    c.quiet keywords_clause apart (fun t member => (free t member).not_mem) r
  obtain ⟨kept, kind, rest⟩ := removeImports_leading c.gap.isBlank (c.text_open keyword) quiet lineStart
  refine ⟨kept, ?_, ?_⟩
  · rcases kind with rfl | blank
    · exact c.ignored key apart package
    · exact ignored_blank package blank
  · rw [c.blankSpell_tokens, List.append_assoc, List.singleton_append, rest]

theorem removeImports_clauses {cs : List (Word × Clause)} (keys : ∀ c ∈ cs, c.1.text ∈ clauseKeywords)
    (apart : Apart (cs.flatMap fun c => c.2.tokens c.1)) (free : ∀ c ∈ cs, ∀ t ∈ c.2.name, t.token.Free) (package : Text)
    (lineStart : Bool) (r : Text) : ∃ kept behind, Ignored package kept ∧
      removeImports lineStart (blankSpell (cs.flatMap fun c => c.2.tokens c.1) ++ r) = kept ++ removeImports behind r := by
  induction cs generalizing lineStart with
  | nil => exact ⟨[], lineStart, ignored_blank package fun _ member => absurd member List.not_mem_nil, rfl⟩
  | cons c cs ih =>
    rw [List.flatMap_cons] at apart ⊢
    obtain ⟨kept, nothing, first⟩ := c.2.removeImports (keys c List.mem_cons_self) apart.left_of_append
      (free c List.mem_cons_self) package lineStart (blankSpell (cs.flatMap fun c => c.2.tokens c.1) ++ r)
    obtain ⟨kept', behind, nothing', rest⟩ := ih (fun d member => keys d (List.mem_cons_of_mem _ member))
      apart.right_of_append (fun d member => free d (List.mem_cons_of_mem _ member)) false
    refine ⟨kept ++ kept', behind, nothing.append nothing', ?_⟩
    rw [blankSpell_append, List.append_assoc, first, rest, List.append_assoc]

theorem blankSpell_of_tight {ts : List Spaced} (tight : ∀ t ∈ ts, t.gap = []) : blankSpell ts = tightSpell ts := by
  induction ts with
  | nil => rfl
  | cons t ts ih =>
    rw [blankSpell_cons, ih fun u member => tight u (List.mem_cons_of_mem _ member), tight t List.mem_cons_self]
    rfl

/-- The characters of a package name. -/
def inPackage (d : Char) : Bool := isWord d || d == '.'

theorem inPackage_of_isSpace {c : Char} (blank : isSpace c = true) : inPackage c = false := by
  rw [inPackage, not_isWord_of_isSpace blank, Bool.false_or, beq_eq_false_iff_ne]
  rintro rfl
  cases blank

theorem clauseMatch_package {g g' name : Text} (gap : g ≠ []) (blank : ∀ c ∈ g, isSpace c = true)
    (blank' : ∀ c ∈ g', isSpace c = true) (some : name ≠ []) (inName : ∀ c ∈ name, inPackage c = true) (r : Text) :
    clauseMatch ["package".toList] inPackage ("package".toList ++ (g ++ (name ++ (g' ++ ';' :: r)))) = .some (name, r) := by
  obtain ⟨d, w, rfl⟩ := List.exists_cons_of_ne_nil some
  have solid : isSpace d = false := by
    by_contra space
    have outside := inPackage_of_isSpace (Bool.not_eq_false _ ▸ space)
    rw [inName d List.mem_cons_self] at outside
    cases outside
  obtain ⟨e, v, behind, ends⟩ : ∃ e v, g' ++ ';' :: r = e :: v ∧ inPackage e = false := by
    cases g' with
    | nil => exact ⟨';', r, rfl, by decide⟩
    | cons e v => exact ⟨e, v ++ ';' :: r, rfl, inPackage_of_isSpace (blank' e List.mem_cons_self)⟩
  have semicolon : (g' ++ ';' :: r).dropWhile isSpace = ';' :: r := dropWhile_append_cons blank' (by decide) r
  have start : ("package".toList ++ (g ++ (d :: w ++ (g' ++ ';' :: r)))).dropWhile isSpace =
      "package".toList ++ (g ++ (d :: w ++ (g' ++ ';' :: r))) := List.dropWhile_cons_of_neg (by decide)
  have keyword : keywordMatch "package".toList ("package".toList ++ (g ++ (d :: w ++ (g' ++ ';' :: r)))) =
      .some (d :: w ++ (g' ++ ';' :: r)) := keywordMatch_gap _ gap blank solid
  rw [clauseMatch, List.findSome?_cons, start, keyword]
  simp only [behind] at semicolon ⊢
  rw [takeWhile_append_cons inName ends, dropWhile_append_cons inName ends, semicolon]
  rfl

theorem Clause.inPackage_name (c : Clause) : ∀ d ∈ tightSpell c.name, inPackage d = true := by
  intro d member
  obtain ⟨t, among, inside⟩ := List.mem_flatMap.mp member
  rcases c.name_path t among d inside with word | rfl
  · rw [inPackage, word]
    rfl
  · decide

theorem Word.package_text : Word.package.text = "package".toList := rfl

/-- A package that is named without gaps is found. -/
theorem Clause.searchPackage {c : Clause} (tight : ∀ t ∈ c.rest, t.gap = []) (apart : Apart (c.tokens .package)) (r : Text) :
    Surface.searchPackage true (blankSpell (c.tokens .package) ++ r) = some (tightSpell c.name) := by
  have name : tightSpell c.name = c.first.text ++ blankSpell c.rest := by
    rw [blankSpell_of_tight tight]
    rfl
  have named : tightSpell c.name ≠ [] := by
    rw [name]
    exact List.append_ne_nil_of_left_ne_nil c.first.nonempty _
  have gap : c.firstGap.blanks ≠ [] := (List.rel_of_isChain_cons_cons apart).gap_ne_nil rfl rfl
  have text : blankSpell (c.tokens .package) ++ r =
      c.gap.blanks ++ ("package".toList ++ (c.firstGap.blanks ++ (tightSpell c.name ++ (c.after.blanks ++ ';' :: r)))) := by
    rw [c.blankSpell_tokens, name]
    simp [Clause.text, Clause.name, Word.package_text, Token.spell]
  have found : clauseMatch ["package".toList] inPackage (blankSpell (c.tokens .package) ++ r) =
      some (tightSpell c.name, r) := by
    rw [text, clauseMatch_blank c.gap.isBlank]
    exact clauseMatch_package gap c.firstGap.isBlank c.after.isBlank named c.inPackage_name r
  obtain ⟨a, u, some⟩ : ∃ a u, blankSpell (c.tokens .package) ++ r = a :: u := by
    refine List.exists_cons_of_ne_nil fun none => ?_
    rw [text] at none
    exact absurd (List.append_eq_nil_iff.mp (List.append_eq_nil_iff.mp none).2).1 (by decide)
  have found' : clauseMatch ["package".toList] (fun d => isWord d || d == '.') (a :: u) = .some (tightSpell c.name, r) :=
    some ▸ found
  rw [some, Surface.searchPackage]
  simp only [if_true, found']

/-! ### Sources -/

/-- The clauses of a file, each with its keyword. -/
def File.clauses (f : File) : List (Word × Clause) :=
  f.package.toList.map (fun c => (Word.package, c)) ++ f.imports.map fun c => (Word.import, c)

theorem File.tokens_eq (f : File) : f.tokens = f.clauses.flatMap (fun c => c.2.tokens c.1) ++ f.body.tokens := by
  simp [File.tokens, File.clauses, List.flatMap_map]

/-- The last of the tokens, if there is one, closes a declaration or a clause. -/
def Closing (ts : List Spaced) : Prop :=
  ∀ t ∈ ts.getLast?, t.token = .symbol .semicolon ∨ t.token = .symbol .closeBrace

theorem Closing.append {ts us : List Spaced} (first : Closing ts) (second : Closing us) : Closing (ts ++ us) := by
  intro t member
  rw [List.getLast?_append] at member
  cases last : us.getLast? with
  | none =>
    rw [last] at member
    exact first t member
  | some u =>
    rw [last] at member
    exact second t (last.trans member)

theorem closing_concat (ts : List Spaced) {t : Spaced} (closes : t.token = .symbol .semicolon ∨ t.token = .symbol .closeBrace) :
    Closing (ts ++ [t]) := by
  intro u member
  rw [List.getLast?_concat] at member
  cases member
  exact closes

theorem Closing.behind {us : List Spaced} (rest : Closing us) (ts : List Spaced) {t : Spaced}
    (closes : t.token = .symbol .semicolon ∨ t.token = .symbol .closeBrace) : Closing (ts ++ t :: us) := by
  rw [List.append_cons]
  exact (closing_concat ts closes).append rest

theorem Body.closing (b : Body .file) : Closing b.tokens := by
  suffices all : ∀ {l : Level} (b : Body l), Closing b.tokens from all b
  intro l b
  induction b with
  | nil => exact fun _ member => by cases member
  | forward kind head plain gap rest ih => exact ih.behind _ (.inl rfl)
  | member ts some gap rest ih => exact ih.behind _ (.inl rfl)
  | type kind structured head before inner after rest _ ih => exact ih.behind _ (.inr rfl)
  | enum head before values after rest ih => exact ih.behind _ (.inr rfl)

theorem closing_clauses (cs : List (Word × Clause)) : Closing (cs.flatMap fun c => c.2.tokens c.1) := by
  induction cs with
  | nil => exact fun _ member => by cases member
  | cons c cs ih =>
    rw [List.flatMap_cons]
    exact (closing_concat _ (.inl rfl)).append ih

theorem closing_imports (cs : List Clause) : Closing (cs.flatMap (Clause.tokens .import)) := by
  have same : cs.flatMap (Clause.tokens .import) = (cs.map fun c => (Word.import, c)).flatMap fun c => c.2.tokens c.1 := by
    rw [List.flatMap_map]
  rw [same]
  exact closing_clauses _

theorem File.closing (f : File) : Closing f.tokens := by
  rw [f.tokens_eq]
  exact (closing_clauses _).append f.body.closing

theorem Closing.stops {ts : List Spaced} (closing : Closing ts) (r : Text) : ∀ t ∈ ts.getLast?, t.token.Stops r := by
  intro t member w word
  rcases closing t member with same | same
  · cases same.symm.trans word
  · cases same.symm.trans word

theorem clauseMatch_nil {kws : List Text} {inName : Char → Bool} (words : Keywords kws) :
    clauseMatch kws inName [] = none := by
  refine List.findSome?_eq_none_iff.mpr fun kw member => ?_
  have nothing : keywordMatch kw [] = none := if_neg fun h => (words kw member).1 (List.prefix_nil.mp h)
  rw [List.dropWhile_nil, nothing]

/-- No clause is found in a text whose tokens are none of its keywords. -/
theorem quiet_text {kws : List Text} {inName : Char → Bool} (words : Keywords kws) {ts : List Spaced} (apart : Apart ts)
    (others : ∀ t ∈ ts, t.token.spell ∉ kws) (closing : Closing ts) (ending : Gap) (lineStart : Bool) :
    Quiet kws inName [] lineStart (blankSpell ts ++ ending.blanks) :=
  (quiet_tokens words apart others (closing.stops _) lineStart).append
    (quiet_blank ending.isBlank (clauseMatch_nil words) _)

theorem quoteless_clauses (cs : List (Word × Clause)) : Quoteless (cs.flatMap fun c => c.2.tokens c.1) := by
  intro t member
  obtain ⟨c, -, inside⟩ := List.mem_flatMap.mp member
  rcases List.mem_append.mp inside with among | last
  · exact plain_quoteless (c.2.plain c.1 t among)
  · rw [List.mem_singleton.mp last]
    rfl

/-- The text of a source without its comments. -/
theorem Source.stripComments_text {s : Source} (legible : s.body.Legible) :
    stripComments s.text = blankSpell s.tokens ++ s.ending.blanks := by
  have quoteless : Quoteless s.tokens := by
    rw [s.tokens_eq]
    exact (quoteless_clauses _).append legible.enclosed.quoteless
  have last : stripComments ((s.last.map fun text => '/' :: '/' :: text.1).getD []) = [] := by
    cases s.last with
    | none => exact stripComments.eq_1
    | some text =>
      obtain ⟨text, single⟩ := text
      have nothing : text.dropWhile (· != '\n') = [] :=
        List.dropWhile_eq_nil_iff.mpr fun c member => by simpa using fun same : c = '\n' => single (same ▸ member)
      show stripComments ('/' :: '/' :: text) = []
      rw [stripComments, nothing, stripComments]
  rw [File.text, List.append_assoc, stripComments_spell s.apart quoteless, Gap.stripComments_spell, last, List.append_nil]
  intro t member slash
  rcases s.closing t member with same | same
  · rw [same] at slash
    cases slash
  · rw [same] at slash
    cases slash

/-! ### The package -/

theorem keywords_package : Keywords ["package".toList] := by
  unfold Keywords
  decide +kernel

/-- Behind the package clause there is no other. -/
theorem Source.no_package {s : Source} {ts : List Spaced}
    (behind : s.tokens = s.package.toList.flatMap (Clause.tokens .package) ++ ts) : ∀ t ∈ ts, t.token.spell ∉ ["package".toList] := by
  rw [File.tokens, List.append_assoc] at behind
  obtain rfl := List.append_cancel_left behind
  intro t member same
  have package := List.mem_singleton.mp same
  rcases List.mem_append.mp member with clause | inBody
  · obtain ⟨c, among, inside⟩ := List.mem_flatMap.mp clause
    rcases List.mem_cons.mp inside with rfl | inside
    · cases package
    rcases List.mem_append.mp inside with name | last
    · exact (s.names c (List.mem_append_right _ among) t name).1 package
    · rw [List.mem_singleton.mp last] at package
      cases package
  · exact (s.free t inBody).1 package

/-- The package, if there is one, is named without gaps. -/
def File.Tight (f : File) : Prop := ∀ c ∈ f.package, ∀ t ∈ c.rest, t.gap = []

/-- A package that is named with gaps is not found. -/
theorem clauseMatch_spaced {c : Clause} (spaced : ¬∀ t ∈ c.rest, t.gap = []) (r : Text) :
    clauseMatch ["package".toList] inPackage (c.text .package ++ ';' :: r) = none := by
  cases found : clauseMatch ["package".toList] inPackage (c.text .package ++ ';' :: r) with
  | none => rfl
  | some pair =>
    exfalso
    obtain ⟨-, kw, member, g, g₁, g₂, blank, blank₁, blank₂, inName, same⟩ :=
      clauseMatch_semicolon keywords_package (by decide) (c.text_open .package) found
    obtain rfl := List.mem_singleton.mp member
    obtain rfl : g = [] := by
      cases g with
      | nil => rfl
      | cons d g =>
        cases (List.cons.inj same).1
        cases blank _ List.mem_cons_self
    have behind : blankSpell c.name ++ c.after.blanks = g₁ ++ pair.1 ++ g₂ := by
      refine @List.append_cancel_left _ "package".toList _ _ ?_
      simpa [Clause.text, Word.package_text] using same
    have stripped := strip_blankSpell (firm_blankSpell (List.cons_ne_nil (⟨c.firstGap, .word c.first⟩ : Spaced) c.rest))
      c.after.isBlank
    have whole : blankSpell (⟨c.firstGap, .word c.first⟩ :: c.rest) ++ c.after.blanks = g₁ ++ pair.1 ++ g₂ := behind
    rw [whole, strip_append_space blank₁ blank₂] at stripped
    refine spaced fun t among => ?_
    by_contra some
    obtain ⟨d, u, first⟩ := List.exists_cons_of_ne_nil (Gap.blanks_ne_nil some)
    have inGap : d ∈ t.gap.blanks := first ▸ List.mem_cons_self
    have inText : d ∈ c.first.text ++ blankSpell c.rest :=
      List.mem_append_right _ (List.mem_flatMap.mpr ⟨t, among, List.mem_append_left _ inGap⟩)
    have named := inName d (mem_of_mem_strip (stripped.symm ▸ inText))
    rw [inPackage_of_isSpace (t.gap.isBlank d inGap)] at named
    cases named

/-- The package that the parser finds. -/
theorem Source.searchPackage_text (s : Source) :
    (s.Tight → (searchPackage true (blankSpell s.tokens ++ s.ending.blanks)).getD [] = s.packageName) ∧
      (¬s.Tight → (searchPackage true (blankSpell s.tokens ++ s.ending.blanks)).getD [] = []) := by
  rw [File.packageName, File.Tight]
  have tokens : s.tokens = s.package.toList.flatMap (Clause.tokens .package) ++
      (s.imports.flatMap (Clause.tokens .import) ++ s.body.tokens) := by rw [File.tokens, List.append_assoc]
  have others := s.no_package tokens
  have apart := s.apart
  have closing := s.closing
  cases found : s.package with
  | none =>
    refine ⟨fun _ => ?_, fun spaced => absurd (fun _ member => by cases member) spaced⟩
    rw [found] at tokens
    rw [← tokens.trans (List.nil_append _)] at others
    have quiet := @quiet_text _ inPackage keywords_package _ apart others closing s.ending true
    rw [← List.append_nil (blankSpell s.tokens ++ s.ending.blanks)]
    exact congrArg (Option.getD · []) quiet.searchPackage
  | some c =>
    rw [found, Option.toList_some, List.flatMap_singleton] at tokens
    rw [tokens] at apart ⊢
    constructor
    · intro tight
      rw [blankSpell_append, List.append_assoc, c.searchPackage (tight c rfl) apart.left_of_append]
      rfl
    · intro spaced
      have spaced' : ¬∀ t ∈ c.rest, t.gap = [] := fun all => spaced fun d member => by
        cases member
        exact all
      have names : ∀ t ∈ c.name, t.token.spell ∉ ["package".toList] := fun t member same =>
        (s.names c (by simp [found]) t member).1 (List.mem_singleton.mp same)
      have text : blankSpell (c.tokens .package ++ (s.imports.flatMap (Clause.tokens .import) ++ s.body.tokens)) ++
            s.ending.blanks =
          c.gap.blanks ++ (c.text .package ++ [';'] ++
            (blankSpell (s.imports.flatMap (Clause.tokens .import) ++ s.body.tokens) ++ s.ending.blanks)) := by
        rw [blankSpell_append, c.blankSpell_tokens]
        simp
      have rest : ∀ lineStart, Quiet ["package".toList] inPackage [] lineStart
          (blankSpell (s.imports.flatMap (Clause.tokens .import) ++ s.body.tokens) ++ s.ending.blanks) := fun lineStart =>
        quiet_text keywords_package apart.right_of_append others
          ((closing_imports s.imports).append s.body.closing) s.ending lineStart
      have none : clauseMatch ["package".toList] inPackage (c.text .package ++ [';'] ++
          (blankSpell (s.imports.flatMap (Clause.tokens .import) ++ s.body.tokens) ++ s.ending.blanks)) = .none := by
        rw [List.append_assoc, List.singleton_append]
        exact clauseMatch_spaced spaced' _
      have quiet : Quiet ["package".toList] inPackage [] true (c.gap.blanks ++ (c.text .package ++ [';'] ++
          (blankSpell (s.imports.flatMap (Clause.tokens .import) ++ s.body.tokens) ++ s.ending.blanks))) := by
        refine Quiet.append ?_ (Quiet.append ((c.quiet keywords_package apart.left_of_append names _).start ?_ _) (rest _))
        · rw [List.append_nil]
          exact quiet_blank c.gap.isBlank none true
        · rw [List.append_nil]
          exact none
      rw [text, ← List.append_nil (c.gap.blanks ++ _)]
      exact congrArg (Option.getD · []) quiet.searchPackage

/-! ### What is recorded for a source -/

/-- A source is read as its body, under its package name when that is tight. -/
theorem Source.declared_records {s : Source} (legible : s.body.Legible) (closed : s.body.Closed) :
    ∃ package records, (s.Tight → package = s.packageName) ∧ (¬s.Tight → package = []) ∧
      declared s.text = .ok records ∧ s.body.Records package [] records := by
  obtain ⟨tight, spaced⟩ := s.searchPackage_text
  refine ⟨(searchPackage true (blankSpell s.tokens ++ s.ending.blanks)).getD [], ?_⟩
  generalize found : (searchPackage true (blankSpell s.tokens ++ s.ending.blanks)).getD [] = package at tight spaced
  have apart := s.apart
  rw [s.tokens_eq] at apart
  have keys : ∀ c ∈ s.clauses, c.1.text ∈ clauseKeywords := by
    intro c member
    rcases List.mem_append.mp member with among | among
    · obtain ⟨d, -, rfl⟩ := List.mem_map.mp among
      exact List.mem_cons_self
    · obtain ⟨d, -, rfl⟩ := List.mem_map.mp among
      exact List.mem_cons_of_mem _ List.mem_cons_self
  have free : ∀ c ∈ s.clauses, ∀ t ∈ c.2.name, t.token.Free := by
    intro c member
    rcases List.mem_append.mp member with among | among
    · obtain ⟨d, inPackage, rfl⟩ := List.mem_map.mp among
      exact s.names d (List.mem_append_left _ inPackage)
    · obtain ⟨d, inImports, rfl⟩ := List.mem_map.mp among
      exact s.names d (List.mem_append_right _ inImports)
  obtain ⟨kept, behind, ignored, removed⟩ := removeImports_clauses keys apart.left_of_append free package true
    (blankSpell s.body.tokens ++ s.ending.blanks)
  have body : removeImports behind (blankSpell s.body.tokens ++ s.ending.blanks) =
      blankSpell s.body.tokens ++ s.ending.blanks := by
    have quiet := @quiet_text _ inClause keywords_clause _ apart.right_of_append
      (fun t member => (s.free t member).not_mem) s.body.closing s.ending behind
    have same := quiet.removeImports
    rw [List.append_nil, removeImports, List.append_nil] at same
    exact same
  obtain ⟨items, buf, blank, nothing, split⟩ := ignored [] (blankSpell s.body.tokens ++ s.ending.blanks)
    fun _ member => absurd member List.not_mem_nil
  obtain ⟨members, records, parsed, entries, -⟩ :=
    legible.parse closed apart.right_of_append package [] blank s.ending
  refine ⟨records, tight, spaced, ?_, entries⟩
  have text : removeImports true (blankSpell s.tokens ++ s.ending.blanks) =
      kept ++ (blankSpell s.body.tokens ++ s.ending.blanks) := by
    rw [s.tokens_eq, blankSpell_append, List.append_assoc, removed, body]
  rw [declared, Source.stripComments_text legible]
  simp only [found, text, splitStatements, split]
  exact (mapM_parseTop_append nothing _).trans (parsed rfl)

theorem Source.declared_text {s : Source} (legible : s.body.Legible) (closed : s.body.Closed) :
    ∃ package records, (s.Tight → package = s.packageName) ∧ (¬s.Tight → package = []) ∧
      declared s.text = .ok records ∧ List.Forall₂ (IsEntry package) (s.body.readable []) records := by
  obtain ⟨package, records, tight, spaced, read, recorded⟩ := s.declared_records legible closed
  exact ⟨package, records, tight, spaced, read, recorded.entries⟩

end BinderIdl.Surface
