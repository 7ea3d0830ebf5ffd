import BinderIdl.Surface.Dump
import BinderIdl.Theorems.Reformatting

/-! Sources of the same tokens. The tokens of a regular source determine what it declares, so that two layouts of them
    are recorded and dumped alike exactly when the same gaps show. -/

namespace BinderIdl.Surface
open Py

/-! ### Where runs of tokens end -/

theorem openBrace_ne_closeBrace : Symbol.openBrace ≠ .closeBrace := fun same => absurd (congrArg Symbol.char same) (by decide)

theorem semicolon_ne_closeBrace : Symbol.semicolon ≠ .closeBrace := fun same => absurd (congrArg Symbol.char same) (by decide)

theorem semicolon_ne_openBrace : Symbol.semicolon ≠ .openBrace := fun same => absurd (congrArg Symbol.char same) (by decide)

section Same
variable {ts us vs ws : List Spaced} {t u : Spaced}

theorem sameTokens_cons : SameTokens (t :: ts) (u :: us) ↔ t.token = u.token ∧ SameTokens ts us := by
  rw [SameTokens, List.map_cons, List.map_cons, List.cons.injEq]

theorem SameTokens.append (first : SameTokens ts us) (second : SameTokens vs ws) : SameTokens (ts ++ vs) (us ++ ws) := by
  rw [SameTokens, List.map_append, List.map_append, first, second]

theorem SameTokens.head (same : SameTokens ts (u :: us)) : ∃ t ∈ ts.head?, t.token = u.token := by
  obtain ⟨t, ts, rfl⟩ := List.exists_cons_of_ne_nil (SameTokens.ne_nil same.symm (List.cons_ne_nil u us))
  exact ⟨t, rfl, (sameTokens_cons.mp same).1⟩

/-- Two runs of tokens of a kind end at the first token that is not of it. -/
theorem SameTokens.split {p : Token → Bool} (first : ∀ x ∈ ts, p x.token = true) (second : ∀ x ∈ vs, p x.token = true)
    (stop : p t.token = false) (stop' : p u.token = false) (same : SameTokens (ts ++ t :: us) (vs ++ u :: ws)) :
    SameTokens ts vs ∧ t.token = u.token ∧ SameTokens us ws := by
  have run : ∀ {ts us : List Spaced} {t : Spaced}, (∀ x ∈ ts, p x.token = true) → p t.token = false →
      ((ts ++ t :: us).map Spaced.token).takeWhile p = ts.map Spaced.token := by
    intro ts us t all stop
    rw [List.map_append, List.map_cons, List.takeWhile_append_of_pos (List.forall_mem_map.mpr all),
      List.takeWhile_cons_of_neg (by simp [stop]), List.append_nil]
  have runs : SameTokens ts vs := by
    rw [SameTokens, ← run first stop, ← run second stop', same]
  rw [SameTokens, List.map_append, List.map_append, runs] at same
  exact ⟨runs, sameTokens_cons.mp (List.append_cancel_left same)⟩

/-- Two runs of tokens with balanced braces end at the first brace that closes none of theirs. -/
theorem Enclosed.same_tokens (first : Enclosed ts) (second : Enclosed us) {gap gap' : Gap}
    (same : SameTokens (ts ++ ⟨gap, .symbol .closeBrace⟩ :: vs) (us ++ ⟨gap', .symbol .closeBrace⟩ :: ws)) :
    SameTokens ts us ∧ SameTokens vs ws := by
  induction first generalizing us gap gap' vs ws with
  | nil =>
    cases second with
    | nil => exact ⟨rfl, (sameTokens_cons.mp same).2⟩
    | token closed _ =>
      rw [← (sameTokens_cons.mp same).1] at closed
      cases closed
    | braces _ _ => exact absurd (Token.symbol.inj (sameTokens_cons.mp same).1).symm openBrace_ne_closeBrace
  | token closed _ ih =>
    cases second with
    | nil =>
      rw [(sameTokens_cons.mp same).1] at closed
      cases closed
    | token _ rest =>
      obtain ⟨token, same⟩ := sameTokens_cons.mp same
      obtain ⟨tokens, behind⟩ := ih rest same
      exact ⟨sameTokens_cons.mpr ⟨token, tokens⟩, behind⟩
    | braces _ _ =>
      rw [(sameTokens_cons.mp same).1] at closed
      cases closed
  | braces _ _ ihInner ih =>
    cases second with
    | nil => exact absurd (Token.symbol.inj (sameTokens_cons.mp same).1) openBrace_ne_closeBrace
    | token closed _ =>
      rw [← (sameTokens_cons.mp same).1] at closed
      cases closed
    | braces inner rest =>
      simp only [List.cons_append, List.append_assoc] at same
      obtain ⟨inside, same⟩ := ihInner inner (sameTokens_cons.mp same).2
      obtain ⟨tokens, behind⟩ := ih rest same
      exact ⟨sameTokens_cons.mpr ⟨rfl, inside.append (sameTokens_cons.mpr ⟨rfl, tokens⟩)⟩, behind⟩

end Same

/-! ### Headers -/

section Headers
variable {us vs : List Spaced}

/-- An annotation ends where no arguments follow its name, or at the first closing parenthesis. -/
theorem AnnotationTerm.same_tokens {a b : AnnotationTerm} (closed : a.Closed) (closed' : b.Closed)
    (next : ∀ t ∈ us.head?, t.token ≠ .symbol .openParen) (next' : ∀ t ∈ vs.head?, t.token ≠ .symbol .openParen)
    (same : SameTokens (a.tokens ++ us) (b.tokens ++ vs)) : SameTokens a.tokens b.tokens ∧ SameTokens us vs := by
  rw [AnnotationTerm.Closed, AnnotationTerm.inside] at closed closed'
  rw [AnnotationTerm.tokens, AnnotationTerm.tokens] at same ⊢
  obtain ⟨name, same⟩ := sameTokens_cons.mp (sameTokens_cons.mp same).2
  suffices rest : _ ∧ _ from ⟨sameTokens_cons.mpr ⟨rfl, sameTokens_cons.mpr ⟨name, rest.1⟩⟩, rest.2⟩
  cases found : a.arguments with
  | none =>
    cases found' : b.arguments with
    | none =>
      rw [found, found'] at same
      exact ⟨rfl, same⟩
    | some args =>
      rw [found, found'] at same
      obtain ⟨t, first, paren⟩ := SameTokens.head same
      exact absurd paren (next t first)
  | some args =>
    cases found' : b.arguments with
    | none =>
      rw [found, found'] at same
      obtain ⟨t, first, paren⟩ := SameTokens.head same.symm
      exact absurd paren (next' t first)
    | some args' =>
      rw [found] at closed same
      rw [found'] at closed' same
      have same : SameTokens (args.tokens ++ ⟨args.after, .symbol .closeParen⟩ :: us)
          (args'.tokens ++ ⟨args'.after, .symbol .closeParen⟩ :: vs) := by
        simpa using (sameTokens_cons.mp same).2
      obtain ⟨inside, -, behind⟩ := same.split (p := fun t => decide (')' ∉ t.spell))
        (fun t member => decide_eq_true (closed t member)) (fun t member => decide_eq_true (closed' t member)) rfl rfl
      exact ⟨sameTokens_cons.mpr ⟨rfl, inside.append (sameTokens_cons.mpr ⟨rfl, rfl⟩)⟩, behind⟩

/-- What stands behind annotations is a word or one of them, no parenthesis. -/
theorem head_annotations {as : List AnnotationTerm} (word : ∀ t ∈ us.head?, ∃ w, t.token = .word w) :
    ∀ t ∈ (as.flatMap AnnotationTerm.tokens ++ us).head?, t.token ≠ .symbol .openParen := by
  intro t first
  cases as with
  | nil =>
    obtain ⟨w, is⟩ := word t first
    rw [is]
    exact Token.noConfusion
  | cons a as =>
    obtain rfl : ⟨a.gap, .symbol .at⟩ = t := Option.some.inj first
    exact fun same => absurd (congrArg Symbol.char (Token.symbol.inj same)) (by decide)

theorem annotations_same {as bs : List AnnotationTerm} (closed : ∀ a ∈ as, a.Closed) (closed' : ∀ b ∈ bs, b.Closed)
    (word : ∀ t ∈ us.head?, ∃ w, t.token = .word w) (word' : ∀ t ∈ vs.head?, ∃ w, t.token = .word w)
    (same : SameTokens (as.flatMap AnnotationTerm.tokens ++ us) (bs.flatMap AnnotationTerm.tokens ++ vs)) :
    as.map AnnotationTerm.text = bs.map AnnotationTerm.text ∧ SameTokens us vs := by
  induction as generalizing bs with
  | nil =>
    cases bs with
    | nil => exact ⟨rfl, same⟩
    | cons b bs =>
      obtain ⟨t, first, token⟩ := SameTokens.head same
      obtain ⟨w, is⟩ := word t first
      cases is.symm.trans token
  | cons a as ih =>
    cases bs with
    | nil =>
      obtain ⟨t, first, token⟩ := SameTokens.head same.symm
      obtain ⟨w, is⟩ := word' t first
      cases is.symm.trans token
    | cons b bs =>
      rw [List.forall_mem_cons] at closed closed'
      rw [List.flatMap_cons, List.flatMap_cons, List.append_assoc, List.append_assoc] at same
      obtain ⟨text, same⟩ := AnnotationTerm.same_tokens closed.1 closed'.1 (head_annotations word) (head_annotations word') same
      obtain ⟨texts, behind⟩ := ih closed.2 closed'.2 same
      exact ⟨List.cons_eq_cons.mpr ⟨text.tightSpell, texts⟩, behind⟩

end Headers

theorem Kind.word_injective {kind kind' : Kind} (same : kind.word = kind'.word) : kind = kind' := by
  have text : kind.text = kind'.text := congrArg Word.text same
  have found := kind.find?_text
  rw [text, kind'.find?_text] at found
  exact (Option.some.inj found).symm

theorem Head.declared_word (h : Head) (kind : Kind) : ∀ t ∈ (h.declared kind).head?, ∃ w, t.token = .word w := by
  intro t first
  rw [Head.declared] at first
  cases found : h.oneway with
  | none =>
    rw [found] at first
    exact ⟨_, congrArg Spaced.token (Option.some.inj first).symm⟩
  | some gap =>
    rw [found] at first
    exact ⟨_, congrArg Spaced.token (Option.some.inj first).symm⟩

/-- The tokens of a header determine it. -/
theorem Head.same_tokens {h h' : Head} {kind kind' : Kind} (readable : h.Readable) (readable' : h'.Readable)
    (same : SameTokens (h.tokens kind) (h'.tokens kind')) : h.Alike h' ∧ kind = kind' := by
  rw [h.tokens_eq, h'.tokens_eq] at same
  obtain ⟨annotations, declared⟩ := annotations_same readable.2 readable'.2 (h.declared_word kind) (h'.declared_word kind') same
  rw [Head.declared, Head.declared, Head.parameterTokens, Head.parameterTokens, readable.1.1, readable'.1.1] at declared
  have lengths : h.oneway.isSome = h'.oneway.isSome := by
    have lengths := congrArg List.length declared
    cases found : h.oneway <;> cases found' : h'.oneway <;> simp [found, found'] at lengths ⊢
  suffices both : kind.word = kind'.word ∧ h.name = h'.name from
    ⟨⟨annotations, lengths, congrArg Word.text both.2⟩, Kind.word_injective both.1⟩
  have named : SameTokens [⟨h.kindGap, .word kind.word⟩, ⟨h.nameGap, .word h.name⟩]
      [⟨h'.kindGap, .word kind'.word⟩, ⟨h'.nameGap, .word h'.name⟩] := by
    cases found : h.oneway with
    | none =>
      cases found' : h'.oneway with
      | none =>
        rw [found, found'] at declared
        exact declared
      | some gap => simp [found, found'] at lengths
    | some gap =>
      cases found' : h'.oneway with
      | none => simp [found, found'] at lengths
      | some gap' =>
        rw [found, found'] at declared
        exact (sameTokens_cons.mp declared).2
  obtain ⟨kinds, names⟩ := sameTokens_cons.mp named
  exact ⟨Token.word.inj kinds, Token.word.inj (sameTokens_cons.mp names).1⟩

/-! ### Bodies -/

section Bodies
variable {l : Level} {b b' : Body l}

/-- The tokens of a body up to its first semicolon or brace. -/
def Body.lead {l : Level} : Body l → List Spaced
  | .nil => []
  | .forward kind head _ _ _ => head.tokens kind
  | .member tokens _ _ _ => tokens
  | .type kind _ head _ _ _ _ => head.tokens kind
  | .enum head _ _ _ _ => head.tokens .enum

/-- This semicolon or brace, which for an empty body is the brace behind it. -/
def Body.stop {l : Level} : Body l → Symbol
  | .nil => .closeBrace
  | .forward _ _ _ _ _ => .semicolon
  | .member _ _ _ _ => .semicolon
  | .type _ _ _ _ _ _ _ => .openBrace
  | .enum _ _ _ _ _ => .openBrace

/-- The tokens behind it, where `ts` are those behind the brace that closes the body. -/
def Body.behind {l : Level} (gap : Gap) (ts : List Spaced) : Body l → List Spaced
  | .nil => ts
  | .forward _ _ _ _ rest => rest.tokens ++ ⟨gap, .symbol .closeBrace⟩ :: ts
  | .member _ _ _ rest => rest.tokens ++ ⟨gap, .symbol .closeBrace⟩ :: ts
  | .type _ _ _ _ inner after rest =>
    inner.tokens ++ ⟨after, .symbol .closeBrace⟩ :: (rest.tokens ++ ⟨gap, .symbol .closeBrace⟩ :: ts)
  | .enum _ _ values after rest => values ++ ⟨after, .symbol .closeBrace⟩ :: (rest.tokens ++ ⟨gap, .symbol .closeBrace⟩ :: ts)

theorem Body.tokens_lead (b : Body l) (gap : Gap) (ts : List Spaced) : ∃ before,
    b.tokens ++ ⟨gap, .symbol .closeBrace⟩ :: ts = b.lead ++ ⟨before, .symbol b.stop⟩ :: b.behind gap ts := by
  cases b with
  | nil => exact ⟨gap, rfl⟩
  | forward kind head plain before rest => exact ⟨before, by simp [Body.tokens, Body.lead, Body.stop, Body.behind]⟩
  | member tokens some before rest => exact ⟨before, by simp [Body.tokens, Body.lead, Body.stop, Body.behind]⟩
  | type kind structured head before inner after rest =>
    exact ⟨before, by simp [Body.tokens, Body.lead, Body.stop, Body.behind]⟩
  | enum head before values after rest => exact ⟨before, by simp [Body.tokens, Body.lead, Body.stop, Body.behind]⟩

theorem Body.Regular.plain_lead (regular : b.Regular) : ∀ t ∈ b.lead, t.token.plain = true := by
  cases b with
  | nil => exact fun _ member => absurd member List.not_mem_nil
  | forward kind head plain gap rest => exact regular.1.balanced.plain regular.1.1.2 kind
  | member tokens some gap rest => exact regular.1
  | type kind structured head before inner after rest => exact regular.1.balanced.plain regular.1.1.2 kind
  | enum head before values after rest => exact regular.1.balanced.plain regular.1.1.2 .enum

theorem Body.stop_plain (b : Body l) : (Token.symbol b.stop).plain = false := by
  cases b <;> rfl

theorem Body.Regular.same_lead (regular : b.Regular) (regular' : b'.Regular) {gap gap' : Gap} {ts us : List Spaced}
    (same : SameTokens (b.tokens ++ ⟨gap, .symbol .closeBrace⟩ :: ts) (b'.tokens ++ ⟨gap', .symbol .closeBrace⟩ :: us)) :
    SameTokens b.lead b'.lead ∧ b.stop = b'.stop ∧ SameTokens (b.behind gap ts) (b'.behind gap' us) := by
  obtain ⟨before, text⟩ := b.tokens_lead gap ts
  obtain ⟨before', text'⟩ := b'.tokens_lead gap' us
  rw [text, text'] at same
  obtain ⟨lead, stop, behind⟩ := same.split regular.plain_lead regular'.plain_lead b.stop_plain b'.stop_plain
  exact ⟨lead, Token.symbol.inj stop, behind⟩

/-- The tokens of a body up to the brace that closes it determine what it declares. -/
theorem Body.Regular.same_tokens (regular : b.Regular) (regular' : b'.Regular) {gap gap' : Gap} {ts us : List Spaced}
    (same : SameTokens (b.tokens ++ ⟨gap, .symbol .closeBrace⟩ :: ts) (b'.tokens ++ ⟨gap', .symbol .closeBrace⟩ :: us)) :
    b.Alike b' ∧ SameTokens ts us := by
  induction b generalizing gap gap' ts us with
  | nil =>
    obtain ⟨-, stop, behind⟩ := regular.same_lead regular' same
    cases b' with
    | nil => exact ⟨.nil, behind⟩
    | forward | member => exact absurd stop.symm semicolon_ne_closeBrace
    | type | enum => exact absurd stop.symm openBrace_ne_closeBrace
  | forward kind head plain before rest ih =>
    obtain ⟨lead, stop, behind⟩ := regular.same_lead regular' same
    cases b' with
    | nil => exact absurd stop semicolon_ne_closeBrace
    | forward kind' head' plain' before' rest' =>
      obtain ⟨heads, rfl⟩ := Head.same_tokens regular.1 regular'.1 lead
      obtain ⟨rests, behind⟩ := ih regular.2 regular'.2 behind
      exact ⟨.forward heads rests, behind⟩
    | type | enum => exact absurd stop semicolon_ne_openBrace
  | member tokens some before rest ih =>
    obtain ⟨lead, stop, behind⟩ := regular.same_lead regular' same
    cases b' with
    | nil => exact absurd stop semicolon_ne_closeBrace
    | member tokens' some' before' rest' =>
      obtain ⟨rests, behind⟩ := ih regular.2 regular'.2 behind
      exact ⟨.member lead rests, behind⟩
    | type | enum => exact absurd stop semicolon_ne_openBrace
  | type kind structured head before inner after rest ihInner ih =>
    obtain ⟨lead, stop, behind⟩ := regular.same_lead regular' same
    cases b' with
    | nil => exact absurd stop openBrace_ne_closeBrace
    | forward | member => exact absurd stop.symm semicolon_ne_openBrace
    | type kind' structured' head' before' inner' after' rest' =>
      obtain ⟨heads, rfl⟩ := Head.same_tokens regular.1 regular'.1 lead
      obtain ⟨inside, behind⟩ := ihInner regular.2.1 regular'.2.1 behind
      obtain ⟨rests, behind⟩ := ih regular.2.2 regular'.2.2 behind
      exact ⟨.type heads inside rests, behind⟩
    | enum head' before' values' after' rest' => exact absurd (Head.same_tokens regular.1 regular'.1 lead).2 structured
  | enum head before values after rest ih =>
    obtain ⟨lead, stop, behind⟩ := regular.same_lead regular' same
    cases b' with
    | nil => exact absurd stop openBrace_ne_closeBrace
    | forward | member => exact absurd stop.symm semicolon_ne_openBrace
    | type kind' structured' head' before' inner' after' rest' =>
      exact absurd (Head.same_tokens regular.1 regular'.1 lead).2.symm structured'
    | enum head' before' values' after' rest' =>
      obtain ⟨heads, -⟩ := Head.same_tokens regular.1 regular'.1 lead
      obtain ⟨same, behind⟩ := regular.2.1.2.1.same_tokens regular'.2.1.2.1 behind
      obtain ⟨rests, behind⟩ := ih regular.2.2 regular'.2.2 behind
      exact ⟨.enum heads same rests, behind⟩

end Bodies

/-! ### Sources -/

/-- The keyword of a clause. -/
theorem File.keyword {f : File} : ∀ c ∈ f.clauses, c.1 = .package ∨ c.1 = .import := by
  intro c member
  rcases List.mem_append.mp member with among | among
  · obtain ⟨d, -, rfl⟩ := List.mem_map.mp among
    exact .inl rfl
  · obtain ⟨d, -, rfl⟩ := List.mem_map.mp among
    exact .inr rfl

theorem not_free {t : Token} {w : Word} (token : t = .word w) (keyword : w = .package ∨ w = .import) : ¬t.Free := by
  subst token
  rcases keyword with rfl | rfl
  · exact fun free => free.1 rfl
  · exact fun free => free.2 rfl

/-- The clauses of a file end at the first token that is not one of their keywords. -/
theorem clauses_same {cs ds : List (Word × Clause)} (keyword : ∀ c ∈ cs, c.1 = .package ∨ c.1 = .import)
    (keyword' : ∀ d ∈ ds, d.1 = .package ∨ d.1 = .import) {us vs : List Spaced} (free : ∀ t ∈ us, t.token.Free)
    (free' : ∀ t ∈ vs, t.token.Free)
    (same : SameTokens (cs.flatMap (fun c => c.2.tokens c.1) ++ us) (ds.flatMap (fun d => d.2.tokens d.1) ++ vs)) :
    cs.map (fun c => (c.1, tightSpell c.2.name)) = ds.map (fun d => (d.1, tightSpell d.2.name)) ∧ SameTokens us vs := by
  induction cs generalizing ds with
  | nil =>
    cases ds with
    | nil => exact ⟨rfl, same⟩
    | cons d ds =>
      obtain ⟨t, first, token⟩ := SameTokens.head same
      exact absurd (free t (List.mem_of_mem_head? first)) (not_free token (keyword' d List.mem_cons_self))
  | cons c cs ih =>
    rw [List.forall_mem_cons] at keyword
    cases ds with
    | nil =>
      obtain ⟨t, first, token⟩ := SameTokens.head same.symm
      exact absurd (free' t (List.mem_of_mem_head? first)) (not_free token keyword.1)
    | cons d ds =>
      rw [List.forall_mem_cons] at keyword'
      simp only [List.flatMap_cons, Clause.tokens, List.append_assoc, List.singleton_append] at same
      obtain ⟨clause, -, behind⟩ := same.split (c.2.plain c.1) (d.2.plain d.1) rfl rfl
      obtain ⟨word, name⟩ := sameTokens_cons.mp clause
      obtain ⟨clauses, behind⟩ := ih keyword.2 keyword'.2 behind
      exact ⟨List.cons_eq_cons.mpr ⟨Prod.ext (Token.word.inj word) name.tightSpell, clauses⟩, behind⟩

theorem File.packageName_eq (f : File) : f.packageName =
    (((f.clauses.map fun c => (c.1, tightSpell c.2.name)).find? fun c => c.1.text == Word.package.text).map Prod.snd).getD [] := by
  have none : (((f.imports.map fun c => (Word.import, c)).map fun c => (c.1, tightSpell c.2.name)).find?
      fun c => c.1.text == Word.package.text) = none := by
    rw [List.map_map, List.find?_eq_none]
    intro c member
    obtain ⟨d, -, rfl⟩ := List.mem_map.mp member
    show ¬(Word.import.text == Word.package.text) = true
    decide
  rw [File.packageName, File.clauses]
  cases f.package with
  | none => exact (congrArg (fun found => (Option.map Prod.snd found).getD []) none).symm
  | some c => rfl

section Sources
variable {s s' : Source}

/-- The tokens of a source with a regular body determine what it declares. -/
theorem Source.same_tokens (regular : s.body.Regular) (regular' : s'.body.Regular) (same : SameTokens s.tokens s'.tokens) :
    s.packageName = s'.packageName ∧ s.body.Alike s'.body := by
  rw [s.tokens_eq, s'.tokens_eq] at same
  obtain ⟨clauses, bodies⟩ := clauses_same s.keyword s'.keyword s.free s'.free same
  have closed : SameTokens (s.body.tokens ++ [⟨[], .symbol .closeBrace⟩]) (s'.body.tokens ++ [⟨[], .symbol .closeBrace⟩]) :=
    bodies.append rfl
  exact ⟨by rw [s.packageName_eq, s'.packageName_eq, clauses], (regular.same_tokens regular' closed).1⟩

end Sources

section Trees
variable {ss ss' : List Source}

theorem parseAll_congr {ts us : List Text} (same : List.Forall₂ (fun t u => declared t = declared u) ts us) :
    parseAll ts = parseAll us := by
  rw [parseAll, parseAll]
  generalize Dict.empty = types
  induction same generalizing types with
  | nil => rfl
  | cons read _ ih =>
    rw [List.foldlM_cons, List.foldlM_cons, parseAidl, parseAidl, read]
    exact congrArg _ (funext ih)

theorem sources_same (regular : ∀ s ∈ ss, s.body.Regular) (regular' : ∀ s ∈ ss', s.body.Regular)
    (same : List.Forall₂ (fun s s' : Source => SameTokens s.tokens s'.tokens) ss ss') :
    List.Forall₂ (fun s s' : Source => (s.ShownAlike s' → declared s.text = declared s'.text) ∧
      (parseAidl s.text Dict.empty = parseAidl s'.text Dict.empty ↔ s.ShownAlike s')) ss ss' := by
  induction same with
  | nil => exact .nil
  | cons tokens _ ih =>
    rw [List.forall_mem_cons] at regular regular'
    obtain ⟨package, alike⟩ := Source.same_tokens regular.1 regular'.1 tokens
    exact .cons ⟨Source.declared_eq regular.1 regular'.1 package alike, Source.parse_eq_iff regular.1 regular'.1 package alike⟩
      (ih regular.2 regular'.2)

/-- Two trees whose sources have the same tokens are recorded and dumped alike exactly when the same gaps show in them. -/
theorem dumpSurface_layout_iff {t t' : Tree} (texts : t.texts = ss.map fun s => s.text)
    (texts' : t'.texts = ss'.map fun s => s.text) (regular : ∀ s ∈ ss, s.body.Regular) (regular' : ∀ s ∈ ss', s.body.Regular)
    (same : List.Forall₂ (fun s s' : Source => SameTokens s.tokens s'.tokens) ss ss') :
    (List.Forall₂ (fun s s' : Source => parseAidl s.text Dict.empty = parseAidl s'.text Dict.empty) ss ss' ∧
        dumpSurface t = dumpSurface t') ↔ List.Forall₂ Source.ShownAlike ss ss' := by
  have pairs := sources_same regular regular' same
  constructor
  · rintro ⟨parsed, -⟩
    exact List.Forall₂.mp (fun _ _ pair parsed => pair.2.mp parsed) pairs parsed
  · intro shown
    refine ⟨List.Forall₂.mp (fun _ _ pair shown => pair.2.mpr shown) pairs shown, ?_⟩
    have read := List.Forall₂.mp (fun _ _ pair shown => pair.1 shown) pairs shown
    rw [dumpSurface, dumpSurface, texts, texts',
      parseAll_congr (List.forall₂_map_left_iff.mpr (List.forall₂_map_right_iff.mpr read))]

end Trees

theorem parcelable_ne_enum : Kind.parcelable ≠ .enum := by decide

def Word.list : Word := ⟨"List".toList, by decide, by decide +kernel⟩

/-- A parcelable with a member of a generic type, and gaps before it and inside its member. -/
def genericField (doc gap : Gap) : File where
  package := none
  imports := []
  body := .type .parcelable parcelable_ne_enum ⟨[], none, doc, .space, .type, none⟩ []
    (.member [⟨[], .word .list⟩, ⟨gap, .symbol .less⟩, ⟨[], .word .type⟩, ⟨[], .symbol .greater⟩, ⟨.space, .word .field⟩]
      (List.cons_ne_nil _ _) [] .nil) [] .nil
  ending := []
  last := none

def closedField : Source where
  toFile := genericField [] []
  apart := by decide +kernel
  names := by decide
  free := by decide +kernel
  distinct := by decide +kernel

def documentedField : Source where
  toFile := genericField [.line " doc".toList (by decide)] []
  apart := by decide +kernel
  names := by decide
  free := by decide +kernel
  distinct := by decide +kernel

def openField : Source where
  toFile := genericField [] [.block "c".toList (by decide)]
  apart := by decide +kernel
  names := by decide
  free := by decide +kernel
  distinct := by decide +kernel

/-- The dump of a file of its own. -/
abbrev dumpFile (text : Text) : Except SurfaceError Text := dumpSurface (.dir [("P.aidl".toList, text)] [])

/-- A comment before a declaration does not show, one before the angle of a generic type does. -/
theorem dumpSurface_layout_generic :
    dumpFile "parcelable P\x7bList<P> a;\x7d".toList = dumpFile "// doc\nparcelable P\x7bList<P> a;\x7d".toList ∧
      ¬(parseAidl "parcelable P\x7bList<P> a;\x7d".toList Dict.empty = parseAidl "parcelable P\x7bList/*c*/<P> a;\x7d".toList Dict.empty ∧
        dumpFile "parcelable P\x7bList<P> a;\x7d".toList = dumpFile "parcelable P\x7bList/*c*/<P> a;\x7d".toList) := by
  have regular : ∀ doc gap : Gap, (genericField doc gap).body.Regular := by
    intro doc gap
    refine ⟨⟨⟨rfl, fun _ member => absurd member List.not_mem_nil⟩, fun _ member => absurd member List.not_mem_nil⟩,
      ⟨?_, trivial⟩, trivial⟩
    simp only [List.forall_mem_cons]
    exact ⟨rfl, rfl, rfl, rfl, rfl, fun _ member => absurd member List.not_mem_nil⟩
  have tight : ∀ doc gap : Gap, (genericField doc gap).Tight := fun _ _ _ member => by cases member
  have single : ∀ text : Text, (Tree.dir [("P.aidl".toList, text)] []).texts = [text] := fun text => by
    simp [Tree.texts, Tree.dirTexts, byName]
  have closedText : closedField.text = "parcelable P\x7bList<P> a;\x7d".toList := by decide +kernel
  have documentedText : documentedField.text = "// doc\nparcelable P\x7bList<P> a;\x7d".toList := by decide +kernel
  have openText : openField.text = "parcelable P\x7bList/*c*/<P> a;\x7d".toList := by decide +kernel
  have documented := @dumpSurface_layout_iff [closedField] [documentedField] _ _ (single _) (single _)
    (List.forall_mem_singleton.mpr (regular _ _)) (List.forall_mem_singleton.mpr (regular _ _))
    (.cons rfl .nil)
  have commented := @dumpSurface_layout_iff [closedField] [openField] _ _ (single _) (single _)
    (List.forall_mem_singleton.mpr (regular _ _)) (List.forall_mem_singleton.mpr (regular _ _))
    (.cons rfl .nil)
  rw [← closedText, ← documentedText, ← openText]
  refine ⟨(documented.mpr (.cons ⟨fun _ => iff_of_true (tight _ _) (tight _ _), rfl⟩ .nil)).2, fun both => ?_⟩
  have shown := commented.mp ⟨.cons both.1 .nil, both.2⟩
  exact absurd (List.forall₂_cons.mp shown).1.2 (by decide)

/-- The layouts have the same tokens, and the comment of one of them shows in its dump. -/
theorem dumpSurface_layout_comment :
    closedField.text = "parcelable P\x7bList<P> a;\x7d".toList ∧ openField.text = "parcelable P\x7bList/*c*/<P> a;\x7d".toList ∧
      SameTokens closedField.tokens openField.tokens ∧
      parseAidl closedField.text Dict.empty ≠ parseAidl openField.text Dict.empty ∧
      dumpFile closedField.text = .ok "parcelable P\n    List<P> a\n".toList ∧
      dumpFile openField.text = .ok "parcelable P\n    List <P> a\n".toList :=
  ⟨by decide +kernel, by decide +kernel, rfl, by decide +kernel, by decide +kernel, by decide +kernel⟩

end BinderIdl.Surface
