import BinderIdl.Theorems.Completeness
import BinderIdl.Theorems.Gaps
import BinderIdl.Theorems.LiteralEnums

/-! Which changes of the layout show in what is recorded for a source. Comments are gaps like blanks, and a gap shows by
    being there at all; beside punctuation, in a header and at the ends of a declaration not even that. -/

namespace BinderIdl.Surface
open Py

/-! ### Gaps that are all closed -/

theorem joined_of_solid {ts : List Spaced} (solid : ∀ c ∈ blankSpell ts, isSpace c = false ∧ isPunct c = false) :
    ∀ t ∈ ts, t.gap = [] ∧ t.token.isMark = false := by
  intro t member
  have inside : ∀ c ∈ t.gap.blanks ++ t.token.spell, isSpace c = false ∧ isPunct c = false := fun c among =>
    solid c (List.mem_flatMap.mpr ⟨t, member, among⟩)
  constructor
  · by_contra some
    obtain ⟨c, u, blank⟩ := List.exists_cons_of_ne_nil (Gap.blanks_ne_nil some)
    have space := t.gap.isBlank c (by rw [blank]; exact List.mem_cons_self)
    rw [(inside c (by rw [blank]; simp)).1] at space
    cases space
  · cases token : t.token with
    | symbol s => exact (inside s.char (by rw [token]; simp [Token.spell])).2
    | word w => rfl
    | string l => rfl
    | char c single => rfl

theorem shownGaps_joined {ts : List Spaced} (joined : ∀ t ∈ ts, t.gap = [] ∧ t.token.isMark = false) {tight : Bool} :
    shownGaps tight ts = List.replicate ts.length false := by
  induction ts generalizing tight with
  | nil => rfl
  | cons t ts ih =>
    rw [List.forall_mem_cons] at joined
    rw [shownGaps, ih joined.2, joined.1.1]
    simp [List.replicate_succ]

theorem gaps_of_shownGaps {ts : List Spaced} (unmarked : ∀ t ∈ ts, t.token.isMark = false)
    (none : shownGaps false ts = List.replicate ts.length false) : ∀ t ∈ ts, t.gap = [] := by
  induction ts with
  | nil => exact fun _ member => absurd member List.not_mem_nil
  | cons t ts ih =>
    rw [List.forall_mem_cons] at unmarked ⊢
    rw [shownGaps, unmarked.1, List.length_cons, List.replicate_succ, List.cons.injEq] at none
    exact ⟨by simpa using none.1, ih unmarked.2 none.2⟩

theorem shownGaps_append_mark {t : Spaced} (mark : t.token.isMark = true) (ts us : List Spaced) (tight : Bool) :
    shownGaps tight (ts ++ t :: us) = shownGaps tight ts ++ false :: shownGaps true us := by
  induction ts generalizing tight with
  | nil => simp [shownGaps, mark]
  | cons u ts ih => simp [shownGaps, ih]

theorem length_shownGaps (ts : List Spaced) (tight : Bool) : (shownGaps tight ts).length = ts.length := by
  induction ts generalizing tight with
  | nil => rfl
  | cons t ts ih => rw [shownGaps, List.length_cons, List.length_cons, ih]

/-- The tokens at these places are the same. -/
abbrev SameTokens (ts us : List Spaced) : Prop := ts.map Spaced.token = us.map Spaced.token

section Same
variable {ts us : List Spaced}

theorem SameTokens.quoteless (same : SameTokens ts us) (quoteless : Quoteless ts) : Quoteless us := by
  intro u member
  obtain ⟨t, among, token⟩ := List.mem_map.mp (same ▸ List.mem_map_of_mem member : u.token ∈ ts.map Spaced.token)
  rw [← token]
  exact quoteless t among

theorem SameTokens.tightSpell (same : SameTokens ts us) : tightSpell ts = tightSpell us := by
  have read : ∀ ts : List Spaced, Surface.tightSpell ts = (ts.map Spaced.token).flatMap Token.spell := fun ts => by
    rw [List.flatMap_map]
    rfl
  rw [read, read, same]

theorem SameTokens.ne_nil (same : SameTokens ts us) (some : ts ≠ []) : us ≠ [] := by
  rintro rfl
  exact some (List.map_eq_nil_iff.mp same)

/-- A text without blanks or punctuation has no gap that shows, and no other layout of its tokens is like it. -/
theorem SameTokens.solid (same : SameTokens ts us) (some : ts ≠ [])
    (solid : ∀ c ∈ strip (blankSpell ts), isSpace c = false ∧ isPunct c = false) :
    shownGaps true ts = List.replicate ts.length false ∧
      (shownGaps true us = List.replicate ts.length false → strip (blankSpell us) = strip (blankSpell ts)) := by
  obtain ⟨t, ts, rfl⟩ := List.exists_cons_of_ne_nil some
  obtain ⟨u, us, rfl⟩ := List.exists_cons_of_ne_nil (same.ne_nil some)
  have text : ∀ {t : Spaced} {ts : List Spaced}, strip (blankSpell (t :: ts)) = t.token.spell ++ blankSpell ts := by
    intro t ts
    have same := strip_blankSpell (firm_blankSpell (List.cons_ne_nil t ts)) (Gap.isBlank [])
    rwa [show Gap.blanks [] = [] from rfl, List.append_nil] at same
  rw [text] at solid ⊢
  rw [SameTokens, List.map_cons, List.map_cons, List.cons.injEq] at same
  have joined := joined_of_solid fun c member => solid c (List.mem_append_right _ member)
  have first : t.token.isMark = false :=
    (@joined_of_solid [⟨[], t.token⟩] (fun c member => solid c (List.mem_append_left _ (by simpa [Gap.blanks] using member))) _
      List.mem_cons_self).2
  refine ⟨?_, fun none => ?_⟩
  · rw [shownGaps, first, shownGaps_joined joined]
    rfl
  · have unmarked : ∀ v ∈ us, v.token.isMark = false := by
      intro v member
      obtain ⟨w, among, token⟩ := List.mem_map.mp (same.2 ▸ List.mem_map_of_mem member : v.token ∈ ts.map Spaced.token)
      rw [← token]
      exact (joined w among).2
    have length : ts.length = us.length := by simpa using congrArg List.length same.2
    rw [shownGaps, ← same.1, first, List.length_cons, List.replicate_succ, List.cons.injEq, length] at none
    have tight' := gaps_of_shownGaps unmarked none.2
    rw [text, ← same.1, blankSpell_of_tight tight', blankSpell_of_tight fun t member => (joined t member).1]
    exact congrArg _ (SameTokens.tightSpell same.2).symm

end Same

/-! ### Enumerators -/

def Symbol.comma : Symbol := ⟨',', by decide, by decide, by decide⟩

theorem isSpace_assign : isSpace '=' = false := by decide

theorem isWord_assign : isWord '=' = false := by decide

theorem notQuote_assign : '=' ≠ '"' ∧ '=' ≠ '\'' := by decide

def Symbol.assign : Symbol := ⟨'=', isSpace_assign, isWord_assign, notQuote_assign⟩

/-- An enumerator, with the tokens of its value. -/
structure EnumTerm where
  gap : Gap
  name : Word
  value : Option (Gap × List Spaced)

def EnumTerm.tokens (e : EnumTerm) : List Spaced :=
  ⟨e.gap, .word e.name⟩ ::
    match e.value with
    | some (gap, value) => ⟨gap, .symbol .assign⟩ :: value
    | none => []

/-- The value is there after an equals sign, and has no comma. -/
def EnumTerm.Plain (e : EnumTerm) : Prop := ∀ v ∈ e.value, v.2 ≠ [] ∧ ∀ t ∈ v.2, ',' ∉ t.token.spell

/-- Enumerators with commas between them, and possibly one behind the last. -/
inductive EnumTerms : List EnumTerm → List Spaced → Prop where
  | nil : EnumTerms [] []
  | last {e : EnumTerm} (plain : e.Plain) : EnumTerms [e] e.tokens
  | next {e : EnumTerm} (plain : e.Plain) {gap : Gap} {es : List EnumTerm} {rest : List Spaced} (more : EnumTerms es rest) :
      EnumTerms (e :: es) (e.tokens ++ ⟨gap, .symbol .comma⟩ :: rest)

/-- What is recorded for a value, and the value that the next enumerator is counted from. -/
def enumValue (expr : Text) : Except SurfaceError (Text × Option Int) :=
  if isIntLiteral expr then (parseInt expr).map fun k => (ofInt k, some k) else .ok (normalize expr, none)

/-- The line of an enumerator without a value. -/
def impliedLine (name : Text) : Option Int → Text
  | some k => enumLine name (ofInt (k + 1))
  | none => name

/-- An enumerator is one round of the loop of `_parse_enum_body`. -/
theorem EnumTerm.round (e : EnumTerm) {g : Text} (blank : ∀ c ∈ g, isSpace c = true) (prev : Option Int)
    (pieces : List Text) :
    parseEnumValues prev ((blankSpell e.tokens ++ g) :: pieces) =
      match e.value with
      | none => (parseEnumValues (prev.map (· + 1)) pieces).map (impliedLine e.name.text prev :: ·)
      | some (_, value) => do
        let v ← enumValue (strip (blankSpell value))
        let members ← parseEnumValues v.2 pieces
        return enumLine e.name.text v.1 :: members := by
  have whole : strip (blankSpell e.tokens ++ g) = e.name.text ++ blankSpell e.tokens.tail :=
    strip_blankSpell (firm_blankSpell (List.cons_ne_nil _ _)) blank
  have word : ∀ c ∈ e.name.text, isWord c = true := fun c => e.name.isWord_of_mem
  have isWord : IsWord e.name.text := ⟨e.name.nonempty, fun c member => not_isSpace_of_isWord (word c member)⟩
  conv_lhs => unfold parseEnumValues
  simp only [whole]
  rw [if_neg (List.append_ne_nil_of_left_ne_nil e.name.nonempty _)]
  cases value : e.value with
  | none =>
    have tail : blankSpell e.tokens.tail = [] := by simp [EnumTerm.tokens, value]
    rw [tail, List.append_nil, if_neg (solid_of_word word).2]
    cases prev <;> rfl
  | some v =>
    obtain ⟨gap, v⟩ := v
    have tail : blankSpell e.tokens.tail = gap.blanks ++ '=' :: blankSpell v := by
      simp [EnumTerm.tokens, value, Token.spell, Symbol.assign]
    have before : ∀ c ∈ e.name.text ++ gap.blanks, (c != '=') = true := by
      intro c member
      rcases List.mem_append.mp member with member | member
      · simpa using fun same : c = '=' => (solid_of_word word).2 (same ▸ member)
      · simpa using fun same : c = '=' => absurd (gap.isBlank c member) (by rw [same]; decide)
    have parts : partition '=' (e.name.text ++ (gap.blanks ++ '=' :: blankSpell v)) = (e.name.text ++ gap.blanks, blankSpell v) := by
      rw [← List.append_assoc, partition, takeWhile_append_cons before (by decide), dropWhile_append_cons before (by decide),
        List.tail_cons]
    have left : strip (e.name.text ++ gap.blanks) = e.name.text := by
      have stripped := strip_append_space (g := []) (by simp) gap.isBlank e.name.text
      rw [List.nil_append] at stripped
      exact stripped.trans isWord.stripped
    rw [tail, if_pos (by simp)]
    simp only [parts, left, enumValue]
    split
    · cases parseInt (strip (blankSpell v)) <;> rfl
    · rfl

/-- Two layouts of a value are recorded alike exactly when the same gaps show. -/
theorem enumValue_eq_iff {ts us : List Spaced} (same : SameTokens ts us) (some : ts ≠ []) (apart : Apart ts)
    (apart' : Apart us) (quoteless : Quoteless ts) {v w : Text × Option Int}
    (read : enumValue (strip (blankSpell ts)) = .ok v) (read' : enumValue (strip (blankSpell us)) = .ok w) :
    (v.1 = w.1 ↔ shownGaps true ts = shownGaps true us) ∧ (shownGaps true ts = shownGaps true us → v = w) := by
  have line : ∀ {ts : List Spaced}, ts ≠ [] → Apart ts → Quoteless ts → normalize (strip (blankSpell ts)) = memberLine ts := by
    intro ts some apart quoteless
    have same := memberLine_eq some apart quoteless []
    rwa [show Gap.blanks [] = [] from rfl, List.append_nil] at same
  have literal : ∀ {x : Text}, isIntLiteral x = true → ∀ c ∈ x, isSpace c = false ∧ isPunct c = false := fun h => (solid_of_isIntLiteral h).2
  have digits : ∀ k : Int, ∀ c ∈ ofInt k, isSpace c = false ∧ isPunct c = false := by
    intro k c member
    refine ⟨ofInt_solid member, ?_⟩
    by_contra punct
    rcases mem_ofInt member with rfl | digit
    · exact punct rfl
    · rcases isPunct_cases (by simpa using punct) with rfl | rfl | rfl | rfl | rfl | rfl | rfl <;> cases digit
  have quoteless' := same.quoteless quoteless
  have some' := same.ne_nil some
  have same' : SameTokens us ts := same.symm
  have length : ts.length = us.length := by simpa using congrArg List.length same
  -- a literal beside another text: the other layout has a gap that shows, and its line has a blank
  have mixed : ∀ {ts us : List Spaced} {k : Int}, SameTokens ts us → ts ≠ [] → us ≠ [] → Quoteless us → Apart us →
      isIntLiteral (strip (blankSpell ts)) = true → ¬isIntLiteral (strip (blankSpell us)) = true →
      ofInt k ≠ normalize (strip (blankSpell us)) ∧ shownGaps true ts ≠ shownGaps true us := by
    intro ts us k same some some' quoteless apart isLiteral notLiteral
    obtain ⟨none, only⟩ := same.solid some (literal isLiteral)
    have length : ts.length = us.length := by simpa using congrArg List.length same
    have differ : shownGaps true us ≠ List.replicate ts.length false := by
      intro closed
      rw [only closed] at notLiteral
      exact notLiteral isLiteral
    refine ⟨fun text => ?_, fun shown => differ (shown ▸ none)⟩
    have value := eq_ofInt_of_normalize (stripped_strip _) text.symm
    refine differ ?_
    rw [length]
    exact (SameTokens.solid same.symm some' (by rw [value]; exact digits k)).1
  rw [enumValue] at read read'
  by_cases first : isIntLiteral (strip (blankSpell ts)) = true
  · obtain ⟨none, only⟩ := same.solid some (literal first)
    rw [if_pos first] at read
    by_cases second : isIntLiteral (strip (blankSpell us)) = true
    · have none' := (same'.solid some' (literal second)).1
      rw [← length] at none'
      rw [if_pos second, only none', read] at read'
      obtain rfl := Except.ok.inj read'
      rw [none, none']
      exact ⟨⟨fun _ => rfl, fun _ => rfl⟩, fun _ => rfl⟩
    · obtain ⟨k, -, rfl⟩ := map_eq_ok.mp read
      rw [if_neg second] at read'
      obtain rfl := Except.ok.inj read'
      obtain ⟨texts, gaps⟩ := @mixed ts us k same some some' quoteless' apart' first second
      exact ⟨⟨fun text => absurd text texts, fun shown => absurd shown gaps⟩, fun shown => absurd shown gaps⟩
  · rw [if_neg first] at read
    obtain rfl := Except.ok.inj read
    by_cases second : isIntLiteral (strip (blankSpell us)) = true
    · rw [if_pos second] at read'
      obtain ⟨k, -, rfl⟩ := map_eq_ok.mp read'
      obtain ⟨texts, gaps⟩ := @mixed us ts k same' some' some quoteless apart second first
      exact ⟨⟨fun text => absurd text.symm texts, fun shown => absurd shown.symm gaps⟩, fun shown => absurd shown.symm gaps⟩
    · rw [if_neg second] at read'
      obtain rfl := Except.ok.inj read'
      have lines := memberLine_eq_iff same some apart apart' quoteless quoteless'
      rw [← line some apart quoteless, ← line some' apart' quoteless'] at lines
      exact ⟨lines, fun shown => Prod.ext (lines.mpr shown) rfl⟩

theorem EnumTerm.no_comma {e : EnumTerm} (plain : e.Plain) {g : Text} (blank : ∀ c ∈ g, isSpace c = true) :
    ',' ∉ blankSpell e.tokens ++ g := by
  have name := (solid_of_word fun c => e.name.isWord_of_mem).1
  have before := comma_of_isSpace e.gap.isBlank
  have after := comma_of_isSpace blank
  cases value : e.value with
  | none => simp [EnumTerm.tokens, value, Token.spell, name, before, after]
  | some v =>
    obtain ⟨gap, v⟩ := v
    have inside : ',' ∉ blankSpell v := by
      intro member
      rcases mem_blankSpell member with space | ⟨t, among, spelled⟩
      · cases space
      · exact (plain _ value).2 t among spelled
    simp [EnumTerm.tokens, value, Token.spell, Symbol.assign, name, before, after, comma_of_isSpace gap.isBlank, inside]

/-- The first enumerator is cut off at the comma behind it. -/
theorem EnumTerm.splitOn_next (e : EnumTerm) (plain : e.Plain) {gap : Gap} {rest : List Spaced} {g : Text} :
    (blankSpell (e.tokens ++ ⟨gap, .symbol .comma⟩ :: rest) ++ g).splitOn ',' =
      (blankSpell e.tokens ++ gap.blanks) :: (blankSpell rest ++ g).splitOn ',' := by
  have text : blankSpell (e.tokens ++ ⟨gap, .symbol .comma⟩ :: rest) ++ g =
      blankSpell e.tokens ++ gap.blanks ++ ',' :: (blankSpell rest ++ g) := by
    simp [blankSpell_append, Token.spell, Symbol.comma]
  rw [text, List.splitOn_append_cons_self_of_not_mem (e.no_comma plain gap.isBlank)]

theorem parseEnumValues_blank {g : Text} (blank : ∀ c ∈ g, isSpace c = true) (prev : Option Int) :
    parseEnumValues prev (g.splitOn ',') = .ok [] := by
  rw [List.splitOn_eq_singleton (comma_of_isSpace blank)]
  unfold parseEnumValues
  simp only
  rw [if_pos (strip_eq_nil_iff.mpr blank)]
  rfl

/-- The same tokens are an enumerator of the same name and with the same tokens as its value. -/
theorem EnumTerm.same {e : EnumTerm} {us : List Spaced} (same : SameTokens e.tokens us) :
    ∃ e' : EnumTerm, us = e'.tokens ∧ e'.name.text = e.name.text ∧
      (e.value = none ∧ e'.value = none ∨
        ∃ v v', e.value = some v ∧ e'.value = some v' ∧ SameTokens v.2 v'.2) := by
  cases value : e.value with
  | none =>
    simp only [EnumTerm.tokens, value, SameTokens, List.map_cons, List.map_nil] at same
    obtain ⟨u, rest, rfl, token, last⟩ := List.map_eq_cons_iff.mp same.symm
    obtain rfl := List.map_eq_nil_iff.mp last
    obtain ⟨gap, t⟩ := u
    obtain rfl : t = .word e.name := token
    exact ⟨⟨gap, e.name, none⟩, rfl, rfl, .inl ⟨rfl, rfl⟩⟩
  | some v =>
    simp only [EnumTerm.tokens, value, SameTokens, List.map_cons] at same
    obtain ⟨u, rest, rfl, token, more⟩ := List.map_eq_cons_iff.mp same.symm
    obtain ⟨w, vs, rfl, assign, value'⟩ := List.map_eq_cons_iff.mp more
    obtain ⟨gap, t⟩ := u
    obtain ⟨gap', t'⟩ := w
    obtain rfl : t = .word e.name := token
    obtain rfl : t' = .symbol .assign := assign
    exact ⟨⟨gap, e.name, some (gap', vs)⟩, rfl, rfl, .inr ⟨v, (gap', vs), rfl, rfl, value'.symm⟩⟩

theorem EnumTerm.Plain.same {e e' : EnumTerm} (plain : e.Plain)
    (values : e.value = none ∧ e'.value = none ∨ ∃ v v', e.value = some v ∧ e'.value = some v' ∧ SameTokens v.2 v'.2) :
    e'.Plain := by
  intro v member
  rcases values with ⟨-, none⟩ | ⟨w, w', value, value', same⟩
  · rw [none] at member
    cases member
  · rw [value'] at member
    obtain rfl := Option.some.inj member
    obtain ⟨some, inside⟩ := plain w value
    refine ⟨same.ne_nil some, fun t among => ?_⟩
    obtain ⟨u, among', token⟩ := List.mem_map.mp (same ▸ List.mem_map_of_mem among : t.token ∈ w.2.map Spaced.token)
    rw [← token]
    exact inside u among'

/-- The first enumerators are recorded alike, and count alike for those behind them, exactly when the same gaps show. -/
theorem EnumTerm.round_eq_iff {e e' : EnumTerm} (plain : e.Plain) (name : e'.name.text = e.name.text)
    (values : e.value = none ∧ e'.value = none ∨ ∃ v v', e.value = some v ∧ e'.value = some v' ∧ SameTokens v.2 v'.2)
    (apart : Apart e.tokens) (apart' : Apart e'.tokens) (quoteless : Quoteless e.tokens) {g g' : Text}
    (blank : ∀ c ∈ g, isSpace c = true) (blank' : ∀ c ∈ g', isSpace c = true) {pieces pieces' : List Text} {P : Prop}
    (rest : ∀ {prev members members'}, parseEnumValues prev pieces = .ok members →
      parseEnumValues prev pieces' = .ok members' → (members = members' ↔ P))
    {prev : Option Int} {members members' : List Text}
    (read : parseEnumValues prev ((blankSpell e.tokens ++ g) :: pieces) = .ok members)
    (read' : parseEnumValues prev ((blankSpell e'.tokens ++ g') :: pieces') = .ok members') :
    members = members' ↔ shownGaps true e.tokens = shownGaps true e'.tokens ∧ P := by
  rw [e.round blank] at read
  rw [e'.round blank'] at read'
  rcases values with ⟨none, none'⟩ | ⟨⟨gap, v⟩, ⟨gap', v'⟩, value, value', same⟩
  · rw [none] at read
    rw [none'] at read'
    obtain ⟨ms, behind, rfl⟩ := map_eq_ok.mp read
    obtain ⟨ms', behind', rfl⟩ := map_eq_ok.mp read'
    have alike : shownGaps true e.tokens = shownGaps true e'.tokens := by
      simp [EnumTerm.tokens, none, none', shownGaps, Token.isMark]
    rw [name, List.cons.injEq, rest behind behind']
    exact and_congr ⟨fun _ => alike, fun _ => rfl⟩ Iff.rfl
  · rw [value] at read
    rw [value'] at read'
    obtain ⟨w, known, done⟩ := bind_eq_ok.mp read
    obtain ⟨ms, behind, line⟩ := bind_eq_ok.mp done
    obtain ⟨w', known', done'⟩ := bind_eq_ok.mp read'
    obtain ⟨ms', behind', line'⟩ := bind_eq_ok.mp done'
    obtain rfl := Except.ok.inj line
    obtain rfl := Except.ok.inj line'
    have tokens : ∀ {e : EnumTerm} {gap v}, e.value = some (gap, v) →
        e.tokens = ⟨e.gap, .word e.name⟩ :: ⟨gap, .symbol .assign⟩ :: v := by
      intro e gap v value
      rw [EnumTerm.tokens, value]
    have shown : shownGaps true e.tokens = shownGaps true e'.tokens ↔ shownGaps true v = shownGaps true v' := by
      have mark : (Token.symbol .assign).isMark = true := by decide
      rw [tokens value, tokens value', ← List.singleton_append, ← List.singleton_append (l := _ :: v'),
        shownGaps_append_mark mark, shownGaps_append_mark mark]
      simp [shownGaps, Token.isMark]
    rw [tokens value] at apart quoteless
    rw [tokens value'] at apart'
    obtain ⟨texts, counted⟩ := enumValue_eq_iff same (plain _ value).1 apart.of_cons.of_cons apart'.of_cons.of_cons
      (fun t member => quoteless t (List.mem_cons_of_mem _ (List.mem_cons_of_mem _ member))) known known'
    have lines : enumLine e.name.text w.1 = enumLine e'.name.text w'.1 ↔ w.1 = w'.1 := by
      rw [name, enumLine, enumLine, List.append_cancel_left_eq]
    rw [List.cons.injEq, lines, texts, shown]
    refine and_congr_right fun alike => ?_
    rw [← counted alike] at behind'
    exact rest behind behind'

/-- Two layouts of an enum body are recorded alike exactly when the same gaps show. -/
theorem EnumTerms.members_eq_iff {es : List EnumTerm} {ts us : List Spaced} (terms : EnumTerms es ts) (same : SameTokens ts us) (apart : Apart ts)
    (apart' : Apart us) (quoteless : Quoteless ts) {g g' : Text} (blank : ∀ c ∈ g, isSpace c = true)
    (blank' : ∀ c ∈ g', isSpace c = true) {prev : Option Int} {members members' : List Text}
    (read : parseEnumValues prev ((blankSpell ts ++ g).splitOn ',') = .ok members)
    (read' : parseEnumValues prev ((blankSpell us ++ g').splitOn ',') = .ok members') :
    members = members' ↔ shownGaps true ts = shownGaps true us := by
  induction terms generalizing us prev members members' with
  | nil =>
    obtain rfl := List.map_eq_nil_iff.mp same.symm
    rw [blankSpell_nil, List.nil_append, parseEnumValues_blank blank] at read
    rw [blankSpell_nil, List.nil_append, parseEnumValues_blank blank'] at read'
    obtain rfl := Except.ok.inj read
    obtain rfl := Except.ok.inj read'
    exact ⟨fun _ => rfl, fun _ => rfl⟩
  | @last e plain =>
    obtain ⟨e', rfl, name, values⟩ := EnumTerm.same same
    rw [List.splitOn_eq_singleton (e.no_comma plain blank)] at read
    rw [List.splitOn_eq_singleton (e'.no_comma (plain.same values) blank')] at read'
    have nothing : ∀ {prev : Option Int} {members members' : List Text}, parseEnumValues prev [] = .ok members →
        parseEnumValues prev [] = .ok members' → (members = members' ↔ True) := by
      intro prev members members' read read'
      exact iff_true_intro (Except.ok.inj (read.symm.trans read'))
    rw [EnumTerm.round_eq_iff plain name values apart apart' quoteless blank blank' nothing read read', and_true]
  | @next e plain gap es rest more ih =>
    rw [SameTokens, List.map_append, List.map_cons] at same
    obtain ⟨us, tail, rfl, first, next⟩ := List.map_eq_append_iff.mp same.symm
    obtain ⟨comma, vs, rfl, token, behind⟩ := List.map_eq_cons_iff.mp next
    obtain ⟨gap', t⟩ := comma
    obtain rfl : t = .symbol .comma := token
    obtain ⟨e', rfl, name, values⟩ := EnumTerm.same first.symm
    rw [e.splitOn_next plain] at read
    rw [e'.splitOn_next (plain.same values)] at read'
    have mark : (Token.symbol .comma).isMark = true := by decide
    have later : ∀ {prev members members'}, parseEnumValues prev ((blankSpell rest ++ g).splitOn ',') = .ok members →
        parseEnumValues prev ((blankSpell vs ++ g').splitOn ',') = .ok members' →
          (members = members' ↔ shownGaps true rest = shownGaps true vs) := fun read read' =>
      ih behind.symm apart.right_of_append.of_cons apart'.right_of_append.of_cons
        (fun t member => quoteless t (List.mem_append_right _ (List.mem_cons_of_mem _ member))) read read'
    rw [EnumTerm.round_eq_iff plain name values apart.left_of_append apart'.left_of_append
      (fun t member => quoteless t (List.mem_append_left _ member)) gap.isBlank gap'.isBlank later read read',
      shownGaps_append_mark mark, shownGaps_append_mark mark]
    have lengths : (shownGaps true e.tokens).length = (shownGaps true e'.tokens).length := by
      rw [length_shownGaps, length_shownGaps]
      simpa using congrArg List.length first.symm
    rw [List.append_eq_append_iff_of_size_eq_left lengths]
    simp

/-! ### Bodies -/

/-- The header can be read: no type parameters, and no brace or closing parenthesis between the parentheses of an
    annotation. -/
def Head.Readable (h : Head) : Prop := h.Plain ∧ h.Closed

/-- Nothing is passed over or cut: the headers can be read, the tokens of members are plain, and enums are lists of
    enumerators whose literals can be converted. -/
def Body.Regular {l : Level} : Body l → Prop
  | .nil => True
  | .forward _ head _ _ rest => head.Readable ∧ rest.Regular
  | .member tokens _ _ rest => (∀ t ∈ tokens, t.token.plain = true) ∧ rest.Regular
  | .type _ _ head _ inner _ rest => head.Readable ∧ inner.Regular ∧ rest.Regular
  | .enum head _ values after rest =>
    head.Readable ∧ ((∃ es, EnumTerms es values) ∧ Enclosed values ∧ Converts (blankSpell values ++ after.blanks)) ∧
      rest.Regular

theorem Head.Readable.balanced {h : Head} (readable : h.Readable) : h.Balanced := by
  refine ⟨fun a member => ⟨enclosed_of_plain (readable.1.2 a member), fun t among => ?_⟩, fun t member => ?_⟩
  · have plain := readable.1.2 a member t among
    cases token : t.token with
    | char c single =>
      rw [token] at plain
      have other : isStructural c = false := by simpa [Token.plain] using plain
      simp_all [Token.noSemicolon, isStructural]
    | word w => rfl
    | symbol s => rfl
    | string l => rfl
  · rw [Head.parameterTokens, readable.1.1] at member
    cases member

theorem Body.Regular.legible {l : Level} {b : Body l} (regular : b.Regular) : b.Legible ∧ b.Closed := by
  induction b with
  | nil => exact ⟨trivial, trivial⟩
  | forward kind head plain gap rest ih => exact ⟨⟨regular.1.balanced, (ih regular.2).1⟩, regular.1.2, (ih regular.2).2⟩
  | member ts some gap rest ih => exact ⟨⟨.last (.run regular.1), (ih regular.2).1⟩, (ih regular.2).2⟩
  | type kind structured head before inner after rest ihInner ih =>
    exact ⟨⟨regular.1.balanced, (ihInner regular.2.1).1, (ih regular.2.2).1⟩, regular.1.2, (ihInner regular.2.1).2,
      (ih regular.2.2).2⟩
  | enum head before values after rest ih =>
    exact ⟨⟨regular.1.balanced, regular.2.1.2, (ih regular.2.2).1⟩, regular.1.2, (ih regular.2.2).2⟩

/-- What is recorded for an enum body. -/
def enumLines (values : List Spaced) (after : Gap) : List Text := okOr [] (parseEnumBody (blankSpell values ++ after.blanks))

/-- The surface of a body: the types that it declares at any depth, with their qualified names. -/
def Body.surface {l : Level} (package : Text) (outer : List Text) : Body l → List (Text × TypeDecl)
  | .nil => []
  | .forward kind head _ _ rest =>
    (dotted (package :: (outer ++ [head.name.text])), head.entry kind []) :: rest.surface package outer
  | .member _ _ _ rest => rest.surface package outer
  | .type kind _ head _ inner _ rest =>
    inner.surface package (outer ++ [head.name.text]) ++
      (dotted (package :: (outer ++ [head.name.text])), head.entry kind (inner.members.map memberLine)) ::
        rest.surface package outer
  | .enum head _ values after rest =>
    (dotted (package :: (outer ++ [head.name.text])), head.entry .enum (enumLines values after)) :: rest.surface package outer

theorem Body.Regular.plain_members {l : Level} {b : Body l} (regular : b.Regular) :
    ∀ ts ∈ b.members, ∀ t ∈ ts, t.token.plain = true := by
  induction b with
  | nil => exact fun _ member => absurd member List.not_mem_nil
  | forward kind head plain gap rest ih => exact ih regular.2
  | member ts some gap rest ih => exact List.forall_mem_cons.mpr ⟨regular.1, ih regular.2⟩
  | type kind structured head before inner after rest ihInner ih => exact ih regular.2.2
  | enum head before values after rest ih => exact ih regular.2.2

/-- What is recorded for a regular body is its surface. -/
theorem Body.Records.surface {package : Text} {l : Level} {outer : List Text} {b : Body l} {records : List (Text × TypeDecl)}
    (recorded : Records package outer b records) (regular : b.Regular) : records = b.surface package outer := by
  induction recorded with
  | nil => rfl
  | forward shown _ ih => rw [Body.surface, ih regular.2]
  | forwardHidden hidden _ _ => exact absurd regular.1.1 hidden
  | member _ ih => exact ih regular.2
  | type shown _ recorded _ ihInner ih =>
    rw [Body.surface, ihInner regular.2.1, ih regular.2.2, recorded.complete_iff.mpr regular.2.1.plain_members]
    simp
  | typeHidden hidden _ _ => exact absurd regular.1.1 hidden
  | enum shown read _ ih => rw [Body.surface, ih regular.2.2, enumLines, read, okOr_ok]
  | enumHidden hidden _ _ => exact absurd regular.1.1 hidden

theorem keys_surface {l : Level} (package : Text) (outer : List Text) (b : Body l) :
    (b.surface package outer).map Prod.fst = (b.declares outer).map fun d => dotted (package :: d.1) := by
  induction b generalizing outer with
  | nil => rfl
  | forward kind head plain gap rest ih => rw [Body.surface, Body.declares, List.map_cons, List.map_cons, ih]
  | member ts some gap rest ih => exact ih outer
  | type kind structured head before inner after rest ihInner ih =>
    rw [Body.surface, Body.declares, List.map_append, List.map_append, List.map_cons, List.map_cons, ihInner, ih]
  | enum head before values after rest ih => rw [Body.surface, Body.declares, List.map_cons, List.map_cons, ih]

/-! ### Layouts -/

/-- The gaps that show in the members and enums of a body. -/
def Body.shownGaps {l : Level} : Body l → List (List Bool)
  | .nil => []
  | .forward _ _ _ _ rest => rest.shownGaps
  | .member tokens _ _ rest => Surface.shownGaps true tokens :: rest.shownGaps
  | .type _ _ _ _ inner _ rest => inner.shownGaps ++ rest.shownGaps
  | .enum _ _ values _ rest => Surface.shownGaps true values :: rest.shownGaps

/-- Headers of the same tokens. -/
structure Head.Alike (h h' : Head) : Prop where
  annotations : h.annotations.map AnnotationTerm.text = h'.annotations.map AnnotationTerm.text
  oneway : h.oneway.isSome = h'.oneway.isSome
  name : h.name.text = h'.name.text

/-- Bodies of the same tokens. -/
inductive Body.Alike : {l : Level} → Body l → Body l → Prop where
  | nil {l : Level} : Alike (.nil : Body l) .nil
  | forward {kind : Kind} {h h' : Head} {plain : h.oneway = none} {plain' : h'.oneway = none} {gap gap' : Gap}
      {rest rest' : Body .file} (heads : h.Alike h') (behind : Alike rest rest') :
      Alike (.forward kind h plain gap rest) (.forward kind h' plain' gap' rest')
  | member {ts us : List Spaced} {some : ts ≠ []} {some' : us ≠ []} {gap gap' : Gap} {rest rest' : Body .type}
      (tokens : SameTokens ts us) (behind : Alike rest rest') :
      Alike (.member ts some gap rest) (.member us some' gap' rest')
  | type {l : Level} {kind : Kind} {structured : kind ≠ .enum} {h h' : Head} {before before' after after' : Gap}
      {inner inner' : Body .type} {rest rest' : Body l} (heads : h.Alike h') (inside : Alike inner inner')
      (behind : Alike rest rest') :
      Alike (.type kind structured h before inner after rest) (.type kind structured h' before' inner' after' rest')
  | enum {l : Level} {h h' : Head} {before before' after after' : Gap} {values values' : List Spaced} {rest rest' : Body l}
      (heads : h.Alike h') (tokens : SameTokens values values') (behind : Alike rest rest') :
      Alike (.enum h before values after rest) (.enum h' before' values' after' rest')

theorem Head.Alike.symm {h h' : Head} (heads : h.Alike h') : h'.Alike h :=
  ⟨heads.annotations.symm, heads.oneway.symm, heads.name.symm⟩

theorem Body.Alike.symm {l : Level} {b b' : Body l} (alike : b.Alike b') : b'.Alike b := by
  induction alike with
  | nil => exact .nil
  | forward heads _ ih => exact .forward heads.symm ih
  | member tokens _ ih => exact .member tokens.symm ih
  | type heads _ _ ihInner ih => exact .type heads.symm ihInner ih
  | enum heads tokens _ ih => exact .enum heads.symm tokens.symm ih

/-- No gap of a header shows. -/
theorem Head.Alike.entry {h h' : Head} (heads : h.Alike h') (kind : Kind) (members : List Text) :
    h.entry kind members = h'.entry kind members := by
  have recorded : ∀ h : Head, h.annotations.map AnnotationTerm.recorded = (h.annotations.map AnnotationTerm.text).map dropSpaces :=
    fun h => by rw [List.map_map]; rfl
  rw [Head.entry, Head.entry, heads.oneway, recorded, recorded, heads.annotations]

theorem Head.Alike.entry_eq_iff {h h' : Head} (heads : h.Alike h') {kind : Kind} {members members' : List Text} :
    h.entry kind members = h'.entry kind members' ↔ members = members' := by
  rw [heads.entry, Head.entry, Head.entry, TypeDecl.mk.injEq]
  simp

section Alike
variable {l : Level} {b b' : Body l}

theorem Body.Alike.length_shownGaps (alike : b.Alike b') : b.shownGaps.length = b'.shownGaps.length := by
  induction alike with
  | nil => rfl
  | forward _ _ ih => exact ih
  | member _ _ ih => exact congrArg Nat.succ ih
  | type _ _ _ ihInner ih => rw [Body.shownGaps, Body.shownGaps, List.length_append, List.length_append, ihInner, ih]
  | enum _ _ _ ih => exact congrArg Nat.succ ih

theorem Body.Alike.keys_surface (alike : b.Alike b') (package : Text) (outer : List Text) :
    (b.surface package outer).map Prod.fst = (b'.surface package outer).map Prod.fst := by
  induction alike generalizing outer with
  | nil => rfl
  | forward heads _ ih => rw [Body.surface, Body.surface, List.map_cons, List.map_cons, heads.name, ih]
  | member _ _ ih => exact ih outer
  | type heads _ _ ihInner ih =>
    rw [Body.surface, Body.surface, List.map_append, List.map_append, List.map_cons, List.map_cons, heads.name, ihInner, ih]
  | enum heads _ _ ih => rw [Body.surface, Body.surface, List.map_cons, List.map_cons, heads.name, ih]

/-- Two layouts of a body are recorded alike exactly when the same gaps show. -/
theorem Body.Alike.surface_eq_iff (alike : b.Alike b') (regular : b.Regular) (regular' : b'.Regular)
    (apart : Apart b.tokens) (apart' : Apart b'.tokens) (package : Text) (outer : List Text) :
    (b.members.map memberLine = b'.members.map memberLine ∧ b.surface package outer = b'.surface package outer) ↔
      b.shownGaps = b'.shownGaps := by
  induction alike generalizing outer with
  | nil => exact ⟨fun _ => rfl, fun _ => ⟨rfl, rfl⟩⟩
  | forward heads _ ih =>
    have rest := ih regular.2 regular'.2 (apart.right_of_append).of_cons (apart'.right_of_append).of_cons outer
    rw [Body.members, Body.members, Body.surface, Body.surface, heads.name, heads.entry, List.cons.injEq, Body.shownGaps,
      Body.shownGaps, ← rest]
    simp
  | @member ts us some some' gap gap' rest rest' tokens _ ih =>
    have behind := ih regular.2 regular'.2 (apart.right_of_append).of_cons (apart'.right_of_append).of_cons outer
    have quoteless := (enclosed_of_plain regular.1).quoteless
    have line := memberLine_eq_iff tokens some apart.left_of_append apart'.left_of_append quoteless (tokens.quoteless quoteless)
    rw [Body.members, Body.members, Body.surface, Body.surface, List.map_cons, List.map_cons, Body.shownGaps, Body.shownGaps,
      List.cons.injEq, List.cons.injEq, line, and_assoc, behind]
  | @type l kind structured h h' before before' after after' inner inner' rest rest' heads inside behind ihInner ih =>
    rw [Body.tokens, List.append_assoc] at apart apart'
    have tail := apart.right_of_append.of_cons
    have tail' := apart'.right_of_append.of_cons
    have nested := ihInner regular.2.1 regular'.2.1 tail.left_of_append tail'.left_of_append (outer ++ [h.name.text])
    have later := ih regular.2.2 regular'.2.2 tail.right_of_append.of_cons tail'.right_of_append.of_cons outer
    have lengths : (inner.surface package (outer ++ [h.name.text])).length = (inner'.surface package (outer ++ [h.name.text])).length := by
      simpa using congrArg List.length (inside.keys_surface package (outer ++ [h.name.text]))
    rw [Body.members, Body.members, Body.surface, Body.surface, ← heads.name, Body.shownGaps, Body.shownGaps,
      List.append_eq_append_iff_of_size_eq_left lengths, List.append_eq_append_iff_of_size_eq_left inside.length_shownGaps,
      List.cons.injEq, Prod.mk.injEq, heads.entry_eq_iff, ← nested, ← later]
    constructor
    · rintro ⟨members, nested, ⟨-, lines⟩, later⟩
      exact ⟨⟨lines, nested⟩, members, later⟩
    · rintro ⟨⟨lines, nested⟩, members, later⟩
      exact ⟨members, nested, ⟨rfl, lines⟩, later⟩
  | @enum l h h' before before' after after' values values' rest rest' heads tokens behind ih =>
    rw [Body.tokens, List.append_assoc] at apart apart'
    have tail := apart.right_of_append.of_cons
    have tail' := apart'.right_of_append.of_cons
    have later := ih regular.2.2 regular'.2.2 tail.right_of_append.of_cons tail'.right_of_append.of_cons outer
    obtain ⟨⟨es, terms⟩, enclosed, converts⟩ := regular.2.1
    obtain ⟨-, -, converts'⟩ := regular'.2.1
    obtain ⟨lines, read⟩ : ∃ lines, parseEnumBody (blankSpell values ++ after.blanks) = .ok lines := parseEnumValues_ok converts
    obtain ⟨lines', read'⟩ : ∃ lines, parseEnumBody (blankSpell values' ++ after'.blanks) = .ok lines := parseEnumValues_ok converts'
    have same := terms.members_eq_iff tokens tail.left_of_append tail'.left_of_append enclosed.quoteless after.isBlank
      after'.isBlank read read'
    rw [Body.members, Body.members, Body.surface, Body.surface, ← heads.name, Body.shownGaps, Body.shownGaps, List.cons.injEq,
      List.cons.injEq, Prod.mk.injEq, heads.entry_eq_iff, enumLines, enumLines, read, read', okOr_ok, okOr_ok, same, ← later]
    constructor
    · rintro ⟨members, ⟨-, lines⟩, later⟩
      exact ⟨lines, members, later⟩
    · rintro ⟨lines, members, later⟩
      exact ⟨members, ⟨rfl, lines⟩, later⟩

end Alike

/-! ### Sources -/

/-- A file has no members of its own. -/
theorem Body.members_file : ∀ b : Body .file, b.members = []
  | .nil => rfl
  | .forward _ _ _ _ rest => rest.members_file
  | .type _ _ _ _ _ _ rest => rest.members_file
  | .enum _ _ _ _ rest => rest.members_file

/-- The source can be read as it was meant. -/
structure Source.Regular (s : Source) : Prop where
  body : s.body.Regular
  tight : s.Tight

/-- A source with a regular body is read as its surface, under its package name when that is tight. -/
theorem Source.declared_body {s : Source} (regular : s.body.Regular) :
    ∃ package, (s.Tight → package = s.packageName) ∧ (¬s.Tight → package = []) ∧
      declared s.text = .ok (s.body.surface package []) := by
  obtain ⟨legible, closed⟩ := regular.legible
  obtain ⟨package, records, tight, spaced, read, recorded⟩ := s.declared_records legible closed
  exact ⟨package, tight, spaced, by rw [read, recorded.surface regular]⟩

theorem Source.declared_regular {s : Source} (regular : s.Regular) :
    declared s.text = .ok (s.body.surface s.packageName []) := by
  obtain ⟨package, tight, -, read⟩ := Source.declared_body regular.body
  rwa [tight regular.tight] at read

theorem dotted_cons {package : Text} (some : package ≠ []) (names : List Text) :
    dotted (package :: names) = dotted [package, dotted ([] :: names)] := by
  have named : package.isEmpty = false := by simpa using some
  cases found : names.filter fun p => !p.isEmpty with
  | nil => simp [dotted, named, found]
  | cons n ns =>
    have first : n ≠ [] := by
      have member : n ∈ names.filter fun p => !p.isEmpty := found ▸ List.mem_cons_self
      simpa using (List.mem_filter.mp member).2
    have joined : (['.'].intercalate (n :: ns)).isEmpty = false := by
      cases ns with
      | nil => simpa using first
      | cons m ns => simp [List.intercalate_cons_of_ne_nil, first]
    simp [dotted, named, found, joined]

/-- The types are recorded under names of their own, also without the package. -/
theorem Source.nodup_surface (s : Source) : ((s.body.surface s.packageName []).map Prod.fst).Nodup ∧
    ((s.body.surface [] []).map Prod.fst).Nodup := by
  have distinct := s.distinct
  rw [File.declares, List.map_map] at distinct
  rw [Surface.keys_surface, Surface.keys_surface]
  refine ⟨distinct, ?_⟩
  by_cases none : s.packageName = []
  · rwa [none] at distinct
  · refine List.Nodup.of_map (fun name => dotted [s.packageName, name]) ?_
    rw [List.map_map]
    refine (List.map_congr_left fun d _ => ?_) ▸ distinct
    exact dotted_cons none d.1

theorem Source.apart_body (s : Source) : Apart s.body.tokens := by
  have apart := s.apart
  rw [s.tokens_eq] at apart
  exact apart.right_of_append

theorem Source.surface_eq_nil_iff (s : Source) (package : Text) : s.body.surface package [] = [] ↔ s.declares = [] := by
  rw [File.declares, List.map_eq_nil_iff, ← List.map_eq_nil_iff (f := Prod.fst), Surface.keys_surface, List.map_eq_nil_iff]

/-- The same gaps show in the two sources: in the members and enums, and in the package name if it is recorded. -/
def Source.ShownAlike (s s' : Source) : Prop :=
  (s.declares ≠ [] → (s.Tight ↔ s'.Tight)) ∧ s.body.shownGaps = s'.body.shownGaps

section Alike
variable {s s' : Source} (regular : s.body.Regular) (regular' : s'.body.Regular) (package : s.packageName = s'.packageName)
  (alike : s.body.Alike s'.body)
include regular regular' package alike

theorem Source.declared_alike (tight : s.declares ≠ [] → (s.Tight ↔ s'.Tight)) : ∃ p, (p = s.packageName ∨ p = []) ∧
    declared s.text = .ok (s.body.surface p []) ∧ declared s'.text = .ok (s'.body.surface p []) := by
  obtain ⟨p, named, unnamed, read⟩ := Source.declared_body regular
  obtain ⟨p', named', unnamed', read'⟩ := Source.declared_body regular'
  have which : p = s.packageName ∨ p = [] := (em s.Tight).imp named unnamed
  refine ⟨p, which, read, ?_⟩
  by_cases none : s.declares = []
  · have nothing : ∀ q, s'.body.surface q [] = [] := fun q => by
      have keys := alike.keys_surface q []
      rw [(s.surface_eq_nil_iff q).mpr none] at keys
      exact List.map_eq_nil_iff.mp keys.symm
    rw [read', nothing, nothing]
  · have same : p = p' := by
      by_cases tight' : s.Tight
      · rw [named tight', named' ((tight none).mp tight'), package]
      · rw [unnamed tight', unnamed' fun other => tight' ((tight none).mpr other)]
    rw [read', same]

/-- Where the same is recorded for the two, a package that is named without gaps in one is so named in the other. -/
theorem Source.tight_of_parse (some : s.declares ≠ []) (same : parseAidl s.text Dict.empty = parseAidl s'.text Dict.empty)
    (tight : s'.Tight) : s.Tight := by
  by_contra spaced
  obtain ⟨p, -, unnamed, read⟩ := Source.declared_body regular
  obtain ⟨p', named, -, read'⟩ := Source.declared_body regular'
  obtain rfl := unnamed spaced
  obtain rfl := named tight
  rw [parseAidl, parseAidl, read, read'] at same
  have keys : (Dict.ofPairs (s.body.surface [] [])).keys = (Dict.ofPairs (s'.body.surface s'.packageName [])).keys :=
    congrArg Dict.keys (Except.ok.inj same)
  refine spaced (tight_of_keys some fun d member => ?_)
  have key : dotted (s.packageName :: d.1) ∈ (Dict.ofPairs (s.body.surface [] [])).keys := by
    rw [keys, Dict.mem_keys_ofPairs, ← alike.keys_surface, Surface.keys_surface, ← package]
    exact List.mem_map_of_mem (f := fun d : List Text × Declaration => dotted (s.packageName :: d.1)) member
  rw [Dict.mem_keys_ofPairs, Surface.keys_surface] at key
  obtain ⟨e, among, same⟩ := List.mem_map.mp key
  exact ⟨e, among, same.symm⟩

/-- What is read of two sources of the same tokens is the same where the same gaps show. -/
theorem Source.declared_eq (shown : s.ShownAlike s') : declared s.text = declared s'.text := by
  obtain ⟨p, -, read, read'⟩ := Source.declared_alike regular regular' package alike shown.1
  have both := (alike.surface_eq_iff regular regular' s.apart_body s'.apart_body p []).mpr shown.2
  rw [read, read', both.2]

/-- Sources that differ in their imports and in what stands between their tokens are recorded alike exactly when the same
    gaps show. -/
theorem Source.parse_eq_iff : parseAidl s.text Dict.empty = parseAidl s'.text Dict.empty ↔ s.ShownAlike s' := by
  constructor
  · intro same
    have tight : s.declares ≠ [] → (s.Tight ↔ s'.Tight) := by
      intro some
      have some' : s'.declares ≠ [] := fun none => some <| (s.surface_eq_nil_iff []).mp <| List.map_eq_nil_iff.mp <| by
        rw [alike.keys_surface, (s'.surface_eq_nil_iff []).mpr none, List.map_nil]
      exact ⟨Source.tight_of_parse regular' regular package.symm alike.symm some' same.symm,
        Source.tight_of_parse regular regular' package alike some same⟩
    obtain ⟨p, which, read, read'⟩ := Source.declared_alike regular regular' package alike tight
    have once : ((s.body.surface p []).map Prod.fst).Nodup := by
      rcases which with rfl | rfl
      · exact s.nodup_surface.1
      · exact s.nodup_surface.2
    rw [parseAidl, parseAidl, read, read'] at same
    have surfaces := (Dict.ofPairs_inj (alike.keys_surface p []) once).mp (Except.ok.inj same)
    refine ⟨tight, (alike.surface_eq_iff regular regular' s.apart_body s'.apart_body p []).mp ⟨?_, surfaces⟩⟩
    rw [Body.members_file, Body.members_file]
  · intro shown
    rw [parseAidl, parseAidl, Source.declared_eq regular regular' package alike shown]

end Alike

end BinderIdl.Surface
