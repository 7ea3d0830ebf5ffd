import BinderIdl.Theorems.Headers
import BinderIdl.Theorems.RoundTrip
import BinderIdl.Py.Outcome

/-! Bodies in any layout: the statements that a body is split into, and the types that are recorded for it. -/

namespace BinderIdl.Surface
open Py

/-! ### Which bodies can be read -/

/-- The tokens of a member, cut at each char literal of a semicolon. -/
inductive Pieces : List Spaced → Prop where
  | last {ts last : List Spaced} (harmless : Harmless ts last) : Pieces ts
  | semicolon {ts last us : List Spaced} {gap : Gap} (harmless : Harmless ts last) (rest : Pieces us) :
      Pieces (ts ++ ⟨gap, .char ';' (by decide)⟩ :: us)

/-- `int(expr, 0)` takes every value that `_INT_RE` matches. -/
def Converts (body : Text) : Prop :=
  ∀ v ∈ body.splitOn ',', '=' ∈ strip v → isIntLiteral (strip (partition '=' (strip v)).2) = true →
    ∃ k, parseInt (strip (partition '=' (strip v)).2) = .ok k

/-- The braces in headers and members are balanced and open no type, and the literals of the enums can be converted. -/
def Body.Legible {l : Level} : Body l → Prop
  | .nil => True
  | .forward _ head _ _ rest => head.Balanced ∧ rest.Legible
  | .member tokens _ _ rest => Pieces tokens ∧ rest.Legible
  | .type _ _ head _ inner _ rest => head.Balanced ∧ inner.Legible ∧ rest.Legible
  | .enum head _ values after rest =>
    head.Balanced ∧ (Enclosed values ∧ Converts (blankSpell values ++ after.blanks)) ∧ rest.Legible

theorem Harmless.enclosed {ts last : List Spaced} (harmless : Harmless ts last) : Enclosed ts := by
  induction harmless with
  | run plain => exact enclosed_of_plain plain
  | @braces run inner rest last before after plain _ enclosed _ ih =>
    have whole := (enclosed_of_plain plain).append (@Enclosed.braces before after _ _ enclosed ih)
    simpa using whole

theorem Pieces.enclosed {ts : List Spaced} (pieces : Pieces ts) : Enclosed ts := by
  induction pieces with
  | last harmless => exact harmless.enclosed
  | semicolon harmless _ ih => exact harmless.enclosed.append (.token rfl ih)

theorem Body.Legible.enclosed {l : Level} {b : Body l} (legible : b.Legible) : Enclosed b.tokens := by
  induction b with
  | nil => exact .nil
  | forward kind head plain gap rest ih => exact (legible.1.enclosed kind).append (.token rfl (ih legible.2))
  | member ts some gap rest ih => exact legible.1.enclosed.append (.token rfl (ih legible.2))
  | type kind structured head before inner after rest ihInner ih =>
    rw [Body.tokens, List.append_assoc]
    exact (legible.1.enclosed kind).append (.braces (ihInner legible.2.1) (ih legible.2.2))
  | enum head before values after rest ih =>
    rw [Body.tokens, List.append_assoc]
    exact (legible.1.enclosed .enum).append (.braces legible.2.1.1 (ih legible.2.2))

/-- The text of a body as the parser gets it. -/
def Body.blankText {l : Level} (b : Body l) : Text := blankSpell b.tokens

theorem blankText_member (ts : List Spaced) (some : ts ≠ []) (gap : Gap) (rest : Body .type) :
    (Body.member ts some gap rest).blankText = blankSpell ts ++ gap.blanks ++ ';' :: rest.blankText := by
  simp [Body.blankText, Body.tokens, blankSpell_append, Token.spell, Symbol.semicolon]

theorem blankText_forward (kind : Kind) (head : Head) (plain : head.oneway = none) (gap : Gap) (rest : Body .file) :
    (Body.forward kind head plain gap rest).blankText = head.text kind gap ++ ';' :: rest.blankText := by
  simp [Body.blankText, Body.tokens, blankSpell_append, Head.text, Token.spell, Symbol.semicolon]

theorem blankText_type {l : Level} (kind : Kind) (structured : kind ≠ .enum) (head : Head) (before : Gap)
    (inner : Body .type) (after : Gap) (rest : Body l) :
    (Body.type kind structured head before inner after rest).blankText =
      head.text kind before ++ '\x7b' :: (inner.blankText ++ after.blanks ++ '\x7d' :: rest.blankText) := by
  simp [Body.blankText, Body.tokens, blankSpell_append, Head.text, Token.spell, Symbol.openBrace, Symbol.closeBrace]

theorem blankText_enum {l : Level} (head : Head) (before : Gap) (values : List Spaced) (after : Gap) (rest : Body l) :
    (Body.enum head before values after rest).blankText =
      head.text .enum before ++ '\x7b' :: (blankSpell values ++ after.blanks ++ '\x7d' :: rest.blankText) := by
  simp [Body.blankText, Body.tokens, blankSpell_append, Head.text, Token.spell, Symbol.openBrace, Symbol.closeBrace]

theorem strip_blankSpell_ne_nil {ts : List Spaced} (some : ts ≠ []) (gap : Gap) : strip (blankSpell ts ++ gap.blanks) ≠ [] := by
  obtain ⟨t, ts, rfl⟩ := List.exists_cons_of_ne_nil some
  obtain ⟨c, u, head, -⟩ := t.token.spell_head
  rw [strip_blankSpell (firm_blankSpell some) gap.isBlank, head]
  exact List.cons_ne_nil _ _

theorem flushStmt_tokens {ts : List Spaced} (some : ts ≠ []) (gap : Gap) :
    flushStmt (blankSpell ts ++ gap.blanks) = [.stmt (strip (blankSpell ts ++ gap.blanks))] := by
  rw [flushStmt, if_neg (strip_blankSpell_ne_nil some gap)]

theorem Head.tokens_ne_nil (h : Head) (kind : Kind) : h.tokens kind ≠ [] := by
  rw [Head.tokens]
  exact List.append_ne_nil_of_right_ne_nil _ (List.cons_ne_nil _ _)

/-! ### Members -/

/-- The text of a declaration from its first token on. -/
def memberText : List Spaced → Text
  | [] => []
  | t :: ts => t.token.spell ++ spell ts

/-- A member as it should be recorded. -/
def memberLine (ts : List Spaced) : Text := normalize (stripComments (memberText ts))

def weight (ms : List Text) : ℕ := (ms.map fun m => (dropSpaces m).length).sum

theorem weight_append (ms ns : List Text) : weight (ms ++ ns) = weight ms + weight ns := by
  rw [weight, List.map_append, List.sum_append]
  rfl

theorem weight_map_normalize (ms : List Text) : weight (ms.map normalize) = weight ms := by
  rw [weight, List.map_map]
  exact congrArg List.sum (List.map_congr_left fun m _ => congrArg List.length (dropSpaces_normalize m))

/-- What is recorded of the members of a body: a member whose tokens are plain, and less than its text of another. -/
inductive MembersRecorded : List (List Spaced) → List Text → Prop where
  | nil : MembersRecorded [] []
  | kept {ts : List Spaced} {tss : List (List Spaced)} {ms : List Text} (plain : ∀ t ∈ ts, t.token.plain = true)
      (rest : MembersRecorded tss ms) : MembersRecorded (ts :: tss) (memberLine ts :: ms)
  | broken {ts : List Spaced} {ms : List Text} {tss : List (List Spaced)} {ns : List Text}
      (broken : ¬∀ t ∈ ts, t.token.plain = true) (less : weight ms < weight [memberLine ts])
      (rest : MembersRecorded tss ns) : MembersRecorded (ts :: tss) (ms ++ ns)

theorem MembersRecorded.weight_le {tss : List (List Spaced)} {ms : List Text} (recorded : MembersRecorded tss ms) :
    weight ms ≤ weight (tss.map memberLine) ∧
      (weight ms = weight (tss.map memberLine) → ∀ ts ∈ tss, ∀ t ∈ ts, t.token.plain = true) := by
  induction recorded with
  | nil => exact ⟨Nat.le_refl _, fun _ _ member => absurd member List.not_mem_nil⟩
  | @kept ts tss ms plain _ ih =>
    have head := weight_append [memberLine ts]
    rw [List.map_cons, List.forall_mem_cons, ← List.singleton_append, head, ← List.singleton_append, head]
    exact ⟨Nat.add_le_add_left ih.1 _, fun same => ⟨plain, ih.2 (Nat.add_left_cancel same)⟩⟩
  | @broken ts ms tss ns _ less _ ih =>
    rw [List.map_cons, ← List.singleton_append, weight_append, weight_append]
    exact ⟨by omega, fun same => by omega⟩

/-- The members are recorded as they should be exactly when all their tokens are plain. -/
theorem MembersRecorded.complete_iff {tss : List (List Spaced)} {ms : List Text} (recorded : MembersRecorded tss ms) :
    ms = tss.map memberLine ↔ ∀ ts ∈ tss, ∀ t ∈ ts, t.token.plain = true := by
  constructor
  · intro same
    exact recorded.weight_le.2 (congrArg weight same)
  · intro plain
    induction recorded with
    | nil => rfl
    | kept _ _ ih => rw [List.map_cons, ih fun ts member => plain ts (List.mem_cons_of_mem _ member)]
    | broken broken _ _ _ => exact absurd (plain _ List.mem_cons_self) broken

/-- A member without its comments. -/
theorem stripComments_memberText {t : Spaced} {ts : List Spaced} (apart : Apart (t :: ts)) (quoteless : Quoteless (t :: ts)) :
    stripComments (memberText (t :: ts)) = t.token.spell ++ blankSpell ts := by
  have first : Apart (⟨[], t.token⟩ :: ts) := by
    cases ts with
    | nil => exact List.isChain_singleton _
    | cons u ts => exact List.isChain_cons_cons.mpr ⟨(List.isChain_cons_cons.mp apart).1, apart.of_cons⟩
  have all : Quoteless (⟨[], t.token⟩ :: ts) := by
    intro u member
    rcases List.mem_cons.mp member with rfl | among
    · exact quoteless t List.mem_cons_self
    · exact quoteless u (List.mem_cons_of_mem _ among)
  have text := stripComments_spell first all fun u _ => u.token.ends_nil
  rw [List.append_nil, stripComments, List.append_nil] at text
  exact text

/-- A statement is normalised from its first token on. -/
theorem memberLine_eq {ts : List Spaced} (some : ts ≠ []) (apart : Apart ts) (quoteless : Quoteless ts) (gap : Gap) :
    normalize (strip (blankSpell ts ++ gap.blanks)) = memberLine ts := by
  obtain ⟨t, ts, rfl⟩ := List.exists_cons_of_ne_nil some
  rw [strip_blankSpell (firm_blankSpell some) gap.isBlank, memberLine, stripComments_memberText apart quoteless]

theorem dropSpaces_memberLine {ts : List Spaced} (some : ts ≠ []) (apart : Apart ts) (quoteless : Quoteless ts) :
    dropSpaces (memberLine ts) = dropSpaces (blankSpell ts) := by
  rw [← memberLine_eq some apart quoteless [], dropSpaces_normalize, dropSpaces_strip]
  exact congrArg dropSpaces (List.append_nil _)

/-- A statement, or braces that open no type. -/
def Item.OfMember : Item → Prop
  | .decl header _ => NoHeader '\x7b' header
  | .stmt _ => True

theorem NoHeader.parseType {header : Text} (none : NoHeader '\x7b' header) (package body outer : Text) :
    parseType package header body outer = .ok [] := by
  have unread : declMatch ((takeAnnotations header).2 ++ " \x7b".toList) = .none := none
  rw [Surface.parseType]
  simp only [unread]

theorem parseItems_append {items : List Item} (all : ∀ i ∈ items, i.OfMember) {package outer : Text} {rest : List Item}
    {members : List Text} {nested : List (Text × TypeDecl)} (parsed : parseItems package outer rest = .ok (members, nested)) :
    parseItems package outer (items ++ rest) = .ok ((stmtTexts items).map normalize ++ members, nested) := by
  induction items with
  | nil => exact parsed
  | cons i items ih =>
    have behind := ih fun j member => all j (List.mem_cons_of_mem _ member)
    cases i with
    | stmt text =>
      rw [List.cons_append, parseItems, behind]
      rfl
    | decl header body =>
      have header : NoHeader '\x7b' header := all _ List.mem_cons_self
      rw [List.cons_append, parseItems, header.parseType, behind]
      rfl

theorem weight_flushStmt (buf : Text) : weight (stmtTexts (flushStmt buf)) ≤ (dropSpaces buf).length := by
  rw [flushStmt]
  split
  · exact Nat.zero_le _
  · show (dropSpaces (strip buf)).length + 0 ≤ _
    rw [dropSpaces_strip, Nat.add_zero]

theorem stmtTexts_append (xs ys : List Item) : stmtTexts (xs ++ ys) = stmtTexts xs ++ stmtTexts ys :=
  List.filterMap_append

theorem stmtTexts_skipped {items : List Item} (skips : ∀ i ∈ items, i.Skipped) : stmtTexts items = [] := by
  refine List.filterMap_eq_nil_iff.mpr fun i member => ?_
  cases i with
  | stmt text => exact (skips _ member).elim
  | decl header body => rfl

theorem ofMember_skipped {i : Item} (skipped : i.Skipped) : i.OfMember := by
  cases i with
  | stmt text => trivial
  | decl header body => exact skipped

theorem ofMember_flushStmt (buf : Text) : ∀ i ∈ flushStmt buf, i.OfMember := by
  rw [flushStmt]
  split
  · exact fun _ member => absurd member List.not_mem_nil
  · intro i member
    rw [List.mem_singleton.mp member]
    trivial

/-- What the scanner makes of a member behind what it holds. -/
structure Splits (buf : Text) (ts : List Spaced) (gap : Gap) (items : List Item) : Prop where
  ofMember : ∀ i ∈ items, i.OfMember
  split : ∀ r, splitFrom buf (blankSpell ts ++ gap.blanks ++ ';' :: r) = items ++ splitFrom [] r
  plain : (∀ t ∈ ts, t.token.plain = true) → items = flushStmt (buf ++ (blankSpell ts ++ gap.blanks))
  le : weight (stmtTexts items) ≤ (dropSpaces buf).length + extent ts
  less : ¬(∀ t ∈ ts, t.token.plain = true) → weight (stmtTexts items) < (dropSpaces buf).length + extent ts

theorem Harmless.splits {ts last : List Spaced} (harmless : Harmless ts last) {buf : Text} (lead : Lead buf) {g : Text}
    (plain : ∀ c ∈ g, isStructural c = false) : ∃ items : List Item, (∀ i ∈ items, i.OfMember) ∧
      (∀ r, splitFrom buf (blankSpell ts ++ (g ++ ';' :: r)) = items ++ splitFrom [] r) ∧
      ((∀ t ∈ ts, t.token.plain = true) → items = flushStmt (buf ++ (blankSpell ts ++ g))) ∧
      weight (stmtTexts items) ≤ (dropSpaces buf).length + extent last + (dropSpaces g).length := by
  obtain ⟨skipped, buf', skips, -, same, whole, split⟩ := harmless.split lead
  refine ⟨skipped ++ flushStmt (buf' ++ (blankSpell last ++ g)), fun i member => ?_, fun r => ?_, fun all => ?_, ?_⟩
  · rcases List.mem_append.mp member with among | among
    · exact ofMember_skipped (skips i among)
    · exact ofMember_flushStmt _ i among
  · have carried := (carried_blankSpell harmless.last_plain).1.append (carried_of_plain plain)
    rw [split, ← List.append_assoc (blankSpell last), carried, splitFrom, List.append_assoc]
  · obtain ⟨rfl, rfl⟩ := whole all
    obtain ⟨-, rfl⟩ | ⟨broken, -⟩ := harmless.extent_last
    · rfl
    · exact absurd all broken
  · have flushed := weight_flushStmt (buf' ++ (blankSpell last ++ g))
    rw [dropSpaces_append, dropSpaces_append, List.length_append, List.length_append] at flushed
    have behind : (dropSpaces buf').length ≤ (dropSpaces buf).length := by
      rcases same with rfl | rfl
      · exact Nat.le_refl _
      · exact Nat.zero_le _
    rw [stmtTexts_append, stmtTexts_skipped skips, List.nil_append, extent]
    omega

theorem Harmless.extent_le {ts last : List Spaced} (harmless : Harmless ts last) : extent last ≤ extent ts := by
  rcases harmless.extent_last with ⟨-, rfl⟩ | ⟨-, less⟩
  · exact Nat.le_refl _
  · exact less.le

theorem Pieces.splits {ts : List Spaced} (pieces : Pieces ts) {buf : Text} (lead : Lead buf) (gap : Gap) :
    ∃ items, Splits buf ts gap items := by
  induction pieces generalizing buf with
  | @last ts last harmless =>
    obtain ⟨items, ofMember, split, plain, le⟩ := harmless.splits lead gap.plain
    rw [dropSpaces_of_blank gap.isBlank] at le
    refine ⟨items, ofMember, fun r => by rw [List.append_assoc, split], plain, ?_, fun broken => ?_⟩
    · exact le.trans (Nat.add_le_add_left harmless.extent_le _)
    · rcases harmless.extent_last with ⟨all, -⟩ | ⟨-, less⟩
      · exact absurd all broken
      · exact le.trans_lt (Nat.add_lt_add_left less _)
  | @semicolon ts last us g harmless _ ih =>
    have quote : isStructural '\'' = false := by decide
    have plainGap : ∀ c ∈ g.blanks ++ ['\''], isStructural c = false := fun c member => by
      rcases List.mem_append.mp member with blank | same
      · exact g.plain c blank
      · exact List.mem_singleton.mp same ▸ quote
    obtain ⟨items, ofMember, split, -, le⟩ := harmless.splits lead plainGap
    obtain ⟨items', splits'⟩ := ih (show Lead ['\''] from .inr rfl)
    have cut : extent [⟨g, .char ';' (by decide)⟩] = 3 := by
      simp only [extent, blankSpell_cons, dropSpaces_append, dropSpaces_of_blank g.isBlank]
      rfl
    have whole : extent (ts ++ ⟨g, .char ';' (by decide)⟩ :: us) = extent ts + (3 + extent us) := by
      rw [← List.singleton_append, extent_append, extent_append, cut]
    have le' : weight (stmtTexts items') ≤ 1 + extent us := splits'.le
    have lengths : (dropSpaces (g.blanks ++ ['\''])).length = 1 := by
      rw [dropSpaces_append, dropSpaces_of_blank g.isBlank]
      rfl
    have less : weight (stmtTexts (items ++ items')) < (dropSpaces buf).length + (extent ts + (3 + extent us)) := by
      have last := harmless.extent_le
      rw [stmtTexts_append, weight_append]
      omega
    refine ⟨items ++ items', fun i member => ?_, fun r => ?_, fun all => ?_, ?_, fun _ => ?_⟩
    · exact (List.mem_append.mp member).elim (ofMember i) (splits'.ofMember i)
    · have text : blankSpell (ts ++ ⟨g, .char ';' (by decide)⟩ :: us) ++ gap.blanks ++ ';' :: r =
          blankSpell ts ++ (g.blanks ++ ['\''] ++ ';' :: (['\''] ++ (blankSpell us ++ gap.blanks ++ ';' :: r))) := by
        simp [blankSpell_append, Token.spell]
      rw [text, split, carried_char quote, List.nil_append, splits'.split, List.append_assoc]
    · have char := all ⟨g, .char ';' (by decide)⟩ (by simp)
      cases char
    · rw [whole]
      exact less.le
    · rw [whole]
      exact less

/-- What is recorded of a member, before what is recorded of the rest. -/
theorem Pieces.parse {ts : List Spaced} (some : ts ≠ []) (pieces : Pieces ts) (apart : Apart ts) (gap : Gap)
    {package outer : Text} {tss : List (List Spaced)} {members : List Text} {nested : List (Text × TypeDecl)} {r : Text}
    (parsed : parseItems package outer (splitFrom [] r) = .ok (members, nested)) (recorded : MembersRecorded tss members)
    {buf : Text} (blank : ∀ c ∈ buf, isSpace c = true) :
    ∃ members', parseItems package outer (splitFrom buf (blankSpell ts ++ gap.blanks ++ ';' :: r)) = .ok (members', nested) ∧
      MembersRecorded (ts :: tss) members' := by
  obtain ⟨items, splits⟩ := pieces.splits (.inl blank) gap
  have line := parseItems_append splits.ofMember parsed
  rw [splits.split]
  refine ⟨_, line, ?_⟩
  by_cases plain : ∀ t ∈ ts, t.token.plain = true
  · rw [splits.plain plain, flushStmt_blank_append blank, flushStmt_tokens some]
    show MembersRecorded _ (normalize (strip (blankSpell ts ++ gap.blanks)) :: members)
    rw [memberLine_eq some apart pieces.enclosed.quoteless]
    exact .kept plain recorded
  · have less := splits.less plain
    rw [dropSpaces_of_blank blank, List.length_nil, Nat.zero_add] at less
    refine .broken plain ?_ recorded
    have expected : weight [memberLine ts] = extent ts := by
      show (dropSpaces (memberLine ts)).length + 0 = _
      rw [dropSpaces_memberLine some apart pieces.enclosed.quoteless]
      rfl
    rw [weight_map_normalize, expected]
    exact less

/-! ### Types -/

/-- The header has no type parameters and no braces in its annotations. -/
def Head.Plain (h : Head) : Prop := h.parameters = none ∧ ∀ a ∈ h.annotations, a.Plain

instance (h : Head) : Decidable h.Plain := inferInstanceAs (Decidable (_ ∧ _))

/-- The types of a body that are declared with such a header, and so are all types around them. -/
def Body.readable {l : Level} (outer : List Text) : Body l → List (List Text × Declaration)
  | .nil => []
  | .forward kind head _ _ rest =>
    (if head.Plain then [(outer ++ [head.name.text], ⟨kind, head, none⟩)] else []) ++ rest.readable outer
  | .member _ _ _ rest => rest.readable outer
  | .type kind _ head _ inner _ rest =>
    (if head.Plain then
      inner.readable (outer ++ [head.name.text]) ++ [(outer ++ [head.name.text], ⟨kind, head, some inner⟩)]
    else []) ++ rest.readable outer
  | .enum head _ _ _ rest =>
    (if head.Plain then [(outer ++ [head.name.text], ⟨.enum, head, none⟩)] else []) ++ rest.readable outer

/-- What is recorded for a type: its kind, whether it is `oneway`, its annotations and its members. -/
structure Declaration.RecordedAs (d : Declaration) (v : TypeDecl) : Prop where
  kind : v.kind = d.kind
  oneway : v.oneway = d.head.oneway.isSome
  annotations : v.annotations = sorted (d.head.annotations.map AnnotationTerm.recorded)
  members : ∀ b, d.body = some b → MembersRecorded b.members v.members

theorem intercalate_append {a b : List Text} (left : a ≠ []) (right : b ≠ []) :
    ['.'].intercalate (a ++ b) = ['.'].intercalate a ++ '.' :: ['.'].intercalate b := by
  induction a with
  | nil => exact absurd rfl left
  | cons x a ih =>
    by_cases last : a = []
    · subst last
      rw [List.singleton_append, List.intercalate_cons_of_ne_nil right, List.intercalate_singleton, List.append_assoc,
        List.singleton_append]
    · rw [List.cons_append, List.intercalate_cons_of_ne_nil (List.append_ne_nil_of_left_ne_nil last _), ih last,
        List.intercalate_cons_of_ne_nil last]
      simp only [List.append_assoc]

theorem intercalate_intercalate (a c : List Text) {b : List Text} (some : b ≠ []) :
    ['.'].intercalate (a ++ ['.'].intercalate b :: c) = ['.'].intercalate (a ++ (b ++ c)) := by
  have behind : ['.'].intercalate (['.'].intercalate b :: c) = ['.'].intercalate (b ++ c) := by
    by_cases last : c = []
    · subst last
      rw [List.intercalate_singleton, List.append_nil]
    · rw [List.intercalate_cons_of_ne_nil last, intercalate_append some last, List.append_assoc, List.singleton_append]
  by_cases first : a = []
  · subst first
    exact behind
  · rw [intercalate_append first (List.cons_ne_nil _ _), behind,
      intercalate_append first (List.append_ne_nil_of_left_ne_nil some _)]

/-- Names that are joined first are joined with the others. -/
theorem dotted_dotted (xs ys zs : List Text) : dotted (xs ++ dotted ys :: zs) = dotted (xs ++ (ys ++ zs)) := by
  by_cases none : ∀ y ∈ ys, y = []
  · have empty : ys.filter (fun p => !p.isEmpty) = [] := List.filter_eq_nil_iff.mpr fun y member => by simp [none y member]
    have nothing : dotted ys = [] := by rw [dotted, empty, List.intercalate_nil]
    rw [nothing]
    simp [dotted, List.filter_append, empty]
  · push Not at none
    obtain ⟨y, member, name⟩ := none
    have some : ys.filter (fun p => !p.isEmpty) ≠ [] :=
      List.ne_nil_of_mem (List.mem_filter.mpr ⟨member, by simpa using name⟩)
    have joined : (dotted ys).isEmpty = false := by simpa using dotted_ne_nil member name
    rw [dotted, List.filter_append, List.filter_cons, joined]
    simp only [Bool.not_false, if_true]
    rw [dotted, intercalate_intercalate _ _ some, dotted, List.filter_append, List.filter_append]

/-- The entry of a type with these members. -/
def Head.entry (h : Head) (kind : Kind) (members : List Text) : TypeDecl :=
  ⟨kind, h.oneway.isSome, sorted (h.annotations.map AnnotationTerm.recorded), members⟩

section Heads
variable {h : Head} {kind : Kind} {package outer body : Text}

theorem Head.Closed.parseType_structured (closed : h.Closed) (named : h.parameters = none) (structured : kind ≠ .enum)
    (apart : Apart (h.tokens kind)) (gap : Gap) {members : List Text} {nested : List (Text × TypeDecl)}
    (items : parseItems package (dotted [outer, h.name.text]) (splitStatements body) = .ok (members, nested)) :
    parseType package (strip (h.text kind gap)) body outer =
      .ok (nested ++ [(dotted [package, outer, h.name.text], h.entry kind members)]) := by
  obtain ⟨rest, taken, read, -⟩ := h.read_tokens closed kind apart gap.isBlank (.inl rfl)
  have read' : declMatch (rest ++ " \x7b".toList) = some (h.read kind) := read named
  rw [parseType, Head.text, taken]
  simp only [read', Head.read, if_neg structured, items]
  rfl

theorem Head.Closed.parseType_enum (closed : h.Closed) (named : h.parameters = none) (apart : Apart (h.tokens .enum))
    (gap : Gap) {members : List Text} (values : parseEnumBody body = .ok members) :
    parseType package (strip (h.text .enum gap)) body outer =
      .ok [(dotted [package, outer, h.name.text], h.entry .enum members)] := by
  obtain ⟨rest, taken, read, -⟩ := h.read_tokens closed .enum apart gap.isBlank (.inl rfl)
  have read' : declMatch (rest ++ " \x7b".toList) = some (h.read .enum) := read named
  rw [parseType, Head.text, taken]
  simp only [read', Head.read, if_true, values]
  rfl

theorem Head.Closed.parseTop_forward (closed : h.Closed) (named : h.parameters = none) (plain : h.oneway = none)
    (apart : Apart (h.tokens kind)) (gap : Gap) : parseTop package (.stmt (strip (h.text kind gap))) =
      .ok [(dotted [package, h.name.text], h.entry kind [])] := by
  obtain ⟨rest, taken, read, -⟩ := h.read_tokens closed kind apart gap.isBlank (.inr rfl)
  have read' : declMatch (rest ++ " ;".toList) = some (h.read kind) := read named
  rw [parseTop, Head.text, taken]
  simp only [read', Head.read, Head.entry, plain]
  rfl

/-- Type parameters hide a header. -/
theorem Head.Closed.noHeader (closed : h.Closed) (some : h.parameters ≠ none) (apart : Apart (h.tokens kind)) (gap : Gap)
    {term : Char} (ends : term = '\x7b' ∨ term = ';') : NoHeader term (strip (h.text kind gap)) := by
  obtain ⟨rest, taken, -, unread⟩ := h.read_tokens closed kind apart gap.isBlank ends
  rw [NoHeader, Head.text, taken]
  exact unread some

/-- A type whose header is not plain is passed over with all that is in it. -/
theorem Head.Balanced.skipped (balanced : h.Balanced) (closed : h.Closed) (hidden : ¬h.Plain) (apart : Apart (h.tokens kind))
    {buf : Text} (blank : ∀ c ∈ buf, isSpace c = true) (gap : Gap) {y : Text} (passed : Passed y) :
    ∃ skipped : List Item, (∀ i ∈ skipped, i.Skipped) ∧
      ∀ r, splitFrom buf (h.text kind gap ++ '\x7b' :: (y ++ '\x7d' :: r)) = skipped ++ splitFrom [] r := by
  by_cases plain : ∀ a ∈ h.annotations, a.Plain
  · refine ⟨[.decl (strip (h.text kind gap)) y], fun i member => ?_, fun r => ?_⟩
    · rw [List.mem_singleton.mp member]
      exact closed.noHeader (fun none => hidden ⟨none, plain⟩) apart gap (.inl rfl)
    · exact splitFrom_declaration blank (balanced.carried plain kind gap) passed r
  · exact (balanced.torn closed plain apart).split_type (.inl blank) gap passed

theorem parseTop_noHeader {header : Text} (none : NoHeader ';' header) : parseTop package (.stmt header) = .ok [] := by
  have unread : declMatch ((takeAnnotations header).2 ++ " ;".toList) = .none := none
  rw [parseTop]
  simp only [unread]

theorem parseTop_skipped {i : Item} (skipped : i.Skipped) : parseTop package i = .ok [] := by
  cases i with
  | stmt text => exact skipped.elim
  | decl header body => exact NoHeader.parseType skipped package body []

/-- A forward declaration whose header is not plain declares nothing. -/
theorem Head.Balanced.skipped_forward (balanced : h.Balanced) (closed : h.Closed) (hidden : ¬h.Plain)
    (apart : Apart (h.tokens kind)) {buf : Text} (blank : ∀ c ∈ buf, isSpace c = true) (gap : Gap) (package : Text) :
    ∃ items : List Item, (∀ i ∈ items, parseTop package i = .ok []) ∧
      ∀ r, splitFrom buf (h.text kind gap ++ ';' :: r) = items ++ splitFrom [] r := by
  by_cases plain : ∀ a ∈ h.annotations, a.Plain
  · refine ⟨[.stmt (strip (h.text kind gap))], fun i member => ?_, fun r => ?_⟩
    · rw [List.mem_singleton.mp member]
      exact parseTop_noHeader (closed.noHeader (fun none => hidden ⟨none, plain⟩) apart gap (.inr rfl))
    · rw [splitFrom_statement blank (balanced.carried plain kind gap), Head.text, flushStmt_tokens (h.tokens_ne_nil kind)]
  · obtain ⟨skipped, last, skips, none, split⟩ := (balanced.torn closed plain apart).split_forward (.inl blank) gap
    refine ⟨skipped ++ flushStmt last, fun i member => ?_, fun r => ?_⟩
    · rcases List.mem_append.mp member with among | among
      · exact parseTop_skipped (skips i among)
      · rw [flushStmt] at among
        split at among
        · cases among
        · rw [List.mem_singleton.mp among]
          exact parseTop_noHeader none
    · rw [Head.text, split, List.append_assoc]

end Heads

/-! ### Parsing -/

theorem parseEnumValues_ok {prev : Option Int} {vs : List Text}
    (converts : ∀ v ∈ vs, '=' ∈ strip v → isIntLiteral (strip (partition '=' (strip v)).2) = true →
      ∃ k, parseInt (strip (partition '=' (strip v)).2) = .ok k) : ∃ members, parseEnumValues prev vs = .ok members := by
  induction vs generalizing prev with
  | nil => exact ⟨[], rfl⟩
  | cons v vs ih =>
    have rest : ∀ p, ∃ members, parseEnumValues p vs = .ok members := fun p =>
      ih fun w member => converts w (List.mem_cons_of_mem _ member)
    unfold parseEnumValues
    simp only
    split
    · exact rest prev
    split
    · rename_i assigned
      split
      · rename_i literal
        obtain ⟨k, value⟩ := converts v List.mem_cons_self assigned literal
        obtain ⟨members, done⟩ := rest (some k)
        exact ⟨_, bind_eq_ok.mpr ⟨k, value, bind_eq_ok.mpr ⟨members, done, rfl⟩⟩⟩
      · obtain ⟨members, done⟩ := rest none
        exact ⟨_, bind_eq_ok.mpr ⟨members, done, rfl⟩⟩
    · obtain ⟨members, done⟩ := rest (prev.map (· + 1))
      exact ⟨_, bind_eq_ok.mpr ⟨members, done, rfl⟩⟩

/-- The members and types that the parser finds in some items, at either level. -/
def Parses (package : Text) (outer : List Text) (items : List Item) (members : List Text)
    (records : List (Text × TypeDecl)) : Level → Prop
  | .type => parseItems package (dotted outer) items = .ok (members, records)
  | .file => outer = [] → (items.mapM (parseTop package)).map List.flatten = .ok records

theorem Parses.declaration {l : Level} {package header body : Text} {outer members : List Text} {items : List Item}
    {inner records : List (Text × TypeDecl)} (type : parseType package header body (dotted outer) = .ok inner)
    (rest : Parses package outer items members records l) :
    Parses package outer (.decl header body :: items) members (inner ++ records) l := by
  cases l with
  | type =>
    rw [Parses] at rest ⊢
    rw [parseItems, type, rest]
    rfl
  | file =>
    intro top
    obtain ⟨all, parsed, same⟩ := map_eq_ok.mp (rest top)
    subst top same
    refine map_eq_ok.mpr ⟨inner :: all, ?_, rfl⟩
    rw [List.mapM_cons]
    exact bind_eq_ok.mpr ⟨inner, type, bind_eq_ok.mpr ⟨all, parsed, rfl⟩⟩

theorem mapM_parseTop_append {package : Text} {items : List Item} (nothing : ∀ i ∈ items, parseTop package i = .ok [])
    (rest : List Item) : ((items ++ rest).mapM (parseTop package)).map List.flatten =
      (rest.mapM (parseTop package)).map List.flatten := by
  induction items with
  | nil => rfl
  | cons i items ih =>
    rw [List.cons_append, List.mapM_cons, nothing i List.mem_cons_self,
      ← ih fun j member => nothing j (List.mem_cons_of_mem _ member)]
    cases (items ++ rest).mapM (parseTop package) with
    | error e => rfl
    | ok all => rfl

theorem Parses.skipped {l : Level} {package : Text} {outer members : List Text} {skipped items : List Item}
    {records : List (Text × TypeDecl)} (skips : ∀ i ∈ skipped, i.Skipped) (rest : Parses package outer items members records l) :
    Parses package outer (skipped ++ items) members records l := by
  cases l with
  | type =>
    have parsed := parseItems_append (fun i member => ofMember_skipped (skips i member)) rest
    rw [stmtTexts_skipped skips] at parsed
    exact parsed
  | file => exact fun top => (mapM_parseTop_append (fun i member => parseTop_skipped (skips i member)) items).trans (rest top)

/-- The entry under its name is that of the declared type. -/
def IsEntry (package : Text) (d : List Text × Declaration) (r : Text × TypeDecl) : Prop :=
  r.1 = dotted (package :: d.1) ∧ d.2.RecordedAs r.2

/-- The headers of the types in a body can be read as far as they have no braces. -/
def Body.Closed {l : Level} : Body l → Prop
  | .nil => True
  | .forward _ head _ _ rest => head.Closed ∧ rest.Closed
  | .member _ _ _ rest => rest.Closed
  | .type _ _ head _ inner _ rest => head.Closed ∧ inner.Closed ∧ rest.Closed
  | .enum head _ _ _ rest => head.Closed ∧ rest.Closed

/-- What is recorded for the types of a body: nothing for a type whose header is not plain, nor for those in it. -/
inductive Body.Records (package : Text) : {l : Level} → List Text → Body l → List (Text × TypeDecl) → Prop where
  | nil {l : Level} {outer : List Text} : Records package outer (.nil : Body l) []
  | forward {outer : List Text} {kind : Kind} {head : Head} {plain : head.oneway = none} {gap : Gap} {rest : Body .file}
      {records : List (Text × TypeDecl)} (shown : head.Plain) (behind : Records package outer rest records) :
      Records package outer (.forward kind head plain gap rest)
        ((dotted (package :: (outer ++ [head.name.text])), head.entry kind []) :: records)
  | forwardHidden {outer : List Text} {kind : Kind} {head : Head} {plain : head.oneway = none} {gap : Gap} {rest : Body .file}
      {records : List (Text × TypeDecl)} (hidden : ¬head.Plain) (behind : Records package outer rest records) :
      Records package outer (.forward kind head plain gap rest) records
  | member {outer : List Text} {ts : List Spaced} {some : ts ≠ []} {gap : Gap} {rest : Body .type}
      {records : List (Text × TypeDecl)} (behind : Records package outer rest records) :
      Records package outer (.member ts some gap rest) records
  | type {l : Level} {outer : List Text} {kind : Kind} {structured : kind ≠ .enum} {head : Head} {before after : Gap}
      {inner : Body .type} {rest : Body l} {members : List Text} {nested records : List (Text × TypeDecl)}
      (shown : head.Plain) (inside : Records package (outer ++ [head.name.text]) inner nested)
      (recorded : MembersRecorded inner.members members) (behind : Records package outer rest records) :
      Records package outer (.type kind structured head before inner after rest)
        (nested ++ [(dotted (package :: (outer ++ [head.name.text])), head.entry kind members)] ++ records)
  | typeHidden {l : Level} {outer : List Text} {kind : Kind} {structured : kind ≠ .enum} {head : Head} {before after : Gap}
      {inner : Body .type} {rest : Body l} {records : List (Text × TypeDecl)} (hidden : ¬head.Plain)
      (behind : Records package outer rest records) :
      Records package outer (.type kind structured head before inner after rest) records
  | enum {l : Level} {outer : List Text} {head : Head} {before after : Gap} {values : List Spaced} {rest : Body l}
      {lines : List Text} {records : List (Text × TypeDecl)} (shown : head.Plain)
      (read : parseEnumBody (blankSpell values ++ after.blanks) = .ok lines) (behind : Records package outer rest records) :
      Records package outer (.enum head before values after rest)
        ((dotted (package :: (outer ++ [head.name.text])), head.entry .enum lines) :: records)
  | enumHidden {l : Level} {outer : List Text} {head : Head} {before after : Gap} {values : List Spaced} {rest : Body l}
      {records : List (Text × TypeDecl)} (hidden : ¬head.Plain) (behind : Records package outer rest records) :
      Records package outer (.enum head before values after rest) records

/-- They are entries of the readable types. -/
theorem Body.Records.entries {package : Text} {l : Level} {outer : List Text} {b : Body l} {records : List (Text × TypeDecl)}
    (recorded : Records package outer b records) : List.Forall₂ (IsEntry package) (b.readable outer) records := by
  induction recorded with
  | nil => exact .nil
  | forward shown _ ih =>
    rw [Body.readable, if_pos shown]
    exact .cons ⟨rfl, rfl, rfl, rfl, fun b isBody => by cases isBody⟩ ih
  | forwardHidden hidden _ ih => rwa [Body.readable, if_neg hidden]
  | member _ ih => exact ih
  | type shown _ recorded _ ihInner ih =>
    rw [Body.readable, if_pos shown]
    refine List.rel_append (List.rel_append ihInner (.cons ⟨rfl, rfl, rfl, rfl, fun b isBody => ?_⟩ .nil)) ih
    cases isBody
    exact recorded
  | typeHidden hidden _ ih => rwa [Body.readable, if_neg hidden]
  | enum shown _ _ ih =>
    rw [Body.readable, if_pos shown]
    exact .cons ⟨rfl, rfl, rfl, rfl, fun b isBody => by cases isBody⟩ ih
  | enumHidden hidden _ ih => rwa [Body.readable, if_neg hidden]

/-- A body is read as its readable types, and its members as far as they go. -/
theorem Body.Legible.parse {l : Level} {b : Body l} (legible : b.Legible) (closed : b.Closed) (apart : Apart b.tokens)
    (package : Text) (outer : List Text) {buf : Text} (blank : ∀ c ∈ buf, isSpace c = true) (gap : Gap) :
    ∃ members records, Parses package outer (splitFrom buf (b.blankText ++ gap.blanks)) members records l ∧
      b.Records package outer records ∧ MembersRecorded b.members members := by
  have noBlank : ∀ c ∈ ([] : Text), isSpace c = true := fun _ member => absurd member List.not_mem_nil
  induction b generalizing outer buf gap with
  | nil =>
    rename_i l
    refine ⟨[], [], ?_, .nil, .nil⟩
    rw [show splitFrom buf ((Body.nil : Body l).blankText ++ gap.blanks) = [] from splitFrom_blank blank gap.isBlank]
    cases l with
    | type =>
      show parseItems package (dotted outer) [] = _
      rw [parseItems]
    | file => exact fun _ => rfl
  | forward kind head plain end_ rest ih =>
    rw [Body.tokens] at apart
    obtain ⟨members, records, parsed, entries, recorded⟩ :=
      ih legible.2 closed.2 apart.right_of_append.of_cons outer noBlank gap
    rw [blankText_forward, List.append_assoc, List.cons_append]
    by_cases shown : head.Plain
    · have announced : parseTop package (.stmt (strip (head.text kind end_))) =
          .ok [(dotted [package, head.name.text], head.entry kind [])] :=
        closed.1.parseTop_forward shown.1 plain apart.left_of_append end_
      rw [splitFrom_statement blank (legible.1.carried shown.2 kind end_), Head.text,
        flushStmt_tokens (head.tokens_ne_nil kind), List.singleton_append]
      refine ⟨members, (dotted (package :: (outer ++ [head.name.text])), head.entry kind []) :: records, fun top => ?_,
        .forward shown entries, recorded⟩
      obtain ⟨all, found, same⟩ := map_eq_ok.mp (parsed top)
      subst top same
      refine map_eq_ok.mpr ⟨[(dotted [package, head.name.text], head.entry kind [])] :: all, ?_, rfl⟩
      rw [List.mapM_cons]
      exact bind_eq_ok.mpr ⟨_, announced, bind_eq_ok.mpr ⟨all, found, rfl⟩⟩
    · obtain ⟨items, nothing, split⟩ :=
        legible.1.skipped_forward closed.1 shown apart.left_of_append blank end_ package
      rw [split]
      exact ⟨members, records, fun top => (mapM_parseTop_append nothing _).trans (parsed top), .forwardHidden shown entries,
        recorded⟩
  | member ts some end_ rest ih =>
    rw [Body.tokens] at apart
    obtain ⟨members, records, parsed, entries, recorded⟩ :=
      ih legible.2 closed apart.right_of_append.of_cons outer noBlank gap
    obtain ⟨members', line, recorded'⟩ :=
      legible.1.parse some apart.left_of_append end_ (show parseItems package (dotted outer) _ = _ from parsed) recorded blank
    rw [blankText_member, List.append_assoc, List.cons_append]
    exact ⟨members', records, line, .member entries, recorded'⟩
  | type kind structured head before inner after rest ihInner ih =>
    rw [Body.tokens, List.append_assoc] at apart
    have behind := apart.right_of_append.of_cons
    obtain ⟨ms, nested, parsedInner, entriesInner, recordedInner⟩ :=
      ihInner legible.2.1 closed.2.1 behind.left_of_append (outer ++ [head.name.text]) noBlank after
    obtain ⟨members, records, parsed, entries, recorded⟩ :=
      ih legible.2.2 closed.2.2 behind.right_of_append.of_cons outer noBlank gap
    have text : (Body.type kind structured head before inner after rest).blankText ++ gap.blanks =
        head.text kind before ++ '\x7b' :: (inner.blankText ++ after.blanks ++ '\x7d' :: (rest.blankText ++ gap.blanks)) := by
      rw [blankText_type]
      simp
    have passed : Passed (inner.blankText ++ after.blanks) :=
      legible.2.1.enclosed.passed.append (passed_of_plain after.plain)
    rw [text]
    by_cases shown : head.Plain
    · have items : parseItems package (dotted [dotted outer, head.name.text])
          (splitStatements (inner.blankText ++ after.blanks)) = .ok (ms, nested) := by
        rw [show dotted [dotted outer, head.name.text] = _ from dotted_dotted [] outer _]
        exact parsedInner
      have type : parseType package (strip (head.text kind before)) (inner.blankText ++ after.blanks) (dotted outer) =
          .ok (nested ++ [(dotted [package, dotted outer, head.name.text], head.entry kind ms)]) :=
        closed.1.parseType_structured shown.1 structured apart.left_of_append before items
      rw [show dotted [package, dotted outer, head.name.text] = _ from dotted_dotted [package] outer _] at type
      rw [splitFrom_declaration blank (legible.1.carried shown.2 kind before) passed]
      exact ⟨members, _, parsed.declaration type, .type shown entriesInner recordedInner entries, recorded⟩
    · obtain ⟨skipped, skips, split⟩ := legible.1.skipped closed.1 shown apart.left_of_append blank before passed
      rw [split]
      exact ⟨members, records, parsed.skipped skips, .typeHidden shown entries, recorded⟩
  | enum head before values after rest ih =>
    rw [Body.tokens, List.append_assoc] at apart
    have behind := apart.right_of_append.of_cons
    obtain ⟨members, records, parsed, entries, recorded⟩ :=
      ih legible.2.2 closed.2 behind.right_of_append.of_cons outer noBlank gap
    have text : (Body.enum head before values after rest).blankText ++ gap.blanks =
        head.text .enum before ++ '\x7b' :: (blankSpell values ++ after.blanks ++ '\x7d' :: (rest.blankText ++ gap.blanks)) := by
      rw [blankText_enum]
      simp
    have passed := legible.2.1.1.passed.append (passed_of_plain after.plain)
    rw [text]
    by_cases shown : head.Plain
    · obtain ⟨lines, read⟩ : ∃ lines, parseEnumBody (blankSpell values ++ after.blanks) = .ok lines :=
        parseEnumValues_ok legible.2.1.2
      have type : parseType package (strip (head.text .enum before)) (blankSpell values ++ after.blanks) (dotted outer) =
          .ok [(dotted [package, dotted outer, head.name.text], head.entry .enum lines)] :=
        closed.1.parseType_enum shown.1 apart.left_of_append before read
      rw [show dotted [package, dotted outer, head.name.text] = _ from dotted_dotted [package] outer _] at type
      rw [splitFrom_declaration blank (legible.1.carried shown.2 .enum before) passed]
      exact ⟨members, _, parsed.declaration type, .enum shown read entries, recorded⟩
    · obtain ⟨skipped, skips, split⟩ := legible.1.skipped closed.1 shown apart.left_of_append blank before passed
      rw [split]
      exact ⟨members, records, parsed.skipped skips, .enumHidden shown entries, recorded⟩

end BinderIdl.Surface
