import BinderIdl.Theorems.FileOrder
import BinderIdl.Theorems.Members
import BinderIdl.Theorems.Reformatting

/-! The verdict on two trees of sources. When the members of each type have names of their own that stand where the diff
    looks for them, dumping both trees and comparing the dumps decides the contract between what the sources declare. -/

namespace BinderIdl.Surface
open Py Lex

/-! ### Lines with their names -/

/-- A clean line that the diff finds under a name, which is the declared one. -/
structure FoundAs (kind : Kind) (line n : Text) : Prop where
  clean : CleanLine line
  found : memberName kind line = .ok n
  declared : declaredName kind line = n

theorem MemberTerm.foundAs {m : MemberTerm} (plain : m.Plain) (apart : Apart m.tokens) (quoteless : Quoteless m.tokens)
    (single : ∀ t ∈ m.tokens, t.token.OneLine) {kind : Kind} (structured : kind ≠ .enum) :
    FoundAs kind (memberLine m.tokens) m.name.text := by
  obtain ⟨found, declared⟩ := m.named plain apart quoteless structured
  have some : m.tokens ≠ [] := List.append_ne_nil_of_left_ne_nil plain.typed _
  exact ⟨cleanLine_memberLine some apart quoteless single, found, declared⟩

theorem foundAs_enum {line n : Text} (clean : CleanLine line) (last : lastWord line = .ok n) : FoundAs .enum line n := by
  refine ⟨clean, ?_, ?_⟩
  · rwa [memberName, if_pos (.inl rfl)]
  · rw [declaredName, if_pos (.inl rfl), last, okOr_ok]

theorem cleanLine_enumValue {ts : List Spaced} (some : ts ≠ []) (quoteless : Quoteless ts)
    (single : ∀ t ∈ ts, t.token.OneLine) {v : Text × Option Int} (read : enumValue (strip (blankSpell ts)) = .ok v) :
    CleanLine v.1 := by
  rw [enumValue] at read
  split at read
  · obtain ⟨k, -, rfl⟩ := map_eq_ok.mp read
    exact cleanLine_ofInt k
  · obtain rfl := Except.ok.inj read
    have blanks := strip_blankSpell_ne_nil some []
    rw [show Gap.blanks [] = [] from rfl, List.append_nil] at blanks
    exact cleanLine_normalize (stripped_strip _) blanks (within_strip (within_blankSpell quoteless single).1)

/-- The first line of an enum is that of its first enumerator. -/
theorem EnumTerm.round_found {e : EnumTerm} (plain : e.Plain) (quoteless : Quoteless e.tokens)
    (single : ∀ t ∈ e.tokens, t.token.OneLine) {g : Text} (blank : ∀ c ∈ g, isSpace c = true) {prev : Option Int}
    {pieces members : List Text} (read : parseEnumValues prev ((blankSpell e.tokens ++ g) :: pieces) = .ok members) :
    ∃ line prev' rest, members = line :: rest ∧ FoundAs .enum line e.name.text ∧ parseEnumValues prev' pieces = .ok rest := by
  have word : ∀ c ∈ e.name.text, isWord c = true := fun c => e.name.isWord_of_mem
  have isWord : IsWord e.name.text := ⟨e.name.nonempty, fun c member => not_isSpace_of_isWord (word c member)⟩
  have noSign : '=' ∉ e.name.text := (solid_of_word word).2
  have given : ∀ value, CleanLine value → FoundAs .enum (enumLine e.name.text value) e.name.text := fun value clean =>
    foundAs_enum (cleanLine_enumLine isWord clean) (lastWord_enumLine isWord noSign value)
  rw [e.round blank] at read
  cases value : e.value with
  | none =>
    rw [value] at read
    obtain ⟨rest, behind, rfl⟩ := map_eq_ok.mp read
    refine ⟨_, _, rest, rfl, ?_, behind⟩
    cases prev with
    | none => exact foundAs_enum (cleanLine_word isWord) (lastWord_name isWord noSign)
    | some k => exact given _ (cleanLine_ofInt _)
  | some v =>
    obtain ⟨gap, v⟩ := v
    rw [value] at read
    obtain ⟨w, known, done⟩ := bind_eq_ok.mp read
    obtain ⟨rest, behind, line⟩ := bind_eq_ok.mp done
    obtain rfl := Except.ok.inj line
    have tokens : e.tokens = ⟨e.gap, .word e.name⟩ :: ⟨gap, .symbol .assign⟩ :: v := by rw [EnumTerm.tokens, value]
    have inside : ∀ t ∈ v, t ∈ e.tokens := fun t member => by
      rw [tokens]
      exact List.mem_cons_of_mem _ (List.mem_cons_of_mem _ member)
    exact ⟨_, _, rest, rfl, given _ (cleanLine_enumValue (plain _ value).1 (fun t member => quoteless t (inside t member))
      (fun t member => single t (inside t member)) known), behind⟩

/-- The lines of an enum are those of its enumerators. -/
theorem EnumTerms.found {es : List EnumTerm} {ts : List Spaced} (terms : EnumTerms es ts) (quoteless : Quoteless ts)
    (single : ∀ t ∈ ts, t.token.OneLine) {g : Text} (blank : ∀ c ∈ g, isSpace c = true) {prev : Option Int}
    {members : List Text} (read : parseEnumValues prev ((blankSpell ts ++ g).splitOn ',') = .ok members) :
    List.Forall₂ (FoundAs .enum) members (es.map fun e => e.name.text) := by
  induction terms generalizing prev members with
  | nil =>
    rw [blankSpell_nil, List.nil_append, parseEnumValues_blank blank] at read
    obtain rfl := Except.ok.inj read
    exact .nil
  | @last e plain =>
    rw [List.splitOn_eq_singleton (e.no_comma plain blank)] at read
    obtain ⟨line, prev', rest, rfl, found, nothing⟩ := e.round_found plain quoteless single blank read
    obtain rfl := Except.ok.inj nothing
    exact .cons found .nil
  | @next e plain gap es rest more ih =>
    rw [e.splitOn_next plain] at read
    obtain ⟨line, prev', lines, rfl, found, behind⟩ := e.round_found plain (fun t member => quoteless t (List.mem_append_left _ member))
      (fun t member => single t (List.mem_append_left _ member)) gap.isBlank read
    exact .cons found (ih (fun t member => quoteless t (List.mem_append_right _ (List.mem_cons_of_mem _ member)))
      (fun t member => single t (List.mem_append_right _ (List.mem_cons_of_mem _ member))) behind)

/-! ### Bodies -/

/-- The members of each type, and the enumerators of each enum, have names of their own, and no token ends a line. -/
def Body.Orderly {l : Level} : Body l → Prop
  | .nil => True
  | .forward _ _ _ _ rest => rest.Orderly
  | .member tokens _ _ rest => (∀ t ∈ tokens, t.token.OneLine) ∧ rest.Orderly
  | .type _ _ _ _ inner _ rest =>
    (∃ ms : List MemberTerm, inner.members = ms.map MemberTerm.tokens ∧ (∀ m ∈ ms, m.Plain) ∧
      (ms.map fun m => m.name.text).Nodup) ∧ inner.Orderly ∧ rest.Orderly
  | .enum _ _ values _ rest =>
    ((∃ es, EnumTerms es values ∧ (es.map fun e => e.name.text).Nodup) ∧ ∀ t ∈ values, t.token.OneLine) ∧ rest.Orderly

theorem Body.Orderly.oneLine {l : Level} {b : Body l} (orderly : b.Orderly) : ∀ ts ∈ b.members, ∀ t ∈ ts, t.token.OneLine := by
  induction b with
  | nil => exact fun _ member => absurd member List.not_mem_nil
  | forward kind head plain gap rest ih => exact ih orderly
  | member ts some gap rest ih => exact List.forall_mem_cons.mpr ⟨orderly.1, ih orderly.2⟩
  | type kind structured head before inner after rest ihInner ih => exact ih orderly.2.2
  | enum head before values after rest ih => exact ih orderly.2

theorem Body.apart_members {l : Level} {b : Body l} (apart : Apart b.tokens) : ∀ ts ∈ b.members, Apart ts := by
  induction b with
  | nil => exact fun _ member => absurd member List.not_mem_nil
  | forward kind head plain gap rest ih => exact ih apart.right_of_append.of_cons
  | member ts some gap rest ih => exact List.forall_mem_cons.mpr ⟨apart.left_of_append, ih apart.right_of_append.of_cons⟩
  | type kind structured head before inner after rest ihInner ih =>
    rw [Body.tokens, List.append_assoc] at apart
    exact ih apart.right_of_append.of_cons.right_of_append.of_cons
  | enum head before values after rest ih =>
    rw [Body.tokens, List.append_assoc] at apart
    exact ih apart.right_of_append.of_cons.right_of_append.of_cons

/-- The diff finds each line of the type, under a name of its own. -/
def AllFound (t : TypeDecl) : Prop := ∃ ns : List Text, List.Forall₂ (FoundAs t.kind) t.members ns ∧ [] ∉ ns ∧ ns.Nodup

theorem Body.Orderly.allFound {l : Level} {b : Body l} (orderly : b.Orderly) (regular : b.Regular) (apart : Apart b.tokens)
    (package : Text) (outer : List Text) : ∀ e ∈ b.surface package outer, AllFound e.2 := by
  induction b generalizing outer with
  | nil => exact fun _ member => absurd member List.not_mem_nil
  | forward kind head plain gap rest ih =>
    exact List.forall_mem_cons.mpr ⟨⟨[], .nil, List.not_mem_nil, List.nodup_nil⟩,
      ih orderly regular.2 apart.right_of_append.of_cons outer⟩
  | member ts some gap rest ih => exact ih orderly.2 regular.2 apart.right_of_append.of_cons outer
  | type kind structured head before inner after rest ihInner ih =>
    rw [Body.tokens, List.append_assoc] at apart
    have tail := apart.right_of_append.of_cons
    rw [Body.surface, List.forall_mem_append, List.forall_mem_cons]
    refine ⟨ihInner orderly.2.1 regular.2.1 tail.left_of_append _, ?_,
      ih orderly.2.2 regular.2.2 tail.right_of_append.of_cons outer⟩
    obtain ⟨ms, members, plain, distinct⟩ := orderly.1
    refine ⟨ms.map fun m => m.name.text, ?_, fun none => ?_, distinct⟩
    · show List.Forall₂ (FoundAs kind) (inner.members.map memberLine) _
      rw [members, List.map_map, List.forall₂_map_left_iff, List.forall₂_map_right_iff, List.forall₂_same]
      intro m member
      have among : m.tokens ∈ inner.members := members ▸ List.mem_map_of_mem member
      exact m.foundAs (plain m member) (Body.apart_members tail.left_of_append _ among)
        (enclosed_of_plain (regular.2.1.plain_members _ among)).quoteless (orderly.2.1.oneLine _ among) structured
    · obtain ⟨m, -, empty⟩ := List.mem_map.mp none
      exact m.name.nonempty empty
  | enum head before values after rest ih =>
    rw [Body.tokens, List.append_assoc] at apart
    have tail := apart.right_of_append.of_cons
    rw [Body.surface, List.forall_mem_cons]
    refine ⟨?_, ih orderly.2 regular.2.2 tail.right_of_append.of_cons outer⟩
    obtain ⟨⟨es, terms, distinct⟩, single⟩ := orderly.1
    obtain ⟨-, enclosed, converts⟩ := regular.2.1
    obtain ⟨lines, read⟩ : ∃ lines, parseEnumBody (blankSpell values ++ after.blanks) = .ok lines := parseEnumValues_ok converts
    refine ⟨es.map fun e => e.name.text, ?_, fun none => ?_, distinct⟩
    · show List.Forall₂ (FoundAs .enum) (enumLines values after) _
      rw [enumLines, read, okOr_ok]
      exact terms.found enclosed.quoteless single after.isBlank read
    · obtain ⟨e, -, empty⟩ := List.mem_map.mp none
      exact e.name.nonempty empty

/-! ### Trees of sources -/

section AllFound
variable {t : TypeDecl}

theorem foundAs_names {kind : Kind} {lines ns : List Text} (found : List.Forall₂ (FoundAs kind) lines ns) :
    lines.map (declaredName kind) = ns := by
  induction found with
  | nil => rfl
  | cons first _ ih => rw [List.map_cons, first.declared, ih]

theorem AllFound.exists (all : AllFound t) : ∀ m ∈ t.members, ∃ n, n ≠ [] ∧ FoundAs t.kind m n := by
  obtain ⟨ns, found, named, -⟩ := all
  generalize t.members = lines at found ⊢
  induction found with
  | nil => exact fun _ member => absurd member List.not_mem_nil
  | @cons m n ms ns first _ ih =>
    rw [List.mem_cons, not_or] at named
    exact List.forall_mem_cons.mpr ⟨⟨n, fun none => named.1 none.symm, first⟩, ih named.2⟩

theorem AllFound.distinct (all : AllFound t) : (t.members.map (declaredName t.kind)).Nodup := by
  obtain ⟨ns, found, -, distinct⟩ := all
  rwa [foundAs_names found]

end AllFound

/-- The types that some sources declare, those of later ones in the place of earlier ones of the same name. -/
def declaredSurface (ss : List Source) : Types := Dict.ofPairs (ss.flatMap fun s => s.body.surface s.packageName [])

section Trees
variable {ss : List Source}

theorem dumpSurface_sources {t : Tree} (texts : t.texts = ss.map fun s => s.text) (regular : ∀ s ∈ ss, s.Regular) :
    dumpSurface t = .ok (dumpTypes (declaredSurface ss)) := by
  have read : ∀ s ∈ ss, declarations s.text = s.body.surface s.packageName [] := fun s member => by
    rw [declarations, s.declared_regular (regular s member), okOr_ok]
  refine dumpSurface_eq_ok.mpr ⟨fun text member => ?_, ?_⟩
  · rw [texts] at member
    obtain ⟨s, among, rfl⟩ := List.mem_map.mp member
    exact ⟨_, s.declared_regular (regular s among)⟩
  · rw [texts, List.flatMap_map, declaredSurface, List.flatMap_congr read]

/-- Regular sources with orderly bodies have a surface that survives its dump, and whose lines the diff finds. -/
theorem declaredSurface_found (regular : ∀ s ∈ ss, s.Regular) (orderly : ∀ s ∈ ss, s.body.Orderly) :
    WellFormed (declaredSurface ss) ∧ NamesRead (declaredSurface ss) := by
  have among : ∀ {q : Text} {t : TypeDecl}, (declaredSurface ss).get? q = some t → HeaderKept (q, t) ∧ AllFound t := by
    intro q t found
    obtain ⟨s, member, entry⟩ := List.mem_flatMap.mp (Dict.mem_of_get?_ofPairs found)
    exact ⟨declared_headerKept (s.declared_regular (regular s member)) _ entry,
      (orderly s member).allFound (regular s member).body s.apart_body s.packageName [] _ entry⟩
  refine ⟨⟨fun q t found => (among found).1.readable, fun q t found m member => ?_, fun q t found m member => ?_,
    fun q t found => (among found).2.distinct⟩, fun q t found m member => ?_⟩
  · obtain ⟨n, -, line⟩ := (among found).2.exists m member
    exact line.clean
  · obtain ⟨n, named, line⟩ := (among found).2.exists m member
    rwa [line.declared]
  · obtain ⟨n, -, line⟩ := (among found).2.exists m ((seqLines_sublist t.kind t.members).subset member)
    rw [lineName, line.found, line.declared, okOr_ok]

end Trees

/-- Comparing the dumps of two trees of sources decides the contract between what the sources declare. -/
theorem diffSurface_sources {t t' : Tree} {ss ss' : List Source} (texts : t.texts = ss.map fun s => s.text)
    (texts' : t'.texts = ss'.map fun s => s.text) (regular : ∀ s ∈ ss, s.Regular) (regular' : ∀ s ∈ ss', s.Regular)
    (orderly : ∀ s ∈ ss, s.body.Orderly) (orderly' : ∀ s ∈ ss', s.body.Orderly) :
    ∃ dump dump' report, dumpSurface t = .ok dump ∧ dumpSurface t' = .ok dump' ∧ diffSurface dump dump' = .ok report ∧
      report.cls = contractClass (declaredSurface ss) (declaredSurface ss') := by
  obtain ⟨formed, names⟩ := declaredSurface_found regular orderly
  obtain ⟨formed', names'⟩ := declaredSurface_found regular' orderly'
  obtain ⟨report, compared, cls⟩ := diffSurface_of_namesRead formed formed' names names'
  exact ⟨_, _, report, dumpSurface_sources texts regular, dumpSurface_sources texts' regular', compared, cls⟩

/-- `int a()` -/
def getter : MemberTerm :=
  ⟨[⟨[], .word .int⟩], .space, .field, [⟨[], .symbol .openParen⟩, ⟨[], .symbol .closeParen⟩]⟩

/-- `const int b=1` -/
def constantOne : MemberTerm :=
  ⟨[⟨[], .word ⟨"const".toList, by decide, by decide +kernel⟩⟩, ⟨.space, .word .int⟩], .space,
    ⟨"b".toList, by decide, by decide +kernel⟩, [⟨[], .symbol .assign⟩, ⟨[], .word .one⟩]⟩

/-- An interface with a method and further members. -/
def getterFile (more : Body .type) : File where
  package := none
  imports := []
  body := .type .interface (by decide) ⟨[], none, [], .space, .type, none⟩ []
    (.member getter.tokens (List.cons_ne_nil _ _) [] more) [] .nil
  ending := []
  last := none

def getterSource : Source where
  toFile := getterFile .nil
  apart := by decide +kernel
  names := by decide
  free := by decide +kernel
  distinct := by decide +kernel

def constantSource : Source where
  toFile := getterFile (.member constantOne.tokens (List.cons_ne_nil _ _) [] .nil)
  apart := by decide +kernel
  names := by decide
  free := by decide +kernel
  distinct := by decide +kernel

/-- A constant is added to an interface, in a file of another name. -/
theorem diffSurface_sources_constant :
    let t := Tree.dir [("P.aidl".toList, "interface P\x7bint a();\x7d".toList)] []
    let t' := Tree.dir [] [("sub".toList, .dir [("Q.aidl".toList, "interface P\x7bint a();const int b=1;\x7d".toList)] [])]
    ∃ dump dump' report, dumpSurface t = .ok dump ∧ dumpSurface t' = .ok dump' ∧ diffSurface dump dump' = .ok report ∧
      report.cls = .major := by
  intro t t'
  have method : getter.Plain := by
    refine ⟨List.cons_ne_nil _ _, by decide, ?_, ?_, ?_⟩
    · exact fun u last => .inr (by rw [← Option.some.inj last]; exact ⟨rfl, List.cons_ne_nil _ _⟩)
    · exact fun u first => .inl (by rw [← Option.some.inj first]; rfl)
    · rintro ⟨u, first, word⟩
      rw [← Option.some.inj first] at word
      exact absurd word (by decide)
  have constant : constantOne.Plain := by
    refine ⟨List.cons_ne_nil _ _, by decide, ?_, ?_, ?_⟩
    · exact fun u last => .inr (by rw [← Option.some.inj last]; exact ⟨rfl, List.cons_ne_nil _ _⟩)
    · exact fun u first => .inr (by rw [← Option.some.inj first]; rfl)
    · exact fun _ u first => by rw [← Option.some.inj first]; rfl
  have head : (⟨[], none, [], .space, .type, none⟩ : Head).Readable :=
    ⟨⟨rfl, fun _ member => absurd member List.not_mem_nil⟩, fun _ member => absurd member List.not_mem_nil⟩
  have tight : ∀ more, (getterFile more).Tight := fun _ _ member => by cases member
  have regular : ∀ s ∈ [getterSource], s.Regular :=
    List.forall_mem_singleton.mpr ⟨⟨head, ⟨by decide, trivial⟩, trivial⟩, tight _⟩
  have regular' : ∀ s ∈ [constantSource], s.Regular :=
    List.forall_mem_singleton.mpr ⟨⟨head, ⟨by decide, by decide, trivial⟩, trivial⟩, tight _⟩
  have orderly : ∀ s ∈ [getterSource], s.body.Orderly :=
    List.forall_mem_singleton.mpr ⟨⟨[getter], rfl, List.forall_mem_singleton.mpr method, by decide⟩,
      ⟨by decide +kernel, trivial⟩, trivial⟩
  have orderly' : ∀ s ∈ [constantSource], s.body.Orderly :=
    List.forall_mem_singleton.mpr ⟨⟨[getter, constantOne], rfl,
      List.forall_mem_cons.mpr ⟨method, List.forall_mem_singleton.mpr constant⟩, by decide⟩,
      ⟨by decide +kernel, by decide +kernel, trivial⟩, trivial⟩
  obtain ⟨dump, dump', report, read, read', compared, cls⟩ :=
    @diffSurface_sources t t' _ _ (by decide +kernel) (by decide +kernel) regular regular' orderly orderly'
  have major : contractClass (declaredSurface [getterSource]) (declaredSurface [constantSource]) = .major := by
    decide +kernel
  exact ⟨dump, dump', report, read, read', compared, cls.trans major⟩

end BinderIdl.Surface
