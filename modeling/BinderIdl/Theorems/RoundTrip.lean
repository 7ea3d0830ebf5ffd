import BinderIdl.Theorems.Literals
import BinderIdl.Theorems.ReadBack

/-! The types that the parser records, written as a dump and read back. Headers always survive. Member lines
    survive iff they are clean, and only the lines of enums can fail to be when the literals are single lines:
    enum bodies are split at every comma, also at one inside a literal. -/

namespace BinderIdl.Surface
open Py Lex

/-! ### Headers as the parser records them -/

theorem argsMatch_spec {t a r : Text} (h : argsMatch t = some (a, r)) :
    ∃ g x, (∀ c ∈ g, isSpace c = true) ∧ (∀ c ∈ x, c ≠ ')') ∧ a = g ++ '(' :: x ++ [')'] := by
  unfold argsMatch at h
  split at h
  · rename_i u _
    split at h
    · cases h
      refine ⟨_, _, fun c member => List.mem_takeWhile_imp member, fun c member => ?_, rfl⟩
      simpa using List.mem_takeWhile_imp member
    · cases h
  · cases h

theorem dropSpaces_solid (t : Text) : ∀ c ∈ dropSpaces t, isSpace c = false := by
  intro c member
  simpa using (List.mem_filter.mp member).2

theorem annotationText_of_match {t a r : Text} (h : annotationMatch t = some (a, r)) : AnnotationText (dropSpaces a) := by
  refine ⟨dropSpaces_solid a, ?_⟩
  unfold annotationMatch at h
  split at h
  · rename_i u
    split at h
    · cases h
    · rename_i word
      have words : ∀ c ∈ u.takeWhile isWord, isWord c = true := fun c member => List.mem_takeWhile_imp member
      have solid : dropSpaces ('@' :: u.takeWhile isWord) = '@' :: u.takeWhile isWord := dropSpaces_eq_self fun c member => by
        rcases List.mem_cons.mp member with rfl | member
        · decide
        · exact not_isSpace_of_isWord (words c member)
      split at h
      · rename_i args rest found
        cases h
        obtain ⟨g, x, hg, hx, rfl⟩ := argsMatch_spec found
        have inside : ∀ c ∈ dropSpaces x, c ≠ ')' := fun c member => hx c (List.mem_filter.mp member).1
        have args : dropSpaces (g ++ '(' :: x ++ [')']) = '(' :: dropSpaces x ++ [')'] := by
          rw [dropSpaces_append, dropSpaces_append, dropSpaces_eq_nil_iff.mpr hg, dropSpaces_cons_of_solid (by decide)]
          rfl
        rw [dropSpaces_append, solid, args, List.cons_append, annotationMatch]
        have open' : isWord '(' = false := by decide
        have matched : argsMatch ('(' :: dropSpaces x ++ [')']) = some ('(' :: dropSpaces x ++ [')'], []) :=
          argsMatch_args (g := []) (fun c member => by cases member) inside []
        rw [List.cons_append, takeWhile_append_cons words open', dropWhile_append_cons words open', if_neg word,
          ← List.cons_append, matched]
        simp
      · cases h
        rw [solid, annotationMatch, List.takeWhile_eq_self_iff.mpr words, if_neg word]
        have rest : (u.takeWhile isWord).dropWhile isWord = [] := List.dropWhile_eq_nil_iff.mpr words
        rw [rest]
        rfl
  · cases h

theorem takeAnnotationsFrom_text (t : Text) : ∀ a ∈ (takeAnnotationsFrom t).1, AnnotationText a := by
  fun_induction takeAnnotationsFrom t with
  | case1 => simp
  | case2 t a r found ih =>
    intro b member
    rcases List.mem_cons.mp member with rfl | member
    · exact annotationText_of_match found
    · exact ih b member

theorem kindMatch_name {t name : Text} {kind : Kind} (h : kindMatch t = some (kind, name)) :
    name ≠ [] ∧ ∀ c ∈ name, isWord c = true := by
  obtain ⟨k, -, hk⟩ := List.exists_of_findSome?_eq_some h
  split at hk
  · cases hk
  · rename_i u _
    split at hk
    · rename_i c w term rest hw _
      split at hk
      · cases hk
        exact ⟨List.cons_ne_nil _ _, hw ▸ fun c member => List.mem_takeWhile_imp member⟩
      · cases hk
    · cases hk

theorem declMatch_name {t : Text} {head : DeclHead} (h : declMatch t = some head) :
    head.name ≠ [] ∧ ∀ c ∈ head.name, isWord c = true := by
  unfold declMatch at h
  split at h
  · rename_i kind name found
    cases h
    obtain ⟨u, -, hu⟩ := Option.bind_eq_some_iff.mp found
    exact kindMatch_name hu
  · obtain ⟨⟨kind, name⟩, hk, rfl⟩ := Option.map_eq_some_iff.mp h
    exact kindMatch_name hk

/-- A text without blanks, such as a package name. -/
def Solid (t : Text) : Prop := ∀ c ∈ t, isSpace c = false

theorem mem_dotted {parts : List Text} {c : Char} (h : c ∈ dotted parts) : c = '.' ∨ ∃ p ∈ parts, c ∈ p := by
  unfold dotted at h
  generalize hf : parts.filter (fun p => !p.isEmpty) = ps at h
  have sub : ∀ p ∈ ps, p ∈ parts := fun p member => (List.mem_filter.mp (hf ▸ member)).1
  clear hf
  induction ps with
  | nil => simp at h
  | cons p ps ih =>
    by_cases hps : ps = []
    · subst hps
      rw [List.intercalate_singleton] at h
      exact .inr ⟨p, sub p List.mem_cons_self, h⟩
    · rw [List.intercalate_cons_of_ne_nil hps, List.mem_append, List.mem_append] at h
      rcases h with (h | h) | h
      · exact .inr ⟨p, sub p List.mem_cons_self, h⟩
      · exact .inl (List.mem_singleton.mp h)
      · exact ih h fun q member => sub q (List.mem_cons_of_mem _ member)

theorem solid_dotted {parts : List Text} (h : ∀ p ∈ parts, Solid p) : Solid (dotted parts) := by
  intro c member
  rcases mem_dotted member with rfl | ⟨p, hp, hc⟩
  · decide
  · exact h p hp c hc

theorem dotted_ne_nil {parts : List Text} {p : Text} (hp : p ∈ parts) (hne : p ≠ []) : dotted parts ≠ [] := by
  unfold dotted
  have member : p ∈ parts.filter fun p => !p.isEmpty := List.mem_filter.mpr ⟨hp, by simpa using hne⟩
  generalize parts.filter (fun p => !p.isEmpty) = ps at member
  induction ps with
  | nil => cases member
  | cons q ps ih =>
    by_cases hps : ps = []
    · subst hps
      rw [List.mem_singleton.mp member] at hne
      rwa [List.intercalate_singleton]
    · rw [List.intercalate_cons_of_ne_nil hps]
      simp

theorem solid_of_isWord {t : Text} (h : ∀ c ∈ t, isWord c = true) : Solid t :=
  fun c member => not_isSpace_of_isWord (h c member)

theorem solid_searchPackage (lineStart : Bool) (t : Text) : Solid ((searchPackage lineStart t).getD []) := by
  induction t generalizing lineStart with
  | nil => exact fun c member => absurd member List.not_mem_nil
  | cons c t ih =>
    rw [searchPackage]
    split
    · rename_i name rest found
      split at found
      · obtain ⟨-, -, -, -, -, -, -, -, -, hname, -⟩ := clauseMatch_spec found
        intro d member
        have hd := hname d member
        rw [Bool.or_eq_true] at hd
        rcases hd with hd | hd
        · exact not_isSpace_of_isWord hd
        · rw [eq_of_beq hd]
          decide
      · cases found
    · exact ih _

/-! ### What the parser records -/

/-- The texts of the statements among some items. -/
def stmtTexts (items : List Item) : List Text :=
  items.filterMap fun
    | .stmt text => some text
    | .decl _ _ => none

/-- The members that a body gives to a type: the values of an enum, the normal forms of other statements. -/
def MembersOf (kind : Kind) (body : Text) (members : List Text) : Prop :=
  (kind = .enum ∧ parseEnumBody body = .ok members) ∨
    (kind ≠ .enum ∧ members = (stmtTexts (splitStatements body)).map normalize)

theorem parseItems_members {package outer : Text} {items : List Item} {members : List Text}
    {nested : List (Text × TypeDecl)} (h : parseItems package outer items = .ok (members, nested)) :
    members = (stmtTexts items).map normalize := by
  induction items generalizing members nested with
  | nil =>
    rw [parseItems] at h
    cases h
    rfl
  | cons item items ih =>
    cases item with
    | stmt text =>
      rw [parseItems] at h
      obtain ⟨⟨ms, ns⟩, found, h⟩ := bind_eq_ok.mp h
      cases h
      rw [ih found]
      rfl
    | decl header body =>
      rw [parseItems] at h
      obtain ⟨inner, -, h⟩ := bind_eq_ok.mp h
      obtain ⟨⟨ms, ns⟩, found, h⟩ := bind_eq_ok.mp h
      cases h
      exact ih found

/-- A property of every type that a declaration records, nested types included. The bodies meet a condition
    that passes on to the items of a body. -/
theorem parseType_forall {P : Text × TypeDecl → Prop} {Q : Text → Prop} {package : Text}
    (pass : ∀ body, Q body → ∀ header inner, Item.decl header inner ∈ splitStatements body → Q inner)
    (entry : ∀ header body outer head members, declMatch ((takeAnnotations header).2 ++ " \x7b".toList) = some head →
      Solid outer → Q body → MembersOf head.kind body members →
      P (dotted [package, outer, head.name], ⟨head.kind, head.oneway, sorted (takeAnnotations header).1, members⟩))
    {header body outer : Text} {ds : List (Text × TypeDecl)} (h : parseType package header body outer = .ok ds)
    (houter : Solid outer) (hbody : Q body) : ∀ e ∈ ds, P e := by
  have both := parseType.mutual_induct package
    (fun header body outer => ∀ ds, parseType package header body outer = .ok ds → Solid outer → Q body → ∀ e ∈ ds, P e)
    (fun outer items => ∀ members nested, parseItems package outer items = .ok (members, nested) → Solid outer →
      (∀ header inner, Item.decl header inner ∈ items → Q inner) → ∀ e ∈ nested, P e)
    ?_ ?_ ?_ ?_ ?_ ?_
  · exact both.1 header body outer ds h houter hbody
  · intro header body outer anns rest take unread ds h _ _
    rw [parseType, take] at h
    simp only [unread] at h
    cases h
    simp
  · intro header body outer anns rest take head read enum ds h ho hb
    rw [parseType, take] at h
    simp only [read, if_pos enum] at h
    obtain ⟨members, values, h⟩ := bind_eq_ok.mp h
    cases h
    intro e member
    rw [List.mem_singleton.mp member]
    have := entry header body outer head members (by rw [take]; exact read) ho hb (.inl ⟨enum, values⟩)
    rwa [take] at this
  · intro header body outer anns rest take head read other ih ds h ho hb
    rw [parseType, take] at h
    simp only [read, if_neg other] at h
    obtain ⟨⟨members, nested⟩, items, h⟩ := bind_eq_ok.mp h
    cases h
    have name := solid_of_isWord (declMatch_name read).2
    intro e member
    rcases List.mem_append.mp member with member | member
    · refine ih members nested items (solid_dotted fun p hp => ?_) (pass body hb) e member
      rcases List.mem_cons.mp hp with rfl | hp
      · exact ho
      · rw [List.mem_singleton.mp hp]
        exact name
    · rw [List.mem_singleton.mp member]
      have := entry header body outer head members (by rw [take]; exact read) ho hb
        (.inr ⟨other, parseItems_members items⟩)
      rwa [take] at this
  · intro outer members nested h _ _
    rw [parseItems] at h
    cases h
    simp
  · intro outer text items ih members nested h ho hq
    rw [parseItems] at h
    obtain ⟨⟨ms, ns⟩, found, h⟩ := bind_eq_ok.mp h
    cases h
    exact ih _ _ found ho fun header inner member => hq header inner (List.mem_cons_of_mem _ member)
  · intro outer header body items ihType ih members nested h ho hq
    rw [parseItems] at h
    obtain ⟨inner, hinner, h⟩ := bind_eq_ok.mp h
    obtain ⟨⟨ms, ns⟩, found, h⟩ := bind_eq_ok.mp h
    cases h
    intro e member
    rcases List.mem_append.mp member with member | member
    · exact ihType inner hinner ho (hq header body List.mem_cons_self) e member
    · exact ih _ _ found ho (fun header inner member => hq header inner (List.mem_cons_of_mem _ member)) e member

/-! ### The types of a file -/

theorem declared_forall {P : Text × TypeDecl → Prop} {Q : Text → Prop} {text : Text}
    (top : Q (removeImports true (stripComments text)))
    (pass : ∀ body, Q body → ∀ header inner, Item.decl header inner ∈ splitStatements body → Q inner)
    (entry : ∀ package header body outer head members,
      declMatch ((takeAnnotations header).2 ++ " \x7b".toList) = some head → Solid package → Solid outer → Q body →
      MembersOf head.kind body members →
      P (dotted [package, outer, head.name], ⟨head.kind, head.oneway, sorted (takeAnnotations header).1, members⟩))
    (forward : ∀ package text head, declMatch ((takeAnnotations text).2 ++ " ;".toList) = some head → Solid package →
      P (dotted [package, head.name], ⟨head.kind, false, sorted (takeAnnotations text).1, []⟩))
    {ds : List (Text × TypeDecl)} (h : declared text = .ok ds) : ∀ e ∈ ds, P e := by
  have hpackage : Solid ((searchPackage true (stripComments text)).getD []) := solid_searchPackage _ _
  obtain ⟨dss, hmap, rfl⟩ := map_eq_ok.mp h
  obtain ⟨all, rfl⟩ := (mapM_eq_ok []).mp hmap
  intro e member
  obtain ⟨es, hes, member⟩ := List.mem_flatten.mp member
  obtain ⟨item, hitem, rfl⟩ := List.mem_map.mp hes
  obtain ⟨found, hfound⟩ := all item hitem
  rw [hfound, okOr_ok] at member
  cases item with
  | decl header body =>
    have hbody := pass _ top header body hitem
    exact parseType_forall pass (fun header body outer head members read => entry _ header body outer head members read hpackage)
      hfound (fun c hc => absurd hc List.not_mem_nil) hbody e member
  | stmt text =>
    rw [parseTop] at hfound
    simp only at hfound
    split at hfound
    · cases hfound
      cases member
    · rename_i head read
      cases hfound
      rw [List.mem_singleton.mp member]
      exact forward _ text head read hpackage

/-- The declarations of the text of one file. -/
def declarations (text : Text) : List (Text × TypeDecl) := okOr [] (declared text)

theorem foldlM_parseAidl {texts : List Text} {start types : Types} :
    texts.foldlM (fun types t => parseAidl t types) start = .ok types ↔
      (∀ text ∈ texts, ∃ ds, declared text = .ok ds) ∧
        types = (texts.flatMap declarations).foldl (fun types d => types.set d.1 d.2) start := by
  induction texts generalizing start with
  | nil =>
    constructor
    · intro h
      cases h
      exact ⟨fun text member => absurd member List.not_mem_nil, rfl⟩
    · rintro ⟨-, rfl⟩
      rfl
  | cons text texts ih =>
    rw [List.foldlM_cons, bind_eq_ok, List.forall_mem_cons, List.flatMap_cons, List.foldl_append]
    constructor
    · rintro ⟨next, first, rest⟩
      obtain ⟨ds, read, rfl⟩ := map_eq_ok.mp first
      obtain ⟨all, rfl⟩ := ih.mp rest
      exact ⟨⟨⟨ds, read⟩, all⟩, by rw [declarations, read, okOr_ok]⟩
    · rintro ⟨⟨⟨ds, read⟩, all⟩, rfl⟩
      refine ⟨_, map_eq_ok.mpr ⟨ds, read, rfl⟩, ih.mpr ⟨all, ?_⟩⟩
      rw [declarations, read, okOr_ok]

/-- Reading the files in turn assigns their declarations in turn. -/
theorem parseAll_eq_ok {texts : List Text} {types : Types} :
    parseAll texts = .ok types ↔
      (∀ text ∈ texts, ∃ ds, declared text = .ok ds) ∧ types = Dict.ofPairs (texts.flatMap declarations) :=
  foldlM_parseAidl

theorem parseAll_get? {texts : List Text} {types : Types} (h : parseAll texts = .ok types) {q : Text} {t : TypeDecl}
    (hq : types.get? q = some t) : ∃ text ∈ texts, ∃ ds, declared text = .ok ds ∧ (q, t) ∈ ds := by
  obtain ⟨all, rfl⟩ := parseAll_eq_ok.mp h
  obtain ⟨text, member, among⟩ := List.mem_flatMap.mp (Dict.mem_of_get?_ofPairs hq)
  obtain ⟨ds, read⟩ := all text member
  rw [declarations, read, okOr_ok] at among
  exact ⟨text, member, ds, read, among⟩

/-! ### Headers survive -/

/-- The header of a recorded type. -/
structure HeaderKept (e : Text × TypeDecl) : Prop where
  readable : Readable e.1 e.2
  sorted : sorted e.2.annotations = e.2.annotations

theorem headerKept_of_parts {parts : List Text} {head : DeclHead} {t : TypeDecl} {header rest : Text}
    (solid : ∀ p ∈ parts, Solid p) (read : declMatch rest = some head) (name : head.name ∈ parts)
    (anns : t.annotations = Py.sorted (takeAnnotations header).1) : HeaderKept (dotted parts, t) := by
  refine ⟨⟨⟨dotted_ne_nil name (declMatch_name read).1, solid_dotted solid⟩, fun a member => ?_⟩, ?_⟩
  · rw [anns] at member
    exact takeAnnotationsFrom_text _ a (mem_sorted.mp member)
  · rw [anns, sorted_sorted]

theorem declared_headerKept {text : Text} {ds : List (Text × TypeDecl)} (h : declared text = .ok ds) :
    ∀ e ∈ ds, HeaderKept e := by
  refine declared_forall (Q := fun _ => True) trivial (fun _ _ _ _ _ => trivial) ?_ ?_ h
  · intro package header body outer head members read hp ho _ _
    refine headerKept_of_parts (fun p hmem => ?_) read (by simp) rfl
    simp only [List.mem_cons, List.not_mem_nil, or_false] at hmem
    rcases hmem with rfl | rfl | rfl
    · exact hp
    · exact ho
    · exact solid_of_isWord (declMatch_name read).2
  · intro package text head read hp
    refine headerKept_of_parts (fun p hmem => ?_) read (by simp) rfl
    simp only [List.mem_cons, List.not_mem_nil, or_false] at hmem
    rcases hmem with rfl | rfl
    · exact hp
    · exact solid_of_isWord (declMatch_name read).2

/-! ### Statements are clean lines -/

/-- The literals of a source outside its comments, as the scanners read them, hold no line break. -/
def LiteralsSingle (text : Text) : Prop := Within litSingle .code (stripComments text)

instance (text : Text) : Decidable (LiteralsSingle text) := inferInstanceAs (Decidable (Within _ _ _))

theorem mem_stmtTexts {items : List Item} {s : Text} : s ∈ stmtTexts items ↔ Item.stmt s ∈ items := by
  unfold stmtTexts
  rw [List.mem_filterMap]
  constructor
  · rintro ⟨item, member, eq⟩
    cases item with
    | stmt text => exact Option.some.inj eq ▸ member
    | decl header body => cases eq
  · exact fun member => ⟨_, member, rfl⟩

theorem stmt_flushStmt {buf s : Text} (h : Item.stmt s ∈ flushStmt buf) : Stripped s ∧ s ≠ [] := by
  unfold flushStmt at h
  split at h
  · cases h
  · rename_i hne
    cases List.mem_singleton.mp h
    exact ⟨stripped_strip buf, hne⟩

theorem stmt_splitFrom {buf t s : Text} (h : Item.stmt s ∈ splitFrom buf t) : Stripped s ∧ s ≠ [] := by
  fun_induction splitFrom buf t with
  | case1 buf => exact stmt_flushStmt h
  | case2 buf u ih => exact ih h
  | case3 buf u ih =>
    rcases List.mem_cons.mp h with eq | h
    · cases eq
    · exact ih h
  | case4 buf u ih =>
    rcases List.mem_append.mp h with h | h
    · exact stmt_flushStmt h
    · exact ih h
  | case5 buf c u _ _ _ ih => exact ih h

theorem cleanLine_normalize {s : Text} (hs : Stripped s) (hne : s ≠ []) (h : Within litSingle .code s) :
    CleanLine (normalize s) :=
  ⟨fun e => hne (hs.symm.trans (normalize_eq_nil_iff.mp e)), stripped_strip _, normalize_single h⟩

theorem declared_clean {text : Text} (single : LiteralsSingle text) {ds : List (Text × TypeDecl)}
    (h : declared text = .ok ds) : ∀ e ∈ ds, e.2.kind ≠ .enum → ∀ m ∈ e.2.members, CleanLine m := by
  refine declared_forall (Q := Within litSingle .code) (within_removeImports single fun _ => rfl) ?_ ?_ ?_ h
  · exact fun body hb header inner member => within_splitStatements hb _ member
  · intro package header body outer head members _ _ _ hb hmembers other m hm
    rcases hmembers with ⟨enum, -⟩ | ⟨-, rfl⟩
    · exact absurd enum other
    · obtain ⟨s, hs, rfl⟩ := List.mem_map.mp hm
      have hitem := mem_stmtTexts.mp hs
      obtain ⟨stripped, hne⟩ := stmt_splitFrom hitem
      exact cleanLine_normalize stripped hne (within_splitStatements hb _ hitem)
  · intro package text head _ _ _ m hm
    cases hm

/-- The dump of the types of some sources is read back iff every member line is clean. When the literals of the
    sources are single lines, only the lines of enums can fail to be. -/
theorem readBack_parseAll_iff {texts : List Text} {types : Types} (h : parseAll texts = .ok types) :
    ((∃ types', parseDump (dumpTypes types) = .ok types' ∧ types'.Same types) ↔ LinesClean types) ∧
    ((∀ t ∈ texts, LiteralsSingle t) →
      (LinesClean types ↔ ∀ q t, types.get? q = some t → t.kind = .enum → ∀ m ∈ t.members, CleanLine m)) := by
  have kept : ∀ q t, types.get? q = some t → HeaderKept (q, t) := by
    intro q t hq
    obtain ⟨text, -, ds, hds, member⟩ := parseAll_get? h hq
    exact declared_headerKept hds _ member
  refine ⟨readBack_iff (fun q t hq => (kept q t hq).readable) (fun q t hq => (kept q t hq).sorted), fun single => ?_⟩
  constructor
  · exact fun clean q t hq _ => clean q t hq
  · intro enums q t hq
    by_cases enum : t.kind = .enum
    · exact enums q t hq enum
    · obtain ⟨text, htext, ds, hds, member⟩ := parseAll_get? h hq
      exact declared_clean (single text htext) hds _ member enum

/-- A char literal with a quote opens a literal that runs over the line, and a comma inside a literal of an enum
    value cuts it: neither dump is read back. -/
theorem readBack_fails :
    let quote := "interface I \x7b\n    const char C = '\"';\n    const String S = \"x\";\n\x7d\n".toList
    let comma := "enum E \x7b A = \"x,= y\" \x7d".toList
    (∃ types, parseAll [quote] = .ok types ∧ ∀ types', parseDump (dumpTypes types) = .ok types' → ¬types'.Same types) ∧
      LiteralsSingle comma ∧
      ∃ types, parseAll [comma] = .ok types ∧ ∀ types', parseDump (dumpTypes types) = .ok types' → ¬types'.Same types := by
  intro quote comma
  refine ⟨⟨Dict.ofPairs [("I".toList, ⟨.interface, false, [],
    ["const char C = '\"';\n    const String S = \"x\";\n\x7d".toList]⟩)], by decide +kernel, fun types' h => ?_⟩,
    by decide +kernel,
    ⟨Dict.ofPairs [("E".toList, ⟨.enum, false, [], ["A = \"x".toList, " = y\"".toList]⟩)], by decide +kernel,
      fun types' h same => ?_⟩⟩
  · have raised : parseDump (dumpTypes (Dict.ofPairs [("I".toList, ⟨.interface, false, [],
        ["const char C = '\"';\n    const String S = \"x\";\n\x7d".toList]⟩)])) = .error (.headerLine "\x7d".toList) := by
      decide +kernel
    rw [raised] at h
    cases h
  · have read : parseDump (dumpTypes (Dict.ofPairs [("E".toList, ⟨.enum, false, [],
        ["A = \"x".toList, " = y\"".toList]⟩)])) =
        .ok (Dict.ofPairs [("E".toList, ⟨.enum, false, [], ["A = \"x".toList, "= y\"".toList]⟩)]) := by
      decide +kernel
    rw [read] at h
    cases h
    exact absurd (same "E".toList) (by decide +kernel)

/-- A source with two types is read back from its dump. -/
theorem readBack_two_types :
    let text := "package p;\ninterface I \x7b const String S = \"a;b\"; void f(in String s , int x); \x7d\nenum E \x7b A, B = 4, C \x7d".toList
    ∃ types types', parseAll [text] = .ok types ∧ parseDump (dumpTypes types) = .ok types' ∧ types'.Same types := by
  intro text
  have parsed : parseAll [text] = .ok (Dict.ofPairs [
      ("p.I".toList, ⟨.interface, false, [], ["const String S = \"a;b\"".toList, "void f(in String s, int x)".toList]⟩),
      ("p.E".toList, ⟨.enum, false, [], ["A = 0".toList, "B = 4".toList, "C = 5".toList]⟩)]) := by decide +kernel
  obtain ⟨back, enums⟩ := readBack_parseAll_iff parsed
  obtain ⟨types', h⟩ := back.mpr ((enums (by decide +kernel)).mpr (by decide +kernel))
  exact ⟨_, types', parsed, h⟩

end BinderIdl.Surface
