import BinderIdl.Theorems.Contract
import BinderIdl.Theorems.RoundTrip

/-! Wire values of enums. A dump line holds the value of an enumerator, its expression, or, behind an expression
    that is not a literal, the name alone. The value of an enumerator of the last kind can change without a change
    of its line. -/

namespace BinderIdl.Surface
open Py Lex

/-! ### Enumerators and their values -/

/-- An enumerator of a source: its name and the expression given to it. -/
structure Enumerator where
  name : Text
  expr : Option Text
deriving DecidableEq, Repr

/-- One piece of an enum body between commas. -/
def readPiece (piece : Text) : Option Enumerator :=
  if strip piece = [] then none
  else if '=' ∈ strip piece then
    some ⟨strip (partition '=' (strip piece)).1, some (strip (partition '=' (strip piece)).2)⟩
  else some ⟨strip piece, none⟩

/-- The enumerators of an enum body. -/
def enumerators (body : Text) : List Enumerator := (body.splitOn ',').filterMap readPiece

/-- What is known of the value of an enumerator without evaluating expressions. -/
inductive Shape where
  | known (k : Int)
  | expr (e : Text)
  | floating
deriving DecidableEq, Repr

/-- The shape of an enumerator without a value. -/
def Shape.next : Option Int → Shape
  | some k => .known (k + 1)
  | none => .floating

/-- An enumerator with its shape and its value. -/
structure Valued where
  name : Text
  shape : Shape
  value : Int
deriving DecidableEq, Repr

/-- The values of enumerators by the rule of the language: the given value, else one more than the previous one.
    `known` is the previous value as far as it is known from literals, `last` the previous value. Expressions
    that are not literals have the value that `ρ` gives to their normal form. -/
def walk (ρ : Text → Int) (known : Option Int) (last : Int) : List Enumerator → List Valued
  | [] => []
  | ⟨name, some e⟩ :: es =>
    if isIntLiteral e then
      ⟨name, .known (okOr 0 (parseInt e)), okOr 0 (parseInt e)⟩ ::
        walk ρ (some (okOr 0 (parseInt e))) (okOr 0 (parseInt e)) es
    else ⟨name, .expr (normalize e), ρ (normalize e)⟩ :: walk ρ none (ρ (normalize e)) es
  | ⟨name, none⟩ :: es =>
    ⟨name, Shape.next known, last + 1⟩ :: walk ρ (known.map (· + 1)) (last + 1) es

/-- The valued enumerators of a body; the first implicit value is zero. -/
def valued (ρ : Text → Int) (body : Text) : List Valued := walk ρ (some (-1)) (-1) (enumerators body)

/-- An enum body of the language: identifiers, each with at most one expression, which is not empty and holds no
    string literal; the identifiers are distinct. -/
structure EnumBody (body : Text) : Prop where
  names : ∀ e ∈ enumerators body, e.name ≠ [] ∧ ∀ c ∈ e.name, isWord c = true
  exprs : ∀ e ∈ enumerators body, ∀ x, e.expr = some x → x ≠ [] ∧ '"' ∉ x
  distinct : ((enumerators body).map Enumerator.name).Nodup

/-- Some enumerator that both bodies have has two values. -/
def ValueChanged (ρ : Text → Int) (old new : Text) : Prop :=
  ∃ v ∈ valued ρ old, ∃ w ∈ valued ρ new, v.name = w.name ∧ v.value ≠ w.value

/-- Every old enumerator is there with its shape, but one of them is floating, with another value. -/
def ValueShifted (ρ : Text → Int) (old new : Text) : Prop :=
  (∀ v ∈ valued ρ old, ∃ w ∈ valued ρ new, v.name = w.name ∧ v.shape = w.shape) ∧
    ∃ v ∈ valued ρ old, ∃ w ∈ valued ρ new, v.name = w.name ∧ v.shape = .floating ∧ v.value ≠ w.value

instance (body : Text) : Decidable (EnumBody body) :=
  decidable_of_iff ((∀ e ∈ enumerators body, e.name ≠ [] ∧ e.name.all isWord = true) ∧
      (∀ e ∈ enumerators body, ∀ x ∈ e.expr.toList, x ≠ [] ∧ '"' ∉ x) ∧ ((enumerators body).map Enumerator.name).Nodup)
    ⟨fun ⟨h₁, h₂, h₃⟩ => ⟨fun e he => ⟨(h₁ e he).1, List.all_eq_true.mp (h₁ e he).2⟩,
        fun e he x hx => h₂ e he x (Option.mem_toList.mpr hx), h₃⟩,
      fun ⟨h₁, h₂, h₃⟩ => ⟨fun e he => ⟨(h₁ e he).1, List.all_eq_true.mpr (h₁ e he).2⟩,
        fun e he x hx => h₂ e he x (Option.mem_toList.mp hx), h₃⟩⟩

instance (ρ : Text → Int) (old new : Text) : Decidable (ValueChanged ρ old new) :=
  inferInstanceAs (Decidable (∃ v ∈ valued ρ old, ∃ w ∈ valued ρ new, v.name = w.name ∧ v.value ≠ w.value))

instance (ρ : Text → Int) (old new : Text) : Decidable (ValueShifted ρ old new) :=
  inferInstanceAs (Decidable ((∀ v ∈ valued ρ old, ∃ w ∈ valued ρ new, v.name = w.name ∧ v.shape = w.shape) ∧
    ∃ v ∈ valued ρ old, ∃ w ∈ valued ρ new, v.name = w.name ∧ v.shape = .floating ∧ v.value ≠ w.value))

/-! ### The lines of the dump -/

/-- The dump line of an enumerator. -/
def Valued.line (v : Valued) : Text :=
  match v.shape with
  | .known k => enumLine v.name (ofInt k)
  | .expr e => enumLine v.name e
  | .floating => v.name

theorem walk_lines (ρ : Text → Int) {prev : Option Int} {last : Int} {pieces : List Text} {members : List Text}
    (h : parseEnumValues prev pieces = .ok members) :
    members = (walk ρ prev last (pieces.filterMap readPiece)).map Valued.line := by
  induction pieces generalizing prev last members with
  | nil =>
    cases h
    rfl
  | cons v vs ih =>
    unfold parseEnumValues at h
    simp only at h
    by_cases blank : strip v = []
    · rw [if_pos blank] at h
      rw [List.filterMap_cons_none (by simp [readPiece, blank])]
      exact ih h
    · rw [if_neg blank] at h
      by_cases given : '=' ∈ strip v
      · rw [if_pos given] at h
        rw [List.filterMap_cons_some (by simp only [readPiece, if_neg blank, if_pos given]; rfl), walk]
        by_cases int : isIntLiteral (strip (partition '=' (strip v)).2) = true
        · rw [if_pos int] at h
          obtain ⟨k, hk, h⟩ := bind_eq_ok.mp h
          obtain ⟨ms, hms, h⟩ := bind_eq_ok.mp h
          cases h
          rw [if_pos int, hk, okOr_ok, List.map_cons, ← ih hms]
          rfl
        · rw [if_neg int] at h
          obtain ⟨ms, hms, h⟩ := bind_eq_ok.mp h
          cases h
          rw [if_neg int, List.map_cons, ← ih hms]
          rfl
      · rw [if_neg given] at h
        obtain ⟨ms, hms, h⟩ := bind_eq_ok.mp h
        cases h
        rw [List.filterMap_cons_some (by simp only [readPiece, if_neg blank, if_neg given]; rfl), walk, List.map_cons,
          ← ih hms]
        cases prev <;> rfl

theorem parseEnumBody_lines (ρ : Text → Int) {body : Text} {members : List Text} (h : parseEnumBody body = .ok members) :
    members = (valued ρ body).map Valued.line :=
  walk_lines ρ h

/-! ### Shapes and values -/

theorem walk_known {ρ : Text → Int} {known : Option Int} {last : Int} {es : List Enumerator}
    (agree : ∀ k, known = some k → last = k) :
    ∀ v ∈ walk ρ known last es, (∀ k, v.shape = .known k → v.value = k) ∧ (∀ e, v.shape = .expr e → v.value = ρ e) := by
  induction es generalizing known last with
  | nil => simp [walk]
  | cons e es ih =>
    obtain ⟨name, expr⟩ := e
    intro v member
    cases expr with
    | some e =>
      rw [walk] at member
      by_cases int : isIntLiteral e = true
      · rw [if_pos int] at member
        rcases List.mem_cons.mp member with rfl | member
        · exact ⟨fun k hk => Shape.known.inj hk, fun e he => by cases he⟩
        · exact ih (fun k hk => Option.some.inj hk) v member
      · rw [if_neg int] at member
        rcases List.mem_cons.mp member with rfl | member
        · exact ⟨fun k hk => (by cases hk), fun e he => by rw [Shape.expr.inj he]⟩
        · exact ih (fun k hk => by cases hk) v member
    | none =>
      rw [walk] at member
      rcases List.mem_cons.mp member with rfl | member
      · cases known with
        | none => exact ⟨fun k hk => (by cases hk), fun e he => by cases he⟩
        | some j =>
          refine ⟨fun k hk => ?_, fun e he => by cases he⟩
          rw [← Shape.known.inj hk, agree j rfl]
      · refine ih (fun k hk => ?_) v member
        obtain ⟨j, hj, rfl⟩ := Option.map_eq_some_iff.mp hk
        rw [agree j hj]

theorem walk_names (ρ : Text → Int) (known : Option Int) (last : Int) (es : List Enumerator) :
    (walk ρ known last es).map Valued.name = es.map Enumerator.name := by
  induction es generalizing known last with
  | nil => rfl
  | cons e es ih =>
    obtain ⟨name, expr⟩ := e
    cases expr with
    | some e =>
      rw [walk]
      split <;> rw [List.map_cons, ih, List.map_cons]
    | none => rw [walk, List.map_cons, ih, List.map_cons]

theorem walk_expr {ρ : Text → Int} {known : Option Int} {last : Int} {es : List Enumerator} {v : Valued}
    (member : v ∈ walk ρ known last es) {e : Text} (he : v.shape = .expr e) :
    ∃ en ∈ es, ∃ x, en.expr = some x ∧ isIntLiteral x = false ∧ e = normalize x := by
  induction es generalizing known last with
  | nil => cases member
  | cons en es ih =>
    obtain ⟨name, expr⟩ := en
    have later : ∀ {known' last'}, v ∈ walk ρ known' last' es →
        ∃ en ∈ ⟨name, expr⟩ :: es, ∃ x, en.expr = some x ∧ isIntLiteral x = false ∧ e = normalize x := by
      intro known' last' member
      obtain ⟨en, hen, found⟩ := ih member
      exact ⟨en, List.mem_cons_of_mem _ hen, found⟩
    cases expr with
    | some x =>
      rw [walk] at member
      by_cases int : isIntLiteral x = true
      · rw [if_pos int] at member
        rcases List.mem_cons.mp member with rfl | member
        · cases he
        · exact later member
      · rw [if_neg int] at member
        rcases List.mem_cons.mp member with rfl | member
        · exact ⟨_, List.mem_cons_self, x, rfl, by simpa using int, (Shape.expr.inj he).symm⟩
        · exact later member
    | none =>
      rw [walk] at member
      rcases List.mem_cons.mp member with rfl | member
      · cases known <;> cases he
      · exact later member

/-! ### A literal in normal form is a literal -/

theorem isIntLiteral_ofInt (k : Int) : isIntLiteral (ofInt k) = true := by
  obtain ⟨ds, hne, digits, eq⟩ := ofInt_eq k
  have split : (signSplit (ofInt k)).2 = ds := by
    rcases eq with eq | eq
    · rw [eq]
      cases ds with
      | nil => exact absurd rfl hne
      | cons d ds =>
        have digit := digits d List.mem_cons_self
        unfold signSplit
        split
        · rename_i sign
          rw [(List.cons.inj sign).1] at digit
          exact absurd digit (by decide)
        · rename_i sign
          rw [(List.cons.inj sign).1] at digit
          exact absurd digit (by decide)
        · rfl
    · rw [eq]
      rfl
  unfold isIntLiteral
  simp only [split]
  have all : ds.all isDigit = true := List.all_eq_true.mpr fun c member => isDigit_of_ascii (digits c member)
  simp [all, hne]

theorem normalizeFrom_code {buf t : Text} (h : '"' ∉ t) : normalizeFrom buf t = flush (buf ++ t) := by
  induction t generalizing buf with
  | nil => rw [normalizeFrom, List.append_nil]
  | cons c t ih =>
    have hc : c ≠ '"' := fun e => h (e ▸ List.mem_cons_self)
    rw [normalizeFrom]
    · rw [ih fun member => h (List.mem_cons_of_mem _ member), List.append_assoc, List.singleton_append]
    · exact fun e => hc e

theorem tighten_of_no_punct {t : Text} (h : ∀ c ∈ t, isPunct c = false) : tighten t = t := by
  fun_induction tighten t with
  | case1 => rfl
  | case2 c u _ ih => rw [ih fun d member => h d (List.mem_cons_of_mem _ member)]
  | case3 c u p v drop punct ih =>
    have member : p ∈ c :: u := (List.dropWhile_suffix isSpace).subset (drop ▸ List.mem_cons_self)
    rw [h p member] at punct
    cases punct
  | case4 c u p v _ _ ih => rw [ih fun d member => h d (List.mem_cons_of_mem _ member)]

theorem replaceChar_of_not_mem {c : Char} {r t : Text} (h : c ∉ t) : replaceChar c r t = t := by
  induction t with
  | nil => rfl
  | cons d t ih =>
    have hd : d ≠ c := fun e => h (e ▸ List.mem_cons_self)
    rw [replaceChar, List.flatMap_cons, if_neg hd, ← replaceChar, ih fun member => h (List.mem_cons_of_mem _ member)]
    rfl

theorem spaceAfterBracket_of_not_mem {t : Text} (h : ']' ∉ t) : spaceAfterBracket t = t := by
  fun_induction spaceAfterBracket t with
  | case1 => rfl
  | case2 c t _ ih => exact absurd List.mem_cons_self h
  | case3 c t _ ih => exact absurd List.mem_cons_self h
  | case4 c t _ ih => rw [ih fun member => h (List.mem_cons_of_mem _ member)]

theorem normalize_of_no_punct {t : Text} (punct : ∀ c ∈ t, isPunct c = false) (quote : '"' ∉ t) :
    normalize t = strip (collapse t) := by
  have inner : ∀ c ∈ collapse t, isPunct c = false := by
    intro c member
    rcases collapse_blank t c member with rfl | solid
    · decide
    · have : c ∈ dropSpaces (collapse t) := List.mem_filter.mpr ⟨member, by simp [solid]⟩
      rw [dropSpaces_collapse] at this
      exact punct c (List.mem_filter.mp this).1
  have absent : ∀ {c}, isPunct c = true → c ∉ collapse t := fun {c} hc member => by
    rw [inner c member] at hc
    cases hc
  rw [normalize, normalizeFrom_code quote, List.nil_append, flush, tighten_of_no_punct inner,
    replaceChar_of_not_mem (absent (by decide)), replaceChar_of_not_mem (absent (by decide)),
    spaceAfterBracket_of_not_mem (absent (by decide))]

theorem collapse_nil : collapse [] = [] := by
  unfold collapse
  rfl

theorem collapse_cons (c : Char) (u : Text) :
    collapse (c :: u) = if isSpace c then ' ' :: collapse (u.dropWhile isSpace) else c :: collapse u := by
  conv_lhs => unfold collapse

theorem collapse_append_solid {c : Char} (hc : isSpace c = false) (t : Text) : collapse (t ++ [c]) = collapse t ++ [c] := by
  fun_induction collapse t with
  | case1 => simp [collapse_nil, collapse_cons, hc]
  | case2 d u hd ih =>
    rw [List.cons_append, collapse_cons, if_pos hd, List.cons_append]
    have drop : (u ++ [c]).dropWhile isSpace = u.dropWhile isSpace ++ [c] := by
      by_cases hne : u.dropWhile isSpace = []
      · rw [hne, dropWhile_append_cons (List.dropWhile_eq_nil_iff.mp hne) hc]
        rfl
      · exact dropWhile_append_of_ne_nil hne _
    rw [drop, ih]
  | case3 d u hd ih => rw [List.cons_append, collapse_cons, if_neg hd, List.cons_append, ih]

theorem collapse_stripped {t : Text} (h : Stripped t) : Stripped (collapse t) := by
  cases t with
  | nil =>
    rw [collapse_nil]
    exact h
  | cons c u =>
    have hne : c :: u ≠ [] := List.cons_ne_nil _ _
    have first : isSpace c = false := h.head hne
    have last := h.getLast hne
    have front : collapse (c :: u) = c :: collapse u := by rw [collapse_cons, if_neg (by simp [first])]
    have back := collapse_append_solid last (c :: u).dropLast
    rw [List.dropLast_append_getLast] at back
    refine stripped_of_ends (by rw [front]; simp) ?_ ?_
    · simpa only [front, List.head_cons] using first
    · simpa only [back, List.getLast_append_singleton] using last

theorem blank_mem_collapse {t : Text} {c : Char} (hc : isSpace c = true) (member : c ∈ t) : ' ' ∈ collapse t := by
  fun_induction collapse t with
  | case1 => cases member
  | case2 d u _ ih => exact List.mem_cons_self
  | case3 d u hd ih =>
    rcases List.mem_cons.mp member with rfl | member
    · exact absurd hc hd
    · exact List.mem_cons_of_mem _ (ih member)

theorem eq_ofInt_of_normalize {x : Text} (hx : Stripped x) {k : Int} (h : normalize x = ofInt k) : x = ofInt k := by
  have chars : dropSpaces x = ofInt k := by
    rw [← dropSpaces_normalize, h]
    exact dropSpaces_eq_self fun c member => ofInt_solid member
  have solid : ∀ c ∈ x, isSpace c = true ∨ c = '-' ∨ c.isDigit = true := by
    intro c member
    by_cases hs : isSpace c = true
    · exact .inl hs
    · have : c ∈ dropSpaces x := List.mem_filter.mpr ⟨member, by simpa using hs⟩
      exact .inr (mem_ofInt (chars ▸ this))
  have special : ∀ c, isPunct c = true ∨ c = '"' → ¬(isSpace c = true ∨ c = '-' ∨ c.isDigit = true) := by
    intro c hc
    simp only [isPunct, List.mem_cons, List.not_mem_nil, or_false, decide_eq_true_eq] at hc
    rcases hc with (rfl | rfl | rfl | rfl | rfl | rfl | rfl) | rfl <;> decide
  have punct : ∀ c ∈ x, isPunct c = false := by
    intro c member
    cases hp : isPunct c
    · rfl
    · exact absurd (solid c member) (special c (.inl hp))
  have quote : '"' ∉ x := fun member => special '"' (.inr rfl) (solid _ member)
  have plain : normalize x = collapse x := (normalize_of_no_punct punct quote).trans (collapse_stripped hx)
  by_cases blank : ∃ c ∈ x, isSpace c = true
  · obtain ⟨c, member, hc⟩ := blank
    have := blank_mem_collapse hc member
    rw [← plain, h] at this
    exact absurd (ofInt_solid this) (by decide)
  · rw [← chars, dropSpaces_eq_self]
    exact fun c member => by
      simpa using fun hs => blank ⟨c, member, hs⟩

/-! ### The lines of well-formed enumerators -/

/-- An enumerator of a well-formed body. -/
structure Valued.Fits (v : Valued) : Prop where
  name : IsWord v.name
  letters : ∀ c ∈ v.name, Py.isWord c = true
  expr : ∀ e, v.shape = .expr e → ∃ x, Stripped x ∧ x ≠ [] ∧ '"' ∉ x ∧ isIntLiteral x = false ∧ e = normalize x

theorem enumerators_stripped {body : Text} {en : Enumerator} (h : en ∈ enumerators body) {x : Text}
    (hx : en.expr = some x) : Stripped x := by
  obtain ⟨piece, -, read⟩ := List.mem_filterMap.mp h
  unfold readPiece at read
  split at read
  · cases read
  · split at read
    · cases read
      cases hx
      exact stripped_strip _
    · cases read
      cases hx

theorem EnumBody.fits {body : Text} (h : EnumBody body) (ρ : Text → Int) : ∀ v ∈ valued ρ body, v.Fits := by
  intro v member
  have named : v.name ∈ (enumerators body).map Enumerator.name := by
    rw [← walk_names ρ (some (-1)) (-1)]
    exact List.mem_map_of_mem member
  obtain ⟨en, hen, eq⟩ := List.mem_map.mp named
  obtain ⟨hne, letters⟩ := h.names en hen
  rw [eq] at hne letters
  refine ⟨⟨hne, fun c hc => not_isSpace_of_isWord (letters c hc)⟩, letters, fun e he => ?_⟩
  obtain ⟨en, hen, x, hx, symbolic, rfl⟩ := walk_expr member he
  exact ⟨x, enumerators_stripped hen hx, (h.exprs en hen x hx).1, (h.exprs en hen x hx).2, symbolic, rfl⟩

theorem EnumBody.nodup {body : Text} (h : EnumBody body) (ρ : Text → Int) :
    ((valued ρ body).map Valued.name).Nodup := by
  rw [valued, walk_names]
  exact h.distinct

section Lines
variable {v w : Valued}

theorem lastWord_enumLine {n : Text} (isWord : IsWord n) (plain : '=' ∉ n) (value : Text) :
    lastWord (enumLine n value) = .ok n := by
  have before : ∀ c ∈ n ++ [' '], (c != '=') = true := by
    intro c member
    rcases List.mem_append.mp member with member | member
    · simpa using fun same : c = '=' => plain (same ▸ member)
    · rw [List.mem_singleton.mp member]
      decide
  have eq : enumLine n value = (n ++ [' ']) ++ '=' :: ' ' :: value := by simp [enumLine]
  rw [lastWord, eq, takeWhile_append_cons before (by decide), words_append_space isWord]
  exact congrArg _ isWord.stripped

theorem lastWord_name {n : Text} (isWord : IsWord n) (plain : '=' ∉ n) : lastWord n = .ok n := by
  have all : ∀ c ∈ n, (c != '=') = true := fun c member => by simpa using fun same : c = '=' => plain (same ▸ member)
  rw [lastWord, List.takeWhile_eq_self_iff.mpr all, words_of_isWord isWord]
  exact congrArg _ isWord.stripped

theorem cleanLine_enumLine {n : Text} (isWord : IsWord n) {value : Text} (clean : CleanLine value) :
    CleanLine (enumLine n value) := by
  have eq : enumLine n value = n ++ (" = ".toList ++ value) := by simp [enumLine]
  have hne : n ≠ [] := isWord.ne_nil
  refine ⟨by simp [eq, hne], stripped_of_ends (by simp [eq, hne]) ?_ ?_, fun c member => ?_⟩
  · simp only [eq, List.head_append_of_ne_nil hne]
    exact isWord.solid _ (List.head_mem hne)
  · simp only [enumLine]
    rw [List.getLast_append_of_ne_nil _ clean.ne_nil]
    exact clean.stripped.getLast clean.ne_nil
  · rw [eq] at member
    simp only [List.mem_append] at member
    rcases member with member | member | member
    · exact isLineBreak_of_not_isSpace (isWord.solid c member)
    · have equals : ∀ c ∈ " = ".toList, isLineBreak c = false := by simp [isLineBreak]
      exact equals c member
    · exact clean.single c member

theorem cleanLine_word {n : Text} (isWord : IsWord n) : CleanLine n :=
  ⟨isWord.ne_nil, isWord.stripped, fun c member => isLineBreak_of_not_isSpace (isWord.solid c member)⟩

theorem cleanLine_ofInt (k : Int) : CleanLine (ofInt k) :=
  cleanLine_word ⟨ofInt_ne_nil k, fun _ member => ofInt_solid member⟩

theorem lastWord_line (h : v.Fits) : lastWord v.line = .ok v.name := by
  have plain : '=' ∉ v.name := fun member => absurd (h.letters _ member) (by decide)
  unfold Valued.line
  split
  · exact lastWord_enumLine h.name plain _
  · exact lastWord_enumLine h.name plain _
  · exact lastWord_name h.name plain

theorem cleanLine_line (h : v.Fits) : CleanLine v.line := by
  unfold Valued.line
  split
  · exact cleanLine_enumLine h.name (cleanLine_ofInt _)
  · rename_i e he
    obtain ⟨x, stripped, hne, quote, -, rfl⟩ := h.expr e he
    have code : Within litSingle .code x := (within_code fun c member => fun eq => quote (eq ▸ member)).mpr
      fun c _ inside => absurd rfl inside
    exact cleanLine_enumLine h.name (cleanLine_normalize stripped hne code)
  · exact cleanLine_word h.name

theorem line_inj (hv : v.Fits) (hw : w.Fits) : v.line = w.line ↔ v.name = w.name ∧ v.shape = w.shape := by
  constructor
  · intro eq
    have name : v.name = w.name := by
      have := lastWord_line hv
      rw [eq, lastWord_line hw] at this
      exact (Except.ok.inj this).symm
    refine ⟨name, ?_⟩
    have value : ∀ {a b : Text}, enumLine v.name a = enumLine w.name b → a = b := by
      intro a b h
      rw [name] at h
      exact List.append_cancel_left h
    have longer : ∀ a, enumLine v.name a ≠ w.name := by
      intro a h
      have := congrArg List.length h
      rw [name] at this
      simp [enumLine] at this
    have shorter : ∀ a, v.name ≠ enumLine w.name a := by
      intro a h
      have := congrArg List.length h
      rw [name] at this
      simp [enumLine] at this
    have literal : ∀ {e : Text} {k : Int} {u : Valued}, u.Fits → u.shape = .expr e → e ≠ ofInt k := by
      intro e k u hu he eq
      obtain ⟨x, stripped, -, -, symbolic, rfl⟩ := hu.expr e he
      rw [eq_ofInt_of_normalize stripped eq, isIntLiteral_ofInt] at symbolic
      cases symbolic
    unfold Valued.line at eq
    cases hs : v.shape with
    | known k =>
      cases ht : w.shape with
      | known j =>
        rw [hs, ht] at eq
        rw [ofInt_injective (value eq)]
      | expr e =>
        rw [hs, ht] at eq
        exact absurd (value eq).symm (literal hw ht)
      | floating =>
        rw [hs, ht] at eq
        exact absurd eq (longer _)
    | expr e =>
      cases ht : w.shape with
      | known j =>
        rw [hs, ht] at eq
        exact absurd (value eq) (literal hv hs)
      | expr e' =>
        rw [hs, ht] at eq
        rw [value eq]
      | floating =>
        rw [hs, ht] at eq
        exact absurd eq (longer _)
    | floating =>
      cases ht : w.shape with
      | known j =>
        rw [hs, ht] at eq
        exact absurd eq (shorter _)
      | expr e =>
        rw [hs, ht] at eq
        exact absurd eq (shorter _)
      | floating => rfl
  · rintro ⟨name, shape⟩
    rw [Valued.line, Valued.line, name, shape]

end Lines

/-! ### The two dumps -/

/-- The surface of one enum. -/
def enumSurface (q : Text) (oneway : Bool) (anns members : List Text) : Types :=
  Dict.ofPairs [(q, ⟨.enum, oneway, anns, members⟩)]

theorem get?_enumSurface {q k : Text} {oneway : Bool} {anns members : List Text} {t : TypeDecl} :
    (enumSurface q oneway anns members).get? k = some t ↔ k = q ∧ t = ⟨.enum, oneway, anns, members⟩ := by
  rw [enumSurface, Dict.get?_ofPairs, List.reverse_singleton, Dict.lookup_cons_eq]
  by_cases h : k = q
  · rw [if_pos h]
    exact ⟨fun e => ⟨h, (Option.some.inj e).symm⟩, fun e => by rw [e.2]⟩
  · rw [if_neg h]
    exact ⟨fun e => (by cases e), fun e => absurd e.1 h⟩

theorem declaredName_line {v : Valued} (h : v.Fits) : declaredName .enum v.line = v.name := by
  rw [declaredName, if_pos (.inl rfl), lastWord_line h, okOr_ok]

theorem nodup_declaredName {vs : List Valued} (fits : ∀ v ∈ vs, v.Fits) (distinct : (vs.map Valued.name).Nodup) :
    ((vs.map Valued.line).map (declaredName .enum)).Nodup := by
  have names : (vs.map Valued.line).map (declaredName .enum) = vs.map Valued.name := by
    rw [List.map_map]
    exact List.map_congr_left fun v member => declaredName_line (fits v member)
  rw [names]
  exact distinct

theorem wellFormed_enumSurface {q : Text} {oneway : Bool} {anns : List Text} {vs : List Valued} (hq : IsWord q)
    (ha : ∀ a ∈ anns, AnnotationText a) (fits : ∀ v ∈ vs, v.Fits) (distinct : (vs.map Valued.name).Nodup) :
    WellFormed (enumSurface q oneway anns (vs.map Valued.line)) := by
  refine ⟨fun k t ht => ?_, fun k t ht m hm => ?_, fun k t ht m hm => ?_, fun k t ht => ?_⟩ <;>
    obtain ⟨rfl, rfl⟩ := get?_enumSurface.mp ht
  · exact ⟨hq, ha⟩
  · obtain ⟨v, hv, rfl⟩ := List.mem_map.mp hm
    exact cleanLine_line (fits v hv)
  · obtain ⟨v, hv, rfl⟩ := List.mem_map.mp hm
    rw [declaredName_line (fits v hv)]
    exact (fits v hv).name.ne_nil
  · exact nodup_declaredName fits distinct

/-- The header of an enum changes at most by a stability promise. -/
structure EnumHeadKept (oldOneway newOneway : Bool) (oldAnns newAnns : List Text) : Prop where
  oneway : oldOneway = newOneway
  annotations : ∀ a ∈ oldAnns, a ∈ newAnns
  promise : ∀ a ∈ newAnns, a ∈ oldAnns ∨ a = vintfStability

theorem enumHeadKept_sorted {oldOneway newOneway : Bool} {oldAnns newAnns : List Text} :
    EnumHeadKept oldOneway newOneway (sorted oldAnns) (sorted newAnns) ↔
      EnumHeadKept oldOneway newOneway oldAnns newAnns := by
  constructor
  · rintro ⟨h₁, h₂, h₃⟩
    simp only [mem_sorted] at h₂ h₃
    exact ⟨h₁, h₂, h₃⟩
  · rintro ⟨h₁, h₂, h₃⟩
    refine ⟨h₁, ?_, ?_⟩ <;> simpa only [mem_sorted]

section Surfaces
variable {q : Text} {oldOneway newOneway : Bool} {oldAnns newAnns : List Text} {vs ws : List Valued}

/-- An enum is kept iff its header is and every enumerator is there with its shape. -/
theorem kept_enumSurface (hvs : ∀ v ∈ vs, v.Fits) (hws : ∀ w ∈ ws, w.Fits) (dvs : (vs.map Valued.name).Nodup)
    (dws : (ws.map Valued.name).Nodup) :
    Kept (enumSurface q oldOneway oldAnns (vs.map Valued.line)) (enumSurface q newOneway newAnns (ws.map Valued.line)) ↔
      EnumHeadKept oldOneway newOneway oldAnns newAnns ∧
        ∀ v ∈ vs, ∃ w ∈ ws, v.name = w.name ∧ v.shape = w.shape := by
  have lines : (∀ m ∈ vs.map Valued.line, m ∈ ws.map Valued.line) ↔
      ∀ v ∈ vs, ∃ w ∈ ws, v.name = w.name ∧ v.shape = w.shape := by
    constructor
    · intro h v hv
      obtain ⟨w, hw, eq⟩ := List.mem_map.mp (h _ (List.mem_map_of_mem hv))
      exact ⟨w, hw, (line_inj (hvs v hv) (hws w hw)).mp eq.symm⟩
    · intro h m hm
      obtain ⟨v, hv, rfl⟩ := List.mem_map.mp hm
      obtain ⟨w, hw, same⟩ := h v hv
      exact (line_inj (hvs v hv) (hws w hw)).mpr same ▸ List.mem_map_of_mem hw
  have oldNames : DistinctNames ⟨.enum, oldOneway, oldAnns, vs.map Valued.line⟩ := nodup_declaredName hvs dvs
  have newNames : DistinctNames ⟨.enum, newOneway, newAnns, ws.map Valued.line⟩ := nodup_declaredName hws dws
  have merged := typeKept_iff_merged oldNames newNames
  rw [← lines]
  constructor
  · intro h
    obtain ⟨n, hn, kept⟩ := h q _ (get?_enumSurface.mpr ⟨rfl, rfl⟩)
    obtain ⟨-, rfl⟩ := get?_enumSurface.mp hn
    have same := merged.mp kept
    exact ⟨⟨same.oneway, same.annotations, same.promise⟩, same.entries⟩
  · rintro ⟨head, entries⟩ k o ho
    obtain ⟨rfl, rfl⟩ := get?_enumSurface.mp ho
    refine ⟨_, get?_enumSurface.mpr ⟨rfl, rfl⟩, merged.mpr ⟨rfl, head.oneway, head.annotations, head.promise, entries,
      ?_, fun union => ?_⟩⟩
    · exact List.prefix_rfl
    · cases union

end Surfaces

theorem parseType_enum {package header body outer : Text} {head : DeclHead} {ds : List (Text × TypeDecl)}
    (read : declMatch ((takeAnnotations header).2 ++ " \x7b".toList) = some head) (enum : head.kind = .enum)
    (h : parseType package header body outer = .ok ds) :
    ∃ members, parseEnumBody body = .ok members ∧
      ds = [(dotted [package, outer, head.name], ⟨.enum, head.oneway, sorted (takeAnnotations header).1, members⟩)] := by
  rw [parseType] at h
  simp only [read, if_pos enum] at h
  obtain ⟨members, values, h⟩ := bind_eq_ok.mp h
  cases h
  exact ⟨members, values, by rw [enum]⟩

/-- Two declarations of an enum: whenever the value of an enumerator has changed the diff of the dumps is
    breaking, unless the header and all lines are kept and the changed enumerator is floating. -/
theorem enum_value_changed_iff {package outer oldHeader newHeader old new : Text} {oldHead newHead : DeclHead}
    {oldDs newDs : List (Text × TypeDecl)} (ρ : Text → Int) (hpackage : Solid package) (houter : Solid outer)
    (oldRead : declMatch ((takeAnnotations oldHeader).2 ++ " \x7b".toList) = some oldHead)
    (newRead : declMatch ((takeAnnotations newHeader).2 ++ " \x7b".toList) = some newHead)
    (oldEnum : oldHead.kind = .enum) (newEnum : newHead.kind = .enum) (sameName : oldHead.name = newHead.name)
    (ho : EnumBody old) (hn : EnumBody new) (hold : parseType package oldHeader old outer = .ok oldDs)
    (hnew : parseType package newHeader new outer = .ok newDs) :
    (ValueChanged ρ old new → ∃ r, diffSurface (dumpTypes (Dict.ofPairs oldDs)) (dumpTypes (Dict.ofPairs newDs)) = .ok r ∧
      r.cls = .breaking) ↔
    ¬(EnumHeadKept oldHead.oneway newHead.oneway (takeAnnotations oldHeader).1 (takeAnnotations newHeader).1 ∧
      ValueShifted ρ old new) := by
  obtain ⟨oldLines, oldValues, rfl⟩ := parseType_enum oldRead oldEnum hold
  obtain ⟨newLines, newValues, rfl⟩ := parseType_enum newRead newEnum hnew
  obtain rfl := parseEnumBody_lines ρ oldValues
  obtain rfl := parseEnumBody_lines ρ newValues
  have qname : IsWord (dotted [package, outer, newHead.name]) := by
    refine ⟨dotted_ne_nil (p := newHead.name) (by simp) (declMatch_name newRead).1, solid_dotted fun p hp => ?_⟩
    simp only [List.mem_cons, List.not_mem_nil, or_false] at hp
    rcases hp with rfl | rfl | rfl
    · exact hpackage
    · exact houter
    · exact solid_of_isWord (declMatch_name newRead).2
  have anns : ∀ header a, a ∈ sorted (takeAnnotations header).1 → AnnotationText a := fun header a member =>
    takeAnnotationsFrom_text _ a (mem_sorted.mp member)
  have oldFormed : WellFormed (enumSurface (dotted [package, outer, newHead.name]) oldHead.oneway _ _) :=
    wellFormed_enumSurface qname (anns oldHeader) (ho.fits ρ) (ho.nodup ρ)
  have newFormed : WellFormed (enumSurface (dotted [package, outer, newHead.name]) newHead.oneway _ _) :=
    wellFormed_enumSurface qname (anns newHeader) (hn.fits ρ) (hn.nodup ρ)
  obtain ⟨r, hr, breaking, -, -⟩ := diffSurface_dumpTypes oldFormed newFormed
  rw [kept_enumSurface (ho.fits ρ) (hn.fits ρ) (ho.nodup ρ) (hn.nodup ρ), enumHeadKept_sorted] at breaking
  rw [sameName]
  constructor
  · rintro property ⟨head, shapes, v, hv, w, hw, name, -, value⟩
    obtain ⟨r', hr', cls⟩ := property ⟨v, hv, w, hw, name, value⟩
    cases hr.symm.trans hr'
    exact breaking.mp cls ⟨head, shapes⟩
  · rintro unshifted ⟨v, hv, w, hw, name, value⟩
    refine ⟨r, hr, breaking.mpr ?_⟩
    rintro ⟨head, shapes⟩
    -- the enumerator of the same name in the new body is the one that keeps the shape
    obtain ⟨w', hw', name', shape⟩ := shapes v hv
    obtain rfl := List.inj_on_of_nodup_map (hn.nodup ρ) hw' hw (name'.symm.trans name)
    refine unshifted ⟨head, shapes, v, hv, w', hw', name, ?_, value⟩
    have oldFacts := walk_known (fun k hk => Option.some.inj hk) v hv
    have newFacts := walk_known (fun k hk => Option.some.inj hk) w' hw'
    cases hs : v.shape with
    | known k =>
      rw [hs] at shape
      exact absurd ((oldFacts.1 k hs).trans (newFacts.1 k shape.symm).symm) value
    | expr e =>
      rw [hs] at shape
      exact absurd ((oldFacts.2 e hs).trans (newFacts.2 e shape.symm).symm) value
    | floating => rfl

/-- Behind an expression, a new enumerator moves the value of the next one; the diff reports an addition only. -/
theorem enum_value_shift :
    let old := " A = FOO, B ".toList
    let new := " A = FOO, C, B ".toList
    let place := "enum E".toList
    EnumBody old ∧ EnumBody new ∧ ValueChanged (fun _ => 5) old new ∧
      ∃ oldDs newDs, parseType [] place old [] = .ok oldDs ∧ parseType [] place new [] = .ok newDs ∧
        diffSurface (dumpTypes (Dict.ofPairs oldDs)) (dumpTypes (Dict.ofPairs newDs)) =
          .ok ⟨.major, [⟨.enumValue, .added, place, "C".toList, none, none⟩]⟩ := by
  intro old new place
  refine ⟨by decide +kernel, by decide +kernel, by decide +kernel,
    [("E".toList, ⟨.enum, false, [], ["A = FOO".toList, "B".toList]⟩)],
    [("E".toList, ⟨.enum, false, [], ["A = FOO".toList, "C".toList, "B".toList]⟩)], by decide +kernel, by decide +kernel,
    by decide +kernel⟩

/-- Behind literals, an inserted enumerator shows as a changed value. -/
theorem enum_value_changed_literals :
    let old := " A = 4, B ".toList
    let new := " A = 4, C, B ".toList
    ∃ r, diffSurface (dumpTypes (Dict.ofPairs [("E".toList, ⟨.enum, false, [], ["A = 4".toList, "B = 5".toList]⟩)]))
        (dumpTypes (Dict.ofPairs [("E".toList, ⟨.enum, false, [], ["A = 4".toList, "C = 5".toList, "B = 6".toList]⟩)])) =
      .ok r ∧ r.cls = .breaking ∧ ValueChanged (fun _ => 0) old new := by
  intro old new
  have changed : ValueChanged (fun _ => 0) old new := by decide +kernel
  have kept : ¬ValueShifted (fun _ => 0) old new := by decide +kernel
  have read : declMatch ((takeAnnotations "enum E".toList).2 ++ " \x7b".toList) = some ⟨false, .enum, "E".toList⟩ := by
    decide +kernel
  have solid : Solid [] := fun c member => absurd member List.not_mem_nil
  have parsed : parseType [] "enum E".toList old [] =
      .ok [("E".toList, ⟨.enum, false, [], ["A = 4".toList, "B = 5".toList]⟩)] := by decide +kernel
  have parsed' : parseType [] "enum E".toList new [] =
      .ok [("E".toList, ⟨.enum, false, [], ["A = 4".toList, "C = 5".toList, "B = 6".toList]⟩)] := by decide +kernel
  obtain ⟨r, hr, cls⟩ := (enum_value_changed_iff (fun _ => 0) solid solid read read rfl rfl rfl (by decide +kernel)
    (by decide +kernel) parsed parsed').mpr (fun h => kept h.2) changed
  exact ⟨r, hr, cls, changed⟩

end BinderIdl.Surface
