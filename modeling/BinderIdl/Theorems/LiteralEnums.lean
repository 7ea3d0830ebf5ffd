import BinderIdl.Theorems.EnumValues

/-! Enums whose values are integer literals: the dump holds their values, but a decimal literal with a leading zero in front
    of another digit is refused by the conversion. -/

namespace BinderIdl.Surface
open Py

/-! ### Literal enum bodies -/

/-- What stands between commas: an identifier, alone or with an integer literal. -/
inductive Spelled : Text → Enumerator → Prop where
  | alone {g name g' : Text} (blank : ∀ c ∈ g, isSpace c = true) (blank' : ∀ c ∈ g', isSpace c = true) (named : name ≠ [])
      (word : ∀ c ∈ name, isWord c = true) : Spelled (g ++ name ++ g') ⟨name, none⟩
  | given {g name g₁ g₂ l g' : Text} (blank : ∀ c ∈ g, isSpace c = true) (blank₁ : ∀ c ∈ g₁, isSpace c = true)
      (blank₂ : ∀ c ∈ g₂, isSpace c = true) (blank' : ∀ c ∈ g', isSpace c = true) (named : name ≠ [])
      (word : ∀ c ∈ name, isWord c = true) (literal : isIntLiteral l = true) :
      Spelled (g ++ (name ++ g₁ ++ '=' :: (g₂ ++ l)) ++ g') ⟨name, some l⟩

/-- A body of such enumerators; the last comma may be left out. -/
inductive LiteralBody : Text → List Enumerator → Prop where
  | blank {g : Text} (blank : ∀ c ∈ g, isSpace c = true) : LiteralBody g []
  | last {piece : Text} {e : Enumerator} (spelled : Spelled piece e) : LiteralBody piece [e]
  | more {piece body : Text} {e : Enumerator} {es : List Enumerator} (spelled : Spelled piece e)
      (rest : LiteralBody body es) : LiteralBody (piece ++ ',' :: body) (e :: es)

/-- The value of a decimal digit, and zero for other characters. -/
def digitValue (c : Char) : Nat := (decimal? c).getD 0

/-- The value of an integer literal: its digits in base sixteen behind `0x` and in base ten elsewhere. -/
def literalValue (l : Text) : Int :=
  let u := (signSplit l).2
  let n : Nat := match hexDigits? u with
    | some h => Nat.ofDigits 16 (h.reverse.map hexValue)
    | none => Nat.ofDigits 10 (u.reverse.map digitValue)
  if (signSplit l).1 then -n else n

/-- The true line of each enumerator: the given value, or one more than the value before it. -/
def trueLines (prev : Int) : List Enumerator → List Text
  | [] => []
  | e :: es =>
    let k := (e.expr.map literalValue).getD (prev + 1)
    enumLine e.name (ofInt k) :: trueLines k es

/-- A decimal literal with a zero in front and a digit that is not zero. -/
def ZeroPadded (l : Text) : Prop :=
  hexDigits? (signSplit l).2 = none ∧ ((signSplit l).2.map digitValue).head? = some 0 ∧
    ∃ d ∈ (signSplit l).2.map digitValue, d ≠ 0

instance (l : Text) : Decidable (ZeroPadded l) := inferInstanceAs (Decidable (_ ∧ _ ∧ _))

/-! ### The conversion -/

theorem foldl_eq_ofDigits (b : ℕ) (ds : List ℕ) : ds.foldl (fun n d => b * n + d) 0 = Nat.ofDigits b ds.reverse := by
  induction ds using List.reverseRecOn with
  | nil => rfl
  | append_singleton ds d ih =>
    rw [List.foldl_append, ih, List.reverse_append, List.reverse_singleton, List.singleton_append, Nat.ofDigits_cons,
      Nat.add_comm]
    rfl

theorem parseInt_eq (l : Text) : parseInt l = if ZeroPadded l then .error (.intLiteral l) else .ok (literalValue l) := by
  have signed : ∀ n : Nat, (if (signSplit l).1 = true then (-1 : Int) else 1) * n = if (signSplit l).1 = true then -(n : Int) else n := by
    intro n
    split <;> simp
  rw [parseInt, literalValue]
  simp only [signed]
  cases base : hexDigits? (signSplit l).2 with
  | some h =>
    have value := foldl_eq_ofDigits 16 (h.map hexValue)
    rw [List.foldl_map, ← List.map_reverse] at value
    have notPadded : ¬ZeroPadded l := fun padded => by cases base.symm.trans padded.1
    rw [if_neg notPadded]
    simp only [value]
  | none =>
    have value := foldl_eq_ofDigits 10 ((signSplit l).2.map digitValue)
    rw [← List.map_reverse] at value
    by_cases padded : ((signSplit l).2.map digitValue).head? = some 0 ∧ ∃ d ∈ (signSplit l).2.map digitValue, d ≠ 0
    · rw [if_pos (show ZeroPadded l from ⟨base, padded⟩)]
      exact if_pos padded
    · rw [if_neg (show ¬ZeroPadded l from fun all => padded all.2), ← value]
      exact if_neg padded

/-! ### The pieces -/

theorem comma_of_isSpace {g : Text} (blank : ∀ c ∈ g, isSpace c = true) : ',' ∉ g :=
  fun member => absurd (blank _ member) (by decide)

theorem signSplit_cases (l : Text) : ∃ sign, l = sign ++ (signSplit l).2 ∧ ∀ c ∈ sign, c = '+' ∨ c = '-' := by
  unfold signSplit
  split
  · exact ⟨['+'], rfl, by simp⟩
  · exact ⟨['-'], rfl, by simp⟩
  · exact ⟨[], rfl, by simp⟩

theorem hexDigits?_spec {u h : Text} (found : hexDigits? u = some h) :
    ∃ x, (x = 'x' ∨ x = 'X') ∧ u = '0' :: x :: h ∧ ∀ c ∈ h, isHexDigit c = true := by
  unfold hexDigits? at found
  split at found
  · rename_i x t
    split at found
    · rename_i all
      cases found
      exact ⟨x, all.1, rfl, List.all_eq_true.mp all.2.2⟩
    · cases found
  · cases found

theorem solid_of_isHexDigit {c : Char} (hex : isHexDigit c = true) : isSpace c = false ∧ isPunct c = false := by
  constructor
  · cases space : isSpace c with
    | false => rfl
    | true =>
      have codes := mem_spaceCodes space
      simp only [spaceCodes, List.mem_cons, List.not_mem_nil, or_false] at codes
      simp only [isHexDigit, Bool.or_eq_true, Bool.and_eq_true, decide_eq_true_eq, Char.le_def, UInt32.le_iff_toNat_le] at hex
      have same : c.val.toNat = c.toNat := rfl
      simp at hex
      omega
  · by_contra punct
    simp only [isPunct, List.mem_cons, List.not_mem_nil, or_false, decide_eq_false_iff_not, not_not] at punct
    rcases punct with rfl | rfl | rfl | rfl | rfl | rfl | rfl <;> exact absurd hex (by decide)

theorem solid_of_isIntLiteral {l : Text} (literal : isIntLiteral l = true) :
    l ≠ [] ∧ ∀ c ∈ l, isSpace c = false ∧ isPunct c = false := by
  obtain ⟨sign, whole, signs⟩ := signSplit_cases l
  have inner : (signSplit l).2 ≠ [] ∧ ∀ c ∈ (signSplit l).2, isSpace c = false ∧ isPunct c = false := by
    rcases Bool.or_eq_true_iff.mp literal with hex | decimal
    · obtain ⟨h, found⟩ := Option.isSome_iff_exists.mp hex
      obtain ⟨x, marker, same, digits⟩ := hexDigits?_spec found
      rw [same]
      refine ⟨List.cons_ne_nil _ _, List.forall_mem_cons.mpr ⟨by decide, List.forall_mem_cons.mpr ⟨?_, ?_⟩⟩⟩
      · rcases marker with rfl | rfl <;> decide
      · exact fun c member => solid_of_isHexDigit (digits c member)
    · obtain ⟨some, digits⟩ := Bool.and_eq_true_iff.mp decimal
      refine ⟨by simpa using some, fun c member => ?_⟩
      have digit := List.all_eq_true.mp digits c member
      constructor
      · cases space : isSpace c with
        | false => rfl
        | true =>
          rw [not_isDigit_of_isSpace space] at digit
          cases digit
      · by_contra punct
        simp only [isPunct, List.mem_cons, List.not_mem_nil, or_false, decide_eq_false_iff_not, not_not] at punct
        rcases punct with rfl | rfl | rfl | rfl | rfl | rfl | rfl <;> exact absurd digit (by decide)
  refine ⟨fun none => inner.1 (List.append_eq_nil_iff.mp (whole.symm.trans none)).2, ?_⟩
  rw [whole]
  intro c member
  rcases List.mem_append.mp member with member | member
  · rcases signs c member with rfl | rfl <;> decide
  · exact inner.2 c member

theorem solid_of_word {name : Text} (word : ∀ c ∈ name, isWord c = true) : ',' ∉ name ∧ '=' ∉ name :=
  ⟨fun member => absurd (word _ member) (by decide), fun member => absurd (word _ member) (by decide)⟩

theorem Spelled.no_comma {piece : Text} {e : Enumerator} (spelled : Spelled piece e) : ',' ∉ piece := by
  cases spelled with
  | alone blank blank' _ word =>
    simp [comma_of_isSpace blank, comma_of_isSpace blank', (solid_of_word word).1]
  | given blank blank₁ blank₂ blank' _ word literal =>
    have inside : ',' ∉ _ := fun member => absurd ((solid_of_isIntLiteral literal).2 _ member).2 (by decide)
    simp [comma_of_isSpace blank, comma_of_isSpace blank₁, comma_of_isSpace blank₂, comma_of_isSpace blank',
      (solid_of_word word).1, inside]

theorem strip_ends {a m b : Text} (start : IsWord a) (stop : IsWord b) : Stripped (a ++ m ++ b) := by
  have some : a ++ m ++ b ≠ [] := by simp [start.ne_nil]
  refine stripped_of_ends some ?_ ?_
  · rw [List.head_append_of_ne_nil (by simp [start.ne_nil]), List.head_append_of_ne_nil start.ne_nil]
    exact start.solid _ (List.head_mem _)
  · rw [List.getLast_append_of_ne_nil _ stop.ne_nil]
    exact stop.solid _ (List.getLast_mem _)

/-- A piece is one round of the loop of `_parse_enum_body`. -/
theorem Spelled.round {piece : Text} {e : Enumerator} (spelled : Spelled piece e) (prev : Int) (pieces : List Text) :
    parseEnumValues (some prev) (piece :: pieces) = (do
      let k ← (e.expr.map parseInt).getD (.ok (prev + 1))
      let members ← parseEnumValues (some k) pieces
      return enumLine e.name (ofInt k) :: members) := by
  cases spelled with
  | @alone g name g' blank blank' named word =>
    have isWord : IsWord name := ⟨named, fun c member => not_isSpace_of_isWord (word c member)⟩
    have whole : strip (g ++ name ++ g') = name := (strip_append_space blank blank' _).trans isWord.stripped
    rw [parseEnumValues]
    simp only [whole]
    rw [if_neg named, if_neg (solid_of_word word).2]
    rfl
  | @given g name g₁ g₂ l g' blank blank₁ blank₂ blank' named word literal =>
    obtain ⟨some, solid⟩ := solid_of_isIntLiteral literal
    have isWord : IsWord name := ⟨named, fun c member => not_isSpace_of_isWord (word c member)⟩
    have isWord' : IsWord l := ⟨some, fun c member => (solid c member).1⟩
    have ends : Stripped (name ++ g₁ ++ '=' :: (g₂ ++ l)) := by
      have ends := strip_ends (m := g₁ ++ '=' :: g₂) isWord isWord'
      simpa using ends
    have whole : strip (g ++ (name ++ g₁ ++ '=' :: (g₂ ++ l)) ++ g') = name ++ g₁ ++ '=' :: (g₂ ++ l) :=
      (strip_append_space blank blank' _).trans ends
    have before : ∀ c ∈ name ++ g₁, (c != '=') = true := by
      intro c member
      rcases List.mem_append.mp member with member | member
      · simpa using fun same : c = '=' => (solid_of_word word).2 (same ▸ member)
      · simpa using fun same : c = '=' => absurd (blank₁ c member) (by rw [same]; decide)
    have parts : partition '=' (name ++ g₁ ++ '=' :: (g₂ ++ l)) = (name ++ g₁, g₂ ++ l) := by
      rw [partition, takeWhile_append_cons before (by decide), dropWhile_append_cons before (by decide), List.tail_cons]
    have left : strip (name ++ g₁) = name := by
      have stripped := strip_append_space (g := []) (by simp) blank₁ name
      rw [List.nil_append] at stripped
      exact stripped.trans isWord.stripped
    have right : strip (g₂ ++ l) = l := (strip_append_left blank₂ l).trans isWord'.stripped
    rw [parseEnumValues]
    simp only [whole, parts, left, right]
    rw [if_neg (by simp), if_pos (by simp), if_pos literal]
    rfl

theorem blank_round {g : Text} (blank : ∀ c ∈ g, isSpace c = true) (prev : Int) (pieces : List Text) :
    parseEnumValues (some prev) (g :: pieces) = parseEnumValues (some prev) pieces := by
  conv_lhs => rw [parseEnumValues]
  exact if_pos (strip_eq_nil_iff.mpr blank)

/-- The value of a piece is converted as it should be, unless it is padded. -/
theorem exprValue {e : Option Text} {prev k : Int} :
    (e.map parseInt).getD (.ok (prev + 1)) = .ok k ↔ (∀ l, e = some l → ¬ZeroPadded l) ∧ k = (e.map literalValue).getD (prev + 1) := by
  cases e with
  | none =>
    show (.ok (prev + 1) : Except SurfaceError Int) = .ok k ↔ _
    simp [eq_comm]
  | some l =>
    show parseInt l = .ok k ↔ _
    rw [parseInt_eq]
    by_cases padded : ZeroPadded l
    · simp [padded]
    · simp [padded, eq_comm]

theorem Spelled.round_eq_ok {piece : Text} {e : Enumerator} (spelled : Spelled piece e) {prev : Int} {pieces members : List Text} :
    parseEnumValues (some prev) (piece :: pieces) = .ok members ↔ (∀ l, e.expr = some l → ¬ZeroPadded l) ∧
      ∃ rest, parseEnumValues (some ((e.expr.map literalValue).getD (prev + 1))) pieces = .ok rest ∧
        enumLine e.name (ofInt ((e.expr.map literalValue).getD (prev + 1))) :: rest = members := by
  rw [spelled.round, bind_eq_ok]
  constructor
  · rintro ⟨k, value, rest⟩
    obtain ⟨clean, rfl⟩ := exprValue.mp value
    obtain ⟨ms, read, same⟩ := bind_eq_ok.mp rest
    cases same
    exact ⟨clean, ms, read, rfl⟩
  · rintro ⟨clean, ms, read, rfl⟩
    exact ⟨_, exprValue.mpr ⟨clean, rfl⟩, bind_eq_ok.mpr ⟨ms, read, rfl⟩⟩

theorem LiteralBody.parse {body : Text} {es : List Enumerator} (shape : LiteralBody body es) {prev : Int} {members : List Text} :
    parseEnumValues (some prev) (body.splitOn ',') = .ok members ↔
      (∀ e ∈ es, ∀ l, e.expr = some l → ¬ZeroPadded l) ∧ trueLines prev es = members := by
  induction shape generalizing prev members with
  | @blank g blank =>
    rw [List.splitOn_eq_singleton (comma_of_isSpace blank), blank_round blank, parseEnumValues]
    simp [trueLines]
  | last spelled =>
    rw [List.splitOn_eq_singleton spelled.no_comma, spelled.round_eq_ok]
    simp [trueLines, parseEnumValues]
  | more spelled rest ih =>
    rw [List.splitOn_append_cons_self_of_not_mem spelled.no_comma, spelled.round_eq_ok, List.forall_mem_cons]
    constructor
    · rintro ⟨clean, ms, read, rfl⟩
      obtain ⟨all, rfl⟩ := ih.mp read
      exact ⟨⟨clean, all⟩, rfl⟩
    · rintro ⟨⟨clean, all⟩, rfl⟩
      exact ⟨clean, _, ih.mpr ⟨all, rfl⟩, rfl⟩

/-- The dump of a literal enum holds the true values, unless some decimal literal has a zero in front and a digit that is
    not zero: such a literal is not converted. -/
theorem parseEnumBody_literals {body : Text} {es : List Enumerator} (shape : LiteralBody body es) :
    parseEnumBody body = .ok (trueLines (-1) es) ↔ ∀ e ∈ es, ∀ l, e.expr = some l → ¬ZeroPadded l := by
  rw [parseEnumBody, shape.parse]
  exact and_iff_left rfl

/-- The file number `0644` of a C programmer: the value is 644, and the parser raises. -/
theorem parseEnumBody_padded :
    LiteralBody "RW = 0644".toList [⟨"RW".toList, some "0644".toList⟩] ∧
      trueLines (-1) [⟨"RW".toList, some "0644".toList⟩] = ["RW = 644".toList] ∧
      parseEnumBody "RW = 0644".toList = .error (.intLiteral "0644".toList) := by
  refine ⟨.last ?_, by decide, by decide⟩
  have blanks : ∀ c ∈ " ".toList, isSpace c = true := List.all_eq_true.mp (by decide)
  exact @Spelled.given [] "RW".toList " ".toList " ".toList "0644".toList [] (by simp) blanks blanks (by simp) (by decide)
    (List.all_eq_true.mp (by decide)) (by decide)

/-- Identifiers alone, with a decimal literal and with a hexadecimal one that has a zero in front. -/
theorem parseEnumBody_values :
    parseEnumBody "A,B=-7, C,D=0x0f,".toList =
      .ok ["A = 0".toList, "B = -7".toList, "C = -6".toList, "D = 15".toList] := by
  have blanks : ∀ c ∈ " ".toList, isSpace c = true := List.all_eq_true.mp (by decide)
  have a : Spelled "A".toList ⟨"A".toList, none⟩ :=
    @Spelled.alone [] "A".toList [] (by simp) (by simp) (by decide) (List.all_eq_true.mp (by decide))
  have b : Spelled "B=-7".toList ⟨"B".toList, some "-7".toList⟩ :=
    @Spelled.given [] "B".toList [] [] "-7".toList [] (by simp) (by simp) (by simp) (by simp) (by decide) (List.all_eq_true.mp (by decide))
      (by decide)
  have c : Spelled " C".toList ⟨"C".toList, none⟩ :=
    @Spelled.alone " ".toList "C".toList [] blanks (by simp) (by decide) (List.all_eq_true.mp (by decide))
  have d : Spelled "D=0x0f".toList ⟨"D".toList, some "0x0f".toList⟩ :=
    @Spelled.given [] "D".toList [] [] "0x0f".toList [] (by simp) (by simp) (by simp) (by simp) (by decide)
      (List.all_eq_true.mp (by decide)) (by decide)
  have shape := LiteralBody.more a (.more b (.more c (.more d (@LiteralBody.blank [] (by simp)))))
  refine ((parseEnumBody_literals shape).mpr ?_).trans (congrArg _ (by decide))
  simp [ZeroPadded, signSplit, hexDigits?, digitValue, decimal?, decimalZeros, isHexDigit]

end BinderIdl.Surface
