import BinderIdl.Lex.Modes
import BinderIdl.Surface.Parse

/-! Literals through the parser. When no literal of a file holds a line break, none of the statements that the
    scanners cut out of it holds one in a literal, so that the normal form of a statement is a single line. -/

namespace BinderIdl.Surface
open Py Lex

/-! ### Literals and modes -/

theorem run_stringEnd (u : Text) : Mode.lit.run (stringEnd u).1 = .code ∨ (stringEnd u).2 = [] := by
  fun_induction stringEnd u with
  | case1 => exact .inr rfl
  | case2 t => exact .inl rfl
  | case3 c t ih => exact ih.imp_left fun h => h
  | case4 c t quote slash ih =>
    rcases ih with h | h
    · by_cases hs : c = '\\'
      · subst hs
        cases t with
        | nil => exact .inr rfl
        | cons d t => exact absurd rfl (slash d t rfl)
      · refine .inl ?_
        have step : Mode.lit.step c = .lit := by
          rw [Mode.step, if_neg (fun e => quote e), if_neg hs]
        rw [run_cons, step]
        exact h
    · exact .inr h

section Conditions
variable {p : Mode → Char → Prop}

theorem within_stringEnd (u : Text) :
    Within p .lit u ↔ Within p .lit (stringEnd u).1 ∧ Within p .code (stringEnd u).2 := by
  conv_lhs => rw [← stringEnd_append u]
  rw [within_append]
  rcases run_stringEnd u with h | h
  · rw [h]
  · simp [h]

theorem mem_stringEnd {u : Text} (h : Within p .lit u) : ∀ c ∈ (stringEnd u).1, ∃ m, m ≠ .code ∧ p m c := by
  fun_induction stringEnd u with
  | case1 => simp
  | case2 t =>
    intro c member
    rw [List.mem_singleton.mp member]
    exact ⟨.lit, by decide, h.1⟩
  | case3 c t ih =>
    intro d member
    rcases List.mem_cons.mp member with rfl | member
    · exact ⟨.lit, by decide, h.1⟩
    · rcases List.mem_cons.mp member with rfl | member
      · exact ⟨.esc, by decide, h.2.1⟩
      · exact ih h.2.2 d member
  | case4 c t quote slash ih =>
    intro d member
    rcases List.mem_cons.mp member with rfl | inner
    · exact ⟨.lit, by decide, h.1⟩
    · by_cases hs : c = '\\'
      · subst hs
        cases t with
        | nil => cases inner
        | cons e t => exact absurd rfl (slash e t rfl)
      · have step : Mode.lit.step c = .lit := by
          rw [Mode.step, if_neg (fun e => quote e), if_neg hs]
        rw [within_cons, step] at h
        exact ih h.2 d inner

end Conditions

theorem ne_quote_of_isSpace {c : Char} (h : isSpace c = true) : c ≠ '"' := by
  rintro rfl
  exact absurd h (by decide)

/-- Stripping takes code off the front and cuts the end. -/
theorem within_strip {p : Mode → Char → Prop} {t : Text} (h : Within p .code t) : Within p .code (strip t) := by
  obtain ⟨g, g', hg, -, eq⟩ := exists_strip_eq t
  rw [eq, List.append_assoc, within_append, run_code fun c member => ne_quote_of_isSpace (hg c member)] at h
  exact (within_append.mp h.2).1

/-! ### Statements -/

section Statements
variable {p : Mode → Char → Prop}

/-- A condition on the text of an item. -/
def Item.Within (p : Mode → Char → Prop) : Item → Prop
  | .stmt text => Lex.Within p .code text
  | .decl _ body => Lex.Within p .code body

theorem within_matchBrace {depth : Nat} {t : Text} (h : Within p .code t) :
    Within p .code (matchBrace depth t).1 ∧ Within p .code (matchBrace depth t).2 := by
  fun_induction matchBrace depth t with
  | case1 t => exact ⟨trivial, h⟩
  | case2 d => exact ⟨trivial, trivial⟩
  | case3 d u ih =>
    rw [within_cons, step_code_quote, within_stringEnd] at h
    obtain ⟨first, literal, rest⟩ := h
    refine ⟨⟨first, ?_⟩, (ih rest).2⟩
    show Within p .lit ((stringEnd u).1 ++ (matchBrace (d + 1) (stringEnd u).2).1)
    rw [within_append]
    refine ⟨literal, ?_⟩
    rcases run_stringEnd u with closed | done
    · rw [closed]
      exact (ih rest).1
    · simp [done, matchBrace]
  | case4 d u ih => exact ⟨⟨h.1, (ih h.2).1⟩, (ih h.2).2⟩
  | case5 d u ih => exact ⟨⟨h.1, (ih h.2).1⟩, (ih h.2).2⟩
  | case6 d c u quote _ _ ih =>
    rw [within_cons, step_code fun e => quote e] at h
    refine ⟨⟨h.1, ?_⟩, (ih h.2).2⟩
    rw [step_code fun e => quote e]
    exact (ih h.2).1

theorem within_dropLast {m : Mode} {t : Text} (h : Within p m t) : Within p m t.dropLast := by
  by_cases hne : t = []
  · subst hne
    trivial
  · rw [← List.dropLast_append_getLast hne, within_append] at h
    exact h.1

theorem within_flushStmt {buf : Text} (h : Within p .code buf) : ∀ i ∈ flushStmt buf, i.Within p := by
  intro i member
  unfold flushStmt at member
  split at member
  · cases member
  · rw [List.mem_singleton.mp member]
    exact within_strip h

/-- The items of a body meet every condition that the body meets. -/
theorem within_splitFrom {buf t : Text} (hbuf : Within p .code buf) (closed : Mode.code.run buf = .code ∨ t = [])
    (h : Within p .code t) : ∀ i ∈ splitFrom buf t, i.Within p := by
  fun_induction splitFrom buf t with
  | case1 buf => exact within_flushStmt hbuf
  | case2 buf u ih =>
    have closed : Mode.code.run buf = .code := closed.resolve_right (by simp)
    rw [within_cons, step_code_quote, within_stringEnd] at h
    refine ih ?_ ?_ h.2.2
    · rw [within_append, closed]
      exact ⟨hbuf, h.1, h.2.1⟩
    · rcases run_stringEnd u with done | done
      · refine .inl ?_
        rw [run_append, closed]
        exact done
      · exact .inr done
  | case3 buf u ih =>
    intro i member
    rcases List.mem_cons.mp member with rfl | member
    · exact within_dropLast (within_matchBrace h.2).1
    · exact ih trivial (.inl rfl) (within_matchBrace h.2).2 i member
  | case4 buf u ih =>
    intro i member
    rcases List.mem_append.mp member with member | member
    · exact within_flushStmt hbuf i member
    · exact ih trivial (.inl rfl) h.2 i member
  | case5 buf c u quote _ _ ih =>
    have closed : Mode.code.run buf = .code := closed.resolve_right (by simp)
    rw [within_cons, step_code fun e => quote e] at h
    refine ih ?_ (.inl ?_) h.2
    · rw [within_append, closed]
      exact ⟨hbuf, h.1, trivial⟩
    · rw [run_append, closed]
      exact step_code fun e => quote e

theorem within_splitStatements {t : Text} (h : Within p .code t) : ∀ i ∈ splitStatements t, i.Within p :=
  within_splitFrom trivial (.inl rfl) h

end Statements

/-! ### Package and import clauses -/

theorem argsMatch_args {g x : Text} (blank : ∀ c ∈ g, isSpace c = true) (h : ∀ c ∈ x, c ≠ ')') (s : Text) :
    argsMatch (g ++ '(' :: x ++ ')' :: s) = some (g ++ '(' :: x ++ [')'], s) := by
  have inside : ∀ c ∈ x, (c != ')') = true := fun c member => by simpa using h c member
  unfold argsMatch
  rw [List.append_assoc, List.cons_append, dropWhile_append_cons blank (by decide),
    takeWhile_append_cons blank (by decide)]
  simp only
  rw [dropWhile_append_cons inside (by decide), takeWhile_append_cons inside (by decide)]
  rfl

theorem keywordMatch_spec {kw t u : Text} (h : keywordMatch kw t = some u) :
    ∃ g, g ≠ [] ∧ (∀ c ∈ g, isSpace c = true) ∧ t = kw ++ g ++ u := by
  unfold keywordMatch at h
  split at h
  · rename_i hp
    obtain ⟨s, rfl⟩ := hp
    rw [List.drop_left] at h
    split at h
    · rename_i c v
      split at h
      · rename_i hc
        cases h
        refine ⟨c :: v.takeWhile isSpace, List.cons_ne_nil _ _, ?_, ?_⟩
        · intro d member
          rcases List.mem_cons.mp member with rfl | member
          · exact hc
          · exact List.mem_takeWhile_imp member
        · rw [List.append_assoc, List.cons_append, List.takeWhile_append_dropWhile]
      · cases h
    · cases h
  · cases h

theorem clauseMatch_spec {kws : List Text} {inName : Char → Bool} {t name rest : Text}
    (h : clauseMatch kws inName t = some (name, rest)) :
    ∃ kw ∈ kws, ∃ g g₁ g₂, (∀ c ∈ g, isSpace c = true) ∧ (∀ c ∈ g₁, isSpace c = true) ∧ (∀ c ∈ g₂, isSpace c = true) ∧
      name ≠ [] ∧ (∀ c ∈ name, inName c = true) ∧ t = g ++ kw ++ g₁ ++ name ++ g₂ ++ ';' :: rest := by
  obtain ⟨kw, hkw, h⟩ := List.exists_of_findSome?_eq_some h
  refine ⟨kw, hkw, ?_⟩
  split at h
  · cases h
  · rename_i u hu
    split at h
    · rename_i c w rest' hw hrest
      cases h
      obtain ⟨g₁, -, hg₁, eq₁⟩ := keywordMatch_spec hu
      refine ⟨t.takeWhile isSpace, g₁, (u.dropWhile inName).takeWhile isSpace, fun c member => List.mem_takeWhile_imp member,
        hg₁, fun c member => List.mem_takeWhile_imp member, List.cons_ne_nil _ _, ?_, ?_⟩
      · rw [← hw]
        exact fun c member => List.mem_takeWhile_imp member
      · have eq₂ : u = c :: w ++ ((u.dropWhile inName).takeWhile isSpace ++ ';' :: rest) := by
          rw [← hw, ← hrest, List.takeWhile_append_dropWhile, List.takeWhile_append_dropWhile]
        conv_lhs => rw [← List.takeWhile_append_dropWhile (p := isSpace) (l := t), eq₁, eq₂]
        simp
    · cases h

/-- The class of the names in package and import clauses. -/
def inClause (d : Char) : Bool := isWord d || d == '.' || d == '*'

theorem ne_quote_of_inClause {c : Char} (h : inClause c = true) : c ≠ '"' := by
  rintro rfl
  exact absurd h (by decide)

theorem clauseMatch_code {t name rest : Text}
    (h : clauseMatch ["package".toList, "import".toList] inClause t = some (name, rest)) :
    ∃ w, (∀ c ∈ w, c ≠ '"') ∧ t = w ++ rest := by
  obtain ⟨kw, hkw, g, g₁, g₂, hg, hg₁, hg₂, -, hname, rfl⟩ := clauseMatch_spec h
  refine ⟨g ++ kw ++ g₁ ++ name ++ g₂ ++ [';'], ?_, by simp⟩
  have hkw' : ∀ c ∈ kw, c ≠ '"' := by
    rcases List.mem_cons.mp hkw with rfl | hkw
    · simp
    · rw [List.mem_singleton.mp hkw]
      simp
  intro c member
  simp only [List.mem_append, List.mem_singleton] at member
  rcases member with ((((member | member) | member) | member) | member) | rfl
  · exact ne_quote_of_isSpace (hg c member)
  · exact hkw' c member
  · exact ne_quote_of_isSpace (hg₁ c member)
  · exact ne_quote_of_inClause (hname c member)
  · exact ne_quote_of_isSpace (hg₂ c member)
  · decide

/-- No line break stands in a literal. -/
def litSingle (m : Mode) (c : Char) : Prop := m ≠ .code → isLineBreak c = false

instance (m : Mode) (c : Char) : Decidable (litSingle m c) := inferInstanceAs (Decidable (_ → _))

/-- A clause is only matched at the start of a line, which is not in a literal. -/
theorem within_removeImports {lineStart : Bool} {t : Text} {m : Mode} (h : Within litSingle m t)
    (start : lineStart = true → m = .code) : Within litSingle m (removeImports lineStart t) := by
  fun_induction removeImports lineStart t generalizing m with
  | case1 => exact h
  | case2 lineStart c t name rest found ih =>
    cases lineStart with
    | false => cases found
    | true =>
      obtain rfl := start rfl
      obtain ⟨w, hw, eq⟩ := clauseMatch_code found
      rw [eq, within_append, run_code hw] at h
      exact ih h.2 (fun e => by cases e)
  | case3 lineStart c t _ ih =>
    refine ⟨h.1, ih h.2 fun newline => ?_⟩
    obtain rfl : c = '\n' := by simpa using newline
    cases m with
    | code => rfl
    | lit => exact absurd (h.1 (by decide)) (by decide)
    | esc => exact absurd (h.1 (by decide)) (by decide)

/-! ### The normal form is a single line -/

theorem collapse_blank (t : Text) : ∀ c ∈ collapse t, c = ' ' ∨ isSpace c = false := by
  fun_induction collapse t with
  | case1 => simp
  | case2 c u _ ih =>
    intro d member
    rcases List.mem_cons.mp member with rfl | member
    · exact .inl rfl
    · exact ih d member
  | case3 c u hc ih =>
    intro d member
    rcases List.mem_cons.mp member with rfl | member
    · exact .inr (by simpa using hc)
    · exact ih d member

theorem mem_of_mem_tighten {t : Text} {d : Char} (h : d ∈ tighten t) : d ∈ t := by
  fun_induction tighten t with
  | case1 => exact h
  | case2 c u _ ih => exact List.mem_cons.mpr ((List.mem_cons.mp h).imp_right ih)
  | case3 c u p v drop _ ih =>
    have suffix : p :: v <:+ c :: u := drop ▸ List.dropWhile_suffix isSpace
    rcases List.mem_cons.mp h with rfl | h
    · exact suffix.subset List.mem_cons_self
    · exact suffix.subset (List.mem_cons_of_mem _ ((List.dropWhile_suffix isSpace).subset (ih h)))
  | case4 c u p v _ _ ih => exact List.mem_cons.mpr ((List.mem_cons.mp h).imp_right ih)

theorem mem_of_mem_replaceChar {c d : Char} {r t : Text} (h : d ∈ replaceChar c r t) : d ∈ r ∨ d ∈ t := by
  obtain ⟨e, he, member⟩ := List.mem_flatMap.mp h
  split at member
  · exact .inl member
  · exact .inr (List.mem_singleton.mp member ▸ he)

theorem mem_of_mem_spaceAfterBracket {t : Text} {d : Char} (h : d ∈ spaceAfterBracket t) : d = ' ' ∨ d ∈ t := by
  fun_induction spaceAfterBracket t with
  | case1 => exact .inr h
  | case2 c t _ ih =>
    rcases List.mem_cons.mp h with rfl | h
    · exact .inr List.mem_cons_self
    · rcases List.mem_cons.mp h with rfl | h
      · exact .inl rfl
      · rcases List.mem_cons.mp h with rfl | h
        · exact .inr (by simp)
        · exact (ih h).imp_right fun member => List.mem_cons_of_mem _ (List.mem_cons_of_mem _ member)
  | case3 c t _ ih =>
    rcases List.mem_cons.mp h with rfl | h
    · exact .inr List.mem_cons_self
    · exact (ih h).imp_right (List.mem_cons_of_mem _)
  | case4 c t _ ih =>
    rcases List.mem_cons.mp h with rfl | h
    · exact .inr List.mem_cons_self
    · exact (ih h).imp_right (List.mem_cons_of_mem _)

theorem flush_single (segment : Text) : ∀ c ∈ flush segment, isLineBreak c = false := by
  have blank : isLineBreak ' ' = false := by decide
  have comma : ∀ c ∈ ", ".toList, isLineBreak c = false := by simp [isLineBreak]
  have equals : ∀ c ∈ " = ".toList, isLineBreak c = false := by simp [isLineBreak]
  intro c member
  rcases mem_of_mem_spaceAfterBracket member with rfl | member
  · exact blank
  · rcases mem_of_mem_replaceChar member with member | member
    · exact equals c member
    · rcases mem_of_mem_replaceChar member with member | member
      · exact comma c member
      · rcases collapse_blank segment c (mem_of_mem_tighten member) with rfl | solid
        · exact blank
        · exact isLineBreak_of_not_isSpace solid

theorem normalizeFrom_single {buf t : Text} (h : Within litSingle .code t) :
    ∀ c ∈ normalizeFrom buf t, isLineBreak c = false := by
  fun_induction normalizeFrom buf t with
  | case1 buf => exact flush_single buf
  | case2 buf u ih =>
    rw [within_cons, step_code_quote] at h
    intro c member
    simp only [List.mem_append, List.mem_cons] at member
    rcases member with (member | rfl | member) | member
    · exact flush_single buf c member
    · decide
    · obtain ⟨m, inside, single⟩ := mem_stringEnd h.2 c member
      exact single inside
    · exact ih ((within_stringEnd u).mp h.2).2 c member
  | case3 buf c u quote ih =>
    rw [within_cons, step_code fun e => quote e] at h
    exact ih h.2

/-- The normal form of a statement without line breaks in its literals is a single line. -/
theorem normalize_single {t : Text} (h : Within litSingle .code t) : ∀ c ∈ normalize t, isLineBreak c = false :=
  fun c member => normalizeFrom_single h c (mem_of_mem_strip member)

/-! ### The normal form keeps every character that is not a blank -/

theorem dropSpaces_append (t u : Text) : dropSpaces (t ++ u) = dropSpaces t ++ dropSpaces u := List.filter_append ..

theorem dropSpaces_cons_of_space {c : Char} (h : isSpace c = true) (t : Text) : dropSpaces (c :: t) = dropSpaces t :=
  List.filter_cons_of_neg (by simp [h])

theorem dropSpaces_cons_of_solid {c : Char} (h : isSpace c = false) (t : Text) :
    dropSpaces (c :: t) = c :: dropSpaces t :=
  List.filter_cons_of_pos (by simp [h])

theorem dropSpaces_cons_congr {t u : Text} (c : Char) (h : dropSpaces t = dropSpaces u) :
    dropSpaces (c :: t) = dropSpaces (c :: u) := by
  rw [← List.singleton_append, dropSpaces_append, h, ← dropSpaces_append, List.singleton_append]

theorem dropSpaces_dropWhile (t : Text) : dropSpaces (t.dropWhile isSpace) = dropSpaces t := by
  induction t with
  | nil => rfl
  | cons c t ih =>
    by_cases hc : isSpace c = true
    · rw [List.dropWhile_cons_of_pos hc, ih, dropSpaces_cons_of_space hc]
    · rw [List.dropWhile_cons_of_neg hc]

theorem dropSpaces_eq_nil_iff {t : Text} : dropSpaces t = [] ↔ ∀ c ∈ t, isSpace c = true := by
  simp [dropSpaces]

theorem dropSpaces_strip (t : Text) : dropSpaces (strip t) = dropSpaces t := by
  obtain ⟨g, g', hg, hg', eq⟩ := exists_strip_eq t
  conv_rhs => rw [eq, dropSpaces_append, dropSpaces_append, dropSpaces_eq_nil_iff.mpr hg, dropSpaces_eq_nil_iff.mpr hg',
    List.nil_append, List.append_nil]

theorem dropSpaces_collapse (t : Text) : dropSpaces (collapse t) = dropSpaces t := by
  fun_induction collapse t with
  | case1 => rfl
  | case2 c u hc ih =>
    rw [dropSpaces_cons_of_space (by decide), ih, dropSpaces_dropWhile, dropSpaces_cons_of_space hc]
  | case3 c u hc ih => exact dropSpaces_cons_congr c ih

theorem dropSpaces_tighten (t : Text) : dropSpaces (tighten t) = dropSpaces t := by
  fun_induction tighten t with
  | case1 => rfl
  | case2 c u _ ih => exact dropSpaces_cons_congr c ih
  | case3 c u p v drop _ ih =>
    rw [← dropSpaces_dropWhile (c :: u), drop]
    exact dropSpaces_cons_congr p (ih.trans (dropSpaces_dropWhile v))
  | case4 c u p v _ _ ih => exact dropSpaces_cons_congr c ih

theorem dropSpaces_replaceChar {c : Char} {r : Text} (h : dropSpaces r = dropSpaces [c]) (t : Text) :
    dropSpaces (replaceChar c r t) = dropSpaces t := by
  induction t with
  | nil => rfl
  | cons d t ih =>
    have head : dropSpaces (if d = c then r else [d]) = dropSpaces [d] := by
      split
      · rename_i e
        rw [h, e]
      · rfl
    rw [replaceChar, List.flatMap_cons, dropSpaces_append, head, ← replaceChar, ih, ← dropSpaces_append,
      List.singleton_append]

theorem dropSpaces_spaceAfterBracket (t : Text) : dropSpaces (spaceAfterBracket t) = dropSpaces t := by
  fun_induction spaceAfterBracket t with
  | case1 => rfl
  | case2 c t _ ih =>
    refine dropSpaces_cons_congr ']' ?_
    rw [dropSpaces_cons_of_space (by decide)]
    exact dropSpaces_cons_congr c ih
  | case3 c t _ ih => exact dropSpaces_cons_congr ']' ih
  | case4 c t _ ih => exact dropSpaces_cons_congr c ih

theorem dropSpaces_flush (segment : Text) : dropSpaces (flush segment) = dropSpaces segment := by
  rw [flush, dropSpaces_spaceAfterBracket, dropSpaces_replaceChar (by decide), dropSpaces_replaceChar (by decide),
    dropSpaces_tighten, dropSpaces_collapse]

theorem dropSpaces_normalizeFrom (buf t : Text) : dropSpaces (normalizeFrom buf t) = dropSpaces (buf ++ t) := by
  fun_induction normalizeFrom buf t with
  | case1 buf => rw [dropSpaces_flush, List.append_nil]
  | case2 buf u ih =>
    rw [dropSpaces_append, dropSpaces_append, dropSpaces_flush, ih, List.nil_append, ← dropSpaces_append,
      ← dropSpaces_append]
    conv_rhs => rw [← stringEnd_append u]
    simp
  | case3 buf c u _ ih => rw [ih, List.append_assoc, List.singleton_append]

theorem dropSpaces_normalize (t : Text) : dropSpaces (normalize t) = dropSpaces t := by
  rw [normalize, dropSpaces_strip, dropSpaces_normalizeFrom, List.nil_append]

theorem normalize_eq_nil_iff {t : Text} : normalize t = [] ↔ strip t = [] := by
  rw [strip_eq_nil_iff, ← dropSpaces_eq_nil_iff, ← dropSpaces_normalize, dropSpaces_eq_nil_iff]
  constructor
  · intro h
    rw [h]
    exact fun c member => absurd member List.not_mem_nil
  · intro h
    have := strip_eq_nil_iff.mpr h
    rwa [normalize, strip_strip] at this

end BinderIdl.Surface
