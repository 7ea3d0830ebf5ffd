import BinderIdl.Theorems.Comments
import BinderIdl.Theorems.Literals

/-! Splitting a body whose braces are balanced: the statements and declarations, written back, are the body, and the
    inner bodies are balanced and shorter. -/

namespace BinderIdl.Surface
open Py Lex

/-- Read in this mode with so many braces open, the text closes them all and no others; braces in literals do not
    count. -/
def Closes (m : Mode) (depth : ℕ) : Text → Prop
  | [] => depth = 0
  | c :: t =>
    if m = .code ∧ c = '\x7b' then Closes .code (depth + 1) t
    else if m = .code ∧ c = '\x7d' then 0 < depth ∧ Closes .code (depth - 1) t
    else Closes (m.step c) depth t

/-- The braces outside literals are balanced. -/
def Balanced (t : Text) : Prop := Closes .code 0 t

/-- The items, each statement before a `;` and each declaration around its braces, make up the text, apart from blanks
    around them, empty statements and the last `;`. -/
inductive WrittenBack : Text → List Item → Prop where
  | done {g : Text} (blank : ∀ c ∈ g, isSpace c = true) : WrittenBack g []
  | last {g s g' : Text} (blank : ∀ c ∈ g, isSpace c = true) (blank' : ∀ c ∈ g', isSpace c = true) (some : s ≠ []) :
      WrittenBack (g ++ s ++ g') [.stmt s]
  | empty {g t : Text} {items : List Item} (blank : ∀ c ∈ g, isSpace c = true) (rest : WrittenBack t items) :
      WrittenBack (g ++ ';' :: t) items
  | stmt {g s g' t : Text} {items : List Item} (blank : ∀ c ∈ g, isSpace c = true) (blank' : ∀ c ∈ g', isSpace c = true)
      (some : s ≠ []) (rest : WrittenBack t items) : WrittenBack (g ++ s ++ g' ++ ';' :: t) (.stmt s :: items)
  | decl {g h g' inner t : Text} {items : List Item} (blank : ∀ c ∈ g, isSpace c = true)
      (blank' : ∀ c ∈ g', isSpace c = true) (rest : WrittenBack t items) :
      WrittenBack (g ++ h ++ g' ++ '\x7b' :: (inner ++ '\x7d' :: t)) (.decl h inner :: items)

/-! ### Balanced texts -/

section
variable {depth : ℕ} {t : Text} {c : Char}

theorem closes_code (other : c ≠ '"' ∧ c ≠ '\x7b' ∧ c ≠ '\x7d') : Closes .code depth (c :: t) ↔ Closes .code depth t := by
  rw [Closes, if_neg fun h => other.2.1 h.2, if_neg fun h => other.2.2 h.2, step_code other.1]

theorem closes_open : Closes .code depth ('\x7b' :: t) ↔ Closes .code (depth + 1) t := by
  rw [Closes, if_pos ⟨rfl, rfl⟩]

theorem closes_close : Closes .code depth ('\x7d' :: t) ↔ 0 < depth ∧ Closes .code (depth - 1) t := by
  rw [Closes, if_neg fun h => absurd h.2 (by decide), if_pos ⟨rfl, rfl⟩]

theorem closes_within {m : Mode} (inside : m ≠ .code) : Closes m depth (c :: t) ↔ Closes (m.step c) depth t := by
  rw [Closes, if_neg fun h => inside h.1, if_neg fun h => inside h.1]

/-- A literal is read to its end, whatever it holds. -/
theorem closes_lit (u : Text) : Closes .lit depth u ↔ Closes .code depth (stringEnd u).2 := by
  fun_induction stringEnd u with
  | case1 => exact Iff.rfl
  | case2 t => exact closes_within (by decide)
  | case3 c t ih => exact (closes_within (by decide)).trans ((closes_within (by decide)).trans ih)
  | case4 c t notQuote notEscape ih =>
    rw [closes_within (by decide)]
    by_cases slash : c = '\\'
    · subst slash
      cases t with
      | nil => exact Iff.rfl
      | cons d t => exact absurd rfl (notEscape d t rfl)
    · rw [Mode.step, if_neg notQuote, if_neg slash]
      exact ih

theorem closes_literal (u : Text) : Closes .code depth ('"' :: u) ↔ Closes .code depth (stringEnd u).2 := by
  rw [← closes_lit, Closes, if_neg fun h => absurd h.2 (by decide), if_neg fun h => absurd h.2 (by decide)]
  exact Iff.rfl

end

/-- The scanner finds the brace that closes the last of the open ones: what it passes closes all but that one, and what is
    left closes those that were open before. -/
theorem matchBrace_closes {depth before : ℕ} {t : Text} (closes : Closes .code (depth + 1 + before) t) :
    ∃ x, matchBrace (depth + 1) t = (x ++ ['\x7d'], (matchBrace (depth + 1) t).2) ∧ Closes .code depth x ∧
      Closes .code before (matchBrace (depth + 1) t).2 := by
  generalize same : depth + 1 = opened at closes ⊢
  fun_induction matchBrace opened t generalizing depth with
  | case1 t => cases same
  | case2 d =>
    have none : d + 1 + before = 0 := closes
    omega
  | case3 d u ih =>
    rw [closes_literal] at closes
    have more : (stringEnd u).2 ≠ [] := by
      intro none
      rw [none] at closes
      have impossible : d + 1 + before = 0 := closes
      omega
    obtain ⟨x, found, inner, rest⟩ := ih same closes
    refine ⟨'"' :: (stringEnd u).1 ++ x, ?_, ?_, rest⟩
    · rw [found]
      simp
    · rw [List.cons_append, closes_literal, stringEnd_closed more]
      exact inner
  | case4 d u ih =>
    rw [closes_open] at closes
    obtain ⟨x, found, inner, rest⟩ := ih rfl (by rwa [Nat.add_right_comm (d + 1) 1 before])
    refine ⟨'\x7b' :: x, ?_, ?_, rest⟩
    · rw [found]
      rfl
    · rw [closes_open, Nat.succ.inj same]
      exact inner
  | case5 d u ih =>
    rw [closes_close] at closes
    have left : Closes .code (d + before) u := by
      have := closes.2
      rwa [show d + 1 + before - 1 = d + before by omega] at this
    cases d with
    | zero =>
      obtain rfl : depth = 0 := by omega
      rw [matchBrace]
      refine ⟨[], rfl, rfl, ?_⟩
      rwa [Nat.zero_add] at left
    | succ d =>
      obtain ⟨x, found, inner, rest⟩ := ih rfl left
      refine ⟨'\x7d' :: x, ?_, ?_, rest⟩
      · rw [found]
        rfl
      · rw [closes_close, Nat.succ.inj same]
        exact ⟨Nat.succ_pos d, inner⟩
  | case6 d c u notQuote notOpen notClose ih =>
    rw [closes_code ⟨notQuote, notOpen, notClose⟩] at closes
    obtain ⟨x, found, inner, rest⟩ := ih same closes
    refine ⟨c :: x, ?_, ?_, rest⟩
    · rw [found]
      rfl
    · rw [closes_code ⟨notQuote, notOpen, notClose⟩]
      exact inner

/-! ### The items of a balanced body -/

theorem writtenBack_flushStmt (buf : Text) : WrittenBack buf (flushStmt buf) := by
  obtain ⟨g, g', blank, blank', same⟩ := exists_strip_eq buf
  rw [flushStmt]
  split
  · rename_i none
    exact .done (strip_eq_nil_iff.mp none)
  · rename_i some
    have written := WrittenBack.last blank blank' some
    rw [← same] at written
    exact written

theorem WrittenBack.flushStmt {t : Text} {items : List Item} (rest : WrittenBack t items) (buf : Text) :
    WrittenBack (buf ++ ';' :: t) (Surface.flushStmt buf ++ items) := by
  obtain ⟨g, g', blank, blank', same⟩ := exists_strip_eq buf
  rw [Surface.flushStmt]
  split
  · rename_i none
    exact .empty (strip_eq_nil_iff.mp none) rest
  · rename_i some
    have written := WrittenBack.stmt blank blank' some rest
    rw [← same] at written
    exact written

theorem not_decl_flushStmt {buf h inner : Text} (member : .decl h inner ∈ flushStmt buf) : False := by
  rw [flushStmt] at member
  split at member
  · cases member
  · cases List.mem_singleton.mp member

theorem writtenBack_splitFrom {buf t : Text} (balanced : Balanced t) :
    WrittenBack (buf ++ t) (splitFrom buf t) ∧ ∀ h inner, .decl h inner ∈ splitFrom buf t → Balanced inner := by
  fun_induction splitFrom buf t with
  | case1 buf =>
    rw [List.append_nil]
    exact ⟨writtenBack_flushStmt buf, fun h inner member => (not_decl_flushStmt member).elim⟩
  | case2 buf u ih =>
    have written := ih ((closes_literal u).mp balanced)
    rw [List.append_assoc, List.cons_append, stringEnd_append] at written
    exact written
  | case3 buf u ih =>
    obtain ⟨x, found, inner, rest⟩ := @matchBrace_closes 0 0 u (closes_open.mp balanced)
    obtain ⟨written, others⟩ := ih rest
    have first : (matchBrace 1 u).1 = x ++ ['\x7d'] := congrArg Prod.fst found
    have whole := matchBrace_append 1 u
    obtain ⟨g, g', blank, blank', same⟩ := exists_strip_eq buf
    rw [first, List.append_assoc, List.singleton_append] at whole
    rw [first, List.dropLast_concat]
    refine ⟨?_, fun h body member => ?_⟩
    · have back : WrittenBack (g ++ strip buf ++ g' ++ '\x7b' :: (x ++ '\x7d' :: (matchBrace 1 u).2))
          (.decl (strip buf) x :: splitFrom [] (matchBrace 1 u).2) := .decl blank blank' written
      rw [← same, whole] at back
      exact back
    · rcases List.mem_cons.mp member with same | member
      · cases same
        exact inner
      · exact others h body member
  | case4 buf u ih =>
    obtain ⟨written, others⟩ := ih ((closes_code (by decide)).mp balanced)
    refine ⟨written.flushStmt buf, fun h inner member => ?_⟩
    rcases List.mem_append.mp member with member | member
    · exact (not_decl_flushStmt member).elim
    · exact others h inner member
  | case5 buf c u notQuote notOpen notSemicolon ih =>
    have written := ih ?_
    · rw [List.append_assoc, List.singleton_append] at written
      exact written
    · by_cases close : c = '\x7d'
      · -- a closing brace would have nothing to close
        subst close
        exact absurd (closes_close.mp balanced).1 (Nat.lt_irrefl 0)
      · exact (closes_code ⟨notQuote, notOpen, close⟩).mp balanced

theorem WrittenBack.length_lt {t : Text} {items : List Item} (written : WrittenBack t items) {h inner : Text}
    (member : .decl h inner ∈ items) : inner.length < t.length := by
  induction written with
  | done _ => cases member
  | last _ _ _ => cases List.mem_singleton.mp member
  | empty _ _ ih =>
    have := ih member
    simp only [List.length_append, List.length_cons]
    omega
  | stmt _ _ _ _ ih =>
    rcases List.mem_cons.mp member with same | member
    · cases same
    · have := ih member
      simp only [List.length_append, List.length_cons]
      omega
  | decl _ _ _ ih =>
    rcases List.mem_cons.mp member with same | member
    · cases same
      simp only [List.length_append, List.length_cons]
      omega
    · have := ih member
      simp only [List.length_append, List.length_cons]
      omega

/-- The one body stands between the braces of a declaration in the other. -/
def Nests (body inner : Text) : Prop := ∃ h, .decl h inner ∈ splitStatements body

theorem Nests.shorter {body inner : Text} (balanced : Balanced body) (nests : Nests body inner) :
    Balanced inner ∧ inner.length < body.length := by
  obtain ⟨h, member⟩ := nests
  obtain ⟨written, others⟩ := @writtenBack_splitFrom [] body balanced
  exact ⟨others h inner member, written.length_lt member⟩

/-- A balanced body is given by its items, its inner bodies are balanced and shorter, and so bodies are nested no deeper
    than the body is long. -/
theorem splitStatements_lossless {body : Text} (balanced : Balanced body) :
    WrittenBack body (splitStatements body) ∧
      (∀ inner, Nests body inner → Balanced inner ∧ inner.length < body.length) ∧
      ∀ bodies, List.IsChain Nests (body :: bodies) → bodies.length ≤ body.length := by
  refine ⟨(@writtenBack_splitFrom [] body balanced).1, fun inner nests => nests.shorter balanced, fun bodies chain => ?_⟩
  induction bodies generalizing body with
  | nil => exact Nat.zero_le _
  | cons inner bodies ih =>
    obtain ⟨nests, rest⟩ := List.isChain_cons_cons.mp chain
    obtain ⟨inside, shorter⟩ := nests.shorter balanced
    have := ih inside rest
    rw [List.length_cons]
    omega

/-- A literal with a brace, a statement and a declaration with an inner one. -/
theorem splitStatements_nested :
    let body := "String s = \"\x7d;\"; parcelable P \x7b union U \x7b int i; \x7d \x7d ;".toList
    WrittenBack body (splitStatements body) ∧
      (∀ inner, Nests body inner → Balanced inner ∧ inner.length < body.length) ∧
      ∀ bodies, List.IsChain Nests (body :: bodies) → bodies.length ≤ body.length :=
  splitStatements_lossless (by simp [Balanced, Closes, Mode.step])

end BinderIdl.Surface
