import BinderIdl.Surface.Scan
import Mathlib.Tactic.Common

/-! What `strip_comments` leaves of a text: the text is read as literals, comments and other characters, and only the
    comments go. -/

namespace BinderIdl.Surface
open Py

/-- A part of a text, read from left to right. -/
inductive Piece where
  | literal (text : Text)
  | line (text : Text)
  | block (text : Text)
  | char (c : Char)
deriving DecidableEq

/-- A comment opens here. -/
def Opens (t : Text) : Prop := ∃ u, t = '/' :: '/' :: u ∨ t = '/' :: '*' :: u

/-- The text is read as these parts: a literal is delimited by `_string_end`, a line comment ends before a newline or with
    the text, and a block comment behind its first `*/` or with the text. -/
inductive Reads : Text → List Piece → Prop where
  | nil : Reads [] []
  | literal {t : Text} {ps : List Piece} (rest : Reads (stringEnd t).2 ps) :
      Reads ('"' :: t) (.literal ('"' :: (stringEnd t).1) :: ps)
  | line {x t : Text} {ps : List Piece} (single : '\n' ∉ x) (ends : ∀ c ∈ t.head?, c = '\n') (rest : Reads t ps) :
      Reads ('/' :: '/' :: (x ++ t)) (.line x :: ps)
  | block {x t : Text} {ps : List Piece} (first : ¬['*', '/'] <:+: x) (rest : Reads t ps) :
      Reads ('/' :: '*' :: (x ++ '*' :: '/' :: t)) (.block x :: ps)
  | unclosed {x : Text} (none : ¬['*', '/'] <:+: x) : Reads ('/' :: '*' :: x) [.block x]
  | char {c : Char} {t : Text} {ps : List Piece} (notQuote : c ≠ '"') (notOpen : ¬Opens (c :: t)) (rest : Reads t ps) :
      Reads (c :: t) (.char c :: ps)

def Piece.isComment : Piece → Bool
  | .line _ => true
  | .block _ => true
  | _ => false

def Piece.literal? : Piece → Option Text
  | .literal text => some text
  | _ => none

/-- What is left of a part. -/
def Piece.left : Piece → Text
  | .literal text => text
  | .line _ => []
  | .block _ => [' ']
  | .char c => [c]

/-- How the rest of a part is read again. -/
def Piece.kept : Piece → List Piece
  | .literal text => [.literal text]
  | .line _ => []
  | .block _ => [.char ' ']
  | .char c => [.char c]

/-! ### The only reading -/

/-- The text before the first `*/`. -/
def beforeBlock : Text → Text
  | [] => []
  | '*' :: '/' :: _ => []
  | c :: t => c :: beforeBlock t

/-- The parts of a text. -/
def pieces (t : Text) : List Piece :=
  match t with
  | [] => []
  | '"' :: u => .literal ('"' :: (stringEnd u).1) :: pieces (stringEnd u).2
  | '/' :: '/' :: u => .line (u.takeWhile (· != '\n')) :: pieces (u.dropWhile (· != '\n'))
  | '/' :: '*' :: u => .block (beforeBlock u) :: pieces (afterBlock u)
  | c :: u => .char c :: pieces u
termination_by t.length
decreasing_by
  · have := stringEnd_length u
    simp only [List.length_cons]
    omega
  · have := (List.dropWhile_suffix (· != '\n') (l := u)).length_le
    simp only [List.length_cons]
    omega
  · have := afterBlock_length u
    simp only [List.length_cons]
    omega
  · simp

theorem afterBlock_closed {t : Text} (unclosed : ¬['*', '/'] <:+: t) (r : Text) :
    beforeBlock (t ++ '*' :: '/' :: r) = t ∧ afterBlock (t ++ '*' :: '/' :: r) = r := by
  induction t with
  | nil => exact ⟨rfl, rfl⟩
  | cons c t ih =>
    have inner := ih fun inside => unclosed (inside.trans (List.infix_cons (List.infix_refl _)))
    have other : ∀ u, c = '*' → t ++ '*' :: '/' :: r ≠ '/' :: u := by
      rintro u rfl same
      cases t with
      | nil => cases same
      | cons d t =>
        cases same
        exact unclosed ⟨[], t, rfl⟩
    rw [List.cons_append, beforeBlock, afterBlock, inner.1, inner.2]
    · exact ⟨rfl, rfl⟩
    · exact other
    · exact other

theorem afterBlock_unclosed {t : Text} (unclosed : ¬['*', '/'] <:+: t) : beforeBlock t = t ∧ afterBlock t = [] := by
  induction t with
  | nil => exact ⟨rfl, rfl⟩
  | cons c t ih =>
    have inner := ih fun inside => unclosed (inside.trans (List.infix_cons (List.infix_refl _)))
    have other : ∀ u, c = '*' → t ≠ '/' :: u := by
      rintro u rfl rfl
      exact unclosed ⟨[], u, rfl⟩
    rw [beforeBlock, afterBlock, inner.1, inner.2]
    · exact ⟨rfl, rfl⟩
    · exact other
    · exact other

theorem opens_cons {c : Char} {t : Text} : Opens (c :: t) ↔ c = '/' ∧ ∃ d u, t = d :: u ∧ (d = '/' ∨ d = '*') := by
  constructor
  · rintro ⟨u, same | same⟩
    · cases same
      exact ⟨rfl, '/', u, rfl, .inl rfl⟩
    · cases same
      exact ⟨rfl, '*', u, rfl, .inr rfl⟩
  · rintro ⟨rfl, d, u, rfl, rfl | rfl⟩
    · exact ⟨u, .inl rfl⟩
    · exact ⟨u, .inr rfl⟩

theorem stripComments_char {c : Char} {t : Text} (notQuote : c ≠ '"') (notOpen : ¬Opens (c :: t)) :
    stripComments (c :: t) = c :: stripComments t := by
  rw [stripComments]
  · exact notQuote
  · rintro u rfl rfl
    exact notOpen ⟨u, .inl rfl⟩
  · rintro u rfl rfl
    exact notOpen ⟨u, .inr rfl⟩

theorem pieces_char {c : Char} {t : Text} (notQuote : c ≠ '"') (notOpen : ¬Opens (c :: t)) :
    pieces (c :: t) = .char c :: pieces t := by
  rw [pieces]
  · exact notQuote
  · rintro u rfl rfl
    exact notOpen ⟨u, .inl rfl⟩
  · rintro u rfl rfl
    exact notOpen ⟨u, .inr rfl⟩

/-- A line comment is cut off where its line ends. -/
theorem line_cut {x t : Text} (single : '\n' ∉ x) (ends : ∀ c ∈ t.head?, c = '\n') :
    (x ++ t).takeWhile (· != '\n') = x ∧ (x ++ t).dropWhile (· != '\n') = t := by
  have inside : ∀ c ∈ x, (c != '\n') = true := fun c member => by simpa using fun same : c = '\n' => single (same ▸ member)
  cases t with
  | nil => simpa using inside
  | cons c t =>
    have newline : (c != '\n') = false := by simpa using ends c rfl
    exact ⟨takeWhile_append_cons inside newline t, dropWhile_append_cons inside newline t⟩

theorem Reads.eq_pieces {t : Text} {ps : List Piece} (reads : Reads t ps) : ps = pieces t := by
  induction reads with
  | nil => rw [pieces]
  | literal _ ih => rw [pieces, ← ih]
  | line single ends _ ih =>
    obtain ⟨taken, left⟩ := line_cut single ends
    rw [pieces, taken, left, ← ih]
  | block first _ ih =>
    obtain ⟨before, after⟩ := afterBlock_closed first _
    rw [pieces, before, after, ← ih]
  | unclosed none =>
    obtain ⟨before, after⟩ := afterBlock_unclosed none
    rw [pieces, before, after, pieces]
  | char notQuote notOpen _ ih => rw [pieces_char notQuote notOpen, ← ih]

/-- A block comment ends behind the first `*/`, or is not closed. -/
theorem block_cases (t : Text) : ¬['*', '/'] <:+: beforeBlock t ∧
    (t = beforeBlock t ++ '*' :: '/' :: afterBlock t ∨ t = beforeBlock t ∧ afterBlock t = []) := by
  fun_induction beforeBlock t with
  | case1 => exact ⟨by simp, .inr ⟨rfl, rfl⟩⟩
  | case2 t => exact ⟨by simp, .inl rfl⟩
  | case3 c t other ih =>
    rw [afterBlock]
    · refine ⟨fun inside => ?_, ih.2.imp (fun closed => congrArg (c :: ·) closed) fun open' => ⟨congrArg (c :: ·) open'.1, open'.2⟩⟩
      rcases List.infix_cons_iff.mp inside with ⟨v, same⟩ | inside
      · obtain ⟨isStar, behind⟩ := List.cons.inj same
        rcases ih.2 with closed | ⟨whole, -⟩
        · rw [← behind] at closed
          exact other _ isStar.symm closed
        · rw [← behind] at whole
          exact other _ isStar.symm whole
      · exact ih.1 inside
    · exact other

theorem reads_pieces (t : Text) : Reads t (pieces t) := by
  fun_induction pieces t with
  | case1 => exact .nil
  | case2 u ih => exact .literal ih
  | case3 u ih =>
    have ends : ∀ c ∈ (u.dropWhile (· != '\n')).head?, c = '\n' := by
      intro c head
      have stop := List.head?_dropWhile_not (· != '\n') u
      rw [show _ = some c from head] at stop
      simpa using stop
    have reads := Reads.line (x := u.takeWhile (· != '\n')) (fun member => by simpa using List.mem_takeWhile_imp member) ends ih
    rw [List.takeWhile_append_dropWhile] at reads
    exact reads
  | case4 u ih =>
    obtain ⟨first, closed | ⟨none, done⟩⟩ := block_cases u
    · have reads := Reads.block first ih
      rwa [← closed] at reads
    · have reads := Reads.unclosed first
      rw [done, pieces]
      rw [← none] at reads ⊢
      exact reads
  | case5 c u notQuote notLine notBlock ih =>
    refine .char notQuote ?_ ih
    rintro ⟨v, same | same⟩
    · cases same
      exact notLine v rfl rfl
    · cases same
      exact notBlock v rfl rfl

/-! ### What is left -/

theorem Reads.output {t : Text} {ps : List Piece} (reads : Reads t ps) : stripComments t = ps.flatMap Piece.left := by
  induction reads with
  | nil => rw [stripComments, List.flatMap_nil]
  | literal _ ih =>
    rw [stripComments, ih]
    rfl
  | line single ends _ ih =>
    rw [stripComments, (line_cut single ends).2, ih]
    rfl
  | block first _ ih =>
    rw [stripComments, (afterBlock_closed first _).2, ih]
    rfl
  | unclosed none =>
    rw [stripComments, (afterBlock_unclosed none).2, stripComments]
    rfl
  | char notQuote notOpen _ ih =>
    rw [stripComments_char notQuote notOpen, ih]
    rfl

/-- A literal that is closed before the text ends is closed there before any other text. -/
theorem stringEnd_closed {u : Text} (more : (stringEnd u).2 ≠ []) (r : Text) :
    stringEnd ((stringEnd u).1 ++ r) = ((stringEnd u).1, r) := by
  fun_induction stringEnd u with
  | case1 => exact absurd rfl more
  | case2 t => rfl
  | case3 c t ih =>
    rw [List.cons_append, List.cons_append, stringEnd, ih more]
  | case4 c t notQuote notEscape ih =>
    rw [List.cons_append, stringEnd, ih more]
    · exact notQuote
    · intro d v isEscape same
      cases t with
      | nil => exact more rfl
      | cons e t => exact notEscape e t isEscape rfl

/-- The rest of a text is read as its parts without the comments. -/
theorem Reads.again {t : Text} {ps : List Piece} (reads : Reads t ps) : Reads (stripComments t) (ps.flatMap Piece.kept) := by
  rw [reads.output]
  induction reads with
  | nil => exact .nil
  | @literal t ps rest ih =>
    by_cases more : (stringEnd t).2 = []
    · have whole := stringEnd_append t
      rw [more, List.append_nil] at whole
      rw [more] at rest
      obtain rfl : ps = [] := by rw [rest.eq_pieces, pieces]
      have again : Reads ('"' :: t) [.literal ('"' :: (stringEnd t).1)] := .literal (by rw [more]; exact .nil)
      rw [whole] at again
      rw [whole, List.flatMap_singleton, List.flatMap_singleton]
      exact again
    · have again : Reads ('"' :: ((stringEnd t).1 ++ ps.flatMap Piece.left))
          (.literal ('"' :: (stringEnd ((stringEnd t).1 ++ ps.flatMap Piece.left)).1) :: ps.flatMap Piece.kept) :=
        .literal (by rw [stringEnd_closed more]; exact ih)
      rw [stringEnd_closed more] at again
      exact again
  | line single ends _ ih => exact ih
  | block first _ ih => exact .char (by decide) (fun opens => by simpa using (opens_cons.mp opens).1) ih
  | unclosed none => exact .char (by decide) (fun opens => by simpa using (opens_cons.mp opens).1) .nil
  | @char c t ps notQuote notOpen rest ih =>
    refine .char notQuote (fun opens => ?_) ih
    obtain ⟨rfl, d, u, same, second⟩ := opens_cons.mp opens
    -- what stands behind the slash is what stood there before
    cases rest with
    | nil => cases same
    | literal _ =>
      cases same
      exact absurd second (by decide)
    | line _ _ _ => exact notOpen ⟨_, .inl rfl⟩
    | block _ _ => exact notOpen ⟨_, .inl rfl⟩
    | unclosed _ => exact notOpen ⟨_, .inl rfl⟩
    | char _ _ _ =>
      cases same
      exact notOpen (opens_cons.mpr ⟨rfl, _, _, rfl, second⟩)

theorem kept_clean (ps : List Piece) : ∀ q ∈ ps.flatMap Piece.kept, q.isComment = false := by
  intro q member
  obtain ⟨p, -, among⟩ := List.mem_flatMap.mp member
  cases p with
  | literal text =>
    rw [List.mem_singleton.mp among]
    rfl
  | line text => cases among
  | block text =>
    rw [List.mem_singleton.mp among]
    rfl
  | char c =>
    rw [List.mem_singleton.mp among]
    rfl

theorem kept_literals (ps : List Piece) : (ps.flatMap Piece.kept).filterMap Piece.literal? = ps.filterMap Piece.literal? := by
  induction ps with
  | nil => rfl
  | cons p ps ih =>
    rw [List.flatMap_cons, List.filterMap_append, ih]
    cases p with
    | literal text => rfl
    | line text => rfl
    | block text => rfl
    | char c => rfl

theorem kept_left (ps : List Piece) : (ps.flatMap Piece.kept).flatMap Piece.left = ps.flatMap Piece.left := by
  induction ps with
  | nil => rfl
  | cons p ps ih =>
    rw [List.flatMap_cons, List.flatMap_append, ih]
    cases p with
    | literal text => exact congrArg (· ++ ps.flatMap Piece.left) (List.append_nil text)
    | line text => rfl
    | block text => rfl
    | char c => rfl

/-- The text is rewritten part by part, and what is left is read without comments and with the same literals. -/
structure CommentsRemoved (ps : List Piece) (out : Text) : Prop where
  output : out = ps.flatMap Piece.left
  clean : ∃ qs, Reads out qs ∧ (∀ q ∈ qs, q.isComment = false) ∧
    qs.filterMap Piece.literal? = ps.filterMap Piece.literal?

/-- Every text has one reading as literals, comments and other characters; `strip_comments` drops its line comments, puts
    a blank for each block comment and leaves the rest alone, and there is nothing left to strip. -/
theorem stripComments_exact (t : Text) :
    (∃ ps, Reads t ps ∧ (∀ qs, Reads t qs → qs = ps) ∧ CommentsRemoved ps (stripComments t)) ∧
      stripComments (stripComments t) = stripComments t := by
  have reads := reads_pieces t
  refine ⟨⟨pieces t, reads, fun qs other => other.eq_pieces, ?_⟩, ?_⟩
  · exact ⟨reads.output, _, reads.again, kept_clean _, kept_literals _⟩
  · rw [reads.again.output, kept_left, ← reads.output]

end BinderIdl.Surface
