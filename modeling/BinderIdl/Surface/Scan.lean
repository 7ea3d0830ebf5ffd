import BinderIdl.Py.Dict

/-! The scanners of `host/aidl_surface.py`: string literals, comments, the normal form of a statement
    and the statements of a declaration body. Index arithmetic on the text becomes the rest of the text
    that is still to be read. -/

namespace BinderIdl.Surface
open Py

/-- `_string_end`: of the text behind an opening quote, the rest of the literal with its closing quote,
    and the text behind it. A backslash takes the next character with it. -/
def stringEnd : Text → Text × Text
  | [] => ([], [])
  | '"' :: t => (['"'], t)
  | '\\' :: c :: t => ('\\' :: c :: (stringEnd t).1, (stringEnd t).2)
  | c :: t => (c :: (stringEnd t).1, (stringEnd t).2)

theorem stringEnd_append (t : Text) : (stringEnd t).1 ++ (stringEnd t).2 = t := by
  fun_induction stringEnd t <;> simp_all

theorem stringEnd_length (t : Text) : (stringEnd t).2.length ≤ t.length := by
  have h := congrArg List.length (stringEnd_append t)
  rw [List.length_append] at h
  omega

/-- The text behind the first `*/`, or nothing when the comment is not closed. -/
def afterBlock : Text → Text
  | [] => []
  | '*' :: '/' :: t => t
  | _ :: t => afterBlock t

theorem afterBlock_length (t : Text) : (afterBlock t).length ≤ t.length := by
  fun_induction afterBlock t <;> simp_all <;> omega

/-- `strip_comments` -/
def stripComments (t : Text) : Text :=
  match t with
  | [] => []
  | '"' :: u => '"' :: (stringEnd u).1 ++ stripComments (stringEnd u).2
  | '/' :: '/' :: u => stripComments (u.dropWhile (· != '\n'))
  | '/' :: '*' :: u => ' ' :: stripComments (afterBlock u)
  | c :: u => c :: stripComments u
termination_by t.length
decreasing_by
  · have := stringEnd_length u
    simp only [List.length_cons]
    omega
  · have := (List.dropWhile_suffix (· != '\n') (l := u)).length_le
    simp only [List.length_cons]
    omega
  · have := afterBlock_length u
    simp only [List.length_cons]
    omega
  · simp

/-! ### The normal form of a statement -/

/-- `re.sub(r'\s+', ' ', t)` -/
def collapse (t : Text) : Text :=
  match t with
  | [] => []
  | c :: u => if isSpace c then ' ' :: collapse (u.dropWhile isSpace) else c :: collapse u
termination_by t.length
decreasing_by
  · have := (List.dropWhile_suffix isSpace (l := u)).length_le
    simp only [List.length_cons]
    omega
  · simp

/-- The class `[(),;=\[\]]`. -/
def isPunct (c : Char) : Bool := c ∈ ['(', ')', ',', ';', '=', '[', ']']

theorem length_of_dropWhile_cons {p : Char → Bool} {t u : Text} {c : Char} (h : t.dropWhile p = c :: u) :
    u.length < t.length := by
  have := (List.dropWhile_suffix p (l := t)).length_le
  rw [h, List.length_cons] at this
  exact this

/-- `re.sub(r'\s*([(),;=\[\]])\s*', r'\1', t)` -/
def tighten (t : Text) : Text :=
  match t with
  | [] => []
  | c :: u =>
    match _h : (c :: u).dropWhile isSpace with
    | [] => c :: tighten u
    | p :: v => if isPunct p then p :: tighten (v.dropWhile isSpace) else c :: tighten u
termination_by t.length
decreasing_by
  · simp
  · have h₁ := length_of_dropWhile_cons _h
    have h₂ := (List.dropWhile_suffix isSpace (l := v)).length_le
    simp only [List.length_cons] at h₁ ⊢
    omega
  · simp

/-- `t.replace(c, r)` for a text of one character. -/
def replaceChar (c : Char) (r t : Text) : Text := t.flatMap fun d => if d = c then r else [d]

/-- `re.sub(r'\](\w)', r'] \1', t)` -/
def spaceAfterBracket : Text → Text
  | [] => []
  | ']' :: c :: t => if isWord c then ']' :: ' ' :: c :: spaceAfterBracket t else ']' :: spaceAfterBracket (c :: t)
  | c :: t => c :: spaceAfterBracket t

/-- `flush` of `_normalize`: the blanks of a segment that holds no string literal. -/
def flush (segment : Text) : Text :=
  spaceAfterBracket (replaceChar '=' " = ".toList (replaceChar ',' ", ".toList (tighten (collapse segment))))

/-- The loop of `_normalize`, with the segment read since the last literal. -/
def normalizeFrom (buf t : Text) : Text :=
  match t with
  | [] => flush buf
  | '"' :: u => flush buf ++ '"' :: (stringEnd u).1 ++ normalizeFrom [] (stringEnd u).2
  | c :: u => normalizeFrom (buf ++ [c]) u
termination_by t.length
decreasing_by
  · have := stringEnd_length u
    simp only [List.length_cons]
    omega
  · simp

/-- `_normalize` -/
def normalize (stmt : Text) : Text := strip (normalizeFrom [] stmt)

/-! ### Statements -/

/-- What `_split_statements` yields: `('stmt', text)` or `('decl', (header, body))`. -/
inductive Item where
  | stmt (text : Text)
  | decl (header body : Text)
deriving DecidableEq, Repr

/-- The loop over a matched-brace body: the characters up to and with the brace that closes the last of
    `depth` open ones, and the text behind it. String literals are skipped whole. -/
def matchBrace (depth : Nat) (t : Text) : Text × Text :=
  match depth, t with
  | 0, t => ([], t)
  | _ + 1, [] => ([], [])
  | d + 1, '"' :: u =>
    ('"' :: (stringEnd u).1 ++ (matchBrace (d + 1) (stringEnd u).2).1, (matchBrace (d + 1) (stringEnd u).2).2)
  | d + 1, '{' :: u => ('{' :: (matchBrace (d + 2) u).1, (matchBrace (d + 2) u).2)
  | d + 1, '}' :: u => ('}' :: (matchBrace d u).1, (matchBrace d u).2)
  | d + 1, c :: u => (c :: (matchBrace (d + 1) u).1, (matchBrace (d + 1) u).2)
termination_by t.length
decreasing_by
  all_goals
    have := stringEnd_length u
    simp only [List.length_cons]
    omega

theorem matchBrace_append (depth : Nat) (t : Text) : (matchBrace depth t).1 ++ (matchBrace depth t).2 = t := by
  fun_induction matchBrace depth t <;> simp_all [stringEnd_append]

theorem matchBrace_length (depth : Nat) (t : Text) :
    (matchBrace depth t).1.length + (matchBrace depth t).2.length = t.length := by
  rw [← List.length_append, matchBrace_append]

/-- The statement that a `;` or the end of the body closes; a blank one is not yielded. -/
def flushStmt (buf : Text) : List Item := if strip buf = [] then [] else [.stmt (strip buf)]

/-- The loop of `_split_statements`, with the text read since the last statement. The inner body is the
    slice `body[i + 1:j - 1]`, so an unclosed body loses its last character. -/
def splitFrom (buf t : Text) : List Item :=
  match t with
  | [] => flushStmt buf
  | '"' :: u => splitFrom (buf ++ '"' :: (stringEnd u).1) (stringEnd u).2
  | '{' :: u => .decl (strip buf) (matchBrace 1 u).1.dropLast :: splitFrom [] (matchBrace 1 u).2
  | ';' :: u => flushStmt buf ++ splitFrom [] u
  | c :: u => splitFrom (buf ++ [c]) u
termination_by t.length
decreasing_by
  · have := stringEnd_length u
    simp only [List.length_cons]
    omega
  · have := matchBrace_length 1 u
    simp only [List.length_cons]
    omega
  · simp
  · simp

/-- `_split_statements` -/
def splitStatements (body : Text) : List Item := splitFrom [] body

end BinderIdl.Surface
