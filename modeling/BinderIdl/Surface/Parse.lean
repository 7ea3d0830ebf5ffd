import BinderIdl.Surface.Scan

/-! Parsing `.aidl` sources (`host/aidl_surface.py`). Each regular expression is a function that returns
    what the expression matched and the text behind the match; in all of them a shorter run of a repeated
    class is followed by a character of that class, so the longest run is the only one that can match. -/

namespace BinderIdl.Surface
open Py

/-- `DECL_KINDS` -/
inductive Kind where
  | interface
  | parcelable
  | union
  | enum
deriving DecidableEq, Repr

def Kind.text : Kind → Text
  | .interface => "interface".toList
  | .parcelable => "parcelable".toList
  | .union => "union".toList
  | .enum => "enum".toList

def Kind.all : List Kind := [.interface, .parcelable, .union, .enum]

/-- A value of the `types` dictionary. -/
structure TypeDecl where
  kind : Kind
  oneway : Bool
  annotations : List Text
  members : List Text
deriving DecidableEq, Repr

abbrev Types := Dict Text TypeDecl

/-- The exceptions that reach the caller: the `ValueError` of `int(expr, 0)`, the `ValueError`
    `bad dump header line`, and the `IndexError` of an empty `split()`. -/
inductive SurfaceError where
  | intLiteral (expr : Text)
  | headerLine (line : Text)
  | index
deriving DecidableEq, Repr

/-! ### Annotations and declaration headers -/

/-- `\s*\([^)]*\)` -/
def argsMatch (t : Text) : Option (Text × Text) :=
  match t.dropWhile isSpace with
  | '(' :: u =>
    match u.dropWhile (· != ')') with
    | ')' :: v => some (t.takeWhile isSpace ++ '(' :: u.takeWhile (· != ')') ++ [')'], v)
    | _ => none
  | _ => none

/-- `_ANNOTATION_RE`: `@\w+(\s*\([^)]*\))?` -/
def annotationMatch : Text → Option (Text × Text)
  | '@' :: t =>
    if t.takeWhile isWord = [] then none
    else
      match argsMatch (t.dropWhile isWord) with
      | some (args, rest) => some ('@' :: t.takeWhile isWord ++ args, rest)
      | none => some ('@' :: t.takeWhile isWord, t.dropWhile isWord)
  | _ => none

theorem argsMatch_append {t a r : Text} (h : argsMatch t = some (a, r)) : t = a ++ r := by
  unfold argsMatch at h
  split at h
  · rename_i u hu
    split at h
    · rename_i v hv
      cases h
      conv_lhs => rw [← List.takeWhile_append_dropWhile (p := isSpace) (l := t), hu,
        ← List.takeWhile_append_dropWhile (p := (· != ')')) (l := u), hv]
      simp
    · cases h
  · cases h

theorem annotationMatch_append {t a r : Text} (h : annotationMatch t = some (a, r)) : t = a ++ r := by
  unfold annotationMatch at h
  split at h
  · rename_i t
    have ht := List.takeWhile_append_dropWhile (p := isWord) (l := t)
    split at h
    · cases h
    · split at h
      · rename_i args rest hargs
        cases h
        have := argsMatch_append hargs
        rw [List.append_assoc, ← this, List.cons_append, ht]
      · cases h
        rw [List.cons_append, ht]
  · cases h

theorem annotationMatch_length {t a r : Text} (h : annotationMatch t = some (a, r)) : r.length < t.length := by
  have happ := annotationMatch_append h
  have hne : a ≠ [] := by
    unfold annotationMatch at h
    split at h
    · split at h
      · cases h
      · split at h <;> cases h <;> simp
    · cases h
  have := List.length_pos_of_ne_nil hne
  rw [happ, List.length_append]
  omega

/-- `re.sub(r'\s+', '', t)` -/
def dropSpaces (t : Text) : Text := t.filter fun c => !isSpace c

theorem dropSpaces_eq_self {t : Text} (h : ∀ c ∈ t, isSpace c = false) : dropSpaces t = t := by
  rw [dropSpaces, List.filter_eq_self]
  exact fun c hc => by rw [h c hc]; rfl

/-- The loop of `_take_annotations` on a stripped text. -/
def takeAnnotationsFrom (rest : Text) : List Text × Text :=
  match _h : annotationMatch rest with
  | none => ([], rest)
  | some (ann, r) => (dropSpaces ann :: (takeAnnotationsFrom (strip r)).1, (takeAnnotationsFrom (strip r)).2)
termination_by rest.length
decreasing_by
  all_goals
    have h₁ := annotationMatch_length _h
    have h₂ := strip_length_le r
    omega

/-- `_take_annotations` -/
def takeAnnotations (text : Text) : List Text × Text := takeAnnotationsFrom (strip text)

/-- The text behind a keyword and at least one blank: `kw\s+`. -/
def keywordMatch (kw t : Text) : Option Text :=
  if kw <+: t then
    match t.drop kw.length with
    | c :: u => if isSpace c then some (u.dropWhile isSpace) else none
    | [] => none
  else none

structure DeclHead where
  oneway : Bool
  kind : Kind
  name : Text
deriving DecidableEq, Repr

/-- `(?P<kind>interface|parcelable|union|enum)\s+(?P<name>\w+)\s*(?P<term>[{;])` -/
def kindMatch (t : Text) : Option (Kind × Text) :=
  Kind.all.findSome? fun kind =>
    match keywordMatch kind.text t with
    | none => none
    | some u =>
      match u.takeWhile isWord, (u.dropWhile isWord).dropWhile isSpace with
      | c :: w, term :: _ => if term = '{' ∨ term = ';' then some (kind, c :: w) else none
      | _, _ => none

/-- `_DECL_RE` -/
def declMatch (t : Text) : Option DeclHead :=
  match (keywordMatch "oneway".toList t).bind kindMatch with
  | some (kind, name) => some ⟨true, kind, name⟩
  | none => (kindMatch t).map fun (kind, name) => ⟨false, kind, name⟩

/-! ### Enum bodies -/

def isHexDigit (c : Char) : Bool :=
  ('0' ≤ c && c ≤ '9') || ('a' ≤ c && c ≤ 'f') || ('A' ≤ c && c ≤ 'F')

/-- The optional sign of a literal and its digits. -/
def signSplit : Text → Bool × Text
  | '+' :: t => (false, t)
  | '-' :: t => (true, t)
  | t => (false, t)

/-- The digits behind `0x` or `0X`, when there are only such digits. -/
def hexDigits? : Text → Option Text
  | '0' :: x :: h => if (x = 'x' ∨ x = 'X') ∧ h ≠ [] ∧ h.all isHexDigit then some h else none
  | _ => none

/-- `_INT_RE.match`: `^[+-]?(0[xX][0-9a-fA-F]+|\d+)$`. The text is stripped, so `$` is its end. -/
def isIntLiteral (t : Text) : Bool :=
  let u := (signSplit t).2
  (hexDigits? u).isSome || (!u.isEmpty && u.all isDigit)

def hexValue (c : Char) : Nat :=
  if c ≤ '9' then c.toNat - 0x30 else if c ≤ 'F' then c.toNat - 0x37 else c.toNat - 0x57

/-- `int(expr, 0)` of a text that `_INT_RE` matches: with base 0 a decimal literal other than zero must
    not start with a zero. -/
def parseInt (t : Text) : Except SurfaceError Int :=
  let sign : Int := if (signSplit t).1 then -1 else 1
  let u := (signSplit t).2
  match hexDigits? u with
  | some h => .ok (sign * (h.foldl (fun n c => 16 * n + hexValue c) 0 : Nat))
  | none =>
    let digits := u.map fun c => (decimal? c).getD 0
    if digits.head? = some 0 ∧ ∃ d ∈ digits, d ≠ 0 then .error (.intLiteral t)
    else .ok (sign * (digits.foldl (fun n d => 10 * n + d) 0 : Nat))

/-- `'%s = %s' % (name, value)` -/
def enumLine (name value : Text) : Text := name ++ " = ".toList ++ value

/-- The loop of `_parse_enum_body`; `prev` is `none` behind a value that is not a literal. -/
def parseEnumValues (prev : Option Int) : List Text → Except SurfaceError (List Text)
  | [] => .ok []
  | v :: vs =>
    let value := strip v
    if value = [] then parseEnumValues prev vs
    else if '=' ∈ value then
      let name := strip (partition '=' value).1
      let expr := strip (partition '=' value).2
      if isIntLiteral expr then do
        let k ← parseInt expr
        let members ← parseEnumValues (some k) vs
        return enumLine name (ofInt k) :: members
      else do
        let members ← parseEnumValues none vs
        return enumLine name (normalize expr) :: members
    else do
      let members ← parseEnumValues (prev.map (· + 1)) vs
      return (match prev with
        | some k => enumLine value (ofInt (k + 1))
        | none => value) :: members

/-- `_parse_enum_body` -/
def parseEnumBody (body : Text) : Except SurfaceError (List Text) :=
  parseEnumValues (some (-1)) (body.splitOn ',')

/-! ### Declarations -/

/-- `'.'.join(x for x in parts if x)` -/
def dotted (parts : List Text) : Text := ['.'].intercalate (parts.filter fun p => !p.isEmpty)

def Item.size : Item → Nat
  | .stmt _ => 1
  | .decl _ body => body.length + 1

theorem flushStmt_size (buf : Text) : ((flushStmt buf).map Item.size).sum ≤ buf.length := by
  unfold flushStmt
  split
  · simp
  · rename_i h
    have : buf ≠ [] := by
      rintro rfl
      exact h rfl
    simpa [Item.size, Nat.one_le_iff_ne_zero] using this

theorem splitFrom_size (buf t : Text) : ((splitFrom buf t).map Item.size).sum ≤ buf.length + t.length := by
  fun_induction splitFrom buf t with
  | case1 buf => simpa using flushStmt_size buf
  | case2 buf u ih =>
    have := congrArg List.length (stringEnd_append u)
    simp only [List.length_append, List.length_cons] at ih this ⊢
    omega
  | case3 buf u ih =>
    have := matchBrace_length 1 u
    simp only [List.map_cons, List.sum_cons, Item.size, List.length_dropLast, List.length_nil,
      List.length_cons] at ih ⊢
    omega
  | case4 buf u ih =>
    have := flushStmt_size buf
    simp only [List.map_append, List.sum_append, List.length_nil, List.length_cons] at ih ⊢
    omega
  | case5 buf c u _ _ _ ih =>
    simp only [List.length_append, List.length_cons, List.length_nil] at ih ⊢
    omega

theorem splitStatements_size (body : Text) : ((splitStatements body).map Item.size).sum ≤ body.length := by
  simpa [splitStatements] using splitFrom_size [] body

mutual

/-- `_parse_type`: the assignments it makes to `types`, in order; nested types come before the type
    that holds them. The dictionary is never read while parsing. -/
def parseType (package header body outer : Text) : Except SurfaceError (List (Text × TypeDecl)) :=
  let (anns, rest) := takeAnnotations header
  match declMatch (rest ++ " \x7b".toList) with
  | none => .ok []
  | some head =>
    let qname := dotted [package, outer, head.name]
    if head.kind = .enum then do
      let members ← parseEnumBody body
      return [(qname, ⟨head.kind, head.oneway, sorted anns, members⟩)]
    else do
      let (members, nested) ← parseItems package (dotted [outer, head.name]) (splitStatements body)
      return nested ++ [(qname, ⟨head.kind, head.oneway, sorted anns, members⟩)]
termination_by 2 * body.length + 1
decreasing_by
  have := splitStatements_size body
  omega

/-- The loop of `_parse_type` over the statements of a body: its members, and the assignments of the
    nested declarations. -/
def parseItems (package outer : Text) (items : List Item) :
    Except SurfaceError (List Text × List (Text × TypeDecl)) :=
  match items with
  | [] => .ok ([], [])
  | .stmt text :: items => do
    let (members, nested) ← parseItems package outer items
    return (normalize text :: members, nested)
  | .decl header body :: items => do
    let inner ← parseType package header body outer
    let (members, nested) ← parseItems package outer items
    return (members, inner ++ nested)
termination_by 2 * (items.map Item.size).sum
decreasing_by
  all_goals
    simp only [List.map_cons, List.sum_cons, Item.size]
    omega

end

/-! ### Files -/

/-- `\s*(kw₁|kw₂|…)\s+[…]+\s*;` at the start of a text, with the class of the name's characters: the name
    and the text behind the match. -/
def clauseMatch (keywords : List Text) (inName : Char → Bool) (t : Text) : Option (Text × Text) :=
  keywords.findSome? fun kw =>
    match keywordMatch kw (t.dropWhile isSpace) with
    | none => none
    | some u =>
      match u.takeWhile inName, (u.dropWhile inName).dropWhile isSpace with
      | c :: w, ';' :: rest => some (c :: w, rest)
      | _, _ => none

theorem keywordMatch_length {kw t u : Text} (h : keywordMatch kw t = some u) : u.length < t.length := by
  unfold keywordMatch at h
  split at h
  · split at h
    · rename_i c v hv
      split at h
      · cases h
        have h₁ := (List.dropWhile_suffix isSpace (l := v)).length_le
        have h₂ := (List.drop_suffix kw.length t).length_le
        rw [hv, List.length_cons] at h₂
        omega
      · cases h
    · cases h
  · cases h

theorem clauseMatch_length {kws : List Text} {p : Char → Bool} {t n r : Text}
    (h : clauseMatch kws p t = some (n, r)) : r.length < t.length := by
  obtain ⟨kw, -, hkw⟩ := List.exists_of_findSome?_eq_some h
  split at hkw
  · cases hkw
  · rename_i u hu
    split at hkw
    · rename_i c w rest hw hrest
      cases hkw
      have h₁ := keywordMatch_length hu
      have h₂ := length_of_dropWhile_cons hrest
      have h₃ := (List.dropWhile_suffix p (l := u)).length_le
      have h₄ := (List.dropWhile_suffix isSpace (l := t)).length_le
      omega
    · cases hkw

/-- `re.search(r'^\s*package\s+([\w.]+)\s*;', text, re.M)`: `^` holds at the start and behind a newline. -/
def searchPackage (lineStart : Bool) : Text → Option Text
  | [] => none
  | c :: t =>
    match (if lineStart then clauseMatch ["package".toList] (fun d => isWord d || d == '.') (c :: t) else none) with
    | some (name, _) => some name
    | none => searchPackage (c == '\n') t

/-- `re.sub(r'^\s*(package|import)\s+[\w.*]+\s*;', '', text, flags=re.M)` -/
def removeImports (lineStart : Bool) (t : Text) : Text :=
  match t with
  | [] => []
  | c :: u =>
    match _h : (if lineStart then clauseMatch ["package".toList, "import".toList]
        (fun d => isWord d || d == '.' || d == '*') (c :: u) else none) with
    | some (_, rest) => removeImports false rest
    | none => c :: removeImports (c == '\n') u
termination_by t.length
decreasing_by
  · split at _h
    · exact clauseMatch_length _h
    · cases _h
  · simp

/-- The assignments `parse_aidl` makes for one top-level statement: a type declaration, or the forward
    declaration of an unstructured type. -/
def parseTop (package : Text) : Item → Except SurfaceError (List (Text × TypeDecl))
  | .decl header body => parseType package header body []
  | .stmt text =>
    let (anns, rest) := takeAnnotations text
    match declMatch (rest ++ " ;".toList) with
    | none => .ok []
    | some head => .ok [(dotted [package, head.name], ⟨head.kind, false, sorted anns, []⟩)]

/-- The assignments `parse_aidl` makes for the text of one file. -/
def declared (text : Text) : Except SurfaceError (List (Text × TypeDecl)) :=
  let t := stripComments text
  let package := (searchPackage true t).getD []
  ((splitStatements (removeImports true t)).mapM (parseTop package)).map List.flatten

/-- `parse_aidl` -/
def parseAidl (text : Text) (types : Types) : Except SurfaceError Types :=
  (declared text).map fun ds => ds.foldl (fun types d => types.set d.1 d.2) types

end BinderIdl.Surface
