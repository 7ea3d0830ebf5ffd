import BinderIdl.Surface.Parse

/-! What a well-formed `.aidl` source is, apart from how it is parsed: tokens with the blanks and comments before
    them, and the declarations they make up. -/

namespace BinderIdl.Surface
open Py

/-! ### Tokens -/

/-- What may stand between two tokens. -/
inductive Filler where
  | blank (c : Char) (space : isSpace c = true)
  | line (text : Text) (single : '\n' ∉ text)
  | block (text : Text) (unclosed : ¬['*', '/'] <:+: text)

abbrev Gap := List Filler

def Filler.spell : Filler → Text
  | .blank c _ => [c]
  | .line text _ => '/' :: '/' :: text ++ ['\n']
  | .block text _ => '/' :: '*' :: text ++ ['*', '/']

/-- The blanks that are left of it when comments are stripped. -/
def Filler.blanks : Filler → Text
  | .blank c _ => [c]
  | .line _ _ => ['\n']
  | .block _ _ => [' ']

def Filler.isComment : Filler → Bool
  | .blank _ _ => false
  | _ => true

/-- An identifier, a keyword or a number. -/
structure Word where
  text : Text
  nonempty : text ≠ []
  plain : text.all isWord = true

/-- The other characters that are tokens by themselves. -/
structure Symbol where
  char : Char
  solid : isSpace char = false
  notWord : isWord char = false
  notQuote : char ≠ '"' ∧ char ≠ '\''

/-- A quote behind the text ends the literal, and none in it does. -/
def isClosed : Text → Bool
  | [] => true
  | '"' :: _ => false
  | ['\\'] => false
  | '\\' :: _ :: t => isClosed t
  | _ :: t => isClosed t

/-- The text of a literal between its quotes. -/
structure Literal where
  text : Text
  closed : isClosed text = true
  single : '\n' ∉ text

inductive Token where
  | word (w : Word)
  | symbol (s : Symbol)
  | string (l : Literal)
  | char (c : Char) (single : c ≠ '\n')

def Token.spell : Token → Text
  | .word w => w.text
  | .symbol s => [s.char]
  | .string l => '"' :: l.text ++ ['"']
  | .char c _ => ['\'', c, '\'']

/-- A token behind a gap. -/
structure Spaced where
  gap : Gap
  token : Token

def Gap.spell (g : Gap) : Text := g.flatMap Filler.spell

def Gap.blanks (g : Gap) : Text := g.flatMap Filler.blanks

/-- The text of some tokens. -/
def spell (ts : List Spaced) : Text := ts.flatMap fun t => t.gap.spell ++ t.token.spell

/-- Their text without the comments. -/
def blankSpell (ts : List Spaced) : Text := ts.flatMap fun t => t.gap.blanks ++ t.token.spell

/-- Their text without anything between them. -/
def tightSpell (ts : List Spaced) : Text := ts.flatMap fun t => t.token.spell

/-- Two tokens that are read as something else when nothing stands between them. -/
def Token.runsInto : Token → Token → Bool
  | .word _, .word _ => true
  | .symbol a, .symbol b => a.char == '/' && (b.char == '/' || b.char == '*')
  | _, _ => false

def Token.isSlash : Token → Bool
  | .symbol s => s.char == '/'
  | _ => false

/-- A token may stand before another with this gap. -/
def Spaced.Before (a b : Spaced) : Prop :=
  match b.gap with
  | [] => a.token.runsInto b.token = false
  | f :: _ => (a.token.isSlash && f.isComment) = false

instance (a b : Spaced) : Decidable (a.Before b) :=
  match b with
  | ⟨[], _⟩ => inferInstanceAs (Decidable (_ = false))
  | ⟨_ :: _, _⟩ => inferInstanceAs (Decidable (_ = false))

/-- No token runs into the next one. -/
def Apart (ts : List Spaced) : Prop := ts.IsChain Spaced.Before

instance (ts : List Spaced) : Decidable (Apart ts) := inferInstanceAs (Decidable (List.IsChain _ _))

/-! ### Declarations -/

def Symbol.at : Symbol := ⟨'@', by decide, by decide, by decide⟩

def Symbol.openParen : Symbol := ⟨'(', by decide, by decide, by decide⟩

def Symbol.closeParen : Symbol := ⟨')', by decide, by decide, by decide⟩

def Symbol.openBrace : Symbol := ⟨'{', by decide, by decide, by decide⟩

def Symbol.closeBrace : Symbol := ⟨'}', by decide, by decide, by decide⟩

def Symbol.semicolon : Symbol := ⟨';', by decide, by decide, by decide⟩

def Symbol.less : Symbol := ⟨'<', by decide, by decide, by decide⟩

def Symbol.greater : Symbol := ⟨'>', by decide, by decide, by decide⟩

def Word.package : Word := ⟨"package".toList, by decide, by decide +kernel⟩

def Word.import : Word := ⟨"import".toList, by decide, by decide +kernel⟩

def Word.oneway : Word := ⟨"oneway".toList, by decide, by decide +kernel⟩

def Kind.word (kind : Kind) : Word where
  text := kind.text
  nonempty := by cases kind <;> exact List.cons_ne_nil _ _
  plain := by cases kind <;> decide +kernel

/-- A token of a constant expression: no annotation, declaration or further statement starts with it. -/
def Token.isConstant : Token → Bool
  | .word w => w.text != Word.oneway.text && Kind.all.all (fun kind => w.text != kind.text)
  | .symbol s => s.char != '@' && s.char != ';'
  | _ => true

/-- What stands between the parentheses of an annotation. -/
structure Arguments where
  before : Gap
  tokens : List Spaced
  constant : ∀ t ∈ tokens, t.token.isConstant = true
  after : Gap

/-- `@Name`, or `@Name(..)` -/
structure AnnotationTerm where
  gap : Gap
  name : Word
  arguments : Option Arguments

/-- The tokens between the parentheses. -/
def AnnotationTerm.inside (a : AnnotationTerm) : List Spaced := (a.arguments.map Arguments.tokens).getD []

def AnnotationTerm.tokens (a : AnnotationTerm) : List Spaced :=
  ⟨a.gap, .symbol .at⟩ :: ⟨[], .word a.name⟩ ::
    match a.arguments with
    | some args => ⟨args.before, .symbol .openParen⟩ :: args.tokens ++ [⟨args.after, .symbol .closeParen⟩]
    | none => []

/-- The annotation without anything between its tokens. -/
def AnnotationTerm.text (a : AnnotationTerm) : Text := tightSpell a.tokens

/-- The header of a type up to its body, with the tokens between the angles of its type parameters. -/
structure Head where
  annotations : List AnnotationTerm
  oneway : Option Gap
  kindGap : Gap
  nameGap : Gap
  name : Word
  parameters : Option (Gap × List Spaced × Gap)

def Head.parameterTokens (h : Head) : List Spaced :=
  match h.parameters with
  | some (before, parameters, after) => ⟨before, .symbol .less⟩ :: parameters ++ [⟨after, .symbol .greater⟩]
  | none => []

def Head.tokens (h : Head) (kind : Kind) : List Spaced :=
  h.annotations.flatMap AnnotationTerm.tokens ++ (h.oneway.map fun gap => ⟨gap, .word .oneway⟩).toList ++
    ⟨h.kindGap, .word kind.word⟩ :: ⟨h.nameGap, .word h.name⟩ :: h.parameterTokens

/-- Where declarations stand. -/
inductive Level where
  | file
  | type

/-- The declarations of a file, or what stands between the braces of a type. A member is given by the tokens before its
    semicolon; only a file announces types that are declared elsewhere. -/
inductive Body : Level → Type where
  | nil {l : Level} : Body l
  | forward (kind : Kind) (head : Head) (plain : head.oneway = none) (gap : Gap) (rest : Body .file) : Body .file
  | member (tokens : List Spaced) (nonempty : tokens ≠ []) (gap : Gap) (rest : Body .type) : Body .type
  | type {l : Level} (kind : Kind) (structured : kind ≠ .enum) (head : Head) (before : Gap) (inner : Body .type)
      (after : Gap) (rest : Body l) : Body l
  | enum {l : Level} (head : Head) (before : Gap) (values : List Spaced) (after : Gap) (rest : Body l) : Body l

def Body.tokens {l : Level} : Body l → List Spaced
  | .nil => []
  | .forward kind head _ gap rest => head.tokens kind ++ ⟨gap, .symbol .semicolon⟩ :: rest.tokens
  | .member tokens _ gap rest => tokens ++ ⟨gap, .symbol .semicolon⟩ :: rest.tokens
  | .type kind _ head before inner after rest =>
    head.tokens kind ++ ⟨before, .symbol .openBrace⟩ :: inner.tokens ++ ⟨after, .symbol .closeBrace⟩ :: rest.tokens
  | .enum head before values after rest =>
    head.tokens .enum ++ ⟨before, .symbol .openBrace⟩ :: values ++ ⟨after, .symbol .closeBrace⟩ :: rest.tokens

/-- The members of a body in their order, those of nested types left out. -/
def Body.members {l : Level} : Body l → List (List Spaced)
  | .nil => []
  | .forward _ _ _ _ rest => rest.members
  | .member tokens _ _ rest => tokens :: rest.members
  | .type _ _ _ _ _ _ rest => rest.members
  | .enum _ _ _ _ rest => rest.members

/-- A type that is declared, with its body when it has one of members. -/
structure Declaration where
  kind : Kind
  head : Head
  body : Option (Body .type)

/-- The types that a body declares at any depth, each behind the names of the types around it. -/
def Body.declares {l : Level} (outer : List Text) : Body l → List (List Text × Declaration)
  | .nil => []
  | .forward kind head _ _ rest => (outer ++ [head.name.text], ⟨kind, head, none⟩) :: rest.declares outer
  | .member _ _ _ rest => rest.declares outer
  | .type kind _ head _ inner _ rest =>
    inner.declares (outer ++ [head.name.text]) ++ (outer ++ [head.name.text], ⟨kind, head, some inner⟩) ::
      rest.declares outer
  | .enum head _ _ _ rest => (outer ++ [head.name.text], ⟨.enum, head, none⟩) :: rest.declares outer

/-! ### Files -/

/-- Words and dots. -/
def Token.isPath : Token → Bool
  | .word _ => true
  | .symbol s => s.char == '.'
  | _ => false

/-- A package or import clause behind its keyword. -/
structure Clause where
  gap : Gap
  firstGap : Gap
  first : Word
  rest : List Spaced
  path : ∀ t ∈ rest, t.token.isPath = true
  after : Gap

/-- The tokens of the name. -/
def Clause.name (c : Clause) : List Spaced := ⟨c.firstGap, .word c.first⟩ :: c.rest

def Clause.tokens (keyword : Word) (c : Clause) : List Spaced :=
  ⟨c.gap, .word keyword⟩ :: c.name ++ [⟨c.after, .symbol .semicolon⟩]

structure File where
  package : Option Clause
  imports : List Clause
  body : Body .file
  ending : Gap
  /-- a last line comment without a newline -/
  last : Option { text : Text // '\n' ∉ text }

def File.tokens (f : File) : List Spaced :=
  (f.package.toList.flatMap (Clause.tokens .package)) ++ f.imports.flatMap (Clause.tokens .import) ++ f.body.tokens

def File.text (f : File) : Text :=
  spell f.tokens ++ f.ending.spell ++ (f.last.map fun text => '/' :: '/' :: text.1).getD []

/-- The name of the package, empty when there is none. -/
def File.packageName (f : File) : Text := (f.package.map fun c => tightSpell c.name).getD []

/-- The declared types by package, enclosing types and name, joined by dots. -/
def File.declares (f : File) : List (Text × Declaration) :=
  (f.body.declares []).map fun d => (dotted (f.packageName :: d.1), d.2)

/-- A token other than the keywords of clauses. -/
def Token.Free (t : Token) : Prop := t.spell ≠ Word.package.text ∧ t.spell ≠ Word.import.text

instance (t : Token) : Decidable t.Free := inferInstanceAs (Decidable (_ ∧ _))

/-- A source of the language: its tokens are apart, the keywords of clauses are used for nothing else, and no type is
    declared twice. -/
structure Source extends File where
  apart : Apart toFile.tokens
  names : ∀ c ∈ package.toList ++ imports, ∀ t ∈ c.name, t.token.Free
  free : ∀ t ∈ body.tokens, t.token.Free
  distinct : (toFile.declares.map Prod.fst).Nodup

end BinderIdl.Surface
