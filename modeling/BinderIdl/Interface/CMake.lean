import BinderIdl.Interface.Targets
import BinderIdl.Lex.Regex

/-! What the build reads of the targets: `read_interfaces_lib_dependencies` and the head of `AddInterfaceLibrary`
    (`host/CMakeLists.inc`). -/

namespace BinderIdl.Interface
open Py Regex

/-! ### The dependency file -/

/-- `[-a-zA-Z0-9_.]` -/
def isTargetChar (c : Char) : Bool := c.isAlphanum || c == '-' || c == '_' || c == '.'

/-- `([-a-zA-Z0-9_.]+):([-a-zA-Z0-9_. ]*)` -/
def dependencyPattern : List Piece := [.plus isTargetChar, .one (· == ':'), .star fun c => isTargetChar c || c == ' ']

/-- The depth in square brackets behind a character. -/
def bracketDepth (nesting : Int) (c : Char) : Int :=
  if c = '[' then nesting + 1 else if c = ']' then nesting - 1 else nesting

/-- What is left of a character where lists are split: nothing of a semicolon outside brackets. -/
def keptAt (nesting : Int) (c : Char) : Text := if c = ';' ∧ nesting = 0 then [] else [c]

/-- The arguments that an unquoted reference to a text expands to, put together again: a semicolon outside brackets
    separates two of them, one behind a backslash is kept. -/
def joinArguments (nesting : Int) : Text → Text
  | [] => []
  | [c] => keptAt nesting c
  | c :: d :: t =>
    if c = '\\' ∧ d = ';' then ';' :: joinArguments nesting t
    else keptAt nesting c ++ joinArguments (bracketDepth nesting c) (d :: t)

/-- `isspace` of the C locale -/
def isBlank (c : Char) : Bool := c == ' ' || (9 ≤ c.toNat && c.toNat ≤ 13)

/-- `string(STRIP)` -/
def stripBlanks (t : Text) : Text := (t.dropWhile isBlank).rdropWhile isBlank

/-- The list `${lib}_deps` that `AddInterfaceLibrary` goes through. -/
def dependencyList (deps : Text) : List Text := if deps = [] then [] else deps.splitOn ' '

/-- A round of the loop over the matches: the target and the text of its dependencies. -/
def readMatch (groups : List Text) : Text × Text :=
  (replaceAll dependencyPattern (fun gs => gs.getD 0 []) groups.flatten,
    stripBlanks (replaceAll dependencyPattern (fun gs => gs.getD 2 []) groups.flatten))

/-- The file `dependencies.txt`, which the first line creates. -/
def dependenciesFile (text : Text) : Option Text := if text = [] then none else some text

/-- `read_interfaces_lib_dependencies`: the targets in their order, each with its dependencies; without the file the
    build ends in a fatal error. -/
def readInterfacesLibDependencies (file : Option Text) : Option (List (Text × List Text)) :=
  file.map fun content => (matchAll dependencyPattern (joinArguments 0 content)).map fun groups =>
    ((readMatch groups).1, dependencyList (readMatch groups).2)

/-! ### The parts of a target name -/

/-- `string(REGEX MATCH "^[^-]+" ...)` -/
def interfaceName (target : Text) : Text :=
  match matchHere [.plus (· != '-')] target with
  | some m => m.1.flatten
  | none => []

/-- `-v([^-]+)-cpp$` -/
def versionPattern : List Piece := literal "-v".toList ++ .plus (· != '-') :: (literal "-cpp".toList ++ [.finish])

/-- `CMAKE_MATCH_1` behind the match of the version. -/
def matchedVersion (target : Text) : Text :=
  match search versionPattern target with
  | some (_, m) => m.1.getD 2 []
  | none => []

def interfaceVersion (target : Text) : Text :=
  if matchedVersion target = [] ∨ matchedVersion target = currentVersion then currentVersion
  else matchedVersion target

end BinderIdl.Interface
