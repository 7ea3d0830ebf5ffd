import BinderIdl.Py.Chars
import BinderIdl.Lex.CommandLine

/-! The commands that run the `aidl` tool: `aidl_gen_preprocessed`, `check_api` and `check_for_development`
    (`host/aidl_interface.py`) and `dependecies_check_for_freeze` (`host/aidl_api.py`). Each is given as the arguments
    that the process receives, the program first. -/

namespace BinderIdl.Interface
open Py

/-- A path on a command line. Paths are absolute, or start with a root that was itself an argument. -/
structure CommandPath where
  text : Text
  nonempty : text ≠ []
  unsplit : CommandLine.Unsplit text
  notOption : ∀ t, text ≠ '-' :: t
deriving DecidableEq

def unstableText : Text := "unstable".toList

/-- `"--stability=%s"`, where the stability of a definition that has none is `None`. -/
def stabilityFlag (stability : Option Text) : Text := "--stability=".toList ++ stability.getD "None".toList

/-- `interface.stability != "unstable"` -/
def isStable (stability : Option Text) : Bool := stability != some unstableText

/-- `interface.stability not in ["", "unstable"]` -/
def isStated (stability : Option Text) : Bool := stability != some [] && stability != some unstableText

/-- What `aidl_gen_preprocessed` and `dependecies_check_for_freeze` preprocess. -/
structure Preprocessing where
  aidl : CommandPath
  preprocessed : CommandPath
  importDir : CommandPath
  srcs : List CommandPath

/-- `aidl_gen_preprocessed` -/
def genPreprocessedArgs (p : Preprocessing) (stability : Option Text) (deps : List CommandPath) : List Text :=
  let flags := (if isStable stability then [stabilityFlag stability] else []) ++ deps.map ("-p".toList ++ ·.text)
  [p.aidl.text, "--preprocess".toList, p.preprocessed.text] ++ flags ++
    ["--structured".toList, "-I".toList ++ p.importDir.text] ++ p.srcs.map CommandPath.text

/-- `dependecies_check_for_freeze`: the flags are one argument. -/
def freezeCheckArgs (p : Preprocessing) (stability : Option Text) (deps : List CommandPath) : List Text :=
  let stabilityPart := if isStable stability then stabilityFlag stability ++ [' '] else []
  let depsPart := if deps = [] then [] else " ".toList.intercalate (deps.map ("-p".toList ++ ·.text)) ++ [' ']
  [p.aidl.text, "--preprocess".toList, p.preprocessed.text, stabilityPart ++ depsPart, "--structured".toList,
    "-I".toList ++ p.importDir.text] ++ p.srcs.map CommandPath.text

/-- What `check_api` and `check_for_development` compare. -/
structure Comparison where
  aidl : CommandPath
  old : CommandPath
  new : CommandPath

/-- The flags of the comparisons: a dependency is one argument with a blank in it. -/
def comparisonFlags (stability : Option Text) (deps : List CommandPath) : List Text :=
  (if isStated stability then [stabilityFlag stability] else []) ++ deps.map ("-p ".toList ++ ·.text)

/-- `check_api` -/
def checkApiArgs (c : Comparison) (level : Text) (stability : Option Text) (deps : List CommandPath) : List Text :=
  [c.aidl.text, "--checkapi=".toList ++ level] ++ comparisonFlags stability deps ++ [c.old.text, c.new.text]

/-- The command of `check_for_development` up to its redirection. -/
def developmentCommand (c : Comparison) (stability : Option Text) (deps : List CommandPath) : Text :=
  c.aidl.text ++ " --checkapi=equal ".toList ++ " ".toList.intercalate (comparisonFlags stability deps) ++ ' ' ::
    c.old.text ++ ' ' :: c.new.text

/-- `check_for_development`, run by a shell -/
def developmentArgs (c : Comparison) (stability : Option Text) (deps : List CommandPath) : List Text :=
  CommandLine.arguments (developmentCommand c stability deps)

end BinderIdl.Interface
