import BinderIdl.Interface.CMake

/-! Writing `dependencies.txt`: `aidl_gen_deps` (`host/aidl_gen_rule.py`) with `load_interfaces` and
    `generate_libraries_dependencies` (`host/aidl_interface.py`), as far as they touch the file. -/

namespace BinderIdl.Interface
open Py

/-- The definition files that are found, by their directories; one that is no definition at all, because it is not YAML or
    JSON or has another shape, has none. -/
abbrev DefinitionFiles := Dict Text (Option Definition)

def loadFile (files : DefinitionFiles) (root : Text) : Except ToolError AidlInterface :=
  match (files.get? root).join with
  | some d => loadInterface root d
  | none => .error (.malformed root)

/-- The loop of `load_interfaces` over the sorted locations. -/
def loadFiles (files : DefinitionFiles) : Except ToolError (List AidlInterface) :=
  (files.keys.insertionSort fun a b => interfaceSortKey a ≤ interfaceSortKey b).mapM (loadFile files)

/-- The lines that `generate_libraries_dependencies` writes. -/
def dependencyLines (allLoaded : List AidlInterface) : Except ToolError (List Text) := do
  let targets ← libDeps allLoaded
  match unresolved? targets with
  | some (dep, consumer) => throw (.unresolvedTarget dep consumer)
  | none =>
    let libs ← topologicalSort targets
    return libs.map (dependencyLine targets)

/-- The content of `dependencies.txt`, if the file exists, is changed on the way. -/
abbrev FileTool := ExceptT ToolError (StateM (Option Text))

/-- A round of the last loop: opening the file for appending creates it, even when the line cannot be written. -/
def writeLine (encodes : Text → Bool) (line : Text) : FileTool Unit := do
  modify fun file => some (file.getD [])
  if encodes line then modify fun file => some (file.getD [] ++ line) else throw (.notEncodable line)

def writeLines (encodes : Text → Bool) : List Text → FileTool Unit
  | [] => pure ()
  | line :: lines => do
    writeLine encodes line
    writeLines encodes lines

/-- `generate_libraries_dependencies`: the old file is removed first. -/
def generateInto (encodes : Text → Bool) (allLoaded : List AidlInterface) : FileTool Unit := do
  set (none : Option Text)
  let lines ← dependencyLines allLoaded
  writeLines encodes lines

/-- `aidl_gen_deps` -/
def aidlGenDeps (encodes : Text → Bool) (files : DefinitionFiles) : FileTool Unit := do
  let allLoaded ← loadFiles files
  generateInto encodes allLoaded
  if (interfacesOf allLoaded).keys = [] then throw (.fatal []) else pure ()

theorem generateLibrariesDependencies_eq (allLoaded : List AidlInterface) :
    generateLibrariesDependencies allLoaded = (dependencyLines allLoaded).map List.flatten := by
  rw [generateLibrariesDependencies, dependencyLines]
  cases libDeps allLoaded with
  | error e => rfl
  | ok targets =>
    simp only [ok_bind]
    cases unresolved? targets with
    | some d => rfl
    | none =>
      cases topologicalSort targets with
      | error e => rfl
      | ok libs => exact congrArg Except.ok List.flatMap_def

end BinderIdl.Interface
