import BinderIdl.Interface.Definition
import Mathlib.Data.Prod.Lex

/-! Library targets and the order they are built in: `load_interfaces`, `generate_libraries_dependencies` and
    `topological_sort` (`host/aidl_interface.py`). -/

namespace BinderIdl.Interface
open Py

/-! ### Loading -/

/-- The definition files a walk over the interface roots finds, by their directories. -/
abbrev Definitions := Dict Text Definition

/-- `_interface_sort_key`: `current` sorts last, so that it wins over the snapshots of the same name. -/
def interfaceSortKey (root : Text) : ℕ ×ₗ Text ×ₗ Text :=
  toLex (if basename root = currentVersion then 1 else 0, toLex (basename root, root ++ "/interface.yaml".toList))

def interfaceLocations (ds : Definitions) : List Text :=
  ds.keys.insertionSort fun a b => interfaceSortKey a ≤ interfaceSortKey b

def loadAt (ds : Definitions) (root : Text) : Except ToolError AidlInterface :=
  match ds.get? root with
  | some d => loadInterface root d
  | none => .error (.noInterface root)

/-- The list `all_loaded` of `load_interfaces`. -/
def loadAll (ds : Definitions) : Except ToolError (List AidlInterface) := (interfaceLocations ds).mapM (loadAt ds)

/-- The dictionary `load_interfaces` returns: of interfaces with the same name the last one counts. -/
def interfacesOf (allLoaded : List AidlInterface) : Dict Text AidlInterface :=
  Dict.ofPairs (allLoaded.map fun i => (i.baseName, i))

theorem mem_of_interfacesOf {allLoaded : List AidlInterface} {name : Text} {i : AidlInterface}
    (known : (interfacesOf allLoaded).get? name = some i) : i ∈ allLoaded ∧ i.baseName = name := by
  obtain ⟨j, member, same⟩ := List.mem_map.mp (Dict.mem_of_get?_ofPairs known)
  cases same
  exact ⟨member, rfl⟩

/-! ### Loading discovered files

The paths of the definition files as the walks over the roots find them: in any order, and more than once where roots
overlap. -/

/-- `_interface_sort_key` of the path of a definition file. -/
def locationKey (loc : Text) : ℕ ×ₗ Text ×ₗ Text :=
  toLex (if basename (dirname loc) = currentVersion then 1 else 0, toLex (basename (dirname loc), loc))

/-- `interface_locations.sort(key=_interface_sort_key)` -/
def sortLocations (locations : List Text) : List Text :=
  locations.insertionSort fun a b => locationKey a ≤ locationKey b

/-- `aidl_interfaces` and `all_loaded`. -/
structure Loaded where
  interfaces : Dict Text AidlInterface
  allLoaded : List AidlInterface
deriving DecidableEq

/-- `load_interfaces` behind the walks; `load` is `AidlInterface` of the directory of a definition file. -/
def loadInterfaces (load : Text → Except ToolError AidlInterface) (locations : List Text) : Except ToolError Loaded := do
  let allLoaded ← (sortLocations locations).mapM fun loc => load (dirname loc)
  return ⟨interfacesOf allLoaded, allLoaded⟩

/-! ### Registering targets -/

abbrev Targets := Dict Text (List Text)

/-- `"%s-v%s-cpp"` -/
def cppTarget (name version : Text) : Text := name ++ "-v".toList ++ version ++ "-cpp".toList

/-- The target for an import with its pin, or for the current sibling when there is none. -/
def importTarget (e : Text × Text) : Text :=
  if e.2 = importVersionUnpinned then cppTarget e.1 currentVersion else cppTarget e.1 e.2

/-- `_resolve_lib_deps_for_current` -/
def resolveLibDepsForCurrent (i : AidlInterface) : Except ToolError (List Text) := do
  let imports ← i.getImports i.nextVersion
  return imports.entries.map importTarget

def registerFrozen (name : Text) (targets : Targets) (e : Text × List Text) : Targets :=
  targets.set (cppTarget name e.1) (e.2.map (· ++ "-cpp".toList))

/-- The targets of the frozen versions of an interface and of its current one. -/
def registerInterface (targets : Targets) (e : Text × AidlInterface) : Except ToolError Targets := do
  let deps ← resolveLibDepsForCurrent e.2
  return (e.2.versionsWithInfo.entries.foldl (registerFrozen e.1) targets).set (cppTarget e.1 currentVersion) deps

/-- The target of a snapshot directory; one that is registered already is preserved. -/
def registerSnapshot (targets : Targets) (snap : AidlInterface) : Targets :=
  let label := basename snap.interfaceRoot
  let target := cppTarget snap.baseName label
  if label = currentVersion ∨ (targets.get? target).isSome then targets
  else targets.set target (snap.importVersions.entries.map fun e => cppTarget e.1 (e.2.getD currentVersion))

/-- The map `lib_deps_dict`. -/
def libDeps (allLoaded : List AidlInterface) : Except ToolError Targets := do
  let targets ← (interfacesOf allLoaded).entries.foldlM registerInterface Dict.empty
  return allLoaded.foldl registerSnapshot targets

/-- The first dependency that is no target, with its consumer. -/
def unresolved? (targets : Targets) : Option (Text × Text) :=
  targets.entries.findSome? fun e => (e.2.find? fun dep => (targets.get? dep).isNone).map fun dep => (dep, e.1)

/-! ### Ordering them -/

/-- `indegree[dep] += n` -/
def addDegree (n : Int) (indegree : Dict Text Int) (dep : Text) : Except ToolError (Dict Text Int) :=
  match indegree.get? dep with
  | some k => .ok (indegree.set dep (k + n))
  | none => .error (.noTarget dep)

/-- The inner loop for a library taken from the queue: the dependencies that nothing else waits for join it. -/
def relax (deps : List Text) (indegree : Dict Text Int) (queue : List Text) :
    Except ToolError (Dict Text Int × List Text) :=
  deps.foldlM (fun (s : Dict Text Int × List Text) dep => do
    let indegree ← addDegree (-1) s.1 dep
    return (indegree, if indegree.get? dep = some 0 then s.2 ++ [dep] else s.2)) (indegree, queue)

/-- The queue loop; a library enters the queue at most once, which bounds the rounds. -/
def drain (targets : Targets) : ℕ → Dict Text Int → List Text → List Text → Except ToolError (List Text)
  | 0, _, _, order => .ok order
  | _ + 1, _, [], order => .ok order
  | rounds + 1, indegree, lib :: queue, order => do
    let (indegree, queue) ← relax ((targets.get? lib).getD []) indegree queue
    drain targets rounds indegree queue (order ++ [lib])

/-- `topological_sort` -/
def topologicalSort (targets : Targets) : Except ToolError (List Text) := do
  let zeros : Dict Text Int := Dict.ofPairs (targets.keys.map fun lib => (lib, 0))
  let indegree ← (targets.entries.flatMap Prod.snd).foldlM (addDegree 1) zeros
  let queue := targets.keys.filter fun lib => indegree.get? lib = some 0
  let order ← drain targets (targets.keys.length + 1) indegree queue []
  if order.length = targets.keys.length then return order.reverse else throw .cycle

/-- A line of `dependencies.txt`. -/
def dependencyLine (targets : Targets) (lib : Text) : Text :=
  lib ++ ": ".toList ++ " ".toList.intercalate ((targets.get? lib).getD []) ++ ['\n']

/-- `generate_libraries_dependencies`: the text of `dependencies.txt`. -/
def generateLibrariesDependencies (allLoaded : List AidlInterface) : Except ToolError Text := do
  let targets ← libDeps allLoaded
  match unresolved? targets with
  | some (dep, consumer) => throw (.unresolvedTarget dep consumer)
  | none =>
    let libs ← topologicalSort targets
    return libs.flatMap (dependencyLine targets)

/-- `load_interfaces` with `gen_lib_deps`: the interfaces, and the text of `dependencies.txt`. -/
def loadWithDependencies (load : Text → Except ToolError AidlInterface) (locations : List Text) :
    Except ToolError (Loaded × Text) := do
  let loaded ← loadInterfaces load locations
  let text ← generateLibrariesDependencies loaded.allLoaded
  return (loaded, text)

end BinderIdl.Interface
