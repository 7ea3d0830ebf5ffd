import BinderIdl.Surface.Parse

/-! The dump: writing the types of a tree of `.aidl` files as text, and reading such a text back
    (`host/aidl_surface.py`). -/

namespace BinderIdl.Surface
open Py

/-! ### Writing -/

/-- A directory: the names and decoded texts of its files, and its subdirectories by name. -/
inductive Tree where
  | dir (files : List (Text × Text)) (dirs : List (Text × Tree))

/-- Entries in the order of their names. -/
def byName {α : Type} (es : List (Text × α)) : List (Text × α) := es.insertionSort (·.1 ≤ ·.1)

mutual

/-- The texts of the `.aidl` files in the order in which `os.walk` with sorted names meets them: the files
    of a directory, then those of its subdirectories. -/
def Tree.texts : Tree → List Text
  | .dir files dirs =>
    ((byName files).filter fun f => ".aidl".toList <:+ f.1).map Prod.snd ++ (byName (Tree.dirTexts dirs)).flatMap Prod.snd

def Tree.dirTexts : List (Text × Tree) → List (Text × List Text)
  | [] => []
  | (name, d) :: dirs => (name, d.texts) :: Tree.dirTexts dirs

end

/-- The `types` dictionary after `parse_aidl` of each text in turn. -/
def parseAll (texts : List Text) : Except SurfaceError Types := texts.foldlM (fun types t => parseAidl t types) Dict.empty

/-- The header line of a type: annotations, `oneway`, kind and qualified name. -/
def headLine (qname : Text) (t : TypeDecl) : Text :=
  [' '].intercalate (t.annotations ++ (if t.oneway then ["oneway".toList] else []) ++ [t.kind.text, qname])

/-- The lines of a type: its header, its indented members and an empty line. -/
def typeLines (qname : Text) (t : TypeDecl) : List Text :=
  headLine qname t :: t.members.map ("    ".toList ++ ·) ++ [[]]

/-- The text of the types, sorted by qualified name. -/
def dumpTypes (types : Types) : Text :=
  ['\n'].intercalate ((sorted types.keys).flatMap fun q => ((types.get? q).map (typeLines q)).getD [])

/-- `dump_surface` -/
def dumpSurface (root : Tree) : Except SurfaceError Text := (parseAll root.texts).map dumpTypes

/-! ### Reading -/

/-- The dictionary `types` and the name under which the type `cur` was last assigned. -/
structure DumpState where
  types : Types
  cur : Option Text

def TypeDecl.addMember (t : TypeDecl) (m : Text) : TypeDecl := { t with members := t.members ++ [m] }

/-- `cur['members'].append(m)`: `cur` is the object that `types` holds under its name. -/
def DumpState.addMember (s : DumpState) (m : Text) : DumpState :=
  match s.cur with
  | none => s
  | some q =>
    match s.types.get? q with
    | none => s
    | some t => { s with types := s.types.set q (t.addMember m) }

/-- A header line, split into the annotations, the `oneway` flag, the kind and the qualified name. -/
def headerLine (line : Text) : Except SurfaceError (Text × TypeDecl) :=
  let (anns, rest) := takeAnnotations line
  let parts := words rest
  let oneway := parts.head? == some "oneway".toList
  match (if oneway then parts.tail else parts) with
  | [k, q] =>
    match Kind.all.find? (·.text == k) with
    | some kind => .ok (q, ⟨kind, oneway, sorted anns, []⟩)
    | none => .error (.headerLine line)
  | _ => .error (.headerLine line)

/-- One turn of the loop of `parse_dump`. -/
def dumpLine (s : DumpState) (line : Text) : Except SurfaceError DumpState :=
  if strip line = [] then .ok s
  else if "    ".toList <+: line then .ok (s.addMember (strip line))
  else (headerLine line).map fun (q, t) => ⟨s.types.set q t, some q⟩

/-- `parse_dump` -/
def parseDump (text : Text) : Except SurfaceError Types :=
  ((splitLines text).foldlM dumpLine ⟨Dict.empty, none⟩).map DumpState.types

end BinderIdl.Surface
