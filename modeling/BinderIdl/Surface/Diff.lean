import BinderIdl.Surface.Dump

/-! The structural diff of two dumps (`host/aidl_surface.py`). -/

namespace BinderIdl.Surface
open Py

/-- The class of a change and of a whole diff, in the order `none < major < breaking`. -/
inductive DiffClass where
  | none
  | major
  | breaking
deriving DecidableEq, Repr

inductive Subject where
  | type
  | annotations
  | enumValue
  | const
  | method
  | field
  | unionArm
deriving DecidableEq, Repr

inductive Edit where
  | added
  | removed
  | changed
  | reordered
deriving DecidableEq, Repr

/-- An entry of the change list; its kind (`method_added`, `union_arm_added`, …) is the subject and the edit. -/
structure Change where
  subject : Subject
  edit : Edit
  place : Text
  symbol : Text
  old : Option Text
  new : Option Text
deriving DecidableEq, Repr

structure Report where
  cls : DiffClass
  changes : List Change
deriving DecidableEq, Repr

/-! ### Names of member lines -/

/-- `m.split('=')[0].split()[-1].strip()` -/
def lastWord (m : Text) : Except SurfaceError Text :=
  match (words (m.takeWhile (· != '='))).getLast? with
  | some w => .ok (strip w)
  | none => .error .index

/-- `re.match(r'[^(=]*?(\w+)\s*\(', m)`: the lazy head grows until the word behind it reaches a `(`. -/
def methodMatch : Text → Option Text
  | [] => none
  | c :: t =>
    match (c :: t).takeWhile isWord, ((c :: t).dropWhile isWord).dropWhile isSpace with
    | d :: w, '(' :: _ => some (d :: w)
    | _, _ => if c = '(' ∨ c = '=' then none else methodMatch t

/-- `member.startswith('const ')` -/
def isConst (m : Text) : Bool := "const ".toList.isPrefixOf m

/-- `_member_name` -/
def memberName (kind : Kind) (m : Text) : Except SurfaceError Text :=
  if kind = .enum ∨ isConst m then lastWord m
  else
    match methodMatch m with
    | some name => .ok name
    | none => lastWord m

/-! ### Comparing member lists -/

/-- The change to one entry of the old map: its name is gone, or stands for another line. -/
def lostChange (place : Text) (subject : Subject) (newByName : Dict Text Text) (name member : Text) :
    List (DiffClass × Change) :=
  match newByName.get? name with
  | none => [(.breaking, ⟨subject, .removed, place, name, some member, none⟩)]
  | some member' =>
    if member' = member then [] else [(.breaking, ⟨subject, .changed, place, name, some member, some member'⟩)]

/-- The change for a name of the new list behind the old ones: an addition, unless it is an old name. -/
def addedChange (kind : Kind) (place : Text) (subject : Subject) (oldByName newByName : Dict Text Text) (name : Text) :
    List (DiffClass × Change) :=
  if (oldByName.get? name).isSome then []
  else if kind = .union then
    [(.breaking, ⟨.unionArm, .added, place, (newByName.get? name).getD [], none, none⟩)]
  else [(.major, ⟨subject, .added, place, (newByName.get? name).getD [], none, none⟩)]

/-- The changes to the methods, fields or arms of a type; `survivors` are the old names that the new list has. -/
def sequenceChanges (kind : Kind) (place : Text) (subject : Subject) (oldNames newNames : List Text)
    (oldByName newByName : Dict Text Text) : List (DiffClass × Change) :=
  let survivors := oldNames.filter fun n => (newByName.get? n).isSome
  (oldByName.entries.flatMap fun e => lostChange place subject newByName e.1 e.2) ++
    if newNames.take survivors.length = survivors then
      (newNames.drop survivors.length).flatMap (addedChange kind place subject oldByName newByName)
    else [(.breaking, ⟨subject, .reordered, place, ", ".toList.intercalate survivors, none, none⟩)]

/-- `_diff_sequence`; names are read for the kind of the old type. -/
def diffSequence (kind : Kind) (place : Text) (old new : List Text) (subject : Subject) :
    Except SurfaceError (List (DiffClass × Change)) := do
  let oldNames ← old.mapM (memberName kind)
  let newNames ← new.mapM (memberName kind)
  return sequenceChanges kind place subject oldNames newNames (Dict.ofPairs (oldNames.zip old))
    (Dict.ofPairs (newNames.zip new))

/-- `as_map` of `_diff_enum` -/
def asMap (members : List Text) : Except SurfaceError (Dict Text Text) := do
  let names ← members.mapM lastWord
  return Dict.ofPairs (names.zip members)

/-- The changes between two maps of enum values or constants. -/
def entryChanges (place : Text) (subject : Subject) (om nm : Dict Text Text) : List (DiffClass × Change) :=
  ((byName om.entries).flatMap fun e => lostChange place subject nm e.1 e.2) ++
  (byName nm.entries).flatMap fun e =>
    if (om.get? e.1).isSome then [] else [(.major, ⟨subject, .added, place, e.2, none, none⟩)]

/-- `_diff_enum` -/
def diffEnum (place : Text) (old new : List Text) (subject : Subject) :
    Except SurfaceError (List (DiffClass × Change)) := do
  let om ← asMap old
  let nm ← asMap new
  return entryChanges place subject om nm

/-! ### Comparing types -/

def vintfStability : Text := "@VintfStability".toList

/-- `set(a) - set(b)`, sorted. -/
def setMinus (a b : List Text) : List Text := sorted (a.dedup.filter fun x => x ∉ b)

/-- The changes to the header of a type: kind, `oneway` flag and annotations. -/
def headChanges (place qname : Text) (o n : TypeDecl) : List (DiffClass × Change) :=
  let head (t : TypeDecl) := (if t.oneway then "oneway ".toList else []) ++ t.kind.text
  (if o.kind ≠ n.kind ∨ o.oneway ≠ n.oneway then
    [(.breaking, ⟨.type, .changed, place, qname, some (head o), some (head n)⟩)] else []) ++
  (setMinus o.annotations n.annotations).map (fun a => (.breaking, ⟨.annotations, .removed, place, a, none, none⟩)) ++
  (setMinus n.annotations o.annotations).map fun a =>
    (if a = vintfStability then .major else .breaking, ⟨.annotations, .added, place, a, none, none⟩)

/-- The changes to the members of a type that both dumps hold. -/
def diffMembers (place : Text) (o n : TypeDecl) : Except SurfaceError (List (DiffClass × Change)) :=
  if o.kind = .enum then diffEnum place o.members n.members .enumValue
  else do
    let consts ← diffEnum place (o.members.filter isConst) (n.members.filter isConst) .const
    let rest ← diffSequence o.kind place (o.members.filter (! isConst ·)) (n.members.filter (! isConst ·))
      (if o.kind = .interface then .method else .field)
    return consts ++ rest

/-- The changes under one qualified name. -/
def diffType (old new : Types) (qname : Text) : Except SurfaceError (List (DiffClass × Change)) :=
  let place (t : TypeDecl) := t.kind.text ++ ' ' :: qname
  match old.get? qname, new.get? qname with
  | none, none => .ok []
  | some o, none => .ok [(.breaking, ⟨.type, .removed, place o, qname, none, none⟩)]
  | none, some n => .ok [(.major, ⟨.type, .added, place n, qname, none, none⟩)]
  | some o, some n => do
    let members ← diffMembers (place n) o n
    return headChanges (place n) qname o n ++ members

/-- The class of a change list: the worst class in it. -/
def overall (changes : List (DiffClass × Change)) : DiffClass :=
  if changes.any (·.1 == .breaking) then .breaking
  else if changes.any (·.1 == .major) then .major
  else .none

/-- The comparison of two parsed dumps. -/
def diffTypes (old new : Types) : Except SurfaceError Report := do
  let changes ← (sorted (old.keys ++ new.keys).dedup).mapM (diffType old new)
  return ⟨overall changes.flatten, changes.flatten.map Prod.snd⟩

/-- `diff_surface` -/
def diffSurface (oldText newText : Text) : Except SurfaceError Report := do
  let old ← parseDump oldText
  let new ← parseDump newText
  diffTypes old new

/-- The exceptions that are a `ValueError`. -/
def SurfaceError.isValueError : SurfaceError → Bool
  | .intLiteral _ => true
  | .headerLine _ => true
  | .index => false

/-- The exit status of `main` for `diff-surface` on two files that are read; what it does not catch goes through. -/
def diffStatus (oldText newText : Text) : Except SurfaceError Nat :=
  match diffSurface oldText newText with
  | .ok _ => .ok 0
  | .error e => if e.isValueError then .ok 2 else .error e

end BinderIdl.Surface
