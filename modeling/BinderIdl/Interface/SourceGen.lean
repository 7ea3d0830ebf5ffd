import BinderIdl.Interface.Api

/-! The request for the sources of a version: `handle_source_gen` up to its call of `gen_cpp_sources`
    (`host/aidl_gen_rule.py`). -/

namespace BinderIdl.Interface
open Py

/-- The arguments of `gen_cpp_sources`. -/
structure GenCall where
  interfaceName : Text
  genVersion : Option Text
deriving DecidableEq

/-- The checks of a version that is asked for. -/
def checkGenVersion (i : AidlInterface) (genVersion : Text) : Except ToolError Unit := do
  if i.layout = "module-local".toList then throw (.fatal i.baseName)
  else if (← intOf genVersion) < 1 then throw (.wrongVersion i.baseName genVersion)
  else if (← intOf genVersion) > (← intOf i.nextVersion) then throw (.wrongVersion i.baseName genVersion)
  else return ()

/-- `handle_source_gen`: the call it makes; there is none for an unstable interface. -/
def handleSourceGen {Hash : Type} [DecidableEq Hash] (hash : List (Text × Text) → Text → Hash) (shell : Shell Hash)
    (stable : Dict Text (Dump Hash)) (interfaceName : Text) (genVersion : Option Text) :
    Except ToolError (Option GenCall) := do
  let i ← lookupInterface shell.interfaces interfaceName
  let dumps ← validateInterface hash shell i stable
  if dumps.getLast?.map ApiDump.version ≠ some i.nextVersion then throw (.fatal i.baseName)
  else if i.unstable then return none
  else
    match genVersion with
    | some version => checkGenVersion i version
    | none => pure ()
    return some ⟨interfaceName, genVersion⟩

end BinderIdl.Interface
