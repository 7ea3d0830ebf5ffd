import BinderIdl.Py.Chars
import Mathlib.Logic.Function.Basic

/-! The cache of a build directory: what `-D` and `-U` do to it, in the order they are given, and which values a
    script takes as false. -/

namespace BinderIdl.Build
open Py

/-- The entries of a cache; an entry may be missing. -/
abbrev Cache (Name : Type) := Name → Option Text

/-- Nothing is cached in a new build directory. -/
def Cache.empty {Name : Type} : Cache Name := fun _ => none

/-- `-D name=value` and `-U name` -/
inductive CacheArg (Name : Type) where
  | define (name : Name) (value : Text)
  | undefine (name : Name)
deriving DecidableEq

variable {Name : Type}

def CacheArg.name : CacheArg Name → Name
  | .define name _ => name
  | .undefine name => name

def CacheArg.value : CacheArg Name → Option Text
  | .define _ value => some value
  | .undefine _ => none

variable [DecidableEq Name]

def applyArg (cache : Cache Name) (arg : CacheArg Name) : Cache Name := Function.update cache arg.name arg.value

/-- The cache that the script is read with. -/
def applyArgs (args : List (CacheArg Name)) (cache : Cache Name) : Cache Name := args.foldl applyArg cache

theorem applyArgs_cons (arg : CacheArg Name) (args : List (CacheArg Name)) (cache : Cache Name) :
    applyArgs (arg :: args) cache = applyArgs args (applyArg cache arg) := rfl

theorem applyArgs_of_unnamed {args : List (CacheArg Name)} {name : Name} (unnamed : ∀ arg ∈ args, arg.name ≠ name)
    (cache : Cache Name) : applyArgs args cache name = cache name := by
  induction args generalizing cache with
  | nil => rfl
  | cons arg args ih =>
    rw [applyArgs_cons, ih fun a member => unnamed a (List.mem_cons_of_mem _ member)]
    exact Function.update_of_ne (unnamed arg List.mem_cons_self).symm _ _

theorem applyArgs_of_named {args : List (CacheArg Name)} {name : Name} (named : ∃ arg ∈ args, arg.name = name)
    (old new : Cache Name) : applyArgs args old name = applyArgs args new name := by
  induction args generalizing old new with
  | nil =>
    obtain ⟨arg, member, -⟩ := named
    cases member
  | cons arg args ih =>
    rw [applyArgs_cons, applyArgs_cons]
    by_cases later : ∃ a ∈ args, a.name = name
    · exact ih later _ _
    · -- the last argument for the entry decides
      have unnamed : ∀ a ∈ args, a.name ≠ name := fun a member same => later ⟨a, member, same⟩
      obtain ⟨a, member, rfl⟩ := named
      rcases List.mem_cons.mp member with rfl | rest
      · rw [applyArgs_of_unnamed unnamed, applyArgs_of_unnamed unnamed, applyArg, applyArg, Function.update_self,
          Function.update_self]
      · exact absurd rfl (unnamed a rest)

theorem applyArgs_defines {names : List Name} (env cache : Cache Name) (name : Name) :
    applyArgs (names.filterMap fun n => (env n).map (CacheArg.define n)) cache name =
      if name ∈ names then (env name).or (cache name) else cache name := by
  induction names generalizing cache with
  | nil => rfl
  | cons first names ih =>
    cases value : env first with
    | none =>
      rw [List.filterMap_cons_none (by rw [value]; rfl), ih]
      by_cases same : name = first
      · subst same
        rw [if_pos List.mem_cons_self, value, Option.none_or, ite_self]
      · simp only [List.mem_cons, same, false_or]
    | some v =>
      rw [List.filterMap_cons_some (b := CacheArg.define first v) (by rw [value]; rfl), applyArgs_cons, ih, applyArg]
      by_cases same : name = first
      · subst same
        rw [if_pos List.mem_cons_self, value]
        simp [CacheArg.name, CacheArg.value]
      · have other : Function.update cache first (some v) name = cache name := Function.update_of_ne same _ _
        simp only [CacheArg.name, CacheArg.value, other, List.mem_cons, same, false_or]

/-! ### Truth -/

/-- The constants that `if` takes as false, in any case. -/
def falseConstants : List Text :=
  ["0".toList, "OFF".toList, "NO".toList, "FALSE".toList, "N".toList, "IGNORE".toList, "NOTFOUND".toList]

/-- `if (name)` for a variable with this value. -/
def isTrue (value : Text) : Bool :=
  let upper := value.map Char.toUpper
  !(value.isEmpty || falseConstants.contains upper || "-NOTFOUND".toList.isSuffixOf upper)

/-- `DEFINED name AND name` -/
def isOn (value : Option Text) : Bool := value.any isTrue

end BinderIdl.Build
