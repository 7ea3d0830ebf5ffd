import BinderIdl.Theorems.RoundTrip

/-! The dump of a tree in which no type is declared twice: it depends on the texts of the files, not on where they stand,
    and the lines of a type depend on the file that declares it alone. -/

namespace BinderIdl.Surface
open Py

def typeNames (text : Text) : List Text := (declarations text).map Prod.fst

/-- No qualified type name is declared twice. -/
def DeclaredOnce (texts : List Text) : Prop := (texts.flatMap typeNames).Nodup

/-- The lines of a type in the dump of the text alone. -/
def block (text q : Text) : List Text := (((Dict.ofPairs (declarations text)).get? q).map (typeLines q)).getD []

instance (texts : List Text) : Decidable (DeclaredOnce texts) := inferInstanceAs (Decidable (List.Nodup _))

section
variable {texts texts' : List Text}

theorem names_declarations (texts : List Text) :
    (texts.flatMap declarations).map Prod.fst = texts.flatMap typeNames := List.map_flatMap

/-- The keys of the dictionary are the declared names. -/
theorem DeclaredOnce.keys (once : DeclaredOnce texts) :
    (Dict.ofPairs (texts.flatMap declarations)).keys.Perm (texts.flatMap typeNames) := by
  refine (List.perm_ext_iff_of_nodup (Dict.nodup_keys _) once).mpr fun q => ?_
  rw [Dict.mem_keys_ofPairs, names_declarations]

theorem DeclaredOnce.get? (once : DeclaredOnce texts) {q : Text} {t : TypeDecl} :
    (Dict.ofPairs (texts.flatMap declarations)).get? q = some t ↔ ∃ text ∈ texts, (q, t) ∈ declarations text := by
  rw [Dict.get?_ofPairs_iff (by rwa [names_declarations]), List.mem_flatMap]

end

theorem dumpSurface_eq_ok {t : Tree} {dump : Text} :
    dumpSurface t = .ok dump ↔ (∀ text ∈ t.texts, ∃ ds, declared text = .ok ds) ∧
      dumpTypes (Dict.ofPairs (t.texts.flatMap declarations)) = dump := by
  rw [dumpSurface, map_eq_ok]
  constructor
  · rintro ⟨types, read, rfl⟩
    obtain ⟨all, rfl⟩ := parseAll_eq_ok.mp read
    exact ⟨all, rfl⟩
  · rintro ⟨all, rfl⟩
    exact ⟨_, parseAll_eq_ok.mpr ⟨all, rfl⟩, rfl⟩

end BinderIdl.Surface
