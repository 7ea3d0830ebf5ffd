import BinderIdl.Py.Outcome
import BinderIdl.Surface.Diff

/-! What a diff reports: the conditions under which it finds a breaking change, and under which it finds
    an addition. All member comparisons go through the names that `_member_name` gives to the lines,
    whatever these names are: distinct lines may share one. -/

namespace BinderIdl.Surface
open Py

/-! ### Lines by name -/

/-- The last line of each name, as `dict(zip(names, lines))` holds it. -/
def lineMap (f : Text → Text) (ms : List Text) : Dict Text Text := Dict.ofPairs (ms.map fun m => (f m, m))

theorem zip_map_self (f : Text → Text) (ms : List Text) : (ms.map f).zip ms = ms.map fun m => (f m, m) := by
  induction ms with
  | nil => rfl
  | cons m ms ih => rw [List.map_cons, List.zip_cons_cons, ih, List.map_cons]

theorem mem_keys_lineMap {f : Text → Text} {ms : List Text} {k : Text} : k ∈ (lineMap f ms).keys ↔ k ∈ ms.map f := by
  rw [lineMap, Dict.mem_keys_ofPairs, List.map_map]
  rfl

theorem lineMap_isSome_iff {f : Text → Text} {ms : List Text} {k : Text} :
    ((lineMap f ms).get? k).isSome = true ↔ k ∈ ms.map f :=
  Dict.mem_keys_iff.symm.trans mem_keys_lineMap

/-! ### Entries that are lost -/

theorem lostChange_eq_nil_iff {place name member : Text} {subject : Subject} {d : Dict Text Text} :
    lostChange place subject d name member = [] ↔ d.get? name = some member := by
  unfold lostChange
  cases d.get? name with
  | none => simp
  | some m => by_cases h : m = member <;> simp [h]

theorem lostChange_cls {place name member : Text} {subject : Subject} {d : Dict Text Text} :
    ∀ c ∈ lostChange place subject d name member, c.1 = .breaking := by
  unfold lostChange
  cases d.get? name with
  | none => simp
  | some m => by_cases h : m = member <;> simp [h]

theorem lost_eq_nil_iff {place : Text} {subject : Subject} {d d' : Dict Text Text} :
    (d.entries.flatMap fun e => lostChange place subject d' e.1 e.2) = [] ↔ d.Sub d' := by
  rw [List.flatMap_eq_nil_iff, Dict.sub_iff_forall_entries]
  exact forall₂_congr fun e _ => lostChange_eq_nil_iff

theorem lost_cls {place : Text} {subject : Subject} {d' : Dict Text Text} {es : List (Text × Text)} :
    ∀ c ∈ es.flatMap fun e => lostChange place subject d' e.1 e.2, c.1 = .breaking := by
  intro c hc
  obtain ⟨e, -, he⟩ := List.mem_flatMap.mp hc
  exact lostChange_cls c he

theorem exists_breaking_iff_ne_nil {cs : List (DiffClass × Change)} (h : ∀ c ∈ cs, c.1 = .breaking) :
    (∃ c ∈ cs, c.1 = .breaking) ↔ cs ≠ [] :=
  ⟨fun ⟨_, hc, _⟩ => List.ne_nil_of_mem hc, fun hne => ⟨cs.head hne, List.head_mem hne, h _ (List.head_mem hne)⟩⟩

theorem exists_lost_iff {place : Text} {subject : Subject} {d d' : Dict Text Text} :
    (∃ c ∈ d.entries.flatMap fun e => lostChange place subject d' e.1 e.2, c.1 = .breaking) ↔ ¬d.Sub d' := by
  rw [exists_breaking_iff_ne_nil lost_cls, Ne, lost_eq_nil_iff]

theorem mem_append_exists {cs cs' : List (DiffClass × Change)} {p : DiffClass × Change → Prop} :
    (∃ c ∈ cs ++ cs', p c) ↔ (∃ c ∈ cs, p c) ∨ ∃ c ∈ cs', p c := by
  simp only [List.mem_append, or_and_right, exists_or]

/-! ### Enum values and constants -/

theorem perm_byName {α : Type} (es : List (Text × α)) : (byName es).Perm es := List.perm_insertionSort _ _

theorem exists_mem_flatMap_byName {p : DiffClass × Change → Prop} {es : List (Text × Text)}
    {g : Text × Text → List (DiffClass × Change)} :
    (∃ c ∈ (byName es).flatMap g, p c) ↔ ∃ c ∈ es.flatMap g, p c := by
  simp only [List.mem_flatMap, (perm_byName es).mem_iff]

variable {place : Text} {subject : Subject}

theorem entryChanges_breaking_iff {om nm : Dict Text Text} :
    (∃ c ∈ entryChanges place subject om nm, c.1 = .breaking) ↔ ¬om.Sub nm := by
  rw [entryChanges, mem_append_exists, exists_mem_flatMap_byName, exists_lost_iff, or_iff_left]
  rintro ⟨c, hc, hb⟩
  obtain ⟨e, -, he⟩ := List.mem_flatMap.mp hc
  split at he
  · cases he
  · rw [List.mem_singleton.mp he] at hb
    cases hb

theorem entryChanges_major_iff {om nm : Dict Text Text} :
    (∃ c ∈ entryChanges place subject om nm, c.1 = .major) ↔ ∃ k ∈ nm.keys, k ∉ om.keys := by
  rw [entryChanges, mem_append_exists, or_iff_right, exists_mem_flatMap_byName]
  · constructor
    · rintro ⟨c, hc, -⟩
      obtain ⟨e, he, hce⟩ := List.mem_flatMap.mp hc
      split at hce
      · cases hce
      · rename_i hn
        exact ⟨e.1, List.mem_map.mpr ⟨e, he, rfl⟩, fun hk => hn (Dict.mem_keys_iff.mp hk)⟩
    · rintro ⟨k, hk, hn⟩
      obtain ⟨e, he, rfl⟩ := List.mem_map.mp hk
      refine ⟨(.major, ⟨subject, .added, place, e.2, none, none⟩), List.mem_flatMap.mpr ⟨e, he, ?_⟩, rfl⟩
      rw [if_neg fun h => hn (Dict.mem_keys_iff.mpr h)]
      exact List.mem_singleton_self _
  · rw [exists_mem_flatMap_byName]
    rintro ⟨c, hc, hm⟩
    rw [lost_cls c hc] at hm
    cases hm

theorem entryChanges_cls {om nm : Dict Text Text} :
    ∀ c ∈ entryChanges place subject om nm, c.1 = .breaking ∨ c.1 = .major := by
  intro c hc
  rcases List.mem_append.mp hc with hc | hc
  · exact Or.inl (lost_cls c hc)
  · obtain ⟨e, -, he⟩ := List.mem_flatMap.mp hc
    split at he
    · cases he
    · rw [List.mem_singleton.mp he]
      exact Or.inr rfl

/-! ### Methods, fields and arms -/

section Sequence
variable {kind : Kind} {f : Text → Text} {old new : List Text}

theorem addedChange_cls {d d' : Dict Text Text} {name : Text} :
    ∀ c ∈ addedChange kind place subject d d' name, c.1 = if kind = .union then .breaking else .major := by
  unfold addedChange
  split
  · simp
  · split <;> simp_all

theorem addedChange_ne_nil_iff {d d' : Dict Text Text} {name : Text} :
    addedChange kind place subject d d' name ≠ [] ↔ name ∉ d.keys := by
  rw [Dict.mem_keys_iff, addedChange]
  split
  · simp_all
  · split <;> simp_all

theorem exists_added_iff {d d' : Dict Text Text} {names : List Text} {cls : DiffClass} :
    (∃ c ∈ names.flatMap (addedChange kind place subject d d'), c.1 = cls) ↔
      (if kind = .union then DiffClass.breaking else .major) = cls ∧ ∃ k ∈ names, k ∉ d.keys := by
  constructor
  · rintro ⟨c, hc, rfl⟩
    obtain ⟨k, hk, hck⟩ := List.mem_flatMap.mp hc
    exact ⟨(addedChange_cls c hck).symm, k, hk, addedChange_ne_nil_iff.mp (List.ne_nil_of_mem hck)⟩
  · rintro ⟨rfl, k, hk, hn⟩
    have hne : addedChange kind place subject d d' k ≠ [] := addedChange_ne_nil_iff.mpr hn
    obtain ⟨c, hc⟩ := List.exists_mem_of_ne_nil _ hne
    exact ⟨c, List.mem_flatMap.mpr ⟨k, hk, hc⟩, addedChange_cls c hc⟩

theorem survivors_eq (h : (lineMap f old).Sub (lineMap f new)) :
    ((old.map f).filter fun k => ((lineMap f new).get? k).isSome) = old.map f := by
  rw [List.filter_eq_self]
  intro k hk
  exact Dict.mem_keys_iff.mp (h.mem_keys (mem_keys_lineMap.mpr hk))

theorem exists_new_name_iff (hp : old.map f <+: new.map f) :
    (∃ k ∈ (new.map f).drop (old.map f).length, k ∉ (lineMap f old).keys) ↔ ∃ m ∈ new, f m ∉ old.map f := by
  obtain ⟨added, hadded⟩ := hp
  have hmem : ∀ k, k ∈ new.map f ↔ k ∈ old.map f ∨ k ∈ added := fun k => by rw [← hadded, List.mem_append]
  rw [← hadded, List.drop_left]
  simp only [mem_keys_lineMap]
  constructor
  · rintro ⟨k, hk, hn⟩
    obtain ⟨m, hm, rfl⟩ := List.mem_map.mp ((hmem k).mpr (Or.inr hk))
    exact ⟨m, hm, hn⟩
  · rintro ⟨m, hm, hn⟩
    exact ⟨f m, ((hmem _).mp (List.mem_map.mpr ⟨m, hm, rfl⟩)).resolve_left hn, hn⟩

/-- The changes of a sequence that loses no entry: the additions, or a reordering. -/
theorem sequenceChanges_of_sub (h : (lineMap f old).Sub (lineMap f new)) :
    sequenceChanges kind place subject (old.map f) (new.map f) (lineMap f old) (lineMap f new) =
      if old.map f <+: new.map f then
        ((new.map f).drop (old.map f).length).flatMap (addedChange kind place subject (lineMap f old) (lineMap f new))
      else [(.breaking, ⟨subject, .reordered, place, ", ".toList.intercalate (old.map f), none, none⟩)] := by
  unfold sequenceChanges
  rw [survivors_eq h, lost_eq_nil_iff.mpr h, List.nil_append]
  have hiff : (new.map f).take (old.map f).length = old.map f ↔ old.map f <+: new.map f :=
    eq_comm.trans List.prefix_iff_eq_take.symm
  exact if_congr hiff rfl rfl

theorem sequenceChanges_breaking_iff :
    (∃ c ∈ sequenceChanges kind place subject (old.map f) (new.map f) (lineMap f old) (lineMap f new),
        c.1 = .breaking) ↔
      ¬((lineMap f old).Sub (lineMap f new) ∧ old.map f <+: new.map f ∧
        (kind = .union → ∀ m ∈ new, f m ∈ old.map f)) := by
  by_cases h : (lineMap f old).Sub (lineMap f new)
  · rw [sequenceChanges_of_sub h]
    by_cases hp : old.map f <+: new.map f
    · have hcls : (if kind = .union then DiffClass.breaking else .major) = .breaking ↔ kind = .union := by
        split <;> simp_all
      rw [if_pos hp, exists_added_iff, exists_new_name_iff hp, hcls]
      simp only [h, hp, true_and, Classical.not_imp, not_forall]
    · rw [if_neg hp]
      exact iff_of_true ⟨_, List.mem_singleton_self _, rfl⟩ fun hall => hp hall.2.1
  · refine iff_of_true ?_ fun hall => h hall.1
    have hlost : ∃ c ∈ (lineMap f old).entries.flatMap fun e => lostChange place subject (lineMap f new) e.1 e.2,
        c.1 = .breaking := exists_lost_iff.mpr h
    obtain ⟨c, hc, hb⟩ := hlost
    exact ⟨c, List.mem_append_left _ hc, hb⟩

theorem sequenceChanges_major_iff (h : (lineMap f old).Sub (lineMap f new)) (hp : old.map f <+: new.map f)
    (hu : kind = .union → ∀ m ∈ new, f m ∈ old.map f) :
    (∃ c ∈ sequenceChanges kind place subject (old.map f) (new.map f) (lineMap f old) (lineMap f new),
        c.1 = .major) ↔ ∃ m ∈ new, f m ∉ old.map f := by
  rw [sequenceChanges_of_sub h, if_pos hp, exists_added_iff, exists_new_name_iff hp, and_iff_right_of_imp]
  rintro ⟨m, hm, hn⟩
  rw [if_neg fun e => hn (hu e m hm)]

theorem sequenceChanges_cls {oldNames newNames : List Text} {d d' : Dict Text Text} :
    ∀ c ∈ sequenceChanges kind place subject oldNames newNames d d', c.1 = .breaking ∨ c.1 = .major := by
  intro c hc
  rcases List.mem_append.mp hc with hc | hc
  · exact Or.inl (lost_cls c hc)
  · split at hc
    · obtain ⟨k, -, hck⟩ := List.mem_flatMap.mp hc
      rw [addedChange_cls c hck]
      split
      · exact Or.inl rfl
      · exact Or.inr rfl
    · rw [List.mem_singleton.mp hc]
      exact Or.inl rfl

end Sequence

end BinderIdl.Surface
