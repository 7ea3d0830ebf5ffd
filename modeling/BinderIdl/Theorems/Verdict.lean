import BinderIdl.Theorems.Changes

/-! The class of a diff, as a relation between the two sets of types: `Kept` says that nothing of the old
    types is lost, `Grown` that the new types have something more. The diff is breaking iff `Kept` fails,
    and otherwise major iff `Grown` holds. -/

namespace BinderIdl.Surface
open Py

/-! ### Named lines -/

/-- The name of a line of a type of some kind, when it has one. -/
def lineName (kind : Kind) (m : Text) : Text := okOr [] (memberName kind m)

/-- `_member_name` ends on every line. -/
def Named (kind : Kind) (ms : List Text) : Prop := ∀ m ∈ ms, ∃ s, memberName kind m = .ok s

/-- The lines compared as entries, without order: the values of an enum, the constants of another type. -/
def entryLines (kind : Kind) (ms : List Text) : List Text := if kind = .enum then ms else ms.filter isConst

/-- The lines compared in order: the methods, fields or arms. -/
def seqLines (kind : Kind) (ms : List Text) : List Text := if kind = .enum then [] else ms.filter (! isConst ·)

theorem lastWord_eq_memberName {kind : Kind} {m : Text} {ms : List Text} (h : m ∈ entryLines kind ms) :
    lastWord m = memberName kind m := by
  unfold entryLines at h
  unfold memberName
  split at h
  · rename_i hk
    rw [if_pos (Or.inl hk)]
  · rw [if_pos (Or.inr (List.mem_filter.mp h).2)]

theorem named_iff {kind : Kind} {ms : List Text} :
    Named kind ms ↔ (∀ m ∈ entryLines kind ms, ∃ s, lastWord m = .ok s) ∧
      ∀ m ∈ seqLines kind ms, ∃ s, memberName kind m = .ok s := by
  have hentry : (∀ m ∈ entryLines kind ms, ∃ s, lastWord m = .ok s) ↔
      ∀ m ∈ entryLines kind ms, ∃ s, memberName kind m = .ok s :=
    forall₂_congr fun m hm => by rw [lastWord_eq_memberName hm]
  rw [hentry]
  unfold entryLines seqLines Named
  by_cases hk : kind = .enum
  · simp [hk]
  · simp only [if_neg hk, List.mem_filter, Bool.not_eq_true', and_imp]
    constructor
    · exact fun h => ⟨fun m hm _ => h m hm, fun m hm _ => h m hm⟩
    · rintro ⟨h₁, h₂⟩ m hm
      cases hc : isConst m
      · exact h₂ m hm hc
      · exact h₁ m hm hc

/-! ### The changes of one type -/

/-- The member changes of a type whose lines are named. -/
def memberChanges (place : Text) (o n : TypeDecl) : List (DiffClass × Change) :=
  let f := lineName o.kind
  entryChanges place (if o.kind = .enum then .enumValue else .const) (lineMap f (entryLines o.kind o.members))
      (lineMap f (entryLines o.kind n.members)) ++
    sequenceChanges o.kind place (if o.kind = .interface then .method else .field)
      ((seqLines o.kind o.members).map f) ((seqLines o.kind n.members).map f)
      (lineMap f (seqLines o.kind o.members)) (lineMap f (seqLines o.kind n.members))

theorem asMap_eq_ok {kind : Kind} {ms : List Text} {d : Dict Text Text} :
    asMap (entryLines kind ms) = .ok d ↔
      (∀ m ∈ entryLines kind ms, ∃ s, lastWord m = .ok s) ∧ d = lineMap (lineName kind) (entryLines kind ms) := by
  have hmap : (entryLines kind ms).map (fun m => okOr [] (lastWord m)) = (entryLines kind ms).map (lineName kind) :=
    List.map_congr_left fun m hm => by rw [lastWord_eq_memberName hm, lineName]
  unfold asMap
  rw [bind_eq_ok]
  constructor
  · rintro ⟨names, hnames, hd⟩
    obtain ⟨hall, rfl⟩ := (mapM_eq_ok []).mp hnames
    cases hd
    rw [hmap, zip_map_self]
    exact ⟨hall, rfl⟩
  · rintro ⟨hall, rfl⟩
    refine ⟨_, (mapM_eq_ok []).mpr ⟨hall, rfl⟩, ?_⟩
    rw [hmap, zip_map_self]
    rfl

theorem diffEnum_eq_ok {kind : Kind} {place : Text} {subject : Subject} {old new : List Text}
    {cs : List (DiffClass × Change)} :
    diffEnum place (entryLines kind old) (entryLines kind new) subject = .ok cs ↔
      (∀ m ∈ entryLines kind old, ∃ s, lastWord m = .ok s) ∧ (∀ m ∈ entryLines kind new, ∃ s, lastWord m = .ok s) ∧
      cs = entryChanges place subject (lineMap (lineName kind) (entryLines kind old))
        (lineMap (lineName kind) (entryLines kind new)) := by
  unfold diffEnum
  simp only [bind_eq_ok, asMap_eq_ok]
  constructor
  · rintro ⟨_, ⟨h₁, rfl⟩, _, ⟨h₂, rfl⟩, h⟩
    exact ⟨h₁, h₂, (Except.ok.inj h).symm⟩
  · rintro ⟨h₁, h₂, rfl⟩
    exact ⟨_, ⟨h₁, rfl⟩, _, ⟨h₂, rfl⟩, rfl⟩

theorem diffSequence_eq_ok {kind : Kind} {place : Text} {subject : Subject} {old new : List Text}
    {cs : List (DiffClass × Change)} :
    diffSequence kind place old new subject = .ok cs ↔
      (∀ m ∈ old, ∃ s, memberName kind m = .ok s) ∧ (∀ m ∈ new, ∃ s, memberName kind m = .ok s) ∧
      cs = sequenceChanges kind place subject (old.map (lineName kind)) (new.map (lineName kind))
        (lineMap (lineName kind) old) (lineMap (lineName kind) new) := by
  unfold diffSequence
  simp only [bind_eq_ok, mapM_eq_ok ([] : Text)]
  constructor
  · rintro ⟨_, ⟨h₁, rfl⟩, _, ⟨h₂, rfl⟩, h⟩
    refine ⟨h₁, h₂, ?_⟩
    rw [zip_map_self, zip_map_self] at h
    exact (Except.ok.inj h).symm
  · rintro ⟨h₁, h₂, rfl⟩
    refine ⟨_, ⟨h₁, rfl⟩, _, ⟨h₂, rfl⟩, ?_⟩
    rw [zip_map_self, zip_map_self]
    rfl

theorem sequenceChanges_nil {kind : Kind} {place : Text} {subject : Subject} {f : Text → Text} :
    sequenceChanges kind place subject (List.map f []) (List.map f []) (lineMap f []) (lineMap f []) = [] := rfl

theorem diffMembers_eq_ok {place : Text} {o n : TypeDecl} {cs : List (DiffClass × Change)} :
    diffMembers place o n = .ok cs ↔
      Named o.kind o.members ∧ Named o.kind n.members ∧ cs = memberChanges place o n := by
  rw [named_iff, named_iff]
  unfold diffMembers memberChanges
  by_cases hk : o.kind = .enum
  · have h : diffEnum place o.members n.members .enumValue =
        diffEnum place (entryLines o.kind o.members) (entryLines o.kind n.members) .enumValue := by
      simp only [entryLines, if_pos hk]
    have hseq : ∀ ms, seqLines o.kind ms = [] := fun ms => if_pos hk
    rw [if_pos hk, h, diffEnum_eq_ok]
    simp only [if_pos hk, hseq, sequenceChanges_nil, List.append_nil, List.not_mem_nil, false_imp_iff, implies_true,
      and_true]
  · have hentry : ∀ ms, ms.filter isConst = entryLines o.kind ms := fun ms => (if_neg hk).symm
    have hseq : ∀ ms, ms.filter (! isConst ·) = seqLines o.kind ms := fun ms => (if_neg hk).symm
    rw [if_neg hk]
    simp only [bind_eq_ok, hentry, hseq, diffEnum_eq_ok, diffSequence_eq_ok, if_neg hk]
    constructor
    · rintro ⟨_, ⟨h₁, h₂, rfl⟩, _, ⟨h₃, h₄, rfl⟩, h⟩
      exact ⟨⟨h₁, h₃⟩, ⟨h₂, h₄⟩, (Except.ok.inj h).symm⟩
    · rintro ⟨⟨h₁, h₃⟩, ⟨h₂, h₄⟩, rfl⟩
      exact ⟨_, ⟨h₁, h₂, rfl⟩, _, ⟨h₃, h₄, rfl⟩, rfl⟩

/-! ### Types that keep what they had -/

/-- Nothing of the old type is lost in the new one. -/
structure TypeKept (o n : TypeDecl) : Prop where
  kind : o.kind = n.kind
  oneway : o.oneway = n.oneway
  annotations : ∀ a ∈ o.annotations, a ∈ n.annotations
  promise : ∀ a ∈ n.annotations, a ∈ o.annotations ∨ a = vintfStability
  entries : (lineMap (lineName o.kind) (entryLines o.kind o.members)).Sub
    (lineMap (lineName o.kind) (entryLines o.kind n.members))
  lines : (lineMap (lineName o.kind) (seqLines o.kind o.members)).Sub
    (lineMap (lineName o.kind) (seqLines o.kind n.members))
  order : (seqLines o.kind o.members).map (lineName o.kind) <+: (seqLines o.kind n.members).map (lineName o.kind)
  union : o.kind = .union → ∀ m ∈ seqLines o.kind n.members,
    lineName o.kind m ∈ (seqLines o.kind o.members).map (lineName o.kind)

/-- The new type has an annotation or a name that the old one lacks. -/
def TypeGrown (o n : TypeDecl) : Prop :=
  (∃ a ∈ n.annotations, a ∉ o.annotations) ∨
  (∃ m ∈ entryLines o.kind n.members, lineName o.kind m ∉ (entryLines o.kind o.members).map (lineName o.kind)) ∨
  ∃ m ∈ seqLines o.kind n.members, lineName o.kind m ∉ (seqLines o.kind o.members).map (lineName o.kind)

theorem mem_setMinus {a b : List Text} {x : Text} : x ∈ setMinus a b ↔ x ∈ a ∧ x ∉ b := by
  simp [setMinus, mem_sorted]

section OneType
variable {place qname : Text} {o n : TypeDecl}

theorem headChanges_cls : ∀ c ∈ headChanges place qname o n, c.1 = .breaking ∨ c.1 = .major := by
  intro c hc
  simp only [headChanges, List.mem_append, List.mem_map] at hc
  rcases hc with (hc | ⟨a, -, rfl⟩) | ⟨a, -, rfl⟩
  · split at hc
    · rw [List.mem_singleton.mp hc]
      exact Or.inl rfl
    · cases hc
  · exact Or.inl rfl
  · simp only
    split
    · exact Or.inr rfl
    · exact Or.inl rfl

theorem headChanges_breaking_iff :
    (∃ c ∈ headChanges place qname o n, c.1 = .breaking) ↔
      ¬(o.kind = n.kind ∧ o.oneway = n.oneway ∧ (∀ a ∈ o.annotations, a ∈ n.annotations) ∧
        ∀ a ∈ n.annotations, a ∈ o.annotations ∨ a = vintfStability) := by
  simp only [headChanges, mem_append_exists]
  have h₁ : (∃ c ∈ (if o.kind ≠ n.kind ∨ o.oneway ≠ n.oneway then
      [(DiffClass.breaking, (⟨.type, .changed, place, qname,
        some ((if o.oneway then "oneway ".toList else []) ++ o.kind.text),
        some ((if n.oneway then "oneway ".toList else []) ++ n.kind.text)⟩ : Change))] else []),
      c.1 = DiffClass.breaking) ↔ o.kind ≠ n.kind ∨ o.oneway ≠ n.oneway := by
    by_cases changed : o.kind ≠ n.kind ∨ o.oneway ≠ n.oneway
    · rw [if_pos changed]
      exact iff_of_true ⟨_, List.mem_cons_self, rfl⟩ changed
    · rw [if_neg changed]
      exact iff_of_false (fun ⟨_, member, _⟩ => absurd member List.not_mem_nil) changed
  have h₂ : (∃ c ∈ (setMinus o.annotations n.annotations).map (fun a =>
      (DiffClass.breaking, (⟨.annotations, .removed, place, a, none, none⟩ : Change))), c.1 = DiffClass.breaking) ↔
      ∃ a ∈ o.annotations, a ∉ n.annotations := by
    simp [mem_setMinus]
  have h₃ : (∃ c ∈ (setMinus n.annotations o.annotations).map (fun a =>
      (if a = vintfStability then DiffClass.major else .breaking,
        (⟨.annotations, .added, place, a, none, none⟩ : Change))), c.1 = DiffClass.breaking) ↔
      ∃ a ∈ n.annotations, ¬(a ∈ o.annotations ∨ a = vintfStability) := by
    constructor
    · rintro ⟨c, hc, hb⟩
      obtain ⟨a, ha, rfl⟩ := List.mem_map.mp hc
      obtain ⟨hn, ho⟩ := mem_setMinus.mp ha
      refine ⟨a, hn, not_or.mpr ⟨ho, fun hv => ?_⟩⟩
      simp [hv] at hb
    · rintro ⟨a, hn, h⟩
      obtain ⟨ho, hv⟩ := not_or.mp h
      exact ⟨_, List.mem_map.mpr ⟨a, mem_setMinus.mpr ⟨hn, ho⟩, rfl⟩, if_neg hv⟩
  rw [h₁, h₂, h₃]
  simp only [not_and_or, not_forall, exists_prop, or_assoc, Ne]

theorem headChanges_major_iff (hp : ∀ a ∈ n.annotations, a ∈ o.annotations ∨ a = vintfStability) :
    (∃ c ∈ headChanges place qname o n, c.1 = .major) ↔ ∃ a ∈ n.annotations, a ∉ o.annotations := by
  constructor
  · rintro ⟨c, hc, hm⟩
    simp only [headChanges, List.mem_append, List.mem_map] at hc
    rcases hc with (hc | ⟨a, -, rfl⟩) | ⟨a, ha, rfl⟩
    · split at hc
      · rw [List.mem_singleton.mp hc] at hm
        cases hm
      · cases hc
    · cases hm
    · exact ⟨a, mem_setMinus.mp ha⟩
  · rintro ⟨a, ha, hn⟩
    refine ⟨_, List.mem_append_right _ (List.mem_map.mpr ⟨a, mem_setMinus.mpr ⟨ha, hn⟩, rfl⟩), ?_⟩
    exact if_pos ((hp a ha).resolve_left hn)

/-- All changes of a type that both dumps hold. -/
def typeChanges (qname : Text) (o n : TypeDecl) : List (DiffClass × Change) :=
  headChanges (n.kind.text ++ ' ' :: qname) qname o n ++ memberChanges (n.kind.text ++ ' ' :: qname) o n

theorem typeChanges_cls : ∀ c ∈ typeChanges qname o n, c.1 = .breaking ∨ c.1 = .major := by
  intro c hc
  rcases List.mem_append.mp hc with hc | hc
  · exact headChanges_cls c hc
  · rcases List.mem_append.mp hc with hc | hc
    · exact entryChanges_cls c hc
    · exact sequenceChanges_cls c hc

theorem typeChanges_breaking_iff : (∃ c ∈ typeChanges qname o n, c.1 = .breaking) ↔ ¬TypeKept o n := by
  unfold typeChanges memberChanges
  simp only [mem_append_exists, headChanges_breaking_iff, entryChanges_breaking_iff, sequenceChanges_breaking_iff]
  rw [← not_and_or, ← not_and_or, not_iff_not]
  constructor
  · rintro ⟨⟨h₁, h₂, h₃, h₄⟩, h₅, h₆, h₇, h₈⟩
    exact ⟨h₁, h₂, h₃, h₄, h₅, h₆, h₇, h₈⟩
  · intro h
    exact ⟨⟨h.kind, h.oneway, h.annotations, h.promise⟩, h.entries, h.lines, h.order, h.union⟩

theorem typeChanges_major_iff (h : TypeKept o n) : (∃ c ∈ typeChanges qname o n, c.1 = .major) ↔ TypeGrown o n := by
  unfold typeChanges memberChanges
  simp only [mem_append_exists, headChanges_major_iff h.promise, entryChanges_major_iff,
    sequenceChanges_major_iff h.lines h.order h.union, mem_keys_lineMap]
  exact or_congr_right (or_congr_left (by simp only [List.mem_map, exists_exists_and_eq_and]))

end OneType

/-! ### Sets of types -/

/-- Every old type is there, and nothing of it is lost. -/
def Kept (old new : Types) : Prop :=
  ∀ q o, old.get? q = some o → ∃ n, new.get? q = some n ∧ TypeKept o n

/-- There is a new type, or a type that has grown. -/
def Grown (old new : Types) : Prop :=
  (∃ q n, old.get? q = none ∧ new.get? q = some n) ∨
  ∃ q o n, old.get? q = some o ∧ new.get? q = some n ∧ TypeGrown o n

/-- The lines of the common types have names, so that the types can be compared. -/
def Comparable (old new : Types) : Prop :=
  ∀ q o n, old.get? q = some o → new.get? q = some n → Named o.kind o.members ∧ Named o.kind n.members

/-- The changes under a qualified name of comparable types. -/
def changesAt (old new : Types) (q : Text) : List (DiffClass × Change) :=
  match old.get? q, new.get? q with
  | none, none => []
  | some o, none => [(.breaking, ⟨.type, .removed, o.kind.text ++ ' ' :: q, q, none, none⟩)]
  | none, some n => [(.major, ⟨.type, .added, n.kind.text ++ ' ' :: q, q, none, none⟩)]
  | some o, some n => typeChanges q o n

section Types
variable {old new : Types}

theorem diffType_eq_ok {q : Text} {cs : List (DiffClass × Change)} :
    diffType old new q = .ok cs ↔
      (∀ o n, old.get? q = some o → new.get? q = some n → Named o.kind o.members ∧ Named o.kind n.members) ∧
      cs = changesAt old new q := by
  unfold diffType changesAt
  cases ho : old.get? q with
  | none =>
    cases hn : new.get? q with
    | none => simp [eq_comm]
    | some n => simp [eq_comm]
  | some o =>
    cases hn : new.get? q with
    | none => simp [eq_comm]
    | some n =>
      simp only [bind_eq_ok, diffMembers_eq_ok]
      constructor
      · rintro ⟨_, ⟨h₁, h₂, rfl⟩, h⟩
        refine ⟨fun o' n' ho' hn' => ?_, (Except.ok.inj h).symm⟩
        cases ho'
        cases hn'
        exact ⟨h₁, h₂⟩
      · rintro ⟨h, rfl⟩
        obtain ⟨h₁, h₂⟩ := h o n rfl rfl
        exact ⟨_, ⟨h₁, h₂, rfl⟩, rfl⟩

/-- The qualified names of both dumps, as the diff visits them. -/
def qnames (old new : Types) : List Text := sorted (old.keys ++ new.keys).dedup

theorem mem_qnames {q : Text} : q ∈ qnames old new ↔ q ∈ old.keys ∨ q ∈ new.keys := by
  simp [qnames, mem_sorted]

theorem changesAt_of_not_mem {q : Text} (h : q ∉ qnames old new) : changesAt old new q = [] := by
  rw [mem_qnames, not_or] at h
  rw [changesAt, Dict.get?_eq_none_iff.mpr h.1, Dict.get?_eq_none_iff.mpr h.2]

/-- The diff ends iff the common types are comparable; its changes are those under each qualified name. -/
theorem diffTypes_eq_ok {r : Report} :
    diffTypes old new = .ok r ↔ Comparable old new ∧
      r = ⟨overall ((qnames old new).flatMap (changesAt old new)),
        ((qnames old new).flatMap (changesAt old new)).map Prod.snd⟩ := by
  have hcomp : (∀ q ∈ qnames old new, ∃ cs, diffType old new q = .ok cs) ↔ Comparable old new := by
    constructor
    · intro h q o n ho hn
      obtain ⟨cs, hcs⟩ := h q (mem_qnames.mpr (Or.inl (Dict.mem_keys_of_get? ho)))
      exact (diffType_eq_ok.mp hcs).1 o n ho hn
    · exact fun h q _ => ⟨_, diffType_eq_ok.mpr ⟨h q, rfl⟩⟩
  have hmap : Comparable old new →
      (qnames old new).map (fun q => okOr [] (diffType old new q)) = (qnames old new).map (changesAt old new) :=
    fun h => List.map_congr_left fun q _ => by rw [diffType_eq_ok.mpr ⟨h q, rfl⟩, okOr_ok]
  have hdef : diffTypes old new = (qnames old new).mapM (diffType old new) >>= fun changes =>
      .ok ⟨overall changes.flatten, changes.flatten.map Prod.snd⟩ := rfl
  simp only [hdef, bind_eq_ok, mapM_eq_ok ([] : List (DiffClass × Change)), hcomp]
  constructor
  · rintro ⟨_, ⟨h, rfl⟩, hr⟩
    rw [hmap h] at hr
    exact ⟨h, (Except.ok.inj hr).symm⟩
  · rintro ⟨h, rfl⟩
    refine ⟨_, ⟨h, rfl⟩, ?_⟩
    rw [hmap h]
    rfl

theorem changesAt_cls {q : Text} : ∀ c ∈ changesAt old new q, c.1 = .breaking ∨ c.1 = .major := by
  unfold changesAt
  split
  · simp
  · simp
  · simp
  · exact typeChanges_cls

theorem exists_breaking_iff : (∃ q, ∃ c ∈ changesAt old new q, c.1 = .breaking) ↔ ¬Kept old new := by
  unfold Kept
  push Not
  refine exists_congr fun q => ?_
  unfold changesAt
  cases ho : old.get? q with
  | none => cases new.get? q <;> simp
  | some o =>
    cases hn : new.get? q with
    | none => simp
    | some n => simpa using typeChanges_breaking_iff

theorem exists_major_iff (h : Kept old new) : (∃ q, ∃ c ∈ changesAt old new q, c.1 = .major) ↔ Grown old new := by
  unfold Grown
  rw [← exists_or]
  refine exists_congr fun q => ?_
  unfold changesAt
  cases ho : old.get? q with
  | none => cases new.get? q <;> simp
  | some o =>
    obtain ⟨n, hn, hk⟩ := h q o ho
    simpa [hn] using typeChanges_major_iff hk

theorem exists_mem_flatMap {p : DiffClass × Change → Prop} :
    (∃ c ∈ (qnames old new).flatMap (changesAt old new), p c) ↔ ∃ q, ∃ c ∈ changesAt old new q, p c := by
  constructor
  · rintro ⟨c, hc, hp⟩
    obtain ⟨q, -, hq⟩ := List.mem_flatMap.mp hc
    exact ⟨q, c, hq, hp⟩
  · rintro ⟨q, c, hc, hp⟩
    refine ⟨c, List.mem_flatMap.mpr ⟨q, ?_, hc⟩, hp⟩
    by_contra hq
    rw [changesAt_of_not_mem hq] at hc
    cases hc

end Types

theorem overall_eq {cs : List (DiffClass × Change)} :
    overall cs = if ∃ c ∈ cs, c.1 = .breaking then .breaking
      else if ∃ c ∈ cs, c.1 = .major then .major else .none := by
  simp only [overall, List.any_eq_true, beq_iff_eq]

theorem diffTypes_cls {old new : Types} {r : Report} (h : diffTypes old new = .ok r) :
    (r.cls = .breaking ↔ ¬Kept old new) ∧ (r.cls = .major ↔ Kept old new ∧ Grown old new) ∧
      (r.cls = .none ↔ Kept old new ∧ ¬Grown old new) := by
  obtain ⟨-, rfl⟩ := diffTypes_eq_ok.mp h
  have hb : (∃ c ∈ (qnames old new).flatMap (changesAt old new), c.1 = .breaking) ↔ ¬Kept old new :=
    exists_mem_flatMap.trans exists_breaking_iff
  have hm : Kept old new → ((∃ c ∈ (qnames old new).flatMap (changesAt old new), c.1 = .major) ↔ Grown old new) :=
    fun hk => exists_mem_flatMap.trans (exists_major_iff hk)
  simp only [overall_eq]
  by_cases hk : Kept old new
  · rw [if_neg (hb.not.mpr (not_not.mpr hk))]
    by_cases hg : Grown old new
    · simp [if_pos ((hm hk).mpr hg), hk, hg]
    · simp [if_neg ((hm hk).not.mpr hg), hk, hg]
  · simp [if_pos (hb.mpr hk), hk]

theorem diffTypes_changes_eq_nil {old new : Types} {r : Report} (h : diffTypes old new = .ok r) (hr : r.cls = .none) :
    r.changes = [] := by
  obtain ⟨hk, hg⟩ := (diffTypes_cls h).2.2.mp hr
  obtain ⟨-, rfl⟩ := diffTypes_eq_ok.mp h
  rw [List.map_eq_nil_iff, List.flatMap_eq_nil_iff]
  intro q _
  refine List.eq_nil_iff_forall_not_mem.mpr fun c hc => ?_
  rcases changesAt_cls c hc with hb | hm
  · exact exists_breaking_iff.mp ⟨q, c, hc, hb⟩ hk
  · exact hg ((exists_major_iff hk).mp ⟨q, c, hc, hm⟩)

end BinderIdl.Surface
