import BinderIdl.Theorems.ReadBack
import BinderIdl.Theorems.Verdict

/-! The compatibility contract of two surfaces, stated on their lines alone, and how far the diff computes it.
    The diff finds a line again by the name that `_member_name` extracts. This is the declared name unless an
    annotation with arguments stands before it; the lines of one type that share an extracted name are merged. -/

namespace BinderIdl.Surface
open Py

/-! ### The contract -/

/-- The text behind the arguments of an annotation, from inside `depth` parentheses. -/
def skipArgs (depth : Nat) (t : Text) : Text :=
  match depth, t with
  | 0, t => t
  | _ + 1, [] => []
  | d + 1, '"' :: u => skipArgs (d + 1) (stringEnd u).2
  | d + 1, '(' :: u => skipArgs (d + 2) u
  | d + 1, ')' :: u => skipArgs d u
  | d + 1, _ :: u => skipArgs (d + 1) u
termination_by t.length
decreasing_by
  all_goals
    have := stringEnd_length u
    simp only [List.length_cons]
    omega

theorem skipArgs_length (depth : Nat) (t : Text) : (skipArgs depth t).length ≤ t.length := by
  fun_induction skipArgs depth t with
  | case1 => exact le_rfl
  | case2 => exact le_rfl
  | case3 d u ih =>
    have := stringEnd_length u
    rw [List.length_cons]
    omega
  | case4 d u ih => exact ih.trans (Nat.le_succ _)
  | case5 d u ih => exact ih.trans (Nat.le_succ _)
  | case6 d c u _ _ _ ih => exact ih.trans (Nat.le_succ _)

/-- A line without its annotations and their arguments. -/
def bare (t : Text) : Text :=
  match t with
  | [] => []
  | '"' :: u => '"' :: (stringEnd u).1 ++ bare (stringEnd u).2
  | '@' :: u =>
    match _h : (u.dropWhile isWord).dropWhile isSpace with
    | '(' :: v => bare (skipArgs 1 v)
    | _ => bare (u.dropWhile isWord)
  | c :: u => c :: bare u
termination_by t.length
decreasing_by
  · have := stringEnd_length u
    simp only [List.length_cons]
    omega
  · have h₁ := skipArgs_length 1 v
    have h₂ := length_of_dropWhile_cons _h
    have h₃ := (List.dropWhile_suffix isWord (l := u)).length_le
    simp only [List.length_cons]
    omega
  · have := (List.dropWhile_suffix isWord (l := u)).length_le
    simp only [List.length_cons]
    omega
  · simp

/-- The name that a member line declares: for an enum value or a constant the last word before the `=`, for a
    method or a field the word before the `(`, the `=` or the end of the line without its annotations. -/
def declaredName (kind : Kind) (m : Text) : Text :=
  if kind = .enum ∨ isConst m then okOr [] (lastWord m)
  else (rstrip ((bare m).takeWhile fun c => c != '(' && c != '=')).rtakeWhile isWord

/-- A surface as the dump holds one: readable headers, clean lines, and distinct declared names in each type. -/
structure WellFormed (s : Types) : Prop where
  readable : AllReadable s
  clean : LinesClean s
  named : ∀ q t, s.get? q = some t → ∀ m ∈ t.members, declaredName t.kind m ≠ []
  distinct : ∀ q t, s.get? q = some t → (t.members.map (declaredName t.kind)).Nodup

/-- Equal up to the order of annotations, constants and enum values. -/
structure TypeEqual (o n : TypeDecl) : Prop where
  kind : o.kind = n.kind
  oneway : o.oneway = n.oneway
  annotations : ∀ a, a ∈ o.annotations ↔ a ∈ n.annotations
  entries : ∀ m, m ∈ entryLines o.kind o.members ↔ m ∈ entryLines o.kind n.members
  lines : seqLines o.kind o.members = seqLines o.kind n.members

/-- At most additions: a stability promise, constants or enum values, methods or fields at the end. -/
structure TypeCompatible (o n : TypeDecl) : Prop where
  kind : o.kind = n.kind
  oneway : o.oneway = n.oneway
  annotations : ∀ a ∈ o.annotations, a ∈ n.annotations
  promise : ∀ a ∈ n.annotations, a ∈ o.annotations ∨ a = vintfStability
  entries : ∀ m ∈ entryLines o.kind o.members, m ∈ entryLines o.kind n.members
  lines : seqLines o.kind o.members <+: seqLines o.kind n.members
  union : o.kind = .union → seqLines o.kind o.members = seqLines o.kind n.members

/-- The same types, each equal. -/
def SurfaceEqual (old new : Types) : Prop :=
  (∀ q n, new.get? q = some n → (old.get? q).isSome) ∧
    ∀ q o, old.get? q = some o → ∃ n, new.get? q = some n ∧ TypeEqual o n

/-- Every old type is there, and compatible. -/
def Compatible (old new : Types) : Prop :=
  ∀ q o, old.get? q = some o → ∃ n, new.get? q = some n ∧ TypeCompatible o n

instance (o n : TypeDecl) : Decidable (TypeEqual o n) :=
  decidable_of_iff (o.kind = n.kind ∧ o.oneway = n.oneway ∧
      ((∀ a ∈ o.annotations, a ∈ n.annotations) ∧ ∀ a ∈ n.annotations, a ∈ o.annotations) ∧
      ((∀ m ∈ entryLines o.kind o.members, m ∈ entryLines o.kind n.members) ∧
        ∀ m ∈ entryLines o.kind n.members, m ∈ entryLines o.kind o.members) ∧
      seqLines o.kind o.members = seqLines o.kind n.members)
    ⟨fun ⟨h₁, h₂, h₃, h₄, h₅⟩ => ⟨h₁, h₂, fun a => ⟨h₃.1 a, h₃.2 a⟩, fun m => ⟨h₄.1 m, h₄.2 m⟩, h₅⟩,
      fun ⟨h₁, h₂, h₃, h₄, h₅⟩ => ⟨h₁, h₂, ⟨fun a => (h₃ a).mp, fun a => (h₃ a).mpr⟩,
        ⟨fun m => (h₄ m).mp, fun m => (h₄ m).mpr⟩, h₅⟩⟩

instance (o n : TypeDecl) : Decidable (TypeCompatible o n) :=
  decidable_of_iff (o.kind = n.kind ∧ o.oneway = n.oneway ∧ (∀ a ∈ o.annotations, a ∈ n.annotations) ∧
      (∀ a ∈ n.annotations, a ∈ o.annotations ∨ a = vintfStability) ∧
      (∀ m ∈ entryLines o.kind o.members, m ∈ entryLines o.kind n.members) ∧
      seqLines o.kind o.members <+: seqLines o.kind n.members ∧
      (o.kind = .union → seqLines o.kind o.members = seqLines o.kind n.members))
    ⟨fun ⟨h₁, h₂, h₃, h₄, h₅, h₆, h₇⟩ => ⟨h₁, h₂, h₃, h₄, h₅, h₆, h₇⟩,
      fun ⟨h₁, h₂, h₃, h₄, h₅, h₆, h₇⟩ => ⟨h₁, h₂, h₃, h₄, h₅, h₆, h₇⟩⟩

instance (new : Types) (q : Text) (p : TypeDecl → Prop) [DecidablePred p] :
    Decidable (∃ n, new.get? q = some n ∧ p n) :=
  match h : new.get? q with
  | none => isFalse fun ⟨_, hn, _⟩ => by cases hn
  | some n => decidable_of_iff (p n) ⟨fun hp => ⟨n, rfl, hp⟩, fun ⟨_, hn, hp⟩ => Option.some.inj hn ▸ hp⟩

instance (old new : Types) : Decidable (SurfaceEqual old new) :=
  inferInstanceAs (Decidable ((∀ q n, new.get? q = some n → (old.get? q).isSome) ∧
    ∀ q o, old.get? q = some o → ∃ n, new.get? q = some n ∧ TypeEqual o n))

instance (old new : Types) : Decidable (Compatible old new) :=
  inferInstanceAs (Decidable (∀ q o, old.get? q = some o → ∃ n, new.get? q = some n ∧ TypeCompatible o n))

/-- The class that the contract gives to two surfaces. -/
def contractClass (old new : Types) : DiffClass :=
  if SurfaceEqual old new then .none else if Compatible old new then .major else .breaking

/-! ### Lines that share an extracted name -/

/-- The line that stands for a name: the last one of this name. -/
def lineOf (f : Text → Text) (ms : List Text) (k : Text) : Text := ((lineMap f ms).get? k).getD []

/-- The lines, each replaced by the one that stands for its name. -/
def visible (f : Text → Text) (ms : List Text) : List Text := (ms.map f).map (lineOf f ms)

section Names
variable {f : Text → Text} {old new : List Text}

theorem mem_of_lineMap {ms : List Text} {k m : Text} (h : (lineMap f ms).get? k = some m) : m ∈ ms ∧ f m = k := by
  obtain ⟨m', hm', he⟩ := List.mem_map.mp (Dict.mem_of_get?_ofPairs h)
  cases he
  exact ⟨hm', rfl⟩

theorem lineMap_append (ms ms' : List Text) (k : Text) :
    (lineMap f (ms ++ ms')).get? k = ((lineMap f ms').get? k).or ((lineMap f ms).get? k) := by
  simp only [lineMap, Dict.get?_ofPairs, List.map_append, List.reverse_append, List.lookup_append]

theorem exists_lineMap {ms : List Text} {k : Text} (h : k ∈ ms.map f) : ∃ m, (lineMap f ms).get? k = some m :=
  Option.isSome_iff_exists.mp (lineMap_isSome_iff.mpr h)

theorem lineMap_of_nodup {ms : List Text} (h : (ms.map f).Nodup) {m : Text} (hm : m ∈ ms) :
    (lineMap f ms).get? (f m) = some m := by
  obtain ⟨m', hm'⟩ := exists_lineMap (List.mem_map_of_mem (f := f) hm)
  obtain ⟨hmem, hname⟩ := mem_of_lineMap hm'
  rw [hm', List.inj_on_of_nodup_map h hmem hm hname]

theorem sub_iff_of_nodup (ho : (old.map f).Nodup) (hn : (new.map f).Nodup) :
    (lineMap f old).Sub (lineMap f new) ↔ ∀ m ∈ old, m ∈ new := by
  constructor
  · exact fun h m hm => (mem_of_lineMap (h _ _ (lineMap_of_nodup ho hm))).1
  · intro h k m hk
    obtain ⟨hm, rfl⟩ := mem_of_lineMap hk
    exact lineMap_of_nodup hn (h m hm)

theorem sub_append_iff {added : List Text} (hnodup : (old ++ added).Nodup) :
    (lineMap f old).Sub (lineMap f (old ++ added)) ↔ ∀ m ∈ added, f m ∉ old.map f := by
  constructor
  · intro h m hm hmem
    obtain ⟨m', hm'⟩ := exists_lineMap (List.mem_map_of_mem (f := f) hm)
    obtain ⟨v, hv⟩ := exists_lineMap hmem
    have hget := h _ _ hv
    rw [lineMap_append, hm', Option.some_or] at hget
    cases hget
    exact (List.disjoint_of_nodup_append hnodup) (mem_of_lineMap hv).1 (mem_of_lineMap hm').1
  · intro h k v hv
    have hk : k ∉ added.map f := by
      intro hmem
      obtain ⟨m, hm, rfl⟩ := List.mem_map.mp hmem
      refine h m hm ?_
      obtain ⟨hv', hname⟩ := mem_of_lineMap hv
      exact hname ▸ List.mem_map_of_mem hv'
    have hnone : (lineMap f added).get? k = none := Dict.get?_eq_none_iff.mpr (mem_keys_lineMap.not.mpr hk)
    rw [lineMap_append, hnone, Option.none_or]
    exact hv

theorem name_lineOf {ms : List Text} {k : Text} (h : k ∈ ms.map f) : f (lineOf f ms k) = k := by
  obtain ⟨m, hm⟩ := exists_lineMap h
  rw [lineOf, hm]
  exact (mem_of_lineMap hm).2

theorem map_visible (ms : List Text) : (visible f ms).map f = ms.map f := by
  rw [visible, List.map_map]
  conv_rhs => rw [← List.map_id (ms.map f)]
  exact List.map_congr_left fun k hk => name_lineOf hk

/-- The diff keeps a list of lines iff its visible lines are a prefix of the new visible lines. -/
theorem visible_prefix_iff :
    visible f old <+: visible f new ↔ (lineMap f old).Sub (lineMap f new) ∧ old.map f <+: new.map f := by
  constructor
  · intro h
    have hnames : old.map f <+: new.map f := by
      have := h.map f
      rwa [map_visible, map_visible] at this
    obtain ⟨added, hadded⟩ := hnames
    have hnew : visible f new = (old.map f).map (lineOf f new) ++ added.map (lineOf f new) := by
      rw [visible, ← hadded, List.map_append]
    have hsame : (old.map f).map (lineOf f old) = (old.map f).map (lineOf f new) := by
      rw [hnew] at h
      exact List.append_inj_left h.choose_spec (by simp)
    refine ⟨fun k v hv => ?_, ⟨added, hadded⟩⟩
    have hk : k ∈ old.map f := mem_keys_lineMap.mp (Dict.mem_keys_of_get? hv)
    have hk' : k ∈ new.map f := hadded ▸ List.mem_append_left _ hk
    obtain ⟨v', hv'⟩ := exists_lineMap hk'
    have heq := List.map_inj_left.mp hsame k hk
    rw [lineOf, lineOf, hv, hv'] at heq
    rw [hv', show v = v' from heq]
  · rintro ⟨hsub, hp⟩
    obtain ⟨added, hadded⟩ := hp
    have hsame : (old.map f).map (lineOf f old) = (old.map f).map (lineOf f new) := by
      refine List.map_congr_left fun k hk => ?_
      obtain ⟨v, hv⟩ := exists_lineMap hk
      rw [lineOf, lineOf, hv, hsub k v hv]
    rw [visible, visible, ← hadded, List.map_append, hsame]
    exact List.prefix_append _ _

end Names

/-! ### One type -/

/-- What the diff sees of `TypeCompatible`: each method or field stands for the last one of its extracted name. -/
structure TypeMerged (o n : TypeDecl) : Prop where
  kind : o.kind = n.kind
  oneway : o.oneway = n.oneway
  annotations : ∀ a ∈ o.annotations, a ∈ n.annotations
  promise : ∀ a ∈ n.annotations, a ∈ o.annotations ∨ a = vintfStability
  entries : ∀ m ∈ entryLines o.kind o.members, m ∈ entryLines o.kind n.members
  lines : visible (lineName o.kind) (seqLines o.kind o.members) <+: visible (lineName o.kind) (seqLines o.kind n.members)
  union : o.kind = .union → ∀ m ∈ seqLines o.kind n.members,
    lineName o.kind m ∈ (seqLines o.kind o.members).map (lineName o.kind)

/-- The declared names of a type are distinct. -/
def DistinctNames (t : TypeDecl) : Prop := (t.members.map (declaredName t.kind)).Nodup

section OneType
variable {o n t : TypeDecl}

theorem entryLines_sublist (kind : Kind) (ms : List Text) : (entryLines kind ms).Sublist ms := by
  unfold entryLines
  split
  · exact List.Sublist.refl _
  · exact List.filter_sublist

theorem seqLines_sublist (kind : Kind) (ms : List Text) : (seqLines kind ms).Sublist ms := by
  unfold seqLines
  split
  · exact List.nil_sublist _
  · exact List.filter_sublist

theorem lineName_entry {kind : Kind} {ms : List Text} {m : Text} (h : m ∈ entryLines kind ms) :
    lineName kind m = declaredName kind m := by
  have hentry : kind = .enum ∨ isConst m := by
    unfold entryLines at h
    split at h
    · exact Or.inl ‹_›
    · exact Or.inr (List.mem_filter.mp h).2
  rw [lineName, ← lastWord_eq_memberName h, declaredName, if_pos hentry]

theorem DistinctNames.entries (h : DistinctNames t) : ((entryLines t.kind t.members).map (lineName t.kind)).Nodup := by
  rw [List.map_congr_left fun m hm => lineName_entry hm]
  exact ((entryLines_sublist t.kind t.members).map _).nodup h

theorem DistinctNames.lines (h : DistinctNames t) : (seqLines t.kind t.members).Nodup :=
  (seqLines_sublist t.kind t.members).nodup (List.Nodup.of_map _ h)

theorem typeKept_iff_merged (ho : DistinctNames o) (hn : DistinctNames n) : TypeKept o n ↔ TypeMerged o n := by
  have hentries : o.kind = n.kind → ((lineMap (lineName o.kind) (entryLines o.kind o.members)).Sub
      (lineMap (lineName o.kind) (entryLines o.kind n.members)) ↔
        ∀ m ∈ entryLines o.kind o.members, m ∈ entryLines o.kind n.members) := by
    intro hk
    have hn' := hn.entries
    rw [← hk] at hn'
    exact sub_iff_of_nodup ho.entries hn'
  constructor
  · intro h
    exact ⟨h.kind, h.oneway, h.annotations, h.promise, (hentries h.kind).mp h.entries,
      visible_prefix_iff.mpr ⟨h.lines, h.order⟩, h.union⟩
  · intro h
    obtain ⟨hsub, horder⟩ := visible_prefix_iff.mp h.lines
    exact ⟨h.kind, h.oneway, h.annotations, h.promise, (hentries h.kind).mpr h.entries, hsub, horder, h.union⟩

theorem TypeCompatible.added (h : TypeCompatible o n) (hn : DistinctNames n) :
    ∃ added, seqLines o.kind n.members = seqLines o.kind o.members ++ added ∧
      (seqLines o.kind o.members ++ added).Nodup ∧ ∀ m ∈ added, m ∉ seqLines o.kind o.members := by
  obtain ⟨added, hadded⟩ := h.lines
  have hnodup : (seqLines o.kind o.members ++ added).Nodup := by
    rw [hadded, h.kind]
    exact hn.lines
  exact ⟨added, hadded.symm, hnodup, fun m hm ho => List.disjoint_of_nodup_append hnodup ho hm⟩

/-- A compatible type is kept unless an appended line has the extracted name of an old one. -/
theorem TypeCompatible.kept_iff (h : TypeCompatible o n) (ho : DistinctNames o) (hn : DistinctNames n) :
    TypeKept o n ↔ ∀ m ∈ seqLines o.kind n.members, m ∉ seqLines o.kind o.members →
      lineName o.kind m ∉ (seqLines o.kind o.members).map (lineName o.kind) := by
  obtain ⟨added, hadded, hnodup, hnew⟩ := h.added hn
  have hadd : (∀ m ∈ seqLines o.kind n.members, m ∉ seqLines o.kind o.members →
        lineName o.kind m ∉ (seqLines o.kind o.members).map (lineName o.kind)) ↔
      ∀ m ∈ added, lineName o.kind m ∉ (seqLines o.kind o.members).map (lineName o.kind) := by
    rw [hadded]
    constructor
    · exact fun h m hm => h m (List.mem_append_right _ hm) (hnew m hm)
    · exact fun h m hm hno => h m ((List.mem_append.mp hm).resolve_left hno)
  have hsub := sub_append_iff (f := lineName o.kind) hnodup
  have hunion : o.kind = .union → added = [] := by
    intro hu
    have := h.union hu
    rw [hadded] at this
    exact List.self_eq_append_right.mp this
  rw [hadd, ← hsub, ← hadded]
  constructor
  · exact fun hk => hk.lines
  · intro hs
    refine ⟨h.kind, h.oneway, h.annotations, h.promise, ?_, hs, ?_, ?_⟩
    · have hn' := hn.entries
      rw [← h.kind] at hn'
      exact (sub_iff_of_nodup ho.entries hn').mpr h.entries
    · rw [hadded, List.map_append]
      exact List.prefix_append _ _
    · intro hu m hm
      rw [hadded, hunion hu, List.append_nil] at hm
      exact List.mem_map_of_mem hm

theorem TypeCompatible.grown_iff (h : TypeCompatible o n) (ho : DistinctNames o) (hn : DistinctNames n)
    (hk : TypeKept o n) : TypeGrown o n ↔ ¬TypeEqual o n := by
  constructor
  · rintro hg heq
    rcases hg with ⟨a, ha, hno⟩ | ⟨m, hm, hno⟩ | ⟨m, hm, hno⟩
    · exact hno ((heq.annotations a).mpr ha)
    · exact hno (List.mem_map_of_mem ((heq.entries m).mpr hm))
    · rw [← heq.lines] at hm
      exact hno (List.mem_map_of_mem hm)
  · intro hne
    by_contra hg
    have hg := not_or.mp hg
    have hg' := not_or.mp hg.2
    refine hne ⟨h.kind, h.oneway, fun a => ⟨h.annotations a, fun ha => ?_⟩, fun m => ⟨h.entries m, fun hm => ?_⟩, ?_⟩
    · exact not_not.mp fun hno => hg.1 ⟨a, ha, hno⟩
    · -- an old line has the same name, and the new names are distinct
      have hmem := not_not.mp fun hno => hg'.1 ⟨m, hm, hno⟩
      obtain ⟨m', hm', hname⟩ := List.mem_map.mp hmem
      have hn' := hn.entries
      rw [← h.kind] at hn'
      rw [← List.inj_on_of_nodup_map hn' (h.entries m' hm') hm hname]
      exact hm'
    · obtain ⟨added, hadded, -, hnew⟩ := h.added hn
      have hnil : added = [] := by
        refine List.eq_nil_iff_forall_not_mem.mpr fun m hm => hg'.2 ⟨m, ?_, ?_⟩
        · rw [hadded]
          exact List.mem_append_right _ hm
        · exact (h.kept_iff ho hn).mp hk m (by rw [hadded]; exact List.mem_append_right _ hm) (hnew m hm)
      rw [hadded, hnil, List.append_nil]

end OneType

/-! ### Surfaces -/

/-- Nothing of the contract is broken, but a method or field that is appended has the extracted name of an old
    one of its type. -/
def Spurious (old new : Types) : Prop :=
  Compatible old new ∧ ∃ q o n, old.get? q = some o ∧ new.get? q = some n ∧
    ∃ m ∈ seqLines o.kind n.members, m ∉ seqLines o.kind o.members ∧
      lineName o.kind m ∈ (seqLines o.kind o.members).map (lineName o.kind)

/-- The contract is broken, but only in methods or fields that a later one of their extracted name covers. -/
def Hidden (old new : Types) : Prop :=
  ¬Compatible old new ∧ ∀ q o, old.get? q = some o → ∃ n, new.get? q = some n ∧ TypeMerged o n

section Surfaces
variable {old new : Types}

theorem kept_iff_merged (ho : WellFormed old) (hn : WellFormed new) :
    Kept old new ↔ ∀ q o, old.get? q = some o → ∃ n, new.get? q = some n ∧ TypeMerged o n := by
  refine forall₃_congr fun q o hq => exists_congr fun n => and_congr_right fun hq' => ?_
  exact typeKept_iff_merged (ho.distinct q o hq) (hn.distinct q n hq')

theorem Compatible.kept_iff (h : Compatible old new) (ho : WellFormed old) (hn : WellFormed new) :
    Kept old new ↔ ¬Spurious old new := by
  constructor
  · rintro hk ⟨-, q, o, n, hq, hq', m, hm, hno, hname⟩
    obtain ⟨n', hn', hkept⟩ := hk q o hq
    obtain ⟨n'', hn'', hcomp⟩ := h q o hq
    cases hq'.symm.trans hn'
    cases hq'.symm.trans hn''
    exact (hcomp.kept_iff (ho.distinct q o hq) (hn.distinct q n hq')).mp hkept m hm hno hname
  · intro hns q o hq
    obtain ⟨n, hq', hcomp⟩ := h q o hq
    refine ⟨n, hq', (hcomp.kept_iff (ho.distinct q o hq) (hn.distinct q n hq')).mpr fun m hm hno hname => ?_⟩
    exact hns ⟨h, q, o, n, hq, hq', m, hm, hno, hname⟩

theorem SurfaceEqual.compatible (h : SurfaceEqual old new) : Compatible old new := by
  intro q o hq
  obtain ⟨n, hq', he⟩ := h.2 q o hq
  exact ⟨n, hq', he.kind, he.oneway, fun a ha => (he.annotations a).mp ha, fun a ha => Or.inl ((he.annotations a).mpr ha),
    fun m hm => (he.entries m).mp hm, he.lines ▸ List.prefix_rfl, fun _ => he.lines⟩

theorem Compatible.grown_iff (h : Compatible old new) (ho : WellFormed old) (hn : WellFormed new)
    (hk : Kept old new) : Grown old new ↔ ¬SurfaceEqual old new := by
  have htype : ∀ q o n, old.get? q = some o → new.get? q = some n → (TypeGrown o n ↔ ¬TypeEqual o n) := by
    intro q o n hq hq'
    obtain ⟨n', hn', hkept⟩ := hk q o hq
    obtain ⟨n'', hn'', hcomp⟩ := h q o hq
    cases hq'.symm.trans hn'
    cases hq'.symm.trans hn''
    exact hcomp.grown_iff (ho.distinct q o hq) (hn.distinct q n hq') hkept
  constructor
  · rintro (⟨q, n, hq, hq'⟩ | ⟨q, o, n, hq, hq', hg⟩) heq
    · have := heq.1 q n hq'
      rw [hq] at this
      cases this
    · obtain ⟨n', hn', he⟩ := heq.2 q o hq
      cases hq'.symm.trans hn'
      exact (htype q o n hq hq').mp hg he
  · intro hne
    by_contra hg
    have hg := not_or.mp hg
    refine hne ⟨fun q n hq' => ?_, fun q o hq => ?_⟩
    · cases hq : old.get? q with
      | none => exact absurd ⟨q, n, hq, hq'⟩ hg.1
      | some o => rfl
    · obtain ⟨n, hq', -⟩ := h q o hq
      exact ⟨n, hq', not_not.mp fun hno => hg.2 ⟨q, o, n, hq, hq', (htype q o n hq hq').mpr hno⟩⟩

theorem contractClass_agrees (ho : WellFormed old) (hn : WellFormed new) {c : DiffClass}
    (hb : c = .breaking ↔ ¬Kept old new) (hm : c = .major ↔ Kept old new ∧ Grown old new)
    (hz : c = .none ↔ Kept old new ∧ ¬Grown old new) :
    c = contractClass old new ↔ ¬Spurious old new ∧ ¬Hidden old new := by
  unfold contractClass
  by_cases hcomp : Compatible old new
  · have hhidden : ¬Hidden old new := fun h => h.1 hcomp
    by_cases hk : Kept old new
    · have hg := hcomp.grown_iff ho hn hk
      have hspurious := (hcomp.kept_iff ho hn).mp hk
      refine iff_of_true ?_ ⟨hspurious, hhidden⟩
      by_cases heq : SurfaceEqual old new
      · rw [if_pos heq]
        exact hz.mpr ⟨hk, fun h => hg.mp h heq⟩
      · rw [if_neg heq, if_pos hcomp]
        exact hm.mpr ⟨hk, hg.mpr heq⟩
    · have hspurious := not_not.mp ((hcomp.kept_iff ho hn).not.mp hk)
      refine iff_of_false ?_ fun h => h.1 hspurious
      rw [hb.mpr hk, if_pos hcomp]
      split <;> simp
  · have heq : ¬SurfaceEqual old new := fun h => hcomp h.compatible
    rw [if_neg heq, if_neg hcomp, hb]
    constructor
    · intro hk
      exact ⟨fun h => hcomp h.1, fun h => hk ((kept_iff_merged ho hn).mpr h.2)⟩
    · exact fun h hk => h.2 ⟨hcomp, (kept_iff_merged ho hn).mp hk⟩

end Surfaces

/-! ### Dumps of surfaces -/

theorem declaredName_of_eq (kind : Kind) (u : Text) : declaredName kind ('=' :: u) = [] := by
  unfold declaredName
  split
  · simp [lastWord, words, okOr]
  · have hbare : bare ('=' :: u) = '=' :: bare u := by
      rw [bare] <;> simp
    rw [hbare]
    rfl

/-- `_member_name` ends, for every kind, on the lines that do not start with `=`. -/
theorem exists_memberName_iff {kind : Kind} {m : Text} (clean : CleanLine m) :
    (∃ s, memberName kind m = .ok s) ↔ ∀ u, m ≠ '=' :: u := by
  have ends : (∀ u, m ≠ '=' :: u) → ∃ s, lastWord m = .ok s := by
    intro plain
    cases m with
    | nil => exact absurd rfl clean.ne_nil
    | cons c u =>
      have solid : isSpace c = false := clean.stripped.head clean.ne_nil
      have other : c ≠ '=' := fun same => plain u (same ▸ rfl)
      have taken : (c :: u).takeWhile (· != '=') = c :: u.takeWhile (· != '=') :=
        List.takeWhile_cons_of_pos (by simpa using other)
      obtain ⟨ws, w, last⟩ := (List.eq_nil_or_concat (words ((c :: u).takeWhile (· != '=')))).resolve_left
        (taken ▸ words_ne_nil solid _)
      exact ⟨strip w, by simp [lastWord, last]⟩
  constructor
  · rintro ⟨s, name⟩ u rfl
    have noWord : lastWord ('=' :: u) = .error .index := by simp [lastWord, words]
    have noMethod : methodMatch ('=' :: u) = none := by
      have notWord : ('=' :: u).takeWhile isWord = [] := List.takeWhile_cons_of_neg (by decide)
      rw [methodMatch]
      split
      · rename_i word _
        rw [notWord] at word
        cases word
      · exact if_pos (.inr rfl)
    rw [memberName, noWord, noMethod] at name
    split at name <;> cases name
  · intro plain
    unfold memberName
    split
    · exact ends plain
    · split
      · exact ⟨_, rfl⟩
      · exact ends plain

theorem exists_memberName {kind kind' : Kind} {m : Text} (hm : CleanLine m) (h : declaredName kind m ≠ []) :
    ∃ s, memberName kind' m = .ok s := by
  refine (exists_memberName_iff hm).mpr ?_
  rintro u rfl
  exact h (declaredName_of_eq kind u)

theorem WellFormed.isNamed {s : Types} (h : WellFormed s) {q : Text} {t : TypeDecl} (ht : s.get? q = some t)
    (kind : Kind) : Named kind t.members :=
  fun m hm => exists_memberName (h.clean q t ht m hm) (h.named q t ht m hm)

theorem typeKept_canonical {o n : TypeDecl} : TypeKept o.canonical n.canonical ↔ TypeKept o n := by
  have hann : (∀ a ∈ o.canonical.annotations, a ∈ n.canonical.annotations) ↔ ∀ a ∈ o.annotations, a ∈ n.annotations := by
    simp only [TypeDecl.canonical, mem_sorted]
  have hpromise : (∀ a ∈ n.canonical.annotations, a ∈ o.canonical.annotations ∨ a = vintfStability) ↔
      ∀ a ∈ n.annotations, a ∈ o.annotations ∨ a = vintfStability := by
    simp only [TypeDecl.canonical, mem_sorted]
  exact ⟨fun h => ⟨h.kind, h.oneway, hann.mp h.annotations, hpromise.mp h.promise, h.entries, h.lines, h.order, h.union⟩,
    fun h => ⟨h.kind, h.oneway, hann.mpr h.annotations, hpromise.mpr h.promise, h.entries, h.lines, h.order, h.union⟩⟩

theorem typeGrown_canonical {o n : TypeDecl} : TypeGrown o.canonical n.canonical ↔ TypeGrown o n := by
  simp only [TypeGrown, TypeDecl.canonical, mem_sorted]

section Dumps
variable {old new old' new' : Types}

/-- Read back, a surface is the same up to the order of the annotations. -/
def ReadAs (s s' : Types) : Prop := ∀ k, s'.get? k = (s.get? k).map TypeDecl.canonical

theorem ReadAs.get? {s s' : Types} (h : ReadAs s s') {k : Text} {t' : TypeDecl} :
    s'.get? k = some t' ↔ ∃ t, s.get? k = some t ∧ t.canonical = t' := by
  rw [h k, Option.map_eq_some_iff]

theorem kept_of_readAs (ho : ReadAs old old') (hn : ReadAs new new') : Kept old' new' ↔ Kept old new := by
  unfold Kept
  simp only [ho.get?, hn.get?]
  constructor
  · intro h q o hq
    obtain ⟨_, ⟨n, hn, rfl⟩, hk⟩ := h q _ ⟨o, hq, rfl⟩
    exact ⟨n, hn, typeKept_canonical.mp hk⟩
  · rintro h q _ ⟨o, hq, rfl⟩
    obtain ⟨n, hn, hk⟩ := h q o hq
    exact ⟨_, ⟨n, hn, rfl⟩, typeKept_canonical.mpr hk⟩

theorem grown_of_readAs (ho : ReadAs old old') (hn : ReadAs new new') : Grown old' new' ↔ Grown old new := by
  have hnone : ∀ q, old'.get? q = none ↔ old.get? q = none := fun q => by rw [ho q, Option.map_eq_none_iff]
  unfold Grown
  simp only [ho.get?, hn.get?, hnone]
  constructor
  · rintro (⟨q, _, hq, n, hn, rfl⟩ | ⟨q, _, _, ⟨o, hq, rfl⟩, ⟨n, hn, rfl⟩, hg⟩)
    · exact Or.inl ⟨q, n, hq, hn⟩
    · exact Or.inr ⟨q, o, n, hq, hn, typeGrown_canonical.mp hg⟩
  · rintro (⟨q, n, hq, hn⟩ | ⟨q, o, n, hq, hn, hg⟩)
    · exact Or.inl ⟨q, _, hq, n, hn, rfl⟩
    · exact Or.inr ⟨q, _, _, ⟨o, hq, rfl⟩, ⟨n, hn, rfl⟩, typeGrown_canonical.mpr hg⟩

/-- The diff of two dumped surfaces ends, with the class that `Kept` and `Grown` of the surfaces give. -/
theorem diffSurface_dumpTypes (ho : WellFormed old) (hn : WellFormed new) :
    ∃ r, diffSurface (dumpTypes old) (dumpTypes new) = .ok r ∧ (r.cls = .breaking ↔ ¬Kept old new) ∧
      (r.cls = .major ↔ Kept old new ∧ Grown old new) ∧ (r.cls = .none ↔ Kept old new ∧ ¬Grown old new) := by
  obtain ⟨old', hold, ho'⟩ := parseDump_dumpTypes ho.readable ho.clean
  obtain ⟨new', hnew, hn'⟩ := parseDump_dumpTypes hn.readable hn.clean
  have hcomp : Comparable old' new' := by
    intro q o' n' hq hq'
    obtain ⟨o, hqo, rfl⟩ := (ReadAs.get? ho').mp hq
    obtain ⟨n, hqn, rfl⟩ := (ReadAs.get? hn').mp hq'
    exact ⟨ho.isNamed hqo _, hn.isNamed hqn _⟩
  obtain ⟨r, hr⟩ : ∃ r, diffTypes old' new' = .ok r := ⟨_, diffTypes_eq_ok.mpr ⟨hcomp, rfl⟩⟩
  refine ⟨r, ?_, ?_⟩
  · rw [diffSurface, hold, hnew]
    exact hr
  · have hcls := diffTypes_cls hr
    rw [kept_of_readAs ho' hn', grown_of_readAs ho' hn'] at hcls
    exact hcls

end Dumps

/-- The diff of two dumped surfaces has the class of the contract, unless lines that share an extracted name
    make it report a break that is none, or hide one. -/
theorem diffSurface_contract_iff {old new : Types} (ho : WellFormed old) (hn : WellFormed new) :
    (∃ r, diffSurface (dumpTypes old) (dumpTypes new) = .ok r ∧ r.cls = contractClass old new) ↔
      ¬Spurious old new ∧ ¬Hidden old new := by
  obtain ⟨r, hr, hb, hm, hz⟩ := diffSurface_dumpTypes ho hn
  rw [← contractClass_agrees ho hn hb hm hz]
  constructor
  · rintro ⟨r', hr', hcls⟩
    cases hr.symm.trans hr'
    exact hcls
  · exact fun hcls => ⟨r, hr, hcls⟩

/-- The extracted names of the methods and fields are the declared ones. -/
def NamesRead (s : Types) : Prop :=
  ∀ q t, s.get? q = some t → ∀ m ∈ seqLines t.kind t.members, lineName t.kind m = declaredName t.kind m

theorem NamesRead.distinct {s : Types} (h : NamesRead s) (hs : WellFormed s) {q : Text} {t : TypeDecl}
    (ht : s.get? q = some t) : ((seqLines t.kind t.members).map (lineName t.kind)).Nodup := by
  rw [List.map_congr_left (h q t ht)]
  exact ((seqLines_sublist t.kind t.members).map _).nodup (hs.distinct q t ht)

theorem visible_of_nodup {f : Text → Text} {ms : List Text} (h : (ms.map f).Nodup) : visible f ms = ms := by
  rw [visible, List.map_map]
  conv_rhs => rw [← List.map_id ms]
  refine List.map_congr_left fun m hm => ?_
  rw [Function.comp_apply, lineOf, lineMap_of_nodup h hm]
  rfl

theorem TypeMerged.compatible {o n : TypeDecl} (h : TypeMerged o n)
    (ho : ((seqLines o.kind o.members).map (lineName o.kind)).Nodup)
    (hn : ((seqLines n.kind n.members).map (lineName n.kind)).Nodup) : TypeCompatible o n := by
  rw [← h.kind] at hn
  have hlines := h.lines
  rw [visible_of_nodup ho, visible_of_nodup hn] at hlines
  refine ⟨h.kind, h.oneway, h.annotations, h.promise, h.entries, hlines, fun hu => ?_⟩
  have hsub : (seqLines o.kind n.members).map (lineName o.kind) ⊆ (seqLines o.kind o.members).map (lineName o.kind) := by
    intro k hk
    obtain ⟨m, hm, rfl⟩ := List.mem_map.mp hk
    exact h.union hu m hm
  have hlen := (List.subperm_of_subset hn hsub).length_le
  rw [List.length_map, List.length_map] at hlen
  exact hlines.eq_of_length_le hlen

/-- Where the extracted names are the declared ones, the diff computes the contract. -/
theorem diffSurface_of_namesRead {old new : Types} (ho : WellFormed old) (hn : WellFormed new) (hor : NamesRead old)
    (hnr : NamesRead new) :
    ∃ r, diffSurface (dumpTypes old) (dumpTypes new) = .ok r ∧ r.cls = contractClass old new := by
  obtain ⟨r, hr, hb, hm, hz⟩ := diffSurface_dumpTypes ho hn
  refine ⟨r, hr, (contractClass_agrees ho hn hb hm hz).mpr ⟨?_, ?_⟩⟩
  · rintro ⟨hcomp, q, o, n, hq, hq', m, hm, hno, hname⟩
    obtain ⟨n', hn', hc⟩ := hcomp q o hq
    cases hq'.symm.trans hn'
    obtain ⟨m', hm', he⟩ := List.mem_map.mp hname
    have hinj := hnr.distinct hn hq'
    rw [← hc.kind] at hinj
    exact hno (List.inj_on_of_nodup_map hinj (hc.lines.subset hm') hm he ▸ hm')
  · rintro ⟨hnc, hmerged⟩
    refine hnc fun q o hq => ?_
    obtain ⟨n, hq', hm⟩ := hmerged q o hq
    exact ⟨n, hq', hm.compatible (hor.distinct ho hq) (hnr.distinct hn hq')⟩

/-! Two fields behind annotations with arguments: both have the extracted name `Foo`. -/

instance (s : Types) : Decidable (WellFormed s) :=
  decidable_of_iff ((∀ q t, s.get? q = some t → Readable q t) ∧ (∀ q t, s.get? q = some t → ∀ m ∈ t.members, CleanLine m) ∧
      (∀ q t, s.get? q = some t → ∀ m ∈ t.members, declaredName t.kind m ≠ []) ∧
      ∀ q t, s.get? q = some t → (t.members.map (declaredName t.kind)).Nodup)
    ⟨fun ⟨h₁, h₂, h₃, h₄⟩ => ⟨h₁, h₂, h₃, h₄⟩, fun ⟨h₁, h₂, h₃, h₄⟩ => ⟨h₁, h₂, h₃, h₄⟩⟩

/-- A surface of one parcelable. -/
def parcelableSurface (members : List Text) : Types :=
  Dict.ofPairs [("p.P".toList, ⟨.parcelable, false, [], members⟩)]

/-- The type of a field changes, and the diff reports no change: the field behind it has the same extracted name. -/
theorem diffSurface_hides_change :
    let old := parcelableSurface ["@Foo(a)int x".toList, "@Foo(a)int y".toList]
    let new := parcelableSurface ["@Foo(a)long x".toList, "@Foo(a)int y".toList]
    WellFormed old ∧ WellFormed new ∧ contractClass old new = .breaking ∧
      diffSurface (dumpTypes old) (dumpTypes new) = .ok ⟨.none, []⟩ := by
  decide +kernel

/-- A field without annotation arguments is appended: the class of the contract, and no line is merged. -/
theorem diffSurface_contract_append :
    let old := parcelableSurface ["int x".toList, "@Foo(a)int y".toList]
    let new := parcelableSurface ["int x".toList, "@Foo(a)int y".toList, "@nullable String z".toList]
    contractClass old new = .major ∧ ¬Spurious old new ∧ ¬Hidden old new := by
  intro old new
  have ho : WellFormed old := by decide +kernel
  have hn : WellFormed new := by decide +kernel
  have hr : diffSurface (dumpTypes old) (dumpTypes new) =
      .ok ⟨.major, [⟨.field, .added, "parcelable p.P".toList, "@nullable String z".toList, none, none⟩]⟩ := by
    decide +kernel
  have hclass : contractClass old new = .major := by decide +kernel
  exact ⟨hclass, (diffSurface_contract_iff ho hn).mp ⟨_, hr, hclass.symm⟩⟩

end BinderIdl.Surface
