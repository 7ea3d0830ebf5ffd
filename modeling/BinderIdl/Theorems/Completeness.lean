import BinderIdl.Theorems.Files

/-! Which declarations of a source, in any layout, are recorded with their headers and all their members. -/

namespace BinderIdl.Surface
open Py

/-- The value carries the header of the declaration. -/
structure Declaration.Headed (d : Declaration) (v : TypeDecl) : Prop where
  kind : v.kind = d.kind
  oneway : v.oneway = d.head.oneway.isSome
  annotations : v.annotations = sorted (d.head.annotations.map AnnotationTerm.text)

/-- The keys are those of the declared types, and each value carries the header of its declaration. -/
structure Source.Complete (s : Source) (types : Types) : Prop where
  keys : ∀ q, q ∈ types.keys ↔ q ∈ s.declares.map Prod.fst
  values : ∀ d ∈ s.declares, ∃ v, types.get? d.1 = some v ∧ d.2.Headed v

/-- The header is written so that it can be read: no type parameters, and between the parentheses of an annotation no
    brace, closing parenthesis or blank that is part of a token. -/
def Head.Simple (h : Head) : Prop := h.parameters = none ∧ ∀ a ∈ h.annotations, a.Plain ∧ a.Closed ∧ a.Kept

theorem readable_sublist {l : Level} (outer : List Text) (b : Body l) : List.Sublist (b.readable outer) (b.declares outer) := by
  induction b generalizing outer with
  | nil => exact .slnil
  | forward kind head plain gap rest ih =>
    rw [Body.readable, Body.declares]
    split
    · exact (ih outer).cons_cons _
    · exact (ih outer).cons _
  | member ts some gap rest ih => exact ih outer
  | type kind structured head before inner after rest ihInner ih =>
    rw [Body.readable, Body.declares]
    split
    · rw [List.append_assoc]
      exact (ihInner _).append ((ih outer).cons_cons _)
    · exact ((ih outer).cons _).trans (List.sublist_append_right _ _)
  | enum head before values after rest ih =>
    rw [Body.readable, Body.declares]
    split
    · exact (ih outer).cons_cons _
    · exact (ih outer).cons _

theorem readable_plain {l : Level} {outer : List Text} {b : Body l} : ∀ d ∈ b.readable outer, d.2.head.Plain := by
  induction b generalizing outer with
  | nil => exact fun _ member => absurd member List.not_mem_nil
  | forward kind head plain gap rest ih =>
    intro d member
    rw [Body.readable] at member
    rcases List.mem_append.mp member with here | behind
    · split at here
      · rw [List.mem_singleton.mp here]
        assumption
      · cases here
    · exact ih d behind
  | member ts some gap rest ih => exact ih
  | type kind structured head before inner after rest ihInner ih =>
    intro d member
    rw [Body.readable] at member
    rcases List.mem_append.mp member with here | behind
    · split at here
      · rcases List.mem_append.mp here with inside | last
        · exact ihInner d inside
        · rw [List.mem_singleton.mp last]
          assumption
      · cases here
    · exact ih d behind
  | enum head before values after rest ih =>
    intro d member
    rw [Body.readable] at member
    rcases List.mem_append.mp member with here | behind
    · split at here
      · rw [List.mem_singleton.mp here]
        assumption
      · cases here
    · exact ih d behind

/-- When all headers are plain, all types are readable. -/
theorem readable_eq {l : Level} {outer : List Text} {b : Body l} (plain : ∀ d ∈ b.declares outer, d.2.head.Plain) :
    b.readable outer = b.declares outer := by
  induction b generalizing outer with
  | nil => rfl
  | forward kind head _ gap rest ih =>
    rw [Body.declares, List.forall_mem_cons] at plain
    rw [Body.readable, Body.declares, if_pos plain.1, ih plain.2]
    rfl
  | member ts some gap rest ih => exact ih plain
  | type kind structured head before inner after rest ihInner ih =>
    rw [Body.declares, List.forall_mem_append, List.forall_mem_cons] at plain
    rw [Body.readable, Body.declares, if_pos plain.2.1, ihInner plain.1, ih plain.2.2, List.append_assoc]
    rfl
  | enum head before values after rest ih =>
    rw [Body.declares, List.forall_mem_cons] at plain
    rw [Body.readable, Body.declares, if_pos plain.1, ih plain.2]
    rfl

theorem closed_of_declares {l : Level} {outer : List Text} {b : Body l} (closed : ∀ d ∈ b.declares outer, d.2.head.Closed) :
    b.Closed := by
  induction b generalizing outer with
  | nil => trivial
  | forward kind head _ gap rest ih =>
    rw [Body.declares, List.forall_mem_cons] at closed
    exact ⟨closed.1, ih closed.2⟩
  | member ts some gap rest ih => exact ih closed
  | type kind structured head before inner after rest ihInner ih =>
    rw [Body.declares, List.forall_mem_append, List.forall_mem_cons] at closed
    exact ⟨closed.2.1, ihInner closed.1, ih closed.2.2⟩
  | enum head before values after rest ih =>
    rw [Body.declares, List.forall_mem_cons] at closed
    exact ⟨closed.1, ih closed.2⟩

/-! ### Entries -/

theorem exists_entry {package : Text} {ds : List (List Text × Declaration)} {records : List (Text × TypeDecl)}
    (entries : List.Forall₂ (IsEntry package) ds records) :
    (∀ d ∈ ds, ∃ r ∈ records, IsEntry package d r) ∧ ∀ r ∈ records, ∃ d ∈ ds, IsEntry package d r := by
  induction entries with
  | nil => exact ⟨fun _ member => absurd member List.not_mem_nil, fun _ member => absurd member List.not_mem_nil⟩
  | cons first _ ih =>
    refine ⟨fun d member => ?_, fun r member => ?_⟩
    · rcases List.mem_cons.mp member with rfl | among
      · exact ⟨_, List.mem_cons_self, first⟩
      · obtain ⟨r, member, entry⟩ := ih.1 d among
        exact ⟨r, List.mem_cons_of_mem _ member, entry⟩
    · rcases List.mem_cons.mp member with rfl | among
      · exact ⟨_, List.mem_cons_self, first⟩
      · obtain ⟨d, member, entry⟩ := ih.2 r among
        exact ⟨d, List.mem_cons_of_mem _ member, entry⟩

theorem keys_entries {package : Text} {ds : List (List Text × Declaration)} {records : List (Text × TypeDecl)}
    (entries : List.Forall₂ (IsEntry package) ds records) :
    records.map Prod.fst = ds.map fun d => dotted (package :: d.1) := by
  induction entries with
  | nil => rfl
  | cons first _ ih => rw [List.map_cons, List.map_cons, first.1, ih]

/-- The declared types whose headers, and those of the types around them, are plain. -/
def Source.readable (s : Source) : List (Text × Declaration) :=
  (s.body.readable []).map fun d => (dotted (s.packageName :: d.1), d.2)

theorem Source.readable_sublist (s : Source) : List.Sublist s.readable s.declares :=
  (Surface.readable_sublist [] s.body).map _

theorem parseAidl_eq_ok {text : Text} {types : Types} :
    parseAidl text Dict.empty = .ok types ↔ ∃ records, declared text = .ok records ∧ types = Dict.ofPairs records := by
  rw [parseAidl, map_eq_ok]
  exact exists_congr fun records => and_congr_right fun _ => eq_comm

/-- Under a tight package exactly the readable types are recorded. -/
theorem Source.parse {s : Source} (legible : s.body.Legible) (closed : s.body.Closed) (tight : s.Tight) :
    ∃ types, parseAidl s.text Dict.empty = .ok types ∧ (∀ q, q ∈ types.keys ↔ q ∈ s.readable.map Prod.fst) ∧
      ∀ d ∈ s.readable, ∃ v, types.get? d.1 = some v ∧ d.2.RecordedAs v := by
  obtain ⟨package, records, named, -, read, entries⟩ := s.declared_text legible closed
  obtain rfl := named tight
  have keys : records.map Prod.fst = s.readable.map Prod.fst := by
    rw [keys_entries entries, Source.readable, List.map_map]
    rfl
  have once : (records.map Prod.fst).Nodup := by
    rw [keys]
    exact s.distinct.sublist (s.readable_sublist.map _)
  refine ⟨Dict.ofPairs records, parseAidl_eq_ok.mpr ⟨records, read, rfl⟩, fun q => ?_, fun d member => ?_⟩
  · rw [Dict.mem_keys_ofPairs, keys]
  · obtain ⟨e, among, rfl⟩ := List.mem_map.mp member
    obtain ⟨r, inRecords, entry⟩ := (exists_entry entries).1 e among
    refine ⟨r.2, (Dict.get?_ofPairs_iff once).mpr ?_, entry.2⟩
    rw [← entry.1]
    exact inRecords

/-! ### Members -/

-- A header that is not closed can take the name of a type before it: the string in the annotation of `Q` is read
-- as a header of `P`.
example : (parseAidl "parcelable P\x7bint a;\x7d @A(\") parcelable P \x7b\") parcelable Q\x7bint b;\x7d".toList
    Dict.empty).map (fun types => types.entries.map fun (q, v) => (String.ofList q, v.members.map String.ofList)) =
      .ok [("P", ["int b"])] := by
  decide +kernel

def Word.int : Word := ⟨"int".toList, by decide, by decide +kernel⟩

def Word.field : Word := ⟨"a".toList, by decide, by decide +kernel⟩

def Word.type : Word := ⟨"P".toList, by decide, by decide +kernel⟩

def Word.one : Word := ⟨"1".toList, by decide, by decide +kernel⟩

/-- A single blank. -/
def Gap.space : Gap := [.blank ' ' rfl]

/-- A parcelable with one member. -/
def plainBody : Body .type := .member [⟨[], .word .int⟩, ⟨.space, .word .field⟩] (List.cons_ne_nil _ _) [] .nil

def plainSource : Source where
  package := none
  imports := []
  body := .type .parcelable (by decide) ⟨[], none, [], .space, .type, none⟩ [] plainBody [] .nil
  ending := []
  last := none
  apart := by decide +kernel
  names := by decide
  free := by decide +kernel
  distinct := by decide +kernel

theorem plainSource_text : plainSource.text = "parcelable P\x7bint a;\x7d".toList := by decide +kernel

theorem legible_plainSource : plainSource.body.Legible ∧ plainSource.body.Closed ∧ plainSource.Tight := by
  have annotations : ∀ a ∈ ([] : List AnnotationTerm), a.Balanced := fun _ member => absurd member List.not_mem_nil
  exact ⟨⟨⟨annotations, by decide⟩, ⟨.last (.run (by decide +kernel)), trivial⟩, trivial⟩,
    ⟨fun _ member => absurd member List.not_mem_nil, trivial, trivial⟩, fun _ member => by cases member⟩

theorem length_dotted {package : Text} (some : package ≠ []) (names : List Text) :
    (dotted ([] :: names)).length < (dotted (package :: names)).length := by
  have named : package.isEmpty = false := by simpa using some
  have positive := List.length_pos_of_ne_nil some
  obtain ⟨ns, shorter, longer⟩ : ∃ ns, dotted ([] :: names) = ['.'].intercalate ns ∧
      dotted (package :: names) = ['.'].intercalate (package :: ns) :=
    ⟨names.filter fun p => !p.isEmpty, rfl, by rw [dotted, List.filter_cons, named]; rfl⟩
  rw [shorter, longer]
  by_cases none : ns = []
  · rw [none, List.intercalate_singleton]
    exact positive
  · rw [List.intercalate_cons_of_ne_nil none, List.length_append, List.length_append]
    omega

theorem packageName_ne_nil {f : File} (spaced : ¬f.Tight) : f.packageName ≠ [] := by
  rw [File.Tight] at spaced
  rw [File.packageName]
  cases found : f.package with
  | none =>
    rw [found] at spaced
    exact absurd (fun _ member => by cases member) spaced
  | some c => exact List.append_ne_nil_of_left_ne_nil c.first.nonempty _

theorem Declaration.RecordedAs.headed {d : Declaration} {v : TypeDecl} (recorded : d.RecordedAs v)
    (kept : ∀ a ∈ d.head.annotations, a.Kept) : d.Headed v := by
  refine ⟨recorded.kind, recorded.oneway, ?_⟩
  rw [recorded.annotations, List.map_congr_left fun a member => (kept a member).recorded]

/-- A value that carries the header of its declaration has annotations that can be read. -/
theorem Declaration.Headed.kept_closed {text : Text} {records : List (Text × TypeDecl)} (read : declared text = .ok records)
    {q : Text} {v : TypeDecl} (among : (q, v) ∈ records) {d : Declaration} (headed : d.Headed v) :
    ∀ a ∈ d.head.annotations, a.Kept ∧ a.Closed := by
  intro a member
  refine AnnotationTerm.kept_closed ((declared_headerKept read _ among).readable.annotations a.text ?_)
  show a.text ∈ v.annotations
  rw [headed.annotations, mem_sorted]
  exact List.mem_map_of_mem member

/-- Without the package no declared type has the longest of the recorded names. -/
theorem tight_of_keys {s : Source} (some : s.declares ≠ [])
    (keys : ∀ d ∈ s.body.declares [], ∃ e ∈ s.body.declares [], dotted (s.packageName :: d.1) = dotted ([] :: e.1)) :
    s.Tight := by
  by_contra spaced
  have longer : ∀ n, ∃ d ∈ s.body.declares [], n ≤ (dotted ([] :: d.1)).length := by
    intro n
    induction n with
    | zero =>
      obtain ⟨d, among⟩ := List.exists_mem_of_ne_nil _ some
      obtain ⟨e, member, -⟩ := List.mem_map.mp among
      exact ⟨e, member, Nat.zero_le _⟩
    | succ n ih =>
      obtain ⟨d, member, le⟩ := ih
      obtain ⟨e, member', same⟩ := keys d member
      refine ⟨e, member', ?_⟩
      rw [← same]
      exact le.trans_lt (length_dotted (packageName_ne_nil spaced) d.1)
  obtain ⟨d, member, le⟩ := longer (((s.body.declares []).map fun d => (dotted ([] :: d.1)).length).sum + 1)
  have bound := List.le_sum_of_mem (List.mem_map_of_mem (f := fun d : List Text × Declaration => (dotted ([] :: d.1)).length) member)
  omega

/-- Every declared type is recorded under its name and with its header exactly when the package is named without gaps
    and all headers are simple. -/
theorem parseAidl_declares {s : Source} (legible : s.body.Legible) :
    (∃ types, parseAidl s.text Dict.empty = .ok types ∧ s.Complete types) ↔
      (s.declares ≠ [] → s.Tight) ∧ ∀ d ∈ s.declares, d.2.head.Simple := by
  constructor
  · rintro ⟨types, parsed, complete⟩
    obtain ⟨records, read, rfl⟩ := parseAidl_eq_ok.mp parsed
    have texts : ∀ d ∈ s.declares, ∀ a ∈ d.2.head.annotations, a.Kept ∧ a.Closed := by
      intro d member
      obtain ⟨v, found, headed⟩ := complete.values d member
      exact headed.kept_closed read (Dict.mem_of_get?_ofPairs found)
    have closed : s.body.Closed := @closed_of_declares _ [] _ fun d member a among =>
      (texts _ (List.mem_map_of_mem member) a among).2
    obtain ⟨package, records', tight, spaced, read', entries⟩ := s.declared_text legible closed
    obtain rfl := Except.ok.inj (read.symm.trans read')
    have keys : ∀ d ∈ s.body.declares [], ∃ e ∈ s.body.readable [],
        dotted (s.packageName :: d.1) = dotted (package :: e.1) := by
      intro d member
      have key := (complete.keys _).mpr (List.mem_map_of_mem (List.mem_map_of_mem member))
      rw [Dict.mem_keys_ofPairs, keys_entries entries] at key
      obtain ⟨e, among, same⟩ := List.mem_map.mp key
      exact ⟨e, among, same.symm⟩
    have isTight : s.declares ≠ [] → s.Tight := by
      intro some
      by_contra spaced'
      obtain rfl := spaced spaced'
      refine spaced' (tight_of_keys some fun d member => ?_)
      obtain ⟨e, among, same⟩ := keys d member
      exact ⟨e, (readable_sublist [] s.body).subset among, same⟩
    refine ⟨isTight, fun d member => ?_⟩
    obtain rfl := tight (isTight (List.ne_nil_of_mem member))
    obtain ⟨d, inBody, rfl⟩ := List.mem_map.mp member
    obtain ⟨e, among, same⟩ := keys d inBody
    have both := List.inj_on_of_nodup_map s.distinct (List.mem_map_of_mem ((readable_sublist [] s.body).subset among))
      member same.symm
    have plain : d.2.head.Plain := (Prod.mk.inj both).2 ▸ readable_plain e among
    exact ⟨plain.1, fun a inHead => ⟨plain.2 a inHead, (texts _ member a inHead).2, (texts _ member a inHead).1⟩⟩
  · rintro ⟨tight, simple⟩
    have simple' : ∀ d ∈ s.body.declares [], d.2.head.Simple := fun d member => simple _ (List.mem_map_of_mem member)
    have closed : s.body.Closed := @closed_of_declares _ [] _ fun d member a among => ((simple' d member).2 a among).2.1
    have readable : s.body.readable [] = s.body.declares [] := readable_eq fun d member =>
      ⟨(simple' d member).1, fun a among => ((simple' d member).2 a among).1⟩
    by_cases none : s.declares = []
    · obtain ⟨package, records, -, -, read, entries⟩ := s.declared_text legible closed
      rw [readable, List.map_eq_nil_iff.mp none] at entries
      cases entries
      refine ⟨Dict.empty, parseAidl_eq_ok.mpr ⟨[], read, rfl⟩, fun q => ?_, fun d member => ?_⟩
      · rw [none]
        rfl
      · rw [none] at member
        cases member
    · have same : s.readable = s.declares := by rw [Source.readable, readable, File.declares]
      obtain ⟨types, parsed, keys, values⟩ := s.parse legible closed (tight none)
      rw [same] at keys values
      refine ⟨types, parsed, keys, fun d member => ?_⟩
      obtain ⟨v, found, recorded⟩ := values d member
      exact ⟨v, found, recorded.headed fun a among => ((simple d member).2 a among).2.2⟩

theorem parseAidl_declares_plain : ∃ types, parseAidl "parcelable P\x7bint a;\x7d".toList Dict.empty = .ok types ∧
    plainSource.Complete types := by
  obtain ⟨legible, -, tight⟩ := legible_plainSource
  have recorded := (parseAidl_declares legible).mpr ⟨fun _ => tight, fun d member => ?_⟩
  · rwa [plainSource_text] at recorded
  · rw [List.mem_singleton.mp member]
    exact ⟨rfl, fun _ member => absurd member List.not_mem_nil⟩

/-- A parcelable with type parameters. -/
def genericSource : Source where
  package := none
  imports := []
  body := .type .parcelable (by decide) ⟨[], none, [], .space, .type, some ([], [⟨[], .word .field⟩], [])⟩ [] .nil [] .nil
  ending := []
  last := none
  apart := by decide +kernel
  names := by decide
  free := by decide +kernel
  distinct := by decide +kernel

/-- It is not recorded at all. -/
theorem parseAidl_declares_generic : ¬∃ types, parseAidl "parcelable P<a>\x7b\x7d".toList Dict.empty = .ok types ∧
    genericSource.Complete types := by
  rintro ⟨types, parsed, complete⟩
  have annotations : ∀ a ∈ ([] : List AnnotationTerm), a.Balanced := fun _ member => absurd member List.not_mem_nil
  obtain ⟨types', parsed', keys, -⟩ := genericSource.parse ⟨⟨annotations, by decide +kernel⟩, trivial, trivial⟩
    ⟨fun _ member => absurd member List.not_mem_nil, trivial, trivial⟩ fun _ member => by cases member
  have text : genericSource.text = "parcelable P<a>\x7b\x7d".toList := by decide +kernel
  rw [text] at parsed'
  obtain rfl := Except.ok.inj (parsed.symm.trans parsed')
  have key := (keys "P".toList).mp ((complete.keys "P".toList).mpr (List.mem_singleton.mpr rfl))
  cases key

end BinderIdl.Surface
