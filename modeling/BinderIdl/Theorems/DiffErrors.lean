import BinderIdl.Theorems.Contract

/-! How a diff of two texts can fail: with a header line that is not one, which is caught, or with a member line without a
    name in a type of both texts, which is not. -/

namespace BinderIdl.Surface
open Py

/-! ### The lines of a dump -/

/-- A line that `parse_dump` reads as the header of a type. -/
def IsHead (x : Text) : Prop := strip x ≠ [] ∧ ¬"    ".toList <+: x

/-- A line that is read as a member. -/
def IsBody (x : Text) : Prop := strip x ≠ [] ∧ "    ".toList <+: x

/-- The header of the type `q`. -/
def Heads (x q : Text) : Prop := IsHead x ∧ ∃ t, headerLine x = .ok (q, t)

/-- The last header is one of `q`. -/
def Current (ls : List Text) (q : Text) : Prop :=
  ∃ before h body, ls = before ++ h :: body ∧ Heads h q ∧ ∀ x ∈ body, ¬IsHead x

/-- The member `m` stands under the last header of `q`. -/
def Under (ls : List Text) (q m : Text) : Prop :=
  ∃ before h body l after, ls = before ++ h :: (body ++ l :: after) ∧ Heads h q ∧ (∀ x ∈ body, ¬IsHead x) ∧
    IsBody l ∧ strip l = m ∧ ∀ x ∈ after, ¬Heads x q

/-- Both texts are dumps, and some type of both has, in one of them, a member line that starts with `=`. -/
def Nameless (oldText newText : Text) : Prop :=
  (∀ x ∈ splitLines oldText, IsHead x → ∃ q, Heads x q) ∧ (∀ x ∈ splitLines newText, IsHead x → ∃ q, Heads x q) ∧
    ∃ q, (∃ x ∈ splitLines oldText, Heads x q) ∧ (∃ x ∈ splitLines newText, Heads x q) ∧
      ∃ m, Under (splitLines oldText) q ('=' :: m) ∨ Under (splitLines newText) q ('=' :: m)

section Lines
variable {ls : List Text} {x q m : Text}

theorem Heads.unique {q' : Text} (h : Heads x q) (h' : Heads x q') : q = q' := by
  obtain ⟨-, t, read⟩ := h
  obtain ⟨-, t', read'⟩ := h'
  exact (Prod.mk.inj (Except.ok.inj (read.symm.trans read'))).1

theorem IsBody.not_head (body : IsBody x) : ¬IsHead x := fun head => head.2 body.2

theorem current_concat : Current (ls ++ [x]) q ↔ Heads x q ∨ ¬IsHead x ∧ Current ls q := by
  constructor
  · rintro ⟨before, h, body, same, heads, inside⟩
    rcases List.eq_nil_or_concat' body with rfl | ⟨body, y, rfl⟩
    · obtain ⟨-, last⟩ := List.append_inj' same rfl
      cases last
      exact .inl heads
    · rw [← List.cons_append, ← List.append_assoc] at same
      obtain ⟨rfl, last⟩ := List.append_inj' same rfl
      cases last
      exact .inr ⟨inside x (by simp), before, h, body, rfl, heads, fun y member => inside y (by simp [member])⟩
  · rintro (heads | ⟨notHead, before, h, body, rfl, heads, inside⟩)
    · exact ⟨ls, x, [], rfl, heads, fun y member => absurd member List.not_mem_nil⟩
    · refine ⟨before, h, body ++ [x], by simp, heads, fun y member => ?_⟩
      rcases List.mem_append.mp member with member | member
      · exact inside y member
      · exact List.mem_singleton.mp member ▸ notHead

theorem under_concat :
    Under (ls ++ [x]) q m ↔ Under ls q m ∧ ¬Heads x q ∨ IsBody x ∧ strip x = m ∧ Current ls q := by
  constructor
  · rintro ⟨before, h, body, l, after, same, heads, inside, member, name, later⟩
    rcases List.eq_nil_or_concat' after with rfl | ⟨after, y, rfl⟩
    · rw [show before ++ h :: (body ++ [l]) = (before ++ h :: body) ++ [l] by simp] at same
      obtain ⟨rfl, last⟩ := List.append_inj' same rfl
      cases last
      exact .inr ⟨member, name, before, h, body, rfl, heads, inside⟩
    · rw [show before ++ h :: (body ++ l :: (after ++ [y])) = (before ++ h :: (body ++ l :: after)) ++ [y] by simp] at same
      obtain ⟨rfl, last⟩ := List.append_inj' same rfl
      cases last
      refine .inl ⟨⟨before, h, body, l, after, rfl, heads, inside, member, name, fun z among => later z (by simp [among])⟩, ?_⟩
      exact later x (by simp)
  · rintro (⟨⟨before, h, body, l, after, rfl, heads, inside, member, name, later⟩, notHeads⟩ |
      ⟨member, name, before, h, body, rfl, heads, inside⟩)
    · refine ⟨before, h, body, l, after ++ [x], by simp, heads, inside, member, name, fun z among => ?_⟩
      rcases List.mem_append.mp among with among | among
      · exact later z among
      · exact List.mem_singleton.mp among ▸ notHeads
    · exact ⟨before, h, body, x, [], by simp, heads, inside, member, name, fun z among => absurd among List.not_mem_nil⟩

end Lines

/-! ### What `parse_dump` reads -/

/-- The state of `parse_dump` behind the lines `ls`. -/
structure Tracks (ls : List Text) (s : DumpState) : Prop where
  keys : ∀ q, q ∈ s.types.keys ↔ ∃ x ∈ ls, Heads x q
  cur : ∀ q, s.cur = some q ↔ Current ls q
  members : ∀ q t, s.types.get? q = some t → ∀ m, m ∈ t.members ↔ Under ls q m

theorem tracks_nil : Tracks [] ⟨Dict.empty, none⟩ where
  keys := fun q => by simp
  cur := fun q => by
    constructor
    · intro none
      cases none
    · rintro ⟨before, h, body, same, -⟩
      simp at same
  members := fun q t found => by cases found

theorem Current.mem {ls : List Text} {q : Text} (current : Current ls q) : ∃ x ∈ ls, Heads x q := by
  obtain ⟨before, h, body, rfl, heads, -⟩ := current
  exact ⟨h, by simp, heads⟩

theorem mem_heads_concat {ls : List Text} {x q : Text} :
    (∃ y ∈ ls ++ [x], Heads y q) ↔ (∃ y ∈ ls, Heads y q) ∨ Heads x q := by
  simp only [List.mem_append, List.mem_singleton, or_and_right, exists_or, exists_eq_left]

section Step
variable {ls : List Text} {s : DumpState} {x : Text}

theorem Tracks.blank (tracks : Tracks ls s) (blank : strip x = []) : Tracks (ls ++ [x]) s := by
  have notHead : ¬IsHead x := fun head => head.1 blank
  have notHeads : ∀ q, ¬Heads x q := fun q heads => notHead heads.1
  have notBody : ¬IsBody x := fun body => body.1 blank
  refine ⟨fun q => ?_, fun q => ?_, fun q t found m => ?_⟩
  · rw [tracks.keys, mem_heads_concat, or_iff_left (notHeads q)]
  · rw [tracks.cur, current_concat, or_iff_right (notHeads q), and_iff_right notHead]
  · rw [tracks.members q t found, under_concat, and_iff_left (notHeads q), or_iff_left fun body => notBody body.1]

theorem Tracks.body (tracks : Tracks ls s) (body : IsBody x) : Tracks (ls ++ [x]) (s.addMember (strip x)) := by
  have notHead := body.not_head
  have notHeads : ∀ q, ¬Heads x q := fun q heads => notHead heads.1
  have keys : ∀ q, q ∈ s.types.keys ↔ ∃ y ∈ ls ++ [x], Heads y q := fun q => by
    rw [tracks.keys, mem_heads_concat, or_iff_left (notHeads q)]
  have cur : ∀ q, s.cur = some q ↔ Current (ls ++ [x]) q := fun q => by
    rw [tracks.cur, current_concat, or_iff_right (notHeads q), and_iff_right notHead]
  have under : ∀ q m, Under (ls ++ [x]) q m ↔ Under ls q m ∨ strip x = m ∧ s.cur = some q := fun q m => by
    rw [under_concat, and_iff_left (notHeads q), and_iff_right body, tracks.cur]
  cases now : s.cur with
  | none =>
    rw [DumpState.addMember, now]
    refine ⟨keys, cur, fun q t found m => ?_⟩
    rw [tracks.members q t found, under, now]
    simp
  | some c =>
    -- the header of the current type has been read
    obtain ⟨t, found⟩ := Dict.exists_get? ((tracks.keys c).mpr ((tracks.cur c).mp now).mem)
    rw [DumpState.addMember, now]
    simp only [found]
    refine ⟨fun q => ?_, fun q => (now ▸ cur q : _), fun q u read m => ?_⟩
    · rw [Dict.keys_set_of_mem (Dict.mem_keys_of_get? found), keys]
    · rw [under, now]
      rw [Dict.get?_set] at read
      by_cases same : q = c
      · rw [if_pos same] at read
        cases read
        rw [same, TypeDecl.addMember, List.mem_append, List.mem_singleton, tracks.members c t found]
        simp [eq_comm]
      · rw [if_neg same] at read
        rw [tracks.members q u read]
        simp [Ne.symm same]

theorem Tracks.head (tracks : Tracks ls s) (head : IsHead x) {q : Text} {t : TypeDecl} (read : headerLine x = .ok (q, t)) :
    Tracks (ls ++ [x]) ⟨s.types.set q t, some q⟩ := by
  have heads : ∀ q', Heads x q' ↔ q' = q := fun q' =>
    ⟨fun other => other.unique ⟨head, t, read⟩, fun same => same ▸ ⟨head, t, read⟩⟩
  have notBody : ¬IsBody x := fun body => body.not_head head
  refine ⟨fun q' => ?_, fun q' => ?_, fun q' u found m => ?_⟩
  · rw [Dict.mem_keys_set, tracks.keys, mem_heads_concat, heads, or_comm]
  · rw [current_concat, heads, or_iff_left fun other => other.1 head]
    simp [eq_comm]
  · rw [under_concat, heads, or_iff_left fun body => notBody body.1]
    rw [Dict.get?_set] at found
    by_cases same : q' = q
    · rw [if_pos same] at found
      cases found
      simp [headerLine_members read, same]
    · rw [if_neg same] at found
      rw [tracks.members q' u found, and_iff_left same]

theorem Tracks.step {s' : DumpState} (tracks : Tracks ls s) (step : dumpLine s x = .ok s') : Tracks (ls ++ [x]) s' := by
  rw [dumpLine] at step
  by_cases blank : strip x = []
  · rw [if_pos blank] at step
    cases step
    exact tracks.blank blank
  · rw [if_neg blank] at step
    by_cases indented : "    ".toList <+: x
    · rw [if_pos indented] at step
      cases step
      exact tracks.body ⟨blank, indented⟩
    · rw [if_neg indented] at step
      obtain ⟨⟨q, t⟩, read, rfl⟩ := map_eq_ok.mp step
      exact tracks.head ⟨blank, indented⟩ read

end Step

theorem tracks_foldlM {ls : List Text} {s : DumpState} (run : ls.foldlM dumpLine ⟨Dict.empty, none⟩ = .ok s) : Tracks ls s := by
  induction ls using List.reverseRecOn generalizing s with
  | nil =>
    cases run
    exact tracks_nil
  | append_singleton ls x ih =>
    obtain ⟨middle, before, last⟩ := foldlM_concat_eq_ok.mp run
    exact (ih before).step last

/-- The lines are read iff every header line is the header of a type. -/
theorem exists_foldlM {ls : List Text} (s : DumpState) :
    (∃ s', ls.foldlM dumpLine s = .ok s') ↔ ∀ x ∈ ls, IsHead x → ∃ q, Heads x q := by
  have round : ∀ s x, (∃ s', dumpLine s x = .ok s') ↔ (IsHead x → ∃ q, Heads x q) := by
    intro s x
    rw [dumpLine]
    by_cases blank : strip x = []
    · rw [if_pos blank]
      exact iff_of_true ⟨s, rfl⟩ fun head => absurd blank head.1
    · rw [if_neg blank]
      by_cases indented : "    ".toList <+: x
      · rw [if_pos indented]
        exact iff_of_true ⟨_, rfl⟩ fun head => absurd indented head.2
      · have head : IsHead x := ⟨blank, indented⟩
        rw [if_neg indented]
        constructor
        · rintro ⟨s', read⟩ -
          obtain ⟨⟨q, t⟩, read, -⟩ := map_eq_ok.mp read
          exact ⟨q, head, t, read⟩
        · intro all
          obtain ⟨q, -, t, read⟩ := all head
          exact ⟨_, map_eq_ok.mpr ⟨_, read, rfl⟩⟩
  induction ls generalizing s with
  | nil => exact iff_of_true ⟨s, rfl⟩ fun x member => absurd member List.not_mem_nil
  | cons x ls ih =>
    rw [List.forall_mem_cons, ← round s x]
    simp only [List.foldlM_cons, bind_eq_ok]
    constructor
    · rintro ⟨s', t, first, rest⟩
      exact ⟨⟨t, first⟩, (ih t).mp ⟨s', rest⟩⟩
    · rintro ⟨⟨t, first⟩, rest⟩
      obtain ⟨s', rest⟩ := (ih t).mpr rest
      exact ⟨s', t, first, rest⟩

theorem exists_parseDump {text : Text} :
    (∃ types, parseDump text = .ok types) ↔ ∀ x ∈ splitLines text, IsHead x → ∃ q, Heads x q := by
  rw [← exists_foldlM ⟨Dict.empty, none⟩]
  simp only [parseDump, map_eq_ok]
  constructor
  · rintro ⟨_, s, run, -⟩
    exact ⟨s, run⟩
  · rintro ⟨s, run⟩
    exact ⟨_, s, run, rfl⟩

theorem parseDump_tracks {text : Text} {types : Types} (read : parseDump text = .ok types) :
    (∀ q, q ∈ types.keys ↔ ∃ x ∈ splitLines text, Heads x q) ∧
      ∀ q t, types.get? q = some t → ∀ m, m ∈ t.members ↔ Under (splitLines text) q m := by
  obtain ⟨s, run, rfl⟩ := map_eq_ok.mp read
  exact ⟨(tracks_foldlM run).keys, (tracks_foldlM run).members⟩

/-! ### Names -/

theorem named_iff_plain {kind : Kind} {ms : List Text} (clean : ∀ m ∈ ms, CleanLine m) :
    Named kind ms ↔ ∀ u, '=' :: u ∉ ms := by
  constructor
  · exact fun named u member => (exists_memberName_iff (clean _ member)).mp (named _ member) u rfl
  · intro plain m member
    refine (exists_memberName_iff (clean m member)).mpr ?_
    rintro u rfl
    exact plain u member

theorem comparable_iff {oldText newText : Text} {old new : Types} (readOld : parseDump oldText = .ok old)
    (readNew : parseDump newText = .ok new) : Comparable old new ↔ ¬Nameless oldText newText := by
  obtain ⟨oldKeys, oldMembers⟩ := parseDump_tracks readOld
  obtain ⟨newKeys, newMembers⟩ := parseDump_tracks readNew
  constructor
  · rintro comparable ⟨-, -, q, inOld, inNew, m, under⟩
    obtain ⟨o, ho⟩ := Dict.exists_get? ((oldKeys q).mpr inOld)
    obtain ⟨n, hn⟩ := Dict.exists_get? ((newKeys q).mpr inNew)
    obtain ⟨oldNamed, newNamed⟩ := comparable q o n ho hn
    rcases under with under | under
    · exact (named_iff_plain (parseDump_linesClean readOld q o ho)).mp oldNamed m ((oldMembers q o ho _).mpr under)
    · exact (named_iff_plain (parseDump_linesClean readNew q n hn)).mp newNamed m ((newMembers q n hn _).mpr under)
  · intro named q o n ho hn
    have both : ∀ u, ¬(Under (splitLines oldText) q ('=' :: u) ∨ Under (splitLines newText) q ('=' :: u)) := fun u under =>
      named ⟨exists_parseDump.mp ⟨old, readOld⟩, exists_parseDump.mp ⟨new, readNew⟩, q,
        (oldKeys q).mp (Dict.mem_keys_of_get? ho), (newKeys q).mp (Dict.mem_keys_of_get? hn), u, under⟩
    refine ⟨(named_iff_plain (parseDump_linesClean readOld q o ho)).mpr fun u member => ?_,
      (named_iff_plain (parseDump_linesClean readNew q n hn)).mpr fun u member => ?_⟩
    · exact both u (.inl ((oldMembers q o ho _).mp member))
    · exact both u (.inr ((newMembers q n hn _).mp member))

/-! ### Which exceptions -/

theorem headerLine_raises (x : Text) : RaisesOnly (·.isValueError = true) (headerLine x) := by
  unfold headerLine
  simp only
  split
  · split
    · exact raisesOnly_ok _
    · exact raisesOnly_error rfl
  · exact raisesOnly_error rfl

theorem parseDump_raises (text : Text) : RaisesOnly (·.isValueError = true) (parseDump text) := by
  have line : ∀ s x, RaisesOnly (·.isValueError = true) (dumpLine s x) := by
    intro s x
    rw [dumpLine]
    split
    · exact raisesOnly_ok _
    · split
      · exact raisesOnly_ok _
      · exact (headerLine_raises x).map _
  exact (RaisesOnly.foldlM line _ _).map _

theorem memberName_raises (kind : Kind) (m : Text) : RaisesOnly (· = .index) (memberName kind m) := by
  have word : RaisesOnly (· = .index) (lastWord m) := by
    rw [lastWord]
    split
    · exact raisesOnly_ok _
    · exact raisesOnly_error rfl
  rw [memberName]
  split
  · exact word
  · split
    · exact raisesOnly_ok _
    · exact word

theorem diffMembers_raises (place : Text) (o n : TypeDecl) : RaisesOnly (· = .index) (diffMembers place o n) := by
  have entries : ∀ old new subject, RaisesOnly (· = .index) (diffEnum place old new subject) := by
    intro old new subject
    have map : ∀ ms, RaisesOnly (· = .index) (asMap ms) := fun ms =>
      (RaisesOnly.mapM (memberName_raises .enum) ms).bind fun names => raisesOnly_ok _
    exact (map old).bind fun om => (map new).bind fun nm => raisesOnly_ok _
  have sequence : ∀ kind old new subject, RaisesOnly (· = .index) (diffSequence kind place old new subject) := by
    intro kind old new subject
    have names := RaisesOnly.mapM (memberName_raises kind)
    exact (names old).bind fun oldNames => (names new).bind fun newNames => raisesOnly_ok _
  rw [diffMembers]
  split
  · exact entries _ _ _
  · exact (entries _ _ _).bind fun consts => (sequence _ _ _ _).bind fun rest => raisesOnly_ok _

theorem diffTypes_raises (old new : Types) : RaisesOnly (· = .index) (diffTypes old new) := by
  have type : ∀ q, RaisesOnly (· = .index) (diffType old new q) := by
    intro q
    unfold diffType
    simp only
    split
    · exact raisesOnly_ok _
    · exact raisesOnly_ok _
    · exact raisesOnly_ok _
    · exact (diffMembers_raises _ _ _).bind fun members => raisesOnly_ok _
  exact (RaisesOnly.mapM type _).bind fun changes => raisesOnly_ok _

/-- The diff ends with a report, with a `ValueError` or with an `IndexError`. -/
theorem diffSurface_cases (oldText newText : Text) :
    (∃ r, diffSurface oldText newText = .ok r ∧ ¬Nameless oldText newText) ∨
      (∃ e, diffSurface oldText newText = .error e ∧ e.isValueError = true ∧ ¬Nameless oldText newText) ∨
      diffSurface oldText newText = .error .index ∧ Nameless oldText newText := by
  have unread : ∀ {text e}, parseDump text = .error e → ¬∀ x ∈ splitLines text, IsHead x → ∃ q, Heads x q := by
    intro text e raised all
    obtain ⟨types, read⟩ := exists_parseDump.mpr all
    cases raised.symm.trans read
  cases readOld : parseDump oldText with
  | error e =>
    refine .inr (.inl ⟨e, ?_, parseDump_raises oldText e readOld, fun nameless => unread readOld nameless.1⟩)
    rw [diffSurface, readOld]
    rfl
  | ok old =>
    cases readNew : parseDump newText with
    | error e =>
      refine .inr (.inl ⟨e, ?_, parseDump_raises newText e readNew, fun nameless => unread readNew nameless.2.1⟩)
      rw [diffSurface, readOld, ok_bind, readNew]
      rfl
    | ok new =>
      have whole : diffSurface oldText newText = diffTypes old new := by
        rw [diffSurface, readOld, ok_bind, readNew, ok_bind]
      rw [whole]
      by_cases nameless : Nameless oldText newText
      · refine .inr (.inr ⟨?_, nameless⟩)
        cases done : diffTypes old new with
        | error e => rw [diffTypes_raises old new e done]
        | ok r => exact absurd nameless ((comparable_iff readOld readNew).mp (diffTypes_eq_ok.mp done).1)
      · exact .inl ⟨_, diffTypes_eq_ok.mpr ⟨(comparable_iff readOld readNew).mpr nameless, rfl⟩, nameless⟩

/-- The diff fails only with a `ValueError`, and the command ends with status 0 or 2, unless some type of both texts has in
    one of them a member line that starts with `=`. -/
theorem diffSurface_documented (oldText newText : Text) :
    ((∃ r, diffSurface oldText newText = .ok r) ∨ ∃ e, diffSurface oldText newText = .error e ∧ e.isValueError = true) ∧
        (diffStatus oldText newText = .ok 0 ∨ diffStatus oldText newText = .ok 2) ↔
      ¬Nameless oldText newText := by
  rcases diffSurface_cases oldText newText with ⟨r, done, plain⟩ | ⟨e, raised, caught, plain⟩ | ⟨raised, nameless⟩
  · exact iff_of_true ⟨.inl ⟨r, done⟩, .inl (by rw [diffStatus, done])⟩ plain
  · exact iff_of_true ⟨.inr ⟨e, raised, caught⟩, .inr (by rw [diffStatus, raised]; exact if_pos caught)⟩ plain
  · refine iff_of_false (fun documented => ?_) fun plain => plain nameless
    rcases documented.1 with ⟨r, done⟩ | ⟨e, raised', caught⟩
    · cases raised.symm.trans done
    · cases raised.symm.trans raised'
      cases caught

/-- A dump whose only member has lost its name: the diff with itself raises an `IndexError`. -/
theorem diffSurface_nameless :
    diffSurface "parcelable P\n    = 1;\n".toList "parcelable P\n    = 1;\n".toList = .error .index ∧
      diffStatus "parcelable P\n    = 1;\n".toList "parcelable P\n    = 1;\n".toList = .error .index := by
  decide +kernel

end BinderIdl.Surface
