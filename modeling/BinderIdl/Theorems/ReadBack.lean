import BinderIdl.Py.Outcome
import BinderIdl.Surface.Dump

/-! Reading a written dump back. A header written from words is read back as it was, whatever the
    annotations are; a member line survives iff it is a single line, not empty and without blanks at its ends. -/

namespace BinderIdl.Surface
open Py

/-! ### Annotations -/

theorem argsMatch_append_right {t a r : Text} (h : argsMatch t = some (a, r)) (s : Text) :
    argsMatch (t ++ s) = some (a, r ++ s) := by
  unfold argsMatch at h ⊢
  split at h
  · rename_i u hu
    split at h
    · rename_i v hv
      cases h
      have hne : t.dropWhile isSpace ≠ [] := by simp [hu]
      have hne' : u.dropWhile (· != ')') ≠ [] := by simp [hv]
      rw [dropWhile_append_of_ne_nil hne, takeWhile_append_of_ne_nil hne, hu, List.cons_append]
      simp only
      rw [dropWhile_append_of_ne_nil hne', takeWhile_append_of_ne_nil hne', hv, List.cons_append]
      rfl
    · cases h
  · cases h

/-- An annotation as the dump holds it: a text without blanks that the annotation expression matches whole. -/
structure AnnotationText (a : Text) : Prop where
  solid : ∀ c ∈ a, isSpace c = false
  whole : annotationMatch a = some (a, [])

instance (a : Text) : Decidable (AnnotationText a) :=
  decidable_of_iff (a.all (! isSpace ·) = true ∧ annotationMatch a = some (a, []))
    ⟨fun ⟨h₁, h₂⟩ => ⟨all_not_iff.mp h₁, h₂⟩, fun ⟨h₁, h₂⟩ => ⟨all_not_iff.mpr h₁, h₂⟩⟩

theorem AnnotationText.head {a : Text} (h : AnnotationText a) : ∃ t, a = '@' :: t := by
  have hw := h.whole
  unfold annotationMatch at hw
  split at hw
  · exact ⟨_, rfl⟩
  · cases hw

theorem AnnotationText.word {a : Text} (h : AnnotationText a) : IsWord a := by
  obtain ⟨t, rfl⟩ := h.head
  exact ⟨List.cons_ne_nil _ _, h.solid⟩

/-- The character class of a text's first character that is not a blank keeps it from continuing an annotation. -/
def NoArgs (t : Text) : Prop := ∀ u, t.dropWhile isSpace ≠ '(' :: u

theorem argsMatch_of_noArgs {t : Text} (h : NoArgs t) : argsMatch t = none := by
  unfold argsMatch
  split
  · rename_i u hu
    exact absurd hu (h u)
  · rfl

theorem AnnotationText.annotationMatch_append {a : Text} (h : AnnotationText a) {s : Text} (hs : NoArgs s) :
    annotationMatch (a ++ ' ' :: s) = some (a, ' ' :: s) := by
  obtain ⟨t, rfl⟩ := h.head
  have hw := h.whole
  have hblank : isWord ' ' = false := by decide
  have hnoargs : argsMatch (' ' :: s) = none := argsMatch_of_noArgs fun u => by
    rw [List.dropWhile_cons_of_pos (by decide)]
    exact hs u
  simp only [annotationMatch, List.cons_append] at hw ⊢
  by_cases hne : t.takeWhile isWord = []
  · rw [if_pos hne] at hw
    cases hw
  · rw [if_neg hne] at hw
    by_cases hd : t.dropWhile isWord = []
    · -- no arguments: the whole text is a word
      have hall : ∀ c ∈ t, isWord c = true := List.dropWhile_eq_nil_iff.mp hd
      rw [takeWhile_append_cons hall hblank, dropWhile_append_cons hall hblank, hnoargs, if_neg]
      rintro rfl
      exact hne rfl
    · rw [takeWhile_append_of_ne_nil hd, dropWhile_append_of_ne_nil hd, if_neg hne]
      cases hargs : argsMatch (t.dropWhile isWord) with
      | none =>
        rw [hargs] at hw
        exact absurd (Option.some.inj hw |> congrArg Prod.snd) hd
      | some p =>
        obtain ⟨x, r⟩ := p
        rw [hargs] at hw
        obtain ⟨h₁, rfl⟩ := Prod.mk.inj (Option.some.inj hw)
        rw [argsMatch_append_right hargs, List.nil_append]
        exact congrArg (fun a => some (a, ' ' :: s)) h₁

theorem single_of_intercalate {ws : List Text} (h : ∀ w ∈ ws, IsWord w) :
    ∀ c ∈ [' '].intercalate ws, isLineBreak c = false := by
  induction ws with
  | nil => simp
  | cons w ws ih =>
    have hw : ∀ c ∈ w, isLineBreak c = false := fun c hc =>
      isLineBreak_of_not_isSpace ((h w List.mem_cons_self).solid c hc)
    by_cases hws : ws = []
    · subst hws
      rwa [List.intercalate_singleton]
    · rw [intercalate_space_cons hws]
      intro c hc
      rcases List.mem_append.mp hc with hc | hc
      · exact hw c hc
      · rcases List.mem_cons.mp hc with rfl | hc
        · decide
        · exact ih (fun x hx => h x (List.mem_cons_of_mem _ hx)) c hc

theorem head_intercalate {c : Char} {w : Text} {ws : List Text} :
    ∃ u, [' '].intercalate ((c :: w) :: ws) = c :: u := by
  rw [List.intercalate_cons_cons_left]
  exact ⟨_, rfl⟩

theorem noArgs_of_head {c : Char} {u : Text} (hs : isSpace c = false) (hc : c ≠ '(') : NoArgs (c :: u) := by
  intro v h
  rw [List.dropWhile_cons_of_neg (by rw [hs]; decide)] at h
  exact hc (List.cons.inj h).1

/-- The annotations in front of a line of words are taken off; the words start with a letter. -/
theorem takeAnnotationsFrom_words {anns : List Text} (ha : ∀ a ∈ anns, AnnotationText a) {c : Char} {w : Text}
    {ws : List Text} (hw : ∀ v ∈ (c :: w) :: ws, IsWord v) (hat : c ≠ '@') (hpar : c ≠ '(') :
    takeAnnotationsFrom ([' '].intercalate (anns ++ (c :: w) :: ws)) = (anns, [' '].intercalate ((c :: w) :: ws)) := by
  induction anns with
  | nil =>
    obtain ⟨u, hu⟩ := @head_intercalate c w ws
    have hnone : annotationMatch ([' '].intercalate ((c :: w) :: ws)) = none := by
      rw [hu]
      unfold annotationMatch
      split
      · rename_i heq
        exact absurd (List.cons.inj heq).1 hat
      · rfl
    rw [List.nil_append, takeAnnotationsFrom]
    split
    · rfl
    · rename_i h
      rw [hnone] at h
      cases h
  | cons a anns ih =>
    have hatext := ha a List.mem_cons_self
    have hrest : ∀ a ∈ anns, AnnotationText a := fun x hx => ha x (List.mem_cons_of_mem _ hx)
    have hwords : ∀ v ∈ anns ++ (c :: w) :: ws, IsWord v := fun v hv =>
      (List.mem_append.mp hv).elim (fun h => (hrest v h).word) (hw v)
    have hnoargs : NoArgs ([' '].intercalate (anns ++ (c :: w) :: ws)) := by
      cases anns with
      | nil =>
        obtain ⟨u, hu⟩ := @head_intercalate c w ws
        rw [List.nil_append, hu]
        exact noArgs_of_head ((hw _ List.mem_cons_self).solid c List.mem_cons_self) hpar
      | cons b bs =>
        obtain ⟨t, rfl⟩ := (hrest b List.mem_cons_self).head
        obtain ⟨u, hu⟩ := @head_intercalate '@' t (bs ++ (c :: w) :: ws)
        rw [List.cons_append, hu]
        exact noArgs_of_head (by decide) (by decide)
    have hmatch := hatext.annotationMatch_append hnoargs
    have hstrip : strip (' ' :: [' '].intercalate (anns ++ (c :: w) :: ws)) =
        [' '].intercalate (anns ++ (c :: w) :: ws) := by
      have hblank : ∀ c ∈ [' '], isSpace c = true := by simp [isSpace]
      exact (strip_append_left hblank _).trans (stripped_intercalate hwords)
    rw [List.cons_append, intercalate_space_cons (by simp), takeAnnotationsFrom]
    split
    · rename_i h
      rw [hmatch] at h
      cases h
    · rename_i b r h
      rw [hmatch] at h
      cases h
      rw [hstrip, ih hrest, dropSpaces_eq_self hatext.solid]

/-! ### Header lines -/

/-- The qualified name and the header of a type can be written as words. -/
structure Readable (q : Text) (t : TypeDecl) : Prop where
  name : IsWord q
  annotations : ∀ a ∈ t.annotations, AnnotationText a

instance (q : Text) (t : TypeDecl) : Decidable (Readable q t) :=
  decidable_of_iff (IsWord q ∧ ∀ a ∈ t.annotations, AnnotationText a)
    ⟨fun ⟨h₁, h₂⟩ => ⟨h₁, h₂⟩, fun ⟨h₁, h₂⟩ => ⟨h₁, h₂⟩⟩

theorem Kind.find?_text (k : Kind) : Kind.all.find? (·.text == k.text) = some k := by
  cases k <;> decide

theorem Kind.text_ne_oneway (k : Kind) : k.text ≠ "oneway".toList := by
  cases k <;> decide

theorem Kind.text_isWord (k : Kind) : IsWord k.text := by
  cases k <;> decide

theorem oneway_isWord : IsWord "oneway".toList := by decide

/-- The words of a header behind the annotations. -/
def headWords (q : Text) (t : TypeDecl) : List Text :=
  (if t.oneway then ["oneway".toList] else []) ++ [t.kind.text, q]

theorem headWords_cons (q : Text) (t : TypeDecl) :
    ∃ c w ws, headWords q t = (c :: w) :: ws ∧ c ≠ '@' ∧ c ≠ '(' := by
  unfold headWords
  cases t.oneway
  · cases t.kind <;> exact ⟨_, _, _, rfl, by decide, by decide⟩
  · exact ⟨_, _, _, rfl, by decide, by decide⟩

section Header
variable {q : Text} {t : TypeDecl}

theorem headLine_eq : headLine q t = [' '].intercalate (t.annotations ++ headWords q t) := by
  rw [headLine, headWords, List.append_assoc]

theorem Readable.headWords_isWord (h : Readable q t) : ∀ w ∈ headWords q t, IsWord w := by
  intro w hw
  rcases List.mem_append.mp hw with hw | hw
  · split at hw
    · rw [List.mem_singleton.mp hw]
      exact oneway_isWord
    · cases hw
  · rcases List.mem_cons.mp hw with rfl | hw
    · exact t.kind.text_isWord
    · rw [List.mem_singleton.mp hw]
      exact h.name

theorem Readable.line_isWord (h : Readable q t) : ∀ w ∈ t.annotations ++ headWords q t, IsWord w :=
  fun w hw => (List.mem_append.mp hw).elim (fun ha => (h.annotations w ha).word) (h.headWords_isWord w)

/-- A written header is read back; the reader sorts the annotations. -/
theorem headerLine_headLine (h : Readable q t) :
    headerLine (headLine q t) = .ok (q, { t with annotations := sorted t.annotations, members := [] }) := by
  have htake : takeAnnotations (headLine q t) = (t.annotations, [' '].intercalate (headWords q t)) := by
    obtain ⟨c, w, ws, hcons, hat, hpar⟩ := headWords_cons q t
    have hw := h.headWords_isWord
    rw [takeAnnotations, headLine_eq, stripped_intercalate h.line_isWord]
    rw [hcons] at hw ⊢
    exact takeAnnotationsFrom_words h.annotations hw hat hpar
  unfold headerLine
  rw [htake]
  simp only [words_intercalate h.headWords_isWord]
  unfold headWords
  cases ho : t.oneway with
  | false =>
    have hne : (some t.kind.text == some "oneway".toList) = false :=
      beq_eq_false_iff_ne.mpr fun e => t.kind.text_ne_oneway (Option.some.inj e)
    simp only [Bool.false_eq_true, ↓reduceIte, List.nil_append, List.head?_cons, hne, t.kind.find?_text]
  | true =>
    simp only [↓reduceIte, List.cons_append, List.nil_append, List.head?_cons, BEq.rfl, List.tail_cons,
      t.kind.find?_text]

theorem headLine_ne_nil (h : Readable q t) : headLine q t ≠ [] := by
  rw [headLine_eq]
  refine (intercalate_space_eq_nil_iff h.line_isWord).not.mpr fun none => ?_
  have words : headWords q t = [] := (List.append_eq_nil_iff.mp none).2
  exact absurd (List.append_eq_nil_iff.mp words).2 (List.cons_ne_nil _ _)

theorem dumpLine_headLine (h : Readable q t) (s : DumpState) :
    dumpLine s (headLine q t) =
      .ok ⟨s.types.set q { t with annotations := sorted t.annotations, members := [] }, some q⟩ := by
  have hstrip : strip (headLine q t) = headLine q t := by
    rw [headLine_eq]
    exact stripped_intercalate h.line_isWord
  have hindent : ¬"    ".toList <+: headLine q t := by
    rintro ⟨u, hu⟩
    have hhead : isSpace ((headLine q t).head (headLine_ne_nil h)) = false := Stripped.head hstrip (headLine_ne_nil h)
    simp [← hu, isSpace] at hhead
  rw [dumpLine, hstrip, if_neg (headLine_ne_nil h), if_neg hindent, headerLine_headLine h]
  rfl

end Header

/-! ### Member lines -/

/-- A line that survives being written and read: not empty, no blank at its ends, no line break. -/
structure CleanLine (m : Text) : Prop where
  ne_nil : m ≠ []
  stripped : Stripped m
  single : ∀ c ∈ m, isLineBreak c = false

instance (m : Text) : Decidable (CleanLine m) :=
  decidable_of_iff (m ≠ [] ∧ Stripped m ∧ m.all (! isLineBreak ·) = true)
    ⟨fun ⟨h₁, h₂, h₃⟩ => ⟨h₁, h₂, all_not_iff.mp h₃⟩, fun ⟨h₁, h₂, h₃⟩ => ⟨h₁, h₂, all_not_iff.mpr h₃⟩⟩

theorem dumpLine_member {m : Text} (h : CleanLine m) (d : Types) (q : Text) (t : TypeDecl) :
    dumpLine ⟨d.set q t, some q⟩ ("    ".toList ++ m) = .ok ⟨d.set q (t.addMember m), some q⟩ := by
  have hblank : ∀ c ∈ "    ".toList, isSpace c = true := by simp [isSpace]
  have hstrip : strip ("    ".toList ++ m) = m := (strip_append_left hblank m).trans h.stripped
  rw [dumpLine, hstrip, if_neg h.ne_nil, if_pos (List.prefix_append _ _)]
  simp [DumpState.addMember]

theorem foldlM_dumpLine_members {ms : List Text} (h : ∀ m ∈ ms, CleanLine m) (d : Types) (q : Text) (t : TypeDecl) :
    (ms.map ("    ".toList ++ ·)).foldlM dumpLine ⟨d.set q t, some q⟩ =
      .ok ⟨d.set q { t with members := t.members ++ ms }, some q⟩ := by
  induction ms generalizing t with
  | nil => simp [pure, Except.pure]
  | cons m ms ih =>
    rw [List.map_cons, List.foldlM_cons, dumpLine_member (h m List.mem_cons_self)]
    have := ih (fun x hx => h x (List.mem_cons_of_mem _ hx)) (t.addMember m)
    simpa [bind, Except.bind, TypeDecl.addMember] using this

/-! ### Whole dumps -/

/-- A type as the reader holds it. -/
def TypeDecl.canonical (t : TypeDecl) : TypeDecl := { t with annotations := sorted t.annotations }

theorem foldlM_dumpLine_type {q : Text} {t : TypeDecl} (h : Readable q t) (hm : ∀ m ∈ t.members, CleanLine m)
    (s : DumpState) :
    (typeLines q t).foldlM dumpLine s = .ok ⟨s.types.set q t.canonical, some q⟩ := by
  have hlines := foldlM_dumpLine_members hm s.types q { t with annotations := sorted t.annotations, members := [] }
  rw [typeLines, List.cons_append, List.foldlM_cons, dumpLine_headLine h]
  show (t.members.map ("    ".toList ++ ·) ++ [[]]).foldlM dumpLine _ = _
  rw [List.foldlM_append, hlines]
  rfl

/-- The lines of the types under some names, in this order. -/
def dumpLines (types : Types) (qs : List Text) : List Text :=
  qs.flatMap fun q => ((types.get? q).map (typeLines q)).getD []

section Whole
variable {types : Types}

/-- Every header of the types can be written as words. -/
def AllReadable (types : Types) : Prop := ∀ q t, types.get? q = some t → Readable q t

/-- Every member line of the types survives being written and read. -/
def LinesClean (types : Types) : Prop := ∀ q t, types.get? q = some t → ∀ m ∈ t.members, CleanLine m

theorem foldlM_dumpLine_types (hr : AllReadable types) (hc : LinesClean types) {qs : List Text}
    (hqs : ∀ q ∈ qs, q ∈ types.keys) (s : DumpState) :
    ∃ s', (dumpLines types qs).foldlM dumpLine s = .ok s' ∧
      ∀ k, s'.types.get? k = if k ∈ qs then (types.get? k).map TypeDecl.canonical else s.types.get? k := by
  induction qs generalizing s with
  | nil => exact ⟨s, rfl, fun k => by simp⟩
  | cons q qs ih =>
    obtain ⟨t, ht⟩ := Dict.exists_get? (hqs q List.mem_cons_self)
    obtain ⟨s', hs', hget⟩ := ih (fun x hx => hqs x (List.mem_cons_of_mem _ hx)) ⟨s.types.set q t.canonical, some q⟩
    refine ⟨s', ?_, fun k => ?_⟩
    · rw [dumpLines, List.flatMap_cons, ht, Option.map_some, Option.getD_some, List.foldlM_append,
        foldlM_dumpLine_type (hr q t ht) (hc q t ht)]
      exact hs'
    · rw [hget k, Dict.get?_set]
      by_cases hk : k = q
      · subst hk
        simp [ht]
      · simp [hk]

theorem intercalate_newline (ls : List Text) : ['\n'].intercalate (ls ++ [[]]) = ls.flatMap (· ++ ['\n']) := by
  induction ls with
  | nil => rfl
  | cons l ls ih =>
    rw [List.cons_append, List.intercalate_cons_of_ne_nil (by simp), ih, List.flatMap_cons]

theorem dumpLines_eq (hqs : ∀ q ∈ sorted types.keys, q ∈ types.keys) :
    (dumpLines types (sorted types.keys) = [] ∧ dumpTypes types = []) ∨
    ∃ ls, dumpLines types (sorted types.keys) = ls ++ [[]] ∧ dumpTypes types = ls.flatMap (· ++ ['\n']) := by
  have hdef : dumpTypes types = ['\n'].intercalate (dumpLines types (sorted types.keys)) := rfl
  rw [hdef]
  rcases List.eq_nil_or_concat (sorted types.keys) with hnil | ⟨qs, q, hq⟩
  · rw [hnil]
    exact Or.inl ⟨rfl, rfl⟩
  · obtain ⟨t, ht⟩ := Dict.exists_get? (hqs q (by simp [hq]))
    refine Or.inr ⟨dumpLines types qs ++ (headLine q t :: t.members.map ("    ".toList ++ ·)), ?_⟩
    have hsplit : dumpLines types (sorted types.keys) =
        (dumpLines types qs ++ (headLine q t :: t.members.map ("    ".toList ++ ·))) ++ [[]] := by
      rw [hq, dumpLines, List.concat_eq_append, List.flatMap_append, dumpLines, List.flatMap_singleton, ht,
        Option.map_some, Option.getD_some, typeLines, List.append_assoc]
    exact ⟨hsplit, by rw [hsplit, intercalate_newline]⟩

theorem dumpLines_single (hr : AllReadable types) (hc : LinesClean types) {qs : List Text} :
    ∀ l ∈ dumpLines types qs, ∀ c ∈ l, isLineBreak c = false := by
  intro l hl c hcl
  obtain ⟨q, -, hl⟩ := List.mem_flatMap.mp hl
  cases ht : types.get? q with
  | none => simp [ht] at hl
  | some t =>
    rw [ht, Option.map_some, Option.getD_some, typeLines, List.cons_append, List.mem_cons, List.mem_append] at hl
    rcases hl with rfl | hl | hl
    · rw [headLine_eq] at hcl
      exact single_of_intercalate (hr q t ht).line_isWord c hcl
    · obtain ⟨m, hm, rfl⟩ := List.mem_map.mp hl
      rcases List.mem_append.mp hcl with hcl | hcl
      · have hblank : ∀ c ∈ "    ".toList, isLineBreak c = false := by simp [isLineBreak]
        exact hblank c hcl
      · exact (hc q t ht m hm).single c hcl
    · rw [List.mem_singleton.mp hl] at hcl
      cases hcl

/-- A dump of clean lines is read back: the same types, with their annotations sorted. -/
theorem parseDump_dumpTypes (hr : AllReadable types) (hc : LinesClean types) :
    ∃ types', parseDump (dumpTypes types) = .ok types' ∧ ∀ k, types'.get? k = (types.get? k).map TypeDecl.canonical := by
  have hqs : ∀ q ∈ sorted types.keys, q ∈ types.keys := fun q => mem_sorted.mp
  obtain ⟨s, hs, hget⟩ := foldlM_dumpLine_types hr hc hqs ⟨Dict.empty, none⟩
  have hfold : (splitLines (dumpTypes types)).foldlM dumpLine ⟨Dict.empty, none⟩ = .ok s := by
    rcases dumpLines_eq hqs with ⟨hnil, ht⟩ | ⟨ls, hls, ht⟩
    · rw [ht]
      rw [hnil] at hs
      exact hs
    · have hsingle : ∀ l ∈ ls, ∀ c ∈ l, isLineBreak c = false := fun l hl =>
        dumpLines_single hr hc l (by rw [hls]; exact List.mem_append_left _ hl)
      rw [ht, splitLines_lines hsingle]
      rw [hls, List.foldlM_append] at hs
      obtain ⟨s', hs', hlast⟩ := bind_eq_ok.mp hs
      rw [hs']
      exact hlast
  refine ⟨s.types, ?_, fun k => ?_⟩
  · rw [parseDump, hfold]
    rfl
  · rw [hget k]
    by_cases hk : k ∈ types.keys
    · rw [if_pos (mem_sorted.mpr hk)]
    · rw [if_neg (mem_sorted.not.mpr hk), Dict.get?_eq_none_iff.mpr hk]
      rfl

end Whole

/-! ### What the reader returns -/

theorem headerLine_members {line q : Text} {t : TypeDecl} (h : headerLine line = .ok (q, t)) : t.members = [] := by
  unfold headerLine at h
  simp only at h
  split at h
  · split at h
    · cases h
      rfl
    · cases h
  · cases h

theorem dumpLine_linesClean {s s' : DumpState} {line : Text} (hline : ∀ c ∈ line, isLineBreak c = false)
    (h : dumpLine s line = .ok s') (hs : LinesClean s.types) : LinesClean s'.types := by
  unfold dumpLine at h
  split at h
  · cases h
    exact hs
  · rename_i hne
    split at h
    · cases h
      unfold DumpState.addMember
      split
      · exact hs
      · rename_i q _
        split
        · exact hs
        · rename_i t ht
          intro k u hu m hm
          rw [Dict.get?_set] at hu
          split at hu
          · cases hu
            rcases List.mem_append.mp hm with hm | hm
            · exact hs q t ht m hm
            · rw [List.mem_singleton.mp hm]
              exact ⟨hne, stripped_strip _, fun c hc => hline c (mem_of_mem_strip hc)⟩
          · exact hs k u hu m hm
    · obtain ⟨⟨q, t⟩, hhead, rfl⟩ := map_eq_ok.mp h
      intro k u hu m hm
      simp only [Dict.get?_set] at hu
      split at hu
      · cases hu
        rw [headerLine_members hhead] at hm
        cases hm
      · exact hs k u hu m hm

/-- Whatever text is read, the lines of the result are clean. -/
theorem parseDump_linesClean {text : Text} {types : Types} (h : parseDump text = .ok types) : LinesClean types := by
  obtain ⟨s, hs, rfl⟩ := map_eq_ok.mp h
  have hlines : ∀ l ∈ splitLines text, ∀ c ∈ l, isLineBreak c = false := fun l => not_isLineBreak_of_mem_splitLines
  have hempty : LinesClean (⟨Dict.empty, none⟩ : DumpState).types := fun q t ht => by cases ht
  generalize (⟨Dict.empty, none⟩ : DumpState) = s₀ at hs hempty
  generalize splitLines text = ls at hs hlines
  induction ls generalizing s₀ with
  | nil =>
    cases hs
    exact hempty
  | cons l ls ih =>
    rw [List.foldlM_cons] at hs
    obtain ⟨s₁, hs₁, hs⟩ := bind_eq_ok.mp hs
    exact ih s₁ (dumpLine_linesClean (hlines l List.mem_cons_self) hs₁ hempty) hs
      fun x hx => hlines x (List.mem_cons_of_mem _ hx)

/-- Types with readable headers are read back exactly iff their annotations are sorted and their lines clean. -/
theorem readBack_iff {types : Types} (hr : AllReadable types)
    (hs : ∀ q t, types.get? q = some t → sorted t.annotations = t.annotations) :
    (∃ types', parseDump (dumpTypes types) = .ok types' ∧ types'.Same types) ↔ LinesClean types := by
  constructor
  · rintro ⟨types', h, hsame⟩ q t ht
    exact parseDump_linesClean h q t ((hsame q).trans ht)
  · intro hc
    obtain ⟨types', h, hget⟩ := parseDump_dumpTypes hr hc
    refine ⟨types', h, fun k => ?_⟩
    rw [hget k]
    cases ht : types.get? k with
    | none => rfl
    | some t =>
      rw [Option.map_some, TypeDecl.canonical, hs k t ht]

end BinderIdl.Surface
