import BinderIdl.Py.Chars

/-! The methods of Python's `str` on texts, with the laws of `strip` and of `splitlines` that the
    readers of line-based files rest on. -/

namespace Py

/-- `t.lstrip()` -/
def lstrip (t : Text) : Text := t.dropWhile isSpace

/-- `t.rstrip()` -/
def rstrip (t : Text) : Text := t.rdropWhile isSpace

/-- `t.strip()` -/
def strip (t : Text) : Text := rstrip (lstrip t)

/-- `t.split()`: the maximal runs of characters that are not blank. -/
def words (t : Text) : List Text := (t.splitOnP isSpace).filter fun w => !w.isEmpty

/-- `t.partition(sep)` for a separator of one character: the text before the first one and the text after it. -/
def partition (sep : Char) (t : Text) : Text × Text :=
  (t.takeWhile (· != sep), (t.dropWhile (· != sep)).tail)

/-- `t.partition(sep)` for a longer separator. -/
def partitionOn (sep : Text) : Text → Text × Text
  | [] => ([], [])
  | c :: t =>
    if sep.isPrefixOf (c :: t) then ([], (c :: t).drop sep.length)
    else (c :: (partitionOn sep t).1, (partitionOn sep t).2)

/-- The lines of a text whose current line, read so far, is `line` reversed. -/
def splitLinesFrom (line : Text) : Text → List Text
  | [] => if line.isEmpty then [] else [line.reverse]
  | '\r' :: '\n' :: t => line.reverse :: splitLinesFrom [] t
  | c :: t => if isLineBreak c then line.reverse :: splitLinesFrom [] t else splitLinesFrom (c :: line) t

/-- `t.splitlines()` -/
def splitLines (t : Text) : List Text := splitLinesFrom [] t

/-- `sorted(ts)`: texts compare by code points. -/
def sorted (ts : List Text) : List Text := ts.insertionSort (· ≤ ·)

/-- `'%d' % n` -/
def ofInt (n : Int) : Text := (toString n).toList

/-! ### Runs -/

section Runs
variable {p : Char → Bool} {t : Text}

theorem takeWhile_append_of_ne_nil (h : t.dropWhile p ≠ []) (s : Text) :
    (t ++ s).takeWhile p = t.takeWhile p := by
  rw [List.takeWhile_append, if_neg]
  intro hlen
  have happ := congrArg List.length (List.takeWhile_append_dropWhile (p := p) (l := t))
  have := List.length_pos_of_ne_nil h
  rw [List.length_append] at happ
  omega

theorem dropWhile_append_of_ne_nil (h : t.dropWhile p ≠ []) (s : Text) :
    (t ++ s).dropWhile p = t.dropWhile p ++ s := by
  rw [List.dropWhile_append, if_neg (by simpa using h)]

theorem takeWhile_append_cons (h : ∀ c ∈ t, p c = true) {d : Char} (hd : p d = false) (s : Text) :
    (t ++ d :: s).takeWhile p = t := by
  rw [List.takeWhile_append_of_pos h, List.takeWhile_cons_of_neg (by simp [hd]), List.append_nil]

theorem takeWhile_append_stop {d : Char} (hd : p d = false) (s : Text) : (t ++ d :: s).takeWhile p = t.takeWhile p := by
  rw [List.takeWhile_append, List.takeWhile_cons_of_neg (by simp [hd]), List.append_nil]
  split
  · rename_i whole
    exact ((List.takeWhile_prefix p).eq_of_length whole).symm
  · rfl

theorem dropWhile_append_cons (h : ∀ c ∈ t, p c = true) {d : Char} (hd : p d = false) (s : Text) :
    (t ++ d :: s).dropWhile p = d :: s := by
  rw [List.dropWhile_append_of_pos h, List.dropWhile_cons_of_neg (by simp [hd])]

/-- Where a text ends in characters of a class behind one that is not of it, the two parts are determined. -/
theorem append_cons_inj {c : Char} (hc : p c = false) {a b u v : Text} (hu : ∀ x ∈ u, p x = true)
    (hv : ∀ x ∈ v, p x = true) (h : a ++ c :: u = b ++ c :: v) : a = b ∧ u = v := by
  have flip : ∀ a u : Text, (a ++ c :: u).reverse = u.reverse ++ c :: a.reverse := by simp
  have tails : u.reverse = v.reverse := by
    have hr := congrArg (List.takeWhile p) (congrArg List.reverse h)
    rw [flip, flip, takeWhile_append_cons (fun x hx => hu x (List.mem_reverse.mp hx)) hc,
      takeWhile_append_cons (fun x hx => hv x (List.mem_reverse.mp hx)) hc] at hr
    exact hr
  have same : u = v := List.reverse_injective tails
  subst same
  exact ⟨List.append_cancel_right h, rfl⟩

end Runs

theorem all_not_iff {p : Char → Bool} {t : Text} : t.all (! p ·) = true ↔ ∀ c ∈ t, p c = false := by
  simp

/-! ### Blanks at the ends -/

/-- The text neither starts nor ends with a blank. -/
def Stripped (t : Text) : Prop := strip t = t

instance (t : Text) : Decidable (Stripped t) := inferInstanceAs (Decidable (strip t = t))

theorem lstrip_append_of_space {g : Text} (hg : ∀ c ∈ g, isSpace c = true) (t : Text) :
    lstrip (g ++ t) = lstrip t := by
  induction g with
  | nil => rfl
  | cons c g ih =>
    have hc := hg c List.mem_cons_self
    simpa [lstrip, hc] using ih fun x hx => hg x (List.mem_cons_of_mem _ hx)

theorem rstrip_append_of_space {g : Text} (hg : ∀ c ∈ g, isSpace c = true) (t : Text) :
    rstrip (t ++ g) = rstrip t := by
  have hrev : ∀ c ∈ g.reverse, isSpace c = true := fun c hc => hg c (List.mem_reverse.mp hc)
  have := lstrip_append_of_space hrev t.reverse
  simpa [rstrip, List.rdropWhile, lstrip] using this

theorem lstrip_of_head {c : Char} (hc : isSpace c = false) (t : Text) : lstrip (c :: t) = c :: t := by
  simp [lstrip, hc]

theorem rstrip_of_last {c : Char} (hc : isSpace c = false) (t : Text) : rstrip (t ++ [c]) = t ++ [c] := by
  simp [rstrip, List.rdropWhile, hc]

theorem lstrip_suffix (t : Text) : lstrip t <:+ t := List.dropWhile_suffix _

theorem prefix_rstrip (t : Text) : rstrip t <+: t := List.rdropWhile_prefix _ _

theorem strip_length_le (t : Text) : (strip t).length ≤ t.length :=
  ((prefix_rstrip _).length_le).trans (lstrip_suffix t).length_le

theorem mem_of_mem_strip {t : Text} {c : Char} (h : c ∈ strip t) : c ∈ t :=
  (lstrip_suffix t).subset ((prefix_rstrip _).subset h)

theorem exists_strip_eq (t : Text) : ∃ g g' : Text, (∀ c ∈ g, isSpace c = true) ∧ (∀ c ∈ g', isSpace c = true) ∧
    t = g ++ strip t ++ g' := by
  refine ⟨t.takeWhile isSpace, (lstrip t).rtakeWhile isSpace, ?_, ?_, ?_⟩
  · exact fun c hc => List.mem_takeWhile_imp hc
  · exact fun c hc => List.mem_rtakeWhile_imp hc
  · rw [List.append_assoc, strip, rstrip, List.rdropWhile_append_rtakeWhile, lstrip, List.takeWhile_append_dropWhile]

theorem lstrip_eq_nil_iff {t : Text} : lstrip t = [] ↔ ∀ c ∈ t, isSpace c = true := by
  simp [lstrip, List.dropWhile_eq_nil_iff]

theorem strip_eq_nil_iff {t : Text} : strip t = [] ↔ ∀ c ∈ t, isSpace c = true := by
  constructor
  · intro h
    obtain ⟨g, g', hg, hg', ht⟩ := exists_strip_eq t
    intro c hc
    rw [ht, h, List.append_nil, List.mem_append] at hc
    exact hc.elim (hg c) (hg' c)
  · intro h
    rw [strip, lstrip_eq_nil_iff.mpr h]
    rfl

theorem lstrip_cases (t : Text) : lstrip t = [] ∨ ∃ c u, isSpace c = false ∧ lstrip t = c :: u := by
  cases h : lstrip t with
  | nil => exact Or.inl rfl
  | cons c u =>
    refine Or.inr ⟨c, u, ?_, rfl⟩
    have hne : t.dropWhile isSpace ≠ [] := by
      intro e
      rw [lstrip, e] at h
      cases h
    have := List.head_dropWhile_not isSpace hne
    simpa [show t.dropWhile isSpace = c :: u from h] using this

theorem rstrip_cons_ne_nil {c : Char} (hc : isSpace c = false) (u : Text) : ∃ v, rstrip (c :: u) = c :: v := by
  have hp := prefix_rstrip (c :: u)
  cases h : rstrip (c :: u) with
  | nil =>
    rw [rstrip, List.rdropWhile_eq_nil_iff] at h
    rw [h c List.mem_cons_self] at hc
    cases hc
  | cons d v =>
    rw [h] at hp
    obtain ⟨w, hw⟩ := hp
    cases hw
    exact ⟨v, rfl⟩

theorem lstrip_strip (t : Text) : lstrip (strip t) = strip t := by
  rcases lstrip_cases t with h | ⟨c, u, hc, h⟩
  · rw [strip, h]
    rfl
  · obtain ⟨v, hv⟩ := rstrip_cons_ne_nil hc u
    rw [strip, h, hv, lstrip_of_head hc]

theorem rstrip_rstrip (t : Text) : rstrip (rstrip t) = rstrip t := List.rdropWhile_idempotent _ _

theorem strip_strip (t : Text) : strip (strip t) = strip t := by
  conv_lhs => rw [strip, lstrip_strip]
  exact rstrip_rstrip _

theorem stripped_strip (t : Text) : Stripped (strip t) := strip_strip t

theorem strip_append_space {g g' : Text} (hg : ∀ c ∈ g, isSpace c = true) (hg' : ∀ c ∈ g', isSpace c = true)
    (t : Text) : strip (g ++ t ++ g') = strip t := by
  rw [strip, List.append_assoc, lstrip_append_of_space hg]
  rcases lstrip_cases t with h | ⟨c, u, hc, h⟩
  · have hall : ∀ c ∈ t ++ g', isSpace c = true := fun c hc =>
      (List.mem_append.mp hc).elim (lstrip_eq_nil_iff.mp h c) (hg' c)
    rw [lstrip_eq_nil_iff.mpr hall, strip, h]
  · have happ : lstrip (t ++ g') = lstrip t ++ g' := by
      obtain ⟨w, hw⟩ := lstrip_suffix t
      have hwall : ∀ x ∈ w, isSpace x = true := by
        have htake : w = t.takeWhile isSpace := by
          have h1 : t = t.takeWhile isSpace ++ lstrip t := (List.takeWhile_append_dropWhile).symm
          rw [← hw] at h1
          conv_rhs at h1 => rw [hw]
          exact List.append_cancel_right h1
        rw [htake]
        exact fun x hx => List.mem_takeWhile_imp hx
      conv_lhs => rw [← hw, List.append_assoc, lstrip_append_of_space hwall, h, List.cons_append, lstrip_of_head hc]
      rw [h, List.cons_append]
    rw [happ, rstrip_append_of_space hg', strip]

theorem strip_append_left {g : Text} (hg : ∀ c ∈ g, isSpace c = true) (t : Text) : strip (g ++ t) = strip t := by
  have h := strip_append_space hg (fun c hc => absurd hc List.not_mem_nil) t
  rwa [List.append_nil] at h

theorem stripped_of_ends {t : Text} (hne : t ≠ []) (hhead : isSpace (t.head hne) = false)
    (hlast : isSpace (t.getLast hne) = false) : Stripped t := by
  have hl : lstrip t = t := by
    cases t with
    | nil => exact absurd rfl hne
    | cons c u => exact lstrip_of_head hhead u
  rw [Stripped, strip, hl, ← List.dropLast_append_getLast hne]
  exact rstrip_of_last hlast _

theorem Stripped.head {t : Text} (h : Stripped t) (hne : t ≠ []) : isSpace (t.head hne) = false := by
  rcases lstrip_cases t with hn | ⟨c, u, hc, hcu⟩
  · rw [Stripped, strip, hn] at h
    exact absurd h.symm hne
  · have hpre : ∃ v, t = c :: v := by
      obtain ⟨v, hv⟩ := rstrip_cons_ne_nil hc u
      exact ⟨v, by rw [← h, strip, hcu, hv]⟩
    obtain ⟨v, rfl⟩ := hpre
    exact hc

theorem Stripped.getLast {t : Text} (h : Stripped t) (hne : t ≠ []) : isSpace (t.getLast hne) = false := by
  have hr : rstrip t = t := by
    conv_rhs => rw [← h]
    conv_lhs => rw [← h, strip, rstrip_rstrip]
    rfl
  have hlast := List.rdropWhile_last_not isSpace t (by rw [← rstrip, hr]; exact hne)
  have heq : (t.rdropWhile isSpace) = t := hr
  simpa [heq] using hlast

/-! ### Words -/

/-- A text that is not empty and holds no blank, as `split()` yields it. -/
structure IsWord (w : Text) : Prop where
  ne_nil : w ≠ []
  solid : ∀ c ∈ w, isSpace c = false

instance (w : Text) : Decidable (IsWord w) :=
  decidable_of_iff (w ≠ [] ∧ w.all (! isSpace ·) = true)
    ⟨fun ⟨h₁, h₂⟩ => ⟨h₁, all_not_iff.mp h₂⟩, fun ⟨h₁, h₂⟩ => ⟨h₁, all_not_iff.mpr h₂⟩⟩

theorem IsWord.stripped {w : Text} (h : IsWord w) : Stripped w :=
  stripped_of_ends h.ne_nil (h.solid _ (List.head_mem _)) (h.solid _ (List.getLast_mem _))

theorem words_ne_nil {c : Char} (hc : isSpace c = false) (t : Text) : words (c :: t) ≠ [] := by
  obtain ⟨w, ws, hw⟩ := List.exists_cons_of_ne_nil (List.splitOnP_ne_nil isSpace t)
  rw [words, List.splitOnP_cons_eq_if_modifyHead, hc, hw]
  simp

theorem intercalate_space_cons {w : Text} {ws : List Text} (h : ws ≠ []) :
    [' '].intercalate (w :: ws) = w ++ ' ' :: [' '].intercalate ws := by
  rw [List.intercalate_cons_of_ne_nil h, List.append_assoc, List.singleton_append]

/-- Words joined by blanks are the words of the line. -/
theorem words_intercalate {ws : List Text} (h : ∀ w ∈ ws, IsWord w) : words ([' '].intercalate ws) = ws := by
  induction ws with
  | nil => rfl
  | cons w ws ih =>
    have hw := h w List.mem_cons_self
    have hne : ∀ us : List Text, (w :: us).filter (fun u => !u.isEmpty) = w :: us.filter fun u => !u.isEmpty :=
      fun us => List.filter_cons_of_pos (by simpa using hw.ne_nil)
    by_cases hws : ws = []
    · subst hws
      rw [List.intercalate_singleton, words, List.splitOnP_eq_singleton hw.solid, hne]
      rfl
    · rw [intercalate_space_cons hws, words, List.splitOnP_append_cons_of_forall_mem hw.solid ' ' (by decide), hne]
      exact congrArg (w :: ·) (ih fun x hx => h x (List.mem_cons_of_mem _ hx))

theorem words_of_isWord {w : Text} (h : IsWord w) : words w = [w] := by
  have single : ∀ v ∈ [w], IsWord v := by simpa using h
  have := words_intercalate single
  rwa [List.intercalate_singleton] at this

theorem words_append_space {w : Text} (h : IsWord w) : words (w ++ [' ']) = [w] := by
  rw [words, List.splitOnP_append_cons_of_forall_mem h.solid ' ' (by decide)]
  simp [h.ne_nil]

theorem intercalate_space_eq_nil_iff {ws : List Text} (h : ∀ w ∈ ws, IsWord w) : [' '].intercalate ws = [] ↔ ws = [] := by
  constructor
  · intro he
    have := words_intercalate h
    rw [he] at this
    exact this.symm
  · rintro rfl
    rfl

theorem stripped_intercalate {ws : List Text} (h : ∀ w ∈ ws, IsWord w) : Stripped ([' '].intercalate ws) := by
  induction ws with
  | nil => rfl
  | cons w ws ih =>
    have hw := h w List.mem_cons_self
    have htail : ∀ x ∈ ws, IsWord x := fun x hx => h x (List.mem_cons_of_mem _ hx)
    by_cases hws : ws = []
    · subst hws
      rw [List.intercalate_singleton]
      exact hw.stripped
    · have hne := (intercalate_space_eq_nil_iff htail).not.mpr hws
      rw [intercalate_space_cons hws]
      refine stripped_of_ends (by simp) ?_ ?_
      · rw [List.head_append_of_ne_nil hw.ne_nil]
        exact hw.solid _ (List.head_mem _)
      · rw [List.getLast_append_of_ne_nil _ (by simp), List.getLast_cons hne]
        exact (ih htail).getLast hne

/-! ### Lines -/

theorem splitLinesFrom_append {l : Text} (hl : ∀ c ∈ l, isLineBreak c = false) (line t : Text) :
    splitLinesFrom line (l ++ t) = splitLinesFrom (l.reverse ++ line) t := by
  induction l generalizing line with
  | nil => rfl
  | cons c l ih =>
    have hc := hl c List.mem_cons_self
    have hne : c ≠ '\r' := by
      rintro rfl
      exact absurd hc (by decide)
    rw [List.cons_append, splitLinesFrom]
    · simp only [hc, Bool.false_eq_true, ↓reduceIte]
      rw [ih fun x hx => hl x (List.mem_cons_of_mem _ hx)]
      simp
    · exact fun u h => absurd h hne

/-- Lines without line breaks, each ended by a newline, are read back. -/
theorem splitLines_lines {ls : List Text} (h : ∀ l ∈ ls, ∀ c ∈ l, isLineBreak c = false) :
    splitLines (ls.flatMap (· ++ ['\n'])) = ls := by
  induction ls with
  | nil => rfl
  | cons l ls ih =>
    have hl := h l List.mem_cons_self
    rw [splitLines, List.flatMap_cons, List.append_assoc, splitLinesFrom_append hl, List.append_nil,
      List.singleton_append, splitLinesFrom]
    · rw [if_pos (by decide), List.reverse_reverse]
      exact congrArg (l :: ·) (ih fun x hx => h x (List.mem_cons_of_mem _ hx))
    · exact fun u h => absurd h (by decide)

theorem not_isLineBreak_of_mem_splitLinesFrom {line t l : Text} (hline : ∀ c ∈ line, isLineBreak c = false)
    (hl : l ∈ splitLinesFrom line t) : ∀ c ∈ l, isLineBreak c = false := by
  fun_induction splitLinesFrom line t with
  | case1 line hnil => simp at hl
  | case2 line hne =>
    rw [List.mem_singleton.mp hl]
    exact fun c hc => hline c (List.mem_reverse.mp hc)
  | case3 line t ih =>
    rcases List.mem_cons.mp hl with rfl | hl
    · exact fun c hc => hline c (List.mem_reverse.mp hc)
    · exact ih (fun c hc => absurd hc List.not_mem_nil) hl
  | case4 line c t hno hc ih =>
    rcases List.mem_cons.mp hl with rfl | hl
    · exact fun c hc => hline c (List.mem_reverse.mp hc)
    · exact ih (fun c hc => absurd hc List.not_mem_nil) hl
  | case5 line c t hno hc ih =>
    refine ih (fun x hx => ?_) hl
    rcases List.mem_cons.mp hx with rfl | hx
    · simpa using hc
    · exact hline x hx

theorem not_isLineBreak_of_mem_splitLines {t l : Text} (hl : l ∈ splitLines t) :
    ∀ c ∈ l, isLineBreak c = false :=
  not_isLineBreak_of_mem_splitLinesFrom (fun _ hc => absurd hc List.not_mem_nil) hl

/-! ### Sorting -/

theorem perm_sorted (ts : List Text) : (sorted ts).Perm ts := List.perm_insertionSort _ _

theorem mem_sorted {ts : List Text} {t : Text} : t ∈ sorted ts ↔ t ∈ ts := (perm_sorted ts).mem_iff

theorem sorted_sorted (ts : List Text) : sorted (sorted ts) = sorted ts :=
  (List.pairwise_insertionSort (· ≤ ·) ts).insertionSort_eq

/-! ### Numbers -/

theorem ofInt_injective {k j : Int} (h : ofInt k = ofInt j) : k = j := Int.repr_injective (String.toList_inj.mp h)

theorem ofInt_eq (k : Int) : ∃ ds : Text, ds ≠ [] ∧ (∀ c ∈ ds, c.isDigit = true) ∧ (ofInt k = ds ∨ ofInt k = '-' :: ds) := by
  have digits : ∀ n, ∀ c ∈ Nat.toDigits 10 n, c.isDigit = true :=
    fun n c member => Nat.isDigit_of_mem_toDigits (by decide) (by decide) member
  cases k with
  | ofNat n =>
    refine ⟨Nat.toDigits 10 n, Nat.toDigits_ne_nil, digits n, .inl ?_⟩
    show (Nat.repr n).toList = _
    rw [Nat.toList_repr]
  | negSucc n =>
    refine ⟨Nat.toDigits 10 (n + 1), Nat.toDigits_ne_nil, digits (n + 1), .inr ?_⟩
    show ("-" ++ Nat.repr (n + 1)).toList = _
    rw [String.toList_append, Nat.toList_repr]
    rfl

theorem mem_ofInt {k : Int} {c : Char} (h : c ∈ ofInt k) : c = '-' ∨ c.isDigit = true := by
  obtain ⟨ds, -, digits, eq | eq⟩ := ofInt_eq k
  · exact .inr (digits c (eq ▸ h))
  · rw [eq] at h
    exact (List.mem_cons.mp h).imp_right (digits c)

theorem ofInt_solid {k : Int} {c : Char} (h : c ∈ ofInt k) : isSpace c = false := by
  rcases mem_ofInt h with rfl | digit
  · decide
  · exact not_isSpace_of_ascii digit

theorem ofInt_ne_nil (k : Int) : ofInt k ≠ [] := by
  obtain ⟨ds, hne, -, eq | eq⟩ := ofInt_eq k
  · exact eq ▸ hne
  · exact eq ▸ List.cons_ne_nil _ _

end Py
