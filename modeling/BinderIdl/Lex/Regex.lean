import Mathlib.Data.List.TakeWhile

/-! Regular expressions without alternatives, as a backtracking matcher reads them: the leftmost match, with every
    repetition as long as what follows it allows. -/

namespace Regex

/-- A part of an expression: one character of a class, a run of them, or the end of the text. -/
inductive Piece where
  | one (p : Char → Bool)
  | plus (p : Char → Bool)
  | star (p : Char → Bool)
  | finish

/-- Each character of a text by itself. -/
def literal (t : List Char) : List Piece := t.map fun c => .one (· == c)

/-- A match: what each piece took, and what is left behind it. -/
abbrev Match := List (List Char) × List Char

/-- The match in which the first piece took `g`. -/
def took (g : List Char) (m : Match) : Match := (g :: m.1, m.2)

/-- Tries the rest of an expression behind the first `n` characters, then behind fewer, but never below `least`. -/
def backtrack (rest : List Char → Option Match) (least : ℕ) (t : List Char) : ℕ → Option Match
  | 0 => if least = 0 then (rest t).map (took []) else none
  | n + 1 =>
    if n + 1 < least then none
    else
      match rest (t.drop (n + 1)) with
      | some m => some (took (t.take (n + 1)) m)
      | none => backtrack rest least t n

/-- The match at the start of a text. -/
def matchHere : List Piece → List Char → Option Match
  | [], t => some ([], t)
  | .one _ :: _, [] => none
  | .one p :: ps, c :: t => if p c then (matchHere ps t).map (took [c]) else none
  | .plus p :: ps, t => backtrack (matchHere ps) 1 t (t.takeWhile p).length
  | .star p :: ps, t => backtrack (matchHere ps) 0 t (t.takeWhile p).length
  | .finish :: ps, t => if t.isEmpty then (matchHere ps t).map (took []) else none

/-- The leftmost match, with what is skipped before it. -/
def search (ps : List Piece) : List Char → Option (List Char × Match)
  | [] => (matchHere ps []).map fun m => ([], m)
  | c :: t =>
    match matchHere ps (c :: t) with
    | some m => some ([], m)
    | none => (search ps t).map fun f => (c :: f.1, f.2)

/-- All matches from left to right, for an expression that matches no empty text. -/
def matchAllFrom (ps : List Piece) : ℕ → List Char → List (List (List Char))
  | 0, _ => []
  | n + 1, t =>
    match search ps t with
    | none => []
    | some (_, m) => m.1 :: matchAllFrom ps n m.2

def matchAll (ps : List Piece) (t : List Char) : List (List (List Char)) := matchAllFrom ps (t.length + 1) t

/-- The text with each match replaced. -/
def replaceAllFrom (ps : List Piece) (f : List (List Char) → List Char) : ℕ → List Char → List Char
  | 0, t => t
  | n + 1, t =>
    match search ps t with
    | none => t
    | some (skipped, m) => skipped ++ f m.1 ++ replaceAllFrom ps f n m.2

def replaceAll (ps : List Piece) (f : List (List Char) → List Char) (t : List Char) : List Char :=
  replaceAllFrom ps f (t.length + 1) t

variable {p q : Char → Bool} {ps : List Piece} {t : List Char} {m : Match}

/-! ### Literals -/

theorem matchHere_literal_append (l : List Char) (ps : List Piece) (t : List Char) :
    matchHere (literal l ++ ps) (l ++ t) = (matchHere ps t).map fun m => (l.map (fun c => [c]) ++ m.1, m.2) := by
  induction l with
  | nil => exact Option.map_id'.symm
  | cons c l ih =>
    have first : literal (c :: l) ++ ps = .one (· == c) :: (literal l ++ ps) := rfl
    rw [first, List.cons_append, matchHere, if_pos (beq_self_eq_true c), ih, Option.map_map]
    rfl

theorem of_matchHere_literal {l : List Char} (found : matchHere (literal l ++ ps) t = some m) :
    ∃ u m', t = l ++ u ∧ matchHere ps u = some m' ∧ m = (l.map (fun c => [c]) ++ m'.1, m'.2) := by
  induction l generalizing t m with
  | nil => exact ⟨t, m, rfl, found, rfl⟩
  | cons c l ih =>
    have first : literal (c :: l) ++ ps = .one (· == c) :: (literal l ++ ps) := rfl
    rw [first] at found
    cases t with
    | nil => cases found
    | cons d t =>
      rw [matchHere] at found
      by_cases same : d = c
      · subst same
        rw [if_pos (beq_self_eq_true d), Option.map_eq_some_iff] at found
        obtain ⟨m', found, rfl⟩ := found
        obtain ⟨u, m'', rfl, rest, rfl⟩ := ih found
        exact ⟨u, m'', rfl, rest, rfl⟩
      · rw [if_neg (fun h => same (beq_iff_eq.mp h))] at found
        cases found

/-! ### Repetitions -/

theorem of_backtrack {rest : List Char → Option Match} {least n : ℕ} (found : backtrack rest least t n = some m) :
    ∃ k ≤ n, least ≤ k ∧ ∃ m', rest (t.drop k) = some m' ∧ m = took (t.take k) m' := by
  induction n with
  | zero =>
    rw [backtrack] at found
    by_cases none_ : least = 0
    · rw [if_pos none_, Option.map_eq_some_iff] at found
      obtain ⟨m', found, rfl⟩ := found
      exact ⟨0, Nat.le_refl 0, by omega, m', found, rfl⟩
    · rw [if_neg none_] at found
      cases found
  | succ n ih =>
    rw [backtrack] at found
    by_cases few : n + 1 < least
    · rw [if_pos few] at found
      cases found
    · rw [if_neg few] at found
      cases here : rest (t.drop (n + 1)) with
      | some m' =>
        rw [here] at found
        exact ⟨n + 1, Nat.le_refl _, by omega, m', here, (Option.some.inj found).symm⟩
      | none =>
        rw [here] at found
        obtain ⟨k, le, least', result⟩ := ih found
        exact ⟨k, by omega, least', result⟩

theorem backtrack_whole {rest : List Char → Option Match} {least n : ℕ} (enough : least ≤ n)
    (found : rest (t.drop n) = some m) : backtrack rest least t n = some (took (t.take n) m) := by
  cases n with
  | zero =>
    rw [backtrack, if_pos (by omega)]
    rw [List.drop_zero] at found
    rw [found]
    rfl
  | succ n => rw [backtrack, if_neg (by omega), found]

theorem take_length_takeWhile (p : Char → Bool) (t : List Char) : t.take (t.takeWhile p).length = t.takeWhile p :=
  (List.prefix_iff_eq_take.mp (List.takeWhile_prefix p)).symm

theorem drop_length_takeWhile (p : Char → Bool) (t : List Char) : t.drop (t.takeWhile p).length = t.dropWhile p := by
  have whole := List.take_append_drop (t.takeWhile p).length t
  rw [take_length_takeWhile] at whole
  exact List.append_cancel_left (whole.trans List.takeWhile_append_dropWhile.symm)

theorem matchHere_star_last (p : Char → Bool) (t : List Char) :
    matchHere [.star p] t = some ([t.takeWhile p], t.dropWhile p) := by
  rw [matchHere, backtrack_whole (Nat.zero_le _) (matchHere.eq_1 _), take_length_takeWhile, drop_length_takeWhile]
  rfl

theorem matchHere_plus_last (p : Char → Bool) (t : List Char) :
    matchHere [.plus p] t = if t.takeWhile p = [] then none else some ([t.takeWhile p], t.dropWhile p) := by
  rw [matchHere]
  by_cases run : t.takeWhile p = []
  · rw [if_pos run, run, List.length_nil, backtrack, if_neg Nat.one_ne_zero]
  · rw [if_neg run, backtrack_whole (List.length_pos_iff.mpr run) (matchHere.eq_1 _), take_length_takeWhile,
      drop_length_takeWhile]
    rfl

/-- A run that the next piece cannot start in is taken whole. -/
theorem matchHere_plus_one (apart : ∀ c, p c = true → q c = false) :
    matchHere (.plus p :: .one q :: ps) t = some m ↔ t.takeWhile p ≠ [] ∧
      ∃ m', matchHere (.one q :: ps) (t.dropWhile p) = some m' ∧ m = took (t.takeWhile p) m' := by
  rw [matchHere]
  constructor
  · intro found
    obtain ⟨k, le, pos, m', rest, rfl⟩ := of_backtrack found
    have whole : k = (t.takeWhile p).length := by
      by_contra other
      have short : k < (t.takeWhile p).length := by omega
      -- the next piece would have to start with a character of the run
      have more : (t.takeWhile p).drop k ≠ [] := fun none_ => by
        have := List.drop_eq_nil_iff.mp none_
        omega
      obtain ⟨c, run, behind⟩ := List.exists_cons_of_ne_nil more
      have own : p c = true := by
        have member : c ∈ (t.takeWhile p).drop k := by
          rw [behind]
          exact List.mem_cons_self
        exact List.mem_takeWhile_imp (List.mem_of_mem_drop member)
      have next : t.drop k = c :: (run ++ t.dropWhile p) := by
        rw [← List.cons_append, ← behind, ← List.drop_append_of_le_length le, List.takeWhile_append_dropWhile]
      rw [next, matchHere, apart c own, if_neg Bool.false_ne_true] at rest
      cases rest
    subst whole
    rw [take_length_takeWhile, drop_length_takeWhile] at *
    exact ⟨List.length_pos_iff.mp pos, m', rest, rfl⟩
  · rintro ⟨run, m', rest, rfl⟩
    rw [backtrack_whole (List.length_pos_iff.mpr run) (by rw [drop_length_takeWhile]; exact rest),
      take_length_takeWhile]

theorem matchHere_plus_literal {d : Char} {l : List Char} (apart : p d = false) :
    matchHere (.plus p :: (literal (d :: l) ++ ps)) t = some m ↔ t.takeWhile p ≠ [] ∧
      ∃ m', matchHere (literal (d :: l) ++ ps) (t.dropWhile p) = some m' ∧ m = took (t.takeWhile p) m' := by
  refine matchHere_plus_one fun c own => beq_eq_false_iff_ne.mpr fun same => ?_
  rw [same, apart] at own
  cases own

theorem matchHere_finish : matchHere [.finish] t = some m ↔ t = [] ∧ m = ([[]], []) := by
  rw [matchHere]
  cases t with
  | nil => exact ⟨fun found => ⟨rfl, (Option.some.inj found).symm⟩, fun h => congrArg some h.2.symm⟩
  | cons c t => exact ⟨fun found => (by cases found), fun h => (by cases h.1)⟩

/-! ### Searching -/

theorem search_append {l : List Char} (no : ∀ u, u <:+ l → u ≠ [] → matchHere ps (u ++ t) = none) :
    search ps (l ++ t) = (search ps t).map fun f => (l ++ f.1, f.2) := by
  induction l with
  | nil => exact Option.map_id'.symm
  | cons c l ih =>
    rw [List.cons_append, search, ← List.cons_append, no (c :: l) List.suffix_rfl (List.cons_ne_nil c l)]
    dsimp only
    rw [ih fun u suffix ne => no u (suffix.trans (List.suffix_cons c l)) ne, Option.map_map]
    rfl

theorem search_of_matchHere (found : matchHere ps t = some m) : search ps t = some ([], m) := by
  cases t with
  | nil =>
    rw [search, found]
    rfl
  | cons c t => rw [search, found]

theorem of_search {f : List Char × Match} (found : search ps t = some f) : ∃ u, matchHere ps u = some f.2 := by
  induction t generalizing f with
  | nil =>
    rw [search, Option.map_eq_some_iff] at found
    obtain ⟨m, found, rfl⟩ := found
    exact ⟨[], found⟩
  | cons c t ih =>
    rw [search] at found
    cases here : matchHere ps (c :: t) with
    | some m =>
      rw [here] at found
      cases found
      exact ⟨_, here⟩
    | none =>
      rw [here, Option.map_eq_some_iff] at found
      obtain ⟨f', found, rfl⟩ := found
      obtain ⟨u, here⟩ := ih found
      exact ⟨u, here⟩

end Regex
