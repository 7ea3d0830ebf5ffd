import BinderIdl.Py.Outcome
import BinderIdl.Graph.Cycles

/-! Walks of a graph that visit each node behind its children, once for every path to it. The children of a node are
    computed, and how deep the walk may go is limited. -/

namespace Graph
open Relation Py

variable {ε α : Type}

/-- The nodes from `a` on in the order of the visits. -/
def postorder (children : α → Except ε (List α)) (stop : ε) : ℕ → α → Except ε (List α)
  | 0, _ => .error stop
  | depth + 1, a => do
    let below ← children a
    let lists ← below.mapM (postorder children stop depth)
    return lists.flatten ++ [a]

def Child (children : α → Except ε (List α)) (a b : α) : Prop := ∃ below, children a = .ok below ∧ b ∈ below

/-- The nodes behind `a` on a path to `b`. -/
inductive Walk (r : α → α → Prop) : α → List α → α → Prop
  | nil (a : α) : Walk r a [] a
  | cons {a b c : α} {path : List α} (edge : r a b) (rest : Walk r b path c) : Walk r a (b :: path) c

/-- Two different paths lead to nodes with a property. -/
def Twice (r : α → α → Prop) (p : α → Prop) (a : α) : Prop :=
  ∃ path path' b c, path ≠ path' ∧ Walk r a path b ∧ Walk r a path' c ∧ p b ∧ p c

section
variable {children : α → Except ε (List α)} {stop : ε} {a b : α} {l : List α} {depth : ℕ}

theorem postorder_succ_eq_ok : postorder children stop (depth + 1) a = .ok l ↔
    ∃ below lists, children a = .ok below ∧
      List.Forall₂ (fun b l => postorder children stop depth b = .ok l) below lists ∧ l = lists.flatten ++ [a] := by
  rw [postorder, bind_eq_ok]
  refine exists_congr fun below => ⟨?_, ?_⟩
  · rintro ⟨found, rest⟩
    obtain ⟨lists, visited, done⟩ := bind_eq_ok.mp rest
    cases done
    exact ⟨lists, found, mapM_eq_ok_iff_forall₂.mp visited, rfl⟩
  · rintro ⟨lists, found, visited, rfl⟩
    exact ⟨found, bind_eq_ok.mpr ⟨lists, mapM_eq_ok_iff_forall₂.mpr visited, rfl⟩⟩

theorem child_iff {below : List α} (found : children a = .ok below) : Child children a b ↔ b ∈ below := by
  constructor
  · rintro ⟨below', found', member⟩
    cases found.symm.trans found'
    exact member
  · exact fun member => ⟨below, found, member⟩

theorem exists_walk_iff {r : α → α → Prop} : (∃ path, Walk r a path b) ↔ ReflTransGen r a b := by
  constructor
  · rintro ⟨path, walk⟩
    induction walk with
    | nil => exact .refl
    | cons edge _ ih => exact .head edge ih
  · intro reached
    induction reached using ReflTransGen.head_induction_on with
    | refl => exact ⟨[], .nil b⟩
    | head edge _ ih =>
      obtain ⟨path, walk⟩ := ih
      exact ⟨_, .cons edge walk⟩

/-! ### What is visited, and when -/

/-- The walk visits what can be reached. -/
theorem mem_postorder (visited : postorder children stop depth a = .ok l) :
    b ∈ l ↔ ReflTransGen (Child children) a b := by
  induction depth generalizing a b l with
  | zero => cases visited
  | succ depth ih =>
    obtain ⟨below, lists, found, all, rfl⟩ := postorder_succ_eq_ok.mp visited
    rw [List.mem_append, List.mem_singleton, ReflTransGen.cases_head_iff, or_comm, eq_comm]
    refine or_congr_right ⟨fun inside => ?_, ?_⟩
    · obtain ⟨l, member, inside⟩ := List.mem_flatten.mp inside
      obtain ⟨c, child, walk⟩ := exists_left_of_mem all member
      exact ⟨c, ⟨below, found, child⟩, (ih walk).mp inside⟩
    · rintro ⟨c, child, reached⟩
      obtain ⟨l, member, walk⟩ := exists_right_of_mem all ((child_iff found).mp child)
      exact List.mem_flatten.mpr ⟨l, member, (ih walk).mpr reached⟩

theorem Respects.append {r : α → α → Prop} {l l' : List α} (left : Respects r l) (right : Respects r l') :
    Respects r (l ++ l') := by
  intro before x after split c edge
  rcases List.append_eq_append_iff.mp split with ⟨more, rfl, rest⟩ | ⟨more, rfl, rest⟩
  · exact List.mem_append_right _ (right more x after rest c edge)
  · cases more with
    | nil => exact absurd (right [] x after rest.symm c edge) List.not_mem_nil
    | cons y more =>
      obtain ⟨rfl, rfl⟩ := List.cons.inj rest
      exact left before x more rfl c edge

theorem Respects.flatten {r : α → α → Prop} {lists : List (List α)} (all : ∀ l ∈ lists, Respects r l) :
    Respects r lists.flatten := by
  induction lists with
  | nil => intro before x after split; simp at split
  | cons l lists ih =>
    rw [List.flatten_cons]
    exact (all l List.mem_cons_self).append (ih fun l' member => all l' (List.mem_cons_of_mem _ member))

/-- When a node is visited, all that it reaches has been. -/
theorem respects_postorder (visited : postorder children stop depth a = .ok l) :
    Respects (fun b c => TransGen (Child children) c b) l := by
  induction depth generalizing a l with
  | zero => cases visited
  | succ depth ih =>
    obtain ⟨below, lists, found, all, rfl⟩ := postorder_succ_eq_ok.mp visited
    refine Respects.concat (Respects.flatten fun l member => ?_) fun b reached => ?_
    · obtain ⟨c, -, walk⟩ := exists_left_of_mem all member
      exact ih walk
    · obtain ⟨c, child, rest⟩ := TransGen.head'_iff.mp reached
      obtain ⟨l, member, walk⟩ := exists_right_of_mem all ((child_iff found).mp child)
      exact List.mem_flatten.mpr ⟨l, member, (mem_postorder walk).mpr rest⟩

/-! ### Walks that end -/

theorem postorder_mono (visited : postorder children stop depth a = .ok l) {depth' : ℕ} (deeper : depth ≤ depth') :
    postorder children stop depth' a = .ok l := by
  induction depth generalizing a l depth' with
  | zero => cases visited
  | succ depth ih =>
    obtain ⟨below, lists, found, all, rfl⟩ := postorder_succ_eq_ok.mp visited
    obtain ⟨depth', rfl⟩ := Nat.exists_eq_add_of_le' (Nat.zero_lt_of_lt deeper)
    exact postorder_succ_eq_ok.mpr ⟨below, lists, found, all.imp fun b l walk => ih walk (Nat.le_of_succ_le_succ deeper),
      rfl⟩

/-- The walk ends when it cannot go on forever and the children of all nodes can be computed. -/
theorem postorder_ends (ends : Acc (fun b a => Child children a b) a)
    (computed : ∀ b, ReflTransGen (Child children) a b → ∃ below, children b = .ok below) :
    ∃ depth l, postorder children stop depth a = .ok l := by
  induction ends with
  | intro a _ ih =>
    obtain ⟨below, found⟩ := computed a .refl
    have each : ∀ b ∈ below, ∃ depth l, postorder children stop depth b = .ok l := fun b child =>
      ih b ⟨below, found, child⟩ fun c reached => computed c (.head ⟨below, found, child⟩ reached)
    -- one depth is enough for all children
    obtain ⟨depth, lists, all⟩ : ∃ depth lists,
        List.Forall₂ (fun b l => postorder children stop depth b = .ok l) below lists := by
      clear found
      induction below with
      | nil => exact ⟨0, [], .nil⟩
      | cons b below rest =>
        obtain ⟨first, l, walk⟩ := each b List.mem_cons_self
        obtain ⟨others, lists, all⟩ := rest fun c child => each c (List.mem_cons_of_mem _ child)
        exact ⟨max first others, l :: lists, .cons (postorder_mono walk (le_max_left _ _))
          (all.imp fun c l walk => postorder_mono walk (le_max_right _ _))⟩
    exact ⟨depth + 1, _, postorder_succ_eq_ok.mpr ⟨below, lists, found, all, rfl⟩⟩

theorem acc_of_postorder (visited : postorder children stop depth a = .ok l) : Acc (fun b a => Child children a b) a := by
  induction depth generalizing a l with
  | zero => cases visited
  | succ depth ih =>
    obtain ⟨below, lists, found, all, rfl⟩ := postorder_succ_eq_ok.mp visited
    refine .intro a fun b child => ?_
    obtain ⟨l, -, walk⟩ := exists_right_of_mem all ((child_iff found).mp child)
    exact ih walk

theorem computed_of_postorder (visited : postorder children stop depth a = .ok l)
    (reached : ReflTransGen (Child children) a b) : ∃ below, children b = .ok below := by
  induction depth generalizing a l with
  | zero => cases visited
  | succ depth ih =>
    obtain ⟨below, lists, found, all, rfl⟩ := postorder_succ_eq_ok.mp visited
    rcases ReflTransGen.cases_head_iff.mp reached with rfl | ⟨c, child, rest⟩
    · exact ⟨below, found⟩
    · obtain ⟨l, -, walk⟩ := exists_right_of_mem all ((child_iff found).mp child)
      exact ih walk rest

/-! ### Nodes that are visited twice -/

section Twice
variable {p : α → Prop} [DecidablePred p]

theorem countP_pos_postorder (visited : postorder children stop depth a = .ok l) :
    1 ≤ l.countP p ↔ ∃ b, ReflTransGen (Child children) a b ∧ p b := by
  rw [Nat.one_le_iff_ne_zero, ← Nat.pos_iff_ne_zero, List.countP_pos_iff]
  simp only [mem_postorder visited, decide_eq_true_eq]

theorem countP_le_flatten {lists : List (List α)} (member : l ∈ lists) : l.countP p ≤ lists.flatten.countP p :=
  (List.sublist_flatten_of_mem member).countP_le

/-- Two visits in the walks from several nodes are two in the walk from one, or one in each of two of them. -/
theorem two_le_countP_flatten {below : List α} {lists : List (List α)} (distinct : below.Nodup)
    (all : List.Forall₂ (fun b l => postorder children stop depth b = .ok l) below lists) :
    2 ≤ lists.flatten.countP p ↔
      (∃ b ∈ below, ∃ l, postorder children stop depth b = .ok l ∧ 2 ≤ l.countP p) ∨
        ∃ b ∈ below, ∃ c ∈ below, b ≠ c ∧ (∃ x, ReflTransGen (Child children) b x ∧ p x) ∧
          ∃ y, ReflTransGen (Child children) c y ∧ p y := by
  induction all with
  | nil => simp
  | @cons b l below lists walk rest ih =>
    obtain ⟨fresh, distinct⟩ := List.nodup_cons.mp distinct
    rw [List.flatten_cons, List.countP_append]
    constructor
    · intro two
      by_cases alone : 2 ≤ l.countP p
      · exact .inl ⟨b, List.mem_cons_self, l, walk, alone⟩
      by_cases others : 2 ≤ lists.flatten.countP p
      · rcases (ih distinct).mp others with ⟨c, member, both⟩ | ⟨c, member, d, member', both⟩
        · exact .inl ⟨c, List.mem_cons_of_mem _ member, both⟩
        · exact .inr ⟨c, List.mem_cons_of_mem _ member, d, List.mem_cons_of_mem _ member', both⟩
      have first := (countP_pos_postorder walk).mp (by omega : 1 ≤ l.countP p)
      obtain ⟨y, inside, holds⟩ := List.countP_pos_iff.mp (by omega : 0 < lists.flatten.countP p)
      obtain ⟨l', member, inside⟩ := List.mem_flatten.mp inside
      obtain ⟨c, child, walk'⟩ := exists_left_of_mem rest member
      exact .inr ⟨b, List.mem_cons_self, c, List.mem_cons_of_mem _ child, fun same => fresh (same ▸ child), first, y,
        (mem_postorder walk').mp inside, by simpa using holds⟩
    · -- a node that is not the first one has its list among the others
      have visits : ∀ c ∈ below, (∃ x, ReflTransGen (Child children) c x ∧ p x) → 1 ≤ lists.flatten.countP p := by
        intro c child once
        obtain ⟨l', member, walk'⟩ := exists_right_of_mem rest child
        exact ((countP_pos_postorder walk').mpr once).trans (countP_le_flatten member)
      rintro (⟨c, member, l', walk', both⟩ | ⟨c, member, d, member', apart, once, once'⟩)
      · rcases List.mem_cons.mp member with rfl | member
        · cases walk.symm.trans walk'
          omega
        · have := (ih distinct).mpr (.inl ⟨c, member, l', walk', both⟩)
          omega
      · rcases List.mem_cons.mp member with rfl | inside <;> rcases List.mem_cons.mp member' with rfl | inside'
        · exact absurd rfl apart
        · have := (countP_pos_postorder walk).mpr once
          have := visits d inside' once'
          omega
        · have := (countP_pos_postorder walk).mpr once'
          have := visits c inside once
          omega
        · have := (ih distinct).mpr (.inr ⟨c, inside, d, inside', apart, once, once'⟩)
          omega

theorem twice_of_two_le_countP (distinct : ∀ b below, children b = .ok below → below.Nodup)
    (visited : postorder children stop depth a = .ok l) (two : 2 ≤ l.countP p) : Twice (Child children) p a := by
  induction depth generalizing a l with
  | zero => cases visited
  | succ depth ih =>
    obtain ⟨below, lists, found, all, rfl⟩ := postorder_succ_eq_ok.mp visited
    have child : ∀ b ∈ below, Child children a b := fun b member => (child_iff found).mpr member
    rw [List.countP_append, List.countP_singleton] at two
    by_cases flat : 2 ≤ lists.flatten.countP p
    · rcases (two_le_countP_flatten (distinct a below found) all).mp flat with
        ⟨b, member, l', walk, both⟩ | ⟨b, member, c, member', apart, ⟨x, reachX, px⟩, y, reachY, py⟩
      · obtain ⟨path, path', x, y, different, walkX, walkY, px, py⟩ := ih walk both
        exact ⟨b :: path, b :: path', x, y, fun same => different (List.cons.inj same).2, .cons (child b member) walkX,
          .cons (child b member) walkY, px, py⟩
      · obtain ⟨path, walkX⟩ := exists_walk_iff.mpr reachX
        obtain ⟨path', walkY⟩ := exists_walk_iff.mpr reachY
        exact ⟨b :: path, c :: path', x, y, fun same => apart (List.cons.inj same).1, .cons (child b member) walkX,
          .cons (child c member') walkY, px, py⟩
    · -- the node itself is one of the two
      have here : p a := by
        by_contra other
        rw [if_neg (by simpa using other)] at two
        omega
      rw [if_pos (by simpa using here)] at two
      obtain ⟨y, inside, py⟩ := List.countP_pos_iff.mp (by omega : 0 < lists.flatten.countP p)
      obtain ⟨l', member, inside⟩ := List.mem_flatten.mp inside
      obtain ⟨c, member', walk⟩ := exists_left_of_mem all member
      obtain ⟨path, walkY⟩ := exists_walk_iff.mpr ((mem_postorder walk).mp inside)
      exact ⟨[], c :: path, a, y, (List.cons_ne_nil _ _).symm, .nil a, .cons (child c member') walkY, here,
        by simpa using py⟩

theorem two_le_countP_of_twice (distinct : ∀ b below, children b = .ok below → below.Nodup)
    (visited : postorder children stop depth a = .ok l) (twice : Twice (Child children) p a) : 2 ≤ l.countP p := by
  induction depth generalizing a l with
  | zero => cases visited
  | succ depth ih =>
    obtain ⟨below, lists, found, all, rfl⟩ := postorder_succ_eq_ok.mp visited
    obtain ⟨path, path', x, y, different, walkX, walkY, px, py⟩ := twice
    rw [List.countP_append, List.countP_singleton]
    -- a path that goes on is a visit below
    have visit : ∀ b path z, Child children a b → Walk (Child children) b path z → p z →
        1 ≤ lists.flatten.countP p := by
      intro b path z child walk pz
      obtain ⟨l', member, visits⟩ := exists_right_of_mem all ((child_iff found).mp child)
      exact ((countP_pos_postorder visits).mpr ⟨z, exists_walk_iff.mp ⟨path, walk⟩, pz⟩).trans (countP_le_flatten member)
    cases walkX with
    | nil =>
      cases walkY with
      | nil => exact absurd rfl different
      | @cons _ b _ path' edge rest =>
        rw [if_pos (by simpa using px)]
        exact Nat.succ_le_succ (visit b path' y edge rest py)
    | @cons _ b _ path edge rest =>
      cases walkY with
      | nil =>
        rw [if_pos (by simpa using py)]
        exact Nat.succ_le_succ (visit b path x edge rest px)
      | @cons _ c _ path' edge' rest' =>
        have member := (child_iff found).mp edge
        refine Nat.le_add_right_of_le ((two_le_countP_flatten (distinct a below found) all).mpr ?_)
        by_cases same : b = c
        · subst same
          obtain ⟨l', -, visits⟩ := exists_right_of_mem all member
          exact .inl ⟨b, member, l', visits,
            ih visits ⟨path, path', x, y, fun h => different (h ▸ rfl), rest, rest', px, py⟩⟩
        · exact .inr ⟨b, member, c, (child_iff found).mp edge', same, ⟨x, exists_walk_iff.mp ⟨path, rest⟩, px⟩, y,
            exists_walk_iff.mp ⟨path', rest'⟩, py⟩

end Twice

end

end Graph
