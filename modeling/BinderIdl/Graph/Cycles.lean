import Mathlib.Data.Fintype.EquivFin
import Mathlib.Data.Set.Finite.Basic
import Mathlib.Logic.Relation
import Mathlib.Order.WellFounded

/-! Cycles of a relation on finitely many nodes: an order that respects the edges excludes them, and a set of nodes
    that are all preceded from within has one. -/

namespace Graph
variable {α : Type} {r : α → α → Prop}

/-- Some node reaches itself along edges; a self-loop counts. -/
def Cyclic (r : α → α → Prop) : Prop := ∃ a, Relation.TransGen r a a

/-- An order of nodes in which the source of every edge stands before its target. -/
def Respects (r : α → α → Prop) (order : List α) : Prop :=
  ∀ before x after, order = before ++ x :: after → ∀ a, r a x → a ∈ before

theorem Respects.concat {order : List α} {x : α} (left : Respects r order) (behind : ∀ a, r a x → a ∈ order) :
    Respects r (order ++ [x]) := by
  intro before y after split c edge
  rcases List.eq_nil_or_concat' after with rfl | ⟨after, last, rfl⟩
  · obtain ⟨rfl, same⟩ := List.append_inj' split rfl
    cases same
    exact behind c edge
  · rw [← List.cons_append, ← List.append_assoc] at split
    obtain ⟨rfl, -⟩ := List.append_inj' split rfl
    exact left before y after rfl c edge

theorem Respects.idxOf_lt [DecidableEq α] {order : List α} (respects : Respects r order) {a b : α} (edge : r a b)
    (member : b ∈ order) : order.idxOf a < order.idxOf b := by
  obtain ⟨before, after, split, first⟩ := List.eq_append_cons_of_mem member
  have earlier := respects before b after split a edge
  rw [split, List.idxOf_append_of_mem earlier, List.idxOf_append_of_notMem first, List.idxOf_cons_self, Nat.add_zero]
  exact List.idxOf_lt_length_iff.mpr earlier

theorem not_cyclic_of_respects [DecidableEq α] {order : List α} (respects : Respects r order)
    (covers : ∀ a b, r a b → b ∈ order) : ¬Cyclic r := by
  rintro ⟨a, cycle⟩
  have climbs : ∀ b c, Relation.TransGen r b c → order.idxOf b < order.idxOf c := by
    intro b c path
    induction path with
    | single edge => exact respects.idxOf_lt edge (covers _ _ edge)
    | tail _ edge ih => exact ih.trans (respects.idxOf_lt edge (covers _ _ edge))
  exact Nat.lt_irrefl _ (climbs a a cycle)

theorem not_cyclic_of_rank (rank : α → ℕ) (down : ∀ a b, r a b → rank b < rank a) : ¬Cyclic r := by
  rintro ⟨a, cycle⟩
  have falls : ∀ b c, Relation.TransGen r b c → rank c < rank b := by
    intro b c path
    induction path with
    | single edge => exact down _ _ edge
    | tail _ edge ih => exact (down _ _ edge).trans ih
  exact Nat.lt_irrefl _ (falls a a cycle)

/-- Walking backwards inside a finite set never ends, so it comes back. -/
theorem cyclic_of_preceded {nodes : List α} (inhabited : nodes ≠ []) (preceded : ∀ b ∈ nodes, ∃ a ∈ nodes, r a b) :
    Cyclic r := by
  by_contra acyclic
  let below : {a // a ∈ nodes} → {a // a ∈ nodes} → Prop := fun a b => Relation.TransGen r a b
  have : Finite {a // a ∈ nodes} := (List.finite_toSet nodes).to_subtype
  have : IsTrans _ below := ⟨fun _ _ _ => Relation.TransGen.trans⟩
  have : Std.Irrefl below := ⟨fun a cycle => acyclic ⟨a, cycle⟩⟩
  have wf : WellFounded below := Finite.wellFounded_of_trans_of_irrefl below
  obtain ⟨start, member⟩ := List.exists_mem_of_ne_nil nodes inhabited
  obtain ⟨b, -, least⟩ := wf.has_min Set.univ ⟨⟨start, member⟩, trivial⟩
  obtain ⟨a, memberA, edge⟩ := preceded b b.2
  exact least ⟨a, memberA⟩ trivial (.single edge)

/-- Edges between finitely many nodes that have no cycle cannot be followed forever. -/
theorem acc_of_acyclic (nodes : List α) (covers : ∀ a b, r a b → a ∈ nodes) (acyclic : ¬Cyclic r) (a : α) :
    Acc (fun b a => r a b) a := by
  let below : {a // a ∈ nodes} → {a // a ∈ nodes} → Prop := fun b a => Relation.TransGen r a b
  have : Finite {a // a ∈ nodes} := (List.finite_toSet nodes).to_subtype
  have : IsTrans _ below := ⟨fun _ _ _ first second => second.trans first⟩
  have : Std.Irrefl below := ⟨fun a cycle => acyclic ⟨a, cycle⟩⟩
  have wf : WellFounded below := Finite.wellFounded_of_trans_of_irrefl below
  have outside : ∀ b, b ∉ nodes → Acc (fun b a => r a b) b :=
    fun b other => .intro _ fun c edge => absurd (covers b c edge) other
  have inside : ∀ x : {a // a ∈ nodes}, Acc (fun b a => r a b) x.1 := by
    intro x
    induction x using wf.induction with
    | h x ih =>
      refine .intro _ fun b edge => ?_
      by_cases member : b ∈ nodes
      · exact ih ⟨b, member⟩ (.single edge)
      · exact outside b member
  by_cases member : a ∈ nodes
  · exact inside ⟨a, member⟩
  · exact outside a member

/-! ### A graph that is followed through another one -/

/-- From good nodes, the edges of one graph are those of the other one between the images. -/
structure Tracks {β : Type} (s : α → α → Prop) (r : β → β → Prop) (f : α → β) (good : α → Prop) : Prop where
  forth : ∀ a b, good a → s a b → good b ∧ r (f a) (f b)
  back : ∀ a y, good a → r (f a) y → ∃ b, s a b ∧ f b = y

namespace Tracks
variable {β : Type} {s : α → α → Prop} {r : β → β → Prop} {f : α → β} {good : α → Prop} {a b : α}

theorem transGen (tracks : Tracks s r f good) (start : good a) (path : Relation.TransGen s a b) :
    good b ∧ Relation.TransGen r (f a) (f b) := by
  induction path with
  | single edge =>
    obtain ⟨goodB, edge'⟩ := tracks.forth _ _ start edge
    exact ⟨goodB, .single edge'⟩
  | tail _ edge ih =>
    obtain ⟨goodC, edge'⟩ := tracks.forth _ _ ih.1 edge
    exact ⟨goodC, ih.2.tail edge'⟩

theorem exists_transGen (tracks : Tracks s r f good) (start : good a) {y : β} (path : Relation.TransGen r (f a) y) :
    ∃ b, Relation.TransGen s a b ∧ f b = y := by
  induction path with
  | single edge =>
    obtain ⟨b, edge', image⟩ := tracks.back a _ start edge
    exact ⟨b, .single edge', image⟩
  | tail _ edge ih =>
    obtain ⟨b, path', rfl⟩ := ih
    obtain ⟨c, edge', image⟩ := tracks.back b _ (tracks.transGen start path').1 edge
    exact ⟨c, path'.tail edge', image⟩

theorem acc (tracks : Tracks s r f good) (start : good a) (ends : Acc (fun y x => r x y) (f a)) :
    Acc (fun b a => s a b) a := by
  generalize image : f a = x at ends
  induction ends generalizing a with
  | intro x _ ih =>
    subst image
    refine .intro a fun b edge => ?_
    obtain ⟨goodB, edge'⟩ := tracks.forth a b start edge
    exact ih (f b) edge' goodB rfl

end Tracks

end Graph
