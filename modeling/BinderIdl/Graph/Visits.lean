import BinderIdl.Py.Outcome
import BinderIdl.Graph.Cycles

/-! Walks of a graph that visit each node once: a node that has not been visited is finished behind its children. How deep
    the walk may go is limited, and finishing a node may fail. -/

namespace Graph
open Relation Py

variable {ε σ α : Type}

/-- A walk: the children of a node, the nodes that a state has visited, and what is done with a node when its children
    have been. -/
structure Walker (ε σ α : Type) where
  children : α → List α
  visited : σ → List α
  finish : α → ExceptT ε (StateM σ) Unit
  tooDeep : ε

/-- Edges from nodes that have not been visited. -/
def Edge (children : α → List α) (old : List α) (a b : α) : Prop := a ∉ old ∧ b ∈ children a

theorem edge_mono {children : α → List α} {old new : List α} {a b : α}
    (path : ReflTransGen (Edge children (old ++ new)) a b) :
    ReflTransGen (Edge children old) a b :=
  have wider : Edge children (old ++ new) ≤ Edge children old := fun _ _ edge =>
    ⟨fun member => edge.1 (List.mem_append_left _ member), edge.2⟩
  ReflTransGen.mono wider a b path

theorem not_transGen_of_acc {r : α → α → Prop} {a : α} (ends : Acc (fun b a => r a b) a) : ¬TransGen r a a := by
  induction ends with
  | intro a _ ih =>
    intro cycle
    obtain ⟨b, edge, back⟩ := TransGen.head'_iff.mp cycle
    exact ih b edge (.tail' back edge)

/-! ### What a walk adds -/

/-- What a walk from some nodes adds to those that have been visited: each node once, behind its children. -/
structure Adds (children : α → List α) (old new starts : List α) : Prop where
  nodup : new.Nodup
  fresh : ∀ b ∈ new, b ∉ old
  reached : ∀ b ∈ new, ∃ a ∈ starts, ReflTransGen (Edge children old) a b
  behind : ∀ before b after, new = before ++ b :: after → ∀ c ∈ children b, c ∈ old ++ before
  ends : ∀ b ∈ new, Acc (fun c b => Edge children old b c) b

namespace Adds
variable {children : α → List α} {old new new' starts starts' : List α} {a b : α}

theorem nil (starts : List α) : Adds children old [] starts where
  nodup := List.nodup_nil
  fresh _ member := absurd member List.not_mem_nil
  reached _ member := absurd member List.not_mem_nil
  behind before b after split := absurd split.symm (by simp)
  ends _ member := absurd member List.not_mem_nil

theorem acc_of_old (member : b ∈ old) : Acc (fun c b => Edge children old b c) b :=
  .intro b fun _ edge => absurd member edge.1

/-- A node from which the walk ended when more had been visited: it would have ended from the start. -/
theorem acc_of_append (adds : Adds children old new starts) (ends : Acc (fun c b => Edge children (old ++ new) b c) b) :
    Acc (fun c b => Edge children old b c) b := by
  induction ends with
  | intro b _ ih =>
    by_cases seen : b ∈ new
    · exact adds.ends b seen
    · refine .intro b fun c edge => ih c ⟨fun member => ?_, edge.2⟩
      exact (List.mem_append.mp member).elim edge.1 seen

theorem mono (adds : Adds children old new starts) (sub : starts ⊆ starts') : Adds children old new starts' :=
  { adds with
    reached := fun b member => by
      obtain ⟨a, start, path⟩ := adds.reached b member
      exact ⟨a, sub start, path⟩ }

/-- What is added for the children of a node is added for the node. -/
theorem below (adds : Adds children old new (children a)) (fresh : a ∉ old) : Adds children old new [a] :=
  { adds with
    reached := fun b member => by
      obtain ⟨c, child, path⟩ := adds.reached b member
      exact ⟨a, List.mem_singleton_self a, .head ⟨fresh, child⟩ path⟩ }

theorem append (first : Adds children old new starts) (second : Adds children (old ++ new) new' starts') :
    Adds children old (new ++ new') (starts ++ starts') where
  nodup := List.nodup_append.mpr ⟨first.nodup, second.nodup, fun a inNew b inNew' same =>
    second.fresh b inNew' (same ▸ List.mem_append_right _ inNew)⟩
  fresh b member := (List.mem_append.mp member).elim (first.fresh b) fun inNew' inOld =>
    second.fresh b inNew' (List.mem_append_left _ inOld)
  reached b member := by
    rcases List.mem_append.mp member with inNew | inNew'
    · obtain ⟨a, start, path⟩ := first.reached b inNew
      exact ⟨a, List.mem_append_left _ start, path⟩
    · obtain ⟨a, start, path⟩ := second.reached b inNew'
      exact ⟨a, List.mem_append_right _ start, edge_mono path⟩
  behind before b after split c child := by
    rcases List.append_eq_append_iff.mp split with ⟨more, rfl, rest⟩ | ⟨more, rfl, rest⟩
    · rw [← List.append_assoc]
      exact second.behind more b after rest c child
    · cases more with
      | nil =>
        have earlier := second.behind [] b after rest.symm c child
        rwa [List.append_nil, List.append_nil] at earlier
      | cons d more =>
        obtain ⟨rfl, -⟩ := List.cons.inj rest
        exact first.behind before b more rfl c child
  ends b member := (List.mem_append.mp member).elim (first.ends b) fun inNew' => first.acc_of_append (second.ends b inNew')

/-- All that can be reached from a node that has been visited has been, unless it was before. -/
theorem mem_of_reached (adds : Adds children old new starts) (visited : a ∈ old ++ new)
    (path : ReflTransGen (Edge children old) a b) : b ∈ old ++ new := by
  induction path with
  | refl => exact visited
  | @tail c d _ edge ih =>
    have inNew : c ∈ new := (List.mem_append.mp ih).resolve_left edge.1
    obtain ⟨before, after, split⟩ := List.append_of_mem inNew
    have earlier := adds.behind before c after split d edge.2
    rw [split, ← List.append_assoc]
    exact List.mem_append_left _ earlier

/-- When all starts have been visited, just what can be reached from them has been added. -/
theorem mem_iff (adds : Adds children old new starts) (all : ∀ a ∈ starts, a ∈ old ++ new) :
    b ∈ new ↔ b ∉ old ∧ ∃ a ∈ starts, ReflTransGen (Edge children old) a b := by
  constructor
  · exact fun member => ⟨adds.fresh b member, adds.reached b member⟩
  · rintro ⟨fresh, a, start, path⟩
    exact (List.mem_append.mp (adds.mem_of_reached (all a start) path)).resolve_left fresh

/-- Behind its children a node can be added: it was not among what was added for them. -/
theorem concat (adds : Adds children old new (children a)) (fresh : a ∉ old) (all : ∀ c ∈ children a, c ∈ old ++ new) :
    Adds children old (new ++ [a]) [a] := by
  have endsHere : Acc (fun c b => Edge children old b c) a := by
    refine .intro a fun c edge => ?_
    exact (List.mem_append.mp (all c edge.2)).elim acc_of_old (adds.ends c)
  have unvisited : a ∉ new := fun member => by
    obtain ⟨c, child, path⟩ := adds.reached a member
    exact not_transGen_of_acc endsHere (.head' ⟨fresh, child⟩ path)
  have here : ∀ b ∈ new ++ [a], b ∈ new ∨ b = a := fun b member =>
    (List.mem_append.mp member).imp_right List.mem_singleton.mp
  refine ⟨?_, fun b member => ?_, fun b member => ?_, fun before b after split c child => ?_, fun b member => ?_⟩
  · refine List.nodup_append.mpr ⟨adds.nodup, List.nodup_singleton a, fun b inNew c only same => unvisited ?_⟩
    rwa [← List.mem_singleton.mp only, ← same]
  · rcases here b member with inNew | rfl
    · exact adds.fresh b inNew
    · exact fresh
  · rcases here b member with inNew | rfl
    · exact (adds.below fresh).reached b inNew
    · exact ⟨b, List.mem_singleton_self b, .refl⟩
  · rcases List.eq_nil_or_concat' after with rfl | ⟨after, last, rfl⟩
    · obtain ⟨rfl, same⟩ := List.append_inj' split rfl
      cases same
      exact all c child
    · rw [← List.cons_append, ← List.append_assoc] at split
      obtain ⟨rfl, -⟩ := List.append_inj' split rfl
      exact adds.behind before b after rfl c child
  · rcases here b member with inNew | rfl
    · exact adds.ends b inNew
    · exact endsHere

end Adds

/-! ### The walk -/

namespace Walker
variable (walker : Walker ε σ α)

/-- The walk from a node. -/
def visit [DecidableEq α] : ℕ → α → ExceptT ε (StateM σ) Unit
  | 0, _ => throw walker.tooDeep
  | depth + 1, a => do
    let s ← get
    if a ∈ walker.visited s then pure ()
    else do
      (walker.children a).forM (visit depth)
      walker.finish a

/-- A node is visited when it is finished, unless that fails. -/
def Finishes : Prop :=
  ∀ a s, walker.visited (runFrom (walker.finish a) s).2 =
    walker.visited s ++ (if (runFrom (walker.finish a) s).1.isOk then [a] else [])

/-- A walk from these nodes: it adds some nodes, and where it ends it has visited these. -/
def Walks (x : ExceptT ε (StateM σ) Unit) (starts : List α) : Prop :=
  ∀ s, ∃ new, walker.visited (runFrom x s).2 = walker.visited s ++ new ∧
    Adds walker.children (walker.visited s) new starts ∧
    ((runFrom x s).1.isOk = true → ∀ a ∈ starts, a ∈ walker.visited s ++ new)

variable {walker}

variable {β : Type}

theorem forM_cons (f : β → ExceptT ε (StateM σ) Unit) (b : β) (l : List β) :
    (b :: l).forM f = f b >>= fun _ => l.forM f := rfl

theorem walks_pure : walker.Walks (pure ()) [] := fun _ =>
  ⟨[], (List.append_nil _).symm, .nil [], fun _ _ member => absurd member List.not_mem_nil⟩

theorem walks_throw (e : ε) (starts : List α) : walker.Walks (throw e) starts := fun _ =>
  ⟨[], (List.append_nil _).symm, .nil starts, fun ends => by cases ends⟩

/-- What follows a walk and changes no more than other parts of the state. -/
theorem Walks.quiet {x : ExceptT ε (StateM σ) Unit} {starts : List α} (walks : walker.Walks x starts) {f : σ → σ}
    (same : ∀ s, walker.visited (f s) = walker.visited s) : walker.Walks (x >>= fun _ => modify f) starts := by
  intro s
  obtain ⟨new, visited, adds, all⟩ := walks s
  rw [runFrom_bind]
  cases run : runFrom x s with
  | mk r t =>
    rw [run] at visited all
    cases r with
    | error e => exact ⟨new, visited, adds, fun ends => by cases ends⟩
    | ok u => exact ⟨new, (same t).trans visited, adds, all⟩

/-- A walk that is chosen by the state. -/
theorem Walks.get {f : σ → ExceptT ε (StateM σ) Unit} {starts : List α} (walks : ∀ s, walker.Walks (f s) starts) :
    walker.Walks (MonadState.get >>= f) starts := fun s => walks s s

/-- What one round of a loop does, the loop does. -/
theorem Walks.forM {f : β → ExceptT ε (StateM σ) Unit} {starts : β → List α} (each : ∀ b, walker.Walks (f b) (starts b))
    (l : List β) : walker.Walks (l.forM f) (l.flatMap starts) := by
  induction l with
  | nil => exact walks_pure
  | cons b l ih =>
    intro s
    obtain ⟨new, visited, adds, all⟩ := each b s
    rw [forM_cons, runFrom_bind, List.flatMap_cons]
    cases run : runFrom (f b) s with
    | mk r t =>
      rw [run] at visited all
      cases r with
      | error e => exact ⟨new, visited, adds.mono (List.subset_append_left _ _), fun ends => by cases ends⟩
      | ok u =>
        obtain ⟨new', visited', adds', all'⟩ := ih t
        have visited : walker.visited t = walker.visited s ++ new := visited
        rw [visited] at visited' adds' all'
        refine ⟨new ++ new', by rw [visited', List.append_assoc], adds.append adds', fun ends a member => ?_⟩
        rw [← List.append_assoc]
        rcases List.mem_append.mp member with first | later
        · exact List.mem_append_left _ (all rfl a first)
        · exact all' ends a later

/-- What holds behind a computation, whether it ends or fails. -/
def Keeps (p q : σ → Prop) (x : ExceptT ε (StateM σ) Unit) : Prop :=
  ∀ s, p s → ((runFrom x s).1.isOk = true → p (runFrom x s).2) ∧ q (runFrom x s).2

section Keeps
variable {p q : σ → Prop}

theorem keeps_pure (weaker : ∀ s, p s → q s) : Keeps p q (pure () : ExceptT ε (StateM σ) Unit) :=
  fun s holds => ⟨fun _ => holds, weaker s holds⟩

theorem keeps_throw (weaker : ∀ s, p s → q s) (e : ε) : Keeps p q (throw e : ExceptT ε (StateM σ) Unit) :=
  fun s holds => ⟨fun ends => (by cases ends), weaker s holds⟩

theorem Keeps.get {f : σ → ExceptT ε (StateM σ) Unit} (keeps : ∀ s, Keeps p q (f s)) :
    Keeps p q (MonadState.get >>= f) := fun s => keeps s s

theorem Keeps.bind_modify {x : ExceptT ε (StateM σ) Unit} (keeps : Keeps p q x) (weaker : ∀ s, p s → q s) {f : σ → σ}
    (changed : ∀ s, p s → p (f s)) : Keeps p q (x >>= fun _ => modify f) := by
  intro s holds
  have first := keeps s holds
  rw [runFrom_bind]
  cases run : runFrom x s with
  | mk r t =>
    rw [run] at first
    cases r with
    | error e => exact ⟨fun ends => (by cases ends), first.2⟩
    | ok u => exact ⟨fun _ => changed t (first.1 rfl), weaker _ (changed t (first.1 rfl))⟩

theorem Keeps.forM {f : β → ExceptT ε (StateM σ) Unit} (weaker : ∀ s, p s → q s) {l : List β}
    (keeps : ∀ b ∈ l, Keeps p q (f b)) : Keeps p q (l.forM f) := by
  induction l with
  | nil => exact keeps_pure weaker
  | cons b l ih =>
    intro s holds
    have first := keeps b List.mem_cons_self s holds
    rw [forM_cons, runFrom_bind]
    cases run : runFrom (f b) s with
    | mk r t =>
      rw [run] at first
      cases r with
      | error e => exact ⟨fun ends => (by cases ends), first.2⟩
      | ok u => exact ih (fun c member => keeps c (List.mem_cons_of_mem _ member)) t (first.1 rfl)

end Keeps

theorem forM_ends {p : σ → Prop} {f : β → ExceptT ε (StateM σ) Unit} {l : List β}
    (ends : ∀ b ∈ l, ∀ s, p s → ∃ t, runFrom (f b) s = (.ok (), t) ∧ p t) :
    ∀ s, p s → ∃ t, runFrom (l.forM f) s = (.ok (), t) ∧ p t := by
  induction l with
  | nil => exact fun s holds => ⟨s, rfl, holds⟩
  | cons b l ih =>
    intro s holds
    obtain ⟨t, run, kept⟩ := ends b List.mem_cons_self s holds
    rw [forM_cons, runFrom_bind, run]
    exact ih (fun c member => ends c (List.mem_cons_of_mem _ member)) t kept

section Visit
variable [DecidableEq α] {s : σ} {a : α}

theorem visit_of_visited (depth : ℕ) (seen : a ∈ walker.visited s) :
    runFrom (walker.visit (depth + 1) a) s = (.ok (), s) := by
  rw [visit, runFrom_bind, runFrom_get]
  show runFrom (if a ∈ walker.visited s then _ else _) s = _
  rw [if_pos seen]
  exact runFrom_pure _ _

theorem visit_of_fresh (depth : ℕ) (fresh : a ∉ walker.visited s) :
    runFrom (walker.visit (depth + 1) a) s =
      runFrom ((walker.children a).forM (walker.visit depth) >>= fun _ => walker.finish a) s := by
  rw [visit, runFrom_bind, runFrom_get]
  show runFrom (if a ∈ walker.visited s then _ else _) s = _
  rw [if_neg fresh]

/-- The walk from a node, to any depth: it ends only when the node and all it leads to have been visited. -/
theorem walks_visit (finishes : walker.Finishes) (depth : ℕ) (a : α) : walker.Walks (walker.visit depth a) [a] := by
  induction depth generalizing a with
  | zero => exact walks_throw _ _
  | succ depth ih =>
    intro s
    by_cases seen : a ∈ walker.visited s
    · rw [visit_of_visited depth seen]
      refine ⟨[], (List.append_nil _).symm, .nil [a], fun _ b only => ?_⟩
      rw [List.mem_singleton.mp only]
      exact List.mem_append_left _ seen
    obtain ⟨new, visited, adds, all⟩ := Walks.forM ih (walker.children a) s
    rw [List.flatMap_singleton'] at adds all
    rw [visit_of_fresh depth seen, runFrom_bind]
    cases run : runFrom ((walker.children a).forM (walker.visit depth)) s with
    | mk r t =>
      rw [run] at visited all
      have visited : walker.visited t = walker.visited s ++ new := visited
      cases r with
      | error e => exact ⟨new, visited, adds.below seen, fun ends => by cases ends⟩
      | ok u =>
        show ∃ new, walker.visited (runFrom (walker.finish a) t).2 = _ ∧ _ ∧
          ((runFrom (walker.finish a) t).1.isOk = true → _)
        rw [finishes a t, visited]
        cases done : runFrom (walker.finish a) t with
        | mk r' t' =>
          cases r' with
          | error e => exact ⟨new, List.append_nil _, adds.below seen, fun ends => by cases ends⟩
          | ok u' =>
            refine ⟨new ++ [a], List.append_assoc _ _ _, adds.concat seen (all rfl), fun _ b only => ?_⟩
            rw [List.mem_singleton.mp only]
            exact List.mem_append_right _ (List.mem_append_right _ (List.mem_singleton_self a))

/-- What finishing a node keeps, the walk keeps. -/
theorem keeps_visit {p q : σ → Prop} (weaker : ∀ s, p s → q s) (finish : ∀ a, Keeps p q (walker.finish a)) (depth : ℕ)
    (a : α) : Keeps p q (walker.visit depth a) := by
  induction depth generalizing a with
  | zero => exact keeps_throw weaker _
  | succ depth ih =>
    intro s holds
    by_cases seen : a ∈ walker.visited s
    · rw [visit_of_visited depth seen]
      exact ⟨fun _ => holds, weaker s holds⟩
    · have below := Keeps.forM weaker (fun b (_ : b ∈ walker.children a) => ih b) s holds
      rw [visit_of_fresh depth seen, runFrom_bind]
      cases run : runFrom ((walker.children a).forM (walker.visit depth)) s with
      | mk r t =>
        rw [run] at below
        cases r with
        | error e => exact ⟨fun ends => (by cases ends), below.2⟩
        | ok u => exact finish a t (below.1 rfl)

/-- The walk ends where nodes have a rank that is higher than those of their children and less than the depth, and a node
    can be finished in every state that is met. -/
theorem visit_ends {p : σ → Prop} {q : α → Prop}
    (finish : ∀ a s, q a → p s → ∃ t, runFrom (walker.finish a) s = (.ok (), t) ∧ p t)
    {rank : α → ℕ} (down : ∀ a, q a → ∀ b ∈ walker.children a, q b ∧ rank b < rank a) {depth : ℕ} {a : α} (known : q a)
    (shallow : rank a < depth) : ∀ s, p s → ∃ t, runFrom (walker.visit depth a) s = (.ok (), t) ∧ p t := by
  induction depth generalizing a with
  | zero => exact absurd shallow (Nat.not_lt_zero _)
  | succ depth ih =>
    intro s holds
    by_cases seen : a ∈ walker.visited s
    · exact ⟨s, visit_of_visited depth seen, holds⟩
    · rw [visit_of_fresh depth seen, runFrom_bind]
      obtain ⟨t, run, kept⟩ := forM_ends (f := walker.visit depth) (l := walker.children a)
        (fun b child => ih (down a known b child).1 (by have := (down a known b child).2; omega)) s holds
      rw [run]
      exact finish a t known kept

end Visit

end Walker

/-- An order that respects the edges ranks its nodes. -/
theorem Respects.exists_rank [DecidableEq α] {r : α → α → Prop} {order : List α} (respects : Respects r order) :
    ∃ rank : α → ℕ, (∀ a b, r a b → b ∈ order → rank a < rank b) ∧ ∀ a ∈ order, rank a < order.length :=
  ⟨order.idxOf, fun _ _ edge member => respects.idxOf_lt edge member, fun _ member => List.idxOf_lt_length_iff.mpr member⟩

end Graph
