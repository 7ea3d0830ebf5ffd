import BinderIdl.Py.Text

/-! Python dictionaries: entries with distinct keys in the order of their first insertion. A later
    assignment to a key replaces the value and keeps the place. -/

namespace Py

structure Dict (κ ν : Type) where
  entries : List (κ × ν)
  nodup : (entries.map Prod.fst).Nodup
deriving DecidableEq

namespace Dict
variable {κ ν : Type}

def empty : Dict κ ν := ⟨[], List.nodup_nil⟩

def keys (d : Dict κ ν) : List κ := d.entries.map Prod.fst

@[simp] theorem keys_empty : (empty : Dict κ ν).keys = [] := rfl

theorem nodup_keys (d : Dict κ ν) : d.keys.Nodup := d.nodup

variable [DecidableEq κ]

theorem lookup_cons_eq (k k' : κ) (v : ν) (es : List (κ × ν)) :
    ((k', v) :: es).lookup k = if k = k' then some v else es.lookup k := by
  by_cases h : k = k'
  · simp [h]
  · rw [List.lookup_cons, beq_eq_false_iff_ne.mpr h, if_neg h]

/-- `d.get(k)` -/
def get? (d : Dict κ ν) (k : κ) : Option ν := d.entries.lookup k

def assign (k : κ) (v : ν) : List (κ × ν) → List (κ × ν)
  | [] => [(k, v)]
  | (k', v') :: es => if k' = k then (k', v) :: es else (k', v') :: assign k v es

theorem map_fst_assign (k : κ) (v : ν) (es : List (κ × ν)) :
    (assign k v es).map Prod.fst = if k ∈ es.map Prod.fst then es.map Prod.fst else es.map Prod.fst ++ [k] := by
  induction es with
  | nil => rfl
  | cons e es ih =>
    obtain ⟨k', v'⟩ := e
    rw [assign]
    by_cases hk : k' = k
    · simp [hk]
    · rw [if_neg hk, List.map_cons, ih, List.map_cons]
      have hk' : ¬k = k' := fun h => hk h.symm
      by_cases hm : k ∈ es.map Prod.fst
      · rw [if_pos hm, if_pos (List.mem_cons_of_mem _ hm)]
      · have hcons : k ∉ k' :: es.map Prod.fst := fun h => (List.mem_cons.mp h).elim hk' hm
        rw [if_neg hm, if_neg hcons, List.cons_append]

/-- `d[k] = v` -/
def set (d : Dict κ ν) (k : κ) (v : ν) : Dict κ ν where
  entries := assign k v d.entries
  nodup := by
    rw [map_fst_assign]
    split
    · exact d.nodup
    · rename_i h
      exact List.nodup_append.mpr ⟨d.nodup, List.nodup_singleton k, by
        rintro a ha b hb rfl
        exact h (List.mem_singleton.mp hb ▸ ha)⟩

/-- `del d[k]` -/
def erase (d : Dict κ ν) (k : κ) : Dict κ ν where
  entries := d.entries.filter fun e => e.1 ≠ k
  nodup := d.nodup.sublist (List.filter_sublist.map _)

/-- `{k: v for k, v in ps}`, which is also `dict(ps)`. -/
def ofPairs (ps : List (κ × ν)) : Dict κ ν := ps.foldl (fun d p => d.set p.1 p.2) empty

/-- Python's `==` of dictionaries: the same value under every key, in any order. -/
def Same (d d' : Dict κ ν) : Prop := ∀ k, d.get? k = d'.get? k

/-- Every entry of `d` is one of `d'`. -/
def Sub (d d' : Dict κ ν) : Prop := ∀ k v, d.get? k = some v → d'.get? k = some v

/-! ### Reading back -/

@[simp] theorem get?_empty (k : κ) : (empty : Dict κ ν).get? k = none := rfl

theorem lookup_assign (k : κ) (v : ν) (es : List (κ × ν)) (k' : κ) :
    (assign k v es).lookup k' = if k' = k then some v else es.lookup k' := by
  induction es with
  | nil => rw [assign, lookup_cons_eq]
  | cons e es ih =>
    obtain ⟨a, b⟩ := e
    rw [assign, lookup_cons_eq]
    by_cases ha : a = k
    · rw [if_pos ha, lookup_cons_eq, ha]
      by_cases h : k' = k
      · rw [if_pos h, if_pos h]
      · rw [if_neg h, if_neg h, if_neg h]
    · rw [if_neg ha, lookup_cons_eq, ih]
      by_cases h : k' = a
      · have hk : k' ≠ k := fun e => ha (h ▸ e)
        rw [if_pos h, if_neg hk, if_pos h]
      · rw [if_neg h, if_neg h]

@[simp] theorem get?_set (d : Dict κ ν) (k : κ) (v : ν) (k' : κ) :
    (d.set k v).get? k' = if k' = k then some v else d.get? k' := lookup_assign k v d.entries k'

theorem lookup_filter_ne (k k' : κ) (es : List (κ × ν)) :
    (es.filter fun e => e.1 ≠ k).lookup k' = if k' = k then none else es.lookup k' := by
  induction es with
  | nil => simp
  | cons e es ih =>
    obtain ⟨a, b⟩ := e
    by_cases ha : a = k
    · rw [List.filter_cons_of_neg (by simpa using ha), ih, lookup_cons_eq, ha]
      by_cases h : k' = k
      · rw [if_pos h, if_pos h]
      · rw [if_neg h, if_neg h, if_neg h]
    · rw [List.filter_cons_of_pos (by simpa using ha), lookup_cons_eq, lookup_cons_eq, ih]
      by_cases h : k' = a
      · have hk : k' ≠ k := fun e => ha (h ▸ e)
        rw [if_pos h, if_neg hk, if_pos h]
      · rw [if_neg h, if_neg h]

@[simp] theorem get?_erase (d : Dict κ ν) (k k' : κ) :
    (d.erase k).get? k' = if k' = k then none else d.get? k' := lookup_filter_ne k k' d.entries

theorem assign_assign (k : κ) (v v' : ν) (es : List (κ × ν)) : assign k v' (assign k v es) = assign k v' es := by
  induction es with
  | nil => simp [assign]
  | cons e es ih =>
    rw [assign, assign]
    by_cases h : e.1 = k
    · rw [if_pos h, if_pos h, assign, if_pos h]
    · rw [if_neg h, if_neg h, assign, if_neg h, ih]

@[simp] theorem set_set (d : Dict κ ν) (k : κ) (v v' : ν) : (d.set k v).set k v' = d.set k v' := by
  have h := assign_assign k v v' d.entries
  unfold set
  simp only [h]

theorem assign_of_lookup {k : κ} {v : ν} {es : List (κ × ν)} (found : es.lookup k = some v) : assign k v es = es := by
  induction es with
  | nil => cases found
  | cons e es ih =>
    obtain ⟨k', v'⟩ := e
    rw [lookup_cons_eq] at found
    rw [assign]
    by_cases same : k' = k
    · rw [if_pos same.symm] at found
      rw [if_pos same, Option.some.inj found]
    · rw [if_neg (Ne.symm same)] at found
      rw [if_neg same, ih found]

theorem set_of_get? {d : Dict κ ν} {k : κ} {v : ν} (found : d.get? k = some v) : d.set k v = d := by
  obtain ⟨es, nodup⟩ := d
  simp only [set, assign_of_lookup (show es.lookup k = some v from found)]

theorem keys_set_of_mem {d : Dict κ ν} {k : κ} (member : k ∈ d.keys) (v : ν) : (d.set k v).keys = d.keys := by
  show (assign k v d.entries).map Prod.fst = _
  rw [map_fst_assign]
  exact if_pos member

theorem mem_keys_set {d : Dict κ ν} {k k' : κ} {v : ν} : k' ∈ (d.set k v).keys ↔ k' = k ∨ k' ∈ d.keys := by
  show k' ∈ (assign k v d.entries).map Prod.fst ↔ _
  rw [map_fst_assign]
  by_cases h : k ∈ d.entries.map Prod.fst
  · rw [if_pos h]
    exact ⟨Or.inr, fun h' => h'.elim (fun e => e ▸ h) id⟩
  · rw [if_neg h, List.mem_append, List.mem_singleton]
    exact ⟨fun h' => h'.elim Or.inr Or.inl, fun h' => h'.elim Or.inr Or.inl⟩

theorem lookup_isSome_iff {es : List (κ × ν)} {k : κ} : (es.lookup k).isSome ↔ k ∈ es.map Prod.fst := by
  induction es with
  | nil => simp
  | cons e es ih =>
    obtain ⟨a, b⟩ := e
    rw [lookup_cons_eq, List.map_cons, List.mem_cons]
    by_cases h : k = a
    · simp [h]
    · rw [if_neg h, ih, or_iff_right h]

theorem mem_keys_iff {d : Dict κ ν} {k : κ} : k ∈ d.keys ↔ (d.get? k).isSome := lookup_isSome_iff.symm

theorem mem_keys_of_get? {d : Dict κ ν} {k : κ} {v : ν} (h : d.get? k = some v) : k ∈ d.keys :=
  mem_keys_iff.mpr (by rw [h]; rfl)

theorem get?_eq_none_iff {d : Dict κ ν} {k : κ} : d.get? k = none ↔ k ∉ d.keys := by
  rw [mem_keys_iff]
  cases d.get? k <;> simp

theorem exists_get? {d : Dict κ ν} {k : κ} (h : k ∈ d.keys) : ∃ v, d.get? k = some v :=
  Option.isSome_iff_exists.mp (mem_keys_iff.mp h)

theorem mem_of_lookup {es : List (κ × ν)} {k : κ} {v : ν} (h : es.lookup k = some v) : (k, v) ∈ es := by
  induction es with
  | nil => cases h
  | cons e es ih =>
    obtain ⟨a, b⟩ := e
    rw [lookup_cons_eq] at h
    by_cases hk : k = a
    · rw [if_pos hk] at h
      cases h
      exact hk ▸ List.mem_cons_self
    · rw [if_neg hk] at h
      exact List.mem_cons_of_mem _ (ih h)

theorem mem_entries_of_get? {d : Dict κ ν} {k : κ} {v : ν} (h : d.get? k = some v) : (k, v) ∈ d.entries :=
  mem_of_lookup h

theorem get?_of_mem_entries {d : Dict κ ν} {k : κ} {v : ν} (h : (k, v) ∈ d.entries) : d.get? k = some v := by
  obtain ⟨es, hn⟩ := d
  simp only [get?] at h ⊢
  induction es with
  | nil => cases h
  | cons e es ih =>
    obtain ⟨a, b⟩ := e
    rw [List.map_cons, List.nodup_cons] at hn
    rcases List.mem_cons.mp h with he | hm
    · cases he
      simp
    · have hk : k ≠ a := by
        rintro rfl
        exact hn.1 (List.mem_map.mpr ⟨_, hm, rfl⟩)
      rw [lookup_cons_eq, if_neg hk]
      exact ih hn.2 hm

theorem forall_get?_iff {d : Dict κ ν} {p : κ → ν → Prop} :
    (∀ k v, d.get? k = some v → p k v) ↔ ∀ e ∈ d.entries, p e.1 e.2 :=
  ⟨fun h e he => h e.1 e.2 (get?_of_mem_entries he), fun h k v hk => h (k, v) (mem_entries_of_get? hk)⟩

instance (d : Dict κ ν) (p : κ → ν → Prop) [∀ k v, Decidable (p k v)] :
    Decidable (∀ k v, d.get? k = some v → p k v) :=
  decidable_of_iff _ forall_get?_iff.symm

/-! ### Dictionaries from pairs: the last pair of a key gives its value -/

theorem get?_foldl_set (ps : List (κ × ν)) (d : Dict κ ν) (k : κ) :
    (ps.foldl (fun d p => d.set p.1 p.2) d).get? k = (ps.reverse.lookup k).or (d.get? k) := by
  induction ps generalizing d with
  | nil => rfl
  | cons p ps ih =>
    obtain ⟨a, b⟩ := p
    rw [List.foldl_cons, ih, get?_set, List.reverse_cons, List.lookup_append, lookup_cons_eq]
    by_cases h : k = a <;> cases ps.reverse.lookup k <;> simp [h]

theorem ofPairs_concat (ps : List (κ × ν)) (p : κ × ν) : ofPairs (ps ++ [p]) = (ofPairs ps).set p.1 p.2 :=
  List.foldl_concat _ _ _ _

theorem get?_ofPairs (ps : List (κ × ν)) (k : κ) : (ofPairs ps).get? k = ps.reverse.lookup k := by
  rw [ofPairs, get?_foldl_set, get?_empty, Option.or_none]

theorem mem_of_get?_ofPairs {ps : List (κ × ν)} {k : κ} {v : ν} (h : (ofPairs ps).get? k = some v) : (k, v) ∈ ps := by
  rw [get?_ofPairs] at h
  exact List.mem_reverse.mp (mem_of_lookup h)

theorem mem_keys_ofPairs {ps : List (κ × ν)} {k : κ} : k ∈ (ofPairs ps).keys ↔ k ∈ ps.map Prod.fst := by
  rw [mem_keys_iff, get?_ofPairs, lookup_isSome_iff, List.map_reverse, List.mem_reverse]

/-- Without a key that occurs twice, every pair is an entry. -/
theorem get?_ofPairs_iff {ps : List (κ × ν)} (once : (ps.map Prod.fst).Nodup) {k : κ} {v : ν} :
    (ofPairs ps).get? k = some v ↔ (k, v) ∈ ps := by
  refine ⟨mem_of_get?_ofPairs, fun member => ?_⟩
  obtain ⟨w, found⟩ := exists_get? (mem_keys_ofPairs.mpr (List.mem_map_of_mem (f := Prod.fst) member))
  have same := List.inj_on_of_nodup_map once (mem_of_get?_ofPairs found) member rfl
  rw [found, (Prod.mk.inj same).2]

/-- Without such a key, pairs of the same keys make different dictionaries. -/
theorem ofPairs_inj {ps qs : List (κ × ν)} (keys : ps.map Prod.fst = qs.map Prod.fst) (once : (ps.map Prod.fst).Nodup) :
    ofPairs ps = ofPairs qs ↔ ps = qs := by
  have read : ∀ (d : Dict κ ν) (ps : List (κ × ν)), (∀ p ∈ ps, d.get? p.1 = some p.2) →
      (ps.map Prod.fst).filterMap (fun k => (d.get? k).map (k, ·)) = ps := by
    intro d ps found
    induction ps with
    | nil => rfl
    | cons p ps ih =>
      rw [List.forall_mem_cons] at found
      rw [List.map_cons, List.filterMap_cons, found.1, ih found.2]
      rfl
  refine ⟨fun same => ?_, fun same => by rw [same]⟩
  rw [← read (ofPairs ps) ps fun p member => (get?_ofPairs_iff once).mpr member, keys, same]
  exact read (ofPairs qs) qs fun p member => (get?_ofPairs_iff (keys ▸ once)).mpr member

/-- The value of a key comes from the last element that gives one. -/
theorem get?_ofPairs_last {α : Type} {r : α → α → Prop} {l : List α} {g : α → κ × ν} (order : l.Pairwise r) {k : κ} {v : ν}
    (found : (ofPairs (l.map g)).get? k = some v) :
    ∃ a ∈ l, g a = (k, v) ∧ ∀ b ∈ l, (g b).1 = k → b = a ∨ r b a := by
  induction l using List.reverseRecOn with
  | nil => cases found
  | append_singleton l a ih =>
    obtain ⟨before, -, last⟩ := List.pairwise_append.mp order
    rw [List.map_append, List.map_singleton, ofPairs_concat, get?_set] at found
    by_cases same : k = (g a).1
    · rw [if_pos same] at found
      cases found
      refine ⟨a, by simp, by rw [same], fun b member _ => ?_⟩
      rcases List.mem_append.mp member with member | member
      · exact .inr (last b member a List.mem_cons_self)
      · exact .inl (List.mem_singleton.mp member)
    · rw [if_neg same] at found
      obtain ⟨c, member, pair, latest⟩ := ih before found
      refine ⟨c, List.mem_append_left _ member, pair, fun b among name => ?_⟩
      rcases List.mem_append.mp among with among | among
      · exact latest b among name
      · rw [List.mem_singleton.mp among] at name
        exact absurd name.symm same

theorem entries_foldl_map {ν' : Type} (f : ν → ν') (ps : List (κ × ν)) (d : Dict κ ν) (d' : Dict κ ν')
    (h : d'.entries = d.entries.map fun e => (e.1, f e.2)) :
    ((ps.map fun p => (p.1, f p.2)).foldl (fun d p => d.set p.1 p.2) d').entries =
      (ps.foldl (fun d p => d.set p.1 p.2) d).entries.map fun e => (e.1, f e.2) := by
  have assigned : ∀ (k : κ) (v : ν) (es : List (κ × ν)),
      assign k (f v) (es.map fun e => (e.1, f e.2)) = (assign k v es).map fun e => (e.1, f e.2) := by
    intro k v es
    induction es with
    | nil => rfl
    | cons e es ih =>
      rw [List.map_cons, assign, assign]
      by_cases same : e.1 = k
      · rw [if_pos same, if_pos same, List.map_cons]
      · rw [if_neg same, if_neg same, List.map_cons, ih]
  induction ps generalizing d d' with
  | nil => exact h
  | cons p ps ih =>
    rw [List.map_cons, List.foldl_cons, List.foldl_cons]
    refine ih _ _ ?_
    show assign p.1 (f p.2) d'.entries = (assign p.1 p.2 d.entries).map _
    rw [h, assigned]

theorem entries_ofPairs_map {ν' : Type} (f : ν → ν') (ps : List (κ × ν)) :
    (ofPairs (ps.map fun p => (p.1, f p.2))).entries = (ofPairs ps).entries.map fun e => (e.1, f e.2) :=
  entries_foldl_map f ps empty empty rfl

theorem get?_ofPairs_map {ν' : Type} (f : ν → ν') (ps : List (κ × ν)) (k : κ) :
    (ofPairs (ps.map fun p => (p.1, f p.2))).get? k = ((ofPairs ps).get? k).map f := by
  induction ps using List.reverseRecOn with
  | nil => rfl
  | append_singleton ps p ih =>
    rw [List.map_append, List.map_singleton, ofPairs_concat, ofPairs_concat, get?_set, get?_set, ih]
    by_cases same : k = p.1
    · rw [if_pos same, if_pos same, Option.map_some]
    · rw [if_neg same, if_neg same]

theorem get?_ofPairs_keyed (f : κ → ν) (ks : List κ) (k : κ) :
    (ofPairs (ks.map fun k => (k, f k))).get? k = if k ∈ ks then some (f k) else none := by
  induction ks using List.reverseRecOn with
  | nil => rfl
  | append_singleton ks last ih =>
    rw [List.map_append, List.map_singleton, ofPairs_concat, get?_set, ih]
    by_cases same : k = last
    · subst same
      simp
    · simp [same]

/-! ### Entries of one dictionary copied into another -/

section Copy
variable {κ' ν' : Type} [DecidableEq κ'] {f : κ → κ'} {g : ν → ν'}

theorem get?_foldl_copy (inj : ∀ a b, f a = f b → a = b) (d : Dict κ ν) (t : Dict κ' ν') (k : κ) :
    (d.entries.foldl (fun t e => t.set (f e.1) (g e.2)) t).get? (f k) = ((d.get? k).map g).or (t.get? (f k)) := by
  obtain ⟨es, nodup⟩ := d
  simp only [get?] at *
  induction es generalizing t with
  | nil => rfl
  | cons e es ih =>
    obtain ⟨a, b⟩ := e
    rw [List.map_cons, List.nodup_cons] at nodup
    rw [List.foldl_cons, ih _ nodup.2, lookup_cons_eq]
    show Option.or _ ((t.set (f a) (g b)).get? (f k)) = _
    rw [get?_set]
    by_cases same : k = a
    · subst same
      have missing : es.lookup k = none := by
        rw [← Option.not_isSome_iff_eq_none, lookup_isSome_iff]
        exact nodup.1
      rw [missing, if_pos rfl, if_pos rfl]
      rfl
    · rw [if_neg same, if_neg (fun h => same (inj _ _ h))]
      rfl

omit [DecidableEq κ] in
theorem get?_foldl_copy_other {d : Dict κ ν} {k' : κ'} (other : ∀ k ∈ d.keys, f k ≠ k') (t : Dict κ' ν') :
    (d.entries.foldl (fun t e => t.set (f e.1) (g e.2)) t).get? k' = t.get? k' := by
  obtain ⟨es, nodup⟩ := d
  simp only [keys] at *
  clear nodup
  induction es generalizing t with
  | nil => rfl
  | cons e es ih =>
    rw [List.map_cons] at other
    rw [List.foldl_cons, ih _ (fun k member => other k (List.mem_cons_of_mem _ member)), get?_set,
      if_neg (other e.1 List.mem_cons_self).symm]

end Copy

/-! ### Dictionaries that only grow -/

theorem Sub.refl (d : Dict κ ν) : d.Sub d := fun _ _ h => h

theorem Sub.trans {d d' d'' : Dict κ ν} (h : d.Sub d') (h' : d'.Sub d'') : d.Sub d'' :=
  fun k v hk => h' k v (h k v hk)

theorem Sub.mem_keys {d d' : Dict κ ν} (h : d.Sub d') {k : κ} (hk : k ∈ d.keys) : k ∈ d'.keys := by
  obtain ⟨v, hv⟩ := exists_get? hk
  exact mem_keys_of_get? (h k v hv)

theorem sub_iff_forall_entries {d d' : Dict κ ν} : d.Sub d' ↔ ∀ e ∈ d.entries, d'.get? e.1 = some e.2 :=
  forall_get?_iff

end Dict

end Py
