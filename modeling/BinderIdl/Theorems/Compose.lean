import BinderIdl.Theorems.Verdict

/-! Diffs along a chain of releases. `Kept` is a preorder, growth accumulates along it, and a release that
    has grown cannot be taken back. -/

namespace BinderIdl.Surface
open Py

/-- The order `none < major < breaking`. -/
def DiffClass.rank : DiffClass → Nat
  | .none => 0
  | .major => 1
  | .breaking => 2

/-- The larger of two classes. -/
def DiffClass.sup (c d : DiffClass) : DiffClass := if c.rank ≤ d.rank then d else c

/-! ### One type -/

section OneType
variable {a b c : TypeDecl}

theorem TypeKept.refl (a : TypeDecl) : TypeKept a a where
  kind := rfl
  oneway := rfl
  annotations := fun _ h => h
  promise := fun _ h => Or.inl h
  entries := Dict.Sub.refl _
  lines := Dict.Sub.refl _
  order := List.prefix_rfl
  union := fun _ _ h => List.mem_map_of_mem h

theorem not_typeGrown_self : ¬TypeGrown a a := by
  rintro (⟨x, hx, hn⟩ | ⟨m, hm, hn⟩ | ⟨m, hm, hn⟩)
  · exact hn hx
  · exact hn (List.mem_map_of_mem hm)
  · exact hn (List.mem_map_of_mem hm)

theorem TypeKept.trans (hab : TypeKept a b) (hbc : TypeKept b c) : TypeKept a c := by
  have hk := hab.kind
  refine ⟨hk.trans hbc.kind, hab.oneway.trans hbc.oneway, fun x hx => hbc.annotations x (hab.annotations x hx), ?_,
    hab.entries.trans (hk ▸ hbc.entries), hab.lines.trans (hk ▸ hbc.lines), hab.order.trans (hk ▸ hbc.order), ?_⟩
  · intro x hx
    rcases hbc.promise x hx with hb | hv
    · exact hab.promise x hb
    · exact Or.inr hv
  · intro hu m hm
    have hm' := hbc.union (hk ▸ hu) m (hk ▸ hm)
    rw [← hk] at hm'
    obtain ⟨m', hm', hname⟩ := List.mem_map.mp hm'
    rw [← hname]
    exact hab.union hu m' hm'

theorem TypeKept.entry_names (h : TypeKept b c) {kind : Kind} (hkind : kind = b.kind) {k : Text}
    (hk : k ∈ (entryLines kind b.members).map (lineName kind)) :
    k ∈ (entryLines kind c.members).map (lineName kind) := by
  subst hkind
  exact mem_keys_lineMap.mp (h.entries.mem_keys (mem_keys_lineMap.mpr hk))

theorem TypeKept.line_names (h : TypeKept b c) {kind : Kind} (hkind : kind = b.kind) {k : Text}
    (hk : k ∈ (seqLines kind b.members).map (lineName kind)) :
    k ∈ (seqLines kind c.members).map (lineName kind) := by
  subst hkind
  exact h.order.subset hk

theorem exists_new_trans {f : Text → Text} {as bs cs : List Text} (hab : ∀ k ∈ as.map f, k ∈ bs.map f)
    (hbc : ∀ k ∈ bs.map f, k ∈ cs.map f) :
    (∃ m ∈ cs, f m ∉ as.map f) ↔ (∃ m ∈ bs, f m ∉ as.map f) ∨ ∃ m ∈ cs, f m ∉ bs.map f := by
  constructor
  · rintro ⟨m, hm, hn⟩
    by_cases hb : f m ∈ bs.map f
    · obtain ⟨m', hm', he⟩ := List.mem_map.mp hb
      exact Or.inl ⟨m', hm', he ▸ hn⟩
    · exact Or.inr ⟨m, hm, hb⟩
  · rintro (⟨m, hm, hn⟩ | ⟨m, hm, hn⟩)
    · obtain ⟨m', hm', he⟩ := List.mem_map.mp (hbc (f m) (List.mem_map_of_mem hm))
      exact ⟨m', hm', he ▸ hn⟩
    · exact ⟨m, hm, fun ha => hn (hab _ ha)⟩

theorem typeGrown_trans (hab : TypeKept a b) (hbc : TypeKept b c) :
    TypeGrown a c ↔ TypeGrown a b ∨ TypeGrown b c := by
  have hann : (∃ x ∈ c.annotations, x ∉ a.annotations) ↔
      (∃ x ∈ b.annotations, x ∉ a.annotations) ∨ ∃ x ∈ c.annotations, x ∉ b.annotations := by
    have h := exists_new_trans (f := id) (by simpa using hab.annotations) (by simpa using hbc.annotations)
    simpa only [List.map_id, id_eq] using h
  have hentry := exists_new_trans (fun _ => hab.entry_names rfl) (fun _ => hbc.entry_names hab.kind)
  have hline := exists_new_trans (fun _ => hab.line_names rfl) (fun _ => hbc.line_names hab.kind)
  unfold TypeGrown
  rw [hann, hentry, hline, ← hab.kind]
  exact (or_congr_right or_or_or_comm).trans or_or_or_comm

theorem not_typeKept_of_typeGrown (h : TypeKept a b) (hg : TypeGrown a b) : ¬TypeKept b a := by
  intro hba
  rcases hg with ⟨x, hx, hn⟩ | ⟨m, hm, hn⟩ | ⟨m, hm, hn⟩
  · exact hn (hba.annotations x hx)
  · exact hn (hba.entry_names h.kind (List.mem_map_of_mem hm))
  · exact hn (hba.line_names h.kind (List.mem_map_of_mem hm))

end OneType

/-! ### Sets of types -/

section Types
variable {a b c : Types}

theorem Kept.refl (a : Types) : Kept a a := fun _ t ht => ⟨t, ht, TypeKept.refl t⟩

theorem not_grown_self : ¬Grown a a := by
  rintro (⟨q, n, ho, hn⟩ | ⟨q, o, n, ho, hn, hg⟩)
  · rw [ho] at hn
    cases hn
  · rw [ho] at hn
    cases hn
    exact not_typeGrown_self hg

theorem Kept.trans (hab : Kept a b) (hbc : Kept b c) : Kept a c := by
  intro q t ht
  obtain ⟨u, hu, htu⟩ := hab q t ht
  obtain ⟨v, hv, huv⟩ := hbc q u hu
  exact ⟨v, hv, htu.trans huv⟩

theorem grown_trans (hab : Kept a b) (hbc : Kept b c) : Grown a c ↔ Grown a b ∨ Grown b c := by
  constructor
  · rintro (⟨q, v, ht, hv⟩ | ⟨q, t, v, ht, hv, hg⟩)
    · cases hu : b.get? q with
      | none => exact Or.inr (Or.inl ⟨q, v, hu, hv⟩)
      | some u => exact Or.inl (Or.inl ⟨q, u, ht, hu⟩)
    · obtain ⟨u, hu, htu⟩ := hab q t ht
      obtain ⟨v', hv', huv⟩ := hbc q u hu
      cases hv.symm.trans hv'
      rcases (typeGrown_trans htu huv).mp hg with hg | hg
      · exact Or.inl (Or.inr ⟨q, t, u, ht, hu, hg⟩)
      · exact Or.inr (Or.inr ⟨q, u, v, hu, hv, hg⟩)
  · rintro ((⟨q, u, ht, hu⟩ | ⟨q, t, u, ht, hu, hg⟩) | (⟨q, v, hu, hv⟩ | ⟨q, u, v, hu, hv, hg⟩))
    · obtain ⟨v, hv, -⟩ := hbc q u hu
      exact Or.inl ⟨q, v, ht, hv⟩
    · obtain ⟨v, hv, huv⟩ := hbc q u hu
      obtain ⟨u', hu', htu⟩ := hab q t ht
      cases hu.symm.trans hu'
      exact Or.inr ⟨q, t, v, ht, hv, (typeGrown_trans htu huv).mpr (Or.inl hg)⟩
    · cases ht : a.get? q with
      | none => exact Or.inl ⟨q, v, ht, hv⟩
      | some t =>
        obtain ⟨u, hu', -⟩ := hab q t ht
        rw [hu] at hu'
        cases hu'
    · cases ht : a.get? q with
      | none => exact Or.inl ⟨q, v, ht, hv⟩
      | some t =>
        obtain ⟨u', hu', htu⟩ := hab q t ht
        obtain ⟨v', hv', huv⟩ := hbc q u hu
        cases hu.symm.trans hu'
        cases hv.symm.trans hv'
        exact Or.inr ⟨q, t, v, ht, hv, (typeGrown_trans htu huv).mpr (Or.inr hg)⟩

theorem not_kept_of_grown (h : Kept a b) (hg : Grown a b) : ¬Kept b a := by
  intro hba
  rcases hg with ⟨q, n, ho, hn⟩ | ⟨q, o, n, ho, hn, hg⟩
  · obtain ⟨o, ho', -⟩ := hba q n hn
    rw [ho] at ho'
    cases ho'
  · obtain ⟨n', hn', hk⟩ := h q o ho
    cases hn.symm.trans hn'
    obtain ⟨o', ho', hk'⟩ := hba q n hn
    cases ho.symm.trans ho'
    exact not_typeKept_of_typeGrown hk hg hk'

/-! ### Diffs that end -/

theorem Comparable.trans (h : Comparable a b) (h' : Comparable b c) (hk : Kept a b) : Comparable a c := by
  intro q t v ht hv
  obtain ⟨u, hu, htu⟩ := hk q t ht
  refine ⟨(h q t u ht hu).1, ?_⟩
  rw [htu.kind]
  exact (h' q u v hu hv).2

theorem Comparable.symm (h : Comparable a b) (hk : Kept a b) : Comparable b a := by
  intro q u t hu ht
  obtain ⟨u', hu', htu⟩ := hk q t ht
  cases hu.symm.trans hu'
  rw [← htu.kind]
  exact (h q t u ht hu).symm

theorem diffTypes_of_comparable (h : Comparable a b) : ∃ r, diffTypes a b = .ok r :=
  ⟨_, diffTypes_eq_ok.mpr ⟨h, rfl⟩⟩

theorem Report.kept {r : Report} (h : diffTypes a b = .ok r) (hr : r.cls ≠ .breaking) : Kept a b :=
  not_not.mp ((diffTypes_cls h).1.not.mp hr)

theorem Report.cls_eq {r : Report} (h : diffTypes a b = .ok r) (hk : Kept a b) :
    (Grown a b ∧ r.cls = .major) ∨ (¬Grown a b ∧ r.cls = .none) := by
  by_cases hg : Grown a b
  · exact Or.inl ⟨hg, (diffTypes_cls h).2.1.mpr ⟨hk, hg⟩⟩
  · exact Or.inr ⟨hg, (diffTypes_cls h).2.2.mpr ⟨hk, hg⟩⟩

theorem diffTypes_self {r : Report} (h : diffTypes a a = .ok r) : r = ⟨.none, []⟩ := by
  have hcls := (diffTypes_cls h).2.2.mpr ⟨Kept.refl a, not_grown_self⟩
  have hchanges := diffTypes_changes_eq_nil h hcls
  cases r
  cases hcls
  cases hchanges
  rfl

theorem diffTypes_trans {r s : Report} (hab : diffTypes a b = .ok r) (hbc : diffTypes b c = .ok s)
    (hr : r.cls ≠ .breaking) (hs : s.cls ≠ .breaking) :
    ∃ t, diffTypes a c = .ok t ∧ t.cls = r.cls.sup s.cls := by
  have hkab := Report.kept hab hr
  have hkbc := Report.kept hbc hs
  obtain ⟨t, ht⟩ := diffTypes_of_comparable
    ((diffTypes_eq_ok.mp hab).1.trans (diffTypes_eq_ok.mp hbc).1 hkab)
  refine ⟨t, ht, ?_⟩
  have hg := grown_trans hkab hkbc
  rcases Report.cls_eq hab hkab with ⟨h₁, h₁'⟩ | ⟨h₁, h₁'⟩ <;>
    rcases Report.cls_eq hbc hkbc with ⟨h₂, h₂'⟩ | ⟨h₂, h₂'⟩ <;>
      rcases Report.cls_eq ht (hkab.trans hkbc) with ⟨h₃, h₃'⟩ | ⟨h₃, h₃'⟩ <;>
        simp_all [DiffClass.sup, DiffClass.rank]

theorem diffTypes_back {r : Report} (hab : diffTypes a b = .ok r) (hr : r.cls = .major) :
    ∃ s, diffTypes b a = .ok s ∧ s.cls = .breaking := by
  obtain ⟨hk, hg⟩ := (diffTypes_cls hab).2.1.mp hr
  obtain ⟨s, hs⟩ := diffTypes_of_comparable ((diffTypes_eq_ok.mp hab).1.symm hk)
  exact ⟨s, hs, (diffTypes_cls hs).1.mpr (not_kept_of_grown hk hg)⟩

end Types

/-! ### Dump texts -/

theorem diffSurface_eq_ok {old new : Text} {r : Report} :
    diffSurface old new = .ok r ↔
      ∃ a b, parseDump old = .ok a ∧ parseDump new = .ok b ∧ diffTypes a b = .ok r := by
  simp only [diffSurface, bind_eq_ok]
  exact ⟨fun ⟨a, ha, b, hb, h⟩ => ⟨a, b, ha, hb, h⟩, fun ⟨a, b, ha, hb, h⟩ => ⟨a, ha, b, hb, h⟩⟩

/-- Diffs compose along a chain of dumps: a dump does not differ from itself, two steps that break nothing
    make one step of the larger class, and a step that adds something cannot be undone without a break. The
    names of the member lines need not be distinct. -/
theorem diffSurface_compose (a b c : Text) :
    (∀ r, diffSurface a a = .ok r → r = ⟨.none, []⟩) ∧
    (∀ r s, diffSurface a b = .ok r → diffSurface b c = .ok s → r.cls ≠ .breaking → s.cls ≠ .breaking →
      ∃ t, diffSurface a c = .ok t ∧ t.cls = r.cls.sup s.cls) ∧
    (∀ r, diffSurface a b = .ok r → r.cls = .major → ∃ s, diffSurface b a = .ok s ∧ s.cls = .breaking) := by
  refine ⟨fun r h => ?_, fun r s hab hbc hr hs => ?_, fun r h hr => ?_⟩
  · obtain ⟨ta, ta', ha, ha', h⟩ := diffSurface_eq_ok.mp h
    cases ha.symm.trans ha'
    exact diffTypes_self h
  · obtain ⟨ta, tb, ha, hb, hab⟩ := diffSurface_eq_ok.mp hab
    obtain ⟨tb', tc, hb', hc, hbc⟩ := diffSurface_eq_ok.mp hbc
    cases hb.symm.trans hb'
    obtain ⟨t, ht, hcls⟩ := diffTypes_trans hab hbc hr hs
    exact ⟨t, diffSurface_eq_ok.mpr ⟨ta, tc, ha, hc, ht⟩, hcls⟩
  · obtain ⟨ta, tb, ha, hb, hab⟩ := diffSurface_eq_ok.mp h
    obtain ⟨s, hs, hcls⟩ := diffTypes_back hab hr
    exact ⟨s, diffSurface_eq_ok.mpr ⟨tb, ta, hb, ha, hs⟩, hcls⟩

/-- Three releases of an interface: a method is added, then the promise of stability. -/
theorem diffSurface_compose_three :
    let a := "interface p.I\n    void f()\n".toList
    let b := "interface p.I\n    void f()\n    int g(in int x)\n".toList
    let c := "@VintfStability interface p.I\n    void f()\n    int g(in int x)\n".toList
    (∃ t, diffSurface a c = .ok t ∧ t.cls = .major) ∧ (∃ s, diffSurface b a = .ok s ∧ s.cls = .breaking) ∧
      ∀ r, diffSurface a a = .ok r → r.changes = [] := by
  intro a b c
  have hab : diffSurface a b = .ok ⟨.major,
      [⟨.method, .added, "interface p.I".toList, "int g(in int x)".toList, none, none⟩]⟩ := by decide +kernel
  have hbc : diffSurface b c = .ok ⟨.major,
      [⟨.annotations, .added, "interface p.I".toList, "@VintfStability".toList, none, none⟩]⟩ := by decide +kernel
  obtain ⟨hself, htrans, hback⟩ := diffSurface_compose a b c
  exact ⟨htrans _ _ hab hbc (by decide) (by decide), hback _ hab rfl, fun r hr => by rw [hself r hr]⟩

end BinderIdl.Surface
