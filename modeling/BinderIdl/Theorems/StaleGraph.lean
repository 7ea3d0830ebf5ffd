import BinderIdl.Interface.GenDeps

/-! What a failed `aidl_gen_deps` leaves of the graph of an earlier call. The build ignores how the call ends and only asks
    whether the file is there. -/

namespace BinderIdl.Interface
open Py

variable {encodes : Text → Bool} {files : DefinitionFiles} {before : Option Text} {lines : List Text}

/-! ### Writing the lines -/

theorem writeLine_run (encodes : Text → Bool) (line : Text) (file : Option Text) :
    runFrom (writeLine encodes line) file =
      if encodes line then (.ok (), some (file.getD [] ++ line)) else (.error (.notEncodable line), some (file.getD [])) := by
  rw [writeLine, runFrom_bind, runFrom_modify]
  cases encodes line with
  | false => rfl
  | true => rfl

theorem writeLines_run (written : ∀ line ∈ lines, encodes line = true) (file : Option Text) :
    runFrom (writeLines encodes lines) file = (.ok (), if lines = [] then file else some (file.getD [] ++ lines.flatten)) := by
  induction lines generalizing file with
  | nil => rfl
  | cons line lines ih =>
    rw [writeLines, runFrom_bind, writeLine_run, if_pos (written line List.mem_cons_self)]
    simp only
    rw [ih fun l member => written l (List.mem_cons_of_mem _ member), if_neg (List.cons_ne_nil _ _)]
    by_cases last : lines = []
    · subst last
      simp
    · rw [if_neg last, List.flatten_cons, Option.getD_some, List.append_assoc]

theorem writeLines_raises (stuck : ∃ line ∈ lines, encodes line = false) (file : Option Text) :
    ∃ e text, runFrom (writeLines encodes lines) file = (.error e, some text) := by
  induction lines generalizing file with
  | nil =>
    obtain ⟨line, member, -⟩ := stuck
    cases member
  | cons line lines ih =>
    rw [writeLines, runFrom_bind, writeLine_run]
    cases first : encodes line with
    | false => exact ⟨_, _, rfl⟩
    | true =>
      obtain ⟨l, member, fails⟩ := stuck
      rcases List.mem_cons.mp member with rfl | later
      · cases first.symm.trans fails
      · exact ih ⟨l, later, fails⟩ _

theorem dependencyLine_ne_nil (targets : Targets) (lib : Text) : dependencyLine targets lib ≠ [] := by
  simp [dependencyLine]

theorem mem_dependencyLines {allLoaded : List AidlInterface} (generated : dependencyLines allLoaded = .ok lines) :
    ∀ line ∈ lines, line ≠ [] := by
  obtain ⟨targets, -, rest⟩ := bind_eq_ok.mp generated
  cases open_ : unresolved? targets with
  | some d =>
    rw [open_] at rest
    cases rest
  | none =>
    rw [open_] at rest
    obtain ⟨libs, -, done⟩ := bind_eq_ok.mp rest
    cases done
    intro line member
    obtain ⟨lib, -, rfl⟩ := List.mem_map.mp member
    exact dependencyLine_ne_nil targets lib

theorem dependenciesFile_flatten (nonempty : ∀ line ∈ lines, line ≠ []) :
    dependenciesFile lines.flatten = if lines = [] then none else some lines.flatten := by
  rw [dependenciesFile]
  refine if_congr ?_ rfl rfl
  rw [List.flatten_eq_nil_iff]
  constructor
  · intro empty
    cases lines with
    | nil => rfl
    | cons line lines => exact absurd (empty line List.mem_cons_self) (nonempty line List.mem_cons_self)
  · rintro rfl line member
    cases member

/-! ### The whole call -/

theorem generateInto_run (encodes : Text → Bool) (allLoaded : List AidlInterface) (before : Option Text) :
    runFrom (generateInto encodes allLoaded) before =
      match dependencyLines allLoaded with
      | .error e => (.error e, none)
      | .ok lines => runFrom (writeLines encodes lines) none := by
  rw [generateInto, runFrom_bind, runFrom_set]
  simp only
  rw [runFrom_bind, runFrom_lift]
  cases dependencyLines allLoaded with
  | error e => rfl
  | ok lines => rfl

theorem aidlGenDeps_run (encodes : Text → Bool) (files : DefinitionFiles) (before : Option Text) :
    runFrom (aidlGenDeps encodes files) before =
      match loadFiles files with
      | .error e => (.error e, before)
      | .ok allLoaded =>
        match runFrom (generateInto encodes allLoaded) before with
        | (.error e, after) => (.error e, after)
        | (.ok (), after) => (if (interfacesOf allLoaded).keys = [] then .error (.fatal []) else .ok (), after) := by
  rw [aidlGenDeps, runFrom_bind, runFrom_lift]
  cases loadFiles files with
  | error e => rfl
  | ok allLoaded =>
    simp only
    rw [runFrom_bind]
    rcases runFrom (generateInto encodes allLoaded) before with ⟨e | u, after⟩
    · rfl
    · by_cases none_ : (interfacesOf allLoaded).keys = []
      · simp only [if_pos none_]
        rfl
      · simp only [if_neg none_]
        rfl

/-- Nothing of an earlier call is taken for the graph: a call that raises leaves no file, and one that ends leaves what it
    generated. -/
structure LeavesNothingStale (encodes : Text → Bool) (files : DefinitionFiles) (before : Option Text) : Prop where
  raised : ∀ e after, runFrom (aidlGenDeps encodes files) before = (.error e, after) → after = none
  ended : ∀ after, runFrom (aidlGenDeps encodes files) before = (.ok (), after) →
    ∃ allLoaded text, loadFiles files = .ok allLoaded ∧ generateLibrariesDependencies allLoaded = .ok text ∧
      after = dependenciesFile text

theorem dependencyLines_of_empty {allLoaded : List AidlInterface} (none_ : (interfacesOf allLoaded).keys = []) :
    dependencyLines allLoaded = .ok [] := by
  have empty : allLoaded = [] := by
    cases allLoaded with
    | nil => rfl
    | cons i rest =>
      have member : i.baseName ∈ (interfacesOf (i :: rest)).keys := Dict.mem_keys_ofPairs.mpr (by simp)
      rw [none_] at member
      cases member
  subst empty
  rfl

/-- A call leaves nothing stale exactly when the definition files are loaded, or there was no file before, and every line
    that it generates can be written. -/
theorem leaves_nothing_stale_iff :
    LeavesNothingStale encodes files before ↔ ((∃ allLoaded, loadFiles files = .ok allLoaded) ∨ before = none) ∧
      ∀ allLoaded lines, loadFiles files = .ok allLoaded → dependencyLines allLoaded = .ok lines →
        ∀ line ∈ lines, encodes line = true := by
  cases loaded : loadFiles files with
  | error e =>
    have run : runFrom (aidlGenDeps encodes files) before = (.error e, before) := by rw [aidlGenDeps_run, loaded]
    constructor
    · intro fresh
      exact ⟨.inr (fresh.raised e before run), fun _ _ h => by cases h⟩
    · rintro ⟨⟨_, h⟩ | rfl, -⟩
      · cases h
      · refine ⟨fun e' after raised => ?_, fun after ended => ?_⟩
        · cases run.symm.trans raised
          rfl
        · cases run.symm.trans ended
  | ok allLoaded =>
    have run := aidlGenDeps_run encodes files before
    rw [loaded] at run
    simp only [generateInto_run] at run
    cases generated : dependencyLines allLoaded with
    | error e =>
      rw [generated] at run
      refine iff_of_true ⟨fun e' after raised => ?_, fun after ended => ?_⟩ ⟨.inl ⟨_, rfl⟩, fun _ _ h h' => ?_⟩
      · cases run.symm.trans raised
        rfl
      · cases run.symm.trans ended
      · cases h
        cases generated.symm.trans h'
    | ok lines =>
      rw [generated] at run
      simp only at run
      by_cases written : ∀ line ∈ lines, encodes line = true
      · rw [writeLines_run written] at run
        simp only [Option.getD_none, List.nil_append] at run
        refine iff_of_true ⟨fun e' after raised => ?_, fun after ended => ?_⟩ ⟨.inl ⟨_, rfl⟩, fun _ _ h h' => ?_⟩
        · have none_ : (interfacesOf allLoaded).keys = [] := by
            by_contra some_
            rw [if_neg some_] at run
            cases run.symm.trans raised
          cases (dependencyLines_of_empty none_).symm.trans generated
          exact (congrArg Prod.snd (run.symm.trans raised)).symm
        · refine ⟨allLoaded, lines.flatten, loaded, ?_, ?_⟩
          · rw [generateLibrariesDependencies_eq, generated]
            rfl
          · rw [dependenciesFile_flatten (mem_dependencyLines generated)]
            exact (congrArg Prod.snd (run.symm.trans ended)).symm
        · cases h
          cases generated.symm.trans h'
          exact written
      · have stuck : ∃ line ∈ lines, encodes line = false := by simpa using written
        obtain ⟨e, text, failed⟩ := writeLines_raises stuck none
        rw [failed] at run
        refine iff_of_false (fun fresh => ?_) fun ⟨_, all⟩ => written (all allLoaded lines rfl generated)
        cases fresh.raised _ _ run

/-! ### An import that cannot be read -/

/-- One interface whose import has no version behind its `@`. -/
def badImport : DefinitionFiles :=
  Dict.ofPairs [("hal/current".toList, some ⟨"hal".toList, ["common@".toList], none, none, none, []⟩)]

/-- The call raises before the old graph is removed. -/
theorem stale_graph_left :
    runFrom (aidlGenDeps (fun _ => true) badImport) (some "old-v1-cpp: \n".toList) =
        (.error (.importSpec "common@".toList), some "old-v1-cpp: \n".toList) ∧
      ¬LeavesNothingStale (fun _ => true) badImport (some "old-v1-cpp: \n".toList) := by
  have run : runFrom (aidlGenDeps (fun _ => true) badImport) (some "old-v1-cpp: \n".toList) =
      (.error (.importSpec "common@".toList), some "old-v1-cpp: \n".toList) := by
    rw [aidlGenDeps_run]
    rfl
  refine ⟨run, fun fresh => ?_⟩
  cases fresh.raised _ _ run

end BinderIdl.Interface
