import BinderIdl.Graph.Visits
import BinderIdl.Interface.Libraries
import BinderIdl.Theorems.DependencyFile

/-! The libraries that a configuration adds: what its calls ask for and all that this needs, each once and behind its
    dependencies, whatever the order of the calls. -/

namespace BinderIdl.Interface
open Py Graph Relation

variable (settings : BuildSettings)

/-! ### One library -/

/-- The state behind the command that generates the sources of a target. -/
def regenerated (target : Text) (s : BuildState) : BuildState :=
  { s with
    files := (settings.aidlOps (interfaceName target) (interfaceVersionArg target) s.files).1
    commands := s.commands ++ [(interfaceName target, interfaceVersionArg target)] }

/-- The state in which the sources of a target are taken. -/
def sourced (target : Text) (s : BuildState) : BuildState :=
  if addInterfaceLibraryGenerates target (s.files (sourceDir settings target)) then regenerated settings target s else s

theorem runAidlOps_run (target : Text) (s : BuildState) :
    runFrom (runAidlOps settings target) s =
      (if (settings.aidlOps (interfaceName target) (interfaceVersionArg target) s.files).2 ≠ 0 then
        .error (.generationFailed (interfaceName target)) else .ok (), regenerated settings target s) := by
  rw [runAidlOps, runFrom_bind, runFrom_get]
  simp only [runFrom_bind, runFrom_set]
  split <;> rfl

/-- The `.cpp` files below the source directory of a target. -/
def cppFiles (files : FileSystem) (target : Text) : List Text := filesEnding ".cpp".toList (files (sourceDir settings target))

theorem globSources_run (target : Text) (s : BuildState) :
    runFrom (globSources settings target) s = (.ok (cppFiles settings s.files target), s) := by
  rw [globSources, runFrom_bind, runFrom_get]
  rfl

/-- The files once the sources of a target are up to date. -/
def sourcedFiles (files : FileSystem) (target : Text) : FileSystem :=
  if addInterfaceLibraryGenerates target (files (sourceDir settings target)) then
    (settings.aidlOps (interfaceName target) (interfaceVersionArg target) files).1
  else files

theorem sourced_files (target : Text) (s : BuildState) :
    (sourced settings target s).files = sourcedFiles settings s.files target := by
  rw [sourced, sourcedFiles]
  split <;> rfl

/-- The sources of a target are the `.cpp` files below its source directory once they are up to date. Where the command
    writes none for a current version, they are those that were there. -/
structure TakenFrom (files : FileSystem) (target : Text) (sources : List Text) : Prop where
  some : sources ≠ []
  found : sources = cppFiles settings (sourcedFiles settings files target) target ∨
    interfaceVersion target = currentVersion ∧ cppFiles settings (sourcedFiles settings files target) target = [] ∧
      sources = cppFiles settings files target

/-- The command that generates the sources of a target is run and does not do so. -/
def GenerationFails (files : FileSystem) (target : Text) : Prop :=
  addInterfaceLibraryGenerates target (files (sourceDir settings target)) = true ∧
    ((settings.aidlOps (interfaceName target) (interfaceVersionArg target) files).2 ≠ 0 ∨
      cppFiles settings (sourcedFiles settings files target) target = [])

theorem regenerate_run {target : Text} {s : BuildState}
    (runs : addInterfaceLibraryGenerates target (s.files (sourceDir settings target)) = true)
    (f : List Text → Configuring (List Text)) :
    runFrom (runAidlOps settings target >>= fun _ => globSources settings target >>= f) s =
      if (settings.aidlOps (interfaceName target) (interfaceVersionArg target) s.files).2 ≠ 0 then
        (.error (.generationFailed (interfaceName target)), sourced settings target s)
      else runFrom (f (cppFiles settings (sourcedFiles settings s.files target) target)) (sourced settings target s) := by
  have generates : sourced settings target s = regenerated settings target s := if_pos runs
  rw [runFrom_bind, runAidlOps_run, ← generates, ← sourced_files]
  by_cases failed : (settings.aidlOps (interfaceName target) (interfaceVersionArg target) s.files).2 ≠ 0
  · rw [if_pos failed, if_pos failed]
  · rw [if_neg failed, if_neg failed]
    dsimp only
    rw [runFrom_bind, globSources_run]

/-- Sources are taken unless they are to be generated and are not. -/
theorem sourceFiles_cases (target : Text) (s : BuildState) :
    (∃ sources, TakenFrom settings s.files target sources ∧
      runFrom (sourceFiles settings target) s = (.ok sources, sourced settings target s)) ∨
      GenerationFails settings s.files target ∧
        ∃ e, runFrom (sourceFiles settings target) s = (.error e, sourced settings target s) := by
  rw [sourceFiles, runFrom_bind, globSources_run]
  dsimp only
  by_cases runs : addInterfaceLibraryGenerates target (s.files (sourceDir settings target)) = true
  · by_cases current : interfaceVersion target = currentVersion
    · rw [if_pos current, regenerate_run settings runs]
      by_cases failed : (settings.aidlOps (interfaceName target) (interfaceVersionArg target) s.files).2 ≠ 0
      · rw [if_pos failed]
        exact .inr ⟨⟨runs, .inl failed⟩, _, rfl⟩
      rw [if_neg failed]
      by_cases produced : cppFiles settings (sourcedFiles settings s.files target) target ≠ []
      · rw [if_pos produced]
        exact .inl ⟨_, ⟨produced, .inl rfl⟩, rfl⟩
      have empty := not_not.mp produced
      rw [if_neg produced]
      by_cases existing : cppFiles settings s.files target ≠ []
      · rw [if_pos existing]
        exact .inl ⟨_, ⟨existing, .inr ⟨current, empty, rfl⟩⟩, rfl⟩
      · rw [if_neg existing]
        exact .inr ⟨⟨runs, .inr empty⟩, _, rfl⟩
    · have none : cppFiles settings s.files target = [] := by
        rw [addInterfaceLibraryGenerates, Bool.or_eq_true, beq_iff_eq, List.isEmpty_iff] at runs
        exact runs.resolve_left current
      rw [if_neg current, if_pos none, regenerate_run settings runs]
      by_cases failed : (settings.aidlOps (interfaceName target) (interfaceVersionArg target) s.files).2 ≠ 0
      · rw [if_pos failed]
        exact .inr ⟨⟨runs, .inl failed⟩, _, rfl⟩
      rw [if_neg failed]
      by_cases empty : cppFiles settings (sourcedFiles settings s.files target) target = []
      · rw [if_pos empty]
        exact .inr ⟨⟨runs, .inr empty⟩, _, rfl⟩
      · rw [if_neg empty]
        exact .inl ⟨_, ⟨empty, .inl rfl⟩, rfl⟩
  · have kept : sourcedFiles settings s.files target = s.files := if_neg runs
    have still : sourced settings target s = s := if_neg runs
    rw [addInterfaceLibraryGenerates, Bool.or_eq_true, beq_iff_eq, List.isEmpty_iff, not_or] at runs
    have some : cppFiles settings s.files target ≠ [] := runs.2
    rw [still, if_neg runs.1, if_neg some]
    exact .inl ⟨_, ⟨some, .inl (by rw [kept])⟩, rfl⟩

/-- What is recorded of a target with these sources. -/
def libraryOf (target : Text) (sources : List Text) : Library :=
  ⟨target, sources, includeDir settings target, targetDeps settings target ++ ["binder".toList, "utils".toList]⟩

theorem sourced_libraries (target : Text) (s : BuildState) : (sourced settings target s).libraries = s.libraries := by
  rw [sourced]
  split <;> rfl

/-- A library is added with its sources, or there are none. -/
theorem addLibrary_cases (target : Text) (s : BuildState) :
    (∃ sources, TakenFrom settings s.files target sources ∧ runFrom (addLibrary settings target) s =
      (.ok (), { sourced settings target s with libraries := s.libraries ++ [libraryOf settings target sources] })) ∨
      GenerationFails settings s.files target ∧
        ∃ e, runFrom (addLibrary settings target) s = (.error e, sourced settings target s) := by
  rcases sourceFiles_cases settings target s with ⟨sources, taken, run⟩ | ⟨fails, e, run⟩
  · refine .inl ⟨sources, taken, ?_⟩
    rw [addLibrary, runFrom_bind, run, ← sourced_libraries settings target s]
    rfl
  · exact .inr ⟨fails, e, by rw [addLibrary, runFrom_bind, run]⟩

/-! ### The walk over the dependencies -/

def libraryWalker : Walker BuildError BuildState Text :=
  ⟨targetDeps settings, existingTargets settings, addLibrary settings, .recursionDepth⟩

theorem addInterfaceLibrary_eq (depth : ℕ) : addInterfaceLibrary settings depth = (libraryWalker settings).visit depth := by
  induction depth with
  | zero => rfl
  | succ depth ih =>
    funext target
    rw [addInterfaceLibrary, ih, Walker.visit]
    refine congrArg (get >>= ·) (funext fun s => ?_)
    by_cases seen : target ∈ existingTargets settings s
    · exact (if_pos seen).trans (if_pos seen).symm
    · exact (if_neg seen).trans (if_neg seen).symm

theorem finishes_libraryWalker : (libraryWalker settings).Finishes := by
  intro target s
  show existingTargets settings (runFrom (addLibrary settings target) s).2 = existingTargets settings s ++ _
  rcases addLibrary_cases settings target s with ⟨sources, -, run⟩ | ⟨-, e, run⟩
  · show _ = _ ++ if (runFrom (addLibrary settings target) s).1.isOk then _ else _
    rw [run, existingTargets, List.map_append, ← List.append_assoc]
    rfl
  · show _ = _ ++ if (runFrom (addLibrary settings target) s).1.isOk then _ else _
    rw [run, existingTargets, sourced_libraries]
    exact (List.append_nil _).symm

/-! ### What is asked for -/

/-- The interface libraries that a call asks for. -/
def BuildCommand.asksFor : BuildCommand → List Text
  | .link _ libs => libs.filter (· ∈ aidlTargets settings)
  | .build version target =>
    okOr [] (chosenTargets (aidlTargets settings) (version.getD allTargets) (target.getD allTargets))

theorem walks_addInterfaceLibrary (target : Text) :
    (libraryWalker settings).Walks (addInterfaceLibrary settings settings.recursionDepth target) [target] := by
  rw [addInterfaceLibrary_eq]
  exact Walker.walks_visit (finishes_libraryWalker settings) _ target

theorem walks_linkInterfaceLibrary (target lib : Text) :
    (libraryWalker settings).Walks (linkInterfaceLibrary settings target lib)
      (if lib ∈ aidlTargets settings then [lib] else []) := by
  by_cases known : lib ∈ aidlTargets settings
  · rw [linkInterfaceLibrary, if_pos known, if_pos known]
    exact Walker.Walks.quiet (walks_addInterfaceLibrary settings lib) fun s => rfl
  · rw [linkInterfaceLibrary, if_neg known, if_neg known]
    exact Walker.walks_pure

theorem flatMap_ite {α : Type} (p : α → Prop) [DecidablePred p] (l : List α) :
    l.flatMap (fun a => if p a then [a] else []) = l.filter fun a => p a := by
  induction l with
  | nil => rfl
  | cons a l ih =>
    rw [List.flatMap_cons, ih, List.filter_cons]
    by_cases holds : p a <;> simp [holds]

/-- Each call walks from what it asks for. -/
theorem walks_run (command : BuildCommand) :
    (libraryWalker settings).Walks (command.run settings) (command.asksFor settings) := by
  cases command with
  | link target libs =>
    have rounds := Walker.Walks.forM (walks_linkInterfaceLibrary settings target) libs
    rw [flatMap_ite] at rounds
    refine Walker.Walks.get fun s => ?_
    by_cases known : target ∈ existingTargets settings s
    · rw [if_pos known]
      exact rounds
    · rw [if_neg known]
      exact Walker.walks_throw _ _
  | build version target =>
    rw [BuildCommand.run, targetBuildInterfacesLibraries, BuildCommand.asksFor]
    cases chosenTargets (aidlTargets settings) (version.getD allTargets) (target.getD allTargets) with
    | error e => exact Walker.walks_throw e _
    | ok targets =>
      have rounds := Walker.Walks.forM (walks_addInterfaceLibrary settings) targets
      rwa [List.flatMap_singleton'] at rounds

theorem walks_configure (commands : List BuildCommand) :
    (libraryWalker settings).Walks (configure settings commands) (commands.flatMap (BuildCommand.asksFor settings)) :=
  Walker.Walks.forM (walks_run settings) commands

/-! ### What is kept -/

section Keeps
variable {settings} {p q : BuildState → Prop}

/-- What the adding of a library keeps, and the linking of targets of the project, a configuration keeps. -/
theorem keeps_configure (weaker : ∀ s, p s → q s) (finish : ∀ target, Walker.Keeps p q (addLibrary settings target))
    (linking : ∀ s linked, p s → p { s with linked := linked }) (commands : List BuildCommand) :
    Walker.Keeps p q (configure settings commands) := by
  have add : ∀ target, Walker.Keeps p q (addInterfaceLibrary settings settings.recursionDepth target) := fun target => by
    rw [addInterfaceLibrary_eq]
    exact Walker.keeps_visit weaker finish _ target
  refine Walker.Keeps.forM weaker fun command _ => ?_
  cases command with
  | link target libs =>
    refine Walker.Keeps.get fun s => ?_
    by_cases known : target ∈ existingTargets settings s
    · rw [if_pos known]
      refine Walker.Keeps.forM weaker fun lib _ => ?_
      by_cases listed : lib ∈ aidlTargets settings
      · rw [linkInterfaceLibrary, if_pos listed]
        exact (add lib).bind_modify weaker fun s => linking s _
      · rw [linkInterfaceLibrary, if_neg listed]
        exact Walker.keeps_pure weaker
    · rw [if_neg known]
      exact Walker.keeps_throw weaker _
  | build version target =>
    rw [BuildCommand.run, targetBuildInterfacesLibraries]
    cases chosenTargets (aidlTargets settings) (version.getD allTargets) (target.getD allTargets) with
    | error e => exact Walker.keeps_throw weaker e
    | ok targets => exact Walker.Keeps.forM weaker fun target _ => add target

end Keeps

/-! ### What is added -/

/-- The files once these libraries have been added. -/
def filesBehind (files : FileSystem) (targets : List Text) : FileSystem := targets.foldl (sourcedFiles settings) files

/-- A library is recorded with its sources, from the files that are there when it is added, and with all else that belongs
    to it. -/
structure Library.Whole (files : FileSystem) (lib : Library) : Prop where
  sources : TakenFrom settings files lib.target lib.sources
  recorded : lib = libraryOf settings lib.target lib.sources

/-- Each library is whole, from the files behind the libraries that stand before it. -/
def AllWhole (files : FileSystem) (libraries : List Library) : Prop :=
  ∀ before lib after, libraries = before ++ lib :: after →
    lib.Whole settings (filesBehind settings files (before.map Library.target))

/-- What a configuration that was asked for some libraries leaves of these files, wherever it stops. -/
structure Assembled (files : FileSystem) (asked : List Text) (t : BuildState) : Prop where
  once : (t.libraries.map Library.target).Nodup
  needed : ∀ lib ∈ t.libraries, lib.target ∉ settings.projectTargets ∧
    ∃ target ∈ asked, ReflTransGen (Edge (targetDeps settings) settings.projectTargets) target lib.target
  depsFirst : ∀ before lib after, t.libraries = before ++ lib :: after →
    ∀ dep ∈ targetDeps settings lib.target, dep ∈ settings.projectTargets ++ before.map Library.target
  whole : AllWhole settings files t.libraries

variable {settings} in
theorem AllWhole.concat {files : FileSystem} {libraries : List Library} (all : AllWhole settings files libraries)
    {lib : Library} (whole : lib.Whole settings (filesBehind settings files (libraries.map Library.target))) :
    AllWhole settings files (libraries ++ [lib]) := by
  intro before other after split
  rcases List.eq_nil_or_concat' after with rfl | ⟨after, last, rfl⟩
  · obtain ⟨rfl, same⟩ := List.append_inj' split rfl
    cases same
    exact whole
  · rw [← List.cons_append, ← List.append_assoc] at split
    obtain ⟨rfl, -⟩ := List.append_inj' split rfl
    exact all before other after rfl

/-- The files are always those that the added libraries leave, but for a last command that failed. -/
theorem whole_configure (files : FileSystem) (commands : List BuildCommand) :
    Walker.Keeps
      (fun s => s.files = filesBehind settings files (s.libraries.map Library.target) ∧ AllWhole settings files s.libraries)
      (fun s => AllWhole settings files s.libraries) (configure settings commands) := by
  refine keeps_configure (fun s kept => kept.2) (fun target s kept => ?_) (fun _ _ => id) commands
  obtain ⟨behind, all⟩ := kept
  rcases addLibrary_cases settings target s with ⟨sources, taken, run⟩ | ⟨-, e, run⟩
  · have whole : AllWhole settings files (s.libraries ++ [libraryOf settings target sources]) :=
      all.concat ⟨behind ▸ taken, rfl⟩
    rw [run]
    refine ⟨fun _ => ⟨?_, whole⟩, whole⟩
    show (sourced settings target s).files = filesBehind settings files ((s.libraries ++ [_]).map Library.target)
    rw [sourced_files, behind, List.map_append, filesBehind, filesBehind, List.foldl_append]
    rfl
  · rw [run]
    have same := sourced_libraries settings target s
    exact ⟨fun ends => (by cases ends), by rwa [same]⟩

/-- A configuration adds each library once, behind its dependencies and with its sources; where it ends, just those that
    its calls ask for and all that these need. -/
theorem configure_assembles (files : FileSystem) (ran : List (Text × Option Text)) (commands : List BuildCommand) :
    let out := runFrom (configure settings commands) (freshBuild files ran)
    let asked := commands.flatMap (BuildCommand.asksFor settings)
    Assembled settings files asked out.2 ∧ (out.1.isOk = true → ∀ target,
      target ∈ out.2.libraries.map Library.target ↔ target ∉ settings.projectTargets ∧
        ∃ start ∈ asked, ReflTransGen (Edge (targetDeps settings) settings.projectTargets) start target) := by
  intro out asked
  obtain ⟨new, visited, adds, all⟩ := walks_configure settings commands (freshBuild files ran)
  have start : existingTargets settings (freshBuild files ran) = settings.projectTargets := List.append_nil _
  have visited : existingTargets settings out.2 = existingTargets settings (freshBuild files ran) ++ new := visited
  have adds : Adds (targetDeps settings) (existingTargets settings (freshBuild files ran)) new asked := adds
  rw [start] at adds visited
  have names : out.2.libraries.map Library.target = new := List.append_cancel_left visited
  refine ⟨⟨by rw [names]; exact adds.nodup, fun lib member => ?_, fun before lib after split => ?_, ?_⟩, fun ends => ?_⟩
  · have inNew : lib.target ∈ new := by
      rw [← names]
      exact List.mem_map_of_mem member
    exact ⟨adds.fresh _ inNew, adds.reached _ inNew⟩
  · refine adds.behind (before.map Library.target) lib.target (after.map Library.target) ?_
    rw [← names, split, List.map_append, List.map_cons]
  · refine (whole_configure settings files commands (freshBuild files ran) ⟨rfl, fun before lib after split => ?_⟩).2
    exact absurd split (List.append_ne_nil_of_right_ne_nil _ (List.cons_ne_nil _ _)).symm
  · intro target
    rw [names]
    refine adds.mem_iff fun a member => ?_
    have known := all ends a member
    rwa [show (libraryWalker settings).visited (freshBuild files ran) = settings.projectTargets from start] at known

/-! ### When a configuration ends -/

/-- Some runs of the generator for listed targets lead from these files to those. -/
def GeneratorReaches : FileSystem → FileSystem → Prop :=
  ReflTransGen fun files files' => ∃ target ∈ aidlTargets settings,
    files' = (settings.aidlOps (interfaceName target) (interfaceVersionArg target) files).1

/-- From these files on, the generator makes sources whenever it is run for a listed target. -/
def BuildSettings.Generates (files : FileSystem) : Prop :=
  ∀ files', GeneratorReaches settings files files' → ∀ target ∈ aidlTargets settings, ¬GenerationFails settings files' target

/-- A call that can be answered: there is the target that is linked, the choice is a valid one. -/
def BuildCommand.Valid : BuildCommand → Prop
  | .link target _ => target ∈ settings.projectTargets
  | .build version target =>
    ∃ targets, chosenTargets (aidlTargets settings) (version.getD allTargets) (target.getD allTargets) = .ok targets

variable {settings}

theorem addLibrary_ends {files : FileSystem} (generates : settings.Generates files) {target : Text}
    (listed : target ∈ aidlTargets settings) (s : BuildState) (reached : GeneratorReaches settings files s.files) :
    ∃ t, runFrom (addLibrary settings target) s = (.ok (), t) ∧ GeneratorReaches settings files t.files := by
  rcases addLibrary_cases settings target s with ⟨sources, -, run⟩ | ⟨fails, -⟩
  · refine ⟨_, run, ?_⟩
    show GeneratorReaches settings files (sourced settings target s).files
    rw [sourced_files, sourcedFiles]
    split
    · exact reached.tail ⟨target, listed, rfl⟩
    · exact reached
  · exact absurd fails (generates s.files reached target listed)

/-- Chosen targets are known ones. -/
theorem subset_of_chosenTargets {targets chosen : List Text} {version target : Text}
    (choice : chosenTargets targets version target = .ok chosen) : chosen ⊆ targets := by
  have one : ∀ t ∈ targets, [t] ⊆ targets := fun t member =>
    List.cons_subset.mpr ⟨member, List.nil_subset _⟩
  rw [chosenTargets] at choice
  split at choice
  · split at choice
    · cases choice
      exact List.Subset.refl _
    · cases choice
      exact List.filter_subset_self _
  split at choice
  · split at choice
    · cases choice
      exact List.filter_subset_self _
    · split at choice
      · cases choice
        exact one _ ‹_›
      · cases choice
  split at choice
  · split at choice
    · cases choice
      exact List.filter_subset_self _
    · cases choice
  split at choice
  · cases choice
  · split at choice
    · cases choice
      exact one _ ‹_›
    · cases choice
      exact List.nil_subset _

section Ends
variable {files : FileSystem} (generates : settings.Generates files) {rank : Text → ℕ}
  (down : ∀ target ∈ aidlTargets settings, ∀ dep ∈ targetDeps settings target,
    dep ∈ aidlTargets settings ∧ rank dep < rank target)
  (deep : ∀ target ∈ aidlTargets settings, rank target < settings.recursionDepth)
include generates down deep

theorem addInterfaceLibrary_ends {target : Text} (known : target ∈ aidlTargets settings) (s : BuildState)
    (reached : GeneratorReaches settings files s.files) :
    ∃ t, runFrom (addInterfaceLibrary settings settings.recursionDepth target) s = (.ok (), t) ∧
      GeneratorReaches settings files t.files := by
  have ends : ∀ s : BuildState, GeneratorReaches settings files s.files →
      ∃ t, runFrom ((libraryWalker settings).visit settings.recursionDepth target) s = (.ok (), t) ∧
        GeneratorReaches settings files t.files :=
    Walker.visit_ends (q := fun target => target ∈ aidlTargets settings)
      (fun target s listed reached => addLibrary_ends generates listed s reached) down known (deep target known)
  rw [addInterfaceLibrary_eq]
  exact ends s reached

theorem configure_ends_of_rank {commands : List BuildCommand} (valid : ∀ command ∈ commands, command.Valid settings)
    (s : BuildState) (reached : GeneratorReaches settings files s.files) :
    ∃ t, runFrom (configure settings commands) s = (.ok (), t) := by
  have add : ∀ target ∈ aidlTargets settings, ∀ s, GeneratorReaches settings files s.files → ∃ t,
      runFrom (addInterfaceLibrary settings settings.recursionDepth target) s = (.ok (), t) ∧ GeneratorReaches settings files t.files :=
    fun target known => addInterfaceLibrary_ends generates down deep known
  obtain ⟨t, run, -⟩ := Walker.forM_ends (p := fun s => GeneratorReaches settings files s.files) (f := BuildCommand.run settings)
    (l := commands) (fun command member s reached => by
      have valid := valid command member
      cases command with
      | link target libs =>
        have here : target ∈ existingTargets settings s := List.mem_append_left _ valid
        show ∃ t, runFrom (if target ∈ existingTargets settings s then _ else _) s = _ ∧ _
        rw [if_pos here]
        refine Walker.forM_ends (fun lib _ s reached => ?_) s reached
        by_cases listed : lib ∈ aidlTargets settings
        · obtain ⟨t, run, reached⟩ := add lib listed s reached
          rw [linkInterfaceLibrary, if_pos listed, runFrom_bind, run]
          exact ⟨_, rfl, reached⟩
        · rw [linkInterfaceLibrary, if_neg listed]
          exact ⟨s, rfl, reached⟩
      | build version target =>
        obtain ⟨targets, choice⟩ := valid
        rw [BuildCommand.run, targetBuildInterfacesLibraries, choice]
        exact Walker.forM_ends (fun target member s reached =>
          add target (subset_of_chosenTargets choice member) s reached) s reached)
    s reached
  exact ⟨t, run⟩

end Ends

/-- What the generator of the targets wrote, the build configures, whatever its calls ask for, when all names in it are
    plain, the depth of calls suffices for the targets and sources can be generated. -/
theorem configure_ends {allLoaded : List AidlInterface} {text : Text}
    (generated : generateLibrariesDependencies allLoaded = .ok text) (names : PlainNames allLoaded)
    (read : readInterfacesLibDependencies (dependenciesFile text) = some settings.dependencies)
    (deep : settings.dependencies.length ≤ settings.recursionDepth) {commands : List BuildCommand}
    (valid : ∀ command ∈ commands, command.Valid settings) (s : BuildState) (generates : settings.Generates s.files) :
    ∃ t, runFrom (configure settings commands) s = (.ok (), t) := by
  obtain ⟨targets, order, libs, closed, -, build, rfl⟩ := generate_eq_ok generated
  have plain := ((plainNames_iff libs).mp names).2
  have known : ∀ k ∈ targets.keys, k ≠ [] ∧ Plain k := by
    intro k member
    obtain ⟨name, version, rfl⟩ := exists_cppTarget libs member
    exact ⟨by rw [cppTarget]; simp, plain _ member⟩
  have written : dependenciesFile (order.flatMap (dependencyLine targets)) =
      some (order.flatMap (dependencyLine targets)) := by
    refine if_neg fun empty => ?_
    rw [empty] at read
    cases read
  rw [written, read_lines fun lib member => ⟨known lib ((build.complete lib).mp member), fun dep needs =>
    known dep (mem_keys_of_closed closed needs)⟩, Option.some.injEq] at read
  have all : aidlTargets settings = order := by
    rw [aidlTargets, ← read, List.map_map]
    exact List.map_id _
  have deps : ∀ target ∈ order, targetDeps settings target = depsOf targets target := by
    intro target member
    rw [targetDeps, ← read, Dict.get?_ofPairs_keyed, if_pos member, Option.getD_some]
  have respects : Respects (fun dep lib => Needs targets lib dep) order := build.depsFirst
  obtain ⟨rank, down, bounded⟩ := respects.exists_rank
  have lower : ∀ target ∈ aidlTargets settings, ∀ dep ∈ targetDeps settings target,
      dep ∈ aidlTargets settings ∧ rank dep < rank target := by
    intro target member dep needs
    rw [all] at member ⊢
    rw [deps target member] at needs
    exact ⟨(build.complete dep).mpr (mem_keys_of_closed closed needs), down dep target needs member⟩
  have shallow : ∀ target ∈ aidlTargets settings, rank target < settings.recursionDepth := by
    intro target member
    rw [all] at member
    refine (bounded target member).trans_le (Eq.trans_le ?_ deep)
    rw [← read, List.length_map]
  exact configure_ends_of_rank generates lower shallow valid s .refl

theorem getD_interfaceVersionArg (target : Text) :
    (interfaceVersionArg target).getD currentVersion = interfaceVersion target := by
  rw [interfaceVersionArg]
  by_cases current : interfaceVersion target = currentVersion
  · rw [if_pos current, current]
    rfl
  · rw [if_neg current]
    rfl

/-- A generator that writes one file into the directory it is run for. -/
def localGenerator (root : Text) (name : Text) (version : Option Text) (files : FileSystem) : FileSystem × Int :=
  (fun path => if path = root ++ '/' :: name ++ '/' :: version.getD currentVersion ++ "/src".toList then
    some (.directory (Dict.ofPairs [("IVideo.cpp".toList, .file (some []))])) else files path, 0)

/-- `video` with a released version of `common`, for a project that has one target. -/
def releasedSettings : BuildSettings where
  generatedRoot := "out".toList
  dependencies := [("common-v0.1.0.0-cpp".toList, []), ("video-vcurrent-cpp".toList, ["common-v0.1.0.0-cpp".toList]),
    ("common-vcurrent-cpp".toList, [])]
  projectTargets := ["app".toList]
  recursionDepth := 3
  aidlOps := localGenerator "out".toList

theorem generates_releasedSettings (files : FileSystem) : releasedSettings.Generates files := by
  intro files' _ target _ ⟨runs, failed⟩
  rcases failed with failed | none
  · exact failed rfl
  · have written : sourcedFiles releasedSettings files' target (sourceDir releasedSettings target) =
        some (.directory (Dict.ofPairs [("IVideo.cpp".toList, .file (some []))])) := by
      rw [sourcedFiles, if_pos runs]
      refine if_pos ?_
      rw [getD_interfaceVersionArg]
      rfl
    rw [cppFiles, written] at none
    revert none
    decide

theorem configure_ends_released :
    ∃ t, runFrom (configure releasedSettings [.link "app".toList ["video-vcurrent-cpp".toList], .build none none])
      (freshBuild (fun _ => none) []) = (.ok (), t) := by
  have generated :
      generateLibrariesDependencies (releasedCommon "0.1.0.0".toList) = .ok (releasedFile "0.1.0.0".toList) := by
    decide +kernel
  have names : PlainNames (releasedCommon "0.1.0.0".toList) := by
    refine (plainNames_iff (libDeps_eq _)).mpr ⟨List.cons_ne_nil _ _, ?_⟩
    decide +kernel
  have read : readInterfacesLibDependencies (dependenciesFile (releasedFile "0.1.0.0".toList)) =
      some releasedSettings.dependencies := by decide +kernel
  refine configure_ends generated names read (Nat.le_refl 3) (fun command member => ?_) _ (generates_releasedSettings _)
  rcases List.mem_cons.mp member with rfl | member
  · exact List.mem_cons_self
  · rw [List.mem_singleton.mp member]
    exact ⟨_, rfl⟩

end BinderIdl.Interface
