import BinderIdl.Theorems.Libraries

/-! Which sources the build has generated: those of `current` each time it adds the library, and those of a frozen version
    only while there are none, however often and for whatever the build is configured. -/

namespace BinderIdl.Interface
open Py Graph

/-! ### Frozen versions -/

/-- The generator writes no source directory but that of the version it is run for. -/
def BuildSettings.Local (settings : BuildSettings) : Prop :=
  ∀ name version files name' version',
    sourceDirOf settings name' version' ≠ sourceDirOf settings name (version.getD currentVersion) →
      (settings.aidlOps name version files).1 (sourceDirOf settings name' version') =
        files (sourceDirOf settings name' version')

/-- What a configuration in a new build directory leaves, wherever it stops. -/
def reconfigure (s : BuildState) (run : BuildSettings × List BuildCommand) : BuildState :=
  (runFrom (configure run.1 run.2) (freshBuild s.files s.commands)).2

variable {settings : BuildSettings} {name version : Text}

theorem basename_append {v : Text} (plain : '/' ∉ v) (a : Text) : basename (a ++ '/' :: v) = v := by
  have stops : ∀ c ∈ v.reverse, (c != '/') = true := fun c member =>
    bne_iff_ne.mpr fun slash => plain (slash ▸ List.mem_reverse.mp member)
  rw [basename, List.rtakeWhile, List.reverse_append, List.reverse_cons, List.append_assoc, List.singleton_append,
    takeWhile_append_cons stops rfl, List.reverse_reverse]

/-- A frozen version and `current` have different source directories. -/
theorem sourceDirOf_ne_current (plain : '/' ∉ version) (frozen : version ≠ currentVersion) (name' : Text) :
    sourceDirOf settings name version ≠ sourceDirOf settings name' currentVersion := by
  intro same
  have dirs : generatedDir settings name version = generatedDir settings name' currentVersion :=
    List.append_cancel_right same
  have names := congrArg basename dirs
  rw [generatedDir, generatedDir, basename_append plain, basename_append (by decide)] at names
  exact frozen names

/-- A library is added without a change of the sources of a frozen version, when there are some, and without a run for
    it. -/
theorem sourced_keeps (local_ : settings.Local) (plain : '/' ∉ version) (frozen : version ≠ currentVersion) (target : Text)
    {s : BuildState} (committed : filesEnding ".cpp".toList (s.files (sourceDirOf settings name version)) ≠ []) :
    (sourced settings target s).files (sourceDirOf settings name version) = s.files (sourceDirOf settings name version) ∧
      (sourced settings target s).commands.count (name, some version) = s.commands.count (name, some version) := by
  by_cases generates : addInterfaceLibraryGenerates target (s.files (sourceDir settings target)) = true
  · have other : sourceDirOf settings name version ≠ sourceDir settings target := by
      intro same
      rw [addInterfaceLibraryGenerates, Bool.or_eq_true, beq_iff_eq, List.isEmpty_iff, ← same] at generates
      have current := generates.resolve_right committed
      rw [sourceDir, current] at same
      exact sourceDirOf_ne_current plain frozen _ same
    rw [sourced, if_pos generates]
    refine ⟨local_ _ _ _ _ _ (by rwa [getD_interfaceVersionArg]), ?_⟩
    show (s.commands ++ [_]).count _ = _
    have absent : (name, some version) ∉ [(interfaceName target, interfaceVersionArg target)] := fun member => by
      obtain ⟨sameName, sameVersion⟩ := Prod.mk.inj (List.mem_singleton.mp member)
      have version_ := getD_interfaceVersionArg target
      rw [← sameVersion, Option.getD_some] at version_
      exact other (by rw [sourceDir, ← version_, ← sameName])
    rw [List.count_append, List.count_eq_zero_of_not_mem absent, Nat.add_zero]
  · rw [sourced, if_neg generates]
    exact ⟨rfl, rfl⟩

/-- However often the build is configured, for whatever libraries and whether that ends or fails: sources of a frozen
    version that are there stay as they are, and the generator is not run for it. -/
theorem frozen_sources_kept {dir : Text} (plain : '/' ∉ version) (frozen : version ≠ currentVersion)
    {runs : List (BuildSettings × List BuildCommand)}
    (here : ∀ run ∈ runs, sourceDirOf run.1 name version = dir ∧ run.1.Local) {s : BuildState}
    (committed : filesEnding ".cpp".toList (s.files dir) ≠ []) :
    (runs.foldl reconfigure s).files dir = s.files dir ∧
      (runs.foldl reconfigure s).commands.count (name, some version) = s.commands.count (name, some version) := by
  induction runs generalizing s with
  | nil => exact ⟨rfl, rfl⟩
  | cons run runs ih =>
    obtain ⟨rfl, local_⟩ := here run List.mem_cons_self
    have step : (reconfigure s run).files (sourceDirOf run.1 name version) = s.files (sourceDirOf run.1 name version) ∧
        (reconfigure s run).commands.count (name, some version) = s.commands.count (name, some version) := by
      let kept (u : BuildState) : Prop :=
        u.files (sourceDirOf run.1 name version) = s.files (sourceDirOf run.1 name version) ∧
          u.commands.count (name, some version) = s.commands.count (name, some version)
      have keeps : Walker.Keeps kept kept (configure run.1 run.2) := by
        refine keeps_configure (fun _ => id) (fun target u same => ?_) (fun _ _ => id) run.2
        have sources : kept (sourced run.1 target u) := by
          have still := committed
          rw [← same.1] at still
          obtain ⟨files, commands⟩ := sourced_keeps local_ plain frozen target still
          exact ⟨files.trans same.1, commands.trans same.2⟩
        rcases addLibrary_cases run.1 target u with ⟨_, -, added⟩ | ⟨-, e, failed⟩
        · rw [added]
          exact ⟨fun _ => sources, sources⟩
        · rw [failed]
          exact ⟨fun ends => (by cases ends), sources⟩
      exact (keeps (freshBuild s.files s.commands) ⟨rfl, rfl⟩).2
    rw [List.foldl_cons]
    obtain ⟨files, commands⟩ := ih (fun run member => here run (List.mem_cons_of_mem _ member)) (by rwa [step.1])
    exact ⟨files.trans step.1, commands.trans step.2⟩

/-! ### The version `current` -/

/-- The run of the generator for a target. -/
def generatorRun (target : Text) : Text × Option Text := (interfaceName target, interfaceVersionArg target)

/-- The generator was run for some of these libraries, once for each and in their order, and for all of `current`. -/
def RunsFor (libraries : List Text) (runs : List (Text × Option Text)) : Prop :=
  ∃ generated : List Text, generated.Sublist libraries ∧ runs = generated.map generatorRun ∧
    ∀ target ∈ libraries, interfaceVersion target = currentVersion → target ∈ generated

theorem RunsFor.add {libraries : List Text} {runs : List (Text × Option Text)} (sofar : RunsFor libraries runs)
    (target : Text) : RunsFor (libraries ++ [target]) (runs ++ [generatorRun target]) := by
  obtain ⟨generated, sublist, rfl, all⟩ := sofar
  refine ⟨generated ++ [target], sublist.append (.refl _), by rw [List.map_append, List.map_singleton], ?_⟩
  intro other member current
  rcases List.mem_append.mp member with old | new
  · exact List.mem_append_left _ (all other old current)
  · exact List.mem_append_right _ new

theorem RunsFor.skip {libraries : List Text} {runs : List (Text × Option Text)} (sofar : RunsFor libraries runs)
    {target : Text} (frozen : interfaceVersion target ≠ currentVersion) : RunsFor (libraries ++ [target]) runs := by
  obtain ⟨generated, sublist, rfl, all⟩ := sofar
  refine ⟨generated, sublist.trans (List.sublist_append_left _ _), rfl, fun other member current => ?_⟩
  rcases List.mem_append.mp member with old | new
  · exact all other old current
  · rw [List.mem_singleton.mp new] at current
    exact absurd current frozen

/-- A configuration that ends has run the generator for each library of `current` that it added, and for none twice. -/
theorem current_regenerated {files : FileSystem} {ran : List (Text × Option Text)} {commands : List BuildCommand}
    {t : BuildState} (ends : runFrom (configure settings commands) (freshBuild files ran) = (.ok (), t)) :
    ∃ runs, t.commands = ran ++ runs ∧ RunsFor (t.libraries.map Library.target) runs := by
  let accounted (s : BuildState) : Prop :=
    ∃ runs, s.commands = ran ++ runs ∧ RunsFor (s.libraries.map Library.target) runs
  have keeps : Walker.Keeps accounted (fun _ => True) (configure settings commands) := by
    refine keeps_configure (fun _ _ => trivial) (fun target s sofar => ⟨fun ends => ?_, trivial⟩) (fun _ _ => id) commands
    obtain ⟨runs, logged, sofar⟩ := sofar
    rcases addLibrary_cases settings target s with ⟨sources, -, added⟩ | ⟨-, e, failed⟩
    · rw [added]
      show ∃ runs, (sourced settings target s).commands = ran ++ runs ∧ 
          RunsFor ((s.libraries ++ [libraryOf settings target sources]).map Library.target) runs
      rw [List.map_append, List.map_singleton]
      by_cases generates : addInterfaceLibraryGenerates target (s.files (sourceDir settings target)) = true
      · rw [sourced, if_pos generates]
        refine ⟨runs ++ [generatorRun target], ?_, sofar.add target⟩
        rw [← List.append_assoc, ← logged]
        rfl
      · rw [sourced, if_neg generates]
        have frozen : interfaceVersion target ≠ currentVersion := fun current => generates (by
          rw [addInterfaceLibraryGenerates, current]
          rfl)
        exact ⟨runs, logged, sofar.skip frozen⟩
    · rw [failed] at ends
      cases ends
  have start : accounted (freshBuild files ran) :=
    ⟨[], (List.append_nil _).symm, [], .refl _, rfl, fun _ member => absurd member List.not_mem_nil⟩
  have final := (keeps _ start).1
  rw [ends] at final
  exact final rfl

/-! ### A project with one target -/

/-- The sources of the released version have been committed. -/
def committedFiles : FileSystem := fun path =>
  if path = "out/common/0.1.0.0/src".toList then
    some (.directory (Dict.ofPairs [("ICommon.cpp".toList, .file (some []))]))
  else none

/-- A build of all libraries. -/
def buildAll : BuildSettings × List BuildCommand := (releasedSettings, [.build none none])

theorem frozen_sources_kept_released :
    ([buildAll, buildAll].foldl reconfigure (freshBuild committedFiles [])).files "out/common/0.1.0.0/src".toList =
        (freshBuild committedFiles []).files "out/common/0.1.0.0/src".toList ∧
      ([buildAll, buildAll].foldl reconfigure (freshBuild committedFiles [])).commands.count
        ("common".toList, some "0.1.0.0".toList) = 0 := by
  have local_ : releasedSettings.Local := fun name version files name' version' other => if_neg other
  refine frozen_sources_kept (by decide) (by decide) (fun run member => ?_) (by decide)
  have only : run = buildAll := by simpa using member
  rw [only]
  exact ⟨rfl, local_⟩

theorem current_regenerated_released :
    ∃ runs, (runFrom (configure releasedSettings [.link "app".toList ["video-vcurrent-cpp".toList]])
        (freshBuild committedFiles [])).2.commands = [] ++ runs ∧
      RunsFor ["common-v0.1.0.0-cpp".toList, "video-vcurrent-cpp".toList] runs := by
  have ends : (runFrom (configure releasedSettings [.link "app".toList ["video-vcurrent-cpp".toList]])
      (freshBuild committedFiles [])).1 = .ok () := by decide +kernel
  have names : (runFrom (configure releasedSettings [.link "app".toList ["video-vcurrent-cpp".toList]])
      (freshBuild committedFiles [])).2.libraries.map Library.target =
        ["common-v0.1.0.0-cpp".toList, "video-vcurrent-cpp".toList] := by decide +kernel
  rw [← names]
  exact current_regenerated (Prod.ext ends rfl)

end BinderIdl.Interface
