import BinderIdl.Interface.Commands

/-! Whether the `aidl` process finds the dependencies and the stability among its arguments, for each of the four commands
    that pass them. -/

namespace BinderIdl.Interface
open Py CommandLine

variable {stability : Option Text} {deps : List CommandPath}

/-- A stability that the tool has to be told. -/
def Due (stability : Option Text) (t : Text) : Prop := stability = some t ∧ t ≠ [] ∧ t ≠ unstableText

/-- The arguments have one `-p` for each dependency, the stability in an argument of its own if it is due, both up to
    blanks around them, and no empty argument. -/
structure HandsOver (stability : Option Text) (deps : List CommandPath) (args : List Text) : Prop where
  dependencies : (values 'p' args).map trim = deps.map CommandPath.text
  stability : ∀ t, Due stability t → ∃ v, "--stability=".toList ++ v ∈ args ∧ trim v = trim t
  nonempty : [] ∉ args

/-! ### The values of `-p` -/

/-- An argument that is neither `-p` nor empty. -/
structure Other (arg : Text) : Prop where
  notOption : ∀ v, arg ≠ '-' :: 'p' :: v
  nonempty : arg ≠ []

theorem CommandPath.other (p : CommandPath) : Other p.text := ⟨fun v => p.notOption ('p' :: v), p.nonempty⟩

theorem other_stabilityFlag (stability : Option Text) : Other (stabilityFlag stability) :=
  ⟨fun v same => (by cases same), fun same => by cases same⟩

theorem values_between {before flags behind : List Text} (others : ∀ arg ∈ before, Other arg)
    (others' : ∀ arg ∈ behind, Other arg) (closed : "-p".toList ∉ flags) :
    values 'p' (before ++ flags ++ behind) = values 'p' flags := by
  have open_ : ['-', 'p'] ∉ before ++ flags := by
    intro member
    rcases List.mem_append.mp member with first | second
    · exact (others _ first).notOption [] rfl
    · exact closed second
  rw [values_append open_, values_append (fun member => (others _ member).notOption [] rfl),
    values_eq_nil (fun arg member => (others arg member).notOption),
    values_eq_nil (fun arg member => (others' arg member).notOption), List.nil_append, List.append_nil]

theorem nil_notMem_between {before flags behind : List Text} (others : ∀ arg ∈ before, Other arg)
    (others' : ∀ arg ∈ behind, Other arg) (filled : [] ∉ flags) : [] ∉ before ++ flags ++ behind := by
  intro member
  rcases List.mem_append.mp member with member | third
  · rcases List.mem_append.mp member with first | second
    · exact (others _ first).nonempty rfl
    · exact filled second
  · exact (others' _ third).nonempty rfl

theorem values_joined (between : Text) (deps : List CommandPath) :
    values 'p' (deps.map ('-' :: 'p' :: between ++ ·.text)) = deps.map (between ++ ·.text) := by
  induction deps with
  | nil => rfl
  | cons dep deps ih =>
    obtain ⟨c, t, text⟩ := List.exists_cons_of_ne_nil (List.append_ne_nil_of_right_ne_nil between dep.nonempty)
    rw [List.map_cons, List.map_cons, List.cons_append, List.cons_append, text, values_cons_joined, ih]

theorem values_separate (deps : List CommandPath) (args : List Text) :
    values 'p' (deps.flatMap (fun dep => ["-p".toList, dep.text]) ++ args) =
      deps.map CommandPath.text ++ values 'p' args := by
  induction deps with
  | nil => rfl
  | cons dep deps ih =>
    rw [List.flatMap_cons, List.map_cons, List.append_assoc]
    exact (values_cons_separate 'p' dep.text _).trans (congrArg (dep.text :: ·) ih)

theorem map_trim_text (deps : List CommandPath) : (deps.map CommandPath.text).map trim = deps.map CommandPath.text := by
  rw [List.map_map]
  exact List.map_congr_left fun dep _ => trim_of_unsplit dep.unsplit

/-! ### Commands without a shell -/

theorem Preprocessing.others_behind (p : Preprocessing) :
    ∀ arg ∈ ["--structured".toList, "-I".toList ++ p.importDir.text] ++ p.srcs.map CommandPath.text, Other arg := by
  intro arg member
  rcases List.mem_append.mp member with first | src
  · rcases List.mem_cons.mp first with rfl | second
    · exact ⟨fun v same => (by cases same), by decide⟩
    · rw [List.mem_singleton.mp second]
      exact ⟨fun v same => (by cases same), fun same => by cases same⟩
  · obtain ⟨path, -, rfl⟩ := List.mem_map.mp src
    exact path.other

theorem Preprocessing.others_before (p : Preprocessing) :
    ∀ arg ∈ [p.aidl.text, "--preprocess".toList, p.preprocessed.text], Other arg := by
  intro arg member
  rcases List.mem_cons.mp member with rfl | member
  · exact p.aidl.other
  rcases List.mem_cons.mp member with rfl | member
  · exact ⟨fun v same => (by cases same), by decide⟩
  · rw [List.mem_singleton.mp member]
    exact p.preprocessed.other

theorem stabilityFlag_some (t : Text) : stabilityFlag (some t) = "--stability=".toList ++ t := by
  unfold stabilityFlag
  rw [Option.getD_some]

/-- The flag of the stability, if it is passed. -/
def statedFlag (stated : Bool) (stability : Option Text) : List Text :=
  if stated then [stabilityFlag stability] else []

theorem others_statedFlag (stated : Bool) (stability : Option Text) : ∀ arg ∈ statedFlag stated stability, Other arg := by
  intro arg member
  cases stated with
  | false => cases member
  | true =>
    rw [List.mem_singleton.mp member]
    exact other_stabilityFlag stability

theorem mem_statedFlag {stated : Bool} {t : Text} (passed : stated = true) (same : stability = some t) :
    "--stability=".toList ++ t ∈ statedFlag stated stability := by
  subst same passed
  rw [← stabilityFlag_some]
  exact List.mem_cons_self

theorem values_flags {between : Text} (blank : ∀ c ∈ between, isSeparator c = true) (stated : Bool)
    (stability : Option Text) (deps : List CommandPath) :
    (values 'p' (statedFlag stated stability ++ deps.map ('-' :: 'p' :: between ++ ·.text))).map trim =
      deps.map CommandPath.text := by
  have others := others_statedFlag stated stability
  rw [values_append (fun member => (others _ member).notOption [] rfl),
    values_eq_nil (fun arg member => (others arg member).notOption), List.nil_append, values_joined, List.map_map]
  refine List.map_congr_left fun dep _ => ?_
  exact (trim_append_of_blank blank dep.text).trans (trim_of_unsplit dep.unsplit)

theorem notMem_flags (between : Text) (stated : Bool) (stability : Option Text) (deps : List CommandPath) :
    [] ∉ statedFlag stated stability ++ deps.map ('-' :: 'p' :: between ++ ·.text) ∧
      "-p".toList ∉ statedFlag stated stability ++ deps.map ('-' :: 'p' :: between ++ ·.text) := by
  have others := others_statedFlag stated stability
  constructor
  · intro member
    rcases List.mem_append.mp member with first | second
    · exact (others _ first).nonempty rfl
    · obtain ⟨dep, -, same⟩ := List.mem_map.mp second
      cases same
  · intro member
    rcases List.mem_append.mp member with first | second
    · exact (others _ first).notOption [] rfl
    · obtain ⟨dep, -, same⟩ := List.mem_map.mp second
      have empty : between ++ dep.text = [] := (List.cons.inj (List.cons.inj same).2).2
      exact dep.nonempty (List.append_eq_nil_iff.mp empty).2

/-- A command with such flags between other arguments hands everything over. -/
theorem handsOver_flags {between : Text} {stated : Bool} {before behind : List Text}
    (blank : ∀ c ∈ between, isSeparator c = true) (others : ∀ arg ∈ before, Other arg) (others' : ∀ arg ∈ behind, Other arg)
    (due : ∀ t, Due stability t → stated = true) (deps : List CommandPath) :
    HandsOver stability deps
      (before ++ (statedFlag stated stability ++ deps.map ('-' :: 'p' :: between ++ ·.text)) ++ behind) := by
  obtain ⟨filled, closed⟩ := notMem_flags between stated stability deps
  refine ⟨?_, fun t isDue => ⟨t, ?_, rfl⟩, nil_notMem_between others others' filled⟩
  · rw [values_between others others' closed]
    exact values_flags blank stated stability deps
  · have flag : "--stability=".toList ++ t ∈ statedFlag stated stability := mem_statedFlag (due t isDue) isDue.1
    exact List.mem_append_left _ (List.mem_append_right _ (List.mem_append_left _ flag))

theorem genPreprocessed_handsOver (p : Preprocessing) (stability : Option Text) (deps : List CommandPath) :
    HandsOver stability deps (genPreprocessedArgs p stability deps) := by
  have due : ∀ t, Due stability t → isStable stability = true := by
    rintro t ⟨rfl, -, notUnstable⟩
    simpa [isStable] using notUnstable
  have blank : ∀ c ∈ ([] : Text), isSeparator c = true := fun _ member => absurd member List.not_mem_nil
  have all := handsOver_flags blank p.others_before p.others_behind due deps
  rw [← List.append_assoc] at all
  exact all

theorem isStated_of_due : ∀ t, Due stability t → isStated stability = true := by
  rintro t ⟨rfl, nonempty, notUnstable⟩
  simpa [isStated] using ⟨nonempty, notUnstable⟩

theorem checkApi_handsOver (c : Comparison) (level : Text) (stability : Option Text) (deps : List CommandPath) :
    HandsOver stability deps (checkApiArgs c level stability deps) := by
  have before : ∀ arg ∈ [c.aidl.text, "--checkapi=".toList ++ level], Other arg := by
    intro arg member
    rcases List.mem_cons.mp member with rfl | member
    · exact c.aidl.other
    · rw [List.mem_singleton.mp member]
      exact ⟨fun v same => (by cases same), fun same => by cases same⟩
  have behind : ∀ arg ∈ [c.old.text, c.new.text], Other arg := by
    intro arg member
    rcases List.mem_cons.mp member with rfl | member
    · exact c.old.other
    · rw [List.mem_singleton.mp member]
      exact c.new.other
  have blank : ∀ c ∈ [' '], isSeparator c = true := by
    intro c member
    rw [List.mem_singleton.mp member]
    rfl
  exact handsOver_flags blank before behind isStated_of_due deps

/-! ### The command for the shell -/

/-- Only blanks follow what is passed of the stability. -/
def Unbroken (stability : Option Text) : Prop := ∀ t, Due stability t → Unsplit (rtrim t)

theorem arguments_dependency (dep : CommandPath) : arguments ("-p ".toList ++ dep.text) = ["-p".toList, dep.text] := by
  have split := arguments_append_cons (b := ' ') rfl "-p".toList dep.text
  rw [arguments_of_unsplit dep.nonempty dep.unsplit] at split
  exact split

theorem arguments_comparisonFlags (stability : Option Text) (deps : List CommandPath) :
    (comparisonFlags stability deps).flatMap arguments =
      (statedFlag (isStated stability) stability).flatMap arguments ++
        deps.flatMap fun dep => ["-p".toList, dep.text] := by
  rw [comparisonFlags, List.flatMap_append, List.flatMap_map]
  congr 2
  funext dep
  exact arguments_dependency dep

theorem developmentArgs_eq (c : Comparison) (stability : Option Text) (deps : List CommandPath) :
    developmentArgs c stability deps =
      [c.aidl.text, "--checkapi=equal".toList] ++
        ((statedFlag (isStated stability) stability).flatMap arguments ++
          deps.flatMap fun dep => ["-p".toList, dep.text]) ++ [c.old.text, c.new.text] := by
  have level : arguments "--checkapi=equal".toList = ["--checkapi=equal".toList] := by decide +kernel
  have whole : developmentCommand c stability deps =
      c.aidl.text ++ ' ' :: ("--checkapi=equal".toList ++ ' ' :: (" ".toList.intercalate (comparisonFlags stability deps) ++
        ' ' :: (c.old.text ++ ' ' :: c.new.text))) := by
    simp [developmentCommand]
  rw [developmentArgs, whole, arguments_append_cons rfl, arguments_append_cons rfl, arguments_append_cons rfl,
    arguments_append_cons rfl, arguments_of_unsplit c.aidl.nonempty c.aidl.unsplit,
    arguments_of_unsplit c.old.nonempty c.old.unsplit, arguments_of_unsplit c.new.nonempty c.new.unsplit, level,
    show " ".toList = [' '] from rfl, arguments_intercalate, arguments_comparisonFlags]
  simp only [List.cons_append, List.nil_append, List.append_assoc]

theorem unsplit_stability : Unsplit "--stability=".toList := by
  have solid : "--stability=".toList.any isSeparator = false := by decide +kernel
  exact fun c member => by simpa using List.any_eq_false.mp solid c member

theorem arguments_flag_of_unsplit {t : Text} (unsplit : Unsplit (rtrim t)) :
    arguments ("--stability=".toList ++ t) = ["--stability=".toList ++ rtrim t] := by
  obtain ⟨g, blank, whole⟩ := exists_rtrim t
  have solid : Unsplit ("--stability=".toList ++ rtrim t) := by
    intro c member
    rcases List.mem_append.mp member with first | second
    · exact unsplit_stability c first
    · exact unsplit c second
  conv_lhs => rw [whole]
  rw [← List.append_assoc, arguments_append_of_blank blank]
  exact arguments_of_unsplit (List.append_ne_nil_of_left_ne_nil (by decide +kernel) _) solid

theorem others_arguments_flag (unbroken : Unbroken stability) :
    ∀ arg ∈ (statedFlag (isStated stability) stability).flatMap arguments, Other arg := by
  have other : ∀ t : Text, Other ("--stability=".toList ++ t) :=
    fun t => ⟨fun v same => (by cases same), fun same => by cases same⟩
  intro arg member
  cases stability with
  | none =>
    have flag : arguments (stabilityFlag none) = [stabilityFlag none] := by decide +kernel
    have only : arg ∈ arguments (stabilityFlag none) := by
      simpa [statedFlag, isStated] using member
    rw [flag] at only
    rw [List.mem_singleton.mp only]
    exact other_stabilityFlag none
  | some t =>
    cases stated : isStated (some t) with
    | false =>
      rw [stated] at member
      cases member
    | true =>
      have due : Due (some t) t := by
        have := stated
        simp [isStated] at this
        exact ⟨rfl, this⟩
      rw [stated] at member
      have only : arg ∈ arguments (stabilityFlag (some t)) := by simpa [statedFlag] using member
      rw [stabilityFlag_some, arguments_flag_of_unsplit (unbroken t due)] at only
      rw [List.mem_singleton.mp only]
      exact other _

theorem Comparison.others (c : Comparison) :
    (∀ arg ∈ [c.aidl.text, "--checkapi=equal".toList], Other arg) ∧ ∀ arg ∈ [c.old.text, c.new.text], Other arg := by
  constructor <;> intro arg member <;> rcases List.mem_cons.mp member with rfl | member
  · exact c.aidl.other
  · rw [List.mem_singleton.mp member]
    exact ⟨fun v same => (by cases same), fun same => by cases same⟩
  · exact c.old.other
  · rw [List.mem_singleton.mp member]
    exact c.new.other

theorem development_of_unbroken (c : Comparison) (unbroken : Unbroken stability) (deps : List CommandPath) :
    HandsOver stability deps (developmentArgs c stability deps) := by
  have others := others_arguments_flag unbroken
  obtain ⟨before, behind⟩ := c.others
  rw [developmentArgs_eq]
  refine ⟨?_, fun t due => ⟨rtrim t, ?_, ?_⟩, ?_⟩
  · rw [List.append_assoc, List.append_assoc, values_append (fun member => (before _ member).notOption [] rfl),
      values_append (fun member => (others _ member).notOption [] rfl), values_separate,
      values_eq_nil (fun arg member => (before arg member).notOption),
      values_eq_nil (fun arg member => (others arg member).notOption),
      values_eq_nil (fun arg member => (behind arg member).notOption), List.nil_append, List.nil_append, List.append_nil]
    exact map_trim_text deps
  · refine List.mem_append_left _ (List.mem_append_right _ (List.mem_append_left _ ?_))
    have flag := mem_statedFlag (isStated_of_due t due) due.1
    refine List.mem_flatMap.mpr ⟨_, flag, ?_⟩
    rw [arguments_flag_of_unsplit (unbroken t due)]
    exact List.mem_cons_self
  · rw [trim_of_unsplit (unbroken t due), trim_eq_rtrim (unbroken t due)]
  · refine nil_notMem_between before behind fun member => ?_
    rcases List.mem_append.mp member with first | second
    · exact (others _ first).nonempty rfl
    · obtain ⟨dep, -, inside⟩ := List.mem_flatMap.mp second
      rcases List.mem_cons.mp inside with same | inside
      · cases same
      · exact dep.nonempty (List.mem_singleton.mp inside).symm

theorem mem_arguments_flag {c : Comparison} {t v : Text} (due : Due stability t)
    (member : "--stability=".toList ++ v ∈ developmentArgs c stability deps) :
    "--stability=".toList ++ v ∈ arguments ("--stability=".toList ++ t) := by
  have path : ∀ p : CommandPath, "--stability=".toList ++ v ≠ p.text := fun p same => p.notOption _ same.symm
  rw [developmentArgs_eq, List.mem_append, List.mem_append, List.mem_append] at member
  rcases member with (first | flag | dep) | behind
  · rcases List.mem_cons.mp first with same | same
    · exact absurd same (path _)
    · cases List.mem_singleton.mp same
  · rw [due.1] at flag
    obtain ⟨whole, only, inside⟩ := List.mem_flatMap.mp flag
    have stated := isStated_of_due t ⟨rfl, due.2⟩
    rw [statedFlag, if_pos stated, List.mem_singleton, stabilityFlag_some] at only
    rwa [only] at inside
  · obtain ⟨dep, -, inside⟩ := List.mem_flatMap.mp dep
    rcases List.mem_cons.mp inside with same | same
    · cases same
    · exact absurd (List.mem_singleton.mp same) (path _)
  · rcases List.mem_cons.mp behind with same | same
    · exact absurd same (path _)
    · exact absurd (List.mem_singleton.mp same) (path _)

theorem unbroken_of_development {c : Comparison} (handed : HandsOver stability deps (developmentArgs c stability deps)) :
    Unbroken stability := by
  intro t due
  obtain ⟨v, member, same⟩ := handed.stability t due
  have inside := mem_arguments_flag due member
  have unsplit : Unsplit v := fun c inV => (of_mem_arguments inside).2.1 c (List.mem_append_right _ inV)
  rw [trim_of_unsplit unsplit] at same
  cases t with
  | nil => exact absurd rfl due.2.1
  | cons b r =>
    cases blank : isSeparator b with
    | false =>
      rw [← trim_cons_of_solid blank, ← same]
      exact unsplit
    | true =>
      -- the flag ends before the stability
      rw [arguments_append_cons blank, arguments_of_unsplit (by decide +kernel) unsplit_stability] at inside
      rcases List.mem_append.mp inside with first | rest
      · have empty : v = [] := List.append_right_eq_self.mp (List.mem_singleton.mp first)
        rw [rtrim_of_trim_eq_nil (same.symm.trans empty)]
        exact fun _ none_ => absurd none_ List.not_mem_nil
      · rw [← arguments_trim, ← trim_cons_blank blank, ← same] at rest
        have short := (of_mem_arguments rest).2.2
        rw [List.length_append] at short
        have long : 0 < "--stability=".toList.length := by decide +kernel
        omega

/-! ### The check before a freeze -/

/-- The one argument that holds the flags. -/
def groupedFlags (stability : Option Text) (deps : List CommandPath) : Text :=
  (if isStable stability then stabilityFlag stability ++ [' '] else []) ++
    if deps = [] then [] else " ".toList.intercalate (deps.map ("-p".toList ++ ·.text)) ++ [' ']

theorem freezeCheckArgs_eq (p : Preprocessing) (stability : Option Text) (deps : List CommandPath) :
    freezeCheckArgs p stability deps =
      [p.aidl.text, "--preprocess".toList, p.preprocessed.text] ++ [groupedFlags stability deps] ++
        (["--structured".toList, "-I".toList ++ p.importDir.text] ++ p.srcs.map CommandPath.text) := rfl

theorem values_freezeCheck (p : Preprocessing) (closed : groupedFlags stability deps ≠ "-p".toList) :
    values 'p' (freezeCheckArgs p stability deps) = values 'p' [groupedFlags stability deps] := by
  rw [freezeCheckArgs_eq]
  exact values_between p.others_before p.others_behind fun member => closed (List.mem_singleton.mp member).symm

theorem isStable_iff : isStable stability = true ↔ stability ≠ some unstableText := by
  simp [isStable]

/-- With a stability flag in front, the tool sees no dependency. -/
theorem values_grouped_of_stable (p : Preprocessing) (stable : isStable stability = true) :
    values 'p' (freezeCheckArgs p stability deps) = [] := by
  have other : Other (groupedFlags stability deps) := by
    rw [groupedFlags, if_pos stable]
    exact ⟨fun v same => (by cases same), fun same => by cases same⟩
  rw [values_freezeCheck p (other.notOption []), values_cons_of_ne other.notOption]
  rfl

/-- Without one, the tool sees at most one. -/
theorem values_grouped_of_unstable (p : Preprocessing) (unstable : isStable stability = false) (dep : CommandPath)
    (deps : List CommandPath) :
    values 'p' (freezeCheckArgs p stability (dep :: deps)) =
      [(" ".toList.intercalate ((dep :: deps).map ("-p".toList ++ ·.text)) ++ [' ']).drop 2] := by
  obtain ⟨v, whole⟩ : ∃ v, " ".toList.intercalate ((dep :: deps).map ("-p".toList ++ ·.text)) = '-' :: 'p' :: v := by
    cases deps with
    | nil => exact ⟨dep.text, by simp [List.intercalate_singleton]⟩
    | cons next deps =>
      rw [List.map_cons, List.intercalate_cons_of_ne_nil (by simp)]
      exact ⟨_, rfl⟩
  obtain ⟨c, u, text⟩ := List.exists_cons_of_ne_nil (List.append_ne_nil_of_right_ne_nil v (List.cons_ne_nil ' ' []))
  have grouped : groupedFlags stability (dep :: deps) = '-' :: 'p' :: c :: u := by
    rw [groupedFlags, unstable, if_neg Bool.false_ne_true, if_neg (List.cons_ne_nil dep deps), whole, List.nil_append,
      List.cons_append, List.cons_append, text]
  have closed : groupedFlags stability (dep :: deps) ≠ "-p".toList := by
    rw [grouped]
    exact fun same => by cases same
  rw [values_freezeCheck p closed, grouped, values_cons_joined, whole, List.cons_append, List.cons_append, text]
  rfl

/-- The flags fit in one argument: a stability and no dependency, or one dependency and no stability. -/
def OneFlag (stability : Option Text) (deps : List CommandPath) : Prop :=
  (deps = [] ∧ stability ≠ some unstableText) ∨ (deps.length = 1 ∧ stability = some unstableText)

theorem freezeCheck_handsOver_iff (p : Preprocessing) (stability : Option Text) (deps : List CommandPath) :
    HandsOver stability deps (freezeCheckArgs p stability deps) ↔ OneFlag stability deps := by
  cases stable : isStable stability with
  | true =>
    have stated := isStable_iff.mp stable
    constructor
    · intro handed
      have none_ := handed.dependencies
      rw [values_grouped_of_stable p stable, List.map_nil, List.nil_eq, List.map_eq_nil_iff] at none_
      exact .inl ⟨none_, stated⟩
    · rintro (⟨rfl, -⟩ | ⟨-, unstable⟩)
      · have grouped : groupedFlags stability [] = stabilityFlag stability ++ [' '] := by
          rw [groupedFlags, if_pos stable, if_pos rfl, List.append_nil]
        refine ⟨?_, fun t due => ⟨t ++ [' '], ?_, trim_append_blank rfl t⟩, ?_⟩
        · rw [values_grouped_of_stable p stable]
          rfl
        · rw [freezeCheckArgs_eq, grouped, due.1, stabilityFlag_some, ← List.append_assoc "--stability=".toList]
          exact List.mem_append_left _ (List.mem_append_right _ List.mem_cons_self)
        · rw [freezeCheckArgs_eq, grouped]
          refine nil_notMem_between p.others_before p.others_behind fun member => ?_
          exact List.append_ne_nil_of_right_ne_nil _ (List.cons_ne_nil ' ' []) (List.mem_singleton.mp member).symm
      · exact absurd unstable stated
  | false =>
    have unstable : stability = some unstableText := by
      by_contra other
      rw [isStable_iff.mpr other] at stable
      cases stable
    cases deps with
    | nil =>
      -- the flags are an empty argument
      have grouped : groupedFlags stability [] = [] := by
        rw [groupedFlags, stable]
        rfl
      constructor
      · intro handed
        refine absurd ?_ handed.nonempty
        rw [freezeCheckArgs_eq, grouped]
        exact List.mem_append_left _ (List.mem_append_right _ List.mem_cons_self)
      · rintro (⟨-, stated⟩ | ⟨one, -⟩)
        · exact absurd unstable stated
        · cases one
    | cons dep deps =>
      constructor
      · intro handed
        have all := congrArg List.length handed.dependencies
        rw [values_grouped_of_unstable p stable, List.length_map, List.length_map] at all
        exact .inr ⟨all.symm, unstable⟩
      · rintro (⟨none_, -⟩ | ⟨one, -⟩)
        · cases none_
        · obtain rfl : deps = [] := List.length_eq_zero_iff.mp (by simpa using one)
          have value : values 'p' (freezeCheckArgs p stability [dep]) = [dep.text ++ [' ']] := by
            rw [values_grouped_of_unstable p stable, List.map_singleton, List.intercalate_singleton]
            rfl
          refine ⟨?_, fun t due => ?_, ?_⟩
          · rw [value, List.map_singleton, List.map_singleton, trim_append_blank rfl, trim_of_unsplit dep.unsplit]
          · exact absurd (Option.some.inj (due.1.symm.trans unstable)) due.2.2
          · rw [freezeCheckArgs_eq]
            refine nil_notMem_between p.others_before p.others_behind fun member => ?_
            rw [groupedFlags, stable, if_neg Bool.false_ne_true, if_neg (List.cons_ne_nil dep []), List.nil_append] at member
            exact List.append_ne_nil_of_right_ne_nil _ (List.cons_ne_nil ' ' []) (List.mem_singleton.mp member).symm

/-- All four commands hand the tool the same flags exactly when the shell leaves the stability whole and the flags of the
    check before a freeze fit in one argument. -/
theorem commands_agree_iff (p : Preprocessing) (c : Comparison) (level : Text) (stability : Option Text)
    (deps : List CommandPath) :
    (HandsOver stability deps (genPreprocessedArgs p stability deps) ∧
      HandsOver stability deps (checkApiArgs c level stability deps) ∧
      HandsOver stability deps (developmentArgs c stability deps) ∧
      HandsOver stability deps (freezeCheckArgs p stability deps)) ↔
      Unbroken stability ∧ OneFlag stability deps := by
  constructor
  · rintro ⟨-, -, development, freeze⟩
    exact ⟨unbroken_of_development development, (freezeCheck_handsOver_iff p stability deps).mp freeze⟩
  · rintro ⟨unbroken, oneFlag⟩
    exact ⟨genPreprocessed_handsOver p stability deps, checkApi_handsOver c level stability deps,
      development_of_unbroken c unbroken deps, (freezeCheck_handsOver_iff p stability deps).mpr oneFlag⟩

def aidlTool : CommandPath where
  text := "/usr/bin/aidl".toList
  nonempty := by decide +kernel
  unsplit := fun c member => by simpa using List.any_eq_false.mp (by decide +kernel) c member
  notOption := fun t same => absurd (show _ = some '-' from congrArg List.head? same) (by decide +kernel)

def commonPreprocessed : CommandPath where
  text := "/out/common/preprocessed.aidl".toList
  nonempty := by decide +kernel
  unsplit := fun c member => by simpa using List.any_eq_false.mp (by decide +kernel) c member
  notOption := fun t same => absurd (show _ = some '-' from congrArg List.head? same) (by decide +kernel)

def halPreprocessing : Preprocessing := ⟨aidlTool, commonPreprocessed, commonPreprocessed, []⟩

/-- With the stability `vintf` and one dependency, the check before a freeze passes both as one argument. -/
theorem dependency_hidden :
    "--stability=vintf -p/out/common/preprocessed.aidl ".toList ∈
        freezeCheckArgs halPreprocessing (some "vintf".toList) [commonPreprocessed] ∧
      values 'p' (freezeCheckArgs halPreprocessing (some "vintf".toList) [commonPreprocessed]) = [] ∧
      ¬HandsOver (some "vintf".toList) [commonPreprocessed]
        (freezeCheckArgs halPreprocessing (some "vintf".toList) [commonPreprocessed]) := by
  have none_ : values 'p' (freezeCheckArgs halPreprocessing (some "vintf".toList) [commonPreprocessed]) = [] := by
    decide +kernel
  refine ⟨by decide +kernel, none_, fun handed => ?_⟩
  have all := handed.dependencies
  rw [none_] at all
  cases all

end BinderIdl.Interface
