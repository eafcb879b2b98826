import NoPend.FaultResolver.Ben
import NoPend.FaultResolver.Resolvers
import NoPend.Lib.Relational

set_option autoImplicit false

/- What a resolver only ever adds to, whatever the system under test answers, and also when a call
throws. Each resolver is walked through once, for all relations that its steps respect. -/
namespace NoPend

open AbstractFaultResolver Proc

/-- The steps that all resolvers take. -/
structure Steps (R : AbstractFaultResolver → AbstractFaultResolver → Prop) : Prop where
  checks : ∀ t, Within R (check t)
  starts : ∀ r : AbstractFaultResolver, R r { r with conducted := true }
  identifies : ∀ r combs, R r (identified r combs)

/-- The steps of the resolvers that record verdicts. -/
structure RecordingSteps (R : AbstractFaultResolver → AbstractFaultResolver → Prop) :
    Prop extends
    Steps R where
  notes : ∀ comb tfail, Within R (check_with_safevalues comb tfail)
  notesAtRandom : ∀ comb, Within R (check_with_safevalues_at_random comb)

section Walk

variable {R : AbstractFaultResolver → AbstractFaultResolver → Prop}
  [IsPreorder AbstractFaultResolver R]

theorem Steps.addIdentified (steps : Steps R) (tfail : Testcase) (MFS : Schema) :
    Within R (addIdentified tfail MFS) :=
  (Within.lift _).bind fun comb => .modify fun r => steps.identifies r [comb]

theorem Steps.conductOnce (steps : Steps R) {body : ResolverM Unit} (within : Within R body)
    (message : String) : Within R (conductOnce message body) := by
  refine Within.get.bind fun r => ?_
  split
  · exact .ret _
  · refine Within.bind (.modify steps.starts) fun _ => Within.get.bind fun r => ?_
    split
    · exact .throw _
    · exact within

theorem RecordingSteps.searchChain (steps : RecordingSteps R) (indices : List Nat)
    (max min : Schema) (tfail : Testcase) : Within R (searchChain indices max min tfail) := by
  have round : ∀ chain state, Within R (searchRound chain tfail state) := by
    rintro chain ⟨left, right, result⟩
    unfold searchRound
    dsimp only
    split
    · refine (Within.lift _).bind fun schema => (Within.lift _).bind fun comb => ?_
      refine (steps.notes comb tfail).bind fun passed => ?_
      split
      · exact .ret _
      · exact .ret _
    · exact .ret _
  unfold NoPend.searchChain
  split
  · exact .throw _
  · refine (Within.lift _).bind fun ordered => ?_
    split
    · exact .throw _
    · refine (Within.lift _).bind fun comb => (steps.notes comb tfail).bind fun passed => ?_
      split
      · exact .ret _
      · refine (Within.iterate (round _) _ _).bind fun result => ?_
        split
        · exact .ret _
        · exact (Within.lift _).bind fun _ => .ret _

theorem NoPendFaultResolver.conduct_within (steps : RecordingSteps R) (fuel : Nat)
    (order : IterOrder Comb) : Within R (conduct fuel order) := by
  have identify : ∀ fuel tfail univ CMinF CMaxP,
      Within R (identify tfail fuel univ CMinF CMaxP) := by
    intro fuel tfail
    induction fuel with
    | zero => exact fun _ _ _ => .throw _
    | succ fuel ih =>
        intro univ CMinF CMaxP
        unfold NoPendFaultResolver.identify
        split
        · exact .ret _
        · refine Within.iterate ?_ _ _
          rintro ⟨CMinF, CMaxP⟩
          refine (Within.lift _).bind fun longest => ?_
          split
          · exact .ret _
          · refine (steps.searchChain _ _ _ tfail).bind fun found => ?_
            split
            · exact (Within.lift _).bind fun _ => .ret _
            · refine (Within.lift _).bind fun _ => (Within.lift _).bind fun _ => ?_
              refine (ih _ _ _).bind fun _ => (Within.lift _).bind fun _ => ?_
              exact (Within.lift _).bind fun _ => .ret _
  refine steps.conductOnce (Within.get.bind fun r => Within.forM _ fun tfail => ?_) _
  have seeded : Within R (seeds order tfail) := by
    refine (Within.lift _).bind fun _ => (Within.lift _).bind fun _ => Within.get.bind fun _ => ?_
    exact (Within.lift _).bind fun _ => .ret _
  refine (seeded.bind fun _ => identify fuel tfail _ _ _).bind fun _ => ?_
  exact Within.forM _ (steps.addIdentified tfail)

theorem TRTFaultResolver.conduct_within (steps : RecordingSteps R) (fuel : Nat) :
    Within R (conduct fuel) := by
  refine steps.conductOnce (Within.get.bind fun r => Within.forM _ fun tfail => ?_) _
  have round : ∀ trt, Within R (markRound tfail trt) := by
    intro trt
    refine (Within.lift _).bind fun top => ?_
    dsimp only
    split
    · exact .ret _
    · refine (Within.lift _).bind fun bottom => ?_
      split
      · exact .throw _
      · refine (Within.lift _).bind fun longest => ?_
        split
        · exact .throw _
        · refine (steps.searchChain _ _ _ tfail).bind fun found => ?_
          split
          · exact (Within.lift _).bind fun _ => .ret _
          · exact (Within.lift _).bind fun _ => .ret _
  refine (Within.lift _).bind fun trt => (Within.iterate round _ _).bind fun trt => ?_
  exact (Within.lift _).bind fun _ => Within.forM _ (steps.addIdentified tfail)

theorem FINOVLPFaultResolver.conduct_within (steps : Steps R)
    {locateOneMFC : Testcase → Schema → ResolverM Comb}
    (locates : ∀ t fixedParameter, Within R (locateOneMFC t fixedParameter)) (fuel : Nat) :
    Within R (conduct locateOneMFC fuel) := by
  have fixing : ∀ MFS state i, Within R (fixParameter MFS state i) := by
    rintro MFS ⟨t, fixedParameters⟩ i
    unfold fixParameter
    dsimp only
    split
    · exact .ret _
    · refine Within.bind (Within.get.bind fun r => ?_) fun _ => .ret _
      split
      · exact .throw _
      · refine (Within.lift _).bind fun safe => ?_
        split
        · exact .lift _
        · exact .lift _
  refine steps.conductOnce (Within.get.bind fun r => Within.forM _ fun tfail => ?_) _
  refine Within.bind ?_ fun found => .modify fun r => steps.identifies r found.toList
  refine (Within.lift _).bind fun t => Within.iterate ?_ _ _
  rintro ⟨t, fixedParameters, found⟩
  refine (steps.checks t).bind fun passed => ?_
  split
  · exact .ret _
  · refine (locates t fixedParameters).bind fun MFS => ?_
    exact (Within.foldlM _ (fixing MFS) _).bind fun _ => .ret _

theorem FICFaultResovler.locateOneMFC_within (steps : RecordingSteps R) (t : Testcase)
    (fixedParameter : Schema) : Within R (locateOneMFC t fixedParameter) := by
  refine (Within.lift _).bind fun comb => (Within.foldlM _ ?_ _).bind fun _ => .lift _
  rintro ⟨comb, MFS⟩ i
  unfold locateStep
  dsimp only
  split
  · refine (Within.lift _).bind fun comb => (steps.notes comb t).bind fun passed => ?_
    split
    · exact (Within.lift _).bind fun _ => (Within.lift _).bind fun _ => .ret _
    · exact .ret _
  · exact .ret _

theorem FICBSFaultResolver.locateOneMFC_within (steps : RecordingSteps R) (t : Testcase)
    (fixedParameter : Schema) : Within R (locateOneMFC t fixedParameter) := by
  have search : ∀ t freeParameters, Within R (locateOneFixedParameter t freeParameters) := by
    intro t freeParameters
    unfold locateOneFixedParameter
    split
    · exact .ret _
    · refine Within.iterate ?_ _ _
      rintro ⟨left, right, ans⟩
      unfold searchRound
      dsimp only
      split
      · refine (Within.lift _).bind fun comb => (steps.notes comb t).bind fun passed => ?_
        split
        · exact .ret _
        · exact .ret _
      · exact .ret _
  refine (Within.lift _).bind fun t => (Within.iterate ?_ _ _).bind fun _ => .lift _
  rintro ⟨freeParameters, located⟩
  refine (search t freeParameters).bind fun index => ?_
  split
  · exact .ret _
  · exact (Within.lift _).bind fun _ => .ret _

theorem ComFILFaultResolver.conduct_within (steps : RecordingSteps R) (combination : Combination)
    (order : IterOrder Comb) : Within R (conduct combination order) := by
  refine steps.conductOnce (Within.get.bind fun r => (Within.lift _).bind fun candidateSet => ?_) _
  refine (Within.foldlM _ ?_ _).bind fun found => .modify fun r => steps.identifies r found.toList
  intro candidateSet comb
  unfold decideOne
  split
  · exact .ret _
  · refine (steps.notesAtRandom comb).bind fun passed => ?_
    split
    · exact .lift _
    · exact .lift _

theorem SOFOTFaultResolver.conduct_within (steps : RecordingSteps R) : Within R conduct := by
  refine Within.get.bind fun r => ?_
  split
  · exact .ret _
  · refine Within.bind (.modify steps.starts) fun _ => Within.get.bind fun r => ?_
    split
    · refine Within.get.bind fun r => Within.forM _ fun tfail => ?_
      refine (Within.lift _).bind fun t => (Within.foldlM _ ?_ _).bind fun state => ?_
      · rintro ⟨t, MFS⟩ i
        refine (Within.lift _).bind fun t => (steps.checks t).bind fun passed => ?_
        exact (Within.lift _).bind fun _ => .ret _
      · obtain ⟨_, MFS⟩ := state
        dsimp only
        split
        · exact .ret _
        · exact steps.addIdentified tfail _
    · refine Within.get.bind fun r => Within.forM _ fun tfail => ?_
      refine (Within.lift _).bind fun t => (Within.foldlM _ ?_ _).bind fun state => ?_
      · rintro ⟨t, MFS⟩ i
        refine (Within.lift _).bind fun old_value => (Within.lift _).bind fun t => ?_
        exact (steps.notes t tfail).bind fun passed => (Within.lift _).bind fun _ => .ret _
      · obtain ⟨_, MFS⟩ := state
        dsimp only
        split
        · exact .ret _
        · exact steps.addIdentified tfail MFS

theorem IterAIFLFaultResolver.conduct_within (steps : Steps R) (combination : Combination)
    (order : IterOrder Comb) : Within R (conduct combination order) := by
  refine Within.get.bind fun r => ?_
  split
  · exact .ret _
  · refine Within.bind (.modify steps.starts) fun _ => Within.get.bind fun r => ?_
    refine (Within.lift _).bind fun suspiciousSet => ?_
    split
    · exact .throw _
    · refine (Within.foldlM _ ?_ _).bind fun found => (Within.lift _).bind fun minimalSet =>
        .modify fun r => steps.identifies r minimalSet.toList
      intro suspiciousSet i
      refine Within.get.bind fun r => (Within.lift _).bind fun AT => ?_
      refine (Within.foldlM _ ?_ _).bind fun suspiciousSet => ?_
      · intro suspiciousSet t
        refine (steps.checks t).bind fun passed => ?_
        split
        · exact .lift _
        · exact .ret _
      · split
        · exact .throw _
        · exact .ret _

theorem BenFaultResolver.conduct_within (steps : Steps R) (runs : ∀ t, Within R (runTestcase t))
    (doubles : Doubles) (combination : Combination) (fuel : Nat) (chances : Chances) :
    Within R (conduct doubles combination fuel chances) := by
  have derive : ∀ comb, Within R (deriveFrom combination comb) := by
    intro comb
    refine Within.get.bind fun r => Within.forM _ fun i => ?_
    exact (Within.lift _).bind fun smaller => .modify fun r => steps.identifies r smaller
  refine Within.get.bind fun r => ?_
  split
  · exact .ret _
  · refine Within.bind (.modify steps.starts) fun _ => Within.iterate ?_ _ _
    rintro ⟨old, chances⟩
    refine Within.get.bind fun r => (Within.lift _).bind fun found => ?_
    split
    · exact .ret _
    · split
      · exact (Within.forM _ derive).bind fun _ => .ret _
      · refine (Within.lift _).bind fun components => ?_
        dsimp only
        refine (Within.lift _).bind fun ranked => (Within.lift _).bind fun made => ?_
        exact (Within.forM _ runs).bind fun _ => .ret _

/-- Every resolver that an experiment compares, except BEN. -/
theorem Resolver.conduct_within (steps : RecordingSteps R) (kind : Resolver)
    (combination : Combination)
    (fuel : Nat) (order : IterOrder Comb) : Within R (kind.conduct combination fuel order) := by
  have scans := FICFaultResovler.locateOneMFC_within steps
  have searches := FICBSFaultResolver.locateOneMFC_within steps
  cases kind with
  | sofot => exact SOFOTFaultResolver.conduct_within steps
  | fic => exact FINOVLPFaultResolver.conduct_within steps.toSteps scans fuel
  | ficbs => exact FINOVLPFaultResolver.conduct_within steps.toSteps searches fuel
  | comFIL => exact ComFILFaultResolver.conduct_within steps combination order
  | iterAIFL => exact IterAIFLFaultResolver.conduct_within steps.toSteps combination order
  | trt => exact TRTFaultResolver.conduct_within steps fuel
  | noPend => exact NoPendFaultResolver.conduct_within steps fuel order

/-- Recording a verdict is a check and an entry in the records. -/
theorem RecordingSteps.of_notes (steps : Steps R)
    (noted : ∀ r comb result, R r (note r comb result))
    (draws : Within R nextBoolean) : RecordingSteps R where
  checks := steps.checks
  starts := steps.starts
  identifies := steps.identifies
  notes comb tfail := by
    refine Within.get.bind fun r => ?_
    split
    · exact .throw _
    · refine (Within.lift _).bind fun t => (steps.checks t).bind fun result => ?_
      exact Within.bind (.modify fun r => noted r comb result) fun _ => .ret _
  notesAtRandom comb := by
    refine Within.get.bind fun r => ?_
    split
    · exact .throw _
    · refine Within.bind ((Within.mapM _ fun i => ?_).bind fun _ => .lift _) fun t => ?_
      · unfold padAtRandom
        split
        · refine (Within.lift _).bind fun safe => ?_
          split
          · refine draws.bind fun value => ?_
            split
            · exact .ret _
            · exact .ret _
          · exact .ret _
        · exact .ret _
      · refine (steps.checks t).bind fun result => ?_
        exact Within.bind (.modify fun r => noted r comb result) fun _ => .ret _

end Walk

section Relations

/-- A call on a resolver that records: the tests and the settings stay, verdicts are added to the
records, each of them the verdict on a test case that contains the combination. -/
structure Advances (r r' : AbstractFaultResolver) : Prop where
  verdict : r'.checker.verdict = r.checker.verdict
  Tpass : r'.Tpass = r.Tpass
  Tfail : r'.Tfail = r.Tfail
  safeValues : r'.safeValues = r.safeValues
  t : r'.t = r.t
  healthy : ∃ more, r'.healthyCombs = r.healthyCombs ++ more ∧
    ∀ c ∈ more, ∃ test : Testcase, test.Contains c ∧ r.checker.verdict test = .ok true
  faulty : ∃ more, r'.faultyCombs = r.faultyCombs ++ more ∧
    ∀ c ∈ more, ∃ test : Testcase, test.Contains c ∧ r.checker.verdict test = .ok false

/-- A call on BEN: test cases are added, each to the list that its verdict asks for, and no verdict
is recorded. -/
structure Enlarges (r r' : AbstractFaultResolver) : Prop where
  verdict : r'.checker.verdict = r.checker.verdict
  safeValues : r'.safeValues = r.safeValues
  t : r'.t = r.t
  healthy : r'.healthyCombs = r.healthyCombs
  faulty : r'.faultyCombs = r.faultyCombs
  Tpass : ∃ more, r'.Tpass = r.Tpass ++ more ∧ ∀ u ∈ more, r.checker.verdict u = .ok true
  Tfail : ∃ more, r'.Tfail = r.Tfail ++ more ∧ ∀ u ∈ more, r.checker.verdict u = .ok false

/-- Each call of `check` adds at most one test case to those executed. -/
def Counted (r r' : AbstractFaultResolver) : Prop :=
  r'.checker.executedTestcase.size + r.checker.counter ≤
    r.checker.executedTestcase.size + r'.checker.counter

/-- A list that is added to twice. -/
theorem append_twice {α : Type} {P : α → Prop} {first second third : List α}
    (one : ∃ more, second = first ++ more ∧ ∀ x ∈ more, P x)
    (two : ∃ more, third = second ++ more ∧ ∀ x ∈ more, P x) :
    ∃ more, third = first ++ more ∧ ∀ x ∈ more, P x := by
  obtain ⟨more, rfl, here⟩ := one
  obtain ⟨rest, rfl, there⟩ := two
  refine ⟨more ++ rest, List.append_assoc _ _ _, fun x member => ?_⟩
  rcases List.mem_append.mp member with old | new
  · exact here x old
  · exact there x new

theorem append_nothing {α : Type} {P : α → Prop} {items : List α} :
    ∃ more, items = items ++ more ∧ ∀ x ∈ more, P x :=
  ⟨[], (List.append_nil _).symm, fun _ impossible => absurd impossible List.not_mem_nil⟩

instance : IsPreorder AbstractFaultResolver Advances where
  refl _ := ⟨rfl, rfl, rfl, rfl, rfl, append_nothing, append_nothing⟩
  trans _ _ _ first second := by
    have healthy := second.healthy
    have faulty := second.faulty
    rw [first.verdict] at healthy faulty
    exact ⟨second.verdict.trans first.verdict, second.Tpass.trans first.Tpass,
      second.Tfail.trans first.Tfail, second.safeValues.trans first.safeValues,
        second.t.trans first.t,
      append_twice first.healthy healthy, append_twice first.faulty faulty⟩

instance : IsPreorder AbstractFaultResolver Enlarges where
  refl _ := ⟨rfl, rfl, rfl, rfl, rfl, append_nothing, append_nothing⟩
  trans _ _ _ first second := by
    have passing := second.Tpass
    have failing := second.Tfail
    rw [first.verdict] at passing failing
    exact ⟨second.verdict.trans first.verdict, second.safeValues.trans first.safeValues,
      second.t.trans first.t, second.healthy.trans first.healthy, second.faulty.trans first.faulty,
      append_twice first.Tpass passing, append_twice first.Tfail failing⟩

instance : IsPreorder AbstractFaultResolver Counted where
  refl _ := le_refl _
  trans _ _ _ first second := by
    unfold Counted at first second ⊢
    omega

end Relations

section Padded

variable {comb safeValues : Comb} {t tfail : Testcase}

/-- A test case whose values are those of `comb` wherever it has some contains it. -/
theorem contains_of_values {values : List Int}
    (each : List.Forall₂ (fun i value => comb.val i = Comb.UNKNOWN ∨ value = comb.val i)
      (List.range comb.size) values) (made : Testcase.ofList values = .ok t) : t.Contains comb := by
  have elements : t.elements = values := by
    unfold Testcase.ofList Comb.validated at made
    split at made
    · cases made
    · rw [← Except.ok.inj made]
  have size : t.size = comb.size := by
    rw [Comb.size, elements, ← each.length_eq, List.length_range]
  refine ⟨size, fun i inside => ?_⟩
  have bound : i < values.length := elements ▸ inside
  have here := (List.forall₂_iff_get.mp each).2 i (by rw [List.length_range]; omega) bound
  simp only [List.get_eq_getElem, List.getElem_range] at here
  have value : t.val i = values[i] := by
    rw [Comb.val, elements, List.getD_eq_getElem?_getD, List.getElem?_eq_getElem bound]
    rfl
  rw [value]
  exact here.symm

theorem Testcase.paddingWithSafeValues_contains
    (padded : Testcase.paddingWithSafeValues comb safeValues tfail = .ok t) : t.Contains comb := by
  obtain ⟨values, filled, made⟩ := Except.bind_ok.mp padded
  refine contains_of_values ((Except.forall₂_of_mapM filled).imp fun i value here => ?_) made
  split at here
  · exact Or.inl ‹_›
  · exact Or.inr (Except.ok.inj here).symm

theorem paddingAtRandom_contains {before after : AbstractFaultResolver}
    (padded : (paddingAtRandom comb safeValues).Runs before t after) : t.Contains comb := by
  obtain ⟨values, middle, filled, made⟩ := runs_bind.mp padded
  refine contains_of_values (filled.of_mapM.imp fun i value here => ?_) (runs_lift.mp made).1
  obtain ⟨_, _, chosen⟩ := here
  unfold padAtRandom at chosen
  split at chosen
  · exact Or.inl ‹_›
  · exact Or.inr (runs_pure.mp chosen).1

end Padded

theorem exec_check (t : Testcase) (r : AbstractFaultResolver) :
    (check t).exec r = (r.checker.verdict t, { r with checker := r.checker.record t }) := rfl

theorem check_advances (t : Testcase) : Within Advances (check t) :=
  fun _ => ⟨rfl, rfl, rfl, rfl, rfl, append_nothing, append_nothing⟩

/-- The verdict that is recorded is the one on a test case that contains the combination. -/
theorem checkAndNote_advances {t : Testcase} {comb : Comb} (contains : t.Contains comb) :
    Within Advances (do
      let result ← check t
      modify (note · comb result)
      return result) := by
  intro r
  rw [exec_bind, exec_check]
  have copied : t.Contains comb.copy := contains
  cases answer : r.checker.verdict t with
  | error reason => exact check_advances t r
  | ok result =>
      cases result with
      | true =>
          refine ⟨rfl, rfl, rfl, rfl, rfl, ⟨[comb.copy], rfl, fun c member => ?_⟩,
            append_nothing⟩
          rw [List.mem_singleton.mp member]
          exact ⟨t, copied, answer⟩
      | false =>
          refine ⟨rfl, rfl, rfl, rfl, rfl, append_nothing,
            ⟨[comb.copy], rfl, fun c member => ?_⟩⟩
          rw [List.mem_singleton.mp member]
          exact ⟨t, copied, answer⟩

/-- The resolvers other than BEN only add to the records. -/
theorem recordingSteps_advances : RecordingSteps Advances where
  checks := check_advances
  starts _ := ⟨rfl, rfl, rfl, rfl, rfl, append_nothing, append_nothing⟩
  identifies _ _ := ⟨rfl, rfl, rfl, rfl, rfl, append_nothing, append_nothing⟩
  notes comb tfail := by
    refine Within.get.bind fun r => ?_
    split
    · exact .throw _
    · refine (Within.lift _).bind_returned fun t padded => ?_
      obtain ⟨_, _, runs⟩ := padded
      exact checkAndNote_advances (Testcase.paddingWithSafeValues_contains (runs_lift.mp runs).1)
  notesAtRandom comb := by
    refine Within.get.bind fun r => ?_
    split
    · exact .throw _
    · refine Within.bind_returned ?_ fun t padded => ?_
      · refine (Within.mapM _ fun i => ?_).bind fun _ => .lift _
        have draw : Within Advances nextBoolean :=
          fun _ => ⟨rfl, rfl, rfl, rfl, rfl, append_nothing, append_nothing⟩
        unfold padAtRandom
        split
        · refine (Within.lift _).bind fun safe => ?_
          split
          · refine draw.bind fun value => ?_
            split
            · exact .ret _
            · exact .ret _
          · exact .ret _
        · exact .ret _
      · obtain ⟨_, _, runs⟩ := padded
        exact checkAndNote_advances (paddingAtRandom_contains runs)

/-- BEN only adds test cases. -/
theorem steps_enlarges : Steps Enlarges where
  checks _ _ := ⟨rfl, rfl, rfl, rfl, rfl, append_nothing, append_nothing⟩
  starts _ := ⟨rfl, rfl, rfl, rfl, rfl, append_nothing, append_nothing⟩
  identifies _ _ := ⟨rfl, rfl, rfl, rfl, rfl, append_nothing, append_nothing⟩

theorem runTestcase_enlarges (t : Testcase) : Within Enlarges (BenFaultResolver.runTestcase t) := by
  intro r
  rw [BenFaultResolver.runTestcase, exec_bind, exec_check]
  cases answer : r.checker.verdict t with
  | error reason => exact steps_enlarges.checks t r
  | ok result =>
      cases result with
      | true =>
          refine ⟨rfl, rfl, rfl, rfl, rfl, ⟨[t], rfl, fun u member => ?_⟩, append_nothing⟩
          rwa [List.mem_singleton.mp member]
      | false =>
          refine ⟨rfl, rfl, rfl, rfl, rfl, append_nothing, ⟨[t], rfl, fun u member => ?_⟩⟩
          rwa [List.mem_singleton.mp member]

theorem steps_counted : Steps Counted where
  checks t r := by
    rw [exec_check]
    have more := HashSet.size_add_le r.checker.executedTestcase t
    change (r.checker.executedTestcase.add t).size + _ ≤ _ + (r.checker.counter + 1)
    omega
  starts _ := le_refl _
  identifies _ _ := le_refl _

theorem recordingSteps_counted : RecordingSteps Counted := by
  refine .of_notes steps_counted (fun r comb result => ?_) fun r => ?_
  · cases result
    · exact Nat.le_refl _
    · exact Nat.le_refl _
  · exact Nat.le_refl _

end NoPend
