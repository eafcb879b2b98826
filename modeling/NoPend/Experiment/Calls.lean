import NoPend.Experiment.Main
import NoPend.FaultResolver.Advances
import NoPend.FaultResolver.Cost

set_option autoImplicit false

/- What holds of an experiment after any calls, and of the result of any program run. -/
namespace NoPend

open AbstractFaultResolver Proc FaultLocalization

section Calls

/-- The methods that run test cases without recording verdicts. -/
def Method.Recordless (method : Method) : Prop := method = .ben ∨ method = .resolver .iterAIFL

/-- Where calls can lead from an experiment. -/
structure Onward (first after : FaultLocalization) : Prop where
  method : after.method = first.method
  records : first.method ≠ .ben → Advances first.faultResolver after.faultResolver
  tests : first.method.Recordless → Enlarges first.faultResolver after.faultResolver

instance : IsPreorder FaultLocalization Onward where
  refl experiment := ⟨rfl, fun _ => refl_of Advances _, fun _ => refl_of Enlarges _⟩
  trans _ _ _ first second := by
    have records := second.records
    have tests := second.tests
    rw [first.method] at records tests
    exact ⟨second.method.trans first.method, fun other =>
      trans_of Advances (first.records other) (records other),
      fun without => trans_of Enlarges (first.tests without) (tests without)⟩

theorem exec_onResolver {α : Type} (call : ResolverM α) (experiment : FaultLocalization) :
    (onResolver call).exec experiment = ((call.exec experiment.faultResolver).1,
      { experiment with faultResolver := (call.exec experiment.faultResolver).2 }) := rfl

theorem onResolver_onward {α : Type} {call : ResolverM α} {experiment : FaultLocalization}
    (records : experiment.method ≠ .ben → Within Advances call)
    (tests : experiment.method.Recordless → Within Enlarges call) :
    Onward experiment ((onResolver call).exec experiment).2 := by
  rw [exec_onResolver]
  exact ⟨rfl, fun other => records other _, fun without => tests without _⟩

theorem conduct_onward (here : Circumstances) : Within Onward (FaultLocalization.conduct here) := by
  intro experiment
  rw [FaultLocalization.conduct, exec_bind]
  change Onward experiment (exec (if experiment.conducted = true then _ else _) experiment).2
  split
  · exact refl_of Onward experiment
  · refine onResolver_onward (fun other => ?_) fun without => ?_
    · cases method : experiment.method with
      | resolver kind =>
          exact Resolver.conduct_within recordingSteps_advances kind here.combination
            here.fuel here.order
      | ben => exact absurd method other
    · rcases without with ben | recordless
      · rw [ben]
        exact BenFaultResolver.conduct_within steps_enlarges runTestcase_enlarges here.doubles
          here.combination here.fuel here.chances
      · rw [recordless]
        exact IterAIFLFaultResolver.conduct_within steps_enlarges here.combination here.order

theorem perform_onward (call : ExperimentCall) : Within Onward call.perform := by
  cases call with
  | conduct here => exact conduct_onward here
  | reset => exact .modify fun experiment =>
      ⟨rfl, fun _ => ⟨rfl, rfl, rfl, rfl, rfl, append_nothing, append_nothing⟩,
        fun _ => ⟨rfl, rfl, rfl, rfl, rfl, append_nothing, append_nothing⟩⟩

/-- What is decided stays decided when verdicts are added. -/
theorem Advances.pending {r r' : AbstractFaultResolver} (advances : Advances r r') {comb : Comb}
    (pending : r'.checkPending comb = .ok true) : r.checkPending comb = .ok true := by
  obtain ⟨_, healthy, _⟩ := advances.healthy
  obtain ⟨_, faulty, _⟩ := advances.faulty
  unfold checkPending at pending ⊢
  obtain ⟨above, first, rest⟩ := Except.bind_ok.mp pending
  rw [healthy] at first
  cases above with
  | true => cases Except.ok.inj rest
  | false =>
      obtain ⟨below, second, last⟩ := Except.bind_ok.mp rest
      rw [faulty] at second
      cases below with
      | true => cases Except.ok.inj last
      | false =>
          rw [Except.anyM_of_append first, Except.anyM_of_append second]
          rfl

/-- Whatever calls of `conduct` and `reset` an experiment gets, and whether they return or throw: a
resolver other than BEN never changes the tests, a verdict that it has recorded stays and is one on
a test case that contains the combination, and a combination that is decided does not become pending
again. BEN only adds test cases to the list that their verdict asks for, and like IterAIFL records
nothing. -/
theorem FaultLocalization.calls_advance (first : FaultLocalization) (calls : List ExperimentCall) :
    (first.method ≠ .ben →
      Advances first.faultResolver
        ((calls.forM ExperimentCall.perform).exec first).2.faultResolver ∧
      ∀ comb, ((calls.forM ExperimentCall.perform).exec first).2.faultResolver.checkPending comb =
        .ok true →
        first.faultResolver.checkPending comb = .ok true) ∧
    (first.method.Recordless →
      Enlarges first.faultResolver
        ((calls.forM ExperimentCall.perform).exec first).2.faultResolver) := by
  have onward : Onward first ((calls.forM ExperimentCall.perform).exec first).2 :=
    Within.forM calls perform_onward first
  exact ⟨fun other => ⟨onward.records other, fun comb => (onward.records other).pending⟩,
    onward.tests⟩

end Calls

section Results

variable {n t : Nat} (subject : Subject n t)

/-- Each resolver other than BEN finds something definite, and keeps what it needs for it. -/
theorem Subject.all_find {kind : Resolver} (fits : (Method.resolver kind).Fits n) :
    ∃ (Good : AbstractFaultResolver → Prop) (Found : Comb → Prop), ∀ here : Circumstances,
      here.Enough n →
      Finds subject.MFC_real subject.safeValues subject.Tpass subject.Tfail
        ((Method.resolver kind).conduct here) Good Found := by
  have fuel : ∀ here : Circumstances, here.Enough n → n < here.fuel := fun here enough =>
    lt_of_lt_of_le Nat.lt_two_pow_self ((Nat.le_add_right _ _).trans enough)
  obtain ⟨family, _, each⟩ := @FINOVLPFaultResolver.exists_finds n subject.MFC_real
    subject.safeValues subject.Tpass subject.Tfail subject.table subject.safeFor subject.failing
  cases kind with
  | sofot =>
      exact ⟨_, _, fun _ _ =>
        SOFOTFaultResolver.finds subject.table subject.safeFor subject.failing⟩
  | fic =>
      exact ⟨_, _, fun here enough =>
        each _ FICFaultResovler.locates here.fuel (fuel here enough)⟩
  | ficbs =>
      have locates := FICBSFaultResolver.locates subject.table subject.safeFor
      exact ⟨_, _, fun here enough => each _ locates here.fuel (fuel here enough)⟩
  | comFIL | iterAIFL | trt | noPend =>
      obtain ⟨Good, finds⟩ := exact_finds subject (by simp) fits
      exact ⟨Good, _, finds⟩

/-- `conduct` of a new experiment returns. -/
theorem Subject.exists_conduct_run {kind : Resolver} (fits : (Method.resolver kind).Fits n)
    (random : Nat → Bool) {here : Circumstances} (enough : here.Enough n) :
    ∃ after, ((Method.resolver kind).conduct here).Runs (subject.resolver random)
      ⟨⟩ after := by
  obtain ⟨Good, Found, finds⟩ := subject.all_find fits
  obtain ⟨after, runs, _⟩ := (finds here enough).runs _ ⟨⟨rfl, rfl⟩, rfl, rfl, rfl⟩
    ((finds here enough).start (subject.resolver random) rfl rfl rfl)
  exact ⟨after, runs⟩

/-- A test case with a verdict has as many parameters as the faults. -/
theorem Checker.size_of_judge {MFC_real : List Comb} (some : MFC_real ≠ [])
    (sizes : ∀ M ∈ MFC_real, M.size = n)
    {test : Testcase} {healthy : Bool} (answer : Checker.judge MFC_real test = .ok healthy) :
    test.size = n := by
  cases MFC_real with
  | nil => exact absurd rfl some
  | cons M rest =>
      obtain ⟨inside, asked, _⟩ := Except.bind_ok.mp answer
      unfold Comb.contains at asked
      split at asked
      · cases asked
      · rename_i same
        exact (not_not.mp same).trans (sizes M (by simp))

/-- The recorded combinations of an experiment speak of its parameters. -/
theorem Subject.sized {random : Nat → Bool} {after : AbstractFaultResolver}
    (advances : Advances (subject.resolver random) after) : after.RecordsSized n := by
  have sizes : ∀ M ∈ subject.MFC_real, M.size = n :=
    fun M member => (subject.table.binary M member).size
  have each : ∀ {c : Comb} {healthy : Bool}, (∃ test : Testcase, test.Contains c ∧
      (subject.resolver random).checker.verdict test = .ok healthy) → c.size = n := by
    rintro c healthy ⟨test, contains, answer⟩
    exact contains.1.symm.trans (Checker.size_of_judge subject.some sizes answer)
  obtain ⟨healthy, records, backed⟩ := advances.healthy
  obtain ⟨faulty, records', backed'⟩ := advances.faulty
  refine ⟨fun c member => ?_, fun c member => ?_⟩
  · rw [records] at member
    exact each (backed c member)
  · rw [records'] at member
    exact each (backed' c member)

/-- The average over the failing test cases is a proportion. -/
theorem average_runs (experiment : FaultLocalization) (some : experiment.Tfail ≠ [])
    (each : ∀ tfail ∈ experiment.Tfail, ∀ r,
      verdicts r = verdicts experiment.faultResolver →
      ∃ proportion after,
        (AbstractFaultResolver.getPendingCombProportion tfail).Runs r proportion after ∧
        0 ≤ proportion ∧ proportion ≤ 1) :
    ∃ average after,
      FaultLocalization.getPendingCombProportion.Runs experiment (.some average) after ∧
      0 ≤ average ∧ average ≤ 1 := by
  have sums : ∀ (tests : List Testcase) (ans : Rat) (now : FaultLocalization),
      (∀ tfail ∈ tests, tfail ∈ experiment.Tfail) →
      verdicts now.faultResolver = verdicts experiment.faultResolver →
      ∃ total after, (tests.foldlM (fun (ans : Rat) tfail => do
        return ans + (← onResolver (AbstractFaultResolver.getPendingCombProportion tfail)))
          ans).Runs now total after ∧ ans ≤ total ∧ total ≤ ans + tests.length := by
    intro tests
    induction tests with
    | nil => exact fun ans now _ _ => ⟨ans, now, Runs.ret _ _, le_refl _, by simp⟩
    | cons tfail rest ih =>
        intro ans now listed same
        obtain ⟨proportion, after, runs, low, high⟩ :=
          each tfail (listed tfail (by simp)) now.faultResolver same
        obtain ⟨total, last, more, above, below⟩ :=
          ih (ans + proportion) { now with faultResolver := after }
            (fun test member => listed test (List.mem_cons_of_mem _ member))
            (((getPendingCombProportion_keeps tfail).of_runs runs).trans same)
        refine ⟨total, last, ?_, by linarith, ?_⟩
        · have step : Runs (do return ans +
              (← onResolver (AbstractFaultResolver.getPendingCombProportion tfail)))
              now (ans + proportion) { now with faultResolver := after } :=
            (onResolver_runs runs).bind (Runs.ret _ _)
          rw [List.foldlM_cons]
          exact Runs.bind step more
        · rw [List.length_cons, Nat.cast_add, Nat.cast_one]
          linarith
  obtain ⟨total, after, runs, low, high⟩ := sums experiment.Tfail 0 experiment
    (fun _ member => member) rfl
  have divisor : (0 : Rat) < experiment.Tfail.length :=
    Nat.cast_pos.mpr (List.length_pos_iff.mpr some)
  refine ⟨total / experiment.Tfail.length, after, (Runs.get experiment).bind (runs.bind ?_),
    div_nonneg low divisor.le, (div_le_one divisor).mpr (by linarith)⟩
  rw [Measure.quotient, if_neg divisor.ne']
  exact Runs.ret _ _

/-- Without records there is no average. -/
theorem average_throws (experiment : FaultLocalization) (some : experiment.Tfail ≠ [])
    (nothing : experiment.faultResolver.healthyCombs = [] ∧
      experiment.faultResolver.faultyCombs = []) :
    FaultLocalization.getPendingCombProportion.Throws experiment
      (.illegalState "This fault resolver does not use Assumption 1") experiment := by
  obtain ⟨tfail, rest, split⟩ := List.exists_cons_of_ne_nil some
  have throws : (AbstractFaultResolver.getPendingCombProportion tfail).Throws
      experiment.faultResolver
      (.illegalState "This fault resolver does not use Assumption 1") experiment.faultResolver := by
    refine (Runs.get _).bind_throws ?_
    rw [if_pos (by rw [nothing.1, nothing.2]; rfl)]
    rfl
  have asked : (onResolver (AbstractFaultResolver.getPendingCombProportion tfail)).Throws experiment
      (.illegalState "This fault resolver does not use Assumption 1") experiment := by
    rw [Throws, exec_onResolver, throws]
  refine (Runs.get experiment).bind_throws ?_
  rw [split]
  dsimp only
  rw [List.foldlM_cons]
  exact ((asked.bind _).bind _).bind _

/-- The proportion of a result is missing exactly where no verdict was recorded. -/
theorem pendingOrNull_runs (done : FaultLocalization) (some : done.Tfail ≠ [])
    (sized : done.faultResolver.RecordsSized n) (sizes : ∀ tfail ∈ done.Tfail, tfail.size = n) :
    ∃ value after, Main.pendingOrNull.Runs done value after ∧
      (value = none ↔
        done.faultResolver.healthyCombs = [] ∧ done.faultResolver.faultyCombs = []) ∧
      ∀ average, value = .some average → ∃ p, average = .some p ∧ 0 ≤ p ∧ p ≤ 1 := by
  by_cases nothing : done.faultResolver.healthyCombs = [] ∧ done.faultResolver.faultyCombs = []
  · have throws := average_throws done some nothing
    exact ⟨none, done, (throws.bind _).tryCatch (Runs.ret _ _), iff_of_true rfl nothing,
      fun _ impossible => nomatch impossible⟩
  · obtain ⟨p, after, runs, bounds⟩ := average_runs done some fun tfail member r same => by
      simp only [verdicts, Prod.mk.injEq] at same
      obtain ⟨healthy, faulty⟩ := same
      refine getPendingCombProportion_runs (n := n) ⟨?_, ?_⟩ (sizes tfail member) ?_
      · rw [healthy]
        exact sized.healthy
      · rw [faulty]
        exact sized.faulty
      · rw [healthy, faulty]
        exact not_and_or.mp nothing
    refine ⟨.some (.some p), after, pendingOrNull_of runs, iff_of_false (by simp) nothing, ?_⟩
    rintro average same
    exact ⟨p, (Option.some.inj same).symm, bounds⟩

variable {files : Files} {modelPath MFSPath safePath : Cell} {name : String} {kind : Resolver}

/-- What a program run does after the constructor: `conduct`, and the samples. -/
theorem Main.runExperiment_eq (written : subject.InFiles files modelPath MFSPath safePath)
    (named : METHOD_MAP name = .some (.resolver kind)) (fits : (Method.resolver kind).Fits n)
    (random : Nat → Bool) {here : Circumstances} (enough : here.Enough n) : ∃ after pending,
      ((Method.resolver kind).conduct here).Runs (subject.resolver random) ⟨⟩ after ∧
      runExperiment files modelPath MFSPath safePath t name random here =
        .ok (collected here.order subject.Tfail.length
          { subject.experiment (.resolver kind) random with faultResolver := after } pending) ∧
      (pending = none ↔ after.healthyCombs = [] ∧ after.faultyCombs = []) ∧
      ∀ average, pending = .some average → ∃ p,
        average = .some p ∧ 0 ≤ p ∧ p ≤ 1 := by
  obtain ⟨after, runs⟩ := subject.exists_conduct_run fits random enough
  have advances : Advances (subject.resolver random) after :=
    (Resolver.conduct_within recordingSteps_advances kind here.combination here.fuel
      here.order).of_runs runs
  let ended : FaultLocalization :=
    { subject.experiment (.resolver kind) random with faultResolver := after }
  have conducts : (FaultLocalization.conduct here).Runs (subject.experiment (.resolver kind) random)
      ⟨⟩ ended :=
    FaultLocalization.conduct_runs rfl runs
  obtain ⟨pending, final, proportion, missing, bounds⟩ := pendingOrNull_runs (n := n) ended
    subject.Tfail_ne_nil (subject.sized advances)
    fun tfail member => (subject.failing tfail member).1.size
  refine ⟨after, pending, runs, ?_, missing, bounds⟩
  rw [runExperiment, named]
  exact Except.bind_ok.mpr ⟨_, FaultLocalization.create_eq subject written fits random,
    congrArg (fun ended => IOExn.lift ended.1) (measured_of conducts proportion)⟩

/-- A program run with any method but BEN on the files of a subject returns a result: the tests that
the resolver executed are counted and averaged over the failing ones, and the proportion of pending
schemas lies between 0 and 1, or is missing, exactly where the resolver recorded no verdict. With
IterAIFL it is always missing. -/
theorem Main.runExperiment_returns (written : subject.InFiles files modelPath MFSPath safePath)
    (named : METHOD_MAP name = .some (.resolver kind)) (fits : (Method.resolver kind).Fits n)
    (random : Nat → Bool) {here : Circumstances} (enough : here.Enough n) : ∃ after result,
      ((Method.resolver kind).conduct here).Runs (subject.resolver random) ⟨⟩ after ∧
      runExperiment files modelPath MFSPath safePath t name random here = .ok result ∧
      result.numAT = after.checker.executedTestcase.size ∧
      result.numAT_avg = .some ((result.numAT : Rat) / subject.Tfail.length) ∧
      (result.pendingSchemaProportion = none ↔
        after.healthyCombs = [] ∧ after.faultyCombs = []) ∧
      (∀ average, result.pendingSchemaProportion = .some average →
        ∃ p, average = .some p ∧ 0 ≤ p ∧ p ≤ 1) ∧
      (kind = .iterAIFL → result.pendingSchemaProportion = none) := by
  obtain ⟨after, pending, runs, returned, missing, bounds⟩ :=
    runExperiment_eq subject written named fits random enough
  have divisor : (subject.Tfail.length : Rat) ≠ 0 :=
    Nat.cast_ne_zero.mpr (List.length_pos_iff.mpr subject.Tfail_ne_nil).ne'
  refine ⟨after, _, runs, returned, rfl, if_neg divisor, missing, bounds, ?_⟩
  rintro rfl
  have same : Enlarges (subject.resolver random) after :=
    (IterAIFLFaultResolver.conduct_within steps_enlarges here.combination here.order).of_runs runs
  exact missing.mpr ⟨same.healthy, same.faulty⟩

/-- The results of NoPend and of IterAIFL for the sample files. -/
theorem Main.runExperiment_returns_sample : ∃ result result',
    runExperiment sampleFiles "s-model.csv".toList "s-mfs.csv".toList "s-safe.csv".toList 2
      "NoPend" (fun _ => false) sampleCircumstances = .ok result ∧
    result.numAT_avg = some ((result.numAT : Rat) / 4) ∧
    runExperiment sampleFiles "s-model.csv".toList "s-mfs.csv".toList "s-safe.csv".toList 2
      "IterAIFL" (fun _ => false) sampleCircumstances = .ok result' ∧
    result'.pendingSchemaProportion = none := by
  obtain ⟨_, result, _, returned, _, average, _⟩ := runExperiment_returns Subject.sample
    sample_inFiles (show METHOD_MAP "NoPend" = some (.resolver .noPend) from rfl) trivial
    (fun _ => false) sample_enough
  obtain ⟨_, result', _, returned', _, _, _, _, none⟩ := runExperiment_returns Subject.sample
    sample_inFiles (show METHOD_MAP "IterAIFL" = some (.resolver .iterAIFL) from rfl)
    (fun k => lt_of_le_of_lt (Nat.choose_le_two_pow 4 k) (by decide)) (fun _ => false) sample_enough
  have tests : Subject.sample.Tfail.length = 4 := by decide
  rw [tests] at average
  exact ⟨result, result', returned, average, returned', none rfl⟩

/-- The methods that leave out parameters, and the checks they make at most for a failing test
case. -/
def Resolver.checksBounds (n : Nat) : List (Resolver × Nat) :=
  [(.sofot, n), (.fic, n * (1 + n) + 1), (.ficbs, n * (2 * Nat.log 2 n + 3) + 1)]

theorem Resolver.mem_checksBounds {most : Nat} : (kind, most) ∈ checksBounds n ↔
    (kind = .sofot ∧ most = n) ∨ (kind = .fic ∧ most = n * (1 + n) + 1) ∨
      (kind = .ficbs ∧ most = n * (2 * Nat.log 2 n + 3) + 1) := by
  simp [checksBounds]

theorem Subject.conduct_counter {most : Nat} (bounded : (kind, most) ∈ Resolver.checksBounds n)
    (random : Nat → Bool) {here : Circumstances} {after : AbstractFaultResolver}
    (runs : ((Method.resolver kind).conduct here).Runs (subject.resolver random) ⟨⟩ after) :
    after.counter ≤ subject.Tfail.length * most := by
  have binary : ∀ t ∈ subject.Tfail, t.Binary n := fun t member => (subject.failing t member).1
  have uses : Uses subject.MFC_real subject.safeValues (subject.resolver random) := ⟨rfl, rfl⟩
  rcases Resolver.mem_checksBounds.mp bounded with ⟨rfl, rfl⟩ | ⟨rfl, rfl⟩ | ⟨rfl, rfl⟩
  · exact (SOFOTFaultResolver.conduct_counter (r := subject.resolver random) rfl rfl binary
      runs).trans_eq (Nat.zero_add _)
  · have scanned := FINOVLPFaultResolver.conduct_counter subject.table subject.safeFor
      FICFaultResovler.locates FICFaultResovler.price uses rfl binary runs
    refine scanned.trans_eq ((Nat.zero_add _).trans ?_)
    rw [Nat.zero_mul, Nat.add_zero]
    rfl
  · have searched := FINOVLPFaultResolver.conduct_counter subject.table subject.safeFor
      (FICBSFaultResolver.locates subject.table subject.safeFor)
      (FICBSFaultResolver.price subject.positive) uses rfl binary runs
    refine searched.trans_eq ((Nat.zero_add _).trans ?_)
    change subject.Tfail.length * _ = _
    ring

/-- The additional test cases of a program run with a method that leaves out parameters: SOFOT needs
at most one for each parameter of a failing test case, FIC quadratically many in the number of
parameters, FICBS about twice the number of parameters times its logarithm. -/
theorem Main.runExperiment_numAT (written : subject.InFiles files modelPath MFSPath safePath)
    (named : METHOD_MAP name = .some (.resolver kind)) {most : Nat}
    (bounded : (kind, most) ∈ Resolver.checksBounds n) (random : Nat → Bool)
    {here : Circumstances} (enough : here.Enough n) : ∃ result average,
      runExperiment files modelPath MFSPath safePath t name random here = .ok result ∧
      result.numAT ≤ subject.Tfail.length * most ∧
      result.numAT_avg = .some average ∧ average ≤ most := by
  have fits : (Method.resolver kind).Fits n := by
    rcases Resolver.mem_checksBounds.mp bounded with ⟨rfl, _⟩ | ⟨rfl, _⟩ | ⟨rfl, _⟩ <;>
      trivial
  obtain ⟨after, pending, runs, returned, _⟩ :=
    runExperiment_eq subject written named fits random enough
  have counted : Counted (subject.resolver random) after :=
    (Resolver.conduct_within recordingSteps_counted kind here.combination here.fuel
      here.order).of_runs runs
  have few : after.checker.executedTestcase.size ≤ subject.Tfail.length * most :=
    (counted.trans_eq (Nat.zero_add _)).trans (subject.conduct_counter bounded random runs)
  have divisor : (0 : Rat) < subject.Tfail.length :=
    Nat.cast_pos.mpr (List.length_pos_iff.mpr subject.Tfail_ne_nil)
  refine ⟨_, _, returned, few, if_neg divisor.ne', (div_le_iff₀ divisor).mpr ?_⟩
  rw [mul_comm]
  exact_mod_cast few

/-- At most four test cases for each of the four failing ones. -/
theorem Main.runExperiment_numAT_sample : ∃ result average,
    runExperiment sampleFiles "s-model.csv".toList "s-mfs.csv".toList "s-safe.csv".toList 2 "SOFOT"
      (fun _ => false) sampleCircumstances = .ok result ∧ result.numAT ≤ 4 * 4 ∧
    result.numAT_avg = some average ∧ average ≤ 4 := by
  obtain ⟨result, average, returned, few, averaged, most⟩ := runExperiment_numAT Subject.sample
    sample_inFiles (show METHOD_MAP "SOFOT" = some (.resolver .sofot) from rfl)
    (show (Resolver.sofot, 4) ∈ Resolver.checksBounds 4 by decide) (fun _ => false) sample_enough
  have tests : Subject.sample.Tfail.length = 4 := by decide
  rw [tests] at few
  exact ⟨result, average, returned, few, averaged, most⟩

end Results

end NoPend
