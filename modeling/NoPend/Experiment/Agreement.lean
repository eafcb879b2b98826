import NoPend.Experiment.Main

set_option autoImplicit false

/- What the resolvers agree on, and what their result means in terms of test cases alone. -/
namespace NoPend

open AbstractFaultResolver Proc FaultLocalization

section Agree

variable {n t : Nat} (subject : Subject n t) {files : Files} {modelPath MFSPath safePath : Cell}
  {kind : Resolver}

/-- No test case of the covering array contains two minimal faults. -/
def Subject.Single : Prop :=
  ∀ test ∈ subject.testcases,
    ∀ M N, MinimalFault subject.MFC_real M → MinimalFault subject.MFC_real N →
    test.Contains M → test.Contains N → M = N

/-- SOFOT reports the minimal faults where each failing test case contains one. -/
theorem Subject.Single.cores (single : subject.Single) {c : Comb} :
    (∃ test ∈ subject.Tfail, (SOFOTFaultResolver.core subject.MFC_real test).Nonempty ∧
      test.restrict (SOFOTFaultResolver.core subject.MFC_real test) = c) ↔
    MinimalFault subject.MFC_real c := by
  have core : ∀ test ∈ subject.Tfail,
      ∀ M, MinimalFault subject.MFC_real M → test.Contains M →
      (SOFOTFaultResolver.core subject.MFC_real test).Nonempty ∧
        test.restrict (SOFOTFaultResolver.core subject.MFC_real test) = M :=
    fun test listed M minimal inside => SOFOTFaultResolver.core_of_unique subject.table
      (subject.failing test listed).1.size minimal inside fun d minimalD insideD =>
        single test (List.mem_filter.mp listed).1 d M minimalD minimal insideD inside
  constructor
  · rintro ⟨test, listed, _, rfl⟩
    obtain ⟨M, real, inside, _⟩ :=
      faulty_univ subject.table (subject.failing.rejected subject.table listed)
    obtain ⟨d, minimal, below, _⟩ :=
      exists_minimalFault_below (subject.failing test listed).1.size real inside
    rw [(core test listed d minimal below).2]
    exact minimal
  · intro minimal
    obtain ⟨test, listed, inside⟩ := subject.reached minimal.1
    exact ⟨test, listed, core test listed c minimal inside⟩

/-- Where no test case contains two minimal faults, each resolver finds all of them. -/
theorem Subject.Single.finds (single : subject.Single) (fits : (Method.resolver kind).Fits n)
    (few : kind = .trt → n < 6) :
    ∃ Good : AbstractFaultResolver → Prop, ∀ here : Circumstances,
      here.Enough n → Finds subject.MFC_real subject.safeValues subject.Tpass subject.Tfail
        ((Method.resolver kind).conduct here) Good (MinimalFault subject.MFC_real) := by
  obtain ⟨family, disjoint, each⟩ := @FINOVLPFaultResolver.exists_finds n subject.MFC_real
    subject.safeValues subject.Tpass subject.Tfail subject.table subject.safeFor subject.failing
  have families : ∀ c,
      (∃ test ∈ subject.Tfail, c ∈ family test) ↔ MinimalFault subject.MFC_real c := by
    refine fun c => ⟨fun ⟨test, listed, member⟩ =>
      ((disjoint test listed).minimal c member).1, fun minimal => ?_⟩
    obtain ⟨test, listed, inside⟩ := subject.reached minimal.1
    refine ⟨test, listed, FINOVLPFaultResolver.complete_of_disjoint (disjoint test listed) ?_
      minimal inside⟩
    intro d e minimalD minimalE insideD insideE different
    exact absurd (single test (List.mem_filter.mp listed).1 d e minimalD minimalE insideD insideE)
      different
  have fuel : ∀ here : Circumstances, here.Enough n → n < here.fuel := fun here enough =>
    lt_of_lt_of_le Nat.lt_two_pow_self ((Nat.le_add_right _ _).trans enough)
  cases kind with
  | sofot =>
      refine ⟨fun r => r.Tpass = subject.Tpass, fun _ _ => ?_⟩
      have finds : Finds subject.MFC_real subject.safeValues subject.Tpass subject.Tfail
          SOFOTFaultResolver.conduct _ _ :=
        SOFOTFaultResolver.finds subject.table subject.safeFor subject.failing
      exact finds.congr fun _ => single.cores subject
  | fic =>
      exact ⟨_, fun here enough =>
        (each _ FICFaultResovler.locates here.fuel (fuel here enough)).congr families⟩
  | ficbs =>
      have locates := FICBSFaultResolver.locates subject.table subject.safeFor
      exact ⟨_, fun here enough => (each _ locates here.fuel (fuel here enough)).congr families⟩
  | comFIL | iterAIFL | trt | noPend =>
      obtain ⟨Good, finds⟩ := exact_finds subject (by simp) fits
      refine ⟨Good, fun here enough => (finds here enough).congr fun c => and_iff_left ?_⟩
      rintro ⟨trt, _, many⟩
      exact absurd (few trt) (by omega)

/-- Where no test case of the covering array contains two minimal faults, all seven resolvers report
the same after any calls that end in `conduct`: the minimal faults. -/
theorem FaultLocalization.calls_agree (written : subject.InFiles files modelPath MFSPath safePath)
    (single : subject.Single) (fits : (Method.resolver kind).Fits n) (few : kind = .trt → n < 6)
    (random : Nat → Bool) :
    ∃ experiment, create files modelPath MFSPath safePath t (.resolver kind) random =
      .ok experiment ∧
      ∀ (calls : List ExperimentCall) (here : Circumstances),
        (∀ call ∈ calls, call.Enough n) →
        here.Enough n → ∃ after,
          ((calls ++ [ExperimentCall.conduct here]).forM ExperimentCall.perform).Runs
            experiment ⟨⟩ after ∧
            ∀ order c, c ∈ after.getMFC_identified order ↔
              MinimalFault subject.MFC_real c := by
  obtain ⟨Good, finds⟩ := single.finds subject fits few
  obtain ⟨experiment, created, runs⟩ := calls_found subject written fits random finds
  refine ⟨experiment, created, fun calls here each enough => ?_⟩
  obtain ⟨after, ends, _, found⟩ := runs calls here each enough
  exact ⟨after, ends, fun order => (found order).2⟩

/-- All seven on the sample files. -/
theorem FaultLocalization.calls_agree_sample : Subject.sample.Single ∧
    ∀ kind : Resolver, ∃ experiment after,
      create sampleFiles "s-model.csv".toList "s-mfs.csv".toList "s-safe.csv".toList 2
        (.resolver kind) (fun _ => false) = .ok experiment ∧
      (([] ++ [ExperimentCall.conduct sampleCircumstances]).forM ExperimentCall.perform).Runs
        experiment ⟨⟩ after ∧
      ∀ order c, c ∈ after.getMFC_identified order ↔
        c = ⟨.comb, [1, 1, -1, -1]⟩ ∨ c = ⟨.comb, [-1, -1, -1, 1]⟩ := by
  have apart : ∀ test ∈ Subject.sample.testcases,
      ¬ (test.Contains ⟨.comb, [1, 1, -1, -1]⟩ ∧
        test.Contains ⟨.comb, [-1, -1, -1, 1]⟩) := by
    decide
  have single : Subject.sample.Single := by
    intro test listed M N minimalM minimalN insideM insideN
    rw [sample_minimal] at minimalM minimalN
    rcases minimalM with rfl | rfl <;> rcases minimalN with rfl | rfl
    · rfl
    · exact absurd ⟨insideM, insideN⟩ (apart test listed)
    · exact absurd ⟨insideN, insideM⟩ (apart test listed)
    · rfl
  have small : ∀ k, Nat.choose 4 k < 2 ^ 31 :=
    fun k => lt_of_le_of_lt (Nat.choose_le_two_pow 4 k) (by decide)
  refine ⟨single, fun kind => ?_⟩
  have fits : (Method.resolver kind).Fits 4 := by
    cases kind with
    | trt => exact (by decide : 4 ≤ 30)
    | comFIL | iterAIFL => exact small
    | sofot | fic | ficbs | noPend => trivial
  obtain ⟨experiment, created, runs⟩ := calls_agree Subject.sample sample_inFiles single fits
    (fun _ => by decide) fun _ => false
  obtain ⟨after, ends, found⟩ := runs [] sampleCircumstances (by simp)
    sample_enough
  exact ⟨experiment, after, created, ends, fun order c =>
    (found order c).trans (sample_minimal c)⟩

end Agree

section Causes

variable {n t : Nat} {MFC_real : List Comb} {safe : Comb} {c : Comb}

/-- What a tester calls the cause of a failure: all test cases with the combination fail, and each
smaller combination is part of one that passes. -/
structure RootCause (n : Nat) (MFC_real : List Comb) (c : Comb) : Prop where
  cls : c.cls = .comb
  wf : c.Over n
  fails : ∀ test : Testcase,
    test.Binary n → test.Contains c → Checker.judge MFC_real test = .ok false
  passes : ∀ d, c.StrictlyContains d →
    ∃ test : Testcase,
      test.Binary n ∧ test.Contains d ∧ Checker.judge MFC_real test = .ok true

theorem Comb.Over.part (wf : c.Over n) {d : Comb} (inside : c.Contains d) : d.Over n := by
  refine ⟨inside.1.symm.trans wf.size, fun i bound => ?_⟩
  rcases inside.2 i (wf.size ▸ bound) with same | unknown
  · rw [← same]
    exact wf.values i bound
  · exact Or.inr (Or.inr unknown)

/-- The rows of the table that contain no other one are the causes of the failures. -/
theorem minimalFault_iff_rootCause (table : FaultTable n MFC_real)
    (safeFor : SafeFor n MFC_real safe) :
    MinimalFault MFC_real c ↔ RootCause n MFC_real c := by
  constructor
  · rintro ⟨real, minimal⟩
    have wf := table.binary c real
    refine ⟨table.cls c real, wf, (all_fail_iff table safeFor wf).mpr
      ⟨c, real, Comb.Contains.refl c⟩, fun d smaller => ?_⟩
    by_contra none
    push Not at none
    have fails : ∀ test : Testcase, test.Binary n → test.Contains d →
        Checker.judge MFC_real test = .ok false := by
      intro test binary inside
      have judged := judge_accepts table.binary binary.size
      cases verdict : accepts MFC_real test with
      | true => exact absurd (judged.trans (congrArg Except.ok verdict)) (none test binary inside)
      | false => exact judged.trans (congrArg Except.ok verdict)
    obtain ⟨M, member, part⟩ := (all_fail_iff table safeFor (wf.part smaller.1)).mp fails
    exact minimal M member ⟨smaller.1.trans part, fun back => smaller.2 (part.trans back)⟩
  · intro cause
    have only : ∀ M ∈ MFC_real, ¬ c.StrictlyContains M := by
      intro M member smaller
      obtain ⟨test, binary, inside, passed⟩ := cause.passes M smaller
      have failed := (all_fail_iff table safeFor (table.binary M member)).mpr
        ⟨M, member, Comb.Contains.refl M⟩ test binary inside
      rw [passed] at failed
      cases failed
    obtain ⟨M, member, part⟩ := (all_fail_iff table safeFor cause.wf).mp cause.fails
    have back : M.Contains c := by
      by_contra proper
      exact only M member ⟨part, proper⟩
    obtain rfl := Comb.Contains.antisymm (cause.cls.trans (table.cls M member).symm) part back
    exact ⟨member, only⟩

/-- What an exact resolver reports after any calls that end in `conduct` is what test cases alone
show to be a cause: nothing but failures with it, and a test case that passes with anything
smaller. -/
theorem FaultLocalization.calls_root_causes (subject : Subject n t) {files : Files}
    {modelPath MFSPath safePath : Cell} (written : subject.InFiles files modelPath MFSPath safePath)
    {kind : Resolver} (exact' : kind ∈ [.noPend, .comFIL, .iterAIFL, .trt])
    (few : kind = .trt → n < 6) (fits : (Method.resolver kind).Fits n) (random : Nat → Bool) :
    ∃ experiment, create files modelPath MFSPath safePath t (.resolver kind) random =
      .ok experiment ∧
      ∀ (calls : List ExperimentCall) (here : Circumstances),
        (∀ call ∈ calls, call.Enough n) →
        here.Enough n → ∃ after,
          ((calls ++ [ExperimentCall.conduct here]).forM ExperimentCall.perform).Runs
            experiment ⟨⟩ after ∧
            ∀ order c, c ∈ after.getMFC_identified order ↔
              RootCause n subject.MFC_real c := by
  obtain ⟨Good, finds⟩ := exact_finds subject exact' fits
  obtain ⟨experiment, created, runs⟩ := calls_found subject written fits random finds
  refine ⟨experiment, created, fun calls here each enough => ?_⟩
  obtain ⟨after, ends, _, found⟩ := runs calls here each enough
  refine ⟨after, ends, fun order c => ((found order).2 c).trans ((and_iff_left ?_).trans
    (minimalFault_iff_rootCause subject.table subject.safeFor))⟩
  rintro ⟨trt, _, many⟩
  exact absurd (few trt) (by omega)

/-- The causes on the sample files. -/
theorem FaultLocalization.calls_root_causes_sample : ∃ experiment after,
    create sampleFiles "s-model.csv".toList "s-mfs.csv".toList "s-safe.csv".toList 2
      (.resolver .trt) (fun _ => false) = .ok experiment ∧
    (([] ++ [ExperimentCall.conduct sampleCircumstances]).forM ExperimentCall.perform).Runs
      experiment ⟨⟩ after ∧
    ∀ order c, c ∈ after.getMFC_identified order ↔ RootCause 4 Subject.sample.MFC_real c := by
  obtain ⟨experiment, created, runs⟩ := calls_root_causes Subject.sample sample_inFiles
    (show Resolver.trt ∈ _ by simp) (fun _ => by decide) (show 4 ≤ 30 by decide) fun _ => false
  obtain ⟨after, ends, found⟩ := runs [] sampleCircumstances (by simp) sample_enough
  exact ⟨experiment, after, created, ends, found⟩

end Causes

section Settle

variable {n t : Nat} (subject : Subject n t)

/-- Between two calls of an experiment with NoPend or TRT: either there is no result, or the records
are settled. -/
structure Settling (first experiment : FaultLocalization) : Prop where
  same : experiment = { first with faultResolver := experiment.faultResolver }
  uses : Uses subject.MFC_real subject.safeValues experiment.faultResolver
  tests : experiment.faultResolver.Tfail = subject.Tfail
  sound : NoPendFaultResolver.RecordsSound n subject.MFC_real subject.Tfail experiment.faultResolver
  result : experiment.faultResolver.conducted = false ∧
      experiment.faultResolver.MFC_identified = HashSet.empty ∨
    experiment.faultResolver.conducted = true ∧
      RecordsSettled n subject.MFC_real subject.Tfail experiment.faultResolver

variable {subject} {kind : Resolver} {random : Nat → Bool} {first experiment : FaultLocalization}

/-- NoPend and TRT settle the records whenever they run. -/
theorem Subject.exists_repeats (settling : kind ∈ [.noPend, .trt])
    (fits : (Method.resolver kind).Fits n)
    {here : Circumstances} (enough : here.Enough n) : ∃ message body Found,
      (Method.resolver kind).conduct here = conductOnce message (body here.order) ∧
      Repeats n subject.MFC_real subject.Tfail body
        (NoPendFaultResolver.RecordsSound n subject.MFC_real subject.Tfail)
        (RecordsSettled n subject.MFC_real subject.Tfail) Found := by
  cases kind with
  | noPend =>
      exact ⟨_, _, _, rfl, NoPendFaultResolver.repeats subject.positive subject.table
        subject.failing enough⟩
  | trt =>
      exact ⟨_, _, _, rfl, TRTFaultResolver.repeats subject.positive fits subject.table
        subject.failing
        (show 2 ^ n + 1 ≤ here.fuel by
          unfold Circumstances.Enough at enough
          omega)⟩
  | sofot | fic | ficbs | comFIL | iterAIFL => simp at settling

theorem Settling.reset (never : first.conducted = false)
    (before : Settling subject first experiment) :
    Settling subject first experiment.reset := by
  have records : SameRecords experiment.faultResolver experiment.faultResolver.reset :=
    ⟨rfl, rfl⟩
  refine ⟨?_, before.uses, before.tests, before.sound.of_sameRecords records,
    Or.inl ⟨rfl, rfl⟩⟩
  rw [FaultLocalization.reset, before.same, ← never]

theorem Settling.conduct (never : first.conducted = false) (method : first.method = .resolver kind)
    (settling : kind ∈ [.noPend, .trt]) (fits : (Method.resolver kind).Fits n)
    {here : Circumstances}
    (enough : here.Enough n) (before : Settling subject first experiment) : ∃ after,
      (FaultLocalization.conduct here).Runs experiment ⟨⟩ after ∧
      Settling subject first after ∧
      RecordsSettled n subject.MFC_real subject.Tfail after.faultResolver := by
  have unset : experiment.conducted = false := by rw [before.same]; exact never
  have kept : experiment.method = .resolver kind := by rw [before.same]; exact method
  have same : ∀ r, ({ experiment with faultResolver := r } : FaultLocalization) =
      { first with faultResolver := r } := by
    intro r
    rw [before.same]
  obtain ⟨message, body, Found, shape, repeats⟩ := subject.exists_repeats settling fits enough
  rcases before.result with ⟨fresh, none⟩ | ⟨done, settled⟩
  · have records : SameRecords experiment.faultResolver
        { experiment.faultResolver with conducted := true } :=
      ⟨rfl, rfl⟩
    obtain ⟨after, runs, uses, tests, conducted, _, settled⟩ := repeats.runs
      { experiment.faultResolver with conducted := true } subject.safeValues here.order before.uses
      subject.safeFor before.tests none (before.sound.of_sameRecords records)
    have once : (conductOnce message (body here.order)).Runs experiment.faultResolver
        ⟨⟩ after :=
      conductOnce_runs fresh (by rw [before.uses.2]; rfl) runs
    refine ⟨_, FaultLocalization.conduct_runs unset (by rw [kept, shape]; exact once),
      ?_, settled⟩
    exact ⟨same after, uses, tests, settled.sound, Or.inr ⟨conducted, settled⟩⟩
  · have nothing : ((Method.resolver kind).conduct here).Runs experiment.faultResolver ⟨⟩
        experiment.faultResolver := by
      rw [shape]
      exact conductOnce_again done
    exact ⟨_, FaultLocalization.conduct_runs unset (by rw [kept]; exact nothing),
      ⟨same _, before.uses, before.tests, before.sound, before.result⟩, settled⟩

theorem Settling.perform (never : first.conducted = false) (method : first.method = .resolver kind)
    (settling : kind ∈ [.noPend, .trt]) (fits : (Method.resolver kind).Fits n)
    {call : ExperimentCall} (enough : call.Enough n) (before : Settling subject first experiment) :
    ∃ after, call.perform.Runs experiment ⟨⟩ after ∧ Settling subject first after := by
  cases call with
  | reset => exact ⟨_, Runs.modify _ _, before.reset never⟩
  | conduct here =>
      obtain ⟨after, runs, later, _⟩ := before.conduct never method settling fits enough
      exact ⟨after, runs, later⟩

theorem Settling.start : Settling subject (subject.experiment (.resolver kind) random)
    (subject.experiment (.resolver kind) random) :=
  ⟨rfl, ⟨rfl, rfl⟩, rfl, ⟨by simp [Subject.experiment, Subject.resolver],
    by simp [Subject.experiment, Subject.resolver]⟩, Or.inl ⟨rfl, rfl⟩⟩

/-- Any calls that end in `conduct` settle the records. -/
theorem Settling.calls (settling : kind ∈ [.noPend, .trt]) (fits : (Method.resolver kind).Fits n)
    {calls : List ExperimentCall} (each : ∀ call ∈ calls, call.Enough n) {here : Circumstances}
    (enough : here.Enough n) : ∃ after,
      ((calls ++ [ExperimentCall.conduct here]).forM ExperimentCall.perform).Runs
        (subject.experiment (.resolver kind) random) ⟨⟩ after ∧
      RecordsSettled n subject.MFC_real subject.Tfail after.faultResolver := by
  obtain ⟨middle, runs, before⟩ := forM_runs ExperimentCall.perform
    (fun _ experiment => Settling subject (subject.experiment (.resolver kind) random) experiment)
      calls
    (by
      intro done call rest experiment split before
      exact before.perform rfl rfl settling fits (each call (by rw [split]; simp)))
    _ Settling.start
  obtain ⟨after, last, _, settled⟩ := before.conduct rfl rfl settling fits enough
  refine ⟨after, ?_, settled⟩
  rw [List.forM_eq_forM, List.forM_append]
  exact runs.bind (last.bind (Runs.ret _ _))

/-- An experiment with NoPend and one with TRT on the same subject: after any calls of either that
end in `conduct` both answer alike what is pending, for every combination, and no part of a failing
test case is pending that fixes some, but not all parameters. -/
theorem FaultLocalization.calls_settle (subject : Subject n t) {files : Files}
    {modelPath MFSPath safePath : Cell} (written : subject.InFiles files modelPath MFSPath safePath)
    (small : n ≤ 30) (random random' : Nat → Bool) : ∃ noPend trt,
      create files modelPath MFSPath safePath t (.resolver .noPend) random = .ok noPend ∧
      create files modelPath MFSPath safePath t (.resolver .trt) random' = .ok trt ∧
      ∀ (calls calls' : List ExperimentCall) (here here' : Circumstances),
        (∀ call ∈ calls, call.Enough n) → (∀ call ∈ calls', call.Enough n) →
          here.Enough n →
        here'.Enough n → ∃ after after',
          ((calls ++ [ExperimentCall.conduct here]).forM ExperimentCall.perform).Runs
            noPend ⟨⟩ after ∧
          ((calls' ++ [ExperimentCall.conduct here']).forM ExperimentCall.perform).Runs
            trt ⟨⟩ after' ∧
          (∀ c, after.faultResolver.checkPending c = after'.faultResolver.checkPending c) ∧
          ∀ tfail ∈ subject.Tfail, ∀ S ⊂ Finset.range n, S.Nonempty →
            after.faultResolver.checkPending (tfail.restrict S) = .ok false := by
  have sizes : ∀ tfail ∈ subject.Tfail, tfail.size = n := fun tfail member =>
    (subject.failing tfail member).1.size
  refine ⟨_, _, create_eq subject written (show (Method.resolver .noPend).Fits n from trivial)
    random, create_eq subject written (show (Method.resolver .trt).Fits n from small) random',
    fun calls calls' here here' each each' enough enough' => ?_⟩
  obtain ⟨after, runs, settled⟩ :=
    @Settling.calls n t subject .noPend random (by simp) trivial calls each here enough
  obtain ⟨after', runs', settled'⟩ :=
    @Settling.calls n t subject .trt random' (by simp) small calls' each' here' enough'
  refine ⟨after, after', runs, runs', settled.alike sizes settled',
    fun tfail member S proper nonempty => ?_⟩
  rw [checkPending_eq (settled.sound.sized sizes) (by rw [Comb.restrict_size, sizes tfail member])]
  simp [settled.decided tfail member S proper nonempty]

/-- Both on the sample files, TRT after a first run. -/
theorem FaultLocalization.calls_settle_sample : ∃ noPend trt after after',
    create sampleFiles "s-model.csv".toList "s-mfs.csv".toList "s-safe.csv".toList 2
      (.resolver .noPend) (fun _ => false) = .ok noPend ∧
    create sampleFiles "s-model.csv".toList "s-mfs.csv".toList "s-safe.csv".toList 2
      (.resolver .trt) (fun _ => true) = .ok trt ∧
    (([] ++ [ExperimentCall.conduct sampleCircumstances]).forM ExperimentCall.perform).Runs
      noPend ⟨⟩ after ∧
    (([ExperimentCall.conduct sampleCircumstances, .reset] ++
      [ExperimentCall.conduct sampleCircumstances]).forM ExperimentCall.perform).Runs trt ⟨⟩
      after' ∧
    (∀ c, after.faultResolver.checkPending c = after'.faultResolver.checkPending c) ∧
    after.faultResolver.checkPending ⟨.comb, [1, -1, -1, 1]⟩ = .ok false := by
  obtain ⟨noPend, trt, created, created', runs⟩ := calls_settle Subject.sample sample_inFiles
    (by decide) (fun _ => false) fun _ => true
  obtain ⟨after, after', ends, ends', alike, decided⟩ := runs []
    [.conduct sampleCircumstances, .reset] sampleCircumstances sampleCircumstances (by simp)
    (by simp [ExperimentCall.Enough, sample_enough]) sample_enough sample_enough
  have part : (⟨.testcase, [1, 0, 0, 1]⟩ : Testcase).restrict {0, 3} =
      ⟨.comb, [1, -1, -1, 1]⟩ := by
    decide
  have answer := decided ⟨.testcase, [1, 0, 0, 1]⟩ (by decide) {0, 3} (by decide) (by decide)
  rw [part] at answer
  exact ⟨noPend, trt, after, after', created, created', ends, ends', alike, answer⟩

end Settle

end NoPend
