import NoPend.FaultResolver.Ben
import NoPend.FaultResolver.Finds
import NoPend.FaultResolver.Resolvers
import NoPend.Util.CAResolver
import NoPend.Util.Measure

set_option autoImplicit false

/- `FaultLocalization`: one resolver on the covering array of one subject. -/
namespace NoPend

open AbstractFaultResolver Proc

/-- The classes of resolvers that an experiment can be asked for. -/
inductive Method where
  | resolver (kind : Resolver)
  | ben
deriving DecidableEq

/-- What `conduct` depends on besides the object it is called on. -/
structure Circumstances where
  combination : Combination
  fuel : Nat
  order : IterOrder Comb
  doubles : Doubles
  chances : BenFaultResolver.Chances

namespace Method

def create : Method → Checker → List Testcase → List Testcase → (Nat → Bool) →
    Except Exn AbstractFaultResolver
  | .resolver kind => kind.create
  | .ben => AbstractFaultResolver.create

def conduct (method : Method) (here : Circumstances) : ResolverM Unit :=
  match method with
  | .resolver kind => kind.conduct here.combination here.fuel here.order
  | .ben => BenFaultResolver.conduct here.doubles here.combination here.fuel here.chances

end Method

/-- `FaultResolverFactory.createResolver`: what the constructor throws comes wrapped. -/
def FaultResolverFactory.createResolver (clazz : Method) (checker : Checker)
    (Tpass Tfail : List Testcase) (random : Nat → Bool) : Except IOExn AbstractFaultResolver :=
  match clazz.create checker Tpass Tfail random with
  | .ok resolver => .ok resolver
  | .error reason => .error (.invocationTarget reason)

/-- The fields of `FaultLocalization`. The lists of test cases are its own, the resolver has copies
of them. The checker is an object that the resolver holds as well, and is found there. -/
structure FaultLocalization where
  method : Method
  Tpass : List Testcase
  Tfail : List Testcase
  n : Nat
  t : Nat
  MFC_real : List Comb
  safeValues : Comb
  faultResolver : AbstractFaultResolver
  conducted : Bool

abbrev ExperimentM := Proc Exn FaultLocalization

namespace FaultLocalization

/-- The checker and the lists while the covering array is run. -/
structure Initial where
  checker : Checker
  Tpass : List Testcase
  Tfail : List Testcase

/-- The body of the loop over the covering array. -/
def sortTest (initial : Initial) (testcase : Testcase) : Except Exn Initial := do
  let checker := initial.checker.record testcase
  if ← checker.verdict testcase then
    return { initial with checker, Tpass := initial.Tpass ++ [testcase] }
  else return { initial with checker, Tfail := initial.Tfail ++ [testcase] }

/-- The covering array that an experiment uses or makes. -/
def initialTestcases (files : Files) (n t : Nat) : Except IOExn (List Testcase) :=
  if t ≥ 2 then CAResolver.multiwayCA files n t 2 else IOExn.lift (CAResolver.oneWayCA n 2)

/-- The constructor. -/
def create (files : Files) (modelPath MFSPath safePath : Cell) (max_mfs : Nat) (method : Method)
    (random : Nat → Bool) : Except IOExn FaultLocalization := do
  let MFC_real ← files.readCombinations MFSPath
  let SUT ← files.readParameterValues modelPath
  let n := SUT.length
  let t := max_mfs
  let testcases ← initialTestcases files n t
  let initial ← IOExn.lift (testcases.foldlM sortTest ⟨Checker.ofMFS MFC_real, [], []⟩)
  let safeValues ← files.readSafeValue safePath
  let faultResolver ← FaultResolverFactory.createResolver method initial.checker.reset
    initial.Tpass initial.Tfail random
  return { method, Tpass := initial.Tpass, Tfail := initial.Tfail, n, t, MFC_real, safeValues,
           faultResolver := (faultResolver.setSafeValues safeValues).setT t, conducted := false }

/-- A call on the resolver. -/
def onResolver {α : Type} (call : ResolverM α) : ExperimentM α := do
  let experiment ← get
  let ended := call.exec experiment.faultResolver
  set { experiment with faultResolver := ended.2 }
  ended.1

/-- `conduct`, which never sets the field that it tests. -/
def conduct (here : Circumstances) : ExperimentM Unit := do
  if (← get).conducted then return
  onResolver ((← get).method.conduct here)

def reset (experiment : FaultLocalization) : FaultLocalization :=
  { experiment with conducted := false, faultResolver := experiment.faultResolver.reset }

def getNumTfail (experiment : FaultLocalization) : Nat := experiment.Tfail.length

def getMFC_identified (order : IterOrder Comb) (experiment : FaultLocalization) : List Comb :=
  order.walk experiment.faultResolver.MFC_identified.toList

def getAdditionalTestcase (experiment : FaultLocalization) : HashSet Comb :=
  experiment.faultResolver.checker.executedTestcase

def getRecall (order : IterOrder Comb) (experiment : FaultLocalization) : Option Rat :=
  Measure.recall experiment.MFC_real (experiment.getMFC_identified order)

def getPrecision (order : IterOrder Comb) (experiment : FaultLocalization) : Option Rat :=
  Measure.precision experiment.MFC_real (experiment.getMFC_identified order)

def getF1 (order : IterOrder Comb) (experiment : FaultLocalization) : Option Rat :=
  Measure.f1 experiment.MFC_real (experiment.getMFC_identified order)

/-- The average over the failing test cases. -/
def getPendingCombProportion : ExperimentM (Option Rat) := do
  let Tfail := (← get).Tfail
  let ans ← Tfail.foldlM (fun (ans : Rat) tfail => do
    return ans + (← onResolver (AbstractFaultResolver.getPendingCombProportion tfail))) 0
  return Measure.quotient ans Tfail.length

end FaultLocalization

/-- One call of a client. -/
inductive ExperimentCall where
  | conduct (here : Circumstances)
  | reset

namespace ExperimentCall

def perform : ExperimentCall → ExperimentM Unit
  | .conduct here => FaultLocalization.conduct here
  | .reset => modify FaultLocalization.reset

end ExperimentCall

/-- A subject with `n` parameters: faults that fix at most `t` of them, safe values for the
faults, and a covering array of strength `t`. -/
structure Subject (n t : Nat) where
  MFC_real : List Comb
  safeValues : Comb
  testcases : List Testcase
  positive : 0 < n
  table : FaultTable n MFC_real
  safeFor : SafeFor n MFC_real safeValues
  some : MFC_real ≠ []
  narrow : ∀ M ∈ MFC_real, M.fixed.card ≤ t
  binary : ∀ test ∈ testcases, test.Binary n
  covers : Covers n t testcases

namespace Subject

variable {n t : Nat}

/-- The files say what the subject is. -/
structure InFiles (subject : Subject n t) (files : Files) (modelPath MFSPath safePath : Cell) :
    Prop where
  model : ∃ SUT, files.readParameterValues modelPath = .ok SUT ∧ SUT.length = n
  MFS : files.readCombinations MFSPath = .ok subject.MFC_real
  safe : files.readSafeValue safePath = .ok subject.safeValues
  array : FaultLocalization.initialTestcases files n t = .ok subject.testcases

def Tpass (subject : Subject n t) : List Testcase :=
  subject.testcases.filter (accepts subject.MFC_real)

def Tfail (subject : Subject n t) : List Testcase :=
  subject.testcases.filter fun test => !accepts subject.MFC_real test

/-- The resolver of a new experiment. -/
def resolver (subject : Subject n t) (random : Nat → Bool) : AbstractFaultResolver :=
  ⟨subject.Tpass, subject.Tfail, Checker.ofMFS subject.MFC_real, [], [], .some subject.safeValues,
    HashSet.empty, false, t, random⟩

/-- The object that the constructor makes. -/
def experiment (subject : Subject n t) (method : Method) (random : Nat → Bool) :
    FaultLocalization :=
  ⟨method, subject.Tpass, subject.Tfail, n, t, subject.MFC_real, subject.safeValues,
    subject.resolver random, false⟩

variable (subject : Subject n t)

theorem judged {test : Testcase} (listed : test ∈ subject.testcases) :
    Checker.judge subject.MFC_real test = .ok (accepts subject.MFC_real test) :=
  judge_accepts subject.table.binary (subject.binary test listed).size

theorem passing : ∀ test ∈ subject.Tpass, test.Binary n ∧
      Checker.judge subject.MFC_real test = .ok true := by
  intro test member
  obtain ⟨listed, passed⟩ := List.mem_filter.mp member
  exact ⟨subject.binary test listed, by rw [subject.judged listed, passed]⟩

theorem failing : Failing n subject.MFC_real subject.Tfail := by
  intro test member
  obtain ⟨listed, failed⟩ := List.mem_filter.mp member
  rw [Bool.not_eq_true'] at failed
  exact ⟨subject.binary test listed, by rw [subject.judged listed, failed]⟩

/-- Every combination of `MFC_real` is part of a test case of the covering array, which fails. -/
theorem reached {M : Comb} (member : M ∈ subject.MFC_real) :
    ∃ test ∈ subject.Tfail, test.Contains M := by
  obtain ⟨test, listed, inside⟩ :=
    subject.covers M (subject.table.binary M member) (subject.narrow M member)
  refine ⟨test, List.mem_filter.mpr ⟨listed, ?_⟩, inside⟩
  rw [Bool.not_eq_true', accepts, decide_eq_false_iff_not]
  exact fun none => none M member inside

theorem Tfail_ne_nil : subject.Tfail ≠ [] := by
  obtain ⟨M, rest, split⟩ := List.exists_cons_of_ne_nil subject.some
  obtain ⟨test, listed, _⟩ := subject.reached (M := M) (by rw [split]; simp)
  exact List.ne_nil_of_mem listed

/-- What the failing test cases contain is everything there is to find. -/
theorem contained_iff {c : Comb} :
    Contained subject.MFC_real subject.Tfail c ↔ MinimalFault subject.MFC_real c :=
  ⟨And.left, fun minimal => ⟨minimal, subject.reached minimal.1⟩⟩

end Subject

/-- Four parameters. The first two together are a fault, and so is the last alone, which is part
of a third row. -/
def Subject.sample : Subject 4 2 where
  MFC_real := [⟨.comb, [1, 1, -1, -1]⟩, ⟨.comb, [-1, -1, -1, 1]⟩,
    ⟨.comb, [1, -1, -1, 1]⟩]
  safeValues := ⟨.comb, [0, 0, -1, 0]⟩
  testcases := pairsOfFour.map rowTest
  positive := by decide
  table := by decide
  safeFor := by decide
  some := by decide
  narrow := by decide
  binary := by decide
  covers := RowsCover.covers (by decide) (by decide) (by decide)

/-- The files of the sample. -/
def sampleFiles : Files := fun path =>
  if path = "s-model.csv".toList then some "parameter,name\n0,A\n1,B\n2,C\n3,D\n".toList
  else if path = "s-mfs.csv".toList then some "1,1,-,-\r\n-,-,-,1\r\n1,-,-,1\r\n".toList
  else if path = "s-safe.csv".toList then some "0,0,-,0\r\n".toList
  else if path = CAResolver.tablePath 4 2 2 then some (tableText ['\n'] 6 pairsOfFour)
  else none

def sampleCircumstances : Circumstances :=
  ⟨.sublists, 18, .insertion, .rationals, ⟨fun _ => 0, fun _ => .insertion⟩⟩

theorem sample_inFiles :
    Subject.sample.InFiles sampleFiles "s-model.csv".toList "s-mfs.csv".toList
      "s-safe.csv".toList :=
  ⟨⟨_, rfl, rfl⟩, rfl, rfl, rfl⟩

theorem sample_minimal (c : Comb) : MinimalFault Subject.sample.MFC_real c ↔
    c = ⟨.comb, [1, 1, -1, -1]⟩ ∨ c = ⟨.comb, [-1, -1, -1, 1]⟩ := by
  constructor
  · intro minimal
    have listed := minimal.1
    simp only [Subject.sample, List.mem_cons, List.not_mem_nil, or_false] at listed
    rcases listed with first | second | third
    · exact Or.inl first
    · exact Or.inr second
    · rw [third] at minimal
      exact absurd minimal (by decide)
  · rintro (rfl | rfl) <;> decide

/-- What a resolver needs the number of parameters to be. -/
def Method.Fits (n : Nat) : Method → Prop
  | .resolver .trt => n ≤ 30
  | .resolver .comFIL | .resolver .iterAIFL => ∀ k, n.choose k < 2 ^ 31
  | _ => True

/-- Enough rounds for every loop. -/
def Circumstances.Enough (n : Nat) (here : Circumstances) : Prop := 2 ^ n + 2 ≤ here.fuel

theorem sample_enough : sampleCircumstances.Enough 4 := by
  change 2 ^ 4 + 2 ≤ 18
  decide

def ExperimentCall.Enough (n : Nat) : ExperimentCall → Prop
  | .conduct here => here.Enough n
  | .reset => True

namespace FaultLocalization

variable {n t : Nat} {MFC_real : List Comb}

/-- The loop over the covering array keeps the order of the test cases. -/
theorem sortTests_eq (binary : ∀ M ∈ MFC_real, M.Over n) {testcases : List Testcase}
    (sizes : ∀ test ∈ testcases, test.size = n) (initial : Initial)
    (verdict : initial.checker.verdict = Checker.judge MFC_real) :
    testcases.foldlM sortTest initial = .ok ⟨testcases.foldl Checker.record initial.checker,
      initial.Tpass ++ testcases.filter (accepts MFC_real),
      initial.Tfail ++ testcases.filter fun test => !accepts MFC_real test⟩ := by
  induction testcases generalizing initial with
  | nil => simp [pure, Except.pure]
  | cons test rest ih =>
      have judged : (initial.checker.record test).verdict test = .ok (accepts MFC_real test) := by
        rw [Checker.record, verdict]
        exact judge_accepts binary (sizes test (by simp))
      have later := ih fun other member => sizes other (List.mem_cons_of_mem _ member)
      rw [List.foldlM_cons, sortTest, judged]
      by_cases passed : accepts MFC_real test = true
      · rw [passed]
        refine (later ⟨initial.checker.record test, initial.Tpass ++ [test], initial.Tfail⟩
          verdict).trans ?_
        simp [passed]
      · rw [Bool.not_eq_true] at passed
        rw [passed]
        refine (later ⟨initial.checker.record test, initial.Tpass, initial.Tfail ++ [test]⟩
          verdict).trans ?_
        simp [passed]

theorem foldl_record_verdict (testcases : List Testcase) (checker : Checker) :
    (testcases.foldl Checker.record checker).verdict = checker.verdict := by
  induction testcases generalizing checker with
  | nil => rfl
  | cons test rest ih => exact ih (checker.record test)

theorem create_resolver (subject : Subject n t) {method : Method} (fits : method.Fits n)
    (checker : Checker) (random : Nat → Bool) :
    method.create checker subject.Tpass subject.Tfail random =
      .ok ⟨subject.Tpass, subject.Tfail, checker, [], [], none, HashSet.empty, false, 0,
        random⟩ := by
  have base : AbstractFaultResolver.create checker subject.Tpass subject.Tfail random =
      .ok ⟨subject.Tpass, subject.Tfail, checker, [], [], none, HashSet.empty, false,
        0, random⟩ :=
    if_neg (by simpa using subject.Tfail_ne_nil)
  cases method with
  | ben => exact base
  | resolver kind =>
      cases kind with
      | trt =>
          obtain ⟨first, rest, split⟩ := List.exists_cons_of_ne_nil subject.Tfail_ne_nil
          have size : first.size = n := (subject.failing first (by rw [split]; simp)).1.size
          have bound : 2 ^ n ≤ 2 ^ 30 := Nat.pow_le_pow_right (by decide) fits
          rw [Method.create, Resolver.create, TRTFaultResolver.create, base]
          simp only [split, size]
          exact if_neg (by rw [TRT.MAX_VALUE]; omega)
      | _ => exact base

/-- The constructor sorts the covering array and hands the rest over. -/
theorem create_eq (subject : Subject n t) {files : Files} {modelPath MFSPath safePath : Cell}
    (written : subject.InFiles files modelPath MFSPath safePath) {method : Method}
    (fits : method.Fits n) (random : Nat → Bool) :
    create files modelPath MFSPath safePath t method random = .ok
      (subject.experiment method random) := by
  obtain ⟨SUT, model, length⟩ := written.model
  subst length
  have sorted :=
    sortTests_eq subject.table.binary (fun test member => (subject.binary test member).size)
      ⟨Checker.ofMFS subject.MFC_real, [], []⟩ rfl
  have checker : (subject.testcases.foldl Checker.record (Checker.ofMFS subject.MFC_real)).reset =
      Checker.ofMFS subject.MFC_real := by
    rw [Checker.reset, foldl_record_verdict]
    rfl
  rw [create, written.MFS]
  refine Except.bind_ok.mpr ⟨_, rfl, ?_⟩
  rw [model]
  refine Except.bind_ok.mpr ⟨_, rfl, ?_⟩
  refine Except.bind_ok.mpr ⟨_, written.array, ?_⟩
  rw [sorted]
  refine Except.bind_ok.mpr ⟨_, rfl, ?_⟩
  rw [written.safe]
  refine Except.bind_ok.mpr ⟨_, rfl, ?_⟩
  simp only [checker, List.nil_append]
  rw [FaultResolverFactory.createResolver, ← Subject.Tpass, ← Subject.Tfail,
    create_resolver subject fits]
  rfl

/-- A call on the resolver changes the resolver only. -/
theorem onResolver_runs {α : Type} {call : ResolverM α} {experiment : FaultLocalization}
    {value : α}
    {after : AbstractFaultResolver} (runs : call.Runs experiment.faultResolver value after) :
    (onResolver call).Runs experiment value { experiment with faultResolver := after } := by
  refine (Runs.get experiment).bind ((Runs.set _ _).bind ?_)
  rw [runs]
  exact Runs.of_ok rfl _

theorem onResolver_of_runs {α : Type} {call : ResolverM α} {experiment after : FaultLocalization}
    {value : α} (runs : (onResolver call).Runs experiment value after) : ∃ resolver,
      call.Runs experiment.faultResolver value resolver ∧
      after = { experiment with faultResolver := resolver } := by
  obtain ⟨_, _, stored, ends⟩ := runs_bind.mp (of_get_bind runs)
  obtain ⟨outcome, rfl⟩ := runs_lift.mp ends
  exact ⟨_, Runs.of_returns value outcome, runs_set.mp stored⟩

theorem conduct_runs {experiment : FaultLocalization} {here : Circumstances}
    {after : AbstractFaultResolver} (never : experiment.conducted = false)
    (runs : (experiment.method.conduct here).Runs experiment.faultResolver ⟨⟩ after) :
    (conduct here).Runs experiment ⟨⟩ { experiment with faultResolver := after } := by
  refine (Runs.get experiment).bind ?_
  rw [if_neg (by rw [never]; decide)]
  exact (Runs.get experiment).bind (onResolver_runs runs)

section Calls

variable {safe : Comb} {Tpass Tfail : List Testcase} {Good : AbstractFaultResolver → Prop}
  {Found : Comb → Prop} {first experiment : FaultLocalization}

/-- What holds of an experiment between two calls: it has no result, or the whole result. -/
structure Between (MFC_real : List Comb) (safe : Comb) (Tfail : List Testcase)
    (Good : AbstractFaultResolver → Prop) (Found : Comb → Prop)
    (first experiment : FaultLocalization) :
    Prop where
  same : experiment = { first with faultResolver := experiment.faultResolver }
  result : Waiting MFC_real safe Tfail experiment.faultResolver ∨
    Done MFC_real safe Tfail Found experiment.faultResolver
  good : Good experiment.faultResolver

theorem Between.reset (never : first.conducted = false)
    (keep : ∀ r r', SameRecords r r' → r'.Tpass = r.Tpass → Good r → Good r')
    (between : Between MFC_real safe Tfail Good Found first experiment) :
    Between MFC_real safe Tfail Good Found first experiment.reset := by
  obtain ⟨uses, tests⟩ : Uses MFC_real safe experiment.faultResolver ∧
      experiment.faultResolver.Tfail = Tfail := by
    rcases between.result with waiting | done
    · exact ⟨waiting.uses, waiting.tests⟩
    · exact ⟨done.uses, done.tests⟩
  refine ⟨?_, Or.inl (Waiting.reset uses tests),
    keep experiment.faultResolver _ ⟨rfl, rfl⟩ rfl between.good⟩
  rw [FaultLocalization.reset, between.same, ← never]

theorem Between.conduct (never : first.conducted = false) {here : Circumstances}
    (finds : Finds MFC_real safe Tpass Tfail (first.method.conduct here) Good Found)
    (between : Between MFC_real safe Tfail Good Found first experiment) :
    ∃ after, (conduct here).Runs experiment ⟨⟩ after ∧
      Between MFC_real safe Tfail Good Found first after ∧
      Done MFC_real safe Tfail Found after.faultResolver := by
  have before : experiment.conducted = false := by rw [between.same]; exact never
  have method : experiment.method = first.method := by rw [between.same]
  have same : ∀ r, ({ experiment with faultResolver := r } : FaultLocalization) =
      { first with faultResolver := r } := by
    intro r
    rw [between.same]
  rcases between.result with waiting | done
  · obtain ⟨after, runs, done, good⟩ := finds.runs _ waiting between.good
    exact ⟨_, conduct_runs before (by rw [method]; exact runs),
      ⟨same after, Or.inr done, good⟩, done⟩
  · have runs := finds.again _ done.conducted
    exact ⟨_, conduct_runs before (by rw [method]; exact runs),
      ⟨same _, Or.inr done, between.good⟩, done⟩

theorem Between.perform (never : first.conducted = false)
    (finds : ∀ here : Circumstances, here.Enough n →
      Finds MFC_real safe Tpass Tfail (first.method.conduct here) Good Found)
    (keep : ∀ r r', SameRecords r r' → r'.Tpass = r.Tpass → Good r → Good r')
    (between : Between MFC_real safe Tfail Good Found first experiment) {call : ExperimentCall}
    (enough : call.Enough n) :
    ∃ after, call.perform.Runs experiment ⟨⟩ after ∧
      Between MFC_real safe Tfail Good Found first after := by
  cases call with
  | reset => exact ⟨_, Runs.modify _ _, between.reset never keep⟩
  | conduct here =>
      obtain ⟨after, runs, kept, _⟩ := between.conduct never (finds here enough)
      exact ⟨after, runs, kept⟩

/-- After any sequence of calls that ends in `conduct` the result is there. -/
theorem calls_run (never : first.conducted = false)
    (finds : ∀ here : Circumstances, here.Enough n →
      Finds MFC_real safe Tpass Tfail (first.method.conduct here) Good Found)
    (start : Between MFC_real safe Tfail Good Found first first) {calls : List ExperimentCall}
    (each : ∀ call ∈ calls, call.Enough n) {here : Circumstances} (enough : here.Enough n) :
    ∃ after, ((calls ++ [ExperimentCall.conduct here]).forM ExperimentCall.perform).Runs
      first ⟨⟩ after ∧
      Between MFC_real safe Tfail Good Found first after ∧
      Done MFC_real safe Tfail Found after.faultResolver := by
  obtain ⟨middle, runs, between⟩ := forM_runs ExperimentCall.perform
    (fun _ experiment => Between MFC_real safe Tfail Good Found first experiment) calls (by
      intro done call rest experiment split between
      exact between.perform never finds (finds here enough).keep (each call (by rw [split]; simp)))
    first start
  obtain ⟨after, last, kept, done⟩ := between.conduct never (finds here enough)
  refine ⟨after, ?_, kept, done⟩
  rw [List.forM_eq_forM, List.forM_append]
  exact runs.bind (last.bind (Runs.ret _ _))

end Calls

section Exact

variable (subject : Subject n t)

theorem start {method : Method} {random : Nat → Bool} {Good : AbstractFaultResolver → Prop}
    {Found : Comb → Prop} (good : Good (subject.resolver random)) :
    Between subject.MFC_real subject.safeValues subject.Tfail Good Found
      (subject.experiment method random) (subject.experiment method random) :=
  ⟨rfl, Or.inl ⟨⟨rfl, rfl⟩, rfl, rfl, rfl⟩, good⟩

/-- The result of any calls that end in `conduct`, for a resolver that finds something definite. -/
theorem calls_found {kind : Resolver} {Good : AbstractFaultResolver → Prop}
    {Found : Comb → Prop} {files : Files} {modelPath MFSPath safePath : Cell}
    (written : subject.InFiles files modelPath MFSPath safePath)
    (fits : (Method.resolver kind).Fits n) (random : Nat → Bool)
    (finds : ∀ here : Circumstances, here.Enough n →
      Finds subject.MFC_real subject.safeValues subject.Tpass subject.Tfail
        ((Method.resolver kind).conduct here) Good Found) :
    ∃ experiment, create files modelPath MFSPath safePath t (.resolver kind) random =
      .ok experiment ∧
      ∀ (calls : List ExperimentCall) (here : Circumstances),
        (∀ call ∈ calls, call.Enough n) →
        here.Enough n → ∃ after,
          ((calls ++ [ExperimentCall.conduct here]).forM ExperimentCall.perform).Runs
            experiment ⟨⟩ after ∧
            after.MFC_real = subject.MFC_real ∧
            ∀ order, (after.getMFC_identified order).Nodup ∧
              ∀ c, c ∈ after.getMFC_identified order ↔ Found c := by
  refine ⟨_, create_eq subject written fits random, fun calls here each enough => ?_⟩
  obtain ⟨after, runs, between, done⟩ := calls_run rfl finds
    (start subject ((finds here enough).start _ rfl rfl rfl)) each enough
  refine ⟨after, runs, by rw [between.same]; rfl, fun order => ⟨?_, fun c => ?_⟩⟩
  · exact (order.perm _).nodup_iff.mpr after.faultResolver.MFC_identified.nodup
  · exact (order.mem_walk.trans HashSet.mem_toList).trans (done.found c)

/-- What each of the exact resolvers identifies, and what it keeps from run to run. -/
theorem exact_finds {kind : Resolver} (exact' : kind ∈ [.noPend, .comFIL, .iterAIFL, .trt])
    (fits : (Method.resolver kind).Fits n) :
    ∃ Good : AbstractFaultResolver → Prop, ∀ here : Circumstances, here.Enough n →
      Finds subject.MFC_real subject.safeValues subject.Tpass subject.Tfail
        ((Method.resolver kind).conduct here) Good fun c => MinimalFault subject.MFC_real c ∧
          ¬ (kind = .trt ∧ c.fixed = Finset.range n ∧ 6 ≤ n) := by
  simp only [← subject.contained_iff]
  cases kind with
  | noPend =>
      simp only [reduceCtorEq, false_and, not_false_eq_true, and_true]
      exact ⟨_, fun here enough =>
        NoPendFaultResolver.finds subject.positive subject.table subject.safeFor
        subject.failing enough here.order⟩
  | comFIL =>
      simp only [reduceCtorEq, false_and, not_false_eq_true, and_true]
      exact ⟨_, fun here _ =>
        ComFILFaultResolver.finds fits subject.table subject.safeFor subject.passing
        subject.failing here.combination here.order⟩
  | iterAIFL =>
      simp only [reduceCtorEq, false_and, not_false_eq_true, and_true]
      exact ⟨_, fun here _ =>
        IterAIFLFaultResolver.finds subject.positive fits subject.table subject.safeFor
        subject.passing subject.failing subject.Tfail_ne_nil here.combination here.order⟩
  | trt =>
      simp only [true_and]
      exact ⟨_, fun here enough =>
        TRTFaultResolver.finds subject.positive fits subject.table subject.safeFor
        subject.failing (by unfold Circumstances.Enough at enough; omega)⟩
  | sofot | fic | ficbs => simp at exact'

/-- An experiment on a subject with NoPend, ComFIL or IterAIFL reports, after any sequence of calls
of `conduct` and `reset` that ends in `conduct`, exactly the minimal faults of the whole table; TRT
leaves out a fault that fixes all of six or more parameters. -/
theorem calls_exact {files : Files} {modelPath MFSPath safePath : Cell}
    (written : subject.InFiles files modelPath MFSPath safePath) {kind : Resolver}
    (exact' : kind ∈ [.noPend, .comFIL, .iterAIFL, .trt]) (fits : (Method.resolver kind).Fits n)
    (random : Nat → Bool) :
    ∃ experiment, create files modelPath MFSPath safePath t (.resolver kind) random =
      .ok experiment ∧
      ∀ (calls : List ExperimentCall) (here : Circumstances),
        (∀ call ∈ calls, call.Enough n) →
        here.Enough n → ∃ after,
          ((calls ++ [ExperimentCall.conduct here]).forM ExperimentCall.perform).Runs
            experiment ⟨⟩ after ∧
            ∀ order c, c ∈ after.getMFC_identified order ↔ MinimalFault subject.MFC_real c ∧
              ¬ (kind = .trt ∧ c.fixed = Finset.range n ∧ 6 ≤ n) := by
  obtain ⟨Good, finds⟩ := exact_finds subject exact' fits
  obtain ⟨experiment, created, runs⟩ := calls_found subject written fits random finds
  refine ⟨experiment, created, fun calls here each enough => ?_⟩
  obtain ⟨after, ends, _, found⟩ := runs calls here each enough
  exact ⟨after, ends, fun order => (found order).2⟩

/-- NoPend on the sample files, run again after a `reset`. -/
theorem calls_exact_sample : ∃ experiment after,
    create sampleFiles "s-model.csv".toList "s-mfs.csv".toList "s-safe.csv".toList 2
      (.resolver .noPend) (fun _ => false) = .ok experiment ∧
    (([ExperimentCall.conduct sampleCircumstances, ExperimentCall.reset] ++
      [ExperimentCall.conduct sampleCircumstances]).forM ExperimentCall.perform).Runs
        experiment ⟨⟩
      after ∧
    ∀ order c, c ∈ after.getMFC_identified order ↔
      c = ⟨.comb, [1, 1, -1, -1]⟩ ∨ c = ⟨.comb, [-1, -1, -1, 1]⟩ := by
  obtain ⟨experiment, created, runs⟩ := calls_exact Subject.sample sample_inFiles
    (show Resolver.noPend ∈ _ by simp) (show (Method.resolver .noPend).Fits 4 from trivial)
    fun _ => false
  obtain ⟨after, ends, found⟩ := runs [.conduct sampleCircumstances, .reset] sampleCircumstances
    (by simp [ExperimentCall.Enough, sample_enough]) sample_enough
  refine ⟨experiment, after, created, ends, fun order c => ?_⟩
  rw [found order c, and_iff_left (fun impossible => nomatch impossible.1)]
  exact sample_minimal c

/-- FIC and FICBS experiments on a subject report the same after any such calls: minimal faults, one
of them with a parameter in common with any given fault, and all of them where the minimal faults in
each test case are apart. -/
theorem calls_disjoint {files : Files} {modelPath MFSPath safePath : Cell}
    (written : subject.InFiles files modelPath MFSPath safePath) (random : Nat → Bool) :
    ∃ Found : Comb → Prop, (∀ c, Found c → MinimalFault subject.MFC_real c) ∧
      (∀ M ∈ subject.MFC_real, ∃ c, Found c ∧ ∃ i ∈ c.fixed, i ∈ M.fixed) ∧
      ((∀ c d, MinimalFault subject.MFC_real c → MinimalFault subject.MFC_real d → c ≠ d →
        (∃ test ∈ subject.testcases, test.Contains c ∧ test.Contains d) →
          Disjoint c.fixed d.fixed) →
        ∀ c, MinimalFault subject.MFC_real c → Found c) ∧
      ∀ kind ∈ [Resolver.fic, .ficbs], ∃ experiment,
        create files modelPath MFSPath safePath t (.resolver kind) random = .ok experiment ∧
          ∀ (calls : List ExperimentCall) (here : Circumstances),
            (∀ call ∈ calls, call.Enough n) →
            here.Enough n → ∃ after,
              ((calls ++ [ExperimentCall.conduct here]).forM ExperimentCall.perform).Runs
                experiment ⟨⟩ after ∧
                ∀ order c, c ∈ after.getMFC_identified order ↔ Found c := by
  obtain ⟨family, disjoint, each⟩ := @FINOVLPFaultResolver.exists_finds n subject.MFC_real
    subject.safeValues subject.Tpass subject.Tfail subject.table subject.safeFor subject.failing
  refine ⟨fun c => ∃ test ∈ subject.Tfail, c ∈ family test, ?_, ?_, ?_, ?_⟩
  · rintro c ⟨test, listed, member⟩
    exact ((disjoint test listed).minimal c member).1
  · intro M member
    obtain ⟨test, listed, inside⟩ := subject.reached member
    obtain ⟨c, found, common⟩ := (disjoint test listed).meets M member inside
    exact ⟨c, ⟨test, listed, found⟩, common⟩
  · intro apart c minimal
    obtain ⟨test, listed, inside⟩ := subject.reached minimal.1
    refine ⟨test, listed, FINOVLPFaultResolver.complete_of_disjoint (disjoint test listed) ?_
      minimal inside⟩
    intro d e minimalD minimalE insideD insideE different
    exact apart d e minimalD minimalE different ⟨test, (List.mem_filter.mp listed).1,
      insideD, insideE⟩
  · intro kind member
    have fits : (Method.resolver kind).Fits n := by
      simp only [List.mem_cons, List.not_mem_nil, or_false] at member
      rcases member with rfl | rfl <;> exact trivial
    have finds : ∀ here : Circumstances, here.Enough n →
        Finds subject.MFC_real subject.safeValues subject.Tpass subject.Tfail
          ((Method.resolver kind).conduct here) (fun r => r.Tpass = subject.Tpass)
          fun c => ∃ test ∈ subject.Tfail, c ∈ family test := by
      intro here enough
      have fuel : n < here.fuel :=
        lt_of_lt_of_le Nat.lt_two_pow_self ((Nat.le_add_right _ _).trans enough)
      simp only [List.mem_cons, List.not_mem_nil, or_false] at member
      rcases member with rfl | rfl
      · exact each _ FICFaultResovler.locates here.fuel fuel
      · exact each _ (FICBSFaultResolver.locates subject.table subject.safeFor) here.fuel fuel
    obtain ⟨experiment, created, runs⟩ := calls_found subject written fits random finds
    refine ⟨experiment, created, fun calls here each enough => ?_⟩
    obtain ⟨after, ends, _, found⟩ := runs calls here each enough
    exact ⟨after, ends, fun order => (found order).2⟩

/-- Both on the sample files, where no test case has two minimal faults. -/
theorem calls_disjoint_sample :
    Disjoint (⟨.comb, [1, 1, -1, -1]⟩ : Comb).fixed (⟨.comb, [-1, -1, -1, 1]⟩ : Comb).fixed ∧
    ∀ kind ∈ [Resolver.fic, .ficbs], ∃ experiment after,
      create sampleFiles "s-model.csv".toList "s-mfs.csv".toList "s-safe.csv".toList 2
        (.resolver kind) (fun _ => false) = .ok experiment ∧
      (([] ++ [ExperimentCall.conduct sampleCircumstances]).forM ExperimentCall.perform).Runs
        experiment ⟨⟩ after ∧
      ∀ order c, c ∈ after.getMFC_identified order ↔
        c = ⟨.comb, [1, 1, -1, -1]⟩ ∨ c = ⟨.comb, [-1, -1, -1, 1]⟩ := by
  obtain ⟨Found, minimal, _, complete, each⟩ :=
    calls_disjoint Subject.sample sample_inFiles fun _ => false
  refine ⟨by decide, fun kind member => ?_⟩
  obtain ⟨experiment, created, runs⟩ := each kind member
  obtain ⟨after, ends, found⟩ := runs [] sampleCircumstances (by simp) sample_enough
  refine ⟨experiment, after, created, ends, fun order c => ?_⟩
  rw [found order c, ← sample_minimal c]
  refine ⟨minimal c, complete ?_ c⟩
  intro c d minimalC minimalD different _
  rw [sample_minimal] at minimalC minimalD
  rcases minimalC with rfl | rfl <;> rcases minimalD with rfl | rfl
  · exact absurd rfl different
  · decide
  · decide
  · exact absurd rfl different

end Exact

end FaultLocalization

end NoPend
