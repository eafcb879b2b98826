import NoPend.Common.Schema
import Mathlib.Data.Rat.Defs

set_option autoImplicit false

namespace NoPend

/-- The checker. `verdict` is the decision of `check` on one test case: the system under
test. The source's own decision is `Checker.judge`. -/
structure Checker where
  verdict : Testcase → Except Exn Bool
  executedTestcase : HashSet Comb
  counter : Nat

namespace Checker

/-- The loop of `check`: a test case passes unless it contains a faulty combination. -/
def judge : List Comb → Testcase → Except Exn Bool
  | [], _ => .ok true
  | mf :: rest, testcase => do
      if ← Comb.contains testcase mf then return false else judge rest testcase

/-- A checker that has run nothing yet. -/
def ofVerdict (verdict : Testcase → Except Exn Bool) : Checker := ⟨verdict, HashSet.empty, 0⟩

/-- `Checker(List<Comb> MFS)`. -/
def ofMFS (MFS : List Comb) : Checker := ofVerdict (judge MFS)

def reset (c : Checker) : Checker := ofVerdict c.verdict

/-- What `check` notes about a test case. -/
def record (c : Checker) (testcase : Testcase) : Checker :=
  { c with counter := c.counter + 1, executedTestcase := c.executedTestcase.add testcase }

theorem judge_eq {MFS : List Comb} {t : Testcase} (sizes : ∀ M ∈ MFS, M.size = t.size) :
    judge MFS t = .ok (decide (∀ M ∈ MFS, ¬ t.Contains M)) := by
  induction MFS with
  | nil => simp [judge]
  | cons mf rest ih =>
      have later := ih fun M member => sizes M (List.mem_cons_of_mem _ member)
      rw [judge, Comb.contains_eq (sizes mf (by simp)).symm, later]
      by_cases inside : t.Contains mf <;> simp [inside, bind, Except.bind, pure, Except.pure]

end Checker

/-- The fields of `AbstractFaultResolver`. `random` are the draws the program's random
number generators are going to return. -/
structure AbstractFaultResolver where
  Tpass : List Testcase
  Tfail : List Testcase
  checker : Checker
  healthyCombs : List Comb
  faultyCombs : List Comb
  safeValues : Option Comb
  MFC_identified : HashSet Comb
  conducted : Bool
  t : Nat
  random : Nat → Bool

abbrev ResolverM := Proc Exn AbstractFaultResolver

namespace AbstractFaultResolver

/-- The constructor. -/
def create (checker : Checker) (Tpass Tfail : List Testcase) (random : Nat → Bool) :
    Except Exn AbstractFaultResolver :=
  if Tfail.isEmpty then .error (.illegalArgument "Tfail is empty")
  else .ok { Tpass, Tfail, checker, healthyCombs := [], faultyCombs := [], safeValues := none,
             MFC_identified := HashSet.empty, conducted := false, t := 0, random }

def setSafeValues (r : AbstractFaultResolver) (safeValues : Comb) : AbstractFaultResolver :=
  { r with safeValues := some safeValues }

def setT (r : AbstractFaultResolver) (t : Nat) : AbstractFaultResolver := { r with t }

def reset (r : AbstractFaultResolver) : AbstractFaultResolver :=
  { r with conducted := false, checker := r.checker.reset, MFC_identified := HashSet.empty }

/-- A constructed resolver whose safe values have been set. -/
def fresh (checker : Checker) (Tpass Tfail : List Testcase) (safeValues : Comb)
    (random : Nat → Bool) : Except Exn AbstractFaultResolver := do
  return (← create checker Tpass Tfail random).setSafeValues safeValues

/-- The next draw of `Random`. -/
def nextBoolean : ResolverM Bool := do
  let r ← get
  set { r with random := fun k => r.random (k + 1) }
  return r.random 0

def check (testcase : Testcase) : ResolverM Bool := do
  modify fun r => { r with checker := r.checker.record testcase }
  (← get).checker.verdict testcase

/-- What `check_with_safevalues` notes about a verdict. -/
def note (r : AbstractFaultResolver) (comb : Comb) (healthy : Bool) : AbstractFaultResolver :=
  if healthy then { r with healthyCombs := r.healthyCombs ++ [comb.copy] }
  else { r with faultyCombs := r.faultyCombs ++ [comb.copy] }

/-- The value padding at random gives a parameter. -/
def padAtRandom (comb safeValues : Comb) (i : Nat) : ResolverM Int := do
  if comb.val i = Comb.UNKNOWN then
    let safe ← safeValues.get i
    if safe = Comb.UNKNOWN then
      if ← nextBoolean then return 1 else return 0
    else return safe
  else return comb.val i

/-- `Testcase.paddingWithSafeValues(comb, safeValues)`: an open parameter takes its safe
value, or 0 or 1 at random. -/
def paddingAtRandom (comb safeValues : Comb) : ResolverM Testcase := do
  Testcase.ofList (← (List.range comb.size).mapM (padAtRandom comb safeValues))

/-- `check_with_safevalues(comb)`. -/
def check_with_safevalues_at_random (comb : Comb) : ResolverM Bool := do
  match (← get).safeValues with
  | none => throw .nullPointer
  | some safeValues =>
      let result ← check (← paddingAtRandom comb safeValues)
      modify (note · comb result)
      return result

/-- `check_with_safevalues(comb, tfail)`. -/
def check_with_safevalues (comb : Comb) (tfail : Testcase) : ResolverM Bool := do
  match (← get).safeValues with
  | none => throw .nullPointer
  | some safeValues =>
      let t ← Testcase.paddingWithSafeValues comb safeValues tfail
      let result ← check t
      modify (note · comb result)
      return result

def checkPending (r : AbstractFaultResolver) (comb : Comb) : Except Exn Bool := do
  if ← r.healthyCombs.anyM (Comb.contains · comb) then return false
  if ← r.faultyCombs.anyM (Comb.contains comb ·) then return false
  return true

/-- `sampling(n)`. -/
def sampling (n : Nat) : ResolverM Schema :=
  (List.range n).foldlM (fun schema i => do
    if ← nextBoolean then return schema.set i true else return schema) (Schema.ofSize n)

/-- `getPendingCombProportion(tfail)`, the quotient taken in the rationals. -/
def getPendingCombProportion (tfail : Testcase) : ResolverM Rat := do
  let r ← get
  if r.healthyCombs.isEmpty && r.faultyCombs.isEmpty then
    throw (.illegalState "This fault resolver does not use Assumption 1")
  let sampling_count := 1000
  let pending_count ← (List.range sampling_count).foldlM (fun (pending_count : Nat) _ => do
    let schema ← sampling tfail.size
    let comb ← schema.getComb tfail
    if ← (← get).checkPending comb then return pending_count + 1 else return pending_count) 0
  return pending_count / sampling_count

/-- `conduct` of the resolvers that need safe values: a second call does nothing. -/
def conductOnce (message : String) (conduct_with_safevalues : ResolverM Unit) : ResolverM Unit := do
  if (← get).conducted then return
  modify fun r => { r with conducted := true }
  if (← get).safeValues.isNone then throw (.runtime message) else conduct_with_safevalues

/-- `MFC_identified.add(MFS.getComb(tfail))`. -/
def addIdentified (tfail : Testcase) (MFS : Schema) : ResolverM Unit := do
  let comb ← MFS.getComb tfail
  modify fun r => { r with MFC_identified := r.MFC_identified.add comb }

/-- The resolver after combinations have been added to `MFC_identified`. -/
def identified (r : AbstractFaultResolver) (combs : List Comb) : AbstractFaultResolver :=
  { r with MFC_identified := r.MFC_identified.addAll combs }

/-- The test case that decides about the part of `tfail` on the parameters in `S`. -/
def paddedPart (safe : Comb) (tfail : Testcase) (S : Finset Nat) : Testcase :=
  (tfail.restrict S).padWith safe fun i => 1 - tfail.val i

/-- The verdict on the part of `tfail` on the parameters in `S`. -/
def passes (verdict : Testcase → Bool) (safe : Comb) (tfail : Testcase) (S : Finset Nat) : Bool :=
  verdict (paddedPart safe tfail S)

/-- The resolver after the part of `tfail` on the parameters in `S` has been checked. -/
def probe (verdict : Testcase → Bool) (safe : Comb) (tfail : Testcase)
    (r : AbstractFaultResolver) (S : Finset Nat) : AbstractFaultResolver :=
  ({ r with checker := r.checker.record (paddedPart safe tfail S) }).note (tfail.restrict S)
    (passes verdict safe tfail S)

/-- The resolver after several parts of `tfail` have been checked one after the other. -/
def probes (verdict : Testcase → Bool) (safe : Comb) (tfail : Testcase)
    (r : AbstractFaultResolver) (parts : List (Finset Nat)) : AbstractFaultResolver :=
  parts.foldl (probe verdict safe tfail) r

/-- The resolver has safe values for `n` parameters and its system under test answers
every test case of size `n` by `verdict`. -/
structure Ready (n : Nat) (verdict : Testcase → Bool) (safe : Comb)
    (r : AbstractFaultResolver) : Prop where
  safeValues : r.safeValues = some safe
  valid : safe.Valid n
  answers : ∀ t : Testcase, t.size = n → r.checker.verdict t = .ok (verdict t)

/-- A constructor call that returns had a failing test case, and sets all fields. -/
theorem create_eq {checker : Checker} {Tpass Tfail : List Testcase} {random : Nat → Bool}
    {r : AbstractFaultResolver} (created : create checker Tpass Tfail random = .ok r) :
    Tfail ≠ [] ∧ r = ⟨Tpass, Tfail, checker, [], [], none, HashSet.empty, false, 0,
      random⟩ := by
  unfold create at created
  split at created
  · cases created
  · rename_i some
    exact ⟨by simpa using some, (Except.ok.inj created).symm⟩

theorem fresh_ok {checker : Checker} {Tpass Tfail : List Testcase} {safe : Comb}
    {random : Nat → Bool} {r : AbstractFaultResolver}
    (created : fresh checker Tpass Tfail safe random = .ok r) :
    Tfail ≠ [] ∧ r = ⟨Tpass, Tfail, checker, [], [], some safe, HashSet.empty, false, 0,
      random⟩ := by
  obtain ⟨base, made, set⟩ := Except.bind_ok.mp created
  obtain ⟨some, rfl⟩ := create_eq made
  exact ⟨some, (Except.ok.inj set).symm⟩

theorem conductOnce_runs {r after : AbstractFaultResolver} {message : String}
    {body : ResolverM Unit} (first : r.conducted = false) (known : r.safeValues.isSome = true)
    (runs : body.Runs { r with conducted := true } ⟨⟩ after) :
    (conductOnce message body).Runs r ⟨⟩ after := by
  have present : ¬ r.safeValues.isNone = true := by
    rw [Option.isNone_eq_false_iff.mpr known]
    decide
  refine (Proc.Runs.get r).bind ?_
  rw [if_neg (by rw [first]; decide)]
  refine (Proc.Runs.modify _ r).bind ((Proc.Runs.get _).bind ?_)
  rw [if_neg present]
  exact runs

/-- A first call of `conduct` on a resolver with safe values runs the body. -/
theorem conductOnce_body {r after : AbstractFaultResolver} {message : String}
    {body : ResolverM Unit} (never : r.conducted = false) (known : r.safeValues.isSome = true)
    (runs : (conductOnce message body).Runs r ⟨⟩ after) :
    body.Runs { r with conducted := true } ⟨⟩ after := by
  have first := Proc.of_get_bind runs
  rw [if_neg (by rw [never]; decide)] at first
  have second := Proc.of_get_bind (Proc.of_modify_bind first)
  have present : ¬ r.safeValues.isNone = true := by
    rw [Option.isNone_eq_false_iff.mpr known]
    decide
  rw [if_neg present] at second
  exact second

/-- The state in which `conduct_with_safevalues` of a fresh resolver starts. -/
def started (verdict : Testcase → Except Exn Bool) (Tpass Tfail : List Testcase) (safe : Comb)
    (random : Nat → Bool) : AbstractFaultResolver :=
  ⟨Tpass, Tfail, Checker.ofVerdict verdict, [], [], some safe, HashSet.empty, true, 0, random⟩

theorem started_ready {n : Nat} {verdict : Testcase → Bool} {safe : Comb}
    {decide' : Testcase → Except Exn Bool} {Tpass Tfail : List Testcase}
    {random : Nat → Bool} (valid : safe.Valid n)
    (answers : ∀ t : Testcase, t.size = n → decide' t = .ok (verdict t)) :
    (started decide' Tpass Tfail safe random).Ready n verdict safe :=
  ⟨rfl, valid, answers⟩

section Probe

variable {n : Nat} {verdict : Testcase → Bool} {safe : Comb} {tfail : Testcase}
  {r : AbstractFaultResolver}

@[simp] theorem paddedPart_size (safe : Comb) (tfail : Testcase) (S : Finset Nat) :
    (paddedPart safe tfail S).size = tfail.size := by
  simp [paddedPart]

/-- What a check leaves alone. -/
structure SameConfig (r r' : AbstractFaultResolver) : Prop where
  Tpass : r'.Tpass = r.Tpass
  Tfail : r'.Tfail = r.Tfail
  safeValues : r'.safeValues = r.safeValues
  MFC_identified : r'.MFC_identified = r.MFC_identified
  conducted : r'.conducted = r.conducted
  verdict : r'.checker.verdict = r.checker.verdict

theorem SameConfig.refl (r : AbstractFaultResolver) : SameConfig r r :=
    ⟨rfl, rfl, rfl, rfl, rfl, rfl⟩

theorem SameConfig.trans {r r' r'' : AbstractFaultResolver} (first : SameConfig r r')
    (second : SameConfig r' r'') : SameConfig r r'' :=
  ⟨second.Tpass.trans first.Tpass, second.Tfail.trans first.Tfail,
    second.safeValues.trans first.safeValues, second.MFC_identified.trans first.MFC_identified,
    second.conducted.trans first.conducted, second.verdict.trans first.verdict⟩

theorem probe_sameConfig (S : Finset Nat) : SameConfig r (probe verdict safe tfail r S) := by
  unfold probe note
  split <;> exact ⟨rfl, rfl, rfl, rfl, rfl, rfl⟩

theorem probe_checker (S : Finset Nat) :
    (probe verdict safe tfail r S).checker = r.checker.record (paddedPart safe tfail S) := by
  unfold probe note
  split <;> rfl

theorem probes_sameConfig (parts : List (Finset Nat)) :
    SameConfig r (probes verdict safe tfail r parts) := by
  induction parts generalizing r with
  | nil => exact SameConfig.refl r
  | cons S rest ih => exact (probe_sameConfig S).trans ih

theorem Ready.of_sameConfig {r' : AbstractFaultResolver} (ready : r.Ready n verdict safe)
    (same : SameConfig r r') : r'.Ready n verdict safe :=
  ⟨same.safeValues.trans ready.safeValues,
    ready.valid, by rw [same.verdict]; exact ready.answers⟩

theorem Ready.probe (ready : r.Ready n verdict safe) (tfail : Testcase) (S : Finset Nat) :
    (r.probe verdict safe tfail S).Ready n verdict safe :=
  ready.of_sameConfig (probe_sameConfig S)

theorem Ready.probes (ready : r.Ready n verdict safe) (tfail : Testcase)
    (parts : List (Finset Nat)) :
    (r.probes verdict safe tfail parts).Ready n verdict safe :=
  ready.of_sameConfig (probes_sameConfig parts)

theorem probes_append (first second : List (Finset Nat)) :
    probes verdict safe tfail r (first ++ second) =
      probes verdict safe tfail (probes verdict safe tfail r first) second :=
  List.foldl_append

theorem probes_healthyCombs (parts : List (Finset Nat)) :
    (probes verdict safe tfail r parts).healthyCombs =
      r.healthyCombs ++ (parts.filter (passes verdict safe tfail)).map tfail.restrict := by
  induction parts generalizing r with
  | nil => simp [probes]
  | cons S rest ih =>
      change (probes verdict safe tfail (probe verdict safe tfail r S) rest).healthyCombs = _
      rw [ih]
      by_cases healthy : passes verdict safe tfail S = true
      · simp [probe, note, healthy, Comb.copy, Comb.restrict]
      · simp [probe, note, healthy]

theorem probes_faultyCombs (parts : List (Finset Nat)) :
    (probes verdict safe tfail r parts).faultyCombs =
      r.faultyCombs ++
        (parts.filter (fun S => !passes verdict safe tfail S)).map tfail.restrict := by
  induction parts generalizing r with
  | nil => simp [probes]
  | cons S rest ih =>
      change (probes verdict safe tfail (probe verdict safe tfail r S) rest).faultyCombs = _
      rw [ih]
      by_cases healthy : passes verdict safe tfail S = true
      · simp [probe, note, healthy]
      · simp [probe, note, healthy, Comb.copy, Comb.restrict]

theorem restrict_valid (binary : tfail.Binary n) (S : Finset Nat) : (tfail.restrict S).Valid n := by
  refine ⟨by rw [Comb.restrict_size, binary.size], fun i inside => ?_⟩
  rw [Comb.restrict_val]
  split
  · rcases binary.values i inside with zero | one <;> simp [*]
  · exact Or.inr rfl

theorem check_of_verdict {t : Testcase} {healthy : Bool}
    (answer : r.checker.verdict t = .ok healthy) :
    (check t).Runs r healthy { r with checker := r.checker.record t } :=
  (Proc.Runs.modify _ r).bind ((Proc.Runs.get _).bind (Proc.Runs.of_ok answer _))

/-- The verdict on a test case does not depend on what was checked before. -/
theorem check_settles {t : Testcase} {healthy : Bool} (answer : r.checker.verdict t = .ok healthy) :
    Proc.Settles (SameConfig r) (check t) healthy := by
  intro before same
  refine ⟨_, check_of_verdict (by rw [same.verdict, answer]), same.trans ?_⟩
  exact ⟨rfl, rfl, rfl, rfl, rfl, rfl⟩

theorem check_runs (ready : r.Ready n verdict safe) {t : Testcase} (size : t.size = n) :
    (check t).Runs r (verdict t) { r with checker := r.checker.record t } :=
  check_of_verdict (ready.answers t size)

/-- `check_with_safevalues(comb, tfail)` decides by the padded test case and notes the verdict. -/
theorem check_with_safevalues_runs (ready : r.Ready n verdict safe) (binary : tfail.Binary n)
    {comb : Comb} (valid : comb.Valid n) :
    (check_with_safevalues comb tfail).Runs r
      (verdict (comb.padWith safe fun i => 1 - tfail.val i))
      (({ r with checker := r.checker.record (comb.padWith safe fun i => 1 - tfail.val i) }).note
        comb (verdict (comb.padWith safe fun i => 1 - tfail.val i))) := by
  have padded := Testcase.paddingWithSafeValues_eq valid ready.valid binary
  have size : (comb.padWith safe fun i => 1 - tfail.val i).size = n := by
    rw [Comb.padWith_size, valid.size]
  refine (Proc.Runs.get r).bind ?_
  split
  · rename_i missing
    simp [ready.safeValues] at missing
  · rename_i found present
    obtain rfl : safe = found := Option.some.inj (ready.safeValues.symm.trans present)
    exact (Proc.Runs.of_ok padded r).bind
      ((check_runs ready size).bind ((Proc.Runs.modify _ _).bind (Proc.Runs.ret _ _)))

/-- `check_with_safevalues` on any object with the values of a part of `tfail`. -/
theorem check_part_runs (ready : r.Ready n verdict safe) (binary : tfail.Binary n)
    {comb : Comb} {S : Finset Nat} (part : comb.elements = (tfail.restrict S).elements) :
    (check_with_safevalues comb tfail).Runs r (passes verdict safe tfail S)
      (probe verdict safe tfail r S) := by
  have copied : comb.copy = tfail.restrict S := by
    rw [Comb.copy, part]
    rfl
  have size : comb.size = (tfail.restrict S).size := by rw [Comb.size, part, Comb.size]
  have val : ∀ i, comb.val i = (tfail.restrict S).val i := by
    intro i
    rw [Comb.val, part, Comb.val]
  have padded : comb.padWith safe (fun i => 1 - tfail.val i) = paddedPart safe tfail S := by
    simp only [paddedPart, Comb.padWith, size, val]
  have valid : comb.Valid n := by
    obtain ⟨sized, values⟩ := restrict_valid binary S
    exact ⟨size.trans sized, fun i inside => by rw [val]; exact values i inside⟩
  have runs := check_with_safevalues_runs ready binary valid
  rw [padded] at runs
  have noted : ∀ (q : AbstractFaultResolver) (b : Bool),
      q.note comb b = q.note (tfail.restrict S) b := by
    intro q b
    unfold note
    rw [copied]
    rfl
  rw [noted] at runs
  exact runs

/-- `check_with_safevalues(schema.getComb(tfail), tfail)` and what follows it. -/
theorem check_schema_bind (ready : r.Ready n verdict safe) (binary : tfail.Binary n)
    {s : Schema} (wf : s.Wf n) {α : Type} {next : Bool → ResolverM α} {value : α}
    {after : AbstractFaultResolver}
    (rest : (next (passes verdict safe tfail s.bits)).Runs (probe verdict safe tfail r s.bits)
      value after) :
    (do next (← check_with_safevalues (← s.getComb tfail) tfail) : ResolverM α).Runs
      r value after :=
  (Proc.Runs.of_ok (Schema.getComb_eq wf.logic binary.size) r).bind
    ((check_part_runs ready binary rfl).bind rest)

theorem addIdentified_runs (binary : tfail.Binary n) (schemas : List Schema)
    (wf : ∀ s ∈ schemas, s.Wf n) :
    (schemas.forM (addIdentified tfail)).Runs r ⟨⟩
      (identified r (schemas.map fun s => tfail.restrict s.bits)) := by
  induction schemas generalizing r with
  | nil => exact Proc.Runs.ret _ _
  | cons s rest ih =>
      have first : (addIdentified tfail s).Runs r ⟨⟩ (identified r [tfail.restrict s.bits]) :=
        (Proc.Runs.of_ok (Schema.getComb_eq (wf s (by simp)).logic binary.size) r).bind
          (Proc.Runs.modify _ _)
      exact first.bind (ih fun x member => wf x (List.mem_cons_of_mem _ member))

theorem mem_identified {combs : List Comb} {c : Comb} :
    c ∈ (identified r combs).MFC_identified ↔ c ∈ r.MFC_identified ∨ c ∈ combs :=
  HashSet.mem_addAll

end Probe

end AbstractFaultResolver

end NoPend
