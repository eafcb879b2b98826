import NoPend.Experiment.FaultLocalization
import NoPend.FaultResolver.BenExact
import NoPend.FaultResolver.LifeCycleNoPend

set_option autoImplicit false

/- `Main`: the scores of one experiment. -/
namespace NoPend

open AbstractFaultResolver Proc FaultLocalization

/-- `PathResolver.getBase`: the part before the last dot. -/
def PathResolver.getBase (fileName : Cell) : Option Cell :=
  if '.' ∈ fileName then some (fileName.reverse.dropWhile (· ≠ '.')).tail.reverse else none

/-- The fields of `Result`, without the time. A quotient by zero is no number. -/
structure Result where
  precision : Option Rat
  «recall» : Option Rat
  f1 : Option Rat
  numAT : Nat
  numAT_avg : Option Rat
  pendingSchemaProportion : Option (Option Rat)
deriving DecidableEq

namespace Main

def METHOD_MAP : String → Option Method
  | "SOFOT" => some (.resolver .sofot)
  | "FIC" => some (.resolver .fic)
  | "FICBS" => some (.resolver .ficbs)
  | "NoPend" => some (.resolver .noPend)
  | "IterAIFL" => some (.resolver .iterAIFL)
  | "ComFIL" => some (.resolver .comFIL)
  | "TRT" => some (.resolver .trt)
  | "BEN" => some .ben
  | _ => none

/-- The file of a subject that has this suffix; a missing base is written as `null`. -/
def filePath (SUT_path : Cell) (suffix : String) : Cell :=
  (PathResolver.getBase SUT_path).getD "null".toList ++ suffix.toList

/-- A resolver that records no verdicts has no proportion. -/
def pendingOrNull : ExperimentM (Option (Option Rat)) :=
  tryCatch (do return some (← FaultLocalization.getPendingCombProportion)) fun reason =>
    match reason with
    | .illegalState _ => return none
    | other => throw other

/-- The fields that are set after `conduct`. -/
def collected (order : IterOrder Comb) (numTfail : Nat) (done : FaultLocalization)
    (pendingSchemaProportion : Option (Option Rat)) : Result where
  precision := done.getPrecision order
  «recall» := done.getRecall order
  f1 := done.getF1 order
  numAT := done.getAdditionalTestcase.size
  numAT_avg := Measure.quotient done.getAdditionalTestcase.size numTfail
  pendingSchemaProportion := pendingSchemaProportion

/-- What `runExperiment` does with a constructed experiment. -/
def measured (here : Circumstances) : ExperimentM Result := do
  let numTfail := (← get).getNumTfail
  FaultLocalization.conduct here
  let done ← get
  let pendingSchemaProportion ← pendingOrNull
  return collected here.order numTfail done pendingSchemaProportion

def runExperiment (files : Files) (modelPath MFSPath safePath : Cell) (max_mfs : Nat)
    (method : String) (random : Nat → Bool) (here : Circumstances) : Except IOExn Result := do
  match METHOD_MAP method with
  | none => throw (.exn (.illegalArgument ("Unknown method: " ++ method)))
  | some methodClass =>
      let faultLocalization ← FaultLocalization.create files modelPath MFSPath safePath max_mfs
        methodClass random
      IOExn.lift ((measured here).exec faultLocalization).1

end Main

section Scores

variable {MFC_real MFC_identified : List Comb}

/-- Each minimal fault is listed once, and nothing else. -/
structure ExactList (MFC_real MFC_identified : List Comb) : Prop where
  once : MFC_identified.Nodup
  found : ∀ c, c ∈ MFC_identified ↔ MinimalFault MFC_real c

namespace ExactList

theorem subset (exact' : ExactList MFC_real MFC_identified) :
    MFC_identified.toFinset ⊆ MFC_real.toFinset := by
  intro c member
  rw [List.mem_toFinset] at member ⊢
  exact ((exact'.found c).mp member).1

theorem card (exact' : ExactList MFC_real MFC_identified) :
    MFC_identified.toFinset.card = MFC_identified.length :=
  List.toFinset_card_of_nodup exact'.once

/-- The recall is the share of the minimal faults among the distinct ones. -/
theorem recall_eq (exact' : ExactList MFC_real MFC_identified) (some : MFC_identified ≠ []) :
    ∃ r, Measure.recall MFC_real MFC_identified = .some r ∧ 0 < r ∧ r ≤ 1 ∧
      (r = 1 ↔ ∀ M ∈ MFC_real, MinimalFault MFC_real M) := by
  have nonempty : MFC_real ≠ [] := by
    rintro rfl
    obtain ⟨c, rest, rfl⟩ := List.exists_cons_of_ne_nil some
    exact List.not_mem_nil ((exact'.found c).mp (by simp)).1
  have all : MFC_identified.filter (· ∈ MFC_real) = MFC_identified := by
    rw [List.filter_eq_self]
    intro c member
    simpa using ((exact'.found c).mp member).1
  have divisor : (0 : Rat) < MFC_real.toFinset.card := Nat.cast_pos.mpr (Measure.card_pos nonempty)
  have most : MFC_identified.length ≤ MFC_real.toFinset.card :=
    exact'.card ▸ Finset.card_le_card exact'.subset
  refine ⟨_, Measure.share_eq nonempty, ?_, ?_, ?_⟩
  · rw [all]
    exact div_pos (Nat.cast_pos.mpr (List.length_pos_iff.mpr some)) divisor
  · rw [all, div_le_one divisor]
    exact_mod_cast most
  · rw [all, div_eq_one_iff_eq divisor.ne', Nat.cast_inj, ← exact'.card]
    constructor
    · intro same M member
      have whole := Finset.eq_of_subset_of_card_le exact'.subset same.ge
      rw [← exact'.found, ← List.mem_toFinset, whole]
      exact List.mem_toFinset.mpr member
    · intro all
      congr 1
      ext M
      rw [List.mem_toFinset, List.mem_toFinset, exact'.found]
      exact ⟨And.left, all M⟩

/-- The precision counts every listed row of a minimal fault, and is never below 1. -/
theorem precision_eq (exact' : ExactList MFC_real MFC_identified) (some : MFC_identified ≠ []) :
    ∃ p, Measure.precision MFC_real MFC_identified = .some p ∧ 1 ≤ p ∧
      (p = 1 ↔ ∀ c, MinimalFault MFC_real c → MFC_real.count c = 1) := by
  have part : MFC_identified.toFinset ⊆ (MFC_real.filter (· ∈ MFC_identified)).toFinset := by
    intro c member
    rw [List.mem_toFinset] at member ⊢
    exact List.mem_filter.mpr ⟨((exact'.found c).mp member).1, by simpa using member⟩
  have least : MFC_identified.toFinset.card ≤ (MFC_real.filter (· ∈ MFC_identified)).length :=
    (Finset.card_le_card part).trans (List.toFinset_card_le _)
  have divisor : (0 : Rat) < MFC_identified.toFinset.card :=
    Nat.cast_pos.mpr (Measure.card_pos some)
  refine ⟨_, Measure.share_eq some, ?_, ?_⟩
  · rw [one_le_div divisor]
    exact_mod_cast least
  · have common : (MFC_identified.toFinset ∩ MFC_real.toFinset).card =
        MFC_identified.toFinset.card := by
      rw [Finset.inter_eq_left.mpr exact'.subset]
    rw [div_eq_one_iff_eq divisor.ne', Nat.cast_inj, ← common, Measure.length_filter_eq_iff]
    simp only [exact'.found]
    refine forall₂_congr fun c minimal => ?_
    have listed := List.one_le_count_iff.mpr minimal.1
    omega

theorem f1_eq (exact' : ExactList MFC_real MFC_identified) (some : MFC_identified ≠ []) :
    ∃ f, Measure.f1 MFC_real MFC_identified = .some f ∧ 0 < f := by
  obtain ⟨r, recalled, positive, _⟩ := exact'.recall_eq some
  obtain ⟨p, precise, least, _⟩ := exact'.precision_eq some
  have more : 0 < p := lt_of_lt_of_le one_pos least
  refine ⟨2 * r * p / (r + p), ?_,
    div_pos (mul_pos (mul_pos two_pos positive) more) (add_pos positive more)⟩
  rw [Measure.f1, recalled, precise]
  exact if_neg (add_pos positive more).ne'

end ExactList

end Scores

section Runs

variable {n t : Nat} (subject : Subject n t)

theorem Subject.minimal_exists : ∃ c, MinimalFault subject.MFC_real c := by
  obtain ⟨M, rest, split⟩ := List.exists_cons_of_ne_nil subject.some
  have member : M ∈ subject.MFC_real := by rw [split]; simp
  obtain ⟨test, listed, inside⟩ := subject.reached member
  obtain ⟨d, minimal, _⟩ :=
    exists_minimalFault_below (subject.failing test listed).1.size member inside
  exact ⟨d, minimal⟩

/-- A result of an exact resolver, listed in whatever order. -/
theorem exactList_of_done {r : AbstractFaultResolver}
    (done : Done subject.MFC_real subject.safeValues subject.Tfail (MinimalFault
      subject.MFC_real) r)
    (order : IterOrder Comb) : ExactList subject.MFC_real (order.walk r.MFC_identified.toList) where
  once := (order.perm _).nodup_iff.mpr r.MFC_identified.nodup
  found c := (order.mem_walk.trans HashSet.mem_toList).trans (done.found c)

theorem ExactList.ne_nil {MFC_identified : List Comb}
    (exact' : ExactList subject.MFC_real MFC_identified) :
    MFC_identified ≠ [] := by
  obtain ⟨c, minimal⟩ := subject.minimal_exists
  exact List.ne_nil_of_mem ((exact'.found c).mpr minimal)

/-- The scores after any sequence of calls: the recall is 1 exactly where no fault of the table
contains another one, the precision is 1 exactly where no minimal fault is listed twice. -/
theorem FaultLocalization.calls_scores {files : Files} {modelPath MFSPath safePath : Cell}
    (written : subject.InFiles files modelPath MFSPath safePath) {kind : Resolver}
    (exact' : kind ∈ [.noPend, .comFIL, .iterAIFL, .trt]) (few : kind = .trt → n < 6)
    (fits : (Method.resolver kind).Fits n) (random : Nat → Bool) :
    ∃ experiment, create files modelPath MFSPath safePath t (.resolver kind) random =
      .ok experiment ∧
      ∀ (calls : List ExperimentCall) (here : Circumstances),
        (∀ call ∈ calls, call.Enough n) →
        here.Enough n → ∃ after,
          ((calls ++ [ExperimentCall.conduct here]).forM ExperimentCall.perform).Runs
            experiment ⟨⟩ after ∧
            ∀ order,
              (∃ r, after.getRecall order = some r ∧ 0 < r ∧ r ≤ 1 ∧
                (r = 1 ↔ ∀ M ∈ subject.MFC_real, MinimalFault subject.MFC_real M)) ∧
              (∃ p, after.getPrecision order = some p ∧ 1 ≤ p ∧
                (p = 1 ↔ ∀ c, MinimalFault subject.MFC_real c →
                  subject.MFC_real.count c = 1)) ∧
              ∃ f, after.getF1 order = some f ∧ 0 < f := by
  obtain ⟨Good, finds⟩ := exact_finds subject exact' fits
  obtain ⟨experiment, created, runs⟩ := calls_found subject written fits random finds
  refine ⟨experiment, created, fun calls here each enough => ?_⟩
  obtain ⟨after, ends, real, found⟩ := runs calls here each enough
  refine ⟨after, ends, fun order => ?_⟩
  have list : ExactList subject.MFC_real (after.getMFC_identified order) := by
    refine ⟨(found order).1, fun c => ((found order).2 c).trans ?_⟩
    exact and_iff_left fun ⟨trt, _, many⟩ => absurd (few trt) (by omega)
  have some := list.ne_nil
  rw [getRecall, getPrecision, getF1, real]
  exact ⟨list.recall_eq some, list.precision_eq some, list.f1_eq some⟩

/-- The scores on the sample files, where one row contains another one. -/
theorem FaultLocalization.calls_scores_sample : ∃ experiment after r,
    create sampleFiles "s-model.csv".toList "s-mfs.csv".toList "s-safe.csv".toList 2
      (.resolver .trt) (fun _ => false) = .ok experiment ∧
    (([] ++ [ExperimentCall.conduct sampleCircumstances]).forM ExperimentCall.perform).Runs
      experiment ⟨⟩ after ∧
    after.getRecall .insertion = some r ∧ 0 < r ∧ r < 1 ∧
    after.getPrecision .insertion = some 1 := by
  obtain ⟨experiment, created, runs⟩ := calls_scores Subject.sample sample_inFiles
    (show Resolver.trt ∈ _ by simp) (fun _ => by decide) (show 4 ≤ 30 by decide) fun _ => false
  obtain ⟨after, ends, scores⟩ := runs [] sampleCircumstances (by simp) sample_enough
  obtain ⟨⟨r, recalled, positive, most, whole⟩, ⟨p, precise, _, once⟩, _⟩ :=
    scores .insertion
  refine ⟨experiment, after, r, created, ends, recalled, positive, lt_of_le_of_ne most ?_, ?_⟩
  · rw [Ne, whole]
    decide
  · rw [precise, once.mpr fun c minimal => ?_]
    rcases (sample_minimal c).mp minimal with rfl | rfl <;> decide

end Runs

section Pending

variable {here : Circumstances}

/-- The records of the verdicts. -/
def verdicts (r : AbstractFaultResolver) : List Comb × List Comb :=
  (r.healthyCombs, r.faultyCombs)

theorem sampling_keeps (n : Nat) : Keeps verdicts (sampling n) := by
  have draw : Keeps verdicts nextBoolean := fun _ => rfl
  refine Keeps.foldlM _ (fun schema i => draw.bind fun chosen => ?_) _
  split
  · exact .ret _
  · exact .ret _

/-- The samples of a test case leave the records alone. -/
theorem getPendingCombProportion_keeps (tfail : Testcase) :
    Keeps verdicts (AbstractFaultResolver.getPendingCombProportion tfail) := by
  have sample : ∀ count : Nat, Keeps verdicts (do
      let schema ← sampling tfail.size
      let comb ← schema.getComb tfail
      if ← (← get).checkPending comb then return count + 1 else return count) := by
    intro count
    refine (sampling_keeps _).bind fun schema => (Keeps.lift _).bind fun comb =>
        Keeps.get.bind fun r =>
      (Keeps.lift _).bind fun pending => ?_
    split
    · exact .ret _
    · exact .ret _
  unfold AbstractFaultResolver.getPendingCombProportion
  refine Keeps.get.bind fun r => ?_
  split
  · exact .throw _
  · exact (Keeps.foldlM _ (fun count _ => sample count) _).bind fun _ => .ret _

/-- Where the samples of every failing test case are all decided, so is the average. -/
theorem average_zero (experiment : FaultLocalization) (some : experiment.Tfail ≠ [])
    (zero : ∀ tfail ∈ experiment.Tfail, ∀ r,
      verdicts r = verdicts experiment.faultResolver →
      ∃ after, (AbstractFaultResolver.getPendingCombProportion tfail).Runs r 0 after) :
    ∃ after, FaultLocalization.getPendingCombProportion.Runs experiment (.some 0) after := by
  obtain ⟨ans, after, runs, rfl, _⟩ := foldlM_runs
    (fun (ans : Rat) tfail => do
      return ans + (← onResolver (AbstractFaultResolver.getPendingCombProportion tfail)))
    (fun ans now => ans = 0 ∧ verdicts now.faultResolver = verdicts experiment.faultResolver)
    experiment.Tfail (by
      rintro ans now tfail member ⟨rfl, same⟩
      obtain ⟨after, runs⟩ := zero tfail member now.faultResolver same
      refine ⟨0, { now with faultResolver := after }, (onResolver_runs runs).bind ?_, rfl,
        ((getPendingCombProportion_keeps tfail).of_runs runs).trans same⟩
      rw [add_zero]
      exact Runs.ret _ _) 0 experiment ⟨rfl, rfl⟩
  refine ⟨after, (Runs.get experiment).bind (runs.bind ?_)⟩
  have divisor : (experiment.Tfail.length : Rat) ≠ 0 :=
    Nat.cast_ne_zero.mpr (List.length_pos_iff.mpr some).ne'
  rw [Measure.quotient, if_neg divisor, zero_div]
  exact Runs.ret _ _

theorem measured_of {experiment done : FaultLocalization}
    (conducts : (FaultLocalization.conduct here).Runs experiment ⟨⟩ done)
    {pending : Option (Option Rat)} {after : FaultLocalization}
    (proportion : Main.pendingOrNull.Runs done pending after) :
    (Main.measured here).Runs experiment
      (Main.collected here.order experiment.getNumTfail done pending) after :=
  (Runs.get _).bind (conducts.bind ((Runs.get _).bind (proportion.bind (Runs.ret _ _))))

theorem pendingOrNull_of {done after : FaultLocalization} {value : Option Rat}
    (averages : FaultLocalization.getPendingCombProportion.Runs done value after) :
    Main.pendingOrNull.Runs done (some value) after := by
  have wrapped : (do return some (← FaultLocalization.getPendingCombProportion) :
      ExperimentM (Option (Option Rat))).Runs done (some value) after :=
    averages.bind (Runs.ret _ _)
  exact wrapped.tryCatch _

end Pending

section Settled

variable {n t : Nat} (subject : Subject n t)

/-- Settled records decide about every part of a failing test case, if no fault fixes all
parameters and the value of one parameter is no fault. -/
theorem RecordsSettled.decided_all {r : AbstractFaultResolver}
    (settled : RecordsSettled n subject.MFC_real subject.Tfail r) (narrower : t < n)
    (single : ∃ i < n, ∀ M ∈ subject.MFC_real, M.fixed ≠ {i}) {tfail : Testcase}
    (member : tfail ∈ subject.Tfail) {S : Finset Nat} (within : S ⊆ Finset.range n) :
    r.Decided (tfail.restrict S) := by
  have failing := subject.failing
  have size := (failing tfail member).1.size
  by_cases nonempty : S.Nonempty
  · by_cases whole : S = Finset.range n
    · -- the fault in the test case is a proper part
      obtain ⟨M, real, inside, sub⟩ :=
        faulty_univ subject.table (failing.rejected subject.table member)
      refine Or.inr
        ((settled.faulty_iff _).mpr ⟨tfail, member, M.fixed, subject.table.fixes M real, ?_,
        ⟨M, real, inside, Finset.Subset.refl _⟩, ?_⟩)
      · refine sub.ssubset_of_ne fun all => ?_
        have few := subject.narrow M real
        rw [all, Finset.card_range] at few
        omega
      · rw [whole, Comb.restrict_fixed_eq (subject.table.cls M real) inside]
        exact Comb.restrict_contains_iff.mpr ⟨inside, sub⟩
    · exact settled.decided tfail member S (within.ssubset_of_ne whole) nonempty
  · rw [Finset.not_nonempty_iff_eq_empty.mp nonempty]
    obtain ⟨i, bound, alone⟩ := single
    have healthy : ¬ Faulty subject.MFC_real tfail {i} := by
      rintro ⟨M, real, _, sub⟩
      exact alone M real
        ((Finset.Nonempty.subset_singleton_iff (subject.table.fixes M real)).mp sub)
    refine Or.inl
      ((settled.healthy_iff _).mpr ⟨tfail, member, {i}, Finset.singleton_nonempty i, ?_,
      healthy, ?_⟩)
    · refine Finset.ssubset_iff_subset_ne.mpr ⟨by simpa using bound, fun all => healthy ?_⟩
      rw [all]
      exact faulty_univ subject.table (failing.rejected subject.table member)
    · refine Comb.contains_iff.mpr ⟨by simp, fun j known => ?_⟩
      rw [Comb.restrict_fixed, Finset.inter_empty] at known
      exact absurd known (Finset.notMem_empty j)

/-- A new resolver with repeatable runs ends settled. -/
theorem Repeats.settled_run {body : IterOrder Comb → ResolverM Unit} {message : String}
    {Found : Comb → Prop}
    (repeats : Repeats n subject.MFC_real subject.Tfail body
      (NoPendFaultResolver.RecordsSound n subject.MFC_real subject.Tfail)
      (RecordsSettled n subject.MFC_real subject.Tfail) Found)
    (random : Nat → Bool) (order : IterOrder Comb) :
    ∃ after, (conductOnce message (body order)).Runs (subject.resolver random) ⟨⟩ after ∧
      Done subject.MFC_real subject.safeValues subject.Tfail Found after ∧
      RecordsSettled n subject.MFC_real subject.Tfail after := by
  obtain ⟨after, runs, uses, tests, conducted, found, settled⟩ := repeats.runs
    { subject.resolver random with conducted := true } subject.safeValues order ⟨rfl, rfl⟩
      subject.safeFor
    rfl rfl (repeats.start _ rfl rfl)
  exact ⟨after, conductOnce_runs rfl rfl runs, ⟨uses, tests, conducted, found⟩, settled⟩

theorem settling_run {kind : Resolver} (settling : kind ∈ [.noPend, .trt])
    (fits : (Method.resolver kind).Fits n) (narrower : t < n) (random : Nat → Bool)
    {here : Circumstances} (enough : here.Enough n) :
    ∃ after, ((Method.resolver kind).conduct here).Runs (subject.resolver random) ⟨⟩ after ∧
      Done subject.MFC_real subject.safeValues subject.Tfail
        (MinimalFault subject.MFC_real) after ∧
      RecordsSettled n subject.MFC_real subject.Tfail after := by
  cases kind with
  | noPend =>
      obtain ⟨after, runs, done, settled⟩ :=
        Repeats.settled_run subject (NoPendFaultResolver.repeats
          subject.positive subject.table subject.failing enough) random here.order
      exact ⟨after, runs, ⟨done.uses, done.tests, done.conducted,
        fun c => (done.found c).trans subject.contained_iff⟩, settled⟩
  | trt =>
      obtain ⟨after, runs, done, settled⟩ :=
        Repeats.settled_run subject (TRTFaultResolver.repeats
          subject.positive fits subject.table subject.failing (show 2 ^ n + 1 ≤ here.fuel by
            unfold Circumstances.Enough at enough
            omega)) random here.order
      refine ⟨after, runs,
        ⟨done.uses, done.tests, done.conducted, fun c => (done.found c).trans ?_⟩, settled⟩
      refine (and_congr_left fun _ => subject.contained_iff).trans
        (and_iff_left_of_imp fun minimal => ?_)
      rintro ⟨whole, _⟩
      have few := subject.narrow c minimal.1
      rw [whole, Finset.card_range] at few
      omega
  | sofot | fic | ficbs | comFIL | iterAIFL => simp at settling

/-- Once the records are settled, the average proportion is 0 whatever is drawn. -/
theorem average_settled (narrower : t < n)
    (single : ∃ i < n, ∀ M ∈ subject.MFC_real, M.fixed ≠ {i})
    (method : Method) (random : Nat → Bool) {r : AbstractFaultResolver}
    (settled : RecordsSettled n subject.MFC_real subject.Tfail r) :
    ∃ after, FaultLocalization.getPendingCombProportion.Runs
      { subject.experiment method random with faultResolver := r } (some 0) after := by
  have sizes : ∀ tfail ∈ subject.Tfail, tfail.size = n := fun tfail member =>
    (subject.failing tfail member).1.size
  refine average_zero _ subject.Tfail_ne_nil fun tfail member now same => ?_
  simp only [verdicts, Prod.mk.injEq] at same
  obtain ⟨healthy, faulty⟩ := same
  have again : RecordsSettled n subject.MFC_real subject.Tfail now := by
    refine ⟨settled.sound.of_sameRecords ⟨healthy, faulty⟩,
      fun t there S proper nonempty => ?_⟩
    rw [Decided, healthy, faulty]
    exact settled.decided t there S proper nonempty
  have decided : ∀ S ⊆ Finset.range n, now.Decided (tfail.restrict S) := fun S within =>
    RecordsSettled.decided_all subject again narrower single member within
  refine getPendingCombProportion_zero (again.sound.sized sizes) (sizes tfail member) ?_ decided
  rcases decided ∅ (Finset.empty_subset _) with ⟨c, recorded, _⟩ | ⟨c, recorded, _⟩
  · exact Or.inl (List.ne_nil_of_mem recorded)
  · exact Or.inr (List.ne_nil_of_mem recorded)

end Settled

/-- A program run with NoPend or TRT on the files of a subject whose faults leave a parameter open,
where the value of some parameter alone is no fault: it prints a result, the proportion of pending
schemas is 0 for every outcome of the sampling, and the scores are those of an exact list. -/
theorem Main.runExperiment_settled {n t : Nat} (subject : Subject n t) {files : Files}
    {modelPath MFSPath safePath : Cell} (written : subject.InFiles files modelPath MFSPath safePath)
    {name : String} {kind : Resolver} (named : METHOD_MAP name = some (.resolver kind))
    (settling : kind ∈ [.noPend, .trt]) (fits : (Method.resolver kind).Fits n) (narrower : t < n)
    (single : ∃ i < n, ∀ M ∈ subject.MFC_real, M.fixed ≠ {i}) (random : Nat → Bool)
    {here : Circumstances} (enough : here.Enough n) :
    ∃ result, runExperiment files modelPath MFSPath safePath t name random here = .ok result ∧
      result.pendingSchemaProportion = some (some 0) ∧
      (∃ r, result.recall = some r ∧ 0 < r ∧ r ≤ 1 ∧
        (r = 1 ↔ ∀ M ∈ subject.MFC_real, MinimalFault subject.MFC_real M)) ∧
      (∃ p, result.precision = some p ∧ 1 ≤ p ∧
        (p = 1 ↔ ∀ c, MinimalFault subject.MFC_real c → subject.MFC_real.count c = 1)) ∧
      (∃ f, result.f1 = some f ∧ 0 < f) ∧
      result.numAT_avg = some ((result.numAT : Rat) / subject.Tfail.length) := by
  obtain ⟨after, runs, done, settled⟩ :=
    settling_run subject settling fits narrower random enough
  let ended : FaultLocalization :=
    { subject.experiment (.resolver kind) random with faultResolver := after }
  have conducts : (FaultLocalization.conduct here).Runs (subject.experiment (.resolver kind) random)
      ⟨⟩ ended :=
    FaultLocalization.conduct_runs rfl runs
  obtain ⟨final, averages⟩ :=
    average_settled subject narrower single (.resolver kind) random settled
  have list := exactList_of_done subject done here.order
  have some := list.ne_nil
  have divisor : (subject.Tfail.length : Rat) ≠ 0 :=
    Nat.cast_ne_zero.mpr (List.length_pos_iff.mpr subject.Tfail_ne_nil).ne'
  refine ⟨collected here.order subject.Tfail.length ended (.some (.some 0)), ?_, rfl,
    list.recall_eq some, list.precision_eq some, list.f1_eq some, if_neg divisor⟩
  rw [runExperiment, named]
  exact Except.bind_ok.mpr ⟨_, create_eq subject written fits random,
    congrArg (fun ended => IOExn.lift ended.1) (measured_of conducts (pendingOrNull_of averages))⟩

/-- The result for the sample files. -/
theorem Main.runExperiment_settled_sample : ∃ result,
    runExperiment sampleFiles "s-model.csv".toList "s-mfs.csv".toList "s-safe.csv".toList 2 "TRT"
      (fun _ => false) sampleCircumstances = .ok result ∧
    result.pendingSchemaProportion = some (some 0) := by
  obtain ⟨result, runs, none, _⟩ := runExperiment_settled Subject.sample sample_inFiles
    (show METHOD_MAP "TRT" = some (.resolver .trt) from rfl) (by simp)
    (show (4 : Nat) ≤ 30 by decide) (by decide) ⟨0, by decide⟩ (fun _ => false) sample_enough
  exact ⟨result, runs, none⟩

section Ben

variable {n t : Nat}

/-- The recall is 1 where everything real is identified. -/
theorem Measure.recall_eq_one {MFC_real MFC_identified : List Comb} (once : MFC_identified.Nodup)
    (all : ∀ M ∈ MFC_real, M ∈ MFC_identified) :
    Measure.recall MFC_real MFC_identified = some 1 := by
  by_cases nonempty : MFC_real = []
  · rw [nonempty]
    rfl
  · have divisor : (MFC_real.toFinset.card : Rat) ≠ 0 :=
      Nat.cast_ne_zero.mpr (Measure.card_pos nonempty).ne'
    have part : MFC_real.toFinset ⊆ MFC_identified.toFinset := by
      intro M member
      rw [List.mem_toFinset] at member ⊢
      exact all M member
    have share := (Measure.share_eq_iff nonempty).mpr fun comb (_ : comb ∈ MFC_real) =>
      List.nodup_iff_count_le_one.mp once comb
    rw [Measure.recall, share, Finset.inter_eq_left.mpr part, div_self divisor]

/-- BEN misses nothing: whatever it computes and draws, when `conduct` returns the recall is 1. -/
theorem FaultLocalization.ben_recall (subject : Subject n t) {files : Files}
    {modelPath MFSPath safePath : Cell} (written : subject.InFiles files modelPath MFSPath safePath)
    (high : t ≤ n) (random : Nat → Bool) :
    ∃ experiment, create files modelPath MFSPath safePath t .ben random = .ok experiment ∧
      ∀ here after, (conduct here).Runs experiment ⟨⟩ after →
        ∀ order, after.getRecall order = some 1 := by
  refine ⟨_, create_eq subject written (show Method.ben.Fits n from trivial) random,
    fun here after runs order => ?_⟩
  have first : (onResolver (Method.ben.conduct here)).Runs (subject.experiment .ben random)
      ⟨⟩ after := runs
  obtain ⟨middle, called, same⟩ := onResolver_of_runs first
  have ended := BenFaultResolver.conduct_ends rfl rfl called
  have found : ∀ M ∈ subject.MFC_real, M ∈ middle.MFC_identified := by
    intro M member
    obtain ⟨u, listed, inside⟩ := subject.reached member
    exact ended.finds high rfl (fun p there => (subject.passing p there).2) member
      (subject.table.cls M member) (subject.table.fixes M member) (subject.narrow M member) listed
      (subject.failing u listed).1 inside
  rw [same]
  exact Measure.recall_eq_one ((order.perm _).nodup_iff.mpr middle.MFC_identified.nodup)
    fun M member => order.mem_walk.mpr (found M member)

/-- BEN on the sample files. -/
theorem FaultLocalization.ben_recall_sample : ∃ experiment after,
    create sampleFiles "s-model.csv".toList "s-mfs.csv".toList "s-safe.csv".toList 2 .ben
      (fun _ => false) = .ok experiment ∧
    (conduct sampleCircumstances).Runs experiment ⟨⟩ after ∧
    after.getRecall .insertion = some 1 := by
  obtain ⟨experiment, created, recalled⟩ :=
    ben_recall Subject.sample sample_inFiles (by decide) fun _ => false
  have same := created.symm.trans (create_eq Subject.sample sample_inFiles
    (show Method.ben.Fits 4 from trivial) fun _ => false)
  obtain ⟨_, runs⟩ := Runs.of_isOk (by decide +kernel : ((conduct sampleCircumstances).exec
    (Subject.sample.experiment .ben fun _ => false)).1.isOk = true)
  rw [← Except.ok.inj same] at runs
  exact ⟨experiment, _, created, runs, recalled _ _ runs _⟩

end Ben

end NoPend
