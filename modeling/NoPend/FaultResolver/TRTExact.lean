import NoPend.FaultResolver.TRTLoop
import NoPend.FaultResolver.NoPendExact

set_option autoImplicit false

/- What `TRT` identifies. From six parameters on, the flag of the whole test case is stale
when `getMFS` starts, and a fault as large as the test case is lost. -/
namespace NoPend

open Antichain SetFamily AbstractFaultResolver TRT

namespace TRTFaultResolver

variable {n : Nat} {MFC_real : List Comb} {safe : Comb} {tfail : Testcase}
  {r : AbstractFaultResolver}

/-- What remains of the minimal faulty sets when the whole test case may be lost. -/
theorem least_without_whole {bad : Finset Nat → Prop} (S : Finset Nat) :
    Least (· ⊆ ·)
      (fun S => (S ⊆ Finset.range n ∧ bad S) ∧ ¬ (S = Finset.range n ∧ 6 ≤ n)) S ↔
      Least (· ⊆ ·) (fun S => S ⊆ Finset.range n ∧ bad S) S ∧
      ¬ (S = Finset.range n ∧ 6 ≤ n) := by
  constructor
  · rintro ⟨⟨⟨within, isBad⟩, kept⟩, least⟩
    refine ⟨⟨⟨within, isBad⟩, fun T member below => least T ⟨member, ?_⟩ below⟩,
      kept⟩
    rintro ⟨rfl, large⟩
    exact kept ⟨Finset.Subset.antisymm within below, large⟩
  · rintro ⟨⟨member, least⟩, kept⟩
    exact ⟨⟨member, kept⟩, fun T inside below => least T inside.1 below⟩

/-- The marks of a fully marked table are the faults. -/
theorem faulty_marks_iff (table : FaultTable n MFC_real) (safeFor : SafeFor n MFC_real safe)
    (size : tfail.size = n) (failing : accepts MFC_real tfail = false) {start trt : TRT}
    (marked : MarkedFrom n (accepts MFC_real) safe tfail start trt)
    (healthyStart : marks n start.healthy = {∅})
    (faultyStart : marks n start.faulty = {Finset.range n})
    (all : ∀ S, ¬ Unmarked n trt S) (S : Finset Nat) :
    S ∈ marks n trt.faulty ↔ S ⊆ Finset.range n ∧ Faulty MFC_real tfail S := by
  have verdict : ∀ T,
      passes (accepts MFC_real) safe tfail T = false ↔ Faulty MFC_real tfail T := by
    intro T
    rw [← not_iff_not, ← passes_iff table safeFor size]
    simp
  have iff : S ⊆ Finset.range n → (S ∈ marks n trt.faulty ↔ Faulty MFC_real tfail S) := by
    intro within
    rw [← verdict]
    refine (marked.marks_iff healthyStart faultyStart all (fun A B sub _ fails => ?_)
      ?_ ?_ within).1
    · exact (verdict B).mpr (((verdict A).mp fails).mono sub)
    · exact (verdict _).mpr (faulty_univ table failing)
    · exact (passes_iff table safeFor size).mpr (not_faulty_empty table)
  constructor
  · intro member
    have within := (mem_marks.mp member).1
    exact ⟨within, (iff within).mp member⟩
  · rintro ⟨within, isFaulty⟩
    exact (iff within).mpr isFaulty

/-- The body of the loop over `Tfail`. -/
theorem conductOne_runs (positive : 0 < n) (small : n ≤ 30) (table : FaultTable n MFC_real)
    (safeFor : SafeFor n MFC_real safe) (binary : tfail.Binary n)
    (failing : accepts MFC_real tfail = false) (ready : r.Ready n (accepts MFC_real) safe)
    {fuel : Nat} (enough : 2 ^ n + 1 ≤ fuel) :
    ∃ (faults : List (Finset Nat)) (parts : List (Finset Nat)),
      (conductOne fuel tfail).Runs r ⟨⟩
        (identified (probes (accepts MFC_real) safe tfail r parts) (faults.map tfail.restrict)) ∧
      (∀ S, S ∈ faults ↔
        MinimalFaulty n MFC_real tfail S ∧ ¬ (S = Finset.range n ∧ 6 ≤ n)) ∧
      (∀ S ∈ parts, S.Nonempty ∧ S ⊂ Finset.range n) ∧
      ∀ S ⊂ Finset.range n, S.Nonempty →
        (∃ M ∈ parts, S ⊆ M ∧ passes (accepts MFC_real) safe tfail M = true) ∨
          ∃ M ∈ parts, M ⊆ S ∧ passes (accepts MFC_real) safe tfail M = false := by
  obtain ⟨start, created, wf, healthyStart, faultyStart⟩ := new_eq positive small
  obtain ⟨trt, parts, runs, marked, all, visited, probed⟩ := markAll_runs ready binary wf enough
  obtain ⟨b, found, faults, asked, _, holds, mem⟩ := getMFS_eq marked.wf
  refine ⟨faults, parts, ?_, fun S => ?_, fun S member => ?_, fun S within nonempty => ?_⟩
  · have added := addIdentified_runs (r := probes (accepts MFC_real) safe tfail r parts) binary
      found.schemas holds.wf
    have same : found.schemas.map (fun s => tfail.restrict s.bits) = faults.map tfail.restrict := by
      rw [← holds.bits, List.map_map]
      rfl
    rw [same] at added
    rw [conductOne, binary.size]
    exact (Proc.Runs.of_ok created r).bind (runs.bind ((Proc.Runs.of_ok asked _).bind added))
  · rw [mem, MinimalFaulty, ← least_without_whole]
    apply Least.congr
    intro T
    rw [faulty_marks_iff table safeFor binary.size failing marked healthyStart faultyStart all]
    simp [visited]
  · obtain ⟨within, notHealthy, notFaulty⟩ := probed.unmarked S member
    rw [healthyStart, Finset.mem_singleton] at notHealthy
    rw [faultyStart, Finset.mem_singleton] at notFaulty
    exact ⟨Finset.nonempty_iff_ne_empty.mpr notHealthy, lt_of_le_of_ne within notFaulty⟩
  · have marked' : S ∈ marks n trt.healthy ∨ S ∈ marks n trt.faulty := by
      by_contra neither
      exact all S ⟨within.subset, not_or.mp neither⟩
    rcases marked' with healthy | faulty
    · refine (probed.healthyFrom S healthy).elim (fun old => ?_) Or.inl
      rw [healthyStart, Finset.mem_singleton] at old
      exact absurd old nonempty.ne_empty
    · refine (probed.faultyFrom S faulty).elim (fun old => ?_) Or.inr
      rw [faultyStart, Finset.mem_singleton] at old
      exact absurd old within.ne

/-- `MFC_identified` after the test cases in `done`: a fault on all of six or more
parameters is missing. -/
def Identified (n : Nat) (MFC_real : List Comb) (done : List Testcase)
    (r : AbstractFaultResolver) : Prop :=
  ∀ c, c ∈ r.MFC_identified ↔ (MinimalFault MFC_real c ∧ ∃ t ∈ done, t.Contains c) ∧
    ¬ (c.fixed = Finset.range n ∧ 6 ≤ n)

theorem identified_step (table : FaultTable n MFC_real) (binary : tfail.Binary n)
    {done : List Testcase} (before : Identified n MFC_real done r) {faults : List (Finset Nat)}
    (mem : ∀ S, S ∈ faults ↔
      MinimalFaulty n MFC_real tfail S ∧ ¬ (S = Finset.range n ∧ 6 ≤ n))
    (parts : List (Finset Nat)) :
    Identified n MFC_real (done ++ [tfail])
      (identified (probes (accepts MFC_real) safe tfail r parts) (faults.map tfail.restrict)) := by
  intro c
  have here : c ∈ faults.map tfail.restrict ↔
      (MinimalFault MFC_real c ∧ tfail.Contains c) ∧
        ¬ (c.fixed = Finset.range n ∧ 6 ≤ n) := by
    rw [← exists_minimalFaulty_restrict_iff table binary.size, List.mem_map]
    constructor
    · rintro ⟨S, member, rfl⟩
      obtain ⟨minimal, kept⟩ := (mem S).mp member
      rw [binary.restrict_fixed minimal.1.1]
      exact ⟨⟨S, minimal, rfl⟩, kept⟩
    · rintro ⟨⟨S, minimal, rfl⟩, kept⟩
      rw [binary.restrict_fixed minimal.1.1] at kept
      exact ⟨S, (mem S).mpr ⟨minimal, kept⟩, rfl⟩
  rw [mem_identified, (probes_sameConfig parts).MFC_identified, before c, here, ← or_and_right,
    ← and_or_left]
  simp only [List.mem_append, List.mem_singleton, or_and_right, exists_or, exists_eq_left]

/-- A constructor call that returns got a test case whose schemas a `BitSet` can index. -/
theorem create_base {checker : Checker} {Tpass Tfail : List Testcase} {random : Nat → Bool}
    (created : create checker Tpass Tfail random = .ok r) :
    AbstractFaultResolver.create checker Tpass Tfail random = .ok r ∧
      ∃ first rest, Tfail = first :: rest ∧ 2 ^ first.size ≤ TRT.MAX_VALUE := by
  unfold create at created
  cases built : AbstractFaultResolver.create checker Tpass Tfail random with
  | error reason =>
      rw [built] at created
      cases created
  | ok base =>
      rw [built] at created
      cases Tfail with
      | nil => cases created
      | cons first rest =>
          by_cases large : 2 ^ first.size > TRT.MAX_VALUE
          · simp [large, bind, Except.bind, throw, throwThe, MonadExceptOf.throw] at created
          · have same : base = r := by simpa [large, bind, Except.bind, pure,
              Except.pure] using created
            exact ⟨congrArg Except.ok same, first, rest, rfl, by omega⟩

theorem create_ok {checker : Checker} {Tpass Tfail : List Testcase} {random : Nat → Bool}
    (created : fresh checker Tpass Tfail safe random = .ok r) :
    AbstractFaultResolver.fresh checker Tpass Tfail safe random = .ok r := by
  obtain ⟨base, built, rest⟩ := Except.bind_ok.mp created
  unfold AbstractFaultResolver.fresh
  rw [(create_base built).1]
  exact rest

/-- The set that `conduct` identifies. -/
theorem conduct_identifies_without_whole (positive : 0 < n) (small : n ≤ 30)
    (table : FaultTable n MFC_real) (safeFor : SafeFor n MFC_real safe)
    {Tpass Tfail : List Testcase} (failing : Failing n MFC_real Tfail) {random : Nat → Bool}
    (created : fresh (Checker.ofMFS MFC_real) Tpass Tfail safe random = .ok r)
    {fuel : Nat} (enough : 2 ^ n + 1 ≤ fuel) :
    ∃ after, (conduct fuel).Runs r ⟨⟩ after ∧ Identified n MFC_real Tfail after := by
  have ready : (started (Checker.judge MFC_real) Tpass Tfail safe random).Ready n
      (accepts MFC_real) safe :=
    started_ready safeFor.valid fun t size => judge_accepts table.binary size
  obtain ⟨after, runs, _, identified⟩ := Proc.forM_runs (conductOne fuel)
    (fun done s => s.Ready n (accepts MFC_real) safe ∧ Identified n MFC_real done s) Tfail
    (by
      rintro done tfail rest s rfl ⟨ready', before⟩
      have member : tfail ∈ done ++ tfail :: rest := by simp
      obtain ⟨binary, _⟩ := failing tfail member
      obtain ⟨faults, parts, runs, mem, _⟩ :=
        conductOne_runs positive small table safeFor binary
          (failing.rejected table member) ready' enough
      have readyProbes := ready'.probes tfail parts
      exact ⟨_, runs, ⟨readyProbes.safeValues, readyProbes.valid, readyProbes.answers⟩,
        identified_step table binary before mem parts⟩)
    (started (Checker.judge MFC_real) Tpass Tfail safe random)
    ⟨ready, fun c =>
      ⟨fun member => absurd member (HashSet.notMem_empty c), fun none => by simp at none⟩⟩
  refine ⟨after, ?_, identified⟩
  obtain ⟨_, rfl⟩ := fresh_ok (create_ok created)
  exact conductOnce_runs rfl rfl ((Proc.Runs.get _).bind runs)

/-- `TRT` is exact, and agrees with `NoPend`, exactly when there are at most five parameters
or no failing test case is itself a minimal combination. -/
theorem conduct_exact_iff (positive : 0 < n) (small : n ≤ 30) (table : FaultTable n MFC_real)
    (safeFor : SafeFor n MFC_real safe) {Tpass Tfail : List Testcase}
    (failing : Failing n MFC_real Tfail) {random : Nat → Bool}
    (created : fresh (Checker.ofMFS MFC_real) Tpass Tfail safe random = .ok r)
    (order : IterOrder Comb) {fuel : Nat} (enough : 2 ^ n + 2 ≤ fuel) :
    ∃ after afterNoPend, (conduct fuel).Runs r ⟨⟩ after ∧
      (NoPendFaultResolver.conduct fuel order).Runs r ⟨⟩ afterNoPend ∧
      (((∀ c, c ∈ after.MFC_identified ↔ MinimalFault MFC_real c ∧ ∃ t ∈ Tfail,
        t.Contains c) ∧
          ∀ c, c ∈ after.MFC_identified ↔ c ∈ afterNoPend.MFC_identified) ↔
        n ≤ 5 ∨ ∀ t ∈ Tfail, ∀ M, MinimalFault MFC_real M → t.Contains M →
          M.fixed ≠ Finset.range n) := by
  obtain ⟨after, runs, identified⟩ :=
    conduct_identifies_without_whole positive small table safeFor
      failing created (by omega : 2 ^ n + 1 ≤ fuel)
  obtain ⟨afterNoPend, runsNoPend, exactNoPend⟩ :=
    NoPendFaultResolver.conduct_identifies positive
      table safeFor failing (create_ok created) order enough
  refine ⟨after, afterNoPend, runs, runsNoPend, ?_, ?_⟩
  · rintro ⟨exact', _⟩
    by_contra neither
    push Not at neither
    obtain ⟨large, t, member, M, minimal, inside, whole⟩ := neither
    have known := (exact' M).mpr ⟨minimal, t, member, inside⟩
    exact ((identified M).mp known).2 ⟨whole, by omega⟩
  · intro condition
    have exact' : ∀ c, c ∈ after.MFC_identified ↔
        MinimalFault MFC_real c ∧ ∃ t ∈ Tfail, t.Contains c := by
      intro c
      rw [identified c, and_iff_left_iff_imp]
      rintro ⟨minimal, t, member, inside⟩ ⟨whole, large⟩
      rcases condition with few | notWhole
      · omega
      · exact notWhole t member c minimal inside whole
    exact ⟨exact', fun c => (exact' c).trans (exactNoPend c).symm⟩

/-- Three parameters and a fault on all of them, which is still found. -/
theorem conduct_exact_iff_three : ∃ r after,
    fresh (Checker.ofMFS [⟨.comb, [1, 1, 1]⟩]) []
      [⟨.testcase, [1, 1, 1]⟩] ⟨.comb, [0, 0, 0]⟩ (fun _ => false) = .ok r ∧
    (conduct 10).Runs r ⟨⟩ after ∧ ⟨.comb, [1, 1, 1]⟩ ∈ after.MFC_identified := by
  have created : fresh (Checker.ofMFS [⟨.comb, [1, 1, 1]⟩]) [] [⟨.testcase, [1, 1, 1]⟩]
    ⟨.comb, [0, 0, 0]⟩ (fun _ => false) = .ok _ := rfl
  obtain ⟨after, _, runs, _, same⟩ :=
    conduct_exact_iff (n := 3) (by decide) (by decide) (by decide)
      (by decide) (by decide) created .insertion (show 2 ^ 3 + 2 ≤ 10 by decide)
  exact ⟨_, after, created, runs, ((same.mpr (Or.inl (by decide))).1 _).mpr (by decide)⟩

/-- Six parameters and a fault on all of them, which is lost. -/
theorem conduct_loses_whole : ∃ r,
    fresh (Checker.ofMFS [⟨.comb, [1, 1, 1, 1, 1, 1]⟩]) [] [⟨.testcase, [1, 1, 1, 1, 1, 1]⟩]
      ⟨.comb, [0, 0, 0, 0, 0, 0]⟩ (fun _ => false) = .ok r ∧
    FaultTable 6 [⟨.comb, [1, 1, 1, 1, 1, 1]⟩] ∧
    SafeFor 6 [⟨.comb, [1, 1, 1, 1, 1, 1]⟩] ⟨.comb, [0, 0, 0, 0, 0, 0]⟩ ∧
    Failing 6 [⟨.comb, [1, 1, 1, 1, 1, 1]⟩] [⟨.testcase, [1, 1, 1, 1, 1, 1]⟩] ∧
    ∀ order fuel, 66 ≤ fuel → ∃ after afterNoPend, (conduct fuel).Runs r ⟨⟩ after ∧
      (NoPendFaultResolver.conduct fuel order).Runs r ⟨⟩ afterNoPend ∧
      (∀ c, c ∉ after.MFC_identified) ∧
      ⟨.comb, [1, 1, 1, 1, 1, 1]⟩ ∈ afterNoPend.MFC_identified ∧
      MinimalFault [⟨.comb, [1, 1, 1, 1, 1, 1]⟩] ⟨.comb, [1, 1, 1, 1, 1, 1]⟩ := by
  have table : FaultTable 6 [⟨.comb, [1, 1, 1, 1, 1, 1]⟩] := by decide
  have safeFor : SafeFor 6 [⟨.comb, [1, 1, 1, 1, 1, 1]⟩]
      ⟨.comb, [0, 0, 0, 0, 0, 0]⟩ := by decide
  have failing : Failing 6 [⟨.comb, [1, 1, 1, 1, 1, 1]⟩]
      [⟨.testcase, [1, 1, 1, 1, 1, 1]⟩] := by
    decide
  have created : fresh (Checker.ofMFS [⟨.comb, [1, 1, 1, 1, 1, 1]⟩]) []
    [⟨.testcase, [1, 1, 1, 1, 1, 1]⟩] ⟨.comb, [0, 0, 0, 0, 0, 0]⟩ (fun _ => false) =
      .ok _ := rfl
  refine ⟨_, created, table, safeFor, failing, fun order fuel enough => ?_⟩
  obtain ⟨after, runs, identified⟩ :=
    conduct_identifies_without_whole (by decide) (by decide) table
      safeFor failing created (by omega : 2 ^ 6 + 1 ≤ fuel)
  obtain ⟨afterNoPend, runsNoPend, exactNoPend⟩ :=
    NoPendFaultResolver.conduct_identifies (by decide)
      table safeFor failing (create_ok created) order (by omega : 2 ^ 6 + 2 ≤ fuel)
  refine ⟨after, afterNoPend, runs, runsNoPend, fun c known => ?_,
    (exactNoPend _).mpr (by decide),
    by decide⟩
  obtain ⟨⟨minimal, _⟩, kept⟩ := (identified c).mp known
  rw [List.mem_singleton.mp minimal.1] at kept
  exact kept (by decide)

end TRTFaultResolver

end NoPend
