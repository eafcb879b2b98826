import NoPend.FaultResolver.Candidates
import NoPend.FaultResolver.Padding

set_option autoImplicit false

namespace NoPend

open AbstractFaultResolver Proc

namespace ComFILFaultResolver

/-- The body of the loop over the copy of the candidate set. -/
def decideOne (candidateSet : HashSet Comb) (comb : Comb) : ResolverM (HashSet Comb) := do
  if !candidateSet.contains comb then return candidateSet
  if ← check_with_safevalues_at_random comb then removeParts comb candidateSet
  else removeSupersets comb candidateSet

/-- `conduct_with_safevalues`. The copy is walked in the given order. -/
def conduct_with_safevalues (combination : Combination) (order : IterOrder Comb) :
    ResolverM Unit := do
  let r ← get
  let candidateSet ← candidates combination r.Tpass r.Tfail
  let candidateSet ← (order.walk candidateSet.toList).foldlM decideOne candidateSet
  modify (identified · candidateSet.toList)

def conduct (combination : Combination) (order : IterOrder Comb) : ResolverM Unit :=
  conductOnce "Safe values not set" (conduct_with_safevalues combination order)

variable {n : Nat} {MFC_real : List Comb} {safe : Comb} {r : AbstractFaultResolver}

/-- What a present candidate removes: with a healthy one its parts, with a faulty one what
properly contains it. -/
def drops (MFC_real : List Comb) : Comb → Comb → Prop :=
  Sweep.Drops (fun c d => d.Contains c) fun c => accepts MFC_real c = false

/-- One round of the loop is one step of a walk along the set. -/
theorem decideOne_settles (binary : ∀ M ∈ MFC_real, M.Over n)
    (safeFor : SafeFor n MFC_real safe)
    (ready : r.Ready n (accepts MFC_real) safe) {candidateSet : HashSet Comb}
    (sizes : ∀ c ∈ candidateSet, c.size = n) {comb : Comb} (valid : comb.Valid n) :
    ∃ next, Settles (SameConfig r) (decideOne candidateSet comb) next ∧
      {c | c ∈ next} = Sweep.step (drops MFC_real) {c | c ∈ candidateSet} comb := by
  have checked := check_at_random_settles binary safeFor ready valid
  unfold decideOne
  by_cases there : comb ∈ candidateSet
  · have present : ¬ (!candidateSet.contains comb) = true := by simp [HashSet.contains, there]
    simp only [if_neg present]
    cases verdict : accepts MFC_real comb with
    | true =>
        rw [verdict] at checked
        obtain ⟨next, removed, mem⟩ := removeParts_ok valid.size sizes
        refine ⟨next, checked.bind (Settles.of_ok removed), ?_⟩
        ext c
        simp [Sweep.step, drops, Sweep.Drops, mem c, there, verdict]
    | false =>
        rw [verdict] at checked
        obtain ⟨next, removed, mem⟩ := removeSupersets_ok valid.size sizes
        refine ⟨next, checked.bind (Settles.of_ok removed), ?_⟩
        ext c
        simp [Sweep.step, drops, Sweep.Drops, mem c, there, verdict, eq_comm]
  · have absent : (!candidateSet.contains comb) = true := by simp [HashSet.contains, there]
    simp only [if_pos absent]
    refine ⟨candidateSet, Settles.ret _, ?_⟩
    ext c
    simp [Sweep.step, there]

theorem decideAll_settles (binary : ∀ M ∈ MFC_real, M.Over n)
    (safeFor : SafeFor n MFC_real safe)
    (ready : r.Ready n (accepts MFC_real) safe) {candidateSet : HashSet Comb}
    (sizes : ∀ c ∈ candidateSet, c.size = n) (items : List Comb)
    (valid : ∀ c ∈ items, c.Valid n) :
    ∃ final, Settles (SameConfig r) (items.foldlM decideOne candidateSet) final ∧
      {c | c ∈ final} = Sweep.run (drops MFC_real) {c | c ∈ candidateSet} items := by
  induction items generalizing candidateSet with
  | nil => exact ⟨candidateSet, Settles.ret _, rfl⟩
  | cons comb rest ih =>
      obtain ⟨next, first, stepped⟩ :=
        decideOne_settles binary safeFor ready sizes (valid comb (by simp))
      have fewer : ∀ c ∈ next, c ∈ candidateSet := by
        intro c member
        have inStep : c ∈ Sweep.step (drops MFC_real) {c | c ∈ candidateSet} comb :=
          stepped ▸ member
        exact inStep.1
      obtain ⟨final, later, walked⟩ := ih (fun c member => sizes c (fewer c member))
        fun c member => valid c (List.mem_cons_of_mem _ member)
      refine ⟨final, ?_, ?_⟩
      · rw [List.foldlM_cons]
        exact first.bind later
      · rw [walked, stepped]
        rfl

/-- The minimal faulty candidates are the minimal combinations of the failing test cases. -/
theorem minimal_candidate_iff (table : FaultTable n MFC_real) {Tpass Tfail : List Testcase}
    (passing : ∀ t ∈ Tpass, accepts MFC_real t = true) {c : Comb} :
    (Candidate Tpass Tfail c ∧ accepts MFC_real c = false ∧
        ∀ d, Candidate Tpass Tfail d → accepts MFC_real d = false →
          c.Contains d → d = c) ↔
      MinimalFault MFC_real c ∧ ∃ t ∈ Tfail, t.Contains c := by
  have candidate : ∀ M ∈ MFC_real,
      (∃ t ∈ Tfail, t.Contains M) → Candidate Tpass Tfail M := by
    intro M member contained
    refine ⟨table.cls M member, table.fixes M member, contained, fun t inTpass inside => ?_⟩
    have pass := passing t inTpass
    simp only [accepts, decide_eq_true_eq] at pass
    exact pass M member inside
  have faulty : ∀ d, accepts MFC_real d = false ↔ ∃ M ∈ MFC_real, d.Contains M := by
    intro d
    simp [accepts]
  constructor
  · rintro ⟨⟨cls, _, ⟨t, inTfail, inside⟩, _⟩, fails, minimal⟩
    obtain ⟨M, member, insideM⟩ := (faulty c).mp fails
    have only : ∀ d ∈ MFC_real, c.Contains d → d = c := fun d inReal insideD =>
      minimal d (candidate d inReal ⟨t, inTfail, inside.trans insideD⟩)
        ((faulty d).mpr ⟨d, inReal, Comb.Contains.refl d⟩) insideD
    refine ⟨⟨only M member insideM ▸ member, fun d inReal => ?_⟩, t, inTfail, inside⟩
    rintro ⟨insideD, proper⟩
    rw [only d inReal insideD] at proper
    exact proper (Comb.Contains.refl c)
  · rintro ⟨⟨member, minimal⟩, t, inTfail, inside⟩
    refine ⟨candidate c member ⟨t, inTfail, inside⟩,
      (faulty c).mpr ⟨c, member, Comb.Contains.refl c⟩, fun d candidateD failsD insideD => ?_⟩
    obtain ⟨M, inReal, insideM⟩ := (faulty d).mp failsD
    have back : M.Contains c := by
      by_contra proper
      exact minimal M inReal ⟨insideD.trans insideM, proper⟩
    exact Comb.Contains.antisymm (candidateD.1.trans (table.cls c member).symm)
      (insideM.trans back) insideD

/-- A `conduct` that has not been called adds the minimal combinations of the failing test cases,
whatever the order in which the candidates are walked. -/
theorem conduct_settles (small : ∀ k, n.choose k < 2 ^ 31) (table : FaultTable n MFC_real)
    (safeFor : SafeFor n MFC_real safe)
    (passing : ∀ t ∈ r.Tpass, t.Binary n ∧ Checker.judge MFC_real t = .ok true)
    (failing : Failing n MFC_real r.Tfail) (uses : Uses MFC_real safe r)
    (first : r.conducted = false) (combination : Combination) (order : IterOrder Comb) :
    ∃ middle combs, (conduct combination order).Runs r ⟨⟩ (identified middle combs) ∧
      SameConfig { r with conducted := true } middle ∧
      ∀ c, c ∈ combs ↔ MinimalFault MFC_real c ∧ ∃ t ∈ r.Tfail, t.Contains c := by
  have ready : ({ r with conducted := true } : AbstractFaultResolver).Ready n (accepts MFC_real)
      safe := Uses.ready ⟨uses.1, uses.2⟩ table.binary safeFor
  have binary : ∀ t ∈ r.Tfail, t.Binary n := fun t member => (failing t member).1
  have pass : ∀ t ∈ r.Tpass, accepts MFC_real t = true := by
    intro t member
    obtain ⟨wf, judged⟩ := passing t member
    rw [judge_accepts table.binary wf.size] at judged
    exact Except.ok.inj judged
  obtain ⟨set, listed, mem⟩ := candidates_ok combination small
    (fun t member => (passing t member).1.size) binary
  have wf : ∀ c ∈ set, c.Over n := fun c member => ((mem c).mp member).over binary
  obtain ⟨final, settles, walked⟩ := decideAll_settles table.binary safeFor ready
    (fun c member => (wf c member).size) (order.walk set.toList)
    fun c member => (wf c (order.mem_walk.mp member)).valid
  obtain ⟨middle, runs, same⟩ := settles _ (SameConfig.refl _)
  refine ⟨middle, final.toList, conductOnce_runs first (by rw [uses.2]; rfl)
    ((Runs.get _).bind ((Runs.of_ok listed _).bind (runs.bind (Runs.modify _ _)))), same,
    fun c => ?_⟩
  have left : c ∈ final ↔
      c ∈ Sweep.run (drops MFC_real) {c | c ∈ set} (order.walk set.toList) := by
    rw [← walked]
    rfl
  rw [← minimal_candidate_iff table pass, HashSet.mem_toList, left, drops,
    mem_walk_iff (fun c member => ((mem c).mp member).1) _
    (fun c d larger => accepts_mono larger) order]
  simp only [mem]

/-- Whatever the order in which the candidates are walked and whatever the random draws,
`conduct` identifies exactly the minimal combinations of the failing test cases. -/
theorem conduct_exact_any_order (small : ∀ k, n.choose k < 2 ^ 31) (table : FaultTable n MFC_real)
    (safeFor : SafeFor n MFC_real safe) {Tpass Tfail : List Testcase}
    (passing : ∀ t ∈ Tpass, t.Binary n ∧ Checker.judge MFC_real t = .ok true)
    (failing : Failing n MFC_real Tfail) {random : Nat → Bool}
    (created : fresh (Checker.ofMFS MFC_real) Tpass Tfail safe random = .ok r)
    (combination : Combination) (order : IterOrder Comb) :
    ∃ after, (conduct combination order).Runs r ⟨⟩ after ∧
      ∀ c, c ∈ after.MFC_identified ↔ MinimalFault MFC_real c ∧ ∃ t ∈ Tfail,
        t.Contains c := by
  obtain ⟨_, rfl⟩ := fresh_ok created
  obtain ⟨middle, combs, runs, same, found⟩ := conduct_settles
    (r := ⟨Tpass, Tfail, Checker.ofMFS MFC_real, [], [], some safe, .empty, false, 0, random⟩)
    small table safeFor passing failing ⟨rfl, rfl⟩ rfl combination order
  refine ⟨_, runs, fun c => ?_⟩
  rw [mem_identified, same.MFC_identified, found]
  exact or_iff_right (HashSet.notMem_empty c)

/-- Overlapping faults, a parameter without safe value, and a passing test case. -/
theorem conduct_exact_any_order_overlapping : ∃ r after,
    fresh (Checker.ofMFS [⟨.comb, [1, 1, -1]⟩, ⟨.comb, [1, 1, -1]⟩])
      [⟨.testcase, [0, 1, 1]⟩]
      [⟨.testcase, [1, 1, 1]⟩] ⟨.comb, [0, 0, -1]⟩ (fun k => k == 1) = .ok r ∧
    (conduct .sublists .insertion).Runs r ⟨⟩ after ∧
    ⟨.comb, [1, 1, -1]⟩ ∈ after.MFC_identified ∧
    ⟨.comb, [1, 1, 1]⟩ ∉ after.MFC_identified := by
  have created : fresh (Checker.ofMFS [⟨.comb, [1, 1, -1]⟩, ⟨.comb, [1, 1, -1]⟩])
    [⟨.testcase, [0, 1, 1]⟩] [⟨.testcase, [1, 1, 1]⟩] ⟨.comb, [0, 0, -1]⟩
      (fun k => k == 1) =
      .ok _ := rfl
  obtain ⟨after, runs, same⟩ := conduct_exact_any_order (n := 3)
    (fun k => lt_of_le_of_lt (Nat.choose_le_two_pow 3 k) (by decide)) (by decide) (by decide)
    (by decide) (by decide) created .sublists .insertion
  exact ⟨_, after, created, runs, (same _).mpr (by decide), fun member =>
    absurd ((same _).mp member) (by decide)⟩

end ComFILFaultResolver

end NoPend
