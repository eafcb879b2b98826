import NoPend.FaultResolver.LifeCycleExact

set_option autoImplicit false

/- What each resolver identifies when `conduct` is called on an object that has no result yet,
whatever was recorded on it before. -/
namespace NoPend

open Antichain AbstractFaultResolver Proc

variable {n : Nat} {MFC_real : List Comb} {safe : Comb} {Tpass Tfail : List Testcase}

/-- An object between its construction or a `reset` and the next `conduct`. -/
structure Waiting (MFC_real : List Comb) (safe : Comb) (Tfail : List Testcase)
    (r : AbstractFaultResolver) : Prop where
  uses : Uses MFC_real safe r
  tests : r.Tfail = Tfail
  conducted : r.conducted = false
  nothing : r.MFC_identified = HashSet.empty

/-- An object on which `conduct` has returned. -/
structure Done (MFC_real : List Comb) (safe : Comb) (Tfail : List Testcase) (Found : Comb → Prop)
    (r : AbstractFaultResolver) : Prop where
  uses : Uses MFC_real safe r
  tests : r.Tfail = Tfail
  conducted : r.conducted = true
  found : ∀ c, c ∈ r.MFC_identified ↔ Found c

/-- Every `conduct` on a waiting object returns and identifies `Found`. `Good` is what the
resolver needs of the records of earlier runs, and of `Tpass`. -/
structure Finds (MFC_real : List Comb) (safe : Comb) (Tpass Tfail : List Testcase)
    (conduct : ResolverM Unit) (Good : AbstractFaultResolver → Prop) (Found : Comb → Prop) :
    Prop where
  start : ∀ r, r.healthyCombs = [] → r.faultyCombs = [] → r.Tpass = Tpass → Good r
  keep : ∀ r r', SameRecords r r' → r'.Tpass = r.Tpass → Good r → Good r'
  again : ∀ r, r.conducted = true → conduct.Runs r ⟨⟩ r
  runs : ∀ r, Waiting MFC_real safe Tfail r → Good r →
    ∃ after, conduct.Runs r ⟨⟩ after ∧ Done MFC_real safe Tfail Found after ∧ Good after

theorem Waiting.reset {r : AbstractFaultResolver} (uses : Uses MFC_real safe r)
    (tests : r.Tfail = Tfail) :
    Waiting MFC_real safe Tfail r.reset :=
  ⟨uses, tests, rfl, rfl⟩

theorem Finds.congr {conduct : ResolverM Unit} {Good : AbstractFaultResolver → Prop}
    {Found Found' : Comb → Prop}
    (finds : Finds MFC_real safe Tpass Tfail conduct Good Found)
    (same : ∀ c, Found c ↔ Found' c) :
    Finds MFC_real safe Tpass Tfail conduct Good Found' := by
  obtain rfl : Found = Found' := funext fun c => propext (same c)
  exact finds

section Rules

variable {message : String} {conduct_with_safevalues : ResolverM Unit} {Found : Comb → Prop}

/-- A run that can be repeated is one of a resolver that finds. -/
theorem Repeats.finds {body : IterOrder Comb → ResolverM Unit}
    {Early Late : AbstractFaultResolver → Prop}
    (repeats : Repeats n MFC_real Tfail body Early Late Found)
    (safeFor : SafeFor n MFC_real safe) (message : String) (order : IterOrder Comb) :
    Finds MFC_real safe Tpass Tfail (conductOnce message (body order)) Early Found where
  start r noHealthy noFaulty _ := repeats.start r noHealthy noFaulty
  keep r r' same _ early := repeats.records r r' same early
  again r done := conductOnce_again done
  runs r waiting early := by
    obtain ⟨after, runs, uses, tests, conducted, found, late⟩ := repeats.runs
      { r with conducted := true } safe order waiting.uses safeFor waiting.tests waiting.nothing
      (repeats.records r _ ⟨rfl, rfl⟩ early)
    exact ⟨after, conductOnce_runs waiting.conducted (by rw [waiting.uses.2]; rfl) runs,
      ⟨uses, tests, conducted, found⟩, repeats.early _ late⟩

/-- A resolver that adds what it has settled needs nothing of earlier runs but `Tpass`. -/
theorem finds_of_settles
    (again : ∀ r, r.conducted = true → conduct_with_safevalues.Runs r ⟨⟩ r)
    (runs : ∀ r, Waiting MFC_real safe Tfail r → r.Tpass = Tpass → ∃ middle combs,
      conduct_with_safevalues.Runs r ⟨⟩ (identified middle combs) ∧
        SameConfig { r with conducted := true } middle ∧ ∀ c, c ∈ combs ↔ Found c) :
    Finds MFC_real safe Tpass Tfail conduct_with_safevalues (fun r => r.Tpass = Tpass) Found where
  start r _ _ same := same
  keep r r' _ same before := same.trans before
  again := again
  runs r waiting tests := by
    obtain ⟨middle, combs, runs, same, mem⟩ := runs r waiting tests
    refine ⟨_, runs,
      ⟨⟨same.verdict.trans waiting.uses.1, same.safeValues.trans waiting.uses.2⟩,
      same.Tfail.trans waiting.tests, same.conducted, fun c => ?_⟩, same.Tpass.trans tests⟩
    rw [mem_identified, same.MFC_identified, waiting.nothing, mem c]
    simp

end Rules

section Semantics

variable {c : Comb}

/-- A vector of binary values that is safe wherever `safe` has to be. -/
def binarySafe (n : Nat) (safe : Comb) : Comb :=
  ⟨.comb, (List.range n).map fun i => if safe.val i = 1 then 1 else 0⟩

theorem binarySafe_other (table : FaultTable n MFC_real) (safeFor : SafeFor n MFC_real safe)
    {M : Comb}
    (member : M ∈ MFC_real) {i : Nat} (known : i ∈ M.fixed) :
    (binarySafe n safe).val i = 1 - M.val i := by
  have inside : i < n := by
    rw [← (table.binary M member).size]
    exact Finset.mem_range.mp (M.fixed_subset_range known)
  rw [← safeFor.other M member i known]
  refine (Comb.val_tabulate _ _ inside).trans ?_
  rcases safe_binary table safeFor member known with zero | one
  · rw [zero]
    rfl
  · rw [one]
    rfl

/-- Where safe values exist, the test cases that contain a combination all fail exactly if a
real fault is part of the combination. -/
theorem all_fail_iff (table : FaultTable n MFC_real) (safeFor : SafeFor n MFC_real safe)
    (wf : c.Over n) :
    (∀ t : Testcase, t.Binary n → t.Contains c → Checker.judge MFC_real t = .ok false) ↔
      ∃ M ∈ MFC_real, c.Contains M := by
  constructor
  · intro fails
    have value : ∀ i < n, (c.padWith (binarySafe n safe) fun _ => 0).val i =
        if c.val i = Comb.UNKNOWN then (binarySafe n safe).val i else c.val i := by
      intro i inside
      have known : (binarySafe n safe).val i ≠ Comb.UNKNOWN := by
        rw [binarySafe, Comb.val_tabulate _ _ inside]
        split <;> decide
      rw [Comb.padWith_val (wf.size.symm ▸ inside), if_neg known]
    have size : (c.padWith (binarySafe n safe) fun _ => 0).size = n := by
      rw [Comb.padWith_size, wf.size]
    have binary : (c.padWith (binarySafe n safe) fun _ => 0).Binary n := by
      refine ⟨size, fun i inside => ?_⟩
      rw [value i inside]
      split
      · rw [binarySafe, Comb.val_tabulate _ _ inside]
        split
        · exact Or.inr rfl
        · exact Or.inl rfl
      · rename_i known
        exact (or_assoc.mpr (wf.values i inside)).resolve_right known
    have inside : (c.padWith (binarySafe n safe) fun _ => 0).Contains c := by
      rw [Comb.contains_iff, size]
      refine ⟨wf.size.symm, fun i known => ?_⟩
      have bound : i < n := wf.size ▸ Finset.mem_range.mp (c.fixed_subset_range known)
      rw [value i bound, if_neg (Comb.mem_fixed.mp known)]
    have judged := fails _ binary inside
    rw [judge_accepts table.binary size, Except.ok.injEq] at judged
    simp only [accepts, decide_eq_false_iff_not, not_forall, not_not] at judged
    obtain ⟨M, member, contained⟩ := judged
    exact ⟨M, member, (padWith_contains_iff (table.binary M member) wf.size fun i known =>
      binarySafe_other table safeFor member known).mp contained⟩
  · rintro ⟨M, member, part⟩ t binary inside
    rw [judge_accepts table.binary binary.size, Except.ok.injEq]
    simp only [accepts, decide_eq_false_iff_not, not_forall, not_not]
    exact ⟨M, member, inside.trans part⟩

/-- Every combination of a test case is over its parameters. -/
theorem Comb.Contains.over {t : Testcase} (binary : t.Binary n) (inside : t.Contains c) :
    c.Over n := by
  refine ⟨inside.1.symm.trans binary.size, fun i bound => ?_⟩
  rcases inside.2 i (binary.size ▸ bound) with same | unknown
  · rw [← same, ← or_assoc]
    exact Or.inl (binary.values i bound)
  · exact Or.inr (Or.inr unknown)

/-- Where safe values exist, the minimal suspicious combinations are the minimal faults. -/
theorem minimal_suspicious_iff (table : FaultTable n MFC_real) (safeFor : SafeFor n MFC_real safe)
    (binary : ∀ t ∈ Tfail, t.Binary n) :
    (IterAIFLFaultResolver.Suspicious n MFC_real Tfail c ∧
        ∀ d, IterAIFLFaultResolver.Suspicious n MFC_real Tfail d → c.Contains d → d = c) ↔
      MinimalFault MFC_real c ∧ ∃ t ∈ Tfail, t.Contains c := by
  have suspicious : ∀ M ∈ MFC_real, (∃ t ∈ Tfail, t.Contains M) →
      IterAIFLFaultResolver.Suspicious n MFC_real Tfail M := by
    intro M member contained
    exact ⟨table.cls M member, table.fixes M member, contained,
      (all_fail_iff table safeFor (table.binary M member)).mpr
        ⟨M, member, Comb.Contains.refl M⟩⟩
  constructor
  · rintro ⟨⟨cls, _, ⟨t, listed, inside⟩, fails⟩, minimal⟩
    obtain ⟨M, member, part⟩ :=
      (all_fail_iff table safeFor (inside.over (binary t listed))).mp fails
    have only : ∀ N ∈ MFC_real, c.Contains N → N = c := fun N real partN =>
      minimal N (suspicious N real ⟨t, listed, inside.trans partN⟩) partN
    refine ⟨⟨only M member part ▸ member, fun N real smaller => ?_⟩, t, listed, inside⟩
    rw [only N real smaller.1] at smaller
    exact smaller.2 (Comb.Contains.refl c)
  · rintro ⟨⟨member, minimal⟩, contained⟩
    refine ⟨suspicious c member contained, fun d suspiciousD part => ?_⟩
    obtain ⟨t, listed, inside⟩ := suspiciousD.inside
    obtain ⟨M, real, below⟩ :=
      (all_fail_iff table safeFor (inside.over (binary t listed))).mp suspiciousD.fails
    have back : M.Contains c := by
      by_contra proper
      exact minimal M real ⟨part.trans below, proper⟩
    exact Comb.Contains.antisymm (suspiciousD.cls.trans (table.cls c member).symm)
      (below.trans back) part

end Semantics

section Resolvers

variable {Tpass Tfail : List Testcase}

/-- The minimal faults that a failing test case contains. -/
def Contained (MFC_real : List Comb) (Tfail : List Testcase) (c : Comb) : Prop :=
  MinimalFault MFC_real c ∧ ∃ t ∈ Tfail, t.Contains c

theorem NoPendFaultResolver.finds (positive : 0 < n) (table : FaultTable n MFC_real)
    (safeFor : SafeFor n MFC_real safe) (failing : Failing n MFC_real Tfail) {fuel : Nat}
    (enough : 2 ^ n + 2 ≤ fuel) (order : IterOrder Comb) :
    Finds MFC_real safe Tpass Tfail (NoPendFaultResolver.conduct fuel order)
      (NoPendFaultResolver.RecordsSound n MFC_real Tfail) (Contained MFC_real Tfail) :=
  (NoPendFaultResolver.repeats positive table failing enough).finds safeFor _ order

theorem TRTFaultResolver.finds (positive : 0 < n) (small : n ≤ 30) (table : FaultTable n MFC_real)
    (safeFor : SafeFor n MFC_real safe) (failing : Failing n MFC_real Tfail) {fuel : Nat}
    (enough : 2 ^ n + 1 ≤ fuel) :
    Finds MFC_real safe Tpass Tfail (TRTFaultResolver.conduct fuel)
      (NoPendFaultResolver.RecordsSound n MFC_real Tfail)
      fun c => Contained MFC_real Tfail c ∧ ¬ (c.fixed = Finset.range n ∧ 6 ≤ n) :=
  (TRTFaultResolver.repeats positive small table failing enough).finds safeFor _ .insertion

theorem ComFILFaultResolver.finds (small : ∀ k, n.choose k < 2 ^ 31)
    (table : FaultTable n MFC_real) (safeFor : SafeFor n MFC_real safe)
    (passing : ∀ t ∈ Tpass, t.Binary n ∧ Checker.judge MFC_real t = .ok true)
    (failing : Failing n MFC_real Tfail) (combination : Combination) (order : IterOrder Comb) :
    Finds MFC_real safe Tpass Tfail (ComFILFaultResolver.conduct combination order)
      (fun r => r.Tpass = Tpass) (Contained MFC_real Tfail) := by
  refine finds_of_settles (fun r done => conductOnce_again done) fun r waiting same => ?_
  obtain rfl := waiting.tests
  subst same
  exact ComFILFaultResolver.conduct_settles small table safeFor passing failing waiting.uses
    waiting.conducted combination order

theorem IterAIFLFaultResolver.finds (positive : 0 < n) (small : ∀ k, n.choose k < 2 ^ 31)
    (table : FaultTable n MFC_real) (safeFor : SafeFor n MFC_real safe)
    (passing : ∀ t ∈ Tpass, t.Binary n ∧ Checker.judge MFC_real t = .ok true)
    (failing : Failing n MFC_real Tfail) (some : Tfail ≠ []) (combination : Combination)
    (order : IterOrder Comb) :
    Finds MFC_real safe Tpass Tfail (IterAIFLFaultResolver.conduct combination order)
      (fun r => r.Tpass = Tpass) (Contained MFC_real Tfail) := by
  refine finds_of_settles (fun r done => ?_) fun r waiting same => ?_
  · refine (Runs.get r).bind ?_
    rw [if_pos done]
    exact Runs.ret _ _
  obtain rfl := waiting.tests
  subst same
  obtain ⟨middle, combs, runs, config, found⟩ := IterAIFLFaultResolver.conduct_settles positive
    small table.binary passing failing some waiting.uses.1 waiting.conducted combination order
  refine ⟨middle, combs, runs, config, fun c => (found c).trans ?_⟩
  exact minimal_suspicious_iff table safeFor fun t member => (failing t member).1

/-- For every failing test case there is a family of disjoint combinations such that `FINOVLP`
finds these families, however it locates a combination. -/
theorem FINOVLPFaultResolver.exists_finds (table : FaultTable n MFC_real)
    (safeFor : SafeFor n MFC_real safe) (failing : Failing n MFC_real Tfail) :
    ∃ family : Testcase → HashSet Comb,
      (∀ t ∈ Tfail, DisjointFamily MFC_real t (family t)) ∧
      ∀ locateOneMFC, Locates n MFC_real safe locateOneMFC → ∀ fuel, n < fuel →
        Finds MFC_real safe Tpass Tfail (FINOVLPFaultResolver.conduct locateOneMFC fuel)
          (fun r => r.Tpass = Tpass) fun c => ∃ t ∈ Tfail, c ∈ family t := by
  have settles : ∀ t : Testcase, ∃ found : HashSet Comb, t ∈ Tfail →
      (∀ locateOneMFC, Locates n MFC_real safe locateOneMFC → ∀ r : AbstractFaultResolver,
        r.Ready n (accepts MFC_real) safe → ∀ fuel, n < fuel →
          Settles (SameConfig r) (FINOVLPFaultResolver.FINOVLP locateOneMFC fuel t) found) ∧
        DisjointFamily MFC_real t found := by
    intro t
    by_cases member : t ∈ Tfail
    · obtain ⟨found, runs, disjoint⟩ :=
        FINOVLPFaultResolver.FINOVLP_settles table safeFor (failing t member).1
      exact ⟨found, fun _ => ⟨runs, disjoint⟩⟩
    · exact ⟨HashSet.empty, fun there => absurd there member⟩
  choose family each using settles
  refine ⟨family, fun t member => (each t member).2, fun locateOneMFC locates fuel enough => ?_⟩
  refine ⟨fun r _ _ same => same, fun r r' _ same before => same.trans before,
    fun r done => conductOnce_again done, fun r waiting same => ?_⟩
  obtain rfl := waiting.tests
  obtain ⟨after, runs, frame, tests, found⟩ := forM_runs
    (FINOVLPFaultResolver.conductOne locateOneMFC fuel)
    (fun done s => SameFrame { r with conducted := true } s ∧ s.Tpass = r.Tpass ∧
      ∀ c, c ∈ s.MFC_identified ↔ ∃ t ∈ done, c ∈ family t) r.Tfail
    (by
      rintro done t rest s split ⟨frame, tests, before⟩
      have member : t ∈ r.Tfail := by rw [split]; simp
      have ready : s.Ready n (accepts MFC_real) safe :=
        Uses.ready ⟨frame.verdict.trans waiting.uses.1, frame.safeValues.trans waiting.uses.2⟩
          table.binary safeFor
      obtain ⟨middle, runs, config⟩ :=
        (each t member).1 locateOneMFC locates s ready fuel enough s (SameConfig.refl s)
      refine ⟨_, runs.bind (Runs.modify _ _), frame.step config _, config.Tpass.trans tests,
        fun c => ?_⟩
      rw [mem_identified, config.MFC_identified, before c, HashSet.mem_toList]
      simp only [List.mem_append, List.mem_singleton, or_and_right, exists_or, exists_eq_left])
    { r with conducted := true }
      ⟨⟨rfl, rfl, rfl, rfl⟩, rfl, fun c => by simp [waiting.nothing]⟩
  exact ⟨after, conductOnce_runs waiting.conducted (by rw [waiting.uses.2]; rfl)
    ((Runs.get _).bind runs), ⟨⟨frame.verdict.trans waiting.uses.1,
      frame.safeValues.trans waiting.uses.2⟩, frame.tests, frame.conducted, found⟩,
        tests.trans same⟩

/-- The fields that no check and no identification changes. -/
def settings (r : AbstractFaultResolver) : List Testcase × List Testcase × Bool :=
  (r.Tpass, r.Tfail, r.conducted)

theorem check_with_safevalues_keeps (comb : Comb) (tfail : Testcase) :
    Keeps settings (check_with_safevalues comb tfail) := by
  refine Keeps.get.bind fun r => ?_
  cases r.safeValues with
  | none => exact .throw _
  | some safeValues =>
      have checked : ∀ t, Keeps settings (check t) := by
        intro t
        unfold check
        exact Keeps.bind (Keeps.modify fun _ => rfl) fun _ => Keeps.get.bind fun _ => .lift _
      refine (Keeps.lift _).bind fun t => (checked t).bind fun result =>
        (Keeps.modify fun before => ?_).bind fun _ => .ret _
      unfold note
      split <;> rfl

theorem SOFOTFaultResolver.conductOne_keeps (tfail : Testcase) :
    Keeps settings (SOFOTFaultResolver.conductOne tfail) := by
  unfold SOFOTFaultResolver.conductOne
  refine (Keeps.lift _).bind fun comb => (Keeps.foldlM _ (fun value i => ?_) _).bind fun found => ?_
  · refine (Keeps.lift _).bind fun _ => (Keeps.lift _).bind fun _ =>
      (check_with_safevalues_keeps _ _).bind fun _ => (Keeps.lift _).bind fun _ => .ret _
  · obtain ⟨_, MFS⟩ := found
    dsimp only
    split
    · exact .ret _
    · unfold addIdentified
      exact (Keeps.lift _).bind fun _ => Keeps.modify fun _ => rfl

theorem SOFOTFaultResolver.finds (table : FaultTable n MFC_real) (safeFor : SafeFor n MFC_real safe)
    (failing : Failing n MFC_real Tfail) :
    Finds MFC_real safe Tpass Tfail SOFOTFaultResolver.conduct (fun r => r.Tpass = Tpass) fun c =>
      ∃ t ∈ Tfail, (SOFOTFaultResolver.core MFC_real t).Nonempty ∧
        t.restrict (SOFOTFaultResolver.core MFC_real t) = c := by
  refine ⟨fun r _ _ same => same, fun r r' _ same before => same.trans before, fun r done => ?_,
    fun r waiting same => ?_⟩
  · refine (Runs.get r).bind ?_
    rw [if_pos done]
    exact Runs.ret _ _
  · obtain rfl := waiting.tests
    obtain ⟨after, runs, uses, reported, kept⟩ := forM_runs SOFOTFaultResolver.conductOne
      (fun done s => Uses MFC_real safe s ∧ SOFOTFaultResolver.Reported MFC_real done s ∧
        settings s = settings { r with conducted := true }) r.Tfail
      (by
        rintro done t rest s split ⟨uses, reported, kept⟩
        obtain ⟨after, runs, usesAfter, reportedAfter⟩ :=
          SOFOTFaultResolver.conductOne_runs table
            safeFor (failing t (by rw [split]; simp)).1 uses reported
        exact ⟨after, runs, usesAfter, reportedAfter,
          ((SOFOTFaultResolver.conductOne_keeps t).of_runs runs).trans kept⟩)
      { r with conducted := true }
      ⟨⟨waiting.uses.1, waiting.uses.2⟩, fun c => by simp [waiting.nothing], rfl⟩
    simp only [settings, Prod.mk.injEq] at kept
    obtain ⟨passed, failed, conducted⟩ := kept
    refine ⟨after, ?_, ⟨uses, failed, conducted, reported⟩, passed.trans same⟩
    refine (Runs.get r).bind ?_
    rw [if_neg (by rw [waiting.conducted]; decide)]
    refine (Runs.modify _ r).bind ((Runs.get _).bind ?_)
    rw [if_neg (by rw [waiting.uses.2]; simp)]
    exact (Runs.get _).bind runs

end Resolvers

end NoPend
