import NoPend.FaultResolver.Faults
import NoPend.FaultResolver.FINOVLPLocate

set_option autoImplicit false

/- `SOFOTFaultResolver`: one factor of the failing test case is left out at a time. -/
namespace NoPend

open AbstractFaultResolver Proc

namespace SOFOTFaultResolver

/-- The body of the loop over the parameters: `(t, MFS)`. -/
def omitStep (tfail : Testcase) : Comb × Schema → Nat → ResolverM (Comb × Schema)
  | (t, MFS), i => do
      let old_value ← tfail.get i
      let t ← t.set i Comb.UNKNOWN
      let MFS := if ← check_with_safevalues t tfail then MFS.set i true else MFS
      return (← t.set i old_value, MFS)

/-- The body of the loop over `Tfail` in `conduct_with_safevalues`. -/
def conductOne (tfail : Testcase) : ResolverM Unit := do
  let (_, MFS) ← (List.range tfail.size).foldlM (omitStep tfail)
    (← MutableComb.ofComb tfail, Schema.ofSize tfail.size)
  if MFS.size = 0 then return
  addIdentified tfail MFS

def conduct_with_safevalues : ResolverM Unit := do
  (← get).Tfail.forM conductOne

/-- The body of the loop over the parameters without safe values: `(tfail, MFS)`. -/
def flipStep : Testcase × List Nat → Nat → ResolverM (Testcase × List Nat)
  | (tfail, MFS), i => do
      let tfail ← MutableTestcase.flip tfail i
      let MFS := if ← check tfail then MFS ++ [i] else MFS
      return (← MutableTestcase.flip tfail i, MFS)

/-- The body of the loop over `Tfail` in `conduct_without_safevalues`. -/
def conductOneFlipping (_tfail : Testcase) : ResolverM Unit := do
  let tfail ← MutableTestcase.ofComb _tfail
  let (_, MFS) ← (List.range tfail.size).foldlM flipStep (tfail, [])
  if MFS.isEmpty then return
  addIdentified _tfail (Schema.ofIndices _tfail.size MFS)

def conduct_without_safevalues : ResolverM Unit := do
  (← get).Tfail.forM conductOneFlipping

def conduct : ResolverM Unit := do
  if (← get).conducted then return
  modify fun r => { r with conducted := true }
  if (← get).safeValues.isNone then conduct_without_safevalues else conduct_with_safevalues

section Steps

variable {n : Nat} {verdict : Testcase → Bool} {safe : Comb} {t : Testcase}
  {r : AbstractFaultResolver}

/-- A round leaves the combination as it was and notes the parameter if the test case
without it passes. -/
theorem omitStep_settles (ready : r.Ready n verdict safe) (binary : t.Binary n) (MFS : Schema)
    {i : Nat} (inside : i < n) :
    Settles (SameConfig r) (omitStep t (mutablePart t (Finset.range n), MFS) i)
      (mutablePart t (Finset.range n),
        if passes verdict safe t ((Finset.range n).erase i) then MFS.set i true else MFS) := by
  have back := mutablePart_restore binary ((Finset.range n).erase i) inside
  rw [Finset.insert_erase (Finset.mem_range.mpr inside)] at back
  unfold omitStep
  refine (Settles.of_ok (Comb.get_eq_val (binary.size ▸ inside))).bind
    ((Settles.of_ok (mutablePart_clear binary _ inside)).bind
      ((check_mutablePart ready binary _).bind ?_))
  exact (Settles.of_ok back).bind (Settles.ret _)

/-- The loop over the parameters collects those without which the test case passes. -/
theorem omitAll_settles (ready : r.Ready n verdict safe) (binary : t.Binary n) (indices : List Nat)
    (within : ∀ i ∈ indices, i < n) (MFS : Schema) :
    ∃ after, Settles (SameConfig r)
        (indices.foldlM (omitStep t) (mutablePart t (Finset.range n), MFS))
        (mutablePart t (Finset.range n), after) ∧ after.logic_size = MFS.logic_size ∧
      ∀ i, i ∈ after.bits ↔ i ∈ MFS.bits ∨
        i ∈ indices ∧ passes verdict safe t ((Finset.range n).erase i) = true := by
  induction indices generalizing MFS with
  | nil => exact ⟨MFS, Settles.ret _, rfl, by simp⟩
  | cons j rest ih =>
      have step := omitStep_settles ready binary MFS (within j (by simp))
      obtain ⟨after, more, logic, bits⟩ :=
        ih (fun i member => within i (List.mem_cons_of_mem _ member)) _
      refine ⟨after, ?_, logic.trans ?_, fun i => ?_⟩
      · rw [List.foldlM_cons]
        exact step.bind more
      · split <;> rfl
      · rw [bits, List.mem_cons]
        by_cases healthy : passes verdict safe t ((Finset.range n).erase j) = true
        · rw [if_pos healthy, Schema.set_true_bits, Finset.mem_insert]
          constructor
          · rintro ((rfl | old) | new)
            · exact Or.inr ⟨Or.inl rfl, healthy⟩
            · exact Or.inl old
            · exact Or.inr ⟨Or.inr new.1, new.2⟩
          · rintro (old | ⟨rfl | later, passed⟩)
            · exact Or.inl (Or.inr old)
            · exact Or.inl (Or.inl rfl)
            · exact Or.inr ⟨later, passed⟩
        · rw [if_neg healthy]
          constructor
          · rintro (old | new)
            · exact Or.inl old
            · exact Or.inr ⟨Or.inr new.1, new.2⟩
          · rintro (old | ⟨rfl | later, passed⟩)
            · exact Or.inl old
            · exact absurd passed healthy
            · exact Or.inr ⟨later, passed⟩

end Steps

/-- The parameters that all combinations of `MFC_real` contained in `t` fix. -/
def core (MFC_real : List Comb) (t : Testcase) : Finset Nat :=
  (Finset.range t.size).filter fun i => ∀ M ∈ MFC_real, t.Contains M → i ∈ M.fixed

/-- `MFC_identified` after the test cases in `done`. -/
def Reported (MFC_real : List Comb) (done : List Testcase) (r : AbstractFaultResolver) : Prop :=
  ∀ c, c ∈ r.MFC_identified ↔
    ∃ t ∈ done, (core MFC_real t).Nonempty ∧ t.restrict (core MFC_real t) = c

section Exact

variable {n : Nat} {MFC_real : List Comb} {safe : Comb} {t : Testcase} {r : AbstractFaultResolver}

/-- Without a parameter the test case passes iff every combination in it needs the parameter. -/
theorem passes_omit_iff (table : FaultTable n MFC_real) (safeFor : SafeFor n MFC_real safe)
    (binary : t.Binary n) {i : Nat} (inside : i < n) :
    passes (accepts MFC_real) safe t ((Finset.range n).erase i) = true ↔
    i ∈ core MFC_real t := by
  rw [passes_iff table safeFor binary.size, core, Finset.mem_filter, Finset.mem_range, binary.size]
  simp only [Faulty, not_exists, not_and]
  constructor
  · intro none
    refine ⟨inside, fun M member contained => ?_⟩
    by_contra outside
    exact none M member contained
      (Finset.subset_erase.mpr ⟨contained.fixed_within binary.size, outside⟩)
  · rintro ⟨_, all⟩ M member contained sub
    exact Finset.notMem_erase i _ (sub (all M member contained))

/-- The loop body for one failing test case. -/
theorem conductOne_runs (table : FaultTable n MFC_real) (safeFor : SafeFor n MFC_real safe)
    (binary : t.Binary n) {done : List Testcase} (uses : Uses MFC_real safe r)
    (reported : Reported MFC_real done r) :
    ∃ after, (conductOne t).Runs r ⟨⟩ after ∧ Uses MFC_real safe after ∧
      Reported MFC_real (done ++ [t]) after := by
  obtain ⟨MFS, settles, logic, bits⟩ := omitAll_settles (uses.ready table.binary safeFor) binary
    (List.range n) (fun i member => List.mem_range.mp member) (Schema.ofSize n)
  obtain ⟨middle, runs, same⟩ := settles r (SameConfig.refl r)
  have found : MFS.bits = core MFC_real t := by
    ext i
    rw [bits, Schema.ofSize_bits, List.mem_range]
    constructor
    · rintro (none | ⟨inside, passed⟩)
      · cases none
      · exact (passes_omit_iff table safeFor binary inside).mp passed
    · intro member
      have inside : i < n := by
        rw [core, Finset.mem_filter, binary.size] at member
        exact Finset.mem_range.mp member.1
      exact Or.inr ⟨inside, (passes_omit_iff table safeFor binary inside).mpr member⟩
  have usesMiddle : Uses MFC_real safe middle :=
    ⟨same.verdict.trans uses.1, same.safeValues.trans uses.2⟩
  have entry : ∀ {after : AbstractFaultResolver},
      (if MFS.size = 0 then pure () else addIdentified t MFS : ResolverM Unit).Runs
        middle ⟨⟩ after →
      (conductOne t).Runs r ⟨⟩ after := by
    intro after rest
    unfold conductOne
    rw [binary.size]
    exact (Runs.of_ok (ofComb_mutablePart binary) r).bind (runs.bind rest)
  by_cases empty : MFS.size = 0
  · have none : ¬ (core MFC_real t).Nonempty := by
      rw [Schema.size_eq, found, Finset.card_eq_zero] at empty
      rw [empty]
      exact Finset.not_nonempty_empty
    refine ⟨middle, entry ?_, usesMiddle, fun c => ?_⟩
    · rw [if_pos empty]
      exact Runs.ret _ _
    · rw [same.MFC_identified, reported c]
      simp only [List.mem_append, List.mem_singleton, or_and_right, exists_or, exists_eq_left, none,
        false_and, or_false]
  · have some : (core MFC_real t).Nonempty := by
      rw [Schema.size_eq, found] at empty
      exact Finset.card_ne_zero.mp empty
    have comb := Schema.getComb_eq (logic.trans (Schema.ofSize_logic n)) binary.size
    rw [found] at comb
    refine ⟨identified middle [t.restrict (core MFC_real t)], entry ?_, usesMiddle, fun c => ?_⟩
    · rw [if_neg empty]
      exact (Runs.of_ok comb middle).bind (Runs.modify _ _)
    · rw [mem_identified, same.MFC_identified, reported c]
      simp only [List.mem_append, List.mem_singleton, or_and_right, exists_or, exists_eq_left, some,
        true_and, eq_comm (a := c)]

theorem core_of_unique (table : FaultTable n MFC_real) (size : t.size = n) {M : Comb}
    (minimal : MinimalFault MFC_real M) (contained : t.Contains M)
    (unique : ∀ d, MinimalFault MFC_real d → t.Contains d → d = M) :
    (core MFC_real t).Nonempty ∧ t.restrict (core MFC_real t) = M := by
  have same : core MFC_real t = M.fixed := by
    ext i
    rw [core, Finset.mem_filter]
    constructor
    · rintro ⟨_, all⟩
      exact all M minimal.1 contained
    · intro known
      refine ⟨by rw [size]; exact contained.fixed_within size known, fun N member inside => ?_⟩
      obtain ⟨d, minimalD, insideD, below⟩ := exists_minimalFault_below size member inside
      rw [unique d minimalD insideD] at below
      exact below known
  rw [same]
  exact ⟨table.fixes M minimal.1, Comb.restrict_fixed_eq (table.cls M minimal.1) contained⟩

theorem core_of_disjoint {M N : Comb} (memberM : M ∈ MFC_real) (memberN : N ∈ MFC_real)
    (inM : t.Contains M) (inN : t.Contains N) (apart : Disjoint M.fixed N.fixed) :
    core MFC_real t = ∅ := by
  rw [Finset.eq_empty_iff_forall_notMem]
  intro i member
  rw [core, Finset.mem_filter] at member
  exact Finset.disjoint_left.mp apart (member.2 M memberM inM) (member.2 N memberN inN)

/-- `conduct` with safe values reports the common core of the combinations in each failing
test case: the combination itself where one minimal one is contained, nothing where two
disjoint ones are. -/
theorem conduct_reports_core (table : FaultTable n MFC_real) (safeFor : SafeFor n MFC_real safe)
    {Tpass Tfail : List Testcase} (failing : Failing n MFC_real Tfail) {random : Nat → Bool}
    (created : fresh (Checker.ofMFS MFC_real) Tpass Tfail safe random = .ok r) :
    ∃ after, conduct.Runs r ⟨⟩ after ∧
      (∀ c, c ∈ after.MFC_identified ↔
        ∃ t ∈ Tfail, (core MFC_real t).Nonempty ∧ t.restrict (core MFC_real t) = c) ∧
      (∀ t ∈ Tfail, ∀ M, MinimalFault MFC_real M → t.Contains M →
        (∀ d, MinimalFault MFC_real d → t.Contains d → d = M) →
        t.restrict (core MFC_real t) = M ∧ M ∈ after.MFC_identified) ∧
      ∀ t ∈ Tfail, ∀ M N,
        MinimalFault MFC_real M → MinimalFault MFC_real N → t.Contains M →
        t.Contains N → Disjoint M.fixed N.fixed → core MFC_real t = ∅ := by
  have binary : ∀ t ∈ Tfail, t.Binary n := fun t member => (failing t member).1
  obtain ⟨after, runs, _, reported⟩ := forM_runs conductOne
    (fun done r => Uses MFC_real safe r ∧ Reported MFC_real done r) Tfail
    (by
      rintro done t rest state split ⟨uses, reported⟩
      exact conductOne_runs table safeFor (binary t (by rw [split]; simp)) uses reported)
    (started (Checker.judge MFC_real) Tpass Tfail safe random)
    ⟨⟨rfl, rfl⟩, fun c =>
      ⟨fun member => absurd member (HashSet.notMem_empty c), by simp⟩⟩
  refine ⟨after, ?_, reported, ?_, ?_⟩
  · obtain ⟨_, rfl⟩ := fresh_ok created
    exact (Runs.get _).bind ((Runs.modify _ _).bind ((Runs.get _).bind ((Runs.get _).bind runs)))
  · intro t member M minimal contained unique
    obtain ⟨some, whole⟩ := core_of_unique table (binary t member).size minimal contained unique
    exact ⟨whole, (reported M).mpr ⟨t, member, some, whole⟩⟩
  · intro t member M N minimalM minimalN inM inN apart
    exact core_of_disjoint minimalM.1 minimalN.1 inM inN apart

/-- Two faults that share a parameter in the first test case, one of them in the second. -/
theorem conduct_reports_core_two_tests : ∃ r after,
    fresh (Checker.ofMFS [⟨.comb, [1, 1, -1]⟩, ⟨.comb, [-1, 1, 1]⟩]) []
      [⟨.testcase, [1, 1, 1]⟩, ⟨.testcase, [0, 1, 1]⟩] ⟨.comb, [0, 0, 0]⟩
        (fun _ => false) = .ok r ∧
    conduct.Runs r ⟨⟩ after ∧ ⟨.comb, [-1, 1, -1]⟩ ∈ after.MFC_identified ∧
    ⟨.comb, [-1, 1, 1]⟩ ∈ after.MFC_identified := by
  have created : fresh (Checker.ofMFS [⟨.comb, [1, 1, -1]⟩, ⟨.comb, [-1, 1, 1]⟩]) []
    [⟨.testcase, [1, 1, 1]⟩, ⟨.testcase, [0, 1, 1]⟩] ⟨.comb, [0, 0, 0]⟩
      (fun _ => false) =
      .ok _ := rfl
  obtain ⟨after, runs, reported, _⟩ := conduct_reports_core (n := 3) (by decide) (by decide)
    (by decide) created
  exact ⟨_, after, created, runs, (reported _).mpr (by decide), (reported _).mpr (by decide)⟩

end Exact

end SOFOTFaultResolver

end NoPend
