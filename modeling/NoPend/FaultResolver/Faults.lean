import NoPend.FaultResolver.Abstract
import NoPend.Lib.SetFamily

set_option autoImplicit false

/- What the resolvers are after: the combinations of `MFC_real` that a failing test case
contains, seen as a family of parameter sets of that test case. -/
namespace NoPend

open Antichain AbstractFaultResolver

/-- `MFC_real` as the resolvers assume it: combinations over `n` binary parameters, each
of which fixes a parameter. -/
structure FaultTable (n : Nat) (MFC_real : List Comb) : Prop where
  cls : ∀ M ∈ MFC_real, M.cls = .comb
  binary : ∀ M ∈ MFC_real, M.Over n
  fixes : ∀ M ∈ MFC_real, M.fixed.Nonempty

/-- Wherever a combination fixes a parameter, the safe value is the other binary value. -/
structure SafeFor (n : Nat) (MFC_real : List Comb) (safe : Comb) : Prop where
  valid : safe.Valid n
  other : ∀ M ∈ MFC_real, ∀ i ∈ M.fixed, safe.val i = 1 - M.val i

/-- The verdict of a checker built on `MFC_real`. -/
def accepts (MFC_real : List Comb) (t : Testcase) : Bool :=
    decide (∀ M ∈ MFC_real, ¬ t.Contains M)

/-- A minimal combination of `MFC_real`: no other one is strictly contained in it. -/
def MinimalFault (MFC_real : List Comb) (c : Comb) : Prop :=
  c ∈ MFC_real ∧ ∀ d ∈ MFC_real, ¬ c.StrictlyContains d

/-- The part of `t` on the parameters in `S` contains a combination of `MFC_real`. -/
def Faulty (MFC_real : List Comb) (t : Testcase) (S : Finset Nat) : Prop :=
  ∃ M ∈ MFC_real, t.Contains M ∧ M.fixed ⊆ S

/-- The minimal faulty sets of parameters of `t`. -/
def MinimalFaulty (n : Nat) (MFC_real : List Comb) (t : Testcase) : Finset Nat → Prop :=
  Least (· ⊆ ·) fun S => S ⊆ Finset.range n ∧ Faulty MFC_real t S

/-- The maximal healthy sets of parameters of `t`. -/
def MaximalHealthy (n : Nat) (MFC_real : List Comb) (t : Testcase) : Finset Nat → Prop :=
  Least (· ⊇ ·) fun S => S ⊆ Finset.range n ∧ ¬ Faulty MFC_real t S

/-- The system under test of `r` is the checker built on `MFC_real`, and its safe values are
`safe`. -/
def Uses (MFC_real : List Comb) (safe : Comb) (r : AbstractFaultResolver) : Prop :=
  r.checker.verdict = Checker.judge MFC_real ∧ r.safeValues = some safe

/-- What the failing test cases of a run are. -/
def Failing (n : Nat) (MFC_real : List Comb) (tests : List Testcase) : Prop :=
  ∀ t ∈ tests, t.Binary n ∧ Checker.judge MFC_real t = .ok false

/-- `MFC_identified` after the test cases in `done`. -/
def Exact (MFC_real : List Comb) (done : List Testcase) (r : AbstractFaultResolver) : Prop :=
  ∀ c, c ∈ r.MFC_identified ↔ MinimalFault MFC_real c ∧ ∃ t ∈ done, t.Contains c

instance (n : Nat) (MFC_real : List Comb) : Decidable (FaultTable n MFC_real) :=
  decidable_of_iff (∀ M ∈ MFC_real, M.cls = .comb ∧ M.Over n ∧ M.fixed.Nonempty)
    ⟨fun each => ⟨fun M member => (each M member).1, fun M member => (each M member).2.1,
      fun M member => (each M member).2.2⟩,
    fun table M member => ⟨table.cls M member, table.binary M member, table.fixes M member⟩⟩

instance (n : Nat) (MFC_real : List Comb) (safe : Comb) : Decidable (SafeFor n MFC_real safe) :=
  decidable_of_iff
    (safe.Valid n ∧ ∀ M ∈ MFC_real, ∀ i ∈ M.fixed, safe.val i = 1 - M.val i)
    ⟨fun ⟨valid, other⟩ => ⟨valid, other⟩, fun ⟨valid, other⟩ => ⟨valid, other⟩⟩

instance (n : Nat) (MFC_real : List Comb) (tests : List Testcase) :
    Decidable (Failing n MFC_real tests) :=
  inferInstanceAs (Decidable (∀ t ∈ tests, _))

instance (MFC_real : List Comb) (c : Comb) : Decidable (MinimalFault MFC_real c) :=
  inferInstanceAs (Decidable (_ ∧ _))

instance (MFC_real : List Comb) (t : Testcase) (S : Finset Nat) :
    Decidable (Faulty MFC_real t S) :=
  inferInstanceAs (Decidable (∃ M ∈ MFC_real, _))

variable {n : Nat} {MFC_real : List Comb} {safe : Comb} {t : Testcase}

theorem judge_accepts (binary : ∀ M ∈ MFC_real, M.Over n) {t : Testcase} (size : t.size = n) :
    Checker.judge MFC_real t = .ok (accepts MFC_real t) :=
  Checker.judge_eq fun M member => ((binary M member).size).trans size.symm

theorem Uses.ready {r : AbstractFaultResolver} (uses : Uses MFC_real safe r)
    (binary : ∀ M ∈ MFC_real, M.Over n)
    (safeFor : SafeFor n MFC_real safe) : r.Ready n (accepts MFC_real) safe := by
  refine ⟨uses.2, safeFor.valid, fun t size => ?_⟩
  rw [uses.1]
  exact judge_accepts binary size

theorem Failing.rejected (table : FaultTable n MFC_real) {tests : List Testcase}
    (failing : Failing n MFC_real tests) {t : Testcase} (member : t ∈ tests) :
    accepts MFC_real t = false := by
  obtain ⟨binary, judged⟩ := failing t member
  rw [judge_accepts table.binary binary.size] at judged
  exact Except.ok.inj judged

theorem exact_started {Tpass Tfail : List Testcase} {random : Nat → Bool} :
    Exact MFC_real [] (started (Checker.judge MFC_real) Tpass Tfail safe random) := by
  intro c
  constructor
  · intro member
    exact absurd member (HashSet.notMem_empty c)
  · rintro ⟨_, t, none, _⟩
    cases none

/-- Padding with safe values never completes a combination and never breaks one. -/
theorem padWith_contains_iff {c M : Comb} {filler : Nat → Int} (overM : M.Over n)
    (size : c.size = n) (other : ∀ i ∈ M.fixed, safe.val i = 1 - M.val i) :
    (c.padWith safe filler).Contains M ↔ c.Contains M := by
  rw [Comb.contains_iff, Comb.contains_iff, Comb.padWith_size]
  refine and_congr_right fun same => forall₂_congr fun i known => ?_
  have inside : i < n := by
    have bound := Finset.mem_range.mp (M.fixed_subset_range known)
    omega
  have opposite := other i known
  have binary := overM.values i inside
  have fixed := Comb.mem_fixed.mp known
  rw [Comb.padWith_val (size.symm ▸ inside)]
  split
  · rename_i unknown
    rw [unknown]
    -- the safe value is known and differs from the value the combination asks for
    simp only [Comb.UNKNOWN] at binary fixed ⊢
    split <;> constructor <;> omega
  · rfl

theorem passes_iff (table : FaultTable n MFC_real) (safeFor : SafeFor n MFC_real safe)
    (size : t.size = n) {S : Finset Nat} :
    passes (accepts MFC_real) safe t S = true ↔ ¬ Faulty MFC_real t S := by
  have each : ∀ M ∈ MFC_real,
      (paddedPart safe t S).Contains M ↔ t.Contains M ∧ M.fixed ⊆ S := by
    intro M member
    rw [← Comb.restrict_contains_iff]
    exact padWith_contains_iff (table.binary M member) ((Comb.restrict_size t S).trans size)
      (safeFor.other M member)
  simp only [passes, accepts, decide_eq_true_eq, Faulty, not_exists, not_and]
  exact ⟨fun none M member inside sub => none M member ((each M member).mpr ⟨inside, sub⟩),
    fun none M member inside =>
      none M member ((each M member).mp inside).1 ((each M member).mp inside).2⟩

theorem Faulty.mono {S T : Finset Nat} (faulty : Faulty MFC_real t S) (sub : S ⊆ T) :
    Faulty MFC_real t T := by
  obtain ⟨M, member, inside, within⟩ := faulty
  exact ⟨M, member, inside, within.trans sub⟩

theorem not_faulty_empty (table : FaultTable n MFC_real) : ¬ Faulty MFC_real t ∅ := by
  rintro ⟨M, member, _, sub⟩
  obtain ⟨i, known⟩ := table.fixes M member
  exact Finset.notMem_empty i (sub known)

theorem faulty_univ (table : FaultTable n MFC_real) (failing : accepts MFC_real t = false) :
    Faulty MFC_real t (Finset.range n) := by
  simp only [accepts, decide_eq_false_iff_not, not_forall, not_not] at failing
  obtain ⟨M, member, inside⟩ := failing
  refine ⟨M, member, inside, ?_⟩
  rw [← (table.binary M member).size]
  exact M.fixed_subset_range

theorem Comb.Contains.fixed_within {M : Comb} (inside : t.Contains M) (size : t.size = n) :
    M.fixed ⊆ Finset.range n := by
  rw [← size, inside.1]
  exact M.fixed_subset_range

/-- The minimal faulty sets of a test case are the parameter sets of the minimal
combinations it contains. -/
theorem minimalFaulty_iff (size : t.size = n) {S : Finset Nat} :
    MinimalFaulty n MFC_real t S ↔
      ∃ M, MinimalFault MFC_real M ∧ t.Contains M ∧ M.fixed = S := by
  constructor
  · rintro ⟨⟨within, M, member, inside, sub⟩, least⟩
    have whole : M.fixed = S :=
      least M.fixed ⟨inside.fixed_within size, M, member, inside, Finset.Subset.refl _⟩ sub
    refine ⟨M, ⟨member, ?_⟩, inside, whole⟩
    rintro d other ⟨contained, proper⟩
    have insideD : t.Contains d := inside.trans contained
    have same : d.fixed = S := least d.fixed
      ⟨insideD.fixed_within size, d, other, insideD, Finset.Subset.refl _⟩
      (contained.fixed_subset.trans sub)
    exact proper (Comb.contains_of_fixed_subset insideD inside (by rw [same, whole]))
  · rintro ⟨M, ⟨member, minimal⟩, inside, rfl⟩
    refine ⟨⟨inside.fixed_within size, M, member, inside, Finset.Subset.refl _⟩, ?_⟩
    rintro T ⟨_, d, other, insideD, subD⟩ sub
    have contained : M.Contains d :=
      Comb.contains_of_fixed_subset inside insideD (subD.trans sub)
    have back : d.Contains M := by
      by_contra proper
      exact minimal d other ⟨contained, proper⟩
    exact Finset.Subset.antisymm sub (back.fixed_subset.trans subD)

/-- Below every combination in `t` there is a minimal one. -/
theorem exists_minimalFault_below (size : t.size = n) {M : Comb} (member : M ∈ MFC_real)
    (contained : t.Contains M) :
    ∃ d, MinimalFault MFC_real d ∧ t.Contains d ∧ d.fixed ⊆ M.fixed := by
  obtain ⟨S, below, least⟩ := @SetFamily.exists_least_below _
    (fun S => S ⊆ Finset.range n ∧ Faulty MFC_real t S) M.fixed
    ⟨contained.fixed_within size, M, member, contained, Finset.Subset.refl _⟩
  obtain ⟨d, minimal, inside, rfl⟩ := (minimalFaulty_iff size).mp least
  exact ⟨d, minimal, inside, below⟩

/-- Reading the minimal faulty sets back as combinations gives the minimal combinations. -/
theorem exists_minimalFaulty_restrict_iff (table : FaultTable n MFC_real) (size : t.size = n)
    {c : Comb} :
    (∃ S, MinimalFaulty n MFC_real t S ∧ t.restrict S = c) ↔
      MinimalFault MFC_real c ∧ t.Contains c := by
  constructor
  · rintro ⟨S, least, rfl⟩
    obtain ⟨M, minimal, inside, rfl⟩ := (minimalFaulty_iff size).mp least
    rw [Comb.restrict_fixed_eq (table.cls M minimal.1) inside]
    exact ⟨minimal, inside⟩
  · rintro ⟨minimal, inside⟩
    exact ⟨c.fixed, (minimalFaulty_iff size).mpr ⟨c, minimal, inside, rfl⟩,
      Comb.restrict_fixed_eq (table.cls c minimal.1) inside⟩

end NoPend
