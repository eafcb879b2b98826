import NoPend.FaultResolver.NoPendConduct

set_option autoImplicit false

/- `NoPend` finds the minimal combinations of `MFC_real` in the failing test cases. -/
namespace NoPend

open Antichain SetFamily AbstractFaultResolver

namespace NoPendFaultResolver

variable {n : Nat} {MFC_real : List Comb} {safe : Comb} {tfail : Testcase}

/-- With the verdicts of `MFC_real` the two families are the borders of the faulty region. -/
theorem Answer.exact (table : FaultTable n MFC_real) (safeFor : SafeFor n MFC_real safe)
    (size : tfail.size = n) (failing : accepts MFC_real tfail = false) {r : AbstractFaultResolver}
    (sound : ∀ c ∈ r.MFC_identified, c ∈ MFC_real)
    {families : MonotoneSchemaSet × MonotoneSchemaSet} {parts : List (Finset Nat)}
    (answer : Answer n (accepts MFC_real) safe tfail r families parts) :
    (∀ f, f ∈ families.1.sets ↔ MinimalFaulty n MFC_real tfail f) ∧
      ∀ p, p ∈ families.2.sets ↔ MaximalHealthy n MFC_real tfail p := by
  have bounded := answer.known.bounded
  rw [Schema.ofFlag_true_bits] at bounded
  refine borders_exact (fun s t sub faulty => Faulty.mono faulty sub) bounded.lowIndependent
    bounded.highIndependent (fun f member => ⟨(bounded.lowIn f member).1, ?_⟩)
    (fun p member => ⟨(bounded.highIn p member).subset, ?_⟩) answer.settled
  · rcases answer.lowFrom f member with rfl | ⟨c, known, inside, rfl⟩ | ⟨_, fails⟩
    · exact faulty_univ table failing
    · exact ⟨c, sound c known, inside, Finset.Subset.refl _⟩
    · by_contra healthy
      rw [(passes_iff table safeFor size).mpr healthy] at fails
      cases fails
  · rcases answer.highFrom p member with rfl | ⟨_, passed⟩
    · exact not_faulty_empty table
    · exact (passes_iff table safeFor size).mp passed

theorem exact_step (table : FaultTable n MFC_real) (safeFor : SafeFor n MFC_real safe)
    (size : tfail.size = n) (failing : accepts MFC_real tfail = false) {done : List Testcase}
    {r : AbstractFaultResolver} (exactBefore : Exact MFC_real done r)
    {families : MonotoneSchemaSet × MonotoneSchemaSet} {parts : List (Finset Nat)}
    (answer : Answer n (accepts MFC_real) safe tfail r families parts) :
    Exact MFC_real (done ++ [tfail]) (identified (probes (accepts MFC_real) safe tfail r parts)
      (families.1.sets.map tfail.restrict)) := by
  have low := (answer.exact table safeFor size failing fun c known =>
    ((exactBefore c).mp known).1.1).1
  intro c
  have here : c ∈ families.1.sets.map tfail.restrict ↔
      MinimalFault MFC_real c ∧ tfail.Contains c := by
    rw [← exists_minimalFaulty_restrict_iff table size, List.mem_map]
    exact exists_congr fun S => and_congr_left fun _ => low S
  rw [mem_identified, (probes_sameConfig parts).MFC_identified, exactBefore c,
    here, ← and_or_left]
  refine and_congr_right fun _ => ?_
  simp only [List.mem_append, List.mem_singleton, or_and_right, exists_or, exists_eq_left]

/-- The loop over failing test cases keeps `MFC_identified` exact. -/
theorem conductAll_exact (positive : 0 < n) (table : FaultTable n MFC_real)
    (safeFor : SafeFor n MFC_real safe) {Tpass Tfail : List Testcase}
    (failing : Failing n MFC_real Tfail) {random : Nat → Bool} (order : IterOrder Comb)
    {fuel : Nat}
    (enough : 2 ^ n + 2 ≤ fuel) (tests : List Testcase) (drawn : ∀ t ∈ tests, t ∈ Tfail) :
    ∃ after, (tests.forM (conductOne fuel order)).Runs
        (started (Checker.judge MFC_real) Tpass Tfail safe random) ⟨⟩ after ∧
      after.Ready n (accepts MFC_real) safe ∧ Identifiable n after ∧
      Exact MFC_real tests after := by
  refine conductAll_runs positive order enough (Exact MFC_real) tests
    (fun t member => (failing t (drawn t member)).1) ?_
    (started_ready safeFor.valid fun t size => judge_accepts table.binary size)
    started_identifiable exact_started
  intro done tfail s families parts member exactBefore answer
  exact exact_step table safeFor (failing tfail (drawn tfail member)).1.size
    (failing.rejected table (drawn tfail member)) exactBefore answer

/-- The set that `conduct` identifies. -/
theorem conduct_identifies (positive : 0 < n) (table : FaultTable n MFC_real)
    (safeFor : SafeFor n MFC_real safe) {Tpass Tfail : List Testcase}
    (failing : Failing n MFC_real Tfail) {random : Nat → Bool} {r : AbstractFaultResolver}
    (created : fresh (Checker.ofMFS MFC_real) Tpass Tfail safe random = .ok r)
    (order : IterOrder Comb) {fuel : Nat} (enough : 2 ^ n + 2 ≤ fuel) :
    ∃ after, (conduct fuel order).Runs r ⟨⟩ after ∧ Exact MFC_real Tfail after := by
  obtain ⟨after, runs, _, _, exact'⟩ :=
    conductAll_exact positive table safeFor failing order enough Tfail fun t member => member
  exact ⟨after, conduct_of_fresh created runs, exact'⟩

/-- `conduct` identifies exactly the minimal combinations of `MFC_real` that a failing test
case contains, and each top-level `identify` returns the borders of the faulty region. -/
theorem conduct_exact (positive : 0 < n) (table : FaultTable n MFC_real)
    (safeFor : SafeFor n MFC_real safe) {Tpass Tfail : List Testcase}
    (failing : Failing n MFC_real Tfail) {random : Nat → Bool} {r : AbstractFaultResolver}
    (created : fresh (Checker.ofMFS MFC_real) Tpass Tfail safe random = .ok r)
    (order : IterOrder Comb) {fuel : Nat} (enough : 2 ^ n + 2 ≤ fuel) :
    (∃ after, (conduct fuel order).Runs r ⟨⟩ after ∧
        ∀ c, c ∈ after.MFC_identified ↔ MinimalFault MFC_real c ∧ ∃ t ∈ Tfail,
          t.Contains c) ∧
      ∀ done tfail rest, Tfail = done ++ tfail :: rest →
        ∃ s families s',
          (done.forM (conductOne fuel order)).Runs { r with conducted := true } ⟨⟩ s ∧
          (identifyTop fuel order tfail).Runs s families s' ∧
          (∀ f, f ∈ families.1.sets ↔ MinimalFaulty n MFC_real tfail f) ∧
          ∀ p, p ∈ families.2.sets ↔ MaximalHealthy n MFC_real tfail p := by
  refine ⟨conduct_identifies positive table safeFor failing created order enough, ?_⟩
  rintro done tfail rest rfl
  obtain ⟨s, runs, ready, identifiable, exactBefore⟩ := conductAll_exact positive table safeFor
    failing order enough done fun t member => List.mem_append_left _ member
  have member : tfail ∈ done ++ tfail :: rest := by simp
  obtain ⟨binary, _⟩ := failing tfail member
  obtain ⟨families, parts, called, answer⟩ :=
    identifyTop_runs positive ready binary identifiable order enough
  obtain ⟨_, rfl⟩ := fresh_ok created
  exact ⟨s, families, _, runs, called, answer.exact table safeFor binary.size
    (failing.rejected table member) fun c known => ((exactBefore c).mp known).1.1⟩

/-- Three parameters, two overlapping faults and a subsumed one. -/
theorem conduct_exact_overlapping : ∃ r after,
    fresh (Checker.ofMFS [⟨.comb, [1, 1, -1]⟩, ⟨.comb, [-1, 1, 1]⟩, ⟨.comb, [1, 1, 1]⟩])
      [] [⟨.testcase, [1, 1, 1]⟩] ⟨.comb, [0, 0, 0]⟩ (fun _ => false) = .ok r ∧
    (conduct 10 .insertion).Runs r ⟨⟩ after ∧
    ⟨.comb, [1, 1, -1]⟩ ∈ after.MFC_identified ∧
    ⟨.comb, [1, 1, 1]⟩ ∉ after.MFC_identified := by
  have created : fresh
    (Checker.ofMFS [⟨.comb, [1, 1, -1]⟩, ⟨.comb, [-1, 1, 1]⟩, ⟨.comb, [1, 1, 1]⟩]) []
    [⟨.testcase, [1, 1, 1]⟩] ⟨.comb, [0, 0, 0]⟩ (fun _ => false) = .ok _ := rfl
  obtain ⟨⟨after, runs, same⟩, _⟩ :=
    conduct_exact (n := 3) (by decide) (by decide) (by decide)
      (by decide) created .insertion (show 2 ^ 3 + 2 ≤ 10 by decide)
  exact ⟨_, after, created, runs, (same _).mpr (by decide), fun member =>
    absurd ((same _).mp member) (by decide)⟩

end NoPendFaultResolver

end NoPend
