import NoPend.FaultResolver.NoPendExact
import NoPend.FaultResolver.Pending

set_option autoImplicit false

/- Which schemas the records of a run of `NoPend` leave pending. The whole test case and
the empty schema enter the families without a check, so no verdict on them is recorded. -/
namespace NoPend

open Antichain SetFamily AbstractFaultResolver

namespace NoPendFaultResolver

/-- Every recorded verdict is about a non-empty proper part of a failing test case. -/
structure RecordsSound (n : Nat) (MFC_real : List Comb) (Tfail : List Testcase)
    (r : AbstractFaultResolver) : Prop where
  healthy : ∀ c ∈ r.healthyCombs,
    ∃ t ∈ Tfail, ∃ S, S.Nonempty ∧ S ⊂ Finset.range n ∧
    ¬ Faulty MFC_real t S ∧ c = t.restrict S
  faulty : ∀ c ∈ r.faultyCombs, ∃ t ∈ Tfail, ∃ S, S.Nonempty ∧ S ⊂ Finset.range n ∧
    Faulty MFC_real t S ∧ c = t.restrict S

/-- The records decide about every non-empty part of the test cases in `done`. -/
structure RecordsComplete (n : Nat) (done : List Testcase) (r : AbstractFaultResolver) : Prop where
  recorded : ∀ c ∈ r.MFC_identified, c ∈ r.faultyCombs
  decided : ∀ t ∈ done, ∀ S ⊆ Finset.range n, S.Nonempty → r.Decided (t.restrict S)

/-- The records decide about every non-empty proper part of the test cases in `done`. -/
structure RecordsProper (n : Nat) (done : List Testcase) (r : AbstractFaultResolver) : Prop where
  recorded : ∀ c ∈ r.MFC_identified, c.fixed ≠ Finset.range n → c ∈ r.faultyCombs
  decided : ∀ t ∈ done, ∀ S ⊂ Finset.range n, S.Nonempty → r.Decided (t.restrict S)

/-- No failing test case is itself a minimal combination, and one of them has a parameter
whose value alone is not faulty. -/
structure Recordable (n : Nat) (MFC_real : List Comb) (Tfail : List Testcase) : Prop where
  notWhole : ∀ t ∈ Tfail,
    ∀ M, MinimalFault MFC_real M → t.Contains M → M.fixed ≠ Finset.range n
  single : ∃ t ∈ Tfail, ∃ i < n, ¬ Faulty MFC_real t {i}

instance (n : Nat) (MFC_real : List Comb) (Tfail : List Testcase) :
    Decidable (Recordable n MFC_real Tfail) :=
  decidable_of_iff
    ((∀ t ∈ Tfail, ∀ M ∈ MFC_real, MinimalFault MFC_real M → t.Contains M →
      M.fixed ≠ Finset.range n) ∧ ∃ t ∈ Tfail, ∃ i < n, ¬ Faulty MFC_real t {i})
    ⟨fun ⟨notWhole, single⟩ => ⟨fun t member M minimal =>
        notWhole t member M minimal.1 minimal, single⟩,
      fun ⟨notWhole, single⟩ => ⟨fun t member M _ => notWhole t member M, single⟩⟩

/-- Nothing is pending: neither `checkPending` on any part nor the sampled proportion. -/
def NothingPending (n : Nat) (Tfail : List Testcase) (r : AbstractFaultResolver) : Prop :=
  ∀ t ∈ Tfail, (∀ S : Schema,
    S.Wf n → (do r.checkPending (← S.getComb t)) = .ok false) ∧
    ∀ random, ∃ after, (getPendingCombProportion t).Runs { r with random } 0 after

variable {n : Nat} {MFC_real : List Comb} {safe : Comb} {tfail : Testcase} {Tfail : List Testcase}
  {r : AbstractFaultResolver} {families : MonotoneSchemaSet × MonotoneSchemaSet}
  {parts : List (Finset Nat)}

theorem RecordsSound.step (table : FaultTable n MFC_real) (safeFor : SafeFor n MFC_real safe)
    (size : tfail.size = n) (member : tfail ∈ Tfail) (sound : RecordsSound n MFC_real Tfail r)
    (proper : ∀ S ∈ parts, S.Nonempty ∧ S ⊂ Finset.range n) (combs : List Comb) :
    RecordsSound n MFC_real Tfail
      (identified (probes (accepts MFC_real) safe tfail r parts) combs) := by
  constructor
  · intro c recorded
    change c ∈ (probes (accepts MFC_real) safe tfail r parts).healthyCombs at recorded
    rw [probes_healthyCombs, List.mem_append, List.mem_map] at recorded
    rcases recorded with old | ⟨S, checked, rfl⟩
    · exact sound.healthy c old
    · obtain ⟨seen, passed⟩ := List.mem_filter.mp checked
      obtain ⟨nonempty, within⟩ := proper S seen
      exact ⟨tfail, member, S, nonempty, within, (passes_iff table safeFor size).mp passed, rfl⟩
  · intro c recorded
    change c ∈ (probes (accepts MFC_real) safe tfail r parts).faultyCombs at recorded
    rw [probes_faultyCombs, List.mem_append, List.mem_map] at recorded
    rcases recorded with old | ⟨S, checked, rfl⟩
    · exact sound.faulty c old
    · obtain ⟨seen, failed⟩ := List.mem_filter.mp checked
      obtain ⟨nonempty, within⟩ := proper S seen
      refine ⟨tfail, member, S, nonempty, within, ?_, rfl⟩
      by_contra healthy
      rw [(passes_iff table safeFor size).mpr healthy] at failed
      cases failed

theorem Decided.mono {comb : Comb} (r' : AbstractFaultResolver)
    (healthy : ∀ c ∈ r.healthyCombs, c ∈ r'.healthyCombs)
    (faulty : ∀ c ∈ r.faultyCombs, c ∈ r'.faultyCombs) (decided : r.Decided comb) :
    r'.Decided comb := by
  rcases decided with ⟨c, member, above⟩ | ⟨c, member, below⟩
  · exact Or.inl ⟨c, healthy c member, above⟩
  · exact Or.inr ⟨c, faulty c member, below⟩

/-- The verdicts on parts of `tfail` decide about all parts below and above them. -/
theorem Decided.of_parts (r : AbstractFaultResolver) {verdict : Testcase → Bool} {S : Finset Nat}
    (covered : (∃ M ∈ parts, S ⊆ M ∧ passes verdict safe tfail M = true) ∨
      ∃ M ∈ parts, M ⊆ S ∧ passes verdict safe tfail M = false) :
    (probes verdict safe tfail r parts).Decided (tfail.restrict S) := by
  rcases covered with ⟨M, seen, above, passed⟩ | ⟨M, seen, below, failed⟩
  · refine Or.inl ⟨tfail.restrict M, ?_, Comb.restrict_restrict_contains above⟩
    rw [probes_healthyCombs]
    exact List.mem_append_right _ (List.mem_map_of_mem (List.mem_filter.mpr ⟨seen, passed⟩))
  · refine Or.inr ⟨tfail.restrict M, ?_, Comb.restrict_restrict_contains below⟩
    rw [probes_faultyCombs]
    exact List.mem_append_right _ (List.mem_map_of_mem
      (List.mem_filter.mpr ⟨seen, by simp [failed]⟩))

theorem Decided.probes {comb : Comb} {verdict : Testcase → Bool} (parts : List (Finset Nat))
    (decided : r.Decided comb) : (probes verdict safe tfail r parts).Decided comb := by
  refine Decided.mono _ ?_ ?_ decided
  · intro c recorded
    rw [probes_healthyCombs]
    exact List.mem_append_left _ recorded
  · intro c recorded
    rw [probes_faultyCombs]
    exact List.mem_append_left _ recorded

theorem RecordsProper.step (table : FaultTable n MFC_real) (binary : tfail.Binary n)
    {done : List Testcase} (real : ∀ c ∈ r.MFC_identified, c ∈ MFC_real)
    (proper : RecordsProper n done r)
    (answer : Answer n (accepts MFC_real) safe tfail r families parts) :
    RecordsProper n (done ++ [tfail]) (identified (probes (accepts MFC_real) safe tfail r parts)
      (families.1.sets.map tfail.restrict)) := by
  have faultyKept : ∀ c ∈ r.faultyCombs,
      c ∈ (probes (accepts MFC_real) safe tfail r parts).faultyCombs := by
    intro c recorded
    rw [probes_faultyCombs]
    exact List.mem_append_left _ recorded
  have bounded := answer.known.bounded
  rw [Schema.ofFlag_true_bits] at bounded
  -- a minimal faulty set is a seed that was recorded earlier, or was checked now
  have recorded : ∀ f ∈ families.1.sets, f ≠ Finset.range n →
      tfail.restrict f ∈ (probes (accepts MFC_real) safe tfail r parts).faultyCombs := by
    intro f inLow notWhole
    rcases answer.lowFrom f inLow with whole | ⟨c, known, inside, rfl⟩ | ⟨seen, failed⟩
    · exact absurd whole notWhole
    · rw [Comb.restrict_fixed_eq (table.cls c (real c known)) inside]
      exact faultyKept c (proper.recorded c known notWhole)
    · rw [probes_faultyCombs]
      exact List.mem_append_right _ (List.mem_map_of_mem
        (List.mem_filter.mpr ⟨seen, by simp [failed]⟩))
  constructor
  · intro c known notWhole
    rcases mem_identified.mp known with old | new
    · rw [(probes_sameConfig parts).MFC_identified] at old
      exact faultyKept c (proper.recorded c old notWhole)
    · obtain ⟨f, inLow, rfl⟩ := List.mem_map.mp new
      rw [binary.restrict_fixed (bounded.lowIn f inLow).1] at notWhole
      exact recorded f inLow notWhole
  · intro t member S within nonempty
    rcases List.mem_append.mp member with old | new
    · exact Decided.probes parts (proper.decided t old S within nonempty)
    · rw [List.mem_singleton.mp new]
      have covered : Covers (· ⊆ ·) families.1.sets S ∨
          Covers (· ⊇ ·) families.2.sets S := by
        by_contra neither
        have isPending : S ∈ pendingIn (Finset.range n) families.1.sets families.2.sets :=
          mem_pendingIn.mpr ⟨within.subset, not_or.mp neither⟩
        rw [answer.settled] at isPending
        exact Finset.notMem_empty S isPending
      rcases covered with ⟨f, inLow, below⟩ | ⟨p, inHigh, above⟩
      · exact Or.inr ⟨tfail.restrict f, recorded f inLow (lt_of_le_of_lt below within).ne,
          Comb.restrict_restrict_contains below⟩
      · rcases answer.highFrom p inHigh with rfl | ⟨seen, passed⟩
        · exact absurd (Finset.subset_empty.mp above) nonempty.ne_empty
        · exact Decided.of_parts r (Or.inl ⟨p, seen, above, passed⟩)

/-- What one round of the loop over `Tfail` does to the results and the records. -/
theorem records_step (table : FaultTable n MFC_real) (safeFor : SafeFor n MFC_real safe)
    (failing : Failing n MFC_real Tfail) (member : tfail ∈ Tfail) {done : List Testcase}
    (before : Exact MFC_real done r ∧ RecordsSound n MFC_real Tfail r ∧ RecordsProper n done r)
    (answer : Answer n (accepts MFC_real) safe tfail r families parts) :
    Exact MFC_real (done ++ [tfail]) (identified (probes (accepts MFC_real) safe tfail r parts)
        (families.1.sets.map tfail.restrict)) ∧
      RecordsSound n MFC_real Tfail (identified (probes (accepts MFC_real) safe tfail r parts)
        (families.1.sets.map tfail.restrict)) ∧
      RecordsProper n (done ++ [tfail]) (identified (probes (accepts MFC_real) safe tfail r parts)
        (families.1.sets.map tfail.restrict)) := by
  obtain ⟨exactBefore, sound, proper⟩ := before
  obtain ⟨binary, _⟩ := failing tfail member
  refine ⟨exact_step table safeFor binary.size (failing.rejected table member) exactBefore answer,
    sound.step table safeFor binary.size member answer.proper _, ?_⟩
  exact proper.step table binary (fun c known => ((exactBefore c).mp known).1.1) answer

/-- Where no failing test case is itself a minimal combination, the whole test cases are
decided too. -/
theorem RecordsProper.complete (proper : RecordsProper n Tfail r) (exact' : Exact MFC_real Tfail r)
    (table : FaultTable n MFC_real) (failing : Failing n MFC_real Tfail)
    (notWhole : ∀ t ∈ Tfail, ∀ M,
      MinimalFault MFC_real M → t.Contains M → M.fixed ≠ Finset.range n) :
    RecordsComplete n Tfail r := by
  have recorded : ∀ c ∈ r.MFC_identified, c ∈ r.faultyCombs := by
    intro c known
    obtain ⟨minimal, t, member, inside⟩ := (exact' c).mp known
    exact proper.recorded c known (notWhole t member c minimal inside)
  refine ⟨recorded, fun t member S within nonempty => ?_⟩
  by_cases whole : S = Finset.range n
  · have size := (failing t member).1.size
    obtain ⟨M, real, inside, sub⟩ := faulty_univ table (failing.rejected table member)
    obtain ⟨c, minimal, insideC, _⟩ := exists_minimalFault_below size real inside
    refine Or.inr ⟨c, recorded c ((exact' c).mpr ⟨minimal, t, member, insideC⟩), ?_⟩
    rw [whole]
    exact Comb.restrict_contains_iff.mpr ⟨insideC, insideC.fixed_within size⟩
  · exact proper.decided t member S (lt_of_le_of_ne within whole) nonempty

/-- The records of a run. -/
theorem conduct_records (positive : 0 < n) (table : FaultTable n MFC_real)
    (safeFor : SafeFor n MFC_real safe) {Tpass : List Testcase}
    (failing : Failing n MFC_real Tfail) {random : Nat → Bool}
    (created : fresh (Checker.ofMFS MFC_real) Tpass Tfail safe random = .ok r)
    (order : IterOrder Comb) {fuel : Nat} (enough : 2 ^ n + 2 ≤ fuel) :
    ∃ after, (conduct fuel order).Runs r ⟨⟩ after ∧ RecordsSound n MFC_real Tfail after ∧
      (Recordable n MFC_real Tfail → RecordsComplete n Tfail after) := by
  have ready : (started (Checker.judge MFC_real) Tpass Tfail safe random).Ready n
      (accepts MFC_real) safe :=
    started_ready safeFor.valid fun t size => judge_accepts table.binary size
  obtain ⟨after, runs, _, _, exact', sound, proper⟩ := conductAll_runs positive order enough
    (fun done s => Exact MFC_real done s ∧ RecordsSound n MFC_real Tfail s ∧
      RecordsProper n done s)
    Tfail (fun t member => (failing t member).1)
    (fun done tfail s families parts member before answer =>
      records_step table safeFor failing member before answer)
    ready started_identifiable
    ⟨exact_started, ⟨by simp [started], by simp [started]⟩,
      ⟨fun c member => absurd member (HashSet.notMem_empty c), by simp⟩⟩
  exact ⟨after, conduct_of_fresh created runs, sound, fun recordable =>
    proper.complete exact' table failing recordable.notWhole⟩

theorem RecordsSound.sized (sound : RecordsSound n MFC_real Tfail r)
    (sizes : ∀ t ∈ Tfail, t.size = n) : r.RecordsSized n := by
  constructor
  · intro c member
    obtain ⟨t, inTfail, S, _, _, _, rfl⟩ := sound.healthy c member
    rw [Comb.restrict_size, sizes t inTfail]
  · intro c member
    obtain ⟨t, inTfail, S, _, _, _, rfl⟩ := sound.faulty c member
    rw [Comb.restrict_size, sizes t inTfail]

/-- A test case that is itself a minimal combination stays pending as a whole. -/
theorem RecordsSound.whole_undecided (sound : RecordsSound n MFC_real Tfail r)
    (binary : tfail.Binary n) {M : Comb} (minimal : MinimalFault MFC_real M)
    (inside : tfail.Contains M) (whole : M.fixed = Finset.range n) :
    ¬ r.Decided (tfail.restrict (Finset.range n)) := by
  have allFixed : (tfail.restrict (Finset.range n)).fixed = Finset.range n :=
    binary.restrict_fixed (Finset.Subset.refl _)
  rintro (⟨c, recorded, above⟩ | ⟨c, recorded, below⟩)
  · obtain ⟨t, _, S, _, proper, _, rfl⟩ := sound.healthy c recorded
    have covers := above.fixed_subset
    rw [allFixed, Comb.restrict_fixed] at covers
    exact proper.2 (covers.trans Finset.inter_subset_right)
  · obtain ⟨t, _, S, _, proper, ⟨d, real, inT, within⟩, rfl⟩ := sound.faulty c recorded
    -- the recorded part contains a combination, which then lies properly inside `M`
    have inTfail : tfail.Contains d :=
      (Comb.contains_restrict tfail _).trans
        (below.trans (Comb.restrict_contains_iff.mpr ⟨inT, within⟩))
    have smaller : d.fixed ⊂ M.fixed := by
      rw [whole]
      exact lt_of_le_of_lt within proper
    exact minimal.2 d real ⟨Comb.contains_of_fixed_subset inside inTfail smaller.subset,
      fun back => smaller.2 back.fixed_subset⟩

/-- Without a healthy single parameter nothing healthy is recorded, and the empty schema
stays pending. -/
theorem RecordsSound.empty_undecided (sound : RecordsSound n MFC_real Tfail r)
    (binary : ∀ t ∈ Tfail, t.Binary n)
    (allFaulty : ∀ t ∈ Tfail, ∀ i < n, Faulty MFC_real t {i}) :
    ¬ r.Decided (tfail.restrict ∅) := by
  rintro (⟨c, recorded, _⟩ | ⟨c, recorded, below⟩)
  · obtain ⟨t, member, S, ⟨i, inS⟩, proper, healthy, _⟩ := sound.healthy c recorded
    have inside : i < n := Finset.mem_range.mp (proper.subset inS)
    exact healthy ((allFaulty t member i inside).mono (Finset.singleton_subset_iff.mpr inS))
  · obtain ⟨t, member, S, nonempty, proper, _, rfl⟩ := sound.faulty c recorded
    have covers := below.fixed_subset
    rw [(binary t member).restrict_fixed proper.subset, Comb.restrict_fixed,
      Finset.inter_empty] at covers
    exact nonempty.ne_empty (Finset.subset_empty.mp covers)

/-- Once every non-empty part is decided, a single healthy parameter decides the empty part. -/
theorem RecordsComplete.empty_decided (complete : RecordsComplete n Tfail r)
    (sound : RecordsSound n MFC_real Tfail r) (sizes : ∀ t ∈ Tfail, t.size = n)
    (single : ∃ t ∈ Tfail, ∃ i < n, ¬ Faulty MFC_real t {i}) (member : tfail ∈ Tfail) :
    r.Decided (tfail.restrict ∅) := by
  obtain ⟨t, inTfail, i, inside, healthy⟩ := single
  rcases complete.decided t inTfail {i} (by simpa using inside) (Finset.singleton_nonempty i) with
    ⟨c, recorded, above⟩ | ⟨c, recorded, below⟩
  · refine Or.inl ⟨c, recorded, Comb.contains_iff.mpr ⟨?_, fun j known => ?_⟩⟩
    · rw [Comb.restrict_size, sizes tfail member, above.1, Comb.restrict_size, sizes t inTfail]
    · rw [Comb.restrict_fixed, Finset.inter_empty] at known
      exact absurd known (Finset.notMem_empty j)
  · obtain ⟨t', _, S, _, _, ⟨M, real, inT, within⟩, rfl⟩ := sound.faulty c recorded
    exact absurd ⟨M, real, Comb.restrict_contains_iff.mp
      (below.trans (Comb.restrict_contains_iff.mpr ⟨inT, within⟩))⟩ healthy

/-- After `conduct` nothing is pending exactly when no failing test case is itself a minimal
combination and some failing test case has a parameter that is not faulty on its own. -/
theorem conduct_nothingPending_iff (positive : 0 < n) (table : FaultTable n MFC_real)
    (safeFor : SafeFor n MFC_real safe) {Tpass : List Testcase}
    (failing : Failing n MFC_real Tfail) {random : Nat → Bool}
    (created : fresh (Checker.ofMFS MFC_real) Tpass Tfail safe random = .ok r)
    (order : IterOrder Comb) {fuel : Nat} (enough : 2 ^ n + 2 ≤ fuel) :
    ∃ after, (conduct fuel order).Runs r ⟨⟩ after ∧
      (NothingPending n Tfail after ↔ Recordable n MFC_real Tfail) := by
  obtain ⟨after, runs, sound, complete⟩ :=
    conduct_records positive table safeFor failing created order enough
  have binary : ∀ t ∈ Tfail, t.Binary n := fun t member => (failing t member).1
  have sizes : ∀ t ∈ Tfail, t.size = n := fun t member => (binary t member).size
  have sized := sound.sized sizes
  have asked : ∀ t ∈ Tfail, ∀ S : Schema, S.Wf n →
      (do after.checkPending (← S.getComb t)) =
        .ok (decide (¬ after.Decided (t.restrict S.bits))) := by
    intro t member S wf
    rw [Schema.getComb_eq wf.logic (sizes t member)]
    exact checkPending_eq sized (by rw [Comb.restrict_size, sizes t member])
  refine ⟨after, runs, ?_, ?_⟩
  · intro nothing
    have decided : ∀ t ∈ Tfail,
        ∀ S : Schema, S.Wf n → after.Decided (t.restrict S.bits) := by
      intro t member S wf
      have answer := (nothing t member).1 S wf
      rw [asked t member S wf] at answer
      simpa using answer
    constructor
    · intro t member M minimal inside whole
      have here := decided t member (Schema.ofFlag n true) (Schema.ofFlag_wf n)
      rw [Schema.ofFlag_true_bits] at here
      exact sound.whole_undecided (binary t member) minimal inside whole here
    · by_contra none
      push Not at none
      obtain ⟨t, member⟩ := List.exists_mem_of_ne_nil _ (fresh_ok created).1
      exact sound.empty_undecided
        binary none (decided t member (Schema.ofSize n) (Schema.ofSize_wf n))
  · intro recordable t member
    have complete := complete recordable
    have decided : ∀ S ⊆ Finset.range n, after.Decided (t.restrict S) := by
      intro S within
      by_cases empty : S = ∅
      · rw [empty]
        exact complete.empty_decided sound sizes recordable.single member
      · exact complete.decided t member S within (Finset.nonempty_iff_ne_empty.mpr empty)
    refine ⟨fun S wf => ?_, fun random => ?_⟩
    · rw [asked t member S wf]
      simp [decided S.bits wf.within]
    · refine getPendingCombProportion_zero (r := { after with random })
        ⟨sized.healthy, sized.faulty⟩ (sizes t member) ?_ decided
      rcases decided ∅ (Finset.empty_subset _) with ⟨c, recorded, _⟩ | ⟨c, recorded, _⟩
      · exact Or.inl (List.ne_nil_of_mem recorded)
      · exact Or.inr (List.ne_nil_of_mem recorded)

/-- Three parameters, one fault on the first of them: the second parameter alone is healthy, and
after `conduct` nothing is pending. -/
theorem conduct_nothingPending_iff_first : ∃ r after,
    fresh (Checker.ofMFS [⟨.comb, [1, -1, -1]⟩]) []
      [⟨.testcase, [1, 1, 0]⟩] ⟨.comb, [0, -1, 1]⟩ (fun _ => false) = .ok r ∧
    (conduct 10 .insertion).Runs r ⟨⟩ after ∧
    Recordable 3 [⟨.comb, [1, -1, -1]⟩] [⟨.testcase, [1, 1, 0]⟩] ∧
    NothingPending 3 [⟨.testcase, [1, 1, 0]⟩] after := by
  have created : fresh (Checker.ofMFS [⟨.comb, [1, -1, -1]⟩]) [] [⟨.testcase, [1, 1, 0]⟩]
    ⟨.comb, [0, -1, 1]⟩ (fun _ => false) = .ok _ := rfl
  obtain ⟨after, runs, same⟩ := conduct_nothingPending_iff (n := 3) (by decide) (by decide)
    (by decide) (by decide) created .insertion (show 2 ^ 3 + 2 ≤ 10 by decide)
  have recordable : Recordable 3 [⟨.comb, [1, -1, -1]⟩]
      [⟨.testcase, [1, 1, 0]⟩] := by decide
  exact ⟨_, after, created, runs, recordable, same.mpr recordable⟩

/-- A failing test case that is itself the only fault: after `conduct` it is pending. -/
theorem conduct_leaves_whole_pending : ∃ r,
    fresh (Checker.ofMFS [⟨.comb, [1, 1]⟩]) [] [⟨.testcase, [1, 1]⟩] ⟨.comb, [0, 0]⟩
      (fun _ => false) = .ok r ∧
    FaultTable 2 [⟨.comb, [1, 1]⟩] ∧ SafeFor 2 [⟨.comb, [1, 1]⟩] ⟨.comb, [0, 0]⟩ ∧
    Failing 2 [⟨.comb, [1, 1]⟩] [⟨.testcase, [1, 1]⟩] ∧
    ∀ order fuel, 6 ≤ fuel → ∃ after, (conduct fuel order).Runs r ⟨⟩ after ∧
      (do after.checkPending (← (Schema.ofFlag 2 true).getComb ⟨.testcase, [1, 1]⟩)) =
        .ok true ∧
      ¬ NothingPending 2 [⟨.testcase, [1, 1]⟩] after := by
  have table : FaultTable 2 [⟨.comb, [1, 1]⟩] := by decide
  have safeFor : SafeFor 2 [⟨.comb, [1, 1]⟩] ⟨.comb, [0, 0]⟩ := by decide
  have failing : Failing 2 [⟨.comb, [1, 1]⟩] [⟨.testcase, [1, 1]⟩] := by decide
  refine ⟨_, rfl, table, safeFor, failing, fun order fuel enough => ?_⟩
  obtain ⟨after, runs, sound, _⟩ :=
    conduct_records (by decide) table safeFor failing rfl order (n := 2) enough
  have undecided : ¬ after.Decided (Comb.restrict ⟨.testcase, [1, 1]⟩ (Finset.range 2)) :=
    sound.whole_undecided (M := ⟨.comb, [1, 1]⟩) (by decide) (by decide) (by decide) (by decide)
  have asked : (do
      after.checkPending (← (Schema.ofFlag 2 true).getComb ⟨.testcase, [1, 1]⟩)) =
      .ok true := by
    rw [Schema.getComb_eq (n := 2) (by simp) (by decide), Schema.ofFlag_true_bits]
    refine (checkPending_eq (sound.sized fun t member => (failing t member).1.size)
      (by decide)).trans ?_
    simp [undecided]
  refine ⟨after, runs, asked, fun nothing => ?_⟩
  have contrary := (nothing ⟨.testcase, [1, 1]⟩ (by simp)).1 _ (Schema.ofFlag_wf 2)
  rw [asked] at contrary
  cases contrary

end NoPendFaultResolver

end NoPend
