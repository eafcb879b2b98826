import NoPend.FaultResolver.LifeCycle
import NoPend.FaultResolver.NoPendPending
import NoPend.FaultResolver.TRTExact

set_option autoImplicit false

/- `NoPend` and `TRT` can be repeated: their records decide about every non-empty proper part
of the failing test cases, correctly and however often they were made. -/
namespace NoPend

open AbstractFaultResolver Proc NoPendFaultResolver

/-- The records decide correctly about every non-empty proper part of the failing test cases. -/
structure RecordsSettled (n : Nat) (MFC_real : List Comb) (Tfail : List Testcase)
    (r : AbstractFaultResolver) : Prop where
  sound : RecordsSound n MFC_real Tfail r
  decided : ∀ t ∈ Tfail, ∀ S ⊂ Finset.range n, S.Nonempty → r.Decided (t.restrict S)

variable {n : Nat} {MFC_real : List Comb} {safe : Comb} {Tfail : List Testcase}
  {r : AbstractFaultResolver}

theorem NoPendFaultResolver.RecordsSound.of_sameRecords {r' : AbstractFaultResolver}
    (same : SameRecords r r')
    (sound : RecordsSound n MFC_real Tfail r) : RecordsSound n MFC_real Tfail r' := by
  constructor
  · rw [same.1]
    exact sound.healthy
  · rw [same.2]
    exact sound.faulty

theorem RecordsSettled.healthy_iff (settled : RecordsSettled n MFC_real Tfail r) (comb : Comb) :
    (∃ c ∈ r.healthyCombs, c.Contains comb) ↔ ∃ t ∈ Tfail, ∃ S,
      S.Nonempty ∧ S ⊂ Finset.range n ∧
      ¬ Faulty MFC_real t S ∧ (t.restrict S).Contains comb := by
  constructor
  · rintro ⟨c, recorded, inside⟩
    obtain ⟨t, member, S, nonempty, proper, healthy, rfl⟩ := settled.sound.healthy c recorded
    exact ⟨t, member, S, nonempty, proper, healthy, inside⟩
  · rintro ⟨t, member, S, nonempty, proper, healthy, inside⟩
    rcases settled.decided t member S proper nonempty
      with ⟨c, recorded, above⟩ | ⟨c, recorded, below⟩
    · exact ⟨c, recorded, above.trans inside⟩
    · -- a healthy part contains no recorded faulty one
      obtain ⟨t', _, S', _, _, ⟨M, real, inT, within⟩, rfl⟩ :=
        settled.sound.faulty c recorded
      exact absurd ⟨M, real, Comb.restrict_contains_iff.mp
        (below.trans (Comb.restrict_contains_iff.mpr ⟨inT, within⟩))⟩ healthy

theorem RecordsSettled.faulty_iff (settled : RecordsSettled n MFC_real Tfail r) (comb : Comb) :
    (∃ c ∈ r.faultyCombs, comb.Contains c) ↔ ∃ t ∈ Tfail, ∃ S,
      S.Nonempty ∧ S ⊂ Finset.range n ∧
      Faulty MFC_real t S ∧ comb.Contains (t.restrict S) := by
  constructor
  · rintro ⟨c, recorded, inside⟩
    obtain ⟨t, member, S, nonempty, proper, faulty, rfl⟩ := settled.sound.faulty c recorded
    exact ⟨t, member, S, nonempty, proper, faulty, inside⟩
  · rintro ⟨t, member, S, nonempty, proper, ⟨M, real, inT, within⟩, inside⟩
    rcases settled.decided t member S proper nonempty
      with ⟨c, recorded, above⟩ | ⟨c, recorded, below⟩
    · obtain ⟨t', _, S', _, _, healthy, rfl⟩ := settled.sound.healthy c recorded
      exact absurd ⟨M, real, Comb.restrict_contains_iff.mp
        (above.trans (Comb.restrict_contains_iff.mpr ⟨inT, within⟩))⟩ healthy
    · exact ⟨c, recorded, inside.trans below⟩

/-- Settled records answer alike. -/
theorem RecordsSettled.alike (sizes : ∀ t ∈ Tfail, t.size = n) {r' : AbstractFaultResolver}
    (settled : RecordsSettled n MFC_real Tfail r) (settled' : RecordsSettled n MFC_real Tfail r')
    (comb : Comb) : r.checkPending comb = r'.checkPending comb :=
  checkPending_congr (settled.sound.sized sizes) (settled'.sound.sized sizes)
    (fun c => (settled.healthy_iff c).trans (settled'.healthy_iff c).symm)
    (fun c => (settled.faulty_iff c).trans (settled'.faulty_iff c).symm) comb

/-- A run that settles the records from any sound ones can be repeated. -/
theorem repeats_of_settled (failing : Failing n MFC_real Tfail)
    {body : IterOrder Comb → ResolverM Unit} {Found : Comb → Prop}
    (runs : ∀ (r : AbstractFaultResolver) (v : Comb) (order : IterOrder Comb),
      Uses MFC_real v r →
      SafeFor n MFC_real v → r.Tfail = Tfail → r.MFC_identified = HashSet.empty →
      RecordsSound n MFC_real Tfail r →
        ∃ after, (body order).Runs r ⟨⟩ after ∧ SameFrame r after ∧
        (∀ c, c ∈ after.MFC_identified ↔ Found c) ∧ RecordsSettled n MFC_real Tfail after) :
    Repeats n MFC_real Tfail body (RecordsSound n MFC_real Tfail) (RecordsSettled n MFC_real Tfail)
      Found where
  start r none none' := ⟨by rw [none]; simp, by rw [none']; simp⟩
  records r r' same sound := sound.of_sameRecords same
  early r settled := settled.sound
  alike r r' settled settled' c :=
    settled.alike (fun t member => (failing t member).1.size) settled' c
  runs r v order uses fits tests empty sound := by
    obtain ⟨after, run, frame, found, settled⟩ := runs r v order uses fits tests empty sound
    exact ⟨after, run, ⟨frame.verdict.trans uses.1, frame.safeValues.trans uses.2⟩,
      frame.tests.trans tests, frame.conducted, found, settled⟩

theorem exact_of_empty (empty : r.MFC_identified = HashSet.empty) : Exact MFC_real [] r := by
  intro c
  rw [empty]
  exact ⟨fun member => absurd member (HashSet.notMem_empty c), fun none => by simp at none⟩

theorem NoPendFaultResolver.repeats (positive : 0 < n) (table : FaultTable n MFC_real)
    (failing : Failing n MFC_real Tfail) {fuel : Nat} (enough : 2 ^ n + 2 ≤ fuel) :
    Repeats n MFC_real Tfail (NoPendFaultResolver.conduct_with_safevalues fuel)
      (RecordsSound n MFC_real Tfail) (RecordsSettled n MFC_real Tfail)
      fun c => MinimalFault MFC_real c ∧ ∃ t ∈ Tfail, t.Contains c := by
  refine repeats_of_settled failing fun r v order uses fits tests empty sound => ?_
  have none : ∀ c, c ∉ r.MFC_identified := by
    rw [empty]
    exact HashSet.notMem_empty
  obtain ⟨after, runs, _, _, ⟨exact', sound', proper⟩, frame⟩ :=
    conductAll_runs positive order enough
      (fun done s => (Exact MFC_real done s ∧ RecordsSound n MFC_real Tfail s ∧
        RecordsProper n done s) ∧ SameFrame r s)
      Tfail (fun t member => (failing t member).1)
      (fun done tfail s families parts member before answer =>
        ⟨records_step table fits failing member before.1 answer,
          before.2.step (probes_sameConfig parts) _⟩)
      (uses.ready table.binary fits) (fun c member => absurd member (none c))
      ⟨⟨exact_of_empty empty, sound, fun c member => absurd member (none c), by simp⟩,
        rfl, rfl, rfl, rfl⟩
  refine ⟨after, (Runs.get r).bind ?_, frame, exact', sound', proper.decided⟩
  rw [tests]
  exact runs

theorem TRTFaultResolver.repeats (positive : 0 < n) (small : n ≤ 30)
    (table : FaultTable n MFC_real)
    (failing : Failing n MFC_real Tfail) {fuel : Nat} (enough : 2 ^ n + 1 ≤ fuel) :
    Repeats n MFC_real Tfail (fun _ => TRTFaultResolver.conduct_with_safevalues fuel)
      (RecordsSound n MFC_real Tfail) (RecordsSettled n MFC_real Tfail)
      fun c => (MinimalFault MFC_real c ∧ ∃ t ∈ Tfail, t.Contains c) ∧
        ¬ (c.fixed = Finset.range n ∧ 6 ≤ n) := by
  refine repeats_of_settled failing fun r v order uses fits tests empty sound => ?_
  have none : TRTFaultResolver.Identified n MFC_real [] r := by
    intro c
    rw [empty]
    exact ⟨fun member => absurd member (HashSet.notMem_empty c), fun none => by simp at none⟩
  obtain ⟨after, runs, _, found, sound', decided, frame⟩ := forM_runs
    (TRTFaultResolver.conductOne fuel)
    (fun done s =>
      s.Ready n (accepts MFC_real) v ∧ TRTFaultResolver.Identified n MFC_real done s ∧
      RecordsSound n MFC_real Tfail s ∧
      (∀ t ∈ done, ∀ S ⊂ Finset.range n, S.Nonempty → s.Decided (t.restrict S)) ∧
      SameFrame r s)
    Tfail
    (by
      rintro done tfail rest s split ⟨ready, before, sound, decided, frame⟩
      have member : tfail ∈ Tfail := by rw [split]; simp
      obtain ⟨binary, _⟩ := failing tfail member
      obtain ⟨faults, parts, runs, mem, proper, covered⟩ :=
        TRTFaultResolver.conductOne_runs positive
          small table fits binary (failing.rejected table member) ready enough
      have readyProbes := ready.probes tfail parts
      refine ⟨_, runs, ⟨readyProbes.safeValues, readyProbes.valid, readyProbes.answers⟩,
        TRTFaultResolver.identified_step table binary before mem parts,
        sound.step table fits binary.size member proper _, ?_,
        frame.step (probes_sameConfig parts) _⟩
      intro t inside S within nonempty
      rcases List.mem_append.mp inside with old | new
      · exact Decided.probes parts (decided t old S within nonempty)
      · rw [List.mem_singleton.mp new]
        exact Decided.of_parts s (covered S within nonempty))
    r ⟨uses.ready table.binary fits, none, sound, by simp, rfl, rfl, rfl, rfl⟩
  refine ⟨after, (Runs.get r).bind ?_, frame, found, sound', decided⟩
  rw [tests]
  exact runs

end NoPend
