import NoPend.FaultResolver.Faults

set_option autoImplicit false

/- `checkPending` and the sampled proportion of pending schemas. -/
namespace NoPend

namespace AbstractFaultResolver

variable {n : Nat} {r : AbstractFaultResolver} {tfail : Testcase}

/-- The recorded combinations all speak of `n` parameters. -/
structure RecordsSized (n : Nat) (r : AbstractFaultResolver) : Prop where
  healthy : ∀ c ∈ r.healthyCombs, c.size = n
  faulty : ∀ c ∈ r.faultyCombs, c.size = n

/-- A recorded verdict decides about `comb`. -/
def Decided (r : AbstractFaultResolver) (comb : Comb) : Prop :=
  (∃ c ∈ r.healthyCombs, c.Contains comb) ∨ ∃ c ∈ r.faultyCombs, comb.Contains c

instance (r : AbstractFaultResolver) (comb : Comb) : Decidable (r.Decided comb) :=
  inferInstanceAs (Decidable (_ ∨ _))

theorem checkPending_eq (sized : r.RecordsSized n) {comb : Comb} (size : comb.size = n) :
    r.checkPending comb = .ok (decide (¬ r.Decided comb)) := by
  have healthy := Except.anyM_ok (g := fun c => decide (c.Contains comb))
    fun c member => Comb.contains_eq ((sized.healthy c member).trans size.symm)
  have faulty := Except.anyM_ok (g := fun c => decide (comb.Contains c))
    fun c member => Comb.contains_eq (size.trans (sized.faulty c member).symm)
  rw [checkPending, healthy, faulty]
  by_cases above : ∃ c ∈ r.healthyCombs, c.Contains comb
  · simp [Decided, above, bind, Except.bind, pure, Except.pure]
  · by_cases below : ∃ c ∈ r.faultyCombs, comb.Contains c
    · simp [Decided, above, below, bind, Except.bind, pure, Except.pure]
    · simp [Decided, above, below, bind, Except.bind, pure, Except.pure]

/-- `checkPending` throws on a combination of another size as soon as there is a record. -/
theorem checkPending_wrong_size (sized : r.RecordsSized n) {comb : Comb} (size : comb.size ≠ n) :
    r.checkPending comb = if r.healthyCombs = [] ∧ r.faultyCombs = [] then .ok true
      else .error (.illegalArgument "A.getLogicSize() != B.getLogicSize()") := by
  unfold checkPending
  cases healthy : r.healthyCombs with
  | cons c rest =>
      have other : c.size ≠ comb.size := fun same =>
        size (same.symm.trans (sized.healthy c (by rw [healthy]; simp)))
      simp [List.anyM, Comb.contains, other, bind, Except.bind]
  | nil =>
      cases faulty : r.faultyCombs with
      | nil => simp [List.anyM, pure, Except.pure, bind, Except.bind]
      | cons c rest =>
          have other : comb.size ≠ c.size := fun same =>
            size (same.trans (sized.faulty c (by rw [faulty]; simp)))
          simp [List.anyM, Comb.contains, other, pure, Except.pure, bind, Except.bind]

/-- Lists that cover the same elements are both empty or both not. -/
theorem eq_nil_congr {records records' : List Comb} (covers : Comb → Comb → Prop)
    (reflexive : ∀ c, covers c c)
    (same : ∀ d, (∃ c ∈ records, covers c d) ↔ ∃ c ∈ records', covers c d) :
    records = [] ↔ records' = [] := by
  simp only [List.eq_nil_iff_forall_not_mem]
  constructor
  · intro none c member
    obtain ⟨d, inside, _⟩ := (same c).mpr ⟨c, member, reflexive c⟩
    exact none d inside
  · intro none c member
    obtain ⟨d, inside, _⟩ := (same c).mp ⟨c, member, reflexive c⟩
    exact none d inside

/-- Records that contain, and are contained in, the same combinations answer alike. -/
theorem checkPending_congr {r' : AbstractFaultResolver} (sized : r.RecordsSized n)
    (sized' : r'.RecordsSized n)
    (healthy : ∀ comb : Comb, (∃ c ∈ r.healthyCombs, c.Contains comb) ↔
      ∃ c ∈ r'.healthyCombs, c.Contains comb)
    (faulty : ∀ comb : Comb, (∃ c ∈ r.faultyCombs, comb.Contains c) ↔
      ∃ c ∈ r'.faultyCombs, comb.Contains c)
    (comb : Comb) : r.checkPending comb = r'.checkPending comb := by
  by_cases size : comb.size = n
  · rw [checkPending_eq sized size, checkPending_eq sized' size]
    congr 1
    exact decide_eq_decide.mpr (not_congr (or_congr (healthy comb) (faulty comb)))
  · have noHealthy := eq_nil_congr (fun c d => Comb.Contains c d) Comb.Contains.refl healthy
    have noFaulty := eq_nil_congr (fun c d => Comb.Contains d c) Comb.Contains.refl faulty
    rw [checkPending_wrong_size sized size, checkPending_wrong_size sized' size]
    simp only [noHealthy, noFaulty]

/-- Draws change nothing but the draws still to come. -/
def SameRecords (r r' : AbstractFaultResolver) : Prop :=
  r'.healthyCombs = r.healthyCombs ∧ r'.faultyCombs = r.faultyCombs

theorem nextBoolean_runs (r : AbstractFaultResolver) :
    nextBoolean.Runs r (r.random 0) { r with random := fun k => r.random (k + 1) } :=
  rfl

theorem sampling_runs (r : AbstractFaultResolver) (n : Nat) :
    ∃ schema after, (sampling n).Runs r schema after ∧ schema.Wf n ∧ SameRecords r after := by
  refine Proc.foldlM_runs _ (fun schema after => schema.Wf n ∧ SameRecords r after)
    (List.range n) ?_ (Schema.ofSize n) r ⟨Schema.ofSize_wf n, rfl, rfl⟩
  rintro schema state i member ⟨wf, same⟩
  have kept : SameRecords r { state with random := fun k => state.random (k + 1) } := same
  by_cases chosen : state.random 0 = true
  · refine ⟨schema.set i true, _, (nextBoolean_runs state).bind ?_,
      wf.set_true (List.mem_range.mp member), kept⟩
    rw [if_pos chosen]
    exact Proc.Runs.ret _ _
  · refine ⟨schema, _, (nextBoolean_runs state).bind ?_, wf, kept⟩
    rw [if_neg chosen]
    exact Proc.Runs.ret _ _

/-- When every part of `tfail` is decided, no sample is pending. -/
theorem getPendingCombProportion_zero (sized : r.RecordsSized n) (size : tfail.size = n)
    (some : r.healthyCombs ≠ [] ∨ r.faultyCombs ≠ [])
    (decided : ∀ S : Finset Nat, S ⊆ Finset.range n → r.Decided (tfail.restrict S)) :
    ∃ after, (getPendingCombProportion tfail).Runs r 0 after := by
  obtain ⟨count, after, runs, zero, same⟩ := Proc.foldlM_runs
    (fun (pending_count : Nat) (_ : Nat) => do
      let schema ← sampling tfail.size
      let comb ← schema.getComb tfail
      if ← (← get).checkPending comb then return pending_count + 1 else return pending_count)
    (fun count after => count = 0 ∧ SameRecords r after) (List.range 1000) (by
      rintro count state _ _ ⟨rfl, same⟩
      obtain ⟨schema, drawn, sampled, wf, kept⟩ := sampling_runs state tfail.size
      have records : drawn.healthyCombs = r.healthyCombs ∧ drawn.faultyCombs = r.faultyCombs :=
        ⟨kept.1.trans same.1, kept.2.trans same.2⟩
      have notPending : drawn.checkPending (tfail.restrict schema.bits) = .ok false := by
        rw [checkPending_eq (n := n) ⟨by rw [records.1]; exact sized.healthy,
          by rw [records.2]; exact sized.faulty⟩ (by rw [Comb.restrict_size, size])]
        have here := decided schema.bits (size ▸ wf.within)
        have there : drawn.Decided (tfail.restrict schema.bits) := by
          rw [Decided, records.1, records.2]
          exact here
        simp [there]
      exact ⟨0, drawn, sampled.bind ((Proc.Runs.of_ok (Schema.getComb_eq wf.logic rfl) _).bind
        ((Proc.Runs.get _).bind ((Proc.Runs.of_ok notPending _).bind (Proc.Runs.ret _ _)))),
        rfl, records⟩) 0 r ⟨rfl, rfl, rfl⟩
  have nonempty : (r.healthyCombs.isEmpty && r.faultyCombs.isEmpty) = false := by
    rcases some with healthy | faulty
    · simp [healthy]
    · simp [faulty]
  refine ⟨after, (Proc.Runs.get r).bind ?_⟩
  rw [nonempty]
  refine runs.bind ?_
  rw [zero]
  simp

/-- Where there is a record, and all records have the size of `tfail`, the proportion is one of
a thousand samples. -/
theorem getPendingCombProportion_runs (sized : r.RecordsSized n) (size : tfail.size = n)
    (some : r.healthyCombs ≠ [] ∨ r.faultyCombs ≠ []) :
    ∃ proportion after, (getPendingCombProportion tfail).Runs r proportion after ∧
      0 ≤ proportion ∧ proportion ≤ 1 := by
  have samples : ∀ (items : List Nat) (count : Nat) (state : AbstractFaultResolver),
      SameRecords r state →
      ∃ total after, (items.foldlM (fun (pending_count : Nat) (_ : Nat) => do
        let schema ← sampling tfail.size
        let comb ← schema.getComb tfail
        if ← (← get).checkPending comb then return pending_count + 1 else return pending_count)
          count : ResolverM Nat).Runs state total after ∧ total ≤ count + items.length := by
    intro items
    induction items with
    | nil => exact fun count state _ => ⟨count, state, Proc.Runs.ret _ _, le_refl _⟩
    | cons i rest ih =>
        intro count state same
        obtain ⟨schema, drawn, sampled, wf, kept⟩ := sampling_runs state tfail.size
        have records : SameRecords r drawn := ⟨kept.1.trans same.1, kept.2.trans same.2⟩
        have asked : drawn.checkPending (tfail.restrict schema.bits) =
            .ok (decide (¬ drawn.Decided (tfail.restrict schema.bits))) :=
          checkPending_eq (n := n) ⟨by rw [records.1]; exact sized.healthy,
            by rw [records.2]; exact sized.faulty⟩ (by rw [Comb.restrict_size, size])
        obtain ⟨total, after, more, few⟩ := ih
          (if decide (¬ drawn.Decided (tfail.restrict schema.bits)) =
            true then count + 1 else count)
          drawn records
        refine ⟨total, after, ?_, ?_⟩
        · rw [List.foldlM_cons]
          refine (sampled.bind ((Proc.Runs.of_ok (Schema.getComb_eq wf.logic rfl) drawn).bind
            ((Proc.Runs.get drawn).bind ((Proc.Runs.of_ok asked drawn).bind ?_)))).bind more
          split
          · exact Proc.Runs.ret _ _
          · exact Proc.Runs.ret _ _
        · rw [List.length_cons]
          split at few <;> omega
  obtain ⟨total, after, runs, few⟩ := samples (List.range 1000) 0 r ⟨rfl, rfl⟩
  have nonempty : (r.healthyCombs.isEmpty && r.faultyCombs.isEmpty) = false := by
    rcases some with healthy | faulty
    · simp [healthy]
    · simp [faulty]
  refine ⟨(total : Rat) / 1000, after, (Proc.Runs.get r).bind ?_,
    div_nonneg (Nat.cast_nonneg _) (by norm_num), ?_⟩
  · rw [nonempty]
    refine runs.bind ?_
    simp
  · rw [List.length_range, Nat.zero_add] at few
    have bound : (total : Rat) ≤ 1000 := by exact_mod_cast few
    linarith

end AbstractFaultResolver

end NoPend
