import NoPend.Common.PowerSet
import NoPend.FaultResolver.Faults
import NoPend.Lib.Sweep

set_option autoImplicit false

/- The set of candidates from which `IterAIFL` and `ComFIL` remove combinations. -/
namespace NoPend

open AbstractFaultResolver

/-- `removeIf(candidate -> Comb.contains(comb, candidate))`. -/
def removeParts (comb : Comb) (set : HashSet Comb) : Except Exn (HashSet Comb) :=
  set.removeIf fun candidate => Comb.contains comb candidate

/-- `removeIf(candidate -> Comb.contains(candidate, comb) && !candidate.equals(comb))`. -/
def removeSupersets (comb : Comb) (set : HashSet Comb) : Except Exn (HashSet Comb) :=
  set.removeIf fun candidate => do return (← Comb.contains candidate comb) && candidate != comb

/-- The loops over `Tfail` and `Tpass` with which both resolvers start. -/
def candidates (combination : Combination) (Tpass Tfail : List Testcase) :
    Except Exn (HashSet Comb) := do
  let set ← Tfail.foldlM (fun (set : HashSet Comb) tfail => do
    return set.addAll (← tfail.powerSet combination)) HashSet.empty
  Tpass.foldlM (fun set tpass => removeParts tpass set) set

/-- A combination that some failing test case contains and no passing one. -/
def Candidate (Tpass Tfail : List Testcase) (c : Comb) : Prop :=
  c.cls = .comb ∧ c.fixed.Nonempty ∧ (∃ t ∈ Tfail, t.Contains c) ∧
    ∀ t ∈ Tpass, ¬ t.Contains c

variable {n : Nat}

theorem removeParts_ok {comb : Comb} {set : HashSet Comb} (size : comb.size = n)
    (sizes : ∀ c ∈ set, c.size = n) :
    ∃ rest, removeParts comb set = .ok rest ∧ ∀ c,
      c ∈ rest ↔ c ∈ set ∧ ¬ comb.Contains c := by
  have each : ∀ c ∈ set, Comb.contains comb c = .ok (decide (comb.Contains c)) :=
    fun c member => Comb.contains_eq (size.trans (sizes c member).symm)
  obtain ⟨rest, removed, mem⟩ := HashSet.removeIf_ok (fun c => decide (comb.Contains c)) each
  exact ⟨rest, removed, fun c => by rw [mem c, decide_eq_false_iff_not]⟩

theorem removeSupersets_ok {comb : Comb} {set : HashSet Comb} (size : comb.size = n)
    (sizes : ∀ c ∈ set, c.size = n) :
    ∃ rest, removeSupersets comb set = .ok rest ∧
      ∀ c, c ∈ rest ↔ c ∈ set ∧ ¬ (c.Contains comb ∧ c ≠ comb) := by
  have each : ∀ c ∈ set, (do return (← Comb.contains c comb) && c != comb : Except Exn Bool) =
      .ok (decide (c.Contains comb ∧ c ≠ comb)) := by
    intro c member
    rw [Comb.contains_eq ((sizes c member).trans size.symm)]
    by_cases inside : c.Contains comb <;> by_cases same : c = comb <;>
      simp [inside, same, bind, Except.bind, pure, Except.pure]
  obtain ⟨rest, removed, mem⟩ :=
    HashSet.removeIf_ok (fun c : Comb => decide (c.Contains comb ∧ c ≠ comb)) each
  exact ⟨rest, removed, fun c => by rw [mem c, decide_eq_false_iff_not]⟩

theorem addPowerSets_ok (combination : Combination) (small : ∀ k, n.choose k < 2 ^ 31)
    {Tfail : List Testcase} (binary : ∀ t ∈ Tfail, t.Binary n) :
    ∃ set, Tfail.foldlM (fun (set : HashSet Comb) tfail => do
        return set.addAll (← tfail.powerSet combination)) HashSet.empty = .ok set ∧
      ∀ c, c ∈ set ↔
        c.cls = .comb ∧ c.fixed.Nonempty ∧ ∃ t ∈ Tfail, t.Contains c := by
  refine Except.foldlM_inv _ (fun (done : List Testcase) (set : HashSet Comb) =>
    ∀ c, c ∈ set ↔ c.cls = .comb ∧ c.fixed.Nonempty ∧ ∃ t ∈ done, t.Contains c) Tfail ?_
    HashSet.empty (fun c => by simp)
  intro done tfail set member listed
  obtain ⟨combs, power, mem⟩ := powerSet_binary combination (binary tfail member) small
  refine ⟨set.addAll combs, by rw [power]; rfl, fun c => ?_⟩
  rw [HashSet.mem_addAll, listed c, mem c]
  simp only [List.mem_append, List.mem_singleton, or_and_right, exists_or, exists_eq_left]
  rw [← and_or_left, ← and_or_left]

/-- The candidates are the combinations that only failing test cases contain. -/
theorem candidates_ok (combination : Combination) (small : ∀ k, n.choose k < 2 ^ 31)
    {Tpass Tfail : List Testcase} (sizes : ∀ t ∈ Tpass, t.size = n)
    (binary : ∀ t ∈ Tfail, t.Binary n) :
    ∃ set, candidates combination Tpass Tfail = .ok set ∧
      ∀ c, c ∈ set ↔ Candidate Tpass Tfail c := by
  obtain ⟨all, added, memAll⟩ := addPowerSets_ok combination small binary
  obtain ⟨set, removed, mem⟩ := Except.foldlM_inv
    (fun set tpass => removeParts tpass set) (fun (done : List Testcase) (set : HashSet Comb) =>
      ∀ c, c ∈ set ↔ c ∈ all ∧ ∀ t ∈ done, ¬ t.Contains c) Tpass
    (by
      intro done tpass set member kept
      have sized : ∀ c ∈ set, c.size = n := by
        intro c there
        obtain ⟨_, _, t, inTfail, inside⟩ := (memAll c).mp ((kept c).mp there).1
        rw [← inside.1, (binary t inTfail).size]
      obtain ⟨rest, gone, mem⟩ := removeParts_ok (sizes tpass member) sized
      refine ⟨rest, gone, fun c => ?_⟩
      rw [mem c, kept c]
      simp only [List.mem_append, List.mem_singleton, or_imp, forall_and, forall_eq]
      tauto)
    all (fun c => by simp)
  refine ⟨set, by rw [candidates, added]; exact removed, fun c => ?_⟩
  rw [mem c, memAll c, Candidate]
  tauto

/-- In whatever order a set of combinations is walked, the minimal bad ones are left. -/
theorem mem_walk_iff {set : HashSet Comb} (cls : ∀ c ∈ set, c.cls = .comb) (bad : Comb → Prop)
    (mono : ∀ c d : Comb, d.Contains c → bad c → bad d) (order : IterOrder Comb) {c : Comb} :
    c ∈ Sweep.run (Sweep.Drops (fun c d : Comb => d.Contains c) bad) {c | c ∈ set}
        (order.walk set.toList) ↔
      c ∈ set ∧ bad c ∧ ∀ d ∈ set, bad d → c.Contains d → d = c := by
  refine Sweep.mem_run_iff (fun c d : Comb => d.Contains c) bad Comb.Contains.refl
    (fun _ _ _ below above => above.trans below) ?_ mono fun c member => order.mem_walk.mpr member
  intro c inC d inD below above
  exact Comb.Contains.antisymm ((cls c inC).trans (cls d inD).symm) above below

theorem Candidate.over {Tpass Tfail : List Testcase} (binary : ∀ t ∈ Tfail, t.Binary n)
    {c : Comb} (candidate : Candidate Tpass Tfail c) : c.Over n := by
  obtain ⟨_, _, ⟨t, member, inside⟩, _⟩ := candidate
  obtain ⟨size, values⟩ := binary t member
  refine ⟨inside.1.symm.trans size, fun i bound => ?_⟩
  rcases inside.2 i (size ▸ bound) with same | unknown
  · rw [← same]
    rcases values i bound with zero | one
    · exact Or.inl zero
    · exact Or.inr (Or.inl one)
  · exact Or.inr (Or.inr unknown)

end NoPend
