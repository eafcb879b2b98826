import NoPend.FaultResolver.Ben

set_option autoImplicit false

/- What `BenFaultResolver` identifies, whatever the suspiciousness values, the ranking and the
draws: the parts of the combinations that its last test cases leave suspicious. -/
namespace NoPend

open AbstractFaultResolver Proc

theorem Comb.contains_ok {A B : Comb} {inside : Bool} (done : Comb.contains A B = .ok inside) :
    inside = true ↔ A.Contains B := by
  by_cases size : A.size = B.size
  · rw [Comb.contains_eq size, Except.ok.injEq] at done
    rw [← done, decide_eq_true_eq]
  · simp [Comb.contains, size] at done

theorem Checker.judge_passed {MFS : List Comb} {t : Testcase}
    (passed : Checker.judge MFS t = .ok true) :
    ∀ M ∈ MFS, ¬ t.Contains M := by
  induction MFS with
  | nil => simp
  | cons mf rest ih =>
      obtain ⟨inside, asked, later⟩ := Except.bind_ok.mp passed
      cases inside with
      | true => cases later
      | false =>
          intro M member contains
          rcases List.mem_cons.mp member with rfl | old
          · exact absurd ((Comb.contains_ok asked).mpr contains) (by decide)
          · exact ih later M old contains

namespace BenFaultResolver

variable {doubles : Doubles} {combination : Combination} {Tpass Tfail : List Testcase}

section Suspicious

/-- `c` is the part of `t` on some `k` parameters. -/
def TWay (k : Nat) (t : Testcase) (c : Comb) : Prop :=
  ∃ S ∈ Finset.powersetCard k (Finset.range t.size), t.restrict S = c

/-- A part of a failing test case that no passing test case contains. -/
def Suspicious (k : Nat) (Tpass Tfail : List Testcase) (c : Comb) : Prop :=
  (∃ t ∈ Tfail, TWay k t c) ∧ ∀ p ∈ Tpass, ¬ p.Contains c

theorem isCurrentlyHealthy_ok {c : Comb} {healthy : Bool}
    (done : isCurrentlyHealthy Tpass c = .ok healthy) :
    healthy = false ↔ ∀ p ∈ Tpass, ¬ p.Contains c := by
  rcases Except.anyM_cases done with ⟨rfl, p, member, answer⟩ | ⟨rfl, all⟩
  · simp only [Bool.true_eq_false, false_iff, not_forall, not_not]
    exact ⟨p, member, (Comb.contains_ok answer).mp rfl⟩
  · refine iff_of_true rfl fun p member contains => ?_
    exact absurd ((Comb.contains_ok (all p member)).mpr contains) (by decide)

theorem mem_getAllSuspiciousCombinations {k : Nat} {found : HashSet Comb}
    (done : getAllSuspiciousCombinations combination k Tpass Tfail = .ok found) {c : Comb} :
    c ∈ found ↔ Suspicious k Tpass Tfail c := by
  obtain ⟨parts, collected, kept⟩ := Except.bind_ok.mp done
  have collect : ∀ (tests : List Testcase) (start parts : HashSet Comb),
      tests.foldlM (fun (res : HashSet Comb) tfail => do
        return res.addAll (← Testcase.tWayComb combination tfail k)) start = .ok parts →
      (c ∈ parts ↔ c ∈ start ∨ ∃ t ∈ tests, TWay k t c) := by
    intro tests
    induction tests with
    | nil =>
        intro start parts done
        cases done
        simp
    | cons t rest ih =>
        intro start parts done
        rw [List.foldlM_cons] at done
        obtain ⟨next, step, later⟩ := Except.bind_ok.mp done
        obtain ⟨combs, listed, added⟩ := Except.bind_ok.mp step
        rw [ih next parts later, ← Except.ok.inj added, HashSet.mem_addAll, mem_tWayComb listed,
          or_assoc]
        simp only [List.exists_mem_cons_iff, TWay]
  obtain ⟨total, mem⟩ := HashSet.mem_removeIf kept
  rw [mem c, collect Tfail HashSet.empty parts collected]
  simp only [HashSet.notMem_empty, false_or, Suspicious]
  refine and_congr_right fun listed => ?_
  obtain ⟨healthy, answer⟩ := total c
    ((collect Tfail HashSet.empty parts collected).mpr (Or.inr listed))
  rw [answer, Except.ok.injEq]
  exact isCurrentlyHealthy_ok answer

/-- Around a small fault that no passing test case contains, there is a suspicious part of each
failing test case that contains the fault. -/
theorem exists_suspicious {k : Nat} {u : Testcase} {M : Comb} (listed : u ∈ Tfail)
    (high : k ≤ u.size) (few : M.fixed.card ≤ k) (inside : u.Contains M)
    (never : ∀ p ∈ Tpass, ¬ p.Contains M) :
    ∃ s, Suspicious k Tpass Tfail s ∧ s.Contains M := by
  have within : M.fixed ⊆ Finset.range u.size :=
    inside.fixed_subset.trans u.fixed_subset_range
  obtain ⟨S, above, below, card⟩ := Finset.exists_subsuperset_card_eq within few
    (by rw [Finset.card_range]; exact high)
  have contains : (u.restrict S).Contains M := Comb.restrict_contains_iff.mpr ⟨inside, above⟩
  refine ⟨u.restrict S, ⟨⟨u, listed, S, ?_, rfl⟩, fun p there covers => ?_⟩, contains⟩
  · exact Finset.mem_powersetCard.mpr ⟨below, card⟩
  · exact never p there (covers.trans contains)

end Suspicious

section Derive

/-- `c` is the part of `s` on some, but at most `k`, of the parameters that `s` fixes. -/
def Smaller (k : Nat) (s c : Comb) : Prop :=
  ∃ T ⊆ s.fixed, 1 ≤ T.card ∧ T.card ≤ k ∧ s.restrict T = c

theorem smallerCombs_eq (combination : Combination) (s : Comb) (d : Nat) :
    ∃ smaller, smallerCombs combination s d = .ok smaller ∧
      ∀ c, c ∈ smaller ↔ ∃ T ⊆ s.fixed, T.card = d ∧ s.restrict T = c := by
  have nodup : ((List.range s.size).filter fun i => s.val i ≠ Comb.UNKNOWN).Nodup :=
    List.nodup_range.filter _
  have set : ((List.range s.size).filter fun i => s.val i ≠ Comb.UNKNOWN).toFinset = s.fixed := by
    ext i
    simp [Comb.fixed]
  refine ⟨_, mapM_ofIndices_eq combination nodup (fun i member => ?_) d, fun c => ?_⟩
  · exact List.mem_range.mp (List.mem_filter.mp member).1
  · rw [mem_parts_iff combination nodup, set]
    simp only [Finset.mem_powersetCard, and_assoc]

/-- What the last step does: it only adds to `MFC_identified`. -/
structure Derived (Found : Comb → Prop) (r after : AbstractFaultResolver) : Prop where
  Tpass : after.Tpass = r.Tpass
  Tfail : after.Tfail = r.Tfail
  t : after.t = r.t
  found : ∀ c, c ∈ after.MFC_identified ↔ c ∈ r.MFC_identified ∨ Found c

theorem deriveFrom_derived {s : Comb} {r after : AbstractFaultResolver}
    (runs : (deriveFrom combination s).Runs r ⟨⟩ after) : Derived (Smaller r.t s) r after := by
  have loop := Runs.of_forM (fun done now => Derived
      (fun c => ∃ d ∈ done, ∃ T ⊆ s.fixed, T.card = d ∧ s.restrict T = c) r now)
    (by
      intro done d rest state now split before step
      obtain ⟨smaller, listed, mem⟩ := smallerCombs_eq combination s d
      obtain ⟨smaller', listed', added⟩ := of_lift_bind step
      obtain rfl : smaller = smaller' := Except.ok.inj (listed.symm.trans listed')
      obtain rfl : identified state smaller = now := congrArg Prod.snd added
      refine ⟨before.Tpass, before.Tfail, before.t, fun c => ?_⟩
      simp only [identified, HashSet.mem_addAll, before.found, mem, List.mem_append,
        List.mem_singleton, or_and_right, exists_or, exists_eq_left, or_assoc])
    ⟨rfl, rfl, rfl, by simp⟩ (of_get_bind runs)
  refine ⟨loop.Tpass, loop.Tfail, loop.t, fun c => ?_⟩
  rw [loop.found]
  refine or_congr_right ⟨?_, ?_⟩
  · rintro ⟨d, listed, T, within, rfl, same⟩
    obtain ⟨low, high⟩ := List.mem_range'_1.mp listed
    exact ⟨T, within, low, by omega, same⟩
  · rintro ⟨T, within, low, high, same⟩
    exact ⟨T.card, List.mem_range'_1.mpr ⟨low, by omega⟩, T, within, rfl, same⟩

theorem deriveAll_derived {combs : List Comb} {r after : AbstractFaultResolver}
    (runs : (combs.forM (deriveFrom combination)).Runs r ⟨⟩ after) :
    Derived (fun c => ∃ s ∈ combs, Smaller r.t s c) r after := by
  refine Runs.of_forM (fun done now => Derived (fun c => ∃ s ∈ done, Smaller r.t s c) r now) ?_
    ⟨rfl, rfl, rfl, by simp⟩ runs
  intro done s rest state now split before step
  have more := deriveFrom_derived step
  refine ⟨more.Tpass.trans before.Tpass, more.Tfail.trans before.Tfail,
    more.t.trans before.t, ?_⟩
  intro c
  rw [more.found, before.found, before.t]
  simp only [List.mem_append, List.mem_singleton, or_and_right, exists_or, exists_eq_left, or_assoc]

end Derive

section Grow

/-- Every parameter has a value. -/
def Complete (t : Testcase) : Prop := t.fixed = Finset.range t.size

theorem ofComb_complete {c : Comb} {t : Testcase} (made : Testcase.ofComb c = .ok t) :
    Complete t := by
  unfold Testcase.ofComb at made
  split at made
  · cases made
  · rename_i known
    rw [← Except.ok.inj made]
    refine Finset.Subset.antisymm (Comb.fixed_subset_range _) fun i inside => ?_
    have bound : i < c.elements.length := Finset.mem_range.mp inside
    rw [Comb.mem_fixed]
    intro unknown
    refine known (List.any_eq_true.mpr ⟨c.elements[i], List.getElem_mem bound, ?_⟩)
    simpa [Comb.val, List.getD_eq_getElem?_getD, bound] using unknown

theorem generateOne_complete {components : Components doubles} {fuel : Nat} {chances rest : Chances}
    {comb : Comb} {t : Testcase}
    (made : generateNewTestcaseForOneSuspiciousComb components Tpass Tfail fuel chances comb =
      .ok (t, rest)) : Complete t := by
  obtain ⟨_, _, rest₁⟩ := Except.bind_ok.mp made
  obtain ⟨_, _, rest₂⟩ := Except.bind_ok.mp rest₁
  obtain ⟨newTestcase, _, rest₃⟩ := Except.bind_ok.mp rest₂
  split at rest₃
  · obtain ⟨⟨flipped, chances'⟩, _, rest₄⟩ := Except.bind_ok.mp rest₃
    dsimp only at rest₄
    obtain ⟨new, copied, same⟩ := Except.bind_ok.mp rest₄
    cases same
    exact ofComb_complete copied
  · obtain ⟨new, copied, same⟩ := Except.bind_ok.mp rest₃
    cases same
    exact ofComb_complete copied

theorem generateAll_complete {components : Components doubles} {fuel : Nat} {chances rest : Chances}
    {combs : List Comb} {tests : List Testcase}
    (made : generateNewTestcasesForAllSuspiciousCombs components Tpass Tfail fuel chances combs =
      .ok (tests, rest)) : ∀ t ∈ tests, Complete t := by
  obtain ⟨⟨set, left⟩, folded, walked⟩ := Except.bind_ok.mp made
  have all : ∀ t ∈ set, Complete t := by
    refine Except.foldlM_post
      (fun state : HashSet Comb × Chances => ∀ t ∈ state.1, Complete t) ?_ (by simp) folded
    rintro ⟨set, chances⟩ comb next inv step t member
    obtain ⟨⟨new, chances'⟩, one, same⟩ := Except.bind_ok.mp step
    cases same
    rcases HashSet.mem_add.mp member with old | rfl
    · exact inv t old
    · exact generateOne_complete one
  obtain rfl : (left.walks 0).walk set.toList = tests := congrArg Prod.fst (Except.ok.inj walked)
  intro t member
  exact all t ((left.walks 0).mem_walk.mp member)

/-- Running test cases sorts them by their verdicts. -/
structure Sorted (tests : List Testcase) (r after : AbstractFaultResolver) : Prop where
  judged : ∀ u ∈ tests, r.checker.verdict u = .ok true ∨ r.checker.verdict u = .ok false
  passed : ∀ u,
    u ∈ after.Tpass ↔ u ∈ r.Tpass ∨ u ∈ tests ∧ r.checker.verdict u = .ok true
  failed : ∀ u,
    u ∈ after.Tfail ↔ u ∈ r.Tfail ∨ u ∈ tests ∧ r.checker.verdict u = .ok false
  t : after.t = r.t
  verdict : after.checker.verdict = r.checker.verdict
  found : after.MFC_identified = r.MFC_identified

/-- The list of one of the verdicts, after a test case that has been judged. -/
theorem mem_sorted {tests : List Testcase} {verdict : Testcase → Except Exn Bool} {u : Testcase}
    {passed : Bool} (judged : verdict u = .ok passed) (flag : Bool) (x : Testcase) :
    x ∈ (if passed = flag then tests ++ [u] else tests) ↔
      x ∈ tests ∨ x ∈ [u] ∧ verdict x = .ok flag := by
  split
  · rename_i same
    rw [List.mem_append]
    apply or_congr_right
    constructor
    · intro single
      rw [List.mem_singleton.mp single, judged, same]
      exact ⟨List.mem_singleton_self u, rfl⟩
    · exact And.left
  · rename_i apart
    constructor
    · exact Or.inl
    · rintro (old | ⟨single, other⟩)
      · exact old
      · rw [List.mem_singleton.mp single, judged] at other
        exact absurd (Except.ok.inj other) apart

theorem runTestcase_sorted {u : Testcase} {r after : AbstractFaultResolver}
    (runs : (runTestcase u).Runs r ⟨⟩ after) : Sorted [u] r after := by
  obtain ⟨passed, middle, checked, rest⟩ := runs_bind.mp runs
  have judged := of_get_bind (of_modify_bind checked)
  obtain ⟨asked, rfl⟩ := runs_lift.mp judged
  have verdict : r.checker.verdict u = .ok passed := asked
  have single : ∀ x ∈ [u],
      r.checker.verdict x = .ok true ∨ r.checker.verdict x = .ok false := by
    intro x member
    rw [List.mem_singleton.mp member, verdict]
    cases passed with
    | true => exact Or.inl rfl
    | false => exact Or.inr rfl
  cases passed with
  | true =>
      obtain rfl := (congrArg Prod.snd rest : _ = after)
      exact ⟨single, mem_sorted verdict true, mem_sorted verdict false, rfl, rfl, rfl⟩
  | false =>
      obtain rfl := (congrArg Prod.snd rest : _ = after)
      exact ⟨single, mem_sorted verdict true, mem_sorted verdict false, rfl, rfl, rfl⟩

theorem runAll_sorted {tests : List Testcase} {r after : AbstractFaultResolver}
    (runs : (tests.forM runTestcase).Runs r ⟨⟩ after) : Sorted tests r after := by
  refine Runs.of_forM (fun done now => Sorted done r now) ?_
    ⟨by simp, by simp, by simp, rfl, rfl, rfl⟩ runs
  intro done u rest state now split before step
  have last := runTestcase_sorted step
  refine ⟨fun x member => ?_, fun x => ?_, fun x => ?_, last.t.trans before.t,
    last.verdict.trans before.verdict, last.found.trans before.found⟩
  · rcases List.mem_append.mp member with old | single
    · exact before.judged x old
    · rw [← before.verdict]
      exact last.judged x single
  · rw [last.passed, before.passed, before.verdict, List.mem_append, or_and_right, or_assoc]
  · rw [last.failed, before.failed, before.verdict, List.mem_append, or_and_right, or_assoc]

/-- What a round that goes on does: it sorts new test cases into `Tpass` and `Tfail`. -/
structure Grown (r after : AbstractFaultResolver) : Prop where
  passed : ∀ p ∈ after.Tpass, p ∈ r.Tpass ∨ r.checker.verdict p = .ok true
  failed : ∀ t ∈ after.Tfail, t ∈ r.Tfail ∨ Complete t
  kept : ∀ t ∈ r.Tfail, t ∈ after.Tfail
  t : after.t = r.t
  verdict : after.checker.verdict = r.checker.verdict
  found : after.MFC_identified = r.MFC_identified

theorem Grown.trans {r middle after : AbstractFaultResolver} (first : Grown r middle)
    (second : Grown middle after) : Grown r after where
  passed p member := by
    rcases second.passed p member with old | new
    · exact first.passed p old
    · rw [first.verdict] at new
      exact Or.inr new
  failed t member := (second.failed t member).elim (first.failed t) Or.inr
  kept t member := second.kept t (first.kept t member)
  t := second.t.trans first.t
  verdict := second.verdict.trans first.verdict
  found := second.found.trans first.found

theorem Sorted.grown {tests : List Testcase} {r after : AbstractFaultResolver}
    (sorted : Sorted tests r after) (complete : ∀ t ∈ tests, Complete t) : Grown r after where
  passed p member := ((sorted.passed p).mp member).imp_right And.right
  failed t member := ((sorted.failed t).mp member).imp_right fun new => complete t new.1
  kept t member := (sorted.failed t).mpr (Or.inl member)
  t := sorted.t
  verdict := sorted.verdict
  found := sorted.found

end Grow

section Conduct

variable {rating : Rating doubles} {fuel : Nat} {r after : AbstractFaultResolver}

/-- Ranking puts the combinations in another order. -/
theorem mem_rank {components : Components doubles} {combs ranked : List Comb}
    (done : rank components Tfail combs = .ok ranked) {c : Comb} :
    c ∈ ranked ↔ c ∈ combs := by
  unfold rank at done
  split at done
  · rw [← Except.ok.inj done]
  · obtain ⟨keyed, marked, sorted⟩ := Except.bind_ok.mp done
    rw [← Except.ok.inj sorted, List.mem_map]
    constructor
    · rintro ⟨pair, member, rfl⟩
      obtain ⟨comb, listed, step⟩ :=
        Except.mem_of_mapM marked ((List.perm_insertionSort _ _).mem_iff.mp member)
      obtain ⟨rho_c, _, step⟩ := Except.bind_ok.mp step
      obtain ⟨rho_e, _, step⟩ := Except.bind_ok.mp step
      rw [← Except.ok.inj step]
      exact listed
    · intro listed
      obtain ⟨pair, member, step⟩ := Except.ok_of_mapM marked listed
      obtain ⟨rho_c, _, step⟩ := Except.bind_ok.mp step
      obtain ⟨rho_e, _, step⟩ := Except.bind_ok.mp step
      refine ⟨pair, (List.perm_insertionSort _ _).mem_iff.mpr member, ?_⟩
      rw [← Except.ok.inj step]

/-- A round that goes on: it finds other combinations than the round before, and runs a test case
for each of them. -/
structure GoesOn (rating : Rating doubles) (fuel : Nat) (old : Option (HashSet Comb))
    (r : AbstractFaultResolver) (found : HashSet Comb) (tests : List Testcase) (rest : Chances)
    (after : AbstractFaultResolver) : Prop where
  mem : ∀ c, c ∈ found ↔ Suspicious r.t r.Tpass r.Tfail c
  nonempty : ∃ c, Suspicious r.t r.Tpass r.Tfail c
  sizes : ∀ before, old = some before → found.size ≠ before.size
  made : ∃ (components : Components doubles) (ranked : List Comb) (draws : Chances),
    rating r.Tpass r.Tfail found = .ok components ∧ (∀ c, c ∈ ranked ↔ c ∈ found) ∧
    generateNewTestcasesForAllSuspiciousCombs components r.Tpass r.Tfail fuel draws ranked =
      .ok (tests, rest)
  sorted : Sorted tests r after

/-- What one round can do: leave with nothing, leave with the parts of what is suspicious, or
go on. -/
theorem benRound_cases {old : Option (HashSet Comb)} {chances : Chances}
    {outcome : (Option (HashSet Comb) × Chances) ⊕ Unit}
    (runs : (benRoundWith rating combination fuel (old, chances)).Runs r outcome after) :
    (outcome = .inr () ∧
      Derived (fun c => ∃ s, Suspicious r.t r.Tpass r.Tfail s ∧ Smaller r.t s c) r after) ∨
    ∃ found tests rest, outcome = .inl (some found, rest) ∧
      GoesOn rating fuel old r found tests rest after := by
  obtain ⟨found, collected, runs⟩ := of_lift_bind (of_get_bind runs)
  have mem : ∀ c, c ∈ found ↔ Suspicious r.t r.Tpass r.Tfail c :=
    fun c => mem_getAllSuspiciousCombinations collected
  have walked : ∀ c, c ∈ (chances.walk found).1 ↔ c ∈ found :=
    fun c => (chances.walks 0).mem_walk
  split at runs
  · rename_i empty
    obtain ⟨rfl, same⟩ := runs_pure.mp runs
    subst after
    refine Or.inl ⟨rfl, rfl, rfl, rfl, fun c => ?_⟩
    have none : ∀ s, ¬ Suspicious r.t r.Tpass r.Tfail s := by
      intro s here
      have listed : s ∈ found.toList := (mem s).mpr here
      rw [List.isEmpty_iff.mp empty] at listed
      simp at listed
    simp [none]
  · rename_i filled
    split at runs
    · obtain ⟨_, middle, derived, ended⟩ := runs_bind.mp runs
      obtain ⟨rfl, rfl⟩ := runs_pure.mp ended
      obtain ⟨Tpass, Tfail, t, identified⟩ := deriveAll_derived derived
      refine Or.inl ⟨rfl, Tpass, Tfail, t, fun c => ?_⟩
      rw [identified]
      simp only [walked, mem]
    · rename_i sizes
      obtain ⟨components, rated, runs⟩ := of_lift_bind runs
      obtain ⟨ranked, sorted, runs⟩ := of_lift_bind runs
      obtain ⟨⟨tests, rest⟩, generated, runs⟩ := of_lift_bind runs
      obtain ⟨_, middle, ran, ended⟩ := runs_bind.mp runs
      obtain ⟨rfl, rfl⟩ := runs_pure.mp ended
      refine Or.inr ⟨found, tests, rest, rfl, mem, ?_, ?_, ?_, runAll_sorted ran⟩
      · obtain ⟨c, listed⟩ := List.exists_mem_of_ne_nil found.toList fun empty => filled (by
          rw [HashSet.isEmpty, empty]
          rfl)
        exact ⟨c, (mem c).mp listed⟩
      · rintro before rfl
        simpa using sizes
      · exact ⟨components, ranked, _, rated, fun c => (mem_rank sorted).trans (walked c),
          generated⟩

/-- How a run ends: it has identified the parts of what its last test cases leave suspicious. -/
structure Ended (r after : AbstractFaultResolver) : Prop where
  passed : ∀ p ∈ after.Tpass, p ∈ r.Tpass ∨ r.checker.verdict p = .ok true
  failed : ∀ t ∈ after.Tfail, t ∈ r.Tfail ∨ Complete t
  kept : ∀ t ∈ r.Tfail, t ∈ after.Tfail
  found : ∀ c, c ∈ after.MFC_identified ↔
    ∃ s, Suspicious r.t after.Tpass after.Tfail s ∧ Smaller r.t s c

/-- A first `conduct` is the loop of its rounds. -/
theorem rounds_of_conduct {chances : Chances} (first : r.conducted = false)
    (runs : (conductWith rating combination fuel chances).Runs r ⟨⟩ after) :
    (iterate Exn.outOfFuel (benRoundWith rating combination fuel) fuel (none, chances)).Runs
      { r with conducted := true } ⟨⟩ after := by
  have asked := of_get_bind runs
  rw [if_neg (by rw [first]; decide)] at asked
  exact of_modify_bind asked

theorem conduct_ends {chances : Chances} (first : r.conducted = false)
    (empty : r.MFC_identified = HashSet.empty)
    (runs : (conductWith rating combination fuel chances).Runs r ⟨⟩ after) : Ended r after := by
  have loop := rounds_of_conduct first runs
  refine Runs.of_iterate (fun _ now => Grown r now) (fun _ final => Ended r final) ?_ ?_ ?_ loop
  · intro current state next now grown round
    rcases benRound_cases round with ⟨impossible, _⟩ | ⟨_, _, _, _, goes⟩
    · cases impossible
    · obtain ⟨_, _, _, _, _, made⟩ := goes.made
      exact grown.trans (goes.sorted.grown (generateAll_complete made))
  · intro current state result final grown round
    rcases benRound_cases round with ⟨_, derived⟩ | ⟨_, _, _, impossible, _⟩
    · refine ⟨?_, ?_, ?_, fun c => ?_⟩
      · rw [derived.Tpass]
        exact grown.passed
      · rw [derived.Tfail]
        exact grown.failed
      · rw [derived.Tfail]
        exact grown.kept
      · rw [derived.found, grown.found, empty, derived.Tpass, derived.Tfail, grown.t]
        simp
    · cases impossible
  · exact ⟨fun _ old => Or.inl old, fun _ old => Or.inl old, fun _ old => old, rfl, rfl, rfl⟩

variable {n : Nat} {MFC_real : List Comb} {M : Comb} {u : Testcase}

/-- A fault of an initial failing test case has a suspicious part around it to the end. -/
theorem Ended.suspicious (ended : Ended r after) (high : r.t ≤ n)
    (verdict : r.checker.verdict = Checker.judge MFC_real)
    (passing : ∀ p ∈ r.Tpass, Checker.judge MFC_real p = .ok true) (member : M ∈ MFC_real)
    (few : M.fixed.card ≤ r.t) (listed : u ∈ r.Tfail) (binary : u.Binary n)
    (inside : u.Contains M) :
    ∃ s, Suspicious r.t after.Tpass after.Tfail s ∧ s.Contains M := by
  refine exists_suspicious (ended.kept u listed) (by rw [binary.size]; exact high) few inside ?_
  intro p there
  have passes : Checker.judge MFC_real p = .ok true := by
    rcases ended.passed p there with old | new
    · exact passing p old
    · rwa [verdict] at new
  exact Checker.judge_passed passes M member

/-- A run that has ended holds every small fault of its first failing test cases. -/
theorem Ended.finds (ended : Ended r after) (high : r.t ≤ n)
    (verdict : r.checker.verdict = Checker.judge MFC_real)
    (passing : ∀ p ∈ r.Tpass, Checker.judge MFC_real p = .ok true) (member : M ∈ MFC_real)
    (cls : M.cls = .comb) (low : M.fixed.Nonempty) (few : M.fixed.card ≤ r.t)
    (listed : u ∈ r.Tfail) (binary : u.Binary n) (inside : u.Contains M) :
    M ∈ after.MFC_identified := by
  obtain ⟨s, suspicious, contains⟩ :=
    ended.suspicious high verdict passing member few listed binary inside
  exact (ended.found M).mpr ⟨s, suspicious, M.fixed, contains.fixed_subset,
    Finset.card_pos.mpr low, few, Comb.restrict_fixed_eq cls contains⟩

end Conduct

section Results

variable {n t fuel : Nat} {MFC_real : List Comb} {random : Nat → Bool} {chances : Chances}
  {new after : AbstractFaultResolver}

/-- Every fault of at most `t` parameters that an initial failing test case contains is
identified, if the run returns. -/
theorem conduct_finds_all (high : t ≤ n)
    (passing : ∀ p ∈ Tpass, p.Binary n ∧ Checker.judge MFC_real p = .ok true)
    (failing : Failing n MFC_real Tfail)
    (created : AbstractFaultResolver.create (Checker.ofMFS MFC_real) Tpass Tfail random = .ok new)
    (runs : (conduct doubles combination fuel chances).Runs (new.setT t) ⟨⟩ after) :
    ∀ M ∈ MFC_real, M.cls = .comb → 1 ≤ M.fixed.card → M.fixed.card ≤ t →
      (∃ u ∈ Tfail, u.Contains M) → M ∈ after.MFC_identified := by
  rintro M member cls low small ⟨u, initial, inside⟩
  obtain ⟨_, rfl⟩ := create_eq created
  exact (conduct_ends rfl rfl runs).finds high rfl (fun p there => (passing p there).2) member cls
    (Finset.card_pos.mp low) small initial (failing u initial).1 inside

/-- A fault of one parameter, found by a run for pairs. -/
theorem conduct_finds_all_pairs : ∃ new after,
    AbstractFaultResolver.create (Checker.ofMFS [⟨.comb, [1, -1]⟩]) [⟨.testcase, [0, 1]⟩]
      [⟨.testcase, [1, 1]⟩] (fun _ => false) = .ok new ∧
    (conduct .rationals .sublists 3 ⟨fun _ => 0, fun _ => .insertion⟩).Runs
      (new.setT 2) ⟨⟩ after ∧
    (⟨.comb, [1, -1]⟩ : Comb) ∈ after.MFC_identified := by
  have created : AbstractFaultResolver.create (Checker.ofMFS [⟨.comb, [1, -1]⟩])
    [⟨.testcase, [0, 1]⟩] [⟨.testcase, [1, 1]⟩] (fun _ => false) = .ok _ := rfl
  refine ⟨_, _, created, Runs.of_returns _ rfl, conduct_finds_all (n := 2) (by decide) (by decide)
    (by decide) created (Runs.of_returns _ rfl) _ (by simp) rfl (by decide) (by decide) ?_⟩
  exact ⟨⟨.testcase, [1, 1]⟩, by simp, by decide⟩

end Results

end BenFaultResolver

end NoPend
