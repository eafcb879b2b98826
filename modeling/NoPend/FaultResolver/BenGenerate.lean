import NoPend.FaultResolver.BenExact

set_option autoImplicit false

/- The test cases that `BenFaultResolver` generates. A `MutableTestcase` equals no test case of
`Tpass` and `Tfail`, so the loop that looks for an untested one is never entered. -/
namespace NoPend

open AbstractFaultResolver Proc

namespace BenFaultResolver

variable {doubles : Doubles} {combination : Combination} {n : Nat} {Tpass Tfail : List Testcase}

section Completion

/-- The suspicious combination with a value for every parameter that it leaves open. -/
def completion (components : Components doubles) (c : Comb) : Testcase :=
  ⟨.testcase, (List.range c.size).map fun i =>
    if c.val i = Comb.UNKNOWN then chooseValue components i else c.val i⟩

variable {components : Components doubles} {c : Comb}

theorem chooseValue_binary (components : Components doubles) (i : Nat) :
    chooseValue components i = 0 ∨ chooseValue components i = 1 := by
  unfold chooseValue
  split
  · exact Or.inr rfl
  · exact Or.inl rfl
  · split
    · exact Or.inr rfl
    · exact Or.inl rfl

theorem completion_binary (wf : c.Over n) : (completion components c).Binary n := by
  have size : (completion components c).size = n := (Comb.size_tabulate _ _ _).trans wf.size
  refine ⟨size, fun i inside => ?_⟩
  rw [completion, Comb.val_tabulate _ _ (by rw [wf.size]; exact inside)]
  split
  · exact chooseValue_binary components i
  · rename_i known
    rcases wf.values i inside with zero | one | unknown
    · exact Or.inl zero
    · exact Or.inr one
    · exact absurd unknown known

theorem completion_contains (components : Components doubles) (c : Comb) :
    (completion components c).Contains c := by
  have size : (completion components c).size = c.size := Comb.size_tabulate _ _ _
  refine ⟨size, fun i inside => ?_⟩
  rw [completion, Comb.val_tabulate _ _ (by rw [← size]; exact inside)]
  split
  · rename_i unknown
    exact Or.inr unknown
  · exact Or.inl rfl

/-- The combination while the loop over its parameters runs. -/
def partlyFilled (components : Components doubles) (c : Comb) (done : List Nat) : Comb :=
  ⟨.mutableComb, (List.range c.size).map fun i =>
    if c.val i = Comb.UNKNOWN ∧ i ∈ done then chooseValue components i else c.val i⟩

theorem fill_step (components : Components doubles) (c : Comb) (done : List Nat) {i : Nat}
    (inside : i < c.size) :
    (if (partlyFilled components c done).val i = Comb.UNKNOWN then
      (partlyFilled components c done).set i (chooseValue components i)
    else .ok (partlyFilled components c done)) = .ok (partlyFilled components c (done ++ [i])) := by
  have value : (partlyFilled components c done).val i =
      if c.val i = Comb.UNKNOWN ∧ i ∈ done then chooseValue components i else c.val i :=
    Comb.val_tabulate _ _ inside
  have chosen : chooseValue components i ≠ Comb.UNKNOWN := by
    rcases chooseValue_binary components i with zero | one
    · rw [zero]
      decide
    · rw [one]
      decide
  rw [value]
  by_cases fresh : c.val i = Comb.UNKNOWN ∧ i ∉ done
  · rw [if_pos (by simp [fresh]), partlyFilled, Comb.set_tabulate inside, partlyFilled]
    congr 3
    funext j
    by_cases here : j = i
    · subst here
      simp [fresh]
    · simp [here]
  · rw [if_neg, partlyFilled, partlyFilled]
    · congr 3
      funext j
      by_cases here : j = i
      · subst here
        by_cases unknown : c.val j = Comb.UNKNOWN
        · have before : j ∈ done := by
            by_contra later
            exact fresh ⟨unknown, later⟩
          simp [before]
        · simp [unknown]
      · simp [here]
    · split
      · exact chosen
      · rename_i pending
        intro unknown
        exact fresh ⟨unknown, fun before => pending ⟨unknown, before⟩⟩

/-- The loop over the parameters fills the open ones. -/
theorem fill_eq (components : Components doubles) (c : Comb) :
    (List.range c.size).foldlM (fun (newComb : Comb) i =>
      if newComb.val i = Comb.UNKNOWN then newComb.set i (chooseValue components i)
      else .ok newComb) (⟨.mutableComb, c.elements⟩ : Comb) =
        (.ok ⟨.mutableComb, (completion components c).elements⟩ : Except Exn Comb) := by
  have start : (⟨.mutableComb, c.elements⟩ : Comb) = partlyFilled components c [] := by
    refine Comb.ext ?_ (Comb.size_tabulate _ _ _).symm fun i inside => ?_
    · rfl
    · have bound : i < c.size := inside
      rw [partlyFilled, Comb.val_tabulate _ _ bound, if_neg (by simp)]
      rfl
  obtain ⟨_, run, rfl⟩ := Except.foldlM_inv (ε := Exn) (fun (newComb : Comb) i =>
      if newComb.val i = Comb.UNKNOWN then newComb.set i (chooseValue components i)
        else .ok newComb)
    (fun done newComb => newComb = partlyFilled components c done) (List.range c.size)
    (by
      rintro done i _ member rfl
      exact ⟨_, fill_step components c done (List.mem_range.mp member), rfl⟩)
    _ start
  rw [run, partlyFilled, completion]
  congr 2
  apply List.map_congr_left
  intro i member
  simp only [member, and_true]

/-- No object of class `Testcase` equals the `MutableTestcase` that is looked up. -/
theorem contains_mutable {tests : List Testcase} (cls : ∀ u ∈ tests, u.cls = .testcase)
    (elements : List Int) :
    tests.contains (⟨.mutableTestcase, elements⟩ : Testcase) = false := by
  rw [List.contains_eq_mem, decide_eq_false_iff_not]
  intro member
  cases cls _ member

/-- Whatever has been run, the completion is returned and nothing is drawn. -/
theorem generate_eq (components : Components doubles) (wf : c.Over n)
    (passing : ∀ u ∈ Tpass, u.cls = .testcase) (failing : ∀ u ∈ Tfail, u.cls = .testcase)
    (fuel : Nat) (chances : Chances) :
    generateNewTestcaseForOneSuspiciousComb components Tpass Tfail fuel chances c =
      .ok (completion components c, chances) := by
  have binary : (completion components c).Binary n := completion_binary wf
  have known := binary.known
  have accepted : MutableComb.ofComb c = .ok ⟨.mutableComb, c.elements⟩ := by
    apply Comb.validated_ok
    intro v member
    obtain ⟨i, bound, rfl⟩ := List.getElem_of_mem member
    have value := wf.valid.values i (wf.size ▸ bound)
    simpa [Comb.val, bound] using value
  have size : (⟨.mutableComb, c.elements⟩ : Comb).size = c.size := rfl
  rw [generateNewTestcaseForOneSuspiciousComb, accepted]
  simp only [bind, Except.bind, size, fill_eq, MutableTestcase.ofComb, if_neg known,
    contains_mutable passing, contains_mutable failing, Bool.or_self, Bool.false_eq_true, if_false,
      Testcase.ofComb, pure,
    Except.pure]
  rfl

end Completion

section Runs

/-- What `conduct` keeps of its test cases: they are objects of class `Testcase`, binary, of
size `n`. -/
def Tests (n : Nat) (tests : List Testcase) : Prop :=
    ∀ u ∈ tests, u.cls = .testcase ∧ u.Binary n

theorem Suspicious.wf {t : Nat} {c : Comb} (failing : Tests n Tfail)
    (suspicious : Suspicious t Tpass Tfail c) : c.Over n ∧ c.cls = .comb := by
  obtain ⟨⟨u, member, S, _, rfl⟩, _⟩ := suspicious
  obtain ⟨_, binary⟩ := failing u member
  refine ⟨⟨by rw [Comb.restrict_size, binary.size], fun i inside => ?_⟩, rfl⟩
  rw [Comb.restrict_val]
  split
  · rcases binary.values i inside with zero | one
    · exact Or.inl zero
    · exact Or.inr (Or.inl one)
  · exact Or.inr (Or.inr rfl)

/-- One test case is generated for every combination, equal ones once. -/
theorem generateAll_eq (components : Components doubles) {combs : List Comb}
    (wf : ∀ c ∈ combs, c.Over n) (passing : Tests n Tpass) (failing : Tests n Tfail)
    (fuel : Nat) (chances : Chances) :
    ∃ tests rest,
      generateNewTestcasesForAllSuspiciousCombs components Tpass Tfail fuel chances combs =
      .ok (tests, rest) ∧
      ∀ t, t ∈ tests ↔ ∃ c ∈ combs, completion components c = t := by
  obtain ⟨⟨set, left⟩, run, mem⟩ := Except.foldlM_inv (ε := Exn)
    (fun (state : HashSet Comb × Chances) suspiciousComb => do
      let made ← generateNewTestcaseForOneSuspiciousComb components Tpass Tfail fuel state.2
        suspiciousComb
      return (state.1.add made.1, made.2))
    (fun done state => ∀ t, t ∈ state.1 ↔ ∃ c ∈ done, completion components c = t) combs
    (by
      rintro done c ⟨set, chances⟩ member mem
      refine ⟨(set.add (completion components c), chances), ?_, fun t => ?_⟩
      · rw [generate_eq components (wf c member) (fun u there => (passing u there).1)
          (fun u there => (failing u there).1)]
        rfl
      · rw [HashSet.mem_add, mem, eq_comm (a := t)]
        simp only [List.mem_append, List.mem_singleton, or_and_right, exists_or, exists_eq_left])
    ((HashSet.empty : HashSet Comb), chances) (by simp)
  refine ⟨(left.walk set).1, (left.walk set).2, ?_, fun t => ?_⟩
  · rw [generateNewTestcasesForAllSuspiciousCombs, run]
    rfl
  · rw [Chances.walk, (left.walks 0).mem_walk, HashSet.mem_toList, mem]

variable {rating : Rating doubles} {t fuel : Nat} {r after : AbstractFaultResolver}

/-- What a round that goes on does: it finds other suspicious combinations than the round before,
and runs their completions. -/
theorem benRound_next {old : Option (HashSet Comb)} {chances : Chances}
    {next : Option (HashSet Comb) × Chances} (passing : Tests n r.Tpass)
    (failing : Tests n r.Tfail)
    (runs : (benRoundWith rating combination fuel (old, chances)).Runs r (.inl next) after) :
    ∃ (found : HashSet Comb) (components : Components doubles) (tests : List Testcase),
      rating r.Tpass r.Tfail found = .ok components ∧ next.1 = some found ∧
      (∀ c, c ∈ found ↔ Suspicious r.t r.Tpass r.Tfail c) ∧
      (∀ before, old = some before → found.size ≠ before.size) ∧
      (∀ u, u ∈ tests ↔ ∃ c,
        Suspicious r.t r.Tpass r.Tfail c ∧ completion components c = u) ∧
      Sorted tests r after := by
  rcases benRound_cases runs with ⟨impossible, _⟩ | ⟨found, tests, rest, same, goes⟩
  · cases impossible
  · obtain ⟨components, ranked, draws, rated, listed, made⟩ := goes.made
    have wf : ∀ c ∈ ranked, c.Over n := by
      intro c member
      exact (((goes.mem c).mp ((listed c).mp member)).wf failing).1
    obtain ⟨tests', rest', made', mem'⟩ :=
      generateAll_eq components wf passing failing fuel draws
    cases made.symm.trans made'
    refine ⟨found, components, tests, rated, ?_, goes.mem, goes.sizes, fun u => ?_, goes.sorted⟩
    · rw [Sum.inl.inj same]
    · simp only [mem', listed, goes.mem]

theorem Tests.grown {before added after : List Testcase} {P : Testcase → Prop}
    (old : Tests n before) (new : Tests n added)
    (mem : ∀ u, u ∈ after ↔ u ∈ before ∨ u ∈ added ∧ P u) : Tests n after := by
  intro u member
  rcases (mem u).mp member with there | ⟨there, _⟩
  · exact old u there
  · exact new u there

/-- The tests stay what they are over a round. -/
theorem Sorted.tests {tests : List Testcase} (sorted : Sorted tests r after) (new : Tests n tests)
    (passing : Tests n r.Tpass) (failing : Tests n r.Tfail) :
    Tests n after.Tpass ∧ Tests n after.Tfail :=
  ⟨passing.grown new sorted.passed, failing.grown new sorted.failed⟩

theorem completions_tests {components : Components doubles} {tests : List Testcase}
    (failing : Tests n Tfail)
    (mem : ∀ u, u ∈ tests ↔ ∃ c,
      Suspicious t Tpass Tfail c ∧ completion components c = u) :
    Tests n tests := by
  intro u member
  obtain ⟨c, suspicious, rfl⟩ := (mem u).mp member
  exact ⟨rfl, completion_binary (suspicious.wf failing).1⟩

/-- Before every round of a run that starts with such tests. -/
theorem rounds_tests {first current : Option (HashSet Comb) × Chances}
    {state : AbstractFaultResolver} (passing : Tests n r.Tpass) (failing : Tests n r.Tfail)
    (reached : Rounds (benRoundWith rating combination fuel) first r current state) :
    Tests n state.Tpass ∧ Tests n state.Tfail ∧ state.t = r.t ∧
      state.checker.verdict = r.checker.verdict := by
  induction reached with
  | start => exact ⟨passing, failing, rfl, rfl⟩
  | next _ round ih =>
      obtain ⟨passing, failing, t, verdict⟩ := ih
      obtain ⟨found, components, tests, _, _, _, _, generated, sorted⟩ :=
        benRound_next passing failing round
      obtain ⟨passing', failing'⟩ :=
        sorted.tests (completions_tests failing generated) passing failing
      exact ⟨passing', failing', sorted.t.trans t, sorted.verdict.trans verdict⟩

end Runs

section Untested

/-- The values of a test case that has been run. -/
def HasRun (Tpass Tfail : List Testcase) (u : Testcase) : Prop :=
  ∃ v ∈ Tpass ++ Tfail, v.elements = u.elements

instance (Tpass Tfail : List Testcase) (u : Testcase) : Decidable (HasRun Tpass Tfail u) :=
  inferInstanceAs (Decidable (∃ v ∈ Tpass ++ Tfail, v.elements = u.elements))

/-- The completion with one parameter flipped that the combination leaves open. -/
def Neighbour (components : Components doubles) (c : Comb) (u : Testcase) : Prop :=
  ∃ i < c.size,
    c.val i = Comb.UNKNOWN ∧ MutableTestcase.flip (completion components c) i = .ok u

variable {t fuel retries : Nat} {checker : Checker} {random : Nat → Bool}
  {chances draws rest : Chances}
  {new state : AbstractFaultResolver} {current : Option (HashSet Comb) × Chances} {c : Comb}
  {generated : Testcase}

/-- In every state of a run, a new test case is generated wherever a neighbour of the completion
is new, if and only if the completion is new or has no new neighbour. -/
theorem generate_untested_iff (passing : Tests n Tpass) (failing : Tests n Tfail)
    (created : AbstractFaultResolver.create checker Tpass Tfail random = .ok new)
    (reached : Rounds (benRound doubles combination fuel) (none, chances)
      { new.setT t with conducted := true } current state)
    (suspicious : Suspicious t state.Tpass state.Tfail c) (components : Components doubles)
    (runs : generateNewTestcaseForOneSuspiciousComb components state.Tpass state.Tfail
      retries draws c =
      .ok (generated, rest)) :
    generated.Contains c ∧
      (((∃ u, Neighbour components c u ∧ ¬ HasRun state.Tpass state.Tfail u) →
          ¬ HasRun state.Tpass state.Tfail generated) ↔
        ¬ HasRun state.Tpass state.Tfail (completion components c) ∨
          ∀ u, Neighbour components c u → HasRun state.Tpass state.Tfail u) := by
  obtain ⟨_, rfl⟩ := create_eq created
  obtain ⟨passing', failing', _⟩ := rounds_tests passing failing reached
  have made := generate_eq components (suspicious.wf failing').1
    (fun u member => (passing' u member).1) (fun u member => (failing' u member).1) retries draws
  rw [runs] at made
  cases made
  refine ⟨completion_contains components c, ?_, ?_⟩
  · intro claimed
    by_cases run : HasRun state.Tpass state.Tfail (completion components c)
    · refine Or.inr fun u neighbour => ?_
      by_contra untested
      exact claimed ⟨u, neighbour, untested⟩ run
    · exact Or.inl run
  · rintro (untested | all) ⟨u, neighbour, other⟩
    · exact untested
    · exact absurd (all u neighbour) other

/-- A map without the value 1 of the open parameter: the completion takes the value 0. -/
theorem generate_untested_iff_first : ∃ components : Components .rationals, ∃ generated rest,
    generateNewTestcaseForOneSuspiciousComb components [⟨.testcase, [0, 1]⟩]
      [⟨.testcase, [1, 1]⟩] 0
      ⟨fun _ => 0, fun _ => .insertion⟩ ⟨.comb, [1, -1]⟩ = .ok (generated, rest) ∧
    generated.Contains ⟨.comb, [1, -1]⟩ ∧
    ((∃ u, Neighbour components ⟨.comb, [1, -1]⟩ u ∧
        ¬ HasRun [⟨.testcase, [0, 1]⟩] [⟨.testcase, [1, 1]⟩] u) →
      ¬ HasRun [⟨.testcase, [0, 1]⟩] [⟨.testcase, [1, 1]⟩] generated) := by
  have suspicious : Suspicious 1 [⟨.testcase, [0, 1]⟩] [⟨.testcase, [1, 1]⟩]
      ⟨.comb, [1, -1]⟩ :=
    ⟨⟨_, List.mem_singleton_self _, {0}, by decide, rfl⟩, by decide⟩
  have made : generateNewTestcaseForOneSuspiciousComb
      (Components.put (fun _ => none) ⟨1, 0⟩ (Doubles.rationals.ofInt 0))
        [⟨.testcase, [0, 1]⟩]
      [⟨.testcase, [1, 1]⟩] 0 ⟨fun _ => 0, fun _ => .insertion⟩ ⟨.comb, [1, -1]⟩ =
        .ok _ := rfl
  have exactly := generate_untested_iff (n := 2) (by unfold Tests; decide) (by unfold Tests; decide)
    (show AbstractFaultResolver.create (Checker.ofMFS [⟨.comb, [1, -1]⟩])
      [⟨.testcase, [0, 1]⟩] [⟨.testcase, [1, 1]⟩] (fun _ => false) = .ok _ from rfl)
    (.start : Rounds (benRound .rationals .sublists 0) (none, ⟨fun _ => 0, fun _ => .insertion⟩)
      _ _ _)
    suspicious _ made
  exact ⟨_, _, _, made, exactly.1, exactly.2.mpr (.inl (by decide))⟩

/-- The first round of a run for single parameters: with the map that the round computes, the
failing test case is generated and run again, although its neighbour has not been run. -/
theorem generate_repeats : ∃ new found components rest next after,
    AbstractFaultResolver.create (Checker.ofMFS [⟨.comb, [1, -1]⟩]) [⟨.testcase, [0, 1]⟩]
      [⟨.testcase, [1, 1]⟩] (fun _ => false) = .ok new ∧
    getAllSuspiciousCombinations .sublists 1 new.Tpass new.Tfail = .ok found ∧
    (⟨.comb, [1, -1]⟩ : Comb) ∈ found ∧
    computeSuspiciousnessForAllComponents new.Tpass new.Tfail found =
      .ok (components : Components .rationals) ∧
    generateNewTestcaseForOneSuspiciousComb components new.Tpass new.Tfail 0
      ⟨fun _ => 0, fun _ => .insertion⟩ ⟨.comb, [1, -1]⟩ = .ok
        (⟨.testcase, [1, 1]⟩, rest) ∧
    HasRun new.Tpass new.Tfail ⟨.testcase, [1, 1]⟩ ∧
    (∃ u, Neighbour components ⟨.comb, [1, -1]⟩ u ∧ ¬ HasRun new.Tpass new.Tfail u) ∧
    (benRound .rationals .sublists 0 (none, ⟨fun _ => 0, fun _ => .insertion⟩)).Runs
      { new.setT 1 with conducted := true } (.inl next) after ∧
    after.Tfail = [⟨.testcase, [1, 1]⟩, ⟨.testcase, [1, 1]⟩] := by
  refine ⟨_, _, _, _, _, _, rfl, rfl, by decide, rfl, rfl, by decide, ?_,
    Runs.of_returns _ rfl, rfl⟩
  exact ⟨⟨.testcase, [1, 0]⟩, ⟨1, by decide, rfl, rfl⟩, by decide⟩

end Untested

end BenFaultResolver

end NoPend
