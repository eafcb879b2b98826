import NoPend.FaultResolver.BenGenerate

set_option autoImplicit false

/- The loop of `BenFaultResolver` ends. Every round returns; one that runs no new values finds
the same suspicious combinations again in the next round, which then leaves the loop. -/
namespace NoPend

open AbstractFaultResolver Proc

namespace BenFaultResolver

variable {doubles : Doubles} {combination : Combination} {n t : Nat} {Tpass Tfail : List Testcase}

section Suspiciousness

theorem isCurrentlyHealthy_eq (passing : Tests n Tpass) {c : Comb} (size : c.size = n) :
    isCurrentlyHealthy Tpass c = .ok (Tpass.any fun p => decide (p.Contains c)) := by
  apply Except.anyM_ok
  intro p member
  exact Comb.contains_eq ((passing p member).2.size.trans size.symm)

theorem getAllSuspiciousCombinations_ok (combination : Combination) (passing : Tests n Tpass)
    (failing : Tests n Tfail) (high : t ≤ n) (capacity : 0 ≤ wrap (n.choose t)) :
    ∃ found, getAllSuspiciousCombinations combination t Tpass Tfail = .ok found := by
  obtain ⟨parts, collected, sizes⟩ := Except.foldlM_inv (ε := Exn)
    (fun (res : HashSet Comb) tfail => do
      return res.addAll (← Testcase.tWayComb combination tfail t))
    (fun _ res => ∀ c ∈ res, c.size = n) Tfail
    (by
      intro done u res member sizes
      have binary := (failing u member).2
      have listed := tWayComb_of_capacity combination binary.size
        (Combinatorics.n_choose_k_eq high) capacity
      refine ⟨_, by rw [listed]; rfl, fun c inside => ?_⟩
      rcases HashSet.mem_addAll.mp inside with old | part
      · exact sizes c old
      · obtain ⟨ys, _, rfl⟩ := List.mem_map.mp part
        rw [Comb.restrict_size, binary.size])
    HashSet.empty (by simp)
  obtain ⟨found, kept, _⟩ :=
    HashSet.removeIf_ok (fun c => Tpass.any fun p => decide (p.Contains c))
      fun c member => isCurrentlyHealthy_eq passing (sizes c member)
  exact ⟨found, by rw [getAllSuspiciousCombinations, collected]; exact kept⟩

theorem countComponent_ok (doubles : Doubles) {combs : List Comb}
    (sizes : ∀ c ∈ combs, c.size = n)
    {component : Component} (inside : component.parameter < n) :
    ∃ num, countComponent doubles component combs = .ok num := by
  apply Except.foldlM_total
  intro c member num
  rw [Comb.get_eq_val (by rw [sizes c member]; exact inside)]
  simp only [bind, Except.bind, pure, Except.pure]
  split
  · exact ⟨_, rfl⟩
  · exact ⟨_, rfl⟩

variable {found : HashSet Comb}

theorem computeOne_ok (passing : Tests n Tpass) (failing : Tests n Tfail)
    (sizes : ∀ c ∈ found, c.size = n) (components : Components doubles) (component : Component)
    (inside : component.parameter < n) :
    ∃ suspiciousness,
      computeSuspiciousnessForOneComponent Tpass Tfail found components component =
      .ok suspiciousness := by
  unfold computeSuspiciousnessForOneComponent
  cases components component with
  | some suspiciousness => exact ⟨suspiciousness, rfl⟩
  | none =>
      obtain ⟨inTfail, first⟩ := countComponent_ok doubles
        (fun u member => (failing u member).2.size) inside
      obtain ⟨inTpass, second⟩ := countComponent_ok doubles
        (fun u member => (passing u member).2.size) inside
      obtain ⟨inFound, third⟩ := countComponent_ok doubles sizes inside
      simp only [first, second, third, bind, Except.bind, pure, Except.pure]
      exact ⟨_, rfl⟩

/-- The map has every component of the test case. -/
def Covers (n : Nat) (components : Components doubles) (u : Testcase) : Prop :=
  ∀ i < n, components ⟨i, u.val i⟩ ≠ none

theorem put_ne_none {components : Components doubles} {x y : Component} {value : doubles.Value} :
    components.put x value y ≠ none ↔ components y ≠ none ∨ y = x := by
  unfold Components.put
  split
  · rename_i same
    simp [same]
  · rename_i other
    simp [other]

/-- The loop over one test case forgets nothing and adds just its components. -/
theorem computeIn_ok (passing : Tests n Tpass) (failing : Tests n Tfail)
    (sizes : ∀ c ∈ found, c.size = n) (components : Components doubles) {u : Testcase}
    (binary : u.Binary n) :
    ∃ after, computeSuspiciousnessIn Tpass Tfail found components u = .ok after ∧
      (∀ x, components x ≠ none → after x ≠ none) ∧ Covers n after u ∧
      ∀ x, after x ≠ none → components x ≠ none ∨ u.val x.parameter = x.value := by
  obtain ⟨after, run, grows, covered, only⟩ := Except.foldlM_inv (ε := Exn)
    (fun (components : Components doubles) i => do
      let component : Component := ⟨i, u.val i⟩
      let suspiciousness ← computeSuspiciousnessForOneComponent Tpass Tfail found
        components component
      return components.put component suspiciousness)
    (fun done after => (∀ x, components x ≠ none → after x ≠ none) ∧
      (∀ i ∈ done, after ⟨i, u.val i⟩ ≠ none) ∧
      ∀ x, after x ≠ none → components x ≠ none ∨ u.val x.parameter = x.value)
        (List.range u.size)
    (by
      rintro done i current member ⟨grows, covered, only⟩
      have inside : i < n := by
        rw [← binary.size]
        exact List.mem_range.mp member
      obtain ⟨suspiciousness, one⟩ :=
        computeOne_ok passing failing sizes current ⟨i, u.val i⟩ inside
      refine ⟨_, by simp only [one]; rfl, fun x known => put_ne_none.mpr (.inl (grows x known)),
        ?_, ?_⟩
      · intro j listed
        rcases List.mem_append.mp listed with old | last
        · exact put_ne_none.mpr (.inl (covered j old))
        · rw [List.mem_singleton.mp last]
          exact put_ne_none.mpr (.inr rfl)
      · intro x known
        rcases put_ne_none.mp known with old | rfl
        · exact only x old
        · exact Or.inr rfl)
    components ⟨fun _ known => known, by simp, fun _ known => Or.inl known⟩
  refine ⟨after, run, grows, fun i inside => covered i ?_, only⟩
  rw [List.mem_range, binary.size]
  exact inside

/-- A rating has a value for the components of the test cases, and for no others. -/
def Rates (n : Nat) (rating : Rating doubles) : Prop :=
  ∀ (Tpass Tfail : List Testcase) (found : HashSet Comb), Tests n Tpass → Tests n Tfail →
    (∀ c ∈ found, c.size = n) → ∃ components, rating Tpass Tfail found = .ok components ∧
      ∀ i < n, ∀ value, components ⟨i, value⟩ ≠ none ↔ ∃ u ∈ Tfail ++ Tpass,
        u.val i = value

theorem Rates.covers {rating : Rating doubles} (rates : Rates n rating) (passing : Tests n Tpass)
    (failing : Tests n Tfail) (sizes : ∀ c ∈ found, c.size = n) :
    ∃ components, rating Tpass Tfail found = .ok components ∧ ∀ u ∈ Tfail,
      Covers n components u := by
  obtain ⟨components, rated, known⟩ := rates Tpass Tfail found passing failing sizes
  exact ⟨components, rated, fun u member i inside =>
    (known i inside _).mpr ⟨u, List.mem_append_left _ member, rfl⟩⟩

theorem computeSuspiciousnessForAllComponents_rates (doubles : Doubles) :
    Rates n (@computeSuspiciousnessForAllComponents doubles) := by
  intro Tpass Tfail found passing failing sizes
  have loop : ∀ tests : List Testcase, Tests n tests → ∀ components : Components doubles,
      ∃ after, tests.foldlM (computeSuspiciousnessIn Tpass Tfail found) components = .ok after ∧
        (∀ x, components x ≠ none → after x ≠ none) ∧
          (∀ u ∈ tests, Covers n after u) ∧
        ∀ x, after x ≠ none → components x ≠ none ∨ ∃ u ∈ tests,
          u.val x.parameter = x.value := by
    intro tests all components
    apply Except.foldlM_inv (ε := Exn) (computeSuspiciousnessIn Tpass Tfail found)
        (fun done after =>
      (∀ x, components x ≠ none → after x ≠ none) ∧ (∀ u ∈ done, Covers n after u) ∧
      ∀ x, after x ≠ none → components x ≠ none ∨ ∃ u ∈ done,
        u.val x.parameter = x.value)
    · rintro done u current member ⟨grows, covered, only⟩
      obtain ⟨after, run, more, new, last⟩ :=
        computeIn_ok passing failing sizes current (all u member).2
      refine ⟨after, run, fun x known => more x (grows x known), fun v listed => ?_,
        fun x known => ?_⟩
      · rcases List.mem_append.mp listed with old | here
        · exact fun i inside => more _ (covered v old i inside)
        · rw [List.mem_singleton.mp here]
          exact new
      · rcases last x known with before | here
        · refine (only x before).imp_right ?_
          rintro ⟨v, listed, value⟩
          exact ⟨v, List.mem_append_left _ listed, value⟩
        · exact Or.inr ⟨u, by simp, here⟩
    · exact ⟨fun _ known => known, by simp, fun _ known => Or.inl known⟩
  obtain ⟨middle, first, _, inTfail, fromTfail⟩ := loop Tfail failing fun _ => none
  obtain ⟨components, second, grows, inTpass, fromTpass⟩ := loop Tpass passing middle
  refine ⟨components, by rw [computeSuspiciousnessForAllComponents, first]; exact second, ?_⟩
  intro i inside value
  constructor
  · intro known
    rcases fromTpass _ known with before | ⟨u, listed, same⟩
    · rcases fromTfail _ before with nothing | ⟨u, listed, same⟩
      · exact absurd rfl nothing
      · exact ⟨u, List.mem_append_left _ listed, same⟩
    · exact ⟨u, List.mem_append_right _ listed, same⟩
  · rintro ⟨u, member, rfl⟩
    rcases List.mem_append.mp member with inFail | inPass
    · exact grows _ (inTfail u inFail i inside)
    · exact inTpass u inPass i inside

end Suspiciousness

section Ranking

variable {components : Components doubles} {c : Comb}

/-- A loop that sums up returns if it only asks for components of the map. -/
theorem addComponents_ok (wanted : Nat → Bool) (c : Comb) {size : Nat}
    (known : ∀ i < size, wanted i = true → components ⟨i, c.val i⟩ ≠ none) :
    ∃ sums, (List.range size).foldlM (addComponent components wanted c) (doubles.ofInt 0, 0) =
      (.ok sums : Except Exn (doubles.Value × Nat)) := by
  apply Except.foldlM_total
  rintro i member ⟨sum, num_components⟩
  unfold addComponent
  by_cases want : wanted i = true
  · obtain ⟨value, there⟩ :=
      Option.ne_none_iff_exists'.mp (known i (List.mem_range.mp member) want)
    refine ⟨(doubles.add sum value, num_components + 1), ?_⟩
    simp only [want, if_true, Components.find, there]
    rfl
  · exact ⟨(sum, num_components), by simp only [want]; rfl⟩

/-- The components of a suspicious combination are those of a failing test case. -/
theorem getRho_c_ok (failing : Tests n Tfail) (covers : ∀ u ∈ Tfail, Covers n components u)
    (suspicious : Suspicious t Tpass Tfail c) : ∃ rho_c, getRho_c components c = .ok rho_c := by
  obtain ⟨u, member, S, _, rfl⟩ := suspicious.1
  have binary := (failing u member).2
  have known : ∀ i < (u.restrict S).size,
      decide ((u.restrict S).val i ≠ Comb.UNKNOWN) = true →
        components ⟨i, (u.restrict S).val i⟩ ≠ none := by
    intro i inside fixed
    rw [Comb.restrict_size, binary.size] at inside
    rw [decide_eq_true_eq, Comb.restrict_val] at fixed
    rw [Comb.restrict_val]
    split
    · exact covers u member i inside
    · rw [if_neg ‹_›] at fixed
      exact absurd rfl fixed
  obtain ⟨sums, run⟩ := addComponents_ok _ (u.restrict S) known
  exact ⟨_, by rw [getRho_c, run]; rfl⟩

theorem getRho_e_ok (failing : Tests n Tfail) (covers : ∀ u ∈ Tfail, Covers n components u)
    (size : c.size = n) : ∃ rho_e, getRho_e components Tfail c = .ok rho_e := by
  apply Except.foldlM_total
  intro u member rho_s
  have binary := (failing u member).2
  obtain ⟨sums, run⟩ := addComponents_ok (fun i => c.val i = Comb.UNKNOWN) u
    (fun i inside _ => covers u member i (by rw [← binary.size]; exact inside))
  rw [Comb.contains_eq (binary.size.trans size.symm)]
  by_cases inside : u.Contains c
  · simp only [inside, run, bind, Except.bind, decide_true, Bool.not_true]
    exact ⟨_, rfl⟩
  · simp only [inside, bind, Except.bind, decide_false, Bool.not_false]
    exact ⟨rho_s, rfl⟩

theorem rank_ok {combs : List Comb} (failing : Tests n Tfail)
    (covers : ∀ u ∈ Tfail, Covers n components u)
    (all : ∀ c ∈ combs, Suspicious t Tpass Tfail c) :
    ∃ ranked, rank components Tfail combs = .ok ranked := by
  unfold rank
  split
  · exact ⟨combs, rfl⟩
  · have each : ∀ c ∈ combs, ∃ keyed, (do
        return (c, doubles.add (← getRho_c components c) (← getRho_e components Tfail c)) :
          Except Exn (Comb × doubles.Value)) = .ok keyed := by
      intro c member
      obtain ⟨rho_c, first⟩ := getRho_c_ok failing covers (all c member)
      obtain ⟨rho_e, second⟩ := getRho_e_ok failing covers ((all c member).wf failing).1.size
      exact ⟨_, by rw [first, second]; rfl⟩
    obtain ⟨keyed, run⟩ := Except.mapM_total each
    exact ⟨_, by rw [run]; rfl⟩

end Ranking

section Rounds

variable {rating : Rating doubles} {verdict : Testcase → Bool} {r : AbstractFaultResolver}
  {fuel : Nat}

/-- Test cases are run without an exception. -/
theorem runAll_runs {tests : List Testcase}
    (total : ∀ u ∈ tests, r.checker.verdict u = .ok (verdict u)) :
    ∃ after, (tests.forM runTestcase).Runs r ⟨⟩ after := by
  obtain ⟨after, runs, _⟩ := forM_runs runTestcase
    (fun _ state => ∀ u ∈ tests, state.checker.verdict u = .ok (verdict u)) tests
    (by
      intro done u rest state split total
      have checked : (check u).Runs state (verdict u)
          { state with checker := state.checker.record u } :=
        (Runs.modify _ _).bind ((Runs.get _).bind (Runs.of_ok (total u (by simp [split])) _))
      cases passed : verdict u with
      | true =>
          rw [passed] at checked
          exact ⟨_, checked.bind (Runs.modify _ _), total⟩
      | false =>
          rw [passed] at checked
          exact ⟨_, checked.bind (Runs.modify _ _), total⟩)
    r total
  exact ⟨after, runs⟩

/-- The last step returns for any combinations. -/
theorem deriveAll_runs (combination : Combination) (combs : List Comb) (r : AbstractFaultResolver) :
    ∃ after, (combs.forM (deriveFrom combination)).Runs r ⟨⟩ after := by
  apply forM_total
  intro c _ state
  refine Exists.imp (fun after => (Runs.get state).bind) (forM_total ?_ state)
  intro i _ state
  obtain ⟨smaller, listed, _⟩ := smallerCombs_eq combination c i
  exact ⟨_, (Runs.of_ok listed state).bind (Runs.modify _ _)⟩

/-- Every round returns. -/
theorem benRound_runs (high : r.t ≤ n) (capacity : 0 ≤ wrap (n.choose r.t))
    (passing : Tests n r.Tpass) (failing : Tests n r.Tfail)
    (total : ∀ u, u.Binary n → r.checker.verdict u = .ok (verdict u)) (rates : Rates n rating)
    (old : Option (HashSet Comb)) (chances : Chances) :
    ∃ outcome after,
      (benRoundWith rating combination fuel (old, chances)).Runs r outcome after := by
  obtain ⟨found, collected⟩ := getAllSuspiciousCombinations_ok combination
    passing failing high capacity
  have mem : ∀ c, c ∈ found ↔ Suspicious r.t r.Tpass r.Tfail c :=
    fun c => mem_getAllSuspiciousCombinations collected
  have walked : ∀ c ∈ (chances.walk found).1, Suspicious r.t r.Tpass r.Tfail c := by
    intro c member
    exact (mem c).mp ((chances.walks 0).mem_walk.mp member)
  by_cases empty : found.isEmpty = true
  · refine ⟨.inr (), r, (Runs.get r).bind ((Runs.of_ok collected r).bind ?_)⟩
    rw [if_pos empty]
    exact Runs.ret _ _
  by_cases again : (old.any fun before => found.size = before.size) = true
  · obtain ⟨after, derived⟩ := deriveAll_runs combination (chances.walk found).1 r
    refine ⟨.inr (), after, (Runs.get r).bind ((Runs.of_ok collected r).bind ?_)⟩
    rw [if_neg empty, if_pos again]
    exact derived.bind (Runs.ret _ _)
  -- the round goes on with new test cases
  obtain ⟨components, computed, covers⟩ := rates.covers passing failing
    fun c member => (((mem c).mp member).wf failing).1.size
  obtain ⟨ranked, sorted⟩ := rank_ok failing covers walked
  obtain ⟨tests, rest, generated, made⟩ := generateAll_eq components
    (fun c member => ((walked c ((mem_rank sorted).mp member)).wf failing).1) passing failing fuel
    (chances.walk found).2
  have binary : ∀ u ∈ tests, u.Binary n := by
    intro u member
    obtain ⟨c, listed, rfl⟩ := (made u).mp member
    exact completion_binary ((walked c ((mem_rank sorted).mp listed)).wf failing).1
  obtain ⟨after, ran⟩ := runAll_runs fun u member => total u (binary u member)
  refine ⟨.inl (some found, rest), after, (Runs.get r).bind ((Runs.of_ok collected r).bind ?_)⟩
  rw [if_neg empty, if_neg again]
  exact (Runs.of_ok computed r).bind ((Runs.of_ok sorted r).bind ((Runs.of_ok generated r).bind
    (ran.bind (Runs.ret _ _))))

end Rounds

section Progress

variable {rating : Rating doubles} {verdict : Testcase → Bool} {r after : AbstractFaultResolver}
  {fuel : Nat}

/-- The values that a binary test case of size `n` can have. -/
def vectors (n : Nat) : Finset (List Int) :=
  (Finset.range n).powerset.image fun S => (List.range n).map fun i => if i ∈ S then 1 else 0

theorem card_vectors_le (n : Nat) : (vectors n).card ≤ 2 ^ n := by
  apply Finset.card_image_le.trans_eq
  rw [Finset.card_powerset, Finset.card_range]

theorem elements_mem_vectors {u : Testcase} (binary : u.Binary n) : u.elements ∈ vectors n := by
  rw [vectors, Finset.mem_image]
  refine ⟨(Finset.range n).filter (u.val · = 1), ?_, ?_⟩
  · rw [Finset.mem_powerset]
    exact Finset.filter_subset _ _
  · apply List.ext_getElem
    · rw [List.length_map, List.length_range, ← binary.size]
      rfl
    · intro i left right
      have inside : i < n := by simpa using left
      have value : u.elements[i] = u.val i := by
        simp [Comb.val, right]
      rw [List.getElem_map, List.getElem_range, value]
      rcases binary.values i inside with zero | one
      · simp [zero]
      · simp [inside, one]

/-- The values that no test case has had yet. -/
def unrun (n : Nat) (r : AbstractFaultResolver) : Finset (List Int) :=
  (vectors n).filter fun v => ∀ u ∈ r.Tpass ++ r.Tfail, u.elements ≠ v

/-- What holds between two rounds: the lists are sorted by the verdicts. -/
structure Fair (n t : Nat) (verdict : Testcase → Bool) (r : AbstractFaultResolver) : Prop where
  passing : Tests n r.Tpass
  failing : Tests n r.Tfail
  passed : ∀ u ∈ r.Tpass, verdict u = true
  failed : ∀ u ∈ r.Tfail, verdict u = false
  t : r.t = t
  total : ∀ u, u.Binary n → r.checker.verdict u = .ok (verdict u)

/-- The combinations of the last round are suspicious still, and no other ones. -/
def Repeats (old : Option (HashSet Comb)) (r : AbstractFaultResolver) : Prop :=
  ∃ found, old = some found ∧ ∀ c, c ∈ found ↔ Suspicious r.t r.Tpass r.Tfail c

theorem Fair.judged (fair : Fair n t verdict r) {u : Testcase} (binary : u.Binary n) {passed : Bool}
    (answer : r.checker.verdict u = .ok passed) : verdict u = passed :=
  Except.ok.inj ((fair.total u binary).symm.trans answer)

theorem Sorted.fair {tests : List Testcase} (fair : Fair n t verdict r)
    (sorted : Sorted tests r after) (new : Tests n tests) : Fair n t verdict after := by
  obtain ⟨passing, failing⟩ := sorted.tests new fair.passing fair.failing
  refine ⟨passing, failing, fun u member => ?_, fun u member => ?_, sorted.t.trans fair.t,
    fun u binary => ?_⟩
  · rcases (sorted.passed u).mp member with old | ⟨here, judged⟩
    · exact fair.passed u old
    · exact fair.judged (new u here).2 judged
  · rcases (sorted.failed u).mp member with old | ⟨here, judged⟩
    · exact fair.failed u old
    · exact fair.judged (new u here).2 judged
  · rw [sorted.verdict]
    exact fair.total u binary

theorem Sorted.unrun_subset {tests : List Testcase} (sorted : Sorted tests r after) :
    unrun n after ⊆ unrun n r := by
  intro v member
  rw [unrun, Finset.mem_filter] at member ⊢
  refine ⟨member.1, fun u there => member.2 u ?_⟩
  rw [List.mem_append] at there ⊢
  exact there.imp (fun inPass => (sorted.passed u).mpr (.inl inPass))
    fun inFail => (sorted.failed u).mpr (.inl inFail)

/-- Test cases without new values are old test cases: equal ones have one class, and the lists
stay as they are. -/
theorem Sorted.same {tests : List Testcase} (fair : Fair n t verdict r)
    (sorted : Sorted tests r after)
    (new : Tests n tests) (known : ∀ u ∈ tests, u.elements ∉ unrun n r) :
    (∀ u, u ∈ after.Tpass ↔ u ∈ r.Tpass) ∧
    ∀ u, u ∈ after.Tfail ↔ u ∈ r.Tfail := by
  have old : ∀ u ∈ tests, u ∈ r.Tpass ∨ u ∈ r.Tfail := by
    intro u member
    have run := known u member
    simp only [unrun, Finset.mem_filter, elements_mem_vectors (new u member).2,
      true_and, not_forall, not_not] at run
    obtain ⟨v, there, same⟩ := run
    have cls : v.cls = u.cls := by
      rw [(new u member).1]
      rcases List.mem_append.mp there with inPass | inFail
      · exact (fair.passing v inPass).1
      · exact (fair.failing v inFail).1
    have equal : v = u := by
      cases v
      cases u
      simp only at same cls
      rw [same, cls]
    rw [← equal]
    exact List.mem_append.mp there
  constructor
  · intro u
    rw [sorted.passed]
    refine or_iff_left_of_imp ?_
    rintro ⟨member, judged⟩
    refine (old u member).resolve_right fun inFail => ?_
    have clash := fair.judged (new u member).2 judged
    rw [fair.failed u inFail] at clash
    cases clash
  · intro u
    rw [sorted.failed]
    refine or_iff_left_of_imp ?_
    rintro ⟨member, judged⟩
    refine (old u member).resolve_left fun inPass => ?_
    have clash := fair.judged (new u member).2 judged
    rw [fair.passed u inPass] at clash
    cases clash

/-- A round that goes on does not repeat the one before. It runs new values, or the next round
is going to repeat it. -/
theorem benRound_progress {old : Option (HashSet Comb)} {chances : Chances}
    {next : Option (HashSet Comb) × Chances} (fair : Fair n t verdict r)
    (runs : (benRoundWith rating combination fuel (old, chances)).Runs r (.inl next) after) :
    Fair n t verdict after ∧ ¬ Repeats old r ∧
      ((unrun n after).card < (unrun n r).card ∨
        (unrun n after).card = (unrun n r).card ∧ Repeats next.1 after) := by
  obtain ⟨found, components, tests, _, last, mem, sizes, generated, sorted⟩ :=
    benRound_next fair.passing fair.failing runs
  have new : Tests n tests := completions_tests fair.failing generated
  refine ⟨sorted.fair fair new, ?_, ?_⟩
  · rintro ⟨before, rfl, same⟩
    apply sizes before rfl
    exact HashSet.size_eq_of_mem fun c => (mem c).trans (same c).symm
  · by_cases known : ∀ u ∈ tests, u.elements ∉ unrun n r
    · obtain ⟨inPass, inFail⟩ := sorted.same fair new known
      have values : unrun n after = unrun n r := by
        ext v
        simp only [unrun, Finset.mem_filter, List.mem_append, inPass, inFail]
      refine Or.inr ⟨by rw [values], found, last, fun c => ?_⟩
      rw [mem, sorted.t]
      simp only [Suspicious, inPass, inFail]
    · push Not at known
      obtain ⟨u, member, fresh⟩ := known
      have run : u ∈ after.Tpass ++ after.Tfail := by
        rw [List.mem_append, sorted.passed, sorted.failed]
        exact (sorted.judged u member).imp (fun pass => .inr ⟨member, pass⟩) fun fail =>
          .inr ⟨member, fail⟩
      have gone : u.elements ∉ unrun n after := by
        intro there
        exact (Finset.mem_filter.mp there).2 u run rfl
      exact Or.inl (Finset.card_lt_card ((Finset.ssubset_iff_of_subset sorted.unrun_subset).mpr
        ⟨u.elements, fresh, gone⟩))

open Classical in
/-- The rounds that are left at most: one for each test case that has not been run, and one more
unless the next one repeats the last. -/
noncomputable def roundsLeft (n : Nat) (old : Option (HashSet Comb)) (r : AbstractFaultResolver) :
    Nat :=
  (unrun n r).card + if Repeats old r then 0 else 1

theorem roundsLeft_le (n : Nat) (old : Option (HashSet Comb)) (r : AbstractFaultResolver) :
    roundsLeft n old r ≤ 2 ^ n + 1 := by
  have values : (unrun n r).card ≤ 2 ^ n := by
    unfold unrun
    exact (Finset.card_filter_le _ _).trans (card_vectors_le n)
  unfold roundsLeft
  apply Nat.add_le_add values
  split
  · exact Nat.zero_le 1
  · exact Nat.le_refl 1

theorem roundsLeft_lt {old : Option (HashSet Comb)} {chances : Chances}
    {next : Option (HashSet Comb) × Chances} (fair : Fair n t verdict r)
    (runs : (benRoundWith rating combination fuel (old, chances)).Runs r (.inl next) after) :
    roundsLeft n next.1 after < roundsLeft n old r := by
  obtain ⟨_, fresh, fewer | ⟨equal, repeats⟩⟩ := benRound_progress fair runs
  · unfold roundsLeft
    rw [if_neg fresh]
    split
    · omega
    · omega
  · unfold roundsLeft
    rw [if_neg fresh, if_pos repeats]
    omega

end Progress

section Results

variable {verdict : Testcase → Bool}

theorem fair_start {random : Nat → Bool} {new : AbstractFaultResolver}
    (passing : ∀ u ∈ Tpass, u.cls = .testcase ∧ u.Binary n ∧ verdict u = true)
    (failing : ∀ u ∈ Tfail, u.cls = .testcase ∧ u.Binary n ∧ verdict u = false)
    (created : AbstractFaultResolver.create (Checker.ofVerdict fun u => .ok (verdict u)) Tpass Tfail
      random = .ok new) : Fair n t verdict { new.setT t with conducted := true } := by
  obtain ⟨_, rfl⟩ := create_eq created
  exact ⟨fun u member => ⟨(passing u member).1, (passing u member).2.1⟩,
    fun u member => ⟨(failing u member).1, (failing u member).2.1⟩,
    fun u member => (passing u member).2.2, fun u member =>
      (failing u member).2.2, rfl, fun _ _ => rfl⟩

/-- Between two rounds every suspicious combination has its values, and a test case is generated
for it without a retry. -/
theorem rounds_total {r state : AbstractFaultResolver} {fuel : Nat}
    {first current : Option (HashSet Comb) × Chances} (same : r.t = t) (high : t ≤ n)
    (capacity : 0 ≤ wrap (n.choose t)) (passing : Tests n r.Tpass) (failing : Tests n r.Tfail)
    (reached : Rounds (benRound doubles combination fuel) first r current state) :
    ∃ found, getAllSuspiciousCombinations combination t state.Tpass state.Tfail = .ok found ∧
      ∃ components : Components doubles,
        computeSuspiciousnessForAllComponents state.Tpass state.Tfail found = .ok components ∧
        ∀ c ∈ found, (∃ rho_c, getRho_c components c = .ok rho_c) ∧
          (∃ rho_e, getRho_e components state.Tfail c = .ok rho_e) ∧
          ∀ retries draws, ∃ generated rest, generateNewTestcaseForOneSuspiciousComb components
            state.Tpass state.Tfail retries draws c = .ok (generated, rest) := by
  subst same
  obtain ⟨passing', failing', _, _⟩ := rounds_tests passing failing reached
  obtain ⟨found, collected⟩ :=
    getAllSuspiciousCombinations_ok combination passing' failing' high capacity
  have wf : ∀ c ∈ found, Suspicious r.t state.Tpass state.Tfail c ∧ c.Over n := by
    intro c member
    have suspicious := (mem_getAllSuspiciousCombinations collected).mp member
    exact ⟨suspicious, (suspicious.wf failing').1⟩
  obtain ⟨components, computed, covered⟩ :=
    (computeSuspiciousnessForAllComponents_rates doubles).covers
    passing' failing' fun c member => (wf c member).2.size
  refine ⟨found, collected, components, computed, fun c member =>
    ⟨?_, ?_, fun retries draws => ?_⟩⟩
  · exact getRho_c_ok failing' covered (wf c member).1
  · exact getRho_e_ok failing' covered (wf c member).2.size
  · exact ⟨_, _, generate_eq components (wf c member).2 (fun u there => (passing' u there).1)
      (fun u there => (failing' u there).1) retries draws⟩

/-- A run with enough fuel returns, whatever the ratings. -/
theorem conductWith_runs {rating : Rating doubles} (rates : Rates n rating) (high : t ≤ n)
    (capacity : 0 ≤ wrap (n.choose t)) {r : AbstractFaultResolver} (never : r.conducted = false)
    (start : Fair n t verdict { r with conducted := true }) (chances : Chances) {fuel : Nat}
    (enough : 2 ^ n + 2 ≤ fuel) :
    ∃ after, (conductWith rating combination fuel chances).Runs r ⟨⟩ after := by
  obtain ⟨_, after, runs, _⟩ :=
    iterate_runs Exn.outOfFuel (benRoundWith rating combination fuel)
      (fun _ state => Fair n t verdict state) (fun _ _ => True)
      (fun current state => roundsLeft n current.1 state)
      (by
        rintro ⟨old, chances⟩ state fair
        obtain ⟨outcome, after, runs⟩ := benRound_runs (by rw [fair.t]; exact high)
          (by rw [fair.t]; exact capacity) fair.passing fair.failing fair.total rates old chances
        cases outcome with
        | inl next =>
            exact Or.inr ⟨next, after, runs, (benRound_progress fair runs).1,
              roundsLeft_lt fair runs⟩
        | inr result => exact Or.inl ⟨result, after, runs, trivial⟩)
      fuel (none, chances) _ start (lt_of_le_of_lt (roundsLeft_le n none _) enough)
  refine ⟨after, (Runs.get _).bind ?_⟩
  rw [if_neg (by rw [never]; decide)]
  exact (Runs.modify _ _).bind runs

/-- For every verdict function and all values, rankings and draws the run returns; in every state
between two rounds all components are found, and a test case is generated without a retry. -/
theorem conduct_returns (high : t ≤ n) (small : n.choose t < 2 ^ 31)
    (passing : ∀ u ∈ Tpass, u.cls = .testcase ∧ u.Binary n ∧ verdict u = true)
    (failing : ∀ u ∈ Tfail, u.cls = .testcase ∧ u.Binary n ∧ verdict u = false)
    (nonempty : Tfail ≠ [])
    (doubles : Doubles) (combination : Combination) (chances : Chances) (random : Nat → Bool) :
    ∃ new, AbstractFaultResolver.create
        (Checker.ofVerdict fun u => .ok (verdict u)) Tpass Tfail random = .ok new ∧
      (∀ fuel, 2 ^ n + 2 ≤ fuel →
        ∃ after, (conduct doubles combination fuel chances).Runs (new.setT t) ⟨⟩ after) ∧
      ∀ fuel current state, Rounds (benRound doubles combination fuel) (none, chances)
          { new.setT t with conducted := true } current state →
        ∃ found, getAllSuspiciousCombinations combination t state.Tpass state.Tfail =
          .ok found ∧
          ∃ components : Components doubles,
            computeSuspiciousnessForAllComponents state.Tpass state.Tfail found = .ok components ∧
            ∀ c ∈ found, (∃ rho_c, getRho_c components c = .ok rho_c) ∧
              (∃ rho_e, getRho_e components state.Tfail c = .ok rho_e) ∧
              ∀ retries draws,
                ∃ generated rest, generateNewTestcaseForOneSuspiciousComb components
                state.Tpass state.Tfail retries draws c = .ok (generated, rest) := by
  obtain ⟨new, created⟩ : ∃ new, AbstractFaultResolver.create
      (Checker.ofVerdict fun u => .ok (verdict u)) Tpass Tfail random = .ok new :=
    ⟨_, by rw [AbstractFaultResolver.create, if_neg (by simpa using nonempty)]⟩
  have start : Fair n t verdict { new.setT t with conducted := true } :=
    fair_start passing failing created
  have first : (new.setT t).conducted = false := by
    obtain ⟨_, rfl⟩ := create_eq created
    rfl
  have capacity := capacity_of_small small
  refine ⟨new, created, fun fuel enough => ?_, fun fuel current state reached => ?_⟩
  · exact conductWith_runs (computeSuspiciousnessForAllComponents_rates doubles) high
      capacity first start chances enough
  · exact rounds_total start.t high capacity start.passing start.failing reached

/-- Single parameters of two, where the failing test case is run twice. -/
theorem conduct_returns_single : ∃ new after,
    AbstractFaultResolver.create
      (Checker.ofVerdict fun u => .ok (decide ¬ u.Contains ⟨.comb, [1, -1]⟩))
      [⟨.testcase, [0, 1]⟩] [⟨.testcase, [1, 1]⟩] (fun _ => false) = .ok new ∧
    (conduct .rationals .sublists 6 ⟨fun _ => 0, fun _ => .insertion⟩).Runs
      (new.setT 1) ⟨⟩ after := by
  have passing : ∀ u ∈ [(⟨.testcase, [0, 1]⟩ : Testcase)],
      u.cls = .testcase ∧ u.Binary 2 ∧
      decide (¬ u.Contains ⟨.comb, [1, -1]⟩) = true := by decide
  have failing : ∀ u ∈ [(⟨.testcase, [1, 1]⟩ : Testcase)],
      u.cls = .testcase ∧ u.Binary 2 ∧
      decide (¬ u.Contains ⟨.comb, [1, -1]⟩) = false := by decide
  obtain ⟨new, created, returns, _⟩ := conduct_returns (t := 1) (by decide) (by decide) passing
    failing (by decide) .rationals .sublists ⟨fun _ => 0, fun _ => .insertion⟩ fun _ => false
  obtain ⟨after, runs⟩ := returns 6 (by decide)
  exact ⟨new, after, created, runs⟩

end Results

end BenFaultResolver

end NoPend
