import NoPend.FaultResolver.BenTermination

set_option autoImplicit false

/- When `BenFaultResolver` reports minimal combinations that no passing test case refutes. With
two parameters or more it does not, unless nothing is suspicious at the end. -/
namespace NoPend

open AbstractFaultResolver Proc

namespace BenFaultResolver

variable {doubles : Doubles} {combination : Combination} {n t : Nat} {Tpass Tfail : List Testcase}

section Proper

/-- What a set of minimal faults promises: no passing test case contains one of them, and none
of them strictly contains another one. -/
def Proper (r : AbstractFaultResolver) : Prop :=
  (∀ c ∈ r.MFC_identified, ∀ p ∈ r.Tpass, ¬ p.Contains c) ∧
    ∀ c ∈ r.MFC_identified, ∀ d ∈ r.MFC_identified, ¬ c.StrictlyContains d

/-- A part of one parameter has no smaller ones. -/
theorem smaller_one {u : Testcase} {s c : Comb} (tway : TWay 1 u s) (smaller : Smaller 1 s c) :
    c = s ∧ s.fixed.card = 1 := by
  obtain ⟨S, listed, rfl⟩ := tway
  obtain ⟨T, within, low, high, rfl⟩ := smaller
  obtain ⟨_, card⟩ := Finset.mem_powersetCard.mp listed
  have sub : (u.restrict S).fixed ⊆ S := by
    rw [Comb.restrict_fixed]
    exact Finset.inter_subset_right
  have most := Finset.card_le_card sub
  have least := Finset.card_le_card within
  have same : T = (u.restrict S).fixed := Finset.eq_of_subset_of_card_le within (by omega)
  rw [same]
  exact ⟨Comb.restrict_fixed_eq rfl (Comb.Contains.refl _), by omega⟩

/-- With two parameters or more, a suspicious combination is reported with its parts. -/
theorem reports_part {u : Testcase} (complete : Complete u) {s : Comb} (two : 2 ≤ t)
    (tway : TWay t u s) : Smaller t s s ∧ ∃ d, Smaller t s d ∧ s.StrictlyContains d := by
  obtain ⟨S, listed, rfl⟩ := tway
  obtain ⟨within, card⟩ := Finset.mem_powersetCard.mp listed
  have fixed : (u.restrict S).fixed = S := by
    rw [Comb.restrict_fixed, complete]
    exact Finset.inter_eq_right.mpr within
  obtain ⟨i, inside⟩ : S.Nonempty := Finset.card_pos.mp (by omega)
  refine ⟨⟨S, fixed.ge, by omega, by omega, ?_⟩, (u.restrict S).restrict {i},
    ⟨{i}, ?_, ?_, ?_, rfl⟩, Comb.contains_restrict _ _, fun back => ?_⟩
  · have whole := Comb.restrict_fixed_eq (t := u.restrict S) rfl (Comb.Contains.refl _)
    rwa [fixed] at whole
  · rw [fixed]
    exact Finset.singleton_subset_iff.mpr inside
  · simp
  · rw [Finset.card_singleton]
    omega
  · have sub := back.fixed_subset
    rw [fixed, Comb.restrict_fixed] at sub
    have less := Finset.card_le_card (sub.trans Finset.inter_subset_right)
    rw [Finset.card_singleton] at less
    omega

variable {r after : AbstractFaultResolver}

theorem Ended.proper_of_single (ended : Ended r after) (one : r.t = 1) : Proper after := by
  have single : ∀ c ∈ after.MFC_identified, Suspicious 1 after.Tpass after.Tfail c ∧
      c.fixed.card = 1 := by
    intro c member
    obtain ⟨s, suspicious, smaller⟩ := (ended.found c).mp member
    rw [one] at suspicious smaller
    obtain ⟨u, _, tway⟩ := suspicious.1
    obtain ⟨rfl, card⟩ := smaller_one tway smaller
    exact ⟨suspicious, card⟩
  refine ⟨fun c member => (single c member).1.2, fun c inC d inD strict => strict.2 ?_⟩
  have same : d.fixed = c.fixed := by
    refine Finset.eq_of_subset_of_card_le strict.1.fixed_subset ?_
    rw [(single c inC).2, (single d inD).2]
  exact Comb.contains_of_fixed_subset strict.1 (Comb.Contains.refl c) same.ge

theorem Ended.proper_of_none (ended : Ended r after)
    (none : ∀ s, ¬ Suspicious r.t after.Tpass after.Tfail s) : Proper after := by
  have empty : ∀ c, c ∉ after.MFC_identified := by
    intro c member
    obtain ⟨s, suspicious, _⟩ := (ended.found c).mp member
    exact none s suspicious
  exact ⟨fun c member => absurd member (empty c), fun c member => absurd member (empty c)⟩

/-- What is suspicious at the end is reported with its parts. -/
theorem Ended.not_proper (ended : Ended r after) (two : 2 ≤ r.t)
    (complete : ∀ u ∈ r.Tfail, Complete u) {s : Comb}
    (suspicious : Suspicious r.t after.Tpass after.Tfail s) : ¬ Proper after := by
  rintro ⟨_, minimal⟩
  obtain ⟨u, member, tway⟩ := suspicious.1
  have whole : Complete u := (ended.failed u member).elim (complete u) id
  obtain ⟨self, d, part, strict⟩ := reports_part whole two tway
  exact minimal s ((ended.found s).mpr ⟨s, suspicious, self⟩) d
    ((ended.found d).mpr ⟨s, suspicious, part⟩) strict

/-- A run that finds nothing suspicious in its first round keeps its lists. -/
theorem conduct_none {rating : Rating doubles} {fuel : Nat} {chances : Chances}
    (first : r.conducted = false) (none : ∀ s, ¬ Suspicious r.t r.Tpass r.Tfail s)
    (runs : (conductWith rating combination fuel chances).Runs r ⟨⟩ after) :
    after.Tpass = r.Tpass ∧ after.Tfail = r.Tfail := by
  have loop := rounds_of_conduct first runs
  refine Runs.of_iterate (fun _ now => now = { r with conducted := true })
    (fun _ final => final.Tpass = r.Tpass ∧ final.Tfail = r.Tfail) ?_ ?_ rfl loop
  · rintro current _ next now rfl round
    rcases benRound_cases round with ⟨impossible, _⟩ | ⟨_, _, _, _, goes⟩
    · cases impossible
    · obtain ⟨s, suspicious⟩ := goes.nonempty
      exact absurd suspicious (none s)
  · rintro current _ result final rfl round
    rcases benRound_cases round with ⟨_, derived⟩ | ⟨_, _, _, impossible, _⟩
    · exact ⟨derived.Tpass, derived.Tfail⟩
    · cases impossible

end Proper

section Adversary

/-- The rating that makes a round complete a combination with the values of `target` wherever
these occur in the test cases. -/
def favour (target : Nat → Int) : Rating .rationals := fun Tpass Tfail _ =>
  .ok fun x =>
    if ∃ u ∈ Tfail ++ Tpass, u.val x.parameter = x.value then
      some (Doubles.rationals.ofInt (if x.value = target x.parameter then 0 else 1))
    else none

theorem favour_rates (target : Nat → Int) : Rates n (favour target) := by
  intro Tpass Tfail found _ _ _
  refine ⟨_, rfl, fun i _ value => ?_⟩
  split
  · exact iff_of_true (Option.some_ne_none _) ‹_›
  · exact iff_of_false (fun some => some rfl) ‹_›

/-- Flips `v` on the parameters in `S`. -/
def away (v : Testcase) (S : Finset Nat) (i : Nat) : Int :=
  if i ∈ S then 1 - v.val i else v.val i

variable {v : Testcase} {J S : Finset Nat} {components : Components .rationals} {i : Nat}
  {target : Nat → Int} {found : HashSet Comb}

theorem away_binary (S : Finset Nat) (binary : v.Binary n) (inside : i < n) :
    away v S i = 0 ∨ away v S i = 1 := by
  unfold away
  have value := binary.values i inside
  split <;> omega

theorem favour_occurs (rated : favour target Tpass Tfail found = .ok components) {value : Int}
    (occurs : ∃ u ∈ Tfail ++ Tpass, u.val i = value) : components ⟨i, value⟩ =
      some (Doubles.rationals.ofInt (if value = target i then 0 else 1)) := by
  rw [← Except.ok.inj rated]
  exact if_pos occurs

theorem favour_absent (rated : favour target Tpass Tfail found = .ok components) {value : Int}
    (absent : ¬ ∃ u ∈ Tfail ++ Tpass, u.val i = value) : components ⟨i, value⟩ = none := by
  rw [← Except.ok.inj rated]
  exact if_neg absent

/-- A parameter on which all test cases agree keeps its value. -/
theorem chooseValue_agree (rated : favour target Tpass Tfail found = .ok components)
    (binary : v.Binary n) (listed : v ∈ Tfail) (inside : i < n)
    (agree : ∀ u ∈ Tfail ++ Tpass, u.val i = v.val i) : chooseValue components i = v.val i := by
  have here : ∃ u ∈ Tfail ++ Tpass, u.val i = v.val i :=
    ⟨v, List.mem_append_left _ listed, rfl⟩
  have absent : ∀ value, value ≠ v.val i → components ⟨i, value⟩ = none := by
    intro value other
    refine favour_absent rated ?_
    rintro ⟨u, member, rfl⟩
    exact other (agree u member)
  unfold chooseValue
  rcases binary.values i inside with zero | one
  · rw [zero] at here absent
    rw [favour_occurs rated here, absent 1 (by decide), zero]
  · rw [one] at absent
    rw [absent 0 (by decide), one]

/-- A parameter with both values gets the value of `target`. -/
theorem chooseValue_differ (rated : favour target Tpass Tfail found = .ok components)
    (zero : ∃ u ∈ Tfail ++ Tpass, u.val i = 0) (one : ∃ u ∈ Tfail ++ Tpass, u.val i = 1)
    (aim : target i = 0 ∨ target i = 1) : chooseValue components i = target i := by
  unfold chooseValue
  rw [favour_occurs rated zero, favour_occurs rated one]
  rcases aim with low | high
  · rw [low]
    rfl
  · rw [high]
    rfl

/-- The parameters `S` of `v` that the runs are going to leave suspicious: all test cases agree
with `v` on `J`. -/
structure Corner (n t : Nat) (J S : Finset Nat) : Prop where
  agreed : J ⊆ Finset.range n
  card : S.card = t
  within : S ⊆ Finset.range n
  shape : Disjoint S J ∨ Finset.range n \ J ⊆ S

/-- While `v` fails and no passing test case has the values of `v` on `S`. -/
structure Stuck (n t : Nat) (v : Testcase) (J S : Finset Nat) (r : AbstractFaultResolver) :
    Prop where
  t : r.t = t
  passing : Tests n r.Tpass
  failing : Tests n r.Tfail
  listed : v ∈ r.Tfail
  fails : r.checker.verdict v = .ok false
  agree : ∀ u ∈ r.Tfail ++ r.Tpass, ∀ i ∈ J, u.val i = v.val i
  differ : ∀ i < n, i ∉ J → ∃ u ∈ r.Tfail ++ r.Tpass, u.val i ≠ v.val i
  healthy : ∀ p ∈ r.Tpass, ¬ p.Contains (v.restrict S)

theorem Stuck.suspicious {r : AbstractFaultResolver} (stuck : Stuck n t v J S r)
    (corner : Corner n t J S) : Suspicious r.t r.Tpass r.Tfail (v.restrict S) := by
  rw [stuck.t]
  refine ⟨⟨v, stuck.listed, S, ?_, rfl⟩, stuck.healthy⟩
  rw [(stuck.failing v stuck.listed).2.size]
  exact Finset.mem_powersetCard.mpr ⟨corner.within, corner.card⟩

/-- A suspicious part of `v` can be moved to parameters on which the rating above keeps it
suspicious. -/
theorem exists_corner (Tfail : List Testcase) (binary : v.Binary n) {s : Comb} (tway : TWay t v s)
    (healthy : ∀ p ∈ Tpass, ¬ p.Contains s) :
    ∃ J S, Corner n t J S ∧ (∀ u ∈ Tfail ++ Tpass, ∀ i ∈ J, u.val i = v.val i) ∧
      (∀ i < n, i ∉ J → ∃ u ∈ Tfail ++ Tpass, u.val i ≠ v.val i) ∧
      ∀ p ∈ Tpass, ¬ p.Contains (v.restrict S) := by
  obtain ⟨S₀, level, rfl⟩ := tway
  obtain ⟨within, card⟩ := Finset.mem_powersetCard.mp level
  rw [binary.size] at within
  let J := (Finset.range n).filter fun i => ∀ u ∈ Tfail ++ Tpass, u.val i = v.val i
  have agree : ∀ u ∈ Tfail ++ Tpass, ∀ i ∈ J, u.val i = v.val i :=
    fun u member i there => (Finset.mem_filter.mp there).2 u member
  have differ : ∀ i < n, i ∉ J → ∃ u ∈ Tfail ++ Tpass, u.val i ≠ v.val i := by
    intro i inside apart
    by_contra same
    push Not at same
    exact apart (Finset.mem_filter.mpr ⟨Finset.mem_range.mpr inside, same⟩)
  -- what matters of a set of parameters is where the test cases differ
  have moved : ∀ S ⊆ Finset.range n,
      S₀ \ J ⊆ S → ∀ p ∈ Tpass, ¬ p.Contains (v.restrict S) := by
    intro S inside above p member covers
    obtain ⟨size, same⟩ := (binary.contains_restrict_iff inside).mp covers
    refine healthy p member
      ((binary.contains_restrict_iff within).mpr ⟨size, fun i known => ?_⟩)
    by_cases there : i ∈ J
    · exact agree p (List.mem_append_right _ member) i there
    · exact same i (above (Finset.mem_sdiff.mpr ⟨known, there⟩))
  have base : S₀ \ J ⊆ Finset.range n \ J := Finset.sdiff_subset_sdiff within le_rfl
  by_cases room : t ≤ (Finset.range n \ J).card
  · obtain ⟨S, above, below, size⟩ := Finset.exists_subsuperset_card_eq base
      ((Finset.card_le_card Finset.sdiff_subset).trans card.le) room
    have inside := below.trans Finset.sdiff_subset
    have apart := Finset.disjoint_of_subset_left below Finset.sdiff_disjoint
    exact ⟨J, S, ⟨Finset.filter_subset _ _, size, inside, .inl apart⟩, agree, differ,
      moved S inside above⟩
  · obtain ⟨S, above, below, size⟩ := Finset.exists_subsuperset_card_eq
      (Finset.sdiff_subset : Finset.range n \ J ⊆ Finset.range n) (by omega)
      (card ▸ Finset.card_le_card within)
    exact ⟨J, S, ⟨Finset.filter_subset _ _, size, below, .inr above⟩, agree, differ,
      moved S below (base.trans above)⟩

theorem completion_val {u : Testcase} (binary : u.Binary n) (T : Finset Nat) (inside : i < n) :
    (completion components (u.restrict T)).val i =
      if i ∈ T then u.val i else chooseValue components i := by
  rw [completion, Comb.val_tabulate _ _ (by rw [Comb.restrict_size, binary.size]; exact inside),
    Comb.restrict_val]
  by_cases there : i ∈ T
  · rw [if_pos there, if_pos there, if_neg]
    rcases binary.values i inside with zero | one
    · rw [zero]
      decide
    · rw [one]
      decide
  · rw [if_neg there, if_pos rfl, if_neg there]

variable {fuel : Nat} {r after : AbstractFaultResolver}

/-- The completions agree with `v` where the test cases do. -/
theorem Stuck.completion_agree (stuck : Stuck n t v J S r) (corner : Corner n t J S)
    (rated : favour target r.Tpass r.Tfail found = .ok components) {u : Testcase}
    (member : u ∈ r.Tfail) {T : Finset Nat} (inJ : i ∈ J) :
    (completion components (u.restrict T)).val i = v.val i := by
  have inside := Finset.mem_range.mp (corner.agreed inJ)
  rw [completion_val (stuck.failing u member).2 T inside]
  split
  · exact stuck.agree u (List.mem_append_left _ member) i inJ
  · exact chooseValue_agree rated (stuck.failing v stuck.listed).2 stuck.listed inside
      fun w listed => stuck.agree w listed i inJ

/-- A completion that has the values of `v` on `S` is `v`. -/
theorem Stuck.completion_eq (stuck : Stuck n t v J S r)
    (corner : Corner n t J S) (rated : favour (away v S) r.Tpass r.Tfail found = .ok components)
    {c : Comb} (tway : ∃ u ∈ r.Tfail, TWay t u c)
    (covers : (completion components c).Contains (v.restrict S)) : completion components c = v := by
  obtain ⟨clsV, binary⟩ := stuck.failing v stuck.listed
  obtain ⟨u, member, T, level, rfl⟩ := tway
  have binaryU := (stuck.failing u member).2
  obtain ⟨_, cardT⟩ := Finset.mem_powersetCard.mp level
  obtain ⟨size, same⟩ := (binary.contains_restrict_iff corner.within).mp covers
  have value : ∀ i < n, (completion components (u.restrict T)).val i =
      if i ∈ T then u.val i else chooseValue components i := fun i => completion_val binaryU T
  have chosen : ∀ i < n, i ∉ J → chooseValue components i = away v S i := by
    intro i inside outside
    obtain ⟨w, listed, other⟩ := stuck.differ i inside outside
    have binaryW : w.Binary n := (List.mem_append.mp listed).elim
      (fun failed => (stuck.failing w failed).2) fun passed => (stuck.passing w passed).2
    have mine : ∃ u ∈ r.Tfail ++ r.Tpass, u.val i = v.val i :=
      ⟨v, List.mem_append_left _ stuck.listed, rfl⟩
    have theirs : ∃ u ∈ r.Tfail ++ r.Tpass, u.val i = w.val i := ⟨w, listed, rfl⟩
    have aim := away_binary S binary inside
    rcases binary.values i inside with zero | one
    · have flip := (binaryW.values i inside).resolve_left (by rwa [← zero])
      rw [zero] at mine
      rw [flip] at theirs
      exact chooseValue_differ rated mine theirs aim
    · have flip := (binaryW.values i inside).resolve_right (by rwa [← one])
      rw [one] at mine
      rw [flip] at theirs
      exact chooseValue_differ rated theirs mine aim
  -- where the test cases differ, the values on `S` cannot come from the rating
  have fixes : S \ J ⊆ T := by
    intro i there
    obtain ⟨inS, outside⟩ := Finset.mem_sdiff.mp there
    have inside := Finset.mem_range.mp (corner.within inS)
    by_contra absent
    have clash := same i inS
    rw [value i inside, if_neg absent, chosen i inside outside, away, if_pos inS] at clash
    rcases binary.values i inside with zero | one <;> omega
  refine Comb.ext clsV.symm (size.trans binary.size.symm) fun i bound => ?_
  have inside : i < n := by rwa [size] at bound
  by_cases inS : i ∈ S
  · exact same i inS
  by_cases inJ : i ∈ J
  · exact stuck.completion_agree corner rated member inJ
  · have disjoint : Disjoint S J := corner.shape.resolve_right fun all =>
      inS (all (Finset.mem_sdiff.mpr ⟨Finset.mem_range.mpr inside, inJ⟩))
    rw [Finset.sdiff_eq_self_of_disjoint disjoint] at fixes
    have equal : S = T := Finset.eq_of_subset_of_card_le fixes (by rw [cardT, corner.card])
    rw [value i inside, if_neg (equal ▸ inS), chosen i inside inJ, away, if_neg inS]

theorem Stuck.next (stuck : Stuck n t v J S r) (corner : Corner n t J S)
    {old : Option (HashSet Comb)} {chances : Chances} {next : Option (HashSet Comb) × Chances}
    (runs : (benRoundWith (favour (away v S)) combination fuel (old, chances)).Runs r (.inl next)
      after) : Stuck n t v J S after := by
  obtain ⟨found, components, tests, rated, _, _, _, generated, sorted⟩ :=
    benRound_next stuck.passing stuck.failing runs
  obtain ⟨passing, failing⟩ := sorted.tests (completions_tests stuck.failing generated)
    stuck.passing stuck.failing
  have old : ∀ u ∈ r.Tfail ++ r.Tpass, u ∈ after.Tfail ++ after.Tpass := by
    intro u member
    rw [List.mem_append] at member ⊢
    exact member.imp (fun inFail => (sorted.failed u).mpr (.inl inFail))
      fun inPass => (sorted.passed u).mpr (.inl inPass)
  refine ⟨sorted.t.trans stuck.t, passing, failing, (sorted.failed v).mpr (.inl stuck.listed),
    by rw [sorted.verdict]; exact stuck.fails, fun u member i inJ => ?_,
    fun i inside outside => ?_, fun p member covers => ?_⟩
  · have origin : u ∈ r.Tfail ++ r.Tpass ∨ u ∈ tests := by
      rcases List.mem_append.mp member with inFail | inPass
      · exact ((sorted.failed u).mp inFail).imp (List.mem_append_left _) And.left
      · exact ((sorted.passed u).mp inPass).imp (List.mem_append_right _) And.left
    rcases origin with before | new
    · exact stuck.agree u before i inJ
    · obtain ⟨c, suspicious, rfl⟩ := (generated u).mp new
      obtain ⟨w, listed, T, _, rfl⟩ := suspicious.1
      exact stuck.completion_agree corner rated listed inJ
  · obtain ⟨w, listed, other⟩ := stuck.differ i inside outside
    exact ⟨w, old w listed, other⟩
  · rcases (sorted.passed p).mp member with before | ⟨new, passed⟩
    · exact stuck.healthy p before covers
    · obtain ⟨c, suspicious, rfl⟩ := (generated p).mp new
      rw [stuck.t] at suspicious
      rw [stuck.completion_eq corner rated suspicious.1 covers, stuck.fails] at passed
      cases passed

/-- A run with this rating ends with a suspicious combination. -/
theorem Stuck.conduct (stuck : Stuck n t v J S { r with conducted := true })
    (corner : Corner n t J S) (first : r.conducted = false) {chances : Chances}
    (runs : (conductWith (favour (away v S)) combination fuel chances).Runs r ⟨⟩ after) :
    Suspicious t after.Tpass after.Tfail (v.restrict S) := by
  have loop := rounds_of_conduct first runs
  refine Runs.of_iterate (fun _ now => Stuck n t v J S now)
    (fun _ final => Suspicious t final.Tpass final.Tfail (v.restrict S)) ?_ ?_ stuck loop
  · rintro ⟨old, chances⟩ now next after before round
    exact before.next corner round
  · intro current now result final before round
    rcases benRound_cases round with ⟨_, derived⟩ | ⟨_, _, _, impossible, _⟩
    · rw [derived.Tpass, derived.Tfail, ← before.t]
      exact before.suspicious corner
    · cases impossible

end Adversary

section Results

variable {fuel : Nat} {MFC_real : List Comb} {random : Nat → Bool} {chances : Chances}
  {new after : AbstractFaultResolver}

/-- A run that returns has listed the parts of the first failing test case, with a capacity that
is not negative. -/
theorem capacity_of_runs {rating : Rating doubles} {r : AbstractFaultResolver}
    (first : r.conducted = false) (some : r.Tfail ≠ []) (failing : ∀ u ∈ r.Tfail, u.Binary n)
    (high : r.t ≤ n)
    (runs : (conductWith rating combination fuel chances).Runs r ⟨⟩ after) :
    0 ≤ wrap (n.choose r.t) := by
  have loop := rounds_of_conduct first runs
  cases fuel with
  | zero => exact absurd loop runs_throw
  | succ fuel =>
      obtain ⟨_, _, round, _⟩ := runs_bind.mp loop
      obtain ⟨found, collected, _⟩ := of_lift_bind (of_get_bind round)
      obtain ⟨parts, folded, _⟩ := Except.bind_ok.mp collected
      obtain ⟨u, rest, split⟩ := List.exists_cons_of_ne_nil some
      rw [split, List.foldlM_cons] at folded
      obtain ⟨_, added, _⟩ := Except.bind_ok.mp folded
      obtain ⟨combs, listed, _⟩ := Except.bind_ok.mp added
      have size : u.size = n := (failing u (by simp [split])).size
      refine capacity_of_tWayComb listed ?_
      rw [size]
      exact Combinatorics.n_choose_k_eq high

/-- Unless nothing is suspicious at the start, some rating leaves something suspicious. -/
theorem exists_suspicious_run (high : t ≤ n) (capacity : 0 ≤ wrap (n.choose t))
    (sizes : ∀ M ∈ MFC_real, M.Over n)
    (passing : ∀ p ∈ Tpass, p.cls = .testcase ∧ p.Binary n ∧
      Checker.judge MFC_real p = .ok true)
    (failing : ∀ u ∈ Tfail, u.cls = .testcase ∧ u.Binary n ∧
      Checker.judge MFC_real u = .ok false)
    {s : Comb} (suspicious : Suspicious t Tpass Tfail s) (combination : Combination)
    (chances : Chances) (random : Nat → Bool) :
    ∃ rating : Rating .rationals, Rates n rating ∧ ∃ new fuel after,
      AbstractFaultResolver.create (Checker.ofMFS MFC_real) Tpass Tfail random = .ok new ∧
      (conductWith rating combination fuel chances).Runs (new.setT t) ⟨⟩ after ∧
      ∃ s, Suspicious t after.Tpass after.Tfail s := by
  obtain ⟨⟨v, listed, tway⟩, healthy⟩ := suspicious
  obtain ⟨J, S, corner, agree, differ, moved⟩ :=
    exists_corner Tfail (failing v listed).2.1 tway healthy
  obtain ⟨new, created⟩ : ∃ new,
      AbstractFaultResolver.create (Checker.ofMFS MFC_real) Tpass Tfail random = .ok new := by
    have some : Tfail ≠ [] := List.ne_nil_of_mem listed
    exact ⟨_, by rw [AbstractFaultResolver.create, if_neg (by simpa using some)]⟩
  obtain ⟨_, same⟩ := create_eq created
  have judged : ∀ u : Testcase,
      u.Binary n → Checker.judge MFC_real u = .ok (accepts MFC_real u) :=
    fun u binary => judge_accepts sizes binary.size
  have start : Fair n t (accepts MFC_real) { new.setT t with conducted := true } := by
    rw [same]
    refine ⟨fun u member => ?_, fun u member => ?_, fun u member => ?_, fun u member => ?_, rfl,
      judged⟩
    · exact ⟨(passing u member).1, (passing u member).2.1⟩
    · exact ⟨(failing u member).1, (failing u member).2.1⟩
    · exact Except.ok.inj ((judged u (passing u member).2.1).symm.trans (passing u member).2.2)
    · exact Except.ok.inj ((judged u (failing u member).2.1).symm.trans (failing u member).2.2)
  have never : (new.setT t).conducted = false := by rw [same]; rfl
  obtain ⟨after, runs⟩ : ∃ after, (conductWith (favour (away v S)) combination (2 ^ n + 2)
      chances).Runs (new.setT t) ⟨⟩ after :=
    conductWith_runs (favour_rates _) high capacity never start chances le_rfl
  have stuck : Stuck n t v J S { new.setT t with conducted := true } := by
    refine ⟨start.t, start.passing, start.failing, ?_, ?_, ?_, ?_, ?_⟩
    · rw [same]
      exact listed
    · rw [same]
      exact (failing v listed).2.2
    · rw [same]
      exact agree
    · rw [same]
      exact differ
    · rw [same]
      exact moved
  exact ⟨_, favour_rates _, new, _, after, created, runs, _, stuck.conduct corner never runs⟩

/-- The reported combinations are minimal and never refuted, whatever values the components get,
just when there are single parameters, or no part of a failing test case is suspicious, or no
run returns. If a failing test case contains a real fault of at most `t` parameters, each run
reports minimal ones just when there are single parameters. -/
theorem conduct_minimal_iff (low : 1 ≤ t) (high : t ≤ n) (sizes : ∀ M ∈ MFC_real, M.Over n)
    (passing : ∀ p ∈ Tpass, p.cls = .testcase ∧ p.Binary n ∧
      Checker.judge MFC_real p = .ok true)
    (failing : ∀ u ∈ Tfail, u.cls = .testcase ∧ u.Binary n ∧
      Checker.judge MFC_real u = .ok false) :
    ((∀ (doubles : Doubles) (rating : Rating doubles) (combination : Combination)
        (chances : Chances) (random : Nat → Bool) (fuel : Nat)
        (new after : AbstractFaultResolver),
        Rates n rating →
        AbstractFaultResolver.create (Checker.ofMFS MFC_real) Tpass Tfail random = .ok new →
        (conductWith rating combination fuel chances).Runs (new.setT t) ⟨⟩ after →
          Proper after) ↔
      t = 1 ∨ (∀ s, ¬ Suspicious t Tpass Tfail s) ∨ wrap (n.choose t) < 0) ∧
    (∀ doubles, Rates n (@computeSuspiciousnessForAllComponents doubles)) ∧
    ((∃ M ∈ MFC_real, M.cls = .comb ∧ M.fixed.Nonempty ∧ M.fixed.card ≤ t ∧
        ∃ u ∈ Tfail, u.Contains M) →
      ∀ (doubles : Doubles) (combination : Combination) (chances : Chances)
        (random : Nat → Bool) (fuel : Nat) (new after : AbstractFaultResolver),
        AbstractFaultResolver.create (Checker.ofMFS MFC_real) Tpass Tfail random = .ok new →
        (conduct doubles combination fuel chances).Runs (new.setT t) ⟨⟩ after →
        (Proper after ↔ t = 1)) := by
  have complete : ∀ u ∈ Tfail, Complete u := by
    intro u member
    have binary := (failing u member).2.1
    rw [Complete, binary.fixed_eq, binary.size]
  refine ⟨⟨fun all => ?_, ?_⟩, fun doubles =>
    computeSuspiciousnessForAllComponents_rates doubles, ?_⟩
  · by_contra neither
    simp only [not_or, not_forall, not_not, not_lt] at neither
    obtain ⟨more, ⟨s, suspicious⟩, capacity⟩ := neither
    obtain ⟨rating, rates, new, fuel, after, created, runs, s', remains⟩ :=
      exists_suspicious_run high capacity sizes passing failing suspicious .sublists
        ⟨fun _ => 0, fun _ => .insertion⟩ fun _ => false
    have proper := all _ _ _ _ _ _ new after rates created runs
    obtain ⟨_, rfl⟩ := create_eq created
    exact (conduct_ends rfl rfl runs).not_proper (show 2 ≤ t by omega) complete remains proper
  · intro condition doubles rating combination chances random fuel new after _ created runs
    obtain ⟨some, rfl⟩ := create_eq created
    have ended := conduct_ends rfl rfl runs
    rcases condition with one | none | negative
    · exact ended.proper_of_single one
    · obtain ⟨Tpass', Tfail'⟩ := conduct_none rfl none runs
      refine ended.proper_of_none fun s => ?_
      rw [Tpass', Tfail']
      exact none s
    · exact absurd (capacity_of_runs rfl some (fun u member => (failing u member).2.1) high runs)
        (not_le.mpr negative)
  · rintro ⟨M, member, cls, fixes, few, u, listed, inside⟩
    intro doubles combination chances random fuel new after created runs
    obtain ⟨_, rfl⟩ := create_eq created
    have ended := conduct_ends rfl rfl runs
    refine ⟨fun proper => ?_, ended.proper_of_single⟩
    by_contra more
    obtain ⟨s, suspicious, _⟩ :=
      ended.suspicious high rfl (fun p there => (passing p there).2.2)
        member few listed (failing u listed).2.1 inside
    exact ended.not_proper (show 2 ≤ t by omega) complete suspicious proper

/-- A fault of one parameter among three: the run for single parameters reports it and nothing
that is refuted or not minimal, the run for pairs does. Where every pair of the failing test case
passes, no run does. -/
theorem conduct_minimal_iff_three :
    (∃ new after, AbstractFaultResolver.create (Checker.ofMFS [⟨.comb, [1, -1, -1]⟩])
        [⟨.testcase, [0, 1, 0]⟩, ⟨.testcase, [0, 0, 1]⟩] [⟨.testcase, [1, 1, 0]⟩]
        (fun _ => false) = .ok new ∧
      (conduct .rationals .sublists 6 ⟨fun _ => 0, fun _ => .insertion⟩).Runs
        (new.setT 1) ⟨⟩ after ∧
      Proper after ∧ (⟨.comb, [1, -1, -1]⟩ : Comb) ∈ after.MFC_identified) ∧
    (∃ new after, AbstractFaultResolver.create (Checker.ofMFS [⟨.comb, [1, -1, -1]⟩])
        [⟨.testcase, [0, 1, 0]⟩, ⟨.testcase, [0, 0, 1]⟩] [⟨.testcase, [1, 1, 0]⟩]
        (fun _ => false) = .ok new ∧
      (conduct .rationals .sublists 6 ⟨fun _ => 0, fun _ => .insertion⟩).Runs
        (new.setT 2) ⟨⟩ after ∧
      ¬ Proper after) ∧
    ∀ (combination : Combination) (chances : Chances) (new after : AbstractFaultResolver),
      AbstractFaultResolver.create (Checker.ofMFS [⟨.comb, [1, 1, 1]⟩])
        [⟨.testcase, [1, 1, 0]⟩, ⟨.testcase, [1, 0, 1]⟩, ⟨.testcase, [0, 1, 1]⟩]
        [⟨.testcase, [1, 1, 1]⟩] (fun _ => false) = .ok new →
      (conduct .rationals combination 6 chances).Runs (new.setT 2) ⟨⟩ after →
        Proper after := by
  have created : AbstractFaultResolver.create (Checker.ofMFS [⟨.comb, [1, -1, -1]⟩])
      [⟨.testcase, [0, 1, 0]⟩, ⟨.testcase, [0, 0, 1]⟩] [⟨.testcase, [1, 1, 0]⟩]
      (fun _ => false) = .ok _ := rfl
  have fault : ∃ M ∈ [(⟨.comb, [1, -1, -1]⟩ : Comb)], M.cls = .comb ∧ M.fixed.Nonempty ∧
      M.fixed.card ≤ 1 ∧ ∃ u ∈ [(⟨.testcase, [1, 1, 0]⟩ : Testcase)],
        u.Contains M := by decide
  have wider : ∃ M ∈ [(⟨.comb, [1, -1, -1]⟩ : Comb)], M.cls = .comb ∧ M.fixed.Nonempty ∧
      M.fixed.card ≤ 2 ∧ ∃ u ∈ [(⟨.testcase, [1, 1, 0]⟩ : Testcase)],
        u.Contains M := by decide
  have returns : ∀ t ∈ [1, 2], ((conduct .rationals .sublists 6
      ⟨fun _ => 0, fun _ => .insertion⟩).exec (AbstractFaultResolver.setT
        ⟨[⟨.testcase, [0, 1, 0]⟩, ⟨.testcase, [0, 0, 1]⟩], [⟨.testcase, [1, 1, 0]⟩],
          Checker.ofMFS [⟨.comb, [1, -1, -1]⟩], [], [], none, HashSet.empty, false, 0,
          fun _ => false⟩ t)).1.isOk = true := by decide +kernel
  obtain ⟨_, single⟩ := Runs.of_isOk (returns 1 (by decide))
  obtain ⟨_, pairs⟩ := Runs.of_isOk (returns 2 (by decide))
  refine ⟨⟨_, _, created, single, ?_, by decide +kernel⟩,
    ⟨_, _, created, pairs, fun proper => ?_⟩,
    fun combination chances new after created' runs => ?_⟩
  · exact ((conduct_minimal_iff (n := 3) (by decide) (by decide) (by decide) (by decide)
      (by decide)).2.2 fault _ _ _ _ _ _ _ created single).mpr rfl
  · exact absurd (((conduct_minimal_iff (n := 3) (by decide) (by decide) (by decide) (by decide)
      (by decide)).2.2 wider _ _ _ _ _ _ _ created pairs).mp proper) (by decide)
  · have refuted : ∀ S ∈ Finset.powersetCard 2 (Finset.range 3),
        ∃ p ∈ [(⟨.testcase, [1, 1, 0]⟩ : Testcase), ⟨.testcase, [1, 0, 1]⟩,
          ⟨.testcase, [0, 1, 1]⟩],
          p.Contains ((⟨.testcase, [1, 1, 1]⟩ : Testcase).restrict S) := by decide
    refine (conduct_minimal_iff (n := 3) (t := 2) (by decide) (by decide) (by decide) (by decide)
      (by decide)).1.mpr (.inr (.inl ?_)) _ _ _ _ _ _ _ _
      (computeSuspiciousnessForAllComponents_rates .rationals) created' runs
    rintro s ⟨⟨u, member, S, level, rfl⟩, healthy⟩
    rw [List.mem_singleton.mp member] at level healthy
    obtain ⟨p, passed, covers⟩ := refuted S level
    exact healthy p passed covers

/-- A run for pairs reports a pair, its parts, and among these one that passes. -/
theorem conduct_reports_refuted : ∃ new after,
    (∀ p ∈ [(⟨.testcase, [0, 1]⟩ : Testcase)], p.Binary 2 ∧
      Checker.judge [⟨.comb, [1, -1]⟩] p = .ok true) ∧
    Failing 2 [⟨.comb, [1, -1]⟩] [⟨.testcase, [1, 1]⟩] ∧
    AbstractFaultResolver.create (Checker.ofMFS [⟨.comb, [1, -1]⟩]) [⟨.testcase, [0, 1]⟩]
      [⟨.testcase, [1, 1]⟩] (fun _ => false) = .ok new ∧
    (conduct .rationals .sublists 3 ⟨fun _ => 0, fun _ => .insertion⟩).Runs
      (new.setT 2) ⟨⟩ after ∧
    (⟨.comb, [-1, 1]⟩ : Comb) ∈ after.MFC_identified ∧
    (⟨.testcase, [0, 1]⟩ : Testcase) ∈ after.Tpass ∧
    (⟨.testcase, [0, 1]⟩ : Comb).Contains ⟨.comb, [-1, 1]⟩ ∧
    (⟨.comb, [1, 1]⟩ : Comb) ∈ after.MFC_identified ∧
    (⟨.comb, [1, 1]⟩ : Comb).StrictlyContains ⟨.comb, [-1, 1]⟩ := by
  refine ⟨_, _, by decide, by decide, rfl, Runs.of_returns _ rfl, ?_, ?_, by decide,
    ?_, by decide⟩
  · decide +kernel
  · decide +kernel
  · decide +kernel

end Results

end BenFaultResolver

end NoPend
