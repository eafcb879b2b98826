import NoPend.FaultResolver.NoPendIdentify

set_option autoImplicit false

/- `conduct` for an arbitrary system under test: it returns, and no call below it throws. -/
namespace NoPend

open Antichain SetFamily AbstractFaultResolver MonotoneSchemaSet

namespace NoPendFaultResolver

/-- Every identified combination speaks of `n` parameters and fixes one of them. -/
def Identifiable (n : Nat) (r : AbstractFaultResolver) : Prop :=
  ∀ c ∈ r.MFC_identified, c.size = n ∧ c.fixed.Nonempty

/-- What the top-level call of `identify` for `tfail` returns, and the parts it checks. -/
structure Answer (n : Nat) (verdict : Testcase → Bool) (safe : Comb) (tfail : Testcase)
    (r : AbstractFaultResolver) (families : MonotoneSchemaSet × MonotoneSchemaSet)
    (parts : List (Finset Nat)) : Prop where
  known : Known n (Schema.ofFlag n true) families.1 families.2
  settled : pendingIn (Finset.range n) families.1.sets families.2.sets = ∅
  lowFrom : ∀ f ∈ families.1.sets, f = Finset.range n ∨
    (∃ c ∈ r.MFC_identified, tfail.Contains c ∧ c.fixed = f) ∨
    f ∈ parts ∧ passes verdict safe tfail f = false
  highFrom : ∀ p ∈ families.2.sets,
    p = ∅ ∨ p ∈ parts ∧ passes verdict safe tfail p = true
  proper : ∀ S ∈ parts, S.Nonempty ∧ S ⊂ Finset.range n

section Seeds

variable {n : Nat} {tfail : Testcase} {r : AbstractFaultResolver}

/-- At most one identified combination is taken over, and only one that `tfail` contains. -/
theorem seedCMinF_eq (size : tfail.size = n) {family : List (Finset Nat)}
    {CMinF : MonotoneSchemaSet} (holds : CMinF.Holds n true family) (combs : List Comb)
    (sizes : ∀ c ∈ combs, c.size = n) :
    ∃ seeded lows, seedCMinF tfail CMinF combs = .ok seeded ∧
      seeded.Holds n true (addAll (· ⊆ ·) lows family) ∧
      ∀ f ∈ lows, ∃ c ∈ combs, tfail.Contains c ∧ c.fixed = f := by
  induction combs with
  | nil => exact ⟨CMinF, [], rfl, holds, by simp⟩
  | cons MFS rest ih =>
      have same : tfail.size = MFS.size := size.trans (sizes MFS (by simp)).symm
      by_cases inside : tfail.Contains MFS
      · have wf : (Schema.ofComb MFS).Wf n := by
          have wf := Schema.ofComb_wf MFS
          rwa [sizes MFS (by simp)] at wf
        obtain ⟨seeded, added, kept⟩ := add'_minimal holds wf
        rw [Schema.ofComb_bits] at kept
        refine ⟨seeded, [MFS.fixed], ?_, kept, ?_⟩
        · simp only [seedCMinF, Comb.contains_eq same, inside, bind, Except.bind,
            decide_true, if_true]
          exact added
        · intro f member
          exact ⟨MFS, by simp, inside, (List.mem_singleton.mp member).symm⟩
      · obtain ⟨seeded, lows, run, kept, from'⟩ :=
          ih fun c member => sizes c (List.mem_cons_of_mem _ member)
        refine ⟨seeded, lows, ?_, kept, fun f member => ?_⟩
        · simp only [seedCMinF, Comb.contains_eq same, inside, bind, Except.bind, decide_false]
          exact run
        · obtain ⟨c, later, contained, same⟩ := from' f member
          exact ⟨c, List.mem_cons_of_mem _ later, contained, same⟩

theorem seeds_runs (positive : 0 < n) (size : tfail.size = n) (identifiable : Identifiable n r)
    (order : IterOrder Comb) :
    ∃ CMinF CMaxP, (seeds order tfail).Runs r (CMinF, CMaxP) r ∧
      Known n (Schema.ofFlag n true) CMinF CMaxP ∧ CMaxP.sets = [∅] ∧
      ∀ f ∈ CMinF.sets,
        f = Finset.range n ∨ ∃ c ∈ r.MFC_identified, tfail.Contains c ∧ c.fixed = f := by
  have someUniv : (Finset.range n).Nonempty := Finset.nonempty_range_iff.mpr (by omega)
  obtain ⟨whole, addedLow, holdsWhole⟩ := add'_minimal (holds_new n true) (Schema.ofFlag_wf n)
  obtain ⟨CMaxP, addedHigh, holdsHigh⟩ := add'_maximal (holds_new n false) (Schema.ofSize_wf n)
  rw [Schema.ofFlag_true_bits] at holdsWhole
  have members : ∀ c ∈ order.walk r.MFC_identified.toList, c ∈ r.MFC_identified :=
      fun c member =>
    order.mem_walk.mp member
  obtain ⟨CMinF, lows, seeded, holdsLow, from'⟩ := seedCMinF_eq size holdsWhole
    (order.walk r.MFC_identified.toList) (fun c member => (identifiable c (members c member)).1)
  have highSets : CMaxP.sets = [∅] := holdsHigh.sets_eq
  have bounded := (bounded_start someUniv).addAll lows [] (fun f member => by
    obtain ⟨c, walked, inside, rfl⟩ := from' f member
    obtain ⟨sized, nonempty⟩ := identifiable c (members c walked)
    exact ⟨sized ▸ c.fixed_subset_range, nonempty⟩) (by simp)
  refine ⟨CMinF, CMaxP, ?_, ⟨Schema.ofFlag_wf n, ?_, ?_, ?_⟩, highSets, fun f member => ?_⟩
  · subst size
    exact (Proc.Runs.of_ok addedLow r).bind ((Proc.Runs.of_ok addedHigh r).bind
      ((Proc.Runs.get r).bind ((Proc.Runs.of_ok seeded r).bind (Proc.Runs.ret _ _))))
  · rw [holdsLow.sets_eq]
    exact holdsLow
  · rw [highSets]
    exact holdsHigh
  · rw [holdsLow.sets_eq, highSets, Schema.ofFlag_true_bits]
    exact bounded
  · rw [holdsLow.sets_eq] at member
    rcases mem_of_mem_addAll _ member with start | seed
    · exact Or.inl (List.mem_singleton.mp start)
    · obtain ⟨c, walked, rest⟩ := from' f seed
      exact Or.inr ⟨c, members c walked, rest⟩

end Seeds

section ConductOne

variable {n : Nat} {verdict : Testcase → Bool} {safe : Comb} {tfail : Testcase}
  {r : AbstractFaultResolver}

theorem identifyTop_runs (positive : 0 < n) (ready : r.Ready n verdict safe)
    (binary : tfail.Binary n) (identifiable : Identifiable n r) (order : IterOrder Comb)
    {fuel : Nat} (enough : 2 ^ n + 2 ≤ fuel) :
    ∃ families parts, (identifyTop fuel order tfail).Runs r families
        (probes verdict safe tfail r parts) ∧
      Answer n verdict safe tfail r families parts := by
  obtain ⟨CMinF, CMaxP, seeded, known, highStart, lowStart⟩ :=
    seeds_runs positive binary.size identifiable order
  obtain ⟨families, parts, runs, progress, settled⟩ :=
    identify_runs binary fuel ready known (by simpa using enough)
  refine ⟨families, parts, ?_, progress.known, by simpa [pendingRegion] using settled,
    ?_, ?_, ?_⟩
  · rw [identifyTop, binary.size]
    exact seeded.bind runs
  · intro f member
    rcases progress.lowFrom f member with start | checked
    · exact (lowStart f start).imp id Or.inl
    · exact Or.inr (Or.inr checked)
  · intro p member
    rcases progress.highFrom p member with start | empty | checked
    · simp only [highStart, List.mem_singleton] at start
      exact Or.inl start
    · exact Or.inl empty
    · exact Or.inr checked
  · simpa using progress.proper

/-- The body of the loop over `Tfail`. -/
theorem conductOne_runs (positive : 0 < n) (ready : r.Ready n verdict safe)
    (binary : tfail.Binary n) (identifiable : Identifiable n r) (order : IterOrder Comb)
    {fuel : Nat} (enough : 2 ^ n + 2 ≤ fuel) :
    ∃ families parts, (identifyTop fuel order tfail).Runs r families
        (probes verdict safe tfail r parts) ∧
      Answer n verdict safe tfail r families parts ∧
      (conductOne fuel order tfail).Runs r ⟨⟩ (identified (probes verdict safe tfail r parts)
        (families.1.sets.map tfail.restrict)) := by
  obtain ⟨families, parts, runs, answer⟩ :=
    identifyTop_runs positive ready binary identifiable order enough
  refine ⟨families, parts, runs, answer, runs.bind ?_⟩
  have added := addIdentified_runs (r := probes verdict safe tfail r parts) binary
    families.1.schemas answer.known.low.wf
  rw [show families.1.sets.map tfail.restrict =
    families.1.schemas.map fun s => tfail.restrict s.bits by simp [MonotoneSchemaSet.sets]]
  exact added

theorem Answer.identifiable {families : MonotoneSchemaSet × MonotoneSchemaSet}
    {parts : List (Finset Nat)} (answer : Answer n verdict safe tfail r families parts)
    (binary : tfail.Binary n) (before : Identifiable n r) :
    Identifiable n (identified (probes verdict safe tfail r parts)
      (families.1.sets.map tfail.restrict)) := by
  intro c member
  rcases mem_identified.mp member with old | new
  · rw [(probes_sameConfig parts).MFC_identified] at old
    exact before c old
  · obtain ⟨f, inLow, rfl⟩ := List.mem_map.mp new
    obtain ⟨within, nonempty⟩ := answer.known.bounded.lowIn f inLow
    rw [Schema.ofFlag_true_bits] at within
    rw [Comb.restrict_size, binary.restrict_fixed within]
    exact ⟨binary.size, nonempty⟩

end ConductOne

section Conduct

variable {n : Nat} {verdict : Testcase → Bool} {safe : Comb}

/-- The rule for the loop over `Tfail`. -/
theorem conductAll_runs (positive : 0 < n) (order : IterOrder Comb) {fuel : Nat}
    (enough : 2 ^ n + 2 ≤ fuel) (Inv : List Testcase → AbstractFaultResolver → Prop)
    (tests : List Testcase) (binary : ∀ t ∈ tests, t.Binary n)
    (round : ∀ done tfail s families parts, tfail ∈ tests → Inv done s →
      Answer n verdict safe tfail s families parts →
      Inv (done ++ [tfail]) (identified (probes verdict safe tfail s parts)
        (families.1.sets.map tfail.restrict)))
    {r : AbstractFaultResolver} (ready : r.Ready n verdict safe) (identifiable : Identifiable n r)
    (start : Inv [] r) :
    ∃ after, (tests.forM (conductOne fuel order)).Runs r ⟨⟩ after ∧
      after.Ready n verdict safe ∧
      Identifiable n after ∧ Inv tests after := by
  refine Proc.forM_runs _ (fun done s => s.Ready n verdict safe ∧ Identifiable n s ∧ Inv done s)
    tests ?_ r ⟨ready, identifiable, start⟩
  rintro done tfail rest s rfl ⟨ready', identifiable', inv⟩
  have member : tfail ∈ done ++ tfail :: rest := by simp
  obtain ⟨families, parts, _, answer, runs⟩ :=
    conductOne_runs positive ready' (binary tfail member) identifiable' order enough
  have readyProbes := ready'.probes tfail parts
  refine ⟨_, runs, ⟨readyProbes.safeValues, readyProbes.valid, readyProbes.answers⟩, ?_, ?_⟩
  · exact answer.identifiable (binary tfail member) identifiable'
  · exact round done tfail s families parts member inv answer

theorem started_identifiable {decide' : Testcase → Except Exn Bool} {Tpass Tfail : List Testcase}
    {random : Nat → Bool} : Identifiable n (started decide' Tpass Tfail safe random) := by
  intro c member
  exact absurd member (HashSet.notMem_empty c)

/-- `conduct` on a fresh resolver is the loop over `Tfail`. -/
theorem conduct_of_fresh {decide' : Testcase → Except Exn Bool} {Tpass Tfail : List Testcase}
    {random : Nat → Bool} {r after : AbstractFaultResolver} {order : IterOrder Comb} {fuel : Nat}
    (created : fresh (Checker.ofVerdict decide') Tpass Tfail safe random = .ok r)
    (runs : (Tfail.forM (conductOne fuel order)).Runs
      (started decide' Tpass Tfail safe random) ⟨⟩ after) :
    (conduct fuel order).Runs r ⟨⟩ after := by
  obtain ⟨_, rfl⟩ := fresh_ok created
  exact conductOnce_runs rfl rfl ((Proc.Runs.get _).bind runs)

end Conduct

section LoopHeads

/-- A point at the head of the loop of `identify`. -/
structure LoopPoint where
  univ : Schema
  families : MonotoneSchemaSet × MonotoneSchemaSet
  resolver : AbstractFaultResolver

/-- The loop heads that a call of `identify` reaches, in its own loop and in the loops of
the recursive calls below it. -/
inductive LoopHead (tfail : Testcase) (entry : LoopPoint) : LoopPoint → Prop
  | entry : LoopHead tfail entry entry
  | next {point : LoopPoint} {fuel : Nat} {families : MonotoneSchemaSet × MonotoneSchemaSet}
      {r : AbstractFaultResolver} (head : LoopHead tfail entry point)
      (going : point.univ.size ≠ 1)
      (round : (identifyRound (identify tfail fuel) point.univ tfail point.families).Runs
        point.resolver (.inl families) r) :
      LoopHead tfail entry ⟨point.univ, families, r⟩
  | call {point : LoopPoint} {max min minfault : Schema} {CMinF_rec CMaxP_rec : MonotoneSchemaSet}
      {r : AbstractFaultResolver} (head : LoopHead tfail entry point)
      (going : point.univ.size ≠ 1)
      (chain : findChain point.univ point.families.1 point.families.2 = .ok (some (max, min)))
      (search : (binarySearch max min tfail).Runs point.resolver (some minfault) r)
      (low : (MonotoneSchemaSet.new true).add' minfault.copy = .ok CMinF_rec)
      (high : (MonotoneSchemaSet.new false).add' (Schema.ofSize minfault.copy.getLogicSize) =
        .ok CMaxP_rec) :
      LoopHead tfail entry ⟨minfault.copy, (CMinF_rec, CMaxP_rec), r⟩

variable {n : Nat} {verdict : Testcase → Bool} {safe : Comb} {tfail : Testcase}

theorem recursesBelow_identify (binary : tfail.Binary n) {univ : Schema} {fuel : Nat}
    (enough : 2 ^ univ.bits.card + 1 ≤ fuel) :
    RecursesBelow n verdict safe tfail univ (identify tfail fuel) := by
  intro lower low high s smaller ready known
  have fewer : 2 ^ lower.bits.card < 2 ^ univ.bits.card :=
    Nat.pow_lt_pow_right (by decide) (Finset.card_lt_card smaller)
  obtain ⟨after, parts, runs, progress, _⟩ := identify_runs binary fuel ready known (by omega)
  exact ⟨after, parts, runs, progress⟩

/-- Whatever the fuel, a round that goes on strictly shrinks the pending region. -/
theorem round_shrinks (binary : tfail.Binary n) {point : LoopPoint}
    (ready : point.resolver.Ready n verdict safe)
    (known : Known n point.univ point.families.1 point.families.2) {fuel : Nat}
    {families : MonotoneSchemaSet × MonotoneSchemaSet} {r : AbstractFaultResolver}
    (round : (identifyRound (identify tfail fuel) point.univ tfail point.families).Runs
      point.resolver (.inl families) r) :
    r.Ready n verdict safe ∧ Known n point.univ families.1 families.2 ∧
      pendingRegion point.univ families ⊂ pendingRegion point.univ point.families := by
  have fueled := identifyRound_agree (fun _ _ _ _ _ _ called =>
    identify_more (le_max_left fuel (2 ^ point.univ.bits.card + 1)) called) round
  rcases identifyRound_runs ready binary known
    (recursesBelow_identify binary (le_max_right fuel (2 ^ point.univ.bits.card + 1))) with
    ⟨ended, _⟩ | ⟨after, parts, runs, progress, less⟩
  · cases (fueled.unique ended).1
  · obtain ⟨same, reached⟩ := fueled.unique runs
    cases same
    rw [reached]
    exact ⟨ready.probes tfail parts, progress.known, less⟩

/-- The minimal faulty schema of a round lies strictly between nothing and the universe. -/
theorem search_below (binary : tfail.Binary n) {point : LoopPoint}
    (ready : point.resolver.Ready n verdict safe)
    (known : Known n point.univ point.families.1 point.families.2) {max min : Schema}
    (chain : findChain point.univ point.families.1 point.families.2 = .ok (some (max, min))) :
    ∃ found r, (binarySearch max min tfail).Runs point.resolver found r ∧
      r.Ready n verdict safe ∧
      ∀ minfault, found = some minfault →
        minfault.Wf n ∧ minfault.bits.Nonempty ∧ minfault.bits ⊂ point.univ.bits := by
  obtain ⟨_, _, _, _, outcome, _, _, _, _, _, found, spec⟩ := findChain_eq known
  rw [chain] at found
  obtain rfl := Except.ok.inj found
  obtain ⟨wfMax, wfMin, sub, someMin, properMax, _⟩ := spec
  obtain ⟨result, parts, runs, _, _, boundary⟩ := binarySearch_runs ready binary wfMax wfMin sub
  refine ⟨result, _, runs, ready.probes tfail parts, ?_⟩
  rintro minfault rfl
  obtain ⟨wf, low, high, _, _⟩ := boundary
  exact ⟨wf, someMin.mono low, lt_of_le_of_lt high properMax⟩

/-- What holds at every loop head that is reached. -/
theorem LoopHead.known {entry point : LoopPoint} (head : LoopHead tfail entry point)
    (binary : tfail.Binary n) (ready : entry.resolver.Ready n verdict safe)
    (known : Known n entry.univ entry.families.1 entry.families.2) :
    point.resolver.Ready n verdict safe ∧
      Known n point.univ point.families.1 point.families.2 := by
  induction head with
  | entry => exact ⟨ready, known⟩
  | next head going round ih =>
      obtain ⟨ready', known', _⟩ := round_shrinks binary ih.1 ih.2 round
      exact ⟨ready', known'⟩
  | call head going chain search low high ih =>
      obtain ⟨found, r, runs, ready', proper⟩ := search_below binary ih.1 ih.2 chain
      obtain ⟨same, reached⟩ := search.unique runs
      obtain ⟨wf, nonempty, _⟩ := proper _ same.symm
      obtain ⟨_, _, newLow, newHigh, _, _, start⟩ :=
        known_start wf.copy (by rw [Schema.copy_bits]; exact nonempty)
      rw [low] at newLow
      rw [high] at newHigh
      cases newLow
      cases newHigh
      rw [reached]
      exact ⟨ready', start⟩

/-- What the loop of `identify` guarantees at one of its heads. -/
structure Terminating (tfail : Testcase) (point : LoopPoint) : Prop where
  someUniv : point.univ.bits.Nonempty
  /-- The loop ends from here. -/
  returns : ∀ fuel, 2 ^ point.univ.bits.card + 2 ≤ fuel → ∃ families r,
    (identify tfail fuel point.univ point.families.1 point.families.2).Runs
      point.resolver families r
  /-- None of the calls that look for a chain throws. -/
  chain : ∃ complements bottomSchemas hitting topSchemas found,
    point.families.2.complementIn point.univ = .ok complements ∧
    complements.getMHS = .ok bottomSchemas ∧ point.families.1.getMHS = .ok hitting ∧
    hitting.complementIn point.univ = .ok topSchemas ∧
    getLongestChain topSchemas bottomSchemas = .ok found ∧
    findChain point.univ point.families.1 point.families.2 = .ok found
  /-- The search along a chain does not throw, and a recursive call gets a smaller universe. -/
  search : ∀ max min,
    findChain point.univ point.families.1 point.families.2 = .ok (some (max, min)) →
    ∃ found r, (binarySearch max min tfail).Runs point.resolver found r ∧
      ∀ minfault, found = some minfault →
        minfault.bits.Nonempty ∧ minfault.bits ⊂ point.univ.bits
  /-- A round that goes on strictly shrinks the pending region. -/
  shrinks : ∀ fuel families r,
    (identifyRound (identify tfail fuel) point.univ tfail point.families).Runs point.resolver
      (.inl families) r →
    pendingRegion point.univ families ⊂ pendingRegion point.univ point.families

theorem Known.terminating (binary : tfail.Binary n) {point : LoopPoint}
    (ready : point.resolver.Ready n verdict safe)
    (known : Known n point.univ point.families.1 point.families.2) : Terminating tfail point where
  someUniv := by
    obtain ⟨f, member⟩ := List.exists_mem_of_ne_nil _ known.bounded.someLow
    obtain ⟨within, nonempty⟩ := known.bounded.lowIn f member
    exact nonempty.mono within
  returns := by
    intro fuel enough
    obtain ⟨families, parts, runs, _, _⟩ := identify_runs binary fuel ready known enough
    exact ⟨families, _, runs⟩
  chain := by
    obtain ⟨complements, bottoms, hitting, tops, found, first, second, third, fourth, fifth,
      whole, _⟩ := findChain_eq known
    exact ⟨complements, bottoms, hitting, tops, found, first, second, third, fourth,
      fifth, whole⟩
  search := by
    intro max min chain
    obtain ⟨found, r, runs, _, proper⟩ := search_below binary ready known chain
    exact ⟨found, r, runs, fun minfault same => (proper minfault same).2⟩
  shrinks := fun fuel families r round => (round_shrinks binary ready known round).2.2

end LoopHeads

/-- `conduct` returns for every system under test, every vector of safe values and every
list of failing test cases. At every head of the loop of every call of `identify` on the
way, nothing throws and the pending region shrinks. -/
theorem conduct_terminates {n : Nat} (positive : 0 < n) (verdict : Testcase → Bool) {safe : Comb}
    (over' : safe.Over n) {Tpass Tfail : List Testcase} (binary : ∀ t ∈ Tfail, t.Binary n)
    {random : Nat → Bool} {r : AbstractFaultResolver}
    (created : fresh (Checker.ofVerdict fun t => .ok (verdict t)) Tpass Tfail safe random = .ok r)
    (order : IterOrder Comb) {fuel : Nat} (enough : 2 ^ n + 2 ≤ fuel) :
    (∃ after, (conduct fuel order).Runs r ⟨⟩ after) ∧
      ∀ done tfail rest, Tfail = done ++ tfail :: rest →
        ∃ s CMinF CMaxP,
          (done.forM (conductOne fuel order)).Runs { r with conducted := true } ⟨⟩ s ∧
          (seeds order tfail).Runs s (CMinF, CMaxP) s ∧
          ∀ point, LoopHead tfail ⟨Schema.ofFlag tfail.size true, (CMinF, CMaxP), s⟩ point →
            Terminating tfail point := by
  have ready : (started (fun t => .ok (verdict t)) Tpass Tfail safe random).Ready n verdict safe :=
    started_ready over'.valid fun t _ => rfl
  constructor
  · obtain ⟨after, runs, _⟩ :=
      conductAll_runs positive order enough (fun _ _ => True) Tfail binary
        (fun _ _ _ _ _ _ _ _ => trivial) ready started_identifiable trivial
    exact ⟨after, conduct_of_fresh created runs⟩
  · rintro done tfail rest rfl
    obtain ⟨s, runs, ready', identifiable, _⟩ := conductAll_runs positive order enough
      (fun _ _ => True) done (fun t member => binary t (List.mem_append_left _ member))
      (fun _ _ _ _ _ _ _ _ => trivial) ready started_identifiable trivial
    have binary' : tfail.Binary n := binary tfail (by simp)
    obtain ⟨CMinF, CMaxP, seeded, known, _⟩ :=
      seeds_runs positive binary'.size identifiable order
    obtain ⟨_, rfl⟩ := fresh_ok created
    refine ⟨s, CMinF, CMaxP, runs, seeded, fun point head => ?_⟩
    rw [binary'.size] at head
    obtain ⟨readyHere, knownHere⟩ := head.known binary' ready' known
    exact knownHere.terminating binary' readyHere

/-- A system that answers at odds with any table of faults, and wrong safe values. -/
theorem conduct_terminates_contradictory : ∃ r after,
    fresh (Checker.ofVerdict fun t => .ok (decide (t.val 0 = t.val 1))) []
      [⟨.testcase, [1, 1]⟩, ⟨.testcase, [0, 1]⟩] ⟨.comb, [1, -1]⟩
        (fun _ => false) = .ok r ∧
    (conduct 6 .insertion).Runs r ⟨⟩ after := by
  have created : fresh (Checker.ofVerdict fun t => .ok (decide (t.val 0 = t.val 1))) []
    [⟨.testcase, [1, 1]⟩, ⟨.testcase, [0, 1]⟩] ⟨.comb, [1, -1]⟩ (fun _ => false) =
      .ok _ := rfl
  obtain ⟨⟨after, runs⟩, _⟩ :=
    conduct_terminates (n := 2) (by decide) _ (by decide) (by decide)
      created .insertion (show 2 ^ 2 + 2 ≤ 6 by decide)
  exact ⟨_, after, created, runs⟩

end NoPendFaultResolver

end NoPend
