import NoPend.FaultResolver.Finds
import NoPend.Lib.Cost

set_option autoImplicit false

/- How many calls of `check` the resolvers make that leave out one parameter, or search for one. -/
namespace NoPend

open AbstractFaultResolver Proc SetFamily

/-- The calls of `check` since the last `reset`. -/
def AbstractFaultResolver.counter (r : AbstractFaultResolver) : Nat := r.checker.counter

section Check

theorem check_spends (t : Testcase) : Spends counter (check t) fun _ => 1 := by
  refine Spends.last (.modify fun r => le_refl _) fun _ => ?_
  exact (Spends.get _).free fun r => .lift _ _

theorem check_with_safevalues_spends (comb : Comb) (tfail : Testcase) :
    Spends counter (check_with_safevalues comb tfail) fun _ => 1 := by
  refine (Spends.get _).free fun r => ?_
  split
  · exact .throw _ _
  · refine Spends.lift_bind fun t _ => (check_spends t).last fun result => ?_
    refine Spends.last (.modify fun r => ?_) fun _ => .ret _ _
    cases result <;> exact le_refl _

theorem addIdentified_spends (tfail : Testcase) (MFS : Schema) :
    Spends counter (addIdentified tfail MFS) fun _ => 0 :=
  .lift_bind fun _ _ => .modify fun _ => le_refl _

end Check

theorem SOFOTFaultResolver.omitStep_spends (tfail : Testcase) (state : Comb × Schema) (i : Nat) :
    Spends counter (omitStep tfail state i) fun _ => 1 := by
  obtain ⟨t, MFS⟩ := state
  refine Spends.lift_bind fun old_value _ => Spends.lift_bind fun t _ => ?_
  refine (check_with_safevalues_spends t tfail).last fun result => ?_
  exact Spends.lift_bind fun _ _ => .ret _ _

/-- SOFOT makes one check for each parameter. -/
theorem SOFOTFaultResolver.conductOne_spends (tfail : Testcase) :
    Spends counter (conductOne tfail) fun _ => tfail.size := by
  refine Spends.lift_bind fun t _ => ?_
  have rounds :=
    Spends.foldlM (List.range tfail.size) (omitStep_spends tfail) (t, Schema.ofSize tfail.size)
  have total : ((List.range tfail.size).map fun _ => 1).sum = tfail.size := by simp
  rw [total] at rounds
  refine rounds.last fun state => ?_
  obtain ⟨_, MFS⟩ := state
  dsimp only
  split
  · exact .ret _ _
  · exact addIdentified_spends _ _

theorem FICFaultResovler.locateStep_spends (t : Testcase) (fixedParameter : Schema)
    (state : Comb × Schema)
    (i : Nat) : Spends counter (locateStep t fixedParameter state i) fun _ => 1 := by
  obtain ⟨comb, MFS⟩ := state
  unfold locateStep
  dsimp only
  split
  · refine Spends.lift_bind fun comb _ => ?_
    refine (check_with_safevalues_spends comb t).last fun passed => ?_
    split
    · exact Spends.lift_bind fun _ _ => Spends.lift_bind fun _ _ => .ret _ _
    · exact .ret _ _
  · exact .ret _ _

/-- The linear scan checks each parameter at most once. -/
theorem FICFaultResovler.locateOneMFC_spends (t : Testcase) (fixedParameter : Schema) :
    Spends counter (locateOneMFC t fixedParameter) fun _ => t.size := by
  refine Spends.lift_bind fun comb _ => ?_
  exact (Spends.foldlM (List.range t.size) (locateStep_spends t fixedParameter) _).bind
    (fun state => .lift _ fun _ => 0) (by simp)

section Halving

/-- A round of a search either leaves the loop or halves the interval, with one check. -/
def Halving (body : Int × Int × Int → ResolverM ((Int × Int × Int) ⊕ Int)) : Prop :=
  ∀ left right last state outcome after, (body (left, right, last)).Runs state outcome after →
    (∃ result, outcome = .inr result ∧ counter after ≤ counter state) ∨
      ∃ left' right' last', outcome = .inl (left', right', last') ∧ left ≤ right ∧
        (right' - left' + 1).toNat ≤ (right - left + 1).toNat / 2 ∧
          counter after ≤ counter state + 1

/-- A search makes a check for each binary digit of the length of the interval. -/
theorem Halving.spends {body : Int × Int × Int → ResolverM ((Int × Int × Int) ⊕ Int)}
    (halving : Halving body) (fuel : Nat) (start : Int × Int × Int) :
    Spends counter (iterate Exn.outOfFuel body fuel start) fun _ =>
      (start.2.1 - start.1 + 1).toNat.size := by
  refine Spends.iterate (fun current => (current.2.1 - current.1 + 1).toNat.size) ?_ ?_ fuel start
  · rintro ⟨left, right, last⟩ state ⟨left₁, right₁, last₁⟩ after round
    rcases halving left right last state _ after round with
      ⟨_, impossible, _⟩ | ⟨left', right', last', next, ordered, half, spent⟩
    · cases impossible
    · simp only [Sum.inl.injEq, Prod.mk.injEq] at next
      obtain ⟨rfl, rfl, rfl⟩ := next
      have digit := Nat.size_half (by omega) half
      dsimp only
      omega
  · rintro ⟨left, right, last⟩ state result after round
    rcases halving left right last state _ after round
      with ⟨_, _, nothing⟩ | ⟨_, _, _, impossible, _⟩
    · exact nothing.trans (Nat.le_add_right _ _)
    · cases impossible

theorem FICBSFaultResolver.searchRound_halving (t : Testcase) (freeParameters : List Nat) :
    Halving (searchRound t freeParameters) := by
  intro left right ans state outcome after round
  unfold searchRound at round
  dsimp only at round
  split at round
  · rename_i ordered
    obtain ⟨comb, _, rest⟩ := of_lift_bind round
    obtain ⟨passed, middle, checked, chosen⟩ := runs_bind.mp rest
    have spent := check_with_safevalues_spends comb t state passed middle checked
    split at chosen
    · obtain ⟨rfl, rfl⟩ := runs_pure.mp chosen
      exact Or.inr ⟨_, _, _, rfl, ordered, by omega, spent⟩
    · obtain ⟨rfl, rfl⟩ := runs_pure.mp chosen
      exact Or.inr ⟨_, _, _, rfl, ordered, by omega, spent⟩
  · obtain ⟨rfl, rfl⟩ := runs_pure.mp round
    exact Or.inl ⟨_, rfl, le_refl _⟩

theorem searchRound_halving (chain : List Schema) (tfail : Testcase) :
    Halving (searchRound chain tfail) := by
  intro left right result state outcome after round
  unfold searchRound at round
  dsimp only at round
  split at round
  · rename_i ordered
    obtain ⟨s, _, reading⟩ := of_lift_bind round
    obtain ⟨comb, _, rest⟩ := of_lift_bind reading
    obtain ⟨passed, middle, checked, chosen⟩ := runs_bind.mp rest
    have spent := check_with_safevalues_spends comb tfail state passed middle checked
    split at chosen
    · obtain ⟨rfl, rfl⟩ := runs_pure.mp chosen
      exact Or.inr ⟨_, _, _, rfl, ordered, by omega, spent⟩
    · obtain ⟨rfl, rfl⟩ := runs_pure.mp chosen
      exact Or.inr ⟨_, _, _, rfl, ordered, by omega, spent⟩
  · obtain ⟨rfl, rfl⟩ := runs_pure.mp round
    exact Or.inl ⟨_, rfl, le_refl _⟩

theorem FICBSFaultResolver.locateOneFixedParameter_spends (t : Testcase)
    (freeParameters : List Nat) :
    Spends counter (locateOneFixedParameter t freeParameters) fun _ =>
      freeParameters.length.size := by
  unfold locateOneFixedParameter
  split
  · exact .ret _ _
  · have search := (searchRound_halving t freeParameters).spends (freeParameters.length + 1)
      (0, (freeParameters.length : Int) - 1, -1)
    refine search.weaken fun _ => Nat.size_le_size ?_
    dsimp only
    omega

theorem searchChain_spends (indices : List Nat) (max min : Schema) (tfail : Testcase) :
    Spends counter (searchChain indices max min tfail) fun _ =>
      1 + (buildChain indices max min).length.size := by
  have search : Spends
      counter (iterate Exn.outOfFuel (searchRound (buildChain indices max min) tfail)
      ((buildChain indices max min).length + 1)
        (0, ((buildChain indices max min).length : Int) - 1, -1))
      fun _ => (buildChain indices max min).length.size := by
    refine ((searchRound_halving (buildChain indices max min) tfail).spends _ _).weaken fun _ =>
      Nat.size_le_size ?_
    dsimp only
    omega
  unfold searchChain
  split
  · exact .throw _ _
  · refine Spends.lift_bind fun ordered _ => ?_
    split
    · exact .throw _ _
    · refine Spends.lift_bind fun comb _ => ?_
      refine (check_with_safevalues_spends comb tfail).step fun passed => ?_
      split
      · exact .ret _ _
      · refine search.last fun result => ?_
        split
        · exact .ret _ _
        · exact Spends.lift_bind fun _ _ => .ret _ _

/-- The chain has one schema more than it takes up parameters. -/
theorem buildChain_length {n : Nat} {max min : Schema} (wfMax : max.Wf n) (wfMin : min.Wf n)
    (sub : min.bits ⊆ max.bits) {indices : List Nat} (all : ∀ i < n, i ∈ indices)
    (once : indices.Nodup) :
    (buildChain indices max min).length = max.bits.card - min.bits.card + 1 := by
  have chainBits := (buildChain_eq indices wfMax wfMin).2
  have length : (buildChain indices max min).length =
      (ladder min.bits (rungs indices max min)).length := by
    rw [← chainBits, List.length_map]
  have taken : (rungs indices max min).toFinset = max.bits \ min.bits := by
    ext i
    rw [List.mem_toFinset, mem_rungs, Finset.mem_sdiff]
    constructor
    · rintro ⟨_, outside, inMax⟩
      exact ⟨inMax, outside⟩
    · rintro ⟨inMax, outside⟩
      exact ⟨all i (wfMax.lt inMax), outside, inMax⟩
  have count : (rungs indices max min).length = (max.bits \ min.bits).card := by
    have distinct : (rungs indices max min).Nodup := once.filter _
    rw [← taken, List.toFinset_card_of_nodup distinct]
  rw [length, ladder_length, count, Finset.card_sdiff_of_subset sub]

/-- A round moves a parameter from the free ones to those located, or leaves the loop. -/
theorem FICBSFaultResolver.locateRound_moves {t : Testcase} {freeParameters found : List Nat}
    {outcome : (List Nat × List Nat) ⊕ List Nat} {state after : AbstractFaultResolver}
    (round : (FINOVLPFaultResolver.locateRound locateOneFixedParameter t
      (freeParameters, found)).Runs state outcome after) :
    counter after ≤ counter state + freeParameters.length.size ∧
      (outcome = .inr found ∨ ∃ k x, freeParameters[k]? = some x ∧
        outcome = .inl (freeParameters.eraseIdx k, found ++ [x])) := by
  obtain ⟨index, middle, search, rest⟩ := runs_bind.mp round
  have spent := locateOneFixedParameter_spends t freeParameters state index middle search
  by_cases last : index = -1
  · rw [if_pos last] at rest
    obtain ⟨rfl, rfl⟩ := runs_pure.mp rest
    exact ⟨spent, Or.inl rfl⟩
  · rw [if_neg last] at rest
    obtain ⟨x, there, more⟩ := of_lift_bind rest
    obtain ⟨rfl, rfl⟩ := runs_pure.mp more
    exact ⟨spent, Or.inr ⟨_, x, (listGet_eq_ok.mp there).2, rfl⟩⟩

/-- Locating a combination takes one search for each of its parameters, and a last one. -/
theorem FICBSFaultResolver.locateOneMFC_spends {n : Nat} {t : Testcase} (binary : t.Binary n)
    {fixedParameter : Schema} (wf : fixedParameter.Wf n) :
    Spends counter (locateOneMFC t fixedParameter) fun MFS => (MFS.fixed.card + 1) * n.size := by
  intro before MFS after runs
  obtain ⟨copy, _, loop⟩ := of_lift_bind runs
  obtain ⟨found, middle, rounds, last⟩ := runs_bind.mp loop
  obtain ⟨read, rfl⟩ := runs_lift.mp last
  have logic : fixedParameter.complement.getLogicSize = n := wf.logic
  have start : fixedParameter.complement.getIndices.Nodup := List.nodup_range.filter _
  have within : ∀ i ∈ fixedParameter.complement.getIndices, i < n := fun i member =>
    logic ▸ List.mem_range.mp (List.mem_filter.mp member).1
  have few : fixedParameter.complement.getIndices.length ≤ n := by
    refine (List.length_filter_le _ _).trans ?_
    rw [logic, List.length_range]
  have moved := Runs.of_iterate
    (fun current state => (current.2 ++ current.1).Perm fixedParameter.complement.getIndices ∧
      counter state ≤ counter before + current.2.length * n.size)
    (fun found state => (∃ rest, (found ++ rest).Perm fixedParameter.complement.getIndices) ∧
      counter state ≤ counter before + (found.length + 1) * n.size)
    ?_ ?_ ⟨List.Perm.refl _, Nat.le_add_right _ _⟩ rounds
  · obtain ⟨⟨rest, perm⟩, spent⟩ := moved
    have once : found.Nodup := (perm.nodup_iff.mpr start).of_append_left
    have inside : found.toFinset ⊆ Finset.range n := fun i member => Finset.mem_range.mpr
      (within i (perm.subset (List.mem_append_left _ (List.mem_toFinset.mp member))))
    have value := Schema.getComb_eq (s := Schema.ofIndices t.size found) rfl rfl
    rw [Schema.ofIndices_bits] at value
    obtain rfl := Except.ok.inj (value.symm.trans read)
    have fixes : (t.restrict found.toFinset).fixed.card = found.length := by
      rw [binary.restrict_fixed inside, List.toFinset_card_of_nodup once]
    dsimp only
    rw [fixes]
    exact spent
  · rintro ⟨free, located⟩ state ⟨free', located'⟩ later ⟨perm, spent⟩ round
    dsimp only at perm spent ⊢
    obtain ⟨more, impossible | ⟨k, x, there, next⟩⟩ := locateRound_moves round
    · cases impossible
    · obtain ⟨rfl, rfl⟩ := Prod.mk.inj (Sum.inl.inj next)
      obtain ⟨bound, rfl⟩ := List.getElem?_eq_some_iff.mp there
      have short : free.length ≤ n := by
        have length := perm.length_eq
        rw [List.length_append] at length
        omega
      have digits := Nat.size_le_size short
      refine ⟨?_, ?_⟩
      · rw [List.append_assoc]
        exact ((List.getElem_cons_eraseIdx_perm bound).append_left located).trans perm
      · rw [List.length_append, List.length_singleton, Nat.add_mul, Nat.one_mul]
        omega
  · rintro ⟨free, located⟩ state result later ⟨perm, spent⟩ round
    dsimp only at perm spent ⊢
    obtain ⟨more, result' | ⟨k, x, there, impossible⟩⟩ := locateRound_moves round
    · obtain rfl := Sum.inr.inj result'
      have short : free.length ≤ n := by
        have length := perm.length_eq
        rw [List.length_append] at length
        omega
      have digits := Nat.size_le_size short
      refine ⟨⟨free, perm⟩, ?_⟩
      rw [Nat.add_mul, Nat.one_mul]
      omega
    · cases impossible

/-- Both `binarySearch` methods call `check` at most twice, and once more for each halving of the
chain, whatever the system under test answers. -/
theorem binarySearch_checks {n : Nat} {max min : Schema} (wfMax : max.Wf n) (wfMin : min.Wf n)
    (sub : min.bits ⊆ max.bits) (tfail : Testcase) :
    ∀ search ∈ [NoPendFaultResolver.binarySearch max min tfail, TRTFaultResolver.binarySearch
      max min tfail], ∀ r found after, search.Runs r found after →
        after.counter ≤ r.counter + (2 + Nat.log 2 (max.bits.card - min.bits.card + 1)) := by
  have each : ∀ indices : List Nat, (∀ i < n, i ∈ indices) → indices.Nodup →
      Spends counter (searchChain indices max min tfail) fun _ =>
        2 + Nat.log 2 (max.bits.card - min.bits.card + 1) := by
    intro indices all once
    refine (searchChain_spends indices max min tfail).weaken fun _ => ?_
    have digits := Nat.size_eq_log (Nat.zero_lt_succ (max.bits.card - min.bits.card))
    rw [buildChain_length wfMax wfMin sub all once]
    rw [Nat.succ_eq_add_one] at digits
    omega
  have logic : max.getLogicSize = n := wfMax.logic
  intro search member r found after runs
  rcases List.mem_pair.mp member with rfl | rfl
  · refine each (List.range max.getLogicSize).reverse (fun i inside => ?_)
      (List.nodup_reverse.mpr List.nodup_range) r found after runs
    rw [List.mem_reverse, logic]
    exact List.mem_range.mpr inside
  · refine each (List.range max.getLogicSize) (fun i inside => ?_) List.nodup_range r
      found after runs
    rw [logic]
    exact List.mem_range.mpr inside

/-- A search between nothing and all of four parameters. -/
theorem binarySearch_checks_four : ∃ found after,
    (TRTFaultResolver.binarySearch (Schema.ofFlag 4 true) (Schema.ofSize 4)
      ⟨.testcase, [1, 1, 1, 1]⟩).Runs
      (started (Checker.judge [⟨.comb, [1, 1, -1, -1]⟩]) [] [] ⟨.comb, [0, 0, 0, 0]⟩
        fun _ => false)
      found after ∧ after.counter ≤ 0 + (2 + Nat.log 2 5) := by
  obtain ⟨found, runs⟩ := Runs.of_isOk (by decide +kernel :
    ((TRTFaultResolver.binarySearch (Schema.ofFlag 4 true) (Schema.ofSize 4)
      ⟨.testcase, [1, 1, 1, 1]⟩).exec
      (started (Checker.judge [⟨.comb, [1, 1, -1, -1]⟩]) [] [] ⟨.comb, [0, 0, 0, 0]⟩
        fun _ => false)).1.isOk =
        true)
  have few := binarySearch_checks (Schema.ofFlag_wf 4) (Schema.ofSize_wf 4)
    (by rw [Schema.ofSize_bits]; exact Finset.empty_subset _) ⟨.testcase, [1, 1, 1, 1]⟩ _
      (by simp) _ _ _ runs
  rw [Schema.ofFlag_true_bits, Schema.ofSize_bits] at few
  exact ⟨found, _, runs, few⟩

end Halving

section Family

open FINOVLPFaultResolver

variable {n a b : Nat} {MFC_real : List Comb} {safe : Comb} {tfail : Testcase}
  {locateOneMFC : Testcase → Schema → ResolverM Comb} {r : AbstractFaultResolver}

/-- Locating a combination takes at most `a` checks and `b` more for each of its parameters. -/
def FINOVLPFaultResolver.Price (n a b : Nat)
    (locateOneMFC : Testcase → Schema → ResolverM Comb) : Prop :=
  ∀ (t : Testcase) (fixedParameter : Schema), t.Binary n → fixedParameter.Wf n →
    Spends counter (locateOneMFC t fixedParameter) fun MFS => a + b * MFS.fixed.card

/-- The checks that go with the combinations in `found`. -/
def FINOVLPFaultResolver.outlay (a b : Nat) (found : HashSet Comb) : Nat :=
  (found.toList.map fun c => 1 + a + b * c.fixed.card).sum

theorem FINOVLPFaultResolver.fixParameters_spends (MFS : Comb) (t : Testcase)
    (fixedParameters : Schema) :
    Spends counter (fixParameters MFS t fixedParameters) fun _ => 0 := by
  have step : ∀ state i, Spends counter (fixParameter MFS state i) fun _ => 0 := by
    rintro ⟨t, fixedParameters⟩ i
    unfold fixParameter
    dsimp only
    split
    · exact .ret _ _
    · refine Spends.free ?_ fun _ => .ret _ _
      refine (Spends.get _).free fun r => ?_
      split
      · exact .throw _ _
      · refine Spends.lift_bind fun value _ => ?_
        split
        · exact .lift _ _
        · exact .lift _ _
  refine (Spends.foldlM (List.range MFS.size) step (t, fixedParameters)).weaken fun _ => ?_
  simp

theorem FINOVLPFaultResolver.FINOVLPRound_spends (price : Price n a b locateOneMFC) {t : Testcase}
    (binary : t.Binary n)
    {fixedParameters : Schema} (wf : fixedParameters.Wf n) {found : HashSet Comb}
    {outcome : (Testcase × Schema × HashSet Comb) ⊕ HashSet Comb}
    {state after : AbstractFaultResolver}
    (round : (FINOVLPRound locateOneMFC (t, fixedParameters, found)).Runs state outcome after) :
    (outcome = .inr found ∧ counter after ≤ counter state + 1) ∨
      ∃ MFS t' fixed', outcome = .inl (t', fixed', found.add MFS) ∧
        counter after ≤ counter state + (1 + a + b * MFS.fixed.card) := by
  obtain ⟨passed, checked, first, rest⟩ := runs_bind.mp round
  have one := check_spends t state passed checked first
  split at rest
  · obtain ⟨rfl, rfl⟩ := runs_pure.mp rest
    exact Or.inl ⟨rfl, one⟩
  · obtain ⟨MFS, middle, locating, more⟩ := runs_bind.mp rest
    have spent := price t fixedParameters binary wf checked MFS middle locating
    obtain ⟨⟨t', fixed'⟩, last, fixing, final⟩ := runs_bind.mp more
    have nothing := fixParameters_spends MFS t fixedParameters middle (t', fixed') last fixing
    obtain ⟨rfl, rfl⟩ := runs_pure.mp final
    refine Or.inr ⟨MFS, t', fixed', rfl, ?_⟩
    dsimp only at one spent nothing
    omega

/-- A round takes out a combination that was not found before. -/
theorem Peeled.new {t t' : Testcase} {fixed fixed' : Schema} {found : HashSet Comb} {M : Comb}
    (peeled : Peeled n MFC_real safe tfail t fixed found)
    (next : Peeled n MFC_real safe tfail t' fixed' (found.add M))
    (less : n - fixed'.bits.card < n - fixed.bits.card) : M ∉ found := by
  intro member
  have same : fixed'.bits = fixed.bits := by
    ext i
    rw [next.fixes i, peeled.fixes i]
    refine exists_congr fun c => and_congr_left' ?_
    rw [HashSet.mem_add]
    exact ⟨fun old => old.elim id fun here => here ▸ member, Or.inl⟩
  rw [same] at less
  omega

theorem FINOVLPFaultResolver.outlay_add {found : HashSet Comb} {M : Comb} (new : M ∉ found) :
    outlay a b (found.add M) = outlay a b found + (1 + a + b * M.fixed.card) := by
  rw [outlay, HashSet.toList_add new, List.map_append, List.sum_append, ← outlay]
  simp

/-- The checks of one failing test case: one for each combination that is found and a last one, and
what it takes to locate them. -/
theorem FINOVLPFaultResolver.FINOVLP_counter (table : FaultTable n MFC_real)
    (safeFor : SafeFor n MFC_real safe)
    (binary : tfail.Binary n) (locates : Locates n MFC_real safe locateOneMFC)
    (price : Price n a b locateOneMFC) (ready : r.Ready n (accepts MFC_real) safe) {fuel : Nat}
    {found : HashSet Comb} {after : AbstractFaultResolver}
    (runs : (FINOVLP locateOneMFC fuel tfail).Runs r found after) :
    DisjointFamily MFC_real tfail found ∧ SameConfig r after ∧
      counter after ≤ counter r + (outlay a b found + 1) := by
  obtain ⟨copy, made, loop⟩ := of_lift_bind runs
  rw [MutableTestcase.ofComb_eq binary] at made
  obtain rfl := Except.ok.inj made
  have size : (⟨.mutableTestcase, tfail.elements⟩ : Comb).size = n := binary.size
  rw [size] at loop
  refine Runs.of_iterate
    (fun current state => Peeled n MFC_real safe tfail current.1 current.2.1 current.2.2 ∧
      SameConfig r state ∧ counter state ≤ counter r + outlay a b current.2.2)
    (fun found state => DisjointFamily MFC_real tfail found ∧ SameConfig r state ∧
      counter state ≤ counter r + (outlay a b found + 1))
    ?_ ?_ ⟨Peeled.start binary, SameConfig.refl r, Nat.le_add_right _ _⟩ loop
  · rintro ⟨t, fixed, found⟩ state ⟨t', fixed', found'⟩ later
      ⟨peeled, same, spent⟩ round
    dsimp only at peeled same spent ⊢
    rcases FINOVLPRound_settles table safeFor binary peeled with
      ⟨leaves, _⟩ | ⟨t₁, fixed₁, found₁, goes, next, less⟩
    · obtain ⟨_, ends, _⟩ := leaves _ locates r ready state same
      cases (round.unique ends).1
    · obtain ⟨_, ends, kept⟩ := goes _ locates r ready state same
      obtain ⟨value, rfl⟩ := round.unique ends
      simp only [Sum.inl.injEq, Prod.mk.injEq] at value
      obtain ⟨rfl, rfl, rfl⟩ := value
      rcases FINOVLPRound_spends price (peeled.binary table safeFor binary) peeled.wf round with
        ⟨impossible, _⟩ | ⟨M, _, _, added, more⟩
      · cases impossible
      · simp only [Sum.inl.injEq, Prod.mk.injEq] at added
        obtain ⟨_, _, rfl⟩ := added
        refine ⟨next, kept, ?_⟩
        rw [outlay_add (peeled.new next less)]
        omega
  · rintro ⟨t, fixed, found⟩ state result later ⟨peeled, same, spent⟩ round
    dsimp only at peeled same spent ⊢
    rcases FINOVLPRound_settles table safeFor binary peeled with
      ⟨leaves, family⟩ | ⟨t₁, fixed₁, found₁, goes, next, less⟩
    · obtain ⟨_, ends, kept⟩ := leaves _ locates r ready state same
      obtain ⟨value, rfl⟩ := round.unique ends
      obtain rfl := Sum.inr.inj value
      rcases FINOVLPRound_spends price (peeled.binary table safeFor binary) peeled.wf round with
        ⟨_, more⟩ | ⟨_, _, _, impossible, _⟩
      · exact ⟨family, kept, by omega⟩
      · cases impossible
    · obtain ⟨_, ends, _⟩ := goes _ locates r ready state same
      cases (round.unique ends).1

theorem sum_affine (a b : Nat) (combs : List Comb) :
    (combs.map fun c => 1 + a + b * c.fixed.card).sum =
      combs.length * (1 + a) + b * (combs.map fun c => c.fixed.card).sum := by
  induction combs with
  | nil => simp
  | cons c rest ih =>
      rw [List.map_cons, List.sum_cons, ih, List.map_cons, List.sum_cons, List.length_cons,
        Nat.mul_add b, Nat.add_mul _ 1, Nat.one_mul]
      omega

/-- Disjoint combinations fix `n` parameters at most. -/
theorem DisjointFamily.sum_card {found : HashSet Comb}
    (family : DisjointFamily MFC_real tfail found)
    (table : FaultTable n MFC_real) : (found.toList.map fun c => c.fixed.card).sum ≤ n := by
  have disjoint : (found.toList.toFinset : Set Comb).PairwiseDisjoint Comb.fixed := by
    intro c inC d inD different
    exact family.disjoint c (List.mem_toFinset.mp inC) d (List.mem_toFinset.mp inD) different
  rw [← List.sum_toFinset _ found.nodup, ← Finset.card_biUnion disjoint]
  refine (Finset.card_le_card fun i member => ?_).trans_eq (Finset.card_range n)
  obtain ⟨c, inC, known⟩ := Finset.mem_biUnion.mp member
  have size := (table.binary c (family.minimal c (List.mem_toFinset.mp inC)).1.1).size
  exact size ▸ c.fixed_subset_range known

theorem DisjointFamily.outlay_le {found : HashSet Comb}
    (family : DisjointFamily MFC_real tfail found)
    (table : FaultTable n MFC_real) : outlay a b found ≤ n * (1 + a) + b * n := by
  have total := family.sum_card table
  have few : found.toList.length ≤ (found.toList.map fun c => c.fixed.card).sum := by
    refine (List.length_le_sum_of_one_le _ fun k member => ?_).trans' (List.length_map _).ge
    obtain ⟨c, inC, rfl⟩ := List.mem_map.mp member
    exact Finset.card_pos.mpr (table.fixes c (family.minimal c inC).1.1)
  rw [outlay, sum_affine]
  exact Nat.add_le_add (Nat.mul_le_mul_right _ (few.trans total)) (Nat.mul_le_mul_left _ total)

/-- The checks of all failing test cases. -/
theorem FINOVLPFaultResolver.conductAll_counter (table : FaultTable n MFC_real)
    (safeFor : SafeFor n MFC_real safe)
    (locates : Locates n MFC_real safe locateOneMFC) (price : Price n a b locateOneMFC)
    (ready : r.Ready n (accepts MFC_real) safe) {fuel : Nat} {tests : List Testcase}
    (binary : ∀ t ∈ tests, t.Binary n) {after : AbstractFaultResolver}
    (runs : (tests.forM (conductOne locateOneMFC fuel)).Runs r ⟨⟩ after) :
    counter after ≤ counter r + tests.length * (n * (1 + a) + b * n + 1) := by
  refine (Runs.of_forM (fun done state => state.Ready n (accepts MFC_real) safe ∧
    counter state ≤
      counter r + done.length * (n * (1 + a) + b * n + 1)) ?_ ⟨ready, ?_⟩ runs).2
  · rintro done t rest state later split ⟨ready', spent⟩ round
    obtain ⟨found, middle, first, last⟩ := runs_bind.mp round
    obtain ⟨_, rfl⟩ := (Runs.modify _ middle).unique last
    have here : t.Binary n := binary t (by rw [split]; simp)
    obtain ⟨family, same, more⟩ := FINOVLP_counter table safeFor here locates price ready' first
    have readyMiddle := ready'.of_sameConfig same
    have most := family.outlay_le (a := a) (b := b) table
    refine ⟨⟨readyMiddle.safeValues, readyMiddle.valid, readyMiddle.answers⟩, ?_⟩
    rw [List.length_append, List.length_singleton, Nat.add_mul, Nat.one_mul]
    change counter middle ≤ _
    omega
  · exact Nat.le_add_right _ _

theorem SOFOTFaultResolver.conduct_counter (never : r.conducted = false)
    (known : r.safeValues.isSome = true)
    (binary : ∀ t ∈ r.Tfail, t.Binary n) {after : AbstractFaultResolver}
    (runs : conduct.Runs r ⟨⟩ after) : counter after ≤ counter r + r.Tfail.length * n := by
  have first := of_get_bind runs
  rw [if_neg (by rw [never]; decide)] at first
  have second := of_get_bind (of_modify_bind first)
  have present : ¬ r.safeValues.isNone = true := by
    rw [Option.isNone_eq_false_iff.mpr known]
    decide
  rw [if_neg present] at second
  have spent := Spends.forM r.Tfail conductOne_spends _ _ _ (of_get_bind second)
  have total : (r.Tfail.map fun t => t.size).sum = r.Tfail.length * n := by
    rw [List.map_congr_left fun t member => (binary t member).size]
    simp
  rwa [total] at spent

theorem FINOVLPFaultResolver.conduct_counter (table : FaultTable n MFC_real)
    (safeFor : SafeFor n MFC_real safe) (locates : Locates n MFC_real safe locateOneMFC)
    (price : Price n a b locateOneMFC) (uses : Uses MFC_real safe r) (never : r.conducted = false)
    {fuel : Nat} (binary : ∀ t ∈ r.Tfail, t.Binary n) {after : AbstractFaultResolver}
    (runs : (conduct locateOneMFC fuel).Runs r ⟨⟩ after) :
    counter after ≤ counter r + r.Tfail.length * (n * (1 + a) + b * n + 1) := by
  have body := conductOnce_body never (by rw [uses.2]; rfl) runs
  have using' : Uses MFC_real safe { r with conducted := true } := uses
  exact conductAll_counter table safeFor locates price (using'.ready table.binary safeFor) binary
    (of_get_bind body)

theorem FICFaultResovler.price : Price n n 0 FICFaultResovler.locateOneMFC :=
  fun t fixedParameter binary _ => (locateOneMFC_spends t fixedParameter).weaken fun MFS => by
    rw [binary.size]
    omega

theorem FICBSFaultResolver.price (positive : 0 < n) :
    Price n (Nat.log 2 n + 1) (Nat.log 2 n + 1) FICBSFaultResolver.locateOneMFC :=
  fun t fixedParameter binary wf => (locateOneMFC_spends binary wf).weaken fun MFS => by
    rw [Nat.size_eq_log positive, Nat.add_mul, Nat.one_mul, Nat.mul_comm, Nat.add_comm]

/-- What the binary search saves: the two ways to locate combinations take the same ones out of a
test case, the scan with one pass over all `n` parameters for each of them, the search with
logarithmically many checks for each of their parameters. -/
theorem FINOVLP_checks (tfail : Testcase) (positive : 0 < n) (table : FaultTable n MFC_real)
    (safeFor : SafeFor n MFC_real safe) (binary : tfail.Binary n) (uses : Uses MFC_real safe r)
    {fuel : Nat} (enough : n < fuel) : ∃ found fic ficbs,
      (FINOVLP FICFaultResovler.locateOneMFC fuel tfail).Runs r found fic ∧
      (FINOVLP FICBSFaultResolver.locateOneMFC fuel tfail).Runs r found ficbs ∧
      fic.counter ≤ r.counter + (found.size * (1 + n) + 1) ∧
      ficbs.counter ≤ r.counter +
        ((found.toList.map fun c => 1 + (c.fixed.card + 1) * (Nat.log 2 n + 1)).sum + 1) := by
  obtain ⟨found, settles, _⟩ := FINOVLP_settles table safeFor binary
  have ready := uses.ready table.binary safeFor
  have scans : Locates n MFC_real safe FICFaultResovler.locateOneMFC := FICFaultResovler.locates
  have searches := FICBSFaultResolver.locates table safeFor
  obtain ⟨fic, runs, _⟩ := settles _ scans r ready fuel enough r (SameConfig.refl r)
  obtain ⟨ficbs, runs', _⟩ := settles _ searches r ready fuel enough r (SameConfig.refl r)
  obtain ⟨_, _, scan⟩ :=
    FINOVLP_counter table safeFor binary scans FICFaultResovler.price ready runs
  obtain ⟨_, _, search⟩ :=
    FINOVLP_counter table safeFor binary searches (FICBSFaultResolver.price positive) ready runs'
  refine ⟨found, fic, ficbs, runs, runs', ?_, ?_⟩
  · rw [outlay, sum_affine, Nat.zero_mul, Nat.add_zero] at scan
    exact scan
  · have same : outlay (Nat.log 2 n + 1) (Nat.log 2 n + 1) found =
        (found.toList.map fun c => 1 + (c.fixed.card + 1) * (Nat.log 2 n + 1)).sum := by
      refine congrArg List.sum (List.map_congr_left fun c _ => ?_)
      ring
    rwa [same] at search

/-- Two disjoint faults in a test case with four parameters. -/
theorem FINOVLP_checks_two : ∃ found fic ficbs,
    (FINOVLP FICFaultResovler.locateOneMFC 5 ⟨.testcase, [1, 1, 1, 1]⟩).Runs
      (started (Checker.judge [⟨.comb, [1, 1, -1, -1]⟩, ⟨.comb, [-1, -1, 1, -1]⟩]) [] []
        ⟨.comb, [0, 0, 0, 0]⟩ fun _ => false) found fic ∧
    (FINOVLP FICBSFaultResolver.locateOneMFC 5 ⟨.testcase, [1, 1, 1, 1]⟩).Runs
      (started (Checker.judge [⟨.comb, [1, 1, -1, -1]⟩, ⟨.comb, [-1, -1, 1, -1]⟩]) [] []
        ⟨.comb, [0, 0, 0, 0]⟩ fun _ => false) found ficbs ∧
    fic.counter ≤ found.size * 5 + 1 := by
  obtain ⟨found, fic, ficbs, runs, runs', few, _⟩ := FINOVLP_checks (n := 4)
    (r := started (Checker.judge [⟨.comb, [1, 1, -1, -1]⟩, ⟨.comb, [-1, -1, 1, -1]⟩]) [] []
      ⟨.comb, [0, 0, 0, 0]⟩ fun _ => false)
    ⟨.testcase, [1, 1, 1, 1]⟩ (by decide) (by decide) (by decide) (by decide) ⟨rfl, rfl⟩
      (show 4 < 5 by decide)
  exact ⟨found, fic, ficbs, runs, runs', few.trans_eq (Nat.zero_add _)⟩

end Family

end NoPend
