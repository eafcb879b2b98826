import NoPend.FaultResolver.FINOVLPExact

set_option autoImplicit false

/- The test cases that `FINOVLP` runs, read off `MFC_real`, the safe values and the failing test
case: what is left of it as one combination after the other is taken out, and the parts that
are checked to find the next one. -/
namespace NoPend

open AbstractFaultResolver Proc Shrink

instance (S T : Finset Nat) : Decidable (Before S T) :=
    inferInstanceAs (Decidable (∃ x ∈ T, _ ∧ _))

/-- The parameter sets of the combinations of `MFC_real` in `tfail`, first the one that a
deleting pass finds first. -/
def faultsIn (MFC_real : List Comb) (tfail : Testcase) : List (Finset Nat) :=
  ((MFC_real.filter fun M => tfail.Contains M).map Comb.fixed).insertionSort fun S T =>
    ¬ Before T S

/-- Every combination that shares no parameter with those taken out before is taken out, given
together with the parameters of these. -/
def takenOut : List (Finset Nat) → Finset Nat → List (Finset Nat × Finset Nat)
  | [], _ => []
  | M :: rest, F => if Disjoint M F then (F, M) :: takenOut rest (F ∪ M) else takenOut rest F

/-- The parameters that have their safe values when `FINOVLP` checks the test case itself. -/
def leftovers (MFC_real : List Comb) (tfail : Testcase) : List (Finset Nat) :=
  ∅ :: (takenOut (faultsIn MFC_real tfail) ∅).map fun taken => taken.1 ∪ taken.2

/-- The values of `tfail` with the parameters in `S` padded. -/
def paddedValues (safe : Comb) (tfail : Testcase) (S : Finset Nat) : List Int :=
  (List.range tfail.size).map fun i =>
    if i ∈ S then if safe.val i = Comb.UNKNOWN then 1 - tfail.val i else safe.val i
    else tfail.val i

/-- The test cases that `FINOVLP` runs from when the parameters in `F` have been fixed. -/
def testsFrom (clearedSets : Finset Nat → Finset Nat → List (Finset Nat)) (safe : Comb)
    (tfail : Testcase) : List (Finset Nat) → Finset Nat → List Testcase
  | [], F => [⟨.mutableTestcase, paddedValues safe tfail F⟩]
  | M :: rest, F =>
      if Disjoint M F then
        ⟨.mutableTestcase, paddedValues safe tfail F⟩ ::
          (clearedSets F M).map (fun C => ⟨.testcase, paddedValues safe tfail (F ∪ C)⟩) ++
          testsFrom clearedSets safe tfail rest (F ∪ M)
      else testsFrom clearedSets safe tfail rest F

variable {n : Nat} {MFC_real : List Comb} {safe : Comb} {t tfail : Testcase}

theorem faultsIn_sorted : (faultsIn MFC_real tfail).Pairwise fun S T => ¬ Before T S :=
  List.pairwise_insertionSort _ _

theorem mem_faultsIn {S : Finset Nat} :
    S ∈ faultsIn MFC_real tfail ↔ ∃ M ∈ MFC_real, tfail.Contains M ∧ M.fixed = S := by
  simp only [faultsIn, List.mem_insertionSort, List.mem_map, List.mem_filter, decide_eq_true_eq,
    and_assoc]

/-- What is run: the test case itself, with one combination after the other taken out, and the
parts that are padded to find the next one. -/
theorem mem_testsFrom {clearedSets : Finset Nat → Finset Nat → List (Finset Nat)}
    {faults : List (Finset Nat)} {F : Finset Nat} {u : Testcase} :
    u ∈ testsFrom clearedSets safe tfail faults F ↔
      (∃ G ∈ F :: (takenOut faults F).map fun taken => taken.1 ∪ taken.2,
        u = ⟨.mutableTestcase, paddedValues safe tfail G⟩) ∨
      ∃ taken ∈ takenOut faults F, ∃ C ∈ clearedSets taken.1 taken.2,
        u = ⟨.testcase, paddedValues safe tfail (taken.1 ∪ C)⟩ := by
  induction faults generalizing F with
  | nil => simp [testsFrom, takenOut]
  | cons M rest ih =>
      rw [testsFrom, takenOut]
      by_cases apart : Disjoint M F
      · rw [if_pos apart, if_pos apart, List.cons_append, List.mem_cons, List.mem_append,
          List.mem_map, ih]
        simp only [List.map_cons, List.mem_cons, exists_eq_or_imp]
        constructor
        · rintro (here | ⟨C, member, rfl⟩ | kept | part)
          · exact Or.inl (Or.inl here)
          · exact Or.inr (Or.inl ⟨C, member, rfl⟩)
          · exact Or.inl (Or.inr kept)
          · exact Or.inr (Or.inr part)
        · rintro ((here | kept) | ⟨C, member, rfl⟩ | part)
          · exact Or.inl here
          · exact Or.inr (Or.inr (Or.inl kept))
          · exact Or.inr (Or.inl ⟨C, member, rfl⟩)
          · exact Or.inr (Or.inr (Or.inr part))
      · rw [if_neg apart, if_neg apart]
        exact ih

section Values

variable {fixedParameters : Schema} {found : HashSet Comb}
  (table : FaultTable n MFC_real) (safeFor : SafeFor n MFC_real safe) (binary : tfail.Binary n)
  (peeled : Peeled n MFC_real safe tfail t fixedParameters found)

include table safeFor peeled

theorem Peeled.safe_known {i : Nat} (fixed : i ∈ fixedParameters.bits) :
    safe.val i ≠ Comb.UNKNOWN := by
  obtain ⟨c, member, known⟩ := (peeled.fixes i).mp fixed
  have value := safe_binary table safeFor (peeled.minimal c member).1.1 known
  simp only [Comb.UNKNOWN]
  omega

include binary

/-- What is left of the test case. -/
theorem Peeled.eq_padded :
    t = ⟨.mutableTestcase, paddedValues safe tfail fixedParameters.bits⟩ := by
  refine Comb.ext peeled.cls ?_ fun i inside => ?_
  · rw [peeled.size, ← binary.size, paddedValues, Comb.size_tabulate]
  · rw [paddedValues, Comb.val_tabulate _ _ (by rw [binary.size, ← peeled.size]; exact inside),
      peeled.val i]
    by_cases fixed : i ∈ fixedParameters.bits
    · rw [if_pos fixed, if_pos fixed, if_neg (peeled.safe_known table safeFor fixed)]
    · rw [if_neg fixed, if_neg fixed]

/-- The part of it that is left when the parameters in `C` are cleared, padded. -/
theorem Peeled.part_eq_padded (C : Finset Nat) :
    paddedPart safe t (Finset.range n \ C) =
      ⟨.testcase, paddedValues safe tfail (fixedParameters.bits ∪ C)⟩ := by
  refine Comb.ext rfl ?_ fun i inside => ?_
  · rw [paddedPart_size, peeled.size, ← binary.size, paddedValues, Comb.size_tabulate]
  · rw [paddedPart_size, peeled.size] at inside
    have known := (peeled.binary table safeFor binary).values i inside
    rw [paddedPart, Comb.padWith_val (by rw [Comb.restrict_size, peeled.size]; exact inside),
      Comb.restrict_val, paddedValues, Comb.val_tabulate _ _ (by rw [binary.size]; exact inside)]
    simp only [Finset.mem_sdiff, Finset.mem_range, inside, true_and, Finset.mem_union]
    by_cases fixed : i ∈ fixedParameters.bits
    · have safe_known := peeled.safe_known table safeFor fixed
      have value := peeled.val i
      rw [if_pos fixed] at value
      by_cases cleared : i ∈ C
      · simp [fixed, cleared, safe_known]
      · simp [fixed, cleared, safe_known, value]
    · have value := peeled.val i
      rw [if_neg fixed] at value
      rw [value] at known ⊢
      by_cases cleared : i ∈ C
      · simp [fixed, cleared]
      · simp only [fixed, cleared, not_false_iff, if_true, or_self, if_false]
        rw [if_neg (by simp only [Comb.UNKNOWN]; omega)]

end Values

section Rounds

open FINOVLPFaultResolver

variable {r : AbstractFaultResolver} {fixedParameters : Schema} {found : HashSet Comb}
  {clearedSets : Nat → Finset Nat → Finset Nat → List (Finset Nat)}
  {locateOneMFC : Testcase → Schema → ResolverM Comb}

/-- The combinations of `tfail` that do without the parameters in `F` are still in the list. -/
structure Ahead (MFC_real : List Comb) (tfail : Testcase) (faults : List (Finset Nat))
    (F : Finset Nat) : Prop where
  sorted : faults.Pairwise fun S T => ¬ Before T S
  listed : ∀ S ∈ faults, ∃ M ∈ MFC_real, tfail.Contains M ∧ M.fixed = S
  all : ∀ M ∈ MFC_real, tfail.Contains M → Disjoint M.fixed F → M.fixed ∈ faults

theorem Ahead.start : Ahead MFC_real tfail (faultsIn MFC_real tfail) ∅ :=
  ⟨faultsIn_sorted, fun _ member => mem_faultsIn.mp member,
    fun M member inside _ => mem_faultsIn.mpr ⟨M, member, inside, rfl⟩⟩

/-- A combination that uses a fixed parameter is passed over. -/
theorem Ahead.skip {M F : Finset Nat} {rest : List (Finset Nat)} (meets : ¬ Disjoint M F)
    (ahead : Ahead MFC_real tfail (M :: rest) F) : Ahead MFC_real tfail rest F := by
  refine ⟨(List.pairwise_cons.mp ahead.sorted).2,
    fun S member => ahead.listed S (List.mem_cons_of_mem _ member),
    fun N member inside apart => ?_⟩
  rcases List.mem_cons.mp (ahead.all N member inside apart) with same | later
  · exact absurd (same ▸ apart) meets
  · exact later

theorem Ahead.next (table : FaultTable n MFC_real) {M F : Finset Nat} {rest : List (Finset Nat)}
    (ahead : Ahead MFC_real tfail (M :: rest) F) : Ahead MFC_real tfail rest (F ∪ M) := by
  refine ⟨(List.pairwise_cons.mp ahead.sorted).2,
    fun S member => ahead.listed S (List.mem_cons_of_mem _ member),
    fun N member inside apart => ?_⟩
  rw [Finset.disjoint_union_right] at apart
  rcases List.mem_cons.mp (ahead.all N member inside apart.1) with same | later
  · obtain ⟨i, known⟩ := table.fixes N member
    exact absurd (same ▸ known) (Finset.disjoint_left.mp apart.2 known)
  · exact later

variable (table : FaultTable n MFC_real) (safeFor : SafeFor n MFC_real safe)
  (binary : tfail.Binary n) (peeled : Peeled n MFC_real safe tfail t fixedParameters found)

include table safeFor binary peeled

/-- Nothing is left to be taken out. -/
theorem Peeled.accepts_of_ahead (ahead : Ahead MFC_real tfail [] fixedParameters.bits) :
    accepts MFC_real t = true := by
  simp only [accepts, decide_eq_true_eq]
  intro M member inside
  have apart : ∀ i ∈ M.fixed, i ∉ fixedParameters.bits :=
    fun i known => peeled.clear table safeFor member inside known
  have listed := ahead.all M member ((peeled.contains_iff binary apart).mp inside)
    (Finset.disjoint_left.mpr apart)
  cases listed

/-- A deleting pass finds the first combination that does without the fixed parameters. -/
theorem Peeled.located_eq {M : Finset Nat} {rest : List (Finset Nat)}
    (ahead : Ahead MFC_real tfail (M :: rest) fixedParameters.bits)
    (apart : Disjoint M fixedParameters.bits) :
    accepts MFC_real t = false ∧
      ∃ N, MinimalFault MFC_real N ∧ t.Contains N ∧ N.fixed = M ∧ t.restrict M = N ∧
        (located n (accepts MFC_real) safe t fixedParameters).toFinset = M := by
  obtain ⟨K, member, inside, rfl⟩ := ahead.listed M (by simp)
  have insideT : t.Contains K := (peeled.contains_iff binary fun i known =>
    Finset.disjoint_left.mp apart known).mpr inside
  have binary' := peeled.binary table safeFor binary
  have failing : accepts MFC_real t = false := by
    simp only [accepts, decide_eq_false_iff_not, not_forall, not_not]
    exact ⟨K, member, insideT⟩
  obtain ⟨N, minimal, insideN, same⟩ := located_minimal table safeFor binary' failing
    fun M member inside i known => peeled.clear table safeFor member inside known
  have within : (located n (accepts MFC_real) safe t fixedParameters).toFinset ⊆ Finset.range n :=
    fun i stays => Finset.mem_range.mpr (mem_freeIn.mp ((Shrink.needed_sublist _).subset
      (List.mem_toFinset.mp stays))).1
  have fixedN : N.fixed = (located n (accepts MFC_real) safe t fixedParameters).toFinset := by
    rw [← same, binary'.restrict_fixed within]
  -- neither of the two comes before the other
  have first : ¬ Before K.fixed N.fixed := by
    rw [fixedN]
    exact not_before_needed (fails_mono table safeFor binary'.size)
      (freeIn_sorted fixedParameters) (insideT.fixed_within binary'.size)
      ((fails_iff table safeFor binary'.size).mpr
        ⟨K, member, insideT, Finset.Subset.refl _⟩)
  have apartN : ∀ i ∈ N.fixed, i ∉ fixedParameters.bits :=
    fun i known => peeled.clear table safeFor minimal.1 insideN known
  have whole : N.fixed = K.fixed := by
    rcases List.mem_cons.mp (ahead.all N minimal.1 ((peeled.contains_iff binary apartN).mp insideN)
      (Finset.disjoint_left.mpr apartN)) with eq | later
    · exact eq
    · by_contra other
      rcases before_or_before other with before | after
      · exact (List.pairwise_cons.mp ahead.sorted).1 _ later before
      · exact first after
  refine ⟨failing, N, minimal, insideN, whole, ?_, fixedN.symm.trans whole⟩
  rw [← whole, fixedN, same]

theorem FINOVLPRound_last (ready : r.Ready n (accepts MFC_real) safe)
    (ahead : Ahead MFC_real tfail [] fixedParameters.bits) :
    Executes r (FINOVLPRound locateOneMFC (t, fixedParameters, found)) (.inr found)
      [⟨.mutableTestcase, paddedValues safe tfail fixedParameters.bits⟩] := by
  have checked := check_executes (ready.answers t peeled.size)
  rw [peeled.accepts_of_ahead table safeFor binary ahead] at checked
  rw [← peeled.eq_padded table safeFor binary]
  exact checked.bind_quiet (Logs.ret _)

theorem FINOVLPRound_next (ready : r.Ready n (accepts MFC_real) safe)
    (clears : Clears n MFC_real safe clearedSets locateOneMFC) {M : Finset Nat}
    {rest : List (Finset Nat)} (ahead : Ahead MFC_real tfail (M :: rest) fixedParameters.bits)
    (apart : Disjoint M fixedParameters.bits) :
    ∃ t' fixed' found', Executes r (FINOVLPRound locateOneMFC (t, fixedParameters, found))
        (.inl (t', fixed', found'))
        (⟨.mutableTestcase, paddedValues safe tfail fixedParameters.bits⟩ ::
          (clearedSets n fixedParameters.bits M).map
            fun C => ⟨.testcase, paddedValues safe tfail (fixedParameters.bits ∪ C)⟩) ∧
      Peeled n MFC_real safe tfail t' fixed' found' ∧
      fixed'.bits = fixedParameters.bits ∪ M := by
  obtain ⟨failing, N, minimal, inside, rfl, part, located⟩ :=
    peeled.located_eq table safeFor binary ahead apart
  obtain ⟨t', fixed', fixing, cls', size', val', wf', bits'⟩ :=
    fixParameters_executes (accepts MFC_real) (table.binary N minimal.1).size
      (fun i => safe_binary table safeFor minimal.1) peeled.size peeled.wf
  obtain ⟨next, _⟩ :=
    peeled.step table safeFor binary minimal inside cls' size' val' wf' bits'
  refine ⟨t', fixed', found.add N, ?_, next, bits'⟩
  have checked := check_executes (ready.answers t peeled.size)
  have locating := clears r ready t (peeled.binary table safeFor binary) failing fixedParameters
    peeled.wf
  rw [located, part] at locating
  rw [failing] at checked
  have parts : (clearedSets n fixedParameters.bits N.fixed).map
      (fun C => paddedPart safe t (Finset.range n \ C)) =
        (clearedSets n fixedParameters.bits N.fixed).map
          fun C => ⟨.testcase, paddedValues safe tfail (fixedParameters.bits ∪ C)⟩ :=
    List.map_congr_left fun C _ => peeled.part_eq_padded table safeFor binary C
  rw [parts] at locating
  rw [← peeled.eq_padded table safeFor binary]
  exact checked.bind (locating.bind_quiet ((fixing r ready).bind (Logs.ret _)))

omit peeled in
/-- The rounds of a run that returns take out what is ahead. -/
theorem FINOVLPRounds_check (ready : r.Ready n (accepts MFC_real) safe)
    (clears : Clears n MFC_real safe clearedSets locateOneMFC) (faults : List (Finset Nat))
    {t : Testcase} {fixedParameters : Schema} {found result : HashSet Comb}
    (peeled : Peeled n MFC_real safe tfail t fixedParameters found)
    (ahead : Ahead MFC_real tfail faults fixedParameters.bits) {fuel : Nat}
    {before after : AbstractFaultResolver} (same : SameConfig r before)
    (runs : (iterate .outOfFuel (FINOVLPRound locateOneMFC) fuel (t, fixedParameters, found)).Runs
      before result after) :
    SameConfig r after ∧ after.checker =
      (testsFrom (clearedSets n) safe tfail faults fixedParameters.bits).foldl Checker.record
        before.checker := by
  induction faults generalizing t fixedParameters found fuel before with
  | nil =>
      cases fuel with
      | zero => exact absurd runs runs_throw
      | succ fuel =>
          obtain ⟨outcome, middle, round, rest⟩ := runs_bind.mp runs
          obtain ⟨rfl, kept, checked⟩ :=
            (FINOVLPRound_last table safeFor binary peeled ready ahead).of_runs same round
          obtain ⟨rfl, rfl⟩ := runs_pure.mp rest
          exact ⟨kept, checked⟩
  | cons M faults ih =>
      rw [testsFrom]
      by_cases apart : Disjoint M fixedParameters.bits
      · rw [if_pos apart]
        cases fuel with
        | zero => exact absurd runs runs_throw
        | succ fuel =>
            obtain ⟨t', fixed', found', executes, next, bits⟩ :=
              FINOVLPRound_next table safeFor binary peeled ready clears ahead apart
            obtain ⟨outcome, middle, round, rest⟩ := runs_bind.mp runs
            obtain ⟨rfl, kept, checked⟩ := executes.of_runs same round
            have ahead' := ahead.next table
            rw [← bits] at ahead'
            obtain ⟨final, recorded⟩ := ih next ahead' kept rest
            refine ⟨final, ?_⟩
            rw [recorded, checked, bits, ← List.foldl_append]
      · rw [if_neg apart]
        exact ih peeled (ahead.skip apart) same runs

end Rounds

section Conduct

open FINOVLPFaultResolver

variable {r after : AbstractFaultResolver} {fuel : Nat}
  {clearedSets : Nat → Finset Nat → Finset Nat → List (Finset Nat)}
  {locateOneMFC : Testcase → Schema → ResolverM Comb}

/-- The test cases that are run for one failing test case. -/
def testsOf (clearedSets : Nat → Finset Nat → Finset Nat → List (Finset Nat)) (n : Nat)
    (MFC_real : List Comb) (safe : Comb) (tfail : Testcase) : List Testcase :=
  testsFrom (clearedSets n) safe tfail (faultsIn MFC_real tfail) ∅

theorem conductOne_checks (table : FaultTable n MFC_real) (safeFor : SafeFor n MFC_real safe)
    (clears : Clears n MFC_real safe clearedSets locateOneMFC) (binary : tfail.Binary n)
    (ready : r.Ready n (accepts MFC_real) safe)
    (runs : (conductOne locateOneMFC fuel tfail).Runs r ⟨⟩ after) :
    after.Ready n (accepts MFC_real) safe ∧ after.checker =
      (testsOf clearedSets n MFC_real safe tfail).foldl Checker.record r.checker := by
  obtain ⟨found, middle, first, second⟩ := runs_bind.mp runs
  obtain ⟨t, made, rounds⟩ := of_lift_bind first
  rw [MutableTestcase.ofComb_eq binary] at made
  rw [← Except.ok.inj made] at rounds
  have size : (⟨.mutableTestcase, tfail.elements⟩ : Comb).size = n := binary.size
  rw [size] at rounds
  obtain ⟨kept, checked⟩ := FINOVLPRounds_check table safeFor binary ready clears
    (faultsIn MFC_real tfail) (Peeled.start binary) (by simpa using Ahead.start)
    (SameConfig.refl r) rounds
  have ready' := ready.of_sameConfig kept
  rw [runs_modify.mp second]
  refine ⟨⟨ready'.safeValues, ready'.valid, ready'.answers⟩, ?_⟩
  rw [testsOf, ← Schema.ofSize_bits n]
  exact checked

/-- A run of `conduct` that returns runs the test cases of one failing test case after the
other. -/
theorem FINOVLPFaultResolver.checker_of_conduct (table : FaultTable n MFC_real)
    (safeFor : SafeFor n MFC_real safe) (clears : Clears n MFC_real safe clearedSets locateOneMFC)
    (uses : Uses MFC_real safe r) (never : r.conducted = false)
    (binary : ∀ t ∈ r.Tfail, t.Binary n)
    (runs : (conduct locateOneMFC fuel).Runs r ⟨⟩ after) :
    after.checker =
      (r.Tfail.flatMap (testsOf clearedSets n MFC_real safe)).foldl Checker.record r.checker := by
  have body := of_get_bind (conductOnce_body never (by rw [uses.2]; rfl) runs)
  have using' : Uses MFC_real safe { r with conducted := true } := uses
  refine (Runs.of_forM (fun done s => s.Ready n (accepts MFC_real) safe ∧ s.checker =
    (done.flatMap (testsOf clearedSets n MFC_real safe)).foldl Checker.record r.checker)
    ?_ ⟨using'.ready table.binary safeFor, rfl⟩ body).2
  rintro done tfail rest s s' split ⟨ready, checked⟩ first
  have member : tfail ∈ r.Tfail := by
    change r.Tfail = _ at split
    rw [split]
    simp
  obtain ⟨ready', more⟩ :=
    conductOne_checks table safeFor clears (binary tfail member) ready first
  refine ⟨ready', ?_⟩
  rw [more, checked, List.flatMap_append, List.foldl_append, List.flatMap_singleton]

end Conduct

end NoPend
