import NoPend.FaultResolver.Candidates

set_option autoImplicit false

namespace NoPend

open AbstractFaultResolver Proc

namespace IterAIFL

/-- The body of the loop over the parameters of a mutant. -/
def flipFixed (tway : Comb) (t : Testcase) (i : Nat) : Except Exn Testcase := do
  if (← tway.get i) ≠ Comb.UNKNOWN then MutableTestcase.flip t i else return t

/-- The mutant of `tfail` that differs from it in the parameters that `tway` fixes. -/
def mutateOne (tfail : Testcase) (tway : Comb) : Except Exn Testcase := do
  let t ← MutableTestcase.ofComb tfail
  Testcase.ofComb (← (List.range t.size).foldlM (flipFixed tway) t)

def mutate (combination : Combination) (strength : Nat) (tfail : Testcase) :
    Except Exn (List Testcase) := do
  let twaySets ← tfail.tWayComb combination strength
  twaySets.mapM (mutateOne tfail)

def getAT (combination : Combination) (strength : Nat) (Tfail : List Testcase) :
    Except Exn (List Testcase) := do
  return (← Tfail.mapM (mutate combination strength)).flatten

/-- `getMinimal(faultyComb)`. The argument is walked in the given order, its copy shrinks. -/
def getMinimal (order : IterOrder Comb) (faultyComb : HashSet Comb) : Except Exn (HashSet Comb) :=
  (order.walk faultyComb.toList).foldlM (fun minimalSet comb =>
    if !minimalSet.contains comb then .ok minimalSet
    else removeSupersets comb minimalSet) faultyComb

end IterAIFL

namespace IterAIFLFaultResolver

/-- The body of the loop over the mutants. -/
def runMutant (suspiciousSet : HashSet Comb) (testcase : Testcase) : ResolverM (HashSet Comb) := do
  if ← check testcase then removeParts testcase suspiciousSet else return suspiciousSet

/-- One round of the loop over the strengths. -/
def strengthRound (combination : Combination) (suspiciousSet : HashSet Comb) (i : Nat) :
    ResolverM (HashSet Comb) := do
  let AT ← IterAIFL.getAT combination i (← get).Tfail
  let suspiciousSet ← AT.foldlM runMutant suspiciousSet
  if suspiciousSet.isEmpty then throw (.runtime "Implementation is wrong")
  return suspiciousSet

def conduct (combination : Combination) (order : IterOrder Comb) : ResolverM Unit := do
  if (← get).conducted then return
  modify fun r => { r with conducted := true }
  let r ← get
  let suspiciousSet ← candidates combination r.Tpass r.Tfail
  match r.Tfail with
  | [] => throw .noSuchElement
  | first :: _ =>
      let suspiciousSet ← (List.range' 1 (first.size - 1)).foldlM (strengthRound combination)
        suspiciousSet
      let minimalSet ← IterAIFL.getMinimal order suspiciousSet
      modify (identified · minimalSet.toList)

end IterAIFLFaultResolver

variable {n : Nat} {MFC_real : List Comb} {r : AbstractFaultResolver} {t tfail : Testcase}

section Mutants

/-- The test case that differs from `t` exactly in the parameters in `S`. -/
def flipped (t : Testcase) (S : Finset Nat) : Testcase :=
  ⟨.testcase, (List.range t.size).map fun i => if i ∈ S then 1 - t.val i else t.val i⟩

theorem flipped_val (t : Testcase) (S : Finset Nat) {i : Nat} (inside : i < t.size) :
    (flipped t S).val i = if i ∈ S then 1 - t.val i else t.val i :=
  Comb.val_tabulate _ _ inside

theorem flipped_binary (binary : t.Binary n) (S : Finset Nat) : (flipped t S).Binary n := by
  refine ⟨(Comb.size_tabulate _ _ _).trans binary.size, fun i inside => ?_⟩
  rw [flipped_val t S (binary.size ▸ inside)]
  have value := binary.values i inside
  split <;> omega

/-- The `MutableTestcase` with the values of `flipped t S`. -/
def mutableFlipped (t : Testcase) (S : Finset Nat) : Testcase :=
  ⟨.mutableTestcase, (flipped t S).elements⟩

theorem flip_mutableFlipped (binary : t.Binary n) {S : Finset Nat} {i : Nat} (inside : i < n)
    (fresh : i ∉ S) :
    MutableTestcase.flip (mutableFlipped t S) i = .ok (mutableFlipped t (insert i S)) := by
  have bound : i < t.size := binary.size ▸ inside
  have value : (mutableFlipped t S).val i = t.val i := by
    change (flipped t S).val i = t.val i
    rw [flipped_val t S bound, if_neg fresh]
  have size : ¬ (mutableFlipped t S).size ≤ i := by
    have same : (mutableFlipped t S).size = t.size := Comb.size_tabulate _ _ _
    omega
  have turned : ∀ v, v = 1 - t.val i →
      (mutableFlipped t S).set i v = .ok (mutableFlipped t (insert i S)) := by
    rintro v rfl
    unfold mutableFlipped flipped
    rw [Comb.set_tabulate bound]
    congr 3
    funext j
    by_cases here : j = i
    · subst here
      simp
    · simp [here]
  unfold MutableTestcase.flip
  rw [if_neg size]
  simp only [value]
  rcases binary.values i inside with zero | one
  · rw [zero]
    exact turned 1 (by omega)
  · rw [one]
    exact turned 0 (by omega)

theorem flipFixed_eq (binary : t.Binary n) {S T : Finset Nat} {i : Nat} (inside : i < n)
    (fresh : i ∉ T) : IterAIFL.flipFixed (t.restrict S) (mutableFlipped t T) i =
      .ok (mutableFlipped t (if i ∈ S then insert i T else T)) := by
  have read : (t.restrict S).get i = .ok (if i ∈ S then t.val i else Comb.UNKNOWN) := by
    rw [Comb.get_eq_val (by rw [Comb.restrict_size, binary.size]; exact inside), Comb.restrict_val]
  rw [IterAIFL.flipFixed, read]
  by_cases there : i ∈ S
  · have known : t.val i ≠ Comb.UNKNOWN := by
      have value := binary.values i inside
      simp only [Comb.UNKNOWN]
      omega
    simp only [if_pos there, bind, Except.bind, if_pos known]
    exact flip_mutableFlipped binary inside fresh
  · simp [there, bind, Except.bind, pure, Except.pure]

theorem mutateOne_eq (binary : t.Binary n) {S : Finset Nat} (within : S ⊆ Finset.range n) :
    IterAIFL.mutateOne t (t.restrict S) = .ok (flipped t S) := by
  -- after `k` rounds the parameters of `S` below `k` have been flipped
  have loop : ∀ k ≤ n, (List.range k).foldlM (IterAIFL.flipFixed (t.restrict S))
      (mutableFlipped t ∅) = .ok (mutableFlipped t (S ∩ Finset.range k)) := by
    intro k bound
    induction k with
    | zero => simp [pure, Except.pure]
    | succ k ih =>
        have grown : (if k ∈ S then insert k (S ∩ Finset.range k) else S ∩ Finset.range k) =
            S ∩ Finset.range (k + 1) := by
          rw [Finset.range_add_one]
          split
          · rename_i there
            rw [Finset.inter_insert_of_mem there]
          · rename_i absent
            rw [Finset.inter_insert_of_notMem absent]
        rw [List.range_succ, List.foldlM_append, ih (by omega)]
        simp only [List.foldlM_cons, List.foldlM_nil, bind, Except.bind,
          flipFixed_eq binary bound (show k ∉ S ∩ Finset.range k by simp), grown]
        rfl
  have start : (⟨.mutableTestcase, t.elements⟩ : Testcase) = mutableFlipped t ∅ := by
    refine Comb.ext rfl (Comb.size_tabulate _ _ _).symm fun i inside => ?_
    change t.val i = (flipped t ∅).val i
    rw [flipped_val t ∅ inside, if_neg (Finset.notMem_empty i)]
  have size : (⟨.mutableTestcase, t.elements⟩ : Testcase).size = n := binary.size
  have wf : (mutableFlipped t S).Binary n :=
    ⟨(flipped_binary binary S).size, (flipped_binary binary S).values⟩
  have done := loop n (le_refl n)
  rw [Finset.inter_eq_left.mpr within] at done
  rw [IterAIFL.mutateOne, MutableTestcase.ofComb_eq binary]
  simp only [bind, Except.bind, size]
  rw [start, done]
  exact Testcase.ofComb_eq wf

/-- The mutants of strength `k` differ from a failing test case in `k` parameters. -/
theorem getAT_ok (combination : Combination) (small : ∀ k, n.choose k < 2 ^ 31)
    {Tfail : List Testcase} (binary : ∀ t ∈ Tfail, t.Binary n) {k : Nat} (le : k ≤ n) :
    ∃ AT, IterAIFL.getAT combination k Tfail = .ok AT ∧
      ∀ t, t ∈ AT ↔ ∃ tfail ∈ Tfail, ∃ S ∈ Finset.powersetCard k (Finset.range n),
        flipped tfail S = t := by
  have sets := combination.mem_of k (List.nodup_range (n := n))
  rw [List.toFinset_range] at sets
  have each : ∀ tfail ∈ Tfail, IterAIFL.mutate combination k tfail =
      .ok ((combination.of (List.range n) k).map fun ys => flipped tfail ys.toFinset) := by
    intro tfail member
    have wf := binary tfail member
    have within : ∀ ys ∈ combination.of (List.range n) k, ys.toFinset ⊆ Finset.range n :=
      fun ys listed => (Finset.mem_powersetCard.mp
        ((sets ys.toFinset).mp (List.mem_map_of_mem listed))).1
    have mutants : ∀ c ∈ (combination.of (List.range n) k).map fun ys =>
        tfail.restrict ys.toFinset, IterAIFL.mutateOne tfail c = .ok (flipped tfail c.fixed) := by
      intro c listed
      obtain ⟨ys, inside, rfl⟩ := List.mem_map.mp listed
      rw [wf.restrict_fixed (within ys inside)]
      exact mutateOne_eq wf (within ys inside)
    rw [IterAIFL.mutate, tWayComb_eq combination wf.size le (small k)]
    change List.mapM _ _ = _
    rw [Except.mapM_ok mutants, List.map_map]
    congr 1
    refine List.map_congr_left fun ys inside => ?_
    rw [Function.comp_apply, wf.restrict_fixed (within ys inside)]
  refine ⟨_, by rw [IterAIFL.getAT, Except.mapM_ok each]; rfl, fun t => ?_⟩
  simp only [List.mem_flatten, List.mem_map, exists_exists_and_eq_and, ← sets]

end Mutants

section Minimal

/-- An element that is still there removes what properly contains it. -/
def dropsSupersets : Comb → Comb → Prop := Sweep.Drops (fun c d => d.Contains c) fun _ => True

/-- One round of the loop of `getMinimal` is one step of a walk along the set. -/
theorem minimalStep_ok {minimalSet : HashSet Comb} (sizes : ∀ c ∈ minimalSet, c.size = n)
    {comb : Comb} (size : comb.size = n) : ∃ next,
      (if !minimalSet.contains comb then Except.ok minimalSet else removeSupersets
        comb minimalSet) =
        .ok next ∧
      {c | c ∈ next} = Sweep.step dropsSupersets {c | c ∈ minimalSet} comb := by
  by_cases there : comb ∈ minimalSet
  · obtain ⟨next, removed, mem⟩ := removeSupersets_ok size sizes
    refine ⟨next, by simpa [HashSet.contains, there] using removed, ?_⟩
    ext c
    simp [Sweep.step, dropsSupersets, Sweep.Drops, mem c, there, eq_comm]
  · refine ⟨minimalSet, by simp [HashSet.contains, there], ?_⟩
    ext c
    simp [Sweep.step, there]

theorem minimalWalk_ok (items : List Comb) (itemSizes : ∀ c ∈ items, c.size = n)
    {minimalSet : HashSet Comb} (sizes : ∀ c ∈ minimalSet, c.size = n) : ∃ final,
      items.foldlM (fun minimalSet comb =>
        if !minimalSet.contains comb then .ok minimalSet
        else removeSupersets comb minimalSet) minimalSet = .ok final ∧
      {c | c ∈ final} = Sweep.run dropsSupersets {c | c ∈ minimalSet} items := by
  induction items generalizing minimalSet with
  | nil => exact ⟨minimalSet, rfl, rfl⟩
  | cons comb rest ih =>
      obtain ⟨next, removed, stepped⟩ := minimalStep_ok sizes (itemSizes comb (by simp))
      have fewer : ∀ c ∈ next, c ∈ minimalSet := by
        intro c member
        have inStep : c ∈ Sweep.step dropsSupersets {c | c ∈ minimalSet} comb :=
          stepped ▸ member
        exact inStep.1
      obtain ⟨final, later, walked⟩ := ih
        (fun c member => itemSizes c (List.mem_cons_of_mem _ member))
        fun c member => sizes c (fewer c member)
      refine ⟨final, ?_, ?_⟩
      · rw [List.foldlM_cons, removed]
        exact later
      · rw [walked, stepped]
        rfl

/-- `getMinimal` returns the minimal elements, in whatever order it walks the set. -/
theorem getMinimal_ok (order : IterOrder Comb) {set : HashSet Comb}
    (cls : ∀ c ∈ set, c.cls = .comb) (sizes : ∀ c ∈ set, c.size = n) :
    ∃ minimalSet, IterAIFL.getMinimal order set = .ok minimalSet ∧
      ∀ c, c ∈ minimalSet ↔ c ∈ set ∧ ∀ d ∈ set, c.Contains d → d = c := by
  obtain ⟨final, walked, same⟩ := minimalWalk_ok (order.walk set.toList)
    (fun c member => sizes c (order.mem_walk.mp member)) sizes
  refine ⟨final, walked, fun c => ?_⟩
  have left : c ∈ final ↔
      c ∈ Sweep.run dropsSupersets {c | c ∈ set} (order.walk set.toList) := by
    rw [← same]
    rfl
  rw [left, dropsSupersets, mem_walk_iff cls (fun _ => True) (fun _ _ _ _ => trivial) order]
  simp

end Minimal

namespace IterAIFLFaultResolver

/-- The mutants of strength `i` that pass refute what they contain. -/
theorem runMutants_settles (answers : ∀ t : Testcase, t.size = n →
      r.checker.verdict t = .ok (accepts MFC_real t)) (AT : List Testcase)
    (sizes : ∀ t ∈ AT, t.size = n) {set : HashSet Comb} (setSizes : ∀ c ∈ set, c.size = n) :
    ∃ left, Settles (SameConfig r) (AT.foldlM runMutant set) left ∧
      ∀ c, c ∈ left ↔ c ∈ set ∧ ∀ t ∈ AT,
        accepts MFC_real t = true → ¬ t.Contains c := by
  induction AT generalizing set with
  | nil => exact ⟨set, Settles.ret _, by simp⟩
  | cons t rest ih =>
      have size := sizes t (by simp)
      have checked := check_settles (answers t size)
      have later : ∀ t ∈ rest, t.size = n := fun t member => sizes t (by simp [member])
      cases verdict : accepts MFC_real t with
      | true =>
          rw [verdict] at checked
          obtain ⟨next, removed, mem⟩ := removeParts_ok size setSizes
          obtain ⟨left, settles, final⟩ :=
            ih later fun c member => setSizes c ((mem c).mp member).1
          refine ⟨left, ?_, fun c => ?_⟩
          · rw [List.foldlM_cons]
            exact (checked.bind (Settles.of_ok removed)).bind settles
          · rw [final c, mem c]
            simp only [List.forall_mem_cons, verdict, forall_const, and_assoc]
      | false =>
          rw [verdict] at checked
          have step : Settles (SameConfig r) (runMutant set t) set := checked.bind (Settles.ret set)
          obtain ⟨left, settles, final⟩ := ih later setSizes
          refine ⟨left, ?_, fun c => ?_⟩
          · rw [List.foldlM_cons]
            exact step.bind settles
          · rw [final c]
            simp [verdict]

/-- A mutant of strength `k` passes and contains `c`. -/
def Refuted (n : Nat) (MFC_real : List Comb) (Tfail : List Testcase) (k : Nat) (c : Comb) : Prop :=
  ∃ tfail ∈ Tfail, ∃ S ∈ Finset.powersetCard k (Finset.range n),
    accepts MFC_real (flipped tfail S) = true ∧ (flipped tfail S).Contains c

/-- A non-empty combination of a failing test case such that every binary test case that
contains it fails. -/
structure Suspicious (n : Nat) (MFC_real : List Comb) (Tfail : List Testcase) (c : Comb) :
    Prop where
  cls : c.cls = .comb
  fixes : c.fixed.Nonempty
  inside : ∃ tfail ∈ Tfail, tfail.Contains c
  fails : ∀ t : Testcase, t.Binary n → t.Contains c → Checker.judge MFC_real t = .ok false

/-- One round removes what the mutants of its strength refute. The exception is not thrown if
something is left. -/
theorem strengthRound_settles (combination : Combination) (small : ∀ k, n.choose k < 2 ^ 31)
    (answers : ∀ t : Testcase, t.size = n → r.checker.verdict t = .ok (accepts MFC_real t))
    (binary : ∀ t ∈ r.Tfail, t.Binary n) {k : Nat} (le : k ≤ n) {set : HashSet Comb}
    (sizes : ∀ c ∈ set, c.size = n) (some : ∃ c ∈ set, ¬ Refuted n MFC_real r.Tfail k c) :
    ∃ left, Settles (SameConfig r) (strengthRound combination set k) left ∧
      ∀ c, c ∈ left ↔ c ∈ set ∧ ¬ Refuted n MFC_real r.Tfail k c := by
  obtain ⟨AT, mutants, memAT⟩ := getAT_ok combination small binary le
  have mutantSizes : ∀ t ∈ AT, t.size = n := by
    intro t member
    obtain ⟨tfail, inTfail, S, _, rfl⟩ := (memAT t).mp member
    exact (flipped_binary (binary tfail inTfail) S).size
  obtain ⟨left, settles, mem⟩ := runMutants_settles answers AT mutantSizes sizes
  have refuted : ∀ c, (∀ t ∈ AT, accepts MFC_real t = true → ¬ t.Contains c) ↔
      ¬ Refuted n MFC_real r.Tfail k c := by
    intro c
    constructor
    · rintro none ⟨tfail, inTfail, S, inLevel, pass, inside⟩
      exact none _ ((memAT _).mpr ⟨tfail, inTfail, S, inLevel, rfl⟩) pass inside
    · rintro none t member pass inside
      obtain ⟨tfail, inTfail, S, inLevel, rfl⟩ := (memAT t).mp member
      exact none ⟨tfail, inTfail, S, inLevel, pass, inside⟩
  have remains : ∀ c, c ∈ left ↔ c ∈ set ∧ ¬ Refuted n MFC_real r.Tfail k c :=
    fun c => (mem c).trans (and_congr_right fun _ => refuted c)
  refine ⟨left, ?_, remains⟩
  have notEmpty : ¬ left.isEmpty = true := by
    obtain ⟨c, member, survives⟩ := some
    rw [HashSet.isEmpty, List.isEmpty_iff]
    exact List.ne_nil_of_mem ((remains c).mpr ⟨member, survives⟩)
  intro before same
  obtain ⟨after, runs, kept⟩ := settles before same
  refine ⟨after, (Runs.get before).bind ?_, kept⟩
  rw [same.Tfail]
  refine (Runs.of_ok mutants before).bind (runs.bind ?_)
  rw [if_neg notEmpty]
  exact Runs.ret _ _

/-- All rounds together. -/
theorem strengths_settle (combination : Combination) (small : ∀ k, n.choose k < 2 ^ 31)
    (answers : ∀ t : Testcase, t.size = n → r.checker.verdict t = .ok (accepts MFC_real t))
    (binary : ∀ t ∈ r.Tfail, t.Binary n) (strengths : List Nat)
    (le : ∀ k ∈ strengths, k ≤ n) {set : HashSet Comb} (sizes : ∀ c ∈ set, c.size = n)
    (some : ∃ c ∈ set, ∀ k, ¬ Refuted n MFC_real r.Tfail k c) :
    ∃ left, Settles (SameConfig r) (strengths.foldlM (strengthRound combination) set) left ∧
      ∀ c, c ∈ left ↔ c ∈ set ∧ ∀ k ∈ strengths,
        ¬ Refuted n MFC_real r.Tfail k c := by
  induction strengths generalizing set with
  | nil => exact ⟨set, Settles.ret _, by simp⟩
  | cons k rest ih =>
      obtain ⟨c, member, survives⟩ := some
      obtain ⟨next, first, mem⟩ := strengthRound_settles combination small answers binary
        (le k (by simp)) sizes ⟨c, member, survives k⟩
      obtain ⟨left, later, final⟩ := ih (fun j there => le j (List.mem_cons_of_mem _ there))
        (fun d there => sizes d ((mem d).mp there).1)
        ⟨c, (mem c).mpr ⟨member, survives k⟩, survives⟩
      refine ⟨left, ?_, fun d => ?_⟩
      · rw [List.foldlM_cons]
        exact first.bind later
      · rw [final d, mem d, List.forall_mem_cons, and_assoc]

theorem accepts_congr {u : Testcase} (size : t.size = u.size)
    (same : ∀ i < t.size, t.val i = u.val i) : accepts MFC_real t = accepts MFC_real u := by
  unfold accepts
  rw [decide_eq_decide]
  refine forall₂_congr fun M _ => not_congr ?_
  unfold Comb.Contains
  rw [← size]
  refine and_congr_right fun _ => forall₂_congr fun i inside => ?_
  rw [same i inside]

/-- A test case that shares a non-empty combination with `tfail` is `tfail` or one of its
mutants of a strength below `n`. -/
theorem completion_is_mutant {c : Comb} (binary : tfail.Binary n) (wf : t.Binary n)
    (fixes : c.fixed.Nonempty) (inside : tfail.Contains c) (insideT : t.Contains c) :
    ∃ S ⊆ Finset.range n, S.card < n ∧ ∀ i < n, t.val i = (flipped tfail S).val i := by
  refine ⟨(Finset.range n).filter fun i => t.val i ≠ tfail.val i,
    Finset.filter_subset _ _, ?_, ?_⟩
  · obtain ⟨i, known⟩ := fixes
    have bound : i ∈ Finset.range n := inside.fixed_within binary.size known
    have agree : t.val i = tfail.val i := by
      rw [(Comb.contains_iff.mp insideT).2 i known, (Comb.contains_iff.mp inside).2 i known]
    have smaller : (Finset.range n).filter (fun i => t.val i ≠ tfail.val i) ⊂ Finset.range n :=
      Finset.filter_ssubset.mpr ⟨i, bound, not_not_intro agree⟩
    simpa using Finset.card_lt_card smaller
  · intro i bound
    rw [flipped_val tfail _ (binary.size ▸ bound)]
    have valueT := wf.values i bound
    have value := binary.values i bound
    by_cases agree : t.val i = tfail.val i
    · rw [if_neg (by simp [agree])]
      exact agree
    · rw [if_pos (by simp [bound, agree])]
      omega

/-- What neither the passing test cases nor the mutants refute is suspicious. -/
theorem suspicious_iff (real : ∀ M ∈ MFC_real, M.Over n) {Tpass Tfail : List Testcase}
    (passing : ∀ t ∈ Tpass, t.Binary n ∧ Checker.judge MFC_real t = .ok true)
    (failing : Failing n MFC_real Tfail) {c : Comb} :
    (Candidate Tpass Tfail c ∧ ∀ k, 1 ≤ k → k < n → ¬ Refuted n MFC_real Tfail k c) ↔
      Suspicious n MFC_real Tfail c := by
  constructor
  · rintro ⟨⟨cls, fixes, ⟨tfail, inTfail, inside⟩, _⟩, survives⟩
    refine ⟨cls, fixes, ⟨tfail, inTfail, inside⟩, fun t wf insideT => ?_⟩
    obtain ⟨binary, judged⟩ := failing tfail inTfail
    rw [judge_accepts real binary.size, Except.ok.injEq] at judged
    rw [judge_accepts real wf.size, Except.ok.injEq]
    by_contra pass
    rw [Bool.not_eq_false] at pass
    obtain ⟨S, within, few, same⟩ := completion_is_mutant binary wf fixes inside insideT
    have mutant := flipped_binary binary S
    have sizes : t.size = (flipped tfail S).size := wf.size.trans mutant.size.symm
    rw [← wf.size] at same
    have passes' : accepts MFC_real (flipped tfail S) = true := by
      rw [← accepts_congr sizes same]
      exact pass
    by_cases empty : S = ∅
    · -- then `t` has the values of `tfail`, which fails
      have original : accepts MFC_real (flipped tfail S) = accepts MFC_real tfail := by
        refine accepts_congr (mutant.size.trans binary.size.symm) fun i bound => ?_
        rw [flipped_val tfail S (by rw [binary.size, ← mutant.size]; exact bound), empty,
          if_neg (Finset.notMem_empty i)]
      rw [original, judged] at passes'
      cases passes'
    · refine survives S.card (Finset.card_pos.mpr (Finset.nonempty_iff_ne_empty.mpr empty)) few
        ⟨tfail, inTfail, S, Finset.mem_powersetCard.mpr ⟨within, rfl⟩, passes', ?_⟩
      rw [Comb.contains_iff] at insideT ⊢
      refine ⟨sizes ▸ insideT.1, fun i known => ?_⟩
      have bound : i < t.size := by
        have := Finset.mem_range.mp (c.fixed_subset_range known)
        rw [insideT.1]
        exact this
      rw [← same i bound]
      exact insideT.2 i known
  · rintro ⟨cls, fixes, inside, fails⟩
    refine ⟨⟨cls, fixes, inside, fun t member insideT => ?_⟩, ?_⟩
    · obtain ⟨wf, judged⟩ := passing t member
      have contra := (fails t wf insideT).symm.trans judged
      cases contra
    · rintro k _ _ ⟨tfail, inTfail, S, _, pass, insideT⟩
      have wf := flipped_binary (failing tfail inTfail).1 S
      have judged := fails _ wf insideT
      rw [judge_accepts real wf.size, pass] at judged
      cases judged

/-- A failing test case as a whole is suspicious. -/
theorem whole_suspicious (positive : 0 < n) {Tfail : List Testcase} {tfail : Testcase}
    (real : ∀ M ∈ MFC_real, M.Over n) (failing : Failing n MFC_real Tfail)
    (member : tfail ∈ Tfail) :
    Suspicious n MFC_real Tfail (tfail.restrict (Finset.range n)) := by
  obtain ⟨binary, judged⟩ := failing tfail member
  have whole : (tfail.restrict (Finset.range n)).fixed = Finset.range n :=
    binary.restrict_fixed (Finset.Subset.refl _)
  refine ⟨rfl, ?_, ⟨tfail, member, Comb.contains_restrict _ _⟩, fun t wf inside => ?_⟩
  · rw [whole]
    exact ⟨0, Finset.mem_range.mpr positive⟩
  · rw [judge_accepts real wf.size, accepts_congr (wf.size.trans binary.size.symm),
      ← judge_accepts real binary.size, judged]
    intro i bound
    have known : i ∈ (tfail.restrict (Finset.range n)).fixed := by
      rw [whole, Finset.mem_range, ← wf.size]
      exact bound
    rw [(Comb.contains_iff.mp inside).2 i known, Comb.restrict_val,
      if_pos (by rwa [whole] at known)]

/-- A first `conduct`, from any state that still waits for it. -/
theorem conduct_settles (positive : 0 < n) (small : ∀ k, n.choose k < 2 ^ 31)
    (real : ∀ M ∈ MFC_real, M.Over n)
    (passing : ∀ t ∈ r.Tpass, t.Binary n ∧ Checker.judge MFC_real t = .ok true)
    (failing : Failing n MFC_real r.Tfail) (some : r.Tfail ≠ [])
    (judged : r.checker.verdict = Checker.judge MFC_real) (waiting : r.conducted = false)
    (combination : Combination) (order : IterOrder Comb) :
    ∃ middle combs, (conduct combination order).Runs r ⟨⟩ (identified middle combs) ∧
      SameConfig { r with conducted := true } middle ∧
      ∀ c, c ∈ combs ↔ Suspicious n MFC_real r.Tfail c ∧
        ∀ d, Suspicious n MFC_real r.Tfail d → c.Contains d → d = c := by
  have binary : ∀ t ∈ r.Tfail, t.Binary n := fun t member => (failing t member).1
  obtain ⟨set, listed, mem⟩ := candidates_ok combination small
    (fun t member => (passing t member).1.size) binary
  obtain ⟨first, rest, split⟩ := List.exists_cons_of_ne_nil some
  have there : first ∈ r.Tfail := by
    rw [split]
    exact List.mem_cons_self
  have size : first.size = n := (binary first there).size
  have answers : ∀ t : Testcase, t.size = n →
      r.checker.verdict t = .ok (accepts MFC_real t) := by
    intro t sized
    rw [judged]
    exact judge_accepts real sized
  -- the whole of the first failing test case stays in the set
  have suspicious := whole_suspicious positive real failing there
  have whole := (suspicious_iff real passing failing).mpr suspicious
  have survives : ∀ k, ¬ Refuted n MFC_real r.Tfail k (first.restrict (Finset.range n)) := by
    rintro k ⟨tfail, inTfail, S, _, pass, inside⟩
    have wf := flipped_binary (binary tfail inTfail) S
    have refused := suspicious.fails _ wf inside
    rw [judge_accepts real wf.size, pass] at refused
    cases refused
  obtain ⟨left, settles, memLeft⟩ := strengths_settle (r := { r with conducted := true })
    combination small answers binary (List.range' 1 (n - 1))
    (fun k member => by have := List.mem_range'_1.mp member; omega)
    (fun c member => ((mem c).mp member).over binary |>.size)
    ⟨_, (mem _).mpr whole.1, survives⟩
  have kept : ∀ c, c ∈ left ↔ Suspicious n MFC_real r.Tfail c := by
    intro c
    rw [memLeft c, mem c, ← suspicious_iff real passing failing]
    refine and_congr_right fun _ => ⟨fun each k low high => each k ?_, fun each k member => ?_⟩
    · exact List.mem_range'_1.mpr ⟨low, by omega⟩
    · have bounds := List.mem_range'_1.mp member
      exact each k bounds.1 (by omega)
  obtain ⟨minimalSet, minimal, memMinimal⟩ := getMinimal_ok order
    (fun c member => ((kept c).mp member).cls)
    (fun c member => by
      obtain ⟨t, inTfail, inside⟩ := ((kept c).mp member).inside
      rw [← inside.1, (binary t inTfail).size])
  obtain ⟨middle, runs, same⟩ := settles _ (SameConfig.refl _)
  refine ⟨middle, minimalSet.toList, ?_, same, fun c => ?_⟩
  · refine (Runs.get r).bind ?_
    rw [if_neg (by rw [waiting]; decide)]
    refine (Runs.modify _ r).bind ((Runs.get _).bind ((Runs.of_ok listed _).bind ?_))
    simp only [split, size] at runs ⊢
    exact runs.bind ((Runs.of_ok minimal _).bind (Runs.modify _ _))
  · rw [HashSet.mem_toList, memMinimal c]
    simp only [kept]

/-- `conduct` never throws and identifies exactly the minimal suspicious combinations,
whatever the iteration order. -/
theorem conduct_minimal_suspicious (positive : 0 < n) (small : ∀ k, n.choose k < 2 ^ 31)
    (real : ∀ M ∈ MFC_real, M.Over n) {Tpass Tfail : List Testcase}
    (passing : ∀ t ∈ Tpass, t.Binary n ∧ Checker.judge MFC_real t = .ok true)
    (failing : Failing n MFC_real Tfail) {random : Nat → Bool}
    (created : create (Checker.ofMFS MFC_real) Tpass Tfail random = .ok r)
    (combination : Combination) (order : IterOrder Comb) :
    ∃ after, (conduct combination order).Runs r ⟨⟩ after ∧
      ∀ c, c ∈ after.MFC_identified ↔ Suspicious n MFC_real Tfail c ∧
        ∀ d, Suspicious n MFC_real Tfail d → c.Contains d → d = c := by
  have notEmpty : ¬ Tfail.isEmpty = true := by
    intro empty
    rw [create, if_pos empty] at created
    cases created
  rw [create, if_neg notEmpty, Except.ok.injEq] at created
  subst created
  have some : Tfail ≠ [] := fun nil => notEmpty (by rw [nil]; rfl)
  obtain ⟨middle, combs, runs, same, found⟩ := conduct_settles
    (r := ⟨Tpass, Tfail, Checker.ofMFS MFC_real, [], [], none, .empty, false, 0, random⟩)
    positive small real passing failing some rfl rfl combination order
  refine ⟨_, runs, fun c => ?_⟩
  rw [mem_identified, same.MFC_identified, found]
  exact or_iff_right (HashSet.notMem_empty c)

/-- Two faults that together are a smaller one. -/
theorem conduct_minimal_suspicious_overlapping : ∃ r after,
    create (Checker.ofMFS [⟨.comb, [1, 1, -1]⟩, ⟨.comb, [1, 0, -1]⟩])
      [⟨.testcase, [0, 1, 1]⟩] [⟨.testcase, [1, 1, 1]⟩] (fun _ => false) = .ok r ∧
    (conduct .sublists .insertion).Runs r ⟨⟩ after ∧
    ⟨.comb, [1, 1, -1]⟩ ∉ after.MFC_identified := by
  have created : create (Checker.ofMFS [⟨.comb, [1, 1, -1]⟩, ⟨.comb, [1, 0, -1]⟩])
    [⟨.testcase, [0, 1, 1]⟩] [⟨.testcase, [1, 1, 1]⟩] (fun _ => false) = .ok _ := rfl
  obtain ⟨after, runs, same⟩ := conduct_minimal_suspicious (n := 3) (by decide)
    (fun k => lt_of_le_of_lt (Nat.choose_le_two_pow 3 k) (by decide)) (by decide) (by decide)
    (by decide) created .sublists .insertion
  refine ⟨_, after, created, runs, fun member => ?_⟩
  -- together the two faults are the fault of the first parameter
  have smaller : (⟨.comb, [1, -1, -1]⟩ : Comb) = ⟨.comb, [1, 1, -1]⟩ := by
    refine ((same _).mp member).2
      _ ⟨rfl, by decide, ⟨⟨.testcase, [1, 1, 1]⟩, by simp, by decide⟩, ?_⟩ (by decide)
    intro t wf inside
    rw [judge_accepts (n := 3) (by decide) wf.size, Except.ok.injEq, accepts,
      decide_eq_false_iff_not]
    intro none
    have first := (Comb.contains_iff.mp inside).2 0 (by decide)
    have value : t.val 0 = 1 := first
    rcases wf.values 1 (by decide) with zero | one
    · refine none ⟨.comb, [1, 0, -1]⟩ (by simp) (Comb.contains_iff.mpr ⟨wf.size, ?_⟩)
      have known : (⟨.comb, [1, 0, -1]⟩ : Comb).fixed = {0, 1} := by decide
      rw [known]
      intro i member
      rcases Finset.mem_insert.mp member with rfl | last
      · exact value
      · rw [Finset.mem_singleton.mp last]
        exact zero
    · refine none ⟨.comb, [1, 1, -1]⟩ (by simp) (Comb.contains_iff.mpr ⟨wf.size, ?_⟩)
      have known : (⟨.comb, [1, 1, -1]⟩ : Comb).fixed = {0, 1} := by decide
      rw [known]
      intro i member
      rcases Finset.mem_insert.mp member with rfl | last
      · exact value
      · rw [Finset.mem_singleton.mp last]
        exact one
  exact absurd smaller (by decide)

end IterAIFLFaultResolver

end NoPend
