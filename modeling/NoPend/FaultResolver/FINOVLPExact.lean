import NoPend.FaultResolver.FINOVLPLocate
import NoPend.FaultResolver.Faults

set_option autoImplicit false

/- `FINOVLP` takes one minimal combination after the other out of a failing test case. What it
finds is pairwise disjoint and meets every combination of the test case. -/
namespace NoPend

open AbstractFaultResolver Proc

variable {n : Nat} {MFC_real : List Comb} {safe : Comb} {t tfail : Testcase}
  {r : AbstractFaultResolver}

section Locate

theorem fails_iff (table : FaultTable n MFC_real) (safeFor : SafeFor n MFC_real safe)
    (size : t.size = n) {S : Finset Nat} :
    fails (accepts MFC_real) safe t S = true ↔ Faulty MFC_real t S := by
  rw [fails, Bool.not_eq_true', ← Bool.not_eq_true, passes_iff table safeFor size, not_not]

theorem fails_mono (table : FaultTable n MFC_real) (safeFor : SafeFor n MFC_real safe)
    (size : t.size = n) (S T : Finset Nat) (sub : S ⊆ T)
    (failing : fails (accepts MFC_real) safe t S = true) :
    fails (accepts MFC_real) safe t T = true :=
  (fails_iff table safeFor size).mpr (((fails_iff table safeFor size).mp failing).mono sub)

theorem fails_whole (table : FaultTable n MFC_real) (safeFor : SafeFor n MFC_real safe)
    (size : t.size = n) (failing : accepts MFC_real t = false) :
    fails (accepts MFC_real) safe t (Finset.range n) = true :=
  (fails_iff table safeFor size).mpr (faulty_univ table failing)

/-- A way to locate a combination that finds what one deleting pass needs. -/
def Locates (n : Nat) (MFC_real : List Comb) (safe : Comb)
    (locateOneMFC : Testcase → Schema → ResolverM Comb) : Prop :=
  ∀ r : AbstractFaultResolver, r.Ready n (accepts MFC_real) safe →
    ∀ t : Testcase, t.Binary n → accepts MFC_real t = false →
      ∀ fixedParameter : Schema, fixedParameter.Wf n →
        Settles (SameConfig r) (locateOneMFC t fixedParameter)
          (t.restrict (located n (accepts MFC_real) safe t fixedParameter).toFinset)

/-- It checks the parts without the sets that `clearedSets` lists for the fixed parameters and
those it locates. -/
def Clears (n : Nat) (MFC_real : List Comb) (safe : Comb)
    (clearedSets : Nat → Finset Nat → Finset Nat → List (Finset Nat))
    (locateOneMFC : Testcase → Schema → ResolverM Comb) : Prop :=
  ∀ r : AbstractFaultResolver, r.Ready n (accepts MFC_real) safe →
    ∀ t : Testcase, t.Binary n → accepts MFC_real t = false →
      ∀ fixedParameter : Schema, fixedParameter.Wf n →
        Executes r (locateOneMFC t fixedParameter)
          (t.restrict (located n (accepts MFC_real) safe t fixedParameter).toFinset)
          ((clearedSets n fixedParameter.bits
            (located n (accepts MFC_real) safe t fixedParameter).toFinset).map
              fun C => paddedPart safe t (Finset.range n \ C))

theorem Clears.locates {clearedSets : Nat → Finset Nat → Finset Nat → List (Finset Nat)}
    {locateOneMFC : Testcase → Schema → ResolverM Comb}
    (clears : Clears n MFC_real safe clearedSets locateOneMFC) :
    Locates n MFC_real safe locateOneMFC :=
  fun r ready t binary failing fixedParameter wf =>
    (clears r ready t binary failing fixedParameter wf).settles

theorem FICFaultResovler.clears :
    Clears n MFC_real safe FICFaultResovler.clearedSets FICFaultResovler.locateOneMFC :=
  fun _ ready _ binary _ fixedParameter _ => locateOneMFC_executes ready binary fixedParameter

theorem FICBSFaultResolver.clears (table : FaultTable n MFC_real)
    (safeFor : SafeFor n MFC_real safe) :
    Clears n MFC_real safe FICBSFaultResolver.clearedSets FICBSFaultResolver.locateOneMFC :=
  fun _ ready _ binary failing _ wf => locateOneMFC_executes ready binary
    (fails_mono table safeFor binary.size) (fails_whole table safeFor binary.size failing) wf.logic

theorem FICFaultResovler.locates : Locates n MFC_real safe FICFaultResovler.locateOneMFC :=
  clears.locates

theorem FICBSFaultResolver.locates (table : FaultTable n MFC_real)
    (safeFor : SafeFor n MFC_real safe) : Locates n MFC_real safe FICBSFaultResolver.locateOneMFC :=
  (clears table safeFor).locates

/-- What a pass needs is a minimal combination, if no combination of `t` uses a fixed parameter. -/
theorem located_minimal (table : FaultTable n MFC_real) (safeFor : SafeFor n MFC_real safe)
    (binary : t.Binary n) (failing : accepts MFC_real t = false) {fixedParameter : Schema}
    (clear : ∀ M ∈ MFC_real, t.Contains M → ∀ i ∈ M.fixed, i ∉ fixedParameter.bits) :
    ∃ M, MinimalFault MFC_real M ∧ t.Contains M ∧
      t.restrict (located n (accepts MFC_real) safe t fixedParameter).toFinset = M := by
  have within : ∀ i ∈ freeIn n fixedParameter, i ∈ Finset.range n :=
    fun i member => Finset.mem_range.mpr (mem_freeIn.mp member).1
  have nodup := freeIn_nodup (n := n) fixedParameter
  have mono := fails_mono table safeFor binary.size
  have kept := Shrink.bad_left nodup within (fails_whole table safeFor binary.size failing)
  rw [fails_iff table safeFor binary.size] at kept
  obtain ⟨M, member, inside, sub⟩ := kept
  have needs : M.fixed ⊆ (located n (accepts MFC_real) safe t fixedParameter).toFinset := by
    intro i known
    rcases Finset.mem_union.mp (sub known) with outside | stays
    · obtain ⟨bound, notFree⟩ := Finset.mem_sdiff.mp outside
      exact absurd (List.mem_toFinset.mpr (mem_freeIn.mpr
        ⟨Finset.mem_range.mp bound, clear M member inside i known⟩)) notFree
    · exact stays
  have least : MinimalFaulty n MFC_real t
      (located n (accepts MFC_real) safe t fixedParameter).toFinset := by
    refine ⟨⟨fun i stays =>
      within i ((Shrink.needed_sublist _).subset (List.mem_toFinset.mp stays)),
      M, member, inside, needs⟩, fun T faulty smaller => Finset.Subset.antisymm smaller ?_⟩
    intro i stays
    by_contra missing
    -- without `i` the rest of the pass would still fail
    refine Shrink.needed_needed mono nodup within (List.mem_toFinset.mp stays)
      (mono T _ (fun j there => Finset.mem_erase.mpr ⟨?_, ?_⟩)
        ((fails_iff table safeFor binary.size).mpr faulty.2))
    · rintro rfl
      exact missing there
    · exact Finset.mem_union_right _ (smaller there)
  have found := (exists_minimalFaulty_restrict_iff table binary.size).mp ⟨_, least, rfl⟩
  exact ⟨_, found.1, found.2, rfl⟩

end Locate

section Padding

theorem set_val {c : Comb} {i j : Nat} {value : Int} (inside : i < c.size) :
    ({ c with elements := c.elements.set i value } : Comb).val j =
      if j = i then value else c.val j := by
  have bound : i < c.elements.length := inside
  simp only [Comb.val, List.getD_eq_getElem?_getD, List.getElem?_set]
  by_cases here : i = j
  · subst here
    simp [bound]
  · simp [here, Ne.symm here]

/-- A parameter with a binary safe value takes this value. -/
theorem paddingWithSafeValues_runs {verdict : Testcase → Bool} (ready : r.Ready n verdict safe)
    (size : t.size = n) {i : Nat} (inside : i < n) (known : safe.val i = 0 ∨ safe.val i = 1) :
    (FINOVLPFaultResolver.paddingWithSafeValues t i).Runs r
      { t with elements := t.elements.set i (safe.val i) } r := by
  have value : MutableTestcase.set t i (safe.val i) =
      .ok { t with elements := t.elements.set i (safe.val i) } := by
    unfold MutableTestcase.set
    rw [if_neg (by omega), if_neg (by omega), Comb.set, if_pos (by omega)]
  refine (Runs.get r).bind ?_
  rw [ready.safeValues]
  refine (Runs.of_ok (Comb.get_eq_val (ready.valid.size ▸ inside)) r).bind ?_
  rw [if_neg (by simp only [Comb.UNKNOWN]; omega)]
  exact Runs.of_ok value r

theorem paddingWithSafeValues_executes {verdict : Testcase → Bool}
    (ready : r.Ready n verdict safe)
    (size : t.size = n) {i : Nat} (inside : i < n) (known : safe.val i = 0 ∨ safe.val i = 1) :
    Executes r (FINOVLPFaultResolver.paddingWithSafeValues t i)
      { t with elements := t.elements.set i (safe.val i) } [] :=
  fun before same => ⟨before,
    paddingWithSafeValues_runs (ready.of_sameConfig same) size inside known, same, rfl⟩

/-- One round of the loop over the parameters of a located combination. -/
theorem fixParameter_executes (verdict : Testcase → Bool) {MFS : Comb}
    (known : ∀ i ∈ MFS.fixed, safe.val i = 0 ∨ safe.val i = 1) (size : t.size = n)
    {fixedParameters : Schema} (wf : fixedParameters.Wf n) {i : Nat} (inside : i < n) :
    ∃ t' fixed', (∀ r : AbstractFaultResolver, r.Ready n verdict safe → Executes r
        (FINOVLPFaultResolver.fixParameter MFS (t, fixedParameters) i) (t', fixed') []) ∧
      t'.cls = t.cls ∧ t'.size = n ∧
      (∀ j, t'.val j = if j = i ∧ j ∈ MFS.fixed then safe.val j else t.val j) ∧
      fixed'.Wf n ∧ ∀ j,
        j ∈ fixed'.bits ↔ j ∈ fixedParameters.bits ∨ (j = i ∧ j ∈ MFS.fixed) := by
  by_cases unknown : MFS.val i = Comb.UNKNOWN
  · have free : i ∉ MFS.fixed := by rw [Comb.mem_fixed, not_not]; exact unknown
    refine ⟨t, fixedParameters, fun r ready => ?_, rfl, size, fun j => ?_, wf, fun j => ?_⟩
    · rw [FINOVLPFaultResolver.fixParameter, if_pos unknown]
      exact Logs.ret _
    · by_cases here : j = i <;> simp [here, free]
    · by_cases here : j = i <;> simp [here, free]
  · have fixes : i ∈ MFS.fixed := Comb.mem_fixed.mpr unknown
    refine ⟨{ t with elements := t.elements.set i (safe.val i) }, fixedParameters.set i true,
      fun r ready => ?_, rfl, by rw [Comb.size, List.length_set]; exact size, fun j => ?_,
      wf.set_true inside, fun j => ?_⟩
    · rw [FINOVLPFaultResolver.fixParameter, if_neg unknown]
      exact (paddingWithSafeValues_executes ready size inside (known i fixes)).bind (Logs.ret _)
    · rw [set_val (size ▸ inside)]
      by_cases here : j = i <;> simp [here, fixes]
    · rw [Schema.set_true_bits, Finset.mem_insert]
      by_cases here : j = i <;> simp [here, fixes]

theorem fixParameters_loop (verdict : Testcase → Bool) {MFS : Comb}
    (known : ∀ i ∈ MFS.fixed, safe.val i = 0 ∨ safe.val i = 1) (size : t.size = n)
    {fixedParameters : Schema} (wf : fixedParameters.Wf n) (indices : List Nat)
    (within : ∀ i ∈ indices, i < n) :
    ∃ t' fixed', (∀ r : AbstractFaultResolver, r.Ready n verdict safe → Executes r
        (indices.foldlM (FINOVLPFaultResolver.fixParameter MFS) (t, fixedParameters))
        (t', fixed') []) ∧
      t'.cls = t.cls ∧ t'.size = n ∧
      (∀ i, t'.val i = if i ∈ indices ∧ i ∈ MFS.fixed then safe.val i else t.val i) ∧
      fixed'.Wf n ∧
      ∀ i, i ∈ fixed'.bits ↔
        i ∈ fixedParameters.bits ∨ (i ∈ indices ∧ i ∈ MFS.fixed) := by
  induction indices generalizing t fixedParameters with
  | nil => exact ⟨t, fixedParameters, fun _ _ => Logs.ret _, rfl, size, by simp, wf, by simp⟩
  | cons i rest ih =>
      obtain ⟨t₁, fixed₁, first, cls₁, size₁, val₁, wf₁, bits₁⟩ :=
        fixParameter_executes verdict known size wf (within i (by simp))
      obtain ⟨t', fixed', later, cls', size', val, wf', bits⟩ := ih size₁ wf₁
        fun j member => within j (by simp [member])
      refine ⟨t', fixed', fun r ready => ?_, cls'.trans cls₁, size', fun j => ?_, wf',
        fun j => ?_⟩
      · rw [List.foldlM_cons]
        exact (first r ready).bind (later r ready)
      · rw [val j, val₁ j]
        by_cases here : j = i
        · by_cases fixes : j ∈ MFS.fixed <;> simp [here] at fixes ⊢ <;> simp [fixes]
        · simp [here]
      · rw [bits j, bits₁ j, List.mem_cons]
        tauto

/-- The loop gives every parameter of the combination its safe value and fixes it, in the
same way from all states. -/
theorem fixParameters_executes (verdict : Testcase → Bool) {MFS : Comb} (sizeM : MFS.size = n)
    (known : ∀ i ∈ MFS.fixed, safe.val i = 0 ∨ safe.val i = 1) (size : t.size = n)
    {fixedParameters : Schema} (wf : fixedParameters.Wf n) :
    ∃ t' fixed', (∀ r : AbstractFaultResolver, r.Ready n verdict safe → Executes r
        (FINOVLPFaultResolver.fixParameters MFS t fixedParameters) (t', fixed') []) ∧
      t'.cls = t.cls ∧ t'.size = n ∧
      (∀ i, t'.val i = if i ∈ MFS.fixed then safe.val i else t.val i) ∧
      fixed'.Wf n ∧ fixed'.bits = fixedParameters.bits ∪ MFS.fixed := by
  obtain ⟨t', fixed', executes, cls', size', val, wf', bits⟩ :=
    fixParameters_loop verdict known size wf
      (List.range MFS.size) fun i member => sizeM ▸ List.mem_range.mp member
  have covered : ∀ i ∈ MFS.fixed, i ∈ List.range MFS.size := fun i member =>
    List.mem_range.mpr (Finset.mem_range.mp (MFS.fixed_subset_range member))
  refine ⟨t', fixed', executes, cls', size', fun i => ?_, wf', Finset.ext fun i => ?_⟩
  · rw [val i]
    by_cases member : i ∈ MFS.fixed <;> simp [member, -List.mem_range, covered]
  · rw [bits i, Finset.mem_union]
    by_cases member : i ∈ MFS.fixed <;> simp [member, -List.mem_range, covered]

end Padding

section Peel

/-- The loop invariant of `FINOVLP`: `t` has the safe values on the fixed parameters and the
values of `tfail` elsewhere, and the fixed parameters are those of disjoint minimal
combinations that `tfail` contains. -/
structure Peeled (n : Nat) (MFC_real : List Comb) (safe : Comb) (tfail t : Testcase)
    (fixedParameters : Schema) (found : HashSet Comb) : Prop where
  cls : t.cls = .mutableTestcase
  wf : fixedParameters.Wf n
  size : t.size = n
  val : ∀ i, t.val i = if i ∈ fixedParameters.bits then safe.val i else tfail.val i
  minimal : ∀ c ∈ found, MinimalFault MFC_real c ∧ tfail.Contains c
  fixes : ∀ i, i ∈ fixedParameters.bits ↔ ∃ c ∈ found, i ∈ c.fixed
  disjoint : ∀ c ∈ found, ∀ d ∈ found, c ≠ d → Disjoint c.fixed d.fixed

/-- What `FINOVLP` returns: disjoint minimal combinations that meet all others. -/
structure DisjointFamily (MFC_real : List Comb) (tfail : Testcase) (found : HashSet Comb) :
    Prop where
  minimal : ∀ c ∈ found, MinimalFault MFC_real c ∧ tfail.Contains c
  disjoint : ∀ c ∈ found, ∀ d ∈ found, c ≠ d → Disjoint c.fixed d.fixed
  meets : ∀ M ∈ MFC_real, tfail.Contains M → ∃ c ∈ found, ∃ i ∈ c.fixed, i ∈ M.fixed

theorem fixed_val (table : FaultTable n MFC_real) {M : Comb} (member : M ∈ MFC_real) {i : Nat}
    (known : i ∈ M.fixed) : M.val i = 0 ∨ M.val i = 1 := by
  have wf := table.binary M member
  have inside := Finset.mem_range.mp (M.fixed_subset_range known)
  rcases wf.values i (wf.size ▸ inside) with zero | one | unknown
  · exact Or.inl zero
  · exact Or.inr one
  · exact absurd unknown (Comb.mem_fixed.mp known)

theorem safe_binary (table : FaultTable n MFC_real) (safeFor : SafeFor n MFC_real safe) {M : Comb}
    (member : M ∈ MFC_real) {i : Nat} (known : i ∈ M.fixed) :
    safe.val i = 0 ∨ safe.val i = 1 := by
  rw [safeFor.other M member i known]
  have := fixed_val table member known
  omega

variable {fixedParameters : Schema} {found : HashSet Comb}

theorem Peeled.start (binary : tfail.Binary n) :
    Peeled n MFC_real safe tfail ⟨.mutableTestcase, tfail.elements⟩ (Schema.ofSize n)
      HashSet.empty where
  cls := rfl
  wf := Schema.ofSize_wf n
  size := binary.size
  val i := rfl
  minimal c member := absurd member (HashSet.notMem_empty c)
  fixes i := by simp
  disjoint c member := absurd member (HashSet.notMem_empty c)

theorem Peeled.binary (peeled : Peeled n MFC_real safe tfail t fixedParameters found)
    (table : FaultTable n MFC_real) (safeFor : SafeFor n MFC_real safe) (binary : tfail.Binary n) :
    t.Binary n := by
  refine ⟨peeled.size, fun i inside => ?_⟩
  rw [peeled.val i]
  split
  · rename_i fixed
    obtain ⟨c, member, known⟩ := (peeled.fixes i).mp fixed
    exact safe_binary table safeFor (peeled.minimal c member).1.1 known
  · exact binary.values i inside

/-- The combinations left in the test case use no fixed parameter. -/
theorem Peeled.clear (peeled : Peeled n MFC_real safe tfail t fixedParameters found)
    (table : FaultTable n MFC_real) (safeFor : SafeFor n MFC_real safe) {M : Comb}
    (member : M ∈ MFC_real) (inside : t.Contains M) {i : Nat} (known : i ∈ M.fixed) :
    i ∉ fixedParameters.bits := by
  intro fixed
  have agrees := (Comb.contains_iff.mp inside).2 i known
  rw [peeled.val i, if_pos fixed, safeFor.other M member i known] at agrees
  have := fixed_val table member known
  omega

theorem Peeled.contains_iff (peeled : Peeled n MFC_real safe tfail t fixedParameters found)
    (binary : tfail.Binary n) {M : Comb} (apart : ∀ i ∈ M.fixed, i ∉ fixedParameters.bits) :
    t.Contains M ↔ tfail.Contains M := by
  rw [Comb.contains_iff, Comb.contains_iff, peeled.size, binary.size]
  refine and_congr_right fun _ => forall₂_congr fun i known => ?_
  rw [peeled.val i, if_neg (apart i known)]

/-- A test case that passes has been peeled completely. -/
theorem Peeled.family (peeled : Peeled n MFC_real safe tfail t fixedParameters found)
    (binary : tfail.Binary n) (passing : accepts MFC_real t = true) :
    DisjointFamily MFC_real tfail found := by
  refine ⟨peeled.minimal, peeled.disjoint, fun M member inside => ?_⟩
  by_contra missed
  have apart : ∀ i ∈ M.fixed, i ∉ fixedParameters.bits := by
    intro i known fixed
    obtain ⟨c, there, meets⟩ := (peeled.fixes i).mp fixed
    exact missed ⟨c, there, i, meets, known⟩
  simp only [accepts, decide_eq_true_eq] at passing
  exact passing M member ((peeled.contains_iff binary apart).mpr inside)

/-- Taking out one more minimal combination keeps the invariant. -/
theorem Peeled.step (peeled : Peeled n MFC_real safe tfail t fixedParameters found)
    (table : FaultTable n MFC_real) (safeFor : SafeFor n MFC_real safe) (binary : tfail.Binary n)
    {M : Comb} (minimal : MinimalFault MFC_real M) (inside : t.Contains M) {t' : Testcase}
    {fixed' : Schema} (cls : t'.cls = t.cls) (size : t'.size = n)
    (val : ∀ i, t'.val i = if i ∈ M.fixed then safe.val i else t.val i) (wf : fixed'.Wf n)
    (bits : fixed'.bits = fixedParameters.bits ∪ M.fixed) :
    Peeled n MFC_real safe tfail t' fixed' (found.add M) ∧
      n - fixed'.bits.card < n - fixedParameters.bits.card := by
  have apart : ∀ i ∈ M.fixed, i ∉ fixedParameters.bits :=
    fun i known => peeled.clear table safeFor minimal.1 inside known
  have separate : ∀ c ∈ found, Disjoint c.fixed M.fixed := by
    intro c member
    rw [Finset.disjoint_left]
    exact fun i known also => apart i also ((peeled.fixes i).mpr ⟨c, member, known⟩)
  refine ⟨⟨cls.trans peeled.cls, wf, size, fun i => ?_, fun c member => ?_, fun i => ?_,
    fun c inC d inD different => ?_⟩, ?_⟩
  · rw [val i, bits, peeled.val i]
    by_cases fixed : i ∈ fixedParameters.bits <;> by_cases known : i ∈ M.fixed <;>
      simp [fixed, known]
  · rcases HashSet.mem_add.mp member with old | rfl
    · exact peeled.minimal c old
    · exact ⟨minimal, (peeled.contains_iff binary apart).mp inside⟩
  · rw [bits, Finset.mem_union, peeled.fixes i]
    constructor
    · rintro (⟨c, member, known⟩ | known)
      · exact ⟨c, HashSet.mem_add.mpr (Or.inl member), known⟩
      · exact ⟨M, HashSet.mem_add.mpr (Or.inr rfl), known⟩
    · rintro ⟨c, member, known⟩
      rcases HashSet.mem_add.mp member with old | rfl
      · exact Or.inl ⟨c, old, known⟩
      · exact Or.inr known
  · rcases HashSet.mem_add.mp inC with oldC | rfl
    · rcases HashSet.mem_add.mp inD with oldD | rfl
      · exact peeled.disjoint c oldC d oldD different
      · exact separate c oldC
    · rcases HashSet.mem_add.mp inD with oldD | rfl
      · exact (separate d oldD).symm
      · exact absurd rfl different
  · -- the combination fixes a parameter, and it is a new one
    have more : fixedParameters.bits.card < fixed'.bits.card := by
      obtain ⟨i, known⟩ := table.fixes M minimal.1
      rw [bits]
      refine Finset.card_lt_card
        (Finset.ssubset_iff_subset_ne.mpr ⟨Finset.subset_union_left, ?_⟩)
      intro same
      exact apart i known (same ▸ Finset.mem_union_right _ known)
    have most := Finset.card_le_card wf.within
    rw [Finset.card_range] at most
    omega

end Peel

namespace FINOVLPFaultResolver

/-- A round either returns what was found or takes out one more minimal combination. All ways
to locate it agree on the outcome, from all states. -/
theorem FINOVLPRound_settles (table : FaultTable n MFC_real) (safeFor : SafeFor n MFC_real safe)
    (binary : tfail.Binary n) {fixedParameters : Schema} {found : HashSet Comb}
    (peeled : Peeled n MFC_real safe tfail t fixedParameters found) :
    ((∀ locateOneMFC, Locates n MFC_real safe locateOneMFC → ∀ r : AbstractFaultResolver,
        r.Ready n (accepts MFC_real) safe → Settles (SameConfig r)
          (FINOVLPRound locateOneMFC (t, fixedParameters, found)) (.inr found)) ∧
      DisjointFamily MFC_real tfail found) ∨
    ∃ t' fixed' found', (∀ locateOneMFC, Locates n MFC_real safe locateOneMFC →
        ∀ r : AbstractFaultResolver, r.Ready n (accepts MFC_real) safe → Settles (SameConfig r)
          (FINOVLPRound locateOneMFC (t, fixedParameters, found)) (.inl (t', fixed', found'))) ∧
      Peeled n MFC_real safe tfail t' fixed' found' ∧
      n - fixed'.bits.card < n - fixedParameters.bits.card := by
  cases outcome : accepts MFC_real t with
  | true =>
      refine Or.inl ⟨fun locateOneMFC locates r ready => ?_, peeled.family binary outcome⟩
      have checked := check_settles (ready.answers t peeled.size)
      rw [outcome] at checked
      exact checked.bind (Settles.ret _)
  | false =>
      have binary' := peeled.binary table safeFor binary
      obtain ⟨M, minimal, inside, same⟩ := located_minimal table safeFor binary' outcome
        fun M member inside i known => peeled.clear table safeFor member inside known
      obtain ⟨t', fixed', fixing, cls', size', val', wf', bits'⟩ :=
        fixParameters_executes (accepts MFC_real) (table.binary M minimal.1).size
          (fun i => safe_binary table safeFor minimal.1) peeled.size peeled.wf
      obtain ⟨next, less⟩ :=
        peeled.step table safeFor binary minimal inside cls' size' val' wf' bits'
      refine Or.inr ⟨t', fixed', found.add M, fun locateOneMFC locates r ready =>
        ?_, next, less⟩
      have checked := check_settles (ready.answers t peeled.size)
      have locating := locates r ready t binary' outcome fixedParameters peeled.wf
      rw [outcome] at checked
      rw [same] at locating
      exact checked.bind (locating.bind ((fixing r ready).settles.bind (Settles.ret _)))

/-- `FINOVLP` returns a disjoint family of minimal combinations that meets all others, and all
ways to locate the combinations return the same one. -/
theorem FINOVLP_settles (table : FaultTable n MFC_real) (safeFor : SafeFor n MFC_real safe)
    (binary : tfail.Binary n) :
    ∃ found, (∀ locateOneMFC, Locates n MFC_real safe locateOneMFC →
        ∀ r : AbstractFaultResolver, r.Ready n (accepts MFC_real) safe → ∀ fuel, n < fuel →
          Settles (SameConfig r) (FINOVLP locateOneMFC fuel tfail) found) ∧
      DisjointFamily MFC_real tfail found := by
  obtain ⟨found, settles, family⟩ := iterate_settles
    (fun i : { p : (Testcase → Schema → ResolverM Comb) × AbstractFaultResolver //
      Locates n MFC_real safe p.1 ∧ p.2.Ready n (accepts MFC_real) safe } => SameConfig i.1.2)
    Exn.outOfFuel (fun i => FINOVLPRound i.1.1)
    (fun state => Peeled n MFC_real safe tfail state.1 state.2.1 state.2.2)
    (DisjointFamily MFC_real tfail) (fun state => n - state.2.1.bits.card)
    (by
      rintro ⟨t, fixedParameters, found⟩ peeled
      rcases FINOVLPRound_settles table safeFor binary peeled with
        ⟨leaves, family⟩ | ⟨t', fixed', found', goes, next, less⟩
      · exact Or.inl ⟨found, fun i => leaves _ i.2.1 _ i.2.2, family⟩
      · exact Or.inr ⟨(t', fixed', found'), fun i => goes _ i.2.1 _ i.2.2, next, less⟩)
    (⟨.mutableTestcase, tfail.elements⟩, Schema.ofSize n, HashSet.empty) (Peeled.start binary)
  refine ⟨found, fun locateOneMFC locates r ready fuel enough => ?_, family⟩
  have size : (⟨.mutableTestcase, tfail.elements⟩ : Comb).size = n := binary.size
  refine (Settles.of_ok (MutableTestcase.ofComb_eq binary)).bind ?_
  rw [size]
  exact settles ⟨(locateOneMFC, r), locates, ready⟩ fuel (by simpa using enough)

/-- A minimal combination that meets a found one only if it is the found one is found. -/
theorem complete_of_disjoint {found : HashSet Comb} (family : DisjointFamily MFC_real tfail found)
    (apart : ∀ c d, MinimalFault MFC_real c → MinimalFault MFC_real d → tfail.Contains c →
      tfail.Contains d → c ≠ d → Disjoint c.fixed d.fixed)
    {M : Comb} (minimal : MinimalFault MFC_real M) (inside : tfail.Contains M) : M ∈ found := by
  obtain ⟨c, member, i, inC, inM⟩ := family.meets M minimal.1 inside
  obtain ⟨minimalC, insideC⟩ := family.minimal c member
  by_cases same : c = M
  · exact same ▸ member
  · exact absurd inM (Finset.disjoint_left.mp (apart c M minimalC minimal insideC inside same) inC)

/-- `FINOVLP` with the linear scan terminates and returns pairwise disjoint minimal
combinations of the failing test case that meet all combinations of it. If the minimal ones
are pairwise disjoint, it returns all of them. -/
theorem FINOVLP_maximal_disjoint (tfail : Testcase) (table : FaultTable n MFC_real)
    (safeFor : SafeFor n MFC_real safe) (binary : tfail.Binary n)
    (failing : Checker.judge MFC_real tfail = .ok false) (uses : Uses MFC_real safe r) {fuel : Nat}
    (enough : n < fuel) :
    ∃ found after, (FINOVLP FICFaultResovler.locateOneMFC fuel tfail).Runs r found after ∧
      found.toList ≠ [] ∧
      (∀ c ∈ found, MinimalFault MFC_real c ∧ tfail.Contains c) ∧
      (∀ c ∈ found, ∀ d ∈ found, c ≠ d → Disjoint c.fixed d.fixed) ∧
      (∀ M ∈ MFC_real, tfail.Contains M → ∃ c ∈ found, ∃ i ∈ c.fixed,
        i ∈ M.fixed) ∧
      ((∀ c d, MinimalFault MFC_real c → MinimalFault MFC_real d → tfail.Contains c →
          tfail.Contains d → c ≠ d → Disjoint c.fixed d.fixed) →
        ∀ c, c ∈ found ↔ MinimalFault MFC_real c ∧ tfail.Contains c) := by
  obtain ⟨found, settles, family⟩ := FINOVLP_settles table safeFor binary
  obtain ⟨after, runs, _⟩ := settles _ FICFaultResovler.locates r
    (uses.ready table.binary safeFor) fuel enough r (SameConfig.refl r)
  refine ⟨found, after, runs, ?_, family.minimal, family.disjoint, family.meets,
    fun apart c => ⟨family.minimal c, fun ⟨minimal, inside⟩ =>
      complete_of_disjoint family apart minimal inside⟩⟩
  rw [judge_accepts table.binary binary.size, Except.ok.injEq] at failing
  simp only [accepts, decide_eq_false_iff_not, not_forall, not_not] at failing
  obtain ⟨M, member, inside⟩ := failing
  obtain ⟨c, there, _⟩ := family.meets M member inside
  exact List.ne_nil_of_mem there

/-- Two overlapping faults and one apart from them, a fourth parameter without safe value. -/
theorem FINOVLP_maximal_disjoint_overlapping : ∃ found after,
    (FINOVLP FICFaultResovler.locateOneMFC 6 ⟨.testcase, [1, 1, 1, 0, 1]⟩).Runs
      (started (Checker.judge [⟨.comb, [1, 1, -1, -1, -1]⟩, ⟨.comb, [-1, 1, 1, -1, -1]⟩,
        ⟨.comb, [-1, -1, -1, -1, 1]⟩]) [] [] ⟨.comb, [0, 0, 0, -1, 0]⟩
          (fun _ => false)) found after ∧
    (⟨.comb, [-1, -1, -1, -1, 1]⟩ : Comb) ∈ found := by
  obtain ⟨found, after, runs, _, minimal, _, meets, _⟩ := FINOVLP_maximal_disjoint (n := 5)
    (r := started (Checker.judge [⟨.comb, [1, 1, -1, -1, -1]⟩, ⟨.comb, [-1, 1, 1, -1, -1]⟩,
      ⟨.comb, [-1, -1, -1, -1, 1]⟩]) [] [] ⟨.comb, [0, 0, 0, -1, 0]⟩ (fun _ => false))
    ⟨.testcase, [1, 1, 1, 0, 1]⟩ (by decide) (by decide) (by decide) (by decide)
    ⟨rfl, rfl⟩ (show 5 < 6 by decide)
  refine ⟨found, after, runs, ?_⟩
  obtain ⟨c, member, i, inC, inM⟩ :=
    meets ⟨.comb, [-1, -1, -1, -1, 1]⟩ (by simp) (by decide)
  have last : i = 4 := by
    have only : (⟨.comb, [-1, -1, -1, -1, 1]⟩ : Comb).fixed = {4} := by decide
    rwa [only, Finset.mem_singleton] at inM
  subst last
  have listed := (minimal c member).1.1
  simp only [List.mem_cons, List.not_mem_nil, or_false] at listed
  rcases listed with rfl | rfl | rfl
  · exact absurd inC (by decide)
  · exact absurd inC (by decide)
  · exact member

/-- Over the failing test cases, all ways to locate combinations identify the same set. -/
theorem conductAll_agree (table : FaultTable n MFC_real) (safeFor : SafeFor n MFC_real safe)
    {first second : Testcase → Schema → ResolverM Comb}
    (locates : Locates n MFC_real safe first)
    (locates' : Locates n MFC_real safe second) {fuel fuel' : Nat} (enough : n < fuel)
    (enough' : n < fuel') (tests : List Testcase) (binary : ∀ t ∈ tests, t.Binary n)
    {r r' : AbstractFaultResolver} (ready : r.Ready n (accepts MFC_real) safe)
    (ready' : r'.Ready n (accepts MFC_real) safe) (same : r.MFC_identified = r'.MFC_identified) :
    ∃ after after', (tests.forM (conductOne first fuel)).Runs r ⟨⟩ after ∧
      (tests.forM (conductOne second fuel')).Runs r' ⟨⟩ after' ∧
      after.MFC_identified = after'.MFC_identified := by
  induction tests generalizing r r' with
  | nil => exact ⟨r, r', Runs.ret _ _, Runs.ret _ _, same⟩
  | cons tfail rest ih =>
      obtain ⟨found, settles, _⟩ := FINOVLP_settles table safeFor (binary tfail (by simp))
      obtain ⟨s, runs, kept⟩ := settles first locates r ready fuel enough r (SameConfig.refl r)
      obtain ⟨s', runs', kept'⟩ :=
        settles second locates' r' ready' fuel' enough' r' (SameConfig.refl r')
      have added : ∀ q : AbstractFaultResolver, q.Ready n (accepts MFC_real) safe →
          (identified q found.toList).Ready n (accepts MFC_real) safe :=
        fun q here => ⟨here.safeValues, here.valid, here.answers⟩
      obtain ⟨after, after', more, more', final⟩ := ih
        (fun t member => binary t (List.mem_cons_of_mem _ member))
        (added s (ready.of_sameConfig kept)) (added s' (ready'.of_sameConfig kept'))
        (by simp only [identified, kept.MFC_identified, kept'.MFC_identified, same])
      exact ⟨after, after', (runs.bind (Runs.modify _ _)).bind more,
        (runs'.bind (Runs.modify _ _)).bind more', final⟩

/-- The binary search locates the combination that the linear scan locates, for every failing
test case and all fixed parameters, and both resolvers identify the same set. -/
theorem FICBS_refines_FIC (table : FaultTable n MFC_real) (safeFor : SafeFor n MFC_real safe) :
    (∀ t : Testcase, t.Binary n → Checker.judge MFC_real t = .ok false →
      ∀ fixedParameter : Schema, fixedParameter.Wf n → ∃ MFS, ∀ r, Uses MFC_real safe r →
        ∃ after after', (FICFaultResovler.locateOneMFC t fixedParameter).Runs r MFS after ∧
          (FICBSFaultResolver.locateOneMFC t fixedParameter).Runs r MFS after') ∧
    ∀ (Tpass Tfail : List Testcase) (random : Nat → Bool) (r : AbstractFaultResolver),
      Failing n MFC_real Tfail →
      fresh (Checker.ofMFS MFC_real) Tpass Tfail safe random = .ok r →
      ∀ fuel fuel', n < fuel → n < fuel' →
        ∃ after after', (FICFaultResovler.conduct fuel).Runs r ⟨⟩ after ∧
          (FICBSFaultResolver.conduct fuel').Runs r ⟨⟩ after' ∧
          after.MFC_identified = after'.MFC_identified := by
  constructor
  · intro t binary failing fixedParameter wf
    rw [judge_accepts table.binary binary.size, Except.ok.injEq] at failing
    refine ⟨t.restrict (located n (accepts MFC_real) safe t fixedParameter).toFinset,
      fun r uses => ?_⟩
    have ready := uses.ready table.binary safeFor
    obtain ⟨after, runs, _⟩ :=
      FICFaultResovler.locates r ready t binary failing fixedParameter wf r (SameConfig.refl r)
    obtain ⟨after', runs', _⟩ :=
      FICBSFaultResolver.locates table safeFor r ready t binary failing
        fixedParameter wf r (SameConfig.refl r)
    exact ⟨after, after', runs, runs'⟩
  · intro Tpass Tfail random r failing created fuel fuel' enough enough'
    have ready : (started (Checker.judge MFC_real) Tpass Tfail safe random).Ready n
        (accepts MFC_real) safe :=
      started_ready safeFor.valid fun t size => judge_accepts table.binary size
    obtain ⟨after, after', runs, runs', same⟩ := conductAll_agree table safeFor
      FICFaultResovler.locates (FICBSFaultResolver.locates table safeFor) enough enough' Tfail
      (fun t member => (failing t member).1) ready ready rfl
    obtain ⟨_, rfl⟩ := fresh_ok created
    exact ⟨after, after', conductOnce_runs rfl rfl ((Runs.get _).bind runs),
      conductOnce_runs rfl rfl ((Runs.get _).bind runs'), same⟩

/-- Two failing test cases with overlapping faults: both resolvers find both faults. -/
theorem FICBS_refines_FIC_two_tests : ∃ r after after',
    fresh (Checker.ofMFS [⟨.comb, [1, 1, -1]⟩, ⟨.comb, [-1, 1, 1]⟩]) []
      [⟨.testcase, [1, 1, 1]⟩, ⟨.testcase, [1, 1, 0]⟩] ⟨.comb, [0, 0, 0]⟩
        (fun _ => false) = .ok r ∧
    (FICFaultResovler.conduct 4).Runs r ⟨⟩ after ∧
    (FICBSFaultResolver.conduct 4).Runs r ⟨⟩ after' ∧
    after.MFC_identified = after'.MFC_identified ∧
    after'.MFC_identified.toList = [⟨.comb, [-1, 1, 1]⟩, ⟨.comb, [1, 1, -1]⟩] := by
  have created : fresh (Checker.ofMFS [⟨.comb, [1, 1, -1]⟩, ⟨.comb, [-1, 1, 1]⟩]) []
    [⟨.testcase, [1, 1, 1]⟩, ⟨.testcase, [1, 1, 0]⟩] ⟨.comb, [0, 0, 0]⟩
      (fun _ => false) =
      .ok _ := rfl
  obtain ⟨after, after', runs, runs', same⟩ := (FICBS_refines_FIC (n := 3) (by decide)
    (by decide)).2 _ _ _ _ (by decide) created 4 4 (by decide) (by decide)
  obtain ⟨_, rfl⟩ := runs'.unique (Runs.of_returns _ rfl)
  exact ⟨_, after, _, created, runs, runs', same, by decide +kernel⟩

end FINOVLPFaultResolver

end NoPend
