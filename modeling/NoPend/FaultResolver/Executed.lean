import NoPend.FaultResolver.FINOVLPChecks
import NoPend.FaultResolver.Resolvers
import NoPend.FaultResolver.TRTExact

set_option autoImplicit false

/- The test cases that a resolver hands to `Checker.check`, and how many of them
`executedTestcase` counts. -/
namespace NoPend

open AbstractFaultResolver Proc

/-- The test cases that a run hands to `check`, in this order. -/
abbrev Checks {α : Type} (m : ResolverM α) (before : AbstractFaultResolver) (log : List Testcase)
    (outcome : Except Exn α) (after : AbstractFaultResolver) : Prop :=
  Trace check AbstractFaultResolver.checker m before log outcome after

/-- All checks of the procedure are known, and they are checks of test cases in `P`. -/
abbrev ChecksOnly {α : Type} (P : Testcase → Prop) (m : ResolverM α) : Prop :=
  Traced check AbstractFaultResolver.checker P m

section Count

variable {log : List Testcase}

theorem foldl_record (checker : Checker) (log : List Testcase) :
    (log.foldl Checker.record checker).executedTestcase = checker.executedTestcase.addAll log := by
  induction log generalizing checker with
  | nil => rfl
  | cons t rest ih => exact ih (checker.record t)

theorem checker_of_checks {α : Type} {m : ResolverM α} {before after : AbstractFaultResolver}
    {outcome : Except Exn α} (checks : Checks m before log outcome after) :
    after.checker = log.foldl Checker.record before.checker :=
  checks.view_eq fun _ _ => rfl

theorem mem_foldl_record {checker : Checker} (new : checker.executedTestcase = HashSet.empty)
    {u : Testcase} : u ∈ (log.foldl Checker.record checker).executedTestcase ↔ u ∈ log := by
  rw [foldl_record, HashSet.mem_addAll, new]
  simp

theorem values_of_checks {α : Type} {m : ResolverM α} {before after : AbstractFaultResolver}
    {outcome : Except Exn α} (checks : Checks m before log outcome after)
    (new : before.checker.executedTestcase = HashSet.empty) :
    (log.map Comb.elements).toFinset =
      (after.checker.executedTestcase.toList.map Comb.elements).toFinset := by
  rw [checker_of_checks checks]
  ext vector
  simp only [List.mem_toFinset, List.mem_map]
  exact exists_congr fun u => and_congr_left' (mem_foldl_record new).symm

/-- The checker counts the objects that differ. Their number is that of the values iff no two
of them have the same values and different runtime classes. -/
theorem size_eq_card_iff {checker : Checker} (new : checker.executedTestcase = HashSet.empty) :
    (log.foldl Checker.record checker).executedTestcase.size =
        (log.map Comb.elements).toFinset.card ↔
      ∀ u ∈ log, ∀ t ∈ log, u.elements = t.elements → u.cls = t.cls := by
  have objects : (log.foldl Checker.record checker).executedTestcase.size = log.toFinset.card := by
    rw [HashSet.size, ← List.toFinset_card_of_nodup (HashSet.nodup _)]
    congr 1
    ext u
    rw [List.mem_toFinset, List.mem_toFinset]
    exact mem_foldl_record new
  have values : (log.map Comb.elements).toFinset = log.toFinset.image Comb.elements := by
    ext u
    simp
  rw [objects, values, eq_comm, Finset.card_image_iff]
  constructor
  · intro injective u inside t inside' same
    rw [injective (by simpa using inside) (by simpa using inside') same]
  · intro unmixed u inside t inside' same
    have classes := unmixed u (by simpa using inside) t (by simpa using inside') same
    change (⟨u.cls, u.elements⟩ : Comb) = ⟨t.cls, t.elements⟩
    rw [classes, same]

end Count

section Steps

variable {P : Testcase → Prop}

/-- The padded test cases are objects of class `Testcase`. -/
theorem ofList_cls {elements : List Int} {t : Testcase} (made : Testcase.ofList elements = .ok t) :
    t.cls = .testcase := by
  unfold Testcase.ofList Comb.validated at made
  split at made
  · cases made
  · rw [← Except.ok.inj made]

theorem check_with_safevalues_checks (testcases : ∀ t : Testcase, t.cls = .testcase → P t)
    (comb : Comb) (tfail : Testcase) : ChecksOnly P (check_with_safevalues comb tfail) := by
  refine Traced.get.bind fun r => ?_
  split
  · exact .throw _
  · refine Traced.lift_bind fun t padded => ?_
    obtain ⟨elements, _, made⟩ := Except.bind_ok.mp padded
    refine (Traced.one (testcases t (ofList_cls made))).bind fun result => ?_
    refine (Traced.modify fun r => ?_).bind fun _ => .ret _
    cases result <;> rfl

theorem addIdentified_checks (tfail : Testcase) (MFS : Schema) :
    ChecksOnly P (addIdentified tfail MFS) :=
  (Traced.lift _).bind fun _ => .modify fun _ => rfl

theorem searchChain_checks (testcases : ∀ t : Testcase, t.cls = .testcase → P t)
    (indices : List Nat) (max min : Schema) (tfail : Testcase) :
    ChecksOnly P (searchChain indices max min tfail) := by
  have round : ∀ chain state, ChecksOnly P (searchRound chain tfail state) := by
    rintro chain ⟨left, right, result⟩
    unfold searchRound
    dsimp only
    split
    · refine (Traced.lift _).bind fun schema => (Traced.lift _).bind fun comb => ?_
      refine (check_with_safevalues_checks testcases comb tfail).bind fun passed => ?_
      split
      · exact .ret _
      · exact .ret _
    · exact .ret _
  unfold searchChain
  split
  · exact .throw _
  · refine (Traced.lift _).bind fun ordered => ?_
    split
    · exact .throw _
    · refine (Traced.lift _).bind fun comb => ?_
      refine (check_with_safevalues_checks testcases comb tfail).bind fun passed => ?_
      split
      · exact .ret _
      · refine (Traced.iterate (round _) _ _).bind fun result => ?_
        split
        · exact .ret _
        · exact (Traced.lift _).bind fun _ => .ret _

/-- `conduct` of the resolvers that need safe values. -/
theorem conductOnce_checks {body : ResolverM Unit} (only : ChecksOnly P body) (message : String) :
    ChecksOnly P (conductOnce message body) := by
  refine Traced.get.bind fun r => ?_
  split
  · exact .ret _
  · refine Traced.bind (.modify fun r => ?_) fun _ => Traced.get.bind fun r => ?_
    · rfl
    · split
      · exact .throw _
      · exact only

end Steps

section Resolvers

variable {P : Testcase → Prop} (testcases : ∀ t : Testcase, t.cls = .testcase → P t)

include testcases

theorem NoPendFaultResolver.identify_checks (tfail : Testcase) (fuel : Nat) (univ : Schema)
    (CMinF CMaxP : MonotoneSchemaSet) : ChecksOnly P (identify tfail fuel univ CMinF CMaxP) := by
  induction fuel generalizing univ CMinF CMaxP with
  | zero => exact .throw _
  | succ fuel ih =>
      unfold identify
      split
      · exact .ret _
      · refine Traced.iterate ?_ _ _
        rintro ⟨CMinF, CMaxP⟩
        refine (Traced.lift _).bind fun longest => ?_
        split
        · exact .ret _
        · refine (searchChain_checks testcases _ _ _ tfail).bind fun found => ?_
          split
          · exact (Traced.lift _).bind fun _ => .ret _
          · refine (Traced.lift _).bind fun _ => (Traced.lift _).bind fun _ => ?_
            refine (ih _ _ _).bind fun _ => (Traced.lift _).bind fun _ => ?_
            exact (Traced.lift _).bind fun _ => .ret _

theorem NoPendFaultResolver.conduct_checks (fuel : Nat) (order : IterOrder Comb) :
    ChecksOnly P (NoPendFaultResolver.conduct fuel order) := by
  refine conductOnce_checks (Traced.get.bind fun r => Traced.forM _ fun tfail => ?_) _
  have seeded : ChecksOnly P (seeds order tfail) := by
    refine (Traced.lift _).bind fun _ => (Traced.lift _).bind fun _ => Traced.get.bind fun _ => ?_
    exact (Traced.lift _).bind fun _ => .ret _
  refine (seeded.bind fun _ => identify_checks testcases tfail fuel _ _ _).bind fun _ => ?_
  exact Traced.forM _ (addIdentified_checks tfail)

theorem TRTFaultResolver.conduct_checks (fuel : Nat) :
    ChecksOnly P (TRTFaultResolver.conduct fuel) := by
  refine conductOnce_checks (Traced.get.bind fun r => Traced.forM _ fun tfail => ?_) _
  have round : ∀ trt, ChecksOnly P (markRound tfail trt) := by
    intro trt
    refine (Traced.lift _).bind fun top => ?_
    dsimp only
    split
    · exact .ret _
    · refine (Traced.lift _).bind fun bottom => ?_
      split
      · exact .throw _
      · refine (Traced.lift _).bind fun longest => ?_
        split
        · exact .throw _
        · refine (searchChain_checks testcases _ _ _ tfail).bind fun found => ?_
          split
          · exact (Traced.lift _).bind fun _ => .ret _
          · exact (Traced.lift _).bind fun _ => .ret _
  refine (Traced.lift _).bind fun trt => (Traced.iterate round _ _).bind fun trt => ?_
  exact (Traced.lift _).bind fun _ => Traced.forM _ (addIdentified_checks tfail)

theorem FICFaultResovler.locateOneMFC_checks (tfail : Testcase) (fixedParameter : Schema) :
    ChecksOnly P (FICFaultResovler.locateOneMFC tfail fixedParameter) := by
  refine (Traced.lift _).bind fun comb => (Traced.foldlM _ ?_ _).bind fun _ => .lift _
  rintro ⟨comb, MFS⟩ i _
  unfold locateStep
  dsimp only
  split
  · refine (Traced.lift _).bind fun comb => ?_
    refine (check_with_safevalues_checks testcases comb tfail).bind fun passed => ?_
    split
    · exact (Traced.lift _).bind fun _ => (Traced.lift _).bind fun _ => .ret _
    · exact .ret _
  · exact .ret _

theorem FICBSFaultResolver.locateOneMFC_checks (tfail : Testcase) (fixedParameter : Schema) :
    ChecksOnly P (FICBSFaultResolver.locateOneMFC tfail fixedParameter) := by
  have search : ∀ t freeParameters, ChecksOnly P (locateOneFixedParameter t freeParameters) := by
    intro t freeParameters
    unfold locateOneFixedParameter
    split
    · exact .ret _
    · refine Traced.iterate ?_ _ _
      rintro ⟨left, right, ans⟩
      unfold searchRound
      dsimp only
      split
      · refine (Traced.lift _).bind fun comb => ?_
        refine (check_with_safevalues_checks testcases comb t).bind fun passed => ?_
        split
        · exact .ret _
        · exact .ret _
      · exact .ret _
  refine (Traced.lift _).bind fun t => (Traced.iterate ?_ _ _).bind fun _ => .lift _
  rintro ⟨freeParameters, located⟩
  refine (search t freeParameters).bind fun index => ?_
  split
  · exact .ret _
  · exact (Traced.lift _).bind fun _ => .ret _

omit testcases in
theorem FINOVLPFaultResolver.conduct_checks {locateOneMFC : Testcase → Schema → ResolverM Comb}
    (locates : ∀ t fixedParameter, ChecksOnly (fun _ => True) (locateOneMFC t fixedParameter))
    (fuel : Nat) : ChecksOnly (fun _ => True) (FINOVLPFaultResolver.conduct locateOneMFC fuel) := by
  refine conductOnce_checks (Traced.get.bind fun r => Traced.forM _ fun tfail => ?_) _
  refine Traced.bind ?_ fun found => .modify fun _ => rfl
  refine (Traced.lift _).bind fun t => Traced.iterate ?_ _ _
  rintro ⟨t, fixedParameters, found⟩
  refine (Traced.one trivial).bind fun passed => ?_
  split
  · exact .ret _
  · refine (locates t fixedParameters).bind fun MFS => ?_
    refine (Traced.foldlM _ ?_ _).bind fun _ => .ret _
    rintro ⟨t, fixedParameters⟩ i _
    unfold fixParameter
    dsimp only
    split
    · exact .ret _
    · refine Traced.bind (Traced.get.bind fun r => ?_) fun _ => .ret _
      split
      · exact .throw _
      · refine (Traced.lift _).bind fun safe => ?_
        split
        · exact .lift _
        · exact .lift _

theorem check_at_random_checks (comb : Comb) :
    ChecksOnly P (check_with_safevalues_at_random comb) := by
  have draw : ChecksOnly P nextBoolean := .quiet fun _ => rfl
  refine Traced.get.bind fun r => ?_
  split
  · exact .throw _
  · rename_i safeValues _
    refine Traced.bind_returned ?_ fun t => ?_
    · refine (Traced.mapM _ fun i => ?_).bind fun _ => .lift _
      unfold padAtRandom
      split
      · refine (Traced.lift _).bind fun safe => ?_
        split
        · refine draw.bind fun value => ?_
          split
          · exact .ret _
          · exact .ret _
        · exact .ret _
      · exact .ret _
    · rintro ⟨before, after, padded⟩
      obtain ⟨elements, _, _, made⟩ := runs_bind.mp padded
      have cls := ofList_cls (congrArg Prod.fst made)
      refine (Traced.one (testcases t cls)).bind fun result => ?_
      refine (Traced.modify fun r => ?_).bind fun _ => .ret _
      cases result <;> rfl

theorem ComFILFaultResolver.conduct_checks (combination : Combination) (order : IterOrder Comb) :
    ChecksOnly P (ComFILFaultResolver.conduct combination order) := by
  refine conductOnce_checks (Traced.get.bind fun r => (Traced.lift _).bind fun candidateSet => ?_) _
  refine (Traced.foldlM _ ?_ _).bind fun _ => .modify fun _ => rfl
  intro candidateSet comb _
  unfold decideOne
  split
  · exact .ret _
  · refine (check_at_random_checks testcases comb).bind fun passed => ?_
    split
    · exact .lift _
    · exact .lift _

omit testcases in
/-- The mutants are objects of class `Testcase`. -/
theorem IterAIFL.getAT_cls {combination : Combination} {strength : Nat} {Tfail AT : List Testcase}
    (made : IterAIFL.getAT combination strength Tfail = .ok AT) :
    ∀ t ∈ AT, t.cls = .testcase := by
  obtain ⟨mutants, each, joined⟩ := Except.bind_ok.mp made
  rw [← Except.ok.inj joined]
  intro t member
  obtain ⟨some, listed, inside⟩ := List.mem_flatten.mp member
  obtain ⟨tfail, _, mutated⟩ := Except.mem_of_mapM each listed
  obtain ⟨_, _, mutating⟩ := Except.bind_ok.mp mutated
  obtain ⟨tway, _, one⟩ := Except.mem_of_mapM mutating inside
  obtain ⟨_, _, flipping⟩ := Except.bind_ok.mp one
  obtain ⟨_, _, copied⟩ := Except.bind_ok.mp flipping
  unfold Testcase.ofComb at copied
  split at copied
  · cases copied
  · rw [← Except.ok.inj copied]

theorem IterAIFLFaultResolver.conduct_checks (combination : Combination) (order : IterOrder Comb) :
    ChecksOnly P (IterAIFLFaultResolver.conduct combination order) := by
  refine Traced.get.bind fun r => ?_
  split
  · exact .ret _
  · refine Traced.bind (.modify fun r => ?_) fun _ => Traced.get.bind fun r => ?_
    · rfl
    · refine (Traced.lift _).bind fun suspiciousSet => ?_
      split
      · exact .throw _
      · refine (Traced.foldlM _ ?_ _).bind fun _ => ?_
        · intro suspiciousSet i _
          refine Traced.get.bind fun r => Traced.lift_bind fun AT made => ?_
          refine (Traced.foldlM _ ?_ _).bind fun suspiciousSet => ?_
          · intro suspiciousSet t member
            refine (Traced.one (testcases t (IterAIFL.getAT_cls made t member))).bind
              fun passed => ?_
            split
            · exact .lift _
            · exact .ret _
          · split
            · exact .throw _
            · exact .ret _
        · exact (Traced.lift _).bind fun _ => .modify fun _ => rfl

theorem SOFOTFaultResolver.conduct_with_safevalues_checks :
    ChecksOnly P SOFOTFaultResolver.conduct_with_safevalues := by
  refine Traced.get.bind fun r => Traced.forM _ fun tfail => ?_
  refine (Traced.lift _).bind fun comb => (Traced.foldlM _ ?_ _).bind fun _ => ?_
  · rintro ⟨t, MFS⟩ i _
    refine (Traced.lift _).bind fun old_value => (Traced.lift _).bind fun t => ?_
    refine (check_with_safevalues_checks testcases t tfail).bind fun passed => ?_
    exact (Traced.lift _).bind fun _ => .ret _
  · dsimp only
    split
    · exact .ret _
    · exact addIdentified_checks tfail _

/-- With safe values `SOFOT` checks no mutable test case. -/
theorem SOFOTFaultResolver.conduct_checks {r : AbstractFaultResolver} (first : r.conducted = false)
    (known : r.safeValues.isNone = false) :
    ∃ log, Checks SOFOTFaultResolver.conduct r log (exec SOFOTFaultResolver.conduct r).1
      (exec SOFOTFaultResolver.conduct r).2 ∧ ∀ t ∈ log, P t := by
  obtain ⟨log, trace, holds⟩ :=
    conduct_with_safevalues_checks testcases { r with conducted := true }
  have whole : Checks SOFOTFaultResolver.conduct r log
      (exec SOFOTFaultResolver.conduct_with_safevalues { r with conducted := true }).1
      (exec SOFOTFaultResolver.conduct_with_safevalues { r with conducted := true }).2 := by
    refine Trace.get_bind ?_
    rw [if_neg (by rw [first]; decide)]
    refine Trace.modify_bind rfl (Trace.get_bind ?_)
    rw [if_neg (by rw [known]; decide)]
    exact trace
  rw [whole.exec_eq]
  exact ⟨log, whole, holds⟩

end Resolvers

namespace Resolver

/-- The resolvers whose search hands a `MutableTestcase` to `check`. -/
def Mutating (kind : Resolver) : Prop := kind = .fic ∨ kind = .ficbs

instance (kind : Resolver) : Decidable kind.Mutating := inferInstanceAs (Decidable (_ ∨ _))

variable {MFC_real : List Comb} {Tpass Tfail : List Testcase} {random : Nat → Bool}
  {new after : AbstractFaultResolver}

theorem create_fields {kind : Resolver} {checker : Checker}
    (created : kind.create checker Tpass Tfail random = .ok new) :
    new.checker = checker ∧ new.conducted = false ∧ new.Tfail = Tfail := by
  have base : AbstractFaultResolver.create checker Tpass Tfail random = .ok new := by
    cases kind with
    | trt => exact (TRTFaultResolver.create_base created).1
    | _ => exact created
  obtain ⟨_, rfl⟩ := create_eq base
  exact ⟨rfl, rfl, rfl⟩

/-- The checks of every run are known. Unless the resolver is a mutating one, they are checks
of objects of class `Testcase`. -/
theorem conduct_checks (kind : Resolver) (combination : Combination) (fuel : Nat)
    (order : IterOrder Comb) {r : AbstractFaultResolver} (first : r.conducted = false)
    (known : r.safeValues.isNone = false) :
    ∃ log, Checks (kind.conduct combination fuel order) r log
      (exec (kind.conduct combination fuel order) r).1
      (exec (kind.conduct combination fuel order) r).2 ∧
      ∀ t ∈ log, ¬ kind.Mutating → t.cls = .testcase := by
  have plain : ∀ t : Testcase, t.cls = .testcase → ¬ kind.Mutating → t.cls = .testcase :=
    fun t cls _ => cls
  cases kind with
  | sofot => exact SOFOTFaultResolver.conduct_checks plain first known
  | comFIL => exact ComFILFaultResolver.conduct_checks plain combination order r
  | iterAIFL => exact IterAIFLFaultResolver.conduct_checks plain combination order r
  | trt => exact TRTFaultResolver.conduct_checks plain fuel r
  | noPend => exact NoPendFaultResolver.conduct_checks plain fuel order r
  | fic =>
      obtain ⟨log, trace, _⟩ := FINOVLPFaultResolver.conduct_checks
        (FICFaultResovler.locateOneMFC_checks fun _ _ => trivial) fuel r
      exact ⟨log, trace, fun t _ fixed => absurd (Or.inl rfl) fixed⟩
  | ficbs =>
      obtain ⟨log, trace, _⟩ := FINOVLPFaultResolver.conduct_checks
        (FICBSFaultResolver.locateOneMFC_checks fun _ _ => trivial) fuel r
      exact ⟨log, trace, fun t _ fixed => absurd (Or.inr rfl) fixed⟩

/-- The free parameters that are cleared at the checks by which `FIC` and `FICBS` locate a
combination. -/
def clearedSets : Resolver → Nat → Finset Nat → Finset Nat → List (Finset Nat)
  | .fic => FICFaultResovler.clearedSets
  | .ficbs => FICBSFaultResolver.clearedSets
  | _ => fun _ _ _ => []

/-- No padded part of a failing test case has the values of what is left of a failing test case
after some of its combinations have been taken out. -/
def Apart (kind : Resolver) (n : Nat) (MFC_real : List Comb) (safe : Comb)
    (Tfail : List Testcase) : Prop :=
  ∀ tfail ∈ Tfail, ∀ taken ∈ takenOut (faultsIn MFC_real tfail) ∅,
    ∀ C ∈ kind.clearedSets n taken.1 taken.2,
      ∀ other ∈ Tfail, ∀ G ∈ leftovers MFC_real other,
      paddedValues safe tfail (taken.1 ∪ C) ≠ paddedValues safe other G

instance (kind : Resolver) (n : Nat) (MFC_real : List Comb) (safe : Comb) (Tfail : List Testcase) :
    Decidable (kind.Apart n MFC_real safe Tfail) :=
  inferInstanceAs (Decidable (∀ tfail ∈ Tfail, _))

/-- What `FIC` and `FICBS` have run mixes the two classes unless the values are apart. -/
theorem apart_iff {kind : Resolver} {n : Nat} {safe : Comb} :
    kind.Apart n MFC_real safe Tfail ↔
      ∀ u ∈ Tfail.flatMap (testsOf kind.clearedSets n MFC_real safe),
        ∀ t ∈ Tfail.flatMap (testsOf kind.clearedSets n MFC_real safe),
          u.elements = t.elements → u.cls = t.cls := by
  simp only [List.mem_flatMap, testsOf, mem_testsFrom]
  constructor
  · rintro apart u ⟨tfail, member, left | part⟩ t ⟨other, member', left' | part'⟩ same
    · obtain ⟨_, _, rfl⟩ := left
      obtain ⟨_, _, rfl⟩ := left'
      rfl
    · obtain ⟨G, here, rfl⟩ := left
      obtain ⟨taken, there, C, cleared, rfl⟩ := part'
      exact absurd same.symm (apart other member' taken there C cleared tfail member G here)
    · obtain ⟨taken, there, C, cleared, rfl⟩ := part
      obtain ⟨G, here, rfl⟩ := left'
      exact absurd same (apart tfail member taken there C cleared other member' G here)
    · obtain ⟨_, _, _, _, rfl⟩ := part
      obtain ⟨_, _, _, _, rfl⟩ := part'
      rfl
  · intro unmixed tfail member taken there C cleared other member' G here same
    have clash := unmixed _ ⟨tfail, member, Or.inr ⟨taken, there, C, cleared, rfl⟩⟩ _
      ⟨other, member', Or.inl ⟨G, here, rfl⟩⟩ same
    cases clash

/-- The executed test cases of a mutating resolver. -/
theorem checker_of_conduct {kind : Resolver} (mutating : kind.Mutating) {n : Nat} {safe : Comb}
    {r : AbstractFaultResolver} (table : FaultTable n MFC_real) (safeFor : SafeFor n MFC_real safe)
    (uses : Uses MFC_real safe r) (never : r.conducted = false)
    (binary : ∀ t ∈ r.Tfail, t.Binary n) {combination : Combination} {fuel : Nat}
    {order : IterOrder Comb} (runs : (kind.conduct combination fuel order).Runs r ⟨⟩ after) :
    after.checker = (r.Tfail.flatMap (testsOf kind.clearedSets n MFC_real safe)).foldl
      Checker.record r.checker := by
  rcases mutating with rfl | rfl
  · exact FINOVLPFaultResolver.checker_of_conduct table safeFor FICFaultResovler.clears uses never
      binary runs
  · exact FINOVLPFaultResolver.checker_of_conduct table safeFor
      (FICBSFaultResolver.clears table safeFor) uses never binary runs

theorem apart_of_not_mutating {kind : Resolver} (plain : ¬ kind.Mutating) {n : Nat} {safe : Comb} :
    kind.Apart n MFC_real safe Tfail := by
  intro tfail _ taken _ C cleared
  cases kind with
  | fic => exact absurd (Or.inl rfl) plain
  | ficbs => exact absurd (Or.inr rfl) plain
  | _ => cases cleared

/-- For every run that returns on a fresh checker: the number of executed test cases that the
checker reports is the number of value vectors that were passed to `check` iff no part that is
padded to locate a combination has the values of what is left of a failing test case. This only
concerns `FIC` and `FICBS`; the other resolvers always report this number. -/
theorem numAT_eq_iff (kind : Resolver) {n : Nat} (combination : Combination) (fuel : Nat)
    (order : IterOrder Comb) (safe : Comb) (table : FaultTable n MFC_real)
    (safeFor : SafeFor n MFC_real safe) (failing : Failing n MFC_real Tfail)
    (created : kind.create (Checker.ofMFS MFC_real) Tpass Tfail random = .ok new)
    (runs : (kind.conduct combination fuel order).Runs (new.setSafeValues safe) ⟨⟩ after) :
    (∃ log, Checks (kind.conduct combination fuel order) (new.setSafeValues safe) log
      (.ok ⟨⟩) after) ∧
    ∀ log, Checks (kind.conduct combination fuel order) (new.setSafeValues safe) log
      (.ok ⟨⟩) after →
      (after.checker.executedTestcase.size = (log.map Comb.elements).toFinset.card ↔
        kind.Apart n MFC_real safe Tfail) ∧
      (¬ kind.Mutating →
        after.checker.executedTestcase.size = (log.map Comb.elements).toFinset.card) := by
  obtain ⟨fresh, never, tests⟩ := create_fields created
  have start : (new.setSafeValues safe).checker = Checker.ofMFS MFC_real := fresh
  obtain ⟨seen, trace, classes⟩ := conduct_checks kind combination fuel order
    (r := new.setSafeValues safe) never rfl
  rw [runs] at trace
  refine ⟨⟨seen, trace⟩, fun log checks => ?_⟩
  have recorded := checker_of_checks checks
  rw [start] at recorded
  -- a new checker has seen what the log says
  have seen_iff : ∀ (log : List Testcase) (u : Testcase),
      u ∈ (log.foldl Checker.record (Checker.ofMFS MFC_real)).executedTestcase ↔ u ∈ log :=
    fun _ _ => mem_foldl_record rfl
  have count : after.checker.executedTestcase.size = (log.map Comb.elements).toFinset.card ↔
      kind.Apart n MFC_real safe Tfail := by
    rw [recorded]
    refine (size_eq_card_iff rfl).trans ?_
    by_cases mutating : kind.Mutating
    · -- what is in the log is what `FINOVLP` runs
      have uses : Uses MFC_real safe (new.setSafeValues safe) := by
        refine ⟨?_, rfl⟩
        rw [start]
        rfl
      have run := checker_of_conduct mutating table safeFor uses never
        (fun t member => (failing t (tests ▸ member)).1) runs
      have same : ∀ u,
          u ∈ log ↔ u ∈ Tfail.flatMap (testsOf kind.clearedSets n MFC_real safe) := by
        intro u
        rw [recorded, start] at run
        rw [← seen_iff, run, seen_iff]
        exact Eq.to_iff (congrArg (u ∈ List.flatMap _ ·) tests)
      rw [apart_iff]
      simp only [same]
    · refine iff_of_true (fun u inside t inside' _ => ?_) (apart_of_not_mutating mutating)
      have recorded' := checker_of_checks trace
      rw [start, recorded] at recorded'
      -- what is in one log of the run is in the other one
      have testcase : ∀ u ∈ log, u.cls = .testcase := by
        intro u inside
        refine classes u ?_ mutating
        rw [← seen_iff, ← recorded', seen_iff]
        exact inside
      rw [testcase u inside, testcase t inside']
  exact ⟨count, fun plain => count.mpr (apart_of_not_mutating plain)⟩

/-- `FIC` and `FICBS` on a failing test case with two faults of two parameters each. -/
theorem numAT_eq_iff_two : ∃ new fic ficbs log log',
    Resolver.fic.create (Checker.ofMFS [⟨.comb, [1, -1, -1, 1]⟩, ⟨.comb, [-1, 1, 1, -1]⟩])
      [] [⟨.testcase, [1, 1, 1, 1]⟩] (fun _ => false) = .ok new ∧
    (∀ kind ∈ [Resolver.fic, Resolver.ficbs],
      kind.Apart 4 [⟨.comb, [1, -1, -1, 1]⟩, ⟨.comb, [-1, 1, 1, -1]⟩]
        ⟨.comb, [0, 0, 0, 0]⟩ [⟨.testcase, [1, 1, 1, 1]⟩]) ∧
    Checks (Resolver.fic.conduct .sublists 5 .insertion)
      (new.setSafeValues ⟨.comb, [0, 0, 0, 0]⟩) log (.ok ⟨⟩) fic ∧
    fic.checker.executedTestcase.size = (log.map Comb.elements).toFinset.card ∧
    Checks (Resolver.ficbs.conduct .sublists 5 .insertion)
      (new.setSafeValues ⟨.comb, [0, 0, 0, 0]⟩) log' (.ok ⟨⟩) ficbs ∧
    ficbs.checker.executedTestcase.size = (log'.map Comb.elements).toFinset.card := by
  have created : Resolver.fic.create
    (Checker.ofMFS [⟨.comb, [1, -1, -1, 1]⟩, ⟨.comb, [-1, 1, 1, -1]⟩]) []
      [⟨.testcase, [1, 1, 1, 1]⟩] (fun _ => false) = .ok _ := rfl
  have created' : Resolver.ficbs.create
    (Checker.ofMFS [⟨.comb, [1, -1, -1, 1]⟩, ⟨.comb, [-1, 1, 1, -1]⟩]) []
      [⟨.testcase, [1, 1, 1, 1]⟩] (fun _ => false) = .ok _ := rfl
  have apart : ∀ kind ∈ [Resolver.fic, Resolver.ficbs],
      kind.Apart 4 [⟨.comb, [1, -1, -1, 1]⟩, ⟨.comb, [-1, 1, 1, -1]⟩]
        ⟨.comb, [0, 0, 0, 0]⟩ [⟨.testcase, [1, 1, 1, 1]⟩] := by decide
  obtain ⟨⟨log, checks⟩, exactly⟩ := numAT_eq_iff .fic (n := 4) .sublists 5 .insertion
    ⟨.comb, [0, 0, 0, 0]⟩ (by decide) (by decide) (by decide) created (Runs.of_returns _ rfl)
  obtain ⟨⟨log', checks'⟩, exactly'⟩ := numAT_eq_iff .ficbs (n := 4) .sublists 5 .insertion
    ⟨.comb, [0, 0, 0, 0]⟩ (by decide) (by decide) (by decide) created' (Runs.of_returns _ rfl)
  exact ⟨_, _, _, log, log', created, apart, checks,
    (exactly log checks).1.mpr (apart .fic (by simp)), checks',
    (exactly' log' checks').1.mpr (apart .ficbs (by simp))⟩

/-- `FIC` mixes the classes on every failing test case that has the safe value of the first
parameter: the first part it pads is this test case again. -/
theorem not_apart_of_safe_first {n : Nat} {safe : Comb} (table : FaultTable n MFC_real)
    (failing : Failing n MFC_real Tfail) {tfail : Testcase} (member : tfail ∈ Tfail)
    (positive : 0 < n) (same : tfail.val 0 = safe.val 0) :
    ¬ Resolver.fic.Apart n MFC_real safe Tfail := by
  intro apart
  have binary := (failing tfail member).1
  have rejected := failing.rejected table member
  simp only [accepts, decide_eq_false_iff_not, not_forall, not_not] at rejected
  obtain ⟨M, listed, inside⟩ := rejected
  have some : M.fixed ∈ faultsIn MFC_real tfail := mem_faultsIn.mpr ⟨M, listed, inside, rfl⟩
  obtain ⟨first, rest, split⟩ := List.exists_cons_of_ne_nil (List.ne_nil_of_mem some)
  have taken : (∅, first) ∈ takenOut (faultsIn MFC_real tfail) ∅ := by
    rw [split, takenOut, if_pos (Finset.disjoint_empty_right _)]
    exact List.mem_cons_self
  have cleared : {0} ∈ FICFaultResovler.clearedSets n ∅ first :=
    List.mem_map.mpr ⟨0, by simp [positive], by simp⟩
  refine apart tfail member _ taken _ cleared tfail member ∅ (List.mem_cons_self) ?_
  have known : safe.val 0 ≠ Comb.UNKNOWN := by
    have value := binary.values 0 positive
    simp only [Comb.UNKNOWN]
    omega
  refine List.map_congr_left fun i _ => ?_
  by_cases here : i = 0
  · subst here
    simp [known, same]
  · simp [here]

/-- `FIC` runs the value 0 twice, once as a padded part and once as the `MutableTestcase` that
is left of the failing test case, and counts it twice. -/
theorem numAT_counts_twice : ∃ new after,
    FaultTable 1 [⟨.comb, [1]⟩] ∧ SafeFor 1 [⟨.comb, [1]⟩] ⟨.comb, [0]⟩ ∧
    Failing 1 [⟨.comb, [1]⟩] [⟨.testcase, [1]⟩] ∧
    Resolver.fic.create (Checker.ofMFS [⟨.comb, [1]⟩]) [] [⟨.testcase, [1]⟩]
      (fun _ => false) =
      .ok new ∧
    (Resolver.fic.conduct .sublists 2 .insertion).Runs (new.setSafeValues ⟨.comb, [0]⟩)
      ⟨⟩ after ∧
    after.checker.executedTestcase.size = 3 ∧
    ∃ log, Checks (Resolver.fic.conduct .sublists 2 .insertion)
      (new.setSafeValues ⟨.comb, [0]⟩) log
      (.ok ⟨⟩) after ∧ (log.map Comb.elements).toFinset.card = 2 := by
  refine ⟨_, _, by decide, by decide, by decide, rfl, Runs.of_returns _ rfl, by decide, ?_⟩
  obtain ⟨log, checks, _⟩ := conduct_checks .fic .sublists 2 .insertion
    (r := ⟨[], [⟨.testcase, [1]⟩], Checker.ofMFS [⟨.comb, [1]⟩], [], [],
      some ⟨.comb, [0]⟩, HashSet.empty, false, 0, fun _ => false⟩) rfl rfl
  refine ⟨log, checks, ?_⟩
  rw [values_of_checks checks rfl]
  decide

end Resolver

end NoPend
