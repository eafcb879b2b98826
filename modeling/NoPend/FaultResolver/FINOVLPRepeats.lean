import NoPend.FaultResolver.FINOVLPExact
import NoPend.FaultResolver.LifeCycle
import NoPend.FaultResolver.Padding
import NoPend.Lib.Relational

set_option autoImplicit false

/- Two runs of `FICFaultResovler` or `FICBSFaultResolver` on the same failing test cases make
the same records, whatever was recorded before and whichever fitting safe values each has. -/
namespace NoPend

open AbstractFaultResolver Proc

/-- Two runs on the faults of `MFC_real`, with safe values `v` and `w`: both have identified
the same, and since they started with `start` and `start'` they have recorded the same. -/
structure Twin (n : Nat) (MFC_real : List Comb) (v w : Comb) (start start' : AbstractFaultResolver)
    (r r' : AbstractFaultResolver) : Prop where
  uses : Uses MFC_real v r
  uses' : Uses MFC_real w r'
  found : r.MFC_identified = r'.MFC_identified
  records : ∃ healthy faulty, r.healthyCombs = start.healthyCombs ++ healthy ∧
    r'.healthyCombs = start'.healthyCombs ++ healthy ∧
    r.faultyCombs = start.faultyCombs ++ faulty ∧
      r'.faultyCombs = start'.faultyCombs ++ faulty ∧
    (∀ c ∈ healthy, c.size = n) ∧ ∀ c ∈ faulty, c.size = n

section Checks

variable {n : Nat} {MFC_real : List Comb} {v w : Comb} {start start' r r' : AbstractFaultResolver}
  {t tfail : Testcase}

/-- A check is no record by itself. -/
theorem Twin.record (twin : Twin n MFC_real v w start start' r r') (t t' : Testcase) :
    Twin n MFC_real v w start start' { r with checker := r.checker.record t }
      { r' with checker := r'.checker.record t' } :=
  ⟨⟨twin.uses.1, twin.uses.2⟩, ⟨twin.uses'.1, twin.uses'.2⟩, twin.found, twin.records⟩

/-- Both note the same verdict on the same combination. -/
theorem Twin.note (twin : Twin n MFC_real v w start start' r r') {comb : Comb}
    (size : comb.size = n)
    (passed : Bool) :
    Twin n MFC_real v w start start' (r.note comb passed) (r'.note comb passed) := by
  obtain ⟨healthy, faulty, h, h', f, f', sizeH, sizeF⟩ := twin.records
  cases passed with
  | true =>
      refine ⟨twin.uses, twin.uses', twin.found, healthy ++ [comb.copy], faulty, ?_, ?_, f,
        f', ?_, sizeF⟩
      · change r.healthyCombs ++ [comb.copy] = _
        rw [h, List.append_assoc]
      · change r'.healthyCombs ++ [comb.copy] = _
        rw [h', List.append_assoc]
      · intro c member
        rcases List.mem_append.mp member with old | new
        · exact sizeH c old
        · rw [List.mem_singleton.mp new]
          exact size
  | false =>
      refine ⟨twin.uses, twin.uses', twin.found, healthy, faulty ++ [comb.copy], h, h', ?_,
        ?_, sizeH, ?_⟩
      · change r.faultyCombs ++ [comb.copy] = _
        rw [f, List.append_assoc]
      · change r'.faultyCombs ++ [comb.copy] = _
        rw [f', List.append_assoc]
      · intro c member
        rcases List.mem_append.mp member with old | new
        · exact sizeF c old
        · rw [List.mem_singleton.mp new]
          exact size

theorem check_twin (table : FaultTable n MFC_real) (size : t.size = n) :
    Lockstep (Twin n MFC_real v w start start') (· = accepts MFC_real t) (check t) (check t) := by
  refine Lockstep.of_runs fun r r' twin => ?_
  have answer := judge_accepts table.binary size
  exact ⟨accepts MFC_real t, _, _, check_of_verdict (by rw [twin.uses.1, answer]),
    check_of_verdict (by rw [twin.uses'.1, answer]), twin.record t t, rfl⟩

theorem check_with_safevalues_twin (table : FaultTable n MFC_real) (fits : SafeFor n MFC_real v)
    (fits' : SafeFor n MFC_real w) (binary : tfail.Binary n) {comb : Comb} (valid : comb.Valid n) :
    Lockstep (Twin n MFC_real v w start start') (fun _ => True) (check_with_safevalues comb tfail)
      (check_with_safevalues comb tfail) := by
  refine Lockstep.of_runs fun r r' twin => ?_
  have first := check_with_safevalues_runs (twin.uses.ready table.binary fits) binary valid
  have second := check_with_safevalues_runs (twin.uses'.ready table.binary fits') binary valid
  rw [accepts_padWith table.binary fits valid.size] at first
  rw [accepts_padWith table.binary fits' valid.size] at second
  exact ⟨_, _, _, first, second, (twin.record _ _).note valid.size _, trivial⟩

end Checks

section Locate

variable {n : Nat} {MFC_real : List Comb} {v w : Comb} {start start' : AbstractFaultResolver}

theorem Comb.Valid.set {c c' : Comb} (valid : c.Valid n) {i : Nat} {value : Int}
    (allowed : 0 ≤ value ∨ value = Comb.UNKNOWN) (done : c.set i value = .ok c') :
    c'.Valid n := by
  unfold Comb.set at done
  split at done
  · rename_i inside
    obtain rfl := (Except.ok.inj done).symm
    refine ⟨by rw [← valid.size]; simp [Comb.size], fun j bound => ?_⟩
    rw [set_val inside]
    split
    · exact allowed
    · exact valid.values j bound
  · cases done

theorem valid_ofComb {t : Testcase} (binary : t.Binary n) {comb : Comb}
    (made : MutableComb.ofComb t = .ok comb) : comb.Valid n := by
  rw [ofComb_mutablePart binary] at made
  rw [← Except.ok.inj made]
  obtain ⟨size, values⟩ := restrict_valid binary (Finset.range n)
  exact ⟨size, values⟩

/-- A way to locate a combination that two runs go side by side. -/
def TwinLocates (n : Nat) (MFC_real : List Comb) (v w : Comb)
    (locateOneMFC : Testcase → Schema → ResolverM Comb) : Prop :=
  ∀ start start' : AbstractFaultResolver,
    ∀ t : Testcase, t.Binary n → ∀ fixedParameter : Schema,
    Lockstep (Twin n MFC_real v w start start') (fun _ => True) (locateOneMFC t fixedParameter)
      (locateOneMFC t fixedParameter)

theorem FICFaultResovler.twinLocates (table : FaultTable n MFC_real) (fits : SafeFor n MFC_real v)
    (fits' : SafeFor n MFC_real w) : TwinLocates n MFC_real v w FICFaultResovler.locateOneMFC := by
  intro start start' t binary fixedParameter
  refine (Lockstep.lift (Comb.Valid n) fun comb made => valid_ofComb binary made).bind
    fun comb valid => ?_
  refine (Lockstep.foldlM (fun state => state.1.Valid n) _ ?_ valid).bind
    fun _ _ => Lockstep.lift _ fun _ _ => trivial
  rintro ⟨comb, MFS⟩ valid i member
  have inside : i < n := binary.size ▸ List.mem_range.mp member
  unfold FICFaultResovler.locateStep
  by_cases fixed : fixedParameter.get i = true
  · simp only [fixed, Bool.not_true]
    exact Lockstep.ret valid
  · simp only [fixed, Bool.not_false, if_true]
    refine (Lockstep.lift (Comb.Valid n) fun comb' done => valid.set (Or.inr rfl) done).bind
      fun comb' valid' => ?_
    refine (check_with_safevalues_twin table fits fits' binary valid').bind fun passed _ => ?_
    cases passed with
    | false => exact Lockstep.ret valid'
    | true =>
        refine (Lockstep.lift (0 ≤ ·) fun value got => ?_).bind fun value positive => ?_
        · rw [Comb.get_eq_val (binary.size ▸ inside)] at got
          rw [← Except.ok.inj got]
          rcases binary.values i inside with zero | one
          · omega
          · omega
        · exact (Lockstep.lift (Comb.Valid n) fun comb'' done =>
            valid'.set (Or.inl positive) done).bind fun comb'' valid'' => Lockstep.ret valid''

theorem valid_clearUpTo {t : Testcase} (binary : t.Binary n) {freeParameters : List Nat} {mid : Int}
    {comb : Comb} (made : FICBSFaultResolver.clearUpTo t freeParameters mid = .ok comb) :
    comb.Valid n := by
  obtain ⟨first, whole, loop⟩ := Except.bind_ok.mp made
  refine Except.foldlM_post (Comb.Valid n) ?_ (valid_ofComb binary whole) loop
  intro c i c' valid step
  obtain ⟨index, _, done⟩ := Except.bind_ok.mp step
  exact valid.set (Or.inr rfl) done

theorem FICBSFaultResolver.twinLocates (table : FaultTable n MFC_real) (fits : SafeFor n MFC_real v)
    (fits' : SafeFor n MFC_real w) :
    TwinLocates n MFC_real v w FICBSFaultResolver.locateOneMFC := by
  intro start start' tfail binary fixedParameter
  have search : ∀ t : Testcase, t.Binary n → ∀ freeParameters,
      Lockstep (Twin n MFC_real v w start start') (fun _ => True)
        (FICBSFaultResolver.locateOneFixedParameter t freeParameters)
        (FICBSFaultResolver.locateOneFixedParameter t freeParameters) := by
    intro t binary freeParameters
    unfold FICBSFaultResolver.locateOneFixedParameter
    split
    · exact Lockstep.ret trivial
    · refine Lockstep.iterate (fun _ => True) _ ?_ _ trivial
      rintro ⟨left, right, ans⟩ _
      unfold FICBSFaultResolver.searchRound
      dsimp only
      split
      · refine (Lockstep.lift (Comb.Valid n) fun comb made => valid_clearUpTo binary made).bind
          fun comb valid => ?_
        refine (check_with_safevalues_twin table fits fits' binary valid).bind fun passed _ => ?_
        cases passed with
        | true => exact Lockstep.ret trivial
        | false => exact Lockstep.ret trivial
      · exact Lockstep.ret trivial
  unfold FICBSFaultResolver.locateOneMFC FINOVLPFaultResolver.locateOneMFC
  refine (Lockstep.lift (Comb.Binary n) fun t made => ?_).bind fun t binary' => ?_
  · rw [MutableTestcase.ofComb_eq binary] at made
    rw [← Except.ok.inj made]
    exact ⟨binary.size, binary.values⟩
  · refine (Lockstep.iterate (fun _ => True) (fun _ => True) ?_ _ trivial).bind
      fun _ _ => Lockstep.lift _ fun _ _ => trivial
    rintro ⟨freeParameters, locatedFaultyBits⟩ _
    unfold FINOVLPFaultResolver.locateRound
    refine (search t binary' freeParameters).bind fun index _ => ?_
    split
    · exact Lockstep.ret trivial
    · exact (Lockstep.lift (fun _ => True) fun _ _ => trivial).bind
        fun _ _ => Lockstep.ret trivial

end Locate

section Conduct

open FINOVLPFaultResolver

variable {n : Nat} {MFC_real : List Comb} {v w : Comb} {start start' : AbstractFaultResolver}
  {locateOneMFC : Testcase → Schema → ResolverM Comb} {tfail : Testcase}

/-- Fitting safe values agree on the parameters of a combination of `MFC_real`. -/
theorem fixParameters_twin (table : FaultTable n MFC_real) (fits : SafeFor n MFC_real v)
    (fits' : SafeFor n MFC_real w) {M : Comb} (member : M ∈ MFC_real) {t : Testcase}
    (size : t.size = n) (fixedParameters : Schema) :
    Lockstep (Twin n MFC_real v w start start') (fun _ => True) (fixParameters M t fixedParameters)
      (fixParameters M t fixedParameters) := by
  have loop : Lockstep (Twin n MFC_real v w start start')
      (fun state : Testcase × Schema => state.1.size = n) (fixParameters M t fixedParameters)
      (fixParameters M t fixedParameters) := by
    refine Lockstep.foldlM (fun state : Testcase × Schema => state.1.size = n) _ ?_ size
    rintro ⟨t, fixedParameters⟩ size i inside
    have bound : i < n := (table.binary M member).size ▸ List.mem_range.mp inside
    by_cases unknown : M.val i = Comb.UNKNOWN
    · rw [fixParameter, if_pos unknown]
      exact Lockstep.ret size
    · rw [fixParameter, if_neg unknown]
      have known : i ∈ M.fixed := Comb.mem_fixed.mpr unknown
      have agree : v.val i = w.val i := by
        rw [fits.other M member i known, fits'.other M member i known]
      suffices padded : Lockstep (Twin n MFC_real v w start start') (fun t : Testcase => t.size = n)
          (paddingWithSafeValues t i) (paddingWithSafeValues t i) by
        exact padded.bind fun t size => Lockstep.ret size
      refine Lockstep.of_runs fun r r' twin => ?_
      have first := paddingWithSafeValues_runs (twin.uses.ready table.binary fits) size bound
        (safe_binary table fits member known)
      have second := paddingWithSafeValues_runs (twin.uses'.ready table.binary fits') size bound
        (safe_binary table fits' member known)
      rw [← agree] at second
      exact ⟨_, r, r', first, second, twin, by simpa [Comb.size] using size⟩
  exact loop.strengthen fun _ _ _ _ _ _ => trivial

theorem FINOVLPRound_twin (table : FaultTable n MFC_real) (fits : SafeFor n MFC_real v)
    (fits' : SafeFor n MFC_real w) (binary : tfail.Binary n)
    (locates : Locates n MFC_real v locateOneMFC) (twins : TwinLocates n MFC_real v w locateOneMFC)
    (state : Testcase × Schema × HashSet Comb)
    (peeled : Peeled n MFC_real v tfail state.1 state.2.1 state.2.2) :
    Lockstep (Twin n MFC_real v w start start')
      (Sum.elim (fun state => Peeled n MFC_real v tfail state.1 state.2.1 state.2.2) fun _ => True)
      (FINOVLPRound locateOneMFC state) (FINOVLPRound locateOneMFC state) := by
  obtain ⟨t, fixedParameters, found⟩ := state
  have round : Lockstep (Twin n MFC_real v w start start') (fun _ => True)
      (FINOVLPRound locateOneMFC (t, fixedParameters, found))
      (FINOVLPRound locateOneMFC (t, fixedParameters, found)) := by
    refine (check_twin table peeled.size).bind fun passed answer => ?_
    cases outcome : accepts MFC_real t with
    | true =>
        rw [answer, outcome]
        exact Lockstep.ret trivial
    | false =>
        rw [answer, outcome]
        have binary' := peeled.binary table fits binary
        obtain ⟨M, minimal, _, same⟩ := located_minimal table fits binary' outcome
          fun M member inside i known => peeled.clear table fits member inside known
        have located : Lockstep (Twin n MFC_real v w start start') (· = M)
            (locateOneMFC t fixedParameters) (locateOneMFC t fixedParameters) := by
          refine (twins start start' t binary' fixedParameters).strengthen ?_
          intro r r' twin value after runs
          obtain ⟨_, located, _⟩ :=
            locates r (twin.uses.ready table.binary fits) t binary' outcome
              fixedParameters peeled.wf r (SameConfig.refl r)
          exact (runs.unique located).1.trans same
        refine located.bind fun MFS this => ?_
        rw [this]
        exact (fixParameters_twin table fits fits' minimal.1 peeled.size fixedParameters).bind
          fun _ _ => Lockstep.ret trivial
  -- which of the two ends a round takes is known from one run alone
  refine round.strengthen fun r r' twin outcome after runs => ?_
  have ready := twin.uses.ready table.binary fits
  rcases FINOVLPRound_settles table fits binary peeled with
    ⟨leaves, _⟩ | ⟨t', fixed', found', goes, next, _⟩
  · obtain ⟨_, settled, _⟩ := leaves locateOneMFC locates r ready r (SameConfig.refl r)
    rw [(runs.unique settled).1]
    exact trivial
  · obtain ⟨_, settled, _⟩ := goes locateOneMFC locates r ready r (SameConfig.refl r)
    rw [(runs.unique settled).1]
    exact next

theorem conductOne_twin (table : FaultTable n MFC_real) (fits : SafeFor n MFC_real v)
    (fits' : SafeFor n MFC_real w) (binary : tfail.Binary n)
    (locates : Locates n MFC_real v locateOneMFC) (twins : TwinLocates n MFC_real v w locateOneMFC)
    (fuel : Nat) :
    Lockstep (Twin n MFC_real v w start start') (fun _ => True) (conductOne locateOneMFC fuel tfail)
      (conductOne locateOneMFC fuel tfail) := by
  have located : Lockstep (Twin n MFC_real v w start start') (fun _ => True)
      (FINOVLP locateOneMFC fuel tfail) (FINOVLP locateOneMFC fuel tfail) := by
    refine (Lockstep.lift (· = ⟨.mutableTestcase, tfail.elements⟩) fun t made => ?_).bind
      fun t this => ?_
    · rw [MutableTestcase.ofComb_eq binary] at made
      exact (Except.ok.inj made).symm
    · refine Lockstep.iterate _ _ (FINOVLPRound_twin table fits fits' binary locates twins) fuel ?_
      subst this
      have size : (⟨.mutableTestcase, tfail.elements⟩ : Comb).size = n := binary.size
      rw [size]
      exact Peeled.start binary
  refine located.bind fun found _ => Lockstep.modify fun r r' twin => ?_
  refine ⟨twin.uses, twin.uses', ?_, twin.records⟩
  simp only [identified, twin.found]

/-- The loop over the failing test cases returns. -/
theorem conductAll_returns (table : FaultTable n MFC_real) (fits : SafeFor n MFC_real v)
    (locates : Locates n MFC_real v locateOneMFC) {fuel : Nat} (enough : n < fuel)
    (tests : List Testcase) (binary : ∀ t ∈ tests, t.Binary n) {r : AbstractFaultResolver}
    (uses : Uses MFC_real v r) :
    ∃ after, (tests.forM (conductOne locateOneMFC fuel)).Runs r ⟨⟩ after ∧
      SameFrame r after := by
  obtain ⟨after, runs, _, frame⟩ := forM_runs (conductOne locateOneMFC fuel)
    (fun _ s => Uses MFC_real v s ∧ SameFrame r s) tests
    (by
      rintro done t rest s split ⟨uses, frame⟩
      obtain ⟨found, settles, _⟩ := FINOVLP_settles table fits (binary t (by rw [split]; simp))
      obtain ⟨s', runs, same⟩ :=
        settles locateOneMFC locates s (uses.ready table.binary fits) fuel
          enough s (SameConfig.refl s)
      exact ⟨_, runs.bind (Runs.modify _ _),
        ⟨same.verdict.trans uses.1, same.safeValues.trans uses.2⟩, frame.step same _⟩)
    r ⟨uses, rfl, rfl, rfl, rfl⟩
  exact ⟨after, runs, frame⟩

/-- A run from a state without records, and a run from any other one. -/
theorem conductAll_twin (table : FaultTable n MFC_real) (fits : SafeFor n MFC_real v)
    (fits' : SafeFor n MFC_real w) (locates : Locates n MFC_real v locateOneMFC)
    (twins : TwinLocates n MFC_real v w locateOneMFC) {fuel : Nat} {tests : List Testcase}
    (binary : ∀ t ∈ tests, t.Binary n) {first r last : AbstractFaultResolver}
    (uses : Uses MFC_real v first) (uses' : Uses MFC_real w r)
    (same : first.MFC_identified = r.MFC_identified) (noHealthy : first.healthyCombs = [])
    (noFaulty : first.faultyCombs = [])
    (runs : (tests.forM (conductOne locateOneMFC fuel)).Runs first ⟨⟩ last) :
    ∃ after, (tests.forM (conductOne locateOneMFC fuel)).Runs r ⟨⟩ after ∧
      after.MFC_identified = last.MFC_identified ∧
      after.healthyCombs = r.healthyCombs ++ last.healthyCombs ∧
      after.faultyCombs = r.faultyCombs ++ last.faultyCombs ∧
      (∀ c ∈ last.healthyCombs, c.size = n) ∧ ∀ c ∈ last.faultyCombs, c.size = n := by
  have start : Twin n MFC_real v w first r first r :=
    ⟨uses, uses', same, [], [], by simp, by simp, by simp, by simp, by simp, by simp⟩
  obtain ⟨after, runs', twin⟩ := (Lockstep.forM tests fun t member =>
    conductOne_twin table fits fits' (binary t member) locates twins fuel).runs start runs
  obtain ⟨healthy, faulty, h, h', f, f', sizeH, sizeF⟩ := twin.records
  rw [noHealthy, List.nil_append] at h
  rw [noFaulty, List.nil_append] at f
  rw [h, f]
  exact ⟨after, runs', twin.found.symm, h', f', sizeH, sizeF⟩

/-- All runs on the same failing test cases add the same records and identify the same. -/
theorem exists_additions (table : FaultTable n MFC_real)
    (locates : ∀ v, SafeFor n MFC_real v → Locates n MFC_real v locateOneMFC)
    (twins : ∀ v w, SafeFor n MFC_real v → SafeFor n MFC_real w →
      TwinLocates n MFC_real v w locateOneMFC)
    {fuel : Nat} (enough : n < fuel) (tests : List Testcase)
    (binary : ∀ t ∈ tests, t.Binary n) :
    ∃ (healthy faulty : List Comb) (found : HashSet Comb),
      (∀ c ∈ healthy, c.size = n) ∧ (∀ c ∈ faulty, c.size = n) ∧
      ∀ (r : AbstractFaultResolver) (v : Comb), Uses MFC_real v r → SafeFor n MFC_real v →
        r.MFC_identified = HashSet.empty → ∃ after,
          (tests.forM (conductOne locateOneMFC fuel)).Runs r ⟨⟩ after ∧ SameFrame r after ∧
          after.MFC_identified = found ∧ after.healthyCombs = r.healthyCombs ++ healthy ∧
          after.faultyCombs = r.faultyCombs ++ faulty := by
  by_cases some : ∃ v, SafeFor n MFC_real v
  · -- the run of a new resolver with one fitting vector stands for all runs
    obtain ⟨v, fits⟩ := some
    let first := started (Checker.judge MFC_real) [] tests v fun _ => false
    have uses : Uses MFC_real v first := ⟨rfl, rfl⟩
    obtain ⟨last, runs, _⟩ :=
      conductAll_returns table fits (locates v fits) enough tests binary uses
    obtain ⟨_, _, _, _, _, sizeH, sizeF⟩ := conductAll_twin table fits fits (locates v fits)
      (twins v v fits fits) binary uses uses rfl rfl rfl runs
    refine ⟨last.healthyCombs, last.faultyCombs, last.MFC_identified, sizeH, sizeF, ?_⟩
    intro r w uses' fits' empty
    obtain ⟨after, runs', found, healthy, faulty, _⟩ := conductAll_twin table fits fits'
      (locates v fits) (twins v w fits fits') binary uses uses' empty.symm rfl rfl runs
    obtain ⟨after', again, frame⟩ :=
      conductAll_returns table fits' (locates w fits') enough tests binary uses'
    obtain ⟨_, rfl⟩ := again.unique runs'
    exact ⟨after', runs', frame, found, healthy, faulty⟩
  · exact ⟨[], [], HashSet.empty, by simp, by simp, fun r v _ fits =>
      absurd ⟨v, fits⟩ some⟩

/-- The records are those of `k` runs that each add `healthy` and `faulty`. -/
def RecordsOf (healthy faulty : List Comb) (k : Nat) (r : AbstractFaultResolver) : Prop :=
  r.healthyCombs = (List.replicate k healthy).flatten ∧
    r.faultyCombs = (List.replicate k faulty).flatten

/-- Once there was a run, more runs do not change what is recorded. -/
theorem RecordsOf.mem_iff {healthy faulty : List Comb} {k : Nat} {r : AbstractFaultResolver}
    (records : RecordsOf healthy faulty (k + 1) r) (c : Comb) :
    (c ∈ r.healthyCombs ↔ c ∈ healthy) ∧ (c ∈ r.faultyCombs ↔ c ∈ faulty) := by
  have repeated : ∀ records : List Comb,
      c ∈ (List.replicate (k + 1) records).flatten ↔ c ∈ records := by
    intro records
    rw [List.mem_flatten]
    constructor
    · rintro ⟨l, member, inside⟩
      rw [(List.mem_replicate.mp member).2] at inside
      exact inside
    · intro inside
      exact ⟨records, List.mem_replicate.mpr ⟨by omega, rfl⟩, inside⟩
  rw [records.1, records.2]
  exact ⟨repeated healthy, repeated faulty⟩

theorem RecordsOf.alike {healthy faulty : List Comb} (sizeH : ∀ c ∈ healthy, c.size = n)
    (sizeF : ∀ c ∈ faulty, c.size = n) {k k' : Nat} {r r' : AbstractFaultResolver}
    (records : RecordsOf healthy faulty (k + 1) r) (records' : RecordsOf healthy faulty (k' + 1) r')
    (comb : Comb) : r.checkPending comb = r'.checkPending comb := by
  refine checkPending_congr (n := n) ⟨fun c member => sizeH c ((records.mem_iff c).1.mp member),
    fun c member => sizeF c ((records.mem_iff c).2.mp member)⟩
    ⟨fun c member => sizeH c ((records'.mem_iff c).1.mp member),
      fun c member => sizeF c ((records'.mem_iff c).2.mp member)⟩ (fun comb => ?_)
        (fun comb => ?_) comb
  · exact exists_congr fun c =>
      and_congr_left' ((records.mem_iff c).1.trans (records'.mem_iff c).1.symm)
  · exact exists_congr fun c =>
      and_congr_left' ((records.mem_iff c).2.trans (records'.mem_iff c).2.symm)

theorem FINOVLPFaultResolver.repeats (table : FaultTable n MFC_real) {Tfail : List Testcase}
    (failing : Failing n MFC_real Tfail)
    (locates : ∀ v, SafeFor n MFC_real v → Locates n MFC_real v locateOneMFC)
    (twins : ∀ v w, SafeFor n MFC_real v → SafeFor n MFC_real w →
      TwinLocates n MFC_real v w locateOneMFC) {fuel : Nat} (enough : n < fuel) :
    ∃ Early Late Found, Repeats n MFC_real Tfail
      (fun _ => conduct_with_safevalues locateOneMFC fuel) Early Late Found := by
  obtain ⟨healthy, faulty, found, sizeH, sizeF, runs⟩ :=
    exists_additions table locates twins enough Tfail fun t member => (failing t member).1
  refine ⟨fun r => ∃ k, RecordsOf healthy faulty k r, fun r =>
    ∃ k, RecordsOf healthy faulty (k + 1) r,
    (· ∈ found), ⟨?_, ?_, ?_, ?_, ?_⟩⟩
  · intro r noHealthy noFaulty
    exact ⟨0, by simpa using noHealthy, by simpa using noFaulty⟩
  · rintro r r' same ⟨k, records⟩
    exact ⟨k, same.1.trans records.1, same.2.trans records.2⟩
  · rintro r ⟨k, records⟩
    exact ⟨k + 1, records⟩
  · rintro r r' ⟨k, records⟩ ⟨k', records'⟩ c
    exact records.alike sizeH sizeF records' c
  · rintro r v order uses fits tests empty ⟨k, records⟩
    obtain ⟨after, run, frame, same, more, more'⟩ := runs r v uses fits empty
    refine ⟨after, (Runs.get r).bind ?_,
      ⟨frame.verdict.trans uses.1, frame.safeValues.trans uses.2⟩,
      frame.tests.trans tests, frame.conducted, fun c => by rw [same], k, ?_, ?_⟩
    · rw [tests]
      exact run
    · rw [more, records.1, List.replicate_succ', List.flatten_append]
      simp
    · rw [more', records.2, List.replicate_succ', List.flatten_append]
      simp

end Conduct

end NoPend
