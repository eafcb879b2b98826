import NoPend.FaultResolver.Abstract
import NoPend.Util.SafeValues

set_option autoImplicit false

/- Both ways to pad a combination with safe values, and what the padded test case reveals. -/
namespace NoPend

open AbstractFaultResolver ComputeSafeValue CSVResolver

variable {n : Nat} {MFS : List Comb} {safe : Comb} {r : AbstractFaultResolver}

/-- A value that padding at random may put at a parameter. -/
def Padded (comb safe : Comb) (i : Nat) (v : Int) : Prop :=
  if comb.val i = Comb.UNKNOWN then
    if safe.val i = Comb.UNKNOWN then v = 0 ∨ v = 1 else v = safe.val i
  else v = comb.val i

theorem padAtRandom_runs {comb : Comb} {i : Nat} (inside : i < safe.size)
    (r : AbstractFaultResolver) (random : Nat → Bool) :
    ∃ value after, (padAtRandom comb safe i).Runs { r with random } value after ∧
      Padded comb safe i value ∧ ∃ random, after = { r with random } := by
  unfold padAtRandom Padded
  by_cases unknown : comb.val i = Comb.UNKNOWN
  · rw [if_pos unknown]
    simp only [if_pos unknown]
    by_cases noSafe : safe.val i = Comb.UNKNOWN
    · simp only [if_pos noSafe]
      refine ⟨if random 0 then 1 else 0, { r with random := fun k => random (k + 1) },
        (Proc.Runs.of_ok (Comb.get_eq_val inside) _).bind ?_, ?_, _, rfl⟩
      · rw [if_pos noSafe]
        refine Proc.Runs.bind (show nextBoolean.Runs { r with random } (random 0)
          { r with random := fun k => random (k + 1) } from rfl) ?_
        split <;> exact Proc.Runs.ret _ _
      · split
        · exact Or.inr rfl
        · exact Or.inl rfl
    · simp only [if_neg noSafe]
      refine ⟨safe.val i, _, (Proc.Runs.of_ok (Comb.get_eq_val inside) _).bind ?_, rfl,
        random, rfl⟩
      rw [if_neg noSafe]
      exact Proc.Runs.ret _ _
  · rw [if_neg unknown]
    simp only [if_neg unknown]
    exact ⟨comb.val i, _, Proc.Runs.ret _ _, rfl, random, rfl⟩

/-- Values that are padded one by one are a padded combination. -/
theorem padded_eq_padWith {comb : Comb} {values : List Int}
    (padded : List.Forall₂ (Padded comb safe) (List.range comb.size) values) :
    ∃ filler : Nat → Int, (∀ i, filler i = 0 ∨ filler i = 1) ∧
      values = (comb.padWith safe filler).elements := by
  have length : values.length = comb.size := by
    rw [← padded.length_eq, List.length_range]
  refine ⟨fun i => if values.getD i 0 = 1 then 1 else 0,
    fun i => by dsimp only; split <;> simp, ?_⟩
  apply List.ext_getElem
  · rw [length]
    exact (Comb.padWith_size comb safe _).symm
  · intro i left right
    have here : Padded comb safe i values[i] := by
      have pair := padded.get (i := i) (by rw [List.length_range]; omega) left
      simpa using pair
    have value : values.getD i 0 = values[i] := by
      simp [List.getD_eq_getElem?_getD, List.getElem?_eq_getElem left]
    simp only [Comb.padWith, List.getElem_map, List.getElem_range]
    rw [value]
    unfold Padded at here
    split at here
    · split at here
      · rcases here with zero | one
        · simp [*]
        · simp [*]
      · simp [*]
    · simp [*]

/-- Padding at random fills with zeros and ones, and only uses up draws. -/
theorem paddingAtRandom_runs {comb : Comb} (valid : comb.Valid n) (validSafe : safe.Valid n)
    (r : AbstractFaultResolver) :
    ∃ filler random, (∀ i, filler i = 0 ∨ filler i = 1) ∧
      (paddingAtRandom comb safe).Runs r (comb.padWith safe filler) { r with random } := by
  obtain ⟨values, after, runs, padded, random, rfl⟩ := Proc.mapM_runs (padAtRandom comb safe)
    (fun state => ∃ random, state = { r with random }) (Padded comb safe) (List.range comb.size)
    (by
      rintro i member _ ⟨random, rfl⟩
      exact padAtRandom_runs (by
        rw [validSafe.size, ← valid.size]
        exact List.mem_range.mp member) r random) r ⟨r.random, rfl⟩
  obtain ⟨filler, binary, rfl⟩ := padded_eq_padWith padded
  exact ⟨filler, random, binary,
    runs.bind (Proc.Runs.of_ok (Testcase.ofList_padWith valid validSafe fun i _ => binary i) _)⟩

/-- Whatever the values in place of unknown safe values, the padded test case contains a
combination exactly when the padded combination does. -/
theorem accepts_padWith (binary : ∀ M ∈ MFS, M.Over n) (safeFor : SafeFor n MFS safe)
    {comb : Comb} (size : comb.size = n) (filler : Nat → Int) :
    accepts MFS (comb.padWith safe filler) = accepts MFS comb := by
  unfold accepts
  rw [decide_eq_decide]
  exact forall₂_congr fun M member => not_congr
    (padWith_contains_iff (binary M member) size (safeFor.other M member))

/-- The verdict of `check_with_safevalues(comb, tfail)` does not depend on `tfail`. -/
theorem check_with_safevalues_verdict (binary : ∀ M ∈ MFS, M.Over n)
    (safeFor : SafeFor n MFS safe)
    (ready : r.Ready n (accepts MFS) safe) {comb : Comb} (valid : comb.Valid n) {tfail : Testcase}
    (wf : tfail.Binary n) :
    ∃ after, (check_with_safevalues comb tfail).Runs r (accepts MFS comb) after := by
  have runs := check_with_safevalues_runs ready wf valid
  rw [accepts_padWith binary safeFor valid.size] at runs
  exact ⟨_, runs⟩

/-- What `check_with_safevalues(comb)` returns and records, for every sequence of draws. -/
theorem check_at_random_runs (binary : ∀ M ∈ MFS, M.Over n) (safeFor : SafeFor n MFS safe)
    (ready : r.Ready n (accepts MFS) safe) {comb : Comb} (valid : comb.Valid n) :
    ∃ t random, (check_with_safevalues_at_random comb).Runs r (accepts MFS comb)
      (({ r with random, checker := r.checker.record t }).note comb (accepts MFS comb)) := by
  obtain ⟨filler, random, _, padded⟩ := paddingAtRandom_runs valid ready.valid r
  have size : (comb.padWith safe filler).size = n := by rw [Comb.padWith_size, valid.size]
  have ready' : ({ r with random } : AbstractFaultResolver).Ready n (accepts MFS) safe :=
    ⟨ready.safeValues, ready.valid, ready.answers⟩
  have checked := check_runs ready' size
  rw [accepts_padWith binary safeFor valid.size] at checked
  refine ⟨comb.padWith safe filler, random, (Proc.Runs.get r).bind ?_⟩
  split
  · rename_i missing
    simp [ready.safeValues] at missing
  · rename_i found present
    obtain rfl : safe = found := Option.some.inj (ready.safeValues.symm.trans present)
    exact padded.bind (checked.bind ((Proc.Runs.modify _ _).bind (Proc.Runs.ret _ _)))

/-- Neither the draws nor what was checked before matter for the verdict. -/
theorem check_at_random_settles (binary : ∀ M ∈ MFS, M.Over n) (safeFor : SafeFor n MFS safe)
    (ready : r.Ready n (accepts MFS) safe) {comb : Comb} (valid : comb.Valid n) :
    Proc.Settles (SameConfig r) (check_with_safevalues_at_random comb) (accepts MFS comb) := by
  intro before same
  obtain ⟨t, random, runs⟩ :=
    check_at_random_runs binary safeFor (ready.of_sameConfig same) valid
  refine ⟨_, runs, same.trans ?_⟩
  unfold note
  split <;> exact ⟨rfl, rfl, rfl, rfl, rfl, rfl⟩

theorem accepts_mono {c d : Comb} (larger : d.Contains c) (fails : accepts MFS c = false) :
    accepts MFS d = false := by
  simp only [accepts, decide_eq_false_iff_not, not_forall, not_not] at fails ⊢
  obtain ⟨M, member, inside⟩ := fails
  exact ⟨M, member, larger.trans inside⟩

theorem accepts_eq_false (binary : ∀ M ∈ MFS, M.Over n) {comb : Comb} (size : comb.size = n) :
    accepts MFS comb = false ↔ ∃ M ∈ MFS, Comb.contains comb M = .ok true := by
  simp only [accepts, decide_eq_false_iff_not, not_forall, not_not, exists_prop]
  refine exists_congr fun M => and_congr_right fun member => ?_
  rw [Comb.contains_eq (size.trans (binary M member).size.symm)]
  simp

/-- The safe values computed from a table exist unless a column holds both values. A padded
combination is then rejected exactly when it contains a row, and verdicts are monotone. -/
theorem padding_reveals_faults (positive : 0 < n) {table : List (List Cell)}
    (wf : MFSTable n table) :
    (compute_safe_values table = none ↔ ∃ col < n, Conflict table col) ∧
      ∀ safes, compute_safe_values table = some safes →
        ∃ MFS safe, readCombinations table = .ok MFS ∧ readSafeValue [safes] = .ok safe ∧
          (∀ c : Comb, c.Over n →
            (∀ tfail : Testcase, tfail.Binary n → ∃ t,
              Testcase.paddingWithSafeValues c safe tfail = .ok t ∧
              (Checker.judge MFS t = .ok false ↔ ∃ M ∈ MFS, Comb.contains c M = .ok true)) ∧
            ∀ r, ∃ t after, (paddingAtRandom c safe).Runs r t after ∧
              (Checker.judge MFS t = .ok false ↔ ∃ M ∈ MFS, Comb.contains c M = .ok true)) ∧
          ∀ c d : Comb, c.Over n → d.Over n → Comb.contains d c = .ok true →
            ∀ r r', Uses MFS safe r → Uses MFS safe r' →
              (∀ tfail tfail' : Testcase, tfail.Binary n → tfail'.Binary n → ∀ after,
                (check_with_safevalues c tfail).Runs r false after →
                ∃ after', (check_with_safevalues d tfail').Runs r' false after') ∧
              ∀ after, (check_with_safevalues_at_random c).Runs r false after →
                ∃ after', (check_with_safevalues_at_random d).Runs r' false after' := by
  refine ⟨compute_safe_values_none positive wf, fun safes computed => ?_⟩
  obtain ⟨MFS, safe, read, readSafe, binary, safeFor⟩ :=
    compute_safe_values_safe positive wf computed
  have rejects : ∀ {c : Comb}, c.Over n → ∀ filler : Nat → Int,
      (Checker.judge MFS (c.padWith safe filler) = .ok false ↔
        ∃ M ∈ MFS, Comb.contains c M = .ok true) := by
    intro c over' filler
    rw [judge_accepts binary (by rw [Comb.padWith_size, over'.size]),
      accepts_padWith binary safeFor over'.size, Except.ok.injEq,
        accepts_eq_false binary over'.size]
  refine ⟨MFS, safe, read, readSafe, fun c over' =>
    ⟨fun tfail tbinary => ?_, fun r => ?_⟩, ?_⟩
  · exact ⟨_, Testcase.paddingWithSafeValues_eq over'.valid safeFor.valid tbinary,
      rejects over' _⟩
  · obtain ⟨filler, random, _, runs⟩ := paddingAtRandom_runs over'.valid safeFor.valid r
    exact ⟨_, _, runs, rejects over' filler⟩
  · intro c d overC overD larger r r' uses uses'
    rw [Comb.contains_eq (overD.size.trans overC.size.symm), Except.ok.injEq, decide_eq_true_eq]
      at larger
    refine ⟨fun tfail tfail' wf wf' after runs => ?_, fun after runs => ?_⟩
    · obtain ⟨_, runsC⟩ := check_with_safevalues_verdict binary safeFor
        (uses.ready binary safeFor) overC.valid wf
      obtain ⟨after', runsD⟩ := check_with_safevalues_verdict binary safeFor
        (uses'.ready binary safeFor) overD.valid wf'
      rw [accepts_mono larger (runs.unique runsC).1.symm] at runsD
      exact ⟨after', runsD⟩
    · obtain ⟨_, _, runsC⟩ :=
        check_at_random_runs binary safeFor (uses.ready binary safeFor) overC.valid
      obtain ⟨_, _, runsD⟩ :=
        check_at_random_runs binary safeFor (uses'.ready binary safeFor) overD.valid
      rw [accepts_mono larger (runs.unique runsC).1.symm] at runsD
      exact ⟨_, runsD⟩

/-- A table of two rows over three parameters: of two combinations, the padded one that contains a
row is rejected, the other one is not. -/
theorem padding_reveals_faults_two_rows : ∃ safes,
    compute_safe_values [[['1'], ['-'], ['0']], [['1'], ['1'], ['-']]] = some safes ∧
    ∃ MFS safe, readCombinations [[['1'], ['-'], ['0']], [['1'], ['1'], ['-']]] = .ok MFS ∧
      readSafeValue [safes] = .ok safe ∧
      (∃ t, Testcase.paddingWithSafeValues ⟨.comb, [1, -1, 0]⟩ safe
        ⟨.testcase, [1, 1, 0]⟩ = .ok t ∧
        Checker.judge MFS t = .ok false) ∧
      ∃ t, Testcase.paddingWithSafeValues ⟨.comb, [-1, 1, 0]⟩ safe
        ⟨.testcase, [1, 1, 0]⟩ = .ok t ∧
        Checker.judge MFS t ≠ .ok false := by
  have computed : compute_safe_values [[['1'], ['-'], ['0']], [['1'], ['1'], ['-']]] =
      some [['0'], ['0'], ['1']] := by decide
  have wf : MFSTable 3 [[['1'], ['-'], ['0']], [['1'], ['1'], ['-']]] := by decide
  obtain ⟨_, found⟩ := padding_reveals_faults (by decide) wf
  obtain ⟨MFS, safe, read, readSafe, padding, _⟩ := found _ computed
  obtain ⟨t, padded, rejected⟩ :=
    (padding ⟨.comb, [1, -1, 0]⟩ (by decide)).1 ⟨.testcase, [1, 1, 0]⟩ (by decide)
  obtain ⟨t', padded', rejected'⟩ :=
    (padding ⟨.comb, [-1, 1, 0]⟩ (by decide)).1 ⟨.testcase, [1, 1, 0]⟩ (by decide)
  have rows : readCombinations [[['1'], ['-'], ['0']], [['1'], ['1'], ['-']]] =
      .ok [⟨.comb, [1, -1, 0]⟩, ⟨.comb, [1, 1, -1]⟩] := by decide
  obtain rfl := Except.ok.inj (rows.symm.trans read)
  refine ⟨_, computed, _, safe, rows, readSafe, ⟨t, padded, ?_⟩, t', padded', ?_⟩
  · exact rejected.mpr ⟨⟨.comb, [1, -1, 0]⟩, by simp, by decide⟩
  · rw [Ne, rejected']
    decide

end NoPend
