import NoPend.FaultResolver.FINOVLPRepeats
import NoPend.FaultResolver.LifeCycleNoPend
import NoPend.FaultResolver.Resolvers

set_option autoImplicit false

/- The life cycle of the four resolvers that search with safe values. -/
namespace NoPend

open AbstractFaultResolver Proc

variable {n : Nat} {MFC_real : List Comb} {Tpass Tfail : List Testcase} {random : Nat → Bool}
  {r : AbstractFaultResolver}

/-- A failing test case contains a combination, and this fixes a parameter. -/
theorem Failing.positive (table : FaultTable n MFC_real) (failing : Failing n MFC_real Tfail)
    (some : Tfail ≠ []) : 0 < n := by
  obtain ⟨t, member⟩ := List.exists_mem_of_ne_nil Tfail some
  obtain ⟨binary, fails⟩ := failing t member
  rw [judge_accepts table.binary binary.size, Except.ok.injEq] at fails
  simp only [accepts, decide_eq_false_iff_not, not_forall, not_not] at fails
  obtain ⟨M, real, _⟩ := fails
  obtain ⟨i, known⟩ := table.fixes M real
  have inside := Finset.mem_range.mp (M.fixed_subset_range known)
  rw [(table.binary M real).size] at inside
  omega

/-- The resolvers that take their safe values from the client and note every verdict. -/
def Resolver.Recording (kind : Resolver) : Prop := kind ∈ [.noPend, .trt, .fic, .ficbs]

instance (kind : Resolver) : Decidable kind.Recording := inferInstanceAs (Decidable (_ ∈ _))

/-- After every normal return of `conduct` in the life of an object, the object shows what a
new one would show, if `conduct` was never called between a `conduct` that threw and the next
`reset`. -/
theorem Resolver.conduct_asNew (kind : Resolver) (recording : kind.Recording)
    (table : FaultTable n MFC_real) (failing : Failing n MFC_real Tfail)
    (created : kind.create (Checker.ofMFS MFC_real) Tpass Tfail random = .ok r)
    (combination : Combination) {fuel : Nat} (enough : 2 ^ n + 2 ≤ fuel) {calls : List LifeCall}
    {order : IterOrder Comb} (legal : Life.Legal n MFC_real (kind.conduct combination fuel) r calls)
    (careful : Life.Careful (kind.conduct combination fuel) r (calls ++ [.conduct order]))
    {after : AbstractFaultResolver}
    (returns : (kind.conduct combination fuel order).Runs
      (Life.performAll (kind.conduct combination fuel) r calls).resolver ⟨⟩ after) :
    Life.AsNew (kind.create (Checker.ofMFS MFC_real) Tpass Tfail random)
      (kind.conduct combination fuel) after := by
  have more : n < fuel := by
    have := Nat.lt_two_pow_self (n := n)
    omega
  cases kind with
  | sofot => exact absurd recording (by decide)
  | comFIL => exact absurd recording (by decide)
  | iterAIFL => exact absurd recording (by decide)
  | noPend =>
      have positive := failing.positive table (create_eq created).1
      exact Life.asNew_of_returns (NoPendFaultResolver.repeats positive table failing enough)
        created legal careful returns
  | trt =>
      obtain ⟨base, first, rest, some, small⟩ := TRTFaultResolver.create_base created
      have positive := failing.positive table (create_eq base).1
      have size : first.size = n := (failing first (by rw [some]; simp)).1.size
      have bound : n ≤ 30 := by
        rw [size] at small
        by_contra large
        have := Nat.pow_le_pow_right (n := 2) (by decide) (by omega : 31 ≤ n)
        rw [TRT.MAX_VALUE] at small
        omega
      obtain ⟨v, new, current, built, alike⟩ := Life.asNew_of_returns
        (TRTFaultResolver.repeats positive bound table failing (by omega : 2 ^ n + 1 ≤ fuel)) base
        legal careful returns
      rw [base, Except.ok.injEq] at built
      subst built
      exact ⟨v, r, current, created, alike⟩
  | fic =>
      obtain ⟨Early, Late, Found, repeats⟩ := FINOVLPFaultResolver.repeats table failing
        (fun v _ => FICFaultResovler.locates)
        (fun v w fits fits' => FICFaultResovler.twinLocates table fits fits') more
      exact Life.asNew_of_returns repeats created legal careful returns
  | ficbs =>
      obtain ⟨Early, Late, Found, repeats⟩ := FINOVLPFaultResolver.repeats table failing
        (fun v fits => FICBSFaultResolver.locates table fits)
        (fun v w fits fits' => FICBSFaultResolver.twinLocates table fits fits') more
      exact Life.asNew_of_returns repeats created legal careful returns

/-- A client that calls `conduct` too early, starts anew and then uses the object twice, the second
time with the verdicts that the first run has left. -/
theorem Resolver.conduct_asNew_twice : ∃ r after,
    Resolver.noPend.create (Checker.ofMFS [⟨.comb, [1, -1]⟩]) [] [⟨.testcase, [1, 1]⟩]
      (fun _ => false) = .ok r ∧
    (Life.performAll (Resolver.noPend.conduct .sublists 6) r [.conduct .insertion, .reset,
      .setSafeValues ⟨.comb, [0, 0]⟩, .conduct .insertion,
        .reset]).resolver.healthyCombs ≠ [] ∧
    (Resolver.noPend.conduct .sublists 6 .insertion).Runs
      (Life.performAll (Resolver.noPend.conduct .sublists 6) r [.conduct .insertion, .reset,
        .setSafeValues ⟨.comb, [0, 0]⟩, .conduct .insertion, .reset]).resolver ⟨⟩ after ∧
    Life.AsNew (Resolver.noPend.create (Checker.ofMFS [⟨.comb, [1, -1]⟩]) []
      [⟨.testcase, [1, 1]⟩] fun _ => false) (Resolver.noPend.conduct .sublists 6) after := by
  have created : Resolver.noPend.create (Checker.ofMFS [⟨.comb, [1, -1]⟩]) []
    [⟨.testcase, [1, 1]⟩] (fun _ => false) = .ok _ := rfl
  refine ⟨_, _, created, by decide +kernel, Runs.of_returns _ rfl, Resolver.conduct_asNew (n := 2)
    .noPend (by decide) (by decide) (by decide) created .sublists (by decide) ?_ ?_
    (Runs.of_returns _ rfl)⟩
  · intro done v rest split
    rcases done with _ | ⟨_, _ | ⟨_, _ | ⟨_, _ | ⟨_, _ | ⟨_, _⟩⟩⟩⟩⟩
    all_goals simp at split
    obtain ⟨rfl, rfl, rfl, _⟩ := split
    exact ⟨by decide, by decide⟩
  · intro done order rest split
    rcases done with _ | ⟨_, _ | ⟨_, _ | ⟨_, _ | ⟨_, _ | ⟨_, _ | ⟨_, _⟩⟩⟩⟩⟩⟩
    all_goals simp at split
    · decide
    · obtain ⟨rfl, rfl, rfl, _⟩ := split
      decide
    · obtain ⟨rfl, rfl, rfl, rfl, rfl, _⟩ := split
      decide

/-- After a `conduct` that threw, `conduct` does nothing any more: it returns normally without
a result, although the safe values have been set in between. -/
theorem Resolver.conduct_after_throw : ∃ r after,
    FaultTable 1 [⟨.comb, [1]⟩] ∧ Failing 1 [⟨.comb, [1]⟩] [⟨.testcase, [1]⟩] ∧
    Resolver.noPend.create (Checker.ofMFS [⟨.comb, [1]⟩]) [] [⟨.testcase, [1]⟩]
      (fun _ => false) =
      .ok r ∧
    Life.Legal 1 [⟨.comb, [1]⟩] (Resolver.noPend.conduct .sublists 4) r
      [.conduct .insertion, .setSafeValues ⟨.comb, [0]⟩] ∧
    (Resolver.noPend.conduct .sublists 4 .insertion).Runs
      (Life.performAll (Resolver.noPend.conduct .sublists 4) r
        [.conduct .insertion, .setSafeValues ⟨.comb, [0]⟩]).resolver ⟨⟩ after ∧
    after.MFC_identified.toList = [] ∧
    ¬ Life.AsNew (Resolver.noPend.create (Checker.ofMFS [⟨.comb, [1]⟩]) []
      [⟨.testcase, [1]⟩] fun _ => false) (Resolver.noPend.conduct .sublists 4) after := by
  have created : Resolver.noPend.create (Checker.ofMFS [⟨.comb, [1]⟩]) [] [⟨.testcase, [1]⟩]
    (fun _ => false) = .ok _ := rfl
  refine ⟨_, _, by decide, by decide, created, ?_, Runs.of_returns _ rfl, rfl, ?_⟩
  · intro done v rest split
    rcases done with _ | ⟨_, _ | ⟨_, _⟩⟩
    all_goals simp at split
    obtain ⟨rfl, rfl, _⟩ := split
    exact ⟨by decide, by decide⟩
  · rintro ⟨v, new, current, built, alike⟩
    obtain ⟨last, runs, same, _⟩ := alike .insertion
    rw [created, Except.ok.injEq] at built
    subst built
    obtain rfl : (⟨.comb, [0]⟩ : Comb) = v := Option.some.inj current
    -- the new object identifies the fault
    have finds : (⟨.comb, [1]⟩ : Comb) ∈ last.MFC_identified := by
      obtain ⟨_, rfl⟩ :=
        (Runs.of_returns (m := Resolver.noPend.conduct .sublists 4 .insertion) ⟨⟩
        rfl).unique runs
      decide
    exact absurd ((same _).mpr finds) (by decide)

end NoPend
