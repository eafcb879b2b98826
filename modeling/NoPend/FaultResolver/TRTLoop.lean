import NoPend.FaultResolver.TRTQueries

set_option autoImplicit false

/- The loop that marks all schemas of a failing test case, for an arbitrary system under
test. -/
namespace NoPend

open Antichain SetFamily AbstractFaultResolver TRT

namespace TRTFaultResolver

/-- The schemas with neither mark. -/
def unmarked (n : Nat) (trt : TRT) : Finset (Finset Nat) :=
  (Finset.range n).powerset.filter fun S => S ∉ marks n trt.healthy ∧ S ∉ marks n trt.faulty

variable {n : Nat} {verdict : Testcase → Bool} {safe : Comb} {tfail : Testcase}
  {r : AbstractFaultResolver} {trt : TRT}

theorem mem_unmarked {S : Finset Nat} : S ∈ unmarked n trt ↔ Unmarked n trt S := by
  simp [unmarked, Unmarked]

/-- Between two unmarked schemas nothing is marked. -/
theorem unmarked_between (wf : trt.Wf n) {low high S : Finset Nat} (lowest : Unmarked n trt low)
    (highest : Unmarked n trt high) (above : low ⊆ S) (below : S ⊆ high) : Unmarked n trt S :=
  ⟨below.trans highest.1, fun healthy => lowest.2.1 (wf.healthyDown S healthy low above),
    fun faulty => highest.2.2 (wf.faultyUp S faulty high highest.1 below)⟩

/-- What a round that goes on does to the table. -/
structure Marks (n : Nat) (verdict : Testcase → Bool) (safe : Comb) (tfail : Testcase)
    (before after : TRT) : Prop where
  wf : after.Wf n
  reached : Reachable n before → Reachable n after
  healthyGrows : marks n before.healthy ⊆ marks n after.healthy
  faultyGrows : marks n before.faulty ⊆ marks n after.faulty
  fresh : ∃ S, Unmarked n before S ∧ ¬ Unmarked n after S
  healthyFrom : ∀ S ∈ marks n after.healthy, S ∈ marks n before.healthy ∨
    ∃ M ⊆ Finset.range n, S ⊆ M ∧ passes verdict safe tfail M = true
  faultyFrom : ∀ S ∈ marks n after.faulty, S ∈ marks n before.faulty ∨
    ∃ M ⊆ S, passes verdict safe tfail M = false

/-- The checks behind the marks that `after` has and `before` has not. -/
structure Probed (n : Nat) (verdict : Testcase → Bool) (safe : Comb) (tfail : Testcase)
    (before after : TRT) (parts : List (Finset Nat)) : Prop where
  unmarked : ∀ S ∈ parts, Unmarked n before S
  healthyFrom : ∀ S ∈ marks n after.healthy, S ∈ marks n before.healthy ∨
    ∃ M ∈ parts, S ⊆ M ∧ passes verdict safe tfail M = true
  faultyFrom : ∀ S ∈ marks n after.faulty, S ∈ marks n before.faulty ∨
    ∃ M ∈ parts, M ⊆ S ∧ passes verdict safe tfail M = false

theorem Marks.unmarked_ssubset {after : TRT} (step : Marks n verdict safe tfail trt after) :
    unmarked n after ⊂ unmarked n trt := by
  obtain ⟨S, before, now⟩ := step.fresh
  refine (Finset.ssubset_iff_of_subset ?_).mpr ⟨S, mem_unmarked.mpr before,
    fun member => now (mem_unmarked.mp member)⟩
  intro T member
  obtain ⟨within, notHealthy, notFaulty⟩ := mem_unmarked.mp member
  exact mem_unmarked.mpr ⟨within, fun old => notHealthy (step.healthyGrows old),
    fun old => notFaulty (step.faultyGrows old)⟩

/-- While a schema is unmarked there is a chain, and both its ends are unmarked. -/
theorem chain_of_unmarked {tops bottoms : MonotoneSchemaSet} {highest lowest : List (Finset Nat)}
    (holdsTops : tops.Holds n false highest) (holdsBottoms : bottoms.Holds n true lowest)
    (greatest : ∀ S, S ∈ highest ↔ Least (· ⊇ ·) (Unmarked n trt) S)
    (least : ∀ S, S ∈ lowest ↔ Least (· ⊆ ·) (Unmarked n trt) S)
    {S : Finset Nat} (here : Unmarked n trt S) :
    tops.isEmpty = false ∧ bottoms.isEmpty = false ∧
      ∃ max min, getLongestChain tops bottoms = .ok (some (max, min)) ∧
        max.Wf n ∧ min.Wf n ∧
        min.bits ⊆ max.bits ∧ Unmarked n trt max.bits ∧ Unmarked n trt min.bits := by
  obtain ⟨M, _, isTop⟩ := exists_greatest_above (fun T member => member.1) here
  obtain ⟨B, below, isBottom⟩ := exists_least_below isTop.1
  obtain ⟨top, inTops, topBits⟩ : ∃ top ∈ tops.schemas, top.bits = M := by
    have member := (greatest M).mpr isTop
    rw [← holdsTops.bits] at member
    exact List.mem_map.mp member
  obtain ⟨bottom, inBottoms, bottomBits⟩ : ∃ bottom ∈ bottoms.schemas, bottom.bits = B := by
    have member := (least B).mpr isBottom
    rw [← holdsBottoms.bits] at member
    exact List.mem_map.mp member
  have someTop : tops.schemas ≠ [] := List.ne_nil_of_mem inTops
  have someBottom : bottoms.schemas ≠ [] := List.ne_nil_of_mem inBottoms
  obtain ⟨chain, run, spec⟩ :=
    getLongestChain_eq holdsTops.wf holdsBottoms.wf someTop someBottom
  refine ⟨by simp [MonotoneSchemaSet.isEmpty, someTop], by simp [MonotoneSchemaSet.isEmpty,
    someBottom], ?_⟩
  cases chain with
  | none =>
      exact absurd (by rw [topBits, bottomBits]; exact below) (spec top inTops bottom inBottoms)
  | some pair =>
      obtain ⟨max, min⟩ := pair
      obtain ⟨isMax, isMin, sub, _⟩ := spec
      exact ⟨max, min, run, holdsTops.wf max isMax, holdsBottoms.wf min isMin, sub,
        ((greatest _).mp (holdsTops.mem_sets isMax)).1,
        ((least _).mp (holdsBottoms.mem_sets isMin)).1⟩

theorem binarySearch_runs (ready : r.Ready n verdict safe) (binary : tfail.Binary n)
    {max min : Schema} (wfMax : max.Wf n) (wfMin : min.Wf n) (sub : min.bits ⊆ max.bits) :
    ∃ found parts,
      (binarySearch max min tfail).Runs r found (probes verdict safe tfail r parts) ∧
      Searched n verdict safe tfail max min found parts := by
  rw [binarySearch, show max.getLogicSize = n from wfMax.logic]
  exact searchChain_found ready binary wfMax wfMin sub (List.range n) List.nodup_range
    fun i inside => List.mem_range.mpr inside

/-- The marks of a round are those of the schemas it checked. -/
theorem Marks.of_probed {after : TRT} {parts : List (Finset Nat)}
    (probed : Probed n verdict safe tfail trt after parts) (wf : after.Wf n)
    (reached : Reachable n trt → Reachable n after)
    (healthyGrows : marks n trt.healthy ⊆ marks n after.healthy)
    (faultyGrows : marks n trt.faulty ⊆ marks n after.faulty) {S : Finset Nat}
    (before : Unmarked n trt S) (now : ¬ Unmarked n after S) :
    Marks n verdict safe tfail trt after where
  wf := wf
  reached := reached
  healthyGrows := healthyGrows
  faultyGrows := faultyGrows
  fresh := ⟨S, before, now⟩
  healthyFrom := fun T member => (probed.healthyFrom T member).imp id fun ⟨M, checked, rest⟩ =>
    ⟨M, (probed.unmarked M checked).1, rest⟩
  faultyFrom := fun T member => (probed.faultyFrom T member).imp id fun ⟨M, _, below, fails⟩ =>
    ⟨M, below, fails⟩

/-- The check of `M` passed, and its parts are marked. -/
theorem Probed.healthy {after : TRT} {parts : List (Finset Nat)} {M : Finset Nat}
    (asked : ∀ S ∈ parts, Unmarked n trt S) (checked : M ∈ parts)
    (passed : passes verdict safe tfail M = true)
    (healthy : marks n after.healthy = marks n trt.healthy ∪ M.powerset)
    (faulty : after.faulty = trt.faulty) : Probed n verdict safe tfail trt after parts := by
  refine ⟨asked, fun T member => ?_, fun T member => ?_⟩
  · rw [healthy, Finset.mem_union, Finset.mem_powerset] at member
    exact member.imp id fun below => ⟨M, checked, below, passed⟩
  · rw [faulty] at member
    exact Or.inl member

/-- The check of `M` failed, and the schemas above it are marked. -/
theorem Probed.faulty {after : TRT} {parts : List (Finset Nat)} {M : Finset Nat}
    (asked : ∀ S ∈ parts, Unmarked n trt S) (checked : M ∈ parts)
    (fails : passes verdict safe tfail M = false) (healthy : after.healthy = trt.healthy)
    (faulty : marks n after.faulty = marks n trt.faulty ∪ (Finset.range
      n).powerset.filter (M ⊆ ·)) :
    Probed n verdict safe tfail trt after parts := by
  refine ⟨asked, fun T member => ?_, fun T member => ?_⟩
  · rw [healthy] at member
    exact Or.inl member
  · rw [faulty, Finset.mem_union, Finset.mem_filter] at member
    exact member.imp id fun above => ⟨M, checked, above.2, fails⟩

/-- The calls of a round that finds a chain. -/
theorem markRound_searches {tops bottoms : MonotoneSchemaSet} {top bottom after : TRT}
    {max min : Schema} {found : Option Schema} {state : AbstractFaultResolver}
    (askedTop : trt.getTopSchemas = .ok (top, tops)) (someTop : tops.isEmpty = false)
    (askedBottom : top.getBottomSchemas = .ok (bottom, bottoms))
    (someBottom : bottoms.isEmpty = false)
    (chain : getLongestChain tops bottoms = .ok (some (max, min)))
    (search : (binarySearch max min tfail).Runs r found state)
    (marked : (match found with
      | none => bottom.setHealthy max
      | some minfault => bottom.setFaulty minfault) = .ok after) :
    (markRound tfail trt).Runs r (.inl after) state := by
  refine (Proc.Runs.of_ok askedTop r).bind ?_
  simp only [someTop]
  refine (Proc.Runs.of_ok askedBottom r).bind ?_
  simp only [someBottom]
  refine (Proc.Runs.of_ok chain r).bind (search.bind ?_)
  cases found with
  | none => exact (Proc.Runs.of_ok marked _).bind (Proc.Runs.ret _ _)
  | some minfault => exact (Proc.Runs.of_ok marked _).bind (Proc.Runs.ret _ _)

/-- A round ends the loop when everything is marked, and otherwise marks a new schema. -/
theorem markRound_runs (wf : trt.Wf n) (ready : r.Ready n verdict safe) (binary : tfail.Binary n) :
    (∃ b, (markRound tfail trt).Runs r (.inr { trt with flag := b }) r ∧
        ({ trt with flag := b } : TRT).Wf n ∧ Finset.range n ∈ marks n b ∧
        ∀ S, ¬ Unmarked n trt S) ∨
      ∃ after parts,
        (markRound tfail trt).Runs r (.inl after) (probes verdict safe tfail r parts) ∧
        Marks n verdict safe tfail trt after ∧ Probed n verdict safe tfail trt after parts := by
  obtain ⟨b, tops, highest, askedTop, wfTop, visited, holdsTops, greatest⟩ :=
    getTopSchemas_eq wf
  by_cases pending : ∃ S, Unmarked n trt S
  · right
    obtain ⟨S, here⟩ := pending
    obtain ⟨b', bottoms, lowest, askedBottom, wfBottom, holdsBottoms, least⟩ :=
      getBottomSchemas_eq wfTop
    obtain ⟨someTop, someBottom, max, min, chain, wfMax, wfMin, sub, unmarkedMax,
        unmarkedMin⟩ :=
      chain_of_unmarked holdsTops holdsBottoms greatest least here
    obtain ⟨found, parts, search, between, seen, spec⟩ :=
      binarySearch_runs ready binary wfMax wfMin sub
    have asked : ∀ S ∈ parts, Unmarked n trt S := by
      intro S member
      obtain ⟨low, high⟩ := between S member
      exact unmarked_between wf unmarkedMin unmarkedMax low high
    have reached : Reachable n trt → Reachable n { trt with flag := b' } := fun start =>
      (start.top askedTop).bottom askedBottom
    cases found with
    | none =>
        obtain ⟨after, marked, wfAfter, healthy, faulty⟩ := setHealthy_eq wfBottom wfMax
        have probed : Probed n verdict safe tfail trt after parts :=
          .healthy asked seen spec healthy faulty
        refine ⟨after, parts,
          markRound_searches askedTop someTop askedBottom someBottom chain search marked,
          .of_probed probed wfAfter (fun start => (reached start).healthy wfMax marked) ?_ ?_
            unmarkedMax ?_, probed⟩
        · rw [healthy]
          exact Finset.subset_union_left
        · rw [faulty]
        · rintro ⟨_, notHealthy, _⟩
          apply notHealthy
          rw [healthy]
          exact Finset.mem_union_right _ (Finset.mem_powerset_self _)
    | some minfault =>
        obtain ⟨wfFault, low, high, checked, fails⟩ := spec
        obtain ⟨after, marked, wfAfter, healthy, faulty⟩ := setFaulty_eq wfBottom wfFault
        have probed : Probed n verdict safe tfail trt after parts :=
          .faulty asked checked fails healthy faulty
        refine ⟨after, parts,
          markRound_searches askedTop someTop askedBottom someBottom chain search marked,
          .of_probed probed wfAfter (fun start => (reached start).faulty wfFault marked) ?_ ?_
            (asked _ checked) ?_, probed⟩
        · rw [healthy]
        · rw [faulty]
          exact Finset.subset_union_left
        · rintro ⟨within, _, notFaulty⟩
          apply notFaulty
          rw [faulty]
          exact Finset.mem_union_right _ (Finset.mem_filter.mpr
            ⟨Finset.mem_powerset.mpr within, Finset.Subset.refl _⟩)
  · left
    have none : tops.isEmpty = true := by
      rw [MonotoneSchemaSet.isEmpty, List.isEmpty_iff]
      by_contra some
      obtain ⟨top, member⟩ := List.exists_mem_of_ne_nil _ some
      exact pending ⟨top.bits, ((greatest _).mp (holdsTops.mem_sets member)).1⟩
    refine ⟨b, ?_, wfTop, visited, not_exists.mp pending⟩
    refine (Proc.Runs.of_ok askedTop r).bind ?_
    simp only [none]
    exact Proc.Runs.ret _ _

/-- Where the marks of a table come from, when the loop started with `start`. -/
structure MarkedFrom (n : Nat) (verdict : Testcase → Bool) (safe : Comb) (tfail : Testcase)
    (start trt : TRT) : Prop where
  wf : trt.Wf n
  healthyGrows : marks n start.healthy ⊆ marks n trt.healthy
  faultyGrows : marks n start.faulty ⊆ marks n trt.faulty
  healthyFrom : ∀ S ∈ marks n trt.healthy, S ∈ marks n start.healthy ∨
    ∃ M ⊆ Finset.range n, S ⊆ M ∧ passes verdict safe tfail M = true
  faultyFrom : ∀ S ∈ marks n trt.faulty, S ∈ marks n start.faulty ∨
    ∃ M ⊆ S, passes verdict safe tfail M = false

theorem MarkedFrom.step {start after : TRT} (marked : MarkedFrom n verdict safe tfail start trt)
    (step : Marks n verdict safe tfail trt after) :
    MarkedFrom n verdict safe tfail start after where
  wf := step.wf
  healthyGrows := marked.healthyGrows.trans step.healthyGrows
  faultyGrows := marked.faultyGrows.trans step.faultyGrows
  healthyFrom := fun S member => (step.healthyFrom S member).elim (marked.healthyFrom S) Or.inr
  faultyFrom := fun S member => (step.faultyFrom S member).elim (marked.faultyFrom S) Or.inr

theorem Probed.refl (start : TRT) : Probed n verdict safe tfail start start [] :=
  ⟨by simp, fun _ member => Or.inl member, fun _ member => Or.inl member⟩

theorem Probed.trans {start after : TRT} {parts more : List (Finset Nat)}
    (marked : MarkedFrom n verdict safe tfail start trt)
    (first : Probed n verdict safe tfail start trt parts)
    (second : Probed n verdict safe tfail trt after more) :
    Probed n verdict safe tfail start after (parts ++ more) where
  unmarked := by
    intro S member
    rcases List.mem_append.mp member with early | late
    · exact first.unmarked S early
    · obtain ⟨within, notHealthy, notFaulty⟩ := second.unmarked S late
      exact ⟨within, fun old => notHealthy (marked.healthyGrows old),
        fun old => notFaulty (marked.faultyGrows old)⟩
  healthyFrom := by
    intro S member
    rcases second.healthyFrom S member with old | ⟨M, checked, rest⟩
    · exact (first.healthyFrom S old).imp id fun ⟨M, checked, rest⟩ =>
        ⟨M, List.mem_append_left _ checked, rest⟩
    · exact Or.inr ⟨M, List.mem_append_right _ checked, rest⟩
  faultyFrom := by
    intro S member
    rcases second.faultyFrom S member with old | ⟨M, checked, rest⟩
    · exact (first.faultyFrom S old).imp id fun ⟨M, checked, rest⟩ =>
        ⟨M, List.mem_append_left _ checked, rest⟩
    · exact Or.inr ⟨M, List.mem_append_right _ checked, rest⟩

theorem unmarked_card_le (n : Nat) (trt : TRT) : (unmarked n trt).card ≤ 2 ^ n := by
  refine (Finset.card_filter_le _ _).trans_eq ?_
  rw [Finset.card_powerset, Finset.card_range]

/-- The loop ends with every schema marked. -/
theorem markAll_runs (ready : r.Ready n verdict safe) (binary : tfail.Binary n) {start : TRT}
    (wf : start.Wf n) {fuel : Nat} (enough : 2 ^ n + 1 ≤ fuel) :
    ∃ trt parts, (markAll fuel tfail start).Runs r trt (probes verdict safe tfail r parts) ∧
      MarkedFrom n verdict safe tfail start trt ∧ (∀ S, ¬ Unmarked n trt S) ∧
      Finset.range n ∈ marks n trt.flag ∧ Probed n verdict safe tfail start trt parts := by
  obtain ⟨trt, state, runs, parts, rfl, marked, all, visited, probed⟩ :=
    Proc.iterate_runs Exn.outOfFuel (markRound tfail)
      (fun current state => ∃ parts, state = probes verdict safe tfail r parts ∧
        MarkedFrom n verdict safe tfail start current ∧
        Probed n verdict safe tfail start current parts)
      (fun trt state => ∃ parts, state = probes verdict safe tfail r parts ∧
        MarkedFrom n verdict safe tfail start trt ∧ (∀ S, ¬ Unmarked n trt S) ∧
        Finset.range n ∈ marks n trt.flag ∧ Probed n verdict safe tfail start trt parts)
      (fun current _ => (unmarked n current).card)
      (by
        rintro current _ ⟨parts, rfl, marked, probed⟩
        rcases markRound_runs marked.wf (ready.probes tfail parts) binary with
          ⟨b, ended, wfEnd, visited, all⟩ | ⟨after, more, runs, step, checks⟩
        · exact Or.inl
            ⟨_, _, ended, parts, rfl, ⟨wfEnd, marked.healthyGrows, marked.faultyGrows,
            marked.healthyFrom, marked.faultyFrom⟩, all, visited,
            ⟨probed.unmarked, probed.healthyFrom, probed.faultyFrom⟩⟩
        · refine Or.inr ⟨after, _, runs, ⟨parts ++ more, ?_, marked.step step,
            Probed.trans marked probed checks⟩, Finset.card_lt_card step.unmarked_ssubset⟩
          rw [probes_append])
      fuel start r ⟨[], rfl, ⟨wf, Finset.Subset.refl _, Finset.Subset.refl _,
        fun S member => Or.inl member, fun S member => Or.inl member⟩, Probed.refl start⟩
      (lt_of_le_of_lt (unmarked_card_le n start) enough)
  exact ⟨trt, parts, runs, marked, all, visited, probed⟩

/-- With verdicts that are monotone the marks of a fully marked table are the verdicts. -/
theorem MarkedFrom.marks_iff {start : TRT} (marked : MarkedFrom n verdict safe tfail start trt)
    (healthyStart : marks n start.healthy = {∅})
    (faultyStart : marks n start.faulty = {Finset.range n}) (all : ∀ S, ¬ Unmarked n trt S)
    (monotone : ∀ S T, S ⊆ T → T ⊆ Finset.range n →
      passes verdict safe tfail S = false →
      passes verdict safe tfail T = false)
    (whole : passes verdict safe tfail (Finset.range n) = false)
    (empty : passes verdict safe tfail ∅ = true) {S : Finset Nat}
    (within : S ⊆ Finset.range n) :
    (S ∈ marks n trt.faulty ↔ passes verdict safe tfail S = false) ∧
      (S ∈ marks n trt.healthy ↔ passes verdict safe tfail S = true) := by
  have faulty : S ∈ marks n trt.faulty → passes verdict safe tfail S = false := by
    intro member
    rcases marked.faultyFrom S member with start | ⟨M, below, fails⟩
    · rw [faultyStart, Finset.mem_singleton] at start
      rw [start]
      exact whole
    · exact monotone M S below within fails
  have healthy : S ∈ marks n trt.healthy → passes verdict safe tfail S = true := by
    intro member
    rcases marked.healthyFrom S member with start | ⟨M, inside, above, passed⟩
    · rw [healthyStart, Finset.mem_singleton] at start
      rw [start]
      exact empty
    · by_contra fails
      rw [monotone S M above inside (by simpa using fails)] at passed
      cases passed
  constructor
  · refine ⟨faulty, fun fails => ?_⟩
    by_contra notFaulty
    refine all S ⟨within, fun member => ?_, notFaulty⟩
    rw [healthy member] at fails
    cases fails
  · refine ⟨healthy, fun passed => ?_⟩
    by_contra notHealthy
    refine all S ⟨within, notHealthy, fun member => ?_⟩
    rw [faulty member] at passed
    cases passed

/-- In every reachable state of the table the queries are exact, no round throws, and a
round that goes on marks a schema that had no mark. The loop ends with every schema marked,
for a monotone system by its verdict. -/
theorem markAll_classifies (positive : 0 < n) (small : n ≤ 30) (ready : r.Ready n verdict safe)
    (binary : tfail.Binary n) :
    (∀ trt, Reachable n trt →
      (∃ after found tops, trt.getTopSchemas = .ok (after, found) ∧ found.Holds n false tops ∧
        ∀ S, S ∈ tops ↔ Least (· ⊇ ·) (Unmarked n trt) S) ∧
      (∃ after found bottoms, trt.getBottomSchemas = .ok (after, found) ∧
        found.Holds n true bottoms ∧
        ∀ S, S ∈ bottoms ↔ Least (· ⊆ ·) (Unmarked n trt) S) ∧
      ((∃ after, (markRound tfail trt).Runs r (.inr after) r ∧ ∀ S, ¬ Unmarked n trt S) ∨
        ∃ after r', (markRound tfail trt).Runs r (.inl after) r' ∧ r'.Ready n verdict safe ∧
          Reachable n after ∧ unmarked n after ⊂ unmarked n trt)) ∧
    ∃ start, TRT.new n = .ok start ∧ ∀ fuel, 2 ^ n + 1 ≤ fuel →
      ∃ trt after, (markAll fuel tfail start).Runs r trt after ∧
        (∀ S ⊆ Finset.range n, S ∈ marks n trt.healthy ∨ S ∈ marks n trt.faulty) ∧
        ((∀ S T, S ⊆ T → T ⊆ Finset.range n → passes verdict safe tfail S = false →
            passes verdict safe tfail T = false) →
          passes verdict safe tfail (Finset.range n) = false →
          passes verdict safe tfail ∅ = true →
          ∀ S ⊆ Finset.range n,
            (S ∈ marks n trt.faulty ↔ passes verdict safe tfail S = false) ∧
            (S ∈ marks n trt.healthy ↔ passes verdict safe tfail S = true)) := by
  constructor
  · intro trt reached
    have wf := reached.wf positive small
    obtain ⟨b, found, tops, askedTop, _, _, holdsTops, greatest⟩ := getTopSchemas_eq wf
    obtain ⟨b', found', bottoms, askedBottom, _, holdsBottoms, least⟩ := getBottomSchemas_eq wf
    refine ⟨⟨_, found, tops, askedTop, holdsTops, greatest⟩,
      ⟨_, found', bottoms, askedBottom, holdsBottoms, least⟩, ?_⟩
    rcases markRound_runs wf ready binary with ⟨_, ended, _, _, all⟩ |
        ⟨after, parts, runs, step, _⟩
    · exact Or.inl ⟨_, ended, all⟩
    · exact Or.inr ⟨after, _, runs, ready.probes tfail parts, step.reached reached,
        step.unmarked_ssubset⟩
  · obtain ⟨start, created, wf, healthyStart, faultyStart⟩ := new_eq positive small
    refine ⟨start, created, fun fuel enough => ?_⟩
    obtain ⟨trt, parts, runs, marked, all, _⟩ := markAll_runs ready binary wf enough
    refine ⟨trt, _, runs, fun S within => ?_, fun monotone whole empty S within => ?_⟩
    · by_contra neither
      exact all S ⟨within, not_or.mp neither⟩
    · exact marked.marks_iff healthyStart faultyStart all monotone whole empty within

/-- A system whose verdicts are not monotone: two parameters pass when they are equal. -/
theorem markAll_classifies_equal : ∃ start trt after, TRT.new 2 = .ok start ∧
    (markAll 5 ⟨.testcase, [0, 1]⟩ start).Runs
      (started (fun t => .ok (decide (t.val 0 = t.val 1))) [] [⟨.testcase, [0, 1]⟩]
        ⟨.comb, [-1, 0]⟩ fun _ => false) trt after ∧
    ∀ S ⊆ Finset.range 2, S ∈ marks 2 trt.healthy ∨ S ∈ marks 2 trt.faulty := by
  have ready : (started (fun t => .ok (decide (t.val 0 = t.val 1))) [] [⟨.testcase, [0, 1]⟩]
      ⟨.comb, [-1, 0]⟩ fun _ => false).Ready 2 (fun t => decide (t.val 0 = t.val 1))
      ⟨.comb, [-1, 0]⟩ :=
    started_ready (by decide) fun _ _ => rfl
  have binary : Comb.Binary 2 ⟨.testcase, [0, 1]⟩ := by decide
  obtain ⟨_, start, created, loop⟩ := markAll_classifies (by decide) (by decide) ready binary
  obtain ⟨trt, after, runs, all, _⟩ := loop 5 (by decide)
  exact ⟨start, trt, after, created, runs, all⟩

end TRTFaultResolver

end NoPend
