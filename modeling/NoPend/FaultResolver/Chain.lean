import NoPend.Common.MonotoneSchemaSet
import NoPend.FaultResolver.Abstract

set_option autoImplicit false

/- Chains of schemas: the choice of the longest one and the search along it. `NoPend` and
`TRT` have one copy of the search each, which differ in the order the chain is built in. -/
namespace NoPend

open AbstractFaultResolver SetFamily

/-- The body of the two loops of `getLongestChain`: keep a comparable pair that is further
apart than the best one so far. -/
def compareChain (top : Schema) (best : Option (Schema × Schema) × Int) (bottom : Schema) :
    Except Exn (Option (Schema × Schema) × Int) := do
  if (← top.isSupersetOf bottom) && decide ((top.size : Int) - bottom.size + 1 > best.2) then
    return (some (top, bottom), (top.size : Int) - bottom.size + 1)
  else return best

/-- `NoPend.getLongestChain`. Its arguments are objects here, so its null check has no case. -/
def getLongestChain (topSchemas bottomSchemas : MonotoneSchemaSet) :
    Except Exn (Option (Schema × Schema)) := do
  if topSchemas.isEmpty || bottomSchemas.isEmpty then
    throw (.runtime "Max non-faulty or min non-healthy is empty")
  let (longest, _) ← topSchemas.getSchemas.foldlM (fun best top =>
    bottomSchemas.getSchemas.foldlM (compareChain top) best) (none, -1)
  return longest

/-- The chain from `min` to `max` that takes up the missing parameters in the order given. -/
def buildChain (indices : List Nat) (max min : Schema) : List Schema :=
  (indices.foldl (fun (now, chain) i =>
    if !min.get i && max.get i then (now.set i true, chain ++ [(now.set i true).copy])
    else (now, chain)) (min.copy, [min])).2

/-- One round of the search: `(left, right, result)`. -/
def searchRound (chain : List Schema) (tfail : Testcase) :
    Int × Int × Int → ResolverM ((Int × Int × Int) ⊕ Int)
  | (left, right, result) => do
      if left ≤ right then
        let mid := left + (right - left) / 2
        if ← check_with_safevalues (← (← listGet chain mid).getComb tfail) tfail then
          return .inl (mid + 1, right, result)
        else return .inl (left, mid - 1, mid)
      else return .inr result

/-- The loop of `binarySearch` on a chain. Every round shortens the interval, so one round more
than the chain is long is enough. -/
def searchLoop (chain : List Schema) (tfail : Testcase) : ResolverM Int :=
  Proc.iterate .outOfFuel (searchRound chain tfail) (chain.length + 1)
    (0, (chain.length : Int) - 1, -1)

/-- `binarySearch`, with the order in which the chain takes up the parameters. -/
def searchChain (indices : List Nat) (max min : Schema) (tfail : Testcase) :
    ResolverM (Option Schema) := do
  if max.getLogicSize ≠ min.getLogicSize then throw (.runtime "Schema sizes mismatch")
  if !(← max.isSupersetOf min) then throw (.illegalArgument "max is not a superset of min")
  if ← check_with_safevalues (← max.getComb tfail) tfail then return none
  let chain := buildChain indices max min
  let result ← searchLoop chain tfail
  if result = -1 then return none else return some (← listGet chain result)

section LongestChain

variable {n : Nat}

/-- The best pair after the pairs in `done` have been looked at. -/
def IsBest (done : List (Schema × Schema)) : Option (Schema × Schema) × Int → Prop
  | (none, longest) => longest = -1 ∧ ∀ p ∈ done, ¬ p.2.bits ⊆ p.1.bits
  | (some (max, min), longest) =>
      longest = (max.size : Int) - min.size + 1 ∧ (max, min) ∈ done ∧
      min.bits ⊆ max.bits ∧
        ∀ p ∈ done, p.2.bits ⊆ p.1.bits → (p.1.size : Int) - p.2.size + 1 ≤ longest

/-- A pair that is no chain, or one that is not longer, changes nothing. -/
theorem IsBest.skip {done : List (Schema × Schema)} {best : Option (Schema × Schema) × Int}
    (isBest : IsBest done best) {top bottom : Schema}
    (worse : bottom.bits ⊆ top.bits → (top.size : Int) - bottom.size + 1 ≤ best.2) :
    IsBest (done ++ [(top, bottom)]) best := by
  obtain ⟨pair, longest⟩ := best
  cases pair with
  | none =>
      obtain ⟨rfl, apart⟩ := isBest
      refine ⟨rfl, fun p member => ?_⟩
      rcases List.mem_append.mp member with old | new
      · exact apart p old
      · rw [List.mem_singleton.mp new]
        intro sub
        have count : bottom.size ≤ top.size := Finset.card_le_card sub
        have short : (top.size : Int) - bottom.size + 1 ≤ -1 := worse sub
        omega
  | some chosen =>
      obtain ⟨max, min⟩ := chosen
      refine ⟨isBest.1, by simp [isBest.2.1], isBest.2.2.1, fun p member below => ?_⟩
      rcases List.mem_append.mp member with old | new
      · exact isBest.2.2.2 p old below
      · rw [List.mem_singleton.mp new] at below ⊢
        exact worse below

theorem isBest_step {done : List (Schema × Schema)} {best : Option (Schema × Schema) × Int}
    (isBest : IsBest done best) {top bottom : Schema} (same : top.logic_size = bottom.logic_size) :
    ∃ after, compareChain top best bottom = .ok after ∧
      IsBest (done ++ [(top, bottom)]) after := by
  obtain ⟨pair, longest⟩ := best
  rw [compareChain, Schema.isSupersetOf_eq same]
  by_cases sub : bottom.bits ⊆ top.bits
  · have count : bottom.size ≤ top.size := Finset.card_le_card sub
    by_cases longer : (top.size : Int) - bottom.size + 1 > longest
    · refine ⟨(some (top, bottom), (top.size : Int) - bottom.size + 1),
        by simp [sub, longer, bind, Except.bind, pure, Except.pure], rfl, by simp, sub, ?_⟩
      intro p member below
      rcases List.mem_append.mp member with old | new
      · cases pair with
        | none => exact absurd below (isBest.2 p old)
        | some chosen => exact (isBest.2.2.2 p old below).trans longer.le
      · rw [List.mem_singleton.mp new]
    · refine ⟨(pair, longest), by simp [sub, longer, bind, Except.bind, pure, Except.pure], ?_⟩
      apply isBest.skip
      intro _
      exact not_lt.mp longer
  · refine ⟨(pair, longest), by simp [sub, bind, Except.bind, pure, Except.pure], ?_⟩
    apply isBest.skip
    intro below
    exact absurd below sub

theorem isBest_inner (bottoms : List Schema) {top : Schema} (wfTop : top.Wf n)
    (wfBottoms : ∀ s ∈ bottoms, s.Wf n) {done : List (Schema × Schema)}
    {best : Option (Schema × Schema) × Int} (isBest : IsBest done best) :
    ∃ after, bottoms.foldlM (compareChain top) best = .ok after ∧
      IsBest (done ++ bottoms.map (top, ·)) after := by
  induction bottoms generalizing done best with
  | nil => exact ⟨best, rfl, by simpa using isBest⟩
  | cons bottom rest ih =>
      obtain ⟨middle, first, kept⟩ :=
        isBest_step isBest (wfTop.logic.trans (wfBottoms bottom (by simp)).logic.symm)
      obtain ⟨after, run, final⟩ :=
        ih (fun s member => wfBottoms s (List.mem_cons_of_mem _ member)) kept
      refine ⟨after, ?_, by simpa using final⟩
      rw [List.foldlM_cons, first]
      exact run

theorem isBest_outer (tops bottoms : List Schema) (wfTops : ∀ s ∈ tops, s.Wf n)
    (wfBottoms : ∀ s ∈ bottoms, s.Wf n) {done : List (Schema × Schema)}
    {best : Option (Schema × Schema) × Int} (isBest : IsBest done best) :
    ∃ after, tops.foldlM (fun best top => bottoms.foldlM (compareChain top) best) best =
      .ok after ∧
      IsBest (done ++ tops.flatMap fun top => bottoms.map (top, ·)) after := by
  induction tops generalizing done best with
  | nil => exact ⟨best, rfl, by simpa using isBest⟩
  | cons top rest ih =>
      obtain ⟨middle, first, kept⟩ :=
        isBest_inner bottoms (wfTops top (by simp)) wfBottoms isBest
      obtain ⟨after, run, final⟩ :=
        ih (fun s member => wfTops s (List.mem_cons_of_mem _ member)) kept
      refine ⟨after, ?_, by simpa [List.flatMap_cons] using final⟩
      rw [List.foldlM_cons, first]
      exact run

/-- `getLongestChain` finds a comparable pair of greatest distance if there is one. -/
theorem getLongestChain_eq {tops bottoms : MonotoneSchemaSet}
    (wfTops : ∀ s ∈ tops.schemas, s.Wf n)
    (wfBottoms : ∀ s ∈ bottoms.schemas, s.Wf n) (someTop : tops.schemas ≠ [])
    (someBottom : bottoms.schemas ≠ []) :
    ∃ chain, getLongestChain tops bottoms = .ok chain ∧
      match chain with
      | none => ∀ top ∈ tops.schemas, ∀ bottom ∈ bottoms.schemas,
        ¬ bottom.bits ⊆ top.bits
      | some (max, min) => max ∈ tops.schemas ∧ min ∈ bottoms.schemas ∧
      min.bits ⊆ max.bits ∧
          ∀ top ∈ tops.schemas, ∀ bottom ∈ bottoms.schemas, bottom.bits ⊆ top.bits →
            top.bits.card + min.bits.card ≤ max.bits.card + bottom.bits.card := by
  have start : IsBest [] (none, -1) := ⟨rfl, by simp⟩
  obtain ⟨⟨chain, longest⟩, run, best⟩ :=
    isBest_outer tops.schemas bottoms.schemas wfTops wfBottoms start
  have nonempty : (tops.isEmpty || bottoms.isEmpty) = false := by
    simp [MonotoneSchemaSet.isEmpty, someTop, someBottom]
  have pairs : ∀ top bottom, (top, bottom) ∈
      ([] ++ tops.schemas.flatMap fun top => bottoms.schemas.map (top, ·)) ↔
        top ∈ tops.schemas ∧ bottom ∈ bottoms.schemas := by
    intro top bottom
    simp
  refine ⟨chain, ?_, ?_⟩
  · simp only [getLongestChain, nonempty, MonotoneSchemaSet.getSchemas]
    rw [run]
    rfl
  · cases chain with
    | none =>
        exact fun top inTop bottom inBottom =>
          best.2 (top, bottom) ((pairs _ _).mpr ⟨inTop, inBottom⟩)
    | some chosen =>
        obtain ⟨max, min⟩ := chosen
        obtain ⟨length, member, sub, longestOfAll⟩ := best
        obtain ⟨inTop, inBottom⟩ := (pairs _ _).mp member
        refine ⟨inTop, inBottom, sub, fun top hTop bottom hBottom below => ?_⟩
        have bound := longestOfAll (top, bottom) ((pairs _ _).mpr ⟨hTop, hBottom⟩) below
        simp only [Schema.size_eq] at bound length
        omega

end LongestChain

section Search

variable {n : Nat} {verdict : Testcase → Bool} {safe : Comb} {tfail : Testcase}
  {r : AbstractFaultResolver}

/-- The parameters that the chain from `min` to `max` takes up. -/
def rungs (indices : List Nat) (max min : Schema) : List Nat :=
  indices.filter fun i => !min.get i && max.get i

/-- The loop that builds the chain adds one schema for every parameter it takes up. -/
theorem buildChain_loop (indices : List Nat) {max min : Schema} (wfMax : max.Wf n) {now : Schema}
    (chain : List Schema) (wf : now.Wf n) :
    ∃ rest, (indices.foldl (fun (now, chain) i =>
        if !min.get i && max.get i then (now.set i true, chain ++ [(now.set i true).copy])
        else (now, chain)) (now, chain)).2 = chain ++ rest ∧ (∀ s ∈ rest, s.Wf n) ∧
      now.bits :: rest.map Schema.bits = ladder now.bits (rungs indices max min) := by
  induction indices generalizing now chain with
  | nil => exact ⟨[], by simp, by simp, rfl⟩
  | cons i more ih =>
      rw [List.foldl_cons]
      by_cases take : (!min.get i && max.get i) = true
      · have inMax : i ∈ max.bits := by
          simp only [Bool.and_eq_true, Schema.get_eq_true] at take
          exact take.2
        have wfNext := wf.set_true (wfMax.lt inMax)
        obtain ⟨rest, run, wfRest, bits⟩ := ih (chain ++ [(now.set i true).copy]) wfNext
        refine ⟨(now.set i true).copy :: rest, ?_, ?_, ?_⟩
        · simp only [take, if_true]
          rw [run, List.append_assoc]
          rfl
        · intro s member
          rcases List.mem_cons.mp member with rfl | later
          · exact wfNext.copy
          · exact wfRest s later
        · rw [List.map_cons, Schema.copy_bits, bits]
          simp [rungs, take, ladder]
      · obtain ⟨rest, run, wfRest, bits⟩ := ih chain wf
        refine ⟨rest, ?_, wfRest, ?_⟩
        · simp only [take]
          exact run
        · rw [bits]
          simp [rungs, take]

theorem buildChain_eq (indices : List Nat) {max min : Schema} (wfMax : max.Wf n)
    (wfMin : min.Wf n) :
    (∀ s ∈ buildChain indices max min, s.Wf n) ∧
      (buildChain indices max min).map Schema.bits = ladder min.bits (rungs indices max min) := by
  obtain ⟨rest, run, wfRest, bits⟩ := buildChain_loop indices wfMax [min] wfMin.copy
  rw [buildChain, run]
  constructor
  · intro s member
    rcases List.mem_append.mp member with first | later
    · rw [List.mem_singleton.mp first]
      exact wfMin
    · exact wfRest s later
  · rw [Schema.copy_bits] at bits
    exact bits

/-- The state of the search between two rounds: below `left` the chain was last seen
healthy, above `right` it was last seen faulty. -/
structure SearchInv (verdict : Testcase → Bool) (safe : Comb) (tfail : Testcase)
    (r : AbstractFaultResolver) (chain : List Schema) (left right result : Int)
    (state : AbstractFaultResolver) (parts : List (Finset Nat)) : Prop where
  state : state = probes verdict safe tfail r parts
  onChain : ∀ S ∈ parts, S ∈ chain.map Schema.bits
  low : 0 ≤ left ∧ left ≤ right + 1
  high : right < chain.length
  healthy : left = 0 ∨
    ∃ s, listGet chain (left - 1) = .ok s ∧ passes verdict safe tfail s.bits = true
  faulty : (result = -1 ∧ right = (chain.length : Int) - 1) ∨
    (result = right + 1 ∧ ∃ s, listGet chain result = .ok s ∧
      passes verdict safe tfail s.bits = false ∧ s.bits ∈ parts)

theorem searchRound_runs (ready : r.Ready n verdict safe) (binary : tfail.Binary n)
    {chain : List Schema} (wf : ∀ s ∈ chain, s.Wf n) {left right result : Int}
    {state : AbstractFaultResolver} {parts : List (Finset Nat)}
    (inv : SearchInv verdict safe tfail r chain left right result state parts)
    (going : left ≤ right) :
    ∃ left' right' result' state' parts',
      (searchRound chain tfail (left, right, result)).Runs state
        (.inl (left', right', result')) state' ∧
      SearchInv verdict safe tfail r chain left' right' result' state' parts' ∧
      right' - left' < right - left := by
  have ready' : state.Ready n verdict safe := by
    rw [inv.state]
    exact ready.probes tfail parts
  have low := inv.low
  have high := inv.high
  obtain ⟨mid, middle⟩ : ∃ mid : Nat, (mid : Int) = left + (right - left) / 2 :=
    ⟨(left + (right - left) / 2).toNat, by omega⟩
  have inside : mid < chain.length := by omega
  have found : listGet chain (left + (right - left) / 2) = .ok chain[mid] := by
    rw [← middle]
    exact listGet_ofNat inside
  have member : chain[mid] ∈ chain := List.getElem_mem inside
  have next : probe verdict safe tfail state chain[mid].bits =
      probes verdict safe tfail r (parts ++ [chain[mid].bits]) := by
    rw [probes_append, ← inv.state]
    rfl
  have onChain : ∀ S ∈ parts ++ [chain[mid].bits], S ∈ chain.map Schema.bits := by
    intro S seen
    rcases List.mem_append.mp seen with old | new
    · exact inv.onChain S old
    · rw [List.mem_singleton.mp new]
      exact List.mem_map_of_mem member
  by_cases healthy : passes verdict safe tfail chain[mid].bits = true
  · refine ⟨left + (right - left) / 2 + 1, right, result, _, parts ++ [chain[mid].bits], ?_,
      ⟨next, onChain, by omega, high, Or.inr ⟨chain[mid], ?_, healthy⟩, ?_⟩, by omega⟩
    · simp only [searchRound, going, if_true]
      refine (Proc.Runs.of_ok found state).bind (check_schema_bind ready' binary (wf _ member) ?_)
      rw [healthy]
      exact Proc.Runs.ret _ _
    · rw [show left + (right - left) / 2 + 1 - 1 = left + (right - left) / 2 by omega]
      exact found
    · rcases inv.faulty with none | ⟨same, s, got, fails, seen⟩
      · exact Or.inl none
      · exact Or.inr ⟨same, s, got, fails, List.mem_append_left _ seen⟩
  · have fails : passes verdict safe tfail chain[mid].bits = false := by simpa using healthy
    refine ⟨left, left + (right - left) / 2 - 1, left + (right - left) / 2, _,
      parts ++ [chain[mid].bits], ?_, ⟨next, onChain, by omega, by omega, inv.healthy,
        Or.inr ⟨by omega, chain[mid], found, fails, by simp⟩⟩, by omega⟩
    simp only [searchRound, going, if_true]
    refine (Proc.Runs.of_ok found state).bind (check_schema_bind ready' binary (wf _ member) ?_)
    rw [fails]
    exact Proc.Runs.ret _ _

/-- The search ends on a faulty schema that is the first of the chain or follows a
healthy one, whatever the verdicts in between were. -/
theorem search_runs (ready : r.Ready n verdict safe) (binary : tfail.Binary n)
    {chain : List Schema} (wf : ∀ s ∈ chain, s.Wf n) {last : Schema}
    (positive : 0 < chain.length) (top : listGet chain ((chain.length : Int) - 1) = .ok last)
    (fails : passes verdict safe tfail last.bits = false) :
    ∃ result after parts, (Proc.iterate .outOfFuel (searchRound chain tfail) (chain.length + 1)
        (0, (chain.length : Int) - 1, -1)).Runs r result after ∧
      SearchInv verdict safe tfail r chain result (result - 1) result after parts := by
  obtain ⟨result, after, runs, parts, left, right, inv, crossed⟩ := Proc.iterate_runs .outOfFuel
    (searchRound chain tfail)
    (fun (left, right, result) state =>
      ∃ parts, SearchInv verdict safe tfail r chain left right result state parts)
    (fun result state => ∃ parts left, ∃ right,
      SearchInv verdict safe tfail r chain left right result state parts ∧ right < left)
    (fun (left, right, _) _ => (right - left + 1).toNat)
    (by
      rintro ⟨left, right, result⟩ state ⟨parts, inv⟩
      by_cases going : left ≤ right
      · right
        obtain ⟨left', right', result', state', parts', runs, kept, less⟩ :=
          searchRound_runs ready binary wf inv going
        exact ⟨(left', right', result'), state', runs, ⟨parts', kept⟩, by dsimp only; omega⟩
      · left
        refine ⟨result, state, ?_, parts, left, right, inv, by omega⟩
        simp only [searchRound, going, if_false]
        exact Proc.Runs.ret _ _)
    (chain.length + 1) (0, (chain.length : Int) - 1, -1) r
    ⟨[], ⟨rfl, by simp, by omega, by omega, Or.inl rfl, Or.inl ⟨rfl, rfl⟩⟩⟩
      (by dsimp only; omega)
  have low := inv.low
  refine ⟨result, after, parts, runs, ?_⟩
  rcases inv.faulty with ⟨_, whole⟩ | ⟨same, _⟩
  · -- without any faulty probe the last schema would have been seen healthy
    rcases inv.healthy with zero | ⟨s, got, healthy⟩
    · omega
    · rw [show left - 1 = (chain.length : Int) - 1 by omega, top] at got
      cases got
      rw [fails] at healthy
      cases healthy
  · rw [show left = result by omega, show right = result - 1 by omega] at inv
    exact inv

theorem mem_rungs {indices : List Nat} {max min : Schema} {i : Nat} :
    i ∈ rungs indices max min ↔ i ∈ indices ∧ i ∉ min.bits ∧ i ∈ max.bits := by
  simp [rungs]

theorem listGet_chain {indices : List Nat} {max min s : Schema} (wfMax : max.Wf n)
    (wfMin : min.Wf n) {k : Int} (got : listGet (buildChain indices max min) k = .ok s) :
    (ladder min.bits (rungs indices max min))[k.toNat]? = some s.bits := by
  rw [← (buildChain_eq indices wfMax wfMin).2, List.getElem?_map, (listGet_eq_ok.mp got).2]
  rfl

section Rungs

variable {indices : List Nat} {max min : Schema}

/-- The chain ends at `max`. -/
theorem rungs_union (wfMax : max.Wf n) (sub : min.bits ⊆ max.bits)
    (all : ∀ i < n, i ∈ indices) :
    min.bits ∪ (rungs indices max min).toFinset = max.bits := by
  ext i
  rw [Finset.mem_union, List.mem_toFinset, mem_rungs]
  constructor
  · rintro (inMin | ⟨_, _, inMax⟩)
    · exact sub inMin
    · exact inMax
  · intro inMax
    by_cases inMin : i ∈ min.bits
    · exact Or.inl inMin
    · exact Or.inr ⟨all i (wfMax.lt inMax), inMin, inMax⟩

theorem buildChain_between (wfMax : max.Wf n) (wfMin : min.Wf n) (sub : min.bits ⊆ max.bits)
    (all : ∀ i < n, i ∈ indices) {S : Finset Nat}
    (member : S ∈ (buildChain indices max min).map Schema.bits) :
    min.bits ⊆ S ∧ S ⊆ max.bits := by
  rw [(buildChain_eq indices wfMax wfMin).2] at member
  obtain ⟨low, high⟩ := ladder_between member
  rw [rungs_union wfMax sub all] at high
  exact ⟨low, high⟩

theorem buildChain_last (wfMax : max.Wf n) (wfMin : min.Wf n) (sub : min.bits ⊆ max.bits)
    (all : ∀ i < n, i ∈ indices) :
    0 < (buildChain indices max min).length ∧ ∃ last,
      listGet (buildChain indices max min) ((buildChain indices max min).length - 1 : Int) =
        .ok last ∧
        last.bits = max.bits := by
  have chainBits := (buildChain_eq indices wfMax wfMin).2
  have length : (buildChain indices max min).length =
      (ladder min.bits (rungs indices max min)).length := by
    rw [← chainBits, List.length_map]
  have positive : 0 < (buildChain indices max min).length := by
    rw [length]
    exact List.length_pos_iff.mpr (ladder_ne_nil _ _)
  have inside : (buildChain indices max min).length - 1 < (buildChain indices max min).length := by
    omega
  refine ⟨positive, (buildChain indices max min)[(buildChain indices max min).length - 1],
    ?_, ?_⟩
  · rw [← listGet_ofNat inside]
    congr 1
    omega
  · have atEnd := ladder_last min.bits (rungs indices max min)
    rw [← length, rungs_union wfMax sub all, ← chainBits, List.getElem?_map,
      List.getElem?_eq_getElem inside] at atEnd
    exact Option.some.inj atEnd

/-- A position of the chain that is its first one or follows a healthy one. -/
theorem boundary_of_healthy (wfMax : max.Wf n) (wfMin : min.Wf n) (distinct : indices.Nodup)
    {m : Schema} {result : Int} (got : listGet (buildChain indices max min) result = .ok m)
    (healthy : result = 0 ∨ ∃ s, listGet (buildChain indices max min) (result - 1) = .ok s ∧
      passes verdict safe tfail s.bits = true) :
    m.bits = min.bits ∨ ∃ i ∈ m.bits, i ∉ min.bits ∧
      m.bits.erase i ∈ (buildChain indices max min).map Schema.bits ∧
      passes verdict safe tfail (m.bits.erase i) = true := by
  have atResult := listGet_chain wfMax wfMin got
  rcases healthy with zero | ⟨s, previous, sPasses⟩
  · left
    rw [zero] at atResult
    exact (Option.some.inj ((ladder_head _ _).symm.trans atResult)).symm
  · right
    have positive : 0 ≤ result - 1 := (listGet_eq_ok.mp previous).1
    have before := listGet_chain wfMax wfMin previous
    rw [show result.toNat = (result - 1).toNat + 1 by omega] at atResult
    obtain ⟨i, inM, notMin, erased⟩ := ladder_step (distinct.filter _)
      (fun d here => (mem_rungs.mp here).2.1) before atResult
    refine ⟨i, inM, notMin, ?_, by rw [erased]; exact sPasses⟩
    rw [erased]
    exact List.mem_map_of_mem (List.mem_of_getElem? (listGet_eq_ok.mp previous).2)

end Rungs

/-- Both `binarySearch` methods, for every verdict function: the checks all concern the
interval from `min` to `max`, and the result is a boundary of the chain. -/
theorem searchChain_runs (ready : r.Ready n verdict safe) (binary : tfail.Binary n)
    {max min : Schema} (wfMax : max.Wf n) (wfMin : min.Wf n) (sub : min.bits ⊆ max.bits)
    (indices : List Nat) (distinct : indices.Nodup) (all : ∀ i < n, i ∈ indices) :
    ∃ found parts, (searchChain indices max min tfail).Runs r found
        (probes verdict safe tfail r parts) ∧
      (∀ S ∈ parts, min.bits ⊆ S ∧ S ⊆ max.bits) ∧ max.bits ∈ parts ∧
      match found with
      | none => passes verdict safe tfail max.bits = true
      | some m => passes verdict safe tfail max.bits = false ∧ m.Wf n ∧ min.bits ⊆ m.bits ∧
          m.bits ⊆ max.bits ∧ m.bits ∈ parts ∧ passes verdict safe tfail m.bits = false ∧
          m.bits ∈ (buildChain indices max min).map Schema.bits ∧
          (m.bits = min.bits ∨ ∃ i ∈ m.bits, i ∉ min.bits ∧
            m.bits.erase i ∈ (buildChain indices max min).map Schema.bits ∧
            passes verdict safe tfail (m.bits.erase i) = true) := by
  have same : max.logic_size = min.logic_size := wfMax.logic.trans wfMin.logic.symm
  have guard : ¬ max.getLogicSize ≠ min.getLogicSize := not_not_intro same
  have superset := Schema.isSupersetOf_eq same
  rw [decide_eq_true sub] at superset
  have entry : ∀ {found : Option Schema} {after : AbstractFaultResolver},
      (if passes verdict safe tfail max.bits then pure none else do
        let result ← Proc.iterate .outOfFuel (searchRound (buildChain indices max min) tfail)
          ((buildChain indices max min).length + 1)
          (0, ((buildChain indices max min).length : Int) - 1, -1)
        if result = -1 then return none
        else return some (← listGet (buildChain indices max min) result) :
          ResolverM (Option Schema)).Runs (probe verdict safe tfail r max.bits) found after →
      (searchChain indices max min tfail).Runs r found after := by
    intro found after rest
    rw [searchChain, if_neg guard]
    exact (Proc.Runs.of_ok superset r).bind (check_schema_bind ready binary wfMax rest)
  by_cases healthy : passes verdict safe tfail max.bits = true
  · refine ⟨none, [max.bits], entry ?_, ?_, by simp, healthy⟩
    · rw [if_pos healthy]
      exact Proc.Runs.ret _ _
    · intro S member
      rw [List.mem_singleton.mp member]
      exact ⟨sub, Finset.Subset.refl _⟩
  · have fails : passes verdict safe tfail max.bits = false := by simpa using healthy
    have wfChain := (buildChain_eq indices wfMax wfMin).1
    obtain ⟨positive, last, top, lastBits⟩ := buildChain_last wfMax wfMin sub all
    obtain ⟨result, after, parts, runs, inv⟩ := search_runs
      (ready.probe tfail max.bits) binary wfChain positive top (by rw [lastBits]; exact fails)
    have known : result ≠ -1 := by have := inv.low; omega
    rcases inv.faulty with ⟨impossible, _⟩ | ⟨_, m, got, mFails, seen⟩
    · exact absurd impossible known
    have member : m ∈ buildChain indices max min :=
      List.mem_of_getElem? (listGet_eq_ok.mp got).2
    have onChain := List.mem_map_of_mem (f := Schema.bits) member
    obtain ⟨low, high⟩ := buildChain_between wfMax wfMin sub all onChain
    refine ⟨some m, max.bits :: parts, entry ?_, ?_, by simp, fails, wfChain m member, low, high,
      List.mem_cons_of_mem _ seen, mFails, onChain, boundary_of_healthy wfMax wfMin distinct got
        inv.healthy⟩
    · rw [if_neg healthy]
      refine runs.bind ?_
      rw [if_neg known]
      have final : after = probes verdict safe tfail r (max.bits :: parts) := inv.state
      rw [← final]
      exact (Proc.Runs.of_ok got after).bind (Proc.Runs.ret _ _)
    · intro S here
      rcases List.mem_cons.mp here with rfl | later
      · exact ⟨sub, Finset.Subset.refl _⟩
      · exact buildChain_between wfMax wfMin sub all (inv.onChain S later)

/-- What the rounds of both resolvers need of a search from `min` to `max`. -/
structure Searched (n : Nat) (verdict : Testcase → Bool) (safe : Comb) (tfail : Testcase)
    (max min : Schema) (found : Option Schema) (parts : List (Finset Nat)) : Prop where
  between : ∀ S ∈ parts, min.bits ⊆ S ∧ S ⊆ max.bits
  whole : max.bits ∈ parts
  answer : match found with
    | none => passes verdict safe tfail max.bits = true
    | some minfault => minfault.Wf n ∧ min.bits ⊆ minfault.bits ∧
      minfault.bits ⊆ max.bits ∧
        minfault.bits ∈ parts ∧ passes verdict safe tfail minfault.bits = false

theorem searchChain_found (ready : r.Ready n verdict safe) (binary : tfail.Binary n)
    {max min : Schema} (wfMax : max.Wf n) (wfMin : min.Wf n) (sub : min.bits ⊆ max.bits)
    (indices : List Nat) (distinct : indices.Nodup) (all : ∀ i < n, i ∈ indices) :
    ∃ found parts, (searchChain indices max min tfail).Runs r found
        (probes verdict safe tfail r parts) ∧
      Searched n verdict safe tfail max min found parts := by
  obtain ⟨found, parts, runs, between, seen, spec⟩ :=
    searchChain_runs ready binary wfMax wfMin sub indices distinct all
  refine ⟨found, parts, runs, between, seen, ?_⟩
  cases found with
  | none => exact spec
  | some minfault =>
      obtain ⟨_, wf, low, high, member, fails, _⟩ := spec
      exact ⟨wf, low, high, member, fails⟩

end Search

end NoPend
