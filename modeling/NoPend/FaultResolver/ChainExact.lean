import NoPend.Common.MonotoneRuns
import NoPend.FaultResolver.NoPendIdentify
import NoPend.FaultResolver.TRT

set_option autoImplicit false

/- What the choice of a chain and the search along it guarantee, for arbitrary families and
an arbitrary system under test. -/
namespace NoPend

open Antichain SetFamily AbstractFaultResolver MonotoneSchemaSet

section Choice

variable {n : Nat} {U : Schema} {lows highs : List Schema} {CMinF CMaxP : MonotoneSchemaSet}

/-- A family held in its set keeps what is true of all its members. -/
theorem sets_of_adds {isMinimal : Bool} {news : List Schema} {set : MonotoneSchemaSet}
    (wf : ∀ s ∈ news, s.Wf n)
    (run : performAll isMinimal (news.map Call.add) = .ok set) :
    set.Holds n isMinimal set.sets ∧ Independent (order isMinimal) set.sets ∧
      (news ≠ [] → set.sets ≠ []) ∧ ∀ S ∈ set.sets, ∃ s ∈ news, s.bits = S := by
  have sized : ∀ call ∈ news.map Call.add, call.schema.logic_size = n := by
    intro call member
    obtain ⟨s, inside, rfl⟩ := List.mem_map.mp member
    exact (wf s inside).logic
  obtain ⟨held, same, kept, contents⟩ := performAll_kept isMinimal sized
  rw [run] at same
  obtain rfl := Except.ok.inj same
  refine ⟨Holds.of_adds wf kept (contents news rfl), List.pairwise_map.mpr kept.independent,
    ?_, ?_⟩
  · intro some none
    apply addAll_ne_nil (Under isMinimal) List.Pairwise.nil (Or.inr some)
    rw [← contents news rfl]
    exact List.map_eq_nil_iff.mp none
  · intro S member
    exact ((mem_sets_addAll (contents news rfl) S).mp member).1

/-- The borders of the pending region and the chain between them: the chain is a longest one,
and there is none only when nothing is pending. -/
theorem getLongestChain_longest (wfU : U.Wf n)
    (wfLows : ∀ s ∈ lows, s.Wf n ∧ s.bits ⊆ U.bits ∧ s.bits.Nonempty)
    (someLow : lows ≠ [])
    (wfHighs : ∀ s ∈ highs, s.Wf n ∧ s.bits ⊂ U.bits) (someHigh : highs ≠ [])
    (heldLow : performAll true (lows.map Call.add) = .ok CMinF)
    (heldHigh : performAll false (highs.map Call.add) = .ok CMaxP) :
    ∃ hitting topSchemas complements bottomSchemas chain,
      CMinF.getMHS = .ok hitting ∧ hitting.complementIn U = .ok topSchemas ∧
      CMaxP.complementIn U = .ok complements ∧ complements.getMHS = .ok bottomSchemas ∧
      getLongestChain topSchemas bottomSchemas = .ok chain ∧
      (chain = none ↔ ¬ ∃ S, S ⊆ U.bits ∧ Pending CMinF.sets CMaxP.sets S) ∧
      ∀ max min, chain = some (max, min) → min.bits ⊆ max.bits ∧
        (∀ S, min.bits ⊆ S → S ⊆ max.bits →
          S ⊆ U.bits ∧ Pending CMinF.sets CMaxP.sets S) ∧
        ∀ sets : List (Finset Nat), sets.Pairwise (· ⊂ ·) →
          (∀ S ∈ sets, S ⊆ U.bits ∧ Pending CMinF.sets CMaxP.sets S) →
          sets.length ≤ max.bits.card - min.bits.card + 1 := by
  obtain ⟨low, lowIndependent, lowSome, fromLows⟩ :=
    sets_of_adds (fun s m => (wfLows s m).1) heldLow
  obtain ⟨high, highIndependent, highSome, fromHighs⟩ :=
    sets_of_adds (fun s m => (wfHighs s m).1) heldHigh
  have known : NoPendFaultResolver.Known n U CMinF CMaxP := by
    refine ⟨wfU, low, high, lowIndependent, highIndependent, lowSome someLow,
      highSome someHigh, ?_, ?_⟩
    · intro S member
      obtain ⟨s, inside, rfl⟩ := fromLows S member
      exact (wfLows s inside).2
    · intro S member
      obtain ⟨s, inside, rfl⟩ := fromHighs S member
      exact (wfHighs s inside).2
  obtain ⟨complements, bottomSchemas, hitting, topSchemas, chain, complemented,
    bottoms, hits, tops, longest, _, spec⟩ := NoPendFaultResolver.findChain_eq known
  refine ⟨hitting, topSchemas, complements, bottomSchemas, chain, hits, tops,
    complemented, bottoms, longest, ?_, ?_⟩
  · cases chain with
    | none =>
        refine ⟨fun _ => ?_, fun _ => rfl⟩
        rintro ⟨S, inside, isPending⟩
        have member := mem_pendingIn.mpr ⟨inside, isPending⟩
        rw [spec] at member
        exact Finset.notMem_empty S member
    | some pair =>
        obtain ⟨_, _, sub, _, proper, between, _⟩ := spec
        refine ⟨fun impossible => (nomatch impossible), fun nothing => ?_⟩
        exact absurd ⟨pair.1.bits, proper.subset, between _ sub (Finset.Subset.refl _)⟩ nothing
  · rintro max min rfl
    obtain ⟨_, _, sub, _, proper, between, farthest⟩ := spec
    refine ⟨sub, fun S above below => ⟨below.trans proper.subset, between S above below⟩,
      ?_⟩
    intro sets ascending pending
    apply chain_length_le ascending
    intro S inS T inT below
    have far := farthest S T below (pending T inT).1 (pending S inS).2 (pending T inT).2
    have count := Finset.card_le_card sub
    omega

/-- With parameter 0 faulty and parameter 1 healthy, parameter 2 is pending. -/
theorem getLongestChain_longest_three :
    ∃ CMinF CMaxP, performAll true ([Schema.ofIndices 3 [0]].map Call.add) = .ok CMinF ∧
      performAll false ([Schema.ofIndices 3 [1]].map Call.add) = .ok CMaxP ∧
      ∃ hitting topSchemas complements bottomSchemas chain,
        CMinF.getMHS = .ok hitting ∧ hitting.complementIn
          (Schema.ofFlag 3 true) = .ok topSchemas ∧
        CMaxP.complementIn (Schema.ofFlag 3 true) = .ok complements ∧
        complements.getMHS = .ok bottomSchemas ∧
        getLongestChain topSchemas bottomSchemas = .ok chain ∧ chain ≠ none := by
  have wfLow : (Schema.ofIndices 3 [0]).Wf 3 := ⟨rfl, by rw [Schema.ofIndices_bits]; decide⟩
  have wfHigh : (Schema.ofIndices 3 [1]).Wf 3 := ⟨rfl, by rw [Schema.ofIndices_bits]; decide⟩
  obtain ⟨CMinF, runLow, low⟩ := add'_minimal (holds_new 3 true) wfLow
  obtain ⟨CMaxP, runHigh, high⟩ := add'_maximal (holds_new 3 false) wfHigh
  have heldLow : performAll true ([Schema.ofIndices 3 [0]].map Call.add) = .ok CMinF := runLow
  have heldHigh : performAll false ([Schema.ofIndices 3 [1]].map Call.add) = .ok CMaxP := runHigh
  obtain ⟨hitting, topSchemas, complements, bottomSchemas, chain, first, second, third,
    fourth, fifth, nothing, _⟩ := getLongestChain_longest (Schema.ofFlag_wf 3)
      (by simpa [Schema.ofIndices_bits] using wfLow) (by simp)
      (by
        intro s member
        rw [List.mem_singleton.mp member]
        refine ⟨wfHigh, ?_⟩
        rw [Schema.ofIndices_bits, Schema.ofFlag_true_bits]
        decide) (by simp) heldLow heldHigh
  refine ⟨CMinF, CMaxP, heldLow, heldHigh, hitting, topSchemas, complements, bottomSchemas,
    chain, first, second, third, fourth, fifth, fun none => nothing.mp none ⟨{2}, ?_, ?_⟩⟩
  · rw [Schema.ofFlag_true_bits]
    decide
  · rw [low.sets_eq, high.sets_eq]
    simp [Antichain.add, Pending, Covers, Schema.ofIndices_bits]

end Choice

section Search

variable {n : Nat} {verdict : Testcase → Bool} {safe : Comb} {tfail : Testcase}
  {r : AbstractFaultResolver} {max min : Schema}

/-- What a search along `chain` from `min` to `max` has to answer. -/
structure ChainAnswer (n : Nat) (verdict : Testcase → Bool) (safe : Comb) (tfail : Testcase)
    (max min : Schema) (chain : List (Finset Nat)) (found : Option Schema) : Prop where
  null : found = none ↔ passes verdict safe tfail max.bits = true
  within : ∀ m,
    found = some m → m.Wf n ∧ m.bits ∈ chain ∧ min.bits ⊆ m.bits ∧ m.bits ⊆ max.bits
  fails : ∀ m, found = some m → passes verdict safe tfail m.bits = false
  boundary : ∀ m, found = some m → m.bits = min.bits ∨ ∃ i ∈ m.bits, i ∉ min.bits ∧
    m.bits.erase i ∈ chain ∧ passes verdict safe tfail (m.bits.erase i) = true
  smallest : (∀ A ∈ chain, ∀ B ∈ chain, A ⊆ B → passes verdict safe tfail B = true →
      passes verdict safe tfail A = true) →
    ∀ m, found = some m → ∀ S ∈ chain, passes verdict safe tfail S = false → m.bits ⊆ S

/-- On a chain with monotone verdicts a boundary is the smallest failing schema. -/
theorem smallest_of_boundary {chain : List (Finset Nat)} {m low : Finset Nat}
    (total : ∀ A ∈ chain, ∀ B ∈ chain, A ⊆ B ∨ B ⊆ A)
    (above : ∀ S ∈ chain, low ⊆ S) (onChain : m ∈ chain)
    (boundary : m = low ∨ ∃ i ∈ m, i ∉ low ∧ m.erase i ∈ chain ∧
      passes verdict safe tfail (m.erase i) = true)
    (monotone : ∀ A ∈ chain, ∀ B ∈ chain, A ⊆ B → passes verdict safe tfail B = true →
      passes verdict safe tfail A = true)
    {S : Finset Nat} (member : S ∈ chain) (fails : passes verdict safe tfail S = false) :
    m ⊆ S := by
  rcases boundary with rfl | ⟨i, inM, _, before, healthy⟩
  · exact above S member
  · rcases total m onChain S member with le | ge
    · exact le
    · -- the chain has nothing between `m` and `m` without `i`
      rcases total (m.erase i) before S member with low | high
      · by_cases has : i ∈ S
        · intro j inside
          by_cases here : j = i
          · rw [here]
            exact has
          · exact low (Finset.mem_erase.mpr ⟨here, inside⟩)
        · have same : S = m.erase i :=
            Finset.Subset.antisymm (Finset.subset_erase.mpr ⟨ge, has⟩) low
          rw [same, healthy] at fails
          cases fails
      · rw [monotone S member _ before high healthy] at fails
        cases fails

/-- Both searches, for an arbitrary order of the chain. -/
theorem searchChain_answer (ready : r.Ready n verdict safe) (binary : tfail.Binary n)
    (wfMax : max.Wf n) (wfMin : min.Wf n) (sub : min.bits ⊆ max.bits) (indices : List Nat)
    (distinct : indices.Nodup) (all : ∀ i < n, i ∈ indices) :
    ∃ found after, (searchChain indices max min tfail).Runs r found after ∧
      ChainAnswer n verdict safe tfail max min
        ((buildChain indices max min).map Schema.bits) found := by
  obtain ⟨found, parts, runs, _, _, spec⟩ :=
    searchChain_runs ready binary wfMax wfMin sub indices distinct all
  refine ⟨found, _, runs, ?_⟩
  cases found with
  | none =>
      exact ⟨by simpa using spec, fun _ none => (nomatch none), fun _ none => (nomatch none),
        fun _ none => (nomatch none), fun _ _ none => (nomatch none)⟩
  | some m =>
      obtain ⟨maxFails, wf, low, high, _, fails, onChain, boundary⟩ := spec
      refine ⟨by simp [maxFails], ?_, ?_, ?_, ?_⟩
      · rintro _ ⟨⟩
        exact ⟨wf, onChain, low, high⟩
      · rintro _ ⟨⟩
        exact fails
      · rintro _ ⟨⟩
        exact boundary
      · rintro monotone _ ⟨⟩ S member failsS
        have ladders := (buildChain_eq indices wfMax wfMin).2
        refine smallest_of_boundary ?_ ?_ onChain boundary monotone member failsS
        · intro A inA B inB
          rw [ladders] at inA inB
          exact ladder_total inA inB
        · intro T inT
          exact (buildChain_between wfMax wfMin sub all inT).1

/-- Where the test of `max` fails, the loop never ends without having seen a failing schema. -/
theorem searchLoop_found (ready : r.Ready n verdict safe) (binary : tfail.Binary n)
    (wfMax : max.Wf n) (wfMin : min.Wf n) (sub : min.bits ⊆ max.bits) {indices : List Nat}
    (all : ∀ i < n, i ∈ indices) (fails : passes verdict safe tfail max.bits = false)
    {result : Int} {after : AbstractFaultResolver}
    (runs : (searchLoop (buildChain indices max min) tfail).Runs r result after) :
    result ≠ -1 := by
  obtain ⟨positive, last, top, lastBits⟩ := buildChain_last wfMax wfMin sub all
  obtain ⟨result', after', parts, runs', inv⟩ := search_runs ready binary
    (buildChain_eq indices wfMax wfMin).1 positive top (by rw [lastBits]; exact fails)
  obtain ⟨rfl, rfl⟩ := runs.unique runs'
  have := inv.low
  omega

/-- Both `binarySearch` methods return for every system under test, answer by a boundary of
their chain, and never reach their last branch. -/
theorem binarySearch_boundary (ready : r.Ready n verdict safe) (binary : tfail.Binary n)
    (wfMax : max.Wf n) (wfMin : min.Wf n) (sub : min.bits ⊆ max.bits) :
    (∃ found after, (NoPendFaultResolver.binarySearch max min tfail).Runs r found after ∧
      ChainAnswer n verdict safe tfail max min
        ((buildChain (List.range n).reverse max min).map Schema.bits) found) ∧
    (∃ found after, (TRTFaultResolver.binarySearch max min tfail).Runs r found after ∧
      ChainAnswer n verdict safe tfail max min
        ((buildChain (List.range n) max min).map Schema.bits) found) ∧
    (passes verdict safe tfail max.bits = false →
      ∀ indices ∈ [(List.range n).reverse, List.range n], ∀ result after,
        (searchLoop (buildChain indices max min) tfail).Runs
          (probe verdict safe tfail r max.bits) result after → result ≠ -1) := by
  have logic : max.getLogicSize = n := wfMax.logic
  have descending : ∀ i < n, i ∈ (List.range n).reverse := fun i inside => by simpa using inside
  have ascending : ∀ i < n, i ∈ List.range n := fun i inside => List.mem_range.mpr inside
  refine ⟨?_, ?_, fun fails indices member result after runs => ?_⟩
  · unfold NoPendFaultResolver.binarySearch
    rw [logic]
    exact searchChain_answer ready binary wfMax wfMin sub _
      (List.nodup_reverse.mpr List.nodup_range) descending
  · unfold TRTFaultResolver.binarySearch
    rw [logic]
    exact searchChain_answer ready binary wfMax wfMin sub _ List.nodup_range ascending
  · have all : ∀ i < n, i ∈ indices := by
      rcases List.mem_pair.mp member with rfl | rfl
      · exact descending
      · exact ascending
    exact searchLoop_found (ready.probe tfail max.bits) binary wfMax wfMin sub all fails runs

/-- A system that fails on one and on three ones but passes on two. -/
theorem binarySearch_boundary_contradictory :
    ∃ found after, (NoPendFaultResolver.binarySearch (Schema.ofFlag 3 true) (Schema.ofSize 3)
        ⟨.testcase, [1, 1, 1]⟩).Runs
        (started (fun t => .ok (decide ((t.elements.sum) % 2 = 0))) [] [] ⟨.comb, [0, 0, 0]⟩
          fun _ => false) found after ∧ found ≠ none := by
  have ready : (started (fun t => .ok (decide ((t.elements.sum) % 2 = 0))) [] []
      ⟨.comb, [0, 0, 0]⟩
      fun _ => false).Ready 3 (fun t => decide ((t.elements.sum) % 2 = 0)) ⟨.comb, [0, 0, 0]⟩ :=
    ⟨rfl, by decide, fun _ _ => rfl⟩
  obtain ⟨⟨found, after, runs, answer⟩, _⟩ := binarySearch_boundary ready
    (show Comb.Binary 3 ⟨.testcase, [1, 1, 1]⟩ by decide) (Schema.ofFlag_wf 3)
      (Schema.ofSize_wf 3) (by rw [Schema.ofSize_bits]; exact Finset.empty_subset _)
  refine ⟨found, after, runs, fun none => ?_⟩
  have passed := answer.null.mp none
  rw [Schema.ofFlag_true_bits] at passed
  revert passed
  decide

end Search

end NoPend
