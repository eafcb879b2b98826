import NoPend.FaultResolver.TRTMarks

set_option autoImplicit false

/- The answers of the queries in every state of the truth table, whatever the shared flag
was left at by the queries before. -/
namespace NoPend

open Antichain SetFamily Walk MonotoneSchemaSet

namespace TRT

variable {n : Nat} {trt : TRT}

theorem ofFlag_false_wf (n : Nat) : (Schema.ofFlag n false).Wf n := Schema.ofSize_wf n

theorem ofFlag_false_bits (n : Nat) : (Schema.ofFlag n false).bits = ∅ := rfl

/-- `getTopSchemas` returns the maximal unmarked schemas. -/
theorem getTopSchemas_eq (wf : trt.Wf n) :
    ∃ b found tops, trt.getTopSchemas = .ok ({ trt with flag := b }, found) ∧
      ({ trt with flag := b } : TRT).Wf n ∧ Finset.range n ∈ marks n b ∧
      found.Holds n false tops ∧ ∀ S, S ∈ tops ↔ Least (· ⊇ ·) (Unmarked n trt) S := by
  obtain ⟨b, out, found, run, words, explored, holds⟩ := collect_eq true (r := (· ⊇ ·))
    add'_maximal (fun trt i => trt.healthy.get i)
    (fun trt i => !trt.faulty.get i) (fun _ _ => rfl) (fun _ _ => rfl) wf
    (Schema.ofFlag_wf n) (trt.flag.setRange 0 trt.flag.size false) wf.words
  rw [marks_cleared wf.words, Schema.ofFlag_true_bits] at explored
  obtain ⟨news, same, mem⟩ := explored.out
  simp only [List.nil_append] at same
  subst same
  have asked : ∀ S ⊆ Finset.range n,
      ((!trt.healthy.get (code S) && !trt.faulty.get (code S)) = true ↔ Unmarked n trt S) := by
    intro S within
    simp [get_code within, Unmarked, within]
  have drawn : ∀ S ∈ out, Unmarked n trt S := by
    intro S member
    obtain ⟨seen, _, wanted⟩ := (mem S).mp member
    exact (asked S (mem_marks.mp seen).1).mp wanted
  -- above a maximal unmarked schema everything is faulty only, so the walk gets there
  have collected : ∀ S, Least (· ⊇ ·) (Unmarked n trt) S → S ∈ out := by
    rintro S ⟨⟨within, notHealthy, notFaulty⟩, greatest⟩
    refine (mem S).mpr
      ⟨explored.reaches ?_, by simp, (asked S within).mpr ⟨within, notHealthy, notFaulty⟩⟩
    refine Relation.ReflTransGen.mono (fun a b step => ⟨step.1, step.2⟩) _ _
      (removals_path
        (P := fun T => (!trt.healthy.get (code T) && !!trt.faulty.get (code T)) = true ∧
        T ∉ (∅ : Finset (Finset Nat))) (Finset.Subset.refl _) within fun T above below =>
          ⟨?_, by simp⟩)
    have healthy : T ∉ marks n trt.healthy := fun marked =>
      notHealthy (wf.healthyDown T marked S above.subset)
    have faulty : T ∈ marks n trt.faulty := by
      by_contra unmarked
      exact above.ne (greatest T ⟨below, healthy, unmarked⟩ above.subset).symm
    simp [get_code below, healthy, faulty]
  refine ⟨b, found, _, ?_, wf.with_flag words, explored.entered _ (by simp), holds, ?_⟩
  · rw [← wf.params] at run
    exact run
  · apply mem_addAll_iff_least _ drawn
    intro S unmarked
    obtain ⟨M, above, greatest⟩ := exists_greatest_above (fun T member => member.1) unmarked
    exact ⟨M, collected M greatest, above⟩

/-- `getBottomSchemas` returns the minimal unmarked schemas. A stale flag can only hide the
whole test case, which is faulty anyway. -/
theorem getBottomSchemas_eq (wf : trt.Wf n) :
    ∃ b found bottoms, trt.getBottomSchemas = .ok ({ trt with flag := b }, found) ∧
      ({ trt with flag := b } : TRT).Wf n ∧
      found.Holds n true bottoms ∧
        ∀ S, S ∈ bottoms ↔ Least (· ⊆ ·) (Unmarked n trt) S := by
  obtain ⟨b, out, found, run, words, explored, holds⟩ := collect_eq false (r := (· ⊆ ·))
    add'_minimal (fun trt i => trt.faulty.get i)
    (fun trt i => !trt.healthy.get i) (fun _ _ => rfl) (fun _ _ => rfl) wf
    (ofFlag_false_wf n) (trt.flag.setRange 0 (trt.flag.size - 1) false) wf.words
  have stale := marks_cleared_short_subset wf.positive wf.words
  rw [ofFlag_false_bits] at explored
  obtain ⟨news, same, mem⟩ := explored.out
  simp only [List.nil_append] at same
  subst same
  have asked : ∀ S ⊆ Finset.range n,
      ((!trt.faulty.get (code S) && !trt.healthy.get (code S)) = true ↔ Unmarked n trt S) := by
    intro S within
    simp [get_code within, Unmarked, within, and_comm]
  have drawn : ∀ S ∈ out, Unmarked n trt S := by
    intro S member
    obtain ⟨seen, _, wanted⟩ := (mem S).mp member
    exact (asked S (mem_marks.mp seen).1).mp wanted
  have collected : ∀ S, Least (· ⊆ ·) (Unmarked n trt) S → S ∈ out := by
    rintro S ⟨⟨within, notHealthy, notFaulty⟩, least⟩
    have fresh : ∀ T, T ≠ Finset.range n →
        T ∉ marks n (trt.flag.setRange 0 (trt.flag.size - 1) false) := fun T other old =>
      other (Finset.mem_singleton.mp (stale old))
    have notWhole : S ≠ Finset.range n := by
      rintro rfl
      exact notFaulty wf.whole
    refine (mem S).mpr ⟨explored.reaches ?_, fresh S notWhole,
      (asked S within).mpr ⟨within, notHealthy, notFaulty⟩⟩
    refine Relation.ReflTransGen.mono (fun a b step => ⟨step.1, step.2⟩) _ _
      (additions_path
        (P := fun T => (!trt.faulty.get (code T) && !!trt.healthy.get (code T)) = true ∧
        T ∉ marks n (trt.flag.setRange 0 (trt.flag.size - 1) false)) within
          (Finset.empty_subset S)
        fun T above below => ⟨?_, fresh T fun whole => below.2 (whole ▸ within)⟩)
    have inside : T ⊆ Finset.range n := below.subset.trans within
    have faulty : T ∉ marks n trt.faulty := fun marked =>
      notFaulty (wf.faultyUp T marked S within below.subset)
    have healthy : T ∈ marks n trt.healthy := by
      by_contra unmarked
      exact below.ne (least T ⟨inside, unmarked, faulty⟩ below.subset)
    simp [get_code inside, healthy, faulty]
  refine ⟨b, found, _, ?_, wf.with_flag words, holds, ?_⟩
  · rw [← wf.params] at run
    exact run
  · apply mem_addAll_iff_least _ drawn
    intro S unmarked
    obtain ⟨M, below, least⟩ := exists_least_below unmarked
    exact ⟨M, collected M least, below⟩

/-- `getMFS` returns the minimal faulty schemas, the whole test case left out when its flag
is stale. -/
theorem getMFS_eq (wf : trt.Wf n) :
    ∃ b found faults, trt.getMFS = .ok ({ trt with flag := b }, found) ∧
      ({ trt with flag := b } : TRT).Wf n ∧ found.Holds n true faults ∧
      ∀ S, S ∈ faults ↔ Least (· ⊆ ·) (fun S => S ∈ marks n trt.faulty ∧
        ¬ (S = Finset.range n ∧ 6 ≤ n ∧ Finset.range n ∈ marks n trt.flag)) S := by
  obtain ⟨b, out, found, run, words, explored, holds⟩ := collect_eq false (r := (· ⊆ ·))
    add'_minimal (fun _ _ => false)
    (fun trt i => trt.faulty.get i) (fun _ _ => rfl) (fun _ _ => rfl) wf
    (ofFlag_false_wf n) (trt.flag.setRange 0 (trt.flag.size - 1) false) wf.words
  have stale : ∀ S, S ∈ marks n (trt.flag.setRange 0 (trt.flag.size - 1) false) ↔
      S = Finset.range n ∧ 6 ≤ n ∧ Finset.range n ∈ marks n trt.flag := by
    intro S
    rw [marks_cleared_short wf.positive wf.words]
    split
    · rename_i holds
      simp [holds]
    · rename_i fails
      simp only [Finset.notMem_empty, false_iff]
      exact fun both => fails both.2
  rw [ofFlag_false_bits] at explored
  obtain ⟨news, same, mem⟩ := explored.out
  simp only [List.nil_append] at same
  subst same
  have drawn : ∀ S ∈ out, S ∈ marks n trt.faulty ∧
      ¬ (S = Finset.range n ∧ 6 ≤ n ∧ Finset.range n ∈ marks n trt.flag) := by
    intro S member
    obtain ⟨seen, fresh, wanted⟩ := (mem S).mp member
    refine ⟨?_, fun old => fresh ((stale S).mpr old)⟩
    simpa [get_code (mem_marks.mp seen).1] using wanted
  have collected : ∀ S, Least (· ⊆ ·) (· ∈ marks n trt.faulty) S →
      ¬ (S = Finset.range n ∧ 6 ≤ n ∧ Finset.range n ∈ marks n trt.flag) →
        S ∈ out := by
    rintro S ⟨faulty, least⟩ notStale
    have within := (mem_marks.mp faulty).1
    refine (mem S).mpr ⟨explored.reaches ?_, fun old => notStale ((stale S).mp old),
      by simp [get_code within, faulty]⟩
    refine Relation.ReflTransGen.mono (fun a b step => ⟨step.1, step.2⟩) _ _
      (additions_path (P := fun T => (!false && !trt.faulty.get (code T)) = true ∧
        T ∉ marks n (trt.flag.setRange 0 (trt.flag.size - 1) false)) within
          (Finset.empty_subset S)
        fun T above below => ⟨?_, fun old => below.2 (((stale T).mp old).1 ▸ within)⟩)
    have healthy : T ∉ marks n trt.faulty := fun marked => below.ne (least T marked below.subset)
    simp [get_code (below.subset.trans within), healthy]
  refine ⟨b, found, _, ?_, wf.with_flag words, holds, ?_⟩
  · rw [← wf.params] at run
    exact run
  · apply mem_addAll_iff_least _ drawn
    rintro S ⟨faulty, notStale⟩
    obtain ⟨M, below, least⟩ : ∃ M,
        M ⊆ S ∧ Least (· ⊆ ·) (· ∈ marks n trt.faulty) M :=
      exists_least_below faulty
    have within := (mem_marks.mp faulty).1
    have fresh : ¬ (M = Finset.range n ∧ 6 ≤ n ∧ Finset.range n ∈ marks n trt.flag) := by
      rintro ⟨rfl, old⟩
      exact notStale ⟨Finset.Subset.antisymm within below, old⟩
    exact ⟨M, collected M least fresh, below⟩

theorem bitCount_two_pow : ∀ n ≤ 30, bitCount (2 ^ n) = 1 := by decide +kernel

theorem marks_new (n : Nat) {S : Finset Nat} (within : S ⊆ Finset.range n) :
    marks n ((BitSet.new (2 ^ n)).set (code S) true) = {S} := by
  rw [marks_set within]
  simp [marks]

/-- A new table has the two marks that need no check. -/
theorem new_eq (positive : 0 < n) (small : n ≤ 30) :
    ∃ trt, TRT.new n = .ok trt ∧ trt.Wf n ∧ marks n trt.healthy = {∅} ∧
      marks n trt.faulty = {Finset.range n} := by
  have fits : 2 ^ n ≤ 2 ^ 30 := Nat.pow_le_pow_right (by omega) small
  have power := Nat.two_pow_pos n
  have last : 2 ^ n - 1 = code (Finset.range n) := (code_range n).symm
  have first : 0 = code ∅ := Finset.sum_empty.symm
  have healthy : marks n ((BitSet.new (2 ^ n)).set 0 true) = {∅} := by
    rw [first]
    exact marks_new n (Finset.empty_subset _)
  have faulty : marks n ((BitSet.new (2 ^ n)).set (2 ^ n - 1) true) = {Finset.range n} := by
    rw [last]
    exact marks_new n (Finset.Subset.refl _)
  have run : TRT.new n = .ok ⟨n, 2 ^ n, (BitSet.new (2 ^ n)).set 0 true,
      (BitSet.new (2 ^ n)).set (2 ^ n - 1) true, BitSet.new (2 ^ n)⟩ := by
    rw [TRT.new, if_neg (by rw [MAX_VALUE]; omega), bitCount_two_pow n small, if_neg (by simp)]
    rfl
  refine ⟨_, run, ⟨positive, small, rfl, rfl, ?_, ?_, ?_, ?_⟩, healthy, faulty⟩
  · rw [healthy]
    intro S member T sub
    rw [Finset.mem_singleton] at member ⊢
    exact Finset.subset_empty.mp (member ▸ sub)
  · rw [faulty]
    intro S member T within sub
    rw [Finset.mem_singleton] at member ⊢
    exact Finset.Subset.antisymm within (member ▸ sub)
  · rw [healthy]
    exact Finset.mem_singleton_self _
  · rw [faulty]
    exact Finset.mem_singleton_self _

/-- The states of a table over `n` parameters: any marks and any queries, in any order. -/
inductive Reachable (n : Nat) : TRT → Prop
  | new {trt : TRT} (created : TRT.new n = .ok trt) : Reachable n trt
  | top {trt after : TRT} {found : MonotoneSchemaSet} (reached : Reachable n trt)
      (asked : trt.getTopSchemas = .ok (after, found)) : Reachable n after
  | bottom {trt after : TRT} {found : MonotoneSchemaSet} (reached : Reachable n trt)
      (asked : trt.getBottomSchemas = .ok (after, found)) : Reachable n after
  | faults {trt after : TRT} {found : MonotoneSchemaSet} (reached : Reachable n trt)
      (asked : trt.getMFS = .ok (after, found)) : Reachable n after
  | healthy {trt after : TRT} {s : Schema} (reached : Reachable n trt) (schema : s.Wf n)
      (marked : trt.setHealthy s = .ok after) : Reachable n after
  | faulty {trt after : TRT} {s : Schema} (reached : Reachable n trt) (schema : s.Wf n)
      (marked : trt.setFaulty s = .ok after) : Reachable n after

theorem Reachable.wf (positive : 0 < n) (small : n ≤ 30) (reached : Reachable n trt) :
    trt.Wf n := by
  induction reached with
  | new created =>
      obtain ⟨_, run, wf, _⟩ := new_eq positive small
      cases created.symm.trans run
      exact wf
  | top _ asked ih =>
      obtain ⟨_, _, _, run, wf, _⟩ := getTopSchemas_eq ih
      cases asked.symm.trans run
      exact wf
  | bottom _ asked ih =>
      obtain ⟨_, _, _, run, wf, _⟩ := getBottomSchemas_eq ih
      cases asked.symm.trans run
      exact wf
  | faults _ asked ih =>
      obtain ⟨_, _, _, run, wf, _⟩ := getMFS_eq ih
      cases asked.symm.trans run
      exact wf
  | healthy _ schema marked ih =>
      obtain ⟨_, run, wf, _⟩ := setHealthy_eq ih schema
      cases marked.symm.trans run
      exact wf
  | faulty _ schema marked ih =>
      obtain ⟨_, run, wf, _⟩ := setFaulty_eq ih schema
      cases marked.symm.trans run
      exact wf

/-- Both kinds of marks are closed, the healthy ones downwards, the faulty ones upwards. -/
structure Closed (n : Nat) (trt : TRT) : Prop where
  healthyDown : ∀ S ∈ marks n trt.healthy, ∀ T ⊆ S, T ∈ marks n trt.healthy
  faultyUp : ∀ S ∈ marks n trt.faulty, ∀ T ⊆ Finset.range n,
    S ⊆ T → T ∈ marks n trt.faulty

theorem schema2int_surjective (small : n ≤ 30) {i : Int} (low : 0 ≤ i) (high : i < 2 ^ n) :
    ∃ s : Schema, s.Wf n ∧ schema2int s = i := by
  obtain ⟨k, rfl⟩ := Int.eq_ofNat_of_zero_le low
  obtain ⟨S, within, number⟩ := exists_code (n := n) (i := k) (by exact_mod_cast high)
  have bits : (Schema.ofIndices n ((List.range n).filter (· ∈ S))).bits = S := by
    rw [Schema.ofIndices_bits]
    ext j
    rw [List.mem_toFinset, List.mem_filter, List.mem_range, decide_eq_true_eq]
    exact and_iff_right_of_imp fun member => Finset.mem_range.mp (within member)
  have wf : (Schema.ofIndices n ((List.range n).filter (· ∈ S))).Wf n := by
    refine ⟨rfl, ?_⟩
    rw [bits]
    exact within
  exact ⟨_, wf, by rw [schema2int_eq small wf, bits, number]⟩

/-- From every state with closed marks the marking methods close them again and change nothing
else; schemas and the numbers below `2 ^ n` correspond; so the marks are always closed. -/
theorem marking_exact (n : Nat) (positive : 1 ≤ n) (small : n ≤ 30) :
    (∀ (trt : TRT) (s : Schema), trt.num_parameter = n → trt.Closed n → s.Wf n →
      (∃ b, trt.setHealthy s = .ok { trt with healthy := b } ∧
        marks n b = marks n trt.healthy ∪ s.bits.powerset ∧
        ∀ i, 2 ^ n ≤ i → (i ∈ b.bits ↔ i ∈ trt.healthy.bits)) ∧
      ∃ b, trt.setFaulty s = .ok { trt with faulty := b } ∧
        marks n b = marks n trt.faulty ∪ (Finset.range n).powerset.filter (s.bits ⊆ ·) ∧
        ∀ i, 2 ^ n ≤ i → (i ∈ b.bits ↔ i ∈ trt.faulty.bits)) ∧
    (∀ s : Schema, s.Wf n → schema2int s = (∑ i ∈ s.bits, 2 ^ i : Nat) ∧
      0 ≤ schema2int s ∧ schema2int s < 2 ^ n) ∧
    (∀ s other : Schema, s.Wf n → other.Wf n → schema2int s = schema2int other →
      s.equals other = true) ∧
    (∀ i : Int, 0 ≤ i → i < 2 ^ n → ∃ s : Schema, s.Wf n ∧ schema2int s = i) ∧
    ∀ trt, Reachable n trt → trt.Closed n := by
  refine ⟨fun trt s sized closed wf => ⟨?_, ?_⟩, fun s wf => ?_,
    fun s other wf wfO same => ?_,
    fun i low high => schema2int_surjective small low high, fun trt reached => ?_⟩
  · exact setHealthy_marks small sized closed.healthyDown wf
  · exact setFaulty_marks small sized closed.faultyUp wf
  · have number := schema2int_eq small wf
    have bound := code_lt wf.within
    refine ⟨number, ?_, ?_⟩
    · rw [number]
      exact Int.natCast_nonneg _
    · rw [number]
      exact_mod_cast bound
  · rw [schema2int_eq small wf, schema2int_eq small wfO, Nat.cast_inj] at same
    rw [Schema.equals_eq, decide_eq_true_eq]
    exact code_injective same
  · have wf := reached.wf positive small
    exact ⟨wf.healthyDown, wf.faultyUp⟩

/-- The first mark in a table over three parameters. -/
theorem marking_exact_three : ∃ trt b, TRT.new 3 = .ok trt ∧
    trt.setHealthy (Schema.ofIndices 3 [0, 1]) = .ok { trt with healthy := b } ∧
    marks 3 b = marks 3 trt.healthy ∪ Finset.powerset {0, 1} := by
  obtain ⟨marking, _, _, _, closed⟩ := marking_exact 3 (by decide) (by decide)
  obtain ⟨trt, created, wf, _⟩ := new_eq (n := 3) (by decide) (by decide)
  have schema : (Schema.ofIndices 3 [0, 1]).Wf 3 := ⟨rfl, by decide⟩
  obtain ⟨⟨b, run, marked, _⟩, _⟩ :=
    marking trt _ wf.params (closed trt (.new created)) schema
  rw [Schema.ofIndices_bits] at marked
  exact ⟨trt, b, created, run, marked⟩

end TRT

end NoPend
