import NoPend.Common.Comb
import NoPend.Util.Combinatorics

set_option autoImplicit false

/- The parts of a test case, listed by the number of parameters they fix. -/
namespace NoPend

namespace Testcase

/-- `tWayComb(t)`. A negative capacity makes the constructor of the result list throw. -/
def tWayComb (combination : Combination) (testcase : Testcase) (t : Nat) :
    Except Exn (List Comb) := do
  let capacity ← Combinatorics.n_choose_k testcase.size t
  if capacity < 0 then throw (.illegalArgument ("Illegal Capacity: " ++ toString capacity))
  (combination.of (List.range testcase.size) t).mapM (Comb.ofIndices testcase)

def powerSet (combination : Combination) (testcase : Testcase) : Except Exn (List Comb) := do
  let levels ← (List.range' 1 testcase.size).mapM (tWayComb combination testcase)
  return levels.flatten

end Testcase

variable {n : Nat} {t : Testcase}

theorem Comb.ofIndices_eq {c : Comb} {indices : List Nat} (within : ∀ i ∈ indices, i < c.size) :
    Comb.ofIndices c indices = .ok (c.restrict indices.toFinset) := by
  have loop : ∀ (indices : List Nat) (S : Finset Nat), (∀ i ∈ indices, i < c.size) →
      indices.foldlM (fun part index => do Comb.set part index (← c.get index)) (c.restrict S) =
        .ok (c.restrict (S ∪ indices.toFinset)) := by
    intro indices
    induction indices with
    | nil => simp [pure, Except.pure]
    | cons i rest ih =>
        intro S within
        have inside : i < c.size := within i (by simp)
        have step : (c.restrict S).set i (c.val i) = .ok (c.restrict (insert i S)) :=
          Comb.set_restrict_insert .comb S inside
        rw [List.foldlM_cons, Comb.get_eq_val inside]
        simp only [bind, Except.bind, step]
        rw [List.toFinset_cons, Finset.union_insert, ← Finset.insert_union]
        exact ih (insert i S) fun j member => within j (by simp [member])
  have start : Comb.ofSize c.size = c.restrict ∅ := by
    simp [Comb.ofSize, Comb.restrict]
  rw [Comb.ofIndices, start, loop indices ∅ within, Finset.empty_union]

/-- The parts of a test case on the subsets of `xs` that `Combination` lists. -/
theorem mem_parts_iff (combination : Combination) {xs : List Nat} (nodup : xs.Nodup) {k : Nat}
    {c : Comb} : (c ∈ (combination.of xs k).map fun ys => t.restrict ys.toFinset) ↔
      ∃ S ∈ Finset.powersetCard k xs.toFinset, t.restrict S = c := by
  simp only [List.mem_map, ← combination.mem_of k nodup]
  constructor
  · rintro ⟨ys, member, rfl⟩
    exact ⟨ys.toFinset, ⟨ys, member, rfl⟩, rfl⟩
  · rintro ⟨_, ⟨ys, member, rfl⟩, rfl⟩
    exact ⟨ys, member, rfl⟩

theorem mapM_ofIndices_eq (combination : Combination) {xs : List Nat} (nodup : xs.Nodup)
    (within : ∀ i ∈ xs, i < t.size) (k : Nat) :
    (combination.of xs k).mapM (Comb.ofIndices t) =
      .ok ((combination.of xs k).map fun ys => t.restrict ys.toFinset) := by
  refine Except.mapM_ok fun ys member => Comb.ofIndices_eq fun i there => ?_
  exact within i (combination.subset_of_mem nodup member i there)

/-- With any capacity that is not negative the parts are listed. -/
theorem tWayComb_of_capacity (combination : Combination) (size : t.size = n) {k : Nat}
    {capacity : Int} (computed : Combinatorics.n_choose_k n k = .ok capacity)
    (allowed : 0 ≤ capacity) :
    Testcase.tWayComb combination t k =
      .ok ((combination.of (List.range n) k).map fun ys => t.restrict ys.toFinset) := by
  rw [Testcase.tWayComb, size, computed]
  simp only [bind, Except.bind, if_neg (not_lt.mpr allowed)]
  refine mapM_ofIndices_eq combination List.nodup_range (fun i member => ?_) k
  rw [size]
  exact List.mem_range.mp member

theorem capacity_of_small {k : Nat} (small : n.choose k < 2 ^ 31) : 0 ≤ wrap (n.choose k) :=
  (Int.natCast_nonneg _).trans_eq (Combinatorics.wrap_choose small).symm

theorem tWayComb_eq (combination : Combination) (size : t.size = n) {k : Nat} (le : k ≤ n)
    (small : n.choose k < 2 ^ 31) :
    Testcase.tWayComb combination t k =
      .ok ((combination.of (List.range n) k).map fun ys => t.restrict ys.toFinset) :=
  tWayComb_of_capacity combination size (Combinatorics.n_choose_k_ok le small)
    (Int.natCast_nonneg _)

/-- If `tWayComb` returns, the capacity is not negative. -/
theorem capacity_of_tWayComb {combination : Combination} {k : Nat} {combs : List Comb}
    (done : Testcase.tWayComb combination t k = .ok combs) {capacity : Int}
    (computed : Combinatorics.n_choose_k t.size k = .ok capacity) : 0 ≤ capacity := by
  obtain ⟨_, same, rest⟩ := Except.bind_ok.mp done
  obtain rfl := Except.ok.inj (computed.symm.trans same)
  by_contra negative
  rw [if_pos (not_le.mp negative)] at rest
  cases rest

/-- If `tWayComb` returns, it returns all parts of this size. -/
theorem mem_tWayComb {combination : Combination} {k : Nat} {combs : List Comb}
    (done : Testcase.tWayComb combination t k = .ok combs) {c : Comb} :
    c ∈ combs ↔ ∃ S ∈ Finset.powersetCard k (Finset.range t.size), t.restrict S = c := by
  obtain ⟨capacity, _, rest⟩ := Except.bind_ok.mp done
  split at rest
  · cases rest
  · rw [← List.toFinset_range, ← mem_parts_iff combination List.nodup_range]
    have listed := mapM_ofIndices_eq (t := t) combination List.nodup_range
      (fun i member => List.mem_range.mp member) k
    rw [Except.ok.inj (listed.symm.trans rest)]

/-- The power set holds the parts that fix at least one parameter. -/
theorem powerSet_eq (combination : Combination) (size : t.size = n)
    (small : ∀ k, n.choose k < 2 ^ 31) :
    ∃ combs, Testcase.powerSet combination t = .ok combs ∧
      ∀ c, c ∈ combs ↔ ∃ S ⊆ Finset.range n, S.Nonempty ∧ t.restrict S = c := by
  have levels : (List.range' 1 t.size).mapM (Testcase.tWayComb combination t) =
      .ok ((List.range' 1 t.size).map fun k =>
        (combination.of (List.range n) k).map fun ys => t.restrict ys.toFinset) := by
    refine Except.mapM_ok fun k member => tWayComb_eq combination size ?_ (small k)
    rw [size] at member
    obtain ⟨_, high⟩ := List.mem_range'_1.mp member
    omega
  refine ⟨_, by rw [Testcase.powerSet, levels]; rfl, fun c => ?_⟩
  have level : ∀ k,
      (c ∈ (combination.of (List.range n) k).map fun ys => t.restrict ys.toFinset) ↔
      ∃ S ∈ Finset.powersetCard k (Finset.range n), t.restrict S = c := by
    intro k
    rw [mem_parts_iff combination List.nodup_range, List.toFinset_range]
  simp only [List.mem_flatten, List.mem_map, List.mem_range'_1, size, exists_exists_and_eq_and]
  constructor
  · rintro ⟨k, ⟨low, _⟩, member⟩
    obtain ⟨S, inLevel, same⟩ := (level k).mp (by simpa using member)
    obtain ⟨within, card⟩ := Finset.mem_powersetCard.mp inLevel
    exact ⟨S, within, Finset.card_pos.mp (by omega), same⟩
  · rintro ⟨S, within, nonempty, same⟩
    have most := Finset.card_le_card within
    rw [Finset.card_range] at most
    have least := Finset.card_pos.mpr nonempty
    refine ⟨S.card, ⟨least, by omega⟩, ?_⟩
    simpa using (level S.card).mpr ⟨S, Finset.mem_powersetCard.mpr ⟨within, rfl⟩, same⟩

/-- For a binary test case these are the non-empty combinations that it contains. -/
theorem powerSet_binary (combination : Combination) (binary : t.Binary n)
    (small : ∀ k, n.choose k < 2 ^ 31) :
    ∃ combs, Testcase.powerSet combination t = .ok combs ∧
      ∀ c, c ∈ combs ↔ c.cls = .comb ∧ c.fixed.Nonempty ∧ t.Contains c := by
  obtain ⟨combs, listed, mem⟩ := powerSet_eq combination binary.size small
  refine ⟨combs, listed, fun c => (mem c).trans ⟨?_, ?_⟩⟩
  · rintro ⟨S, within, nonempty, rfl⟩
    exact ⟨rfl, by rwa [binary.restrict_fixed within], Comb.contains_restrict t S⟩
  · rintro ⟨cls, nonempty, inside⟩
    refine ⟨c.fixed, ?_, nonempty, Comb.restrict_fixed_eq cls inside⟩
    rw [← binary.fixed_eq]
    exact inside.fixed_subset

/-- The enumeration of the `k`-way parts, with the capacity that is computed for it. -/
structure Testcase.ListedExactly (combination : Combination) (t : Testcase) (k : Nat) : Prop where
  division : ∀ m ≤ t.size,
    ((List.range' 1 m).foldl (Combinatorics.multiply t.size) (1, 1)).2 ∣
    ((List.range' 1 m).foldl (Combinatorics.multiply t.size) (1, 1)).1
  capacity : Combinatorics.n_choose_k t.size k = .ok (t.size.choose k)
  listed : ∃ combs, Testcase.tWayComb combination t k = .ok combs ∧ combs.Nodup ∧
    combs.length = t.size.choose k ∧
      ∀ c, c ∈ combs ↔ c.cls = .comb ∧ c.fixed.card = k ∧ t.Contains c

/-- The parts of size `k` fix just the parameters they were taken on. -/
theorem restrict_fixed_of_filled {k : Nat}
    (filled : k = 0 ∨ ∀ i < t.size, t.val i ≠ Comb.UNKNOWN)
    {S : Finset Nat} (level : S ∈ Finset.powersetCard k (Finset.range t.size)) :
    (t.restrict S).fixed = S := by
  obtain ⟨within, card⟩ := Finset.mem_powersetCard.mp level
  rw [Comb.restrict_fixed, Finset.inter_eq_right]
  rcases filled with rfl | complete
  · rw [Finset.card_eq_zero.mp card]
    exact Finset.empty_subset _
  · intro i member
    exact Comb.mem_fixed.mpr (complete i (Finset.mem_range.mp (within member)))

theorem parts_nodup (combination : Combination) {k : Nat}
    (filled : k = 0 ∨ ∀ i < t.size, t.val i ≠ Comb.UNKNOWN) :
    ((combination.of (List.range t.size) k).map fun ys => t.restrict ys.toFinset).Nodup := by
  have composed : ((combination.of (List.range t.size) k).map fun ys => t.restrict ys.toFinset) =
      ((combination.of (List.range t.size) k).map List.toFinset).map t.restrict := by
    rw [List.map_map]
    rfl
  rw [composed, List.nodup_map_iff_inj_on (combination.once k List.nodup_range)]
  intro S inS T inT same
  rw [combination.mem_of k List.nodup_range, List.toFinset_range] at inS inT
  rw [← restrict_fixed_of_filled filled inS, same, restrict_fixed_of_filled filled inT]

/-- An open parameter shows in a part of every size but 0. -/
theorem filled_of_listed {combination : Combination} {k : Nat} (le : k ≤ t.size)
    (enumeration : Testcase.ListedExactly combination t k) :
    k = 0 ∨ ∀ i < t.size, t.val i ≠ Comb.UNKNOWN := by
  by_cases zero : k = 0
  · exact Or.inl zero
  refine Or.inr fun i inside => ?_
  obtain ⟨combs, done, _, _, mem⟩ := enumeration.listed
  have room : k ≤ (Finset.range t.size).card := by rwa [Finset.card_range]
  have single : ({i} : Finset Nat) ⊆ Finset.range t.size := by simpa using inside
  have least : ({i} : Finset Nat).card ≤ k := by
    rw [Finset.card_singleton]
    omega
  obtain ⟨S, here, within, card⟩ := Finset.exists_subsuperset_card_eq single least room
  have level := Finset.mem_powersetCard.mpr ⟨within, card⟩
  obtain ⟨_, fixed, _⟩ := (mem _).mp ((mem_tWayComb done).mpr ⟨S, level, rfl⟩)
  rw [Comb.restrict_fixed, ← card] at fixed
  have all := Finset.eq_of_subset_of_card_le Finset.inter_subset_right fixed.ge
  have member : i ∈ t.fixed ∩ S := by
    rw [all]
    exact here (Finset.mem_singleton_self i)
  exact Comb.mem_fixed.mp (Finset.mem_inter.mp member).1

/-- The enumeration is exact as long as the number of parts is an `int`, for every test case
that gives all its parameters a value. -/
theorem tWayComb_exact_iff (combination : Combination) (t : Testcase) (k : Nat)
    (le : k ≤ t.size) :
    Testcase.ListedExactly combination t k ↔
      t.size.choose k < 2 ^ 31 ∧ (k = 0 ∨ ∀ i < t.size, t.val i ≠ Comb.UNKNOWN) := by
  constructor
  · intro enumeration
    exact ⟨(Combinatorics.n_choose_k_ok_iff le).mp enumeration.capacity,
      filled_of_listed le enumeration⟩
  · rintro ⟨small, filled⟩
    have done := tWayComb_eq combination rfl le small
    refine ⟨fun m bound => Combinatorics.foldl_multiply_dvd bound,
      Combinatorics.n_choose_k_ok le small, _, done, parts_nodup combination filled,
        ?_, fun c => ?_⟩
    · rw [List.length_map, combination.length_of List.nodup_range, List.length_range]
    · rw [mem_tWayComb done]
      constructor
      · rintro ⟨S, level, rfl⟩
        rw [restrict_fixed_of_filled filled level]
        exact ⟨rfl, (Finset.mem_powersetCard.mp level).2, Comb.contains_restrict t S⟩
      · rintro ⟨cls, card, inside⟩
        have within := inside.1 ▸ c.fixed_subset_range
        exact ⟨c.fixed, Finset.mem_powersetCard.mpr ⟨within, card⟩,
          Comb.restrict_fixed_eq cls inside⟩

/-- The pairs of a test case with three parameters. -/
theorem tWayComb_exact_pairs : Testcase.ListedExactly .sublists ⟨.testcase, [0, 1, 1]⟩ 2 :=
  (tWayComb_exact_iff .sublists ⟨.testcase, [0, 1, 1]⟩ 2 (by decide)).mpr
    ⟨by decide, .inr (by decide)⟩

/-- The quintuples of two hundred parameters: the capacity is negative as an `int`. -/
theorem tWayComb_illegal_capacity :
    Testcase.tWayComb .sublists ⟨.testcase, List.replicate 200 0⟩ 5 =
      .error (.illegalArgument "Illegal Capacity: -1759317256") ∧
    ¬ Testcase.ListedExactly .sublists ⟨.testcase, List.replicate 200 0⟩ 5 := by
  have size : (⟨.testcase, List.replicate 200 0⟩ : Testcase).size = 200 := List.length_replicate
  have capacity : Combinatorics.n_choose_k 200 5 = .ok (-1759317256) := by decide
  have thrown : Testcase.tWayComb .sublists ⟨.testcase, List.replicate 200 0⟩ 5 =
      .error (.illegalArgument "Illegal Capacity: -1759317256") := by
    rw [Testcase.tWayComb, size]
    change (Combinatorics.n_choose_k 200 5 >>= _) = _
    rw [capacity]
    rfl
  refine ⟨thrown, fun enumeration => ?_⟩
  obtain ⟨combs, done, _⟩ := enumeration.listed
  exact absurd (done.symm.trans thrown) (by rintro ⟨⟩)

end NoPend
