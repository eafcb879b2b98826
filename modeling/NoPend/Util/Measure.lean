import NoPend.Common.Comb
import Mathlib.Algebra.Order.Field.Rat
import Mathlib.Tactic.Linarith
import Mathlib.Tactic.NormNum

set_option autoImplicit false

/- `Measure`: the scores of a set of identified combinations, in exact arithmetic. -/
namespace NoPend

namespace Measure

/-- A division of doubles; a division by zero is no number. -/
def quotient (x y : Rat) : Option Rat := if y = 0 then none else some (x / y)

/-- The loop both scores run: how many of the listed combinations the set holds. -/
def cnt (MFC_set : HashSet Comb) (combs : List Comb) : Nat :=
  combs.foldl (fun cnt comb => if MFC_set.contains comb then cnt + 1 else cnt) 0

/-- The combinations that are found among `base`, for each element of `base`. -/
def share (base combs : List Comb) : Option Rat :=
  if base.isEmpty then some 1
  else
    let MFC_set : HashSet Comb := HashSet.empty.addAll base
    quotient (cnt MFC_set combs) MFC_set.size

end Measure

def Measure.recall (MFC_real MFC_identified : List Comb) : Option Rat :=
  Measure.share MFC_real MFC_identified

def Measure.precision (MFC_real MFC_identified : List Comb) : Option Rat :=
  Measure.share MFC_identified MFC_real

def Measure.f1 (MFC_real MFC_identified : List Comb) : Option Rat := do
  let r ← Measure.recall MFC_real MFC_identified
  let p ← Measure.precision MFC_real MFC_identified
  Measure.quotient (2 * r * p) (r + p)

namespace Measure

variable {base combs : List Comb}

theorem cnt_eq (base combs : List Comb) :
    cnt (HashSet.empty.addAll base) combs = (combs.filter (· ∈ base)).length := by
  have general : ∀ (combs : List Comb) (start : Nat),
      combs.foldl (fun cnt comb =>
        if (HashSet.empty.addAll base).contains comb then cnt + 1 else cnt)
        start = start + (combs.filter (· ∈ base)).length := by
    intro combs
    induction combs with
    | nil => simp
    | cons comb rest ih =>
        intro start
        have test : (HashSet.empty.addAll base).contains comb = decide (comb ∈ base) := by
          simp [HashSet.contains]
        rw [List.foldl_cons, ih, test, List.filter_cons]
        by_cases there : comb ∈ base
        · simp only [there, decide_true, if_true, List.length_cons]
          omega
        · simp [there]
  rw [cnt, general, Nat.zero_add]

theorem size_eq (base : List Comb) : (HashSet.empty.addAll base).size = base.toFinset.card := by
  have same : (HashSet.empty.addAll base).toList.toFinset = base.toFinset := by
    ext comb
    rw [List.mem_toFinset, HashSet.mem_toList, HashSet.mem_addAll, List.mem_toFinset]
    simp
  rw [← same, List.toFinset_card_of_nodup (HashSet.nodup _)]
  rfl

theorem card_pos (nonempty : base ≠ []) : 0 < base.toFinset.card := by
  obtain ⟨comb, rest, rfl⟩ := List.exists_cons_of_ne_nil nonempty
  exact Finset.card_pos.mpr ⟨comb, by simp⟩

/-- No division by zero within one score. -/
theorem share_eq (nonempty : base ≠ []) :
    share base combs = some (((combs.filter (· ∈ base)).length : Rat) / base.toFinset.card) := by
  have positive := card_pos nonempty
  have guard : ¬ base.isEmpty = true := by simpa using nonempty
  have divisor : ((HashSet.empty.addAll base).size : Rat) ≠ 0 := by
    rw [size_eq]
    exact Nat.cast_ne_zero.mpr positive.ne'
  rw [share, if_neg guard]
  change quotient _ _ = _
  rw [quotient, if_neg divisor, cnt_eq, size_eq]

/-- The loop counts the common combinations exactly when none of them is listed twice. -/
theorem length_filter_eq_iff :
    (combs.filter (· ∈ base)).length = (base.toFinset ∩ combs.toFinset).card ↔
      ∀ comb ∈ base, combs.count comb ≤ 1 := by
  have common : (combs.filter (· ∈ base)).toFinset = base.toFinset ∩ combs.toFinset := by
    ext comb
    simp [and_comm]
  rw [← common, eq_comm]
  have once : (combs.filter (· ∈ base)).toFinset.card = (combs.filter (· ∈ base)).length ↔
      (combs.filter (· ∈ base)).Nodup := by
    rw [← Multiset.coe_nodup, ← Multiset.toFinset_card_eq_card_iff_nodup, Multiset.coe_card]
    rfl
  rw [once, List.nodup_iff_count_le_one]
  constructor
  · intro single comb there
    have bound := single comb
    rwa [List.count_filter (by simpa using there)] at bound
  · intro single comb
    by_cases there : comb ∈ base
    · rw [List.count_filter (by simpa using there)]
      exact single comb there
    · rw [List.count_eq_zero_of_not_mem]
      · exact Nat.zero_le 1
      · simp [there]

theorem share_eq_iff (nonempty : base ≠ []) :
    share base combs = some
      (((base.toFinset ∩ combs.toFinset).card : Rat) / base.toFinset.card) ↔
      ∀ comb ∈ base, combs.count comb ≤ 1 := by
  have divisor : (base.toFinset.card : Rat) ≠ 0 := Nat.cast_ne_zero.mpr (card_pos nonempty).ne'
  rw [share_eq nonempty, Option.some.injEq, div_left_inj' divisor, Nat.cast_inj]
  exact length_filter_eq_iff

/-- A score without repetitions is a ratio, and vanishes only where nothing is found. -/
theorem share_range (single : ∀ comb ∈ base, combs.count comb ≤ 1) :
    ∃ x, share base combs = some x ∧ 0 ≤ x ∧ x ≤ 1 ∧
      (x = 0 ↔ base ≠ [] ∧ ∀ comb ∈ base, comb ∉ combs) := by
  by_cases nonempty : base = []
  · subst nonempty
    exact ⟨1, rfl, by norm_num, le_refl 1, by simp⟩
  · have positive : (0 : Rat) < base.toFinset.card := Nat.cast_pos.mpr (card_pos nonempty)
    have part : ((base.toFinset ∩ combs.toFinset).card : Rat) ≤ base.toFinset.card :=
      Nat.cast_le.mpr (Finset.card_le_card Finset.inter_subset_left)
    refine ⟨_, (share_eq_iff nonempty).mpr single, ?_, ?_, ?_⟩
    · exact div_nonneg (Nat.cast_nonneg _) positive.le
    · exact (div_le_one positive).mpr part
    · rw [div_eq_zero_iff, or_iff_left positive.ne', Nat.cast_eq_zero, Finset.card_eq_zero,
        Finset.eq_empty_iff_forall_notMem]
      simp [nonempty]

/-- The harmonic mean of two ratios that are not both zero. -/
theorem quotient_range {r p : Rat} (r0 : 0 ≤ r) (r1 : r ≤ 1) (p0 : 0 ≤ p) (p1 : p ≤ 1)
    (sum : r + p ≠ 0) : ∃ f, quotient (2 * r * p) (r + p) = some f ∧ 0 ≤ f ∧ f ≤ 1 := by
  have positive : 0 < r + p := lt_of_le_of_ne (add_nonneg r0 p0) sum.symm
  have product : 0 ≤ r * p := mul_nonneg r0 p0
  have left : r * p ≤ r := mul_le_of_le_one_right r0 p1
  have right : r * p ≤ p := mul_le_of_le_one_left p0 r1
  refine ⟨2 * r * p / (r + p), by rw [quotient, if_neg sum], ?_, ?_⟩
  · apply div_nonneg _ positive.le
    linarith [mul_assoc 2 r p]
  · rw [div_le_one positive]
    linarith [mul_assoc 2 r p]

/-- The scores are ratios of the sets of real and of identified combinations. -/
structure Proper (MFC_real MFC_identified : List Comb) : Prop where
  recall_eq : MFC_real ≠ [] → Measure.recall MFC_real MFC_identified =
    some (((MFC_real.toFinset ∩ MFC_identified.toFinset).card : Rat) / MFC_real.toFinset.card)
  precision_eq : MFC_identified ≠ [] → Measure.precision MFC_real MFC_identified =
    some (((MFC_real.toFinset ∩ MFC_identified.toFinset).card : Rat)
      / MFC_identified.toFinset.card)
  recall_range : ∃ r, Measure.recall MFC_real MFC_identified = some r ∧ 0 ≤ r ∧ r ≤ 1
  precision_range : ∃ p,
    Measure.precision MFC_real MFC_identified = some p ∧ 0 ≤ p ∧ p ≤ 1
  f1_range : ∃ f, Measure.f1 MFC_real MFC_identified = some f ∧ 0 ≤ f ∧ f ≤ 1

variable {MFC_real MFC_identified : List Comb}

/-- Where the loop of `precision` meets no combination twice, `f1` divides by zero exactly if
both lists have elements and no common one. -/
theorem f1_eq (once : MFC_identified.Nodup)
    (single : ∀ comb ∈ MFC_identified, MFC_real.count comb ≤ 1) :
    (∃ f, Measure.f1 MFC_real MFC_identified = some f ∧ 0 ≤ f ∧ f ≤ 1) ↔
      MFC_real = [] ∨ MFC_identified = [] ∨ ∃ comb ∈ MFC_real, comb ∈ MFC_identified := by
  have found : ∀ comb ∈ MFC_real, MFC_identified.count comb ≤ 1 :=
    fun comb _ => List.nodup_iff_count_le_one.mp once comb
  obtain ⟨r, recalled, r0, r1, rZero⟩ := share_range found
  obtain ⟨p, precise, p0, p1, pZero⟩ := share_range single
  have score : Measure.f1 MFC_real MFC_identified = quotient (2 * r * p) (r + p) := by
    rw [Measure.f1, Measure.recall, Measure.precision, recalled, precise]
    rfl
  have zero : r + p = 0 ↔ r = 0 ∧ p = 0 := add_eq_zero_iff_of_nonneg r0 p0
  rw [score]
  constructor
  · rintro ⟨f, defined, _⟩
    by_contra none
    push Not at none
    obtain ⟨real, identified, apart⟩ := none
    have sum : r + p = 0 :=
      zero.mpr ⟨rZero.mpr ⟨real, apart⟩,
        pZero.mpr ⟨identified, fun comb there back => apart comb back there⟩⟩
    rw [quotient, if_pos sum] at defined
    exact absurd defined (by rintro ⟨⟩)
  · intro some
    apply quotient_range r0 r1 p0 p1
    intro sum
    obtain ⟨real, apart⟩ := rZero.mp (zero.mp sum).1
    obtain ⟨identified, _⟩ := pZero.mp (zero.mp sum).2
    rcases some with none | none | ⟨comb, left, right⟩
    · exact real none
    · exact identified none
    · exact apart comb left right

/-- The scores are proper ratios exactly if no identified combination is listed twice among the
real ones, and lists that both have elements have a common one. -/
theorem proper_iff (MFC_real MFC_identified : List Comb) (once : MFC_identified.Nodup) :
    Proper MFC_real MFC_identified ↔
      (∀ comb ∈ MFC_identified, MFC_real.count comb ≤ 1) ∧
        (MFC_real = [] ∨ MFC_identified = [] ∨
          ∃ comb ∈ MFC_real, comb ∈ MFC_identified) := by
  have found : ∀ comb ∈ MFC_real, MFC_identified.count comb ≤ 1 :=
    fun comb _ => List.nodup_iff_count_le_one.mp once comb
  constructor
  · intro proper
    have single : ∀ comb ∈ MFC_identified, MFC_real.count comb ≤ 1 := by
      by_cases nonempty : MFC_identified = []
      · simp [nonempty]
      · rw [← share_eq_iff nonempty, Finset.inter_comm]
        exact proper.precision_eq nonempty
    exact ⟨single, (f1_eq once single).mp proper.f1_range⟩
  · rintro ⟨single, some⟩
    obtain ⟨r, recalled, r0, r1, _⟩ := share_range found
    obtain ⟨p, precise, p0, p1, _⟩ := share_range single
    refine ⟨fun nonempty => (share_eq_iff nonempty).mpr found, fun nonempty => ?_,
      ⟨r, recalled, r0, r1⟩, ⟨p, precise, p0, p1⟩, (f1_eq once single).mpr some⟩
    rw [Finset.inter_comm]
    exact (share_eq_iff nonempty).mpr single

/-- Two real combinations, of which one is identified beside one that is not real. -/
theorem proper_overlapping :
    Proper [⟨.comb, [1, Comb.UNKNOWN, Comb.UNKNOWN]⟩, ⟨.comb, [Comb.UNKNOWN, 1, 1]⟩]
      [⟨.comb, [Comb.UNKNOWN, Comb.UNKNOWN, 1]⟩,
        ⟨.comb, [1, Comb.UNKNOWN, Comb.UNKNOWN]⟩] :=
  (proper_iff _ _ (by decide)).mpr ⟨by decide, .inr (.inr (by decide))⟩

/-- A real combination listed twice doubles the precision; without a common combination `f1`
is no number. -/
theorem improper :
    (Measure.precision [⟨.comb, [1, Comb.UNKNOWN]⟩, ⟨.comb, [1, Comb.UNKNOWN]⟩]
        [⟨.comb, [1, Comb.UNKNOWN]⟩] = some 2 ∧
      ¬ Proper [⟨.comb, [1, Comb.UNKNOWN]⟩, ⟨.comb, [1, Comb.UNKNOWN]⟩]
        [⟨.comb, [1, Comb.UNKNOWN]⟩]) ∧
    Measure.f1 [⟨.comb, [1, Comb.UNKNOWN]⟩] [⟨.comb, [Comb.UNKNOWN, 1]⟩] = none ∧
      ¬ Proper [⟨.comb, [1, Comb.UNKNOWN]⟩] [⟨.comb, [Comb.UNKNOWN, 1]⟩] := by
  have double : Measure.precision [⟨.comb, [1, Comb.UNKNOWN]⟩, ⟨.comb, [1, Comb.UNKNOWN]⟩]
      [⟨.comb, [1, Comb.UNKNOWN]⟩] = some 2 := by
    rw [Measure.precision, share_eq (List.cons_ne_nil _ _)]
    norm_num [Comb.UNKNOWN]
  have zero : ∀ a b : Comb, a ≠ b → share [a] [b] = some 0 := by
    intro a b apart
    rw [share_eq (List.cons_ne_nil _ _)]
    simp [apart.symm]
  have undefined : Measure.f1 [⟨.comb, [1, Comb.UNKNOWN]⟩] [⟨.comb, [Comb.UNKNOWN, 1]⟩] =
      none := by
    rw [Measure.f1, Measure.recall, Measure.precision, zero _ _ (by decide), zero _ _ (by decide)]
    exact if_pos (add_zero 0)
  refine ⟨⟨double, fun proper => ?_⟩, undefined, fun proper => ?_⟩
  · obtain ⟨p, precise, _, bound⟩ := proper.precision_range
    rw [Option.some.inj (precise.symm.trans double)] at bound
    exact absurd bound (by norm_num)
  · obtain ⟨f, defined, _⟩ := proper.f1_range
    exact absurd (defined.symm.trans undefined) (by rintro ⟨⟩)

end Measure

end NoPend
