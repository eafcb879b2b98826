import NoPend.Common.Java
import Mathlib.Data.Nat.Choose.Basic
import Mathlib.Data.Finset.Powerset
import Mathlib.Data.List.Sublists

set_option autoImplicit false

namespace NoPend

namespace Combinatorics

/-- One round of the loop of `n_choose_k`: `(fraction, denominator)`. -/
def multiply (n : Int) : Int × Int → Nat → Int × Int
  | (fraction, denominator), i => (fraction * (n - i + 1), denominator * i)

/-- `n_choose_k(n, k)`. The quotient is a `BigInteger`; `intValue()` keeps its low 32 bits. -/
def n_choose_k (n k : Int) : Except Exn Int := do
  if k = 0 ∨ k = n then return 1
  if k > n ∨ k < 0 then throw (.illegalArgument "k is invalid!")
  let k := if k > n.tdiv 2 then n - k else k
  let (fraction, denominator) := (List.range' 1 k.toNat).foldl (multiply n) (1, 1)
  return wrap (fraction.tdiv denominator)

/-- The loop computes a falling factorial and a factorial. -/
theorem foldl_multiply {n m : Nat} (le : m ≤ n) :
    (List.range' 1 m).foldl (multiply n) (1, 1) =
      ((n.descFactorial m : Int), (m.factorial : Int)) := by
  induction m with
  | zero => rfl
  | succ m ih =>
      rw [List.range'_concat, List.foldl_append, ih (by omega), Nat.descFactorial_succ,
        Nat.factorial_succ]
      simp only [List.foldl_cons, List.foldl_nil, multiply, Prod.mk.injEq]
      constructor
      · push_cast [Nat.cast_sub (show m ≤ n by omega)]
        ring
      · push_cast
        ring

/-- The division after the loop leaves no remainder. -/
theorem foldl_multiply_dvd {n m : Nat} (le : m ≤ n) :
    ((List.range' 1 m).foldl (multiply n) (1, 1)).2 ∣
      ((List.range' 1 m).foldl (multiply n) (1, 1)).1 := by
  rw [foldl_multiply le]
  exact Int.natCast_dvd_natCast.mpr (Nat.factorial_dvd_descFactorial n m)

/-- The quotient is the binomial coefficient, on both sides of the reflection. -/
theorem n_choose_k_eq {n k : Nat} (le : k ≤ n) : n_choose_k n k = .ok (wrap (n.choose k)) := by
  have one : wrap 1 = 1 := by decide
  unfold n_choose_k
  by_cases trivial : k = 0 ∨ k = n
  · rw [if_pos (by exact_mod_cast trivial)]
    rcases trivial with rfl | rfl
    · simp [one, pure, Except.pure]
    · simp [one, pure, Except.pure]
  · rw [if_neg (by exact_mod_cast trivial), if_neg (by omega)]
    obtain ⟨m, bound, reflected, same⟩ : ∃ m : Nat, m ≤ n ∧
        (if (k : Int) > (n : Int).tdiv 2 then (n : Int) - k else k) = m ∧
          n.choose m = n.choose k := by
      split
      · exact ⟨n - k, by omega, by omega, Nat.choose_symm le⟩
      · exact ⟨k, le, rfl, rfl⟩
    simp only [reflected, Int.toNat_natCast, foldl_multiply bound]
    rw [← Int.ofNat_tdiv, ← Nat.choose_eq_descFactorial_div_factorial, same]
    rfl

theorem wrap_choose {n k : Nat} (small : n.choose k < 2 ^ 31) : wrap (n.choose k) = n.choose k :=
  wrap_of_lt (Int.natCast_nonneg _) (by exact_mod_cast small)

/-- Below `2 ^ 31` nothing is lost in the conversion. -/
theorem n_choose_k_ok {n k : Nat} (le : k ≤ n) (small : n.choose k < 2 ^ 31) :
    n_choose_k n k = .ok (n.choose k) := by
  rw [n_choose_k_eq le, wrap_choose small]

/-- From there on the conversion always loses something. -/
theorem n_choose_k_ok_iff {n k : Nat} (le : k ≤ n) :
    n_choose_k n k = .ok (n.choose k) ↔ n.choose k < 2 ^ 31 := by
  refine ⟨fun same => ?_, n_choose_k_ok le⟩
  rw [n_choose_k_eq le, Except.ok.injEq] at same
  have high : wrap (n.choose k) < 2 ^ 31 := Int.bmod_lt (by decide)
  rw [same] at high
  exact_mod_cast high

end Combinatorics

/-- `Combination.of(xs, k)` of the permutation library: it lists every `k`-subset of a list
without duplicates once, in some order. -/
structure Combination where
  of : List Nat → Nat → List (List Nat)
  once : ∀ {xs : List Nat} (k : Nat), xs.Nodup → ((of xs k).map List.toFinset).Nodup
  mem_of : ∀ {xs : List Nat} (k : Nat), xs.Nodup → ∀ S : Finset Nat,
    S ∈ (of xs k).map List.toFinset ↔ S ∈ Finset.powersetCard k xs.toFinset

namespace Combination

theorem subset_of_mem (combination : Combination) {xs ys : List Nat} {k : Nat} (nodup : xs.Nodup)
    (member : ys ∈ combination.of xs k) : ∀ i ∈ ys, i ∈ xs := by
  intro i there
  have set := (combination.mem_of k nodup ys.toFinset).mp (List.mem_map_of_mem member)
  exact List.mem_toFinset.mp ((Finset.mem_powersetCard.mp set).1 (List.mem_toFinset.mpr there))

theorem length_of (combination : Combination) {xs : List Nat} (nodup : xs.Nodup) (k : Nat) :
    (combination.of xs k).length = xs.length.choose k := by
  have sets : ((combination.of xs k).map List.toFinset).toFinset =
      Finset.powersetCard k xs.toFinset := by
    ext S
    rw [List.mem_toFinset, combination.mem_of k nodup]
  rw [← List.length_map List.toFinset, ← List.toFinset_card_of_nodup (combination.once k nodup),
    sets, Finset.card_powersetCard, List.toFinset_card_of_nodup nodup]

theorem eq_filter_of_sublist {xs ys : List Nat} (sub : ys.Sublist xs) (nodup : xs.Nodup) :
    ys = xs.filter (· ∈ ys) := by
  induction sub with
  | slnil => rfl
  | @cons ys xs x sub ih =>
      obtain ⟨once, nodup⟩ := List.nodup_cons.mp nodup
      have absent : x ∉ ys := fun there => once (sub.subset there)
      rw [List.filter_cons, if_neg (by simpa using absent), ← ih nodup]
  | @cons_cons ys xs x sub ih =>
      obtain ⟨once, nodup⟩ := List.nodup_cons.mp nodup
      have same : xs.filter (· ∈ x :: ys) = xs.filter (· ∈ ys) := by
        refine List.filter_congr fun y member => ?_
        have other : y ≠ x := ne_of_mem_of_not_mem member once
        simp [other]
      rw [List.filter_cons, if_pos (by simp), same, ← ih nodup]

/-- The sublists of length `k`. -/
def sublists : Combination where
  of xs k := xs.sublistsLen k
  once := by
    intro xs k nodup
    refine (List.nodup_map_iff_inj_on (List.nodup_sublistsLen k nodup)).mpr ?_
    intro a inA b inB same
    rw [eq_filter_of_sublist (List.mem_sublistsLen.mp inA).1 nodup,
      eq_filter_of_sublist (List.mem_sublistsLen.mp inB).1 nodup]
    refine List.filter_congr fun y _ => ?_
    simp only [← List.mem_toFinset, same]
  mem_of := by
    intro xs k nodup S
    rw [List.mem_map, Finset.mem_powersetCard]
    constructor
    · rintro ⟨ys, member, rfl⟩
      obtain ⟨sub, length⟩ := List.mem_sublistsLen.mp member
      rw [List.toFinset_card_of_nodup (nodup.sublist sub)]
      exact ⟨fun i there => List.mem_toFinset.mpr (sub.subset (List.mem_toFinset.mp there)),
        length⟩
    · rintro ⟨within, card⟩
      have set : (xs.filter (· ∈ S)).toFinset = S := by
        ext i
        simp only [List.mem_toFinset, List.mem_filter, decide_eq_true_eq, and_iff_right_iff_imp]
        exact fun there => List.mem_toFinset.mp (within there)
      refine ⟨xs.filter (· ∈ S), List.mem_sublistsLen.mpr ⟨List.filter_sublist, ?_⟩, set⟩
      rw [← List.toFinset_card_of_nodup (nodup.filter _), set, card]

end Combination

end NoPend
