import NoPend.Lib.Antichain
import Mathlib.Data.Finset.Powerset
import Mathlib.Order.Minimal

set_option autoImplicit false

/- Families of finite sets: hitting sets, the duality between the sets that avoid a
family and the complements of its hitting sets, and the region two families leave open. -/
namespace SetFamily

open Antichain

variable {α : Type}

/-- `H` shares an element with every member of the family. -/
def Hits (family : List (Finset α)) (H : Finset α) : Prop :=
    ∀ s ∈ family, ∃ i ∈ s, i ∈ H

instance [DecidableEq α] (family : List (Finset α)) (H : Finset α) : Decidable (Hits family H) :=
  inferInstanceAs (Decidable (∀ s ∈ family, _))

theorem Hits.mono {family : List (Finset α)} {H K : Finset α} (hits : Hits family H)
    (sub : H ⊆ K) : Hits family K := by
  intro s member
  obtain ⟨i, inside, hit⟩ := hits s member
  exact ⟨i, inside, sub hit⟩

theorem least_iff_minimal (members : Finset α → Prop) (x : Finset α) :
    Least (· ⊆ ·) members x ↔ Minimal members x := by
  constructor
  · rintro ⟨inside, least⟩
    refine ⟨inside, fun y member below => ?_⟩
    rw [least y member below]
  · rintro ⟨inside, least⟩
    exact ⟨inside, fun y member below => Finset.Subset.antisymm below (least member below)⟩

theorem exists_least_below {members : Finset α → Prop} {x : Finset α} (inside : members x) :
    ∃ y, y ⊆ x ∧ Least (· ⊆ ·) members y := by
  obtain ⟨y, below, minimal⟩ := exists_minimal_le_of_wellFoundedLT members x inside
  exact ⟨y, below, (least_iff_minimal members y).mpr minimal⟩

theorem exists_greatest_above {members : Finset α → Prop} {U x : Finset α}
    (within : ∀ y, members y → y ⊆ U) (inside : members x) :
    ∃ y, x ⊆ y ∧ Least (· ⊇ ·) members y := by
  classical
  have finite : {y | members y}.Finite :=
    (Finset.finite_toSet U.powerset).subset fun y member => by simpa using within y member
  obtain ⟨y, above, maximal⟩ := finite.exists_le_maximal inside
  exact ⟨y, above, maximal.1, fun z member below =>
    Finset.Subset.antisymm (maximal.2 member below) below⟩

/-- A set that neither contains a member of `below` nor lies in a member of `above`. -/
def Pending (below above : List (Finset α)) (S : Finset α) : Prop :=
  ¬ Covers (· ⊆ ·) below S ∧ ¬ Covers (· ⊇ ·) above S

open Classical in
/-- The open region inside `U`. -/
noncomputable def pendingIn (U : Finset α) (below above : List (Finset α)) :
    Finset (Finset α) :=
  U.powerset.filter (Pending below above)

@[simp] theorem mem_pendingIn {U S : Finset α} {below above : List (Finset α)} :
    S ∈ pendingIn U below above ↔ S ⊆ U ∧ Pending below above S := by
  simp only [pendingIn, Finset.mem_filter, Finset.mem_powerset]

theorem pendingIn_card_le (U : Finset α) (below above : List (Finset α)) :
    (pendingIn U below above).card ≤ 2 ^ U.card := by
  classical
  exact (Finset.card_filter_le _ _).trans_eq (Finset.card_powerset U)

/-- Families that cover more, and at least one open set, strictly shrink the region. -/
theorem pendingIn_ssubset {U S : Finset α} {below above below' above' : List (Finset α)}
    (lower : ∀ x, Covers (· ⊆ ·) below x → Covers (· ⊆ ·) below' x)
    (upper : ∀ x, Covers (· ⊇ ·) above x → Covers (· ⊇ ·) above' x)
    (wasOpen : S ∈ pendingIn U below above)
    (closed : Covers (· ⊆ ·) below' S ∨ Covers (· ⊇ ·) above' S) :
    pendingIn U below' above' ⊂ pendingIn U below above := by
  refine (Finset.ssubset_iff_of_subset ?_).mpr ⟨S, wasOpen, ?_⟩
  · intro x member
    rw [mem_pendingIn] at member ⊢
    exact ⟨member.1, fun covered => member.2.1 (lower x covered),
      fun covered => member.2.2 (upper x covered)⟩
  · rw [mem_pendingIn]
    rintro ⟨_, open₁, open₂⟩
    exact closed.elim open₁ open₂

/-- With nothing left open, sound families of an upward closed property are its
least sets and the greatest sets without it. -/
theorem borders_exact {U : Finset α} {below above : List (Finset α)} {bad : Finset α → Prop}
    (up : ∀ s t, s ⊆ t → bad s → bad t)
    (lowIndependent : Independent (· ⊆ ·) below)
    (highIndependent : Independent (· ⊇ ·) above)
    (lowSound : ∀ f ∈ below, f ⊆ U ∧ bad f)
    (highSound : ∀ p ∈ above, p ⊆ U ∧ ¬ bad p) (settled : pendingIn U below above = ∅) :
    (∀ f, f ∈ below ↔ Least (· ⊆ ·) (fun S => S ⊆ U ∧ bad S) f) ∧
      ∀ p, p ∈ above ↔ Least (· ⊇ ·) (fun S => S ⊆ U ∧ ¬ bad S) p := by
  have covered : ∀ S, S ⊆ U → Covers (· ⊆ ·) below S ∨ Covers (· ⊇ ·) above S := by
    intro S inside
    by_contra neither
    rw [not_or] at neither
    have member : S ∈ pendingIn U below above := mem_pendingIn.mpr ⟨inside, neither⟩
    rw [settled] at member
    exact Finset.notMem_empty S member
  constructor
  · refine mem_iff_least _ lowIndependent lowSound ?_
    rintro S ⟨inside, isBad⟩
    rcases covered S inside with low | ⟨p, member, sub⟩
    · exact low
    · exact absurd (up S p sub isBad) (highSound p member).2
  · refine mem_iff_least _ highIndependent highSound ?_
    rintro S ⟨inside, isGood⟩
    rcases covered S inside with ⟨f, member, sub⟩ | high
    · exact absurd (up f S sub (lowSound f member).2) isGood
    · exact high

/-- Along an ascending chain the sets grow by at least one element per step. -/
theorem chain_spread {S : Finset α} {rest : List (Finset α)}
    (ascending : (S :: rest).Pairwise (· ⊂ ·)) :
    ∃ T ∈ S :: rest, S ⊆ T ∧ S.card + rest.length ≤ T.card := by
  induction rest generalizing S with
  | nil => exact ⟨S, by simp, Finset.Subset.refl S, by simp⟩
  | cons next more ih =>
      obtain ⟨first, later⟩ := List.pairwise_cons.mp ascending
      obtain ⟨T, member, above, count⟩ := ih later
      have step : S ⊂ next := first next (by simp)
      have grows := Finset.card_lt_card step
      refine ⟨T, List.mem_cons_of_mem _ member, step.subset.trans above, ?_⟩
      rw [List.length_cons]
      omega

theorem chain_length_le {chain : List (Finset α)} {bound : Nat}
    (ascending : chain.Pairwise (· ⊂ ·))
    (near : ∀ S ∈ chain, ∀ T ∈ chain, S ⊆ T → T.card ≤ S.card + bound) :
    chain.length ≤ bound + 1 := by
  cases chain with
  | nil => simp
  | cons S rest =>
      obtain ⟨T, member, above, count⟩ := chain_spread ascending
      have close := near S (by simp) T member above
      rw [List.length_cons]
      omega

variable [DecidableEq α]

/-- All ways to extend `chosen` by one element of every set it does not hit yet, the
sets taken in order and their elements in the order listed. -/
def branches (chosen : Finset α) : List (List α) → List (Finset α)
  | [] => [chosen]
  | cur :: rest =>
      if ∃ i ∈ cur, i ∈ chosen then branches chosen rest
      else cur.flatMap (fun i => branches (insert i chosen) rest)

theorem branches_extend {sets : List (List α)} {chosen branch : Finset α}
    (member : branch ∈ branches chosen sets) :
    chosen ⊆ branch ∧ Hits (sets.map List.toFinset) branch := by
  induction sets generalizing chosen with
  | nil =>
      simp only [branches, List.mem_singleton] at member
      subst member
      exact ⟨Finset.Subset.refl _, by simp [Hits]⟩
  | cons cur rest ih =>
      rw [branches] at member
      split at member
      · rename_i hit
        obtain ⟨i, inside, already⟩ := hit
        obtain ⟨sub, hits⟩ := ih member
        refine ⟨sub, ?_⟩
        simp only [Hits, List.map_cons, List.mem_cons, forall_eq_or_imp, List.mem_toFinset]
        exact ⟨⟨i, inside, sub already⟩, hits⟩
      · obtain ⟨i, inside, later⟩ := List.mem_flatMap.mp member
        obtain ⟨sub, hits⟩ := ih later
        refine ⟨(Finset.subset_insert i chosen).trans sub, ?_⟩
        simp only [Hits, List.map_cons, List.mem_cons, forall_eq_or_imp, List.mem_toFinset]
        exact ⟨⟨i, inside, sub (Finset.mem_insert_self i chosen)⟩, hits⟩

/-- Below every hitting set that extends `chosen` there is a branch. -/
theorem branches_below {sets : List (List α)} {chosen H : Finset α} (sub : chosen ⊆ H)
    (hits : Hits (sets.map List.toFinset) H) :
    ∃ branch ∈ branches chosen sets, branch ⊆ H := by
  induction sets generalizing chosen with
  | nil => exact ⟨chosen, by simp [branches], sub⟩
  | cons cur rest ih =>
      have later : Hits (rest.map List.toFinset) H := fun s member =>
        hits s (List.mem_cons_of_mem _ member)
      rw [branches]
      split
      · exact ih sub later
      · obtain ⟨i, inside, hit⟩ := hits cur.toFinset (by simp)
        obtain ⟨branch, member, below⟩ := ih (Finset.insert_subset hit sub) later
        exact ⟨branch, List.mem_flatMap.mpr ⟨i, List.mem_toFinset.mp inside, member⟩, below⟩

/-- The least branches are the least hitting sets. -/
theorem mem_addAll_branches (sets : List (List α)) (H : Finset α) :
    H ∈ addAll (· ⊆ ·) (branches ∅ sets) [] ↔
      Least (· ⊆ ·) (Hits (sets.map List.toFinset)) H := by
  apply mem_addAll_iff_least
  · intro x member
    exact (branches_extend member).2
  · intro x hits
    exact branches_below (Finset.empty_subset x) hits

theorem exists_hits (family : List (Finset α)) (nonempty : ∀ s ∈ family, s.Nonempty) :
    ∃ H, Hits family H := by
  refine ⟨family.foldr (· ∪ ·) ∅, fun s member => ?_⟩
  obtain ⟨i, inside⟩ := nonempty s member
  refine ⟨i, inside, ?_⟩
  clear nonempty
  induction family with
  | nil => cases member
  | cons first rest ih =>
      rcases List.mem_cons.mp member with rfl | later
      · exact Finset.mem_union_left _ inside
      · exact Finset.mem_union_right _ (ih later)

theorem hits_sdiff {family : List (Finset α)} {U S : Finset α}
    (within : ∀ f ∈ family, f ⊆ U) :
    Hits family (U \ S) ↔ ¬ Covers (· ⊆ ·) family S := by
  simp only [Hits, Covers, not_exists, not_and, Finset.not_subset, Finset.mem_sdiff]
  constructor
  · intro hits f member
    obtain ⟨i, inside, _, outside⟩ := hits f member
    exact ⟨i, inside, outside⟩
  · intro avoids f member
    obtain ⟨i, inside, outside⟩ := avoids f member
    exact ⟨i, inside, within f member inside, outside⟩

theorem hits_complements {family : List (Finset α)} {U S : Finset α} (inside : S ⊆ U) :
    Hits (family.map (U \ ·)) S ↔ ¬ Covers (· ⊇ ·) family S := by
  simp only [Hits, Covers, List.mem_map, forall_exists_index, and_imp, forall_apply_eq_imp_iff₂,
    not_exists, not_and, Finset.mem_sdiff]
  constructor
  · intro hits p member below
    obtain ⟨i, ⟨_, outside⟩, hit⟩ := hits p member
    exact outside (below hit)
  · intro escapes p member
    obtain ⟨i, hit, outside⟩ := Finset.not_subset.mp (escapes p member)
    exact ⟨i, ⟨inside hit, outside⟩, hit⟩

theorem sdiff_subset_sdiff_iff {U a b : Finset α} (inside : a ⊆ U) :
    U \ b ⊆ U \ a ↔ a ⊆ b := by
  constructor
  · intro sub i inA
    by_contra outB
    exact (Finset.mem_sdiff.mp (sub (Finset.mem_sdiff.mpr ⟨inside inA, outB⟩))).2 inA
  · exact fun sub => Finset.sdiff_subset_sdiff (Finset.Subset.refl U) sub

/-- Taking complements inside `U` turns an independent family around. -/
theorem independent_complements {sets : List (Finset α)} {U : Finset α}
    (within : ∀ s ∈ sets, s ⊆ U) (independent : Independent (· ⊆ ·) sets) :
    Independent (· ⊇ ·) (sets.map (U \ ·)) := by
  refine List.pairwise_map.mpr (independent.imp_of_mem fun {a b} hA hB apart => ?_)
  exact ⟨fun above => apart.1 ((sdiff_subset_sdiff_iff (within a hA)).mp above),
    fun above => apart.2 ((sdiff_subset_sdiff_iff (within b hB)).mp above)⟩

theorem independent_complements' {sets : List (Finset α)} {U : Finset α}
    (within : ∀ s ∈ sets, s ⊆ U) (independent : Independent (· ⊇ ·) sets) :
    Independent (· ⊆ ·) (sets.map (U \ ·)) := by
  refine List.pairwise_map.mpr (independent.imp_of_mem fun {a b} hA hB apart => ?_)
  exact ⟨fun below => apart.1 ((sdiff_subset_sdiff_iff (within b hB)).mp below),
    fun below => apart.2 ((sdiff_subset_sdiff_iff (within a hA)).mp below)⟩

/-- The upper border consists of complements of least hitting sets of `below`, the
lower border of the least hitting sets of the complements of `above`. -/
theorem pending_iff_borders {below above : List (Finset α)} {U S : Finset α}
    (within : ∀ f ∈ below, f ⊆ U) (inside : S ⊆ U) :
    Pending below above S ↔
      (∃ H, Least (· ⊆ ·) (Hits below) H ∧ S ⊆ U \ H) ∧
      ∃ B, Least (· ⊆ ·) (Hits (above.map (U \ ·))) B ∧ B ⊆ S := by
  rw [Pending, ← hits_sdiff within, ← hits_complements inside]
  refine and_congr ⟨fun hits => ?_, ?_⟩ ⟨fun hits => ?_, ?_⟩
  · obtain ⟨H, sub, least⟩ := exists_least_below hits
    refine ⟨H, least, Finset.subset_sdiff.mpr ⟨inside, ?_⟩⟩
    exact Finset.disjoint_left.mpr fun i inS inH => (Finset.mem_sdiff.mp (sub inH)).2 inS
  · rintro ⟨H, least, sub⟩
    -- only the part of `H` inside `U` can hit the members of `below`
    intro f member
    obtain ⟨i, inF, inH⟩ := least.1 f member
    refine ⟨i, inF, Finset.mem_sdiff.mpr ⟨within f member inF, fun inS => ?_⟩⟩
    exact (Finset.mem_sdiff.mp (sub inS)).2 inH
  · obtain ⟨B, sub, least⟩ := exists_least_below hits
    exact ⟨B, least, sub⟩
  · rintro ⟨B, least, sub⟩
    exact least.1.mono sub

/-- A least hitting set takes its elements from the family's members. -/
theorem Least.subset_of_hits {family : List (Finset α)} {U H : Finset α}
    (within : ∀ f ∈ family, f ⊆ U) (least : Least (· ⊆ ·) (Hits family) H) : H ⊆ U := by
  have same : H ∩ U = H := by
    apply least.2 _ _ Finset.inter_subset_left
    intro f member
    obtain ⟨i, inF, inH⟩ := least.1 f member
    exact ⟨i, inF, Finset.mem_inter.mpr ⟨inH, within f member inF⟩⟩
  exact Finset.inter_eq_left.mp same

/-- The chain that starts at `s` and takes up the listed elements one by one. -/
def ladder (s : Finset α) : List α → List (Finset α)
  | [] => [s]
  | d :: rest => s :: ladder (insert d s) rest

theorem ladder_ne_nil (s : Finset α) (rungs : List α) : ladder s rungs ≠ [] := by
  cases rungs <;> simp [ladder]

theorem ladder_length (s : Finset α) (rungs : List α) :
    (ladder s rungs).length = rungs.length + 1 := by
  induction rungs generalizing s with
  | nil => rfl
  | cons i rest ih => rw [ladder, List.length_cons, ih, List.length_cons]

theorem ladder_head (s : Finset α) (rungs : List α) : (ladder s rungs)[0]? = some s := by
  cases rungs <;> rfl

theorem ladder_last (s : Finset α) (rungs : List α) :
    (ladder s rungs)[(ladder s rungs).length - 1]? = some (s ∪ rungs.toFinset) := by
  induction rungs generalizing s with
  | nil => simp [ladder]
  | cons d rest ih =>
      have positive := List.length_pos_iff.mpr (ladder_ne_nil (insert d s) rest)
      have shift : (ladder s (d :: rest)).length - 1 =
          (ladder (insert d s) rest).length - 1 + 1 := by
        simp only [ladder, List.length_cons]
        omega
      rw [shift, ladder, List.getElem?_cons_succ, ih]
      congr 1
      ext i
      simp only [Finset.mem_union, Finset.mem_insert, List.mem_toFinset, List.mem_cons]
      tauto

theorem ladder_between {s x : Finset α} {rungs : List α} (member : x ∈ ladder s rungs) :
    s ⊆ x ∧ x ⊆ s ∪ rungs.toFinset := by
  induction rungs generalizing s with
  | nil =>
      simp only [ladder, List.mem_singleton] at member
      simp [member]
  | cons d rest ih =>
      rw [ladder] at member
      rcases List.mem_cons.mp member with rfl | later
      · exact ⟨Finset.Subset.refl _, Finset.subset_union_left⟩
      · obtain ⟨low, high⟩ := ih later
        refine ⟨(Finset.subset_insert d s).trans low, high.trans ?_⟩
        intro i
        simp only [Finset.mem_union, Finset.mem_insert, List.mem_toFinset, List.mem_cons]
        tauto

theorem ladder_total {s x y : Finset α} {rungs : List α} (inX : x ∈ ladder s rungs)
    (inY : y ∈ ladder s rungs) : x ⊆ y ∨ y ⊆ x := by
  induction rungs generalizing s with
  | nil =>
      simp only [ladder, List.mem_singleton] at inX inY
      rw [inX, inY]
      exact Or.inl (Finset.Subset.refl s)
  | cons d rest ih =>
      rw [ladder] at inX inY
      rcases List.mem_cons.mp inX with rfl | laterX
      · rcases List.mem_cons.mp inY with rfl | laterY
        · exact Or.inl (Finset.Subset.refl _)
        · exact Or.inl ((Finset.subset_insert d _).trans (ladder_between laterY).1)
      · rcases List.mem_cons.mp inY with rfl | laterY
        · exact Or.inr ((Finset.subset_insert d _).trans (ladder_between laterX).1)
        · exact ih laterX laterY

/-- One step down the chain removes one element that the start does not have. -/
theorem ladder_step {s x y : Finset α} {rungs : List α} (distinct : rungs.Nodup)
    (fresh : ∀ d ∈ rungs, d ∉ s) {k : Nat} (lower : (ladder s rungs)[k]? = some x)
    (upper : (ladder s rungs)[k + 1]? = some y) : ∃ d ∈ y, d ∉ s ∧ y.erase d = x := by
  induction rungs generalizing s k with
  | nil => simp [ladder] at upper
  | cons d rest ih =>
      have notIn : d ∉ s := fresh d (by simp)
      cases k with
      | zero =>
          rw [ladder, List.getElem?_cons_succ, ladder_head] at upper
          rw [ladder_head] at lower
          obtain rfl := Option.some.inj lower
          obtain rfl := Option.some.inj upper
          exact ⟨d, Finset.mem_insert_self d _, notIn, Finset.erase_insert notIn⟩
      | succ k =>
          rw [ladder, List.getElem?_cons_succ] at lower upper
          obtain ⟨here, later⟩ := List.nodup_cons.mp distinct
          obtain ⟨i, inY, outS, erased⟩ := ih later (by
            intro i member
            rw [Finset.mem_insert, not_or]
            exact ⟨fun same => here (same ▸ member), fresh i (List.mem_cons_of_mem _ member)⟩)
            lower upper
          exact ⟨i, inY, fun inS => outS (Finset.mem_insert_of_mem inS), erased⟩

end SetFamily
