import Mathlib.Data.Finset.SDiff
import Mathlib.Data.List.Nodup
import Mathlib.Tactic

set_option autoImplicit false

/- Deleting the elements of a set one after the other for as long as what is left is still
bad, and the elements that this finds to be needed. -/
namespace Shrink

variable {α : Type} [DecidableEq α]

/-- The items of a pass that have to stay: without one of them the rest would not be bad. -/
def needed (bad : Finset α → Bool) : Finset α → List α → List α
  | _, [] => []
  | whole, x :: rest =>
      if bad (whole.erase x) then needed bad (whole.erase x) rest else x :: needed bad whole rest

/-- Of the elements that only one of the two sets has, the first is one of `T`. -/
def Before [LT α] (S T : Finset α) : Prop :=
  ∃ x ∈ T, x ∉ S ∧ ∀ y, y < x → (y ∈ S ↔ y ∈ T)

/-- The sets that a pass asks about. -/
def trials (bad : Finset α → Bool) : Finset α → List α → List (Finset α)
  | _, [] => []
  | whole, x :: rest =>
      whole.erase x ::
        if bad (whole.erase x) then trials bad (whole.erase x) rest else trials bad whole rest

/-- What the pass leaves of a set. -/
def left (bad : Finset α → Bool) (whole : Finset α) (items : List α) : Finset α :=
  whole \ items.toFinset ∪ (needed bad whole items).toFinset

variable {bad : Finset α → Bool} {whole : Finset α}

theorem needed_sublist (items : List α) : (needed bad whole items).Sublist items := by
  induction items generalizing whole with
  | nil => exact List.Sublist.slnil
  | cons x rest ih =>
      unfold needed
      split
      · exact (ih).cons x
      · exact (ih).cons_cons x

theorem erase_sdiff (x : α) (rest : List α) :
    whole.erase x \ rest.toFinset = whole \ (x :: rest).toFinset := by
  ext y
  simp only [Finset.mem_sdiff, Finset.mem_erase, List.toFinset_cons, Finset.mem_insert]
  tauto

theorem sdiff_append (first second : List α) :
    (whole \ first.toFinset) \ second.toFinset = whole \ (first ++ second).toFinset := by
  rw [List.toFinset_append, sdiff_sdiff_left, Finset.sup_eq_union]

theorem left_cons_bad {x : α} {rest : List α} (drop : bad (whole.erase x) = true) :
    left bad whole (x :: rest) = left bad (whole.erase x) rest := by
  simp only [left, needed, if_pos drop, erase_sdiff]

theorem left_cons_needed {x : α} {rest : List α} (keep : ¬ bad (whole.erase x) = true)
    (inside : x ∈ whole) (once : x ∉ rest) :
    left bad whole (x :: rest) = left bad whole rest := by
  simp only [left, needed, if_neg keep, List.toFinset_cons]
  ext y
  have other : y = x → y ∈ whole ∧ y ∉ rest.toFinset := by
    rintro rfl
    exact ⟨inside, by simpa using once⟩
  simp only [Finset.mem_union, Finset.mem_sdiff, Finset.mem_insert]
  tauto

theorem left_subset {items : List α} (within : ∀ x ∈ items, x ∈ whole) :
    left bad whole items ⊆ whole := by
  intro y member
  rcases Finset.mem_union.mp member with outside | stays
  · exact (Finset.mem_sdiff.mp outside).1
  · exact within y ((needed_sublist items).subset (List.mem_toFinset.mp stays))

/-- A pass over a bad set leaves a bad set. -/
theorem bad_left {items : List α} (nodup : items.Nodup) (within : ∀ x ∈ items, x ∈ whole)
    (start : bad whole = true) : bad (left bad whole items) = true := by
  induction items generalizing whole with
  | nil => simpa [left, needed] using start
  | cons x rest ih =>
      obtain ⟨once, nodup⟩ := List.nodup_cons.mp nodup
      by_cases drop : bad (whole.erase x) = true
      · rw [left_cons_bad drop]
        refine ih nodup (fun y member => Finset.mem_erase.mpr ⟨?_, within y (by simp [member])⟩)
          drop
        rintro rfl
        exact once member
      · rw [left_cons_needed drop (within x (by simp)) once]
        exact ih nodup (fun y member => within y (by simp [member])) start

/-- If sets above a bad one are bad, what is left is not bad without an item that stayed. -/
theorem needed_needed (mono : ∀ S T, S ⊆ T → bad S = true → bad T = true) {items : List α}
    (nodup : items.Nodup) (within : ∀ x ∈ items, x ∈ whole) {x : α}
    (stays : x ∈ needed bad whole items) : ¬ bad ((left bad whole items).erase x) = true := by
  induction items generalizing whole with
  | nil => simp [needed] at stays
  | cons y rest ih =>
      obtain ⟨once, nodup⟩ := List.nodup_cons.mp nodup
      have inside : y ∈ whole := within y (by simp)
      have later : ∀ z ∈ rest, z ∈ whole := fun z member => within z (by simp [member])
      by_cases drop : bad (whole.erase y) = true
      · rw [needed, if_pos drop] at stays
        rw [left_cons_bad drop]
        refine ih nodup (fun z member => Finset.mem_erase.mpr ⟨?_, later z member⟩) stays
        rintro rfl
        exact once member
      · rw [needed, if_neg drop] at stays
        rw [left_cons_needed drop inside once]
        rcases List.mem_cons.mp stays with rfl | stays
        · intro worse
          exact drop (mono _ _ (Finset.erase_subset_erase x (left_subset later)) worse)
        · exact ih nodup later stays

section Sorted

variable [Preorder α] [DecidableLT α]

/-- The items that are gone when `x` is tried: those before it that are not needed, and `x`. -/
def cleared (items : List α) (stay : α → Prop) [DecidablePred stay] (x : α) : Finset α :=
  insert x (items.filter fun y => y < x ∧ ¬ stay y).toFinset

variable {items : List α}

theorem mem_cleared {stay : α → Prop} [DecidablePred stay] {x y : α} :
    y ∈ cleared items stay x ↔ y = x ∨ (y ∈ items ∧ y < x ∧ ¬ stay y) := by
  simp [cleared]

/-- The first item is tried alone, the others when it is gone or needed. -/
theorem cleared_head {x : α} {rest : List α} (first : ∀ y ∈ rest, x < y) (stay : α → Prop)
    [DecidablePred stay] : whole \ cleared (x :: rest) stay x = whole.erase x := by
  ext y
  simp only [Finset.mem_sdiff, mem_cleared, Finset.mem_erase, List.mem_cons]
  constructor
  · rintro ⟨inside, free⟩
    exact ⟨fun same => free (Or.inl same), inside⟩
  · rintro ⟨other, inside⟩
    refine ⟨inside, ?_⟩
    rintro (same | ⟨same | later, before, _⟩)
    · exact other same
    · exact other same
    · exact lt_asymm before (first y later)

theorem cleared_tail {x z : α} {rest : List α} (here : z ∈ rest)
    (first : ∀ y ∈ rest, x < y) :
    whole \ cleared (x :: rest) (· ∈ needed bad whole (x :: rest)) z =
      if bad (whole.erase x) then whole.erase x \ cleared rest
        (· ∈ needed bad (whole.erase x) rest) z
      else whole \ cleared rest (· ∈ needed bad whole rest) z := by
  have once : x ∉ rest := fun member => lt_irrefl x (first x member)
  have before : x < z := first z here
  by_cases drop : bad (whole.erase x) = true
  · have free : x ∉ needed bad (whole.erase x) rest :=
      fun member => once ((needed_sublist rest).subset member)
    ext y
    simp only [needed, if_pos drop, Finset.mem_sdiff, mem_cleared, List.mem_cons, Finset.mem_erase]
    by_cases same : y = x
    · subst same
      simp [before, free]
    · simp [same]
  · ext y
    simp only [needed, if_neg drop, Finset.mem_sdiff, mem_cleared, List.mem_cons]
    by_cases same : y = x
    · subst same
      simp [once]
    · simp [same]

/-- A pass over ascending items tries each of them without those before it that are not needed. -/
theorem trials_eq (sorted : items.Pairwise (· < ·)) :
    trials bad whole items =
      items.map fun x => whole \ cleared items (· ∈ needed bad whole items) x := by
  induction items generalizing whole with
  | nil => rfl
  | cons x rest ih =>
      obtain ⟨first, sorted⟩ := List.pairwise_cons.mp sorted
      rw [trials, List.map_cons, cleared_head first]
      refine congrArg _ ?_
      rw [List.map_congr_left fun z here => cleared_tail here first]
      by_cases drop : bad (whole.erase x) = true
      · simp only [if_pos drop]
        exact ih sorted
      · simp only [if_neg drop]
        exact ih sorted

/-- The needed items are those whose trial is not bad. -/
theorem mem_needed_iff (sorted : items.Pairwise (· < ·)) {x : α} (member : x ∈ items) :
    x ∈ needed bad whole items ↔
      ¬ bad (whole \ cleared items (· ∈ needed bad whole items) x) = true := by
  induction items generalizing whole with
  | nil => simp at member
  | cons y rest ih =>
      obtain ⟨first, sorted⟩ := List.pairwise_cons.mp sorted
      rcases List.mem_cons.mp member with rfl | later
      · rw [cleared_head first]
        have once : x ∉ rest := fun member => lt_irrefl x (first x member)
        by_cases drop : bad (whole.erase x) = true
        · have free : x ∉ needed bad (whole.erase x) rest :=
            fun member => once ((needed_sublist rest).subset member)
          simp [needed, drop, free]
        · simp [needed, drop]
      · rw [cleared_tail later first]
        have other : x ≠ y := fun same => lt_irrefl y (same ▸ first x later)
        by_cases drop : bad (whole.erase y) = true
        · rw [if_pos drop, needed, if_pos drop]
          exact ih sorted later
        · rw [if_neg drop, needed, if_neg drop, List.mem_cons, or_iff_right other]
          exact ih sorted later

/-- A bad set without a needed item has an item before it that is not needed. -/
theorem exists_before_needed (mono : ∀ S T, S ⊆ T → bad S = true → bad T = true)
    (sorted : items.Pairwise (· < ·)) {T : Finset α} (within : T ⊆ whole)
    (worse : bad T = true) {x : α} (member : x ∈ needed bad whole items) (without : x ∉ T) :
    ∃ y ∈ T, y < x ∧ y ∈ items ∧ y ∉ needed bad whole items := by
  by_contra none
  refine (mem_needed_iff sorted ((needed_sublist items).subset member)).mp member
    (mono T _ (fun y inside => ?_) worse)
  refine Finset.mem_sdiff.mpr ⟨within inside, fun gone => ?_⟩
  rcases mem_cleared.mp gone with rfl | ⟨listed, before, free⟩
  · exact without inside
  · exact none ⟨y, inside, before, listed, free⟩

/-- A pass finds the first of the bad sets. -/
theorem not_before_needed (mono : ∀ S T, S ⊆ T → bad S = true → bad T = true)
    (sorted : items.Pairwise (· < ·)) {T : Finset α} (within : T ⊆ whole)
    (worse : bad T = true) :
    ¬ Before T (needed bad whole items).toFinset := by
  rintro ⟨x, member, without, agree⟩
  obtain ⟨y, inside, less, _, free⟩ :=
    exists_before_needed mono sorted within worse (List.mem_toFinset.mp member) without
  exact free (List.mem_toFinset.mp ((agree y less).mp inside))

end Sorted

section Order

omit [DecidableEq α]

variable [LinearOrder α] {S T U : Finset α}

theorem before_or_before (other : S ≠ T) : Before S T ∨ Before T S := by
  obtain ⟨x, differs, first⟩ : ∃ x,
      ¬ (x ∈ S ↔ x ∈ T) ∧ ∀ y, y < x → (y ∈ S ↔ y ∈ T) := by
    have some : (symmDiff S T).Nonempty := Finset.symmDiff_nonempty.mpr other
    refine ⟨(symmDiff S T).min' some, ?_, fun y less => ?_⟩
    · have member := Finset.min'_mem _ some
      rw [Finset.mem_symmDiff] at member
      tauto
    · by_contra differs
      refine absurd (Finset.min'_le (symmDiff S T) y ?_) (not_le.mpr less)
      rw [Finset.mem_symmDiff]
      tauto
  by_cases here : x ∈ S
  · exact Or.inr ⟨x, here, fun there => differs ⟨fun _ => there, fun _ => here⟩,
      fun y less => (first y less).symm⟩
  · exact Or.inl ⟨x, by tauto, here, first⟩

theorem Before.trans (first : Before S T) (second : Before T U) : Before S U := by
  obtain ⟨x, inT, notS, agree⟩ := first
  obtain ⟨y, inU, notT, agree'⟩ := second
  rcases lt_trichotomy x y with less | rfl | less
  · exact ⟨x, (agree' x less).mp inT, notS,
      fun z below => (agree z below).trans (agree' z (below.trans less))⟩
  · exact absurd inT notT
  · exact ⟨y, inU, fun inS => notT ((agree y less).mp inS),
      fun z below => (agree z (below.trans less)).trans (agree' z below)⟩

instance : Std.Total fun S T : Finset α => ¬ Before T S where
  total S T := by
    by_contra both
    rw [not_or, not_not, not_not] at both
    obtain ⟨x, inS, notS, _⟩ := both.1.trans both.2
    exact notS inS

instance : IsTrans (Finset α) fun S T => ¬ Before T S where
  trans S T U first second := by
    intro back
    by_cases same : S = T
    · exact second (same ▸ back)
    · rcases before_or_before same with before | after
      · exact second (back.trans before)
      · exact first after

end Order

end Shrink
