import Mathlib.Data.Set.Insert
import Mathlib.Tactic

set_option autoImplicit false

/- A set is walked in some order while elements are dropped from it: an element that is still
there drops others, one that is gone does nothing. -/
namespace Sweep

variable {α : Type}

/-- One step of the walk. -/
def step (drops : α → α → Prop) (present : Set α) (x : α) : Set α :=
  {y | y ∈ present ∧ ¬ (x ∈ present ∧ drops x y)}

/-- The walk along a list. -/
def run (drops : α → α → Prop) (present : Set α) (items : List α) : Set α :=
  items.foldl (step drops) present

/-- The walk after the items in `done`; `active` are those that were still there. -/
structure Swept (drops : α → α → Prop) (start present active : Set α) (done : List α) :
    Prop where
  within : present ⊆ start
  walked : active ⊆ start
  spared : ∀ x ∈ active, ∀ y ∈ present, ¬ drops x y
  gone : ∀ y ∈ start, y ∉ present → ∃ x ∈ active, drops x y
  settled : ∀ x ∈ done, x ∈ present → x ∈ active

theorem Swept.start (drops : α → α → Prop) (start : Set α) :
    Swept drops start start ∅ [] where
  within := subset_refl _
  walked := Set.empty_subset _
  spared x member := absurd member (Set.notMem_empty x)
  gone _ member missing := absurd member missing
  settled _ member := absurd member List.not_mem_nil

theorem Swept.step {drops : α → α → Prop} {start present active : Set α} {done : List α}
    (swept : Swept drops start present active done) (x : α) :
    ∃ active', Swept drops start (step drops present x) active' (done ++ [x]) := by
  by_cases there : x ∈ present
  · refine ⟨insert x active, ?_⟩
    constructor
    · exact fun y member => swept.within member.1
    · exact Set.insert_subset (swept.within there) swept.walked
    · intro z walked y member drops'
      rcases Set.mem_insert_iff.mp walked with rfl | before
      · exact member.2 ⟨there, drops'⟩
      · exact swept.spared z before y member.1 drops'
    · intro y member missing
      by_cases before : y ∈ present
      · have dropped : x ∈ present ∧ drops x y := by
          by_contra kept
          exact missing ⟨before, kept⟩
        exact ⟨x, Set.mem_insert _ _, dropped.2⟩
      · obtain ⟨z, walked, drops'⟩ := swept.gone y member before
        exact ⟨z, Set.mem_insert_of_mem _ walked, drops'⟩
    · intro z member still
      rcases List.mem_append.mp member with before | now
      · exact Set.mem_insert_of_mem _ (swept.settled z before still.1)
      · rw [List.mem_singleton.mp now]
        exact Set.mem_insert _ _
  · have same : Sweep.step drops present x = present := by
      ext y
      simp [Sweep.step, there]
    rw [same]
    refine ⟨active, swept.within, swept.walked, swept.spared, swept.gone, ?_⟩
    intro z member still
    rcases List.mem_append.mp member with before | now
    · exact swept.settled z before still
    · rw [List.mem_singleton.mp now] at still
      exact absurd still there

theorem Swept.run {drops : α → α → Prop} {start present active : Set α} {done : List α}
    (swept : Swept drops start present active done) (items : List α) :
    ∃ active', Swept drops start (run drops present items) active' (done ++ items) := by
  induction items generalizing present active done with
  | nil => exact ⟨active, by simpa [Sweep.run] using swept⟩
  | cons x rest ih =>
      obtain ⟨middle, next⟩ := swept.step x
      obtain ⟨active', final⟩ := ih next
      exact ⟨active', by simpa [Sweep.run] using final⟩

/-- A bad element drops what is properly above it, a good one itself and what is below it. -/
def Drops (le : α → α → Prop) (bad : α → Prop) (x y : α) : Prop :=
  (bad x ∧ le x y ∧ x ≠ y) ∨ (¬ bad x ∧ le y x)

/-- If badness goes upwards, then in whatever order a set is walked the minimal bad elements
are left. -/
theorem mem_run_iff (le : α → α → Prop) (bad : α → Prop) {start : Set α} {items : List α}
    (refl : ∀ x, le x x) (trans : ∀ x y z, le x y → le y z → le x z)
    (antisymm : ∀ x ∈ start, ∀ y ∈ start, le x y → le y x → x = y)
    (mono : ∀ x y, le x y → bad x → bad y) (all : ∀ x ∈ start, x ∈ items) {y : α} :
    y ∈ run (Drops le bad) start items ↔
      y ∈ start ∧ bad y ∧ ∀ z ∈ start, bad z → le z y → z = y := by
  obtain ⟨active, swept⟩ := (Swept.start (Drops le bad) start).run items
  constructor
  · intro left
    have member := swept.within left
    have walked := swept.settled y (by simpa using all y member) left
    have worse : bad y := by
      by_contra good
      exact swept.spared y walked y left (Or.inr ⟨good, refl y⟩)
    refine ⟨member, worse, fun z inside badZ below => ?_⟩
    by_contra other
    by_cases still : z ∈ run (Drops le bad) start items
    · exact swept.spared z (swept.settled z (by simpa using all z inside) still) y left
        (Or.inl ⟨badZ, below, other⟩)
    · -- what dropped `z` would have dropped `y` too
      obtain ⟨x, active', ⟨badX, belowZ, otherZ⟩ | ⟨good, above⟩⟩ :=
        swept.gone z inside still
      · refine swept.spared x active' y left (Or.inl ⟨badX, trans x z y belowZ below, ?_⟩)
        rintro rfl
        exact otherZ (antisymm x member z inside belowZ below)
      · exact good (mono z x above badZ)
  · rintro ⟨member, worse, minimal⟩
    by_contra missing
    obtain ⟨x, walked, ⟨badX, below, other⟩ | ⟨good, above⟩⟩ :=
      swept.gone y member missing
    · exact other (minimal x (swept.walked walked) badX below)
    · exact good (mono y x above worse)

end Sweep
