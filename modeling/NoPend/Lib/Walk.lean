import Mathlib.Data.Finset.Basic
import Mathlib.Logic.Relation
import Mathlib.Tactic

set_option autoImplicit false

/- Depth-first walks over an acyclic graph with a set of visited nodes. The set need not be
empty at the start: what is in it already is never entered. -/
namespace Walk

variable {β : Type}

/-- The visited nodes, and the wanted ones among them in the order they were entered. -/
structure Trail (β : Type) where
  seen : Finset β
  out : List β

/-- What a walk from the sources has done to the trail. -/
structure Explored (next : β → List β) (wanted passable : β → Bool) (sources : List β)
    (before after : Trail β) : Prop where
  grows : before.seen ⊆ after.seen
  entered : ∀ x ∈ sources, x ∈ after.seen
  below : ∀ y ∈ after.seen, y ∉ before.seen →
    ∃ x ∈ sources, Relation.ReflTransGen (fun a b => b ∈ next a) x y
  closed : ∀ y ∈ after.seen, y ∉ before.seen → passable y = true → ∀ z ∈ next y,
    z ∈ after.seen
  out : ∃ news, after.out = before.out ++ news ∧
    ∀ y, y ∈ news ↔ y ∈ after.seen ∧ y ∉ before.seen ∧ wanted y = true

variable {next : β → List β} {wanted passable : β → Bool}

theorem Explored.nil (trail : Trail β) : Explored next wanted passable [] trail trail where
  grows := Finset.Subset.refl _
  entered := by simp
  below := fun y inside outside => absurd inside outside
  closed := fun y inside outside => absurd inside outside
  out := ⟨[], by simp, fun y => by simp; tauto⟩

/-- Walks from several sources, one after the other. -/
theorem Explored.append {first second : List β} {before middle after : Trail β}
    (start : Explored next wanted passable first before middle)
    (rest : Explored next wanted passable second middle after) :
    Explored next wanted passable (first ++ second) before after where
  grows := start.grows.trans rest.grows
  entered := by
    intro x member
    rcases List.mem_append.mp member with early | late
    · exact rest.grows (start.entered x early)
    · exact rest.entered x late
  below := by
    intro y inside outside
    by_cases known : y ∈ middle.seen
    · obtain ⟨x, member, path⟩ := start.below y known outside
      exact ⟨x, List.mem_append_left _ member, path⟩
    · obtain ⟨x, member, path⟩ := rest.below y inside known
      exact ⟨x, List.mem_append_right _ member, path⟩
  closed := by
    intro y inside outside open' z child
    by_cases known : y ∈ middle.seen
    · exact rest.grows (start.closed y known outside open' z child)
    · exact rest.closed y inside known open' z child
  out := by
    obtain ⟨early, sameEarly, memEarly⟩ := start.out
    obtain ⟨late, sameLate, memLate⟩ := rest.out
    refine ⟨early ++ late, by rw [sameLate, sameEarly, List.append_assoc], fun y => ?_⟩
    rw [List.mem_append, memEarly, memLate]
    constructor
    · rintro (⟨inside, outside, want⟩ | ⟨inside, outside, want⟩)
      · exact ⟨rest.grows inside, outside, want⟩
      · exact ⟨inside, fun old => outside (start.grows old), want⟩
    · rintro ⟨inside, outside, want⟩
      by_cases known : y ∈ middle.seen
      · exact Or.inl ⟨known, outside, want⟩
      · exact Or.inr ⟨inside, known, want⟩

/-- A path through passable nodes that were not seen before is walked to its end. -/
theorem Explored.reaches {x y : β} {before after : Trail β}
    (explored : Explored next wanted passable [x] before after)
    (path : Relation.ReflTransGen
      (fun a b => b ∈ next a ∧ passable a = true ∧ a ∉ before.seen) x y) :
      y ∈ after.seen := by
  induction path with
  | refl => exact explored.entered x (List.mem_singleton_self x)
  | tail _ step ih => exact explored.closed _ ih step.2.2 step.2.1 _ step.1

/-- Where every node is passable and the nodes seen before are closed, so are all nodes
seen afterwards. -/
theorem Explored.reaches_all {x y : β} {before after : Trail β}
    (explored : Explored next wanted passable [x] before after) (free : ∀ y, passable y = true)
    (closed : ∀ y ∈ before.seen, ∀ z ∈ next y, z ∈ before.seen)
    (path : Relation.ReflTransGen (fun a b => b ∈ next a) x y) : y ∈ after.seen := by
  induction path with
  | refl => exact explored.entered x (List.mem_singleton_self x)
  | @tail y z _ step ih =>
      by_cases known : y ∈ before.seen
      · exact explored.grows (closed y known z step)
      · exact explored.closed y ih known (free y) z step

variable [DecidableEq β]

/-- A node is entered once; it is noted if it is wanted. -/
def enter (wanted : β → Bool) (x : β) (trail : Trail β) : Trail β :=
  ⟨insert x trail.seen, if wanted x then trail.out ++ [x] else trail.out⟩

/-- The walk goes on from a node that is entered and passable. -/
def visit (next : β → List β) (wanted passable : β → Bool) :
    Nat → β → Trail β → Trail β
  | 0, _, trail => trail
  | fuel + 1, x, trail =>
      if x ∈ trail.seen then trail
      else if passable x then
        (next x).foldl (fun trail y => visit next wanted passable fuel y trail)
        (enter wanted x trail)
      else enter wanted x trail

/-- Entering a node and walking from all its successors is a walk from the node. -/
theorem Explored.node {x : β} {before after : Trail β} (fresh : x ∉ before.seen)
    {children : List β} (all : passable x = true → ∀ z ∈ next x, z ∈ children)
    (only : ∀ z ∈ children, z ∈ next x)
    (rest : Explored next wanted passable children (enter wanted x before) after) :
    Explored next wanted passable [x] before after where
  grows := (Finset.subset_insert x before.seen).trans rest.grows
  entered := by
    intro y member
    rw [List.mem_singleton.mp member]
    exact rest.grows (Finset.mem_insert_self x before.seen)
  below := by
    intro y inside outside
    refine ⟨x, List.mem_singleton_self x, ?_⟩
    by_cases same : y = x
    · rw [same]
    · obtain ⟨z, member, path⟩ := rest.below y inside (by simp [enter, same, outside])
      exact Relation.ReflTransGen.head (only z member) path
  closed := by
    intro y inside outside open' z child
    by_cases same : y = x
    · subst same
      exact rest.entered z (all open' z child)
    · exact rest.closed y inside (by simp [enter, same, outside]) open' z child
  out := by
    obtain ⟨late, sameLate, memLate⟩ := rest.out
    have inside : x ∈ after.seen := rest.grows (Finset.mem_insert_self x before.seen)
    by_cases want : wanted x = true
    · refine ⟨x :: late, by rw [sameLate]; simp [enter, want], fun y => ?_⟩
      rw [List.mem_cons, memLate]
      by_cases same : y = x
      · subst same
        simp [inside, fresh, want]
      · simp [enter, same]
    · refine ⟨late, by rw [sameLate]; simp [enter, want], fun y => ?_⟩
      rw [memLate]
      by_cases same : y = x
      · subst same
        simp [enter, want]
      · simp [enter, same]

/-- With more fuel than the rank of the source the walk explores everything it can reach. -/
theorem visit_explored (wanted passable : β → Bool) (rank : β → Nat)
    (descends : ∀ y, ∀ z ∈ next y, rank z < rank y)
    (fuel : Nat) : ∀ {x : β} (before : Trail β), rank x < fuel →
      Explored next wanted passable [x] before (visit next wanted passable fuel x before) := by
  induction fuel with
  | zero =>
      intro x before enough
      omega
  | succ fuel ih =>
      intro x before enough
      rw [visit]
      by_cases known : x ∈ before.seen
      · rw [if_pos known]
        refine ⟨Finset.Subset.refl _, ?_, fun y inside outside => absurd inside outside,
          fun y inside outside =>
            absurd inside outside, ⟨[], by simp, fun y => by simp; tauto⟩⟩
        intro y member
        rw [List.mem_singleton.mp member]
        exact known
      · rw [if_neg known]
        by_cases open' : passable x = true
        · rw [if_pos open']
          have loop : ∀ (children : List β) (trail : Trail β),
              (∀ z ∈ children, rank z < fuel) →
              Explored next wanted passable children trail
                (children.foldl (fun trail y => visit next wanted passable fuel y trail)
                  trail) := by
            intro children
            induction children with
            | nil => exact fun trail _ => Explored.nil trail
            | cons z rest more =>
                intro trail small
                exact (ih trail (small z (by simp))).append
                  (more _ fun y member => small y (List.mem_cons_of_mem _ member))
          exact Explored.node known (fun _ z child => child) (fun z child => child)
            (loop (next x) _ fun z child => by have := descends x z child; omega)
        · rw [if_neg open']
          exact Explored.node known (fun contrary => absurd contrary open') (by simp)
            (Explored.nil (enter wanted x before))

section Subsets

/-- The sets with one element less, the elements taken in ascending order. -/
def removals (n : Nat) (S : Finset Nat) : List (Finset Nat) :=
  ((List.range n).filter (· ∈ S)).map S.erase

/-- The sets with one element more, the elements taken in ascending order. -/
def additions (n : Nat) (S : Finset Nat) : List (Finset Nat) :=
  ((List.range n).filter (· ∉ S)).map (insert · S)

variable {n : Nat} {S T M : Finset Nat}

theorem mem_removals : T ∈ removals n S ↔ ∃ i < n, i ∈ S ∧ S.erase i = T := by
  simp [removals, and_assoc]

theorem mem_additions : T ∈ additions n S ↔ ∃ i < n, i ∉ S ∧ insert i S = T := by
  simp [additions, and_assoc]

theorem removals_descend (S : Finset Nat) : ∀ T ∈ removals n S, T.card < S.card := by
  intro T child
  obtain ⟨i, _, inside, rfl⟩ := mem_removals.mp child
  exact Finset.card_lt_card (Finset.erase_ssubset inside)

theorem additions_descend (S : Finset Nat) :
    ∀ T ∈ additions n S, (Finset.range n \ T).card < (Finset.range n \ S).card := by
  intro T child
  obtain ⟨i, bound, outside, rfl⟩ := mem_additions.mp child
  apply Finset.card_lt_card
  refine (Finset.ssubset_iff_of_subset ?_).mpr ⟨i, ?_, ?_⟩
  · exact Finset.sdiff_subset_sdiff (Finset.Subset.refl _) (Finset.subset_insert i S)
  · simpa using ⟨bound, outside⟩
  · simp

theorem removals_below (path : Relation.ReflTransGen (fun a b => b ∈ removals n a) S T) :
    T ⊆ S := by
  induction path with
  | refl => exact Finset.Subset.refl S
  | tail _ step ih =>
      obtain ⟨i, _, _, rfl⟩ := mem_removals.mp step
      exact (Finset.erase_subset i _).trans ih

theorem additions_above (within : S ⊆ Finset.range n)
    (path : Relation.ReflTransGen (fun a b => b ∈ additions n a) S T) :
    S ⊆ T ∧ T ⊆ Finset.range n := by
  induction path with
  | refl => exact ⟨Finset.Subset.refl S, within⟩
  | tail _ step ih =>
      obtain ⟨i, bound, _, rfl⟩ := mem_additions.mp step
      exact ⟨ih.1.trans (Finset.subset_insert i _),
        Finset.insert_subset (Finset.mem_range.mpr bound) ih.2⟩

/-- Every subset can be reached by removals, through the sets in between. -/
theorem removals_path {P : Finset Nat → Prop} (within : S ⊆ Finset.range n) (below : M ⊆ S)
    (free : ∀ T, M ⊂ T → T ⊆ S → P T) :
    Relation.ReflTransGen (fun a b => b ∈ removals n a ∧ P a) S M := by
  induction S using Finset.strongInduction with
  | H S ih =>
      by_cases done : S ⊆ M
      · rw [Finset.Subset.antisymm below done]
      · obtain ⟨i, inS, outM⟩ := Finset.not_subset.mp done
        have smaller : S.erase i ⊂ S := Finset.erase_ssubset inS
        have still : M ⊆ S.erase i := fun j inM =>
          Finset.mem_erase.mpr ⟨fun same => outM (same ▸ inM), below inM⟩
        refine Relation.ReflTransGen.head ⟨mem_removals.mpr
          ⟨i, Finset.mem_range.mp (within inS), inS, rfl⟩,
            free S ⟨below, done⟩ (Finset.Subset.refl S)⟩ ?_
        exact ih _ smaller (smaller.subset.trans within) still
          fun T above under => free T above (under.trans smaller.subset)

/-- Every superset can be reached by additions, through the sets in between. -/
theorem additions_path {P : Finset Nat → Prop} (within : M ⊆ Finset.range n) (above : S ⊆ M)
    (free : ∀ T, S ⊆ T → T ⊂ M → P T) :
    Relation.ReflTransGen (fun a b => b ∈ additions n a ∧ P a) S M := by
  induction count : (M \ S).card generalizing S with
  | zero =>
      rw [Finset.card_eq_zero, Finset.sdiff_eq_empty_iff_subset] at count
      rw [Finset.Subset.antisymm above count]
  | succ k ih =>
      obtain ⟨i, missing⟩ := Finset.card_pos.mp (by omega : 0 < (M \ S).card)
      obtain ⟨inM, outS⟩ := Finset.mem_sdiff.mp missing
      have proper : S ⊂ M := (Finset.ssubset_iff_of_subset above).mpr ⟨i, inM, outS⟩
      refine Relation.ReflTransGen.head ⟨mem_additions.mpr
        ⟨i, Finset.mem_range.mp (within inM), outS, rfl⟩,
          free S (Finset.Subset.refl S) proper⟩ ?_
      refine ih (Finset.insert_subset inM above)
        (fun T larger under => free T ((Finset.subset_insert i S).trans larger) under) ?_
      rw [Finset.sdiff_insert, Finset.card_erase_of_mem missing]
      omega

end Subsets

end Walk
