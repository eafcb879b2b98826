import Mathlib.Data.Finset.Card
import Mathlib.Tactic

set_option autoImplicit false

/- Lists kept as the least elements of what was put into them. The order is an
arbitrary decidable partial order `r`; reversing `r` gives the greatest elements. -/
namespace Antichain

variable {β : Type} (r : β → β → Prop)

/-- Some element of the list lies below `x`. -/
def Covers (items : List β) (x : β) : Prop := ∃ a ∈ items, r a x

/-- No element lies below another one at a different position. -/
def Independent (items : List β) : Prop := items.Pairwise (fun a b => ¬ r a b ∧ ¬ r b a)

/-- `x` belongs to the set and nothing else of the set lies below it. -/
def Least (members : β → Prop) (x : β) : Prop :=
    members x ∧ ∀ y, members y → r y x → y = x

theorem covers_mono {items more : List β} {x : β} (sub : ∀ a ∈ items, a ∈ more)
    (covered : Covers r items x) : Covers r more x := by
  obtain ⟨a, member, below⟩ := covered
  exact ⟨a, sub a member, below⟩

theorem Covers.up [IsTrans β r] {items : List β} {x y : β} (covered : Covers r items x)
    (below : r x y) : Covers r items y := by
  obtain ⟨a, member, lower⟩ := covered
  exact ⟨a, member, IsTrans.trans _ _ _ lower below⟩

theorem Least.congr {p q : β → Prop} {x : β} (same : ∀ y, p y ↔ q y) :
    Least r p x ↔ Least r q x := by
  simp only [Least, same]

theorem Independent.eq_of_below {items : List β} (independent : Independent r items) {x y : β}
    (hx : x ∈ items) (hy : y ∈ items) (below : r x y) : x = y := by
  induction items with
  | nil => cases hx
  | cons cur rest ih =>
      obtain ⟨head, tail⟩ := List.pairwise_cons.mp independent
      rcases List.mem_cons.mp hx with rfl | inX
      · rcases List.mem_cons.mp hy with rfl | inY
        · rfl
        · exact absurd below (head y inY).1
      · rcases List.mem_cons.mp hy with rfl | inY
        · exact absurd below (head x inX).2
        · exact ih tail inX inY

variable [DecidableRel r] [DecidableEq β]

/-- One pass over the list: stop at an element below the new one, drop the elements
above it, append it at the end. -/
def add (x : β) : List β → Bool × List β
  | [] => (true, [x])
  | cur :: rest =>
      if cur = x then (false, cur :: rest)
      else if r cur x then (false, cur :: rest)
      else if r x cur then add x rest
      else ((add x rest).1, cur :: (add x rest).2)

theorem add_of_not_covered [Std.Refl r] {x : β} {items : List β} (fresh : ¬ Covers r items x) :
    add r x items = (true, items.filter (fun a => ¬ r x a) ++ [x]) := by
  induction items with
  | nil => rfl
  | cons cur rest ih =>
      have apart : ¬ r cur x := fun below => fresh ⟨cur, by simp, below⟩
      have other : cur ≠ x := by
        rintro rfl
        exact apart (refl cur)
      have later : ¬ Covers r rest x := fun covered =>
        fresh (covers_mono r (fun a member => List.mem_cons_of_mem _ member) covered)
      by_cases above : r x cur
      · simp [add, other, apart, above, ih later]
      · simp [add, other, apart, above, ih later]

/-- With a reflexive order the comparison for equality decides nothing. -/
theorem add_cons [Std.Refl r] (x cur : β) (rest : List β) :
    add r x (cur :: rest) =
      if r cur x then (false, cur :: rest)
      else if r x cur then add r x rest
      else ((add r x rest).1, cur :: (add r x rest).2) := by
  rw [add]
  by_cases same : cur = x
  · rw [if_pos same, if_pos (by rw [same]; exact refl x)]
  · rw [if_neg same]

/-- A map that carries one order to another carries the insertion along. -/
theorem add_map {γ : Type} {s : γ → γ → Prop} [DecidableRel s] [DecidableEq γ] [Std.Refl r]
    [Std.Refl s] {f : β → γ} (agree : ∀ a b, s (f a) (f b) ↔ r a b) (x : β)
    (items : List β) :
    add s (f x) (items.map f) = ((add r x items).1, (add r x items).2.map f) := by
  induction items with
  | nil => rfl
  | cons cur rest ih =>
      rw [List.map_cons, add_cons, add_cons]
      simp only [agree, ih]
      by_cases stop : r cur x
      · simp [stop]
      · by_cases above : r x cur <;> simp [stop, above]

theorem mem_of_mem_add {x y : β} {items : List β} (member : y ∈ (add r x items).2) :
    y ∈ items ∨ y = x := by
  induction items with
  | nil => exact Or.inr (List.mem_singleton.mp member)
  | cons cur rest ih =>
      rw [add] at member
      split at member
      · exact Or.inl member
      · split at member
        · exact Or.inl member
        · split at member
          · exact (ih member).imp (List.mem_cons_of_mem _) id
          · rcases List.mem_cons.mp member with rfl | later
            · exact Or.inl (List.mem_cons_self ..)
            · exact (ih later).imp (List.mem_cons_of_mem _) id

/-- Elements added one after the other. -/
def addAll (news : List β) (items : List β) : List β :=
  news.foldl (fun current x => (add r x current).2) items

@[simp] theorem addAll_nil (items : List β) : addAll r [] items = items := rfl

@[simp] theorem addAll_cons (x : β) (news items : List β) :
    addAll r (x :: news) items = addAll r news (add r x items).2 := rfl

theorem addAll_append (first second items : List β) :
    addAll r (first ++ second) items = addAll r second (addAll r first items) :=
  List.foldl_append

theorem addAll_map {γ : Type} {s : γ → γ → Prop} [DecidableRel s] [DecidableEq γ]
    [Std.Refl r]
    [Std.Refl s] {f : β → γ} (agree : ∀ a b, s (f a) (f b) ↔ r a b) (news items : List β) :
    (addAll r news items).map f = addAll s (news.map f) (items.map f) := by
  induction news generalizing items with
  | nil => rfl
  | cons x news ih => rw [addAll_cons, ih, List.map_cons, addAll_cons, add_map r agree]

theorem mem_of_mem_addAll {news items : List β} {y : β} (member : y ∈ addAll r news items) :
    y ∈ items ∨ y ∈ news := by
  induction news generalizing items with
  | nil => exact Or.inl member
  | cons x news ih =>
      rcases ih member with old | new
      · rcases mem_of_mem_add r old with older | rfl
        · exact Or.inl older
        · exact Or.inr (List.mem_cons_self ..)
      · exact Or.inr (List.mem_cons_of_mem _ new)

section Preorder

variable [IsPreorder β r]

/-- Early return after a removal would lose elements; independence excludes it. -/
theorem add_of_covered {x : β} {items : List β} (independent : Independent r items)
    (covered : Covers r items x) : add r x items = (false, items) := by
  induction items with
  | nil =>
      obtain ⟨a, member, _⟩ := covered
      cases member
  | cons cur rest ih =>
      obtain ⟨head, tail⟩ := List.pairwise_cons.mp independent
      by_cases stop : r cur x
      · by_cases same : cur = x <;> simp [add, same, stop]
      · have later : Covers r rest x := by
          obtain ⟨a, member, below⟩ := covered
          rcases List.mem_cons.mp member with rfl | member
          · exact absurd below stop
          · exact ⟨a, member, below⟩
        have other : cur ≠ x := by
          rintro rfl
          exact stop (refl cur)
        -- an element above `x` would lie above the one that covers `x`
        have kept : ¬ r x cur := by
          intro above
          obtain ⟨a, member, below⟩ := later
          exact (head a member).2 (IsTrans.trans _ _ _ below above)
        simp [add, other, stop, kept, ih tail later]

theorem add_independent {x : β} {items : List β} (independent : Independent r items) :
    Independent r (add r x items).2 := by
  by_cases covered : Covers r items x
  · simpa [add_of_covered r independent covered] using independent
  · simp only [add_of_not_covered r covered]
    refine List.pairwise_append.mpr ⟨independent.filter _, List.pairwise_singleton _ _, ?_⟩
    intro a member b single
    simp only [List.mem_filter, decide_eq_true_eq] at member
    simp only [List.mem_singleton] at single
    subst single
    exact ⟨fun below => covered ⟨a, member.1, below⟩, member.2⟩

/-- Nothing that was covered stops being covered. -/
theorem covers_add {x y : β} {items : List β} (independent : Independent r items) :
    Covers r (add r x items).2 y ↔ Covers r items y ∨ r x y := by
  by_cases covered : Covers r items x
  · simp only [add_of_covered r independent covered]
    exact ⟨Or.inl, fun either => either.elim id covered.up⟩
  · simp only [Covers, add_of_not_covered r covered, List.mem_append, List.mem_filter,
      decide_eq_true_eq, List.mem_singleton]
    constructor
    · rintro ⟨a, member | rfl, below⟩
      · exact Or.inl ⟨a, member.1, below⟩
      · exact Or.inr below
    · rintro (⟨a, member, below⟩ | below)
      · by_cases dropped : r x a
        · exact ⟨x, Or.inr rfl, IsTrans.trans _ _ _ dropped below⟩
        · exact ⟨a, Or.inl ⟨member, dropped⟩, below⟩
      · exact ⟨x, Or.inr rfl, below⟩

theorem addAll_independent {news items : List β} (independent : Independent r items) :
    Independent r (addAll r news items) := by
  induction news generalizing items with
  | nil => exact independent
  | cons x news ih => exact ih (add_independent r independent)

theorem covers_addAll {news items : List β} {y : β} (independent : Independent r items) :
    Covers r (addAll r news items) y ↔ Covers r items y ∨ Covers r news y := by
  induction news generalizing items with
  | nil => simp [Covers]
  | cons x news ih =>
      rw [addAll_cons, ih (add_independent r independent), covers_add r independent]
      simp only [Covers, List.mem_cons, exists_eq_or_imp, or_assoc]

theorem addAll_ne_nil {news items : List β} (independent : Independent r items)
    (some : items ≠ [] ∨ news ≠ []) : addAll r news items ≠ [] := by
  obtain ⟨x, covered⟩ : ∃ x, Covers r items x ∨ Covers r news x := by
    rcases some with old | new
    · obtain ⟨x, member⟩ := List.exists_mem_of_ne_nil _ old
      exact ⟨x, Or.inl ⟨x, member, refl x⟩⟩
    · obtain ⟨x, member⟩ := List.exists_mem_of_ne_nil _ new
      exact ⟨x, Or.inr ⟨x, member, refl x⟩⟩
  obtain ⟨a, member, _⟩ := (covers_addAll r independent).mpr covered
  exact List.ne_nil_of_mem member

/-- Elements that are independent of one another are all kept, in order. -/
theorem addAll_of_independent {items : List β} (independent : Independent r items) :
    addAll r items [] = items := by
  suffices general : ∀ news kept : List β, Independent r (kept ++ news) →
      addAll r news kept = kept ++ news by
    simpa using general items [] independent
  intro news
  induction news with
  | nil => simp
  | cons x news ih =>
      intro kept apart
      have cross := (List.pairwise_append.mp apart).2.2
      have fresh : ¬ Covers r kept x := by
        rintro ⟨a, member, below⟩
        exact (cross a member x (by simp)).1 below
      have whole : kept.filter (fun a => ¬ r x a) = kept := by
        rw [List.filter_eq_self]
        intro a member
        exact decide_eq_true (cross a member x (by simp)).2
      rw [addAll_cons, add_of_not_covered r fresh, whole, ih _ (by simpa using apart)]
      simp

end Preorder

variable [IsPartialOrder β r]

omit [DecidableRel r] [DecidableEq β] in
/-- An independent list that covers the same elements as a set it is drawn from is
the set's least elements. -/
theorem mem_iff_least {items : List β} {members : β → Prop} (independent : Independent r items)
    (drawn : ∀ x ∈ items, members x) (complete : ∀ x, members x → Covers r items x)
    (y : β) :
    y ∈ items ↔ Least r members y := by
  constructor
  · intro member
    refine ⟨drawn y member, fun z inside below => ?_⟩
    obtain ⟨a, found, lower⟩ := complete z inside
    have same : a = y := independent.eq_of_below r found member (IsTrans.trans _ _ _ lower below)
    subst same
    exact antisymm below lower
  · rintro ⟨inside, least⟩
    obtain ⟨a, found, lower⟩ := complete y inside
    rwa [← least a (drawn a found) lower]

/-- Elements added to the empty list, some of them below every member of the set they are
drawn from, leave the least members, in any order. -/
theorem mem_addAll_iff_least {news : List β} {members : β → Prop}
    (drawn : ∀ x ∈ news, members x) (complete : ∀ x, members x → Covers r news x) (y : β) :
    y ∈ addAll r news [] ↔ Least r members y := by
  have start : Independent r ([] : List β) := List.Pairwise.nil
  apply mem_iff_least r (addAll_independent r start)
  · intro x member
    exact drawn x ((mem_of_mem_addAll r member).resolve_left (by simp))
  · intro x member
    exact (covers_addAll r start).mpr (Or.inr (complete x member))

end Antichain
