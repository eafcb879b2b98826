import NoPend.Common.Java

set_option autoImplicit false

namespace NoPend

/-- The runtime classes of combination objects. -/
inductive CombClass where
  | comb
  | mutableComb
  | testcase
  | mutableTestcase
deriving DecidableEq, Repr

/-- `Comb` and its subclasses. Equality is `Comb.equals`: the runtime class counts. -/
structure Comb where
  cls : CombClass
  elements : List Int
deriving DecidableEq, Repr

abbrev Testcase := Comb

namespace Comb

abbrev UNKNOWN : Int := -1

def size (c : Comb) : Nat := c.elements.length

/-- `get(i)`, which throws beyond the end. -/
def get (c : Comb) (index : Nat) : Except Exn Int :=
  match c.elements[index]? with
  | some value => .ok value
  | none => .error .indexOutOfBounds

/-- The element a loop over `0 .. size() - 1` reads. -/
def val (c : Comb) (index : Nat) : Int := c.elements.getD index UNKNOWN

/-- `Comb(int size)`. -/
def ofSize (size : Nat) : Comb := ⟨.comb, List.replicate size UNKNOWN⟩

/-- The check of `Comb(List<Integer> comb)`, for an object of the given class. -/
def validated (cls : CombClass) (elements : List Int) : Except Exn Comb :=
  if elements.any (fun v => v < 0 && v != UNKNOWN) then
    .error (.illegalArgument "Not a valid combination")
  else .ok ⟨cls, elements⟩

/-- `Comb(List<Integer> comb)`. -/
def ofList (elements : List Int) : Except Exn Comb := validated .comb elements

/-- `Comb(Comb comb)`. -/
def copy (c : Comb) : Comb := ⟨.comb, c.elements⟩

/-- `elements.set(index, value)`. -/
def set (c : Comb) (index : Nat) (value : Int) : Except Exn Comb :=
  if index < c.size then .ok { c with elements := c.elements.set index value }
  else .error .indexOutOfBounds

/-- `Comb(Comb testcase, List<Integer> indices)`. -/
def ofIndices (testcase : Comb) (indices : List Nat) : Except Exn Comb :=
  indices.foldlM (fun c index => do c.set index (← testcase.get index)) (ofSize testcase.size)

/-- `Comb.contains(A, B)`: `B` is part of `A`. -/
def contains (A B : Comb) : Except Exn Bool :=
  if A.size ≠ B.size then .error (.illegalArgument "A.getLogicSize() != B.getLogicSize()")
  else .ok ((List.range A.size).all fun i => A.val i == B.val i || B.val i == UNKNOWN)

end Comb

/-- `MutableComb(Comb comb)`. -/
def MutableComb.ofComb (c : Comb) : Except Exn Comb := Comb.validated .mutableComb c.elements

/-- `MutableTestcase(Comb comb)` and `MutableTestcase(Testcase testcase)`: both run the
check of `Testcase(Comb comb)`. -/
def MutableTestcase.ofComb (c : Comb) : Except Exn Testcase :=
  if c.elements.any (· == Comb.UNKNOWN) then
    .error (.illegalArgument "This Combination is not a Testcase")
  else .ok ⟨.mutableTestcase, c.elements⟩

/-- `MutableTestcase.flip(i)`. -/
def MutableTestcase.flip (t : Testcase) (index : Nat) : Except Exn Testcase := do
  if t.size ≤ index then throw (.illegalArgument "Index out of bounds")
  match t.val index with
  | 0 => t.set index 1
  | 1 => t.set index 0
  | _ => throw (.illegalArgument "Not Two Values System!")

/-- `MutableTestcase.set(i, value)`. -/
def MutableTestcase.set (t : Testcase) (index : Nat) (value : Int) : Except Exn Testcase := do
  if t.size ≤ index then throw (.illegalArgument "Index out of bounds")
  if value ≠ 0 ∧ value ≠ 1 then throw (.illegalArgument "Not Two Values System!")
  t.set index value

namespace Testcase

/-- `Testcase(Comb comb)`. -/
def ofComb (c : Comb) : Except Exn Testcase :=
  if c.elements.any (· == Comb.UNKNOWN) then
    .error (.illegalArgument "This Combination is not a Testcase")
  else .ok ⟨.testcase, c.elements⟩

/-- `Testcase(List<Integer> elements)`. -/
def ofList (elements : List Int) : Except Exn Testcase := Comb.validated .testcase elements

/-- `paddingWithSafeValues(comb, safeValues, tfail)`: an open parameter takes its safe
value, or the value that `tfail` does not have. -/
def paddingWithSafeValues (comb safeValues : Comb) (tfail : Testcase) : Except Exn Testcase := do
  let elements ← (List.range comb.size).mapM fun i =>
    if comb.val i = Comb.UNKNOWN then do
      let safe ← safeValues.get i
      if safe = Comb.UNKNOWN then return 1 - (← tfail.get i) else return safe
    else return comb.val i
  ofList elements

end Testcase

namespace Comb

/-- Containment as a relation: every parameter that `B` fixes has the same value in `A`. -/
def Contains (A B : Comb) : Prop :=
  A.size = B.size ∧ ∀ i < A.size, A.val i = B.val i ∨ B.val i = UNKNOWN

instance (A B : Comb) : Decidable (A.Contains B) :=
  inferInstanceAs (Decidable (_ ∧ _))

/-- `B` is a proper part of `A`. -/
def StrictlyContains (A B : Comb) : Prop := A.Contains B ∧ ¬ B.Contains A

instance (A B : Comb) : Decidable (A.StrictlyContains B) :=
  inferInstanceAs (Decidable (_ ∧ _))

/-- The parameters that the combination fixes. -/
def fixed (c : Comb) : Finset Nat := (Finset.range c.size).filter (c.val · ≠ UNKNOWN)

/-- A combination over `n` parameters with values 0 and 1. -/
structure Over (n : Nat) (c : Comb) : Prop where
  size : c.size = n
  values : ∀ i < n, c.val i = 0 ∨ c.val i = 1 ∨ c.val i = UNKNOWN

/-- What the constructor `Comb(List<Integer>)` accepts, at size `n`. -/
structure Valid (n : Nat) (c : Comb) : Prop where
  size : c.size = n
  values : ∀ i < n, 0 ≤ c.val i ∨ c.val i = UNKNOWN

/-- A test case over `n` parameters with values 0 and 1. -/
structure Binary (n : Nat) (t : Testcase) : Prop where
  size : t.size = n
  values : ∀ i < n, t.val i = 0 ∨ t.val i = 1

instance (n : Nat) (c : Comb) : Decidable (c.Over n) :=
  decidable_of_iff (c.size = n ∧ ∀ i < n, c.val i = 0 ∨ c.val i = 1 ∨ c.val i = UNKNOWN)
    ⟨fun ⟨size, values⟩ => ⟨size, values⟩, fun ⟨size, values⟩ => ⟨size, values⟩⟩

instance (n : Nat) (c : Comb) : Decidable (c.Valid n) :=
  decidable_of_iff (c.size = n ∧ ∀ i < n, 0 ≤ c.val i ∨ c.val i = UNKNOWN)
    ⟨fun ⟨size, values⟩ => ⟨size, values⟩, fun ⟨size, values⟩ => ⟨size, values⟩⟩

instance (n : Nat) (t : Testcase) : Decidable (Binary n t) :=
  decidable_of_iff (t.size = n ∧ ∀ i < n, t.val i = 0 ∨ t.val i = 1)
    ⟨fun ⟨size, values⟩ => ⟨size, values⟩, fun ⟨size, values⟩ => ⟨size, values⟩⟩

/-- The part of `c` on the parameters in `S`. -/
def restrict (c : Comb) (S : Finset Nat) : Comb :=
  ⟨.comb, (List.range c.size).map fun i => if i ∈ S then c.val i else UNKNOWN⟩

/-- Both padding methods, with the values they choose where no safe value is known. -/
def padWith (c safe : Comb) (filler : Nat → Int) : Testcase :=
  ⟨.testcase, (List.range c.size).map fun i =>
    if c.val i = UNKNOWN then if safe.val i = UNKNOWN then filler i else safe.val i
    else c.val i⟩

@[ext] theorem ext {A B : Comb} (cls : A.cls = B.cls) (size : A.size = B.size)
    (values : ∀ i < A.size, A.val i = B.val i) : A = B := by
  obtain ⟨clsA, as⟩ := A
  obtain ⟨clsB, bs⟩ := B
  simp only at cls
  subst cls
  have same : as = bs := by
    apply List.ext_getElem size
    intro i left right
    have here := values i left
    simpa only [val, List.getD_eq_getElem?_getD, List.getElem?_eq_getElem left,
      List.getElem?_eq_getElem right, Option.getD_some] using here
  rw [same]

theorem val_of_size_le {c : Comb} {i : Nat} (outside : c.size ≤ i) : c.val i = UNKNOWN := by
  simp only [val, List.getD_eq_getElem?_getD, List.getElem?_eq_none outside, Option.getD_none]

theorem get_eq_val {c : Comb} {i : Nat} (inside : i < c.size) : c.get i = .ok (c.val i) := by
  have bound : i < c.elements.length := inside
  simp only [get, val, List.getD_eq_getElem?_getD, List.getElem?_eq_getElem bound,
    Option.getD_some]

/-- A combination written as a table of values. -/
theorem size_tabulate (cls : CombClass) (n : Nat) (f : Nat → Int) :
    (⟨cls, (List.range n).map f⟩ : Comb).size = n := by
  simp [size]

theorem val_tabulate (cls : CombClass) {n i : Nat} (f : Nat → Int) (inside : i < n) :
    (⟨cls, (List.range n).map f⟩ : Comb).val i = f i := by
  simp [val, inside]

theorem set_tabulate {cls : CombClass} {n i : Nat} {f : Nat → Int} {value : Int}
    (inside : i < n) :
    (⟨cls, (List.range n).map f⟩ : Comb).set i value =
      .ok ⟨cls, (List.range n).map fun j => if j = i then value else f j⟩ := by
  rw [set, if_pos (by rw [size_tabulate]; exact inside)]
  congr 2
  apply List.ext_getElem
  · simp
  · intro j left right
    simp only [List.getElem_set, List.getElem_map, List.getElem_range, eq_comm]

theorem mem_fixed {c : Comb} {i : Nat} : i ∈ c.fixed ↔ c.val i ≠ UNKNOWN := by
  simp only [fixed, Finset.mem_filter, Finset.mem_range, and_iff_right_iff_imp]
  intro known
  by_contra outside
  exact known (val_of_size_le (by omega))

theorem fixed_subset_range (c : Comb) : c.fixed ⊆ Finset.range c.size :=
  Finset.filter_subset _ _

theorem contains_iff {A B : Comb} :
    A.Contains B ↔ A.size = B.size ∧ ∀ i ∈ B.fixed, A.val i = B.val i := by
  refine and_congr_right fun size => ⟨fun agree i known => ?_, fun agree i _ => ?_⟩
  · have inside : i < A.size := by
      have := Finset.mem_range.mp (B.fixed_subset_range known)
      omega
    exact (agree i inside).resolve_right (mem_fixed.mp known)
  · by_cases known : B.val i = UNKNOWN
    · exact Or.inr known
    · exact Or.inl (agree i (mem_fixed.mpr known))

theorem contains_eq {A B : Comb} (size : A.size = B.size) :
    contains A B = .ok (decide (A.Contains B)) := by
  have same : ((List.range A.size).all fun i => A.val i == B.val i || B.val i == UNKNOWN) =
      decide (A.Contains B) := by
    rw [Bool.eq_iff_iff]
    simp [Contains, size]
  simp only [contains, size, ne_eq, not_true_eq_false, if_false, ← same]

theorem Contains.refl (c : Comb) : c.Contains c := ⟨rfl, fun _ _ => Or.inl rfl⟩

theorem Contains.fixed_subset {A B : Comb} (inside : A.Contains B) : B.fixed ⊆ A.fixed := by
  intro i known
  rw [mem_fixed, (contains_iff.mp inside).2 i known]
  exact mem_fixed.mp known

theorem Contains.trans {A B C : Comb} (outer : A.Contains B) (inner : B.Contains C) :
    A.Contains C := by
  rw [contains_iff] at *
  refine ⟨outer.1.trans inner.1, fun i known => ?_⟩
  have between : i ∈ B.fixed := (contains_iff.mpr inner).fixed_subset known
  rw [outer.2 i between, inner.2 i known]

/-- Of two parts of one combination the one with fewer fixed parameters is the smaller. -/
theorem contains_of_fixed_subset {t A B : Comb} (inA : t.Contains A) (inB : t.Contains B)
    (sub : B.fixed ⊆ A.fixed) : A.Contains B := by
  rw [contains_iff] at *
  refine ⟨inA.1.symm.trans inB.1, fun i known => ?_⟩
  rw [← inA.2 i (sub known), inB.2 i known]

theorem Contains.antisymm {A B : Comb} (cls : A.cls = B.cls) (left : A.Contains B)
    (right : B.Contains A) : A = B := by
  refine ext cls left.1 fun i inside => ?_
  rcases left.2 i inside with same | unknown
  · exact same
  · rcases right.2 i (left.1 ▸ inside) with same | also
    · exact same.symm
    · rw [unknown, also]

theorem Over.valid {n : Nat} {comb : Comb} (wf : comb.Over n) : comb.Valid n := by
  refine ⟨wf.size, fun i inside => ?_⟩
  rcases wf.values i inside with zero | one | unknown
  · omega
  · omega
  · exact Or.inr unknown

@[simp] theorem restrict_size (c : Comb) (S : Finset Nat) : (c.restrict S).size = c.size :=
  size_tabulate _ _ _

theorem restrict_val {c : Comb} {S : Finset Nat} {i : Nat} :
    (c.restrict S).val i = if i ∈ S then c.val i else UNKNOWN := by
  by_cases inside : i < c.size
  · exact val_tabulate _ _ inside
  · rw [val_of_size_le (by rw [restrict_size]; omega), val_of_size_le (by omega)]
    split <;> rfl

/-- Setting a parameter of a part to its value in the whole adds it to the part. -/
theorem set_restrict_insert {c : Comb} (cls : CombClass) (S : Finset Nat) {i : Nat}
    (inside : i < c.size) : (⟨cls, (c.restrict S).elements⟩ : Comb).set i (c.val i) =
      .ok ⟨cls, (c.restrict (insert i S)).elements⟩ := by
  unfold restrict
  rw [set_tabulate inside]
  congr 3
  funext j
  by_cases here : j = i
  · simp [here]
  · simp [here]

theorem set_restrict_erase {c : Comb} (cls : CombClass) (S : Finset Nat) {i : Nat}
    (inside : i < c.size) : (⟨cls, (c.restrict S).elements⟩ : Comb).set i UNKNOWN =
      .ok ⟨cls, (c.restrict (S.erase i)).elements⟩ := by
  unfold restrict
  rw [set_tabulate inside]
  congr 3
  funext j
  by_cases here : j = i
  · simp [here]
  · simp [here]

theorem restrict_fixed (c : Comb) (S : Finset Nat) : (c.restrict S).fixed = c.fixed ∩ S := by
  ext i
  rw [mem_fixed, restrict_val, Finset.mem_inter, mem_fixed]
  split <;> simp [*]

theorem contains_restrict (c : Comb) (S : Finset Nat) : c.Contains (c.restrict S) := by
  refine ⟨by simp, fun i _ => ?_⟩
  rw [restrict_val]
  split
  · exact Or.inl rfl
  · exact Or.inr rfl

theorem restrict_contains_iff {t M : Comb} {S : Finset Nat} :
    (t.restrict S).Contains M ↔ t.Contains M ∧ M.fixed ⊆ S := by
  constructor
  · intro inside
    refine ⟨(contains_restrict t S).trans inside, ?_⟩
    have sub := inside.fixed_subset
    rw [restrict_fixed] at sub
    exact sub.trans Finset.inter_subset_right
  · rintro ⟨inside, sub⟩
    apply contains_of_fixed_subset (contains_restrict t S) inside
    rw [restrict_fixed]
    exact Finset.subset_inter inside.fixed_subset sub

theorem restrict_restrict_contains {t : Comb} {S T : Finset Nat} (sub : T ⊆ S) :
    (t.restrict S).Contains (t.restrict T) := by
  rw [restrict_contains_iff, restrict_fixed]
  exact ⟨contains_restrict t T, Finset.inter_subset_right.trans sub⟩

/-- A part of a combination is its restriction to the parameters the part fixes. -/
theorem restrict_fixed_eq {t M : Comb} (cls : M.cls = .comb) (inside : t.Contains M) :
    t.restrict M.fixed = M := by
  refine ext cls.symm (by rw [restrict_size, inside.1]) fun i _ => ?_
  rw [restrict_val]
  split
  · rename_i known
    exact (contains_iff.mp inside).2 i known
  · rename_i unknown
    rw [mem_fixed, not_not] at unknown
    exact unknown.symm

theorem Binary.fixed_eq {n : Nat} {t : Testcase} (binary : t.Binary n) :
    t.fixed = Finset.range n := by
  ext i
  rw [mem_fixed, Finset.mem_range]
  constructor
  · intro known
    by_contra outside
    exact known (val_of_size_le (by rw [binary.size]; omega))
  · intro inside
    rcases binary.values i inside with zero | one
    · rw [zero]; decide
    · rw [one]; decide

theorem Binary.restrict_fixed {n : Nat} {t : Testcase} (binary : t.Binary n) {S : Finset Nat}
    (within : S ⊆ Finset.range n) : (t.restrict S).fixed = S := by
  rw [Comb.restrict_fixed, binary.fixed_eq]
  exact Finset.inter_eq_right.mpr within

/-- Whatever contains a part of `t` has the values of `t` there. -/
theorem Binary.contains_restrict_iff {n : Nat} {t A : Testcase} (binary : t.Binary n)
    {S : Finset Nat} (within : S ⊆ Finset.range n) :
    A.Contains (t.restrict S) ↔ A.size = n ∧ ∀ i ∈ S, A.val i = t.val i := by
  rw [contains_iff, restrict_size, binary.size, binary.restrict_fixed within]
  refine and_congr_right fun _ => forall₂_congr fun i member => ?_
  rw [restrict_val, if_pos member]

@[simp] theorem padWith_size (c safe : Comb) (filler : Nat → Int) :
    (c.padWith safe filler).size = c.size :=
  size_tabulate _ _ _

theorem padWith_val {c safe : Comb} {filler : Nat → Int} {i : Nat} (inside : i < c.size) :
    (c.padWith safe filler).val i =
      if c.val i = UNKNOWN then if safe.val i = UNKNOWN then filler i else safe.val i
      else c.val i :=
  val_tabulate _ _ inside

end Comb

theorem Comb.validated_ok {cls : CombClass} {elements : List Int}
    (valid : ∀ v ∈ elements, 0 ≤ v ∨ v = UNKNOWN) :
    Comb.validated cls elements = .ok ⟨cls, elements⟩ := by
  rw [Comb.validated, if_neg]
  simp only [List.any_eq_true, not_exists, not_and]
  intro v member
  rcases valid v member with nonneg | unknown
  · simp; omega
  · simp [unknown]

/-- The check of the test case constructors. -/
theorem Comb.Binary.known {n : Nat} {t : Testcase} (binary : t.Binary n) :
    ¬ t.elements.any (· == Comb.UNKNOWN) = true := by
  simp only [List.any_eq_true, not_exists, not_and, beq_iff_eq]
  intro v member unknown
  obtain ⟨i, bound, rfl⟩ := List.getElem_of_mem member
  have value := binary.values i (binary.size ▸ bound)
  simp only [Comb.val, List.getD_eq_getElem?_getD, List.getElem?_eq_getElem bound,
    Option.getD_some, unknown] at value
  exact absurd value (by decide)

theorem MutableTestcase.ofComb_eq {n : Nat} {t : Testcase} (binary : t.Binary n) :
    MutableTestcase.ofComb t = .ok ⟨.mutableTestcase, t.elements⟩ := by
  rw [MutableTestcase.ofComb, if_neg binary.known]

theorem Testcase.ofComb_eq {n : Nat} {t : Testcase} (binary : t.Binary n) :
    Testcase.ofComb t = .ok ⟨.testcase, t.elements⟩ := by
  rw [Testcase.ofComb, if_neg binary.known]

/-- A padded combination is accepted as a test case. -/
theorem Testcase.ofList_padWith {n : Nat} {comb safeValues : Comb} (sized : comb.Valid n)
    (safe : safeValues.Valid n) {filler : Nat → Int}
    (binary : ∀ i < n, filler i = 0 ∨ filler i = 1) :
    Testcase.ofList (comb.padWith safeValues filler).elements = .ok
      (comb.padWith safeValues filler) := by
  apply Comb.validated_ok
  intro v member
  simp only [Comb.padWith, List.mem_map, List.mem_range] at member
  obtain ⟨i, bound, rfl⟩ := member
  have inside : i < n := by rwa [sized.size] at bound
  split
  · split
    · have value := binary i inside
      omega
    · exact safe.values i inside
  · exact sized.values i inside

theorem Testcase.paddingWithSafeValues_eq {n : Nat} {comb safeValues : Comb} {tfail : Testcase}
    (sized : comb.Valid n) (safe : safeValues.Valid n) (binary : tfail.Binary n) :
    Testcase.paddingWithSafeValues comb safeValues tfail =
      .ok (comb.padWith safeValues fun i => 1 - tfail.val i) := by
  have loop : (List.range comb.size).mapM (fun i =>
      if comb.val i = Comb.UNKNOWN then do
        let safe ← safeValues.get i
        if safe = Comb.UNKNOWN then return 1 - (← tfail.get i) else return safe
      else return comb.val i) =
        .ok (comb.padWith safeValues fun i => 1 - tfail.val i).elements := by
    apply Except.mapM_ok
    intro i member
    have inside : i < n := by simpa [sized.size] using member
    rw [Comb.get_eq_val (by rw [safe.size]; exact inside),
      Comb.get_eq_val (by rw [binary.size]; exact inside)]
    by_cases unknown : comb.val i = Comb.UNKNOWN
    · by_cases open' : safeValues.val i = Comb.UNKNOWN <;>
        simp [unknown, open', bind, Except.bind, pure, Except.pure]
    · simp [unknown, pure, Except.pure]
  rw [Testcase.paddingWithSafeValues, loop]
  apply Testcase.ofList_padWith sized safe
  intro i inside
  have value := binary.values i inside
  omega

end NoPend
