import NoPend.Common.Comb

set_option autoImplicit false

namespace NoPend

/-- A set of parameters. `MutableSchema` objects are values of this type too; their
updates return the new value. -/
structure Schema where
  bitset : BitSet
  logic_size : Nat
deriving DecidableEq

namespace Schema

/-- `Schema(int size)`: the empty schema. -/
def ofSize (size : Nat) : Schema := ⟨BitSet.new size, size⟩

/-- `Schema(int size, boolean flag)`. -/
def ofFlag (size : Nat) (flag : Bool) : Schema :=
  if flag then ⟨(BitSet.new size).setRange 0 size true, size⟩ else ofSize size

/-- `Schema(Schema other)` and `MutableSchema(Schema schema)`. -/
def copy (other : Schema) : Schema := ⟨other.bitset.clone, other.logic_size⟩

/-- `Schema(Comb comb)`: the parameters that `comb` fixes. -/
def ofComb (comb : Comb) : Schema :=
  ⟨(List.range comb.size).foldl
    (fun b i => if comb.val i ≠ Comb.UNKNOWN then b.set i true else b) (BitSet.new comb.size),
    comb.size⟩

/-- `Schema(int size, List<Integer> indices)`. -/
def ofIndices (size : Nat) (indices : List Nat) : Schema :=
  ⟨indices.foldl (fun b i => b.set i true) (BitSet.new size), size⟩

def getLogicSize (s : Schema) : Nat := s.logic_size

def get (s : Schema) (index : Nat) : Bool := s.bitset.get index

def size (s : Schema) : Nat := s.bitset.cardinality

/-- `getComb(testcase)`: the values of `testcase` on the parameters of the schema. -/
def getComb (s : Schema) (testcase : Testcase) : Except Exn Comb := do
  let elements ← (List.range s.getLogicSize).mapM fun i =>
    if s.get i then testcase.get i else .ok Comb.UNKNOWN
  return ⟨.comb, elements⟩

def getIndices (s : Schema) : List Nat := (List.range s.getLogicSize).filter s.get

def equals (s other : Schema) : Bool := s.bitset.equals other.bitset

def sizeMismatch : Exn := .illegalArgument "Schemas must have the same getLogicSize"

def and (s other : Schema) : Except Exn Schema :=
  if s.getLogicSize ≠ other.getLogicSize then .error sizeMismatch
  else .ok ⟨(copy s).bitset.and other.bitset, s.logic_size⟩

def or (s other : Schema) : Except Exn Schema :=
  if s.getLogicSize ≠ other.getLogicSize then .error sizeMismatch
  else .ok ⟨BitSet.assign (List.range s.getLogicSize)
    (fun i => s.bitset.get i || other.bitset.get i) (BitSet.new s.logic_size), s.logic_size⟩

def complement (s : Schema) : Schema :=
  ⟨BitSet.assign (List.range s.getLogicSize) (fun i => !s.bitset.get i) (BitSet.new s.logic_size),
    s.logic_size⟩

def isSubsetOf (s other : Schema) : Except Exn Bool :=
  if s.getLogicSize ≠ other.getLogicSize then .error sizeMismatch
  else do return (← s.and other).equals s

def isSupersetOf (s other : Schema) : Except Exn Bool :=
  if s.getLogicSize ≠ other.getLogicSize then .error sizeMismatch
  else other.isSubsetOf s

/-- `complement(universe)`. -/
def complementIn (s univ : Schema) : Except Exn Schema := do
  if s.getLogicSize ≠ univ.getLogicSize then throw sizeMismatch
  if !(← s.isSubsetOf univ) then
    throw (.illegalArgument "Universe must be the super set of this schema")
  return ⟨BitSet.assign ((List.range s.getLogicSize).filter univ.bitset.get)
    (fun i => !s.bitset.get i) (BitSet.new s.logic_size),
    s.logic_size⟩

def overlapsWith (s other : Schema) : Except Exn Bool :=
  if s.getLogicSize ≠ other.getLogicSize then .error sizeMismatch
  else .ok ((List.range s.getLogicSize).any fun i => s.bitset.get i && other.bitset.get i)

/-- `MutableSchema.set(index, value)`. -/
def set (s : Schema) (index : Nat) (value : Bool) : Schema :=
  { s with bitset := s.bitset.set index value }

/-- `MutableSchema.setComplement()`: the loop runs over the storage of the bit set. -/
def setComplement (s : Schema) : Schema :=
  { s with bitset := (List.range s.bitset.size).foldl (fun b i => b.set i (!b.get i)) s.bitset }

/-- The parameters of the schema as a set. -/
def bits (s : Schema) : Finset Nat := s.bitset.bits

/-- A schema over `n` parameters. -/
structure Wf (n : Nat) (s : Schema) : Prop where
  logic : s.logic_size = n
  within : s.bits ⊆ Finset.range n

@[simp] theorem get_eq_true {s : Schema} {i : Nat} : s.get i = true ↔ i ∈ s.bits :=
  BitSet.get_eq_true

@[simp] theorem get_eq_false {s : Schema} {i : Nat} : s.get i = false ↔ i ∉ s.bits :=
  BitSet.get_eq_false

@[simp] theorem ofSize_bits (n : Nat) : (ofSize n).bits = ∅ := rfl

@[simp] theorem ofSize_logic (n : Nat) : (ofSize n).logic_size = n := rfl

@[simp] theorem copy_bits (s : Schema) : s.copy.bits = s.bits := BitSet.clone_bits _

@[simp] theorem copy_logic (s : Schema) : s.copy.logic_size = s.logic_size := rfl

@[simp] theorem ofFlag_true_bits (n : Nat) : (ofFlag n true).bits = Finset.range n := by
  change (BitSet.setRange _ _ _ _).bits = _
  rw [BitSet.setRange_true_bits, BitSet.new_bits, Finset.empty_union, Finset.range_eq_Ico]

@[simp] theorem ofFlag_logic (n : Nat) (flag : Bool) : (ofFlag n flag).logic_size = n := by
  cases flag <;> rfl

@[simp] theorem set_true_bits (s : Schema) (i : Nat) : (s.set i true).bits = insert i s.bits := rfl

@[simp] theorem set_false_bits (s : Schema) (i : Nat) : (s.set i false).bits = s.bits.erase i := rfl

@[simp] theorem set_logic (s : Schema) (i : Nat) (v : Bool) :
    (s.set i v).logic_size = s.logic_size :=
  rfl

theorem ofSize_wf (n : Nat) : (ofSize n).Wf n := ⟨rfl, by simp⟩

theorem ofFlag_wf (n : Nat) : (ofFlag n true).Wf n := ⟨by simp, by simp⟩

theorem Wf.copy {n : Nat} {s : Schema} (wf : s.Wf n) : s.copy.Wf n :=
  ⟨wf.logic, by simpa using wf.within⟩

theorem Wf.set_true {n i : Nat} {s : Schema} (wf : s.Wf n) (inside : i < n) : (s.set i true).Wf n :=
  ⟨wf.logic, by simpa [Finset.insert_subset_iff, inside] using wf.within⟩

theorem Wf.set_false {n i : Nat} {s : Schema} (wf : s.Wf n) : (s.set i false).Wf n :=
  ⟨wf.logic, (Finset.erase_subset _ _).trans wf.within⟩

theorem Wf.lt {n i : Nat} {s : Schema} (wf : s.Wf n) (member : i ∈ s.bits) : i < n :=
  Finset.mem_range.mp (wf.within member)

theorem mem_getIndices {s : Schema} {i : Nat} :
    i ∈ s.getIndices ↔ i < s.logic_size ∧ i ∈ s.bits := by
  simp [getIndices, getLogicSize]

theorem Wf.getIndices_toFinset {n : Nat} {s : Schema} (wf : s.Wf n) :
    s.getIndices.toFinset = s.bits := by
  ext i
  rw [List.mem_toFinset, mem_getIndices, wf.logic]
  exact ⟨And.right, fun member => ⟨wf.lt member, member⟩⟩

theorem equals_eq (s other : Schema) : s.equals other = decide (s.bits = other.bits) := rfl

theorem ofComb_bits (c : Comb) : (ofComb c).bits = c.fixed := by
  have general : ∀ (indices : List Nat) (b : BitSet),
      (indices.foldl (fun b i => if c.val i ≠ Comb.UNKNOWN then b.set i true else b) b).bits =
        b.bits ∪ (indices.toFinset.filter (c.val · ≠ Comb.UNKNOWN)) := by
    intro indices
    induction indices with
    | nil => intro b; simp
    | cons i rest ih =>
        intro b
        rw [List.foldl_cons, ih]
        ext j
        by_cases known : c.val i = Comb.UNKNOWN <;> by_cases here : j = i <;>
          simp [known, here]
  rw [bits, ofComb, general, BitSet.new_bits, Finset.empty_union, List.toFinset_range]
  rfl

theorem ofComb_wf (c : Comb) : (ofComb c).Wf c.size :=
  ⟨rfl, by rw [ofComb_bits]; exact c.fixed_subset_range⟩

theorem ofIndices_bits (n : Nat) (indices : List Nat) :
    (ofIndices n indices).bits = indices.toFinset := by
  have general : ∀ (indices : List Nat) (b : BitSet),
      (indices.foldl (fun b i => b.set i true) b).bits = b.bits ∪ indices.toFinset := by
    intro indices
    induction indices with
    | nil => intro b; simp
    | cons i rest ih =>
        intro b
        rw [List.foldl_cons, ih, BitSet.set_true_bits, List.toFinset_cons]
        ext j
        simp only [Finset.mem_union, Finset.mem_insert]
        tauto
  rw [bits, ofIndices, general, BitSet.new_bits, Finset.empty_union]

theorem isSubsetOf_eq {s other : Schema} (same : s.logic_size = other.logic_size) :
    s.isSubsetOf other = .ok (decide (s.bits ⊆ other.bits)) := by
  have meet : ((copy s).bitset.and other.bitset).bits = s.bits ∩ other.bits := by
    change s.copy.bits ∩ other.bits = _
    rw [copy_bits]
  have test : (⟨(copy s).bitset.and other.bitset, s.logic_size⟩ : Schema).equals s =
      decide (s.bits ⊆ other.bits) := by
    rw [equals_eq, Bool.eq_iff_iff, decide_eq_true_eq, decide_eq_true_eq, ← Finset.inter_eq_left,
      ← meet]
    rfl
  have guard : ¬ s.getLogicSize ≠ other.getLogicSize := not_not_intro same
  rw [isSubsetOf, if_neg guard, Schema.and, if_neg guard, ← test]
  rfl

theorem isSupersetOf_eq {s other : Schema} (same : s.logic_size = other.logic_size) :
    s.isSupersetOf other = .ok (decide (other.bits ⊆ s.bits)) := by
  have guard : ¬ s.getLogicSize ≠ other.getLogicSize := not_not_intro same
  rw [isSupersetOf, if_neg guard, isSubsetOf_eq same.symm]

theorem overlapsWith_eq {n : Nat} {s other : Schema} (wf : s.Wf n) (same : other.logic_size = n) :
    s.overlapsWith other = .ok (decide (∃ i ∈ s.bits, i ∈ other.bits)) := by
  have guard : ¬ s.getLogicSize ≠ other.getLogicSize := not_not_intro (wf.logic.trans same.symm)
  rw [overlapsWith, if_neg guard]
  congr 1
  rw [Bool.eq_iff_iff, decide_eq_true_eq, List.any_eq_true]
  constructor
  · rintro ⟨i, _, both⟩
    simp only [Bool.and_eq_true, BitSet.get_eq_true] at both
    exact ⟨i, both⟩
  · rintro ⟨i, left, right⟩
    refine ⟨i, ?_, by simpa using ⟨left, right⟩⟩
    rw [List.mem_range, getLogicSize, wf.logic]
    exact wf.lt left

theorem complementIn_eq {n : Nat} {s univ : Schema} (wf : s.Wf n) (wfU : univ.Wf n)
    (sub : s.bits ⊆ univ.bits) :
    ∃ c, s.complementIn univ = .ok c ∧ c.Wf n ∧ c.bits = univ.bits \ s.bits := by
  have same : s.logic_size = univ.logic_size := wf.logic.trans wfU.logic.symm
  have guard : ¬ s.getLogicSize ≠ univ.getLogicSize := not_not_intro same
  refine ⟨_, by
    rw [complementIn, if_neg guard, isSubsetOf_eq same, decide_eq_true sub]
    rfl, ?_⟩
  have shape : ∀ i, i ∈ (BitSet.assign ((List.range s.getLogicSize).filter univ.bitset.get)
      (fun i => !s.bitset.get i) (BitSet.new s.logic_size)).bits ↔ i ∈ univ.bits \ s.bits := by
    intro i
    rw [BitSet.mem_assign, List.mem_filter, List.mem_range, getLogicSize, wf.logic,
      BitSet.get_eq_true, Finset.mem_sdiff]
    by_cases inU : i ∈ univ.bits
    · have inside := wfU.lt inU
      have inU' : i ∈ univ.bitset.bits := inU
      simp [inside, inU', bits]
    · have inU' : i ∉ univ.bitset.bits := inU
      simp [inU, inU']
  refine ⟨⟨wf.logic, ?_⟩, Finset.ext shape⟩
  intro i member
  exact wfU.within (Finset.mem_sdiff.mp ((shape i).mp member)).1

theorem complement_bits {n : Nat} {s : Schema} (same : s.logic_size = n) :
    s.complement.bits = Finset.range n \ s.bits := by
  ext i
  change i ∈ (BitSet.assign _ _ _).bits ↔ _
  rw [BitSet.mem_assign, List.mem_range, getLogicSize, same, Finset.mem_sdiff, Finset.mem_range]
  by_cases inside : i < n <;> simp [inside, bits]

theorem getComb_eq {n : Nat} {s : Schema} {t : Testcase} (logic : s.logic_size = n)
    (size : t.size = n) : s.getComb t = .ok (t.restrict s.bits) := by
  have loop : (List.range s.getLogicSize).mapM (fun i =>
      if s.get i then t.get i else .ok Comb.UNKNOWN) = .ok (t.restrict s.bits).elements := by
    rw [Comb.restrict, size, ← logic]
    apply Except.mapM_ok
    intro i member
    have inside : i < t.size := by
      rw [size, ← logic]
      exact List.mem_range.mp member
    by_cases there : i ∈ s.bits
    · simp [there, Comb.get_eq_val inside]
    · have absent : s.get i = false := get_eq_false.mpr there
      simp [there, absent]
  rw [getComb, loop]
  rfl

theorem size_eq (s : Schema) : s.size = s.bits.card := rfl

end Schema

end NoPend
