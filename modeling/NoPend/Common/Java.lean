import NoPend.Lib.Proc
import Mathlib.Data.Finset.Card
import Mathlib.Data.List.Dedup

set_option autoImplicit false

/- The parts of the Java library that the resolvers use. -/
namespace NoPend

/-- What a call can throw. `outOfFuel` is no Java exception: it ends the model of a
loop that was given too few rounds. -/
inductive Exn where
  | illegalArgument (message : String)
  | illegalState (message : String)
  | runtime (message : String)
  | unsupportedOperation (message : String)
  | notImplemented (message : String)
  | indexOutOfBounds
  | noSuchElement
  | numberFormat
  | nullPointer
  | outOfFuel
deriving DecidableEq, Repr

/-- The value an `int` takes. -/
def wrap (i : Int) : Int := i.bmod (2 ^ 32)

theorem wrap_of_lt {i : Int} (low : 0 ≤ i) (high : i < 2 ^ 31) : wrap i = i := by
  unfold wrap
  rw [Int.bmod_def]
  omega

/-- `List.get(index)`. -/
def listGet {α : Type} (items : List α) (index : Int) : Except Exn α :=
  if index < 0 then .error .indexOutOfBounds
  else match items[index.toNat]? with
    | some item => .ok item
    | none => .error .indexOutOfBounds

theorem listGet_ofNat {α : Type} {items : List α} {index : Nat} (inside : index < items.length) :
    listGet items index = .ok items[index] := by
  simp only [listGet, Int.toNat_natCast, List.getElem?_eq_getElem inside]
  rw [if_neg (by omega)]

theorem listGet_eq_ok {α : Type} {items : List α} {index : Int} {item : α} :
    listGet items index = .ok item ↔ 0 ≤ index ∧ items[index.toNat]? = some item := by
  unfold listGet
  by_cases negative : index < 0
  · simp [negative]
  · simp only [negative, if_false, not_lt.mp negative, true_and]
    cases items[index.toNat]? <;> simp

/-- `java.util.HashSet`, its elements listed in the order of their insertion. -/
structure HashSet (α : Type) where
  toList : List α
  nodup : toList.Nodup

namespace HashSet

variable {α : Type} [DecidableEq α]

def empty : HashSet α := ⟨[], List.nodup_nil⟩

instance : Membership α (HashSet α) := ⟨fun set x => x ∈ set.toList⟩

instance (x : α) (set : HashSet α) : Decidable (x ∈ set) :=
  inferInstanceAs (Decidable (x ∈ set.toList))

omit [DecidableEq α] in
theorem mem_toList {x : α} {set : HashSet α} : x ∈ set.toList ↔ x ∈ set := Iff.rfl

def contains (set : HashSet α) (x : α) : Bool := decide (x ∈ set)

def size (set : HashSet α) : Nat := set.toList.length

def isEmpty (set : HashSet α) : Bool := set.toList.isEmpty

def add (set : HashSet α) (x : α) : HashSet α :=
  if fresh : x ∈ set.toList then set
  else ⟨set.toList ++ [x], by
    rw [List.nodup_append]
    refine ⟨set.nodup, List.nodup_singleton x, fun a inside b single => ?_⟩
    rw [List.mem_singleton.mp single]
    rintro rfl
    exact fresh inside⟩

def addAll (set : HashSet α) (items : List α) : HashSet α := items.foldl add set

/-- `removeIf` with a predicate that may throw. What is removed before a throw is not
modelled: every caller's set is a local variable of the call that then throws. -/
def removeIf (set : HashSet α) (drop : α → Except Exn Bool) : Except Exn (HashSet α) := do
  let kept ← set.toList.mapM fun x => do return (x, !(← drop x))
  return ⟨((kept.filter (·.2)).map (·.1)).dedup, List.nodup_dedup _⟩

omit [DecidableEq α] in
@[simp] theorem notMem_empty (x : α) : x ∉ (empty : HashSet α) := List.not_mem_nil

@[simp] theorem mem_add {set : HashSet α} {x y : α} :
    y ∈ set.add x ↔ y ∈ set ∨ y = x := by
  unfold add
  split
  · rename_i inside
    constructor
    · exact Or.inl
    · rintro (member | rfl)
      · exact member
      · exact inside
  · change y ∈ set.toList ++ [x] ↔ _
    rw [List.mem_append, List.mem_singleton, mem_toList]

theorem toList_add {set : HashSet α} {x : α} (new : x ∉ set) :
    (set.add x).toList = set.toList ++ [x] := by
  exact congrArg toList (dif_neg new)

theorem size_add_le (set : HashSet α) (x : α) : (set.add x).size ≤ set.size + 1 := by
  by_cases known : x ∈ set
  · rw [show set.add x = set from dif_pos known]
    exact Nat.le_succ _
  · rw [size, toList_add known, List.length_append]
    exact le_refl _

@[simp] theorem mem_addAll {set : HashSet α} {items : List α} {y : α} :
    y ∈ set.addAll items ↔ y ∈ set ∨ y ∈ items := by
  induction items generalizing set with
  | nil => simp [addAll]
  | cons x rest ih =>
      change y ∈ (set.add x).addAll rest ↔ _
      rw [ih, mem_add, List.mem_cons, or_assoc]

theorem removeIf_ok {set : HashSet α} {drop : α → Except Exn Bool} (dropped : α → Bool)
    (each : ∀ x ∈ set, drop x = .ok (dropped x)) :
    ∃ rest, set.removeIf drop = .ok rest ∧ ∀ y,
      y ∈ rest ↔ y ∈ set ∧ dropped y = false := by
  have marks : set.toList.mapM (fun x => do return (x, !(← drop x))) =
      .ok (set.toList.map fun x => (x, !dropped x)) := by
    apply Except.mapM_ok
    intro x member
    rw [each x member]
    rfl
  refine ⟨_, by rw [removeIf, marks]; rfl, fun y => ?_⟩
  change y ∈ List.dedup _ ↔ _
  rw [List.mem_dedup, List.mem_map]
  constructor
  · rintro ⟨⟨x, flag⟩, member, rfl⟩
    obtain ⟨inside, kept⟩ := List.mem_filter.mp member
    obtain ⟨z, found, same⟩ := List.mem_map.mp inside
    simp only [Prod.mk.injEq] at same
    obtain ⟨rfl, rfl⟩ := same
    exact ⟨found, by simpa using kept⟩
  · rintro ⟨member, kept⟩
    exact ⟨(y, !dropped y), List.mem_filter.mpr
      ⟨List.mem_map.mpr ⟨y, member, rfl⟩, by simp [kept]⟩, rfl⟩

omit [DecidableEq α] in
/-- The size of a set is determined by its elements. -/
theorem size_eq_of_mem {a b : HashSet α} (same : ∀ x, x ∈ a ↔ x ∈ b) : a.size = b.size :=
  ((List.perm_ext_iff_of_nodup a.nodup b.nodup).mpr same).length_eq

/-- If `removeIf` returns, the predicate did not throw, and what it refused is left. -/
theorem mem_removeIf {set rest : HashSet α} {drop : α → Except Exn Bool}
    (done : set.removeIf drop = .ok rest) :
    (∀ y ∈ set, ∃ dropped, drop y = .ok dropped) ∧
      ∀ y, y ∈ rest ↔ y ∈ set ∧ drop y = .ok false := by
  obtain ⟨marks, marked, _⟩ := Except.bind_ok.mp done
  have total : ∀ y ∈ set, ∃ dropped, drop y = .ok dropped := by
    intro y member
    obtain ⟨mark, _, step⟩ := Except.ok_of_mapM marked member
    obtain ⟨dropped, answer, _⟩ := Except.bind_ok.mp step
    exact ⟨dropped, answer⟩
  refine ⟨total, fun y => ?_⟩
  have each : ∀ y ∈ set, drop y = .ok ((drop y).toOption.getD false) := by
    intro y member
    obtain ⟨dropped, answer⟩ := total y member
    rw [answer]
    rfl
  obtain ⟨rest', again, mem⟩ := removeIf_ok _ each
  rw [Except.ok.inj (done.symm.trans again), mem y]
  refine and_congr_right fun member => ?_
  obtain ⟨dropped, answer⟩ := total y member
  rw [answer]
  simp [Except.toOption]

end HashSet

/-- The order in which a `for` loop walks a hash set: any permutation of it, chosen
from the whole insertion history. -/
structure IterOrder (α : Type) where
  walk : List α → List α
  perm : ∀ items, (walk items).Perm items

namespace IterOrder

variable {α : Type}

def insertion : IterOrder α := ⟨id, fun _ => List.Perm.refl _⟩

theorem mem_walk (order : IterOrder α) {items : List α} {x : α} :
    x ∈ order.walk items ↔ x ∈ items :=
  (order.perm items).mem_iff

end IterOrder

/-- `java.util.BitSet`: the indices that are set, the number of allocated 64-bit words,
and whether that number is still the one asked for at construction. -/
structure BitSet where
  bits : Finset Nat
  words : Nat
  sizeIsSticky : Bool
deriving DecidableEq

namespace BitSet

def new (nbits : Nat) : BitSet := ⟨∅, (nbits + 63) / 64, true⟩

/-- The number of bits of storage, not the number of bits that are set. -/
def size (b : BitSet) : Nat := 64 * b.words

def get (b : BitSet) (index : Nat) : Bool := decide (index ∈ b.bits)

/-- Storage too small for a bit that is to be set is at least doubled. -/
def expandTo (b : BitSet) (wordIndex : Nat) : BitSet :=
  if wordIndex < b.words then b
  else { b with words := max (2 * b.words) (wordIndex + 1), sizeIsSticky := false }

def set (b : BitSet) (index : Nat) (value : Bool) : BitSet :=
  if value then { b.expandTo (index / 64) with bits := insert index b.bits }
  else { b with bits := b.bits.erase index }

/-- `set(fromIndex, toIndex, value)`: `toIndex` is excluded. -/
def setRange (b : BitSet) (fromIndex toIndex : Nat) (value : Bool) : BitSet :=
  if value then
    if fromIndex < toIndex then
      { b.expandTo ((toIndex - 1) / 64) with bits := b.bits ∪ Finset.Ico fromIndex toIndex }
    else b
  else { b with bits := b.bits \ Finset.Ico fromIndex toIndex }

/-- Storage that has grown is cut back to the words in use before it is copied. -/
def clone (b : BitSet) : BitSet :=
  if b.sizeIsSticky then b else { b with words := b.bits.sup fun i => i / 64 + 1 }

def cardinality (b : BitSet) : Nat := b.bits.card

/-- Bits are compared, storage is not. -/
def equals (a b : BitSet) : Bool := decide (a.bits = b.bits)

def and (a b : BitSet) : BitSet := { a with bits := a.bits ∩ b.bits }

@[simp] theorem new_bits (nbits : Nat) : (new nbits).bits = ∅ := rfl

@[simp] theorem get_eq_true {b : BitSet} {index : Nat} :
    b.get index = true ↔ index ∈ b.bits := by
  simp [get]

@[simp] theorem get_eq_false {b : BitSet} {index : Nat} :
    b.get index = false ↔ index ∉ b.bits := by
  simp [get]

@[simp] theorem set_true_bits (b : BitSet) (index : Nat) :
    (b.set index true).bits = insert index b.bits := rfl

@[simp] theorem set_false_bits (b : BitSet) (index : Nat) :
    (b.set index false).bits = b.bits.erase index := rfl

@[simp] theorem setRange_true_bits (b : BitSet) (fromIndex toIndex : Nat) :
    (b.setRange fromIndex toIndex true).bits = b.bits ∪ Finset.Ico fromIndex toIndex := by
  by_cases order : fromIndex < toIndex
  · simp [setRange, order]
  · simp [setRange, order, Finset.Ico_eq_empty order]

@[simp] theorem setRange_false_bits (b : BitSet) (fromIndex toIndex : Nat) :
    (b.setRange fromIndex toIndex false).bits = b.bits \ Finset.Ico fromIndex toIndex := rfl

@[simp] theorem clone_bits (b : BitSet) : b.clone.bits = b.bits := by
  unfold clone
  split <;> rfl

/-- A loop that sets the bit of every listed index to a value of its own. -/
def assign (indices : List Nat) (value : Nat → Bool) (b : BitSet) : BitSet :=
  indices.foldl (fun current i => current.set i (value i)) b

theorem mem_assign {indices : List Nat} {value : Nat → Bool} {b : BitSet} {i : Nat} :
    i ∈ (assign indices value b).bits ↔
      (i ∈ indices ∧ value i = true) ∨ (i ∉ indices ∧ i ∈ b.bits) := by
  induction indices generalizing b with
  | nil => simp [assign]
  | cons j rest ih =>
      change i ∈ (assign rest value (b.set j (value j))).bits ↔ _
      rw [ih]
      by_cases later : i ∈ rest
      · simp [later]
      · by_cases here : i = j
        · subst here
          cases value i <;> simp [*]
        · cases value j <;> simp [later, here]

end BitSet

end NoPend
