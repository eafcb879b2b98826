import NoPend.FaultResolver.Faults

set_option autoImplicit false

/- The tables of faults and safe values: the pass `computeSafeValue.py`, which derives one
from the other, and the reader `CSVResolver`. Both are given a file as rows of cells. -/
namespace NoPend

/-- The text of one cell. -/
abbrev Cell := List Char

instance : LawfulBEq Cell := inferInstance

/-- Drop the characters of a kind from both ends. -/
def dropEnds (drop : Char → Bool) (cell : Cell) : Cell :=
  ((cell.dropWhile drop).reverse.dropWhile drop).reverse

namespace ComputeSafeValue

/-- Python's `str.isspace`, for one character. -/
def isspace (c : Char) : Bool :=
  let i := c.toNat
  (0x09 ≤ i && i ≤ 0x0d) || (0x1c ≤ i && i ≤ 0x20) || i == 0x85 || i ==
    0xa0 || i == 0x1680 ||
    (0x2000 ≤ i && i ≤ 0x200a) || i == 0x2028 || i == 0x2029 || i == 0x202f || i == 0x205f ||
    i == 0x3000

def strip : Cell → Cell := dropEnds isspace

/-- The zeros and ones in a column. -/
def values (mfs_data : List (List Cell)) (col : Nat) : List Cell :=
  mfs_data.filterMap fun row =>
    match row[col]? with
    | none => none
    | some cell => if strip cell = ['0'] ∨ strip cell = ['1'] then some (strip cell) else none

/-- The safe value of a column, unless it holds both values. -/
def safe_value (values : List Cell) : Option Cell :=
  if ['1'] ∉ values ∧ ['0'] ∉ values then some ['-']
  else if ['1'] ∉ values then some ['1']
  else if ['0'] ∉ values then some ['0']
  else none

def compute_safe_values (reader : List (List Cell)) : Option (List Cell) :=
  let mfs_data := reader.filter fun row => !row.isEmpty && row.any fun cell => !(strip cell).isEmpty
  if mfs_data.isEmpty then none
  else
    let num_columns := (mfs_data.map List.length).foldl max 0
    (List.range num_columns).mapM fun col => safe_value (values mfs_data col)

end ComputeSafeValue

namespace CSVResolver

/-- Java's `String.trim`. -/
def trim : Cell → Cell := dropEnds fun c => c.toNat ≤ 0x20

/-- `Integer.parseInt`, on ASCII digits. -/
def parseInt (text : Cell) : Except Exn Int := do
  let (negative, digits) := match text with
    | '-' :: rest => (true, rest)
    | '+' :: rest => (false, rest)
    | _ => (false, text)
  if digits.isEmpty || !digits.all Char.isDigit then throw .numberFormat
  let magnitude : Int := digits.foldl (fun value d => 10 * value + (d.toNat - 48 : Nat)) 0
  let value := if negative then -magnitude else magnitude
  if value < -2 ^ 31 || value > 2 ^ 31 - 1 then throw .numberFormat
  return value

def readCell (part : Cell) : Except Exn Int :=
  if trim part = ['-'] then .ok Comb.UNKNOWN else parseInt (trim part)

/-- One row of `readCombinations`, and the row of `readSafeValue`. -/
def readRow (parts : List Cell) : Except Exn Comb := do
  Comb.ofList (← parts.mapM readCell)

def readCombinations (rows : List (List Cell)) : Except Exn (List Comb) := rows.mapM readRow

def readSafeValue : List (List Cell) → Except Exn Comb
  | [] => .error .nullPointer
  | row :: _ => readRow row

end CSVResolver

/-- A table of faults over `n` parameters: a row at least, and cells `0`, `1` and `-`. -/
structure MFSTable (n : Nat) (table : List (List Cell)) : Prop where
  nonempty : table ≠ []
  width : ∀ row ∈ table, row.length = n
  cells : ∀ row ∈ table, ∀ cell ∈ row, cell = ['0'] ∨ cell = ['1'] ∨ cell = ['-']

instance (n : Nat) (table : List (List Cell)) : Decidable (MFSTable n table) :=
  decidable_of_iff (table ≠ [] ∧ (∀ row ∈ table, row.length = n) ∧
      ∀ row ∈ table, ∀ cell ∈ row, cell = ['0'] ∨ cell = ['1'] ∨ cell = ['-'])
    ⟨fun ⟨nonempty, width, cells⟩ => ⟨nonempty, width, cells⟩,
      fun ⟨nonempty, width, cells⟩ => ⟨nonempty, width, cells⟩⟩

/-- A column that holds both values. -/
def Conflict (table : List (List Cell)) (col : Nat) : Prop :=
  (∃ row ∈ table, row[col]? = some ['0']) ∧ ∃ row ∈ table, row[col]? = some ['1']

open ComputeSafeValue CSVResolver

/-- The value a cell stands for. -/
def cellValue (cell : Cell) : Int :=
  if cell = ['0'] then 0 else if cell = ['1'] then 1 else Comb.UNKNOWN

variable {n : Nat} {table : List (List Cell)}

theorem strip_cell {cell : Cell} (ternary : cell = ['0'] ∨ cell = ['1'] ∨ cell = ['-']) :
    strip cell = cell := by
  rcases ternary with rfl | rfl | rfl <;> decide

theorem readCell_eq {cell : Cell} (ternary : cell = ['0'] ∨ cell = ['1'] ∨ cell = ['-']) :
    readCell cell = .ok (cellValue cell) := by
  rcases ternary with rfl | rfl | rfl <;> rfl

theorem readRow_eq {row : List Cell}
    (cells : ∀ cell ∈ row, cell = ['0'] ∨ cell = ['1'] ∨ cell = ['-']) :
    readRow row = .ok ⟨.comb, row.map cellValue⟩ := by
  rw [readRow, Except.mapM_ok fun cell member => readCell_eq (cells cell member)]
  apply Comb.validated_ok
  intro v member
  obtain ⟨cell, inside, rfl⟩ := List.mem_map.mp member
  rcases cells cell inside with rfl | rfl | rfl <;> decide

theorem val_cells {row : List Cell} {i : Nat} {cell : Cell} (here : row[i]? = some cell) :
    (⟨.comb, row.map cellValue⟩ : Comb).val i = cellValue cell := by
  simp [Comb.val, here]

theorem readCombinations_eq (wf : MFSTable n table) :
    readCombinations table = .ok (table.map fun row => ⟨.comb, row.map cellValue⟩) :=
  Except.mapM_ok fun row member => readRow_eq (wf.cells row member)

theorem mem_values (wf : MFSTable n table) {col : Nat} {cell : Cell} :
    cell ∈ values table col ↔ (cell = ['0'] ∨ cell = ['1']) ∧ ∃ row ∈ table,
      row[col]? = some cell := by
  rw [values, List.mem_filterMap]
  constructor
  · rintro ⟨row, member, found⟩
    cases here : row[col]? with
    | none => simp [here] at found
    | some other =>
        have ternary := wf.cells row member other (List.mem_of_getElem? here)
        simp only [here, strip_cell ternary, Option.ite_none_right_eq_some, Option.some.injEq]
          at found
        obtain ⟨binary, rfl⟩ := found
        exact ⟨binary, row, member, here⟩
  · rintro ⟨binary, row, member, here⟩
    have ternary := wf.cells row member cell (List.mem_of_getElem? here)
    refine ⟨row, member, ?_⟩
    simp [here, strip_cell ternary, binary]

/-- The pass keeps every row, and computes one safe value a column. -/
theorem compute_safe_values_eq (positive : 0 < n) (wf : MFSTable n table) :
    compute_safe_values table = (List.range n).mapM fun col => safe_value (values table col) := by
  have all : table.filter (fun row => !row.isEmpty && row.any fun cell => !(strip cell).isEmpty) =
      table := by
    rw [List.filter_eq_self]
    intro row member
    have width := wf.width row member
    cases row with
    | nil =>
        simp only [List.length_nil] at width
        omega
    | cons cell rest =>
        have ternary := wf.cells _ member cell (by simp)
        have kept : (strip cell).isEmpty = false := by
          rw [strip_cell ternary]
          rcases ternary with rfl | rfl | rfl <;> rfl
        simp [kept]
  have columns : (table.map List.length).foldl max 0 = n := by
    have same : table.map List.length = List.replicate table.length n := by
      rw [List.eq_replicate_iff]
      refine ⟨by simp, fun width member => ?_⟩
      obtain ⟨row, inside, rfl⟩ := List.mem_map.mp member
      exact wf.width row inside
    rw [same]
    obtain ⟨k, length⟩ : ∃ k, table.length = k + 1 :=
      ⟨table.length - 1, by have := List.length_pos_iff.mpr wf.nonempty; omega⟩
    rw [length]
    clear same length
    induction k with
    | zero => simp
    | succ k ih => simpa [List.replicate_succ, max_eq_right] using ih
  have nonempty : table.isEmpty = false := by simp [wf.nonempty]
  simp only [compute_safe_values, all, columns, nonempty]
  rfl

theorem safe_value_none (wf : MFSTable n table) {col : Nat} :
    safe_value (values table col) = none ↔ Conflict table col := by
  simp only [safe_value, mem_values wf, Conflict]
  by_cases zero : ∃ row ∈ table, row[col]? = some ['0']
  · by_cases one : ∃ row ∈ table, row[col]? = some ['1'] <;> simp [zero, one]
  · by_cases one : ∃ row ∈ table, row[col]? = some ['1'] <;> simp [zero, one]

/-- The safe value of a column differs from every value in it. -/
theorem safe_value_other (wf : MFSTable n table) {col : Nat} {safe cell : Cell}
    (computed : safe_value (values table col) = some safe) {row : List Cell}
    (member : row ∈ table)
    (here : row[col]? = some cell) (binary : cell = ['0'] ∨ cell = ['1']) :
    cellValue safe = 1 - cellValue cell := by
  have found : cell ∈ values table col := (mem_values wf).mpr ⟨binary, row, member, here⟩
  rcases binary with rfl | rfl
  · by_cases one : ['1'] ∈ values table col
    · simp [safe_value, found, one] at computed
    · simp only [safe_value, found, one, not_false_eq_true, not_true_eq_false, and_false, if_false,
        if_true, Option.some.injEq] at computed
      rw [← computed]
      decide
  · by_cases zero : ['0'] ∈ values table col
    · simp [safe_value, found, zero] at computed
    · simp only [safe_value, found, zero, not_false_eq_true, not_true_eq_false,
        false_and, if_false, if_true, Option.some.injEq] at computed
      rw [← computed]
      decide

theorem safe_value_some (wf : MFSTable n table) {col : Nat} (agree : ¬ Conflict table col) :
    safe_value (values table col) = some ((safe_value (values table col)).getD []) := by
  cases computed : safe_value (values table col) with
  | none => exact absurd ((safe_value_none wf).mp computed) agree
  | some safe => rfl

theorem safe_value_cell {items : List Cell} {safe : Cell}
    (computed : safe_value items = some safe) :
    safe = ['0'] ∨ safe = ['1'] ∨ safe = ['-'] := by
  unfold safe_value at computed
  split at computed
  · exact Or.inr (Or.inr (Option.some.inj computed).symm)
  · split at computed
    · exact Or.inr (Or.inl (Option.some.inj computed).symm)
    · split at computed
      · exact Or.inl (Option.some.inj computed).symm
      · cases computed

/-- There are safe values exactly when no column holds both values. -/
theorem compute_safe_values_none (positive : 0 < n) (wf : MFSTable n table) :
    compute_safe_values table = none ↔ ∃ col < n, Conflict table col := by
  rw [compute_safe_values_eq positive wf]
  constructor
  · intro none
    by_contra agree
    push Not at agree
    rw [Option.listMapM_some fun col member =>
      safe_value_some wf (agree col (List.mem_range.mp member))] at none
    cases none
  · rintro ⟨col, inside, conflict⟩
    exact Option.listMapM_none (List.mem_range.mpr inside) ((safe_value_none wf).mpr conflict)

/-- The safe values that were computed are safe for the combinations that were read. -/
theorem compute_safe_values_safe (positive : 0 < n) (wf : MFSTable n table) {safes : List Cell}
    (computed : compute_safe_values table = some safes) :
    ∃ MFS safe, readCombinations table = .ok MFS ∧ readSafeValue [safes] = .ok safe ∧
      (∀ M ∈ MFS, M.Over n) ∧ SafeFor n MFS safe := by
  have each : ∀ col < n, safe_value (values table col) =
      some ((safe_value (values table col)).getD []) := by
    intro col inside
    apply safe_value_some wf
    intro conflict
    rw [(compute_safe_values_none positive wf).mpr ⟨col, inside, conflict⟩] at computed
    cases computed
  rw [compute_safe_values_eq positive wf, Option.listMapM_some fun col member =>
    each col (List.mem_range.mp member)] at computed
  obtain rfl := Option.some.inj computed
  have ternary : ∀ cell ∈ (List.range n).map fun col => (safe_value (values table col)).getD [],
      cell = ['0'] ∨ cell = ['1'] ∨ cell = ['-'] := by
    intro cell member
    obtain ⟨col, inside, rfl⟩ := List.mem_map.mp member
    exact safe_value_cell (each col (List.mem_range.mp inside))
  have safeVal : ∀ i < n, ∀ cls, (⟨cls, ((List.range n).map fun col =>
      (safe_value (values table col)).getD []).map cellValue⟩ : Comb).val i =
        cellValue ((safe_value (values table i)).getD []) := by
    intro i inside cls
    rw [List.map_map]
    exact Comb.val_tabulate cls _ inside
  refine ⟨_, _, readCombinations_eq wf, readRow_eq ternary, ?_,
    ⟨⟨by simp [Comb.size], ?_⟩, ?_⟩⟩
  · intro M member
    obtain ⟨row, inside, rfl⟩ := List.mem_map.mp member
    refine ⟨by simp [Comb.size, wf.width row inside], fun i bound => ?_⟩
    have here : i < row.length := by rw [wf.width row inside]; exact bound
    rw [val_cells (List.getElem?_eq_getElem here)]
    rcases wf.cells row inside _ (List.getElem_mem here) with cell | cell | cell <;>
      rw [cell] <;> decide
  · intro i inside
    rw [safeVal i inside]
    rcases safe_value_cell (each i inside) with cell | cell | cell <;> rw [cell] <;> decide
  · intro M member i known
    obtain ⟨row, inside, rfl⟩ := List.mem_map.mp member
    have here : i < row.length := by
      simpa [Comb.size] using Finset.mem_range.mp (Comb.fixed_subset_range _ known)
    have bound : i < n := by rw [← wf.width row inside]; exact here
    have value := val_cells (List.getElem?_eq_getElem here)
    rw [safeVal i bound, value]
    refine safe_value_other wf (each i bound) inside (List.getElem?_eq_getElem here) ?_
    rcases wf.cells row inside _ (List.getElem_mem here) with cell | cell | cell
    · exact Or.inl cell
    · exact Or.inr cell
    · rw [Comb.mem_fixed, value, cell] at known
      exact absurd rfl known

end NoPend
