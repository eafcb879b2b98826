import NoPend.Lib.Lines
import NoPend.Util.ComputeMFS

set_option autoImplicit false

/- The files of a subject as texts: what the passes write and what `CSVResolver` reads. -/
namespace NoPend

open ComputeSafeValue ComputeMFS CSVResolver

/-- The files that the programs find, by their paths. -/
abbrev Files := Cell → Option Cell

/-- What a method that reads files can throw. -/
inductive IOExn where
  | noSuchFile (path : Cell)
  | fileNotFound (message : Cell)
  | io (message : String)
  | exn (reason : Exn)
  | invocationTarget (reason : Exn)
deriving DecidableEq, Repr

namespace IOExn

/-- A call that reads no file, from a method that does. -/
def lift {α : Type} : Except Exn α → Except IOExn α
  | .ok value => .ok value
  | .error reason => .error (.exn reason)

end IOExn

/-- The lines that `readLine` returns, and those that Python finds in a text file. -/
def textLines : Cell → List Cell := Text.lines '\r' '\n'

namespace Files

/-- `Files.newBufferedReader`. -/
def newBufferedReader (files : Files) (path : Cell) : Except IOExn (List Cell) :=
  match files path with
  | none => .error (.noSuchFile path)
  | some text => .ok (textLines text)

/-- `line.split(",")`. -/
def splitCommas : Cell → List Cell := Text.split (· == ',')

/-- `CSVResolver.readParameterValues`: every parameter has two values. -/
def readParameterValues (files : Files) (path : Cell) : Except IOExn (List (Cell × Nat)) := do
  let lines ← newBufferedReader files path
  return lines.tail.filterMap fun line => (splitCommas line)[1]?.map fun name => (trim name, 2)

/-- `CSVResolver.readCombinations`. -/
def readCombinations (files : Files) (path : Cell) : Except IOExn (List Comb) := do
  let lines ← newBufferedReader files path
  IOExn.lift (CSVResolver.readCombinations (lines.map splitCommas))

/-- `CSVResolver.readSafeValue`, which reads the first line. -/
def readSafeValue (files : Files) (path : Cell) : Except IOExn Comb := do
  let lines ← newBufferedReader files path
  IOExn.lift (CSVResolver.readSafeValue ((lines.take 1).map splitCommas))

end Files

/-- How the passes write rows that hold no special characters. -/
def csvText (ending : Cell) (rows : List (List Cell)) : Cell :=
  rows.flatMap fun row => List.intercalate [','] row ++ ending

namespace ComputeMFS

/-- A field as `csv.writer` writes it: in quotation marks if it holds a special character. -/
def csvField (field : Cell) : Cell :=
  if field.any fun c => c ∈ [',', '"', '\r', '\n'] then
    ['"'] ++ field.flatMap (fun c => if c = '"' then ['"', '"'] else [c]) ++ ['"']
  else field

/-- `writerow`. A row with one empty field is written in quotation marks. -/
def writerow (row : List Cell) : Cell :=
  (if row = [[]] then ['"', '"'] else List.intercalate [','] (row.map csvField)) ++ ['\r', '\n']

/-- The text that `csv.reader` takes apart, where no field goes over the end of a line. -/
def csvRows (text : Cell) : List (List Cell) := (textLines text).map csvRow

/-- The text of the table `-mfs.csv` for the text of `-fault.csv`. -/
def mfsText (params : List Cell) (faultText : Cell) : Cell :=
  (csvRows faultText).flatMap fun mfs_row => writerow (encodeRow params mfs_row)

end ComputeMFS

namespace ComputeSafeValue

/-- The text of `-safe.csv`, if there is one, for the text of `-mfs.csv`. -/
def safeText (mfsText : Cell) : Option Cell :=
  match compute_safe_values (csvRows mfsText) with
  | none => none
  -- an empty list counts as false
  | some safe_values => if safe_values.isEmpty then none else some (writerow safe_values)

end ComputeSafeValue

/-- The lines that `process_excel` writes for the conditions of one file. -/
def ComputeFaults.faultText (conditions : List (List Cell)) : Cell := csvText ['\n'] conditions

section Clean

/-- Rows of fields that need no quotation marks. -/
structure CleanRows (rows : List (List Cell)) : Prop where
  wide : ∀ row ∈ rows, row ≠ []
  some : ∀ row ∈ rows, ∀ field ∈ row, field ≠ []
  clean : ∀ row ∈ rows, ∀ field ∈ row, ∀ c ∈ field, c ∉ [',', '"', '\r', '\n']

variable {rows : List (List Cell)} {ending : Cell}

theorem CleanRows.line_free (wf : CleanRows rows) {row : List Cell} (member : row ∈ rows) :
    ∀ c ∈ List.intercalate [','] row, c ≠ '\r' ∧ c ≠ '\n' := by
  intro c inside
  rcases Text.mem_intercalate inside with comma | ⟨field, listed, there⟩
  · rw [List.mem_singleton.mp comma]
    decide
  · have plain := wf.clean row member field listed c there
    simp only [List.mem_cons, List.not_mem_nil, or_false, not_or] at plain
    exact ⟨plain.2.2.1, plain.2.2.2⟩

/-- Whichever way the lines end, the rows are found as lines. -/
theorem CleanRows.lines (wf : CleanRows rows) (ends : Text.EndsLine '\r' '\n' ending) :
    textLines (csvText ending rows) = rows.map (List.intercalate [',']) := by
  have split := Text.lines_flatMap (by decide) ends (rows.map (List.intercalate [','])) (by
    intro line member
    obtain ⟨row, listed, rfl⟩ := List.mem_map.mp member
    exact wf.line_free listed) []
  simpa [csvText, textLines, List.flatMap_map, Text.lines, Text.linesFrom] using split

/-- Python reads back the rows that were written. -/
theorem CleanRows.csvRows (wf : CleanRows rows) (ends : Text.EndsLine '\r' '\n' ending) :
    csvRows (csvText ending rows) = rows := by
  rw [ComputeMFS.csvRows, wf.lines ends, List.map_map]
  refine (List.map_congr_left fun row member => ?_).trans (List.map_id rows)
  refine csvRow_intercalate row (wf.wide row member) (wf.some row member)
    fun field listed c inside mark => ?_
  exact wf.clean row member field listed c inside (by
    simp only [List.mem_cons, List.not_mem_nil, or_false] at mark ⊢
    tauto)

/-- So does Java. -/
theorem CleanRows.splitCommas (wf : CleanRows rows) (ends : Text.EndsLine '\r' '\n' ending) :
    (textLines (csvText ending rows)).map Files.splitCommas = rows := by
  rw [wf.lines ends, List.map_map]
  refine (List.map_congr_left fun row member => ?_).trans (List.map_id rows)
  refine Text.split_intercalate (by rfl) row (wf.wide row member) (wf.some row member)
    fun field listed c inside => ?_
  have plain := wf.clean row member field listed c inside
  simp only [List.mem_cons, List.not_mem_nil, or_false, not_or] at plain
  simpa using plain.1

/-- The writer leaves clean rows as they are. -/
theorem CleanRows.writerow (wf : CleanRows rows) :
    rows.flatMap writerow = csvText ['\r', '\n'] rows := by
  have each : ∀ row ∈ rows,
      ComputeMFS.writerow row = List.intercalate [','] row ++ ['\r', '\n'] := by
    intro row member
    have fields : row.map csvField = row := by
      refine (List.map_congr_left fun field listed => ?_).trans (List.map_id row)
      rw [csvField, if_neg]
      · rfl
      · simp only [List.any_eq_true, decide_eq_true_eq, not_exists, not_and]
        exact wf.clean row member field listed
    rw [ComputeMFS.writerow, fields, if_neg]
    rintro rfl
    exact wf.some _ member [] (by simp) rfl
  exact List.flatMap_congr each

theorem ternary_clean {table : List (List Cell)} (wide : ∀ row ∈ table, row ≠ [])
    (cells : ∀ row ∈ table, ∀ cell ∈ row, cell = ['0'] ∨ cell = ['1'] ∨ cell = ['-']) :
    CleanRows table := by
  refine ⟨wide, fun row member cell listed => ?_, fun row member cell listed => ?_⟩
  · rcases cells row member cell listed with rfl | rfl | rfl <;> decide
  · rcases cells row member cell listed with rfl | rfl | rfl <;> simp

theorem MFSTable.clean {n : Nat} {table : List (List Cell)} (positive : 0 < n)
    (wf : MFSTable n table) :
    CleanRows table := by
  refine ternary_clean (fun row member => ?_) wf.cells
  rintro rfl
  have width := wf.width [] member
  simp only [List.length_nil] at width
  omega

end Clean

end NoPend
