import NoPend.Experiment.Main
import NoPend.Util.ComputeModel

set_option autoImplicit false

/- From the sheet of fault conditions to the files of a subject, and what an experiment on these
files finds of the conditions. -/
namespace NoPend

open ComputeFaults ComputeMFS ComputeSafeValue CSVResolver FaultLocalization

/- `os.path`, for paths with forward slashes. -/
namespace OsPath

def join (path component : Cell) : Cell :=
  if component.head? = some '/' then component
  else if path.isEmpty || path.getLast? = some '/' then path ++ component
  else path ++ ['/'] ++ component

/-- The path up to the last slash, and what stands after it. -/
def split (path : Cell) : Cell × Cell :=
  let tail := (path.reverse.takeWhile (· ≠ '/')).reverse
  let head := path.take (path.length - tail.length)
  if head.all (· = '/') then (head, tail)
  else ((head.reverse.dropWhile (· = '/')).reverse, tail)

def dirname (path : Cell) : Cell := (split path).1

def basename (path : Cell) : Cell := (split path).2

/-- The first part of `splitext`: without the last dot of the name and what follows it, unless only
dots stand before that dot. -/
def withoutExt (path : Cell) : Cell :=
  let name := (path.reverse.takeWhile (· ≠ '/')).reverse
  let stem := (name.reverse.dropWhile (· ≠ '.')).tail.reverse
  if '.' ∈ name && stem.any (· ≠ '.') then
    path.take (path.length - (name.length - stem.length)) else path

end OsPath

namespace ComputeFaults

/-- A row of the sheet: the cells for the project, the file and the condition. -/
structure SheetRow where
  project : Cell
  file_rel_path : Cell
  expr : Cell

/-- The path of the file for the condition of a row. -/
def SheetRow.csv_path (row : SheetRow) : Cell :=
  let full_path :=
    OsPath.join (OsPath.join "bugs".toList (strip row.project)) (strip row.file_rel_path)
  OsPath.join (OsPath.dirname full_path)
    (OsPath.withoutExt (OsPath.basename full_path) ++ "-fault.csv".toList)

/-- `process_excel`: the files that are written, with their conditions. -/
def process_excel (rows : List SheetRow) : Dict Cell (List (List Cell)) :=
  Dict.collect SheetRow.csv_path (fun row => parse_expression (strip row.expr)) rows

end ComputeFaults

section Texts

variable {params : List Cell}

/-- Conditions without line breaks are found again line by line. -/
theorem csvRows_faultText {conditions : List (List Cell)}
    (free : ∀ condition ∈ conditions, ∀ element ∈ condition,
      ∀ c ∈ element, c ≠ '\r' ∧ c ≠ '\n') :
    csvRows (faultText conditions) =
      conditions.map fun condition => csvRow (List.intercalate [','] condition) := by
  have lines : ∀ line ∈ conditions.map (List.intercalate [',']),
      ∀ c ∈ line, c ≠ '\r' ∧ c ≠ '\n' := by
    intro line member c inside
    obtain ⟨condition, listed, rfl⟩ := List.mem_map.mp member
    rcases Text.mem_intercalate inside with comma | ⟨element, there, here⟩
    · rw [List.mem_singleton.mp comma]
      decide
    · exact free condition listed element there c here
  have split := Text.lines_flatMap (by decide) (.inl rfl) _ lines []
  rw [List.append_nil, List.flatMap_map] at split
  rw [csvRows, textLines, faultText, csvText, split]
  simp [Text.lines, Text.linesFrom]

theorem dropEnds_filter (drop : Char → Bool) (cell : Cell) :
    (dropEnds drop cell).filter (fun c => !drop c) = cell.filter fun c => !drop c := by
  have front : ∀ cell : Cell,
      (cell.dropWhile drop).filter (fun c => !drop c) = cell.filter fun c => !drop c := by
    intro cell
    induction cell with
    | nil => rfl
    | cons c rest ih =>
        by_cases dropped : drop c = true
        · rw [List.dropWhile_cons_of_pos dropped, ih, List.filter_cons_of_neg (by simp [dropped])]
        · rw [List.dropWhile_cons_of_neg dropped]
  rw [dropEnds, List.filter_reverse, front, ← List.filter_reverse, List.reverse_reverse, front]

/-- White space at the ends of a condition does not matter either. -/
theorem parse_strip (text : Cell) : parse_expression (strip text) = parse_expression text := by
  rw [parse_expression, strip, dropEnds_filter, parse_expression]

theorem mem_splitOrsFrom (level : Int) (part s : Cell) {piece : Cell}
    (listed : piece ∈ splitOrsFrom level part s) {a : Char} (member : a ∈ piece) :
    a ∈ part ++ s := by
  fun_induction splitOrsFrom level part s with
  | case1 =>
      rw [List.mem_singleton.mp listed] at member
      exact List.mem_append_left _ member
  | case2 =>
      rw [List.mem_singleton.mp listed] at member
      exact member
  | case3 level part d rest ih => simpa using ih listed
  | case4 level part d rest _ ih => simpa using ih listed
  | case5 level part c d rest _ _ _ ih =>
      rcases List.mem_cons.mp listed with rfl | later
      · exact List.mem_append_left _ member
      · have inside : a ∈ rest := by simpa using ih later
        exact List.mem_append_right _ (List.mem_cons_of_mem _ (List.mem_cons_of_mem _ inside))
  | case6 level part c d rest _ _ _ ih => simpa using ih listed

/-- What is parsed has no white space in it. -/
theorem parse_solid {text : Cell} {condition : List Cell}
    (listed : condition ∈ parse_expression text)
    {element : Cell} (member : element ∈ condition) : ∀ c ∈ element, isspace c = false := by
  obtain ⟨disjunct, there, rfl⟩ := List.mem_map.mp listed
  intro c inside
  have kept := mem_splitOrsFrom 0 [] _ there (parseDisjunct_subset member inside)
  rw [List.nil_append, List.mem_filter] at kept
  simpa using kept.2

/-- The table that is written for parsed conditions. -/
theorem mfsText_faultText (some : params ≠ []) (texts : List Cell) :
    mfsText params (faultText (texts.flatMap parse_expression)) =
      csvText ['\r', '\n'] (computeMFS params (texts.flatMap parse_expression)) := by
  have free : ∀ condition ∈ texts.flatMap parse_expression, ∀ element ∈ condition,
      ∀ c ∈ element,
      c ≠ '\r' ∧ c ≠ '\n' := by
    intro condition member element inside c there
    obtain ⟨text, _, listed⟩ := List.mem_flatMap.mp member
    have solid := parse_solid listed inside c there
    constructor <;> rintro rfl <;> exact absurd solid (by decide)
  have clean : CleanRows (computeMFS params (texts.flatMap parse_expression)) := by
    refine ternary_clean (fun row member => ?_) fun row member => ?_
    · obtain ⟨condition, _, rfl⟩ := List.mem_map.mp member
      exact List.ne_nil_of_length_pos (by
        rw [(encodeRow_shape params _).1]
        exact List.length_pos_iff.mpr some)
    · obtain ⟨condition, _, rfl⟩ := List.mem_map.mp member
      exact (encodeRow_shape params _).2
  rw [mfsText, csvRows_faultText free, List.flatMap_map, ← clean.writerow, computeMFS,
    List.flatMap_map]

end Texts

/-- The rows of the sheet for the file at `path` hold conditions over the parameters of the model,
in each of which no literal is lost and no disjunct has more than `t` literals. -/
structure Conditions (params : List Cell) (rows : List SheetRow) (path : Cell) (t : Nat)
    (exprs : List FaultExpr) : Prop where
  parameters : params ≠ []
  some : exprs ≠ []
  wf : ∀ expr ∈ exprs, FaultExpr.Wf params expr
  plain : ∀ expr ∈ exprs, ∀ d ∈ expr, d.Plain
  narrow : ∀ expr ∈ exprs, ∀ d ∈ expr, d.literals.length ≤ t
  rows : List.Forall₂ (fun row expr => Spaced (FaultExpr.tokens expr) row.expr)
    (rows.filter (·.csv_path = path)) exprs

/-- The files of the subject at `base` are what the passes make of its parameters and of the sheet,
and there is a covering array if one is read. -/
structure Prepared (params : List Cell) (rows : List SheetRow) (base : Cell) (t : Nat)
    (files : Files) :
    Prop where
  model : files (base ++ "-model.csv".toList) = some (ComputeModel.modelText params)
  mfs : ∃ names conditions, readModel (ComputeModel.modelText params) = some names ∧
    (process_excel rows).get? (base ++ "-fault.csv".toList) = some conditions ∧
    files (base ++ "-mfs.csv".toList) = some (mfsText names (faultText conditions))
  safe : ∃ table safes,
    files (base ++ "-mfs.csv".toList) = some table ∧ safeText table = some safes ∧
    files (base ++ "-safe.csv".toList) = some safes
  array : 2 ≤ t → t ≤ params.length ∧ ∃ ending array, Text.EndsLine '\r' '\n' ending ∧
    CATable params.length array ∧ RowsCover params.length t array ∧ array.length < 2 ^ 31 ∧
    files (CAResolver.tablePath params.length t 2) = some (tableText ending array.length array)

section Sample

def sampleParams : List Cell := [['A'], ['B'], ['C'], ['D']]

def sampleBase : Cell := "bugs/p/s".toList

/-- Two conditions for one file, and one for another. -/
def sampleRows : List SheetRow :=
  [⟨"p".toList, "s.c".toList, "A && !B".toList⟩, ⟨"p".toList, "u.c".toList, "C".toList⟩,
   ⟨"p".toList, "s.c".toList, " D".toList⟩]

def sampleExprs : List FaultExpr :=
  [[⟨[⟨['A'], true, false, false⟩, ⟨['B'], false, false, false⟩], false⟩],
   [⟨[⟨['D'], true, false, false⟩], false⟩]]

/-- The files that the passes make of it. -/
def preparedFiles : Files := fun path =>
  if path = sampleBase ++ "-model.csv".toList then some (ComputeModel.modelText sampleParams)
  else if path = sampleBase ++ "-mfs.csv".toList then
    some (mfsText sampleParams (faultText [[['A'], ['!', 'B']], [['D']]]))
  else if path = sampleBase ++ "-safe.csv".toList then some "0,1,-,0\r\n".toList
  else if path = CAResolver.tablePath 4 2 2 then some (tableText ['\n'] 6 pairsOfFour)
  else none

theorem sample_conditions :
    Conditions sampleParams sampleRows (sampleBase ++ "-fault.csv".toList) 2 sampleExprs := by
  have names : ∀ name ∈ sampleParams, IsName name := by
    intro name member
    simp only [sampleParams, List.mem_cons, List.not_mem_nil, or_false] at member
    rcases member with rfl | rfl | rfl | rfl <;> exact isName_letter (by decide)
  have wf : ∀ expr ∈ sampleExprs, FaultExpr.Wf sampleParams expr := by
    intro expr member
    simp only [sampleExprs, List.mem_cons, List.not_mem_nil, or_false] at member
    rcases member with rfl | rfl <;>
      exact ⟨by decide, names, by decide, by decide, by decide, by decide⟩
  have plain : ∀ expr ∈ sampleExprs, ∀ d ∈ expr, d.Plain := by
    refine fun expr listed d member => ⟨by revert expr d; decide, ?_⟩
    rintro ⟨first, between, last, split, opens, _⟩
    have bare : ∀ expr ∈ sampleExprs,
        ∀ d ∈ expr, ∀ l ∈ d.literals, l.wrapped = false := by decide
    rw [bare expr listed d member first (by rw [split]; simp)] at opens
    cases opens
  have both : Spaced
      (FaultExpr.tokens [⟨[⟨['A'], true, false, false⟩, ⟨['B'], false, false, false⟩],
      false⟩]) "A && !B".toList :=
    .glue ['A'] (@Spaced.token [' '] ['&', '&'] _ _ rfl (@Spaced.token [' '] ['!'] _ _ rfl
      (.glue ['B'] (.done rfl))))
  have last : Spaced (FaultExpr.tokens [⟨[⟨['D'], true, false, false⟩], false⟩])
      " D".toList :=
    @Spaced.token [' '] ['D'] _ _ rfl (.done rfl)
  have own : sampleRows.filter (·.csv_path = sampleBase ++ "-fault.csv".toList) =
      [⟨"p".toList, "s.c".toList, "A && !B".toList⟩,
        ⟨"p".toList, "s.c".toList, " D".toList⟩] := rfl
  refine ⟨by decide, by decide, wf, plain, by decide, ?_⟩
  rw [own]
  exact .cons both (.cons last .nil)

theorem sample_prepared : Prepared sampleParams sampleRows sampleBase 2 preparedFiles where
  model := rfl
  mfs := ⟨sampleParams, _, rfl, rfl, rfl⟩
  safe := ⟨_, _, rfl, rfl, rfl⟩
  array _ := ⟨by decide, ['\n'], pairsOfFour, .inl rfl, by decide, by decide, by decide, rfl⟩

end Sample

section Pipeline

variable {params : List Cell} {rows : List SheetRow} {path base : Cell} {t : Nat}
  {exprs : List FaultExpr} {files : Files}

theorem spaced_flatten (tokens : List Cell) : Spaced tokens tokens.flatten := by
  induction tokens with
  | nil => exact .done rfl
  | cons token tokens ih => exact .glue token ih

/-- All conditions of a file as one. -/
theorem Conditions.flatten (conditions : Conditions params rows path t exprs) :
    FaultExpr.Wf params exprs.flatten := by
  obtain ⟨expr, listed⟩ := List.exists_mem_of_ne_nil _ conditions.some
  have first := conditions.wf expr listed
  refine ⟨first.distinct, first.names, ?_, ?_, ?_, ?_⟩
  · obtain ⟨d, member⟩ := List.exists_mem_of_ne_nil _ first.some
    exact List.ne_nil_of_mem (List.mem_flatten.mpr ⟨expr, listed, member⟩)
  · intro d member
    obtain ⟨other, there, inside⟩ := List.mem_flatten.mp member
    exact (conditions.wf other there).literals d inside
  · intro d member
    obtain ⟨other, there, inside⟩ := List.mem_flatten.mp member
    exact (conditions.wf other there).known d inside
  · intro d member
    obtain ⟨other, there, inside⟩ := List.mem_flatten.mp member
    exact (conditions.wf other there).once d inside

/-- The conditions that are written for the file are those of one row that joins them. -/
theorem Conditions.joined (conditions : Conditions params rows path t exprs) :
    (rows.filter (·.csv_path = path)).flatMap (fun row => parse_expression (strip row.expr)) =
      parse_expression (FaultExpr.tokens exprs.flatten).flatten := by
  rw [parse_expression_eq conditions.flatten (spaced_flatten _)]
  have wf := conditions.wf
  have each := conditions.rows
  generalize rows.filter (·.csv_path = path) = own at each
  clear conditions
  induction each with
  | nil => rfl
  | cons spaced _ ih =>
      rw [List.flatMap_cons, List.flatten_cons, List.map_append, parse_strip,
        parse_expression_eq (wf _ (by simp)) spaced,
        ih fun expr member => wf expr (List.mem_cons_of_mem _ member)]

/-- The conditions as they are written: those of the rows, joined. -/
theorem Conditions.collected (conditions : Conditions params rows path t exprs)
    {written : List (List Cell)} (there : (process_excel rows).get? path = .some written) :
    written = parse_expression (FaultExpr.tokens exprs.flatten).flatten ∧
      ∃ texts : List Cell, written = texts.flatMap parse_expression := by
  rw [process_excel, Dict.get?_collect] at there
  split at there
  · rw [← Option.some.inj there]
    exact ⟨conditions.joined,
      [(FaultExpr.tokens exprs.flatten).flatten], by simp [conditions.joined]⟩
  · cases there

/-- The rows of the fault table. -/
def tableOf (params : List Cell) (exprs : List FaultExpr) : List (List Cell) :=
  computeMFS params (parse_expression (FaultExpr.tokens exprs.flatten).flatten)

theorem Conditions.table (conditions : Conditions params rows path t exprs) :
    MFSTable params.length (tableOf params exprs) :=
  computeMFS_table conditions.flatten (spaced_flatten _)

theorem Prepared.table (conditions : Conditions params rows (base ++ "-fault.csv".toList) t exprs)
    (prepared : Prepared params rows base t files) :
    files (base ++ "-mfs.csv".toList) = some (csvText ['\r', '\n'] (tableOf params exprs)) := by
  obtain ⟨names, written, read, there, mfs⟩ := prepared.mfs
  have wf := conditions.flatten
  rw [readModel_modelText conditions.parameters wf.names wf.distinct] at read
  obtain rfl := Option.some.inj read
  obtain ⟨joined, texts, same⟩ := conditions.collected there
  rw [mfs, tableOf, ← joined, same, mfsText_faultText conditions.parameters]

theorem readCombinations_csvText {n : Nat} {table : List (List Cell)} (positive : 0 < n)
    (wf : MFSTable n table) (there : files path = some (csvText ['\r', '\n'] table)) :
    files.readCombinations path = IOExn.lift (CSVResolver.readCombinations table) := by
  have split := (MFSTable.clean positive wf).splitCommas (.inr rfl)
  rw [Files.readCombinations, Files.newBufferedReader, there]
  exact congrArg (fun rows => IOExn.lift (CSVResolver.readCombinations rows)) split

/-- The safe values that are written are those of the table, and are read back. -/
theorem readSafeValue_safeText {n : Nat} {table : List (List Cell)} (positive : 0 < n)
    (wf : MFSTable n table) {text : Cell}
    (computed : safeText (csvText ['\r', '\n'] table) = some text)
    (there : files path = some text) :
    ∃ safes, compute_safe_values table = some safes ∧
      files.readSafeValue path = IOExn.lift (CSVResolver.readSafeValue [safes]) := by
  rw [safeText, (MFSTable.clean positive wf).csvRows (.inr rfl)] at computed
  cases values : compute_safe_values table with
  | none =>
      rw [values] at computed
      cases computed
  | some safes =>
      simp only [values] at computed
      split at computed
      · cases computed
      · rename_i some
        refine ⟨safes, rfl, ?_⟩
        have ternary : ∀ cell ∈ safes, cell = ['0'] ∨ cell = ['1'] ∨ cell = ['-'] := by
          rw [compute_safe_values_eq positive wf] at values
          intro cell member
          obtain ⟨col, _, found⟩ := Option.mem_of_listMapM values member
          exact safe_value_cell found
        have clean : CleanRows [safes] := by
          refine ternary_clean (fun row member => ?_) fun row member => ?_
          · rw [List.mem_singleton.mp member]
            simpa using some
          · rw [List.mem_singleton.mp member]
            exact ternary
        have written : csvText ['\r', '\n'] [safes] = text := by
          rw [← clean.writerow, ← Option.some.inj computed]
          simp
        have split := clean.splitCommas (.inr rfl)
        rw [written] at split
        rw [Files.readSafeValue, Files.newBufferedReader, there]
        refine congrArg (fun rows => IOExn.lift (CSVResolver.readSafeValue rows)) ?_
        rw [List.map_take, split]
        rfl

theorem mem_flatten_plain (conditions : Conditions params rows path t exprs) {d : Disjunct}
    (member : d ∈ exprs.flatten) : d.Plain ∧ d.literals.length ≤ t ∧ d.literals ≠ [] := by
  obtain ⟨expr, listed, inside⟩ := List.mem_flatten.mp member
  exact ⟨conditions.plain expr listed d inside, conditions.narrow expr listed d inside,
    (conditions.wf expr listed).literals d inside⟩

/-- The row of a disjunct fixes the parameters that it names. -/
theorem rowComb_fixed {expr : FaultExpr} {d : Disjunct} (wf : FaultExpr.Wf params expr)
    (member : d ∈ expr) (plain : d.Plain) :
    (rowComb params d).fixed = (d.literals.map fun l => params.idxOf l.name).toFinset := by
  ext i
  rw [Comb.mem_fixed, List.mem_toFinset, List.mem_map]
  constructor
  · intro known
    by_contra none
    push Not at none
    by_cases bound : i < params.length
    · exact known (rowComb_open wf member bound none)
    · exact known (Comb.val_of_size_le (by rw [rowComb_size]; omega))
  · rintro ⟨l, literal, rfl⟩
    rw [rowComb_literal wf member plain literal, Literal.value]
    split <;> decide

theorem rowComb_over {expr : FaultExpr} {d : Disjunct} (wf : FaultExpr.Wf params expr)
    (member : d ∈ expr) (plain : d.Plain) : (rowComb params d).Over params.length := by
  refine ⟨rowComb_size d, fun i bound => ?_⟩
  by_cases named : ∃ l ∈ d.literals, params.idxOf l.name = i
  · obtain ⟨l, literal, rfl⟩ := named
    rw [rowComb_literal wf member plain literal, Literal.value]
    split
    · exact Or.inr (Or.inl rfl)
    · exact Or.inl rfl
  · push Not at named
    exact Or.inr (Or.inr (rowComb_open wf member bound named))

/-- The combinations that are read are a table of faults. -/
theorem Conditions.faultTable (conditions : Conditions params rows path t exprs) :
    FaultTable params.length (exprs.flatten.map (rowComb params)) := by
  have wf := conditions.flatten
  refine ⟨fun M member => ?_, fun M member => ?_, fun M member => ?_⟩
  · obtain ⟨d, _, rfl⟩ := List.mem_map.mp member
    rfl
  · obtain ⟨d, inside, rfl⟩ := List.mem_map.mp member
    exact rowComb_over wf inside (mem_flatten_plain conditions inside).1
  · obtain ⟨d, inside, rfl⟩ := List.mem_map.mp member
    obtain ⟨plain, _, some⟩ := mem_flatten_plain conditions inside
    obtain ⟨l, literal⟩ := List.exists_mem_of_ne_nil _ some
    exact ⟨params.idxOf l.name, by
      rw [rowComb_fixed wf inside plain, List.mem_toFinset]
      exact List.mem_map.mpr ⟨l, literal, rfl⟩⟩

/-- A cell of the row of a disjunct holds a value exactly where a literal asks for it. -/
theorem encodeRow_cell {expr : FaultExpr} {d : Disjunct} (wf : FaultExpr.Wf params expr)
    (member : d ∈ expr)
    (plain : d.Plain) {col : Nat} (bound : col < params.length) (positive : Bool) :
    (encodeRow params (parseDisjunct d.text))[col]? = some (if positive then ['1'] else ['0']) ↔
      ∃ l ∈ d.literals, params.idxOf l.name = col ∧ l.positive = positive := by
  obtain ⟨length, cells⟩ := encodeRow_shape params (parseDisjunct d.text)
  have here : (encodeRow params (parseDisjunct d.text))[col]? =
      some (encodeRow params (parseDisjunct d.text))[col] := List.getElem?_eq_getElem (by omega)
  have value := rowComb_val here
  have ternary := cells _ (List.getElem_mem (by omega : col < _))
  rw [here, Option.some.injEq]
  by_cases named : ∃ l ∈ d.literals, params.idxOf l.name = col
  · obtain ⟨l, literal, rfl⟩ := named
    rw [rowComb_literal wf member plain literal, Literal.value] at value
    have only : ∀ l' ∈ d.literals,
        params.idxOf l'.name = params.idxOf l.name → l'.positive = l.positive := by
      intro l' literal' same
      have asked := rowComb_literal wf member plain literal'
      rw [same, rowComb_literal wf member plain literal, Literal.value, Literal.value] at asked
      cases h : l.positive <;> cases h' : l'.positive <;> simp [h, h'] at asked ⊢
    constructor
    · intro cell
      rw [cell] at value
      refine ⟨l, literal, rfl, ?_⟩
      cases positive <;> cases sign : l.positive <;> simp [sign, cellValue] at value ⊢
    · rintro ⟨l', literal', same, rfl⟩
      rw [only l' literal' same]
      rcases ternary with cell | cell | cell <;> rw [cell] at value ⊢ <;>
        cases sign : l.positive <;> simp [sign, cellValue, Comb.UNKNOWN] at value ⊢
  · have unknown := named
    push Not at unknown
    rw [rowComb_open wf member bound unknown] at value
    refine iff_of_false (fun cell => ?_) fun ⟨l, literal, same, _⟩ =>
      named ⟨l, literal, same⟩
    rw [cell] at value
    cases positive <;> simp [cellValue, Comb.UNKNOWN] at value

/-- The file of safe values is missing exactly if the conditions ask for both values of a
parameter. -/
theorem safeText_none_iff (conditions : Conditions params rows path t exprs)
    {written : List (List Cell)} (there : (process_excel rows).get? path = some written) :
    safeText (mfsText params (faultText written)) = none ↔
      ∃ d ∈ exprs.flatten, ∃ d' ∈ exprs.flatten,
        ∃ l ∈ d.literals, ∃ l' ∈ d'.literals,
        l.name = l'.name ∧ l.positive = true ∧ l'.positive = false := by
  have positive : 0 < params.length := List.length_pos_iff.mpr conditions.parameters
  have wf := conditions.flatten
  have table := conditions.table
  obtain ⟨joined, texts, same⟩ := conditions.collected there
  have rowsOf : tableOf params exprs = exprs.flatten.map fun d =>
      encodeRow params (parseDisjunct d.text) :=
    computeMFS_eq wf (spaced_flatten _)
  have missing : safeText (mfsText params (faultText written)) = none ↔
      compute_safe_values (tableOf params exprs) = none := by
    rw [same, mfsText_faultText conditions.parameters, ← same, joined, ← tableOf, safeText,
      (MFSTable.clean positive table).csvRows (.inr rfl)]
    cases values : compute_safe_values (tableOf params exprs) with
    | none => simp
    | some safes =>
        have length : safes ≠ [] := by
          rintro rfl
          rw [compute_safe_values_eq positive table] at values
          have sizes := Option.length_of_listMapM values
          simp only [List.length_range, List.length_nil] at sizes
          omega
        simp [length]
  have cell : ∀ col, col < params.length → ∀ positive : Bool,
      (∃ row ∈ tableOf params exprs, row[col]? = some (if positive then ['1'] else ['0'])) ↔
        ∃ d ∈ exprs.flatten,
          ∃ l ∈ d.literals, params.idxOf l.name = col ∧ l.positive = positive := by
    intro col bound positive
    rw [rowsOf]
    simp only [List.mem_map, exists_exists_and_eq_and]
    exact exists_congr fun d => and_congr_right fun member =>
      encodeRow_cell wf member (mem_flatten_plain conditions member).1 bound positive
  rw [missing, compute_safe_values_none positive table]
  constructor
  · rintro ⟨col, bound, zero, one⟩
    obtain ⟨d', member', l', literal', here', negative⟩ :=
      (cell col bound false).mp (by simpa using zero)
    obtain ⟨d, member, l, literal, here, positive⟩ :=
      (cell col bound true).mp (by simpa using one)
    refine ⟨d, member, d', member', l, literal, l', literal', ?_, positive, negative⟩
    exact (List.idxOf_inj (wf.known d member l literal)).mp (here.trans here'.symm)
  · rintro ⟨d, member, d', member', l, literal, l', literal', name, positive, negative⟩
    have bound := List.idxOf_lt_length_of_mem (wf.known d member l literal)
    refine ⟨params.idxOf l.name, bound, ?_, ?_⟩
    · simpa using (cell _ bound false).mpr ⟨d', member', l', literal', by rw [name], negative⟩
    · simpa using (cell _ bound true).mpr ⟨d, member, l, literal, rfl, positive⟩

/-- The conditions of the sample ask for one value of each parameter, and the file is written. -/
theorem safeText_none_iff_sample :
    safeText (mfsText sampleParams (faultText [[['A'], ['!', 'B']], [['D']]])) ≠ none := by
  have there : (process_excel sampleRows).get? (sampleBase ++ "-fault.csv".toList) =
      some [[['A'], ['!', 'B']], [['D']]] := rfl
  rw [Ne, safeText_none_iff sample_conditions there]
  decide

/-- The covering array that an experiment on prepared files starts with. -/
theorem Prepared.covering (conditions : Conditions params rows path t exprs)
    (prepared : Prepared params rows base t files) :
    ∃ tests, initialTestcases files params.length t = .ok tests ∧
      (∀ test ∈ tests, test.Binary params.length) ∧
      Covers params.length t tests := by
  have positive : 0 < params.length := List.length_pos_iff.mpr conditions.parameters
  by_cases high : 2 ≤ t
  · obtain ⟨atMost, ending, array, ends, wf, cover, small, there⟩ := prepared.array high
    have read := multiwayCA_eq positive wf small ends there
    rw [if_pos (le_refl _), List.take_length] at read
    refine ⟨array.map rowTest, ?_, fun test member => ?_, cover.covers atMost wf⟩
    · rw [initialTestcases, if_pos high, read]
    · obtain ⟨row, listed, rfl⟩ := List.mem_map.mp member
      exact rowTest_binary (wf.width row listed)
  · obtain ⟨tests, made, binary, covers⟩ := @oneWayCA_covers params.length
    refine ⟨tests, ?_, binary, covers.weaken (by omega)⟩
    rw [initialTestcases, if_neg high, made]
    rfl

/-- Prepared files are those of a subject, and its test cases fail exactly where a condition
holds. -/
theorem Prepared.subject (conditions : Conditions params rows (base ++ "-fault.csv".toList) t exprs)
    (prepared : Prepared params rows base t files) :
    ∃ subject : Subject params.length t,
      subject.InFiles files (base ++ "-model.csv".toList) (base ++ "-mfs.csv".toList)
        (base ++ "-safe.csv".toList) ∧
      ∀ test : Testcase, test.Binary params.length →
        (accepts subject.MFC_real test = false ↔ ∃ expr ∈ exprs, expr.Holds params test) := by
  have positive : 0 < params.length := List.length_pos_iff.mpr conditions.parameters
  have wf := conditions.flatten
  have table := conditions.table
  have written := prepared.table conditions
  obtain ⟨text, safes, same, computed, there⟩ := prepared.safe
  obtain rfl := Option.some.inj (written.symm.trans same)
  obtain ⟨cells, values, safeRead⟩ := readSafeValue_safeText positive table computed there
  obtain ⟨MFS, safe, readMFS, readSafe, _, safeFor⟩ :=
    compute_safe_values_safe positive table values
  have read : readCombinations (tableOf params exprs) = .ok (exprs.flatten.map (rowComb params)) :=
    readCombinations_computeMFS wf (spaced_flatten _)
  obtain rfl := Except.ok.inj (readMFS.symm.trans read)
  obtain ⟨tests, array, binary, covers⟩ := prepared.covering conditions
  refine ⟨⟨_, safe, tests, positive, conditions.faultTable, safeFor, ?_, fun M member => ?_,
    binary, covers⟩,
    ⟨⟨_, readParameterValues_modelText wf.names prepared.model, by simp⟩, ?_, ?_, array⟩,
      fun test complete => ?_⟩
  · simpa using wf.some
  · obtain ⟨d, inside, rfl⟩ := List.mem_map.mp member
    obtain ⟨plain, few, _⟩ := mem_flatten_plain conditions inside
    rw [rowComb_fixed wf inside plain]
    exact (List.toFinset_card_le _).trans (by simpa using few)
  · rw [readCombinations_csvText positive table written, read]
    rfl
  · rw [safeRead, readSafe]
    rfl
  · simp only [accepts, decide_eq_false_iff_not, not_forall, not_not]
    have each : ∀ d ∈ exprs.flatten,
        test.Contains (rowComb params d) ↔ d.Holds params test := by
      intro d inside
      rw [← contains_rowComb wf inside (mem_flatten_plain conditions inside).1 complete,
        Comb.contains_eq (complete.size.trans (rowComb_size d).symm), Except.ok.injEq,
          decide_eq_true_iff]
    constructor
    · rintro ⟨M, member, inside⟩
      obtain ⟨d, listed, rfl⟩ := List.mem_map.mp member
      obtain ⟨expr, there, among⟩ := List.mem_flatten.mp listed
      exact ⟨expr, there, d, among, (each d listed).mp inside⟩
    · rintro ⟨expr, there, d, among, holds⟩
      have listed : d ∈ exprs.flatten := List.mem_flatten.mpr ⟨expr, there, among⟩
      exact ⟨_, List.mem_map_of_mem listed, (each d listed).mpr holds⟩

end Pipeline

/-- From the sheet to the result: on the files that the passes write for a source file, any sequence
of calls that ends in `conduct` leaves combinations none of which contains another one, and a test
case contains one of them exactly where one of the conditions in the sheet holds. -/
theorem Main.pipeline_exact {params : List Cell} {rows : List SheetRow}
    {base SUT_path : Cell} {t : Nat} {exprs : List FaultExpr} {files : Files}
    (conditions : Conditions params rows (base ++ "-fault.csv".toList) t exprs)
    (prepared : Prepared params rows base t files)
    (based : PathResolver.getBase SUT_path = some base)
    {kind : Resolver} (exact' : kind ∈ [.noPend, .comFIL, .iterAIFL, .trt])
    (few : kind = .trt → params.length < 6) (fits : (Method.resolver kind).Fits params.length)
    (random : Nat → Bool) :
    ∃ experiment, create files (filePath SUT_path "-model.csv") (filePath SUT_path "-mfs.csv")
        (filePath SUT_path "-safe.csv") t (.resolver kind) random = .ok experiment ∧
      ∀ (calls : List ExperimentCall) (here : Circumstances),
        (∀ call ∈ calls, call.Enough params.length) →
        here.Enough params.length → ∃ after,
          ((calls ++ [ExperimentCall.conduct here]).forM ExperimentCall.perform).Runs
            experiment ⟨⟩ after ∧
            ∀ order, (∀ test : Testcase, test.Binary params.length →
                ((∃ c ∈ after.getMFC_identified order, test.Contains c) ↔
                  ∃ expr ∈ exprs, expr.Holds params test)) ∧
              ∀ c ∈ after.getMFC_identified order, ∀ d ∈ after.getMFC_identified order,
                ¬ c.StrictlyContains d := by
  obtain ⟨subject, written, meaning⟩ := prepared.subject conditions
  have paths : ∀ suffix, filePath SUT_path suffix = base ++ suffix.toList := by
    intro suffix
    rw [filePath, based]
    rfl
  obtain ⟨Good, finds⟩ := exact_finds subject exact' fits
  obtain ⟨experiment, created, runs⟩ := calls_found subject written fits random finds
  refine ⟨experiment, by rw [paths, paths, paths]; exact created,
    fun calls here each enough => ?_⟩
  obtain ⟨after, ends, _, listed⟩ := runs calls here each enough
  have found : ∀ order c,
      c ∈ after.getMFC_identified order ↔ MinimalFault subject.MFC_real c := by
    refine fun order c => ((listed order).2 c).trans ?_
    exact and_iff_left fun ⟨trt, _, many⟩ => absurd (few trt) (by omega)
  refine ⟨after, ends, fun order => ⟨fun test complete => ?_, fun c one d other => ?_⟩⟩
  · rw [← meaning test complete]
    simp only [found, accepts, decide_eq_false_iff_not, not_forall, not_not]
    constructor
    · rintro ⟨c, minimal, inside⟩
      exact ⟨c, minimal.1, inside⟩
    · rintro ⟨M, member, inside⟩
      obtain ⟨d, minimal, contained, _⟩ := exists_minimalFault_below complete.size member inside
      exact ⟨d, minimal, contained⟩
  · exact ((found order c).mp one).2 d ((found order d).mp other).1

/-- The sample, from the sheet on. -/
theorem Main.pipeline_exact_sample : ∃ experiment after,
    create preparedFiles (filePath "bugs/p/s.c".toList "-model.csv")
        (filePath "bugs/p/s.c".toList "-mfs.csv") (filePath "bugs/p/s.c".toList "-safe.csv") 2
        (.resolver .noPend) (fun _ => false) = .ok experiment ∧
      (([] ++ [ExperimentCall.conduct sampleCircumstances]).forM ExperimentCall.perform).Runs
        experiment ⟨⟩ after ∧
      ∀ test : Testcase, test.Binary 4 →
        ((∃ c ∈ after.getMFC_identified .insertion, test.Contains c) ↔
          ∃ expr ∈ sampleExprs, expr.Holds sampleParams test) := by
  obtain ⟨experiment, created, runs⟩ := pipeline_exact sample_conditions sample_prepared
    (show PathResolver.getBase "bugs/p/s.c".toList = some sampleBase from rfl)
    (show Resolver.noPend ∈ _ by simp) (fun impossible => nomatch impossible)
    (show (Method.resolver .noPend).Fits 4 from trivial) fun _ => false
  obtain ⟨after, ends, found⟩ := runs [] sampleCircumstances (by simp) sample_enough
  exact ⟨experiment, after, created, ends, (found .insertion).1⟩

end NoPend
