import NoPend.Util.ComputeFaults

set_option autoImplicit false

/- The pass `computeMFS.py`, which makes a row of the fault table of each parsed disjunct, and
what the table says of the fault condition. -/
namespace NoPend

open ComputeFaults ComputeSafeValue CSVResolver

namespace ComputeMFS

/-- The states of Python's `csv.reader`. -/
inductive CsvState where
  | startField
  | inField
  | inQuotedField
  | quoteInQuotedField

/-- The fields of a line from a state on. `part` is what was read of the current field. -/
def csvFields : CsvState → Cell → Cell → List Cell
  | _, part, [] => [part]
  | .startField, part, c :: rest =>
      if c = ',' then part :: csvFields .startField [] rest
      else if c = '"' then csvFields .inQuotedField part rest
      else csvFields .inField (part ++ [c]) rest
  | .inField, part, c :: rest =>
      if c = ',' then part :: csvFields .startField [] rest
      else csvFields .inField (part ++ [c]) rest
  | .inQuotedField, part, c :: rest =>
      if c = '"' then csvFields .quoteInQuotedField part rest
      else csvFields .inQuotedField (part ++ [c]) rest
  | .quoteInQuotedField, part, c :: rest =>
      if c = '"' then csvFields .inQuotedField (part ++ [c]) rest
      else if c = ',' then part :: csvFields .startField [] rest
      else csvFields .inField (part ++ [c]) rest

/-- One row of `csv.reader`. -/
def csvRow (line : Cell) : List Cell :=
  if line.isEmpty then [] else csvFields .startField [] line

/-- The body of the loop over the elements of a row. `params` are the names of the model in the
order of their numbers. -/
def encodeElement (params : List Cell) (fault_row : List Cell) (element : Cell) : List Cell :=
  let element := strip element
  if element.isEmpty then fault_row
  else
    let (param_name, value) :=
      if element.head? = some '!' then (element.tail, ['0']) else (element, ['1'])
    -- a name that the model does not have is skipped with a warning
    if param_name ∈ params then fault_row.set (params.idxOf param_name) value else fault_row

def encodeRow (params : List Cell) (mfs_row : List Cell) : List Cell :=
  mfs_row.foldl (encodeElement params) (List.replicate params.length ['-'])

/-- From the conditions that `computeFaults.py` writes, a line each, to the rows of the table. -/
def computeMFS (params : List Cell) (conditions : List (List Cell)) : List (List Cell) :=
  conditions.map fun condition => encodeRow params (csvRow (List.intercalate [','] condition))

end ComputeMFS

open ComputeMFS

section Csv

theorem csvFields_word {word : Cell} (clean : ∀ c ∈ word, c ∉ [',', '"']) (part rest : Cell) :
    csvFields .inField part (word ++ rest) = csvFields .inField (part ++ word) rest := by
  induction word generalizing part with
  | nil => simp
  | cons c word ih =>
      have here := clean c (by simp)
      simp only [List.mem_cons, List.not_mem_nil, or_false, not_or] at here
      rw [List.cons_append, csvFields, if_neg here.1, ih fun d member => clean d (by simp [member])]
      simp

theorem csvFields_start {word : Cell} (some : word ≠ [])
    (clean : ∀ c ∈ word, c ∉ [',', '"'])
    (rest : Cell) : csvFields .startField [] (word ++ rest) = csvFields .inField word rest := by
  cases word with
  | nil => exact absurd rfl some
  | cons c word =>
      have here := clean c (by simp)
      simp only [List.mem_cons, List.not_mem_nil, or_false, not_or] at here
      rw [List.cons_append, csvFields, if_neg here.1, if_neg here.2,
        csvFields_word fun d member => clean d (by simp [member])]
      rfl

/-- Fields without commas and quotation marks are read back. -/
theorem csvRow_intercalate (fields : List Cell) (nonempty : fields ≠ [])
    (some : ∀ field ∈ fields, field ≠ [])
    (clean : ∀ field ∈ fields, ∀ c ∈ field, c ∉ [',', '"']) :
    csvRow (List.intercalate [','] fields) = fields := by
  have line : ∀ fields : List Cell, fields ≠ [] → (∀ field ∈ fields, field ≠ []) →
      (∀ field ∈ fields, ∀ c ∈ field, c ∉ [',', '"']) →
      csvFields .startField [] (List.intercalate [','] fields) = fields := by
    intro fields nonempty some clean
    induction fields with
    | nil => exact absurd rfl nonempty
    | cons first rest ih =>
        have here := csvFields_start (some first (by simp)) (clean first (by simp))
        cases rest with
        | nil => simpa [csvFields] using here []
        | cons second rest =>
            have later := ih (by simp) (fun field member => some field (by simp [member]))
              fun field member => clean field (by simp [member])
            rw [List.intercalate_cons_cons, List.append_assoc, here,
              List.singleton_append, csvFields, if_pos rfl, later]
  rw [csvRow, if_neg, line fields nonempty some clean]
  intro empty
  have none := line fields nonempty some clean
  rw [List.isEmpty_iff.mp empty] at none
  exact some [] (by rw [← none]; simp [csvFields]) rfl

end Csv

section Encode

variable {params : List Cell} {l : Literal}

/-- The cell that stands for a literal. -/
def Literal.cell (l : Literal) : Cell := if l.positive then ['1'] else ['0']

/-- The element that the pass reads as the literal. -/
def Literal.element (l : Literal) : Cell := l.bang ++ l.name

/-- A parenthesis is left in the element. -/
def Broken (element : Cell) : Prop := '(' ∈ element ∨ ')' ∈ element

theorem dropEnds_of_none {drop : Char → Bool} {cell : Cell}
    (none : ∀ c ∈ cell, drop c = false) :
    dropEnds drop cell = cell := by
  have keep : ∀ cell : Cell, (∀ c ∈ cell, drop c = false) → cell.dropWhile drop = cell := by
    intro cell none
    cases cell with
    | nil => rfl
    | cons c rest => rw [List.dropWhile_cons_of_neg (by simp [none c])]
  rw [dropEnds, keep cell none, keep cell.reverse fun c member =>
    none c (List.mem_reverse.mp member), List.reverse_reverse]

theorem encode_literal (isName : IsName l.name) (known : l.name ∈ params) (row : List Cell) :
    encodeElement params row l.element = row.set (params.idxOf l.name) l.cell := by
  have solid : strip l.element = l.element := by
    refine dropEnds_of_none fun c member => ?_
    unfold Literal.element Literal.bang at member
    rcases List.mem_append.mp member with sign | named
    · split at sign
      · simp at sign
      · rw [List.mem_singleton.mp sign]
        decide
    · exact (isName.plain c named).1
  have some : l.element.isEmpty = false := by
    simp [Literal.element, isName.nonempty]
  have head : l.name.head? ≠ Option.some '!' := by
    simpa using isName.head (c := '!') (by decide) []
  unfold encodeElement
  simp only [solid, some, Bool.false_eq_true, if_false]
  unfold Literal.element Literal.bang Literal.cell
  cases l.positive with
  | true => simp [head, known]
  | false => simp [known]

/-- An element in which a parenthesis is left is skipped. -/
theorem encode_broken (names : ∀ name ∈ params, IsName name) {element : Cell}
    (solid : ∀ c ∈ element, isspace c = false) (broken : Broken element) (row : List Cell) :
    encodeElement params row element = row := by
  have unknown : ∀ name : Cell, Broken name → name ∉ params := by
    intro name left member
    rcases left with opens | closes
    · exact (names name member).not_mem (by decide) opens
    · exact (names name member).not_mem (by decide) closes
  have tail : element.head? = some '!' → Broken element.tail := by
    intro sign
    cases element with
    | nil => simp at sign
    | cons c rest =>
        obtain rfl : c = '!' := by simpa using sign
        simpa [Broken] using broken
  have same : strip element = element := dropEnds_of_none solid
  unfold encodeElement
  simp only [same]
  split
  · rfl
  · by_cases sign : element.head? = some '!'
    · simp only [sign, if_true]
      rw [if_neg (unknown _ (tail sign))]
    · simp only [sign, if_false]
      rw [if_neg (unknown _ broken)]

theorem plain_element (calls : l.isEnabled = true → l.positive = true) : l.plain = l.element := by
  unfold Literal.plain Literal.element Literal.erased Literal.bang
  cases positive : l.positive with
  | true => cases l.isEnabled <;> simp
  | false =>
      cases called : l.isEnabled with
      | true => exact absurd (calls called) (by simp [positive])
      | false => simp

/-- A negated call of the macro keeps its parentheses. -/
theorem plain_broken (called : l.isEnabled = true) (negative : l.positive = false) :
    Broken l.plain := by
  simp [Broken, Literal.plain, Literal.erased, called, negative]

end Encode

section Rows

variable {params : List Cell} {d : Disjunct}

/-- What the pass makes of a literal: it reads it as it is, or it skips it. -/
def Reads (l : Literal) (element : Cell) : Prop :=
  element = l.element ∨ (Broken element ∧ ∀ c ∈ element, isspace c = false)

/-- The rows keep their width and their kind of cells. -/
theorem encode_shape (params : List Cell) {row : List Cell}
    (cells : ∀ cell ∈ row, cell = ['0'] ∨ cell = ['1'] ∨ cell = ['-'])
    (elements : List Cell) : (elements.foldl (encodeElement params) row).length = row.length ∧
      ∀ cell ∈ elements.foldl (encodeElement params) row,
        cell = ['0'] ∨ cell = ['1'] ∨ cell = ['-'] := by
  induction elements generalizing row with
  | nil => exact ⟨rfl, cells⟩
  | cons element rest ih =>
      have step : (encodeElement params row element).length = row.length ∧
          ∀ cell ∈ encodeElement params row element,
            cell = ['0'] ∨ cell = ['1'] ∨ cell = ['-'] := by
        have put : ∀ i value, value = ['0'] ∨ value = ['1'] ∨ value = ['-'] →
            (row.set i value).length = row.length ∧
              ∀ cell ∈ row.set i value, cell = ['0'] ∨ cell = ['1'] ∨ cell = ['-'] := by
          intro i value kind
          refine ⟨List.length_set, fun cell member => ?_⟩
          rcases List.mem_or_eq_of_mem_set member with old | rfl
          · exact cells cell old
          · exact kind
        unfold encodeElement
        dsimp only
        split
        · exact ⟨rfl, cells⟩
        · by_cases sign : (strip element).head? = some '!'
          · simp only [sign, if_true]
            split
            · exact put _ _ (Or.inl rfl)
            · exact ⟨rfl, cells⟩
          · simp only [sign, if_false]
            split
            · exact put _ _ (Or.inr (Or.inl rfl))
            · exact ⟨rfl, cells⟩
      obtain ⟨length, kinds⟩ := ih step.2
      exact ⟨length.trans step.1, kinds⟩

/-- A cell that no literal speaks of stays. -/
theorem encode_untouched (names : ∀ name ∈ params, IsName name) {literals : List Literal}
    {elements : List Cell} (reads : List.Forall₂ Reads literals elements)
    (known : ∀ l ∈ literals, l.name ∈ params) {i : Nat}
    (other : ∀ l ∈ literals, params.idxOf l.name ≠ i) (row : List Cell) :
    (elements.foldl (encodeElement params) row)[i]? = row[i]? := by
  induction reads generalizing row with
  | nil => rfl
  | @cons l element literals elements here later ih =>
      rw [List.foldl_cons, ih (fun l member => known l (by simp [member]))
        fun l member => other l (by simp [member])]
      rcases here with rfl | ⟨broken, solid⟩
      · have inside := known l (by simp)
        rw [encode_literal (names _ inside) inside, List.getElem?_set_ne (other l (by simp))]
      · rw [encode_broken names solid broken]

/-- Every literal of different names that is read gets its cell. -/
theorem encode_literals (names : ∀ name ∈ params, IsName name) {literals : List Literal}
    (known : ∀ l ∈ literals, l.name ∈ params) (once : (literals.map Literal.name).Nodup)
    {row : List Cell} (length : row.length = params.length) :
    ∀ l ∈ literals, ((literals.map Literal.element).foldl (encodeElement params) row)[
      params.idxOf l.name]? = some l.cell := by
  induction literals generalizing row with
  | nil => simp
  | cons first rest ih =>
      have inside := known first (by simp)
      obtain ⟨fresh, once⟩ := List.nodup_cons.mp once
      intro l member
      rw [List.map_cons, List.foldl_cons, encode_literal (names _ inside) inside]
      rcases List.mem_cons.mp member with rfl | later
      · rw [encode_untouched names (List.forall₂_map_right_iff.mpr
          (List.forall₂_same.mpr fun l _ => Or.inl rfl))]
        · have bound := List.idxOf_lt_length_of_mem inside
          rw [List.getElem?_set_self (by omega)]
        · exact fun l member => known l (by simp [member])
        · intro other listed same
          have equal := (List.idxOf_inj (known other (by simp [listed]))).mp same
          exact fresh (equal ▸ List.mem_map_of_mem listed)
      · exact ih (fun l member => known l (by simp [member])) once (by simpa using length) l later

/-- The disjunct is parsed without loss: no negated call of the macro, and the parentheses of
its literals are not torn apart. -/
def Disjunct.Plain (d : Disjunct) : Prop :=
  (∀ l ∈ d.literals, l.isEnabled = true → l.positive = true) ∧ ¬ d.Torn

theorem plain_reads {l : Literal} (solid : ∀ c ∈ l.plain, isspace c = false) :
    Reads l l.plain := by
  by_cases calls : l.isEnabled = true → l.positive = true
  · exact Or.inl (plain_element calls)
  · simp only [Classical.not_imp, Bool.not_eq_true] at calls
    exact Or.inr ⟨plain_broken calls.1 calls.2, solid⟩

theorem parse_plain (names : ∀ l ∈ d.literals, IsName l.name) (some : d.literals ≠ [])
    (plain : d.Plain) : parseDisjunct d.text = d.literals.map Literal.element := by
  rw [parseDisjunct_whole names some plain.2]
  exact List.map_congr_left fun l member => plain_element (plain.1 l member)

/-- A disjunct that is not plain loses a literal. -/
theorem parse_loses (names : ∀ l ∈ d.literals, IsName l.name) (some : d.literals ≠ [])
    (lossy : ¬ d.Plain) : ∃ before l after start element rest,
      d.literals = before ++ l :: after ∧ parseDisjunct d.text = start ++ element :: rest ∧
      List.Forall₂ Reads before start ∧ Broken element ∧ List.Forall₂ Reads after rest := by
  have solid : ∀ e ∈ parseDisjunct d.text, ∀ c ∈ e, isspace c = false :=
    fun e listed c member => (disjunct_clean names (parseDisjunct_subset listed member)).1
  have all : ∀ literals : List Literal, (∀ l ∈ literals, l.plain ∈ parseDisjunct d.text) →
      List.Forall₂ Reads literals (literals.map Literal.plain) := by
    intro literals listed
    refine List.forall₂_map_right_iff.mpr (List.forall₂_same.mpr fun l member => ?_)
    exact plain_reads (solid _ (listed l member))
  by_cases torn : d.Torn
  · obtain ⟨first, between, last, split, opens, closes⟩ := torn
    obtain ⟨front, back, parsed, left, right⟩ := parseDisjunct_torn names split opens closes
    refine ⟨[], first, between ++ [last], [], front, _, split, parsed, List.Forall₂.nil,
      Or.inr left, ?_⟩
    rw [parsed] at solid all
    refine List.rel_append (all between fun l member => ?_) ?_
    · exact List.mem_cons_of_mem _ (List.mem_append_left _ (List.mem_map_of_mem member))
    · exact List.Forall₂.cons (Or.inr ⟨Or.inl right, solid back (by simp)⟩)
        List.Forall₂.nil
  · have parsed := parseDisjunct_whole names some torn
    obtain ⟨l, member, called, negative⟩ : ∃ l ∈ d.literals,
        l.isEnabled = true ∧ l.positive = false := by
      by_contra none
      refine lossy ⟨fun l member called => ?_, torn⟩
      by_contra negative
      exact none ⟨l, member, called, by simpa using negative⟩
    obtain ⟨before, after, split⟩ := List.append_of_mem member
    rw [parsed] at all
    refine ⟨before, l, after, before.map Literal.plain, l.plain, after.map Literal.plain,
      split, ?_,
      all before fun l inside => ?_, plain_broken called negative, all after fun l inside => ?_⟩
    · rw [parsed, split, List.map_append, List.map_cons]
    · exact List.mem_map_of_mem (by rw [split]; simp [inside])
    · exact List.mem_map_of_mem (by rw [split]; simp [inside])

theorem parse_reads (names : ∀ l ∈ d.literals, IsName l.name) (some : d.literals ≠ []) :
    List.Forall₂ Reads d.literals (parseDisjunct d.text) := by
  by_cases plain : d.Plain
  · rw [parse_plain names some plain]
    exact List.forall₂_map_right_iff.mpr (List.forall₂_same.mpr fun l _ => Or.inl rfl)
  · obtain ⟨before, l, after, start, element, rest, split, parsed, first, broken, later⟩ :=
      parse_loses names some plain
    rw [split, parsed]
    refine List.rel_append
      first (List.Forall₂.cons (Or.inr ⟨broken, fun c member => ?_⟩) later)
    exact (disjunct_clean names (parseDisjunct_subset (by rw [parsed]; simp) member)).1

theorem reads_ne_nil {literals : List Literal} {elements : List Cell}
    (reads : List.Forall₂ Reads literals elements) (names : ∀ l ∈ literals, IsName l.name) :
    ∀ element ∈ elements, element ≠ [] := by
  induction reads with
  | nil => simp
  | @cons l first literals rest here later ih =>
      intro element member
      rcases List.mem_cons.mp member with rfl | inside
      · rcases here with rfl | ⟨opens | closes, _⟩
        · simp [Literal.element, (names l (by simp)).nonempty]
        · exact List.ne_nil_of_mem opens
        · exact List.ne_nil_of_mem closes
      · exact ih (fun l literal => names l (by simp [literal])) element inside

/-- The line of a disjunct is read back as its conjuncts. -/
theorem csvRow_parse (names : ∀ l ∈ d.literals, IsName l.name) (some : d.literals ≠ []) :
    csvRow (List.intercalate [','] (parseDisjunct d.text)) = parseDisjunct d.text := by
  have reads := parse_reads names some
  apply csvRow_intercalate
  · intro none
    rw [none] at reads
    exact some (List.forall₂_nil_right_iff.mp reads)
  · exact reads_ne_nil reads names
  · intro field member c inside mark
    refine (disjunct_clean names (parseDisjunct_subset member inside)).2 ?_
    exact List.mem_cons_of_mem _ mark

end Rows

section Meaning

variable {params : List Cell} {expr : FaultExpr} {d : Disjunct}

/-- The value that a literal asks for. -/
def Literal.value (l : Literal) : Int := if l.positive then 1 else 0

def Literal.Holds (params : List Cell) (t : Testcase) (l : Literal) : Prop :=
  t.val (params.idxOf l.name) = l.value

def Disjunct.Holds (params : List Cell) (t : Testcase) (d : Disjunct) : Prop :=
  ∀ l ∈ d.literals, l.Holds params t

/-- The fault condition is true of the test case. -/
def FaultExpr.Holds (params : List Cell) (t : Testcase) (expr : FaultExpr) : Prop :=
  ∃ d ∈ expr, d.Holds params t

instance (params : List Cell) (t : Testcase) (l : Literal) : Decidable (l.Holds params t) :=
  inferInstanceAs (Decidable (_ = _))

instance (params : List Cell) (t : Testcase) (d : Disjunct) : Decidable (d.Holds params t) :=
  inferInstanceAs (Decidable (∀ l ∈ d.literals, l.Holds params t))

instance (params : List Cell) (t : Testcase) (expr : FaultExpr) :
    Decidable (FaultExpr.Holds params t expr) :=
  inferInstanceAs (Decidable (∃ d ∈ expr, d.Holds params t))

/-- The row has every literal of the disjunct, and it is not weaker. -/
structure RowOf (params : List Cell) (d : Disjunct) (row : Comb) : Prop where
  literals : ∀ l ∈ d.literals, row.val (params.idxOf l.name) = l.value
  strong : ∀ t : Testcase, t.Binary params.length → Comb.contains t row = .ok true →
    d.Holds params t

/-- The rows say what the fault condition says. -/
structure SameMeaning (params : List Cell) (expr : FaultExpr) (rows : List Comb) : Prop where
  meaning : ∀ t : Testcase, t.Binary params.length →
    (FaultExpr.Holds params t expr ↔ ∃ row ∈ rows, Comb.contains t row = .ok true)
  each : List.Forall₂ (RowOf params) expr rows

/-- The combination that is read for a disjunct. -/
def rowComb (params : List Cell) (d : Disjunct) : Comb :=
  ⟨.comb, (encodeRow params (parseDisjunct d.text)).map cellValue⟩

theorem encodeRow_shape (params elements : List Cell) :
    (encodeRow params elements).length = params.length ∧
      ∀ cell ∈ encodeRow params elements, cell = ['0'] ∨ cell = ['1'] ∨ cell = ['-'] := by
  have blank : ∀ cell ∈ List.replicate params.length (['-'] : Cell),
      cell = ['0'] ∨ cell = ['1'] ∨ cell = ['-'] := by
    intro cell member
    exact Or.inr (Or.inr (List.eq_of_mem_replicate member))
  obtain ⟨length, cells⟩ := encode_shape params blank elements
  exact ⟨by rw [encodeRow, length, List.length_replicate], cells⟩

/-- Every disjunct makes one row. -/
theorem computeMFS_eq (wf : FaultExpr.Wf params expr) {text : Cell}
    (spaced : Spaced (FaultExpr.tokens expr) text) :
    computeMFS params (parse_expression text) =
      expr.map fun d => encodeRow params (parseDisjunct d.text) := by
  rw [parse_expression_eq wf spaced, computeMFS, List.map_map]
  refine List.map_congr_left fun d member => ?_
  have names : ∀ l ∈ d.literals, IsName l.name :=
    fun l literal => wf.names _ (wf.known d member l literal)
  show encodeRow params (csvRow (List.intercalate [','] (parseDisjunct d.text))) = _
  rw [csvRow_parse names (wf.literals d member)]

/-- The rows are a table as the pass for the safe values and the reader expect it. -/
theorem computeMFS_table (wf : FaultExpr.Wf params expr) {text : Cell}
    (spaced : Spaced (FaultExpr.tokens expr) text) :
    MFSTable params.length (computeMFS params (parse_expression text)) := by
  rw [computeMFS_eq wf spaced]
  refine ⟨by simpa using wf.some, fun row member => ?_, fun row member => ?_⟩
  · obtain ⟨d, _, rfl⟩ := List.mem_map.mp member
    exact (encodeRow_shape params _).1
  · obtain ⟨d, _, rfl⟩ := List.mem_map.mp member
    exact (encodeRow_shape params _).2

theorem readCombinations_computeMFS (wf : FaultExpr.Wf params expr) {text : Cell}
    (spaced : Spaced (FaultExpr.tokens expr) text) :
    readCombinations (computeMFS params (parse_expression text)) = .ok
      (expr.map (rowComb params)) := by
  rw [readCombinations_eq (computeMFS_table wf spaced), computeMFS_eq wf spaced, List.map_map]
  rfl

theorem rowComb_size (d : Disjunct) : (rowComb params d).size = params.length := by
  simp [rowComb, Comb.size, (encodeRow_shape params (parseDisjunct d.text)).1]

theorem rowComb_val {i : Nat} {cell : Cell}
    (here : (encodeRow params (parseDisjunct d.text))[i]? = some cell) :
    (rowComb params d).val i = cellValue cell :=
  val_cells here

/-- A parameter that the disjunct does not name stays open. -/
theorem rowComb_open (wf : FaultExpr.Wf params expr) (member : d ∈ expr) {i : Nat}
    (bound : i < params.length) (other : ∀ l ∈ d.literals, params.idxOf l.name ≠ i) :
    (rowComb params d).val i = Comb.UNKNOWN := by
  have reads := parse_reads (fun l literal => wf.names _ (wf.known d member l literal))
    (wf.literals d member)
  have here : (encodeRow params (parseDisjunct d.text))[i]? = some ['-'] := by
    rw [encodeRow, encode_untouched wf.names reads (wf.known d member) other]
    simp [bound]
  rw [rowComb_val here]
  decide

/-- A plain disjunct is encoded literal by literal. -/
theorem rowComb_literal (wf : FaultExpr.Wf params expr) (member : d ∈ expr) (plain : d.Plain)
    {l : Literal} (literal : l ∈ d.literals) :
    (rowComb params d).val (params.idxOf l.name) = l.value := by
  have names : ∀ l ∈ d.literals, IsName l.name :=
    fun l literal => wf.names _ (wf.known d member l literal)
  have here : (encodeRow params (parseDisjunct d.text))[params.idxOf l.name]? = some l.cell := by
    rw [parse_plain names (wf.literals d member) plain]
    exact encode_literals wf.names (wf.known d member) (wf.once d member) (by simp) l literal
  rw [rowComb_val here]
  unfold Literal.cell Literal.value
  split <;> decide

/-- In the row of any other disjunct the parameter of one of its literals is left open. -/
theorem rowComb_lossy (wf : FaultExpr.Wf params expr) (member : d ∈ expr) (lossy : ¬ d.Plain) :
    ∃ l ∈ d.literals, (rowComb params d).val (params.idxOf l.name) = Comb.UNKNOWN := by
  have names : ∀ l ∈ d.literals, IsName l.name :=
    fun l literal => wf.names _ (wf.known d member l literal)
  obtain ⟨before, l, after, start, element, rest, split, parsed, first, broken, later⟩ :=
    parse_loses names (wf.literals d member) lossy
  have known := wf.known d member
  have once := wf.once d member
  have solid : ∀ c ∈ element, isspace c = false := fun c inside =>
    (disjunct_clean names (parseDisjunct_subset (by rw [parsed]; simp) inside)).1
  rw [split] at known once
  rw [List.map_append, List.map_cons] at once
  have fresh := (List.nodup_middle.mp once)
  rw [List.nodup_cons, List.mem_append, not_or] at fresh
  have other : ∀ l' ∈ before ++ after, params.idxOf l'.name ≠ params.idxOf l.name := by
    intro l' inside same
    have listed : l' ∈ before ++ l :: after := by
      simp only [List.mem_append, List.mem_cons] at inside ⊢
      tauto
    have equal := (List.idxOf_inj (known l' listed)).mp same
    rcases List.mem_append.mp inside with there | there
    · exact fresh.1.1 (equal ▸ List.mem_map_of_mem there)
    · exact fresh.1.2 (equal ▸ List.mem_map_of_mem there)
  have bound : params.idxOf l.name < params.length :=
    List.idxOf_lt_length_of_mem (known l (by simp))
  have here : (encodeRow params (parseDisjunct d.text))[params.idxOf l.name]? = some ['-'] := by
    rw [encodeRow, parsed, List.foldl_append, List.foldl_cons, encode_broken wf.names solid broken,
      encode_untouched wf.names later (fun l inside => known l (by simp [inside]))
        (fun l inside => other l (by simp [inside])),
      encode_untouched wf.names first (fun l inside => known l (by simp [inside]))
        (fun l inside => other l (by simp [inside]))]
    simp [bound]
  refine ⟨l, by rw [split]; simp, ?_⟩
  rw [rowComb_val here]
  decide

/-- The row of a plain disjunct is contained exactly in the test cases it is true of. -/
theorem contains_rowComb (wf : FaultExpr.Wf params expr) (member : d ∈ expr) (plain : d.Plain)
    {t : Testcase} (binary : t.Binary params.length) :
    Comb.contains t (rowComb params d) = .ok true ↔ d.Holds params t := by
  have size : t.size = (rowComb params d).size := by rw [binary.size, rowComb_size]
  rw [Comb.contains_eq size, Except.ok.injEq, decide_eq_true_iff]
  constructor
  · intro inside l literal
    have bound := List.idxOf_lt_length_of_mem (wf.known d member l literal)
    have row := rowComb_literal wf member plain literal
    rcases inside.2 (params.idxOf l.name) (by rw [binary.size]; exact bound) with same | unknown
    · exact same.trans row
    · rw [row] at unknown
      unfold Literal.value at unknown
      split at unknown <;> exact absurd unknown (by decide)
  · intro holds
    refine ⟨size, fun i bound => ?_⟩
    rw [binary.size] at bound
    by_cases named : ∃ l ∈ d.literals, params.idxOf l.name = i
    · obtain ⟨l, literal, rfl⟩ := named
      exact Or.inl ((holds l literal).trans (rowComb_literal wf member plain literal).symm)
    · push Not at named
      exact Or.inr (rowComb_open wf member bound named)

end Meaning

section Conditions

/-- `(A && !B) || IS_ENABLED(C)`. -/
def twoCauses : FaultExpr :=
  [⟨[⟨['A'], true, false, false⟩, ⟨['B'], false, false, false⟩], true⟩,
    ⟨[⟨['C'], true, true, false⟩], false⟩]

/-- `!IS_ENABLED(A)`. -/
def notEnabled : FaultExpr := [⟨[⟨['A'], false, true, false⟩], false⟩]

theorem isName_letter {c : Char} (letter : c ∈ ['A', 'B', 'C', 'D']) : IsName [c] := by
  simp only [List.mem_cons, List.not_mem_nil, or_false] at letter
  rcases letter with rfl | rfl | rfl | rfl <;>
    refine ⟨by decide, fun c member => ?_, by decide⟩ <;>
    rw [List.mem_singleton.mp member] <;> decide

theorem twoCauses_wf : FaultExpr.Wf [['A'], ['B'], ['C']] twoCauses := by
  refine ⟨by decide, ?_, by decide, by decide, by decide, by decide⟩
  intro name member
  simp only [List.mem_cons, List.not_mem_nil, or_false] at member
  rcases member with rfl | rfl | rfl <;> exact isName_letter (by decide)

theorem notEnabled_wf : FaultExpr.Wf [['A']] notEnabled := by
  refine ⟨by decide, ?_, by decide, by decide, by decide, by decide⟩
  intro name member
  rw [List.mem_singleton.mp member]
  exact isName_letter (by decide)

/-- The text `( A &&!B)|| IS_ENABLED(C) `. -/
def twoCausesText : Cell := ['('] ++ ([' '] ++ ['A'] ++ ([' '] ++ ['&', '&'] ++ (['!'] ++ (['B'] ++
  ([')'] ++ (['|', '|'] ++ ([' '] ++ IS_ENABLED ++ (['('] ++ (['C'] ++ ([')'] ++ [' ']))))))))))

theorem Spaced.glue (token : Cell) {text : Cell} {tokens : List Cell} (rest : Spaced tokens text) :
    Spaced (token :: tokens) (token ++ text) := @Spaced.token [] _ _ _ rfl rest

theorem twoCauses_spaced : Spaced (FaultExpr.tokens twoCauses) twoCausesText :=
  .glue _ (.token rfl (.token rfl (.glue _ (.glue _ (.glue _ (.glue _ (.token rfl (.glue _ (.glue _
    (.glue _ (.done rfl)))))))))))

/-- The text `!IS_ENABLED(A)`. -/
def notEnabledText : Cell := ['!'] ++ (IS_ENABLED ++ (['('] ++ (['A'] ++ ([')'] ++ []))))

theorem notEnabled_spaced : Spaced (FaultExpr.tokens notEnabled) notEnabledText :=
  .glue _ (.glue _ (.glue _ (.glue _ (.glue _ (.done rfl)))))

theorem twoCauses_plain : ∀ d ∈ twoCauses, d.Plain := by
  intro d member
  refine ⟨?_, ?_⟩
  · revert d
    decide
  · rintro ⟨first, between, last, split, opens, _⟩
    have bare : ∀ d ∈ twoCauses, ∀ l ∈ d.literals, l.wrapped = false := by decide
    rw [bare d member first (by rw [split]; simp)] at opens
    cases opens

end Conditions

/-- The preprocessing keeps the meaning of a fault condition, and every literal of it, exactly
when all of its disjuncts are plain. -/
theorem preprocessing_sameMeaning_iff {params : List Cell} {expr : FaultExpr}
    (wf : FaultExpr.Wf params expr) {text : Cell} (spaced : Spaced (FaultExpr.tokens expr) text) :
    ∃ rows, readCombinations (computeMFS params (parse_expression text)) = .ok rows ∧
      (SameMeaning params expr rows ↔ ∀ d ∈ expr, d.Plain) := by
  refine ⟨_, readCombinations_computeMFS wf spaced, ?_⟩
  constructor
  · intro same d member
    by_contra lossy
    have each := List.forall₂_same.mp (List.forall₂_map_right_iff.mp same.each) d member
    obtain ⟨l, literal, unknown⟩ := rowComb_lossy wf member lossy
    rw [each.literals l literal] at unknown
    unfold Literal.value at unknown
    split at unknown <;> exact absurd unknown (by decide)
  · intro plain
    constructor
    · intro t binary
      constructor
      · rintro ⟨d, member, holds⟩
        exact ⟨_, List.mem_map_of_mem member,
          (contains_rowComb wf member (plain d member) binary).mpr holds⟩
      · rintro ⟨row, listed, inside⟩
        obtain ⟨d, member, rfl⟩ := List.mem_map.mp listed
        exact ⟨d, member, (contains_rowComb wf member (plain d member) binary).mp inside⟩
    · refine List.forall₂_map_right_iff.mpr
        (List.forall₂_same.mpr fun d member => ⟨?_, ?_⟩)
      · exact fun l literal => rowComb_literal wf member (plain d member) literal
      · exact fun t binary => (contains_rowComb wf member (plain d member) binary).mp

theorem preprocessing_sameMeaning_twoCauses : ∃ rows,
    readCombinations (computeMFS [['A'], ['B'], ['C']] (parse_expression twoCausesText)) =
      .ok rows ∧
      SameMeaning [['A'], ['B'], ['C']] twoCauses rows := by
  obtain ⟨rows, read, same⟩ := preprocessing_sameMeaning_iff twoCauses_wf twoCauses_spaced
  exact ⟨rows, read, same.mpr twoCauses_plain⟩

/-- The row of `!IS_ENABLED(A)` is `-`, which every test case contains. -/
theorem preprocessing_drops_negation : FaultExpr.Wf [['A']] notEnabled ∧
    Spaced (FaultExpr.tokens notEnabled) notEnabledText ∧ ∃ rows,
      readCombinations (computeMFS [['A']] (parse_expression notEnabledText)) = .ok rows ∧
        (∃ row ∈ rows, Comb.contains ⟨.testcase, [1]⟩ row = .ok true) ∧
        ¬ FaultExpr.Holds [['A']] ⟨.testcase, [1]⟩ notEnabled ∧
        ¬ SameMeaning [['A']] notEnabled rows := by
  have fails : ¬ FaultExpr.Holds [['A']] ⟨.testcase, [1]⟩ notEnabled := by decide
  have contained : ∃ row ∈ [(⟨.comb, [-1]⟩ : Comb)],
      Comb.contains ⟨.testcase, [1]⟩ row = .ok true :=
    ⟨_, List.mem_singleton.mpr rfl, rfl⟩
  refine ⟨notEnabled_wf, notEnabled_spaced, [⟨.comb, [-1]⟩], rfl, contained, fails,
    fun same => ?_⟩
  exact fails ((same.meaning _ (by decide)).mpr contained)

end NoPend
