import NoPend.Util.Files

set_option autoImplicit false

/- `CAResolver`: the covering arrays with which an experiment starts. -/
namespace NoPend

open CSVResolver

namespace CAResolver

def CAPath_STR : Cell := "src/main/resources/tables".toList

/-- The digits that the format `%d` writes. -/
def digits (i : Nat) : Cell := Nat.toDigits 10 i

/-- The path of the table for `n` parameters with `v` values. -/
def tablePath (n t v : Nat) : Cell :=
  CAPath_STR ++ ['/'] ++ digits t ++ ['x'] ++ digits v ++ "/ca.".toList ++ digits t ++ ['.'] ++
    digits v ++ ['^'] ++ digits n ++ ".txt".toList

/-- The characters that `\s` matches. -/
def isWhite (c : Char) : Bool := c.toNat = 0x20 || (0x09 ≤ c.toNat && c.toNat ≤ 0x0d)

/-- A value of a line; a dash, where any value does, is read as 0. -/
def readValue (numStr : Cell) : Except Exn Int :=
  if numStr = ['-'] then .ok 0 else parseInt numStr

def readTest (line : Cell) : Except Exn Testcase := do
  let values ← (Text.splitRuns isWhite (trim line)).mapM readValue
  Testcase.ofComb (← Comb.ofList values)

/-- The loop over the lines of the test cases. -/
def readTests : Nat → List Cell → Except IOExn (List Testcase)
  | 0, _ => .ok []
  | _ + 1, [] => .error (.io "文件格式错误: 测试用例数量不匹配")
  | rest + 1, line :: lines => do
      let testcase ← IOExn.lift (readTest line)
      return testcase :: (← readTests rest lines)

def multiwayCA (files : Files) (n t v : Nat) : Except IOExn (List Testcase) := do
  let path := tablePath n t v
  if (files path).isNone then throw (.fileNotFound ("File not found: ".toList ++ path))
  match ← files.newBufferedReader path with
  | [] => throw (.io "文件格式错误: 缺少测试用例数量")
  | line :: lines =>
      let testCaseCount ← IOExn.lift (parseInt (trim line))
      readTests testCaseCount.toNat lines

def oneWayCA (n v : Nat) : Except Exn (List Testcase) :=
  (List.range v).mapM fun (i : Nat) => do
    let comb ← (List.range n).foldlM (fun (comb : Comb) j => comb.set j (i : Int))
      ⟨.mutableComb, (Comb.ofSize n).elements⟩
    Testcase.ofComb comb

end CAResolver

/-- Every combination of at most `t` binary parameters is part of a test case. -/
def Covers (n t : Nat) (tests : List Testcase) : Prop :=
  ∀ c : Comb, c.Over n → c.fixed.card ≤ t → ∃ test ∈ tests, test.Contains c

/-- A table with `n` columns of values and dashes. -/
structure CATable (n : Nat) (rows : List (List Cell)) : Prop where
  width : ∀ row ∈ rows, row.length = n
  cells : ∀ row ∈ rows, ∀ cell ∈ row, cell = ['0'] ∨ cell = ['1'] ∨ cell = ['-']

/-- Every combination of exactly `t` binary parameters is written out in a row. -/
def RowsCover (n t : Nat) (rows : List (List Cell)) : Prop :=
  ∀ c : Comb, c.Over n → c.fixed.card = t →
    ∃ row ∈ rows, ∀ i ∈ c.fixed, ∃ cell, row[i]? = some cell ∧ cellValue cell = c.val i

instance (n : Nat) (rows : List (List Cell)) : Decidable (CATable n rows) :=
  decidable_of_iff ((∀ row ∈ rows, row.length = n) ∧
      ∀ row ∈ rows, ∀ cell ∈ row, cell = ['0'] ∨ cell = ['1'] ∨ cell = ['-'])
    ⟨fun ⟨width, cells⟩ => ⟨width, cells⟩, fun ⟨width, cells⟩ => ⟨width, cells⟩⟩

open CAResolver

/-- A table as it is written: the number of its rows, and the values of each with a blank after
every value. -/
def tableText (ending : Cell) (count : Nat) (rows : List (List Cell)) : Cell :=
  (digits count :: rows.map fun row => List.intercalate [' '] row ++ [' ']).flatMap (· ++ ending)

section Digits

theorem digits_isDigit {i : Nat} {c : Char} (member : c ∈ digits i) : c.isDigit = true :=
  Nat.isDigit_of_mem_toDigits (by decide) (by decide) member

theorem digits_solid {i : Nat} {c : Char} (member : c ∈ digits i) :
    0x30 ≤ c.toNat ∧ c.toNat ≤ 0x39 := by
  have digit := digits_isDigit member
  simp only [Char.isDigit, Bool.and_eq_true, decide_eq_true_eq] at digit
  exact ⟨digit.1, digit.2⟩

theorem digits_ne_nil (i : Nat) : digits i ≠ [] := Nat.toDigits_ne_nil

theorem trim_digits (i : Nat) : trim (digits i) = digits i := by
  refine dropEnds_of_none fun c member => ?_
  have solid := digits_solid member
  simp only [decide_eq_false_iff_not]
  omega

/-- The loop over the digits of a number. -/
theorem foldl_digits (text : Cell) (start : Nat) :
    text.foldl (fun (value : Int) d => 10 * value + (d.toNat - 48 : Nat)) start =
      (Nat.ofDigitChars 10 text start : Int) := by
  induction text generalizing start with
  | nil => rfl
  | cons d text ih =>
      rw [List.foldl_cons, Nat.ofDigitChars_cons, ← ih]
      push_cast
      rfl

/-- A number that was written is read. -/
theorem parseInt_digits {i : Nat} (small : i < 2 ^ 31) : parseInt (digits i) = .ok (i : Int) := by
  have value := foldl_digits (digits i) 0
  rw [digits, Nat.ofDigitChars_ten_toDigits, ← digits] at value
  have all : (digits i).all Char.isDigit = true := List.all_eq_true.mpr fun c => digits_isDigit
  cases written : digits i with
  | nil => exact absurd written (digits_ne_nil i)
  | cons c rest =>
      have first := digits_solid (i := i) (c := c) (by rw [written]; simp)
      have sign : c ≠ '-' ∧ c ≠ '+' := by
        constructor <;> rintro rfl <;> exact absurd first (by decide)
      rw [written] at all value
      unfold parseInt
      split
      rename_i negative text same
      split at same
      · rename_i shape
        exact absurd (List.cons.inj shape).1 sign.1
      · rename_i shape
        exact absurd (List.cons.inj shape).1 sign.2
      · obtain ⟨rfl, rfl⟩ := Prod.mk.inj same
        simp only [List.isEmpty_cons, all, Bool.not_true, Bool.or_self,
          Bool.false_eq_true, if_false, Nat.cast_zero] at value ⊢
        rw [value]
        have inside : ¬ ((i : Int) < -2 ^ 31 ∨ (i : Int) > 2 ^ 31 - 1) := by omega
        simp only [Bool.or_eq_true, decide_eq_true_eq, if_neg inside]
        rfl

end Digits

section Table

variable {n t : Nat} {rows : List (List Cell)} {ending : Cell}

/-- Only blanks at the ends are dropped. -/
theorem dropEnds_word {drop : Char → Bool} {word after : Cell}
    (first : ∀ c ∈ word.head?, drop c = false)
    (last : ∀ c ∈ word.getLast?, drop c = false) (blank : after.all drop = true)
    (some : word ≠ []) :
    dropEnds drop (word ++ after) = word := by
  have front : (word ++ after).dropWhile drop = word ++ after := by
    cases word with
    | nil => exact absurd rfl some
    | cons c rest => exact List.dropWhile_cons_of_neg (by simp [first c (by simp)])
  have back : (after.reverse ++ word.reverse).dropWhile drop = word.reverse := by
    rw [List.dropWhile_append_of_pos fun c member =>
      List.all_eq_true.mp blank c (List.mem_reverse.mp member)]
    cases backwards : word.reverse with
    | nil => rfl
    | cons c rest =>
        refine List.dropWhile_cons_of_neg ?_
        simp [last c (by rw [← List.head?_reverse, backwards]; rfl)]
  rw [dropEnds, front, List.reverse_append, back, List.reverse_reverse]

theorem ternary_solid {cell : Cell} (ternary : cell = ['0'] ∨ cell = ['1'] ∨ cell = ['-']) :
    ∃ c, cell = [c] ∧ 0x20 < c.toNat ∧ isWhite c = false ∧ c ≠ '\r' ∧ c ≠ '\n' := by
  rcases ternary with rfl | rfl | rfl <;>
    exact ⟨_, rfl, by decide, by decide, by decide, by decide⟩

/-- The line of a row without the blank at its end. -/
theorem trim_line {row : List Cell} (some : row ≠ [])
    (cells : ∀ cell ∈ row, cell = ['0'] ∨ cell = ['1'] ∨ cell = ['-']) :
    trim (List.intercalate [' '] row ++ [' ']) = List.intercalate [' '] row := by
  have solid : ∀ c, (∃ cell ∈ row, c ∈ cell) → decide (c.toNat ≤ 0x20) = false := by
    rintro c ⟨cell, member, inside⟩
    obtain ⟨d, rfl, high, _⟩ := ternary_solid (cells cell member)
    rw [List.mem_singleton.mp inside]
    simpa using high
  have nonempty : ∀ cell ∈ row, cell ≠ [] := by
    intro cell member
    obtain ⟨d, rfl, _⟩ := ternary_solid (cells cell member)
    exact List.cons_ne_nil _ _
  have front : ∀ c ∈ (List.intercalate [' '] row).head?, ∃ cell ∈ row, c ∈ cell := by
    cases row with
    | nil => exact absurd rfl some
    | cons first rest =>
        obtain ⟨after, joined⟩ := Text.exists_intercalate_eq [' '] first rest
        intro c head
        rw [joined, List.head?_append_of_ne_nil _ (nonempty first (by simp))] at head
        exact ⟨first, by simp, List.mem_of_mem_head? head⟩
  have back : ∀ c ∈ (List.intercalate [' '] row).getLast?, ∃ cell ∈ row, c ∈ cell := by
    intro c end'
    rcases List.eq_nil_or_concat row with none | ⟨before, last, rfl⟩
    · exact absurd none some
    · rw [List.concat_eq_append] at end' nonempty
      refine ⟨last, by simp, ?_⟩
      have ends := nonempty last (by simp)
      by_cases single : before = []
      · subst single
        rw [List.nil_append, List.intercalate_singleton] at end'
        exact List.mem_of_mem_getLast? end'
      · rw [Text.intercalate_concat _ single, List.getLast?_append_of_ne_nil _ ends] at end'
        exact List.mem_of_mem_getLast? end'
  refine dropEnds_word (fun c head => solid c (front c head))
    (fun c end' => solid c (back c end')) rfl ?_
  intro empty
  cases row with
  | nil => exact some rfl
  | cons first rest =>
      obtain ⟨after, joined⟩ := Text.exists_intercalate_eq [' '] first rest
      rw [joined, List.append_eq_nil_iff] at empty
      exact nonempty first (by simp) empty.1

/-- The value that is read for a cell. -/
def caValue (cell : Cell) : Int := if cell = ['1'] then 1 else 0

/-- The test case that is read for a row. -/
def rowTest (row : List Cell) : Testcase := ⟨.testcase, row.map caValue⟩

theorem readValue_eq {cell : Cell} (ternary : cell = ['0'] ∨ cell = ['1'] ∨ cell = ['-']) :
    readValue cell = .ok (caValue cell) := by
  rcases ternary with rfl | rfl | rfl <;> rfl

theorem caValue_binary (cell : Cell) : caValue cell = 0 ∨ caValue cell = 1 := by
  unfold caValue
  split
  · exact Or.inr rfl
  · exact Or.inl rfl

theorem rowTest_val {row : List Cell} {i : Nat} {cell : Cell} (here : row[i]? = some cell) :
    (rowTest row).val i = caValue cell := by
  simp [rowTest, Comb.val, here]

theorem rowTest_binary {row : List Cell} (width : row.length = n) : (rowTest row).Binary n := by
  refine ⟨by simp [rowTest, Comb.size, width], fun i inside => ?_⟩
  rw [rowTest_val (List.getElem?_eq_getElem (by omega))]
  exact caValue_binary _

/-- A line is read as the values of its row. -/
theorem readTest_eq {row : List Cell} (some : row ≠ [])
    (cells : ∀ cell ∈ row, cell = ['0'] ∨ cell = ['1'] ∨ cell = ['-']) :
    readTest (List.intercalate [' '] row ++ [' ']) = .ok (rowTest row) := by
  have fields : Text.splitRuns isWhite (List.intercalate [' '] row) = row := by
    refine Text.splitRuns_intercalate (by decide) row some (fun cell member => ?_)
      fun cell member c inside => ?_
    · obtain ⟨c, rfl, _⟩ := ternary_solid (cells cell member)
      exact List.cons_ne_nil _ _
    · obtain ⟨d, rfl, _, solid, _⟩ := ternary_solid (cells cell member)
      rwa [List.mem_singleton.mp inside]
  have values : row.mapM readValue = .ok (row.map caValue) :=
    Except.mapM_ok fun cell member => readValue_eq (cells cell member)
  have valid : Comb.ofList (row.map caValue) = .ok ⟨.comb, row.map caValue⟩ := by
    apply Comb.validated_ok
    intro v member
    obtain ⟨cell, _, rfl⟩ := List.mem_map.mp member
    rcases caValue_binary cell with zero | one <;> omega
  rw [readTest, trim_line some cells, fields, values]
  have complete : Comb.Binary row.length ⟨.comb, row.map caValue⟩ :=
    ⟨(rowTest_binary rfl).size, (rowTest_binary rfl).values⟩
  exact Except.bind_ok.mpr
    ⟨_, rfl, Except.bind_ok.mpr ⟨_, valid, Testcase.ofComb_eq complete⟩⟩

/-- The loop over the lines takes as many as it was told, or refuses a file that has fewer. -/
theorem readTests_eq (positive : 0 < n) (wf : CATable n rows) (count : Nat) :
    readTests count (rows.map fun row => List.intercalate [' '] row ++ [' ']) =
      if count ≤ rows.length then .ok ((rows.take count).map rowTest)
      else .error (.io "文件格式错误: 测试用例数量不匹配") := by
  induction rows generalizing count with
  | nil =>
      cases count with
      | zero => rfl
      | succ count => rfl
  | cons row rows ih =>
      cases count with
      | zero => rfl
      | succ count =>
          have some : row ≠ [] := by
            rintro rfl
            have width := wf.width [] (by simp)
            simp only [List.length_nil] at width
            omega
          have later := ih ⟨fun r member => wf.width r (by simp [member]),
            fun r member => wf.cells r (by simp [member])⟩ count
          rw [List.map_cons, readTests, readTest_eq some (wf.cells row (by simp)), later]
          by_cases enough : count ≤ rows.length
          · simp [enough, IOExn.lift, bind, Except.bind, pure, Except.pure]
          · simp [enough, IOExn.lift, bind, Except.bind]

theorem tableText_lines (ends : Text.EndsLine '\r' '\n' ending) (wf : CATable n rows)
    (count : Nat) :
    textLines (tableText ending count rows) =
      digits count :: rows.map fun row => List.intercalate [' '] row ++ [' '] := by
  have free : ∀ line ∈ digits count :: rows.map (fun row =>
      List.intercalate [' '] row ++ [' ']), ∀ c ∈ line, c ≠ '\r' ∧ c ≠ '\n' := by
    intro line member c inside
    rcases List.mem_cons.mp member with rfl | listed
    · have solid := digits_solid inside
      constructor <;> rintro rfl <;> exact absurd solid (by decide)
    · obtain ⟨row, there, rfl⟩ := List.mem_map.mp listed
      rcases List.mem_append.mp inside with word | blank
      · rcases Text.mem_intercalate word with blank | ⟨cell, among, here⟩
        · rw [List.mem_singleton.mp blank]
          decide
        · obtain ⟨d, rfl, _, _, lines⟩ := ternary_solid (wf.cells row there cell among)
          rw [List.mem_singleton.mp here]
          exact lines
      · rw [List.mem_singleton.mp blank]
        decide
  have split := Text.lines_flatMap (by decide) ends _ free []
  simpa [tableText, textLines, Text.lines, Text.linesFrom] using split

/-- A table file is read row by row; dashes are read as 0, and missing rows are noticed. -/
theorem multiwayCA_eq (positive : 0 < n) (wf : CATable n rows) {v count : Nat}
    (small : count < 2 ^ 31) (ends : Text.EndsLine '\r' '\n' ending) {files : Files}
    (there : files (tablePath n t v) = some (tableText ending count rows)) :
    multiwayCA files n t v = if count ≤ rows.length then .ok ((rows.take count).map rowTest)
      else .error (.io "文件格式错误: 测试用例数量不匹配") := by
  have opened : files.newBufferedReader (tablePath n t v) =
      .ok (digits count :: rows.map fun row => List.intercalate [' '] row ++ [' ']) := by
    rw [Files.newBufferedReader, there, ← tableText_lines ends wf]
  have number : IOExn.lift (parseInt (trim (digits count))) = .ok (count : Int) := by
    rw [trim_digits, parseInt_digits small]
    rfl
  rw [← readTests_eq positive wf count]
  simp only [multiwayCA, there, opened, Option.isNone_some, Bool.false_eq_true, if_false]
  change (do
    let testCaseCount ← IOExn.lift (parseInt (trim (digits count)))
    readTests testCaseCount.toNat _) = _
  rw [number]
  rfl

end Table

section Covering

variable {n t : Nat} {rows : List (List Cell)} {tests : List Testcase}

theorem Covers.weaken {s : Nat} (covers : Covers n t tests) (less : s ≤ t) : Covers n s tests :=
  fun c sized few => covers c sized (few.trans less)

/-- A combination with further parameters set to 0. -/
def fillUp (n : Nat) (c : Comb) (S : Finset Nat) : Comb :=
  ⟨.comb, (List.range n).map fun i =>
    if i ∈ c.fixed then c.val i else if i ∈ S then 0 else Comb.UNKNOWN⟩

theorem fillUp_val {c : Comb} {S : Finset Nat} {i : Nat} (inside : i < n) :
    (fillUp n c S).val i = if i ∈ c.fixed then c.val i else if i ∈ S then 0 else Comb.UNKNOWN :=
  Comb.val_tabulate _ _ inside

theorem fillUp_over {c : Comb} (sized : c.Over n) (S : Finset Nat) : (fillUp n c S).Over n := by
  refine ⟨Comb.size_tabulate _ _ _, fun i inside => ?_⟩
  rw [fillUp_val inside]
  split
  · exact sized.values i inside
  · split
    · exact Or.inl rfl
    · exact Or.inr (Or.inr rfl)

theorem fillUp_fixed {c : Comb} {S : Finset Nat} (part : c.fixed ⊆ S)
    (within : S ⊆ Finset.range n) :
    (fillUp n c S).fixed = S := by
  ext i
  rw [Comb.mem_fixed]
  by_cases inside : i < n
  · rw [fillUp_val inside]
    split
    · rename_i known
      exact ⟨fun _ => part known, fun _ => Comb.mem_fixed.mp known⟩
    · split
      · rename_i listed
        exact ⟨fun _ => listed, fun _ => by decide⟩
      · rename_i absent
        exact ⟨fun known => absurd rfl known, fun listed => absurd listed absent⟩
  · rw [Comb.val_of_size_le (by rw [fillUp, Comb.size_tabulate]; omega)]
    exact ⟨fun known => absurd rfl known, fun listed =>
      absurd (Finset.mem_range.mp (within listed)) inside⟩

/-- It is enough to look at the parameters and at which of them have the value 1. -/
theorem rowsCover_iff : RowsCover n t rows ↔
    ∀ S ∈ (Finset.range n).powersetCard t, ∀ ones ∈ S.powerset, ∃ row ∈ rows,
      ∀ i ∈ S, row[i]?.map cellValue = some (if i ∈ ones then 1 else 0) := by
  constructor
  · intro cover S level ones _
    obtain ⟨within, card⟩ := Finset.mem_powersetCard.mp level
    let c : Comb := ⟨.comb, (List.range n).map fun i =>
      if i ∈ S then if i ∈ ones then 1 else 0 else Comb.UNKNOWN⟩
    have value : ∀ i < n,
        c.val i = if i ∈ S then if i ∈ ones then 1 else 0 else Comb.UNKNOWN :=
      fun i inside => Comb.val_tabulate _ _ inside
    have size : c.size = n := Comb.size_tabulate _ _ _
    have fixed : c.fixed = S := by
      ext i
      rw [Comb.mem_fixed]
      by_cases inside : i < n
      · rw [value i inside]
        by_cases listed : i ∈ S
        · simp only [listed, if_true, iff_true]
          split <;> decide
        · simp [listed]
      · rw [Comb.val_of_size_le (by omega)]
        exact ⟨fun known => absurd rfl known,
          fun listed => absurd (Finset.mem_range.mp (within listed)) inside⟩
    have sized : c.Over n := by
      refine ⟨size, fun i inside => ?_⟩
      rw [value i inside]
      split
      · split
        · exact Or.inr (Or.inl rfl)
        · exact Or.inl rfl
      · exact Or.inr (Or.inr rfl)
    obtain ⟨row, member, written⟩ := cover c sized (by rw [fixed, card])
    refine ⟨row, member, fun i listed => ?_⟩
    obtain ⟨cell, here, same⟩ := written i (by rw [fixed]; exact listed)
    rw [here, Option.map_some, same, value i (Finset.mem_range.mp (within listed)), if_pos listed]
  · intro cover c sized card
    have within : c.fixed ⊆ Finset.range n := sized.size ▸ c.fixed_subset_range
    obtain ⟨row, member, written⟩ :=
      cover c.fixed (Finset.mem_powersetCard.mpr ⟨within, card⟩)
        (c.fixed.filter (c.val · = 1)) (Finset.mem_powerset.mpr (Finset.filter_subset _ _))
    refine ⟨row, member, fun i known => ?_⟩
    obtain ⟨cell, here, same⟩ := Option.map_eq_some_iff.mp (written i known)
    refine ⟨cell, here, same.trans ?_⟩
    rcases sized.values i (Finset.mem_range.mp (within known)) with zero | one | unknown
    · simp [zero]
    · simp [one, known]
    · exact absurd unknown (Comb.mem_fixed.mp known)

instance (n t : Nat) (rows : List (List Cell)) : Decidable (RowsCover n t rows) :=
  decidable_of_iff _ rowsCover_iff.symm

/-- Reading dashes as 0 loses no combination, and fewer parameters are covered as well. -/
theorem RowsCover.covers (atMost : t ≤ n) (wf : CATable n rows) (cover : RowsCover n t rows) :
    Covers n t (rows.map rowTest) := by
  intro c sized few
  have within : c.fixed ⊆ Finset.range n := sized.size ▸ c.fixed_subset_range
  obtain ⟨S, part, inside, card⟩ :=
    Finset.exists_subsuperset_card_eq within few (by simpa using atMost)
  obtain ⟨row, member, written⟩ := cover (fillUp n c S) (fillUp_over sized S)
    (by rw [fillUp_fixed part inside, card])
  rw [fillUp_fixed part inside] at written
  refine ⟨rowTest row, List.mem_map_of_mem member, ?_⟩
  rw [Comb.contains_iff]
  refine ⟨(rowTest_binary (wf.width row member)).size.trans sized.size.symm, fun i known => ?_⟩
  have bound := Finset.mem_range.mp (within known)
  obtain ⟨cell, here, same⟩ := written i (part known)
  rw [fillUp_val bound, if_pos known] at same
  have value := sized.values i bound
  have fixed := Comb.mem_fixed.mp known
  rw [rowTest_val here, ← same]
  rcases wf.cells row member cell (List.mem_of_getElem? here) with rfl | rfl | rfl
  · rfl
  · rfl
  · exact absurd same.symm fixed

theorem oneWayCA_eq (n v : Nat) :
    oneWayCA n v = .ok ((List.range v).map fun i : Nat =>
      ⟨.testcase, (List.range n).map fun _ => (i : Int)⟩) := by
  rw [oneWayCA]
  refine Except.mapM_ok fun i _ => ?_
  obtain ⟨comb, filled, rfl⟩ := Except.foldlM_inv (fun (comb : Comb) j => comb.set j (i : Int))
    (fun done comb => comb = ⟨.mutableComb, (List.range n).map fun j =>
      if j ∈ done then (i : Int) else Comb.UNKNOWN⟩) (List.range n) (by
    rintro done j comb member rfl
    refine ⟨_, Comb.set_tabulate (List.mem_range.mp member), ?_⟩
    congr 2
    funext k
    by_cases here : k = j
    · simp [here]
    · simp [here]) ⟨.mutableComb, (Comb.ofSize n).elements⟩ (by
    simp [Comb.ofSize, List.map_const'])
  rw [filled]
  have all : ((List.range n).map fun j => if j ∈ List.range n then (i : Int) else Comb.UNKNOWN) =
      (List.range n).map fun _ => (i : Int) :=
    List.map_congr_left fun j member => if_pos member
  refine Except.bind_ok.mpr ⟨_, rfl, ?_⟩
  rw [all, Testcase.ofComb, if_neg]
  simp [Comb.UNKNOWN]

/-- The two test cases that an experiment makes itself. -/
theorem oneWayCA_covers : ∃ tests, oneWayCA n 2 = .ok tests ∧ (∀ t ∈ tests, t.Binary n) ∧
    Covers n 1 tests := by
  refine ⟨_, oneWayCA_eq n 2, fun t member => ?_, fun c sized few => ?_⟩
  · obtain ⟨i, small, rfl⟩ := List.mem_map.mp member
    refine ⟨Comb.size_tabulate _ _ _, fun j inside => ?_⟩
    rw [Comb.val_tabulate _ _ inside]
    have bound := List.mem_range.mp small
    omega
  · obtain ⟨value, binary, same⟩ : ∃ v : Nat, v < 2 ∧ ∀ i ∈ c.fixed, c.val i = v := by
      rcases Finset.card_le_one_iff_subset_singleton.mp few with ⟨i, only⟩
      by_cases known : i ∈ c.fixed
      · have bound : i < n := sized.size ▸ Finset.mem_range.mp (c.fixed_subset_range known)
        have fixed := Comb.mem_fixed.mp known
        have each : ∀ j ∈ c.fixed, j = i :=
          fun j member => Finset.mem_singleton.mp (only member)
        rcases sized.values i bound with zero | one | unknown
        · exact ⟨0, by decide, fun j member => by rw [each j member, zero]; rfl⟩
        · exact ⟨1, by decide, fun j member => by rw [each j member, one]; rfl⟩
        · exact absurd unknown fixed
      · refine ⟨0, by decide, fun j member => ?_⟩
        exact absurd (Finset.mem_singleton.mp (only member) ▸ member) known
    refine ⟨_, List.mem_map_of_mem (List.mem_range.mpr binary), ?_⟩
    rw [Comb.contains_iff]
    refine ⟨(Comb.size_tabulate _ _ _).trans sized.size.symm, fun i known => ?_⟩
    have bound : i < n := sized.size ▸ Finset.mem_range.mp (c.fixed_subset_range known)
    rw [Comb.val_tabulate _ _ bound, same i known]

/-- The file of a covering array with dashes is read as one complete test case a row, and these
still cover all combinations of at most `t` parameters; a file that has fewer rows than it announces
is refused. -/
theorem multiwayCA_covering (positive : 0 < n) (atMost : t ≤ n) (wf : CATable n rows)
    (cover : RowsCover n t rows) {v count : Nat} (small : count < 2 ^ 31) {ending : Cell}
    (ends : Text.EndsLine '\r' '\n' ending) {files : Files}
    (there : files (tablePath n t v) = some (tableText ending count rows)) :
    (count = rows.length →
      ∃ tests, multiwayCA files n t v = .ok tests ∧ tests.length = rows.length ∧
      (∀ test ∈ tests, test.Binary n) ∧ Covers n t tests) ∧
    (rows.length < count →
      multiwayCA files n t v = .error (.io "文件格式错误: 测试用例数量不匹配")) := by
  rw [multiwayCA_eq positive wf small ends there]
  constructor
  · rintro rfl
    refine ⟨rows.map rowTest, ?_, List.length_map _, fun test member => ?_,
      cover.covers atMost wf⟩
    · rw [if_pos (le_refl _), List.take_length]
    · obtain ⟨row, listed, rfl⟩ := List.mem_map.mp member
      exact rowTest_binary (wf.width row listed)
  · exact fun more => if_neg (not_le.mpr more)

/-- The table for the pairs of four parameters. -/
def pairsOfFour : List (List Cell) :=
  [[['0'], ['0'], ['1'], ['0']], [['0'], ['1'], ['0'], ['1']], [['1'], ['0'], ['0'], ['1']],
   [['1'], ['1'], ['1'], ['0']], [['-'], ['-'], ['0'], ['0']], [['-'], ['-'], ['1'], ['1']]]

/-- The last row of this table is read with 0 for its dashes; with a seventh row announced the
table is refused. -/
theorem multiwayCA_covering_pairs :
    (∃ tests, multiwayCA (fun _ => some (tableText ['\n'] 6 pairsOfFour)) 4 2 2 = .ok tests ∧
      (⟨.testcase, [0, 0, 1, 1]⟩ : Testcase) ∈ tests ∧
      (∀ test ∈ tests, test.Binary 4) ∧
      Covers 4 2 tests) ∧
    multiwayCA (fun _ => some (tableText ['\n'] 7 pairsOfFour)) 4 2 2 =
      .error (.io "文件格式错误: 测试用例数量不匹配") := by
  have wf : CATable 4 pairsOfFour := by decide
  have cover : RowsCover 4 2 pairsOfFour := by decide
  let files : Nat → Files := fun count _ => some (tableText ['\n'] count pairsOfFour)
  have there : ∀ count, files count (tablePath 4 2 2) =
      some (tableText ['\n'] count pairsOfFour) := fun _ => rfl
  have six := multiwayCA_covering (by decide) (by decide) wf cover (by decide) (.inl rfl) (there 6)
  have seven := multiwayCA_covering (by decide) (by decide) wf cover (by decide) (.inl rfl)
    (there 7)
  refine ⟨?_, seven.2 (by decide)⟩
  obtain ⟨tests, ok, _, binary, covers⟩ := six.1 rfl
  refine ⟨tests, ok, ?_, binary, covers⟩
  have listed : multiwayCA (fun _ => some (tableText ['\n'] 6 pairsOfFour)) 4 2 2 =
      .ok (pairsOfFour.map rowTest) := rfl
  rw [← Except.ok.inj (listed.symm.trans ok)]
  decide

end Covering

end NoPend
