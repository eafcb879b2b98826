import Mathlib.Tactic

set_option autoImplicit false

/- Texts as lines and lines as fields, in the way text readers take them apart. -/
namespace Text

variable {α : Type} [DecidableEq α]

section Lines

/-- The lines of a text from a point on, where a line ends with `lf`, with `cr` or with both.
`part` is what was read of the current line; after a `cr` an `lf` is skipped. -/
def linesFrom (cr lf : α) : Bool → List α → List α → List (List α)
  | _, part, [] => if part.isEmpty then [] else [part]
  | skip, part, c :: rest =>
      if c = lf then
        if skip then linesFrom cr lf false part rest else part :: linesFrom cr lf false [] rest
      else if c = cr then part :: linesFrom cr lf true [] rest
      else linesFrom cr lf false (part ++ [c]) rest

/-- The lines of a text. What stands after the last end of a line is a line unless it is empty. -/
def lines (cr lf : α) : List α → List (List α) := linesFrom cr lf false []

/-- The two ways in which writers end a line. -/
def EndsLine (cr lf : α) (ending : List α) : Prop := ending = [lf] ∨ ending = [cr, lf]

variable {cr lf : α}

theorem linesFrom_word {word : List α} (free : ∀ c ∈ word, c ≠ cr ∧ c ≠ lf)
    (part rest : List α) :
    linesFrom cr lf false part (word ++ rest) = linesFrom cr lf false (part ++ word) rest := by
  induction word generalizing part with
  | nil => simp
  | cons c word ih =>
      have here := free c (by simp)
      rw [List.cons_append, linesFrom, if_neg here.2, if_neg here.1,
        ih fun d member => free d (List.mem_cons_of_mem _ member)]
      simp

/-- A line that has ended is read. -/
theorem lines_cons (apart : cr ≠ lf) {line ending : List α}
    (free : ∀ c ∈ line, c ≠ cr ∧ c ≠ lf) (ends : EndsLine cr lf ending) (rest : List α) :
    lines cr lf (line ++ ending ++ rest) = line :: lines cr lf rest := by
  rw [lines, List.append_assoc, linesFrom_word free, List.nil_append]
  rcases ends with rfl | rfl
  · rw [List.singleton_append, linesFrom, if_pos rfl]
    rfl
  · rw [List.cons_append, List.singleton_append, linesFrom, if_neg apart, if_pos rfl, linesFrom,
      if_pos rfl]
    rfl

/-- What was written line by line is read back, empty lines included. -/
theorem lines_flatMap (apart : cr ≠ lf) {ending : List α} (ends : EndsLine cr lf ending)
    (rows : List (List α)) (free : ∀ row ∈ rows, ∀ c ∈ row, c ≠ cr ∧ c ≠ lf)
    (rest : List α) :
    lines cr lf (rows.flatMap (· ++ ending) ++ rest) = rows ++ lines cr lf rest := by
  induction rows with
  | nil => rfl
  | cons row rows ih =>
      rw [List.flatMap_cons, List.append_assoc, lines_cons apart (free row (by simp)) ends,
        ih fun other member => free other (List.mem_cons_of_mem _ member)]
      rfl

end Lines

section Fields

/-- Leave out the empty parts at the end. -/
def dropTrailing (parts : List (List α)) : List (List α) :=
  (parts.reverse.dropWhile List.isEmpty).reverse

/-- The parts between separators. A text without one is its only part, even if it is empty; else
no empty part is listed last. -/
def split (sep : α → Bool) (text : List α) : List (List α) :=
  if text.any sep then dropTrailing (text.splitOnP sep) else [text]

/-- The parts between runs of separators. -/
def splitRuns (sep : α → Bool) (text : List α) : List (List α) :=
  if text.any sep then
    dropTrailing ((text.splitOnP sep).take 1 ++ (text.splitOnP sep).tail.filter (!·.isEmpty))
  else [text]

variable {sep : α → Bool} {c : α}

omit [DecidableEq α] in
theorem dropTrailing_of_some {parts : List (List α)} (some : ∀ part ∈ parts, part ≠ []) :
    dropTrailing parts = parts := by
  rw [dropTrailing]
  cases backwards : parts.reverse with
  | nil => simpa using backwards.symm
  | cons last before =>
      have listed : last ∈ parts := List.mem_reverse.mp (by rw [backwards]; simp)
      rw [List.dropWhile_cons_of_neg (by simpa using some last listed), ← backwards,
        List.reverse_reverse]

omit [DecidableEq α] in
theorem splitOnP_intercalate (separates : sep c = true) (parts : List (List α))
    (nonempty : parts ≠ []) (free : ∀ part ∈ parts, ∀ d ∈ part, sep d = false) :
    (List.intercalate [c] parts).splitOnP sep = parts := by
  induction parts with
  | nil => exact absurd rfl nonempty
  | cons first rest ih =>
      have here := free first (by simp)
      cases rest with
      | nil => simpa using List.splitOnP_eq_singleton here
      | cons second rest =>
          rw [List.intercalate_cons_cons, List.append_assoc, List.singleton_append,
            List.splitOnP_append_cons_of_forall_mem here c separates,
            ih (by simp) fun part member => free part (List.mem_cons_of_mem _ member)]

omit [DecidableEq α] in
/-- A joined text has a separator unless it has one part only. -/
theorem any_intercalate (separates : sep c = true) (first second : List α)
    (rest : List (List α)) :
    (List.intercalate [c] (first :: second :: rest)).any sep = true := by
  rw [List.intercalate_cons_cons]
  simp [separates]

omit [DecidableEq α] in
/-- Fields that are not empty and have no separator in them are found again. -/
theorem split_intercalate (separates : sep c = true) (fields : List (List α))
    (nonempty : fields ≠ [])
    (some : ∀ field ∈ fields, field ≠ [])
    (free : ∀ field ∈ fields, ∀ d ∈ field, sep d = false) :
    split sep (List.intercalate [c] fields) = fields := by
  match fields, nonempty with
  | [field], _ =>
      have none : (field.any sep) = false := by
        rw [List.any_eq_false]
        intro d member
        simp [free field (by simp) d member]
      simp [split, none]
  | first :: second :: rest, _ =>
      rw [split, if_pos (any_intercalate separates first second rest),
        splitOnP_intercalate separates _ (by simp) free, dropTrailing_of_some some]

omit [DecidableEq α] in
theorem splitRuns_intercalate (separates : sep c = true) (fields : List (List α))
    (nonempty : fields ≠ []) (some : ∀ field ∈ fields, field ≠ [])
    (free : ∀ field ∈ fields, ∀ d ∈ field, sep d = false) :
    splitRuns sep (List.intercalate [c] fields) = fields := by
  match fields, nonempty with
  | [field], _ =>
      have none : (field.any sep) = false := by
        rw [List.any_eq_false]
        intro d member
        simp [free field (by simp) d member]
      simp [splitRuns, none]
  | first :: second :: rest, _ =>
      have kept : (second :: rest).filter (!·.isEmpty) = second :: rest := by
        rw [List.filter_eq_self]
        intro field member
        simpa using some field (List.mem_cons_of_mem _ member)
      rw [splitRuns, if_pos (any_intercalate separates first second rest),
        splitOnP_intercalate separates _ (by simp) free, List.tail_cons, kept, List.take_succ_cons,
        List.take_zero, List.singleton_append, dropTrailing_of_some some]

end Fields

end Text
