import NoPend.Lib.Text
import NoPend.Util.SafeValues

set_option autoImplicit false

/- The pass `computeFaults.py`: it takes the text of a fault condition apart. The passes that
follow it are in `ComputeMFS`. -/
namespace NoPend

namespace ComputeFaults

open ComputeSafeValue (isspace)

/-- The loop of `split_ors`: the bracket level and what was read of the current part. -/
def splitOrsFrom (bracket_level : Int) (part : Cell) : Cell → List Cell
  | [] => [part]
  | [c] => [part ++ [c]]
  | c :: d :: rest =>
      if c = '(' then splitOrsFrom (bracket_level + 1) (part ++ [c]) (d :: rest)
      else if c = ')' then splitOrsFrom (bracket_level - 1) (part ++ [c]) (d :: rest)
      else if c = '|' ∧ d = '|' ∧ bracket_level = 0 then
        part :: splitOrsFrom bracket_level [] rest
      else splitOrsFrom bracket_level (part ++ [c]) (d :: rest)

def split_ors (s : Cell) : List Cell := splitOrsFrom 0 [] s

/-- The loop of `remove_outer_parentheses`. Every round takes two characters away, so that as
many rounds as there are characters are enough. -/
def stripParentheses : Nat → Cell → Cell
  | 0, s => s
  | fuel + 1, s =>
      if s.head? = some '(' ∧ s.getLast? = some ')' then stripParentheses fuel s.tail.dropLast
      else s

/-- The macro whose name the pass erases. -/
def IS_ENABLED : Cell := ['I', 'S', '_', 'E', 'N', 'A', 'B', 'L', 'E', 'D']

def remove_outer_parentheses (s : Cell) : Cell :=
  let s := stripParentheses s.length s
  if IS_ENABLED <:+: s then Text.eraseAll IS_ENABLED s else s

/-- The conjuncts of one disjunct. -/
def parseDisjunct (disjunct : Cell) : List Cell :=
  (Text.splitPairs '&' [] (remove_outer_parentheses disjunct)).map remove_outer_parentheses

def parse_expression (expr : Cell) : List (List Cell) :=
  (split_ors (expr.filter fun c => !isspace c)).map parseDisjunct

end ComputeFaults

/-- A literal of a fault condition, and how it is written. -/
structure Literal where
  name : Cell
  positive : Bool
  isEnabled : Bool
  wrapped : Bool

/-- A conjunction of literals, and whether it is written in parentheses. -/
structure Disjunct where
  literals : List Literal
  wrapped : Bool

/-- A fault condition. -/
abbrev FaultExpr := List Disjunct

section Grammar

open ComputeFaults ComputeSafeValue

/-- Parentheses around the tokens. -/
def parens (tokens : List Cell) : List Cell := [['(']] ++ tokens ++ [[')']]

namespace Literal

/-- The tokens of a literal without its parentheses. -/
def core (l : Literal) : List Cell :=
  (if l.positive then [] else [['!']]) ++
    if l.isEnabled then IS_ENABLED :: parens [l.name] else [l.name]

def tokens (l : Literal) : List Cell := if l.wrapped then parens l.core else l.core

end Literal

def Disjunct.tokens (d : Disjunct) : List Cell :=
  let body := List.intercalate [['&', '&']] (d.literals.map Literal.tokens)
  if d.wrapped then parens body else body

def FaultExpr.tokens (expr : FaultExpr) : List Cell :=
  List.intercalate [['|', '|']] (expr.map Disjunct.tokens)

/-- A text that is made of the tokens, with any white space before, between and after them. -/
inductive Spaced : List Cell → Cell → Prop where
  | done {blank : Cell} (white : blank.all isspace = true) : Spaced [] blank
  | token {blank token text : Cell} {tokens : List Cell} (white : blank.all isspace = true)
      (rest : Spaced tokens text) : Spaced (token :: tokens) (blank ++ token ++ text)

/-- The characters that the passes give a meaning to. -/
def specials : List Char := ['(', ')', '!', '&', '|', ',', '"']

/-- What a parameter may be called: any word without white space and special characters in
which the name of the macro does not occur. -/
structure IsName (name : Cell) : Prop where
  nonempty : name ≠ []
  plain : ∀ c ∈ name, isspace c = false ∧ c ∉ specials
  free : ¬ IS_ENABLED <:+: name

/-- A fault condition over the parameters of a model. -/
structure FaultExpr.Wf (params : List Cell) (expr : FaultExpr) : Prop where
  distinct : params.Nodup
  names : ∀ name ∈ params, IsName name
  some : expr ≠ []
  literals : ∀ d ∈ expr, d.literals ≠ []
  known : ∀ d ∈ expr, ∀ l ∈ d.literals, l.name ∈ params
  once : ∀ d ∈ expr, (d.literals.map Literal.name).Nodup

end Grammar

open ComputeFaults ComputeSafeValue

section Spaces

theorem Spaced.filter {tokens : List Cell} {text : Cell} (spaced : Spaced tokens text)
    (solid : ∀ token ∈ tokens, ∀ c ∈ token, isspace c = false) :
    text.filter (fun c => !isspace c) = tokens.flatten := by
  have blank : ∀ blank : Cell,
      blank.all isspace = true → blank.filter (fun c => !isspace c) = [] := by
    intro blank white
    rw [List.filter_eq_nil_iff]
    intro c member
    simpa using List.all_eq_true.mp white c member
  induction spaced with
  | done white => exact blank _ white
  | @token _ token text tokens white rest ih =>
      have kept : token.filter (fun c => !isspace c) = token := by
        rw [List.filter_eq_self]
        intro c member
        simp [solid token (by simp) c member]
      rw [List.filter_append, List.filter_append, blank _ white, kept,
        ih fun token member => solid token (List.mem_cons_of_mem _ member)]
      rfl

end Spaces

section Texts

namespace Literal

/-- The negation sign of a literal. -/
def bang (l : Literal) : Cell := if l.positive then [] else ['!']

/-- What is left of a literal without its parentheses when the name of the macro is erased. -/
def erased (l : Literal) : Cell :=
    l.bang ++ if l.isEnabled then '(' :: (l.name ++ [')']) else l.name

/-- The text of a literal. -/
def text (l : Literal) : Cell := l.tokens.flatten

theorem core_flatten (l : Literal) : l.core.flatten =
    l.bang ++ if l.isEnabled then IS_ENABLED ++ '(' :: (l.name ++ [')']) else l.name := by
  unfold core bang parens
  cases l.positive <;> cases l.isEnabled <;> simp

theorem text_eq (l : Literal) :
    l.text = if l.wrapped then '(' :: (l.core.flatten ++ [')']) else l.core.flatten := by
  unfold text tokens parens
  split <;> simp

end Literal

namespace Disjunct

/-- The text of the conjunction. -/
def body (d : Disjunct) : Cell := List.intercalate ['&', '&'] (d.literals.map Literal.text)

def text (d : Disjunct) : Cell := d.tokens.flatten

theorem text_eq (d : Disjunct) :
    d.text = if d.wrapped then '(' :: (d.body ++ [')']) else d.body := by
  have inner : (List.intercalate [['&', '&']] (d.literals.map Literal.tokens)).flatten =
      d.body := by
    rw [Text.flatten_intercalate, List.map_map]
    rfl
  unfold text tokens parens
  split <;> simp [inner]

end Disjunct

theorem FaultExpr.flatten_tokens (expr : FaultExpr) :
    (FaultExpr.tokens expr).flatten = List.intercalate ['|', '|'] (expr.map Disjunct.text) := by
  rw [FaultExpr.tokens, Text.flatten_intercalate, List.map_map]
  rfl

end Texts

section Ors

/-- By how much a text changes the bracket level. -/
def depth (text : Cell) : Int := (text.count '(' : Int) - text.count ')'

theorem depth_append (xs ys : Cell) : depth (xs ++ ys) = depth xs + depth ys := by
  simp only [depth, List.count_append, Nat.cast_add]
  omega

theorem splitOrsFrom_cons {c : Char} (noBar : c ≠ '|') (level : Int) (part rest : Cell) :
    splitOrsFrom level part (c :: rest) = splitOrsFrom (level + depth [c]) (part ++ [c]) rest := by
  cases rest with
  | nil => rfl
  | cons d rest =>
      rw [splitOrsFrom]
      by_cases opens : c = '('
      · subst opens
        simp [depth]
      · by_cases closes : c = ')'
        · subst closes
          simp [depth, sub_eq_add_neg]
        · have same : depth [c] = 0 := by simp [depth, opens, closes]
          rw [if_neg opens, if_neg closes, if_neg fun bar => noBar bar.1, same, add_zero]

theorem splitOrsFrom_append {text : Cell} (noBar : '|' ∉ text) (level : Int) (part rest : Cell) :
    splitOrsFrom level part (text ++ rest) = splitOrsFrom (level + depth text)
      (part ++ text) rest := by
  induction text generalizing level part with
  | nil => simp [depth]
  | cons c text ih =>
      simp only [List.mem_cons, not_or] at noBar
      rw [List.cons_append, splitOrsFrom_cons (Ne.symm noBar.1), ih noBar.2]
      have whole : depth (c :: text) = depth [c] + depth text := depth_append [c] text
      rw [whole, add_assoc, List.append_assoc, List.singleton_append]

/-- Parts without bars whose brackets are balanced are found again. -/
theorem split_ors_intercalate (parts : List Cell) (some : parts ≠ [])
    (noBar : ∀ part ∈ parts, '|' ∉ part) (level : ∀ part ∈ parts, depth part = 0) :
    split_ors (List.intercalate ['|', '|'] parts) = parts := by
  induction parts with
  | nil => exact absurd rfl some
  | cons first rest ih =>
      have here := splitOrsFrom_append (noBar first (by simp)) 0 []
      rw [level first (by simp)] at here
      cases rest with
      | nil => simpa [split_ors, splitOrsFrom] using here []
      | cons second rest =>
          have later := ih (by simp) (fun part member => noBar part (List.mem_cons_of_mem _ member))
            fun part member => level part (List.mem_cons_of_mem _ member)
          rw [List.intercalate_cons_cons, List.append_assoc, split_ors, here]
          change splitOrsFrom 0 first ('|' :: '|' :: List.intercalate ['|', '|'] (second :: rest)) =
            _
          rw [splitOrsFrom, if_neg (by decide), if_neg (by decide), if_pos ⟨rfl, rfl, rfl⟩]
          rw [split_ors] at later
          rw [later]

end Ors

section Strip

/-- Without the parentheses around it. -/
def strip_outer (s : Cell) : Cell := stripParentheses s.length s

theorem stripParentheses_enough {fuel fuel' : Nat} {s : Cell} (enough : s.length ≤ fuel)
    (enough' : s.length ≤ fuel') : stripParentheses fuel s = stripParentheses fuel' s := by
  induction fuel generalizing fuel' s with
  | zero =>
      obtain rfl : s = [] := List.length_eq_zero_iff.mp (by omega)
      cases fuel' <;> rfl
  | succ fuel ih =>
      cases fuel' with
      | zero =>
          obtain rfl : s = [] := List.length_eq_zero_iff.mp (by omega)
          rfl
      | succ fuel' =>
          have less : s.tail.dropLast.length ≤ s.length - 1 := by simp
          rw [stripParentheses, stripParentheses, ih (by omega) (by omega : _ ≤ fuel')]

theorem strip_outer_parens (s : Cell) : strip_outer ('(' :: (s ++ [')'])) = strip_outer s := by
  have length : ('(' :: (s ++ [')'])).length = (s.length + 1) + 1 := by simp
  have ends : ('(' :: (s ++ [')'])).getLast? = some ')' := by
    rw [← List.cons_append, List.getLast?_concat]
  rw [strip_outer, length, stripParentheses, if_pos ⟨rfl, ends⟩]
  rw [List.tail_cons, List.dropLast_concat]
  exact stripParentheses_enough (by omega) le_rfl

theorem strip_outer_stop {s : Cell} (stops : ¬ (s.head? = some '(' ∧ s.getLast? = some ')')) :
    strip_outer s = s := by
  unfold strip_outer
  cases s.length with
  | zero => rfl
  | succ k => rw [stripParentheses, if_neg stops]

theorem remove_outer_parentheses_eq (s : Cell) :
    remove_outer_parentheses s = Text.eraseAll IS_ENABLED (strip_outer s) := by
  unfold remove_outer_parentheses strip_outer
  dsimp only
  split
  · rfl
  · rename_i absent
    exact (Text.eraseAll_of_absent absent).symm

end Strip

section Names

variable {l : Literal}

theorem IsName.not_mem {name : Cell} (isName : IsName name) {c : Char} (special : c ∈ specials) :
    c ∉ name :=
  fun member => (isName.plain c member).2 special

theorem IsName.head {name : Cell} (isName : IsName name) {c : Char} (special : c ∈ specials)
    (rest : Cell) : (name ++ rest).head? ≠ some c := by
  intro same
  cases name with
  | nil => exact isName.nonempty rfl
  | cons d name =>
      obtain rfl : d = c := by simpa using same
      exact isName.not_mem special (by simp)

theorem IsName.last {name : Cell} (isName : IsName name) {c : Char} (special : c ∈ specials)
    (before : Cell) : (before ++ name).getLast? ≠ some c := by
  rw [List.getLast?_append_of_ne_nil _ isName.nonempty]
  intro same
  exact isName.not_mem special (List.mem_of_getLast? same)

theorem unused_of_special {c : Char} (special : c ∈ specials) : c ∉ IS_ENABLED := by
  simp only [specials, List.mem_cons, List.not_mem_nil, or_false] at special
  rcases special with rfl | rfl | rfl | rfl | rfl | rfl | rfl <;> decide

/-- Erasing the macro's name leaves the other names. -/
theorem eraseAll_core (isName : IsName l.name) :
    Text.eraseAll IS_ENABLED l.core.flatten = l.erased := by
  have some : IS_ENABLED ≠ [] := by decide
  have name := Text.eraseAll_of_absent isName.free
  have call : Text.eraseAll IS_ENABLED ('(' :: (l.name ++ [')'])) = '(' :: (l.name ++ [')']) := by
    rw [Text.eraseAll_stop some (by decide), Text.eraseAll_append_stop some (by decide), name,
      Text.eraseAll_nil]
  have inner : Text.eraseAll IS_ENABLED
      (if l.isEnabled then IS_ENABLED ++ '(' :: (l.name ++ [')']) else l.name) =
        if l.isEnabled then '(' :: (l.name ++ [')']) else l.name := by
    split
    · rw [Text.eraseAll_here some, call]
    · exact name
  rw [Literal.core_flatten, Literal.erased]
  cases sign : l.positive with
  | true => simpa [Literal.bang, sign] using inner
  | false =>
      simp only [Literal.bang, sign, Bool.false_eq_true, if_false, List.singleton_append]
      rw [Text.eraseAll_stop some (by decide), inner]

theorem eraseAll_text (isName : IsName l.name) : Text.eraseAll IS_ENABLED l.text =
    if l.wrapped then '(' :: (l.erased ++ [')']) else l.erased := by
  have some : IS_ENABLED ≠ [] := by decide
  rw [Literal.text_eq]
  split
  · rw [Text.eraseAll_stop some (by decide), Text.eraseAll_append_stop some (by decide),
      eraseAll_core isName, Text.eraseAll_nil]
  · exact eraseAll_core isName

/-- What the pass makes of a literal whose parentheses it has not torn apart. -/
def Literal.plain (l : Literal) : Cell := if l.isEnabled && l.positive then l.name else l.erased

theorem eraseAll_erased (isName : IsName l.name) :
    Text.eraseAll IS_ENABLED l.erased = l.erased := by
  have some : IS_ENABLED ≠ [] := by decide
  have name := Text.eraseAll_of_absent isName.free
  unfold Literal.erased Literal.bang
  cases l.positive <;> cases l.isEnabled <;>
    simp [Text.eraseAll_stop some, Text.eraseAll_append_stop some, name,
      show '!' ∉ IS_ENABLED by decide, show '(' ∉ IS_ENABLED by decide,
      show ')' ∉ IS_ENABLED by decide]

theorem strip_erased (isName : IsName l.name) : strip_outer l.erased = l.plain := by
  have name : strip_outer l.name = l.name := by
    refine strip_outer_stop fun both => ?_
    simpa using isName.head (c := '(') (by decide) [] (by simpa using both.1)
  unfold Literal.plain Literal.erased Literal.bang
  cases l.positive with
  | true =>
      cases l.isEnabled with
      | true => simpa using (strip_outer_parens l.name).trans name
      | false => simpa using name
  | false =>
      simp only [Bool.false_eq_true, if_false, Bool.and_false]
      exact strip_outer_stop fun both => by simp at both

theorem remove_erased (isName : IsName l.name) : remove_outer_parentheses l.erased = l.plain := by
  rw [remove_outer_parentheses_eq, strip_erased isName]
  unfold Literal.plain
  split
  · exact Text.eraseAll_of_absent isName.free
  · exact eraseAll_erased isName

theorem remove_text (isName : IsName l.name) :
    remove_outer_parentheses (Text.eraseAll IS_ENABLED l.text) = l.plain := by
  rw [eraseAll_text isName]
  split
  · rw [remove_outer_parentheses_eq, strip_outer_parens, ← remove_outer_parentheses_eq]
    exact remove_erased isName
  · exact remove_erased isName

end Names

section Ends

variable {l : Literal}

theorem core_head (isName : IsName l.name) (rest : Cell) :
    (l.core.flatten ++ rest).head? ≠ some '(' := by
  have name : ∀ rest : Cell, (l.name ++ rest).head? ≠ some '(' := isName.head (by decide)
  rw [Literal.core_flatten]
  unfold Literal.bang
  cases l.positive <;> cases l.isEnabled <;> simp [IS_ENABLED]
  simpa using name rest

theorem core_last (isName : IsName l.name) (before : Cell) :
    (before ++ l.core.flatten).getLast? = some ')' ↔ l.isEnabled = true := by
  rw [Literal.core_flatten, ← List.append_assoc]
  cases l.isEnabled with
  | true =>
      have shape : ∀ xs : Cell, xs ++ (IS_ENABLED ++ '(' :: (l.name ++ [')'])) =
          (xs ++ (IS_ENABLED ++ '(' :: l.name)) ++ [')'] := by simp
      simp only [if_true, shape, List.getLast?_concat]
  | false =>
      simp only [Bool.false_eq_true, if_false, iff_false]
      exact isName.last (by decide) _

theorem text_head (isName : IsName l.name) (rest : Cell) :
    (l.text ++ rest).head? = some '(' ↔ l.wrapped = true := by
  rw [Literal.text_eq]
  cases l.wrapped with
  | true => simp
  | false => simpa using core_head isName rest

/-- The text of the literal ends with a parenthesis. -/
def Literal.Closes (l : Literal) : Prop := l.wrapped = true ∨ l.isEnabled = true

theorem text_last (isName : IsName l.name) (before : Cell) :
    (before ++ l.text).getLast? = some ')' ↔ l.Closes := by
  rw [Literal.text_eq, Literal.Closes]
  cases l.wrapped with
  | true =>
      have shape : before ++ '(' :: (l.core.flatten ++ [')']) =
          (before ++ '(' :: l.core.flatten) ++ [')'] := by simp
      simp only [if_true, shape, List.getLast?_concat, true_or]
  | false => simpa using core_last isName before

/-- A character of a literal's text. -/
theorem mem_text {c : Char} (member : c ∈ l.text) :
    c ∈ ['(', ')', '!'] ∨ c ∈ IS_ENABLED ∨ c ∈ l.name := by
  have core : c ∈ l.core.flatten →
      c ∈ ['(', ')', '!'] ∨ c ∈ IS_ENABLED ∨ c ∈ l.name := by
    rw [Literal.core_flatten]
    unfold Literal.bang
    cases l.positive <;> cases l.isEnabled <;> simp <;> tauto
  rw [Literal.text_eq] at member
  split at member
  · simp only [List.mem_cons, List.mem_append, List.not_mem_nil, or_false] at member
    rcases member with rfl | inside | rfl
    · simp
    · exact core inside
    · simp
  · exact core member

theorem not_mem_text (isName : IsName l.name) {c : Char} (special : c ∈ specials)
    (other : c ∉ ['(', ')', '!']) : c ∉ l.text := by
  intro member
  rcases mem_text member with inside | inside | inside
  · exact other inside
  · exact unused_of_special special inside
  · exact isName.not_mem special inside

end Ends

section Disjuncts

/-- The pass takes the parentheses of the first and of the last literal for a pair around the
conjunction. -/
def Disjunct.Torn (d : Disjunct) : Prop :=
  ∃ first between last,
    d.literals = first :: (between ++ [last]) ∧ first.wrapped = true ∧ last.Closes

variable {d : Disjunct}

theorem strip_text (d : Disjunct) : strip_outer d.text = strip_outer d.body := by
  rw [Disjunct.text_eq]
  split
  · exact strip_outer_parens d.body
  · rfl

/-- From the pieces of the stripped text to the conjuncts. -/
theorem parseDisjunct_of_pieces {pieces : List Cell} (some : pieces ≠ [])
    (free : ∀ piece ∈ pieces, '&' ∉ piece)
    (stripped : strip_outer d.body = List.intercalate ['&', '&'] pieces) :
    parseDisjunct d.text =
      pieces.map fun piece => remove_outer_parentheses (Text.eraseAll IS_ENABLED piece) := by
  have erased := Text.eraseAll_intercalate (by decide : IS_ENABLED ≠ [])
    (by decide : '&' ∉ IS_ENABLED) pieces
  rw [parseDisjunct, remove_outer_parentheses_eq, strip_text, stripped, erased,
    Text.splitPairs_intercalate _ (by simpa using some), List.map_map]
  · rfl
  · intro part member
    obtain ⟨piece, inside, rfl⟩ := List.mem_map.mp member
    exact fun there => free piece inside (Text.eraseFrom_subset 0 piece there)

/-- The parentheses of a single literal go with those of the conjunction. -/
theorem strip_single {l : Literal} (isName : IsName l.name) :
    strip_outer l.text = l.core.flatten := by
  have core : strip_outer l.core.flatten = l.core.flatten := by
    refine strip_outer_stop fun both => core_head isName [] ?_
    simpa using both.1
  rw [Literal.text_eq]
  split
  · rw [strip_outer_parens, core]
  · exact core

/-- Nothing is stripped of two or more literals that are not torn. -/
theorem strip_whole (names : ∀ l ∈ d.literals, IsName l.name) (whole : ¬ d.Torn)
    {first last : Literal}
    {between : List Literal} (split : d.literals = first :: (between ++ [last])) :
    strip_outer d.body = d.body := by
  refine strip_outer_stop fun both => whole ⟨first, between, last, split, ?_, ?_⟩
  · have head := both.1
    obtain ⟨after, starts⟩ := Text.exists_intercalate_eq ['&', '&'] first.text
      ((between ++ [last]).map Literal.text)
    rw [Disjunct.body, split, List.map_cons, starts] at head
    exact (text_head (names first (by rw [split]; simp)) _).mp head
  · have ends := both.2
    rw [Disjunct.body, split, ← List.cons_append, List.map_append, List.map_singleton,
      Text.intercalate_concat _ (by simp)] at ends
    exact (text_last (names last (by rw [split]; simp)) _).mp ends

/-- A disjunct that is not torn is parsed literal by literal. -/
theorem parseDisjunct_whole (names : ∀ l ∈ d.literals, IsName l.name) (some : d.literals ≠ [])
    (whole : ¬ d.Torn) : parseDisjunct d.text = d.literals.map Literal.plain := by
  have free : ∀ l ∈ d.literals, '&' ∉ l.text :=
    fun l member => not_mem_text (names l member) (by decide) (by decide)
  rcases List.eq_nil_or_concat d.literals with none | ⟨front, last, split⟩
  · exact absurd none some
  · rw [List.concat_eq_append] at split
    have isName := names last (by rw [split]; simp)
    cases front with
    | nil =>
        have stripped : strip_outer d.body = List.intercalate ['&', '&'] [last.core.flatten] := by
          rw [Disjunct.body, split]
          simpa using strip_single isName
        rw [parseDisjunct_of_pieces (by simp) _ stripped, split]
        · simp [eraseAll_core isName, remove_erased isName]
        · intro piece member
          rw [List.mem_singleton.mp member]
          intro there
          refine free last (by rw [split]; simp) ?_
          rw [Literal.text_eq]
          split
          · exact List.mem_cons_of_mem _ (List.mem_append_left _ there)
          · exact there
    | cons first between =>
        have stripped : strip_outer d.body =
            List.intercalate ['&', '&'] (d.literals.map Literal.text) :=
          strip_whole names whole split
        rw [parseDisjunct_of_pieces (by simp [split]) _ stripped, List.map_map]
        · exact List.map_congr_left fun l member => remove_text (names l member)
        · intro piece member
          obtain ⟨l, inside, rfl⟩ := List.mem_map.mp member
          exact free l inside

end Disjuncts

section Depth

variable {l : Literal} {d : Disjunct}

theorem depth_parens (s : Cell) : depth ('(' :: (s ++ [')'])) = depth s := by
  change depth (['('] ++ (s ++ [')'])) = _
  rw [depth_append, depth_append]
  have opens : depth ['('] = 1 := by decide
  have closes : depth [')'] = -1 := by decide
  omega

theorem depth_strip (fuel : Nat) (s : Cell) : depth (stripParentheses fuel s) = depth s := by
  induction fuel generalizing s with
  | zero => rfl
  | succ fuel ih =>
      rw [stripParentheses]
      split
      · rename_i both
        rw [ih]
        obtain ⟨rest, rfl⟩ : ∃ rest, s = '(' :: rest := by
          cases s with
          | nil => simp at both
          | cons c rest => exact ⟨rest, by simpa using both.1⟩
        have last := both.2
        have some : rest ≠ [] := by
          rintro rfl
          simp at last
        rw [List.getLast?_cons_of_ne_nil some] at last
        rw [List.tail_cons, ← depth_parens, List.dropLast_append_getLast? _ last]
      · rfl

/-- Both tools take as many opening as closing parentheses away. -/
theorem depth_remove (s : Cell) : depth (remove_outer_parentheses s) = depth s := by
  have some : IS_ENABLED ≠ [] := by decide
  rw [remove_outer_parentheses_eq, depth, Text.count_eraseAll some (by decide),
    Text.count_eraseAll some (by decide)]
  exact depth_strip _ s

theorem depth_erase (s : Cell) : depth (Text.eraseAll IS_ENABLED s) = depth s := by
  have some : IS_ENABLED ≠ [] := by decide
  rw [depth, Text.count_eraseAll some (by decide), Text.count_eraseAll some (by decide)]
  rfl

theorem IsName.depth {name : Cell} (isName : IsName name) : depth name = 0 := by
  rw [NoPend.depth, List.count_eq_zero_of_not_mem (isName.not_mem (by decide)),
    List.count_eq_zero_of_not_mem (isName.not_mem (by decide))]
  rfl

theorem depth_core (isName : IsName l.name) : depth l.core.flatten = 0 := by
  have sign : depth l.bang = 0 := by
    unfold Literal.bang
    split <;> decide
  have word : depth IS_ENABLED = 0 := by decide
  rw [Literal.core_flatten, depth_append, sign]
  split
  · rw [depth_append, depth_parens, word, isName.depth]
    rfl
  · rw [isName.depth]
    rfl

theorem depth_text (isName : IsName l.name) : depth l.text = 0 := by
  rw [Literal.text_eq]
  split
  · rw [depth_parens, depth_core isName]
  · exact depth_core isName

theorem depth_intercalate {sep : Cell} (flat : depth sep = 0) (parts : List Cell)
    (balanced : ∀ part ∈ parts, depth part = 0) : depth (List.intercalate sep parts) = 0 := by
  induction parts with
  | nil => rfl
  | cons first rest ih =>
      have here := balanced first (by simp)
      cases rest with
      | nil => simpa using here
      | cons second rest =>
          have later := ih fun part member => balanced part (List.mem_cons_of_mem _ member)
          rw [List.intercalate_cons_cons, depth_append, depth_append, here, flat, later]
          rfl

theorem depth_disjunct (names : ∀ l ∈ d.literals, IsName l.name) : depth d.text = 0 := by
  have body : depth d.body = 0 := by
    refine depth_intercalate (by decide) _ fun part member => ?_
    obtain ⟨l, inside, rfl⟩ := List.mem_map.mp member
    exact depth_text (names l inside)
  rw [Disjunct.text_eq]
  split
  · rw [depth_parens, body]
  · exact body

theorem opens_of_depth {s : Cell} (positive : 0 < depth s) : '(' ∈ s := by
  by_contra absent
  rw [depth, List.count_eq_zero_of_not_mem absent] at positive
  omega

theorem closes_of_depth {s : Cell} (negative : depth s < 0) : ')' ∈ s := by
  by_contra absent
  rw [depth, List.count_eq_zero_of_not_mem absent] at negative
  omega

/-- A torn disjunct loses the first parenthesis of its first and the last one of its last
literal. -/
theorem strip_torn (names : ∀ l ∈ d.literals, IsName l.name) {first last : Literal}
    {between : List Literal} (split : d.literals = first :: (between ++ [last]))
    (opens : first.wrapped = true) (tail : last.text.dropLast ++ [')'] = last.text) :
    strip_outer d.body = List.intercalate ['&', '&']
      ((first.core.flatten ++ [')']) :: (between.map Literal.text ++ [last.text.dropLast])) := by
  have head : first.text = '(' :: (first.core.flatten ++ [')']) := by
    rw [Literal.text_eq, opens]
    rfl
  have grow : ∀ x, List.intercalate ['&', '&']
      ((first.core.flatten ++ [')']) :: (between.map Literal.text ++ [x])) =
      List.intercalate ['&', '&'] ((first.core.flatten ++ [')']) :: between.map Literal.text) ++
        ['&', '&'] ++ x := by
    intro x
    rw [← List.cons_append]
    exact Text.intercalate_concat _ (by simp) x
  have body : d.body = '(' :: (List.intercalate ['&', '&']
      ((first.core.flatten ++ [')']) :: (between.map Literal.text ++ [last.text.dropLast])) ++
        [')']) := by
    rw [Disjunct.body, split, List.map_cons, List.map_append, List.map_singleton, head,
      List.intercalate_cons_cons_left, grow, grow, List.append_assoc _ _ [')'], tail]
  rw [body, strip_outer_parens]
  refine strip_outer_stop fun both => ?_
  have starts := both.1
  obtain ⟨after, same⟩ := Text.exists_intercalate_eq ['&', '&'] (first.core.flatten ++ [')'])
    (between.map Literal.text ++ [last.text.dropLast])
  rw [same, List.append_assoc] at starts
  exact core_head (names first (by rw [split]; simp)) _ starts

/-- In a torn disjunct a parenthesis is left in the first and in the last conjunct. -/
theorem parseDisjunct_torn (names : ∀ l ∈ d.literals, IsName l.name) {first last : Literal}
    {between : List Literal} (split : d.literals = first :: (between ++ [last]))
    (opens : first.wrapped = true) (closes : last.Closes) :
    ∃ front back, parseDisjunct d.text = front :: (between.map Literal.plain ++ [back]) ∧
      ')' ∈ front ∧ '(' ∈ back := by
  have isFirst := names first (by rw [split]; simp)
  have isLast := names last (by rw [split]; simp)
  have free : ∀ l ∈ d.literals, '&' ∉ l.text :=
    fun l member => not_mem_text (names l member) (by decide) (by decide)
  have closing : depth [')'] = -1 := by decide
  have tail : last.text.dropLast ++ [')'] = last.text :=
    List.dropLast_append_getLast? _ ((text_last isLast []).mpr closes)
  have parsed := parseDisjunct_of_pieces (by simp) (fun piece member => ?_)
    (strip_torn names split opens tail)
  · rw [List.map_cons, List.map_append, List.map_map, List.map_singleton] at parsed
    have mid : between.map
        ((fun piece => remove_outer_parentheses (Text.eraseAll IS_ENABLED piece)) ∘
        Literal.text) = between.map Literal.plain := by
      refine List.map_congr_left fun l member => remove_text (names l ?_)
      rw [split]
      simp [member]
    rw [mid] at parsed
    refine ⟨_, _, parsed, closes_of_depth ?_, opens_of_depth ?_⟩
    · rw [depth_remove, depth_erase, depth_append, depth_core isFirst]
      omega
    · have whole := depth_text isLast
      rw [← tail, depth_append] at whole
      rw [depth_remove, depth_erase]
      omega
  · simp only [List.mem_cons, List.mem_append, List.mem_map, List.not_mem_nil, or_false] at member
    rcases member with rfl | ⟨l, inside, rfl⟩ | rfl
    · intro there
      refine free first (by rw [split]; simp) ?_
      rw [Literal.text_eq, opens]
      exact List.mem_cons_of_mem _ there
    · exact free l (by rw [split]; simp [inside])
    · intro there
      exact free last (by rw [split]; simp) (List.mem_of_mem_dropLast there)

end Depth

section Chars

variable {d : Disjunct}

theorem mem_disjunct {c : Char} (member : c ∈ d.text) :
    c ∈ ['(', ')', '&'] ∨ ∃ l ∈ d.literals, c ∈ l.text := by
  have body : c ∈ d.body → c ∈ ['(', ')', '&'] ∨ ∃ l ∈ d.literals, c ∈ l.text := by
    intro inside
    rcases Text.mem_intercalate inside with sep | ⟨part, listed, there⟩
    · exact Or.inl (by simp at sep; simp [sep])
    · obtain ⟨l, literal, rfl⟩ := List.mem_map.mp listed
      exact Or.inr ⟨l, literal, there⟩
  rw [Disjunct.text_eq] at member
  split at member
  · simp only [List.mem_cons, List.mem_append, List.not_mem_nil, or_false] at member
    rcases member with rfl | inside | rfl
    · simp
    · exact body inside
    · simp
  · exact body member

/-- A character of a condition is none of the marks, and no white space. -/
theorem disjunct_clean (names : ∀ l ∈ d.literals, IsName l.name) {c : Char}
    (member : c ∈ d.text) :
    isspace c = false ∧ c ∉ ['|', ',', '"'] := by
  have letters : IS_ENABLED.all (fun c => decide (isspace c = false ∧ c ∉ ['|', ',', '"'])) =
      true := by
    decide
  rcases mem_disjunct member with sign | ⟨l, literal, inside⟩
  · simp only [List.mem_cons, List.not_mem_nil, or_false] at sign
    rcases sign with rfl | rfl | rfl <;> decide
  · rcases mem_text inside with sign | letter | named
    · simp only [List.mem_cons, List.not_mem_nil, or_false] at sign
      rcases sign with rfl | rfl | rfl <;> decide
    · exact of_decide_eq_true (List.all_eq_true.mp letters c letter)
    · obtain ⟨solid, other⟩ := (names l literal).plain c named
      exact ⟨solid, fun mark => other (List.mem_append_right ['(', ')', '!', '&'] mark)⟩

theorem stripParentheses_subset (fuel : Nat) (s : Cell) : stripParentheses fuel s ⊆ s := by
  induction fuel generalizing s with
  | zero => exact List.Subset.refl s
  | succ fuel ih =>
      rw [stripParentheses]
      split
      · intro c member
        exact List.mem_of_mem_tail (List.mem_of_mem_dropLast (ih _ member))
      · exact List.Subset.refl s

theorem remove_subset (s : Cell) : remove_outer_parentheses s ⊆ s := by
  rw [remove_outer_parentheses_eq]
  intro c member
  exact stripParentheses_subset _ s (Text.eraseFrom_subset 0 _ member)

/-- The conjuncts are made of characters of the disjunct. -/
theorem parseDisjunct_subset {s e : Cell} (listed : e ∈ parseDisjunct s) : e ⊆ s := by
  obtain ⟨part, inside, rfl⟩ := List.mem_map.mp listed
  intro c member
  rcases Text.mem_splitPairs inside (remove_subset part member) with none | there
  · simp at none
  · exact remove_subset s there

end Chars

/-- The disjuncts of a condition are parsed one by one, wherever it has white space. -/
theorem parse_expression_eq {params : List Cell} {expr : FaultExpr} (wf : FaultExpr.Wf params expr)
    {text : Cell} (spaced : Spaced (FaultExpr.tokens expr) text) :
    parse_expression text = expr.map fun d => parseDisjunct d.text := by
  have names : ∀ d ∈ expr, ∀ l ∈ d.literals, IsName l.name :=
    fun d inside l literal => wf.names _ (wf.known d inside l literal)
  have solid : ∀ token ∈ FaultExpr.tokens expr, ∀ c ∈ token, isspace c = false := by
    intro token listed c member
    have there : c ∈ (FaultExpr.tokens expr).flatten :=
      List.mem_flatten.mpr ⟨token, listed, member⟩
    rw [FaultExpr.flatten_tokens] at there
    rcases Text.mem_intercalate there with bar | ⟨part, inside, here⟩
    · simp only [List.mem_cons, List.not_mem_nil, or_false, or_self] at bar
      rw [bar]
      decide
    · obtain ⟨d, disjunct, rfl⟩ := List.mem_map.mp inside
      exact (disjunct_clean (names d disjunct) here).1
  have parts : split_ors (List.intercalate ['|', '|'] (expr.map Disjunct.text)) =
      expr.map Disjunct.text := by
    refine split_ors_intercalate _ (by simpa using wf.some) (fun part member => ?_)
      (fun part member => ?_)
    · obtain ⟨d, inside, rfl⟩ := List.mem_map.mp member
      exact fun bar => (disjunct_clean (names d inside) bar).2 (by simp)
    · obtain ⟨d, inside, rfl⟩ := List.mem_map.mp member
      exact depth_disjunct (names d inside)
  rw [parse_expression, spaced.filter solid, FaultExpr.flatten_tokens, parts, List.map_map]
  rfl

end NoPend
