import Mathlib.Data.List.Infix
import Mathlib.Tactic

set_option autoImplicit false

/- Texts that are taken apart without a grammar: all occurrences of a word are erased, and a
text is split wherever a separator is written twice. -/
namespace Text

variable {α : Type}

section Join

theorem flatten_intercalate (sep : List α) (parts : List (List (List α))) :
    (List.intercalate [sep] parts).flatten = List.intercalate sep (parts.map List.flatten) := by
  induction parts with
  | nil => rfl
  | cons first rest ih =>
      cases rest with
      | nil => simp
      | cons second rest =>
          rw [List.intercalate_cons_cons, List.flatten_append, List.flatten_append, ih]
          simp [List.intercalate_cons_cons]

theorem intercalate_concat (sep : List α) {parts : List (List α)} (some : parts ≠ [])
    (last : List α) :
    List.intercalate sep (parts ++ [last]) = List.intercalate sep parts ++ sep ++ last := by
  induction parts with
  | nil => exact absurd rfl some
  | cons first rest ih =>
      cases rest with
      | nil => simp [List.intercalate_cons_cons]
      | cons second rest =>
          rw [List.cons_append, List.cons_append, List.intercalate_cons_cons, ← List.cons_append,
            ih (by simp), List.intercalate_cons_cons]
          simp

/-- A joined text begins with its first part. -/
theorem exists_intercalate_eq (sep first : List α) (rest : List (List α)) :
    ∃ after, List.intercalate sep (first :: rest) = first ++ after := by
  cases rest with
  | nil => exact ⟨[], by simp⟩
  | cons second rest => exact ⟨_, by rw [List.intercalate_cons_cons, List.append_assoc]⟩

theorem mem_intercalate {c : α} {sep : List α} {parts : List (List α)}
    (member : c ∈ List.intercalate sep parts) : c ∈ sep ∨ ∃ part ∈ parts, c ∈ part := by
  induction parts with
  | nil => simp at member
  | cons first rest ih =>
      cases rest with
      | nil => exact Or.inr ⟨first, by simp, by simpa using member⟩
      | cons second rest =>
          rw [List.intercalate_cons_cons, List.append_assoc, List.mem_append, List.mem_append]
            at member
          rcases member with here | between | later
          · exact Or.inr ⟨first, by simp, here⟩
          · exact Or.inl between
          · rcases ih later with inSep | ⟨part, inside, there⟩
            · exact Or.inl inSep
            · exact Or.inr ⟨part, List.mem_cons_of_mem _ inside, there⟩

end Join

variable [DecidableEq α]

section Erase

variable {pattern : List α}

/-- Erase the occurrences of a word from left to right, after `skip` more characters. -/
def eraseFrom (pattern : List α) : Nat → List α → List α
  | _, [] => []
  | skip + 1, _ :: rest => eraseFrom pattern skip rest
  | 0, x :: rest =>
      if pattern.isPrefixOf (x :: rest) then eraseFrom pattern (pattern.length - 1) rest
      else x :: eraseFrom pattern 0 rest

def eraseAll (pattern : List α) : List α → List α := eraseFrom pattern 0

theorem eraseFrom_drop (skip : Nat) (text : List α) :
    eraseFrom pattern skip text = eraseAll pattern (text.drop skip) := by
  induction skip generalizing text with
  | zero => rfl
  | succ skip ih =>
      cases text with
      | nil => rfl
      | cons x rest => exact ih rest

@[simp] theorem eraseAll_nil : eraseAll pattern [] = [] := rfl

/-- An occurrence is erased. -/
theorem eraseAll_here (some : pattern ≠ []) (rest : List α) :
    eraseAll pattern (pattern ++ rest) = eraseAll pattern rest := by
  cases pattern with
  | nil => exact absurd rfl some
  | cons x word =>
      have found : (x :: word).isPrefixOf (x :: (word ++ rest)) = true :=
        List.isPrefixOf_iff_prefix.mpr (List.prefix_append (x :: word) rest)
      rw [List.cons_append, eraseAll, eraseFrom, if_pos found, eraseFrom_drop]
      simp [eraseAll]

theorem eraseAll_cons {x : α} {rest : List α} (other : ¬ pattern <+: x :: rest) :
    eraseAll pattern (x :: rest) = x :: eraseAll pattern rest := by
  rw [eraseAll, eraseFrom, if_neg]
  rwa [List.isPrefixOf_iff_prefix]

/-- A character that the word does not use stays. -/
theorem eraseAll_stop (some : pattern ≠ []) {x : α} (unused : x ∉ pattern) (rest : List α) :
    eraseAll pattern (x :: rest) = x :: eraseAll pattern rest := by
  refine eraseAll_cons fun found => ?_
  cases pattern with
  | nil => exact absurd rfl some
  | cons y word =>
      obtain ⟨rfl, _⟩ := List.cons_prefix_cons.mp found
      exact unused (by simp)

omit [DecidableEq α] in
theorem prefix_append_stop_iff {c : α} (unused : c ∉ pattern) {text rest : List α} :
    pattern <+: text ++ c :: rest ↔ pattern <+: text := by
  constructor
  · rintro ⟨after, split⟩
    rcases List.append_eq_append_iff.mp split with ⟨more, within, _⟩ | ⟨more, same, tail⟩
    · exact ⟨more, within.symm⟩
    · cases more with
      | nil =>
          rw [List.append_nil] at same
          exact same ▸ List.prefix_rfl
      | cons y more =>
          obtain ⟨rfl, _⟩ := List.cons.inj tail
          exact absurd (by rw [same]; simp) unused
  · intro found
    exact found.trans (List.prefix_append _ _)

/-- Occurrences do not reach over a character that the word does not use. -/
theorem eraseAll_append_stop (some : pattern ≠ []) {c : α} (unused : c ∉ pattern)
    (text rest : List α) :
    eraseAll pattern (text ++ c :: rest) = eraseAll pattern text ++ c :: eraseAll pattern rest := by
  suffices general : ∀ skip ≤ text.length, eraseFrom pattern skip (text ++ c :: rest) =
      eraseFrom pattern skip text ++ c :: eraseAll pattern rest from general 0 (by omega)
  induction text with
  | nil =>
      intro skip short
      obtain rfl : skip = 0 := by simpa using short
      exact eraseAll_stop some unused rest
  | cons x text ih =>
      intro skip short
      simp only [List.length_cons] at short
      cases skip with
      | succ skip => exact ih skip (by omega)
      | zero =>
          have same : pattern <+: (x :: text) ++ c :: rest ↔ pattern <+: x :: text :=
            prefix_append_stop_iff unused
          rw [List.cons_append] at same ⊢
          by_cases found : pattern <+: x :: text
          · have bound := found.length_le
            rw [List.length_cons] at bound
            rw [eraseFrom, if_pos (List.isPrefixOf_iff_prefix.mpr (same.mpr found)), eraseFrom,
              if_pos (List.isPrefixOf_iff_prefix.mpr found)]
            exact ih _ (by omega)
          · rw [eraseFrom, if_neg (by rwa [List.isPrefixOf_iff_prefix, same]), eraseFrom,
              if_neg (by rwa [List.isPrefixOf_iff_prefix]), ih 0 (by omega), List.cons_append]

theorem eraseAll_of_absent {word : List α} (absent : ¬ pattern <:+: word) :
    eraseAll pattern word = word := by
  induction word with
  | nil => rfl
  | cons x word ih =>
      rw [eraseAll_cons fun found => absent found.isInfix,
        ih fun inside => absent (inside.trans (List.suffix_cons x word).isInfix)]

theorem eraseFrom_subset (skip : Nat) (text : List α) : eraseFrom pattern skip text ⊆ text := by
  induction text generalizing skip with
  | nil => simp [eraseFrom]
  | cons x text ih =>
      cases skip with
      | succ skip => exact List.Subset.trans (ih skip) (List.subset_cons_self x text)
      | zero =>
          rw [eraseFrom]
          split
          · exact List.Subset.trans (ih _) (List.subset_cons_self x text)
          · exact List.cons_subset_cons x (ih 0)

/-- Characters that the word does not use are all kept. -/
theorem count_eraseAll (some : pattern ≠ []) {c : α} (unused : c ∉ pattern) (text : List α) :
    (eraseAll pattern text).count c = text.count c := by
  generalize bound : text.length = size
  induction size using Nat.strong_induction_on generalizing text with
  | _ size ih =>
      cases text with
      | nil => rfl
      | cons x rest =>
          simp only [List.length_cons] at bound
          by_cases found : pattern <+: x :: rest
          · obtain ⟨after, split⟩ := found
            rw [eraseAll, eraseFrom, if_pos (List.isPrefixOf_iff_prefix.mpr ⟨after, split⟩),
              eraseFrom_drop, ih _ (by rw [List.length_drop]; omega) _ rfl]
            cases pattern with
            | nil => exact absurd rfl some
            | cons y word =>
                obtain ⟨rfl, rfl⟩ := List.cons.inj split
                have other : c ≠ y := fun same => unused (by simp [same])
                have later : c ∉ word := fun inside => unused (by simp [inside])
                simp [Ne.symm other, List.count_eq_zero_of_not_mem later]
          · rw [eraseAll_cons found, List.count_cons, List.count_cons, ih _ (by omega) rest rfl]

theorem eraseAll_intercalate (some : pattern ≠ []) {c : α} (unused : c ∉ pattern)
    (parts : List (List α)) :
    eraseAll pattern (List.intercalate [c, c] parts) =
      List.intercalate [c, c] (parts.map (eraseAll pattern)) := by
  induction parts with
  | nil => rfl
  | cons first rest ih =>
      cases rest with
      | nil => simp
      | cons second rest =>
          rw [List.intercalate_cons_cons, List.append_assoc, List.cons_append, List.cons_append,
            List.nil_append, eraseAll_append_stop some unused, eraseAll_stop some unused, ih]
          simp [List.intercalate_cons_cons]

end Erase

section Split

variable {sep : α}

/-- Split wherever `sep` is written twice. `part` is what was read of the current part. -/
def splitPairs (sep : α) (part : List α) : List α → List (List α)
  | [] => [part]
  | [x] => [part ++ [x]]
  | x :: y :: rest =>
      if x = sep ∧ y = sep then part :: splitPairs sep [] rest
      else splitPairs sep (part ++ [x]) (y :: rest)

theorem splitPairs_cons {part : List α} {x : α} (other : x ≠ sep) (rest : List α) :
    splitPairs sep part (x :: rest) = splitPairs sep (part ++ [x]) rest := by
  cases rest with
  | nil => rfl
  | cons y rest => rw [splitPairs, if_neg fun both => other both.1]

theorem splitPairs_append {word : List α} (free : sep ∉ word) (part rest : List α) :
    splitPairs sep part (word ++ rest) = splitPairs sep (part ++ word) rest := by
  induction word generalizing part with
  | nil => simp
  | cons x word ih =>
      simp only [List.mem_cons, not_or] at free
      rw [List.cons_append, splitPairs_cons (Ne.symm free.1), ih free.2, List.append_assoc,
        List.singleton_append]

theorem mem_splitPairs {part text found : List α} (listed : found ∈ splitPairs sep part text)
    {c : α} (member : c ∈ found) : c ∈ part ∨ c ∈ text := by
  induction part, text using splitPairs.induct sep with
  | case1 part =>
      rw [List.mem_singleton.mp listed] at member
      exact Or.inl member
  | case2 part x =>
      rw [List.mem_singleton.mp listed] at member
      exact List.mem_append.mp member
  | case3 part x y rest both ih =>
      rw [splitPairs, if_pos both] at listed
      rcases List.mem_cons.mp listed with rfl | later
      · exact Or.inl member
      · rcases ih later with none | there
        · simp at none
        · exact Or.inr (by simp [there])
  | case4 part x y rest other ih =>
      rw [splitPairs, if_neg other] at listed
      rcases ih listed with here | there
      · rcases List.mem_append.mp here with old | new
        · exact Or.inl old
        · exact Or.inr (by rw [List.mem_singleton.mp new]; simp)
      · exact Or.inr (List.mem_cons_of_mem _ there)

/-- Parts that do not use the separator are found again. -/
theorem splitPairs_intercalate (parts : List (List α)) (some : parts ≠ [])
    (free : ∀ part ∈ parts, sep ∉ part) :
    splitPairs sep [] (List.intercalate [sep, sep] parts) = parts := by
  induction parts with
  | nil => exact absurd rfl some
  | cons first rest ih =>
      have here := splitPairs_append (free first (by simp)) []
      cases rest with
      | nil => simpa [splitPairs] using here []
      | cons second rest =>
          have later := ih (by simp) fun part member => free part (List.mem_cons_of_mem _ member)
          rw [List.intercalate_cons_cons, List.append_assoc, here, List.nil_append]
          change splitPairs sep first (sep :: sep :: List.intercalate [sep, sep] (second :: rest)) =
            _
          rw [splitPairs, if_pos ⟨rfl, rfl⟩, later]

end Split

end Text
