import Mathlib.Data.List.Dedup
import Mathlib.Data.List.Induction

set_option autoImplicit false

/-- A dictionary that lists its entries in the order in which their keys were first used. -/
structure Dict (κ ν : Type) where
  entries : List (κ × ν)
  once : (entries.map Prod.fst).Nodup

namespace Dict

variable {κ ν ι : Type} [DecidableEq κ]

def empty : Dict κ ν := ⟨[], List.nodup_nil⟩

/-- Give a key the value that `f` makes of its current one. -/
def updateEntries (key : κ) (f : Option ν → ν) : List (κ × ν) → List (κ × ν)
  | [] => [(key, f none)]
  | (other, value) :: rest =>
      if other = key then (other, f (some value)) :: rest
      else (other, value) :: updateEntries key f rest

theorem keys_updateEntries (key : κ) (f : Option ν → ν) (entries : List (κ × ν)) :
    (updateEntries key f entries).map Prod.fst =
      if key ∈ entries.map Prod.fst then entries.map Prod.fst else
        entries.map Prod.fst ++ [key] := by
  induction entries with
  | nil => rfl
  | cons entry rest ih =>
      obtain ⟨other, value⟩ := entry
      by_cases here : other = key
      · simp [updateEntries, here]
      · rw [updateEntries, if_neg here, List.map_cons, ih]
        have apart : key ≠ other := fun same => here same.symm
        by_cases later : key ∈ rest.map Prod.fst
        · rw [if_pos later, List.map_cons, if_pos (List.mem_cons_of_mem _ later)]
        · rw [if_neg later, List.map_cons, if_neg (by simpa [apart] using later), List.cons_append]

def update (dict : Dict κ ν) (key : κ) (f : Option ν → ν) : Dict κ ν where
  entries := updateEntries key f dict.entries
  once := by
    rw [keys_updateEntries]
    split
    · exact dict.once
    · rename_i absent
      rw [List.nodup_append]
      refine ⟨dict.once, List.nodup_singleton _, fun other old key' new => ?_⟩
      rw [List.mem_singleton.mp new]
      rintro rfl
      exact absent old

def get? (dict : Dict κ ν) (key : κ) : Option ν := dict.entries.lookup key

theorem lookup_updateEntries (key : κ) (f : Option ν → ν) (entries : List (κ × ν))
    (asked : κ) :
    (updateEntries key f entries).lookup asked =
      if asked = key then some (f (entries.lookup key)) else entries.lookup asked := by
  induction entries with
  | nil =>
      by_cases same : asked = key
      · simp [updateEntries, same]
      · simp [updateEntries, List.lookup_cons, beq_false_of_ne same, same]
  | cons entry rest ih =>
      obtain ⟨other, value⟩ := entry
      by_cases here : other = key
      · subst here
        by_cases same : asked = other
        · simp [updateEntries, same]
        · simp [updateEntries, List.lookup_cons, beq_false_of_ne same, same]
      · have apart : key ≠ other := fun same => here same.symm
        rw [updateEntries, if_neg here]
        by_cases same : asked = other
        · subst same
          simp [here]
        · simp [List.lookup_cons, beq_false_of_ne same, beq_false_of_ne apart, ih]

/-- An update changes the value of its key only. -/
theorem get?_update (dict : Dict κ ν) (key : κ) (f : Option ν → ν) (asked : κ) :
    (dict.update key f).get? asked = if asked = key then some (f (dict.get? key)) else
      dict.get? asked :=
  lookup_updateEntries key f dict.entries asked

theorem updateEntries_new {key : κ} {entries : List (κ × ν)}
    (new : key ∉ entries.map Prod.fst)
    (f : Option ν → ν) : updateEntries key f entries = entries ++ [(key, f none)] := by
  induction entries with
  | nil => rfl
  | cons entry rest ih =>
      obtain ⟨other, value⟩ := entry
      simp only [List.map_cons, List.mem_cons, not_or] at new
      rw [updateEntries, if_neg fun same => new.1 same.symm, ih new.2, List.cons_append]

/-- A new key is listed last. -/
theorem entries_update (dict : Dict κ ν) {key : κ} (new : key ∉ dict.entries.map Prod.fst)
    (f : Option ν → ν) : (dict.update key f).entries = dict.entries ++ [(key, f none)] :=
  updateEntries_new new f

/-- A loop that appends to the list of a key. -/
def collect (key : ι → κ) (values : ι → List ν) (items : List ι) : Dict κ (List ν) :=
  items.foldl (fun dict item => dict.update (key item) fun old => old.getD [] ++ values item) empty

/-- Each key of an item has what the items with this key add, in their order. -/
theorem get?_collect (key : ι → κ) (values : ι → List ν) (items : List ι) (asked : κ) :
    (collect key values items).get? asked = if asked ∈ items.map key then
      some ((items.filter (key · = asked)).flatMap values) else none := by
  induction items using List.reverseRecOn with
  | nil => rfl
  | append_singleton items item ih =>
      have last : collect key values (items ++ [item]) =
          (collect key values items).update (key item) fun old => old.getD [] ++ values item := by
        rw [collect, List.foldl_append]
        rfl
      rw [last, get?_update]
      by_cases here : asked = key item
      · subst here
        have listed : key item ∈ (items ++ [item]).map key := List.mem_map_of_mem (by simp)
        rw [ih, if_pos rfl, if_pos listed, List.filter_append, List.flatMap_append]
        by_cases before : key item ∈ items.map key
        · rw [if_pos before]
          simp
        · have none : items.filter (key · = key item) = [] := by
            rw [List.filter_eq_nil_iff]
            intro other member
            simpa using fun same : key other = key item =>
              before (same ▸ List.mem_map_of_mem member)
          rw [if_neg before, none]
          simp
      · have apart : key item ≠ asked := fun same => here same.symm
        rw [ih, if_neg here]
        simp [here, apart]

end Dict
