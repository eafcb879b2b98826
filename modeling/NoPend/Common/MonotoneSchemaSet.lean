import NoPend.Common.Schema
import NoPend.Lib.SetFamily

set_option autoImplicit false

namespace NoPend

open Antichain SetFamily

/-- The minimal or the maximal ones of the schemas added so far. -/
structure MonotoneSchemaSet where
  schemas : List Schema
  isMinimal : Bool

namespace MonotoneSchemaSet

def new (isMinimal : Bool) : MonotoneSchemaSet := ⟨[], isMinimal⟩

/-- The loop of `add`. The iterator removes elements while it goes on, so what it has
removed stays removed when a later element makes it return `false`. -/
def scan (stop drop : Schema → Except Exn Bool) (newschema : Schema) :
    List Schema → Except Exn (Bool × List Schema)
  | [] => .ok (true, [newschema])
  | cur :: rest => do
      if cur.equals newschema then return (false, cur :: rest)
      else if ← stop cur then return (false, cur :: rest)
      else if ← drop cur then scan stop drop newschema rest
      else
        let (added, kept) ← scan stop drop newschema rest
        return (added, cur :: kept)

def add (set : MonotoneSchemaSet) (newschema : Schema) :
    Except Exn (Bool × MonotoneSchemaSet) := do
  let (added, schemas) ←
    if set.isMinimal then
      scan (·.isSubsetOf newschema) (·.isSupersetOf newschema) newschema set.schemas
    else
      scan (·.isSupersetOf newschema) (·.isSubsetOf newschema) newschema set.schemas
  return (added, { set with schemas })

/-- A call of `add` whose result is not used. -/
def add' (set : MonotoneSchemaSet) (newschema : Schema) : Except Exn MonotoneSchemaSet := do
  return (← set.add newschema).2

def remove (set : MonotoneSchemaSet) (removedSchema : Schema) : Bool × MonotoneSchemaSet :=
  (set.schemas.any (removedSchema.equals ·),
    { set with schemas := set.schemas.eraseP (removedSchema.equals ·) })

def size (set : MonotoneSchemaSet) : Nat := set.schemas.length

def getSchemas (set : MonotoneSchemaSet) : List Schema := set.schemas

def isEmpty (set : MonotoneSchemaSet) : Bool := set.schemas.isEmpty

def complement (set : MonotoneSchemaSet) : Except Exn MonotoneSchemaSet :=
  set.schemas.foldlM (fun result schema => result.add' schema.complement) (new !set.isMinimal)

/-- `complement(universe)`. -/
def complementIn (set : MonotoneSchemaSet) (univ : Schema) : Except Exn MonotoneSchemaSet :=
  set.schemas.foldlM (fun result schema => do result.add' (← schema.complementIn univ))
    (new !set.isMinimal)

/-- `ans` is one mutable schema: each branch sets a parameter and clears it again. -/
def getMHS_recursive (ans : Schema) (MHS : MonotoneSchemaSet) :
    List Schema → Except Exn (Schema × MonotoneSchemaSet)
  | [] => do return (ans, ← MHS.add' ans.copy)
  | cur :: rest => do
      if ← ans.overlapsWith cur then getMHS_recursive ans MHS rest
      else
        cur.getIndices.foldlM (fun (ans, MHS) i => do
          let (ans, MHS) ← getMHS_recursive (ans.set i true) MHS rest
          return (ans.set i false, MHS)) (ans, MHS)

def getMHS (schemaSet : MonotoneSchemaSet) : Except Exn MonotoneSchemaSet :=
  match schemaSet.schemas with
  | [] => .error (.illegalArgument "schemaSet cannot be empty")
  | first :: rest => do
      if rest.isEmpty && first.size == 0 then
        throw (.illegalArgument "schemaSet cannot just have a single empty set")
      return (← getMHS_recursive (Schema.ofSize first.getLogicSize) (new true) (first :: rest)).2

/-- The parameter sets of the members, in order. -/
def sets (set : MonotoneSchemaSet) : List (Finset Nat) := set.schemas.map Schema.bits

/-- The set holds schemas over `n` parameters whose bits are, in order, the listed sets. -/
structure Holds (n : Nat) (isMinimal : Bool) (sets : List (Finset Nat))
    (set : MonotoneSchemaSet) : Prop where
  kind : set.isMinimal = isMinimal
  wf : ∀ s ∈ set.schemas, s.Wf n
  bits : set.schemas.map Schema.bits = sets

variable {n : Nat}

theorem holds_new (n : Nat) (isMinimal : Bool) : (new isMinimal).Holds n isMinimal [] :=
  ⟨rfl, by simp [new], rfl⟩

theorem Holds.sets_eq {isMinimal : Bool} {family : List (Finset Nat)} {set : MonotoneSchemaSet}
    (holds : set.Holds n isMinimal family) : set.sets = family :=
  holds.bits

theorem Holds.mem_sets {isMinimal : Bool} {sets : List (Finset Nat)} {set : MonotoneSchemaSet}
    (holds : set.Holds n isMinimal sets) {s : Schema} (member : s ∈ set.schemas) :
    s.bits ∈ sets := by
  rw [← holds.bits]
  exact List.mem_map_of_mem member

theorem Holds.map_complement {isMinimal : Bool} {sets : List (Finset Nat)}
    {set : MonotoneSchemaSet} (holds : set.Holds n isMinimal sets) {U : Finset Nat} :
    set.schemas.map (fun s => U \ s.bits) = sets.map (U \ ·) := by
  rw [← holds.bits, List.map_map]
  rfl

/-- The order on parameter sets that a set of the given kind keeps the least members of. -/
def order : Bool → Finset Nat → Finset Nat → Prop
  | true => (· ⊆ ·)
  | false => (· ⊇ ·)

instance (isMinimal : Bool) : DecidableRel (order isMinimal) :=
  match isMinimal with
  | true => inferInstanceAs (DecidableRel ((· ⊆ ·) : Finset Nat → Finset Nat → Prop))
  | false => inferInstanceAs (DecidableRel ((· ⊇ ·) : Finset Nat → Finset Nat → Prop))

instance (isMinimal : Bool) : IsPartialOrder (Finset Nat) (order isMinimal) :=
  match isMinimal with
  | true => inferInstanceAs (IsPartialOrder (Finset Nat) (· ⊆ ·))
  | false => inferInstanceAs (IsPartialOrder (Finset Nat) (· ⊇ ·))

/-- The same order on the schemas themselves. Two schemas may have the same parameters and
differ in their storage, so it is a preorder only. -/
def Under (isMinimal : Bool) (a b : Schema) : Prop := order isMinimal a.bits b.bits

instance (isMinimal : Bool) : DecidableRel (Under isMinimal) :=
  fun a b => inferInstanceAs (Decidable (order isMinimal a.bits b.bits))

instance (isMinimal : Bool) : IsPreorder Schema (Under isMinimal) where
  refl a := refl_of (order isMinimal) a.bits
  trans _ _ _ := trans_of (order isMinimal)

/-- The scan is the insertion into an antichain. -/
theorem scan_eq {r : Schema → Schema → Prop} [DecidableRel r] [Std.Refl r]
    {stop drop : Schema → Except Exn Bool} {newschema : Schema} (schemas : List Schema)
    (equal : ∀ s ∈ schemas, s.bits = newschema.bits → r s newschema)
    (stops : ∀ s ∈ schemas, stop s = .ok (decide (r s newschema)))
    (drops : ∀ s ∈ schemas, drop s = .ok (decide (r newschema s))) :
    scan stop drop newschema schemas = .ok (Antichain.add r newschema schemas) := by
  induction schemas with
  | nil => rfl
  | cons cur rest ih =>
      have later := ih (fun s member => equal s (List.mem_cons_of_mem _ member))
        (fun s member => stops s (List.mem_cons_of_mem _ member))
        (fun s member => drops s (List.mem_cons_of_mem _ member))
      have equalCur := equal cur (by simp)
      rw [scan, stops cur (by simp), drops cur (by simp), later, add_cons, Schema.equals_eq]
      by_cases below : r cur newschema
      · by_cases same : cur.bits = newschema.bits <;>
          simp [same, below, pure, Except.pure, bind, Except.bind]
      · have other : cur.bits ≠ newschema.bits := fun same => below (equalCur same)
        by_cases above : r newschema cur <;>
          simp [other, below, above, pure, Except.pure, bind, Except.bind]

/-- `add`, for members of one logic size. -/
theorem add_eq {set : MonotoneSchemaSet} {s : Schema}
    (sized : ∀ x ∈ set.schemas, x.logic_size = s.logic_size) :
    set.add s = .ok ((Antichain.add (Under set.isMinimal) s set.schemas).1,
      { set with schemas := (Antichain.add (Under set.isMinimal) s set.schemas).2 }) := by
  obtain ⟨schemas, isMinimal⟩ := set
  have equal : ∀ x ∈ schemas, x.bits = s.bits → Under isMinimal x s := by
    intro x _ same
    unfold Under
    rw [same]
    exact refl_of (order isMinimal) s.bits
  have lower : ∀ x ∈ schemas, x.isSubsetOf s = .ok (decide (x.bits ⊆ s.bits)) :=
    fun x member => Schema.isSubsetOf_eq (sized x member)
  have upper : ∀ x ∈ schemas, x.isSupersetOf s = .ok (decide (s.bits ⊆ x.bits)) :=
    fun x member => Schema.isSupersetOf_eq (sized x member)
  cases isMinimal with
  | true =>
      rw [add, if_pos rfl, scan_eq (r := Under true) schemas equal lower upper]
      rfl
  | false =>
      rw [add, if_neg (by simp), scan_eq (r := Under false) schemas equal upper lower]
      rfl

/-- `add` in terms of the parameter sets. -/
theorem add_holds {isMinimal : Bool} {sets : List (Finset Nat)} {set : MonotoneSchemaSet}
    {s : Schema} (holds : set.Holds n isMinimal sets) (wf : s.Wf n) :
    ∃ after, set.add s = .ok ((Antichain.add (order isMinimal) s.bits sets).1, after) ∧
      after.Holds n isMinimal (Antichain.add (order isMinimal) s.bits sets).2 := by
  have sized : ∀ x ∈ set.schemas, x.logic_size = s.logic_size := fun x member =>
    (holds.wf x member).logic.trans wf.logic.symm
  have carried := add_map (Under isMinimal) (s := order isMinimal) (f := Schema.bits)
    (fun _ _ => Iff.rfl) s set.schemas
  rw [holds.bits] at carried
  rw [add_eq sized, holds.kind, carried]
  refine ⟨_, rfl, rfl, ?_, rfl⟩
  intro x member
  rcases mem_of_mem_add (Under isMinimal) member with old | rfl
  · exact holds.wf x old
  · exact wf

theorem add_minimal {sets : List (Finset Nat)} {set : MonotoneSchemaSet} {s : Schema}
    (holds : set.Holds n true sets) (wf : s.Wf n) :
    ∃ after, set.add s = .ok ((Antichain.add (· ⊆ ·) s.bits sets).1, after) ∧
      after.Holds n true (Antichain.add (· ⊆ ·) s.bits sets).2 :=
  add_holds holds wf

theorem add_maximal {sets : List (Finset Nat)} {set : MonotoneSchemaSet} {s : Schema}
    (holds : set.Holds n false sets) (wf : s.Wf n) :
    ∃ after, set.add s = .ok ((Antichain.add (· ⊇ ·) s.bits sets).1, after) ∧
      after.Holds n false (Antichain.add (· ⊇ ·) s.bits sets).2 :=
  add_holds holds wf

theorem add'_minimal {sets : List (Finset Nat)} {set : MonotoneSchemaSet} {s : Schema}
    (holds : set.Holds n true sets) (wf : s.Wf n) :
    ∃ after, set.add' s = .ok after ∧
      after.Holds n true (Antichain.add (· ⊆ ·) s.bits sets).2 := by
  obtain ⟨after, run, kept⟩ := add_minimal holds wf
  exact ⟨after, by rw [add', run]; rfl, kept⟩

theorem add'_maximal {sets : List (Finset Nat)} {set : MonotoneSchemaSet} {s : Schema}
    (holds : set.Holds n false sets) (wf : s.Wf n) :
    ∃ after, set.add' s = .ok after ∧
      after.Holds n false (Antichain.add (· ⊇ ·) s.bits sets).2 := by
  obtain ⟨after, run, kept⟩ := add_maximal holds wf
  exact ⟨after, by rw [add', run]; rfl, kept⟩

/-- A loop that adds one schema per item adds the bits of these schemas. -/
theorem foldlM_add' {α : Type} {isMinimal : Bool} {r : Finset Nat → Finset Nat → Prop}
    [DecidableRel r] (one : ∀ {sets : List (Finset Nat)} {set : MonotoneSchemaSet} {s : Schema},
      set.Holds n isMinimal sets → s.Wf n → ∃ after, set.add' s = .ok after ∧
        after.Holds n isMinimal (Antichain.add r s.bits sets).2)
    (pick : α → Except Exn Schema) (bits : α → Finset Nat) (items : List α)
    (picks : ∀ x ∈ items, ∃ s, pick x = .ok s ∧ s.Wf n ∧ s.bits = bits x)
    {sets : List (Finset Nat)} {set : MonotoneSchemaSet} (holds : set.Holds n isMinimal sets) :
    ∃ after, items.foldlM (fun result x => do result.add' (← pick x)) set = .ok after ∧
      after.Holds n isMinimal (addAll r (items.map bits) sets) := by
  induction items generalizing sets set with
  | nil => exact ⟨set, rfl, holds⟩
  | cons x rest ih =>
      obtain ⟨s, picked, wf, same⟩ := picks x (by simp)
      obtain ⟨middle, run, kept⟩ := one holds wf
      rw [same] at kept
      obtain ⟨after, more, final⟩ :=
        ih (fun y member => picks y (List.mem_cons_of_mem _ member)) kept
      refine ⟨after, ?_, final⟩
      simp only [List.foldlM_cons, picked, bind, Except.bind, run]
      exact more

/-- `complement(universe)` of a minimal set whose members lie in the universe. -/
theorem complementIn_minimal {sets : List (Finset Nat)} {set : MonotoneSchemaSet} {univ : Schema}
    (holds : set.Holds n true sets) (wfU : univ.Wf n) (within : ∀ s ∈ sets, s ⊆ univ.bits)
    (independent : Independent (· ⊆ ·) sets) :
    ∃ after, set.complementIn univ = .ok after ∧
      after.Holds n false (sets.map (univ.bits \ ·)) := by
  obtain ⟨after, run, kept⟩ := foldlM_add' (r := (· ⊇ ·)) add'_maximal
    (fun s => s.complementIn univ) (fun s => univ.bits \ s.bits) set.schemas
    (fun s member =>
      Schema.complementIn_eq (holds.wf s member) wfU (within _ (holds.mem_sets member)))
    (holds_new n false)
  rw [holds.map_complement, addAll_of_independent _ (independent_complements within independent)]
    at kept
  exact ⟨after, by rw [complementIn, holds.kind]; exact run, kept⟩

/-- `complement(universe)` of a maximal set whose members lie in the universe. -/
theorem complementIn_maximal {sets : List (Finset Nat)} {set : MonotoneSchemaSet} {univ : Schema}
    (holds : set.Holds n false sets) (wfU : univ.Wf n) (within : ∀ s ∈ sets, s ⊆ univ.bits)
    (independent : Independent (· ⊇ ·) sets) :
    ∃ after, set.complementIn univ = .ok after ∧
      after.Holds n true (sets.map (univ.bits \ ·)) := by
  obtain ⟨after, run, kept⟩ := foldlM_add' (r := (· ⊆ ·)) add'_minimal
    (fun s => s.complementIn univ) (fun s => univ.bits \ s.bits) set.schemas
    (fun s member =>
      Schema.complementIn_eq (holds.wf s member) wfU (within _ (holds.mem_sets member)))
    (holds_new n true)
  rw [holds.map_complement, addAll_of_independent _ (independent_complements' within independent)]
    at kept
  exact ⟨after, by rw [complementIn, holds.kind]; exact run, kept⟩

/-- The recursion adds, in order, exactly the branches over the remaining schemas, and
hands the accumulator back as it got it. -/
theorem getMHS_recursive_eq (rest : List Schema) (wfRest : ∀ s ∈ rest, s.Wf n) :
    ∀ {ans : Schema} {MHS : MonotoneSchemaSet} {sets : List (Finset Nat)}, ans.Wf n →
      MHS.Holds n true sets →
      ∃ ans' MHS', getMHS_recursive ans MHS rest = .ok (ans', MHS') ∧ ans'.Wf n ∧
        ans'.bits = ans.bits ∧
        MHS'.Holds n true
          (addAll (· ⊆ ·) (branches ans.bits (rest.map Schema.getIndices)) sets) := by
  induction rest with
  | nil =>
      intro ans MHS sets wf holds
      obtain ⟨after, run, kept⟩ := add'_minimal holds wf.copy
      rw [Schema.copy_bits] at kept
      refine ⟨ans, after, ?_, wf, rfl, kept⟩
      rw [getMHS_recursive, run]
      rfl
  | cons cur rest ih =>
      intro ans MHS sets wf holds
      have wfCur := wfRest cur (by simp)
      have ih := fun {ans : Schema} {MHS : MonotoneSchemaSet} {sets : List (Finset Nat)} =>
        @ih (fun s member => wfRest s (List.mem_cons_of_mem _ member)) ans MHS sets
      have meets : (∃ i ∈ ans.bits, i ∈ cur.bits) ↔
          ∃ i ∈ cur.getIndices, i ∈ ans.bits := by
        simp only [Schema.mem_getIndices, wfCur.logic]
        constructor
        · rintro ⟨i, left, right⟩
          exact ⟨i, ⟨wfCur.lt right, right⟩, left⟩
        · rintro ⟨i, ⟨_, right⟩, left⟩
          exact ⟨i, left, right⟩
      simp only [getMHS_recursive, Schema.overlapsWith_eq wf wfCur.logic, bind, Except.bind,
        List.map_cons, branches, decide_eq_true_eq, meets]
      by_cases hit : ∃ i ∈ cur.getIndices, i ∈ ans.bits
      · simp only [hit, if_true]
        exact ih wf holds
      · simp only [hit, if_false]
        have below : ∀ i ∈ cur.getIndices, i < n ∧ i ∉ ans.bits := by
          intro i member
          rw [Schema.mem_getIndices, wfCur.logic] at member
          exact ⟨member.1, fun already => hit ⟨i, by
            rw [Schema.mem_getIndices, wfCur.logic]; exact member, already⟩⟩
        clear hit meets
        generalize cur.getIndices = indices at below
        -- the loop over the parameters of `cur`; `ans` keeps its bits from round to round
        induction indices generalizing ans MHS sets with
        | nil => exact ⟨ans, MHS, rfl, wf, rfl, holds⟩
        | cons i more loop =>
            obtain ⟨inside, fresh⟩ := below i (by simp)
            obtain ⟨ans₁, MHS₁, run, wf₁, bits₁, kept⟩ := ih (wf.set_true inside) holds
            have restored : (ans₁.set i false).bits = ans.bits := by
              rw [Schema.set_false_bits, bits₁, Schema.set_true_bits, Finset.erase_insert fresh]
            obtain ⟨ans₂, MHS₂, next, wf₂, bits₂, final⟩ :=
              loop (wf₁.set_false (i := i)) kept
                (by rw [restored]; exact fun j member => below j (List.mem_cons_of_mem _ member))
            rw [restored] at bits₂ final
            refine ⟨ans₂, MHS₂, ?_, wf₂, bits₂, ?_⟩
            · simp only [List.foldlM_cons, bind, Except.bind, run, pure, Except.pure]
              exact next
            · rw [List.flatMap_cons, addAll_append]
              exact final

theorem Holds.map_getIndices {isMinimal : Bool} {sets : List (Finset Nat)}
    {set : MonotoneSchemaSet} (holds : set.Holds n isMinimal sets) :
    (set.schemas.map Schema.getIndices).map List.toFinset = sets := by
  rw [← holds.bits, List.map_map]
  apply List.map_congr_left
  intro s member
  exact (holds.wf s member).getIndices_toFinset

/-- On a family of non-empty sets `getMHS` returns its minimal hitting sets. -/
theorem getMHS_eq {isMinimal : Bool} {sets : List (Finset Nat)} {set : MonotoneSchemaSet}
    (holds : set.Holds n isMinimal sets) (some : sets ≠ [])
    (nonempty : ∀ s ∈ sets, s.Nonempty) :
    ∃ MHS hitting, set.getMHS = .ok MHS ∧ MHS.Holds n true hitting ∧
      Independent (· ⊆ ·) hitting ∧
      ∀ H, H ∈ hitting ↔ Least (· ⊆ ·) (Hits sets) H := by
  obtain ⟨ans, MHS, run, _, _, kept⟩ :=
    getMHS_recursive_eq set.schemas holds.wf (Schema.ofSize_wf n) (holds_new n true)
  rw [Schema.ofSize_bits] at kept
  refine ⟨MHS, _, ?_, kept, addAll_independent _ List.Pairwise.nil, fun H => ?_⟩
  · unfold getMHS
    split
    · rename_i empty
      have := holds.bits
      rw [empty] at this
      exact absurd this.symm some
    · rename_i first rest shape
      have inside : first ∈ set.schemas := by rw [shape]; simp
      have positive : first.size ≠ 0 := by
        rw [Schema.size_eq, Finset.card_ne_zero]
        exact nonempty _ (holds.mem_sets inside)
      have logic : first.getLogicSize = n := (holds.wf first inside).logic
      rw [logic, ← shape, run]
      simp [positive, bind, Except.bind, pure, Except.pure]
  · rw [mem_addAll_branches, holds.map_getIndices]

end MonotoneSchemaSet

end NoPend
