import NoPend.Common.MonotoneSchemaSet

set_option autoImplicit false

/- Whole runs on a `MonotoneSchemaSet`: what any sequence of `add` and `remove` calls
leaves in it, and the hitting sets of a set that was filled by `add` calls. -/
namespace NoPend

open Antichain SetFamily

namespace MonotoneSchemaSet

/-- One call of a client. -/
inductive Call where
  | add (newschema : Schema)
  | remove (removedSchema : Schema)

/-- The schema that is handed over. -/
def Call.schema : Call → Schema
  | .add newschema => newschema
  | .remove removedSchema => removedSchema

/-- The result of a call and the set it leaves. -/
def perform (set : MonotoneSchemaSet) : Call → Except Exn (Bool × MonotoneSchemaSet)
  | .add newschema => set.add newschema
  | .remove removedSchema => .ok (set.remove removedSchema)

/-- Calls one after the other on a set of the given kind that starts empty. -/
def performAll (isMinimal : Bool) (calls : List Call) : Except Exn MonotoneSchemaSet :=
  calls.foldlM (fun set call => do return (← set.perform call).2) (new isMinimal)

/-- What holds between two calls. -/
structure Kept (n : Nat) (isMinimal : Bool) (set : MonotoneSchemaSet) : Prop where
  kind : set.isMinimal = isMinimal
  sized : ∀ s ∈ set.schemas, s.logic_size = n
  independent : Independent (Under isMinimal) set.schemas

variable {n : Nat} {isMinimal : Bool} {set : MonotoneSchemaSet}

theorem kept_new (n : Nat) (isMinimal : Bool) : Kept n isMinimal (new isMinimal) :=
  ⟨rfl, by simp [new], List.Pairwise.nil⟩

theorem Kept.add_eq (kept : Kept n isMinimal set) {s : Schema} (sized : s.logic_size = n) :
    set.add s = .ok ((Antichain.add (Under isMinimal) s set.schemas).1,
      { set with schemas := (Antichain.add (Under isMinimal) s set.schemas).2 }) := by
  rw [MonotoneSchemaSet.add_eq (fun x member => (kept.sized x member).trans sized.symm), kept.kind]

/-- One call keeps the antichain. -/
theorem Kept.perform (kept : Kept n isMinimal set) {call : Call}
    (sized : call.schema.logic_size = n) :
    ∃ answer after, set.perform call = .ok (answer, after) ∧ Kept n isMinimal after := by
  cases call with
  | add newschema =>
      refine ⟨_, _, kept.add_eq sized, kept.kind, ?_, add_independent _ kept.independent⟩
      intro s member
      rcases mem_of_mem_add _ member with old | rfl
      · exact kept.sized s old
      · exact sized
  | remove removedSchema =>
      refine ⟨_, _, rfl, kept.kind, ?_, ?_⟩
      · exact fun s member => kept.sized s (List.mem_of_mem_eraseP member)
      · exact kept.independent.sublist List.eraseP_sublist

/-- The contents of an add call, whatever it answers. -/
theorem Kept.schemas_of_add (kept : Kept n isMinimal set) {s : Schema} (sized : s.logic_size = n)
    {answer : Bool} {after : MonotoneSchemaSet} (run : set.add s = .ok (answer, after)) :
    after.schemas = (Antichain.add (Under isMinimal) s set.schemas).2 := by
  rw [kept.add_eq sized] at run
  simp only [Except.ok.injEq, Prod.mk.injEq] at run
  rw [← run.2]

/-- Every sequence of calls returns and keeps the antichain; as long as only schemas are
added, the contents are their insertion one after the other. -/
theorem performAll_kept (isMinimal : Bool) {calls : List Call}
    (sized : ∀ call ∈ calls, call.schema.logic_size = n) :
    ∃ set, performAll isMinimal calls = .ok set ∧ Kept n isMinimal set ∧
      ∀ news, calls = news.map Call.add → set.schemas = addAll (Under isMinimal) news [] := by
  apply Except.foldlM_inv _ (fun calls set => Kept n isMinimal set ∧
    ∀ news, calls = news.map Call.add → set.schemas = addAll (Under isMinimal) news []) calls
  · rintro done call set member ⟨kept, contents⟩
    obtain ⟨answer, after, run, still⟩ := kept.perform (sized call member)
    refine ⟨after, by rw [run]; rfl, still, fun news shape => ?_⟩
    obtain ⟨early, late, rfl, before, last⟩ := List.append_eq_map_iff.mp shape
    obtain ⟨s, rfl, rfl⟩ := List.map_eq_singleton_iff.mp last
    rw [addAll_append, ← contents early before.symm]
    exact kept.schemas_of_add (sized _ member) run
  · exact ⟨kept_new n isMinimal,
      fun news shape => by rw [List.map_eq_nil_iff.mp shape.symm]; rfl⟩

/-- The elements of the set after adding alone are the least ones of what was added. -/
theorem mem_sets_addAll {news : List Schema}
    (contents : set.schemas = addAll (Under isMinimal) news []) (S : Finset Nat) :
    S ∈ set.sets ↔ Least (order isMinimal) (fun S => ∃ s ∈ news, s.bits = S) S := by
  have carried : set.sets = addAll (order isMinimal) (news.map Schema.bits) [] := by
    rw [sets, contents, addAll_map (Under isMinimal) (s := order isMinimal) fun _ _ => Iff.rfl]
    rfl
  rw [carried]
  apply mem_addAll_iff_least
  · intro x member
    exact List.mem_map.mp member
  · rintro x ⟨s, member, rfl⟩
    exact ⟨s.bits, List.mem_map_of_mem member, refl_of (order isMinimal) _⟩

/-- After every sequence of calls the set is an antichain. The next `add` refuses exactly the
schemas it covers and then changes nothing; otherwise it drops exactly what the new schema
covers. Adding alone leaves the minimal (maximal) schemas of those added, in any order. -/
theorem performAll_antichain (n : Nat) (isMinimal : Bool) (calls : List Call)
    (sized : ∀ call ∈ calls, call.schema.logic_size = n) :
    ∃ set, performAll isMinimal calls = .ok set ∧
      set.schemas.Pairwise (fun a b => ¬ a.bits ⊆ b.bits ∧ ¬ b.bits ⊆ a.bits) ∧
      set.sets.Nodup ∧
      (∀ s, s.logic_size = n → ∃ added after, set.add s = .ok (added, after) ∧
        (added = false ↔ ∃ x ∈ set.schemas, Under isMinimal x s) ∧
        (added = false → after = set) ∧
        (added = true → ∀ x, x ∈ after.schemas ↔
          x = s ∨ x ∈ set.schemas ∧ ¬ Under isMinimal s x)) ∧
      ∀ news : List Schema, calls = news.map Call.add → ∀ S, S ∈ set.sets ↔
        Least (order isMinimal) (fun S => ∃ s ∈ news, s.bits = S) S := by
  obtain ⟨set, run, kept, contents⟩ := performAll_kept isMinimal sized
  have apart : set.schemas.Pairwise (fun a b => ¬ a.bits ⊆ b.bits ∧ ¬ b.bits ⊆ a.bits) := by
    cases isMinimal with
    | true => exact kept.independent
    | false => exact kept.independent.imp And.symm
  refine ⟨set, run, apart, ?_, fun s size => ?_, fun news shape =>
    mem_sets_addAll (contents news shape)⟩
  · apply List.pairwise_map.mpr
    refine apart.imp fun {a b} neither same => neither.1 ?_
    rw [same]
  · refine ⟨_, _, kept.add_eq size, ?_⟩
    by_cases covered : ∃ x ∈ set.schemas, Under isMinimal x s
    · rw [add_of_covered _ kept.independent covered]
      simpa using covered
    · rw [add_of_not_covered _ covered]
      simp only [Bool.true_eq_false, false_iff, IsEmpty.forall_iff, forall_const, true_and]
      refine ⟨covered, fun x => ?_⟩
      simp only [List.mem_append, List.mem_filter, decide_eq_true_eq, List.mem_singleton]
      exact or_comm

/-- Adding the whole, a part of it and another part, and removing one again. -/
theorem performAll_antichain_parts :
    (∀ call ∈ [Call.add (Schema.ofIndices 3 [0, 1]), .add (Schema.ofIndices 3 [0]),
        .add (Schema.ofIndices 3 [2]), .remove (Schema.ofIndices 3 [2])],
      call.schema.logic_size = 3) ∧
    ∃ set, performAll true [.add (Schema.ofIndices 3 [0, 1]), .add (Schema.ofIndices 3 [0]),
        .add (Schema.ofIndices 3 [2]), .remove (Schema.ofIndices 3 [2])] = .ok set ∧
      set.sets.Nodup := by
  have sized : ∀ call ∈ [Call.add (Schema.ofIndices 3 [0, 1]), .add (Schema.ofIndices 3 [0]),
      .add (Schema.ofIndices 3 [2]), .remove (Schema.ofIndices 3 [2])],
      call.schema.logic_size = 3 := by decide
  obtain ⟨set, run, _, distinct, _⟩ := performAll_antichain 3 true _ sized
  exact ⟨sized, set, run, distinct⟩

theorem Holds.of_adds {news : List Schema} (wf : ∀ s ∈ news, s.Wf n)
    (kept : Kept n isMinimal set) (contents : set.schemas = addAll (Under isMinimal) news []) :
    set.Holds n isMinimal set.sets := by
  refine ⟨kept.kind, fun s member => ?_, rfl⟩
  rw [contents] at member
  rcases mem_of_mem_addAll _ member with none | new
  · cases none
  · exact wf s new

/-- An antichain that has the empty set has nothing else. -/
theorem Kept.nonempty_or_single (kept : Kept n isMinimal set) :
    (∀ S ∈ set.sets, S.Nonempty) ∨ ∃ s, set.schemas = [s] ∧ s.bits = ∅ := by
  by_cases empty : ∃ s ∈ set.schemas, s.bits = ∅
  · right
    obtain ⟨s, member, none⟩ := empty
    refine ⟨s, ?_, none⟩
    obtain ⟨before, after, shape⟩ := List.append_of_mem member
    have independent := kept.independent
    have comparable : ∀ x : Schema, Under isMinimal s x ∨ Under isMinimal x s := by
      intro x
      unfold Under
      rw [none]
      cases isMinimal with
      | true => exact Or.inl (Finset.empty_subset _)
      | false => exact Or.inr (Finset.empty_subset _)
    rw [shape] at independent ⊢
    obtain ⟨_, tail, cross⟩ := List.pairwise_append.mp independent
    have noneBefore : before = [] := by
      apply List.eq_nil_iff_forall_not_mem.mpr
      intro x early
      have apart := cross x early s (by simp)
      exact (comparable x).elim apart.2 apart.1
    have noneAfter : after = [] := by
      apply List.eq_nil_iff_forall_not_mem.mpr
      intro x late
      have apart := (List.pairwise_cons.mp tail).1 x late
      exact (comparable x).elim apart.1 apart.2
    rw [noneBefore, noneAfter]
    rfl
  · left
    intro S member
    obtain ⟨s, inside, rfl⟩ := List.mem_map.mp member
    rw [Finset.nonempty_iff_ne_empty]
    exact fun none => empty ⟨s, inside, none⟩

/-- `getMHS` of a set filled by `add` calls: it refuses the empty set and the set of the empty
schema; otherwise it lists every minimal hitting set once and nothing else. -/
theorem getMHS_exact (n : Nat) (isMinimal : Bool) (news : List Schema)
    (wf : ∀ s ∈ news, s.Wf n) :
    ∃ F, performAll isMinimal (news.map Call.add) = .ok F ∧
      ((∃ message, F.getMHS = .error (.illegalArgument message)) ↔
        F.schemas = [] ∨ ∃ s, F.schemas = [s] ∧ s.bits = ∅) ∧
      (¬ (F.schemas = [] ∨ ∃ s, F.schemas = [s] ∧ s.bits = ∅) →
        ∃ MHS, F.getMHS = .ok MHS ∧ (∀ H ∈ MHS.schemas, H.Wf n) ∧ MHS.sets.Nodup ∧
          ∀ H, H ∈ MHS.sets ↔ Hits F.sets H ∧ ∀ K, K ⊂ H → ¬ Hits F.sets K) := by
  have sized : ∀ call ∈ news.map Call.add, call.schema.logic_size = n := by
    intro call member
    obtain ⟨s, inside, rfl⟩ := List.mem_map.mp member
    exact (wf s inside).logic
  obtain ⟨F, run, kept, contents⟩ := performAll_kept isMinimal sized
  have holds := Holds.of_adds wf kept (contents news rfl)
  have accepts : ¬ (F.schemas = [] ∨ ∃ s, F.schemas = [s] ∧ s.bits = ∅) →
      ∃ MHS, F.getMHS = .ok MHS ∧ (∀ H ∈ MHS.schemas, H.Wf n) ∧ MHS.sets.Nodup ∧
        ∀ H, H ∈ MHS.sets ↔ Hits F.sets H ∧ ∀ K, K ⊂ H → ¬ Hits F.sets K := by
    intro other
    rw [not_or] at other
    have nonempty := kept.nonempty_or_single.resolve_right other.2
    obtain ⟨MHS, hitting, found, holdsMHS, independent, least⟩ :=
      getMHS_eq holds (by rw [sets, ne_eq, List.map_eq_nil_iff]; exact other.1) nonempty
    refine ⟨MHS, found, holdsMHS.wf, ?_, fun H => ?_⟩
    · rw [holdsMHS.sets_eq]
      refine independent.imp fun {a b} apart same => apart.1 ?_
      rw [same]
    · rw [holdsMHS.sets_eq, least H, least_iff_minimal, minimal_iff_forall_lt]
  refine ⟨F, run, ⟨?_, ?_⟩, accepts⟩
  · rintro ⟨message, refused⟩
    by_contra other
    obtain ⟨MHS, found, _⟩ := accepts other
    rw [refused] at found
    cases found
  · rintro (none | ⟨s, single, none⟩)
    · exact ⟨"schemaSet cannot be empty", by rw [getMHS, none]⟩
    · have zero : s.size = 0 := by rw [Schema.size_eq, none, Finset.card_empty]
      refine ⟨"schemaSet cannot just have a single empty set", ?_⟩
      rw [getMHS, single]
      simp only [List.isEmpty_nil, zero, BEq.rfl, Bool.and_self, if_true]
      rfl

/-- Two overlapping pairs are hit by what they share, and by the other parameters together. -/
theorem getMHS_exact_overlapping :
    ∃ F MHS, performAll true
        ([Schema.ofIndices 3 [0, 1], Schema.ofIndices 3 [1, 2]].map Call.add) = .ok F ∧
      F.schemas ≠ [] ∧ F.getMHS = .ok MHS ∧ {1} ∈ MHS.sets ∧ {0, 2} ∈ MHS.sets ∧
      {0, 1} ∉ MHS.sets := by
  have wf : ∀ s ∈ [Schema.ofIndices 3 [0, 1], Schema.ofIndices 3 [1, 2]], s.Wf 3 := by
    intro s member
    simp only [List.mem_cons, List.not_mem_nil, or_false] at member
    rcases member with rfl | rfl <;>
      exact ⟨rfl, by rw [Schema.ofIndices_bits]; decide⟩
  obtain ⟨F, run, _, lists⟩ := getMHS_exact 3 true _ wf
  have filled : performAll true
      ([Schema.ofIndices 3 [0, 1], Schema.ofIndices 3 [1, 2]].map Call.add) =
        .ok ⟨[Schema.ofIndices 3 [0, 1], Schema.ofIndices 3 [1, 2]], true⟩ := rfl
  obtain rfl := Except.ok.inj (filled.symm.trans run)
  obtain ⟨MHS, found, _, _, least⟩ := lists (by simp)
  simp only [← Finset.mem_ssubsets] at least
  refine ⟨_, MHS, filled, by simp, found, ?_, ?_, ?_⟩
  · exact (least {1}).mpr (by decide)
  · exact (least {0, 2}).mpr (by decide)
  · exact fun hits => absurd ((least {0, 1}).mp hits) (by decide)

end MonotoneSchemaSet

end NoPend
