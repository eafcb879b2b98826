import NoPend.FaultResolver.TRT
import Mathlib.Combinatorics.Colex

set_option autoImplicit false

/- The truth table as a set of sets: what the marking methods and the queries do to the
marks, for any marks that were made before. -/
namespace NoPend

open Antichain SetFamily Walk MonotoneSchemaSet

namespace TRT

section Codes

/-- The number of a set of parameters. -/
def code (S : Finset Nat) : Nat := ∑ i ∈ S, 2 ^ i

variable {n : Nat} {S T : Finset Nat}

theorem code_injective {S T : Finset Nat} (same : code S = code T) : S = T :=
  Finset.geomSum_injective (Nat.le_refl 2) same

theorem code_lt (within : S ⊆ Finset.range n) : code S < 2 ^ n :=
  Nat.geomSum_lt (Nat.le_refl 2) fun _ member => Finset.mem_range.mp (within member)

theorem code_range (n : Nat) : code (Finset.range n) = 2 ^ n - 1 := by
  have sum := Nat.geomSum_eq (Nat.le_refl 2) n
  rw [code, sum]
  simp

/-- Every number below `2 ^ n` is that of a set. -/
theorem exists_code {i : Nat} (inside : i < 2 ^ n) : ∃ S ⊆ Finset.range n, code S = i := by
  have onto : Set.SurjOn code (Finset.range n).powerset (Finset.range (2 ^ n)) := by
    apply Finset.surjOn_of_injOn_of_card_le
    · intro S member
      exact Finset.mem_coe.mpr (Finset.mem_range.mpr (code_lt (Finset.mem_powerset.mp member)))
    · exact fun S _ T _ same => code_injective same
    · rw [Finset.card_range, Finset.card_powerset, Finset.card_range]
  obtain ⟨S, member, same⟩ := onto (Finset.mem_coe.mpr (Finset.mem_range.mpr inside))
  exact ⟨S, Finset.mem_powerset.mp member, same⟩

/-- Up to 30 parameters the number of a schema fits an `int`. -/
theorem schema2int_eq (small : n ≤ 30) {s : Schema} (wf : s.Wf n) :
    schema2int s = (code s.bits : Nat) := by
  have partly : ∀ k ≤ n, (List.range k).foldl
      (fun res i => wrap (res + if s.get i then shiftOne i else 0)) 0 =
        (code (s.bits ∩ Finset.range k) : Nat) := by
    intro k bound
    induction k with
    | zero => simp [code]
    | succ k ih =>
        have shift : shiftOne k = 2 ^ k := by
          have fits : (2 : Int) ^ k < 2 ^ 31 := pow_lt_pow_right₀ (by omega) (by omega)
          rw [shiftOne, Nat.mod_eq_of_lt (by omega)]
          exact wrap_of_lt (by positivity) fits
        rw [List.range_succ, List.foldl_append, ih (by omega), List.foldl_cons, List.foldl_nil]
        have next : code (s.bits ∩ Finset.range (k + 1)) =
            code (s.bits ∩ Finset.range k) + if s.get k then 2 ^ k else 0 := by
          rw [Finset.range_add_one]
          by_cases member : k ∈ s.bits
          · rw [Finset.inter_insert_of_mem member, code, Finset.sum_insert (by simp)]
            simp only [Schema.get_eq_true.mpr member, if_true, code]
            omega
          · rw [Finset.inter_insert_of_notMem member]
            simp [Schema.get_eq_false.mpr member]
        have bounded : code (s.bits ∩ Finset.range (k + 1)) < 2 ^ 31 :=
          (code_lt Finset.inter_subset_right).trans_le (Nat.pow_le_pow_right (by omega) (by omega))
        have cast : ((code (s.bits ∩ Finset.range k) : Nat) : Int) +
            (if s.get k then shiftOne k else 0) =
              (code (s.bits ∩ Finset.range (k + 1)) : Nat) := by
          rw [next, shift]
          split <;> simp
        rw [cast]
        exact wrap_of_lt (by omega) (by exact_mod_cast bounded)
  have whole := partly n (Nat.le_refl n)
  rw [Finset.inter_eq_left.mpr wf.within] at whole
  rw [schema2int, show s.getLogicSize = n from wf.logic]
  exact whole

theorem index_eq (small : n ≤ 30) {s : Schema} (wf : s.Wf n) : index s = .ok (code s.bits) := by
  rw [index, schema2int_eq small wf]
  simp

/-- The sets of parameters whose bit is set. -/
def marks (n : Nat) (b : BitSet) : Finset (Finset Nat) :=
  (Finset.range n).powerset.filter fun S => code S ∈ b.bits

theorem mem_marks {b : BitSet} :
    S ∈ marks n b ↔ S ⊆ Finset.range n ∧ code S ∈ b.bits := by
  simp [marks]

theorem marks_set (within : S ⊆ Finset.range n) (b : BitSet) :
    marks n (b.set (code S) true) = insert S (marks n b) := by
  ext T
  rw [mem_marks, BitSet.set_true_bits, Finset.mem_insert, Finset.mem_insert, mem_marks]
  constructor
  · rintro ⟨inside, same | old⟩
    · exact Or.inl (code_injective same)
    · exact Or.inr ⟨inside, old⟩
  · rintro (rfl | ⟨inside, old⟩)
    · exact ⟨within, Or.inl rfl⟩
    · exact ⟨inside, Or.inr old⟩

theorem get_code {b : BitSet} (within : S ⊆ Finset.range n) :
    b.get (code S) = decide (S ∈ marks n b) := by
  rw [Bool.eq_iff_iff, BitSet.get_eq_true, decide_eq_true_eq, mem_marks]
  exact ⟨fun set => ⟨within, set⟩, And.right⟩

end Codes

section Simulation

/-- The sets one step further down or up. -/
def neighbours (value : Bool) (n : Nat) (S : Finset Nat) : List (Finset Nat) :=
  if value then removals n S else additions n S

/-- How many steps there are at most from a set. -/
def height (value : Bool) (n : Nat) (S : Finset Nat) : Nat :=
  if value then S.card else (Finset.range n \ S).card

theorem neighbours_descend (value : Bool) (n : Nat) (S : Finset Nat) :
    ∀ T ∈ neighbours value n S, height value n T < height value n S := by
  cases value
  · exact additions_descend S
  · exact removals_descend S

theorem height_le {value : Bool} {n : Nat} {S : Finset Nat} (within : S ⊆ Finset.range n) :
    height value n S ≤ n := by
  cases value
  · exact (Finset.card_le_card Finset.sdiff_subset).trans_eq (Finset.card_range n)
  · exact (Finset.card_le_card within).trans_eq (Finset.card_range n)

variable {σ : Type} {n : Nat} {value : Bool} {enterS : Schema → σ → Except Exn (Bool × σ)}
  {R : σ → Trail (Finset Nat) → Prop} {wanted passable : Finset Nat → Bool}

/-- The effect of entering a node on the trail, the test for a visited node included. -/
def arrive (wanted : Finset Nat → Bool) (S : Finset Nat) (trail : Trail (Finset Nat)) :
    Trail (Finset Nat) :=
  if S ∈ trail.seen then trail else enter wanted S trail

/-- `enterS` on schemas does what `enter` does on their bits. -/
def Simulates (n : Nat) (enterS : Schema → σ → Except Exn (Bool × σ))
    (R : σ → Trail (Finset Nat) → Prop) (wanted passable : Finset Nat → Bool) : Prop :=
  ∀ (s : Schema) (state : σ) (trail : Trail (Finset Nat)), s.Wf n → R state trail →
    ∃ after, enterS s state = .ok (!decide (s.bits ∈ trail.seen) && passable s.bits, after) ∧
      R after (arrive wanted s.bits trail)

/-- Toggling one bit and putting it back. -/
theorem toggle_back {s : Schema} {i : Nat} (here : s.get i = value) :
    ((s.set i (!value)).set i value).bits = s.bits := by
  cases value
  · exact Finset.erase_insert (Schema.get_eq_false.mp here)
  · exact Finset.insert_erase (Schema.get_eq_true.mp here)

theorem neighbours_eq (value : Bool) (n : Nat) (s : Schema) :
    neighbours value n s.bits =
      ((List.range n).filter fun i => s.get i = value).map fun i => (s.set i (!value)).bits := by
  cases value
  · simp only [Schema.get_eq_false]
    rfl
  · simp only [Schema.get_eq_true]
    rfl

/-- The loop over the parameters of a schema. It puts the bits of the schema back after every
round, so that every round starts from the same set. -/
theorem toggle_loop (value : Bool) {s : Schema} (step : Schema → σ → Except Exn σ)
    (next : Finset Nat → Trail (Finset Nat) → Trail (Finset Nat))
    (child : ∀ i < n, s.get i = value →
      ∀ {sub : Schema} {state : σ} {trail : Trail (Finset Nat)},
      sub.Wf n → sub.bits = (s.set i (!value)).bits → R state trail →
      ∃ after, step sub state = .ok after ∧ R after (next (s.set i (!value)).bits trail))
    (indices : List Nat) (bound : ∀ i ∈ indices, i < n) :
    ∀ {sub : Schema} {state : σ} {trail : Trail (Finset Nat)}, sub.Wf n → sub.bits = s.bits →
      R state trail →
      ∃ sub' after, indices.foldlM (fun (schema, state) i => do
          if schema.get i = value then
            let schema := schema.set i (!value)
            let state ← step schema state
            return (schema.set i value, state)
          else return (schema, state)) (sub, state) = Except.ok (ε := Exn) (sub', after) ∧
        R after (((indices.filter fun i => s.get i = value).map fun i =>
          (s.set i (!value)).bits).foldl (fun trail T => next T trail) trail) := by
  induction indices with
  | nil => exact fun {sub} {state} {trail} wfSub same rel => ⟨sub, state, rfl, rel⟩
  | cons i rest more =>
      intro sub state trail wfSub same rel
      have inside := bound i (by simp)
      have get : sub.get i = s.get i := by
        rw [Bool.eq_iff_iff, Schema.get_eq_true, Schema.get_eq_true, same]
      have set : ∀ v, (sub.set i v).bits = (s.set i v).bits := by
        intro v
        cases v
        · rw [Schema.set_false_bits, Schema.set_false_bits, same]
        · rw [Schema.set_true_bits, Schema.set_true_bits, same]
      have wfSet : ∀ {x : Schema} (v : Bool), x.Wf n → (x.set i v).Wf n := by
        intro x v wfX
        cases v
        · exact wfX.set_false
        · exact wfX.set_true inside
      by_cases here : s.get i = value
      · obtain ⟨middle, first, rel'⟩ :=
          child i inside here (wfSet (!value) wfSub) (set (!value)) rel
        obtain ⟨sub', after, later, final⟩ := more
          (fun j member => bound j (List.mem_cons_of_mem _ member))
          (wfSet value (wfSet (!value) wfSub)) (by rw [toggle_back (get.trans here), same]) rel'
        refine ⟨sub', after, ?_, ?_⟩
        · simp only [List.foldlM_cons, get.trans here, if_true, first, bind, Except.bind, pure,
            Except.pure]
          exact later
        · simp only [List.filter_cons, here, decide_true, if_true, List.map_cons, List.foldl_cons]
          exact final
      · obtain ⟨sub', after, later, final⟩ := more
          (fun j member => bound j (List.mem_cons_of_mem _ member)) wfSub same rel
        refine ⟨sub', after, ?_, ?_⟩
        · simp only [List.foldlM_cons, get, here, if_false, bind, Except.bind, pure, Except.pure]
          exact later
        · simp only [List.filter_cons, here, decide_false]
          exact final

/-- The recursions on schemas are walks over sets of parameters. -/
theorem walk_eq (value : Bool) (simulates : Simulates n enterS R wanted passable) (fuel : Nat) :
    ∀ {s : Schema} (state : σ) (trail : Trail (Finset Nat)), s.Wf n → R state trail →
      height value n s.bits < fuel →
      ∃ after, walk value enterS fuel s state = .ok after ∧
        R after (visit (neighbours value n) wanted passable fuel s.bits trail) := by
  induction fuel with
  | zero =>
      intro s state trail wf related enough
      omega
  | succ fuel ih =>
      intro s state trail wf related enough
      obtain ⟨entered, run, kept⟩ := simulates s state trail wf related
      rw [walk, run, visit]
      by_cases known : s.bits ∈ trail.seen
      · refine ⟨entered, by simp [known, bind, Except.bind, pure, Except.pure], ?_⟩
        rw [arrive, if_pos known] at kept
        rw [if_pos known]
        exact kept
      rw [arrive, if_neg known] at kept
      by_cases open' : passable s.bits = true
      · obtain ⟨sub, after, run, final⟩ := toggle_loop (s := s) value (walk value enterS fuel)
          (visit (neighbours value n) wanted passable fuel)
          (fun i bound here {sub} {state} {trail} wfSub same rel => by
            have child : (s.set i (!value)).bits ∈ neighbours value n s.bits := by
              rw [neighbours_eq]
              exact List.mem_map_of_mem (List.mem_filter.mpr
                ⟨List.mem_range.mpr bound, by simp [here]⟩)
            have lower := neighbours_descend value n s.bits _ child
            rw [← same]
            exact ih state trail wfSub rel (by rw [same]; omega))
          (List.range n) (fun i member => List.mem_range.mp member) wf.copy s.copy_bits kept
        refine ⟨after, ?_, ?_⟩
        · simp only [known, open', bind, Except.bind, decide_false, Bool.not_false, Bool.and_self,
            Bool.not_true, Bool.false_eq_true, if_false,
            show s.getLogicSize = n from wf.logic, pure, Except.pure] at run ⊢
          rw [run]
        · rw [if_neg known, if_pos open', neighbours_eq]
          exact final
      · refine ⟨entered, by simp [open', bind, Except.bind, pure, Except.pure], ?_⟩
        rw [if_neg known, if_neg open']
        exact kept

/-- A walk that is deep enough explores what can be reached from the schema. -/
theorem walk_explored (value : Bool) (simulates : Simulates n enterS R wanted passable) {s : Schema}
    (wf : s.Wf n) (state : σ) (trail : Trail (Finset Nat)) (related : R state trail) {fuel : Nat}
    (enough : n < fuel) :
    ∃ after final, walk value enterS fuel s state = .ok after ∧ R after final ∧
      Explored (neighbours value n) wanted passable [s.bits] trail final := by
  have deep : height value n s.bits < fuel := lt_of_le_of_lt (height_le wf.within) enough
  obtain ⟨after, run, kept⟩ := walk_eq value simulates fuel state trail wf related deep
  exact ⟨after, _, run, kept, visit_explored wanted passable (height value n)
    (neighbours_descend value n) fuel trail deep⟩

end Simulation

/-- A truth table over `n` parameters as the code leaves it. -/
structure Wf (n : Nat) (trt : TRT) : Prop where
  positive : 0 < n
  small : n ≤ 30
  params : trt.num_parameter = n
  words : trt.flag.words = (2 ^ n + 63) / 64
  healthyDown : ∀ S ∈ marks n trt.healthy, ∀ T ⊆ S, T ∈ marks n trt.healthy
  faultyUp : ∀ S ∈ marks n trt.faulty, ∀ T ⊆ Finset.range n,
    S ⊆ T → T ∈ marks n trt.faulty
  empty : ∅ ∈ marks n trt.healthy
  whole : Finset.range n ∈ marks n trt.faulty

/-- A schema with neither mark. -/
def Unmarked (n : Nat) (trt : TRT) (S : Finset Nat) : Prop :=
  S ⊆ Finset.range n ∧ S ∉ marks n trt.healthy ∧ S ∉ marks n trt.faulty

section Marking

variable {n : Nat} {trt : TRT} {s : Schema}

/-- Both marking methods walk from the schema until they meet marks. Bits that are the number of
no schema stay as they are. -/
theorem mark_eq (value : Bool) (marked : TRT → BitSet) (store : TRT → BitSet → TRT)
    (stored : ∀ t b, marked (store t b) = b)
    (again : ∀ t b b', store (store t b) b' = store t b')
    (same : ∀ t, store t (marked t) = t)
    (params : ∀ t b, (store t b).num_parameter = t.num_parameter)
    (small : n ≤ 30) (sized : trt.num_parameter = n) (wfS : s.Wf n) :
    ∃ b out, mark value marked store trt s = .ok (store trt b) ∧
      Explored (neighbours value n) (fun _ => false) (fun _ => true) [s.bits]
        ⟨marks n (marked trt), []⟩ ⟨marks n b, out⟩ ∧
      ∀ i, 2 ^ n ≤ i → (i ∈ b.bits ↔ i ∈ (marked trt).bits) := by
  have simulates : Simulates n (markEntry marked store)
      (fun t trail => ∃ b, t = store trt b ∧ marks n b = trail.seen ∧
        ∀ i, 2 ^ n ≤ i → (i ∈ b.bits ↔ i ∈ (marked trt).bits))
          (fun _ => false) (fun _ => true) := by
    rintro schema _ trail wfX ⟨b, rfl, seen, beyond⟩
    have logic : ¬ schema.getLogicSize ≠ (store trt b).num_parameter := by
      rw [params, sized]
      exact not_not_intro wfX.logic
    rw [markEntry, if_neg logic, index_eq small wfX]
    simp only [bind, Except.bind, stored, get_code wfX.within, seen, decide_eq_true_eq, pure,
      Except.pure]
    by_cases known : schema.bits ∈ trail.seen
    · refine ⟨store trt b, by simp [known], b, rfl, ?_, beyond⟩
      rw [arrive, if_pos known]
      exact seen
    · refine ⟨store trt (b.set (code schema.bits) true), by simp [known, again],
        _, rfl, ?_, ?_⟩
      · rw [marks_set wfX.within, seen, arrive, if_neg known]
        rfl
      · intro i outside
        have number := code_lt wfX.within
        rw [BitSet.set_true_bits, Finset.mem_insert, or_iff_right (by omega)]
        exact beyond i outside
  obtain ⟨_, ⟨nodes, out⟩, run, ⟨b, rfl, seen, beyond⟩, explored⟩ :=
    walk_explored value simulates wfS
      trt ⟨marks n (marked trt), []⟩ ⟨marked trt, (same trt).symm, rfl, fun _ _ => Iff.rfl⟩
      (by rw [depth, sized]; omega : n < trt.depth)
  subst seen
  exact ⟨b, out, run, explored, beyond⟩

/-- Where the healthy marks are closed under subsets, `setHealthy` marks the schema and all its
subsets and nothing else. -/
theorem setHealthy_marks (small : n ≤ 30) (sized : trt.num_parameter = n)
    (down : ∀ S ∈ marks n trt.healthy, ∀ T ⊆ S, T ∈ marks n trt.healthy) (wfS : s.Wf n) :
    ∃ b, trt.setHealthy s = .ok { trt with healthy := b } ∧
      marks n b = marks n trt.healthy ∪ s.bits.powerset ∧
      ∀ i, 2 ^ n ≤ i → (i ∈ b.bits ↔ i ∈ trt.healthy.bits) := by
  obtain ⟨b, out, run, explored, beyond⟩ := mark_eq true healthy
    (fun trt healthy => { trt with healthy }) (fun _ _ => rfl) (fun _ _ _ => rfl)
    (fun _ => rfl) (fun _ _ => rfl) small sized wfS
  refine ⟨b, run, ?_, beyond⟩
  ext T
  rw [Finset.mem_union, Finset.mem_powerset]
  constructor
  · intro inside
    by_cases known : T ∈ marks n trt.healthy
    · exact Or.inl known
    · obtain ⟨x, member, path⟩ := explored.below T inside known
      rw [List.mem_singleton.mp member] at path
      exact Or.inr (removals_below path)
  · rintro (known | below)
    · exact explored.grows known
    · apply explored.reaches_all (fun _ => rfl)
      · intro S known T' child
        obtain ⟨i, _, _, rfl⟩ := mem_removals.mp child
        exact down S known _ (Finset.erase_subset i S)
      · exact Relation.ReflTransGen.mono (fun a b step => step.1) _ _
          (removals_path (P := fun _ => True) wfS.within below fun _ _ _ => trivial)

/-- Where the faulty marks are closed under supersets, `setFaulty` marks the schema and all its
supersets and nothing else. -/
theorem setFaulty_marks (small : n ≤ 30) (sized : trt.num_parameter = n)
    (up : ∀ S ∈ marks n trt.faulty, ∀ T ⊆ Finset.range n,
      S ⊆ T → T ∈ marks n trt.faulty)
    (wfS : s.Wf n) :
    ∃ b, trt.setFaulty s = .ok { trt with faulty := b } ∧
      marks n b = marks n trt.faulty ∪ (Finset.range n).powerset.filter (s.bits ⊆ ·) ∧
      ∀ i, 2 ^ n ≤ i → (i ∈ b.bits ↔ i ∈ trt.faulty.bits) := by
  obtain ⟨b, out, run, explored, beyond⟩ := mark_eq false faulty
    (fun trt faulty => { trt with faulty }) (fun _ _ => rfl) (fun _ _ _ => rfl)
    (fun _ => rfl) (fun _ _ => rfl) small sized wfS
  refine ⟨b, run, ?_, beyond⟩
  ext T
  rw [Finset.mem_union, Finset.mem_filter, Finset.mem_powerset]
  constructor
  · intro inside
    by_cases known : T ∈ marks n trt.faulty
    · exact Or.inl known
    · obtain ⟨x, member, path⟩ := explored.below T inside known
      rw [List.mem_singleton.mp member] at path
      exact Or.inr (additions_above wfS.within path).symm
  · rintro (known | ⟨within, above⟩)
    · exact explored.grows known
    · apply explored.reaches_all (fun _ => rfl)
      · intro S known T' child
        obtain ⟨i, bound, _, rfl⟩ := mem_additions.mp child
        exact up S known _ (Finset.insert_subset (Finset.mem_range.mpr bound)
          (mem_marks.mp known).1) (Finset.subset_insert i S)
      · exact Relation.ReflTransGen.mono (fun a b step => step.1) _ _
          (additions_path (P := fun _ => True) within above fun _ _ _ => trivial)

/-- `setHealthy` marks the schema and all its subsets. -/
theorem setHealthy_eq (wf : trt.Wf n) (wfS : s.Wf n) :
    ∃ after, trt.setHealthy s = .ok after ∧ after.Wf n ∧
      marks n after.healthy = marks n trt.healthy ∪ s.bits.powerset ∧
      after.faulty = trt.faulty := by
  obtain ⟨b, run, marked, _⟩ := setHealthy_marks wf.small wf.params wf.healthyDown wfS
  refine ⟨_, run, ⟨wf.positive, wf.small, wf.params, wf.words, ?_, wf.faultyUp, ?_, wf.whole⟩,
    marked, rfl⟩
  · change ∀ S ∈ marks n b, ∀ T ⊆ S, T ∈ marks n b
    rw [marked]
    intro S inside T sub
    rw [Finset.mem_union, Finset.mem_powerset] at inside ⊢
    exact inside.imp (fun known => wf.healthyDown S known T sub) sub.trans
  · change ∅ ∈ marks n b
    rw [marked]
    exact Finset.mem_union_left _ wf.empty

/-- `setFaulty` marks the schema and all its supersets. -/
theorem setFaulty_eq (wf : trt.Wf n) (wfS : s.Wf n) :
    ∃ after, trt.setFaulty s = .ok after ∧ after.Wf n ∧ after.healthy = trt.healthy ∧
      marks n after.faulty = marks n trt.faulty ∪ (Finset.range n).powerset.filter
        (s.bits ⊆ ·) := by
  obtain ⟨b, run, marked, _⟩ := setFaulty_marks wf.small wf.params wf.faultyUp wfS
  refine ⟨_, run, ⟨wf.positive, wf.small, wf.params, wf.words, wf.healthyDown, ?_, wf.empty,
    ?_⟩, rfl, marked⟩
  · change ∀ S ∈ marks n b, ∀ T ⊆ Finset.range n, S ⊆ T → T ∈ marks n b
    rw [marked]
    intro S inside T within sub
    rw [Finset.mem_union, Finset.mem_filter, Finset.mem_powerset] at inside ⊢
    rcases inside with known | ⟨_, above⟩
    · exact Or.inl (wf.faultyUp S known T within sub)
    · exact Or.inr ⟨within, above.trans sub⟩
  · change Finset.range n ∈ marks n b
    rw [marked]
    exact Finset.mem_union_left _ wf.whole

end Marking

section Queries

variable {n : Nat} {trt : TRT} {s : Schema}

theorem set_words {b : BitSet} {S : Finset Nat} (within : S ⊆ Finset.range n)
    (words : b.words = (2 ^ n + 63) / 64) : (b.set (code S) true).words = b.words := by
  have bound := code_lt within
  change (b.expandTo (code S / 64)).words = b.words
  rw [BitSet.expandTo, if_pos (by omega)]

/-- A node of a query: it is marked as visited, and collected when it is asked for. -/
theorem collectEntry_simulates {isMinimal : Bool} {r : Finset Nat → Finset Nat → Prop}
    [DecidableRel r]
    (one : ∀ {sets : List (Finset Nat)} {set : MonotoneSchemaSet} {s : Schema},
      set.Holds n isMinimal sets → s.Wf n → ∃ after, set.add' s = .ok after ∧
        after.Holds n isMinimal (Antichain.add r s.bits sets).2)
    {skip wanted : TRT → Nat → Bool}
    (skips : ∀ b i, skip { trt with flag := b } i = skip trt i)
    (wants : ∀ b i, wanted { trt with flag := b } i = wanted trt i) (wf : trt.Wf n) :
    Simulates n (collectEntry skip wanted)
      (fun (state : TRT × MonotoneSchemaSet) trail => ∃ b, state.1 = { trt with flag := b } ∧
        b.words = (2 ^ n + 63) / 64 ∧ marks n b = trail.seen ∧
        state.2.Holds n isMinimal (addAll r trail.out []))
      (fun S => !skip trt (code S) && wanted trt (code S))
      (fun S => !skip trt (code S) && !wanted trt (code S)) := by
  rintro schema ⟨t, schemas⟩ trail wfX ⟨b, same, width, seen, holds⟩
  simp only at same holds
  subst same
  rw [collectEntry, index_eq wf.small wfX]
  simp only [bind, Except.bind, get_code wfX.within, seen, decide_eq_true_eq, pure, Except.pure,
    skips, wants]
  by_cases known : schema.bits ∈ trail.seen
  · exact ⟨({ trt with flag := b }, schemas), by simp [known], b, rfl, width, by
      rw [arrive, if_pos known]; exact seen, by rw [arrive, if_pos known]; exact holds⟩
  · have width' := (set_words wfX.within width).trans width
    have seen' : marks n (b.set (code schema.bits) true) = insert schema.bits trail.seen := by
      rw [marks_set wfX.within, seen]
    by_cases skipped : skip trt (code schema.bits) = true
    · refine ⟨({ trt with flag := b.set (code schema.bits) true }, schemas),
        by simp [known, skipped], _, rfl, width', ?_, ?_⟩
      · rw [arrive, if_neg known]
        exact seen'
      · rw [arrive, if_neg known]
        simpa [enter, skipped] using holds
    · by_cases asked : wanted trt (code schema.bits) = true
      · obtain ⟨more, added, kept⟩ := one holds wfX.copy
        rw [Schema.copy_bits] at kept
        refine ⟨({ trt with flag := b.set (code schema.bits) true }, more),
          by simp [known, skipped, asked, added], _, rfl, width', ?_, ?_⟩
        · rw [arrive, if_neg known]
          exact seen'
        · rw [arrive, if_neg known]
          simpa [enter, skipped, asked, addAll_append] using kept
      · refine ⟨({ trt with flag := b.set (code schema.bits) true }, schemas),
          by simp [known, skipped, asked], _, rfl, width', ?_, ?_⟩
        · rw [arrive, if_neg known]
          exact seen'
        · rw [arrive, if_neg known]
          simpa [enter, asked] using holds

/-- The three queries walk from a schema and collect what they ask for; a set of one kind
keeps the extreme ones of it. -/
theorem collect_eq (value : Bool) {isMinimal : Bool} {r : Finset Nat → Finset Nat → Prop}
    [DecidableRel r]
    (one : ∀ {sets : List (Finset Nat)} {set : MonotoneSchemaSet} {s : Schema},
      set.Holds n isMinimal sets → s.Wf n → ∃ after, set.add' s = .ok after ∧
        after.Holds n isMinimal (Antichain.add r s.bits sets).2)
    (skip wanted : TRT → Nat → Bool)
    (skips : ∀ b i, skip { trt with flag := b } i = skip trt i)
    (wants : ∀ b i, wanted { trt with flag := b } i = wanted trt i) (wf : trt.Wf n) (wfS : s.Wf n)
    (flag : BitSet) (words : flag.words = (2 ^ n + 63) / 64) :
    ∃ b out found,
      collect value skip wanted { trt with flag } s (MonotoneSchemaSet.new isMinimal) =
        .ok ({ trt with flag := b }, found) ∧ b.words = (2 ^ n + 63) / 64 ∧
      Explored (neighbours value n) (fun S => !skip trt (code S) && wanted trt (code S))
        (fun S => !skip trt (code S) && !wanted trt (code S)) [s.bits]
        ⟨marks n flag, []⟩ ⟨marks n b, out⟩ ∧
      found.Holds n isMinimal (addAll r out []) := by
  have simulates := collectEntry_simulates one skips wants wf
  obtain ⟨⟨t, found⟩, ⟨nodes, out⟩, run, ⟨b, same, width, seen, holds⟩, explored⟩ :=
    walk_explored value simulates wfS ({ trt with flag }, MonotoneSchemaSet.new isMinimal)
      ⟨marks n flag, []⟩ ⟨flag, rfl, words, rfl, holds_new n isMinimal⟩
      (by rw [depth, wf.params]; omega : n < ({ trt with flag } : TRT).depth)
  simp only at same seen holds
  subst same seen
  exact ⟨b, out, found, run, width, explored, holds⟩

theorem Wf.with_flag (wf : trt.Wf n) {b : BitSet} (words : b.words = (2 ^ n + 63) / 64) :
    ({ trt with flag := b } : TRT).Wf n :=
  ⟨wf.positive, wf.small, wf.params, words, wf.healthyDown, wf.faultyUp, wf.empty, wf.whole⟩

/-- `getTopSchemas` clears the whole flag. -/
theorem marks_cleared {b : BitSet} (words : b.words = (2 ^ n + 63) / 64) :
    marks n (b.setRange 0 b.size false) = ∅ := by
  rw [Finset.eq_empty_iff_forall_notMem]
  intro S member
  rw [mem_marks, BitSet.setRange_false_bits, Finset.mem_sdiff, Finset.mem_Ico, BitSet.size, words]
    at member
  have bound := code_lt member.1
  omega

/-- The other queries leave the last bit of the flag as it was. That is the bit of the whole
test case when the flag has no spare bits, which is from six parameters on. -/
theorem marks_cleared_short (positive : 0 < n) {b : BitSet} (words : b.words = (2 ^ n + 63) / 64) :
    marks n (b.setRange 0 (b.size - 1) false) =
      if 6 ≤ n ∧ Finset.range n ∈ marks n b then {Finset.range n} else ∅ := by
  have spare : 2 ^ n ≤ 64 * ((2 ^ n + 63) / 64) := by omega
  have exact' : 6 ≤ n ↔ 64 * ((2 ^ n + 63) / 64) = 2 ^ n := by
    constructor
    · intro large
      obtain ⟨k, rfl⟩ := Nat.exists_eq_add_of_le large
      rw [Nat.pow_add]
      omega
    · intro same
      by_contra few
      have : n = 1 ∨ n = 2 ∨ n = 3 ∨ n = 4 ∨ n = 5 := by omega
      rcases this with rfl | rfl | rfl | rfl | rfl <;> simp at same
  ext S
  rw [mem_marks, BitSet.setRange_false_bits, Finset.mem_sdiff, Finset.mem_Ico, BitSet.size, words]
  have power := Nat.two_pow_pos n
  constructor
  · rintro ⟨within, set, high⟩
    have bound := code_lt within
    have last : code S = code (Finset.range n) := by
      rw [code_range]
      omega
    have whole : S = Finset.range n := code_injective last
    rw [if_pos ⟨exact'.mpr (by omega), whole ▸ mem_marks.mpr ⟨within, set⟩⟩, whole]
    exact Finset.mem_singleton_self _
  · intro member
    split at member
    · rename_i stale
      rw [Finset.mem_singleton] at member
      subst member
      refine ⟨Finset.Subset.refl _, (mem_marks.mp stale.2).2, ?_⟩
      have size := exact'.mp stale.1
      rw [code_range]
      omega
    · cases member

theorem marks_cleared_short_subset (positive : 0 < n) {b : BitSet}
    (words : b.words = (2 ^ n + 63) / 64) :
    marks n (b.setRange 0 (b.size - 1) false) ⊆ {Finset.range n} := by
  rw [marks_cleared_short positive words]
  split
  · exact Finset.Subset.refl _
  · exact Finset.empty_subset _

end Queries

end TRT

end NoPend
