import NoPend.FaultResolver.FINOVLP
import NoPend.Lib.Relational
import NoPend.Lib.Shrink

set_option autoImplicit false

/- The two ways to locate a combination, the linear scan of `FICFaultResovler` and the
binary search of `FICBSFaultResolver`, find the parameters that one deleting pass needs. Which
parts they check on the way follows from the fixed parameters and from what they find. -/
namespace NoPend

open AbstractFaultResolver Proc

/-- From every state with the configuration of `r` the procedure returns `value`, and it hands
`tests` to `check`. -/
abbrev Executes {α : Type} (r : AbstractFaultResolver) (m : ResolverM α) (value : α)
    (tests : List Testcase) : Prop :=
  Logs (SameConfig r) AbstractFaultResolver.checker Checker.record m value tests

variable {n : Nat} {verdict : Testcase → Bool} {safe : Comb} {t : Testcase}
  {r : AbstractFaultResolver}

/-- The part of `t` on the parameters in `S` fails. -/
def fails (verdict : Testcase → Bool) (safe : Comb) (t : Testcase) (S : Finset Nat) : Bool :=
  !passes verdict safe t S

/-- The parameters that are not fixed, in ascending order. -/
def freeIn (n : Nat) (fixedParameter : Schema) : List Nat :=
  (List.range n).filter (!fixedParameter.get ·)

/-- The parameters that a pass over the free parameters of `t` needs. -/
def located (n : Nat) (verdict : Testcase → Bool) (safe : Comb) (t : Testcase)
    (fixedParameter : Schema) : List Nat :=
  Shrink.needed (fails verdict safe t) (Finset.range n) (freeIn n fixedParameter)

theorem mem_freeIn {fixedParameter : Schema} {i : Nat} :
    i ∈ freeIn n fixedParameter ↔ i < n ∧ i ∉ fixedParameter.bits := by
  simp [freeIn]

theorem freeIn_nodup (fixedParameter : Schema) : (freeIn n fixedParameter).Nodup :=
  List.nodup_range.filter _

theorem freeIn_sorted (fixedParameter : Schema) : (freeIn n fixedParameter).Pairwise (· < ·) :=
  List.pairwise_lt_range.filter _

theorem freeIn_eq (fixedParameter : Schema) :
    freeIn n fixedParameter = (List.range n).filter (· ∉ fixedParameter.bits) := by
  refine List.filter_congr fun i _ => ?_
  rw [Bool.eq_iff_iff]
  simp

/-- The `MutableComb` with the values of `t` on the parameters in `S`. -/
def mutablePart (t : Testcase) (S : Finset Nat) : Comb :=
    ⟨.mutableComb, (t.restrict S).elements⟩

theorem ofComb_mutablePart (binary : t.Binary n) :
    MutableComb.ofComb t = .ok (mutablePart t (Finset.range n)) := by
  have whole : t.elements = (t.restrict (Finset.range n)).elements := by
    have same : t.copy = t.restrict (Finset.range n) := by
      refine Comb.ext rfl (by rw [Comb.restrict_size]; rfl) fun i inside => ?_
      have bound : i < n := binary.size ▸ inside
      rw [Comb.restrict_val, if_pos (Finset.mem_range.mpr bound)]
      rfl
    rw [← same]
    rfl
  rw [mutablePart, ← whole]
  apply Comb.validated_ok
  intro v member
  obtain ⟨i, bound, rfl⟩ := List.getElem_of_mem member
  have value : t.val i = t.elements[i] := by
    simp [Comb.val, List.getD_eq_getElem?_getD, List.getElem?_eq_getElem bound]
  rw [← value]
  rcases binary.values i (binary.size ▸ bound) with zero | one
  · omega
  · omega

theorem mutablePart_clear (binary : t.Binary n) (S : Finset Nat) {i : Nat} (inside : i < n) :
    (mutablePart t S).set i Comb.UNKNOWN = .ok (mutablePart t (S.erase i)) :=
  Comb.set_restrict_erase _ S (binary.size ▸ inside)

theorem mutablePart_restore (binary : t.Binary n) (S : Finset Nat) {i : Nat} (inside : i < n) :
    (mutablePart t S).set i (t.val i) = .ok (mutablePart t (insert i S)) :=
  Comb.set_restrict_insert _ S (binary.size ▸ inside)

theorem check_executes {t : Testcase} {healthy : Bool}
    (answer : r.checker.verdict t = .ok healthy) : Executes r (check t) healthy [t] := by
  intro before same
  refine ⟨_, check_of_verdict (by rw [same.verdict, answer]), same.trans ?_, rfl⟩
  exact ⟨rfl, rfl, rfl, rfl, rfl, rfl⟩

/-- A check of a part only depends on the part. -/
theorem check_mutablePart_executes (ready : r.Ready n verdict safe) (binary : t.Binary n)
    (S : Finset Nat) :
    Executes r (check_with_safevalues (mutablePart t S) t) (passes verdict safe t S)
      [paddedPart safe t S] :=
  fun _ same => ⟨_, check_part_runs (ready.of_sameConfig same) binary rfl,
    same.trans (probe_sameConfig S), probe_checker S⟩

theorem check_mutablePart (ready : r.Ready n verdict safe) (binary : t.Binary n) (S : Finset Nat) :
    Settles (SameConfig r) (check_with_safevalues (mutablePart t S) t) (passes verdict safe t S) :=
  (check_mutablePart_executes ready binary S).settles

namespace FICFaultResovler

/-- The parameters that the scan has cleared at each of its checks, if those in `F` are fixed
and it finds that those in `M` have to stay. -/
def clearedSets (n : Nat) (F M : Finset Nat) : List (Finset Nat) :=
  ((List.range n).filter (· ∉ F)).map fun i => insert i (Finset.range i \ (F ∪ M))

/-- What one round of the scan does to the parameters that are left and to those kept. -/
theorem locateStep_executes (ready : r.Ready n verdict safe) (binary : t.Binary n)
    (fixedParameter MFS : Schema) {S : Finset Nat} {i : Nat} (inside : i < n) (there : i ∈ S) :
    Executes r (locateStep t fixedParameter (mutablePart t S, MFS) i)
      (if fixedParameter.get i then (mutablePart t S, MFS)
      else if fails verdict safe t (S.erase i) then (mutablePart t (S.erase i), MFS)
      else (mutablePart t S, MFS.set i true))
      (if fixedParameter.get i then [] else [paddedPart safe t (S.erase i)]) := by
  unfold locateStep
  by_cases fixed : fixedParameter.get i = true
  · simp only [fixed, Bool.not_true, if_true]
    exact Logs.ret _
  · simp only [fixed, Bool.not_false, if_true]
    refine Logs.of_ok_bind (mutablePart_clear binary S inside)
      ((check_mutablePart_executes ready binary (S.erase i)).bind_quiet ?_)
    cases verdictOf : passes verdict safe t (S.erase i) with
    | false => simpa [fails, verdictOf] using Logs.ret _
    | true =>
        have back := mutablePart_restore binary (S.erase i) inside
        rw [Finset.insert_erase there] at back
        simp only [fails, verdictOf, if_true, Bool.not_true]
        exact Logs.of_ok_bind (Comb.get_eq_val (binary.size ▸ inside))
          (Logs.of_ok_bind back (Logs.ret _))

theorem scan_executes (ready : r.Ready n verdict safe) (binary : t.Binary n)
    (fixedParameter : Schema) {indices : List Nat} (nodup : indices.Nodup) {S : Finset Nat}
    (within : ∀ i ∈ indices, i < n ∧ i ∈ S) (MFS : Schema) :
    ∃ comb after, Executes r
        (indices.foldlM (locateStep t fixedParameter) (mutablePart t S, MFS)) (comb, after)
        ((Shrink.trials (fails verdict safe t) S (indices.filter (!fixedParameter.get ·))).map
          (paddedPart safe t)) ∧
      after.logic_size = MFS.logic_size ∧
      after.bits = MFS.bits ∪ (Shrink.needed (fails verdict safe t) S
        (indices.filter (!fixedParameter.get ·))).toFinset := by
  induction indices generalizing S MFS with
  | nil => exact ⟨mutablePart t S, MFS, Logs.ret _, rfl, by simp [Shrink.needed]⟩
  | cons i rest ih =>
      obtain ⟨once, nodup⟩ := List.nodup_cons.mp nodup
      obtain ⟨inside, there⟩ := within i (by simp)
      have later : ∀ j ∈ rest, j < n ∧ j ∈ S := fun j member => within j (by simp [member])
      have step := locateStep_executes ready binary fixedParameter MFS inside there
      rw [List.foldlM_cons]
      by_cases fixed : fixedParameter.get i = true
      · rw [if_pos fixed, if_pos fixed] at step
        obtain ⟨comb, after, more, logic, bits⟩ := ih nodup later MFS
        rw [List.filter_cons, if_neg (by simp [fixed])]
        exact ⟨comb, after, step.bind more, logic, bits⟩
      · rw [if_neg fixed, if_neg fixed] at step
        rw [List.filter_cons, if_pos (by simp [fixed]), Shrink.needed, Shrink.trials]
        by_cases drop : fails verdict safe t (S.erase i) = true
        · rw [if_pos drop] at step ⊢
          obtain ⟨comb, after, more, logic, bits⟩ := ih nodup (fun j member =>
            ⟨(later j member).1, Finset.mem_erase.mpr
              ⟨ne_of_mem_of_not_mem member once, (later j member).2⟩⟩) MFS
          rw [if_pos drop]
          exact ⟨comb, after, step.bind more, logic, bits⟩
        · rw [if_neg drop] at step ⊢
          obtain ⟨comb, after, more, logic, bits⟩ := ih nodup later (MFS.set i true)
          rw [if_neg drop]
          refine ⟨comb, after, step.bind more, logic, ?_⟩
          rw [bits, Schema.set_true_bits, List.toFinset_cons, Finset.union_insert,
            Finset.insert_union]

/-- The sets that are left at the checks of the scan. -/
theorem trials_clearedSets (bad : Finset Nat → Bool) (fixedParameter : Schema) :
    Shrink.trials bad (Finset.range n) (freeIn n fixedParameter) =
      (clearedSets n fixedParameter.bits
        (Shrink.needed bad (Finset.range n) (freeIn n fixedParameter)).toFinset).map
          (Finset.range n \ ·) := by
  rw [Shrink.trials_eq (freeIn_sorted fixedParameter), clearedSets, ← freeIn_eq, List.map_map]
  refine List.map_congr_left fun i free => congrArg _ (Finset.ext fun k => ?_)
  have bound := (mem_freeIn.mp free).1
  simp only [Shrink.mem_cleared, mem_freeIn, Finset.mem_insert, Finset.mem_sdiff, Finset.mem_range,
    Finset.mem_union, List.mem_toFinset, not_or]
  refine or_congr_right ⟨?_, ?_⟩
  · rintro ⟨⟨_, fixed⟩, before, stays⟩
    exact ⟨before, fixed, stays⟩
  · rintro ⟨before, fixed, stays⟩
    exact ⟨⟨before.trans bound, fixed⟩, before, stays⟩

/-- The linear scan locates the parameters that one pass needs. -/
theorem locateOneMFC_executes (ready : r.Ready n verdict safe) (binary : t.Binary n)
    (fixedParameter : Schema) :
    Executes r (locateOneMFC t fixedParameter)
      (t.restrict (located n verdict safe t fixedParameter).toFinset)
      ((clearedSets n fixedParameter.bits (located n verdict safe t fixedParameter).toFinset).map
        fun C => paddedPart safe t (Finset.range n \ C)) := by
  obtain ⟨comb, MFS, scan, logic, bits⟩ := scan_executes ready binary fixedParameter
    List.nodup_range (fun i member => ⟨List.mem_range.mp member,
      Finset.mem_range.mpr (List.mem_range.mp member)⟩) (Schema.ofSize n)
  have sets := trials_clearedSets (n := n) (fails verdict safe t) fixedParameter
  rw [freeIn] at sets
  rw [sets, List.map_map] at scan
  unfold locateOneMFC
  rw [binary.size]
  refine Logs.of_ok_bind (ofComb_mutablePart binary) (scan.bind_quiet ?_)
  have value := Schema.getComb_eq (logic.trans (Schema.ofSize_logic n)) binary.size
  rw [bits, Schema.ofSize_bits, Finset.empty_union] at value
  exact Logs.of_ok value

end FICFaultResovler

namespace FICBSFaultResolver

/-- The indices from `left` on and before `behind` that a binary search for `cut` looks at. -/
def middles (cut : Nat) : Nat → Nat → Nat → List Nat
  | 0, _, _ => []
  | fuel + 1, left, behind =>
      if left < behind then
        let mid := left + (behind - 1 - left) / 2
        mid :: if cut ≤ mid then middles cut fuel left mid else middles cut fuel (mid + 1) behind
      else []

/-- The free parameters that are cleared at the checks of one round after the other, each of
which locates the first one that has to stay. -/
def clearedFrom (stay : Finset Nat) : Nat → List Nat → List (List Nat)
  | 0, _ => []
  | fuel + 1, freeParameters =>
      let cut := freeParameters.findIdx (· ∈ stay)
      (middles cut freeParameters.length 0 freeParameters.length).map
          (fun mid => freeParameters.take (mid + 1)) ++
        if cut < freeParameters.length then clearedFrom stay fuel (freeParameters.eraseIdx cut)
        else []

/-- The parameters that are cleared at each of the checks, if those in `F` are fixed and the
search finds that those in `M` have to stay. -/
def clearedSets (n : Nat) (F M : Finset Nat) : List (Finset Nat) :=
  let freeParameters := (List.range n).filter (· ∉ F)
  (clearedFrom M (freeParameters.length + 1) freeParameters).map List.toFinset

theorem sdiff_take_succ {whole : Finset Nat} {items : List Nat} {k : Nat}
    (here : k < items.length) :
    whole \ (items.take (k + 1)).toFinset = (whole \ (items.take k).toFinset).erase items[k] := by
  ext j
  simp only [List.take_add_one, List.getElem?_eq_getElem here, Option.toList_some,
    List.toFinset_append, List.toFinset_cons, List.toFinset_nil, Finset.mem_erase,
    Finset.mem_sdiff, Finset.mem_union, Finset.mem_insert, Finset.notMem_empty, or_false]
  tauto

theorem clearUpTo_eq (binary : t.Binary n) {freeParameters : List Nat}
    (within : ∀ i ∈ freeParameters, i < n) {mid : Int} (low : 0 ≤ mid)
    (high : mid < freeParameters.length) :
    clearUpTo t freeParameters mid =
      .ok (mutablePart t (Finset.range n \ (freeParameters.take (mid + 1).toNat).toFinset)) := by
  have loop : ∀ k ≤ freeParameters.length,
      (List.range k).foldlM (fun comb (i : Nat) => do
        comb.set (← listGet freeParameters i) Comb.UNKNOWN) (mutablePart t (Finset.range n)) =
      Except.ok (mutablePart t (Finset.range n \ (freeParameters.take k).toFinset)) := by
    intro k bound
    induction k with
    | zero => simp [pure, Except.pure]
    | succ k ih =>
        have here : k < freeParameters.length := bound
        rw [List.range_succ, List.foldlM_append, ih (by omega), sdiff_take_succ here]
        simp only [List.foldlM_cons, List.foldlM_nil, bind, Except.bind, listGet_ofNat here,
          mutablePart_clear binary _ (within _ (List.getElem_mem here)), pure, Except.pure]
  rw [clearUpTo, ofComb_mutablePart binary]
  exact loop (mid + 1).toNat (by omega)

/-- What the search returns when `place` is the first index at which the test case passes. -/
def answer (length place : Nat) : Int := if place = length then -1 else place

/-- The part that is left when the free parameters up to index `mid` are cleared. -/
def leftAt (n : Nat) (freeParameters : List Nat) (mid : Nat) : Finset Nat :=
  Finset.range n \ (freeParameters.take (mid + 1)).toFinset

theorem searchRound_executes (ready : r.Ready n verdict safe) (binary : t.Binary n)
    {freeParameters : List Nat} (within : ∀ i ∈ freeParameters, i < n) {left behind mid : Nat}
    (more : left < behind) (bound : behind ≤ freeParameters.length)
    (middle : mid = left + (behind - 1 - left) / 2) (ans : Int) :
    Executes r (searchRound t freeParameters (left, (behind : Int) - 1, ans))
      (.inl (if passes verdict safe t (leftAt n freeParameters mid) then
        (left, (mid : Int) - 1, mid) else ((mid + 1 : Nat), (behind : Int) - 1, ans)))
      [paddedPart safe t (leftAt n freeParameters mid)] := by
  have between : (left : Int) + ((behind : Int) - 1 - left) / 2 = mid := by omega
  have cleared := clearUpTo_eq binary within (show (0 : Int) ≤ mid by omega)
    (show (mid : Int) < freeParameters.length by omega)
  rw [show ((mid : Int) + 1).toNat = mid + 1 by omega] at cleared
  unfold searchRound
  simp only [if_pos (show (left : Int) ≤ (behind : Int) - 1 by omega), between]
  refine Logs.of_ok_bind cleared ((check_mutablePart_executes ready binary _).bind_quiet ?_)
  rw [leftAt]
  split
  · exact Logs.ret _
  · exact Logs.ret _

theorem searchRound_leaves {freeParameters : List Nat} {left behind : Nat}
    (crossed : behind ≤ left) (ans : Int) :
    Executes r (searchRound t freeParameters (left, (behind : Int) - 1, ans)) (.inr ans) [] := by
  unfold searchRound
  simp only [if_neg (show ¬ (left : Int) ≤ (behind : Int) - 1 by omega)]
  exact Logs.ret _

/-- If the test case passes from index `cut` on, this is the index that the search finds. -/
theorem search_executes (ready : r.Ready n verdict safe) (binary : t.Binary n)
    {freeParameters : List Nat} (within : ∀ i ∈ freeParameters, i < n) {cut : Nat}
    (decides : ∀ mid < freeParameters.length,
      passes verdict safe t (leftAt n freeParameters mid) = decide (cut ≤ mid))
    {fuel left behind : Nat} (low : left ≤ cut) (high : cut ≤ behind)
    (bound : behind ≤ freeParameters.length) (enough : behind - left ≤ fuel) :
    Executes r (iterate .outOfFuel (searchRound t freeParameters) (fuel + 1)
        (left, (behind : Int) - 1, answer freeParameters.length behind))
      (answer freeParameters.length cut)
      ((middles cut fuel left behind).map fun mid =>
        paddedPart safe t (leftAt n freeParameters mid)) := by
  induction fuel generalizing left behind with
  | zero =>
      obtain rfl : behind = left := by omega
      obtain rfl : cut = behind := by omega
      exact (searchRound_leaves (le_refl _) _).bind_quiet (Logs.ret _)
  | succ fuel ih =>
      by_cases more : left < behind
      · rw [middles, if_pos more]
        have round := searchRound_executes ready binary within more bound rfl
          (answer freeParameters.length behind)
        have inside : left + (behind - 1 - left) / 2 < behind := by omega
        have above : left ≤ left + (behind - 1 - left) / 2 := by omega
        simp only
        generalize left + (behind - 1 - left) / 2 = mid at round inside above ⊢
        rw [decides mid (by omega)] at round
        by_cases reached : cut ≤ mid
        · rw [if_pos (by simpa using reached)] at round
          rw [if_pos reached]
          have rest := ih low reached (by omega) (by omega)
          rw [answer, if_neg (by omega)] at rest
          exact round.bind rest
        · rw [if_neg (by simpa using reached)] at round
          rw [if_neg reached]
          exact round.bind (ih (by omega) high bound (by omega))
      · obtain rfl : behind = left := by omega
        obtain rfl : cut = behind := by omega
        rw [middles, if_neg more]
        exact (searchRound_leaves (le_refl _) _).bind_quiet (Logs.ret _)

/-- The free parameters of a round: all that need not stay, and what is left of those that
have to. -/
structure Remaining (n : Nat) (F M : Finset Nat) (freeParameters : List Nat) : Prop where
  sorted : freeParameters.Pairwise (· < ·)
  within : ∀ i ∈ freeParameters, i < n ∧ i ∉ F
  droppable : ∀ i < n, i ∉ F → i ∉ M → i ∈ freeParameters

theorem Remaining.eraseIdx {F M : Finset Nat} {freeParameters : List Nat}
    (remaining : Remaining n F M freeParameters) {k : Nat} (bound : k < freeParameters.length)
    (stays : freeParameters[k] ∈ M) : Remaining n F M (freeParameters.eraseIdx k) where
  sorted := remaining.sorted.sublist (List.eraseIdx_sublist _ _)
  within i member := remaining.within i ((List.eraseIdx_sublist _ _).subset member)
  droppable i inside free goes := by
    rw [List.mem_eraseIdx_iff_getElem]
    obtain ⟨j, here, same⟩ := List.getElem_of_mem (remaining.droppable i inside free goes)
    refine ⟨j, here, ?_, same⟩
    rintro rfl
    exact goes (same ▸ stays)

/-- What comes before a member of a prefix of an ascending list is in the prefix. -/
theorem mem_take_of_lt {items : List Nat} (sorted : items.Pairwise (· < ·)) {k x y : Nat}
    (member : x ∈ items.take k) (here : y ∈ items) (less : y < x) : y ∈ items.take k := by
  rw [← List.take_append_drop k items] at sorted here
  rcases List.mem_append.mp here with first | second
  · exact first
  · have order := (List.pairwise_append.mp sorted).2.2 x member y second
    omega

/-- A part without some of the first free parameters fails for as long as none of these is one
that has to stay. -/
def Cuts (n : Nat) (verdict : Testcase → Bool) (safe : Comb) (t : Testcase) (F M : Finset Nat) :
    Prop :=
  ∀ freeParameters, Remaining n F M freeParameters → ∀ k,
    (fails verdict safe t (Finset.range n \ (freeParameters.take k).toFinset) = true ↔
      ∀ i ∈ freeParameters.take k, i ∉ M)

theorem cuts_located {fixedParameter : Schema}
    (mono : ∀ S T, S ⊆ T → fails verdict safe t S = true → fails verdict safe t T = true)
    (failing : fails verdict safe t (Finset.range n) = true) :
    Cuts n verdict safe t fixedParameter.bits
      (located n verdict safe t fixedParameter).toFinset := by
  intro freeParameters remaining k
  have whole : ∀ i ∈ freeIn n fixedParameter, i ∈ Finset.range n :=
    fun i member => Finset.mem_range.mpr (mem_freeIn.mp member).1
  constructor
  · intro worse i member stays
    rw [located, List.mem_toFinset] at stays
    -- what is cleared when the pass tries `i` is cleared here, too
    refine (Shrink.mem_needed_iff (freeIn_sorted fixedParameter)
      ((Shrink.needed_sublist _).subset stays)).mp stays (mono _ _ ?_ worse)
    refine Finset.sdiff_subset_sdiff (Finset.Subset.refl _) fun j cleared => ?_
    rw [List.mem_toFinset]
    rcases Shrink.mem_cleared.mp cleared with rfl | ⟨free, before, goes⟩
    · exact member
    · obtain ⟨inside, notFixed⟩ := mem_freeIn.mp free
      exact mem_take_of_lt remaining.sorted member
        (remaining.droppable j inside notFixed (by rwa [located, List.mem_toFinset])) before
  · intro free
    refine mono _ _ ?_ (Shrink.bad_left (freeIn_nodup fixedParameter) whole failing)
    intro i left
    refine Finset.mem_sdiff.mpr ⟨Shrink.left_subset whole left, fun cleared => ?_⟩
    rw [List.mem_toFinset] at cleared
    have here := remaining.within i ((List.take_subset _ _) cleared)
    rcases Finset.mem_union.mp left with outside | stays
    · exact (Finset.mem_sdiff.mp outside).2 (List.mem_toFinset.mpr (mem_freeIn.mpr here))
    · exact free i cleared stays

/-- Taking out the first of the items with a property leaves the others. -/
theorem filter_eq_cons_eraseIdx {p : Nat → Bool} {items : List Nat}
    (bound : items.findIdx p < items.length) :
    items.filter p =
      items[items.findIdx p] :: (items.eraseIdx (items.findIdx p)).filter p := by
  induction items with
  | nil => simp at bound
  | cons x rest ih =>
      by_cases here : p x = true
      · simp [List.findIdx_cons, here]
      · simp only [List.findIdx_cons, here, cond_false, List.length_cons] at bound ⊢
        rw [List.filter_cons, if_neg here, ih (by omega)]
        simp [here]

section Rounds

variable {F M : Finset Nat} {freeParameters : List Nat} (cuts : Cuts n verdict safe t F M)
  (remaining : Remaining n F M freeParameters)

include cuts remaining

theorem passes_findIdx {mid : Nat} (inside : mid < freeParameters.length) :
    passes verdict safe t (leftAt n freeParameters mid) =
      decide (freeParameters.findIdx (· ∈ M) ≤ mid) := by
  have exactly := cuts freeParameters remaining (mid + 1)
  rw [← leftAt, fails, Bool.not_eq_true'] at exactly
  rw [Bool.eq_iff_iff, decide_eq_true_eq, ← not_iff_not, Bool.not_eq_true, exactly, Nat.not_le]
  constructor
  · intro free
    refine List.lt_findIdx_of_not inside fun j before => ?_
    simpa using free freeParameters[j] (List.mem_take_iff_getElem.mpr ⟨j, by omega, rfl⟩)
  · intro before i member
    obtain ⟨j, less, rfl⟩ := List.mem_take_iff_getElem.mp member
    have early : j < freeParameters.findIdx (· ∈ M) := by omega
    simpa using List.not_of_lt_findIdx early

/-- One round searches for the first parameter that has to stay. -/
theorem locateOneFixedParameter_executes (ready : r.Ready n verdict safe) (binary : t.Binary n) :
    Executes r (locateOneFixedParameter t freeParameters)
      (answer freeParameters.length (freeParameters.findIdx (· ∈ M)))
      ((middles (freeParameters.findIdx (· ∈ M)) freeParameters.length 0
        freeParameters.length).map fun mid => paddedPart safe t (leftAt n freeParameters mid)) := by
  have search := search_executes ready binary (fun i member => (remaining.within i member).1)
    (fun mid inside => passes_findIdx cuts remaining inside) (Nat.zero_le _)
    List.findIdx_le_length (le_refl _) (Nat.sub_le _ _)
  rw [answer, if_pos rfl] at search
  unfold locateOneFixedParameter
  by_cases none : freeParameters.isEmpty = true
  · rw [if_pos none]
    obtain rfl := List.isEmpty_iff.mp none
    exact Logs.ret _
  · rw [if_neg none]
    exact search

/-- The rounds locate what has to stay, one after the other. -/
theorem locateRounds_execute (ready : r.Ready n verdict safe) (binary : t.Binary n)
    {fuel : Nat} (enough : freeParameters.length < fuel) (found : List Nat) :
    Executes r (iterate .outOfFuel (FINOVLPFaultResolver.locateRound locateOneFixedParameter t) fuel
        (freeParameters, found))
      (found ++ freeParameters.filter (· ∈ M))
      ((clearedFrom M fuel freeParameters).map
        fun cleared => paddedPart safe t (Finset.range n \ cleared.toFinset)) := by
  induction fuel generalizing freeParameters found with
  | zero => omega
  | succ fuel ih =>
      have search := locateOneFixedParameter_executes cuts remaining ready binary
      rw [clearedFrom, List.map_append, List.map_map]
      by_cases more : freeParameters.findIdx (· ∈ M) < freeParameters.length
      · have split := filter_eq_cons_eraseIdx more
        have stays : freeParameters[freeParameters.findIdx (· ∈ M)] ∈ M := by
          simpa using List.findIdx_getElem (w := more)
        rw [answer, if_neg (by omega)] at search
        rw [if_pos more]
        generalize freeParameters.findIdx (· ∈ M) = cut at search more split stays ⊢
        have rest := ih (remaining.eraseIdx more stays)
          (by rw [List.length_eraseIdx_of_lt more]; omega) (found ++ [freeParameters[cut]])
        rw [List.append_assoc, List.singleton_append, ← split] at rest
        have round : Executes r (FINOVLPFaultResolver.locateRound locateOneFixedParameter t
            (freeParameters, found))
            (.inl (freeParameters.eraseIdx cut, found ++ [freeParameters[cut]]))
            ((middles cut freeParameters.length 0 freeParameters.length).map
              fun mid => paddedPart safe t (leftAt n freeParameters mid)) := by
          refine search.bind_quiet ?_
          rw [if_neg (by omega)]
          exact Logs.of_ok_bind (listGet_ofNat more) (Logs.ret _)
        exact round.bind rest
      · have last : freeParameters.findIdx (· ∈ M) = freeParameters.length :=
          le_antisymm List.findIdx_le_length (Nat.not_lt.mp more)
        have none : freeParameters.filter (· ∈ M) = [] := by
          rw [List.filter_eq_nil_iff]
          intro i member
          simpa using List.findIdx_eq_length.mp last i member
        rw [answer, if_pos last] at search
        rw [if_neg more, none, List.append_nil, List.map_nil, List.append_nil]
        have round : Executes r (FINOVLPFaultResolver.locateRound locateOneFixedParameter t
            (freeParameters, found)) (.inr found)
            ((middles (freeParameters.findIdx (· ∈ M)) freeParameters.length 0
              freeParameters.length).map fun mid =>
                paddedPart safe t (leftAt n freeParameters mid)) :=
          search.bind_quiet (Logs.ret _)
        exact round.bind_quiet (Logs.ret _)

end Rounds

/-- If parts above a failing one fail, the binary search locates what the linear scan does. -/
theorem locateOneMFC_executes (ready : r.Ready n verdict safe) (binary : t.Binary n)
    (mono : ∀ S T, S ⊆ T → fails verdict safe t S = true → fails verdict safe t T = true)
    (failing : fails verdict safe t (Finset.range n) = true) {fixedParameter : Schema}
    (logic : fixedParameter.logic_size = n) :
    Executes r (locateOneMFC t fixedParameter)
      (t.restrict (located n verdict safe t fixedParameter).toFinset)
      ((clearedSets n fixedParameter.bits (located n verdict safe t fixedParameter).toFinset).map
        fun C => paddedPart safe t (Finset.range n \ C)) := by
  have free : fixedParameter.complement.getIndices = freeIn n fixedParameter := by
    have size : fixedParameter.complement.getLogicSize = n := logic
    unfold Schema.getIndices freeIn
    rw [size]
    refine List.filter_congr fun i member => ?_
    rw [Bool.eq_iff_iff, Schema.get_eq_true, Schema.complement_bits logic]
    simp [List.mem_range.mp member]
  -- the copy has the values of `t`, and so the same parts
  have binary' : Comb.Binary n ⟨.mutableTestcase, t.elements⟩ :=
    ⟨binary.size, binary.values⟩
  have remaining : Remaining n fixedParameter.bits
      (located n verdict safe t fixedParameter).toFinset (freeIn n fixedParameter) :=
    ⟨freeIn_sorted _, fun i member => mem_freeIn.mp member,
      fun i inside notFixed _ => mem_freeIn.mpr ⟨inside, notFixed⟩⟩
  have rounds := locateRounds_execute (t := ⟨.mutableTestcase, t.elements⟩)
    (cuts_located mono failing) remaining ready binary' (Nat.lt_succ_self _) []
  have kept : ((freeIn n fixedParameter).filter
      (· ∈ (located n verdict safe t fixedParameter).toFinset)).toFinset =
        (located n verdict safe t fixedParameter).toFinset := by
    ext i
    have sub : i ∈ located n verdict safe t fixedParameter → i ∈ freeIn n fixedParameter :=
      fun stays => (Shrink.needed_sublist _).subset stays
    simp only [List.mem_toFinset, List.mem_filter, decide_eq_true_eq]
    exact ⟨fun both => both.2, fun stays => ⟨sub stays, stays⟩⟩
  unfold locateOneMFC FINOVLPFaultResolver.locateOneMFC
  rw [free, clearedSets, ← freeIn_eq, List.map_map]
  refine Logs.of_ok_bind (MutableTestcase.ofComb_eq binary) (rounds.bind_quiet ?_)
  have value := Schema.getComb_eq (s := Schema.ofIndices t.size
    ([] ++ (freeIn n fixedParameter).filter
      (· ∈ (located n verdict safe t fixedParameter).toFinset))) rfl rfl
  rw [Schema.ofIndices_bits, List.nil_append, kept] at value
  exact Logs.of_ok value

end FICBSFaultResolver

end NoPend
