import NoPend.Common.Schema

set_option autoImplicit false

/- Schemas as a client obtains them: any sequence of constructors and operations, the bits
it leaves set, and where the raw bit set and the indices up to the logic size agree. -/
namespace NoPend

namespace BitSet

variable {b : BitSet} {index : Nat}

/-- The storage a bit set has from its construction on. -/
structure Sized (n : Nat) (b : BitSet) : Prop where
  words : b.words = (n + 63) / 64
  sticky : b.sizeIsSticky = true

theorem new_sized (n : Nat) : (new n).Sized n := ⟨rfl, rfl⟩

theorem Sized.expandTo {n : Nat} (sized : b.Sized n) (inside : index < n) :
    b.expandTo (index / 64) = b := by
  have room : index / 64 < b.words := by
    rw [sized.words]
    omega
  rw [BitSet.expandTo, if_pos room]

theorem Sized.set {n : Nat} (sized : b.Sized n) (inside : index < n) (value : Bool) :
    (b.set index value).Sized n := by
  cases value with
  | false => exact ⟨sized.words, sized.sticky⟩
  | true =>
      have kept : b.set index true = { b with bits := insert index b.bits } := by
        change { b.expandTo (index / 64) with bits := insert index b.bits } = _
        rw [sized.expandTo inside]
      rw [kept]
      exact ⟨sized.words, sized.sticky⟩

theorem Sized.assign {n : Nat} {indices : List Nat} (value : Nat → Bool) (sized : b.Sized n)
    (inside : ∀ i ∈ indices, i < n) : (assign indices value b).Sized n :=
  List.foldlRecOn (motive := Sized n) indices _ sized fun _ sized i member =>
    sized.set (inside i member) (value i)

theorem Sized.clone {n : Nat} (sized : b.Sized n) : b.clone = b := by
  rw [BitSet.clone, if_pos sized.sticky]

/-- Bit sets of one storage are determined by their bits. -/
theorem Sized.ext {n : Nat} {a : BitSet} (left : a.Sized n) (right : b.Sized n)
    (same : a.bits = b.bits) : a = b := by
  cases a
  cases b
  simp only [mk.injEq]
  exact ⟨same, left.words.trans right.words.symm, left.sticky.trans right.sticky.symm⟩

/-- A loop that turns over the bit of every listed index, each listed once. -/
theorem mem_turnOver {indices : List Nat} (once : indices.Nodup) {i : Nat} :
    i ∈ (indices.foldl (fun b i => b.set i (!b.get i)) b).bits ↔
      (i ∈ indices ∧ i ∉ b.bits) ∨ (i ∉ indices ∧ i ∈ b.bits) := by
  induction indices generalizing b with
  | nil => simp
  | cons j rest ih =>
      obtain ⟨fresh, once⟩ := List.nodup_cons.mp once
      rw [List.foldl_cons, ih once]
      have turned : i ∈ (b.set j (!b.get j)).bits ↔
          if i = j then i ∉ b.bits else i ∈ b.bits := by
        by_cases here : i = j <;> by_cases there : j ∈ b.bits <;>
          simp [here, there, get_eq_false.mpr, get_eq_true.mpr]
      rw [turned, List.mem_cons]
      by_cases here : i = j
      · subst here
        simp [fresh]
      · simp [here]

end BitSet

namespace Schema

/-- How a client obtains a schema. An object that is updated in place is the updated value
from then on; no two objects share a bit set. -/
inductive Origin where
  | ofSize (size : Nat)
  | ofFlag (size : Nat) (flag : Bool)
  | ofComb (comb : Comb)
  | ofIndices (size : Nat) (indices : List Nat)
  | copy (other : Origin)
  | and (this other : Origin)
  | or (this other : Origin)
  | complement (this : Origin)
  | complementIn (this univ : Origin)
  | set (this : Origin) (index : Nat) (value : Bool)
  | setComplement (this : Origin)

namespace Origin

/-- The calls are made. -/
def schema : Origin → Except Exn Schema
  | ofSize size => .ok (Schema.ofSize size)
  | ofFlag size flag => .ok (Schema.ofFlag size flag)
  | ofComb comb => .ok (Schema.ofComb comb)
  | ofIndices size indices => .ok (Schema.ofIndices size indices)
  | copy other => do return Schema.copy (← other.schema)
  | and this other => do Schema.and (← this.schema) (← other.schema)
  | or this other => do Schema.or (← this.schema) (← other.schema)
  | complement this => do return Schema.complement (← this.schema)
  | complementIn this univ => do Schema.complementIn (← this.schema) (← univ.schema)
  | set this index value => do return Schema.set (← this.schema) index value
  | setComplement this => do return Schema.setComplement (← this.schema)

def logicSize : Origin → Nat
  | ofSize size => size
  | ofFlag size _ => size
  | ofComb comb => comb.size
  | ofIndices size _ => size
  | copy other => other.logicSize
  | and this _ => this.logicSize
  | or this _ => this.logicSize
  | complement this => this.logicSize
  | complementIn this _ => this.logicSize
  | set this _ _ => this.logicSize
  | setComplement this => this.logicSize

/-- Every index that is handed over lies below the logic size. -/
def Inside : Origin → Prop
  | ofSize _ => True
  | ofFlag _ _ => True
  | ofComb _ => True
  | ofIndices size indices => ∀ i ∈ indices, i < size
  | copy other => other.Inside
  | and this other => this.Inside ∧ other.Inside
  | or this other => this.Inside ∧ other.Inside
  | complement this => this.Inside
  | complementIn this univ => this.Inside ∧ univ.Inside
  | set this index _ => this.Inside ∧ index < this.logicSize
  | setComplement this => this.Inside

/-- Every call of `setComplement` finds storage that ends at the logic size. -/
def Whole : Origin → Prop
  | ofSize _ => True
  | ofFlag _ _ => True
  | ofComb _ => True
  | ofIndices _ _ => True
  | copy other => other.Whole
  | and this other => this.Whole ∧ other.Whole
  | or this other => this.Whole ∧ other.Whole
  | complement this => this.Whole
  | complementIn this univ => this.Whole ∧ univ.Whole
  | set this _ _ => this.Whole
  | setComplement this => this.Whole ∧ 64 ∣ this.logicSize

end Origin

/-- A schema whose bits all lie below its logic size, in the storage of its construction. -/
structure Clean (n : Nat) (s : Schema) : Prop extends s.Wf n where
  sized : s.bitset.Sized n

variable {n : Nat} {s other : Schema}

theorem ofSize_clean (n : Nat) : (ofSize n).Clean n := ⟨ofSize_wf n, BitSet.new_sized n⟩

theorem ofFlag_clean (n : Nat) (flag : Bool) : (ofFlag n flag).Clean n := by
  cases flag with
  | false => exact ofSize_clean n
  | true =>
      refine ⟨ofFlag_wf n, ?_⟩
      change ((BitSet.new n).setRange 0 n true).Sized n
      by_cases positive : 0 < n
      · have kept : (BitSet.new n).setRange 0 n true =
            { BitSet.new n with bits := (BitSet.new n).bits ∪ Finset.Ico 0 n } := by
          rw [BitSet.setRange, if_pos rfl, if_pos positive,
            (BitSet.new_sized n).expandTo (by omega)]
        rw [kept]
        exact ⟨rfl, rfl⟩
      · rw [BitSet.setRange, if_pos rfl, if_neg positive]
        exact BitSet.new_sized n

theorem ofComb_clean (comb : Comb) : (ofComb comb).Clean comb.size := by
  refine ⟨ofComb_wf comb, ?_⟩
  apply List.foldlRecOn (motive := BitSet.Sized comb.size) _ _ (BitSet.new_sized comb.size)
  intro b sized i member
  split
  · exact sized.set (List.mem_range.mp member) true
  · exact sized

theorem ofIndices_clean {indices : List Nat} (inside : ∀ i ∈ indices, i < n) :
    (ofIndices n indices).Clean n := by
  refine ⟨⟨rfl, ?_⟩, (BitSet.new_sized n).assign (fun _ => true) inside⟩
  rw [ofIndices_bits]
  intro i member
  exact Finset.mem_range.mpr (inside i (List.mem_toFinset.mp member))

theorem Clean.copy (clean : s.Clean n) : s.copy = s := by
  rw [Schema.copy, clean.sized.clone]

/-- A method that first compares the logic sizes, where it returns. -/
theorem of_guard {r : Schema} {body : Except Exn Schema}
    (run : (if s.getLogicSize ≠ other.getLogicSize then .error sizeMismatch else body) = .ok r) :
    body = .ok r ∧ other.logic_size = s.logic_size := by
  split at run
  · cases run
  · rename_i same
    exact ⟨run, (not_not.mp same).symm⟩

theorem Clean.and {r : Schema} (clean : s.Clean n) (run : s.and other = .ok r) : r.Clean n := by
  obtain ⟨made, _⟩ := of_guard run
  rw [clean.copy] at made
  rw [← Except.ok.inj made]
  have within : s.bits ∩ other.bits ⊆ Finset.range n :=
    Finset.inter_subset_left.trans clean.within
  exact ⟨⟨clean.logic, within⟩, clean.sized.words, clean.sized.sticky⟩

/-- A new bit set that a loop below the logic size fills. -/
theorem assign_clean {indices : List Nat} (value : Nat → Bool)
    (inside : ∀ i ∈ indices, i < n) :
    (⟨BitSet.assign indices value (BitSet.new n), n⟩ : Schema).Clean n := by
  refine ⟨⟨rfl, ?_⟩, (BitSet.new_sized n).assign value inside⟩
  intro i member
  rcases BitSet.mem_assign.mp member with ⟨listed, _⟩ | ⟨_, impossible⟩
  · exact Finset.mem_range.mpr (inside i listed)
  · exact absurd impossible (Finset.notMem_empty i)

theorem Clean.or {r : Schema} (clean : s.Clean n) (run : s.or other = .ok r) : r.Clean n := by
  obtain ⟨made, _⟩ := of_guard run
  rw [getLogicSize, clean.logic] at made
  rw [← Except.ok.inj made]
  exact assign_clean _ fun i member => List.mem_range.mp member

theorem Clean.complement (clean : s.Clean n) : s.complement.Clean n := by
  rw [Schema.complement, getLogicSize, clean.logic]
  exact assign_clean _ fun i member => List.mem_range.mp member

/-- Whenever `complement(universe)` returns. -/
theorem Clean.complementIn {univ r : Schema} (clean : s.Clean n)
    (run : s.complementIn univ = .ok r) : r.Clean n := by
  unfold Schema.complementIn at run
  split at run
  · exact absurd run (by rintro ⟨⟩)
  · obtain ⟨sub, _, run⟩ := Except.bind_ok.mp run
    cases sub with
    | false => exact absurd run (by rintro ⟨⟩)
    | true =>
        rw [← Except.ok.inj run, getLogicSize, clean.logic]
        apply assign_clean
        exact fun i member => List.mem_range.mp (List.mem_filter.mp member).1

theorem Clean.set {index : Nat} (clean : s.Clean n) (inside : index < n) (value : Bool) :
    (s.set index value).Clean n := by
  refine ⟨?_, clean.sized.set inside value⟩
  cases value with
  | false => exact clean.toWf.set_false
  | true => exact clean.toWf.set_true inside

/-- `setComplement` turns over every bit of the storage, also those past the logic size. -/
theorem Clean.setComplement_bits (clean : s.Clean n) :
    s.setComplement.bits = Finset.range (64 * ((n + 63) / 64)) \ s.bits := by
  have below : n ≤ 64 * ((n + 63) / 64) := by omega
  ext i
  change i ∈ BitSet.bits (List.foldl _ _ _) ↔ _
  rw [BitSet.mem_turnOver List.nodup_range, List.mem_range, Finset.mem_sdiff, Finset.mem_range,
    BitSet.size, clean.sized.words]
  constructor
  · rintro (turned | ⟨past, there⟩)
    · exact turned
    · have inside := clean.lt there
      omega
  · exact Or.inl

/-- At a logic size that fills its words, `setComplement` leaves what `complement` returns. -/
theorem Clean.setComplement_eq (clean : s.Clean n) (whole : 64 ∣ n) :
    s.setComplement = s.complement := by
  have full : 64 * ((n + 63) / 64) = n := by omega
  have turned : s.setComplement.bitset.Sized n := by
    apply List.foldlRecOn (motive := BitSet.Sized n) _ _ clean.sized
    intro b sized i member
    apply sized.set
    rw [List.mem_range, BitSet.size, clean.sized.words, full] at member
    exact member
  have same : s.setComplement.bits = s.complement.bits := by
    rw [clean.setComplement_bits, complement_bits clean.logic, full]
  have storage := turned.ext clean.complement.sized same
  have logic : s.setComplement.logic_size = s.complement.logic_size := rfl
  rw [mk.injEq]
  exact ⟨storage, logic⟩

/-- At any other size it leaves a bit that lies past the logic size. -/
theorem Clean.setComplement_past (clean : s.Clean n) (partly : ¬ 64 ∣ n) :
    n ∈ s.setComplement.bits := by
  rw [clean.setComplement_bits, Finset.mem_sdiff, Finset.mem_range]
  refine ⟨by omega, fun inside => ?_⟩
  exact absurd (clean.lt inside) (lt_irrefl n)

theorem Clean.setComplement_iff (clean : s.Clean n) :
    s.setComplement = s.complement ↔ 64 ∣ n := by
  refine ⟨fun same => ?_, clean.setComplement_eq⟩
  by_contra partly
  have past := clean.setComplement_past partly
  rw [same] at past
  exact absurd (clean.complement.lt past) (lt_irrefl n)

theorem logic_of_and {r : Schema} (run : s.and other = .ok r) :
    r.logic_size = s.logic_size ∧ other.logic_size = s.logic_size := by
  obtain ⟨made, same⟩ := of_guard run
  exact ⟨Except.ok.inj made ▸ rfl, same⟩

theorem logic_of_or {r : Schema} (run : s.or other = .ok r) :
    r.logic_size = s.logic_size ∧ other.logic_size = s.logic_size := by
  obtain ⟨made, same⟩ := of_guard run
  exact ⟨Except.ok.inj made ▸ rfl, same⟩

theorem logic_of_complementIn {univ r : Schema} (run : s.complementIn univ = .ok r) :
    r.logic_size = s.logic_size ∧ univ.logic_size = s.logic_size := by
  unfold Schema.complementIn at run
  split at run
  · exact absurd run (by rintro ⟨⟩)
  · rename_i same
    obtain ⟨sub, _, run⟩ := Except.bind_ok.mp run
    cases sub with
    | false => exact absurd run (by rintro ⟨⟩)
    | true => exact ⟨Except.ok.inj run ▸ rfl, (not_not.mp same).symm⟩

/-- A method of two schemas returns one of the logic size that both of them have. -/
theorem Origin.logic_of_two {this other : Origin} {op : Schema → Schema → Except Exn Schema}
    (guarded : ∀ {a b r : Schema}, op a b = .ok r →
      r.logic_size = a.logic_size ∧ b.logic_size = a.logic_size)
    (ihThis : ∀ {a : Schema}, this.schema = .ok a →
      a.logic_size = this.logicSize ∧ (64 ∣ this.logicSize → this.Whole))
    (ihOther : ∀ {b : Schema}, other.schema = .ok b →
      b.logic_size = other.logicSize ∧ (64 ∣ other.logicSize → other.Whole))
    {r : Schema} (run : (do op (← this.schema) (← other.schema)) = .ok r) :
    r.logic_size = this.logicSize ∧ (64 ∣ this.logicSize → this.Whole ∧ other.Whole) := by
  obtain ⟨a, first, run⟩ := Except.bind_ok.mp run
  obtain ⟨b, second, last⟩ := Except.bind_ok.mp run
  obtain ⟨logicA, wholeA⟩ := ihThis first
  obtain ⟨logicB, wholeB⟩ := ihOther second
  obtain ⟨logic, same⟩ := guarded last
  rw [same, logicA] at logicB
  exact ⟨logic.trans logicA, fun full => ⟨wholeA full, wholeB (logicB ▸ full)⟩⟩

/-- The logic size can be read off the calls; where it fills its words for the whole
sequence, it does so for every part of it. -/
theorem Origin.schema_logic (origin : Origin) {s : Schema} (run : origin.schema = .ok s) :
    s.logic_size = origin.logicSize ∧ (64 ∣ origin.logicSize → origin.Whole) := by
  induction origin generalizing s with
  | ofSize size => exact ⟨Except.ok.inj run ▸ rfl, fun _ => trivial⟩
  | ofFlag size flag => exact ⟨Except.ok.inj run ▸ ofFlag_logic size flag, fun _ => trivial⟩
  | ofComb comb => exact ⟨Except.ok.inj run ▸ rfl, fun _ => trivial⟩
  | ofIndices size indices => exact ⟨Except.ok.inj run ▸ rfl, fun _ => trivial⟩
  | copy other ih =>
      obtain ⟨o, first, last⟩ := Except.bind_ok.mp run
      obtain ⟨logic, whole⟩ := ih first
      exact ⟨Except.ok.inj last ▸ logic, whole⟩
  | and this other ihThis ihOther => exact logic_of_two logic_of_and ihThis ihOther run
  | or this other ihThis ihOther => exact logic_of_two logic_of_or ihThis ihOther run
  | complement this ih =>
      obtain ⟨t, first, last⟩ := Except.bind_ok.mp run
      obtain ⟨logic, whole⟩ := ih first
      exact ⟨Except.ok.inj last ▸ logic, whole⟩
  | complementIn this univ ihThis ihUniv =>
      exact logic_of_two logic_of_complementIn ihThis ihUniv run
  | set this index value ih =>
      obtain ⟨t, first, last⟩ := Except.bind_ok.mp run
      obtain ⟨logic, whole⟩ := ih first
      exact ⟨Except.ok.inj last ▸ logic, whole⟩
  | setComplement this ih =>
      obtain ⟨t, first, last⟩ := Except.bind_ok.mp run
      obtain ⟨logic, whole⟩ := ih first
      exact ⟨Except.ok.inj last ▸ logic, fun full => ⟨whole full, full⟩⟩

theorem Origin.clean_of_two {this other : Origin} {op : Schema → Schema → Except Exn Schema}
    (keeps : ∀ {a b r : Schema}, a.Clean n → op a b = .ok r → r.Clean n)
    (ihThis : ∀ {a : Schema}, this.schema = .ok a → a.Clean n) {r : Schema}
    (run : (do op (← this.schema) (← other.schema)) = .ok r) : r.Clean n := by
  obtain ⟨a, first, run⟩ := Except.bind_ok.mp run
  obtain ⟨b, _, last⟩ := Except.bind_ok.mp run
  exact keeps (ihThis first) last

/-- Every sequence of calls that hands over indices below the logic size, and calls
`setComplement` only where it fills its words, leaves no bit past the logic size. -/
theorem Origin.schema_clean (origin : Origin) (inside : origin.Inside) (whole : origin.Whole)
    {s : Schema} (run : origin.schema = .ok s) : s.Clean origin.logicSize := by
  induction origin generalizing s with
  | ofSize size => exact Except.ok.inj run ▸ ofSize_clean size
  | ofFlag size flag => exact Except.ok.inj run ▸ ofFlag_clean size flag
  | ofComb comb => exact Except.ok.inj run ▸ ofComb_clean comb
  | ofIndices size indices => exact Except.ok.inj run ▸ ofIndices_clean inside
  | copy other ih =>
      obtain ⟨o, first, last⟩ := Except.bind_ok.mp run
      have clean := ih inside whole first
      rw [← Except.ok.inj last, clean.copy]
      exact clean
  | and this other ihThis _ => exact clean_of_two Clean.and (ihThis inside.1 whole.1) run
  | or this other ihThis _ => exact clean_of_two Clean.or (ihThis inside.1 whole.1) run
  | complement this ih =>
      obtain ⟨t, first, last⟩ := Except.bind_ok.mp run
      exact Except.ok.inj last ▸ (ih inside whole first).complement
  | complementIn this univ ihThis _ =>
      exact clean_of_two Clean.complementIn (ihThis inside.1 whole.1) run
  | set this index value ih =>
      obtain ⟨t, first, last⟩ := Except.bind_ok.mp run
      exact Except.ok.inj last ▸ (ih inside.1 whole first).set inside.2 value
  | setComplement this ih =>
      obtain ⟨t, first, last⟩ := Except.bind_ok.mp run
      have clean := ih inside whole.1 first
      rw [← Except.ok.inj last, clean.setComplement_eq whole.2]
      exact clean.complement

/-- The schemas of logic size `n` that the allowed sequences of calls return. -/
def Obtained (n : Nat) (allowed : Origin → Prop) (s : Schema) : Prop :=
  ∃ origin : Origin, allowed origin ∧ origin.schema = .ok s ∧ s.getLogicSize = n

theorem Obtained.clean (obtained : s.Obtained n fun origin => origin.Inside ∧ origin.Whole) :
    s.Clean n := by
  obtain ⟨origin, ⟨inside, whole⟩, run, logic⟩ := obtained
  have clean := origin.schema_clean inside whole run
  rw [← clean.logic] at clean
  exact logic ▸ clean

theorem Obtained.whole (obtained : s.Obtained n Origin.Inside) (full : 64 ∣ n) :
    s.Obtained n fun origin => origin.Inside ∧ origin.Whole := by
  obtain ⟨origin, inside, run, logic⟩ := obtained
  obtain ⟨same, whole⟩ := origin.schema_logic run
  refine ⟨origin, ⟨inside, whole ?_⟩, run, logic⟩
  rw [← same, show s.logic_size = n from logic]
  exact full

/-- What a schema and its indices up to the logic size agree on: its bits, equality, size, the
subset test, and the complement within `univ`. -/
structure Agree (n : Nat) (s other univ : Schema) : Prop where
  above : ∀ i, n ≤ i → s.get i = false
  equals : s.equals other = true ↔ s.getIndices = other.getIndices
  size : s.size = s.getIndices.length
  subset : s.isSubsetOf other = .ok (decide (s.getIndices ⊆ other.getIndices))
  involution : s.isSubsetOf univ = .ok true → ∃ c back, s.complementIn univ = .ok c ∧
    c.isSubsetOf univ = .ok true ∧ c.complementIn univ = .ok back ∧ back.equals s = true
  reversing : s.isSubsetOf univ = .ok true → other.isSubsetOf univ = .ok true →
    ∃ c d, s.complementIn univ = .ok c ∧ other.complementIn univ = .ok d ∧
      (s.isSubsetOf other = .ok true ↔ d.isSubsetOf c = .ok true)

theorem Wf.getIndices_subset (wf : s.Wf n) (wfO : other.Wf n) :
    s.getIndices ⊆ other.getIndices ↔ s.bits ⊆ other.bits := by
  rw [← wf.getIndices_toFinset, ← wfO.getIndices_toFinset]
  constructor
  · intro sub i member
    exact List.mem_toFinset.mpr (sub (List.mem_toFinset.mp member))
  · intro sub i member
    exact List.mem_toFinset.mp (sub (List.mem_toFinset.mpr member))

theorem Wf.getIndices_inj (wf : s.Wf n) (wfO : other.Wf n) :
    s.getIndices = other.getIndices ↔ s.bits = other.bits := by
  constructor
  · intro same
    rw [← wf.getIndices_toFinset, same, wfO.getIndices_toFinset]
  · intro same
    rw [getIndices, getIndices, getLogicSize, getLogicSize, wf.logic, wfO.logic]
    apply List.filter_congr
    intro i _
    rw [Bool.eq_iff_iff, get_eq_true, get_eq_true, same]

theorem Wf.size_eq_length (wf : s.Wf n) : s.size = s.getIndices.length := by
  have once : s.getIndices.Nodup := List.nodup_range.filter _
  rw [size_eq, ← wf.getIndices_toFinset, List.toFinset_card_of_nodup once]

theorem Wf.isSubsetOf_iff (wf : s.Wf n) (wfO : other.Wf n) :
    s.isSubsetOf other = .ok true ↔ s.bits ⊆ other.bits := by
  rw [isSubsetOf_eq (wf.logic.trans wfO.logic.symm), Except.ok.injEq, decide_eq_true_eq]

theorem Wf.agree {univ : Schema} (wf : s.Wf n) (wfO : other.Wf n) (wfU : univ.Wf n) :
    Agree n s other univ where
  above := by
    intro i past
    rw [get_eq_false]
    intro there
    exact absurd (wf.lt there) (by omega)
  equals := by rw [wf.getIndices_inj wfO, equals_eq, decide_eq_true_eq]
  size := wf.size_eq_length
  subset := by
    rw [isSubsetOf_eq (wf.logic.trans wfO.logic.symm)]
    simp only [wf.getIndices_subset wfO]
  involution := by
    intro sub
    obtain ⟨c, first, wfC, bitsC⟩ := complementIn_eq wf wfU ((wf.isSubsetOf_iff wfU).mp sub)
    have subC : c.bits ⊆ univ.bits := bitsC ▸ Finset.sdiff_subset
    obtain ⟨back, second, _, bitsBack⟩ := complementIn_eq wfC wfU subC
    refine ⟨c, back, first, (wfC.isSubsetOf_iff wfU).mpr subC, second, ?_⟩
    rw [equals_eq, decide_eq_true_eq, bitsBack, bitsC]
    exact Finset.sdiff_sdiff_eq_self ((wf.isSubsetOf_iff wfU).mp sub)
  reversing := by
    intro sub subO
    rw [wf.isSubsetOf_iff wfU] at sub
    rw [wfO.isSubsetOf_iff wfU] at subO
    obtain ⟨c, first, wfC, bitsC⟩ := complementIn_eq wf wfU sub
    obtain ⟨d, second, wfD, bitsD⟩ := complementIn_eq wfO wfU subO
    refine ⟨c, d, first, second, ?_⟩
    rw [wf.isSubsetOf_iff wfO, wfD.isSubsetOf_iff wfC, bitsC, bitsD]
    exact (Finset.sdiff_subset_sdiff_iff_subset subO sub).symm

/-- The two views of every schema agree, and `setComplement` does what `complement` does, at
exactly the logic sizes that fill their words. Schemas obtained without `setComplement` at any
other size agree whatever their size. -/
theorem obtained_agree_iff (n : Nat) :
    ((∀ s other univ : Schema, s.Obtained n Origin.Inside → other.Obtained n Origin.Inside →
        univ.Obtained n Origin.Inside →
          Agree n s other univ ∧ s.setComplement = s.complement) ↔
      64 ∣ n) ∧
    ∀ s other univ : Schema, s.Obtained n (fun origin => origin.Inside ∧ origin.Whole) →
      other.Obtained n (fun origin => origin.Inside ∧ origin.Whole) →
      univ.Obtained n (fun origin => origin.Inside ∧ origin.Whole) →
      Agree n s other univ ∧ (s.setComplement = s.complement ↔ 64 ∣ n) := by
  have sound : ∀ s other univ : Schema,
      s.Obtained n (fun origin => origin.Inside ∧ origin.Whole) →
      other.Obtained n (fun origin => origin.Inside ∧ origin.Whole) →
      univ.Obtained n (fun origin => origin.Inside ∧ origin.Whole) →
      Agree n s other univ ∧ (s.setComplement = s.complement ↔ 64 ∣ n) := by
    intro s other univ first second third
    have clean := first.clean
    exact ⟨clean.agree second.clean.toWf third.clean.toWf, clean.setComplement_iff⟩
  refine ⟨⟨fun all => ?_, fun full s other univ first second third => ?_⟩, sound⟩
  · have empty : (ofSize n).Obtained n Origin.Inside := ⟨.ofSize n, trivial, rfl, rfl⟩
    exact (ofSize_clean n).setComplement_iff.mp (all _ _ _ empty empty empty).2
  · obtain ⟨agree, same⟩ :=
      sound s other univ (first.whole full) (second.whole full) (third.whole full)
    exact ⟨agree, same.mpr full⟩

/-- The empty schema of one parameter, complemented in place: one index, 64 bits. -/
theorem setComplement_overruns :
    ∃ s : Schema, s.Obtained 1 Origin.Inside ∧ s.get 1 = true ∧ s.getIndices = [0] ∧
      s.size = 64 ∧
      s.equals (ofSize 1).complement = false ∧ s.isSubsetOf (ofFlag 1 true) = .ok false := by
  refine ⟨(ofSize 1).setComplement, ⟨.setComplement (.ofSize 1), trivial, rfl, rfl⟩, ?_⟩
  have bits : (ofSize 1).setComplement.bits = Finset.range 64 := by
    rw [(ofSize_clean 1).setComplement_bits, ofSize_bits, Finset.sdiff_empty]
  refine ⟨?_, ?_, ?_, ?_, ?_⟩
  · rw [get_eq_true, bits]
    decide
  · have zero : (ofSize 1).setComplement.get 0 = true := by
      rw [get_eq_true, bits]
      decide
    change [0].filter _ = [0]
    rw [List.filter_singleton, zero]
    rfl
  · rw [size_eq, bits, Finset.card_range]
  · rw [equals_eq, bits, complement_bits (ofSize_logic 1), ofSize_bits]
    decide
  · have same : (ofSize 1).setComplement.logic_size = (ofFlag 1 true).logic_size := rfl
    rw [isSubsetOf_eq same, bits, ofFlag_true_bits]
    decide

end Schema

end NoPend
