import NoPend.FaultResolver.NoPend

set_option autoImplicit false

/- The loop and the recursion of `identify`, for an arbitrary system under test. -/
namespace NoPend

open Antichain SetFamily AbstractFaultResolver MonotoneSchemaSet

namespace NoPendFaultResolver

/-- Neither family degenerates: the lower one has non-empty sets in `U`, the upper one
proper subsets of `U`, and both have a member. -/
structure Bounded (U : Finset Nat) (low high : List (Finset Nat)) : Prop where
  lowIndependent : Independent (· ⊆ ·) low
  highIndependent : Independent (· ⊇ ·) high
  someLow : low ≠ []
  someHigh : high ≠ []
  lowIn : ∀ f ∈ low, f ⊆ U ∧ f.Nonempty
  highIn : ∀ p ∈ high, p ⊂ U

/-- What `identify` has at the head of its loop. -/
structure Known (n : Nat) (univ : Schema) (CMinF CMaxP : MonotoneSchemaSet) : Prop where
  wf : univ.Wf n
  low : CMinF.Holds n true CMinF.sets
  high : CMaxP.Holds n false CMaxP.sets
  bounded : Bounded univ.bits CMinF.sets CMaxP.sets

section Families

variable {U : Finset Nat} {low high : List (Finset Nat)}

theorem Bounded.addAll (bounded : Bounded U low high) (lows highs : List (Finset Nat))
    (lowIn : ∀ f ∈ lows, f ⊆ U ∧ f.Nonempty) (highIn : ∀ p ∈ highs, p ⊂ U) :
    Bounded U (addAll (· ⊆ ·) lows low) (addAll (· ⊇ ·) highs high) where
  lowIndependent := addAll_independent _ bounded.lowIndependent
  highIndependent := addAll_independent _ bounded.highIndependent
  someLow := addAll_ne_nil _ bounded.lowIndependent (Or.inl bounded.someLow)
  someHigh := addAll_ne_nil _ bounded.highIndependent (Or.inl bounded.someHigh)
  lowIn := fun f member =>
    (mem_of_mem_addAll _ member).elim (bounded.lowIn f) (lowIn f)
  highIn := fun p member =>
    (mem_of_mem_addAll _ member).elim (bounded.highIn p) (highIn p)

/-- The families `identify` starts a recursion with. -/
theorem bounded_start (nonempty : U.Nonempty) : Bounded U [U] [∅] where
  lowIndependent := List.pairwise_singleton _ _
  highIndependent := List.pairwise_singleton _ _
  someLow := List.cons_ne_nil _ _
  someHigh := List.cons_ne_nil _ _
  lowIn := by
    intro f member
    rw [List.mem_singleton.mp member]
    exact ⟨Finset.Subset.refl U, nonempty⟩
  highIn := by
    intro p member
    rw [List.mem_singleton.mp member]
    exact Finset.empty_ssubset.mpr nonempty

/-- On a single parameter nothing is left open. -/
theorem Bounded.settled_of_card_one (bounded : Bounded U low high) (single : U.card = 1) :
    pendingIn U low high = ∅ := by
  obtain ⟨i, rfl⟩ := Finset.card_eq_one.mp single
  obtain ⟨f, inLow⟩ := List.exists_mem_of_ne_nil _ bounded.someLow
  obtain ⟨p, inHigh⟩ := List.exists_mem_of_ne_nil _ bounded.someHigh
  obtain ⟨within, nonempty⟩ := bounded.lowIn f inLow
  have whole : f = {i} := (Finset.subset_singleton_iff.mp within).resolve_left nonempty.ne_empty
  rw [Finset.eq_empty_iff_forall_notMem]
  intro S member
  obtain ⟨inside, notLow, notHigh⟩ := mem_pendingIn.mp member
  rcases Finset.subset_singleton_iff.mp inside with rfl | rfl
  · exact notHigh ⟨p, inHigh, Finset.empty_subset p⟩
  · exact notLow ⟨f, inLow, within⟩

end Families

section FindChain

variable {n : Nat} {univ : Schema} {CMinF CMaxP topSchemas bottomSchemas : MonotoneSchemaSet}
  {U : Finset Nat} {low high : List (Finset Nat)}

/-- The schemas between which the chain is chosen: the borders of the pending region. -/
structure Borders (n : Nat) (U : Finset Nat) (low high : List (Finset Nat))
    (topSchemas bottomSchemas : MonotoneSchemaSet) : Prop where
  wfTop : ∀ s ∈ topSchemas.schemas, s.Wf n
  wfBottom : ∀ s ∈ bottomSchemas.schemas, s.Wf n
  mem_top : ∀ S, S ∈ topSchemas.schemas.map Schema.bits ↔
    ∃ H, Least (· ⊆ ·) (Hits low) H ∧ U \ H = S
  mem_bottom : ∀ S, S ∈ bottomSchemas.schemas.map Schema.bits ↔
    Least (· ⊆ ·) (Hits (high.map (U \ ·))) S

/-- None of the calls that compute the borders throws. -/
theorem borders_eq (known : Known n univ CMinF CMaxP) :
    ∃ complements bottomSchemas hitting topSchemas,
      CMaxP.complementIn univ = .ok complements ∧ complements.getMHS = .ok bottomSchemas ∧
      CMinF.getMHS = .ok hitting ∧ hitting.complementIn univ = .ok topSchemas ∧
      Borders n univ.bits CMinF.sets CMaxP.sets topSchemas bottomSchemas := by
  obtain ⟨wf, low, high, bounded⟩ := known
  obtain ⟨complements, complemented, holdsC⟩ := complementIn_maximal high wf
    (fun p member => (bounded.highIn p member).subset) bounded.highIndependent
  have gaps : ∀ s ∈ CMaxP.sets.map (univ.bits \ ·), s.Nonempty := by
    intro s member
    obtain ⟨p, inHigh, rfl⟩ := List.mem_map.mp member
    exact Finset.sdiff_nonempty.mpr (bounded.highIn p inHigh).2
  obtain ⟨bottoms, bottomSets, hitBottoms, holdsB, _, leastB⟩ := getMHS_eq holdsC
    (by simpa using bounded.someHigh) gaps
  obtain ⟨hitting, hittingSets, hitLow, holdsH, independentH, leastH⟩ := getMHS_eq low
    bounded.someLow (fun f member => (bounded.lowIn f member).2)
  have hittingIn : ∀ H ∈ hittingSets, H ⊆ univ.bits := fun H member =>
    Least.subset_of_hits (fun f member => (bounded.lowIn f member).1) ((leastH H).mp member)
  obtain ⟨tops, topped, holdsT⟩ := complementIn_minimal holdsH wf hittingIn independentH
  refine ⟨complements, bottoms, hitting, tops, complemented, hitBottoms, hitLow, topped,
    holdsT.wf, holdsB.wf, fun S => ?_, fun S => ?_⟩
  · rw [holdsT.bits, List.mem_map]
    exact exists_congr fun H => and_congr_left' (leastH H)
  · rw [holdsB.bits]
    exact leastB S

theorem Borders.someTop (borders : Borders n U low high topSchemas bottomSchemas)
    (bounded : Bounded U low high) : topSchemas.schemas ≠ [] := by
  obtain ⟨H, hits⟩ := exists_hits low fun f member => (bounded.lowIn f member).2
  obtain ⟨K, _, least⟩ := exists_least_below hits
  obtain ⟨top, member, _⟩ := List.mem_map.mp ((borders.mem_top _).mpr ⟨K, least, rfl⟩)
  exact List.ne_nil_of_mem member

theorem Borders.someBottom (borders : Borders n U low high topSchemas bottomSchemas)
    (bounded : Bounded U low high) : bottomSchemas.schemas ≠ [] := by
  have gaps : ∀ s ∈ high.map (U \ ·), s.Nonempty := by
    intro s member
    obtain ⟨p, inHigh, rfl⟩ := List.mem_map.mp member
    exact Finset.sdiff_nonempty.mpr (bounded.highIn p inHigh).2
  obtain ⟨H, hits⟩ := exists_hits _ gaps
  obtain ⟨K, _, least⟩ := exists_least_below hits
  obtain ⟨bottom, member, _⟩ := List.mem_map.mp ((borders.mem_bottom K).mpr least)
  exact List.ne_nil_of_mem member

/-- A pending set lies under a top and over a bottom schema. -/
theorem Borders.around (borders : Borders n U low high topSchemas bottomSchemas)
    (bounded : Bounded U low high) {S : Finset Nat} (inside : S ⊆ U)
    (isPending : Pending low high S) :
    (∃ top ∈ topSchemas.schemas, S ⊆ top.bits) ∧
      ∃ bottom ∈ bottomSchemas.schemas, bottom.bits ⊆ S := by
  obtain ⟨⟨H, leastHit, underTop⟩, B, leastBottom, overBottom⟩ :=
    (pending_iff_borders (fun f member => (bounded.lowIn f member).1) inside).mp isPending
  obtain ⟨top, memberTop, topBits⟩ :=
    List.mem_map.mp ((borders.mem_top _).mpr ⟨H, leastHit, rfl⟩)
  obtain ⟨bottom, memberBottom, bottomBits⟩ :=
    List.mem_map.mp ((borders.mem_bottom B).mpr leastBottom)
  exact ⟨⟨top, memberTop, by rw [topBits]; exact underTop⟩, bottom, memberBottom,
    by rw [bottomBits]; exact overBottom⟩

/-- What lies between a bottom and a top schema is pending, and neither of the two is trivial. -/
theorem Borders.between (borders : Borders n U low high topSchemas bottomSchemas)
    (bounded : Bounded U low high) {max min : Schema} (memberTop : max ∈ topSchemas.schemas)
    (memberBottom : min ∈ bottomSchemas.schemas) :
    min.bits.Nonempty ∧ max.bits ⊂ U ∧
      ∀ S, min.bits ⊆ S → S ⊆ max.bits → Pending low high S := by
  have lowIn : ∀ f ∈ low, f ⊆ U := fun f member => (bounded.lowIn f member).1
  obtain ⟨H, leastHit, topBits⟩ := (borders.mem_top _).mp (List.mem_map_of_mem memberTop)
  have leastBottom := (borders.mem_bottom _).mp (List.mem_map_of_mem memberBottom)
  refine ⟨?_, ?_, ?_⟩
  · obtain ⟨p, inHigh⟩ := List.exists_mem_of_ne_nil _ bounded.someHigh
    obtain ⟨i, _, inMin⟩ := leastBottom.1 _ (List.mem_map_of_mem inHigh)
    exact ⟨i, inMin⟩
  · obtain ⟨f, inLow⟩ := List.exists_mem_of_ne_nil _ bounded.someLow
    obtain ⟨i, inF, inH⟩ := leastHit.1 f inLow
    rw [← topBits]
    exact ⟨Finset.sdiff_subset, fun all =>
      (Finset.mem_sdiff.mp (all (lowIn f inLow inF))).2 inH⟩
  · intro S above below
    rw [← topBits] at below
    exact (pending_iff_borders lowIn (below.trans Finset.sdiff_subset)).mpr
      ⟨⟨H, leastHit, below⟩, min.bits, leastBottom, above⟩

/-- None of the calls that look for a chain throws. There is no chain exactly when nothing
is pending, and everything between the ends of a chain is pending. -/
theorem findChain_eq (known : Known n univ CMinF CMaxP) :
    ∃ complements bottomSchemas hitting topSchemas chain,
      CMaxP.complementIn univ = .ok complements ∧ complements.getMHS = .ok bottomSchemas ∧
      CMinF.getMHS = .ok hitting ∧ hitting.complementIn univ = .ok topSchemas ∧
      getLongestChain topSchemas bottomSchemas = .ok chain ∧
      findChain univ CMinF CMaxP = .ok chain ∧
      match chain with
      | none => pendingIn univ.bits CMinF.sets CMaxP.sets = ∅
      | some (max, min) => max.Wf n ∧ min.Wf n ∧ min.bits ⊆ max.bits ∧ min.bits.Nonempty ∧
          max.bits ⊂ univ.bits ∧
          (∀ S, min.bits ⊆ S → S ⊆ max.bits → Pending CMinF.sets CMaxP.sets S) ∧
          ∀ S T, S ⊆ T → T ⊆ univ.bits → Pending CMinF.sets CMaxP.sets S →
            Pending CMinF.sets CMaxP.sets T →
              T.card + min.bits.card ≤ max.bits.card + S.card := by
  have bounded := known.bounded
  obtain ⟨complements, bottoms, hitting, tops, complemented, hitBottoms, hitLow,
      topped, borders⟩ :=
    borders_eq known
  obtain ⟨chain, longest, spec⟩ := getLongestChain_eq borders.wfTop borders.wfBottom
    (borders.someTop bounded) (borders.someBottom bounded)
  refine ⟨complements, bottoms, hitting, tops, chain, complemented, hitBottoms, hitLow, topped,
    longest, ?_, ?_⟩
  · simp only [findChain, complemented, hitBottoms, hitLow, topped, bind, Except.bind]
    exact longest
  cases chain with
  | none =>
      rw [Finset.eq_empty_iff_forall_notMem]
      intro S member
      obtain ⟨inside, isPending⟩ := mem_pendingIn.mp member
      obtain ⟨⟨top, memberTop, under⟩, bottom, memberBottom, above⟩ :=
        borders.around bounded inside isPending
      exact spec top memberTop bottom memberBottom (above.trans under)
  | some pair =>
      obtain ⟨max, min⟩ := pair
      obtain ⟨memberTop, memberBottom, sub, longestOfAll⟩ := spec
      obtain ⟨someMin, properMax, pending⟩ := borders.between bounded memberTop memberBottom
      refine ⟨borders.wfTop max memberTop, borders.wfBottom min memberBottom, sub,
        someMin, properMax, pending, ?_⟩
      intro S T between inside pendingS pendingT
      obtain ⟨_, bottom, inBottoms, above⟩ :=
        borders.around bounded (between.trans inside) pendingS
      obtain ⟨⟨top, inTops, under⟩, _⟩ := borders.around bounded inside pendingT
      have far := longestOfAll top inTops bottom inBottoms (above.trans (between.trans under))
      have high := Finset.card_le_card under
      have low := Finset.card_le_card above
      omega

end FindChain

section Merge

variable {n : Nat} {set found : MonotoneSchemaSet}

theorem merge_minimal (holds : set.Holds n true set.sets) (wf : ∀ s ∈ found.schemas, s.Wf n) :
    ∃ after, merge set found = .ok after ∧
      after.Holds n true (addAll (· ⊆ ·) found.sets set.sets) :=
  foldlM_add' add'_minimal Except.ok Schema.bits found.schemas
    (fun s member => ⟨s, rfl, wf s member, rfl⟩) holds

theorem merge_maximal (holds : set.Holds n false set.sets) (wf : ∀ s ∈ found.schemas, s.Wf n) :
    ∃ after, merge set found = .ok after ∧
      after.Holds n false (addAll (· ⊇ ·) found.sets set.sets) :=
  foldlM_add' add'_maximal Except.ok Schema.bits found.schemas
    (fun s member => ⟨s, rfl, wf s member, rfl⟩) holds

end Merge

section Fuel

variable {tfail : Testcase}

/-- A round depends on the recursive call only through what that returns. -/
theorem identifyRound_agree
    {recurse recurse' : Schema → MonotoneSchemaSet → MonotoneSchemaSet →
      ResolverM (MonotoneSchemaSet × MonotoneSchemaSet)}
    (agree : ∀ lower CMinF CMaxP r value after, (recurse lower CMinF CMaxP).Runs r value after →
      (recurse' lower CMinF CMaxP).Runs r value after)
    {univ : Schema} {families : MonotoneSchemaSet × MonotoneSchemaSet}
    {r after : AbstractFaultResolver}
    {value : (MonotoneSchemaSet × MonotoneSchemaSet) ⊕ (MonotoneSchemaSet × MonotoneSchemaSet)}
    (runs : (identifyRound recurse univ tfail families).Runs r value after) :
    (identifyRound recurse' univ tfail families).Runs r value after := by
  obtain ⟨CMinF, CMaxP⟩ := families
  obtain ⟨chain, _, found, rest⟩ := Proc.runs_bind.mp runs
  refine found.bind ?_
  cases chain with
  | none => exact rest
  | some pair =>
      obtain ⟨outcome, _, search, rest⟩ := Proc.runs_bind.mp rest
      refine search.bind ?_
      cases outcome with
      | none => exact rest
      | some minfault =>
          obtain ⟨_, _, newLow, rest⟩ := Proc.runs_bind.mp rest
          obtain ⟨_, _, newHigh, rest⟩ := Proc.runs_bind.mp rest
          obtain ⟨_, _, called, rest⟩ := Proc.runs_bind.mp rest
          exact newLow.bind (newHigh.bind ((agree _ _ _ _ _ _ called).bind rest))

/-- The fuel decides whether `identify` returns, not what it returns. -/
theorem identify_more {fuel fuel' : Nat} (more : fuel ≤ fuel') :
    ∀ {univ : Schema} {CMinF CMaxP : MonotoneSchemaSet} {r after : AbstractFaultResolver}
      {value : MonotoneSchemaSet × MonotoneSchemaSet},
      (identify tfail fuel univ CMinF CMaxP).Runs r value after →
      (identify tfail fuel' univ CMinF CMaxP).Runs r value after := by
  induction fuel generalizing fuel' with
  | zero =>
      intro univ CMinF CMaxP r after value runs
      exact absurd runs Proc.runs_throw
  | succ fuel ih =>
      intro univ CMinF CMaxP r after value runs
      obtain ⟨fuel', rfl⟩ : ∃ k, fuel' = k + 1 := ⟨fuel' - 1, by omega⟩
      rw [identify] at runs ⊢
      by_cases single : univ.size = 1
      · rw [if_pos single] at runs ⊢
        exact runs
      · rw [if_neg single] at runs ⊢
        refine Proc.iterate_more (fun _ _ _ _ round => ?_) (by omega : fuel ≤ fuel') runs
        exact identifyRound_agree (fun _ _ _ _ _ _ called => ih (by omega) called) round

end Fuel

section Identify

variable {n : Nat} {verdict : Testcase → Bool} {safe : Comb} {tfail : Testcase}

/-- What a part of a run of `identify` does to the two families, and the parts of `tfail`
it checks on the way. -/
structure Progress (n : Nat) (verdict : Testcase → Bool) (safe : Comb) (tfail : Testcase)
    (univ : Schema) (before after : MonotoneSchemaSet × MonotoneSchemaSet)
    (parts : List (Finset Nat)) : Prop where
  known : Known n univ after.1 after.2
  lowGrows : ∀ S, Covers (· ⊆ ·) before.1.sets S → Covers (· ⊆ ·) after.1.sets S
  highGrows : ∀ S, Covers (· ⊇ ·) before.2.sets S → Covers (· ⊇ ·) after.2.sets S
  lowFrom : ∀ f ∈ after.1.sets,
    f ∈ before.1.sets ∨ f ∈ parts ∧ passes verdict safe tfail f = false
  highFrom : ∀ p ∈ after.2.sets, p ∈ before.2.sets ∨ p = ∅ ∨
    p ∈ parts ∧ passes verdict safe tfail p = true
  proper : ∀ S ∈ parts, S.Nonempty ∧ S ⊂ univ.bits

variable {univ : Schema} {before middle after : MonotoneSchemaSet × MonotoneSchemaSet}
  {parts more : List (Finset Nat)}

theorem Progress.refl (known : Known n univ before.1 before.2) :
    Progress n verdict safe tfail univ before before [] :=
  ⟨known, fun _ covered => covered, fun _ covered => covered, fun _ member => Or.inl member,
    fun _ member => Or.inl member, by simp⟩

theorem Progress.trans (first : Progress n verdict safe tfail univ before middle parts)
    (second : Progress n verdict safe tfail univ middle after more) :
    Progress n verdict safe tfail univ before after (parts ++ more) where
  known := second.known
  lowGrows := fun S covered => second.lowGrows S (first.lowGrows S covered)
  highGrows := fun S covered => second.highGrows S (first.highGrows S covered)
  lowFrom := by
    intro f member
    rcases second.lowFrom f member with old | ⟨seen, fails⟩
    · rcases first.lowFrom f old with older | ⟨seen, fails⟩
      · exact Or.inl older
      · exact Or.inr ⟨List.mem_append_left _ seen, fails⟩
    · exact Or.inr ⟨List.mem_append_right _ seen, fails⟩
  highFrom := by
    intro p member
    rcases second.highFrom p member with old | empty | ⟨seen, healthy⟩
    · rcases first.highFrom p old with older | empty | ⟨seen, healthy⟩
      · exact Or.inl older
      · exact Or.inr (Or.inl empty)
      · exact Or.inr (Or.inr ⟨List.mem_append_left _ seen, healthy⟩)
    · exact Or.inr (Or.inl empty)
    · exact Or.inr (Or.inr ⟨List.mem_append_right _ seen, healthy⟩)
  proper := by
    intro S member
    rcases List.mem_append.mp member with early | late
    · exact first.proper S early
    · exact second.proper S late

/-- New members of the families, all found by checks of proper parts of the universe. -/
theorem Known.progress_addAll (known : Known n univ before.1 before.2)
    (lows highs : List (Finset Nat))
    (low : after.1.Holds n true (addAll (· ⊆ ·) lows before.1.sets))
    (high : after.2.Holds n false (addAll (· ⊇ ·) highs before.2.sets))
    (lowIn : ∀ f ∈ lows, f ∈ parts ∧ passes verdict safe tfail f = false)
    (highIn : ∀ p ∈ highs, p = ∅ ∨ p ∈ parts ∧ passes verdict safe tfail p = true)
    (proper : ∀ S ∈ parts, S.Nonempty ∧ S ⊂ univ.bits) (someUniv : univ.bits.Nonempty) :
    Progress n verdict safe tfail univ before after parts where
  known := by
    refine ⟨known.wf, by rw [low.sets_eq]; exact low, by rw [high.sets_eq]; exact high, ?_⟩
    rw [low.sets_eq, high.sets_eq]
    refine known.bounded.addAll lows highs (fun f member => ?_) (fun p member => ?_)
    · obtain ⟨nonempty, within⟩ := proper f (lowIn f member).1
      exact ⟨within.subset, nonempty⟩
    · rcases highIn p member with rfl | ⟨seen, _⟩
      · exact Finset.empty_ssubset.mpr someUniv
      · exact (proper p seen).2
  lowGrows := by
    intro S covered
    rw [low.sets_eq]
    exact (covers_addAll _ known.bounded.lowIndependent).mpr (Or.inl covered)
  highGrows := by
    intro S covered
    rw [high.sets_eq]
    exact (covers_addAll _ known.bounded.highIndependent).mpr (Or.inl covered)
  lowFrom := by
    intro f member
    rw [low.sets_eq] at member
    exact (mem_of_mem_addAll _ member).imp id (lowIn f)
  highFrom := by
    intro p member
    rw [high.sets_eq] at member
    exact (mem_of_mem_addAll _ member).imp id (highIn p)
  proper := proper

/-- The region that `identify` has still to decide about. -/
noncomputable def pendingRegion (univ : Schema)
    (families : MonotoneSchemaSet × MonotoneSchemaSet) : Finset (Finset Nat) :=
  pendingIn univ.bits families.1.sets families.2.sets

theorem Progress.pendingRegion_ssubset
    (progress : Progress n verdict safe tfail univ before after parts) {S : Finset Nat}
    (wasOpen : S ∈ pendingRegion univ before)
    (closed : Covers (· ⊆ ·) after.1.sets S ∨ Covers (· ⊇ ·) after.2.sets S) :
    pendingRegion univ after ⊂ pendingRegion univ before :=
  pendingIn_ssubset progress.lowGrows progress.highGrows wasOpen closed

/-- The search of a round in `NoPend`'s order. -/
theorem binarySearch_runs {r : AbstractFaultResolver} (ready : r.Ready n verdict safe)
    (binary : tfail.Binary n) {max min : Schema} (wfMax : max.Wf n) (wfMin : min.Wf n)
    (sub : min.bits ⊆ max.bits) :
    ∃ found parts,
      (binarySearch max min tfail).Runs r found (probes verdict safe tfail r parts) ∧
      Searched n verdict safe tfail max min found parts := by
  rw [binarySearch, show max.getLogicSize = n from wfMax.logic]
  exact searchChain_found ready binary wfMax wfMin sub (List.range n).reverse
    (List.nodup_reverse.mpr List.nodup_range) fun i inside => by simpa using inside

/-- The families a recursive call starts with. -/
theorem known_start {minfault : Schema} (wf : minfault.Wf n) (nonempty : minfault.bits.Nonempty) :
    ∃ CMinF_rec CMaxP_rec,
      (MonotoneSchemaSet.new true).add' minfault = .ok CMinF_rec ∧
      (MonotoneSchemaSet.new false).add' (Schema.ofSize minfault.getLogicSize) = .ok CMaxP_rec ∧
      CMinF_rec.sets = [minfault.bits] ∧ CMaxP_rec.sets = [∅] ∧
      Known n minfault CMinF_rec CMaxP_rec := by
  have logic : minfault.getLogicSize = n := wf.logic
  obtain ⟨CMinF_rec, runLow, low⟩ := add'_minimal (holds_new n true) wf
  obtain ⟨CMaxP_rec, runHigh, high⟩ := add'_maximal (holds_new n false) (Schema.ofSize_wf n)
  have lowSets : CMinF_rec.sets = [minfault.bits] := low.sets_eq
  have highSets : CMaxP_rec.sets = [∅] := high.sets_eq
  refine ⟨CMinF_rec, CMaxP_rec, runLow, by rw [logic]; exact runHigh, lowSets, highSets,
    wf, ?_, ?_, ?_⟩
  · rw [lowSets]
    exact low
  · rw [highSets]
    exact high
  · rw [lowSets, highSets]
    exact bounded_start nonempty

/-- What a recursive call on `minfault` found, merged into the families of the caller. -/
theorem Known.progress_merge (known : Known n univ before.1 before.2) {minfault : Schema}
    {start found : MonotoneSchemaSet × MonotoneSchemaSet}
    (seen : minfault.bits ∈ parts) (fails : passes verdict safe tfail minfault.bits = false)
    (proper : ∀ S ∈ parts, S.Nonempty ∧ S ⊂ univ.bits)
    (lowStart : start.1.sets = [minfault.copy.bits]) (highStart : start.2.sets = [∅])
    (inner : Progress n verdict safe tfail minfault.copy start found more)
    (low : after.1.Holds n true (addAll (· ⊆ ·) found.1.sets before.1.sets))
    (high : after.2.Holds n false (addAll (· ⊇ ·) found.2.sets before.2.sets)) :
    Progress n verdict safe tfail univ before after (parts ++ more) := by
  have smaller : minfault.copy.bits ⊂ univ.bits := by
    rw [Schema.copy_bits]
    exact (proper _ seen).2
  have properMore : ∀ S ∈ parts ++ more, S.Nonempty ∧ S ⊂ univ.bits := by
    intro S member
    rcases List.mem_append.mp member with early | late
    · exact proper S early
    · obtain ⟨nonempty, inside⟩ := inner.proper S late
      exact ⟨nonempty, inside.trans smaller⟩
  refine known.progress_addAll _ _ low high (fun f member => ?_) (fun p member => ?_) properMore
    ((proper _ seen).1.mono (proper _ seen).2.subset)
  · rcases inner.lowFrom f member with old | ⟨checked, failed⟩
    · rw [lowStart, Schema.copy_bits, List.mem_singleton] at old
      rw [old]
      exact ⟨List.mem_append_left _ seen, fails⟩
    · exact ⟨List.mem_append_right _ checked, failed⟩
  · rcases inner.highFrom p member with old | empty | ⟨checked, passed⟩
    · rw [highStart, List.mem_singleton] at old
      exact Or.inl old
    · exact Or.inl empty
    · exact Or.inr ⟨List.mem_append_right _ checked, passed⟩

/-- A correct recursive call below `univ`. -/
def RecursesBelow (n : Nat) (verdict : Testcase → Bool) (safe : Comb) (tfail : Testcase)
    (univ : Schema) (recurse : Schema → MonotoneSchemaSet → MonotoneSchemaSet →
      ResolverM (MonotoneSchemaSet × MonotoneSchemaSet)) : Prop :=
  ∀ (lower : Schema) (CMinF CMaxP : MonotoneSchemaSet) (r : AbstractFaultResolver),
    lower.bits ⊂ univ.bits → r.Ready n verdict safe → Known n lower CMinF CMaxP →
    ∃ after parts,
      (recurse lower CMinF CMaxP).Runs r after (probes verdict safe tfail r parts) ∧
      Progress n verdict safe tfail lower (CMinF, CMaxP) after parts

/-- A round either ends the loop with nothing pending, or strictly shrinks the pending region. -/
theorem identifyRound_runs {r : AbstractFaultResolver} (ready : r.Ready n verdict safe)
    (binary : tfail.Binary n) (known : Known n univ before.1 before.2)
    {recurse : Schema → MonotoneSchemaSet → MonotoneSchemaSet →
      ResolverM (MonotoneSchemaSet × MonotoneSchemaSet)}
    (below : RecursesBelow n verdict safe tfail univ recurse) :
    ((identifyRound recurse univ tfail before).Runs r (.inr before) r ∧
        pendingRegion univ before = ∅) ∨
      ∃ after parts, (identifyRound recurse univ tfail before).Runs r (.inl after)
          (probes verdict safe tfail r parts) ∧
        Progress n verdict safe tfail univ before after parts ∧
        pendingRegion univ after ⊂ pendingRegion univ before := by
  obtain ⟨CMinF, CMaxP⟩ := before
  obtain ⟨_, _, _, _, chain, _, _, _, _, _, found, spec⟩ := findChain_eq known
  cases chain with
  | none =>
      left
      exact ⟨(Proc.Runs.of_ok found r).bind (Proc.Runs.ret _ _), spec⟩
  | some pair =>
      right
      obtain ⟨max, min⟩ := pair
      obtain ⟨wfMax, wfMin, sub, someMin, properMax, pending, _⟩ := spec
      have someUniv : univ.bits.Nonempty := (someMin.mono sub).mono properMax.subset
      obtain ⟨outcome, parts, search, between, seenMax, boundary⟩ :=
        binarySearch_runs ready binary wfMax wfMin sub
      have proper : ∀ S ∈ parts, S.Nonempty ∧ S ⊂ univ.bits := by
        intro S member
        obtain ⟨low, high⟩ := between S member
        exact ⟨someMin.mono low, lt_of_le_of_lt high properMax⟩
      cases outcome with
      | none =>
          obtain ⟨CMaxP', added, high⟩ := add'_maximal known.high wfMax.copy
          rw [Schema.copy_bits] at high
          have progress : Progress n verdict safe tfail univ (CMinF, CMaxP) (CMinF, CMaxP') parts :=
            known.progress_addAll [] [max.bits] known.low high (by simp)
              (fun p member =>
                Or.inr (by rw [List.mem_singleton.mp member]; exact ⟨seenMax, boundary⟩))
              proper someUniv
          refine ⟨(CMinF, CMaxP'), parts, ?_, progress, ?_⟩
          · exact (Proc.Runs.of_ok found r).bind (search.bind
              ((Proc.Runs.of_ok added _).bind (Proc.Runs.ret _ _)))
          · apply progress.pendingRegion_ssubset (S := max.bits)
            · exact mem_pendingIn.mpr ⟨properMax.subset, pending _ sub (Finset.Subset.refl _)⟩
            · right
              rw [high.sets_eq]
              exact (covers_add _ known.bounded.highIndependent).mpr (Or.inr (Finset.Subset.refl _))
      | some minfault =>
          obtain ⟨wf, low, high, seen, fails⟩ := boundary
          obtain ⟨CMinF_rec, CMaxP_rec, newLow, newHigh, lowStart, highStart, knownRec⟩ :=
            known_start wf.copy (by rw [Schema.copy_bits]; exact someMin.mono low)
          have smaller : minfault.copy.bits ⊂ univ.bits := by
            rw [Schema.copy_bits]
            exact lt_of_le_of_lt high properMax
          obtain ⟨⟨CMinF_sub, CMaxP_sub⟩, more, called, inner⟩ :=
            below minfault.copy CMinF_rec CMaxP_rec _ smaller (ready.probes tfail parts) knownRec
          obtain ⟨CMinF', mergedLow, holdsLow⟩ := merge_minimal known.low inner.known.low.wf
          obtain ⟨CMaxP', mergedHigh, holdsHigh⟩ := merge_maximal known.high inner.known.high.wf
          have progress : Progress n verdict safe tfail univ (CMinF, CMaxP) (CMinF', CMaxP')
              (parts ++ more) :=
            known.progress_merge seen fails proper lowStart highStart inner holdsLow holdsHigh
          refine ⟨(CMinF', CMaxP'), parts ++ more, ?_, progress, ?_⟩
          · rw [probes_append]
            exact (Proc.Runs.of_ok found r).bind (search.bind ((Proc.Runs.of_ok newLow _).bind
              ((Proc.Runs.of_ok newHigh _).bind (called.bind ((Proc.Runs.of_ok mergedLow _).bind
                ((Proc.Runs.of_ok mergedHigh _).bind (Proc.Runs.ret _ _)))))))
          · apply progress.pendingRegion_ssubset (S := minfault.bits)
            · exact mem_pendingIn.mpr ⟨high.trans properMax.subset, pending _ low high⟩
            · left
              -- the recursion keeps the set it started with covered
              have kept := inner.lowGrows minfault.bits
                ⟨minfault.bits, by simp [lowStart], Finset.Subset.refl _⟩
              rw [holdsLow.sets_eq]
              exact (covers_addAll _ known.bounded.lowIndependent).mpr (Or.inr kept)

/-- Every call of `identify` with enough fuel returns and leaves nothing pending. -/
theorem identify_runs (binary : tfail.Binary n) (fuel : Nat) :
    ∀ {univ : Schema} {CMinF CMaxP : MonotoneSchemaSet} {r : AbstractFaultResolver},
      r.Ready n verdict safe → Known n univ CMinF CMaxP → 2 ^ univ.bits.card + 2 ≤ fuel →
      ∃ after parts, (identify tfail fuel univ CMinF CMaxP).Runs r after
          (probes verdict safe tfail r parts) ∧
        Progress n verdict safe tfail univ (CMinF, CMaxP) after parts ∧
        pendingRegion univ after = ∅ := by
  induction fuel with
  | zero =>
      intro univ CMinF CMaxP r ready known enough
      exact absurd enough (by simp)
  | succ fuel ih =>
      intro univ CMinF CMaxP r ready known enough
      by_cases single : univ.size = 1
      · refine ⟨(CMinF, CMaxP), [], ?_, Progress.refl known,
          known.bounded.settled_of_card_one single⟩
        rw [identify, if_pos single]
        exact Proc.Runs.ret _ _
      · have below : RecursesBelow n verdict safe tfail univ (identify tfail fuel) := by
          intro lower low high s smaller ready' known'
          have fewer : 2 ^ lower.bits.card < 2 ^ univ.bits.card :=
            Nat.pow_lt_pow_right (by decide) (Finset.card_lt_card smaller)
          obtain ⟨after, parts, runs, progress, _⟩ := ih ready' known' (by omega)
          exact ⟨after, parts, runs, progress⟩
        -- the loop: progress since the call, measured by the pending region
        obtain ⟨after, state, runs, ⟨parts, reached, progress⟩, settled⟩ :=
          Proc.iterate_runs Exn.outOfFuel (identifyRound (identify tfail fuel) univ tfail)
            (fun current state => ∃ parts, state = probes verdict safe tfail r parts ∧
              Progress n verdict safe tfail univ (CMinF, CMaxP) current parts)
            (fun after state => (∃ parts, state = probes verdict safe tfail r parts ∧
              Progress n verdict safe tfail univ (CMinF, CMaxP) after parts) ∧
                pendingRegion univ after = ∅)
            (fun current _ => (pendingRegion univ current).card)
            (by
              rintro current state ⟨parts, rfl, progress⟩
              rcases identifyRound_runs (ready.probes tfail parts) binary progress.known below with
                ⟨runs, settled⟩ | ⟨next, more, runs, step, less⟩
              · exact Or.inl ⟨current, _, runs, ⟨parts, rfl, progress⟩, settled⟩
              · refine Or.inr ⟨next, _, runs, ⟨parts ++ more, ?_, progress.trans step⟩,
                  Finset.card_lt_card less⟩
                rw [probes_append])
            fuel (CMinF, CMaxP) r ⟨[], rfl, Progress.refl known⟩ (by
              have bound := pendingIn_card_le univ.bits CMinF.sets CMaxP.sets
              change (pendingIn univ.bits CMinF.sets CMaxP.sets).card < fuel
              omega)
        refine ⟨after, parts, ?_, progress, settled⟩
        rw [identify, if_neg single, ← reached]
        exact runs

end Identify

end NoPendFaultResolver

end NoPend
