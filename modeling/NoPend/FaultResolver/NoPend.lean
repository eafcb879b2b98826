import NoPend.FaultResolver.Chain
import NoPend.FaultResolver.Faults

set_option autoImplicit false

namespace NoPend

open Antichain SetFamily AbstractFaultResolver

namespace NoPendFaultResolver

/-- `binarySearch`: the chain takes up the missing parameters in descending order. -/
def binarySearch (max min : Schema) (tfail : Testcase) : ResolverM (Option Schema) :=
  searchChain (List.range max.getLogicSize).reverse max min tfail

/-- The first half of a round of `identify`: the borders of the pending region and a
longest chain between them. -/
def findChain (univ : Schema) (CMinF CMaxP : MonotoneSchemaSet) :
    Except Exn (Option (Schema × Schema)) := do
  let bottomSchemas ← (← CMaxP.complementIn univ).getMHS
  let topSchemas ← (← CMinF.getMHS).complementIn univ
  getLongestChain topSchemas bottomSchemas

/-- The loop that merges the result of a recursive call into the caller's set. -/
def merge (set : MonotoneSchemaSet) (found : MonotoneSchemaSet) : Except Exn MonotoneSchemaSet :=
  found.getSchemas.foldlM (fun set schema => set.add' schema) set

/-- One round of the loop of `identify` on `(CMinF, CMaxP)`. `recurse` is the recursive call. -/
def identifyRound (recurse : Schema → MonotoneSchemaSet → MonotoneSchemaSet →
      ResolverM (MonotoneSchemaSet × MonotoneSchemaSet)) (univ : Schema) (tfail : Testcase) :
    MonotoneSchemaSet × MonotoneSchemaSet →
      ResolverM ((MonotoneSchemaSet × MonotoneSchemaSet)
        ⊕ (MonotoneSchemaSet × MonotoneSchemaSet))
  | (CMinF, CMaxP) => do
      match ← findChain univ CMinF CMaxP with
      | none => return .inr (CMinF, CMaxP)
      | some (max, min) =>
          match ← binarySearch max min tfail with
          | none => return .inl (CMinF, ← CMaxP.add' max.copy)
          | some minfault =>
              let universe_rec := minfault.copy
              let CMinF_rec ← (MonotoneSchemaSet.new true).add' universe_rec
              let CMaxP_rec ← (MonotoneSchemaSet.new false).add'
                (Schema.ofSize universe_rec.getLogicSize)
              let (CMinF_rec, CMaxP_rec) ← recurse universe_rec CMinF_rec CMaxP_rec
              return .inl (← merge CMinF CMinF_rec, ← merge CMaxP CMaxP_rec)

/-- `identify`. The fuel bounds the depth of the recursion and the rounds of each loop. -/
def identify (tfail : Testcase) : Nat → Schema → MonotoneSchemaSet → MonotoneSchemaSet →
    ResolverM (MonotoneSchemaSet × MonotoneSchemaSet)
  | 0, _, _, _ => throw .outOfFuel
  | fuel + 1, univ, CMinF, CMaxP =>
      if univ.size = 1 then return (CMinF, CMaxP)
      else Proc.iterate .outOfFuel (identifyRound (identify tfail fuel) univ tfail) fuel
        (CMinF, CMaxP)

/-- The loop that adds the first identified combination that `tfail` contains. -/
def seedCMinF (tfail : Testcase) (CMinF : MonotoneSchemaSet) :
    List Comb → Except Exn MonotoneSchemaSet
  | [] => .ok CMinF
  | MFS :: rest => do
      if ← Comb.contains tfail MFS then CMinF.add' (Schema.ofComb MFS)
      else seedCMinF tfail CMinF rest

/-- What `conduct_with_safevalues` knows of `tfail` before it calls `identify`. -/
def seeds (order : IterOrder Comb) (tfail : Testcase) :
    ResolverM (MonotoneSchemaSet × MonotoneSchemaSet) := do
  let CMinF ← (MonotoneSchemaSet.new true).add' (Schema.ofFlag tfail.size true)
  let CMaxP ← (MonotoneSchemaSet.new false).add' (Schema.ofSize tfail.size)
  let CMinF ← seedCMinF tfail CMinF (order.walk (← get).MFC_identified.toList)
  return (CMinF, CMaxP)

/-- The top-level call of `identify` for one failing test case. -/
def identifyTop (fuel : Nat) (order : IterOrder Comb) (tfail : Testcase) :
    ResolverM (MonotoneSchemaSet × MonotoneSchemaSet) := do
  let (CMinF, CMaxP) ← seeds order tfail
  identify tfail fuel (Schema.ofFlag tfail.size true) CMinF CMaxP

/-- The body of the loop over `Tfail`. -/
def conductOne (fuel : Nat) (order : IterOrder Comb) (tfail : Testcase) : ResolverM Unit := do
  let (CMinF, _) ← identifyTop fuel order tfail
  CMinF.getSchemas.forM (addIdentified tfail)

def conduct_with_safevalues (fuel : Nat) (order : IterOrder Comb) : ResolverM Unit := do
  (← get).Tfail.forM (conductOne fuel order)

def conduct (fuel : Nat) (order : IterOrder Comb) : ResolverM Unit :=
  conductOnce "Safe values are not set" (conduct_with_safevalues fuel order)

end NoPendFaultResolver

end NoPend
