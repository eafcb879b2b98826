import NoPend.FaultResolver.Abstract

set_option autoImplicit false

/- `FINOVLPFaultResolver` and its two subclasses. The methods that these override are
parameters of the methods that call them. -/
namespace NoPend

open AbstractFaultResolver

namespace FINOVLPFaultResolver

/-- `paddingWithSafeValues(t, index)`. -/
def paddingWithSafeValues (t : Testcase) (index : Nat) : ResolverM Testcase := do
  match (← get).safeValues with
  | none => throw .nullPointer
  | some safeValues =>
      let safe ← safeValues.get index
      if safe = Comb.UNKNOWN then MutableTestcase.flip t index
      else MutableTestcase.set t index safe

/-- The body of the loop that takes a located combination out of the test case:
`(tfail, fixedParameters)`. -/
def fixParameter (MFS : Comb) : Testcase × Schema → Nat → ResolverM (Testcase × Schema)
  | (tfail, fixedParameters), i => do
      if MFS.val i = Comb.UNKNOWN then return (tfail, fixedParameters)
      let fixedParameters := fixedParameters.set i true
      return (← paddingWithSafeValues tfail i, fixedParameters)

/-- The loop over the parameters of `MFS`. -/
def fixParameters (MFS : Comb) (tfail : Testcase) (fixedParameters : Schema) :
    ResolverM (Testcase × Schema) :=
  (List.range MFS.size).foldlM (fixParameter MFS) (tfail, fixedParameters)

/-- One round of `FINOVLP`: `(tfail, fixedParameters, MFSSet)`. -/
def FINOVLPRound (locateOneMFC : Testcase → Schema → ResolverM Comb) :
    Testcase × Schema × HashSet Comb → ResolverM
      ((Testcase × Schema × HashSet Comb) ⊕ HashSet Comb)
  | (tfail, fixedParameters, MFSSet) => do
      if ← check tfail then return .inr MFSSet
      let MFS ← locateOneMFC tfail fixedParameters
      let (tfail, fixedParameters) ← fixParameters MFS tfail fixedParameters
      return .inl (tfail, fixedParameters, MFSSet.add MFS)

def FINOVLP (locateOneMFC : Testcase → Schema → ResolverM Comb) (fuel : Nat)
    (_tfail : Testcase) :
    ResolverM (HashSet Comb) := do
  let tfail ← MutableTestcase.ofComb _tfail
  Proc.iterate .outOfFuel (FINOVLPRound locateOneMFC) fuel
    (tfail, Schema.ofSize tfail.size, HashSet.empty)

/-- One round of `locateOneMFC`: `(freeParameters, locatedFaultyBits)`. -/
def locateRound (locateOneFixedParameter : Testcase → List Nat → ResolverM Int) (t : Testcase) :
    List Nat × List Nat → ResolverM ((List Nat × List Nat) ⊕ List Nat)
  | (freeParameters, locatedFaultyBits) => do
      let fixedParameterIndex ← locateOneFixedParameter t freeParameters
      if fixedParameterIndex = -1 then return .inr locatedFaultyBits
      let located ← listGet freeParameters fixedParameterIndex
      return .inl (freeParameters.eraseIdx fixedParameterIndex.toNat,
        locatedFaultyBits ++ [located])

/-- `locateOneMFC`, unless a subclass overrides it. -/
def locateOneMFC (locateOneFixedParameter : Testcase → List Nat → ResolverM Int)
    (tfail : Testcase) (fixedParameter : Schema) : ResolverM Comb := do
  let freeParameters := fixedParameter.complement.getIndices
  let t ← MutableTestcase.ofComb tfail
  -- a round that does not leave the loop removes a free parameter
  let locatedFaultyBits ← Proc.iterate .outOfFuel (locateRound locateOneFixedParameter t)
    (freeParameters.length + 1) (freeParameters, [])
  (Schema.ofIndices tfail.size locatedFaultyBits).getComb tfail

/-- `locateOneFixedParameter`, unless a subclass overrides it. -/
def locateOneFixedParameter (_tfail : Testcase) (_freeParameters : List Nat) : ResolverM Int :=
  throw (.notImplemented "FINOVLPFaultResolver is abstract")

/-- The body of the loop over `Tfail`. -/
def conductOne (locateOneMFC : Testcase → Schema → ResolverM Comb) (fuel : Nat)
    (tfail : Testcase) :
    ResolverM Unit := do
  let found ← FINOVLP locateOneMFC fuel tfail
  modify (identified · found.toList)

def conduct_with_safevalues (locateOneMFC : Testcase → Schema → ResolverM Comb) (fuel : Nat) :
    ResolverM Unit := do
  (← get).Tfail.forM (conductOne locateOneMFC fuel)

def conduct (locateOneMFC : Testcase → Schema → ResolverM Comb) (fuel : Nat) : ResolverM Unit :=
  conductOnce "Safe values not set" (conduct_with_safevalues locateOneMFC fuel)

end FINOVLPFaultResolver

namespace FICFaultResovler

/-- The body of the loop over the parameters: `(comb, MFS)`. -/
def locateStep (tfail : Testcase) (fixedParameter : Schema) :
    Comb × Schema → Nat → ResolverM (Comb × Schema)
  | (comb, MFS), i => do
      if !fixedParameter.get i then
        let comb ← comb.set i Comb.UNKNOWN
        if ← check_with_safevalues comb tfail then
          return (← comb.set i (← tfail.get i), MFS.set i true)
        else return (comb, MFS)
      else return (comb, MFS)

def locateOneMFC (tfail : Testcase) (fixedParameter : Schema) : ResolverM Comb := do
  let comb ← MutableComb.ofComb tfail
  let (_, MFS) ← (List.range tfail.size).foldlM (locateStep tfail fixedParameter)
    (comb, Schema.ofSize tfail.size)
  MFS.getComb tfail

def conduct : Nat → ResolverM Unit := FINOVLPFaultResolver.conduct locateOneMFC

end FICFaultResovler

namespace FICBSFaultResolver

/-- The combination that has no value for the free parameters up to index `mid`. -/
def clearUpTo (tfail : Testcase) (freeParameters : List Nat) (mid : Int) : Except Exn Comb := do
  (List.range (mid + 1).toNat).foldlM (fun comb (i : Nat) => do
    comb.set (← listGet freeParameters i) Comb.UNKNOWN) (← MutableComb.ofComb tfail)

/-- One round of the search: `(left, right, ans)`. -/
def searchRound (tfail : Testcase) (freeParameters : List Nat) :
    Int × Int × Int → ResolverM ((Int × Int × Int) ⊕ Int)
  | (left, right, ans) => do
      if left ≤ right then
        let mid := left + (right - left) / 2
        let comb ← clearUpTo tfail freeParameters mid
        if ← check_with_safevalues comb tfail then return .inl (left, mid - 1, mid)
        else return .inl (mid + 1, right, ans)
      else return .inr ans

/-- `locateOneFixedParameter`: the index of the first free parameter without which, and
without those before it, the test case passes. -/
def locateOneFixedParameter (tfail : Testcase) (freeParameters : List Nat) : ResolverM Int := do
  if freeParameters.isEmpty then return -1
  -- every round shortens the interval
  Proc.iterate .outOfFuel (searchRound tfail freeParameters) (freeParameters.length + 1)
    (0, (freeParameters.length : Int) - 1, -1)

def locateOneMFC : Testcase → Schema → ResolverM Comb :=
  FINOVLPFaultResolver.locateOneMFC locateOneFixedParameter

def conduct : Nat → ResolverM Unit := FINOVLPFaultResolver.conduct locateOneMFC

end FICBSFaultResolver

end NoPend
