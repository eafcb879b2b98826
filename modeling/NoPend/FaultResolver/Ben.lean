import NoPend.Common.PowerSet
import NoPend.FaultResolver.Faults
import Mathlib.Data.List.Sort

set_option autoImplicit false

/- `BenFaultResolver`. -/
namespace NoPend

open AbstractFaultResolver

/-- The operations on `double` that the resolver uses. Nothing is assumed of them. -/
structure Doubles where
  Value : Type
  ofInt : Int → Value
  MAX_VALUE : Value
  add : Value → Value → Value
  div : Value → Value → Value
  min : Value → Value → Value
  gt : Value → Value → Bool
  compare : Value → Value → Ordering

/-- The rationals, which agree with `double` wherever no result is rounded. -/
def Doubles.rationals : Doubles where
  Value := Rat
  ofInt i := i
  MAX_VALUE := (2 ^ 53 - 1) * 2 ^ 971
  add x y := x + y
  div x y := x / y
  min x y := if x ≤ y then x else y
  gt x y := decide (y < x)
  compare x y := if x < y then .lt else if x = y then .eq else .gt

namespace BenFaultResolver

structure Component where
  parameter : Nat
  value : Int
deriving DecidableEq

/-- What the run cannot control: the draws that `Random` is going to return and the orders in
which the next walks over a hash set go. -/
structure Chances where
  draws : Nat → Nat
  walks : Nat → IterOrder Comb

namespace Chances

/-- `nextInt(bound)`. -/
def nextInt (chances : Chances) (bound : Nat) : Except Exn (Nat × Chances) :=
  if bound = 0 then .error (.illegalArgument "bound must be positive")
  else .ok (chances.draws 0 % bound, { chances with draws := fun k => chances.draws (k + 1) })

def walk (chances : Chances) (set : HashSet Comb) : List Comb × Chances :=
  ((chances.walks 0).walk set.toList, { chances with walks := fun k => chances.walks (k + 1) })

end Chances

section Suspiciousness

variable (doubles : Doubles)

/-- `components_suspiciousness`. The field is cleared before it is filled in every round, so
that each round has a map of its own. -/
abbrev Components := Component → Option doubles.Value

variable {doubles}

def Components.put (components : Components doubles) (component : Component)
    (suspiciousness : doubles.Value) : Components doubles :=
  fun other => if other = component then some suspiciousness else components other

/-- `components_suspiciousness.get(component)` where null makes the caller throw. -/
def Components.find (components : Components doubles) (component : Component) :
    Except Exn doubles.Value :=
  match components component with
  | some suspiciousness => .ok suspiciousness
  | none => .error (.runtime "Component not found")

variable (doubles)

/-- The loops that count, in a `double`, the combinations with this component. -/
def countComponent (component : Component) (combs : List Comb) : Except Exn doubles.Value :=
  combs.foldlM (fun num comb => do
    if (← comb.get component.parameter) = component.value then
      return doubles.add num (doubles.ofInt 1)
    else return num) (doubles.ofInt 0)

variable {doubles}

def computeSuspiciousnessForOneComponent (Tpass Tfail : List Testcase)
    (suspiciousCombs : HashSet Comb) (components : Components doubles) (component : Component) :
    Except Exn doubles.Value := do
  match components component with
  | some suspiciousness => return suspiciousness
  | none =>
      let numComponentInTfail ← countComponent doubles component Tfail
      let numComponentInTpass ← countComponent doubles component Tpass
      let u := doubles.div numComponentInTfail (doubles.ofInt Tfail.length)
      let v := doubles.div numComponentInTfail
        (doubles.add numComponentInTfail numComponentInTpass)
      -- the sum does not depend on the order of the walk: every term is 1
      let w := doubles.div (← countComponent doubles component suspiciousCombs.toList)
        (doubles.ofInt suspiciousCombs.size)
      return doubles.div (doubles.add (doubles.add u v) w) (doubles.ofInt 3)

/-- The loop over the parameters of one test case. -/
def computeSuspiciousnessIn (Tpass Tfail : List Testcase) (suspiciousCombs : HashSet Comb)
    (components : Components doubles) (testcase : Testcase) : Except Exn (Components doubles) :=
  (List.range testcase.size).foldlM (fun components i => do
    let component : Component := ⟨i, testcase.val i⟩
    let suspiciousness ← computeSuspiciousnessForOneComponent Tpass Tfail
      suspiciousCombs components component
    return components.put component suspiciousness) components

def computeSuspiciousnessForAllComponents (Tpass Tfail : List Testcase)
    (suspiciousCombs : HashSet Comb) : Except Exn (Components doubles) := do
  let components ← Tfail.foldlM (computeSuspiciousnessIn Tpass Tfail suspiciousCombs)
    fun _ => none
  Tpass.foldlM (computeSuspiciousnessIn Tpass Tfail suspiciousCombs) components

/-- The body of the loops that sum up suspiciousness: `(sum, num_components)`. -/
def addComponent (components : Components doubles) (wanted : Nat → Bool) (comb : Comb) :
    doubles.Value × Nat → Nat → Except Exn (doubles.Value × Nat)
  | (sum, num_components), i => do
      if wanted i then
        let suspiciousness ← components.find ⟨i, comb.val i⟩
        return (doubles.add sum suspiciousness, num_components + 1)
      else return (sum, num_components)

def getRho_c (components : Components doubles) (comb : Comb) : Except Exn doubles.Value := do
  let (rho_c, num_components) ← (List.range comb.size).foldlM
    (addComponent components (fun i => comb.val i ≠ Comb.UNKNOWN) comb) (doubles.ofInt 0, 0)
  return doubles.div rho_c (doubles.ofInt num_components)

def getRho_e (components : Components doubles) (Tfail : List Testcase) (comb : Comb) :
    Except Exn doubles.Value :=
  Tfail.foldlM (fun rho_s tfail => do
    if !(← Comb.contains tfail comb) then return rho_s
    let (tmp, num_components) ← (List.range tfail.size).foldlM
      (addComponent components (fun i => comb.val i = Comb.UNKNOWN) tfail) (doubles.ofInt 0, 0)
    return doubles.min rho_s (doubles.div tmp (doubles.ofInt num_components))) doubles.MAX_VALUE

/-- `rank`: a stable sort, which compares nothing if there is only one combination. -/
def rank (components : Components doubles) (Tfail : List Testcase) (suspiciousCombs : List Comb) :
    Except Exn (List Comb) := do
  if suspiciousCombs.length < 2 then return suspiciousCombs
  let keyed ← suspiciousCombs.mapM fun comb => do
    return (comb, doubles.add (← getRho_c components comb) (← getRho_e components Tfail comb))
  return (keyed.insertionSort fun a b => doubles.compare a.2 b.2 ≠ .gt).map Prod.fst

end Suspiciousness

section Generate

variable {doubles : Doubles}

/-- The value that the loop over the open parameters chooses. -/
def chooseValue (components : Components doubles) (i : Nat) : Int :=
  match components ⟨i, 0⟩, components ⟨i, 1⟩ with
  | none, _ => 1
  | some _, none => 0
  | some zero, some one => if doubles.gt zero one then 1 else 0

/-- The loop that looks for a test case that has not been tested before. -/
def flipUntested (Tpass Tfail : List Testcase) (suspiciousComb : Comb) (newTestcase : Testcase) :
    Nat → Chances → Except Exn (Testcase × Chances)
  | 0, _ => .error .outOfFuel
  | fuel + 1, chances => do
      let (index, chances) ← chances.nextInt suspiciousComb.size
      if (← suspiciousComb.get index) = Comb.UNKNOWN then
        let flipped ← MutableTestcase.flip newTestcase index
        if !Tpass.contains flipped && !Tfail.contains flipped then return (flipped, chances)
        flipUntested Tpass Tfail suspiciousComb
          (← MutableTestcase.flip flipped index) fuel chances
      else flipUntested Tpass Tfail suspiciousComb newTestcase fuel chances

def generateNewTestcaseForOneSuspiciousComb (components : Components doubles)
    (Tpass Tfail : List Testcase) (fuel : Nat) (chances : Chances) (suspiciousComb : Comb) :
    Except Exn (Testcase × Chances) := do
  let newComb ← MutableComb.ofComb suspiciousComb
  let newComb ← (List.range newComb.size).foldlM (fun newComb i =>
    if newComb.val i = Comb.UNKNOWN then newComb.set i (chooseValue components i)
    else .ok newComb) newComb
  let newTestcase ← MutableTestcase.ofComb newComb
  -- `equals` compares the runtime classes here as well
  if Tpass.contains newTestcase || Tfail.contains newTestcase then
    let (newTestcase, chances) ← flipUntested Tpass Tfail suspiciousComb newTestcase fuel chances
    return (← Testcase.ofComb newTestcase, chances)
  else return (← Testcase.ofComb newTestcase, chances)

def generateNewTestcasesForAllSuspiciousCombs (components : Components doubles)
    (Tpass Tfail : List Testcase) (fuel : Nat) (chances : Chances) (suspiciousCombs : List Comb) :
    Except Exn (List Testcase × Chances) := do
  let (testcases, chances) ← suspiciousCombs.foldlM (fun (testcases, chances) suspiciousComb => do
    let (newTestcase, chances) ← generateNewTestcaseForOneSuspiciousComb components
      Tpass Tfail fuel chances suspiciousComb
    return (testcases.add newTestcase, chances)) ((HashSet.empty : HashSet Comb), chances)
  return chances.walk testcases

end Generate

def isCurrentlyHealthy (Tpass : List Testcase) (comb : Comb) : Except Exn Bool :=
  Tpass.anyM (Comb.contains · comb)

def getAllSuspiciousCombinations (combination : Combination) (t : Nat)
    (Tpass Tfail : List Testcase) : Except Exn (HashSet Comb) := do
  let res ← Tfail.foldlM (fun (res : HashSet Comb) tfail => do
    return res.addAll (← Testcase.tWayComb combination tfail t)) HashSet.empty
  res.removeIf (isCurrentlyHealthy Tpass)

def smallerCombs (combination : Combination) (suspiciousComb : Comb) (d : Nat) :
    Except Exn (List Comb) :=
  let combIndex := (List.range suspiciousComb.size).filter fun i =>
    suspiciousComb.val i ≠ Comb.UNKNOWN
  (combination.of combIndex d).mapM (Comb.ofIndices suspiciousComb)

/-- The loop over the sizes in the last step, for one combination. -/
def deriveFrom (combination : Combination) (comb : Comb) : ResolverM Unit := do
  (List.range' 1 (← get).t).forM fun i => do
    let smaller ← smallerCombs combination comb i
    modify (identified · smaller)

/-- The loop that runs the new test cases. -/
def runTestcase (testcase : Testcase) : ResolverM Unit := do
  if ← check testcase then modify fun r => { r with Tpass := r.Tpass ++ [testcase] }
  else modify fun r => { r with Tfail := r.Tfail ++ [testcase] }

/-- A way to give the components of `Tpass` and `Tfail` their suspiciousness. -/
abbrev Rating (doubles : Doubles) : Type :=
  List Testcase → List Testcase → HashSet Comb → Except Exn (Components doubles)

/-- One round of the loop of `conduct`: `suspiciousCombs_old` and the chances to come. The way
to rate the components is a parameter. -/
def benRoundWith {doubles : Doubles} (rating : Rating doubles) (combination : Combination)
    (fuel : Nat) : Option (HashSet Comb) × Chances →
      ResolverM ((Option (HashSet Comb) × Chances) ⊕ Unit)
  | (suspiciousCombs_old, chances) => do
      let r ← get
      let suspiciousCombs ← getAllSuspiciousCombinations combination r.t r.Tpass r.Tfail
      if suspiciousCombs.isEmpty then return .inr ()
      if suspiciousCombs_old.any fun old => suspiciousCombs.size = old.size then
        (chances.walk suspiciousCombs).1.forM (deriveFrom combination)
        return .inr ()
      let components : Components doubles ← rating r.Tpass r.Tfail suspiciousCombs
      let (suspiciousCombs_list, chances) := chances.walk suspiciousCombs
      let suspiciousCombs_list ← rank components r.Tfail suspiciousCombs_list
      let (newTestcases, chances) ← generateNewTestcasesForAllSuspiciousCombs components r.Tpass
        r.Tfail fuel chances suspiciousCombs_list
      newTestcases.forM runTestcase
      return .inl (some suspiciousCombs, chances)

def conductWith {doubles : Doubles} (rating : Rating doubles) (combination : Combination)
    (fuel : Nat) (chances : Chances) : ResolverM Unit := do
  if (← get).conducted then return
  modify fun r => { r with conducted := true }
  Proc.iterate .outOfFuel (benRoundWith rating combination fuel) fuel (none, chances)

/-- The round of the source. -/
abbrev benRound (doubles : Doubles) (combination : Combination) (fuel : Nat) :
    Option (HashSet Comb) × Chances → ResolverM ((Option (HashSet Comb) × Chances) ⊕ Unit) :=
  benRoundWith (@computeSuspiciousnessForAllComponents doubles) combination fuel

/-- `conduct`. -/
abbrev conduct (doubles : Doubles) (combination : Combination) (fuel : Nat) (chances : Chances) :
    ResolverM Unit :=
  conductWith (@computeSuspiciousnessForAllComponents doubles) combination fuel chances

end BenFaultResolver

end NoPend
