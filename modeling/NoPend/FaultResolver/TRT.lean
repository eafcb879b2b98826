import NoPend.FaultResolver.Chain
import NoPend.FaultResolver.Faults
import NoPend.Lib.Walk

set_option autoImplicit false

namespace NoPend

open Antichain AbstractFaultResolver

/-- The truth table over all schemas. `tfail` is only ever printed and is left out. -/
structure TRT where
  num_parameter : Nat
  trt_size : Nat
  healthy : BitSet
  faulty : BitSet
  flag : BitSet

namespace TRT

/-- `Integer.MAX_VALUE`. -/
def MAX_VALUE : Nat := 2 ^ 31 - 1

/-- `Integer.bitCount`. -/
def bitCount (i : Nat) : Nat := (List.range 32).countP i.testBit

def tooLarge : Exn :=
  .unsupportedOperation "BitSet getLogicSize exceeds maximum supported getLogicSize"

/-- `TRT(int n)`. -/
def new (n : Nat) : Except Exn TRT := do
  let trt_size := 2 ^ n
  if trt_size > MAX_VALUE then throw tooLarge
  if trt_size ≤ 0 || bitCount trt_size != 1 then
    throw (.illegalArgument
      ("Size should be the power of 2. Invalid getLogicSize: " ++ toString trt_size))
  return {
    num_parameter := n
    trt_size
    faulty := (BitSet.new trt_size).set (trt_size - 1) true
    healthy := (BitSet.new trt_size).set 0 true
    flag := BitSet.new trt_size }

/-- `1 << i`: the shift distance is taken modulo 32. -/
def shiftOne (i : Nat) : Int := wrap (2 ^ (i % 32))

def schema2int (schema : Schema) : Int :=
  (List.range schema.getLogicSize).foldl
    (fun res i => wrap (res + if schema.get i then shiftOne i else 0)) 0

/-- `schema2int(schema)` used as an index of a bit set, which must not be negative. -/
def index (schema : Schema) : Except Exn Nat :=
  if schema2int schema < 0 then .error .indexOutOfBounds else .ok (schema2int schema).toNat

/-- The shape of the five recursions. `enter` says whether to go on from a schema; the
recursion then visits the schemas that differ from it in one parameter whose bit is
`value`. The loop toggles the bit of one mutable schema and puts it back. -/
def walk {σ : Type} (value : Bool) (enter : Schema → σ → Except Exn (Bool × σ)) :
    Nat → Schema → σ → Except Exn σ
  | 0, _, _ => .error .outOfFuel
  | fuel + 1, schema, state => do
      let (goOn, state) ← enter schema state
      if !goOn then return state
      let (_, state) ← (List.range schema.getLogicSize).foldlM (fun (schema, state) i => do
        if schema.get i = value then
          let schema := schema.set i (!value)
          let state ← walk value enter fuel schema state
          return (schema.set i value, state)
        else return (schema, state)) (schema.copy, state)
      return state

/-- Every level of a recursion has one parameter less to toggle. -/
def depth (trt : TRT) : Nat := trt.num_parameter + 1

def sizeMismatch : Exn := .illegalArgument "Schema getLogicSize does not match TRT getLogicSize"

/-- What both marking methods do on entry: mark the schema unless it is marked already. -/
def markEntry (marked : TRT → BitSet) (store : TRT → BitSet → TRT) (schema : Schema)
    (trt : TRT) :
    Except Exn (Bool × TRT) := do
  if schema.getLogicSize ≠ trt.num_parameter then throw sizeMismatch
  let i ← index schema
  if (marked trt).get i then return (false, trt)
  return (true, store trt ((marked trt).set i true))

/-- Both marking methods. -/
def mark (value : Bool) (marked : TRT → BitSet) (store : TRT → BitSet → TRT) (trt : TRT)
    (schema : Schema) : Except Exn TRT :=
  walk value (markEntry marked store) trt.depth schema trt

def setHealthy : TRT → Schema → Except Exn TRT :=
  mark true healthy fun trt healthy => { trt with healthy }

def setFaulty : TRT → Schema → Except Exn TRT :=
  mark false faulty fun trt faulty => { trt with faulty }

/-- What the three queries do on entry: a schema that was visited or is to be skipped ends
the branch, one that is asked for is added and ends it too. -/
def collectEntry (skip wanted : TRT → Nat → Bool) (schema : Schema) :
    TRT × MonotoneSchemaSet → Except Exn (Bool × TRT × MonotoneSchemaSet)
  | (trt, schemas) => do
      let i ← index schema
      if trt.flag.get i then return (false, trt, schemas)
      let trt := { trt with flag := trt.flag.set i true }
      if skip trt i then return (false, trt, schemas)
      if wanted trt i then return (false, trt, ← schemas.add' schema.copy)
      return (true, trt, schemas)

/-- The three queries. -/
def collect (value : Bool) (skip wanted : TRT → Nat → Bool) (trt : TRT) (schema : Schema)
    (schemas : MonotoneSchemaSet) : Except Exn (TRT × MonotoneSchemaSet) :=
  walk value (collectEntry skip wanted) trt.depth schema (trt, schemas)

def getTopSchemasRecursively : TRT → Schema → MonotoneSchemaSet →
    Except Exn (TRT × MonotoneSchemaSet) :=
  collect true (fun trt i => trt.healthy.get i) fun trt i => !trt.faulty.get i

def getTopSchemas (trt : TRT) : Except Exn (TRT × MonotoneSchemaSet) :=
  getTopSchemasRecursively { trt with flag := trt.flag.setRange 0 trt.flag.size false }
    (Schema.ofFlag trt.num_parameter true) (MonotoneSchemaSet.new false)

def getBottomSchemasRecursively : TRT → Schema → MonotoneSchemaSet →
    Except Exn (TRT × MonotoneSchemaSet) :=
  collect false (fun trt i => trt.faulty.get i) fun trt i => !trt.healthy.get i

def getBottomSchemas (trt : TRT) : Except Exn (TRT × MonotoneSchemaSet) :=
  getBottomSchemasRecursively { trt with flag := trt.flag.setRange 0 (trt.flag.size - 1) false }
    (Schema.ofFlag trt.num_parameter false) (MonotoneSchemaSet.new true)

/-- Here no schema is skipped: a faulty one is added. -/
def getMFSRecursively :
    TRT → Schema → MonotoneSchemaSet → Except Exn (TRT × MonotoneSchemaSet) :=
  collect false (fun _ _ => false) fun trt i => trt.faulty.get i

def getMFS (trt : TRT) : Except Exn (TRT × MonotoneSchemaSet) :=
  getMFSRecursively { trt with flag := trt.flag.setRange 0 (trt.flag.size - 1) false }
    (Schema.ofFlag trt.num_parameter false) (MonotoneSchemaSet.new true)

end TRT

namespace TRTFaultResolver

/-- The constructor, after that of `AbstractFaultResolver`. -/
def create (checker : Checker) (Tpass Tfail : List Testcase) (random : Nat → Bool) :
    Except Exn AbstractFaultResolver := do
  let r ← AbstractFaultResolver.create checker Tpass Tfail random
  match Tfail with
  | [] => throw .noSuchElement
  | first :: _ => if 2 ^ first.size > TRT.MAX_VALUE then throw TRT.tooLarge else return r

/-- A constructed resolver whose safe values have been set. -/
def fresh (checker : Checker) (Tpass Tfail : List Testcase) (safeValues : Comb)
    (random : Nat → Bool) : Except Exn AbstractFaultResolver := do
  return (← create checker Tpass Tfail random).setSafeValues safeValues

/-- `binarySearch`: the chain takes up the missing parameters in ascending order. -/
def binarySearch (max min : Schema) (tfail : Testcase) : ResolverM (Option Schema) :=
  searchChain (List.range max.getLogicSize) max min tfail

/-- One round of the loop over the truth table. -/
def markRound (tfail : Testcase) (trt : TRT) : ResolverM (TRT ⊕ TRT) := do
  let (trt, topSchemas) ← trt.getTopSchemas
  if topSchemas.isEmpty then return .inr trt
  let (trt, bottomSchemas) ← trt.getBottomSchemas
  if bottomSchemas.isEmpty then throw (.runtime "Bottom schemas should not be empty")
  match ← getLongestChain topSchemas bottomSchemas with
  | none => throw (.runtime "Longest chain should not be empty")
  | some (max, min) =>
      match ← binarySearch max min tfail with
      | none => return .inl (← trt.setHealthy max)
      | some minfault => return .inl (← trt.setFaulty minfault)

/-- The loop that marks the schemas of one failing test case. -/
def markAll (fuel : Nat) (tfail : Testcase) (trt : TRT) : ResolverM TRT :=
  Proc.iterate .outOfFuel (markRound tfail) fuel trt

/-- The body of the loop over `Tfail`. -/
def conductOne (fuel : Nat) (tfail : Testcase) : ResolverM Unit := do
  let trt ← TRT.new tfail.size
  let trt ← markAll fuel tfail trt
  let (_, MFS) ← trt.getMFS
  MFS.getSchemas.forM (addIdentified tfail)

def conduct_with_safevalues (fuel : Nat) : ResolverM Unit := do
  (← get).Tfail.forM (conductOne fuel)

def conduct (fuel : Nat) : ResolverM Unit :=
  conductOnce "Safe values not set" (conduct_with_safevalues fuel)

end TRTFaultResolver

end NoPend
