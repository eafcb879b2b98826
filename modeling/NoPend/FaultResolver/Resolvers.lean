import NoPend.FaultResolver.ComFIL
import NoPend.FaultResolver.FINOVLP
import NoPend.FaultResolver.IterAIFL
import NoPend.FaultResolver.NoPend
import NoPend.FaultResolver.SOFOT
import NoPend.FaultResolver.TRT

set_option autoImplicit false

/- The resolvers that an experiment compares, side by side. -/
namespace NoPend

inductive Resolver where
  | sofot
  | fic
  | ficbs
  | comFIL
  | iterAIFL
  | trt
  | noPend
deriving DecidableEq

namespace Resolver

/-- The constructor of each resolver. -/
def create (kind : Resolver) (checker : Checker) (Tpass Tfail : List Testcase)
    (random : Nat → Bool) : Except Exn AbstractFaultResolver :=
  match kind with
  | .trt => TRTFaultResolver.create checker Tpass Tfail random
  | _ => AbstractFaultResolver.create checker Tpass Tfail random

/-- `conduct` of each resolver. A resolver uses what it needs of the enumeration of subsets,
the fuel of its loops and the order in which it walks hash sets. -/
def conduct (kind : Resolver) (combination : Combination) (fuel : Nat) (order : IterOrder Comb) :
    ResolverM Unit :=
  match kind with
  | .sofot => SOFOTFaultResolver.conduct
  | .fic => FICFaultResovler.conduct fuel
  | .ficbs => FICBSFaultResolver.conduct fuel
  | .comFIL => ComFILFaultResolver.conduct combination order
  | .iterAIFL => IterAIFLFaultResolver.conduct combination order
  | .trt => TRTFaultResolver.conduct fuel
  | .noPend => NoPendFaultResolver.conduct fuel order

end Resolver

end NoPend
