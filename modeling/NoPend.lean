import NoPend.Lib.Proc
import NoPend.Lib.Relational
import NoPend.Lib.Antichain
import NoPend.Lib.SetFamily
import NoPend.Lib.Walk
import NoPend.Lib.Shrink
import NoPend.Lib.Sweep
import NoPend.Lib.Text
import NoPend.Lib.Lines
import NoPend.Lib.Dict
import NoPend.Lib.Cost
import NoPend.Common.Java
import NoPend.Common.Comb
import NoPend.Common.Schema
import NoPend.Common.SchemaRuns
import NoPend.Common.MonotoneSchemaSet
import NoPend.Common.MonotoneRuns
import NoPend.FaultResolver.Abstract
import NoPend.FaultResolver.Faults
import NoPend.Util.SafeValues
import NoPend.Util.ComputeFaults
import NoPend.Util.ComputeMFS
import NoPend.Util.Files
import NoPend.Util.CAResolver
import NoPend.Util.ComputeModel
import NoPend.Util.Combinatorics
import NoPend.Util.Measure
import NoPend.Common.PowerSet
import NoPend.FaultResolver.Padding
import NoPend.FaultResolver.Pending
import NoPend.FaultResolver.LifeCycle
import NoPend.FaultResolver.Chain
import NoPend.FaultResolver.NoPend
import NoPend.FaultResolver.NoPendIdentify
import NoPend.FaultResolver.NoPendConduct
import NoPend.FaultResolver.NoPendExact
import NoPend.FaultResolver.NoPendPending
import NoPend.FaultResolver.TRT
import NoPend.FaultResolver.TRTMarks
import NoPend.FaultResolver.TRTQueries
import NoPend.FaultResolver.TRTLoop
import NoPend.FaultResolver.TRTExact
import NoPend.FaultResolver.ChainExact
import NoPend.FaultResolver.FINOVLP
import NoPend.FaultResolver.FINOVLPLocate
import NoPend.FaultResolver.FINOVLPExact
import NoPend.FaultResolver.FINOVLPChecks
import NoPend.FaultResolver.Candidates
import NoPend.FaultResolver.IterAIFL
import NoPend.FaultResolver.ComFIL
import NoPend.FaultResolver.SOFOT
import NoPend.FaultResolver.Resolvers
import NoPend.FaultResolver.LifeCycleNoPend
import NoPend.FaultResolver.FINOVLPRepeats
import NoPend.FaultResolver.LifeCycleExact
import NoPend.FaultResolver.Finds
import NoPend.FaultResolver.Executed
import NoPend.FaultResolver.Cost
import NoPend.FaultResolver.Advances
import NoPend.FaultResolver.Ben
import NoPend.FaultResolver.BenExact
import NoPend.FaultResolver.BenGenerate
import NoPend.FaultResolver.BenTermination
import NoPend.FaultResolver.BenMinimal
import NoPend.Experiment.Agreement
import NoPend.Experiment.Calls
import NoPend.Experiment.FaultLocalization
import NoPend.Experiment.Main
import NoPend.Experiment.Preprocessing
