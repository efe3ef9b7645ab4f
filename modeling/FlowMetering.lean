import FlowMetering.Compilation
import FlowMetering.Element.Text
import FlowMetering.EndReason
import FlowMetering.Packet.Text
import FlowMetering.Record
import FlowMetering.Library.Catalog
import FlowMetering.Metrics
import FlowMetering.Arena
import FlowMetering.Main
import FlowMetering.Proofs.RegisterOrder
import FlowMetering.Proofs.LifeCycle
import FlowMetering.Proofs.LifeCycleRuns
import FlowMetering.Proofs.Trees
import FlowMetering.Proofs.Signatures
import FlowMetering.Proofs.TypeCombination
import FlowMetering.Proofs.LoweredTrees
import FlowMetering.Proofs.TypeResolution
import FlowMetering.Proofs.Evaluation
import FlowMetering.Proofs.LiveTrees
import FlowMetering.Proofs.Roles
import FlowMetering.Proofs.TreeEvaluation
import FlowMetering.Proofs.Circuits
import FlowMetering.Proofs.PacketWaves
import FlowMetering.Proofs.Deliveries
import FlowMetering.Proofs.CircuitRuns
import FlowMetering.Proofs.StopSweeps
import FlowMetering.Proofs.HeldTrees
import FlowMetering.Proofs.RegisterKeys
import FlowMetering.Proofs.AllocatedTrees
import FlowMetering.Proofs.RegisterKinds
import FlowMetering.Proofs.BoundFeatures
import FlowMetering.Proofs.FeatureLowering
import FlowMetering.Proofs.CompiledFeatures
import FlowMetering.Proofs.ReportedValues
import FlowMetering.Proofs.DecimalTexts
import FlowMetering.Proofs.ShortestDecimals
import FlowMetering.Proofs.DoubleTexts
import FlowMetering.Proofs.BindingNotes
import FlowMetering.Proofs.OverloadSearch
import FlowMetering.Proofs.Shapes
import FlowMetering.Proofs.SharedRegisters
import FlowMetering.Proofs.MarkedExports
import FlowMetering.Proofs.ExactSharing
import FlowMetering.Proofs.RepeatedExports
import FlowMetering.Proofs.RecordRounds
import FlowMetering.Proofs.RegisterInvariants
import FlowMetering.Proofs.TemplateSelection
import FlowMetering.Proofs.ArgumentKinds
import FlowMetering.Proofs.CompiledRegisters
import FlowMetering.Proofs.ValueTypes
import FlowMetering.Proofs.TypedRegisters
import FlowMetering.Proofs.ServedRegisters
import FlowMetering.Proofs.ReportedTypes
import FlowMetering.Proofs.AddressRegisters
import FlowMetering.Proofs.AddressFamilies
import FlowMetering.Proofs.ReportedFamilies
import FlowMetering.Proofs.RecordedInstances
import FlowMetering.Proofs.Restarts
import FlowMetering.Proofs.CountedPackets
import FlowMetering.Proofs.ReportedCounts
import FlowMetering.Proofs.FamilyTypes
import FlowMetering.Proofs.SingleFamilies
import FlowMetering.Proofs.GatedPrograms
import FlowMetering.Proofs.UncontrolledRuns
import FlowMetering.Proofs.GatedRuns
import FlowMetering.Proofs.GatedAllocations
import FlowMetering.Proofs.DirectedFeatures
import FlowMetering.Proofs.RenamedFields
import FlowMetering.Proofs.TransparentComposites
import FlowMetering.Proofs.Wiring
import FlowMetering.Proofs.VetoedPackets
import FlowMetering.Proofs.GlitchFreeOperators
import FlowMetering.Proofs.LocalErrors
import FlowMetering.Proofs.FilterCalls
import FlowMetering.Proofs.Liveness
import FlowMetering.Proofs.TemplateLimits
import FlowMetering.Proofs.SelectedTemplates
import FlowMetering.Proofs.ArenaTrees
import FlowMetering.Proofs.ArenaCopies
import FlowMetering.Proofs.ArenaExpansion
import FlowMetering.Proofs.ArenaRewriting
import FlowMetering.Proofs.ArenaBinding
import FlowMetering.Proofs.ForestStages
import FlowMetering.Proofs.ForestRewriting
import FlowMetering.Proofs.ForestPaths
import FlowMetering.Proofs.HeardSignals
import FlowMetering.Proofs.ControlRegisters
import FlowMetering.Proofs.SignalArbitration
import FlowMetering.Proofs.AssembledCatalogs
import FlowMetering.Proofs.EliminatedRewrites
import FlowMetering.Proofs.SliceBounds
import FlowMetering.Proofs.ConstantArguments
import FlowMetering.Proofs.WholeArithmetic
import FlowMetering.Proofs.RoundedWords
import FlowMetering.Proofs.WholeComparisons
import FlowMetering.Proofs.JournalledRounds
import FlowMetering.Proofs.GatheredValues
import FlowMetering.Proofs.GatheredSums
import FlowMetering.Proofs.ReadableTexts
import FlowMetering.Proofs.ExportLookup
import FlowMetering.Proofs.FieldNames
import FlowMetering.Proofs.CatalogIndex
import FlowMetering.Proofs.ExporterCalls
import FlowMetering.Proofs.UnheardRegisters
import FlowMetering.Proofs.SoleArguments
import FlowMetering.Proofs.ReceivedPackets
import FlowMetering.Proofs.PartedFlows
import FlowMetering.Proofs.AppliedSelections
import FlowMetering.Proofs.ChosenPackets
import FlowMetering.Proofs.PairedFeatures
import FlowMetering.Proofs.NestedSlices
import FlowMetering.Proofs.ReplacedSettings
import FlowMetering.Proofs.CallTrees
import FlowMetering.Proofs.UnfoldedComposites
import FlowMetering.Proofs.FamilyTemplates
import FlowMetering.Proofs.ReducedTypes
import FlowMetering.Proofs.RelevantRegisters
import FlowMetering.Proofs.SpecificationForms
import FlowMetering.Proofs.AddressTexts
import FlowMetering.Proofs.EncodedValues
