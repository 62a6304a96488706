import TriggerCompiler.OrderedMap
import TriggerCompiler.Number.Single
import TriggerCompiler.Text.Quoted
import TriggerCompiler.Json.Reader
import TriggerCompiler.Json.Writer
import TriggerCompiler.Json.Decode
import TriggerCompiler.Identifier
import TriggerCompiler.Value
import TriggerCompiler.Trigger.Source
import TriggerCompiler.Catalogue.Basic
import TriggerCompiler.Failure
import TriggerCompiler.Machine.Program
import TriggerCompiler.Machine.Bytecode
import TriggerCompiler.Settings
import TriggerCompiler.Reference
import TriggerCompiler.EventChain
import TriggerCompiler.Emission.Block
import TriggerCompiler.Catalogue.Resolution
import TriggerCompiler.Text.Affix
import TriggerCompiler.Linking.Merge
import TriggerCompiler.Emission.State
import TriggerCompiler.Emission.Action
import TriggerCompiler.Emission.Event
import TriggerCompiler.Compile
import TriggerCompiler.Batch.Basic
import TriggerCompiler.Text.Width
import TriggerCompiler.Command.Run
import TriggerCompiler.Main
import TriggerCompiler.Proofs.BuildLevels
import TriggerCompiler.Proofs.EmissionStep
import TriggerCompiler.Proofs.Heap
import TriggerCompiler.Proofs.Names
import TriggerCompiler.Proofs.HeapNames
import TriggerCompiler.Proofs.ModuleAccess
import TriggerCompiler.Proofs.BatchRefinement
import TriggerCompiler.Proofs.Importing
import TriggerCompiler.Proofs.Methods
import TriggerCompiler.Proofs.Merging
import TriggerCompiler.Proofs.ControlPreservation
import TriggerCompiler.Proofs.CaptureFree
import TriggerCompiler.Proofs.ContainerDecoding
import TriggerCompiler.Proofs.BlockCheck
import TriggerCompiler.Proofs.LegalNames
import TriggerCompiler.Proofs.LexicalScope
import TriggerCompiler.Proofs.ExportedMethods
import TriggerCompiler.Proofs.DistinctNames
import TriggerCompiler.Proofs.FinishedCode
import TriggerCompiler.Proofs.FinishedPrograms
import TriggerCompiler.Proofs.ReplayCode
import TriggerCompiler.Proofs.ReplayEmission
import TriggerCompiler.Proofs.ReplaySessions
import TriggerCompiler.Proofs.HookSegments
import TriggerCompiler.Proofs.CalledModules
import TriggerCompiler.Proofs.MergedHooks
import TriggerCompiler.Proofs.InstanceCalls
import TriggerCompiler.Proofs.MergedOperands
import TriggerCompiler.Proofs.InstanceStorage
import TriggerCompiler.Proofs.ArtifactFormat
import TriggerCompiler.Proofs.LiteralReferences
import TriggerCompiler.Proofs.FailedMerges
import TriggerCompiler.Proofs.PooledConstants
