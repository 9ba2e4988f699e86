import FlowState.Address
import FlowState.Address.Table
import FlowState.Annotation
import FlowState.Annotation.File
import FlowState.Annotation.Folder
import FlowState.Annotation.Store
import FlowState.Architecture
import FlowState.Boundaries
import FlowState.Command
import FlowState.Command.Analysis
import FlowState.Command.Annotations
import FlowState.Command.Binaries
import FlowState.Command.Setup
import FlowState.CommandLine
import FlowState.Digest
import FlowState.Directory
import FlowState.Document
import FlowState.Files
import FlowState.Graph
import FlowState.Graph.Reach
import FlowState.Image
import FlowState.Instant
import FlowState.Instruction
import FlowState.Json
import FlowState.Json.Reader
import FlowState.Listing
import FlowState.Machine.Arm
import FlowState.Machine.Arm64
import FlowState.Machine.Encoding
import FlowState.Machine.Riscv
import FlowState.Machine.Sweep
import FlowState.Machine.Thumb
import FlowState.Machine.X86
import FlowState.Main
import FlowState.Memory
import FlowState.Object
import FlowState.Object.Elf
import FlowState.Object.MachO
import FlowState.Object.Pe
import FlowState.Object.View
import FlowState.Path
import FlowState.Project
import FlowState.Project.Config
import FlowState.Project.Database
import FlowState.Project.DatabaseFile
import FlowState.Project.Layout
import FlowState.Project.Run
import FlowState.Registry
import FlowState.Session
import FlowState.State.Calculator
import FlowState.State.Checksum
import FlowState.State.Error
import FlowState.State.Fixup
import FlowState.State.Update
import FlowState.State.Value
import FlowState.State.Walk
import FlowState.Text.Blank
import FlowState.Text.Hex
import FlowState.Text.Numeral
import FlowState.Text.Utf8
import FlowState.Yaml.Cursor
import FlowState.Yaml.Printer
import FlowState.Yaml.Reader
import FlowState.Yaml.Scalar
import FlowState.Yaml.Schema
import FlowState.Yaml.Token
import FlowState.Proofs.BuiltGraph
import FlowState.Proofs.Runs
import FlowState.Proofs.StepLaw
import FlowState.Proofs.Arrivals
import FlowState.Proofs.Coverage
import FlowState.Proofs.SeedOrder
import FlowState.Proofs.FirstOccurrences
import FlowState.Proofs.BlockCutting
import FlowState.Proofs.FallThrough
import FlowState.Proofs.FinerBlocks
import FlowState.Proofs.FunctionRegions
import FlowState.Proofs.Targets
import FlowState.Proofs.ReportedStates
import FlowState.Proofs.Derived
import FlowState.Proofs.EncodedText
import FlowState.Proofs.JsonText
import FlowState.Proofs.WrittenFiles
import FlowState.Proofs.AnnotationFiles
import FlowState.Proofs.StoredAnnotations
import FlowState.Proofs.StoredFixups
import FlowState.Proofs.CommandRuns
import FlowState.Proofs.OpenedBinaries
import FlowState.Proofs.RemovedAnnotations
import FlowState.Proofs.StoreHistory
import FlowState.Proofs.AuditedReferences
import FlowState.Proofs.FailedPasses
import FlowState.Proofs.AddedAnnotations
import FlowState.Proofs.Cancellation
import FlowState.Proofs.LaterSeeds
import FlowState.Proofs.AddressMaps
import FlowState.Proofs.ChecksumSteps
import FlowState.Proofs.TamperedBytes
import FlowState.Proofs.SerialChecksum
import FlowState.Proofs.EntryRanges
import FlowState.Proofs.MergedImages
import FlowState.Proofs.TiledSegments
import FlowState.Proofs.SweepTurns
import FlowState.Proofs.HexText
import FlowState.Proofs.ListedBytes
import FlowState.Proofs.Migrations
import FlowState.Proofs.PlainScalars
import FlowState.Proofs.QuotedScalars
import FlowState.Proofs.LiteralScalars
import FlowState.Proofs.ScannedScalars
import FlowState.Proofs.RecordTokens
import FlowState.Proofs.RecordDocuments
import FlowState.Proofs.YamlFiles
import FlowState.Proofs.ComparedStores
import FlowState.Proofs.ExactReach
import FlowState.Proofs.AddressText
import FlowState.Proofs.LastAddress
