import Ferric.Cache.Content
import Ferric.Cache.Effects
import Ferric.Cache.Growth
import Ferric.Cache.Identity
import Ferric.Cache.Invariant
import Ferric.Cache.Model
import Ferric.Cache.Operations
import Ferric.Cache.Rollback
import Ferric.Cache.Writes
import Ferric.CompletionWire.Canonical
import Ferric.CompletionWire.Decode
import Ferric.CompletionWire.Model
import Ferric.EngineCore.Calls
import Ferric.EngineCore.Completion
import Ferric.EngineCore.Dispatch
import Ferric.EngineCore.Exhaustion
import Ferric.EngineCore.Fairness
import Ferric.EngineCore.Frozen
import Ferric.EngineCore.Invariant
import Ferric.EngineCore.Lifecycle
import Ferric.EngineCore.Runs
import Ferric.EngineCore.Scheduler
import Ferric.EngineCore.Slots
import Ferric.EngineCore.System
import Ferric.HeadStore.Calls
import Ferric.HeadStore.Client
import Ferric.HeadStore.Codec
import Ferric.HeadStore.Model
import Ferric.HeadStore.Monotonic
import Ferric.Json.Correct
import Ferric.Json.Grammar
import Ferric.Json.Model
import Ferric.Json.Scanner
import Ferric.Json.Tokens
import Ferric.Ledger.Codec
import Ferric.Ledger.Chain
import Ferric.Ledger.History
import Ferric.Ledger.Model
import Ferric.Ledger.Store
import Ferric.Ledger.Outcomes
import Ferric.Lib.Action
import Ferric.Lib.Arena
import Ferric.Lib.Arrays
import Ferric.Lib.BTreeMap
import Ferric.Lib.Blocks
import Ferric.Lib.Coupling
import Ferric.Lib.Cutoff
import Ferric.Lib.Decimal
import Ferric.Lib.Generations
import Ferric.Lib.Keyed
import Ferric.Lib.Lists
import Ferric.Lib.Outcome
import Ferric.Lib.Packet
import Ferric.Lib.PairMerging
import Ferric.Lib.PathTree
import Ferric.Lib.Prefixes
import Ferric.Lib.Ring
import Ferric.Lib.Rounds
import Ferric.Lib.Sha2
import Ferric.Lib.Slots
import Ferric.Lib.System
import Ferric.Lib.Tiling
import Ferric.Lib.Utf8
import Ferric.R33.Canonical
import Ferric.R33.Model
import Ferric.RadixPrefix.Admission
import Ferric.RadixPrefix.Invariant
import Ferric.RadixPrefix.Links
import Ferric.RadixPrefix.Lookup
import Ferric.RadixPrefix.Model
import Ferric.RadixPrefix.Refinement
import Ferric.RadixPrefix.Register
import Ferric.RadixPrefix.Registry
import Ferric.RadixPrefix.Shape
import Ferric.RadixPrefix.Share
import Ferric.Safetensors.Admission
import Ferric.Safetensors.Model
import Ferric.Safetensors.Names
import Ferric.ServingRegistry.Calls
import Ferric.ServingRegistry.Invariant
import Ferric.ServingRegistry.Model
import Ferric.ServingRegistry.Planning
import Ferric.ServingRegistry.Replacement
import Ferric.ServingRegistry.Run
import Ferric.ServingRegistry.Windows
import Ferric.ServingRegistry.Totality
import Ferric.Sha256.Compress
import Ferric.Sha256.Model
import Ferric.Sha256.Streaming
import Ferric.Spec.Completion
import Ferric.Spec.Configuration
import Ferric.Spec.KvIndexing
import Ferric.Spec.Plan
import Ferric.Spec.Qwen3
import Ferric.Spec.Speculation
import Ferric.SpeculativeLoop.Clocks
import Ferric.SpeculativeLoop.Cursors
import Ferric.SpeculativeLoop.Member
import Ferric.SpeculativeLoop.Model
import Ferric.SpeculativeLoop.Round
import Ferric.SpeculativeLoop.Run
import Ferric.SpeculativeLoop.Streams
import Ferric.TensorParallel.Collective
import Ferric.TensorParallel.Layer
import Ferric.TensorParallel.Model
import Ferric.TensorParallel.Sharding
import Ferric.Tokenizer.Bpe
import Ferric.Tokenizer.Construction
import Ferric.Tokenizer.Merging
import Ferric.Tokenizer.Model
import Ferric.Tokenizer.RoundTrip
import Ferric.Tokenizer.Segments
import Ferric.TpBatchRuntime.Device
import Ferric.TpBatchRuntime.Joint
import Ferric.TpBatchRuntime.Model
import Ferric.TpBatchRuntime.Serve
import Ferric.TpBatchRuntime.Step
import Ferric.TpBatchRuntime.Transparency
import Ferric.TpPaged.Content
import Ferric.TpPaged.Eviction
import Ferric.TpPaged.Expiry
import Ferric.TpPaged.Fidelity
import Ferric.TpPaged.Heap
import Ferric.TpPaged.Model
import Ferric.TpPaged.Pool
import Ferric.TpPaged.Reserve
import Ferric.TpPaged.Tail
import Ferric.TpPaged.Times
import Ferric.TpPaged.Transactions
import Ferric.TpPaged.Validate
import Ferric.TpScheduler.Acceptance
import Ferric.TpScheduler.Completion
import Ferric.TpScheduler.Fairness
import Ferric.TpScheduler.Invariant
import Ferric.TpScheduler.Model
import Ferric.TpScheduler.Selection
import Ferric.TpScheduler.Stream
import Ferric.TpSpeculative.Agreement
import Ferric.TpSpeculative.Greedy
import Ferric.TpSpeculative.Model
import Ferric.TpSpeculative.Opening
import Ferric.TpSpeculative.Owner
import Ferric.TpSpeculative.Phases
import Ferric.TpSpeculative.Proposals
import Ferric.TpSpeculative.Reservation
import Ferric.TpSpeculative.Retoken
import Ferric.TpSpeculative.Rollback
import Ferric.TpSpeculative.Settle
import Ferric.WeightStream.Codec
import Ferric.WeightStream.Delivery
import Ferric.WeightStream.InStep
import Ferric.WeightStream.Independence
import Ferric.WeightStream.Layout
import Ferric.WeightStream.Manifest
import Ferric.WeightStream.Model
import Ferric.WeightStream.Reading
import Ferric.WeightStream.Stream
