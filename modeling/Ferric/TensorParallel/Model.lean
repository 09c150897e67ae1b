import Ferric.Spec.Configuration
import Ferric.Spec.Qwen3

/-!
# Tensor-parallel planning

`tensor_parallel.rs`: the equal split of a model's heads, channels and matrices over 1, 2 or 8
ranks, the copy of one row of a rank's rectangle, and the barrier that the ranks of a group pass
before each reduction.

## Conventions

* Matrices are in row-major order, two bytes an element, like the payloads.
* The sizes that a plan admits are small, so products are plain natural numbers.
* A method that fails leaves its object as it was, so it returns the new one on success only.
-/

namespace Ferric

namespace TensorParallel

open Spec

inductive TensorParallelError where
  | invalidModel
  | unsupportedWorldSize
  | nondivisibleGeometry
  | invalidRank
  | invalidRow
  | invalidTensor
  | modelRoleMismatch
  | arithmeticOverflow
  | invalidLayer
  | epochMismatch
  | collectiveOrderMismatch
  | duplicateRank
  | missingRanks
  | invalidSourceLength
  | invalidDestinationLength
  | groupMismatch
  deriving DecidableEq

/-- `TensorParallelRangeV1` -/
structure Range where
  start : ℕ
  count : ℕ
  deriving DecidableEq

/-- `tensor_parallel_range_v1` -/
def tensorParallelRange (extent worldSize rank : ℕ) : Outcome TensorParallelError Range := do
  failIf (worldSize ≠ 1 ∧ worldSize ≠ 2 ∧ worldSize ≠ 8) .unsupportedWorldSize
  failIf (rank ≥ worldSize) .invalidRank
  failIf (extent = 0 ∨ extent % worldSize ≠ 0) .nondivisibleGeometry
  let count := extent / worldSize
  return ⟨count * rank, count⟩

/-- `TensorParallelMatrixModeV1` -/
inductive MatrixMode where
  | replicated
  | columnParallel
  | rowParallelSum
  deriving DecidableEq

/-- `Qwen3TensorParallelTensorV1`: a rectangle of the full matrix. -/
structure Tensor where
  role : ModelRole
  worldSize : ℕ
  rank : ℕ
  sourceRows : ℕ
  sourceColumns : ℕ
  rows : Range
  columns : Range
  mode : MatrixMode
  deriving DecidableEq

namespace Tensor

variable (t : Tensor)

/-- `source_row_bytes`: the offset and the length of a row of the shard. -/
def sourceRowBytes (localRow sourceBytes : ℕ) : Outcome TensorParallelError (ℕ × ℕ) := do
  let expected := t.sourceRows * t.sourceColumns * 2
  failIf (sourceBytes ≠ expected) .invalidSourceLength
  failIf (localRow ≥ t.rows.count) .invalidRow
  let row := t.rows.start + localRow
  let offset := (row * t.sourceColumns + t.columns.start) * 2
  return (offset, t.columns.count * 2)

/-- `copy_bf16_row_into`: the destination after the copy. -/
def copyBf16RowInto (source : List UInt8) (localRow : ℕ) (destination : List UInt8) :
    Outcome TensorParallelError (List UInt8) := do
  let (offset, bytes) ← t.sourceRowBytes localRow source.length
  failIf (destination.length ≠ bytes) .invalidDestinationLength
  (List.range destination.length).foldlM (fun destination index => do
    let byte ← orPanic source[offset + index]?
    return destination.set index byte) destination

/-- The rows of the shard, each copied into a fresh destination. -/
def assemble (source : List UInt8) : Outcome TensorParallelError (List (List UInt8)) :=
  (List.range t.rows.count).mapM fun row =>
    t.copyBf16RowInto source row (List.replicate (t.columns.count * 2) 0)

end Tensor

/-- `Qwen3TensorParallelRankV1` -/
structure RankPlan where
  rank : ℕ
  worldSize : ℕ
  queryHeads : Range
  kvHeads : Range
  queryChannels : Range
  kvChannels : Range
  intermediate : Range
  deriving DecidableEq

/-- `Qwen3TensorParallelPlanV1` -/
structure Plan where
  model : ModelConfig
  worldSize : ℕ

namespace Plan

/-- `new` -/
def new (model : ModelConfig) (worldSize : ℕ) : Outcome TensorParallelError Plan := do
  mapErr (fun _ => .invalidModel) model.validate
  failIf (worldSize ≠ 1 ∧ worldSize ≠ 2 ∧ worldSize ≠ 8) .unsupportedWorldSize
  failIf (model.queryHeads = 0 ∨ model.queryHeads > 32 ∨ model.kvHeads = 0 ∨ model.kvHeads > 8 ∨
    model.headDim ≠ 128 ∨ model.queryHeads % worldSize ≠ 0 ∨ model.kvHeads % worldSize ≠ 0 ∨
    model.queryHeads % model.kvHeads ≠ 0 ∨ model.intermediateSize = 0 ∨
    model.intermediateSize > 12288 ∨ model.intermediateSize % worldSize ≠ 0 ∨
    model.layers = 0 ∨ model.layers > 36) .nondivisibleGeometry
  return ⟨model, worldSize⟩

variable (plan : Plan)

/-- `rank` -/
def rank (rank : ℕ) : Outcome TensorParallelError RankPlan := do
  let queryHeads ← tensorParallelRange plan.model.queryHeads plan.worldSize rank
  let kvHeads ← tensorParallelRange plan.model.kvHeads plan.worldSize rank
  let intermediate ← tensorParallelRange plan.model.intermediateSize plan.worldSize rank
  return {
    rank := rank
    worldSize := plan.worldSize
    queryHeads := queryHeads
    kvHeads := kvHeads
    queryChannels := ⟨queryHeads.start * 128, queryHeads.count * 128⟩
    kvChannels := ⟨kvHeads.start * 128, kvHeads.count * 128⟩
    intermediate := intermediate }

/-- The rectangle of a rank, by the kind of the tensor. -/
def rectangle (metadata : TensorMetadata) (rank : ℕ) :
    Outcome TensorParallelError (Range × Range × MatrixMode) :=
  let fullRows : Range := ⟨0, metadata.dimension0⟩
  let fullColumns : Range := ⟨0, metadata.dimension1⟩
  match metadata.kind with
  | .queryProjection | .keyProjection | .valueProjection | .gateProjection | .upProjection => do
    let rows ← tensorParallelRange metadata.dimension0 plan.worldSize rank
    return (rows, fullColumns, .columnParallel)
  | .outputProjection | .downProjection => do
    let columns ← tensorParallelRange metadata.dimension1 plan.worldSize rank
    return (fullRows, columns, .rowParallelSum)
  | _ => return (fullRows, fullColumns, .replicated)

/-- `tensor` -/
def tensor (metadata : TensorMetadata) (rank : ℕ) : Outcome TensorParallelError Tensor := do
  mapErr (fun _ => .invalidTensor) metadata.validate
  failIf (metadata.role ≠ plan.model.role) .modelRoleMismatch
  failIf (rank ≥ plan.worldSize) .invalidRank
  failIf (metadata.dimension0 = 0 ∨ metadata.dimension1 = 0 ∨ metadata.dimension0 > 151936 ∨
    metadata.dimension1 > 151936) .invalidTensor
  let (rows, columns, mode) ← plan.rectangle metadata rank
  return {
    role := plan.model.role
    worldSize := plan.worldSize
    rank := rank
    sourceRows := metadata.dimension0
    sourceColumns := metadata.dimension1
    rows := rows
    columns := columns
    mode := mode }

end Plan

/-- The draft model. -/
def draftModel : ModelConfig where
  role := .draft06B
  modelId := ⟨.replicate 32 1⟩
  configId := ⟨.replicate 32 2⟩
  vocabularySize := vocabularySize
  layers := 28
  hiddenSize := 1024
  intermediateSize := 3072
  queryHeads := 16
  kvHeads := 8
  headDim := 128
  maxPositionEmbeddings := 40960
  ropeTheta := 1000000
  tieWordEmbeddings := true

theorem Plan.new_draftModel : Plan.new draftModel 2 = .ok ⟨draftModel, 2⟩ := by
  have hmodelId : draftModel.modelId.isPresent = true := by decide +kernel
  have hconfigId : draftModel.configId.isPresent = true := by decide +kernel
  rw [Plan.new, ModelConfig.validate, hmodelId, hconfigId]
  rfl

/-! ### The collective barrier -/

/-- `Qwen3TensorParallelCollectiveV1` -/
inductive Collective where
  | attentionOutputSum
  | feedForwardDownSum
  deriving DecidableEq

/-- `Qwen3TensorParallelCollectiveKeyV1` -/
structure CollectiveKey where
  groupId : ℕ
  modelRole : ModelRole
  epoch : ℕ
  layer : ℕ
  operation : Collective
  deriving DecidableEq

/-- `Qwen3TensorParallelCollectiveStateV1` -/
structure CollectiveState where
  groupId : ℕ
  modelRole : ModelRole
  worldSize : ℕ
  layers : ℕ
  epoch : ℕ
  ordinal : ℕ
  arrived : BitVec 8
  deriving DecidableEq

namespace CollectiveState

/-- `new` -/
def new (plan : Plan) (groupId epoch : ℕ) : CollectiveState where
  groupId := groupId
  modelRole := plan.model.role
  worldSize := plan.worldSize
  layers := plan.model.layers
  epoch := epoch
  ordinal := 0
  arrived := 0

variable (s : CollectiveState)

/-- `expected` -/
def expected : CollectiveKey where
  groupId := s.groupId
  modelRole := s.modelRole
  epoch := s.epoch
  layer := s.ordinal / 2
  operation := if s.ordinal % 2 = 0 then .attentionOutputSum else .feedForwardDownSum

/-- `arrive` -/
def arrive (rank : ℕ) (key : CollectiveKey) : Outcome TensorParallelError CollectiveState := do
  failIf (rank ≥ s.worldSize) .invalidRank
  failIf (key.groupId ≠ s.groupId ∨ key.modelRole ≠ s.modelRole) .groupMismatch
  failIf (key.epoch ≠ s.epoch) .epochMismatch
  failIf (key.layer ≥ s.layers) .invalidLayer
  failIf (key.layer ≠ s.expected.layer ∨ key.operation ≠ s.expected.operation)
    .collectiveOrderMismatch
  let bit := 1#8 <<< rank
  failIf (s.arrived &&& bit ≠ 0) .duplicateRank
  return { s with arrived := s.arrived ||| bit }

/-- The mask of a full group. -/
def allRanks : BitVec 8 := if s.worldSize = 1 then 1 else if s.worldSize = 2 then 3 else 255

/-- `advance` -/
def advance : Outcome TensorParallelError CollectiveState := do
  failIf (s.arrived ≠ s.allRanks) .missingRanks
  let next := s.ordinal + 1
  if next = s.layers * 2 then
    let epoch ← orErr .arithmeticOverflow (checkedAdd 64 s.epoch 1)
    return { s with epoch := epoch, ordinal := 0, arrived := 0 }
  else
    return { s with ordinal := next, arrived := 0 }

end CollectiveState

end TensorParallel

end Ferric
