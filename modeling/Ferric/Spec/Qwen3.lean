import Ferric.Spec.Plan

/-!
# The tensors of a model

`qwen3.rs` of the spec crate: the kinds of tensors, and the shape that each has in each role.
-/

namespace Ferric

namespace Spec

/-- `QWEN3_NO_LAYER` -/
def noLayer : ℕ := 2 ^ 32 - 1

/-- What a tensor is. The first three belong to no layer. -/
inductive TensorKind where
  | languageModelHead
  | tokenEmbedding
  | finalNorm
  | inputLayerNorm
  | postAttentionLayerNorm
  | queryNorm
  | keyNorm
  | queryProjection
  | keyProjection
  | valueProjection
  | outputProjection
  | gateProjection
  | upProjection
  | downProjection
  deriving DecidableEq

inductive TensorDType where
  | bf16
  deriving DecidableEq

/-- The metadata of one tensor. A tensor of rank 1 has the second dimension 1. -/
structure TensorMetadata where
  role : ModelRole
  kind : TensorKind
  layer : ℕ
  dtype : TensorDType
  rank : ℕ
  dimension0 : ℕ
  dimension1 : ℕ
  deriving DecidableEq

inductive TensorError where
  | unexpectedLayer
  | unexpectedRank
  | unexpectedShape
  deriving DecidableEq

def ModelRole.layers : ModelRole → ℕ
  | .target8B => 36
  | .draft06B => 28

def ModelRole.tensorCount : ModelRole → ℕ
  | .target8B => 399
  | .draft06B => 311

def ModelRole.tensorDataBytes : ModelRole → ℕ
  | .target8B => 16381470720
  | .draft06B => 1503264768

namespace TensorMetadata

def requireShape (m : TensorMetadata) (rank dimension0 dimension1 : ℕ) :
    Outcome TensorError Unit := do
  failIf (m.rank ≠ rank) .unexpectedRank
  failIf (m.dimension0 ≠ dimension0 ∨ m.dimension1 ≠ dimension1) .unexpectedShape

def requireGlobalShape (m : TensorMetadata) (rank dimension0 dimension1 : ℕ) :
    Outcome TensorError Unit := do
  failIf (m.layer ≠ noLayer) .unexpectedLayer
  m.requireShape rank dimension0 dimension1

def requireLayerShape (m : TensorMetadata) (layers rank dimension0 dimension1 : ℕ) :
    Outcome TensorError Unit := do
  failIf (m.layer ≥ layers) .unexpectedLayer
  m.requireShape rank dimension0 dimension1

def validate (m : TensorMetadata) : Outcome TensorError Unit :=
  match m.role with
  | .target8B =>
    match m.kind with
    | .languageModelHead | .tokenEmbedding => m.requireGlobalShape 2 151936 4096
    | .finalNorm => m.requireGlobalShape 1 4096 1
    | .inputLayerNorm | .postAttentionLayerNorm => m.requireLayerShape 36 1 4096 1
    | .queryNorm | .keyNorm => m.requireLayerShape 36 1 128 1
    | .queryProjection | .outputProjection => m.requireLayerShape 36 2 4096 4096
    | .keyProjection | .valueProjection => m.requireLayerShape 36 2 1024 4096
    | .gateProjection | .upProjection => m.requireLayerShape 36 2 12288 4096
    | .downProjection => m.requireLayerShape 36 2 4096 12288
  | .draft06B =>
    match m.kind with
    | .languageModelHead | .tokenEmbedding => m.requireGlobalShape 2 151936 1024
    | .finalNorm => m.requireGlobalShape 1 1024 1
    | .inputLayerNorm | .postAttentionLayerNorm => m.requireLayerShape 28 1 1024 1
    | .queryNorm | .keyNorm => m.requireLayerShape 28 1 128 1
    | .queryProjection => m.requireLayerShape 28 2 2048 1024
    | .keyProjection | .valueProjection => m.requireLayerShape 28 2 1024 1024
    | .outputProjection => m.requireLayerShape 28 2 1024 2048
    | .gateProjection | .upProjection => m.requireLayerShape 28 2 3072 1024
    | .downProjection => m.requireLayerShape 28 2 1024 3072

end TensorMetadata

end Spec

end Ferric
