import Ferric.Spec.Plan

/-!
# Model configurations

`configuration.rs` of the spec crate: the geometry of a model, which is pinned for each role.
-/

namespace Ferric

namespace Spec

/-- The errors of configurations that a model configuration can raise. -/
inductive SpecError where
  | missingIdentity (name : String)
  | unexpectedModelShape (role : ModelRole)
  deriving DecidableEq

structure ModelConfig where
  role : ModelRole
  modelId : Identity
  configId : Identity
  vocabularySize : ℕ
  layers : ℕ
  hiddenSize : ℕ
  intermediateSize : ℕ
  queryHeads : ℕ
  kvHeads : ℕ
  headDim : ℕ
  maxPositionEmbeddings : ℕ
  ropeTheta : ℕ
  tieWordEmbeddings : Bool
  deriving DecidableEq

namespace ModelConfig

/-- The role's exact shape. The two arms of the source differ in the numbers and in the last
flag. -/
def requireShape (m : ModelConfig) (layers hiddenSize intermediateSize queryHeads : ℕ)
    (tieWordEmbeddings : Bool) : Outcome SpecError Unit :=
  failIf (m.vocabularySize ≠ Spec.vocabularySize ∨ m.layers ≠ layers ∨
    m.hiddenSize ≠ hiddenSize ∨ m.intermediateSize ≠ intermediateSize ∨
    m.queryHeads ≠ queryHeads ∨ m.kvHeads ≠ 8 ∨ m.headDim ≠ 128 ∨
    m.maxPositionEmbeddings ≠ 40960 ∨ m.ropeTheta ≠ 1000000 ∨
    m.tieWordEmbeddings ≠ tieWordEmbeddings) (.unexpectedModelShape m.role)

/-- `validate` -/
def validate (m : ModelConfig) : Outcome SpecError Unit := do
  failIf (!m.modelId.isPresent) (.missingIdentity "model_id")
  failIf (!m.configId.isPresent) (.missingIdentity "config_id")
  match m.role with
  | .target8B => m.requireShape 36 4096 12288 32 false
  | .draft06B => m.requireShape 28 1024 3072 16 true

end ModelConfig

end Spec

end Ferric
