import Ferric.Lib.Outcome

/-!
# Identities and plan selections

The vocabulary that the crates share: identities, request ids, model roles and the finite plan
buckets of `graph.rs`, of which the speculative engine uses the dimensions.
-/

namespace Ferric

namespace Spec

/-- Token ids. -/
abbrev Token := ℕ

/-- `QWEN3_VOCABULARY_SIZE` -/
def vocabularySize : ℕ := 151936

/-- `M1_MAX_CONTEXT_TOKENS` -/
def maxContextTokens : ℕ := 8192

/-- `M1_CONTINUOUS_BATCH_CAPACITY` -/
def continuousBatchCapacity : ℕ := 32

/-- A canonical 256-bit identity. -/
structure Identity where
  bytes : Vector UInt8 32
  deriving DecidableEq

/-- Some byte is not zero. -/
def Identity.isPresent (i : Identity) : Bool := i.bytes.any (· ≠ 0)

/-- A generational request identity. Reusing a slot changes its generation. -/
structure RequestId where
  slot : ℕ
  generation : ℕ
  deriving DecidableEq

/-- The two models of a speculative pair. -/
inductive ModelRole where
  | target8B
  | draft06B
  deriving DecidableEq

/-- What a plan executes. -/
inductive ExecutionMode where
  | prefill
  | decode
  | speculative
  deriving DecidableEq

/-- The finite plan buckets. -/
inductive PlanBucket where
  | prefillS1T128
  | prefillS8T128
  | prefillS1T512
  | prefillS1T2048
  | decodeS1C8192
  | decodeS8C8192
  | decodeS32C8192
  | speculativeS1K4C8192
  | speculativeS8K4C8192
  | speculativeS1K8C8192
  | speculativeS1K16C8192
  deriving DecidableEq

/-- Sequences, active tokens and context of a plan. -/
structure PlanDimensions where
  sequences : ℕ
  activeTokens : ℕ
  contextTokens : ℕ
  deriving DecidableEq

/-- The dimensions of a bucket in a role and mode, if the bucket belongs to the mode. -/
def PlanBucket.dimensions (bucket : PlanBucket) (role : ModelRole) (mode : ExecutionMode) :
    Option PlanDimensions :=
  let width (k : ℕ) : ℕ := match role with
    | .target8B => k + 1
    | .draft06B => k
  match mode, bucket with
  | .prefill, .prefillS1T128 => some ⟨1, 128, 128⟩
  | .prefill, .prefillS8T128 => some ⟨8, 128, 128⟩
  | .prefill, .prefillS1T512 => some ⟨1, 512, 512⟩
  | .prefill, .prefillS1T2048 => some ⟨1, 2048, 2048⟩
  | .decode, .decodeS1C8192 => some ⟨1, 1, 8192⟩
  | .decode, .decodeS8C8192 => some ⟨8, 1, 8192⟩
  | .decode, .decodeS32C8192 => some ⟨32, 1, 8192⟩
  | .speculative, .speculativeS1K4C8192 => some ⟨1, width 4, 8192⟩
  | .speculative, .speculativeS8K4C8192 => some ⟨8, width 4, 8192⟩
  | .speculative, .speculativeS1K8C8192 => some ⟨1, width 8, 8192⟩
  | .speculative, .speculativeS1K16C8192 => some ⟨1, width 16, 8192⟩
  | _, _ => none

/-- An admitted role, mode and bucket. -/
structure PlanSelection where
  role : ModelRole
  mode : ExecutionMode
  bucket : PlanBucket
  deriving DecidableEq

/-- Why a selection is rejected. -/
inductive PlanError where
  | modeBucketMismatch
  deriving DecidableEq

/-- Reject a bucket that does not belong to the mode. -/
def PlanSelection.validate (s : PlanSelection) : Outcome PlanError Unit :=
  failIf ((s.bucket.dimensions s.role s.mode).isNone = true) .modeBucketMismatch

end Spec

end Ferric
