import Ferric.Lib.Packet
import Ferric.Spec.Completion

/-!
# The completion record on the wire

`completion_wire.rs`: a device writes one record of 120 bytes for a request, and the bytes are
decoded and checked against the step plan of the request and against what the step must have
produced.

## Conventions

* Bytes are read by their positions. A slice that is too short is a panic.
* A step plan has the bounds of its machine types as fields.
* Of a qualification step, only its kind is read; the other fields of `M1QualificationContextStep`
  are left out.
-/

namespace Ferric

namespace CompletionWire

open Spec

/-- `StepPlan` -/
structure StepPlan where
  request : RequestId
  completionEpoch : ℕ
  planId : Identity
  selection : PlanSelection
  slot_lt : request.slot < 2 ^ 32
  generation_lt : request.generation < 2 ^ 32
  epoch_lt : completionEpoch < 2 ^ 64

/-! ### The layout of a record -/

/-- `RECORD_BYTES_USIZE` -/
def recordBytes : ℕ := 120

def requestSlotOffset : ℕ := 0

def requestGenerationOffset : ℕ := 4

def completionEpochOffset : ℕ := 8

def planIdentityOffset : ℕ := 16

def planIdentityBytes : ℕ := 32

def acceptedDraftTokensOffset : ℕ := 48

def emittedTokenCountOffset : ℕ := 49

def reservedOffset : ℕ := 50

def reservedBytes : ℕ := 2

def tokensOffset : ℕ := 52

def tokenBytes : ℕ := 4

def tokenSlotCount : ℕ := 17

/-- `token_offset` -/
def tokenOffset (index : ℕ) : Option ℕ :=
  if index < tokenSlotCount then some (tokensOffset + index * tokenBytes) else none

/-- `M1_MAX_ACTIVE_SEQUENCES` -/
def maxActiveSequences : ℕ := 32

/-! ### What is expected -/

/-- `M1QualificationLaneGrouping` -/
inductive LaneGrouping where
  | s1
  | s8
  | s32
  deriving DecidableEq

/-- `M1QualificationContextStepKind` -/
inductive ContextStepKind where
  | teacherForcedPromptContext
  | finalObserved
  deriving DecidableEq

/-- `M1QualificationLaneExecutionBinding` -/
structure LaneExecutionBinding where
  laneOrdinal : ℕ
  laneIdentity : Identity
  tokenSequenceIdentity : Identity
  deriving DecidableEq

/-- `M1ValidatedQualificationContextStepV1` -/
structure ValidatedContextStep where
  policyIdentity : Identity
  grouping : LaneGrouping
  ordinal : ℕ
  stepKind : ContextStepKind
  declaredWorkloadDigest : Identity
  lane : LaneExecutionBinding
  deriving DecidableEq

/-- `CompletionWireSemanticExpectation` -/
inductive SemanticExpectation where
  | directFinalRow (choice : Token)
  | qualificationPromptCommit (context : ValidatedContextStep)
  | qualificationFinalRow (context : ValidatedContextStep)
  | speculative (draftTokens targetChoices : List Token)

/-- `CompletionWireExpectation` -/
structure Expectation where
  plan : StepPlan
  semantics : SemanticExpectation

/-- `CheckedCompletionSemantics` -/
inductive CheckedSemantics where
  | directFinalRow (token : Token)
  | qualificationPromptCommit (choice : Token) (context : ValidatedContextStep)
  | qualificationFinalRow (token : Token) (context : ValidatedContextStep)
  | speculative (acceptedDraftTokens : ℕ) (correctionOrBonus : Token)
  deriving DecidableEq

/-- `CompletionWireError`, as far as one record is concerned. -/
inductive WireError where
  | recordLength (expected actual : ℕ)
  | reservedNonzero
  | emittedCountOutOfRange (actual : ℕ)
  | requestSlotOutOfRange (actual : ℕ)
  | zeroRequestGeneration
  | selection (error : PlanError)
  | nonTargetRole
  | modeSemanticsMismatch
  | qualificationGroupingMismatch
  | qualificationStepKindMismatch
  | qualificationFinalRowRequiresLogitsEvidence
  | speculativeLengthMismatch (expected actual : ℕ)
  | logical (error : CompactCompletionError)
  | directFinalRowMismatch (expected actual : Token)
  | speculative (error : SpeculativeCompletionError)
  deriving DecidableEq

/-- `InertCheckedCompletionRecord` -/
structure CheckedRecord where
  record : CompactCompletionRecord
  selection : PlanSelection
  semantics : CheckedSemantics
  deriving DecidableEq

/-! ### Decoding -/

/-- `bytes[offset..offset + count]` -/
def field (bytes : List UInt8) (offset count : ℕ) : Outcome WireError (List UInt8) :=
  if offset + count ≤ bytes.length then .ok (slice bytes offset (offset + count))
  else .error .panic

/-- `read_u32` -/
def readU32 (bytes : List UInt8) (offset : ℕ) : Outcome WireError ℕ :=
  return ofLe (← field bytes offset 4)

/-- `read_u64` -/
def readU64 (bytes : List UInt8) (offset : ℕ) : Outcome WireError ℕ :=
  return ofLe (← field bytes offset 8)

/-- A byte by its position. -/
def readU8 (bytes : List UInt8) (offset : ℕ) : Outcome WireError ℕ :=
  return (← orPanic bytes[offset]?).toNat

/-- `plan_id.copy_from_slice(..)` -/
def readIdentity (bytes : List UInt8) (offset : ℕ) : Outcome WireError Identity := do
  let source ← field bytes offset planIdentityBytes
  orPanic (if h : source.length = 32 then some ⟨⟨source.toArray, h⟩⟩ else none)

/-- `decode_completion_record` -/
def decodeCompletionRecord (bytes : List UInt8) : Outcome WireError CompactCompletionRecord := do
  failIf (bytes.length ≠ recordBytes) (.recordLength recordBytes bytes.length)
  let reserved ← field bytes reservedOffset reservedBytes
  failIf (reserved.any (· ≠ 0)) .reservedNonzero
  let emittedTokenCount ← readU8 bytes emittedTokenCountOffset
  failIf (emittedTokenCount > tokenSlotCount) (.emittedCountOutOfRange emittedTokenCount)
  let slot ← readU32 bytes requestSlotOffset
  failIf (slot ≥ maxActiveSequences) (.requestSlotOutOfRange slot)
  let generation ← readU32 bytes requestGenerationOffset
  failIf (generation = 0) .zeroRequestGeneration
  let epoch ← readU64 bytes completionEpochOffset
  let planId ← readIdentity bytes planIdentityOffset
  let emittedTokens ← fill (fun _ index => do readU32 bytes (← orPanic (tokenOffset index))) 0
    maxCompletionTokens (.replicate maxCompletionTokens 0)
  let acceptedDraftTokens ← readU8 bytes acceptedDraftTokensOffset
  return ⟨⟨slot, generation⟩, epoch, planId, acceptedDraftTokens, emittedTokenCount, emittedTokens⟩

/-! ### Checking -/

/-- `speculative_k` -/
def speculativeK : PlanBucket → Option ℕ
  | .speculativeS1K4C8192 | .speculativeS8K4C8192 => some 4
  | .speculativeS1K8C8192 => some 8
  | .speculativeS1K16C8192 => some 16
  | _ => none

/-- `validate_qualification_selection` -/
def validateQualificationSelection (selection : PlanSelection) (context : ValidatedContextStep) :
    Outcome WireError Unit := do
  let grouping ← match selection.bucket with
    | .decodeS1C8192 => pure LaneGrouping.s1
    | .decodeS8C8192 => pure .s8
    | .decodeS32C8192 => pure .s32
    | _ => .error (.err .qualificationGroupingMismatch)
  failIf (context.grouping ≠ grouping) .qualificationGroupingMismatch

/-- `checked_speculative_semantics` -/
def checkedSpeculativeSemantics (commit : GreedyCommit) : Outcome WireError CheckedSemantics := do
  let acceptedDraftTokens ←
    orPanic (if commit.acceptedDraftTokens < 256 then some commit.acceptedDraftTokens else none)
  return .speculative acceptedDraftTokens commit.targetCorrectionOrBonus

/-- The check of a record that emits one token. -/
def checkSingleToken (record : CompactCompletionRecord) (plan : StepPlan) :
    Outcome WireError Token := do
  mapErr .logical
    (validateCompactCompletion record plan.request plan.completionEpoch plan.planId 0)
  entry record.emittedTokens 0

/-- The comparison of modes and expectations in `check_completion_record`. -/
def checkSemantics (record : CompactCompletionRecord) (plan : StepPlan)
    (qualificationFinalChoice : Option Token) :
    ExecutionMode → SemanticExpectation → Outcome WireError CheckedSemantics
  | .prefill, .directFinalRow choice | .decode, .directFinalRow choice => do
    let actual ← checkSingleToken record plan
    failIf (actual ≠ choice) (.directFinalRowMismatch choice actual)
    return .directFinalRow actual
  | .decode, .qualificationPromptCommit context => do
    validateQualificationSelection plan.selection context
    failIf (context.stepKind ≠ .teacherForcedPromptContext) .qualificationStepKindMismatch
    let choice ← checkSingleToken record plan
    return .qualificationPromptCommit choice context
  | .decode, .qualificationFinalRow context => do
    let choice ← orErr .qualificationFinalRowRequiresLogitsEvidence qualificationFinalChoice
    validateQualificationSelection plan.selection context
    failIf (context.stepKind ≠ .finalObserved) .qualificationStepKindMismatch
    let actual ← checkSingleToken record plan
    failIf (actual ≠ choice) (.directFinalRowMismatch choice actual)
    return .qualificationFinalRow actual context
  | .speculative, .speculative draftTokens targetChoices => do
    let expected ← orErr .modeSemanticsMismatch (speculativeK plan.selection.bucket)
    failIf (draftTokens.length ≠ expected) (.speculativeLengthMismatch expected draftTokens.length)
    let commit ← mapErr .speculative (verifySpeculativeCompletion record plan.request
      plan.completionEpoch plan.planId draftTokens targetChoices)
    checkedSpeculativeSemantics commit
  | _, _ => .error (.err .modeSemanticsMismatch)

/-- `check_completion_record` -/
def checkCompletionRecord (bytes : List UInt8) (expectation : Expectation)
    (qualificationFinalChoice : Option Token) : Outcome WireError CheckedRecord := do
  let record ← decodeCompletionRecord bytes
  let selection := expectation.plan.selection
  mapErr .selection selection.validate
  failIf (selection.role ≠ .target8B) .nonTargetRole
  let semantics ← checkSemantics record expectation.plan qualificationFinalChoice selection.mode
    expectation.semantics
  return ⟨record, selection, semantics⟩

/-- `check_inert_completion_record` -/
def checkInertCompletionRecord (bytes : List UInt8) (expectation : Expectation) :
    Outcome WireError CheckedRecord :=
  checkCompletionRecord bytes expectation none

/-- `check_inert_qualification_final_completion_record` -/
def checkInertQualificationFinalCompletionRecord (bytes : List UInt8) (expectation : Expectation)
    (derivedChoice : Token) : Outcome WireError CheckedRecord :=
  checkCompletionRecord bytes expectation (some derivedChoice)

end CompletionWire

end Ferric
