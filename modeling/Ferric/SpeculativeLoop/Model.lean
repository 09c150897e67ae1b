import Ferric.Lib.Outcome
import Ferric.Spec.Plan

/-!
# The speculative generation loop

`speculative_generation_loop.rs`: the coordinator between physical speculative rounds. It binds the
next round to the cursors of its active members, turns what was observed of a round into a permit
that says what every member publishes and commits, and applies a permit later, if the coordinator
still is where the permit's binding found it. A maintenance transition moves a draft cursor that is
one token behind.

Cursors and counts are natural numbers; a sum that the source takes in 32 or 64 bits without a check
of its own is a panic where it does not fit. Host allocation does not fail.

## Main definitions

* `GenerationLoop` — the coordinator
* `bindRound`, `preflightObservedRound`, `commitPreflightedRound`, `commitDraftCatchupTransition`
-/

namespace Ferric

namespace SpeculativeLoop

open Spec

/-- `M1_MAX_ACTIVE_SEQUENCES`, which is the capacity of an inline roster too. -/
def maxActiveSequences : ℕ := 32

/-- `M1_MAX_COMPLETION_TOKENS` -/
def maxCompletionTokens : ℕ := 17

/-- `M1_SPECULATIVE_STOP_TOKEN_CAPACITY_V1` -/
def stopTokenCapacity : ℕ := 2

/-- `QWEN3_END_OF_TEXT_TOKEN` -/
def endOfTextToken : Token := 151643

/-- `QWEN3_IM_END_TOKEN` -/
def imEndToken : Token := 151645

/-- Why the coordinator rejects a call. -/
inductive LoopError where
  | unsupportedSelection (actual : PlanSelection)
  | invalidOutputLimit (actual : ℕ)
  | tooManyStopTokens (maximum actual : ℕ)
  | duplicateStopToken (token : Token)
  | tokenOutOfRange (token : Token)
  | emptyRoster
  | rosterCapacity (maximum actual : ℕ)
  | invalidRequest (lane : ℕ) (request : RequestId)
  | duplicateRequest (firstLane lane : ℕ)
  | contextExceeded (lane : ℕ) (role : ModelRole)
  | noActiveMembers
  | roundDrift (expected actual : ℕ)
  | roundExhausted
  | zeroEpoch
  | epochSequence (expected actual : ℕ)
  | rosterCount (expected actual : ℕ)
  | rosterOrder (lane : ℕ) (expected actual : RequestId)
  | bindingMemberState (lane : ℕ) (request : RequestId)
  | selectionDrift (expected actual : PlanSelection)
  | epochDrift (expected actual : ℕ)
  | completionCount (expected actual : ℕ)
  | completionRequest (lane : ℕ) (expected actual : RequestId)
  | completionSemantics (lane : ℕ)
  | acceptedCount (lane maximum actual : ℕ)
  | emittedCount (lane expected actual : ℕ)
  | correctionOrBonus (lane : ℕ) (expected actual : Token)
  | controlCount (expected actual : ℕ)
  | controlRequest (lane : ℕ) (expected actual : RequestId)
  | coordinatorIdentityExhausted
  | coordinatorIdentityMismatch
  | draftCatchupState
  deriving DecidableEq

/-! ### Shapes, policies and seeds -/

/-- One fixed physical graph shape. -/
structure PhysicalShape where
  selection : PlanSelection
  sequences : ℕ
  draftTokens : ℕ
  deriving DecidableEq

/-- `from_selection` -/
def PhysicalShape.fromSelection (selection : PlanSelection) : Outcome LoopError PhysicalShape := do
  failIf (selection.role ≠ .target8B ∨ selection.mode ≠ .speculative)
    (.unsupportedSelection selection)
  match selection.bucket with
  | .speculativeS1K4C8192 => return ⟨selection, 1, 4⟩
  | .speculativeS8K4C8192 => return ⟨selection, 8, 4⟩
  | .speculativeS1K8C8192 => return ⟨selection, 1, 8⟩
  | .speculativeS1K16C8192 => return ⟨selection, 1, 16⟩
  | _ => .error (.err (.unsupportedSelection selection))

/-- The loop of `Policy::new` over the stop tokens that are left. -/
def checkStopTokens (seen : List Token) : List Token → Outcome LoopError Unit
  | [] => .ok ()
  | token :: rest => do
    failIf (vocabularySize ≤ token) (.tokenOutOfRange token)
    failIf (token ∈ seen) (.duplicateStopToken token)
    checkStopTokens (seen ++ [token]) rest

/-- Bounded publication and stop policy of one request. -/
structure GenerationPolicy where
  maxOutputTokens : ℕ
  stopTokens : List Token
  max_pos : 0 < maxOutputTokens
  max_le : maxOutputTokens ≤ maxContextTokens
  length_le : stopTokens.length ≤ stopTokenCapacity
  checked : checkStopTokens [] stopTokens = .ok ()
  deriving DecidableEq

/-- `M1SpeculativeGenerationPolicyV1::new` -/
def GenerationPolicy.new (maxOutputTokens : ℕ) (stopTokens : List Token) :
    Outcome LoopError GenerationPolicy :=
  if hmax : maxOutputTokens = 0 ∨ maxContextTokens < maxOutputTokens then
    .error (.err (.invalidOutputLimit maxOutputTokens))
  else if hlength : stopTokenCapacity < stopTokens.length then
    .error (.err (.tooManyStopTokens stopTokenCapacity stopTokens.length))
  else match hchecked : checkStopTokens [] stopTokens with
    | .error e => .error e
    | .ok () => .ok ⟨maxOutputTokens, stopTokens, by omega, by omega, by omega, hchecked⟩

/-- `qwen3` -/
def GenerationPolicy.qwen3 (maxOutputTokens : ℕ) : Outcome LoopError GenerationPolicy :=
  GenerationPolicy.new maxOutputTokens [endOfTextToken, imEndToken]

def GenerationPolicy.isStop (policy : GenerationPolicy) (token : Token) : Bool :=
  policy.stopTokens.contains token

/-- Initial request-local state. -/
structure MemberSeed where
  request : RequestId
  roundAnchor : Token
  targetCommittedTokens : ℕ
  draftCommittedTokens : ℕ
  policy : GenerationPolicy
  deriving DecidableEq

/-! ### Members, bindings and permits -/

inductive TerminalReason where
  | stopToken (token : Token)
  | outputLimit
  deriving DecidableEq

inductive CancellationReason where
  | client
  | deadline
  | serverShutdown
  deriving DecidableEq

inductive MemberStatus where
  | active
  | completed (reason : TerminalReason)
  | cancelled (reason : CancellationReason)
  deriving DecidableEq

structure MemberState where
  request : RequestId
  policy : GenerationPolicy
  status : MemberStatus
  nextAnchor : Token
  targetCommittedTokens : ℕ
  draftCommittedTokens : ℕ
  generatedTokens : ℕ
  deriving DecidableEq

/-- Exact input coordinates of one active member in a bound round. -/
structure RoundMemberInput where
  request : RequestId
  roundAnchor : Token
  targetPreCommitted : ℕ
  draftPreCommitted : ℕ
  deriving DecidableEq

/-- Inert exact binding of one round. -/
structure RoundBinding where
  coordinatorIdentity : ℕ
  shape : PhysicalShape
  round : ℕ
  epoch : ℕ
  members : List RoundMemberInput
  deriving DecidableEq

inductive ControlAction where
  | continue_
  | cancel (reason : CancellationReason)
  deriving DecidableEq

structure MemberControl where
  request : RequestId
  action : ControlAction
  deriving DecidableEq

/-- Bounded token prefix of one checked record. -/
structure TokenBlock where
  tokens : List Token
  fits : tokens.length ≤ maxCompletionTokens
  deriving DecidableEq

def TokenBlock.empty : TokenBlock := ⟨[], Nat.zero_le _⟩

inductive VerificationChoice where
  | correction (token : Token)
  | bonus (token : Token)
  deriving DecidableEq

def VerificationChoice.token : VerificationChoice → Token
  | .correction token => token
  | .bonus token => token

/-- One role's exact tentative interval settlement. -/
structure KvRoleSettlement where
  role : ModelRole
  preCommitted : ℕ
  tentativeEnd : ℕ
  commitEnd : ℕ
  rollbackTokens : ℕ
  deriving DecidableEq

/-- `M1DeviceKvCompletionDispositionV1` -/
inductive CompletionDisposition where
  | continue_
  | retire
  deriving DecidableEq

/-- Complete result for one member in one round. -/
structure MemberRoundOutcome where
  request : RequestId
  acceptedDraftTokens : ℕ
  rawEmitted : TokenBlock
  published : TokenBlock
  verificationChoice : VerificationChoice
  targetSettlement : KvRoleSettlement
  draftSettlement : KvRoleSettlement
  status : MemberStatus
  physicalDisposition : CompletionDisposition
  nextDraftAnchor : Option Token
  deriving DecidableEq

/-- Whole-roster result of a committed round. -/
structure RoundOutcome where
  coordinatorIdentity : ℕ
  selection : PlanSelection
  completedRound : ℕ
  completedEpoch : ℕ
  members : List MemberRoundOutcome
  nextActiveRoster : List RequestId
  deriving DecidableEq

structure PreparedMemberUpdate where
  memberIndex : ℕ
  generatedTokens : ℕ
  deriving DecidableEq

/-- Checked whole-roster transition that waits for the physical completion. -/
structure PreflightedRound where
  binding : RoundBinding
  updates : List PreparedMemberUpdate
  outcomes : List MemberRoundOutcome
  nextActiveRoster : List RequestId
  deriving DecidableEq

/-- `CheckedCompletionSemantics`, of which the coordinator takes only the last. -/
inductive CompletionSemantics where
  | directFinalRow (token : Token)
  | qualificationPromptCommit (choice : Token)
  | qualificationFinalRow (token : Token)
  | speculative (acceptedDraftTokens : ℕ) (correctionOrBonus : Token)
  deriving DecidableEq

structure MemberObservation where
  request : RequestId
  semantics : CompletionSemantics
  emitted : TokenBlock
  deriving DecidableEq

structure PreparedMember where
  memberIndex : ℕ
  generatedTokens : ℕ
  outcome : MemberRoundOutcome
  deriving DecidableEq

/-- `M1DraftCatchupCoordinatorTransitionV1` -/
structure DraftCatchupTransition where
  coordinatorIdentity : ℕ
  parent : PlanSelection
  request : RequestId
  completedRound : ℕ
  priorEpoch : ℕ
  epoch : ℕ
  draftCommitted : ℕ
  targetCommitted : ℕ
  token : Token
  priorDispatchGeneration : ℕ
  dispatchGeneration : ℕ
  deriving DecidableEq

/-- Repeated-round coordinator over already checked physical outputs. -/
structure GenerationLoop where
  identity : ℕ
  shape : PhysicalShape
  members : List MemberState
  nextRound : ℕ
  lastEpoch : Option ℕ
  deriving DecidableEq

/-! ### The functions -/

/-- `validate_context` -/
def validateContext (shape : PhysicalShape) (lane : ℕ) (member : MemberState) :
    Outcome LoopError Unit := do
  let draftWidth := shape.draftTokens
  let targetWidth := draftWidth + 1
  failIf (maxContextTokens - targetWidth < member.targetCommittedTokens)
    (.contextExceeded lane .target8B)
  failIf (maxContextTokens - draftWidth < member.draftCommittedTokens)
    (.contextExceeded lane .draft06B)

/-- The state of a member that a seed starts. -/
def MemberSeed.state (seed : MemberSeed) : MemberState where
  request := seed.request
  policy := seed.policy
  status := .active
  nextAnchor := seed.roundAnchor
  targetCommittedTokens := seed.targetCommittedTokens
  draftCommittedTokens := seed.draftCommittedTokens
  generatedTokens := 0

/-- `validate_seed` -/
def validateSeed (shape : PhysicalShape) (seeds : List MemberSeed) (lane : ℕ)
    (seed : MemberSeed) : Outcome LoopError Unit := do
  failIf (seed.request.generation = 0 ∨ maxActiveSequences ≤ seed.request.slot)
    (.invalidRequest lane seed.request)
  match (seeds.take lane).findIdx? (·.request = seed.request) with
  | some firstLane => .error (.err (.duplicateRequest firstLane lane))
  | none => pure ()
  failIf (vocabularySize ≤ seed.roundAnchor) (.tokenOutOfRange seed.roundAnchor)
  validateContext shape lane seed.state

namespace GenerationLoop

/-- `M1SpeculativeGenerationLoopV1::new`; `fresh` is the next unused identity, if there is one. -/
def new (fresh : Option ℕ) (selection : PlanSelection) (seeds : List MemberSeed) :
    Outcome LoopError GenerationLoop := do
  let shape ← PhysicalShape.fromSelection selection
  let identity ← orErr .coordinatorIdentityExhausted fresh
  failIf (seeds = []) .emptyRoster
  failIf (shape.sequences < seeds.length) (.rosterCapacity shape.sequences seeds.length)
  let members ← seeds.zipIdx.mapM fun (seed, lane) => do
    validateSeed shape seeds lane seed
    pure seed.state
  return { identity, shape, members, nextRound := 0, lastEpoch := none }

/-- The active members, in the original order. -/
def active (loop : GenerationLoop) : List MemberState :=
  loop.members.filter (·.status = .active)

/-- `active_roster` -/
def activeRoster (loop : GenerationLoop) : List RequestId := loop.active.map (·.request)

/-- The epoch must follow the last one. -/
def checkEpoch (lastEpoch : Option ℕ) (epoch : ℕ) : Outcome LoopError Unit :=
  match lastEpoch with
  | none => pure ()
  | some last => do
    let expected ← orErr .roundExhausted (checkedAdd 64 last 1)
    failIf (epoch ≠ expected) (.epochSequence expected epoch)

/-- `bind_round` -/
def bindRound (loop : GenerationLoop) (round epoch : ℕ) (roster : List RequestId) :
    Outcome LoopError RoundBinding := do
  failIf (round ≠ loop.nextRound) (.roundDrift loop.nextRound round)
  failIf (loop.nextRound = 2 ^ 64 - 1) .roundExhausted
  failIf (epoch = 0) .zeroEpoch
  checkEpoch loop.lastEpoch epoch
  failIf (loop.active.length = 0) .noActiveMembers
  failIf (roster.length ≠ loop.active.length) (.rosterCount loop.active.length roster.length)
  let members ← (loop.active.zip roster).zipIdx.mapM fun ((member, actual), lane) => do
    failIf (member.request ≠ actual) (.rosterOrder lane member.request actual)
    validateContext loop.shape lane member
    failIf (maxActiveSequences ≤ lane) (.rosterCapacity maxActiveSequences loop.active.length)
    pure { request := member.request
           roundAnchor := member.nextAnchor
           targetPreCommitted := member.targetCommittedTokens
           draftPreCommitted := member.draftCommittedTokens }
  return { coordinatorIdentity := loop.identity, shape := loop.shape, round, epoch, members }

/-- `validate_binding` -/
def validateBinding (loop : GenerationLoop) (binding : RoundBinding) :
    Outcome LoopError Unit := do
  failIf (binding.coordinatorIdentity ≠ loop.identity) .coordinatorIdentityMismatch
  failIf (binding.shape ≠ loop.shape)
    (.selectionDrift loop.shape.selection binding.shape.selection)
  failIf (binding.round ≠ loop.nextRound) (.roundDrift loop.nextRound binding.round)
  failIf (binding.members.length ≠ loop.active.length)
    (.rosterCount loop.active.length binding.members.length)
  (loop.active.zip binding.members).zipIdx.foldlM (fun _ ((member, input), lane) => do
    failIf (member.request ≠ input.request) (.rosterOrder lane member.request input.request)
    failIf (member.nextAnchor ≠ input.roundAnchor ∨
      member.targetCommittedTokens ≠ input.targetPreCommitted ∨
      member.draftCommittedTokens ≠ input.draftPreCommitted)
      (.bindingMemberState lane member.request)) ()

end GenerationLoop

/-- The loop of `apply_member_policy` over the tokens that are left. -/
def publishTokens (policy : GenerationPolicy) :
    ℕ → List Token → List Token × MemberStatus × ℕ
  | generated, [] => ([], .active, generated)
  | generated, token :: rest =>
    if generated = policy.maxOutputTokens then ([], .completed .outputLimit, generated)
    else if policy.isStop token then ([token], .completed (.stopToken token), generated + 1)
    else if generated + 1 = policy.maxOutputTokens then
      ([token], .completed .outputLimit, generated + 1)
    else
      let (published, status, total) := publishTokens policy (generated + 1) rest
      (token :: published, status, total)

/-- What is published is no longer than what was emitted. -/
theorem length_publishTokens_le (policy : GenerationPolicy) (generated : ℕ) (raw : List Token) :
    (publishTokens policy generated raw).1.length ≤ raw.length := by
  induction raw generalizing generated with
  | nil => exact Nat.le_refl _
  | cons token rest ih =>
    have hrest := ih (generated + 1)
    unfold publishTokens
    split_ifs
    · exact Nat.zero_le _
    · exact Nat.le_add_left ..
    · exact Nat.le_add_left ..
    · exact Nat.succ_le_succ hrest

/-- `apply_member_policy` -/
def applyMemberPolicy (member : MemberState) (raw : TokenBlock) (control : ControlAction) :
    TokenBlock × MemberStatus × ℕ :=
  match control with
  | .cancel reason => (.empty, .cancelled reason, member.generatedTokens)
  | .continue_ =>
    let result := publishTokens member.policy member.generatedTokens raw.tokens
    (⟨result.1, Nat.le_trans (length_publishTokens_le ..) raw.fits⟩, result.2)

/-- `prepare_member` -/
def prepareMember (shape : PhysicalShape) (lane memberIndex : ℕ) (member : MemberState)
    (observation : MemberObservation) (control : ControlAction) :
    Outcome LoopError PreparedMember := do
  let .speculative accepted correctionOrBonus := observation.semantics
    | .error (.err (.completionSemantics lane))
  let width := shape.draftTokens
  failIf (width < accepted) (.acceptedCount lane width accepted)
  failIf (observation.emitted.tokens.length ≠ accepted + 1)
    (.emittedCount lane (accepted + 1) observation.emitted.tokens.length)
  let actual ← orPanic observation.emitted.tokens[accepted]?
  failIf (actual ≠ correctionOrBonus) (.correctionOrBonus lane correctionOrBonus actual)
  let draftAccepted := if accepted < width then accepted + 1 else width
  let targetTentativeEnd ← orPanic (checkedAdd 32 member.targetCommittedTokens (width + 1))
  let draftTentativeEnd ← orPanic (checkedAdd 32 member.draftCommittedTokens width)
  let targetCommitEnd ← orPanic (checkedAdd 32 member.targetCommittedTokens (accepted + 1))
  let draftCommitEnd ← orPanic (checkedAdd 32 member.draftCommittedTokens draftAccepted)
  let (published, status, generatedTokens) :=
    applyMemberPolicy member observation.emitted control
  return {
    memberIndex
    generatedTokens
    outcome := {
      request := member.request
      acceptedDraftTokens := accepted
      rawEmitted := observation.emitted
      published
      verificationChoice :=
        if accepted = width then .bonus correctionOrBonus else .correction correctionOrBonus
      targetSettlement := {
        role := .target8B
        preCommitted := member.targetCommittedTokens
        tentativeEnd := targetTentativeEnd
        commitEnd := targetCommitEnd
        rollbackTokens := width - accepted }
      draftSettlement := {
        role := .draft06B
        preCommitted := member.draftCommittedTokens
        tentativeEnd := draftTentativeEnd
        commitEnd := draftCommitEnd
        rollbackTokens := if accepted < width then width - accepted - 1 else 0 }
      status
      physicalDisposition := if status = .active then .continue_ else .retire
      nextDraftAnchor := if status = .active then some correctionOrBonus else none } }

namespace GenerationLoop

/-- One lane of the loop of `preflight_observed_round`. -/
def prepareLane (loop : GenerationLoop) (rosterLength lane : ℕ) (input : RoundMemberInput)
    (observation : MemberObservation) (control : MemberControl) :
    Outcome LoopError PreparedMember := do
  failIf (observation.request ≠ input.request)
    (.completionRequest lane input.request observation.request)
  failIf (control.request ≠ input.request) (.controlRequest lane input.request control.request)
  let memberIndex ← orErr (.bindingMemberState lane input.request)
    (loop.members.findIdx? (·.request = input.request))
  let member ← orPanic loop.members[memberIndex]?
  let prepared ← prepareMember loop.shape lane memberIndex member observation control.action
  failIf (maxActiveSequences ≤ lane) (.rosterCapacity maxActiveSequences rosterLength)
  pure prepared

/-- `preflight_observed_round` -/
def preflightObservedRound (loop : GenerationLoop) (binding : RoundBinding)
    (selection : PlanSelection) (epoch : ℕ) (observations : List MemberObservation)
    (controls : List MemberControl) : Outcome LoopError PreflightedRound := do
  loop.validateBinding binding
  failIf (selection ≠ loop.shape.selection) (.selectionDrift loop.shape.selection selection)
  failIf (epoch ≠ binding.epoch) (.epochDrift binding.epoch epoch)
  failIf (observations.length ≠ binding.members.length)
    (.completionCount binding.members.length observations.length)
  failIf (controls.length ≠ binding.members.length)
    (.controlCount binding.members.length controls.length)
  let prepared ← (binding.members.zip (observations.zip controls)).zipIdx.mapM
    fun ((input, observation, control), lane) =>
      loop.prepareLane binding.members.length lane input observation control
  let outcomes := prepared.map (·.outcome)
  return {
    binding
    updates := prepared.map fun p =>
      { memberIndex := p.memberIndex, generatedTokens := p.generatedTokens }
    outcomes
    nextActiveRoster := (outcomes.filter (·.status = .active)).map (·.request) }

end GenerationLoop

/-- A member after an update was applied to it. -/
def MemberState.settled (member : MemberState) (update : PreparedMemberUpdate)
    (outcome : MemberRoundOutcome) : MemberState :=
  { member with
    status := outcome.status
    nextAnchor := outcome.verificationChoice.token
    targetCommittedTokens := outcome.targetSettlement.commitEnd
    draftCommittedTokens := outcome.draftSettlement.commitEnd
    generatedTokens := update.generatedTokens }

/-- One turn of the loop of `commit_preflighted_round`. -/
def applyUpdate (members : List MemberState)
    (step : PreparedMemberUpdate × MemberRoundOutcome) : Outcome LoopError (List MemberState) := do
  let member ← orPanic members[step.1.memberIndex]?
  return members.set step.1.memberIndex (member.settled step.1 step.2)

namespace GenerationLoop

/-- `commit_preflighted_round`. A failure gives the unchanged permit back. -/
def commitPreflightedRound (loop : GenerationLoop) (preflighted : PreflightedRound) :
    Outcome LoopError (RoundOutcome × GenerationLoop) := do
  loop.validateBinding preflighted.binding
  let members ← (preflighted.updates.zip preflighted.outcomes).foldlM applyUpdate loop.members
  let nextRound ← orPanic (checkedAdd 64 loop.nextRound 1)
  return (
    { coordinatorIdentity := loop.identity
      selection := loop.shape.selection
      completedRound := loop.nextRound
      completedEpoch := preflighted.binding.epoch
      members := preflighted.outcomes
      nextActiveRoster := preflighted.nextActiveRoster },
    { loop with members, nextRound, lastEpoch := some preflighted.binding.epoch })

/-- `commit_draft_catchup_transition` -/
def commitDraftCatchupTransition (loop : GenerationLoop) (transition : DraftCatchupTransition) :
    Outcome LoopError GenerationLoop := do
  failIf (transition.coordinatorIdentity ≠ loop.identity) .coordinatorIdentityMismatch
  failIf (transition.parent ≠ loop.shape.selection)
    (.selectionDrift loop.shape.selection transition.parent)
  match loop.members with
  | [member] => do
    failIf (loop.shape.sequences ≠ 1 ∨
      checkedAdd 64 transition.completedRound 1 ≠ some loop.nextRound ∨
      transition.priorEpoch = 0 ∨ loop.lastEpoch ≠ some transition.priorEpoch ∨
      checkedAdd 64 transition.priorEpoch 1 ≠ some transition.epoch ∨
      transition.priorDispatchGeneration = 0 ∨
      checkedAdd 64 transition.priorDispatchGeneration 1 ≠ some transition.dispatchGeneration ∨
      member.request ≠ transition.request ∨ member.status ≠ .active ∨
      member.draftCommittedTokens ≠ transition.draftCommitted ∨
      member.targetCommittedTokens ≠ transition.targetCommitted ∨
      checkedAdd 32 transition.draftCommitted 1 ≠ some transition.targetCommitted ∨
      maxContextTokens < transition.targetCommitted ∨ vocabularySize ≤ transition.token)
      .draftCatchupState
    return { loop with
      members := [{ member with draftCommittedTokens := transition.targetCommitted }]
      lastEpoch := some transition.epoch }
  | _ => .error (.err .draftCatchupState)

end GenerationLoop

end SpeculativeLoop

end Ferric
