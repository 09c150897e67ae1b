import Ferric.Lib.Action
import Ferric.Spec.KvIndexing
import Ferric.Spec.Speculation
import Ferric.TpPaged.Model

/-!
# The speculative pair

`tp_paged/speculative.rs` and `speculative/proposals.rs`: one request decoded by two models, each
with a paged pool of its own. A round reserves `K + 1` target inputs and `K` draft inputs, and is
*settled* by keeping of both reservations exactly the inputs that the target's choices confirm.

The candidates of a round are either given by the caller, in its index, or proposed one at a time
by the draft model while the round is open. In the second case the reservations are made with
placeholders, and every proposed token is written into both of them.

## Conventions

* The owner's methods change it in several steps, so they are `Action`s: a call that fails halfway
  leaves what it has done. Read-only parts are functions of the owner, and run by `query`.
* Work tickets and results are plain values here. That a result can be anything a driver once
  sealed, or for another owner, is expressed by quantifying over all of them.
-/

namespace Ferric

namespace TpSpeculative

open TpPaged Ferric.Action

open Spec hiding Token

/-- Fail-closed settlement rejection. -/
inductive SpeculativeError where
  | pool (e : PagedError)
  | index
  | binding
  | phase
  | completion
  | choices
  | exhausted
  deriving DecidableEq

/-- Which work a ticket or a result belongs to. -/
structure WorkIdentity where
  request : RequestId
  epoch : ℕ
  plan : Identity
  role : ModelRole
  pool : ℕ
  batch : ℕ
  catchUp : Bool
  deriving DecidableEq

/-- The inputs of a batch. -/
def inputs (batch : PreparedBatch) : List PageRow := batch.rows.map (·.input)

/-- `u8::try_from`. -/
def toU8 (n : ℕ) : Option ℕ := if n < 2 ^ 8 then some n else none

/-- `?` on a result of a pool. -/
def fromPool {α : Type} (x : Outcome PagedError α) : Outcome SpeculativeError α := mapErr .pool x

/-! ### Work and results -/

/-- Target choices and the exact rows they belong to. -/
structure TargetResult where
  identity : WorkIdentity
  rows : List PageRow
  outputRows : List ℕ
  choices : List Token
  completion : BatchCompletion
  deriving DecidableEq

/-- Target work, minted after the reservation is marked submitted. -/
structure TargetWork where
  identity : WorkIdentity
  batch : PreparedBatch
  rows : ℕ

/-- The ticket is one that this code has minted. -/
def TargetWork.validate (w : TargetWork) : Bool :=
  w.identity.role = .target8B ∧ w.identity.catchUp = false ∧ w.rows ∈ [5, 9, 17] ∧
    w.rows = w.batch.rows.length ∧ w.identity.pool = w.batch.pool ∧ w.identity.batch = w.batch.id

/-- Turn a completed ticket into a result. -/
def TargetWork.seal (w : TargetWork) (completion : BatchCompletion) (choices : List Token)
    (outputRows : List ℕ) : Outcome SpeculativeError TargetResult := do
  failIf (w.validate = false ∨ completion.pool ≠ w.identity.pool ∨
    completion.batch ≠ w.identity.batch) .completion
  failIf (outputRows ≠ List.range w.rows ∨ choices.length ≠ w.rows ∨
    (choices.any (· ≥ vocabularySize)) = true) .choices
  return { identity := w.identity, rows := inputs w.batch, outputRows, choices, completion }

/-- Completion of consumed draft inputs. -/
structure DraftResult where
  identity : WorkIdentity
  rows : List PageRow
  completion : BatchCompletion
  deriving DecidableEq

/-- Draft input work. -/
structure DraftWork where
  identity : WorkIdentity
  batch : PreparedBatch

/-- The ticket is one that this code has minted. -/
def DraftWork.validate (w : DraftWork) : Bool :=
  w.identity.role = .draft06B ∧ w.identity.pool = w.batch.pool ∧ w.identity.batch = w.batch.id ∧
    if w.identity.catchUp then w.batch.rows.length = 1 else w.batch.rows.length ∈ [4, 8, 16]

/-- Turn a completed ticket into a result. -/
def DraftWork.seal (w : DraftWork) (completion : BatchCompletion) :
    Outcome SpeculativeError DraftResult := do
  failIf (w.validate = false ∨ completion.pool ≠ w.identity.pool ∨
    completion.batch ≠ w.identity.batch) .completion
  return { identity := w.identity, rows := inputs w.batch, completion }

/-- Which proposed row a ticket or a result belongs to. -/
structure ProposalIdentity where
  round : WorkIdentity
  ordinal : ℕ
  batch : ℕ
  deriving DecidableEq

/-- One choice of the draft model. -/
structure ProposalResult where
  identity : ProposalIdentity
  input : PageRow
  choice : Token
  completion : BatchCompletion
  deriving DecidableEq

/-- One-row draft work. -/
structure ProposalWork where
  identity : ProposalIdentity
  batch : PreparedBatch

/-- The ticket is one that this code has minted. -/
def ProposalWork.validate (w : ProposalWork) : Bool :=
  w.identity.round.role = .draft06B ∧ w.identity.round.catchUp = false ∧ w.identity.ordinal < 16 ∧
    w.batch.rows.length = 1 ∧ w.batch.pool = w.identity.round.pool ∧
    w.batch.id = w.identity.batch ∧ w.batch.id > w.identity.round.batch

/-- Turn a completed ticket into a result. -/
def ProposalWork.seal (w : ProposalWork) (completion : BatchCompletion) (choices : List Token)
    (outputRows : List ℕ) : Outcome SpeculativeError ProposalResult := do
  failIf (w.validate = false ∨ completion.pool ≠ w.batch.pool ∨ completion.batch ≠ w.batch.id)
    .completion
  failIf (outputRows ≠ [0] ∨ choices.length ≠ 1 ∨ choices[0]?.any (· ≥ vocabularySize) = true)
    .choices
  let choice ← orErr .choices choices.head?
  let row ← orPanic w.batch.rows[0]?
  return { identity := w.identity, input := row.input, choice, completion }

/-! ### The owner -/

/-- The results of a finished proposal phase. -/
structure CompletedProposals where
  firstBatch : ℕ
  results : List ProposalResult
  deriving DecidableEq

/-- A round whose candidates are being proposed. -/
structure ProposalRound where
  target : PreparedBatch
  draft : PreparedBatch
  index : RoundIndex
  firstBatch : ℕ
  results : List ProposalResult
  active : Option PreparedBatch
  deriving DecidableEq

/-- A round whose candidates are known. -/
structure Round where
  index : RoundIndex
  target : PreparedBatch
  draft : PreparedBatch
  targetResult : Option TargetResult
  draftResult : Option DraftResult
  proposalResults : Option CompletedProposals
  deriving DecidableEq

/-- What the owner is waiting for. -/
inductive Phase where
  | ready
  | proposing (round : ProposalRound)
  | round (round : Round)
  | catchUpRequired (token : Token)
  | catchUp (token : Token) (batch : PreparedBatch)
  | terminal
  deriving DecidableEq

/-- Two role pools and one request's settlement state. -/
structure SpeculativeKv where
  target : PagedPool
  draft : PagedPool
  targetSequence : SequenceId
  draftSequence : SequenceId
  request : RequestId
  epoch : ℕ
  plan : Identity
  targetSelection : PlanSelection
  draftSelection : PlanSelection
  anchor : Token
  phase : Phase
  deriving DecidableEq

/-- The receipt of a settled round. -/
structure Settlement where
  request : RequestId
  epoch : ℕ
  commit : GreedyCommit
  targetCursor : ℕ
  draftCursor : ℕ
  deriving DecidableEq

/-- A method of the owner. -/
abbrev PairM (α : Type) := Action SpeculativeKv SpeculativeError α

/-- The rows a role consumes in a round. -/
def indexedRows (index : RoundIndex) (role : ModelRole) (sequence : SequenceId) :
    Outcome SpeculativeError (List PageRow) := do
  let n ← orPanic (checkedAdd 8 index.draftTokenCount (if role = .target8B then 1 else 0))
  (List.range n).mapM fun ordinal => do
    let input ← orErr .index (match role with
      | .target8B => index.targetInput ordinal
      | .draft06B => index.draftInput ordinal)
    return { sequence, token := input.source.token, position := input.logicalPosition }

/-- Release one page of a rejected tail. -/
def releasePage (before : Sequence) (pages : List PhysicalPage) (page : ℕ) :
    Outcome SpeculativeError (List PhysicalPage) := do
  let physical ← orPanic pages[page]?
  failIf (physical.refs ≠ 1 ∨ physical.cached = true ∨ page ∈ before.pages) .binding
  return pages.set page { physical with refs := 0 }

/-- The state that keeps the batch's inputs up to position `stop` and gives back the rest. -/
def prefixState (pool : PagedPool) (batch : PreparedBatch) (sequenceId : SequenceId)
    (stop : ℕ) : Outcome SpeculativeError State := do
  fromPool (pool.requireBatch batch)
  fromPool pool.checkInvariants
  let pending ← orErr .phase pool.pending
  failIf (pending.submitted = false) .phase
  let before ← orErr .binding (pool.state.sequences.get? sequenceId.serial)
  let next := pending.proposed
  let sequence ← orErr .binding (next.sequences.get? sequenceId.serial)
  let committed ← fromPool (count before.tokens.length)
  failIf (stop < committed) .binding
  let reserved ← fromPool (count sequence.tokens.length)
  failIf (stop > reserved ∨ before.tokens.isPrefixOf sequence.tokens = false ∨
    sequence.tokens.length - before.tokens.length ≠ batch.rows.length ∨
    (batch.rows.zipIdx.any fun (row, ordinal) =>
      row.input.sequence ≠ sequenceId ∨ row.input.position ≠ before.tokens.length + ordinal ∨
        sequence.tokens[row.input.position]? ≠ some row.input.token) = true) .binding
  let retained := (stop + 15) / 16
  let released ← orPanic (if retained ≤ sequence.pages.length then
    some (sequence.pages.drop retained) else none)
  let pages ← released.foldlM (releasePage before) next.pages
  let next := { next with
    pages
    sequences := next.sequences.insert sequenceId.serial
      { tokens := sequence.tokens.take stop, pages := sequence.pages.take retained } }
  fromPool (validateState next pool.limits)
  return next

namespace SpeculativeKv

/-- Take two pools after an equal committed prefill. The anchor is not resident. -/
def new (target : PagedPool) (targetSequence : SequenceId) (draft : PagedPool)
    (draftSequence : SequenceId) (first : RoundIndex) : Outcome SpeculativeError SpeculativeKv := do
  mapErr (fun _ => .index) first.validate
  fromPool target.requireIdle
  fromPool draft.requireIdle
  fromPool target.checkInvariants
  fromPool draft.checkInvariants
  fromPool (target.requireSequence targetSequence)
  fromPool (draft.requireSequence draftSequence)
  failIf (target.identity = draft.identity ∨ target.scope.model = draft.scope.model) .binding
  let targetTokens ← orPanic (target.state.sequences.get? targetSequence.serial)
  let draftTokens ← orPanic (draft.state.sequences.get? draftSequence.serial)
  failIf (targetTokens.tokens ≠ draftTokens.tokens) .binding
  let targetCursor ← fromPool (target.committedPosition targetSequence)
  failIf (targetCursor ≠ first.targetPreCommitted) .binding
  let draftCursor ← fromPool (draft.committedPosition draftSequence)
  failIf (draftCursor ≠ first.draftPreCommitted) .binding
  return { target, draft, targetSequence, draftSequence
           request := first.request
           epoch := first.completionEpoch
           plan := first.planId
           targetSelection := first.targetSelection
           draftSelection := first.draftSelection
           anchor := first.roundAnchor
           phase := .ready }

/-- The pool of a role. -/
def pool (s : SpeculativeKv) : ModelRole → PagedPool
  | .target8B => s.target
  | .draft06B => s.draft

/-- The identity of the work on a batch. -/
def identity (s : SpeculativeKv) (role : ModelRole) (batch : PreparedBatch) (catchUp : Bool) :
    WorkIdentity where
  request := s.request
  epoch := s.epoch
  plan := s.plan
  role := role
  pool := batch.pool
  batch := batch.id
  catchUp := catchUp

/-- Some pool's batch has been submitted. -/
def submitted (s : SpeculativeKv) : Bool := s.target.submitted || s.draft.submitted

/-- Quarantine both pools if the device may be working on one of them. -/
def terminalizeIfSubmitted (s : SpeculativeKv) : SpeculativeKv :=
  if s.submitted then
    { s with
      target := { s.target with poisoned := true }
      draft := { s.draft with poisoned := true }
      phase := .terminal }
  else s

/-- A check whose failure terminalizes submitted work. -/
def preflight {α : Type} (check : SpeculativeKv → Outcome SpeculativeError α) : PairM α :=
  handle (query check) fun e => do
    modify terminalizeIfSubmitted
    fail e

/-- The index is of this owner's current round. -/
def validateIndex (s : SpeculativeKv) (index : RoundIndex) : Outcome SpeculativeError Unit :=
  mapErr (fun _ => .index)
    (index.validateFor s.request s.epoch s.plan s.targetSelection s.draftSelection)

/-- The result belongs to this batch and to submitted work. -/
def validateResult (s : SpeculativeKv) (expected actual : WorkIdentity) (batch : PreparedBatch)
    (rows : List PageRow) (completion : BatchCompletion) : Outcome SpeculativeError Unit := do
  let pool := s.pool expected.role
  fromPool (pool.requireBatch batch)
  failIf (expected ≠ actual ∨ rows ≠ inputs batch ∨ completion.pool ≠ expected.pool ∨
    completion.batch ≠ expected.batch ∨ pool.submitted = false) .completion

/-- Replace the target pool. -/
def putTarget (target : PagedPool) (s : SpeculativeKv) : SpeculativeKv := { s with target }

/-- Replace the draft pool. -/
def putDraft (draft : PagedPool) (s : SpeculativeKv) : SpeculativeKv := { s with draft }

/-! ### Reserving a round -/

/-- Reserve in both pools, or in neither. -/
def reservePair (targetRows draftRows : List PageRow) :
    PairM (PreparedBatch × PreparedBatch) := do
  let target ← orThrow .pool (← attempt target putTarget (·.reserveBatch targetRows))
  match ← attempt draft putDraft (·.reserveBatch draftRows) with
  | .ok draft => return (target, draft)
  | .error e => do
    orThrow .pool (← attempt SpeculativeKv.target putTarget (noReply (·.abortBatch target)))
    fail (.pool e)

/-- The checks of `reserveRound`, and the rows to reserve. -/
def roundRows (index : RoundIndex) (s : SpeculativeKv) :
    Outcome SpeculativeError (List PageRow × List PageRow) := do
  failIf (s.phase ≠ .ready) .phase
  s.validateIndex index
  failIf (index.roundAnchor ≠ s.anchor) .binding
  let targetCursor ← fromPool (s.target.committedPosition s.targetSequence)
  failIf (targetCursor ≠ index.targetPreCommitted) .binding
  let draftCursor ← fromPool (s.draft.committedPosition s.draftSequence)
  failIf (draftCursor ≠ index.draftPreCommitted) .binding
  let _ ← orErr .exhausted (checkedAdd 64 s.epoch 1)
  let targetRows ← indexedRows index .target8B s.targetSequence
  let draftRows ← indexedRows index .draft06B s.draftSequence
  return (targetRows, draftRows)

/-- Reserve `K + 1` target inputs and `K` draft inputs. -/
def reserveRound (index : RoundIndex) : PairM Unit := do
  let rows ← query (roundRows index)
  let (target, draft) ← reservePair rows.1 rows.2
  let round : Round :=
    { index, target, draft, targetResult := none, draftResult := none, proposalResults := none }
  modify fun s => { s with phase := .round round }

/-- The commit ends of a round of `k` candidates. `k` is at most sixteen, so every entry exists. -/
def commitEnds (cursor k : ℕ) : Outcome SpeculativeError (Vector ℕ 17 × Vector ℕ 17) :=
  (List.range (k + 1)).foldlM (fun ends accepted => do
    let target ← orErr .exhausted (checkedAdd 32 cursor (accepted + 1))
    let draft ← orErr .exhausted (checkedAdd 32 cursor (min (accepted + 1) k))
    return (ends.1.setIfInBounds accepted target, ends.2.setIfInBounds accepted draft))
    (Vector.replicate 17 0, Vector.replicate 17 0)

/-- The index of a round whose candidates are not known yet. -/
def proposalIndex (s : SpeculativeKv) : Outcome SpeculativeError RoundIndex := do
  let k ← orErr .index (bucketK s.targetSelection.bucket)
  let cursor ← fromPool (s.target.committedPosition s.targetSequence)
  let draftCursor ← fromPool (s.draft.committedPosition s.draftSequence)
  failIf (draftCursor ≠ cursor) .binding
  let ends ← commitEnds cursor k
  let targetEnd ← orPanic ends.1[k]?
  let draftEnd ← orPanic ends.2[k]?
  let index : RoundIndex :=
    { request := s.request
      completionEpoch := s.epoch
      planId := s.plan
      targetSelection := s.targetSelection
      draftSelection := s.draftSelection
      draftTokenCount := k
      roundAnchor := s.anchor
      draftTokens := Vector.replicate 16 0
      targetPreCommitted := cursor
      draftPreCommitted := cursor
      targetTentative := ⟨cursor, targetEnd⟩
      draftTentative := ⟨cursor, draftEnd⟩
      targetCommitEnds := ends.1
      draftCommitEnds := ends.2
      correctionBonus := .deferredUntilNextStep }
  s.validateIndex index
  return index

/-- What `reserveProposals` computes before it reserves. -/
structure ProposalPlan where
  index : RoundIndex
  nextDraftBatch : ℕ
  targetRows : List PageRow
  draftRows : List PageRow

/-- The checks of `reserveProposals`, and the rows to reserve. -/
def proposalPlan (s : SpeculativeKv) : Outcome SpeculativeError ProposalPlan := do
  failIf (s.phase ≠ .ready) .phase
  let index ← s.proposalIndex
  let _ ← orErr .exhausted (checkedAdd 64 s.epoch 1)
  let nextDraftBatch ← orErr .exhausted
    (checkedAdd 64 s.draft.nextBatch (index.draftTokenCount + 1))
  let targetRows ← indexedRows index .target8B s.targetSequence
  let draftRows ← indexedRows index .draft06B s.draftSequence
  return { index, nextDraftBatch, targetRows, draftRows }

/-- Reserve a round with placeholders for its candidates. -/
def reserveProposals : PairM Unit := do
  let plan ← query proposalPlan
  let (target, draft) ← reservePair plan.targetRows plan.draftRows
  modify fun s => { s with
    draft := { s.draft with nextBatch := plan.nextDraftBatch }
    phase := .proposing
      { target, draft, index := plan.index, firstBatch := s.draft.nextBatch, results := []
        active := none } }

/-! ### Proposing candidates -/

/-- The round and the identity of the next one-row forward. -/
def nextProposal (s : SpeculativeKv) :
    Outcome SpeculativeError (ProposalRound × ProposalIdentity) :=
  match s.phase with
  | .proposing round => do
    failIf (round.active.isSome = true ∨ round.results.length ≥ round.index.draftTokenCount) .phase
    fromPool (s.target.requireBatch round.target)
    fromPool (s.draft.requireBatch round.draft)
    let ordinal ← orErr .index (toU8 round.results.length)
    let batch ← orErr .exhausted (checkedAdd 64 round.firstBatch ordinal)
    return (round, { round := s.identity .draft06B round.draft false, ordinal, batch })
  | _ => .error (.err .phase)

/-- Mark the draft reservation submitted before its first row. It stays submitted between the
forwards. -/
def beginProposal (draftBatch : PreparedBatch) (ordinal : ℕ) : PairM Unit := do
  if ordinal = 0 then
    orThrow .pool (← attempt draft putDraft (noReply (·.beginSubmission draftBatch)))
  else if (← get).draft.submitted = false then
    modify terminalizeIfSubmitted
    fail .completion

/-- Issue the anchor or the previous choice at the next cursor. -/
def proposalWork : PairM ProposalWork := do
  let (round, identity) ← query nextProposal
  beginProposal round.draft identity.ordinal
  let row ← query fun _ => orPanic round.draft.rows[identity.ordinal]?
  let batch : PreparedBatch :=
    { pool := round.draft.pool
      scope := round.draft.scope
      id := identity.batch
      limits := round.draft.limits
      rows := [row] }
  modify fun s => { s with phase := .proposing { round with active := some batch } }
  return { identity, batch }

/-- The result is of the given row of the round. -/
def validateProposal (result : ProposalResult) (round : WorkIdentity) (ordinal batch : ℕ)
    (input : PageRow) : Outcome SpeculativeError Unit := do
  failIf (result.identity ≠ ⟨round, ordinal, batch⟩ ∨ batch ≤ round.batch ∨ result.input ≠ input ∨
    result.completion.pool ≠ round.pool ∨ result.completion.batch ≠ batch) .completion
  failIf (result.choice ≥ vocabularySize) .choices

/-- Write a candidate into a proposed state. -/
def patchState (s : State) (serial position : ℕ) (choice : Token) :
    Outcome SpeculativeError State := do
  let sequence ← orErr .binding (s.sequences.get? serial)
  failIf (position ≥ sequence.tokens.length) .binding
  return { s with sequences :=
    s.sequences.insert serial { sequence with tokens := sequence.tokens.set position choice } }

/-- Write a candidate into a row. -/
def patchRow (rows : List PreparedRow) (ordinal : ℕ) (choice : Token) :
    Outcome SpeculativeError (List PreparedRow) := do
  let row ← orPanic rows[ordinal]?
  return rows.set ordinal { row with input := { row.input with token := choice } }

/-- Write a candidate into an index. -/
def patchIndex (index : RoundIndex) (ordinal : ℕ) (choice : Token) :
    Outcome SpeculativeError RoundIndex := do
  let draftTokens ← orPanic (if h : ordinal < 16 then
    some (index.draftTokens.set ordinal choice) else none)
  return { index with draftTokens }

/-- The states and the index with the candidate written into them. -/
def preflightProposal (result : ProposalResult) (s : SpeculativeKv) :
    Outcome SpeculativeError (State × State × RoundIndex) :=
  match s.phase with
  | .proposing round => do
    fromPool (s.target.requireBatch round.target)
    fromPool (s.draft.requireBatch round.draft)
    fromPool s.target.checkInvariants
    fromPool s.draft.checkInvariants
    let active ← orErr .phase round.active
    let ordinal := round.results.length
    failIf (ordinal ≥ round.index.draftTokenCount ∨ s.target.pending.all (·.submitted) = true ∨
      s.draft.pending.all (!·.submitted) = true) .completion
    let ordinal8 ← orErr .index (toU8 ordinal)
    let row ← orPanic round.draft.rows[ordinal]?
    validateProposal result (s.identity .draft06B round.draft false) ordinal8 active.id row.input
    failIf (inputs active ≠ [result.input]) .binding
    let batch ← orErr .exhausted (checkedAdd 64 round.firstBatch ordinal)
    failIf (active.id ≠ batch) .binding
    let target ← orErr .phase s.target.pending
    let draft ← orErr .phase s.draft.pending
    let position := round.index.targetPreCommitted + ordinal + 1
    let targetState ← patchState target.proposed s.targetSequence.serial position result.choice
    let draftState ← (if ordinal + 1 < round.index.draftTokenCount then
        patchState draft.proposed s.draftSequence.serial position result.choice
      else .ok draft.proposed)
    let index ← patchIndex round.index ordinal result.choice
    s.validateIndex index
    fromPool (validateState targetState s.target.limits)
    fromPool (validateState draftState s.draft.limits)
    return (targetState, draftState, index)
  | _ => .error (.err .phase)

/-- The round with the candidate written into its rows. -/
def resolveProposal (round : ProposalRound) (result : ProposalResult) (index : RoundIndex) :
    Outcome SpeculativeError Phase := do
  let ordinal := round.results.length
  let targetRows ← patchRow round.target.rows (ordinal + 1) result.choice
  let draftRows ← (if ordinal + 1 < round.draft.rows.length then
    patchRow round.draft.rows (ordinal + 1) result.choice else .ok round.draft.rows)
  let target := { round.target with rows := targetRows }
  let draft := { round.draft with rows := draftRows }
  let results := round.results ++ [result]
  if results.length = index.draftTokenCount then
    return .round
      { index, target, draft, targetResult := none, draftResult := none
        proposalResults := some { firstBatch := round.firstBatch, results } }
  else
    return .proposing { round with target, draft, index, results, active := none }

/-- Feed a draft choice into the next row. After `K` results the target may verify. -/
def recordProposal (result : ProposalResult) : PairM Unit := do
  let (targetState, draftState, index) ← preflight (preflightProposal result)
  let s ← get
  match s.target.pending, s.draft.pending with
  | some target, some draft =>
    match s.phase with
    | .proposing round => do
      let phase ← query fun _ => resolveProposal round result index
      modify fun s => { s with
        target := { s.target with pending := some { target with proposed := targetState } }
        draft := { s.draft with pending := some { draft with proposed := draftState } }
        phase }
    | _ => throw .panic
  | _, _ => do
    modify terminalizeIfSubmitted
    fail .completion

/-! ### Verification -/

/-- Mark the target reservation submitted and hand it out. -/
def targetWork : PairM TargetWork := do
  match (← get).phase with
  | .round round => do
    orThrow .pool (← attempt target putTarget (noReply (·.beginSubmission round.target)))
    return { identity := (← get).identity .target8B round.target false
             batch := round.target
             rows := round.index.draftTokenCount + 1 }
  | _ => fail .phase

/-- The batch that the draft model is to consume, and whether it is a catch-up. -/
def draftBatch (s : SpeculativeKv) : Outcome SpeculativeError (PreparedBatch × Bool) :=
  match s.phase with
  | .round round => do
    failIf (round.proposalResults.isSome = true) .phase
    return (round.draft, false)
  | .catchUp _ batch => .ok (batch, true)
  | _ => .error (.err .phase)

/-- Mark the draft reservation submitted and hand it out. -/
def draftWork : PairM DraftWork := do
  let (batch, catchUp) ← query draftBatch
  orThrow .pool (← attempt draft putDraft (noReply (·.beginSubmission batch)))
  return { identity := (← get).identity .draft06B batch catchUp, batch }

/-- The result is a complete set of choices for the round's target batch. -/
def checkTarget (result : TargetResult) (s : SpeculativeKv) : Outcome SpeculativeError Unit :=
  match s.phase with
  | .round round => do
    s.validateResult (s.identity .target8B round.target false) result.identity round.target
      result.rows result.completion
    failIf (round.targetResult.isSome = true) .completion
    failIf (result.outputRows ≠ List.range round.target.rows.length ∨
      result.choices.length ≠ round.target.rows.length ∨
      (result.choices.any (· ≥ vocabularySize)) = true) .choices
  | _ => .error (.err .phase)

/-- Keep a target result. -/
def recordTarget (result : TargetResult) : PairM Unit := do
  preflight (checkTarget result)
  modify fun s => match s.phase with
    | .round round => { s with phase := .round { round with targetResult := some result } }
    | _ => s

/-- The batch a draft result may complete. -/
def draftPending (s : SpeculativeKv) : Outcome SpeculativeError (PreparedBatch × Bool) :=
  match s.phase with
  | .round round => do
    failIf (round.draftResult.isSome = true ∨ round.proposalResults.isSome = true) .phase
    return (round.draft, false)
  | .catchUp _ batch => .ok (batch, true)
  | _ => .error (.err .phase)

/-- The result is of the outstanding draft batch; a catch-up yields the state to commit. -/
def checkDraft (result : DraftResult) (s : SpeculativeKv) :
    Outcome SpeculativeError (Option State) := do
  let (batch, catchUp) ← s.draftPending
  s.validateResult (s.identity .draft06B batch catchUp) result.identity batch result.rows
    result.completion
  if catchUp then
    let stop ← fromPool (s.target.committedPosition s.targetSequence)
    let next ← prefixState s.draft batch s.draftSequence stop
    let draft ← orPanic (next.sequences.get? s.draftSequence.serial)
    let target ← orPanic (s.target.state.sequences.get? s.targetSequence.serial)
    failIf (draft.tokens ≠ target.tokens) .binding
    return some next
  else
    return none

/-- Keep a draft result, or commit the one-row catch-up. -/
def recordDraft (result : DraftResult) : PairM Unit := do
  match ← preflight (checkDraft result) with
  | some state =>
    modify fun s => { s with draft := { s.draft with state, pending := none }, phase := .ready }
  | none =>
    modify fun s => match s.phase with
      | .round round => { s with phase := .round { round with draftResult := some result } }
      | _ => s

/-! ### Settlement -/

/-- The proposals of a round are exactly what its rows consumed. -/
def validateProposals (proposals : CompletedProposals) (s : SpeculativeKv) (round : Round) :
    Outcome SpeculativeError Unit := do
  s.validateIndex round.index
  failIf (proposals.results.length ≠ round.index.draftTokenCount) .binding
  let targetRows ← indexedRows round.index .target8B s.targetSequence
  failIf (inputs round.target ≠ targetRows) .binding
  let draftRows ← indexedRows round.index .draft06B s.draftSequence
  failIf (inputs round.draft ≠ draftRows) .binding
  let identity := s.identity .draft06B round.draft false
  proposals.results.zipIdx.foldlM (fun _ (result, ordinal) => do
    let ordinal8 ← orErr .index (toU8 ordinal)
    let batch ← orErr .exhausted (checkedAdd 64 proposals.firstBatch ordinal)
    let row ← orPanic round.draft.rows[ordinal]?
    validateProposal result identity ordinal8 batch row.input
    let token ← orPanic round.index.draftTokens[ordinal]?
    failIf (result.choice ≠ token) .choices) ()

/-- The proposals are checked if the candidates have been proposed. -/
def checkProposals (s : SpeculativeKv) (round : Round) : Outcome SpeculativeError Unit :=
  match round.proposalResults with
  | some proposals => validateProposals proposals s round
  | none => .ok ()

/-- A round all of whose results are there. -/
def settleable (s : SpeculativeKv) : Outcome SpeculativeError (Round × TargetResult) :=
  match s.phase with
  | .round round => do
    let targetResult ← orErr .phase round.targetResult
    failIf (round.draftResult = none ∧ round.proposalResults = none) .phase
    return (round, targetResult)
  | _ => .error (.err .phase)

/-- Everything that a settlement changes. -/
structure Settled where
  target : State
  draft : State
  phase : Phase
  epoch : ℕ
  receipt : Settlement

/-- The checks of `settle`. -/
def checkSettle (round : Round) (targetResult : TargetResult) (s : SpeculativeKv) :
    Outcome SpeculativeError Settled := do
  s.checkProposals round
  let k := round.index.draftTokenCount
  let drafts ← orPanic (if k ≤ 16 then some (round.index.draftTokens.toList.take k) else none)
  let commit ← mapErr (fun _ => .choices) (verifyGreedyRound drafts targetResult.choices)
  let accepted ← orErr .choices (toU8 commit.acceptedDraftTokens)
  let targetEnd ← orErr .index (round.index.targetCommitEnd accepted)
  let draftEnd ← orErr .index (round.index.draftCommitEnd accepted)
  let target ← prefixState s.target round.target s.targetSequence targetEnd
  let draft ← prefixState s.draft round.draft s.draftSequence draftEnd
  let targetTokens ← orPanic (target.sequences.get? s.targetSequence.serial)
  let draftTokens ← orPanic (draft.sequences.get? s.draftSequence.serial)
  failIf (draftTokens.tokens.isPrefixOf targetTokens.tokens = false) .binding
  let phase ← (if accepted = k then do
      let token ← orPanic (do round.index.draftTokens[← checkedSub k 1]?)
      return .catchUpRequired token
    else .ok .ready)
  let epoch ← orErr .exhausted (checkedAdd 64 s.epoch 1)
  return { target, draft, phase, epoch
           receipt := { request := s.request, epoch := s.epoch, commit
                        targetCursor := targetEnd, draftCursor := draftEnd } }

/-- Keep the accepted inputs of both reservations. -/
def settle : PairM Settlement := do
  let (round, targetResult) ← query settleable
  let settled ← preflight (checkSettle round targetResult)
  modify fun s => { s with
    target := { s.target with state := settled.target, pending := none }
    draft := { s.draft with state := settled.draft, pending := none }
    anchor := settled.receipt.commit.targetCorrectionOrBonus
    epoch := settled.epoch
    phase := settled.phase }
  return settled.receipt

/-! ### Catching up, aborting, failing -/

/-- The row of the last accepted candidate, missing from the draft pool. -/
def catchUpRow (s : SpeculativeKv) : Outcome SpeculativeError PageRow :=
  match s.phase with
  | .catchUpRequired token => do
    let position ← fromPool (s.draft.committedPosition s.draftSequence)
    let cursor ← fromPool (s.target.committedPosition s.targetSequence)
    failIf (checkedAdd 32 position 1 ≠ some cursor) .binding
    return { sequence := s.draftSequence, token, position }
  | _ => .error (.err .phase)

/-- Reserve the last accepted candidate in the draft pool. -/
def reserveDraftCatchUp : PairM Unit := do
  let row ← query catchUpRow
  let batch ← orThrow .pool (← attempt draft putDraft (·.reserveBatch [row]))
  modify fun s => { s with phase := .catchUp row.token batch }

/-- Abandon both reservations of a round. -/
def abortPair (target draft : PreparedBatch) : PairM Unit := do
  query fun s => fromPool (s.target.requireBatch target)
  query fun s => fromPool (s.draft.requireBatch draft)
  modify fun s => { s with
    target := { s.target with pending := none }
    draft := { s.draft with pending := none }
    phase := .ready }

/-- Abort before anything was submitted. -/
def abortUnsubmitted : PairM Unit := do
  let s ← get
  Action.failIf (s.submitted = true) .phase
  match s.phase with
  | .proposing round => abortPair round.target round.draft
  | .round round => abortPair round.target round.draft
  | .catchUp token batch => do
    query fun s => fromPool (s.draft.requireBatch batch)
    modify fun s => { s with
      draft := { s.draft with pending := none }
      phase := .catchUpRequired token }
  | _ => fail .phase

/-- Quarantine both pools after a failure of submitted work. -/
def failSubmitted : PairM Unit := do
  Action.failIf ((← get).submitted = false) .phase
  modify terminalizeIfSubmitted

end SpeculativeKv

end TpSpeculative

end Ferric
