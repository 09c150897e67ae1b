import Ferric.Lib.Outcome
import Ferric.Spec.Plan

/-!
# Indexing one speculative round

`speculative_kv_indexing.rs`: which token a round feeds to which position of which model. The
target consumes the anchor and the `K` draft candidates, the draft model the anchor and the first
`K - 1` of them. The last target choice is not a write; it is the anchor of the next round.

A round index states all of this redundantly, and `validate` accepts it only if every field is the
canonical one.

## Main results

* `validate_ensures`, `validateFor_ensures` — what an accepted index says
-/

namespace Ferric

namespace Spec

/-- `M1_MAX_SPECULATIVE_KV_DRAFT_TOKENS` -/
def maxDraftTokens : ℕ := 16

/-- `M1_MAX_SPECULATIVE_KV_TARGET_INPUTS` -/
def maxTargetInputs : ℕ := 17

/-- Where a model input comes from. -/
inductive InputSource where
  | roundAnchor (token : Token)
  | draftCandidate (index : ℕ) (token : Token)
  deriving DecidableEq

/-- The token of an input. -/
def InputSource.token : InputSource → Token
  | .roundAnchor token => token
  | .draftCandidate _ token => token

/-- A graph ordinal and its logical KV position. -/
structure InputBinding where
  role : ModelRole
  graphOrdinal : ℕ
  logicalPosition : ℕ
  source : InputSource
  deriving DecidableEq

/-- Where the correction or bonus token is placed. -/
inductive CorrectionBonusDisposition where
  | deferredUntilNextStep
  | targetResident
  | draftResident
  deriving DecidableEq

/-- A half-open interval of positions. -/
structure Interval where
  start : ℕ
  stop : ℕ
  deriving DecidableEq

/-- The indexing of one request-local speculative round. -/
structure RoundIndex where
  request : RequestId
  completionEpoch : ℕ
  planId : Identity
  targetSelection : PlanSelection
  draftSelection : PlanSelection
  draftTokenCount : ℕ
  roundAnchor : Token
  draftTokens : Vector Token 16
  targetPreCommitted : ℕ
  draftPreCommitted : ℕ
  targetTentative : Interval
  draftTentative : Interval
  /-- Entry `A` is the target commit end for accepted count `A`. -/
  targetCommitEnds : Vector ℕ 17
  /-- Entry `A` is the draft commit end for accepted count `A`. -/
  draftCommitEnds : Vector ℕ 17
  correctionBonus : CorrectionBonusDisposition
  deriving DecidableEq

/-- Structural or authority rejection of an index. -/
inductive IndexError where
  | request
  | completionEpoch
  | planIdentity
  | selection (e : PlanError)
  | roleOrMode
  | bucketMismatch
  | draftLength
  | graphDimensions
  | cursorMismatch
  | contextExceeded
  | tentativeInterval
  | tokenOutOfRange
  | noncanonicalUnusedToken
  | commitEnd
  | correctionBonusNotDeferred
  | authorityMismatch
  deriving DecidableEq

/-- The number of draft tokens of a speculative bucket. -/
def bucketK : PlanBucket → Option ℕ
  | .speculativeS1K4C8192 => some 4
  | .speculativeS8K4C8192 => some 4
  | .speculativeS1K8C8192 => some 8
  | .speculativeS1K16C8192 => some 16
  | _ => none

/-- Both buckets are the same speculative one. -/
def bucketsMatch (left right : PlanBucket) : Bool := left = right ∧ (bucketK left).isSome

namespace RoundIndex

/-- The input of an ordinal: the anchor, then the candidates in order. -/
def inputAt (x : RoundIndex) (role : ModelRole) (cursor ordinal : ℕ) (h : ordinal ≤ 16) :
    Option InputBinding := do
  let logicalPosition ← checkedAdd 32 cursor ordinal
  let source : InputSource :=
    if ordinal = 0 then .roundAnchor x.roundAnchor
    else .draftCandidate (ordinal - 1) x.draftTokens[ordinal - 1]
  return { role, graphOrdinal := ordinal, logicalPosition, source }

/-- The target's input of an ordinal up to `K`. -/
def targetInput (x : RoundIndex) (ordinal : ℕ) : Option InputBinding :=
  if h : ordinal > x.draftTokenCount ∨ ordinal > 16 then none
  else x.inputAt .target8B x.targetPreCommitted ordinal (by omega)

/-- The draft model's input of an ordinal below `K`. -/
def draftInput (x : RoundIndex) (ordinal : ℕ) : Option InputBinding :=
  if h : ordinal ≥ x.draftTokenCount ∨ ordinal > 16 then none
  else x.inputAt .draft06B x.draftPreCommitted ordinal (by omega)

/-- Where the target's committed tokens end when `accepted` candidates are. -/
def targetCommitEnd (x : RoundIndex) (accepted : ℕ) : Option ℕ :=
  if accepted > x.draftTokenCount then none
  else do
    let anchored ← checkedAdd 32 x.targetPreCommitted accepted
    checkedAdd 32 anchored 1

/-- Where the draft model's committed tokens end. -/
def draftCommitEnd (x : RoundIndex) (accepted : ℕ) : Option ℕ :=
  if accepted > x.draftTokenCount then none
  else checkedAdd 32 x.draftPreCommitted
    (if accepted < x.draftTokenCount then accepted + 1 else x.draftTokenCount)

/-- One round of the loop over the candidates. -/
def checkToken (x : RoundIndex) (i : ℕ) : Outcome IndexError Unit := do
  let token ← orPanic x.draftTokens[i]?
  if i < x.draftTokenCount then
    failIf (token ≥ vocabularySize) .tokenOutOfRange
  else
    failIf (token ≠ 0) .noncanonicalUnusedToken

/-- One round of the loop over the accepted counts. -/
def checkCommitEnd (x : RoundIndex) (accepted : ℕ) : Outcome IndexError Unit := do
  let target ← orPanic x.targetCommitEnds[accepted]?
  let draft ← orPanic x.draftCommitEnds[accepted]?
  if accepted ≤ x.draftTokenCount then
    failIf (target ≠ x.targetPreCommitted + accepted + 1 ∨
      draft ≠ x.draftPreCommitted +
        (if accepted < x.draftTokenCount then accepted + 1 else x.draftTokenCount)) .commitEnd
  else
    failIf (target ≠ 0 ∨ draft ≠ 0) .commitEnd

/-- Validate the complete index, including every endpoint. -/
def validate (x : RoundIndex) : Outcome IndexError Unit := do
  failIf (x.request.slot ≥ continuousBatchCapacity ∨ x.request.generation = 0) .request
  failIf (x.completionEpoch = 0) .completionEpoch
  failIf (x.planId.isPresent = false) .planIdentity
  mapErr .selection x.targetSelection.validate
  mapErr .selection x.draftSelection.validate
  failIf (x.targetSelection.role ≠ .target8B ∨ x.draftSelection.role ≠ .draft06B ∨
    x.targetSelection.mode ≠ .speculative ∨ x.draftSelection.mode ≠ .speculative) .roleOrMode
  failIf (bucketsMatch x.targetSelection.bucket x.draftSelection.bucket = false) .bucketMismatch
  let k ← orErr .draftLength (bucketK x.targetSelection.bucket)
  failIf (k ≠ x.draftTokenCount ∨ x.draftTokenCount = 0 ∨ x.draftTokenCount > maxDraftTokens)
    .draftLength
  let target ← orErr .graphDimensions (x.targetSelection.bucket.dimensions .target8B .speculative)
  let draft ← orErr .graphDimensions (x.draftSelection.bucket.dimensions .draft06B .speculative)
  failIf (target.activeTokens ≠ x.draftTokenCount + 1 ∨ draft.activeTokens ≠ x.draftTokenCount)
    .graphDimensions
  failIf (x.targetPreCommitted ≠ x.draftPreCommitted) .cursorMismatch
  failIf (x.targetPreCommitted > maxContextTokens - (x.draftTokenCount + 1) ∨
    x.draftPreCommitted > maxContextTokens - x.draftTokenCount) .contextExceeded
  failIf (x.targetTentative.start ≠ x.targetPreCommitted ∨
    x.targetTentative.stop ≠ x.targetPreCommitted + (x.draftTokenCount + 1) ∨
    x.draftTentative.start ≠ x.draftPreCommitted ∨
    x.draftTentative.stop ≠ x.draftPreCommitted + x.draftTokenCount) .tentativeInterval
  failIf (x.roundAnchor ≥ vocabularySize) .tokenOutOfRange
  (List.range maxDraftTokens).foldlM (fun _ i => x.checkToken i) ()
  (List.range maxTargetInputs).foldlM (fun _ i => x.checkCommitEnd i) ()
  failIf (x.correctionBonus ≠ .deferredUntilNextStep) .correctionBonusNotDeferred

/-- Validate the structure and the exact external authority. -/
def validateFor (x : RoundIndex) (request : RequestId) (epoch : ℕ) (planId : Identity)
    (target draft : PlanSelection) : Outcome IndexError Unit := do
  x.validate
  failIf (x.request.slot ≠ request.slot ∨ x.request.generation ≠ request.generation ∨
    x.completionEpoch ≠ epoch ∨ x.planId ≠ planId ∨ x.targetSelection ≠ target ∨
    x.draftSelection ≠ draft) .authorityMismatch

/-! ### What an accepted index says -/

/-- The candidates of the round. -/
def drafts (x : RoundIndex) : List Token := x.draftTokens.toList.take x.draftTokenCount

/-- The tokens the target consumes, in order. -/
def inputs (x : RoundIndex) : List Token := x.roundAnchor :: x.drafts

/-- The consequences of validation that the engine relies on. -/
structure Valid (x : RoundIndex) : Prop where
  count_pos : 0 < x.draftTokenCount
  count_le : x.draftTokenCount ≤ 16
  bucket : bucketK x.targetSelection.bucket = some x.draftTokenCount
  cursors : x.draftPreCommitted = x.targetPreCommitted
  context_le : x.targetPreCommitted + x.draftTokenCount + 1 ≤ 8192

variable {x : RoundIndex}

theorem checkToken_ensures {i : ℕ} (h : i < 16) :
    Ensures (x.checkToken i) (fun _ => True) fun _ => True := by
  rw [checkToken]
  refine (ensures_orPanic (Q := fun _ => True) (Vector.getElem?_eq_getElem h) trivial).bind
    fun token _ _ => ?_
  split
  · exact ensures_failIf (fun _ => trivial) fun _ => trivial
  · exact ensures_failIf (fun _ => trivial) fun _ => trivial

theorem checkCommitEnd_ensures {i : ℕ} (h : i < 17) :
    Ensures (x.checkCommitEnd i) (fun _ => True) fun _ => True := by
  rw [checkCommitEnd]
  refine (ensures_orPanic (Q := fun _ => True) (Vector.getElem?_eq_getElem h) trivial).bind
    fun target _ _ => ?_
  refine (ensures_orPanic (Q := fun _ => True) (Vector.getElem?_eq_getElem h) trivial).bind
    fun draft _ _ => ?_
  split
  · exact ensures_failIf (fun _ => trivial) fun _ => trivial
  · exact ensures_failIf (fun _ => trivial) fun _ => trivial

/-- **Validation** neither panics nor accepts an index that is not canonical. -/
theorem validate_ensures : Ensures x.validate (fun _ => True) fun _ => x.Valid := by
  have skip : ∀ {c : Prop} [Decidable c] {e : IndexError},
      Ensures (failIf c e) (fun _ => True) fun _ => ¬ c :=
    fun {c} _ {e} => ensures_failIf (fun _ => trivial) fun h => h
  have select : ∀ s : PlanSelection,
      Ensures (mapErr IndexError.selection s.validate) (fun _ => True) fun _ => True :=
    fun s => ensures_mapErr (ensures_failIf (fun _ => trivial) fun _ => trivial)
  have dims : ∀ o : Option PlanDimensions,
      Ensures (orErr IndexError.graphDimensions o) (fun _ => True) fun _ => True :=
    fun o => ensures_orErr (fun _ => trivial) fun _ _ => trivial
  rw [validate]
  refine skip.bind fun _ _ _ => skip.bind fun _ _ _ => skip.bind fun _ _ _ => ?_
  refine (select _).bind fun _ _ _ => (select _).bind fun _ _ _ => ?_
  refine skip.bind fun _ _ _ => skip.bind fun _ _ _ => ?_
  refine (ensures_orErr (Q := fun k => bucketK x.targetSelection.bucket = some k)
    (fun _ => trivial) fun k h => h).bind fun k _ hk => ?_
  refine skip.bind fun _ _ hcount => ?_
  refine (dims _).bind fun _ _ _ => (dims _).bind fun _ _ _ => skip.bind fun _ _ _ => ?_
  refine skip.bind fun _ _ hcursor => skip.bind fun _ _ hcontext => ?_
  refine skip.bind fun _ _ _ => skip.bind fun _ _ _ => ?_
  refine (ensures_foldlM (d := []) (I := fun _ rest _ => ∀ i ∈ rest, i < 16)
    (fun i hi => List.mem_range.mp hi) fun _ i rest _ hi =>
      (checkToken_ensures (hi i List.mem_cons_self)).mono (fun _ h => h)
        fun _ _ _ j hj => hi j (.tail _ hj)).bind fun _ _ _ => ?_
  refine (ensures_foldlM (d := []) (I := fun _ rest _ => ∀ i ∈ rest, i < 17)
    (fun i hi => List.mem_range.mp hi) fun _ i rest _ hi =>
      (checkCommitEnd_ensures (hi i List.mem_cons_self)).mono (fun _ h => h)
        fun _ _ _ j hj => hi j (.tail _ hj)).bind fun _ _ _ => ?_
  refine skip.mono (fun _ h => h) fun _ _ _ => ?_
  simp only [maxDraftTokens, maxContextTokens, not_or, not_not] at hcount hcursor hcontext
  obtain ⟨rfl, hpos, hle⟩ := hcount
  exact ⟨by omega, by omega, hk, hcursor.symm, by omega⟩

/-- The index is the round's that the authority names. -/
structure ValidFor (x : RoundIndex) (request : RequestId) (epoch : ℕ) (planId : Identity)
    (target draft : PlanSelection) : Prop extends x.Valid where
  request_eq : x.request = request
  epoch_eq : x.completionEpoch = epoch
  plan_eq : x.planId = planId
  target_eq : x.targetSelection = target
  draft_eq : x.draftSelection = draft

theorem validateFor_ensures {request : RequestId} {epoch : ℕ} {planId : Identity}
    {target draft : PlanSelection} :
    Ensures (x.validateFor request epoch planId target draft) (fun _ => True) fun _ =>
      x.ValidFor request epoch planId target draft := by
  rw [validateFor]
  refine validate_ensures.bind fun _ _ hv => ensures_failIf (fun _ => trivial) fun h => ?_
  simp only [not_or, not_not] at h
  obtain ⟨hslot, hgen, hepoch, hplan, htarget, hdraft⟩ := h
  refine ⟨hv, ?_, hepoch, hplan, htarget, hdraft⟩
  cases hx : x.request
  cases request
  simp_all

theorem Valid.length_drafts (h : x.Valid) : x.drafts.length = x.draftTokenCount := by
  have := h.count_le
  simp [drafts]
  omega

theorem Valid.length_inputs (h : x.Valid) : x.inputs.length = x.draftTokenCount + 1 := by
  rw [inputs, List.length_cons, h.length_drafts]

/-- The binding of an ordinal, as a position and a token. -/
theorem Valid.inputAt_eq (h : x.Valid) (role : ModelRole) {ordinal : ℕ}
    (ho : ordinal ≤ x.draftTokenCount) :
    ∃ hle token, x.inputs[ordinal]? = some token ∧
      (x.inputAt role x.targetPreCommitted ordinal hle).map
        (fun b => (b.source.token, b.logicalPosition)) =
          some (token, x.targetPreCommitted + ordinal) := by
  have hle := h.count_le
  have hctx := h.context_le
  have hadd : checkedAdd 32 x.targetPreCommitted ordinal = some (x.targetPreCommitted + ordinal) :=
    checkedAdd_eq_some.mpr ⟨by omega, rfl⟩
  refine ⟨by omega, ?_⟩
  cases ordinal with
  | zero => exact ⟨x.roundAnchor, rfl, by simp [inputAt, hadd, InputSource.token]⟩
  | succ i =>
    refine ⟨x.draftTokens[i], ?_, by simp [inputAt, hadd, InputSource.token]⟩
    simp only [inputs, List.getElem?_cons_succ, drafts]
    rw [List.getElem?_take_of_lt (by omega), Vector.getElem?_toList,
      Vector.getElem?_eq_getElem]

theorem Valid.targetCommitEnd_eq (h : x.Valid) {accepted : ℕ} (ha : accepted ≤ x.draftTokenCount) :
    x.targetCommitEnd accepted = some (x.targetPreCommitted + accepted + 1) := by
  have hctx := h.context_le
  rw [targetCommitEnd, if_neg (by omega), checkedAdd, if_pos (by omega)]
  exact checkedAdd_eq_some.mpr ⟨by omega, rfl⟩

theorem Valid.draftCommitEnd_eq (h : x.Valid) {accepted : ℕ} (ha : accepted ≤ x.draftTokenCount) :
    x.draftCommitEnd accepted =
      some (x.targetPreCommitted + min (accepted + 1) x.draftTokenCount) := by
  have hctx := h.context_le
  rw [draftCommitEnd, if_neg (by omega), h.cursors]
  refine checkedAdd_eq_some.mpr ⟨?_, ?_⟩
  · split <;> omega
  · split <;> omega

end RoundIndex

end Spec

end Ferric
