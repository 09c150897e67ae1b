import Ferric.TpSpeculative.Opening
import Ferric.TpSpeculative.Owner

/-!
# Two ways to fill a round

The candidates of a round are given with its index (`reserve_round`), or the draft model proposes
them one by one after the round has been opened (`reserve_proposals`). Both lead to the same round:
the same index, the same rows with the same pages, and the same two proposed states. And both settle
alike.

## Main definitions

* `propose`, `proposeRound` — a driver that feeds each choice back
* `verifyTarget`, `consumeDraft` — a driver that completes a round

## Main results

* `Opened.proposes` — the rows handed out, and the round that they leave
* `proposals_agree` — both ways lead to the same round, and settle alike
-/

namespace Ferric

namespace TpSpeculative

open TpPaged TpPaged.PagedPool Ferric.Action

open Spec hiding Token

namespace SpeculativeKv

variable {s s' : SpeculativeKv} {o : Opening} {choices known rest : List Token}
  {results : List ProposalResult} {choice : Token} {row : PreparedRow}

/-! ### Proposing all candidates -/

/-- The next row goes to the draft model, and its choice comes back. Returns what the model saw. -/
def propose (choice : Token) : PairM (List PageRow) := do
  let work ← proposalWork
  let result ← query fun _ => work.seal (.afterAllRanks work.batch) [choice] [0]
  recordProposal result
  return inputs work.batch

/-- The draft model proposes all candidates of a round. -/
def proposeRound (choices : List Token) : PairM (List (List PageRow)) := do
  reserveProposals
  choices.mapM propose

/-- The results of a draft model that has made these choices. -/
inductive Opening.Proposed (o : Opening) (s : SpeculativeKv) :
    List Token → List ProposalResult → Prop
  | nil : o.Proposed s [] []
  | concat {choices : List Token} {results : List ProposalResult} {row : PreparedRow}
      (choice : Token) (h : o.Proposed s choices results)
      (hrow : (o.draftBatch choices).rows[choices.length]? = some row) :
      o.Proposed s (choices ++ [choice]) (results ++ [o.result s choices row choice])

namespace Opened

theorem length_results (hp : o.Proposed s choices results) : results.length = choices.length := by
  induction hp with
  | nil => rfl
  | concat choice _ _ ih => rw [List.length_append, List.length_append, ih]; rfl

/-- **One row of the draft model.** -/
theorem propose (h : Opened s o) (choice : Token)
    (hlt : choices.length < o.index.draftTokenCount)
    (hvocabulary : ∀ token ∈ choices ++ [choice], token < vocabularySize)
    (hp : o.Proposed s choices results) :
    ∃ results', o.Proposed s (choices ++ [choice]) results' ∧
      (SpeculativeKv.propose choice).exec (o.recorded s choices results) =
        (.ok [⟨s.draftSequence, choices.getLastD o.index.roundAnchor,
          s.draftTokens.length + choices.length⟩],
          o.recorded s (choices ++ [choice]) results') := by
  obtain ⟨row, hrow, hinput⟩ := h.getElem?_draft_rows hlt.le (Nat.le_refl _) hlt
  have hresults := length_results hp
  have hopen : o.recorded s choices results =
      o.proposing s choices results (decide (0 < choices.length)) none := if_neg (by omega)
  refine ⟨_, hp.concat choice hrow, ?_⟩
  rw [SpeculativeKv.propose, hopen]
  refine exec_bind_eq_ok.mpr ⟨_, _, h.proposalWork hlt hresults hrow, ?_⟩
  refine exec_bind_eq_ok.mpr ⟨_, _, exec_query_eq_ok.mpr
    ⟨h.seal_work hlt (hvocabulary choice (by simp)), rfl⟩, ?_⟩
  refine exec_bind_eq_ok.mpr ⟨_, _, h.recordProposal hlt hresults hvocabulary hrow, ?_⟩
  have hlast : (o.index.roundAnchor :: choices)[choices.length]? =
      some (choices.getLastD o.index.roundAnchor) := by
    rw [List.getLastD_eq_getLast?, ← List.getLast?_cons, List.getLast?_eq_getElem?]
    rfl
  rw [getElem?_rowsAt, hlast] at hinput
  obtain hinput := Option.some.inj hinput
  exact congrArg (fun input => (Except.ok [input], _)) hinput.symm

/-- **The driver's loop.** The rows handed out are the last known token, and each choice but the
last. -/
theorem proposes (h : Opened s o) (hp : o.Proposed s known results)
    (hle : (known ++ rest).length ≤ o.index.draftTokenCount)
    (hvocabulary : ∀ token ∈ known ++ rest, token < vocabularySize) :
    ∃ results', o.Proposed s (known ++ rest) results' ∧
      (rest.mapM SpeculativeKv.propose).exec (o.recorded s known results) =
        (.ok ((rowsAt s.draftSequence (s.draftTokens.length + known.length)
          ((known.getLastD o.index.roundAnchor :: rest).dropLast)).map ([·])),
          o.recorded s (known ++ rest) results') := by
  induction rest generalizing known results with
  | nil =>
    rw [List.append_nil]
    exact ⟨results, hp, rfl⟩
  | cons choice rest ih =>
    rw [List.append_cons] at hle hvocabulary
    have hlt : known.length < o.index.draftTokenCount := by
      rw [List.length_append, List.length_append, List.length_singleton] at hle
      omega
    obtain ⟨mid, hmid, hone⟩ := h.propose choice hlt
      (fun token hmem => hvocabulary token (List.mem_append_left _ hmem)) hp
    obtain ⟨last, hlast, hmore⟩ := ih hmid hle hvocabulary
    refine ⟨last, List.append_cons known choice rest ▸ hlast, ?_⟩
    rw [List.mapM_cons]
    refine exec_bind_eq_ok.mpr ⟨_, _, hone, ?_⟩
    refine exec_bind_eq_ok.mpr ⟨_, _, hmore, ?_⟩
    rw [exec_pure, List.dropLast_cons_cons, rowsAt_cons, List.map_cons, ← List.append_cons,
      List.length_append, List.length_singleton, ← Nat.add_assoc, List.getLastD_concat]

/-! ### Reserving the round with its candidates -/

/-- The pair is ready for the index with all candidates. -/
theorem roundReady (h : Opened s o) (hle : choices.length ≤ o.index.draftTokenCount)
    (hvocabulary : ∀ token ∈ choices, token < vocabularySize) :
    RoundReady s (o.index.withCandidates choices) :=
  ⟨h.ready.ready, validateIndex_ensures.of_ok (h.validateIndex hle hvocabulary), h.ready.anchor,
    h.ready.cursor⟩

theorem roundRows (h : Opened s o) (hs : PairInv s) (hle : choices.length ≤ o.index.draftTokenCount)
    (hvocabulary : ∀ token ∈ choices, token < vocabularySize) :
    SpeculativeKv.roundRows (o.index.withCandidates choices) s =
      .ok (rowsAt s.targetSequence s.targetTokens.length (o.index.withCandidates choices).inputs,
        rowsAt s.draftSequence s.draftTokens.length
          ((o.index.withCandidates choices).inputs.take o.index.draftTokenCount)) := by
  have hready := h.roundReady hle hvocabulary
  obtain ⟨hti, hdi, htok⟩ := (phaseInv_ready h.ready.ready).mp hs.phase
  obtain ⟨ht, hd⟩ := hready.rows hs
  have hcursor := hready.cursor
  have hcursors : (o.index.withCandidates choices).draftPreCommitted = _ := hready.valid.cursors
  rw [SpeculativeKv.roundRows]
  refine bind_eq_ok.mpr ⟨(), failIf_of_not (not_not.mpr h.ready.ready), ?_⟩
  refine bind_eq_ok.mpr ⟨(), h.validateIndex hle hvocabulary, ?_⟩
  refine bind_eq_ok.mpr ⟨(), failIf_of_not (not_not.mpr hready.anchor), ?_⟩
  refine bind_eq_ok.mpr ⟨_, fromPool_of_ok (hs.target.committedPosition_eq hti.1), ?_⟩
  refine bind_eq_ok.mpr ⟨(), failIf_of_not (not_not.mpr hcursor.symm), ?_⟩
  refine bind_eq_ok.mpr ⟨_, fromPool_of_ok (hs.draft.committedPosition_eq hdi.1), ?_⟩
  refine bind_eq_ok.mpr ⟨(), failIf_of_not (not_not.mpr ?_), ?_⟩
  · rw [hcursors, hcursor, htok]
    rfl
  refine bind_eq_ok.mpr ⟨_, orErr_eq_ok.mpr (checkedAdd_eq_some.mpr ⟨h.epoch_lt, rfl⟩), ?_⟩
  exact bind_eq_ok.mpr ⟨_, ht, bind_eq_ok.mpr ⟨_, hd, rfl⟩⟩

end Opened

/-- The round with its candidates, before any result. -/
def Opening.round (o : Opening) (choices : List Token) : Round where
  index := o.index.withCandidates choices
  target := o.targetBatch choices
  draft := o.draftBatch choices
  targetResult := none
  draftResult := none
  proposalResults := none

namespace Opened

/-- **The other way.** Reserving with the candidates makes the same reservations. -/
theorem reserveRound (h : Opened s o) (hs : PairInv s)
    (hle : choices.length ≤ o.index.draftTokenCount)
    (hvocabulary : ∀ token ∈ choices, token < vocabularySize) :
    (SpeculativeKv.reserveRound (o.index.withCandidates choices)).exec s =
      (.ok (), o.pair s choices (s.draft.nextBatch + 1) false false
        (.round (o.round choices))) := by
  rw [SpeculativeKv.reserveRound]
  refine exec_bind_eq_ok.mpr ⟨_, _, exec_query_eq_ok.mpr
    ⟨h.roundRows hs hle hvocabulary, rfl⟩, ?_⟩
  exact exec_bind_eq_ok.mpr ⟨_, _,
    exec_reservePair (h.reservesTarget choices).eq (h.reservesDraft choices).eq, rfl⟩

end Opened

/-! ### Completing the round -/

/-- The target verifies the round. -/
def verifyTarget (chosen : List Token) : PairM Unit := do
  let work ← targetWork
  let result ← query fun _ =>
    work.seal (.afterAllRanks work.batch) chosen (List.range work.rows)
  recordTarget result

/-- The draft model consumes its inputs of the round. -/
def consumeDraft : PairM Unit := do
  let work ← draftWork
  let result ← query fun _ => work.seal (.afterAllRanks work.batch)
  recordDraft result

/-- The target's choices for the round. -/
def Opening.targetResult (o : Opening) (s : SpeculativeKv) (choices chosen : List Token) :
    TargetResult where
  identity := s.identity .target8B (o.targetBatch choices) false
  rows := inputs (o.targetBatch choices)
  outputRows := List.range (o.index.draftTokenCount + 1)
  choices := chosen
  completion := .afterAllRanks (o.targetBatch choices)

/-- The draft model's completion of the round. -/
def Opening.draftResult (o : Opening) (s : SpeculativeKv) (choices : List Token) :
    DraftResult where
  identity := s.identity .draft06B (o.draftBatch choices) false
  rows := inputs (o.draftBatch choices)
  completion := .afterAllRanks (o.draftBatch choices)

namespace Opened

variable {chosen : List Token} {next : ℕ} {submitted : Bool} {round : Round}

theorem length_target_rows (h : Opened s o) (choices : List Token) :
    (o.targetBatch choices).rows.length = o.index.draftTokenCount + 1 := by
  rw [(h.reservesTarget choices).length_rows, RoundIndex.length_inputs_withCandidates,
    h.ready.valid.length_inputs]

/-- The numbers of candidates that a round can have. -/
theorem count_cases (h : Opened s o) : o.index.draftTokenCount = 4 ∨
    o.index.draftTokenCount = 8 ∨ o.index.draftTokenCount = 16 := by
  have hbucket := h.ready.valid.bucket
  revert hbucket
  cases o.index.targetSelection.bucket <;> simp [bucketK] <;> omega

/-- The result belongs to the submitted batch. -/
theorem validateResult (p : SpeculativeKv) (role : ModelRole) {batch : PreparedBatch}
    (hbatch : (p.pool role).requireBatch batch = .ok ())
    (hsubmitted : (p.pool role).submitted = true) :
    p.validateResult (p.identity role batch false) (p.identity role batch false) batch
      (inputs batch) (.afterAllRanks batch) = .ok () := by
  rw [SpeculativeKv.validateResult]
  refine bind_eq_ok.mpr ⟨(), fromPool_of_ok hbatch, failIf_of_not ?_⟩
  rintro (hidentity | hrows | hpool | hid | hnot)
  · exact hidentity rfl
  · exact hrows rfl
  · exact hpool rfl
  · exact hid rfl
  · exact absurd (hsubmitted.symm.trans hnot) (by decide)

/-- The target's batch is marked and handed out. -/
theorem targetWork (h : Opened s o) (hindex : round.index = o.index.withCandidates choices)
    (htarget : round.target = o.targetBatch choices) :
    SpeculativeKv.targetWork.exec (o.pair s choices next false submitted (.round round)) =
      (.ok ⟨s.identity .target8B (o.targetBatch choices) false, o.targetBatch choices,
        o.index.draftTokenCount + 1⟩, o.pair s choices next true submitted (.round round)) := by
  have hbegin : noReply (·.beginSubmission round.target)
      (o.pair s choices next false submitted (.round round)).target =
        .ok ((), (o.pair s choices next true submitted (.round round)).target) := by
    rw [noReply, htarget, Opening.pair, (h.reservesTarget choices).beginSubmission]
    rfl
  rw [SpeculativeKv.targetWork]
  refine exec_bind_eq_ok.mpr ⟨_, _, exec_get, ?_⟩
  refine exec_bind_eq_ok.mpr ⟨_, _, exec_attempt_of_ok hbegin, ?_⟩
  refine exec_bind_eq_ok.mpr ⟨_, _, exec_orThrow_eq_ok.mpr ⟨rfl, rfl⟩, ?_⟩
  refine exec_bind_eq_ok.mpr ⟨_, _, exec_get, ?_⟩
  rw [exec_pure, htarget, hindex]
  rfl

/-- The target's choices are sealed. -/
theorem seal_target (h : Opened s o) (hchosen : chosen.length = o.index.draftTokenCount + 1)
    (hany : chosen.any (· ≥ vocabularySize) = false) :
    TargetWork.seal ⟨s.identity .target8B (o.targetBatch choices) false, o.targetBatch choices,
        o.index.draftTokenCount + 1⟩ (.afterAllRanks (o.targetBatch choices)) chosen
        (List.range (o.index.draftTokenCount + 1)) = .ok (o.targetResult s choices chosen) := by
  have hcount : o.index.draftTokenCount + 1 ∈ [5, 9, 17] := by
    rcases h.count_cases with hk | hk | hk <;> simp [hk]
  have hvalid : TargetWork.validate ⟨s.identity .target8B (o.targetBatch choices) false,
      o.targetBatch choices, o.index.draftTokenCount + 1⟩ = true :=
    decide_eq_true ⟨rfl, rfl, hcount, (h.length_target_rows choices).symm, rfl, rfl⟩
  rw [TargetWork.seal, hvalid]
  refine bind_eq_ok.mpr ⟨(), failIf_of_not ?_, bind_eq_ok.mpr ⟨(), failIf_of_not ?_, rfl⟩⟩
  · rintro (hfalse | hpool | hid)
    · cases hfalse
    · exact hpool rfl
    · exact hid rfl
  · rintro (hrange | hlength | hover)
    · exact hrange rfl
    · exact hlength hchosen
    · exact absurd (hover.symm.trans hany) (by decide)

/-- The target's choices are accepted. -/
theorem checkTarget (h : Opened s o) (hchosen : chosen.length = o.index.draftTokenCount + 1)
    (hany : chosen.any (· ≥ vocabularySize) = false)
    (htarget : round.target = o.targetBatch choices) (hnone : round.targetResult = none) :
    SpeculativeKv.checkTarget (o.targetResult s choices chosen)
      (o.pair s choices next true submitted (.round round)) = .ok () := by
  have hrows := h.length_target_rows choices
  have hresult : (o.pair s choices next true submitted (.round round)).validateResult
      (s.identity .target8B (o.targetBatch choices) false)
      (s.identity .target8B (o.targetBatch choices) false) (o.targetBatch choices)
      (inputs (o.targetBatch choices)) (.afterAllRanks (o.targetBatch choices)) = .ok () :=
    validateResult (o.pair s choices next true submitted (.round round)) .target8B
      ((h.reservesTarget choices).requireBatch _ _) rfl
  rw [SpeculativeKv.checkTarget]
  simp only [Opening.pair, htarget, hnone]
  refine bind_eq_ok.mpr ⟨(), hresult, bind_eq_ok.mpr ⟨(), failIf_of_not (by decide), ?_⟩⟩
  refine failIf_of_not ?_
  rintro (hrange | hlength | hover)
  · exact hrange (congrArg List.range hrows.symm)
  · exact hlength (hchosen.trans hrows.symm)
  · exact absurd (hover.symm.trans hany) (by decide)

/-- **The target's choices are recorded.** -/
theorem verifyTarget (h : Opened s o) (hchosen : chosen.length = o.index.draftTokenCount + 1)
    (hvocabulary : ∀ token ∈ chosen, token < vocabularySize)
    (hindex : round.index = o.index.withCandidates choices)
    (htarget : round.target = o.targetBatch choices) (hnone : round.targetResult = none) :
    (SpeculativeKv.verifyTarget chosen).exec
        (o.pair s choices next false submitted (.round round)) =
      (.ok (), o.pair s choices next true submitted
        (.round { round with targetResult := some (o.targetResult s choices chosen) })) := by
  have hany : chosen.any (· ≥ vocabularySize) = false := by
    rw [List.any_eq_false]
    exact fun token hmem => by simpa using hvocabulary token hmem
  rw [SpeculativeKv.verifyTarget]
  refine exec_bind_eq_ok.mpr ⟨_, _, h.targetWork hindex htarget, ?_⟩
  refine exec_bind_eq_ok.mpr ⟨_, _, exec_query_eq_ok.mpr ⟨h.seal_target hchosen hany, rfl⟩, ?_⟩
  exact exec_bind_eq_ok.mpr ⟨(), _,
    exec_preflight_of_ok (h.checkTarget hchosen hany htarget hnone), rfl⟩

/-- The draft model's batch is marked and handed out. -/
theorem draftWork (h : Opened s o) (hdraft : round.draft = o.draftBatch choices)
    (hgiven : round.proposalResults = none) :
    SpeculativeKv.draftWork.exec (o.pair s choices next true false (.round round)) =
      (.ok ⟨s.identity .draft06B (o.draftBatch choices) false, o.draftBatch choices⟩,
        o.pair s choices next true true (.round round)) := by
  have hbatch : SpeculativeKv.draftBatch (o.pair s choices next true false (.round round)) =
      .ok (o.draftBatch choices, false) := by
    rw [SpeculativeKv.draftBatch]
    simp only [Opening.pair, hgiven, hdraft]
    rfl
  have hbegin : noReply (·.beginSubmission (o.draftBatch choices))
      (o.pair s choices next true false (.round round)).draft =
        .ok ((), (o.pair s choices next true true (.round round)).draft) := by
    rw [noReply, Opening.pair, (h.reservesDraft choices).beginSubmission]
    rfl
  rw [SpeculativeKv.draftWork]
  refine exec_bind_eq_ok.mpr ⟨_, _, exec_query_eq_ok.mpr ⟨hbatch, rfl⟩, ?_⟩
  refine exec_bind_eq_ok.mpr ⟨_, _, exec_attempt_of_ok hbegin, ?_⟩
  refine exec_bind_eq_ok.mpr ⟨_, _, exec_orThrow_eq_ok.mpr ⟨rfl, rfl⟩, ?_⟩
  exact exec_bind_eq_ok.mpr ⟨_, _, exec_get, rfl⟩

/-- The draft model's completion is sealed. -/
theorem seal_draft (h : Opened s o) :
    DraftWork.seal ⟨s.identity .draft06B (o.draftBatch choices) false, o.draftBatch choices⟩
      (.afterAllRanks (o.draftBatch choices)) = .ok (o.draftResult s choices) := by
  have hcount : (o.draftBatch choices).rows.length ∈ [4, 8, 16] := by
    rw [h.length_draft_rows]
    rcases h.count_cases with hk | hk | hk <;> simp [hk]
  have hvalid : DraftWork.validate ⟨s.identity .draft06B (o.draftBatch choices) false,
      o.draftBatch choices⟩ = true := decide_eq_true ⟨rfl, rfl, rfl, hcount⟩
  rw [DraftWork.seal, hvalid]
  refine bind_eq_ok.mpr ⟨(), failIf_of_not ?_, rfl⟩
  rintro (hfalse | hpool | hid)
  · cases hfalse
  · exact hpool rfl
  · exact hid rfl

/-- The draft model's completion is accepted. -/
theorem checkDraft (h : Opened s o) (hdraft : round.draft = o.draftBatch choices)
    (hnone : round.draftResult = none) (hgiven : round.proposalResults = none) :
    SpeculativeKv.checkDraft (o.draftResult s choices)
      (o.pair s choices next true true (.round round)) = .ok none := by
  have hpending : (o.pair s choices next true true (.round round)).draftPending =
      .ok (o.draftBatch choices, false) := by
    rw [SpeculativeKv.draftPending]
    simp only [Opening.pair, hgiven, hdraft, hnone]
    rfl
  have hresult := validateResult (o.pair s choices next true true (.round round)) .draft06B
    ((h.reservesDraft choices).requireBatch _ _) rfl
  rw [SpeculativeKv.checkDraft]
  exact bind_eq_ok.mpr ⟨_, hpending, bind_eq_ok.mpr ⟨(), hresult, rfl⟩⟩

/-- **The draft model's completion is recorded.** -/
theorem consumeDraft (h : Opened s o) (hdraft : round.draft = o.draftBatch choices)
    (hnone : round.draftResult = none) (hgiven : round.proposalResults = none) :
    SpeculativeKv.consumeDraft.exec (o.pair s choices next true false (.round round)) =
      (.ok (), o.pair s choices next true true
        (.round { round with draftResult := some (o.draftResult s choices) })) := by
  rw [SpeculativeKv.consumeDraft]
  refine exec_bind_eq_ok.mpr ⟨_, _, h.draftWork hdraft hgiven, ?_⟩
  refine exec_bind_eq_ok.mpr ⟨_, _, exec_query_eq_ok.mpr ⟨h.seal_draft, rfl⟩, ?_⟩
  rw [SpeculativeKv.recordDraft]
  exact exec_bind_eq_ok.mpr ⟨none, _,
    exec_preflight_of_ok (h.checkDraft hdraft hnone hgiven), rfl⟩

/-- The phase after a settlement. -/
def nextPhase (index : RoundIndex) (accepted : ℕ) : Outcome SpeculativeError Phase :=
  if accepted = index.draftTokenCount then do
    let token ← orPanic (do index.draftTokens[← checkedSub index.draftTokenCount 1]?)
    return .catchUpRequired token
  else .ok .ready

/-- A settlement, check by check. -/
theorem checkSettle_eq_ok {p : SpeculativeKv} {result : TargetResult} {commit : GreedyCommit}
    {targetEnd draftEnd : ℕ} {target draft : State} {q q' : Sequence} {phase : Phase}
    (hchecks : p.checkProposals round = .ok ()) (hk : round.index.draftTokenCount ≤ 16)
    (hcommit : verifyGreedyRound round.index.drafts result.choices = .ok commit)
    (haccepted : commit.acceptedDraftTokens ≤ round.index.draftTokenCount)
    (htargetEnd : round.index.targetCommitEnd commit.acceptedDraftTokens = some targetEnd)
    (hdraftEnd : round.index.draftCommitEnd commit.acceptedDraftTokens = some draftEnd)
    (htarget : prefixState p.target round.target p.targetSequence targetEnd = .ok target)
    (hdraft : prefixState p.draft round.draft p.draftSequence draftEnd = .ok draft)
    (hq : target.sequences.get? p.targetSequence.serial = some q)
    (hq' : draft.sequences.get? p.draftSequence.serial = some q')
    (hkept : q'.tokens.isPrefixOf q.tokens = true)
    (hphase : nextPhase round.index commit.acceptedDraftTokens = .ok phase)
    (hepoch : p.epoch + 1 < 2 ^ 64) :
    p.checkSettle round result = .ok
      { target, draft, phase
        epoch := p.epoch + 1
        receipt :=
          { request := p.request
            epoch := p.epoch
            commit
            targetCursor := targetEnd
            draftCursor := draftEnd } } := by
  rw [SpeculativeKv.checkSettle]
  refine bind_eq_ok.mpr ⟨(), hchecks, ?_⟩
  refine bind_eq_ok.mpr ⟨_, orPanic_eq_ok.mpr (if_pos hk), ?_⟩
  refine bind_eq_ok.mpr ⟨commit, mapErr_eq_ok.mpr hcommit, ?_⟩
  refine bind_eq_ok.mpr ⟨_, orErr_eq_ok.mpr (if_pos (by omega)), ?_⟩
  refine bind_eq_ok.mpr ⟨_, orErr_eq_ok.mpr htargetEnd, ?_⟩
  refine bind_eq_ok.mpr ⟨_, orErr_eq_ok.mpr hdraftEnd, ?_⟩
  refine bind_eq_ok.mpr ⟨target, htarget, ?_⟩
  refine bind_eq_ok.mpr ⟨draft, hdraft, ?_⟩
  refine bind_eq_ok.mpr ⟨q, orPanic_eq_ok.mpr hq, ?_⟩
  refine bind_eq_ok.mpr ⟨q', orPanic_eq_ok.mpr hq', ?_⟩
  refine bind_eq_ok.mpr ⟨(), failIf_of_not (by rw [hkept]; decide), ?_⟩
  refine bind_eq_ok.mpr ⟨phase, hphase, ?_⟩
  exact bind_eq_ok.mpr ⟨_, orErr_eq_ok.mpr (checkedAdd_eq_some.mpr ⟨hepoch, rfl⟩), rfl⟩

/-- **Settling the round** succeeds, and what it decides depends neither on who proposed the
candidates nor on the number of the draft pool's next batch. -/
theorem checkSettle (h : Opened s o) (hlen : choices.length = o.index.draftTokenCount)
    (hvocabulary : ∀ token ∈ choices, token < vocabularySize)
    (hchosen : chosen.length = o.index.draftTokenCount + 1) :
    ∃ x, ∀ (round : Round) (next : ℕ) (result : TargetResult),
      round.index = o.index.withCandidates choices → round.target = o.targetBatch choices →
      round.draft = o.draftBatch choices → result.choices = chosen →
      (o.pair s choices next true true (.round round)).checkProposals round = .ok () →
        SpeculativeKv.checkSettle round result (o.pair s choices next true true (.round round)) =
          .ok x := by
  have hvalid := (h.roundReady hlen.le hvocabulary).valid
  have hk := h.ready.valid.count_le
  have hinputs : (o.index.withCandidates choices).inputs.length = o.index.draftTokenCount + 1 :=
    hvalid.length_inputs
  have hdrafts : (o.index.withCandidates choices).drafts = choices :=
    RoundIndex.drafts_withCandidates hlen hk
  obtain ⟨commit, hcommit⟩ := exists_verifyGreedyRound (hchosen.trans (congrArg (· + 1) hlen.symm))
    (by omega)
  have haccepted : commit.acceptedDraftTokens ≤ o.index.draftTokenCount :=
    hlen ▸ (verifyGreedyRound_ensures.of_ok hcommit).accepted_le
  obtain ⟨target, q, htarget, hq, htoks⟩ := (h.reservesTarget choices).prefixState_eq
    (by omega : commit.acceptedDraftTokens + 1 ≤ _)
  obtain ⟨draft, q', hdraft, hq', hdtoks⟩ := (h.reservesDraft choices).prefixState_eq
    (m := min (commit.acceptedDraftTokens + 1) o.index.draftTokenCount) (by
      rw [List.length_take]
      omega)
  have hcursor : o.index.targetPreCommitted = (tokensOf s.target s.targetSequence).length :=
    h.ready.cursor
  have hcursor' : o.index.targetPreCommitted = (tokensOf s.draft s.draftSequence).length :=
    h.ready.cursor.trans (congrArg List.length h.tokens_eq)
  have hkept : q'.tokens.isPrefixOf q.tokens = true := by
    have heq : tokensOf s.target s.targetSequence = tokensOf s.draft s.draftSequence := h.tokens_eq
    rw [List.isPrefixOf_iff_prefix, htoks, hdtoks, heq, List.take_take,
      List.prefix_append_right_inj]
    exact List.take_prefix_take_left (by omega)
  obtain ⟨phase, hphase⟩ : ∃ phase,
      nextPhase (o.index.withCandidates choices) commit.acceptedDraftTokens = .ok phase := by
    rw [nextPhase]
    split
    · rw [checkedSub_of_le hvalid.count_pos]
      exact ⟨_, bind_eq_ok.mpr ⟨_, orPanic_eq_ok.mpr
        (RoundIndex.getElem?_withCandidates (Nat.lt_of_lt_of_le (Nat.sub_lt hvalid.count_pos
          Nat.one_pos) hk)), rfl⟩⟩
    · exact ⟨_, rfl⟩
  refine ⟨⟨target, draft, phase, s.epoch + 1, ⟨s.request, s.epoch, commit,
    o.index.targetPreCommitted + commit.acceptedDraftTokens + 1, o.index.targetPreCommitted +
      min (commit.acceptedDraftTokens + 1) o.index.draftTokenCount⟩⟩,
    fun round next result hindex htb hdb hres hchecks => ?_⟩
  have hgreedy : verifyGreedyRound round.index.drafts result.choices = .ok commit := by
    rw [hindex, hres, hdrafts, hcommit]
  refine checkSettle_eq_ok hchecks (hindex ▸ hk) hgreedy (hindex ▸ haccepted)
    (hindex ▸ hvalid.targetCommitEnd_eq haccepted) (hindex ▸ hvalid.draftCommitEnd_eq haccepted)
    (htb ▸ ?_) (hdb ▸ ?_) hq hq' hkept (hindex ▸ hphase) h.epoch_lt
  · rw [hcursor, Nat.add_assoc]
    exact htarget _
  · rw [hcursor']
    exact hdraft _

/-- Each result is the choice for its row. -/
theorem getElem?_results {i : ℕ} {result : ProposalResult} (hp : o.Proposed s choices results)
    (hi : results[i]? = some result) : ∃ row choice,
      (o.draftBatch (choices.take i)).rows[i]? = some row ∧ choices[i]? = some choice ∧
        (choices.take i).length = i ∧ result = o.result s (choices.take i) row choice := by
  induction hp with
  | nil => simp at hi
  | @concat choices results row choice h hrow ih =>
    have hlen := length_results h
    rcases Nat.lt_trichotomy i results.length with hlt | rfl | hgt
    · rw [List.getElem?_append_left hlt] at hi
      rw [List.getElem?_append_left (hlen ▸ hlt), List.take_append_of_le_length (hlen ▸ hlt.le)]
      exact ih hi
    · rw [List.getElem?_concat_length] at hi
      obtain rfl := Option.some.inj hi
      rw [hlen, List.take_left, List.getElem?_concat_length]
      exact ⟨row, choice, hrow, rfl, rfl, rfl⟩
    · rw [List.getElem?_eq_none (by simp; omega)] at hi
      cases hi

/-- **The proposals** of the round are what its rows consumed. -/
theorem checkProposals (h : Opened s o) (hs : PairInv s)
    (hlen : choices.length = o.index.draftTokenCount)
    (hvocabulary : ∀ token ∈ choices, token < vocabularySize) (hp : o.Proposed s choices results)
    (hindex : round.index = o.index.withCandidates choices)
    (htb : round.target = o.targetBatch choices) (hdb : round.draft = o.draftBatch choices)
    (hgiven : round.proposalResults = some ⟨s.draft.nextBatch + 1, results⟩) :
    (o.pair s choices next true true (.round round)).checkProposals round = .ok () := by
  have hk := h.ready.valid.count_le
  have hnext := h.next
  have hnext_lt := h.next_lt
  have hready := h.roundReady hlen.le hvocabulary
  obtain ⟨ht, hd⟩ := hready.rows hs
  rw [SpeculativeKv.checkProposals, hgiven]
  simp only
  rw [validateProposals, hindex, htb, hdb]
  refine bind_eq_ok.mpr ⟨(), h.validateIndex hlen.le hvocabulary, ?_⟩
  refine bind_eq_ok.mpr ⟨(), failIf_of_not (not_not.mpr ((length_results hp).trans hlen)), ?_⟩
  refine bind_eq_ok.mpr ⟨_, ht, ?_⟩
  refine bind_eq_ok.mpr ⟨(), failIf_of_not (not_not.mpr (h.reservesTarget choices).inputs_eq), ?_⟩
  refine bind_eq_ok.mpr ⟨_, hd, ?_⟩
  refine bind_eq_ok.mpr ⟨(), failIf_of_not (not_not.mpr (h.reservesDraft choices).inputs_eq), ?_⟩
  refine foldlM_checks_eq_ok.mpr ?_
  rintro ⟨result, i⟩ hmem
  have hget : results[i]? = some result := List.mem_zipIdx_iff_getElem?.mp hmem
  obtain ⟨row, choice, hrow, hchoice, hi, rfl⟩ := getElem?_results hp hget
  have hlt : i < choices.length := (List.getElem?_eq_some_iff.mp hchoice).1
  have hmem : choice ∈ choices := List.mem_of_getElem? hchoice
  -- the row had its input when it was handed out, and still has it
  obtain ⟨row₁, hrow₁, hinput₁⟩ := h.getElem?_draft_rows hlen.le hlt.le (hlen ▸ hlt)
  obtain ⟨row₂, hrow₂, hinput₂⟩ := h.getElem?_draft_rows (hi.le.trans (hlen ▸ hlt.le)) hi.ge
    (hlen ▸ hlt)
  obtain rfl : row = row₂ := Option.some.inj (hrow.symm.trans hrow₂)
  have hsame : row₁.input = row.input := by
    rw [getElem?_rowsAt, ← List.take_succ_cons, List.getElem?_take_of_lt (Nat.lt_succ_self i),
      ← getElem?_rowsAt, hinput₁] at hinput₂
    exact Option.some.inj hinput₂
  have hresult := h.validateProposal (choices.take i) row (hvocabulary choice hmem)
  rw [hi, ← hsame] at hresult
  refine bind_eq_ok.mpr ⟨i, orErr_eq_ok.mpr (if_pos (by omega)), ?_⟩
  refine bind_eq_ok.mpr ⟨_, orErr_eq_ok.mpr (checkedAdd_eq_some.mpr ⟨?_, rfl⟩), ?_⟩
  · simp only
    omega
  refine bind_eq_ok.mpr ⟨row₁, orPanic_eq_ok.mpr hrow₁, ?_⟩
  refine bind_eq_ok.mpr ⟨(), hresult, ?_⟩
  refine bind_eq_ok.mpr ⟨_, orPanic_eq_ok.mpr (RoundIndex.getElem?_withCandidates (by omega)), ?_⟩
  refine failIf_of_not (not_not.mpr ?_)
  rw [List.getD_eq_getElem?_getD, hchoice]
  rfl

end Opened

/-- The pair after a settlement. -/
def settledBy (s : SpeculativeKv) (x : Settled) (next : ℕ) : SpeculativeKv :=
  { s with
    target := { s.target with
      state := x.target, pending := none, nextBatch := s.target.nextBatch + 1 }
    draft := { s.draft with state := x.draft, pending := none, nextBatch := next }
    anchor := x.receipt.commit.targetCorrectionOrBonus
    epoch := x.epoch
    phase := x.phase }

/-- A settlement that passes its checks. -/
theorem exec_settle {round : Round} {result : TargetResult} {next : ℕ} {x : Settled}
    (hresult : round.targetResult = some result)
    (hdraft : ¬ (round.draftResult = none ∧ round.proposalResults = none))
    (hx : SpeculativeKv.checkSettle round result
      (o.pair s choices next true true (.round round)) = .ok x) :
    settle.exec (o.pair s choices next true true (.round round)) =
      (.ok x.receipt, settledBy s x next) := by
  have hsettleable : (o.pair s choices next true true (.round round)).settleable =
      .ok (round, result) := by
    rw [settleable]
    simp only [Opening.pair, hresult]
    exact bind_eq_ok.mpr ⟨_, rfl, bind_eq_ok.mpr ⟨(), failIf_of_not hdraft, rfl⟩⟩
  rw [settle]
  refine exec_bind_eq_ok.mpr ⟨_, _, exec_query_eq_ok.mpr ⟨hsettleable, rfl⟩, ?_⟩
  exact exec_bind_eq_ok.mpr ⟨_, _, exec_preflight_of_ok hx, rfl⟩

/-! ### Agreement -/

/-- The same round in two pairs: the same index, rows and pages, and the same proposed states. Only
the numbers of the draft pool's next batches differ, and whether its batch is marked. -/
structure SameRound (a b : SpeculativeKv) (index : RoundIndex) (x y : Round) : Prop where
  left : a.phase = .round x
  right : b.phase = .round y
  leftIndex : x.index = index
  rightIndex : y.index = index
  targetBatch : x.target = y.target
  draftBatch : x.draft = y.draft
  target : a.target = b.target
  pending : ∃ pd, b.draft.pending = some pd ∧ a.draft.pending = some { pd with submitted := true }
  draft : { a.draft with nextBatch := 0, pending := none } =
    { b.draft with nextBatch := 0, pending := none }

/-- **Two ways to fill a round.** Proposing the candidates one by one hands out the anchor and each
candidate but the last, and leaves the round that is reserved with these candidates. Whatever the
target then chooses, both rounds settle alike. -/
theorem proposals_agree {s₁ : SpeculativeKv} (h : pairSystem.Reachable s)
    (hlen : bucketK s.targetSelection.bucket = some choices.length)
    (hvocabulary : ∀ token ∈ choices, token < vocabularySize)
    (hopen : reserveProposals.exec s = (.ok (), s₁)) :
    ∃ index a b x y, s.proposalIndex = .ok index ∧
      (proposeRound choices).exec s =
        (.ok ((rowsAt s.draftSequence s.draftTokens.length
          (index.roundAnchor :: choices).dropLast).map ([·])), a) ∧
      (reserveRound (index.withCandidates choices)).exec s = (.ok (), b) ∧
      SameRound a b (index.withCandidates choices) x y ∧
      ∀ chosen : List Token, chosen.length = choices.length + 1 →
        (∀ token ∈ chosen, token < vocabularySize) → ∃ receipt c d,
          (do verifyTarget chosen; settle).exec a = (.ok receipt, c) ∧
          (do verifyTarget chosen; consumeDraft; settle).exec b = (.ok receipt, d) ∧
          c = { d with draft := { d.draft with nextBatch := a.draft.nextBatch } } := by
  have hs := pairInv_of_reachable h
  obtain ⟨o, ho, rfl⟩ := opened_of_reserveProposals hs hopen
  have hcount : choices.length = o.index.draftTokenCount := by
    have hbucket := ho.ready.valid.bucket
    rw [ho.ready.valid.target_eq, hlen] at hbucket
    exact Option.some.inj hbucket
  have hstart : o.proposing s [] [] false none = o.recorded s [] [] :=
    (if_neg ho.ready.valid.count_pos.ne).symm
  obtain ⟨results, hp, hrun⟩ := ho.proposes .nil hcount.le hvocabulary
  have hend : o.recorded s choices results = o.resolved s choices results := if_pos hcount
  rw [List.nil_append, hend] at hrun
  have hreserve := ho.reserveRound hs hcount.le hvocabulary
  refine ⟨o.index, o.resolved s choices results, _, _, o.round choices, ho.index, ?_, hreserve,
    ⟨rfl, rfl, rfl, rfl, rfl, rfl, rfl, ⟨_, rfl, rfl⟩, rfl⟩, fun chosen hchosen hbelow => ?_⟩
  · rw [proposeRound]
    exact exec_bind_eq_ok.mpr ⟨(), _, hopen, hstart ▸ hrun⟩
  rw [hcount] at hchosen
  obtain ⟨x, hx⟩ := ho.checkSettle hcount hvocabulary hchosen
  refine ⟨x.receipt, settledBy s x o.nextDraftBatch, settledBy s x (s.draft.nextBatch + 1),
    ?_, ?_, rfl⟩
  · refine exec_bind_eq_ok.mpr ⟨(), _, ho.verifyTarget hchosen hbelow rfl rfl rfl, ?_⟩
    exact exec_settle rfl (fun hnone => by simp at hnone) (hx _ _ _ rfl rfl rfl rfl
      (ho.checkProposals hs hcount hvocabulary hp rfl rfl rfl rfl))
  · refine exec_bind_eq_ok.mpr ⟨(), _, ho.verifyTarget hchosen hbelow rfl rfl rfl, ?_⟩
    refine exec_bind_eq_ok.mpr ⟨(), _, ho.consumeDraft rfl rfl rfl, ?_⟩
    exact exec_settle rfl (fun hnone => by simp at hnone) (hx _ _ _ rfl rfl rfl rfl rfl)

/-- Four candidates in the sample pair: the draft model sees the anchor and three of them. -/
theorem proposals_agree_four : ∃ s index a, smallPair = .ok s ∧ s.proposalIndex = .ok index ∧
    (proposeRound [7, 8, 9, 10]).exec s =
      (.ok ((rowsAt s.draftSequence s.draftTokens.length [index.roundAnchor, 7, 8, 9]).map ([·])),
        a) := by
  have hopen : smallPair.map (fun s => ((reserveProposals.exec s).1,
      bucketK s.targetSelection.bucket)) = .ok (.ok (), some 4) := by decide +kernel
  cases hpair : smallPair with
  | error e => simp [hpair, Except.map] at hopen
  | ok s =>
    simp only [hpair, Except.map, Except.ok.injEq, Prod.mk.injEq] at hopen
    have hlen : bucketK s.targetSelection.bucket = some ([7, 8, 9, 10] : List Token).length :=
      hopen.2
    obtain ⟨index, a, _, _, _, hindex, hrun, _⟩ := proposals_agree (.init (initial_smallPair hpair))
      hlen (by decide) (Prod.ext hopen.1 rfl)
    exact ⟨s, index, a, rfl, hindex, hrun⟩

end SpeculativeKv

end TpSpeculative

end Ferric
