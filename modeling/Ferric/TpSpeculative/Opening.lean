import Ferric.TpSpeculative.Owner
import Ferric.TpSpeculative.Retoken

/-!
# Opening a round without candidates

`reserve_proposals` opens a round whose candidates are not known. The draft model proposes them one
by one (`proposal_work`, `record_proposal`) into reservations that are made with placeholders.

A round with some candidates known is the opened round with these candidates and zeros behind them,
in all five places that carry tokens (`Opening.proposing`). Recording one choice goes from one of
these states to the next.

## Main definitions

* `RoundIndex.withCandidates` — an index with candidates, and zeros behind them
* `Opening`, `Opening.proposing` — what `reserve_proposals` makes, and the states it goes through

## Main results

* `opened_of_reserveProposals` — what an accepted `reserve_proposals` has made
* `Opened.proposalWork`, `Opened.recordProposal` — one row of the draft model
-/

namespace Ferric

namespace Spec.RoundIndex

/-! ### Candidates of an index -/

/-- The known candidates, and zeros behind them. It is irreducible because comparing two indexes
field by field would otherwise compute all of them. -/
@[irreducible] def padded (choices : List Token) : Vector Token 16 :=
  Vector.ofFn fun i => choices.getD i 0

theorem getElem_padded {choices : List Token} {i : ℕ} (hi : i < 16) :
    (padded choices)[i] = choices.getD i 0 := by
  rw [padded, Vector.getElem_ofFn]

/-- The index with the given candidates, and zeros behind them. -/
def withCandidates (x : RoundIndex) (choices : List Token) : RoundIndex :=
  { x with draftTokens := padded choices }

variable {x : RoundIndex} {choices : List Token} {choice : Token}

@[simp] theorem withCandidates_draftTokenCount :
    (x.withCandidates choices).draftTokenCount = x.draftTokenCount := rfl

@[simp] theorem withCandidates_targetPreCommitted :
    (x.withCandidates choices).targetPreCommitted = x.targetPreCommitted := rfl

theorem getElem?_withCandidates {i : ℕ} (hi : i < 16) :
    (x.withCandidates choices).draftTokens[i]? = some (choices.getD i 0) := by
  rw [withCandidates, Vector.getElem?_eq_getElem hi, getElem_padded]

theorem getElem?_drafts_withCandidates {i : ℕ} (hi : i < x.draftTokenCount)
    (hcount : x.draftTokenCount ≤ 16) :
    (x.withCandidates choices).drafts[i]? = some (choices.getD i 0) := by
  have hcut : i < (x.withCandidates choices).draftTokenCount := hi
  rw [drafts, List.getElem?_take_of_lt hcut, Vector.getElem?_toList,
    getElem?_withCandidates (by omega)]

/-- An index that carries all of its candidates. -/
theorem drafts_withCandidates (hlen : choices.length = x.draftTokenCount)
    (hcount : x.draftTokenCount ≤ 16) : (x.withCandidates choices).drafts = choices := by
  refine List.ext_getElem? fun i => ?_
  by_cases hi : i < x.draftTokenCount
  · rw [getElem?_drafts_withCandidates hi hcount, List.getD_eq_getElem?_getD,
      List.getElem?_eq_getElem (hlen ▸ hi), Option.getD_some]
  · have hshort : (x.withCandidates choices).drafts.length ≤ i := by
      rw [drafts, List.length_take]
      exact Nat.le_trans (Nat.min_le_left _ _) (Nat.not_lt.mp hi)
    rw [List.getElem?_eq_none hshort, List.getElem?_eq_none (by omega)]

/-- The inputs up to the last known candidate. -/
theorem getElem?_inputs_withCandidates {i : ℕ} (hi : i ≤ choices.length)
    (hle : choices.length ≤ x.draftTokenCount) (hcount : x.draftTokenCount ≤ 16) :
    (x.withCandidates choices).inputs[i]? = (x.roundAnchor :: choices)[i]? := by
  cases i with
  | zero => rfl
  | succ i =>
    rw [inputs, List.getElem?_cons_succ, List.getElem?_cons_succ,
      getElem?_drafts_withCandidates (by omega) hcount, List.getD_eq_getElem?_getD,
      List.getElem?_eq_getElem hi, Option.getD_some]

@[simp] theorem length_inputs_withCandidates :
    (x.withCandidates choices).inputs.length = x.inputs.length := by
  simp [inputs, drafts, withCandidates]

theorem checkTokens_withCandidates (hle : choices.length ≤ x.draftTokenCount)
    (hvocabulary : ∀ token ∈ choices, token < vocabularySize) :
    (List.range maxDraftTokens).foldlM (fun _ i => (x.withCandidates choices).checkToken i) () =
      .ok () := by
  rw [foldlM_checks_eq_ok]
  intro i hi
  rw [checkToken, getElem?_withCandidates (List.mem_range.mp hi), orPanic, ok_bind,
    List.getD_eq_getElem?_getD]
  by_cases hknown : i < choices.length
  · have hcount : i < (x.withCandidates choices).draftTokenCount := Nat.lt_of_lt_of_le hknown hle
    have hmem := hvocabulary _ (List.getElem_mem hknown)
    rw [if_pos hcount, List.getElem?_eq_getElem hknown, Option.getD_some]
    exact failIf_of_not (Nat.not_le.mpr hmem)
  · rw [List.getElem?_eq_none (Nat.not_lt.mp hknown), Option.getD_none]
    split
    · exact failIf_of_not (by decide)
    · exact failIf_of_not (by decide)

/-- Candidates below the vocabulary do not make an index invalid. -/
theorem validateFor_withCandidates {request : RequestId} {epoch : ℕ} {planId : Identity}
    {target draft : PlanSelection} (hle : choices.length ≤ x.draftTokenCount)
    (hvocabulary : ∀ token ∈ choices, token < vocabularySize) :
    (x.withCandidates choices).validateFor request epoch planId target draft =
      (x.withCandidates []).validateFor request epoch planId target draft := by
  have h := checkTokens_withCandidates hle hvocabulary
  have h₀ : (List.range maxDraftTokens).foldlM
      (fun _ i => (x.withCandidates []).checkToken i) () = .ok () :=
    checkTokens_withCandidates (Nat.zero_le _) fun _ hmem => absurd hmem List.not_mem_nil
  rw [validateFor, validateFor, validate, validate, h, h₀]
  rfl

end Spec.RoundIndex

namespace TpSpeculative

open TpPaged TpPaged.PagedPool Ferric.Action

open Spec hiding Token

theorem fromPool_of_ok {α : Type} {x : Outcome PagedError α} {a : α} (h : x = .ok a) :
    fromPool x = .ok a := by
  rw [h]
  rfl

/-- Writing the next candidate into an index. -/
theorem patchIndex_withCandidates {x : RoundIndex} {choices : List Token} {choice : Token}
    (hlt : choices.length < 16) :
    SpeculativeKv.patchIndex (x.withCandidates choices) choices.length choice =
      .ok (x.withCandidates (choices ++ [choice])) := by
  rw [SpeculativeKv.patchIndex, dif_pos hlt, orPanic, ok_bind]
  refine congrArg (fun v => Except.ok { x with draftTokens := v }) (Vector.ext fun i hi => ?_)
  rw [Vector.getElem_set]
  simp only [RoundIndex.withCandidates, RoundIndex.getElem_padded, List.getD_eq_getElem?_getD]
  rcases Nat.lt_trichotomy i choices.length with hlt | rfl | hgt
  · rw [if_neg (by omega), List.getElem?_append_left hlt]
  · rw [if_pos rfl, List.getElem?_append_right (Nat.le_refl _), Nat.sub_self]
    rfl
  · rw [if_neg (by omega), List.getElem?_eq_none (by omega),
      List.getElem?_eq_none (by simp; omega)]

namespace SpeculativeKv

variable {s s' : SpeculativeKv} {ts ds : List PageRow}

/-! ### Reserving in both pools -/

/-- A check that passes leaves the pair as it is. -/
theorem exec_preflight_of_ok {α : Type} {check : SpeculativeKv → Outcome SpeculativeError α} {a : α}
    (h : check s = .ok a) : (preflight check).exec s = (.ok a, s) := by
  rw [preflight, exec_handle, exec_query, h]

theorem exec_reservePair {target draft : PreparedBatch} {t d : PagedPool}
    (ht : s.target.reserveBatch ts = .ok (target, t))
    (hd : s.draft.reserveBatch ds = .ok (draft, d)) :
    (reservePair ts ds).exec s = (.ok (target, draft), { s with target := t, draft := d }) := by
  have hd' : (putTarget t s).draft.reserveBatch ds = .ok (draft, d) := hd
  rw [reservePair, exec_bind_of_ok (exec_attempt_of_ok ht),
    exec_bind_of_ok (exec_orThrow_eq_ok.mpr ⟨rfl, rfl⟩), exec_bind_of_ok (exec_attempt_of_ok hd')]
  rfl

/-- Both reservations were accepted. -/
theorem reservePair_eq_ok {r : PreparedBatch × PreparedBatch}
    (h : (reservePair ts ds).exec s = (.ok r, s')) :
    ∃ t d, s.target.reserveBatch ts = .ok (r.1, t) ∧ s.draft.reserveBatch ds = .ok (r.2, d) ∧
      s' = { s with target := t, draft := d } := by
  rw [reservePair, exec_bind_eq_ok] at h
  obtain ⟨x, s₁, hx, hrest⟩ := h
  obtain ⟨target, s₂, htarget, hdraft⟩ := exec_bind_eq_ok.mp hrest
  obtain ⟨rfl, rfl⟩ := exec_orThrow_eq_ok.mp htarget
  obtain ⟨t, ht, rfl⟩ := exec_attempt_eq_ok hx
  obtain ⟨y, s₃, hy, hreply⟩ := exec_bind_eq_ok.mp hdraft
  cases y with
  | ok draft =>
    obtain ⟨d, hd, rfl⟩ := exec_attempt_eq_ok hy
    obtain ⟨hr, rfl⟩ := Prod.mk.inj hreply
    obtain rfl := Except.ok.inj hr
    exact ⟨t, d, ht, hd, rfl⟩
  | error e =>
    obtain ⟨_, _, -, habort⟩ := exec_bind_eq_ok.mp hreply
    obtain ⟨_, _, -, hfail⟩ := exec_bind_eq_ok.mp habort
    cases hfail

/-! ### An opened round -/

/-- What `reserve_proposals` makes of a ready pair: an index without candidates, two batches with
placeholders, and what they propose. -/
structure Opening where
  index : RoundIndex
  target : PreparedBatch
  targetState : State
  draft : PreparedBatch
  draftState : State
  nextDraftBatch : ℕ

/-- The pair was ready, and has made these reservations. -/
structure Opened (s : SpeculativeKv) (o : Opening) : Prop where
  ready : RoundReady s o.index
  tokens_eq : s.targetTokens = s.draftTokens
  index : s.proposalIndex = .ok o.index
  checked : s.validateIndex o.index = .ok ()
  canonical : o.index.withCandidates [] = o.index
  target : Reserves s.target s.targetSequence o.index.inputs o.target o.targetState
  draft : Reserves s.draft s.draftSequence (o.index.inputs.take o.index.draftTokenCount) o.draft
    o.draftState
  epoch_lt : s.epoch + 1 < 2 ^ 64
  next : s.draft.nextBatch + (o.index.draftTokenCount + 1) = o.nextDraftBatch
  next_lt : o.nextDraftBatch < 2 ^ 64

namespace Opening

variable (o : Opening) (s : SpeculativeKv) (choices : List Token)

/-- The target's batch once these candidates are known. -/
def targetBatch : PreparedBatch := retokenBatch (o.index.withCandidates choices).inputs o.target

/-- The draft model's batch once these candidates are known. -/
def draftBatch : PreparedBatch :=
  retokenBatch ((o.index.withCandidates choices).inputs.take o.index.draftTokenCount) o.draft

/-- What the target's pool proposes once these candidates are known. -/
def targetNext : State :=
  retokenState s.targetSequence.serial
    (tokensOf s.target s.targetSequence ++ (o.index.withCandidates choices).inputs) o.targetState

/-- What the draft model's pool proposes once these candidates are known. -/
def draftNext : State :=
  retokenState s.draftSequence.serial (tokensOf s.draft s.draftSequence ++
    (o.index.withCandidates choices).inputs.take o.index.draftTokenCount) o.draftState

/-- The pair with both reservations, once these candidates are known. -/
def pair (next : ℕ) (targetSubmitted draftSubmitted : Bool) (phase : Phase) : SpeculativeKv :=
  { s with
    target := held s.target (o.targetBatch choices) (o.targetNext s choices)
      (s.target.nextBatch + 1) targetSubmitted
    draft := held s.draft (o.draftBatch choices) (o.draftNext s choices) next draftSubmitted
    phase }

/-- The round while candidates are proposed. -/
def proposalRound (results : List ProposalResult) (active : Option PreparedBatch) :
    ProposalRound where
  target := o.targetBatch choices
  draft := o.draftBatch choices
  index := o.index.withCandidates choices
  firstBatch := s.draft.nextBatch + 1
  results := results
  active := active

/-- The pair while candidates are proposed. -/
def proposing (results : List ProposalResult) (submitted : Bool) (active : Option PreparedBatch) :
    SpeculativeKv :=
  o.pair s choices o.nextDraftBatch false submitted
    (.proposing (o.proposalRound s choices results active))

/-- The pair once all candidates are known. -/
def resolved (results : List ProposalResult) : SpeculativeKv :=
  o.pair s choices o.nextDraftBatch false true <| .round
    { index := o.index.withCandidates choices
      target := o.targetBatch choices
      draft := o.draftBatch choices
      targetResult := none
      draftResult := none
      proposalResults := some { firstBatch := s.draft.nextBatch + 1, results } }

/-- The pair between two choices. -/
def recorded (results : List ProposalResult) : SpeculativeKv :=
  if choices.length = o.index.draftTokenCount then o.resolved s choices results
  else o.proposing s choices results (decide (0 < choices.length)) none

end Opening

variable {o : Opening} {choices : List Token}

/-- An index without candidates passes the check, and is zero where the candidates will be. -/
theorem proposalIndex_eq_ok {index : RoundIndex} (h : s.proposalIndex = .ok index) :
    s.validateIndex index = .ok () ∧ index.withCandidates [] = index := by
  rw [proposalIndex] at h
  obtain ⟨k, -, h₁⟩ := bind_eq_ok.mp h
  obtain ⟨cursor, -, h₂⟩ := bind_eq_ok.mp h₁
  obtain ⟨_, -, h₃⟩ := bind_eq_ok.mp h₂
  obtain ⟨_, -, h₄⟩ := bind_eq_ok.mp h₃
  obtain ⟨ends, -, h₅⟩ := bind_eq_ok.mp h₄
  obtain ⟨targetEnd, -, h₆⟩ := bind_eq_ok.mp h₅
  obtain ⟨draftEnd, -, h₇⟩ := bind_eq_ok.mp h₆
  obtain ⟨_, hvalid, h₈⟩ := bind_eq_ok.mp h₇
  obtain rfl := Except.ok.inj h₈
  have hzeros : RoundIndex.padded [] = Vector.replicate 16 0 :=
    Vector.ext fun i hi => by rw [RoundIndex.getElem_padded, Vector.getElem_replicate]; rfl
  refine ⟨hvalid, ?_⟩
  rw [RoundIndex.withCandidates, hzeros]

/-- **Opening.** What an accepted `reserve_proposals` has made. -/
theorem opened_of_reserveProposals (h : PairInv s)
    (hreserve : reserveProposals.exec s = (.ok (), s')) :
    ∃ o, Opened s o ∧ s' = o.proposing s [] [] false none := by
  rw [reserveProposals] at hreserve
  obtain ⟨plan, s₁, hplan, h₁⟩ := exec_bind_eq_ok.mp hreserve
  obtain ⟨hplan, rfl⟩ := exec_query_eq_ok.mp hplan
  obtain ⟨⟨target, draft⟩, s₂, hpair, h₂⟩ := exec_bind_eq_ok.mp h₁
  obtain ⟨t, d, ht, hd, rfl⟩ := reservePair_eq_ok hpair
  obtain ⟨hready, htr, hdr⟩ := (proposalPlan_ensures h).of_ok hplan
  obtain ⟨-, -, htok⟩ := (phaseInv_ready hready.ready).mp h.phase
  rw [htr] at ht
  rw [hdr] at hd
  obtain ⟨rt, htarget, rfl⟩ := h.target.reserves ht
  obtain ⟨rd, hdraft, rfl⟩ := h.draft.reserves hd
  rw [proposalPlan] at hplan
  obtain ⟨_, -, h₃⟩ := bind_eq_ok.mp hplan
  obtain ⟨index, hindex, h₄⟩ := bind_eq_ok.mp h₃
  obtain ⟨epoch, hepoch, h₅⟩ := bind_eq_ok.mp h₄
  obtain ⟨next, hnext, h₆⟩ := bind_eq_ok.mp h₅
  obtain ⟨_, -, h₇⟩ := bind_eq_ok.mp h₆
  obtain ⟨_, -, h₈⟩ := bind_eq_ok.mp h₇
  obtain rfl := Except.ok.inj h₈
  obtain ⟨hchecked, hcanonical⟩ := proposalIndex_eq_ok hindex
  obtain ⟨hepoch, -⟩ := checkedAdd_eq_some.mp (orErr_eq_ok.mp hepoch)
  obtain ⟨hlt, hsum⟩ := checkedAdd_eq_some.mp (orErr_eq_ok.mp hnext)
  refine ⟨⟨index, target, rt, draft, rd, next⟩,
    ⟨hready, htok, hindex, hchecked, hcanonical, htarget,
    hdraft, hepoch, hsum, hsum ▸ hlt⟩, ?_⟩
  obtain ⟨hbt, hst⟩ := htarget.retoken_self
  obtain ⟨hbd, hsd⟩ := hdraft.retoken_self
  have hs' : s' = _ := (Prod.mk.inj h₂).2.symm
  rw [hs']
  simp only [Opening.proposing, Opening.pair, Opening.targetBatch, Opening.draftBatch,
    Opening.targetNext, Opening.draftNext, Opening.proposalRound, hcanonical, hbt, hst, hbd, hsd]
  rfl

namespace Opened

variable {results : List ProposalResult} {choice : Token} {row : PreparedRow}

/-- The target's reservation, once these candidates are known. -/
theorem reservesTarget (h : Opened s o) (choices : List Token) :
    Reserves s.target s.targetSequence (o.index.withCandidates choices).inputs
      (o.targetBatch choices) (o.targetNext s choices) :=
  h.target.retoken RoundIndex.length_inputs_withCandidates

/-- The draft model's reservation, once these candidates are known. -/
theorem reservesDraft (h : Opened s o) (choices : List Token) :
    Reserves s.draft s.draftSequence
      ((o.index.withCandidates choices).inputs.take o.index.draftTokenCount)
      (o.draftBatch choices) (o.draftNext s choices) := by
  refine h.draft.retoken ?_
  rw [List.length_take, List.length_take, RoundIndex.length_inputs_withCandidates]

theorem length_draft_rows (h : Opened s o) (choices : List Token) :
    (o.draftBatch choices).rows.length = o.index.draftTokenCount := by
  rw [(h.reservesDraft choices).length_rows, List.length_take,
    RoundIndex.length_inputs_withCandidates, h.ready.valid.length_inputs]
  omega

/-- The index with known candidates passes the check. -/
theorem validateIndex (h : Opened s o) (hle : choices.length ≤ o.index.draftTokenCount)
    (hvocabulary : ∀ token ∈ choices, token < vocabularySize) :
    s.validateIndex (o.index.withCandidates choices) = .ok () := by
  have hchecked := h.checked
  rw [SpeculativeKv.validateIndex, ← h.canonical] at hchecked
  rw [SpeculativeKv.validateIndex, RoundIndex.validateFor_withCandidates hle hvocabulary, hchecked]

/-- The rows up to the one that is handed out next: the anchor, and the known candidates. -/
theorem getElem?_draft_rows {i : ℕ} (h : Opened s o)
    (hle : choices.length ≤ o.index.draftTokenCount)
    (hi : i ≤ choices.length) (hlt : i < o.index.draftTokenCount) :
    ∃ row, (o.draftBatch choices).rows[i]? = some row ∧
      (rowsAt s.draftSequence s.draftTokens.length (o.index.roundAnchor :: choices))[i]? =
        some row.input := by
  have hrow := List.getElem?_eq_getElem ((h.length_draft_rows choices).symm ▸ hlt)
  refine ⟨_, hrow, ?_⟩
  have hinput := congrArg (·[i]?) (h.reservesDraft choices).inputs_eq
  simp only [inputs, List.getElem?_map, hrow, Option.map_some, getElem?_rowsAt] at hinput
  rw [hinput, getElem?_rowsAt, List.getElem?_take_of_lt hlt,
    RoundIndex.getElem?_inputs_withCandidates hi hle h.ready.valid.count_le]
  rfl

end Opened

/-! ### One row of the draft model -/

/-- The work on the row after these candidates. -/
def Opening.work (o : Opening) (s : SpeculativeKv) (choices : List Token) (row : PreparedRow) :
    ProposalWork where
  identity :=
    { round := s.identity .draft06B o.draft false
      ordinal := choices.length
      batch := s.draft.nextBatch + 1 + choices.length }
  batch :=
    { pool := o.draft.pool
      scope := o.draft.scope
      id := s.draft.nextBatch + 1 + choices.length
      limits := o.draft.limits
      rows := [row] }

/-- The draft model's choice for this row. -/
def Opening.result (o : Opening) (s : SpeculativeKv) (choices : List Token) (row : PreparedRow)
    (choice : Token) : ProposalResult where
  identity := (o.work s choices row).identity
  input := row.input
  choice := choice
  completion := .afterAllRanks (o.work s choices row).batch

namespace Opened

variable {results : List ProposalResult} {choice : Token} {row : PreparedRow}

theorem nextProposal (h : Opened s o) (row : PreparedRow)
    (hlt : choices.length < o.index.draftTokenCount) (hresults : results.length = choices.length)
    (submitted : Bool) :
    (o.proposing s choices results submitted none).nextProposal =
      .ok (o.proposalRound s choices results none, (o.work s choices row).identity) := by
  have hk := h.ready.valid.count_le
  have hnext := h.next
  have hnext_lt := h.next_lt
  rw [SpeculativeKv.nextProposal]
  simp only [Opening.proposing, Opening.pair, Opening.proposalRound]
  rw [failIf_of_not ?_, ok_bind, (h.reservesTarget choices).requireBatch, fromPool, mapErr, ok_bind,
    (h.reservesDraft choices).requireBatch, fromPool, mapErr, ok_bind, hresults, toU8,
    if_pos (by omega), orErr, ok_bind, checkedAdd, if_pos (by omega), orErr, ok_bind]
  · rfl
  · simp only [Option.isSome_none, Bool.false_eq_true, false_or, hresults]
    exact Nat.not_le.mpr hlt

/-- The first row marks the draft model's reservation, and it stays marked. -/
theorem beginProposal (h : Opened s o) (results : List ProposalResult) :
    (SpeculativeKv.beginProposal (o.draftBatch choices) choices.length).exec
        (o.proposing s choices results (decide (0 < choices.length)) none) =
      (.ok (), o.proposing s choices results true none) := by
  rw [SpeculativeKv.beginProposal]
  cases choices with
  | nil =>
    have hbegin : noReply (·.beginSubmission (o.draftBatch []))
        (o.proposing s [] results false none).draft =
          .ok ((), held s.draft (o.draftBatch []) (o.draftNext s []) o.nextDraftBatch true) := by
      rw [noReply, Opening.proposing, Opening.pair, (h.reservesDraft []).beginSubmission]
      rfl
    rw [if_pos List.length_nil]
    exact exec_bind_eq_ok.mpr ⟨_, _, exec_attempt_of_ok hbegin, rfl⟩
  | cons token choices =>
    rw [if_neg (by simp)]
    rfl

/-- **One row is handed out.** -/
theorem proposalWork (h : Opened s o) (hlt : choices.length < o.index.draftTokenCount)
    (hresults : results.length = choices.length)
    (hrow : (o.draftBatch choices).rows[choices.length]? = some row) :
    SpeculativeKv.proposalWork.exec
        (o.proposing s choices results (decide (0 < choices.length)) none) =
      (.ok (o.work s choices row),
        o.proposing s choices results true (some (o.work s choices row).batch)) := by
  have hnext := h.nextProposal row hlt hresults (decide (0 < choices.length))
  rw [SpeculativeKv.proposalWork]
  refine exec_bind_eq_ok.mpr ⟨_, _, exec_query_eq_ok.mpr ⟨hnext, rfl⟩, ?_⟩
  refine exec_bind_eq_ok.mpr ⟨_, _, h.beginProposal results, ?_⟩
  exact exec_bind_eq_ok.mpr ⟨_, _, exec_query_eq_ok.mpr ⟨orPanic_eq_ok.mpr hrow, rfl⟩, rfl⟩

/-- The driver's completion of a row is sealed. -/
theorem seal_work (h : Opened s o) (hlt : choices.length < o.index.draftTokenCount)
    (hchoice : choice < vocabularySize) :
    (o.work s choices row).seal (.afterAllRanks (o.work s choices row).batch) [choice] [0] =
      .ok (o.result s choices row choice) := by
  have hk := h.ready.valid.count_le
  have hid : o.draft.id = s.draft.nextBatch := h.draft.prepared.id
  have hordinal : (o.work s choices row).identity.ordinal < 16 := Nat.lt_of_lt_of_le hlt hk
  have hlater : (o.work s choices row).batch.id > (o.work s choices row).identity.round.batch := by
    show s.draft.nextBatch + 1 + choices.length > o.draft.id
    omega
  have hvalid : (o.work s choices row).validate = true :=
    decide_eq_true ⟨rfl, rfl, hordinal, rfl, rfl, rfl, hlater⟩
  rw [ProposalWork.seal, failIf_of_not ?complete, ok_bind, failIf_of_not ?vocabulary, ok_bind]
  case complete =>
    rw [hvalid]
    rintro (hfalse | hpool | hbatch)
    · cases hfalse
    · exact hpool rfl
    · exact hbatch rfl
  case vocabulary => simpa using hchoice
  rfl

/-- What the next candidate makes of the index. -/
theorem inputs_concat (h : Opened s o) (hlt : choices.length < o.index.draftTokenCount) :
    (o.index.withCandidates (choices ++ [choice])).inputs =
      (o.index.withCandidates choices).inputs.set (choices.length + 1) choice := by
  have hk := h.ready.valid.count_le
  obtain ⟨x, hpatch, hinputs, -⟩ := patchIndex_eq (o.index.withCandidates choices)
    (by omega : choices.length < 16) choice
  rw [patchIndex_withCandidates (by omega)] at hpatch
  rw [Except.ok.inj hpatch, hinputs]

theorem take_inputs_concat (h : Opened s o) (hlt : choices.length < o.index.draftTokenCount) :
    (o.index.withCandidates (choices ++ [choice])).inputs.take o.index.draftTokenCount =
      ((o.index.withCandidates choices).inputs.take o.index.draftTokenCount).set
        (choices.length + 1) choice := by
  rw [h.inputs_concat hlt, List.take_set]

/-- The target's proposed state with the next candidate in it. -/
theorem patchTarget (h : Opened s o) (hlt : choices.length < o.index.draftTokenCount) :
    patchState (o.targetNext s choices) s.targetSequence.serial
        (o.index.targetPreCommitted + choices.length + 1) choice =
      .ok (o.targetNext s (choices ++ [choice])) := by
  obtain ⟨q, hq, -⟩ := h.target.get
  have hlen := h.ready.valid.length_inputs
  have hcursor : o.index.targetPreCommitted = (tokensOf s.target s.targetSequence).length :=
    h.ready.cursor
  rw [Opening.targetNext, patchState_retoken hq, hcursor, Nat.add_assoc,
    List.set_append_right _ _ (Nat.le_add_right _ _), Nat.add_sub_cancel_left,
    ← h.inputs_concat hlt]
  · rfl
  · rw [List.length_append, RoundIndex.length_inputs_withCandidates]
    omega

/-- The draft model's proposed state with the next candidate in it, if it consumes it. -/
theorem patchDraft (h : Opened s o) (hlt : choices.length < o.index.draftTokenCount) :
    (if choices.length + 1 < o.index.draftTokenCount then
        patchState (o.draftNext s choices) s.draftSequence.serial
          (o.index.targetPreCommitted + choices.length + 1) choice
      else .ok (o.draftNext s choices)) = .ok (o.draftNext s (choices ++ [choice])) := by
  obtain ⟨q, hq, -⟩ := h.draft.get
  have hlen := h.ready.valid.length_inputs
  have hcursor : o.index.targetPreCommitted = (tokensOf s.draft s.draftSequence).length :=
    h.ready.cursor.trans (congrArg List.length h.tokens_eq)
  rw [Opening.draftNext, Opening.draftNext, h.take_inputs_concat hlt]
  split
  · rw [patchState_retoken hq, hcursor, Nat.add_assoc,
      List.set_append_right _ _ (Nat.le_add_right _ _), Nat.add_sub_cancel_left]
    rw [List.length_append, List.length_take, RoundIndex.length_inputs_withCandidates]
    omega
  · rw [List.set_eq_of_length_le]
    rw [List.length_take, RoundIndex.length_inputs_withCandidates]
    omega

/-- The sealed choice is of the row that was handed out. -/
theorem validateProposal (h : Opened s o) (choices : List Token) (row : PreparedRow)
    (hchoice : choice < vocabularySize) :
    TpSpeculative.SpeculativeKv.validateProposal (o.result s choices row choice)
      (s.identity .draft06B o.draft false) choices.length (s.draft.nextBatch + 1 + choices.length)
      row.input = .ok () := by
  have hid : o.draft.id = s.draft.nextBatch := h.draft.prepared.id
  rw [SpeculativeKv.validateProposal, failIf_of_not ?matching, ok_bind]
  case matching =>
    rintro (hidentity | hlater | hinput | hpool | hbatch)
    · exact hidentity rfl
    · exact absurd hlater (Nat.not_le.mpr (by show o.draft.id < _; omega))
    · exact hinput rfl
    · exact hpool rfl
    · exact hbatch rfl
  exact failIf_of_not (Nat.not_le.mpr hchoice)

/-- **A choice is accepted**, and written into the index and both proposed states. -/
theorem preflightProposal (h : Opened s o) (hlt : choices.length < o.index.draftTokenCount)
    (hresults : results.length = choices.length)
    (hvocabulary : ∀ token ∈ choices ++ [choice], token < vocabularySize)
    (hrow : (o.draftBatch choices).rows[choices.length]? = some row) :
    SpeculativeKv.preflightProposal (o.result s choices row choice)
        (o.proposing s choices results true (some (o.work s choices row).batch)) =
      .ok (o.targetNext s (choices ++ [choice]), o.draftNext s (choices ++ [choice]),
        o.index.withCandidates (choices ++ [choice])) := by
  have hk := h.ready.valid.count_le
  have hnext := h.next
  have hnext_lt := h.next_lt
  have hchoice : choice < vocabularySize := hvocabulary choice (by simp)
  have hlonger : (choices ++ [choice]).length ≤ o.index.draftTokenCount := by
    rw [List.length_append]
    exact hlt
  have hround := h.validateIndex hlonger hvocabulary
  rw [SpeculativeKv.preflightProposal]
  simp only [Opening.proposing, Opening.pair, Opening.proposalRound, hresults]
  refine bind_eq_ok.mpr ⟨(), fromPool_of_ok ((h.reservesTarget choices).requireBatch _ _), ?_⟩
  refine bind_eq_ok.mpr ⟨(), fromPool_of_ok ((h.reservesDraft choices).requireBatch _ _), ?_⟩
  refine bind_eq_ok.mpr ⟨(), fromPool_of_ok ((h.reservesTarget choices).checkInvariants _ _), ?_⟩
  refine bind_eq_ok.mpr ⟨(), fromPool_of_ok ((h.reservesDraft choices).checkInvariants _ _), ?_⟩
  refine bind_eq_ok.mpr ⟨_, rfl, ?_⟩
  refine bind_eq_ok.mpr ⟨(), failIf_of_not ?_, ?_⟩
  · rintro (hfull | htarget | hdraft)
    · exact absurd hlt (Nat.not_lt.mpr hfull)
    · cases htarget
    · cases hdraft
  refine bind_eq_ok.mpr ⟨choices.length, orErr_eq_ok.mpr (if_pos (by omega)), ?_⟩
  refine bind_eq_ok.mpr ⟨row, orPanic_eq_ok.mpr hrow, ?_⟩
  refine bind_eq_ok.mpr ⟨(), h.validateProposal choices row hchoice, ?_⟩
  refine bind_eq_ok.mpr ⟨(), failIf_of_not (not_not.mpr rfl), ?_⟩
  refine bind_eq_ok.mpr ⟨_, orErr_eq_ok.mpr (checkedAdd_eq_some.mpr ⟨by omega, rfl⟩), ?_⟩
  refine bind_eq_ok.mpr ⟨(), failIf_of_not (not_not.mpr rfl), ?_⟩
  simp only [held, orErr, ok_bind, Opening.result, RoundIndex.withCandidates_draftTokenCount,
    RoundIndex.withCandidates_targetPreCommitted]
  rw [h.patchTarget hlt, ok_bind]
  refine bind_eq_ok.mpr ⟨_, h.patchDraft hlt, ?_⟩
  rw [patchIndex_withCandidates (by omega), ok_bind]
  refine bind_eq_ok.mpr ⟨(), hround, ?_⟩
  refine bind_eq_ok.mpr ⟨(), fromPool_of_ok
    (validateState_of_inv (h.reservesTarget (choices ++ [choice])).inv), ?_⟩
  exact bind_eq_ok.mpr ⟨(), fromPool_of_ok
    (validateState_of_inv (h.reservesDraft (choices ++ [choice])).inv), rfl⟩

/-- A choice is written into the rows of both batches. -/
theorem patchRows (h : Opened s o) (hlt : choices.length < o.index.draftTokenCount)
    (choice : Token) :
    patchRow (o.targetBatch choices).rows (choices.length + 1) choice =
        .ok (o.targetBatch (choices ++ [choice])).rows ∧
      (if choices.length + 1 < (o.draftBatch choices).rows.length then
          patchRow (o.draftBatch choices).rows (choices.length + 1) choice
        else .ok (o.draftBatch choices).rows) = .ok (o.draftBatch (choices ++ [choice])).rows := by
  have hlen := h.ready.valid.length_inputs
  have htarget := h.target.length_rows
  have hdraft := h.draft.length_rows
  constructor
  · rw [Opening.targetBatch, Opening.targetBatch, retokenBatch, retokenBatch,
      patchRow_retoken (by rw [htarget, RoundIndex.length_inputs_withCandidates])
        (by rw [RoundIndex.length_inputs_withCandidates]; omega), h.inputs_concat hlt]
  · rw [h.length_draft_rows]
    simp only [Opening.draftBatch, retokenBatch]
    rw [h.take_inputs_concat hlt]
    split
    · next hin =>
      refine patchRow_retoken ?_ ?_ choice
      · rw [hdraft, List.length_take, List.length_take, RoundIndex.length_inputs_withCandidates]
      · rw [List.length_take, RoundIndex.length_inputs_withCandidates]
        omega
    · rw [List.set_eq_of_length_le]
      rw [List.length_take, RoundIndex.length_inputs_withCandidates]
      omega

/-- The round with a choice written into its rows, the last choice resolves it. -/
theorem resolveProposal (h : Opened s o) (hlt : choices.length < o.index.draftTokenCount)
    (hresults : results.length = choices.length) (active : Option PreparedBatch) :
    SpeculativeKv.resolveProposal (o.proposalRound s choices results active)
        (o.result s choices row choice) (o.index.withCandidates (choices ++ [choice])) =
      .ok (o.recorded s (choices ++ [choice]) (results ++ [o.result s choices row choice])).phase
        := by
  obtain ⟨htarget, hdraft⟩ := h.patchRows hlt choice
  rw [SpeculativeKv.resolveProposal]
  simp only [Opening.proposalRound, hresults]
  refine bind_eq_ok.mpr ⟨_, htarget, ?_⟩
  refine bind_eq_ok.mpr ⟨_, hdraft, ?_⟩
  have hlen :
      (results ++ [o.result s choices row choice]).length = (choices ++ [choice]).length := by
    simp [hresults]
  have hsome : decide (0 < (choices ++ [choice]).length) = true := by simp
  rw [Opening.recorded, hsome]
  by_cases hlast : (choices ++ [choice]).length = o.index.draftTokenCount
  · rw [if_pos hlast]
    exact if_pos (hlen.trans hlast)
  · rw [if_neg hlast]
    exact if_neg fun hfull => hlast (hlen.symm.trans hfull)

/-- **A choice is recorded.** -/
theorem recordProposal (h : Opened s o) (hlt : choices.length < o.index.draftTokenCount)
    (hresults : results.length = choices.length)
    (hvocabulary : ∀ token ∈ choices ++ [choice], token < vocabularySize)
    (hrow : (o.draftBatch choices).rows[choices.length]? = some row) :
    (SpeculativeKv.recordProposal (o.result s choices row choice)).exec
        (o.proposing s choices results true (some (o.work s choices row).batch)) =
      (.ok (), o.recorded s (choices ++ [choice])
        (results ++ [o.result s choices row choice])) := by
  rw [SpeculativeKv.recordProposal]
  refine exec_bind_eq_ok.mpr ⟨_, _, exec_preflight_of_ok
    (h.preflightProposal hlt hresults hvocabulary hrow), ?_⟩
  refine exec_bind_eq_ok.mpr ⟨_, _, exec_get, ?_⟩
  refine exec_bind_eq_ok.mpr ⟨_, _, exec_query_eq_ok.mpr
    ⟨h.resolveProposal hlt hresults _, rfl⟩, ?_⟩
  have hsome : decide (0 < (choices ++ [choice]).length) = true := by simp
  rw [exec_modify, Opening.recorded, hsome]
  split <;> rfl

end Opened

end SpeculativeKv

end TpSpeculative

end Ferric
