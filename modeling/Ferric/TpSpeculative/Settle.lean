import Ferric.TpSpeculative.Proposals

/-!
# Verifying and settling a round

The contracts of the calls that finish a round. Settling keeps of both reservations the inputs that
the target's choices confirm; if all candidates are accepted, the draft pool is one token behind,
and a *catch-up* of one row restores the balance.

## Main results

* `recordTarget_runs`, `recordDraft_runs`, `settle_runs`
* `reserveDraftCatchUp_runs`, `abortUnsubmitted_runs`, `failSubmitted_runs`
-/

namespace Ferric

namespace TpSpeculative

open TpPaged TpPaged.PagedPool Ferric.Action

open Spec hiding Token

namespace SpeculativeKv

variable {s s' : SpeculativeKv}

/-! ### Handing out work -/

/-- Marking the target reservation. -/
theorem targetWork_runs (h : PairInv s) :
    Runs s targetWork (fun _ s' => Done s s' ∧ Carries s s') fun _ s' => Failed s s' := by
  rw [targetWork]
  refine runs_get ?_
  split
  · next round hp =>
    have hround := (phaseInv_round hp).mp h.phase
    refine runs_attempt (g := SpeculativeKv.target)
      (ensures_noReply (hround.target.begin h.target.inv))
      (fun u t _ ⟨hinv, hhold, hstate, hid⟩ => ?_) fun e _ _ => ?_
    · refine runs_orThrow (fun _ _ => runs_get (runs_pure ?_)) fun e he => by simp at he
      have hframe : Frame s (putTarget t s) := ⟨rfl, rfl, rfl, rfl, hstate⟩
      refine ⟨⟨⟨h.target.congr hinv hid hstate, h.draft, ?_⟩, hframe, fun ht => ?_⟩, ?_⟩
      · exact (phaseInv_round (s := putTarget t s) hp).mpr
          (hround.congr hframe ⟨rfl, rfl, rfl, rfl⟩ rfl hhold hround.draft)
      · simp [hp] at ht
      · exact fun round' result hp' hr' => ⟨round', hp', hr', rfl⟩
    · exact runs_orThrow (fun _ ha => by simp at ha) fun _ _ => .refl h
  · exact runs_fail (.refl h)

/-- The batch that a draft call is about: of a round, or of a catch-up. -/
inductive DraftOf (s : SpeculativeKv) : PreparedBatch → Bool → Prop
  | round {round : Round} (hp : s.phase = .round round) : DraftOf s round.draft false
  | catchUp {token : Token} {batch : PreparedBatch} (hp : s.phase = .catchUp token batch) :
      DraftOf s batch true

theorem draftBatch_ensures :
    Ensures s.draftBatch (fun _ => True) fun r => DraftOf s r.1 r.2 := by
  rw [draftBatch]
  split
  · next round hp =>
    exact (ensures_failIf (Q := fun _ => True) (fun _ => trivial) fun _ => trivial).bind
      fun _ _ _ => ensures_pure.mpr (.round hp)
  · next hp => exact ensures_ok.mpr (.catchUp hp)
  · trivial

theorem draftPending_ensures :
    Ensures s.draftPending (fun _ => True) fun r => DraftOf s r.1 r.2 := by
  rw [draftPending]
  split
  · next round hp =>
    exact (ensures_failIf (Q := fun _ => True) (fun _ => trivial) fun _ => trivial).bind
      fun _ _ _ => ensures_pure.mpr (.round hp)
  · next hp => exact ensures_ok.mpr (.catchUp hp)
  · trivial

/-- The draft pool holds the batch. -/
theorem DraftOf.holding {batch : PreparedBatch} {catchUp : Bool} (h : DraftOf s batch catchUp)
    (hs : PairInv s) : ∃ tokens, Holding s.draft s.draftSequence batch tokens ∧
      ∀ d, Holding d s.draftSequence batch tokens → d.state = s.draft.state →
        PhaseInv (putDraft d s) := by
  cases h with
  | @round round hp =>
    have hround := (phaseInv_round hp).mp hs.phase
    refine ⟨_, hround.draft, fun d hd hstate => (phaseInv_round (s := putDraft d s) hp).mpr ?_⟩
    exact hround.congr ⟨rfl, rfl, rfl, rfl, rfl⟩ ⟨rfl, rfl, rfl, rfl⟩ hstate hround.target hd
  | @catchUp token batch hp =>
    obtain ⟨hti, hhold, htok⟩ := (phaseInv_catchUp hp).mp hs.phase
    refine ⟨_, hhold, fun d hd hstate =>
      (phaseInv_catchUp (s := putDraft d s) hp).mpr ⟨hti, hd, ?_⟩⟩
    have hd' : (putDraft d s).draftTokens = s.draftTokens := by
      simp only [draftTokens, tokensOf, putDraft, hstate]
    rw [hd']
    exact htok

/-- Marking the draft reservation. -/
theorem draftWork_runs (h : PairInv s) :
    Runs s draftWork (fun _ s' => Done s s' ∧ Carries s s') fun _ s' => Failed s s' := by
  rw [draftWork]
  refine runs_query (draftBatch_ensures.mono (fun _ _ => .refl h) fun _ _ hr => hr) ?_
  rintro ⟨batch, catchUp⟩ - hof
  obtain ⟨tokens, hhold, hphase⟩ := hof.holding h
  refine runs_attempt (g := SpeculativeKv.draft) (ensures_noReply (hhold.begin h.draft.inv))
    (fun u d _ ⟨hinv, hhold', hstate, hid⟩ => ?_) fun e _ _ => ?_
  · refine runs_orThrow (fun _ _ => runs_get (runs_pure ?_)) fun e he => by simp at he
    refine ⟨⟨⟨h.target, h.draft.congr hinv hid hstate, hphase d hhold' hstate⟩,
      ⟨rfl, rfl, rfl, rfl, rfl⟩, fun ht => ht⟩, ?_⟩
    exact fun round' result hp' hr' => ⟨round', hp', hr', rfl⟩
  · exact runs_orThrow (fun _ ha => by simp at ha) fun _ _ => .refl h

/-! ### Recording results -/

theorem validateResult_ensures {expected actual : WorkIdentity} {batch : PreparedBatch}
    {rows : List PageRow} {completion : BatchCompletion} :
    Ensures (s.validateResult expected actual batch rows completion) (fun _ => True) fun _ =>
      rows = inputs batch := by
  rw [validateResult]
  refine (ensures_fromPool (Q := fun _ => True)
    (requireBatch_ensures.mono (fun _ _ => trivial) fun _ _ _ => trivial)).bind fun _ _ _ => ?_
  refine ensures_failIf (fun _ => trivial) fun h => ?_
  simp only [not_or, not_not] at h
  exact h.2.1

/-- What the checks of `recordTarget` establish. -/
structure TargetChecked (s : SpeculativeKv) (result : TargetResult) (round : Round) : Prop where
  phase : s.phase = .round round
  rows : result.rows = inputs round.target
  length : result.choices.length = round.target.rows.length

theorem checkTarget_ensures {result : TargetResult} :
    Ensures (checkTarget result s) (fun _ => True)
      fun _ => ∃ round, TargetChecked s result round := by
  rw [checkTarget]
  split
  · next round hp =>
    refine validateResult_ensures.bind fun _ _ hrows => ?_
    refine (ensures_failIf (Q := fun _ => True) (fun _ => trivial) fun _ => trivial).bind
      fun _ _ _ => ensures_failIf (fun _ => trivial) fun hc => ?_
    simp only [not_or, not_not] at hc
    exact ⟨round, hp, hrows, hc.2.1⟩
  · trivial

/-- **Recording the target's choices.** -/
theorem recordTarget_runs {result : TargetResult} (h : PairInv s) :
    Runs s (recordTarget result)
      (fun _ s' => Done s s' ∧ ∃ round, TargetChecked s result round ∧
        s'.phase = .round { round with targetResult := some result })
      fun _ s' => Failed s s' := by
  rw [recordTarget]
  refine runs_preflight h checkTarget_ensures ?_
  rintro _ ⟨round, hc⟩
  have hround := (phaseInv_round hc.phase).mp h.phase
  rw [← bind_pure (modify _)]
  refine runs_modify (runs_pure ?_)
  simp only [hc.phase]
  refine ⟨⟨⟨h.target, h.draft, ?_⟩, ⟨rfl, rfl, rfl, rfl, rfl⟩, fun ht => ?_⟩, round, hc, rfl⟩
  · exact ⟨hround.valid, hround.anchor, hround.tokens_eq, hround.cursor, hround.target,
      hround.draft⟩
  · simp [hc.phase] at ht

/-- What the checks of `recordDraft` establish: a round goes on, a catch-up is complete. -/
inductive DraftChecked (s : SpeculativeKv) : Option State → Prop
  | round {round : Round} (hp : s.phase = .round round) : DraftChecked s none
  | catchUp {token : Token} {batch : PreparedBatch} {next : State} {q : Sequence}
      (hp : s.phase = .catchUp token batch) (hinv : StateInv s.draft.limits next)
      (hget : next.sequences.get? s.draftSequence.serial = some q)
      (htokens : q.tokens = s.targetTokens) : DraftChecked s (some next)

theorem checkDraft_ensures {result : DraftResult} (h : PairInv s) :
    Ensures (checkDraft result s) (fun _ => True) (DraftChecked s) := by
  rw [checkDraft]
  refine draftPending_ensures.bind ?_
  rintro ⟨batch, catchUp⟩ - hof
  refine validateResult_ensures.bind fun _ _ _ => ?_
  cases hof with
  | round hp => exact ensures_pure.mpr (.round hp)
  | @catchUp token _ hp =>
    obtain ⟨hti, hhold, -⟩ := (phaseInv_catchUp hp).mp h.phase
    obtain ⟨q', hq', htarget⟩ := h.target.get
    simp only [if_true]
    rw [h.target.committedPosition_eq hti.1, fromPool, mapErr, ok_bind]
    refine (prefixState_ensures hhold h.draft).bind fun next _ hprefix => ?_
    obtain ⟨hinv, q, hq, -⟩ := hprefix
    simp only [hq, hq', orPanic, ok_bind]
    refine (ensures_failIf (Q := fun _ => q.tokens = q'.tokens) (fun _ => trivial)
      fun hc => not_not.mp hc).bind fun _ _ heq => ensures_pure.mpr ?_
    exact .catchUp hp hinv hq (heq.trans htarget.symm)

/-- A pool with a new committed state and nothing outstanding. -/
theorem Serves.commit {p : PagedPool} {sequence : SequenceId} {next : State} {q : Sequence}
    (h : Serves p sequence) (hp : p.poisoned = false) (hinv : StateInv p.limits next)
    (hq : next.sequences.get? sequence.serial = some q) :
    Serves { p with state := next, pending := none } sequence ∧
      Idle { p with state := next, pending := none } ∧
      tokensOf { p with state := next, pending := none } sequence = q.tokens :=
  ⟨⟨⟨h.inv.limits, h.inv.capacity_le, hinv, fun _ hpd => by simp at hpd⟩, h.live.1, by simp [hq]⟩,
    ⟨hp, rfl⟩, tokensOf_eq hq⟩

theorem Holding.not_poisoned {p : PagedPool} {sequence : SequenceId} {batch : PreparedBatch}
    {tokens : List Token} (h : Holding p sequence batch tokens) : p.poisoned = false := by
  obtain ⟨pd, ho, -⟩ := h.outstanding
  exact ho.poisoned

/-- **Recording a draft completion.** A completed catch-up makes the pair ready. -/
theorem recordDraft_runs {result : DraftResult} (h : PairInv s) :
    Runs s (recordDraft result) (fun _ s' => Done s s' ∧ Carries s s')
      fun _ s' => Failed s s' := by
  rw [recordDraft]
  refine runs_preflight h (checkDraft_ensures h) ?_
  rintro o hc
  cases hc with
  | @round round hp =>
    have hround := (phaseInv_round hp).mp h.phase
    simp only
    rw [← bind_pure (modify _)]
    refine runs_modify (runs_pure ?_)
    simp only [hp]
    refine ⟨⟨⟨h.target, h.draft, ?_⟩, ⟨rfl, rfl, rfl, rfl, rfl⟩, fun ht => ?_⟩, ?_⟩
    · exact ⟨hround.valid, hround.anchor, hround.tokens_eq, hround.cursor, hround.target,
        hround.draft⟩
    · simp [hp] at ht
    · intro round' result' hp' hr'
      obtain rfl := Phase.round.inj hp'
      exact ⟨round, hp, hr', rfl⟩
  | @catchUp token batch next q hp hinv hget htokens =>
    obtain ⟨hti, hhold, -⟩ := (phaseInv_catchUp hp).mp h.phase
    obtain ⟨hserves, hidle, htok⟩ := Serves.commit h.draft (Holding.not_poisoned hhold) hinv hget
    simp only
    rw [← bind_pure (modify _)]
    refine runs_modify (runs_pure ⟨⟨⟨h.target, hserves, ?_⟩, ⟨rfl, rfl, rfl, rfl, rfl⟩,
      fun ht => ?_⟩, carries_of_ne (by simp)⟩)
    · exact ⟨hti, hidle, htokens.symm.trans htok.symm⟩
    · simp [hp] at ht

/-! ### Settling -/

/-- The checks of recorded proposals index only rows and candidates that exist. -/
theorem validateProposals_ensures {proposals : CompletedProposals} {round : Round}
    (h : RoundInv s round.index round.target round.draft) :
    Ensures (validateProposals proposals s round) (fun _ => True) fun _ => True := by
  have hk := h.valid.count_le
  obtain ⟨ht, -⟩ := indexedRows_eq h.valid.toValid s.targetSequence
  obtain ⟨-, hd⟩ := indexedRows_eq h.valid.toValid s.draftSequence
  rw [validateProposals]
  refine (validateIndex_ensures.mono (fun _ _ => trivial) fun _ _ _ => trivial).bind
    (Q := fun _ => True) fun _ _ _ => ?_
  refine (ensures_failIf (Q := fun _ => proposals.results.length = round.index.draftTokenCount)
    (fun _ => trivial) fun hc => not_not.mp hc).bind fun _ _ hlen => ?_
  rw [ht, hd, ok_bind]
  refine (ensures_failIf (Q := fun _ => True) (fun _ => trivial) fun _ => trivial).bind
    fun _ _ _ => ?_
  rw [ok_bind]
  refine (ensures_failIf (Q := fun _ => True) (fun _ => trivial) fun _ => trivial).bind
    fun _ _ _ => ?_
  refine (ensures_foldlM (d := [])
    (I := fun _ rest _ => ∀ x ∈ rest, x.2 < round.index.draftTokenCount) ?_ ?_).mono
    (fun _ h => h) fun _ _ _ => trivial
  · intro x hx
    rw [List.mem_zipIdx_iff_getElem?] at hx
    have := (List.getElem?_eq_some_iff.mp hx).1
    omega
  · rintro _ ⟨result, ordinal⟩ rest _ hall
    have hlt : ordinal < round.index.draftTokenCount := hall _ List.mem_cons_self
    have hrow : ordinal < round.draft.rows.length := by rwa [h.length_draft]
    refine (ensures_orErr (Q := fun _ => True) (fun _ => trivial) fun _ _ => trivial).bind
      fun _ _ _ => ?_
    refine (ensures_orErr (Q := fun _ => True) (fun _ => trivial) fun _ _ => trivial).bind
      fun _ _ _ => ?_
    refine (ensures_orPanic (Q := fun _ => True) (List.getElem?_eq_getElem hrow) trivial).bind
      fun _ _ _ => validateProposal_ensures.bind fun _ _ _ => ?_
    refine (ensures_orPanic (Q := fun _ => True) (Vector.getElem?_eq_getElem (by omega))
      trivial).bind fun _ _ _ => ensures_failIf (fun _ => trivial) fun _ => ?_
    exact fun x hx => hall x (.tail _ hx)

theorem checkProposals_ensures {round : Round}
    (h : RoundInv s round.index round.target round.draft) :
    Ensures (s.checkProposals round) (fun _ => True) fun _ => True := by
  rw [checkProposals]
  split
  · exact validateProposals_ensures h
  · trivial

theorem settleable_ensures :
    Ensures s.settleable (fun _ => True) fun r => s.phase = .round r.1 ∧
      r.1.targetResult = some r.2 := by
  rw [settleable]
  split
  · next round hp =>
    refine (ensures_orErr (Q := fun result => round.targetResult = some result) (fun _ => trivial)
      fun _ hr => hr).bind fun result _ hr => ?_
    exact (ensures_failIf (Q := fun _ => True) (fun _ => trivial) fun _ => trivial).bind
      fun _ _ _ => ensures_pure.mpr ⟨hp, hr⟩
  · trivial

/-- What a settlement computes from the choices of the target: both pools keep the anchor and the
accepted candidates, as far as their reservations reach. -/
structure Settles (s : SpeculativeKv) (round : Round) (result : TargetResult) (x : Settled) :
    Prop where
  verified : Verified round.index.drafts result.choices x.receipt.commit
  target : StateInv s.target.limits x.target ∧ ∃ q,
    x.target.sequences.get? s.targetSequence.serial = some q ∧ q.tokens =
      s.targetTokens ++ round.index.inputs.take (x.receipt.commit.acceptedDraftTokens + 1)
  draft : StateInv s.draft.limits x.draft ∧ ∃ q,
    x.draft.sequences.get? s.draftSequence.serial = some q ∧ q.tokens =
      s.draftTokens ++ round.index.inputs.take
        (min (x.receipt.commit.acceptedDraftTokens + 1) round.index.draftTokenCount)
  phase : (x.phase = .ready ∧
      x.receipt.commit.acceptedDraftTokens < round.index.draftTokenCount) ∨
    ∃ token, x.phase = .catchUpRequired token ∧
      x.receipt.commit.acceptedDraftTokens = round.index.draftTokenCount ∧
      round.index.inputs[round.index.draftTokenCount]? = some token
  epoch : x.epoch = s.epoch + 1

theorem checkSettle_ensures {round : Round} {result : TargetResult}
    (h : PairInv s) (hp : s.phase = .round round) :
    Ensures (checkSettle round result s) (fun _ => True) (Settles s round result) := by
  have hround := (phaseInv_round hp).mp h.phase
  have hk := hround.valid.count_le
  have hpos := hround.valid.count_pos
  have hlen := hround.valid.length_inputs
  rw [checkSettle]
  refine (checkProposals_ensures hround).bind fun _ _ _ => ?_
  simp only
  rw [if_pos hk, orPanic, ok_bind]
  refine (ensures_mapErr (verifyGreedyRound_ensures.mono (fun _ _ => trivial)
    fun _ _ hv => hv)).bind fun commit _ hv => ?_
  have hv' : Verified round.index.drafts result.choices commit := hv
  have hacc := hv'.accepted_le
  rw [hround.valid.length_drafts] at hacc
  rw [toU8, if_pos (by omega), orErr, ok_bind, hround.valid.targetCommitEnd_eq hacc, orErr,
    ok_bind, hround.valid.draftCommitEnd_eq hacc, orErr, ok_bind]
  refine (prefixState_ensures hround.target h.target).bind fun target _ htarget => ?_
  refine (prefixState_ensures hround.draft h.draft).bind fun draft _ hdraft => ?_
  obtain ⟨htinv, q, hq, htok⟩ := htarget
  obtain ⟨hdinv, q', hq', hdtok⟩ := hdraft
  rw [hq, orPanic, ok_bind, hq', orPanic, ok_bind]
  refine (ensures_failIf (Q := fun _ => True) (fun _ => trivial) fun _ => trivial).bind
    fun _ _ _ => ?_
  have hcursor : round.index.targetPreCommitted = (tokensOf s.target s.targetSequence).length :=
    hround.cursor
  have hcursor' : round.index.targetPreCommitted = (tokensOf s.draft s.draftSequence).length :=
    hround.cursor.trans (congrArg List.length hround.tokens_eq)
  rw [hcursor, Nat.add_assoc, List.take_length_add_append] at htok
  rw [hcursor', List.take_length_add_append, List.take_take] at hdtok
  have hmin : min (min (commit.acceptedDraftTokens + 1) round.index.draftTokenCount)
      round.index.draftTokenCount =
        min (commit.acceptedDraftTokens + 1) round.index.draftTokenCount := by omega
  rw [hmin] at hdtok
  refine Ensures.bind (Q := fun phase : Phase =>
    (phase = .ready ∧ commit.acceptedDraftTokens < round.index.draftTokenCount) ∨
      ∃ token, phase = .catchUpRequired token ∧
        commit.acceptedDraftTokens = round.index.draftTokenCount ∧
        round.index.inputs[round.index.draftTokenCount]? = some token) ?_ fun phase _ hphase => ?_
  · split
    · next heq =>
      have hlast : round.index.draftTokenCount - 1 < 16 := by omega
      rw [checkedSub_of_le hpos]
      simp only [Option.bind_eq_bind, Option.bind_some]
      refine (ensures_orPanic (Q := fun token =>
        round.index.inputs[round.index.draftTokenCount]? = some token)
        (Vector.getElem?_eq_getElem hlast) ?_).bind
          fun token _ htoken => ensures_pure.mpr (.inr ⟨token, rfl, heq, htoken⟩)
      obtain ⟨k, hk'⟩ : ∃ k, round.index.draftTokenCount = k + 1 :=
        ⟨round.index.draftTokenCount - 1, by omega⟩
      simp only [RoundIndex.inputs, RoundIndex.drafts, hk', List.getElem?_cons_succ,
        Nat.add_sub_cancel]
      rw [List.getElem?_take_of_lt (by omega), Vector.getElem?_toList, Vector.getElem?_eq_getElem]
    · next hne => exact ensures_ok.mpr (.inl ⟨rfl, by omega⟩)
  · refine (ensures_orErr (Q := fun n => n = s.epoch + 1) (fun _ => trivial)
      fun n hn => (checkedAdd_eq_some.mp hn).2.symm).bind fun n _ hn => ensures_pure.mpr ?_
    exact ⟨hv', ⟨htinv, q, hq, htok⟩, ⟨hdinv, q', hq', hdtok⟩, hphase, hn⟩

/-- What a settlement leaves. -/
structure SettledInv (s : SpeculativeKv) (receipt : Settlement) (s' : SpeculativeKv) : Prop where
  inv : PairInv s'
  targetSequence : s'.targetSequence = s.targetSequence
  epoch : s'.epoch = s.epoch + 1
  anchor : s'.anchor = receipt.commit.targetCorrectionOrBonus
  round : ∃ round result, s.phase = .round round ∧ round.targetResult = some result ∧
    Verified round.index.drafts result.choices receipt.commit ∧
    s'.targetTokens = s.targetTokens ++
      round.index.inputs.take (receipt.commit.acceptedDraftTokens + 1)
  phase : ∀ round, s'.phase ≠ .round round

/-- **Settlement.** -/
theorem settle_runs (h : PairInv s) :
    Runs s settle (fun receipt s' => SettledInv s receipt s') fun _ s' => Failed s s' := by
  rw [settle]
  refine runs_query (settleable_ensures.mono (fun _ _ => .refl h) fun _ _ hr => hr) ?_
  rintro ⟨round, result⟩ - ⟨hp, hresult⟩
  simp only at hp hresult
  have hround := (phaseInv_round hp).mp h.phase
  have hlen := hround.valid.length_inputs
  refine runs_preflight h (checkSettle_ensures h hp) fun x hx => ?_
  obtain ⟨htinv, q, hq, htok⟩ := hx.target
  obtain ⟨hdinv, q', hq', hdtok⟩ := hx.draft
  obtain ⟨hts, hti, htt⟩ := Serves.commit h.target (Holding.not_poisoned hround.target) htinv hq
  obtain ⟨hds, hdi, hdt⟩ := Serves.commit h.draft (Holding.not_poisoned hround.draft) hdinv hq'
  refine runs_modify (runs_pure ⟨⟨hts, hds, ?_⟩, rfl, hx.epoch, rfl,
    ⟨round, result, hp, hresult, hx.verified, htt.trans htok⟩, ?_⟩)
  · rcases hx.phase with ⟨hphase, hlt⟩ | ⟨token, hphase, heq, htoken⟩
    · refine (phaseInv_ready hphase).mpr ⟨hti, hdi, ?_⟩
      rw [Nat.min_eq_left hlt, ← hround.tokens_eq] at hdtok
      exact (htt.trans htok).trans (hdt.trans hdtok).symm
    · refine (phaseInv_catchUpRequired hphase).mpr ⟨hti, hdi, ?_⟩
      rw [heq, Nat.min_eq_right (Nat.le_succ _), ← hround.tokens_eq] at hdtok
      rw [heq, List.take_add_one, htoken, ← List.append_assoc, ← hdtok] at htok
      exact (htt.trans htok).trans (congrArg (· ++ [token]) hdt.symm)
  · intro round' hp'
    rcases hx.phase with ⟨hphase, -⟩ | ⟨token, hphase, -, -⟩
    · simp [hphase] at hp'
    · simp [hphase] at hp'

/-! ### Catching up, aborting, failing -/

/-- The draft pool is exactly one token behind, so the catch-up is not refused for its cursor. -/
theorem catchUpRow_ensures (h : PairInv s) :
    Ensures s.catchUpRow (· ≠ .binding) fun row => ∃ token, s.phase = .catchUpRequired token ∧
      row = ⟨s.draftSequence, token, s.draftTokens.length⟩ := by
  rw [catchUpRow]
  split
  · next token hp =>
    obtain ⟨hti, hdi, htok⟩ := (phaseInv_catchUpRequired hp).mp h.phase
    obtain ⟨q, hq, htokens⟩ := h.target.get
    obtain ⟨lab, hc⟩ := h.target.inv.state.coherent
    have hle := hc.tokens_le q (BTreeMap.mem_values.mpr ⟨_, hq⟩)
    have hctx := h.target.inv.limits.context_le
    have hlen : (tokensOf s.target s.targetSequence).length =
        (tokensOf s.draft s.draftSequence).length + 1 := by
      have := congrArg List.length htok
      simpa [targetTokens, draftTokens] using this
    have hadd : checkedAdd 32 (tokensOf s.draft s.draftSequence).length 1 =
        some (tokensOf s.target s.targetSequence).length := by
      refine checkedAdd_eq_some.mpr ⟨?_, hlen.symm⟩
      rw [← hlen, htokens]
      omega
    rw [h.draft.committedPosition_eq hdi.1, h.target.committedPosition_eq hti.1, fromPool, mapErr,
      ok_bind, fromPool, mapErr, ok_bind]
    refine (ensures_failIf (Q := fun _ => True) (fun hne => absurd hadd hne)
      fun _ => trivial).bind fun _ _ _ => ensures_pure.mpr ⟨token, hp, rfl⟩
  · exact fun he => by simp at he

/-- **Reserving the catch-up.** -/
theorem reserveDraftCatchUp_runs (h : PairInv s) :
    Runs s reserveDraftCatchUp (fun _ s' => Done s s' ∧ Carries s s')
      fun e s' => Failed s s' ∧ e ≠ .binding := by
  rw [reserveDraftCatchUp]
  refine runs_query ((catchUpRow_ensures h).mono (fun e he => ⟨.refl h, he⟩) fun _ _ hr => hr) ?_
  rintro _ - ⟨token, hp, rfl⟩
  obtain ⟨hti, hdi, htok⟩ := (phaseInv_catchUpRequired hp).mp h.phase
  have hrow : ([⟨s.draftSequence, token, s.draftTokens.length⟩] : List PageRow) =
      rowsAt s.draftSequence (tokensOf s.draft s.draftSequence).length [token] := rfl
  rw [hrow]
  refine runs_attempt (g := SpeculativeKv.draft) h.draft.reserve
    (fun batch d _ ⟨_, hserves, hhold, hstate, _, _⟩ => ?_) fun e _ _ => ?_
  · refine runs_orThrow (fun b hb => ?_) fun e he => by simp at he
    obtain rfl := Except.ok.inj hb
    refine runs_modify (runs_pure ⟨⟨⟨h.target, hserves, ?_⟩, ⟨rfl, rfl, rfl, rfl, rfl⟩,
      fun ht => ?_⟩, carries_of_ne (by simp)⟩)
    · refine ⟨hti, hhold, ?_⟩
      have hd : tokensOf d s.draftSequence = s.draftTokens := by
        simp only [draftTokens, tokensOf]
        rw [hstate]
      exact htok.trans (congrArg (· ++ [token]) hd.symm)
    · simp [hp] at ht
  · exact runs_orThrow (fun b hb => by simp at hb) fun _ _ => ⟨.refl h, by simp⟩

theorem requireBatch_runs {p : SpeculativeKv → PagedPool} {batch : PreparedBatch}
    {f : Unit → PairM Unit} {P : Unit → SpeculativeKv → Prop} (h : PairInv s)
    (hok : Runs s (f ()) P fun _ s' => Failed s s') :
    Runs s (query (fun s => fromPool ((p s).requireBatch batch)) >>= f) P
      fun _ s' => Failed s s' :=
  runs_query (R := fun _ => True) (ensures_fromPool
    (requireBatch_ensures.mono (fun _ _ => .refl h) fun _ _ _ => trivial)) fun _ _ _ => hok

/-- Abandoning both reservations makes the pair ready again. -/
theorem abortPair_runs {index : RoundIndex} {target draft : PreparedBatch} (h : PairInv s)
    (hround : RoundInv s index target draft) (hp : s.phase ≠ .terminal) :
    Runs s (abortPair target draft) (fun _ s' => Done s s' ∧ Carries s s')
      fun _ s' => Failed s s' := by
  obtain ⟨htinv, hti⟩ := hround.target.release h.target.inv
  obtain ⟨hdinv, hdi⟩ := hround.draft.release h.draft.inv
  rw [abortPair]
  refine requireBatch_runs (p := SpeculativeKv.target) h
    (requireBatch_runs (p := SpeculativeKv.draft) h ?_)
  rw [← bind_pure (modify _)]
  refine runs_modify (runs_pure ⟨⟨⟨h.target.congr htinv rfl rfl, h.draft.congr hdinv rfl rfl, ?_⟩,
    ⟨rfl, rfl, rfl, rfl, rfl⟩, fun ht => absurd ht hp⟩, carries_of_ne (by simp)⟩)
  exact ⟨hti, hdi, hround.tokens_eq⟩

/-- **Aborting.** -/
theorem abortUnsubmitted_runs (h : PairInv s) :
    Runs s abortUnsubmitted (fun _ s' => Done s s' ∧ Carries s s') fun _ s' => Failed s s' := by
  rw [abortUnsubmitted]
  refine runs_get (runs_failIf (fun _ => .refl h) fun _ => ?_)
  split
  · next round hp =>
    exact abortPair_runs h ((phaseInv_proposing hp).mp h.phase).1 (by simp [hp])
  · next round hp => exact abortPair_runs h ((phaseInv_round hp).mp h.phase) (by simp [hp])
  · next token batch hp =>
    obtain ⟨hti, hhold, htok⟩ := (phaseInv_catchUp hp).mp h.phase
    obtain ⟨hinv, hidle⟩ := hhold.release h.draft.inv
    refine requireBatch_runs (p := SpeculativeKv.draft) h ?_
    rw [← bind_pure (modify _)]
    refine runs_modify (runs_pure ⟨⟨⟨h.target, h.draft.congr hinv rfl rfl, ?_⟩,
      ⟨rfl, rfl, rfl, rfl, rfl⟩, fun ht => ?_⟩, carries_of_ne (by simp)⟩)
    · exact ⟨hti, hidle, htok⟩
    · simp [hp] at ht
  · exact runs_fail (.refl h)

/-- **Failing.** Submitted work is terminalized, and nothing else fails. -/
theorem failSubmitted_runs (h : PairInv s) :
    Runs s failSubmitted (fun _ s' => Done s s' ∧ Carries s s') fun _ s' => Failed s s' := by
  rw [failSubmitted]
  refine runs_get (runs_failIf (fun _ => .refl h) fun hs => ?_)
  rw [← bind_pure (modify _)]
  have hf := terminalize_failed h
  refine runs_modify (runs_pure ⟨⟨hf.inv, hf.frame, fun ht => ?_⟩, hf.carries⟩)
  rcases hf.phase with he | he
  · exact he.trans ht
  · exact he

end SpeculativeKv

end TpSpeculative

end Ferric
