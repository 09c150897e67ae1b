import Ferric.TpSpeculative.Phases

/-!
# Proposing candidates

A round may be reserved before its candidates are known. The reservations then carry placeholders,
and each choice of the draft model replaces one of them: in the index, in the rows of both batches
and in the proposed states of both pools. Between two choices the four agree.

## Main results

* `proposalIndex_ensures` — the index of a ready pair is never refused for unequal cursors
* `reserveProposals_runs`, `proposalWork_runs`, `recordProposal_runs`
-/

namespace Ferric

namespace TpSpeculative

open TpPaged TpPaged.PagedPool Ferric.Action

open Spec hiding Token

namespace SpeculativeKv

variable {s s' : SpeculativeKv}

/-! ### Reserving with placeholders -/

theorem bucketK_le {bucket : PlanBucket} {k : ℕ} (h : bucketK bucket = some k) : k ≤ 16 := by
  cases bucket <;> simp [bucketK] at h <;> omega

theorem commitEnds_ensures {cursor k : ℕ} :
    Ensures (commitEnds cursor k) (· ≠ .binding) fun _ => True := by
  refine (ensures_foldlM (d := []) (I := fun _ _ _ => True) trivial ?_).mono (fun _ h => h)
    fun _ _ _ => trivial
  intro _ accepted _ ends _
  refine (ensures_orErr (Q := fun _ => True) (fun _ => by decide) fun _ _ => trivial).bind
    fun _ _ _ => ?_
  exact (ensures_orErr (Q := fun _ => True) (fun _ => by decide) fun _ _ => trivial).bind
    fun _ _ _ => ensures_pure.mpr trivial

/-- **No stale cursor.** In a ready pair both cursors are equal, so the index is not refused for
them. -/
theorem proposalIndex_ensures (h : PairInv s) (hp : s.phase = .ready) :
    Ensures s.proposalIndex (· ≠ .binding) fun index => RoundReady s index := by
  obtain ⟨hti, hdi, htok⟩ := (phaseInv_ready hp).mp h.phase
  rw [proposalIndex]
  refine (ensures_orErr (Q := fun k => k ≤ 16) (fun _ => by decide)
    fun k hk => bucketK_le hk).bind fun k _ hk => ?_
  rw [h.target.committedPosition_eq hti.1, h.draft.committedPosition_eq hdi.1, fromPool, mapErr,
    ok_bind, fromPool, mapErr, ok_bind]
  refine (ensures_failIf (Q := fun _ => True) (fun hne => ?_) fun _ => trivial).bind
    fun _ _ _ => ?_
  · exact absurd (congrArg List.length htok.symm) hne
  refine commitEnds_ensures.bind fun ends _ _ => ?_
  refine (ensures_orPanic (Q := fun _ => True) (Vector.getElem?_eq_getElem (by omega))
    trivial).bind fun targetEnd _ _ => ?_
  refine (ensures_orPanic (Q := fun _ => True) (Vector.getElem?_eq_getElem (by omega))
    trivial).bind fun draftEnd _ _ => ?_
  refine (validateIndex_ensures.mono (fun e he => by simp [he]) fun _ _ hv => hv).bind
    fun _ _ hv => ensures_pure.mpr ⟨hp, hv, rfl, rfl⟩

theorem proposalPlan_ensures (h : PairInv s) :
    Ensures s.proposalPlan (· ≠ .binding) fun plan => RoundReady s plan.index ∧
      plan.targetRows = rowsAt s.targetSequence s.targetTokens.length plan.index.inputs ∧
      plan.draftRows = rowsAt s.draftSequence s.draftTokens.length
        (plan.index.inputs.take plan.index.draftTokenCount) := by
  rw [proposalPlan]
  refine (ensures_failIf (Q := fun _ => s.phase = .ready) (fun _ => by decide)
    fun hp => not_not.mp hp).bind fun _ _ hp => ?_
  refine (proposalIndex_ensures h hp).bind fun index _ hready => ?_
  refine (ensures_orErr (Q := fun _ => True) (fun _ => by decide) fun _ _ => trivial).bind
    fun _ _ _ => ?_
  refine (ensures_orErr (Q := fun _ => True) (fun _ => by decide) fun _ _ => trivial).bind
    fun _ _ _ => ?_
  obtain ⟨ht, hd⟩ := hready.rows h
  rw [ht, hd, ok_bind, ok_bind]
  exact ensures_pure.mpr ⟨hready, rfl, rfl⟩

/-- A later batch number changes nothing that matters. -/
theorem Holding.renumber {p : PagedPool} {sequence : SequenceId} {batch : PreparedBatch}
    {tokens : List Token} (h : Holding p sequence batch tokens) (next : ℕ) :
    Holding { p with nextBatch := next } sequence batch tokens :=
  h.congr rfl rfl rfl rfl rfl fun pd hpd => ⟨pd.submitted, hpd⟩

/-- **Reserving with placeholders.** -/
theorem reserveProposals_runs (h : PairInv s) :
    Runs s reserveProposals (fun _ s' => Done s s' ∧ Carries s s')
      fun e s' => Failed s s' ∧ e ≠ .binding := by
  rw [reserveProposals]
  refine runs_query ((proposalPlan_ensures h).mono (fun e he => ⟨.refl h, he⟩) fun _ _ hr => hr) ?_
  rintro plan - ⟨hready, htr, hdr⟩
  rw [htr, hdr]
  refine (reservePair_runs h hready.ready).bind ?_
  rintro ⟨target, draft⟩ s₁ - hres
  have hround := hres.roundInv hready h
  refine runs_modify (runs_pure ⟨⟨⟨?_, ?_, ?_⟩, ?_, fun ht => ?_⟩, carries_of_ne (by simp)⟩)
  · rw [hres.eq]
    exact hres.servesTarget
  · rw [hres.eq]
    exact hres.servesDraft.congr
      (hres.servesDraft.inv.keep rfl rfl rfl rfl fun pd hpd => ⟨pd, hpd, rfl⟩) rfl rfl
  · exact ⟨⟨hround.valid, hround.anchor, hround.tokens_eq, hround.cursor, hround.target,
      Holding.renumber hround.draft _⟩, hround.valid.count_pos⟩
  · rw [hres.eq]
    exact ⟨rfl, rfl, rfl, rfl, hres.targetState⟩
  · simp [hready.ready] at ht

/-! ### One row of the draft model -/

theorem nextProposal_ensures :
    Ensures s.nextProposal (fun _ => True) fun r => s.phase = .proposing r.1 ∧
      r.2.ordinal = r.1.results.length := by
  rw [nextProposal]
  split
  · next round hp =>
    refine (ensures_failIf (Q := fun _ => True) (fun _ => trivial) fun _ => trivial).bind
      fun _ _ _ => ?_
    refine (ensures_fromPool (Q := fun _ => True)
      (requireBatch_ensures.mono (fun _ _ => trivial) fun _ _ _ => trivial)).bind fun _ _ _ => ?_
    refine (ensures_fromPool (Q := fun _ => True)
      (requireBatch_ensures.mono (fun _ _ => trivial) fun _ _ _ => trivial)).bind fun _ _ _ => ?_
    refine (ensures_orErr (Q := fun n => n = round.results.length) (fun _ => trivial)
      fun n hn => ?_).bind fun n _ hn => ?_
    · rw [toU8] at hn
      split at hn
      · exact (Option.some.inj hn).symm
      · simp at hn
    · exact (ensures_orErr (Q := fun _ => True) (fun _ => trivial) fun _ _ => trivial).bind
        fun _ _ _ => ensures_pure.mpr ⟨hp, hn⟩
  · trivial

/-- A pair whose draft pool is only marked, and whose round is otherwise the same. -/
theorem RoundInv.congr {index : RoundIndex} {target draft : PreparedBatch}
    (h : RoundInv s index target draft) (hframe : Frame s s')
    (hids : s'.request = s.request ∧ s'.plan = s.plan ∧
      s'.targetSelection = s.targetSelection ∧ s'.draftSelection = s.draftSelection)
    (hd : s'.draft.state = s.draft.state)
    (htarget : Holding s'.target s.targetSequence target index.inputs)
    (hdraft : Holding s'.draft s.draftSequence draft (index.inputs.take index.draftTokenCount)) :
    RoundInv s' index target draft := by
  obtain ⟨hreq, hplan, hts, hds⟩ := hids
  have ht : s'.targetTokens = s.targetTokens := by
    rw [targetTokens, tokensOf, hframe.target, hframe.targetSequence]
    rfl
  have hd' : s'.draftTokens = s.draftTokens := by
    rw [draftTokens, tokensOf, hd, hframe.draftSequence]
    rfl
  refine ⟨?_, hframe.anchor ▸ h.anchor, by rw [ht, hd', h.tokens_eq], by rw [ht, h.cursor],
    hframe.targetSequence.symm ▸ htarget, hframe.draftSequence.symm ▸ hdraft⟩
  rw [hreq, hframe.epoch, hplan, hts, hds]
  exact h.valid

/-- The draft reservation is submitted when the first row is handed out. -/
theorem beginProposal_runs {round : ProposalRound} {ordinal : ℕ} (h : PairInv s)
    (hp : s.phase = .proposing round) :
    Runs s (beginProposal round.draft ordinal)
      (fun _ s' => s'.phase = s.phase ∧ s'.target = s.target ∧ Done s s')
      fun _ s' => Failed s s' := by
  obtain ⟨hround, hlt⟩ := (phaseInv_proposing hp).mp h.phase
  rw [beginProposal]
  split
  · refine runs_attempt (g := SpeculativeKv.draft)
      (ensures_noReply (hround.draft.begin h.draft.inv))
      (fun u d _ ⟨hinv, hhold, hstate, hid⟩ => ?_) fun e _ _ => ?_
    · rw [← bind_pure (orThrow SpeculativeError.pool _)]
      refine runs_orThrow (fun _ _ => runs_pure ⟨rfl, rfl, ?_⟩) fun e he => by simp at he
      have hframe : Frame s (putDraft d s) := ⟨rfl, rfl, rfl, rfl, rfl⟩
      refine ⟨⟨h.target, h.draft.congr hinv hid hstate, ?_⟩, hframe, fun ht => ?_⟩
      · refine (phaseInv_proposing ?_).mpr ⟨?_, hlt⟩
        · exact hp
        · exact hround.congr hframe ⟨rfl, rfl, rfl, rfl⟩ hstate hround.target hhold
      · simp [hp] at ht
    · rw [← bind_pure (orThrow SpeculativeError.pool _)]
      exact runs_orThrow (fun _ ha => by simp at ha) fun _ _ => .refl h
  · refine runs_get ?_
    split
    · exact runs_modify (runs_fail (terminalize_failed h))
    · exact runs_pure ⟨rfl, rfl, h, .refl, fun ht => ht⟩

/-- **One row.** -/
theorem proposalWork_runs (h : PairInv s) :
    Runs s proposalWork (fun _ s' => Done s s' ∧ Carries s s') fun _ s' => Failed s s' := by
  rw [proposalWork]
  refine runs_query (nextProposal_ensures.mono (fun _ _ => .refl h) fun _ _ hr => hr) ?_
  rintro ⟨round, identity⟩ - ⟨hp, hordinal⟩
  simp only at hp hordinal
  obtain ⟨hround, hlt⟩ := (phaseInv_proposing hp).mp h.phase
  refine (beginProposal_runs h hp).bind ?_
  rintro _ s₁ - ⟨hphase, -, hdone⟩
  obtain ⟨hround₁, -⟩ := (phaseInv_proposing (hphase.trans hp)).mp hdone.inv.phase
  have hrow : identity.ordinal < round.draft.rows.length := by
    rw [hround.length_draft, hordinal]
    exact hlt
  refine runs_query (ensures_orPanic (Q := fun _ => True) (List.getElem?_eq_getElem hrow) trivial)
    fun row _ _ => ?_
  refine runs_modify (runs_pure ⟨⟨⟨hdone.inv.target, hdone.inv.draft, ?_⟩, ?_, fun ht => ?_⟩,
    carries_of_ne (by simp)⟩)
  · exact ⟨⟨hround₁.valid, hround₁.anchor, hround₁.tokens_eq, hround₁.cursor, hround₁.target,
      hround₁.draft⟩, hlt⟩
  · exact ⟨hdone.frame.targetSequence, hdone.frame.draftSequence, hdone.frame.epoch,
      hdone.frame.anchor, hdone.frame.target⟩
  · simp [hp] at ht

/-! ### Recording a choice -/

/-- The index with a candidate written into it. -/
theorem patchIndex_eq (index : RoundIndex) {ordinal : ℕ} (h : ordinal < 16) (choice : Token) :
    ∃ index', patchIndex index ordinal choice = .ok index' ∧
      index'.inputs = index.inputs.set (ordinal + 1) choice ∧
      index'.draftTokenCount = index.draftTokenCount ∧
      index'.roundAnchor = index.roundAnchor ∧
      index'.targetPreCommitted = index.targetPreCommitted := by
  refine ⟨{ index with draftTokens := index.draftTokens.set ordinal choice }, ?_, ?_, rfl, rfl, rfl⟩
  · rw [patchIndex, dif_pos h]
    rfl
  · simp only [RoundIndex.inputs, RoundIndex.drafts, List.set_cons_succ, List.cons.injEq, true_and]
    rw [Vector.toList_set, List.take_set]

/-- Pools, rows and index of a round, with the next candidate written into all of them. -/
structure Patched (s : SpeculativeKv) (round : ProposalRound) (choice : Token)
    (targetState draftState : State) (index : RoundIndex) : Prop where
  phase : s.phase = .proposing round
  valid : index.ValidFor s.request s.epoch s.plan s.targetSelection s.draftSelection
  anchor : index.roundAnchor = s.anchor
  cursor : index.targetPreCommitted = s.targetTokens.length
  count : index.draftTokenCount = round.index.draftTokenCount
  target : ∃ pd rows, s.target.pending = some pd ∧
    patchRow round.target.rows (round.results.length + 1) choice = .ok rows ∧
    PoolInv { s.target with pending := some { pd with proposed := targetState } } ∧
    Holding { s.target with pending := some { pd with proposed := targetState } }
      s.targetSequence { round.target with rows } index.inputs
  draft : ∃ pd rows, s.draft.pending = some pd ∧
    (if round.results.length + 1 < round.draft.rows.length then
      patchRow round.draft.rows (round.results.length + 1) choice
      else .ok round.draft.rows) = .ok rows ∧
    PoolInv { s.draft with pending := some { pd with proposed := draftState } } ∧
    Holding { s.draft with pending := some { pd with proposed := draftState } }
      s.draftSequence { round.draft with rows } (index.inputs.take index.draftTokenCount)

theorem validateProposal_ensures {result : ProposalResult} {round : WorkIdentity}
    {ordinal batch : ℕ} {input : PageRow} :
    Ensures (validateProposal result round ordinal batch input) (fun _ => True) fun _ => True := by
  rw [validateProposal]
  exact (ensures_failIf (Q := fun _ => True) (fun _ => trivial) fun _ => trivial).bind
    fun _ _ _ => ensures_failIf (fun _ => trivial) fun _ => trivial

/-- The state proposed by a sound pool passes the pool's check. -/
theorem validate_proposed {p : PagedPool} {pd : Pending} {next : State}
    (h : PoolInv { p with pending := some { pd with proposed := next } }) :
    fromPool (validateState next p.limits) = .ok () := by
  obtain ⟨prepared, hm⟩ := h.pending _ rfl
  have hv : validateState next p.limits = .ok () := validateState_of_inv hm.reserved.inv
  rw [hv]
  rfl

/-- **Recording a choice**, up to the writes: nothing panics, and what is written agrees. -/
theorem preflightProposal_ensures {result : ProposalResult} (h : PairInv s) :
    Ensures (preflightProposal result s) (fun _ => True) fun r =>
      ∃ round, Patched s round result.choice r.1 r.2.1 r.2.2 := by
  have batch : ∀ {p : PagedPool} {b : PreparedBatch},
      Ensures (fromPool (p.requireBatch b)) (fun _ => True) fun _ => True := fun {p b} =>
    ensures_fromPool (requireBatch_ensures.mono (fun _ _ => trivial) fun _ _ _ => trivial)
  have check : ∀ {p : PagedPool}, p.PoolInv →
      Ensures (fromPool p.checkInvariants) (fun _ => True) fun _ => True := fun {p} hp =>
    ensures_fromPool ((checkInvariants_ensures hp).mono (fun _ _ => trivial) fun _ _ _ => trivial)
  have skip : ∀ {c : Prop} [Decidable c] {e : SpeculativeError},
      Ensures (failIf c e) (fun _ => True) fun _ => True :=
    fun {c} _ {e} => ensures_failIf (fun _ => trivial) fun _ => trivial
  have get : ∀ {e : SpeculativeError} {α : Type} {o : Option α},
      Ensures (orErr e o) (fun _ => True) fun _ => True :=
    fun {e α o} => ensures_orErr (fun _ => trivial) fun _ _ => trivial
  rw [preflightProposal]
  split
  · next round hp =>
    obtain ⟨hround, hlt⟩ := (phaseInv_proposing hp).mp h.phase
    have hk := hround.valid.count_le
    have hlen := hround.valid.length_inputs
    have hrow : round.results.length < round.draft.rows.length := by
      rw [hround.length_draft]
      exact hlt
    obtain ⟨td, hto, -⟩ := hround.target.outstanding
    obtain ⟨dd, hdo, -⟩ := hround.draft.outstanding
    -- The candidate, written into the target's reservation, the draft's and the index.
    obtain ⟨ts, trows, htpatch, htrows, htinv, hthold⟩ := hround.target.patch
      result.choice h.target hto.pending (by omega : round.results.length + 1 < _)
    obtain ⟨ds, drows, hdpatch, hdrows, hdinv, hdhold⟩ := hround.draft.patchIf
      result.choice h.draft hdo.pending (round.results.length + 1)
    obtain ⟨index, hindex, hinputs, hcount, hanchor, hcursor⟩ :=
      patchIndex_eq round.index (by omega : round.results.length < 16) result.choice
    have hdlen : (round.index.inputs.take round.index.draftTokenCount).length =
        round.index.draftTokenCount := by
      rw [List.length_take]
      omega
    have htpos : round.index.targetPreCommitted + round.results.length + 1 =
        (tokensOf s.target s.targetSequence).length + (round.results.length + 1) := by
      rw [hround.cursor, Nat.add_assoc]
      rfl
    have hdpos : (tokensOf s.draft s.draftSequence).length =
        (tokensOf s.target s.targetSequence).length := congrArg List.length hround.tokens_eq.symm
    rw [hdpos, hdlen] at hdpatch
    rw [← hinputs] at hthold
    rw [← List.take_set, ← hinputs, ← hcount] at hdhold
    refine batch.bind fun _ _ _ => batch.bind fun _ _ _ => ?_
    refine (check h.target.inv).bind fun _ _ _ => (check h.draft.inv).bind fun _ _ _ => ?_
    refine get.bind fun active _ _ => skip.bind fun _ _ _ => get.bind fun ordinal _ _ => ?_
    refine (ensures_orPanic (Q := fun _ => True) (List.getElem?_eq_getElem hrow) trivial).bind
      fun row _ _ => validateProposal_ensures.bind fun _ _ _ => ?_
    refine skip.bind fun _ _ _ => get.bind fun _ _ _ => skip.bind fun _ _ _ => ?_
    simp only [hto.pending, hdo.pending, orErr, ok_bind, htpos, htpatch, hdpatch, hindex]
    refine (validateIndex_ensures.mono (fun _ _ => trivial) fun _ _ hv => hv).bind
      fun _ _ hv => ?_
    rw [validate_proposed htinv, validate_proposed hdinv, ok_bind, ok_bind]
    exact ensures_pure.mpr ⟨round, hp, hv, hanchor.trans hround.anchor, hcursor.trans hround.cursor,
      hcount, ⟨td, trows, hto.pending, htrows, htinv, hthold⟩,
      ⟨dd, drows, hdo.pending, hdrows, hdinv, hdhold⟩⟩
  · trivial

/-- **Recording a choice.** -/
theorem recordProposal_runs {result : ProposalResult} (h : PairInv s) :
    Runs s (recordProposal result) (fun _ s' => Done s s' ∧ Carries s s')
      fun _ s' => Failed s s' := by
  rw [recordProposal]
  refine runs_preflight h (preflightProposal_ensures h) ?_
  rintro ⟨ts, ds, index⟩ ⟨round, hpatch⟩
  obtain ⟨td, trows, htd, htrows, htinv, hthold⟩ := hpatch.target
  obtain ⟨dd, drows, hdd, hdrows, hdinv, hdhold⟩ := hpatch.draft
  obtain ⟨hround, hlt⟩ := (phaseInv_proposing hpatch.phase).mp h.phase
  refine runs_get ?_
  simp only [htd, hdd, hpatch.phase]
  -- The written round, before it is decided whether it is complete.
  have hnew : ∀ phase, RoundInv { s with
      target := { s.target with pending := some { td with proposed := ts } }
      draft := { s.draft with pending := some { dd with proposed := ds } }
      phase } index { round.target with rows := trows } { round.draft with rows := drows } :=
    fun phase => ⟨hpatch.valid, hpatch.anchor, hround.tokens_eq, hpatch.cursor, hthold, hdhold⟩
  have hresolve : Ensures (resolveProposal round result index) (fun _ => False) fun phase =>
      phase = if round.results.length + 1 = index.draftTokenCount then
        .round
          { index
            target := { round.target with rows := trows }
            draft := { round.draft with rows := drows }
            targetResult := none
            draftResult := none
            proposalResults := some
              { firstBatch := round.firstBatch, results := round.results ++ [result] } }
      else .proposing { round with
        target := { round.target with rows := trows }
        draft := { round.draft with rows := drows }
        index
        results := round.results ++ [result]
        active := none } := by
    rw [resolveProposal]
    simp only [htrows, hdrows, ok_bind, List.length_append, List.length_singleton]
    split
    · exact ensures_pure.mpr rfl
    · exact ensures_pure.mpr rfl
  refine runs_query (hresolve.mono (fun _ hf => hf.elim) fun _ _ hr => hr) ?_
  rintro phase - hphase
  refine runs_modify (runs_pure ⟨⟨⟨?_, ?_, ?_⟩, ⟨rfl, rfl, rfl, rfl, rfl⟩, fun ht => ?_⟩, ?_⟩)
  · exact h.target.congr htinv rfl rfl
  · exact h.draft.congr hdinv rfl rfl
  · split at hphase
    · exact (phaseInv_round hphase).mpr (hnew phase)
    · refine (phaseInv_proposing hphase).mpr ⟨hnew phase, ?_⟩
      have : index.draftTokenCount = _ := hpatch.count
      simp only [List.length_append, List.length_singleton]
      omega
  · simp [hpatch.phase] at ht
  · intro round' result' hp' hr'
    simp only at hp'
    split at hphase
    · obtain rfl := Phase.round.inj (hphase.symm.trans hp')
      simp at hr'
    · simp [hphase] at hp'

end SpeculativeKv

end TpSpeculative

end Ferric
