import Ferric.TpSpeculative.Reservation

/-!
# Phases of the pair

The invariant of the pair, one clause for each phase, and the contract of the call that opens a
round with known candidates.

Every contract has the same two exits. A call that succeeds keeps the invariant and what `Frame`
lists; a call that fails leaves committed states, epoch, anchor and phase as they were, or ends in
the terminal phase.

## Main definitions

* `RoundInv`, `PhaseInv`, `PairInv`
* `Frame`, `Carries`, `Done`, `Failed`

## Main results

* `reservePair_runs`, `reserveRound_runs`
-/

namespace Ferric

namespace TpSpeculative

open TpPaged TpPaged.PagedPool Ferric.Action

open Spec hiding Token

namespace SpeculativeKv

/-- The target's committed tokens. -/
def targetTokens (s : SpeculativeKv) : List Token := tokensOf s.target s.targetSequence

/-- The draft model's committed tokens. -/
def draftTokens (s : SpeculativeKv) : List Token := tokensOf s.draft s.draftSequence

/-- Both pools hold the reservation of the round that the index describes. -/
structure RoundInv (s : SpeculativeKv) (index : RoundIndex) (target draft : PreparedBatch) :
    Prop where
  valid : index.ValidFor s.request s.epoch s.plan s.targetSelection s.draftSelection
  anchor : index.roundAnchor = s.anchor
  tokens_eq : s.targetTokens = s.draftTokens
  cursor : index.targetPreCommitted = s.targetTokens.length
  target : Holding s.target s.targetSequence target index.inputs
  draft : Holding s.draft s.draftSequence draft (index.inputs.take index.draftTokenCount)

/-- What each phase says about the two pools. -/
def PhaseInv (s : SpeculativeKv) : Prop :=
  match s.phase with
  | .ready => s.target.Idle ∧ s.draft.Idle ∧ s.targetTokens = s.draftTokens
  | .proposing round => RoundInv s round.index round.target round.draft ∧
      round.results.length < round.index.draftTokenCount
  | .round round => RoundInv s round.index round.target round.draft
  | .catchUpRequired token =>
      s.target.Idle ∧ s.draft.Idle ∧ s.targetTokens = s.draftTokens ++ [token]
  | .catchUp token batch =>
      s.target.Idle ∧ Holding s.draft s.draftSequence batch [token] ∧
        s.targetTokens = s.draftTokens ++ [token]
  | .terminal => s.target.poisoned = true ∧ s.draft.poisoned = true

/-- The invariant of the pair. -/
structure PairInv (s : SpeculativeKv) : Prop where
  target : Serves s.target s.targetSequence
  draft : Serves s.draft s.draftSequence
  phase : PhaseInv s

/-- What every call but a settlement keeps. -/
structure Frame (s s' : SpeculativeKv) : Prop where
  targetSequence : s'.targetSequence = s.targetSequence
  draftSequence : s'.draftSequence = s.draftSequence
  epoch : s'.epoch = s.epoch
  anchor : s'.anchor = s.anchor
  target : s'.target.state = s.target.state

/-- A target result in hand was in hand before, for the same round. -/
def Carries (s s' : SpeculativeKv) : Prop :=
  ∀ round' result, s'.phase = .round round' → round'.targetResult = some result →
    ∃ round, s.phase = .round round ∧ round.targetResult = some result ∧
      round'.index = round.index

/-- The exit of a call that succeeds. -/
structure Done (s s' : SpeculativeKv) : Prop where
  inv : PairInv s'
  frame : Frame s s'
  terminal : s.phase = .terminal → s'.phase = .terminal

/-- The exit of a call that fails. -/
structure Failed (s s' : SpeculativeKv) : Prop where
  inv : PairInv s'
  frame : Frame s s'
  draft : s'.draft.state = s.draft.state
  phase : s'.phase = s.phase ∨ s'.phase = .terminal

variable {s s' : SpeculativeKv}

theorem Frame.refl : Frame s s := ⟨rfl, rfl, rfl, rfl, rfl⟩

theorem Failed.refl (h : PairInv s) : Failed s s := ⟨h, .refl, rfl, .inl rfl⟩

theorem Failed.carries (h : Failed s s') : Carries s s' := by
  intro round' result hp hr
  rcases h.phase with he | he
  · exact ⟨round', he ▸ hp, hr, rfl⟩
  · simp [he] at hp

theorem carries_of_ne (h : ∀ round, s'.phase ≠ .round round) : Carries s s' :=
  fun round' _ hp => absurd hp (h round')

/-- Terminalizing is a way to fail. -/
theorem terminalize_failed (h : PairInv s) : Failed s s.terminalizeIfSubmitted := by
  rw [terminalizeIfSubmitted]
  split
  · exact ⟨⟨h.target.poison, h.draft.poison, rfl, rfl⟩, ⟨rfl, rfl, rfl, rfl, rfl⟩, rfl, .inr rfl⟩
  · exact .refl h

/-- A check that fails terminalizes submitted work. -/
theorem runs_preflight {α β : Type} {check : SpeculativeKv → Outcome SpeculativeError α}
    {f : α → PairM β} {P : β → SpeculativeKv → Prop} {R : α → Prop} (h : PairInv s)
    (hc : Ensures (check s) (fun _ => True) R)
    (hok : ∀ a, R a → Runs s (f a) P fun _ s' => Failed s s') :
    Runs s (preflight check >>= f) P fun _ s' => Failed s s' := by
  refine (runs_handle (Q := fun a s' => s' = s ∧ R a) (F := fun _ s' => s' = s) ?_ ?_).bind ?_
  · rw [← bind_pure (query check)]
    exact runs_query (hc.mono (fun _ _ => rfl) fun _ _ hr => hr) fun a _ hr => runs_pure ⟨rfl, hr⟩
  · rintro e s' - rfl
    exact runs_modify (runs_fail (terminalize_failed h))
  · rintro a s' - ⟨rfl, hr⟩
    exact hok a hr

/-! ### Reading the invariant -/

theorem phaseInv_ready (hp : s.phase = .ready) :
    PhaseInv s ↔ s.target.Idle ∧ s.draft.Idle ∧ s.targetTokens = s.draftTokens := by
  rw [PhaseInv, hp]

theorem phaseInv_proposing {round : ProposalRound} (hp : s.phase = .proposing round) :
    PhaseInv s ↔ RoundInv s round.index round.target round.draft ∧
      round.results.length < round.index.draftTokenCount := by
  rw [PhaseInv, hp]

theorem phaseInv_round {round : Round} (hp : s.phase = .round round) :
    PhaseInv s ↔ RoundInv s round.index round.target round.draft := by
  rw [PhaseInv, hp]

theorem phaseInv_catchUpRequired {token : Token} (hp : s.phase = .catchUpRequired token) :
    PhaseInv s ↔ s.target.Idle ∧ s.draft.Idle ∧ s.targetTokens = s.draftTokens ++ [token] := by
  rw [PhaseInv, hp]

theorem phaseInv_catchUp {token : Token} {batch : PreparedBatch}
    (hp : s.phase = .catchUp token batch) :
    PhaseInv s ↔ s.target.Idle ∧ Holding s.draft s.draftSequence batch [token] ∧
      s.targetTokens = s.draftTokens ++ [token] := by
  rw [PhaseInv, hp]

theorem phaseInv_terminal (hp : s.phase = .terminal) :
    PhaseInv s ↔ s.target.poisoned = true ∧ s.draft.poisoned = true := by
  rw [PhaseInv, hp]

theorem RoundInv.length_draft {index : RoundIndex} {target draft : PreparedBatch}
    (h : RoundInv s index target draft) : draft.rows.length = index.draftTokenCount := by
  rw [h.draft.length_rows, List.length_take, h.valid.length_inputs]
  omega

/-! ### Reserving -/

/-- Both pools hold a reservation, and nothing else has changed. -/
structure Reserving (s s' : SpeculativeKv) (target draft : PreparedBatch)
    (targetTokens draftTokens : List Token) : Prop where
  eq : s' = { s with target := s'.target, draft := s'.draft }
  servesTarget : Serves s'.target s.targetSequence
  servesDraft : Serves s'.draft s.draftSequence
  holdTarget : Holding s'.target s.targetSequence target targetTokens
  holdDraft : Holding s'.draft s.draftSequence draft draftTokens
  targetState : s'.target.state = s.target.state
  draftState : s'.draft.state = s.draft.state

/-- **Both or neither.** A draft pool that cannot reserve makes the target pool give up its
reservation. -/
theorem reservePair_runs (h : PairInv s) (hp : s.phase = .ready) {ts ds : List Token} :
    Runs s (reservePair (rowsAt s.targetSequence s.targetTokens.length ts)
        (rowsAt s.draftSequence s.draftTokens.length ds))
      (fun r s' => Reserving s s' r.1 r.2 ts ds)
      fun e s' => Failed s s' ∧ e ≠ .binding := by
  obtain ⟨hti, hdi, htok⟩ := (phaseInv_ready hp).mp h.phase
  rw [reservePair]
  refine runs_attempt (g := SpeculativeKv.target) h.target.reserve
    (fun target t _ ⟨_, hserves, hhold, hstate, hid, hsub⟩ => ?_) fun e _ _ => ?_
  · refine runs_orThrow (fun a ha => ?_) fun e he => by simp at he
    obtain rfl := Except.ok.inj ha
    refine runs_attempt (g := SpeculativeKv.draft) (s := putTarget t s) h.draft.reserve
      (fun draft d _ ⟨_, hserves', hhold', hstate', _, _⟩ => ?_) fun e _ _ => ?_
    · exact runs_pure ⟨rfl, hserves, hserves', hhold, hhold', hstate, hstate'⟩
    · -- The draft pool has refused; the target's reservation is not submitted and can be dropped.
      obtain ⟨hinv, hidle⟩ := hhold.release hserves.inv
      have habort : noReply (·.abortBatch target) t = .ok ((), { t with pending := none }) := by
        rw [noReply, hhold.abort hsub]
        rfl
      refine runs_attempt (g := SpeculativeKv.target) (s := putTarget t s)
        (o := noReply (·.abortBatch target)) (D := fun _ => False)
        (R := fun r => r.2 = { t with pending := none })
        (by rw [show (putTarget t s).target = t from rfl, habort]; rfl) ?_ fun _ _ hf => hf.elim
      rintro u t' - rfl
      refine runs_orThrow (fun a _ => runs_fail ⟨?_, by simp⟩) fun e he => by simp at he
      refine ⟨⟨hserves.congr hinv rfl rfl, h.draft, ?_⟩, ⟨rfl, rfl, rfl, rfl, hstate⟩,
        rfl, .inl rfl⟩
      refine (phaseInv_ready ?_).mpr ⟨hidle, hdi, ?_⟩
      · exact hp
      · simp only [targetTokens, draftTokens, tokensOf] at htok ⊢
        rw [hstate]
        exact htok
  · exact runs_orThrow (fun a ha => by simp at ha) fun e' _ => ⟨.refl h, by simp⟩

/-- What the checks of `reserveRound` establish. -/
structure RoundReady (s : SpeculativeKv) (index : RoundIndex) : Prop where
  ready : s.phase = .ready
  valid : index.ValidFor s.request s.epoch s.plan s.targetSelection s.draftSelection
  anchor : index.roundAnchor = s.anchor
  cursor : index.targetPreCommitted = s.targetTokens.length

theorem validateIndex_ensures {index : RoundIndex} :
    Ensures (s.validateIndex index) (fun e => e = .index) fun _ =>
      index.ValidFor s.request s.epoch s.plan s.targetSelection s.draftSelection :=
  ensures_mapErr (RoundIndex.validateFor_ensures.mono (fun _ _ => rfl) fun _ _ h => h)

/-- The rows of both roles, at the committed positions. -/
theorem RoundReady.rows {index : RoundIndex} (h : RoundReady s index) (hs : PairInv s) :
    indexedRows index .target8B s.targetSequence =
        .ok (rowsAt s.targetSequence s.targetTokens.length index.inputs) ∧
      indexedRows index .draft06B s.draftSequence =
        .ok (rowsAt s.draftSequence s.draftTokens.length
          (index.inputs.take index.draftTokenCount)) := by
  obtain ⟨-, -, htok⟩ := (phaseInv_ready h.ready).mp hs.phase
  rw [(indexedRows_eq h.valid.toValid _).1, (indexedRows_eq h.valid.toValid _).2, h.cursor,
    ← htok]
  exact ⟨rfl, rfl⟩

theorem roundRows_ensures {index : RoundIndex} (h : PairInv s) :
    Ensures (roundRows index s) (fun _ => True) fun rows => RoundReady s index ∧
      rows = (rowsAt s.targetSequence s.targetTokens.length index.inputs,
        rowsAt s.draftSequence s.draftTokens.length
          (index.inputs.take index.draftTokenCount)) := by
  rw [roundRows]
  refine (ensures_failIf (Q := fun _ => s.phase = .ready) (fun _ => trivial)
    fun hp => not_not.mp hp).bind fun _ _ hp => ?_
  obtain ⟨hti, hdi, htok⟩ := (phaseInv_ready hp).mp h.phase
  refine (validateIndex_ensures.mono (fun _ _ => trivial) fun _ _ hv => hv).bind fun _ _ hv => ?_
  refine (ensures_failIf (Q := fun _ => index.roundAnchor = s.anchor) (fun _ => trivial)
    fun ha => not_not.mp ha).bind fun _ _ ha => ?_
  rw [h.target.committedPosition_eq hti.1, h.draft.committedPosition_eq hdi.1, fromPool, mapErr,
    ok_bind, fromPool, mapErr]
  refine (ensures_failIf (Q := fun _ => s.targetTokens.length = index.targetPreCommitted)
    (fun _ => trivial) fun hc => not_not.mp hc).bind fun _ _ hc => ?_
  refine (ensures_failIf (Q := fun _ => True) (fun _ => trivial) fun _ => trivial).bind
    fun _ _ _ => ?_
  refine (ensures_orErr (Q := fun _ => True) (fun _ => trivial) fun _ _ => trivial).bind
    fun _ _ _ => ?_
  have hready : RoundReady s index := ⟨hp, hv, ha, hc.symm⟩
  obtain ⟨ht, hd⟩ := hready.rows h
  rw [ht, hd, ok_bind, ok_bind]
  exact ensures_pure.mpr ⟨hready, rfl⟩

/-- Reservations for the rows of a round are a round. -/
theorem Reserving.roundInv {index : RoundIndex} {target draft : PreparedBatch}
    (h : Reserving s s' target draft index.inputs (index.inputs.take index.draftTokenCount))
    (hr : RoundReady s index) (hs : PairInv s) : RoundInv s' index target draft := by
  obtain ⟨-, -, htok⟩ := (phaseInv_ready hr.ready).mp hs.phase
  have ht : s'.targetTokens = s.targetTokens := by
    rw [targetTokens, tokensOf, h.targetState, h.eq]
    rfl
  have hd : s'.draftTokens = s.draftTokens := by
    rw [draftTokens, tokensOf, h.draftState, h.eq]
    rfl
  refine ⟨?_, ?_, by rw [ht, hd, htok], by rw [ht, hr.cursor], ?_, ?_⟩
  · rw [h.eq]
    exact hr.valid
  · rw [h.eq]
    exact hr.anchor
  · rw [h.eq]
    exact h.holdTarget
  · rw [h.eq]
    exact h.holdDraft

/-- **Reserving a round.** -/
theorem reserveRound_runs {index : RoundIndex} (h : PairInv s) :
    Runs s (reserveRound index) (fun _ s' => Done s s' ∧ Carries s s')
      fun _ s' => Failed s s' := by
  rw [reserveRound]
  refine runs_query ((roundRows_ensures h).mono (fun _ _ => .refl h) fun _ _ hr => hr) ?_
  rintro _ - ⟨hready, rfl⟩
  refine ((reservePair_runs h hready.ready).mono (fun _ _ _ hq => hq)
    fun _ _ _ he => he.1).bind ?_
  rintro ⟨target, draft⟩ s₁ - hres
  have hround := hres.roundInv hready h
  refine runs_modify (runs_pure ⟨⟨⟨?_, ?_, ?_⟩, ?_, fun ht => ?_⟩, ?_⟩)
  · rw [hres.eq]
    exact hres.servesTarget
  · rw [hres.eq]
    exact hres.servesDraft
  · exact ⟨hround.valid, hround.anchor, hround.tokens_eq, hround.cursor, hround.target,
      hround.draft⟩
  · rw [hres.eq]
    exact ⟨rfl, rfl, rfl, rfl, hres.targetState⟩
  · simp [hready.ready] at ht
  · intro round' result hp hr
    obtain rfl := Phase.round.inj hp
    simp at hr

end SpeculativeKv

end TpSpeculative

end Ferric
