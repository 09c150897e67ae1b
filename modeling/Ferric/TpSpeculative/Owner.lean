import Ferric.TpSpeculative.Settle

/-!
# Runs of the pair

The pair as a transition system: any public call, with any results as arguments, in any order, from
any two pools that the constructor accepts.

## Main definitions

* `Call`, `call` — the public operations
* `pairSystem` — pairs under arbitrary calls

## Main results

* `call_runs` — every call keeps the invariant
* `phases_of_reachable` — what each phase says about the two pools, in every reachable pair
-/

namespace Ferric

namespace TpSpeculative

open TpPaged TpPaged.PagedPool Ferric.Action

open Spec hiding Token

namespace SpeculativeKv

variable {s s' : SpeculativeKv}

/-! ### The system -/

/-- A public call with its arguments. -/
inductive Call where
  | reserveRound (index : RoundIndex)
  | reserveProposals
  | proposalWork
  | recordProposal (result : ProposalResult)
  | targetWork
  | draftWork
  | recordTarget (result : TargetResult)
  | recordDraft (result : DraftResult)
  | settle
  | reserveDraftCatchUp
  | abortUnsubmitted
  | failSubmitted

/-- What a call returns. -/
inductive Reply where
  | unit
  | proposal (work : ProposalWork)
  | target (work : TargetWork)
  | draft (work : DraftWork)
  | settled (receipt : Settlement)

/-- One call. -/
def call : Call → PairM Reply
  | .reserveRound index => do
    reserveRound index
    return .unit
  | .reserveProposals => do
    reserveProposals
    return .unit
  | .proposalWork => do return .proposal (← proposalWork)
  | .recordProposal result => do
    recordProposal result
    return .unit
  | .targetWork => do return .target (← targetWork)
  | .draftWork => do return .draft (← draftWork)
  | .recordTarget result => do
    recordTarget result
    return .unit
  | .recordDraft result => do
    recordDraft result
    return .unit
  | .settle => do return .settled (← settle)
  | .reserveDraftCatchUp => do
    reserveDraftCatchUp
    return .unit
  | .abortUnsubmitted => do
    abortUnsubmitted
    return .unit
  | .failSubmitted => do
    failSubmitted
    return .unit

/-- A pair as the constructor returns it, over pools that their own calls have made. -/
def Initial (s : SpeculativeKv) : Prop :=
  ∃ target targetSequence draft draftSequence first, poolSystem.Reachable target ∧
    poolSystem.Reachable draft ∧ new target targetSequence draft draftSequence first = .ok s

/-- Pairs under any calls with any arguments. A call that fails leaves what it has done. -/
def pairSystem : System SpeculativeKv Call where
  init := Initial
  step s c s' := s' = ((call c).exec s).2

/-- The constructor establishes the invariant. -/
theorem new_ensures {target draft : PagedPool} {targetSequence draftSequence : SequenceId}
    {first : RoundIndex} (ht : target.PoolInv) (hd : draft.PoolInv) :
    Ensures (new target targetSequence draft draftSequence first) (fun _ => True) fun s =>
      PairInv s ∧ s.phase = .ready := by
  rw [new]
  refine (ensures_mapErr (RoundIndex.validate_ensures.mono (fun _ _ => trivial)
    fun _ _ h => h)).bind fun _ _ _ => ?_
  refine (ensures_fromPool (requireIdle_ensures.mono (fun _ _ => trivial) fun _ _ h => h)).bind
    fun _ _ hti => ?_
  refine (ensures_fromPool (requireIdle_ensures.mono (fun _ _ => trivial) fun _ _ h => h)).bind
    fun _ _ hdi => ?_
  refine (ensures_fromPool ((checkInvariants_ensures ht).mono (fun _ _ => trivial)
    fun _ _ h => h)).bind fun _ _ _ => ?_
  refine (ensures_fromPool ((checkInvariants_ensures hd).mono (fun _ _ => trivial)
    fun _ _ h => h)).bind fun _ _ _ => ?_
  refine (ensures_fromPool (requireSequence_ensures.mono (fun _ _ => trivial)
    fun _ _ h => h)).bind fun _ _ htl => ?_
  refine (ensures_fromPool (requireSequence_ensures.mono (fun _ _ => trivial)
    fun _ _ h => h)).bind fun _ _ hdl => ?_
  have hts : Serves target targetSequence := ⟨ht, htl⟩
  have hds : Serves draft draftSequence := ⟨hd, hdl⟩
  obtain ⟨q, hq, htokens⟩ := hts.get
  obtain ⟨q', hq', hdtokens⟩ := hds.get
  have skip : ∀ {c : Prop} [Decidable c] {e : SpeculativeError},
      Ensures (failIf c e) (fun _ => True) fun _ => ¬ c :=
    fun {c} _ {e} => ensures_failIf (fun _ => trivial) fun h => h
  refine skip.bind fun _ _ _ => ?_
  rw [hq, orPanic, ok_bind, hq', orPanic, ok_bind]
  refine skip.bind fun _ _ heq => ?_
  rw [hts.committedPosition_eq hti.1, hds.committedPosition_eq hdi.1, fromPool, mapErr, ok_bind,
    fromPool, mapErr]
  refine skip.bind fun _ _ _ => skip.bind fun _ _ _ => ensures_pure.mpr ⟨⟨hts, hds, ?_⟩, rfl⟩
  exact ⟨hti, hdi, htokens.trans ((not_not.mp heq).trans hdtokens.symm)⟩

theorem Initial.inv (h : Initial s) : PairInv s ∧ s.phase = .ready := by
  obtain ⟨target, _, draft, _, _, ht, hd, hnew⟩ := h
  exact (new_ensures (poolInv_of_reachable ht) (poolInv_of_reachable hd)).of_ok hnew

/-- What a successful call does. -/
inductive Stepped (s : SpeculativeKv) : Call → Reply → SpeculativeKv → Prop
  | settle {receipt : Settlement} {s' : SpeculativeKv} (h : SettledInv s receipt s') :
      Stepped s .settle (.settled receipt) s'
  | recordTarget {result : TargetResult} {round : Round} {s' : SpeculativeKv} (hd : Done s s')
      (hc : TargetChecked s result round)
      (hp : s'.phase = .round { round with targetResult := some result }) :
      Stepped s (.recordTarget result) .unit s'
  | other {c : Call} {reply : Reply} {s' : SpeculativeKv} (hc : c ≠ .settle) (hd : Done s s')
      (hcarries : Carries s s') : Stepped s c reply s'

/-- Return a constant reply after an action. -/
theorem Runs.reply {α β : Type} {m : PairM α} {f : α → β} {Q : α → SpeculativeKv → Prop}
    {P : β → SpeculativeKv → Prop} {E : SpeculativeError → SpeculativeKv → Prop}
    (h : Runs s m Q E) (hp : ∀ a s', Q a s' → P (f a) s') :
    Runs s (m >>= fun a => pure (f a)) P E :=
  h.bind fun a s' _ hq => runs_pure (hp a s' hq)

/-- **Every call** keeps the invariant, or fails as calls fail, and does not panic. -/
theorem call_runs (h : PairInv s) (c : Call) :
    Runs s (call c) (fun reply s' => Stepped s c reply s') fun _ s' => Failed s s' := by
  cases c with
  | reserveRound index =>
    exact Runs.reply (reserveRound_runs h) fun _ _ hq => .other (by simp) hq.1 hq.2
  | reserveProposals =>
    exact Runs.reply ((reserveProposals_runs h).mono (fun _ _ _ hq => hq) fun _ _ _ he => he.1)
      fun _ _ hq => .other (by simp) hq.1 hq.2
  | proposalWork =>
    exact Runs.reply (proposalWork_runs h) fun _ _ hq => .other (by simp) hq.1 hq.2
  | recordProposal result =>
    exact Runs.reply (recordProposal_runs h) fun _ _ hq => .other (by simp) hq.1 hq.2
  | targetWork => exact Runs.reply (targetWork_runs h) fun _ _ hq => .other (by simp) hq.1 hq.2
  | draftWork => exact Runs.reply (draftWork_runs h) fun _ _ hq => .other (by simp) hq.1 hq.2
  | recordTarget result =>
    refine Runs.reply (recordTarget_runs h) ?_
    rintro _ s' ⟨hd, round, hc, hp⟩
    exact .recordTarget hd hc hp
  | recordDraft result =>
    exact Runs.reply (recordDraft_runs h) fun _ _ hq => .other (by simp) hq.1 hq.2
  | settle => exact Runs.reply (settle_runs h) fun _ _ hq => .settle hq
  | reserveDraftCatchUp =>
    exact Runs.reply ((reserveDraftCatchUp_runs h).mono (fun _ _ _ hq => hq)
      fun _ _ _ he => he.1) fun _ _ hq => .other (by simp) hq.1 hq.2
  | abortUnsubmitted =>
    exact Runs.reply (abortUnsubmitted_runs h) fun _ _ hq => .other (by simp) hq.1 hq.2
  | failSubmitted =>
    exact Runs.reply (failSubmitted_runs h) fun _ _ hq => .other (by simp) hq.1 hq.2

theorem Stepped.inv {c : Call} {reply : Reply} (h : Stepped s c reply s') : PairInv s' := by
  cases h with
  | settle h => exact h.inv
  | recordTarget hd _ _ => exact hd.inv
  | other _ hd _ => exact hd.inv

theorem pairInv_of_reachable (h : pairSystem.Reachable s) : PairInv s := by
  refine h.induction (fun s (hs : Initial s) => hs.inv.1) ?_
  rintro s c _ - hs rfl
  exact (call_runs hs c).final (fun _ _ hq => hq.inv) fun _ _ he => he.inv

/-! ### Phases -/

/-- The index and the batches of an open round. -/
def openRound : Phase → Option (RoundIndex × PreparedBatch × PreparedBatch)
  | .proposing round => some (round.index, round.target, round.draft)
  | .round round => some (round.index, round.target, round.draft)
  | _ => none

theorem PairInv.openRound (h : PairInv s) {index : RoundIndex} {target draft : PreparedBatch}
    (ho : SpeculativeKv.openRound s.phase = some (index, target, draft)) :
    RoundInv s index target draft := by
  cases hp : s.phase with
  | proposing round =>
    rw [hp] at ho
    obtain ⟨rfl, rfl, rfl⟩ : round.index = index ∧ round.target = target ∧ round.draft = draft := by
      simpa [SpeculativeKv.openRound] using ho
    exact ((phaseInv_proposing hp).mp h.phase).1
  | round round =>
    rw [hp] at ho
    obtain ⟨rfl, rfl, rfl⟩ : round.index = index ∧ round.target = target ∧ round.draft = draft := by
      simpa [SpeculativeKv.openRound] using ho
    exact (phaseInv_round hp).mp h.phase
  | ready => simp [hp, SpeculativeKv.openRound] at ho
  | catchUpRequired token => simp [hp, SpeculativeKv.openRound] at ho
  | catchUp token batch => simp [hp, SpeculativeKv.openRound] at ho
  | terminal => simp [hp, SpeculativeKv.openRound] at ho

/-- The pool's one reservation is this batch: `n` rows right behind the committed tokens. -/
def Extends (p : PagedPool) (sequence : SequenceId) (batch : PreparedBatch) (n : ℕ) : Prop :=
  ∃ pd q, p.pending = some pd ∧ pd.id = batch.id ∧ batch.rows.length = n ∧
    (∀ (i : ℕ) (row : PreparedRow), batch.rows[i]? = some row →
      row.input.sequence = sequence ∧ row.input.position = (tokensOf p sequence).length + i) ∧
    pd.proposed.sequences.get? sequence.serial = some q ∧
    q.tokens = tokensOf p sequence ++ batch.rows.map (·.input.token)

theorem Holding.extends {p : PagedPool} {sequence : SequenceId} {batch : PreparedBatch}
    {tokens : List Token} (h : Holding p sequence batch tokens) (hs : Serves p sequence) :
    Extends p sequence batch tokens.length := by
  obtain ⟨pd, ho, -⟩ := h.outstanding
  obtain ⟨q, hq, htokens⟩ := h.proposed hs ho.pending
  have hrows : batch.rows.map (·.input) = _ := h.rows
  refine ⟨pd, q, ho.pending, ho.id, h.length_rows, fun i row hrow => ?_, hq, ?_⟩
  · have hi := congrArg (·[i]?) hrows
    simp only [List.getElem?_map, hrow, getElem?_rowsAt, Option.map_some] at hi
    obtain ⟨token, -, he⟩ := Option.map_eq_some_iff.mp hi.symm
    exact ⟨by rw [← he], by rw [← he]⟩
  · have := congrArg (List.map PageRow.token) hrows
    rw [List.map_map, map_token_rowsAt] at this
    rw [htokens, ← this]
    rfl

/-- Exactly a terminal pair is poisoned, in both pools. -/
theorem PairInv.poisoned (h : PairInv s) :
    (s.target.poisoned = true ↔ s.phase = .terminal) ∧
      (s.draft.poisoned = true ↔ s.phase = .terminal) := by
  cases hp : s.phase with
  | ready =>
    obtain ⟨hti, hdi, -⟩ := (phaseInv_ready hp).mp h.phase
    simp [hti.1, hdi.1]
  | proposing round =>
    obtain ⟨hr, -⟩ := (phaseInv_proposing hp).mp h.phase
    simp [Holding.not_poisoned hr.target, Holding.not_poisoned hr.draft]
  | round round =>
    have hr := (phaseInv_round hp).mp h.phase
    simp [Holding.not_poisoned hr.target, Holding.not_poisoned hr.draft]
  | catchUpRequired token =>
    obtain ⟨hti, hdi, -⟩ := (phaseInv_catchUpRequired hp).mp h.phase
    simp [hti.1, hdi.1]
  | catchUp token batch =>
    obtain ⟨hti, hd, -⟩ := (phaseInv_catchUp hp).mp h.phase
    simp [hti.1, Holding.not_poisoned hd]
  | terminal =>
    obtain ⟨ht, hd⟩ := (phaseInv_terminal hp).mp h.phase
    simp [ht, hd]

/-- The terminal phase is never left. -/
theorem PairInv.terminal_absorbing (h : PairInv s) (hp : s.phase = .terminal) (c : Call) :
    ((call c).exec s).2.phase = .terminal := by
  refine (call_runs h c).final (P := fun s' => s'.phase = .terminal) (fun _ s' hq => ?_)
    fun _ s' he => ?_
  · cases hq with
    | settle hs =>
      obtain ⟨round, _, hr, -⟩ := hs.round
      simp [hp] at hr
    | recordTarget hd _ _ => exact hd.terminal hp
    | other _ hd _ => exact hd.terminal hp
  · exact he.phase.elim (·.trans hp) id

/-- Only a settlement moves the epoch, by one. -/
theorem PairInv.epoch (h : PairInv s) {c : Call} {r : Outcome SpeculativeError Reply}
    (hx : (call c).exec s = (r, s')) :
    s'.epoch = s.epoch ∧ (c = .settle → ∀ reply, r ≠ .ok reply) ∨
      s'.epoch = s.epoch + 1 ∧ c = .settle ∧ ∃ receipt, r = .ok (.settled receipt) := by
  have hr := call_runs h c
  match r, hx with
  | .ok reply, hx =>
    have hstep := hr.of_ok hx
    cases hstep with
    | settle hs => exact .inr ⟨hs.epoch, rfl, _, rfl⟩
    | recordTarget hd _ _ => exact .inl ⟨hd.frame.epoch, by simp⟩
    | other hc hd _ => exact .inl ⟨hd.frame.epoch, fun he => absurd he hc⟩
  | .error (.err e), hx => exact .inl ⟨(hr.of_err hx).frame.epoch, by simp⟩
  | .error .panic, hx => exact absurd (congrArg Prod.fst hx) hr.ne_panic
  | .error .diverge, hx => exact absurd (congrArg Prod.fst hx) hr.ne_diverge

/-- **The pair is never half changed.** In every reachable pair: a ready pair is idle with equal
tokens on both sides; a pair that owes a catch-up is behind by exactly that token; an open round has
its one reservation in each pool, of `K + 1` and of `K` rows; poisoning hits both pools and means
the terminal phase. A call that fails leaves committed states, epoch, anchor and phase, or ends in
the terminal phase, which is never left; exactly the settlements move the epoch, by one; and neither
the catch-up nor the proposals are ever refused for their cursors. -/
theorem phases_of_reachable {s : SpeculativeKv} (h : pairSystem.Reachable s) :
    (s.phase = .ready → s.target.Idle ∧ s.draft.Idle ∧ s.targetTokens = s.draftTokens) ∧
    (∀ token, s.phase = .catchUpRequired token → s.targetTokens = s.draftTokens ++ [token]) ∧
    (∀ token batch, s.phase = .catchUp token batch →
      s.targetTokens = s.draftTokens ++ [token]) ∧
    (∀ index target draft, openRound s.phase = some (index, target, draft) →
      bucketK s.targetSelection.bucket = some index.draftTokenCount ∧
      Extends s.target s.targetSequence target (index.draftTokenCount + 1) ∧
      Extends s.draft s.draftSequence draft index.draftTokenCount) ∧
    (s.target.poisoned = true ↔ s.draft.poisoned = true) ∧
    (s.draft.poisoned = true ↔ s.phase = .terminal) ∧
    (∀ c e s', (call c).exec s = (.error (.err e), s') →
      (s'.target.state = s.target.state ∧ s'.draft.state = s.draft.state ∧ s'.epoch = s.epoch ∧
        s'.anchor = s.anchor ∧ s'.phase = s.phase) ∨ s'.phase = .terminal) ∧
    (s.phase = .terminal → ∀ c, ((call c).exec s).2.phase = .terminal) ∧
    (∀ reply s', (call .settle).exec s = (.ok reply, s') → s'.epoch = s.epoch + 1) ∧
    (∀ c r s', (call c).exec s = (r, s') → (c = .settle → ∀ reply, r ≠ .ok reply) →
      s'.epoch = s.epoch) ∧
    (∀ s', (call .reserveDraftCatchUp).exec s ≠ (.error (.err .binding), s') ∧
      (call .reserveProposals).exec s ≠ (.error (.err .binding), s')) ∧
    (s.phase = .ready → s.proposalIndex ≠ .error (.err .binding)) ∧
    ∀ c, ((call c).exec s).1 ≠ .error .panic ∧ ((call c).exec s).1 ≠ .error .diverge := by
  have hs := pairInv_of_reachable h
  obtain ⟨htp, hdp⟩ := hs.poisoned
  refine ⟨fun hp => (phaseInv_ready hp).mp hs.phase,
    fun token hp => ((phaseInv_catchUpRequired hp).mp hs.phase).2.2,
    fun token batch hp => ((phaseInv_catchUp hp).mp hs.phase).2.2,
    fun index target draft ho => ?_, htp.trans hdp.symm, hdp, fun c e s' hx => ?_,
    fun hp c => hs.terminal_absorbing hp c, fun reply s' hx => ?_, fun c r s' hx hc => ?_,
    fun s' => ⟨fun hx => ?_, fun hx => ?_⟩, fun hp hx =>
      (proposalIndex_ensures hs hp).of_err hx rfl,
    fun c => ⟨(call_runs hs c).ne_panic, (call_runs hs c).ne_diverge⟩⟩
  · have hr := hs.openRound ho
    have hlen := hr.valid.length_inputs
    have ht := Holding.extends hr.target hs.target
    have hd := Holding.extends hr.draft hs.draft
    rw [hlen] at ht
    rw [List.length_take, hlen, Nat.min_eq_left (Nat.le_succ _)] at hd
    exact ⟨hr.valid.target_eq ▸ hr.valid.bucket, ht, hd⟩
  · have hf := (call_runs hs c).of_err hx
    exact hf.phase.imp
      (fun hp => ⟨hf.frame.target, hf.draft, hf.frame.epoch, hf.frame.anchor, hp⟩) id
  · rcases hs.epoch hx with ⟨-, hno⟩ | ⟨he, -, -⟩
    · exact absurd rfl (hno rfl reply)
    · exact he
  · rcases hs.epoch hx with ⟨he, -⟩ | ⟨-, hsettle, receipt, hok⟩
    · exact he
    · exact absurd hok (hc hsettle _)
  · have hr := Runs.reply (f := fun _ => Reply.unit) (P := fun _ _ => True)
      (reserveDraftCatchUp_runs hs) fun _ _ _ => trivial
    exact (hr.of_err hx).2 rfl
  · have hr := Runs.reply (f := fun _ => Reply.unit) (P := fun _ _ => True)
      (reserveProposals_runs hs) fun _ _ _ => trivial
    exact (hr.of_err hx).2 rfl

/-! ### A driven round -/

/-- A program over the pair that only uses its calls stays among the reachable pairs. -/
def Reaches {α : Type} (m : PairM α) : Prop :=
  ∀ s, pairSystem.Reachable s → pairSystem.Reachable (m.exec s).2

variable {α β : Type}

theorem reaches_call (c : Call) : Reaches (call c) := fun _ h => .step (a := c) h rfl

/-- The reply of a call does not change the pair. -/
theorem Reaches.of_reply {m : PairM α} {f : α → Reply}
    (h : Reaches (m >>= fun a => pure (f a))) : Reaches m := by
  intro s hs
  have := h s hs
  rw [exec_bind] at this
  match hx : m.exec s, this with
  | (.ok a, s'), this => exact this
  | (.error e, s'), this => exact this

theorem Reaches.bind {m : PairM α} {f : α → PairM β} (hm : Reaches m) (hf : ∀ a, Reaches (f a)) :
    Reaches (m >>= f) := by
  intro s hs
  have := hm s hs
  rw [exec_bind]
  match hx : m.exec s, this with
  | (.ok a, s'), this => exact hf a s' this
  | (.error e, s'), this => exact this

theorem reaches_query (f : SpeculativeKv → Outcome SpeculativeError α) : Reaches (query f) := by
  intro s hs
  rw [exec_query]
  exact hs

/-- A small pool for one of two models. -/
def rolePool (id : ℕ) (model : UInt8) : PagedPool :=
  { smallPool with identity := id, scope := ⟨Vector.replicate 32 model, Vector.replicate 32 2⟩ }

theorem fresh_rolePool : (rolePool 1 1).Fresh ∧ (rolePool 2 3).Fresh :=
  ⟨⟨1, (rolePool 1 1).scope, smallPool.limits, 2, 64, 4, 8, 10, .legacy, by decide,
      .inl (by decide)⟩,
    ⟨2, (rolePool 2 3).scope, smallPool.limits, 3, 64, 4, 8, 10, .legacy, by decide,
      .inl (by decide)⟩⟩

/-- A first round after an empty prefill: anchor `5`, candidates `6` to `9`. -/
def firstRound : RoundIndex where
  request := ⟨0, 1⟩
  completionEpoch := 1
  planId := ⟨Vector.replicate 32 7⟩
  targetSelection := ⟨.target8B, .speculative, .speculativeS1K4C8192⟩
  draftSelection := ⟨.draft06B, .speculative, .speculativeS1K4C8192⟩
  draftTokenCount := 4
  roundAnchor := 5
  draftTokens := #v[6, 7, 8, 9, 0, 0, 0, 0, 0, 0, 0, 0, 0, 0, 0, 0]
  targetPreCommitted := 0
  draftPreCommitted := 0
  targetTentative := ⟨0, 5⟩
  draftTentative := ⟨0, 4⟩
  targetCommitEnds := #v[1, 2, 3, 4, 5, 0, 0, 0, 0, 0, 0, 0, 0, 0, 0, 0, 0]
  draftCommitEnds := #v[1, 2, 3, 4, 4, 0, 0, 0, 0, 0, 0, 0, 0, 0, 0, 0, 0]
  correctionBonus := .deferredUntilNextStep

/-- The pair of two pools that have each admitted the request. -/
def smallPair : Outcome SpeculativeError SpeculativeKv := do
  let target ← fromPool ((rolePool 1 1).runCalls [.openSequence (rolePool 1 1).scope [5, 6, 7] 3])
  let draft ← fromPool ((rolePool 2 3).runCalls [.openSequence (rolePool 2 3).scope [5, 6, 7] 3])
  new target ⟨1, 1⟩ draft ⟨2, 1⟩ firstRound

theorem fromPool_eq_ok {x : Outcome PagedError α} {a : α} : fromPool x = .ok a ↔ x = .ok a := by
  rcases x with (_ | _ | _) | _ <;> simp [fromPool, mapErr]

theorem initial_smallPair (h : smallPair = .ok s) : Initial s := by
  obtain ⟨target, ht, h⟩ := bind_eq_ok.mp h
  obtain ⟨draft, hd, h⟩ := bind_eq_ok.mp h
  exact ⟨target, _, draft, _, _,
    reachable_of_runCalls (.init fresh_rolePool.1) (fromPool_eq_ok.mp ht),
    reachable_of_runCalls (.init fresh_rolePool.2) (fromPool_eq_ok.mp hd), h⟩

/-- One round, driven to its settlement. -/
def driveRound (choices : List Token) : PairM Settlement := do
  let _ ← call (.reserveRound firstRound)
  let work ← targetWork
  let result ← query fun _ => work.seal (.afterAllRanks work.batch) choices (List.range 5)
  let _ ← call (.recordTarget result)
  let work ← draftWork
  let result ← query fun _ => work.seal (.afterAllRanks work.batch)
  let _ ← call (.recordDraft result)
  settle

theorem reaches_driveRound (choices : List Token) : Reaches (driveRound choices) := by
  refine (reaches_call _).bind fun _ => ?_
  refine (Reaches.of_reply (f := .target) (reaches_call .targetWork)).bind fun work => ?_
  refine (reaches_query _).bind fun result => (reaches_call _).bind fun _ => ?_
  refine (Reaches.of_reply (f := .draft) (reaches_call .draftWork)).bind fun work => ?_
  refine (reaches_query _).bind fun result => (reaches_call _).bind fun _ => ?_
  exact Reaches.of_reply (f := .settled) (reaches_call .settle)

/-- A round all of whose candidates are accepted leaves the draft pool one token behind. -/
theorem phases_of_reachable_accepted :
    ∃ s, pairSystem.Reachable s ∧ s.phase = .catchUpRequired 9 ∧
      s.targetTokens = s.draftTokens ++ [9] := by
  have hphase : smallPair.map (fun s => ((driveRound [6, 7, 8, 9, 10]).exec s).2.phase) =
      .ok (.catchUpRequired 9) := by decide +kernel
  cases hr : smallPair with
  | error e => simp [hr, Except.map] at hphase
  | ok s =>
    have h := reaches_driveRound [6, 7, 8, 9, 10] s (.init (initial_smallPair hr))
    have hp : ((driveRound [6, 7, 8, 9, 10]).exec s).2.phase = .catchUpRequired 9 := by
      simpa [hr, Except.map] using hphase
    exact ⟨_, h, hp, (phases_of_reachable h).2.1 9 hp⟩

end SpeculativeKv

end TpSpeculative

end Ferric
