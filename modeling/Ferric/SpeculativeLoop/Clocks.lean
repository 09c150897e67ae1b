import Ferric.SpeculativeLoop.Streams

/-!
# Rounds and epochs of a run

A commit checks neither the epoch of its permit nor whether the round fits the context. Both were
checked when the binding was made, and they still hold when the permit commits: a binding that
passes the check of a commit was made since the last commit, and no catch-up came between, because a
catch-up moves a draft cursor that the binding names.

## Main definitions

* `Unmoved` — a coordinator since one of its bindings was made
* `World.Clocked` — what a run keeps of rounds, epochs and cursors

## Main results

* `clock_law` — rounds and epochs are consecutive and the cursors stay in the context
-/

namespace Ferric

namespace SpeculativeLoop

open Spec

/-! ### What a binding establishes -/

/-- A member whose next round fits the context. -/
structure Roomy (shape : PhysicalShape) (member : MemberState) : Prop where
  target : member.targetCommittedTokens ≤ maxContextTokens - (shape.draftTokens + 1)
  draft : member.draftCommittedTokens ≤ maxContextTokens - shape.draftTokens

theorem roomy_of_validateContext {shape : PhysicalShape} {lane : ℕ} {member : MemberState}
    (h : validateContext shape lane member = .ok ()) : Roomy shape member := by
  simp only [validateContext, bind_eq_ok, failIf_eq_ok] at h
  obtain ⟨_, htarget, hdraft⟩ := h
  exact ⟨Nat.not_lt.mp htarget, Nat.not_lt.mp hdraft⟩

/-- The epoch that may follow the last one. -/
def EpochAfter (lastEpoch : Option ℕ) (epoch : ℕ) : Prop :=
  0 < epoch ∧ ∀ last, lastEpoch = some last → epoch = last + 1

theorem GenerationLoop.checkEpoch_ok {lastEpoch : Option ℕ} {epoch : ℕ} (hpos : epoch ≠ 0)
    (h : checkEpoch lastEpoch epoch = .ok ()) : EpochAfter lastEpoch epoch := by
  refine ⟨Nat.pos_of_ne_zero hpos, ?_⟩
  rintro last rfl
  simp only [checkEpoch, bind_eq_ok, orErr_eq_ok, checkedAdd_eq_some, failIf_eq_ok] at h
  obtain ⟨_, ⟨-, rfl⟩, hepoch⟩ := h
  exact not_not.mp hepoch

/-- What a coordinator that makes a binding is like. -/
structure GenerationLoop.Binds (loop : GenerationLoop) (binding : RoundBinding) : Prop where
  round : binding.round = loop.nextRound
  epoch : EpochAfter loop.lastEpoch binding.epoch
  active : loop.active ≠ []
  members : binding.members = loop.active.map (·.input)
  roomy : ∀ member ∈ loop.active, Roomy loop.shape member

theorem GenerationLoop.bindRound_binds {loop : GenerationLoop} {round epoch : ℕ}
    {roster : List RequestId} {binding : RoundBinding}
    (h : loop.bindRound round epoch roster = .ok binding) : loop.Binds binding := by
  have hmembers := bindRound_members h
  simp only [bindRound, bind_eq_ok, failIf_eq_ok] at h
  obtain ⟨_, hround, _, -, _, hzero, _, hepoch, _, hactive, _, hlength, members, hlanes, h⟩ := h
  obtain rfl := Except.ok.inj h
  refine ⟨not_not.mp hround, checkEpoch_ok hzero hepoch, ?_, hmembers, fun member hmember => ?_⟩
  · exact fun hnil => hactive (by rw [hnil, List.length_nil])
  · -- the lane of the member
    obtain ⟨lane, hlane, rfl⟩ := List.mem_iff_getElem.mp hmember
    have hzip : (loop.active.zip roster).zipIdx[lane]? =
        some ((loop.active[lane], roster.get ⟨lane, by omega⟩), lane) := by
      rw [List.getElem?_zipIdx, List.getElem?_eq_getElem (by simp; omega)]
      simp
    obtain ⟨input, -, hinput⟩ := getElem?_of_forall₂ (forall₂_of_mapM hlanes) hzip
    simp only [bind_eq_ok] at hinput
    obtain ⟨_, -, _, hcontext, -⟩ := hinput
    exact roomy_of_validateContext hcontext

/-! ### The age of a binding -/

/-- A coordinator since one of its bindings was made: it has committed no round, and if it has
committed a catch-up, then the draft cursor of its only member is ahead. -/
structure Unmoved (old loop : GenerationLoop) : Prop where
  shape : old.shape = loop.shape
  nextRound : old.nextRound = loop.nextRound
  moved : (old.members = loop.members ∧ old.lastEpoch = loop.lastEpoch) ∨
    ∃ m m' : MemberState, old.members = [m] ∧ loop.members = [m'] ∧ m.status = .active ∧
      m'.status = .active ∧ m.draftCommittedTokens < m'.draftCommittedTokens

theorem Unmoved.refl (loop : GenerationLoop) : Unmoved loop loop :=
  ⟨rfl, rfl, .inl ⟨rfl, rfl⟩⟩

theorem Unmoved.catchup {old loop : GenerationLoop} (h : Unmoved old loop) {member : MemberState}
    (hmembers : loop.members = [member]) (hactive : member.status = .active)
    (hbehind : member.draftCommittedTokens + 1 = member.targetCommittedTokens)
    (lastEpoch : Option ℕ) :
    Unmoved old { loop with members := [member.caughtUp], lastEpoch } := by
  have hlt : member.draftCommittedTokens < member.caughtUp.draftCommittedTokens := by
    show _ < member.targetCommittedTokens
    omega
  refine ⟨h.shape, h.nextRound, .inr ?_⟩
  rcases h.moved with ⟨hold, -⟩ | ⟨m, m', hold, hnew, hm, -, hdraft⟩
  · exact ⟨member, member.caughtUp, hold.trans hmembers, rfl, hactive, hactive, hlt⟩
  · obtain rfl : m' = member := (List.cons.inj (hnew.symm.trans hmembers)).1
    exact ⟨m, m'.caughtUp, hold, rfl, hm, hactive, hdraft.trans hlt⟩

/-- **A binding that passes the check could be made now**, with the same epoch. -/
theorem Unmoved.binds {old loop : GenerationLoop} (h : Unmoved old loop) {binding : RoundBinding}
    (hbinds : old.Binds binding) (hvalid : loop.validateBinding binding = .ok ()) :
    loop.Binds binding := by
  obtain ⟨-, -, hinputs⟩ := GenerationLoop.validateBinding_ok hvalid
  rcases h.moved with ⟨hmembers, hepoch⟩ | ⟨m, m', hold, hnew, hm, hm', hlt⟩
  · have hactive : old.active = loop.active := by
      rw [GenerationLoop.active, hmembers]
      rfl
    refine ⟨hbinds.round.trans h.nextRound, hepoch ▸ hbinds.epoch, hactive ▸ hbinds.active,
      hinputs, ?_⟩
    rw [← hactive, ← h.shape]
    exact hbinds.roomy
  · -- the draft cursors are not the same
    have heq := hbinds.members.symm.trans hinputs
    rw [GenerationLoop.active, GenerationLoop.active, hold, hnew] at heq
    simp only [hm, hm', decide_true, List.filter_cons_of_pos, List.filter_nil, List.map_cons,
      List.map_nil, List.cons.injEq, and_true] at heq
    have hdraft : m.draftCommittedTokens = m'.draftCommittedTokens :=
      congrArg RoundMemberInput.draftPreCommitted heq
    omega

/-! ### The log -/

/-- The epoch of a commit. -/
def Committed.epoch : Committed → ℕ
  | .round outcome => outcome.completedEpoch
  | .catchup transition => transition.epoch

/-- The number of a committed round. -/
def Committed.roundNumber : Committed → Option ℕ
  | .round outcome => some outcome.completedRound
  | .catchup _ => none

/-- What a run keeps of rounds, epochs and cursors. -/
structure World.Clocked (w : World) : Prop where
  width : w.loop.shape.draftTokens + 1 ≤ maxContextTokens
  bound : ∀ binding ∈ w.bindings, binding.round < w.loop.nextRound ∨
    ∃ old : GenerationLoop, Unmoved old w.loop ∧ old.Binds binding
  permitted : ∀ permit ∈ w.permits, permit.binding ∈ w.bindings
  rounds : w.log.filterMap (·.roundNumber) = List.range w.loop.nextRound
  lastEpoch : w.loop.lastEpoch = (w.log.map (·.epoch)).getLast?
  epochs : (w.log.map (·.epoch)).IsChain fun earlier later => later = earlier + 1
  positive : ∀ committed ∈ w.log, 0 < committed.epoch
  fits : ∀ member ∈ w.loop.members, member.targetCommittedTokens ≤ maxContextTokens ∧
    member.draftCommittedTokens ≤ maxContextTokens

/-- One more epoch. -/
theorem isChain_concat {epochs : List ℕ} {epoch : ℕ}
    (h : epochs.IsChain fun earlier later => later = earlier + 1)
    (hafter : EpochAfter epochs.getLast? epoch) :
    (epochs ++ [epoch]).IsChain fun earlier later => later = earlier + 1 := by
  rw [List.isChain_append]
  refine ⟨h, List.isChain_singleton _, ?_⟩
  rintro last hlast first hfirst
  obtain rfl : epoch = first := by simpa using hfirst
  exact hafter.2 last hlast

/-- A round leaves the cursors of a member in the context that had room for it. -/
theorem Settles.fits {shape : PhysicalShape} {member : MemberState} {outcome : MemberRoundOutcome}
    (h : Settles shape member outcome) (hroomy : Roomy shape member)
    (hwidth : shape.draftTokens + 1 ≤ maxContextTokens) :
    (member.after outcome).targetCommittedTokens ≤ maxContextTokens ∧
      (member.after outcome).draftCommittedTokens ≤ maxContextTokens := by
  have htarget := hroomy.target
  have hdraft := hroomy.draft
  have hle := h.accepted_le
  show outcome.targetSettlement.commitEnd ≤ _ ∧ outcome.draftSettlement.commitEnd ≤ _
  rw [h.target, h.draft]
  constructor
  · omega
  · split_ifs <;> omega

namespace World

variable {w w' : World}

theorem clocked_start {fresh : Option ℕ} {selection : PlanSelection} {seeds : List MemberSeed}
    {loop : GenerationLoop} (h : GenerationLoop.new fresh selection seeds = .ok loop) :
    (start seeds loop).Clocked := by
  obtain ⟨hmembers, -⟩ := GenerationLoop.new_ok h
  simp only [GenerationLoop.new, bind_eq_ok, failIf_eq_ok] at h
  obtain ⟨shape, hshape, identity, -, _, -, _, -, members, hlanes, h⟩ := h
  obtain rfl := Except.ok.inj h
  have hwidth : shape.draftTokens + 1 ≤ maxContextTokens := by
    simp only [PhysicalShape.fromSelection, bind_eq_ok] at hshape
    obtain ⟨_, -, hshape⟩ := hshape
    split at hshape <;> cases hshape <;> simp [maxContextTokens]
  refine ⟨hwidth, by simp [start], by simp [start], rfl, rfl, .nil, by simp [start], ?_⟩
  intro member hmember
  obtain ⟨x, -, hx⟩ := exists_of_forall₂ (forall₂_of_mapM hlanes) hmember
  obtain ⟨_, hvalid, hx⟩ := bind_eq_ok.mp hx
  obtain rfl := Except.ok.inj hx
  rw [validateSeed, bind_eq_ok] at hvalid
  obtain ⟨_, -, hvalid⟩ := hvalid
  split at hvalid
  · cases hvalid
  · simp only [bind_eq_ok] at hvalid
    obtain ⟨_, -, hcontext⟩ := hvalid
    have hroomy := roomy_of_validateContext hcontext
    exact ⟨hroomy.target.trans (Nat.sub_le _ _), hroomy.draft.trans (Nat.sub_le _ _)⟩

namespace Clocked

theorem bindRound (h : w.Clocked) {round epoch : ℕ} {roster : List RequestId}
    {binding : RoundBinding} (hbind : w.loop.bindRound round epoch roster = .ok binding) :
    ({ w with bindings := w.bindings ++ [binding] } : World).Clocked := by
  refine { h with bound := fun b hb => ?_, permitted := fun p hp => ?_ }
  · rcases List.mem_append.mp hb with hb | hb
    · exact h.bound b hb
    · obtain rfl := List.mem_singleton.mp hb
      exact .inr ⟨w.loop, .refl _, GenerationLoop.bindRound_binds hbind⟩
  · exact List.mem_append_left _ (h.permitted p hp)

theorem preflight (h : w.Clocked) {binding : RoundBinding} (hbinding : binding ∈ w.bindings)
    {permit : PreflightedRound} (hpermit : permit.binding = binding) :
    ({ w with permits := w.permits ++ [permit] } : World).Clocked := by
  refine { h with permitted := fun p hp => ?_ }
  rcases List.mem_append.mp hp with hp | hp
  · exact h.permitted p hp
  · obtain rfl := List.mem_singleton.mp hp
    exact hpermit ▸ hbinding

/-- **Step lemma**, of a commit. -/
theorem commit (h : w.Clocked) (hinv : w.Inv) {permit : PreflightedRound}
    (hpermit : permit ∈ w.permits) {outcome : RoundOutcome} {loop' : GenerationLoop}
    (hcommit : w.loop.commitPreflightedRound permit = .ok (outcome, loop')) :
    ({ w with loop := loop', log := w.log ++ [.round outcome] } : World).Clocked := by
  obtain ⟨houtcomes, hloop'⟩ := (hinv.current permit hpermit).commit_eq hinv.distinct hcommit
  have hcommit' := hcommit
  simp only [GenerationLoop.commitPreflightedRound, bind_eq_ok] at hcommit'
  obtain ⟨_, hvalid, _, -, _, -, hresult⟩ := hcommit'
  obtain ⟨houtcome, -⟩ := Prod.mk.inj (Except.ok.inj hresult)
  have hround : outcome.completedRound = w.loop.nextRound := by rw [← houtcome]
  have hepoch : outcome.completedEpoch = permit.binding.epoch := by rw [← houtcome]
  have hbinds : w.loop.Binds permit.binding := by
    rcases h.bound _ (h.permitted permit hpermit) with hstale | ⟨old, hunmoved, hbinds⟩
    · have := (GenerationLoop.validateBinding_ok hvalid).2.1
      omega
    · exact hunmoved.binds hbinds hvalid
  have hafter : EpochAfter (w.log.map (·.epoch)).getLast? outcome.completedEpoch := by
    rw [← h.lastEpoch, hepoch]
    exact hbinds.epoch
  subst hloop'
  constructor
  · exact h.width
  · intro binding hbinding
    left
    show binding.round < w.loop.nextRound + 1
    rcases h.bound binding hbinding with hstale | ⟨old, hunmoved, hold⟩
    · omega
    · rw [hold.round, hunmoved.nextRound]
      exact Nat.lt_succ_self _
  · exact h.permitted
  · show (w.log ++ [Committed.round outcome]).filterMap _ = List.range (w.loop.nextRound + 1)
    rw [List.filterMap_append, h.rounds, List.range_succ, ← hround]
    rfl
  · show some permit.binding.epoch = ((w.log ++ [Committed.round outcome]).map _).getLast?
    rw [List.map_append, List.map_singleton, List.getLast?_concat, ← hepoch]
    rfl
  · show ((w.log ++ [Committed.round outcome]).map _).IsChain _
    rw [List.map_append]
    exact isChain_concat h.epochs hafter
  · intro committed hmem
    rcases List.mem_append.mp hmem with hmem | hmem
    · exact h.positive committed hmem
    · obtain rfl := List.mem_singleton.mp hmem
      exact hafter.1
  · intro member hmem
    obtain ⟨before, hbefore, rfl⟩ := List.mem_map.mp hmem
    unfold Keyed.take
    split
    · next o hfind =>
      obtain ⟨m, hm, hsettles⟩ := houtcomes o (List.mem_of_find?_eq_some hfind)
      have hrequest : o.request = before.request := by simpa using List.find?_some hfind
      obtain rfl : m = before := Keyed.eq_of_nodup hinv.distinct
        (GenerationLoop.mem_active.mp hm).1 hbefore (hsettles.request.symm.trans hrequest)
      exact hsettles.fits (hbinds.roomy m hm) h.width
    · exact h.fits before hbefore

/-- **Step lemma**, of a catch-up. -/
theorem catchup (h : w.Clocked) {transition : DraftCatchupTransition} {loop' : GenerationLoop}
    (hcatchup : w.loop.commitDraftCatchupTransition transition = .ok loop') :
    ({ w with loop := loop', log := w.log ++ [.catchup transition] } : World).Clocked := by
  obtain ⟨member, hmembers, hactive, -, hbehind, hloop'⟩ := GenerationLoop.catchup_eq hcatchup
  have hafter : EpochAfter w.loop.lastEpoch transition.epoch := by
    simp only [GenerationLoop.commitDraftCatchupTransition, bind_eq_ok, failIf_eq_ok] at hcatchup
    obtain ⟨_, -, _, -, hcatchup⟩ := hcatchup
    rw [hmembers] at hcatchup
    simp only [bind_eq_ok, failIf_eq_ok, not_or, not_not] at hcatchup
    obtain ⟨_, ⟨-, -, -, hlast, hnext, -⟩, -⟩ := hcatchup
    obtain ⟨-, hnext⟩ := checkedAdd_eq_some.mp hnext
    refine ⟨by omega, fun last heq => ?_⟩
    have : some last = some transition.priorEpoch := heq.symm.trans hlast
    rw [Option.some.injEq] at this
    omega
  rw [h.lastEpoch] at hafter
  subst hloop'
  constructor
  · exact h.width
  · intro binding hbinding
    rcases h.bound binding hbinding with hstale | ⟨old, hunmoved, hold⟩
    · exact .inl hstale
    · exact .inr ⟨old, hunmoved.catchup hmembers hactive hbehind _, hold⟩
  · exact h.permitted
  · show (w.log ++ [Committed.catchup transition]).filterMap _ = List.range w.loop.nextRound
    rw [List.filterMap_append, h.rounds]
    exact List.append_nil _
  · show some transition.epoch = ((w.log ++ [Committed.catchup transition]).map _).getLast?
    rw [List.map_append, List.map_singleton, List.getLast?_concat]
    rfl
  · show ((w.log ++ [Committed.catchup transition]).map _).IsChain _
    rw [List.map_append]
    exact isChain_concat h.epochs hafter
  · intro committed hmem
    rcases List.mem_append.mp hmem with hmem | hmem
    · exact h.positive committed hmem
    · obtain rfl := List.mem_singleton.mp hmem
      exact hafter.1
  · intro m hm
    obtain rfl : m = member.caughtUp := List.mem_singleton.mp hm
    have hfits := h.fits member (hmembers ▸ List.mem_singleton_self _)
    exact ⟨hfits.1, hfits.1⟩

theorem step (h : w.Clocked) (hinv : w.Inv) {call : Call} (hstep : coordinator.step w call w') :
    w'.Clocked := by
  obtain ⟨hholds, hrun | ⟨rfl, -⟩⟩ := hstep
  · cases call with
    | bindRound round epoch roster =>
      obtain ⟨binding, hbind, hrun⟩ := bind_eq_ok.mp hrun
      obtain rfl := Except.ok.inj hrun
      exact h.bindRound hbind
    | preflightObservedRound binding selection epoch observations controls =>
      obtain ⟨permit, hpermit, hrun⟩ := bind_eq_ok.mp hrun
      obtain rfl := Except.ok.inj hrun
      obtain ⟨hbinding, hvalid, -⟩ := GenerationLoop.preflight_prepares hinv.distinct hpermit
      rcases hholds with hours | hforeign
      · exact h.preflight hours hbinding
      · exact absurd (GenerationLoop.validateBinding_ok hvalid).1 hforeign
    | commitPreflightedRound permit =>
      obtain ⟨⟨outcome, loop'⟩, hcommit, hrun⟩ := bind_eq_ok.mp hrun
      obtain rfl := Except.ok.inj hrun
      rcases hholds with hours | hforeign
      · exact h.commit hinv hours hcommit
      · obtain ⟨_, hvalid, -⟩ := bind_eq_ok.mp hcommit
        exact absurd (GenerationLoop.validateBinding_ok hvalid).1 hforeign
    | commitDraftCatchupTransition transition =>
      obtain ⟨loop', hcatchup, hrun⟩ := bind_eq_ok.mp hrun
      obtain rfl := Except.ok.inj hrun
      exact h.catchup hcatchup
  · exact h

end Clocked

end World

theorem reachable_clocked {w : World} (h : coordinator.Reachable w) : w.Clocked := by
  refine System.Reachable.induction ?_ ?_ h
  · rintro w ⟨fresh, selection, loop, hnew, hw⟩
    rw [hw]
    exact World.clocked_start hnew
  · exact fun w call w' hreach hclocked hstep => hclocked.step (reachable_inv hreach) hstep

/-- **Rounds and epochs.** In every run, with permits used late, twice or out of order: the
committed rounds are `0, 1, 2, …`; the epochs of all commits, rounds and catch-ups alike, are
consecutive and positive, and the coordinator's last epoch is that of its last commit; and no cursor
of a member leaves the context. -/
theorem clock_law {w : World} (h : coordinator.Reachable w) :
    w.log.filterMap (·.roundNumber) = List.range w.loop.nextRound ∧
      w.loop.lastEpoch = (w.log.map (·.epoch)).getLast? ∧
      ((w.log.map (·.epoch)).IsChain fun earlier later => later = earlier + 1) ∧
      (∀ committed ∈ w.log, 0 < committed.epoch) ∧
      ∀ member ∈ w.loop.members, member.targetCommittedTokens ≤ maxContextTokens ∧
        member.draftCommittedTokens ≤ maxContextTokens := by
  have hclocked := reachable_clocked h
  exact ⟨hclocked.rounds, hclocked.lastEpoch, hclocked.epochs, hclocked.positive, hclocked.fits⟩

theorem clock_law_afterRounds :
    afterCatchup.log.map (·.epoch) = [1, 2, 3] ∧ afterCatchup.loop.nextRound = 2 ∧
    afterPair.log.map (·.epoch) = [1, 2] ∧ afterPair.loop.nextRound = 2 ∧
    ∀ w ∈ [afterCatchup, afterPair],
      w.log.filterMap (·.roundNumber) = List.range w.loop.nextRound ∧
      w.loop.lastEpoch = (w.log.map (·.epoch)).getLast? ∧
      ((w.log.map (·.epoch)).IsChain fun earlier later => later = earlier + 1) ∧
      (∀ committed ∈ w.log, 0 < committed.epoch) ∧
      ∀ member ∈ w.loop.members, member.targetCommittedTokens ≤ maxContextTokens ∧
        member.draftCommittedTokens ≤ maxContextTokens := by
  refine ⟨by decide +kernel, by decide +kernel, by decide +kernel, by decide +kernel, ?_⟩
  intro w hw
  rcases List.mem_pair.mp hw with rfl | rfl
  · exact clock_law reachable_afterCatchup
  · exact clock_law reachable_afterPair

end SpeculativeLoop

end Ferric
