import Ferric.SpeculativeLoop.Run

/-!
# Where a round begins

The two cursors of a member that starts with both alike are apart by the fully accepted rounds that
no catch-up has made good. `bind_round` does not look at their distance, so a round that follows a
fully accepted one without a catch-up is bound to a draft cursor behind the target cursor.

## Main results

* `binding_cursors` — the distance, in every run
* `binding_ne_of_full_round` — a run that binds unequal cursors
-/

namespace Ferric

namespace SpeculativeLoop

open Spec

/-- **The cursors of every binding.** -/
theorem binding_cursors {w : World} (h : coordinator.Reachable w)
    (hseeds : ∀ seed ∈ w.seeds, seed.targetCommittedTokens = seed.draftCommittedTokens)
    {round epoch : ℕ} {roster : List RequestId} {binding : RoundBinding}
    (hbind : w.loop.bindRound round epoch roster = .ok binding) :
    ∀ input ∈ binding.members,
      input.draftPreCommitted ≤ input.targetPreCommitted ∧
      input.targetPreCommitted + catchups (w.history input.request) =
        input.draftPreCommitted + fullRounds w.loop.shape (w.history input.request) ∧
      (input.targetPreCommitted = input.draftPreCommitted ↔
        fullRounds w.loop.shape (w.history input.request) =
          catchups (w.history input.request)) := by
  intro input hinput
  rw [GenerationLoop.bindRound_members hbind] at hinput
  obtain ⟨member, hmember, rfl⟩ := List.mem_map.mp hinput
  obtain ⟨seed, hseed, hlived⟩ :=
    (reachable_inv h).lived (GenerationLoop.mem_active.mp hmember).1
  have heq : seed.state.targetCommittedTokens = seed.state.draftCommittedTokens :=
    hseeds seed hseed
  have hcursors := hlived.cursors
  have hle := hlived.draft_le_target heq.ge
  show member.draftCommittedTokens ≤ member.targetCommittedTokens ∧
    member.targetCommittedTokens + catchups (w.history member.request) =
      member.draftCommittedTokens + fullRounds w.loop.shape (w.history member.request) ∧
    (member.targetCommittedTokens = member.draftCommittedTokens ↔
      fullRounds w.loop.shape (w.history member.request) =
        catchups (w.history member.request))
  refine ⟨hle, by omega, ?_⟩
  constructor
  · intro hsame
    omega
  · intro hsame
    omega

/-! ### A round that skips a draft position -/

/-- A member with equal cursors. -/
def levelSeed : MemberSeed where
  request := ⟨0, 1⟩
  roundAnchor := 1
  targetCommittedTokens := 10
  draftCommittedTokens := 10
  policy := ⟨100, [], by decide, by decide, by decide, rfl⟩

def singleShape : PhysicalShape := ⟨⟨.target8B, .speculative, .speculativeS1K4C8192⟩, 1, 4⟩

def levelLoop : GenerationLoop := ⟨1, singleShape, [levelSeed.state], 0, none⟩

def firstBinding : RoundBinding := ⟨1, singleShape, 0, 1, [levelSeed.state.input]⟩

/-- All four drafted tokens are accepted. -/
def fullObservation : MemberObservation :=
  ⟨⟨0, 1⟩, .speculative 4 6, ⟨[2, 3, 4, 5, 6], by decide⟩⟩

def fullPermit : PreflightedRound where
  binding := firstBinding
  updates := [⟨0, 5⟩]
  outcomes := [{
    request := ⟨0, 1⟩
    acceptedDraftTokens := 4
    rawEmitted := ⟨[2, 3, 4, 5, 6], by decide⟩
    published := ⟨[2, 3, 4, 5, 6], by decide⟩
    verificationChoice := .bonus 6
    targetSettlement := ⟨.target8B, 10, 15, 15, 0⟩
    draftSettlement := ⟨.draft06B, 10, 14, 14, 0⟩
    status := .active
    physicalDisposition := .continue_
    nextDraftAnchor := some 6 }]
  nextActiveRoster := [⟨0, 1⟩]

def fullRound : List Call :=
  [.bindRound 0 1 [⟨0, 1⟩],
    .preflightObservedRound firstBinding singleShape.selection 1 [fullObservation]
      [⟨⟨0, 1⟩, .continue_⟩],
    .commitPreflightedRound fullPermit]

/-- The coordinator after the round. -/
def afterFullRound : World :=
  ((World.start [levelSeed] levelLoop).runs fullRound).get (by decide +kernel)

theorem reachable_afterFullRound : coordinator.Reachable afterFullRound := by
  have hstart : coordinator.Reachable (World.start [levelSeed] levelLoop) :=
    .init ⟨some 1, singleShape.selection, levelLoop, by decide +kernel, rfl⟩
  exact reachable_runs hstart (Option.some_get _).symm

/-- The next round is bound to unequal cursors. -/
theorem binding_ne_of_full_round :
    ¬ ∀ w, coordinator.Reachable w →
      (∀ seed ∈ w.seeds, seed.targetCommittedTokens = seed.draftCommittedTokens) →
      ∀ round epoch roster binding, w.loop.bindRound round epoch roster = .ok binding →
        ∀ input ∈ binding.members, input.targetPreCommitted = input.draftPreCommitted := by
  intro h
  have hbind : afterFullRound.loop.bindRound 1 2 [⟨0, 1⟩] =
      .ok ⟨1, singleShape, 1, 2, [⟨⟨0, 1⟩, 6, 15, 14⟩]⟩ := by decide +kernel
  have heq := h afterFullRound reachable_afterFullRound (by decide +kernel) _ _ _ _ hbind
    ⟨⟨0, 1⟩, 6, 15, 14⟩ List.mem_cons_self
  exact absurd heq (by decide)

/-- The distance in that run is the one round that nothing made good. -/
theorem binding_cursors_afterFullRound :
    14 ≤ 15 ∧
      15 + catchups (afterFullRound.history ⟨0, 1⟩) =
        14 + fullRounds afterFullRound.loop.shape (afterFullRound.history ⟨0, 1⟩) ∧
      (15 = 14 ↔ fullRounds afterFullRound.loop.shape (afterFullRound.history ⟨0, 1⟩) =
        catchups (afterFullRound.history ⟨0, 1⟩)) := by
  have hbind : afterFullRound.loop.bindRound 1 2 [⟨0, 1⟩] =
      .ok ⟨1, singleShape, 1, 2, [⟨⟨0, 1⟩, 6, 15, 14⟩]⟩ := by decide +kernel
  exact binding_cursors reachable_afterFullRound (by decide +kernel) hbind
    ⟨⟨0, 1⟩, 6, 15, 14⟩ (List.mem_singleton_self _)

/-! ### A run with a catch-up, and a run of two members -/

/-- A member that stops at the token 8. -/
def stopSeed : MemberSeed :=
  { levelSeed with policy := ⟨100, [8], by decide, by decide, by decide, rfl⟩ }

def stopLoop : GenerationLoop := ⟨1, singleShape, [stopSeed.state], 0, none⟩

/-- The draft model makes up for the last token of the full round. -/
def catchupTransition : DraftCatchupTransition :=
  ⟨1, singleShape.selection, ⟨0, 1⟩, 0, 1, 2, 14, 15, 5, 3, 4⟩

def catchupRun : Option World := do
  let w ← (World.start [stopSeed] stopLoop).round 1 [fullObservation] [⟨⟨0, 1⟩, .continue_⟩]
  let w ← w.runs [.commitDraftCatchupTransition catchupTransition]
  w.round 3 [⟨⟨0, 1⟩, .speculative 2 9, ⟨[7, 8, 9], by decide⟩⟩] [⟨⟨0, 1⟩, .continue_⟩]

/-- A full round, a catch-up, and a round with the stop token. -/
def afterCatchup : World := catchupRun.get (by decide +kernel)

theorem reachable_afterCatchup : coordinator.Reachable afterCatchup := by
  have hrun : catchupRun = some afterCatchup := (Option.some_get _).symm
  rw [catchupRun] at hrun
  obtain ⟨w₁, h₁, h⟩ := Option.bind_eq_some_iff.mp hrun
  obtain ⟨w₂, h₂, h₃⟩ := Option.bind_eq_some_iff.mp h
  have hstart : coordinator.Reachable (World.start [stopSeed] stopLoop) :=
    .init ⟨some 1, singleShape.selection, stopLoop, by decide +kernel, rfl⟩
  exact reachable_round (reachable_runs (reachable_round hstart h₁) h₂) h₃

/-- Two members, of which the first takes three tokens. -/
def pairSeeds : List MemberSeed :=
  [{ levelSeed with policy := ⟨3, [], by decide, by decide, by decide, rfl⟩ },
    { levelSeed with request := ⟨1, 1⟩ }]

def pairShape : PhysicalShape := ⟨⟨.target8B, .speculative, .speculativeS8K4C8192⟩, 8, 4⟩

def pairLoop : GenerationLoop := ⟨1, pairShape, pairSeeds.map (·.state), 0, none⟩

def pairRun : Option World := do
  let w ← (World.start pairSeeds pairLoop).round 1
    [fullObservation, ⟨⟨1, 1⟩, .speculative 1 13, ⟨[12, 13], by decide⟩⟩]
    [⟨⟨0, 1⟩, .continue_⟩, ⟨⟨1, 1⟩, .continue_⟩]
  w.round 2 [⟨⟨1, 1⟩, .speculative 0 14, ⟨[14], by decide⟩⟩] [⟨⟨1, 1⟩, .cancel .client⟩]

/-- The first member is completed by the first round, the second one cancelled with the next. -/
def afterPair : World := pairRun.get (by decide +kernel)

theorem reachable_afterPair : coordinator.Reachable afterPair := by
  have hrun : pairRun = some afterPair := (Option.some_get _).symm
  rw [pairRun] at hrun
  obtain ⟨w₁, h₁, h₂⟩ := Option.bind_eq_some_iff.mp hrun
  have hstart : coordinator.Reachable (World.start pairSeeds pairLoop) :=
    .init ⟨some 1, pairShape.selection, pairLoop, by decide +kernel, rfl⟩
  exact reachable_round (reachable_round hstart h₁) h₂

end SpeculativeLoop

end Ferric
