import Ferric.SpeculativeLoop.Model

/-!
# One member of the coordinator

What `prepare_member` promises about a member's round, and the life of a member on its own: it takes
part in rounds while it is active, each of which settles both cursors, and a catch-up moves a draft
cursor that is one token behind. No other member and no permit occurs in a life.

## Main definitions

* `Settles` — an outcome that a member may have in a round
* `Lived` — what a member can become, with its history

## Main results

* `prepareMember_settles`
* `Lived.cursors` — how far the cursors are apart
-/

namespace Ferric

namespace SpeculativeLoop

open Spec

/-! ### The outcome of a round -/

/-- What holds of the outcome of a member that took part in a round. -/
structure Settles (shape : PhysicalShape) (member : MemberState) (outcome : MemberRoundOutcome) :
    Prop where
  request : outcome.request = member.request
  accepted_le : outcome.acceptedDraftTokens ≤ shape.draftTokens
  length_raw : outcome.rawEmitted.tokens.length = outcome.acceptedDraftTokens + 1
  bonus_iff : (∃ token, outcome.verificationChoice = .bonus token) ↔
    outcome.acceptedDraftTokens = shape.draftTokens
  target : outcome.targetSettlement.commitEnd =
    member.targetCommittedTokens + (outcome.acceptedDraftTokens + 1)
  draft : outcome.draftSettlement.commitEnd =
    member.draftCommittedTokens +
      if outcome.acceptedDraftTokens < shape.draftTokens then outcome.acceptedDraftTokens + 1
      else shape.draftTokens
  policy : ∃ control, applyMemberPolicy member outcome.rawEmitted control =
    (outcome.published, outcome.status,
      member.generatedTokens + outcome.published.tokens.length)

/-- Every token that is published is counted. -/
theorem publishTokens_generated (policy : GenerationPolicy) (generated : ℕ) (raw : List Token) :
    (publishTokens policy generated raw).2.2 =
      generated + (publishTokens policy generated raw).1.length := by
  induction raw generalizing generated with
  | nil => rfl
  | cons token rest ih =>
    have hrest := ih (generated + 1)
    unfold publishTokens
    split_ifs
    · rfl
    · rfl
    · rfl
    · rw [hrest, List.length_cons]
      omega

theorem applyMemberPolicy_generated (member : MemberState) (raw : TokenBlock)
    (control : ControlAction) :
    (applyMemberPolicy member raw control).2.2 =
      member.generatedTokens + (applyMemberPolicy member raw control).1.tokens.length := by
  cases control with
  | cancel reason => rfl
  | continue_ => exact publishTokens_generated ..

/-- **What `prepare_member` prepares.** -/
theorem prepareMember_settles {shape : PhysicalShape} {lane memberIndex : ℕ} {member : MemberState}
    {observation : MemberObservation} {control : ControlAction} {prepared : PreparedMember}
    (h : prepareMember shape lane memberIndex member observation control = .ok prepared) :
    Settles shape member prepared.outcome ∧ prepared.memberIndex = memberIndex ∧
      prepared.generatedTokens =
        member.generatedTokens + prepared.outcome.published.tokens.length := by
  unfold prepareMember at h
  split at h
  · next accepted choice hsemantics =>
    simp only [bind_eq_ok, failIf_eq_ok, orPanic_eq_ok, checkedAdd_eq_some] at h
    obtain ⟨_, haccepted, _, hlength, actual, hactual, _, hchoice, targetEnd, -, draftEnd, -,
      targetCommit, ⟨-, rfl⟩, draftCommit, ⟨-, rfl⟩, h⟩ := h
    have hgenerated := applyMemberPolicy_generated member observation.emitted control
    obtain rfl := Except.ok.inj h
    refine ⟨?_, rfl, hgenerated⟩
    constructor
    · rfl
    · exact Nat.not_lt.mp haccepted
    · exact not_not.mp hlength
    · by_cases hfull : accepted = shape.draftTokens <;> simp [hfull]
    · rfl
    · rfl
    · refine ⟨control, Prod.ext rfl (Prod.ext rfl ?_)⟩
      exact hgenerated
  · cases h

/-- A member after a round in which it took part. -/
def MemberState.after (member : MemberState) (outcome : MemberRoundOutcome) : MemberState :=
  { member with
    status := outcome.status
    nextAnchor := outcome.verificationChoice.token
    targetCommittedTokens := outcome.targetSettlement.commitEnd
    draftCommittedTokens := outcome.draftSettlement.commitEnd
    generatedTokens := member.generatedTokens + outcome.published.tokens.length }

/-- A member after a catch-up. -/
def MemberState.caughtUp (member : MemberState) : MemberState :=
  { member with draftCommittedTokens := member.targetCommittedTokens }

/-! ### The life of a member -/

/-- What happens to a member. -/
inductive MemberEvent where
  | round (outcome : MemberRoundOutcome)
  | catchup
  deriving DecidableEq

namespace MemberEvent

/-- Every token that was drafted in the round was accepted. -/
def isFull (shape : PhysicalShape) : MemberEvent → Bool
  | .round outcome => outcome.acceptedDraftTokens = shape.draftTokens
  | .catchup => false

def isCatchup : MemberEvent → Bool
  | .round _ => false
  | .catchup => true

end MemberEvent

/-- The rounds of a history in which everything that was drafted was accepted. -/
def fullRounds (shape : PhysicalShape) (history : List MemberEvent) : ℕ :=
  history.countP (·.isFull shape)

def catchups (history : List MemberEvent) : ℕ := history.countP (·.isCatchup)

theorem fullRounds_concat (shape : PhysicalShape) (history : List MemberEvent)
    (event : MemberEvent) :
    fullRounds shape (history ++ [event]) =
      fullRounds shape history + if event.isFull shape then 1 else 0 := by
  rw [fullRounds, List.countP_append, List.countP_singleton, fullRounds]

theorem catchups_concat (history : List MemberEvent) (event : MemberEvent) :
    catchups (history ++ [event]) = catchups history + if event.isCatchup then 1 else 0 := by
  rw [catchups, List.countP_append, List.countP_singleton, catchups]

/-- What a member can become: its seed, its history and its state. -/
inductive Lived (shape : PhysicalShape) (seed : MemberState) :
    List MemberEvent → MemberState → Prop
  | start : Lived shape seed [] seed
  | round {history : List MemberEvent} {member : MemberState} {outcome : MemberRoundOutcome} :
    Lived shape seed history member → member.status = .active → Settles shape member outcome →
    Lived shape seed (history ++ [.round outcome]) (member.after outcome)
  | catchup {history : List MemberEvent} {member : MemberState} :
    Lived shape seed history member → member.status = .active →
    member.draftCommittedTokens + 1 = member.targetCommittedTokens →
    Lived shape seed (history ++ [.catchup]) member.caughtUp

namespace Lived

variable {shape : PhysicalShape} {seed member : MemberState} {history : List MemberEvent}

theorem request_eq (h : Lived shape seed history member) : member.request = seed.request := by
  induction h with
  | start => rfl
  | round _ _ _ ih => exact ih
  | catchup _ _ _ ih => exact ih

/-- **The cursors of a member.** A fully accepted round sets the draft cursor one token back, since
the target consumes its bonus and the draft does not; a catch-up makes one token good; and every
other round moves both alike. -/
theorem cursors (h : Lived shape seed history member) :
    member.draftCommittedTokens + seed.targetCommittedTokens + fullRounds shape history =
      member.targetCommittedTokens + seed.draftCommittedTokens + catchups history := by
  induction h with
  | start => simp [fullRounds, catchups, Nat.add_comm]
  | @round history member outcome _ _ hsettles ih =>
    have htarget := hsettles.target
    have hdraft := hsettles.draft
    have hle := hsettles.accepted_le
    have hcatchups : catchups (history ++ [.round outcome]) = catchups history := by
      simp [catchups_concat, MemberEvent.isCatchup]
    rw [hcatchups, fullRounds_concat]
    show outcome.draftSettlement.commitEnd + _ + _ = outcome.targetSettlement.commitEnd + _ + _
    by_cases hfull : outcome.acceptedDraftTokens = shape.draftTokens
    · rw [if_neg (by omega)] at hdraft
      rw [if_pos (by simpa [MemberEvent.isFull] using hfull)]
      omega
    · rw [if_pos (by omega)] at hdraft
      rw [if_neg (by simpa [MemberEvent.isFull] using hfull)]
      omega
  | @catchup history member _ _ hbehind ih =>
    have hfull : fullRounds shape (history ++ [.catchup]) = fullRounds shape history := by
      simp [fullRounds_concat, MemberEvent.isFull]
    have hcatchups : catchups (history ++ [.catchup]) = catchups history + 1 := by
      simp [catchups_concat, MemberEvent.isCatchup]
    rw [hfull, hcatchups]
    show member.targetCommittedTokens + _ + _ = member.targetCommittedTokens + _ + _
    omega

/-- A draft cursor that does not start ahead of the target cursor never gets ahead of it. -/
theorem draft_le_target (h : Lived shape seed history member)
    (hseed : seed.draftCommittedTokens ≤ seed.targetCommittedTokens) :
    member.draftCommittedTokens ≤ member.targetCommittedTokens := by
  induction h with
  | start => exact hseed
  | @round _ member outcome _ _ hsettles ih =>
    have hdraft := hsettles.draft
    show outcome.draftSettlement.commitEnd ≤ outcome.targetSettlement.commitEnd
    rw [hdraft, hsettles.target]
    have hle := hsettles.accepted_le
    split_ifs <;> omega
  | catchup => exact Nat.le_refl _

end Lived

end SpeculativeLoop

end Ferric
