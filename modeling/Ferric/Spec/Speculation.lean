import Ferric.Lib.Outcome
import Ferric.Spec.Plan

/-!
# Greedy verification

The canonical greedy transition of `speculation.rs`. The target has chosen a token after every
input of the round; draft tokens are accepted as long as they are what the target would have chosen,
and the first choice that differs, or the one after the last draft token, is emitted after them.

## Main results

* `verifyGreedyRound_ensures`
-/

namespace Ferric

namespace Spec

/-- The observable result of one greedy verification round. -/
structure GreedyCommit where
  acceptedDraftTokens : ℕ
  emittedTokens : List Token
  targetCorrectionOrBonus : Token
  deriving DecidableEq

/-- Why a round cannot be verified. -/
inductive GreedyVerificationError where
  | missingTargetBonus
  | draftTokenCountOverflow
  | incorrectTargetChoiceCount (expected actual : ℕ)
  deriving DecidableEq

/-- The number of draft tokens before the first that differs from the target's choice. -/
def acceptedPrefix : List Token → List Token → ℕ
  | draft :: drafts, choice :: choices =>
    if draft = choice then acceptedPrefix drafts choices + 1 else 0
  | _, _ => 0

/-- Accept draft tokens greedily. -/
def verifyGreedyRound (draftTokens targetChoices : List Token) :
    Outcome GreedyVerificationError GreedyCommit := do
  failIf (targetChoices = []) .missingTargetBonus
  let expected ← orErr .draftTokenCountOverflow (checkedAdd 64 draftTokens.length 1)
  failIf (targetChoices.length ≠ expected)
    (.incorrectTargetChoiceCount expected targetChoices.length)
  let accepted := acceptedPrefix draftTokens targetChoices
  let correctionOrBonus ← orPanic targetChoices[accepted]?
  return { acceptedDraftTokens := accepted
           emittedTokens := draftTokens.take accepted ++ [correctionOrBonus]
           targetCorrectionOrBonus := correctionOrBonus }

variable {drafts choices : List Token}

theorem acceptedPrefix_le : acceptedPrefix drafts choices ≤ drafts.length := by
  induction drafts generalizing choices with
  | nil => simp [acceptedPrefix]
  | cons draft drafts ih =>
    cases choices with
    | nil => simp [acceptedPrefix]
    | cons choice choices =>
      rw [acceptedPrefix]
      split
      · simpa using ih
      · exact Nat.zero_le _

/-- Accepted tokens are what the target has chosen. -/
theorem getElem?_of_lt_acceptedPrefix {i : ℕ} (h : i < acceptedPrefix drafts choices) :
    drafts[i]? = choices[i]? := by
  induction drafts generalizing choices i with
  | nil => simp [acceptedPrefix] at h
  | cons draft drafts ih =>
    cases choices with
    | nil => simp [acceptedPrefix] at h
    | cons choice choices =>
      rw [acceptedPrefix] at h
      split at h
      · next heq =>
        cases i with
        | zero => simp [heq]
        | succ i => simpa using ih (by omega)
      · omega

/-- What a verified round emits. -/
structure Verified (drafts choices : List Token) (commit : GreedyCommit) : Prop where
  length : choices.length = drafts.length + 1
  accepted_le : commit.acceptedDraftTokens ≤ drafts.length
  agree : ∀ i < commit.acceptedDraftTokens, drafts[i]? = choices[i]?
  correction : choices[commit.acceptedDraftTokens]? = some commit.targetCorrectionOrBonus
  emitted : commit.emittedTokens =
    drafts.take commit.acceptedDraftTokens ++ [commit.targetCorrectionOrBonus]

/-- **Verification** of a round. -/
theorem verifyGreedyRound_ensures :
    Ensures (verifyGreedyRound drafts choices) (fun _ => True) (Verified drafts choices) := by
  rw [verifyGreedyRound]
  refine (ensures_failIf (Q := fun _ => True) (fun _ => trivial) fun _ => trivial).bind
    fun _ _ _ => ?_
  refine (ensures_orErr (Q := fun n => drafts.length + 1 = n) (fun _ => trivial)
    fun n hn => (checkedAdd_eq_some.mp hn).2).bind fun n _ hn => ?_
  refine (ensures_failIf (Q := fun _ => choices.length = drafts.length + 1) (fun _ => trivial)
    fun hok => hn ▸ not_not.mp hok).bind fun _ _ hlen => ?_
  have hle : acceptedPrefix drafts choices ≤ drafts.length := acceptedPrefix_le
  have hlt : acceptedPrefix drafts choices < choices.length := by omega
  simp only
  rw [List.getElem?_eq_getElem hlt, orPanic, ok_bind]
  exact ensures_pure.mpr ⟨hlen, hle, fun i hi => getElem?_of_lt_acceptedPrefix hi,
    List.getElem?_eq_getElem hlt, rfl⟩

/-- One choice more than there are drafts can be verified. -/
theorem exists_verifyGreedyRound (hlen : choices.length = drafts.length + 1)
    (hlt : choices.length < 2 ^ 64) :
    ∃ commit, verifyGreedyRound drafts choices = .ok commit := by
  have hle : acceptedPrefix drafts choices ≤ drafts.length := acceptedPrefix_le
  have hin : acceptedPrefix drafts choices < choices.length := by omega
  rw [verifyGreedyRound, failIf_of_not (fun hnil => by simp [hnil] at hlen), ok_bind, checkedAdd,
    if_pos (hlen ▸ hlt), orErr, ok_bind, failIf_of_not (not_not.mpr hlen), ok_bind]
  simp only
  rw [List.getElem?_eq_getElem hin, orPanic, ok_bind]
  exact ⟨_, rfl⟩

end Spec

end Ferric
