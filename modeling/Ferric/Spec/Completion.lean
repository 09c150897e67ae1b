import Ferric.Lib.Arrays
import Ferric.Spec.Speculation

/-!
# Compact completion records

`m1_completion.rs` and `speculative_completion.rs`: a record that a device has written is checked
against the step it was written for, and for a speculative round against greedy verification.

`u8` fields, `u32` tokens and `u64` epochs are natural numbers.

## Main results

* `validateCompactCompletion_eq_ok` — the records that pass the check
* `verifySpeculativeCompletion_eq_ok` — the records of a verified round
-/

namespace Ferric

namespace Spec

/-- `M1_MAX_COMPLETION_TOKENS` -/
def maxCompletionTokens : ℕ := 17

/-- `CompactCompletionRecord` -/
structure CompactCompletionRecord where
  request : RequestId
  epoch : ℕ
  planId : Identity
  acceptedDraftTokens : ℕ
  emittedTokenCount : ℕ
  emittedTokens : Vector Token maxCompletionTokens
  deriving DecidableEq

/-- `CompactCompletionError`, as far as records are concerned. -/
inductive CompactCompletionError where
  | expectedPlanIdentityAbsent
  | requestMismatch
  | epochMismatch
  | planIdentityMismatch
  | draftLengthOutOfRange
  | acceptedLengthOutOfRange
  | emittedLengthMismatch
  | tokenOutOfRange
  | nonzeroUnusedToken
  deriving DecidableEq

/-- `validate_compact_completion` -/
def validateCompactCompletion (record : CompactCompletionRecord) (expectedRequest : RequestId)
    (expectedEpoch : ℕ) (expectedPlanId : Identity) (draftTokenCount : ℕ) :
    Outcome CompactCompletionError Unit := do
  failIf (!expectedPlanId.isPresent) .expectedPlanIdentityAbsent
  failIf (record.request.slot ≠ expectedRequest.slot ∨
    record.request.generation ≠ expectedRequest.generation) .requestMismatch
  failIf (record.epoch ≠ expectedEpoch) .epochMismatch
  failIf (record.planId ≠ expectedPlanId) .planIdentityMismatch
  failIf (draftTokenCount > 16) .draftLengthOutOfRange
  failIf (record.acceptedDraftTokens > draftTokenCount) .acceptedLengthOutOfRange
  let expectedEmitted ← orPanic (checkedAdd 8 record.acceptedDraftTokens 1)
  failIf (record.emittedTokenCount ≠ expectedEmitted ∨
    record.emittedTokenCount > maxCompletionTokens) .emittedLengthMismatch
  (List.range' 0 record.emittedTokenCount).forM fun index => do
    failIf ((← entry record.emittedTokens index) ≥ vocabularySize) .tokenOutOfRange
  (List.range' record.emittedTokenCount (maxCompletionTokens - record.emittedTokenCount)).forM
    fun index => do failIf ((← entry record.emittedTokens index) ≠ 0) .nonzeroUnusedToken

/-- `SpeculativeCompletionError` -/
inductive SpeculativeCompletionError where
  | draftLengthOutOfRange
  | completion (error : CompactCompletionError)
  | greedy (error : GreedyVerificationError)
  | acceptedLengthMismatch
  | emittedTokenMismatch
  deriving DecidableEq

/-- `verify_speculative_completion` -/
def verifySpeculativeCompletion (record : CompactCompletionRecord) (expectedRequest : RequestId)
    (expectedEpoch : ℕ) (expectedPlanId : Identity) (draftTokens targetChoices : List Token) :
    Outcome SpeculativeCompletionError GreedyCommit := do
  failIf (draftTokens.length > 16) .draftLengthOutOfRange
  let draftTokenCount := draftTokens.length
  mapErr .completion (validateCompactCompletion record expectedRequest expectedEpoch expectedPlanId
    draftTokenCount)
  let commit ← mapErr .greedy (verifyGreedyRound draftTokens targetChoices)
  failIf (record.acceptedDraftTokens ≠ commit.acceptedDraftTokens) .acceptedLengthMismatch
  let commitTokens := commit.emittedTokens
  failIf (record.emittedTokenCount ≠ commitTokens.length) .emittedTokenMismatch
  (List.range' 0 record.emittedTokenCount).forM fun index => do
    failIf ((← entry record.emittedTokens index) ≠ (← orPanic commitTokens[index]?))
      .emittedTokenMismatch
  return commit

/-! ### Records that are accepted -/

/-- The token slots of a record: the tokens, and zeros behind them. -/
def tokenSlots (tokens : List Token) : Vector Token maxCompletionTokens :=
  .ofFn fun i => tokens.getD i 0

theorem getElem?_tokenSlots {tokens : List Token} {i : ℕ} (h : i < maxCompletionTokens) :
    (tokenSlots tokens)[i]? = some (tokens.getD i 0) := by
  rw [tokenSlots, Vector.getElem?_eq_getElem h, Vector.getElem_ofFn]

/-- The slots hold some tokens and zeros behind them. -/
theorem eq_tokenSlots_iff {slots : Vector Token maxCompletionTokens} {tokens : List Token} :
    slots = tokenSlots tokens ↔
      ∀ i < maxCompletionTokens, slots[i]? = some (tokens.getD i 0) := by
  constructor
  · rintro rfl i hi
    exact getElem?_tokenSlots hi
  · intro h
    refine Vector.ext fun i hi => ?_
    have hslot := h i hi
    rw [Vector.getElem?_eq_getElem hi] at hslot
    rw [Option.some.inj hslot, tokenSlots, Vector.getElem_ofFn]

/-- **The check of a record.** -/
theorem validateCompactCompletion_eq_ok {record : CompactCompletionRecord} {request : RequestId}
    {epoch : ℕ} {planId : Identity} {draftTokenCount : ℕ} :
    validateCompactCompletion record request epoch planId draftTokenCount = .ok () ↔
      planId.isPresent ∧ draftTokenCount ≤ 16 ∧ record.request = request ∧ record.epoch = epoch ∧
        record.planId = planId ∧ record.acceptedDraftTokens ≤ draftTokenCount ∧
        record.emittedTokenCount = record.acceptedDraftTokens + 1 ∧
        (∀ i < record.emittedTokenCount, ∀ t ∈ record.emittedTokens[i]?, t < vocabularySize) ∧
        ∀ i, record.emittedTokenCount ≤ i → i < maxCompletionTokens →
          record.emittedTokens[i]? = some 0 := by
  rw [validateCompactCompletion]
  simp only [bind_eq_ok, failIf_eq_ok, orPanic_eq_ok, checkedAdd_eq_some]
  constructor
  · rintro ⟨_, hpresent, _, hrequest, _, hepoch, _, hplan, _, hdraft, _, haccepted, _, ⟨-, rfl⟩, _,
      hcount, _, hlive, hunused⟩
    obtain ⟨hcount, hmax⟩ := not_or.mp hcount
    rw [forM_entry_eq_ok (by omega)] at hlive
    rw [forM_entry_eq_ok (by omega)] at hunused
    refine ⟨by simpa using hpresent, by omega, ?_, by omega, not_not.mp hplan, by omega, by omega,
      fun i hi t ht => ?_, fun i hle hlt => ?_⟩
    · obtain ⟨hslot, hgeneration⟩ := not_or.mp hrequest
      exact (RequestId.mk.injEq ..).mpr ⟨not_not.mp hslot, not_not.mp hgeneration⟩
    · exact Nat.not_le.mp (hlive i (Nat.zero_le i) (by omega) t ht)
    · have hentry : record.emittedTokens[i]? = some record.emittedTokens[i] :=
        Vector.getElem?_eq_getElem hlt
      rw [hentry, not_not.mp (hunused i hle (by omega) _ hentry)]
  · rintro ⟨hpresent, hdraft, rfl, rfl, rfl, haccepted, hcount, hlive, hunused⟩
    have hmax : record.emittedTokenCount ≤ maxCompletionTokens := by
      rw [maxCompletionTokens]
      omega
    refine ⟨(), by simpa using hpresent, (), by simp, (), by simp, (), by simp, (), by omega, (),
      by omega, _, ⟨by omega, rfl⟩, (), by omega, (), ?_, ?_⟩
    · rw [forM_entry_eq_ok (by omega)]
      exact fun i _ hlt t ht => Nat.not_le.mpr (hlive i (by omega) t ht)
    · rw [forM_entry_eq_ok (by omega)]
      intro i hle hlt t ht
      rw [hunused i hle (by omega)] at ht
      exact not_not.mpr (Option.some.inj ht).symm

/-- A record that passes is determined by its tokens. -/
theorem validateCompactCompletion_slots {record : CompactCompletionRecord} {request : RequestId}
    {epoch : ℕ} {planId : Identity} {draftTokenCount : ℕ} {tokens : List Token}
    (hdraft : draftTokenCount ≤ 16) (hlen : tokens.length ≤ draftTokenCount + 1) :
    (validateCompactCompletion record request epoch planId draftTokenCount = .ok () ∧
        record.acceptedDraftTokens + 1 = tokens.length ∧
        ∀ i < record.emittedTokenCount, record.emittedTokens[i]? = tokens[i]?) ↔
      planId.isPresent ∧ 0 < tokens.length ∧ (∀ t ∈ tokens, t < vocabularySize) ∧
        record = ⟨request, epoch, planId, tokens.length - 1, tokens.length, tokenSlots tokens⟩ := by
  have hmax : tokens.length ≤ maxCompletionTokens := by
    rw [maxCompletionTokens]
    omega
  rw [validateCompactCompletion_eq_ok]
  constructor
  · rintro ⟨⟨hpresent, -, hrequest, hepoch, hplan, haccepted, hcount, hlive, hunused⟩, hlast,
      hslots⟩
    have hcount' : record.emittedTokenCount = tokens.length := hcount.trans hlast
    refine ⟨hpresent, by omega, ?_, ?_⟩
    · intro t ht
      obtain ⟨i, hi, rfl⟩ := List.getElem_of_mem ht
      refine hlive i (by omega) _ ?_
      rw [hslots i (by omega), List.getElem?_eq_getElem hi]
      rfl
    · have hall : record.emittedTokens = tokenSlots tokens := by
        refine eq_tokenSlots_iff.mpr fun i hi => ?_
        rcases Nat.lt_or_ge i tokens.length with hlt | hge
        · rw [hslots i (by omega), List.getD_eq_getElem?_getD, List.getElem?_eq_getElem hlt]
          rfl
        · rw [hunused i (by omega) hi, List.getD_eq_getElem?_getD, List.getElem?_eq_none hge]
          rfl
      rw [← hrequest, ← hepoch, ← hplan, ← hall, ← hcount', ← Nat.eq_sub_of_add_eq hcount.symm]
  · rintro ⟨hpresent, hpos, hlive, rfl⟩
    refine ⟨⟨hpresent, hdraft, rfl, rfl, rfl, by simp only; omega, by simp only; omega, ?_, ?_⟩,
      by simp only; omega, ?_⟩
    · intro i hi t ht
      have hi : i < tokens.length := hi
      rw [getElem?_tokenSlots (by omega), List.getD_eq_getElem?_getD,
        List.getElem?_eq_getElem hi] at ht
      obtain rfl := Option.some.inj ht
      exact hlive _ (List.getElem_mem hi)
    · intro i hle hi
      rw [getElem?_tokenSlots hi, List.getD_eq_getElem?_getD, List.getElem?_eq_none hle]
      rfl
    · intro i hi
      have hi : i < tokens.length := hi
      rw [getElem?_tokenSlots (by omega), List.getD_eq_getElem?_getD, List.getElem?_eq_getElem hi]
      rfl

/-- What a round publishes: the accepted drafts, and the target's choice behind them. -/
def published (drafts choices : List Token) : List Token :=
  drafts.take (acceptedPrefix drafts choices) ++ (choices[acceptedPrefix drafts choices]?).toList

variable {drafts choices : List Token}

theorem length_published (h : choices.length = drafts.length + 1) :
    (published drafts choices).length = acceptedPrefix drafts choices + 1 := by
  have hle : acceptedPrefix drafts choices ≤ drafts.length := acceptedPrefix_le
  have hlt : acceptedPrefix drafts choices < choices.length := by omega
  rw [published, List.getElem?_eq_getElem hlt, List.length_append, List.length_take,
    Nat.min_eq_left hle]
  rfl

/-- The accepted drafts are the longest common beginning of the drafts and the choices. -/
theorem take_eq_take_iff (h : choices.length = drafts.length + 1) {b : ℕ} (hb : b ≤ drafts.length) :
    drafts.take b = choices.take b ↔ b ≤ acceptedPrefix drafts choices := by
  induction drafts generalizing choices b with
  | nil =>
    obtain rfl := Nat.le_zero.mp hb
    exact ⟨fun _ => Nat.zero_le _, fun _ => rfl⟩
  | cons draft drafts ih =>
    cases choices with
    | nil => cases h
    | cons choice choices =>
      cases b with
      | zero => exact ⟨fun _ => Nat.zero_le _, fun _ => rfl⟩
      | succ b =>
        have hb : b ≤ drafts.length := Nat.le_of_succ_le_succ hb
        rw [List.take_succ_cons, List.take_succ_cons, List.cons.injEq, acceptedPrefix,
          ih (Nat.succ.inj h) hb]
        split
        · next heq => exact ⟨fun hboth => Nat.succ_le_succ hboth.2,
            fun hle => ⟨heq, Nat.le_of_succ_le_succ hle⟩⟩
        · next hne => exact ⟨fun hboth => absurd hboth.1 hne, fun hle => absurd hle (by omega)⟩

theorem verifyGreedyRound_published (h : choices.length = drafts.length + 1)
    (hlt : choices.length < 2 ^ 64) :
    ∃ commit, verifyGreedyRound drafts choices = .ok commit ∧
      commit.acceptedDraftTokens = acceptedPrefix drafts choices ∧
      commit.emittedTokens = published drafts choices ∧
      choices[acceptedPrefix drafts choices]? = some commit.targetCorrectionOrBonus := by
  have hle : acceptedPrefix drafts choices ≤ drafts.length := acceptedPrefix_le
  have hin : acceptedPrefix drafts choices < choices.length := by omega
  refine ⟨⟨acceptedPrefix drafts choices, published drafts choices,
    choices[acceptedPrefix drafts choices]⟩, ?_, rfl, rfl, List.getElem?_eq_getElem hin⟩
  rw [verifyGreedyRound, failIf_of_not (fun hnil => by simp [hnil] at h), ok_bind, checkedAdd,
    if_pos (h ▸ hlt), orErr, ok_bind, failIf_of_not (not_not.mpr h), ok_bind]
  simp only
  rw [List.getElem?_eq_getElem hin, orPanic, ok_bind, published, List.getElem?_eq_getElem hin]
  rfl

/-- The last loop compares the slots with the tokens of the commit. -/
theorem forM_published_eq_ok {e : SpeculativeCompletionError}
    {slots : Vector Token maxCompletionTokens} {tokens : List Token}
    (h : tokens.length ≤ maxCompletionTokens) :
    ((List.range' 0 tokens.length).forM fun index => do
        failIf ((← entry slots index) ≠ (← orPanic tokens[index]?)) e) = .ok () ↔
      ∀ i < tokens.length, slots[i]? = tokens[i]? := by
  have hstep : ∀ {i : ℕ} (_ : i < tokens.length), (do
      failIf ((← entry slots i) ≠ (← orPanic tokens[i]?)) e) = .ok () ↔ slots[i]? = tokens[i]? := by
    intro i hi
    have hslot : slots[i]? = some slots[i] := Vector.getElem?_eq_getElem (by omega)
    have htoken : tokens[i]? = some tokens[i] := List.getElem?_eq_getElem hi
    rw [entry_eq_ok.mpr hslot, ok_bind, htoken, orPanic, ok_bind, failIf_eq_ok, not_not, hslot,
      Option.some_inj]
  rw [forM_eq_ok]
  constructor
  · exact fun hall i hi => (hstep hi).mp (hall i (List.mem_range'_1.mpr ⟨Nat.zero_le i, by omega⟩))
  · intro hall i hi
    have hi : i < tokens.length := by
      have hlt := (List.mem_range'_1.mp hi).2
      omega
    exact (hstep hi).mpr (hall i hi)

/-- A speculative round that passes is verified greedily. -/
theorem verifyGreedyRound_of_completion {record : CompactCompletionRecord} {request : RequestId}
    {epoch : ℕ} {planId : Identity} {commit : GreedyCommit}
    (h : verifySpeculativeCompletion record request epoch planId drafts choices = .ok commit) :
    verifyGreedyRound drafts choices = .ok commit := by
  rw [verifySpeculativeCompletion] at h
  simp only [bind_eq_ok, mapErr_eq_ok] at h
  obtain ⟨_, -, _, -, verified, hverify, _, -, _, -, _, -, hcommit⟩ := h
  rw [hverify, Except.ok.inj hcommit]

/-- **The check of a speculative round.** -/
theorem verifySpeculativeCompletion_eq_ok {record : CompactCompletionRecord} {request : RequestId}
    {epoch : ℕ} {planId : Identity} (hdraft : drafts.length ≤ 16)
    (h : choices.length = drafts.length + 1) :
    (∃ commit, verifySpeculativeCompletion record request epoch planId drafts choices =
        .ok commit) ↔
      planId.isPresent ∧ (∀ t ∈ published drafts choices, t < vocabularySize) ∧
        record = ⟨request, epoch, planId, acceptedPrefix drafts choices,
          acceptedPrefix drafts choices + 1, tokenSlots (published drafts choices)⟩ := by
  have hlen := length_published h
  have hle : acceptedPrefix drafts choices ≤ drafts.length := acceptedPrefix_le
  obtain ⟨commit, hverify, haccepted, hemitted, -⟩ := verifyGreedyRound_published h (by omega)
  have hslots : (validateCompactCompletion record request epoch planId drafts.length = .ok () ∧
      record.acceptedDraftTokens + 1 = (published drafts choices).length ∧
      ∀ i < record.emittedTokenCount,
        record.emittedTokens[i]? = (published drafts choices)[i]?) ↔ _ :=
    validateCompactCompletion_slots hdraft (by omega)
  rw [hlen, Nat.add_sub_cancel] at hslots
  have hmax : (published drafts choices).length ≤ maxCompletionTokens := by
    rw [hlen, maxCompletionTokens]
    omega
  constructor
  · rintro ⟨commit', hrun⟩
    rw [verifySpeculativeCompletion] at hrun
    simp only [bind_eq_ok, failIf_eq_ok, mapErr_eq_ok] at hrun
    obtain ⟨_, -, _, hvalidate, _, hcommit, _, hsame, _, hcount, _, hloop, -⟩ := hrun
    obtain rfl := Except.ok.inj (hverify.symm.trans hcommit)
    have hcount : record.emittedTokenCount = (published drafts choices).length := by
      rw [← hemitted]
      exact not_not.mp hcount
    rw [hemitted, hcount, forM_published_eq_ok hmax] at hloop
    obtain ⟨hpresent, -, hlive, hrecord⟩ := hslots.mp ⟨hvalidate, by omega, fun i hi =>
      hloop i (by omega)⟩
    exact ⟨hpresent, hlive, hrecord⟩
  · rintro ⟨hpresent, hlive, hrecord⟩
    obtain ⟨hvalidate, hsame, htokens⟩ := hslots.mpr ⟨hpresent, Nat.succ_pos _, hlive, hrecord⟩
    have hcount : record.emittedTokenCount = (published drafts choices).length := by
      rw [hrecord, hlen]
    have hloop : ((List.range' 0 record.emittedTokenCount).forM fun index => do
        failIf ((← entry record.emittedTokens index) ≠ (← orPanic commit.emittedTokens[index]?))
          SpeculativeCompletionError.emittedTokenMismatch) = .ok () := by
      rw [hcount, hemitted]
      exact (forM_published_eq_ok hmax).mpr fun i hi => htokens i (by omega)
    refine ⟨commit, ?_⟩
    rw [verifySpeculativeCompletion, failIf_of_not (by omega), ok_bind]
    exact bind_eq_ok.mpr ⟨(), by rw [hvalidate]; rfl, bind_eq_ok.mpr ⟨commit, by rw [hverify]; rfl,
      bind_eq_ok.mpr ⟨(), failIf_of_not (by omega), bind_eq_ok.mpr ⟨(),
        failIf_of_not (by rw [hemitted]; omega), bind_eq_ok.mpr ⟨(), hloop, rfl⟩⟩⟩⟩⟩

end Spec

end Ferric
