import Ferric.CompletionWire.Decode

/-!
# One record for each step

The check of a completion record accepts one string of bytes for a step at most. For a speculative
round it is the record of the greedy verification, and for a direct step the record of the one token
that was expected. A step whose request or plan identity no record can carry has none.

## Main results

* `accepted_speculative_iff`, `accepted_direct_iff`
* `accepted_iff_canonical` — both, with the layout of the bytes
-/

namespace Ferric

namespace CompletionWire

open Spec

/-- The 120 bytes for a plan and what it emits: the header, two zero bytes, the tokens, and zeros in
the slots behind them. -/
def canonicalBytes (plan : StepPlan) (tokens : List Token) : List UInt8 :=
  le 4 plan.request.slot ++ le 4 plan.request.generation ++ le 8 plan.completionEpoch ++
    plan.planId.bytes.toList ++ le 1 (tokens.length - 1) ++ le 1 tokens.length ++ [0, 0] ++
    tokens.flatMap (le 4) ++ List.replicate (4 * (17 - tokens.length)) 0

/-- A plan whose request and identity a record may carry. -/
structure StepPlan.Admissible (plan : StepPlan) : Prop where
  slot : plan.request.slot < maxActiveSequences
  generation : plan.request.generation ≠ 0
  planId : plan.planId.isPresent

/-- `check_inert_completion_record` returns a checked record. -/
def Accepted (bytes : List UInt8) (expectation : Expectation) : Prop :=
  ∃ checked, checkInertCompletionRecord bytes expectation = .ok checked

/-! ### The record of some tokens -/

/-- The record of a plan and what it emits. -/
def recordOf (plan : StepPlan) (tokens : List Token) : CompactCompletionRecord :=
  ⟨plan.request, plan.completionEpoch, plan.planId, tokens.length - 1, tokens.length,
    tokenSlots tokens⟩

theorem toList_tokenSlots {tokens : List Token} (h : tokens.length ≤ 17) :
    (tokenSlots tokens).toList = tokens ++ List.replicate (17 - tokens.length) 0 := by
  have hlen : (tokenSlots tokens).toList.length = 17 := Vector.length_toList
  refine List.ext_getElem? fun i => ?_
  rcases Nat.lt_or_ge i 17 with hi | hi
  · have hslot : (tokenSlots tokens).toList[i]? = some (tokens.getD i 0) := by
      have hget : (tokenSlots tokens)[i]? = some (tokens.getD i 0) := getElem?_tokenSlots hi
      rwa [← Vector.getElem?_toList] at hget
    rw [hslot, List.getD_eq_getElem?_getD]
    rcases Nat.lt_or_ge i tokens.length with hlt | hge
    · rw [List.getElem?_append_left hlt, List.getElem?_eq_getElem hlt]
      rfl
    · rw [List.getElem?_append_right hge, List.getElem?_eq_none hge,
        List.getElem?_replicate_of_lt (by omega)]
      rfl
  · have hshort : (tokens ++ List.replicate (17 - tokens.length) 0).length ≤ i := by
      rw [List.length_append, List.length_replicate]
      omega
    rw [List.getElem?_eq_none (by omega), List.getElem?_eq_none hshort]

theorem encodeRecord_recordOf {plan : StepPlan} {tokens : List Token} (h : tokens.length ≤ 17) :
    encodeRecord (recordOf plan tokens) = canonicalBytes plan tokens := by
  have hzeros : ((List.replicate (17 - tokens.length) 0).map (le 4)).flatten =
      List.replicate (4 * (17 - tokens.length)) (0 : UInt8) := by
    have hzero : le 4 0 = List.replicate 4 0 := rfl
    rw [List.map_replicate, hzero, List.flatten_replicate_replicate, Nat.mul_comm]
  rw [encodeRecord, recordFields, recordOf, List.flatten_append, toList_tokenSlots h,
    List.map_append, List.flatten_append, hzeros, canonicalBytes, List.flatMap_def]
  simp only [List.flatten_cons, List.flatten_nil, List.append_nil, List.append_assoc]

theorem length_canonicalBytes {plan : StepPlan} {tokens : List Token} (h : tokens.length ≤ 17) :
    (canonicalBytes plan tokens).length = recordBytes := by
  rw [← encodeRecord_recordOf h, length_encodeRecord]

theorem onWire_recordOf {plan : StepPlan} {tokens : List Token} (hplan : plan.Admissible)
    (h : tokens.length ≤ 17) (htokens : ∀ t ∈ tokens, t < vocabularySize) :
    OnWire (recordOf plan tokens) where
  slot := hplan.slot
  generation := hplan.generation
  generation_lt := plan.generation_lt
  epoch := plan.epoch_lt
  accepted := by
    show tokens.length - 1 < 256
    omega
  count := h
  tokens := by
    intro t ht
    have ht : t ∈ (tokenSlots tokens).toList := ht
    rw [toList_tokenSlots h] at ht
    rcases List.mem_append.mp ht with ht | ht
    · exact Nat.lt_trans (htokens t ht) (by decide)
    · rw [List.eq_of_mem_replicate ht]
      decide

/-! ### What is accepted -/

/-- A check of the record alone, behind the decoder. -/
theorem accepted_iff {bytes : List UInt8} {expectation : Expectation} :
    Accepted bytes expectation ↔ ∃ r, OnWire r ∧ bytes = encodeRecord r ∧
      expectation.plan.selection.validate = .ok () ∧
      expectation.plan.selection.role = .target8B ∧
      ∃ semantics, checkSemantics r expectation.plan none expectation.plan.selection.mode
        expectation.semantics = .ok semantics := by
  rw [Accepted]
  simp only [checkInertCompletionRecord, checkCompletionRecord, bind_eq_ok, mapErr_eq_ok,
    failIf_eq_ok, decodeCompletionRecord_eq_ok, not_not]
  constructor
  · rintro ⟨_, r, ⟨hwire, hbytes⟩, _, hvalid, _, hrole, semantics, hsemantics, -⟩
    exact ⟨r, hwire, hbytes, hvalid, hrole, semantics, hsemantics⟩
  · rintro ⟨r, hwire, hbytes, hvalid, hrole, semantics, hsemantics⟩
    exact ⟨_, r, ⟨hwire, hbytes⟩, (), hvalid, (), hrole, semantics, hsemantics, rfl⟩

/-- Where the check of the record determines it, the bytes are determined. -/
theorem accepted_iff_recordOf {bytes : List UInt8} (expectation : Expectation)
    (tokens : List Token) {p : Prop} (hlen : tokens.length ≤ 17)
    (hvalid : expectation.plan.selection.validate = .ok ())
    (hrole : expectation.plan.selection.role = .target8B)
    (htokens : p → ∀ t ∈ tokens, t < vocabularySize)
    (h : ∀ r, (∃ semantics, checkSemantics r expectation.plan none expectation.plan.selection.mode
        expectation.semantics = .ok semantics) ↔
      expectation.plan.planId.isPresent ∧ p ∧ r = recordOf expectation.plan tokens) :
    Accepted bytes expectation ↔ expectation.plan.Admissible ∧ p ∧
      bytes = canonicalBytes expectation.plan tokens := by
  rw [accepted_iff, ← encodeRecord_recordOf hlen]
  constructor
  · rintro ⟨r, hwire, rfl, -, -, hsemantics⟩
    obtain ⟨hpresent, hp, rfl⟩ := (h r).mp hsemantics
    exact ⟨⟨hwire.slot, hwire.generation, hpresent⟩, hp, rfl⟩
  · rintro ⟨hplan, hp, rfl⟩
    exact ⟨_, onWire_recordOf hplan hlen (htokens hp), rfl, hvalid, hrole,
      (h _).mpr ⟨hplan.planId, hp, rfl⟩⟩

/-- The record of a direct step. -/
theorem checkSingleToken_eq_ok {r : CompactCompletionRecord} {plan : StepPlan} {token : Token} :
    checkSingleToken r plan = .ok token ↔
      plan.planId.isPresent ∧ token < vocabularySize ∧ r = recordOf plan [token] := by
  have hslots : (validateCompactCompletion r plan.request plan.completionEpoch plan.planId 0 =
      .ok () ∧ r.acceptedDraftTokens + 1 = [token].length ∧
      ∀ i < r.emittedTokenCount, r.emittedTokens[i]? = [token][i]?) ↔ _ :=
    validateCompactCompletion_slots (by decide) (Nat.le_refl 1)
  have hsingle : ∀ t ∈ [token], t < vocabularySize ↔ token < vocabularySize := by
    intro t ht
    rw [List.mem_singleton.mp ht]
  rw [checkSingleToken]
  simp only [bind_eq_ok, mapErr_eq_ok, entry_eq_ok]
  constructor
  · rintro ⟨_, hvalidate, htoken⟩
    obtain ⟨-, -, -, -, -, haccepted, hcount, -⟩ := validateCompactCompletion_eq_ok.mp hvalidate
    obtain ⟨hpresent, -, hlive, hrecord⟩ := hslots.mp ⟨hvalidate, by
      rw [List.length_singleton]; omega, fun i hi => by
      obtain rfl : i = 0 := by omega
      exact htoken⟩
    exact ⟨hpresent, hlive token List.mem_cons_self, hrecord⟩
  · rintro ⟨hpresent, hlive, hrecord⟩
    obtain ⟨hvalidate, -, htoken⟩ := hslots.mpr ⟨hpresent, Nat.one_pos, fun t ht => by
      rw [List.mem_singleton.mp ht]; exact hlive, hrecord⟩
    exact ⟨(), hvalidate, htoken 0 (by rw [hrecord]; exact Nat.one_pos)⟩

variable {plan : StepPlan} {bytes : List UInt8}

/-- **A direct step**: prefill or decode. -/
theorem accepted_direct_iff {choice : Token} (hvalid : plan.selection.validate = .ok ())
    (hrole : plan.selection.role = .target8B) (hmode : plan.selection.mode ≠ .speculative) :
    Accepted bytes ⟨plan, .directFinalRow choice⟩ ↔
      plan.Admissible ∧ choice < vocabularySize ∧ bytes = canonicalBytes plan [choice] := by
  refine accepted_iff_recordOf ⟨plan, .directFinalRow choice⟩ [choice] (Nat.le_add_left 1 16) hvalid
    hrole (fun hlt t ht => ?_) fun r => ?_
  · rw [List.mem_singleton.mp ht]
    exact hlt
  · have hcheck : checkSemantics r plan none plan.selection.mode (.directFinalRow choice) = (do
        let actual ← checkSingleToken r plan
        failIf (actual ≠ choice) (.directFinalRowMismatch choice actual)
        return .directFinalRow actual) := by
      cases hm : plan.selection.mode with
      | prefill => rfl
      | decode => rfl
      | speculative => exact absurd hm hmode
    rw [hcheck]
    simp only [bind_eq_ok, failIf_eq_ok, not_not, checkSingleToken_eq_ok]
    constructor
    · rintro ⟨_, _, ⟨hpresent, hlt, hr⟩, _, rfl, -⟩
      exact ⟨hpresent, hlt, hr⟩
    · rintro ⟨hpresent, hlt, hr⟩
      exact ⟨_, choice, ⟨hpresent, hlt, hr⟩, (), rfl, rfl⟩

/-- The width of a speculative bucket fits a record, and the bucket belongs to the mode. -/
theorem speculativeK_spec {bucket : PlanBucket} {k : ℕ} (h : speculativeK bucket = some k) :
    k ≤ 16 ∧ (⟨.target8B, .speculative, bucket⟩ : PlanSelection).validate = .ok () := by
  cases bucket <;> cases h <;> exact ⟨by decide, rfl⟩

/-- **A speculative round**. -/
theorem accepted_speculative_iff {bucket : PlanBucket} {drafts choices : List Token}
    (hselection : plan.selection = ⟨.target8B, .speculative, bucket⟩)
    (hwidth : speculativeK bucket = some drafts.length)
    (hchoices : choices.length = drafts.length + 1) :
    Accepted bytes ⟨plan, .speculative drafts choices⟩ ↔
      plan.Admissible ∧ (∀ t ∈ published drafts choices, t < vocabularySize) ∧
        bytes = canonicalBytes plan (published drafts choices) := by
  obtain ⟨hdraft, hvalid⟩ := speculativeK_spec hwidth
  have hlen := length_published hchoices
  have hle : acceptedPrefix drafts choices ≤ drafts.length := acceptedPrefix_le
  refine accepted_iff_recordOf ⟨plan, .speculative drafts choices⟩ (published drafts choices)
    (by omega) (by rw [hselection]; exact hvalid) (by rw [hselection]) (fun hlive => hlive)
    fun r => ?_
  have hcheck : checkSemantics r plan none plan.selection.mode (.speculative drafts choices) = (do
      let commit ← mapErr .speculative (verifySpeculativeCompletion r plan.request
        plan.completionEpoch plan.planId drafts choices)
      checkedSpeculativeSemantics commit) := by
    rw [hselection]
    show (orErr _ (speculativeK plan.selection.bucket) >>= _) = _
    rw [hselection, hwidth, orErr, ok_bind, failIf_of_not (not_not.mpr rfl), ok_bind]
  have hverify : (∃ commit, verifySpeculativeCompletion r plan.request plan.completionEpoch
      plan.planId drafts choices = .ok commit) ↔ _ :=
    verifySpeculativeCompletion_eq_ok hdraft hchoices
  rw [hcheck, recordOf, hlen, Nat.add_sub_cancel, ← hverify]
  simp only [bind_eq_ok, mapErr_eq_ok]
  constructor
  · rintro ⟨_, commit, hcommit, -⟩
    exact ⟨commit, hcommit⟩
  · rintro ⟨commit, hcommit⟩
    have hverified := verifyGreedyRound_ensures.of_ok (verifyGreedyRound_of_completion hcommit)
    have hfits : commit.acceptedDraftTokens < 256 := by
      have hle := hverified.accepted_le
      omega
    refine ⟨.speculative commit.acceptedDraftTokens commit.targetCorrectionOrBonus, commit,
      hcommit, ?_⟩
    rw [checkedSpeculativeSemantics, if_pos hfits]
    rfl

/-- **A completion record is accepted in one form only.** For a speculative round the bytes are
those of the plan and of the longest common beginning of the drafts and the choices with the choice
behind it, and for a direct step those of the plan and the expected token. Both have 120 bytes. -/
theorem accepted_iff_canonical (plan : StepPlan) (bytes : List UInt8) :
    (∀ bucket drafts choices, plan.selection = ⟨.target8B, .speculative, bucket⟩ →
      speculativeK bucket = some drafts.length → choices.length = drafts.length + 1 →
      (∀ b ≤ drafts.length,
        drafts.take b = choices.take b ↔ b ≤ acceptedPrefix drafts choices) ∧
      (published drafts choices).length = acceptedPrefix drafts choices + 1 ∧
      (canonicalBytes plan (published drafts choices)).length = 120 ∧
      (Accepted bytes ⟨plan, .speculative drafts choices⟩ ↔
        plan.Admissible ∧ (∀ t ∈ published drafts choices, t < vocabularySize) ∧
          bytes = canonicalBytes plan (published drafts choices))) ∧
    (∀ choice, plan.selection.validate = .ok () → plan.selection.role = .target8B →
      plan.selection.mode ≠ .speculative →
      (canonicalBytes plan [choice]).length = 120 ∧
      (Accepted bytes ⟨plan, .directFinalRow choice⟩ ↔
        plan.Admissible ∧ choice < vocabularySize ∧ bytes = canonicalBytes plan [choice])) := by
  constructor
  · intro bucket drafts choices hselection hwidth hchoices
    have hlen := length_published hchoices
    have hle : acceptedPrefix drafts choices ≤ drafts.length := acceptedPrefix_le
    have hdraft := (speculativeK_spec hwidth).1
    exact ⟨fun b hb => take_eq_take_iff hchoices hb, hlen, length_canonicalBytes (by omega),
      accepted_speculative_iff hselection hwidth hchoices⟩
  · intro choice hvalid hrole hmode
    exact ⟨length_canonicalBytes (Nat.le_add_left 1 16), accepted_direct_iff hvalid hrole hmode⟩

/-- A plan of the narrowest speculative bucket, with a plan identity of the given byte. -/
def examplePlan (byte : UInt8) : StepPlan where
  request := ⟨3, 9⟩
  completionEpoch := 12
  planId := ⟨.replicate 32 byte⟩
  selection := ⟨.target8B, .speculative, .speculativeS1K4C8192⟩
  slot_lt := by decide
  generation_lt := by decide
  epoch_lt := by decide

/-- Two drafts are accepted, and the third choice corrects the third draft. -/
theorem accepted_iff_canonical_round :
    Accepted (canonicalBytes (examplePlan 5) [10, 11, 30])
      ⟨examplePlan 5, .speculative [10, 11, 12, 13] [10, 11, 30, 31, 32]⟩ := by
  have hiff := ((accepted_iff_canonical (examplePlan 5)
    (canonicalBytes (examplePlan 5) [10, 11, 30])).1 .speculativeS1K4C8192 [10, 11, 12, 13]
    [10, 11, 30, 31, 32] rfl rfl rfl).2.2.2
  exact hiff.mpr ⟨⟨by decide, by decide, by decide +kernel⟩, by decide, rfl⟩

/-- Without a plan identity, the record of the round is rejected as well. -/
theorem not_accepted_iff_canonical :
    ¬ ∀ (plan : StepPlan) (bytes : List UInt8) (bucket : PlanBucket)
    (drafts choices : List Token), plan.selection = ⟨.target8B, .speculative, bucket⟩ →
      speculativeK bucket = some drafts.length → choices.length = drafts.length + 1 →
      (Accepted bytes ⟨plan, .speculative drafts choices⟩ ↔
        (∀ t ∈ published drafts choices, t < vocabularySize) ∧
          bytes = canonicalBytes plan (published drafts choices)) := by
  intro h
  have haccepted := (h (examplePlan 0) _ .speculativeS1K4C8192 [10, 11, 12, 13]
    [10, 11, 30, 31, 32] rfl rfl rfl).mpr ⟨by decide, rfl⟩
  have hadmissible := (accepted_speculative_iff rfl rfl rfl).mp haccepted
  exact absurd hadmissible.1.planId (by decide +kernel)

end CompletionWire

end Ferric
