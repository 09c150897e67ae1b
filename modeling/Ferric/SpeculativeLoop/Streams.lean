import Ferric.Lib.Cutoff
import Ferric.SpeculativeLoop.Cursors

/-!
# What a member publishes

Every round emits a block of tokens and publishes a beginning of it. Over the whole life of a member
the published blocks are the emitted ones, cut after the first stop token or at the output limit;
the round in which the member was cancelled publishes nothing and counts for nothing.

## Main definitions

* `publishedTokens`, `emittedTokens`, `keptTokens` — the streams of a history

## Main results

* `Lived.streams` — the cut of a life
* `run_law` — the cut, the status and both cursors, in every run
-/

namespace Ferric

namespace SpeculativeLoop

open Spec

/-! ### The streams of a history -/

/-- A round of which nothing is kept. -/
def MemberStatus.isCancelled : MemberStatus → Bool
  | .cancelled _ => true
  | _ => false

/-- The tokens that one event published. -/
def MemberEvent.published : MemberEvent → List Token
  | .round outcome => outcome.published.tokens
  | .catchup => []

/-- The tokens that one event emitted. -/
def MemberEvent.emitted : MemberEvent → List Token
  | .round outcome => outcome.rawEmitted.tokens
  | .catchup => []

/-- The tokens that one event emitted, unless it cancelled the member. -/
def MemberEvent.kept : MemberEvent → List Token
  | .round outcome => if outcome.status.isCancelled then [] else outcome.rawEmitted.tokens
  | .catchup => []

def publishedTokens (history : List MemberEvent) : List Token := history.flatMap (·.published)

def emittedTokens (history : List MemberEvent) : List Token := history.flatMap (·.emitted)

def keptTokens (history : List MemberEvent) : List Token := history.flatMap (·.kept)

section Concat

variable (history : List MemberEvent) (event : MemberEvent)

theorem publishedTokens_concat :
    publishedTokens (history ++ [event]) = publishedTokens history ++ event.published := by
  simp [publishedTokens]

theorem emittedTokens_concat :
    emittedTokens (history ++ [event]) = emittedTokens history ++ event.emitted := by
  simp [emittedTokens]

theorem keptTokens_concat :
    keptTokens (history ++ [event]) = keptTokens history ++ event.kept := by
  simp [keptTokens]

end Concat

/-! ### One block -/

/-- The output limit or a stop token. -/
def MemberStatus.IsCompleted (status : MemberStatus) : Prop := ∃ reason, status = .completed reason

/-- **One block.** What is published of it is its cut at what is left of the limit. -/
theorem publishTokens_eq_cutoff (policy : GenerationPolicy) {generated : ℕ} (raw : List Token)
    (h : generated < policy.maxOutputTokens) :
    (publishTokens policy generated raw).1 =
        cutoff policy.isStop (policy.maxOutputTokens - generated) raw ∧
      ((publishTokens policy generated raw).2.1 = .active ∨
        (publishTokens policy generated raw).2.1.IsCompleted) ∧
      ((publishTokens policy generated raw).2.1.IsCompleted ↔
        CutReached policy.isStop (policy.maxOutputTokens - generated) raw) := by
  induction raw generalizing generated with
  | nil =>
    rw [cutoff_nil, cutReached_nil]
    refine ⟨rfl, .inl rfl, ?_⟩
    simp only [publishTokens, MemberStatus.IsCompleted]
    refine iff_of_false (by simp) ?_
    omega
  | cons token rest ih =>
    obtain ⟨left, hleft⟩ :=
      Nat.exists_eq_add_one_of_ne_zero (n := policy.maxOutputTokens - generated) (by omega)
    rw [hleft, publishTokens, if_neg (by omega)]
    by_cases hstop : policy.isStop token = true
    · rw [if_pos hstop, cutoff, if_pos hstop]
      exact ⟨rfl, .inr ⟨_, rfl⟩, iff_of_true ⟨_, rfl⟩ (.inr ⟨token, List.mem_cons_self, hstop⟩)⟩
    rw [if_neg hstop, cutoff, if_neg hstop]
    have hcut : CutReached policy.isStop (left + 1) (token :: rest) ↔
        CutReached policy.isStop left rest := by
      simp [CutReached, hstop]
    rw [hcut]
    by_cases hlimit : generated + 1 = policy.maxOutputTokens
    · obtain rfl : left = 0 := by omega
      rw [if_pos hlimit]
      exact ⟨rfl, .inr ⟨_, rfl⟩, iff_of_true ⟨_, rfl⟩ (.inl (Nat.zero_le _))⟩
    · have hlt : generated + 1 < policy.maxOutputTokens := by omega
      obtain ⟨hpublished, hstatus, hcompleted⟩ := ih hlt
      have hrest : policy.maxOutputTokens - (generated + 1) = left := by omega
      rw [if_neg hlimit]
      rw [hrest] at hpublished hcompleted
      exact ⟨congrArg (token :: ·) hpublished, hstatus, hcompleted⟩

/-! ### A life -/

/-- The stream of a member, and what its status says about it. -/
structure Streams (seed : MemberState) (history : List MemberEvent) (member : MemberState) :
    Prop where
  policy : member.policy = seed.policy
  published : publishedTokens history =
    cutoff seed.policy.isStop seed.policy.maxOutputTokens (keptTokens history)
  generated : member.generatedTokens = (publishedTokens history).length
  completed_iff : member.status.IsCompleted ↔
    CutReached seed.policy.isStop seed.policy.maxOutputTokens (keptTokens history)
  target : member.targetCommittedTokens =
    seed.targetCommittedTokens + (emittedTokens history).length
  participates : history.Pairwise fun event _ =>
    ∀ outcome, event = .round outcome → outcome.status = .active
  last : member.status = .active →
    ∀ outcome, .round outcome ∈ history → outcome.status = .active

namespace Streams

variable {shape : PhysicalShape} {seed member : MemberState} {history : List MemberEvent}

/-- Nothing was published yet. -/
theorem start (hactive : seed.status = .active) (hgenerated : seed.generatedTokens = 0) :
    Streams seed [] seed where
  policy := rfl
  published := cutoff_nil.symm
  generated := hgenerated
  completed_iff := by
    have hpos := seed.policy.max_pos
    show _ ↔ CutReached _ _ []
    rw [cutReached_nil, hactive]
    refine iff_of_false ?_ (by omega)
    rintro ⟨reason, hreason⟩
    cases hreason
  target := rfl
  participates := .nil
  last := by simp

/-- An event after which everything up to now was an active round. -/
theorem pairwise_concat (h : Streams seed history member) (hactive : member.status = .active)
    (event : MemberEvent) : (history ++ [event]).Pairwise fun event _ =>
      ∀ outcome, event = .round outcome → outcome.status = .active := by
  rw [List.pairwise_append]
  refine ⟨h.participates, List.pairwise_singleton _ _, fun a ha _ _ outcome heq => ?_⟩
  exact h.last hactive outcome (heq ▸ ha)

theorem catchup (h : Streams seed history member) (hactive : member.status = .active) :
    Streams seed (history ++ [.catchup]) member.caughtUp := by
  have hpublished : publishedTokens (history ++ [.catchup]) = publishedTokens history := by
    rw [publishedTokens_concat]
    exact List.append_nil _
  have hkept : keptTokens (history ++ [.catchup]) = keptTokens history := by
    rw [keptTokens_concat]
    exact List.append_nil _
  have hemitted : emittedTokens (history ++ [.catchup]) = emittedTokens history := by
    rw [emittedTokens_concat]
    exact List.append_nil _
  constructor
  · exact h.policy
  · rw [hpublished, hkept]
    exact h.published
  · rw [hpublished]
    exact h.generated
  · rw [hkept]
    exact h.completed_iff
  · rw [hemitted]
    exact h.target
  · exact h.pairwise_concat hactive _
  · intro hactive' outcome hmem
    rcases List.mem_append.mp hmem with hmem | hmem
    · exact h.last hactive outcome hmem
    · simp at hmem

/-- **Step lemma.** A round adds its block. -/
theorem round (h : Streams seed history member) (hactive : member.status = .active)
    {outcome : MemberRoundOutcome} (hsettles : Settles shape member outcome) :
    Streams seed (history ++ [.round outcome]) (member.after outcome) := by
  have hcut : ¬ CutReached seed.policy.isStop seed.policy.maxOutputTokens (keptTokens history) := by
    rw [← h.completed_iff, hactive]
    rintro ⟨reason, hreason⟩
    cases hreason
  have hkept : publishedTokens history = keptTokens history := by
    rw [h.published, cutoff_eq_self hcut]
  have hlt : member.generatedTokens < member.policy.maxOutputTokens := by
    rw [h.generated, h.policy, hkept]
    exact Nat.lt_of_not_le fun hle => hcut (.inl hle)
  obtain ⟨control, hpolicy⟩ := hsettles.policy
  -- the block, cut at what is left of the limit
  have hblock : outcome.published.tokens =
        cutoff seed.policy.isStop (seed.policy.maxOutputTokens - (keptTokens history).length)
          (MemberEvent.round outcome).kept ∧
      (outcome.status.IsCompleted ↔ CutReached seed.policy.isStop
        (seed.policy.maxOutputTokens - (keptTokens history).length)
        (MemberEvent.round outcome).kept) := by
    rw [← hkept, ← h.generated]
    cases control with
    | cancel reason =>
      obtain ⟨hpublished, hstatus⟩ := Prod.mk.inj hpolicy
      obtain ⟨hstatus, -⟩ := Prod.mk.inj hstatus
      have hnone : (MemberEvent.round outcome).kept = [] := by
        rw [MemberEvent.kept, ← hstatus]
        rfl
      rw [hnone, ← hstatus, ← hpublished, cutoff_nil, cutReached_nil]
      refine ⟨rfl, iff_of_false ?_ ?_⟩
      · rintro ⟨reason, hreason⟩
        cases hreason
      · rw [← h.policy]
        omega
    | continue_ =>
      have hspec := publishTokens_eq_cutoff member.policy outcome.rawEmitted.tokens hlt
      obtain ⟨hpublished, hstatus⟩ := Prod.mk.inj hpolicy
      obtain ⟨hstatus, -⟩ := Prod.mk.inj hstatus
      have htokens : (publishTokens member.policy member.generatedTokens
          outcome.rawEmitted.tokens).1 = outcome.published.tokens :=
        congrArg TokenBlock.tokens hpublished
      rw [hstatus, htokens, h.policy] at hspec
      have hnot : outcome.status.isCancelled = false := by
        rcases hspec.2.1 with hs | ⟨reason, hs⟩ <;> rw [hs] <;> rfl
      rw [MemberEvent.kept, hnot]
      exact ⟨hspec.1, hspec.2.2⟩
  constructor
  · exact h.policy
  · rw [publishedTokens_concat, keptTokens_concat, cutoff_append hcut, ← hblock.1, hkept]
    rfl
  · rw [publishedTokens_concat, List.length_append, ← h.generated]
    rfl
  · rw [keptTokens_concat, cutReached_append, ← hblock.2]
    show outcome.status.IsCompleted ↔ _
    exact ⟨.inr, fun hor => hor.resolve_left hcut⟩
  · rw [emittedTokens_concat, List.length_append, ← Nat.add_assoc, ← h.target]
    show outcome.targetSettlement.commitEnd = _ + outcome.rawEmitted.tokens.length
    rw [hsettles.target, hsettles.length_raw]
  · exact h.pairwise_concat hactive _
  · intro hactive' o hmem
    rcases List.mem_append.mp hmem with hmem | hmem
    · exact h.last hactive o hmem
    · obtain rfl := MemberEvent.round.inj (List.mem_singleton.mp hmem)
      exact hactive'

end Streams

/-- **The stream of a life.** -/
theorem Lived.streams {shape : PhysicalShape} {seed member : MemberState}
    {history : List MemberEvent} (h : Lived shape seed history member)
    (hactive : seed.status = .active) (hgenerated : seed.generatedTokens = 0) :
    Streams seed history member := by
  induction h with
  | start => exact .start hactive hgenerated
  | round _ hmember hsettles ih => exact ih.round hmember hsettles
  | catchup _ hmember _ ih => exact ih.catchup hmember

/-- **The law of a run.** For every member of every reachable coordinator: its published blocks are
its emitted blocks, cut after the first stop token or at its limit, where the round that cancelled
it counts for nothing; it is completed exactly when that cut was reached; after a round that left it
completed or cancelled it takes part in no later one; the target cursor moved by all emitted tokens,
and the draft cursor by as many but for the fully accepted rounds that no catch-up has made good. -/
theorem run_law {w : World} (h : coordinator.Reachable w) {member : MemberState}
    (hmember : member ∈ w.loop.members) :
    ∃ seed ∈ w.seeds, seed.request = member.request ∧
      publishedTokens (w.history member.request) = cutoff seed.policy.isStop
        seed.policy.maxOutputTokens (keptTokens (w.history member.request)) ∧
      member.generatedTokens = (publishedTokens (w.history member.request)).length ∧
      ((∃ reason, member.status = .completed reason) ↔ CutReached seed.policy.isStop
        seed.policy.maxOutputTokens (keptTokens (w.history member.request))) ∧
      (w.log.Pairwise fun earlier later => ∀ outcome,
        earlier.eventOf member.request = some (.round outcome) → outcome.status ≠ .active →
        later.eventOf member.request = none) ∧
      member.targetCommittedTokens =
        seed.targetCommittedTokens + (emittedTokens (w.history member.request)).length ∧
      member.draftCommittedTokens + fullRounds w.loop.shape (w.history member.request) =
        seed.draftCommittedTokens + (emittedTokens (w.history member.request)).length +
          catchups (w.history member.request) := by
  obtain ⟨seed, hseed, hlived⟩ := (reachable_inv h).lived hmember
  have hstreams := hlived.streams rfl rfl
  have hcursors : member.draftCommittedTokens + seed.targetCommittedTokens + _ =
      member.targetCommittedTokens + seed.draftCommittedTokens + _ := hlived.cursors
  have htarget : member.targetCommittedTokens = seed.targetCommittedTokens + _ := hstreams.target
  refine ⟨seed, hseed, hlived.request_eq.symm, hstreams.published, hstreams.generated,
    hstreams.completed_iff, ?_, htarget, by omega⟩
  refine (List.pairwise_filterMap.mp hstreams.participates).imp ?_
  intro earlier later hpair outcome hearlier hstatus
  cases hlater : later.eventOf member.request with
  | none => rfl
  | some event => exact absurd (hpair _ hearlier _ hlater outcome rfl) hstatus

theorem run_law_afterRounds :
    (afterCatchup.loop.members.map (·.status) = [.completed (.stopToken 8)] ∧
      publishedTokens (afterCatchup.history ⟨0, 1⟩) = [2, 3, 4, 5, 6, 7, 8]) ∧
    (afterPair.loop.members.map (·.status) = [.completed .outputLimit, .cancelled .client] ∧
      publishedTokens (afterPair.history ⟨0, 1⟩) = [2, 3, 4] ∧
      publishedTokens (afterPair.history ⟨1, 1⟩) = [12, 13]) ∧
    ∀ w ∈ [afterCatchup, afterPair], ∀ member ∈ w.loop.members,
      ∃ seed ∈ w.seeds, seed.request = member.request ∧
        publishedTokens (w.history member.request) = cutoff seed.policy.isStop
          seed.policy.maxOutputTokens (keptTokens (w.history member.request)) ∧
        member.generatedTokens = (publishedTokens (w.history member.request)).length ∧
        ((∃ reason, member.status = .completed reason) ↔ CutReached seed.policy.isStop
          seed.policy.maxOutputTokens (keptTokens (w.history member.request))) ∧
        (w.log.Pairwise fun earlier later => ∀ outcome,
          earlier.eventOf member.request = some (.round outcome) → outcome.status ≠ .active →
          later.eventOf member.request = none) ∧
        member.targetCommittedTokens =
          seed.targetCommittedTokens + (emittedTokens (w.history member.request)).length ∧
        member.draftCommittedTokens + fullRounds w.loop.shape (w.history member.request) =
          seed.draftCommittedTokens + (emittedTokens (w.history member.request)).length +
            catchups (w.history member.request) := by
  refine ⟨by decide +kernel, by decide +kernel, ?_⟩
  intro w hw member hmember
  have hreachable : coordinator.Reachable w := by
    rcases List.mem_pair.mp hw with rfl | rfl
    · exact reachable_afterCatchup
    · exact reachable_afterPair
  exact run_law hreachable hmember

end SpeculativeLoop

end Ferric
