import Ferric.Lib.Keyed
import Ferric.Lib.Lists
import Ferric.SpeculativeLoop.Member

/-!
# One round of the coordinator

A binding that passes its check is the list of the inputs of the active members. A permit prepared
from it holds one outcome for every active member, and its commit gives every member the outcome
that names it.

## Main results

* `bindRound_members`, `validateBinding_ok` — the bindings that pass their check
* `preflight_prepares`, `commit_eq` — what a permit holds, and what its commit does
-/

namespace Ferric

namespace SpeculativeLoop

open Spec

/-- The coordinates of a member in a round. -/
def MemberState.input (member : MemberState) : RoundMemberInput where
  request := member.request
  roundAnchor := member.nextAnchor
  targetPreCommitted := member.targetCommittedTokens
  draftPreCommitted := member.draftCommittedTokens

/-- Each member has a request of its own. -/
def GenerationLoop.Distinct (loop : GenerationLoop) : Prop :=
  (loop.members.map (·.request)).Nodup

namespace GenerationLoop

variable {loop : GenerationLoop} {binding : RoundBinding}

/-! ### Bindings -/

/-- A new binding says where the active members are. -/
theorem bindRound_members {round epoch : ℕ} {roster : List RequestId}
    (h : loop.bindRound round epoch roster = .ok binding) :
    binding.members = loop.active.map (·.input) := by
  simp only [bindRound, bind_eq_ok, failIf_eq_ok] at h
  obtain ⟨_, -, _, -, _, -, -, -, _, -, _, hlength, members, hmembers, h⟩ := h
  obtain rfl := Except.ok.inj h
  have hinputs : List.Forall₂ (fun x b => x.1.1.input = b) (loop.active.zip roster).zipIdx
      members := by
    refine (forall₂_of_mapM hmembers).imp fun x b hb => ?_
    simp only [bind_eq_ok, failIf_eq_ok] at hb
    obtain ⟨_, -, _, -, _, -, hb⟩ := hb
    exact Except.ok.inj hb
  have hmap := List.forall₂_map_left_iff.mpr hinputs
  rw [List.forall₂_eq_eq_eq] at hmap
  calc members = (loop.active.zip roster).zipIdx.map fun x => x.1.1.input := hmap.symm
    _ = ((((loop.active.zip roster).zipIdx.map Prod.fst).map Prod.fst).map (·.input)) := by
        rw [List.map_map, List.map_map]
        rfl
    _ = loop.active.map (·.input) := by
        rw [List.zipIdx_map_fst, List.map_fst_zip (by omega)]

/-- A binding that passes its check says where the active members are. -/
theorem validateBinding_ok (h : loop.validateBinding binding = .ok ()) :
    binding.coordinatorIdentity = loop.identity ∧ binding.round = loop.nextRound ∧
      binding.members = loop.active.map (·.input) := by
  simp only [validateBinding, bind_eq_ok, failIf_eq_ok] at h
  obtain ⟨_, hidentity, _, -, _, hround, _, hlength, h⟩ := h
  refine ⟨not_not.mp hidentity, not_not.mp hround, ?_⟩
  have hchecks := foldlM_checks_eq_ok.mp h
  refine List.ext_getElem (by simpa using hlength) fun i hi hi' => ?_
  rw [List.length_map] at hi'
  have hmem : ((loop.active[i], binding.members[i]), i) ∈
      (loop.active.zip binding.members).zipIdx := by
    rw [List.mem_zipIdx_iff_getElem?, List.getElem?_eq_getElem (by simp; omega)]
    simp
  have hlane := hchecks _ hmem
  simp only [bind_eq_ok, failIf_eq_ok, not_or, not_not] at hlane
  obtain ⟨_, hrequest, hanchor, htarget, hdraft⟩ := hlane
  rw [List.getElem_map, MemberState.input, hrequest, hanchor, htarget, hdraft]

theorem mem_active {member : MemberState} :
    member ∈ loop.active ↔ member ∈ loop.members ∧ member.status = .active := by
  rw [active, List.mem_filter, decide_eq_true_eq]

/-- The active members have requests of their own, too. -/
theorem Distinct.active (h : loop.Distinct) : (loop.active.map (·.request)).Nodup :=
  h.sublist (List.filter_sublist.map _)

/-! ### Permits -/

/-- What a permit holds for a member that takes part in its round. -/
structure Prepares (loop : GenerationLoop) (member : MemberState) (prepared : PreparedMember) :
    Prop where
  settles : Settles loop.shape member prepared.outcome
  index : loop.members[prepared.memberIndex]? = some member
  generated : prepared.generatedTokens =
    member.generatedTokens + prepared.outcome.published.tokens.length

/-- A lane prepares the member whose request its input names. -/
theorem prepareLane_prepares (hdistinct : loop.Distinct) {rosterLength lane : ℕ}
    {member : MemberState} (hmember : member ∈ loop.members) {observation : MemberObservation}
    {control : MemberControl} {prepared : PreparedMember}
    (h : loop.prepareLane rosterLength lane member.input observation control = .ok prepared) :
    loop.Prepares member prepared := by
  simp only [prepareLane, bind_eq_ok, failIf_eq_ok, orErr_eq_ok, orPanic_eq_ok] at h
  obtain ⟨_, -, _, -, index, hindex, found, hfound, prepared', hprepared, _, -, h⟩ := h
  obtain rfl : prepared' = prepared := Except.ok.inj h
  have hmemberIndex : loop.members[index]? = some member :=
    Keyed.getElem?_of_findIdx? hdistinct hmember hindex
  obtain rfl : found = member := Option.some.inj (hfound.symm.trans hmemberIndex)
  obtain ⟨hsettles, hprepIndex, hgenerated⟩ := prepareMember_settles hprepared
  exact ⟨hsettles, hprepIndex ▸ hmemberIndex, hgenerated⟩

/-- **What `preflight_observed_round` prepares**: one outcome for each active member, in order. -/
theorem preflight_prepares (hdistinct : loop.Distinct) {selection : PlanSelection} {epoch : ℕ}
    {observations : List MemberObservation} {controls : List MemberControl}
    {permit : PreflightedRound}
    (h : loop.preflightObservedRound binding selection epoch observations controls =
      .ok permit) :
    permit.binding = binding ∧ loop.validateBinding binding = .ok () ∧
      ∃ prepared : List PreparedMember, List.Forall₂ loop.Prepares loop.active prepared ∧
        permit.updates = prepared.map (fun p => ⟨p.memberIndex, p.generatedTokens⟩) ∧
        permit.outcomes = prepared.map (·.outcome) := by
  simp only [preflightObservedRound, bind_eq_ok, failIf_eq_ok] at h
  obtain ⟨_, hvalid, _, -, _, -, _, hobservations, _, hcontrols, prepared, hprepared, h⟩ := h
  obtain rfl := Except.ok.inj h
  refine ⟨rfl, hvalid, prepared, ?_, rfl, rfl⟩
  -- every lane has the input of its member, by the check of the binding
  have hlanes : List.Forall₂ (fun input p => ∃ length lane observation control,
      loop.prepareLane length lane input observation control = .ok p)
      binding.members prepared := by
    have hzip : ((binding.members.zip (observations.zip controls)).zipIdx.map Prod.fst).map
        Prod.fst = binding.members := by
      rw [List.zipIdx_map_fst, List.map_fst_zip (by simp; omega)]
    rw [← hzip, List.map_map, List.forall₂_map_left_iff]
    refine (forall₂_of_mapM hprepared).imp fun x p hp => ?_
    exact ⟨_, x.2, x.1.2.1, x.1.2.2, hp⟩
  rw [(validateBinding_ok hvalid).2.2, List.forall₂_map_left_iff] at hlanes
  have hactive := (List.forall₂_and_left (p := (· ∈ loop.active)) _ _).mpr
    ⟨fun _ hm => hm, hlanes⟩
  refine hactive.imp fun member p hp => ?_
  obtain ⟨hmember, length, lane, observation, control, hlane⟩ := hp
  exact prepareLane_prepares hdistinct (mem_active.mp hmember).1 hlane

end GenerationLoop

/-! ### Commits -/

/-- The members after a round: each takes the outcome that names it, if there is one. -/
def settleAll (members : List MemberState) (outcomes : List MemberRoundOutcome) :
    List MemberState :=
  members.map (Keyed.take (·.request) (·.request) MemberState.after outcomes)

/-- A round gives no member another request. -/
@[simp] theorem map_request_settleAll (members : List MemberState)
    (outcomes : List MemberRoundOutcome) :
    (settleAll members outcomes).map (·.request) = members.map (·.request) :=
  Keyed.map_key_take fun _ _ _ => rfl

/-- The loop of `commit_preflighted_round` over what was prepared. -/
theorem foldlM_applyUpdate {members : List MemberState} {prepared : List PreparedMember}
    (hmembers : (members.map (·.request)).Nodup)
    (hprepared : (prepared.map (·.outcome.request)).Nodup)
    (h : ∀ p ∈ prepared, ∃ m, members[p.memberIndex]? = some m ∧
      p.outcome.request = m.request ∧
      p.generatedTokens = m.generatedTokens + p.outcome.published.tokens.length) :
    (prepared.map fun p => ((⟨p.memberIndex, p.generatedTokens⟩ : PreparedMemberUpdate),
        p.outcome)).foldlM applyUpdate members =
      .ok (settleAll members (prepared.map (·.outcome))) := by
  induction prepared generalizing members with
  | nil =>
    show Except.ok members = Except.ok (members.map fun m => m)
    rw [List.map_id']
  | cons p rest ih =>
    obtain ⟨m, hm, hrequest, hgenerated⟩ := h p List.mem_cons_self
    have hstep : applyUpdate members (⟨p.memberIndex, p.generatedTokens⟩, p.outcome) =
        .ok (settleAll members [p.outcome]) := by
      refine bind_eq_ok.mpr ⟨m, orPanic_eq_ok.mpr hm, congrArg Except.ok ?_⟩
      show members.set p.memberIndex (m.settled _ p.outcome) = _
      have hsettled : m.settled ⟨p.memberIndex, p.generatedTokens⟩ p.outcome =
          m.after p.outcome := by
        rw [MemberState.settled, MemberState.after, hgenerated]
      rw [hsettled]
      exact Keyed.set_eq_map_take hmembers hm hrequest
    have hmembers' : ((settleAll members [p.outcome]).map (·.request)).Nodup := by
      rw [map_request_settleAll]
      exact hmembers
    rw [List.map_cons, List.foldlM_cons, hstep, ok_bind,
      ih hmembers' (List.nodup_cons.mp hprepared).2 fun q hq => ?_]
    · refine congrArg Except.ok (Keyed.map_take_cons ?_ fun _ => rfl)
      show ((List.map (·.outcome) (p :: rest)).map (·.request)).Nodup
      rw [List.map_map]
      exact hprepared
    · -- the members of the other lanes are where they were
      obtain ⟨m', hm', hrequest', hgenerated'⟩ := h q (.tail _ hq)
      refine ⟨m', ?_, hrequest', hgenerated'⟩
      have hne : p.outcome.request ≠ m'.request := by
        intro heq
        refine (List.nodup_cons.mp hprepared).1 ?_
        show p.outcome.request ∈ _
        rw [heq, ← hrequest']
        exact List.mem_map_of_mem hq
      rw [settleAll, List.getElem?_map, hm', Option.map_some, Keyed.take_cons, Keyed.take_nil,
        if_neg hne]

namespace GenerationLoop

variable {loop loop' : GenerationLoop} {permit : PreflightedRound}

/-- The outcomes of a round name the active members. -/
theorem map_request_of_prepares {prepared : List PreparedMember}
    (h : List.Forall₂ loop.Prepares loop.active prepared) :
    prepared.map (·.outcome.request) = loop.active.map (·.request) := by
  refine Eq.symm ?_
  rw [← List.forall₂_eq_eq_eq, List.forall₂_map_left_iff, List.forall₂_map_right_iff]
  exact h.imp fun _ _ hp => hp.settles.request.symm

/-- **What `commit_preflighted_round` commits.** -/
theorem commit_eq (hdistinct : loop.Distinct) {prepared : List PreparedMember}
    (hprepares : List.Forall₂ loop.Prepares loop.active prepared)
    (hupdates : permit.updates = prepared.map fun p => ⟨p.memberIndex, p.generatedTokens⟩)
    (houtcomes : permit.outcomes = prepared.map (·.outcome)) {outcome : RoundOutcome}
    (h : loop.commitPreflightedRound permit = .ok (outcome, loop')) :
    outcome.members = permit.outcomes ∧
      loop' = { loop with
        members := settleAll loop.members permit.outcomes
        nextRound := loop.nextRound + 1
        lastEpoch := some permit.binding.epoch } := by
  have hrequests : (prepared.map (·.outcome.request)).Nodup :=
    map_request_of_prepares hprepares ▸ hdistinct.active
  have hfold : (permit.updates.zip permit.outcomes).foldlM applyUpdate loop.members =
      .ok (settleAll loop.members permit.outcomes) := by
    rw [hupdates, houtcomes, List.zip_map']
    refine foldlM_applyUpdate hdistinct hrequests fun p hp => ?_
    obtain ⟨m, -, hm⟩ := exists_of_forall₂ hprepares hp
    exact ⟨m, hm.index, hm.settles.request, hm.generated⟩
  simp only [commitPreflightedRound, bind_eq_ok, hfold, orPanic_eq_ok, checkedAdd_eq_some] at h
  obtain ⟨_, -, members, hmembers, nextRound, ⟨-, rfl⟩, h⟩ := h
  obtain rfl := Except.ok.inj hmembers
  obtain ⟨rfl, rfl⟩ := Prod.mk.inj (Except.ok.inj h)
  exact ⟨rfl, rfl⟩

end GenerationLoop

end SpeculativeLoop

end Ferric
