import Ferric.Lib.System
import Ferric.SpeculativeLoop.Round

/-!
# Runs of the coordinator

Bindings and permits are values: they can be used any number of times, late, and out of order. What
a run leaves of them is that a permit which commits is one that the coordinator could prepare at
that moment, because the round number that a binding names moves with every commit, and between two
commits only the draft cursor of an active member moves, which the binding names as well.

## Main definitions

* `World` — a coordinator, the bindings and permits it gave out, and what it committed
* `coordinator` — its runs, with calls in any order

## Main results

* `Current.issues` — a permit that commits could be prepared now
* `reachable_inv` — every member lives the life that the log tells of it
-/

namespace Ferric

namespace SpeculativeLoop

open Spec

/-! ### Permits and their age -/

/-- A member that only a draft cursor tells from what it was. -/
structure Drifted (old member : MemberState) : Prop where
  draft_only : member = { old with draftCommittedTokens := member.draftCommittedTokens }
  active : old.status ≠ .active → member = old

namespace Drifted

variable {old member : MemberState}

theorem refl (member : MemberState) : Drifted member member := ⟨rfl, fun _ => rfl⟩

theorem status_eq (h : Drifted old member) : member.status = old.status := by
  rw [h.draft_only]

/-- The catch-up of an active member. -/
theorem caughtUp (h : Drifted old member) (hactive : member.status = .active) :
    Drifted old member.caughtUp := by
  constructor
  · exact congrArg (fun m : MemberState =>
      { m with draftCommittedTokens := member.targetCommittedTokens }) h.draft_only
  · exact fun hne => absurd (h.status_eq ▸ hactive) hne

/-- Members that a round input does not tell apart are the same, if they are active. -/
theorem eq_of_input (h : Drifted old member) (hinput : old.input = member.input) :
    member = old := by
  have hdraft : member.draftCommittedTokens = old.draftCommittedTokens :=
    (congrArg RoundMemberInput.draftPreCommitted hinput).symm
  rw [h.draft_only, hdraft]

end Drifted

/-- The inputs of the active members tell rosters apart that only draft cursors do. -/
theorem eq_of_drifted {olds members : List MemberState} (h : List.Forall₂ Drifted olds members)
    (hinputs : (olds.filter (·.status = .active)).map (·.input) =
      (members.filter (·.status = .active)).map (·.input)) : members = olds := by
  induction h with
  | nil => rfl
  | @cons old member olds members hm hrest ih =>
    rw [List.filter_cons, List.filter_cons, hm.status_eq] at hinputs
    by_cases hactive : old.status = .active
    · simp only [hactive, decide_true, if_true, List.map_cons] at hinputs
      obtain ⟨hinput, hinputs⟩ := List.cons.inj hinputs
      rw [hm.eq_of_input hinput, ih hinputs]
    · simp only [hactive, decide_false, Bool.false_eq_true, if_false] at hinputs
      rw [hm.active hactive, ih hinputs]

/-- A coordinator that has committed no round since. -/
structure GenerationLoop.Behind (old loop : GenerationLoop) : Prop where
  identity : old.identity = loop.identity
  shape : old.shape = loop.shape
  nextRound : old.nextRound = loop.nextRound
  members : List.Forall₂ Drifted old.members loop.members

/-- The permit is what its binding and some observations and controls give. -/
def GenerationLoop.Issues (loop : GenerationLoop) (permit : PreflightedRound) : Prop :=
  ∃ selection epoch observations controls,
    loop.preflightObservedRound permit.binding selection epoch observations controls = .ok permit

/-- The permit is of an earlier round, or was prepared since the last round was committed. -/
def Current (loop : GenerationLoop) (permit : PreflightedRound) : Prop :=
  permit.binding.round < loop.nextRound ∨
    ∃ old : GenerationLoop, old.Behind loop ∧ old.Issues permit

variable {loop old : GenerationLoop} {permit : PreflightedRound}

theorem GenerationLoop.Issues.valid (h : loop.Issues permit) :
    loop.validateBinding permit.binding = .ok () := by
  obtain ⟨_, _, _, _, h⟩ := h
  rw [GenerationLoop.preflightObservedRound, bind_eq_ok] at h
  obtain ⟨_, hvalid, -⟩ := h
  exact hvalid

/-- A permit that was just prepared. -/
theorem GenerationLoop.Issues.current (h : loop.Issues permit) : Current loop permit := by
  have hmembers : List.Forall₂ Drifted loop.members loop.members :=
    List.forall₂_same.mpr fun m _ => Drifted.refl m
  exact .inr ⟨loop, ⟨rfl, rfl, rfl, hmembers⟩, h⟩

/-- **A permit that commits could be prepared now.** -/
theorem Current.issues (h : Current loop permit)
    (hvalid : loop.validateBinding permit.binding = .ok ()) : loop.Issues permit := by
  obtain ⟨-, hround, hinputs⟩ := GenerationLoop.validateBinding_ok hvalid
  rcases h with hstale | ⟨old, hbehind, hissues⟩
  · omega
  · obtain ⟨-, -, holdInputs⟩ := GenerationLoop.validateBinding_ok hissues.valid
    have hmembers : loop.members = old.members :=
      eq_of_drifted hbehind.members (holdInputs.symm.trans hinputs)
    -- what is prepared does not depend on the last epoch
    have heq : loop = { old with lastEpoch := loop.lastEpoch } := by
      obtain ⟨identity, shape, members, nextRound, lastEpoch⟩ := loop
      rw [GenerationLoop.mk.injEq]
      exact ⟨hbehind.identity.symm, hbehind.shape.symm, hmembers, hbehind.nextRound.symm, rfl⟩
    obtain ⟨selection, epoch, observations, controls, hpermit⟩ := hissues
    rw [heq]
    exact ⟨selection, epoch, observations, controls, hpermit⟩

/-- A round that was committed from a permit, outcome by outcome. -/
theorem Current.commit_eq (h : Current loop permit) (hdistinct : loop.Distinct)
    {outcome : RoundOutcome} {loop' : GenerationLoop}
    (hcommit : loop.commitPreflightedRound permit = .ok (outcome, loop')) :
    (∀ o ∈ outcome.members, ∃ m ∈ loop.active, Settles loop.shape m o) ∧
      loop' = { loop with
        members := settleAll loop.members outcome.members
        nextRound := loop.nextRound + 1
        lastEpoch := some permit.binding.epoch } := by
  have hvalid : loop.validateBinding permit.binding = .ok () := by
    rw [GenerationLoop.commitPreflightedRound, bind_eq_ok] at hcommit
    obtain ⟨_, hvalid, -⟩ := hcommit
    exact hvalid
  obtain ⟨_, _, _, _, hissued⟩ := h.issues hvalid
  obtain ⟨-, -, prepared, hprepares, hupdates, houtcomes⟩ :=
    GenerationLoop.preflight_prepares hdistinct hissued
  obtain ⟨hmembers, hloop'⟩ :=
    GenerationLoop.commit_eq hdistinct hprepares hupdates houtcomes hcommit
  rw [hmembers]
  refine ⟨fun o ho => ?_, hloop'⟩
  rw [houtcomes] at ho
  obtain ⟨p, hp, rfl⟩ := List.mem_map.mp ho
  obtain ⟨m, hm, hprepared⟩ := exists_of_forall₂ hprepares hp
  exact ⟨m, hm, hprepared.settles⟩

/-- **What `commit_draft_catchup_transition` commits.** -/
theorem GenerationLoop.catchup_eq {transition : DraftCatchupTransition} {loop' : GenerationLoop}
    (h : loop.commitDraftCatchupTransition transition = .ok loop') :
    ∃ member, loop.members = [member] ∧ member.status = .active ∧
      member.request = transition.request ∧
      member.draftCommittedTokens + 1 = member.targetCommittedTokens ∧
      loop' = { loop with members := [member.caughtUp], lastEpoch := some transition.epoch } := by
  simp only [commitDraftCatchupTransition, bind_eq_ok, failIf_eq_ok] at h
  obtain ⟨_, -, _, -, h⟩ := h
  split at h
  · next member hmembers =>
    simp only [bind_eq_ok, failIf_eq_ok, not_or, not_not] at h
    obtain ⟨_, ⟨-, -, -, -, -, -, -, hrequest, hactive, hdraft, htarget, hbehind, -, -⟩, h⟩ := h
    obtain ⟨-, hbehind⟩ := checkedAdd_eq_some.mp hbehind
    refine ⟨member, hmembers, hactive, hrequest, by omega, ?_⟩
    obtain rfl := Except.ok.inj h
    rw [← htarget]
    rfl
  · exact nomatch h

/-- A catch-up leaves the permits of the round as old as they are. -/
theorem Current.catchup (h : Current loop permit) {member : MemberState}
    (hmembers : loop.members = [member]) (hactive : member.status = .active)
    (lastEpoch : Option ℕ) :
    Current { loop with members := [member.caughtUp], lastEpoch } permit := by
  rcases h with hstale | ⟨old, hbehind, hissues⟩
  · exact .inl hstale
  · refine .inr ⟨old, ⟨hbehind.identity, hbehind.shape, hbehind.nextRound, ?_⟩, hissues⟩
    have hdrifted := hbehind.members
    rw [hmembers] at hdrifted
    obtain ⟨m, rest, hm, hrest, holds⟩ := List.forall₂_cons_right_iff.mp hdrifted
    exact List.forall₂_cons_right_iff.mpr ⟨m, rest, hm.caughtUp hactive, hrest, holds⟩

/-! ### Worlds -/

/-- What the coordinator committed. -/
inductive Committed where
  | round (outcome : RoundOutcome)
  | catchup (transition : DraftCatchupTransition)
  deriving DecidableEq

/-- What a commit was for one member. -/
def Committed.eventOf (request : RequestId) : Committed → Option MemberEvent
  | .round outcome => (outcome.members.find? (·.request = request)).map .round
  | .catchup transition => if transition.request = request then some .catchup else none

/-- A coordinator with everything that came out of it: bindings and permits can be used again. -/
structure World where
  seeds : List MemberSeed
  loop : GenerationLoop
  bindings : List RoundBinding
  permits : List PreflightedRound
  log : List Committed
  deriving DecidableEq

/-- A call, with any arguments. -/
inductive Call where
  | bindRound (round epoch : ℕ) (roster : List RequestId)
  | preflightObservedRound (binding : RoundBinding) (selection : PlanSelection) (epoch : ℕ)
      (observations : List MemberObservation) (controls : List MemberControl)
  | commitPreflightedRound (permit : PreflightedRound)
  | commitDraftCatchupTransition (transition : DraftCatchupTransition)

namespace World

def start (seeds : List MemberSeed) (loop : GenerationLoop) : World := ⟨seeds, loop, [], [], []⟩

/-- The history of one member. -/
def history (w : World) (request : RequestId) : List MemberEvent :=
  w.log.filterMap (·.eventOf request)

/-- A caller holds what this coordinator gave out, and values of other coordinators. -/
def Holds (w : World) : Call → Prop
  | .preflightObservedRound binding _ _ _ _ =>
    binding ∈ w.bindings ∨ binding.coordinatorIdentity ≠ w.loop.identity
  | .commitPreflightedRound permit =>
    permit ∈ w.permits ∨ permit.binding.coordinatorIdentity ≠ w.loop.identity
  | _ => True

instance (w : World) : DecidablePred w.Holds := fun call => by
  cases call <;> unfold Holds <;> infer_instance

def run (w : World) : Call → Outcome LoopError World
  | .bindRound round epoch roster => do
    let binding ← w.loop.bindRound round epoch roster
    return { w with bindings := w.bindings ++ [binding] }
  | .preflightObservedRound binding selection epoch observations controls => do
    let permit ← w.loop.preflightObservedRound binding selection epoch observations controls
    return { w with permits := w.permits ++ [permit] }
  | .commitPreflightedRound permit => do
    let (outcome, loop) ← w.loop.commitPreflightedRound permit
    return { w with loop, log := w.log ++ [.round outcome] }
  | .commitDraftCatchupTransition transition => do
    let loop ← w.loop.commitDraftCatchupTransition transition
    return { w with loop, log := w.log ++ [.catchup transition] }

end World

/-- The runs of a coordinator from seeds that `new` accepts. A rejected call changes nothing. -/
def coordinator : System World Call where
  init w := ∃ fresh selection, ∃ loop, GenerationLoop.new fresh selection w.seeds = .ok loop ∧
    w = World.start w.seeds loop
  step w call w' := w.Holds call ∧
    (w.run call = .ok w' ∨ w' = w ∧ ∃ e, w.run call = .error (.err e))

/-! ### The invariant -/

/-- The seeds that `new` accepts have requests of their own. -/
theorem nodup_of_validateSeed {shape : PhysicalShape} {seeds : List MemberSeed}
    (h : ∀ lane seed, seeds[lane]? = some seed → validateSeed shape seeds lane seed = .ok ()) :
    (seeds.map (·.request)).Nodup := by
  rw [List.Nodup, List.pairwise_map, List.pairwise_iff_getElem]
  intro i j hi hj hij heq
  have hvalid := h j seeds[j] (List.getElem?_eq_getElem hj)
  rw [validateSeed, bind_eq_ok] at hvalid
  obtain ⟨_, -, hvalid⟩ := hvalid
  split at hvalid
  · cases hvalid
  · next hnone =>
    rw [List.findIdx?_eq_none_iff] at hnone
    have hmem : seeds[i] ∈ seeds.take j := List.mem_take_iff_getElem.mpr ⟨i, by omega, rfl⟩
    simpa [heq] using hnone _ hmem

theorem GenerationLoop.new_ok {fresh : Option ℕ} {selection : PlanSelection}
    {seeds : List MemberSeed} {loop : GenerationLoop}
    (h : GenerationLoop.new fresh selection seeds = .ok loop) :
    loop.members = seeds.map (·.state) ∧ (seeds.map (·.request)).Nodup := by
  simp only [GenerationLoop.new, bind_eq_ok, failIf_eq_ok] at h
  obtain ⟨shape, -, identity, -, _, -, _, -, members, hmembers, h⟩ := h
  obtain rfl := Except.ok.inj h
  have hlanes : List.Forall₂ (fun x m => validateSeed shape seeds x.2 x.1 = .ok () ∧
      x.1.state = m) seeds.zipIdx members := by
    refine (forall₂_of_mapM hmembers).imp fun x m hm => ?_
    obtain ⟨_, hvalid, hm⟩ := bind_eq_ok.mp hm
    exact ⟨hvalid, Except.ok.inj hm⟩
  constructor
  · have hstates := List.forall₂_map_left_iff.mpr (hlanes.imp fun _ _ hm => hm.2)
    rw [List.forall₂_eq_eq_eq] at hstates
    calc members = seeds.zipIdx.map fun x => x.1.state := hstates.symm
      _ = (seeds.zipIdx.map Prod.fst).map (·.state) := by
          rw [List.map_map]
          rfl
      _ = seeds.map (·.state) := by rw [List.zipIdx_map_fst]
  · have hvalid : ∀ lane seed, seeds[lane]? = some seed →
        validateSeed shape seeds lane seed = .ok () := by
      intro lane seed hseed
      obtain ⟨m, -, hvalid, -⟩ := getElem?_of_forall₂ hlanes
        (i := lane) (a := (seed, lane)) (by simpa using hseed)
      exact hvalid
    exact nodup_of_validateSeed hvalid

/-- A member lives on through a round, whether it takes part or not. -/
theorem Lived.settleAll {seed member : MemberState} {history : List MemberEvent}
    (h : Lived loop.shape seed history member) (hdistinct : loop.Distinct)
    (hmember : member ∈ loop.members) {outcomes : List MemberRoundOutcome}
    (houtcomes : ∀ o ∈ outcomes, ∃ m ∈ loop.active, Settles loop.shape m o) :
    Lived loop.shape seed
      (history ++ ((outcomes.find? (·.request = member.request)).map MemberEvent.round).toList)
      (Keyed.take (·.request) (·.request) MemberState.after outcomes member) := by
  unfold Keyed.take
  cases hfind : outcomes.find? (·.request = member.request) with
  | none => simpa using h
  | some o =>
    obtain ⟨m, hm, hsettles⟩ := houtcomes o (List.mem_of_find?_eq_some hfind)
    obtain ⟨hm, hactive⟩ := GenerationLoop.mem_active.mp hm
    have hrequest : o.request = member.request := by simpa using List.find?_some hfind
    obtain rfl : m = member :=
      Keyed.eq_of_nodup hdistinct hm hmember (hsettles.request.symm.trans hrequest)
    exact h.round hactive hsettles

/-- What a run keeps: the log tells the life of every member, and no permit of the current round is
older than the last commit. -/
structure World.Inv (w : World) : Prop where
  nodup : (w.seeds.map (·.request)).Nodup
  lives : List.Forall₂ (fun seed m => Lived w.loop.shape seed.state (w.history seed.request) m)
    w.seeds w.loop.members
  current : ∀ permit ∈ w.permits, Current w.loop permit

namespace World

variable {w w' : World}

theorem inv_start {fresh : Option ℕ} {selection : PlanSelection} {seeds : List MemberSeed}
    {loop : GenerationLoop} (h : GenerationLoop.new fresh selection seeds = .ok loop) :
    (start seeds loop).Inv := by
  obtain ⟨hmembers, hnodup⟩ := GenerationLoop.new_ok h
  refine ⟨hnodup, ?_, fun _ hp => absurd hp List.not_mem_nil⟩
  show List.Forall₂ _ seeds loop.members
  rw [hmembers, List.forall₂_map_right_iff, List.forall₂_same]
  exact fun _ _ => .start

namespace Inv

theorem map_request_eq (h : w.Inv) :
    w.loop.members.map (·.request) = w.seeds.map (·.request) := by
  refine Eq.symm ?_
  rw [← List.forall₂_eq_eq_eq, List.forall₂_map_left_iff, List.forall₂_map_right_iff]
  exact h.lives.imp fun _ _ hlived => hlived.request_eq.symm

theorem distinct (h : w.Inv) : w.loop.Distinct := by
  rw [GenerationLoop.Distinct, h.map_request_eq]
  exact h.nodup

/-- The life of a member, with the history of its request. -/
theorem lived (h : w.Inv) {member : MemberState} (hmember : member ∈ w.loop.members) :
    ∃ seed ∈ w.seeds, Lived w.loop.shape seed.state (w.history member.request) member := by
  obtain ⟨seed, hseed, hlived⟩ := exists_of_forall₂ h.lives hmember
  refine ⟨seed, hseed, ?_⟩
  rw [hlived.request_eq]
  exact hlived

theorem preflight (h : w.Inv) {binding : RoundBinding} {selection : PlanSelection} {epoch : ℕ}
    {observations : List MemberObservation} {controls : List MemberControl}
    {permit : PreflightedRound}
    (hpermit : w.loop.preflightObservedRound binding selection epoch observations controls =
      .ok permit) : ({ w with permits := w.permits ++ [permit] } : World).Inv := by
  refine ⟨h.nodup, h.lives, fun p hp => ?_⟩
  rcases List.mem_append.mp hp with hp | hp
  · exact h.current p hp
  · obtain rfl := List.mem_singleton.mp hp
    obtain ⟨hbinding, -⟩ := GenerationLoop.preflight_prepares h.distinct hpermit
    subst hbinding
    exact GenerationLoop.Issues.current ⟨selection, epoch, observations, controls, hpermit⟩

theorem commit (h : w.Inv) {permit : PreflightedRound} (hcurrent : Current w.loop permit)
    {outcome : RoundOutcome} {loop' : GenerationLoop}
    (hcommit : w.loop.commitPreflightedRound permit = .ok (outcome, loop')) :
    ({ w with loop := loop', log := w.log ++ [.round outcome] } : World).Inv := by
  obtain ⟨houtcomes, rfl⟩ := hcurrent.commit_eq h.distinct hcommit
  constructor
  · exact h.nodup
  · show List.Forall₂ _ w.seeds (w.loop.members.map _)
    rw [List.forall₂_map_right_iff]
    refine (forall₂_mem_right h.lives).imp fun seed member ⟨hlived, hmember⟩ => ?_
    have hlived' := hlived.settleAll h.distinct hmember houtcomes
    rw [hlived.request_eq] at hlived'
    rw [history, List.filterMap_append]
    have hevent : [Committed.round outcome].filterMap (·.eventOf seed.request) =
        ((outcome.members.find? (·.request = seed.request)).map MemberEvent.round).toList := by
      rw [List.filterMap_cons, Committed.eventOf]
      cases outcome.members.find? (·.request = seed.request) <;> rfl
    rw [hevent]
    exact hlived'
  · -- no permit is of the next round
    intro p hp
    refine .inl ?_
    show p.binding.round < w.loop.nextRound + 1
    rcases h.current p hp with hstale | ⟨old, hbehind, hissues⟩
    · omega
    · obtain ⟨-, hround, -⟩ := GenerationLoop.validateBinding_ok hissues.valid
      have := hbehind.nextRound
      omega

theorem catchup (h : w.Inv) {transition : DraftCatchupTransition} {loop' : GenerationLoop}
    (hcatchup : w.loop.commitDraftCatchupTransition transition = .ok loop') :
    ({ w with loop := loop', log := w.log ++ [.catchup transition] } : World).Inv := by
  obtain ⟨member, hmembers, hactive, hrequest, hbehind, rfl⟩ :=
    GenerationLoop.catchup_eq hcatchup
  constructor
  · exact h.nodup
  · have hlives := h.lives
    rw [hmembers] at hlives
    obtain ⟨seed, rest, hlived, hrest, hseeds⟩ := List.forall₂_cons_right_iff.mp hlives
    rw [List.forall₂_nil_right_iff] at hrest
    have hlived' := hlived.catchup hactive hbehind
    have hevent : [Committed.catchup transition].filterMap (·.eventOf seed.state.request) =
        [.catchup] := by
      rw [List.filterMap_cons, Committed.eventOf, if_pos (hrequest ▸ hlived.request_eq)]
      rfl
    refine List.forall₂_cons_right_iff.mpr ⟨seed, rest, ?_, hrest ▸ .nil, hseeds⟩
    rw [history, List.filterMap_append]
    show Lived _ _ (_ ++ [Committed.catchup transition].filterMap (·.eventOf seed.state.request)) _
    rw [hevent]
    exact hlived'
  · intro p hp
    exact (h.current p hp).catchup hmembers hactive (some transition.epoch)

/-- **Step lemma.** -/
theorem step (h : w.Inv) {call : Call} (hstep : coordinator.step w call w') : w'.Inv := by
  obtain ⟨hholds, hrun | ⟨rfl, -⟩⟩ := hstep
  · cases call with
    | bindRound round epoch roster =>
      obtain ⟨binding, -, hrun⟩ := bind_eq_ok.mp hrun
      obtain rfl := Except.ok.inj hrun
      exact ⟨h.nodup, h.lives, h.current⟩
    | preflightObservedRound binding selection epoch observations controls =>
      obtain ⟨permit, hpermit, hrun⟩ := bind_eq_ok.mp hrun
      obtain rfl := Except.ok.inj hrun
      exact h.preflight hpermit
    | commitPreflightedRound permit =>
      obtain ⟨⟨outcome, loop'⟩, hcommit, hrun⟩ := bind_eq_ok.mp hrun
      obtain rfl := Except.ok.inj hrun
      rcases hholds with hpermit | hforeign
      · exact h.commit (h.current permit hpermit) hcommit
      · -- another coordinator's permit fails the check of its identity
        obtain ⟨_, hvalid, -⟩ := bind_eq_ok.mp hcommit
        exact absurd (GenerationLoop.validateBinding_ok hvalid).1 hforeign
    | commitDraftCatchupTransition transition =>
      obtain ⟨loop', hcatchup, hrun⟩ := bind_eq_ok.mp hrun
      obtain rfl := Except.ok.inj hrun
      exact h.catchup hcatchup
  · exact h

end Inv

end World

/-- **Run lemma.** The log tells the life of every member. -/
theorem reachable_inv {w : World} (h : coordinator.Reachable w) : w.Inv := by
  refine System.Reachable.induction ?_ ?_ h
  · rintro w ⟨fresh, selection, loop, hnew, hw⟩
    rw [hw]
    exact World.inv_start hnew
  · exact fun w call w' _ hinv hstep => hinv.step hstep

/-- Several calls, each of which succeeds on what its caller holds. -/
def World.runs (w : World) : List Call → Option World
  | [] => some w
  | call :: rest =>
    match w.run call with
    | .ok w' => if w.Holds call then w'.runs rest else none
    | .error _ => none

theorem reachable_runs {w w' : World} {calls : List Call} (h : coordinator.Reachable w)
    (hruns : w.runs calls = some w') : coordinator.Reachable w' := by
  induction calls generalizing w with
  | nil => exact Option.some.inj hruns ▸ h
  | cons call rest ih =>
    rw [World.runs] at hruns
    split at hruns
    · next next hrun =>
      split at hruns
      · next hholds => exact ih (h.step ⟨hholds, .inl hrun⟩) hruns
      · exact nomatch hruns
    · exact nomatch hruns

/-- A round of all active members, from its binding to its commit. -/
def World.round (w : World) (epoch : ℕ) (observations : List MemberObservation)
    (controls : List MemberControl) : Option World := do
  let roster := w.loop.activeRoster
  let binding ← (w.loop.bindRound w.loop.nextRound epoch roster).toOption
  let permit ← (w.loop.preflightObservedRound binding w.loop.shape.selection epoch observations
    controls).toOption
  w.runs [.bindRound w.loop.nextRound epoch roster,
    .preflightObservedRound binding w.loop.shape.selection epoch observations controls,
    .commitPreflightedRound permit]

theorem reachable_round {w w' : World} {epoch : ℕ} {observations : List MemberObservation}
    {controls : List MemberControl} (h : coordinator.Reachable w)
    (hround : w.round epoch observations controls = some w') : coordinator.Reachable w' := by
  obtain ⟨_, -, hround⟩ := Option.bind_eq_some_iff.mp hround
  obtain ⟨_, -, hround⟩ := Option.bind_eq_some_iff.mp hround
  exact reachable_runs h hround

end SpeculativeLoop

end Ferric
