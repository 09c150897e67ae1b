import Ferric.ServingRegistry.Run

/-!
# What a replaced window installs

Every lane of a fresh window has the slot of its predecessor and the next generation, so the fresh
requests are distinct because the old ones were. They are not always new: admission does not look at
slots, so two members of one window can be consecutive generations of one slot, and then the
successor of the first is the second.

## Main results

* `window_replacement` — what is installed, what comes back, what goes into flight
* `exists_window_not_fresh` — a run whose window installs the request of a predecessor
-/

namespace Ferric

namespace ServingRegistry

open Spec

/-- What the replacement of a window by a fresh roster does. -/
structure Registry.Replacement {C : ℕ} (before after : Registry C) (plan : ServingPlan)
    (requests : List RequestId) (token : NewWindowReservation) : Prop where
  /-- The token has the entries that are replaced, and the roster takes their place. -/
  entries : token.predecessors = before.entries ∧ after.entries.map (·.request) = requests
  /-- The installed requests are distinct. -/
  distinct : requests.Nodup
  /-- Every lane moves on by one generation of its slot. -/
  lanes : List.Forall₂ (fun request (e : Entry) => request.slot = e.request.slot ∧
    request.generation = e.request.generation + 1) requests token.predecessors
  /-- A request is one of a predecessor only through two generations of one slot. -/
  fresh : (∃ request ∈ requests, ∃ e ∈ token.predecessors, e.request = request) ↔
    ∃ d ∈ token.predecessors, ∃ e ∈ token.predecessors, e.request.slot = d.request.slot ∧
      e.request.generation = d.request.generation + 1
  /-- Restoring the token gives the registry back, but for the next reservation id. -/
  restores : after.restoreCompletedWindowReplacement token =
    .ok ((plan, requests), { before with nextReservationId := before.nextReservationId + 1 })
  /-- Recording the token puts exactly the roster in flight. -/
  records : ∃ flying, after.recordNewWindowPublication token = .ok flying ∧
    flying.inFlight = some ⟨plan, requests, before.submittedEpoch + 1⟩ ∧
    flying.entries =
      requests.map fun request => ⟨request, plan, .inFlight (before.submittedEpoch + 1), none⟩

/-- **The replacement of a window**, in every run and for every roster that is accepted. -/
theorem window_replacement {C : ℕ} {w : World C} (h : (serving C).Reachable w) {plan : ServingPlan}
    {requests : List RequestId} {token : NewWindowReservation} {after : Registry C}
    (hreserve : w.registry.reserveCompletedWindowReplacement plan requests = .ok (token, after)) :
    w.registry.Replacement after plan requests token := by
  have hv := (reachable_good h).valid
  obtain ⟨prior, hreplaceable, rfl, rfl⟩ :=
    Registry.reserveCompletedWindowReplacement_eq_ok.mp hreserve
  obtain ⟨live, hreplaces⟩ := hreplaceable.replaces
  refine ⟨⟨rfl, ?_⟩, hreplaceable.nodup hv.nodup, ?_, hreplaceable.exists_mem_iff, ?_, ?_⟩
  · show (requests.map (freshEntry plan)).map (·.request) = requests
    rw [List.map_map]
    exact List.map_id' requests
  · refine hreplaceable.successors.imp fun request e hs => ?_
    rw [hs.eq]
    exact ⟨rfl, rfl⟩
  · refine Registry.restoreCompletedWindowReplacement_eq_ok.mpr ⟨⟨live, hreplaces⟩, rfl, ?_⟩
    have hunreserved := hreplaceable.unreserved
    obtain ⟨registry, windows, log⟩ := w
    obtain ⟨identity, entries, bound, reservation, inFlight, draftCatchup, next, submitted,
      completed⟩ := registry
    cases hunreserved
    rfl
  · refine ⟨_, Registry.recordNewWindowPublication_eq_ok.mpr ⟨live, hreplaces, rfl⟩, rfl, ?_⟩
    show (requests.map (freshEntry plan)).map (publishEntry requests _) = _
    rw [List.map_map]
    refine List.map_congr_left fun request hrequest => ?_
    exact if_pos hrequest

theorem window_replacement_bothRetire :
    ∃ (w : World 8) (token : NewWindowReservation) (after : Registry 8),
      w.registry.reserveCompletedWindowReplacement prefillS8 [⟨0, 2⟩, ⟨0, 3⟩] = .ok (token, after) ∧
        w.registry.Replacement after prefillS8 [⟨0, 2⟩, ⟨0, 3⟩] token := by
  obtain ⟨w, hw⟩ : ∃ w, (World.start 8).calls bothRetire = .ok w := ⟨_, rfl⟩
  have hreachable := reachable_bothRetire hw
  obtain rfl := Except.ok.inj hw
  exact ⟨_, _, _, rfl, window_replacement hreachable rfl⟩

/-- **A window that is not fresh.** The requests ⟨0, 1⟩ and ⟨0, 2⟩ retire in one window, and
⟨0, 2⟩ is installed again as the successor of ⟨0, 1⟩. -/
theorem exists_window_not_fresh :
    ¬ ∀ (C : ℕ) (w : World C), (serving C).Reachable w →
      ∀ (plan : ServingPlan) (requests : List RequestId) (token : NewWindowReservation)
        (after : Registry C),
        w.registry.reserveCompletedWindowReplacement plan requests = .ok (token, after) →
          ∀ request ∈ requests, ∀ e ∈ token.predecessors, e.request ≠ request := by
  intro h
  obtain ⟨w, hw⟩ : ∃ w, (World.start 8).calls bothRetire = .ok w := ⟨_, rfl⟩
  have hreachable := reachable_bothRetire hw
  obtain rfl := Except.ok.inj hw
  exact h 8 _ hreachable prefillS8 [⟨0, 2⟩, ⟨0, 3⟩] _ _ rfl ⟨0, 2⟩ (by simp) _ (.tail _ (.head _))
    rfl

end ServingRegistry

end Ferric
