import Mathlib.Data.List.Nodup
import Mathlib.Data.List.Perm.Basic
import Mathlib.Tactic.Common

/-!
# Rounds of a barrier

The parties of a barrier pass it in rounds. Each round has a key, and the barrier releases the key
of a round when every party has arrived with it. The log of such a barrier is a transcript: complete
rounds, one after the other, and the arrivals of the round that is open.

Every statement about the whole log follows from its being a transcript. The keys are released in
their order, and the arrivals of one party are the keys in their order, so two parties are never
more than one round apart.

## Main definitions

* `Event` — an arrival of a party with a key, or the release of a key
* `transcript` — the log of complete rounds and of an open one
* `InStep` — every complete round is a permutation of the parties, the open one repeats none
-/

namespace Ferric

/-- What happens at a barrier. -/
inductive Event (ρ κ : Type) where
  | arrived (party : ρ) (key : κ)
  | released (key : κ)

namespace Event

variable {ρ κ : Type}

/-- The keys that were released, in order. -/
def releases (log : List (Event ρ κ)) : List κ :=
  log.filterMap fun
    | .arrived _ _ => none
    | .released key => some key

/-- The keys that a party arrived with, in order. -/
def arrivals [DecidableEq ρ] (party : ρ) (log : List (Event ρ κ)) : List κ :=
  log.filterMap fun
    | .arrived other key => if other = party then some key else none
    | .released _ => none

/-- The arrivals of a round. -/
def attended (key : κ) (round : List ρ) : List (Event ρ κ) := round.map (.arrived · key)

/-- The complete rounds, the first of them the round number `n`. -/
def completed (key : ℕ → κ) : ℕ → List (List ρ) → List (Event ρ κ)
  | _, [] => []
  | n, round :: rounds =>
    attended (key n) round ++ .released (key n) :: completed key (n + 1) rounds

/-- The log of complete rounds and of the arrivals in the round after them. -/
def transcript (key : ℕ → κ) (rounds : List (List ρ)) (current : List ρ) : List (Event ρ κ) :=
  completed key 0 rounds ++ attended (key rounds.length) current

/-- Every party attends each complete round once, and no party attends the open round twice. -/
structure InStep (parties : List ρ) (rounds : List (List ρ)) (current : List ρ) : Prop where
  complete : ∀ round ∈ rounds, round.Perm parties
  nodup : current.Nodup
  subset : ∀ party ∈ current, party ∈ parties

variable {key : ℕ → κ} {parties current : List ρ} {rounds : List (List ρ)} {party : ρ}

theorem InStep.nil (parties : List ρ) : InStep parties [] [] :=
  ⟨fun _ h => absurd h List.not_mem_nil, List.nodup_nil, fun _ h => absurd h List.not_mem_nil⟩

/-- A party that has not arrived yet may arrive. -/
theorem InStep.arrive (h : InStep parties rounds current) (hparty : party ∈ parties)
    (hnew : party ∉ current) : InStep parties rounds (current ++ [party]) := by
  refine ⟨h.complete, ?_, ?_⟩
  · refine List.nodup_append.mpr ⟨h.nodup, List.nodup_singleton party, fun a ha b hb => ?_⟩
    rintro rfl
    exact hnew (List.mem_singleton.mp hb ▸ ha)
  · intro other hother
    rcases List.mem_append.mp hother with hold | hone
    · exact h.subset other hold
    · rwa [List.mem_singleton.mp hone]

/-- A round that every party attended may be closed. -/
theorem InStep.release (h : InStep parties rounds current) (hparties : parties.Nodup)
    (hall : ∀ party ∈ parties, party ∈ current) : InStep parties (rounds ++ [current]) [] := by
  refine ⟨fun round hround => ?_, List.nodup_nil, fun _ h => absurd h List.not_mem_nil⟩
  rcases List.mem_append.mp hround with hold | hone
  · exact h.complete round hold
  · obtain rfl := List.mem_singleton.mp hone
    exact (List.perm_ext_iff_of_nodup h.nodup hparties).mpr fun party =>
      ⟨h.subset party, hall party⟩

/-! ### How a transcript grows -/

theorem attended_append (k : κ) (round round' : List ρ) :
    attended k (round ++ round') = attended k round ++ attended k round' := List.map_append

theorem completed_append (n : ℕ) (rounds rounds' : List (List ρ)) :
    completed key n (rounds ++ rounds') =
      completed key n rounds ++ completed key (n + rounds.length) rounds' := by
  induction rounds generalizing n with
  | nil => rfl
  | cons round rounds ih =>
    have hn : n + 1 + rounds.length = n + (round :: rounds).length := by
      rw [List.length_cons]
      omega
    simp only [List.cons_append, completed, ih, hn, List.append_assoc]

theorem transcript_arrive :
    transcript key rounds (current ++ [party]) =
      transcript key rounds current ++ [.arrived party (key rounds.length)] := by
  rw [transcript, transcript, attended_append, List.append_assoc]
  rfl

theorem transcript_release :
    transcript key (rounds ++ [current]) [] =
      transcript key rounds current ++ [.released (key rounds.length)] := by
  have hnone : attended (key (rounds ++ [current]).length) ([] : List ρ) = [] := rfl
  rw [transcript, transcript, completed_append, Nat.zero_add, hnone, List.append_nil,
    List.append_assoc]
  rfl

/-! ### What a transcript says -/

theorem releases_attended (k : κ) (round : List ρ) : releases (attended k round) = [] :=
  List.filterMap_eq_nil_iff.mpr fun event hevent => by
    obtain ⟨party, -, rfl⟩ := List.mem_map.mp hevent
    rfl

theorem releases_completed (n : ℕ) (rounds : List (List ρ)) :
    releases (completed key n rounds) = (List.range' n rounds.length).map key := by
  induction rounds generalizing n with
  | nil => rfl
  | cons round rounds ih =>
    rw [completed, List.length_cons, List.range'_succ, List.map_cons, ← ih]
    have hround : releases (attended (key n) round) = [] := releases_attended (key n) round
    rw [releases, List.filterMap_append]
    rw [releases] at hround
    rw [hround]
    rfl

/-- The keys are released in their order. -/
theorem releases_transcript :
    releases (transcript key rounds current) = (List.range rounds.length).map key := by
  have hopen : releases (attended (key rounds.length) current) = [] := releases_attended _ current
  have hclosed : releases (completed key 0 rounds) = (List.range' 0 rounds.length).map key :=
    releases_completed 0 rounds
  rw [releases] at hopen hclosed
  rw [transcript, releases, List.filterMap_append, hclosed, hopen, List.append_nil,
    List.range_eq_range']

section Arrivals

variable [DecidableEq ρ]

theorem arrivals_append (log log' : List (Event ρ κ)) :
    arrivals party (log ++ log') = arrivals party log ++ arrivals party log' :=
  List.filterMap_append

/-- A round without repetitions holds one arrival of each party that attends it. -/
theorem arrivals_attended (k : κ) {round : List ρ} (h : round.Nodup) :
    arrivals party (attended k round) = if party ∈ round then [k] else [] := by
  induction round with
  | nil => rfl
  | cons other round ih =>
    obtain ⟨hnew, hnodup⟩ := List.nodup_cons.mp h
    have hsplit : arrivals party (attended k (other :: round)) =
        (if other = party then [k] else []) ++ arrivals party (attended k round) := by
      rw [attended, List.map_cons, arrivals, List.filterMap_cons]
      by_cases heq : other = party
      · rw [if_pos heq]
        simp [heq, arrivals, attended]
      · rw [if_neg heq]
        simp [heq, arrivals, attended]
    rw [hsplit, ih hnodup]
    by_cases heq : other = party
    · subst heq
      rw [if_pos rfl, if_neg hnew, if_pos List.mem_cons_self, List.append_nil]
    · have hmem : party ∈ other :: round ↔ party ∈ round := by
        rw [List.mem_cons]
        exact or_iff_right (Ne.symm heq)
      rw [if_neg heq, List.nil_append, if_congr hmem rfl rfl]

theorem arrivals_completed (n : ℕ) (hparties : parties.Nodup)
    (hrounds : ∀ round ∈ rounds, round.Perm parties) (hparty : party ∈ parties) :
    arrivals party (completed key n rounds) = (List.range' n rounds.length).map key := by
  induction rounds generalizing n with
  | nil => rfl
  | cons round rounds ih =>
    have hperm : round.Perm parties := hrounds round List.mem_cons_self
    have hnodup : round.Nodup := hperm.nodup_iff.mpr hparties
    have hrest := ih (n + 1) fun r hr => hrounds r (.tail _ hr)
    rw [completed, arrivals_append, arrivals_attended (key n) hnodup,
      if_pos (hperm.mem_iff.mpr hparty), List.length_cons, List.range'_succ, List.map_cons, ← hrest]
    rfl

/-- **The arrivals of one party are the keys in their order.** -/
theorem InStep.arrivals_eq (h : InStep parties rounds current) (hparties : parties.Nodup)
    (hparty : party ∈ parties) :
    arrivals party (transcript key rounds current) =
      (List.range (rounds.length + if party ∈ current then 1 else 0)).map key := by
  rw [transcript, arrivals_append, arrivals_completed 0 hparties h.complete hparty,
    arrivals_attended _ h.nodup, ← List.range_eq_range']
  by_cases hmem : party ∈ current
  · rw [if_pos hmem, if_pos hmem, List.range_succ, List.map_append]
    rfl
  · rw [if_neg hmem, if_neg hmem, Nat.add_zero, List.append_nil]

/-- No party is more than one round ahead of another. -/
theorem InStep.length_arrivals_le (h : InStep parties rounds current) (hparties : parties.Nodup)
    {other : ρ} (hparty : party ∈ parties) (hother : other ∈ parties) :
    (arrivals party (transcript key rounds current)).length ≤
      (arrivals other (transcript key rounds current)).length + 1 := by
  rw [h.arrivals_eq hparties hparty, h.arrivals_eq hparties hother, List.length_map,
    List.length_map, List.length_range, List.length_range]
  split <;> omega

end Arrivals

end Event

end Ferric
