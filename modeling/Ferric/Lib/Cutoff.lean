import Mathlib.Data.List.Basic
import Mathlib.Tactic.Common

/-!
# Streams that are cut

A stream is shown up to the first element that stops it, or up to a limit, whichever comes first.
As long as neither has happened all of it is shown, and showing more of it means showing more of
what arrives with what is left of the limit.

## Main definitions

* `cutoff` — what is shown
* `CutReached` — whether more would still be shown

## Main results

* `cutoff_append`, `cutReached_append` — arriving in blocks
-/

namespace Ferric

variable {α : Type*} {stop : α → Bool} {limit : ℕ} {l m : List α}

/-- The stream up to its first stopping element, or its first `limit` elements if these are less. -/
def cutoff (stop : α → Bool) : ℕ → List α → List α
  | 0, _ => []
  | _ + 1, [] => []
  | limit + 1, a :: l => a :: if stop a then [] else cutoff stop limit l

/-- Nothing that comes after the stream is shown. -/
def CutReached (stop : α → Bool) (limit : ℕ) (l : List α) : Prop :=
  limit ≤ l.length ∨ ∃ a ∈ l, stop a = true

instance : Decidable (CutReached stop limit l) :=
  inferInstanceAs (Decidable (limit ≤ l.length ∨ ∃ a ∈ l, stop a = true))

theorem cutoff_nil : cutoff stop limit [] = [] := by
  cases limit <;> rfl

theorem cutReached_nil : CutReached stop limit [] ↔ limit = 0 := by
  simp [CutReached]

/-- A stream that has not reached the cut is shown, and then what comes after it. -/
theorem cutoff_append (h : ¬ CutReached stop limit l) :
    cutoff stop limit (l ++ m) = l ++ cutoff stop (limit - l.length) m := by
  induction l generalizing limit with
  | nil => rfl
  | cons a l ih =>
    obtain ⟨hlimit, hstop⟩ := not_or.mp h
    have hall : ∀ b ∈ a :: l, ¬ stop b = true := fun b hb hs => hstop ⟨b, hb, hs⟩
    obtain ⟨ha, hl⟩ := List.forall_mem_cons.mp hall
    obtain ⟨n, rfl⟩ := Nat.exists_eq_add_one_of_ne_zero (n := limit) (by omega)
    rw [List.length_cons] at hlimit
    have hrest : ¬ CutReached stop n l :=
      not_or.mpr ⟨by omega, fun ⟨b, hb, hs⟩ => hl b hb hs⟩
    rw [List.cons_append, cutoff, if_neg ha, ih hrest, List.length_cons, Nat.add_sub_add_right]
    rfl

theorem cutoff_eq_self (h : ¬ CutReached stop limit l) : cutoff stop limit l = l := by
  simpa [cutoff_nil] using cutoff_append (m := []) h

theorem cutReached_append :
    CutReached stop limit (l ++ m) ↔
      CutReached stop limit l ∨ CutReached stop (limit - l.length) m := by
  simp only [CutReached, List.length_append, List.mem_append, or_and_right, exists_or]
  constructor
  · rintro (h | h | h)
    · exact .inr (.inl (by omega))
    · exact .inl (.inr h)
    · exact .inr (.inr h)
  · rintro ((h | h) | h | h)
    · exact .inl (by omega)
    · exact .inr (.inl h)
    · exact .inl (by omega)
    · exact .inr (.inr h)

end Ferric
