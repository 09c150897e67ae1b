import Mathlib.Data.List.Nodup
import Mathlib.Data.Nat.Basic
import Mathlib.Order.Basic
import Mathlib.Tactic.Common

/-!
# Generational identities

A key is taken and given back in turns, and each time it is taken it goes by the name of its current
generation. The *stamp* of a key counts these events: `2 * g` while generation `g` is vacant and
`2 * g + 1` while it is taken. A stamp that only grows is enough to make the names unique.

`Issued` relates a stamp to the names taken and given back so far.
-/

namespace Ferric

variable {ι κ : Type*}

/-- The names in `taken` were taken once each, those in `given` were given back. -/
structure Issued (key : ι → κ) (generation : ι → ℕ) (stamp : κ → ℕ) (taken given : List ι) :
    Prop where
  nodup : taken.Nodup
  taken_le : ∀ x ∈ taken, 2 * generation x + 1 ≤ stamp (key x)
  given_le : ∀ x ∈ given, 2 * generation x + 2 ≤ stamp (key x)

namespace Issued

variable {key : ι → κ} {generation : ι → ℕ} {stamp stamp' : κ → ℕ} {taken given fresh : List ι}

theorem nil : Issued key generation stamp [] [] := ⟨List.nodup_nil, by simp, by simp⟩

/-- Stamps that grow keep every name used up. -/
theorem mono (h : Issued key generation stamp taken given) (hle : ∀ k, stamp k ≤ stamp' k) :
    Issued key generation stamp' taken given :=
  ⟨h.nodup, fun x hx => (h.taken_le x hx).trans (hle _),
    fun x hx => (h.given_le x hx).trans (hle _)⟩

/-- Names of vacant keys are new. -/
theorem take (h : Issued key generation stamp taken given) (hle : ∀ k, stamp k ≤ stamp' k)
    (hnd : fresh.Nodup) (hvacant : ∀ x ∈ fresh, stamp (key x) = 2 * generation x)
    (htaken : ∀ x ∈ fresh, stamp' (key x) = 2 * generation x + 1) :
    Issued key generation stamp' (taken ++ fresh) given := by
  refine ⟨List.Nodup.append h.nodup hnd fun x hx hf => ?_, fun x hx => ?_, (h.mono hle).given_le⟩
  · have hused := h.taken_le x hx
    rw [hvacant x hf] at hused
    omega
  · rcases List.mem_append.mp hx with hx | hx
    · exact (h.mono hle).taken_le x hx
    · exact (htaken x hx).ge

/-- Names of keys whose stamp has passed them are given back. -/
theorem give (h : Issued key generation stamp taken given)
    (hgiven : ∀ x ∈ fresh, 2 * generation x + 2 ≤ stamp (key x)) :
    Issued key generation stamp taken (given ++ fresh) := by
  refine ⟨h.nodup, h.taken_le, fun x hx => ?_⟩
  rcases List.mem_append.mp hx with hx | hx
  · exact h.given_le x hx
  · exact hgiven x hx

end Issued

end Ferric
