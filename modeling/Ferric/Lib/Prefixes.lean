import Mathlib.Data.Finset.Card
import Mathlib.Data.List.Infix
import Mathlib.Order.Interval.Finset.Nat
import Mathlib.Tactic.Common

/-!
# The distinct prefixes of a list of words

A trie that holds the words of a list has one node for each prefix of a word, and the root for the
empty one. `prefixes` counts the others. One more word adds its prefixes beyond the longest that is
there already.
-/

namespace Ferric

variable {α : Type*} [DecidableEq α] {words : List (List α)} {v w : List α}

/-- The nonempty prefixes of the words, each once. -/
def prefixes (words : List (List α)) : Finset (List α) :=
  (words.flatMap List.inits).toFinset.erase []

theorem mem_prefixes : w ∈ prefixes words ↔ w ≠ [] ∧ ∃ v ∈ words, w <+: v := by
  simp [prefixes]

/-- One more word, of which the first `d` letters are a prefix already. -/
theorem card_prefixes_cons {d : ℕ}
    (h : ∀ k, 0 < k → k ≤ w.length → (w.take k ∈ prefixes words ↔ k ≤ d)) :
    (prefixes (w :: words)).card = (prefixes words).card + (w.length - d) := by
  have hunion : prefixes (w :: words) =
      prefixes words ∪ (Finset.Ioc d w.length).image (w.take ·) := by
    ext v
    rw [Finset.mem_union, Finset.mem_image, mem_prefixes, mem_prefixes, List.exists_mem_cons_iff]
    constructor
    · rintro ⟨hne, hpre | hmem⟩
      · obtain ⟨k, hk, rfl⟩ : ∃ k, k ≤ w.length ∧ v = w.take k :=
          ⟨v.length, hpre.length_le, List.prefix_iff_eq_take.mp hpre⟩
        by_cases hkd : k ≤ d
        · have hpos : 0 < k := by
            rcases Nat.eq_zero_or_pos k with rfl | hpos
            · simp at hne
            · exact hpos
          exact .inl (mem_prefixes.mp ((h k hpos hk).mpr hkd))
        · exact .inr ⟨k, Finset.mem_Ioc.mpr ⟨by omega, hk⟩, rfl⟩
      · exact .inl ⟨hne, hmem⟩
    · rintro (⟨hne, hmem⟩ | ⟨k, hk, rfl⟩)
      · exact ⟨hne, .inr hmem⟩
      · rw [Finset.mem_Ioc] at hk
        refine ⟨fun hnil => ?_, .inl (List.take_prefix _ _)⟩
        have hlen := congrArg List.length hnil
        rw [List.length_take, List.length_nil] at hlen
        omega
  have hdisjoint : Disjoint (prefixes words) ((Finset.Ioc d w.length).image (w.take ·)) := by
    refine Finset.disjoint_right.mpr fun v hv hold => ?_
    obtain ⟨k, hk, rfl⟩ := Finset.mem_image.mp hv
    rw [Finset.mem_Ioc] at hk
    have := (h k (by omega) hk.2).mp hold
    omega
  rw [hunion, Finset.card_union_of_disjoint hdisjoint, Finset.card_image_of_injOn, Nat.card_Ioc]
  intro k hk l hl hkl
  rw [Finset.mem_coe, Finset.mem_Ioc] at hk hl
  have hlen := congrArg List.length hkl
  simp only [List.length_take] at hlen
  omega

end Ferric
