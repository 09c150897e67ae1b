import Mathlib.Data.Finset.Card
import Mathlib.Data.List.Basic
import Mathlib.Logic.Function.Basic
import Mathlib.Tactic.Common

/-!
# Trees given by parent links

A tree whose nodes are named by an arbitrary type: `link i` is the parent of `i` and the label of
the edge from it, or `none` when `i` is not a node. `PathTree` says that `path i` spells the labels
from the root down to `i` and that nodes with the same path are the same. The set of paths is then
closed under prefixes, and a node without children is the only thing that can be taken out.

Links only ever point upwards. How a program finds the children of a node is its own affair.

## Main results

* `PathTree.exists_of_isPrefix` — every prefix of a node's path is a node's path
* `PathTree.length_lt` — a path is shorter than a bound on the nodes' names
* `PathTree.exists_leaf` — below every node there is one without children
* `PathTree.insert`, `PathTree.remove` — a new node, and a leaf taken out
-/

namespace Ferric

variable {ι τ : Type*} {root : ι} {link : ι → Option (ι × τ)} {path : ι → List τ}

/-- `path` spells the way from the root to every node. -/
structure PathTree (root : ι) (link : ι → Option (ι × τ)) (path : ι → List τ) : Prop where
  root_isSome : (link root).isSome
  path_root : path root = []
  /-- Below the root, the path is the parent's path and the label. -/
  step : ∀ {i p t}, link i = some (p, t) → i ≠ root → (link p).isSome ∧ path i = path p ++ [t]
  /-- A path leads to one node. -/
  inj : ∀ {i j}, (link i).isSome → (link j).isSome → path i = path j → i = j

namespace PathTree

variable {i j p : ι} {t : τ} {w : List τ}

theorem path_eq_nil_iff (h : PathTree root link path) (hi : (link i).isSome) :
    path i = [] ↔ i = root := by
  constructor
  · intro hp
    exact h.inj hi h.root_isSome (hp.trans h.path_root.symm)
  · rintro rfl
    exact h.path_root

theorem exists_step (h : PathTree root link path) (hi : (link i).isSome) (hne : i ≠ root) :
    ∃ p t, link i = some (p, t) ∧ (link p).isSome ∧ path i = path p ++ [t] := by
  obtain ⟨⟨p, t⟩, hl⟩ := Option.isSome_iff_exists.mp hi
  exact ⟨p, t, hl, h.step hl hne⟩

/-- The set of paths is closed under prefixes. -/
theorem exists_of_isPrefix (h : PathTree root link path) (hi : (link i).isSome)
    (hw : w <+: path i) : ∃ j, (link j).isSome ∧ path j = w := by
  induction hn : (path i).length generalizing i with
  | zero =>
    refine ⟨i, hi, ?_⟩
    rw [List.eq_nil_of_length_eq_zero hn] at hw ⊢
    exact (List.prefix_nil.mp hw).symm
  | succ n ih =>
    by_cases hwi : w = path i
    · exact ⟨i, hi, hwi.symm⟩
    have hne : i ≠ root := by
      rintro rfl
      simp [h.path_root] at hn
    obtain ⟨p, t, -, hp, hpath⟩ := h.exists_step hi hne
    rw [hpath] at hw hwi hn
    refine ih hp ((List.prefix_concat_iff.mp hw).resolve_left hwi) ?_
    simpa using hn

/-- Nodes named by numbers below `n` are too few for a path of length `n`. -/
theorem length_lt {root : ℕ} {link : ℕ → Option (ℕ × τ)} {path : ℕ → List τ} {n i : ℕ}
    (h : PathTree root link path) (hn : ∀ i, (link i).isSome → i < n) (hi : (link i).isSome) :
    (path i).length < n := by
  -- the prefixes of the path belong to different nodes
  have hpre : ∀ k, ∃ j, (link j).isSome ∧ path j = (path i).take k :=
    fun k => h.exists_of_isPrefix hi (List.take_prefix _ _)
  choose f hf hpath using hpre
  have hcard : (Finset.range ((path i).length + 1)).card ≤ (Finset.range n).card := by
    refine Finset.card_le_card_of_injOn f (fun k _ => ?_) fun k hk l hl hkl => ?_
    · simpa using hn _ (hf k)
    · have hlen := congrArg (fun j => (path j).length) hkl
      simp only [hpath, List.length_take, Finset.coe_range, Set.mem_Iio] at hlen hk hl
      omega
  rw [Finset.card_range, Finset.card_range] at hcard
  exact hcard

/-- Below every node there is one without children, if paths are bounded. -/
theorem exists_leaf (h : PathTree root link path) {n : ℕ}
    (hn : ∀ i, (link i).isSome → (path i).length < n) (hi : (link i).isSome) :
    ∃ j, (link j).isSome ∧ path i <+: path j ∧ ∀ k t, link k = some (j, t) → k = root := by
  induction hk : n - (path i).length generalizing i with
  | zero => exact absurd (hn i hi) (by omega)
  | succ k ih =>
    by_cases hleaf : ∀ k t, link k = some (i, t) → k = root
    · exact ⟨i, hi, List.prefix_refl _, hleaf⟩
    push Not at hleaf
    obtain ⟨c, t, hc, hne⟩ := hleaf
    obtain ⟨-, hpath⟩ := h.step hc hne
    have hsome : (link c).isSome := by simp [hc]
    have hlen : (path c).length = (path i).length + 1 := by simp [hpath]
    obtain ⟨j, hj, hpre, hend⟩ := ih hsome (by have := hn c hsome; omega)
    refine ⟨j, hj, List.IsPrefix.trans ?_ hpre, hend⟩
    rw [hpath]
    exact List.prefix_append _ _

/-- Only the links matter. -/
theorem congr {link' : ι → Option (ι × τ)} (h : PathTree root link path) (hl : link' = link) :
    PathTree root link' path := hl ▸ h

variable [DecidableEq ι]

/-- A new node below `p`, where no node has its path yet. -/
theorem insert (h : PathTree root link path) (hi : link i = none) (hp : (link p).isSome)
    (hfresh : ∀ j, (link j).isSome → path j ≠ path p ++ [t]) :
    PathTree root (Function.update link i (some (p, t)))
      (Function.update path i (path p ++ [t])) := by
  have hne : ∀ j, (link j).isSome → j ≠ i := by
    rintro j hj rfl
    simp [hi] at hj
  have hold : ∀ j, j ≠ i → (Function.update link i (some (p, t)) j).isSome →
      (link j).isSome := by
    intro j hj
    rw [Function.update_of_ne hj]
    exact id
  refine ⟨?_, ?_, ?_, ?_⟩
  · rw [Function.update_of_ne (hne _ h.root_isSome)]
    exact h.root_isSome
  · rw [Function.update_of_ne (hne _ h.root_isSome)]
    exact h.path_root
  · intro j q u hj hroot
    by_cases hji : j = i
    · subst hji
      rw [Function.update_self] at hj
      obtain ⟨rfl, rfl⟩ := Prod.mk.inj (Option.some.inj hj)
      rw [Function.update_self, Function.update_of_ne (hne _ hp), Function.update_of_ne (hne _ hp)]
      exact ⟨hp, rfl⟩
    · rw [Function.update_of_ne hji] at hj
      obtain ⟨hq, hpath⟩ := h.step hj hroot
      rw [Function.update_of_ne hji, Function.update_of_ne (hne _ hq),
        Function.update_of_ne (hne _ hq)]
      exact ⟨hq, hpath⟩
  · intro j k hj hk hjk
    by_cases hji : j = i <;> by_cases hki : k = i
    · exact hji.trans hki.symm
    · subst hji
      rw [Function.update_self, Function.update_of_ne hki] at hjk
      exact absurd hjk.symm (hfresh k (hold k hki hk))
    · subst hki
      rw [Function.update_self, Function.update_of_ne hji] at hjk
      exact absurd hjk (hfresh j (hold j hji hj))
    · rw [Function.update_of_ne hji, Function.update_of_ne hki] at hjk
      exact h.inj (hold j hji hj) (hold k hki hk) hjk

/-- A node without children can be taken out. -/
theorem remove (h : PathTree root link path) (hroot : i ≠ root)
    (hleaf : ∀ k t, link k = some (i, t) → k = root) :
    PathTree root (Function.update link i none) path := by
  have hold : ∀ {j}, (Function.update link i none j).isSome →
      j ≠ i ∧ (link j).isSome := by
    intro j hj
    by_cases hji : j = i
    · subst hji
      simp at hj
    · rw [Function.update_of_ne hji] at hj
      exact ⟨hji, hj⟩
  refine ⟨?_, h.path_root, ?_, fun hj hk => h.inj (hold hj).2 (hold hk).2⟩
  · rw [Function.update_of_ne hroot.symm]
    exact h.root_isSome
  · intro j p t hj hne
    rw [Function.update_of_ne (hold (by simp [hj])).1] at hj
    obtain ⟨hp, hpath⟩ := h.step hj hne
    rw [Function.update_of_ne]
    · exact ⟨hp, hpath⟩
    · rintro rfl
      exact hne (hleaf j t hj)

end PathTree

end Ferric
