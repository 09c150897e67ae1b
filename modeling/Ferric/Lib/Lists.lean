import Mathlib.Data.Finset.Card
import Mathlib.Data.Finset.Range
import Mathlib.Data.List.Basic
import Mathlib.Data.List.Induction
import Mathlib.Data.List.Nodup
import Mathlib.Data.List.Range
import Mathlib.Algebra.BigOperators.Group.List.Basic
import Mathlib.Tactic.Common

/-!
# Lists used as arrays

Counts after an in-place update, exact chunks, and a pigeonhole bound. All indices are read with
`getElem?`, so that a statement about slot `i` needs no bound on `i`.
-/

namespace Ferric

variable {α : Type}

/-- What can be read after an in-place update. -/
theorem getElem?_set_eq_some {l : List α} {i j : ℕ} {a b : α} :
    (l.set i a)[j]? = some b ↔
      (i = j ∧ j < l.length ∧ a = b) ∨ (i ≠ j ∧ l[j]? = some b) := by
  rw [List.getElem?_set]
  by_cases hij : i = j
  · subst hij
    by_cases hi : i < l.length <;> simp [hi]
  · simp [hij]

/-- An in-place update moves a count by the old and the new element. -/
theorem countP_set_add {f : α → Bool} {l : List α} {i : ℕ} {a b : α} (h : l[i]? = some a) :
    (l.set i b).countP f + (if f a then 1 else 0) = l.countP f + (if f b then 1 else 0) := by
  obtain ⟨hi, rfl⟩ := List.getElem?_eq_some_iff.mp h
  rw [List.countP_set hi]
  by_cases ha : f l[i] = true
  · have : 0 < l.countP f := List.countP_pos_iff.mpr ⟨_, List.getElem_mem hi, ha⟩
    simp only [ha, if_true]
    omega
  · simp only [ha, Bool.false_eq_true, if_false]
    omega

/-- The indices of the elements that are counted. -/
theorem card_filter_any (f : α → Bool) (l : List α) :
    ((Finset.range l.length).filter fun i => l[i]?.any f).card = l.countP f := by
  induction l using List.reverseRecOn with
  | nil => rfl
  | append_singleton l a ih =>
    have hold : ∀ i ∈ Finset.range l.length, (l ++ [a])[i]?.any f ↔ l[i]?.any f := by
      intro i hi
      rw [Finset.mem_range] at hi
      rw [List.getElem?_append_left hi]
    rw [List.length_append, List.length_singleton, Finset.range_add_one, Finset.filter_insert,
      Finset.filter_congr hold, List.countP_append, ← ih]
    cases hf : f a <;> simp [hf]

/-- Distinct numbers below `n` that avoid `p < n` are fewer than `n`. -/
theorem length_lt_of_nodup_of_not_mem {l : List ℕ} {n p : ℕ} (hnd : l.Nodup)
    (hlt : ∀ a ∈ l, a < n) (hp : p < n) (hpl : p ∉ l) : l.length < n := by
  have hsub : (p :: l).length ≤ (List.range n).length := by
    refine (List.subperm_of_subset (List.nodup_cons.mpr ⟨hpl, hnd⟩) fun a ha => ?_).length_le
    rcases List.mem_cons.mp ha with rfl | ha
    · exact List.mem_range.mpr hp
    · exact List.mem_range.mpr (hlt a ha)
  rw [List.length_cons, List.length_range] at hsub
  exact hsub

/-- Distinct numbers below `n` are at most `n` many. -/
theorem length_le_of_nodup_of_lt {l : List ℕ} {n : ℕ} (hnd : l.Nodup) (hlt : ∀ a ∈ l, a < n) :
    l.length ≤ n := by
  have hsub : l ⊆ List.range n := fun a ha => List.mem_range.mpr (hlt a ha)
  simpa using (List.subperm_of_subset hnd hsub).length_le

/-- Elements that a list tells apart by `f` are equal when `f` does not. -/
theorem eq_of_pairwise_ne {α β : Type*} {f : α → β} {l : List α}
    (h : l.Pairwise fun a b => f a ≠ f b) {a b : α} (ha : a ∈ l) (hb : b ∈ l) (hf : f a = f b) :
    a = b :=
  List.inj_on_of_nodup_map (List.pairwise_map.mpr h) ha hb hf

/-- Everything before the last element of a pairwise related list is related to it. -/
theorem rel_getLast?_of_pairwise {α : Type*} {R : α → α → Prop} {l : List α} {x : α}
    (hrefl : ∀ a, R a a) (h : l.Pairwise R) (hlast : l.getLast? = some x) : ∀ a ∈ l, R a x := by
  obtain ⟨init, rfl⟩ := List.getLast?_eq_some_iff.mp hlast
  intro a ha
  rcases List.mem_append.mp ha with hinit | hx
  · exact (List.pairwise_append.mp h).2.2 a hinit x (List.mem_singleton_self x)
  · rw [List.mem_singleton.mp hx]
    exact hrefl x

/-- A pairwise related list grows by an element that all others are related to. -/
theorem pairwise_append_singleton {α : Type*} {R : α → α → Prop} {l : List α} {x : α}
    (h : l.Pairwise R) (hx : ∀ a ∈ l, R a x) : (l ++ [x]).Pairwise R :=
  List.pairwise_append.mpr ⟨h, List.pairwise_singleton R x, fun a ha _ hb =>
    List.mem_singleton.mp hb ▸ hx a ha⟩

/-- Results that name their arguments are the arguments' results, one by one. -/
theorem map_eq_of_forall₂ {β : Type*} {f : β → α} {P : β → Prop} {l : List α} {bs : List β}
    (h : List.Forall₂ (fun a b => f b = a ∧ P b) l bs) : bs.map f = l ∧ ∀ b ∈ bs, P b := by
  induction h with
  | nil => simp
  | cons hb _ ih =>
    obtain ⟨hmap, hall⟩ := ih
    exact ⟨by rw [List.map_cons, hb.1, hmap], List.forall_mem_cons.mpr ⟨hb.2, hall⟩⟩

/-- Every argument has its result, at the same position. -/
theorem getElem?_of_forall₂ {β : Type*} {R : α → β → Prop} {l : List α} {bs : List β}
    (h : List.Forall₂ R l bs) {i : ℕ} {a : α} (ha : l[i]? = some a) :
    ∃ b, bs[i]? = some b ∧ R a b := by
  obtain ⟨hi, rfl⟩ := List.getElem?_eq_some_iff.mp ha
  have hi' : i < bs.length := h.length_eq ▸ hi
  exact ⟨bs[i], List.getElem?_eq_getElem hi', h.get hi hi'⟩

/-- Every result has its argument. -/
theorem exists_of_forall₂ {β : Type*} {R : α → β → Prop} {l : List α} {bs : List β}
    (h : List.Forall₂ R l bs) {b : β} (hb : b ∈ bs) : ∃ a ∈ l, R a b := by
  induction h with
  | nil => simp at hb
  | @cons a c l bs hr _ ih =>
    rcases List.mem_cons.mp hb with rfl | hb
    · exact ⟨a, List.mem_cons_self, hr⟩
    · obtain ⟨a', ha', hr'⟩ := ih hb
      exact ⟨a', List.mem_cons_of_mem _ ha', hr'⟩

/-- Results that stand in a relation to their arguments are results. -/
theorem forall₂_mem_right {β : Type*} {R : α → β → Prop} {l : List α} {bs : List β}
    (h : List.Forall₂ R l bs) : List.Forall₂ (fun a b => R a b ∧ b ∈ bs) l bs := by
  induction h with
  | nil => exact .nil
  | cons hr _ ih =>
    exact .cons ⟨hr, List.mem_cons_self⟩ (ih.imp fun _ _ hb => ⟨hb.1, .tail _ hb.2⟩)

/-- What stands between two lists, as a list of its own. -/
theorem exists_between_of_forall₂ {β γ : Type*} {R : α → β → γ → Prop} {l : List α}
    {cs : List γ} (h : List.Forall₂ (fun a c => ∃ b, R a b c) l cs) :
    ∃ between : List (α × β × γ), between.map (·.1) = l ∧ between.map (·.2.2) = cs ∧
      ∀ x ∈ between, R x.1 x.2.1 x.2.2 := by
  induction h with
  | nil => exact ⟨[], rfl, rfl, by simp⟩
  | @cons a c l cs hr _ ih =>
    obtain ⟨b, hb⟩ := hr
    obtain ⟨between, hl, hcs, hall⟩ := ih
    exact ⟨(a, b, c) :: between, by simp [hl], by simp [hcs], List.forall_mem_cons.mpr ⟨hb, hall⟩⟩

/-- The array with `f i` in slot `i`. -/
def tabulate (n : ℕ) (f : ℕ → α) : List α := (List.range n).map f

@[simp] theorem length_tabulate (n : ℕ) (f : ℕ → α) : (tabulate n f).length = n := by
  simp [tabulate]

theorem getElem?_tabulate {n i : ℕ} (f : ℕ → α) (h : i < n) :
    (tabulate n f)[i]? = some (f i) := by
  simp [tabulate, h]

theorem replicate_eq_tabulate (n : ℕ) (a : α) : List.replicate n a = tabulate n fun _ => a := by
  simp [tabulate, List.map_const']

theorem modify_tabulate {n i : ℕ} (f : ℕ → α) (g : α → α) :
    (tabulate n f).modify i g = tabulate n fun j => if j = i then g (f j) else f j := by
  refine List.ext_getElem? fun j => ?_
  rw [List.getElem?_modify]
  by_cases hj : j < n
  · rw [getElem?_tabulate _ hj, getElem?_tabulate _ hj]
    by_cases hij : i = j
    · simp [hij]
    · simp [hij, Ne.symm hij]
  · rw [List.getElem?_eq_none (by simpa using hj), List.getElem?_eq_none (by simpa using hj)]
    rfl

theorem set_tabulate {n i : ℕ} (f : ℕ → α) (a : α) :
    (tabulate n f).set i a = tabulate n fun j => if j = i then a else f j := by
  refine List.ext_getElem? fun j => ?_
  rw [List.getElem?_set, length_tabulate]
  by_cases hj : j < n
  · rw [getElem?_tabulate _ hj, getElem?_tabulate _ hj]
    by_cases hij : i = j
    · simp [hij, hj]
    · simp [hij, Ne.symm hij]
  · rw [List.getElem?_eq_none (by simpa using hj), List.getElem?_eq_none (by simpa using hj)]
    by_cases hij : i = j
    · simp [hij, hj]
    · simp [hij]

/-- Split off consecutive chunks of exactly `n` elements, dropping the remainder. -/
def chunksExact (n : ℕ) (l : List α) : List (List α) :=
  (List.range (l.length / n)).map fun i => (l.drop (n * i)).take n

@[simp] theorem length_chunksExact (n : ℕ) (l : List α) :
    (chunksExact n l).length = l.length / n := by
  simp [chunksExact]

theorem getElem?_chunksExact {n i : ℕ} {l : List α} (h : i < l.length / n) :
    (chunksExact n l)[i]? = some ((l.drop (n * i)).take n) := by
  simp [chunksExact, h]

/-- A prefix of whole chunks grows by the next chunk. -/
theorem take_append_chunk (l : List α) (n i : ℕ) :
    l.take (n * i) ++ (l.drop (n * i)).take n = l.take (n * (i + 1)) := by
  rw [Nat.mul_add, Nat.mul_one, List.take_add]

theorem length_chunk {n i : ℕ} {l : List α} (h : n * (i + 1) ≤ l.length) :
    ((l.drop (n * i)).take n).length = n := by
  rw [List.length_take, List.length_drop]
  rw [Nat.mul_add, Nat.mul_one] at h
  omega

/-- A sublist of distinct elements is the list filtered by membership in it. -/
theorem filter_mem_of_sublist {α : Type*} [DecidableEq α] {l m : List α} (h : l.Sublist m)
    (hnd : m.Nodup) : m.filter (· ∈ l) = l := by
  induction h with
  | slnil => rfl
  | @cons l m a hsub ih =>
    obtain ⟨ha, hnd⟩ := List.nodup_cons.mp hnd
    rw [List.filter_cons_of_neg (by simpa using fun hl => ha (hsub.subset hl)), ih hnd]
  | @cons_cons l m a hsub ih =>
    obtain ⟨ha, hnd⟩ := List.nodup_cons.mp hnd
    rw [List.filter_cons_of_pos (by simp)]
    congr 1
    rw [← ih hnd]
    refine List.filter_congr fun x hx => ?_
    have hne : x ≠ a := fun he => ha (he ▸ hx)
    simp [ih hnd, hne]

end Ferric
