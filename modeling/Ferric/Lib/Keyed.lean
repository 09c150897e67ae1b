import Mathlib.Data.List.Nodup
import Mathlib.Tactic.Common

/-!
# Lists whose elements have distinct keys

A roster is a list of participants with distinct keys, and a round of updates names the participants
it is for. Applying the updates one by one, each in place at the index of its participant, is the
same as letting every participant take the update that names it, if there is one.

## Main results

* `Keyed.set_eq_map_take` — an update in place
* `Keyed.map_take_cons` — one update after the others
-/

namespace Ferric

namespace Keyed

variable {α κ δ : Type} {key : α → κ} {name : δ → κ} {f : α → δ → α}

/-- The only element with a key, by its index. -/
theorem eq_of_nodup {l : List α} (hnd : (l.map key).Nodup) {a b : α} (ha : a ∈ l) (hb : b ∈ l)
    (hkey : key a = key b) : a = b :=
  List.inj_on_of_nodup_map hnd ha hb hkey

variable [DecidableEq κ]

/-- The first index with the key of an element is the index of that element. -/
theorem getElem?_of_findIdx? {l : List α} (hnd : (l.map key).Nodup) {a : α} (ha : a ∈ l) {i : ℕ}
    (h : l.findIdx? (key · = key a) = some i) : l[i]? = some a := by
  obtain ⟨hi, hkey, -⟩ := List.findIdx?_eq_some_iff_getElem.mp h
  have heq : l[i] = a := eq_of_nodup hnd (List.getElem_mem hi) ha (by simpa using hkey)
  rw [List.getElem?_eq_getElem hi, heq]

/-- What an element becomes under the update that names its key, if there is one. -/
def take (key : α → κ) (name : δ → κ) (f : α → δ → α) (updates : List δ) (a : α) : α :=
  match updates.find? (name · = key a) with
  | some u => f a u
  | none => a

theorem take_nil (a : α) : take key name f [] a = a := rfl

/-- An element that no update names stays. -/
theorem take_of_forall_ne {updates : List δ} {a : α} (h : ∀ u ∈ updates, name u ≠ key a) :
    take key name f updates a = a := by
  have hnone : updates.find? (name · = key a) = none :=
    List.find?_eq_none.mpr fun u hu => by simpa using h u hu
  rw [take, hnone]

theorem take_cons (u : δ) (updates : List δ) (a : α) :
    take key name f (u :: updates) a =
      if name u = key a then f a u else take key name f updates a := by
  rw [take, List.find?_cons]
  by_cases h : name u = key a
  · simp [h]
  · simp [h, take]

/-- An update in place, told by the key of the element it is for. -/
theorem set_eq_map_take {l : List α} (hnd : (l.map key).Nodup) {i : ℕ} {a : α} (h : l[i]? = some a)
    {u : δ} (hu : name u = key a) : l.set i (f a u) = l.map (take key name f [u]) := by
  obtain ⟨hi, rfl⟩ := List.getElem?_eq_some_iff.mp h
  refine List.ext_getElem (by simp) fun j hj hj' => ?_
  rw [List.length_set] at hj
  rw [List.getElem_set, List.getElem_map, take_cons, take_nil]
  by_cases hij : i = j
  · subst hij
    simp [hu]
  · have hne : name u ≠ key l[j] := by
      intro hkey
      have heq : l[i] = l[j] :=
        eq_of_nodup hnd (List.getElem_mem hi) (List.getElem_mem hj) (hu.symm.trans hkey)
      exact hij ((hnd.of_map key).getElem_inj_iff.mp heq)
    rw [if_neg hij, if_neg hne]

/-- One update, and then the others: every element takes at most one of them. -/
theorem map_take_cons {l : List α} {u : δ} {updates : List δ}
    (hnd : ((u :: updates).map name).Nodup) (hkey : ∀ a, key (f a u) = key a) :
    (l.map (take key name f [u])).map (take key name f updates) =
      l.map (take key name f (u :: updates)) := by
  rw [List.map_map]
  refine List.map_congr_left fun a _ => ?_
  show take key name f updates (take key name f [u] a) = _
  rw [take_cons, take_nil, take_cons]
  by_cases hu : name u = key a
  · rw [if_pos hu, if_pos hu]
    refine take_of_forall_ne fun v hv => ?_
    rw [hkey, ← hu]
    exact fun hvu => (List.nodup_cons.mp hnd).1 (hvu ▸ List.mem_map_of_mem hv)
  · rw [if_neg hu, if_neg hu]

/-- The elements that take an update keep their keys. -/
theorem map_key_take {l : List α} {updates : List δ}
    (hkey : ∀ a, ∀ u ∈ updates, key (f a u) = key a) :
    (l.map (take key name f updates)).map key = l.map key := by
  rw [List.map_map]
  refine List.map_congr_left fun a _ => ?_
  show key (take key name f updates a) = key a
  unfold take
  split
  · next u hu => exact hkey a u (List.mem_of_find?_eq_some hu)
  · rfl

end Keyed

end Ferric
