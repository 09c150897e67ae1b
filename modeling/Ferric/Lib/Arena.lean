import Ferric.Lib.Lists
import Mathlib.Order.Defs.LinearOrder

/-!
# Slot arrays and chains through them

A fixed array of optional records, as `List (Option α)`. A record is named by its slot, and
references between records are slots; a *chain* is what a reader sees that starts at an optional
slot and follows one such reference until there is none.

`cell` reads a slot whether or not it is in range. `live` forgets the slots: two arrays that hold
the same records agree in it up to a permutation, so what is said about `live` up to permutation
does not depend on where records are placed.

## Main definitions

* `cell`, `live`, `slots` — one record, all records, all records with their slots
* `Chain` — a chain and the slots it visits
* `minBy?` — the first element with the least key
-/

namespace Ferric

variable {α κ : Type}

/-! ### Slots -/

/-- What slot `i` holds. -/
def cell (l : List (Option α)) (i : ℕ) : Option α := l[i]?.join

/-- The records of the array, in slot order. -/
def live (l : List (Option α)) : List α := l.filterMap id

/-- The records with their slots, in slot order. -/
def slots (l : List (Option α)) : List (ℕ × α) :=
  l.zipIdx.filterMap fun p => p.1.map (p.2, ·)

variable {l : List (Option α)} {i j : ℕ} {a b : α} {o : Option α}

theorem cell_eq_some : cell l i = some a ↔ l[i]? = some (some a) := by
  rw [cell, Option.join_eq_some_iff]

theorem lt_length_of_cell (h : cell l i = some a) : i < l.length :=
  (List.getElem?_eq_some_iff.mp (cell_eq_some.mp h)).1

theorem cell_set_self (h : i < l.length) : cell (l.set i o) i = o := by
  simp [cell, h]

theorem cell_set_of_ne (h : j ≠ i) : cell (l.set i o) j = cell l j := by
  rw [cell, List.getElem?_set_ne h.symm, cell]

theorem cell_replicate (n : ℕ) : cell (List.replicate n (none : Option α)) i = none := by
  rw [cell, List.getElem?_replicate]
  split <;> rfl

theorem mem_live : a ∈ live l ↔ ∃ i, cell l i = some a := by
  rw [live, List.mem_filterMap]
  simp only [id, exists_eq_right, cell_eq_some, List.mem_iff_getElem?]

theorem mem_slots : (i, a) ∈ slots l ↔ cell l i = some a := by
  rw [slots, List.mem_filterMap, cell_eq_some]
  constructor
  · rintro ⟨⟨o, k⟩, hk, he⟩
    obtain ⟨a', rfl, hp⟩ := Option.map_eq_some_iff.mp he
    obtain ⟨rfl, rfl⟩ := Prod.mk.inj hp
    exact List.mem_zipIdx_iff_getElem?.mp hk
  · intro h
    exact ⟨(some a, i), List.mem_zipIdx_iff_getElem?.mpr h, rfl⟩

/-- Emptying a slot takes its record away. -/
theorem live_perm_of_cell (h : cell l i = some a) : (live l).Perm (a :: live (l.set i none)) := by
  induction l generalizing i with
  | nil => simp [cell] at h
  | cons o l ih =>
    cases i with
    | zero =>
      obtain rfl : o = some a := by simpa [cell] using h
      exact .refl _
    | succ i =>
      have hl := ih (i := i) (by simpa [cell] using h)
      cases o with
      | none => exact hl
      | some b => exact (hl.cons b).trans (.swap a b _)

/-- Filling a free slot adds a record. -/
theorem live_set_perm (h : l[i]? = some none) : (live (l.set i (some a))).Perm (a :: live l) := by
  have hi := (List.getElem?_eq_some_iff.mp h).1
  have hcell : cell (l.set i (some a)) i = some a := cell_set_self hi
  have hset : (l.set i (some a)).set i none = l := by
    obtain ⟨_, hnone⟩ := List.getElem?_eq_some_iff.mp h
    rw [List.set_set, ← hnone, List.set_getElem_self]
  simpa only [hset] using live_perm_of_cell hcell

theorem length_live (l : List (Option α)) : (live l).length = l.countP Option.isSome := by
  induction l with
  | nil => rfl
  | cons o l ih => cases o <;> simp_all [live]

/-- The occupied slots are as many as the records. -/
theorem card_filter_cell (l : List (Option α)) :
    ((Finset.range l.length).filter fun i => (cell l i).isSome).card = l.countP Option.isSome := by
  rw [← card_filter_any]
  refine congrArg Finset.card (Finset.filter_congr fun i _ => ?_)
  rw [cell]
  cases l[i]? <;> simp

theorem length_live_le (l : List (Option α)) : (live l).length ≤ l.length := by
  rw [length_live]
  exact List.countP_le_length

/-- Overwriting a record keeps the number of records. -/
theorem length_live_set (h : cell l i = some a) :
    (live (l.set i (some b))).length = (live l).length := by
  have := countP_set_add (f := Option.isSome) (b := some b) (cell_eq_some.mp h)
  rw [length_live, length_live]
  simpa using this

/-- An array with fewer records than slots has a free one. -/
theorem exists_free (h : (live l).length < l.length) : ∃ i : ℕ, l[i]? = some none := by
  by_contra hall
  refine absurd h (not_lt.mpr ?_)
  rw [length_live, ← List.countP_eq_length.mpr fun o ho => ?_]
  obtain ⟨i, hi⟩ := List.mem_iff_getElem?.mp ho
  cases o with
  | none => exact absurd ⟨i, hi⟩ hall
  | some a => rfl

/-- No record satisfies the test. -/
theorem forall_of_findIdx?_eq_none {f : α → Bool} (h : l.findIdx? (·.any f) = none) :
    ∀ a ∈ live l, ¬ f a := by
  intro a ha hf
  obtain ⟨i, hi⟩ := mem_live.mp ha
  have hmem := List.mem_of_getElem? (cell_eq_some.mp hi)
  simpa [hf] using List.findIdx?_eq_none_iff.mp h _ hmem

/-- The slot found holds a record that satisfies the test. -/
theorem exists_of_findIdx?_eq_some {f : α → Bool} (h : l.findIdx? (·.any f) = some i) :
    ∃ a, cell l i = some a ∧ f a := by
  obtain ⟨hi, hany, -⟩ := List.findIdx?_eq_some_iff_getElem.mp h
  cases ha : l[i] with
  | none => simp [ha] at hany
  | some a =>
    rw [ha] at hany
    exact ⟨a, cell_eq_some.mpr (List.getElem?_eq_some_iff.mpr ⟨hi, ha⟩), hany⟩

/-- The first free slot. -/
theorem exists_findIdx?_isNone (h : (live l).length < l.length) :
    ∃ i, l.findIdx? (·.isNone) = some i ∧ l[i]? = some none := by
  obtain ⟨k, hk⟩ := exists_free h
  cases hfind : l.findIdx? (·.isNone) with
  | none =>
    have := List.findIdx?_eq_none_iff.mp hfind none (List.mem_of_getElem? hk)
    simp at this
  | some i =>
    obtain ⟨hi, hnone, -⟩ := List.findIdx?_eq_some_iff_getElem.mp hfind
    exact ⟨i, rfl, List.getElem?_eq_some_iff.mpr ⟨hi, Option.isNone_iff_eq_none.mp hnone⟩⟩

/-! ### Chains -/

/-- Starting at `o` and following `next`, a reader visits exactly the slots of the list. -/
def Chain (next : ℕ → Option ℕ) : Option ℕ → List ℕ → Prop
  | o, [] => o = none
  | o, i :: l => o = some i ∧ Chain next (next i) l

variable {next next' : ℕ → Option ℕ} {start : Option ℕ} {c p : ℕ} {m m' : List ℕ}

/-- A chain reads only the slots it visits. -/
theorem Chain.congr (h : Chain next start m) (hn : ∀ i ∈ m, next' i = next i) :
    Chain next' start m := by
  induction m generalizing start with
  | nil => exact h
  | cons i m ih =>
    refine ⟨h.1, ?_⟩
    rw [hn i List.mem_cons_self]
    exact ih h.2 fun j hj => hn j (List.mem_cons_of_mem _ hj)

theorem Chain.eq_nil_iff (h : Chain next start m) : m = [] ↔ start = none := by
  cases m with
  | nil => simpa [Chain] using h
  | cons i m => simp [h.1]

/-- What a chain continues with after a slot. -/
theorem Chain.drop (h : Chain next start (m ++ c :: m')) : Chain next (next c) m' := by
  induction m generalizing start with
  | nil => exact h.2
  | cons i m ih => exact ih h.2

/-- Redirecting one reference past its target takes the target out of the chain. -/
theorem Chain.unlink (h : Chain next start (m ++ p :: c :: m'))
    (hnd : (m ++ p :: c :: m').Nodup) (hp : next' p = next c)
    (hn : ∀ i, i ≠ p → i ≠ c → next' i = next i) : Chain next' start (m ++ p :: m') := by
  induction m generalizing start with
  | nil =>
    obtain ⟨hstart, -, hrest⟩ := h
    refine ⟨hstart, ?_⟩
    rw [hp]
    refine hrest.congr fun i hi => hn i ?_ ?_
    · rintro rfl
      simp [hi] at hnd
    · rintro rfl
      simp [hi] at hnd
  | cons i m ih =>
    rw [List.cons_append, List.nodup_cons] at hnd
    refine ⟨h.1, ?_⟩
    rw [hn i (fun hip => hnd.1 (by simp [hip])) fun hic => hnd.1 (by simp [hic])]
    exact ih h.2 hnd.2

/-! ### The least by a key -/

/-- `iter.min_by_key(key)`: of the elements with the least key, the first. -/
def minBy? [LinearOrder κ] (key : α → κ) (l : List α) : Option α :=
  l.foldl (fun best a =>
    match best with
    | none => some a
    | some b => if key a < key b then some a else some b) none

variable [LinearOrder κ] {key : α → κ}

theorem minBy?_concat {l : List α} {a : α} :
    minBy? key (l ++ [a]) = match minBy? key l with
      | none => some a
      | some b => if key a < key b then some a else some b := by
  simp [minBy?]

/-- The result is an element and no element has a smaller key. -/
theorem minBy?_spec (key : α → κ) (l : List α) :
    (minBy? key l = none ∧ l = []) ∨
      ∃ a ∈ l, minBy? key l = some a ∧ ∀ b ∈ l, key a ≤ key b := by
  induction l using List.reverseRecOn with
  | nil => exact .inl ⟨rfl, rfl⟩
  | append_singleton l c ih =>
    refine .inr ?_
    rw [minBy?_concat]
    obtain ⟨hnone, rfl⟩ | ⟨a, ha, hsome, hle⟩ := ih
    · rw [hnone]
      exact ⟨c, by simp, rfl, by simp⟩
    · rw [hsome]
      by_cases hlt : key c < key a
      · refine ⟨c, by simp, if_pos hlt, fun b hb => ?_⟩
        rcases List.mem_append.mp hb with hb | hb
        · exact hlt.le.trans (hle b hb)
        · rw [List.mem_singleton.mp hb]
      · refine ⟨a, by simp [ha], if_neg hlt, fun b hb => ?_⟩
        rcases List.mem_append.mp hb with hb | hb
        · exact hle b hb
        · rw [List.mem_singleton.mp hb]
          exact not_lt.mp hlt

end Ferric
