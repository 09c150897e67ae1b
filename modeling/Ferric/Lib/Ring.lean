import Mathlib.Data.List.Basic
import Mathlib.Logic.Function.Basic
import Mathlib.Tactic.Common

/-!
# Ring buffers

A ring is an array of `capacity` cells with the index of its first element and the number of its
elements. `Spells` gives the list it stands for, and the operations are the list operations: write
behind the last element, step over the first one.
-/

namespace Ferric

variable {α : Type}

/-- The index after `index`, around the end of the array. -/
def ringNext (capacity index : ℕ) : ℕ := if index + 1 = capacity then 0 else index + 1

/-- The index `len` cells after `head`, around the end of the array. -/
def ringTail (capacity head len : ℕ) : ℕ :=
  if len < capacity - head then head + len else len - (capacity - head)

/-- The cells, the index of the first element, the number of elements. -/
structure Ring (α : Type) where
  buf : ℕ → α
  head : ℕ
  len : ℕ

namespace Ring

/-- Write behind the last element. -/
def push (capacity : ℕ) (r : Ring α) (a : α) : Ring α :=
  { r with
    buf := Function.update r.buf (ringTail capacity r.head r.len) a
    len := r.len + 1 }

/-- Step over the first element. -/
def pop (capacity : ℕ) (r : Ring α) : Ring α :=
  { r with
    head := ringNext capacity r.head
    len := r.len - 1 }

/-- Write the elements of a list one after another. -/
def pushAll (capacity : ℕ) (r : Ring α) (as : List α) : Ring α := as.foldl (push capacity) r

/-- Step over the first `n` elements. -/
def popMany (capacity : ℕ) : ℕ → Ring α → Ring α
  | 0, r => r
  | n + 1, r => popMany capacity n (r.pop capacity)

/-- The ring stands for the list. -/
structure Spells (capacity : ℕ) (r : Ring α) (xs : List α) : Prop where
  head_lt : r.head < capacity
  len : r.len = xs.length
  le : xs.length ≤ capacity
  cell : ∀ i a, xs[i]? = some a → r.buf (ringTail capacity r.head i) = a

/-- The elements, read off the cells. -/
def toList (capacity : ℕ) (r : Ring α) : List α :=
  (List.range r.len).map fun i => r.buf (ringTail capacity r.head i)

variable {c : ℕ} {r : Ring α} {xs as : List α} {a : α}

theorem ringTail_lt {head i : ℕ} (hh : head < c) (hi : i < c) : ringTail c head i < c := by
  rw [ringTail]
  split <;> omega

theorem ringTail_inj {head i j : ℕ} (hh : head < c) (hi : i < c) (hj : j < c)
    (h : ringTail c head i = ringTail c head j) : i = j := by
  rw [ringTail, ringTail] at h
  split at h <;> split at h <;> omega

@[simp] theorem ringTail_zero {head : ℕ} (hh : head < c) : ringTail c head 0 = head := by
  rw [ringTail, if_pos (by omega), Nat.add_zero]

theorem ringTail_next {head i : ℕ} (hh : head < c) (hi : i + 1 ≤ c) :
    ringTail c (ringNext c head) i = ringTail c head (i + 1) := by
  rw [ringTail, ringTail, ringNext]
  split <;> split <;> split <;> omega

theorem ringNext_ringTail {head i : ℕ} (hh : head < c) (hi : i + 1 ≤ c) :
    ringNext c (ringTail c head i) = ringTail c head (i + 1) := by
  rw [ringTail, ringTail, ringNext]
  split <;> split <;> split <;> omega

/-- Once around the array. -/
theorem ringTail_self {head : ℕ} (hh : head < c) : ringTail c head c = head := by
  rw [ringTail]
  split <;> omega

theorem ringNext_lt {index : ℕ} (h : index < c) : ringNext c index < c := by
  rw [ringNext]
  split <;> omega

theorem spells_nil {buf : ℕ → α} (h : 0 < c) : Spells c ⟨buf, 0, 0⟩ [] :=
  ⟨h, rfl, Nat.zero_le c, by simp⟩

/-- The first element is where the head is. -/
theorem Spells.buf_head (h : Spells c r (a :: xs)) : r.buf r.head = a := by
  have := h.cell 0 a rfl
  rwa [ringTail_zero h.head_lt] at this

theorem Spells.toList_eq (h : Spells c r xs) : r.toList c = xs := by
  refine List.ext_getElem? fun i => ?_
  rw [toList, List.getElem?_map, h.len]
  by_cases hi : i < xs.length
  · rw [List.getElem?_range hi, List.getElem?_eq_getElem hi, Option.map_some,
      h.cell i _ (List.getElem?_eq_getElem hi)]
  · rw [List.getElem?_eq_none (by simpa using hi), List.getElem?_eq_none (Nat.le_of_not_lt hi)]
    rfl

theorem Spells.push (h : Spells c r xs) (hlt : xs.length < c) (a : α) :
    Spells c (r.push c a) (xs ++ [a]) := by
  refine ⟨h.head_lt, ?_, ?_, fun i b hi => ?_⟩
  · show r.len + 1 = _
    rw [h.len, List.length_append, List.length_singleton]
  · rw [List.length_append, List.length_singleton]
    omega
  · show Function.update r.buf (ringTail c r.head r.len) a (ringTail c r.head i) = b
    rw [h.len]
    rcases Nat.lt_trichotomy i xs.length with hlt' | rfl | hgt
    · rw [Function.update_of_ne
        fun he => Nat.ne_of_lt hlt' (ringTail_inj h.head_lt (by omega) hlt he)]
      rw [List.getElem?_append_left hlt'] at hi
      exact h.cell i b hi
    · rw [Function.update_self]
      simpa using hi
    · rw [List.getElem?_eq_none (by simp; omega)] at hi
      exact absurd hi (by simp)

theorem Spells.pop (h : Spells c r (a :: xs)) : Spells c (r.pop c) xs := by
  have hle := h.le
  rw [List.length_cons] at hle
  refine ⟨ringNext_lt h.head_lt, ?_, by omega, fun i b hi => ?_⟩
  · show r.len - 1 = _
    rw [h.len, List.length_cons, Nat.add_sub_cancel]
  · have hlt : i < xs.length := (List.getElem?_eq_some_iff.mp hi).1
    show r.buf (ringTail c (ringNext c r.head) i) = b
    rw [ringTail_next h.head_lt (by omega)]
    exact h.cell (i + 1) b hi

theorem Spells.pushAll (h : Spells c r xs) (hle : xs.length + as.length ≤ c) :
    Spells c (r.pushAll c as) (xs ++ as) := by
  induction as generalizing r xs with
  | nil => simpa [Ring.pushAll] using h
  | cons a as ih =>
    rw [List.length_cons] at hle
    have := ih (h.push (by omega) a) (by rw [List.length_append, List.length_singleton]; omega)
    rwa [List.append_assoc] at this

theorem Spells.popMany {n : ℕ} (h : Spells c r xs) (hn : n ≤ xs.length) :
    Spells c (Ring.popMany c n r) (xs.drop n) := by
  induction n generalizing r xs with
  | zero => exact h
  | succ n ih =>
    cases xs with
    | nil => simp at hn
    | cons a xs => exact ih h.pop (Nat.le_of_succ_le_succ hn)

end Ring

end Ferric
