import Mathlib.Algebra.Order.Ring.Nat
import Mathlib.Data.List.Basic
import Mathlib.Data.List.Perm.Basic
import Mathlib.Order.Basic
import Mathlib.Order.Defs.LinearOrder
import Mathlib.Tactic.Common

/-!
# Ordered maps

An ordered map is the list of its entries in increasing key order. The order is carried by the
structure, so two maps with the same lookups are equal and iteration is a function of the map
alone, as it is for a B-tree.

`insertEntry` is stated on plain lists as well, because a recursive data type can hold a list of
entries but not a list together with a proof about it.

## Main results

* `BTreeMap.get?_insert`, `get?_erase` — lookups after an update
* `BTreeMap.ext_get?` — extensionality
* `BTreeMap.perm_values_insert`, `perm_values_of_get?` — the values as a multiset, which is how
  counts over all entries are moved across an update
-/

namespace Ferric

variable {κ α : Type} [LinearOrder κ]

/-- Insert an entry at its place, replacing the entry with the same key. -/
def insertEntry (k : κ) (v : α) : List (κ × α) → List (κ × α)
  | [] => [(k, v)]
  | e :: es => if k < e.1 then (k, v) :: e :: es else if k = e.1 then (k, v) :: es
      else e :: insertEntry k v es

theorem mem_insertEntry_key {k : κ} {v : α} {es : List (κ × α)} {e : κ × α}
    (h : e ∈ insertEntry k v es) : e = (k, v) ∨ e ∈ es := by
  induction es with
  | nil => simpa [insertEntry] using h
  | cons a es ih =>
    rw [insertEntry] at h
    split at h
    · simpa using h
    · split at h
      · rcases List.mem_cons.mp h with h | h
        · exact .inl h
        · exact .inr (List.mem_cons_of_mem _ h)
      · rcases List.mem_cons.mp h with h | h
        · exact .inr (h ▸ List.mem_cons_self ..)
        · exact (ih h).imp_right (List.mem_cons_of_mem _)

/-- Entries are in strictly increasing key order. -/
abbrev SortedKeys (es : List (κ × α)) : Prop := es.Pairwise fun a b => a.1 < b.1

theorem sortedKeys_insertEntry {k : κ} {v : α} {es : List (κ × α)} (h : SortedKeys es) :
    SortedKeys (insertEntry k v es) := by
  induction es with
  | nil => simp [insertEntry, SortedKeys]
  | cons a es ih =>
    obtain ⟨ha, hes⟩ := List.pairwise_cons.mp h
    rw [insertEntry]
    split
    · refine List.pairwise_cons.mpr ⟨fun b hb => ?_, h⟩
      rcases List.mem_cons.mp hb with rfl | hb
      · assumption
      · exact lt_trans ‹_› (ha b hb)
    · split
      · next hk =>
        subst hk
        exact List.pairwise_cons.mpr ⟨ha, hes⟩
      · refine List.pairwise_cons.mpr ⟨fun b hb => ?_, ih hes⟩
        rcases mem_insertEntry_key hb with rfl | hb
        · exact lt_of_le_of_ne (le_of_not_gt ‹_›) fun he => ‹¬ k = a.1› he.symm
        · exact ha b hb

/-- The value at a key. -/
def lookupEntry (k : κ) : List (κ × α) → Option α
  | [] => none
  | e :: es => if k = e.1 then some e.2 else lookupEntry k es

theorem mem_of_lookupEntry {k : κ} {v : α} {es : List (κ × α)} (h : lookupEntry k es = some v) :
    (k, v) ∈ es := by
  induction es with
  | nil => simp [lookupEntry] at h
  | cons e es ih =>
    rw [lookupEntry] at h
    split at h
    · next hk =>
      simp only [Option.some.injEq] at h
      rw [hk, ← h]
      exact List.mem_cons_self ..
    · exact List.mem_cons_of_mem _ (ih h)

theorem lookupEntry_of_mem {k : κ} {v : α} {es : List (κ × α)} (hs : SortedKeys es)
    (h : (k, v) ∈ es) : lookupEntry k es = some v := by
  induction es with
  | nil => simp at h
  | cons e es ih =>
    obtain ⟨he, hes⟩ := List.pairwise_cons.mp hs
    rw [lookupEntry]
    rcases List.mem_cons.mp h with rfl | h
    · simp
    · rw [if_neg (ne_of_gt (he _ h)), ih hes h]

theorem lookupEntry_insertEntry {k k' : κ} {v : α} {es : List (κ × α)} (hs : SortedKeys es) :
    lookupEntry k' (insertEntry k v es) = if k' = k then some v else lookupEntry k' es := by
  induction es with
  | nil => simp [insertEntry, lookupEntry]
  | cons e es ih =>
    obtain ⟨he, hes⟩ := List.pairwise_cons.mp hs
    rw [insertEntry]
    split
    · rw [lookupEntry]
    · split
      · next hk =>
        rw [lookupEntry, lookupEntry, ← hk]
        split <;> rfl
      · next hk =>
        rw [lookupEntry, lookupEntry, ih hes]
        split
        · next hk' => rw [if_neg fun h => hk (h.symm.trans hk')]
        · rfl

/-- Inserting a key that is absent adds one entry. -/
theorem perm_insertEntry {k : κ} {v : α} {es : List (κ × α)} (h : lookupEntry k es = none) :
    (insertEntry k v es).Perm ((k, v) :: es) := by
  induction es with
  | nil => simp [insertEntry]
  | cons e es ih =>
    rw [lookupEntry] at h
    rw [insertEntry]
    split at h
    · simp at h
    · next hk =>
      split
      · exact List.Perm.refl _
      · exact ((ih h).cons e).trans (List.Perm.swap ..)

/-- A map as its entries in key order. -/
structure BTreeMap (κ α : Type) [LinearOrder κ] where
  /-- The entries, in order. -/
  entries : List (κ × α)
  /-- The order, strictly increasing in the key. -/
  sorted : SortedKeys entries

namespace BTreeMap

variable {m m' : BTreeMap κ α} {k k' : κ} {v v' : α}

instance [DecidableEq α] : DecidableEq (BTreeMap κ α) := fun a b =>
  match decEq a.entries b.entries with
  | .isTrue h => .isTrue (by cases a; cases b; cases h; rfl)
  | .isFalse h => .isFalse fun he => h (he ▸ rfl)

/-- The empty map. -/
def empty : BTreeMap κ α := ⟨[], List.Pairwise.nil⟩

/-- The value at a key. -/
def get? (m : BTreeMap κ α) (k : κ) : Option α := lookupEntry k m.entries

/-- Insert or replace. -/
def insert (m : BTreeMap κ α) (k : κ) (v : α) : BTreeMap κ α :=
  ⟨insertEntry k v m.entries, sortedKeys_insertEntry m.sorted⟩

/-- Remove a key. -/
def erase (m : BTreeMap κ α) (k : κ) : BTreeMap κ α :=
  ⟨m.entries.filter (·.1 ≠ k), m.sorted.filter _⟩

/-- The number of entries. -/
def size (m : BTreeMap κ α) : ℕ := m.entries.length

/-- The values, in key order. -/
def values (m : BTreeMap κ α) : List α := m.entries.map (·.2)

theorem mem_entries : (k, v) ∈ m.entries ↔ m.get? k = some v :=
  ⟨lookupEntry_of_mem m.sorted, mem_of_lookupEntry⟩

theorem mem_values : v ∈ m.values ↔ ∃ k, m.get? k = some v := by
  simp [values, mem_entries]

@[simp] theorem length_values : m.values.length = m.size := List.length_map _

@[simp] theorem get?_empty : (empty : BTreeMap κ α).get? k = none := rfl

@[simp] theorem values_empty : (empty : BTreeMap κ α).values = [] := rfl

theorem get?_insert : (m.insert k v).get? k' = if k' = k then some v else m.get? k' :=
  lookupEntry_insertEntry m.sorted

@[simp] theorem get?_insert_self : (m.insert k v).get? k = some v := by
  rw [get?_insert, if_pos rfl]

theorem get?_insert_of_ne (h : k' ≠ k) : (m.insert k v).get? k' = m.get? k' := by
  rw [get?_insert, if_neg h]

theorem get?_erase : (m.erase k).get? k' = if k' = k then none else m.get? k' := by
  refine Option.ext fun v => ?_
  rw [← mem_entries, erase]
  split
  · simp [*]
  · simp [mem_entries, *]

/-- Lookups determine the map. -/
theorem ext_get? (h : ∀ k, m.get? k = m'.get? k) : m = m' := by
  have hmem : ∀ e, e ∈ m.entries ↔ e ∈ m'.entries := fun ⟨k, v⟩ => by
    rw [mem_entries, mem_entries, h]
  have hnodup : ∀ m : BTreeMap κ α, m.entries.Nodup := fun m =>
    m.sorted.imp fun h he => absurd (he ▸ h) (lt_irrefl _)
  have hperm := (List.perm_ext_iff_of_nodup (hnodup m) (hnodup m')).mpr hmem
  have heq : m.entries = m'.entries := hperm.eq_of_pairwise
    (fun a b _ _ hab hba => absurd (lt_trans hab hba) (lt_irrefl _)) m.sorted m'.sorted
  cases m
  cases m'
  cases heq
  rfl

theorem insert_eq_insert_erase : m.insert k v = (m.erase k).insert k v := by
  refine ext_get? fun k' => ?_
  rw [get?_insert, get?_insert, get?_erase]
  split <;> rfl

theorem insert_erase (h : m.get? k = some v) : (m.erase k).insert k v = m := by
  refine ext_get? fun k' => ?_
  rw [get?_insert, get?_erase]
  split
  · next hk => rw [hk, h]
  · rfl

theorem insert_eq_self (h : m.get? k = some v) : m.insert k v = m := by
  rw [insert_eq_insert_erase, insert_erase h]

@[simp] theorem insert_insert : (m.insert k v).insert k v' = m.insert k v' := by
  refine ext_get? fun k' => ?_
  rw [get?_insert, get?_insert, get?_insert]
  split <;> rfl

/-- Inserting a fresh key adds its value. -/
theorem perm_values_insert (h : m.get? k = none) : (m.insert k v).values.Perm (v :: m.values) :=
  (perm_insertEntry h).map _

/-- A present value stands beside the values of the other keys. -/
theorem perm_values_of_get? (h : m.get? k = some v) : m.values.Perm (v :: (m.erase k).values) := by
  conv_lhs => rw [← insert_erase h]
  exact perm_values_insert (by rw [get?_erase, if_pos rfl])

/-- Replacing a value leaves the values of the other keys. -/
theorem perm_values_replace : (m.insert k v').values.Perm (v' :: (m.erase k).values) := by
  rw [insert_eq_insert_erase]
  exact perm_values_insert (by rw [get?_erase, if_pos rfl])

theorem size_insert_of_get?_eq_none (h : m.get? k = none) : (m.insert k v).size = m.size + 1 := by
  rw [← length_values, (perm_values_insert h).length_eq, List.length_cons, length_values]

theorem size_insert_of_get?_eq_some (h : m.get? k = some v) : (m.insert k v').size = m.size := by
  rw [← length_values, ← length_values, perm_values_replace.length_eq,
    (perm_values_of_get? h).length_eq, List.length_cons, List.length_cons]

theorem size_erase_of_get?_eq_some (h : m.get? k = some v) : (m.erase k).size + 1 = m.size := by
  rw [← length_values, ← length_values, (perm_values_of_get? h).length_eq, List.length_cons]

end BTreeMap

end Ferric
