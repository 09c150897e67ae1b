import Mathlib.Data.List.Induction
import Mathlib.Logic.Function.Basic
import Mathlib.Tactic.Common

/-!
# Writing a list of rows to a memory

A memory is a function from slots. `writeAll` performs the writes of a list of rows in order, each
row naming its slot and its value. A slot no row names keeps its value; when no two rows name the
same slot, the order does not matter and every row's value is there at the end.
-/

namespace Ferric

variable {ρ κ β : Type*} [DecidableEq κ]

/-- Write every row's value at the row's slot, in order. -/
def writeAll (slot : ρ → κ) (value : ρ → β) (mem : κ → β) (rows : List ρ) : κ → β :=
  rows.foldl (fun mem row => Function.update mem (slot row) (value row)) mem

variable {slot : ρ → κ} {value : ρ → β} {mem : κ → β} {rows : List ρ}

@[simp] theorem writeAll_nil : writeAll slot value mem [] = mem := rfl

@[simp] theorem writeAll_concat {row : ρ} :
    writeAll slot value mem (rows ++ [row]) =
      Function.update (writeAll slot value mem rows) (slot row) (value row) := by
  simp [writeAll]

/-- A slot that no row names is not touched. -/
theorem writeAll_of_forall_ne {k : κ} (h : ∀ row ∈ rows, slot row ≠ k) :
    writeAll slot value mem rows k = mem k := by
  induction rows using List.reverseRecOn with
  | nil => rfl
  | append_singleton rows row ih =>
    rw [writeAll_concat, Function.update_of_ne (h row (by simp)).symm]
    exact ih fun a ha => h a (List.mem_append_left _ ha)

/-- A row that names a slot of its own finds its value there. -/
theorem writeAll_of_mem {row : ρ} (hd : rows.Pairwise fun a b => slot a ≠ slot b)
    (hrow : row ∈ rows) : writeAll slot value mem rows (slot row) = value row := by
  induction rows using List.reverseRecOn with
  | nil => simp at hrow
  | append_singleton rows last ih =>
    obtain ⟨hd, -, hlast⟩ := List.pairwise_append.mp hd
    rw [writeAll_concat]
    rcases List.mem_append.mp hrow with hrow | hrow
    · rw [Function.update_of_ne (hlast row hrow last List.mem_cons_self), ih hd hrow]
    · obtain rfl := List.mem_singleton.mp hrow
      exact Function.update_self ..

end Ferric
