import Ferric.Lib.Slots
import Ferric.TpBatchRuntime.Model
import Ferric.TpPaged.Content

/-!
# The device as a memory

A runner that does what the GPU is for, and nothing more. The device is a memory with one token
for every offset of every page. A row writes its token at its slot; a row that publishes then reads
the positions up to its own through the pages it was given, and chooses a token as a function of
what it has read. Attention and arithmetic are inside that function.

## Main definitions

* `executeRows` — the rows of a batch, in order
* `deviceRunner` — the runner

## Main results

* `executeRows_eq` — the memory and the choices after a batch
-/

namespace Ferric

namespace TpBatchRuntime

open TpPaged (PreparedBatch PreparedRow BatchCompletion)
open TpScheduler (Token)

/-- A memory of tokens, and the dispatch counts of the ranks. -/
structure Device where
  memory : ℕ × ℕ → Token
  counts : List ℕ

/-- The tokens at positions up to the row's own, read through the row's pages. -/
def readRow (memory : ℕ × ℕ → Token) (row : PreparedRow) : List Token :=
  (List.range (row.input.position + 1)).map fun i => memory (row.pages.getD (i / 16) 0, i % 16)

variable (f : List Token → Token)

/-- Write the row's token; if the row publishes, choose a token from what it reads. -/
def executeRow (outputs : List ℕ) (state : (ℕ × ℕ → Token) × List Token)
    (entry : PreparedRow × ℕ) : (ℕ × ℕ → Token) × List Token :=
  let memory := Function.update state.1 entry.1.slot entry.1.input.token
  (memory, if entry.2 ∈ outputs then state.2 ++ [f (readRow memory entry.1)] else state.2)

/-- The rows of a batch, in order. -/
def executeRows (memory : ℕ × ℕ → Token) (rows : List PreparedRow) (outputs : List ℕ) :
    (ℕ × ℕ → Token) × List Token :=
  rows.zipIdx.foldl (executeRow f outputs) (memory, [])

/-- The runner over a device. `capacity` is its row envelope and `expected` the number of
dispatches that a rank needs for a batch. -/
def deviceRunner (capacity : ℕ) (expected : ℕ → PreparedBatch → List ℕ → ℕ) : Runner Device where
  bindDispatchRows gpu _ _ := (.ok (), gpu)
  abandonDispatchRows gpu := gpu
  bindNumericalRows gpu _ _ := (.ok (), gpu)
  rowCapacity _ := capacity
  executeBatch gpu batch outputs :=
    let executed := executeRows f gpu.memory batch.rows outputs
    (.ok { choices := executed.2, completion := .afterAllRanks batch },
      { memory := executed.1
        counts := gpu.counts.zipIdx.map fun count =>
          count.1 + expected count.2 batch outputs })
  expectedDispatchCountsForSelection gpu batch outputs :=
    .ok ((List.range gpu.counts.length).map fun rank => expected rank batch outputs)
  outputHeadRows _ physical _ := physical
  dispatchCounts gpu := gpu.counts
  close gpu := (.ok (), gpu)

variable {f} {memory : ℕ × ℕ → Token} {rows done : List PreparedRow} {outputs : List ℕ}

/-- The memory after the first rows. -/
def written (memory : ℕ × ℕ → Token) (rows : List PreparedRow) : ℕ × ℕ → Token :=
  writeAll PreparedRow.slot (·.input.token) memory rows

/-- **Executing rows.** Every choice is made in the memory that the rows up to its own have
written. -/
theorem executeRows_eq (hdone : done <+: rows) :
    executeRows f memory done outputs = (written memory done,
      (done.zipIdx.filter fun entry => entry.2 ∈ outputs).map fun entry =>
        f (readRow (written memory (rows.take (entry.2 + 1))) entry.1)) := by
  induction done using List.reverseRecOn with
  | nil => rfl
  | append_singleton done row ih =>
    have htake : rows.take (done.length + 1) = done ++ [row] := by
      have := List.prefix_iff_eq_take.mp hdone
      rw [List.length_append, List.length_singleton] at this
      exact this.symm
    rw [executeRows, List.zipIdx_append, List.foldl_append]
    have hih := ih ((List.prefix_append done [row]).trans hdone)
    rw [executeRows] at hih
    rw [hih]
    simp only [List.zipIdx_singleton, List.foldl_cons, List.foldl_nil, executeRow, Nat.zero_add,
      List.filter_append, List.map_append]
    have hmem : Function.update (written memory done) row.slot row.input.token =
        written memory (done ++ [row]) := by
      rw [written, written, writeAll_concat]
    rw [hmem]
    split
    · next hout => simp [hout, htake]
    · next hout => simp [hout]

end TpBatchRuntime

end Ferric
