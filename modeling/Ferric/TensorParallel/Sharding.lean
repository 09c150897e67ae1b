import Ferric.Lib.Tiling
import Ferric.TensorParallel.Model

/-!
# Shards of a tensor

A rank's shard of a tensor is a rectangle of it. For a matrix that is split by rows the ranks'
products are the tiles of the product, and for one that is split by columns they add up to it.

Elements are read from pairs of bytes in an arbitrary way and with values in any commutative ring.

## Main results

* `Tensor.assemble_eq` — a shard is the rectangle, read row by row
* `tensor_eq_ok` — what an accepted tensor guarantees
* `ShardedTensor.part_eq`, `ShardedTensor.sum_part_eq` — the two kinds of split
-/

namespace Ferric

namespace TensorParallel

open Spec Tiling

/-! ### Ranges -/

namespace Range

variable (range : Range)

def Contains (i : ℕ) : Prop := range.start ≤ i ∧ i < range.start + range.count

/-- The indices of a range, in order. -/
def indices : List ℕ := (List.range range.count).map (range.start + ·)

end Range

theorem tensorParallelRange_eq_ok {extent worldSize rank : ℕ} {range : Range} :
    tensorParallelRange extent worldSize rank = .ok range ↔
      (worldSize = 1 ∨ worldSize = 2 ∨ worldSize = 8) ∧ rank < worldSize ∧ 0 < extent ∧
      worldSize ∣ extent ∧ range = ⟨extent / worldSize * rank, extent / worldSize⟩ := by
  simp only [tensorParallelRange, bind_eq_ok, failIf_eq_ok, Nat.dvd_iff_mod_eq_zero]
  constructor
  · rintro ⟨-, hworld, -, hrank, -, hsplit, hrange⟩
    exact ⟨by omega, by omega, by omega, by omega, (Except.ok.inj hrange).symm⟩
  · rintro ⟨hworld, hrank, hpos, hsplit, rfl⟩
    exact ⟨(), by omega, (), by omega, (), by omega, rfl⟩

/-! ### Assembling a shard -/

/-- The loop of a copy overwrites a prefix. -/
theorem copy_loop {source destination : List UInt8} {offset n : ℕ}
    (hsource : offset + n ≤ source.length) (hdestination : n ≤ destination.length) :
    (List.range n).foldlM (fun destination index => do
        let byte ← orPanic source[offset + index]?
        return destination.set index byte) destination =
      (.ok ((source.drop offset).take n ++ destination.drop n) :
        Outcome TensorParallelError (List UInt8)) := by
  induction n with
  | zero => rfl
  | succ n ih =>
    have hbyte : source[offset + n]? = some source[offset + n] :=
      List.getElem?_eq_getElem (by omega)
    have hlen : ((source.drop offset).take n).length = n := by
      rw [List.length_take, List.length_drop]
      omega
    have htake : (source.drop offset).take (n + 1) =
        (source.drop offset).take n ++ [source[offset + n]] := by
      rw [List.take_add_one, List.getElem?_drop, hbyte]
      rfl
    have hdrop : destination.drop n = destination[n] :: destination.drop (n + 1) :=
      List.drop_eq_getElem_cons (by omega)
    rw [List.range_succ, List.foldlM_append, ih (by omega) (by omega), ok_bind, List.foldlM_cons,
      hbyte]
    show Except.ok (((source.drop offset).take n ++ destination.drop n).set n _) = _
    rw [List.set_append_right _ _ (by rw [hlen]), hlen, Nat.sub_self, hdrop, List.set_cons_zero,
      htake, List.append_assoc]
    rfl

namespace Tensor

variable {t : Tensor} {source : List UInt8}

/-- The rectangle lies in the matrix. -/
structure Within (t : Tensor) : Prop where
  rows : t.rows.start + t.rows.count ≤ t.sourceRows
  columns : t.columns.start + t.columns.count ≤ t.sourceColumns

/-- The bytes of the rectangle, by rows. -/
def bytes (t : Tensor) (source : List UInt8) : List (List UInt8) :=
  (List.range t.rows.count).map fun row =>
    (source.drop (((t.rows.start + row) * t.sourceColumns + t.columns.start) * 2)).take
      (t.columns.count * 2)

/-- Every row of a rectangle ends in the payload. -/
theorem Within.row_le (h : t.Within) {row : ℕ} (hrow : row < t.rows.count) :
    ((t.rows.start + row) * t.sourceColumns + t.columns.start) * 2 + t.columns.count * 2 ≤
      t.sourceRows * t.sourceColumns * 2 := by
  have hnext : (t.rows.start + row + 1) * t.sourceColumns ≤ t.sourceRows * t.sourceColumns :=
    Nat.mul_le_mul_right _ (by have := h.rows; omega)
  have hcolumns := h.columns
  rw [Nat.succ_mul] at hnext
  omega

/-- **A shard is its rectangle.** -/
theorem assemble_eq (h : t.Within) (hlen : source.length = t.sourceRows * t.sourceColumns * 2) :
    t.assemble source = .ok (t.bytes source) := by
  rw [assemble, bytes]
  have hrow : ∀ row ∈ List.range t.rows.count,
      t.copyBf16RowInto source row (List.replicate (t.columns.count * 2) 0) =
        .ok ((source.drop (((t.rows.start + row) * t.sourceColumns + t.columns.start) * 2)).take
          (t.columns.count * 2)) := by
    intro row hrow
    have hlt : row < t.rows.count := List.mem_range.mp hrow
    have hend := h.row_le hlt
    rw [copyBf16RowInto, sourceRowBytes, failIf_of_not (not_not.mpr hlen), ok_bind,
      failIf_of_not (Nat.not_le.mpr hlt)]
    show (failIf _ _ >>= fun _ => _) = _
    rw [failIf_of_not (by rw [List.length_replicate]; exact not_not.mpr rfl), ok_bind,
      List.length_replicate, copy_loop (by omega) (by rw [List.length_replicate])]
    simp
  generalize List.range t.rows.count = rows at hrow
  induction rows with
  | nil => rfl
  | cons row rows ih =>
    rw [List.mapM_cons, hrow row List.mem_cons_self, ok_bind,
      ih fun r hr => hrow r (.tail _ hr)]
    rfl

end Tensor

/-! ### Accepted tensors -/

/-- `tensor_parallel_matrix_mode_v1` -/
def matrixMode : TensorKind → MatrixMode
  | .queryProjection | .keyProjection | .valueProjection | .gateProjection | .upProjection =>
    .columnParallel
  | .outputProjection | .downProjection => .rowParallelSum
  | _ => .replicated

/-- The rectangle that a mode asks for. -/
def Splits (worldSize rank rows columns : ℕ) : MatrixMode → Tensor → Prop
  | .replicated, t => t.rows = ⟨0, rows⟩ ∧ t.columns = ⟨0, columns⟩
  | .columnParallel, t => worldSize ∣ rows ∧
    t.rows = ⟨rows / worldSize * rank, rows / worldSize⟩ ∧ t.columns = ⟨0, columns⟩
  | .rowParallelSum, t => worldSize ∣ columns ∧ t.rows = ⟨0, rows⟩ ∧
    t.columns = ⟨columns / worldSize * rank, columns / worldSize⟩

/-- What an accepted tensor guarantees. -/
structure Accepted (plan : Plan) (metadata : TensorMetadata) (rank : ℕ) (t : Tensor) : Prop where
  valid : metadata.validate = .ok ()
  role : metadata.role = plan.model.role
  rank_lt : rank < plan.worldSize
  sourceRows : t.sourceRows = metadata.dimension0
  sourceColumns : t.sourceColumns = metadata.dimension1
  mode : t.mode = matrixMode metadata.kind
  splits : Splits plan.worldSize rank metadata.dimension0 metadata.dimension1
    (matrixMode metadata.kind) t

variable {plan : Plan} {metadata : TensorMetadata} {rank : ℕ}

theorem tensor_eq_ok {t : Tensor} (h : plan.tensor metadata rank = .ok t) :
    Accepted plan metadata rank t := by
  simp only [Plan.tensor, bind_eq_ok, failIf_eq_ok, mapErr_eq_ok] at h
  obtain ⟨⟨⟩, hvalid, -, hrole, -, hrank, -, -, ⟨rows, columns, mode⟩, hrect, ht⟩ := h
  obtain rfl := Except.ok.inj ht
  have hsplit : mode = matrixMode metadata.kind ∧
      ∀ t : Tensor, t.rows = rows → t.columns = columns →
        Splits plan.worldSize rank metadata.dimension0 metadata.dimension1
          (matrixMode metadata.kind) t := by
    cases hkind : metadata.kind <;>
      simp only [Plan.rectangle, hkind, bind_eq_ok, tensorParallelRange_eq_ok, pure, Except.pure,
        Except.ok.injEq, Prod.mk.injEq] at hrect <;>
      simp only [matrixMode, Splits] <;> grind
  exact ⟨hvalid, not_not.mp hrole, Nat.lt_of_not_ge hrank, rfl, rfl, hsplit.1, hsplit.2 _ rfl rfl⟩

theorem Accepted.within {t : Tensor} (h : Accepted plan metadata rank t) : t.Within := by
  have hsplit := h.splits
  have hfit : ∀ extent, plan.worldSize ∣ extent →
      extent / plan.worldSize * rank + extent / plan.worldSize ≤ extent := by
    intro extent hdvd
    calc extent / plan.worldSize * rank + extent / plan.worldSize
        = extent / plan.worldSize * (rank + 1) := (Nat.mul_succ _ _).symm
      _ ≤ extent / plan.worldSize * plan.worldSize := Nat.mul_le_mul_left _ h.rank_lt
      _ = extent := Nat.div_mul_cancel hdvd
  cases hmode : matrixMode metadata.kind with
  | replicated =>
    rw [hmode] at hsplit
    obtain ⟨hrows, hcolumns⟩ := hsplit
    exact ⟨by simp [hrows, h.sourceRows], by simp [hcolumns, h.sourceColumns]⟩
  | columnParallel =>
    rw [hmode] at hsplit
    obtain ⟨hdvd, hrows, hcolumns⟩ := hsplit
    exact ⟨by rw [hrows, h.sourceRows]; exact hfit _ hdvd, by simp [hcolumns, h.sourceColumns]⟩
  | rowParallelSum =>
    rw [hmode] at hsplit
    obtain ⟨hdvd, hrows, hcolumns⟩ := hsplit
    exact ⟨by simp [hrows, h.sourceRows], by rw [hcolumns, h.sourceColumns]; exact hfit _ hdvd⟩

/-! ### Sharded tensors -/

section Elements

variable {A : Type*} (read : UInt8 → UInt8 → A)

/-- An element of a payload. -/
def element (bytes : List UInt8) (i : ℕ) : A :=
  read (bytes.getD (2 * i) 0) (bytes.getD (2 * i + 1) 0)

theorem element_drop_take {bytes : List UInt8} {start count i : ℕ} (hi : i < count) :
    element read ((bytes.drop (start * 2)).take (count * 2)) i =
      element read bytes (start + i) := by
  have hget : ∀ b < count * 2, ((bytes.drop (start * 2)).take (count * 2)).getD b 0 =
      bytes.getD (start * 2 + b) 0 := by
    intro b hb
    rw [List.getD_eq_getElem?_getD, List.getElem?_take_of_lt hb, List.getElem?_drop,
      List.getD_eq_getElem?_getD]
  rw [element, element, hget _ (by omega), hget _ (by omega)]
  congr 2 <;> omega

end Elements

/-- A tensor that the plan accepts for every rank, with its payload and its shards. -/
structure ShardedTensor (plan : Plan) where
  metadata : TensorMetadata
  tensor : ℕ → Tensor
  accepted : ∀ rank < plan.worldSize, plan.tensor metadata rank = .ok (tensor rank)
  source : List UInt8
  length_source : source.length = metadata.dimension0 * metadata.dimension1 * 2
  shard : ℕ → List (List UInt8)
  assembled : ∀ rank < plan.worldSize, (tensor rank).assemble source = .ok (shard rank)

/-- The shards of an accepted tensor can be assembled. -/
theorem exists_shardedTensor {tensor : ℕ → Tensor} {source : List UInt8}
    (haccepted : ∀ rank < plan.worldSize, plan.tensor metadata rank = .ok (tensor rank))
    (hlen : source.length = metadata.dimension0 * metadata.dimension1 * 2) :
    ∃ T : ShardedTensor plan, T.metadata = metadata ∧ T.tensor = tensor ∧ T.source = source := by
  refine ⟨⟨metadata, tensor, haccepted, source, hlen, fun rank => (tensor rank).bytes source,
    fun rank hrank => ?_⟩, rfl, rfl, rfl⟩
  have h := tensor_eq_ok (haccepted rank hrank)
  exact Tensor.assemble_eq h.within (by rw [hlen, h.sourceRows, h.sourceColumns])

namespace ShardedTensor

variable (T : ShardedTensor plan)

theorem rectangle (hrank : rank < plan.worldSize) :
    Accepted plan T.metadata rank (T.tensor rank) := tensor_eq_ok (T.accepted rank hrank)

theorem shard_eq (hrank : rank < plan.worldSize) :
    T.shard rank = (T.tensor rank).bytes T.source := by
  have h := T.rectangle hrank
  have hlen : T.source.length = (T.tensor rank).sourceRows * (T.tensor rank).sourceColumns * 2 := by
    rw [T.length_source, h.sourceRows, h.sourceColumns]
  exact Except.ok.inj ((T.assembled rank hrank).symm.trans (Tensor.assemble_eq h.within hlen))

/-- The element at a row and a column lies in the rank's rectangle. -/
def Holds (rank row column : ℕ) : Prop :=
  (T.tensor rank).rows.Contains row ∧ (T.tensor rank).columns.Contains column

/-- An element of a shard is the element of the rectangle. -/
theorem element_shard {A : Type*} (read : UInt8 → UInt8 → A) (hrank : rank < plan.worldSize)
    {row column : ℕ} (hrow : row < (T.tensor rank).rows.count)
    (hcolumn : column < (T.tensor rank).columns.count) :
    element read ((T.shard rank).getD row []) column =
      element read T.source (((T.tensor rank).rows.start + row) * T.metadata.dimension1 +
        ((T.tensor rank).columns.start + column)) := by
  have hget : (T.shard rank).getD row [] =
      (T.source.drop ((((T.tensor rank).rows.start + row) * T.metadata.dimension1 +
        (T.tensor rank).columns.start) * 2)).take ((T.tensor rank).columns.count * 2) := by
    rw [T.shard_eq hrank, Tensor.bytes, List.getD_eq_getElem?_getD, List.getElem?_map,
      List.getElem?_range hrow, (T.rectangle hrank).sourceColumns]
    rfl
  rw [hget, element_drop_take read hcolumn, Nat.add_assoc]

section Products

variable {A : Type*} [CommRing A] (read : UInt8 → UInt8 → A)

/-- The full matrix times a vector. -/
def full (x : ℕ → A) (row : ℕ) : A :=
  product T.metadata.dimension1
    (fun column => element read T.source (row * T.metadata.dimension1 + column)) x

/-- The shard of a rank times a vector. -/
def part (rank : ℕ) (x : ℕ → A) (row : ℕ) : A :=
  product (T.tensor rank).columns.count (element read ((T.shard rank).getD row [])) x

variable {T}

/-- **Rows split: a rank computes its tile of the product.** -/
theorem part_eq (hmode : matrixMode T.metadata.kind = .columnParallel)
    (hrank : rank < plan.worldSize) (x : ℕ → A) {row : ℕ}
    (hrow : row < (T.tensor rank).rows.count) :
    T.part read rank x row = T.full read x ((T.tensor rank).rows.start + row) := by
  have hsplit := (T.rectangle hrank).splits
  rw [hmode] at hsplit
  have hcolumns : (T.tensor rank).columns = ⟨0, T.metadata.dimension1⟩ := hsplit.2.2
  rw [part, full, hcolumns]
  refine product_congr (fun column hcolumn => ?_) fun _ _ => rfl
  rw [T.element_shard read hrank hrow (by rw [hcolumns]; exact hcolumn), hcolumns, Nat.zero_add]

/-- **Columns split: the ranks' products of the tiles of the vector add up to the product.** -/
theorem sum_part_eq (hmode : matrixMode T.metadata.kind = .rowParallelSum) (x : ℕ → A) {row : ℕ}
    (hrow : row < T.metadata.dimension0) (hworld : 0 < plan.worldSize) :
    ∑ rank ∈ Finset.range plan.worldSize,
      T.part read rank (fun column => x ((T.tensor rank).columns.start + column)) row =
        T.full read x row := by
  have hsplit : ∀ rank < plan.worldSize, plan.worldSize ∣ T.metadata.dimension1 ∧
      (T.tensor rank).rows = ⟨0, T.metadata.dimension0⟩ ∧ (T.tensor rank).columns =
        ⟨T.metadata.dimension1 / plan.worldSize * rank,
          T.metadata.dimension1 / plan.worldSize⟩ := by
    intro rank hrank
    have h := (T.rectangle hrank).splits
    rwa [hmode] at h
  have htile : T.metadata.dimension1 / plan.worldSize * plan.worldSize = T.metadata.dimension1 :=
    Nat.div_mul_cancel (hsplit 0 hworld).1
  calc
    _ = ∑ rank ∈ Finset.range plan.worldSize,
          product (T.metadata.dimension1 / plan.worldSize)
            (fun k => element read T.source (row * T.metadata.dimension1 +
              (T.metadata.dimension1 / plan.worldSize * rank + k)))
            (fun k => x (T.metadata.dimension1 / plan.worldSize * rank + k)) := by
      refine Finset.sum_congr rfl fun rank hmem => ?_
      have hrank : rank < plan.worldSize := Finset.mem_range.mp hmem
      obtain ⟨-, hrows, hcolumns⟩ := hsplit rank hrank
      rw [part, hcolumns]
      refine product_congr (fun column hcolumn => ?_) fun _ _ => rfl
      rw [T.element_shard read hrank (by rw [hrows]; exact hrow) (by rw [hcolumns]; exact hcolumn),
        hrows, hcolumns, Nat.zero_add]
    _ = T.full read x row := by
      rw [product_tiles (fun j => element read T.source (row * T.metadata.dimension1 + j)) x, htile]
      rfl

/-- Rows split: the products of the ranks, one after the other, are the product. -/
theorem flatMap_part_eq (hmode : matrixMode T.metadata.kind = .columnParallel) (x : ℕ → A)
    (hworld : 0 < plan.worldSize) :
    ((List.range plan.worldSize).flatMap fun rank =>
        (List.range (T.tensor rank).rows.count).map (T.part read rank x)) =
      (List.range T.metadata.dimension0).map (T.full read x) := by
  have hsplit : ∀ rank < plan.worldSize, plan.worldSize ∣ T.metadata.dimension0 ∧
      (T.tensor rank).rows =
        ⟨T.metadata.dimension0 / plan.worldSize * rank,
          T.metadata.dimension0 / plan.worldSize⟩ := by
    intro rank hrank
    have h := (T.rectangle hrank).splits
    rw [hmode] at h
    exact ⟨h.1, h.2.1⟩
  have htile : T.metadata.dimension0 / plan.worldSize * plan.worldSize = T.metadata.dimension0 :=
    Nat.div_mul_cancel (hsplit 0 hworld).1
  rw [← htile, ← flatMap_tiles]
  refine List.flatMap_congr fun rank hmem => ?_
  have hrank : rank < plan.worldSize := List.mem_range.mp hmem
  have hrows := (hsplit rank hrank).2
  have hcount : (T.tensor rank).rows.count = T.metadata.dimension0 / plan.worldSize := by rw [hrows]
  rw [hcount]
  refine List.map_congr_left fun row hrow => ?_
  rw [part_eq read hmode hrank x (by rw [hcount]; exact List.mem_range.mp hrow), hrows]

end Products

/-- Every element of a split tensor lies in one rank's shard. -/
theorem existsUnique_holds (hmode : matrixMode T.metadata.kind ≠ .replicated)
    (hworld : 0 < plan.worldSize) {row column : ℕ} (hrow : row < T.metadata.dimension0)
    (hcolumn : column < T.metadata.dimension1) :
    ∃! rank, rank < plan.worldSize ∧ T.Holds rank row column := by
  have hsplit : ∀ rank < plan.worldSize, Splits plan.worldSize rank T.metadata.dimension0
      T.metadata.dimension1 (matrixMode T.metadata.kind) (T.tensor rank) :=
    fun rank hrank => (T.rectangle hrank).splits
  cases hcase : matrixMode T.metadata.kind with
  | replicated => exact absurd hcase hmode
  | columnParallel =>
    rw [hcase] at hsplit
    have htile := Nat.div_mul_cancel (hsplit 0 hworld).1
    obtain ⟨rank, ⟨hrank, hlo, hhi⟩, huniq⟩ := existsUnique_tile (htile.symm ▸ hrow)
    refine ⟨rank, ⟨hrank, ?_⟩, ?_⟩
    · obtain ⟨-, hrows, hcolumns⟩ := hsplit rank hrank
      rw [Holds, hrows, hcolumns]
      exact ⟨⟨hlo, hhi⟩, Nat.zero_le _, by rwa [Nat.zero_add]⟩
    · rintro other ⟨hother, hholds, -⟩
      rw [(hsplit other hother).2.1] at hholds
      exact huniq other ⟨hother, hholds⟩
  | rowParallelSum =>
    rw [hcase] at hsplit
    have htile := Nat.div_mul_cancel (hsplit 0 hworld).1
    obtain ⟨rank, ⟨hrank, hlo, hhi⟩, huniq⟩ := existsUnique_tile (htile.symm ▸ hcolumn)
    refine ⟨rank, ⟨hrank, ?_⟩, ?_⟩
    · obtain ⟨-, hrows, hcolumns⟩ := hsplit rank hrank
      rw [Holds, hrows, hcolumns]
      exact ⟨⟨Nat.zero_le _, by rwa [Nat.zero_add]⟩, hlo, hhi⟩
    · rintro other ⟨hother, -, hholds⟩
      rw [(hsplit other hother).2.2] at hholds
      exact huniq other ⟨hother, hholds⟩

/-- Every element of a replicated tensor lies in every rank's shard. -/
theorem holds_of_replicated (hmode : matrixMode T.metadata.kind = .replicated)
    (hrank : rank < plan.worldSize) {row column : ℕ} (hrow : row < T.metadata.dimension0)
    (hcolumn : column < T.metadata.dimension1) : T.Holds rank row column := by
  have hsplit := (T.rectangle hrank).splits
  rw [hmode] at hsplit
  obtain ⟨hrows, hcolumns⟩ := hsplit
  rw [Holds, hrows, hcolumns]
  exact ⟨⟨Nat.zero_le _, by rwa [Nat.zero_add]⟩, Nat.zero_le _, by rwa [Nat.zero_add]⟩

end ShardedTensor

end TensorParallel

end Ferric
