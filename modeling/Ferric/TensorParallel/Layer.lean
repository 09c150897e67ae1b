import Ferric.TensorParallel.Sharding
import Mathlib.Tactic.Ring

/-!
# Sharding preserves a layer

The ranges of heads and channels of a rank come from other functions than the rectangles of its
tensors. They agree, and a query head is on the same rank as the head it is grouped with, so a rank
attends with its own projections and the sum over the ranks is the layer.

## Main results

* `Plan.Admitted.contains_grouped`, `Plan.Admitted.agrees` — heads, channels and rectangles
* `Plan.Admitted.accepts_iff` — the tensors that a plan accepts
* `Plan.Admitted.layerPreserved` — products, attention and feed-forward
* `sharding_preserves` — every accepted plan splits the layer without changing it
-/

namespace Ferric

namespace TensorParallel

open Spec Tiling

variable {plan : Plan} {metadata : TensorMetadata} {rank : ℕ}

/-! ### Heads and channels -/

/-- What an accepted plan guarantees. -/
structure Plan.Admitted (plan : Plan) : Prop where
  valid : plan.model.validate = .ok ()
  world : plan.worldSize = 1 ∨ plan.worldSize = 2 ∨ plan.worldSize = 8
  queryHeads : 0 < plan.model.queryHeads ∧ plan.worldSize ∣ plan.model.queryHeads
  kvHeads : 0 < plan.model.kvHeads ∧ plan.worldSize ∣ plan.model.kvHeads
  grouped : plan.model.kvHeads ∣ plan.model.queryHeads
  intermediate : 0 < plan.model.intermediateSize ∧ plan.worldSize ∣ plan.model.intermediateSize

theorem Plan.admitted_of_new {model : ModelConfig} {worldSize : ℕ}
    (h : Plan.new model worldSize = .ok plan) : plan.Admitted := by
  simp only [Plan.new, bind_eq_ok, failIf_eq_ok, mapErr_eq_ok] at h
  obtain ⟨⟨⟩, hvalid, -, hworld, -, hgeometry, hplan⟩ := h
  obtain rfl := Except.ok.inj hplan
  simp only [not_or] at hgeometry
  obtain ⟨hq, -, hkv, -, -, hqdvd, hkvdvd, hgroup, hpos, -, hidvd, -, -⟩ := hgeometry
  exact ⟨hvalid, by show worldSize = 1 ∨ worldSize = 2 ∨ worldSize = 8; omega,
    ⟨Nat.pos_of_ne_zero hq, Nat.dvd_of_mod_eq_zero (not_not.mp hqdvd)⟩,
    ⟨Nat.pos_of_ne_zero hkv, Nat.dvd_of_mod_eq_zero (not_not.mp hkvdvd)⟩,
    Nat.dvd_of_mod_eq_zero (not_not.mp hgroup),
    ⟨Nat.pos_of_ne_zero hpos, Nat.dvd_of_mod_eq_zero (not_not.mp hidvd)⟩⟩

theorem Plan.Admitted.worldSize_pos (h : plan.Admitted) : 0 < plan.worldSize := by
  rcases h.world with h | h | h <;> omega

/-- The range of a rank, when the plan is accepted. -/
def tile (extent worldSize rank : ℕ) : Range := ⟨extent / worldSize * rank, extent / worldSize⟩

/-- The plan of a rank. -/
def Plan.rankPlan (plan : Plan) (rank : ℕ) : RankPlan where
  rank := rank
  worldSize := plan.worldSize
  queryHeads := tile plan.model.queryHeads plan.worldSize rank
  kvHeads := tile plan.model.kvHeads plan.worldSize rank
  queryChannels := ⟨(tile plan.model.queryHeads plan.worldSize rank).start * 128,
    (tile plan.model.queryHeads plan.worldSize rank).count * 128⟩
  kvChannels := ⟨(tile plan.model.kvHeads plan.worldSize rank).start * 128,
    (tile plan.model.kvHeads plan.worldSize rank).count * 128⟩
  intermediate := tile plan.model.intermediateSize plan.worldSize rank

theorem Plan.Admitted.rank_eq (h : plan.Admitted) (hrank : rank < plan.worldSize) :
    plan.rank rank = .ok (plan.rankPlan rank) := by
  have hq := tensorParallelRange_eq_ok.mpr ⟨h.world, hrank, h.queryHeads.1, h.queryHeads.2, rfl⟩
  have hkv := tensorParallelRange_eq_ok.mpr ⟨h.world, hrank, h.kvHeads.1, h.kvHeads.2, rfl⟩
  have hi :=
    tensorParallelRange_eq_ok.mpr ⟨h.world, hrank, h.intermediate.1, h.intermediate.2, rfl⟩
  rw [Plan.rank, hq, ok_bind, hkv, ok_bind, hi]
  rfl

/-- Equal tiles of an extent, one after the other, are the extent. -/
theorem flatMap_indices {extent worldSize : ℕ} (h : worldSize ∣ extent) :
    ((List.range worldSize).flatMap fun rank => (tile extent worldSize rank).indices) =
      List.range extent := by
  have htiles := flatMap_tiles (c := extent / worldSize) (n := worldSize) fun i => i
  rw [List.map_id', Nat.div_mul_cancel h] at htiles
  exact htiles

/-- The head that a query head is grouped with is on its rank. -/
theorem Plan.Admitted.contains_grouped (h : plan.Admitted) {head : ℕ}
    (hhead : (tile plan.model.queryHeads plan.worldSize rank).Contains head) :
    (tile plan.model.kvHeads plan.worldSize rank).Contains
      (head / (plan.model.queryHeads / plan.model.kvHeads)) := by
  obtain ⟨group, hgroup⟩ := h.grouped
  obtain ⟨c, hc⟩ := h.kvHeads.2
  have hworld := h.worldSize_pos
  have hkvpos := h.kvHeads.1
  have hquery : plan.model.queryHeads / plan.worldSize = c * group := by
    rw [hgroup, hc, Nat.mul_assoc, Nat.mul_div_cancel_left _ hworld]
  have hkv : plan.model.kvHeads / plan.worldSize = c := by rw [hc, Nat.mul_div_cancel_left _ hworld]
  have hratio : plan.model.queryHeads / plan.model.kvHeads = group := by
    rw [hgroup, Nat.mul_div_cancel_left _ hkvpos]
  have hpos : 0 < group := Nat.pos_of_ne_zero fun hzero => by
    have := h.queryHeads.1
    rw [hgroup, hzero, Nat.mul_zero] at this
    exact Nat.lt_irrefl 0 this
  obtain ⟨hlo, hhi⟩ := hhead
  simp only [tile, hquery] at hlo hhi
  rw [hratio]
  constructor
  · show plan.model.kvHeads / plan.worldSize * rank ≤ head / group
    rw [hkv, Nat.le_div_iff_mul_le hpos]
    calc c * rank * group = c * group * rank := by ring
      _ ≤ head := hlo
  · show head / group < plan.model.kvHeads / plan.worldSize * rank +
      plan.model.kvHeads / plan.worldSize
    rw [hkv, Nat.div_lt_iff_lt_mul hpos]
    calc head < c * group * rank + c * group := hhi
      _ = (c * rank + c) * group := by ring

/-- A rank's rectangle of a projection is its range of channels. -/
def Agrees (p : RankPlan) (t : Tensor) : TensorKind → Prop
  | .queryProjection => t.rows = p.queryChannels
  | .keyProjection | .valueProjection => t.rows = p.kvChannels
  | .outputProjection => t.columns = p.queryChannels
  | .gateProjection | .upProjection => t.rows = p.intermediate
  | .downProjection => t.columns = p.intermediate
  | _ => True

/-- The extent of a projection that is split, from the geometry of the model. -/
def SplitExtent (model : ModelConfig) (metadata : TensorMetadata) : TensorKind → Prop
  | .queryProjection => metadata.dimension0 = model.queryHeads * 128
  | .keyProjection | .valueProjection => metadata.dimension0 = model.kvHeads * 128
  | .outputProjection => metadata.dimension1 = model.queryHeads * 128
  | .gateProjection | .upProjection => metadata.dimension0 = model.intermediateSize
  | .downProjection => metadata.dimension1 = model.intermediateSize
  | _ => True

/-- The pinned shapes of tensors and of models agree. -/
theorem splitExtent_of_validate {model : ModelConfig} (hmodel : model.validate = .ok ())
    (hmetadata : metadata.validate = .ok ()) (hrole : metadata.role = model.role) :
    SplitExtent model metadata metadata.kind := by
  simp only [ModelConfig.validate, bind_eq_ok] at hmodel
  obtain ⟨-, -, -, -, hshape⟩ := hmodel
  cases hcase : model.role <;> rw [hcase] at hrole hshape <;>
    simp only [ModelConfig.requireShape, failIf_eq_ok, not_or, not_not] at hshape <;>
    cases hkind : metadata.kind <;>
    simp only [SplitExtent] <;>
    simp only [TensorMetadata.validate, hrole, hkind, TensorMetadata.requireLayerShape,
      TensorMetadata.requireShape, bind_eq_ok, failIf_eq_ok, not_or, not_not] at hmetadata <;>
    omega

theorem tile_mul {extent worldSize : ℕ} (h : worldSize ∣ extent) (rank n : ℕ) :
    tile (extent * n) worldSize rank =
      ⟨(tile extent worldSize rank).start * n, (tile extent worldSize rank).count * n⟩ := by
  have hdiv : extent * n / worldSize = extent / worldSize * n := Nat.mul_div_right_comm h n
  simp only [tile, hdiv, Range.mk.injEq, and_true]
  ring

theorem Plan.Admitted.agrees (h : plan.Admitted) {t : Tensor}
    (ht : Accepted plan metadata rank t) : Agrees (plan.rankPlan rank) t metadata.kind := by
  have hextent := splitExtent_of_validate h.valid ht.valid ht.role
  have hsplit := ht.splits
  have hquery := tile_mul h.queryHeads.2 rank 128
  have hkv := tile_mul h.kvHeads.2 rank 128
  cases hkind : metadata.kind <;> rw [hkind] at hextent hsplit <;>
    simp only [SplitExtent] at hextent <;> simp only [matrixMode, Splits] at hsplit <;>
    simp only [Agrees]
  case queryProjection => exact hsplit.2.1.trans (hextent ▸ hquery)
  case keyProjection => exact hsplit.2.1.trans (hextent ▸ hkv)
  case valueProjection => exact hsplit.2.1.trans (hextent ▸ hkv)
  case outputProjection => exact hsplit.2.2.trans (hextent ▸ hquery)
  case gateProjection => exact hsplit.2.1.trans (hextent ▸ rfl)
  case upProjection => exact hsplit.2.1.trans (hextent ▸ rfl)
  case downProjection => exact hsplit.2.2.trans (hextent ▸ rfl)

/-! ### Acceptance -/

/-- The pinned shapes are within the bounds of a plan, and every world size divides what is
split. -/
structure Splittable (metadata : TensorMetadata) : Prop where
  dimension0 : 0 < metadata.dimension0 ∧ metadata.dimension0 ≤ 151936
  dimension1 : 0 < metadata.dimension1 ∧ metadata.dimension1 ≤ 151936
  rows : matrixMode metadata.kind = .columnParallel → 8 ∣ metadata.dimension0
  columns : matrixMode metadata.kind = .rowParallelSum → 8 ∣ metadata.dimension1

theorem splittable_of_validate (h : metadata.validate = .ok ()) : Splittable metadata := by
  cases hrole : metadata.role <;> cases hkind : metadata.kind <;>
    simp only [TensorMetadata.validate, hrole, hkind, TensorMetadata.requireLayerShape,
      TensorMetadata.requireGlobalShape, TensorMetadata.requireShape, bind_eq_ok, failIf_eq_ok,
      not_or, not_not] at h <;>
    obtain ⟨-, -, -, -, hdim0, hdim1⟩ := h <;>
    refine ⟨by omega, by omega, fun hmode => ?_, fun hmode => ?_⟩ <;>
    rw [hkind] at hmode <;> first | omega | cases hmode

theorem Plan.Admitted.world_dvd (h : plan.Admitted) : plan.worldSize ∣ 8 := by
  rcases h.world with h | h | h <;> rw [h] <;> decide

/-- **The tensors that a plan accepts** are those with the metadata of its model. -/
theorem Plan.Admitted.accepts_iff (h : plan.Admitted) (hrank : rank < plan.worldSize) :
    (∃ t, plan.tensor metadata rank = .ok t) ↔
      metadata.validate = .ok () ∧ metadata.role = plan.model.role := by
  constructor
  · rintro ⟨t, ht⟩
    have haccepted := tensor_eq_ok ht
    exact ⟨haccepted.valid, haccepted.role⟩
  · rintro ⟨hvalid, hrole⟩
    have hs := splittable_of_validate hvalid
    have hrectangle : ∃ r, plan.rectangle metadata rank = .ok r := by
      have hrows := fun hmode => tensorParallelRange_eq_ok.mpr ⟨h.world, hrank, hs.dimension0.1,
        h.world_dvd.trans (hs.rows hmode), rfl⟩
      have hcolumns := fun hmode => tensorParallelRange_eq_ok.mpr ⟨h.world, hrank,
        hs.dimension1.1, h.world_dvd.trans (hs.columns hmode), rfl⟩
      rw [Plan.rectangle]
      cases hkind : metadata.kind <;> rw [hkind] at hrows hcolumns <;>
        simp only [matrixMode, reduceCtorEq, false_imp_iff, forall_const] at hrows hcolumns <;>
        first
        | exact ⟨_, rfl⟩
        | exact ⟨_, bind_eq_ok.mpr ⟨_, hrows, rfl⟩⟩
        | exact ⟨_, bind_eq_ok.mpr ⟨_, hcolumns, rfl⟩⟩
    obtain ⟨⟨rows, columns, mode⟩, hrectangle⟩ := hrectangle
    have hbounds : ¬ (metadata.dimension0 = 0 ∨ metadata.dimension1 = 0 ∨
        metadata.dimension0 > 151936 ∨ metadata.dimension1 > 151936) := by
      have hdim0 := hs.dimension0
      have hdim1 := hs.dimension1
      omega
    rw [Plan.tensor, hvalid]
    show ∃ t, (failIf _ _ >>= fun _ => _) = .ok t
    rw [failIf_of_not (not_not.mpr hrole), ok_bind, failIf_of_not (Nat.not_le.mpr hrank), ok_bind,
      failIf_of_not hbounds, ok_bind, hrectangle]
    exact ⟨_, rfl⟩

/-! ### The layer -/

/-- The heads of the ranks tile the heads of the model, and a grouped head is on the same rank. -/
structure HeadsTile (plan : Plan) : Prop where
  accepted : ∀ rank < plan.worldSize, plan.rank rank = .ok (plan.rankPlan rank)
  queryHeads : ((List.range plan.worldSize).flatMap fun rank =>
    (plan.rankPlan rank).queryHeads.indices) = List.range plan.model.queryHeads
  kvHeads : ((List.range plan.worldSize).flatMap fun rank =>
    (plan.rankPlan rank).kvHeads.indices) = List.range plan.model.kvHeads
  grouped : ∀ rank < plan.worldSize, ∀ head, (plan.rankPlan rank).queryHeads.Contains head →
    (plan.rankPlan rank).kvHeads.Contains (head / (plan.model.queryHeads / plan.model.kvHeads))
  agrees : ∀ metadata rank t, plan.tensor metadata rank = .ok t →
    Agrees (plan.rankPlan rank) t metadata.kind

theorem Plan.Admitted.headsTile (h : plan.Admitted) : HeadsTile plan where
  accepted _ hrank := h.rank_eq hrank
  queryHeads := flatMap_indices h.queryHeads.2
  kvHeads := flatMap_indices h.kvHeads.2
  grouped _ _ _ hhead := h.contains_grouped hhead
  agrees _ _ _ ht := h.agrees (tensor_eq_ok ht)

/-- Every element is in the shards that its kind asks for, and unchanged. -/
structure Covers (T : ShardedTensor plan) : Prop where
  rows : ∀ rank < plan.worldSize, (T.shard rank).map List.length =
    List.replicate (T.tensor rank).rows.count ((T.tensor rank).columns.count * 2)
  elements : ∀ rank < plan.worldSize, ∀ row < (T.tensor rank).rows.count,
    ∀ column < (T.tensor rank).columns.count,
      element Prod.mk ((T.shard rank).getD row []) column =
        element Prod.mk T.source (((T.tensor rank).rows.start + row) * T.metadata.dimension1 +
          ((T.tensor rank).columns.start + column))
  once : matrixMode T.metadata.kind ≠ .replicated → ∀ row < T.metadata.dimension0,
    ∀ column < T.metadata.dimension1, ∃! rank, rank < plan.worldSize ∧ T.Holds rank row column
  everywhere : matrixMode T.metadata.kind = .replicated → ∀ rank < plan.worldSize,
    ∀ row < T.metadata.dimension0, ∀ column < T.metadata.dimension1, T.Holds rank row column

theorem Plan.Admitted.covers (h : plan.Admitted) (T : ShardedTensor plan) : Covers T where
  rows rank hrank := by
    rw [T.shard_eq hrank, Tensor.bytes, List.map_map]
    refine List.eq_replicate_iff.mpr ⟨by rw [List.length_map, List.length_range], ?_⟩
    intro n hn
    obtain ⟨row, hrow, rfl⟩ := List.mem_map.mp hn
    have hlen := T.length_source
    have hrect := T.rectangle hrank
    have hend := hrect.within.row_le (List.mem_range.mp hrow)
    rw [← hrect.sourceRows, ← hrect.sourceColumns] at hlen
    rw [Function.comp_apply, List.length_take, List.length_drop]
    omega
  elements _ hrank _ hrow _ hcolumn := T.element_shard Prod.mk hrank hrow hcolumn
  once hmode _ hrow _ hcolumn :=
    T.existsUnique_holds hmode h.worldSize_pos hrow hcolumn
  everywhere hmode _ hrank _ hrow _ hcolumn :=
    T.holds_of_replicated hmode hrank hrow hcolumn

section Attention

variable {A : Type*}

/-- One channel of the attention of the query heads from `firstHead`, with the key and value heads
from `firstKv`. What a head computes from its query, key and value is arbitrary. -/
def attention (attend : ℕ → (Fin 128 → A) → (Fin 128 → A) → (Fin 128 → A) → Fin 128 → A)
    (firstHead firstKv group : ℕ) (q k v : ℕ → A) (channel : ℕ) : A :=
  let head := firstHead + channel / 128
  let kv := head / group - firstKv
  attend head (fun i => q (channel / 128 * 128 + i)) (fun i => k (kv * 128 + i))
    (fun i => v (kv * 128 + i)) ⟨channel % 128, Nat.mod_lt _ (by decide)⟩

/-- A rank attends with its own channels. -/
theorem attention_local
    (attend : ℕ → (Fin 128 → A) → (Fin 128 → A) → (Fin 128 → A) → Fin 128 → A)
    {queryHeads kvHeads : Range} {group channel : ℕ} {q k v q' k' v' : ℕ → A}
    (hq : ∀ c < queryHeads.count * 128, q' c = q (queryHeads.start * 128 + c))
    (hk : ∀ c < kvHeads.count * 128, k' c = k (kvHeads.start * 128 + c))
    (hv : ∀ c < kvHeads.count * 128, v' c = v (kvHeads.start * 128 + c))
    (hchannel : channel < queryHeads.count * 128)
    (hkv : kvHeads.Contains ((queryHeads.start + channel / 128) / group)) :
    attention attend queryHeads.start kvHeads.start group q' k' v' channel =
      attention attend 0 0 group q k v (queryHeads.start * 128 + channel) := by
  have hdiv : (queryHeads.start * 128 + channel) / 128 = queryHeads.start + channel / 128 := by
    omega
  have hmod : (queryHeads.start * 128 + channel) % 128 = channel % 128 := by omega
  obtain ⟨hlo, hhi⟩ := hkv
  simp only [attention, hdiv, hmod, Nat.zero_add, Nat.sub_zero]
  generalize hg : (queryHeads.start + channel / 128) / group = kv at hlo hhi
  have hqs : (fun i : Fin 128 => q' (channel / 128 * 128 + i)) =
      fun i : Fin 128 => q ((queryHeads.start + channel / 128) * 128 + i) := by
    funext i
    rw [hq _ (by omega)]
    congr 1
    omega
  have hks : (fun i : Fin 128 => k' ((kv - kvHeads.start) * 128 + i)) =
      fun i : Fin 128 => k (kv * 128 + i) := by
    funext i
    rw [hk _ (by omega)]
    congr 1
    omega
  have hvs : (fun i : Fin 128 => v' ((kv - kvHeads.start) * 128 + i)) =
      fun i : Fin 128 => v (kv * 128 + i) := by
    funext i
    rw [hv _ (by omega)]
    congr 1
    omega
  rw [hqs, hks, hvs]

end Attention

section Layer

variable {A : Type*} [CommRing A] (read : UInt8 → UInt8 → A)

/-- The sharded layer computes what the full matrices compute. -/
structure LayerPreserved (plan : Plan) : Prop where
  /-- The rows of a shard are the tiles of the product. -/
  columnParallel : ∀ T : ShardedTensor plan, matrixMode T.metadata.kind = .columnParallel →
    ∀ x : ℕ → A, ((List.range plan.worldSize).flatMap fun rank =>
      (List.range (T.tensor rank).rows.count).map (T.part read rank x)) =
        (List.range T.metadata.dimension0).map (T.full read x)
  /-- The products with the slices of the vector add up to the product. -/
  rowParallelSum : ∀ T : ShardedTensor plan, matrixMode T.metadata.kind = .rowParallelSum →
    ∀ x : ℕ → A, ∀ row < T.metadata.dimension0, ∑ rank ∈ Finset.range plan.worldSize,
      T.part read rank (fun column => x ((T.tensor rank).columns.start + column)) row =
        T.full read x row
  /-- Projections, heads and output projection. -/
  attentionSum : ∀ Q K V O : ShardedTensor plan, Q.metadata.kind = .queryProjection →
    K.metadata.kind = .keyProjection → V.metadata.kind = .valueProjection →
    O.metadata.kind = .outputProjection →
    ∀ (attend : ℕ → (Fin 128 → A) → (Fin 128 → A) → (Fin 128 → A) → Fin 128 → A) (x : ℕ → A),
    ∀ row < O.metadata.dimension0, ∑ rank ∈ Finset.range plan.worldSize,
      O.part read rank (attention attend (plan.rankPlan rank).queryHeads.start
        (plan.rankPlan rank).kvHeads.start (plan.model.queryHeads / plan.model.kvHeads)
        (Q.part read rank x) (K.part read rank x) (V.part read rank x)) row =
      O.full read (attention attend 0 0 (plan.model.queryHeads / plan.model.kvHeads)
        (Q.full read x) (K.full read x) (V.full read x)) row
  /-- Gate, up and down projections around an arbitrary activation. -/
  feedForwardSum : ∀ G U D : ShardedTensor plan, G.metadata.kind = .gateProjection →
    U.metadata.kind = .upProjection → D.metadata.kind = .downProjection →
    ∀ (activate : A → A → A) (x : ℕ → A),
    ∀ row < D.metadata.dimension0, ∑ rank ∈ Finset.range plan.worldSize,
      D.part read rank
        (fun channel => activate (G.part read rank x channel) (U.part read rank x channel)) row =
      D.full read (fun channel => activate (G.full read x channel) (U.full read x channel)) row

namespace ShardedTensor

/-- A column split may be fed from what the rank computed. -/
theorem sum_part_congr {T : ShardedTensor plan}
    (hmode : matrixMode T.metadata.kind = .rowParallelSum) (hworld : 0 < plan.worldSize)
    {x : ℕ → A} {y : ℕ → ℕ → A} {row : ℕ} (hrow : row < T.metadata.dimension0)
    (hy : ∀ rank < plan.worldSize, ∀ column < (T.tensor rank).columns.count,
      y rank column = x ((T.tensor rank).columns.start + column)) :
    ∑ rank ∈ Finset.range plan.worldSize, T.part read rank (y rank) row = T.full read x row := by
  rw [← sum_part_eq read hmode x hrow hworld]
  refine Finset.sum_congr rfl fun rank hrank => ?_
  exact product_congr (fun _ _ => rfl) (hy rank (Finset.mem_range.mp hrank))

end ShardedTensor

theorem Plan.Admitted.layerPreserved (h : plan.Admitted) : LayerPreserved read plan where
  columnParallel _ hmode x := ShardedTensor.flatMap_part_eq read hmode x h.worldSize_pos
  rowParallelSum _ hmode x _ hrow := ShardedTensor.sum_part_eq read hmode x hrow h.worldSize_pos
  attentionSum Q K V O hQ hK hV hO attend x row hrow := by
    refine ShardedTensor.sum_part_congr read (by rw [hO]; rfl) h.worldSize_pos hrow ?_
    intro rank hrank channel hchannel
    have hq : (Q.tensor rank).rows = (plan.rankPlan rank).queryChannels := by
      have := h.agrees (Q.rectangle hrank)
      rwa [hQ] at this
    have hk : (K.tensor rank).rows = (plan.rankPlan rank).kvChannels := by
      have := h.agrees (K.rectangle hrank)
      rwa [hK] at this
    have hv : (V.tensor rank).rows = (plan.rankPlan rank).kvChannels := by
      have := h.agrees (V.rectangle hrank)
      rwa [hV] at this
    have ho : (O.tensor rank).columns = (plan.rankPlan rank).queryChannels := by
      have := h.agrees (O.rectangle hrank)
      rwa [hO] at this
    rw [ho] at hchannel ⊢
    have hhead : (plan.rankPlan rank).queryHeads.Contains
        ((plan.rankPlan rank).queryHeads.start + channel / 128) := by
      have : channel < (plan.rankPlan rank).queryHeads.count * 128 := hchannel
      exact ⟨Nat.le_add_right _ _, by omega⟩
    refine attention_local attend (fun c hc => ?_) (fun c hc => ?_) (fun c hc => ?_) hchannel
      (h.contains_grouped hhead)
    · rw [ShardedTensor.part_eq read (by rw [hQ]; rfl) hrank x (by rw [hq]; exact hc), hq]
      rfl
    · rw [ShardedTensor.part_eq read (by rw [hK]; rfl) hrank x (by rw [hk]; exact hc), hk]
      rfl
    · rw [ShardedTensor.part_eq read (by rw [hV]; rfl) hrank x (by rw [hv]; exact hc), hv]
      rfl
  feedForwardSum G U D hG hU hD activate x row hrow := by
    refine ShardedTensor.sum_part_congr read (by rw [hD]; rfl) h.worldSize_pos hrow ?_
    intro rank hrank channel hchannel
    have hg : (G.tensor rank).rows = (plan.rankPlan rank).intermediate := by
      have := h.agrees (G.rectangle hrank)
      rwa [hG] at this
    have hu : (U.tensor rank).rows = (plan.rankPlan rank).intermediate := by
      have := h.agrees (U.rectangle hrank)
      rwa [hU] at this
    have hd : (D.tensor rank).columns = (plan.rankPlan rank).intermediate := by
      have := h.agrees (D.rectangle hrank)
      rwa [hD] at this
    rw [hd] at hchannel ⊢
    rw [ShardedTensor.part_eq read (by rw [hG]; rfl) hrank x (by rw [hg]; exact hchannel), hg,
      ShardedTensor.part_eq read (by rw [hU]; rfl) hrank x (by rw [hu]; exact hchannel), hu]

end Layer

/-- **Sharding preserves the layer.** For every accepted plan: the tensors of its model are accepted
for all ranks; an accepted tensor with a payload of its size has shards, which cover it; the heads
and their channels are tiled consistently; and with the elements read in any commutative ring the
ranks compute the products, the attention and the feed-forward of the full matrices. -/
theorem sharding_preserves {model : ModelConfig} {worldSize : ℕ}
    (hplan : Plan.new model worldSize = .ok plan) {A : Type*} [CommRing A]
    (read : UInt8 → UInt8 → A) :
    (∀ metadata, ∀ rank < plan.worldSize, (∃ t, plan.tensor metadata rank = .ok t) ↔
      metadata.validate = .ok () ∧ metadata.role = plan.model.role) ∧
    (∀ metadata tensor source,
      (∀ rank < plan.worldSize, plan.tensor metadata rank = .ok (tensor rank)) →
      source.length = metadata.dimension0 * metadata.dimension1 * 2 →
      ∃ T : ShardedTensor plan, T.metadata = metadata ∧ T.tensor = tensor ∧ T.source = source) ∧
    (∀ T : ShardedTensor plan, Covers T) ∧ HeadsTile plan ∧ LayerPreserved read plan := by
  have h := Plan.admitted_of_new hplan
  exact ⟨fun _ _ hrank => h.accepts_iff hrank,
    fun _ _ _ haccepted hlen => exists_shardedTensor haccepted hlen, h.covers, h.headsTile,
    h.layerPreserved read⟩

/-- A tensor of each mode: split by rows, split by columns, and replicated. -/
def draftTensors : List TensorMetadata :=
  [⟨.draft06B, .queryProjection, 3, .bf16, 2, 2048, 1024⟩,
    ⟨.draft06B, .outputProjection, 3, .bf16, 2, 1024, 2048⟩,
    ⟨.draft06B, .inputLayerNorm, 3, .bf16, 1, 1024, 1⟩]

theorem sharding_preserves_draftModel :
    draftTensors.map (fun metadata => matrixMode metadata.kind) =
      [.columnParallel, .rowParallelSum, .replicated] ∧
    (∀ metadata ∈ draftTensors, ∃ T : ShardedTensor ⟨draftModel, 2⟩, T.metadata = metadata ∧
      T.source = List.replicate (metadata.dimension0 * metadata.dimension1 * 2) 1 ∧ Covers T) ∧
    HeadsTile ⟨draftModel, 2⟩ ∧
      LayerPreserved (fun low high => (low.toNat + 256 * high.toNat : ℤ)) ⟨draftModel, 2⟩ := by
  obtain ⟨haccepts, hsharded, hcovers, htile, hlayer⟩ := sharding_preserves Plan.new_draftModel
    (fun low high => (low.toNat + 256 * high.toNat : ℤ))
  refine ⟨rfl, fun metadata hmetadata => ?_, htile, hlayer⟩
  have hvalid : ∀ metadata ∈ draftTensors, metadata.validate = .ok () ∧
      metadata.role = draftModel.role := by
    decide
  have haccepted : ∀ rank : ℕ, ∃ t, rank < 2 →
      Plan.tensor ⟨draftModel, 2⟩ metadata rank = .ok t := by
    intro rank
    by_cases hrank : rank < 2
    · obtain ⟨t, ht⟩ := (haccepts metadata rank hrank).mpr (hvalid metadata hmetadata)
      exact ⟨t, fun _ => ht⟩
    · exact ⟨⟨.draft06B, 2, 0, 0, 0, ⟨0, 0⟩, ⟨0, 0⟩, .replicated⟩, fun h => absurd h hrank⟩
  choose tensor htensor using haccepted
  obtain ⟨T, hT, -, hsource⟩ := hsharded metadata tensor
    (List.replicate (metadata.dimension0 * metadata.dimension1 * 2) 1) htensor
    List.length_replicate
  exact ⟨T, hT, hsource, hcovers T⟩

end TensorParallel

end Ferric
