import Ferric.Json.Correct
import Ferric.Safetensors.Names

/-!
# What is admitted

Shards that are admitted hold every tensor of the role's roster once, and in each shard the tensors
lie side by side from the first byte of the data to the last. Three loops contribute: the tensors of
a header are sorted and compared with a running offset; names and ordinals are collected over all
shards without repetition; and every ordinal below the count is looked for. As many distinct
ordinals as there are tensors, all of them below the count, are the ordinals of the whole roster.

## Main results

* `parseTensor_ensures` — one tensor
* `parseHeader_ensures` — one shard
* `validateRoster_ensures`, `validateRoster_eq_ok` — all shards, and which ones are accepted
* `admitHeaders_ensures` — the three together
-/

namespace Ferric

namespace Safetensors

open Spec (ModelRole TensorKind TensorMetadata)

variable {role : ModelRole}

/-! ### One tensor -/

/-- The dimensions of a tensor, as many as its rank. -/
def shape (m : TensorMetadata) : List ℕ := [m.dimension0, m.dimension1].take m.rank

/-- What is known of a tensor on its own. -/
structure ParsedTensor.Admitted (role : ModelRole) (t : ParsedTensor) : Prop where
  mem : (t.metadata.kind, t.metadata.layer) ∈ roster role
  name : t.name = canonicalName (t.metadata.kind, t.metadata.layer)
  ordinal : t.ordinal = Safetensors.ordinal role (t.metadata.kind, t.metadata.layer)
  nonempty : t.start < t.stop
  bytes : t.stop - t.start = 2 * (shape t.metadata).prod

theorem requireShape_eq_ok {m : TensorMetadata} {rank d₀ d₁ : ℕ}
    (h : m.requireShape rank d₀ d₁ = .ok ()) : m.rank = rank := by
  obtain ⟨_, hrank, -⟩ := bind_eq_ok.mp h
  exact not_not.mp (failIf_eq_ok.mp hrank)

/-- Every tensor of the schema has one dimension or two. -/
theorem rank_of_validate {m : TensorMetadata} (h : m.validate = .ok ()) :
    m.rank = 1 ∨ m.rank = 2 := by
  have hglobal {rank d₀ d₁ : ℕ} (h : m.requireGlobalShape rank d₀ d₁ = .ok ()) : m.rank = rank := by
    obtain ⟨_, -, h⟩ := bind_eq_ok.mp h
    exact requireShape_eq_ok h
  have hlayer {layers rank d₀ d₁ : ℕ} (h : m.requireLayerShape layers rank d₀ d₁ = .ok ()) :
      m.rank = rank := by
    obtain ⟨_, -, h⟩ := bind_eq_ok.mp h
    exact requireShape_eq_ok h
  rw [TensorMetadata.validate] at h
  split at h <;> split at h
  all_goals first
    | exact .inl (hglobal h)
    | exact .inr (hglobal h)
    | exact .inl (hlayer h)
    | exact .inr (hlayer h)

theorem foldlM_checkedMul {l : List ℕ} {a n : ℕ} (h : l.foldlM (checkedMul 64) a = some n) :
    n = a * l.prod := by
  induction l generalizing a with
  | nil =>
    obtain rfl : a = n := by simpa using h
    simp
  | cons d l ih =>
    rw [List.foldlM_cons] at h
    obtain ⟨b, hb, h⟩ := Option.bind_eq_some_iff.mp h
    rw [ih h, ← (checkedMul_eq_some.mp hb).2, List.prod_cons, Nat.mul_assoc]

theorem shape_of_rank {l : List ℕ} {m : TensorMetadata} (hrank : m.rank = saturateU32 l.length)
    (h₀ : m.dimension0 = l[0]?.getD 1) (h₁ : m.dimension1 = l[1]?.getD 1)
    (h : m.rank = 1 ∨ m.rank = 2) : shape m = l := by
  have hlen : l.length = m.rank := by
    rw [hrank, saturateU32]
    split
    · rfl
    · rw [hrank, saturateU32, if_neg ‹_›, u32Max] at h
      omega
  rw [shape, h₀, h₁]
  match l, hlen with
  | [], hlen => simp at hlen; omega
  | [a], hlen => simp [← hlen]
  | [a, b], hlen => simp [← hlen]
  | _ :: _ :: _ :: _, hlen => simp at hlen; omega

theorem take_ensures (f : Fields) (field : String) :
    Ensures (f.take field) (fun _ => True) fun _ => True := by
  rw [Fields.take]
  exact (ensures_orErr (Q := fun _ => True) (fun _ => trivial) fun _ _ => trivial).bind
    fun _ _ _ => ensures_pure.mpr trivial

theorem string_ensures (f : Fields) (field : String) :
    Ensures (f.string field) (fun _ => True) fun _ => True := by
  rw [Fields.string]
  refine (take_ensures f field).bind ?_
  rintro ⟨value, f'⟩ - -
  cases value <;> trivial

theorem finish_ensures (f : Fields) : Ensures f.finish (fun _ => True) fun _ => True := by
  rw [Fields.finish]
  split <;> trivial

theorem object_ensures (artifact field : String) (value : Json.Value) :
    Ensures (object artifact field value) (fun _ => True) fun _ => True := by
  cases value <;> trivial

theorem numberArray_ensures (bound : ℕ) (artifact field : String) (value : Json.Value) :
    Ensures (numberArray bound artifact field value) (fun _ => True) fun _ => True := by
  cases value with
  | array values =>
    refine (ensures_mapM (R := fun _ _ => True) fun v _ => ?_).mono
      (fun _ h => h) fun _ _ _ => trivial
    cases v with
    | number text => exact ensures_orErr (fun _ => trivial) fun _ _ => trivial
    | _ => trivial
  | _ => trivial

theorem validate_ensures (m : TensorMetadata) :
    Ensures m.validate (fun _ => True) fun _ => m.validate = .ok () := by
  have hshape (rank d₀ d₁ : ℕ) :
      Ensures (m.requireShape rank d₀ d₁) (fun _ => True) fun _ => True := by
    refine (ensures_failIf (Q := fun _ => True) (fun _ => trivial) fun _ => trivial).bind
      fun _ _ _ => ?_
    exact ensures_failIf (fun _ => trivial) fun _ => trivial
  have hglobal (rank d₀ d₁ : ℕ) :
      Ensures (m.requireGlobalShape rank d₀ d₁) (fun _ => True) fun _ => True :=
    (ensures_failIf (Q := fun _ => True) (fun _ => trivial) fun _ => trivial).bind
      fun _ _ _ => hshape rank d₀ d₁
  have hlayer (layers rank d₀ d₁ : ℕ) :
      Ensures (m.requireLayerShape layers rank d₀ d₁) (fun _ => True) fun _ => True :=
    (ensures_failIf (Q := fun _ => True) (fun _ => trivial) fun _ => trivial).bind
      fun _ _ _ => hshape rank d₀ d₁
  have hany : Ensures m.validate (fun _ => True) fun _ => True := by
    rw [TensorMetadata.validate]
    split <;> split <;> first | exact hglobal _ _ _ | exact hlayer _ _ _ _
  exact hany.mono (fun _ h => h) fun _ h _ => h

/-- A tensor that is accepted is a tensor of the roster, and its range has the size of its shape. -/
theorem parseTensor_ensures (role : ModelRole) (artifact name : String) (value : Json.Value) :
    Ensures (parseTensor role artifact name value) (fun _ => True) (·.Admitted role) := by
  rw [parseTensor]
  refine (classifyTensorName_ensures role name).bind ?_
  rintro ⟨kind, layer, ord⟩ - ⟨hmem, hname, hordinal⟩
  refine (object_ensures artifact name value).bind fun fields₀ _ _ => ?_
  refine (string_ensures _ _).bind ?_
  rintro ⟨dtype, fields₁⟩ - -
  refine (ensures_failIf (Q := fun _ => True) (fun _ => trivial) fun _ => trivial).bind
    fun _ _ _ => ?_
  refine (take_ensures _ _).bind ?_
  rintro ⟨shapeValue, fields₂⟩ - -
  refine (numberArray_ensures _ _ _ shapeValue).bind fun dims _ _ => ?_
  refine (take_ensures _ _).bind ?_
  rintro ⟨offsetsValue, fields₃⟩ - -
  refine (numberArray_ensures _ _ _ offsetsValue).bind fun offsets _ _ => ?_
  refine (finish_ensures fields₃).bind fun _ _ _ => ?_
  match offsets with
  | [start, stop] =>
    refine (ensures_failIf (Q := fun _ => start < stop) (fun _ => trivial)
      fun h => not_le.mp h).bind fun _ _ hrange => ?_
    refine (ensures_orErr (fun _ => trivial) fun n h => foldlM_checkedMul h).bind
      fun expected _ hexpected => ?_
    refine (ensures_mapErr (validate_ensures _)).bind fun _ _ hvalid => ?_
    refine (ensures_failIf (Q := fun _ => stop - start = expected) (fun _ => trivial)
      fun h => not_not.mp h).bind fun _ _ hbytes => ?_
    have hshape := shape_of_rank (l := dims) rfl rfl rfl (rank_of_validate hvalid)
    refine ensures_pure.mpr ⟨hmem, hname, hordinal, hrange, ?_⟩
    rw [hshape, hbytes, hexpected]
  | [] => trivial
  | [_] => trivial
  | _ :: _ :: _ :: _ => trivial

/-! ### One shard -/

/-- The tensors lie side by side from `a` to `b`. -/
def TilesFrom : ℕ → List ParsedTensor → ℕ → Prop
  | a, [], b => a = b
  | a, t :: ts, b => t.start = a ∧ t.start < t.stop ∧ TilesFrom t.stop ts b

/-- The tensors in their order cover `n` bytes, each byte once. -/
structure Tiles (tensors : List ParsedTensor) (n : ℕ) : Prop where
  bound : ∀ t ∈ tensors, t.start < t.stop ∧ t.stop ≤ n
  ordered : tensors.Pairwise fun a b => a.stop ≤ b.start
  cover : ∀ byte < n, ∃! t, t ∈ tensors ∧ t.start ≤ byte ∧ byte < t.stop

theorem TilesFrom.bound {a b : ℕ} {ts : List ParsedTensor} (h : TilesFrom a ts b) :
    a ≤ b ∧ ∀ t ∈ ts, a ≤ t.start ∧ t.start < t.stop ∧ t.stop ≤ b := by
  induction ts generalizing a with
  | nil => exact ⟨le_of_eq h, by simp⟩
  | cons t ts ih =>
    obtain ⟨rfl, hlt, h⟩ := h
    obtain ⟨hle, hts⟩ := ih h
    refine ⟨by omega, fun u hu => ?_⟩
    rcases List.mem_cons.mp hu with rfl | hu
    · exact ⟨le_rfl, hlt, hle⟩
    · obtain ⟨h₁, h₂, h₃⟩ := hts u hu
      exact ⟨by omega, h₂, h₃⟩

theorem TilesFrom.cover {a b : ℕ} {ts : List ParsedTensor} (h : TilesFrom a ts b) {byte : ℕ}
    (ha : a ≤ byte) (hb : byte < b) : ∃! t, t ∈ ts ∧ t.start ≤ byte ∧ byte < t.stop := by
  induction ts generalizing a with
  | nil =>
    obtain rfl : a = b := h
    omega
  | cons t ts ih =>
    obtain ⟨rfl, hlt, h⟩ := h
    by_cases hin : byte < t.stop
    · refine ⟨t, ⟨List.mem_cons_self, ha, hin⟩, ?_⟩
      rintro u ⟨hu, hle, -⟩
      rcases List.mem_cons.mp hu with rfl | hu
      · rfl
      · obtain ⟨hstart, -⟩ := h.bound.2 u hu
        omega
    · obtain ⟨u, ⟨hu, hrange⟩, hunique⟩ := ih h (not_lt.mp hin)
      refine ⟨u, ⟨.tail _ hu, hrange⟩, ?_⟩
      rintro v ⟨hv, hle, hv'⟩
      rcases List.mem_cons.mp hv with rfl | hv
      · exact absurd hv' hin
      · exact hunique v ⟨hv, hle, hv'⟩

theorem TilesFrom.ordered {a b : ℕ} {ts : List ParsedTensor} (h : TilesFrom a ts b) :
    ts.Pairwise fun a b => a.stop ≤ b.start := by
  induction ts generalizing a with
  | nil => exact .nil
  | cons t ts ih =>
    obtain ⟨rfl, -, h⟩ := h
    exact .cons (fun u hu => (h.bound.2 u hu).1) (ih h)

theorem TilesFrom.tiles {n : ℕ} {ts : List ParsedTensor} (h : TilesFrom 0 ts n) : Tiles ts n :=
  ⟨fun t ht => (h.bound.2 t ht).2, h.ordered, fun _ hb => h.cover (Nat.zero_le _) hb⟩

theorem coverageFrom_ensures {a : ℕ} {ts : List ParsedTensor} (h : ∀ t ∈ ts, t.start < t.stop) :
    Ensures (coverageFrom a ts) (fun _ => True) fun b => TilesFrom a ts b := by
  induction ts generalizing a with
  | nil => exact rfl
  | cons t ts ih =>
    rw [coverageFrom]
    refine (ensures_failIf (Q := fun _ => t.start ≤ a) (fun _ => trivial)
      fun h => not_lt.mp h).bind fun _ _ hle => ?_
    refine (ensures_failIf (Q := fun _ => a ≤ t.start) (fun _ => trivial)
      fun h => not_lt.mp h).bind fun _ _ hge => ?_
    refine (ih fun u hu => h u (.tail _ hu)).mono (fun _ _ => trivial) fun b _ hb => ?_
    exact ⟨le_antisymm hle hge, h t List.mem_cons_self, hb⟩

/-- The tensors of a shard are accepted one by one and tile its data. -/
theorem parseHeader_ensures (role : ModelRole) (artifact : String) (bytes : List UInt8) (n : ℕ) :
    Ensures (parseHeader role artifact bytes n) (fun _ => True) fun shard =>
      shard.tensorDataBytes = n ∧ (∀ t ∈ shard.tensors, t.Admitted role) ∧
        Tiles shard.tensors n := by
  rw [parseHeader, parseJson]
  refine Ensures.bind (Q := fun _ => True) ?_ fun value _ _ => ?_
  · refine (ensures_failIf (Q := fun _ => True) (fun _ => trivial) fun _ => trivial).bind
      fun _ _ _ => ?_
    exact ensures_mapErr ((Json.parse_ensures bytes).mono (fun _ _ => trivial) fun _ _ _ => trivial)
  refine (object_ensures artifact "$" value).bind fun fields _ _ => ?_
  refine (take_ensures _ _).bind ?_
  rintro ⟨metadataValue, tensors⟩ - -
  refine (object_ensures artifact _ metadataValue).bind fun metadata _ _ => ?_
  refine Ensures.bind (Q := fun _ => True) ?_ fun metadata _ _ => ?_
  · refine (string_ensures _ _).bind ?_
    rintro ⟨text, rest⟩ - -
    exact (ensures_failIf (Q := fun _ => True) (fun _ => trivial) fun _ => trivial).bind
      fun _ _ _ => ensures_pure.mpr trivial
  refine (finish_ensures metadata).bind fun _ _ _ => ?_
  refine (ensures_mapM fun entry _ => parseTensor_ensures role artifact entry.1 entry.2).bind
    fun parsed _ hparsed => ?_
  have hall : ∀ t ∈ parsed.mergeSort fun a b => a.start ≤ b.start, t.Admitted role := by
    intro t ht
    obtain ⟨-, -, h⟩ := exists_of_forall₂ hparsed (List.mem_mergeSort.mp ht)
    exact h
  refine Ensures.bind (Q := fun _ => Tiles (parsed.mergeSort fun a b => a.start ≤ b.start) n) ?_
    fun _ _ htiles => ensures_pure.mpr ⟨rfl, hall, htiles⟩
  rw [validateOffsetCoverage]
  refine (coverageFrom_ensures fun t ht => (hall t ht).nonempty).bind fun stop _ hstop => ?_
  refine ensures_failIf (fun _ => trivial) fun h => ?_
  exact (not_not.mp h ▸ hstop).tiles

/-! ### All shards -/

/-- The names and ordinals seen are those of these tensors, without repetition. -/
structure Collected (tensors : List ParsedTensor) (seen : Seen) : Prop where
  names : seen.names = tensors.map (·.name)
  ordinals : seen.ordinals = tensors.map (·.ordinal)
  nodup : seen.ordinals.Nodup

theorem addTensor_ensures {ts : List ParsedTensor} {seen : Seen} (h : Collected ts seen)
    (t : ParsedTensor) :
    Ensures (seen.addTensor t) (fun _ => True) fun seen' => Collected (ts ++ [t]) seen' := by
  rw [Seen.addTensor]
  refine (ensures_failIf (Q := fun _ => True) (fun _ => trivial) fun _ => trivial).bind
    fun _ _ _ => ?_
  refine (ensures_failIf (Q := fun _ => t.ordinal ∉ seen.ordinals) (fun _ => trivial)
    fun h => h).bind fun _ _ hnew => ?_
  refine ensures_pure.mpr ⟨?_, ?_, ?_⟩
  · simp [h.names]
  · simp [h.ordinals]
  · exact List.nodup_append.mpr ⟨h.nodup, by simp, by rintro a ha b hb rfl; simp_all⟩

theorem addShard_ensures {ts : List ParsedTensor} {seen : Seen} (h : Collected ts seen)
    (shard : ParsedShard) :
    Ensures (seen.addShard role shard) (fun _ => True) fun seen' =>
      Collected (ts ++ shard.tensors) seen' := by
  rw [Seen.addShard]
  refine (ensures_orErr (Q := fun _ => True) (fun _ => trivial) fun _ _ => trivial).bind
    fun total _ _ => ?_
  refine (ensures_foldlM (d := []) (E := fun _ => True)
    (I := fun done _ seen' => Collected (ts ++ done) seen') ?_ ?_).mono
      (fun _ h => h) fun _ _ h => h
  · rw [List.append_nil]
    exact ⟨h.names, h.ordinals, h.nodup⟩
  · intro done t rest seen' h'
    rw [← List.append_assoc]
    exact addTensor_ensures h' t

theorem validateOrdinals_ensures (ordinals : List ℕ) (n : ℕ) :
    Ensures (validateOrdinals ordinals n) (fun _ => True) fun _ => ∀ i < n, i ∈ ordinals := by
  rw [validateOrdinals]
  refine (ensures_foldlM (d := []) (E := fun _ => True)
    (I := fun done _ _ => ∀ i ∈ done, i ∈ ordinals) (by simp) ?_).mono (fun _ h => h) ?_
  · intro done i rest _ hdone
    refine ensures_failIf (fun _ => trivial) fun h j hj => ?_
    rcases List.mem_append.mp hj with hj | hj
    · exact hdone j hj
    · exact List.mem_singleton.mp hj ▸ not_not.mp h
  · intro _ _ h i hi
    exact h i (by simpa using hi)

/-- The ordinals of all tensors are those of the roster. -/
theorem validateRoster_ensures (role : ModelRole) (shards : List ParsedShard) :
    Ensures (validateRoster role shards) (fun _ => True) fun _ =>
      ((shards.flatMap (·.tensors)).map (·.ordinal)).Perm (List.range role.tensorCount) := by
  rw [validateRoster]
  refine (ensures_foldlM (d := []) (E := fun _ => True)
    (I := fun done _ seen => Collected (done.flatMap (·.tensors)) seen)
    ⟨rfl, rfl, List.nodup_nil⟩ ?_).bind
      fun seen _ hseen => ?_
  · intro done shard rest seen h
    rw [List.flatMap_append, List.flatMap_singleton]
    exact addShard_ensures h shard
  rw [List.nil_append] at hseen
  refine (ensures_failIf (Q := fun _ => seen.names.length = role.tensorCount) (fun _ => trivial)
    fun h => ?_).bind fun _ _ hcount => ?_
  · have hsmall : role.tensorCount < u32Max := by cases role <;> decide
    have heq := not_not.mp h
    rw [saturateU32] at heq
    split at heq <;> omega
  refine (validateOrdinals_ensures seen.ordinals role.tensorCount).bind fun _ _ hall => ?_
  refine ensures_failIf (fun _ => trivial) fun _ => ?_
  rw [← hseen.ordinals]
  have hlen : seen.ordinals.length = (List.range role.tensorCount).length := by
    rw [List.length_range, ← hcount, hseen.ordinals, hseen.names, List.length_map, List.length_map]
  have hsub : List.range role.tensorCount ⊆ seen.ordinals :=
    fun i hi => hall i (List.mem_range.mp hi)
  exact ((List.subperm_of_subset List.nodup_range hsub).perm_of_length_le hlen.le).symm

theorem foldlM_addTensor {seen : Seen} {ts : List ParsedTensor}
    (hnames : (seen.names ++ ts.map (·.name)).Nodup)
    (hordinals : (seen.ordinals ++ ts.map (·.ordinal)).Nodup) :
    ts.foldlM Seen.addTensor seen = .ok { seen with
      names := seen.names ++ ts.map (·.name)
      ordinals := seen.ordinals ++ ts.map (·.ordinal) } := by
  induction ts generalizing seen with
  | nil =>
    rw [List.foldlM_nil, List.map_nil, List.map_nil, List.append_nil, List.append_nil]
    rfl
  | cons t ts ih =>
    rw [List.map_cons] at hnames hordinals
    have hname : t.name ∉ seen.names := by
      intro hmem
      exact (List.nodup_append.mp hnames).2.2 _ hmem _ List.mem_cons_self rfl
    have hordinal : t.ordinal ∉ seen.ordinals := by
      intro hmem
      exact (List.nodup_append.mp hordinals).2.2 _ hmem _ List.mem_cons_self rfl
    rw [List.append_cons] at hnames hordinals
    rw [List.foldlM_cons, Seen.addTensor, failIf_of_not hname, ok_bind, failIf_of_not hordinal,
      ok_bind]
    refine (@ih { seen with names := _, ordinals := _ } hnames hordinals).trans ?_
    simp only [List.map_cons, List.append_assoc, List.singleton_append]

theorem foldlM_addShard {seen : Seen} {shards : List ParsedShard}
    (hnames : (seen.names ++ (shards.flatMap (·.tensors)).map (·.name)).Nodup)
    (hordinals : (seen.ordinals ++ (shards.flatMap (·.tensors)).map (·.ordinal)).Nodup)
    (hbytes : seen.tensorDataBytes + (shards.map (·.tensorDataBytes)).sum < 2 ^ 64) :
    shards.foldlM (Seen.addShard role) seen = .ok {
      names := seen.names ++ (shards.flatMap (·.tensors)).map (·.name)
      ordinals := seen.ordinals ++ (shards.flatMap (·.tensors)).map (·.ordinal)
      tensorDataBytes := seen.tensorDataBytes + (shards.map (·.tensorDataBytes)).sum } := by
  induction shards generalizing seen with
  | nil =>
    simp only [List.flatMap_nil, List.map_nil, List.append_nil, List.sum_nil, Nat.add_zero]
    rfl
  | cons shard shards ih =>
    rw [List.flatMap_cons, List.map_append, ← List.append_assoc] at hnames hordinals
    rw [List.map_cons, List.sum_cons, ← Nat.add_assoc] at hbytes
    have htotal : checkedAdd 64 seen.tensorDataBytes shard.tensorDataBytes =
        some (seen.tensorDataBytes + shard.tensorDataBytes) :=
      checkedAdd_eq_some.mpr ⟨by omega, rfl⟩
    have hshard : seen.addShard role shard = .ok
        ⟨seen.names ++ shard.tensors.map (·.name), seen.ordinals ++ shard.tensors.map (·.ordinal),
          seen.tensorDataBytes + shard.tensorDataBytes⟩ := by
      rw [Seen.addShard, htotal, orErr, ok_bind]
      exact foldlM_addTensor (List.Nodup.of_append_left hnames)
        (List.Nodup.of_append_left hordinals)
    rw [List.foldlM_cons, hshard, ok_bind]
    refine (@ih ⟨_, _, _⟩ hnames hordinals hbytes).trans ?_
    simp only [List.flatMap_cons, List.map_append, List.append_assoc, List.map_cons,
      List.sum_cons, Nat.add_assoc]

/-- **What suffices.** Shards with different names, the ordinals of the roster and as many bytes as
the role has are accepted. -/
theorem validateRoster_eq_ok {shards : List ParsedShard}
    (hnames : ((shards.flatMap (·.tensors)).map (·.name)).Nodup)
    (hordinals : ((shards.flatMap (·.tensors)).map (·.ordinal)).Perm (List.range role.tensorCount))
    (hbytes : (shards.map (·.tensorDataBytes)).sum = role.tensorDataBytes) :
    validateRoster role shards = .ok () := by
  have hfits : role.tensorDataBytes < 2 ^ 64 := by cases role <;> decide
  have hsmall : role.tensorCount < 2 ^ 32 := by cases role <;> decide
  have hseen := @foldlM_addShard role ⟨[], [], 0⟩ shards
    (by simpa using hnames) (by simpa using hordinals.nodup_iff.mpr List.nodup_range)
    (by simpa [hbytes] using hfits)
  simp only [List.nil_append, Nat.zero_add, hbytes] at hseen
  have hcount : saturateU32 ((shards.flatMap (·.tensors)).map (·.name)).length =
      role.tensorCount := by
    have hlength := hordinals.length_eq
    rw [List.length_map, List.length_range] at hlength
    rw [List.length_map, hlength, saturateU32, if_pos hsmall]
  have hall : validateOrdinals ((shards.flatMap (·.tensors)).map (·.ordinal)) role.tensorCount =
      .ok () := by
    refine foldlM_checks_eq_ok.mpr fun i hi => ?_
    exact failIf_of_not (not_not.mpr (hordinals.mem_iff.mpr hi))
  rw [validateRoster, hseen, ok_bind]
  simp only [hcount, hall, ok_bind, failIf_of_not (not_not.mpr rfl)]

/-- Members of the roster with the ordinals of the roster are the roster. -/
theorem perm_roster {tensors : List (TensorKind × ℕ)} (hmem : ∀ a ∈ tensors, a ∈ roster role)
    (h : (tensors.map (ordinal role)).Perm (List.range role.tensorCount)) :
    tensors.Perm (roster role) := by
  have hnodup : tensors.Nodup := .of_map _ (h.nodup_iff.mpr List.nodup_range)
  have hroster : (roster role).Nodup := .of_map _ (nodup_map_ordinal role)
  refine (List.perm_ext_iff_of_nodup hnodup hroster).mpr fun a => ⟨hmem a, fun ha => ?_⟩
  have hordinals := h.trans (perm_map_ordinal role).symm
  obtain ⟨b, hb, heq⟩ := List.mem_map.mp (hordinals.mem_iff.mpr (List.mem_map_of_mem ha))
  exact ordinal_injOn (hmem b hb) ha heq ▸ hb

/-! ### Shards of one tensor each -/

section Draft

open Json (ascii Value IsText IsValue Unescaped quoted numbersText)
open Spec (noLayer)

/-- The shape of a tensor of the draft model. -/
def draftShape : TensorKind → List ℕ
  | .languageModelHead | .tokenEmbedding => [151936, 1024]
  | .finalNorm | .inputLayerNorm | .postAttentionLayerNorm => [1024]
  | .queryNorm | .keyNorm => [128]
  | .queryProjection => [2048, 1024]
  | .keyProjection | .valueProjection => [1024, 1024]
  | .outputProjection => [1024, 2048]
  | .gateProjection | .upProjection => [3072, 1024]
  | .downProjection => [1024, 3072]

/-- The length of its data. -/
def draftBytes (kind : TensorKind) : ℕ := 2 * (draftShape kind).prod

/-- Its metadata. -/
def draftMetadata (tensor : TensorKind × ℕ) : TensorMetadata where
  role := .draft06B
  kind := tensor.1
  layer := tensor.2
  dtype := .bf16
  rank := (draftShape tensor.1).length
  dimension0 := (draftShape tensor.1)[0]?.getD 1
  dimension1 := (draftShape tensor.1)[1]?.getD 1

/-- Its entry in a header of which it is the only tensor, and what follows the entry. -/
def entryText (kind : TensorKind) (r : List UInt8) : List UInt8 :=
  ascii '\x7b' :: quoted "dtype" (ascii ':' :: quoted "BF16" (ascii ',' ::
    quoted "shape" (ascii ':' :: ascii '[' :: numbersText ((draftShape kind).map toString)
      (ascii ',' :: quoted "data_offsets" (ascii ':' :: ascii '[' ::
        numbersText ["0", toString (draftBytes kind)] (ascii '\x7d' :: r))))))

/-- The header. -/
def headerText (tensor : TensorKind × ℕ) : List UInt8 :=
  ascii '\x7b' :: quoted "__metadata__" (ascii ':' :: ascii '\x7b' ::
    quoted "format" (ascii ':' :: quoted "pt" (ascii '\x7d' :: ascii ',' ::
      quoted (canonicalName tensor) (ascii ':' :: entryText tensor.1 (ascii '\x7d' :: [])))))

def entryFields (kind : TensorKind) : List (String × Value) :=
  [("data_offsets", .array (["0", toString (draftBytes kind)].map .number)),
    ("dtype", .string "BF16"), ("shape", .array (((draftShape kind).map toString).map .number))]

theorem validate_draftMetadata {tensor : TensorKind × ℕ} (h : tensor ∈ roster .draft06B) :
    (draftMetadata tensor).validate = .ok () := by
  obtain ⟨kind, layer⟩ := tensor
  rcases mem_roster.mp h with ⟨hk, rfl⟩ | ⟨hk, hlayer⟩
  · have hall : ∀ kind ∈ globalKinds, (draftMetadata (kind, noLayer)).validate = .ok () := by
      decide
    exact hall kind hk
  · have hall : ∀ kind ∈ layerKinds, ∀ layer < 28,
        (draftMetadata (kind, layer)).validate = .ok () := by decide +kernel
    exact hall kind hk layer hlayer

/-- The numbers of an entry are written in digits and read back. -/
theorem spells_draft (kind : TensorKind) : ∀ n ∈ draftBytes kind :: draftShape kind,
    Json.IsNumber (utf8 (toString n).toList) ∧ 0 < n ∧ n < 2 ^ 32 ∧
      parseUnsigned (2 ^ 32) (toString n).toList = some n ∧
      parseUnsigned (2 ^ 64) (toString n).toList = some n := by
  have hall : ∀ n ∈ draftBytes kind :: draftShape kind,
      ((utf8 (toString n).toList).head?.any fun b => ascii '1' ≤ b ∧ b ≤ ascii '9') = true ∧
        (∀ b ∈ utf8 (toString n).toList, Json.isDigit b) ∧ 0 < n ∧ n < 2 ^ 32 ∧
        parseUnsigned (2 ^ 32) (toString n).toList = some n ∧
        parseUnsigned (2 ^ 64) (toString n).toList = some n := by
    cases kind <;> decide +kernel
  intro n hn
  obtain ⟨hfirst, hdigits, hrest⟩ := hall n hn
  exact ⟨Json.isNumber_of_digits hfirst hdigits, hrest⟩

theorem isValue_entryText (kind : TensorKind) (r : List UInt8) :
    IsValue 1 (entryText kind r) (.object (entryFields kind)) r := by
  have hfields : entryFields kind = Json.mapOf [("dtype", .string "BF16"),
      ("shape", .array (((draftShape kind).map toString).map .number)),
      ("data_offsets", .array (["0", toString (draftBytes kind)].map .number))] := by
    have hshape : ¬ "shape" < "dtype" := by decide
    have hoffsets : "data_offsets" < "dtype" := by decide
    simp [entryFields, Json.mapOf, insertEntry, hshape, hoffsets]
  have hplain : ∀ text ∈ ["dtype", "BF16", "shape", "data_offsets"],
      ∀ c ∈ text.toList, Unescaped c := by decide
  have hstring {text : String} (h : text ∈ ["dtype", "BF16", "shape", "data_offsets"])
      (r : List UInt8) : Json.IsString (quoted text r) text r :=
    Json.isString_quoted (hplain text h) r
  have hshape : ∀ n ∈ (draftShape kind).map toString, Json.IsNumber (utf8 n.toList) := by
    intro n hn
    obtain ⟨d, hd, rfl⟩ := List.mem_map.mp hn
    exact (spells_draft kind d (.tail _ hd)).1
  have hoffsets : ∀ n ∈ ["0", toString (draftBytes kind)], Json.IsNumber (utf8 n.toList) := by
    intro n hn
    rcases List.mem_cons.mp hn with rfl | hn
    · exact ⟨[], [ascii '0'], [], [], rfl, .inl rfl, .inl rfl, .inl rfl, .inl rfl⟩
    · obtain rfl := List.mem_singleton.mp hn
      exact (spells_draft kind _ List.mem_cons_self).1
  have hne : (draftShape kind).map toString ≠ [] := by cases kind <;> simp [draftShape]
  rw [hfields]
  refine .object (by decide) (.refl _) ?_ (by simp)
  refine .more (hstring (by simp) _) (.refl _) (.refl _)
    (.string (by decide) (hstring (by simp) _)) (.refl _) (.refl _) ?_
  refine .more (hstring (by simp) _) (.refl _) (.refl _)
    (.array (by decide) (.refl _) (Json.isElements_numbers (by decide) hne hshape _))
    (.refl _) (.refl _) ?_
  exact .last (hstring (by simp) _) (.refl _) (.refl _)
    (.array (by decide) (.refl _) (Json.isElements_numbers (by decide) (by simp) hoffsets _))
    (.refl _)

/-- The characters of a canonical name need no escape, and there are few of them. -/
theorem plain_canonicalName {tensor : TensorKind × ℕ} (h : tensor ∈ roster role) :
    (∀ c ∈ (canonicalName tensor).toList, Unescaped c) ∧
      (utf8 (canonicalName tensor).toList).length ≤ 64 := by
  obtain ⟨kind, layer⟩ := tensor
  rcases mem_roster.mp h with ⟨hk, rfl⟩ | ⟨hk, hlayer⟩
  · have hall : ∀ kind ∈ globalKinds,
        (∀ c ∈ (kindName kind).toList, Unescaped c) ∧
          (utf8 (kindName kind).toList).length ≤ 64 := by decide
    rw [canonicalName, if_pos hk]
    exact hall kind hk
  · have hall : ∀ kind ∈ layerKinds,
        (∀ c ∈ (kindName kind).toList, Unescaped c) ∧
          (utf8 (kindName kind).toList).length ≤ 40 := by decide
    obtain ⟨hdigits, hlength, -⟩ := @digits_of_layer role layer hlayer
    obtain ⟨hkind, hshort⟩ := hall kind hk
    have htext := @canonicalName_of_layer kind hk layer
    rw [htext]
    refine ⟨fun c hc => ?_, ?_⟩
    · rcases List.mem_append.mp hc with hc | hc
      · have hstart : ∀ c ∈ "model.layers.".toList, Unescaped c := by decide
        exact hstart c hc
      rcases List.mem_append.mp hc with hc | hc
      · have hdigit := digit_bounds (hdigits c hc)
        refine ⟨by omega, ?_, ?_⟩ <;>
          · rintro rfl
            exact absurd hdigit (by decide)
      rcases List.mem_cons.mp hc with rfl | hc
      · decide
      · exact hkind c hc
    · have hstart : (utf8 "model.layers.".toList).length = 13 := by decide
      have hdot : (String.utf8EncodeChar '.').length = 1 := by decide
      rw [utf8_append, utf8_append, utf8_cons, List.length_append, List.length_append,
        List.length_append, hstart, hdot]
      omega

theorem canonicalName_ne_metadata {tensor : TensorKind × ℕ} (h : tensor ∈ roster role) :
    canonicalName tensor ≠ "__metadata__" := by
  intro heq
  have hclass := classifyTensorName_canonicalName h
  rw [heq] at hclass
  cases hclass

/-- A header is read as the tensor that it is for. -/
theorem isText_headerText {tensor : TensorKind × ℕ} (h : tensor ∈ roster .draft06B) :
    IsText (headerText tensor) (.object (Json.mapOf
      [("__metadata__", .object [("format", .string "pt")]),
        (canonicalName tensor, .object (entryFields tensor.1))])) := by
  have hplain : ∀ text ∈ ["__metadata__", "format", "pt"],
      ∀ c ∈ text.toList, Unescaped c := by decide
  have hstring {text : String} (h : text ∈ ["__metadata__", "format", "pt"])
      (r : List UInt8) : Json.IsString (quoted text r) text r :=
    Json.isString_quoted (hplain text h) r
  have hmetadata (r : List UInt8) : IsValue 1
      (ascii '\x7b' :: quoted "format" (ascii ':' :: quoted "pt" (ascii '\x7d' :: r)))
      (.object [("format", .string "pt")]) r := by
    have hmember : Json.IsMembers 2 (quoted "format" (ascii ':' :: quoted "pt" (ascii '\x7d' :: r)))
        [("format", .string "pt")] r :=
      .last (hstring (by simp) _) (.refl _) (.refl _) (.string (by decide) (hstring (by simp) _))
        (.refl _)
    exact .object (by decide) (.refl _) hmember (by simp)
  refine ⟨_, _, .refl _, .object (by decide) (.refl _) ?_ ?_, .refl _⟩
  · refine .more (hstring (by simp) _) (.refl _) (.refl _) (hmetadata _) (.refl _) (.refl _) ?_
    exact .last (Json.isString_quoted (plain_canonicalName h).1 _) (.refl _) (.refl _)
      (isValue_entryText tensor.1 _) (.refl _)
  · simpa using (canonicalName_ne_metadata h).symm

/-- What is read of the entry. -/
def draftTensor (tensor : TensorKind × ℕ) : ParsedTensor where
  name := canonicalName tensor
  start := 0
  stop := draftBytes tensor.1
  ordinal := ordinal .draft06B tensor
  metadata := draftMetadata tensor

theorem numberArray_map {bound : ℕ} {artifact field : String} {ns : List ℕ}
    (h : ∀ n ∈ ns, parseUnsigned bound (toString n).toList = some n) :
    numberArray bound artifact field (.array ((ns.map toString).map .number)) = .ok ns := by
  rw [numberArray, List.map_map]
  refine (mapM_map_eq_ok (k := id) fun n hn => ?_).trans (by rw [List.map_id])
  rw [Function.comp_apply, number, h n hn, orErr]
  rfl

/-- The three members of an entry are taken out one after the other. -/
theorem take_entry (artifact : String) (offsets shape : Value) :
    Fields.string ⟨artifact, [("data_offsets", offsets), ("dtype", .string "BF16"),
        ("shape", shape)]⟩ "dtype" =
      .ok ("BF16", ⟨artifact, [("data_offsets", offsets), ("shape", shape)]⟩) ∧
    Fields.take ⟨artifact, [("data_offsets", offsets), ("shape", shape)]⟩ "shape" =
      .ok (shape, ⟨artifact, [("data_offsets", offsets)]⟩) ∧
    Fields.take ⟨artifact, [("data_offsets", offsets)]⟩ "data_offsets" =
      .ok (offsets, ⟨artifact, []⟩) :=
  ⟨rfl, rfl, rfl⟩

theorem parseTensor_draft {tensor : TensorKind × ℕ} (h : tensor ∈ roster .draft06B)
    (artifact : String) :
    parseTensor .draft06B artifact (canonicalName tensor) (.object (entryFields tensor.1)) =
      .ok (draftTensor tensor) := by
  have hspells := spells_draft tensor.1
  have hshape : u32Array artifact (canonicalName tensor ++ ".shape")
      (.array (((draftShape tensor.1).map toString).map .number)) = .ok (draftShape tensor.1) :=
    numberArray_map fun n hn => (hspells n (.tail _ hn)).2.2.2.1
  have hoffsets : u64Array artifact (canonicalName tensor ++ ".data_offsets")
      (.array (["0", toString (draftBytes tensor.1)].map .number)) =
        .ok [0, draftBytes tensor.1] := by
    refine @numberArray_map _ _ _ [0, draftBytes tensor.1] fun n hn => ?_
    rcases List.mem_cons.mp hn with rfl | hn
    · decide
    · obtain rfl := List.mem_singleton.mp hn
      exact (hspells _ List.mem_cons_self).2.2.2.2
  obtain ⟨hdtype, htake, htake'⟩ := take_entry artifact
    (.array (["0", toString (draftBytes tensor.1)].map .number))
    (.array (((draftShape tensor.1).map toString).map .number))
  have hproduct : (draftShape tensor.1).foldlM (checkedMul 64) 2 = some (draftBytes tensor.1) := by
    cases tensor.1 <;> decide
  have hrank : saturateU32 (draftShape tensor.1).length = (draftShape tensor.1).length := by
    cases tensor.1 <;> rfl
  have hpos : ¬ draftBytes tensor.1 ≤ 0 := Nat.not_le.mpr (hspells _ List.mem_cons_self).2.1
  have hvalid := validate_draftMetadata h
  rw [draftMetadata] at hvalid
  rw [parseTensor, classifyTensorName_canonicalName h, ok_bind]
  simp only [object, entryFields, ok_bind, hdtype, htake, hshape, htake', hoffsets, Fields.finish,
    hproduct, orErr, hrank, hvalid, mapErr, failIf_of_not hpos, Nat.sub_zero,
    failIf_of_not (not_not.mpr rfl)]
  rfl

theorem length_quoted (text : String) (r : List UInt8) :
    (quoted text r).length = (utf8 text.toList).length + r.length + 2 := by
  simp only [quoted, List.length_cons, List.length_append]
  omega

theorem length_headerText {tensor : TensorKind × ℕ} (h : tensor ∈ roster .draft06B) :
    (headerText tensor).length ≤ maxSafetensorsHeaderBytes := by
  have hname := (plain_canonicalName h).2
  have hentry : ∀ kind, (entryText kind [ascii '\x7d']).length ≤ 200 := by
    intro kind
    cases kind <;> decide +kernel
  have hentry := hentry tensor.1
  have hmetadata : (utf8 "__metadata__".toList).length = 12 := by decide
  have hformat : (utf8 "format".toList).length = 6 := by decide
  have hpt : (utf8 "pt".toList).length = 2 := by decide
  have hmax : maxSafetensorsHeaderBytes = 65536 := rfl
  simp only [headerText, List.length_cons, length_quoted]
  omega

/-- Without the first of two members there is the second one. -/
theorem filter_mapOf {a b : String} (h : b ≠ a) (x y : Value) :
    (Json.mapOf [(a, x), (b, y)]).filter (·.1 ≠ a) = [(b, y)] := by
  show (insertEntry b y [(a, x)]).filter (·.1 ≠ a) = [(b, y)]
  rw [insertEntry, if_neg h]
  split
  · simp [h]
  · simp [insertEntry, h]

theorem parseHeader_draft {tensor : TensorKind × ℕ} (h : tensor ∈ roster .draft06B)
    (artifact : String) :
    parseHeader .draft06B artifact (headerText tensor) (draftBytes tensor.1) =
      .ok ⟨[draftTensor tensor], draftBytes tensor.1⟩ := by
  have hname := canonicalName_ne_metadata h
  have hsize : ¬ (headerText tensor = [] ∨
      (headerText tensor).length > maxSafetensorsHeaderBytes) := by
    have hlength := length_headerText h
    rintro (hnil | hlong)
    · cases hnil
    · omega
  have hlookup : lookupEntry "__metadata__" (Json.mapOf
      [("__metadata__", .object [("format", .string "pt")]),
        (canonicalName tensor, .object (entryFields tensor.1))]) =
      some (.object [("format", .string "pt")]) :=
    (Json.lookupEntry_mapOf (by simpa using hname.symm)).mpr List.mem_cons_self
  have hformat : Fields.expectString ⟨artifact, [("format", .string "pt")]⟩ "format" "pt" =
      .ok ⟨artifact, []⟩ := rfl
  rw [parseHeader, parseJson, failIf_of_not hsize, ok_bind,
    Json.parse_of_isText (isText_headerText h)]
  have htake : Fields.take ⟨artifact, Json.mapOf
      [("__metadata__", .object [("format", .string "pt")]),
        (canonicalName tensor, .object (entryFields tensor.1))]⟩ "__metadata__" =
      .ok (.object [("format", .string "pt")],
        ⟨artifact, [(canonicalName tensor, .object (entryFields tensor.1))]⟩) := by
    rw [Fields.take, hlookup, orErr, ok_bind, filter_mapOf hname]
    rfl
  have hparsed : [(canonicalName tensor, Value.object (entryFields tensor.1))].mapM
      (fun entry => parseTensor .draft06B artifact entry.1 entry.2) = .ok [draftTensor tensor] := by
    rw [List.mapM_cons, parseTensor_draft h]
    rfl
  have hcovers : validateOffsetCoverage [draftTensor tensor] (draftBytes tensor.1) = .ok () := by
    have hstart : ¬ 0 < 0 := Nat.lt_irrefl 0
    show (do failIf (0 > 0) _; failIf (0 < 0) _; coverageFrom (draftBytes tensor.1) []) >>= _ = _
    rw [failIf_of_not hstart, ok_bind, failIf_of_not hstart, ok_bind, coverageFrom, ok_bind]
    exact failIf_of_not (not_not.mpr rfl)
  simp only [mapErr, ok_bind, object, htake, hformat, Fields.finish, hparsed,
    List.mergeSort_singleton, hcovers]
  rfl

/-- A header for each tensor of the draft model. -/
def draftHeaders : List Header :=
  (roster .draft06B).map fun tensor => ⟨"model", headerText tensor, draftBytes tensor.1⟩

theorem admitHeaders_draftHeaders : admitHeaders .draft06B draftHeaders =
    .ok ((roster .draft06B).map fun tensor => ⟨[draftTensor tensor], draftBytes tensor.1⟩) := by
  have hflat : ((roster .draft06B).map fun tensor =>
      (⟨[draftTensor tensor], draftBytes tensor.1⟩ : ParsedShard)).flatMap (·.tensors) =
      (roster .draft06B).map draftTensor := by
    rw [List.flatMap_map]
    exact List.map_eq_flatMap.symm
  have hnames : (roster .draft06B).Nodup := .of_map _ (nodup_map_ordinal .draft06B)
  have hparsed : draftHeaders.mapM (fun header =>
      parseHeader .draft06B header.artifact header.bytes header.tensorDataBytes) =
      .ok ((roster .draft06B).map fun tensor => ⟨[draftTensor tensor], draftBytes tensor.1⟩) :=
    mapM_map_eq_ok fun tensor h => parseHeader_draft h "model"
  rw [admitHeaders, hparsed, ok_bind, validateRoster_eq_ok, ok_bind]
  · rfl
  · rw [hflat, List.map_map]
    exact hnames.map_on fun a ha b hb heq => canonicalName_injOn ha hb heq
  · rw [hflat, List.map_map]
    exact perm_map_ordinal .draft06B
  · rw [List.map_map]
    decide +kernel

end Draft

/-! ### Admission -/

/-- What identifies a tensor. -/
def ParsedTensor.identity (t : ParsedTensor) : String × TensorKind × ℕ :=
  (t.name, t.metadata.kind, t.metadata.layer)

/-- **Admission is complete and exact.** The tensors of admitted shards are the roster of the role,
each tensor once and under its canonical name; the range of a tensor has two bytes for each element
of its shape; the tensors of a shard tile its data. Names that are accepted are told apart by their
ordinals. -/
theorem admitHeaders_ensures (role : ModelRole) (headers : List Header) :
    Ensures (admitHeaders role headers) (fun _ => True) (fun shards =>
      ((shards.flatMap (·.tensors)).map (·.identity)).Perm
        ((roster role).map fun tensor => (canonicalName tensor, tensor)) ∧
      shards.map (·.tensorDataBytes) = headers.map (·.tensorDataBytes) ∧
      ∀ shard ∈ shards, Tiles shard.tensors shard.tensorDataBytes ∧
        ∀ t ∈ shard.tensors, t.stop - t.start = 2 * (shape t.metadata).prod) ∧
    ∀ name name' r r', classifyTensorName role name = .ok r →
      classifyTensorName role name' = .ok r' → r.2.2 = r'.2.2 → name = name' := by
  refine ⟨?_, fun name name' r r' h h' heq => eq_of_classifyTensorName h h' heq⟩
  rw [admitHeaders]
  refine (ensures_mapM fun header _ =>
    parseHeader_ensures role header.artifact header.bytes header.tensorDataBytes).bind ?_
  rintro shards - hshards
  have hlengths : shards.map (·.tensorDataBytes) = headers.map (·.tensorDataBytes) := by
    induction hshards with
    | nil => rfl
    | cons h _ ih => rw [List.map_cons, List.map_cons, ih, h.1]
  have hall : ∀ shard ∈ shards, (∀ t ∈ shard.tensors, t.Admitted role) ∧
      Tiles shard.tensors shard.tensorDataBytes := by
    intro shard hshard
    obtain ⟨header, -, hlen, hadmitted, htiles⟩ := exists_of_forall₂ hshards hshard
    exact ⟨hadmitted, hlen ▸ htiles⟩
  refine (validateRoster_ensures role shards).bind fun _ _ hroster => ?_
  refine ensures_pure.mpr ⟨?_, hlengths, fun shard hshard => ?_⟩
  · -- each tensor is a member of the roster, under its name and with its ordinal
    have hadmitted : ∀ t ∈ shards.flatMap (·.tensors), t.Admitted role := by
      intro t ht
      obtain ⟨shard, hshard, ht⟩ := List.mem_flatMap.mp ht
      exact (hall shard hshard).1 t ht
    have hordinals : ((shards.flatMap (·.tensors)).map
        fun t => (t.metadata.kind, t.metadata.layer)).Perm (roster role) := by
      refine perm_roster (fun a ha => ?_) ?_
      · obtain ⟨t, ht, rfl⟩ := List.mem_map.mp ha
        exact (hadmitted t ht).mem
      · have hmap : (shards.flatMap (·.tensors)).map (·.ordinal) =
            (shards.flatMap (·.tensors)).map
              (ordinal role ∘ fun t => (t.metadata.kind, t.metadata.layer)) :=
          List.map_congr_left fun t ht => (hadmitted t ht).ordinal
        rw [List.map_map, ← hmap]
        exact hroster
    have hidentity : (shards.flatMap (·.tensors)).map (·.identity) =
        ((shards.flatMap (·.tensors)).map fun t => (t.metadata.kind, t.metadata.layer)).map
          fun tensor => (canonicalName tensor, tensor) := by
      rw [List.map_map]
      refine List.map_congr_left fun t ht => ?_
      rw [ParsedTensor.identity, (hadmitted t ht).name]
      rfl
    rw [hidentity]
    exact hordinals.map _
  · exact ⟨(hall shard hshard).2, fun t ht => ((hall shard hshard).1 t ht).bytes⟩

/-- The headers of the draft model are admitted. -/
theorem admitHeaders_ensures_draftHeaders : ∃ shards,
    admitHeaders .draft06B draftHeaders = .ok shards ∧ shards.length = 311 ∧
    ((shards.flatMap (·.tensors)).map (·.identity)).Perm
      ((roster .draft06B).map fun tensor => (canonicalName tensor, tensor)) ∧
    ∀ shard ∈ shards, Tiles shard.tensors shard.tensorDataBytes := by
  have hadmitted : ∀ headers shards, admitHeaders .draft06B headers = .ok shards →
      ((shards.flatMap (·.tensors)).map (·.identity)).Perm
        ((roster .draft06B).map fun tensor => (canonicalName tensor, tensor)) ∧
      ∀ shard ∈ shards, Tiles shard.tensors shard.tensorDataBytes := by
    intro headers shards h
    obtain ⟨hroster, -, htiles⟩ := (admitHeaders_ensures .draft06B headers).1.of_ok h
    exact ⟨hroster, fun shard hshard => (htiles shard hshard).1⟩
  have hcount : (roster .draft06B).length = 311 := by decide +kernel
  exact ⟨_, admitHeaders_draftHeaders, (List.length_map _).trans hcount,
    hadmitted _ _ admitHeaders_draftHeaders⟩

end Safetensors

end Ferric
