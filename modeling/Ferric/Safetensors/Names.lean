import Ferric.Lib.Lists
import Ferric.Safetensors.Model

/-!
# Names and ordinals

The roster of a role is its global tensors and the eleven kinds of each layer. A name that is
accepted is the canonical name of a member of the roster, and its ordinal is the position of that
member in an order of the whole roster, so that names and ordinals determine each other.

## Main results

* `classifyTensorName_ensures` — what an accepted name is
* `perm_map_ordinal` — ordinals number the roster
* `classifyTensorName_canonicalName` — every canonical name is accepted
* `eq_of_classifyTensorName` — two accepted names with one ordinal are equal
-/

namespace Ferric

namespace Safetensors

open Spec (ModelRole TensorKind noLayer)

/-- The kinds that belong to no layer. -/
def globalKinds : List TensorKind := [.languageModelHead, .tokenEmbedding, .finalNorm]

/-- The kinds that every layer has. -/
def layerKinds : List TensorKind :=
  [.inputLayerNorm, .postAttentionLayerNorm, .queryNorm, .keyNorm, .queryProjection,
    .keyProjection, .valueProjection, .outputProjection, .gateProjection, .upProjection,
    .downProjection]

/-- The tensors of a role. -/
def roster (role : ModelRole) : List (TensorKind × ℕ) :=
  globalKinds.map (·, noLayer) ++
    (List.range role.layers).flatMap fun layer => layerKinds.map (·, layer)

/-- The end of the name of a kind, or the whole name if the kind is global. -/
def kindName : TensorKind → String
  | .languageModelHead => "lm_head.weight"
  | .tokenEmbedding => "model.embed_tokens.weight"
  | .finalNorm => "model.norm.weight"
  | .inputLayerNorm => "input_layernorm.weight"
  | .postAttentionLayerNorm => "post_attention_layernorm.weight"
  | .queryNorm => "self_attn.q_norm.weight"
  | .keyNorm => "self_attn.k_norm.weight"
  | .queryProjection => "self_attn.q_proj.weight"
  | .keyProjection => "self_attn.k_proj.weight"
  | .valueProjection => "self_attn.v_proj.weight"
  | .outputProjection => "self_attn.o_proj.weight"
  | .gateProjection => "mlp.gate_proj.weight"
  | .upProjection => "mlp.up_proj.weight"
  | .downProjection => "mlp.down_proj.weight"

/-- The one name of a tensor. -/
def canonicalName (tensor : TensorKind × ℕ) : String :=
  if tensor.1 ∈ globalKinds then kindName tensor.1
  else "model.layers." ++ toString tensor.2 ++ "." ++ kindName tensor.1

/-- Where a kind stands among those of its layer. -/
def kindOrdinal (kind : TensorKind) : ℕ := (layerSuffixes.map Prod.snd).idxOf kind

/-- The number of a tensor. -/
def ordinal (role : ModelRole) (tensor : TensorKind × ℕ) : ℕ :=
  if tensor.1 ∈ globalKinds then globalOrdinal role tensor.1
  else layerBase role + tensor.2 * 11 + kindOrdinal tensor.1

variable {role : ModelRole} {name : String} {kind : TensorKind}

/-! ### Accepted names -/

theorem stripStart_eq_some {start text rest : List Char} (h : stripStart start text = some rest) :
    text = start ++ rest := by
  rw [stripStart] at h
  split at h
  next hpre =>
    obtain ⟨t, rfl⟩ := List.isPrefixOf_iff_prefix.mp hpre
    rw [List.drop_left, Option.some.injEq] at h
    rw [h]
  · simp at h

theorem splitOnce_eq_some {c : Char} {text a b : List Char} (h : splitOnce c text = some (a, b)) :
    text = a ++ c :: b := by
  induction text generalizing a with
  | nil => simp [splitOnce] at h
  | cons x text ih =>
    rw [splitOnce] at h
    split at h
    next hx =>
      obtain ⟨rfl, rfl⟩ := Prod.mk.inj (Option.some.inj h)
      rw [hx, List.nil_append]
    · obtain ⟨⟨a', b'⟩, htext, heq⟩ := Option.map_eq_some_iff.mp h
      obtain ⟨rfl, rfl⟩ := Prod.mk.inj heq
      rw [ih htext, List.cons_append]

theorem globalKind?_eq_some (h : globalKind? name = some kind) :
    kind ∈ globalKinds ∧ name = kindName kind := by
  rw [globalKind?] at h
  split_ifs at h with h₁ h₂ h₃
  · obtain rfl := Option.some.inj h
    exact ⟨by decide, h₁⟩
  · obtain rfl := Option.some.inj h
    exact ⟨by decide, h₂⟩
  · obtain rfl := Option.some.inj h
    exact ⟨by decide, h₃⟩

theorem layerKind?_eq_some {suffix : String} {k : ℕ} (h : layerKind? suffix = some (kind, k)) :
    kind ∈ layerKinds ∧ suffix = kindName kind ∧ k = kindOrdinal kind := by
  obtain ⟨⟨⟨text, kind'⟩, i⟩, hfind, heq⟩ := Option.map_eq_some_iff.mp h
  obtain ⟨rfl, rfl⟩ := Prod.mk.inj heq
  have htext : text = suffix := by simpa using List.find?_some hfind
  have hall : ∀ e ∈ layerSuffixes.zipIdx,
      e.1.2 ∈ layerKinds ∧ e.1.1 = kindName e.1.2 ∧ e.2 = kindOrdinal e.1.2 := by decide
  obtain ⟨hmem, hname, hordinal⟩ := hall _ (List.mem_of_find?_eq_some hfind)
  exact ⟨hmem, htext ▸ hname, hordinal⟩

theorem notMem_globalKinds (h : kind ∈ layerKinds) : kind ∉ globalKinds := by
  have hall : ∀ kind ∈ layerKinds, kind ∉ globalKinds := by decide
  exact hall kind h

/-- An accepted name is the name of a tensor of the roster, and comes with its number. -/
theorem classifyTensorName_ensures (role : ModelRole) (name : String) :
    Ensures (classifyTensorName role name) (fun _ => True) fun r =>
      (r.1, r.2.1) ∈ roster role ∧ name = canonicalName (r.1, r.2.1) ∧
        r.2.2 = ordinal role (r.1, r.2.1) := by
  rw [classifyTensorName]
  cases hglobal : globalKind? name with
  | some kind =>
    obtain ⟨hmem, hname⟩ := globalKind?_eq_some hglobal
    refine ⟨List.mem_append_left _ (List.mem_map_of_mem hmem), ?_, ?_⟩
    · rw [canonicalName, if_pos hmem, hname]
    · rw [ordinal, if_pos hmem]
  | none =>
    refine (ensures_orErr (fun _ => trivial) fun rest h => stripStart_eq_some h).bind
      fun rest _ hrest => ?_
    refine (ensures_orErr (fun _ => trivial) fun parts h => splitOnce_eq_some h).bind ?_
    rintro ⟨layerText, suffix⟩ - hsplit
    refine (ensures_orErr (Q := fun _ => True) (fun _ => trivial) fun _ _ => trivial).bind
      fun layer _ _ => ?_
    refine (ensures_failIf (Q := fun _ => (toString layer).toList = layerText) (fun _ => trivial)
      fun h => not_not.mp h).bind fun _ _ htext => ?_
    refine (ensures_orErr (fun _ => trivial) fun kind h => h).bind ?_
    rintro ⟨kind, k⟩ - hkind
    obtain ⟨hmem, hsuffix, hordinal⟩ := layerKind?_eq_some hkind
    refine (ensures_failIf (Q := fun _ => layer < role.layers) (fun _ => trivial)
      fun h => not_le.mp h).bind fun _ _ hlayer => ?_
    have hlayered := notMem_globalKinds hmem
    refine ensures_pure.mpr ⟨?_, ?_, ?_⟩
    · refine List.mem_append_right _ (List.mem_flatMap.mpr ⟨layer, List.mem_range.mpr hlayer, ?_⟩)
      exact List.mem_map_of_mem hmem
    · rw [canonicalName, if_neg hlayered, ← String.toList_inj, hrest, hsplit]
      obtain rfl := htext
      simp [← hsuffix]
    · rw [ordinal, if_neg hlayered, hordinal]

/-! ### Ordinals -/

/-- Ordinals number the roster from 0 on. -/
theorem perm_map_ordinal (role : ModelRole) :
    ((roster role).map (ordinal role)).Perm (List.range role.tensorCount) := by
  cases role <;> decide +kernel

theorem nodup_map_ordinal (role : ModelRole) : ((roster role).map (ordinal role)).Nodup :=
  (perm_map_ordinal role).nodup_iff.mpr List.nodup_range

theorem ordinal_injOn {a b : TensorKind × ℕ} (ha : a ∈ roster role) (hb : b ∈ roster role)
    (h : ordinal role a = ordinal role b) : a = b :=
  List.inj_on_of_nodup_map (nodup_map_ordinal role) ha hb h

/-- Two accepted names with one ordinal are equal. -/
theorem eq_of_classifyTensorName {name' : String} {r r' : TensorKind × ℕ × ℕ}
    (h : classifyTensorName role name = .ok r) (h' : classifyTensorName role name' = .ok r')
    (heq : r.2.2 = r'.2.2) : name = name' := by
  obtain ⟨hmem, hname, hordinal⟩ := (classifyTensorName_ensures role name).of_ok h
  obtain ⟨hmem', hname', hordinal'⟩ := (classifyTensorName_ensures role name').of_ok h'
  rw [hordinal, hordinal'] at heq
  rw [hname, hname', ordinal_injOn hmem hmem' heq]

/-! ### The canonical names -/

theorem stripStart_append (start rest : List Char) :
    stripStart start (start ++ rest) = some rest := by
  rw [stripStart, if_pos (List.isPrefixOf_iff_prefix.mpr (List.prefix_append ..)), List.drop_left]

theorem splitOnce_append {c : Char} {a : List Char} (h : c ∉ a) (b : List Char) :
    splitOnce c (a ++ c :: b) = some (a, b) := by
  induction a with
  | nil => rw [List.nil_append, splitOnce, if_pos rfl]
  | cons x a ih =>
    rw [List.mem_cons, not_or] at h
    rw [List.cons_append, splitOnce, if_neg (Ne.symm h.1), ih h.2]
    rfl

theorem mem_roster {tensor : TensorKind × ℕ} : tensor ∈ roster role ↔
    tensor.1 ∈ globalKinds ∧ tensor.2 = noLayer ∨
      tensor.1 ∈ layerKinds ∧ tensor.2 < role.layers := by
  obtain ⟨kind, layer⟩ := tensor
  simp only [roster, List.mem_append, List.mem_map, List.mem_flatMap, List.mem_range,
    Prod.mk.injEq]
  constructor
  · rintro (⟨k, hk, rfl, rfl⟩ | ⟨l, hl, k, hk, rfl, rfl⟩)
    · exact .inl ⟨hk, rfl⟩
    · exact .inr ⟨hk, hl⟩
  · rintro (⟨hk, rfl⟩ | ⟨hk, hl⟩)
    · exact .inl ⟨kind, hk, rfl, rfl⟩
    · exact .inr ⟨layer, hl, kind, hk, rfl, rfl⟩

theorem globalKind?_kindName (h : kind ∈ globalKinds) :
    globalKind? (kindName kind) = some kind := by
  have hall : ∀ kind ∈ globalKinds, globalKind? (kindName kind) = some kind := by decide
  exact hall kind h

theorem layerKind?_kindName (h : kind ∈ layerKinds) :
    layerKind? (kindName kind) = some (kind, kindOrdinal kind) := by
  have hall : ∀ kind ∈ layerKinds,
      layerKind? (kindName kind) = some (kind, kindOrdinal kind) := by decide +kernel
  exact hall kind h

/-- The name of a tensor of a layer. -/
theorem canonicalName_of_layer (h : kind ∈ layerKinds) (layer : ℕ) :
    (canonicalName (kind, layer)).toList =
      "model.layers.".toList ++ ((toString layer).toList ++ '.' :: (kindName kind).toList) := by
  rw [canonicalName, if_neg (notMem_globalKinds h)]
  simp

/-- The number of a layer has one digit or two, and is read back. -/
theorem digits_of_layer {layer : ℕ} (h : layer < role.layers) :
    (∀ c ∈ (toString layer).toList, c.isDigit) ∧ (utf8 (toString layer).toList).length ≤ 2 ∧
      parseUnsigned (2 ^ 32) (toString layer).toList = some layer := by
  have hall : ∀ layer < 36, (toString layer).toList.all Char.isDigit ∧
      (utf8 (toString layer).toList).length ≤ 2 ∧
      parseUnsigned (2 ^ 32) (toString layer).toList = some layer := by decide +kernel
  have hlayers : role.layers ≤ 36 := by cases role <;> decide
  obtain ⟨hdigits, hread⟩ := hall layer (h.trans_le hlayers)
  exact ⟨List.all_eq_true.mp hdigits, hread⟩

/-- **Every canonical name is accepted.** -/
theorem classifyTensorName_canonicalName {tensor : TensorKind × ℕ} (h : tensor ∈ roster role) :
    classifyTensorName role (canonicalName tensor) =
      .ok (tensor.1, tensor.2, ordinal role tensor) := by
  obtain ⟨kind, layer⟩ := tensor
  rcases mem_roster.mp h with ⟨hk, rfl⟩ | ⟨hk, hlayer⟩
  · rw [canonicalName, if_pos hk, classifyTensorName, globalKind?_kindName hk, ordinal, if_pos hk]
  · obtain ⟨hdigits, -, hparse⟩ := digits_of_layer hlayer
    have htext := canonicalName_of_layer hk layer
    have hglobal : globalKind? (canonicalName (kind, layer)) = none := by
      cases hkind : globalKind? (canonicalName (kind, layer)) with
      | none => rfl
      | some k =>
        -- no name of a global tensor starts like that of a layer
        have hall : ∀ k ∈ globalKinds,
            stripStart "model.layers.".toList (kindName k).toList = none := by decide
        obtain ⟨hmem, hname⟩ := globalKind?_eq_some hkind
        have hstart := hall k hmem
        rw [← hname, htext, stripStart_append] at hstart
        cases hstart
    have hdot : '.' ∉ (toString layer).toList := by
      intro hmem
      exact absurd (hdigits '.' hmem) (by decide)
    have hordinal : ordinal role (kind, layer) = layerBase role + layer * 11 + kindOrdinal kind :=
      if_neg (notMem_globalKinds hk)
    rw [classifyTensorName, hglobal]
    simp only [htext, stripStart_append, splitOnce_append hdot, hparse, orErr, ok_bind,
      String.ofList_toList, layerKind?_kindName hk, failIf_of_not (not_not.mpr rfl),
      failIf_of_not (not_le.mpr hlayer), hordinal]
    rfl

/-- Tensors are told apart by their names. -/
theorem canonicalName_injOn {a b : TensorKind × ℕ} (ha : a ∈ roster role) (hb : b ∈ roster role)
    (h : canonicalName a = canonicalName b) : a = b := by
  have hclass := classifyTensorName_canonicalName ha
  rw [h, classifyTensorName_canonicalName hb, Except.ok.injEq] at hclass
  exact Prod.ext (congrArg Prod.fst hclass).symm (congrArg (·.2.1) hclass).symm

end Safetensors

end Ferric
