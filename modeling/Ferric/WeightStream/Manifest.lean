import Ferric.WeightStream.Codec
import Ferric.WeightStream.Layout
import Ferric.WeightStream.Stream

/-!
# The manifest of a streamed set

What a successful streaming leaves: for each pinned file, sections for the tensors of its header,
behind each other from its first data byte to its last. Together with the roster check these are the
lists that `validate_persisted_sections` accepts.

## Main results

* `streamFile_ensures` — one file
* `laid_of_target`, `laid_of_draft` — all files of a role
* `manifest_codec` — writing, reading and checking manifests
-/

namespace Ferric

namespace WeightStream

open Safetensors
open Spec (ModelRole TensorKind TensorMetadata TensorDType)

variable {role : ModelRole} {sha256 : List UInt8 → Digest}

/-! ### One tensor -/

/-- What the plan of a stream says of a tensor. -/
structure Planned (role : ModelRole) (t : ParsedTensor) : Prop where
  name : classifyTensorName role t.name = .ok (t.metadata.kind, t.metadata.layer, t.ordinal)
  role_eq : t.metadata.role = role
  valid : t.metadata.validate = .ok ()
  bytes : t.start + t.metadata.dimension0 * t.metadata.dimension1 * 2 = t.stop

theorem planned_of_validate {t : ParsedTensor} (h : validatePlannedTensor role t = .ok ()) :
    Planned role t := by
  simp only [validatePlannedTensor, bind_eq_ok, failIf_eq_ok, mapErr_eq_ok, orErr_eq_ok,
    Prod.exists,
    checkedMul_eq_some, not_or, not_not] at h
  obtain ⟨kind, layer, ord, hname, -, ⟨hrole, rfl, rfl, rfl, -⟩, ⟨⟩, hvalid, _, ⟨-, rfl⟩,
    _, ⟨-, rfl⟩,
    n, hsub, hbytes⟩ := h
  rw [checkedSub] at hsub
  split at hsub
  · next hle =>
    have hn := Option.some.inj hsub
    exact ⟨hname, hrole, hvalid, by omega⟩
  · cases hsub

theorem Planned.start_lt {t : ParsedTensor} (h : Planned role t) : t.start < t.stop := by
  obtain ⟨⟨h₀, -⟩, h₁, -⟩ := dimensions_of_validate h.valid
  have hpos := Nat.mul_pos (Nat.mul_pos h₀ h₁) (by decide : 0 < 2)
  have hbytes := h.bytes
  omega

/-- A section that was made of a tensor. -/
structure MadeOf (role : ModelRole) (pin : FilePin) (t : ParsedTensor) (s : WeightSection) :
    Prop where
  ordinal : s.ordinal = t.ordinal
  admitted : s.sha256 ≠ .zero 32 → s.Admitted role
  sourceArtifact : s.sourceArtifact = pin.name
  sourceOffset : s.sourceOffset.toNat = pin.dataStart + t.start
  sourceLength : s.sourceLength.toNat = t.stop - t.start

theorem streamTensor_ensures {pin : FilePin} {p p' : Progress} {t : ParsedTensor}
    (ht : Planned role t) (h : streamTensor sha256 pin role pin.dataStart p t = .ok p') :
    ∃ s, p'.sections = p.sections ++ [s] ∧ MadeOf role pin t s := by
  simp only [streamTensor, bind_eq_ok, failIf_eq_ok, orErr_eq_ok, Prod.exists, checkedAdd_eq_some,
    checkedSub_of_le ht.start_lt.le, Option.some.injEq, not_or, not_not] at h
  obtain ⟨_, rfl, _, ⟨hoffset, rfl⟩, -, ⟨heven, -, -⟩, _, ⟨hdestination, rfl⟩, -,
    -, bytes, input, -,
    hp⟩ := h
  obtain rfl := Except.ok.inj hp
  obtain ⟨⟨-, h₀⟩, -, h₁⟩ := dimensions_of_validate ht.valid
  have hrank : t.metadata.rank < 2 ^ 32 := by
    rcases rank_of_validate ht.valid with hrank | hrank <;> omega
  have hlength : t.stop - t.start < 2 ^ 64 := by omega
  have hbytes := ht.bytes
  refine ⟨_, rfl, ?_⟩
  generalize hs : WeightSection.mk t.name role t.metadata.dtype _ _ _ _ _ _ _ _ _ _ _ = s
  have hmetadata : s.qwen3Metadata = .ok (t.metadata, t.ordinal) := by
    rw [← hs, WeightSection.qwen3Metadata, ht.name, ok_bind, UInt32.toNat_ofNat_of_lt' hrank,
      UInt32.toNat_ofNat_of_lt' h₀, UInt32.toNat_ofNat_of_lt' h₁]
    have heq : (⟨role, t.metadata.kind, t.metadata.layer, t.metadata.dtype, t.metadata.rank,
        t.metadata.dimension0, t.metadata.dimension1⟩ : TensorMetadata) = t.metadata := by
      rw [← ht.role_eq]
    dsimp only
    rw [heq, ht.valid]
    rfl
  have hsource : s.sourceLength.toNat = t.stop - t.start := by
    rw [← hs]
    exact UInt64.toNat_ofNat_of_lt' hlength
  have hstart : s.sourceOffset.toNat = pin.dataStart + t.start := by
    rw [← hs]
    exact UInt64.toNat_ofNat_of_lt' hoffset
  have hdims : s.dimension0.toNat * s.dimension1.toNat * 2 = t.stop - t.start := by
    rw [← hs]
    dsimp only
    rw [UInt32.toNat_ofNat_of_lt' h₀, UInt32.toNat_ofNat_of_lt' h₁]
    omega
  refine ⟨?_, fun hsha => ⟨?_, ?_, hsha, ⟨_, hmetadata⟩, ?_, ?_, ?_⟩, ?_, hstart, hsource⟩
  · rw [WeightSection.ordinal, hmetadata]
  · rw [← hs]
  · rw [← hs]
  · rw [hsource, hdims]
  · rw [hdims, ← hs]
    exact UInt64.toNat_ofNat_of_lt' hlength
  · refine UInt64.toNat_inj.mp ?_
    rw [UInt64.toNat_mod, hstart]
    exact heven
  · rw [← hs]

/-! ### One file -/

theorem foldlM_streamTensor {pin : FilePin} {tensors : List ParsedTensor} {p p' : Progress}
    (ht : ∀ t ∈ tensors, Planned role t)
    (h : tensors.foldlM (streamTensor sha256 pin role pin.dataStart) p = .ok p') :
    ∃ sections, p'.sections = p.sections ++ sections ∧
      List.Forall₂ (MadeOf role pin) tensors sections := by
  induction tensors generalizing p with
  | nil =>
    obtain rfl := Except.ok.inj h
    exact ⟨[], (List.append_nil _).symm, .nil⟩
  | cons t tensors ih =>
    rw [List.foldlM_cons] at h
    obtain ⟨next, hnext, h⟩ := bind_eq_ok.mp h
    obtain ⟨htensor, htensors⟩ := List.forall_mem_cons.mp ht
    obtain ⟨s, hs, hmade⟩ := streamTensor_ensures htensor hnext
    obtain ⟨sections, hsections, hall⟩ := ih htensors h
    refine ⟨s :: sections, ?_, .cons hmade hall⟩
    rw [hsections, hs, List.append_assoc, List.singleton_append]

/-- Tensors that tile the data become sections that span it. -/
theorem spans_of_tiles {pin : FilePin} {a b : ℕ} {tensors : List ParsedTensor}
    {sections : List WeightSection} (ht : TilesFrom a tensors b)
    (h : List.Forall₂ (MadeOf role pin) tensors sections) :
    Spans pin (pin.dataStart + a) sections (pin.dataStart + b) := by
  induction h generalizing a with
  | nil => exact congrArg _ ht
  | @cons t s tensors sections hmade _ ih =>
    obtain ⟨rfl, hlt, hrest⟩ := ht
    have hnext := ih hrest
    refine ⟨hmade.sourceArtifact, hmade.sourceOffset, ?_, ?_⟩
    · rw [hmade.sourceLength]
      omega
    · rw [hmade.sourceLength, Nat.add_assoc, Nat.add_sub_cancel' hlt.le]
      exact hnext

theorem foldlM_validatePlannedTensor {tensors : List ParsedTensor} {u : Unit}
    (h : tensors.foldlM (fun _ => validatePlannedTensor role) () = .ok u) :
    ∀ t ∈ tensors, Planned role t := by
  induction tensors with
  | nil => simp
  | cons t tensors ih =>
    rw [List.foldlM_cons] at h
    obtain ⟨⟨⟩, ht, h⟩ := bind_eq_ok.mp h
    exact List.forall_mem_cons.mpr ⟨planned_of_validate ht, ih h⟩

theorem tilesFrom_of_coverage {a b : ℕ} {tensors : List ParsedTensor}
    (ht : ∀ t ∈ tensors, t.start < t.stop) (h : coverageFrom a tensors = .ok b) :
    TilesFrom a tensors b :=
  (coverageFrom_ensures ht).of_ok h

/-- **One file.** Its sections are made of the tensors of its header and span its data. -/
theorem streamFile_ensures {file output output' : List UInt8} {pin : FilePin}
    {offset offset' : ℕ} {validateHeader : List UInt8 → ℕ → Outcome SourceError ParsedShard}
    {parsed : ParsedShard} {sections : List WeightSection}
    (h : streamFile sha256 file output pin role offset validateHeader =
      .ok (parsed, sections, output', offset')) :
    List.Forall₂ (MadeOf role pin) parsed.tensors sections ∧
      Spans pin pin.dataStart sections pin.dataEnd := by
  simp only [streamFile, bind_eq_ok, failIf_eq_ok, orErr_eq_ok, mapErr_eq_ok, Prod.exists,
    checkedAdd_eq_some, not_not] at h
  obtain ⟨_, input, -, -, -, -, hheader, header, input', -, shard, -, ⟨⟩, hplan, _, ⟨-, rfl⟩, _,
    ⟨-, rfl⟩, -, hend, p, hfold, -, -, hresult⟩ := h
  obtain ⟨rfl, rfl, -, -⟩ : shard = parsed ∧ p.sections = sections ∧ _ := by
    have hpair := Except.ok.inj hresult
    simpa only [Prod.mk.injEq] using hpair
  rw [hheader] at hend hfold
  simp only [validateStreamPlan, bind_eq_ok, failIf_eq_ok, mapErr_eq_ok, not_not] at hplan
  obtain ⟨-, -, ⟨⟩, hcoverage, hplanned⟩ := hplan
  have ht := foldlM_validatePlannedTensor hplanned
  simp only [validateOffsetCoverage, bind_eq_ok, failIf_eq_ok, not_not] at hcoverage
  obtain ⟨_, hcoverage, rfl⟩ := hcoverage
  have htiles := tilesFrom_of_coverage (fun t hmem => (ht t hmem).start_lt) hcoverage
  obtain ⟨sections, hsections, hmade⟩ := foldlM_streamTensor ht hfold
  rw [hsections, List.nil_append]
  refine ⟨hmade, ?_⟩
  have hspans := spans_of_tiles htiles hmade
  rw [Nat.add_zero] at hspans
  rw [FilePin.dataEnd, ← hend]
  exact hspans

/-! ### All files -/

/-- Sections with the ordinals of some tensors, admitted up to a digest of zeros. -/
def Streams (role : ModelRole) (tensors : List ParsedTensor) (sections : List WeightSection) :
    Prop :=
  sections.map WeightSection.ordinal = tensors.map (·.ordinal) ∧
    ∀ s ∈ sections, s.sha256 ≠ .zero 32 → s.Admitted role

theorem streams_of_made {pin : FilePin} {tensors : List ParsedTensor}
    {sections : List WeightSection} (h : List.Forall₂ (MadeOf role pin) tensors sections) :
    Streams role tensors sections := by
  induction h with
  | nil => exact ⟨rfl, by simp⟩
  | cons hmade _ ih =>
    refine ⟨?_, List.forall_mem_cons.mpr ⟨hmade.admitted, ih.2⟩⟩
    rw [List.map_cons, List.map_cons, hmade.ordinal, ih.1]

theorem Streams.append {tensors tensors' : List ParsedTensor}
    {sections sections' : List WeightSection} (h : Streams role tensors sections)
    (h' : Streams role tensors' sections') :
    Streams role (tensors ++ tensors') (sections ++ sections') := by
  refine ⟨?_, fun s hs => ?_⟩
  · rw [List.map_append, List.map_append, h.1, h'.1]
  · rcases List.mem_append.mp hs with hs | hs
    · exact h.2 s hs
    · exact h'.2 s hs

/-- The sections of all files, once the roster check has passed. -/
theorem laid_of_streams {shards : List ParsedShard} {sections : List WeightSection}
    (hstreams : Streams role (shards.flatMap (·.tensors)) sections)
    (hcovers : CoversFiles (filePins role) sections) (hroster : validateRoster role shards = .ok ())
    (hsha : ∀ s ∈ sections, s.sha256 ≠ .zero 32) : Laid role sections := by
  refine ⟨fun s hs => hstreams.2 s hs (hsha s hs), ?_, hcovers⟩
  rw [hstreams.1]
  exact (validateRoster_ensures role shards).of_ok hroster

/-- The manifest of a finished set. -/
theorem finishPrepacked_eq_ok {descriptor : WeightDescriptor} {outputBytes : UInt64}
    {sections : List WeightSection} {prepacked : PrepackedWeightSet}
    (h : finishPrepacked sha256 role descriptor outputBytes sections = .ok prepacked) :
    prepacked.manifest.role = role ∧ prepacked.manifest.sections = sections ∧
      encodeManifestRecordVerified role descriptor outputBytes sections =
        .ok prepacked.manifest.canonicalBytes ∧
      prepacked.manifest.aggregateId = sha256 prepacked.manifest.canonicalBytes := by
  simp only [finishPrepacked, buildWeightManifestVerified, bind_eq_ok, mapErr_eq_ok] at h
  obtain ⟨manifest, ⟨-, -, -, -, bytes, hencode, hmanifest⟩, hprepacked⟩ := h
  obtain rfl := Except.ok.inj hprepacked
  obtain rfl := Except.ok.inj hmanifest
  exact ⟨rfl, rfl, hencode, rfl⟩

/-- **All files of the target.** -/
theorem laid_of_target {indexJson output : List UInt8} {shards : Vector SafetensorsSource 5}
    {prepacked : PrepackedWeightSet}
    (h : prepackQwen3TargetWeights sha256 indexJson shards = .ok (output, prepacked))
    (hsha : ∀ s ∈ prepacked.manifest.sections, s.sha256 ≠ .zero 32) :
    Laid prepacked.manifest.role prepacked.manifest.sections := by
  simp only [prepackQwen3TargetWeights, bind_eq_ok, mapErr_eq_ok] at h
  obtain ⟨index, -, p, hfold, ⟨⟩, hroster, set, hfinish, hresult⟩ := h
  obtain ⟨-, rfl⟩ := Prod.mk.inj (Except.ok.inj hresult)
  obtain ⟨hrole, hsections, -, -⟩ := finishPrepacked_eq_ok hfinish
  rw [hsections] at hsha
  rw [hrole, hsections]
  -- Shard after shard: the sections so far cover the files so far.
  have hshards (entries : List ((SafetensorsSource × FilePin) × ℕ)) (pins : List FilePin)
      (q : Prepacking) (hq : Streams .target8B (q.parsedShards.flatMap (·.tensors)) q.sections ∧
        CoversFiles pins q.sections)
    (hentries : entries.foldlM (prepackShard sha256 index) q = .ok p) :
      Streams .target8B (p.parsedShards.flatMap (·.tensors)) p.sections ∧
        CoversFiles (pins ++ entries.map (·.1.2)) p.sections := by
    induction entries generalizing q pins with
    | nil =>
      obtain rfl := Except.ok.inj hentries
      rw [List.map_nil, List.append_nil]
      exact hq
    | cons entry entries ih =>
      rw [List.foldlM_cons] at hentries
      obtain ⟨next, hnext, hentries⟩ := bind_eq_ok.mp hentries
      obtain ⟨⟨source, pin⟩, shardIndex⟩ := entry
      simp only [prepackShard, bind_eq_ok, Prod.exists] at hnext
      obtain ⟨-, -, parsed, sections, output', offset', hfile, hnext⟩ := hnext
      obtain rfl := Except.ok.inj hnext
      obtain ⟨hmade, hspans⟩ := streamFile_ensures hfile
      rw [List.map_cons, List.append_cons]
      refine ih (pins ++ [pin]) _ ⟨?_, hq.2.append hspans⟩ hentries
      rw [List.flatMap_append, List.flatMap_singleton]
      exact hq.1.append (streams_of_made hmade)
  have hpins : ((shards.toList.zip targetShardPins).zipIdx).map (·.1.2) = targetShardPins := by
    have hmap : ((shards.toList.zip targetShardPins).zipIdx).map (·.1.2) =
        (((shards.toList.zip targetShardPins).zipIdx).map Prod.fst).map Prod.snd := by
      rw [List.map_map]
      rfl
    rw [hmap, List.zipIdx_map_fst]
    refine List.map_snd_zip ?_
    rw [Vector.length_toList]
    decide
  obtain ⟨hstreams, hcovers⟩ := hshards _ [] ⟨[], [], [], 0⟩ ⟨⟨rfl, by simp⟩, rfl⟩ hfold
  rw [List.nil_append, hpins] at hcovers
  exact laid_of_streams hstreams hcovers hroster hsha

/-- **The file of the draft.** -/
theorem laid_of_draft {source : SafetensorsSource} {output : List UInt8}
    {prepacked : PrepackedWeightSet}
    (h : prepackQwen3DraftWeights sha256 source = .ok (output, prepacked))
    (hsha : ∀ s ∈ prepacked.manifest.sections, s.sha256 ≠ .zero 32) :
    Laid prepacked.manifest.role prepacked.manifest.sections := by
  simp only [prepackQwen3DraftWeights, bind_eq_ok, mapErr_eq_ok, Prod.exists] at h
  obtain ⟨-, -, parsed, sections, output', offset, hfile, ⟨⟩, hroster, set, hfinish, hresult⟩ := h
  obtain ⟨-, rfl⟩ := Prod.mk.inj (Except.ok.inj hresult)
  obtain ⟨hrole, hsections, -, -⟩ := finishPrepacked_eq_ok hfinish
  rw [hsections] at hsha
  rw [hrole, hsections]
  obtain ⟨hmade, hspans⟩ := streamFile_ensures hfile
  refine @laid_of_streams .draft06B [parsed] sections ?_ ?_ hroster hsha
  · rw [List.flatMap_singleton]
    exact streams_of_made hmade
  · exact ⟨sections, [], (List.append_nil _).symm, hspans, rfl⟩

/-! ### Manifests -/

/-- Behind the checks of the commitment and of the layout, what is encoded again is what was
read. -/
theorem reencoding {bytes : List UInt8} {descriptor : WeightDescriptor}
    {parsed : ParsedPersistedManifest} {prepacked : PrepackedWeightSet}
    (hparsed : parsePersistedManifest bytes = .ok parsed) (hrole : parsed.role = role)
    (hid : parsed.sourceWeightsId = descriptor.weightsId)
    (hartifact : parsed.sourceArtifactBytes = descriptor.artifactBytes)
    (htensor : parsed.tensorDataBytes = descriptor.tensorDataBytes)
    (h : finishPrepacked sha256 role descriptor parsed.outputBytes parsed.sections =
      .ok prepacked) :
    prepacked.manifest.canonicalBytes = bytes ∧ prepacked.manifest.aggregateId = sha256 bytes := by
  obtain ⟨-, -, hencode, haggregate⟩ := finishPrepacked_eq_ok h
  subst hrole
  have hbytes := encode_of_parse hparsed hid.symm hartifact.symm htensor.symm
  rw [hbytes] at hencode
  have heq := Except.ok.inj hencode
  exact ⟨heq.symm, haggregate.trans (congrArg sha256 heq.symm)⟩

/-- The digest that a commitment was compared with. -/
theorem aggregateId_of_commitment {commitment : ManifestCommitment} {bytes : List UInt8}
    {descriptor : WeightDescriptor}
    (h : validatePersistedCommitment sha256 role commitment bytes = .ok descriptor) :
    commitment.aggregateId = sha256 bytes := by
  simp only [validatePersistedCommitment, bind_eq_ok, failIf_eq_ok, not_or, not_not] at h
  obtain ⟨-, -, -, -, -, -, -, -, -, -, -, -, -, -, -, ⟨haggregate, hdigest⟩, -⟩ := h
  exact haggregate.trans hdigest.symm

/-- The reopening of a manifest without the comparison of its bytes with their encoding. -/
def reopenWithoutReencoding (sha256 : List UInt8 → Digest) (role : ModelRole)
    (commitment : ManifestCommitment) (manifestBytes : List UInt8) :
    Outcome PersistedError PrepackedWeightSet := do
  let descriptor ← validatePersistedCommitment sha256 role commitment manifestBytes
  let parsed ← parsePersistedManifest manifestBytes
  failIf (parsed.role ≠ role ∨ parsed.sourceWeightsId ≠ descriptor.weightsId ∨
    parsed.sourceArtifactBytes ≠ descriptor.artifactBytes ∨
    parsed.tensorDataBytes ≠ descriptor.tensorDataBytes ∨
    parsed.outputBytes ≠ descriptor.tensorDataBytes)
    (.invalidManifest "manifest header commitment")
  let prepacked ← mapErr .manifest
    (finishPrepacked sha256 role descriptor parsed.outputBytes parsed.sections)
  validatePersistedSections prepacked.manifest
  return prepacked

/-- The comparison never rejects. -/
theorem reopen_eq (sha256 : List UInt8 → Digest) (role : ModelRole)
    (commitment : ManifestCommitment) (manifestBytes : List UInt8) :
    reopenPersistedManifestAuthority sha256 role commitment manifestBytes =
      reopenWithoutReencoding sha256 role commitment manifestBytes := by
  rw [reopenPersistedManifestAuthority, reopenWithoutReencoding]
  cases hcommitment : validatePersistedCommitment sha256 role commitment manifestBytes with
  | error e => rfl
  | ok descriptor =>
    rw [ok_bind, ok_bind, reopenPersistedManifestAfterCommitment]
    cases hparsed : parsePersistedManifest manifestBytes with
    | error e => rfl
    | ok parsed =>
      rw [ok_bind, ok_bind]
      by_cases hheader : parsed.role ≠ role ∨ parsed.sourceWeightsId ≠ descriptor.weightsId ∨
          parsed.sourceArtifactBytes ≠ descriptor.artifactBytes ∨
          parsed.tensorDataBytes ≠ descriptor.tensorDataBytes ∨
          parsed.outputBytes ≠ descriptor.tensorDataBytes
      · rw [failIf, if_pos hheader]
        rfl
      · rw [failIf_of_not hheader, ok_bind, ok_bind]
        simp only [not_or, not_not] at hheader
        obtain ⟨hrole, hid, hartifact, htensor, -⟩ := hheader
        cases hfinish : finishPrepacked sha256 role descriptor parsed.outputBytes
            parsed.sections with
        | error e => cases e <;> rfl
        | ok prepacked =>
          obtain ⟨hbytes, haggregate⟩ :=
            reencoding hparsed hrole hid hartifact htensor hfinish
          have hsame : ¬ (prepacked.manifest.canonicalBytes ≠ manifestBytes ∨
              prepacked.manifest.aggregateId ≠ commitment.aggregateId) := by
            rw [hbytes, haggregate, aggregateId_of_commitment hcommitment]
            simp
          show (failIf _ _ >>= fun _ => _) = _
          rw [failIf_of_not hsame, ok_bind]
          rfl

/-! ### The sections of the draft model -/

section Draft

/-- The section of a tensor of the draft model, `offset` bytes behind the first byte of the data. -/
def draftSection (offset : ℕ) (tensor : TensorKind × ℕ) : WeightSection where
  tensorName := canonicalName tensor
  role := .draft06B
  dtype := .bf16
  rank := .ofNat (draftShape tensor.1).length
  dimension0 := .ofNat ((draftShape tensor.1)[0]?.getD 1)
  dimension1 := .ofNat ((draftShape tensor.1)[1]?.getD 1)
  sourceArtifact := draftFilePin.name
  sourceOffset := .ofNat (draftFilePin.dataStart + offset)
  sourceLength := .ofNat (draftBytes tensor.1)
  destinationOffset := .ofNat offset
  destinationLength := .ofNat (draftBytes tensor.1)
  alignment := sectionAlignment
  transform := .bf16RowMajorIdentityV1
  sha256 := ⟨.replicate 32 0xff, List.length_replicate⟩

/-- Sections of tensors behind each other. -/
def draftSections : ℕ → List (TensorKind × ℕ) → List WeightSection
  | _, [] => []
  | offset, tensor :: tensors =>
    draftSection offset tensor :: draftSections (offset + draftBytes tensor.1) tensors

variable (offset : ℕ) {tensor : TensorKind × ℕ} {tensors : List (TensorKind × ℕ)}

theorem qwen3Metadata_draftSection (h : tensor ∈ roster .draft06B) :
    (draftSection offset tensor).qwen3Metadata =
      .ok (draftMetadata tensor, Safetensors.ordinal .draft06B tensor) := by
  have hmetadata : (⟨.draft06B, tensor.1, tensor.2, .bf16,
      (UInt32.ofNat (draftShape tensor.1).length).toNat,
      (UInt32.ofNat ((draftShape tensor.1)[0]?.getD 1)).toNat,
      (UInt32.ofNat ((draftShape tensor.1)[1]?.getD 1)).toNat⟩ : TensorMetadata) =
      draftMetadata tensor := by
    obtain ⟨kind, layer⟩ := tensor
    cases kind <;> rfl
  rw [WeightSection.qwen3Metadata]
  simp only [draftSection, classifyTensorName_canonicalName h, ok_bind, hmetadata,
    validate_draftMetadata h, mapErr]
  rfl

theorem draftBytes_spec (kind : TensorKind) : 0 < draftBytes kind ∧ draftBytes kind % 2 = 0 ∧
    (UInt64.ofNat (draftBytes kind)).toNat = draftBytes kind ∧
    draftBytes kind = (UInt32.ofNat ((draftShape kind)[0]?.getD 1)).toNat *
      (UInt32.ofNat ((draftShape kind)[1]?.getD 1)).toNat * 2 := by
  cases kind <;> decide

theorem admitted_draftSection (h : tensor ∈ roster .draft06B) (heven : offset % 2 = 0) :
    (draftSection offset tensor).Admitted .draft06B := by
  obtain ⟨-, -, hbytes, hproduct⟩ := draftBytes_spec tensor.1
  have hsha : (draftSection offset tensor).sha256 ≠ .zero 32 := by
    show (⟨.replicate 32 0xff, List.length_replicate⟩ : Digest) ≠ Block.zero 32
    decide
  refine ⟨rfl, rfl, hsha, ⟨_, qwen3Metadata_draftSection offset h⟩, hbytes.trans hproduct,
    hbytes.trans hproduct, ?_⟩
  show UInt64.ofNat (draftFilePin.dataStart + offset) % 2 = 0
  have hstart : draftFilePin.dataStart = 35560 := rfl
  rw [← UInt64.toNat_inj, UInt64.toNat_mod, UInt64.toNat_ofNat', hstart]
  show (35560 + offset) % 2 ^ 64 % 2 = 0
  omega

/-- Sections behind each other are admitted, have the ordinals of their tensors, and span the bytes
that the tensors need. -/
theorem draftSections_spec (h : ∀ tensor ∈ tensors, tensor ∈ roster .draft06B)
    (heven : offset % 2 = 0)
    (hfits : draftFilePin.dataStart + offset + (tensors.map (draftBytes ·.1)).sum < 2 ^ 64) :
    (∀ s ∈ draftSections offset tensors, s.Admitted .draft06B) ∧
      (draftSections offset tensors).map WeightSection.ordinal =
        tensors.map (Safetensors.ordinal .draft06B) ∧
      Spans draftFilePin (draftFilePin.dataStart + offset) (draftSections offset tensors)
        (draftFilePin.dataStart + offset + (tensors.map (draftBytes ·.1)).sum) := by
  induction tensors generalizing offset with
  | nil => exact ⟨by simp [draftSections], rfl, rfl⟩
  | cons tensor tensors ih =>
    obtain ⟨hpos, hbytes, hlength, -⟩ := draftBytes_spec tensor.1
    have hmem := h tensor List.mem_cons_self
    rw [List.map_cons, List.sum_cons] at hfits
    obtain ⟨hadmitted, hordinals, hspans⟩ := ih (offset + draftBytes tensor.1)
      (fun x hx => h x (.tail _ hx)) (by omega) (by omega)
    refine ⟨List.forall_mem_cons.mpr ⟨admitted_draftSection offset hmem heven, hadmitted⟩, ?_,
      rfl, ?_, ?_, ?_⟩
    · rw [draftSections, List.map_cons, List.map_cons, hordinals, WeightSection.ordinal,
        qwen3Metadata_draftSection offset hmem]
    · exact (UInt64.toNat_ofNat' ..).trans (Nat.mod_eq_of_lt (by omega))
    · exact hlength.symm ▸ hpos
    · show Spans draftFilePin (draftFilePin.dataStart + offset +
        (UInt64.ofNat (draftBytes tensor.1)).toNat) _ _
      rw [hlength, List.map_cons, List.sum_cons, ← Nat.add_assoc, Nat.add_assoc _ offset]
      exact hspans

theorem laid_draftSections : Laid .draft06B (draftSections 0 (roster .draft06B)) := by
  have hsum : ((roster .draft06B).map (draftBytes ·.1)).sum = 1503264768 := by decide +kernel
  have hstart : draftFilePin.dataStart = 35560 := rfl
  have hend : draftFilePin.dataEnd = 1503300328 := rfl
  obtain ⟨hadmitted, hordinals, hspans⟩ :=
    @draftSections_spec 0 (roster .draft06B) (fun _ h => h) rfl (by omega)
  refine ⟨hadmitted, ?_, _, [], (List.append_nil _).symm, ?_, rfl⟩
  · rw [hordinals]
    exact perm_map_ordinal .draft06B
  · have hstop : draftFilePin.dataStart + 0 + ((roster .draft06B).map (draftBytes ·.1)).sum =
        draftFilePin.dataEnd := by omega
    rw [hstop] at hspans
    exact hspans

theorem length_record_draftSection (h : tensor ∈ roster .draft06B) :
    (draftSection offset tensor).record.length ≤ 300 := by
  have hname := (plain_canonicalName h).2
  have hartifact : (utf8 draftFilePin.name.toList).length = 17 := by decide
  have htransform : transformIdBytes.length = 26 := rfl
  simp only [WeightSection.record, draftSection, lengthPrefixed, List.length_append,
    Block.length_val, List.length_singleton, List.length_replicate, hartifact, htransform]
  generalize (utf8 (canonicalName tensor).toList).length = n at hname ⊢
  omega

theorem length_draftSections (h : ∀ tensor ∈ tensors, tensor ∈ roster .draft06B) :
    (draftSections offset tensors).length = tensors.length ∧
      ((draftSections offset tensors).flatMap WeightSection.record).length ≤
        300 * tensors.length := by
  induction tensors generalizing offset with
  | nil => exact ⟨rfl, le_rfl⟩
  | cons tensor tensors ih =>
    have hrecord := length_record_draftSection offset (h tensor List.mem_cons_self)
    obtain ⟨hlength, hrest⟩ := ih (offset + draftBytes tensor.1) fun x hx => h x (.tail _ hx)
    rw [draftSections, List.flatMap_cons, List.length_append, List.length_cons, List.length_cons]
    omega

end Draft

/-! ### The codec -/

/-- **The manifest codec is an exact bijection on its image, and the layout check fits it.** What is
written for as many sections as the role has tensors is read back; what is read is written to the
same bytes; so the comparison of the two in the reopening never rejects. The sections of every
successful streaming of the pinned files are accepted when no digest is all zeros, and accepted
sections name every tensor of the role once and cover the data of the pinned files, one file after
the other. -/
theorem manifest_codec (sha256 : List UInt8 → Digest) :
    (∀ role descriptor outputBytes sections bytes, sections.length = role.tensorCount →
      encodeManifestRecordVerified role descriptor outputBytes sections = .ok bytes →
      parsePersistedManifest bytes = .ok ⟨role, descriptor.weightsId, descriptor.artifactBytes,
        descriptor.tensorDataBytes, outputBytes, sections⟩) ∧
    (∀ bytes p, parsePersistedManifest bytes = .ok p → ∀ count,
      encodeManifestRecordVerified p.role
        ⟨p.sourceWeightsId, p.sourceArtifactBytes, p.tensorDataBytes, count⟩ p.outputBytes
        p.sections = .ok bytes) ∧
    (∀ bytes bytes' p, parsePersistedManifest bytes = .ok p →
      parsePersistedManifest bytes' = .ok p → bytes = bytes') ∧
    (∀ role commitment bytes, reopenPersistedManifestAuthority sha256 role commitment bytes =
      reopenWithoutReencoding sha256 role commitment bytes) ∧
    (∀ indexJson shards output prepacked,
      prepackQwen3TargetWeights sha256 indexJson shards = .ok (output, prepacked) →
      (∀ s ∈ prepacked.manifest.sections, s.sha256 ≠ .zero 32) →
      validatePersistedSections prepacked.manifest = .ok ()) ∧
    (∀ source output prepacked, prepackQwen3DraftWeights sha256 source = .ok (output, prepacked) →
      (∀ s ∈ prepacked.manifest.sections, s.sha256 ≠ .zero 32) →
      validatePersistedSections prepacked.manifest = .ok ()) ∧
    ∀ manifest, validatePersistedSections manifest = .ok () →
      (manifest.sections.map (·.tensorName)).Perm ((roster manifest.role).map canonicalName) ∧
        CoversFiles (filePins manifest.role) manifest.sections := by
  refine ⟨fun _ _ _ _ _ hlength h => parse_of_encode hlength h,
    fun _ _ h _ => encode_of_parse h rfl rfl rfl, fun bytes bytes' p h h' => ?_,
    fun role commitment bytes => reopen_eq sha256 role commitment bytes, fun _ _ _ _ h hsha => ?_,
    fun _ _ _ h hsha => ?_, fun manifest h => ?_⟩
  · rw [(parsePersistedManifest_eq_ok.mp h).2.1, (parsePersistedManifest_eq_ok.mp h').2.1]
  · exact validatePersistedSections_eq_ok.mpr (laid_of_target h hsha)
  · exact validatePersistedSections_eq_ok.mpr (laid_of_draft h hsha)
  · have hlaid := validatePersistedSections_eq_ok.mp h
    exact ⟨hlaid.names, hlaid.covers⟩

/-- The manifest of the draft model is written, read back, and accepted. -/
theorem manifest_codec_draftSections : ∃ bytes,
    encodeManifestRecordVerified .draft06B (exactWeightDescriptor .draft06B) 1503264768
      (draftSections 0 (roster .draft06B)) = .ok bytes ∧
    parsePersistedManifest bytes = .ok ⟨.draft06B, qwen3DraftWeightSha256, 1503300328, 1503264768,
      1503264768, draftSections 0 (roster .draft06B)⟩ ∧
    CoversFiles [draftFilePin] (draftSections 0 (roster .draft06B)) := by
  have hcount : (roster .draft06B).length = 311 := by decide +kernel
  obtain ⟨hlength, hrecords⟩ :=
    @length_draftSections 0 (roster .draft06B) fun _ h => h
  have hmax : maxManifestBytes = 262144 := rfl
  obtain ⟨hparse, -, -, -, -, -, hlaid⟩ := manifest_codec fun _ => .zero 32
  have hencode := (@encodeManifestRecordVerified_eq_ok .draft06B (exactWeightDescriptor .draft06B)
    1503264768 (draftSections 0 (roster .draft06B)) _).mpr
      ⟨by omega, rfl, by rw [length_manifestRecord]; omega⟩
  refine ⟨_, hencode, hparse .draft06B _ _ _ _ (hlength.trans hcount) hencode, ?_⟩
  exact (hlaid ⟨1, .draft06B, .zero 32, 0, 0, 0, draftSections 0 (roster .draft06B), [], .zero 32⟩
    (validatePersistedSections_eq_ok.mpr laid_draftSections)).2

end WeightStream

end Ferric
