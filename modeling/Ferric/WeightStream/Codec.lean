import Ferric.WeightStream.Model

/-!
# The manifest codec

A manifest is the concatenation of its fields, and both the writer and the reader are characterized
by that one list of bytes. Every accepted manifest is therefore written to the bytes it was read
from, and every written one is read back.

## Main results

* `encodeManifestRecordVerified_eq_ok` — what is written
* `parsePersistedManifest_eq_ok` — what is read
-/

namespace Ferric

namespace WeightStream

open Spec (ModelRole TensorDType)

/-! ### The bytes of a manifest -/

/-- Bytes behind their length. -/
def lengthPrefixed (bytes : List UInt8) : List UInt8 := (le32 (.ofNat bytes.length)).val ++ bytes

/-- The bytes of a section. -/
def WeightSection.record (s : WeightSection) : List UInt8 :=
  lengthPrefixed (utf8 s.tensorName.toList) ++ ([roleCode s.role] ++ ([dtypeCode s.dtype] ++
    ((le32 s.rank).val ++ ((le32 s.dimension0).val ++ ((le32 s.dimension1).val ++
    (lengthPrefixed (utf8 s.sourceArtifact.toList) ++ ((le64 s.sourceOffset).val ++
    ((le64 s.sourceLength).val ++ ((le64 s.destinationOffset).val ++
    ((le64 s.destinationLength).val ++ ((le64 s.alignment).val ++
    (lengthPrefixed transformIdBytes ++ s.sha256.val))))))))))))

/-- The bytes of a manifest. -/
def manifestRecord (role : ModelRole) (weightsId : Digest)
    (artifactBytes tensorDataBytes outputBytes : UInt64) (sections : List WeightSection) :
    List UInt8 :=
  manifestDomain.val ++ ((le32 prepackedWeightManifestVersion).val ++ ([roleCode role] ++
    (weightsId.val ++ ((le64 artifactBytes).val ++ ((le64 tensorDataBytes).val ++
    ((le64 outputBytes).val ++ ((le32 (.ofNat sections.length)).val ++
    sections.flatMap WeightSection.record)))))))

/-! ### Writing -/

theorem appendLengthPrefixedBytes_eq_ok {record bytes r : List UInt8} :
    appendLengthPrefixedBytes record bytes = .ok r ↔
      r = record ++ lengthPrefixed bytes ∧ r.length ≤ maxManifestBytes := by
  have hlength : (record ++ lengthPrefixed bytes).length = record.length + (4 + bytes.length) := by
    rw [lengthPrefixed, List.length_append, List.length_append, Block.length_val]
  have hmax : maxManifestBytes = 262144 := rfl
  simp only [appendLengthPrefixedBytes, bind_eq_ok, failIf_eq_ok]
  constructor
  · rintro ⟨-, -, -, hrecord, -, hbytes, hr⟩
    obtain rfl := Except.ok.inj hr
    rw [List.append_assoc, ← lengthPrefixed, hlength]
    exact ⟨rfl, by omega⟩
  · rintro ⟨rfl, hle⟩
    rw [hlength] at hle
    refine ⟨(), by omega, (), by omega, (), by omega, ?_⟩
    rw [List.append_assoc]
    rfl

/-- A field behind a record that is not too long yet. -/
theorem appendManifestSection_eq_ok {record r : List UInt8} {s : WeightSection} :
    appendManifestSection record s = .ok r ↔
      r = record ++ s.record ∧ r.length ≤ maxManifestBytes := by
  simp only [appendManifestSection, bind_eq_ok, failIf_eq_ok, appendLengthPrefixedBytes_eq_ok]
  constructor
  · rintro ⟨_, ⟨rfl, -⟩, _, ⟨rfl, -⟩, _, ⟨rfl, -⟩, -, hle, hr⟩
    obtain rfl := Except.ok.inj hr
    refine ⟨?_, not_lt.mp hle⟩
    simp only [WeightSection.record, List.append_assoc]
  · rintro ⟨rfl, hle⟩
    refine ⟨_, ⟨rfl, ?_⟩, _, ⟨rfl, ?_⟩, _, ⟨rfl, ?_⟩, (), ?_, ?_⟩
    · simp only [WeightSection.record, List.length_append] at hle ⊢
      omega
    · simp only [WeightSection.record, List.length_append] at hle ⊢
      omega
    · simp only [WeightSection.record, List.length_append] at hle ⊢
      omega
    · simp only [WeightSection.record, List.length_append] at hle ⊢
      omega
    · simp only [WeightSection.record, List.append_assoc]
      rfl

theorem appendManifestSections_eq_ok {record r : List UInt8} {sections : List WeightSection}
    (hrecord : record.length ≤ maxManifestBytes) :
    appendManifestSections record sections = .ok r ↔
      r = record ++ sections.flatMap WeightSection.record ∧ r.length ≤ maxManifestBytes := by
  induction sections generalizing record with
  | nil =>
    rw [appendManifestSections, List.flatMap_nil, List.append_nil, Except.ok.injEq]
    constructor
    · rintro rfl
      exact ⟨rfl, hrecord⟩
    · exact fun h => h.1.symm
  | cons s sections ih =>
    rw [appendManifestSections, bind_eq_ok]
    constructor
    · rintro ⟨record', hs, hrest⟩
      obtain ⟨rfl, hle⟩ := appendManifestSection_eq_ok.mp hs
      rw [ih hle, List.append_assoc] at hrest
      exact hrest
    · rintro ⟨rfl, hle⟩
      have hs : (record ++ s.record).length ≤ maxManifestBytes := by
        rw [List.flatMap_cons, ← List.append_assoc, List.length_append] at hle
        omega
      refine ⟨_, appendManifestSection_eq_ok.mpr ⟨rfl, hs⟩, (ih hs).mpr ⟨?_, hle⟩⟩
      rw [List.flatMap_cons, List.append_assoc]

theorem length_manifestRecord (role : ModelRole) (weightsId : Digest)
    (artifactBytes tensorDataBytes outputBytes : UInt64) (sections : List WeightSection) :
    (manifestRecord role weightsId artifactBytes tensorDataBytes outputBytes sections).length =
      101 + (sections.flatMap WeightSection.record).length := by
  simp only [manifestRecord, List.length_append, Block.length_val, List.length_singleton]
  omega

/-- **What is written.** The manifest record, when it and the estimate of its capacity are within
the bound. -/
theorem encodeManifestRecordVerified_eq_ok {role : ModelRole} {descriptor : WeightDescriptor}
    {outputBytes : UInt64} {sections : List WeightSection} {r : List UInt8} :
    encodeManifestRecordVerified role descriptor outputBytes sections = .ok r ↔
      sections.length * 160 + 64 ≤ maxManifestBytes ∧
      r = manifestRecord role descriptor.weightsId descriptor.artifactBytes
        descriptor.tensorDataBytes outputBytes sections ∧ r.length ≤ maxManifestBytes := by
  have hmax : maxManifestBytes = 262144 := rfl
  have hstart : (manifestDomain.val ++ (le32 prepackedWeightManifestVersion).val ++
      [roleCode role] ++ descriptor.weightsId.val ++ (le64 descriptor.artifactBytes).val ++
      (le64 descriptor.tensorDataBytes).val ++ (le64 outputBytes).val ++
      (le32 (.ofNat sections.length)).val).length ≤ maxManifestBytes := by
    simp only [List.length_append, Block.length_val, List.length_singleton]
    omega
  simp only [encodeManifestRecordVerified, bind_eq_ok, failIf_eq_ok, orErr_eq_ok,
    appendManifestSections_eq_ok hstart, checkedAdd_eq_some, checkedMul_eq_some]
  constructor
  · rintro ⟨_, ⟨-, rfl⟩, _, ⟨-, rfl⟩, -, hcapacity, -, -, rfl, hle⟩
    refine ⟨by omega, ?_, hle⟩
    simp only [manifestRecord, List.append_assoc]
  · rintro ⟨hcapacity, rfl, hle⟩
    refine ⟨_, ⟨by omega, rfl⟩, _, ⟨by omega, rfl⟩, (), by omega, (), by omega, ?_, hle⟩
    simp only [manifestRecord, List.append_assoc]

/-! ### Reading -/

theorem decodeRole_eq_ok {reason : String} {code : UInt8} {role : ModelRole} :
    decodeRole reason code = .ok role ↔ code = roleCode role := by
  rw [decodeRole]
  constructor
  · intro h
    split at h
    · obtain rfl := Except.ok.inj h
      assumption
    · split at h
      · obtain rfl := Except.ok.inj h
        assumption
      · cases h
  · rintro rfl
    cases role <;> rfl

open Reader

theorem run_readString_eq_ok {field : String} {text : String} {rest rest' : List UInt8} :
    (readString field).run rest = .ok (text, rest') ↔
      (utf8 text.toList).length < 2 ^ 32 ∧
        rest = lengthPrefixed (utf8 text.toList) ++ rest' := by
  simp only [readString, run_bind_eq_ok, run_u32_eq_ok, run_bytes_eq_ok, run_lift_eq_ok,
    orErr_eq_ok,
    fromUtf8_eq_some]
  constructor
  · rintro ⟨length, _, rfl, _, _, ⟨hlength, rfl⟩, rfl, rfl⟩
    have hlt : length.toNat < 2 ^ 32 := length.toNat_lt
    rw [lengthPrefixed, hlength, UInt32.ofNat_toNat, List.append_assoc]
    exact ⟨hlt, rfl⟩
  · rintro ⟨hlt, rfl⟩
    refine ⟨.ofNat (utf8 text.toList).length, _, ?_, _, rest', ⟨?_, rfl⟩, rfl, rfl⟩
    · rw [lengthPrefixed, List.append_assoc]
    · rw [UInt32.toNat_ofNat_of_lt' hlt]

/-- The strings of a section have lengths that can be written. -/
structure WeightSection.Short (s : WeightSection) : Prop where
  tensorName : (utf8 s.tensorName.toList).length < 2 ^ 32
  sourceArtifact : (utf8 s.sourceArtifact.toList).length < 2 ^ 32

theorem utf8_transformId : utf8 "bf16-row-major-identity-v1".toList = transformIdBytes := by
  decide +kernel

theorem run_readSection_eq_ok {s : WeightSection} {rest rest' : List UInt8} :
    readSection.run rest = .ok (s, rest') ↔ s.Short ∧ rest = s.record ++ rest' := by
  simp only [readSection, run_bind_eq_ok, run_u32_eq_ok, run_u64_eq_ok, run_u8_eq_ok,
    run_lift_eq_ok, run_readString_eq_ok, run_array_eq_ok, run_pure_eq_ok, decodeRole_eq_ok,
    failIf_eq_ok, not_not]
  constructor
  · rintro ⟨name, _, ⟨hname, rfl⟩, _, _, rfl, role, _, ⟨rfl, rfl⟩, _, _, rfl, -, _, ⟨rfl, rfl⟩,
      rank, _, rfl, d₀, _, rfl, d₁, _, rfl, artifact, _, ⟨hartifact, rfl⟩, so, _, rfl, sl, _, rfl,
      dO, _, rfl, dl, _, rfl, al, _, rfl, transform, _, ⟨-, rfl⟩, -, _, ⟨htransform, rfl⟩,
      digest, _, rfl, rfl, rfl⟩
    refine ⟨⟨hname, hartifact⟩, ?_⟩
    rw [htransform]
    simp only [WeightSection.record, dtypeCode, List.append_assoc]
  · rintro ⟨hs, rfl⟩
    refine ⟨s.tensorName, _, ⟨hs.tensorName, ?_⟩, _, _, rfl, s.role, _, ⟨rfl, rfl⟩, _, _,
      rfl, (), _,
      ⟨rfl, rfl⟩, s.rank, _, rfl, s.dimension0, _, rfl, s.dimension1, _, rfl, s.sourceArtifact, _,
      ⟨hs.sourceArtifact, rfl⟩, s.sourceOffset, _, rfl, s.sourceLength, _, rfl,
      s.destinationOffset, _, rfl, s.destinationLength, _, rfl, s.alignment, _, rfl,
      "bf16-row-major-identity-v1", _, ⟨?_, rfl⟩, (), _, ⟨utf8_transformId, rfl⟩, s.sha256, rest',
      rfl, ?_, rfl⟩
    · rw [utf8_transformId]
      simp only [WeightSection.record, List.append_assoc]
      rfl
    · rw [utf8_transformId]
      decide
    · obtain ⟨_, _, dtype, _, _, _, _, _, _, _, _, _, transform, _⟩ := s
      cases dtype
      cases transform
      rfl

theorem run_readSections_eq_ok {count : ℕ} {sections : List WeightSection}
    {rest rest' : List UInt8} : (readSections count).run rest = .ok (sections, rest') ↔
      sections.length = count ∧ (∀ s ∈ sections, s.Short) ∧
        rest = sections.flatMap WeightSection.record ++ rest' := by
  induction count generalizing sections rest rest' with
  | zero =>
    rw [readSections, run_pure_eq_ok]
    constructor
    · rintro ⟨rfl, rfl⟩
      exact ⟨rfl, by simp, rfl⟩
    · rintro ⟨hlength, -, rfl⟩
      obtain rfl := List.length_eq_zero_iff.mp hlength
      exact ⟨rfl, rfl⟩
  | succ count ih =>
    simp only [readSections, run_bind_eq_ok, run_readSection_eq_ok, ih, run_pure_eq_ok]
    constructor
    · rintro ⟨s, _, ⟨hs, rfl⟩, sections, _, ⟨rfl, hall, rfl⟩, rfl, rfl⟩
      refine ⟨rfl, List.forall_mem_cons.mpr ⟨hs, hall⟩, ?_⟩
      rw [List.flatMap_cons, List.append_assoc]
    · rintro ⟨hlength, hall, rfl⟩
      match sections, hlength with
      | s :: sections, hlength =>
        obtain ⟨hs, hall⟩ := List.forall_mem_cons.mp hall
        refine ⟨s, _, ⟨hs, ?_⟩, sections, rest', ⟨Nat.succ.inj hlength, hall, rfl⟩, rfl, rfl⟩
        rw [List.flatMap_cons, List.append_assoc]

/-- The bytes of what was parsed. -/
def ParsedPersistedManifest.record (p : ParsedPersistedManifest) : List UInt8 :=
  manifestRecord p.role p.sourceWeightsId p.sourceArtifactBytes p.tensorDataBytes p.outputBytes
    p.sections

theorem run_isFinished_eq_ok {ε : Type} {rest rest' : List UInt8} {b : Bool} :
    (isFinished : Reader ε Bool).run rest = .ok (b, rest') ↔ b = rest.isEmpty ∧ rest' = rest := by
  show (Except.ok (rest.isEmpty, rest) : Outcome ε _) = .ok (b, rest') ↔ _
  rw [Except.ok.injEq, Prod.mk.injEq]
  exact and_congr eq_comm eq_comm

theorem run_readManifest_eq_ok {p : ParsedPersistedManifest} {bytes rest' : List UInt8} :
    readManifest.run bytes = .ok (p, rest') ↔ p.sections.length = p.role.tensorCount ∧
      (∀ s ∈ p.sections, s.Short) ∧ bytes = p.record ∧ rest' = [] := by
  have hcount : p.role.tensorCount < 2 ^ 32 := by cases p.role <;> decide
  simp only [readManifest, run_bind_eq_ok, run_u32_eq_ok, run_u64_eq_ok, run_u8_eq_ok,
    run_lift_eq_ok, run_array_eq_ok, run_pure_eq_ok, decodeRole_eq_ok, failIf_eq_ok, not_not,
    run_readSections_eq_ok, run_isFinished_eq_ok]
  constructor
  · rintro ⟨_, _, rfl, -, _, ⟨rfl, rfl⟩, _, _, rfl, -, _, ⟨rfl, rfl⟩, _, _, rfl, role, _,
      ⟨rfl, rfl⟩,
      id, _, rfl, ab, _, rfl, tb, _, rfl, ob, _, rfl, count, _, rfl, -, _, ⟨hexact, rfl⟩,
      sections, _,
      ⟨hlength, hall, rfl⟩, _, _, ⟨rfl, rfl⟩, -, _, ⟨hend, rfl⟩, rfl, rfl⟩
    have hnil := List.isEmpty_iff.mp (show List.isEmpty _ = true by simpa using hend)
    subst hnil
    refine ⟨hlength.trans hexact, hall, ?_, rfl⟩
    simp only [ParsedPersistedManifest.record, manifestRecord, hlength, UInt32.ofNat_toNat,
      List.append_nil]
  · rintro ⟨hlength, hall, rfl, rfl⟩
    have hexact : (UInt32.ofNat p.sections.length).toNat = p.role.tensorCount := by
      rw [hlength, UInt32.toNat_ofNat_of_lt' hcount]
    refine ⟨manifestDomain, _, rfl, (), _, ⟨rfl, rfl⟩, prepackedWeightManifestVersion, _,
      rfl, (), _,
      ⟨rfl, rfl⟩, _, _, rfl, p.role, _, ⟨rfl, rfl⟩, p.sourceWeightsId, _, rfl,
      p.sourceArtifactBytes, _, rfl, p.tensorDataBytes, _, rfl, p.outputBytes, _, rfl,
      .ofNat p.sections.length, _, rfl, (), _, ⟨hexact, rfl⟩, p.sections, [],
      ⟨hlength.trans hexact.symm, hall, (List.append_nil _).symm⟩, true, [], ⟨rfl, rfl⟩, (), [],
      ⟨by simp, rfl⟩, rfl, rfl⟩

theorem short_of_length_record {sections : List WeightSection}
    (h : (sections.flatMap WeightSection.record).length < 2 ^ 32) : ∀ s ∈ sections, s.Short := by
  intro s hs
  have hle : s.record.length ≤ (sections.flatMap WeightSection.record).length := by
    rw [List.flatMap]
    exact (List.sublist_flatten_of_mem (List.mem_map_of_mem hs)).length_le
  simp only [WeightSection.record, lengthPrefixed, List.length_append] at hle
  constructor <;> omega

/-- **What is read.** The bytes of a manifest with as many sections as its role has tensors, within
the bound, and nothing else. -/
theorem parsePersistedManifest_eq_ok {bytes : List UInt8} {p : ParsedPersistedManifest} :
    parsePersistedManifest bytes = .ok p ↔ p.sections.length = p.role.tensorCount ∧
      bytes = p.record ∧ bytes.length ≤ maxManifestBytes := by
  have hmax : maxManifestBytes = 262144 := rfl
  simp only [parsePersistedManifest, bind_eq_ok, failIf_eq_ok, Prod.exists, run_readManifest_eq_ok,
    not_or, not_lt]
  constructor
  · rintro ⟨-, ⟨-, hle⟩, p', -, ⟨hlength, -, rfl, -⟩, hp⟩
    obtain rfl := Except.ok.inj hp
    exact ⟨hlength, rfl, hle⟩
  · rintro ⟨hlength, rfl, hle⟩
    have hrecord := length_manifestRecord p.role p.sourceWeightsId p.sourceArtifactBytes
      p.tensorDataBytes p.outputBytes p.sections
    rw [← ParsedPersistedManifest.record] at hrecord
    refine ⟨(), ⟨?_, hle⟩, p, [], ⟨hlength, short_of_length_record (by omega), rfl, rfl⟩, rfl⟩
    intro hnil
    rw [hnil, List.length_nil] at hrecord
    omega

/-- A manifest that was read can be written. -/
theorem encode_of_parse {bytes : List UInt8} {p : ParsedPersistedManifest}
    {descriptor : WeightDescriptor} (h : parsePersistedManifest bytes = .ok p)
    (hid : descriptor.weightsId = p.sourceWeightsId)
    (hartifact : descriptor.artifactBytes = p.sourceArtifactBytes)
    (htensor : descriptor.tensorDataBytes = p.tensorDataBytes) :
    encodeManifestRecordVerified p.role descriptor p.outputBytes p.sections = .ok bytes := by
  obtain ⟨hlength, rfl, hle⟩ := parsePersistedManifest_eq_ok.mp h
  refine encodeManifestRecordVerified_eq_ok.mpr ⟨?_, ?_, hle⟩
  · rw [hlength]
    cases p.role <;> decide
  · rw [hid, hartifact, htensor]
    rfl

/-- A manifest that was written can be read. -/
theorem parse_of_encode {role : ModelRole} {descriptor : WeightDescriptor} {outputBytes : UInt64}
    {sections : List WeightSection} {bytes : List UInt8}
    (hlength : sections.length = role.tensorCount)
    (h : encodeManifestRecordVerified role descriptor outputBytes sections = .ok bytes) :
    parsePersistedManifest bytes = .ok ⟨role, descriptor.weightsId, descriptor.artifactBytes,
      descriptor.tensorDataBytes, outputBytes, sections⟩ := by
  obtain ⟨-, rfl, hle⟩ := encodeManifestRecordVerified_eq_ok.mp h
  exact parsePersistedManifest_eq_ok.mpr ⟨hlength, rfl, hle⟩

end WeightStream

end Ferric
