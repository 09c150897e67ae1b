import Ferric.Lib.Packet
import Ferric.Lib.Utf8
import Ferric.Safetensors.Model

/-!
# Prepacked weights

`weight_stream.rs` of the build crate: the tensor payloads of the pinned safetensors files are
copied behind each other, the sections are written down in a canonical manifest, and a persisted
manifest is read back and compared with the roster and the pinned files.

## Conventions

* The digest is a parameter, a function from bytes to 32 bytes.
* A reader is the bytes that it gives, and a writer takes every byte. Errors of the system end a
  call with an error, and the chunks in which bytes are copied are not visible in its result.
* `String`s are written as their UTF-8 bytes.
-/

namespace Ferric

namespace WeightStream

open Safetensors (SafetensorsError ParsedTensor ParsedShard classifyTensorName)
open Spec (ModelRole TensorKind TensorMetadata TensorDType)

/-- A SHA-256 digest. -/
abbrev Digest := Block 32

/-- `hex_nibble` -/
def hexNibble (c : Char) : UInt8 :=
  if '0' ≤ c ∧ c ≤ '9' then .ofNat (c.toNat - '0'.toNat)
  else if 'a' ≤ c ∧ c ≤ 'f' then .ofNat (c.toNat - 'a'.toNat + 10)
  else 0

/-- `decode_hex_32` -/
def decodeHex32 (hex : String) : Digest :=
  ⟨(List.range 32).map fun i =>
    (hexNibble (hex.toList.getD (i * 2) '0') <<< 4) ||| hexNibble (hex.toList.getD (i * 2 + 1) '0'),
    by simp⟩

/-- `MAX_MANIFEST_BYTES` -/
def maxManifestBytes : ℕ := 256 * 1024

/-- `SECTION_ALIGNMENT` -/
def sectionAlignment : UInt64 := 2

/-- `MANIFEST_DOMAIN` -/
def manifestDomain : Block 36 :=
  ⟨[102, 101, 114, 114, 105, 99, 46, 112, 114, 101, 112, 97, 99, 107, 101, 100, 45, 119, 101,
    105, 103, 104, 116, 45, 115, 101, 99, 116, 105, 111, 110, 115, 46, 118, 49, 0], rfl⟩

/-- `TRANSFORM_ID_BYTES` -/
def transformIdBytes : List UInt8 :=
  [98, 102, 49, 54, 45, 114, 111, 119, 45, 109, 97, 106, 111, 114, 45, 105, 100, 101, 110,
    116, 105, 116, 121, 45, 118, 49]

/-- `PREPACKED_WEIGHT_MANIFEST_VERSION` -/
def prepackedWeightManifestVersion : UInt32 := 1

/-! ### The pinned files -/

structure FilePin where
  name : String
  sha256 : Digest
  fileBytes : UInt64
  headerBytes : UInt64
  tensorDataBytes : UInt64

/-- `TARGET_SHARD_PINS` -/
def targetShardPins : List FilePin :=
  [⟨"model-00001-of-00005.safetensors",
      decodeHex32 "31d6a825ae35f11fb85b195b4c42c146c051e446433125a215336abdf95cbf5f",
      3996250744, 9328, 3996241408⟩,
    ⟨"model-00002-of-00005.safetensors",
      decodeHex32 "5991236cea6fe21f3d43cab0f0e84448734fbbe0789816202989f2ddc9d18282",
      3993160032, 13144, 3993146880⟩,
    ⟨"model-00003-of-00005.safetensors",
      decodeHex32 "c5185c4794be2d8a9784d5753c9922db38df478ce11f9ed0b415b7304d896836",
      3959604768, 12824, 3959591936⟩,
    ⟨"model-00004-of-00005.safetensors",
      decodeHex32 "b5ee7de71fbf17db3d5704e0c8f2bc7d005ca9e1d7ca2aeb19827b0cfcaa917a",
      3187841392, 10600, 3187830784⟩,
    ⟨"model-00005-of-00005.safetensors",
      decodeHex32 "20c2d6366ab85c90786ccdd829cd2b9e7d30ef3b2ebbb998280e7e4014b542ff",
      1244659840, 120, 1244659712⟩]

/-- `QWEN3_TARGET_WEIGHT_SET_SHA256` -/
def qwen3TargetWeightSetSha256 : Digest :=
  ⟨[46, 105, 192, 137, 255, 154, 252, 238, 38, 70, 70, 203, 142, 166, 52, 74, 163, 200, 206,
    219, 232, 2, 45, 114, 152, 137, 112, 130, 4, 227, 39, 50], rfl⟩

/-- `QWEN3_DRAFT_WEIGHT_SHA256` -/
def qwen3DraftWeightSha256 : Digest :=
  ⟨[244, 127, 113, 23, 127, 50, 188, 209, 1, 183, 87, 62, 201, 23, 30, 106, 87, 244, 244,
    211, 17, 72, 211, 142, 56, 35, 6, 244, 41, 150, 135, 75], rfl⟩

/-- `DRAFT_FILE_PIN` -/
def draftFilePin : FilePin :=
  ⟨"model.safetensors", qwen3DraftWeightSha256, 1503300328, 35552, 1503264768⟩

/-- The pinned files of a role, in order. -/
def filePins : ModelRole → List FilePin
  | .target8B => targetShardPins
  | .draft06B => [draftFilePin]

/-- `WeightDescriptor` -/
structure WeightDescriptor where
  weightsId : Digest
  artifactBytes : UInt64
  tensorDataBytes : UInt64
  sections : UInt32

/-- `exact_weight_descriptor` -/
def exactWeightDescriptor : ModelRole → WeightDescriptor
  | .target8B => ⟨qwen3TargetWeightSetSha256, 16381516776, 16381470720, 5⟩
  | .draft06B => ⟨qwen3DraftWeightSha256, 1503300328, 1503264768, 1⟩

/-- `exact_persisted_manifest_identity` -/
def exactPersistedManifestIdentity : ModelRole → Digest × UInt32
  | .target8B =>
    (⟨[0xd6, 0xd8, 0xb5, 0x5c, 0x73, 0x59, 0x56, 0x45, 0xde, 0xde, 0xad, 0xe0, 0x05, 0xd4, 0xe8,
      0x53, 0x09, 0x8c, 0xf3, 0xa2, 0x2f, 0xaf, 0x1c, 0x04, 0x59, 0x22, 0xd0, 0x03, 0x67, 0xec,
      0xff, 0x7e], rfl⟩, 77591)
  | .draft06B =>
    (⟨[0xcd, 0x97, 0xbd, 0xa6, 0x5e, 0x4a, 0x40, 0xd4, 0x9a, 0xe8, 0x85, 0x44, 0x4c, 0xc6, 0xa1,
      0x5a, 0x47, 0x13, 0x5d, 0x10, 0x73, 0x07, 0x5d, 0xda, 0x10, 0x4b, 0x36, 0x00, 0x68, 0xe4,
      0x74, 0x1e], rfl⟩, 55798)

/-! ### Sections and their manifest -/

/-- `WeightTransform` -/
inductive WeightTransform where
  | bf16RowMajorIdentityV1
  deriving DecidableEq

/-- `WeightSection` -/
structure WeightSection where
  tensorName : String
  role : ModelRole
  dtype : TensorDType
  rank : UInt32
  dimension0 : UInt32
  dimension1 : UInt32
  sourceArtifact : String
  sourceOffset : UInt64
  sourceLength : UInt64
  destinationOffset : UInt64
  destinationLength : UInt64
  alignment : UInt64
  transform : WeightTransform
  sha256 : Digest
  deriving DecidableEq

/-- `WeightSectionManifest` -/
structure WeightSectionManifest where
  version : UInt32
  role : ModelRole
  sourceWeightsId : Digest
  sourceArtifactBytes : UInt64
  tensorDataBytes : UInt64
  outputBytes : UInt64
  sections : List WeightSection
  canonicalBytes : List UInt8
  aggregateId : Digest

/-- `WeightSection::qwen3_metadata` -/
def WeightSection.qwen3Metadata (s : WeightSection) :
    Outcome SafetensorsError (TensorMetadata × ℕ) := do
  let (kind, layer, ordinal) ← classifyTensorName s.role s.tensorName
  let metadata : TensorMetadata :=
    { role := s.role, kind, layer, dtype := s.dtype, rank := s.rank.toNat
      dimension0 := s.dimension0.toNat, dimension1 := s.dimension1.toNat }
  mapErr (.tensorSchema s.tensorName) metadata.validate
  return (metadata, ordinal)

/-- `ManifestBuildError` -/
inductive ManifestBuildError where
  | completeOutput
  | destinationLayout
  | destinationCoverage
  | destinationOverflow
  | manifestCapacity
  | manifestSectionCount
  | manifestStringLength
  | manifestTooLarge
  deriving DecidableEq

/-- `std::io::ErrorKind`: the kinds that a `read` of a file returns. -/
inductive IoErrorKind where
  | interrupted
  | permissionDenied
  | wouldBlock
  | timedOut
  | other
  deriving DecidableEq

/-- Errors of `safetensors.rs` about files and not about their headers. -/
inductive SourceError where
  | header (error : SafetensorsError)
  | shardName (expected actual : String)
  | shardMapping (tensor : String)
  | indexDigestMismatch
  | headerTooLarge (artifact : String) (actual : ℕ)
  | headerLength (artifact : String) (expected actual : ℕ)
  | earlyEof (artifact : String) (expected actual : ℕ)
  | fileSize (artifact : String) (expected actual : ℕ)
  | trailingData (artifact : String)
  | digestMismatch (artifact : String)
  | io (artifact : String) (kind : IoErrorKind)
  deriving DecidableEq

/-- `WeightStreamError` -/
inductive WeightStreamError where
  | source (error : SourceError)
  | arithmeticOverflow (field : String)
  | invalidLayout (reason : String)
  | manifestTooLarge
  deriving DecidableEq

/-- `map_manifest_build_error` -/
def mapManifestBuildError : ManifestBuildError → WeightStreamError
  | .completeOutput => .invalidLayout "complete output count or length drifted"
  | .destinationLayout => .invalidLayout "destination sections are not canonical and complete"
  | .destinationCoverage => .invalidLayout "destination sections do not cover output"
  | .destinationOverflow => .arithmeticOverflow "destination coverage"
  | .manifestCapacity => .arithmeticOverflow "manifest capacity"
  | .manifestSectionCount => .arithmeticOverflow "manifest section count"
  | .manifestStringLength => .arithmeticOverflow "manifest string length"
  | .manifestTooLarge => .manifestTooLarge

/-! ### Writing a manifest -/

/-- `role_code` -/
def roleCode : ModelRole → UInt8
  | .target8B => 1
  | .draft06B => 2

/-- `dtype_code` -/
def dtypeCode : TensorDType → UInt8
  | .bf16 => 1

abbrev Built (α : Type) := Outcome ManifestBuildError α

/-- `append_length_prefixed_bytes` -/
def appendLengthPrefixedBytes (record bytes : List UInt8) : Built (List UInt8) := do
  failIf (bytes.length ≥ 2 ^ 32) .manifestStringLength
  failIf (record.length > maxManifestBytes - 4) .manifestTooLarge
  let withLength := record.length + 4
  failIf (bytes.length > maxManifestBytes - withLength) .manifestTooLarge
  return record ++ (le32 (.ofNat bytes.length)).val ++ bytes

/-- `append_manifest_section` -/
def appendManifestSection (record : List UInt8) (s : WeightSection) : Built (List UInt8) := do
  let record ← appendLengthPrefixedBytes record (utf8 s.tensorName.toList)
  let record := record ++ [roleCode s.role] ++ [dtypeCode s.dtype] ++ (le32 s.rank).val ++
    (le32 s.dimension0).val ++ (le32 s.dimension1).val
  let record ← appendLengthPrefixedBytes record (utf8 s.sourceArtifact.toList)
  let record := record ++ (le64 s.sourceOffset).val ++ (le64 s.sourceLength).val ++
    (le64 s.destinationOffset).val ++ (le64 s.destinationLength).val ++ (le64 s.alignment).val
  let record ← appendLengthPrefixedBytes record transformIdBytes
  let record := record ++ s.sha256.val
  failIf (record.length > maxManifestBytes) .manifestTooLarge
  return record

/-- `append_manifest_sections` -/
def appendManifestSections : List UInt8 → List WeightSection → Built (List UInt8)
  | record, [] => .ok record
  | record, s :: sections => do
    let record ← appendManifestSection record s
    appendManifestSections record sections

/-- `encode_manifest_record_verified` -/
def encodeManifestRecordVerified (role : ModelRole) (descriptor : WeightDescriptor)
    (outputBytes : UInt64) (sections : List WeightSection) : Built (List UInt8) := do
  let scaled ← orErr .manifestCapacity (checkedMul 64 sections.length 160)
  let capacity ← orErr .manifestCapacity (checkedAdd 64 scaled 64)
  failIf (capacity > maxManifestBytes) .manifestTooLarge
  failIf (sections.length ≥ 2 ^ 32) .manifestSectionCount
  let record := manifestDomain.val ++ (le32 prepackedWeightManifestVersion).val ++
    [roleCode role] ++ descriptor.weightsId.val ++ (le64 descriptor.artifactBytes).val ++
    (le64 descriptor.tensorDataBytes).val ++ (le64 outputBytes).val ++
    (le32 (.ofNat sections.length)).val
  appendManifestSections record sections

/-- `destination_section_valid` -/
def destinationSectionValid (s : WeightSection) (role : ModelRole) (expected : UInt64) : Bool :=
  decide (s.role = role) && decide (s.dtype = .bf16) &&
  decide (s.transform = .bf16RowMajorIdentityV1) && decide (s.alignment = sectionAlignment) &&
  decide (s.destinationOffset = expected) && decide (s.destinationLength = s.sourceLength) &&
  decide (s.destinationOffset % sectionAlignment = 0) &&
  decide (s.destinationLength % sectionAlignment = 0)

/-- `validate_destination_from` -/
def validateDestinationFrom (role : ModelRole) (outputBytes : UInt64) :
    List WeightSection → UInt64 → Built Unit
  | [], expected => failIf (expected ≠ outputBytes) .destinationCoverage
  | s :: sections, expected => do
    failIf (!destinationSectionValid s role expected) .destinationLayout
    let next ← orErr .destinationOverflow
      (checkedAdd 64 expected.toNat s.destinationLength.toNat)
    validateDestinationFrom role outputBytes sections (.ofNat next)

section Digest

variable (sha256 : List UInt8 → Digest)

/-- `build_weight_manifest_verified` -/
def buildWeightManifestVerified (role : ModelRole) (descriptor : WeightDescriptor)
    (outputBytes : UInt64) (sections : List WeightSection) : Built WeightSectionManifest := do
  failIf (outputBytes ≠ descriptor.tensorDataBytes ∨ outputBytes.toNat ≠ role.tensorDataBytes ∨
    sections.length ≠ role.tensorCount) .completeOutput
  validateDestinationFrom role outputBytes sections 0
  let canonicalBytes ← encodeManifestRecordVerified role descriptor outputBytes sections
  return {
    version := prepackedWeightManifestVersion
    role
    sourceWeightsId := descriptor.weightsId
    sourceArtifactBytes := descriptor.artifactBytes
    tensorDataBytes := descriptor.tensorDataBytes
    outputBytes
    sections
    canonicalBytes
    aggregateId := sha256 canonicalBytes }

/-- `PrepackedWeightSet` -/
structure PrepackedWeightSet where
  role : ModelRole
  descriptor : WeightDescriptor
  manifest : WeightSectionManifest

/-- `finish_prepacked` -/
def finishPrepacked (role : ModelRole) (descriptor : WeightDescriptor) (outputBytes : UInt64)
    (sections : List WeightSection) : Outcome WeightStreamError PrepackedWeightSet := do
  let manifest ← mapErr mapManifestBuildError
    (buildWeightManifestVerified sha256 role descriptor outputBytes sections)
  return ⟨role, descriptor, manifest⟩

/-! ### Reading a manifest -/

/-- `PersistedPrepackedWeightError`, as far as it concerns manifests. -/
inductive PersistedError where
  | invalidCommitment (field : String)
  | invalidManifest (reason : String)
  | invalidManifestUtf8 (field : String)
  | invalidSectionLayout (reason : String)
  | manifest (error : WeightStreamError)
  deriving DecidableEq

/-- `ParsedPersistedManifest` -/
structure ParsedPersistedManifest where
  role : ModelRole
  sourceWeightsId : Digest
  sourceArtifactBytes : UInt64
  tensorDataBytes : UInt64
  outputBytes : UInt64
  sections : List WeightSection

/-- The error of `take`. -/
def truncatedField : PersistedError := .invalidManifest "truncated field"

/-- The code of a role. -/
def decodeRole (reason : String) (code : UInt8) : Outcome PersistedError ModelRole :=
  if code = 1 then .ok .target8B
  else if code = 2 then .ok .draft06B
  else .error (.err (.invalidManifest reason))

open Reader in
/-- `PersistedManifestReader::string` -/
def readString (field : String) : Reader PersistedError String := do
  let length ← u32 truncatedField
  let value ← bytes length.toNat truncatedField
  let text ← orErr (PersistedError.invalidManifestUtf8 field) (fromUtf8 value)
  return text

open Reader in
/-- One round of the loop of `parse_persisted_manifest`. -/
def readSection : Reader PersistedError WeightSection := do
  let tensorName ← readString "tensor name"
  let role ← decodeRole "section role" (← u8 truncatedField)
  let dtype ← u8 truncatedField
  failIf (dtype ≠ 1) (PersistedError.invalidManifest "section dtype")
  let rank ← u32 truncatedField
  let dimension0 ← u32 truncatedField
  let dimension1 ← u32 truncatedField
  let sourceArtifact ← readString "source artifact"
  let sourceOffset ← u64 truncatedField
  let sourceLength ← u64 truncatedField
  let destinationOffset ← u64 truncatedField
  let destinationLength ← u64 truncatedField
  let alignment ← u64 truncatedField
  let transform ← readString "transform"
  failIf (utf8 transform.toList ≠ transformIdBytes)
    (PersistedError.invalidManifest "section transform")
  let sha256 ← array 32 truncatedField
  return {
    tensorName, role, dtype := .bf16, rank, dimension0, dimension1, sourceArtifact, sourceOffset
    sourceLength, destinationOffset, destinationLength, alignment
    transform := .bf16RowMajorIdentityV1, sha256 }

/-- The loop of `parse_persisted_manifest`. -/
def readSections : ℕ → Reader PersistedError (List WeightSection)
  | 0 => return []
  | count + 1 => do
    let s ← readSection
    return s :: (← readSections count)

open Reader in
/-- `parse_persisted_manifest` behind its size check. -/
def readManifest : Reader PersistedError ParsedPersistedManifest := do
  let magic ← array 36 truncatedField
  failIf (magic ≠ manifestDomain) (PersistedError.invalidManifest "magic")
  let version ← u32 truncatedField
  failIf (version ≠ prepackedWeightManifestVersion) (PersistedError.invalidManifest "version")
  let role ← decodeRole "role" (← u8 truncatedField)
  let sourceWeightsId ← array 32 truncatedField
  let sourceArtifactBytes ← u64 truncatedField
  let tensorDataBytes ← u64 truncatedField
  let outputBytes ← u64 truncatedField
  let sectionCount ← u32 truncatedField
  failIf (sectionCount.toNat ≠ role.tensorCount) (PersistedError.invalidManifest "section count")
  let sections ← readSections sectionCount.toNat
  failIf (!(← isFinished)) (PersistedError.invalidManifest "trailing manifest bytes")
  return ⟨role, sourceWeightsId, sourceArtifactBytes, tensorDataBytes, outputBytes, sections⟩

/-- `parse_persisted_manifest` -/
def parsePersistedManifest (bytes : List UInt8) :
    Outcome PersistedError ParsedPersistedManifest := do
  failIf (bytes = [] ∨ bytes.length > maxManifestBytes) (.invalidManifest "manifest size")
  let (parsed, _) ← readManifest.run bytes
  return parsed

/-! ### Checking a manifest against the pinned files -/

/-- `persisted_source_pin` -/
def persistedSourcePin : ModelRole → String → Option (ℕ × FilePin)
  | .target8B, name =>
    (targetShardPins.zipIdx.find? fun entry => entry.1.name = name).map fun (pin, i) => (i, pin)
  | .draft06B, name => if name = draftFilePin.name then some (0, draftFilePin) else none

/-- What the loop of `validate_persisted_sections` keeps. -/
structure Coverage where
  seen : List Bool
  sourceCursors : List ℕ
  expectedTargetSource : ℕ

/-- The cursors before the loop. -/
def Coverage.start (role : ModelRole) : Outcome PersistedError Coverage := do
  let starts ← (filePins role).mapM fun pin =>
    orErr (.invalidSectionLayout "source header") (checkedAdd 64 8 pin.headerBytes.toNat)
  return ⟨List.replicate 399 false,
    starts ++ List.replicate (targetShardPins.length - starts.length) 0, 0⟩

/-- One round of the loop of `validate_persisted_sections`. -/
def Coverage.section (role : ModelRole) (c : Coverage) (s : WeightSection) :
    Outcome PersistedError Coverage := do
  failIf (s.role ≠ role ∨ s.dtype ≠ .bf16 ∨ s.transform ≠ .bf16RowMajorIdentityV1 ∨
    s.alignment ≠ sectionAlignment ∨ s.sha256 = .zero 32)
      (.invalidSectionLayout "section authority")
  let (_, ordinal) ← mapErr (fun _ => .invalidSectionLayout "tensor schema") s.qwen3Metadata
  let seenEntry ← orErr (.invalidSectionLayout "tensor ordinal") c.seen[ordinal]?
  failIf seenEntry (.invalidSectionLayout "duplicate tensor ordinal")
  let expectedLength ← orErr (.invalidSectionLayout "tensor byte arithmetic") (do
    checkedMul 64 (← checkedMul 64 s.dimension0.toNat s.dimension1.toNat) 2)
  failIf (s.sourceLength.toNat ≠ expectedLength ∨ s.destinationLength.toNat ≠ expectedLength)
    (.invalidSectionLayout "tensor byte length")
  let (sourceIndex, sourcePin) ← orErr (.invalidSectionLayout "source artifact")
    (persistedSourcePin role s.sourceArtifact)
  failIf (role = .target8B ∧ sourceIndex ≠ c.expectedTargetSource)
    (.invalidSectionLayout "source shard order")
  let cursor ← orErr (.invalidSectionLayout "source artifact index") c.sourceCursors[sourceIndex]?
  failIf (s.sourceOffset.toNat ≠ cursor ∨ s.sourceOffset % sectionAlignment ≠ 0)
    (.invalidSectionLayout "source coverage")
  let cursor ← orErr (.invalidSectionLayout "source range")
    (checkedAdd 64 s.sourceOffset.toNat s.sourceLength.toNat)
  failIf (cursor > sourcePin.fileBytes.toNat) (.invalidSectionLayout "source range")
  let expected ←
    if role = .target8B ∧ cursor = sourcePin.fileBytes.toNat then
      orErr (.invalidSectionLayout "source shard order") (checkedAdd 64 c.expectedTargetSource 1)
    else pure c.expectedTargetSource
  return ⟨c.seen.set ordinal true, c.sourceCursors.set sourceIndex cursor, expected⟩

/-- `validate_persisted_sections` -/
def validatePersistedSections (manifest : WeightSectionManifest) : Outcome PersistedError Unit := do
  let role := manifest.role
  let c ← Coverage.start role
  let c ← manifest.sections.foldlM (Coverage.section role) c
  failIf (manifest.sections.length ≠ role.tensorCount ∨
    ((c.seen.take role.tensorCount).any (!·)) = true)
      (.invalidSectionLayout "complete tensor roster")
  failIf (!((c.sourceCursors.zip (filePins role)).all fun (cursor, pin) =>
    cursor = pin.fileBytes.toNat)) (.invalidSectionLayout "complete source coverage")

/-- `ManifestCommitment` -/
structure ManifestCommitment where
  role : ModelRole
  version : UInt32
  sourceWeightsId : Digest
  aggregateId : Digest
  sourceArtifactBytes : UInt64
  tensorDataBytes : UInt64
  outputBytes : UInt64
  sectionCount : UInt32
  canonicalManifestBytes : UInt32

/-- `validate_persisted_commitment` -/
def validatePersistedCommitment (role : ModelRole) (commitment : ManifestCommitment)
    (manifestBytes : List UInt8) : Outcome PersistedError WeightDescriptor := do
  let descriptor := exactWeightDescriptor role
  let (manifestIdentity, manifestBytesExact) := exactPersistedManifestIdentity role
  failIf (commitment.role ≠ role) (.invalidCommitment "role")
  failIf (commitment.version ≠ prepackedWeightManifestVersion) (.invalidCommitment "version")
  failIf (commitment.sourceWeightsId ≠ descriptor.weightsId) (.invalidCommitment "source identity")
  failIf (commitment.sourceArtifactBytes ≠ descriptor.artifactBytes ∨
    commitment.tensorDataBytes ≠ descriptor.tensorDataBytes ∨
    commitment.outputBytes ≠ descriptor.tensorDataBytes) (.invalidCommitment "byte count")
  failIf (commitment.sectionCount.toNat ≠ role.tensorCount) (.invalidCommitment "section count")
  failIf (manifestBytes.length ≥ 2 ^ 32) (.invalidCommitment "manifest byte count")
  failIf (manifestBytes = [] ∨ manifestBytes.length > maxManifestBytes ∨
    commitment.canonicalManifestBytes.toNat ≠ manifestBytes.length ∨
    commitment.canonicalManifestBytes ≠ manifestBytesExact)
    (.invalidCommitment "manifest byte count")
  failIf (commitment.aggregateId ≠ manifestIdentity ∨ sha256 manifestBytes ≠ manifestIdentity)
    (.invalidCommitment "manifest identity")
  return descriptor

/-- `reopen_persisted_qwen3_weight_manifest_after_commitment` -/
def reopenPersistedManifestAfterCommitment (role : ModelRole) (descriptor : WeightDescriptor)
    (aggregateId : Digest) (manifestBytes : List UInt8) :
    Outcome PersistedError PrepackedWeightSet := do
  let parsed ← parsePersistedManifest manifestBytes
  failIf (parsed.role ≠ role ∨ parsed.sourceWeightsId ≠ descriptor.weightsId ∨
    parsed.sourceArtifactBytes ≠ descriptor.artifactBytes ∨
    parsed.tensorDataBytes ≠ descriptor.tensorDataBytes ∨
    parsed.outputBytes ≠ descriptor.tensorDataBytes)
    (.invalidManifest "manifest header commitment")
  let prepacked ← mapErr .manifest
    (finishPrepacked sha256 role descriptor parsed.outputBytes parsed.sections)
  failIf (prepacked.manifest.canonicalBytes ≠ manifestBytes ∨
    prepacked.manifest.aggregateId ≠ aggregateId) (.invalidManifest "noncanonical re-encoding")
  validatePersistedSections prepacked.manifest
  return prepacked

/-- `reopen_persisted_qwen3_weight_manifest_authority` -/
def reopenPersistedManifestAuthority (role : ModelRole) (commitment : ManifestCommitment)
    (manifestBytes : List UInt8) : Outcome PersistedError PrepackedWeightSet := do
  let descriptor ← validatePersistedCommitment sha256 role commitment manifestBytes
  reopenPersistedManifestAfterCommitment sha256 role descriptor commitment.aggregateId manifestBytes

end Digest

end WeightStream

end Ferric
