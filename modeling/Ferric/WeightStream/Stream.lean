import Ferric.WeightStream.Model
import Ferric.Safetensors.Admission

/-!
# Streaming the pinned files

The first half of `weight_stream.rs`: each pinned file is read once from its header to its end, and
each tensor becomes a section.

## Main definitions

* `streamFile` — one file: the header, the tensors as sections, and the end
* `prepackQwen3TargetWeights`, `prepackQwen3DraftWeights` — all files of a role
-/

namespace Ferric

namespace WeightStream

open Json (Value)
open Safetensors
open Spec (ModelRole TensorKind TensorMetadata TensorDType)

/-! ### The index of the target -/

/-- `MAX_INDEX_BYTES` -/
def maxIndexBytes : ℕ := 64 * 1024

/-- `TARGET_INDEX_BYTES` -/
def targetIndexBytes : ℕ := 32878

/-- `TARGET_INDEX_SHA256` -/
def targetIndexSha256 : Digest :=
  decodeHex32 "f9fdbcb91c23971c13ec5d5f2573d2349e8f61f2f049371ec699281748fdb1bc"

/-- `Fields::expect_u64` -/
def expectU64 (f : Fields) (field : String) (expected : ℕ) : Safetensors.Result Fields := do
  let (value, f) ← f.take field
  let actual ← number (2 ^ 64) f.artifact field value
  failIf (actual ≠ expected) (.unexpectedValue f.artifact field)
  return f

/-- `TargetIndex`: the shard of each tensor. -/
abbrev TargetIndex := List (String × ℕ)

/-- One round of the loop of `parse_target_index`: the ordinals and the map so far. -/
def indexTensor (artifact : String) (acc : List ℕ × TargetIndex) (entry : String × Value) :
    Safetensors.Result (List ℕ × TargetIndex) := do
  let (tensor, value) := entry
  let (_, _, ordinal) ← classifyTensorName .target8B tensor
  failIf (ordinal ∈ acc.1) (.duplicateTensor tensor)
  match value with
  | .string shardName => do
    let shardIndex ← orErr (.unexpectedValue artifact ("weight_map." ++ tensor))
      (targetShardPins.findIdx? fun pin => pin.name = shardName)
    return (acc.1 ++ [ordinal], acc.2 ++ [(tensor, shardIndex)])
  | _ => .error (.err (.wrongType artifact ("weight_map." ++ tensor)))

section Digest

variable (sha256 : List UInt8 → Digest)

/-- `parse_target_index` -/
def parseTargetIndex (bytes : List UInt8) (authenticateBytes : Bool) :
    Outcome SourceError TargetIndex := do
  let artifact := "model.safetensors.index.json"
  let index ← mapErr .header do
    let value ← parseJson artifact bytes maxIndexBytes
    let root ← object artifact "$" value
    let (metadata, root) ← Fields.take { artifact, fields := root } "metadata"
    let metadata ← object artifact "metadata" metadata
    let metadata ← expectU64 { artifact, fields := metadata } "total_size" 16381470720
    metadata.finish
    let (weightMap, root) ← root.take "weight_map"
    let weightMap ← object artifact "weight_map" weightMap
    root.finish
    let actualCount := saturateU32 weightMap.length
    failIf (actualCount ≠ ModelRole.target8B.tensorCount)
      (.tensorCount ModelRole.target8B.tensorCount actualCount)
    let (ordinals, index) ← weightMap.foldlM (indexTensor artifact) ([], [])
    validateOrdinals ordinals ModelRole.target8B.tensorCount
    return index
  failIf (authenticateBytes ∧ (bytes.length ≠ targetIndexBytes ∨ sha256 bytes ≠ targetIndexSha256))
    .indexDigestMismatch
  return index

/-- `validate_shard_mapping` -/
def validateShardMapping (index : TargetIndex) (shardIndex : ℕ) (shard : ParsedShard) :
    Outcome SourceError Unit :=
  shard.tensors.foldlM (fun _ tensor =>
    failIf (index.lookup tensor.name ≠ some shardIndex) (.shardMapping tensor.name)) ()

/-! ### One file -/

/-- A reader: what was read of the file, and what is left of it. -/
structure Input where
  consumed : List UInt8
  rest : List UInt8

abbrev Streamed (α : Type) := Outcome WeightStreamError α

/-- `read_exact_source` -/
def readExactSource (pin : FilePin) (input : Input) (length : ℕ) :
    Streamed (List UInt8 × Input) := do
  let read := min length input.rest.length
  let total ← orErr (.arithmeticOverflow "source byte count")
    (checkedAdd 64 input.consumed.length read)
  failIf (total > pin.fileBytes.toNat) (.source (.fileSize pin.name pin.fileBytes.toNat total))
  failIf (read < length) (.source (.earlyEof pin.name pin.fileBytes.toNat total))
  return (input.rest.take length,
    ⟨input.consumed ++ input.rest.take length, input.rest.drop length⟩)

/-- `require_exact_source_end` -/
def requireExactSourceEnd (pin : FilePin) (input : Input) : Streamed Unit := do
  failIf (input.rest ≠ []) (.source (.trailingData pin.name))
  failIf (input.consumed.length ≠ pin.fileBytes.toNat)
    (.source (.fileSize pin.name pin.fileBytes.toNat input.consumed.length))
  failIf (sha256 input.consumed ≠ pin.sha256) (.source (.digestMismatch pin.name))

/-- One round of the loop of `validate_stream_plan`. -/
def validatePlannedTensor (role : ModelRole) (tensor : ParsedTensor) : Streamed Unit := do
  let (kind, layer, ordinal) ←
    mapErr (fun e => .source (.header e)) (classifyTensorName role tensor.name)
  failIf (tensor.metadata.role ≠ role ∨ tensor.metadata.kind ≠ kind ∨
    tensor.metadata.layer ≠ layer ∨ tensor.ordinal ≠ ordinal ∨ tensor.metadata.dtype ≠ .bf16)
    (.invalidLayout "tensor name, role, dtype, or ordinal drifted")
  mapErr (fun _ => .invalidLayout "tensor shape drifted") tensor.metadata.validate
  let elements ← orErr (.arithmeticOverflow "tensor element count")
    (checkedMul 64 tensor.metadata.dimension0 tensor.metadata.dimension1)
  let expectedBytes ← orErr (.arithmeticOverflow "tensor byte length") (checkedMul 64 elements 2)
  let actualBytes ← orErr (.invalidLayout "reversed source range")
    (checkedSub tensor.stop tensor.start)
  failIf (actualBytes ≠ expectedBytes) (.invalidLayout "tensor byte length differs from shape")

/-- `validate_stream_plan` -/
def validateStreamPlan (role : ModelRole) (parsed : ParsedShard) (expectedTensorDataBytes : ℕ) :
    Streamed Unit := do
  failIf (parsed.tensorDataBytes ≠ expectedTensorDataBytes)
    (.invalidLayout "parsed tensor-data length drifted")
  mapErr (fun e => .source (.header e))
    (validateOffsetCoverage parsed.tensors expectedTensorDataBytes)
  parsed.tensors.foldlM (fun _ => validatePlannedTensor role) ()

/-- What the loop of `stream_file` keeps: the file, what was written, and the sections. -/
structure Progress where
  input : Input
  output : List UInt8
  destinationOffset : ℕ
  sections : List WeightSection

/-- One round of the loop of `stream_file`. -/
def streamTensor (pin : FilePin) (role : ModelRole) (dataBase : ℕ) (p : Progress)
    (tensor : ParsedTensor) : Streamed Progress := do
  let sourceLength ← orErr (.invalidLayout "reversed source range")
    (checkedSub tensor.stop tensor.start)
  let sourceOffset ← orErr (.arithmeticOverflow "source tensor offset")
    (checkedAdd 64 dataBase tensor.start)
  failIf (sourceOffset % 2 ≠ 0 ∨ p.destinationOffset % 2 ≠ 0 ∨ sourceLength % 2 ≠ 0)
    (.invalidLayout "BF16 section is not two-byte aligned")
  let destinationEnd ← orErr (.arithmeticOverflow "destination tensor offset")
    (checkedAdd 64 p.destinationOffset sourceLength)
  failIf (destinationEnd > role.tensorDataBytes)
    (.invalidLayout "destination tensor exceeds the role output bound")
  let (bytes, input) ← readExactSource pin p.input sourceLength
  return ⟨input, p.output ++ bytes, destinationEnd, p.sections ++ [{
    tensorName := tensor.name
    role
    dtype := tensor.metadata.dtype
    rank := .ofNat tensor.metadata.rank
    dimension0 := .ofNat tensor.metadata.dimension0
    dimension1 := .ofNat tensor.metadata.dimension1
    sourceArtifact := pin.name
    sourceOffset := .ofNat sourceOffset
    sourceLength := .ofNat sourceLength
    destinationOffset := .ofNat p.destinationOffset
    destinationLength := .ofNat sourceLength
    alignment := sectionAlignment
    transform := .bf16RowMajorIdentityV1
    sha256 := sha256 bytes }]⟩

/-- `stream_file`: the shard and its sections, and what was written so far and where. -/
def streamFile (file : List UInt8) (output : List UInt8) (pin : FilePin) (role : ModelRole)
    (destinationOffset : ℕ) (validateHeader : List UInt8 → ℕ → Outcome SourceError ParsedShard) :
    Streamed (ParsedShard × List WeightSection × List UInt8 × ℕ) := do
  let (lengthBytes, input) ← readExactSource pin ⟨[], file⟩ 8
  let headerBytes := ofLe lengthBytes
  failIf (headerBytes > maxSafetensorsHeaderBytes) (.source (.headerTooLarge pin.name headerBytes))
  failIf (headerBytes ≠ pin.headerBytes.toNat)
    (.source (.headerLength pin.name pin.headerBytes.toNat headerBytes))
  let (header, input) ← readExactSource pin input headerBytes
  let parsed ← mapErr .source (validateHeader header pin.tensorDataBytes.toNat)
  validateStreamPlan role parsed pin.tensorDataBytes.toNat
  let dataBase ← orErr (.arithmeticOverflow "source data offset") (checkedAdd 64 8 headerBytes)
  let sourceEnd ← orErr (.arithmeticOverflow "source file length")
    (checkedAdd 64 dataBase pin.tensorDataBytes.toNat)
  failIf (sourceEnd ≠ pin.fileBytes.toNat)
    (.invalidLayout "source header and tensor data do not cover the pinned file")
  let p ← parsed.tensors.foldlM (streamTensor sha256 pin role dataBase)
    ⟨input, output, destinationOffset, []⟩
  requireExactSourceEnd sha256 pin p.input
  return (parsed, p.sections, p.output, p.destinationOffset)

/-! ### All files -/

/-- `SafetensorsSource` -/
structure SafetensorsSource where
  name : String
  reader : List UInt8

/-- `require_shard_name` -/
def requireShardName (actual expected : String) : Outcome SourceError Unit :=
  failIf (actual ≠ expected) (.shardName expected actual)

/-- What the loop of `prepack_qwen3_target_weights` keeps. -/
structure Prepacking where
  parsedShards : List ParsedShard
  sections : List WeightSection
  output : List UInt8
  destinationOffset : ℕ

/-- One round of the loop of `prepack_qwen3_target_weights`. -/
def prepackShard (index : TargetIndex) (p : Prepacking)
    (entry : (SafetensorsSource × FilePin) × ℕ) : Streamed Prepacking := do
  let ((source, pin), shardIndex) := entry
  mapErr .source (requireShardName source.name pin.name)
  let (parsed, fileSections, output, destinationOffset) ←
    streamFile sha256 source.reader p.output pin .target8B p.destinationOffset
      fun header tensorDataBytes => do
        let shard ← mapErr .header (parseHeader .target8B pin.name header tensorDataBytes)
        validateShardMapping index shardIndex shard
        return shard
  return ⟨p.parsedShards ++ [parsed], p.sections ++ fileSections, output, destinationOffset⟩

/-- `prepack_qwen3_target_weights`: what was written, and the authority for it. -/
def prepackQwen3TargetWeights (indexJson : List UInt8) (shards : Vector SafetensorsSource 5) :
    Streamed (List UInt8 × PrepackedWeightSet) := do
  let index ← mapErr .source (parseTargetIndex sha256 indexJson true)
  let p ← (shards.toList.zip targetShardPins).zipIdx.foldlM (prepackShard sha256 index)
    ⟨[], [], [], 0⟩
  mapErr (fun e => .source (.header e)) (validateRoster .target8B p.parsedShards)
  let prepacked ← finishPrepacked sha256 .target8B (exactWeightDescriptor .target8B)
    (.ofNat p.destinationOffset) p.sections
  return (p.output, prepacked)

/-- `prepack_qwen3_draft_weights`: what was written, and the authority for it. -/
def prepackQwen3DraftWeights (source : SafetensorsSource) :
    Streamed (List UInt8 × PrepackedWeightSet) := do
  mapErr .source (requireShardName source.name draftFilePin.name)
  let (parsed, sections, output, destinationOffset) ←
    streamFile sha256 source.reader [] draftFilePin .draft06B 0 fun header tensorDataBytes =>
      mapErr .header (parseHeader .draft06B draftFilePin.name header tensorDataBytes)
  mapErr (fun e => .source (.header e)) (validateRoster .draft06B [parsed])
  let prepacked ← finishPrepacked sha256 .draft06B (exactWeightDescriptor .draft06B)
    (.ofNat destinationOffset) sections
  return (output, prepacked)

end Digest

end WeightStream

end Ferric
