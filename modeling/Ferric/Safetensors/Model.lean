import Ferric.Json.Model
import Ferric.Lib.Decimal
import Ferric.Spec.Qwen3
import Mathlib.Data.List.Sort

/-!
# Safetensors headers

`safetensors.rs` of the build crate, from the bytes of a header to an admitted set of shards. A
header is a JSON object with one member for each tensor; names are classified against the schema of
the role, byte ranges against the shape and against each other, and the shards together against the
roster of the role.

## Conventions

* An object's fields are the entries of a sorted map, as in `Json.Value`, and `Fields` is the map
  with what has been taken out of it removed.
* The two sets of `validate_roster` are lists: a name or ordinal is added only when it is new.
* The reason in `invalidJson` is the parser's error kind and not the text of it.
-/

namespace Ferric

namespace Safetensors

open Json (Value)
open Spec (ModelRole TensorKind TensorMetadata TensorError noLayer)

/-- `MAX_SAFETENSORS_HEADER_BYTES` -/
def maxSafetensorsHeaderBytes : ℕ := 64 * 1024

/-- `u32::MAX` -/
def u32Max : ℕ := 2 ^ 32 - 1

/-- `u64::MAX` -/
def u64Max : ℕ := 2 ^ 64 - 1

/-- Why a header or a set of shards is rejected. -/
inductive SafetensorsError where
  | artifactSize (artifact : String)
  | invalidJson (artifact : String) (offset : ℕ) (reason : Json.ErrorKind)
  | missingField (artifact field : String)
  | unknownField (artifact field : String)
  | wrongType (artifact field : String)
  | unexpectedValue (artifact field : String)
  | invalidTensorName (tensor : String)
  | unexpectedDType (tensor : String)
  | tensorSchema (tensor : String) (error : TensorError)
  | tensorSizeOverflow (tensor : String)
  | tensorByteLength (tensor : String)
  | invalidOffsetRange (tensor : String)
  | offsetGap (expected actual : ℕ)
  | offsetOverlap (expected actual : ℕ)
  | tensorDataBytes (expected actual : ℕ)
  | tensorCount (expected actual : ℕ)
  | tensorOrder (expected actual : ℕ)
  | duplicateTensor (tensor : String)
  deriving DecidableEq

abbrev Result (α : Type) := Outcome SafetensorsError α

structure ParsedTensor where
  name : String
  start : ℕ
  stop : ℕ
  ordinal : ℕ
  metadata : TensorMetadata

structure ParsedShard where
  tensors : List ParsedTensor
  tensorDataBytes : ℕ

/-! ### JSON values -/

def parseJson (artifact : String) (bytes : List UInt8) (maxBytes : ℕ) : Result Value := do
  failIf (bytes = [] ∨ bytes.length > maxBytes) (.artifactSize artifact)
  mapErr (fun error => .invalidJson artifact error.offset error.kind) (Json.parse bytes)

def object (artifact field : String) : Value → Result (List (String × Value))
  | .object fields => .ok fields
  | _ => .error (.err (.wrongType artifact field))

/-- `number_u32` and `number_u64`, by their bound. -/
def number (bound : ℕ) (artifact field : String) : Value → Result ℕ
  | .number text => orErr (.unexpectedValue artifact field) (parseUnsigned bound text.toList)
  | _ => .error (.err (.wrongType artifact field))

/-- `u32_array` and `u64_array`, by their bound. -/
def numberArray (bound : ℕ) (artifact field : String) : Value → Result (List ℕ)
  | .array values => values.mapM (number bound artifact field)
  | _ => .error (.err (.wrongType artifact field))

def u32Array : String → String → Value → Result (List ℕ) := numberArray (2 ^ 32)

def u64Array : String → String → Value → Result (List ℕ) := numberArray (2 ^ 64)

/-- The fields of an object that have not been taken yet. -/
structure Fields where
  artifact : String
  fields : List (String × Value)

namespace Fields

def take (f : Fields) (field : String) : Result (Value × Fields) := do
  let value ← orErr (.missingField f.artifact field) (lookupEntry field f.fields)
  return (value, { f with fields := f.fields.filter (·.1 ≠ field) })

def string (f : Fields) (field : String) : Result (String × Fields) := do
  let (value, f) ← f.take field
  match value with
  | .string value => return (value, f)
  | _ => .error (.err (.wrongType f.artifact field))

def expectString (f : Fields) (field expected : String) : Result Fields := do
  let (value, f) ← f.string field
  failIf (value ≠ expected) (.unexpectedValue f.artifact field)
  return f

def finish (f : Fields) : Result Unit :=
  match f.fields with
  | [] => .ok ()
  | (field, _) :: _ => .error (.err (.unknownField f.artifact field))

end Fields

/-! ### Names -/

/-- `str::strip_prefix` -/
def stripStart (start text : List Char) : Option (List Char) :=
  if start.isPrefixOf text then some (text.drop start.length) else none

/-- `str::split_once` -/
def splitOnce (c : Char) : List Char → Option (List Char × List Char)
  | [] => none
  | x :: text =>
    if x = c then some ([], text) else (splitOnce c text).map fun (a, b) => (x :: a, b)

def globalKind? (name : String) : Option TensorKind :=
  if name = "lm_head.weight" then some .languageModelHead
  else if name = "model.embed_tokens.weight" then some .tokenEmbedding
  else if name = "model.norm.weight" then some .finalNorm
  else none

def globalOrdinal : ModelRole → TensorKind → ℕ
  | .target8B, .tokenEmbedding => 0
  | .draft06B, .languageModelHead => 0
  | .target8B, .finalNorm => 397
  | .target8B, .languageModelHead => 398
  | .draft06B, .tokenEmbedding => 1
  | .draft06B, .finalNorm => 310
  | _, _ => u32Max

/-- The kinds of a layer by the end of their names, in the order of their ordinals. -/
def layerSuffixes : List (String × TensorKind) :=
  [("input_layernorm.weight", .inputLayerNorm), ("mlp.down_proj.weight", .downProjection),
    ("mlp.gate_proj.weight", .gateProjection), ("mlp.up_proj.weight", .upProjection),
    ("post_attention_layernorm.weight", .postAttentionLayerNorm),
    ("self_attn.k_norm.weight", .keyNorm), ("self_attn.k_proj.weight", .keyProjection),
    ("self_attn.o_proj.weight", .outputProjection), ("self_attn.q_norm.weight", .queryNorm),
    ("self_attn.q_proj.weight", .queryProjection), ("self_attn.v_proj.weight", .valueProjection)]

/-- The kind and ordinal of the end of a name. -/
def layerKind? (suffix : String) : Option (TensorKind × ℕ) :=
  (layerSuffixes.zipIdx.find? fun entry => entry.1.1 = suffix).map fun entry => (entry.1.2, entry.2)

/-- The first ordinal of layer 0. -/
def layerBase : ModelRole → ℕ
  | .target8B => 1
  | .draft06B => 2

/-- The kind, layer and ordinal of a name. -/
def classifyTensorName (role : ModelRole) (name : String) : Result (TensorKind × ℕ × ℕ) :=
  match globalKind? name with
  | some kind => .ok (kind, noLayer, globalOrdinal role kind)
  | none => do
    let layerSuffix ←
      orErr (.invalidTensorName name) (stripStart "model.layers.".toList name.toList)
    let (layerText, suffix) ← orErr (.invalidTensorName name) (splitOnce '.' layerSuffix)
    let layer ← orErr (.invalidTensorName name) (parseUnsigned (2 ^ 32) layerText)
    failIf ((toString layer).toList ≠ layerText) (.invalidTensorName name)
    let (kind, kindOrdinal) ← orErr (.invalidTensorName name) (layerKind? (String.ofList suffix))
    failIf (layer ≥ role.layers) (.tensorSchema name .unexpectedLayer)
    return (kind, layer, layerBase role + layer * 11 + kindOrdinal)

/-! ### Headers -/

/-- `u32::try_from(..).unwrap_or(u32::MAX)` -/
def saturateU32 (n : ℕ) : ℕ := if n < 2 ^ 32 then n else u32Max

def parseTensor (role : ModelRole) (artifact name : String) (value : Value) :
    Result ParsedTensor := do
  let (kind, layer, ordinal) ← classifyTensorName role name
  let object ← object artifact name value
  let fields : Fields := { artifact, fields := object }
  let (dtype, fields) ← fields.string "dtype"
  failIf (dtype ≠ "BF16") (.unexpectedDType name)
  let (shape, fields) ← fields.take "shape"
  let shape ← u32Array artifact (name ++ ".shape") shape
  let (offsets, fields) ← fields.take "data_offsets"
  let offsets ← u64Array artifact (name ++ ".data_offsets") offsets
  fields.finish
  match offsets with
  | [start, stop] =>
    failIf (stop ≤ start) (.invalidOffsetRange name)
    let metadata : TensorMetadata :=
      { role, kind, layer, dtype := .bf16, rank := saturateU32 shape.length
        dimension0 := shape[0]?.getD 1, dimension1 := shape[1]?.getD 1 }
    let expectedBytes ← orErr (.tensorSizeOverflow name) (shape.foldlM (checkedMul 64) 2)
    mapErr (.tensorSchema name) metadata.validate
    failIf (stop - start ≠ expectedBytes) (.tensorByteLength name)
    return { name, start, stop, ordinal, metadata }
  | _ => .error (.err (.unexpectedValue artifact (name ++ ".data_offsets")))

/-- The loop of `validate_offset_coverage`: where the next tensor has to start. -/
def coverageFrom : ℕ → List ParsedTensor → Result ℕ
  | expected, [] => .ok expected
  | expected, tensor :: tensors => do
    failIf (tensor.start > expected) (.offsetGap expected tensor.start)
    failIf (tensor.start < expected) (.offsetOverlap expected tensor.start)
    coverageFrom tensor.stop tensors

def validateOffsetCoverage (tensors : List ParsedTensor) (expectedTensorDataBytes : ℕ) :
    Result Unit := do
  let expected ← coverageFrom 0 tensors
  failIf (expected ≠ expectedTensorDataBytes) (.tensorDataBytes expectedTensorDataBytes expected)

def parseHeader (role : ModelRole) (artifact : String) (bytes : List UInt8)
    (expectedTensorDataBytes : ℕ) : Result ParsedShard := do
  let value ← parseJson artifact bytes maxSafetensorsHeaderBytes
  let tensors ← object artifact "$" value
  let (metadataValue, tensors) ← Fields.take { artifact, fields := tensors } "__metadata__"
  let metadata ← object artifact "__metadata__" metadataValue
  let metadata ← Fields.expectString { artifact, fields := metadata } "format" "pt"
  metadata.finish
  let parsed ← tensors.fields.mapM fun entry => parseTensor role artifact entry.1 entry.2
  let parsed := parsed.mergeSort fun a b => a.start ≤ b.start
  validateOffsetCoverage parsed expectedTensorDataBytes
  return { tensors := parsed, tensorDataBytes := expectedTensorDataBytes }

/-! ### The roster -/

/-- What `validate_roster` has seen. -/
structure Seen where
  names : List String
  ordinals : List ℕ
  tensorDataBytes : ℕ

/-- The inner loop of `validate_roster`. -/
def Seen.addTensor (seen : Seen) (tensor : ParsedTensor) : Result Seen := do
  failIf (tensor.name ∈ seen.names) (.duplicateTensor tensor.name)
  failIf (tensor.ordinal ∈ seen.ordinals) (.tensorOrder u32Max tensor.ordinal)
  return { seen with names := seen.names ++ [tensor.name],
                     ordinals := seen.ordinals ++ [tensor.ordinal] }

/-- The outer loop of `validate_roster`. -/
def Seen.addShard (role : ModelRole) (seen : Seen) (shard : ParsedShard) : Result Seen := do
  let total ← orErr (.tensorDataBytes role.tensorDataBytes u64Max)
    (checkedAdd 64 seen.tensorDataBytes shard.tensorDataBytes)
  shard.tensors.foldlM Seen.addTensor { seen with tensorDataBytes := total }

def validateOrdinals (ordinals : List ℕ) (expectedCount : ℕ) : Result Unit :=
  (List.range expectedCount).foldlM (fun _ expected =>
    failIf (expected ∉ ordinals) (.tensorOrder expected u32Max)) ()

def validateRoster (role : ModelRole) (shards : List ParsedShard) : Result Unit := do
  let seen ← shards.foldlM (Seen.addShard role)
    { names := [], ordinals := [], tensorDataBytes := 0 }
  let actualCount := saturateU32 seen.names.length
  failIf (actualCount ≠ role.tensorCount) (.tensorCount role.tensorCount actualCount)
  validateOrdinals seen.ordinals role.tensorCount
  failIf (seen.tensorDataBytes ≠ role.tensorDataBytes)
    (.tensorDataBytes role.tensorDataBytes seen.tensorDataBytes)

/-- The header of a shard, with the length of its tensor data. -/
structure Header where
  artifact : String
  bytes : List UInt8
  tensorDataBytes : ℕ

/-- What the two `authenticate` functions do with headers: parse each, then compare all of them with
the roster. -/
def admitHeaders (role : ModelRole) (headers : List Header) : Result (List ParsedShard) := do
  let shards ← headers.mapM fun header =>
    parseHeader role header.artifact header.bytes header.tensorDataBytes
  validateRoster role shards
  return shards

end Safetensors

end Ferric
