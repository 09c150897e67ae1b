import Ferric.WeightStream.Stream
import Ferric.Sha256.Model
import Ferric.Lib.Action

/-!
# Streaming a file as its reader delivers it

`stream_file` as the code runs it: on a reader that returns the file in pieces, with errors between
them, through buffers of at most `STREAM_BUFFER_BYTES`, and with hashers that are fed piece by
piece. `WeightStream.streamFile` is the same pass over a file that is read in one piece.

A reader is given by what its calls of `read` find, one after the other. The output never fails.

## Main definitions

* `Event`, `Delivery` — what the calls of `read` find
* `Streaming` — what the pass over a file changes
* `Streaming.streamFile` — the pass
* `observe` — what the caller of `stream_file` sees
-/

namespace Ferric

namespace WeightStream

open Ferric.Action (query fail)
open Safetensors
open Spec (ModelRole)

/-! ### The reader -/

/-- What a call of `read` finds: a piece of the file, or an error. -/
inductive Event where
  | chunk (bytes : List UInt8) (nonempty : bytes ≠ [])
  | failure (kind : IoErrorKind)
  deriving DecidableEq

def Event.bytes : Event → List UInt8
  | .chunk bytes _ => bytes
  | .failure _ => []

/-- What a reader delivers before the end of the file. -/
abbrev Delivery := List Event

/-- The bytes before the end of the file. -/
def Delivery.bytes (d : Delivery) : List UInt8 := d.flatMap Event.bytes

/-- `Read::read` into a buffer of `capacity` bytes. What does not fit is delivered next. -/
def Delivery.read (capacity : ℕ) : Delivery → Except IoErrorKind (List UInt8) × Delivery
  | [] => (.ok [], [])
  | .failure kind :: d => (.error kind, d)
  | .chunk bytes _ :: d =>
    (.ok (bytes.take capacity),
      if h : bytes.drop capacity ≠ [] then .chunk (bytes.drop capacity) h :: d else d)

/-! ### Reading -/

/-- `STREAM_BUFFER_BYTES` -/
def streamBufferBytes : ℕ := 64 * 1024

/-- What `stream_file` changes: the reader, its `SourceStreamState`, and the caller's output and
offset. -/
structure Streaming where
  reader : Delivery
  hasher : Sha256
  total : ℕ
  output : List UInt8
  destinationOffset : ℕ

/-- A step of `stream_file`. -/
abbrev Step (α : Type) := Action Streaming WeightStreamError α

namespace Streaming

/-- Before the first read. -/
def start (d : Delivery) (output : List UInt8) (destinationOffset : ℕ) : Streaming :=
  { reader := d, hasher := Sha256.new, total := 0, output, destinationOffset }

/-- The branch of `read_exact_source` for bytes. -/
def takeIn (pin : FilePin) (read : List UInt8) : Step Unit := do
  let hasher ← query fun s => s.hasher.update read
  modify fun s => { s with hasher }
  let total ← query fun s =>
    orErr (.arithmeticOverflow "source byte count") (checkedAdd 64 s.total read.length)
  modify fun s => { s with total }
  Action.failIf (total > pin.fileBytes.toNat)
    (.source (.fileSize pin.name pin.fileBytes.toNat total))

/-- The loop of `read_exact_source`: what is in the buffer so far. -/
def readLoop (pin : FilePin) (length : ℕ) : ℕ → List UInt8 → Step (List UInt8)
  | 0, _ => throw .diverge
  | fuel + 1, buffer =>
    if buffer.length < length then do
      let s ← get
      let (answer, reader) := s.reader.read (length - buffer.length)
      modify fun s => { s with reader }
      match answer with
      | .ok [] => fail (.source (.earlyEof pin.name pin.fileBytes.toNat s.total))
      | .ok read => do
        takeIn pin read
        readLoop pin length fuel (buffer ++ read)
      | .error .interrupted => readLoop pin length fuel buffer
      | .error kind => fail (.source (.io pin.name kind))
    else return buffer

/-- `read_exact_source`: the filled buffer. -/
def readExactSource (pin : FilePin) (length : ℕ) : Step (List UInt8) := do
  let s ← get
  readLoop pin length (s.reader.length + 1) []

/-- `require_exact_source_end` -/
def requireExactSourceEnd (pin : FilePin) : Step Unit := do
  let s ← get
  let (answer, reader) := s.reader.read 1
  modify fun s => { s with reader }
  match answer with
  | .ok [] => pure ()
  | .ok _ => fail (.source (.trailingData pin.name))
  | .error kind => fail (.source (.io pin.name kind))
  Action.failIf (s.total ≠ pin.fileBytes.toNat)
    (.source (.fileSize pin.name pin.fileBytes.toNat s.total))
  let digest ← query fun s => s.hasher.finish
  Action.failIf (digest ≠ pin.sha256) (.source (.digestMismatch pin.name))

/-! ### One section -/

/-- The loop of `stream_section`: the hasher of the section. -/
def sectionLoop (pin : FilePin) : ℕ → ℕ → Sha256 → Step Sha256
  | 0, _, _ => throw .diverge
  | fuel + 1, remaining, sectionHasher =>
    if remaining ≠ 0 then do
      let chunk := min remaining streamBufferBytes
      let bytes ← readExactSource pin chunk
      let sectionHasher ← query fun _ => sectionHasher.update bytes
      modify fun s => { s with output := s.output ++ bytes }
      let remaining ← query fun _ =>
        orErr (.arithmeticOverflow "remaining bytes") (checkedSub remaining chunk)
      sectionLoop pin fuel remaining sectionHasher
    else return sectionHasher

/-- `stream_section` -/
def streamSection (pin : FilePin) (length : ℕ) : Step Digest := do
  let sectionHasher ← sectionLoop pin (length + 1) length Sha256.new
  query fun _ => sectionHasher.finish

/-- One round of the loop of `stream_file`: the sections so far. -/
def streamTensor (pin : FilePin) (role : ModelRole) (dataBase : ℕ) (sections : List WeightSection)
    (tensor : ParsedTensor) : Step (List WeightSection) := do
  let sourceLength ← query fun _ =>
    orErr (.invalidLayout "reversed source range") (checkedSub tensor.stop tensor.start)
  let sourceOffset ← query fun _ =>
    orErr (.arithmeticOverflow "source tensor offset") (checkedAdd 64 dataBase tensor.start)
  let destinationStart ← query fun s => .ok s.destinationOffset
  Action.failIf (sourceOffset % 2 ≠ 0 ∨ destinationStart % 2 ≠ 0 ∨ sourceLength % 2 ≠ 0)
    (.invalidLayout "BF16 section is not two-byte aligned")
  let destinationEnd ← query fun _ =>
    orErr (.arithmeticOverflow "destination tensor offset")
      (checkedAdd 64 destinationStart sourceLength)
  Action.failIf (destinationEnd > role.tensorDataBytes)
    (.invalidLayout "destination tensor exceeds the role output bound")
  let sectionSha256 ← streamSection pin sourceLength
  modify fun s => { s with destinationOffset := destinationEnd }
  return sections ++ [{
    tensorName := tensor.name
    role
    dtype := tensor.metadata.dtype
    rank := .ofNat tensor.metadata.rank
    dimension0 := .ofNat tensor.metadata.dimension0
    dimension1 := .ofNat tensor.metadata.dimension1
    sourceArtifact := pin.name
    sourceOffset := .ofNat sourceOffset
    sourceLength := .ofNat sourceLength
    destinationOffset := .ofNat destinationStart
    destinationLength := .ofNat sourceLength
    alignment := sectionAlignment
    transform := .bf16RowMajorIdentityV1
    sha256 := sectionSha256 }]

/-! ### One file -/

/-- `stream_file` before the header is validated: its length, and the header. -/
def streamHeader (pin : FilePin) : Step (ℕ × List UInt8) := do
  let lengthBytes ← readExactSource pin 8
  let headerBytes := ofLe lengthBytes
  Action.failIf (headerBytes > maxSafetensorsHeaderBytes)
    (.source (.headerTooLarge pin.name headerBytes))
  Action.failIf (headerBytes ≠ pin.headerBytes.toNat)
    (.source (.headerLength pin.name pin.headerBytes.toNat headerBytes))
  let header ← readExactSource pin headerBytes
  return (headerBytes, header)

/-- `stream_file` from the validation of the header to the end of the tensors. -/
def streamTensors (pin : FilePin) (role : ModelRole)
    (validateHeader : List UInt8 → ℕ → Outcome SourceError ParsedShard) (headerBytes : ℕ)
    (header : List UInt8) : Step (ParsedShard × List WeightSection) := do
  let parsed ← query fun _ =>
    mapErr .source (validateHeader header pin.tensorDataBytes.toNat)
  query fun _ => validateStreamPlan role parsed pin.tensorDataBytes.toNat
  let dataBase ← query fun _ =>
    orErr (.arithmeticOverflow "source data offset") (checkedAdd 64 8 headerBytes)
  let sourceEnd ← query fun _ =>
    orErr (.arithmeticOverflow "source file length")
      (checkedAdd 64 dataBase pin.tensorDataBytes.toNat)
  Action.failIf (sourceEnd ≠ pin.fileBytes.toNat)
    (.invalidLayout "source header and tensor data do not cover the pinned file")
  let sections ← parsed.tensors.foldlM (streamTensor pin role dataBase) []
  return (parsed, sections)

/-- `stream_file` -/
def streamFile (pin : FilePin) (role : ModelRole)
    (validateHeader : List UInt8 → ℕ → Outcome SourceError ParsedShard) :
    Step (ParsedShard × List WeightSection) := do
  let (headerBytes, header) ← streamHeader pin
  let result ← streamTensors pin role validateHeader headerBytes header
  requireExactSourceEnd pin
  return result

end Streaming

/-- What the caller of `stream_file` sees: the result, the bytes written, and the offset. -/
structure Observation where
  result : Outcome WeightStreamError (ParsedShard × List WeightSection)
  output : List UInt8
  destinationOffset : ℕ

/-- `stream_file` on a reader, from what was written and the offset before. -/
def observe (pin : FilePin) (role : ModelRole)
    (validateHeader : List UInt8 → ℕ → Outcome SourceError ParsedShard) (output : List UInt8)
    (destinationOffset : ℕ) (d : Delivery) : Observation :=
  let (result, s) := (Streaming.streamFile pin role validateHeader).exec
    (.start d output destinationOffset)
  { result, output := s.output, destinationOffset := s.destinationOffset }

end WeightStream

end Ferric
