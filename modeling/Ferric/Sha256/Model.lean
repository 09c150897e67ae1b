import Ferric.Lib.Arrays
import Ferric.Lib.Packet

/-!
# The streaming hasher

`sha256.rs` of the build crate: `update` takes in a piece of the message and `finish` gives the
digest. Whole blocks are compressed straight from the input when nothing is buffered, and everything
else goes byte by byte through a buffer of one block.

## Conventions

* The specification functions and the proofs in the source are not modelled, only its executable
  code.
* `usize` and `u64` are natural numbers. Sums and products that the code checks are checked here,
  and an index outside its array, a sum outside its type and a failed `expect` are panics.
* A `while` loop over indices of an array is `fill`, or a fold over the indices where it changes
  more than an array. The outer loop of `update` gets one round of fuel for each byte of its input.
-/

namespace Ferric

variable {ε : Type}

/-- `Sha256` -/
structure Sha256 where
  state : Vector UInt32 8
  buffer : Vector UInt8 64
  buffered : ℕ
  byteLen : ℕ

namespace Sha256

/-- `INITIAL_STATE` -/
def initialState : Vector UInt32 8 :=
  #v[0x6a09e667, 0xbb67ae85, 0x3c6ef372, 0xa54ff53a,
    0x510e527f, 0x9b05688c, 0x1f83d9ab, 0x5be0cd19]

/-- `ROUND_CONSTANTS` -/
def roundConstants : Vector UInt32 64 :=
  #v[0x428a2f98, 0x71374491, 0xb5c0fbcf, 0xe9b5dba5, 0x3956c25b, 0x59f111f1, 0x923f82a4, 0xab1c5ed5,
    0xd807aa98, 0x12835b01, 0x243185be, 0x550c7dc3, 0x72be5d74, 0x80deb1fe, 0x9bdc06a7, 0xc19bf174,
    0xe49b69c1, 0xefbe4786, 0x0fc19dc6, 0x240ca1cc, 0x2de92c6f, 0x4a7484aa, 0x5cb0a9dc, 0x76f988da,
    0x983e5152, 0xa831c66d, 0xb00327c8, 0xbf597fc7, 0xc6e00bf3, 0xd5a79147, 0x06ca6351, 0x14292967,
    0x27b70a85, 0x2e1b2138, 0x4d2c6dfc, 0x53380d13, 0x650a7354, 0x766a0abb, 0x81c2c92e, 0x92722c85,
    0xa2bfe8a1, 0xa81a664b, 0xc24b8b70, 0xc76c51a3, 0xd192e819, 0xd6990624, 0xf40e3585, 0x106aa070,
    0x19a4c116, 0x1e376c08, 0x2748774c, 0x34b0bcb5, 0x391c0cb3, 0x4ed8aa4a, 0x5b9cca4f, 0x682e6ff3,
    0x748f82ee, 0x78a5636f, 0x84c87814, 0x8cc70208, 0x90befffa, 0xa4506ceb, 0xbef9a3f7, 0xc67178f2]

/-- `rotate_right`, for `0 < count < 32` -/
def rotateRight (value count : UInt32) : UInt32 :=
  let complementaryCount := 32 - count
  (value >>> count) ^^^ (value <<< complementaryCount)

/-- `Sha256::new` -/
def new : Sha256 :=
  { state := initialState, buffer := .replicate 64 0, buffered := 0, byteLen := 0 }

/-! ### Compression -/

/-- The value of the first loop of `compress`. -/
def inputWord (block : Vector UInt8 64) (index : ℕ) : Outcome ε UInt32 := do
  let offset := index * 4
  return ((← entry block offset).toUInt32 <<< 24) ||| ((← entry block (offset + 1)).toUInt32 <<< 16)
    ||| ((← entry block (offset + 2)).toUInt32 <<< 8) ||| (← entry block (offset + 3)).toUInt32

/-- The value of the second loop of `compress`. -/
def expandedWord (schedule : Vector UInt32 64) (index : ℕ) : Outcome ε UInt32 := do
  let w15 ← entry schedule (← orPanic (checkedSub index 15))
  let sigma0 := rotateRight w15 7 ^^^ rotateRight w15 18 ^^^ (w15 >>> 3)
  let w2 ← entry schedule (← orPanic (checkedSub index 2))
  let sigma1 := rotateRight w2 17 ^^^ rotateRight w2 19 ^^^ (w2 >>> 10)
  let w16 ← entry schedule (← orPanic (checkedSub index 16))
  let w7 ← entry schedule (← orPanic (checkedSub index 7))
  return w16 + sigma0 + w7 + sigma1

/-- The local variables of `compress`. -/
structure Working where
  stateA : UInt32
  stateB : UInt32
  stateC : UInt32
  stateD : UInt32
  stateE : UInt32
  stateF : UInt32
  stateG : UInt32
  stateH : UInt32

/-- One pass of the third loop of `compress`. -/
def round (schedule : Vector UInt32 64) (s : Working) (index : ℕ) : Outcome ε Working := do
  let sum1 := rotateRight s.stateE 6 ^^^ rotateRight s.stateE 11 ^^^ rotateRight s.stateE 25
  let choice := (s.stateE &&& s.stateF) ^^^ (~~~s.stateE &&& s.stateG)
  let temporary1 := s.stateH + sum1 + choice + (← entry roundConstants index) +
    (← entry schedule index)
  let sum0 := rotateRight s.stateA 2 ^^^ rotateRight s.stateA 13 ^^^ rotateRight s.stateA 22
  let majority :=
    (s.stateA &&& s.stateB) ^^^ (s.stateA &&& s.stateC) ^^^ (s.stateB &&& s.stateC)
  let temporary2 := sum0 + majority
  return {
    stateH := s.stateG
    stateG := s.stateF
    stateF := s.stateE
    stateE := s.stateD + temporary1
    stateD := s.stateC
    stateC := s.stateB
    stateB := s.stateA
    stateA := temporary1 + temporary2 }

/-- `compress` -/
def compress (hasher : Sha256) (block : Vector UInt8 64) : Outcome ε Sha256 := do
  let schedule ← fill (fun _ => inputWord block) 0 16 (.replicate 64 0)
  let schedule ← fill expandedWord 16 48 schedule
  let start : Working :=
    { stateA := hasher.state[0], stateB := hasher.state[1], stateC := hasher.state[2]
      stateD := hasher.state[3], stateE := hasher.state[4], stateF := hasher.state[5]
      stateG := hasher.state[6], stateH := hasher.state[7] }
  let s ← (List.range 64).foldlM (round schedule) start
  let values : Vector UInt32 8 :=
    #v[s.stateA, s.stateB, s.stateC, s.stateD, s.stateE, s.stateF, s.stateG, s.stateH]
  let state ← fill (fun state index => return (← entry state index) + (← entry values index))
    0 8 hasher.state
  return { hasher with state }

/-! ### Input -/

/-- One pass of the loop that copies into the buffer. -/
def bufferByte (bytes : List UInt8) (hasher : Sha256) (offset : ℕ) : Outcome ε Sha256 := do
  let bufferIndex := hasher.buffered
  let buffer ← put hasher.buffer bufferIndex (← orPanic bytes[offset]?)
  let buffered := hasher.buffered + 1
  let hasher := { hasher with buffer, buffered }
  if hasher.buffered = 64 then
    let block := hasher.buffer
    let hasher ← hasher.compress block
    return { hasher with buffered := 0 }
  else return hasher

/-- The outer loop of `update`. -/
def updateLoop (bytes : List UInt8) : ℕ → Sha256 → ℕ → Outcome ε Sha256
  | 0, hasher, offset => if offset < bytes.length then .error .diverge else .ok hasher
  | fuel + 1, hasher, offset =>
    if offset < bytes.length then
      if hasher.buffered = 0 ∧ bytes.length - offset ≥ 64 then do
        let block ← fill (fun _ index => orPanic bytes[offset + index]?) 0 64 (.replicate 64 0)
        let hasher ← hasher.compress block
        let offset ← orPanic (checkedAdd 64 offset 64)
        updateLoop bytes fuel hasher offset
      else do
        let remaining := bytes.length - offset
        let toBoundary ← orPanic (checkedSub 64 hasher.buffered)
        let take := if remaining < toBoundary then remaining else toBoundary
        let stop ← orPanic (checkedAdd 64 offset take)
        let hasher ← (List.range' offset (stop - offset)).foldlM (bufferByte bytes) hasher
        updateLoop bytes fuel hasher stop
    else .ok hasher

/-- `update` -/
def update (hasher : Sha256) (bytes : List UInt8) : Outcome ε Sha256 := do
  let additional := bytes.length
  let byteLen ← orPanic (checkedAdd 64 hasher.byteLen additional)
  updateLoop bytes additional { hasher with byteLen } 0

/-! ### The digest -/

/-- `u8::try_from(value).expect(..)` -/
def byteOf (value : ℕ) : Outcome ε UInt8 :=
  if value < 256 then .ok (.ofNat value) else .error .panic

/-- A byte of the last blocks. -/
def tailByte (hasher : Sha256) (bitLen tailLen index : ℕ) : Outcome ε UInt8 := do
  if index < hasher.buffered then entry hasher.buffer index
  else if index = hasher.buffered then return 0x80
  else if index < tailLen - 8 then return 0
  else
    let lengthIndex := index - (tailLen - 8)
    let shift ← orPanic (checkedSub 56 (lengthIndex * 8))
    let lengthByte := (bitLen >>> shift) % 256
    byteOf lengthByte

/-- A byte of the digest. -/
def digestByte (state : Vector UInt32 8) (index : ℕ) : Outcome ε UInt8 := do
  let word ← entry state (index / 4)
  if index % 4 = 0 then byteOf ((word >>> 24) % 256).toNat
  else if index % 4 = 1 then byteOf ((word >>> 16) % 256).toNat
  else if index % 4 = 2 then byteOf ((word >>> 8) % 256).toNat
  else byteOf (word % 256).toNat

/-- `finish` -/
def finish (hasher : Sha256) : Outcome ε (Block 32) := do
  let bitLen ← orPanic (checkedMul 64 hasher.byteLen 8)
  let tailLen := if hasher.buffered < 56 then 64 else 128
  let tail ← fill (fun _ => tailByte hasher bitLen tailLen) 0 tailLen (.replicate 128 0)
  let block ← fill (fun _ => entry tail) 0 64 (.replicate 64 0)
  let hasher ← hasher.compress block
  let hasher ←
    if tailLen = 128 then do
      let block ← fill (fun _ index => entry tail (64 + index)) 0 64 block
      hasher.compress block
    else pure hasher
  let digest ← fill (fun _ => digestByte hasher.state) 0 32 (.replicate 32 0)
  return ⟨digest.toList, by simp⟩

/-- `digest` -/
def digest (bytes : List UInt8) : Outcome ε (Block 32) := do
  let hasher ← new.update bytes
  hasher.finish

end Sha256

end Ferric
