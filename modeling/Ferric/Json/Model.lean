import Ferric.Lib.BTreeMap
import Ferric.Lib.Outcome
import Ferric.Lib.Utf8
import Mathlib.Data.String.Basic

/-!
# The strict JSON parser

`json.rs` of the build crate: a recursive-descent parser over bytes that every model config,
tokenizer and tensor header goes through. Strings are decoded, numbers are kept as their text,
objects with two members of one name are rejected, and so is nesting deeper than `maxDepth`.

## Conventions

* A method takes the parser by value and returns the moved one with its result.
* `value`, `array`, `object` and the loops of the last two are mutually recursive on fuel; the
  loop over a string's bytes has fuel of its own. Running out is `Fault.diverge`.
* An object's fields are the sorted entries of the `BTreeMap` of the source.
-/

namespace Ferric

namespace Json

/-- `MAX_DEPTH` -/
def maxDepth : ℕ := 32

/-- A parsed value. -/
inductive Value where
  | null
  | bool (b : Bool)
  | number (text : String)
  | string (s : String)
  | array (values : List Value)
  | object (fields : List (String × Value))

/-- Why a text is rejected. -/
inductive ErrorKind where
  | duplicateField (field : String)
  | invalidEscape
  | invalidNumber
  | invalidUnicode
  | nestingLimit
  | trailingData
  | unexpectedByte
  | unexpectedEnd
  deriving DecidableEq

/-- A rejection and where it happened. -/
structure Error where
  offset : ℕ
  kind : ErrorKind
  deriving DecidableEq

/-- The byte of an ASCII character. -/
def ascii (c : Char) : UInt8 := c.val.toUInt8

/-- `b' ' | b'\n' | b'\r' | b'\t'` -/
def isWhitespace (byte : UInt8) : Bool :=
  byte = ascii ' ' ∨ byte = ascii '\n' ∨ byte = ascii '\r' ∨ byte = ascii '\t'

/-- `u8::is_ascii_digit` -/
def isDigit (byte : UInt8) : Bool := ascii '0' ≤ byte ∧ byte ≤ ascii '9'

/-- The escapes of one letter. -/
def simpleEscape? (byte : UInt8) : Option UInt8 :=
  if byte = ascii '"' then some (ascii '"')
  else if byte = ascii '\\' then some (ascii '\\')
  else if byte = ascii '/' then some (ascii '/')
  else if byte = ascii 'b' then some 0x08
  else if byte = ascii 'f' then some 0x0c
  else if byte = ascii 'n' then some (ascii '\n')
  else if byte = ascii 'r' then some (ascii '\r')
  else if byte = ascii 't' then some (ascii '\t')
  else none

/-- The value of a hexadecimal digit of either case. -/
def hexDigit? (byte : UInt8) : Option ℕ :=
  if ascii '0' ≤ byte ∧ byte ≤ ascii '9' then some (byte - ascii '0').toNat
  else if ascii 'a' ≤ byte ∧ byte ≤ ascii 'f' then some ((byte - ascii 'a').toNat + 10)
  else if ascii 'A' ≤ byte ∧ byte ≤ ascii 'F' then some ((byte - ascii 'A').toNat + 10)
  else none

/-- `char::from_u32` -/
def charFromU32 (n : ℕ) : Option Char := if n.isValidChar then some (Char.ofNat n) else none

/-- The input and the position in it. -/
structure Parser where
  bytes : List UInt8
  offset : ℕ

namespace Parser

variable {α : Type}

/-- `Err(self.error(kind))` -/
def fail (p : Parser) (kind : ErrorKind) : Outcome Error α :=
  .error (.err { offset := p.offset, kind })

def peek (p : Parser) : Option UInt8 := p.bytes[p.offset]?

/-- `self.offset += n` -/
def advance (p : Parser) (n : ℕ) : Parser := { p with offset := p.offset + n }

def take (p : Parser) : Option UInt8 × Parser :=
  match p.peek with
  | none => (none, p)
  | some byte => (some byte, p.advance 1)

/-- `while self.peek().is_some_and(f) { self.offset += 1; }` -/
def skipWhile (p : Parser) (f : UInt8 → Bool) : Parser :=
  p.advance ((p.bytes.drop p.offset).takeWhile f).length

def skipWhitespace (p : Parser) : Parser := p.skipWhile isWhitespace

def literal (p : Parser) (literal : List UInt8) : Outcome Error Parser :=
  if (p.bytes.drop p.offset).take literal.length ≠ literal then p.fail .unexpectedByte
  else .ok (p.advance literal.length)

/-! ### Strings -/

/-- The loop of `hex_quad`. The value has four digits at most and does not overflow. -/
def hexDigits : ℕ → ℕ → Parser → Outcome Error (ℕ × Parser)
  | 0, value, p => .ok (value, p)
  | n + 1, value, p =>
    match p.take with
    | (none, p) => p.fail .unexpectedEnd
    | (some byte, p) =>
      match hexDigit? byte with
      | none => p.fail .invalidEscape
      | some digit => hexDigits n (value * 16 + digit) p

def hexQuad (p : Parser) : Outcome Error (ℕ × Parser) := hexDigits 4 0 p

/-- Append the encoding of a scalar. -/
def pushScalar (p : Parser) (decoded : List UInt8) (scalar : ℕ) :
    Outcome Error (List UInt8 × Parser) :=
  match charFromU32 scalar with
  | none => p.fail .invalidUnicode
  | some character => .ok (decoded ++ String.utf8EncodeChar character, p)

/-- The second half of a surrogate pair. -/
def lowSurrogate (p : Parser) (decoded : List UInt8) (first : ℕ) :
    Outcome Error (List UInt8 × Parser) :=
  match p.take with
  | (some backslash, p) =>
    if backslash ≠ ascii '\\' then p.fail .invalidUnicode
    else
      match p.take with
      | (some u, p) =>
        if u ≠ ascii 'u' then p.fail .invalidUnicode
        else do
          let (second, p) ← p.hexQuad
          if ¬ (0xdc00 ≤ second ∧ second ≤ 0xdfff) then p.fail .invalidUnicode
          else p.pushScalar decoded (0x10000 + (first - 0xd800) * 2 ^ 10 + (second - 0xdc00))
      | (none, p) => p.fail .invalidUnicode
  | (none, p) => p.fail .invalidUnicode

def unicodeEscape (p : Parser) (decoded : List UInt8) : Outcome Error (List UInt8 × Parser) := do
  let (first, p) ← p.hexQuad
  if 0xd800 ≤ first ∧ first ≤ 0xdbff then p.lowSurrogate decoded first
  else if 0xdc00 ≤ first ∧ first ≤ 0xdfff then p.fail .invalidUnicode
  else p.pushScalar decoded first

def escape (p : Parser) (decoded : List UInt8) : Outcome Error (List UInt8 × Parser) :=
  match p.take with
  | (none, p) => p.fail .unexpectedEnd
  | (some byte, p) =>
    match simpleEscape? byte with
    | some out => .ok (decoded ++ [out], p)
    | none => if byte = ascii 'u' then p.unicodeEscape decoded else p.fail .invalidEscape

/-- The loop of `string`. -/
def stringLoop : ℕ → Parser → List UInt8 → Outcome Error (String × Parser)
  | 0, _, _ => .error .diverge
  | fuel + 1, p, decoded =>
    match p.take with
    | (none, p) => p.fail .unexpectedEnd
    | (some byte, p) =>
      if byte = ascii '"' then
        match fromUtf8 decoded with
        | none => p.fail .invalidUnicode
        | some s => .ok (s, p)
      else if byte = ascii '\\' then do
        let (decoded, p) ← p.escape decoded
        stringLoop fuel p decoded
      else if byte ≤ 0x1f then p.fail .invalidUnicode
      else stringLoop fuel p (decoded ++ [byte])

def string (p : Parser) : Outcome Error (String × Parser) :=
  match p.take with
  | (some byte, p') =>
    if byte = ascii '"' then stringLoop (p.bytes.length + 1) p' [] else p'.fail .unexpectedByte
  | (none, p') => p'.fail .unexpectedByte

/-! ### Numbers -/

def digits (p : Parser) : Outcome Error Parser :=
  let q := p.skipWhile isDigit
  if q.offset = p.offset then q.fail .invalidNumber else .ok q

/-- The integer part: `0`, or a digit other than `0` and more digits. -/
def integer (p : Parser) : Outcome Error Parser :=
  match p.take with
  | (none, p) => p.fail .invalidNumber
  | (some byte, p) =>
    if byte = ascii '0' then
      if p.peek.any isDigit then p.fail .invalidNumber else .ok p
    else if ascii '1' ≤ byte ∧ byte ≤ ascii '9' then .ok (p.skipWhile isDigit)
    else p.fail .invalidNumber

/-- The optional fraction. -/
def fraction (p : Parser) : Outcome Error Parser :=
  if p.peek = some (ascii '.') then (p.advance 1).digits else .ok p

/-- The optional exponent. -/
def exponent (p : Parser) : Outcome Error Parser :=
  if p.peek.any fun byte => byte = ascii 'e' ∨ byte = ascii 'E' then
    let p := p.advance 1
    let p := if p.peek.any fun byte => byte = ascii '+' ∨ byte = ascii '-' then p.advance 1 else p
    p.digits
  else .ok p

/-- `self.bytes[start..end]`, which panics outside the input. -/
def slice? (p : Parser) (start stop : ℕ) : Option (List UInt8) :=
  if start ≤ stop ∧ stop ≤ p.bytes.length then some ((p.bytes.drop start).take (stop - start))
  else none

def number (p : Parser) : Outcome Error (String × Parser) := do
  let start := p.offset
  let p := if p.peek = some (ascii '-') then p.advance 1 else p
  let p ← p.integer
  let p ← p.fraction
  let p ← p.exponent
  let text ← orPanic (p.slice? start p.offset)
  match fromUtf8 text with
  | none => p.fail .invalidNumber
  | some s => return (s, p)

/-! ### Values -/

mutual

def value : ℕ → Parser → ℕ → Outcome Error (Value × Parser)
  | 0, _, _ => .error .diverge
  | fuel + 1, p, depth =>
    if depth > maxDepth then p.fail .nestingLimit
    else
      match p.peek with
      | none => p.fail .unexpectedEnd
      | some byte =>
        if byte = ascii 'n' then do
          let p ← p.literal (utf8 "null".toList)
          return (.null, p)
        else if byte = ascii 't' then do
          let p ← p.literal (utf8 "true".toList)
          return (.bool true, p)
        else if byte = ascii 'f' then do
          let p ← p.literal (utf8 "false".toList)
          return (.bool false, p)
        else if byte = ascii '"' then do
          let (s, p) ← p.string
          return (.string s, p)
        else if byte = ascii '[' then array fuel p (depth + 1)
        else if byte = ascii '\x7b' then object fuel p (depth + 1)
        else if byte = ascii '-' ∨ isDigit byte then do
          let (text, p) ← p.number
          return (.number text, p)
        else p.fail .unexpectedByte

def array : ℕ → Parser → ℕ → Outcome Error (Value × Parser)
  | 0, _, _ => .error .diverge
  | fuel + 1, p, depth =>
    let p := (p.advance 1).skipWhitespace
    if p.peek = some (ascii ']') then .ok (.array [], p.advance 1)
    else elements fuel p depth []

/-- The loop of `array`. -/
def elements : ℕ → Parser → ℕ → List Value → Outcome Error (Value × Parser)
  | 0, _, _, _ => .error .diverge
  | fuel + 1, p, depth, values => do
    let (v, p) ← value fuel p depth
    match p.skipWhitespace.take with
    | (none, p) => p.fail .unexpectedEnd
    | (some byte, p) =>
      if byte = ascii ',' then elements fuel p.skipWhitespace depth (values ++ [v])
      else if byte = ascii ']' then .ok (.array (values ++ [v]), p)
      else p.fail .unexpectedByte

def object : ℕ → Parser → ℕ → Outcome Error (Value × Parser)
  | 0, _, _ => .error .diverge
  | fuel + 1, p, depth =>
    let p := (p.advance 1).skipWhitespace
    if p.peek = some (ascii '\x7d') then .ok (.object [], p.advance 1)
    else members fuel p depth []

/-- The loop of `object`. -/
def members : ℕ → Parser → ℕ → List (String × Value) → Outcome Error (Value × Parser)
  | 0, _, _, _ => .error .diverge
  | fuel + 1, p, depth, fields =>
    if p.peek ≠ some (ascii '"') then p.fail .unexpectedByte
    else do
      let (key, p) ← p.string
      match p.skipWhitespace.take with
      | (none, p) => p.fail .unexpectedByte
      | (some colon, p) =>
        if colon ≠ ascii ':' then p.fail .unexpectedByte
        else do
          let (v, p) ← value fuel p.skipWhitespace depth
          -- `fields.insert(key.clone(), value).is_some()`
          if (lookupEntry key fields).isSome then p.fail (.duplicateField key)
          else
            let fields := insertEntry key v fields
            match p.skipWhitespace.take with
            | (none, p) => p.fail .unexpectedEnd
            | (some byte, p) =>
              if byte = ascii ',' then members fuel p.skipWhitespace depth fields
              else if byte = ascii '\x7d' then .ok (.object fields, p)
              else p.fail .unexpectedByte

end

end Parser

/-- Parse a whole text. -/
def parse (bytes : List UInt8) : Outcome Error Value := do
  let p : Parser := { bytes, offset := 0 }
  let (v, p) ← Parser.value (3 * bytes.length + 1) p.skipWhitespace 0
  let p := p.skipWhitespace
  if p.offset ≠ bytes.length then p.fail .trailingData else return v

end Json

end Ferric
