import Ferric.Json.Model
import Mathlib.Data.Prod.Lex

/-!
# The tokenizer

`tokenizer_execution.rs` of the build crate: a byte-level BPE program built from the strings of a
vocabulary and a merge list, and its bounded `encode` and `decode_to_bytes`.

## Conventions

* Normalisation and the split regex are outside the crate. `nfc` is a parameter, and the compiled
  regex of a program is the function that lists the byte ranges of its matches.
* A method that charges work or appends to an output takes both and returns them.
* Loops over a slice by index run over the list of what is left; `encode` and `run_bpe`, whose
  loops move by more than one element, run on fuel.
* `usize` is 64 bits wide. Reserving memory always succeeds.
-/

namespace Ferric

namespace Tokenizer

/-- `BASE_VOCABULARY_SIZE` -/
def baseVocabularySize : ℕ := 151643

/-- `ORDERED_LOOKUP_COMPARISONS` -/
def orderedLookupComparisons : ℕ := 128

/-- `MAX_TOKENIZER_INPUT_BYTES` -/
def maxTokenizerInputBytes : ℕ := 32 * 1024

/-- `MAX_TOKENIZER_OUTPUT_TOKENS` -/
def maxTokenizerOutputTokens : ℕ := 8192

/-- `MAX_TOKENIZER_OUTPUT_BYTES` -/
def maxTokenizerOutputBytes : ℕ := 128 * 1024

/-- `MAX_TOKENIZER_WORK` -/
def maxTokenizerWork : ℕ := 16 * 1024 * 1024

/-- `MAX_TOKENIZER_NORMALIZED_BYTES` -/
def maxTokenizerNormalizedBytes : ℕ := 128 * 1024

/-- `usize::MAX` -/
def usizeMax : ℕ := 2 ^ 64 - 1

/-- `ADDED_TOKENS`: the content of a token, and whether it is special. -/
def addedTokens : List (String × Bool) :=
  [("<|endoftext|>", true), ("<|im_start|>", true), ("<|im_end|>", true),
    ("<|object_ref_start|>", true), ("<|object_ref_end|>", true), ("<|box_start|>", true),
    ("<|box_end|>", true), ("<|quad_start|>", true), ("<|quad_end|>", true),
    ("<|vision_start|>", true), ("<|vision_end|>", true), ("<|vision_pad|>", true),
    ("<|image_pad|>", true), ("<|video_pad|>", true), ("<tool_call>", false),
    ("</tool_call>", false), ("<|fim_prefix|>", false), ("<|fim_middle|>", false),
    ("<|fim_suffix|>", false), ("<|fim_pad|>", false), ("<|repo_name|>", false),
    ("<|file_sep|>", false), ("<tool_response>", false), ("</tool_response>", false),
    ("<think>", false), ("</think>", false)]

/-- `QWEN3_SPLIT_REGEX` -/
def qwen3SplitRegex : String :=
  "(?i:'s|'t|'re|'ve|'m|'ll|'d)|[^\\r\\n\\p\x7bL\x7d\\p\x7bN\x7d]?\\p\x7bL\x7d+|\\p\x7bN\x7d|" ++
    " ?[^\\s\\p\x7bL\x7d\\p\x7bN\x7d]+[\\r\\n]*|\\s*[\\r\\n]+|\\s+(?!\\S)|\\s+"

/-- Bounds of one call. -/
structure TokenizerExecutionLimits where
  inputBytes : ℕ
  tokens : ℕ
  outputBytes : ℕ
  work : ℕ
  deriving DecidableEq

/-- What `encode` does with a special token in its input. -/
inductive SpecialTokenEncodePolicy where
  | reject
  | allow
  deriving DecidableEq

/-- What `decode_to_bytes` does with the id of a special token. -/
inductive SpecialTokenDecodePolicy where
  | preserve
  | skip
  deriving DecidableEq

/-- Why a call fails. -/
inductive TokenizerExecutionError where
  | invalidLimits
  | inputTooLarge (limit actual : ℕ)
  | normalizedInputTooLarge (limit actual : ℕ)
  | specialTokenForbidden (tokenId : ℕ)
  | tokenLimit (limit actual : ℕ)
  | outputByteLimit (limit : ℕ)
  | workLimit (limit : ℕ)
  | arithmeticOverflow
  | unknownTokenId (tokenId : ℕ)
  deriving DecidableEq

/-- Why a program cannot be built. -/
inductive TokenizerProgramConstructionError where
  | arithmeticOverflow
  | invalidVocabulary
  | regex
  deriving DecidableEq

abbrev Result (α : Type) := Outcome TokenizerExecutionError α

/-- The largest limits. -/
def TokenizerExecutionLimits.m1 : TokenizerExecutionLimits :=
  { inputBytes := maxTokenizerInputBytes, tokens := maxTokenizerOutputTokens,
    outputBytes := maxTokenizerOutputBytes, work := maxTokenizerWork }

def TokenizerExecutionLimits.validate (limits : TokenizerExecutionLimits) : Result Unit :=
  failIf (limits.inputBytes = 0 ∨ limits.inputBytes > maxTokenizerInputBytes ∨ limits.tokens = 0 ∨
    limits.tokens > maxTokenizerOutputTokens ∨ limits.outputBytes = 0 ∨
    limits.outputBytes > maxTokenizerOutputBytes ∨ limits.work = 0 ∨
    limits.work > maxTokenizerWork) .invalidLimits

/-! ### Work -/

/-- Finite operations charged to one call. -/
structure WorkBudget where
  used : ℕ
  limit : ℕ
  deriving DecidableEq

def WorkBudget.new (limit : ℕ) : WorkBudget := { used := 0, limit }

def WorkBudget.charge (work : WorkBudget) (amount : ℕ) : Result WorkBudget := do
  let used ← orErr (.workLimit work.limit) (checkedAdd 64 work.used amount)
  failIf (used > work.limit) (.workLimit work.limit)
  return { work with used }

def chargeOrderedLookup (work : WorkBudget) (leftBytes rightBytes : ℕ) : Result WorkBudget := do
  let pairBytes ← orErr .arithmeticOverflow (checkedAdd 64 leftBytes rightBytes)
  let charged ← orErr .arithmeticOverflow (checkedMul 64 (max pairBytes 1) orderedLookupComparisons)
  work.charge charged

/-! ### The alphabet of bytes -/

def byteToUnicodeCodepoint (byte : UInt8) : ℕ :=
  if (0x21 ≤ byte ∧ byte ≤ 0x7e) ∨ (0xa1 ≤ byte ∧ byte ≤ 0xac) ∨ 0xae ≤ byte then byte.toNat
  else if byte ≤ 0x20 then 256 + byte.toNat
  else if 0x7f ≤ byte ∧ byte ≤ 0xa0 then byte.toNat + 162
  else 323

/-- `u8::try_from(..).ok()` -/
def u8TryFrom (n : ℕ) : Option UInt8 := if n < 256 then some (UInt8.ofNat n) else none

def unicodeCodepointToByte (codepoint : ℕ) : Option UInt8 :=
  if codepoint ≤ 0xff ∧ ((0x21 ≤ codepoint ∧ codepoint ≤ 0x7e) ∨
      (0xa1 ≤ codepoint ∧ codepoint ≤ 0xac) ∨ 0xae ≤ codepoint) then u8TryFrom codepoint
  else if 256 ≤ codepoint ∧ codepoint ≤ 288 then u8TryFrom (codepoint - 256)
  else if 289 ≤ codepoint ∧ codepoint ≤ 322 then u8TryFrom (codepoint - 162)
  else if codepoint = 323 then some 0xad
  else none

def byteToUnicode (byte : UInt8) : Option Char := Json.charFromU32 (byteToUnicodeCodepoint byte)

def unicodeToByte (symbol : Char) : Option UInt8 := unicodeCodepointToByte symbol.toNat

/-! ### Programs -/

/-- An added token. -/
structure AddedTokenProgram where
  bytes : List UInt8
  special : Bool
  tokenId : ℕ
  deriving DecidableEq

/-- Ids of pairs and of what they merge to. -/
abbrev MergeRanks := BTreeMap (ℕ ×ₗ ℕ) (ℕ × ℕ)

/-- The numeric program. -/
structure TokenizerExecutionProgram where
  byteTokenIds : List ℕ
  vocabularyBytes : List (List UInt8)
  mergeRanks : MergeRanks
  addedTokens : List AddedTokenProgram

/-- The byte ranges of a regex's matches in a text, in order. -/
abbrev Regex := String → List (ℕ × ℕ)

structure TokenizerProgram where
  execution : TokenizerExecutionProgram
  splitRegex : Regex

/-- The id of a token is its position; a string that occurs twice has the last one. -/
def collectTokenIds (vocabulary : List String) :
    Outcome TokenizerProgramConstructionError (BTreeMap String ℕ) :=
  vocabulary.zipIdx.foldlM (fun tokenIds (token, id) => do
    failIf (2 ^ 32 ≤ id) .arithmeticOverflow
    return tokenIds.insert token id) BTreeMap.empty

/-- The id of the symbol of a byte. -/
def byteTokenId (tokenIds : BTreeMap String ℕ) (byte : UInt8) :
    Outcome TokenizerProgramConstructionError ℕ := do
  let symbol ← orErr .invalidVocabulary (byteToUnicode byte)
  orErr .invalidVocabulary (tokenIds.get? (String.singleton symbol))

/-- The bytes of a token of the vocabulary. -/
def vocabularyTokenBytes (token : String) :
    Outcome TokenizerProgramConstructionError (List UInt8) :=
  token.toList.mapM fun symbol => orErr .invalidVocabulary (unicodeToByte symbol)

/-- Add one rule of the merge list. -/
def addMerge (tokenIds : BTreeMap String ℕ) (mergeRanks : MergeRanks)
    (rule : (String × String) × ℕ) : Outcome TokenizerProgramConstructionError MergeRanks := do
  let ((left, right), rank) := rule
  let leftId ← orErr .invalidVocabulary (tokenIds.get? left)
  let rightId ← orErr .invalidVocabulary (tokenIds.get? right)
  let _capacity ← orErr .arithmeticOverflow
    (checkedAdd 64 (utf8 left.toList).length (utf8 right.toList).length)
  let resultId ← orErr .invalidVocabulary (tokenIds.get? (left ++ right))
  return mergeRanks.insert (toLex (leftId, rightId)) (rank, resultId)

/-- The program of an added token. Its id is the sum of two small constants and fits `u32`. -/
def addedTokenProgram (entry : (String × Bool) × ℕ) : AddedTokenProgram :=
  { bytes := utf8 entry.1.1.toList, special := entry.1.2, tokenId := baseVocabularySize + entry.2 }

/-- `compile` is the constructor of the regex engine. -/
def TokenizerProgram.new (compile : String → Option Regex) (vocabulary : List String)
    (merges : List (String × String)) :
    Outcome TokenizerProgramConstructionError TokenizerProgram := do
  let tokenIds ← collectTokenIds vocabulary
  let byteTokenIds ← (List.range 256).mapM fun byte => byteTokenId tokenIds (UInt8.ofNat byte)
  let vocabularyBytes ← vocabulary.mapM vocabularyTokenBytes
  let mergeRanks ← merges.zipIdx.foldlM (addMerge tokenIds) BTreeMap.empty
  let addedTokens := addedTokens.zipIdx.map addedTokenProgram
  let splitRegex ← orErr .regex (compile qwen3SplitRegex)
  return { execution := { byteTokenIds, vocabularyBytes, mergeRanks, addedTokens }, splitRegex }

/-! ### Added tokens -/

/-- Where an added token was found. -/
structure AddedTokenMatch where
  start : ℕ
  offset : ℕ
  tokenId : ℕ
  deriving DecidableEq

/-- `bytes_match_at`, at the front of what is left. -/
def bytesMatch (rest pattern : List UInt8) : Bool := pattern.isPrefixOf rest

/-- The body of the inner loop of `reject_forbidden_special`. -/
def rejectIfMatch (rest : List UInt8) (work : WorkBudget) (added : AddedTokenProgram) :
    Result WorkBudget :=
  if ¬ added.special then .ok work
  else do
    let work ← work.charge added.bytes.length
    failIf (bytesMatch rest added.bytes) (.specialTokenForbidden added.tokenId)
    return work

def rejectForbiddenSpecial (addedTokens : List AddedTokenProgram) :
    List UInt8 → WorkBudget → Result WorkBudget
  | [], work => .ok work
  | byte :: rest, work => do
    let work ← work.charge 1
    if byte ≠ 0x3c then rejectForbiddenSpecial addedTokens rest work
    else do
      let work ← addedTokens.foldlM (rejectIfMatch (byte :: rest)) work
      rejectForbiddenSpecial addedTokens rest work

/-- The body of the inner loop of `find_added_token`: keep the longest match, and the first of
equally long ones. -/
def betterMatch (addedTokens : List AddedTokenProgram) (start : ℕ) (rest : List UInt8)
    (state : Option AddedTokenMatch × WorkBudget) (entry : AddedTokenProgram × ℕ) :
    Result (Option AddedTokenMatch × WorkBudget) := do
  let (best, work) := state
  let (added, offset) := entry
  let work ← work.charge added.bytes.length
  if ¬ bytesMatch rest added.bytes then return (best, work)
  else do
    let candidate : AddedTokenMatch := { start, offset, tokenId := added.tokenId }
    match best with
    | none => return (some candidate, work)
    | some current =>
      let other ← orPanic addedTokens[current.offset]?
      if added.bytes.length > other.bytes.length ∨
          (added.bytes.length = other.bytes.length ∧ offset < current.offset) then
        return (some candidate, work)
      else return (best, work)

/-- The loop of `find_added_token` over the start of a match. -/
def findFrom (addedTokens : List AddedTokenProgram) :
    ℕ → List UInt8 → WorkBudget → Result (Option AddedTokenMatch × WorkBudget)
  | _, [], work => .ok (none, work)
  | start, byte :: rest, work => do
    let work ← work.charge 1
    if byte = 0x3c then do
      let (best, work) ←
        addedTokens.zipIdx.foldlM (betterMatch addedTokens start (byte :: rest)) (none, work)
      if best.isSome then return (best, work)
      else findFrom addedTokens (start + 1) rest work
    else findFrom addedTokens (start + 1) rest work

def findAddedToken (input : List UInt8) (cursor : ℕ) (addedTokens : List AddedTokenProgram)
    (work : WorkBudget) : Result (Option AddedTokenMatch × WorkBudget) :=
  findFrom addedTokens cursor (input.drop cursor) work

def pushToken (output : List ℕ) (token limit : ℕ) : Result (List ℕ) := do
  let actual ← orErr (.tokenLimit limit usizeMax) (checkedAdd 64 output.length 1)
  failIf (actual > limit) (.tokenLimit limit actual)
  return output ++ [token]

def emitAddedToken (added : AddedTokenProgram) (policy : SpecialTokenEncodePolicy)
    (output : List ℕ) (limit : ℕ) : Result (ℕ × List ℕ) := do
  failIf (policy = .reject ∧ added.special) (.specialTokenForbidden added.tokenId)
  let output ← pushToken output added.tokenId limit
  return (added.bytes.length, output)

/-! ### Merging -/

/-- A rule that applies. -/
structure MergeSelection where
  rank : ℕ
  left : ℕ
  right : ℕ
  resultId : ℕ
  deriving DecidableEq

def selectionFromRule (left right : ℕ) (rule : Option (ℕ × ℕ)) : Option MergeSelection :=
  rule.map fun rule => { rank := rule.1, left, right, resultId := rule.2 }

/-- The lower rank, and the first of equal ones. -/
def preferMerge : Option MergeSelection → Option MergeSelection → Option MergeSelection
  | none, candidate => candidate
  | current, none => current
  | some current, some candidate =>
    if candidate.rank < current.rank then some candidate else some current

/-- The loop of `select_merge` over adjacent symbols. -/
def selectMergeFrom (mergeRanks : MergeRanks) :
    List ℕ → Option MergeSelection → WorkBudget → Result (Option MergeSelection × WorkBudget)
  | left :: right :: rest, best, work => do
    let work ← chargeOrderedLookup work 4 4
    let candidate := selectionFromRule left right (mergeRanks.get? (toLex (left, right)))
    selectMergeFrom mergeRanks (right :: rest) (preferMerge best candidate) work
  | _, best, work => .ok (best, work)

def selectMerge (symbols : List ℕ) (mergeRanks : MergeRanks) (work : WorkBudget) :
    Result (Option MergeSelection × WorkBudget) :=
  selectMergeFrom mergeRanks symbols none work

/-- The loop of `apply_merge`. -/
def applyMergeFrom (selection : MergeSelection) :
    List ℕ → List ℕ → WorkBudget → Result (List ℕ × WorkBudget)
  | [], merged, work => .ok (merged, work)
  | [symbol], merged, work => do
    let work ← work.charge 1
    return (merged ++ [symbol], work)
  | symbol :: next :: rest, merged, work => do
    let work ← work.charge 1
    if symbol = selection.left ∧ next = selection.right then
      applyMergeFrom selection rest (merged ++ [selection.resultId]) work
    else applyMergeFrom selection (next :: rest) (merged ++ [symbol]) work

def applyMerge (symbols : List ℕ) (selection : MergeSelection) (work : WorkBudget) :
    Result (List ℕ × WorkBudget) :=
  applyMergeFrom selection symbols [] work

/-- The loop of `run_bpe`. -/
def runBpeLoop (mergeRanks : MergeRanks) :
    ℕ → List ℕ → WorkBudget → Result (List ℕ × WorkBudget)
  | 0, _, _ => .error .diverge
  | fuel + 1, symbols, work =>
    if symbols.length > 1 then do
      let (selection, work) ← selectMerge symbols mergeRanks work
      match selection with
      | none => return (symbols, work)
      | some selection =>
        let (symbols, work) ← applyMerge symbols selection work
        runBpeLoop mergeRanks fuel symbols work
    else .ok (symbols, work)

def runBpe (initial : List ℕ) (mergeRanks : MergeRanks) (work : WorkBudget) :
    Result (List ℕ × WorkBudget) :=
  runBpeLoop mergeRanks (initial.length + 1) initial work

/-! ### Encoding -/

/-- The symbols of a piece, one for each byte. -/
def pieceSymbols (program : TokenizerExecutionProgram) :
    List UInt8 → List ℕ → WorkBudget → Result (List ℕ × WorkBudget)
  | [], symbols, work => .ok (symbols, work)
  | byte :: rest, symbols, work => do
    let work ← work.charge 1
    let id ← orPanic program.byteTokenIds[byte.toNat]?
    pieceSymbols program rest (symbols ++ [id]) work

def TokenizerExecutionProgram.encodePiece (program : TokenizerExecutionProgram)
    (piece : List UInt8) (limits : TokenizerExecutionLimits) (work : WorkBudget)
    (output : List ℕ) : Result (WorkBudget × List ℕ) := do
  let (symbols, work) ← pieceSymbols program piece [] work
  let (merged, work) ← runBpe symbols program.mergeRanks work
  let output ← merged.foldlM (fun output token => pushToken output token limits.tokens) output
  return (work, output)

/-- `&slice[start..end]`, which panics outside the slice. -/
def slice? {α : Type} (l : List α) (start stop : ℕ) : Option (List α) :=
  if start ≤ stop ∧ stop ≤ l.length then some ((l.drop start).take (stop - start)) else none

/-- The loop that collects the normalised characters. -/
def collectNormalized (state : List Char × WorkBudget) (symbol : Char) :
    Result (List Char × WorkBudget) := do
  let (normalized, work) := state
  let work ← work.charge 1
  let actual ← orErr .arithmeticOverflow
    (checkedAdd 64 (utf8 normalized).length (String.utf8EncodeChar symbol).length)
  failIf (actual > maxTokenizerNormalizedBytes)
    (.normalizedInputTooLarge maxTokenizerNormalizedBytes actual)
  return (normalized ++ [symbol], work)

/-- The text before a match, if there is any. -/
def encodeGap (program : TokenizerExecutionProgram) (normalized : List UInt8)
    (limits : TokenizerExecutionLimits) (previous start : ℕ) (work : WorkBudget)
    (output : List ℕ) : Result (WorkBudget × List ℕ) :=
  if previous ≠ start then do
    let gap ← orPanic (slice? normalized previous start)
    program.encodePiece gap limits work output
  else .ok (work, output)

/-- The loop over the matches of the regex. -/
def encodeMatches (program : TokenizerExecutionProgram) (normalized : List UInt8)
    (limits : TokenizerExecutionLimits) :
    List (ℕ × ℕ) → ℕ → WorkBudget → List ℕ → Result (ℕ × WorkBudget × List ℕ)
  | [], previous, work, output => .ok (previous, work, output)
  | (start, stop) :: rest, previous, work, output => do
    let amount ← orErr .arithmeticOverflow (checkedSub stop previous)
    let work ← work.charge amount
    let (work, output) ← encodeGap program normalized limits previous start work output
    let piece ← orPanic (slice? normalized start stop)
    let (work, output) ← program.encodePiece piece limits work output
    encodeMatches program normalized limits rest stop work output

def TokenizerProgram.encodeNormalText (nfc : String → String) (program : TokenizerProgram)
    (input : String) (limits : TokenizerExecutionLimits) (work : WorkBudget) (output : List ℕ) :
    Result (WorkBudget × List ℕ) := do
  let (normalized, work) ← (nfc input).toList.foldlM collectNormalized ([], work)
  let bytes := utf8 normalized
  let (previous, work, output) ← encodeMatches program.execution bytes limits
    (program.splitRegex (String.ofList normalized)) 0 work output
  if previous ≠ bytes.length then do
    let amount ← orErr .arithmeticOverflow (checkedSub bytes.length previous)
    let work ← work.charge amount
    let piece ← orPanic (slice? bytes previous bytes.length)
    program.execution.encodePiece piece limits work output
  else return (work, output)

/-- `str::is_char_boundary`: the byte at the index is not a continuation byte. -/
def isCharBoundary (bytes : List UInt8) (index : ℕ) : Bool :=
  if index = 0 then true
  else match bytes[index]? with
    | none => index = bytes.length
    | some byte => byte.toNat < 0x80 ∨ 0xc0 ≤ byte.toNat

/-- `&input[start..end]` of a string, which panics inside a character. -/
def strSlice? (bytes : List UInt8) (start stop : ℕ) : Option String :=
  if isCharBoundary bytes start ∧ isCharBoundary bytes stop then
    (slice? bytes start stop).bind fromUtf8
  else none

/-- The loop of `encode`. -/
def encodeLoop (nfc : String → String) (program : TokenizerProgram) (input : List UInt8)
    (limits : TokenizerExecutionLimits) (specialTokens : SpecialTokenEncodePolicy) :
    ℕ → ℕ → WorkBudget → List ℕ → Result (List ℕ)
  | 0, _, _, _ => .error .diverge
  | fuel + 1, cursor, work, output =>
    if cursor < input.length then do
      let (next, work) ← findAddedToken input cursor program.execution.addedTokens work
      let normalEnd := (next.map (·.start)).getD input.length
      let segment ← orPanic (strSlice? input cursor normalEnd)
      let (work, output) ← program.encodeNormalText nfc segment limits work output
      match next with
      | none => return output
      | some found =>
        let added ← orPanic program.execution.addedTokens[found.offset]?
        let (addedLen, output) ← emitAddedToken added specialTokens output limits.tokens
        let cursor ← orErr .arithmeticOverflow (checkedAdd 64 found.start addedLen)
        encodeLoop nfc program input limits specialTokens fuel cursor work output
    else .ok output

/-- Under `Reject`, no special token may occur anywhere. -/
def applyEncodePolicy (specialTokens : SpecialTokenEncodePolicy) (bytes : List UInt8)
    (addedTokens : List AddedTokenProgram) (work : WorkBudget) : Result WorkBudget :=
  if specialTokens = .reject then rejectForbiddenSpecial addedTokens bytes work else .ok work

def TokenizerProgram.encode (nfc : String → String) (program : TokenizerProgram) (input : String)
    (limits : TokenizerExecutionLimits) (specialTokens : SpecialTokenEncodePolicy) :
    Result (List ℕ) := do
  limits.validate
  let bytes := utf8 input.toList
  failIf (bytes.length > limits.inputBytes) (.inputTooLarge limits.inputBytes bytes.length)
  let work := WorkBudget.new limits.work
  let work ← applyEncodePolicy specialTokens bytes program.execution.addedTokens work
  encodeLoop nfc program bytes limits specialTokens (bytes.length + 1) 0 work []

/-! ### Decoding -/

def pushByte (output : List UInt8) (byte : UInt8) (limit : ℕ) : Result (List UInt8) := do
  failIf (output.length ≥ limit) (.outputByteLimit limit)
  return output ++ [byte]

def appendDecodedBytes (bytes : List UInt8) (work : WorkBudget) (output : List UInt8)
    (limit : ℕ) : Result (WorkBudget × List UInt8) :=
  bytes.foldlM (fun (work, output) byte => do
    let work ← work.charge 1
    let output ← pushByte output byte limit
    return (work, output)) (work, output)

/-- The body of the loop of `decode_to_bytes`. -/
def decodeToken (program : TokenizerExecutionProgram) (limits : TokenizerExecutionLimits)
    (specialTokens : SpecialTokenDecodePolicy) (state : WorkBudget × List UInt8) (tokenId : ℕ) :
    Result (WorkBudget × List UInt8) := do
  let (work, output) := state
  let work ← work.charge 1
  if tokenId < baseVocabularySize then do
    let bytes ← orErr (.unknownTokenId tokenId) program.vocabularyBytes[tokenId]?
    appendDecodedBytes bytes work output limits.outputBytes
  else do
    let added ← orErr (.unknownTokenId tokenId)
      program.addedTokens[tokenId - baseVocabularySize]?
    if specialTokens = .skip ∧ added.special then return (work, output)
    else appendDecodedBytes added.bytes work output limits.outputBytes

def TokenizerExecutionProgram.decodeToBytes (program : TokenizerExecutionProgram)
    (tokenIds : List ℕ) (limits : TokenizerExecutionLimits)
    (specialTokens : SpecialTokenDecodePolicy) : Result (List UInt8) := do
  limits.validate
  failIf (tokenIds.length > limits.tokens) (.tokenLimit limits.tokens tokenIds.length)
  let (_, output) ←
    tokenIds.foldlM (decodeToken program limits specialTokens) (WorkBudget.new limits.work, [])
  return output

end Tokenizer

end Ferric
