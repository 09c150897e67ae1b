import Ferric.Lib.Decimal
import Ferric.Lib.Outcome
import Ferric.Lib.Utf8

/-!
# The collector's environment

`r33_wire.rs`: an action of the serving collector is bound to a context that is read from the
reserved variables of the environment of the command.

## Conventions

* The JSON library is a parameter: the type of its values, its parser and its two printers.
* The environment is a function from names to values. A value that is not Unicode is kept as bytes.
* `u64`s are natural numbers.
-/

namespace Ferric

namespace R33

/-- `M1R33WireErrorV1`, as far as the environment is concerned. -/
inductive WireError where
  | environment (name : String)
  | context (name : String)
  | json
  | nonCanonicalPayload
  | payloadTooLarge
  deriving DecidableEq

abbrev Result (α : Type) := Outcome WireError α

/-- `OsString` -/
inductive OsString where
  | unicode (text : String)
  | bytes (bytes : List UInt8)
  deriving DecidableEq

/-- An environment. -/
abbrev Environment := String → Option OsString

/-- The JSON library. -/
structure Serde (Value : Type) where
  /-- `serde_json::from_str` -/
  fromStr : String → Option Value
  /-- `serde_json::to_string` -/
  toString : Value → Option String
  /-- `serde_json::to_vec_pretty` -/
  toVecPretty : Value → Option (List UInt8)

/-- `M1R33ActionV1` -/
inductive Action where
  | start
  | ready
  | measure
  | stop
  deriving DecidableEq

/-- `M1R33ActionV1::as_str` -/
def Action.asStr : Action → String
  | .start => "start"
  | .ready => "ready"
  | .measure => "measure"
  | .stop => "stop"

/-- `M1R33ActionV1::parse` -/
def Action.parse (value : String) : Result Action :=
  if value = "start" then .ok .start
  else if value = "ready" then .ok .ready
  else if value = "measure" then .ok .measure
  else if value = "stop" then .ok .stop
  else .error (.err (.context "action"))

/-- `M1R33WorkV1` -/
structure Work where
  inputTokens : ℕ
  outputTokens : ℕ
  successfulRequests : ℕ
  totalTokens : ℕ
  deriving DecidableEq

/-- `M1R33CollectorRowV1` -/
structure CollectorRow where
  expectedWork : Work
  id : String
  ordinal : ℕ
  phase : String
  serverStart : ℕ
  window : ℕ
  deriving DecidableEq

/-- `M1R33SlotV1` -/
structure Slot where
  hardwareConfigurationSha256 : String
  hardwareSha256 : String
  id : String
  target : String
  deriving DecidableEq

/-- `M1R33CollectorContextV1` -/
structure CollectorContext (Value : Type) where
  action : Action
  commandSha256 : String
  engine : String
  engineOrder : List String
  implementation : Value
  policySha256 : String
  row : Option CollectorRow
  serverInstanceSha256 : Option String
  serverStart : ℕ
  slot : Slot
  target : String
  deriving DecidableEq

/-! ### Checks of single values -/

/-- `M1_R33_TARGET_V1` -/
def r33Target : String := "gfx942:xnack-"

/-- `M1_R33_MAX_REQUESTS_PER_WINDOW_V1` -/
def maxRequestsPerWindow : ℕ := 32

/-- `M1_R33_WINDOWS_PER_START_V1` -/
def windowsPerStart : ℕ := 20

/-- `M1_R33_MAX_WIRE_PAYLOAD_BYTES_V1` -/
def maxWirePayloadBytes : ℕ := 8 * 1024 * 1024

/-- `require_sha256` -/
def requireSha256 (value name : String) : Result Unit :=
  let bytes := utf8 value.toList
  failIf (bytes.length ≠ 64 ∨ ¬ bytes.all fun byte =>
    (0x30 ≤ byte ∧ byte ≤ 0x39) ∨ (0x61 ≤ byte ∧ byte ≤ 0x66)) (.context name)

/-- `require_ascii_token` -/
def requireAsciiToken (value : String) (maximum : ℕ) (name : String) : Result Unit :=
  let bytes := utf8 value.toList
  failIf (bytes = [] ∨ bytes.length > maximum ∨ ¬ bytes.all fun byte =>
    0x21 ≤ byte ∧ byte ≤ 0x7e ∧ byte ≠ 0x2f ∧ byte ≠ 0x5c) (.context name)

/-- `parse_u64` -/
def parseU64 (value name : String) : Result ℕ := do
  let text := value.toList
  failIf (text = [] ∨ (text.length > 1 ∧ text.head? = some '0')) (.context name)
  orErr (.context name) (parseUnsigned (2 ^ 64) text)

/-- `OsString::into_string`, with an error for other values. -/
def intoString (error : WireError) : OsString → Result String
  | .unicode text => .ok text
  | .bytes _ => .error (.err error)

/-- `optional_unicode` -/
def optionalUnicode (value : Option OsString) (name : String) : Result (Option String) :=
  match value with
  | some value => return some (← intoString (.environment name) value)
  | none => return none

/-- `required_unicode` -/
def requiredUnicode (env : Environment) (name : String) : Result String := do
  let value ← orErr (.environment name) (env name)
  intoString (.environment name) value

/-! ### Contexts -/

/-- `M1R33WorkV1::validate` -/
def Work.validate (w : Work) : Result Unit :=
  failIf (w.inputTokens = 0 ∨ w.outputTokens = 0 ∨ w.successfulRequests = 0 ∨
    w.successfulRequests > maxRequestsPerWindow ∨
    checkedAdd 64 w.inputTokens w.outputTokens ≠ some w.totalTokens) (.context "expected work")

/-- `M1R33CollectorRowV1::validate` -/
def CollectorRow.validate (r : CollectorRow) : Result Unit := do
  r.expectedWork.validate
  requireAsciiToken r.id 256 "row id"
  failIf ((r.phase ≠ "warmup" ∧ r.phase ≠ "recorded") ∨ r.serverStart ≥ 3 ∨ r.window ≥ 10)
    (.context "row coordinates")
  let first ← orPanic (checkedMul 64 r.serverStart windowsPerStart)
  let localOrdinal ← orErr (.context "row ordinal") (checkedSub r.ordinal first)
  let expectedPhase := if localOrdinal < 10 then "warmup" else "recorded"
  failIf (localOrdinal ≥ windowsPerStart ∨ r.phase ≠ expectedPhase ∨ r.window ≠ localOrdinal % 10)
    (.context "row sequence")

/-- `M1R33SlotV1::validate` -/
def Slot.validate (s : Slot) : Result Unit := do
  requireSha256 s.hardwareConfigurationSha256 "slot configuration"
  requireSha256 s.hardwareSha256 "slot hardware"
  requireAsciiToken s.id 128 "slot id"
  failIf (s.target ≠ r33Target) (.context "slot target")

section Json

variable {Value : Type} (serde : Serde Value)

/-- `canonical_json_bytes` -/
def canonicalJsonBytes (value : Value) : Result (List UInt8) := do
  let bytes ← orErr .json (serde.toVecPretty value)
  let bytes := bytes ++ [0x0a]
  failIf (¬ bytes.all (· < 0x80)) .nonCanonicalPayload
  failIf (bytes.length > maxWirePayloadBytes) .payloadTooLarge
  return bytes

/-- The part of `M1R33CollectorContextV1::validate` that depends on the action. -/
def CollectorContext.validateAction (c : CollectorContext Value) : Result Unit :=
  match c.action with
  | .start => failIf (c.serverInstanceSha256.isSome ∨ c.row.isSome) (.context "start shape")
  | .measure => do
    let instanceSha256 ← orErr (.context "measure instance") c.serverInstanceSha256
    requireSha256 instanceSha256 "server instance"
    let row ← orErr (.context "measure row") c.row
    row.validate
    failIf (row.serverStart ≠ c.serverStart) (.context "measure server start")
  | .ready | .stop => do
    let instanceSha256 ← orErr (.context "lifecycle instance") c.serverInstanceSha256
    requireSha256 instanceSha256 "server instance"
    failIf c.row.isSome (.context "lifecycle row")

/-- `M1R33CollectorContextV1::validate` -/
def CollectorContext.validate (c : CollectorContext Value) : Result Unit := do
  requireSha256 c.commandSha256 "command"
  requireSha256 c.policySha256 "policy"
  c.slot.validate
  failIf (c.engine ≠ "ferric" ∨ c.target ≠ r33Target ∨ c.serverStart ≥ 3)
    (.context "collector binding")
  let expectedOrder := ["ferric", "vllm", "sglang"]
  failIf (c.engineOrder.length ≠ 3 ∨
    ¬ ((∀ engine ∈ c.engineOrder, engine ∈ expectedOrder) ∧
      ∀ engine ∈ expectedOrder, engine ∈ c.engineOrder)) (.context "engine order")
  let bytes ← canonicalJsonBytes serde c.implementation
  failIf (¬ bytes.all (· < 0x80)) (.context "implementation ASCII")
  c.validateAction

/-- `ROW_NAMES` -/
def rowNames : List String :=
  ["FERRIC_M1_R33_ROW_ID", "FERRIC_M1_R33_ORDINAL", "FERRIC_M1_R33_PHASE",
    "FERRIC_M1_R33_WINDOW", "FERRIC_M1_R33_EXPECTED_SUCCESSFUL_REQUESTS",
    "FERRIC_M1_R33_EXPECTED_INPUT_TOKENS", "FERRIC_M1_R33_EXPECTED_OUTPUT_TOKENS",
    "FERRIC_M1_R33_EXPECTED_TOTAL_TOKENS"]

/-- `read_optional_row` -/
def readOptionalRow (env : Environment) (serverStart : ℕ) : Result (Option CollectorRow) := do
  let values ← rowNames.mapM fun name => optionalUnicode (env name) name
  if values.all (·.isNone) then return none
  else
    failIf (values.any (·.isNone)) (.context "partial row environment")
    let values ← values.mapM orPanic
    let successfulRequests ← parseU64 (← orPanic values[4]?) "successful requests"
    let inputTokens ← parseU64 (← orPanic values[5]?) "input tokens"
    let outputTokens ← parseU64 (← orPanic values[6]?) "output tokens"
    let totalTokens ← parseU64 (← orPanic values[7]?) "total tokens"
    let id ← orPanic values[0]?
    let ordinal ← parseU64 (← orPanic values[1]?) "ordinal"
    let phase ← orPanic values[2]?
    let window ← parseU64 (← orPanic values[3]?) "window"
    return some {
      expectedWork := { successfulRequests, inputTokens, outputTokens, totalTokens }
      id, ordinal, phase, serverStart, window }

/-- `value.split(',')`, each part owned. -/
def splitComma (value : String) : List String := (value.toList.splitOn ',').map String.ofList

/-- `M1R33CollectorContextV1::from_environment` -/
def CollectorContext.fromEnvironment (env : Environment) : Result (CollectorContext Value) := do
  let action ← Action.parse (← requiredUnicode env "FERRIC_M1_R33_ACTION")
  let commandSha256 ← requiredUnicode env "FERRIC_M1_R33_COMMAND_SHA256"
  let engine ← requiredUnicode env "FERRIC_M1_R33_ENGINE"
  let engineOrder := splitComma (← requiredUnicode env "FERRIC_M1_R33_ENGINE_ORDER")
  let implementationSource ← requiredUnicode env "FERRIC_M1_R33_IMPLEMENTATION_JSON"
  let implementation ← orErr (.context "implementation JSON") (serde.fromStr implementationSource)
  let printed ← orErr (.context "implementation JSON") (serde.toString implementation)
  failIf (printed ≠ implementationSource) (.context "implementation canonical JSON")
  let policySha256 ← requiredUnicode env "FERRIC_M1_R33_POLICY_SHA256"
  let serverStart ←
    parseU64 (← requiredUnicode env "FERRIC_M1_R33_SERVER_START") "server start"
  let hardwareConfigurationSha256 ←
    requiredUnicode env "FERRIC_M1_R33_SLOT_CONFIGURATION_SHA256"
  let hardwareSha256 ← requiredUnicode env "FERRIC_M1_R33_SLOT_SHA256"
  let id ← requiredUnicode env "FERRIC_M1_R33_SLOT_ID"
  let slotTarget ← requiredUnicode env "FERRIC_M1_R33_TARGET"
  let slot : Slot := { hardwareConfigurationSha256, hardwareSha256, id, target := slotTarget }
  let target := slot.target
  let serverInstanceSha256 ← optionalUnicode (env "FERRIC_M1_R33_SERVER_INSTANCE_SHA256")
    "FERRIC_M1_R33_SERVER_INSTANCE_SHA256"
  let row ← readOptionalRow env serverStart
  let context : CollectorContext Value :=
    { action, commandSha256, engine, engineOrder, implementation, policySha256, row
      serverInstanceSha256, serverStart, slot, target }
  context.validate serde
  return context

end Json

end R33

end Ferric
