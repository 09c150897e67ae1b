import Ferric.R33.Model

/-!
# How far a context determines its environment

Every reserved variable is read into the context. A text is kept as it is, the list of engines and
the canonical JSON can be written down again, and an absent row or instance is absent in the
context. Only a number is kept as its value: `parse_u64` rejects zeros in front, but it accepts a
plus sign, and zeros behind the sign. So two environments of one context differ in the spelling of
numbers at most, and they are the same exactly when their numbers have as many characters.

## Main results

* `reads_of_fromEnvironment` — what an accepted environment holds
* `agree_iff_lengths` — when a context has one environment
* `not_agree` — a context with two environments
-/

namespace Ferric

namespace R33

variable {Value : Type} {serde : Serde Value} {env env' : Environment}

/-- The reserved variables, in the order in which they are read. -/
def reservedNames : List String :=
  ["FERRIC_M1_R33_ACTION", "FERRIC_M1_R33_COMMAND_SHA256", "FERRIC_M1_R33_ENGINE",
    "FERRIC_M1_R33_ENGINE_ORDER", "FERRIC_M1_R33_IMPLEMENTATION_JSON",
    "FERRIC_M1_R33_POLICY_SHA256", "FERRIC_M1_R33_SERVER_START",
    "FERRIC_M1_R33_SLOT_CONFIGURATION_SHA256", "FERRIC_M1_R33_SLOT_SHA256",
    "FERRIC_M1_R33_SLOT_ID", "FERRIC_M1_R33_TARGET", "FERRIC_M1_R33_SERVER_INSTANCE_SHA256"] ++
    rowNames

/-- The variables that hold numbers. -/
def numberNames : List String :=
  ["FERRIC_M1_R33_SERVER_START", "FERRIC_M1_R33_ORDINAL", "FERRIC_M1_R33_WINDOW",
    "FERRIC_M1_R33_EXPECTED_SUCCESSFUL_REQUESTS", "FERRIC_M1_R33_EXPECTED_INPUT_TOKENS",
    "FERRIC_M1_R33_EXPECTED_OUTPUT_TOKENS", "FERRIC_M1_R33_EXPECTED_TOTAL_TOKENS"]

/-- The number of characters of a value. -/
def OsString.length : OsString → ℕ
  | .unicode text => text.toList.length
  | .bytes value => value.length

/-- The first character of a value. -/
def OsString.head? : OsString → Option Char
  | .unicode text => text.toList.head?
  | .bytes _ => none

/-! ### Reading back -/

/-- The parts with commas between them. -/
def joinComma (parts : List String) : String :=
  .ofList ([','].intercalate (parts.map String.toList))

theorem joinComma_splitComma (value : String) : joinComma (splitComma value) = value := by
  have hparts : (splitComma value).map String.toList = value.toList.splitOn ',' := by
    rw [splitComma, List.map_map]
    refine (List.map_congr_left fun part _ => ?_).trans (List.map_id _)
    exact String.toList_ofList
  rw [joinComma, hparts, List.intercalate_splitOn, String.ofList_toList]

theorem Action.parse_eq_ok {value : String} {action : Action} :
    Action.parse value = .ok action ↔ value = action.asStr := by
  rw [Action.parse]
  constructor
  · intro h
    split at h
    · next heq => cases h; exact heq
    split at h
    · next heq => cases h; exact heq
    split at h
    · next heq => cases h; exact heq
    split at h
    · next heq => cases h; exact heq
    · cases h
  · rintro rfl
    cases action <;> rfl

theorem requiredUnicode_eq_ok {name text : String} :
    requiredUnicode env name = .ok text ↔ env name = some (.unicode text) := by
  rw [requiredUnicode]
  cases env name with
  | none => simp [orErr, bind, Except.bind]
  | some value => cases value <;> simp [orErr, bind, Except.bind, intoString]

theorem optionalUnicode_eq_ok {name : String} {text : Option String} :
    optionalUnicode (env name) name = .ok text ↔ env name = text.map .unicode := by
  cases env name with
  | none => cases text <;> simp [optionalUnicode, pure, Except.pure]
  | some value =>
    cases value <;> cases text <;>
      simp [optionalUnicode, intoString, bind, Except.bind, pure, Except.pure]

/-- A text that `parse_u64` reads as a number. -/
def Number (text : String) (n : ℕ) : Prop :=
  (text.toList.length ≤ 1 ∨ text.toList.head? ≠ some '0') ∧
    parseUnsigned (2 ^ 64) text.toList = some n

theorem number_of_parseU64 {text name : String} {n : ℕ} (h : parseU64 text name = .ok n) :
    Number text n := by
  rw [parseU64] at h
  simp only [bind_eq_ok, failIf_eq_ok, orErr_eq_ok] at h
  obtain ⟨_, hzero, hparse⟩ := h
  refine ⟨?_, hparse⟩
  by_contra hnot
  obtain ⟨hlen, hhead⟩ := not_or.mp hnot
  exact hzero (.inr ⟨Nat.not_le.mp hlen, not_not.mp hhead⟩)

theorem Number.unique {text text' : String} {n : ℕ} (h : Number text n) (h' : Number text' n)
    (hlen : text.toList.length = text'.toList.length) : text = text' := by
  obtain ⟨sign, digits, hspells⟩ := spells_of_parseUnsigned h.2
  obtain ⟨sign', digits', hspells'⟩ := spells_of_parseUnsigned h'.2
  exact String.toList_inj.mp (spelling_unique hspells hspells' h.1 h'.1 hlen)

theorem Number.length_eq {text text' : String} {n : ℕ} (h : Number text n) (h' : Number text' n)
    (hplus : text.toList.head? ≠ some '+') (hplus' : text'.toList.head? ≠ some '+') :
    text.toList.length = text'.toList.length := by
  obtain ⟨sign, digits, hspells⟩ := spells_of_parseUnsigned h.2
  obtain ⟨sign', digits', hspells'⟩ := spells_of_parseUnsigned h'.2
  exact length_eq_of_unsigned hspells hspells' h.1 h'.1 hplus hplus'

/-! ### What an accepted environment holds -/

/-- The variables other than numbers, with the values that a context determines. -/
def texts (serde : Serde Value) (c : CollectorContext Value) : List (String × Option OsString) :=
  [("FERRIC_M1_R33_ACTION", some (.unicode c.action.asStr)),
    ("FERRIC_M1_R33_COMMAND_SHA256", some (.unicode c.commandSha256)),
    ("FERRIC_M1_R33_ENGINE", some (.unicode c.engine)),
    ("FERRIC_M1_R33_ENGINE_ORDER", some (.unicode (joinComma c.engineOrder))),
    ("FERRIC_M1_R33_IMPLEMENTATION_JSON", (serde.toString c.implementation).map .unicode),
    ("FERRIC_M1_R33_POLICY_SHA256", some (.unicode c.policySha256)),
    ("FERRIC_M1_R33_SLOT_CONFIGURATION_SHA256",
      some (.unicode c.slot.hardwareConfigurationSha256)),
    ("FERRIC_M1_R33_SLOT_SHA256", some (.unicode c.slot.hardwareSha256)),
    ("FERRIC_M1_R33_SLOT_ID", some (.unicode c.slot.id)),
    ("FERRIC_M1_R33_TARGET", some (.unicode c.slot.target)),
    ("FERRIC_M1_R33_SERVER_INSTANCE_SHA256", c.serverInstanceSha256.map .unicode),
    ("FERRIC_M1_R33_ROW_ID", c.row.map fun row => .unicode row.id),
    ("FERRIC_M1_R33_PHASE", c.row.map fun row => .unicode row.phase)]

/-- The variables that hold numbers, with the numbers of a context. -/
def numbers (c : CollectorContext Value) : List (String × Option ℕ) :=
  [("FERRIC_M1_R33_SERVER_START", some c.serverStart),
    ("FERRIC_M1_R33_ORDINAL", c.row.map (·.ordinal)),
    ("FERRIC_M1_R33_WINDOW", c.row.map (·.window)),
    ("FERRIC_M1_R33_EXPECTED_SUCCESSFUL_REQUESTS",
      c.row.map (·.expectedWork.successfulRequests)),
    ("FERRIC_M1_R33_EXPECTED_INPUT_TOKENS", c.row.map (·.expectedWork.inputTokens)),
    ("FERRIC_M1_R33_EXPECTED_OUTPUT_TOKENS", c.row.map (·.expectedWork.outputTokens)),
    ("FERRIC_M1_R33_EXPECTED_TOTAL_TOKENS", c.row.map (·.expectedWork.totalTokens))]

/-- A variable holds a number, or is absent with it. -/
def Holds (env : Environment) (name : String) : Option ℕ → Prop
  | none => env name = none
  | some n => ∃ text, env name = some (.unicode text) ∧ Number text n

/-- What an environment holds for a context. -/
structure Reads (serde : Serde Value) (env : Environment) (c : CollectorContext Value) : Prop where
  texts : ∀ p ∈ texts serde c, env p.1 = p.2
  numbers : ∀ p ∈ numbers c, Holds env p.1 p.2

/-- What an environment holds for a row. -/
structure ReadsRow (env : Environment) (row : Option CollectorRow) : Prop where
  id : env "FERRIC_M1_R33_ROW_ID" = row.map fun row => .unicode row.id
  phase : env "FERRIC_M1_R33_PHASE" = row.map fun row => .unicode row.phase
  ordinal : Holds env "FERRIC_M1_R33_ORDINAL" (row.map (·.ordinal))
  window : Holds env "FERRIC_M1_R33_WINDOW" (row.map (·.window))
  successful : Holds env "FERRIC_M1_R33_EXPECTED_SUCCESSFUL_REQUESTS"
    (row.map (·.expectedWork.successfulRequests))
  input : Holds env "FERRIC_M1_R33_EXPECTED_INPUT_TOKENS" (row.map (·.expectedWork.inputTokens))
  output : Holds env "FERRIC_M1_R33_EXPECTED_OUTPUT_TOKENS"
    (row.map (·.expectedWork.outputTokens))
  total : Holds env "FERRIC_M1_R33_EXPECTED_TOTAL_TOKENS" (row.map (·.expectedWork.totalTokens))

theorem readsRow_of_readOptionalRow {serverStart : ℕ} {row : Option CollectorRow}
    (h : readOptionalRow env serverStart = .ok row) : ReadsRow env row := by
  rw [readOptionalRow, bind_eq_ok] at h
  obtain ⟨values, hvalues, h⟩ := h
  have hread := forall₂_of_mapM hvalues
  simp only [rowNames, List.forall₂_cons_left_iff, List.forall₂_nil_left_iff,
    optionalUnicode_eq_ok] at hread
  obtain ⟨v0, _, h0, ⟨v1, _, h1, ⟨v2, _, h2, ⟨v3, _, h3, ⟨v4, _, h4, ⟨v5, _, h5, ⟨v6, _, h6,
    ⟨v7, _, h7, rfl, rfl⟩, rfl⟩, rfl⟩, rfl⟩, rfl⟩, rfl⟩, rfl⟩, rfl⟩ := hread
  split at h
  · -- all values are absent
    next hall =>
    simp only [List.all_cons, List.all_nil, Bool.and_true, Bool.and_eq_true,
      Option.isNone_iff_eq_none] at hall
    obtain ⟨rfl, rfl, rfl, rfl, rfl, rfl, rfl, rfl⟩ := hall
    obtain rfl := Except.ok.inj h
    exact ⟨h0, h2, h1, h3, h4, h5, h6, h7⟩
  · -- all values are present
    rw [bind_eq_ok] at h
    obtain ⟨_, hany, h⟩ := h
    simp only [failIf_eq_ok, List.any_cons, List.any_nil, Bool.or_false, Bool.or_eq_true, not_or,
      Option.isNone_iff_eq_none, Option.ne_none_iff_exists'] at hany
    obtain ⟨⟨id, rfl⟩, ⟨ordinal, rfl⟩, ⟨phase, rfl⟩, ⟨window, rfl⟩, ⟨successful, rfl⟩,
      ⟨input, rfl⟩, ⟨output, rfl⟩, ⟨total, rfl⟩⟩ := hany
    have htexts : [some id, some ordinal, some phase, some window, some successful, some input,
        some output, some total].mapM orPanic =
        (.ok [id, ordinal, phase, window, successful, input, output, total] : Result _) := rfl
    rw [htexts, ok_bind] at h
    simp only [bind_eq_ok, orPanic_eq_ok] at h
    obtain ⟨_, ⟨rfl⟩, n4, hn4, _, ⟨rfl⟩, n5, hn5, _, ⟨rfl⟩, n6, hn6, _, ⟨rfl⟩, n7, hn7, _, ⟨rfl⟩,
      _, ⟨rfl⟩, n1, hn1, _, ⟨rfl⟩, _, ⟨rfl⟩, n3, hn3, hrow⟩ := h
    obtain rfl := Except.ok.inj hrow
    exact ⟨h0, h2, ⟨ordinal, h1, number_of_parseU64 hn1⟩, ⟨window, h3, number_of_parseU64 hn3⟩,
      ⟨successful, h4, number_of_parseU64 hn4⟩, ⟨input, h5, number_of_parseU64 hn5⟩,
      ⟨output, h6, number_of_parseU64 hn6⟩, ⟨total, h7, number_of_parseU64 hn7⟩⟩

/-- **What an accepted environment holds.** -/
theorem reads_of_fromEnvironment {c : CollectorContext Value}
    (h : CollectorContext.fromEnvironment serde env = .ok c) : Reads serde env c := by
  rw [CollectorContext.fromEnvironment] at h
  simp only [bind_eq_ok, requiredUnicode_eq_ok, optionalUnicode_eq_ok, orErr_eq_ok, failIf_eq_ok,
    Action.parse_eq_ok, not_not] at h
  obtain ⟨_, haction, action, rfl, commandSha256, hcommand, engine, hengine, engineOrder, horder,
    _, himplementation, implementation, hparsed, _, hprinted, _, rfl, policySha256, hpolicy, _,
    hstart, serverStart, hnumber, hardwareConfigurationSha256, hconfiguration, hardwareSha256,
    hhardware, id, hid, slotTarget, htarget, serverInstanceSha256, hinstance, row, hrow, _, -,
    hc⟩ := h
  obtain rfl := Except.ok.inj hc
  have hreads := readsRow_of_readOptionalRow hrow
  constructor
  · simp only [R33.texts, List.forall_mem_cons, joinComma_splitComma, hprinted]
    exact ⟨haction, hcommand, hengine, horder, himplementation, hpolicy, hconfiguration, hhardware,
      hid, htarget, hinstance, hreads.id, hreads.phase, fun p hp => absurd hp List.not_mem_nil⟩
  · simp only [R33.numbers, List.forall_mem_cons]
    exact ⟨⟨_, hstart, number_of_parseU64 hnumber⟩, hreads.ordinal, hreads.window,
      hreads.successful, hreads.input, hreads.output, hreads.total,
      fun p hp => absurd hp List.not_mem_nil⟩

/-! ### Two environments of one context -/

theorem Holds.eq_of_length {name : String} {n : Option ℕ} (h : Holds env name n)
    (h' : Holds env' name n)
    (hlen : (env name).map OsString.length = (env' name).map OsString.length) :
    env name = env' name := by
  cases n with
  | none => exact h.trans h'.symm
  | some n =>
    obtain ⟨text, htext, hnumber⟩ := h
    obtain ⟨text', htext', hnumber'⟩ := h'
    rw [htext, htext'] at hlen ⊢
    rw [hnumber.unique hnumber' (Option.some.inj hlen)]

theorem Holds.length_eq {name : String} {n : Option ℕ} (h : Holds env name n)
    (h' : Holds env' name n) (hplus : (env name).bind OsString.head? ≠ some '+')
    (hplus' : (env' name).bind OsString.head? ≠ some '+') :
    (env name).map OsString.length = (env' name).map OsString.length := by
  cases n with
  | none =>
    rw [h.trans h'.symm]
  | some n =>
    obtain ⟨text, htext, hnumber⟩ := h
    obtain ⟨text', htext', hnumber'⟩ := h'
    rw [htext] at hplus ⊢
    rw [htext'] at hplus' ⊢
    exact congrArg some (hnumber.length_eq hnumber' hplus hplus')

/-- **When a context has one environment.** Two environments from which the same context is read
agree on every reserved variable exactly when the spellings of each number have as many characters,
and they have when none of them starts with a plus sign. -/
theorem agree_iff_lengths (serde : Serde Value) (env env' : Environment)
    (c : CollectorContext Value) (h : CollectorContext.fromEnvironment serde env = .ok c)
    (h' : CollectorContext.fromEnvironment serde env' = .ok c) :
    ((∀ name ∈ reservedNames, env name = env' name) ↔
      ∀ name ∈ numberNames,
        (env name).map OsString.length = (env' name).map OsString.length) ∧
    ((∀ name ∈ numberNames, (env name).bind OsString.head? ≠ some '+' ∧
        (env' name).bind OsString.head? ≠ some '+') →
      ∀ name ∈ reservedNames, env name = env' name) := by
  have hreads := reads_of_fromEnvironment h
  have hreads' := reads_of_fromEnvironment h'
  have hnames : ∀ name ∈ reservedNames, name ∈ (texts serde c).map Prod.fst ∨ name ∈ numberNames :=
    fun name hname => (by decide : ∀ name ∈ reservedNames, name ∈
      ["FERRIC_M1_R33_ACTION", "FERRIC_M1_R33_COMMAND_SHA256", "FERRIC_M1_R33_ENGINE",
        "FERRIC_M1_R33_ENGINE_ORDER", "FERRIC_M1_R33_IMPLEMENTATION_JSON",
        "FERRIC_M1_R33_POLICY_SHA256", "FERRIC_M1_R33_SLOT_CONFIGURATION_SHA256",
        "FERRIC_M1_R33_SLOT_SHA256", "FERRIC_M1_R33_SLOT_ID", "FERRIC_M1_R33_TARGET",
        "FERRIC_M1_R33_SERVER_INSTANCE_SHA256", "FERRIC_M1_R33_ROW_ID",
        "FERRIC_M1_R33_PHASE"] ∨ name ∈ numberNames) name hname
  have hnumber : ∀ name ∈ numberNames, ∃ n, Holds env name n ∧ Holds env' name n := by
    intro name hname
    obtain ⟨p, hp, rfl⟩ := List.mem_map.mp
      (show name ∈ (numbers c).map Prod.fst from hname)
    exact ⟨p.2, hreads.numbers p hp, hreads'.numbers p hp⟩
  have hagree : (∀ name ∈ numberNames,
      (env name).map OsString.length = (env' name).map OsString.length) →
      ∀ name ∈ reservedNames, env name = env' name := by
    intro hlengths name hname
    rcases hnames name hname with htext | hname
    · obtain ⟨p, hp, rfl⟩ := List.mem_map.mp htext
      rw [hreads.texts p hp, hreads'.texts p hp]
    · obtain ⟨n, hholds, hholds'⟩ := hnumber name hname
      exact hholds.eq_of_length hholds' (hlengths name hname)
  refine ⟨⟨fun hall name hname => ?_, hagree⟩, fun hplus => hagree fun name hname => ?_⟩
  · have hreserved : name ∈ reservedNames :=
      (by decide : ∀ name ∈ numberNames, name ∈ reservedNames) name hname
    rw [hall name hreserved]
  · obtain ⟨n, hholds, hholds'⟩ := hnumber name hname
    exact hholds.length_eq hholds' (hplus name hname).1 (hplus name hname).2

/-! ### Two spellings of one number -/

/-- A JSON library that knows one document. -/
def idSerde : Serde String where
  fromStr text := if text = "\x7b\"id\":\"ferric\"\x7d" then some "ferric" else none
  toString id := some ("\x7b\"id\":\"" ++ id ++ "\"\x7d")
  toVecPretty id := some (utf8 ("\x7b\n  \"id\": \"" ++ id ++ "\"\n\x7d").toList)

/-- The reserved variables of a start, with a spelling of the number of the server start. -/
def startVariables (serverStart : String) : List (String × String) :=
  [("FERRIC_M1_R33_ACTION", "start"),
    ("FERRIC_M1_R33_COMMAND_SHA256", .ofList (.replicate 64 'a')),
    ("FERRIC_M1_R33_ENGINE", "ferric"),
    ("FERRIC_M1_R33_ENGINE_ORDER", "ferric,vllm,sglang"),
    ("FERRIC_M1_R33_IMPLEMENTATION_JSON", "\x7b\"id\":\"ferric\"\x7d"),
    ("FERRIC_M1_R33_POLICY_SHA256", .ofList (.replicate 64 'b')),
    ("FERRIC_M1_R33_SERVER_START", serverStart),
    ("FERRIC_M1_R33_SLOT_CONFIGURATION_SHA256", .ofList (.replicate 64 'c')),
    ("FERRIC_M1_R33_SLOT_SHA256", .ofList (.replicate 64 'd')),
    ("FERRIC_M1_R33_SLOT_ID", "slot-0"),
    ("FERRIC_M1_R33_TARGET", "gfx942:xnack-")]

/-- The environment of a start. -/
def startEnvironment (serverStart : String) : Environment := fun name =>
  ((startVariables serverStart).lookup name).map .unicode

/-- The context of a start. -/
def startContext : CollectorContext String where
  action := .start
  commandSha256 := .ofList (.replicate 64 'a')
  engine := "ferric"
  engineOrder := ["ferric", "vllm", "sglang"]
  implementation := "ferric"
  policySha256 := .ofList (.replicate 64 'b')
  row := none
  serverInstanceSha256 := none
  serverStart := 0
  slot :=
    { hardwareConfigurationSha256 := .ofList (.replicate 64 'c')
      hardwareSha256 := .ofList (.replicate 64 'd')
      id := "slot-0", target := "gfx942:xnack-" }
  target := "gfx942:xnack-"

theorem fromEnvironment_start :
    CollectorContext.fromEnvironment idSerde (startEnvironment "0") = .ok startContext := by
  decide +kernel

theorem fromEnvironment_start_plus :
    CollectorContext.fromEnvironment idSerde (startEnvironment "+0") = .ok startContext := by
  decide +kernel

/-- Of a context that is read twice. -/
theorem agree_iff_lengths_start :
    ((∀ name ∈ reservedNames, startEnvironment "0" name = startEnvironment "+0" name) ↔
      ∀ name ∈ numberNames, (startEnvironment "0" name).map OsString.length =
        (startEnvironment "+0" name).map OsString.length) ∧
    ((∀ name ∈ numberNames, (startEnvironment "0" name).bind OsString.head? ≠ some '+' ∧
        (startEnvironment "+0" name).bind OsString.head? ≠ some '+') →
      ∀ name ∈ reservedNames, startEnvironment "0" name = startEnvironment "+0" name) :=
  agree_iff_lengths idSerde (startEnvironment "0") (startEnvironment "+0") startContext
    fromEnvironment_start fromEnvironment_start_plus

/-- A context does not determine its environment: a plus sign in front of a number is accepted. -/
theorem not_agree : ¬ ∀ (serde : Serde String) (env env' : Environment)
    (c : CollectorContext String), CollectorContext.fromEnvironment serde env = .ok c →
      CollectorContext.fromEnvironment serde env' = .ok c →
      ∀ name ∈ reservedNames, env name = env' name := by
  intro hall
  have heq := hall idSerde (startEnvironment "0") (startEnvironment "+0") startContext
    fromEnvironment_start fromEnvironment_start_plus "FERRIC_M1_R33_SERVER_START" (by decide)
  exact absurd heq (by decide +kernel)

end R33

end Ferric
