import Ferric.Ledger.Chain

/-!
# The calls on a ledger

The calls of `durable.rs` that change a ledger, over the storage that its capabilities share: the
file and the external head. Each call can be interrupted at every step that asks something of the
system, and then it fails and leaves what it has done so far.

## Conventions

* The kind and the policy are those of the ledger, and each capability has its capacity and its
  cached state. A call returns the new cached state, and a failed call leaves the cached state
  alone. (In the source a failed `insert` would have changed it, but after the conflict check none
  fails.)
* The external head is one register. An update of it either reports its result, or fails with or
  without its effect.
* A crash is a call that fails, followed by the loss of its capability.
* The records are written behind the end of the file, which `fdatasync` keeps: what a crash loses of
  a record that was not synchronized is a write that was cut short.

## Main results

* `runs_provision`, `runs_appendIfAbsent` — what the calls do to the storage
* `runs_readExisting`, `runs_validateCurrentHead` — what an opened ledger has read
* `openExisting_image` — a ledger that was not interrupted can be opened
-/

namespace Ferric

namespace Ledger

open Ferric.Action

/-- The file and the external head. -/
structure Storage where
  file : List UInt8
  head : Option Head
  deriving DecidableEq

/-- What goes wrong in a call. -/
structure Troubles where
  /-- The checks of the file and of the head store, or the lock. -/
  entry : Option LedgerError := none
  /-- An inspection or a read of the file. -/
  read : Option LedgerError := none
  /-- The head store does not load the head. -/
  load : Bool := false
  /-- The write is cut short after some bytes. -/
  write : Option ℕ := none
  /-- The file is not synchronized. -/
  synchronize : Bool := false
  /-- The head store fails in an update, and has done it or not. -/
  update : Option Bool := none

abbrev StoreM := Action Storage LedgerError

/-- A step that may be interrupted. -/
def interrupt : Option LedgerError → StoreM Unit
  | none => pure ()
  | some e => fail e

namespace Storage

/-- The file with bytes written over it. -/
def overwrite (s : Storage) (offset : ℕ) (bytes : List UInt8) : Storage :=
  { s with file := s.file.take offset ++ List.replicate (offset - s.file.length) 0 ++ bytes ++
    s.file.drop (offset + bytes.length) }

/-- The register with a new head, if it has the expected content. -/
def swap (s : Storage) (expected : Option Head) (next : Head) : Storage :=
  if s.head = expected then { s with head := some next } else s

end Storage

/-- `pwrite_all` -/
def pwriteAll (trouble : Option ℕ) (bytes : List UInt8) (offset : ℕ) : StoreM Unit :=
  match trouble with
  | none => modify (·.overwrite offset bytes)
  | some n => do
    modify (·.overwrite offset (bytes.take n))
    fail .write

/-- An update of the head: whether the register had the expected content. -/
def updateHead (trouble : Option Bool) (expected : Option Head) (next : Head) : StoreM Bool := do
  let store ← get
  match trouble with
  | none => do
    modify (·.swap expected next)
    return decide (store.head = expected)
  | some effect => do
    modify fun s => if effect then s.swap expected next else s
    fail .externalHead

/-- `initialize_head` -/
def initializeHead (trouble : Option Bool) (initial : Head) : StoreM Bool :=
  updateHead trouble none initial

/-- `compare_exchange_head` -/
def compareExchangeHead (trouble : Option Bool) (current next : Head) : StoreM Bool :=
  updateHead trouble (some current) next

/-- `validate_configuration` -/
def validateConfiguration (maxRecords : UInt32) : StoreM Unit :=
  Action.failIf (maxRecords = 0 ∨ maxRecords > maxDurableLedgerRecords) .invalidCapacity

section Calls

variable (sha256 : List UInt8 → Identity) (kind : LedgerKind) (policy : Identity)

/-- `provision` -/
def provision (t : Troubles) (maxRecords : UInt32) : StoreM LedgerState := do
  validateConfiguration maxRecords
  interrupt t.entry
  interrupt t.read
  let store ← get
  Action.failIf (store.file.length ≠ 0) .alreadyProvisioned
  let header := encodeHeader sha256 kind (ledgerNamespace sha256 policy kind) policy maxRecords
  pwriteAll t.write header 0
  interrupt (if t.synchronize then some .synchronize else none)
  let headerIdentity ← query fun _ => fixed 32 (headerIdentity header)
  let initial : Head := ⟨policy, headerIdentity, 0, .zero 32⟩
  let initialized ← initializeHead t.update initial
  Action.failIf (initialized = false) .externalHeadConflict
  return .empty initial

/-- The part of `open_existing_from_supervisor` under its first lock. -/
def readExisting (t : Troubles) (maxRecords : UInt32) : StoreM LedgerState := do
  validateConfiguration maxRecords
  interrupt t.entry
  interrupt t.read
  query fun store => readValidatedState sha256 store.file kind (ledgerNamespace sha256 policy kind)
    policy maxRecords

/-- The head that the store has, which has to be the one of the state. -/
def matchHead (t : Troubles) (state : LedgerState) : StoreM Unit := do
  Action.failIf (t.load = true) .externalHead
  let anchored ← query fun store => orErr .externalHeadMissing store.head
  Action.failIf (anchored ≠ state.externalHead) .externalHeadMismatch

/-- `validate_current_head` -/
def validateCurrentHead (t : Troubles) (maxRecords : UInt32) (state : LedgerState) :
    StoreM Unit := do
  interrupt t.entry
  interrupt t.read
  query fun store => validateCachedFileState sha256 store.file kind
    (ledgerNamespace sha256 policy kind) policy maxRecords state
  matchHead t state

/-- `open_existing_from_supervisor` -/
def openExisting (t t' : Troubles) (maxRecords : UInt32) : StoreM LedgerState := do
  let state ← readExisting sha256 kind policy t maxRecords
  validateCurrentHead sha256 kind policy t' maxRecords state
  return state

/-- `append_if_absent`, with the new cached state. -/
def appendIfAbsent (t : Troubles) (maxRecords : UInt32) (state : LedgerState)
    (candidate : LedgerRecord) : StoreM (Bool × LedgerState) := do
  Action.failIf (candidate.policy ≠ policy) .policyIdentityMismatch
  interrupt t.entry
  interrupt t.read
  query fun store => validateCachedFileState sha256 store.file kind
    (ledgerNamespace sha256 policy kind) policy maxRecords state
  matchHead t state
  if state.conflicts candidate then
    return (false, state)
  Action.failIf (state.externalHead.recordCount ≥ maxRecords) .capacityExhausted
  let bytes := candidate.encode sha256 state.externalHead.recordIdentity
  pwriteAll t.write bytes (recordOffset state.externalHead.recordCount.toNat)
  interrupt (if t.synchronize then some .synchronize else none)
  let recordCount ← query fun _ => orErr .capacityExhausted
    (checkedAdd 32 state.externalHead.recordCount.toNat 1)
  let recordIdentity ← query fun _ => fixed 32 (slice bytes 192 224)
  let next : Head := ⟨policy, state.externalHead.headerIdentity, .ofNat recordCount, recordIdentity⟩
  let exchanged ← compareExchangeHead t.update state.externalHead next
  Action.failIf (exchanged = false) .externalHeadConflict
  let state ← query fun _ => state.insert candidate
  return (true, { state with externalHead := next })

end Calls

/-! ### Steps -/

namespace Storage

/-- The file with some bytes behind its end. -/
def grow (s : Storage) (bytes : List UInt8) : Storage := { s with file := s.file ++ bytes }

/-- Nothing happened but some bytes behind the end of the file. -/
def Extends (s s' : Storage) : Prop := s'.head = s.head ∧ s.file <+: s'.file

theorem Extends.refl (s : Storage) : s.Extends s := ⟨rfl, List.prefix_rfl⟩

theorem extends_grow (s : Storage) (bytes : List UInt8) : s.Extends (s.grow bytes) :=
  ⟨rfl, List.prefix_append _ _⟩

theorem overwrite_length (s : Storage) (bytes : List UInt8) :
    s.overwrite s.file.length bytes = s.grow bytes := by
  rw [overwrite, List.take_length, Nat.sub_self, List.replicate_zero, List.append_nil,
    List.drop_of_length_le (Nat.le_add_right _ _), List.append_nil, grow]

theorem swap_of_eq {s : Storage} {expected : Option Head} {next : Head} (h : s.head = expected) :
    s.swap expected next = { s with head := some next } := if_pos h

theorem swap_of_ne {s : Storage} {expected : Option Head} {next : Head} (h : s.head ≠ expected) :
    s.swap expected next = s := if_neg h

end Storage

section Steps

variable {α : Type} {s : Storage} {f : Unit → StoreM α} {P : α → Storage → Prop}
variable {E : LedgerError → Storage → Prop}

theorem runs_interrupt {t : Option LedgerError} (he : ∀ e, E e s) (h : Runs s (f ()) P E) :
    Runs s (interrupt t >>= f) P E := by
  cases t with
  | none => exact h
  | some e => exact he e

/-- A write behind the end of the file. -/
theorem runs_pwriteAll {t : Option ℕ} {bytes : List UInt8} {offset : ℕ}
    (hoffset : s.file.length = offset)
    (he : ∀ n, E .write (s.grow (bytes.take n))) (h : Runs (s.grow bytes) (f ()) P E) :
    Runs s (pwriteAll t bytes offset >>= f) P E := by
  subst hoffset
  cases t with
  | none =>
    refine runs_modify ?_
    rw [Storage.overwrite_length]
    exact h
  | some n =>
    show E .write (s.overwrite s.file.length (bytes.take n))
    rw [Storage.overwrite_length]
    exact he n

/-- An update of the head, which may fail with its effect. -/
theorem runs_updateHead {t : Option Bool} {expected : Option Head} {next : Head}
    {g : Bool → StoreM α} (hnone : E .externalHead s)
    (hlost : E .externalHead (s.swap expected next))
    (h : Runs (s.swap expected next) (g (decide (s.head = expected))) P E) :
    Runs s (updateHead t expected next >>= g) P E := by
  cases t with
  | none => exact h
  | some effect =>
    cases effect with
    | false => exact hnone
    | true => exact hlost

end Steps

/-! ### What the calls do -/

section Contracts

variable {sha256 : List UInt8 → Identity} {kind : LedgerKind} {policy : Identity}
variable {s s' : Storage} {t : Troubles} {maxRecords : UInt32} {state : LedgerState}
variable {records : List LedgerRecord}

/-- A capacity that a ledger may have. -/
def Configured (maxRecords : UInt32) : Prop :=
  maxRecords ≠ 0 ∧ maxRecords ≤ maxDurableLedgerRecords

/-- The storage of a ledger with some records. -/
def committed (sha256 : List UInt8 → Identity) (kind : LedgerKind) (policy : Identity)
    (maxRecords : UInt32) (records : List LedgerRecord) : Storage :=
  ⟨image sha256 kind (ledgerNamespace sha256 policy kind) policy maxRecords records,
    some (headOf sha256 kind (ledgerNamespace sha256 policy kind) policy maxRecords records)⟩

/-- The state of a ledger with some records, in its own namespace. -/
abbrev cached (sha256 : List UInt8 → Identity) (kind : LedgerKind) (policy : Identity)
    (maxRecords : UInt32) (records : List LedgerRecord) : LedgerState :=
  stateOf sha256 kind (ledgerNamespace sha256 policy kind) policy maxRecords records

theorem runs_validateConfiguration {α : Type} {f : Unit → StoreM α} {P : α → Storage → Prop}
    {E : LedgerError → Storage → Prop} (he : E .invalidCapacity s)
    (h : Configured maxRecords → Runs s (f ()) P E) :
    Runs s (validateConfiguration maxRecords >>= f) P E := by
  refine runs_failIf (fun _ => he) fun hc => h ?_
  obtain ⟨hzero, hmax⟩ := not_or.mp hc
  exact ⟨hzero, UInt32.not_lt.mp hmax⟩

/-- A ledger is provisioned in an empty file, or the file only grows. -/
theorem runs_provision : Runs s (provision sha256 kind policy t maxRecords)
    (fun state s' => Configured maxRecords ∧ s.file = [] ∧ s.head = none ∧
      s' = committed sha256 kind policy maxRecords [] ∧
      state = cached sha256 kind policy maxRecords [])
    (fun _ s' => s.Extends s' ∨ s.file = [] ∧ s.head = none ∧
      s' = committed sha256 kind policy maxRecords []) := by
  have hstay : s.Extends s ∨ s.file = [] ∧ s.head = none ∧
      s = committed sha256 kind policy maxRecords [] := .inl (Storage.Extends.refl s)
  rw [provision]
  refine runs_validateConfiguration hstay fun hconfigured => ?_
  refine runs_interrupt (fun _ => hstay) (runs_interrupt (fun _ => hstay) (runs_get ?_))
  refine runs_failIf (fun _ => hstay) fun hlength => ?_
  have hfile : s.file = [] := List.length_eq_zero_iff.mp (not_not.mp hlength)
  refine runs_pwriteAll (by rw [hfile]; rfl) (fun n => .inl (s.extends_grow _)) ?_
  refine runs_interrupt (fun _ => .inl (s.extends_grow _)) ?_
  refine runs_query_of_ok (fixed_eq_ok.mpr headerIdentity_encodeHeader) ?_
  set header := encodeHeader sha256 kind (ledgerNamespace sha256 policy kind) policy maxRecords
    with hheader
  by_cases hhead : s.head = none
  · -- the head is initialized
    have hempty : (s.grow header).head = none := hhead
    have hswap : (s.grow header).swap none
        (headOf sha256 kind (ledgerNamespace sha256 policy kind) policy maxRecords []) =
        committed sha256 kind policy maxRecords [] := by
      rw [Storage.swap_of_eq hempty, Storage.grow, hfile, List.nil_append, committed, image_nil]
    refine runs_updateHead (.inl (s.extends_grow _)) (.inr ⟨hfile, hhead, hswap⟩) ?_
    refine runs_failIf (fun hc => ?_) fun _ => runs_pure ⟨hconfigured, hfile, hhead, hswap, rfl⟩
    exact absurd hhead (of_decide_eq_false hc)
  · -- the policy has a head already
    have hswap : ∀ next, (s.grow header).swap none next = s.grow header := by
      intro next
      exact Storage.swap_of_ne hhead
    refine runs_updateHead (.inl (s.extends_grow _)) (.inl ?_)
      (runs_failIf (fun _ => .inl ?_) fun hc => ?_)
    · rw [hswap]
      exact s.extends_grow _
    · rw [hswap]
      exact s.extends_grow _
    · exact absurd (decide_eq_false hhead) hc

/-- What the first part of opening a ledger has read. -/
theorem runs_readExisting : Runs s (readExisting sha256 kind policy t maxRecords)
    (fun state s' => Configured maxRecords ∧ s' = s ∧ readValidatedState sha256 s.file kind
      (ledgerNamespace sha256 policy kind) policy maxRecords = .ok state)
    (fun _ s' => s' = s) := by
  rw [readExisting]
  refine runs_validateConfiguration rfl fun hconfigured => ?_
  refine runs_interrupt (fun _ => rfl) (runs_interrupt (fun _ => rfl) ?_)
  refine runs_query_last (total_readValidatedState.mono (fun _ _ => rfl) fun state hread _ => ?_)
  exact ⟨hconfigured, rfl, hread⟩

/-- The head in the store is compared with that of the state. -/
theorem runs_matchHead {α : Type} {f : Unit → StoreM α} {P : α → Storage → Prop}
    {E : LedgerError → Storage → Prop} (he : ∀ e, E e s)
    (h : s.head = some state.externalHead → Runs s (f ()) P E) :
    Runs s (matchHead t state >>= f) P E := by
  rw [matchHead, bind_assoc]
  refine runs_failIf (fun _ => he _) fun _ => ?_
  rw [bind_assoc]
  refine runs_query (R := fun anchored => s.head = some anchored)
    (ensures_orErr (fun _ => he _) fun _ hhead => hhead) fun anchored _ hhead => ?_
  refine runs_failIf (fun _ => he _) fun hne => h ?_
  rw [hhead, not_not.mp hne]

/-- What the checks of a cached state ensure. -/
theorem runs_validateCached {α : Type} {f : Unit → StoreM α} {P : α → Storage → Prop}
    {E : LedgerError → Storage → Prop} (he : ∀ e, E e s)
    (h : s.file.length = recordOffset state.externalHead.recordCount.toNat →
      Runs s (f ()) P E) :
    Runs s ((query fun store => validateCachedFileState sha256 store.file kind
      (ledgerNamespace sha256 policy kind) policy maxRecords state) >>= f) P E :=
  runs_query (total_validateCachedFileState.mono (fun _ _ => he _) fun _ _ h => h)
    fun _ hvalid _ => h (length_of_validateCachedFileState hvalid)

/-- What a ledger that was opened has compared. -/
theorem runs_validateCurrentHead :
    Runs s (validateCurrentHead sha256 kind policy t maxRecords state)
      (fun _ s' => s' = s ∧ s.file.length = recordOffset state.externalHead.recordCount.toNat ∧
        s.head = some state.externalHead)
      (fun _ s' => s' = s) := by
  rw [validateCurrentHead]
  refine runs_interrupt (fun _ => rfl) (runs_interrupt (fun _ => rfl) ?_)
  refine runs_validateCached (fun _ => rfl) fun hlength => ?_
  rw [← bind_pure (matchHead t state)]
  exact runs_matchHead (fun _ => rfl) fun hhead => runs_pure ⟨rfl, hlength, hhead⟩

/-- A ledger with some records, whose file may have a torn end. -/
structure Anchored (sha256 : List UInt8 → Identity) (kind : LedgerKind) (policy : Identity)
    (maxRecords : UInt32) (records : List LedgerRecord) (s : Storage) : Prop where
  head : s.head =
    some (headOf sha256 kind (ledgerNamespace sha256 policy kind) policy maxRecords records)
  file : image sha256 kind (ledgerNamespace sha256 policy kind) policy maxRecords records <+: s.file
  count : records.length ≤ maxRecords.toNat

/-- The ledger takes a record behind its other ones. -/
structure Commits (sha256 : List UInt8 → Identity) (kind : LedgerKind) (policy : Identity)
    (maxRecords : UInt32) (records : List LedgerRecord) (r : LedgerRecord) (s s' : Storage) :
    Prop where
  count : records.length < maxRecords.toNat
  policy_eq : r.policy = policy
  distinct : ∀ r' ∈ records, ¬ r'.Clashes r
  storage : s' = committed sha256 kind policy maxRecords (records ++ [r])
  file : s.file <+: s'.file

/-- A capability that appends has all records of the ledger in its state, or it fails without having
changed the head. -/
theorem runs_appendIfAbsent {n : ℕ} {candidate : LedgerRecord}
    (h : Anchored sha256 kind policy maxRecords records s)
    (hstate : state = cached sha256 kind policy maxRecords (records.take n)) :
    Runs s (appendIfAbsent sha256 kind policy t maxRecords state candidate)
      (fun out s' => out = (false, state) ∧ s' = s ∨
        out = (true, cached sha256 kind policy maxRecords (records ++ [candidate])) ∧
          Commits sha256 kind policy maxRecords records candidate s s')
      (fun _ s' => s.Extends s' ∨
        Commits sha256 kind policy maxRecords records candidate s s') := by
  have hstay : s.Extends s ∨ Commits sha256 kind policy maxRecords records candidate s s :=
    .inl (Storage.Extends.refl s)
  rw [appendIfAbsent]
  refine runs_failIf (fun _ => hstay) fun hpolicy => ?_
  refine runs_interrupt (fun _ => hstay) (runs_interrupt (fun _ => hstay) ?_)
  refine runs_validateCached (fun _ => hstay) fun hlength => ?_
  refine runs_matchHead (fun _ => hstay) fun hhead => ?_
  -- the state has the head of all records, so it is the state of all records
  have hall : records.take n = records := by
    rw [h.head, hstate, stateOf_externalHead] at hhead
    have hcount := congrArg (fun head => head.recordCount.toNat) (Option.some.inj hhead)
    rw [toNat_recordCount h.count,
      toNat_recordCount ((List.length_take_le' n records).trans h.count)]
      at hcount
    exact (List.take_sublist n records).eq_of_length hcount.symm
  rw [hall] at hstate
  have hfile : s.file = image sha256 kind (ledgerNamespace sha256 policy kind) policy maxRecords
      records := by
    rw [hstate, stateOf_externalHead, toNat_recordCount h.count] at hlength
    exact (h.file.eq_of_length (by rw [length_image, hlength])).symm
  by_cases hconflict : state.conflicts candidate = true
  · rw [if_pos hconflict]
    exact runs_pure (.inl ⟨rfl, rfl⟩)
  rw [if_neg hconflict]
  refine runs_failIf (fun _ => hstay) fun hcapacity => ?_
  have hfresh : Commits sha256 kind policy maxRecords records candidate s
      (committed sha256 kind policy maxRecords (records ++ [candidate])) := by
    refine ⟨?_, not_not.mp hpolicy, fun r hr hclash => hconflict ?_, rfl, ?_⟩
    · rw [hstate, stateOf_externalHead] at hcapacity
      have hlt := UInt32.lt_iff_toNat_lt.mp (UInt32.not_le.mp hcapacity)
      rwa [toNat_recordCount h.count] at hlt
    · rw [hstate]
      exact LedgerState.conflicts_gather.mpr ⟨r, hr, hclash⟩
    · rw [hfile, committed, image_concat]
      exact List.prefix_append _ _
  refine runs_pwriteAll hlength (fun _ => .inl (s.extends_grow _)) ?_
  refine runs_interrupt (fun _ => .inl (s.extends_grow _)) ?_
  have hcount :
      checkedAdd 32 state.externalHead.recordCount.toNat 1 = some (records.length + 1) := by
    rw [hstate, stateOf_externalHead, toNat_recordCount h.count]
    refine checkedAdd_eq_some.mpr ⟨?_, rfl⟩
    have hmax := maxRecords.toNat_lt_size
    have hlt := hfresh.count
    rw [UInt32.size] at hmax
    omega
  refine runs_query_of_ok (orErr_eq_ok.mpr hcount) ?_
  refine runs_query_of_ok (fixed_eq_ok.mpr slice_encode_identity) ?_
  -- the head that is written is that of the ledger with the record
  have hnext : (⟨policy, state.externalHead.headerIdentity, .ofNat (records.length + 1),
      candidate.identity sha256 state.externalHead.recordIdentity⟩ : Head) = headOf sha256 kind
        (ledgerNamespace sha256 policy kind) policy maxRecords (records ++ [candidate]) := by
    rw [hstate, stateOf_externalHead, headOf, headOf, lastIdentity_concat, List.length_append,
      List.length_singleton]
  have hidentity : state.externalHead.recordIdentity = lastIdentity sha256 records := by
    rw [hstate, stateOf_externalHead, headOf]
  have hswap : ∀ next, next = headOf sha256 kind (ledgerNamespace sha256 policy kind) policy
      maxRecords (records ++ [candidate]) →
      (s.grow (candidate.encode sha256 state.externalHead.recordIdentity)).swap
        (some state.externalHead) next =
        committed sha256 kind policy maxRecords (records ++ [candidate]) := by
    rintro next rfl
    have hsame : (s.grow (candidate.encode sha256 state.externalHead.recordIdentity)).head =
        some state.externalHead := hhead
    rw [Storage.swap_of_eq hsame, Storage.grow, hfile, hidentity, committed, image_concat]
  refine runs_updateHead (.inl (s.extends_grow _)) (.inr ?_) ?_
  · rw [hswap _ hnext]
    exact hfresh
  rw [hswap _ hnext]
  refine runs_failIf (fun hc => absurd hhead (of_decide_eq_false hc)) fun _ => ?_
  have hinsert := LedgerState.insert_eq_ok.mpr ⟨Bool.not_eq_true _ ▸ hconflict, rfl⟩
  refine runs_query_of_ok hinsert (runs_pure (.inr ⟨?_, hfresh⟩))
  rw [hnext, hstate, stateOf_concat]

/-- A ledger that was not interrupted is opened with what it holds. -/
theorem openExisting_image (hconfigured : Configured maxRecords)
    (hcount : records.length ≤ maxRecords.toNat) (h : Accepted kind policy records) :
    (openExisting sha256 kind policy {} {} maxRecords).exec
        (committed sha256 kind policy maxRecords records) =
      (.ok (cached sha256 kind policy maxRecords records),
        committed sha256 kind policy maxRecords records) := by
  have hread : readValidatedState sha256 (committed sha256 kind policy maxRecords records).file kind
      (ledgerNamespace sha256 policy kind) policy maxRecords =
      .ok (cached sha256 kind policy maxRecords records) := readValidatedState_image hcount h
  have hvalid :
      validateCachedFileState sha256 (committed sha256 kind policy maxRecords records).file
        kind (ledgerNamespace sha256 policy kind) policy maxRecords
        (cached sha256 kind policy maxRecords records) = .ok () :=
    validateCachedFileState_image hcount
  have hcapacity : ¬ (maxRecords = 0 ∨ maxRecords > maxDurableLedgerRecords) :=
    not_or.mpr ⟨hconfigured.1, UInt32.not_lt.mpr hconfigured.2⟩
  simp only [openExisting, readExisting, validateConfiguration, interrupt, validateCurrentHead,
    matchHead, bind_assoc, pure_bind, failIf_bind_eq_ok, query_bind_eq_ok, hread, Except.ok.injEq,
    exists_eq_left']
  exact ⟨hcapacity, (), hvalid, Bool.false_ne_true, _, rfl,
    not_not.mpr stateOf_externalHead.symm, rfl⟩

end Contracts

end Ledger

end Ferric
