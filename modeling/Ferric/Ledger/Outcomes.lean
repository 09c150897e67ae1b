import Ferric.Ledger.History

/-!
# What becomes of a ledger

A write that is cut short, a lost synchronization or a lost update of the head leaves a file that is
longer than its head says. No call repairs such a file: none opens it, none appends to it and none
provisions it again. So there are three outcomes of a history. The ledger is still blank, or it is
whole and can be opened with everything that was admitted, or it is torn, and stays as it is.

## Main definitions

* `Storage.Torn` — the file is longer than the head says
* `Op.Proper` — the records are those that the callers build
* `idealAppends` — what appends are for: a record is taken unless it shares a coordinate

## Main results

* `blank_or_whole_or_torn` — the outcomes of a history
* `restarts_are_transparent` — without interruptions the ledger is the list of its records, however
  often it is opened
-/

namespace Ferric

namespace Ledger

open Ferric.Action

/-! ### Torn files -/

/-- There is a file, and it is longer than its head says. -/
structure Storage.Torn (s : Storage) : Prop where
  file : s.file ≠ []
  length : ∀ head, s.head = some head → recordOffset head.recordCount.toNat < s.file.length

section Torn

variable {sha256 : List UInt8 → Identity} {kind : LedgerKind} {policy : Identity}
variable {s : Storage} {w : World} {t : Troubles} {maxRecords : UInt32} {state : LedgerState}

/-- A torn file is not provisioned again. -/
theorem Storage.Torn.provision (h : s.Torn) : Runs s (provision sha256 kind policy t maxRecords)
    (fun _ _ => False) (fun _ s' => s' = s) := by
  rw [Ledger.provision]
  refine runs_validateConfiguration rfl fun _ => ?_
  refine runs_interrupt (fun _ => rfl) (runs_interrupt (fun _ => rfl) (runs_get ?_))
  refine runs_failIf (fun _ => rfl) fun hlength => ?_
  exact absurd (List.length_eq_zero_iff.mp (not_not.mp hlength)) h.file

/-- A torn file is not opened. -/
theorem Storage.Torn.validateCurrentHead (h : s.Torn) :
    Runs s (validateCurrentHead sha256 kind policy t maxRecords state)
      (fun _ _ => False) (fun _ s' => s' = s) := by
  refine runs_validateCurrentHead.mono ?_ fun _ _ _ hs => hs
  rintro _ _ - ⟨-, hlength, hhead⟩
  exact (h.length _ hhead).ne' hlength

/-- Nothing is appended to a torn file. -/
theorem Storage.Torn.appendIfAbsent (h : s.Torn) {candidate : LedgerRecord} :
    Runs s (appendIfAbsent sha256 kind policy t maxRecords state candidate)
      (fun _ _ => False) (fun _ s' => s' = s) := by
  rw [Ledger.appendIfAbsent]
  refine runs_failIf (fun _ => rfl) fun _ => ?_
  refine runs_interrupt (fun _ => rfl) (runs_interrupt (fun _ => rfl) ?_)
  refine runs_validateCached (fun _ => rfl) fun hlength => ?_
  exact runs_matchHead (fun _ => rfl) fun hhead => absurd hlength (h.length _ hhead).ne'

/-- No call changes a torn ledger, and nothing is seen of it. -/
theorem Storage.Torn.call (h : w.storage.Torn) (op : Op) :
    (w.call sha256 kind policy op).storage = w.storage ∧
      (w.call sha256 kind policy op).events = w.events := by
  cases op with
  | provision t maxRecords =>
    rw [World.call]
    have hruns : Runs w.storage (Ledger.provision sha256 kind policy t maxRecords) _ _ :=
      h.provision
    rcases hruns.cases with ⟨_, _, -, hfalse⟩ | ⟨e, s, hx, rfl⟩
    · cases hfalse
    · rw [hx]
      exact ⟨rfl, rfl⟩
  | read t maxRecords =>
    rw [World.call]
    have hruns : Runs w.storage (readExisting sha256 kind policy t maxRecords) _ _ :=
      runs_readExisting
    rcases hruns.cases with ⟨_, s, hx, -, rfl, -⟩ | ⟨e, s, hx, rfl⟩
    · rw [hx]
      exact ⟨rfl, rfl⟩
    · rw [hx]
      exact ⟨rfl, rfl⟩
  | validate t i =>
    rw [World.call]
    split
    · next maxRecords state heq =>
      have hruns : Runs w.storage (Ledger.validateCurrentHead sha256 kind policy t maxRecords state)
        _ _ := h.validateCurrentHead
      rcases hruns.cases with ⟨_, _, -, hfalse⟩ | ⟨e, s, hx, rfl⟩
      · cases hfalse
      · rw [hx]
        exact ⟨rfl, rfl⟩
    · exact ⟨rfl, rfl⟩
  | append t i candidate =>
    rw [World.call]
    split
    · next maxRecords state heq =>
      have hruns : Runs w.storage
        (Ledger.appendIfAbsent sha256 kind policy t maxRecords state candidate) _ _ :=
          h.appendIfAbsent
      rcases hruns.cases with ⟨_, _, -, hfalse⟩ | ⟨e, s, hx, rfl⟩
      · cases hfalse
      · rw [hx]
        exact ⟨rfl, rfl⟩
    · exact ⟨rfl, rfl⟩
  | drop i => exact ⟨rfl, rfl⟩

/-- A torn ledger stays as it is in every history. -/
theorem Storage.Torn.run (h : w.storage.Torn) (ops : List Op) :
    (ops.foldl (fun w op => w.call sha256 kind policy op) w).storage = w.storage ∧
      (ops.foldl (fun w op => w.call sha256 kind policy op) w).events = w.events := by
  induction ops generalizing w with
  | nil => exact ⟨rfl, rfl⟩
  | cons op ops ih =>
    have hcall : (w.call sha256 kind policy op).storage = w.storage ∧
        (w.call sha256 kind policy op).events = w.events := h.call op
    obtain ⟨hstorage, hevents⟩ := hcall
    have hnext : (w.call sha256 kind policy op).storage.Torn := by
      rw [hstorage]
      exact h
    obtain ⟨hstorage', hevents'⟩ := ih hnext
    exact ⟨hstorage'.trans hstorage, hevents'.trans hevents⟩

end Torn

/-! ### Histories of the callers -/

/-- The record of an append is one that the callers of a ledger of its kind build. -/
def Op.Proper (kind : LedgerKind) : Op → Prop
  | .append _ _ candidate => candidate.kind = kind ∧ candidate.Admissible
  | _ => True

/-- A head is that of records that a file may hold, and the file starts with them. -/
def Backed (sha256 : List UInt8 → Identity) (kind : LedgerKind) (policy : Identity)
    (s : Storage) : Prop :=
  s.head = none ∨ ∃ maxRecords records, Configured maxRecords ∧ Accepted kind policy records ∧
    Anchored sha256 kind policy maxRecords records s

section Outcomes

variable {sha256 : List UInt8 → Identity} {kind : LedgerKind} {policy : Identity}
variable {s s' : Storage} {w : World} {t : Troubles} {maxRecords maxRecords' : UInt32}
variable {records records' : List LedgerRecord}

theorem Anchored.extends (h : Anchored sha256 kind policy maxRecords records s)
    (hs : s.Extends s') : Anchored sha256 kind policy maxRecords records s' :=
  ⟨hs.1.trans h.head, h.file.trans hs.2, h.count⟩

theorem Backed.extends (h : Backed sha256 kind policy s) (hs : s.Extends s') :
    Backed sha256 kind policy s' := by
  rcases h with hnone | ⟨maxRecords, records, hconfigured, haccepted, hanchored⟩
  · exact .inl (hs.1.trans hnone)
  · exact .inr ⟨maxRecords, records, hconfigured, haccepted, hanchored.extends hs⟩

/-- The records of a ledger are determined by its storage. -/
theorem Anchored.unique (h : Anchored sha256 kind policy maxRecords records s)
    (h' : Anchored sha256 kind policy maxRecords' records' s) :
    maxRecords = maxRecords' ∧ records = records' := by
  have hhead := h.head.symm.trans h'.head
  have hcount := congrArg (fun head => head.recordCount.toNat) (Option.some.inj hhead)
  rw [toNat_recordCount h.count, toNat_recordCount h'.count] at hcount
  have hlength : (image sha256 kind (ledgerNamespace sha256 policy kind) policy maxRecords
      records).length = (image sha256 kind (ledgerNamespace sha256 policy kind) policy maxRecords'
        records').length := by
    rw [length_image, length_image, hcount]
  exact image_injective
    ((List.prefix_of_prefix_length_le h.file h'.file hlength.le).eq_of_length hlength)

theorem backed_committed (hconfigured : Configured maxRecords)
    (haccepted : Accepted kind policy records) (hcount : records.length ≤ maxRecords.toNat) :
    Backed sha256 kind policy (committed sha256 kind policy maxRecords records) :=
  .inr ⟨maxRecords, records, hconfigured, haccepted, rfl, List.prefix_rfl, hcount⟩

/-- A capacity that no ledger has is refused before anything is written. -/
theorem provision_of_not_configured (h : ¬ Configured maxRecords) :
    (provision sha256 kind policy t maxRecords).exec s = (.error (.err .invalidCapacity), s) := by
  have hcapacity : maxRecords = 0 ∨ maxRecords > maxDurableLedgerRecords := by
    by_contra hc
    obtain ⟨hzero, hmax⟩ := not_or.mp hc
    exact h ⟨hzero, UInt32.not_lt.mp hmax⟩
  rw [provision, validateConfiguration, Action.failIf, if_pos hcapacity]
  rfl

/-- A call with a record of its callers leaves records that a file may hold. -/
theorem Backed.call (h : Backed sha256 kind policy w.storage) (hw : Coherent sha256 kind policy w)
    {op : Op} (hop : op.Proper kind) :
    Backed sha256 kind policy (w.call sha256 kind policy op).storage := by
  cases op with
  | provision t maxRecords =>
    rw [World.call]
    by_cases hconfigured : Configured maxRecords
    · have hruns : Runs w.storage (provision sha256 kind policy t maxRecords) _ _ := runs_provision
      have hempty : Backed sha256 kind policy (committed sha256 kind policy maxRecords []) :=
        backed_committed hconfigured accepted_nil (Nat.zero_le _)
      rcases hruns.cases with ⟨state, s, hx, -, -, -, rfl, -⟩ | ⟨e, s, hx, hgrown | ⟨-, -, rfl⟩⟩
      · rw [hx]
        exact hempty
      · rw [hx]
        exact h.extends hgrown
      · rw [hx]
        exact hempty
    · rw [provision_of_not_configured hconfigured]
      exact h
  | read t maxRecords =>
    rw [World.call]
    have hruns : Runs w.storage (readExisting sha256 kind policy t maxRecords) _ _ :=
      runs_readExisting
    rcases hruns.cases with ⟨state, s, hx, -, rfl, -⟩ | ⟨e, s, hx, rfl⟩
    · rw [hx]
      exact h
    · rw [hx]
      exact h
  | validate t i =>
    rw [World.call]
    split
    · next maxRecords state heq =>
      have hruns : Runs w.storage (validateCurrentHead sha256 kind policy t maxRecords state) _ _ :=
        runs_validateCurrentHead
      rcases hruns.cases with ⟨_, s, hx, rfl, -⟩ | ⟨e, s, hx, rfl⟩
      · rw [hx]
        exact h
      · rw [hx]
        exact h
    · exact h
  | append t i candidate =>
    rw [World.call]
    split
    · next maxRecords state heq =>
      have hmem := List.mem_of_getElem? heq
      rcases hw.ledger with ⟨-, -, hall⟩ | ⟨maxRecords', records, hs⟩
      · cases hall _ hmem
      obtain ⟨hmax, n, hstate⟩ := hs.opened _ hmem rfl
      obtain rfl : maxRecords = maxRecords' := hmax
      -- the records that back the head are those of the capabilities
      rcases h with hnone | ⟨maxRecords', records', hconfigured, haccepted, hanchored⟩
      · rw [hs.anchored.head] at hnone
        cases hnone
      obtain ⟨rfl, rfl⟩ := hs.anchored.unique hanchored
      have hold : Backed sha256 kind policy w.storage :=
        .inr ⟨maxRecords, records, hconfigured, haccepted, hanchored⟩
      have hnew : ∀ s, Commits sha256 kind policy maxRecords records candidate w.storage s →
          Backed sha256 kind policy s := by
        rintro _ ⟨hcount, hpolicy, hdistinct, rfl, -⟩
        refine backed_committed hconfigured (accepted_concat.mpr ⟨haccepted, hop.1, hpolicy, hop.2,
          hdistinct⟩) ?_
        rw [List.length_append]
        exact hcount
      have hruns : Runs w.storage (appendIfAbsent sha256 kind policy t maxRecords state candidate)
        _ _ := runs_appendIfAbsent hs.anchored hstate
      rcases hruns.cases with ⟨out, s, hx, ⟨rfl, rfl⟩ | ⟨rfl, hc⟩⟩ | ⟨e, s, hx, hgrown | hc⟩
      · rw [hx]
        exact hold
      · rw [hx]
        exact hnew s hc
      · rw [hx]
        exact hold.extends hgrown
      · rw [hx]
        exact hnew s hc
    · exact h
  | drop i => exact h

theorem backed_run {ops : List Op} (h : ∀ op ∈ ops, op.Proper kind) :
    Backed sha256 kind policy (World.run sha256 kind policy ops).storage := by
  induction ops using List.reverseRecOn with
  | nil => exact .inl rfl
  | append_singleton ops op ih =>
    have hbefore := ih fun op hop => h op (List.mem_append_left _ hop)
    have hlast : op.Proper kind := h op (List.mem_append_right _ (List.mem_singleton_self op))
    have hcoherent := coherent (reachable_run sha256 kind policy ops)
    rw [World.run, List.foldl_append]
    exact hbefore.call hcoherent hlast

/-- A storage with a backed head is blank, whole or torn. -/
theorem Backed.cases (h : Backed sha256 kind policy s) : s = ⟨[], none⟩ ∨
    (∃ maxRecords records, Configured maxRecords ∧ records.length ≤ maxRecords.toNat ∧
      Accepted kind policy records ∧ s = committed sha256 kind policy maxRecords records) ∨
    s.Torn := by
  obtain ⟨file, head⟩ := s
  rcases h with rfl | ⟨maxRecords, records, hconfigured, haccepted, hhead, hfile, hcount⟩
  · by_cases hfile : file = []
    · exact .inl (by rw [hfile])
    · refine .inr (.inr ⟨hfile, fun head hhead => ?_⟩)
      cases hhead
  · obtain rfl : head = _ := hhead
    have hle := hfile.length_le
    rw [length_image] at hle
    by_cases hlength : file.length = recordOffset records.length
    · refine .inr (.inl ⟨maxRecords, records, hconfigured, hcount, haccepted, ?_⟩)
      rw [committed, hfile.eq_of_length (by rw [length_image, ← hlength])]
    · refine .inr (.inr ⟨fun hnil => ?_, fun head hhead => ?_⟩)
      · obtain rfl : file = [] := hnil
        have hheader := headerBytes_le_recordOffset records.length
        rw [List.length_nil] at hle
        exact absurd (hheader.trans hle) (by decide)
      · rw [← Option.some.inj hhead, toNat_recordCount hcount]
        exact lt_of_le_of_ne hle (Ne.symm hlength)

/-- **The outcomes of a history.** Whatever the callers do and wherever their calls are interrupted,
the ledger is blank, or it is whole and is opened with its records, or it is torn, and then nothing
that follows changes it or is seen of it. -/
theorem blank_or_whole_or_torn {ops : List Op} (h : ∀ op ∈ ops, op.Proper kind) :
    (World.run sha256 kind policy ops).storage = ⟨[], none⟩ ∨
    (∃ maxRecords records, Accepted kind policy records ∧
      (World.run sha256 kind policy ops).storage = committed sha256 kind policy maxRecords records ∧
      ((World.run sha256 kind policy ops).events.filterMap Event.record?).Sublist records ∧
      (openExisting sha256 kind policy {} {} maxRecords).exec
          (World.run sha256 kind policy ops).storage =
        (.ok (cached sha256 kind policy maxRecords records),
          (World.run sha256 kind policy ops).storage)) ∨
    ((World.run sha256 kind policy ops).storage.Torn ∧ ∀ more,
      (World.run sha256 kind policy (ops ++ more)).storage =
          (World.run sha256 kind policy ops).storage ∧
        (World.run sha256 kind policy (ops ++ more)).events =
          (World.run sha256 kind policy ops).events) := by
  have hbacked : Backed sha256 kind policy (World.run sha256 kind policy ops).storage :=
    backed_run h
  rcases hbacked.cases with hblank |
    ⟨maxRecords, records, hconfigured, hcount, haccepted, hwhole⟩ | htorn
  · exact .inl hblank
  · refine .inr (.inl ⟨maxRecords, records, haccepted, hwhole, ?_, ?_⟩)
    · have hanchored : Anchored sha256 kind policy maxRecords records
          (World.run sha256 kind policy ops).storage := by
        rw [hwhole]
        exact ⟨rfl, List.prefix_rfl, hcount⟩
      rcases (coherent (reachable_run sha256 kind policy ops)).ledger with ⟨hnone, -, -⟩ |
        ⟨maxRecords', records', hs⟩
      · rw [hanchored.head] at hnone
        cases hnone
      · obtain ⟨rfl, rfl⟩ := hanchored.unique hs.anchored
        exact hs.admitted
    · rw [hwhole]
      exact openExisting_image hconfigured hcount haccepted
  · refine .inr (.inr ⟨htorn, fun more => ?_⟩)
    rw [World.run, List.foldl_append]
    exact htorn.run more

end Outcomes

/-- A write that is cut short after five bytes. -/
def tears : List Op :=
  [.provision {} 4, .append { write := some 5 } 0
    (challengeOf (1, 2, 3))]

def afterTears (more : List Op) : World :=
  World.run constantDigest .replay (constantDigest []) (tears ++ more)

theorem blank_or_whole_or_torn_tears : (afterTears []).storage.file.length = 133 ∧
    ((afterTears []).storage = ⟨[], none⟩ ∨
      (∃ maxRecords records, Accepted .replay (constantDigest []) records ∧
        (afterTears []).storage =
          committed constantDigest .replay (constantDigest []) maxRecords records ∧
        ((afterTears []).events.filterMap Event.record?).Sublist records ∧
        (openExisting constantDigest .replay (constantDigest []) {} {} maxRecords).exec
            (afterTears []).storage =
          (.ok (cached constantDigest .replay (constantDigest []) maxRecords records),
            (afterTears []).storage)) ∨
      ((afterTears []).storage.Torn ∧ ∀ more, (afterTears more).storage = (afterTears []).storage ∧
        (afterTears more).events = (afterTears []).events)) := by
  refine ⟨by decide +kernel, ?_⟩
  have hproper : ∀ op ∈ tears, op.Proper .replay := by
    intro op hop
    rcases List.mem_cons.mp hop with rfl | hop
    · trivial
    · obtain rfl := List.mem_singleton.mp hop
      exact ⟨rfl, admissible_challengeRecord (by decide)⟩
  exact blank_or_whole_or_torn hproper

/-! ### The ideal ledger -/

instance {r r' : LedgerRecord} : Decidable (r.Clashes r') :=
  inferInstanceAs (Decidable (_ ∧ _ ∧ _ ∨ _ ∧ _ ∧ _))

/-- An append to the list of the records that were taken. -/
def idealAppend (policy : Identity) (maxRecords : UInt32) (candidate : LedgerRecord) :
    Action (List LedgerRecord) LedgerError Bool := do
  Action.failIf (candidate.policy ≠ policy) .policyIdentityMismatch
  let records ← get
  if ∃ r ∈ records, r.Clashes candidate then
    return false
  Action.failIf (maxRecords.toNat ≤ records.length) .capacityExhausted
  modify (· ++ [candidate])
  return true

/-- What an append returned, an error included. -/
abbrev Answer := Outcome LedgerError Bool

/-- Appends one after another, with the answer of each. An append that fails does not stop them. -/
def idealAppends (policy : Identity) (maxRecords : UInt32) :
    List LedgerRecord → List LedgerRecord → List Answer × List LedgerRecord
  | [], records => ([], records)
  | candidate :: candidates, records =>
    let (answer, records) := (idealAppend policy maxRecords candidate).exec records
    let (answers, records) := idealAppends policy maxRecords candidates records
    (answer :: answers, records)

/-- Calls of a capability that nothing interrupts, with the answer of each. A call that fails leaves
the cached state as it was, and the next one is made. -/
def appends (sha256 : List UInt8 → Identity) (kind : LedgerKind) (policy : Identity)
    (maxRecords : UInt32) :
    List LedgerRecord → LedgerState → Storage → List Answer × LedgerState × Storage
  | [], state, s => ([], state, s)
  | candidate :: candidates, state, s =>
    match (appendIfAbsent sha256 kind policy {} maxRecords state candidate).exec s with
    | (.ok (admitted, state), s) =>
      let (answers, state, s) := appends sha256 kind policy maxRecords candidates state s
      (.ok admitted :: answers, state, s)
    | (.error e, s) =>
      let (answers, state, s) := appends sha256 kind policy maxRecords candidates state s
      (.error e :: answers, state, s)

section Ideal

variable {sha256 : List UInt8 → Identity} {kind : LedgerKind} {policy : Identity}
variable {maxRecords : UInt32} {records : List LedgerRecord} {candidate : LedgerRecord}

theorem idealAppend_otherPolicy (h : candidate.policy ≠ policy) :
    (idealAppend policy maxRecords candidate).exec records =
      (.error (.err .policyIdentityMismatch), records) := by
  rw [idealAppend, Action.failIf, if_pos h]
  rfl

theorem idealAppend_refused (hpolicy : candidate.policy = policy)
    (h : ∃ r ∈ records, r.Clashes candidate) :
    (idealAppend policy maxRecords candidate).exec records = (.ok false, records) := by
  rw [idealAppend, failIf_bind_eq_ok, get_bind_eq_ok, if_pos h]
  exact ⟨not_not.mpr hpolicy, rfl⟩

theorem idealAppend_full (hpolicy : candidate.policy = policy)
    (h : ¬ ∃ r ∈ records, r.Clashes candidate) (hfull : maxRecords.toNat ≤ records.length) :
    (idealAppend policy maxRecords candidate).exec records =
      (.error (.err .capacityExhausted), records) := by
  rw [idealAppend, Action.failIf, if_neg (not_not.mpr hpolicy), pure_bind]
  show (if ∃ r ∈ records, r.Clashes candidate then _ else _ :
    Action (List LedgerRecord) LedgerError Bool).exec records = _
  rw [if_neg h, Action.failIf, if_pos hfull]
  rfl

theorem idealAppend_taken (hpolicy : candidate.policy = policy)
    (h : ¬ ∃ r ∈ records, r.Clashes candidate) (hfree : records.length < maxRecords.toNat) :
    (idealAppend policy maxRecords candidate).exec records =
      (.ok true, records ++ [candidate]) := by
  rw [idealAppend, failIf_bind_eq_ok, get_bind_eq_ok, if_neg h, failIf_bind_eq_ok]
  exact ⟨not_not.mpr hpolicy, not_le.mpr hfree, rfl⟩

theorem runs_compareExchangeHead {α : Type} {s : Storage} {current next : Head}
    {g : Bool → StoreM α} {P : α → Storage → Prop} {E : LedgerError → Storage → Prop}
    (h : Runs (s.swap (some current) next) (g (decide (s.head = some current))) P E) :
    Runs s (compareExchangeHead none current next >>= g) P E := h

/-- What a call that nothing interrupts answers, and why it may fail. -/
theorem runs_untroubled (hcount : records.length ≤ maxRecords.toNat) :
    Runs (committed sha256 kind policy maxRecords records)
      (appendIfAbsent sha256 kind policy {} maxRecords
        (cached sha256 kind policy maxRecords records) candidate)
      (fun out _ => out.1 = false →
        candidate.policy = policy ∧ ∃ r ∈ records, r.Clashes candidate)
      (fun e s' => s' = committed sha256 kind policy maxRecords records ∧
        (idealAppend policy maxRecords candidate).exec records = (.error (.err e), records)) := by
  have hhead : (cached sha256 kind policy maxRecords records).externalHead =
      headOf sha256 kind (ledgerNamespace sha256 policy kind) policy maxRecords records :=
    stateOf_externalHead
  have hrecords : (cached sha256 kind policy maxRecords records).externalHead.recordCount.toNat =
      records.length := by
    rw [hhead, toNat_recordCount hcount]
  rw [appendIfAbsent]
  refine runs_failIf (fun hpolicy => ⟨rfl, idealAppend_otherPolicy hpolicy⟩) fun hpolicy => ?_
  replace hpolicy := not_not.mp hpolicy
  show Runs _ ((query fun _ => _) >>= _) _ _
  refine runs_query_of_ok (validateCachedFileState_image hcount) ?_
  rw [matchHead, bind_assoc]
  refine runs_failIf (fun hload => absurd hload Bool.false_ne_true) fun _ => ?_
  rw [bind_assoc]
  refine runs_query_of_ok (orErr_eq_ok.mpr rfl) ?_
  refine runs_failIf (fun hne => absurd hhead.symm hne) fun _ => ?_
  by_cases hconflict : (cached sha256 kind policy maxRecords records).conflicts candidate = true
  · rw [if_pos hconflict]
    exact runs_pure fun _ => ⟨hpolicy, LedgerState.conflicts_gather.mp hconflict⟩
  rw [if_neg hconflict]
  have hfresh : ¬ ∃ r ∈ records, r.Clashes candidate := by
    intro hclash
    exact hconflict (LedgerState.conflicts_gather.mpr hclash)
  refine runs_failIf (fun hfull => ⟨rfl, idealAppend_full hpolicy hfresh ?_⟩) fun hcapacity => ?_
  · have hle := UInt32.le_iff_toNat_le.mp hfull
    rwa [hrecords] at hle
  have hfree : records.length < maxRecords.toNat := by
    have hlt := UInt32.lt_iff_toNat_lt.mp (UInt32.not_le.mp hcapacity)
    rwa [hrecords] at hlt
  have hnext : checkedAdd 32
      (cached sha256 kind policy maxRecords records).externalHead.recordCount.toNat 1 =
        some (records.length + 1) := by
    rw [hrecords]
    refine checkedAdd_eq_some.mpr ⟨?_, rfl⟩
    have hmax := maxRecords.toNat_lt_size
    rw [UInt32.size] at hmax
    omega
  refine runs_modify ?_
  show Runs _ ((query fun _ => _) >>= _) _ _
  refine runs_query_of_ok (orErr_eq_ok.mpr hnext) ?_
  refine runs_query_of_ok (fixed_eq_ok.mpr slice_encode_identity) ?_
  -- the write has left the head alone
  refine runs_compareExchangeHead ?_
  refine runs_failIf (fun hc => absurd hhead.symm fun heq => ?_) fun _ => ?_
  · exact of_decide_eq_false hc (congrArg some heq)
  have hinsert := LedgerState.insert_eq_ok.mpr ⟨Bool.not_eq_true _ ▸ hconflict, rfl⟩
  refine runs_query_of_ok hinsert (runs_pure fun hfalse => ?_)
  cases hfalse

/-- A call that nothing interrupts does what the ideal ledger does. -/
theorem appendIfAbsent_ideal (hcount : records.length ≤ maxRecords.toNat) :
    Runs (committed sha256 kind policy maxRecords records)
      (appendIfAbsent sha256 kind policy {} maxRecords
        (cached sha256 kind policy maxRecords records) candidate)
      (fun out s' => ∃ records', records'.length ≤ maxRecords.toNat ∧
        (idealAppend policy maxRecords candidate).exec records = (.ok out.1, records') ∧
        out.2 = cached sha256 kind policy maxRecords records' ∧
        s' = committed sha256 kind policy maxRecords records')
      (fun e s' => s' = committed sha256 kind policy maxRecords records ∧
        (idealAppend policy maxRecords candidate).exec records = (.error (.err e), records)) := by
  have hanchored : Anchored sha256 kind policy maxRecords records
      (committed sha256 kind policy maxRecords records) := ⟨rfl, List.prefix_rfl, hcount⟩
  have htake : cached sha256 kind policy maxRecords records =
      cached sha256 kind policy maxRecords (records.take records.length) := by
    rw [List.take_length]
  refine (runs_untroubled hcount).mono ?_ fun _ _ _ he => he
  intro out s' hx hrefused
  rcases (runs_appendIfAbsent hanchored htake).of_ok hx with ⟨rfl, rfl⟩ | ⟨rfl, hc⟩
  · obtain ⟨hpolicy, hclash⟩ := hrefused rfl
    exact ⟨records, hcount, idealAppend_refused hpolicy hclash, rfl, rfl⟩
  · refine ⟨records ++ [candidate], ?_, idealAppend_taken hc.policy_eq ?_ hc.count, rfl, hc.storage⟩
    · rw [List.length_append]
      exact hc.count
    · rintro ⟨r, hr, hclash⟩
      exact hc.distinct r hr hclash

/-- The calls of a capability give the answers of the ideal ledger, errors included, and leave the
file, the head and the cached state of its records. -/
theorem appends_ideal (h : records.length ≤ maxRecords.toNat) (candidates : List LedgerRecord) :
    appends sha256 kind policy maxRecords candidates (cached sha256 kind policy maxRecords records)
        (committed sha256 kind policy maxRecords records) =
      ((idealAppends policy maxRecords candidates records).1,
        cached sha256 kind policy maxRecords
          (idealAppends policy maxRecords candidates records).2,
        committed sha256 kind policy maxRecords
          (idealAppends policy maxRecords candidates records).2) := by
  induction candidates generalizing records with
  | nil => rfl
  | cons candidate candidates ih =>
    have hruns : Runs (committed sha256 kind policy maxRecords records)
      (appendIfAbsent sha256 kind policy {} maxRecords
        (cached sha256 kind policy maxRecords records) candidate) _ _ := appendIfAbsent_ideal h
    rw [appends, idealAppends]
    rcases hruns.cases with ⟨⟨admitted, state⟩, s, hx, records', hcount, hideal, hstate, rfl⟩ |
      ⟨e, s, hx, rfl, hideal⟩
    · obtain rfl : state = cached sha256 kind policy maxRecords records' := hstate
      rw [hx, hideal]
      show (_ :: (appends _ _ _ _ _ _ _).1, (appends _ _ _ _ _ _ _).2) = _
      rw [ih hcount]
    · rw [hx, hideal]
      show (_ :: (appends _ _ _ _ _ _ _).1, (appends _ _ _ _ _ _ _).2) = _
      rw [ih h]

/-! ### Sessions -/

theorem idealAppend_accepted (h : Accepted kind policy records)
    (hcount : records.length ≤ maxRecords.toNat) (hkind : candidate.kind = kind)
    (hadmissible : candidate.Admissible) :
    Runs records (idealAppend policy maxRecords candidate)
      (fun _ records' => Accepted kind policy records' ∧ records'.length ≤ maxRecords.toNat)
      (fun _ records' => Accepted kind policy records' ∧ records'.length ≤ maxRecords.toNat) := by
  rw [idealAppend]
  refine runs_failIf (fun _ => ⟨h, hcount⟩) fun hpolicy => runs_get ?_
  by_cases hclash : ∃ r ∈ records, r.Clashes candidate
  · rw [if_pos hclash]
    exact runs_pure ⟨h, hcount⟩
  rw [if_neg hclash]
  refine runs_failIf (fun _ => ⟨h, hcount⟩) fun hfree => runs_modify (runs_pure ⟨?_, ?_⟩)
  · refine accepted_concat.mpr ⟨h, hkind, not_not.mp hpolicy, hadmissible, fun r hr hc => ?_⟩
    exact hclash ⟨r, hr, hc⟩
  · rw [List.length_append]
    exact not_le.mp hfree

/-- The ideal ledger holds what a file may hold. -/
theorem idealAppends_accepted {candidates : List LedgerRecord} (h : Accepted kind policy records)
    (hcount : records.length ≤ maxRecords.toNat)
    (hproper : ∀ c ∈ candidates, c.kind = kind ∧ c.Admissible) :
    Accepted kind policy (idealAppends policy maxRecords candidates records).2 ∧
      (idealAppends policy maxRecords candidates records).2.length ≤ maxRecords.toNat := by
  induction candidates generalizing records with
  | nil => exact ⟨h, hcount⟩
  | cons candidate candidates ih =>
    obtain ⟨hkind, hadmissible⟩ := hproper candidate List.mem_cons_self
    have hmore : ∀ c ∈ candidates, c.kind = kind ∧ c.Admissible :=
      fun c hc => hproper c (List.mem_cons_of_mem _ hc)
    obtain ⟨haccepted, hlength⟩ := (idealAppend_accepted h hcount hkind hadmissible).final
      (fun _ _ hl => hl) fun _ _ hl => hl
    exact ih haccepted hlength hmore

end Ideal

section Sessions

variable (sha256 : List UInt8 → Identity) (kind : LedgerKind) (policy : Identity)

/-- Sessions one after another. In each of them the ledger is opened, and its capability is used and
lost. A session returns the answers of its calls, or the error of its opening. -/
def sessions (maxRecords : UInt32) :
    List (List LedgerRecord) → Storage → List (Outcome LedgerError (List Answer)) × Storage
  | [], s => ([], s)
  | candidates :: rest, s =>
    match (openExisting sha256 kind policy {} {} maxRecords).exec s with
    | (.ok state, s) =>
      let (answers, _, s) := appends sha256 kind policy maxRecords candidates state s
      let (more, s) := sessions maxRecords rest s
      (.ok answers :: more, s)
    | (.error e, s) =>
      let (more, s) := sessions maxRecords rest s
      (.error e :: more, s)

/-- The same on the ideal ledger, which is never opened. -/
def idealSessions (maxRecords : UInt32) :
    List (List LedgerRecord) → List LedgerRecord → List (List Answer) × List LedgerRecord
  | [], records => ([], records)
  | candidates :: rest, records =>
    let (answers, records) := idealAppends policy maxRecords candidates records
    let (more, records) := idealSessions maxRecords rest records
    (answers :: more, records)

variable {sha256 kind policy} {maxRecords : UInt32} {records : List LedgerRecord}

/-- **Without interruptions a ledger is the list of its records.** However its calls are split into
sessions, each session opens the ledger, its calls give the answers of one list of records that is
never closed, the errors of a full list and of another policy included, and the file and the head
are those of the list. -/
theorem restarts_are_transparent (hconfigured : Configured maxRecords)
    (hcount : records.length ≤ maxRecords.toNat) (h : Accepted kind policy records)
    (candidates : List (List LedgerRecord))
    (hproper : ∀ cs ∈ candidates, ∀ c ∈ cs, c.kind = kind ∧ c.Admissible) :
    sessions sha256 kind policy maxRecords candidates
        (committed sha256 kind policy maxRecords records) =
      ((idealSessions policy maxRecords candidates records).1.map .ok,
        committed sha256 kind policy maxRecords
          (idealSessions policy maxRecords candidates records).2) := by
  induction candidates generalizing records with
  | nil => rfl
  | cons cs candidates ih =>
    have hmore : ∀ cs ∈ candidates, ∀ c ∈ cs, c.kind = kind ∧ c.Admissible :=
      fun cs hcs => hproper cs (List.mem_cons_of_mem _ hcs)
    obtain ⟨haccepted, hlength⟩ :=
      idealAppends_accepted h hcount (hproper cs List.mem_cons_self)
    rw [sessions, openExisting_image hconfigured hcount h, idealSessions]
    show (.ok (appends _ _ _ _ _ _ _).1 :: (sessions _ _ _ _ _ _).1, (sessions _ _ _ _ _ _).2) = _
    rw [appends_ideal hcount, ih hlength haccepted hmore]
    rfl

end Sessions

/-- A ledger of two records: a challenge for another policy, one that is taken, the same one again,
and two more. After a restart the first one is asked for once more. -/
def challenges : List (List LedgerRecord) :=
  [[challengeRecord (1, 2, 3) (.zero 32) (constantDigest []), challengeOf (1, 2, 3),
      challengeOf (1, 2, 3), challengeOf (4, 5, 6), challengeOf (7, 8, 9)],
    [challengeOf (1, 2, 3)]]

def idealChallenges : List (List Answer) × List LedgerRecord :=
  idealSessions (constantDigest []) 2 challenges []

theorem restarts_are_transparent_challenges :
    idealChallenges.1 = [[.error (.err .policyIdentityMismatch), .ok true, .ok false, .ok true,
      .error (.err .capacityExhausted)], [.ok false]] ∧
    sessions constantDigest .replay (constantDigest []) 2 challenges
        (committed constantDigest .replay (constantDigest []) 2 []) =
      (idealChallenges.1.map .ok,
        committed constantDigest .replay (constantDigest []) 2 idealChallenges.2) := by
  refine ⟨by decide +kernel, restarts_are_transparent ⟨by decide, by decide⟩ (Nat.zero_le _)
    accepted_nil challenges ?_⟩
  intro cs hcs c hc
  have hall : ∀ cs ∈ challenges, ∀ c ∈ cs, c.kind = .replay ∧ c.primary = constantDigest [] ∧
      c.secondary = .zero 32 ∧ c.request = .zero 32 := by
    decide +kernel
  obtain ⟨hkind, hprimary, hsecondary, hrequest⟩ := hall cs hcs c hc
  refine ⟨hkind, ?_, fun _ => ⟨hsecondary, hrequest⟩, fun hreservation => ?_⟩
  · rw [hprimary]
    decide
  · rw [hkind] at hreservation
    cases hreservation

end Ledger

end Ferric
