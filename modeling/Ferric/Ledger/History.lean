import Ferric.Ledger.Store
import Ferric.Lib.System

/-!
# Histories of a ledger

Any number of capabilities work on one ledger, each with its own cached state, and every call can be
interrupted or be the last one of its capability. The head in the store is what orders them: it is
that of some records, the file starts with these records, and what each capability has cached is a
front part of them. A capability whose front part is not everything finds the file too long, or the
head different, before it writes. So no record is lost, and none shares a coordinate with another.

## Main definitions

* `World`, `Op`, `ledger` — the storage with the capabilities, the calls, and the system of both
* `Coherent` — what holds in every history

## Main results

* `admitted_once` — no coordinate is admitted twice, and what is admitted stays in the ledger
* `file_is_state` — the file and the cached state of a ledger are the same information
* `not_file_is_state` — a replay record with a second identity is appended, and never read again
-/

namespace Ferric

namespace Ledger

/-- A capability, or an opening that has read the file and has still to compare the head. -/
structure Holder where
  maxRecords : UInt32
  state : LedgerState
  opened : Bool

/-- What a caller has seen. -/
inductive Event where
  /-- `append_if_absent` returned `Ok(true)`. -/
  | admitted (r : LedgerRecord)
  /-- `open_existing_from_supervisor` returned a capability with this state. -/
  | opened (state : LedgerState)

/-- The storage, the capabilities on it, and what was seen so far. -/
structure World where
  storage : Storage
  holders : List Holder
  events : List Event

/-- The calls, with what goes wrong in them. -/
inductive Op where
  | provision (t : Troubles) (maxRecords : UInt32)
  | read (t : Troubles) (maxRecords : UInt32)
  | validate (t : Troubles) (holder : ℕ)
  | append (t : Troubles) (holder : ℕ) (candidate : LedgerRecord)
  | drop (holder : ℕ)

section System

variable (sha256 : List UInt8 → Identity) (kind : LedgerKind) (policy : Identity)

/-- A call. Opening a ledger is two of them, one for each time it takes the lock. -/
def World.call (w : World) : Op → World
  | .provision t maxRecords =>
    match (provision sha256 kind policy t maxRecords).exec w.storage with
    | (.ok state, s) => ⟨s, w.holders ++ [⟨maxRecords, state, true⟩], w.events⟩
    | (.error _, s) => ⟨s, w.holders, w.events⟩
  | .read t maxRecords =>
    match (readExisting sha256 kind policy t maxRecords).exec w.storage with
    | (.ok state, s) => ⟨s, w.holders ++ [⟨maxRecords, state, false⟩], w.events⟩
    | (.error _, s) => ⟨s, w.holders, w.events⟩
  | .validate t i =>
    match w.holders[i]? with
    | some ⟨maxRecords, state, false⟩ =>
      match (validateCurrentHead sha256 kind policy t maxRecords state).exec w.storage with
      | (.ok (), s) => ⟨s, w.holders.set i ⟨maxRecords, state, true⟩, w.events ++ [.opened state]⟩
      | (.error _, s) => ⟨s, w.holders.eraseIdx i, w.events⟩
    | _ => w
  | .append t i candidate =>
    match w.holders[i]? with
    | some ⟨maxRecords, state, true⟩ =>
      match (appendIfAbsent sha256 kind policy t maxRecords state candidate).exec w.storage with
      | (.ok (true, state'), s) =>
        ⟨s, w.holders.set i ⟨maxRecords, state', true⟩, w.events ++ [.admitted candidate]⟩
      | (.ok (false, state'), s) => ⟨s, w.holders.set i ⟨maxRecords, state', true⟩, w.events⟩
      | (.error _, s) => ⟨s, w.holders, w.events⟩
    | _ => w
  | .drop i => ⟨w.storage, w.holders.eraseIdx i, w.events⟩

/-- A ledger from its empty file on. -/
def ledger : System World Op where
  init w := w = ⟨⟨[], none⟩, [], []⟩
  step w op w' := w' = w.call sha256 kind policy op

/-- A world from the empty file by some calls. -/
def World.run (ops : List Op) : World :=
  ops.foldl (fun w op => w.call sha256 kind policy op) ⟨⟨[], none⟩, [], []⟩

theorem reachable_run (ops : List Op) :
    (ledger sha256 kind policy).Reachable (World.run sha256 kind policy ops) := by
  induction ops using List.reverseRecOn with
  | nil => exact .init rfl
  | append_singleton ops op ih =>
    rw [World.run, List.foldl_append]
    exact ih.step (a := op) rfl

end System

/-! ### What is seen -/

/-- The coordinates of a record are in the state. -/
def LedgerState.Contains (s : LedgerState) (r : LedgerRecord) : Prop :=
  match r.kind with
  | .replay => (r.caller, r.policy, r.primary) ∈ s.replay
  | .reservation => r.primary ∈ s.challenges ∧ r.secondary ∈ s.reservations ∧ r.request ∈ s.requests

/-- What may be seen after something else. -/
def Event.Then : Event → Event → Prop
  | .admitted r, .admitted r' => ¬ r.Clashes r'
  | .admitted r, .opened s => s.Contains r
  | .opened _, _ => True

/-- The record of an event. -/
def Event.record? : Event → Option LedgerRecord
  | .admitted r => some r
  | .opened _ => none

section Invariant

variable {sha256 : List UInt8 → Identity} {kind : LedgerKind} {ns policy : Identity}
variable {maxRecords : UInt32} {records : List LedgerRecord} {w : World}

theorem LedgerState.Contains.withCoordinates {s : LedgerState} {r r' : LedgerRecord}
    (h : s.Contains r) : (s.withCoordinates r'.kind r'.caller r'.policy r'.primary r'.secondary
      r'.request).Contains r := by
  rw [Contains] at h ⊢
  cases hkind : r.kind <;> cases hkind' : r'.kind <;> rw [hkind] at h
  · exact Finset.mem_insert_of_mem h
  · exact h
  · exact h
  · exact ⟨Finset.mem_insert_of_mem h.1, Finset.mem_insert_of_mem h.2.1,
      Finset.mem_insert_of_mem h.2.2⟩

theorem LedgerState.contains_withCoordinates {s : LedgerState} {r : LedgerRecord} :
    (s.withCoordinates r.kind r.caller r.policy r.primary r.secondary r.request).Contains r := by
  rw [Contains]
  cases hkind : r.kind
  · exact Finset.mem_insert_self _ _
  · exact ⟨Finset.mem_insert_self _ _, Finset.mem_insert_self _ _, Finset.mem_insert_self _ _⟩

/-- The state of some records contains each of them. -/
theorem contains_stateOf {r : LedgerRecord} (h : r ∈ records) :
    (stateOf sha256 kind ns policy maxRecords records).Contains r := by
  rw [stateOf]
  generalize LedgerState.empty (headOf sha256 kind ns policy maxRecords records) = s
  induction records using List.reverseRecOn with
  | nil => cases h
  | append_singleton records r' ih =>
    rw [LedgerState.gather_concat]
    rcases List.mem_append.mp h with h | h
    · exact (ih h).withCoordinates
    · rw [List.mem_singleton.mp h]
      exact LedgerState.contains_withCoordinates

/-! ### The invariant -/

/-- The ledger has some records, and every capability a front part of them. -/
structure Settled (sha256 : List UInt8 → Identity) (kind : LedgerKind) (policy : Identity)
    (maxRecords : UInt32) (records : List LedgerRecord) (w : World) : Prop where
  anchored : Anchored sha256 kind policy maxRecords records w.storage
  opened : ∀ h ∈ w.holders, h.opened = true → h.maxRecords = maxRecords ∧
    ∃ n, h.state = cached sha256 kind policy maxRecords (records.take n)
  distinct : records.Pairwise fun r r' => ¬ r.Clashes r'
  admitted : (w.events.filterMap Event.record?).Sublist records

/-- What holds in every history. -/
structure Coherent (sha256 : List UInt8 → Identity) (kind : LedgerKind) (policy : Identity)
    (w : World) : Prop where
  /-- What an opening has read is in front of the file. -/
  pending : ∀ h ∈ w.holders, h.opened = false → ∃ file, file <+: w.storage.file ∧
    readValidatedState sha256 file kind (ledgerNamespace sha256 policy kind) policy h.maxRecords =
      .ok h.state
  /-- Nobody has a ledger without a head. -/
  ledger : w.storage.head = none ∧ w.events = [] ∧ (∀ h ∈ w.holders, h.opened = false) ∨
    ∃ maxRecords records, Settled sha256 kind policy maxRecords records w
  events : w.events.Pairwise Event.Then

/-- The file may grow, and capabilities may be lost. -/
theorem Coherent.weaken (h : Coherent sha256 kind policy w) {s : Storage} {holders : List Holder}
    (hs : w.storage.Extends s) (hsub : ∀ x ∈ holders, x ∈ w.holders) :
    Coherent sha256 kind policy ⟨s, holders, w.events⟩ := by
  obtain ⟨hhead, hfile⟩ := hs
  refine ⟨fun x hx hpending => ?_, ?_, h.events⟩
  · obtain ⟨file, hprefix, hread⟩ := h.pending x (hsub x hx) hpending
    exact ⟨file, hprefix.trans hfile, hread⟩
  · rcases h.ledger with ⟨hnone, hevents, hpending⟩ | ⟨maxRecords, records, hsettled⟩
    · exact .inl ⟨hhead.trans hnone, hevents, fun x hx => hpending x (hsub x hx)⟩
    · refine .inr ⟨maxRecords, records, ?_, fun x hx => hsettled.opened x (hsub x hx),
        hsettled.distinct, hsettled.admitted⟩
      exact ⟨hhead.trans hsettled.anchored.head, hsettled.anchored.file.trans hfile,
        hsettled.anchored.count⟩

section Holders

variable {holders : List Holder} {new : Holder}

theorem Settled.holder (hs : Settled sha256 kind policy maxRecords records w)
    (hsub : ∀ x ∈ holders, x ∈ w.holders ∨ x = new)
    (hnew : new.opened = true → new.maxRecords = maxRecords ∧
      ∃ n, new.state = cached sha256 kind policy maxRecords (records.take n)) :
    Settled sha256 kind policy maxRecords records ⟨w.storage, holders, w.events⟩ := by
  refine ⟨hs.anchored, fun x hx hopened => ?_, hs.distinct, hs.admitted⟩
  rcases hsub x hx with hold | rfl
  · exact hs.opened x hold hopened
  · exact hnew hopened

/-- A capability takes the place of another one, or comes to the others. -/
theorem Coherent.holder (h : Coherent sha256 kind policy w)
    (hsub : ∀ x ∈ holders, x ∈ w.holders ∨ x = new)
    (hpending : new.opened = false → ∃ file, file <+: w.storage.file ∧
      readValidatedState sha256 file kind (ledgerNamespace sha256 policy kind) policy
        new.maxRecords = .ok new.state)
    (hopened : new.opened = true → ∃ maxRecords records,
      Settled sha256 kind policy maxRecords records ⟨w.storage, holders, w.events⟩) :
    Coherent sha256 kind policy ⟨w.storage, holders, w.events⟩ := by
  refine ⟨fun x hx hfalse => ?_, ?_, h.events⟩
  · rcases hsub x hx with hold | rfl
    · exact h.pending x hold hfalse
    · exact hpending hfalse
  cases hnew : new.opened with
  | true => exact .inr (hopened hnew)
  | false =>
    rcases h.ledger with ⟨hnone, hevents, hall⟩ | ⟨maxRecords, records, hs⟩
    · refine .inl ⟨hnone, hevents, fun x hx => ?_⟩
      rcases hsub x hx with hold | rfl
      · exact hall x hold
      · exact hnew
    · refine .inr ⟨maxRecords, records, hs.holder hsub fun htrue => ?_⟩
      rw [hnew] at htrue
      cases htrue

/-- The first head of a ledger. -/
theorem Coherent.provisioned (h : Coherent sha256 kind policy w) (hfile : w.storage.file = [])
    (hhead : w.storage.head = none) (hsub : ∀ x ∈ holders, x ∈ w.holders ∨
      x = ⟨maxRecords, cached sha256 kind policy maxRecords [], true⟩) :
    Coherent sha256 kind policy
      ⟨committed sha256 kind policy maxRecords [], holders, w.events⟩ := by
  rcases h.ledger with ⟨-, hevents, hall⟩ | ⟨_, _, hs⟩
  · refine ⟨fun x hx hfalse => ?_, .inr ⟨maxRecords, [], ⟨rfl, List.prefix_rfl, Nat.zero_le _⟩,
      fun x hx htrue => ?_, .nil, ?_⟩, h.events⟩
    · rcases hsub x hx with hold | rfl
      · obtain ⟨file, hprefix, hread⟩ := h.pending x hold hfalse
        rw [hfile, List.prefix_nil] at hprefix
        exact ⟨file, hprefix ▸ List.nil_prefix, hread⟩
      · cases hfalse
    · rcases hsub x hx with hold | rfl
      · rw [hall x hold] at htrue
        cases htrue
      · exact ⟨rfl, 0, rfl⟩
    · show (w.events.filterMap Event.record?).Sublist []
      rw [hevents]
      exact .slnil
  · rw [hs.anchored.head] at hhead
    cases hhead

/-- Another record of a ledger, which somebody may have seen. -/
theorem Coherent.commit (h : Coherent sha256 kind policy w)
    (hs : Settled sha256 kind policy maxRecords records w) {r : LedgerRecord} {s : Storage}
    {events : List Event}
    (hc : Commits sha256 kind policy maxRecords records r w.storage s)
    (hsub : ∀ x ∈ holders, x ∈ w.holders ∨
      x = ⟨maxRecords, cached sha256 kind policy maxRecords (records ++ [r]), true⟩)
    (hevents : events = w.events ∨ events = w.events ++ [.admitted r]) :
    Coherent sha256 kind policy ⟨s, holders, events⟩ := by
  refine ⟨fun x hx hfalse => ?_, .inr ⟨maxRecords, records ++ [r], ⟨?_, ?_, ?_⟩,
    fun x hx htrue => ?_, List.pairwise_append.mpr ⟨hs.distinct, List.pairwise_singleton _ _, ?_⟩,
    ?_⟩, ?_⟩
  · rcases hsub x hx with hold | rfl
    · obtain ⟨file, hprefix, hread⟩ := h.pending x hold hfalse
      exact ⟨file, hprefix.trans hc.file, hread⟩
    · cases hfalse
  · rw [hc.storage]
    rfl
  · rw [hc.storage]
    exact List.prefix_rfl
  · rw [List.length_append]
    exact hc.count
  · rcases hsub x hx with hold | rfl
    · obtain ⟨hmax, n, hstate⟩ := hs.opened x hold htrue
      refine ⟨hmax, min n records.length, ?_⟩
      rw [List.take_append_of_le_length (Nat.min_le_right _ _), hstate, ← List.take_eq_take_min]
    · exact ⟨rfl, (records ++ [r]).length, by rw [List.take_length]⟩
  · intro r' hr' x hx
    rw [List.mem_singleton.mp hx]
    exact hc.distinct r' hr'
  · rcases hevents with rfl | rfl
    · exact hs.admitted.trans (List.sublist_append_left _ _)
    · show ((w.events ++ [Event.admitted r]).filterMap Event.record?).Sublist (records ++ [r])
      rw [List.filterMap_append]
      exact hs.admitted.append (List.Sublist.refl _)
  · rcases hevents with rfl | rfl
    · exact h.events
    · refine List.pairwise_append.mpr ⟨h.events, List.pairwise_singleton _ _, fun e he e' he' => ?_⟩
      rw [List.mem_singleton.mp he']
      cases e with
      | admitted r' =>
        exact hc.distinct r' (hs.admitted.subset (List.mem_filterMap.mpr ⟨_, he, rfl⟩))
      | opened state => trivial

/-- An opening that has compared the head has the records of the ledger. -/
theorem Coherent.of_validated (h : Coherent sha256 kind policy w) {state : LedgerState}
    (hmem : ⟨maxRecords, state, false⟩ ∈ w.holders)
    (hlength : w.storage.file.length = recordOffset state.externalHead.recordCount.toNat)
    (hhead : w.storage.head = some state.externalHead) :
    ∃ records, Settled sha256 kind policy maxRecords records w ∧
      state = cached sha256 kind policy maxRecords records := by
  obtain ⟨file, hprefix, hread⟩ := h.pending _ hmem rfl
  obtain ⟨records, hcount, -, rfl, hstate⟩ := readValidatedState_eq_ok.mp hread
  obtain rfl : state = cached sha256 kind policy maxRecords records := hstate
  rw [stateOf_externalHead] at hlength hhead
  rw [toNat_recordCount hcount] at hlength
  have hwhole := hprefix.eq_of_length (by rw [length_image, hlength])
  rcases h.ledger with ⟨hnone, -, -⟩ | ⟨maxRecords', records', hs⟩
  · rw [hnone] at hhead
    cases hhead
  · have hsame : records.length = records'.length := by
      rw [hs.anchored.head] at hhead
      have hcounts := congrArg (fun head => head.recordCount.toNat) (Option.some.inj hhead)
      rwa [toNat_recordCount hs.anchored.count, toNat_recordCount hcount, eq_comm] at hcounts
    have hfile := hs.anchored.file.eq_of_length (by rw [length_image, hlength, hsame])
    obtain ⟨rfl, rfl⟩ := image_injective (hwhole.trans hfile.symm)
    exact ⟨records, hs, rfl⟩

/-- An opened ledger is seen. -/
theorem Coherent.observe (h : Coherent sha256 kind policy w)
    (hs : Settled sha256 kind policy maxRecords records w) : Coherent sha256 kind policy
      ⟨w.storage, w.holders,
        w.events ++ [.opened (cached sha256 kind policy maxRecords records)]⟩ := by
  refine ⟨h.pending, .inr ⟨maxRecords, records, hs.anchored, hs.opened, hs.distinct, ?_⟩,
    List.pairwise_append.mpr ⟨h.events, List.pairwise_singleton _ _, fun e he e' he' => ?_⟩⟩
  · show ((w.events ++ [Event.opened _]).filterMap Event.record?).Sublist records
    rw [List.filterMap_append]
    exact (List.append_nil _).symm ▸ hs.admitted
  · rw [List.mem_singleton.mp he']
    cases e with
    | admitted r =>
      exact contains_stateOf (hs.admitted.subset (List.mem_filterMap.mpr ⟨_, he, rfl⟩))
    | opened state => trivial

end Holders

theorem mem_append_singleton {holders : List Holder} {new : Holder} :
    ∀ x ∈ holders ++ [new], x ∈ holders ∨ x = new := by
  intro x hx
  rwa [List.mem_append, List.mem_singleton] at hx

theorem mem_set {holders : List Holder} {new : Holder} {i : ℕ} :
    ∀ x ∈ holders.set i new, x ∈ holders ∨ x = new := by
  intro x hx
  exact List.mem_or_eq_of_mem_set hx

/-- Every call keeps the invariant. -/
theorem Coherent.call (h : Coherent sha256 kind policy w) (op : Op) :
    Coherent sha256 kind policy (w.call sha256 kind policy op) := by
  cases op with
  | provision t maxRecords =>
    have hruns : Runs w.storage (provision sha256 kind policy t maxRecords) _ _ := runs_provision
    rw [World.call]
    rcases hruns.cases with ⟨state, s, hx, -, hfile, hhead, rfl, rfl⟩ | ⟨e, s, hx, hs⟩
    · rw [hx]
      exact h.provisioned hfile hhead mem_append_singleton
    · rw [hx]
      rcases hs with hgrown | ⟨hfile, hhead, rfl⟩
      · exact h.weaken hgrown fun x hx => hx
      · exact h.provisioned hfile hhead fun x hx => .inl hx
  | read t maxRecords =>
    have hruns : Runs w.storage (readExisting sha256 kind policy t maxRecords) _ _ :=
      runs_readExisting
    rw [World.call]
    rcases hruns.cases with ⟨state, s, hx, -, rfl, hread⟩ | ⟨e, s, hx, rfl⟩
    · rw [hx]
      refine h.holder mem_append_singleton (fun _ => ⟨_, List.prefix_rfl, hread⟩) fun hopened => ?_
      cases hopened
    · rw [hx]
      exact h
  | validate t i =>
    rw [World.call]
    split
    · next maxRecords state heq =>
      have hruns : Runs w.storage (validateCurrentHead sha256 kind policy t maxRecords state) _ _ :=
        runs_validateCurrentHead
      rcases hruns.cases with ⟨_, s, hx, rfl, hlength, hhead⟩ | ⟨e, s, hx, rfl⟩
      · rw [hx]
        obtain ⟨records, hs, rfl⟩ := h.of_validated (List.mem_of_getElem? heq) hlength hhead
        have hs' : Settled sha256 kind policy maxRecords records ⟨w.storage, w.holders.set i
            ⟨maxRecords, cached sha256 kind policy maxRecords records, true⟩, w.events⟩ :=
          hs.holder mem_set fun _ => ⟨rfl, records.length, by rw [List.take_length]⟩
        refine Coherent.observe (h.holder mem_set (fun hfalse => ?_) fun _ => ⟨_, _, hs'⟩) hs'
        cases hfalse
      · rw [hx]
        exact h.weaken (Storage.Extends.refl _) fun x hx => List.mem_of_mem_eraseIdx hx
    · exact h
  | append t i candidate =>
    rw [World.call]
    split
    · next maxRecords state heq =>
      have hmem := List.mem_of_getElem? heq
      rcases h.ledger with ⟨-, -, hall⟩ | ⟨maxRecords', records, hs⟩
      · cases hall _ hmem
      obtain ⟨hmax, n, hstate⟩ := hs.opened _ hmem rfl
      obtain rfl : maxRecords = maxRecords' := hmax
      have hruns : Runs w.storage (appendIfAbsent sha256 kind policy t maxRecords state candidate)
        _ _ := runs_appendIfAbsent hs.anchored hstate
      rcases hruns.cases with ⟨out, s, hx, hout⟩ | ⟨e, s, hx, hout⟩
      · rw [hx]
        rcases hout with ⟨rfl, rfl⟩ | ⟨rfl, hc⟩
        · refine h.holder mem_set (fun hfalse => ?_) fun _ => ⟨maxRecords, records, ?_⟩
          · cases hfalse
          · exact hs.holder mem_set fun _ => ⟨rfl, n, hstate⟩
        · exact h.commit hs hc mem_set (.inr rfl)
      · rw [hx]
        rcases hout with hgrown | hc
        · exact h.weaken hgrown fun x hx => hx
        · exact h.commit hs hc (fun x hx => .inl hx) (.inl rfl)
    · exact h
  | drop i => exact h.weaken (Storage.Extends.refl _) fun x hx => List.mem_of_mem_eraseIdx hx

theorem coherent (h : (ledger sha256 kind policy).Reachable w) : Coherent sha256 kind policy w := by
  refine h.induction ?_ ?_
  · rintro _ rfl
    exact ⟨by simp, .inl ⟨rfl, rfl, by simp⟩, .nil⟩
  · rintro w op _ - hw rfl
    exact hw.call op

/-- **No coordinate is admitted twice.** Whatever calls there are and wherever they are interrupted,
records that were admitted share no coordinate, a ledger that is opened later contains them, and
they stay in front of the file and under the head. -/
theorem admitted_once (h : (ledger sha256 kind policy).Reachable w) :
    w.events.Pairwise Event.Then ∧ ∀ r, .admitted r ∈ w.events → ∃ maxRecords records,
      r ∈ records ∧ Anchored sha256 kind policy maxRecords records w.storage := by
  have hw := coherent h
  refine ⟨hw.events, fun r hr => ?_⟩
  rcases hw.ledger with ⟨-, hnone, -⟩ | ⟨maxRecords, records, hs⟩
  · rw [hnone] at hr
    cases hr
  · exact ⟨maxRecords, records, hs.admitted.subset (List.mem_filterMap.mpr ⟨_, hr, rfl⟩),
      hs.anchored⟩

end Invariant

/-- A digest that is enough to run the code. -/
def constantDigest : List UInt8 → Identity := fun _ => ⟨List.replicate 32 1, by simp⟩

/-- A challenge of a caller. -/
def challengeOf (caller : UInt32 × UInt32 × UInt32) : LedgerRecord :=
  ⟨caller, constantDigest [], constantDigest [], .zero 32, .zero 32, .replay⟩

/-- A challenge is admitted. A second one is written, but the update of the head is reported lost,
and its capability is stale from then on. Both are there when the ledger is opened again. -/
def admitsOnce : List Op :=
  [.provision {} 4,
    .append {} 0 (challengeOf (1, 2, 3)),
    .append { update := some true } 0 (challengeOf (4, 5, 6)),
    .append {} 0 (challengeOf (7, 8, 9)),
    .read {} 4, .validate {} 1,
    .append {} 1 (challengeOf (1, 2, 3)),
    .append {} 1 (challengeOf (4, 5, 6))]

def afterAdmitsOnce : World := World.run constantDigest .replay (constantDigest []) admitsOnce

theorem admitted_once_admitsOnce :
    afterAdmitsOnce.events.length = 2 ∧
      afterAdmitsOnce.storage.head.map Head.recordCount = some 2 ∧
      afterAdmitsOnce.events.Pairwise Event.Then ∧
      ∀ r, .admitted r ∈ afterAdmitsOnce.events → ∃ maxRecords records, r ∈ records ∧
        Anchored constantDigest .replay (constantDigest []) maxRecords records
          afterAdmitsOnce.storage :=
  ⟨by decide +kernel, by decide +kernel, admitted_once (reachable_run _ _ _ admitsOnce)⟩

/-! ### The file and the cached state -/

section Information

variable (sha256 : List UInt8 → Identity) (kind : LedgerKind) (policy : Identity)

/-- The record of `admit_fresh_challenge`. -/
def challengeRecord (caller : UInt32 × UInt32 × UInt32) (policy challenge : Identity) :
    LedgerRecord :=
  ⟨caller, policy, challenge, .zero 32, .zero 32, .replay⟩

/-- The record of `try_reserve_coordinates`. -/
def reservationRecord (caller : UInt32 × UInt32 × UInt32)
    (policy challenge reservation request : Identity) : LedgerRecord :=
  ⟨caller, policy, challenge, reservation, request, .reservation⟩

/-- The calls of a capability one after another, with its last cached state. -/
def appendAll (maxRecords : UInt32) :
    LedgerState → List (Troubles × LedgerRecord) → StoreM LedgerState
  | state, [] => return state
  | state, (t, candidate) :: calls => do
    let (_, state) ← appendIfAbsent sha256 kind policy t maxRecords state candidate
    appendAll maxRecords state calls

/-- A ledger that is provisioned, and the calls of its capability. -/
def provisionAndAppend (t : Troubles) (maxRecords : UInt32)
    (calls : List (Troubles × LedgerRecord)) : StoreM LedgerState := do
  let state ← provision sha256 kind policy t maxRecords
  appendAll sha256 kind policy maxRecords state calls

variable {sha256 kind policy} {maxRecords : UInt32}

/-- The records that the callers build are admissible. -/
theorem admissible_challengeRecord {caller : UInt32 × UInt32 × UInt32} {challenge : Identity}
    (h : challenge ≠ .zero 32) : (challengeRecord caller policy challenge).Admissible := by
  refine ⟨h, fun _ => ⟨rfl, rfl⟩, fun hkind => ?_⟩
  cases hkind

theorem admissible_reservationRecord {caller : UInt32 × UInt32 × UInt32}
    {challenge reservation request : Identity} (h : challenge ≠ .zero 32)
    (hreservation : reservation ≠ .zero 32) (hrequest : request ≠ .zero 32) :
    (reservationRecord caller policy challenge reservation request).Admissible := by
  refine ⟨h, fun hkind => ?_, fun _ => ⟨hreservation, hrequest⟩⟩
  cases hkind

/-- Calls that succeed leave the storage and the cached state of some records. -/
theorem appendAll_eq_ok {calls : List (Troubles × LedgerRecord)} {records : List LedgerRecord}
    {state out : LedgerState} {s s' : Storage}
    (hcalls : ∀ call ∈ calls, call.2.kind = kind ∧ call.2.Admissible)
    (hcount : records.length ≤ maxRecords.toNat) (haccepted : Accepted kind policy records)
    (hs : s = committed sha256 kind policy maxRecords records)
    (hstate : state = cached sha256 kind policy maxRecords records)
    (h : (appendAll sha256 kind policy maxRecords state calls).exec s = (.ok out, s')) :
    ∃ records', records'.length ≤ maxRecords.toNat ∧ Accepted kind policy records' ∧
      s' = committed sha256 kind policy maxRecords records' ∧
      out = cached sha256 kind policy maxRecords records' := by
  induction calls generalizing records state s with
  | nil =>
    obtain ⟨hout, rfl⟩ := Prod.mk.inj h
    obtain rfl := Except.ok.inj hout
    exact ⟨records, hcount, haccepted, hs, hstate⟩
  | cons call calls ih =>
    obtain ⟨t, candidate⟩ := call
    rw [appendAll, exec_bind_eq_ok] at h
    obtain ⟨⟨admitted, state'⟩, s1, happend, hrest⟩ := h
    have hanchored : Anchored sha256 kind policy maxRecords records s := by
      rw [hs]
      exact ⟨rfl, List.prefix_rfl, hcount⟩
    have htake : state = cached sha256 kind policy maxRecords (records.take records.length) := by
      rw [List.take_length, hstate]
    obtain ⟨hkind, hadmissible⟩ := hcalls (t, candidate) List.mem_cons_self
    have hmore : ∀ call ∈ calls, call.2.kind = kind ∧ call.2.Admissible :=
      fun call hcall => hcalls call (List.mem_cons_of_mem _ hcall)
    rcases (runs_appendIfAbsent hanchored htake).of_ok happend with ⟨hout, rfl⟩ | ⟨hout, hc⟩
    · obtain ⟨-, rfl⟩ := Prod.mk.inj hout
      exact ih hmore hcount haccepted hs hstate hrest
    · obtain ⟨-, rfl⟩ := Prod.mk.inj hout
      refine ih hmore ?_ (accepted_concat.mpr ⟨haccepted, hkind, hc.policy_eq, hadmissible,
        hc.distinct⟩) hc.storage rfl hrest
      rw [List.length_append]
      exact hc.count

end Information

/-- **The file and the cached state are the same information.** A ledger whose calls succeeded, with
records of the kind that the callers build, is opened with the cached state. The files that are
accepted are the header and the chain of some records that their kind admits and that share no
coordinate. And another file is not accepted with the same head, unless the digest collides on the
two files. -/
theorem file_is_state (sha256 : List UInt8 → Identity) (kind : LedgerKind) (ns policy : Identity)
    (maxRecords : UInt32) :
    (∀ (t : Troubles) (calls : List (Troubles × LedgerRecord)) (s s' : Storage)
        (state : LedgerState),
      (∀ call ∈ calls, call.2.kind = kind ∧ call.2.Admissible) →
      (provisionAndAppend sha256 kind policy t maxRecords calls).exec s = (.ok state, s') →
      (openExisting sha256 kind policy {} {} maxRecords).exec s' = (.ok state, s')) ∧
    (∀ file, (∃ state, readValidatedState sha256 file kind ns policy maxRecords = .ok state) ↔
      ∃ records, records.length ≤ maxRecords.toNat ∧ Accepted kind policy records ∧
        file = image sha256 kind ns policy maxRecords records) ∧
    (∀ (file file' : List UInt8) (state state' : LedgerState),
      readValidatedState sha256 file kind ns policy maxRecords = .ok state → file' ≠ file →
      Set.InjOn sha256 (digested file ∪ digested file') →
      readValidatedState sha256 file' kind ns policy maxRecords = .ok state' →
      state'.externalHead ≠ state.externalHead) := by
  refine ⟨?_, ?_, ?_⟩
  · intro t calls s s' state hcalls h
    rw [provisionAndAppend, exec_bind_eq_ok] at h
    obtain ⟨state0, s0, hprovision, happend⟩ := h
    obtain ⟨hconfigured, -, -, hs0, hstate0⟩ := runs_provision.of_ok hprovision
    obtain ⟨records, hcount, haccepted, rfl, rfl⟩ :=
      appendAll_eq_ok hcalls (Nat.zero_le _) accepted_nil hs0 hstate0 happend
    exact openExisting_image hconfigured hcount haccepted
  · intro file
    constructor
    · rintro ⟨state, hread⟩
      obtain ⟨records, hcount, haccepted, hfile, -⟩ := readValidatedState_eq_ok.mp hread
      exact ⟨records, hcount, haccepted, hfile⟩
    · rintro ⟨records, hcount, haccepted, hfile⟩
      exact ⟨_, readValidatedState_eq_ok.mpr ⟨records, hcount, haccepted, hfile, rfl⟩⟩
  · intro file file' state state' hread hne hinj hread' hhead
    exact hne (file_eq_of_head_eq hread hread' hinj hhead.symm).symm

/-- A challenge is appended to a new ledger. -/
def oneChallenge : List (Troubles × LedgerRecord) := [({}, challengeOf (1, 2, 3))]

def afterOneChallenge : Outcome LedgerError LedgerState × Storage :=
  (provisionAndAppend constantDigest .replay (constantDigest []) {} 4 oneChallenge).exec ⟨[], none⟩

theorem file_is_state_oneChallenge : ∃ state, afterOneChallenge.1 = .ok state ∧
    state.externalHead.recordCount = 1 ∧
    (openExisting constantDigest .replay (constantDigest []) {} {} 4).exec afterOneChallenge.2 =
      (.ok state, afterOneChallenge.2) := by
  have hcount : afterOneChallenge.1.map (fun state => state.externalHead.recordCount) = .ok 1 := by
    decide +kernel
  rcases hrun : afterOneChallenge with ⟨e | state, s⟩
  · rw [hrun] at hcount
    cases hcount
  · rw [hrun] at hcount
    refine ⟨state, rfl, Except.ok.inj hcount, ?_⟩
    refine (file_is_state constantDigest .replay (constantDigest []) (constantDigest []) 4).1 {}
      oneChallenge ⟨[], none⟩ s state ?_ hrun
    intro call hcall
    obtain rfl := List.mem_singleton.mp hcall
    exact ⟨rfl, admissible_challengeRecord (by decide)⟩

/-- A replay record with a second identity is appended, but a file with it is refused. So a record
has to be one of those that the callers build. -/
theorem not_file_is_state : ¬ ∀ (sha256 : List UInt8 → Identity) (kind : LedgerKind)
    (policy : Identity) (maxRecords : UInt32) (t : Troubles)
    (calls : List (Troubles × LedgerRecord)) (s s' : Storage) (state : LedgerState),
    (∀ call ∈ calls, call.2.kind = kind ∧ call.2.primary ≠ .zero 32 ∧
      (kind = .reservation → call.2.secondary ≠ .zero 32 ∧ call.2.request ≠ .zero 32)) →
    (provisionAndAppend sha256 kind policy t maxRecords calls).exec s = (.ok state, s') →
    (openExisting sha256 kind policy {} {} maxRecords).exec s' = (.ok state, s') := by
  intro h
  set calls : List (Troubles × LedgerRecord) :=
    [({}, { challengeOf (1, 2, 3) with secondary := constantDigest [] })] with hcalls
  set run := (provisionAndAppend constantDigest .replay (constantDigest []) {} 4 calls).exec
    ⟨[], none⟩ with hrun
  have hcount : run.1.map (fun state => state.externalHead.recordCount) = .ok 1 := by
    rw [hrun, hcalls]
    decide +kernel
  have hrefused : ((openExisting constantDigest .replay (constantDigest []) {} {} 4).exec
      run.2).1 = .error (.err (.corrupt "record coordinates")) := by
    rw [hrun, hcalls]
    decide +kernel
  rcases hresult : run with ⟨e | state, s⟩
  · rw [hresult] at hcount
    cases hcount
  · rw [hresult] at hrefused
    have hopened := h constantDigest .replay (constantDigest []) 4 {} calls ⟨[], none⟩ s state
      (by
        intro call hcall
        rw [hcalls] at hcall
        obtain rfl := List.mem_singleton.mp hcall
        refine ⟨rfl, by decide, fun hkind => ?_⟩
        cases hkind)
      (hrun.symm.trans hresult)
    rw [hopened] at hrefused
    cases hrefused

end Ledger

end Ferric
