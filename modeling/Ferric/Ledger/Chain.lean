import Ferric.Ledger.Codec
import Ferric.Lib.Chained
import Mathlib.Data.Set.Function

/-!
# Files as chains of records

A file is accepted exactly when it is the header of its ledger followed by the chain of some records
that its kind admits and that share no coordinate, and what is read of it is the head and the
coordinates of these records. So a file and the state that is read of it are the same information,
and a head stands for one file, as long as the digest does not collide on what was digested for it.

## Main definitions

* `LedgerRecord.Clashes` — the records that share a coordinate
* `image`, `headOf`, `stateOf` — the file, the head and the state of some records
* `Accepted` — the records that a file may hold

## Main results

* `readValidatedState_eq_ok` — the files that are accepted, and what is read of them
* `validateCachedFileState_image` — a file whose state is cached is valid
* `file_eq_of_head_eq` — accepted files with one head are one file
-/

namespace Ferric

namespace Ledger

variable {sha256 : List UInt8 → Identity} {kind : LedgerKind} {ns policy : Identity}
variable {maxRecords : UInt32} {file : List UInt8} {records : List LedgerRecord}

/-! ### Coordinates -/

/-- The records share a coordinate. -/
def LedgerRecord.Clashes (r r' : LedgerRecord) : Prop :=
  r.kind = .replay ∧ r'.kind = .replay ∧
      (r.caller, r.policy, r.primary) = (r'.caller, r'.policy, r'.primary) ∨
    r.kind = .reservation ∧ r'.kind = .reservation ∧
      (r.primary = r'.primary ∨ r.secondary = r'.secondary ∨ r.request = r'.request)

namespace LedgerState

/-- The state with the coordinates of some records. -/
def gather (s : LedgerState) (records : List LedgerRecord) : LedgerState :=
  records.foldl (fun s r =>
    s.withCoordinates r.kind r.caller r.policy r.primary r.secondary r.request) s

variable {s : LedgerState} {r r' : LedgerRecord}

@[simp] theorem gather_nil : s.gather [] = s := rfl

@[simp] theorem gather_concat : s.gather (records ++ [r]) = (s.gather records).withCoordinates
    r.kind r.caller r.policy r.primary r.secondary r.request := by
  rw [gather, List.foldl_append]
  rfl

@[simp] theorem withCoordinates_externalHead {caller : UInt32 × UInt32 × UInt32}
    {primary secondary request : Identity} : (s.withCoordinates kind caller policy primary secondary
      request).externalHead = s.externalHead := by
  cases kind <;> rfl

@[simp] theorem gather_externalHead : (s.gather records).externalHead = s.externalHead := by
  induction records using List.reverseRecOn with
  | nil => rfl
  | append_singleton records r ih => rw [gather_concat, withCoordinates_externalHead, ih]

/-- The head of a state has no part in its coordinates. -/
theorem gather_withHead (head : Head) : { s.gather records with externalHead := head } =
    { s with externalHead := head }.gather records := by
  induction records using List.reverseRecOn with
  | nil => rfl
  | append_singleton records r ih =>
    rw [gather_concat, gather_concat, ← ih]
    cases r.kind <;> rfl

theorem conflicts_empty {head : Head} : (empty head).conflicts r = false := by
  rw [conflicts]
  cases r.kind <;> rfl

theorem conflicts_withCoordinates : (s.withCoordinates r'.kind r'.caller r'.policy r'.primary
    r'.secondary r'.request).conflicts r = true ↔ s.conflicts r = true ∨ r'.Clashes r := by
  rw [conflicts, conflicts, LedgerRecord.Clashes]
  cases hkind' : r'.kind with
  | replay =>
    cases hkind : r.kind with
    | replay =>
      simp only [withCoordinates, decide_eq_true_eq, Finset.mem_insert, true_and, reduceCtorEq,
        false_and, or_false, eq_comm (a := (r.caller, r.policy, r.primary))]
      exact or_comm
    | reservation =>
      simp only [withCoordinates, reduceCtorEq, false_and, and_false, or_false]
      exact Iff.rfl
  | reservation =>
    cases hkind : r.kind with
    | replay =>
      simp only [withCoordinates, reduceCtorEq, false_and, and_false, or_false]
      exact Iff.rfl
    | reservation =>
      simp only [withCoordinates, Bool.or_eq_true, decide_eq_true_eq, Finset.mem_insert,
        reduceCtorEq, false_and, true_and, false_or, eq_comm (a := r.primary),
        eq_comm (a := r.secondary), eq_comm (a := r.request)]
      tauto

/-- A state conflicts with a record when one of its records does. -/
theorem conflicts_gather {head : Head} : ((empty head).gather records).conflicts r = true ↔
    ∃ r' ∈ records, r'.Clashes r := by
  induction records using List.reverseRecOn with
  | nil => simp [conflicts_empty]
  | append_singleton records r' ih =>
    rw [gather_concat, conflicts_withCoordinates, ih]
    simp only [List.mem_append, List.mem_singleton, or_and_right, exists_or, exists_eq_left]

theorem insert_eq_ok {s' : LedgerState} : s.insert r = .ok s' ↔ s.conflicts r = false ∧
    s' = s.withCoordinates r.kind r.caller r.policy r.primary r.secondary r.request := by
  simp only [insert, bind_eq_ok, failIf_eq_ok, exists_const, Bool.not_eq_true]
  exact and_congr_right fun _ => ⟨fun h => (Except.ok.inj h).symm, fun h => congrArg _ h.symm⟩

end LedgerState

/-! ### Chains of records -/

/-- The identity of the last record, or zero when there is none. -/
def lastIdentity (sha256 : List UInt8 → Identity) (records : List LedgerRecord) : Identity :=
  Chained.last (LedgerRecord.identity sha256) (.zero 32) records

/-- The records as bytes. -/
def body (sha256 : List UInt8 → Identity) (records : List LedgerRecord) : List UInt8 :=
  Chained.flat (LedgerRecord.identity sha256) (LedgerRecord.encode sha256) (.zero 32) records

/-- The file of a ledger with some records. -/
def image (sha256 : List UInt8 → Identity) (kind : LedgerKind) (ns policy : Identity)
    (maxRecords : UInt32) (records : List LedgerRecord) : List UInt8 :=
  encodeHeader sha256 kind ns policy maxRecords ++ body sha256 records

/-- The head of a ledger with some records. -/
def headOf (sha256 : List UInt8 → Identity) (kind : LedgerKind) (ns policy : Identity)
    (maxRecords : UInt32) (records : List LedgerRecord) : Head :=
  ⟨policy, headerDigest sha256 kind ns policy maxRecords, .ofNat records.length,
    lastIdentity sha256 records⟩

/-- The state of a ledger with some records. -/
def stateOf (sha256 : List UInt8 → Identity) (kind : LedgerKind) (ns policy : Identity)
    (maxRecords : UInt32) (records : List LedgerRecord) : LedgerState :=
  (LedgerState.empty (headOf sha256 kind ns policy maxRecords records)).gather records

/-- The records that a file may hold. -/
structure Accepted (kind : LedgerKind) (policy : Identity) (records : List LedgerRecord) :
    Prop where
  kind : ∀ r ∈ records, r.kind = kind
  policy : ∀ r ∈ records, r.policy = policy
  admissible : ∀ r ∈ records, r.Admissible
  distinct : records.Pairwise fun r r' => ¬ r.Clashes r'

@[simp] theorem length_body : (body sha256 records).length = records.length * recordBytes :=
  Chained.length_flat (fun _ _ => length_encode) _ _

@[simp] theorem length_image :
    (image sha256 kind ns policy maxRecords records).length = recordOffset records.length := by
  rw [image, List.length_append, length_encodeHeader, length_body, recordOffset, Nat.add_comm]

/-- The file of a ledger without records. -/
@[simp] theorem image_nil : image sha256 kind ns policy maxRecords [] =
    encodeHeader sha256 kind ns policy maxRecords := List.append_nil _

theorem recordOffset_succ (n : ℕ) : recordOffset (n + 1) = recordOffset n + recordBytes := by
  rw [recordOffset, recordOffset, Nat.succ_mul, Nat.add_right_comm]

theorem headerBytes_le_recordOffset (n : ℕ) : headerBytes ≤ recordOffset n := Nat.le_add_left _ _

@[simp] theorem lastIdentity_concat {r : LedgerRecord} : lastIdentity sha256 (records ++ [r]) =
    r.identity sha256 (lastIdentity sha256 records) := Chained.last_concat _ _ _ _

@[simp] theorem body_concat {r : LedgerRecord} : body sha256 (records ++ [r]) =
    body sha256 records ++ r.encode sha256 (lastIdentity sha256 records) :=
  Chained.flat_concat _ _ _ _ _

/-- Another record behind a file. -/
theorem image_concat {r : LedgerRecord} : image sha256 kind ns policy maxRecords (records ++ [r]) =
    image sha256 kind ns policy maxRecords records ++
      r.encode sha256 (lastIdentity sha256 records) := by
  rw [image, body_concat, ← List.append_assoc]
  rfl

/-- A file has one capacity and one list of records. -/
theorem image_injective {maxRecords' : UInt32} {records' : List LedgerRecord}
    (h : image sha256 kind ns policy maxRecords records =
      image sha256 kind ns policy maxRecords' records') :
    maxRecords = maxRecords' ∧ records = records' := by
  obtain ⟨hheader, hbody⟩ := List.append_inj h (by rw [length_encodeHeader, length_encodeHeader])
  have hwidth : ∀ (r : LedgerRecord) p, (r.encode sha256 p).length = recordBytes := by
    intro r p
    exact length_encode
  have hrender : ∀ (r r' : LedgerRecord) p, r.encode sha256 p = r'.encode sha256 p → r = r' := by
    intro r r' p
    exact eq_of_encode_eq
  have hpos : 0 < recordBytes := by decide
  exact ⟨eq_of_encodeHeader_eq hheader, Chained.flat_injective hwidth hpos hrender _ hbody⟩

theorem stateOf_externalHead : (stateOf sha256 kind ns policy maxRecords records).externalHead =
    headOf sha256 kind ns policy maxRecords records := LedgerState.gather_externalHead

/-- The state with another record. -/
theorem stateOf_concat {r : LedgerRecord} :
    { (stateOf sha256 kind ns policy maxRecords records).withCoordinates r.kind r.caller r.policy
        r.primary r.secondary r.request with
      externalHead := headOf sha256 kind ns policy maxRecords (records ++ [r]) } =
      stateOf sha256 kind ns policy maxRecords (records ++ [r]) := by
  rw [stateOf, ← LedgerState.gather_concat]
  exact LedgerState.gather_withHead _

theorem accepted_nil : Accepted kind policy [] :=
  ⟨by simp, by simp, by simp, .nil⟩

theorem accepted_concat {r : LedgerRecord} : Accepted kind policy (records ++ [r]) ↔
    Accepted kind policy records ∧ r.kind = kind ∧ r.policy = policy ∧ r.Admissible ∧
      ∀ r' ∈ records, ¬ r'.Clashes r := by
  constructor
  · rintro ⟨hkind, hpolicy, hadmissible, hdistinct⟩
    obtain ⟨hdistinct, -, hnew⟩ := List.pairwise_append.mp hdistinct
    have hlast : r ∈ records ++ [r] := List.mem_append_right _ (List.mem_singleton_self r)
    exact ⟨⟨fun x hx => hkind x (List.mem_append_left _ hx),
      fun x hx => hpolicy x (List.mem_append_left _ hx),
      fun x hx => hadmissible x (List.mem_append_left _ hx), hdistinct⟩, hkind r hlast,
      hpolicy r hlast, hadmissible r hlast, fun x hx => hnew x hx r (List.mem_singleton_self r)⟩
  · rintro ⟨h, hkind, hpolicy, hadmissible, hnew⟩
    refine ⟨?_, ?_, ?_, List.pairwise_append.mpr ⟨h.distinct, List.pairwise_singleton _ _, ?_⟩⟩
    · simpa [or_imp, forall_and] using ⟨h.kind, hkind⟩
    · simpa [or_imp, forall_and] using ⟨h.policy, hpolicy⟩
    · simpa [or_imp, forall_and] using ⟨h.admissible, hadmissible⟩
    · simpa using hnew

/-! ### Reading -/

theorem preadAll_eq_ok {count offset : ℕ} {bytes : List UInt8} :
    preadAll file count offset = .ok bytes ↔
      offset + count ≤ file.length ∧ bytes = slice file offset (offset + count) := by
  simp only [preadAll, bind_eq_ok, failIf_eq_ok, exists_const, not_lt]
  exact and_congr_right fun _ => ⟨fun h => (Except.ok.inj h).symm, fun h => congrArg _ h.symm⟩

theorem total_preadAll {count offset : ℕ} : Total (preadAll file count offset) :=
  total_failIf.bind fun _ => trivial

theorem total_readRecord {s : LedgerState} {previous : Identity} {index : ℕ} :
    Total (readRecord sha256 file kind policy (s, previous) index) := by
  rw [readRecord]
  refine Ensures.bind total_preadAll fun bytes hread _ => ?_
  have hlen : bytes.length = recordBytes := by
    obtain ⟨hle, hbytes⟩ := preadAll_eq_ok.mp hread
    rw [hbytes, length_slice hle, Nat.add_sub_cancel_left]
  refine (total_decodeRecord hlen).bind fun record => total_failIf.bind fun _ => ?_
  exact Total.bind (total_failIf.bind fun _ => trivial) fun _ => trivial

/-- What one round of the loop accepts. -/
theorem readRecord_eq_ok {s : LedgerState} {previous : Identity} {index : ℕ}
    {out : LedgerState × Identity} (h : recordOffset (index + 1) ≤ file.length) :
    readRecord sha256 file kind policy (s, previous) index = .ok out ↔
      ∃ r : LedgerRecord, r.kind = kind ∧ r.policy = policy ∧ r.Admissible ∧
        slice file (recordOffset index) (recordOffset (index + 1)) = r.encode sha256 previous ∧
        s.conflicts r = false ∧ out = (s.withCoordinates r.kind r.caller r.policy r.primary
          r.secondary r.request, r.identity sha256 previous) := by
  rw [recordOffset_succ] at h ⊢
  have hlen : (slice file (recordOffset index) (recordOffset index + recordBytes)).length =
      recordBytes := by
    rw [length_slice h, Nat.add_sub_cancel_left]
  have hread : preadAll file recordBytes (recordOffset index) =
      .ok (slice file (recordOffset index) (recordOffset index + recordBytes)) :=
    preadAll_eq_ok.mpr ⟨h, rfl⟩
  simp only [readRecord, bind_eq_ok, hread, Except.ok.injEq, exists_eq_left',
    decodeRecord_eq_ok hlen, failIf_eq_ok, exists_const, not_not, LedgerState.insert_eq_ok]
  constructor
  · rintro ⟨_, ⟨r, rfl, hadmissible, hbytes, rfl⟩, hpolicy, _, ⟨hconflicts, rfl⟩, hout⟩
    exact ⟨r, rfl, hpolicy, hadmissible, hbytes, hconflicts, (Except.ok.inj hout).symm⟩
  · rintro ⟨r, rfl, hpolicy, hadmissible, hbytes, hconflicts, rfl⟩
    exact ⟨_, ⟨r, rfl, hadmissible, hbytes, rfl⟩, hpolicy, _, ⟨hconflicts, rfl⟩, rfl⟩

/-- What the loop accepts: some records one after another. -/
theorem foldlM_readRecord {head : Head} {n : ℕ} {out : LedgerState × Identity}
    (h : recordOffset n ≤ file.length) :
    (List.range n).foldlM (readRecord sha256 file kind policy) (.empty head, .zero 32) = .ok out ↔
      ∃ records, records.length = n ∧ Accepted kind policy records ∧
        slice file headerBytes (recordOffset n) = body sha256 records ∧
        out = ((LedgerState.empty head).gather records, lastIdentity sha256 records) := by
  induction n generalizing out with
  | zero =>
    have hnone : slice file headerBytes (recordOffset 0) = [] := by
      rw [slice, recordOffset, Nat.zero_mul, Nat.zero_add, Nat.sub_self, List.take_zero]
    rw [hnone, List.range_zero]
    constructor
    · intro hout
      exact ⟨[], rfl, accepted_nil, rfl, (Except.ok.inj hout).symm⟩
    · rintro ⟨records, hlength, -, -, rfl⟩
      rw [List.length_eq_zero_iff.mp hlength]
      rfl
  | succ n ih =>
    have hle : recordOffset n ≤ recordOffset (n + 1) := by
      rw [recordOffset_succ]
      exact Nat.le_add_right _ _
    have hslices := slice_append_slice file (headerBytes_le_recordOffset n) hle
    rw [List.range_succ, List.foldlM_append, bind_eq_ok, ← hslices]
    simp only [ih (hle.trans h), List.foldlM_cons, List.foldlM_nil, bind_pure]
    constructor
    · rintro ⟨_, ⟨records, rfl, haccepted, hbody, rfl⟩, hround⟩
      obtain ⟨r, hkind, hpolicy, hadmissible, hbytes, hconflicts, rfl⟩ :=
        (readRecord_eq_ok h).mp hround
      have hnew : ∀ r' ∈ records, ¬ r'.Clashes r := by
        intro r' hr' hclash
        have hyes : ((LedgerState.empty head).gather records).conflicts r = true :=
          LedgerState.conflicts_gather.mpr ⟨r', hr', hclash⟩
        rw [hconflicts] at hyes
        cases hyes
      refine ⟨records ++ [r], by simp, accepted_concat.mpr ⟨haccepted, hkind, hpolicy, hadmissible,
        hnew⟩, ?_, ?_⟩
      · rw [hbody, hbytes, body_concat]
      · rw [LedgerState.gather_concat, lastIdentity_concat]
    · rintro ⟨all, hlength, haccepted, hbody, rfl⟩
      rcases all.eq_nil_or_concat with rfl | ⟨records, r, rfl⟩
      · cases hlength
      rw [List.concat_eq_append] at *
      obtain rfl : records.length = n := by simpa using hlength
      obtain ⟨haccepted, hkind, hpolicy, hadmissible, hnew⟩ := accepted_concat.mp haccepted
      rw [body_concat] at hbody
      have hwidth : (slice file (recordOffset records.length)
          (recordOffset (records.length + 1))).length =
          (r.encode sha256 (lastIdentity sha256 records)).length := by
        rw [length_slice h, length_encode, recordOffset_succ, Nat.add_sub_cancel_left]
      obtain ⟨hfront, hback⟩ := List.append_inj' hbody hwidth
      refine ⟨_, ⟨records, rfl, haccepted, hfront, rfl⟩, (readRecord_eq_ok h).mpr
        ⟨r, hkind, hpolicy, hadmissible, hback, ?_, ?_⟩⟩
      · rw [← Bool.not_eq_true, LedgerState.conflicts_gather]
        rintro ⟨r', hr', hclash⟩
        exact hnew r' hr' hclash
      · rw [LedgerState.gather_concat, lastIdentity_concat]

/-- The header in front of a file. -/
theorem slice_image_header : slice (image sha256 kind ns policy maxRecords records) 0 headerBytes =
    encodeHeader sha256 kind ns policy maxRecords :=
  slice_append_left _ length_encodeHeader

theorem preadAll_header (h : headerBytes ≤ file.length) :
    preadAll file headerBytes 0 = .ok (slice file 0 headerBytes) :=
  preadAll_eq_ok.mpr ⟨by rwa [Nat.zero_add], by rw [Nat.zero_add]⟩

/-- The state of some records, by the head that the loop starts with. -/
theorem gather_eq_stateOf {head : Head} (hpolicy : head.policyIdentity = policy)
    (hheader : head.headerIdentity = headerDigest sha256 kind ns policy maxRecords)
    (hcount : head.recordCount = .ofNat records.length) :
    { (LedgerState.empty head).gather records with
      externalHead := { ((LedgerState.empty head).gather records).externalHead with
        recordIdentity := lastIdentity sha256 records } } =
      stateOf sha256 kind ns policy maxRecords records := by
  rw [LedgerState.gather_externalHead, stateOf, headOf, ← hpolicy, ← hcount]
  refine (LedgerState.gather_withHead _).trans ?_
  rw [hpolicy, ← hheader, ← hpolicy]
  rfl

/-- The files that are accepted are those of the records that they may hold, and what is read of one
is the state of its records. -/
theorem readValidatedState_eq_ok {state : LedgerState} :
    readValidatedState sha256 file kind ns policy maxRecords = .ok state ↔
      ∃ records, records.length ≤ maxRecords.toNat ∧ Accepted kind policy records ∧
        file = image sha256 kind ns policy maxRecords records ∧
        state = stateOf sha256 kind ns policy maxRecords records := by
  have hmax : maxRecords.toNat < 2 ^ 32 := maxRecords.toNat_lt_size
  simp only [readValidatedState, bind_eq_ok, failIf_eq_ok, exists_const, not_or, not_lt, not_not,
    fixed_eq_ok]
  constructor
  · rintro ⟨⟨hheader, hlimit⟩, htorn, -, -, header, hread, ⟨⟩, hvalid, identity, hidentity,
      ⟨s, previous⟩, hloop, hstate⟩
    set n := (file.length - headerBytes) / recordBytes with hn
    have hlength : file.length = recordOffset n := by
      rw [recordOffset, hn]
      rw [recordBytes] at htorn ⊢
      omega
    rw [preadAll_header hheader] at hread
    obtain rfl := Except.ok.inj hread
    have hwidth : (slice file 0 headerBytes).length = headerBytes := length_slice hheader
    rw [validateHeader_eq_ok hwidth] at hvalid
    obtain ⟨records, hrecords, haccepted, hbody, hout⟩ := (foldlM_readRecord hlength.ge).mp hloop
    obtain ⟨rfl, rfl⟩ := Prod.mk.inj hout
    have hcount : records.length ≤ maxRecords.toNat := by
      rw [hrecords, hn]
      rw [recordBytes] at hlimit ⊢
      omega
    refine ⟨records, hcount, haccepted, ?_, ?_⟩
    · have hfile := slice_append_slice file (Nat.zero_le headerBytes) (hlength ▸ hheader)
      rw [hvalid, hbody, slice_zero, ← hlength, List.take_length] at hfile
      exact hfile.symm
    · rw [hvalid, headerIdentity_encodeHeader] at hidentity
      obtain rfl := Except.ok.inj hstate
      exact gather_eq_stateOf rfl (Subtype.ext hidentity.symm)
        (congrArg UInt32.ofNat hrecords.symm)
  · rintro ⟨records, hcount, haccepted, rfl, rfl⟩
    have hlength : (image sha256 kind ns policy maxRecords records).length =
        recordOffset records.length := length_image
    have hquotient :
        (recordOffset records.length - headerBytes) / recordBytes = records.length := by
      rw [recordOffset, Nat.add_sub_cancel]
      exact Nat.mul_div_cancel _ (by decide : 0 < recordBytes)
    have hremainder : (recordOffset records.length - headerBytes) % recordBytes = 0 := by
      rw [recordOffset, Nat.add_sub_cancel]
      exact Nat.mul_mod_left _ _
    have hlimit : recordOffset records.length ≤ maxRecords.toNat * recordBytes + headerBytes :=
      Nat.add_le_add_right (Nat.mul_le_mul_right _ hcount) _
    have hbody : slice (image sha256 kind ns policy maxRecords records) headerBytes
        (recordOffset records.length) = body sha256 records := by
      refine slice_append_right _ length_encodeHeader ?_
      rw [length_body, recordOffset, Nat.add_sub_cancel]
    rw [hlength, hquotient]
    refine ⟨⟨headerBytes_le_recordOffset _, hlimit⟩, hremainder, by omega, hcount, _,
      preadAll_header (by rw [hlength]; exact headerBytes_le_recordOffset _), (), ?_,
      headerDigest sha256 kind ns policy maxRecords, ?_, _,
      (foldlM_readRecord hlength.ge).mpr ⟨records, rfl, haccepted, hbody, rfl⟩, ?_⟩
    · rw [slice_image_header, validateHeader_eq_ok length_encodeHeader]
    · rw [slice_image_header, headerIdentity_encodeHeader]
    · exact congrArg Except.ok (gather_eq_stateOf rfl rfl rfl)

/-- Whatever a file holds, reading it does not panic. -/
theorem total_readValidatedState :
    Total (readValidatedState sha256 file kind ns policy maxRecords) := by
  rw [readValidatedState]
  refine total_failIf.bind fun _ => ?_
  generalize file.length - headerBytes = bodyLength
  refine total_failIf.bind fun _ => ?_
  refine total_failIf.bind fun _ => total_failIf.bind fun _ => ?_
  refine Ensures.bind total_preadAll fun header hread _ => ?_
  have hwidth : (headerIdentity header).length = 32 := by
    obtain ⟨hle, rfl⟩ := preadAll_eq_ok.mp hread
    rw [headerIdentity, length_slice]
    rw [length_slice hle, Nat.zero_add, Nat.sub_zero]
    exact le_rfl
  refine total_failIf.bind fun _ =>
    (total_fixed hwidth).bind fun _ => Total.bind ?_ fun _ => trivial
  exact ensures_foldlM (I := fun _ _ _ => True) (d := []) trivial fun _ _ _ _ _ => total_readRecord

/-- What is read of a file of some records. -/
theorem readValidatedState_image (hcount : records.length ≤ maxRecords.toNat)
    (h : Accepted kind policy records) :
    readValidatedState sha256 (image sha256 kind ns policy maxRecords records) kind ns policy
      maxRecords = .ok (stateOf sha256 kind ns policy maxRecords records) :=
  readValidatedState_eq_ok.mpr ⟨records, hcount, h, rfl, rfl⟩

/-! ### Checking a cached state -/

theorem toNat_recordCount (h : records.length ≤ maxRecords.toNat) :
    (headOf sha256 kind ns policy maxRecords records).recordCount.toNat = records.length :=
  UInt32.toNat_ofNat_of_lt' (h.trans_lt maxRecords.toNat_lt_size)

/-- A file whose state is valid has as many records as the state. -/
theorem length_of_validateCachedFileState {state : LedgerState}
    (h : validateCachedFileState sha256 file kind ns policy maxRecords state = .ok ()) :
    file.length = recordOffset state.externalHead.recordCount.toNat := by
  simp only [validateCachedFileState, bind_eq_ok, failIf_eq_ok, exists_const, not_not] at h
  exact h.1

theorem total_validateCachedFileState {state : LedgerState} :
    Total (validateCachedFileState sha256 file kind ns policy maxRecords state) := by
  refine total_failIf.bind fun _ => total_preadAll.bind fun _ => total_failIf.bind fun _ => ?_
  refine total_failIf.bind fun _ => ?_
  split
  · exact total_preadAll.bind fun _ => total_failIf
  · exact total_failIf

/-- The file of some records is valid for their state. -/
theorem validateCachedFileState_image (h : records.length ≤ maxRecords.toNat) :
    validateCachedFileState sha256 (image sha256 kind ns policy maxRecords records) kind ns policy
      maxRecords (stateOf sha256 kind ns policy maxRecords records) = .ok () := by
  have hheader : preadAll (image sha256 kind ns policy maxRecords records) headerBytes 0 =
      .ok (encodeHeader sha256 kind ns policy maxRecords) := by
    rw [preadAll_header (by rw [length_image]; exact headerBytes_le_recordOffset _),
      slice_image_header]
  have hvalid : validateHeader sha256 (encodeHeader sha256 kind ns policy maxRecords) kind ns policy
      maxRecords = .ok () := (validateHeader_eq_ok length_encodeHeader).mpr rfl
  simp only [validateCachedFileState, stateOf_externalHead, toNat_recordCount h, bind_eq_ok,
    failIf_eq_ok, exists_const, not_not, hheader, Except.ok.injEq, exists_eq_left']
  refine ⟨length_image, (), hvalid, headerIdentity_encodeHeader, ?_⟩
  rcases records.eq_nil_or_concat with rfl | ⟨front, r, rfl⟩
  · rfl
  · rw [List.concat_eq_append] at *
    have htail : preadAll (image sha256 kind ns policy maxRecords (front ++ [r])) recordBytes
        (recordOffset ((front ++ [r]).length - 1)) =
        .ok (r.encode sha256 (lastIdentity sha256 front)) := by
      rw [List.length_append, List.length_singleton, Nat.add_sub_cancel, image_concat]
      refine preadAll_eq_ok.mpr ⟨?_, (slice_append_right _ length_image ?_).symm⟩
      · rw [List.length_append, length_image, length_encode]
      · rw [length_encode, Nat.add_sub_cancel_left]
    have hpos : (front ++ [r]).length > 0 := by simp
    rw [if_pos hpos, htail]
    show failIf _ _ = _
    rw [failIf_eq_ok, slice_encode_identity, slice_encode, headOf, lastIdentity_concat]
    exact not_or.mpr ⟨not_not.mpr rfl, not_not.mpr rfl⟩

/-! ### Heads stand for files -/

/-- What the digest is taken of in a file. -/
def digested (file : List UInt8) : Set (List UInt8) :=
  { bytes | bytes = headerDomain ++ slice file 0 96 ∨ ∃ i, recordOffset (i + 1) ≤ file.length ∧
    bytes = recordDomain ++ slice file (recordOffset i) (recordOffset i + 192) }

theorem digested_mono {tail : List UInt8} (h : headerBytes ≤ file.length) :
    digested file ⊆ digested (file ++ tail) := by
  rintro bytes (rfl | ⟨i, hi, rfl⟩)
  · refine .inl ?_
    rw [slice_append_of_le tail (h.trans' (by decide))]
  · have hle : recordOffset i + 192 ≤ file.length := by
      rw [recordOffset_succ, recordBytes] at hi
      omega
    refine .inr ⟨i, ?_, ?_⟩
    · rw [List.length_append]
      exact hi.trans (Nat.le_add_right _ _)
    · rw [slice_append_of_le tail hle]

/-- The digest of a record is taken of a part of the file. -/
theorem digested_of_mem_links {x : LedgerRecord × Identity}
    (h : x ∈ Chained.links (LedgerRecord.identity sha256) (.zero 32) records) :
    recordDomain ++ (x.1.fields x.2).flatten ∈
      digested (image sha256 kind ns policy maxRecords records) := by
  induction records using List.reverseRecOn with
  | nil => cases h
  | append_singleton records r ih =>
    rw [Chained.links_concat, List.mem_append, List.mem_singleton] at h
    rw [image_concat]
    rcases h with h | rfl
    · refine digested_mono ?_ (ih h)
      rw [length_image]
      exact headerBytes_le_recordOffset _
    · refine .inr ⟨records.length, ?_, ?_⟩
      · rw [List.length_append, length_image, length_encode, recordOffset_succ]
      · have hlength : (image sha256 kind ns policy maxRecords records).length =
            recordOffset records.length := length_image
        have hslice :=
          slice_append_add (r.encode sha256 (lastIdentity sha256 records)) 0 192 hlength
        rw [Nat.add_zero, slice_encode] at hslice
        rw [hslice]
        rfl

/-- Files that are accepted and have one head are one file. -/
theorem file_eq_of_head_eq {file' : List UInt8} {state state' : LedgerState}
    (h : readValidatedState sha256 file kind ns policy maxRecords = .ok state)
    (h' : readValidatedState sha256 file' kind ns policy maxRecords = .ok state')
    (hinj : Set.InjOn sha256 (digested file ∪ digested file'))
    (hhead : state.externalHead = state'.externalHead) : file = file' := by
  obtain ⟨records, hcount, -, rfl, rfl⟩ := readValidatedState_eq_ok.mp h
  obtain ⟨records', hcount', -, rfl, rfl⟩ := readValidatedState_eq_ok.mp h'
  rw [stateOf_externalHead, stateOf_externalHead] at hhead
  have hlength : records.length = records'.length := by
    have hsame := congrArg (fun head => head.recordCount.toNat) hhead
    rwa [toNat_recordCount hcount, toNat_recordCount hcount'] at hsame
  have hlast : lastIdentity sha256 records = lastIdentity sha256 records' :=
    congrArg Head.recordIdentity hhead
  refine congrArg _ (Chained.eq_of_last_eq hlength ?_ hlast)
  rintro ⟨r, p⟩ hr ⟨r', p'⟩ hr' heq
  have hbytes := hinj (.inl (digested_of_mem_links hr)) (.inr (digested_of_mem_links hr')) (by
    simpa [LedgerRecord.identity, hashParts] using heq)
  obtain ⟨rfl, rfl⟩ := eq_of_fields_eq (List.append_cancel_left hbytes)
  rfl

end Ledger

end Ferric
