import Ferric.Ledger.Model

/-!
# Headers and records as bytes

A header and a record are their fields followed by the digest of the fields. The code that checks
them looks at the bytes by position, and its checks are those of one equation: the header has to be
the one that `encode_header` writes, and the record one that `encode` writes for coordinates that
its kind admits.

## Main results

* `validateHeader_eq_ok` — the one header that is valid
* `decodeRecord_eq_ok` — the records that are decoded
-/

namespace Ferric

namespace Ledger

variable {sha256 : List UInt8 → Identity}

/-! ### Fields with their digest -/

/-- The fields, and the digest of them behind a domain. -/
def frame (sha256 : List UInt8 → Identity) (domain : List UInt8) (fields : List (List UInt8)) :
    List UInt8 :=
  fields.flatten ++ (hashParts sha256 [domain, fields.flatten]).val

theorem eq_frame_iff {domain bytes : List UInt8} {fields : List (List UInt8)} {widths : List ℕ}
    (hfields : fields.map List.length = widths) (hbytes : bytes.length = widths.sum + 32) :
    bytes = frame sha256 domain fields ↔ cut widths bytes = fields ∧
      slice bytes widths.sum (widths.sum + 32) =
        (hashParts sha256 [domain, slice bytes 0 widths.sum]).val := by
  have hlength : fields.flatten.length = widths.sum := by rw [List.length_flatten, hfields]
  constructor
  · rintro rfl
    set digest := hashParts sha256 [domain, fields.flatten] with hdigest
    have hall : (fields ++ [digest.val]).map List.length = widths ++ [32] := by
      rw [List.map_append, hfields, List.map_singleton, digest.property]
    have hflat : (fields ++ [digest.val]).flatten = frame sha256 domain fields := by
      rw [List.flatten_append, List.flatten_singleton]
      rfl
    have hcut := cut_flatten (fields ++ [digest.val])
    rw [hall, cut_concat, hflat] at hcut
    obtain ⟨hparts, hlast⟩ := List.append_inj' hcut rfl
    refine ⟨hparts, ?_⟩
    rw [List.singleton_inj.mp hlast, frame, slice_append_left _ hlength, hdigest]
  · rintro ⟨hparts, hlast⟩
    have hsum : bytes.length = (widths ++ [32]).sum := by rw [List.sum_append]; exact hbytes
    have hflat := flatten_cut hsum
    rw [cut_concat, hparts, List.flatten_append, List.flatten_singleton] at hflat
    have hfront : slice bytes 0 widths.sum = fields.flatten := by
      rw [← hflat, slice_append_left _ hlength]
    rw [hfront] at hlast
    rw [← hflat, hlast, frame]

/-! ### The header -/

section Header

variable {kind : LedgerKind} {ns policy : Identity} {maxRecords : UInt32} {bytes : List UInt8}

/-- The widths of the fields of a header. -/
def headerWidths : List ℕ := [8, 2, 2, 4, 4, 4, 8, 32, 32]

theorem map_length_headerFields : (headerFields kind ns policy maxRecords).map List.length =
    headerWidths := by
  simp only [headerFields, List.map_cons, List.map_nil, Block.length_val]
  rfl

@[simp] theorem length_encodeHeader :
    (encodeHeader sha256 kind ns policy maxRecords).length = headerBytes := by
  show ((headerFields kind ns policy maxRecords).flatten ++ _).length = _
  rw [List.length_append, List.length_flatten, map_length_headerFields, Block.length_val]
  rfl

/-- A valid header is the one that is written for its ledger. -/
theorem validateHeader_eq_ok (h : bytes.length = headerBytes) :
    validateHeader sha256 bytes kind ns policy maxRecords = .ok () ↔
      bytes = encodeHeader sha256 kind ns policy maxRecords := by
  have hlen : bytes.length = 128 := h
  have hcut : cut headerWidths bytes = [slice bytes 0 8, slice bytes 8 10, slice bytes 10 12,
      slice bytes 12 16, slice bytes 16 20, slice bytes 20 24, slice bytes 24 32,
      slice bytes 32 64, slice bytes 64 96] := by
    have hcut := cut_drop headerWidths bytes 0
    rw [List.drop_zero] at hcut
    rw [hcut]
    rfl
  have h2 : ∀ lo, lo + 2 ≤ 128 → (slice bytes lo (lo + 2)).length = 2 := by
    intro lo hlo
    rw [length_slice (by omega), Nat.add_sub_cancel_left]
  have h4 : ∀ lo, lo + 4 ≤ 128 → (slice bytes lo (lo + 4)).length = 4 := by
    intro lo hlo
    rw [length_slice (by omega), Nat.add_sub_cancel_left]
  have hframe : encodeHeader sha256 kind ns policy maxRecords =
      frame sha256 headerDomain (headerFields kind ns policy maxRecords) := rfl
  rw [hframe, eq_frame_iff map_length_headerFields hlen, hcut, headerFields, validateHeader,
    failIf_eq_ok]
  simp only [not_or, not_not, List.cons.injEq, and_true, eq_le16_iff _ (h2 8 (by omega)),
    eq_le16_iff _ (h2 10 (by omega)), eq_le32_iff _ (h4 12 (by omega)),
    eq_le32_iff _ (h4 16 (by omega)), eq_le32_iff _ (h4 20 (by omega)), and_assoc]
  rfl

/-- A header has one capacity. -/
theorem eq_of_encodeHeader_eq {maxRecords' : UInt32}
    (h : encodeHeader sha256 kind ns policy maxRecords =
      encodeHeader sha256 kind ns policy maxRecords') : maxRecords = maxRecords' := by
  have hsame : (headerFields kind ns policy maxRecords).flatten.length =
      (headerFields kind ns policy maxRecords').flatten.length := by
    rw [List.length_flatten, List.length_flatten, map_length_headerFields, map_length_headerFields]
  have hfields := eq_of_flatten_eq (map_length_headerFields.trans map_length_headerFields.symm)
    (List.append_inj h hsame).1
  simp only [headerFields, List.cons.injEq, and_true, true_and] at hfields
  exact le32_injective (Subtype.ext hfields)

/-- The digest of a header. -/
def headerDigest (sha256 : List UInt8 → Identity) (kind : LedgerKind) (ns policy : Identity)
    (maxRecords : UInt32) : Identity :=
  hashParts sha256 [headerDomain, (headerFields kind ns policy maxRecords).flatten]

/-- The identity of a header is its digest. -/
theorem headerIdentity_encodeHeader :
    headerIdentity (encodeHeader sha256 kind ns policy maxRecords) =
    (headerDigest sha256 kind ns policy maxRecords).val := by
  have hlength : (headerFields kind ns policy maxRecords).flatten.length = 96 := by
    rw [List.length_flatten, map_length_headerFields]
    rfl
  exact slice_append_right _ hlength (Block.length_val _)

end Header

/-! ### Records -/

section Record

variable {r r' : LedgerRecord} {kind : LedgerKind} {previous : Identity} {bytes : List UInt8}

/-- The coordinates that the kind of a record admits. -/
structure LedgerRecord.Admissible (r : LedgerRecord) : Prop where
  primary : r.primary ≠ .zero 32
  replay : r.kind = .replay → r.secondary = .zero 32 ∧ r.request = .zero 32
  reservation : r.kind = .reservation → r.secondary ≠ .zero 32 ∧ r.request ≠ .zero 32

/-- What is decoded of a record after `previous`. -/
def LedgerRecord.decoded (sha256 : List UInt8 → Identity) (r : LedgerRecord) (previous : Identity) :
    DecodedRecord :=
  ⟨r.caller, r.policy, r.primary, r.secondary, r.request, r.identity sha256 previous⟩

/-- The widths of the fields of a record. -/
def recordWidths : List ℕ := [8, 2, 2, 4, 4, 4, 4, 4, 32, 32, 32, 32, 32]

theorem map_length_fields : (r.fields previous).map List.length = recordWidths := by
  simp only [LedgerRecord.fields, List.map_cons, List.map_nil, Block.length_val]
  rfl

theorem length_flatten_fields : (r.fields previous).flatten.length = 192 := by
  rw [List.length_flatten, map_length_fields]
  rfl

@[simp] theorem length_encode : (r.encode sha256 previous).length = recordBytes := by
  rw [LedgerRecord.encode, List.length_append, length_flatten_fields, Block.length_val]
  rfl

/-- The fields of an encoded record. -/
theorem slice_encode : slice (r.encode sha256 previous) 0 192 = (r.fields previous).flatten :=
  slice_append_left _ length_flatten_fields

/-- The digest of an encoded record. -/
theorem slice_encode_identity :
    slice (r.encode sha256 previous) 192 224 = (r.identity sha256 previous).val :=
  slice_append_right _ length_flatten_fields (Block.length_val _)

theorem eq_of_fields_eq {previous' : Identity}
    (h : (r.fields previous).flatten = (r'.fields previous').flatten) :
    r = r' ∧ previous = previous' := by
  have hfields := eq_of_flatten_eq (map_length_fields.trans map_length_fields.symm) h
  simp only [LedgerRecord.fields, List.cons.injEq, and_true, true_and, Subtype.val_inj] at hfields
  obtain ⟨hkind, hpid, huid, hgid, hpolicy, hprimary, hsecondary, hrequest, hprevious⟩ := hfields
  have htag : r.kind = r'.kind := by
    have hsome := LedgerKind.fromTag_eq_some.mpr (le16_injective hkind)
    rw [LedgerKind.fromTag_eq_some.mpr rfl] at hsome
    exact Option.some.inj hsome
  obtain ⟨⟨pid, uid, gid⟩, policy, primary, secondary, request, kind⟩ := r
  obtain ⟨⟨pid', uid', gid'⟩, policy', primary', secondary', request', kind'⟩ := r'
  obtain rfl := le32_injective hpid
  obtain rfl := le32_injective huid
  obtain rfl := le32_injective hgid
  obtain rfl : kind = kind' := htag
  exact ⟨by simp_all, hprevious⟩

/-- A record is read back from its bytes. -/
theorem eq_of_encode_eq (h : r.encode sha256 previous = r'.encode sha256 previous) : r = r' := by
  have hfields := congrArg (slice · 0 192) h
  simp only [slice_encode] at hfields
  exact (eq_of_fields_eq hfields).1

theorem fixed_eq_ok {n : ℕ} {b : Block n} : fixed n bytes = .ok b ↔ bytes = b.val := by
  rw [fixed, orPanic_eq_ok]
  constructor
  · intro h
    split at h
    · exact congrArg Subtype.val (Option.some.inj h)
    · cases h
  · rintro rfl
    rw [dif_pos b.property]

theorem total_fixed {n : ℕ} (h : bytes.length = n) : Total (fixed n bytes) :=
  ensures_orPanic (dif_pos h) trivial

theorem total_decodeRecord (h : bytes.length = recordBytes) :
    Total (decodeRecord sha256 bytes kind previous) := by
  have hfixed : ∀ lo n, lo + n ≤ 224 → Total (fixed n (slice bytes lo (lo + n))) := by
    intro lo n hle
    refine total_fixed ?_
    rw [length_slice (hle.trans h.ge), Nat.add_sub_cancel_left]
  refine total_failIf.bind fun _ => total_failIf.bind fun _ => total_failIf.bind fun _ => ?_
  refine (hfixed 192 32 (by omega)).bind fun _ => total_failIf.bind fun _ => ?_
  refine (hfixed 64 32 (by omega)).bind fun _ => (hfixed 96 32 (by omega)).bind fun _ => ?_
  refine (hfixed 128 32 (by omega)).bind fun _ => total_failIf.bind fun _ => ?_
  refine (hfixed 16 4 (by omega)).bind fun _ => (hfixed 20 4 (by omega)).bind fun _ => ?_
  exact (hfixed 24 4 (by omega)).bind fun _ => (hfixed 32 32 (by omega)).bind fun _ => trivial

/-- The records that are decoded are the encoded ones whose kind admits their coordinates. -/
theorem decodeRecord_eq_ok {d : DecodedRecord} (h : bytes.length = recordBytes) :
    decodeRecord sha256 bytes kind previous = .ok d ↔
      ∃ r : LedgerRecord, r.kind = kind ∧ r.Admissible ∧ bytes = r.encode sha256 previous ∧
        d = r.decoded sha256 previous := by
  have hlen : bytes.length = 224 := h
  have hcut : cut recordWidths bytes = [slice bytes 0 8, slice bytes 8 10, slice bytes 10 12,
      slice bytes 12 16, slice bytes 16 20, slice bytes 20 24, slice bytes 24 28,
      slice bytes 28 32, slice bytes 32 64, slice bytes 64 96, slice bytes 96 128,
      slice bytes 128 160, slice bytes 160 192] := by
    have hcut := cut_drop recordWidths bytes 0
    rw [List.drop_zero] at hcut
    rw [hcut]
    rfl
  have h2 : ∀ lo, lo + 2 ≤ 224 → (slice bytes lo (lo + 2)).length = 2 := by
    intro lo hlo
    rw [length_slice (by omega), Nat.add_sub_cancel_left]
  have h4 : ∀ lo, lo + 4 ≤ 224 → (slice bytes lo (lo + 4)).length = 4 := by
    intro lo hlo
    rw [length_slice (by omega), Nat.add_sub_cancel_left]
  have hframe : ∀ r : LedgerRecord, bytes = r.encode sha256 previous ↔
      cut recordWidths bytes = r.fields previous ∧
        slice bytes 192 224 = (hashParts sha256 [recordDomain, slice bytes 0 192]).val := by
    intro r
    exact eq_frame_iff map_length_fields hlen
  simp only [hcut, LedgerRecord.fields, List.cons.injEq, and_true,
    eq_le16_iff _ (h2 8 (by omega)), eq_le16_iff _ (h2 10 (by omega)),
    eq_le32_iff _ (h4 12 (by omega))] at hframe
  simp only [decodeRecord, bind_eq_ok, failIf_eq_ok, exists_const, fixed_eq_ok, not_or, not_not]
  constructor
  · rintro ⟨hmagic, ⟨hversion, htag, hwidth⟩, ⟨hreserved, hprevious⟩, identity, hidentity, hdigest,
      primary, hprimary, secondary, hsecondary, request, hrequest, ⟨hzero, hreplay, hreservation⟩,
      pid, hpid, uid, huid, gid, hgid, policy, hpolicy, hd⟩
    obtain rfl := Except.ok.inj hd
    have hbytes := (hframe ⟨(ofLe32 pid, ofLe32 uid, ofLe32 gid), policy, primary, secondary,
      request, kind⟩).mpr ⟨⟨hmagic, hversion, htag, hwidth, by rw [le32_ofLe32, hpid],
        by rw [le32_ofLe32, huid], by rw [le32_ofLe32, hgid], hreserved, hpolicy, hprimary,
        hsecondary, hrequest, hprevious⟩, by rw [hidentity, hdigest]⟩
    refine ⟨_, rfl, ⟨hzero, fun hkind => ?_, fun hkind => ?_⟩, hbytes, ?_⟩
    · by_contra hnot
      exact hreplay ⟨hkind, by tauto⟩
    · by_contra hnot
      exact hreservation ⟨hkind, by tauto⟩
    · rw [hbytes, slice_encode] at hdigest
      rw [hdigest]
      rfl
  · rintro ⟨r, rfl, hadmissible, hbytes, rfl⟩
    obtain ⟨⟨hmagic, hversion, htag, hwidth, hpid, huid, hgid, hreserved, hpolicy, hprimary,
      hsecondary, hrequest, hprevious⟩, hdigest⟩ := (hframe r).mp hbytes
    have hidentity : slice bytes 192 224 = (r.identity sha256 previous).val := by
      rw [hbytes, slice_encode_identity]
    have hchecksum : r.identity sha256 previous =
        hashParts sha256 [recordDomain, slice bytes 0 192] := by
      rw [hbytes, slice_encode]
      rfl
    refine ⟨hmagic, ⟨hversion, htag, hwidth⟩, ⟨hreserved, hprevious⟩, _, hidentity, hchecksum,
      _, hprimary, _, hsecondary, _, hrequest, ⟨hadmissible.primary, ?_, ?_⟩,
      _, hpid, _, huid, _, hgid, _, hpolicy, ?_⟩
    · rintro ⟨hkind, hnot⟩
      obtain ⟨hs, hr⟩ := hadmissible.replay hkind
      exact hnot.elim (· hs) (· hr)
    · rintro ⟨hkind, hnot⟩
      obtain ⟨hs, hr⟩ := hadmissible.reservation hkind
      exact hnot.elim hs hr
    · rw [ofLe32_le32, ofLe32_le32, ofLe32_le32]
      rfl

end Record

end Ledger

end Ferric
