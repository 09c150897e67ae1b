import Ferric.CompletionWire.Model

/-!
# The decoder of completion records

The decoder reads every byte of a record, so a record is determined by its bytes and its bytes are
determined by the record. `decodeCompletionRecord_eq_ok` says which byte strings are decoded, and to
what.
-/

namespace Ferric

namespace CompletionWire

open Spec

/-- The fields of a record, in order. -/
def recordFields (r : CompactCompletionRecord) : List (List UInt8) :=
  [le 4 r.request.slot, le 4 r.request.generation, le 8 r.epoch, r.planId.bytes.toList,
    le 1 r.acceptedDraftTokens, le 1 r.emittedTokenCount, [0, 0]] ++
    r.emittedTokens.toList.map (le 4)

/-- Their widths. -/
def recordWidths : List ℕ := [4, 4, 8, 32, 1, 1, 2] ++ List.replicate 17 4

/-- The bytes of a record. -/
def encodeRecord (r : CompactCompletionRecord) : List UInt8 := (recordFields r).flatten

/-- A record that has a place on the wire. -/
structure OnWire (r : CompactCompletionRecord) : Prop where
  slot : r.request.slot < maxActiveSequences
  generation : r.request.generation ≠ 0
  generation_lt : r.request.generation < 2 ^ 32
  epoch : r.epoch < 2 ^ 64
  accepted : r.acceptedDraftTokens < 256
  count : r.emittedTokenCount ≤ tokenSlotCount
  tokens : ∀ t ∈ r.emittedTokens.toList, t < 2 ^ 32

theorem map_length_recordFields (r : CompactCompletionRecord) :
    (recordFields r).map List.length = recordWidths := by
  have htokens : (r.emittedTokens.toList.map (le 4)).map List.length = List.replicate 17 4 := by
    rw [List.map_map]
    have hlen : r.emittedTokens.toList.length = 17 := Vector.length_toList
    refine List.eq_replicate_iff.mpr ⟨by rw [List.length_map, hlen], fun n hn => ?_⟩
    obtain ⟨t, -, rfl⟩ := List.mem_map.mp hn
    exact length_le 4 t
  rw [recordFields, List.map_append, htokens, recordWidths]
  simp

theorem length_encodeRecord (r : CompactCompletionRecord) :
    (encodeRecord r).length = recordBytes := by
  rw [encodeRecord, List.length_flatten, map_length_recordFields]
  rfl

/-! ### Reading by position -/

/-- The parts of the bytes of a record. -/
theorem cut_recordWidths (bytes : List UInt8) :
    cut recordWidths bytes = [slice bytes 0 4, slice bytes 4 8, slice bytes 8 16, slice bytes 16 48,
      slice bytes 48 49, slice bytes 49 50, slice bytes 50 52] ++
      (List.range 17).map fun i => slice bytes (52 + i * 4) (52 + i * 4 + 4) := by
  have hcut := cut_drop recordWidths bytes 0
  rw [List.drop_zero] at hcut
  rw [hcut, ← slices_replicate]
  rfl

/-- What the decoder reads, without its checks. -/
def parsed (bytes : List UInt8) (h : bytes.length = recordBytes) : CompactCompletionRecord where
  request := ⟨ofLe (slice bytes 0 4), ofLe (slice bytes 4 8)⟩
  epoch := ofLe (slice bytes 8 16)
  planId := ⟨⟨(slice bytes 16 48).toArray, length_slice (by rw [h]; decide)⟩⟩
  acceptedDraftTokens := ofLe (slice bytes 48 49)
  emittedTokenCount := ofLe (slice bytes 49 50)
  emittedTokens := .ofFn fun i => ofLe (slice bytes (52 + i * 4) (52 + i * 4 + 4))

theorem le_ofLe_slice {bytes : List UInt8} {lo hi n : ℕ} (h : hi ≤ bytes.length)
    (hn : hi - lo = n) : le n (ofLe (slice bytes lo hi)) = slice bytes lo hi := by
  have hlen : (slice bytes lo hi).length = hi - lo := length_slice h
  rw [← hn, ← hlen, le_ofLe]

/-- The parsed record has the bytes for its fields, apart from the reserved ones. -/
theorem cut_eq_recordFields {bytes : List UInt8} (h : bytes.length = recordBytes)
    (hreserved : slice bytes 50 52 = [0, 0]) :
    cut recordWidths bytes = recordFields (parsed bytes h) := by
  rw [recordBytes] at h
  have htokens : (List.range 17).map (fun i => slice bytes (52 + i * 4) (52 + i * 4 + 4)) =
      (parsed bytes h).emittedTokens.toList.map (le 4) := by
    have hlen : (parsed bytes h).emittedTokens.toList.length = 17 := Vector.length_toList
    refine List.ext_getElem (by rw [List.length_map, List.length_map, List.length_range, hlen])
      fun i hi hi' => ?_
    have hi : i < 17 := by simpa using hi
    simp only [parsed, List.getElem_map, List.getElem_range, Vector.getElem_toList,
      Vector.getElem_ofFn]
    rw [le_ofLe_slice (by omega) (by omega)]
  have hslot : le 4 (ofLe (slice bytes 0 4)) = slice bytes 0 4 := le_ofLe_slice (by omega) rfl
  have hgeneration : le 4 (ofLe (slice bytes 4 8)) = slice bytes 4 8 :=
    le_ofLe_slice (by omega) rfl
  have hepoch : le 8 (ofLe (slice bytes 8 16)) = slice bytes 8 16 := le_ofLe_slice (by omega) rfl
  have haccepted : le 1 (ofLe (slice bytes 48 49)) = slice bytes 48 49 :=
    le_ofLe_slice (by omega) rfl
  have hcount : le 1 (ofLe (slice bytes 49 50)) = slice bytes 49 50 := le_ofLe_slice (by omega) rfl
  rw [cut_recordWidths, htokens, hreserved, recordFields]
  simp only [parsed]
  rw [hslot, hgeneration, hepoch, haccepted, hcount]
  rfl

/-- The bytes of a record are parsed as the record. -/
theorem parsed_encodeRecord {r : CompactCompletionRecord} (h : OnWire r) :
    parsed (encodeRecord r) (length_encodeRecord r) = r ∧
      slice (encodeRecord r) 50 52 = [0, 0] := by
  have hcut : cut recordWidths (encodeRecord r) = recordFields r := by
    rw [← map_length_recordFields r]
    exact cut_flatten (recordFields r)
  have hgeneration := h.generation_lt
  have hslot := h.slot
  have hcount := h.count
  rw [maxActiveSequences] at hslot
  rw [tokenSlotCount] at hcount
  rw [cut_recordWidths, recordFields] at hcut
  simp only [List.cons_append, List.nil_append, List.cons.injEq] at hcut
  obtain ⟨h1, h2, h3, h4, h5, h6, h7, htokens⟩ := hcut
  refine ⟨?_, h7⟩
  have hplan : (⟨⟨(slice (encodeRecord r) 16 48).toArray, length_slice (by
      rw [length_encodeRecord]; decide)⟩⟩ : Identity) = r.planId := by
    rw [Identity.mk.injEq]
    exact Vector.toList_inj.mp h4
  have hslots : (Vector.ofFn fun i : Fin maxCompletionTokens =>
      ofLe (slice (encodeRecord r) (52 + i * 4) (52 + i * 4 + 4))) = r.emittedTokens := by
    refine Vector.ext fun i hi => ?_
    have hi : i < 17 := hi
    have hlen : i < r.emittedTokens.toList.length := by
      rw [Vector.length_toList]
      exact hi
    have hentry : ((List.range 17).map fun i =>
        slice (encodeRecord r) (52 + i * 4) (52 + i * 4 + 4))[i]? =
        (r.emittedTokens.toList.map (le 4))[i]? := by rw [htokens]
    rw [List.getElem?_map, List.getElem?_range hi, List.getElem?_map,
      List.getElem?_eq_getElem hlen, Option.map_some, Option.map_some, Option.some.injEq] at hentry
    rw [Vector.getElem_ofFn, hentry, ofLe_le_of_lt (h.tokens _ (List.getElem_mem hlen))]
    exact Vector.getElem_toList hlen
  rw [parsed]
  simp only [hplan, hslots, h1, h2, h3, h5, h6]
  rw [ofLe_le_of_lt (by omega), ofLe_le_of_lt hgeneration, ofLe_le_of_lt h.epoch,
    ofLe_le_of_lt h.accepted, ofLe_le_of_lt (by omega)]

/-! ### The decoder -/

theorem field_ok {bytes : List UInt8} {offset count : ℕ} (h : offset + count ≤ bytes.length) :
    field bytes offset count = .ok (slice bytes offset (offset + count)) := if_pos h

theorem readU8_ok {bytes : List UInt8} {offset : ℕ} (h : offset < bytes.length) :
    readU8 bytes offset = .ok (ofLe (slice bytes offset (offset + 1))) := by
  have hslice : slice bytes offset (offset + 1) = [bytes[offset]] := by
    rw [slice, Nat.add_sub_cancel_left, List.drop_eq_getElem_cons h]
    rfl
  rw [readU8, List.getElem?_eq_getElem h, hslice]
  rfl

/-- The loop of the decoder. -/
theorem readTokens_ok {bytes : List UInt8} (h : bytes.length = recordBytes) :
    fill (fun _ index => do readU32 bytes (← orPanic (tokenOffset index))) 0 maxCompletionTokens
      (.replicate maxCompletionTokens 0) = .ok (parsed bytes h).emittedTokens := by
  have hfill : ∃ slots, fill (fun _ index => do readU32 bytes (← orPanic (tokenOffset index))) 0
      maxCompletionTokens (.replicate maxCompletionTokens 0) = .ok slots ∧
      Agrees slots (parsed bytes h).emittedTokens.toList (0 + maxCompletionTokens) := by
    refine fill_ok (.zero _ _) (by omega) fun array index _ hlt _ _ => ?_
    have hlt : index < 17 := by rwa [Nat.zero_add] at hlt
    have hoffset : tokenOffset index = some (52 + index * 4) := if_pos hlt
    have hfield : field bytes (52 + index * 4) 4 = .ok _ :=
      field_ok (by rw [h, recordBytes]; omega)
    refine ⟨ofLe (slice bytes (52 + index * 4) (52 + index * 4 + 4)), ?_, ?_⟩
    · rw [hoffset, orPanic, ok_bind, readU32, hfield]
      rfl
    · have hlen : index < (parsed bytes h).emittedTokens.toList.length := by
        rw [Vector.length_toList]
        exact hlt
      rw [List.getElem?_eq_getElem hlen, Vector.getElem_toList]
      exact congrArg some (Vector.getElem_ofFn (f := fun i : Fin maxCompletionTokens =>
        ofLe (slice bytes (52 + i * 4) (52 + i * 4 + 4))) hlt)
  obtain ⟨slots, hrun, hagrees⟩ := hfill
  rw [Nat.zero_add] at hagrees
  have heq : slots = (parsed bytes h).emittedTokens :=
    Vector.toList_inj.mp (hagrees.toList Vector.length_toList)
  rw [hrun, heq]

theorem readIdentity_ok {bytes : List UInt8} (h : bytes.length = recordBytes) :
    readIdentity bytes planIdentityOffset = .ok (parsed bytes h).planId := by
  have hlen : (slice bytes 16 48).length = 32 := length_slice (by rw [h]; decide)
  have hfield : field bytes planIdentityOffset planIdentityBytes = .ok (slice bytes 16 48) :=
    field_ok (by rw [h]; decide)
  rw [readIdentity, hfield, ok_bind, dif_pos hlen]
  rfl

theorem any_ne_zero_iff {reserved : List UInt8} (h : reserved.length = 2) :
    ¬ reserved.any (· ≠ 0) = true ↔ reserved = [0, 0] := by
  match reserved, h with
  | [a, b], _ => simp

/-- The decoder of 120 bytes is its checks. -/
theorem decodeCompletionRecord_of_length {bytes : List UInt8} (h : bytes.length = recordBytes) :
    decodeCompletionRecord bytes = (do
      let r := parsed bytes h
      failIf ((slice bytes 50 52).any (· ≠ 0)) .reservedNonzero
      failIf (r.emittedTokenCount > tokenSlotCount) (.emittedCountOutOfRange r.emittedTokenCount)
      failIf (r.request.slot ≥ maxActiveSequences) (.requestSlotOutOfRange r.request.slot)
      failIf (r.request.generation = 0) .zeroRequestGeneration
      return r) := by
  have hbytes : bytes.length = 120 := h
  have hreserved : field bytes reservedOffset reservedBytes = .ok (slice bytes 50 52) :=
    field_ok (by rw [h]; decide)
  have hcount : readU8 bytes emittedTokenCountOffset = .ok (ofLe (slice bytes 49 50)) :=
    readU8_ok (by rw [h]; decide)
  have haccepted : readU8 bytes acceptedDraftTokensOffset = .ok (ofLe (slice bytes 48 49)) :=
    readU8_ok (by rw [h]; decide)
  have hslot : readU32 bytes requestSlotOffset = .ok (ofLe (slice bytes 0 4)) := by
    rw [readU32, field_ok (by rw [h]; decide)]
    rfl
  have hgeneration : readU32 bytes requestGenerationOffset = .ok (ofLe (slice bytes 4 8)) := by
    rw [readU32, field_ok (by rw [h]; decide)]
    rfl
  have hepoch : readU64 bytes completionEpochOffset = .ok (ofLe (slice bytes 8 16)) := by
    rw [readU64, field_ok (by rw [h]; decide)]
    rfl
  rw [decodeCompletionRecord, failIf_of_not (not_not.mpr h), ok_bind, hreserved, ok_bind]
  refine bind_congr fun _ => ?_
  rw [hcount, ok_bind]
  refine bind_congr fun _ => ?_
  rw [hslot, ok_bind]
  refine bind_congr fun _ => ?_
  rw [hgeneration, ok_bind]
  refine bind_congr fun _ => ?_
  rw [hepoch, ok_bind, readIdentity_ok h, ok_bind, readTokens_ok h, ok_bind, haccepted, ok_bind]
  rfl

/-- **Exactly the bytes of records are decoded**, each to its record. -/
theorem decodeCompletionRecord_eq_ok {bytes : List UInt8} {r : CompactCompletionRecord} :
    decodeCompletionRecord bytes = .ok r ↔ OnWire r ∧ bytes = encodeRecord r := by
  constructor
  · intro hrun
    have h : bytes.length = recordBytes := by
      by_contra hne
      rw [decodeCompletionRecord, failIf, if_pos hne] at hrun
      cases hrun
    have hbytes : bytes.length = 120 := h
    rw [decodeCompletionRecord_of_length h] at hrun
    simp only [bind_eq_ok, failIf_eq_ok] at hrun
    obtain ⟨_, hreserved, _, hcount, _, hslot, _, hgeneration, hr⟩ := hrun
    obtain rfl : parsed bytes h = r := Except.ok.inj hr
    have hreserved := (any_ne_zero_iff (length_slice (by omega))).mp hreserved
    have hbelow : ∀ lo n : ℕ, lo + n ≤ 120 → ofLe (slice bytes lo (lo + n)) < 256 ^ n := by
      intro lo n hn
      have hlt := ofLe_lt (slice bytes lo (lo + n))
      rwa [length_slice (by omega), Nat.add_sub_cancel_left] at hlt
    refine ⟨⟨Nat.not_le.mp hslot, hgeneration, hbelow 4 4 (by decide), hbelow 8 8 (by decide),
      hbelow 48 1 (by decide), Nat.not_lt.mp hcount, ?_⟩, ?_⟩
    · intro t ht
      obtain ⟨i, hi, rfl⟩ := List.getElem_of_mem ht
      have hi : i < 17 := by rwa [Vector.length_toList] at hi
      simp only [parsed, Vector.getElem_toList, Vector.getElem_ofFn]
      exact hbelow (52 + i * 4) 4 (by omega)
    · rw [encodeRecord, ← cut_eq_recordFields h hreserved]
      exact (flatten_cut (by rw [h]; rfl)).symm
  · rintro ⟨hwire, rfl⟩
    obtain ⟨hparsed, hreserved⟩ := parsed_encodeRecord hwire
    rw [decodeCompletionRecord_of_length (length_encodeRecord r)]
    simp only [hparsed, hreserved]
    rw [failIf_of_not (by decide), ok_bind, failIf_of_not (Nat.not_lt.mpr hwire.count), ok_bind,
      failIf_of_not (Nat.not_le.mpr hwire.slot), ok_bind, failIf_of_not hwire.generation, ok_bind]
    rfl

end CompletionWire

end Ferric
