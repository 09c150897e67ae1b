import Ferric.Sha256.Compress

/-!
# Streaming

A hasher that has taken in a message holds the fold of the compression function over the complete
blocks of the message, and the bytes behind them. Both ways through `update`, whole blocks from the
input and single bytes through the buffer, keep this, so it does not matter how a message was cut.
The bytes that `finish` puts behind the buffered ones are the padding of the standard, and they fill
one block or two.
-/

namespace Ferric

namespace Sha256

variable {ε : Type}

open Sha2 (H0 K zeros padding)

/-! ### Taking in a message -/

/-- The hasher holds the state and the open block of a message. -/
structure Core (hasher : Sha256) (message : List UInt8) : Prop where
  buffered : hasher.buffered < 64
  absorbed : absorb 64 Sha2.compress (H0, []) message =
    (hasher.state, hasher.buffer.toList.take hasher.buffered)

theorem Core.length {hasher : Sha256} {message : List UInt8} (h : hasher.Core message) :
    message.length % 64 = hasher.buffered := by
  obtain ⟨hlt, hmod⟩ := length_absorb_snd Sha2.compress (H0, []) message (by decide : 0 < 64)
    (by decide)
  have hle := h.buffered
  have hlen : (absorb 64 Sha2.compress (H0, []) message).2.length = hasher.buffered := by
    rw [h.absorbed, List.length_take, Vector.length_toList]
    omega
  rw [hlen, List.length_nil, Nat.zero_add, Nat.mod_eq_of_lt hle] at hmod
  exact hmod.symm

theorem Core.initial : new.Core [] where
  buffered := by decide
  absorbed := rfl

/-- A whole block of the input. -/
theorem Core.block {hasher : Sha256} {message : List UInt8} (h : hasher.Core message)
    (hempty : hasher.buffered = 0) {block : List UInt8} (hblock : block.length = 64) :
    Core { hasher with state := Sha2.compress hasher.state block } (message ++ block) where
  buffered := h.buffered
  absorbed := by
    have hne : block ≠ [] := List.ne_nil_of_length_pos (by omega)
    rw [absorb_append, h.absorbed, hempty]
    exact absorb_of_eq hne (by simpa using hblock)

/-- One byte through the buffer. -/
theorem bufferByte_ok {hasher : Sha256} {message bytes : List UInt8} (h : hasher.Core message)
    {offset : ℕ} {b : UInt8} (hb : bytes[offset]? = some b) :
    ∃ hasher', (bufferByte bytes hasher offset : Outcome ε Sha256) = .ok hasher' ∧
      hasher'.Core (message ++ [b]) ∧ hasher'.byteLen = hasher.byteLen := by
  have hlt := h.buffered
  have htake : (hasher.buffer.set hasher.buffered b).toList.take (hasher.buffered + 1) =
      hasher.buffer.toList.take hasher.buffered ++ [b] := take_set_succ hlt
  have hlen : (hasher.buffer.toList.take hasher.buffered).length = hasher.buffered := by
    rw [List.length_take, Vector.length_toList]
    omega
  have habsorb : absorb 64 Sha2.compress (H0, []) (message ++ [b]) = absorbOne 64 Sha2.compress
      (hasher.state, hasher.buffer.toList.take hasher.buffered) b := by
    rw [absorb_append, h.absorbed]
    rfl
  by_cases hfull : hasher.buffered + 1 = 64
  · refine ⟨{ hasher with
      state := Sha2.compress hasher.state (hasher.buffer.set hasher.buffered b).toList
      buffer := hasher.buffer.set hasher.buffered b
      buffered := 0 }, ?_, ⟨Nat.succ_pos _, ?_⟩, rfl⟩
    · rw [bufferByte, hb]
      show (put hasher.buffer hasher.buffered b >>= _) = _
      rw [put_of_lt hlt, ok_bind]
      show (if hasher.buffered + 1 = 64 then _ else _) = _
      rw [if_pos hfull]
      exact bind_eq_ok.mpr ⟨_, compress_ok _ _, rfl⟩
    · have hwhole : (hasher.buffer.set hasher.buffered b).toList =
          hasher.buffer.toList.take hasher.buffered ++ [b] := by
        rw [← htake, List.take_of_length_le (by rw [Vector.length_toList]; omega)]
      rw [habsorb, absorbOne, if_pos (by rw [List.length_append, hlen]; exact hfull), hwhole]
      rfl
  · refine ⟨{ hasher with
      buffer := hasher.buffer.set hasher.buffered b
      buffered := hasher.buffered + 1 }, ?_, ⟨?_, ?_⟩, rfl⟩
    · rw [bufferByte, hb]
      show (put hasher.buffer hasher.buffered b >>= _) = _
      rw [put_of_lt hlt, ok_bind]
      exact if_neg hfull
    · exact Nat.lt_of_le_of_ne hlt hfull
    · rw [habsorb, absorbOne, if_neg (by rw [List.length_append, hlen]; exact hfull)]
      exact congrArg _ htake.symm

/-- The outer loop of `update`, when the message up to `offset` has been taken in. -/
theorem updateLoop_ok {bytes : List UInt8} (hbytes : bytes.length < 2 ^ 64) {message : List UInt8}
    {fuel offset : ℕ} {hasher : Sha256} (h : hasher.Core (message ++ bytes.take offset))
    (hoffset : offset ≤ bytes.length) (hfuel : bytes.length - offset ≤ fuel) :
    ∃ hasher', (updateLoop bytes fuel hasher offset : Outcome ε Sha256) = .ok hasher' ∧
      hasher'.Core (message ++ bytes) ∧ hasher'.byteLen = hasher.byteLen := by
  induction fuel generalizing offset hasher with
  | zero =>
    obtain rfl : offset = bytes.length := by omega
    rw [List.take_length] at h
    exact ⟨hasher, if_neg (Nat.lt_irrefl _), h, rfl⟩
  | succ fuel ih =>
    rw [updateLoop]
    split
    · next hlt =>
      split
      · next hwhole =>
        -- a whole block, straight from the input
        obtain ⟨hempty, hwhole⟩ := hwhole
        have hblock : ((bytes.drop offset).take 64).length = 64 := by
          rw [List.length_take, List.length_drop]
          omega
        have hcopy : ∃ block, (fill (fun _ index => orPanic bytes[offset + index]?) 0 64
              (.replicate 64 0) : Outcome ε (Vector UInt8 64)) = .ok block ∧
            Agrees block ((bytes.drop offset).take 64) (0 + 64) := by
          refine fill_ok (.zero _ _) (by decide) fun array index _ hlt _ _ => ?_
          have hindex : offset + index < bytes.length := by omega
          refine ⟨bytes[offset + index], ?_, ?_⟩
          · rw [List.getElem?_eq_getElem hindex]
            rfl
          · rw [List.getElem?_take_of_lt (by omega), List.getElem?_drop,
              List.getElem?_eq_getElem hindex]
        obtain ⟨block, hcopy, hagrees⟩ := hcopy
        have hadd : checkedAdd 64 offset 64 = some (offset + 64) :=
          checkedAdd_eq_some.mpr ⟨by omega, rfl⟩
        have hcore := h.block hempty hblock
        have hnext : bytes.take (offset + 64) = bytes.take offset ++ (bytes.drop offset).take 64 :=
          List.take_add
        rw [List.append_assoc, ← hnext] at hcore
        obtain ⟨hasher', hrun, hcore, hbyteLen⟩ := ih hcore (by omega) (by omega)
        refine ⟨hasher', ?_, hcore, hbyteLen⟩
        rw [hcopy, ok_bind, compress_ok, ok_bind, hadd, hagrees.toList hblock]
        exact hrun
      · next hpartial =>
        -- up to the end of the block, or of the input
        have hbuffered := h.buffered
        have hsub : checkedSub 64 hasher.buffered = some (64 - hasher.buffered) :=
          checkedSub_of_le (Nat.le_of_lt hbuffered)
        rw [hsub, orPanic, ok_bind]
        generalize htake : (if bytes.length - offset < 64 - hasher.buffered then
          bytes.length - offset else 64 - hasher.buffered) = take
        have hle : offset + take ≤ bytes.length ∧ 0 < take := by
          rw [← htake]
          split <;> omega
        have hadd : checkedAdd 64 offset take = some (offset + take) :=
          checkedAdd_eq_some.mpr ⟨by omega, rfl⟩
        have hloop : ∃ hasher', ((List.range' offset take).foldlM (bufferByte bytes) hasher :
              Outcome ε Sha256) = .ok hasher' ∧
            hasher'.Core (message ++ bytes.take (offset + take)) ∧
            hasher'.byteLen = hasher.byteLen := by
          refine foldlM_range'_ok (I := fun index (hasher' : Sha256) =>
            hasher'.Core (message ++ bytes.take index) ∧ hasher'.byteLen = hasher.byteLen)
            ⟨h, rfl⟩ ?_
          rintro index hasher' hle hlt ⟨hcore, hbyteLen⟩
          have hindex : bytes[index]? = some bytes[index] := List.getElem?_eq_getElem (by omega)
          obtain ⟨next, hnext, hcore, hsame⟩ := bufferByte_ok (ε := ε) hcore hindex
          rw [List.append_assoc] at hcore
          refine ⟨next, hnext, ?_, hsame.trans hbyteLen⟩
          rwa [List.take_add_one, hindex]
        obtain ⟨next, hloop, hcore, hbyteLen⟩ := hloop
        obtain ⟨hasher', hrun, hcore, hsame⟩ := ih hcore hle.1 (by omega)
        refine ⟨hasher', ?_, hcore, hsame.trans hbyteLen⟩
        have hrange : List.range' offset (offset + take - offset) = List.range' offset take := by
          rw [Nat.add_sub_cancel_left]
        show (orPanic (checkedAdd 64 offset take) >>= _) = _
        rw [hadd, orPanic, ok_bind, hrange, hloop, ok_bind]
        exact hrun
    · next hend =>
      obtain rfl : offset = bytes.length := by omega
      rw [List.take_length] at h
      exact ⟨hasher, rfl, h, rfl⟩

/-- What a hasher has taken in. -/
structure Holds (hasher : Sha256) (message : List UInt8) : Prop where
  core : hasher.Core message
  byteLen : hasher.byteLen = message.length

theorem Holds.initial : new.Holds [] := ⟨.initial, rfl⟩

/-- **`update` takes in a piece of the message**, of any length. -/
theorem Holds.update {hasher : Sha256} {message bytes : List UInt8} (h : hasher.Holds message)
    (hlen : (message ++ bytes).length < 2 ^ 64) :
    ∃ hasher', (hasher.update bytes : Outcome ε Sha256) = .ok hasher' ∧
      hasher'.Holds (message ++ bytes) := by
  rw [List.length_append] at hlen
  have hadd : checkedAdd 64 hasher.byteLen bytes.length = some (message.length + bytes.length) := by
    rw [h.byteLen]
    exact checkedAdd_eq_some.mpr ⟨hlen, rfl⟩
  have hcore : Core { hasher with byteLen := message.length + bytes.length }
      (message ++ bytes.take 0) := by
    rw [List.take_zero, List.append_nil]
    exact ⟨h.core.buffered, h.core.absorbed⟩
  obtain ⟨hasher', hrun, hcore, hbyteLen⟩ := updateLoop_ok (ε := ε) (by omega) hcore
    (Nat.zero_le _) (Nat.le_refl _)
  refine ⟨hasher', ?_, hcore, ?_⟩
  · rw [Sha256.update, hadd]
    exact hrun
  · rw [hbyteLen, List.length_append]

/-! ### The last blocks -/

/-- The bytes that are hashed at the end. -/
def lastBytes (hasher : Sha256) : List UInt8 :=
  hasher.buffer.toList.take hasher.buffered ++ padding hasher.byteLen

/-- `tail_len` -/
def tailLen (hasher : Sha256) : ℕ := if hasher.buffered < 56 then 64 else 128

theorem Holds.length_lastBytes {hasher : Sha256} {message : List UInt8} (h : hasher.Holds message) :
    hasher.lastBytes.length = hasher.tailLen := by
  have hlt := h.core.buffered
  have hmod := h.core.length
  rw [lastBytes, List.length_append, Sha2.length_padding, List.length_take, Vector.length_toList,
    zeros, h.byteLen, hmod, tailLen]
  split <;> omega

theorem byteOf_mod (v : ℕ) : (byteOf (v % 256) : Outcome ε UInt8) = .ok (.ofNat v) := by
  have hbyte : UInt8.ofNat (v % 256) = UInt8.ofNat v := by
    refine UInt8.toNat_inj.mp ?_
    rw [UInt8.toNat_ofNat', UInt8.toNat_ofNat']
    exact Nat.mod_mod v 256
  rw [byteOf, if_pos (Nat.mod_lt _ (by decide)), hbyte]

/-- The loop of `finish` finds the bytes. -/
theorem Holds.tailByte {hasher : Sha256} {message : List UInt8} (h : hasher.Holds message)
    {index : ℕ} (hindex : index < hasher.tailLen) :
    ∃ b, (hasher.tailByte (hasher.byteLen * 8) hasher.tailLen index : Outcome ε UInt8) = .ok b ∧
      hasher.lastBytes[index]? = some b := by
  have hlt := h.core.buffered
  have hbuffer : (hasher.buffer.toList.take hasher.buffered).length = hasher.buffered := by
    rw [List.length_take, Vector.length_toList]
    omega
  have htail := h.length_lastBytes
  rw [lastBytes, List.length_append, hbuffer, Sha2.length_padding] at htail
  rw [Sha256.tailByte, lastBytes]
  split
  · -- a buffered byte
    next hin =>
    refine ⟨hasher.buffer[index], entry_eq_ok.mpr (Vector.getElem?_eq_getElem (by omega)), ?_⟩
    rw [List.getElem?_append_left (by omega), List.getElem?_take_of_lt hin]
    simp [(by omega : index < 64)]
  · next hout =>
    rw [List.getElem?_append_right (by omega), hbuffer, padding, List.cons_append]
    split
    · -- the byte behind the message
      next heq =>
      refine ⟨0x80, rfl, ?_⟩
      rw [heq, Nat.sub_self]
      rfl
    · next hne =>
      have hsucc : index - hasher.buffered = (index - hasher.buffered - 1) + 1 := by omega
      rw [hsucc, List.getElem?_cons_succ]
      split
      · -- a byte of the filling
        refine ⟨0, rfl, ?_⟩
        rw [List.getElem?_append_left (by rw [List.length_replicate]; omega),
          List.getElem?_replicate_of_lt (by omega)]
      · -- a byte of the length
        next hlast =>
        have hk : index - (hasher.tailLen - 8) < 8 := by omega
        have hsub : checkedSub 56 ((index - (hasher.tailLen - 8)) * 8) =
            some ((7 - (index - (hasher.tailLen - 8))) * 8) :=
          (checkedSub_of_le (by omega)).trans (congrArg some (by omega))
        have hback : index - hasher.buffered - 1 - (List.replicate (zeros hasher.byteLen)
            (0 : UInt8)).length = index - (hasher.tailLen - 8) := by
          rw [List.length_replicate]
          omega
        have hpow : 2 ^ ((7 - (index - (hasher.tailLen - 8))) * 8) =
            256 ^ (8 - 1 - (index - (hasher.tailLen - 8))) := by
          rw [Nat.mul_comm, Nat.pow_mul]
        refine ⟨.ofNat (8 * hasher.byteLen / 256 ^ (8 - 1 - (index - (hasher.tailLen - 8)))),
          ?_, ?_⟩
        · show (orPanic (checkedSub 56 ((index - (hasher.tailLen - 8)) * 8)) >>= _) = _
          rw [hsub, orPanic, ok_bind, byteOf_mod, Nat.shiftRight_eq_div_pow, hpow, Nat.mul_comm]
        · rw [List.getElem?_append_right (by rw [List.length_replicate]; omega), hback,
            getElem?_be hk]

/-- A loop that copies part of an array. -/
theorem copy_ok {n : ℕ} {array : Vector UInt8 n} {l : List UInt8} {start : ℕ}
    {block : Vector UInt8 64} (h : Agrees array l (start + 64)) (hn : start + 64 ≤ n)
    (hl : start + 64 ≤ l.length) :
    ∃ block', (fill (fun _ index => entry array (start + index)) 0 64 block : Outcome ε _) =
      .ok block' ∧ block'.toList = (l.drop start).take 64 := by
  have hcopy : ∃ block', (fill (fun _ index => entry array (start + index)) 0 64 block :
      Outcome ε _) = .ok block' ∧ Agrees block' ((l.drop start).take 64) (0 + 64) := by
    refine fill_ok (.zero _ _) (by decide) fun block' index _ hlt _ _ => ?_
    have hread : array[start + index]? = l[start + index]? := h _ (by omega)
    rw [List.getElem?_take_of_lt (by omega), List.getElem?_drop, ← hread,
      Vector.getElem?_eq_getElem (by omega)]
    exact ⟨_, entry_eq_ok.mpr (Vector.getElem?_eq_getElem (by omega)), rfl⟩
  obtain ⟨block', hrun, hagrees⟩ := hcopy
  exact ⟨block', hrun, hagrees.toList (by rw [List.length_take, List.length_drop]; omega)⟩

/-- The bytes of the digest. -/
theorem digestByte_ok (state : Vector UInt32 8) {index : ℕ} (h : index < 32) :
    ∃ b, (digestByte state index : Outcome ε UInt8) = .ok b ∧
      (Sha2.hashBytes state).val[index]? = some b := by
  have hword : index / 4 < 8 := by omega
  have hentry : (entry state (index / 4) : Outcome ε UInt32) = .ok state[index / 4] :=
    entry_eq_ok.mpr (Vector.getElem?_eq_getElem hword)
  have hbyte : (Sha2.hashBytes state).val[index]? =
      some (.ofNat (state[index / 4].toNat / 256 ^ (4 - 1 - index % 4))) := by
    show (state.toList.flatMap fun w => be 4 w.toNat)[index]? = _
    rw [getElem?_flatMap (by decide) (fun w : UInt32 => length_be 4 w.toNat)]
    have hlist : state.toList[index / 4]? = some state[index / 4] := by simp [hword]
    rw [hlist, Option.bind_some, getElem?_be (Nat.mod_lt _ (by decide))]
  refine ⟨_, ?_, hbyte⟩
  rw [digestByte, hentry, ok_bind]
  generalize state[index / 4] = w
  have hshift : ∀ k : UInt32, k.toNat < 32 →
      (byteOf ((w >>> k) % 256).toNat : Outcome ε UInt8) =
        .ok (.ofNat (w.toNat / 2 ^ k.toNat)) := by
    intro k hk
    rw [UInt32.toNat_mod, UInt32.toNat_shiftRight, Nat.mod_eq_of_lt hk, Nat.shiftRight_eq_div_pow]
    exact byteOf_mod _
  split
  · next h0 =>
    rw [hshift 24 (by decide), h0]
    rfl
  split
  · next h1 =>
    rw [hshift 16 (by decide), h1]
    rfl
  split
  · next h2 =>
    rw [hshift 8 (by decide), h2]
    rfl
  · next h0 h1 h2 =>
    have h3 : index % 4 = 3 := by omega
    have hlow : (byteOf (w % 256).toNat : Outcome ε UInt8) = .ok (.ofNat w.toNat) := by
      rw [UInt32.toNat_mod]
      exact byteOf_mod _
    rw [hlow, h3, Nat.sub_self, Nat.pow_zero, Nat.div_one]

/-- The loop that writes the digest. -/
theorem digest_ok (state : Vector UInt32 8) :
    ∃ digest, (fill (fun _ => digestByte state) 0 32 (.replicate 32 0) : Outcome ε _) = .ok digest ∧
      digest.toList = (Sha2.hashBytes state).val := by
  have hfill : ∃ digest, (fill (fun _ => digestByte state) 0 32 (.replicate 32 0) :
      Outcome ε (Vector UInt8 32)) = .ok digest ∧
        Agrees digest (Sha2.hashBytes state).val (0 + 32) :=
    fill_ok (.zero _ _) (by decide) fun _ index _ hlt _ _ => digestByte_ok state (by omega)
  obtain ⟨digest, hrun, hagrees⟩ := hfill
  exact ⟨digest, hrun, hagrees.toList (Sha2.hashBytes state).property⟩

/-- **`finish` gives the digest of what was taken in.** -/
theorem Holds.finish {hasher : Sha256} {message : List UInt8} (h : hasher.Holds message)
    (hlen : message.length < 2 ^ 61) :
    (hasher.finish : Outcome ε (Block 32)) = .ok (sha256 message) := by
  have hlast := h.length_lastBytes
  have hmul : checkedMul 64 hasher.byteLen 8 = some (hasher.byteLen * 8) :=
    checkedMul_eq_some.mpr ⟨by rw [h.byteLen]; omega, rfl⟩
  have hle : hasher.tailLen ≤ 128 := by
    rw [tailLen]
    split <;> omega
  have hge : 64 ≤ hasher.tailLen := by
    rw [tailLen]
    split <;> omega
  -- the digest is that of the last bytes, from the state that the hasher has
  have hfold : sha256 message = Sha2.hashBytes
      ((blocks 64 hasher.lastBytes).foldl Sha2.compress hasher.state) := by
    rw [sha256, Sha2.pad, foldl_blocks_append (by decide), h.core.absorbed, lastBytes, h.byteLen]
  have hfill : ∃ tail, (fill (fun _ => hasher.tailByte (hasher.byteLen * 8) hasher.tailLen) 0
      hasher.tailLen (.replicate 128 0) : Outcome ε (Vector UInt8 128)) = .ok tail ∧
      Agrees tail hasher.lastBytes (0 + hasher.tailLen) :=
    fill_ok (.zero _ _) (by omega) fun _ index _ hlt _ _ => h.tailByte (by omega)
  obtain ⟨tail, hfill, hagrees⟩ := hfill
  have hfirst : Agrees tail hasher.lastBytes (0 + 64) := fun i hi => hagrees i (by omega)
  obtain ⟨block, hblock, hbytes⟩ :
      ∃ block, (fill (fun _ index => entry tail (0 + index)) 0 64 (.replicate 64 0) :
        Outcome ε (Vector UInt8 64)) = .ok block ∧ _ := copy_ok hfirst (by omega) (by omega)
  simp only [Nat.zero_add] at hblock
  rw [List.drop_zero] at hbytes
  by_cases htail : hasher.buffered < 56
  · -- one block
    have hlen64 : hasher.lastBytes.length = 64 := hlast.trans (if_pos htail)
    obtain ⟨digest, hdigest, hval⟩ :=
      digest_ok (ε := ε) (Sha2.compress hasher.state hasher.lastBytes)
    rw [List.take_of_length_le (by omega)] at hbytes
    rw [hfold, blocks_of_length (by decide) hlen64]
    refine bind_eq_ok.mpr ⟨_, by rw [hmul]; rfl, bind_eq_ok.mpr ⟨tail, hfill, bind_eq_ok.mpr
      ⟨block, hblock, bind_eq_ok.mpr ⟨_, compress_ok _ _, ?_⟩⟩⟩⟩
    have hone : hasher.tailLen ≠ 128 := by omega
    refine (if_neg hone).trans (bind_eq_ok.mpr ⟨_, rfl, bind_eq_ok.mpr
      ⟨digest, by rw [hbytes]; exact hdigest, ?_⟩⟩)
    exact congrArg Except.ok (Subtype.ext hval)
  · -- two blocks
    have hlen128 : hasher.lastBytes.length = 128 := hlast.trans (if_neg htail)
    have hsecond : Agrees tail hasher.lastBytes (64 + 64) := fun i hi => hagrees i (by omega)
    obtain ⟨block', hblock', hbytes'⟩ :
        ∃ block', (fill (fun _ index => entry tail (64 + index)) 0 64 block :
          Outcome ε (Vector UInt8 64)) = .ok block' ∧ _ :=
      copy_ok hsecond (by omega) (by omega)
    rw [List.take_of_length_le (by rw [List.length_drop]; omega)] at hbytes'
    have hsplit : blocks 64 (hasher.lastBytes.take 64 ++ hasher.lastBytes.drop 64) =
        hasher.lastBytes.take 64 :: blocks 64 (hasher.lastBytes.drop 64) :=
      blocks_append (by decide) (by rw [List.length_take]; omega)
    have hrest : blocks 64 (hasher.lastBytes.drop 64) = [hasher.lastBytes.drop 64] :=
      blocks_of_length (by decide) (by rw [List.length_drop]; omega)
    rw [List.take_append_drop, hrest] at hsplit
    obtain ⟨digest, hdigest, hval⟩ := digest_ok (ε := ε) (Sha2.compress
      (Sha2.compress hasher.state (hasher.lastBytes.take 64)) (hasher.lastBytes.drop 64))
    rw [hfold, hsplit]
    refine bind_eq_ok.mpr ⟨_, by rw [hmul]; rfl, bind_eq_ok.mpr ⟨tail, hfill, bind_eq_ok.mpr
      ⟨block, hblock, bind_eq_ok.mpr ⟨_, compress_ok _ _, ?_⟩⟩⟩⟩
    have htwo : hasher.tailLen = 128 := by omega
    refine (if_pos htwo).trans (bind_eq_ok.mpr ⟨block', hblock', bind_eq_ok.mpr
      ⟨_, compress_ok _ _, bind_eq_ok.mpr ⟨digest, by rw [hbytes, hbytes']; exact hdigest, ?_⟩⟩⟩)
    exact congrArg Except.ok (Subtype.ext hval)

/-- `digest` hashes a message in one piece. -/
theorem digest_eq_sha256 {bytes : List UInt8} (h : bytes.length < 2 ^ 61) :
    (digest bytes : Outcome ε (Block 32)) = .ok (sha256 bytes) := by
  have hlen : ([] ++ bytes).length < 2 ^ 64 := by
    rw [List.nil_append]
    omega
  obtain ⟨hasher, hupdate, hholds⟩ := Holds.initial.update (ε := ε) hlen
  rw [digest, hupdate, ok_bind]
  exact hholds.finish h

/-! ### Any way of cutting a message -/

/-- Successive calls of `update`. -/
theorem Holds.updates {hasher : Sha256} {message : List UInt8} (h : hasher.Holds message)
    {pieces : List (List UInt8)} (hlen : (message ++ pieces.flatten).length < 2 ^ 64) :
    ∃ hasher', (pieces.foldlM Sha256.update hasher : Outcome ε Sha256) = .ok hasher' ∧
      hasher'.Holds (message ++ pieces.flatten) := by
  induction pieces generalizing hasher message with
  | nil =>
    rw [List.flatten_nil, List.append_nil]
    exact ⟨hasher, rfl, h⟩
  | cons piece pieces ih =>
    rw [List.flatten_cons, ← List.append_assoc] at hlen ⊢
    have hfirst : (message ++ piece).length < 2 ^ 64 := by
      rw [List.length_append] at hlen
      omega
    obtain ⟨next, hupdate, hnext⟩ := h.update (ε := ε) hfirst
    obtain ⟨last, hlast, hend⟩ := ih hnext hlen
    refine ⟨last, ?_, hend⟩
    rw [List.foldlM_cons, hupdate, ok_bind]
    exact hlast

/-- **The streaming hasher computes SHA-256.** However a message of fewer than `2^61` bytes is cut
into pieces, `finish` after the updates returns its digest, and nothing panics. -/
theorem finish_updates (ε : Type) (pieces : List (List UInt8))
    (h : pieces.flatten.length < 2 ^ 61) :
    (do (← pieces.foldlM Sha256.update Sha256.new).finish : Outcome ε (Block 32)) =
      .ok (sha256 pieces.flatten) := by
  have hlen : ([] ++ pieces.flatten).length < 2 ^ 64 := by
    rw [List.nil_append]
    omega
  obtain ⟨hasher, hrun, hholds⟩ := Holds.initial.updates (ε := ε) hlen
  rw [List.nil_append] at hholds
  rw [hrun, ok_bind]
  exact hholds.finish h

theorem finish_updates_abc :
    [[0x61], [], [0x62, 0x63]].flatten.length < 2 ^ 61 ∧
      (do (← [[0x61], [], [0x62, 0x63]].foldlM Sha256.update Sha256.new).finish :
        Outcome Empty (Block 32)) = .ok (sha256 [0x61, 0x62, 0x63]) :=
  ⟨by decide, finish_updates Empty [[0x61], [], [0x62, 0x63]] (by decide)⟩

end Sha256

end Ferric
