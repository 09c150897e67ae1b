import Ferric.Lib.Sha2
import Ferric.Sha256.Model

/-!
# Compression of one block

`compress` is the compression function of the standard, and it does not panic. The two loops that
make the schedule fill an array with the schedule of the standard, the third loop is the fold of the
rounds, and the fourth adds the working variables to the state.
-/

namespace Ferric

namespace Sha256

variable {ε : Type}

open Sha2

/-! ### Words -/

/-- The two ends of a rotated word do not overlap, so they may be joined with either operator. -/
theorem rotateRight_eq_rotr {count : UInt32} (h0 : 0 < count) (h : count < 32) (value : UInt32) :
    rotateRight value count = rotr count value := by
  have h0 : 0 < count.toNat := UInt32.lt_iff_toNat_lt.mp h0
  have h : count.toNat < 32 := UInt32.lt_iff_toNat_lt.mp h
  have hsub : (32 - count).toNat = 32 - count.toNat :=
    UInt32.toNat_sub_of_le 32 count (Nat.le_of_lt h)
  have hright : (count.toBitVec % 32).toNat = count.toNat := Nat.mod_eq_of_lt h
  have hleft : ((32 - count).toBitVec % 32).toNat = 32 - count.toNat := by
    show (32 - count).toNat % 32 = _
    rw [hsub]
    exact Nat.mod_eq_of_lt (by omega)
  refine UInt32.toBitVec_inj.mp (BitVec.eq_of_getLsbD_eq fun i hi => ?_)
  rw [rotateRight, rotr, UInt32.toBitVec_xor, UInt32.toBitVec_or, UInt32.toBitVec_shiftRight,
    UInt32.toBitVec_shiftLeft, BitVec.getLsbD_xor, BitVec.getLsbD_or, BitVec.ushiftRight_eq',
    BitVec.shiftLeft_eq', hright, hleft, BitVec.getLsbD_ushiftRight, BitVec.getLsbD_shiftLeft]
  rcases Nat.lt_or_ge i (32 - count.toNat) with hlow | hhigh
  · simp [hlow]
  · rw [BitVec.getLsbD_of_ge _ (count.toNat + i) (by omega)]
    simp

theorem toNat_byte_shiftLeft (b : UInt8) {k : UInt32} (hk : k ≤ 24) :
    (b.toUInt32 <<< k).toNat = b.toNat * 2 ^ k.toNat := by
  have hk : k.toNat ≤ 24 := UInt32.le_iff_toNat_le.mp hk
  have hpow : 2 ^ k.toNat ≤ 2 ^ 24 := Nat.pow_le_pow_right (by decide) hk
  have hlt : b.toNat * 2 ^ k.toNat < 2 ^ 32 :=
    calc b.toNat * 2 ^ k.toNat ≤ b.toNat * 2 ^ 24 := Nat.mul_le_mul_left _ hpow
      _ < 2 ^ 8 * 2 ^ 24 := Nat.mul_lt_mul_of_pos_right b.toNat_lt (by decide)
      _ = 2 ^ 32 := by decide
  rw [UInt32.toNat_shiftLeft, Nat.mod_eq_of_lt (a := k.toNat) (by omega), Nat.shiftLeft_eq]
  exact Nat.mod_eq_of_lt hlt

/-- The bytes of a word do not overlap either. -/
theorem or_eq_word (b₀ b₁ b₂ b₃ : UInt8) :
    (b₀.toUInt32 <<< 24) ||| (b₁.toUInt32 <<< 16) ||| (b₂.toUInt32 <<< 8) ||| b₃.toUInt32 =
      word b₀ b₁ b₂ b₃ := by
  have h₀ := b₀.toNat_lt
  have h₁ := b₁.toNat_lt
  have h₂ := b₂.toNat_lt
  have h₃ := b₃.toNat_lt
  have hor : ∀ {a i b : ℕ}, b < 2 ^ i → a * 2 ^ i ||| b = a * 2 ^ i + b := by
    intro a i b hb
    rw [← Nat.shiftLeft_eq, ← Nat.shiftLeft_add_eq_or_of_lt hb]
  have h2 : b₂.toNat * 2 ^ 8 ||| b₃.toNat = b₂.toNat * 2 ^ 8 + b₃.toNat := hor h₃
  have h1 : b₁.toNat * 2 ^ 16 ||| (b₂.toNat * 2 ^ 8 + b₃.toNat) = _ := hor (by omega)
  have h0 : b₀.toNat * 2 ^ 24 ||| (b₁.toNat * 2 ^ 16 + (b₂.toNat * 2 ^ 8 + b₃.toNat)) = _ :=
    hor (by omega)
  refine UInt32.toNat_inj.mp ?_
  rw [UInt32.toNat_or, UInt32.toNat_or, UInt32.toNat_or, toNat_byte_shiftLeft b₀ (by decide),
    toNat_byte_shiftLeft b₁ (by decide), toNat_byte_shiftLeft b₂ (by decide), word]
  show b₀.toNat * 2 ^ 24 ||| b₁.toNat * 2 ^ 16 ||| b₂.toNat * 2 ^ 8 ||| b₃.toNat = _
  rw [Nat.or_assoc, Nat.or_assoc, h2, h1, h0, UInt32.toNat_ofNat', Nat.mod_eq_of_lt (by omega)]
  omega

/-! ### The schedule -/

/-- The first loop of `compress` finds the words of the block. -/
theorem inputWord_ok (block : Vector UInt8 64) {index : ℕ} (h : index < 16) (W : List UInt32) :
    (inputWord block index : Outcome ε UInt32) = .ok (scheduleWord block.toList W index) := by
  have hread : ∀ i < 64, (entry block i : Outcome ε UInt8) = .ok (block.toList.getD i 0) := by
    intro i hi
    rw [entry_eq_ok, List.getD_eq_getElem?_getD]
    simp [hi]
  rw [inputWord, Nat.mul_comm index 4, hread _ (by omega), ok_bind, hread _ (by omega), ok_bind,
    hread _ (by omega), ok_bind, hread _ (by omega), ok_bind, or_eq_word, scheduleWord, if_pos h]
  rfl

/-- The second loop of `compress` expands them. -/
theorem expandedWord_ok {schedule : Vector UInt32 64} {M : List UInt8} {index : ℕ} (h : 16 ≤ index)
    (hlt : index < 64) (hagrees : Agrees schedule (Sha2.schedule M 64) index) :
    (expandedWord schedule index : Outcome ε UInt32) =
      .ok (scheduleWord M (Sha2.schedule M index) index) := by
  have hread : ∀ i < index, (entry schedule i : Outcome ε UInt32) =
      .ok ((Sha2.schedule M index).getD i 0) := by
    intro i hi
    rw [entry_eq_ok, hagrees i hi, getElem?_schedule (Nat.lt_trans hi hlt),
      List.getD_eq_getElem?_getD, getElem?_schedule hi]
    rfl
  have hback : ∀ k ≤ index, (orPanic (checkedSub index k) : Outcome ε ℕ) = .ok (index - k) :=
    fun k hk => congrArg orPanic (checkedSub_of_le hk)
  rw [expandedWord, hback 15 (by omega), ok_bind, hread _ (by omega), ok_bind, hback 2 (by omega),
    ok_bind, hread _ (by omega), ok_bind, hback 16 h, ok_bind, hread _ (by omega), ok_bind,
    hback 7 (by omega), ok_bind, hread _ (by omega), ok_bind, scheduleWord, if_neg (by omega),
    sigma1, sigma0]
  simp only [rotateRight_eq_rotr (by decide : (0 : UInt32) < 7) (by decide),
    rotateRight_eq_rotr (by decide : (0 : UInt32) < 18) (by decide),
    rotateRight_eq_rotr (by decide : (0 : UInt32) < 17) (by decide),
    rotateRight_eq_rotr (by decide : (0 : UInt32) < 19) (by decide)]
  refine congrArg Except.ok ?_
  ac_rfl

/-- Both loops together. -/
theorem schedule_ok (block : Vector UInt8 64) :
    ∃ schedule first : Vector UInt32 64,
      (fill (fun _ => inputWord block) 0 16 (.replicate 64 0) : Outcome ε _) = .ok first ∧
      (fill expandedWord 16 48 first : Outcome ε _) = .ok schedule ∧
      schedule.toList = Sha2.schedule block.toList 64 := by
  have hinput : ∃ first, (fill (fun _ => inputWord block) 0 16 (.replicate 64 0) : Outcome ε _) =
      .ok first ∧ Agrees first (Sha2.schedule block.toList 64) (0 + 16) :=
    fill_ok (.zero _ _) (by decide) fun array index _ hlt _ _ =>
      ⟨_, inputWord_ok block (by omega) _, getElem?_schedule (by omega)⟩
  obtain ⟨first, hfirst, hagrees⟩ := hinput
  have hexpanded : ∃ schedule, (fill expandedWord 16 48 first : Outcome ε _) = .ok schedule ∧
      Agrees schedule (Sha2.schedule block.toList 64) (16 + 48) :=
    fill_ok hagrees (by decide) fun array index hle hlt hagrees _ =>
      ⟨_, expandedWord_ok hle (by omega) hagrees, getElem?_schedule (by omega)⟩
  obtain ⟨schedule, hschedule, hagrees⟩ := hexpanded
  exact ⟨schedule, first, hfirst, hschedule, hagrees.toList (length_schedule _ _)⟩

/-! ### The rounds -/

/-- The local variables, as the standard names them. -/
def Working.variables (s : Working) : Variables :=
  ⟨s.stateA, s.stateB, s.stateC, s.stateD, s.stateE, s.stateF, s.stateG, s.stateH⟩

/-- The constants in the source are those of the standard. -/
theorem roundConstants_toList : roundConstants.toList = K := rfl

theorem round_ok {schedule : Vector UInt32 64} {index : ℕ} (h : index < 64) (s : Working) :
    ∃ s', (round schedule s index : Outcome ε Working) = .ok s' ∧
      s'.variables = s.variables.round roundConstants[index] schedule[index] := by
  have hk : (entry roundConstants index : Outcome ε UInt32) = .ok roundConstants[index] :=
    entry_eq_ok.mpr (Vector.getElem?_eq_getElem h)
  have hw : (entry schedule index : Outcome ε UInt32) = .ok schedule[index] :=
    entry_eq_ok.mpr (Vector.getElem?_eq_getElem h)
  refine ⟨_, by rw [round, hk, ok_bind, hw, ok_bind]; rfl, ?_⟩
  simp only [rotateRight_eq_rotr (by decide : (0 : UInt32) < 6) (by decide),
    rotateRight_eq_rotr (by decide : (0 : UInt32) < 11) (by decide),
    rotateRight_eq_rotr (by decide : (0 : UInt32) < 25) (by decide),
    rotateRight_eq_rotr (by decide : (0 : UInt32) < 2) (by decide),
    rotateRight_eq_rotr (by decide : (0 : UInt32) < 13) (by decide),
    rotateRight_eq_rotr (by decide : (0 : UInt32) < 22) (by decide)]
  rfl

/-- The third loop of `compress`. -/
theorem rounds_ok {schedule : Vector UInt32 64} {W : List UInt32} (hW : schedule.toList = W)
    {H : Vector UInt32 8} {s : Working} (hs : s.variables = .start H) :
    ∃ s', ((List.range 64).foldlM (round schedule) s : Outcome ε Working) = .ok s' ∧
      s'.variables = rounds H W := by
  have hlen : (K.zip W).length = 64 := by rw [List.length_zip, ← hW]; simp [length_K]
  have hrow : ∀ {i : ℕ} (hi : i < 64), (K.zip W)[i]? = some (roundConstants[i], schedule[i]) := by
    intro i hi
    rw [List.getElem?_zip_eq_some, ← roundConstants_toList, ← hW]
    simp [hi]
  -- after `index` rounds, the variables are those of the standard after its first `index` rounds
  have hrun : ∃ s', ((List.range' 0 64).foldlM (round schedule) s : Outcome ε Working) = .ok s' ∧
      s'.variables =
        ((K.zip W).take (0 + 64)).foldl (fun v kw => v.round kw.1 kw.2) (.start H) := by
    refine foldlM_range'_ok (I := fun index (s : Working) => s.variables =
      ((K.zip W).take index).foldl (fun v kw => v.round kw.1 kw.2) (Variables.start H)) hs ?_
    intro index s _ hlt hinv
    have hlt : index < 64 := by omega
    obtain ⟨s', hround, hs'⟩ :
        ∃ s', (round schedule s index : Outcome ε Working) = .ok s' ∧ _ := round_ok hlt s
    refine ⟨s', hround, ?_⟩
    rw [hs', hinv, List.take_add_one, hrow hlt, List.foldl_append]
    rfl
  obtain ⟨s', hrun, hend⟩ := hrun
  rw [List.range_eq_range']
  refine ⟨s', hrun, ?_⟩
  rw [hend, List.take_of_length_le (by omega), rounds]

/-- The new hash value is a sum entry by entry. -/
theorem addTo_getElem? (v : Variables) (H : Vector UInt32 8) {i : ℕ} (h : i < 8) :
    (v.addTo H).toList[i]? =
      some (H[i] + (#v[v.a, v.b, v.c, v.d, v.e, v.f, v.g, v.h] : Vector UInt32 8)[i]) := by
  rcases (by omega : i = 0 ∨ i = 1 ∨ i = 2 ∨ i = 3 ∨ i = 4 ∨ i = 5 ∨ i = 6 ∨ i = 7) with
    rfl | rfl | rfl | rfl | rfl | rfl | rfl | rfl <;> rfl

/-- **`compress` is the compression function of the standard.** -/
theorem compress_ok (hasher : Sha256) (block : Vector UInt8 64) :
    (hasher.compress block : Outcome ε Sha256) =
      .ok { hasher with state := Sha2.compress hasher.state block.toList } := by
  obtain ⟨schedule, first, hfirst, hschedule, hW⟩ := schedule_ok (ε := ε) block
  have hstart : Working.variables
      { stateA := hasher.state[0], stateB := hasher.state[1], stateC := hasher.state[2]
        stateD := hasher.state[3], stateE := hasher.state[4], stateF := hasher.state[5]
        stateG := hasher.state[6], stateH := hasher.state[7] } = .start hasher.state := rfl
  obtain ⟨s, hrounds, hs⟩ := rounds_ok (ε := ε) hW hstart
  have hsum : ∃ state, (fill (fun state index => do
        return (← entry state index) +
          (← entry (#v[s.stateA, s.stateB, s.stateC, s.stateD, s.stateE,
          s.stateF, s.stateG, s.stateH] : Vector UInt32 8) index)) 0 8 hasher.state :
        Outcome ε (Vector UInt32 8)) = .ok state ∧
      Agrees state (s.variables.addTo hasher.state).toList (0 + 8) := by
    refine fill_ok (.zero _ _) (by decide) fun array index _ hlt _ hrest => ?_
    have hlt : index < 8 := by omega
    have hold : hasher.state[index]? = some hasher.state[index] := Vector.getElem?_eq_getElem hlt
    rw [hold] at hrest
    refine ⟨_, bind_eq_ok.mpr ⟨_, entry_eq_ok.mpr hrest, bind_eq_ok.mpr
      ⟨_, entry_eq_ok.mpr (Vector.getElem?_eq_getElem hlt), rfl⟩⟩, ?_⟩
    exact addTo_getElem? s.variables hasher.state hlt
  obtain ⟨state, hfill, hagrees⟩ := hsum
  have hstate : state = Sha2.compress hasher.state block.toList := by
    rw [Sha2.compress, ← hs]
    exact Vector.toList_inj.mp (hagrees.toList (by simp))
  subst hstate
  exact bind_eq_ok.mpr ⟨_, hfirst, bind_eq_ok.mpr ⟨_, hschedule, bind_eq_ok.mpr ⟨_, hrounds,
    bind_eq_ok.mpr ⟨_, hfill, rfl⟩⟩⟩⟩

end Sha256

end Ferric
