import Mathlib.Algebra.Order.Ring.Nat
import Mathlib.Data.List.Basic
import Mathlib.Tactic.Common

/-!
# Decimal spellings of numbers

Parsing an unsigned number takes an optional plus sign and digits, and leading zeros. Digits of one
length are determined by their value. A number therefore has one spelling without a sign and without
needless zeros, and each further spelling of it is longer by its sign and its zeros.

## Main results

* `spells_of_parseUnsigned` — what is parsed, and to which number
* `spelling_unique`, `length_eq_of_unsigned` — when two spellings of a number are the same
-/

namespace Ferric

/-- `str::parse` of an unsigned type: an optional `+` and digits, below the bound at each step. -/
def parseUnsigned (bound : ℕ) (text : List Char) : Option ℕ :=
  let digits := match text with
    | '+' :: rest => rest
    | text => text
  if digits = [] then none
  else digits.foldlM (fun n c =>
    if c.isDigit ∧ n * 10 + (c.toNat - '0'.toNat) < bound then some (n * 10 + (c.toNat - '0'.toNat))
    else none) 0

/-- The value of digits behind a number. -/
def decimalValue (n : ℕ) (digits : List Char) : ℕ :=
  digits.foldl (fun n c => n * 10 + (c.toNat - '0'.toNat)) n

theorem decimalValue_cons (n : ℕ) (c : Char) (digits : List Char) :
    decimalValue n (c :: digits) = decimalValue (n * 10 + (c.toNat - '0'.toNat)) digits := by
  rw [decimalValue, List.foldl_cons, decimalValue]

theorem digit_bounds {c : Char} (h : c.isDigit = true) : 48 ≤ c.toNat ∧ c.toNat ≤ 57 := by
  rw [Char.isDigit, Bool.and_eq_true, decide_eq_true_iff, decide_eq_true_iff] at h
  exact ⟨UInt32.le_iff_toNat_le.mp h.1, UInt32.le_iff_toNat_le.mp h.2⟩

theorem le_decimalValue (n : ℕ) (digits : List Char) :
    n * 10 ^ digits.length ≤ decimalValue n digits := by
  induction digits generalizing n with
  | nil => exact Nat.le_of_eq (Nat.mul_one n)
  | cons c digits ih =>
    rw [decimalValue_cons, List.length_cons, Nat.pow_succ', ← Nat.mul_assoc]
    exact Nat.le_trans (Nat.mul_le_mul_right _ (Nat.le_add_right _ _)) (ih _)

theorem decimalValue_lt (n : ℕ) {digits : List Char} (h : ∀ c ∈ digits, c.isDigit = true) :
    decimalValue n digits < (n + 1) * 10 ^ digits.length := by
  induction digits generalizing n with
  | nil =>
    show n < (n + 1) * 1
    omega
  | cons c digits ih =>
    obtain ⟨hlo, hhi⟩ := digit_bounds (h c List.mem_cons_self)
    have hnext : n * 10 + (c.toNat - '0'.toNat) + 1 ≤ (n + 1) * 10 := by
      show n * 10 + (c.toNat - 48) + 1 ≤ (n + 1) * 10
      omega
    rw [decimalValue_cons, List.length_cons, Nat.pow_succ', ← Nat.mul_assoc]
    exact Nat.lt_of_lt_of_le (ih _ fun d hd => h d (.tail _ hd)) (Nat.mul_le_mul_right _ hnext)

/-- Digits of one length are determined by their value. -/
theorem decimalValue_inj {n m : ℕ} {digits digits' : List Char}
    (hlen : digits.length = digits'.length) (h : ∀ c ∈ digits, c.isDigit = true)
    (h' : ∀ c ∈ digits', c.isDigit = true) (heq : decimalValue n digits = decimalValue m digits') :
    n = m ∧ digits = digits' := by
  induction digits generalizing digits' n m with
  | nil =>
    obtain rfl := List.eq_nil_of_length_eq_zero hlen.symm
    exact ⟨heq, rfl⟩
  | cons c digits ih =>
    cases digits' with
    | nil => cases hlen
    | cons c' digits' =>
      obtain ⟨hstart, hrest⟩ := ih (Nat.succ.inj hlen) (fun d hd => h d (.tail _ hd))
        (fun d hd => h' d (.tail _ hd)) heq
      obtain ⟨hlo, hhi⟩ := digit_bounds (h c List.mem_cons_self)
      obtain ⟨hlo', hhi'⟩ := digit_bounds (h' c' List.mem_cons_self)
      have hstart : n * 10 + (c.toNat - 48) = m * 10 + (c'.toNat - 48) := hstart
      have hchar : c.toNat = c'.toNat := by omega
      exact ⟨by omega, by rw [Char.toNat_inj.mp hchar, hrest]⟩

/-- A sign and digits. -/
def signed (sign : Bool) (digits : List Char) : List Char := if sign then '+' :: digits else digits

/-- The digits that a text holds for a number. -/
structure Spells (text : List Char) (n : ℕ) (sign : Bool) (digits : List Char) : Prop where
  text : text = signed sign digits
  nonempty : digits ≠ []
  digit : ∀ c ∈ digits, c.isDigit = true
  value : decimalValue 0 digits = n

theorem foldlM_eq_some {bound m n : ℕ} {digits : List Char}
    (h : digits.foldlM (fun n c =>
      if c.isDigit ∧ n * 10 + (c.toNat - '0'.toNat) < bound then
        some (n * 10 + (c.toNat - '0'.toNat))
      else none) m = some n) :
    (∀ c ∈ digits, c.isDigit = true) ∧ decimalValue m digits = n := by
  induction digits generalizing m with
  | nil => exact ⟨fun c hc => absurd hc List.not_mem_nil, Option.some.inj h⟩
  | cons c digits ih =>
    rw [List.foldlM_cons] at h
    split at h
    · next hc =>
      obtain ⟨hrest, hvalue⟩ := ih h
      refine ⟨fun d hd => ?_, hvalue⟩
      rcases List.mem_cons.mp hd with rfl | hd
      · exact hc.1
      · exact hrest d hd
    · cases h

/-- **What is parsed.** -/
theorem spells_of_parseUnsigned {bound n : ℕ} {text : List Char}
    (h : parseUnsigned bound text = some n) : ∃ sign digits, Spells text n sign digits := by
  have hparse : ∀ {digits : List Char}, (if digits = [] then none else digits.foldlM (fun n c =>
      if c.isDigit ∧ n * 10 + (c.toNat - '0'.toNat) < bound then
        some (n * 10 + (c.toNat - '0'.toNat))
      else none) 0) = some n → ∀ {sign : Bool}, text = signed sign digits →
      Spells text n sign digits := by
    intro digits hfold sign htext
    split at hfold
    · cases hfold
    · next hne =>
      obtain ⟨hdigit, hvalue⟩ := foldlM_eq_some hfold
      exact ⟨htext, hne, hdigit, hvalue⟩
  by_cases hplus : ∃ rest, text = '+' :: rest
  · obtain ⟨rest, rfl⟩ := hplus
    exact ⟨true, rest, hparse h rfl⟩
  · rw [parseUnsigned] at h
    · exact ⟨false, text, hparse h rfl⟩
    · exact fun rest heq => hplus ⟨rest, heq⟩

/-- Digits with a zero in front only where there is nothing else are as short as possible. -/
theorem length_le_of_canonical {digits digits' : List Char}
    (hdigit : ∀ c ∈ digits, c.isDigit = true) (hdigit' : ∀ c ∈ digits', c.isDigit = true)
    (hzero : digits.length ≤ 1 ∨ digits.head? ≠ some '0') (hne' : digits' ≠ [])
    (heq : decimalValue 0 digits = decimalValue 0 digits') : digits.length ≤ digits'.length := by
  by_contra hlt
  have hlt : digits'.length < digits.length := Nat.not_le.mp hlt
  have hpos : 0 < digits'.length := List.length_pos_iff.mpr hne'
  cases digits with
  | nil => exact absurd hlt (Nat.not_lt_zero _)
  | cons c digits =>
    rw [List.length_cons] at hlt hzero
    have hc : c ≠ '0' := by
      rintro rfl
      exact hzero.elim (by omega) (absurd rfl)
    obtain ⟨hlo, -⟩ := digit_bounds (hdigit c List.mem_cons_self)
    have hc : 1 ≤ c.toNat - '0'.toNat := by
      have hne : c.toNat ≠ 48 := fun h => hc (Char.toNat_inj.mp h)
      show 1 ≤ c.toNat - 48
      omega
    -- the value has a digit that is not zero in front of all places of the other one
    have hpow : 10 ^ digits'.length ≤ 10 ^ digits.length :=
      Nat.pow_le_pow_right (by decide) (by omega)
    have hle : 10 ^ digits.length ≤ decimalValue 0 (c :: digits) := by
      rw [decimalValue_cons, Nat.zero_mul, Nat.zero_add]
      exact Nat.le_trans (Nat.le_mul_of_pos_left _ hc) (le_decimalValue _ _)
    have hlt' := decimalValue_lt 0 hdigit'
    omega

/-- Two texts that spell one number without needless zeros in front are the same when they have one
length. -/
theorem spelling_unique {text text' : List Char} {n : ℕ} {sign sign' : Bool}
    {digits digits' : List Char} (h : Spells text n sign digits) (h' : Spells text' n sign' digits')
    (hzero : text.length ≤ 1 ∨ text.head? ≠ some '0')
    (hzero' : text'.length ≤ 1 ∨ text'.head? ≠ some '0') (hlen : text.length = text'.length) :
    text = text' := by
  have heq : decimalValue 0 digits = decimalValue 0 digits' := h.value.trans h'.value.symm
  rw [h.text] at hzero hlen ⊢
  rw [h'.text] at hzero' hlen ⊢
  cases sign <;> cases sign'
  · exact (decimalValue_inj hlen h.digit h'.digit heq).2
  · have hle := length_le_of_canonical h.digit h'.digit hzero h'.nonempty heq
    have hlen : digits.length = digits'.length + 1 := hlen
    omega
  · have hle := length_le_of_canonical h'.digit h.digit hzero' h.nonempty heq.symm
    have hlen : digits.length + 1 = digits'.length := hlen
    omega
  · have hlen : digits.length = digits'.length := Nat.succ.inj hlen
    rw [(decimalValue_inj hlen h.digit h'.digit heq).2]

/-- Without signs they have one length. -/
theorem length_eq_of_unsigned {text text' : List Char} {n : ℕ} {sign sign' : Bool}
    {digits digits' : List Char} (h : Spells text n sign digits) (h' : Spells text' n sign' digits')
    (hzero : text.length ≤ 1 ∨ text.head? ≠ some '0')
    (hzero' : text'.length ≤ 1 ∨ text'.head? ≠ some '0') (hplus : text.head? ≠ some '+')
    (hplus' : text'.head? ≠ some '+') : text.length = text'.length := by
  have heq : decimalValue 0 digits = decimalValue 0 digits' := h.value.trans h'.value.symm
  rw [h.text] at hzero hplus ⊢
  rw [h'.text] at hzero' hplus' ⊢
  cases sign <;> cases sign'
  · exact Nat.le_antisymm (length_le_of_canonical h.digit h'.digit hzero h'.nonempty heq)
      (length_le_of_canonical h'.digit h.digit hzero' h.nonempty heq.symm)
  · exact absurd rfl hplus'
  · exact absurd rfl hplus
  · exact absurd rfl hplus

end Ferric
