import Mathlib.Data.List.Basic
import Mathlib.Tactic.Common

/-!
# UTF-8 as lists of bytes

`utf8 cs` is the encoding of a list of characters. The encoding of one character starts with a byte
that is not a continuation byte and goes on with continuation bytes only, and a text has at most one
first character. So a text can be cut in front of any encoded character, and nowhere inside one.

## Main results

* `fromUtf8_eq_some` — decoding inverts encoding
* `utf8EncodeChar_append_inj` — the first character of a text is determined
* `exists_utf8EncodeChar` — a first byte, then continuation bytes
* `exists_split_of_not_isCont`, `utf8_append_eq` — cutting a text, by its bytes
-/

namespace Ferric

/-- The bytes of a list of characters. -/
def utf8 (cs : List Char) : List UInt8 := cs.flatMap String.utf8EncodeChar

/-- `String::from_utf8`. -/
def fromUtf8 (bytes : List UInt8) : Option String := String.fromUTF8? bytes.toByteArray

@[simp] theorem utf8_nil : utf8 [] = [] := rfl

@[simp] theorem utf8_cons (c : Char) (cs : List Char) :
    utf8 (c :: cs) = String.utf8EncodeChar c ++ utf8 cs := rfl

@[simp] theorem utf8_append (cs ds : List Char) : utf8 (cs ++ ds) = utf8 cs ++ utf8 ds := by
  simp [utf8]

theorem toByteArray_utf8 (cs : List Char) : (utf8 cs).toByteArray = cs.utf8Encode := rfl

theorem toByteArray_inj {a b : List UInt8} (h : a.toByteArray = b.toByteArray) : a = b := by
  have := congrArg (fun x : ByteArray => x.data.toList) h
  simpa using this

/-- Decoding succeeds exactly on the encodings. -/
theorem fromUtf8_eq_some {bytes : List UInt8} {s : String} :
    fromUtf8 bytes = some s ↔ bytes = utf8 s.toList := by
  rw [fromUtf8, String.fromUTF8?]
  constructor
  · intro h
    split at h
    · obtain rfl := Option.some.inj h
      refine toByteArray_inj ?_
      rw [toByteArray_utf8, String.utf8Encode_toList]
      rfl
    · simp at h
  · rintro rfl
    have hbytes : (utf8 s.toList).toByteArray = s.toByteArray := by
      rw [toByteArray_utf8, String.utf8Encode_toList]
    have hvalid : (utf8 s.toList).toByteArray.IsValidUTF8 := hbytes ▸ s.isValidUTF8
    rw [dif_pos hvalid, Option.some.injEq, ← String.toByteArray_inj]
    exact hbytes

theorem utf8_injective {cs ds : List Char} (h : utf8 cs = utf8 ds) : cs = ds := by
  have hcs : fromUtf8 (utf8 cs) = some (String.ofList cs) := fromUtf8_eq_some.mpr (by simp)
  have hds : fromUtf8 (utf8 cs) = some (String.ofList ds) := fromUtf8_eq_some.mpr (by simp [h])
  exact String.ofList_injective (Option.some.inj (hcs.symm.trans hds))

/-- A text starts with at most one character. -/
theorem utf8EncodeChar_append_inj {c d : Char} {x y : List UInt8}
    (h : String.utf8EncodeChar c ++ x = String.utf8EncodeChar d ++ y) : c = d ∧ x = y := by
  have hx := ByteArray.utf8DecodeChar?_utf8EncodeChar_append (b := x.toByteArray) (c := c)
  have hy := ByteArray.utf8DecodeChar?_utf8EncodeChar_append (b := y.toByteArray) (c := d)
  rw [← List.toByteArray_append] at hx hy
  rw [h, hy] at hx
  obtain rfl := Option.some.inj hx
  exact ⟨rfl, List.append_cancel_left h⟩

/-- A continuation byte. -/
def IsCont (b : UInt8) : Prop := 0x80 ≤ b.toNat ∧ b.toNat < 0xc0

/-- The bytes of a character: a first byte, then continuation bytes. -/
theorem exists_utf8EncodeChar (c : Char) :
    ∃ b rest, String.utf8EncodeChar c = b :: rest ∧ ¬ IsCont b ∧ (∀ x ∈ rest, IsCont x) ∧
      (c.toNat < 0x80 → rest = [] ∧ b.toNat = c.toNat) ∧ (0x80 ≤ c.toNat → 0xc0 ≤ b.toNat) := by
  have hc : c.val.toNat = c.toNat := rfl
  rw [String.utf8EncodeChar]
  rw [hc]
  by_cases h1 : c.toNat ≤ 0x7f
  · rw [if_pos h1]
    refine ⟨_, _, rfl, ?_, by simp, fun _ => ⟨rfl, ?_⟩, fun h => by omega⟩
    · simp only [IsCont, UInt8.toNat_ofNat']
      omega
    · simp only [UInt8.toNat_ofNat']
      omega
  rw [if_neg h1]
  by_cases h2 : c.toNat ≤ 0x7ff
  · rw [if_pos h2]
    refine ⟨_, _, rfl, ?_, ?_, fun h => by omega, fun _ => ?_⟩ <;>
      simp only [IsCont, UInt8.toNat_ofNat', List.mem_cons, List.not_mem_nil, or_false,
        forall_eq] <;> omega
  rw [if_neg h2]
  by_cases h3 : c.toNat ≤ 0xffff
  · rw [if_pos h3]
    refine ⟨_, _, rfl, ?_, ?_, fun h => by omega, fun _ => ?_⟩ <;>
      simp only [IsCont, UInt8.toNat_ofNat', List.mem_cons, List.not_mem_nil, or_false,
        forall_eq_or_imp, forall_eq] <;> omega
  · rw [if_neg h3]
    refine ⟨_, _, rfl, ?_, ?_, fun h => by omega, fun _ => ?_⟩ <;>
      simp only [IsCont, UInt8.toNat_ofNat', List.mem_cons, List.not_mem_nil, or_false,
        forall_eq_or_imp, forall_eq] <;> omega

/-- A text is cut between characters wherever the next byte is not a continuation byte. -/
theorem exists_split_of_not_isCont {cs : List Char} {pre post : List UInt8} {b : UInt8}
    (h : utf8 cs = pre ++ b :: post) (hb : ¬ IsCont b) :
    ∃ cs₁ cs₂, cs = cs₁ ++ cs₂ ∧ pre = utf8 cs₁ ∧ b :: post = utf8 cs₂ := by
  induction cs generalizing pre with
  | nil => simp at h
  | cons c cs ih =>
    cases pre with
    | nil => exact ⟨[], c :: cs, rfl, rfl, h.symm⟩
    | cons x pre =>
      rw [utf8_cons] at h
      rcases List.append_eq_append_iff.mp h with ⟨as, hpre, hrest⟩ | ⟨bs, henc, hrest⟩
      · obtain ⟨cs₁, cs₂, rfl, rfl, htail⟩ := ih hrest
        exact ⟨c :: cs₁, cs₂, rfl, hpre, htail⟩
      · -- the cut would be inside the first character, where only continuation bytes are
        obtain ⟨f, tail, hf, -, hcont, -, -⟩ := exists_utf8EncodeChar c
        rw [hf, List.cons_append] at henc
        obtain ⟨-, henc⟩ := List.cons.inj henc
        cases bs with
        | nil =>
          refine ⟨[c], cs, rfl, ?_, hrest⟩
          rw [utf8_cons, hf, utf8_nil, List.append_nil, henc, List.append_nil]
          obtain rfl : x = f := by simpa [hf] using (congrArg List.head? h).symm
          rfl
        | cons y bs =>
          obtain ⟨rfl, -⟩ := List.cons.inj hrest
          exact absurd (hcont b (by rw [henc]; simp)) hb

/-- Encoding keeps and reflects prefixes. -/
theorem utf8_append_eq {cs ds : List Char} {r : List UInt8} (h : utf8 cs ++ r = utf8 ds) :
    ∃ es, ds = cs ++ es ∧ r = utf8 es := by
  induction cs generalizing ds with
  | nil => exact ⟨ds, rfl, h⟩
  | cons c cs ih =>
    cases ds with
    | nil =>
      obtain ⟨f, tail, hf, -⟩ := exists_utf8EncodeChar c
      simp [hf] at h
    | cons d ds =>
      rw [utf8_cons, utf8_cons, List.append_assoc] at h
      obtain ⟨rfl, htail⟩ := utf8EncodeChar_append_inj h
      obtain ⟨es, rfl, hr⟩ := ih htail
      exact ⟨es, rfl, hr⟩

end Ferric
