import Ferric.Json.Scanner

/-!
# Strings and numbers

A string is collected byte by byte and checked as UTF-8 only at its closing quote, when raw bytes
and the expansions of escapes are already mixed. `IsBytes` is the language of that loop. Because an
expansion never starts with a continuation byte, the characters of the collected text do not cross
the border of an escape, and the raw bytes between two escapes are UTF-8 on their own.
-/

namespace Ferric

namespace Json

/-! ### Strings as the loop reads them -/

/-- A byte that stands for itself. -/
def IsPlain (b : UInt8) : Prop := b ≠ ascii '"' ∧ b ≠ ascii '\\' ∧ ¬ b ≤ 0x1f

/-- The rest of a string, with the bytes that the loop collects. -/
inductive IsBytes : List UInt8 → List UInt8 → List UInt8 → Prop
  | close {r : List UInt8} : IsBytes (ascii '"' :: r) [] r
  | plain {i ds r : List UInt8} {b : UInt8} (hb : IsPlain b) (h : IsBytes i ds r) :
      IsBytes (b :: i) (b :: ds) r
  | escape {e i ds r : List UInt8} {c : Char} (he : IsEscape e c) (h : IsBytes i ds r) :
      IsBytes (e ++ i) (String.utf8EncodeChar c ++ ds) r

variable {i ds r x : List UInt8} {cs : List Char} {c : Char} {b : UInt8}

/-- Continuation bytes in the collected text were read as they are. -/
theorem IsBytes.of_cont (h : IsBytes i (x ++ ds) r) (hx : ∀ b ∈ x, IsCont b) :
    ∃ j, i = x ++ j ∧ IsBytes j ds r := by
  induction x generalizing i with
  | nil => exact ⟨i, rfl, h⟩
  | cons b x ih =>
    generalize hy : b :: x ++ ds = y at h
    cases h with
    | close => simp at hy
    | @plain i' ds' _ b' hb h' =>
      obtain ⟨rfl, rfl⟩ := List.cons.inj hy
      obtain ⟨j, rfl, hj⟩ := ih h' fun b hb => hx b (.tail _ hb)
      exact ⟨j, rfl, hj⟩
    | @escape e i' ds' _ c he h' =>
      obtain ⟨b', rest, henc, hnot, -⟩ := exists_utf8EncodeChar c
      rw [henc] at hy
      obtain ⟨rfl, -⟩ := List.cons.inj hy
      exact absurd (hx b List.mem_cons_self) hnot

/-- The bytes of an unescaped character are plain. -/
theorem isPlain_of_mem (hc : 0x20 ≤ c.toNat) (hq : c ≠ '"') (hs : c ≠ '\\')
    (hb : b ∈ String.utf8EncodeChar c) : IsPlain b := by
  have hlarge : 0x80 ≤ b.toNat → IsPlain b := by
    intro h
    refine ⟨?_, ?_, ?_⟩
    · rintro rfl
      simp [ascii] at h
    · rintro rfl
      simp [ascii] at h
    · rw [UInt8.le_iff_toNat_le]
      simp only [UInt8.reduceToNat]
      omega
  obtain ⟨a, rest, henc, -, hrest, hsmall, hbig⟩ := exists_utf8EncodeChar c
  rw [henc] at hb
  rcases List.mem_cons.mp hb with rfl | hb
  · by_cases h80 : c.toNat < 0x80
    · obtain ⟨-, hval⟩ := hsmall h80
      have hne : ∀ d : Char, d.toNat < 0x80 → c ≠ d → b ≠ ascii d := by
        rintro d hd hcd rfl
        have : (ascii d).toNat = d.toNat := by
          rw [ascii, UInt32.toNat_toUInt8]
          have hd : d.val.toNat < 0x80 := hd
          exact Nat.mod_eq_of_lt (by omega)
        rw [this] at hval
        exact hcd (Char.toNat_inj.mp hval.symm)
      refine ⟨hne _ (by decide) hq, hne _ (by decide) hs, ?_⟩
      rw [UInt8.le_iff_toNat_le, hval]
      simp only [UInt8.reduceToNat]
      omega
    · have := hbig (by omega)
      exact hlarge (by omega)
  · exact hlarge (hrest b hb).1

/-- A plain byte is the only byte, or the first byte, of an unescaped character. -/
theorem unescaped_of_isPlain {rest : List UInt8} (hb : IsPlain b)
    (henc : String.utf8EncodeChar c = b :: rest) : 0x20 ≤ c.toNat ∧ c ≠ '"' ∧ c ≠ '\\' := by
  obtain ⟨hq, hs, hctl⟩ := hb
  refine ⟨?_, ?_, ?_⟩
  · obtain ⟨a, rest', henc', -, -, hsmall, -⟩ := exists_utf8EncodeChar c
    obtain ⟨rfl, -⟩ := List.cons.inj (henc.symm.trans henc')
    by_contra hlt
    obtain ⟨-, hval⟩ := hsmall (by omega)
    rw [UInt8.le_iff_toNat_le, hval] at hctl
    simp only [UInt8.reduceToNat] at hctl
    omega
  · rintro rfl
    obtain ⟨rfl, -⟩ := List.cons.inj (henc.symm.trans (by decide : _ = [ascii '"']))
    exact hq rfl
  · rintro rfl
    obtain ⟨rfl, -⟩ := List.cons.inj (henc.symm.trans (by decide : _ = [ascii '\\']))
    exact hs rfl

/-- If the collected bytes are UTF-8, so is the raw text between the escapes. -/
theorem isChars_of_isBytes (h : IsBytes i (utf8 cs) r) : IsChars i cs r := by
  induction cs generalizing i with
  | nil =>
    generalize hy : utf8 [] = y at h
    cases h with
    | close => exact .close
    | plain => simp at hy
    | @escape e i' ds' _ c he h' =>
      obtain ⟨b', rest, henc, -⟩ := exists_utf8EncodeChar c
      simp [henc] at hy
  | cons c cs ih =>
    generalize hy : utf8 (c :: cs) = y at h
    rw [utf8_cons] at hy
    obtain ⟨b, rest, henc, -, hrest, -⟩ := exists_utf8EncodeChar c
    cases h with
    | close => simp [henc] at hy
    | @plain i' ds' _ b' hb h' =>
      rw [henc] at hy
      obtain ⟨rfl, rfl⟩ := List.cons.inj hy
      obtain ⟨j, rfl, hj⟩ := h'.of_cont hrest
      obtain ⟨hc, hq, hs⟩ := unescaped_of_isPlain hb henc
      have := IsChars.raw hc hq hs (ih hj)
      rwa [henc] at this
    | @escape e i' ds' _ c' he h' =>
      obtain ⟨rfl, rfl⟩ := utf8EncodeChar_append_inj hy
      exact .escape he (ih h')

namespace Parser

variable {p q : Parser} {t u : List UInt8}

theorem stringLoop_ensures {fuel : ℕ} {decoded : List UInt8} (hf : p.rest.length < fuel) :
    Ensures (stringLoop fuel p decoded) (fun _ => True) fun r =>
      (∃ t, Scans p t r.2 ∧ t ≠ []) ∧ ∃ ds, IsBytes p.rest ds r.2.rest ∧
        utf8 r.1.toList = decoded ++ ds := by
  induction fuel generalizing p decoded with
  | zero => simp at hf
  | succ fuel ih =>
    rw [stringLoop]
    cases hp : p.rest with
    | nil => rw [take_of_nil hp]; trivial
    | cons b r =>
      rw [take_of_cons hp]
      obtain ⟨hs, hr⟩ := scans_cons hp
      rw [hp, List.length_cons] at hf
      simp only
      by_cases hq : b = ascii '"'
      · rw [if_pos hq]
        cases hutf : fromUtf8 decoded with
        | none => trivial
        | some s =>
          refine ⟨⟨[b], hs, by simp⟩, [], ?_, ?_⟩
          · rw [hr, hq]
            exact .close
          · rw [List.append_nil]
            exact (fromUtf8_eq_some.mp hutf).symm
      rw [if_neg hq]
      by_cases hb : b = ascii '\\'
      · rw [if_pos hb]
        refine escape_ensures.bind ?_
        rintro ⟨decoded', p'⟩ - ⟨e, c, he, hp', rfl⟩
        have hlen := congrArg List.length hp'.rest_eq
        rw [hr, List.length_append] at hlen
        refine (ih (by omega)).mono (fun _ _ => trivial) ?_
        rintro ⟨s, q⟩ - ⟨⟨t, ht, hne⟩, ds, hds, hutf⟩
        refine ⟨⟨_, hs.trans (hp'.trans ht), by simp⟩, String.utf8EncodeChar c ++ ds, ?_, ?_⟩
        · have := IsBytes.escape he hds
          rw [List.cons_append, ← hp'.rest_eq, hr, ← hb] at this
          exact this
        · rw [hutf, List.append_assoc]
      rw [if_neg hb]
      by_cases hctl : b ≤ 0x1f
      · rw [if_pos hctl]
        trivial
      · rw [if_neg hctl]
        refine (ih (by rw [hr]; omega)).mono (fun _ _ => trivial) ?_
        rintro ⟨s, q⟩ - ⟨⟨t, ht, hne⟩, ds, hds, hutf⟩
        refine ⟨⟨_, hs.trans ht, by simp⟩, b :: ds, ?_, ?_⟩
        · rw [hr] at hds
          exact .plain ⟨hq, hb, hctl⟩ hds
        · rw [hutf, List.append_assoc]
          rfl

/-- Plain bytes are collected one by one. -/
theorem stringLoop_of_plain {fuel : ℕ} {decoded : List UInt8} (h : p.rest = x ++ r)
    (hx : ∀ b ∈ x, IsPlain b) :
    stringLoop (x.length + fuel) p decoded =
      stringLoop fuel (p.advance x.length) (decoded ++ x) := by
  induction x generalizing p decoded with
  | nil => simp [advance]
  | cons b x ih =>
    obtain ⟨hq, hs, hctl⟩ := hx b List.mem_cons_self
    have hlen : (b :: x).length + fuel = x.length + fuel + 1 := by
      rw [List.length_cons]
      omega
    rw [hlen, stringLoop, take_of_cons h]
    simp only [if_neg hq, if_neg hs, if_neg hctl]
    rw [ih (scans_cons h).2 fun b hb => hx b (.tail _ hb), List.append_assoc, advance_advance,
      Nat.add_comm 1]
    rfl

/-- A string of the grammar is accepted and decoded. -/
theorem stringLoop_of_isChars {fuel : ℕ} (h : IsChars i cs r) (hp : p.rest = i)
    (hf : i.length < fuel) (ds : List Char) :
    ∃ q, stringLoop fuel p (utf8 ds) = .ok (String.ofList (ds ++ cs), q) ∧ q.rest = r := by
  induction h generalizing p fuel ds with
  | @close r =>
    obtain ⟨fuel, rfl⟩ : ∃ k, fuel = k + 1 := ⟨fuel - 1, by omega⟩
    refine ⟨p.advance 1, ?_, (scans_cons hp).2⟩
    have hutf : fromUtf8 (utf8 ds) = some (String.ofList ds) := fromUtf8_eq_some.mpr (by simp)
    rw [stringLoop, take_of_cons hp]
    simp only [if_true, hutf, List.append_nil]
  | @raw i r c cs hc hq hb h ih =>
    obtain ⟨fuel, rfl⟩ : ∃ k, fuel = (String.utf8EncodeChar c).length + k :=
      ⟨fuel - (String.utf8EncodeChar c).length, by rw [List.length_append] at hf; omega⟩
    rw [stringLoop_of_plain hp fun b => isPlain_of_mem hc hq hb]
    have hds : utf8 ds ++ String.utf8EncodeChar c = utf8 (ds ++ [c]) := by simp
    rw [hds]
    obtain ⟨q, hq, hr⟩ := ih (scans_of_rest hp).2
      (by rw [List.length_append] at hf; omega : _ < fuel) (ds ++ [c])
    exact ⟨q, by rw [hq, List.append_assoc]; rfl, hr⟩
  | @escape e i r c cs he h ih =>
    obtain ⟨e, rfl⟩ : ∃ e', e = ascii '\\' :: e' := by
      cases he <;> exact ⟨_, rfl⟩
    obtain ⟨fuel, rfl⟩ : ∃ k, fuel = k + 1 := ⟨fuel - 1, by omega⟩
    rw [List.cons_append] at hp hf
    obtain ⟨-, hr⟩ := scans_cons hp
    have hne : ascii '\\' ≠ ascii '"' := by decide
    rw [stringLoop, take_of_cons hp]
    simp only [if_neg hne, if_true, escape_of_rest he hr, ok_bind]
    have hds : utf8 ds ++ String.utf8EncodeChar c = utf8 (ds ++ [c]) := by simp
    rw [hds]
    obtain ⟨q, hq, hr'⟩ := ih (scans_of_rest hr).2
      (by rw [List.length_cons, List.length_append] at hf; omega : _ < fuel) (ds ++ [c])
    exact ⟨q, by rw [hq, List.append_assoc]; rfl, hr'⟩

theorem length_rest_le (p : Parser) : p.rest.length ≤ p.bytes.length := by
  rw [rest, List.length_drop]
  omega

/-- A string, and how far the parser moved. -/
theorem string_ensures (p : Parser) :
    Ensures p.string (fun _ => True) fun r =>
      IsString p.rest r.1 r.2.rest ∧ ∃ t, Scans p t r.2 ∧ t ≠ [] := by
  rw [string]
  cases hp : p.rest with
  | nil => rw [take_of_nil hp]; trivial
  | cons b r =>
    rw [take_of_cons hp]
    obtain ⟨hs, hr⟩ := scans_cons hp
    simp only
    split
    next hq =>
      have hlen := length_rest_le p
      rw [hp, List.length_cons] at hlen
      refine (stringLoop_ensures (by rw [hr]; omega)).mono (fun _ _ => trivial) ?_
      rintro ⟨s, q⟩ - ⟨⟨t, ht, -⟩, ds, hds, hutf⟩
      rw [List.nil_append] at hutf
      subst hutf
      rw [hr] at hds
      exact ⟨⟨r, by rw [hq], isChars_of_isBytes hds⟩, _, hs.trans ht, by simp⟩
    · trivial

theorem string_of_rest {s : String} (h : IsString i s r) (hp : p.rest = i) :
    ∃ q, p.string = .ok (s, q) ∧ q.rest = r := by
  obtain ⟨body, rfl, hbody⟩ := h
  obtain ⟨-, hr⟩ := scans_cons hp
  have hlen := length_rest_le p
  rw [hp, List.length_cons] at hlen
  rw [string, take_of_cons hp]
  simp only [if_true]
  obtain ⟨q, hq, hrest⟩ := stringLoop_of_isChars hbody hr (by omega : _ < p.bytes.length + 1) []
  exact ⟨q, by simpa using hq, hrest⟩

/-! ### Numbers -/

theorem digits_ensures (p : Parser) :
    Ensures p.digits (fun _ => True) fun q => ∃ t, Scans p t q ∧ IsDigits t := by
  obtain ⟨hs, -⟩ := skipWhile_scans p isDigit
  rw [digits]
  split
  · trivial
  next hne =>
    refine ⟨_, hs, fun hnil => hne ?_, fun b hb => List.mem_takeWhile_imp hb⟩
    rw [hs.offset_eq, hnil]
    rfl

theorem digits_of_rest (h : p.rest = t ++ r) (ht : IsDigits t)
    (hr : ∀ b, r.head? = some b → ¬ isDigit b) : p.digits = .ok (p.advance t.length) := by
  obtain ⟨heq, -⟩ := skipWhile_of_rest h ht.2 hr
  have hne : (p.advance t.length).offset ≠ p.offset := by
    have := List.length_pos_of_ne_nil ht.1
    simp only [advance]
    omega
  rw [digits, heq]
  simp only [if_neg hne]

theorem integer_ensures (p : Parser) :
    Ensures p.integer (fun _ => True) fun q => ∃ t, Scans p t q ∧ IsInteger t := by
  rw [integer]
  cases hp : p.rest with
  | nil => rw [take_of_nil hp]; trivial
  | cons b r =>
    rw [take_of_cons hp]
    obtain ⟨hs, -⟩ := scans_cons hp
    simp only
    by_cases h0 : b = ascii '0'
    · rw [if_pos h0]
      split
      · trivial
      · exact ⟨[b], hs, .inl (by rw [h0])⟩
    rw [if_neg h0]
    by_cases hd : ascii '1' ≤ b ∧ b ≤ ascii '9'
    · rw [if_pos hd]
      obtain ⟨hs', -⟩ := skipWhile_scans (p.advance 1) isDigit
      exact ⟨_, hs.trans hs', .inr ⟨b, _, rfl, hd, fun d hd => List.mem_takeWhile_imp hd⟩⟩
    · rw [if_neg hd]
      trivial

theorem integer_of_rest (h : p.rest = t ++ r) (ht : IsInteger t)
    (hr : ∀ b, r.head? = some b → ¬ isDigit b) : p.integer = .ok (p.advance t.length) := by
  rw [integer]
  rcases ht with rfl | ⟨b, ds, rfl, hb, hds⟩
  · rw [take_of_cons h]
    have hpeek : ¬ (p.advance 1).peek.any isDigit := by
      rw [peek_eq, (scans_cons h).2]
      cases hhead : r.head? with
      | none => simp [hhead]
      | some b => simpa [hhead] using hr b hhead
    simp only [if_true, if_neg hpeek]
    rfl
  · rw [List.cons_append] at h
    have h0 : b ≠ ascii '0' := by
      rintro rfl
      exact absurd hb.1 (by decide)
    rw [take_of_cons h]
    obtain ⟨heq, -⟩ := skipWhile_of_rest (scans_cons h).2 hds hr
    simp only [if_neg h0, if_pos hb]
    rw [heq, advance_advance, Nat.add_comm]
    rfl

theorem fraction_ensures (p : Parser) :
    Ensures p.fraction (fun _ => True) fun q => ∃ t, Scans p t q ∧ IsFraction t := by
  rw [fraction]
  split
  next hpeek =>
    cases hp : p.rest with
    | nil => simp [peek_eq, hp] at hpeek
    | cons b r =>
      obtain rfl : b = ascii '.' := by simpa [peek_eq, hp] using hpeek
      refine (digits_ensures _).mono (fun _ _ => trivial) ?_
      rintro q - ⟨t, ht, hds⟩
      exact ⟨_, (scans_cons hp).1.trans ht, .inr ⟨t, rfl, hds⟩⟩
  · exact ⟨[], Scans.refl p, .inl rfl⟩

theorem fraction_of_rest (h : p.rest = t ++ r) (ht : IsFraction t)
    (hr : ∀ b, r.head? = some b → ¬ isDigit b ∧ b ≠ ascii '.') :
    p.fraction = .ok (p.advance t.length) := by
  rw [fraction, peek_eq, h]
  rcases ht with rfl | ⟨ds, rfl, hds⟩
  · rw [List.nil_append, if_neg fun hd => (hr _ hd).2 rfl]
    rfl
  · rw [if_pos (by simp), digits_of_rest (scans_cons h).2 hds fun b hb => (hr b hb).1,
      advance_advance,
      Nat.add_comm]
    rfl

theorem exponent_ensures (p : Parser) :
    Ensures p.exponent (fun _ => True) fun q => ∃ t, Scans p t q ∧ IsExponent t := by
  rw [exponent]
  split
  next hpeek =>
    cases hp : p.rest with
    | nil => simp [peek_eq, hp] at hpeek
    | cons b r =>
      obtain ⟨hs, hr⟩ := scans_cons hp
      have hb : b = ascii 'e' ∨ b = ascii 'E' := by simpa [peek_eq, hp] using hpeek
      simp only
      split
      next hsign =>
        cases r with
        | nil => simp [peek_eq, hr] at hsign
        | cons c r =>
          have hc : c = ascii '+' ∨ c = ascii '-' := by simpa [peek_eq, hr] using hsign
          refine (digits_ensures _).mono (fun _ _ => trivial) ?_
          rintro q - ⟨t, ht, hds⟩
          refine ⟨_, hs.trans ((scans_cons hr).1.trans ht), .inr ⟨b, [c], t, rfl, hb, .inr ?_, hds⟩⟩
          simpa using hc
      · refine (digits_ensures _).mono (fun _ _ => trivial) ?_
        rintro q - ⟨t, ht, hds⟩
        exact ⟨_, hs.trans ht, .inr ⟨b, [], t, rfl, hb, .inl rfl, hds⟩⟩
  · exact ⟨[], Scans.refl p, .inl rfl⟩

theorem exponent_of_rest (h : p.rest = t ++ r) (ht : IsExponent t)
    (hr : ∀ b, r.head? = some b → ¬ isDigit b ∧ b ≠ ascii 'e' ∧ b ≠ ascii 'E') :
    p.exponent = .ok (p.advance t.length) := by
  rw [exponent, peek_eq, h]
  rcases ht with rfl | ⟨e, sign, ds, rfl, he, hsign, hds⟩
  · rw [List.nil_append]
    have hno : ¬ (r.head?.any fun byte => byte = ascii 'e' ∨ byte = ascii 'E') := by
      cases hhead : r.head? with
      | none => simp
      | some b => simpa using (hr b hhead).2
    rw [if_neg hno]
    rfl
  have hyes :
      ((e :: (sign ++ ds) ++ r).head?.any fun byte => byte = ascii 'e' ∨ byte = ascii 'E') := by
    simpa using he
  rw [if_pos hyes]
  have hr1 : (p.advance 1).rest = sign ++ (ds ++ r) := by
    rw [← List.append_assoc]
    exact (scans_cons h).2
  have hdigits : ∀ q : Parser, q.rest = ds ++ r → q.digits = .ok (q.advance ds.length) :=
    fun q hq => digits_of_rest hq hds fun b hb => (hr b hb).1
  simp only [peek_eq, hr1]
  rcases hsign with rfl | hsign
  · -- the exponent has no sign: its first byte is a digit
    obtain ⟨d, ds, rfl⟩ := List.exists_cons_of_ne_nil hds.1
    have hd := hds.2 d List.mem_cons_self
    have hno :
        ¬ (([] ++ (d :: ds ++ r)).head?.any fun byte => byte = ascii '+' ∨ byte = ascii '-') := by
      simp only [List.nil_append, List.cons_append, List.head?_cons, Option.any_some,
        decide_eq_true_eq, not_or]
      constructor
      · rintro rfl
        exact absurd hd (by decide)
      · rintro rfl
        exact absurd hd (by decide)
    rw [if_neg hno, hdigits _ hr1, advance_advance, Nat.add_comm]
    rfl
  · obtain ⟨c, rfl, hc⟩ : ∃ c, sign = [c] ∧ (c = ascii '+' ∨ c = ascii '-') := by
      rcases hsign with rfl | rfl
      · exact ⟨_, rfl, .inl rfl⟩
      · exact ⟨_, rfl, .inr rfl⟩
    have hyes : (([c] ++ (ds ++ r)).head?.any fun byte => byte = ascii '+' ∨ byte = ascii '-') := by
      simpa using hc
    rw [if_pos hyes, hdigits _ (scans_cons hr1).2, advance_advance, advance_advance]
    simp [Nat.add_comm, Nat.add_left_comm]

/-- The text between two positions. -/
theorem slice?_of_scans (h : Scans p t q) (hp : p.offset ≤ p.bytes.length) :
    q.slice? p.offset q.offset = some t := by
  have hlen := congrArg List.length h.rest_eq
  rw [rest, List.length_drop, List.length_append] at hlen
  have hle : p.offset ≤ q.offset ∧ q.offset ≤ q.bytes.length := by
    rw [h.offset_eq, h.bytes_eq]
    omega
  have hsub : q.offset - p.offset = t.length := by
    rw [h.offset_eq]
    omega
  rw [slice?, if_pos hle, h.bytes_eq, hsub]
  have : p.bytes.drop p.offset = t ++ q.rest := h.rest_eq
  rw [this, List.take_left]

theorem number_ensures (hp : p.offset ≤ p.bytes.length) :
    Ensures p.number (fun _ => True) fun r =>
      Scans p (utf8 r.1.toList) r.2 ∧ IsNumber (utf8 r.1.toList) := by
  rw [number]
  obtain ⟨sign, hsign, hs⟩ : ∃ sign : List UInt8, (sign = [] ∨ sign = [ascii '-']) ∧
      Scans p sign (if p.peek = some (ascii '-') then p.advance 1 else p) := by
    split
    next hpeek =>
      cases hrest : p.rest with
      | nil => simp [peek_eq, hrest] at hpeek
      | cons b r =>
        obtain rfl : b = ascii '-' := by simpa [peek_eq, hrest] using hpeek
        exact ⟨_, .inr rfl, (scans_cons hrest).1⟩
    · exact ⟨[], .inl rfl, Scans.refl p⟩
  refine (integer_ensures _).bind ?_
  rintro q₁ - ⟨int, hs₁, hint⟩
  refine (fraction_ensures _).bind ?_
  rintro q₂ - ⟨frac, hs₂, hfrac⟩
  refine (exponent_ensures _).bind ?_
  rintro q₃ - ⟨exp, hs₃, hexp⟩
  have hall := hs.trans (hs₁.trans (hs₂.trans hs₃))
  rw [slice?_of_scans hall hp]
  simp only [orPanic, ok_bind]
  cases hutf : fromUtf8 (sign ++ (int ++ (frac ++ exp))) with
  | none => trivial
  | some s =>
    rw [fromUtf8_eq_some] at hutf
    refine ensures_pure.mpr ⟨?_, ?_⟩
    · rw [← hutf]
      exact hall
    · rw [← hutf]
      exact ⟨sign, int, frac, exp, rfl, hsign, hint, hfrac, hexp⟩

/-- What may follow a number. -/
def Ends (r : List UInt8) : Prop :=
  ∀ b, r.head? = some b → ¬ isDigit b ∧ b ≠ ascii '.' ∧ b ≠ ascii 'e' ∧ b ≠ ascii 'E'

theorem number_of_rest {s : String} (h : p.rest = utf8 s.toList ++ r)
    (ht : IsNumber (utf8 s.toList)) (hr : Ends r) (hp : p.offset ≤ p.bytes.length) :
    p.number = .ok (s, p.advance (utf8 s.toList).length) := by
  obtain ⟨sign, int, frac, exp, heq, hsign, hint, hfrac, hexp⟩ := ht
  have hfe : ∀ b, (exp ++ r).head? = some b → ¬ isDigit b ∧ b ≠ ascii '.' := by
    intro b hb
    rcases hexp with rfl | ⟨e, sg, ds, rfl, he, -, -⟩
    · exact ⟨(hr b hb).1, (hr b hb).2.1⟩
    · obtain rfl : e = b := by simpa using hb
      rcases he with rfl | rfl <;> decide
  have hie : ∀ b, (frac ++ (exp ++ r)).head? = some b → ¬ isDigit b := by
    intro b hb
    rcases hfrac with rfl | ⟨ds, rfl, -⟩
    · exact (hfe b hb).1
    · obtain rfl : ascii '.' = b := by simpa using hb
      decide
  rw [heq] at h
  simp only [List.append_assoc] at h
  have hs : Scans p sign (if p.peek = some (ascii '-') then p.advance 1 else p) := by
    rcases hsign with rfl | rfl
    · have hno : p.peek ≠ some (ascii '-') := by
        rw [peek_eq, h]
        intro hd
        rcases hint with rfl | ⟨b, ds, rfl, hb, -⟩
        · revert hd
          simp [ascii]
        · obtain rfl : b = ascii '-' := by simpa using hd
          exact absurd hb (by decide)
      rw [if_neg hno]
      exact Scans.refl p
    · rw [if_pos (by rw [peek_eq, h]; rfl)]
      exact (scans_cons h).1
  have hr₀ := List.append_cancel_left (hs.rest_eq.symm.trans h)
  obtain ⟨hs₁, hr₁⟩ := scans_of_rest hr₀
  obtain ⟨hs₂, hr₂⟩ := scans_of_rest hr₁
  obtain ⟨hs₃, hr₃⟩ := scans_of_rest hr₂
  have hall := hs.trans (hs₁.trans (hs₂.trans hs₃))
  rw [number, integer_of_rest hr₀ hint hie, ok_bind, fraction_of_rest hr₁ hfrac hfe, ok_bind,
    exponent_of_rest hr₂ hexp fun b hb => ⟨(hr b hb).1, (hr b hb).2.2⟩, ok_bind,
    slice?_of_scans hall hp, ← heq]
  simp only [orPanic, ok_bind]
  rw [fromUtf8_eq_some.mpr rfl, hall.eq_advance, heq]
  rfl

end Parser

end Json

end Ferric
