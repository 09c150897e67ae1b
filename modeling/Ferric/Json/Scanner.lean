import Ferric.Json.Grammar
import Mathlib.Data.List.TakeWhile

/-!
# The tokens of the parser

What the functions below `value` do, in terms of the input that is left. `Scans p i q` is the form
of all these statements: the parser moved forward, and `i` is what it has left behind.

Every function is shown to return what the grammar derives, and to accept every text that the
grammar derives; for numbers, which end where the next byte does not belong to a number, the latter
needs the text to go on with something else.
-/

namespace Ferric

namespace Json

namespace Parser

variable {p q q' : Parser} {t u r : List UInt8} {b : UInt8} {f : UInt8 → Bool}

/-- What is left of the input. -/
def rest (p : Parser) : List UInt8 := p.bytes.drop p.offset

/-- `q` is `p` after reading `t`. -/
structure Scans (p : Parser) (t : List UInt8) (q : Parser) : Prop where
  rest_eq : p.rest = t ++ q.rest
  eq_advance : q = p.advance t.length

theorem rest_advance (p : Parser) (n : ℕ) : (p.advance n).rest = p.rest.drop n := by
  rw [rest, rest, List.drop_drop]
  rfl

theorem advance_advance (p : Parser) (m n : ℕ) : (p.advance m).advance n = p.advance (m + n) := by
  simp [advance, Nat.add_assoc]

theorem scans_of_rest (h : p.rest = t ++ r) : Scans p t (p.advance t.length) ∧
    (p.advance t.length).rest = r := by
  have hr : (p.advance t.length).rest = r := by rw [rest_advance, h, List.drop_left]
  exact ⟨⟨by rw [hr, h], rfl⟩, hr⟩

theorem Scans.refl (p : Parser) : Scans p [] p := ⟨rfl, rfl⟩

theorem Scans.trans (h : Scans p t q) (h' : Scans q u q') : Scans p (t ++ u) q' := by
  refine ⟨by rw [h.rest_eq, h'.rest_eq, List.append_assoc], ?_⟩
  rw [h'.eq_advance, h.eq_advance, List.length_append, advance_advance]

theorem Scans.bytes_eq (h : Scans p t q) : q.bytes = p.bytes := by
  rw [h.eq_advance]
  rfl

theorem Scans.offset_eq (h : Scans p t q) : q.offset = p.offset + t.length := by
  rw [h.eq_advance]
  rfl

theorem peek_eq (p : Parser) : p.peek = p.rest.head? := by
  rw [peek, rest, List.head?_drop]

theorem take_of_nil (h : p.rest = []) : p.take = (none, p) := by
  rw [take, peek_eq, h]
  rfl

theorem take_of_cons (h : p.rest = b :: r) : p.take = (some b, p.advance 1) := by
  rw [take, peek_eq, h]
  rfl

theorem scans_cons (h : p.rest = b :: r) : Scans p [b] (p.advance 1) ∧ (p.advance 1).rest = r :=
  scans_of_rest (t := [b]) h

theorem skipWhile_scans (p : Parser) (f : UInt8 → Bool) :
    Scans p (p.rest.takeWhile f) (p.skipWhile f) ∧ (p.skipWhile f).rest = p.rest.dropWhile f := by
  exact scans_of_rest (p := p) (List.takeWhile_append_dropWhile ..).symm

theorem whitespace_skipWhitespace (p : Parser) : Whitespace p.rest p.skipWhitespace.rest := by
  obtain ⟨h, -⟩ := skipWhile_scans p isWhitespace
  exact ⟨_, fun b hb => List.mem_takeWhile_imp hb, h.rest_eq⟩

/-- A scanner stops where the text it looks for ends. -/
theorem skipWhile_of_rest (h : p.rest = t ++ r) (ht : ∀ b ∈ t, f b)
    (hr : ∀ b, r.head? = some b → ¬ f b) :
    p.skipWhile f = p.advance t.length ∧ (p.skipWhile f).rest = r := by
  have hr' : r.takeWhile f = [] := by
    cases r with
    | nil => rfl
    | cons b r => exact List.takeWhile_cons_of_neg (hr b rfl)
  have htake : p.rest.takeWhile f = t := by
    rw [h, List.takeWhile_append_of_pos ht, hr', List.append_nil]
  obtain ⟨hs, -⟩ := skipWhile_scans p f
  rw [htake] at hs
  refine ⟨hs.eq_advance, ?_⟩
  rw [hs.eq_advance]
  exact (scans_of_rest h).2

theorem skipWhitespace_of_rest {i : List UInt8} (h : p.rest = i) (hw : Whitespace i r)
    (hr : ∀ b, r.head? = some b → ¬ isWhitespace b) :
    p.skipWhitespace.rest = r ∧ ∃ t, Scans p t p.skipWhitespace := by
  obtain ⟨w, hw, rfl⟩ := hw
  obtain ⟨heq, hrest⟩ := skipWhile_of_rest h hw hr
  exact ⟨hrest, w, by rw [skipWhitespace, heq]; exact (scans_of_rest h).1⟩

/-! ### Escapes -/

theorem hexDigits_ensures (n v : ℕ) (p : Parser) :
    Ensures (hexDigits n v p) (fun _ => True) fun r =>
      ∃ t : List UInt8, Scans p t r.2 ∧ t.length = n ∧
        ∃ ds, t.mapM hexDigit? = some ds ∧ r.1 = ds.foldl (fun v d => v * 16 + d) v := by
  induction n generalizing v p with
  | zero => exact ⟨[], Scans.refl p, rfl, [], rfl, rfl⟩
  | succ n ih =>
    rw [hexDigits]
    cases hrest : p.rest with
    | nil => rw [take_of_nil hrest]; trivial
    | cons b r =>
      rw [take_of_cons hrest]
      simp only
      cases hb : hexDigit? b with
      | none => trivial
      | some d =>
        refine (ih (v * 16 + d) (p.advance 1)).mono (fun _ _ => trivial) ?_
        rintro ⟨v', q⟩ - ⟨t, ht, hlen, ds, hds, hv⟩
        refine ⟨b :: t, (scans_cons hrest).1.trans ht, by simp [hlen], d :: ds, ?_, hv⟩
        simp [hb, hds]

theorem hexDigits_of_rest {n v : ℕ} {ds : List ℕ} (h : p.rest = t ++ r) (hlen : t.length = n)
    (hds : t.mapM hexDigit? = some ds) :
    hexDigits n v p = .ok (ds.foldl (fun v d => v * 16 + d) v, p.advance n) := by
  induction n generalizing v p t ds with
  | zero =>
    obtain rfl := List.eq_nil_of_length_eq_zero hlen
    obtain rfl : [] = ds := by simpa using hds
    rfl
  | succ n ih =>
    cases t with
    | nil => simp at hlen
    | cons b t =>
      rw [List.mapM_cons] at hds
      obtain ⟨d, hb, hds⟩ := Option.bind_eq_some_iff.mp hds
      obtain ⟨es, hes, hcons⟩ := Option.bind_eq_some_iff.mp hds
      obtain rfl : d :: es = ds := Option.some.inj hcons
      rw [hexDigits, take_of_cons h]
      simp only [hb]
      rw [ih (scans_cons h).2 (by simpa using hlen) hes]
      simp [advance, Nat.add_comm, Nat.add_left_comm]

theorem mapM_hexDigit?_eq {a b c d : UInt8} {n : ℕ} :
    hexQuad? a b c d = some n ↔ ∃ ds, [a, b, c, d].mapM hexDigit? = some ds ∧
      ds.foldl (fun v d => v * 16 + d) 0 = n := by
  simp only [hexQuad?, List.mapM_cons, List.mapM_nil]
  cases hexDigit? a <;> cases hexDigit? b <;> cases hexDigit? c <;> cases hexDigit? d <;> simp

/-- Four hexadecimal digits. -/
theorem hexQuad_ensures (p : Parser) :
    Ensures p.hexQuad (fun _ => True) fun r =>
      ∃ a b c d, Scans p [a, b, c, d] r.2 ∧ hexQuad? a b c d = some r.1 := by
  refine (hexDigits_ensures 4 0 p).mono (fun _ _ => trivial) ?_
  rintro ⟨v, q⟩ - ⟨t, ht, hlen, ds, hds, hv⟩
  match t, hlen with
  | [a, b, c, d], _ => exact ⟨a, b, c, d, ht, mapM_hexDigit?_eq.mpr ⟨ds, hds, hv.symm⟩⟩

theorem hexQuad_of_rest {a b c d : UInt8} {n : ℕ} (h : p.rest = a :: b :: c :: d :: r)
    (hq : hexQuad? a b c d = some n) :
    p.hexQuad = .ok (n, p.advance 4) ∧ (p.advance 4).rest = r := by
  obtain ⟨ds, hds, rfl⟩ := mapM_hexDigit?_eq.mp hq
  exact ⟨hexDigits_of_rest (t := [a, b, c, d]) h rfl hds,
    (scans_of_rest (t := [a, b, c, d]) h).2⟩

theorem charFromU32_eq_some {n : ℕ} {c : Char} : charFromU32 n = some c ↔ c.toNat = n := by
  rw [charFromU32]
  constructor
  · intro h
    split at h
    · next hn =>
      rw [← Option.some.inj h, Char.ofNat, dif_pos hn]
      rfl
    · simp at h
  · rintro rfl
    have hvalid : c.toNat.isValidChar := c.valid
    rw [if_pos hvalid, Char.ofNat_toNat]

theorem pushScalar_ensures {decoded : List UInt8} {n : ℕ} :
    Ensures (p.pushScalar decoded n) (fun _ => True) fun r =>
      r.2 = p ∧ ∃ c : Char, c.toNat = n ∧ r.1 = decoded ++ String.utf8EncodeChar c := by
  rw [pushScalar]
  cases hc : charFromU32 n with
  | none => trivial
  | some c => exact ⟨rfl, c, charFromU32_eq_some.mp hc, rfl⟩

theorem pushScalar_of_toNat {decoded : List UInt8} {c : Char} :
    p.pushScalar decoded c.toNat = .ok (decoded ++ String.utf8EncodeChar c, p) := by
  rw [pushScalar, charFromU32_eq_some.mpr rfl]

/-- The bytes that one-letter escapes denote are ASCII. -/
theorem exists_of_simpleEscape? {out : UInt8} (h : simpleEscape? b = some out) :
    ∃ c, String.utf8EncodeChar c = [out] := by
  have hout : out ∈ [ascii '"', ascii '\\', ascii '/', 0x08, 0x0c, ascii '\n', ascii '\r',
      ascii '\t'] := by
    rw [simpleEscape?] at h
    repeat' split at h
    all_goals simp_all
  simp only [List.mem_cons, List.not_mem_nil, or_false] at hout
  rcases hout with rfl | rfl | rfl | rfl | rfl | rfl | rfl | rfl
  · exact ⟨'"', by decide⟩
  · exact ⟨'\\', by decide⟩
  · exact ⟨'/', by decide⟩
  · exact ⟨Char.ofNat 8, by decide⟩
  · exact ⟨Char.ofNat 12, by decide⟩
  · exact ⟨'\n', by decide⟩
  · exact ⟨'\r', by decide⟩
  · exact ⟨'\t', by decide⟩

theorem lowSurrogate_ensures {decoded : List UInt8} {high : ℕ} :
    Ensures (p.lowSurrogate decoded high) (fun _ => True) fun r =>
      ∃ a b d e low, ∃ c : Char, Scans p [ascii '\\', ascii 'u', a, b, d, e] r.2 ∧
        hexQuad? a b d e = some low ∧ (0xdc00 ≤ low ∧ low ≤ 0xdfff) ∧
        c.toNat = 0x10000 + (high - 0xd800) * 2 ^ 10 + (low - 0xdc00) ∧
        r.1 = decoded ++ String.utf8EncodeChar c := by
  rw [lowSurrogate]
  cases hp : p.rest with
  | nil => rw [take_of_nil hp]; trivial
  | cons x r =>
    rw [take_of_cons hp]
    simp only
    split
    · trivial
    next hx =>
    obtain rfl := not_not.mp hx
    obtain ⟨hs, hr⟩ := scans_cons hp
    cases r with
    | nil => rw [take_of_nil hr]; trivial
    | cons y r =>
      rw [take_of_cons hr]
      simp only
      split
      · trivial
      next hy =>
      obtain rfl := not_not.mp hy
      have hs' := hs.trans (scans_cons hr).1
      refine (hexQuad_ensures _).bind ?_
      rintro ⟨low, q⟩ - ⟨a, b, d, e, hq, hlow⟩
      simp only
      split
      · trivial
      next hl =>
      generalize hn : 0x10000 + (high - 0xd800) * 2 ^ 10 + (low - 0xdc00) = n
      refine pushScalar_ensures.mono (fun _ _ => trivial) ?_
      rintro r - ⟨hr, c, hc, hout⟩
      rw [hr]
      exact ⟨a, b, d, e, low, c, hs'.trans hq, hlow, not_not.mp hl, hc.trans hn.symm, hout⟩

/-- An escape, after its backslash. -/
theorem escape_ensures {decoded : List UInt8} :
    Ensures (p.escape decoded) (fun _ => True) fun r =>
      ∃ e c, IsEscape (ascii '\\' :: e) c ∧ Scans p e r.2 ∧
        r.1 = decoded ++ String.utf8EncodeChar c := by
  rw [escape]
  cases hp : p.rest with
  | nil => rw [take_of_nil hp]; trivial
  | cons x r =>
    rw [take_of_cons hp]
    obtain ⟨hs, -⟩ := scans_cons hp
    simp only
    cases hx : simpleEscape? x with
    | some out =>
      obtain ⟨c, hc⟩ := exists_of_simpleEscape? hx
      exact ⟨[x], c, .simple hx hc, hs, by rw [hc]⟩
    | none =>
      simp only
      split
      next hu =>
        subst hu
        rw [unicodeEscape]
        refine (hexQuad_ensures _).bind ?_
        rintro ⟨first, q⟩ - ⟨a, b, d, e, hq, hfirst⟩
        simp only
        split
        next hh =>
          refine lowSurrogate_ensures.mono (fun _ _ => trivial) ?_
          rintro ⟨out, q'⟩ - ⟨a', b', d', e', low, c, hq', hlow, hl, hc, rfl⟩
          exact ⟨_, c, .surrogates hfirst hlow hh hl hc, hs.trans (hq.trans hq'), rfl⟩
        split
        · trivial
        refine pushScalar_ensures.mono (fun _ _ => trivial) ?_
        rintro r - ⟨hr, c, rfl, hout⟩
        rw [hr]
        exact ⟨_, c, .unicode hfirst, hs.trans hq, hout⟩
      · trivial

theorem escape_of_rest {decoded e : List UInt8} {c : Char} (he : IsEscape (ascii '\\' :: e) c)
    (h : p.rest = e ++ r) :
    p.escape decoded = .ok (decoded ++ String.utf8EncodeChar c, p.advance e.length) := by
  rw [escape]
  cases he with
  | @simple b out c hb hc =>
    rw [take_of_cons h]
    simp only [hb, hc]
    rfl
  | @unicode a b d e c hc =>
    rw [take_of_cons h]
    obtain ⟨-, hr⟩ := scans_cons h
    obtain ⟨hq, -⟩ := hexQuad_of_rest hr hc
    have hsimple : simpleEscape? (ascii 'u') = none := by decide
    have hvalid := c.valid
    have hnot : ¬ (0xd800 ≤ c.toNat ∧ c.toNat ≤ 0xdbff) ∧
        ¬ (0xdc00 ≤ c.toNat ∧ c.toNat ≤ 0xdfff) := by
      have : c.toNat.isValidChar := hvalid
      rw [Nat.isValidChar] at this
      omega
    simp only [hsimple, if_true]
    rw [unicodeEscape, hq, ok_bind]
    simp only [if_neg hnot.1, if_neg hnot.2, pushScalar_of_toNat]
    rfl
  | @surrogates a b d e a' b' d' e' high low c hhigh hlow hh hl hc =>
    rw [take_of_cons h]
    obtain ⟨-, hr⟩ := scans_cons h
    obtain ⟨hq, hr'⟩ := hexQuad_of_rest hr hhigh
    have hsimple : simpleEscape? (ascii 'u') = none := by decide
    simp only [hsimple, if_true]
    rw [unicodeEscape, hq, ok_bind]
    simp only [if_pos hh]
    rw [lowSurrogate, take_of_cons hr']
    obtain ⟨-, hr''⟩ := scans_cons hr'
    simp only [ne_eq, not_true_eq_false, if_false]
    rw [take_of_cons hr'']
    simp only [if_false, not_true_eq_false]
    obtain ⟨hq', -⟩ := hexQuad_of_rest (scans_cons hr'').2 hlow
    rw [hq', ok_bind]
    simp only [hl, and_self, not_true_eq_false, if_false, ← hc, pushScalar_of_toNat]
    rfl

end Parser

end Json

end Ferric
