import Ferric.Json.Tokens

/-!
# The parser accepts its language

`Json.parse` returns a value exactly on the texts of that value, and it returns one value at most,
with an error value on every other text: no panic, and no nesting that runs away.

Soundness is an induction on fuel. Each of the five functions needs about three units of fuel for a
byte, since `value`, `array` and the loop of `array` call each other once before a byte is read.
Completeness follows a derivation and takes the bound on the fuel from soundness, which says that a
value that was read has left fewer bytes.

## Main results

* `Parser.value_ensures` — a value that is returned is derived, and the loop ends
* `Parser.value_of_isValue` — a value that is derived is returned
* `parse_eq_ok_iff_isText` — both, for a whole text
-/

namespace Ferric

namespace Json

namespace Parser

variable {p q q' : Parser} {fuel d : ℕ} {b : UInt8} {t i r : List UInt8}

/-- `q` is `p` after reading something. -/
def Ahead (p q : Parser) : Prop := ∃ t, Scans p t q ∧ t ≠ []

theorem Ahead.length_lt (h : Ahead p q) : q.rest.length < p.rest.length := by
  obtain ⟨t, hs, hne⟩ := h
  have := List.length_pos_of_ne_nil hne
  rw [hs.rest_eq, List.length_append]
  omega

theorem Ahead.trans (h : Ahead p q) (h' : Ahead q q') : Ahead p q' := by
  obtain ⟨t, hs, hne⟩ := h
  obtain ⟨u, hs', -⟩ := h'
  exact ⟨t ++ u, hs.trans hs', by simp [hne]⟩

theorem Ahead.skipWhitespace (h : Ahead p q) : Ahead p q.skipWhitespace := by
  obtain ⟨t, hs, hne⟩ := h
  exact ⟨_, hs.trans (skipWhile_scans q isWhitespace).1, by simp [hne]⟩

theorem ahead_advance (h : p.rest = b :: r) : Ahead p (p.advance 1) :=
  ⟨[b], (scans_cons h).1, by simp⟩

theorem length_skipWhitespace_le (p : Parser) : p.skipWhitespace.rest.length ≤ p.rest.length := by
  obtain ⟨w, -, heq⟩ := whitespace_skipWhitespace p
  rw [heq, List.length_append]
  omega

/-- A separator after whitespace. -/
theorem ahead_separator (h : p.skipWhitespace.rest = b :: r) :
    Whitespace p.rest (b :: r) ∧ Ahead p (p.skipWhitespace.advance 1) ∧
      (p.skipWhitespace.advance 1).rest = r := by
  refine ⟨h ▸ whitespace_skipWhitespace p, ?_, (scans_cons h).2⟩
  exact ⟨_, (skipWhile_scans p isWhitespace).1.trans (scans_cons h).1, by simp⟩

/-! ### Literals -/

theorem literal_ensures (p : Parser) (l : List UInt8) :
    Ensures (p.literal l) (fun _ => True) fun q => Scans p l q := by
  rw [literal]
  split
  · trivial
  next h =>
    have hrest : p.rest = l ++ p.rest.drop l.length := by
      conv_lhs => rw [← List.take_append_drop l.length p.rest]
      rw [rest, not_not.mp h]
    exact (scans_of_rest hrest).1

theorem literal_of_rest {l : List UInt8} (h : p.rest = l ++ r) :
    p.literal l = .ok (p.advance l.length) ∧ (p.advance l.length).rest = r := by
  refine ⟨?_, (scans_of_rest h).2⟩
  have htake : (p.bytes.drop p.offset).take l.length = l := by
    rw [← rest, h, List.take_left]
  rw [literal, if_neg (not_not.mpr htake)]

/-! ### Soundness and termination -/

/-- What a function that reads a value promises. -/
def Reads (p : Parser) (d : ℕ) (r : Value × Parser) : Prop :=
  IsValue d p.rest r.1 r.2.rest ∧ Ahead p r.2

/-- The promises of the five functions at one amount of fuel. -/
structure Sound (fuel : ℕ) : Prop where
  value : ∀ p d, 3 * p.rest.length + 1 ≤ fuel →
    Ensures (value fuel p d) (fun _ => True) (Reads p d)
  array : ∀ p d i, p.rest = ascii '[' :: i → d ≤ maxDepth → 3 * p.rest.length ≤ fuel →
    Ensures (array fuel p (d + 1)) (fun _ => True) (Reads p d)
  elements : ∀ p d vs, 3 * p.rest.length + 2 ≤ fuel →
    Ensures (elements fuel p d vs) (fun _ => True) fun r =>
      ∃ ws, r.1 = .array (vs ++ ws) ∧ IsElements d p.rest ws r.2.rest ∧ Ahead p r.2
  object : ∀ p d i, p.rest = ascii '\x7b' :: i → d ≤ maxDepth → 3 * p.rest.length ≤ fuel →
    Ensures (object fuel p (d + 1)) (fun _ => True) (Reads p d)
  members : ∀ p d ms, (ms.map Prod.fst).Nodup → 3 * p.rest.length + 2 ≤ fuel →
    Ensures (members fuel p d (mapOf ms)) (fun _ => True) fun r =>
      ∃ ns, r.1 = .object (mapOf (ms ++ ns)) ∧ ((ms ++ ns).map Prod.fst).Nodup ∧
        IsMembers d p.rest ns r.2.rest ∧ Ahead p r.2

theorem literalValue_ensures {l : List UInt8} {v : Value} (hne : l ≠ [])
    (hv : ∀ r, IsValue d (l ++ r) v r) :
    Ensures (do let q ← p.literal l; return (v, q)) (fun _ => True) (Reads p d) := by
  refine (literal_ensures p l).bind ?_
  rintro q - hs
  refine ensures_pure.mpr ⟨?_, l, hs, hne⟩
  rw [hs.rest_eq]
  exact hv q.rest

theorem stringValue_ensures (hd : d ≤ maxDepth) :
    Ensures (do let (s, q) ← p.string; return (Value.string s, q)) (fun _ => True) (Reads p d) := by
  refine (string_ensures p).bind ?_
  rintro ⟨s, q⟩ - ⟨hs, hahead⟩
  exact ensures_pure.mpr ⟨.string hd hs, hahead⟩

theorem ne_nil_of_isNumber (h : IsNumber t) : t ≠ [] := by
  obtain ⟨sign, int, frac, exp, rfl, -, hint, -, -⟩ := h
  rcases hint with rfl | ⟨b, ds, rfl, -, -⟩ <;> simp

theorem numberValue_ensures (hd : d ≤ maxDepth) (hp : p.offset ≤ p.bytes.length) :
    Ensures (do let (text, q) ← p.number; return (Value.number text, q)) (fun _ => True)
      (Reads p d) := by
  refine (number_ensures hp).bind ?_
  rintro ⟨text, q⟩ - ⟨hs, hnum⟩
  refine ensures_pure.mpr ⟨?_, _, hs, ne_nil_of_isNumber hnum⟩
  rw [hs.rest_eq]
  exact .number hd hnum

theorem offset_le_of_rest (h : p.rest = b :: r) : p.offset ≤ p.bytes.length := by
  by_contra hlt
  rw [rest, List.drop_of_length_le (by omega)] at h
  exact List.cons_ne_nil _ _ h.symm

theorem value_succ_ensures (ih : Sound fuel) (hf : 3 * p.rest.length ≤ fuel) :
    Ensures (value (fuel + 1) p d) (fun _ => True) (Reads p d) := by
  rw [value]
  split
  · trivial
  next hd =>
  have hd : d ≤ maxDepth := by omega
  rw [peek_eq]
  cases hp : p.rest with
  | nil => trivial
  | cons b i =>
    simp only [List.head?_cons]
    split
    · exact literalValue_ensures (by decide) fun r => .null hd
    split
    · exact literalValue_ensures (by decide) fun r => .true hd
    split
    · exact literalValue_ensures (by decide) fun r => .false hd
    split
    · exact stringValue_ensures hd
    split
    next hb => exact ih.array p d i (hb ▸ hp) hd hf
    split
    next hb => exact ih.object p d i (hb ▸ hp) hd hf
    split
    · exact numberValue_ensures hd (offset_le_of_rest hp)
    · trivial

theorem array_succ_ensures (ih : Sound fuel) (hp : p.rest = ascii '[' :: i) (hd : d ≤ maxDepth)
    (hf : 3 * p.rest.length ≤ fuel + 1) :
    Ensures (array (fuel + 1) p (d + 1)) (fun _ => True) (Reads p d) := by
  obtain ⟨-, hr⟩ := scans_cons hp
  have hahead := (ahead_advance hp).skipWhitespace
  have hw := whitespace_skipWhitespace (p.advance 1)
  rw [hr] at hw
  rw [array]
  generalize (p.advance 1).skipWhitespace = q at hahead hw ⊢
  have hlen := hahead.length_lt
  split
  next hpeek =>
    cases hq : q.rest with
    | nil => simp [peek_eq, hq] at hpeek
    | cons b r =>
      obtain rfl : b = ascii ']' := by simpa [peek_eq, hq] using hpeek
      rw [hq] at hw
      refine ⟨?_, hahead.trans (ahead_advance hq)⟩
      rw [hp, (scans_cons hq).2]
      exact .emptyArray hd hw
  · refine (ih.elements q (d + 1) [] (by omega)).mono (fun _ _ => trivial) ?_
    rintro ⟨v, q'⟩ - ⟨ws, rfl, hws, hahead'⟩
    refine ⟨?_, hahead.trans hahead'⟩
    rw [hp]
    exact .array hd hw hws

theorem elements_succ_ensures (ih : Sound fuel) (vs : List Value)
    (hf : 3 * p.rest.length + 1 ≤ fuel) :
    Ensures (elements (fuel + 1) p d vs) (fun _ => True) fun r =>
      ∃ ws, r.1 = .array (vs ++ ws) ∧ IsElements d p.rest ws r.2.rest ∧ Ahead p r.2 := by
  rw [elements]
  refine (ih.value p d hf).bind ?_
  rintro ⟨v, q⟩ - ⟨hv, hahead⟩
  simp only at hv hahead ⊢
  cases hq : q.skipWhitespace.rest with
  | nil => rw [take_of_nil hq]; trivial
  | cons b r =>
    rw [take_of_cons hq]
    obtain ⟨hw, hahead', hr⟩ := ahead_separator hq
    have hahead'' := hahead.trans hahead'
    simp only
    split
    next hb =>
      have hlen := (hahead''.skipWhitespace).length_lt
      refine (ih.elements _ d (vs ++ [v]) (by omega)).mono (fun _ _ => trivial) ?_
      rintro ⟨u, q'⟩ - ⟨ws, rfl, hws, hlast⟩
      refine ⟨v :: ws, by simp, ?_, hahead''.skipWhitespace.trans hlast⟩
      have hw' := whitespace_skipWhitespace (q.skipWhitespace.advance 1)
      rw [hr] at hw'
      exact .more hv (hb ▸ hw) hw' hws
    split
    next hb =>
      refine ⟨[v], rfl, ?_, hahead''⟩
      rw [hr]
      exact .last hv (hb ▸ hw)
    · trivial

theorem object_succ_ensures (ih : Sound fuel) (hp : p.rest = ascii '\x7b' :: i) (hd : d ≤ maxDepth)
    (hf : 3 * p.rest.length ≤ fuel + 1) :
    Ensures (object (fuel + 1) p (d + 1)) (fun _ => True) (Reads p d) := by
  obtain ⟨-, hr⟩ := scans_cons hp
  have hahead := (ahead_advance hp).skipWhitespace
  have hw := whitespace_skipWhitespace (p.advance 1)
  rw [hr] at hw
  rw [object]
  generalize (p.advance 1).skipWhitespace = q at hahead hw ⊢
  have hlen := hahead.length_lt
  split
  next hpeek =>
    cases hq : q.rest with
    | nil => simp [peek_eq, hq] at hpeek
    | cons b r =>
      obtain rfl : b = ascii '\x7d' := by simpa [peek_eq, hq] using hpeek
      rw [hq] at hw
      refine ⟨?_, hahead.trans (ahead_advance hq)⟩
      rw [hp, (scans_cons hq).2]
      exact .emptyObject hd hw
  · refine (ih.members q (d + 1) [] List.nodup_nil (by omega)).mono (fun _ _ => trivial) ?_
    rintro ⟨v, q'⟩ - ⟨ns, rfl, hnd, hns, hahead'⟩
    refine ⟨?_, hahead.trans hahead'⟩
    rw [hp]
    exact .object hd hw hns hnd

theorem members_succ_ensures (ih : Sound fuel) {ms : List (String × Value)}
    (hnd : (ms.map Prod.fst).Nodup) (hf : 3 * p.rest.length + 1 ≤ fuel) :
    Ensures (members (fuel + 1) p d (mapOf ms)) (fun _ => True) fun r =>
      ∃ ns, r.1 = .object (mapOf (ms ++ ns)) ∧ ((ms ++ ns).map Prod.fst).Nodup ∧
        IsMembers d p.rest ns r.2.rest ∧ Ahead p r.2 := by
  rw [members]
  split
  · trivial
  refine (string_ensures p).bind ?_
  rintro ⟨name, q₁⟩ - ⟨hname, hahead₁ : Ahead p q₁⟩
  simp only at hname ⊢
  cases hq₁ : q₁.skipWhitespace.rest with
  | nil => rw [take_of_nil hq₁]; trivial
  | cons colon r₁ =>
  rw [take_of_cons hq₁]
  obtain ⟨hw₁, hahead₂, hr₁⟩ := ahead_separator hq₁
  have hcolon := (hahead₁.trans hahead₂).skipWhitespace
  have hw₂ := whitespace_skipWhitespace (q₁.skipWhitespace.advance 1)
  rw [hr₁] at hw₂
  simp only
  split
  · trivial
  next hc =>
  obtain rfl := not_not.mp hc
  have hlen := hcolon.length_lt
  refine (ih.value _ d (by omega)).bind ?_
  rintro ⟨v, q₂⟩ - ⟨hv, hahead₃⟩
  simp only at hv hahead₃ ⊢
  have hvalue := hcolon.trans hahead₃
  split
  · trivial
  next hnew =>
  -- the name is new, so the map so far is extended by the member
  have hnotin : name ∉ ms.map Prod.fst := by
    intro hmem
    obtain ⟨⟨k, u⟩, hku, rfl⟩ := List.mem_map.mp hmem
    rw [(lookupEntry_mapOf hnd).mpr hku] at hnew
    exact hnew rfl
  have hnd' : ((ms ++ [(name, v)]).map Prod.fst).Nodup := by
    rw [List.map_append, List.nodup_append]
    refine ⟨hnd, by simp, ?_⟩
    rintro a ha b hb rfl
    obtain rfl : a = name := by simpa using hb
    exact hnotin ha
  rw [← mapOf_concat]
  cases hq₂ : q₂.skipWhitespace.rest with
  | nil => rw [take_of_nil hq₂]; trivial
  | cons b r₂ =>
  rw [take_of_cons hq₂]
  obtain ⟨hw₃, hahead₄, hr₂⟩ := ahead_separator hq₂
  have hsep := hvalue.trans hahead₄
  simp only
  split
  next hb =>
    have hlen' := hsep.skipWhitespace.length_lt
    refine (ih.members _ d _ hnd' (by omega)).mono (fun _ _ => trivial) ?_
    rintro ⟨u, q₃⟩ - ⟨ns, rfl, hall, hns, hlast⟩
    have hw₄ := whitespace_skipWhitespace (q₂.skipWhitespace.advance 1)
    rw [hr₂] at hw₄
    rw [List.append_assoc] at hall ⊢
    exact ⟨_, rfl, hall, .more hname hw₁ hw₂ hv (hb ▸ hw₃) hw₄ hns,
      hsep.skipWhitespace.trans hlast⟩
  split
  next hb =>
    refine ⟨[(name, v)], rfl, hnd', ?_, hsep⟩
    rw [hr₂]
    exact .last hname hw₁ hw₂ hv (hb ▸ hw₃)
  · trivial

theorem sound (fuel : ℕ) : Sound fuel := by
  induction fuel with
  | zero =>
    refine ⟨fun p d h => by omega, fun p d i hp _ h => ?_, fun p d vs h => by omega,
      fun p d i hp _ h => ?_, fun p d ms _ h => by omega⟩
    · rw [hp, List.length_cons] at h
      omega
    · rw [hp, List.length_cons] at h
      omega
  | succ fuel ih =>
    exact ⟨fun p d h => value_succ_ensures ih (by omega),
      fun p d i hp hd h => array_succ_ensures ih hp hd h,
      fun p d vs h => elements_succ_ensures ih vs (by omega),
      fun p d i hp hd h => object_succ_ensures ih hp hd h,
      fun p d ms hnd h => members_succ_ensures ih hnd (by omega)⟩

/-- A value that is returned is derived, and enough fuel for the input is enough. -/
theorem value_ensures (hf : 3 * p.rest.length + 1 ≤ fuel) :
    Ensures (value fuel p d) (fun _ => True) (Reads p d) :=
  (sound fuel).value p d hf

/-! ### Completeness -/

/-- A byte that may stand before a value, a separator or the end, and that `skipWhitespace` and the
look-ahead of `array` stop at. -/
def Starts (b : UInt8) : Prop := isWhitespace b = false ∧ b ≠ ascii ']'

theorem starts_of_isDigit (h : isDigit b) : Starts b := by
  rw [isDigit, decide_eq_true_eq] at h
  constructor
  · rw [isWhitespace, decide_eq_false_iff_not]
    rintro (rfl | rfl | rfl | rfl) <;> exact absurd h (by decide)
  · rintro rfl
    exact absurd h (by decide)

theorem head_of_isInteger (h : IsInteger t) : ∃ b u, t = b :: u ∧ isDigit b := by
  rcases h with rfl | ⟨b, ds, rfl, hb, -⟩
  · exact ⟨_, _, rfl, by decide⟩
  · refine ⟨b, ds, rfl, ?_⟩
    rw [isDigit, decide_eq_true_eq]
    exact ⟨UInt8.le_trans (by decide : ascii '0' ≤ ascii '1') hb.1, hb.2⟩

theorem head_of_isNumber (h : IsNumber t) :
    ∃ b u, t = b :: u ∧ (b = ascii '-' ∨ isDigit b) := by
  obtain ⟨sign, int, frac, exp, rfl, hsign, hint, -, -⟩ := h
  obtain ⟨b, u, rfl, hb⟩ := head_of_isInteger hint
  rcases hsign with rfl | rfl
  · exact ⟨b, _, rfl, .inr hb⟩
  · exact ⟨_, _, rfl, .inl rfl⟩

theorem head_of_isValue {v : Value} (h : IsValue d i v r) : ∃ b u, i = b :: u ∧ Starts b := by
  cases h with
  | null hd => exact ⟨ascii 'n', _, rfl, by decide, by decide⟩
  | true hd => exact ⟨ascii 't', _, rfl, by decide, by decide⟩
  | false hd => exact ⟨ascii 'f', _, rfl, by decide, by decide⟩
  | number hd h =>
    obtain ⟨b, u, heq, hb⟩ := head_of_isNumber h
    refine ⟨b, u ++ r, by rw [heq]; rfl, ?_⟩
    rcases hb with rfl | hb
    · exact ⟨by decide, by decide⟩
    · exact starts_of_isDigit hb
  | string hd h =>
    obtain ⟨body, rfl, -⟩ := h
    exact ⟨_, _, rfl, by decide, by decide⟩
  | emptyArray hd h => exact ⟨_, _, rfl, by decide, by decide⟩
  | array hd hw h => exact ⟨_, _, rfl, by decide, by decide⟩
  | emptyObject hd h => exact ⟨_, _, rfl, by decide, by decide⟩
  | object hd hw h hnd => exact ⟨_, _, rfl, by decide, by decide⟩

theorem head_of_isElements {vs : List Value} (h : IsElements d i vs r) :
    ∃ b u, i = b :: u ∧ Starts b := by
  cases h with
  | last h hw => exact head_of_isValue h
  | more h hw hw' hs => exact head_of_isValue h

theorem head_of_isMembers {ms : List (String × Value)} (h : IsMembers d i ms r) :
    ∃ u, i = ascii '"' :: u := by
  cases h with
  | last hn hc hw h hw' =>
    obtain ⟨body, rfl, -⟩ := hn
    exact ⟨body, rfl⟩
  | more hn hc hw h hw' hw'' hs =>
    obtain ⟨body, rfl, -⟩ := hn
    exact ⟨body, rfl⟩

theorem notMem_of_nodup_append {ns ms : List (String × Value)} {name : String} {v : Value}
    (h : ((ns ++ (name, v) :: ms).map Prod.fst).Nodup) : name ∉ ns.map Prod.fst := by
  rw [List.map_append, List.nodup_append] at h
  intro hmem
  exact h.2.2 name hmem name List.mem_cons_self rfl

theorem length_le_of_whitespace (h : Whitespace i r) : r.length ≤ i.length := by
  obtain ⟨w, -, rfl⟩ := h
  rw [List.length_append]
  omega

theorem ends_of_isWhitespace (h : isWhitespace b) : Ends (b :: r) := by
  rw [isWhitespace, decide_eq_true_eq] at h
  intro c hc
  obtain rfl : b = c := by simpa using hc
  rcases h with rfl | rfl | rfl | rfl <;> decide

/-- A number ends where whitespace or a separator follows. -/
theorem ends_of_whitespace (h : Whitespace i r) (hr : Ends r) : Ends i := by
  obtain ⟨w, hw, rfl⟩ := h
  cases w with
  | nil => exact hr
  | cons b w => exact ends_of_isWhitespace (hw b List.mem_cons_self)

theorem ends_cons (hb : b = ascii ',' ∨ b = ascii ']' ∨ b = ascii '\x7d') : Ends (b :: r) := by
  intro c hc
  obtain rfl : b = c := by simpa using hc
  rcases hb with rfl | rfl | rfl <;> decide

/-- After whitespace comes the byte that the derivation says. -/
theorem rest_skipWhitespace (h : p.rest = i) (hw : Whitespace i (b :: r))
    (hb : isWhitespace b = false) : p.skipWhitespace.rest = b :: r := by
  refine (skipWhitespace_of_rest h hw fun c hc => ?_).1
  obtain rfl : b = c := by simpa using hc
  simp [hb]

/-- Reading a separator after whitespace. -/
theorem take_separator (h : p.rest = i) (hw : Whitespace i (b :: r))
    (hb : isWhitespace b = false) :
    p.skipWhitespace.take = (some b, p.skipWhitespace.advance 1) ∧
      (p.skipWhitespace.advance 1).rest = r := by
  have hrest := rest_skipWhitespace h hw hb
  exact ⟨take_of_cons hrest, (scans_cons hrest).2⟩

/-- What is left after a value that was returned is shorter. -/
theorem length_lt_of_value {v : Value} (h : value fuel p d = .ok (v, q))
    (hf : 3 * p.rest.length + 1 ≤ fuel) : q.rest.length < p.rest.length :=
  ((value_ensures hf).of_ok h).2.length_lt

theorem value_number_of_rest {text : String} (hd : d ≤ maxDepth) (h : IsNumber (utf8 text.toList))
    (hp : p.rest = utf8 text.toList ++ r) (hr : Ends r) :
    ∃ q, value (fuel + 1) p d = .ok (.number text, q) ∧ q.rest = r := by
  obtain ⟨b, u, heq, hb⟩ := head_of_isNumber h
  have hcons : p.rest = b :: (u ++ r) := by rw [hp, heq]; rfl
  have hother : b ≠ ascii 'n' ∧ b ≠ ascii 't' ∧ b ≠ ascii 'f' ∧ b ≠ ascii '"' ∧ b ≠ ascii '[' ∧
      b ≠ ascii '\x7b' := by
    refine ⟨?_, ?_, ?_, ?_, ?_, ?_⟩ <;>
    · rintro rfl
      exact absurd hb (by decide)
  obtain ⟨hn, ht, hf, hq, hbr, hbc⟩ := hother
  rw [value, if_neg (by omega), peek_eq, hcons]
  simp only [List.head?_cons, if_neg hn, if_neg ht, if_neg hf, if_neg hq, if_neg hbr, if_neg hbc,
    if_pos hb]
  rw [number_of_rest hp h hr (offset_le_of_rest hcons), ok_bind]
  exact ⟨_, rfl, (scans_of_rest hp).2⟩

theorem value_literal_of_rest {l : List UInt8} {v : Value} (hd : d ≤ maxDepth)
    (hl : (l = utf8 "null".toList ∧ v = .null) ∨ (l = utf8 "true".toList ∧ v = .bool true) ∨
      (l = utf8 "false".toList ∧ v = .bool false)) (hp : p.rest = l ++ r) :
    ∃ q, value (fuel + 1) p d = .ok (v, q) ∧ q.rest = r := by
  obtain ⟨hlit, hrest⟩ := literal_of_rest hp
  refine ⟨_, ?_, hrest⟩
  rw [value, if_neg (by omega), peek_eq, hp]
  rcases hl with ⟨rfl, rfl⟩ | ⟨rfl, rfl⟩ | ⟨rfl, rfl⟩
  · have hhead : (utf8 "null".toList ++ r).head? = some (ascii 'n') := rfl
    simp only [hhead, if_true, hlit, ok_bind]
    rfl
  · have hhead : (utf8 "true".toList ++ r).head? = some (ascii 't') := rfl
    have hn : ascii 't' ≠ ascii 'n' := by decide
    simp only [hhead, if_neg hn, if_true, hlit, ok_bind]
    rfl
  · have hhead : (utf8 "false".toList ++ r).head? = some (ascii 'f') := rfl
    have hn : ascii 'f' ≠ ascii 'n' := by decide
    have ht : ascii 'f' ≠ ascii 't' := by decide
    simp only [hhead, if_neg hn, if_neg ht, if_true, hlit, ok_bind]
    rfl

theorem value_string_of_rest {s : String} (hd : d ≤ maxDepth) (h : IsString i s r)
    (hp : p.rest = i) : ∃ q, value (fuel + 1) p d = .ok (.string s, q) ∧ q.rest = r := by
  obtain ⟨q, hq, hrest⟩ := string_of_rest h hp
  obtain ⟨body, rfl, -⟩ := h
  refine ⟨q, ?_, hrest⟩
  have hn : ascii '"' ≠ ascii 'n' := by decide
  have ht : ascii '"' ≠ ascii 't' := by decide
  have hf : ascii '"' ≠ ascii 'f' := by decide
  rw [value, if_neg (by omega), peek_eq, hp]
  simp only [List.head?_cons, if_neg hn, if_neg ht, if_neg hf, if_true, hq, ok_bind]
  rfl

theorem value_array_of_rest (hd : d ≤ maxDepth) (hp : p.rest = ascii '[' :: i) :
    value (fuel + 1) p d = array fuel p (d + 1) := by
  have hn : ascii '[' ≠ ascii 'n' := by decide
  have ht : ascii '[' ≠ ascii 't' := by decide
  have hf : ascii '[' ≠ ascii 'f' := by decide
  have hq : ascii '[' ≠ ascii '"' := by decide
  rw [value, if_neg (by omega), peek_eq, hp]
  simp only [List.head?_cons, if_neg hn, if_neg ht, if_neg hf, if_neg hq, if_true]

theorem value_object_of_rest (hd : d ≤ maxDepth) (hp : p.rest = ascii '\x7b' :: i) :
    value (fuel + 1) p d = object fuel p (d + 1) := by
  have hn : ascii '\x7b' ≠ ascii 'n' := by decide
  have ht : ascii '\x7b' ≠ ascii 't' := by decide
  have hf : ascii '\x7b' ≠ ascii 'f' := by decide
  have hq : ascii '\x7b' ≠ ascii '"' := by decide
  have hb : ascii '\x7b' ≠ ascii '[' := by decide
  rw [value, if_neg (by omega), peek_eq, hp]
  simp only [List.head?_cons, if_neg hn, if_neg ht, if_neg hf, if_neg hq, if_neg hb, if_true]

theorem array_empty_of_rest (hp : p.rest = ascii '[' :: i) (h : Whitespace i (ascii ']' :: r)) :
    ∃ q, array (fuel + 1) p d = .ok (.array [], q) ∧ q.rest = r := by
  have hrest := rest_skipWhitespace (scans_cons hp).2 h (by decide)
  refine ⟨_, ?_, (scans_cons hrest).2⟩
  rw [array, if_pos (by rw [peek_eq, hrest]; rfl)]

theorem array_eq_elements (hp : p.rest = ascii '[' :: i) (hw : Whitespace i (b :: r))
    (hb : Starts b) :
    array (fuel + 1) p d = elements fuel (p.advance 1).skipWhitespace d [] ∧
      (p.advance 1).skipWhitespace.rest = b :: r := by
  have hrest := rest_skipWhitespace (scans_cons hp).2 hw hb.1
  refine ⟨?_, hrest⟩
  rw [array, if_neg]
  rw [peek_eq, hrest]
  simpa using hb.2

theorem object_empty_of_rest (hp : p.rest = ascii '\x7b' :: i)
    (h : Whitespace i (ascii '\x7d' :: r)) :
    ∃ q, object (fuel + 1) p d = .ok (.object [], q) ∧ q.rest = r := by
  have hrest := rest_skipWhitespace (scans_cons hp).2 h (by decide)
  refine ⟨_, ?_, (scans_cons hrest).2⟩
  rw [object, if_pos (by rw [peek_eq, hrest]; rfl)]

theorem object_eq_members (hp : p.rest = ascii '\x7b' :: i)
    (hw : Whitespace i (ascii '"' :: r)) :
    object (fuel + 1) p d = members fuel (p.advance 1).skipWhitespace d [] ∧
      (p.advance 1).skipWhitespace.rest = ascii '"' :: r := by
  have hrest := rest_skipWhitespace (scans_cons hp).2 hw (by decide)
  refine ⟨?_, hrest⟩
  rw [object, if_neg]
  rw [peek_eq, hrest]
  have hne : ascii '"' ≠ ascii '\x7d' := by decide
  simpa using hne

/-- Reading a member up to its value. -/
theorem members_of_rest {name : String} {j k l : List UInt8} {fields : List (String × Value)}
    (hn : IsString i name j) (hc : Whitespace j (ascii ':' :: k)) (hw : Whitespace k l)
    (hl : ∃ b u, l = b :: u ∧ Starts b) (hp : p.rest = i) :
    ∃ q, q.rest = l ∧ q.rest.length < p.rest.length ∧
      members (fuel + 1) p d fields = (do
        let (v, q) ← value fuel q d
        if (lookupEntry name fields).isSome then q.fail (.duplicateField name)
        else
          let fields := insertEntry name v fields
          match q.skipWhitespace.take with
          | (none, q) => q.fail .unexpectedEnd
          | (some byte, q) =>
            if byte = ascii ',' then members fuel q.skipWhitespace d fields
            else if byte = ascii '\x7d' then .ok (.object fields, q)
            else q.fail .unexpectedByte) := by
  obtain ⟨q₁, hq₁, hrest₁⟩ := string_of_rest hn hp
  have hahead : Ahead p q₁ := ((string_ensures p).of_ok hq₁).2
  obtain ⟨htake, hk⟩ := take_separator hrest₁ hc (by decide)
  have hahead' := (ahead_separator (rest_skipWhitespace hrest₁ hc (by decide))).2.1
  obtain ⟨b, u, rfl, hb⟩ := hl
  have hrest₂ := rest_skipWhitespace hk hw hb.1
  refine ⟨_, hrest₂, (hahead.trans hahead').skipWhitespace.length_lt, ?_⟩
  obtain ⟨body, rfl, -⟩ := hn
  have hquote : ¬ p.peek ≠ some (ascii '"') := by
    rw [peek_eq, hp]
    simp
  rw [members, if_neg hquote, hq₁, ok_bind]
  simp only [htake]
  rfl

mutual

/-- A value that is derived is returned, when what follows it cannot belong to it. -/
theorem value_of_isValue {fuel d : ℕ} {p : Parser} {i r : List UInt8} {v : Value}
    (h : IsValue d i v r) (hp : p.rest = i) (hf : 3 * i.length + 1 ≤ fuel) (hr : Ends r) :
    ∃ q, value fuel p d = .ok (v, q) ∧ q.rest = r := by
  obtain ⟨fuel, rfl⟩ : ∃ k, fuel = k + 1 := ⟨fuel - 1, by omega⟩
  match h with
  | .null hd => exact value_literal_of_rest hd (.inl ⟨rfl, rfl⟩) hp
  | .true hd => exact value_literal_of_rest hd (.inr (.inl ⟨rfl, rfl⟩)) hp
  | .false hd => exact value_literal_of_rest hd (.inr (.inr ⟨rfl, rfl⟩)) hp
  | .number hd h => exact value_number_of_rest hd h hp hr
  | .string hd h => exact value_string_of_rest hd h hp
  | .emptyArray hd h =>
    rw [value_array_of_rest hd hp]
    obtain ⟨fuel, rfl⟩ : ∃ k, fuel = k + 1 := ⟨fuel - 1, by rw [List.length_cons] at hf; omega⟩
    exact array_empty_of_rest hp h
  | .array hd hw h =>
    obtain ⟨b, u, rfl, hb⟩ := head_of_isElements h
    rw [value_array_of_rest hd hp]
    obtain ⟨fuel, rfl⟩ : ∃ k, fuel = k + 1 := ⟨fuel - 1, by rw [List.length_cons] at hf; omega⟩
    obtain ⟨heq, hrest⟩ := array_eq_elements hp hw hb
    rw [heq]
    exact elements_of_isElements h hrest
      (by have := length_le_of_whitespace hw; simp at hf this ⊢; omega) []
  | .emptyObject hd h =>
    rw [value_object_of_rest hd hp]
    obtain ⟨fuel, rfl⟩ : ∃ k, fuel = k + 1 := ⟨fuel - 1, by rw [List.length_cons] at hf; omega⟩
    exact object_empty_of_rest hp h
  | .object hd hw h hnd =>
    obtain ⟨u, rfl⟩ := head_of_isMembers h
    rw [value_object_of_rest hd hp]
    obtain ⟨fuel, rfl⟩ : ∃ k, fuel = k + 1 := ⟨fuel - 1, by rw [List.length_cons] at hf; omega⟩
    obtain ⟨heq, hrest⟩ := object_eq_members hp hw
    rw [heq]
    exact members_of_isMembers h hrest
      (by have := length_le_of_whitespace hw; simp at hf this ⊢; omega) []
      (by simpa using hnd)

theorem elements_of_isElements {fuel d : ℕ} {p : Parser} {i r : List UInt8} {vs : List Value}
    (h : IsElements d i vs r) (hp : p.rest = i) (hf : 3 * i.length + 2 ≤ fuel) (us : List Value) :
    ∃ q, elements fuel p d us = .ok (.array (us ++ vs), q) ∧ q.rest = r := by
  obtain ⟨fuel, rfl⟩ : ∃ k, fuel = k + 1 := ⟨fuel - 1, by omega⟩
  match h with
  | .last h hw =>
    obtain ⟨q, hq, hrest⟩ := value_of_isValue h hp (by omega : _ ≤ fuel)
      (ends_of_whitespace hw (ends_cons (by simp)))
    obtain ⟨htake, hr'⟩ := take_separator hrest hw (by decide)
    refine ⟨_, ?_, hr'⟩
    rw [elements, hq, ok_bind]
    simp only [htake]
    rfl
  | .more h hw hw' hs =>
    obtain ⟨q, hq, hrest⟩ := value_of_isValue h hp (by omega : _ ≤ fuel)
      (ends_of_whitespace hw (ends_cons (by simp)))
    have hlen := length_lt_of_value hq (by rw [hp]; omega)
    obtain ⟨htake, hk⟩ := take_separator hrest hw (by decide)
    obtain ⟨b, u, rfl, hb⟩ := head_of_isElements hs
    have hnext := rest_skipWhitespace hk hw' hb.1
    have hshort : 3 * (b :: u).length + 2 ≤ fuel := by
      have := length_le_of_whitespace hw
      have := length_le_of_whitespace hw'
      rw [hp, hrest] at hlen
      simp only [List.length_cons] at *
      omega
    obtain ⟨q', hq', hr'⟩ := elements_of_isElements hs hnext hshort (us ++ [_])
    refine ⟨q', ?_, hr'⟩
    rw [elements, hq, ok_bind]
    simp only [htake, if_true]
    rw [hq', List.append_assoc]
    rfl

theorem members_of_isMembers {fuel d : ℕ} {p : Parser} {i r : List UInt8}
    {ms : List (String × Value)} (h : IsMembers d i ms r) (hp : p.rest = i)
    (hf : 3 * i.length + 2 ≤ fuel) (ns : List (String × Value))
    (hnd : ((ns ++ ms).map Prod.fst).Nodup) :
    ∃ q, members fuel p d (mapOf ns) = .ok (.object (mapOf (ns ++ ms)), q) ∧ q.rest = r := by
  obtain ⟨fuel, rfl⟩ : ∃ k, fuel = k + 1 := ⟨fuel - 1, by omega⟩
  match h with
  | .last hn hc hw h hw' =>
    obtain ⟨q, hq, hshort, heq⟩ := members_of_rest hn hc hw (head_of_isValue h) hp
    obtain ⟨q₁, hq₁, hrest⟩ := value_of_isValue h hq (by rw [hp, hq] at hshort; omega : _ ≤ fuel)
      (ends_of_whitespace hw' (ends_cons (by simp)))
    obtain ⟨htake, hr'⟩ := take_separator hrest hw' (by decide)
    have hnew := lookupEntry_mapOf_eq_none (notMem_of_nodup_append hnd)
    refine ⟨_, ?_, hr'⟩
    rw [heq, hq₁, ok_bind]
    simp only [hnew, htake, mapOf_concat]
    rfl
  | .more hn hc hw h hw' hw'' hs =>
    obtain ⟨q, hq, hshort, heq⟩ := members_of_rest hn hc hw (head_of_isValue h) hp
    obtain ⟨q₁, hq₁, hrest⟩ := value_of_isValue h hq (by rw [hp, hq] at hshort; omega : _ ≤ fuel)
      (ends_of_whitespace hw' (ends_cons (by simp)))
    have hlen := length_lt_of_value hq₁ (by rw [hp] at hshort; omega)
    obtain ⟨htake, hr'⟩ := take_separator hrest hw' (by decide)
    have hnew := lookupEntry_mapOf_eq_none (notMem_of_nodup_append hnd)
    obtain ⟨u, rfl⟩ := head_of_isMembers hs
    have hnext := rest_skipWhitespace hr' hw'' (by decide)
    have hfuel : 3 * (ascii '"' :: u).length + 2 ≤ fuel := by
      have := length_le_of_whitespace hw'
      have := length_le_of_whitespace hw''
      rw [hp] at hshort
      rw [hrest] at hlen
      simp only [List.length_cons] at *
      omega
    obtain ⟨q₂, hq₂, hr₂⟩ := members_of_isMembers hs hnext hfuel (ns ++ [_])
      (by rw [List.append_assoc]; exact hnd)
    refine ⟨q₂, ?_, hr₂⟩
    rw [heq, hq₁, ok_bind]
    simp only [hnew, htake, if_true, ← mapOf_concat]
    rw [List.append_assoc] at hq₂
    exact hq₂

end

theorem rest_eq_nil_iff (h : p.offset ≤ p.bytes.length) :
    p.rest = [] ↔ p.offset = p.bytes.length := by
  rw [rest, List.drop_eq_nil_iff]
  omega

end Parser

open Ferric.Json.Parser

variable {b : List UInt8} {v : Value}

/-- A value that is returned is a value of the text, and nothing else is returned. -/
theorem parse_ensures (b : List UInt8) : Ensures (parse b) (fun _ => True) (IsText b) := by
  rw [parse]
  have hlen := length_skipWhitespace_le { bytes := b, offset := 0 }
  have hw := whitespace_skipWhitespace { bytes := b, offset := 0 }
  have hscan := (skipWhile_scans { bytes := b, offset := 0 } isWhitespace).1
  refine (value_ensures (by change _ ≤ b.length at hlen; omega)).bind ?_
  rintro ⟨v, q⟩ - ⟨hv, t, hs, -⟩
  have hall := hscan.trans (hs.trans (skipWhile_scans q isWhitespace).1)
  simp only
  split
  · trivial
  next hend =>
    refine ensures_pure.mpr ⟨_, _, hw, hv, ?_⟩
    have hnil : q.skipWhitespace.rest = [] := by
      have hbytes : q.skipWhitespace.bytes = b := hall.bytes_eq
      rw [rest_eq_nil_iff (by rw [hbytes]; omega), hbytes]
      exact not_not.mp hend
    exact hnil ▸ whitespace_skipWhitespace q

/-- A value of the text is returned. -/
theorem parse_of_isText (h : IsText b v) : parse b = .ok v := by
  obtain ⟨i, r, hw, hv, hend⟩ := h
  obtain ⟨c, u, rfl, hc⟩ := head_of_isValue hv
  have hstart := rest_skipWhitespace (p := { bytes := b, offset := 0 }) rfl hw hc.1
  have hlen := length_le_of_whitespace hw
  obtain ⟨q, hq, hrest⟩ := value_of_isValue hv hstart (by omega : _ ≤ 3 * b.length + 1)
    (ends_of_whitespace hend fun _ h => by simp at h)
  have hlast : q.skipWhitespace.rest = [] :=
    (skipWhitespace_of_rest hrest hend fun _ h => by simp at h).1
  have hscan := (skipWhile_scans { bytes := b, offset := 0 } isWhitespace).1
  obtain ⟨-, t, hs, -⟩ := (value_ensures (by rw [hstart]; omega)).of_ok hq
  have hall := hscan.trans (hs.trans (skipWhile_scans q isWhitespace).1)
  have hoffset : q.skipWhitespace.offset = b.length := by
    have hrest₀ := congrArg List.length hall.rest_eq
    rw [List.length_append, show (q.skipWhile isWhitespace).rest = [] from hlast] at hrest₀
    rw [skipWhitespace, hall.offset_eq]
    simpa [rest] using hrest₀.symm
  rw [parse, hq, ok_bind]
  simp only [hoffset, ne_eq, not_true_eq_false, if_false]
  rfl

end Json

end Ferric
