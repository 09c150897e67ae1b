import Ferric.Json.Model
import Mathlib.Data.List.Induction

/-!
# The language of the parser

RFC 8259 JSON over bytes, with the restrictions that the parser is there to enforce: unescaped
characters are UTF-8, a `\u` escape denotes a Unicode scalar, the member names of an object are
distinct after decoding, and no value is nested deeper than `maxDepth`. None of this mentions the
parser.

The relations read a text from the front: `IsValue d i v r` says that `i` starts with a value at
nesting depth `d` that denotes `v`, and that `r` is what follows it.

## Main definitions

* `IsEscape`, `IsChars` — an escape; the rest of a string up to and including its closing quote
* `IsNumber` — the text of a number
* `IsValue`, `IsElements`, `IsMembers` — values, and what follows an opening bracket or brace
* `IsText` — a whole text
-/

namespace Ferric

namespace Json

/-- Whitespace, then `r`. -/
def Whitespace (i r : List UInt8) : Prop := ∃ w, (∀ b ∈ w, isWhitespace b) ∧ i = w ++ r

/-- The number of four hexadecimal digits. -/
def hexQuad? (a b c d : UInt8) : Option ℕ := do
  let a ← hexDigit? a
  let b ← hexDigit? b
  let c ← hexDigit? c
  let d ← hexDigit? d
  return ((a * 16 + b) * 16 + c) * 16 + d

/-- An escape sequence and the character it denotes. -/
inductive IsEscape : List UInt8 → Char → Prop
  | simple {b out : UInt8} {c : Char} (hb : simpleEscape? b = some out)
      (hc : String.utf8EncodeChar c = [out]) : IsEscape [ascii '\\', b] c
  | unicode {a b d e : UInt8} {c : Char} (hc : hexQuad? a b d e = some c.toNat) :
      IsEscape [ascii '\\', ascii 'u', a, b, d, e] c
  /-- A high surrogate is followed by a low one. -/
  | surrogates {a b d e a' b' d' e' : UInt8} {high low : ℕ} {c : Char}
      (hhigh : hexQuad? a b d e = some high) (hlow : hexQuad? a' b' d' e' = some low)
      (hh : 0xd800 ≤ high ∧ high ≤ 0xdbff) (hl : 0xdc00 ≤ low ∧ low ≤ 0xdfff)
      (hc : c.toNat = 0x10000 + (high - 0xd800) * 2 ^ 10 + (low - 0xdc00)) :
      IsEscape [ascii '\\', ascii 'u', a, b, d, e, ascii '\\', ascii 'u', a', b', d', e'] c

/-- The rest of a string after its opening quote: the characters it denotes, and the text after the
closing quote. -/
inductive IsChars : List UInt8 → List Char → List UInt8 → Prop
  | close {r : List UInt8} : IsChars (ascii '"' :: r) [] r
  /-- An unescaped character is neither a control character nor a quote nor a backslash. -/
  | raw {i r : List UInt8} {c : Char} {cs : List Char} (hc : 0x20 ≤ c.toNat) (hq : c ≠ '"')
      (hb : c ≠ '\\') (h : IsChars i cs r) : IsChars (String.utf8EncodeChar c ++ i) (c :: cs) r
  | escape {e i r : List UInt8} {c : Char} {cs : List Char} (he : IsEscape e c)
      (h : IsChars i cs r) : IsChars (e ++ i) (c :: cs) r

/-- A string, its quotes included. -/
def IsString (i : List UInt8) (s : String) (r : List UInt8) : Prop :=
  ∃ body, i = ascii '"' :: body ∧ IsChars body s.toList r

/-- One or more digits. -/
def IsDigits (t : List UInt8) : Prop := t ≠ [] ∧ ∀ b ∈ t, isDigit b

/-- `0`, or digits that do not start with `0`. -/
def IsInteger (t : List UInt8) : Prop :=
  t = [ascii '0'] ∨ ∃ b ds, t = b :: ds ∧ (ascii '1' ≤ b ∧ b ≤ ascii '9') ∧ ∀ d ∈ ds, isDigit d

/-- Nothing, or a point and digits. -/
def IsFraction (t : List UInt8) : Prop := t = [] ∨ ∃ ds, t = ascii '.' :: ds ∧ IsDigits ds

/-- Nothing, or `e` or `E`, an optional sign, and digits. -/
def IsExponent (t : List UInt8) : Prop :=
  t = [] ∨ ∃ e sign ds, t = e :: (sign ++ ds) ∧ (e = ascii 'e' ∨ e = ascii 'E') ∧
    (sign = [] ∨ sign = [ascii '+'] ∨ sign = [ascii '-']) ∧ IsDigits ds

/-- The text of a number. -/
def IsNumber (t : List UInt8) : Prop :=
  ∃ sign int frac exp, t = sign ++ (int ++ (frac ++ exp)) ∧ (sign = [] ∨ sign = [ascii '-']) ∧
    IsInteger int ∧ IsFraction frac ∧ IsExponent exp

/-- The finite map with these entries. -/
def mapOf (entries : List (String × Value)) : List (String × Value) :=
  entries.foldl (fun fields e => insertEntry e.1 e.2 fields) []

mutual

/-- A value at nesting depth `d`. -/
inductive IsValue : ℕ → List UInt8 → Value → List UInt8 → Prop
  | null {d : ℕ} {r : List UInt8} (hd : d ≤ maxDepth) :
      IsValue d (utf8 "null".toList ++ r) .null r
  | true {d : ℕ} {r : List UInt8} (hd : d ≤ maxDepth) :
      IsValue d (utf8 "true".toList ++ r) (.bool Bool.true) r
  | false {d : ℕ} {r : List UInt8} (hd : d ≤ maxDepth) :
      IsValue d (utf8 "false".toList ++ r) (.bool Bool.false) r
  /-- A number denotes its own text. -/
  | number {d : ℕ} {r : List UInt8} {text : String} (hd : d ≤ maxDepth)
      (h : IsNumber (utf8 text.toList)) : IsValue d (utf8 text.toList ++ r) (.number text) r
  | string {d : ℕ} {i r : List UInt8} {s : String} (hd : d ≤ maxDepth) (h : IsString i s r) :
      IsValue d i (.string s) r
  | emptyArray {d : ℕ} {i r : List UInt8} (hd : d ≤ maxDepth) (h : Whitespace i (ascii ']' :: r)) :
      IsValue d (ascii '[' :: i) (.array []) r
  | array {d : ℕ} {i j r : List UInt8} {vs : List Value} (hd : d ≤ maxDepth) (hw : Whitespace i j)
      (h : IsElements (d + 1) j vs r) : IsValue d (ascii '[' :: i) (.array vs) r
  | emptyObject {d : ℕ} {i r : List UInt8} (hd : d ≤ maxDepth)
      (h : Whitespace i (ascii '\x7d' :: r)) : IsValue d (ascii '\x7b' :: i) (.object []) r
  /-- An object denotes the map of its members, whose names differ. -/
  | object {d : ℕ} {i j r : List UInt8} {ms : List (String × Value)} (hd : d ≤ maxDepth)
      (hw : Whitespace i j) (h : IsMembers (d + 1) j ms r) (hnd : (ms.map Prod.fst).Nodup) :
      IsValue d (ascii '\x7b' :: i) (.object (mapOf ms)) r

/-- The elements of an array and its closing bracket. -/
inductive IsElements : ℕ → List UInt8 → List Value → List UInt8 → Prop
  | last {d : ℕ} {i j r : List UInt8} {v : Value} (h : IsValue d i v j)
      (hw : Whitespace j (ascii ']' :: r)) : IsElements d i [v] r
  | more {d : ℕ} {i j k l r : List UInt8} {v : Value} {vs : List Value} (h : IsValue d i v j)
      (hw : Whitespace j (ascii ',' :: k)) (hw' : Whitespace k l) (hs : IsElements d l vs r) :
      IsElements d i (v :: vs) r

/-- The members of an object and its closing brace. -/
inductive IsMembers : ℕ → List UInt8 → List (String × Value) → List UInt8 → Prop
  | last {d : ℕ} {i j k l m r : List UInt8} {name : String} {v : Value} (hn : IsString i name j)
      (hc : Whitespace j (ascii ':' :: k)) (hw : Whitespace k l) (h : IsValue d l v m)
      (hw' : Whitespace m (ascii '\x7d' :: r)) : IsMembers d i [(name, v)] r
  | more {d : ℕ} {i j k l m n o r : List UInt8} {name : String} {v : Value}
      {ms : List (String × Value)} (hn : IsString i name j) (hc : Whitespace j (ascii ':' :: k))
      (hw : Whitespace k l) (h : IsValue d l v m) (hw' : Whitespace m (ascii ',' :: n))
      (hw'' : Whitespace n o) (hs : IsMembers d o ms r) : IsMembers d i ((name, v) :: ms) r

end

/-- A text that denotes a value. -/
def IsText (b : List UInt8) (v : Value) : Prop :=
  ∃ i r, Whitespace b i ∧ IsValue 0 i v r ∧ Whitespace r []

/-! ### Texts without whitespace and escapes -/

section Plain

variable {d : ℕ} {r : List UInt8}

theorem Whitespace.refl (i : List UInt8) : Whitespace i i := ⟨[], by simp, rfl⟩

/-- A character that stands for itself in a string. -/
def Unescaped (c : Char) : Prop := 0x20 ≤ c.toNat ∧ c ≠ '"' ∧ c ≠ '\\'

instance : DecidablePred Unescaped := fun _ => inferInstanceAs (Decidable (_ ∧ _))

instance (text : List Char) : Decidable (∀ c ∈ text, Unescaped c) :=
  List.decidableBAll Unescaped text

/-- A text in quotes, and what follows it. -/
def quoted (text : String) (r : List UInt8) : List UInt8 :=
  ascii '"' :: (utf8 text.toList ++ ascii '"' :: r)

theorem isString_quoted {text : String} (h : ∀ c ∈ text.toList, Unescaped c) (r : List UInt8) :
    IsString (quoted text r) text r := by
  refine ⟨_, rfl, ?_⟩
  generalize text.toList = cs at h
  induction cs with
  | nil => exact .close
  | cons c cs ih =>
    obtain ⟨hc, hq, hb⟩ := h c List.mem_cons_self
    rw [utf8_cons, List.append_assoc]
    exact .raw hc hq hb (ih fun x hx => h x (.tail _ hx))

/-- Digits that do not start with `0` are a number. -/
theorem isNumber_of_digits {t : List UInt8}
    (hfirst : t.head?.any fun b => ascii '1' ≤ b ∧ b ≤ ascii '9') (h : ∀ b ∈ t, isDigit b) :
    IsNumber t := by
  cases t with
  | nil => simp at hfirst
  | cons b ds =>
    refine ⟨[], b :: ds, [], [], by simp, .inl rfl, .inr ⟨b, ds, rfl, ?_, ?_⟩, .inl rfl, .inl rfl⟩
    · simpa using hfirst
    · intro x hx
      exact h x (.tail _ hx)

/-- Numbers with commas between them and a bracket behind them. -/
def numbersText : List String → List UInt8 → List UInt8
  | [], r => ascii ']' :: r
  | [n], r => utf8 n.toList ++ ascii ']' :: r
  | n :: m :: ns, r => utf8 n.toList ++ ascii ',' :: numbersText (m :: ns) r

theorem isElements_numbers {ns : List String} (hd : d ≤ maxDepth) (hne : ns ≠ [])
    (h : ∀ n ∈ ns, IsNumber (utf8 n.toList)) (r : List UInt8) :
    IsElements d (numbersText ns r) (ns.map .number) r := by
  induction ns with
  | nil => exact absurd rfl hne
  | cons n ns ih =>
    have hn : IsNumber (utf8 n.toList) := h n List.mem_cons_self
    cases ns with
    | nil => exact .last (.number hd hn) (.refl _)
    | cons m ns =>
      refine .more (.number hd hn) (.refl _) (.refl _) (ih (by simp) ?_)
      intro x hx
      exact h x (.tail _ hx)

end Plain

/-! ### Objects are finite maps -/

section MapOf

variable {ms ms' : List (String × Value)} {k : String} {v : Value}

theorem mapOf_concat : mapOf (ms ++ [(k, v)]) = insertEntry k v (mapOf ms) := by
  simp [mapOf]

theorem sortedKeys_mapOf (ms : List (String × Value)) : SortedKeys (mapOf ms) := by
  induction ms using List.reverseRecOn with
  | nil => exact List.Pairwise.nil
  | append_singleton ms e ih =>
    rw [mapOf_concat]
    exact sortedKeys_insertEntry ih

theorem lookupEntry_mapOf_eq_none (h : k ∉ ms.map Prod.fst) : lookupEntry k (mapOf ms) = none := by
  induction ms using List.reverseRecOn with
  | nil => rfl
  | append_singleton ms e ih =>
    rw [List.map_append, List.mem_append, not_or] at h
    rw [mapOf_concat, lookupEntry_insertEntry (sortedKeys_mapOf ms), if_neg (by simpa using h.2),
      ih h.1]

/-- With distinct names, looking a name up finds its member. -/
theorem lookupEntry_mapOf (hnd : (ms.map Prod.fst).Nodup) :
    lookupEntry k (mapOf ms) = some v ↔ (k, v) ∈ ms := by
  induction ms using List.reverseRecOn with
  | nil => simp [mapOf, lookupEntry]
  | append_singleton ms e ih =>
    obtain ⟨name, u⟩ := e
    rw [List.map_append, List.nodup_append] at hnd
    obtain ⟨hms, -, hne⟩ := hnd
    rw [mapOf_concat, lookupEntry_insertEntry (sortedKeys_mapOf ms), List.mem_append,
      List.mem_singleton, Prod.mk.injEq]
    by_cases hk : k = name
    · have hno : (k, v) ∉ ms := fun hmem =>
        hne k (List.mem_map_of_mem hmem) name (by simp) hk
      rw [if_pos hk, Option.some.injEq]
      exact ⟨fun huv => .inr ⟨hk, huv.symm⟩, fun h => (h.resolve_left hno).2.symm⟩
    · rw [if_neg hk, ih hms]
      simp [hk]

end MapOf

end Json

end Ferric
