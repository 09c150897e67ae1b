import Ferric.Json.Scanner
import Ferric.Lib.Lists
import Ferric.Tokenizer.Model

/-!
# What a program denotes

A token id denotes bytes: those of its string under the alphabet of bytes, or those of an added
token. `TokenizerProgram.new` looks the ids of single bytes and of merge rules up by their strings,
and the denotation turns concatenation of strings into concatenation of bytes. So the id of a byte
denotes that byte, and a merge rule replaces two ids by one that denotes what they denote together.
This is all that the round trip needs to know about a program.

## Main definitions

* `tokenBytes?`, `decoded?` — the bytes of an id and of a list of ids
* `TokenizerExecutionProgram.WellFormed` — the two facts above

## Main results

* `wellFormed_of_new` — every program that is built is well formed
* `exists_new` — which vocabularies and merge lists are accepted
-/

namespace Ferric

namespace Tokenizer

variable {program : TokenizerExecutionProgram} {ids ids' : List ℕ} {id : ℕ}

/-! ### Denotation -/

/-- The bytes of a token, special or not. -/
def TokenizerExecutionProgram.tokenBytes? (program : TokenizerExecutionProgram) (id : ℕ) :
    Option (List UInt8) :=
  if id < baseVocabularySize then program.vocabularyBytes[id]?
  else program.addedTokens[id - baseVocabularySize]?.map (·.bytes)

/-- The bytes of tokens, in order. -/
def TokenizerExecutionProgram.decoded? (program : TokenizerExecutionProgram) :
    List ℕ → Option (List UInt8)
  | [] => some []
  | id :: ids => do
    let bytes ← program.tokenBytes? id
    let rest ← program.decoded? ids
    return bytes ++ rest

@[simp] theorem decoded?_nil : program.decoded? [] = some [] := rfl

theorem decoded?_cons_eq_some {out : List UInt8} :
    program.decoded? (id :: ids) = some out ↔ ∃ bytes rest, program.tokenBytes? id = some bytes ∧
      program.decoded? ids = some rest ∧ bytes ++ rest = out := by
  simp [TokenizerExecutionProgram.decoded?, Option.bind_eq_some_iff]

theorem decoded?_append {out out' : List UInt8} (h : program.decoded? ids = some out)
    (h' : program.decoded? ids' = some out') :
      program.decoded? (ids ++ ids') = some (out ++ out') := by
  induction ids generalizing out with
  | nil =>
    obtain rfl : [] = out := by simpa using h
    exact h'
  | cons id ids ih =>
    obtain ⟨bytes, rest, hid, hrest, rfl⟩ := decoded?_cons_eq_some.mp h
    refine decoded?_cons_eq_some.mpr ⟨bytes, rest ++ out', hid, ih hrest, ?_⟩
    rw [List.append_assoc]

theorem decoded?_singleton {bytes : List UInt8} (h : program.tokenBytes? id = some bytes) :
    program.decoded? [id] = some bytes :=
  decoded?_cons_eq_some.mpr ⟨bytes, [], h, rfl, List.append_nil _⟩

/-- What the round trip needs to know about a program. -/
structure TokenizerExecutionProgram.WellFormed (program : TokenizerExecutionProgram) : Prop where
  /-- The id of a byte denotes that byte. -/
  byte : ∀ b : UInt8, ∃ id, program.byteTokenIds[b.toNat]? = some id ∧
    program.tokenBytes? id = some [b]
  /-- A merge keeps what is denoted. -/
  merge : ∀ left right rank result,
    program.mergeRanks.get? (toLex (left, right)) = some (rank, result) →
      ∃ x y, program.tokenBytes? left = some x ∧ program.tokenBytes? right = some y ∧
        program.tokenBytes? result = some (x ++ y)
  /-- The added tokens are those of the table. -/
  added : program.addedTokens = Tokenizer.addedTokens.zipIdx.map addedTokenProgram

/-! ### The alphabet -/

/-- The alphabet has one symbol for each byte. -/
theorem unicodeCodepointToByte_byteToUnicodeCodepoint (b : UInt8) :
    unicodeCodepointToByte (byteToUnicodeCodepoint b) = some b := by
  have hb := b.toNat_lt
  have hof : UInt8.ofNat b.toNat = b := UInt8.ofNat_toNat
  simp only [byteToUnicodeCodepoint, UInt8.le_iff_toNat_le, UInt8.reduceToNat]
  split
  next h =>
    rw [unicodeCodepointToByte, if_pos (by omega), u8TryFrom, if_pos (by omega), hof]
  next h =>
  split
  next h' =>
    rw [unicodeCodepointToByte, if_neg (by omega), if_pos (by omega), u8TryFrom, if_pos (by omega),
      Nat.add_sub_cancel_left, hof]
  next h' =>
  split
  next h'' =>
    rw [unicodeCodepointToByte, if_neg (by omega), if_neg (by omega), if_pos (by omega), u8TryFrom,
      if_pos (by omega), Nat.add_sub_cancel, hof]
  next h'' =>
    obtain rfl : b = 0xad := by
      rw [← UInt8.toNat_inj]
      simp only [UInt8.reduceToNat]
      omega
    decide

theorem byteToUnicodeCodepoint_lt (b : UInt8) : byteToUnicodeCodepoint b ≤ 323 := by
  have hb := b.toNat_lt
  simp only [byteToUnicodeCodepoint, UInt8.le_iff_toNat_le, UInt8.reduceToNat]
  split_ifs <;> omega

/-- Every byte has a symbol. -/
theorem exists_byteToUnicode (b : UInt8) : ∃ c, byteToUnicode b = some c ∧
    unicodeToByte c = some b := by
  have hle := byteToUnicodeCodepoint_lt b
  have hvalid : (byteToUnicodeCodepoint b).isValidChar := .inl (by omega)
  refine ⟨Char.ofNat (byteToUnicodeCodepoint b), if_pos hvalid, ?_⟩
  have hnat := Json.Parser.charFromU32_eq_some.mp (if_pos hvalid)
  rw [unicodeToByte, hnat, unicodeCodepointToByte_byteToUnicodeCodepoint]

theorem unicodeToByte_of_byteToUnicode {b : UInt8} {c : Char} (h : byteToUnicode b = some c) :
    unicodeToByte c = some b := by
  obtain ⟨c', hc', hb⟩ := exists_byteToUnicode b
  obtain rfl := Option.some.inj (h.symm.trans hc')
  exact hb

/-- The bytes of a string of the alphabet. -/
def symbolBytes? (token : String) : Option (List UInt8) := token.toList.mapM unicodeToByte

theorem vocabularyTokenBytes_eq_ok {token : String} {bytes : List UInt8} :
    vocabularyTokenBytes token = .ok bytes ↔ symbolBytes? token = some bytes := by
  rw [vocabularyTokenBytes, symbolBytes?]
  induction token.toList generalizing bytes with
  | nil => simp [pure, Except.pure]
  | cons c cs ih =>
    rw [List.mapM_cons, List.mapM_cons, bind_eq_ok]
    simp [bind_eq_ok, ih, Option.bind_eq_some_iff, pure, Except.pure]

theorem symbolBytes?_append {left right : String} {x y : List UInt8}
    (hx : symbolBytes? left = some x) (hy : symbolBytes? right = some y) :
    symbolBytes? (left ++ right) = some (x ++ y) := by
  rw [symbolBytes?, String.toList_append, List.mapM_append]
  rw [symbolBytes?] at hx hy
  simp [hx, hy]

theorem symbolBytes?_singleton {b : UInt8} {c : Char} (h : byteToUnicode b = some c) :
    symbolBytes? (String.singleton c) = some [b] := by
  simp [symbolBytes?, unicodeToByte_of_byteToUnicode h]

/-! ### Construction -/

variable {vocabulary : List String} {tokenIds : BTreeMap String ℕ}

/-- The ids are positions of the strings, and every string of the vocabulary has one. -/
structure IsIndex (vocabulary : List String) (tokenIds : BTreeMap String ℕ) : Prop where
  getElem? : ∀ token id, tokenIds.get? token = some id → vocabulary[id]? = some token
  isSome : ∀ token ∈ vocabulary, (tokenIds.get? token).isSome

theorem collectTokenIds_ensures (vocabulary : List String) :
    Ensures (collectTokenIds vocabulary) (fun _ => 2 ^ 32 < vocabulary.length)
      (IsIndex vocabulary) := by
  have hmem : ∀ e ∈ vocabulary.zipIdx, vocabulary[e.2]? = some e.1 := fun e he =>
    List.mem_zipIdx_iff_getElem?.mp he
  rw [collectTokenIds]
  refine (ensures_foldlM (d := []) (E := fun _ => 2 ^ 32 < vocabulary.length)
    (I := fun done rest (tokenIds : BTreeMap String ℕ) => done ++ rest = vocabulary.zipIdx ∧
      (∀ token id, tokenIds.get? token = some id → (token, id) ∈ done) ∧
      ∀ e ∈ done, (tokenIds.get? e.1).isSome)
    ⟨rfl, by simp, by simp⟩ ?_).mono (fun _ h => h) ?_
  · rintro done ⟨token, id⟩ rest tokenIds ⟨hall, hget, hsome⟩
    have hid : vocabulary[id]? = some token := hmem (token, id) (by rw [← hall]; simp)
    obtain ⟨hlt, -⟩ := List.getElem?_eq_some_iff.mp hid
    refine (ensures_failIf (Q := fun _ => True) (fun h => by omega) fun _ => trivial).bind ?_
    rintro - - -
    refine ensures_pure.mpr ⟨by simpa using hall, fun t i h => ?_, fun e he => ?_⟩
    · rw [BTreeMap.get?_insert] at h
      split at h
      next heq =>
        obtain rfl := Option.some.inj h
        rw [heq]
        simp
      · exact List.mem_append_left _ (hget t i h)
    · rw [BTreeMap.get?_insert]
      split
      · rfl
      next hne =>
        rcases List.mem_append.mp he with he | he
        · exact hsome e he
        · exact absurd (congrArg Prod.fst (List.mem_singleton.mp he)) hne
  · rintro tokenIds - ⟨hall, hget, hsome⟩
    rw [List.append_nil] at hall
    rw [hall] at hget hsome
    refine ⟨fun token id h => hmem _ (hget token id h), fun token htoken => ?_⟩
    obtain ⟨id, hid⟩ := List.mem_iff_getElem?.mp htoken
    exact hsome (token, id) (List.mem_zipIdx_iff_getElem?.mpr hid)

/-- The id of a string denotes the bytes of the string. -/
theorem tokenBytes?_of_get? (hindex : IsIndex vocabulary tokenIds)
    (hlen : vocabulary.length = baseVocabularySize)
    (hbytes : vocabulary.mapM vocabularyTokenBytes = .ok program.vocabularyBytes)
    {token : String} (hid : tokenIds.get? token = some id) :
    ∃ bytes, symbolBytes? token = some bytes ∧ program.tokenBytes? id = some bytes := by
  have htoken := hindex.getElem? token id hid
  obtain ⟨hlt, -⟩ := List.getElem?_eq_some_iff.mp htoken
  obtain ⟨bytes, hb, heq⟩ := getElem?_of_forall₂ (forall₂_of_mapM hbytes) htoken
  refine ⟨bytes, vocabularyTokenBytes_eq_ok.mp heq, ?_⟩
  rw [TokenizerExecutionProgram.tokenBytes?, if_pos (by omega), hb]

/-- Every rule in the map comes from a rule of the list. -/
theorem addMerge_ensures {mergeRanks : MergeRanks} {rule : (String × String) × ℕ} :
    Ensures (addMerge tokenIds mergeRanks rule) (fun _ => True) fun m =>
      ∃ left right rank leftId rightId resultId, tokenIds.get? left = some leftId ∧
        tokenIds.get? right = some rightId ∧ tokenIds.get? (left ++ right) = some resultId ∧
        m = mergeRanks.insert (toLex (leftId, rightId)) (rank, resultId) := by
  obtain ⟨⟨left, right⟩, rank⟩ := rule
  rw [addMerge]
  refine (ensures_orErr (fun _ => trivial) fun leftId hleft => hleft).bind fun leftId _ hleft => ?_
  refine (ensures_orErr (fun _ => trivial) fun rightId hright => hright).bind
    fun rightId _ hright => ?_
  refine (ensures_orErr (Q := fun _ => True) (fun _ => trivial) fun _ _ => trivial).bind
    fun _ _ _ => ?_
  refine (ensures_orErr (fun _ => trivial) fun result hresult => hresult).bind
    fun result _ hresult => ?_
  exact ensures_pure.mpr ⟨left, right, rank, leftId, rightId, result, hleft, hright, hresult, rfl⟩

/-- A rule's result is the id of its two strings together. -/
def FromStrings (tokenIds : BTreeMap String ℕ) (m : MergeRanks) : Prop :=
  ∀ leftId rightId rank resultId, m.get? (toLex (leftId, rightId)) = some (rank, resultId) →
    ∃ left right, tokenIds.get? left = some leftId ∧ tokenIds.get? right = some rightId ∧
      tokenIds.get? (left ++ right) = some resultId

theorem foldlM_addMerge_ensures {merges : List ((String × String) × ℕ)} :
    Ensures (merges.foldlM (addMerge tokenIds) BTreeMap.empty) (fun _ => True)
      (FromStrings tokenIds) := by
  refine ensures_foldlM (d := []) (I := fun _ _ m => FromStrings tokenIds m)
    (fun _ _ _ _ h => by simp at h) ?_
  rintro done rule rest m hm
  refine addMerge_ensures.mono (fun _ _ => trivial) ?_
  rintro m' - ⟨left, right, rank, leftId, rightId, resultId, hleft, hright, hresult, rfl⟩
  intro l r k res h
  rw [BTreeMap.get?_insert] at h
  split at h
  next heq =>
    obtain ⟨rfl, rfl⟩ := Prod.mk.inj (toLex.injective heq)
    obtain ⟨-, rfl⟩ := Prod.mk.inj (Option.some.inj h)
    exact ⟨left, right, hleft, hright, hresult⟩
  · exact hm l r k res h

variable {compile : String → Option Regex} {merges : List (String × String)}
  {tokenizer : TokenizerProgram}

/-- The id of a byte is that of the string of its symbol. -/
theorem getElem?_byteTokenIds {byteTokenIds : List ℕ}
    (h : ((List.range 256).mapM fun byte => byteTokenId tokenIds (UInt8.ofNat byte)) =
      .ok byteTokenIds) (b : UInt8) :
    ∃ c id, byteToUnicode b = some c ∧ tokenIds.get? (String.singleton c) = some id ∧
      byteTokenIds[b.toNat]? = some id := by
  have hb : (List.range 256)[b.toNat]? = some b.toNat := List.getElem?_range b.toNat_lt
  obtain ⟨id, hid, heq⟩ := getElem?_of_forall₂ (forall₂_of_mapM h) hb
  rw [UInt8.ofNat_toNat, byteTokenId, bind_eq_ok] at heq
  obtain ⟨c, hc, heq⟩ := heq
  exact ⟨c, id, orErr_eq_ok.mp hc, orErr_eq_ok.mp heq, hid⟩

/-- Every program that is built is well formed. -/
theorem wellFormed_of_new (hlen : vocabulary.length = baseVocabularySize)
    (h : TokenizerProgram.new compile vocabulary merges = .ok tokenizer) :
    tokenizer.execution.WellFormed := by
  obtain ⟨tokenIds, hids, h⟩ := bind_eq_ok.mp h
  obtain ⟨byteTokenIds, hbytes, h⟩ := bind_eq_ok.mp h
  obtain ⟨vocabularyBytes, hvocabulary, h⟩ := bind_eq_ok.mp h
  obtain ⟨mergeRanks, hmerges, h⟩ := bind_eq_ok.mp h
  obtain ⟨regex, -, h⟩ := bind_eq_ok.mp h
  obtain rfl := Except.ok.inj h
  have hindex := (collectTokenIds_ensures vocabulary).of_ok hids
  have hdenotes {token : String} {id : ℕ} (hid : tokenIds.get? token = some id) :
      ∃ bytes, symbolBytes? token = some bytes ∧ TokenizerExecutionProgram.tokenBytes?
        { byteTokenIds, vocabularyBytes, mergeRanks,
          addedTokens := addedTokens.zipIdx.map addedTokenProgram } id = some bytes :=
    tokenBytes?_of_get? hindex hlen hvocabulary hid
  refine ⟨fun b => ?_, fun left right rank result hrule => ?_, rfl⟩
  · obtain ⟨c, id, hc, hget, hid⟩ := getElem?_byteTokenIds hbytes b
    obtain ⟨bytes, hsymbol, hbyte⟩ := hdenotes hget
    rw [symbolBytes?_singleton hc] at hsymbol
    obtain rfl := Option.some.inj hsymbol
    exact ⟨id, hid, hbyte⟩
  · obtain ⟨l, r, hl, hr, hres⟩ :=
      foldlM_addMerge_ensures.of_ok hmerges left right rank result hrule
    obtain ⟨x, hx, hleft⟩ := hdenotes hl
    obtain ⟨y, hy, hright⟩ := hdenotes hr
    obtain ⟨z, hz, hresult⟩ := hdenotes hres
    rw [symbolBytes?_append hx hy] at hz
    obtain rfl := Option.some.inj hz
    exact ⟨x, y, hleft, hright, hresult⟩

/-- Strings that the construction accepts. -/
structure Accepts (vocabulary : List String) (merges : List (String × String)) : Prop where
  length_le : vocabulary.length ≤ 2 ^ 32
  symbols : ∀ b c, byteToUnicode b = some c → String.singleton c ∈ vocabulary
  alphabet : ∀ token ∈ vocabulary, (symbolBytes? token).isSome
  rules : ∀ rule ∈ merges, rule.1 ∈ vocabulary ∧ rule.2 ∈ vocabulary ∧
    rule.1 ++ rule.2 ∈ vocabulary ∧
      (utf8 rule.1.toList).length + (utf8 rule.2.toList).length < 2 ^ 64

/-- A vocabulary that has the symbol of every byte and the strings of every rule is accepted. -/
theorem exists_new (h : Accepts vocabulary merges) {regex : Regex}
    (hregex : compile qwen3SplitRegex = some regex) :
    ∃ tokenizer, TokenizerProgram.new compile vocabulary merges = .ok tokenizer ∧
      tokenizer.splitRegex = regex := by
  refine Ensures.exists_ok ?_
  have hlen := h.length_le
  refine ((collectTokenIds_ensures vocabulary).mono (fun _ h => by omega) fun _ _ h => h).bind
    fun tokenIds _ hindex => ?_
  have hget {token : String} (htoken : token ∈ vocabulary) : tokenIds.get? token ≠ none :=
    Option.isSome_iff_ne_none.mp (hindex.isSome token htoken)
  refine (ensures_mapM (R := fun _ _ => True) fun byte _ => ?_).bind fun byteTokenIds _ _ => ?_
  · obtain ⟨c, hc, -⟩ := exists_byteToUnicode (UInt8.ofNat byte)
    rw [byteTokenId, hc]
    exact ensures_orErr (fun hnone => hget (h.symbols _ _ hc) hnone) fun _ _ => trivial
  refine (ensures_mapM (R := fun _ _ => True) fun token htoken => ?_).bind
    fun vocabularyBytes _ _ => ?_
  · obtain ⟨bytes, hbytes⟩ := Option.isSome_iff_exists.mp (h.alphabet token htoken)
    rw [vocabularyTokenBytes_eq_ok.mpr hbytes]
    trivial
  have hmerges : Ensures (merges.zipIdx.foldlM (addMerge tokenIds) BTreeMap.empty)
      (fun _ => False) fun _ => True := by
    refine (ensures_foldlM (d := []) (I := fun done rest _ => done ++ rest = merges.zipIdx)
      rfl ?_).mono (fun _ h => h) fun _ _ _ => trivial
    rintro done ⟨⟨left, right⟩, rank⟩ rest m hall
    have hmem : (left, right) ∈ merges := by
      have : ((left, right), rank) ∈ merges.zipIdx := by rw [← hall]; simp
      exact List.mem_of_getElem? (List.mem_zipIdx_iff_getElem?.mp this)
    obtain ⟨hleft, hright, hboth, hsum⟩ := h.rules _ hmem
    obtain ⟨l, hl⟩ := Option.ne_none_iff_exists'.mp (hget hleft)
    obtain ⟨r, hr⟩ := Option.ne_none_iff_exists'.mp (hget hright)
    obtain ⟨lr, hlr⟩ := Option.ne_none_iff_exists'.mp (hget hboth)
    rw [addMerge]
    simp only [hl, hr, hlr, orErr, ok_bind, checkedAdd, if_pos hsum]
    simpa using hall
  refine hmerges.bind fun mergeRanks _ _ => ?_
  rw [hregex]
  exact rfl

end Tokenizer

end Ferric
