import Ferric.Tokenizer.Segments

/-!
# Decoding undoes encoding

The tokens that `encode` returns denote the segments of the input, each added token as itself and
each plain segment normalised, and `decode_to_bytes` returns what tokens denote whenever its limits
allow. What normalisation does is left open, and of the split regex only this is used: its matches
are ranges of the text, in order and without overlap (`Ranges`). The text between matches is encoded
as well, so no choice of ranges loses anything.

## Main results

* `encode_ensures` — what the tokens of an input denote
* `decodeToBytes_eq_ok` — decoding, under limits that suffice
* `decodeToBytes_encode` — the round trip
-/

namespace Ferric

namespace Tokenizer

variable {program : TokenizerExecutionProgram} {tokenizer : TokenizerProgram} {work : WorkBudget}
  {output : List ℕ} {limits : TokenizerExecutionLimits} {nfc : String → String}

/-! ### Slices -/

section Slices

variable {α : Type} {l x y : List α} {a b c n : ℕ}

theorem slice?_append (hx : slice? l a b = some x) (hy : slice? l b c = some y) :
    slice? l a c = some (x ++ y) := by
  rw [slice?] at hx hy ⊢
  split at hx
  next hab =>
    split at hy
    next hbc =>
      obtain rfl := Option.some.inj hx
      obtain rfl := Option.some.inj hy
      rw [if_pos ⟨hab.1.trans hbc.1, hbc.2⟩, Option.some.injEq]
      have hsplit : c - a = (b - a) + (c - b) := by omega
      have hdrop : a + (b - a) = b := by omega
      rw [hsplit, List.take_add, List.drop_drop, hdrop]
    · simp at hy
  · simp at hx

theorem exists_slice? (hab : a ≤ b) (hb : b ≤ l.length) : ∃ x, slice? l a b = some x :=
  ⟨_, if_pos ⟨hab, hb⟩⟩

theorem slice?_self (h : a ≤ l.length) : slice? l a a = some [] := by
  rw [slice?, if_pos ⟨le_rfl, h⟩, Nat.sub_self, List.take_zero]

theorem slice?_all : slice? l 0 l.length = some l := by
  rw [slice?, if_pos ⟨Nat.zero_le _, le_rfl⟩, Nat.sub_zero, List.drop_zero, List.take_length]

theorem slice?_append_append (x y z : List α) :
    slice? (x ++ (y ++ z)) x.length (x ++ y).length = some y := by
  rw [slice?, if_pos (by simp), List.drop_left, List.length_append, Nat.add_sub_cancel_left,
    List.take_left]

end Slices

/-- Between two characters is a boundary. -/
theorem isCharBoundary_utf8 (cs ds : List Char) :
    isCharBoundary (utf8 (cs ++ ds)) (utf8 cs).length := by
  rw [isCharBoundary]
  split
  · rfl
  rw [utf8_append, List.getElem?_append_right le_rfl, Nat.sub_self]
  cases ds with
  | nil => simp
  | cons d ds =>
    obtain ⟨f, tail, hf, hnot, -⟩ := exists_utf8EncodeChar d
    rw [IsCont] at hnot
    rw [utf8_cons, hf]
    simp only [List.cons_append, List.getElem?_cons_zero, decide_eq_true_eq]
    omega

theorem strSlice?_utf8 (done text rest : List Char) :
    strSlice? (utf8 (done ++ (text ++ rest))) (utf8 done).length (utf8 (done ++ text)).length =
      some (String.ofList text) := by
  have hstop := isCharBoundary_utf8 (done ++ text) rest
  rw [List.append_assoc] at hstop
  rw [strSlice?, if_pos ⟨isCharBoundary_utf8 done _, hstop⟩, utf8_append, utf8_append, utf8_append,
    slice?_append_append, Option.bind_some]
  exact fromUtf8_eq_some.mpr (by simp)

/-! ### Plain text -/

/-- Ranges of a text of `n` bytes from `previous` on: in order, without overlap. -/
def Ranges (n : ℕ) : ℕ → List (ℕ × ℕ) → Prop
  | _, [] => True
  | previous, (start, stop) :: rest =>
    previous ≤ start ∧ start ≤ stop ∧ stop ≤ n ∧ Ranges n stop rest

theorem encodeGap_ensures (hwf : program.WellFormed) {bytes gap : List UInt8}
    {previous start : ℕ} (hprevious : previous ≤ bytes.length)
    (hgap : slice? bytes previous start = some gap) :
    Ensures (encodeGap program bytes limits previous start work output) (fun _ => True) fun r =>
      ∃ ids, r.2 = output ++ ids ∧ program.decoded? ids = some gap := by
  rw [encodeGap]
  split
  · rw [hgap]
    exact encodePiece_ensures hwf gap limits
  next heq =>
    obtain rfl := not_not.mp heq
    obtain rfl : [] = gap := Option.some.inj ((slice?_self hprevious).symm.trans hgap)
    exact ⟨[], by simp, rfl⟩

/-- The matches and the text before each of them, up to the end of the last match. -/
theorem encodeMatches_ensures (hwf : program.WellFormed) {bytes : List UInt8}
    {found : List (ℕ × ℕ)} {previous : ℕ} (hranges : Ranges bytes.length previous found)
    (hprevious : previous ≤ bytes.length) :
    Ensures (encodeMatches program bytes limits found previous work output) (fun _ => True) fun r =>
      r.1 ≤ bytes.length ∧ ∃ ids part, r.2.2 = output ++ ids ∧
        slice? bytes previous r.1 = some part ∧ program.decoded? ids = some part := by
  induction found generalizing previous work output with
  | nil => exact ⟨hprevious, [], [], by simp, slice?_self hprevious, rfl⟩
  | cons range found ih =>
    obtain ⟨start, stop⟩ := range
    obtain ⟨hstart, hstop, hend, hranges⟩ := hranges
    obtain ⟨gap, hgap⟩ := exists_slice? hstart (hstop.trans hend)
    obtain ⟨piece, hpiece⟩ := exists_slice? hstop hend
    rw [encodeMatches]
    refine (ensures_orErr (Q := fun _ => True) (fun _ => trivial) fun _ _ => trivial).bind
      fun amount _ _ => ?_
    refine (charge_ensures work amount).bind fun work₁ _ _ => ?_
    refine (encodeGap_ensures hwf hprevious hgap).bind ?_
    rintro ⟨work₂, output₂⟩ - ⟨ids₁, hout₁, hids₁⟩
    simp only at hout₁
    simp only [hpiece, orPanic, ok_bind]
    refine (encodePiece_ensures hwf piece limits).bind ?_
    rintro ⟨work₃, output₃⟩ - ⟨ids₂, hout₂, hids₂⟩
    simp only at hout₂
    refine (ih hranges hend).mono (fun _ _ => trivial) ?_
    rintro ⟨previous', work', output'⟩ - ⟨hle, ids₃, part, hout₃, hpart, hids₃⟩
    simp only at hle hout₃ hpart
    refine ⟨hle, ids₁ ++ (ids₂ ++ ids₃), gap ++ (piece ++ part), ?_, ?_, ?_⟩
    · rw [hout₃, hout₂, hout₁]
      simp
    · exact slice?_append hgap (slice?_append hpiece hpart)
    · exact decoded?_append hids₁ (decoded?_append hids₂ hids₃)

/-- Regex matches are ranges of the text. -/
def TokenizerProgram.SplitsRanges (tokenizer : TokenizerProgram) : Prop :=
  ∀ s : String, Ranges (utf8 s.toList).length 0 (tokenizer.splitRegex s)

theorem collectNormalized_ensures (cs : List Char) :
    Ensures (cs.foldlM collectNormalized ([], work)) (fun _ => True) fun r => r.1 = cs := by
  refine (ensures_foldlM (d := []) (E := fun _ => True)
    (I := fun seen _ (state : List Char × WorkBudget) => state.1 = seen) rfl ?_).mono
      (fun _ h => h) fun r _ h => h
  rintro seen c rest ⟨normalized, work⟩ rfl
  rw [collectNormalized]
  refine (charge_ensures work 1).bind fun work' _ _ => ?_
  refine (ensures_orErr (Q := fun _ => True) (fun _ => trivial) fun _ _ => trivial).bind
    fun actual _ _ => ?_
  exact (ensures_failIf (Q := fun _ => True) (fun _ => trivial) fun _ => trivial).bind
    fun _ _ _ => ensures_pure.mpr rfl

/-- The tokens of a plain segment denote its normal form. -/
theorem encodeNormalText_ensures (hwf : tokenizer.execution.WellFormed)
    (hsplit : tokenizer.SplitsRanges) (input : String) :
    Ensures (tokenizer.encodeNormalText nfc input limits work output) (fun _ => True) fun r =>
      ∃ ids, r.2 = output ++ ids ∧
        tokenizer.execution.decoded? ids = some (utf8 (nfc input).toList) := by
  rw [TokenizerProgram.encodeNormalText]
  refine (collectNormalized_ensures _).bind ?_
  rintro ⟨normalized, work₁⟩ - hnormalized
  obtain rfl : normalized = (nfc input).toList := hnormalized
  simp only [String.ofList_toList]
  refine (encodeMatches_ensures hwf (hsplit _) (Nat.zero_le _)).bind ?_
  rintro ⟨previous, work₂, output₂⟩ - ⟨hle, ids, part, hout, hpart, hids⟩
  simp only at hle hout hpart ⊢
  split
  · obtain ⟨piece, hpiece⟩ := exists_slice? hle le_rfl
    refine (ensures_orErr (Q := fun _ => True) (fun _ => trivial) fun _ _ => trivial).bind
      fun amount _ _ => ?_
    refine (charge_ensures work₂ amount).bind fun work₃ _ _ => ?_
    simp only [hpiece, orPanic, ok_bind]
    refine (encodePiece_ensures hwf piece limits).mono (fun _ _ => trivial) ?_
    rintro r - ⟨ids', hout', hids'⟩
    refine ⟨ids ++ ids', by rw [hout', hout, List.append_assoc], ?_⟩
    have hall := slice?_append hpart hpiece
    rw [slice?_all, Option.some.injEq] at hall
    rw [hall]
    exact decoded?_append hids hids'
  next heq =>
    obtain rfl := not_not.mp heq
    rw [slice?_all, Option.some.injEq] at hpart
    exact ensures_pure.mpr ⟨ids, hout, hpart ▸ hids⟩

/-! ### The loop over segments -/

theorem emitAddedToken_ensures (added : AddedTokenProgram) (policy : SpecialTokenEncodePolicy)
    (output : List ℕ) (limit : ℕ) :
    Ensures (emitAddedToken added policy output limit) (fun _ => True) fun r =>
      r = (added.bytes.length, output ++ [added.tokenId]) := by
  rw [emitAddedToken]
  refine (ensures_failIf (Q := fun _ => True) (fun _ => trivial) fun _ => trivial).bind
    fun _ _ _ => ?_
  refine (pushToken_ensures _ _ _).bind fun output' _ houtput => ?_
  exact ensures_pure.mpr (by rw [houtput])

/-- From a cursor between two characters on, the tokens denote the segments of what is left. -/
theorem encodeLoop_ensures (hwf : tokenizer.execution.WellFormed) (hsplit : tokenizer.SplitsRanges)
    {policy : SpecialTokenEncodePolicy} {fuel : ℕ} (done text : List Char)
    (hf : (utf8 text).length < fuel) :
    Ensures (encodeLoop nfc tokenizer (utf8 (done ++ text)) limits policy fuel (utf8 done).length
      work output) (fun _ => True) fun out =>
      ∃ ids segments, out = output ++ ids ∧ Decomposes addedContents text segments ∧
        tokenizer.execution.decoded? ids = some (render nfc segments) := by
  induction fuel generalizing done text work output with
  | zero => omega
  | succ fuel ih =>
    rw [encodeLoop]
    split
    next hlt =>
      have hne : text ≠ [] := by
        rintro rfl
        simp at hlt
      refine (findAddedToken_ensures hwf done text).bind ?_
      rintro ⟨next, work₁⟩ - hfound
      cases next with
      | none =>
        have hslice := strSlice?_utf8 done text []
        rw [List.append_nil] at hslice
        simp only [Option.map_none, Option.getD_none, hslice, orPanic, ok_bind]
        refine (encodeNormalText_ensures hwf hsplit _).bind ?_
        rintro ⟨work₂, output₂⟩ - ⟨ids, hout, hids⟩
        refine ensures_pure.mpr ⟨ids, _, hout, .plain hne hfound, ?_⟩
        simpa [render] using hids
      | some found =>
        obtain ⟨before, token, rest, added, rfl, hfirst, hstart, hget, hbytes, hdenotes⟩ := hfound
        simp only [Option.map_some, Option.getD_some, hstart, strSlice?_utf8, orPanic, ok_bind]
        refine (encodeNormalText_ensures hwf hsplit _).bind ?_
        rintro ⟨work₂, output₂⟩ - ⟨ids, hout, hids⟩
        simp only [hget, ok_bind]
        refine (emitAddedToken_ensures added policy output₂ _).bind ?_
        rintro r - rfl
        refine (ensures_orErr (fun _ => trivial) fun cursor hcursor =>
          (checkedAdd_eq_some.mp hcursor).2).bind fun cursor _ hcursor => ?_
        have hnext : cursor = (utf8 (done ++ before ++ token.toList)).length := by
          rw [← hcursor, hbytes, utf8_append _ token.toList, List.length_append]
        have hinput : done ++ (before ++ (token.toList ++ rest)) =
            done ++ before ++ token.toList ++ rest := by simp
        have hshort : (utf8 rest).length < fuel := by
          obtain ⟨t, ht⟩ := bytes_eq_cons hwf (List.mem_of_getElem? hget)
          have hpos : 0 < (utf8 token.toList).length := by rw [← hbytes, ht]; simp
          simp only [utf8_append, List.length_append] at hf
          omega
        rw [hnext, hinput]
        refine (ih _ rest hshort).mono (fun _ _ => trivial) ?_
        rintro out - ⟨ids', segments, hout', hsegments, hids'⟩
        refine ⟨ids ++ ([added.tokenId] ++ ids'), _, ?_, .added hfirst hsegments, ?_⟩
        · rw [hout']
          simp only at hout
          simp [hout]
        · have htail := decoded?_append (decoded?_singleton hdenotes) hids'
          rw [hbytes] at htail
          exact decoded?_append hids htail
    next hge =>
      have hnil : text = [] := by
        refine utf8_injective (List.eq_nil_of_length_eq_zero ?_)
        rw [utf8_append, List.length_append] at hge
        omega
      rw [hnil]
      exact ⟨[], [], by simp, .nil, rfl⟩

theorem applyEncodePolicy_ensures (policy : SpecialTokenEncodePolicy) (bytes : List UInt8)
    (addedTokens : List AddedTokenProgram) :
    Ensures (applyEncodePolicy policy bytes addedTokens work) (fun _ => True) fun _ => True := by
  rw [applyEncodePolicy]
  split
  · induction bytes generalizing work with
    | nil => trivial
    | cons b bytes ih =>
      rw [rejectForbiddenSpecial]
      refine (charge_ensures work 1).bind fun work₁ _ _ => ?_
      split
      · exact ih
      refine (ensures_foldlM (d := []) (I := fun _ _ _ => True) trivial ?_).bind fun work₂ _ _ => ih
      rintro seen added rest work₂ -
      rw [rejectIfMatch]
      split
      · trivial
      refine (charge_ensures work₂ _).bind fun work₃ _ _ => ?_
      exact (ensures_failIf (Q := fun _ => True) (fun _ => trivial) fun _ => trivial).bind
        fun _ _ _ => ensures_pure.mpr trivial
  · trivial

/-- The tokens of an input denote its segments. -/
theorem encode_ensures (hwf : tokenizer.execution.WellFormed) (hsplit : tokenizer.SplitsRanges)
    (input : String) (policy : SpecialTokenEncodePolicy) :
    Ensures (tokenizer.encode nfc input limits policy) (fun _ => True) fun ids =>
      ∃ segments, Decomposes addedContents input.toList segments ∧
        tokenizer.execution.decoded? ids = some (render nfc segments) := by
  rw [TokenizerProgram.encode]
  refine (ensures_failIf (Q := fun _ => True) (fun _ => trivial) fun _ => trivial).bind
    fun _ _ _ => ?_
  refine (ensures_failIf (Q := fun _ => True) (fun _ => trivial) fun _ => trivial).bind
    fun _ _ _ => ?_
  refine (applyEncodePolicy_ensures policy _ _).bind fun work _ _ => ?_
  refine (encodeLoop_ensures hwf hsplit [] input.toList (Nat.lt_succ_self _)).mono
    (fun _ _ => trivial) ?_
  rintro out - ⟨ids, segments, hout, hsegments, hids⟩
  rw [List.nil_append] at hout
  exact ⟨segments, hsegments, hout ▸ hids⟩

/-! ### Decoding -/

theorem charge_of_le {amount : ℕ} (h : work.used + amount ≤ work.limit)
    (hlimit : work.limit ≤ maxTokenizerWork) :
    work.charge amount = .ok { work with used := work.used + amount } := by
  have hfits : work.used + amount < 2 ^ 64 := by
    rw [maxTokenizerWork] at hlimit
    omega
  have hroom : ¬ work.used + amount > work.limit := by omega
  rw [WorkBudget.charge, checkedAdd, if_pos hfits, orErr, ok_bind, failIf_of_not hroom]
  rfl

theorem appendDecodedBytes_eq_ok (work : WorkBudget) (bytes out : List UInt8) {limit : ℕ}
    (h : work.used + bytes.length ≤ work.limit) (hlimit : work.limit ≤ maxTokenizerWork)
    (hout : out.length + bytes.length ≤ limit) :
    appendDecodedBytes bytes work out limit =
      .ok ({ work with used := work.used + bytes.length }, out ++ bytes) := by
  rw [appendDecodedBytes]
  induction bytes generalizing work out with
  | nil => simp [pure, Except.pure]
  | cons b bytes ih =>
    rw [List.length_cons] at h hout
    have hroom : ¬ out.length ≥ limit := by omega
    rw [List.foldlM_cons]
    simp only [charge_of_le (by omega : work.used + 1 ≤ work.limit) hlimit, ok_bind, pushByte,
      failIf_of_not hroom]
    refine (ih { work with used := work.used + 1 } (out ++ [b]) (by simp only; omega) hlimit
      (by simp; omega)).trans ?_
    simp [Nat.add_comm, Nat.add_left_comm]

theorem decodeToken_eq_ok {id : ℕ} {bytes out : List UInt8}
    (hid : program.tokenBytes? id = some bytes) (h : work.used + (1 + bytes.length) ≤ work.limit)
    (hlimit : work.limit ≤ maxTokenizerWork)
    (hout : out.length + bytes.length ≤ limits.outputBytes) :
    decodeToken program limits .preserve (work, out) id =
      .ok ({ work with used := work.used + (1 + bytes.length) }, out ++ bytes) := by
  have happend := appendDecodedBytes_eq_ok { work with used := work.used + 1 } bytes out
    (by simp only; omega) hlimit hout
  rw [decodeToken, charge_of_le (by omega) hlimit]
  simp only [ok_bind]
  rw [TokenizerExecutionProgram.tokenBytes?] at hid
  split at hid
  next hlt =>
    rw [if_pos hlt, hid]
    simp only [orErr, ok_bind]
    rw [happend, Nat.add_assoc]
  next hge =>
    obtain ⟨added, hget, rfl⟩ := Option.map_eq_some_iff.mp hid
    rw [if_neg hge, hget]
    simp only [orErr, ok_bind]
    rw [if_neg (by simp), happend, Nat.add_assoc]

theorem foldlM_decodeToken_eq_ok (work : WorkBudget) {ids : List ℕ} {bytes : List UInt8}
    (out : List UInt8) (hids : program.decoded? ids = some bytes)
    (h : work.used + (ids.length + bytes.length) ≤ work.limit)
    (hlimit : work.limit ≤ maxTokenizerWork)
    (hout : out.length + bytes.length ≤ limits.outputBytes) :
    ∃ work', ids.foldlM (decodeToken program limits .preserve) (work, out) =
      .ok (work', out ++ bytes) := by
  induction ids generalizing work bytes out with
  | nil =>
    obtain rfl : [] = bytes := by simpa using hids
    exact ⟨work, by simp [pure, Except.pure]⟩
  | cons id ids ih =>
    obtain ⟨first, rest, hid, hrest, rfl⟩ := decoded?_cons_eq_some.mp hids
    rw [List.length_cons, List.length_append] at h
    rw [List.length_append] at hout
    rw [List.foldlM_cons, decodeToken_eq_ok hid (by omega) hlimit (by omega), ok_bind]
    obtain ⟨work', heq⟩ := ih { work with used := work.used + (1 + first.length) } (out ++ first)
      hrest (by simp only; omega) hlimit (by simp; omega)
    exact ⟨work', by rw [heq, List.append_assoc]⟩

/-- Limits under which tokens can be decoded to these bytes. -/
structure Sufficient (limits : TokenizerExecutionLimits) (ids : List ℕ) (out : List UInt8) :
    Prop where
  valid : limits.validate = .ok ()
  tokens : ids.length ≤ limits.tokens
  bytes : out.length ≤ limits.outputBytes
  work : ids.length + out.length ≤ limits.work

/-- Decoding returns what the tokens denote. -/
theorem decodeToBytes_eq_ok {ids : List ℕ} {out : List UInt8}
    (hids : program.decoded? ids = some out) (h : Sufficient limits ids out) :
    program.decodeToBytes ids limits .preserve = .ok out := by
  have hwork : limits.work ≤ maxTokenizerWork := by
    have := failIf_eq_ok.mp h.valid
    omega
  have htokens := h.tokens
  obtain ⟨work', heq⟩ := foldlM_decodeToken_eq_ok (WorkBudget.new limits.work) [] hids
    (by simpa [WorkBudget.new] using h.work) hwork (by simpa using h.bytes)
  have hfew : ¬ ids.length > limits.tokens := by omega
  rw [TokenizerExecutionProgram.decodeToBytes, h.valid, ok_bind, failIf_of_not hfew, ok_bind, heq]
  rfl

/-! ### The round trip -/

theorem addedContents_ne_nil : ∀ t ∈ addedContents, t.toList ≠ [] := by
  intro t ht
  obtain ⟨cs, hcs⟩ := exists_of_mem_addedContents ht
  simp [hcs]

/-- **Decoding undoes encoding.** For a program built from any vocabulary of the right size, any
normalisation and any split into ranges, the tokens of an input decode to its segments, plain ones
normalised; and to the input itself when its segments are normal already. -/
theorem decodeToBytes_encode {compile : String → Option Regex} {vocabulary : List String}
    {merges : List (String × String)} (hlen : vocabulary.length = baseVocabularySize)
    (hnew : TokenizerProgram.new compile vocabulary merges = .ok tokenizer)
    (hsplit : tokenizer.SplitsRanges) {input : String} {policy : SpecialTokenEncodePolicy}
    {ids : List ℕ} (h : tokenizer.encode nfc input limits policy = .ok ids) :
    ∃ segments, Decomposes addedContents input.toList segments ∧
      (∀ segments', Decomposes addedContents input.toList segments' → segments' = segments) ∧
      (∀ limits', Sufficient limits' ids (render nfc segments) →
        tokenizer.execution.decodeToBytes ids limits' .preserve = .ok (render nfc segments)) ∧
      ((∀ s, .plain s ∈ segments → nfc s = s) → render nfc segments = utf8 input.toList) := by
  have hwf := wellFormed_of_new hlen hnew
  obtain ⟨segments, hsegments, hids⟩ := (encode_ensures hwf hsplit input policy).of_ok h
  refine ⟨segments, hsegments, fun segments' h' => ?_, fun limits' hlimits => ?_, fun hnfc => ?_⟩
  · exact Decomposes.unique addedContents_ne_nil h' hsegments
  · exact decodeToBytes_eq_ok hids hlimits
  · exact hsegments.render_eq hnfc

/-- The symbols of all bytes, one merged token, and empty strings up to the size of the base
vocabulary. -/
def byteVocabulary : List String :=
  (List.range 256).map (fun n => String.singleton
      (Char.ofNat (byteToUnicodeCodepoint (UInt8.ofNat n)))) ++
    ("ab" :: List.replicate (baseVocabularySize - 257) "")

theorem length_byteVocabulary : byteVocabulary.length = baseVocabularySize := by
  rw [byteVocabulary, List.length_append, List.length_map, List.length_range, List.length_cons,
    List.length_replicate]
  decide

theorem mem_byteVocabulary {b : UInt8} {c : Char} (h : byteToUnicode b = some c) :
    String.singleton c ∈ byteVocabulary := by
  refine List.mem_append_left _ (List.mem_map.mpr ⟨b.toNat, List.mem_range.mpr b.toNat_lt, ?_⟩)
  rw [byteToUnicode] at h
  have hc := Json.Parser.charFromU32_eq_some.mp h
  rw [UInt8.ofNat_toNat, ← hc, Char.ofNat_toNat]

theorem accepts_byteVocabulary : Accepts byteVocabulary [("a", "b")] := by
  refine ⟨?_, fun b c h => mem_byteVocabulary h, fun token htoken => ?_, fun rule hrule => ?_⟩
  · rw [length_byteVocabulary]
    decide
  · rcases List.mem_append.mp htoken with h | h
    · obtain ⟨n, -, rfl⟩ := List.mem_map.mp h
      obtain ⟨c, hc, hb⟩ := exists_byteToUnicode (UInt8.ofNat n)
      have hnat := Json.Parser.charFromU32_eq_some.mp hc
      rw [← hnat, Char.ofNat_toNat, symbolBytes?_singleton hc]
      rfl
    · rcases List.mem_cons.mp h with rfl | h
      · rfl
      · rw [List.eq_of_mem_replicate h]
        rfl
  · obtain rfl := List.mem_singleton.mp hrule
    have ha : byteToUnicode 0x61 = some 'a' := by decide
    have hb : byteToUnicode 0x62 = some 'b' := by decide
    exact ⟨mem_byteVocabulary ha, mem_byteVocabulary hb,
      List.mem_append_right _ List.mem_cons_self, by decide⟩

/-- A regex whose only match is the whole text. -/
def wholeText : Regex := fun s => [(0, (utf8 s.toList).length)]

/-- A program of this vocabulary and its rule has the rule in its table. -/
theorem mergeRanks_of_new {compile : String → Option Regex}
    (hnew : TokenizerProgram.new compile byteVocabulary [("a", "b")] = .ok tokenizer) :
    ∃ a b ab, tokenizer.execution.byteTokenIds[0x61]? = some a ∧
      tokenizer.execution.byteTokenIds[0x62]? = some b ∧
      tokenizer.execution.mergeRanks.get? (toLex (a, b)) = some (0, ab) := by
  obtain ⟨tokenIds, -, h⟩ := bind_eq_ok.mp hnew
  obtain ⟨byteTokenIds, hbytes, h⟩ := bind_eq_ok.mp h
  obtain ⟨vocabularyBytes, -, h⟩ := bind_eq_ok.mp h
  obtain ⟨mergeRanks, hmerges, h⟩ := bind_eq_ok.mp h
  obtain ⟨regex, -, h⟩ := bind_eq_ok.mp h
  obtain rfl := Except.ok.inj h
  obtain ⟨_, a, hcharA, hgetA, ha⟩ := getElem?_byteTokenIds hbytes 0x61
  obtain ⟨_, b, hcharB, hgetB, hb⟩ := getElem?_byteTokenIds hbytes 0x62
  obtain rfl := Option.some.inj (hcharA.symm.trans (show byteToUnicode 0x61 = some 'a' by decide))
  obtain rfl := Option.some.inj (hcharB.symm.trans (show byteToUnicode 0x62 = some 'b' by decide))
  obtain ⟨_, hrule, hempty⟩ := bind_eq_ok.mp hmerges
  obtain rfl := Except.ok.inj hempty
  obtain ⟨left, hleft, hrule⟩ := bind_eq_ok.mp hrule
  obtain ⟨right, hright, hrule⟩ := bind_eq_ok.mp hrule
  obtain ⟨_, -, hrule⟩ := bind_eq_ok.mp hrule
  obtain ⟨ab, -, hrule⟩ := bind_eq_ok.mp hrule
  obtain rfl := Except.ok.inj hrule
  obtain rfl := Option.some.inj (hgetA.symm.trans (orErr_eq_ok.mp hleft))
  obtain rfl := Option.some.inj (hgetB.symm.trans (orErr_eq_ok.mp hright))
  exact ⟨a, b, ab, ha, hb, by rw [BTreeMap.get?_insert, if_pos rfl]⟩

/-! The charges of a run on `ab<think>` with any program that has this regex and this rule. -/

section Charges

variable {a b ab : ℕ}

theorem runBpe_ab {mergeRanks : MergeRanks}
    (hrule : mergeRanks.get? (toLex (a, b)) = some (0, ab)) :
    runBpe [a, b] mergeRanks { used := 349, limit := maxTokenizerWork } =
      .ok ([ab], { used := 1374, limit := maxTokenizerWork }) := by
  have hselect : selectMerge [a, b] mergeRanks { used := 349, limit := maxTokenizerWork } =
      .ok (some ⟨0, a, b, ab⟩, { used := 1373, limit := maxTokenizerWork }) := by
    have hcharge : chargeOrderedLookup { used := 349, limit := maxTokenizerWork } 4 4 =
      .ok { used := 1373, limit := maxTokenizerWork } := rfl
    rw [selectMerge, selectMergeFrom, hcharge, ok_bind, hrule]
    rfl
  have happly : applyMerge [a, b] ⟨0, a, b, ab⟩ { used := 1373, limit := maxTokenizerWork } =
      .ok ([ab], { used := 1374, limit := maxTokenizerWork }) := by
    have hcharge : WorkBudget.charge { used := 1373, limit := maxTokenizerWork } 1 =
      .ok { used := 1374, limit := maxTokenizerWork } := rfl
    rw [applyMerge, applyMergeFrom, hcharge, ok_bind, if_pos ⟨rfl, rfl⟩]
    rfl
  have hshort : [a, b].length > 1 := Nat.lt_succ_self 1
  show runBpeLoop mergeRanks 3 _ _ = _
  rw [runBpeLoop, if_pos hshort, hselect, ok_bind]
  simp only [happly, ok_bind]
  rfl

theorem encodePiece_ab {program : TokenizerExecutionProgram}
    (ha : program.byteTokenIds[0x61]? = some a) (hb : program.byteTokenIds[0x62]? = some b)
    (hrule : program.mergeRanks.get? (toLex (a, b)) = some (0, ab)) :
    program.encodePiece [0x61, 0x62] .m1 { used := 347, limit := maxTokenizerWork } [] =
      .ok ({ used := 1374, limit := maxTokenizerWork }, [ab]) := by
  have hsymbols : pieceSymbols program [0x61, 0x62] []
      { used := 347, limit := maxTokenizerWork } =
        .ok ([a, b], { used := 349, limit := maxTokenizerWork }) := by
    have hcharge₁ : WorkBudget.charge { used := 347, limit := maxTokenizerWork } 1 =
      .ok { used := 348, limit := maxTokenizerWork } := rfl
    have hcharge₂ : WorkBudget.charge { used := 348, limit := maxTokenizerWork } 1 =
      .ok { used := 349, limit := maxTokenizerWork } := rfl
    have h₁ : (0x61 : UInt8).toNat = 0x61 := rfl
    have h₂ : (0x62 : UInt8).toNat = 0x62 := rfl
    rw [pieceSymbols, hcharge₁, ok_bind, h₁, ha, orPanic, ok_bind, pieceSymbols, hcharge₂, ok_bind,
      h₂, hb, orPanic, ok_bind]
    rfl
  rw [TokenizerExecutionProgram.encodePiece, hsymbols, ok_bind]
  simp only [runBpe_ab hrule, ok_bind]
  rfl

theorem encodeNormalText_ab (hregex : tokenizer.splitRegex = wholeText)
    (ha : tokenizer.execution.byteTokenIds[0x61]? = some a)
    (hb : tokenizer.execution.byteTokenIds[0x62]? = some b)
    (hrule : tokenizer.execution.mergeRanks.get? (toLex (a, b)) = some (0, ab)) :
    tokenizer.encodeNormalText (fun s => s) "ab" .m1
      { used := 343, limit := maxTokenizerWork } [] =
        .ok ({ used := 1374, limit := maxTokenizerWork }, [ab]) := by
  have hmatches : encodeMatches tokenizer.execution [0x61, 0x62] .m1 [(0, 2)] 0
      { used := 345, limit := maxTokenizerWork } [] =
        .ok (2, { used := 1374, limit := maxTokenizerWork }, [ab]) := by
    have hpiece := encodePiece_ab ha hb hrule
    have hslice : slice? [(0x61 : UInt8), 0x62] 0 2 = some [0x61, 0x62] := rfl
    have hcharge : WorkBudget.charge { used := 345, limit := maxTokenizerWork } 2 =
      .ok { used := 347, limit := maxTokenizerWork } := rfl
    have hsub : checkedSub 2 0 = some 2 := rfl
    rw [encodeMatches, hsub, orErr, ok_bind, hcharge, ok_bind, encodeGap, if_neg (by simp)]
    simp only [ok_bind, hslice, orPanic, hpiece]
    rfl
  have hcollect : "ab".toList.foldlM collectNormalized
      ([], { used := 343, limit := maxTokenizerWork }) =
        .ok (['a', 'b'], { used := 345, limit := maxTokenizerWork }) := rfl
  have hbytes : utf8 ['a', 'b'] = [0x61, 0x62] := rfl
  have hwhole : wholeText (String.ofList ['a', 'b']) = [(0, 2)] := rfl
  rw [TokenizerProgram.encodeNormalText, hcollect, ok_bind]
  simp only [hregex, hwhole, hbytes, hmatches, ok_bind]
  rfl

theorem encode_ab_think (hwf : tokenizer.execution.WellFormed)
    (hregex : tokenizer.splitRegex = wholeText)
    (ha : tokenizer.execution.byteTokenIds[0x61]? = some a)
    (hb : tokenizer.execution.byteTokenIds[0x62]? = some b)
    (hrule : tokenizer.execution.mergeRanks.get? (toLex (a, b)) = some (0, ab)) :
    tokenizer.encode (fun s => s) "ab<think>" .m1 .allow = .ok [ab, 151667] := by
  have hfind : findAddedToken (utf8 "ab<think>".toList) 0 tokenizer.execution.addedTokens
      (WorkBudget.new TokenizerExecutionLimits.m1.work) =
        .ok (some { start := 2, offset := 24, tokenId := 151667 },
          { used := 343, limit := maxTokenizerWork }) := by
    rw [hwf.added]
    rfl
  have hslice : strSlice? (utf8 "ab<think>".toList) 0 2 = some "ab" :=
    strSlice?_utf8 [] ['a', 'b'] "<think>".toList
  have hadded : tokenizer.execution.addedTokens[24]? =
      some { bytes := utf8 "<think>".toList, special := false, tokenId := 151667 } := by
    rw [hwf.added]
    rfl
  have hnormal := encodeNormalText_ab hregex ha hb hrule
  have hloop : encodeLoop (fun s => s) tokenizer (utf8 "ab<think>".toList) .m1 .allow 10 0
      (WorkBudget.new TokenizerExecutionLimits.m1.work) [] = .ok [ab, 151667] := by
    rw [encodeLoop, if_pos (by decide), hfind, ok_bind]
    simp only [Option.map_some, Option.getD_some, hslice, orPanic, ok_bind, hnormal, hadded]
    rfl
  exact hloop

end Charges

/-- Nine bytes are encoded as two tokens, the first of them merged, and decoded again. -/
theorem decodeToBytes_encode_think : ∃ tokenizer ids,
    TokenizerProgram.new (fun _ => some wholeText) byteVocabulary [("a", "b")] = .ok tokenizer ∧
      tokenizer.encode (fun s => s) "ab<think>" .m1 .allow = .ok ids ∧ ids.length = 2 ∧
      tokenizer.execution.decodeToBytes ids .m1 .preserve = .ok (utf8 "ab<think>".toList) := by
  obtain ⟨tokenizer, hnew, hregex⟩ : ∃ t,
      TokenizerProgram.new (fun _ => some wholeText) byteVocabulary [("a", "b")] = .ok t ∧
        t.splitRegex = wholeText := exists_new accepts_byteVocabulary rfl
  obtain ⟨a, b, ab, ha, hb, hrule⟩ := mergeRanks_of_new hnew
  have hencode :=
    encode_ab_think (wellFormed_of_new length_byteVocabulary hnew) hregex ha hb hrule
  have hsplit : tokenizer.SplitsRanges := by
    intro s
    rw [hregex]
    exact ⟨le_rfl, Nat.zero_le _, le_rfl, trivial⟩
  obtain ⟨segments, -, -, hdecode, hrender⟩ :=
    decodeToBytes_encode length_byteVocabulary hnew hsplit hencode
  have hinput := hrender fun _ _ => rfl
  refine ⟨tokenizer, _, hnew, hencode, rfl, ?_⟩
  rw [← hinput]
  refine hdecode _ ?_
  rw [hinput]
  refine ⟨rfl, ?_, by decide, ?_⟩
  · show 2 ≤ maxTokenizerOutputTokens
    decide
  · show 2 + 9 ≤ maxTokenizerWork
    decide

end Tokenizer

end Ferric
