import Ferric.Tokenizer.Bpe

/-!
# Segments

An input is cut at the occurrences of added tokens: at the leftmost one, and of those that start
there at the longest, then again in what follows. `Decomposes` says this about texts, with no cursor
and no bytes, and determines the segments. `find_added_token` finds the first of these occurrences
in the bytes of a text.

## Main definitions

* `Decomposes tokens text segments` — the segments of a text
* `render` — the bytes of segments, plain ones normalised

## Main results

* `Decomposes.unique` — a text has one decomposition at most
* `findAddedToken_ensures` — the first occurrence, by its characters
-/

namespace Ferric

namespace Tokenizer

/-! ### Decompositions -/

/-- A part of an input. -/
inductive Segment where
  | plain (text : String)
  | added (content : String)

/-- `token` occurs in `text ++ token ++ rest` after `text`; no token of the list occurs earlier, and
none that occurs at the same place is longer. -/
structure FirstOccurrence (tokens : List String) (text : List Char) (token : String)
    (rest : List Char) : Prop where
  mem : token ∈ tokens
  leftmost : ∀ a b, text = a ++ b → b ≠ [] →
    ∀ t ∈ tokens, ¬ t.toList <+: b ++ (token.toList ++ rest)
  longest : ∀ t ∈ tokens, t.toList <+: token.toList ++ rest → t.toList.length ≤ token.toList.length

/-- The segments of a text. There is a plain one, possibly empty, before each added token, and
another one at the end if the text goes on. -/
inductive Decomposes (tokens : List String) : List Char → List Segment → Prop
  | nil : Decomposes tokens [] []
  | plain {text : List Char} (hne : text ≠ []) (h : ∀ t ∈ tokens, ¬ t.toList <:+: text) :
      Decomposes tokens text [.plain (String.ofList text)]
  | added {text rest : List Char} {token : String} {segments : List Segment}
      (hfirst : FirstOccurrence tokens text token rest) (h : Decomposes tokens rest segments) :
      Decomposes tokens (text ++ (token.toList ++ rest))
        (.plain (String.ofList text) :: .added token :: segments)

/-- The bytes of segments, with plain text normalised. -/
def render (nfc : String → String) (segments : List Segment) : List UInt8 :=
  segments.flatMap fun
    | .plain text => utf8 (nfc text).toList
    | .added content => utf8 content.toList

variable {tokens : List String} {text rest : List Char} {token : String} {segments : List Segment}
  {nfc : String → String}

/-- Nothing is lost: without normalisation the segments are the text. -/
theorem Decomposes.render_eq (h : Decomposes tokens text segments)
    (hnfc : ∀ s, .plain s ∈ segments → nfc s = s) : render nfc segments = utf8 text := by
  induction h with
  | nil => rfl
  | plain hne h => simp [render, hnfc _ List.mem_cons_self]
  | @added text rest token segments hfirst h ih =>
    have hrest := ih fun s hs => hnfc s (.tail _ (.tail _ hs))
    rw [render] at hrest
    simp [render, hnfc _ List.mem_cons_self, hrest]

theorem isInfix_append (text : List Char) (token : String) (rest : List Char) :
    token.toList <:+: text ++ (token.toList ++ rest) :=
  ⟨text, rest, by simp⟩

theorem FirstOccurrence.length_le {text' rest' : List Char} {token' : String}
    (h : FirstOccurrence tokens text token rest) (h' : FirstOccurrence tokens text' token' rest')
    (heq : text ++ (token.toList ++ rest) = text' ++ (token'.toList ++ rest')) :
    text'.length ≤ text.length := by
  rcases List.append_eq_append_iff.mp heq with ⟨b, rfl, hb⟩ | ⟨b, rfl, -⟩
  · -- the other occurrence is later, unless nothing lies between them
    cases b with
    | nil => simp
    | cons c b =>
      refine absurd ?_ (h'.leftmost text (c :: b) rfl (by simp) token h.mem)
      rw [← hb]
      exact List.prefix_append _ _
  · simp

/-- Two first occurrences in one text are the same. -/
theorem FirstOccurrence.unique {text' rest' : List Char} {token' : String}
    (h : FirstOccurrence tokens text token rest) (h' : FirstOccurrence tokens text' token' rest')
    (heq : text ++ (token.toList ++ rest) = text' ++ (token'.toList ++ rest')) :
    text = text' ∧ token = token' ∧ rest = rest' := by
  have hlen : text.length = text'.length :=
    le_antisymm (h'.length_le h heq.symm) (h.length_le h' heq)
  obtain ⟨rfl, htail⟩ := List.append_inj heq hlen
  have hlong : token.toList.length = token'.toList.length := le_antisymm
    (h'.longest token h.mem (htail ▸ List.prefix_append _ _))
    (h.longest token' h'.mem (htail ▸ List.prefix_append _ _))
  obtain ⟨htoken, rfl⟩ := List.append_inj htail hlong
  exact ⟨rfl, String.toList_inj.mp htoken, rfl⟩

/-- A text has one decomposition at most, when no token is empty. -/
theorem Decomposes.unique (hne : ∀ t ∈ tokens, t.toList ≠ []) {segments' : List Segment}
    (h : Decomposes tokens text segments) (h' : Decomposes tokens text segments') :
    segments = segments' := by
  induction h generalizing segments' with
  | nil =>
    generalize ht : ([] : List Char) = text at h'
    cases h' with
    | nil => rfl
    | plain hne' _ => exact absurd ht.symm hne'
    | added hfirst _ =>
      have := hne _ hfirst.mem
      simp_all
  | @plain text hplain hno =>
    generalize ht : text = text' at h'
    cases h' with
    | nil => exact absurd ht hplain
    | plain _ _ => rfl
    | added hfirst _ => exact absurd (ht ▸ isInfix_append _ _ _) (hno _ hfirst.mem)
  | @added text rest token segments hfirst h ih =>
    generalize ht : text ++ (token.toList ++ rest) = text' at h'
    cases h' with
    | nil =>
      have := hne _ hfirst.mem
      simp_all
    | plain _ hno => exact absurd (ht ▸ isInfix_append _ _ _) (hno _ hfirst.mem)
    | added hfirst' h' =>
      obtain ⟨rfl, rfl, rfl⟩ := hfirst.unique hfirst' ht
      rw [ih h']

/-! ### Finding the first occurrence -/

variable {addedTokens : List AddedTokenProgram} {start : ℕ} {bytes : List UInt8} {work : WorkBudget}

/-- The best match at a place among the tokens seen so far. -/
def BestMatch (addedTokens : List AddedTokenProgram) (start : ℕ) (bytes : List UInt8)
    (seen : List (AddedTokenProgram × ℕ)) : Option AddedTokenMatch → Prop
  | none => ∀ e ∈ seen, ¬ e.1.bytes <+: bytes
  | some found => found.start = start ∧ ∃ added, addedTokens[found.offset]? = some added ∧
      added.bytes <+: bytes ∧
      ∀ e ∈ seen, e.1.bytes <+: bytes → e.1.bytes.length ≤ added.bytes.length

theorem betterMatch_ensures {seen : List (AddedTokenProgram × ℕ)} {e : AddedTokenProgram × ℕ}
    {state : Option AddedTokenMatch × WorkBudget} (he : addedTokens[e.2]? = some e.1)
    (h : BestMatch addedTokens start bytes seen state.1) :
    Ensures (betterMatch addedTokens start bytes state e) (fun _ => True) fun r =>
      BestMatch addedTokens start bytes (seen ++ [e]) r.1 := by
  obtain ⟨best, work⟩ := state
  obtain ⟨added, offset⟩ := e
  rw [betterMatch]
  refine (charge_ensures work _).bind fun work' _ _ => ?_
  simp only [bytesMatch, List.isPrefixOf_iff_prefix]
  split
  next hno =>
    -- the token is not there: the best match stays the best
    refine ensures_pure.mpr ?_
    cases best with
    | none => simpa [BestMatch, or_imp, forall_and, hno] using h
    | some found =>
      obtain ⟨hstart, cur, hcur, hmatch, hbest⟩ := h
      refine ⟨hstart, cur, hcur, hmatch, fun e he hpre => ?_⟩
      rcases List.mem_append.mp he with he | he
      · exact hbest e he hpre
      · obtain rfl := List.mem_singleton.mp he
        exact absurd hpre hno
  next hyes =>
    rw [not_not] at hyes
    cases best with
    | none =>
      refine ensures_pure.mpr ⟨rfl, added, he, hyes, fun e he hpre => ?_⟩
      rcases List.mem_append.mp he with he | he
      · exact absurd hpre (h e he)
      · obtain rfl := List.mem_singleton.mp he
        exact le_rfl
    | some found =>
      obtain ⟨hstart, cur, hcur, hmatch, hbest⟩ := h
      simp only [hcur, orPanic, ok_bind]
      split
      next hlonger =>
        refine ensures_pure.mpr ⟨rfl, added, he, hyes, fun e he hpre => ?_⟩
        rcases List.mem_append.mp he with he | he
        · have := hbest e he hpre
          omega
        · obtain rfl := List.mem_singleton.mp he
          exact le_rfl
      next hshorter =>
        refine ensures_pure.mpr ⟨hstart, cur, hcur, hmatch, fun e he hpre => ?_⟩
        rcases List.mem_append.mp he with he | he
        · exact hbest e he hpre
        · obtain rfl := List.mem_singleton.mp he
          simp only at hshorter ⊢
          omega

theorem foldlM_betterMatch_ensures :
    Ensures (addedTokens.zipIdx.foldlM (betterMatch addedTokens start bytes) (none, work))
      (fun _ => True) fun r => BestMatch addedTokens start bytes addedTokens.zipIdx r.1 := by
  refine (ensures_foldlM (d := [])
    (I := fun seen left (state : Option AddedTokenMatch × WorkBudget) =>
      seen ++ left = addedTokens.zipIdx ∧ BestMatch addedTokens start bytes seen state.1)
    (E := fun _ => True) ⟨rfl, by simp [BestMatch]⟩ ?_).mono (fun _ h => h) fun r _ h => h.2
  rintro seen e left state ⟨hall, hbest⟩
  have he : addedTokens[e.2]? = some e.1 :=
    List.mem_zipIdx_iff_getElem?.mp (by rw [← hall]; simp)
  refine (betterMatch_ensures he hbest).mono (fun _ _ => trivial) fun r _ h => ?_
  exact ⟨by simpa using hall, h⟩

/-- Where `find_added_token` stops in the bytes that are left. -/
def Found (addedTokens : List AddedTokenProgram) (start : ℕ) (bytes : List UInt8) :
    Option AddedTokenMatch → Prop
  | none => ∀ pre post, bytes = pre ++ post → post ≠ [] → ∀ a ∈ addedTokens, ¬ a.bytes <+: post
  | some found => ∃ pre post added, bytes = pre ++ post ∧ found.start = start + pre.length ∧
      addedTokens[found.offset]? = some added ∧ added.bytes <+: post ∧
      (∀ x y, pre = x ++ y → y ≠ [] → ∀ a ∈ addedTokens, ¬ a.bytes <+: y ++ post) ∧
      ∀ a ∈ addedTokens, a.bytes <+: post → a.bytes.length ≤ added.bytes.length

theorem Found.cons {b : UInt8} {next : Option AddedTokenMatch}
    (hb : ∀ a ∈ addedTokens, ¬ a.bytes <+: b :: bytes)
    (h : Found addedTokens (start + 1) bytes next) : Found addedTokens start (b :: bytes) next := by
  cases next with
  | none =>
    intro pre post heq hne a ha
    cases pre with
    | nil =>
      rw [List.nil_append] at heq
      exact heq ▸ hb a ha
    | cons x pre =>
      obtain ⟨-, heq⟩ := List.cons.inj heq
      exact h pre post heq hne a ha
  | some found =>
    obtain ⟨pre, post, added, rfl, hstart, hget, hmatch, hleft, hlong⟩ := h
    refine ⟨b :: pre, post, added, rfl, ?_, hget, hmatch, fun x y heq hne a ha => ?_, hlong⟩
    · rw [hstart, List.length_cons]
      omega
    · cases x with
      | nil =>
        rw [List.nil_append] at heq
        exact heq ▸ hb a ha
      | cons c x =>
        obtain ⟨-, heq⟩ := List.cons.inj heq
        exact hleft x y heq hne a ha

theorem findFrom_ensures (hfirst : ∀ a ∈ addedTokens, ∃ t, a.bytes = 0x3c :: t) :
    Ensures (findFrom addedTokens start bytes work) (fun _ => True) fun r =>
      Found addedTokens start bytes r.1 := by
  induction bytes generalizing start work with
  | nil =>
    intro pre post heq hne
    simp_all
  | cons b bytes ih =>
    rw [findFrom]
    refine (charge_ensures work 1).bind fun work₁ _ _ => ?_
    split
    next hb =>
      refine foldlM_betterMatch_ensures.bind ?_
      rintro ⟨best, work₂⟩ - hbest
      cases best with
      | some found =>
        obtain ⟨hstart, added, hget, hmatch, hlong⟩ := hbest
        refine ensures_pure.mpr ⟨[], b :: bytes, added, rfl, hstart, hget, hmatch, ?_, ?_⟩
        · intro x y heq hne
          simp_all
        · intro a ha
          obtain ⟨i, hi⟩ := List.mem_iff_getElem?.mp ha
          exact hlong (a, i) (List.mem_zipIdx_iff_getElem?.mpr hi)
      | none =>
        refine ih.mono (fun _ _ => trivial) fun r _ h => h.cons fun a ha => ?_
        obtain ⟨i, hi⟩ := List.mem_iff_getElem?.mp ha
        exact hbest (a, i) (List.mem_zipIdx_iff_getElem?.mpr hi)
    next hb =>
      refine ih.mono (fun _ _ => trivial) fun r _ h => h.cons fun a ha hpre => ?_
      obtain ⟨t, ht⟩ := hfirst a ha
      rw [ht] at hpre
      exact hb (List.cons_prefix_cons.mp hpre).1.symm

/-! ### The table -/

/-- The contents of the added tokens. -/
def addedContents : List String := Tokenizer.addedTokens.map Prod.fst

theorem exists_of_mem_addedContents {t : String} (h : t ∈ addedContents) :
    ∃ cs, t.toList = '<' :: cs := by
  have hall : ∀ t ∈ addedContents, t.toList.head? = some '<' := by decide
  exact List.head?_eq_some_iff.mp (hall t h)

variable {program : TokenizerExecutionProgram} {added : AddedTokenProgram} {offset : ℕ}

/-- An added token of a program: its content and what its id denotes. -/
theorem exists_of_getElem?_addedTokens (hwf : program.WellFormed)
    (h : program.addedTokens[offset]? = some added) :
    ∃ token ∈ addedContents, added.bytes = utf8 token.toList ∧
      program.tokenBytes? added.tokenId = some added.bytes := by
  have hget := h
  rw [hwf.added, List.getElem?_map, Option.map_eq_some_iff] at h
  obtain ⟨⟨⟨content, special⟩, i⟩, he, rfl⟩ := h
  obtain ⟨hentry, rfl⟩ : Tokenizer.addedTokens[offset]? = some (content, special) ∧ offset = i := by
    have hmem := List.mem_zipIdx_iff_getElem?.mp (List.mem_of_getElem? he)
    rw [List.getElem?_zipIdx, Option.map_eq_some_iff] at he
    obtain ⟨e, -, heq⟩ := he
    obtain ⟨-, rfl⟩ := Prod.mk.inj heq
    exact ⟨by simpa using hmem, (Nat.zero_add offset).symm⟩
  refine ⟨content, List.mem_map_of_mem (List.mem_of_getElem? hentry), rfl, ?_⟩
  have hge : ¬ baseVocabularySize + offset < baseVocabularySize := by omega
  rw [TokenizerExecutionProgram.tokenBytes?]
  simp only [addedTokenProgram, if_neg hge, Nat.add_sub_cancel_left]
  rw [hget]
  rfl

theorem exists_mem_addedTokens (hwf : program.WellFormed) {t : String} (h : t ∈ addedContents) :
    ∃ a ∈ program.addedTokens, a.bytes = utf8 t.toList := by
  obtain ⟨⟨content, special⟩, he, rfl⟩ := List.mem_map.mp h
  obtain ⟨i, hi⟩ := List.mem_iff_getElem?.mp he
  refine ⟨addedTokenProgram ((content, special), i), ?_, rfl⟩
  rw [hwf.added]
  exact List.mem_map_of_mem (List.mem_zipIdx_iff_getElem?.mpr hi)

theorem bytes_eq_cons (hwf : program.WellFormed) (h : added ∈ program.addedTokens) :
    ∃ t, added.bytes = 0x3c :: t := by
  obtain ⟨i, hi⟩ := List.mem_iff_getElem?.mp h
  obtain ⟨token, hmem, hbytes, -⟩ := exists_of_getElem?_addedTokens hwf hi
  obtain ⟨cs, hcs⟩ := exists_of_mem_addedContents hmem
  exact ⟨utf8 cs, by rw [hbytes, hcs]; rfl⟩

theorem utf8_isPrefix {cs ds : List Char} (h : cs <+: ds) : utf8 cs <+: utf8 ds := by
  obtain ⟨es, rfl⟩ := h
  exact ⟨utf8 es, by rw [utf8_append]⟩

/-- What `find_added_token` says about the characters after the cursor. -/
def FoundToken (program : TokenizerExecutionProgram) (done text : List Char) :
    Option AddedTokenMatch → Prop
  | none => ∀ t ∈ addedContents, ¬ t.toList <:+: text
  | some found => ∃ before token rest added, text = before ++ (token.toList ++ rest) ∧
      FirstOccurrence addedContents before token rest ∧
      found.start = (utf8 (done ++ before)).length ∧
      program.addedTokens[found.offset]? = some added ∧ added.bytes = utf8 token.toList ∧
      program.tokenBytes? added.tokenId = some added.bytes

theorem foundToken_of_found (hwf : program.WellFormed) {done text : List Char}
    {next : Option AddedTokenMatch}
    (h : Found program.addedTokens (utf8 done).length (utf8 text) next) :
    FoundToken program done text next := by
  cases next with
  | none =>
    rintro t ht ⟨before, after, rfl⟩
    obtain ⟨a, ha, hbytes⟩ := exists_mem_addedTokens hwf ht
    obtain ⟨cs, hcs⟩ := exists_of_mem_addedContents ht
    refine h (utf8 before) (utf8 (t.toList ++ after)) (by simp) ?_ a ha ?_
    · obtain ⟨f, tail, hf, -⟩ := exists_utf8EncodeChar '<'
      simp [hcs, hf]
    · rw [hbytes]
      exact utf8_isPrefix (List.prefix_append _ _)
  | some found =>
    obtain ⟨pre, post, added, hsplit, hstart, hget, ⟨tail, htail⟩, hleft, hlong⟩ := h
    obtain ⟨token, hmem, hbytes, hdenotes⟩ := exists_of_getElem?_addedTokens hwf hget
    obtain ⟨t, ht⟩ := bytes_eq_cons hwf (List.mem_of_getElem? hget)
    -- the match starts with `<`, so it starts between two characters
    have hpost : post = 0x3c :: (t ++ tail) := by rw [← htail, ht]; rfl
    have hnot : ¬ IsCont 0x3c := by
      rw [IsCont]
      decide
    obtain ⟨before, cs, rfl, rfl, hcs⟩ := exists_split_of_not_isCont (hpost ▸ hsplit) hnot
    have hrest : utf8 token.toList ++ tail = utf8 cs := by rw [← hbytes, htail, hpost, hcs]
    obtain ⟨rest, rfl, -⟩ := utf8_append_eq hrest
    rw [← hpost] at hcs
    have hlen {t : String} (ht : t ∈ addedContents) : t.toList.length = (utf8 t.toList).length := by
      have hall : ∀ t ∈ addedContents, t.toList.length = (utf8 t.toList).length := by decide
      exact hall t ht
    refine ⟨before, token, rest, added, rfl, ⟨hmem, ?_, ?_⟩, ?_, hget, hbytes, hdenotes⟩
    · rintro x y rfl hne t ht hpre
      obtain ⟨a, ha, habytes⟩ := exists_mem_addedTokens hwf ht
      refine hleft (utf8 x) (utf8 y) (by simp) ?_ a ha ?_
      · intro hnil
        exact hne (utf8_injective hnil)
      · rw [habytes, hcs, ← utf8_append]
        exact utf8_isPrefix hpre
    · intro t ht hpre
      obtain ⟨a, ha, habytes⟩ := exists_mem_addedTokens hwf ht
      have := hlong a ha (by rw [habytes, hcs]; exact utf8_isPrefix hpre)
      rw [hlen ht, hlen hmem, ← habytes, ← hbytes]
      exact this
    · rw [hstart, utf8_append, List.length_append]

/-- The first occurrence of an added token after the cursor. -/
theorem findAddedToken_ensures (hwf : program.WellFormed) (done text : List Char) :
    Ensures (findAddedToken (utf8 (done ++ text)) (utf8 done).length program.addedTokens work)
      (fun _ => True) fun r => FoundToken program done text r.1 := by
  rw [findAddedToken, utf8_append, List.drop_left]
  refine (findFrom_ensures fun a ha => bytes_eq_cons hwf ha).mono (fun _ _ => trivial) ?_
  rintro r - h
  exact foundToken_of_found hwf h

end Tokenizer

end Ferric
