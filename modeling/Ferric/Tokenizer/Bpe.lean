import Ferric.Tokenizer.Construction

/-!
# Pieces

A piece of normalised text becomes one symbol a byte, and symbols are merged as long as a rule
applies. Each step keeps what the symbols denote, so the tokens of a piece denote the piece. The
loop ends because a rule that was selected applies somewhere, and applying it makes the list
shorter.

## Main results

* `applyMerge_ensures` — one merge
* `runBpe_ensures` — the whole loop
* `encodePiece_ensures` — the tokens of a piece denote the piece
-/

namespace Ferric

namespace Tokenizer

variable {program : TokenizerExecutionProgram} {work : WorkBudget} {symbols merged output : List ℕ}
  {selection : MergeSelection} {mergeRanks : MergeRanks}

theorem charge_ensures (work : WorkBudget) (amount : ℕ) :
    Ensures (work.charge amount) (fun _ => True) fun _ => True := by
  rw [WorkBudget.charge]
  refine (ensures_orErr (Q := fun _ => True) (fun _ => trivial) fun _ _ => trivial).bind
    fun used _ _ => ?_
  exact (ensures_failIf (Q := fun _ => True) (fun _ => trivial) fun _ => trivial).bind
    fun _ _ _ => ensures_pure.mpr trivial

theorem ensures_of_chargeOrderedLookup {a b : ℕ} {x : Result WorkBudget}
    (h : chargeOrderedLookup work a b = x) : Ensures x (fun _ => True) fun _ => True := by
  rw [← h, chargeOrderedLookup]
  refine (ensures_orErr (Q := fun _ => True) (fun _ => trivial) fun _ _ => trivial).bind
    fun pair _ _ => ?_
  refine (ensures_orErr (Q := fun _ => True) (fun _ => trivial) fun _ _ => trivial).bind
    fun charged _ _ => ?_
  exact charge_ensures work charged

/-! ### Selecting a rule -/

/-- A rule that applies somewhere. -/
structure Applies (mergeRanks : MergeRanks) (symbols : List ℕ) (selection : MergeSelection) :
    Prop where
  rule : mergeRanks.get? (toLex (selection.left, selection.right)) =
    some (selection.rank, selection.resultId)
  adjacent : [selection.left, selection.right] <:+: symbols

theorem preferMerge_eq_some {best candidate : Option MergeSelection}
    (h : preferMerge best candidate = some selection) :
    best = some selection ∨ candidate = some selection := by
  match best, candidate, h with
  | none, _, h => exact .inr h
  | some _, none, h => exact .inl h
  | some _, some _, h =>
    rw [preferMerge] at h
    split at h
    · exact .inr h
    · exact .inl h

theorem selectMergeFrom_ensures (best : Option MergeSelection) :
    Ensures (selectMergeFrom mergeRanks symbols best work) (fun _ => True) fun r =>
      ∀ selection, r.1 = some selection →
        best = some selection ∨ Applies mergeRanks symbols selection := by
  fun_induction selectMergeFrom mergeRanks symbols best work with
  | case1 left right rest best work ih =>
    -- the charge is kept as a variable: its numerals are not to be computed with
    generalize hcharged : chargeOrderedLookup work 4 4 = charged
    refine (ensures_of_chargeOrderedLookup hcharged).bind fun work' _ _ => ?_
    refine (ih work').mono (fun _ _ => trivial) fun r _ h selection hr => ?_
    rcases h selection hr with hbest | ⟨hrule, hadj⟩
    · rcases preferMerge_eq_some hbest with hbest | hcand
      · exact .inl hbest
      · obtain ⟨⟨rank, result⟩, hget, rfl⟩ := Option.map_eq_some_iff.mp hcand
        exact .inr ⟨hget, [], rest, rfl⟩
    · exact .inr ⟨hrule, hadj.trans (List.suffix_cons left _).isInfix⟩
  | case2 symbols best work hshort =>
    exact fun selection hr => .inl hr

/-! ### Applying a rule -/

/-- What a program must know about a rule to apply it. -/
def Keeps (program : TokenizerExecutionProgram) (selection : MergeSelection) : Prop :=
  ∃ x y, program.tokenBytes? selection.left = some x ∧
    program.tokenBytes? selection.right = some y ∧
    program.tokenBytes? selection.resultId = some (x ++ y)

theorem decoded?_merge (h : Keeps program selection) (rest : List ℕ) :
    program.decoded? (selection.resultId :: rest) =
      program.decoded? (selection.left :: selection.right :: rest) := by
  obtain ⟨x, y, hx, hy, hxy⟩ := h
  simp only [TokenizerExecutionProgram.decoded?, hx, hy, hxy]
  cases program.decoded? rest <;> simp

theorem decoded?_cons_congr {id : ℕ} {ids ids' : List ℕ}
    (h : program.decoded? ids = program.decoded? ids') :
    program.decoded? (id :: ids) = program.decoded? (id :: ids') := by
  simp only [TokenizerExecutionProgram.decoded?, h]

theorem applyMergeFrom_ensures (h : Keeps program selection) :
    Ensures (applyMergeFrom selection symbols merged work) (fun _ => True) fun r =>
      ∃ out, r.1 = merged ++ out ∧ program.decoded? out = program.decoded? symbols ∧
        out.length ≤ symbols.length ∧
        ([selection.left, selection.right] <:+: symbols → out.length < symbols.length) := by
  fun_induction applyMergeFrom selection symbols merged work with
  | case1 merged work => exact ⟨[], by simp, rfl, le_rfl, fun h => by simpa using h.length_le⟩
  | case2 symbol merged work =>
    refine (charge_ensures work 1).bind fun work' _ _ => ?_
    exact ensures_pure.mpr ⟨[symbol], rfl, rfl, le_rfl, fun h => by simpa using h.length_le⟩
  | case3 symbol next rest merged work ihmerge ihskip =>
    refine (charge_ensures work 1).bind fun work' _ _ => ?_
    split
    next hmatch =>
      obtain ⟨rfl, rfl⟩ := hmatch
      refine (ihmerge work').mono (fun _ _ => trivial) ?_
      rintro r - ⟨out, hr, hdec, hlen, -⟩
      have hlt : (selection.resultId :: out).length <
          (selection.left :: selection.right :: rest).length := by
        simp only [List.length_cons]
        omega
      refine ⟨selection.resultId :: out, by simp [hr], ?_, le_of_lt hlt, fun _ => hlt⟩
      rw [decoded?_cons_congr hdec, decoded?_merge h]
    next hno =>
      refine (ihskip work').mono (fun _ _ => trivial) ?_
      rintro r - ⟨out, hr, hdec, hlen, hlt⟩
      refine ⟨symbol :: out, by simp [hr], decoded?_cons_congr hdec, ?_, fun hadj => ?_⟩
      · simpa using hlen
      · -- the rule does not apply here, so it applies further on
        have hrest : [selection.left, selection.right] <:+: next :: rest := by
          rcases List.infix_cons_iff.mp hadj with hpre | hin
          · obtain ⟨t, ht⟩ := hpre
            simp only [List.cons_append, List.nil_append, List.cons.injEq] at ht
            exact absurd ⟨ht.1.symm, ht.2.1.symm⟩ hno
          · exact hin
        simpa using hlt hrest

/-- One merge keeps what the symbols denote and makes them fewer. -/
theorem applyMerge_ensures (h : Keeps program selection)
    (hadj : [selection.left, selection.right] <:+: symbols) :
    Ensures (applyMerge symbols selection work) (fun _ => True) fun r =>
      program.decoded? r.1 = program.decoded? symbols ∧ r.1.length < symbols.length := by
  refine (applyMergeFrom_ensures h).mono (fun _ _ => trivial) ?_
  rintro r - ⟨out, hr, hdec, -, hlt⟩
  rw [List.nil_append] at hr
  rw [hr]
  exact ⟨hdec, hlt hadj⟩

/-! ### The loop -/

theorem runBpeLoop_ensures (hwf : program.WellFormed) {fuel : ℕ} (hf : symbols.length < fuel) :
    Ensures (runBpeLoop program.mergeRanks fuel symbols work) (fun _ => True) fun r =>
      program.decoded? r.1 = program.decoded? symbols := by
  induction fuel generalizing symbols work with
  | zero => omega
  | succ fuel ih =>
    rw [runBpeLoop]
    split
    · refine (selectMergeFrom_ensures none).bind ?_
      rintro ⟨selected, work₁⟩ - hsel
      cases selected with
      | none => exact ensures_pure.mpr rfl
      | some selection =>
        obtain ⟨hrule, hadj⟩ := (hsel selection rfl).resolve_left (by simp)
        have hkeeps : Keeps program selection := hwf.merge _ _ _ _ hrule
        refine (applyMerge_ensures hkeeps hadj).bind ?_
        rintro ⟨symbols', work₂⟩ - ⟨hdec, hlt⟩
        simp only at hlt
        refine (ih (by omega)).mono (fun _ _ => trivial) fun r _ hr => ?_
        exact hr.trans hdec
    · exact rfl

/-- Merging keeps what the symbols denote. -/
theorem runBpe_ensures (hwf : program.WellFormed) :
    Ensures (runBpe symbols program.mergeRanks work) (fun _ => True) fun r =>
      program.decoded? r.1 = program.decoded? symbols :=
  runBpeLoop_ensures hwf (Nat.lt_succ_self _)

/-! ### A piece -/

theorem pieceSymbols_ensures (hwf : program.WellFormed) (piece : List UInt8) :
    Ensures (pieceSymbols program piece symbols work) (fun _ => True) fun r =>
      ∃ ids, r.1 = symbols ++ ids ∧ program.decoded? ids = some piece := by
  induction piece generalizing symbols work with
  | nil => exact ⟨[], by simp, rfl⟩
  | cons b piece ih =>
    rw [pieceSymbols]
    refine (charge_ensures work 1).bind fun work' _ _ => ?_
    obtain ⟨id, hid, hb⟩ := hwf.byte b
    rw [hid]
    refine ih.mono (fun _ _ => trivial) ?_
    rintro r - ⟨ids, hr, hids⟩
    refine ⟨id :: ids, by simp [hr], ?_⟩
    exact decoded?_cons_eq_some.mpr ⟨[b], piece, hb, hids, rfl⟩

theorem pushToken_ensures (output : List ℕ) (token limit : ℕ) :
    Ensures (pushToken output token limit) (fun _ => True) fun r => r = output ++ [token] := by
  rw [pushToken]
  refine (ensures_orErr (Q := fun _ => True) (fun _ => trivial) fun _ _ => trivial).bind
    fun actual _ _ => ?_
  exact (ensures_failIf (Q := fun _ => True) (fun _ => trivial) fun _ => trivial).bind
    fun _ _ _ => ensures_pure.mpr rfl

/-- The tokens of a piece denote the piece. -/
theorem encodePiece_ensures (hwf : program.WellFormed) (piece : List UInt8)
    (limits : TokenizerExecutionLimits) :
    Ensures (program.encodePiece piece limits work output) (fun _ => True) fun r =>
      ∃ ids, r.2 = output ++ ids ∧ program.decoded? ids = some piece := by
  rw [TokenizerExecutionProgram.encodePiece]
  refine (pieceSymbols_ensures hwf piece).bind ?_
  rintro ⟨symbols, work₁⟩ - ⟨ids, hids, hdec⟩
  obtain rfl : symbols = ids := hids
  refine (runBpe_ensures hwf).bind ?_
  rintro ⟨merged, work₂⟩ - hmerged
  refine (ensures_foldlM (d := []) (I := fun done _ out => out = output ++ done) (by simp) ?_).bind
    fun output' _ houtput => ?_
  · rintro done token rest out rfl
    refine (pushToken_ensures _ _ _).mono (fun _ _ => trivial) fun r _ hr => ?_
    rw [hr, List.append_assoc]
  · refine ensures_pure.mpr ⟨merged, by simpa using houtput, ?_⟩
    exact hmerged.trans hdec

end Tokenizer

end Ferric
