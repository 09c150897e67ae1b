import Ferric.Lib.PairMerging
import Ferric.Tokenizer.Bpe
import Mathlib.Data.Nat.Choose.Basic

/-!
# One pass for each rule

`run_bpe` selects the rule of lowest rank among the adjacent symbols, and then rewrites all of its
pairs in one pass from left to right. With a merge table whose rules come after the rules that make
their operands, this is the tokenizer that merges one pair at a time.

## Main definitions

* `rulesOf` — the rules of a merge table
* `Spends` — a call that charges a fixed amount of work, and fails only for lack of it

## Main results

* `runBpe_eq_leftmostMerges` — the loop, and what it costs
-/

namespace Ferric

namespace Tokenizer

open PairMerging

variable {mergeRanks : MergeRanks} {symbols merged : List ℕ} {selection : MergeSelection}

/-! ### Spending work -/

/-- The call charges `cost` in all and returns `a`, or fails because that is too much. -/
def Spends {α : Type} (call : WorkBudget → Result (α × WorkBudget)) (cost : ℕ) (a : α) : Prop :=
  ∀ work : WorkBudget, work.used ≤ work.limit → work.limit < 2 ^ 64 →
    call work =
      if work.used + cost ≤ work.limit then .ok (a, { work with used := work.used + cost })
      else .error (.err (.workLimit work.limit))

theorem charge_eq {work : WorkBudget} (amount : ℕ) (hlimit : work.limit < 2 ^ 64) :
    work.charge amount =
      if work.used + amount ≤ work.limit then .ok { work with used := work.used + amount }
      else .error (.err (.workLimit work.limit)) := by
  rw [WorkBudget.charge, checkedAdd]
  split
  · rw [orErr, ok_bind]
    split
    · next hle => rw [failIf_of_not (Nat.not_lt.mpr hle), ok_bind]; rfl
    · next hgt =>
      rw [failIf, if_pos (Nat.not_le.mp hgt)]
      rfl
  · next hover =>
    rw [if_neg (by omega)]
    rfl

theorem Spends.pure {α : Type} (a : α) : Spends (fun work => .ok (a, work)) 0 a :=
  fun work hvalid _ => by rw [Nat.add_zero, if_pos hvalid]

/-- A charge before a call. -/
theorem Spends.charge {α : Type} {call : WorkBudget → Result (α × WorkBudget)} {cost : ℕ} {a : α}
    (amount : ℕ) (h : Spends call cost a) :
    Spends (fun work => do let work ← work.charge amount; call work) (amount + cost) a := by
  intro work hvalid hlimit
  simp only [charge_eq amount hlimit]
  by_cases hle : work.used + amount ≤ work.limit
  · rw [if_pos hle, ok_bind, h { work with used := work.used + amount } hle hlimit, Nat.add_assoc]
  · rw [if_neg hle, if_neg (by omega)]
    rfl

/-- One call after another. -/
theorem Spends.bind {α β : Type} {call : WorkBudget → Result (α × WorkBudget)}
    {next : α → WorkBudget → Result (β × WorkBudget)} {cost cost' : ℕ} {a : α} {b : β}
    (h : Spends call cost a) (h' : Spends (next a) cost' b) :
    Spends (fun work => do let (x, work) ← call work; next x work) (cost + cost') b := by
  intro work hvalid hlimit
  simp only [h work hvalid hlimit]
  by_cases hle : work.used + cost ≤ work.limit
  · rw [if_pos hle, ok_bind]
    simp only
    rw [h' { work with used := work.used + cost } hle hlimit, Nat.add_assoc]
  · rw [if_neg hle, if_neg (by omega)]
    rfl

/-! ### Selecting and applying a rule -/

/-- The rules of a merge table. -/
def rulesOf (mergeRanks : MergeRanks) (left right : ℕ) : Option (ℕ × ℕ) :=
  mergeRanks.get? (toLex (left, right))

/-- A table is trained if its entries are. -/
theorem trained_of_entries
    (hlater : ∀ e ∈ mergeRanks.entries, ∀ e' ∈ mergeRanks.entries,
      e.2.2 = (ofLex e'.1).1 ∨ e.2.2 = (ofLex e'.1).2 → e.2.1 < e'.2.1)
    (hdistinct : ∀ e ∈ mergeRanks.entries, ∀ e' ∈ mergeRanks.entries, e.2.1 = e'.2.1 → e.1 = e'.1) :
    Trained (rulesOf mergeRanks) where
  later _ _ _ _ h _ _ _ _ h' :=
    hlater _ (BTreeMap.mem_entries.mpr h) _ (BTreeMap.mem_entries.mpr h')
  distinct _ _ _ _ _ _ _ h h' :=
    Prod.mk.inj (toLex.injective
      (hdistinct _ (BTreeMap.mem_entries.mpr h) _ (BTreeMap.mem_entries.mpr h') rfl))

/-- A selected rule. -/
def MergeSelection.toMerge (selection : MergeSelection) : Merge ℕ :=
  ⟨selection.left, selection.right, selection.rank, selection.resultId⟩

/-- A lookup of two ids. -/
theorem chargeOrderedLookup_eq (work : WorkBudget) :
    chargeOrderedLookup work 4 4 = work.charge 1024 := by
  have hpair : checkedAdd 64 4 4 = some 8 := checkedAdd_eq_some.mpr ⟨by omega, rfl⟩
  have hcharged : checkedMul 64 (max 8 1) orderedLookupComparisons = some 1024 :=
    if_pos (by rw [orderedLookupComparisons]; omega)
  rw [chargeOrderedLookup, hpair, orErr, ok_bind, hcharged, orErr, ok_bind]

/-- One comparison of the loop of `select_merge`. -/
theorem toMerge_preferMerge (best : Option MergeSelection) (left right : ℕ) :
    (preferMerge best (selectionFromRule left right (rulesOf mergeRanks left right))).map
        MergeSelection.toMerge =
      (ruleAt (rulesOf mergeRanks) (left, right)).toList.foldl
        (List.argAux fun b c => b.rank < c.rank) (best.map MergeSelection.toMerge) := by
  rw [ruleAt]
  cases rulesOf mergeRanks left right with
  | none => cases best <;> rfl
  | some rule =>
    cases best with
    | none => rfl
    | some current =>
      simp only [selectionFromRule, Option.map_some, preferMerge, Option.toList_some,
        List.foldl_cons, List.foldl_nil, List.argAux, MergeSelection.toMerge]
      split <;> rfl

/-- The loop of `select_merge` keeps the rule of lowest rank, and the first of equal ones. -/
theorem selectMergeFrom_spends (best : Option MergeSelection) :
    ∃ selected, Spends (selectMergeFrom mergeRanks symbols best) (1024 * (symbols.length - 1))
        selected ∧
      selected.map MergeSelection.toMerge =
        (candidates (rulesOf mergeRanks) symbols).foldl
          (List.argAux fun b c => b.rank < c.rank) (best.map MergeSelection.toMerge) := by
  induction symbols generalizing best with
  | nil => exact ⟨best, .pure best, rfl⟩
  | cons left symbols ih =>
    cases symbols with
    | nil => exact ⟨best, .pure best, rfl⟩
    | cons right rest =>
      obtain ⟨selected, hspends, hselected⟩ := ih
        (preferMerge best (selectionFromRule left right (rulesOf mergeRanks left right)))
      refine ⟨selected, ?_, ?_⟩
      · intro work hvalid hlimit
        have hcost : 1024 * ((left :: right :: rest).length - 1) =
            1024 + 1024 * ((right :: rest).length - 1) := by
          simp only [List.length_cons]
          omega
        rw [selectMergeFrom, chargeOrderedLookup_eq, hcost]
        exact hspends.charge 1024 work hvalid hlimit
      · rw [hselected, toMerge_preferMerge, ← List.foldl_append]
        refine congrArg (List.foldl _ _) ?_
        rw [candidates, candidates, pairs_cons_cons, List.filterMap_cons]
        cases ruleAt (rulesOf mergeRanks) (left, right) <;> rfl

/-- **Selecting.** The selected rule is the one to apply first. -/
theorem selectMerge_spends (mergeRanks : MergeRanks) (symbols : List ℕ) :
    ∃ selected, Spends (selectMerge symbols mergeRanks) (1024 * (symbols.length - 1)) selected ∧
      selected.map MergeSelection.toMerge = lowest (rulesOf mergeRanks) symbols :=
  selectMergeFrom_spends none

/-- **Applying.** The loop of `apply_merge` makes a pass, and charges each symbol it leaves. -/
theorem applyMergeFrom_spends : Spends (applyMergeFrom selection symbols merged)
    (selection.toMerge.all symbols).length (merged ++ selection.toMerge.all symbols) := by
  fun_induction Merge.all selection.toMerge symbols generalizing merged with
  | case1 symbol next rest hmatch ih =>
    have hmatch' : symbol = selection.left ∧ next = selection.right := hmatch
    have hrest : Spends (applyMergeFrom selection rest (merged ++ [selection.resultId])) _
        (merged ++ selection.resultId :: selection.toMerge.all rest) :=
      List.append_cons merged _ _ ▸ ih
    intro work hvalid hlimit
    rw [applyMergeFrom, List.length_cons, Nat.add_comm _ 1]
    simp only [if_pos hmatch']
    exact hrest.charge 1 work hvalid hlimit
  | case2 symbol next rest hno ih =>
    have hno' : ¬ (symbol = selection.left ∧ next = selection.right) := hno
    have hrest : Spends (applyMergeFrom selection (next :: rest) (merged ++ [symbol])) _
        (merged ++ symbol :: selection.toMerge.all (next :: rest)) :=
      List.append_cons merged _ _ ▸ ih
    intro work hvalid hlimit
    rw [applyMergeFrom, List.length_cons, Nat.add_comm _ 1]
    simp only [if_neg hno']
    exact hrest.charge 1 work hvalid hlimit
  | case3 rest hshort =>
    rcases rest with _ | ⟨symbol, _ | ⟨next, rest⟩⟩
    · exact (List.append_nil merged).symm ▸ Spends.pure merged
    · exact (Spends.pure (merged ++ [symbol])).charge 1
    · exact absurd rfl (hshort symbol next rest)

theorem applyMerge_spends : Spends (applyMerge symbols selection)
    (selection.toMerge.all symbols).length (selection.toMerge.all symbols) :=
  applyMergeFrom_spends

/-- No rule applies to a single symbol. -/
theorem lowest_of_length (h : ¬ symbols.length > 1) (rules : ℕ → ℕ → Option (ℕ × ℕ)) :
    lowest rules symbols = none := by
  rcases symbols with _ | ⟨symbol, _ | ⟨next, rest⟩⟩
  · rfl
  · rfl
  · exact absurd (by simp) h

/-- What `run_bpe` does with a selection. -/
def afterSelection (mergeRanks : MergeRanks) (fuel : ℕ) (symbols : List ℕ)
    (selected : Option MergeSelection) (work : WorkBudget) : Result (List ℕ × WorkBudget) := do
  match selected with
  | none => return (symbols, work)
  | some selection =>
    let (symbols, work) ← applyMerge symbols selection work
    runBpeLoop mergeRanks fuel symbols work

/-- A pass over `n + 1` symbols that leaves `m`, and passes over these. -/
theorem passes_le {n m cost : ℕ} (hm : m < n + 1) (hcost : cost ≤ 1025 * m.choose 2) :
    1024 * n + (m + cost) ≤ 1025 * (n + 1).choose 2 := by
  have hle : m ≤ n := Nat.le_of_lt_succ hm
  have hmono : m.choose 2 ≤ n.choose 2 := Nat.choose_le_choose 2 hle
  have hsucc : (n + 1).choose 2 = n + n.choose 2 := by
    rw [Nat.choose_succ_succ, Nat.choose_one_right]
  rw [hsucc]
  omega

/-- **The loop** spends an amount that depends on the table and the symbols, at most that of a
lookup and a charge for each two of them, and leads where the single merges lead. -/
theorem runBpeLoop_spends (h : Trained (rulesOf mergeRanks)) {fuel : ℕ}
    (hfuel : symbols.length < fuel) : ∃ cost ≤ 1025 * symbols.length.choose 2,
      Spends (runBpeLoop mergeRanks fuel symbols) cost
        (leftmostMerges (rulesOf mergeRanks) symbols) := by
  induction fuel generalizing symbols with
  | zero => omega
  | succ fuel ih =>
    by_cases hshort : symbols.length > 1
    · obtain ⟨n, hn⟩ : ∃ n, symbols.length = n + 1 := ⟨symbols.length - 1, by omega⟩
      obtain ⟨selected, hspends, hselected⟩ := selectMerge_spends mergeRanks symbols
      rw [hn, Nat.add_sub_cancel] at hspends
      cases selected with
      | none =>
        refine ⟨1024 * n + 0, ?_, fun work hvalid hlimit => ?_⟩
        · rw [hn, Nat.add_zero]
          exact passes_le (m := 0) (Nat.succ_pos n) (Nat.zero_le _)
        rw [runBpeLoop, if_pos hshort, leftmostMerges_eq_self hselected.symm]
        have hnext : Spends (afterSelection mergeRanks fuel symbols none) 0 symbols :=
          Spends.pure symbols
        exact hspends.bind hnext work hvalid hlimit
      | some selection =>
        have hlow : lowest (rulesOf mergeRanks) symbols = some selection.toMerge := hselected.symm
        have hlen := h.length_all hlow
        obtain ⟨cost, hcost, hloop⟩ := ih (Nat.lt_of_lt_of_le hlen (Nat.le_of_lt_succ hfuel))
        rw [h.leftmostMerges_all hlow] at hloop
        refine ⟨1024 * n + ((selection.toMerge.all symbols).length + cost), ?_,
          fun work hvalid hlimit => ?_⟩
        · rw [hn] at hlen ⊢
          exact passes_le hlen hcost
        rw [runBpeLoop, if_pos hshort]
        have hnext : Spends (afterSelection mergeRanks fuel symbols (some selection)) _ _ :=
          applyMerge_spends.bind hloop
        exact hspends.bind hnext work hvalid hlimit
    · refine ⟨0, Nat.zero_le _, fun work hvalid hlimit => ?_⟩
      rw [runBpeLoop, if_neg hshort, leftmostMerges_eq_self (lowest_of_length hshort _)]
      exact Spends.pure symbols work hvalid hlimit

/-- **BPE.** With a merge table whose rules come after the rules that make their operands, `run_bpe`
returns what merging the leftmost pair of lowest rank returns, one pair at a time until no rule
applies. It fails only if the work it needs is more than is left, and it needs at most 1025 for each
two of the symbols. -/
theorem runBpe_eq_leftmostMerges (h : Trained (rulesOf mergeRanks)) (symbols : List ℕ) :
    lowest (rulesOf mergeRanks) (leftmostMerges (rulesOf mergeRanks) symbols) = none ∧
      ∃ cost ≤ 1025 * symbols.length.choose 2,
        ∀ work : WorkBudget, work.used ≤ work.limit → work.limit < 2 ^ 64 →
          runBpe symbols mergeRanks work =
            if work.used + cost ≤ work.limit then
              .ok (leftmostMerges (rulesOf mergeRanks) symbols,
                { work with used := work.used + cost })
            else .error (.err (.workLimit work.limit)) :=
  ⟨lowest_leftmostMerges, runBpeLoop_spends h (Nat.lt_succ_self _)⟩

/-- A table with two rules: two zeros make a one, and a one and a zero make a two. -/
def smallTable : MergeRanks :=
  (BTreeMap.empty.insert (toLex (0, 0)) (0, 1)).insert (toLex (1, 0)) (1, 2)

theorem runBpe_eq_leftmostMerges_run :
    ∃ work, runBpe [0, 0, 0] smallTable (WorkBudget.new 3075) = .ok ([2], work) := by
  have htrained : Trained (rulesOf smallTable) :=
    trained_of_entries (by decide +kernel) (by decide +kernel)
  have hmerged : leftmostMerges (rulesOf smallTable) [0, 0, 0] = [2] := by decide +kernel
  have hbound : 1025 * [0, 0, 0].length.choose 2 = 3075 := rfl
  obtain ⟨-, cost, hcost, hrun⟩ := runBpe_eq_leftmostMerges htrained [0, 0, 0]
  have hok := hrun (WorkBudget.new 3075) (Nat.zero_le _) (by decide)
  rw [hbound] at hcost
  rw [if_pos ((Nat.zero_add cost).symm ▸ hcost), hmerged] at hok
  exact ⟨_, hok⟩

end Tokenizer

end Ferric
