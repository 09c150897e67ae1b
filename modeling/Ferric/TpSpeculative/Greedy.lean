import Ferric.TpSpeculative.Owner

/-!
# Speculative decoding is greedy decoding

The target model, as far as the pair can see it, is a function `g` from a sequence of tokens to the
next one: a target result is *faithful* to `g` if every choice is what `g` says of the committed
tokens and the row inputs up to that row. Decoding greedily means appending `g` of everything so
far, over and over.

Whatever the candidates are and wherever they come from, the committed target tokens and the anchor
behind them are such a greedy stream, and each settlement extends it by the tokens it emits.

## Main definitions

* `greedy` — the greedy stream
* `Faithful` — results that the target model has computed
* `greedySystem` — runs whose target results are faithful

## Main results

* `greedy_of_reachable`
-/

namespace Ferric

namespace TpSpeculative

open TpPaged TpPaged.PagedPool Ferric.Action

open Spec hiding Token

/-- The first `n` greedy steps from a start. -/
def greedy (g : List Token → Token) (start : List Token) : ℕ → List Token
  | 0 => start
  | n + 1 => greedy g start n ++ [g (greedy g start n)]

variable {g : List Token → Token} {start : List Token}

/-- Tokens that are each what `g` says of everything before them extend the stream. -/
theorem greedy_append {n : ℕ} {stream more : List Token} (h : greedy g start n = stream)
    (hmore : ∀ i token, more[i]? = some token → token = g (stream ++ more.take i)) :
    greedy g start (n + more.length) = stream ++ more := by
  suffices hk : ∀ k ≤ more.length, greedy g start (n + k) = stream ++ more.take k by
    rw [hk _ (Nat.le_refl _), List.take_length]
  intro k hk
  induction k with
  | zero => simpa using h
  | succ k ih =>
    have hget := List.getElem?_eq_getElem (show k < more.length by omega)
    have htoken := hmore k _ hget
    rw [← Nat.add_assoc, greedy, ih (by omega), ← htoken, List.take_add_one, hget,
      List.append_assoc]
    rfl

namespace SpeculativeKv

variable {s s' : SpeculativeKv}

/-- Every choice is what `g` says of the committed tokens and the row inputs up to its row. -/
def Faithful (g : List Token → Token) (s : SpeculativeKv) (result : TargetResult) : Prop :=
  ∀ i token, result.choices[i]? = some token →
    token = g (s.targetTokens ++ (result.rows.take (i + 1)).map (·.token))

/-- Runs in which every target result that is recorded is faithful. The second component is the
start of the stream, and does not change. -/
def greedySystem (g : List Token → Token) : System (SpeculativeKv × List Token) Call where
  init x := Initial x.1 ∧ x.2 = x.1.targetTokens ++ [x.1.anchor]
  step x c x' := x' = (((call c).exec x.1).2, x.2) ∧
    ∀ result, c = .recordTarget result → (∃ reply, ((call c).exec x.1).1 = .ok reply) →
      Faithful g x.1 result

/-- The committed tokens and the anchor are a greedy stream, and so are the choices in hand. -/
structure GreedyInv (g : List Token → Token) (start : List Token) (s : SpeculativeKv) : Prop where
  inv : PairInv s
  stream : ∃ n, s.targetTokens ++ [s.anchor] = greedy g start n
  chosen : ∀ round result, s.phase = .round round → round.targetResult = some result →
    ∀ i token, result.choices[i]? = some token →
      token = g (s.targetTokens ++ round.index.inputs.take (i + 1))

theorem Frame.targetTokens (h : Frame s s') : s'.targetTokens = s.targetTokens := by
  rw [SpeculativeKv.targetTokens, tokensOf, h.target, h.targetSequence]
  rfl

/-- A call that keeps the target state and carries its results keeps the stream. -/
theorem GreedyInv.carried (h : GreedyInv g start s) (hinv : PairInv s') (hf : Frame s s')
    (hc : Carries s s') : GreedyInv g start s' where
  inv := hinv
  stream := by
    rw [hf.targetTokens, hf.anchor]
    exact h.stream
  chosen round' result hp hr i token htoken := by
    obtain ⟨round, hp₀, hr₀, hindex⟩ := hc round' result hp hr
    rw [hf.targetTokens, hindex]
    exact h.chosen round result hp₀ hr₀ i token htoken

/-- Recording a faithful result. -/
theorem GreedyInv.recorded {result : TargetResult} {round : Round} (h : GreedyInv g start s)
    (hd : Done s s') (hc : TargetChecked s result round)
    (hp : s'.phase = .round { round with targetResult := some result })
    (hg : Faithful g s result) : GreedyInv g start s' where
  inv := hd.inv
  stream := by
    rw [hd.frame.targetTokens, hd.frame.anchor]
    exact h.stream
  chosen round' result' hp' hr i token htoken := by
    obtain rfl := Phase.round.inj (hp.symm.trans hp')
    obtain rfl := Option.some.inj hr
    have hround := (phaseInv_round hc.phase).mp h.inv.phase
    have hrows : result.rows = _ := hc.rows.trans hround.target.rows
    have := hg i token htoken
    rwa [hrows, List.map_take, map_token_rowsAt, ← hd.frame.targetTokens] at this

/-- **What a settlement emits.** The stream grows by the emitted tokens: the accepted candidates and
the target's own next choice. -/
theorem SettledInv.emitted {receipt : Settlement} (h : SettledInv s receipt s') (hs : PairInv s) :
    s'.targetTokens ++ [s'.anchor] =
        s.targetTokens ++ [s.anchor] ++ receipt.commit.emittedTokens ∧
      receipt.commit.emittedTokens.length = receipt.commit.acceptedDraftTokens + 1 := by
  obtain ⟨round, result, hp, -, hv, htokens⟩ := h.round
  have hround := (phaseInv_round hp).mp hs.phase
  have hle := hv.accepted_le
  constructor
  · rw [htokens, h.anchor, hv.emitted, RoundIndex.inputs, List.take_succ_cons, hround.anchor]
    simp
  · rw [hv.emitted, List.length_append, List.length_take, List.length_singleton]
    omega

/-- The emitted tokens are greedy. -/
theorem GreedyInv.settled {receipt : Settlement} (h : GreedyInv g start s)
    (hs : SettledInv s receipt s') : GreedyInv g start s' where
  inv := hs.inv
  stream := by
    obtain ⟨n, hn⟩ := h.stream
    obtain ⟨round, result, hp, hr, hv, -⟩ := hs.round
    have hround := (phaseInv_round hp).mp h.inv.phase
    have hle := hv.accepted_le
    obtain ⟨hemitted, -⟩ := hs.emitted h.inv
    refine ⟨n + receipt.commit.emittedTokens.length, ?_⟩
    rw [hemitted, greedy_append hn.symm fun i token htoken => ?_]
    -- Both accepted candidates and the correction are choices of the target.
    have hchoice : i ≤ receipt.commit.acceptedDraftTokens ∧ result.choices[i]? = some token := by
      rw [hv.emitted, List.getElem?_append, List.length_take, Nat.min_eq_left hle] at htoken
      split at htoken
      · next hi =>
        rw [List.getElem?_take_of_lt hi, hv.agree i hi] at htoken
        exact ⟨hi.le, htoken⟩
      · have hi : i = receipt.commit.acceptedDraftTokens := by
          have := (List.getElem?_eq_some_iff.mp htoken).1
          simp only [List.length_singleton] at this
          omega
        rw [hi, Nat.sub_self] at htoken
        rw [hi, hv.correction]
        exact ⟨Nat.le_refl _, htoken⟩
    have hg := h.chosen round result hp hr i token hchoice.2
    have htake : receipt.commit.emittedTokens.take i = round.index.drafts.take i := by
      rw [hv.emitted, List.take_append_of_le_length (by rw [List.length_take]; omega),
        List.take_take, Nat.min_eq_left hchoice.1]
    rw [hg, htake, RoundIndex.inputs, List.take_succ_cons, hround.anchor]
    simp
  chosen round result hp := absurd hp (hs.phase round)

/-- **One call** of a faithful run. -/
theorem GreedyInv.step {c : Call} (h : GreedyInv g start s)
    (hg : ∀ result, c = .recordTarget result → (∃ reply, ((call c).exec s).1 = .ok reply) →
      Faithful g s result) : GreedyInv g start ((call c).exec s).2 := by
  have hr := call_runs h.inv c
  match hx : (call c).exec s with
  | (.ok reply, s') =>
    have hstep := hr.of_ok hx
    cases hstep with
    | settle hs => exact h.settled hs
    | recordTarget hd hc hp => exact h.recorded hd hc hp (hg _ rfl ⟨_, by rw [hx]⟩)
    | other _ hd hcarries => exact h.carried hd.inv hd.frame hcarries
  | (.error (.err e), s') =>
    have hf := hr.of_err hx
    exact h.carried hf.inv hf.frame hf.carries
  | (.error .panic, s') => exact absurd (congrArg Prod.fst hx) hr.ne_panic
  | (.error .diverge, s') => exact absurd (congrArg Prod.fst hx) hr.ne_diverge

theorem greedyInv_of_reachable {x : SpeculativeKv × List Token}
    (h : (greedySystem g).Reachable x) : GreedyInv g x.2 x.1 := by
  refine h.induction (I := fun x => GreedyInv g x.2 x.1) ?_ ?_
  · rintro ⟨s, start⟩ ⟨hi, hstart⟩
    obtain ⟨hinv, hp⟩ : PairInv s ∧ s.phase = .ready := Initial.inv hi
    exact ⟨hinv, ⟨0, hstart.symm⟩, fun round result hr => by simp [hp] at hr⟩
  · rintro ⟨s, start⟩ c _ - hs ⟨rfl, hg⟩
    exact hs.step hg

/-- **Speculative decoding emits the target's greedy stream.** In every run whose recorded target
results are faithful to `g`, the committed target tokens followed by the anchor are a beginning of
the greedy stream from the first tokens and the first anchor; and each settlement extends them by
exactly the tokens it emits, one more than it accepts. -/
theorem greedy_of_reachable {g : List Token → Token} {s : SpeculativeKv} {start : List Token}
    (h : (greedySystem g).Reachable (s, start)) :
    (∃ n, s.targetTokens ++ [s.anchor] = greedy g start n) ∧
    ∀ receipt s', (call .settle).exec s = (.ok (.settled receipt), s') →
      s'.targetTokens ++ [s'.anchor] =
        s.targetTokens ++ [s.anchor] ++ receipt.commit.emittedTokens ∧
      receipt.commit.emittedTokens.length = receipt.commit.acceptedDraftTokens + 1 := by
  have hs := greedyInv_of_reachable h
  refine ⟨hs.stream, fun receipt s' hx => ?_⟩
  have hstep := (call_runs hs.inv .settle).of_ok hx
  cases hstep with
  | settle hsettled => exact hsettled.emitted hs.inv
  | other hc _ _ => exact absurd rfl hc

/-! ### A run of the counting model -/

/-- A model that counts: the next token is one more than the last. -/
def counting (tokens : List Token) : Token := tokens.getLast?.getD 0 + 1

/-- What the counting model chooses after the rows of the first round. -/
def countingResult : TargetResult where
  identity := ⟨⟨0, 1⟩, 1, ⟨Vector.replicate 32 7⟩, .target8B, 1, 1, false⟩
  rows := rowsAt ⟨1, 1⟩ 0 [5, 6, 7, 8, 9]
  outputRows := [0, 1, 2, 3, 4]
  choices := [6, 7, 8, 9, 10]
  completion := ⟨1, 1⟩

/-- Whatever has been committed, these are the counting model's choices. -/
theorem faithful_countingResult (s : SpeculativeKv) : Faithful counting s countingResult := by
  intro i token htoken
  have hi : i < 5 := (List.getElem?_eq_some_iff.mp htoken).1
  have hmap : (countingResult.rows.take (i + 1)).map (·.token) =
      [5, 6, 7, 8, 9].take (i + 1) := by
    rw [List.map_take, countingResult, map_token_rowsAt]
  rw [hmap, counting, List.getLast?_append]
  have hcases : i = 0 ∨ i = 1 ∨ i = 2 ∨ i = 3 ∨ i = 4 := by omega
  rcases hcases with rfl | rfl | rfl | rfl | rfl <;> simpa [countingResult] using htoken.symm

/-- The first round up to its settlement. -/
def countingCalls : List Call :=
  [.reserveRound firstRound, .targetWork, .recordTarget countingResult, .draftWork,
    .recordDraft
      { identity := ⟨⟨0, 1⟩, 1, ⟨Vector.replicate 32 7⟩, .draft06B, 2, 1, false⟩
        rows := rowsAt ⟨2, 1⟩ 0 [5, 6, 7, 8]
        completion := ⟨2, 1⟩ },
    .settle]

/-- Calls one after the other, whatever they return. -/
def execCalls (s : SpeculativeKv) (calls : List Call) : SpeculativeKv :=
  calls.foldl (fun s c => ((call c).exec s).2) s

/-- Calls whose target results are faithful stay in the system. -/
theorem reachable_of_execCalls {calls : List Call} (h : (greedySystem g).Reachable (s, start))
    (hg : ∀ result s, .recordTarget result ∈ calls → Faithful g s result) :
    (greedySystem g).Reachable (s.execCalls calls, start) := by
  induction calls generalizing s with
  | nil => exact h
  | cons c calls ih =>
    refine ih (.step (a := c) h ⟨rfl, ?_⟩) fun result s hr => hg result s (.tail _ hr)
    rintro result rfl -
    exact hg result s List.mem_cons_self

/-- The stream after one round of the counting model, all of whose candidates were right. -/
theorem greedy_of_reachable_counting :
    ∃ s, (greedySystem counting).Reachable (s, [5]) ∧
      s.targetTokens ++ [s.anchor] = [5, 6, 7, 8, 9, 10] ∧
      ∃ n, s.targetTokens ++ [s.anchor] = greedy counting [5] n := by
  have hrun : smallPair.map (fun s => (s.targetTokens ++ [s.anchor],
      (s.execCalls countingCalls).targetTokens ++ [(s.execCalls countingCalls).anchor])) =
        .ok ([5], [5, 6, 7, 8, 9, 10]) := by decide +kernel
  cases hr : smallPair with
  | error e => simp [hr, Except.map] at hrun
  | ok s =>
    rw [hr] at hrun
    obtain ⟨hstart, hstream⟩ := Prod.mk.inj (Except.ok.inj hrun)
    have h : (greedySystem counting).Reachable (s.execCalls countingCalls, [5]) := by
      refine reachable_of_execCalls
        (.init ⟨initial_smallPair hr, hstart.symm⟩) fun result s hm => ?_
      obtain rfl : result = countingResult := by simpa [countingCalls] using hm
      exact faithful_countingResult s
    exact ⟨_, h, hstream, (greedy_of_reachable h).1⟩

end SpeculativeKv

end TpSpeculative

end Ferric
