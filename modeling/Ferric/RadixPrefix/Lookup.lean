import Ferric.RadixPrefix.Registry

/-!
# Lookup

`longestPageAlignedMatch` walks down the trie along the query and remembers the last page boundary
it passed. `BestUpTo` is the invariant of the walk: what is remembered is the longest match among
the lengths not beyond the current depth. When the walk stops, no longer agreement exists, because
every prefix of a registration is a node.
-/

namespace Ferric

namespace RadixPrefix

open Spec

variable {path : ℕ → List Token} {kids : ℕ → List ℕ} {S : List Source} {ix : Index}
  {L : Registry} {query : List Token} {p k i : ℕ} {n : Node}

/-- The best match among the lengths up to `k`. -/
def BestUpTo (L : Registry) (query : List Token) (p k : ℕ) : Option Match → Prop
  | none => ∀ d, 0 < d → d ≤ k → p ∣ d → ∀ e ∈ L, ¬ Agrees e query d
  | some m => 0 < m.tokenCount ∧ p ∣ m.tokenCount ∧
      (∃ e ∈ L, e.request = m.source ∧ Agrees e query m.tokenCount) ∧
      (∀ d ≤ k, p ∣ d → (∃ e ∈ L, Agrees e query d) → d ≤ m.tokenCount) ∧
      ∀ e ∈ L, Agrees e query m.tokenCount → m.source ≤ e.request

/-- Lengths at which nothing agrees, or that are no page boundary, do not matter. -/
theorem BestUpTo.extend {r : Option Match} {k' : ℕ} (h : BestUpTo L query p k r)
    (hno : ∀ d, k < d → d ≤ k' → p ∣ d → ∀ e ∈ L, ¬ Agrees e query d) :
    BestUpTo L query p k' r := by
  cases r with
  | none =>
    intro d hpos hd hp e he hag
    by_cases hdk : d ≤ k
    · exact h d hpos hdk hp e he hag
    · exact hno d (by omega) hd hp e he hag
  | some m =>
    obtain ⟨hpos, hal, hmem, hlong, hleast⟩ := h
    refine ⟨hpos, hal, hmem, fun d hd hp => ?_, hleast⟩
    rintro ⟨e, he, hag⟩
    by_cases hdk : d ≤ k
    · exact hlong d hdk hp ⟨e, he, hag⟩
    · exact absurd hag (hno d (by omega) hd hp e he)

theorem isLongestMatch_of_bestUpTo {m : Match}
    (h : BestUpTo L query p query.length (some m)) : IsLongestMatch L query p m := by
  obtain ⟨hpos, hal, hmem, hlong, hleast⟩ := h
  refine ⟨hpos, hal, hmem, fun d hp => ?_, hleast⟩
  rintro ⟨e, he, hag⟩
  exact hlong d hag.2.1 hp ⟨e, he, hag⟩

namespace Index

/-- The least request among the records below a node. -/
theorem bestSourceBelow_spec (h : Inv ix path kids S []) (hi : ix.node i = some n)
    (hne : i ≠ rootNode) :
    ∃ r, ix.bestSourceBelow i = .ok (some r) ∧
      (∃ s ∈ S, s.request = r ∧ path i <+: path s.endpoint) ∧
      ∀ s ∈ S, path i <+: path s.endpoint → r ≤ s.request := by
  have hfilter : (live ix.sources).filterM (fun s => ix.nodeIsAncestor i s.endpoint) =
      (.ok ((live ix.sources).filter fun s => decide (path i <+: path s.endpoint)) :
        Outcome IndexError _) := by
    refine filterM_eq_ok fun s hs => ?_
    obtain ⟨m, hm⟩ := h.records.endpoint s (h.live_perm.mem_iff.mp hs)
    exact nodeIsAncestor_eq h.shape hi hm
  obtain ⟨s₀, hs₀, hpre₀⟩ := h.exists_below hi hne
  let below :=
    ((live ix.sources).filter fun s => decide (path i <+: path s.endpoint)).map (·.request)
  have hmem : ∀ r, r ∈ below ↔ ∃ s ∈ S, s.request = r ∧ path i <+: path s.endpoint := by
    intro r
    simp only [below, List.mem_map, List.mem_filter, decide_eq_true_eq, h.live_perm.mem_iff]
    exact exists_congr fun s => by tauto
  obtain ⟨r, hr⟩ : ∃ r, below.min? = some r := by
    rw [← Option.isSome_iff_exists, List.isSome_min?_iff]
    intro hnil
    have : s₀.request ∈ below := (hmem _).mpr ⟨s₀, hs₀, rfl, hpre₀⟩
    simp [hnil] at this
  obtain ⟨hrmem, hleast⟩ := List.min?_eq_some_iff.mp hr
  refine ⟨r, ?_, (hmem r).mp hrmem, fun s hs hpre => hleast _ ((hmem _).mpr ⟨s, hs, rfl, hpre⟩)⟩
  rw [bestSourceBelow, hfilter, ok_bind]
  exact congrArg Except.ok hr

/-- The walk from a node that spells what has been read of the query. -/
theorem matchFrom_spec (h : Inv ix path kids S []) {tokens : List Token} {best : Option Match}
    (hi : ix.node i = some n) (hquery : path i ++ tokens = query)
    (hbest : BestUpTo (S.map (registration path)) query p (path i).length best) :
    ∃ r, ix.matchFrom p tokens i best = .ok r ∧
      BestUpTo (S.map (registration path)) query p query.length r := by
  induction tokens generalizing i n best with
  | nil =>
    rw [List.append_nil] at hquery
    exact ⟨best, rfl, hquery ▸ hbest⟩
  | cons t tokens ih =>
    have htake : query.take ((path i).length + 1) = path i ++ [t] := by
      rw [← hquery, List.take_length_add_append]
      rfl
    have hlen : (path i).length + 1 ≤ query.length := by
      rw [← hquery, List.length_append, List.length_cons]
      omega
    obtain ⟨r, hr, hspec⟩ := findChild_spec h.shape hi t
    rw [matchFrom, hr, ok_bind]
    cases r with
    | none =>
      -- a longer agreement would need the missing child
      refine ⟨best, rfl, hbest.extend fun d hd _ _ e he hag => ?_⟩
      obtain ⟨s, hs, rfl⟩ := List.mem_map.mp he
      obtain ⟨m, hm⟩ := h.records.endpoint s hs
      have hpre := (agrees_iff_isPrefix hlen).mp (hag.mono hd)
      rw [htake] at hpre
      obtain ⟨j, c, hc, hpath⟩ := h.shape.exists_of_isPrefix hm hpre
      exact absurd ((hspec j).mpr ⟨c, hc, hpath⟩) (by simp)
    | some c =>
      obtain ⟨m, hc, hpath⟩ := (hspec c).mp rfl
      have hcr : c ≠ rootNode := by
        rintro rfl
        rw [(h.shape.path_eq_nil_iff hc).mpr rfl] at hpath
        simp at hpath
      have hclen : (path c).length = (path i).length + 1 := by simp [hpath]
      have hcquery : path c ++ tokens = query := by simpa [hpath] using hquery
      simp only [cell_eq_some.mp hc, orPanic, ok_bind, h.shape.depth hc]
      by_cases hpage : (path c).length % p = 0
      · obtain ⟨r, hbelow, ⟨s, hs, hsr, hspre⟩, hleast⟩ := bestSourceBelow_spec h hc hcr
        have hsmall : (path c).length < 2 ^ 32 := by
          have hle := hspre.length_le
          have hb := (h.records.bounded s hs).trans h.limits.tokens_le
          rw [h.records.tokens s hs] at hle
          rw [maxContextTokens] at hb
          omega
        have hagree : ∀ a ∈ S, Agrees (registration path a) query (path c).length ↔
            path c <+: path a.endpoint := by
          intro a _
          rw [agrees_iff_isPrefix (by omega), hclen, htake, hpath]
          rfl
        rw [if_pos hpage, hbelow, ok_bind]
        simp only [if_pos hsmall]
        refine ih hc hcquery ⟨by simp [hclen], Nat.dvd_of_mod_eq_zero hpage, ?_, ?_, ?_⟩
        · exact ⟨_, List.mem_map_of_mem hs, hsr, (hagree s hs).mpr hspre⟩
        · exact fun d hd _ _ => hd
        · intro e he hag
          obtain ⟨a, ha, rfl⟩ := List.mem_map.mp he
          exact hleast a ha ((hagree a ha).mp hag)
      · rw [if_neg hpage]
        refine ih hc hcquery (hbest.extend fun d hd hd' hp => ?_)
        obtain rfl : d = (path c).length := by omega
        exact absurd (Nat.mod_eq_zero_of_dvd hp) hpage

/-- The lookup finds the longest match, and none only if there is none. -/
theorem longestPageAlignedMatch_spec (h : Inv ix path kids S []) (hp : p ≠ 0) :
    ∃ r, ix.longestPageAlignedMatch query p = .ok r ∧
      (r = none ↔ ∀ e ∈ S.map (registration path), ¬ Agrees e query p) ∧
      ∀ m, r = some m → IsLongestMatch (S.map (registration path)) query p m := by
  obtain ⟨n, hn⟩ := h.shape.root
  have hroot := h.shape.tree.path_root
  have hstart : BestUpTo (S.map (registration path)) query p (path rootNode).length none := by
    intro d hpos hd
    rw [hroot, List.length_nil] at hd
    omega
  obtain ⟨r, hr, hbest⟩ := matchFrom_spec h hn
    (by simp [hroot] : path rootNode ++ query = query) hstart
  refine ⟨r, by rw [longestPageAlignedMatch, if_neg hp, hr], ?_, ?_⟩
  · constructor
    · rintro rfl e he hag
      exact hbest p (by omega) hag.2.1 dvd_rfl e he hag
    · intro hno
      cases r with
      | none => rfl
      | some m =>
        obtain ⟨hpos, hal, ⟨e, he, -, hag⟩, -⟩ := hbest
        exact absurd (hag.mono (Nat.le_of_dvd hpos hal)) (hno e he)
  · rintro m rfl
    exact isLongestMatch_of_bestUpTo hbest

end Index

end RadixPrefix

end Ferric
