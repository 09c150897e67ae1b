import Ferric.Lib.Arena
import Ferric.Lib.Outcome
import Ferric.Spec.Plan
import Mathlib.Data.Prod.Lex

/-!
# The radix prefix index

`radix_prefix.rs`: a token trie over the prompts of the requests that are still live, stored in a
fixed array of node slots with first-child and next-sibling links, and a fixed array of source
records that point at the node where their prompt ends.

Registering a prompt replaces the record of the same request slot and the record of the same
tokens. All capacity checks come first. Then the replaced records are removed, the missing nodes
are linked in, the new record is written, and only at the end are the replaced paths pruned.

## Conventions

* A method that changes the index returns the new one in the success case. `register` fails with
  an error value only before its first write, so a failed call leaves the index as it was. The
  error values of the other two methods are shown never to occur.
* `expect` and index expressions are panics. A `while` or `loop` carries as much fuel as there are
  node slots and ends in `Fault.diverge` when the fuel is used up.
* The reservation of the two arrays in `new` is assumed to succeed.
-/

namespace Ferric

namespace RadixPrefix

open Spec

/-- `ROOT_NODE` -/
def rootNode : ℕ := 0

/-- `NO_PARENT` -/
def noParent : ℕ := 2 ^ 64 - 1

/-- The derived order of request ids: by slot, then by generation. -/
instance : LinearOrder RequestId :=
  LinearOrder.lift' (fun r => toLex (r.slot, r.generation)) (by
    rintro ⟨s, g⟩ ⟨s', g'⟩ h
    simpa using h)

/-- One independently bounded resource of the index. -/
inductive Limit where
  | nodes
  | tokensPerSource
  | sources
  | storedTokens
  deriving DecidableEq

/-- Rejection while fixing the storage envelope. -/
inductive LimitsError where
  | zero (kind : Limit)
  | rootRequiresNode
  | tokensExceedM1Context (maximum : ℕ)
  | storageArithmeticOverflow
  deriving DecidableEq

/-- The fixed resource limits of one index. -/
structure Limits where
  nodes : ℕ
  tokensPerSource : ℕ
  sources : ℕ
  storedTokens : ℕ
  deriving DecidableEq

/-- Validate all bounds before any storage is allocated. The arguments are `usize` values. -/
def Limits.new (nodeLimit tokensPerSourceLimit sourceLimit storedTokenLimit : UInt64) :
    Outcome LimitsError Limits := do
  failIf (nodeLimit = 0) (.zero .nodes)
  failIf (tokensPerSourceLimit = 0) (.zero .tokensPerSource)
  failIf (sourceLimit = 0) (.zero .sources)
  failIf (storedTokenLimit = 0) (.zero .storedTokens)
  failIf (nodeLimit < 2) .rootRequiresNode
  failIf (tokensPerSourceLimit.toNat > maxContextTokens)
    (.tokensExceedM1Context tokensPerSourceLimit.toNat)
  failIf (tokensPerSourceLimit.toNat * sourceLimit.toNat ≥ 2 ^ 64) .storageArithmeticOverflow
  return {
    nodes := nodeLimit.toNat
    tokensPerSource := tokensPerSourceLimit.toNat
    sources := sourceLimit.toNat
    storedTokens := storedTokenLimit.toNat }

/-- Registration rejection, or an internal inconsistency. -/
inductive IndexError where
  | emptySource
  | zeroSourceGeneration
  | tokensPerSourceCapacity (limit requested : ℕ)
  | sourceCapacity (limit : ℕ)
  | storedTokenCapacity (limit requested : ℕ)
  | nodeCapacity (limit requested : ℕ)
  | ticketExhausted
  | invariantViolation
  deriving DecidableEq

/-- A trie node. Its children are the list that starts at `firstChild` and continues along
`nextSibling`. -/
structure Node where
  token : Token
  parent : ℕ
  firstChild : Option ℕ
  nextSibling : Option ℕ
  depth : ℕ
  deriving DecidableEq

/-- `RadixNodeV1::ROOT` -/
def Node.root : Node where
  token := 0
  parent := noParent
  firstChild := none
  nextSibling := none
  depth := 0

/-- One registered prompt. -/
structure Source where
  request : RequestId
  endpoint : ℕ
  tokenCount : ℕ
  ticket : ℕ
  deriving DecidableEq

/-- A full-page match. -/
structure Match where
  source : RequestId
  tokenCount : ℕ
  deriving DecidableEq

/-- The fixed-capacity token trie and its source records. -/
structure Index where
  limits : Limits
  nodes : List (Option Node)
  sources : List (Option Source)
  nodeCount : ℕ
  sourceCount : ℕ
  storedTokens : ℕ
  nextTicket : ℕ
  deriving DecidableEq

namespace Index

/-- Allocate both arrays and the root. -/
def new (limits : Limits) : Index where
  limits
  nodes := (List.replicate limits.nodes none).set rootNode (some .root)
  sources := List.replicate limits.sources none
  nodeCount := 1
  sourceCount := 0
  storedTokens := 0
  nextTicket := 1

/-- `self.nodes.get(i).and_then(Option::as_ref)` -/
abbrev node (ix : Index) (i : ℕ) : Option Node := cell ix.nodes i

/-! ### Reading the trie -/

/-- The loop of `find_child` along the siblings. -/
def findSibling (ix : Index) (token : Token) : ℕ → Option ℕ → Outcome IndexError (Option ℕ)
  | _, none => .ok none
  | 0, some _ => .error .diverge
  | fuel + 1, some index =>
    match ix.node index with
    | none => .ok none
    | some node =>
      if node.token = token then .ok (some index)
      else ix.findSibling token fuel node.nextSibling

/-- The child of `parent` along `token`. -/
def findChild (ix : Index) (parent : ℕ) (token : Token) : Outcome IndexError (Option ℕ) :=
  match ix.node parent with
  | none => .ok none
  | some node => ix.findSibling token ix.nodes.length node.firstChild

/-- The loop of `existing_prefix`. -/
def existingPrefixFrom (ix : Index) : List Token → ℕ → ℕ → Outcome IndexError (ℕ × ℕ)
  | [], node, depth => .ok (node, depth)
  | token :: tokens, node, depth => do
    match ← ix.findChild node token with
    | none => return (node, depth)
    | some child => do
      let depth ← orErr .invariantViolation (checkedAdd 64 depth 1)
      ix.existingPrefixFrom tokens child depth

/-- How far the trie already spells the tokens: the node reached and its depth. -/
def existingPrefix (ix : Index) (tokens : List Token) : Outcome IndexError (ℕ × ℕ) :=
  ix.existingPrefixFrom tokens rootNode 0

/-- The loop of `source_tokens_equal`, up from the endpoint over the reversed tokens. -/
def climbsToRoot (ix : Index) : List Token → ℕ → Bool
  | [], node => node = rootNode
  | token :: rest, node =>
    match ix.node node with
    | none => false
    | some entry => if entry.token ≠ token then false else ix.climbsToRoot rest entry.parent

/-- Whether the record's prompt is exactly these tokens. -/
def sourceTokensEqual (ix : Index) (source : Source) (tokens : List Token) : Bool :=
  if source.tokenCount ≠ tokens.length then false
  else ix.climbsToRoot tokens.reverse source.endpoint

/-- The loop of `node_is_ancestor`. -/
def climbsTo (ix : Index) (ancestor ancestorDepth : ℕ) : ℕ → ℕ → Outcome IndexError Bool
  | 0, _ => .error .diverge
  | fuel + 1, node =>
    match ix.node node with
    | none => .ok false
    | some entry =>
      if entry.depth < ancestorDepth then .ok false
      else if node = ancestor then .ok true
      else ix.climbsTo ancestor ancestorDepth fuel entry.parent

/-- Whether `ancestor` lies on the way from `node` to the root. -/
def nodeIsAncestor (ix : Index) (ancestor node : ℕ) : Outcome IndexError Bool :=
  match ix.node ancestor with
  | none => .ok false
  | some entry => ix.climbsTo ancestor entry.depth ix.nodes.length node

/-- The smallest request whose prompt passes through the node. -/
def bestSourceBelow (ix : Index) (ancestor : ℕ) : Outcome IndexError (Option RequestId) := do
  let below ← (live ix.sources).filterM fun source => ix.nodeIsAncestor ancestor source.endpoint
  return (below.map (·.request)).min?

/-- The loop of `longest_page_aligned_match`. -/
def matchFrom (ix : Index) (pageTokens : ℕ) :
    List Token → ℕ → Option Match → Outcome IndexError (Option Match)
  | [], _, best => .ok best
  | token :: tokens, node, best => do
    match ← ix.findChild node token with
    | none => return best
    | some child => do
      match ← orPanic ix.nodes[child]? with
      | none => return none
      | some entry =>
        if entry.depth % pageTokens = 0 then do
          match ← ix.bestSourceBelow child with
          | none => ix.matchFrom pageTokens tokens child best
          | some source =>
            -- `u32::try_from(depth).ok()?`
            if entry.depth < 2 ^ 32 then
              ix.matchFrom pageTokens tokens child (some { source, tokenCount := entry.depth })
            else return none
        else ix.matchFrom pageTokens tokens child best

/-- The longest match, rounded down to complete pages. -/
def longestPageAlignedMatch (ix : Index) (tokens : List Token) (logicalPageTokens : ℕ) :
    Outcome IndexError (Option Match) :=
  if logicalPageTokens = 0 then .ok none
  else ix.matchFrom logicalPageTokens tokens rootNode none

/-! ### Changing the trie -/

/-- The lowest free node slot above the root. -/
def freeNode (ix : Index) : Option ℕ :=
  ((ix.nodes.drop 1).findIdx? (·.isNone)).map (· + 1)

/-- Link a new node in at the head of the parent's children. -/
def insertChild (ix : Index) (parent : ℕ) (token : Token) : Outcome IndexError (ℕ × Index) := do
  let slot ← orErr .invariantViolation ix.freeNode
  let parentNode ← orErr .invariantViolation (ix.node parent)
  let depth ← orErr .invariantViolation (checkedAdd 64 parentNode.depth 1)
  let nodes := ix.nodes.set slot (some
    { token, parent, firstChild := none, nextSibling := parentNode.firstChild, depth })
  let linked ← orErr .invariantViolation (cell nodes parent)
  let nodeCount ← orErr .invariantViolation (checkedAdd 64 ix.nodeCount 1)
  return (slot, { ix with
    nodes := nodes.set parent (some { linked with firstChild := some slot })
    nodeCount })

/-- The loop of `unlink_child`: find the sibling before `child`. -/
def unlinkAfter (ix : Index) (child : ℕ) (replacement : Option ℕ) :
    ℕ → Option ℕ → Outcome IndexError Index
  | _, none => .error (.err .invariantViolation)
  | 0, some _ => .error .diverge
  | fuel + 1, some index => do
    let entry ← orErr .invariantViolation (ix.node index)
    if entry.nextSibling = some child then
      return { ix with
        nodes := ix.nodes.set index (some { entry with nextSibling := replacement }) }
    else ix.unlinkAfter child replacement fuel entry.nextSibling

/-- Take `child` out of its parent's list of children. -/
def unlinkChild (ix : Index) (parent child : ℕ) : Outcome IndexError Index := do
  let entry ← orErr .invariantViolation (ix.node child)
  let parentNode ← orErr .invariantViolation (ix.node parent)
  if parentNode.firstChild = some child then
    return { ix with
      nodes := ix.nodes.set parent (some { parentNode with firstChild := entry.nextSibling }) }
  else ix.unlinkAfter child entry.nextSibling ix.nodes.length parentNode.firstChild

/-- The loop of `prune_from`. -/
def pruneLoop : ℕ → Index → ℕ → Outcome IndexError Index
  | 0, ix, node => if node = rootNode then .ok ix else .error .diverge
  | fuel + 1, ix, node =>
    if node = rootNode then .ok ix
    else do
      let entry ← orErr .invariantViolation (ix.node node)
      if entry.firstChild.isSome ∨ ∃ source ∈ live ix.sources, source.endpoint = node then
        return ix
      else do
        let ix ← ix.unlinkChild entry.parent node
        let nodeCount ← orErr .invariantViolation (checkedSub ix.nodeCount 1)
        pruneLoop fuel { ix with nodes := ix.nodes.set node none, nodeCount } entry.parent

/-- Free the nodes from `node` upwards that no record and no other node needs. -/
def pruneFrom (ix : Index) (node : ℕ) : Outcome IndexError Index :=
  pruneLoop ix.nodes.length ix node

/-- Remove a record and what only it needed. -/
def removeSourceSlot (ix : Index) (slot : ℕ) : Outcome IndexError Index := do
  let source ← orErr .invariantViolation (cell ix.sources slot)
  let sourceCount ← orErr .invariantViolation (checkedSub ix.sourceCount 1)
  let storedTokens ← orErr .invariantViolation (checkedSub ix.storedTokens source.tokenCount)
  pruneFrom { ix with sources := ix.sources.set slot none, sourceCount, storedTokens }
    source.endpoint

/-- Remove only the exact generational identity. -/
def invalidateSource (ix : Index) (source : RequestId) : Outcome IndexError (Bool × Index) :=
  match ix.sources.findIdx? (·.any (·.request = source)) with
  | none => .ok (false, ix)
  | some slot => do return (true, ← ix.removeSourceSlot slot)

/-- The record with the least `(ticket, request)`, with its slot. -/
def oldest (ix : Index) : Option (ℕ × Source) :=
  minBy? (fun entry => toLex (entry.2.ticket, entry.2.request)) (slots ix.sources)

/-- Evict the oldest registration. -/
def evictOldest (ix : Index) : Outcome IndexError (Option RequestId × Index) :=
  match ix.oldest with
  | none =>
    if ix.sourceCount ≠ 0 then .error (.err .invariantViolation) else .ok (none, ix)
  | some (slot, entry) => do return (some entry.request, ← ix.removeSourceSlot slot)

/-! ### Registration -/

/-- The records that a registration replaces: that of the same request slot, then that of the same
tokens if it is another one. -/
def victims (ix : Index) (source : RequestId) (tokens : List Token) : List ℕ :=
  let sameSlot := ix.sources.findIdx? (·.any (·.request.slot = source.slot))
  let duplicatePrefix := ix.sources.findIdx? (·.any (ix.sourceTokensEqual · tokens))
  sameSlot.toList ++ (duplicatePrefix.filter (some · ≠ sameSlot)).toList

/-- Count one victim and its tokens. -/
def weighVictim (ix : Index) (total : ℕ × ℕ) (slot : ℕ) : Outcome IndexError (ℕ × ℕ) := do
  let entry ← orPanic ix.sources[slot]?
  let entry ← orErr .invariantViolation entry
  let count ← orErr .invariantViolation (checkedAdd 64 total.1 1)
  let tokens ← orErr .invariantViolation (checkedAdd 64 total.2 entry.tokenCount)
  return (count, tokens)

def weighVictims (ix : Index) (victims : List ℕ) : Outcome IndexError (ℕ × ℕ) :=
  victims.foldlM ix.weighVictim (0, 0)

/-- `self.sources[slot].take().expect(..)`, with the endpoints taken so far. -/
def takeVictim (taken : List (Option Source) × List ℕ) (slot : ℕ) :
    Outcome IndexError (List (Option Source) × List ℕ) := do
  let entry ← orPanic (cell taken.1 slot)
  return (taken.1.set slot none, taken.2 ++ [entry.endpoint])

def takeVictims (sources : List (Option Source)) (victims : List ℕ) :
    Outcome IndexError (List (Option Source) × List ℕ) :=
  victims.foldlM takeVictim (sources, [])

/-- Link in the missing nodes, one below the other. -/
def insertPath (ix : Index) (endpoint : ℕ) (tokens : List Token) :
    Outcome IndexError (ℕ × Index) :=
  tokens.foldlM (fun (endpoint, ix) token => expect (ix.insertChild endpoint token)) (endpoint, ix)

/-- Prune every replaced path. -/
def prunePaths (ix : Index) (endpoints : List ℕ) : Outcome IndexError Index :=
  endpoints.foldlM (fun ix endpoint => expect (ix.pruneFrom endpoint)) ix

/-- Register the prompt of a live request. -/
def registerAuthenticatedSource (ix : Index) (source : RequestId) (tokens : List Token) :
    Outcome IndexError Index := do
  failIf (tokens = []) .emptySource
  failIf (source.generation = 0) .zeroSourceGeneration
  failIf (tokens.length > ix.limits.tokensPerSource)
    (.tokensPerSourceCapacity ix.limits.tokensPerSource tokens.length)
  let nextTicket ← orErr .ticketExhausted (checkedAdd 64 ix.nextTicket 1)
  let victims := ix.victims source tokens
  let (victimCount, victimTokens) ← ix.weighVictims victims
  let retainedSources ← orErr .invariantViolation (checkedSub ix.sourceCount victimCount)
  failIf (retainedSources ≥ ix.limits.sources) (.sourceCapacity ix.limits.sources)
  let retainedTokens ← orErr .invariantViolation (checkedSub ix.storedTokens victimTokens)
  let requestedTokens ← orErr (.storedTokenCapacity ix.limits.storedTokens (2 ^ 64 - 1))
    (checkedAdd 64 retainedTokens tokens.length)
  failIf (requestedTokens > ix.limits.storedTokens)
    (.storedTokenCapacity ix.limits.storedTokens requestedTokens)
  let (existingParent, existingDepth) ← ix.existingPrefix tokens
  let missingNodes ← orPanic (checkedSub tokens.length existingDepth)
  let freeNodes ← orPanic (checkedSub ix.limits.nodes ix.nodeCount)
  failIf (missingNodes > freeNodes)
    (.nodeCapacity ix.limits.nodes (min (ix.nodeCount + missingNodes) (2 ^ 64 - 1)))
  -- no error is returned from here on
  let (sources, victimEndpoints) ← takeVictims ix.sources victims
  let ix := { ix with
    sources, sourceCount := retainedSources, storedTokens := retainedTokens }
  let (endpoint, ix) ← ix.insertPath existingParent (tokens.drop existingDepth)
  let sourceSlot ← orPanic (ix.sources.findIdx? (·.isNone))
  let sourceCount ← orPanic (checkedAdd 64 retainedSources 1)
  let record :=
    { request := source, endpoint, tokenCount := tokens.length, ticket := ix.nextTicket }
  let ix := { ix with
    sources := ix.sources.set sourceSlot (some record)
    sourceCount, storedTokens := requestedTokens, nextTicket }
  ix.prunePaths victimEndpoints

end Index

end RadixPrefix

end Ferric
