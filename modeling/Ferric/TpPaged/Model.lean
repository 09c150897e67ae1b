import Ferric.Lib.BTreeMap
import Ferric.Lib.Lists
import Ferric.Lib.Outcome
import Mathlib.Order.Nat

/-!
# The paged key/value pool

The host metadata of one resident paged KV allocation, as `tp_paged.rs` computes it. A pool owns a
fixed number of physical pages of sixteen token slots. Live requests (*sequences*) hold pages in
logical order; retired requests may leave complete pages behind as nodes of a radix tree keyed by
the tokens they contain, and a later request whose prompt starts with those tokens shares them.

Nothing here touches device memory. What the metadata promises about device memory is the subject
of `Ferric.TpPaged.Content`.

## Conventions

* Every mutating call of the source builds a proposed `State`, checks it, and assigns it last, so
  a call that fails leaves the pool unchanged. The model returns the new pool in the success case
  only.
* Index expressions are `orPanic`, `?` on an option is `orErr`, and a loop whose termination is
  not structural carries fuel and ends in `Fault.diverge` when the fuel is used up.
* `u32` and `u64` values are natural numbers. Every addition that the source performs with
  `checked_add` is `checkedAdd`.
-/

namespace Ferric

namespace TpPaged

/-- An input token of the model. -/
abbrev Token := ℕ

/-- Model identity and resident device session, as opaque 32-byte strings. -/
structure PoolScope where
  model : Vector UInt8 32
  session : Vector UInt8 32
  deriving DecidableEq

/-- Fail-closed host metadata errors. -/
inductive PagedError where
  | invalidLimits
  | scopeMismatch
  | busy
  | poisoned
  | unknownSequence
  | unknownBatch
  | sequenceCapacity
  | outOfPages
  | invalidRows
  | submissionPhase
  | clockRegression
  | exhausted
  | invariant
  deriving DecidableEq

/-- The physical envelope: at most 512 pages, or at most 16384. -/
inductive KvPoolProfile where
  | legacy
  | largeV9
  deriving DecidableEq

/-- Host metadata bounds and physical geometry. -/
structure PagedLimits where
  profile : KvPoolProfile
  contextTokens : ℕ
  sequences : ℕ
  physicalPages : ℕ
  cacheTtl : ℕ
  deriving DecidableEq

/-- The largest page count of a profile. -/
def KvPoolProfile.maximum : KvPoolProfile → ℕ
  | .legacy => 512
  | .largeV9 => 16384

namespace PagedLimits

/-- Reject zero limits and limits above the profile's envelope. -/
def newBounded (contextTokens sequences physicalPages cacheTtl : ℕ) (profile : KvPoolProfile) :
    Outcome PagedError PagedLimits := do
  failIf (¬ (1 ≤ contextTokens ∧ contextTokens ≤ 8192) ∨ ¬ (1 ≤ sequences ∧ sequences ≤ 32) ∨
    ¬ (1 ≤ physicalPages ∧ physicalPages ≤ profile.maximum) ∨ cacheTtl = 0) .invalidLimits
  return { profile, contextTokens, sequences, physicalPages, cacheTtl }

/-- The limits of a legacy pool. -/
def new (contextTokens sequences physicalPages cacheTtl : ℕ) : Outcome PagedError PagedLimits :=
  newBounded contextTokens sequences physicalPages cacheTtl .legacy

/-- The limits of a large pool. -/
def newLargeKv32 (contextTokens sequences physicalPages cacheTtl : ℕ) :
    Outcome PagedError PagedLimits :=
  newBounded contextTokens sequences physicalPages cacheTtl .largeV9

/-- Entries of one row of the GPU page table. -/
def pageTableStride (l : PagedLimits) : ℕ := (l.contextTokens + 15) / 16

end PagedLimits

/-- A pool-bound monotone sequence identity. -/
structure SequenceId where
  pool : ℕ
  serial : ℕ
  deriving DecidableEq

/-- One scheduler-selected token write, before page reservation. -/
structure PageRow where
  sequence : SequenceId
  token : Token
  position : ℕ
  deriving DecidableEq

/-- A successful admission: the sequence and the cached prefix it retains. -/
structure PrefixHit where
  sequence : SequenceId
  hitTokens : ℕ
  pages : List ℕ
  deriving DecidableEq

/-- GPU row metadata minted by a reservation. -/
structure PreparedRow where
  input : PageRow
  pages : List ℕ
  writePage : ℕ
  deriving DecidableEq

/-- The exact writable offset within the row's page. -/
def PreparedRow.writableTokenOffset (r : PreparedRow) : ℕ := r.input.position % 16

/-- The metadata of one reserved batch. -/
structure PreparedBatch where
  pool : ℕ
  scope : PoolScope
  id : ℕ
  limits : PagedLimits
  rows : List PreparedRow
  deriving DecidableEq

/-- The driver's completion token. -/
structure BatchCompletion where
  pool : ℕ
  batch : ℕ
  deriving DecidableEq

/-- `after_all_ranks`: the completion of a batch. -/
def BatchCompletion.afterAllRanks (b : PreparedBatch) : BatchCompletion := ⟨b.pool, b.id⟩

/-! ### Committed state -/

/-- Reference count of a physical page, and whether a radix node holds it. -/
structure PhysicalPage where
  refs : ℕ
  cached : Bool
  deriving DecidableEq

/-- A live request: its committed tokens and the pages that hold them, in logical order. -/
structure Sequence where
  tokens : List Token
  pages : List ℕ
  deriving DecidableEq

/-- The tokens of one complete page. -/
abbrev Edge := { l : List Token // l.length = 16 }

/-- `<[u32; 16]>::try_from`. -/
def toEdge (l : List Token) : Option Edge := if h : l.length = 16 then some ⟨l, h⟩ else none

/-- One complete cached page, below the page its parent caches. -/
structure RadixNode where
  parent : Option ℕ
  edge : Edge
  page : ℕ
  touched : ℕ
  expires : ℕ
  deriving DecidableEq

/-- The state that a transaction replaces. -/
structure State where
  pages : List PhysicalPage
  sequences : BTreeMap ℕ Sequence
  nodes : List (Option RadixNode)
  clock : ℕ
  nextSequence : ℕ
  prefixHits : ℕ
  hitTokens : ℕ
  hitPages : ℕ
  evictedPages : ℕ
  deriving DecidableEq

/-- A reservation: the state that replaces the committed one on completion. -/
structure Pending where
  id : ℕ
  submitted : Bool
  proposed : State
  deriving DecidableEq

/-- Identities of the image a large pool is bound to. -/
structure LargeKvBinding where
  hsaco : Vector UInt8 32
  manifest : Vector UInt8 32
  handoff : Vector UInt8 32
  deriving DecidableEq

/-- One resident allocation set's ownership metadata and radix index. -/
structure PagedPool where
  identity : ℕ
  scope : PoolScope
  limits : PagedLimits
  rowCapacity : ℕ
  largeKv : Option LargeKvBinding
  state : State
  pending : Option Pending
  nextBatch : ℕ
  poisoned : Bool
  deriving DecidableEq

/-! ### Helpers on a state -/

/-- `u32::try_from(value).expect(..)`. -/
def count (value : ℕ) : Outcome PagedError ℕ :=
  orPanic (if value < 2 ^ 32 then some value else none)

/-- Pages that no one references. -/
def freePages (s : State) : Outcome PagedError ℕ := count (s.pages.countP (·.refs = 0))

/-- Move the deterministic cache clock forward. -/
def advanceClock (s : State) (now : ℕ) : Outcome PagedError State := do
  failIf (now < s.clock) .clockRegression
  return { s with clock := now }

/-- The node below `parent` along `edge`, if any. -/
def findChild (s : State) (parent : Option ℕ) (edge : Edge) : Option ℕ :=
  s.nodes.findIdx? fun node => node.any fun n => n.parent = parent ∧ n.edge = edge

/-- No node has this one as its parent. -/
def isLeaf (s : State) (index : ℕ) : Bool :=
  !s.nodes.any fun node => node.any fun n => n.parent = some index

/-- Take a leaf out of the tree and drop its reference on its page. -/
def removeNode (s : State) (index : ℕ) : Outcome PagedError State := do
  failIf (isLeaf s index = false) .invariant
  let slot ← orPanic s.nodes[index]?
  let node ← orErr .invariant slot
  let page ← orPanic s.pages[node.page]?
  failIf (page.cached = false) .invariant
  failIf (page.refs < 1) .invariant
  let evictedPages ← orErr .exhausted (checkedAdd 64 s.evictedPages 1)
  return { s with
    nodes := s.nodes.set index none
    pages := s.pages.set node.page { refs := page.refs - 1, cached := false }
    evictedPages }

/-- The first expired leaf. -/
def expireCandidate (s : State) (now : ℕ) : Option ℕ :=
  (List.range s.nodes.length).find? fun index =>
    match s.nodes[index]? with
    | some (some node) => node.expires ≤ now && isLeaf s index
    | _ => false

/-- The loop of `expireNodes`; every round removes a node. -/
def expireNodesLoop (now : ℕ) : ℕ → State → Outcome PagedError State
  | 0, _ => .error .diverge
  | fuel + 1, s =>
    match expireCandidate s now with
    | none => .ok s
    | some index => removeNode s index >>= expireNodesLoop now fuel

/-- Remove expired leaves until none is left. -/
def expireNodes (s : State) (now : ℕ) : Outcome PagedError State :=
  expireNodesLoop now (s.nodes.length + 1) s

/-- Drop one reference on each of the given pages. -/
def dropPageRef (pages : List PhysicalPage) (page : ℕ) :
    Outcome PagedError (List PhysicalPage) := do
  let physical ← orPanic pages[page]?
  failIf (physical.refs < 1) .invariant
  return pages.set page { physical with refs := physical.refs - 1 }

/-- Drop a retired sequence's reference on each of its pages. -/
def dropSequenceRefs (s : State) (sequence : Sequence) : Outcome PagedError State := do
  let pages ← sequence.pages.foldlM dropPageRef s.pages
  return { s with pages }

/-! ### The pool's own check of its invariants -/

/-- Count one page of a sequence, rejecting an index out of range and a repeated page. -/
def validatePage (acc : List ℕ × List ℕ) (page : ℕ) : Outcome PagedError (List ℕ × List ℕ) := do
  failIf (page ≥ acc.1.length ∨ page ∈ acc.2) .invariant
  return (acc.1.modify page (· + 1), page :: acc.2)

/-- Check one sequence and count its references. -/
def validateSequence (s : State) (limits : PagedLimits) (refs : List ℕ) (entry : ℕ × Sequence) :
    Outcome PagedError (List ℕ) := do
  let sequence := entry.2
  failIf (entry.1 = 0 ∨ entry.1 ≥ s.nextSequence ∨
    sequence.tokens.length > limits.contextTokens ∨
    sequence.pages.length ≠ (sequence.tokens.length + 15) / 16) .invariant
  let acc ← sequence.pages.foldlM validatePage (refs, [])
  if sequence.tokens.length % 16 ≠ 0 then
    let page ← orErr .invariant sequence.pages.getLast?
    let physical ← orPanic s.pages[page]?
    failIf (physical.cached ∨ physical.refs ≠ 1) .invariant
    return acc.1
  else
    return acc.1

/-- Walk from a node to the root, counting nodes. A walk that returns to `index` or is longer than
the node table is rejected; the fuel is the length of the table. -/
def ancestorDepth (nodes : List (Option RadixNode)) (index : ℕ) :
    ℕ → ℕ → Option ℕ → Outcome PagedError ℕ
  | _, depth, none => .ok depth
  | 0, _, some _ => .error (.err .invariant)
  | fuel + 1, depth, some ancestor => do
    failIf (ancestor = index ∨ depth ≥ nodes.length) .invariant
    let node ← orErr .invariant nodes[ancestor]?.join
    ancestorDepth nodes index fuel (depth + 1) node.parent

/-- What `validateState` accumulates over the radix nodes. -/
structure NodeAudit where
  refs : List ℕ
  cached : List Bool
  edges : List (Option ℕ × Edge)

/-- Check one radix node and count its reference. -/
def validateNode (s : State) (limits : PagedLimits) (acc : NodeAudit)
    (entry : Option RadixNode × ℕ) : Outcome PagedError NodeAudit :=
  match entry.1 with
  | none => .ok acc
  | some node => do
    failIf (node.page ≥ acc.refs.length ∨ acc.cached[node.page]? = some true ∨
      (node.parent, node.edge) ∈ acc.edges ∨ node.touched > s.clock ∨
      node.expires ≤ node.touched) .invariant
    let acc : NodeAudit :=
      { refs := acc.refs.modify node.page (· + 1)
        cached := acc.cached.set node.page true
        edges := (node.parent, node.edge) :: acc.edges }
    let depth ← ancestorDepth s.nodes entry.2 s.nodes.length 1 node.parent
    failIf (depth > limits.pageTableStride) .invariant
    return acc

/-- Recheck the correspondence of pages, sequences and radix nodes. -/
def validateState (s : State) (limits : PagedLimits) : Outcome PagedError Unit := do
  failIf (s.pages.length ≠ limits.physicalPages ∨ s.nodes.length ≠ s.pages.length ∨
    s.sequences.size > limits.sequences) .invariant
  let refs ← s.sequences.entries.foldlM (validateSequence s limits)
    (List.replicate s.pages.length 0)
  let audit ← s.nodes.zipIdx.foldlM (validateNode s limits)
    { refs, cached := List.replicate s.pages.length false, edges := [] }
  failIf (s.pages.zipIdx.any fun entry =>
    audit.refs[entry.2]? ≠ some entry.1.refs ∨ audit.cached[entry.2]? ≠ some entry.1.cached)
    .invariant

namespace PagedPool

/-! ### Construction -/

/-- The state of a fresh pool. -/
def freshState (limits : PagedLimits) : State where
  pages := List.replicate limits.physicalPages ⟨0, false⟩
  nodes := List.replicate limits.physicalPages none
  sequences := .empty
  clock := 0
  nextSequence := 1
  prefixHits := 0
  hitTokens := 0
  hitPages := 0
  evictedPages := 0

/-- Create host metadata. `nextPoolId` is the process-wide counter of pool identities; the new
value of the counter is returned with the pool. -/
def newBounded (nextPoolId : ℕ) (scope : PoolScope) (limits : PagedLimits) (rowCapacity : ℕ)
    (largeKv : Option LargeKvBinding) : Outcome PagedError (PagedPool × ℕ) := do
  failIf (scope.model = Vector.replicate 32 0 ∨ scope.session = Vector.replicate 32 0 ∨
    (decide (limits.profile = .largeV9) ≠ largeKv.isSome) ∨
    (largeKv.isSome ∧ rowCapacity ≠ 32)) .invalidLimits
  let next ← orErr .exhausted (checkedAdd 64 nextPoolId 1)
  return ({ identity := nextPoolId, scope, limits, rowCapacity, largeKv
            state := freshState limits
            pending := none
            nextBatch := 1
            poisoned := false }, next)

/-- A pool of at most sixteen rows a batch. -/
def new (nextPoolId : ℕ) (scope : PoolScope) (limits : PagedLimits) :
    Outcome PagedError (PagedPool × ℕ) :=
  newBounded nextPoolId scope limits 16 none

/-- A pool of at most thirty-two rows a batch. -/
def newWide32 (nextPoolId : ℕ) (scope : PoolScope) (limits : PagedLimits) :
    Outcome PagedError (PagedPool × ℕ) :=
  newBounded nextPoolId scope limits 32 none

/-- A large pool, bound to an admitted image. `binding` is the image's `large_kv_binding`. -/
def newLargeKv32 (nextPoolId : ℕ) (scope : PoolScope) (limits : PagedLimits)
    (binding : Option LargeKvBinding) : Outcome PagedError (PagedPool × ℕ) := do
  let binding ← orErr .invalidLimits binding
  newBounded nextPoolId scope limits 32 (some binding)

/-- True only before any admission or reservation. -/
def isEmpty (p : PagedPool) : Bool :=
  !p.poisoned && p.pending.isNone && p.state.nextSequence == 1 && p.nextBatch == 1

/-! ### Guards -/

/-- Reject a poisoned pool, then one with an outstanding batch. -/
def requireIdle (p : PagedPool) : Outcome PagedError Unit := do
  failIf (p.poisoned = true) .poisoned
  failIf (p.pending.isSome = true) .busy

/-- Reject a foreign or absent sequence. -/
def requireSequence (p : PagedPool) (sequence : SequenceId) : Outcome PagedError Unit :=
  failIf (sequence.pool ≠ p.identity ∨ p.state.sequences.get? sequence.serial = none)
    .unknownSequence

/-- Reject a poisoned pool and any batch other than the outstanding one. -/
def requireBatch (p : PagedPool) (batch : PreparedBatch) : Outcome PagedError Unit := do
  failIf (p.poisoned = true) .poisoned
  failIf (batch.pool ≠ p.identity ∨ batch.scope ≠ p.scope ∨ batch.limits ≠ p.limits ∨
    (p.pending.all fun pending => pending.id ≠ batch.id) = true) .unknownBatch

/-- The outstanding batch has been submitted. -/
def submitted (p : PagedPool) : Bool := p.pending.any (·.submitted)

/-- Run a change on a copy of the state, check the result, and replace the state. -/
def transact {α : Type} (p : PagedPool) (apply : State → Outcome PagedError (α × State)) :
    Outcome PagedError (α × PagedPool) := do
  p.requireIdle
  let result ← apply p.state
  validateState result.2 p.limits
  return (result.1, { p with state := result.2 })

/-! ### Admission -/

/-- Follow the cached prefix of a prompt chunk by chunk, retaining a reference on each page. The
loop breaks at the first chunk that has no unexpired node. -/
def hitLoop (now expires : ℕ) :
    List (List Token) → State → Option ℕ → List ℕ → Outcome PagedError (State × List ℕ)
  | [], s, _, pages => .ok (s, pages)
  | chunk :: rest, s, parent, pages => do
    let edge ← orErr .invariant (toEdge chunk)
    match findChild s parent edge with
    | none => return (s, pages)
    | some index =>
      let slot ← orPanic s.nodes[index]?
      let node ← orErr .invariant slot
      if node.expires ≤ now then
        return (s, pages)
      else
        let physical ← orPanic s.pages[node.page]?
        let refs ← orErr .exhausted (checkedAdd 32 physical.refs 1)
        hitLoop now expires rest
          { s with
            nodes := s.nodes.set index (some { node with touched := now, expires })
            pages := s.pages.set node.page { physical with refs } }
          (some index) (pages ++ [node.page])

/-- Count a hit of `hitPages` pages; an admission without a hit leaves the counters alone. -/
def countHit (s : State) (hitPages : ℕ) : Outcome PagedError State :=
  if hitPages ≠ 0 then do
    let prefixHits ← orErr .exhausted (checkedAdd 64 s.prefixHits 1)
    let pages ← orErr .exhausted (checkedAdd 64 s.hitPages hitPages)
    let tokens ← orErr .exhausted (checkedAdd 64 s.hitTokens (hitPages * 16))
    return { s with prefixHits, hitPages := pages, hitTokens := tokens }
  else
    return s

/-- The transaction of `openSequence`. -/
def openState (identity : ℕ) (limits : PagedLimits) (prompt : List Token) (now : ℕ) (s : State) :
    Outcome PagedError (PrefixHit × State) := do
  failIf (s.sequences.size ≥ limits.sequences) .sequenceCapacity
  let s ← advanceClock s now
  let expires ← orErr .exhausted (checkedAdd 64 now limits.cacheTtl)
  let s ← expireNodes s now
  let serial := s.nextSequence
  let nextSequence ← orErr .exhausted (checkedAdd 64 serial 1)
  let hit ← hitLoop now expires (chunksExact 16 (prompt.take ((prompt.length - 1) / 16 * 16)))
    { s with nextSequence } none []
  let hitPages ← count hit.2.length
  let s ← countHit hit.1 hitPages
  return ({ sequence := ⟨identity, serial⟩, hitTokens := hitPages * 16, pages := hit.2 },
    { s with sequences :=
        s.sequences.insert serial { tokens := prompt.take (hitPages * 16), pages := hit.2 } })

/-- Admit a prompt, retaining its longest exact complete-page cached prefix. The final prompt
token is never part of the hit. -/
def openSequence (p : PagedPool) (scope : PoolScope) (prompt : List Token) (now : ℕ) :
    Outcome PagedError (PrefixHit × PagedPool) := do
  failIf (scope ≠ p.scope) .scopeMismatch
  failIf (prompt = [] ∨ prompt.length > p.limits.contextTokens) .invalidRows
  p.transact (openState p.identity p.limits prompt now)

/-! ### Reservation -/

/-- Give a sequence that stands at a page boundary the first free page. -/
def reservePage (s : State) (sequence : Sequence) (position : ℕ) :
    Outcome PagedError (State × Sequence) :=
  if position % 16 = 0 then do
    let free ← orErr .outOfPages (s.pages.findIdx? fun page => page.refs = 0 ∧ ¬ page.cached)
    let physical ← orPanic s.pages[free]?
    let page ← count free
    return ({ s with pages := s.pages.set free { physical with refs := 1 } },
      { sequence with pages := sequence.pages ++ [page] })
  else
    return (s, sequence)

/-- Reserve one row in the proposed state. -/
def reserveRow (p : PagedPool) (proposed : State) (row : PageRow) : Outcome PagedError State := do
  p.requireSequence row.sequence
  let sequence ← orErr .unknownSequence (proposed.sequences.get? row.sequence.serial)
  failIf (row.position ≥ p.limits.contextTokens ∨ row.position ≠ sequence.tokens.length)
    .invalidRows
  let reserved ← reservePage proposed sequence row.position
  let page ← orPanic reserved.2.pages[row.position / 16]?
  let physical ← orPanic reserved.1.pages[page]?
  failIf (physical.refs ≠ 1 ∨ physical.cached) .invariant
  let sequence := { reserved.2 with tokens := reserved.2.tokens ++ [row.token] }
  return { reserved.1 with
    sequences := reserved.1.sequences.insert row.sequence.serial sequence }

/-- The metadata of one row, read from the proposed state. -/
def prepareRow (proposed : State) (row : PageRow) : Outcome PagedError PreparedRow := do
  let sequence ← orPanic (proposed.sequences.get? row.sequence.serial)
  let writePage ← orPanic sequence.pages[row.position / 16]?
  return { input := row, pages := sequence.pages, writePage }

/-- Atomically reserve every selected row, without publishing any token. -/
def reserveBatch (p : PagedPool) (rows : List PageRow) :
    Outcome PagedError (PreparedBatch × PagedPool) := do
  p.requireIdle
  failIf (rows = [] ∨ rows.length > p.rowCapacity) .invalidRows
  let nextBatch ← orErr .exhausted (checkedAdd 64 p.nextBatch 1)
  let proposed ← rows.foldlM (reserveRow p) p.state
  validateState proposed p.limits
  let prepared ← rows.mapM (prepareRow proposed)
  return ({ pool := p.identity, scope := p.scope, id := p.nextBatch, limits := p.limits
            rows := prepared },
    { p with nextBatch, pending := some { id := p.nextBatch, submitted := false, proposed } })

/-- Mark uncertainty before the first device-side operation of the batch. -/
def beginSubmission (p : PagedPool) (batch : PreparedBatch) : Outcome PagedError PagedPool := do
  p.requireBatch batch
  let pending ← orErr .unknownBatch p.pending
  failIf (pending.submitted = true) .submissionPhase
  return { p with pending := some { pending with submitted := true } }

/-- Abandon an unsubmitted reservation. -/
def abortBatch (p : PagedPool) (batch : PreparedBatch) : Outcome PagedError PagedPool := do
  p.requireBatch batch
  failIf (p.submitted = true) .submissionPhase
  return { p with pending := none }

/-- Publish a submitted batch after the driver reports completion. -/
def commitBatch (p : PagedPool) (batch : PreparedBatch) (completion : BatchCompletion) :
    Outcome PagedError PagedPool := do
  p.requireBatch batch
  failIf (completion ≠ ⟨p.identity, batch.id⟩) .unknownBatch
  failIf (p.submitted = false) .submissionPhase
  let pending ← orErr .unknownBatch p.pending
  return { p with pending := none, state := pending.proposed }

/-- Permanently quarantine the pool after a submitted uncertainty. -/
def quarantineBatch (p : PagedPool) (batch : PreparedBatch) : Outcome PagedError PagedPool := do
  p.requireBatch batch
  failIf (p.submitted = false) .submissionPhase
  return { p with poisoned := true }

/-! ### Retirement, expiry and eviction -/

/-- Publish the complete pages of a retired sequence, chunk by chunk. A chunk whose node exists
keeps the node's own page. -/
def publishLoop (now expires : ℕ) (retired : Sequence) :
    List (List Token × ℕ) → State → Option ℕ → Outcome PagedError State
  | [], s, _ => .ok s
  | (chunk, logical) :: rest, s, parent => do
    let edge ← orErr .invariant (toEdge chunk)
    match findChild s parent edge with
    | some index =>
      let slot ← orPanic s.nodes[index]?
      let node ← orErr .invariant slot
      publishLoop now expires retired rest
        { s with nodes := s.nodes.set index (some { node with touched := now, expires }) }
        (some index)
    | none =>
      let page ← orPanic retired.pages[logical]?
      let physical ← orPanic s.pages[page]?
      failIf (physical.cached = true) .invariant
      let index ← orErr .invariant (s.nodes.findIdx? Option.isNone)
      let refs ← orErr .exhausted (checkedAdd 32 physical.refs 1)
      publishLoop now expires retired rest
        { s with
          nodes := s.nodes.set index (some { parent, edge, page, touched := now, expires })
          pages := s.pages.set page { refs, cached := true } }
        (some index)

/-- The transaction of `retireSequence`. -/
def retireState (limits : PagedLimits) (serial : ℕ) (publishPrefix : Bool) (now : ℕ) (s : State) :
    Outcome PagedError (Unit × State) := do
  let s ← advanceClock s now
  let expires ← orErr .exhausted (checkedAdd 64 now limits.cacheTtl)
  let s ← expireNodes s now
  let retired ← orErr .unknownSequence (s.sequences.get? serial)
  let s := { s with sequences := s.sequences.erase serial }
  let s ← (if publishPrefix then
      publishLoop now expires retired (chunksExact 16 retired.tokens).zipIdx s none
    else .ok s)
  let s ← dropSequenceRefs s retired
  return ((), s)

/-- Retire a completed request, optionally retaining its complete pages in the radix tree. -/
def retireSequence (p : PagedPool) (sequence : SequenceId) (publishPrefix : Bool) (now : ℕ) :
    Outcome PagedError (Unit × PagedPool) := do
  p.requireSequence sequence
  p.transact (retireState p.limits sequence.serial publishPrefix now)

/-- The transaction of `cancelSequence`. -/
def cancelState (serial : ℕ) (s : State) : Outcome PagedError (Unit × State) := do
  let retired ← orErr .unknownSequence (s.sequences.get? serial)
  let s ← dropSequenceRefs { s with sequences := s.sequences.erase serial } retired
  return ((), s)

/-- Cancel an idle request without cache publication. -/
def cancelSequence (p : PagedPool) (sequence : SequenceId) :
    Outcome PagedError (Unit × PagedPool) := do
  p.requireSequence sequence
  p.transact (cancelState sequence.serial)

/-- The transaction of `expire`. -/
def expireState (now : ℕ) (s : State) : Outcome PagedError (Unit × State) := do
  let s ← advanceClock s now
  let s ← expireNodes s now
  return ((), s)

/-- Expire cache nodes at a deterministic monotone caller clock. -/
def expire (p : PagedPool) (now : ℕ) : Outcome PagedError (Unit × PagedPool) :=
  p.transact (expireState now)

/-- The smaller of two eviction candidates, ordered by time of last use and then by slot. -/
def minCandidate : Option (ℕ × ℕ) → ℕ × ℕ → ℕ × ℕ
  | none, c => c
  | some b, c => if c.1 < b.1 ∨ c.1 = b.1 ∧ c.2 < b.2 then c else b

/-- The least recently used leaf whose page only the cache references. -/
def evictCandidate (s : State) : Outcome PagedError (Option (ℕ × ℕ)) :=
  (List.range s.nodes.length).foldlM (fun best index =>
    match s.nodes[index]?.join with
    | none => .ok best
    | some node => do
      let physical ← orPanic s.pages[node.page]?
      return if physical.refs = 1 ∧ isLeaf s index = true then
        some (minCandidate best (node.touched, index)) else best) none

/-- The loop of `evictUnused`; every round removes a node. -/
def evictLoop (pagesNeeded : ℕ) : ℕ → State → Outcome PagedError State
  | 0, _ => .error .diverge
  | fuel + 1, s => do
    let free ← freePages s
    if free < pagesNeeded then
      let candidate ← evictCandidate s
      let candidate ← orErr .outOfPages candidate
      let s ← removeNode s candidate.2
      evictLoop pagesNeeded fuel s
    else
      return s

/-- The transaction of `evictUnused`. -/
def evictState (pagesNeeded : ℕ) (s : State) : Outcome PagedError (Unit × State) := do
  let s ← evictLoop pagesNeeded (s.nodes.length + 1) s
  return ((), s)

/-- Make at least `pagesNeeded` physical pages free, atomically or unchanged. -/
def evictUnused (p : PagedPool) (pagesNeeded : ℕ) : Outcome PagedError (Unit × PagedPool) := do
  failIf (pagesNeeded > p.limits.physicalPages) .outOfPages
  p.transact (evictState pagesNeeded)

/-! ### Observers -/

/-- Current committed position, never the end of an uncommitted reservation. -/
def committedPosition (p : PagedPool) (sequence : SequenceId) : Outcome PagedError ℕ := do
  p.requireSequence sequence
  failIf (p.poisoned = true) .poisoned
  let sequence ← orPanic (p.state.sequences.get? sequence.serial)
  count sequence.tokens.length

/-- Ownership and cumulative cache counters. -/
structure PagedStats where
  sequences : ℕ
  freePages : ℕ
  retainedPages : ℕ
  cachedPages : ℕ
  quarantinedPages : ℕ
  prefixHits : ℕ
  hitTokens : ℕ
  hitPages : ℕ
  evictedPages : ℕ
  deriving DecidableEq

/-- Counters of the outstanding reservation's state if there is one, else of the committed one. -/
def stats (p : PagedPool) : Outcome PagedError PagedStats := do
  let state := p.pending.elim p.state (·.proposed)
  let free ← TpPaged.freePages state
  let sequences ← count state.sequences.size
  let retained ← (if p.poisoned then .ok 0
    else orPanic (if free ≤ p.limits.physicalPages then some (p.limits.physicalPages - free)
      else none))
  let cached ← (if p.poisoned then .ok 0 else count (state.nodes.countP Option.isSome))
  return { sequences, freePages := if p.poisoned then 0 else free, retainedPages := retained
           cachedPages := cached
           quarantinedPages := if p.poisoned then p.limits.physicalPages else 0
           prefixHits := state.prefixHits
           hitTokens := state.hitTokens
           hitPages := state.hitPages
           evictedPages := state.evictedPages }

/-- Recheck the committed state and the proposed one. -/
def checkInvariants (p : PagedPool) : Outcome PagedError Unit := do
  failIf (p.poisoned = true) .poisoned
  validateState p.state p.limits
  match p.pending with
  | some pending => validateState pending.proposed p.limits
  | none => .ok ()

end PagedPool

end TpPaged

end Ferric
