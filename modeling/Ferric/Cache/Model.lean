import Ferric.Lib.Action
import Ferric.Spec.Plan
import Mathlib.Logic.Function.Basic

/-!
# The paged KV pool of the engine

`cache.rs`: fixed-capacity metadata of a paged key-value cache. A request slot holds a chain of page
ids; a page slot holds a generation, a state, how many of its token cells are initialized, and a
mask of the request slots that refer to it. Free pages are on a stack, and a bitmap says which they
are.

A page is *writable* by the request that took it from the stack until its first share, which *seals*
it. The last request that lets go of a page puts it back on the stack under the next generation.

## Conventions

* Numbers of the source's `u32` are natural numbers, and the arguments of an operation are not even
  bounded; only the construction, which stores its arguments, takes `u32` values. Checked additions
  are `checkedAdd 32`; a plain addition that does not fit, a plain subtraction below zero and an
  index out of range are panics.
* The four arrays and the page table of a request are functions of the index. Their lengths are the
  build bounds, and `inBounds` stands where the source indexes them.
* A method that returns a `Result` is an `Action`: an error value comes with the pool that the call
  left behind. The private helpers have no error values and are functions to the pool they return.
* `RequestKey` has the two fields of `RequestId`, which is used for both.
-/

namespace Ferric

namespace Cache

open Spec Ferric.Action

/-- `MAX_PAGE_SLOTS` -/
def maxPageSlots : ℕ := 16384

/-- `MAX_REQUEST_SLOTS` -/
def maxRequestSlots : ℕ := 32

/-- `MAX_PAGES_PER_REQUEST` -/
def maxPagesPerRequest : ℕ := 512

/-- `u32::MAX` -/
def u32Max : ℕ := 2 ^ 32 - 1

/-- A generational page identity. -/
structure PageId where
  index : ℕ
  generation : ℕ
  deriving DecidableEq

/-- `PageId::EMPTY` -/
def PageId.empty : PageId := ⟨0, 0⟩

inductive PageState where
  | free
  | writable (ownerSlot : ℕ)
  | sealed
  deriving DecidableEq

structure PageSlot where
  generation : ℕ
  state : PageState
  initializedTokens : ℕ
  referenceMask : BitVec 32
  deriving DecidableEq

/-- `PageSlot::free` -/
def PageSlot.free : PageSlot where
  generation := 1
  state := .free
  initializedTokens := 0
  referenceMask := 0

structure RequestSlot where
  generation : ℕ
  live : Bool
  committedTokens : ℕ
  residentTokens : ℕ
  pageCount : ℕ
  pages : ℕ → PageId

/-- `RequestSlot::empty` -/
def RequestSlot.empty : RequestSlot where
  generation := 1
  live := false
  committedTokens := 0
  residentTokens := 0
  pageCount := 0
  pages := fun _ => .empty

/-- The last page of the chain, or `PageId::EMPTY`. -/
def RequestSlot.tailPage (slot : RequestSlot) : PageId :=
  if slot.pageCount = 0 then .empty else slot.pages (slot.pageCount - 1)

inductive Capacity where
  | pages
  | pageTokens
  | contextTokens
  | requestPages
  deriving DecidableEq

inductive Invariant where
  | freeStack
  | pageState
  | referenceCount
  | tentativePage
  deriving DecidableEq

inductive KvError where
  | zeroCapacity (capacity : Capacity)
  | capacityExceedsBuildBound (capacity : Capacity)
  | pageExceedsContext
  | invalidRequestSlot (slot : ℕ)
  | requestSlotOccupied (slot : ℕ)
  | unknownRequest (slot : ℕ)
  | staleRequestGeneration (slot expected actual : ℕ)
  | requestGenerationExhausted (slot : ℕ)
  | contextExceeded
  | commitExceedsResident
  | requestPageTableFull
  | outOfPages
  | invalidPage (page : PageId)
  | stalePage (page : PageId)
  | generationExhausted (page : PageId)
  | referenceCountExhausted (page : PageId)
  | sameRequestShare
  | prefixNotPageAligned
  | prefixExceedsCommitted
  | prefixPageIncomplete (page : PageId)
  | targetNotEmpty
  | readOutOfBounds
  | readUninitialized (page : PageId)
  | invalidQuiescencePermit
  | invariantViolation (which : Invariant)
  deriving DecidableEq

structure KvPool where
  pageTokens : ℕ
  maxContextTokens : ℕ
  pageLimit : ℕ
  pages : ℕ → PageSlot
  freeStack : ℕ → ℕ
  freeLen : ℕ
  freeBitmap : ℕ → Bool
  requests : ℕ → RequestSlot

/-- An index expression on an array of `length` elements. -/
def inBounds (length index : ℕ) : Outcome KvError Unit :=
  orPanic (if index < length then some () else none)

/-- `a + b` in `u32`. -/
def plus (a b : ℕ) : Outcome KvError ℕ := orPanic (checkedAdd 32 a b)

/-- `a - b` in `u32`. -/
def minus (a b : ℕ) : Outcome KvError ℕ := orPanic (checkedSub a b)

/-- `set_reference` -/
def setReference (mask : BitVec 32) (requestSlot : ℕ) : BitVec 32 := mask ||| (1#32 <<< requestSlot)

/-- `clear_reference` -/
def clearReference (mask : BitVec 32) (requestSlot : ℕ) : BitVec 32 :=
  mask &&& ~~~(1#32 <<< requestSlot)

namespace KvPool

/-- `new_bounded`. The two sums are over `u64` and cannot overflow. -/
def newBounded (pageCount pageTokens maxContextTokens : UInt32) : Outcome KvError KvPool := do
  failIf (pageCount.toNat = 0) (.zeroCapacity .pages)
  failIf (pageTokens.toNat = 0) (.zeroCapacity .pageTokens)
  failIf (maxContextTokens.toNat = 0) (.zeroCapacity .contextTokens)
  failIf (pageCount.toNat > maxPageSlots) (.capacityExceedsBuildBound .pages)
  failIf (pageTokens.toNat > maxContextTokens.toNat) .pageExceedsContext
  let roundedContext := maxContextTokens.toNat + pageTokens.toNat - 1
  failIf (roundedContext / pageTokens.toNat > maxPagesPerRequest)
    (.capacityExceedsBuildBound .requestPages)
  return {
    pageTokens := pageTokens.toNat
    maxContextTokens := maxContextTokens.toNat
    pageLimit := pageCount.toNat
    pages := fun _ => .free
    freeStack := fun index => if index < pageCount.toNat then pageCount.toNat - index - 1 else 0
    freeLen := pageCount.toNat
    freeBitmap := fun _ => true
    requests := fun _ => .empty }

variable (pool : KvPool)

/-- `self.pages[index]` -/
def pageAt (index : ℕ) : Outcome KvError PageSlot := do
  inBounds maxPageSlots index
  return pool.pages index

/-- `self.requests[index]` -/
def requestAt (index : ℕ) : Outcome KvError RequestSlot := do
  inBounds maxRequestSlots index
  return pool.requests index

/-- `self.requests[index].pages[position]` -/
def chainAt (index position : ℕ) : Outcome KvError PageId := do
  let request ← pool.requestAt index
  inBounds maxPagesPerRequest position
  return request.pages position

/-- `live_request_index` -/
def liveRequestIndex (request : RequestId) : Outcome KvError ℕ := do
  failIf (request.slot ≥ maxRequestSlots) (.invalidRequestSlot request.slot)
  let slot ← pool.requestAt request.slot
  failIf (!slot.live) (.unknownRequest request.slot)
  failIf (slot.generation ≠ request.generation)
    (.staleRequestGeneration request.slot slot.generation request.generation)
  return request.slot

/-- `page_slot` -/
def pageSlot (page : PageId) : Outcome KvError PageSlot := do
  failIf (page.index ≥ pool.pageLimit) (.invalidPage page)
  let slot ← pool.pageAt page.index
  failIf (slot.generation ≠ page.generation) (.stalePage page)
  return slot

/-- `page_has_other_reference` -/
def pageHasOtherReference (pageIndex excludedSlot : ℕ) : Outcome KvError Bool := do
  let slot ← pool.pageAt pageIndex
  return slot.referenceMask &&& ~~~(1#32 <<< excludedSlot) ≠ 0

/-- `validate_read_key` -/
def validateReadKey (request : RequestId) (logicalOffset span : ℕ) : Outcome KvError Unit := do
  let requestIndex ← pool.liveRequestIndex request
  let limit ← orErr .readOutOfBounds (checkedAdd 32 logicalOffset span)
  let slot ← pool.requestAt requestIndex
  failIf (limit > slot.residentTokens) .readOutOfBounds

/-! ### The writes

What each helper assigns, once its operands are known. -/

/-- Replace one request slot. -/
def setRequest (index : ℕ) (slot : RequestSlot) : KvPool :=
  { pool with requests := Function.update pool.requests index slot }

/-- Replace one page slot. -/
def setPage (index : ℕ) (slot : PageSlot) : KvPool :=
  { pool with pages := Function.update pool.pages index slot }

/-- Change how much of the tail page is initialized. -/
def resizeTail (index pageIndex initialized resident : ℕ) : KvPool :=
  (pool.setPage pageIndex { pool.pages pageIndex with initializedTokens := initialized }).setRequest
    index { pool.requests index with residentTokens := resident }

/-- Take a page from the stack and put it at the end of a chain. -/
def pushFresh (index pageIndex written : ℕ) : KvPool :=
  let slot := pool.pages pageIndex
  let request := pool.requests index
  let popped := { pool with
    freeLen := pool.freeLen - 1
    freeBitmap := Function.update pool.freeBitmap pageIndex false }
  (popped.setPage pageIndex { slot with
      state := .writable index
      initializedTokens := written
      referenceMask := setReference slot.referenceMask index }).setRequest index { request with
    pages := Function.update request.pages request.pageCount ⟨pageIndex, slot.generation⟩
    pageCount := request.pageCount + 1
    residentTokens := request.residentTokens + written }

/-- Seal a page and put it at the given position of another chain. -/
def pushShared (targetIndex position : ℕ) (page : PageId) (state : PageState) : KvPool :=
  let slot := pool.pages page.index
  let target := pool.requests targetIndex
  (pool.setPage page.index { slot with
      state := state
      referenceMask := setReference slot.referenceMask targetIndex }).setRequest targetIndex
    { target with
      pages := Function.update target.pages position page
      pageCount := target.pageCount + 1
      residentTokens := target.residentTokens + pool.pageTokens
      committedTokens := target.committedTokens + pool.pageTokens }

/-- Take the last page off a chain. -/
def popTail (index resident committed : ℕ) : KvPool :=
  let request := pool.requests index
  pool.setRequest index { request with
    pages := Function.update request.pages (request.pageCount - 1) .empty
    pageCount := request.pageCount - 1
    residentTokens := resident
    committedTokens := committed }

/-- Put a page back on the stack under a new generation. -/
def recycle (pageIndex generation : ℕ) : KvPool :=
  let freed := { pool with
    freeBitmap := Function.update pool.freeBitmap pageIndex true
    freeStack := Function.update pool.freeStack pool.freeLen pageIndex
    freeLen := pool.freeLen + 1 }
  freed.setPage pageIndex { PageSlot.free with generation := generation }

/-- Drop one request slot from the mask of a page. -/
def dereference (pageIndex requestSlot : ℕ) : KvPool :=
  let slot := pool.pages pageIndex
  pool.setPage pageIndex
    { slot with referenceMask := clearReference slot.referenceMask requestSlot }

/-! ### The private helpers -/

/-- `append_existing_page` -/
def appendExistingPage (requestIndex : ℕ) (page : PageId) (written : ℕ) :
    Outcome KvError KvPool := do
  let slot ← pool.pageAt page.index
  let request ← pool.requestAt requestIndex
  let initialized ← plus slot.initializedTokens written
  let resident ← plus request.residentTokens written
  return pool.resizeTail requestIndex page.index initialized resident

/-- `append_fresh_page`. The new owner is `request.slot`, which is `request_index`. -/
def appendFreshPage (requestIndex written : ℕ) : Outcome KvError KvPool := do
  let stackIndex ← minus pool.freeLen 1
  inBounds maxPageSlots stackIndex
  let pageIndex := pool.freeStack stackIndex
  let request ← pool.requestAt requestIndex
  inBounds maxPageSlots pageIndex
  inBounds maxPagesPerRequest request.pageCount
  let _ ← plus request.pageCount 1
  let _ ← plus request.residentTokens written
  return pool.pushFresh requestIndex pageIndex written

/-- `share_next_page`. The reference added is that of `target_slot`, which is `target_index`. -/
def shareNextPage (sourceIndex targetIndex position : ℕ) : Outcome KvError KvPool := do
  let page ← pool.chainAt sourceIndex position
  let slot ← pool.pageAt page.index
  let target ← pool.requestAt targetIndex
  let _ ← plus target.pageCount 1
  let _ ← plus target.residentTokens pool.pageTokens
  let _ ← plus target.committedTokens pool.pageTokens
  match slot.state with
  | .writable _ => return pool.pushShared targetIndex position page .sealed
  | .sealed => return pool.pushShared targetIndex position page .sealed
  | .free => return pool.pushShared targetIndex position page .free

/-- `truncate_writable_tail` -/
def truncateWritableTail (requestIndex : ℕ) (page : PageId) (newResident tailTokens : ℕ) :
    Outcome KvError KvPool := do
  inBounds maxPageSlots page.index
  inBounds maxRequestSlots requestIndex
  return pool.resizeTail requestIndex page.index tailTokens newResident

/-- `raise_committed` -/
def raiseCommitted (requestIndex committed : ℕ) : Outcome KvError KvPool := do
  let request ← pool.requestAt requestIndex
  return pool.setRequest requestIndex { request with committedTokens := committed }

/-- `drop_sole_tail` -/
def dropSoleTail (requestIndex : ℕ) (page : PageId) (newCommitted : ℕ) :
    Outcome KvError KvPool := do
  let request ← pool.requestAt requestIndex
  let position ← minus request.pageCount 1
  let slot ← pool.pageAt page.index
  let generation ← plus slot.generation 1
  let newResident ← minus request.residentTokens slot.initializedTokens
  inBounds maxPagesPerRequest position
  inBounds maxPageSlots pool.freeLen
  let _ ← plus pool.freeLen 1
  return (pool.popTail requestIndex newResident newCommitted).recycle page.index generation

/-- `detach_shared_tail`. The reference cleared is that of `request_slot`, which is
`request_index`. -/
def detachSharedTail (requestIndex : ℕ) (page : PageId) (newCommitted : ℕ) :
    Outcome KvError KvPool := do
  let request ← pool.requestAt requestIndex
  let position ← minus request.pageCount 1
  let slot ← pool.pageAt page.index
  let newResident ← minus request.residentTokens slot.initializedTokens
  inBounds maxPagesPerRequest position
  return (pool.popTail requestIndex newResident newCommitted).dereference page.index requestIndex

/-- `retire_empty_request` -/
def retireEmptyRequest (requestIndex : ℕ) : Outcome KvError KvPool := do
  let request ← pool.requestAt requestIndex
  let generation ← plus request.generation 1
  return pool.setRequest requestIndex { request with live := false, generation := generation }

/-- The room left in the last page of a chain, as `append_tentative_key` computes it. -/
def tailCapacity (request : RequestId) (slot : RequestSlot) : Outcome KvError ℕ := do
  if slot.pageCount = 0 then return 0
  inBounds maxPagesPerRequest (slot.pageCount - 1)
  let page ← pool.pageSlot slot.tailPage
  match page.state with
  | .writable ownerSlot =>
    failIf (ownerSlot ≠ request.slot) (.invariantViolation .pageState)
    minus pool.pageTokens page.initializedTokens
  | .sealed => return 0
  | .free => .error (.err (.invariantViolation .pageState))

/-- The loop that looks for an exhausted generation in `positions` of the chain. -/
def checkGenerations (requestIndex : ℕ) (positions : List ℕ) : Outcome KvError Unit :=
  positions.foldlM (fun _ position => do
    let page ← pool.chainAt requestIndex position
    let slot ← pool.pageAt page.index
    failIf (slot.generation = u32Max) (.generationExhausted page)) ()

/-- The loop that counts the pages only this request refers to. -/
def countReclaims (request : RequestId) (requestIndex pageCount : ℕ) : Outcome KvError ℕ :=
  (List.range pageCount).foldlM (fun reclaimCount position => do
    let page ← pool.chainAt requestIndex position
    let shared ← pool.pageHasOtherReference page.index request.slot
    if shared then return reclaimCount
    let slot ← pool.pageAt page.index
    failIf (slot.generation = u32Max) (.generationExhausted page)
    plus reclaimCount 1) 0

/-- The check that the pages to come back fit on the stack. -/
def checkStackRoom (reclaimCount : ℕ) : Outcome KvError Unit :=
  match checkedAdd 32 pool.freeLen reclaimCount with
  | none => .error (.err (.invariantViolation .freeStack))
  | some total => failIf (total > pool.pageLimit) (.invariantViolation .freeStack)

/-- The loop over `required_pages`. -/
def appendFreshPages (requestIndex : ℕ) : ℕ → ℕ → KvPool → Outcome KvError KvPool
  | 0, _, pool => return pool
  | left + 1, remaining, pool => do
    let written := min remaining pool.pageTokens
    let pool ← pool.appendFreshPage requestIndex written
    appendFreshPages requestIndex left (remaining - written) pool

/-- The loop over the shared positions. -/
def sharePages (sourceIndex targetIndex sharedPages : ℕ) : Outcome KvError KvPool :=
  (List.range sharedPages).foldlM (fun pool position =>
    pool.shareNextPage sourceIndex targetIndex position) pool

/-- The loop of `finalize_tentative_key` while `remaining_pages` exceeds `retained_pages`, by the
number of pages left to drop. -/
def dropTails (requestIndex committed retainedPages : ℕ) : ℕ → KvPool → Outcome KvError KvPool
  | 0, pool => return pool
  | left + 1, pool => do
    let page ← pool.chainAt requestIndex (retainedPages + left)
    let pool ← pool.dropSoleTail requestIndex page committed
    dropTails requestIndex committed retainedPages left pool

/-- One round of the loop of `release_request_key`. -/
def releaseTail (request : RequestId) (requestIndex remaining : ℕ) : Outcome KvError KvPool := do
  let tailPosition ← minus remaining 1
  let page ← pool.chainAt requestIndex tailPosition
  let slot ← pool.pageAt page.index
  let current ← pool.requestAt requestIndex
  let newResident ← minus current.residentTokens slot.initializedTokens
  let newCommitted := min current.committedTokens newResident
  let shared ← pool.pageHasOtherReference page.index request.slot
  if shared then pool.detachSharedTail requestIndex page newCommitted
  else pool.dropSoleTail requestIndex page newCommitted

/-- The loop of `release_request_key`. -/
def releaseTails (request : RequestId) (requestIndex : ℕ) : ℕ → KvPool → Outcome KvError KvPool
  | 0, pool => return pool
  | remaining + 1, pool => do
    let pool ← pool.releaseTail request requestIndex (remaining + 1)
    releaseTails request requestIndex remaining pool

end KvPool

/-! ### The operations -/

section Operations

open KvPool

/-- `create_request_key` -/
def createRequestKey (request : RequestId) : Action KvPool KvError Unit := do
  Action.failIf (request.slot ≥ maxRequestSlots) (.invalidRequestSlot request.slot)
  let slot ← query (·.requestAt request.slot)
  Action.failIf slot.live (.requestSlotOccupied request.slot)
  Action.failIf (slot.generation ≠ request.generation)
    (.staleRequestGeneration request.slot slot.generation request.generation)
  modify (·.setRequest request.slot { slot with live := true })

/-- The writes of `append_tentative_key`, after its last check. -/
def writeAppend (requestIndex : ℕ) (tailPage : PageId) (tokenCount tailCapacity requiredPages : ℕ) :
    Action KvPool KvError Unit := do
  let tailWritten := min tokenCount tailCapacity
  if tailWritten > 0 then
    call (·.appendExistingPage requestIndex tailPage tailWritten)
  call (appendFreshPages requestIndex requiredPages (tokenCount - tailWritten))

/-- `append_tentative_key` -/
def appendTentativeKey (request : RequestId) (tokenCount : ℕ) : Action KvPool KvError Unit := do
  let requestIndex ← query (·.liveRequestIndex request)
  let pool ← get
  let slot ← query (·.requestAt requestIndex)
  let newResident ← query fun _ =>
    orErr .contextExceeded (checkedAdd 32 slot.residentTokens tokenCount)
  Action.failIf (newResident > pool.maxContextTokens) .contextExceeded
  if tokenCount = 0 then
    return ()
  else
    let capacity ← query (·.tailCapacity request slot)
    let afterTail := tokenCount - capacity
    let fullPages := afterTail / pool.pageTokens
    let partialTokens := afterTail % pool.pageTokens
    let extraPage := min partialTokens 1
    let requiredPages ← query fun _ =>
      orErr .requestPageTableFull (checkedAdd 32 fullPages extraPage)
    let finalPageCount ← query fun _ =>
      orErr .requestPageTableFull (checkedAdd 32 slot.pageCount requiredPages)
    Action.failIf (finalPageCount > maxPagesPerRequest) .requestPageTableFull
    Action.failIf (requiredPages > pool.freeLen) .outOfPages
    writeAppend requestIndex slot.tailPage tokenCount capacity requiredPages

/-- `share_committed_prefix_key` -/
def shareCommittedPrefixKey (source target : RequestId) (tokenCount : ℕ) :
    Action KvPool KvError Unit := do
  let sourceIndex ← query (·.liveRequestIndex source)
  let targetIndex ← query (·.liveRequestIndex target)
  Action.failIf (sourceIndex = targetIndex) .sameRequestShare
  let pool ← get
  let sharedPages := tokenCount / pool.pageTokens
  let alignedTokens := sharedPages * pool.pageTokens
  Action.failIf (tokenCount = 0 ∨ alignedTokens ≠ tokenCount) .prefixNotPageAligned
  let sourceSlot ← query (·.requestAt sourceIndex)
  Action.failIf (tokenCount > sourceSlot.committedTokens) .prefixExceedsCommitted
  let targetSlot ← query (·.requestAt targetIndex)
  Action.failIf (targetSlot.residentTokens ≠ 0) .targetNotEmpty
  Action.failIf (sharedPages > maxPagesPerRequest) .requestPageTableFull
  call (·.sharePages sourceIndex targetIndex sharedPages)

/-- The writes of `finalize_tentative_key`, after its last check. -/
def writeFinalize (requestIndex committed reclaimCount retainedPages tailTokens : ℕ) :
    Action KvPool KvError Unit := do
  call (·.raiseCommitted requestIndex committed)
  call (dropTails requestIndex committed retainedPages reclaimCount)
  if tailTokens ≠ 0 then
    let tail ← query (·.chainAt requestIndex (retainedPages - 1))
    call (·.truncateWritableTail requestIndex tail committed tailTokens)

/-- `finalize_tentative_key` -/
def finalizeTentativeKey (request : RequestId) (acceptedTokens : ℕ) :
    Action KvPool KvError Unit := do
  let requestIndex ← query (·.liveRequestIndex request)
  let pool ← get
  let slot ← query (·.requestAt requestIndex)
  let committed ← query fun _ =>
    orErr .commitExceedsResident (checkedAdd 32 slot.committedTokens acceptedTokens)
  Action.failIf (committed > slot.residentTokens) .commitExceedsResident
  let fullPages := committed / pool.pageTokens
  let tailTokens := committed % pool.pageTokens
  let extraPage := min tailTokens 1
  let retainedPages ← query fun _ => plus fullPages extraPage
  let reclaimCount ← query fun _ => minus slot.pageCount retainedPages
  query (·.checkStackRoom reclaimCount)
  query (·.checkGenerations requestIndex (List.range' retainedPages reclaimCount))
  writeFinalize requestIndex committed reclaimCount retainedPages tailTokens

/-- `release_request_key` -/
def releaseRequestKey (request : RequestId) : Action KvPool KvError Unit := do
  let requestIndex ← query (·.liveRequestIndex request)
  let slot ← query (·.requestAt requestIndex)
  Action.failIf (slot.generation = u32Max) (.requestGenerationExhausted request.slot)
  let reclaimCount ← query (·.countReclaims request requestIndex slot.pageCount)
  query (·.checkStackRoom reclaimCount)
  call (releaseTails request requestIndex slot.pageCount)
  call (·.retireEmptyRequest requestIndex)

end Operations

end Cache

end Ferric
