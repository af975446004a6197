import Kot.Kernel.Bitmap

/-! The physical page allocator of `pmm.c`: a bitmap with a set bit for each page in use and
a list of the free runs of pages, whose nodes are stored in the free pages themselves. -/
namespace Kot.Kernel.Pmm

/-- `free_list_info_t` at the start of a page, with `free_list_info_end_t` as its header. A
pointer to such a record is the number of its page. -/
structure FreeListInfo where
  headerEnd : Option ℕ
  headerStart : Option ℕ
  indexStart : ℕ
  indexEnd : ℕ
  pageCount : ℕ
  last : Option ℕ
  next : Option ℕ
  deriving DecidableEq

def FreeListInfo.zero : FreeListInfo := ⟨none, none, 0, 0, 0, none, none⟩

/-- The variables of the allocator and the records in memory. -/
structure PmmState where
  availablePages : ℕ
  usedPages : ℕ
  reservedPages : ℕ
  totalPages : ℕ
  highestPageIndex : ℕ
  pmmBitmap : Bitmap
  pmmLock : Bool
  pmmFirstFreePageIndex : ℕ
  pmmLastFreeEntry : Option ℕ
  info : ℕ → FreeListInfo

namespace PmmState

def modify (s : PmmState) (page : ℕ) (f : FreeListInfo → FreeListInfo) : PmmState :=
  { s with info := Function.update s.info page (f (s.info page)) }

/-- Reads through a pointer. The bytes of the bitmap are not read as a record. -/
def load (s : PmmState) : Option ℕ → Except Fault FreeListInfo
  | none => .error .nullDereference
  | some page => if s.pmmBitmap.covers page then .error .strayAccess else .ok (s.info page)

/-- Writes fields through a pointer. A record written over the bitmap ends the run. -/
def store (s : PmmState) (f : FreeListInfo → FreeListInfo) : Option ℕ → Except Fault PmmState
  | none => .error .nullDereference
  | some page => if s.pmmBitmap.covers page then .error .strayAccess else .ok (s.modify page f)

/-- Writes fields through a pointer that has been compared with `NULL`. -/
def storeIfSome (s : PmmState) (f : FreeListInfo → FreeListInfo) : Option ℕ → Except Fault PmmState
  | none => .ok s
  | some page => s.store f (some page)

def setEntry (s : PmmState) (p : Option ℕ) : PmmState := { s with pmmLastFreeEntry := p }

/-- The entry of the list moves along when it names the node `page`. -/
def moveEntry (s : PmmState) (page : ℕ) (p : Option ℕ) : PmmState :=
  if s.pmmLastFreeEntry = some page then s.setEntry p else s

/-- `assert(!spinlock_acquire(&pmm_lock))` -/
def acquire (s : PmmState) : Except Fault PmmState :=
  if s.pmmLock then .error .panic else .ok { s with pmmLock := true }

def release (s : PmmState) : PmmState := { s with pmmLock := false }

end PmmState

/-- The variables as `pmm_init` sets them before it looks for usable pages: all pages are
reserved. The free list and the hint still have their static values. -/
def allReserved (info : ℕ → FreeListInfo) (bitmapBase totalPageCount : ℕ) : PmmState where
  availablePages := 0
  usedPages := 0
  reservedPages := totalPageCount
  totalPages := totalPageCount
  highestPageIndex := totalPageCount
  pmmBitmap := bitmapInit bitmapBase (totalPageCount / 8 + 1) true
  pmmLock := false
  pmmFirstFreePageIndex := 0
  pmmLastFreeEntry := none
  info

def pmmAddressToIndex (address : ℕ) : ℕ := address / pageSize

def unlinkNode (s : PmmState) (page : ℕ) (node : FreeListInfo) : Except Fault PmmState := do
  let s ← s.storeIfSome (fun r => { r with next := node.next }) node.last
  let s ← s.storeIfSome (fun r => { r with last := node.last }) node.next
  .ok (s.moveEntry page node.last)

/-- Moves the node of a run behind the pages that are taken from its start. -/
def shrinkRun (s : PmmState) (index pageCount : ℕ) (node : FreeListInfo) :
    Except Fault PmmState := do
  let new := wadd index pageCount
  let s ← s.store (fun r =>
    { r with
      next := node.next
      last := node.last
      pageCount := wsub node.pageCount pageCount
      indexStart := wadd node.indexStart pageCount
      indexEnd := node.indexEnd
      headerEnd := node.headerEnd }) (some new)
  let s := s.moveEntry index (some new)
  s.store (fun r => { r with headerStart := some new }) node.headerEnd

def pmmRemovePagesToFreeList (s : PmmState) (index pageCount : ℕ) : Except Fault PmmState := do
  let node ← s.load (some index)
  if node.pageCount = pageCount then unlinkNode s index node
  else shrinkRun s index pageCount node

/-- The run that starts at `start` is extended by the freed pages and the run behind them. -/
def joinRecords (s : PmmState) (pageCount : ℕ) (nodeNext : FreeListInfo) (start : Option ℕ) :
    Except Fault PmmState := do
  let s ← s.store (fun r => { r with headerEnd := nodeNext.headerEnd }) start
  let s ← s.store (fun r => { r with headerStart := start }) nodeNext.headerEnd
  s.store (fun r =>
    { r with
      indexEnd := nodeNext.indexEnd
      pageCount := wadd r.pageCount (wadd pageCount nodeNext.pageCount) }) start

/-- The run before and the run behind the freed pages become one. -/
def joinBoth (s : PmmState) (index pageCount : ℕ) : Except Fault PmmState := do
  let following := wadd index pageCount
  let nodeNext ← s.load (some following)
  let nodeEnd ← s.load (some (wsub index 1))
  let s ← joinRecords s pageCount nodeNext nodeEnd.headerStart
  unlinkNode s following nodeNext

/-- The run behind the freed pages begins with them. -/
def joinNext (s : PmmState) (index pageCount : ℕ) : Except Fault PmmState := do
  let following := wadd index pageCount
  let nodeNext ← s.load (some following)
  let s ← s.store (fun r => { r with headerEnd := nodeNext.headerEnd }) (some index)
  let s ← s.store (fun r => { r with headerStart := some index }) nodeNext.headerEnd
  let s ← s.store (fun r =>
    { r with
      indexStart := index
      pageCount := wadd nodeNext.pageCount pageCount
      indexEnd := nodeNext.indexEnd
      next := nodeNext.next
      last := nodeNext.last }) (some index)
  .ok (s.moveEntry following (some index))

/-- The run before the freed pages ends with them. -/
def joinLast (s : PmmState) (index pageCount : ℕ) : Except Fault PmmState := do
  let nodeEnd ← s.load (some (wsub index 1))
  let newEnd := wsub (wadd index pageCount) 1
  let s ← s.store (fun r =>
    { r with
      pageCount := wadd r.pageCount pageCount
      indexEnd := newEnd
      headerEnd := some newEnd }) nodeEnd.headerStart
  s.store (fun r => { r with headerStart := nodeEnd.headerStart }) (some newEnd)

def newRun (s : PmmState) (index pageCount : ℕ) : Except Fault PmmState := do
  let newEnd := wsub (wadd index pageCount) 1
  let s ← s.store (fun r =>
    { r with indexStart := index, indexEnd := newEnd, pageCount, headerEnd := some newEnd })
    (some index)
  let s ← s.store (fun r => { r with headerStart := some index }) (some newEnd)
  let s ← s.store (fun r => { r with last := s.pmmLastFreeEntry, next := none }) (some index)
  let s ← s.storeIfSome (fun r => { r with next := some index }) s.pmmLastFreeEntry
  .ok (s.setEntry (some index))

def pmmAddPageToFreeList (s : PmmState) (index pageCount : ℕ) : Except Fault PmmState := do
  let nextUsed ← bitmapGetBit s.pmmBitmap (wadd index pageCount)
  let lastUsed ← bitmapGetBit s.pmmBitmap (wsub index 1)
  match nextUsed, lastUsed with
  | false, false => joinBoth s index pageCount
  | false, true => joinNext s index pageCount
  | true, false => joinLast s index pageCount
  | true, true => newRun s index pageCount

/-- What `pmm_free_pages_index` does after the list: bits, counters, hint. -/
def clearPages (s : PmmState) (index pageCount : ℕ) : Except Fault PmmState := do
  let pmmBitmap ← bitmapSetBits s.pmmBitmap index pageCount false
  .ok { s with
    pmmBitmap
    availablePages := wadd s.availablePages pageCount
    usedPages := wsub s.usedPages pageCount
    pmmFirstFreePageIndex :=
      if index < s.pmmFirstFreePageIndex then index else s.pmmFirstFreePageIndex }

def pmmFreePagesIndex (s : PmmState) (index pageCount : ℕ) : Except Fault PmmState := do
  let s ← s.acquire
  let s ← pmmAddPageToFreeList s index pageCount
  let s ← clearPages s index pageCount
  .ok s.release

def pmmLockPagesIndex (s : PmmState) (index pageCount : ℕ) : Except Fault PmmState := do
  let pmmBitmap ← bitmapSetBits s.pmmBitmap index pageCount true
  .ok { s with
    pmmBitmap
    availablePages := wsub s.availablePages pageCount
    usedPages := wadd s.usedPages pageCount }

def pmmUnreservePagesIndex (s : PmmState) (index pageCount : ℕ) : Except Fault PmmState :=
  pmmFreePagesIndex { s with reservedPages := wsub s.reservedPages pageCount } index pageCount

def pmmReservePagesIndex (s : PmmState) (index pageCount : ℕ) : Except Fault PmmState :=
  pmmLockPagesIndex { s with reservedPages := wadd s.reservedPages pageCount } index pageCount

/-- The loop of `pmm_allocate_page`: the first clear bit among the next `pages` pages, and
the bitmap with that bit set. -/
def scanPages (bitmap : Bitmap) (index : ℕ) : (pages : ℕ) → Except Fault (Option (ℕ × Bitmap))
  | 0 => .ok none
  | pages + 1 => do
    let (used, bitmap) ← bitmapGetSetBit bitmap index true
    if used then scanPages bitmap (index + 1) pages else .ok (some (index, bitmap))

def pmmAllocatePage (s : PmmState) : Except Fault (ℕ × PmmState) := do
  let s ← s.acquire
  let found ← scanPages s.pmmBitmap s.pmmFirstFreePageIndex
    (s.highestPageIndex - s.pmmFirstFreePageIndex)
  match found with
  | none => .error .panic
  | some (index, pmmBitmap) => do
    let s ← pmmRemovePagesToFreeList
      { s with
        pmmBitmap
        pmmFirstFreePageIndex := index
        availablePages := wsub s.availablePages 1
        usedPages := wadd s.usedPages 1 } index 1
    .ok (index * pageSize, s.release)

/-- The loop of `pmm_allocate_pages`: the first node with enough pages. `turns` bounds the
walk; a call returns when some bound is enough. -/
def findRun (s : PmmState) (pageCount : ℕ) : (turns : ℕ) → Option ℕ → Except Fault FreeListInfo
  | 0, _ => .error .endlessLoop
  | turns + 1, p => do
    let node ← s.load p
    if node.pageCount < pageCount then
      match node.last with
      | none => .error .panic
      | some l => findRun s pageCount turns (some l)
    else .ok node

def pmmAllocatePages (turns : ℕ) (s : PmmState) (pageCount : ℕ) : Except Fault (ℕ × PmmState) := do
  let s ← s.acquire
  let node ← findRun s pageCount turns s.pmmLastFreeEntry
  let s ← pmmLockPagesIndex s node.indexStart pageCount
  let s ← pmmRemovePagesToFreeList s node.indexStart pageCount
  .ok (node.indexStart * pageSize, s.release)

def pmmFreePages (s : PmmState) (address pageCount : ℕ) : Except Fault PmmState :=
  pmmFreePagesIndex s (pmmAddressToIndex address) pageCount

def pmmFreePage (s : PmmState) (address : ℕ) : Except Fault PmmState := pmmFreePages s address 1

def pmmLockPages (s : PmmState) (address pageCount : ℕ) : Except Fault PmmState :=
  pmmLockPagesIndex s (pmmAddressToIndex address) pageCount

def pmmLockPage (s : PmmState) (address : ℕ) : Except Fault PmmState := pmmLockPages s address 1

def pmmUnreservePages (s : PmmState) (address pageCount : ℕ) : Except Fault PmmState :=
  pmmUnreservePagesIndex s (pmmAddressToIndex address) pageCount

def pmmUnreservePage (s : PmmState) (address : ℕ) : Except Fault PmmState :=
  pmmUnreservePages s address 1

def pmmReservePages (s : PmmState) (address pageCount : ℕ) : Except Fault PmmState :=
  pmmReservePagesIndex s (pmmAddressToIndex address) pageCount

def pmmReservePage (s : PmmState) (address : ℕ) : Except Fault PmmState :=
  pmmReservePages s address 1

end Kot.Kernel.Pmm
