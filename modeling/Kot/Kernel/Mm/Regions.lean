import Mathlib.Logic.Function.Basic
import Kot.Kernel.Machine

/-! The region list of a process memory handler: the code of `mm.c` that allocates and
frees address ranges. Regions are heap blocks linked through `next` and `last`. -/
namespace Kot.Kernel.Mm

structure MemoryRegion where
  base : ℕ
  size : ℕ
  blockCount : ℕ
  isFree : Bool
  next : Option Ptr
  last : Option Ptr
  deriving DecidableEq

/-- The page-table root and the fields of a handler that its region list uses. -/
structure MemoryHandler where
  base : ℕ
  size : ℕ
  regionCount : ℕ
  firstRegion : Option Ptr
  lastFreeRegion : Option Ptr
  vmmSpace : ℕ
  lock : Bool

/-- A handler, the memory its region pointers point into, and the live heap blocks. -/
structure MmState where
  handler : MemoryHandler
  region : Ptr → MemoryRegion
  live : List Ptr

inductive Errno
  | success
  | einval
  | enomem
  deriving DecidableEq, Repr

namespace MmState

def modify (s : MmState) (r : Ptr) (f : MemoryRegion → MemoryRegion) : MmState :=
  { s with region := Function.update s.region r (f (s.region r)) }

def setNext (s : MmState) (r : Ptr) (n : Option Ptr) : MmState :=
  s.modify r fun m => { m with next := n }

def setLast (s : MmState) (r : Ptr) (n : Option Ptr) : MmState :=
  s.modify r fun m => { m with last := n }

def setFree (s : MmState) (r : Ptr) (b : Bool) : MmState :=
  s.modify r fun m => { m with isFree := b }

def setLock (s : MmState) (b : Bool) : MmState := { s with handler := { s.handler with lock := b } }

/-- `assert(!spinlock_acquire(&handler->lock))`: a lock that is held is never released
while the caller spins, so the acquire gives up and the assertion fails. -/
def acquire (s : MmState) : Except Fault MmState :=
  if s.handler.lock then .error .panic else .ok (s.setLock true)

def release (s : MmState) : MmState := s.setLock false

end MmState

/-- What `memset(region, 0xff, sizeof(memory_region_t))` leaves behind. -/
def poisoned : MemoryRegion where
  base := 2 ^ 64 - 1
  size := 2 ^ 64 - 1
  blockCount := 2 ^ 64 - 1
  isFree := true
  next := some (2 ^ 64 - 1)
  last := some (2 ^ 64 - 1)

def removeRegion (s : MmState) (region : Ptr) : MmState :=
  let s := match (s.region region).last with
    | some l => s.setNext l (s.region region).next
    | none => s
  let s := match (s.region region).next with
    | some n => s.setLast n (s.region region).last
    | none => s
  let lastFree := if s.handler.lastFreeRegion = some region then
      match (s.region region).last with
      | some l => some l
      | none => (s.region region).next
    else s.handler.lastFreeRegion
  { handler := { s.handler with
      lastFreeRegion := lastFree, regionCount := wsub s.handler.regionCount 1 }
    region := Function.update s.region region poisoned
    live := s.live.erase region }

/-- Returns the state and the region the caller goes on with: the new upper part after a
cut, the region itself when there is nothing to cut. -/
def splitRegion (A : Allocator) (s : MmState) (region : Ptr) (size : ℕ) : MmState × Ptr :=
  if size = 0 ∨ (s.region region).size = size then (s, region)
  else if (s.region region).size < size then (s, region)
  else
    let r := s.region region
    let newRegion := A.malloc s.live
    let s := { s with live := newRegion :: s.live }
    let s := s.modify newRegion fun _ =>
      { base := wadd r.base size
        size := r.size - size
        blockCount := divRoundupPage (r.size - size)
        isFree := r.isFree
        last := some region
        next := r.next }
    let s := match r.next with
      | some n => s.setLast n (some newRegion)
      | none => s
    let s := s.modify region fun m =>
      { m with next := some newRegion, size := size, blockCount := divRoundupPage size }
    ({ s with handler := { s.handler with regionCount := wadd s.handler.regionCount 1 } },
      newRegion)

/-- `none` is the null result for a region without successor. -/
def mergeRegion (s : MmState) (region : Ptr) : Option MmState :=
  match (s.region region).next with
  | some source =>
    let s := s.modify region fun m =>
      { m with
        size := wadd m.size (s.region source).size
        blockCount := wadd m.blockCount (s.region source).blockCount }
    some (removeRegion s source)
  | none => none

/-- The loop of `mm_get_region`, which counts regions instead of testing for the end. -/
def findRegion (s : MmState) (base : ℕ) : ℕ → Option Ptr → Except Fault (Option Ptr)
  | 0, _ => .ok none
  | _ + 1, none => .error .nullDereference
  | i + 1, some r =>
    if (s.region r).base ≤ base ∧ base < wadd (s.region r).base (s.region r).size then
      .ok (some r)
    else findRegion s base i (s.region r).next

def mmGetRegion (s : MmState) (base : ℕ) : Except Fault (Option Ptr) :=
  if wadd s.handler.base s.handler.size < base then .ok none
  else findRegion s base s.handler.regionCount s.handler.firstRegion

/-- The loop of a request without fixed address: the first free region that is large enough. -/
def findFree (s : MmState) (size : ℕ) : ℕ → Option Ptr → Except Fault (Option Ptr)
  | 0, _ => .ok none
  | _ + 1, none => .error .nullDereference
  | i + 1, some r =>
    if (s.region r).isFree ∧ size ≤ (s.region r).size then .ok (some r)
    else findFree s size i (s.region r).next

/-- `while(region->size < size)`: successors are merged in; `false` when they run out.
Each turn removes a region, so the region count bounds the turns. -/
def growRegion (region : Ptr) (size : ℕ) : ℕ → MmState → Except Fault (Bool × MmState)
  | 0, _ => .error .endlessLoop
  | i + 1, s =>
    if (s.region region).size < size then
      match mergeRegion s region with
      | none => .ok (false, s)
      | some s => growRegion region size i s
    else .ok (true, s)

/-- Merging where the caller has just seen a successor. -/
def mergeChecked (s : MmState) (region : Ptr) : Except Fault MmState :=
  match mergeRegion s region with
  | none => .error .panic
  | some s => .ok s

/-- `if(region->next){ if(region->next->is_free == free){ merge } }` -/
def settleNext (s : MmState) (region : Ptr) (free : Bool) : Except Fault MmState :=
  match (s.region region).next with
  | some n => if (s.region n).isFree = free then mergeChecked s region else .ok s
  | none => .ok s

/-- `if(region->last){ if(region->last->is_free == free){ merge } }` -/
def settleLast (s : MmState) (region : Ptr) (free : Bool) : Except Fault MmState :=
  match (s.region region).last with
  | some l => if (s.region l).isFree = free then mergeChecked s l else .ok s
  | none => .ok s

/-- The common end of both entry points: neighbours of the wanted status are merged in
and the region takes that status. -/
def settleRegion (s : MmState) (region : Ptr) (free : Bool) : Except Fault MmState := do
  let s ← settleNext s region free
  settleLast (s.setFree region free) region free

/-- The request as the code rounds it: page-aligned base, size in whole pages. -/
def roundRequest (base size : ℕ) : ℕ × ℕ :=
  let offset := base % pageSize
  let size := if offset ≠ 0 then wadd size offset else size
  let base := base - offset
  let size := if size % pageSize ≠ 0 then wadd (size - size % pageSize) pageSize else size
  (base, size)

/-- The `is_fixed` branch once the region of the base is known. -/
def allocateFixed (A : Allocator) (s : MmState) (region : Ptr) (base size : ℕ) :
    Except Fault (Errno × Option ℕ × MmState) := do
  let sizeUnusable := wsub base (s.region region).base
  let sizeNeed := wadd sizeUnusable size
  let (enough, s) ← growRegion region sizeNeed (s.handler.regionCount + 1) s
  if ¬ enough ∧ wadd s.handler.base s.handler.size <
      wadd (s.region region).base (s.region region).size then
    .ok (.einval, none, s)
  else
    let (s, region) := if (s.region region).isFree then
        let (s, region) := splitRegion A s region sizeUnusable
        ((splitRegion A s region size).1, region)
      else (s, region)
    let s ← settleRegion s region false
    .ok (.success, some base, s.release)

/-- The branch without fixed address once a free region is found. -/
def allocateFree (A : Allocator) (s : MmState) (region : Ptr) (size : ℕ) :
    Except Fault (Errno × Option ℕ × MmState) := do
  let s := (splitRegion A s region size).1
  let result := (s.region region).base
  let s ← settleRegion s region false
  .ok (.success, some result, s.release)

/-- The result is the error code, the value stored in `*base_result`, and the new state. -/
def mmAllocateRegionVm (A : Allocator) (s : MmState) (base size : ℕ) (isFixed : Bool) :
    Except Fault (Errno × Option ℕ × MmState) := do
  let (base, size) := roundRequest base size
  let s ← s.acquire
  if isFixed then
    match ← mmGetRegion s base with
    | none =>
      if wadd s.handler.base s.handler.size < wadd base size then .ok (.einval, none, s.release)
      else .ok (.success, some base, s.release)
    | some region => allocateFixed A s region base size
  else
    match ← findFree s size s.handler.regionCount s.handler.lastFreeRegion with
    | none => .ok (.enomem, none, s.release)
    | some region => allocateFree A s region size

/-- `if(region->size != size){ while(region->size < size){ merge } }` -/
def growUnequal (s : MmState) (region : Ptr) (size : ℕ) : Except Fault (Bool × MmState) :=
  if (s.region region).size ≠ size then growRegion region size (s.handler.regionCount + 1) s
  else .ok (true, s)

/-- The end of `mm_free_region`: the region is made as long as the request. When it is
too long it is cut, and the code goes on with the region that the cut returns. -/
def freeSized (A : Allocator) (s : MmState) (region : Ptr) (size : ℕ) :
    Except Fault (Errno × MmState) := do
  let (enough, s) ← growUnequal s region size
  if ¬ enough then .ok (.einval, s)
  else
    let (s, region) := if size < (s.region region).size then
        splitRegion A s region size
      else (s, region)
    let s ← settleRegion s region true
    .ok (.success, s.release)

def mmFreeRegion (A : Allocator) (s : MmState) (base size : ℕ) :
    Except Fault (Errno × MmState) := do
  if base % pageSize ≠ 0 ∨ size % pageSize ≠ 0 then .error .panic
  else
    let s ← s.acquire
    match ← mmGetRegion s base with
    | none => .error .nullDereference
    | some region =>
      let (s, region) := if (s.region region).base ≠ base then
          splitRegion A s region (wsub base (s.region region).base)
        else (s, region)
      freeSized A s region size

/-- A handler that owns `[base, base + size)` as one free region. -/
def mmCreateHandler (A : Allocator) (memory : Ptr → MemoryRegion) (live : List Ptr)
    (vmmSpace base size : ℕ) : MmState :=
  let handler := A.malloc live
  let region := A.malloc (handler :: live)
  { handler :=
      { base, size, regionCount := 1, firstRegion := some region, lastFreeRegion := some region,
        vmmSpace, lock := false }
    region := Function.update memory region
      { base, size, blockCount := divRoundupPage size, isFree := true, next := none, last := none }
    live := region :: handler :: live }

end Kot.Kernel.Mm
