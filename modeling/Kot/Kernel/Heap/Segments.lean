import Mathlib.Logic.Function.Basic
import Kot.Kernel.Machine

/-! The kernel heap of `heap.c`: segments with headers in one downward-growing area,
linked from the main segment at the top through `next` to lower addresses. -/
namespace Kot.Kernel.Heap

/-- `sizeof(struct heap_segment_header)`, aligned to 16. -/
def headerSize : ℕ := 48

/-- A segment header, without the signature that nothing reads. -/
structure Header where
  isFree : Bool
  length : ℕ
  next : Option Ptr
  last : Option Ptr

/-- What `memset(header, 0, sizeof(struct heap_segment_header))` leaves behind. -/
def Header.zero : Header := ⟨false, 0, none, none⟩

/-- The variables of the heap, the headers in memory, the bytes outside headers, and the
number of bytes that were mapped for the heap. -/
structure HeapState where
  heapEnd : ℕ
  lastSegment : Option Ptr
  mainSegment : Option Ptr
  totalSize : ℕ
  freeSize : ℕ
  usedSize : ℕ
  lock : Bool
  header : Ptr → Header
  data : ℕ → ℕ
  mapped : ℕ

namespace HeapState

def modify (s : HeapState) (a : Ptr) (f : Header → Header) : HeapState :=
  { s with header := Function.update s.header a (f (s.header a)) }

def setNext (s : HeapState) (a : Ptr) (n : Option Ptr) : HeapState :=
  s.modify a fun h => { h with next := n }

def setFree (s : HeapState) (a : Ptr) (b : Bool) : HeapState :=
  s.modify a fun h => { h with isFree := b }

def clear (s : HeapState) (a : Ptr) : HeapState := s.modify a fun _ => .zero

def setLock (s : HeapState) (b : Bool) : HeapState := { s with lock := b }

/-- `assert(!spinlock_acquire(&lock))` -/
def acquire (s : HeapState) : Except Fault HeapState :=
  if s.lock then .error .panic else .ok (s.setLock true)

def release (s : HeapState) : HeapState := s.setLock false

def fill (s : HeapState) (a n : ℕ) (f : ℕ → ℕ) : HeapState :=
  { s with data := fun x => if a ≤ x ∧ x < a + n then f x else s.data x }

end HeapState

def mergeThisToNext (s : HeapState) (header : Ptr) : Except Fault HeapState :=
  match (s.header header).next with
  | none => .error .nullDereference
  | some headerNext =>
    let s := s.modify headerNext fun h =>
      { h with
        length := wadd h.length (wadd (s.header header).length headerSize)
        last := (s.header header).last }
    match (s.header header).last with
    | none => .error .nullDereference
    | some l => .ok ((s.setNext l (some headerNext)).clear header)

def mergeLastToThis (s : HeapState) (header : Ptr) : Except Fault HeapState :=
  match (s.header header).last with
  | none => .error .nullDereference
  | some headerLast =>
    let s := s.modify header fun h =>
      { h with
        length := wadd h.length (wadd (s.header headerLast).length headerSize)
        last := (s.header headerLast).last }
    match (s.header header).last with
    | none => .error .nullDereference
    | some l => .ok ((s.setNext l (some header)).clear headerLast)

def mergeLastAndThisToNext (s : HeapState) (header : Ptr) : Except Fault HeapState := do
  let s ← mergeLastToThis s header
  mergeThisToNext s header

/-- Cuts `size` bytes and a new header off the upper end of a segment. -/
def splitSegment (s : HeapState) (segment : Ptr) (size : ℕ) : Option (HeapState × Ptr) :=
  if wadd size headerSize < (s.header segment).length then
    let newSegment := wsub (wadd segment (s.header segment).length) size
    let s := s.modify newSegment fun _ =>
      { isFree := true, length := size, next := some segment, last := (s.header segment).last }
    let s := if (s.header segment).next = none then { s with lastSegment := some segment } else s
    let s := match (s.header segment).last with
      | some l => s.setNext l (some newSegment)
      | none => s
    let s := s.modify segment fun h =>
      { h with last := some newSegment, length := wsub h.length (wadd size headerSize) }
    some (s, newSegment)
  else none

/-- The last segment and its neighbour above, when the last segment is free. -/
def absorbable (s : HeapState) : Option (Ptr × Ptr) :=
  match s.lastSegment with
  | none => none
  | some z =>
    match (s.header z).last with
    | none => none
    | some l => if (s.header z).isFree then some (z, l) else none

/-- The fields of a new lowest segment, which follows `l`. -/
def attachSegment (s : HeapState) (newSegment : Ptr) (l : Option Ptr) (length : ℕ) : HeapState :=
  let s := s.modify newSegment fun _ => { isFree := true, length, last := l, next := none }
  let s := match l with
    | some l => s.setNext l (some newSegment)
    | none => s
  { s with lastSegment := some newSegment }

/-- The new segment takes the place of a free last segment or is put after it. -/
def linkExpansion (s : HeapState) (newSegment length : ℕ) : HeapState :=
  match absorbable s with
  | some (z, l) =>
    attachSegment s newSegment (some l) (wsub (wadd (s.header z).length length) headerSize)
  | none => attachSegment s newSegment s.lastSegment (wsub length headerSize)

def expansionSize (length : ℕ) : ℕ :=
  let length := wadd length headerSize
  if length % pageSize ≠ 0 then wadd (length - length % pageSize) pageSize else length

/-- `vmm_map_allocate` maps every range that does not wrap or hold the null page. -/
def expandHeap (s : HeapState) (length : ℕ) : Except Fault HeapState :=
  let length := expansionSize length
  let heapEnd := wsub s.heapEnd length
  if 0 < heapEnd ∧ heapEnd + length ≤ 2 ^ 64 then
    let s := linkExpansion { s with heapEnd, mapped := s.mapped + length } heapEnd length
    .ok { s with
      totalSize := wadd s.totalSize (wadd length headerSize)
      freeSize := wadd s.freeSize (wadd length headerSize) }
  else .error .panic

def heapInit (memory : Ptr → Header) (data : ℕ → ℕ) (heapAddressHigh : ℕ) : HeapState :=
  let heapEnd := wsub heapAddressHigh pageSize
  let mainSegment := wadd heapEnd (pageSize - headerSize)
  let first := wadd (wsub mainSegment pageSize) headerSize
  { heapEnd
    lastSegment := some first
    mainSegment := some mainSegment
    totalSize := pageSize
    freeSize := pageSize
    usedSize := 0
    lock := false
    header := Function.update
      (Function.update memory mainSegment
        { isFree := false, length := 0, last := none, next := some first })
      first
      { isFree := true, length := pageSize - headerSize - headerSize, last := some mainSegment,
        next := none }
    data
    mapped := pageSize }

def roundup16 (size : ℕ) : ℕ :=
  if 0 < size % 0x10 then wadd (size - size % 0x10) 0x10 else size

/-- `while(current_seg)`: the first free segment that can be cut or has the exact length. -/
def findSegment (s : HeapState) (size : ℕ) : ℕ → Option Ptr → Except Fault (Option Ptr)
  | _, none => .ok none
  | 0, some _ => .error .endlessLoop
  | turns + 1, some a =>
    if (s.header a).isFree ∧
        (wadd size headerSize < (s.header a).length ∨ (s.header a).length = size) then
      .ok (some a)
    else findSegment s size turns (s.header a).next

/-- Marks a segment used and returns the address after its header. -/
def takeSegment (s : HeapState) (a : Ptr) : Option Ptr × HeapState :=
  let s := s.setFree a false
  let n := wadd (s.header a).length headerSize
  (some (wadd a headerSize),
    { s with usedSize := wadd s.usedSize n, freeSize := wsub s.freeSize n }.release)

def serveSegment (s : HeapState) (a : Ptr) (size : ℕ) : Except Fault (Option Ptr × HeapState) :=
  if wadd size headerSize < (s.header a).length then
    match splitSegment s a size with
    | none => .error .nullDereference
    | some (s, n) => .ok (takeSegment s n)
  else .ok (takeSegment s a)

/-- `turns` bounds the walks through the list and the nested calls; a call returns when
some bound is enough. -/
def malloc : ℕ → HeapState → ℕ → Except Fault (Option Ptr × HeapState)
  | 0, _, _ => .error .endlessLoop
  | turns + 1, s, size =>
    if size = 0 then .ok (none, s)
    else do
      let s ← s.acquire
      match ← findSegment s (roundup16 size) (turns + 1) s.mainSegment with
      | some a => serveSegment s a (roundup16 size)
      | none => do
        let s ← expandHeap s (roundup16 size)
        malloc turns s.release (roundup16 size)

/-- `header->next` or `header->last` exists and is free. -/
def isFreeAt (s : HeapState) : Option Ptr → Bool
  | none => false
  | some a => (s.header a).isFree

/-- A segment that has just become free is merged with its free neighbours. -/
def coalesce (s : HeapState) (header : Ptr) : Except Fault HeapState :=
  if isFreeAt s (s.header header).next ∧ isFreeAt s (s.header header).last then
    mergeLastAndThisToNext s header
  else if isFreeAt s (s.header header).last then mergeLastToThis s header
  else if isFreeAt s (s.header header).next then mergeThisToNext s header
  else .ok s

/-- Marks a segment free and counts its bytes as free. -/
def giveSegment (s : HeapState) (header : Ptr) : HeapState :=
  let s := s.setFree header true
  let n := wadd (s.header header).length headerSize
  { s with freeSize := wadd s.freeSize n, usedSize := wsub s.usedSize n }

def free (s : HeapState) (address : Option Ptr) : Except Fault HeapState :=
  match address with
  | none => .ok s
  | some address => do
    let s ← s.acquire
    let header := wsub address headerSize
    let s ← coalesce (giveSegment s header) header
    .ok s.release

def calloc (turns : ℕ) (s : HeapState) (number size : ℕ) :
    Except Fault (Option Ptr × HeapState) := do
  let n := number * size % 2 ^ 64
  let (address, s) ← malloc turns s n
  match address with
  | none => .ok (none, s)
  | some a => .ok (some a, s.fill a n fun _ => 0)

/-- The end of `realloc`: the old block is copied over and freed. -/
def moveBlock (s : HeapState) (newBuffer : Ptr) (buffer : Option Ptr) (size : ℕ) :
    Except Fault HeapState :=
  match buffer with
  | none => .ok s
  | some b =>
    let oldSize := (s.header (wsub b headerSize)).length
    let n := if size < oldSize then size else oldSize
    free (s.fill newBuffer n fun x => s.data (x - newBuffer + b)) (some b)

def realloc (turns : ℕ) (s : HeapState) (buffer : Option Ptr) (size : ℕ) :
    Except Fault (Option Ptr × HeapState) := do
  let (newBuffer, s) ← malloc turns s size
  match newBuffer with
  | none => .ok (none, s)
  | some a => do
    let s ← moveBlock s a buffer size
    .ok (some a, s)

end Kot.Kernel.Heap
