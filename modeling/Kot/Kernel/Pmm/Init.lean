import Kot.Kernel.Pmm.Tracked

/-! `pmm_init` of `boot/limine/pmm.c`: the allocator is set up from the memory map of the boot
loader. Its bitmap goes into the first usable entry with enough room. -/
namespace Kot.Kernel.Pmm
open Kot.Lib

inductive MemmapType
  | usable | reserved | acpiReclaimable | acpiNvs | badMemory | bootloaderReclaimable
  | kernelAndModules | framebuffer
  deriving DecidableEq

structure MemmapEntry where
  base : ℕ
  length : ℕ
  type : MemmapType
  deriving DecidableEq

def physicalAddressReservedEnd : ℕ := 0x100000

def pmmGetMemoryEnd (entries : List MemmapEntry) : ℕ :=
  entries.foldl (fun lastAddress e =>
    if lastAddress < wadd e.base e.length then wadd e.base e.length else lastAddress) 0

/-- The test of `pmm_find_free_entry` for one entry. -/
def hasRoom (minimumSize : ℕ) (e : MemmapEntry) : Bool :=
  e.type = .usable ∧ minimumSize ≤ e.length ∧
    (e.base < physicalAddressReservedEnd →
      physicalAddressReservedEnd - e.base ≤ e.length ∧
      minimumSize ≤ e.length - (physicalAddressReservedEnd - e.base))

/-- The entry and its place in the map, which stands for the pointer to it. -/
def pmmFindFreeEntry (entries : List MemmapEntry) (minimumSize : ℕ) : Option (MemmapEntry × ℕ) :=
  entries.zipIdx.find? fun p => hasRoom minimumSize p.1

/-- `bitmap_base` in the entry that holds the bitmap. -/
def bitmapBase (e : MemmapEntry) : ℕ :=
  if e.base < physicalAddressReservedEnd then physicalAddressReservedEnd else e.base

/-- The part of a usable entry above the reserved addresses, as base and size. -/
def usablePart (e : MemmapEntry) : Option (ℕ × ℕ) :=
  if e.type = .usable then
    if e.base ≤ physicalAddressReservedEnd then
      if physicalAddressReservedEnd - e.base < e.length then
        some (physicalAddressReservedEnd, e.length - (physicalAddressReservedEnd - e.base))
      else none
    else some (e.base, e.length)
  else none

/-- `bitmap_end_rounded_to_page` -/
def bitmapEnd (base bitmapSize : ℕ) : ℕ :=
  let bitmapEnd := wadd base bitmapSize
  if bitmapEnd % pageSize ≠ 0 then wadd (bitmapEnd - bitmapEnd % pageSize) pageSize else bitmapEnd

/-- The arguments of the call of `pmm_unreserve_pages` for one entry, if there is one. -/
def unreserveCall (bitmapSize : ℕ) (isHost : Bool) (e : MemmapEntry) : Option (ℕ × ℕ) :=
  match usablePart e with
  | none => none
  | some (base, size) =>
    if isHost then
      if e.length ≠ bitmapSize then
        some (bitmapEnd base bitmapSize, wsub e.length bitmapSize / pageSize)
      else none
    else some (base, size / pageSize)

def initEntry (bitmapSize host : ℕ) (s : PmmState) (p : MemmapEntry × ℕ) : Except Fault PmmState :=
  match unreserveCall bitmapSize (p.2 = host) p.1 with
  | none => .ok s
  | some (address, pageCount) => pmmUnreservePages s address pageCount

def totalPageCount (entries : List MemmapEntry) : ℕ := divRoundupPage (pmmGetMemoryEnd entries)

def bitmapSize (entries : List MemmapEntry) : ℕ := totalPageCount entries / 8 + 1

/-- `info` is what the pages of the machine hold. -/
def pmmInit (info : ℕ → FreeListInfo) (entries : List MemmapEntry) : Except Fault PmmState :=
  match pmmFindFreeEntry entries (bitmapSize entries) with
  | none => .error .panic
  | some (e, host) =>
    entries.zipIdx.foldlM (initEntry (bitmapSize entries) host)
      (allReserved info (bitmapBase e) (totalPageCount entries))

end Kot.Kernel.Pmm
