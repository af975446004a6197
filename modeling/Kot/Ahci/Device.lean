import Kot.Kernel.Machine
import Kot.Lib.Bytes

/-! Byte requests to a disk of whole sectors (`modules/ahci/source/device.c`). A request is a
sequence of sections under the lock of the device, each with one transfer of sectors through the
block cache. Which sections a request has does not depend on the contents of the disk. -/
namespace Kot.Ahci

open Kot.Kernel Kot.Lib

/-- `ATA_SECTOR_SIZE`. -/
def alignement : ℕ := 0x200

/-- `HBA_MAX_BLOCK_SIZE`. -/
def blockCacheSize : ℕ := 0x10000

structure Device where
  size : ℕ
  size_lt : size < 2 ^ 64
  whole : size % alignement = 0

structure Transfer where
  start : ℕ
  bytes : ℕ
  isWrite : Bool

structure State where
  disk : ℕ → UInt8
  cache : ℕ → UInt8
  transfers : List Transfer

inductive Section
  /-- of `ahci_device_read_prepare`; the bytes go to the caller, or to a place of the cache when
  the caller is a write -/
  | read (position size : ℕ) (target : Option ℕ)
  /-- of `ahci_device_write_prepare` -/
  | write (position : ℕ) (bytes : List UInt8)

/-- The sectors that a transfer of `size` bytes takes, in bytes. -/
def sectorBytes (size : ℕ) : ℕ := (size + (alignement - 1)) / alignement * alignement

/-- What a section does, and the bytes for the caller. -/
def perform (s : State) : Section → State × List UInt8
  | .read position size target =>
    let offset := position % alignement
    let cache := writeAt s.cache 0 (readAt s.disk (position - offset) (sectorBytes size))
    let transfers := s.transfers ++ [⟨position - offset, sectorBytes size, false⟩]
    let bytes := readAt cache offset size
    match target with
    | none => ({ s with cache, transfers }, bytes)
    | some place => ({ s with cache := writeAt cache place bytes, transfers }, [])
  | .write position bytes =>
    let offset := position % alignement
    let cache := writeAt s.cache offset bytes
    ({ disk := writeAt s.disk (position - offset) (readAt cache 0 (sectorBytes bytes.length))
       cache
       transfers := s.transfers ++ [⟨position - offset, sectorBytes bytes.length, true⟩] }, [])

def performAll (s : State) : List Section → State × List UInt8
  | [] => (s, [])
  | c :: cs =>
    let (s, out) := perform s c
    let (s, outs) := performAll s cs
    (s, out ++ outs)

/-- `size_processing` before it is limited to the cache: up to the end of the sector. -/
def upToSector (position remaining : ℕ) : ℕ :=
  let offset := position % alignement
  if offset ≠ 0 then min (alignement - offset) remaining else remaining

def sizeProcessing (position remaining : ℕ) : ℕ := min (upToSector position remaining) blockCacheSize

/-- The loop of `ahci_device_read`; every turn takes at least one byte. -/
def readSections : (turns position remaining : ℕ) → Option ℕ → List Section
  | 0, _, _, _ => []
  | turns + 1, position, remaining, target =>
    if remaining = 0 then []
    else
      let n := sizeProcessing position remaining
      .read position n target ::
        readSections turns (wadd position n) (remaining - n) (target.map (wadd · n))

/-- `ahci_device_read`: its sections, or `none` for `EIO`. -/
def ahciDeviceRead (d : Device) (start size : ℕ) (target : Option ℕ) : Option (List Section) :=
  if wadd start size > d.size then
    if start < d.size then some (readSections (d.size - start) start (d.size - start) target)
    else none
  else some (readSections size start size target)

/-- The sector around the start of an unaligned write. -/
def headSections (d : Device) (position : ℕ) : List Section :=
  let offset := position % alignement
  if offset ≠ 0 then (ahciDeviceRead d (position - offset) offset (some 0)).getD [] else []

/-- The rest of the sector in which a write ends. The place in the cache is the one in a cache that
holds this sector only. -/
def tailSections (d : Device) (stop : ℕ) : List Section :=
  let offset := stop % alignement
  if offset ≠ 0 then (ahciDeviceRead d stop (alignement - offset) (some offset)).getD [] else []

/-- `ahci_device_write_prepare`; `buffer` is the memory of the caller from the pointer on. -/
def writePrepare (d : Device) (position remaining : ℕ) (buffer : ℕ → UInt8) (bufferPosition : ℕ) :
    List Section :=
  let wanted := upToSector position remaining
  let tail := if wanted > blockCacheSize then [] else tailSections d (wadd position wanted)
  headSections d position ++ tail ++
    [.write position (readAt buffer bufferPosition (min wanted blockCacheSize))]

/-- The loop of `ahci_device_write`: the sections of every turn. -/
def writeLoop (d : Device) (buffer : ℕ → UInt8) :
    (turns position remaining bufferPosition : ℕ) → List (List Section)
  | 0, _, _, _ => []
  | turns + 1, position, remaining, bufferPosition =>
    if remaining = 0 then []
    else
      let n := sizeProcessing position remaining
      writePrepare d position remaining buffer bufferPosition ::
        writeLoop d buffer turns (wadd position n) (remaining - n) (wadd bufferPosition n)

def ahciDeviceWrite (d : Device) (start size : ℕ) (buffer : ℕ → UInt8) : List (List Section) :=
  let size := if wadd start size > d.size then wsub d.size start else size
  writeLoop d buffer size start size 0

variable {d : Device} {s : State} {position remaining size n place : ℕ}

theorem writeAt_readAt {m c : ℕ → UInt8} {a b k x : ℕ} :
    writeAt m a (readAt c b k) x = if a ≤ x ∧ x < a + k then c (b + (x - a)) else m x := by
  by_cases h : a ≤ x ∧ x < a + k
  · rw [if_pos h, writeAt, if_pos h.1, getElem?_readAt, if_pos (by omega)]
    rfl
  · rw [if_neg h, writeAt_outside (by rw [readAt_length]; omega)]

theorem sizeProcessing_pos (position : ℕ) (h : remaining ≠ 0) : 0 < sizeProcessing position remaining := by
  have := Nat.mod_lt position (show 0 < alignement by decide)
  unfold sizeProcessing upToSector blockCacheSize
  simp only
  split_ifs <;> omega

theorem sizeProcessing_le (position remaining : ℕ) : sizeProcessing position remaining ≤ remaining := by
  unfold sizeProcessing upToSector
  simp only
  split_ifs <;> omega

theorem offset_add_sizeProcessing_le (position : ℕ) (h : remaining ≠ 0) :
    position % alignement + sizeProcessing position remaining ≤
      sectorBytes (sizeProcessing position remaining) := by
  have hpos := sizeProcessing_pos position h
  by_cases hoff : position % alignement = 0
  · rw [hoff]
    unfold sectorBytes alignement
    omega
  · have hle : sizeProcessing position remaining ≤ alignement - position % alignement := by
      unfold sizeProcessing upToSector
      simp only [ne_eq, hoff, not_false_eq_true, if_true]
      omega
    unfold sectorBytes alignement at *
    omega

theorem perform_read (h : position % alignement + n ≤ sectorBytes n) :
    (perform s (.read position n none)).2 = readAt s.disk position n ∧
      (perform s (.read position n none)).1.disk = s.disk := by
  refine ⟨?_, rfl⟩
  have hmod : position % alignement ≤ position := Nat.mod_le _ _
  apply List.map_congr_left
  intro i hi
  have := List.mem_range.mp hi
  rw [writeAt_readAt, if_pos (by omega)]
  congr 1
  omega

theorem readSections_succ {turns : ℕ} {target : Option ℕ} (h : remaining ≠ 0) :
    readSections (turns + 1) position remaining target =
      .read position (sizeProcessing position remaining) target ::
        readSections turns (wadd position (sizeProcessing position remaining))
          (remaining - sizeProcessing position remaining)
          (target.map (wadd · (sizeProcessing position remaining))) := by
  rw [readSections, if_neg h]

theorem readSections_eq {turns : ℕ} (hn : position + remaining < 2 ^ 64) (ht : remaining ≤ turns) :
    (performAll s (readSections turns position remaining none)).2 = readAt s.disk position remaining ∧
      (performAll s (readSections turns position remaining none)).1.disk = s.disk := by
  induction turns generalizing s position remaining with
  | zero =>
    obtain rfl : remaining = 0 := by omega
    exact ⟨rfl, rfl⟩
  | succ turns ih =>
    by_cases h0 : remaining = 0
    · rw [readSections, if_pos h0, h0]
      exact ⟨rfl, rfl⟩
    · rw [readSections_succ h0]
      have hpos := sizeProcessing_pos position h0
      have hle := sizeProcessing_le position remaining
      obtain ⟨hout, hdisk⟩ := perform_read (offset_add_sizeProcessing_le position h0)
      set n := sizeProcessing position remaining
      rw [wadd_of_lt (by omega)]
      obtain ⟨ih1, ih2⟩ := @ih (perform s (.read position n none)).1 (position + n) (remaining - n)
        (by omega) (by omega)
      simp only [performAll, Option.map_none]
      refine ⟨?_, ih2.trans hdisk⟩
      rw [ih1, hout, hdisk, ← readAt_append]
      congr 1
      omega

end Kot.Ahci
