import Kot.Kernel.Mm.Accounting
import Kot.Lib.Bytes

/-! The segments of an executable (`load_elf_exec_segments`): for each of them the loader takes an
address range, maps pages into it and copies the bytes of the file there. -/
namespace Kot.Kernel.Elf

open Kot.Kernel.Mm List
open Kot.Lib (readAt writeAt fromLe writeAt_nil)

/-- The end of the addresses that a process can have. -/
def userEnd : ℕ := 2 ^ 47

def pageOf (address : ℕ) : ℕ := address / pageSize % 2 ^ 36

/-- The fields of `struct elf64_ehdr` that the loader uses. -/
structure Ehdr where
  ident : List UInt8
  type : ℕ
  entry : ℕ
  phoff : ℕ
  phentsize : ℕ
  phnum : ℕ
  deriving DecidableEq, Repr

def ehdrSize : ℕ := 64

/-- `f_read` into a structure on the stack: of a short file its old bytes remain. -/
def headerBytes (stack file : List UInt8) : List UInt8 :=
  file.take ehdrSize ++ stack.drop (file.take ehdrSize).length

def Ehdr.ofBytes (bytes : List UInt8) : Ehdr where
  ident := bytes.take 16
  type := fromLe ((bytes.drop 16).take 2)
  entry := fromLe ((bytes.drop 24).take 8)
  phoff := fromLe ((bytes.drop 32).take 8)
  phentsize := fromLe ((bytes.drop 54).take 2)
  phnum := fromLe ((bytes.drop 56).take 2)

def checkElfSignature (header : Ehdr) : Bool := header.ident.take 4 = [0x7f, 0x45, 0x4c, 0x46]

def ptLoad : ℕ := 1
def ptInterp : ℕ := 3
def ptPhdr : ℕ := 6

/-- The handler of the process, the pages mapped in its space, the bytes at its addresses, and
`struct load_elf_exec_segments_info`. -/
structure LoadState where
  mm : MmState
  mapped : ℕ → Bool
  byte : ℕ → UInt8
  atPhdr : ℕ
  ldPath : Option (List UInt8)

/-- The segment that a header of the type `PT_LOAD` describes. -/
structure Segment where
  address : ℕ
  offset : ℕ
  filesz : ℕ
  memsz : ℕ
  deriving DecidableEq, Repr

section Model

variable (A : Allocator) (stale : ℕ → UInt8) (buffer : List UInt8)

def readLe (offset width : ℕ) : Except Fault ℕ :=
  if offset + width ≤ buffer.length then .ok (fromLe ((buffer.drop offset).take width))
  else .error .strayAccess

def readBytes (offset size : ℕ) : Except Fault (List UInt8) :=
  if size = 0 then .ok []
  else if offset + size ≤ buffer.length then .ok ((buffer.drop offset).take size)
  else .error .strayAccess

/-- `strncpy` from the buffer. The character behind the last one is looked at before the count. -/
def copyPath : (offset num : ℕ) → Except Fault (List UInt8)
  | offset, 0 => if offset < buffer.length then .ok [] else .error .strayAccess
  | offset, num + 1 =>
    match buffer[offset]? with
    | none => .error .strayAccess
    | some c =>
      if c = 0 then .ok []
      else do
        let rest ← copyPath (offset + 1) num
        .ok (c :: rest)

/-- The pages that the loop of `vmm_map_allocate` visits: that of the address and those in steps of
a page behind it, for as many steps as the size has. -/
def visited (address size page : ℕ) : Bool :=
  decide (∃ i < (size + (pageSize - 1)) / pageSize, page = pageOf (wadd address (i * pageSize)))

/-- `mm_allocate_memory_block`. A page that is not there yet gets a frame with old contents. With a
size above the last multiple of a page the counter of the loop never reaches it. -/
def allocateMemoryBlock (s : LoadState) (address size : ℕ) : Except Fault LoadState :=
  if 2 ^ 64 - pageSize < size then .error .endlessLoop
  else .ok { s with
    mapped := fun page => s.mapped page || visited address size page
    byte := fun x =>
      if ¬ s.mapped (pageOf x) ∧ visited address size (pageOf x) then stale x else s.byte x }

/-- The address range that `mm_allocate_region_vm` takes for a request. A base that no region holds
gets none. -/
def allocatedRange (s : MmState) (base size : ℕ) : ℕ × ℕ :=
  let request := roundRequest base size
  if s.handler.base ≤ request.1 ∧ request.1 < s.handler.base + s.handler.size then
    (request.1, request.1 + request.2)
  else (0, 0)

/-- Stores that meet the segment they are made for: inside its range, at addresses of a process,
and in mapped pages. -/
def CanStore (s : LoadState) (range : ℕ × ℕ) (address size : ℕ) : Prop :=
  range.1 ≤ address ∧ address + size ≤ range.2 ∧ address + size ≤ userEnd ∧
    ∀ i < size, s.mapped (pageOf (address + i)) = true

instance (s : LoadState) (range : ℕ × ℕ) (address size : ℕ) :
    Decidable (CanStore s range address size) :=
  inferInstanceAs (Decidable (_ ∧ _ ∧ _ ∧ _))

def memcpy (s : LoadState) (range : ℕ × ℕ) (address : ℕ) (data : List UInt8) :
    Except Fault LoadState :=
  if data.length = 0 then .ok s
  else if CanStore s range address data.length then
    .ok { s with byte := writeAt s.byte address data }
  else .error .strayAccess

/-- `memset` to zero. -/
def memset (s : LoadState) (range : ℕ × ℕ) (address size : ℕ) : Except Fault LoadState :=
  if size = 0 then .ok s
  else if CanStore s range address size then
    .ok { s with byte := writeAt s.byte address (List.replicate size 0) }
  else .error .strayAccess

/-- The branch for `PT_LOAD`. -/
def loadSegment (s : LoadState) (seg : Segment) : Except Fault LoadState := do
  let (errno, _, mm) ← mmAllocateRegionVm A s.mm seg.address seg.memsz true
  if errno ≠ .success then .error .panic
  else
    let range := allocatedRange s.mm seg.address seg.memsz
    let s ← allocateMemoryBlock stale { s with mm } seg.address seg.memsz
    let data ← readBytes buffer seg.offset seg.filesz
    let s ← memcpy s range seg.address data
    memset s range (wadd seg.address seg.filesz) (wsub seg.memsz seg.filesz)

def readSegment (base phdr : ℕ) : Except Fault Segment := do
  let vaddr ← readLe buffer (phdr + 16) 8
  let memsz ← readLe buffer (phdr + 40) 8
  let offset ← readLe buffer (phdr + 8) 8
  let filesz ← readLe buffer (phdr + 32) 8
  .ok ⟨wadd vaddr base, offset, filesz, memsz⟩

/-- The branch for `PT_INTERP`. The block for the path has no byte when its size wraps. -/
def readInterp (phdr : ℕ) : Except Fault (List UInt8) := do
  let offset ← readLe buffer (phdr + 8) 8
  let filesz ← readLe buffer (phdr + 32) 8
  if filesz + 1 = 2 ^ 64 then .error .strayAccess else copyPath buffer offset filesz

/-- A turn of the loop of `load_elf_exec_segments`. -/
def loadHeader (base : ℕ) (s : LoadState) (phdr : ℕ) : Except Fault LoadState := do
  let type ← readLe buffer phdr 4
  if type = ptLoad then do
    let seg ← readSegment buffer base phdr
    loadSegment A stale buffer s seg
  else if type = ptPhdr then do
    let vaddr ← readLe buffer (phdr + 16) 8
    .ok { s with atPhdr := wadd vaddr base }
  else if type = ptInterp ∧ s.ldPath = none then do
    let path ← readInterp buffer phdr
    .ok { s with ldPath := some path }
  else .ok s

def Ehdr.headers (header : Ehdr) : List ℕ :=
  (List.range header.phnum).map fun i => wadd header.phoff (i * header.phentsize)

def loadElfExecSegments (header : Ehdr) (base : ℕ) (s : LoadState) : Except Fault LoadState :=
  header.headers.foldlM (loadHeader A stale buffer base) s

end Model

/-- A handler as `mm_create_handler` makes it for a process, at any later time. -/
structure Ready (s : MmState) (top : ℕ) : Prop where
  wellFormed : WellFormed s (regionNodes s)
  unlocked : s.handler.lock = false
  base_eq : s.handler.base = pageSize
  top_eq : s.handler.base + s.handler.size = top
  userEnd_le : userEnd ≤ top

/-- A request that no region holds and that ends behind the handler's range. -/
def Refused (top base size : ℕ) : Prop :=
  ((roundRequest base size).1 < pageSize ∨ top ≤ (roundRequest base size).1) ∧
    top < wadd (roundRequest base size).1 (roundRequest base size).2

section Allocation

variable {A : Allocator} {s : MmState} {top base size : ℕ}

theorem Ready.allocate (h : Ready s top) (base size : ℕ) :
    ∃ e res s', mmAllocateRegionVm A s base size true = .ok (e, res, s') ∧ Ready s' top ∧
      (e = .success ↔ ¬ Refused top base size) := by
  have hbase := h.base_eq
  have htop := h.top_eq
  by_cases hin : s.handler.base ≤ (roundRequest base size).1 ∧
      (roundRequest base size).1 < s.handler.base + s.handler.size
  · obtain ⟨l1, r, l2, hl, h1, h2, he⟩ :=
      allocate_inside h.unlocked base size h.wellFormed hin.1 hin.2
    have hw := setLock_wellFormed true h.wellFormed
    rw [hl] at hw
    obtain ⟨-, -, s', l', -, hf, hw', hr, hlock, -⟩ :=
      allocateFixed_spec (roundRequest base size).2 hw h1 h2
    have hr1 : s'.handler.base = s.handler.base := hr.1
    have hr2 : s'.handler.size = s.handler.size := hr.2
    refine ⟨_, _, s', he.trans hf, ⟨by rw [hw'.regionNodes_eq]; exact hw', hlock, by omega,
      by omega, h.userEnd_le⟩, fun _ hrefused => ?_, fun _ => rfl⟩
    have := hrefused.1
    omega
  · have hout : (roundRequest base size).1 < s.handler.base ∨
        s.handler.base + s.handler.size ≤ (roundRequest base size).1 := by omega
    rw [allocate_outside h.unlocked base size h.wellFormed hout]
    by_cases hend : s.handler.base + s.handler.size <
        wadd (roundRequest base size).1 (roundRequest base size).2
    · rw [if_pos hend]
      refine ⟨_, _, s, rfl, h, (by rintro ⟨⟩), fun hn => absurd ⟨?_, ?_⟩ hn⟩
      · omega
      · omega
    · rw [if_neg hend]
      refine ⟨_, _, s, rfl, h, fun _ hrefused => ?_, fun _ => rfl⟩
      have := hrefused.2
      omega

end Allocation

section Pages

variable {seg : Segment} {mapped : ℕ → Bool} {x address size : ℕ}

theorem pageOf_user (h : x < 2 * userEnd) : pageOf x = x / pageSize := by
  unfold pageOf
  unfold userEnd at h
  unfold pageSize
  omega

theorem visited_iff (hend : address + size ≤ userEnd) {page : ℕ} :
    visited address size page = true ↔ address / pageSize ≤ page ∧
        page < address / pageSize + (size + (pageSize - 1)) / pageSize := by
  have hturn : ∀ i < (size + (pageSize - 1)) / pageSize,
      pageOf (wadd address (i * pageSize)) = address / pageSize + i := by
    intro i hi
    have hsmall : address + i * pageSize < 2 * userEnd := by
      unfold userEnd pageSize at *
      omega
    rw [wadd_of_lt (by unfold userEnd at hsmall; omega), pageOf_user hsmall]
    unfold pageSize
    omega
  unfold visited
  rw [decide_eq_true_iff]
  constructor
  · rintro ⟨i, hi, rfl⟩
    rw [hturn i hi]
    omega
  · rintro ⟨hlo, hhi⟩
    exact ⟨page - address / pageSize, by omega, by rw [hturn _ (by omega)]; omega⟩

/-- The page of the last byte is visited or was there before. -/
def Segment.LastPageMapped (seg : Segment) (mapped : ℕ → Bool) : Prop :=
  seg.address % pageSize + seg.memsz ≤ (seg.memsz + (pageSize - 1)) / pageSize * pageSize ∨
    mapped (pageOf (seg.address + seg.memsz - 1)) = true

theorem pages_mapped_iff (hpos : 0 < seg.memsz) (hend : seg.address + seg.memsz ≤ userEnd) :
    (∀ i < seg.memsz, (mapped (pageOf (seg.address + i)) ||
        visited seg.address seg.memsz (pageOf (seg.address + i))) = true) ↔
      seg.LastPageMapped mapped := by
  have hpage : ∀ i < seg.memsz,
      pageOf (seg.address + i) = (seg.address + i) / pageSize := fun i hi =>
    pageOf_user (by unfold userEnd at *; omega)
  have hlast : pageOf (seg.address + seg.memsz - 1) =
      (seg.address + (seg.memsz - 1)) / pageSize := by
    rw [Nat.add_sub_assoc hpos, hpage _ (by omega)]
  unfold Segment.LastPageMapped
  rw [hlast]
  constructor
  · intro hall
    have h := hall (seg.memsz - 1) (by omega)
    rw [hpage _ (by omega), Bool.or_eq_true, visited_iff hend] at h
    rcases h with h | ⟨-, h⟩
    · exact .inr h
    · left
      unfold pageSize at *
      omega
  · intro h i hi
    rw [hpage i hi, Bool.or_eq_true, visited_iff hend]
    by_cases hv : (seg.address + i) / pageSize <
        seg.address / pageSize + (seg.memsz + (pageSize - 1)) / pageSize
    · right
      exact ⟨by unfold pageSize; omega, hv⟩
    · left
      have hsame : (seg.address + i) / pageSize =
          (seg.address + (seg.memsz - 1)) / pageSize := by
        unfold pageSize at *
        omega
      rw [hsame]
      rcases h with h | h
      · unfold pageSize at *
        omega
      · exact h

end Pages

/-- The fields of a segment are machine words. -/
structure Segment.IsWords (seg : Segment) : Prop where
  address_lt : seg.address < 2 ^ 64
  filesz_lt : seg.filesz < 2 ^ 64
  memsz_lt : seg.memsz < 2 ^ 64

/-- What a segment is to hold: its bytes of the file and zeros up to its size. -/
def Segment.content (buffer : List UInt8) (seg : Segment) : List UInt8 :=
  (buffer.drop seg.offset).take seg.filesz ++ List.replicate (seg.memsz - seg.filesz) 0

/-- The segments that are loaded as they say. -/
structure Segment.Fits (top : ℕ) (buffer : List UInt8) (mapped : ℕ → Bool) (seg : Segment) : Prop where
  filesz_le : seg.filesz ≤ seg.memsz
  inFile : 0 < seg.filesz → seg.offset + seg.filesz ≤ buffer.length
  empty : seg.memsz = 0 → ¬ Refused top seg.address 0
  inRange : 0 < seg.memsz → pageSize ≤ seg.address ∧ seg.address + seg.memsz ≤ userEnd ∧
    seg.LastPageMapped mapped

structure Segment.Loaded (top : ℕ) (stale : ℕ → UInt8) (buffer : List UInt8) (seg : Segment)
    (s t : LoadState) : Prop where
  ready : Ready t.mm top
  mapped_eq : ∀ page, t.mapped page = (s.mapped page || visited seg.address seg.memsz page)
  byte_eq : t.byte = writeAt (fun x => if ¬ s.mapped (pageOf x) ∧
    visited seg.address seg.memsz (pageOf x) then stale x else s.byte x) seg.address
      (seg.content buffer)
  ldPath_eq : t.ldPath = s.ldPath

section Segments

variable {A : Allocator} {stale : ℕ → UInt8} {buffer : List UInt8} {s t : LoadState} {top : ℕ}
  {seg : Segment}

theorem Segment.Fits.content_length {mapped : ℕ → Bool} (h : seg.Fits top buffer mapped) :
    (seg.content buffer).length = seg.memsz := by
  have h1 := h.filesz_le
  have h2 := h.inFile
  rw [Segment.content, length_append, length_replicate, length_take,
    length_drop]
  omega

theorem allocatedRange_holds_iff {mm : MmState} (h : Ready mm top) (hpos : 0 < seg.memsz)
    (hend : seg.address + seg.memsz ≤ userEnd) :
    (allocatedRange mm seg.address seg.memsz).1 ≤ seg.address ∧
        seg.address + seg.memsz ≤ (allocatedRange mm seg.address seg.memsz).2 ↔
      pageSize ≤ seg.address := by
  have hbase := h.base_eq
  have htop := h.top_eq
  have hle := h.userEnd_le
  have hsize : seg.memsz < 2 ^ 64 := by
    unfold userEnd at hend
    omega
  simp only [allocatedRange, roundRequest_eq seg.address hsize]
  split_ifs with hin
  · unfold roundedSize userEnd pageSize at *
    omega
  · unfold userEnd pageSize at *
    omega

variable {range : ℕ × ℕ} {address size : ℕ} {data : List UInt8}

theorem canStore_append {address m n : ℕ} :
    (m = 0 ∨ CanStore s range address m) ∧ (n = 0 ∨ CanStore s range (address + m) n) ↔
      m + n = 0 ∨ CanStore s range address (m + n) := by
  constructor
  · rintro ⟨rfl | ⟨h1, h2, h3, h4⟩, rfl | ⟨k1, k2, k3, k4⟩⟩
    · exact .inl rfl
    · rw [Nat.add_zero] at *
      rw [Nat.zero_add]
      exact .inr ⟨k1, k2, k3, k4⟩
    · rw [Nat.add_zero]
      exact .inr ⟨h1, h2, h3, h4⟩
    · refine .inr ⟨h1, by omega, by omega, fun i hi => ?_⟩
      rcases Nat.lt_or_ge i m with him | him
      · exact h4 i him
      · have hi' := k4 (i - m) (by omega)
        rwa [Nat.add_assoc, Nat.add_sub_cancel' him] at hi'
  · rintro (h | ⟨h1, h2, h3, h4⟩)
    · exact ⟨.inl (by omega), .inl (by omega)⟩
    · refine ⟨.inr ⟨h1, by omega, by omega, fun i hi => h4 i (by omega)⟩,
        .inr ⟨by omega, by omega, by omega, fun i hi => ?_⟩⟩
      rw [Nat.add_assoc]
      exact h4 (m + i) (by omega)

theorem memcpy_eq_ok : memcpy s range address data = .ok t ↔
      (data.length = 0 ∨ CanStore s range address data.length) ∧
        t = { s with byte := writeAt s.byte address data } := by
  unfold memcpy
  split_ifs with h0 h
  · obtain rfl := length_eq_zero_iff.mp h0
    rw [writeAt_nil]
    exact ⟨fun hok => ⟨.inl rfl, (Except.ok.inj hok).symm⟩, fun hok => congrArg _ hok.2.symm⟩
  · exact ⟨fun hok => ⟨.inr h, (Except.ok.inj hok).symm⟩, fun hok => congrArg _ hok.2.symm⟩
  · exact ⟨(by rintro ⟨⟩), fun hok => (hok.1.elim h0 h).elim⟩

theorem memset_eq_ok : memset s range address size = .ok t ↔
      (size = 0 ∨ CanStore s range address size) ∧
        t = { s with byte := writeAt s.byte address (List.replicate size 0) } := by
  have hcopy : memset s range address size = memcpy s range address (replicate size 0) := by
    rw [memcpy, length_replicate]
    rfl
  rw [hcopy, memcpy_eq_ok, length_replicate]

theorem readBytes_eq_ok {offset size : ℕ} : readBytes buffer offset size = .ok data ↔
      (0 < size → offset + size ≤ buffer.length) ∧ data = (buffer.drop offset).take size := by
  unfold readBytes
  split_ifs with h0 h
  · simp [h0, eq_comm]
  · simp [h, eq_comm]
  · have hpos : 0 < size := by omega
    simp [h, hpos]

theorem allocateMemoryBlock_eq_ok : allocateMemoryBlock stale s address size = .ok t ↔
      size ≤ 2 ^ 64 - pageSize ∧ t = { s with
        mapped := fun page => s.mapped page || visited address size page
        byte := fun x =>
          if ¬ s.mapped (pageOf x) ∧ visited address size (pageOf x) then stale x
          else s.byte x } := by
  unfold allocateMemoryBlock
  split_ifs with h
  · exact ⟨(by rintro ⟨⟩), fun hok => absurd hok.1 (by omega)⟩
  · exact ⟨fun hok => ⟨by omega, (Except.ok.inj hok).symm⟩, fun hok => congrArg _ hok.2.symm⟩

/-- The state behind the mapping of a segment. -/
def blockMapped (stale : ℕ → UInt8) (s : LoadState) (mm : MmState) (seg : Segment) : LoadState :=
  { s with
    mm
    mapped := fun page => s.mapped page || visited seg.address seg.memsz page
    byte := fun x =>
      if ¬ s.mapped (pageOf x) ∧ visited seg.address seg.memsz (pageOf x) then stale x
      else s.byte x }

theorem loadSegment_eq_ok (hready : Ready s.mm top) : ∃ mm, Ready mm top ∧ ∀ t,
    loadSegment A stale buffer s seg = .ok t ↔
      ¬ Refused top seg.address seg.memsz ∧ seg.memsz ≤ 2 ^ 64 - pageSize ∧
      (0 < seg.filesz → seg.offset + seg.filesz ≤ buffer.length) ∧
      (((buffer.drop seg.offset).take seg.filesz).length = 0 ∨
        CanStore (blockMapped stale s mm seg) (allocatedRange s.mm seg.address seg.memsz)
          seg.address ((buffer.drop seg.offset).take seg.filesz).length) ∧
      (wsub seg.memsz seg.filesz = 0 ∨
        CanStore (blockMapped stale s mm seg) (allocatedRange s.mm seg.address seg.memsz)
          (wadd seg.address seg.filesz) (wsub seg.memsz seg.filesz)) ∧
      t = { blockMapped stale s mm seg with
        byte := writeAt (writeAt (blockMapped stale s mm seg).byte seg.address
          ((buffer.drop seg.offset).take seg.filesz)) (wadd seg.address seg.filesz)
          (List.replicate (wsub seg.memsz seg.filesz) 0) } := by
  obtain ⟨e, res, mm, halloc, hmm, hsucc⟩ :=
    hready.allocate seg.address seg.memsz
  refine ⟨mm, hmm, fun t => ?_⟩
  rw [loadSegment, halloc]
  simp only [ok_bind]
  by_cases he : e = .success
  · have hnot := hsucc.mp he
    rw [if_neg (not_not.mpr he)]
    constructor
    · intro h
      obtain ⟨s1, h1, h⟩ := bind_eq_ok h
      obtain ⟨data, h2, h⟩ := bind_eq_ok h
      obtain ⟨s2, h3, h⟩ := bind_eq_ok h
      obtain ⟨hsize, rfl⟩ := allocateMemoryBlock_eq_ok.mp h1
      obtain ⟨hfile, rfl⟩ := readBytes_eq_ok.mp h2
      obtain ⟨hcpy, rfl⟩ := memcpy_eq_ok.mp h3
      obtain ⟨hset, rfl⟩ := memset_eq_ok.mp h
      exact ⟨hnot, hsize, hfile, hcpy, hset, rfl⟩
    · rintro ⟨-, hsize, hfile, hcpy, hset, rfl⟩
      have h1 : allocateMemoryBlock stale { s with mm } seg.address seg.memsz =
          .ok (blockMapped stale s mm seg) := allocateMemoryBlock_eq_ok.mpr ⟨hsize, rfl⟩
      have h2 := readBytes_eq_ok.mpr ⟨hfile, rfl⟩
      rw [h1, ok_bind, h2, ok_bind, memcpy_eq_ok.mpr ⟨hcpy, rfl⟩, ok_bind]
      exact memset_eq_ok.mpr ⟨hset, rfl⟩
  · have hrefused : Refused top seg.address seg.memsz := by
      by_contra hn
      exact he (hsucc.mpr hn)
    rw [if_pos he]
    exact ⟨(by rintro ⟨⟩), fun h => absurd hrefused h.1⟩

theorem canStore_segment_iff (hready : Ready s.mm top) {mm : MmState} (hpos : 0 < seg.memsz) :
    CanStore (blockMapped stale s mm seg) (allocatedRange s.mm seg.address seg.memsz) seg.address
        seg.memsz ↔
      pageSize ≤ seg.address ∧ seg.address + seg.memsz ≤ userEnd ∧ seg.LastPageMapped s.mapped := by
  constructor
  · rintro ⟨h1, h2, hend, hmapped⟩
    exact ⟨(allocatedRange_holds_iff hready hpos hend).mp ⟨h1, h2⟩, hend,
      (pages_mapped_iff hpos hend).mp hmapped⟩
  · rintro ⟨hlo, hend, hlast⟩
    obtain ⟨h1, h2⟩ := (allocatedRange_holds_iff hready hpos hend).mpr hlo
    exact ⟨h1, h2, hend, (pages_mapped_iff hpos hend).mpr hlast⟩

private theorem fileBytes_length {offset filesz : ℕ} (h : 0 < filesz → offset + filesz ≤ buffer.length) :
    ((buffer.drop offset).take filesz).length = filesz := by
  rw [length_take, length_drop]
  omega

private theorem wadd_of_canStore {range : ℕ × ℕ} {a n : ℕ} (ha : a < 2 ^ 64)
    (h : n = 0 ∨ CanStore s range a n) : wadd a n = a + n := by
  apply wadd_of_lt
  rcases h with h | ⟨-, -, h, -⟩
  · omega
  · unfold userEnd at h
    omega

theorem loadSegment_fits (hready : Ready s.mm top) (hw : seg.IsWords) :
    (∃ t, loadSegment A stale buffer s seg = .ok t) ↔ seg.Fits top buffer s.mapped := by
  obtain ⟨mm, -, hok⟩ := loadSegment_eq_ok hready
  have haddress := hw.address_lt
  constructor
  · rintro ⟨t, ht⟩
    obtain ⟨hnot, -, hfile, hcpy, hset, -⟩ := (hok t).mp ht
    have hlength := fileBytes_length hfile
    rw [hlength] at hcpy
    have hle : seg.filesz ≤ seg.memsz := by
      by_contra hgt
      have hfilesz := hw.filesz_lt
      have hclear : wsub seg.memsz seg.filesz = 2 ^ 64 + seg.memsz - seg.filesz := by
        unfold wsub
        omega
      rcases hcpy with h | ⟨-, -, hc, -⟩
      · omega
      · rcases hset with h | ⟨-, -, hs, -⟩
        · omega
        · unfold userEnd at *
          omega
    rw [wsub_of_le hw.memsz_lt hle] at hset
    have hnext := wadd_of_canStore haddress hcpy
    rw [hnext] at hset
    have hboth := canStore_append.mp ⟨hcpy, hset⟩
    rw [Nat.add_sub_cancel' hle] at hboth
    refine ⟨hle, hfile, fun h0 => h0 ▸ hnot, fun hpos => ?_⟩
    exact (canStore_segment_iff hready hpos).mp (hboth.resolve_left (by omega))
  · intro h
    have hle := h.filesz_le
    have hfile := h.inFile
    have hlength := fileBytes_length hfile
    have hboth : seg.filesz + (seg.memsz - seg.filesz) = 0 ∨
        CanStore (blockMapped stale s mm seg) (allocatedRange s.mm seg.address seg.memsz)
          seg.address (seg.filesz + (seg.memsz - seg.filesz)) := by
      rw [Nat.add_sub_cancel' hle]
      rcases Nat.eq_zero_or_pos seg.memsz with h0 | hpos
      · exact .inl h0
      · exact .inr ((canStore_segment_iff hready hpos).mpr (h.inRange hpos))
    obtain ⟨hcpy, hset⟩ := canStore_append.mpr hboth
    have hnext := wadd_of_canStore haddress hcpy
    have hsize : seg.memsz ≤ 2 ^ 64 - pageSize := by
      rcases Nat.eq_zero_or_pos seg.memsz with h0 | hpos
      · omega
      · have hend := (h.inRange hpos).2.1
        unfold userEnd at hend
        unfold pageSize
        omega
    have hnot : ¬ Refused top seg.address seg.memsz := by
      rcases Nat.eq_zero_or_pos seg.memsz with h0 | hpos
      · exact h0 ▸ h.empty h0
      · obtain ⟨hlo, hend, -⟩ := h.inRange hpos
        have htop := hready.userEnd_le
        intro href
        have hout := href.1
        rw [roundRequest_eq _ hw.memsz_lt] at hout
        unfold pageSize at *
        omega
    refine ⟨_, (hok _).mpr ⟨hnot, hsize, hfile, ?_, ?_, rfl⟩⟩
    · rwa [hlength]
    · rwa [hnext, wsub_of_le hw.memsz_lt hle]

theorem loadSegment_loaded (hready : Ready s.mm top) (hw : seg.IsWords)
    (h : loadSegment A stale buffer s seg = .ok t) : seg.Loaded top stale buffer s t := by
  have hfits := (loadSegment_fits hready hw).mp ⟨t, h⟩
  obtain ⟨mm, hmm, hok⟩ := loadSegment_eq_ok hready
  obtain ⟨-, -, hfile, -, -, rfl⟩ := (hok t).mp h
  have hle := hfits.filesz_le
  have haddress := hw.address_lt
  have hlength := fileBytes_length hfile
  refine ⟨hmm, fun _ => rfl, ?_, rfl⟩
  have hnext : wadd seg.address seg.filesz = seg.address + seg.filesz := by
    apply wadd_of_lt
    rcases Nat.eq_zero_or_pos seg.memsz with h0 | hpos
    · omega
    · have hend := (hfits.inRange hpos).2.1
      unfold userEnd at hend
      omega
  rw [hnext, wsub_of_le hw.memsz_lt hle]
  have happend := Lib.writeAt_writeAt_append (blockMapped stale s mm seg).byte seg.address
    ((buffer.drop seg.offset).take seg.filesz) (List.replicate (seg.memsz - seg.filesz) 0)
  rw [hlength] at happend
  exact happend

end Segments

end Kot.Kernel.Elf
