import Kot.Kernel.Machine
import Kot.Lib.Run
import Mathlib.Logic.Function.Basic

/-! The commands that `modules/ahci/source/port.c` builds for a SATA disk: the command header, the
registers of the host-to-device packet and the table of memory regions. -/
namespace Kot.Ahci

open Kot.Kernel Kot.Lib Function

/-- The registers of `fis_host_to_device_registers_t` that the driver stores to, and `lba5`. -/
structure Fis where
  fisType : ℕ
  commandControl : ℕ
  command : ℕ
  deviceRegister : ℕ
  lba0 : ℕ
  lba1 : ℕ
  lba2 : ℕ
  lba3 : ℕ
  lba4 : ℕ
  lba5 : ℕ
  countLow : ℕ
  countHigh : ℕ
  deriving DecidableEq

structure PrdtEntry where
  dataBaseAddress : ℕ
  byteCount : ℕ
  interruptOnCompletion : ℕ
  deriving DecidableEq

structure CommandHeader where
  commandFisLength : ℕ
  atapi : ℕ
  write : ℕ
  prdtLength : ℕ
  deriving DecidableEq

/-- `ahci_sata_device_t`: the list of headers and the command table of the main slot. -/
structure SataDevice where
  mainSlot : ℕ
  headers : ℕ → CommandHeader
  fis : Fis
  prdtEntry : ℕ → PrdtEntry

def sectorSize : ℕ := 0x200

/-- `HBA_PRDT_ENTRY_ADDRESS_SIZE`. -/
def prdtAddressSize : ℕ := 0x1000

/-- `HBA_PRDT_ENTRY_SECTOR_COUNT`. -/
def prdtSectorCount : ℕ := prdtAddressSize / sectorSize

def prdtMaxEntries : ℕ := 0x10000 / 0x1000

/-- `DIV_ROUNDUP` on `uint64_t`. -/
def divRoundup (value div : ℕ) : ℕ := wadd value (div - 1) / div

def sectorCount (start size : ℕ) : ℕ := divRoundup (wadd size (start % sectorSize)) sectorSize

def prdtLength (start size : ℕ) : ℕ := divRoundup (sectorCount start size) prdtSectorCount

/-- The loop that fills the table. -/
def loadPrdt (physical : ℕ → ℕ) (buffer : ℕ) :
    (turns i sectorCountIteration : ℕ) → (ℕ → PrdtEntry) → ℕ → PrdtEntry
  | 0, _, _, table => table
  | turns + 1, i, sectorCountIteration, table =>
    let sectorCountToLoad :=
      if sectorCountIteration > prdtSectorCount then prdtSectorCount else sectorCountIteration
    loadPrdt physical buffer turns (i + 1) (sectorCountIteration - sectorCountToLoad)
      (update table i
        { dataBaseAddress := physical (wadd buffer (i * prdtAddressSize))
          byteCount := wsub (sectorCountToLoad * 2 ^ 9) 1 % 2 ^ 22
          interruptOnCompletion := 1 })

/-- The registers of a transfer; the store to `lba4` is made twice. -/
def transferFis (fis : Fis) (command sector sectorCount : ℕ) : Fis :=
  let sectorLow := sector % 2 ^ 32
  let sectorHigh := sector / 2 ^ 32 % 2 ^ 32
  let fis := { fis with
    fisType := 0x27
    commandControl := 1
    command := command
    lba0 := sectorLow % 2 ^ 8
    lba1 := sectorLow / 2 ^ 8 % 2 ^ 8
    lba2 := sectorLow / 2 ^ 16 % 2 ^ 8
    lba3 := sectorHigh % 2 ^ 8
    lba4 := sectorHigh / 2 ^ 8 % 2 ^ 8 }
  { fis with
    lba4 := sectorHigh / 2 ^ 16 % 2 ^ 8
    deviceRegister := 2 ^ 6
    countLow := sectorCount % 2 ^ 8
    countHigh := sectorCount / 2 ^ 8 % 2 ^ 8 }

/-- The common part of `sata_read` and `sata_write` up to the issue of the command; `none` is
`EIO`. The header is always the first one of the list. -/
def sataTransfer (command write : ℕ) (physical : ℕ → ℕ) (d : SataDevice)
    (start size buffer : ℕ) : Option SataDevice :=
  if prdtLength start size > prdtMaxEntries then none
  else some { d with
    headers := update d.headers 0
      { commandFisLength := 5
        atapi := 0
        write := write
        prdtLength := prdtLength start size % 2 ^ 16 }
    prdtEntry := loadPrdt physical buffer (prdtLength start size) 0 (sectorCount start size)
      d.prdtEntry
    fis := transferFis d.fis command (start / 2 ^ 9) (sectorCount start size) }

/-- `physical` is the current space. -/
def sataRead (physical : ℕ → ℕ) : SataDevice → (start size buffer : ℕ) → Option SataDevice :=
  sataTransfer 0x25 0 physical

/-- `physical` is the kernel space. -/
def sataWrite (physical : ℕ → ℕ) : SataDevice → (start size buffer : ℕ) → Option SataDevice :=
  sataTransfer 0x35 1 physical

/-- `sata_identify` up to the issue of the command. -/
def sataIdentify (d : SataDevice) (identifyInfoPhysical : ℕ) : SataDevice :=
  { d with
    headers := update d.headers 0
      { commandFisLength := 5, atapi := 0, write := 0, prdtLength := 1 }
    prdtEntry := update d.prdtEntry 0
      { dataBaseAddress := identifyInfoPhysical, byteCount := 511, interruptOnCompletion := 1 }
    fis := { d.fis with fisType := 0x27, commandControl := 1, command := 0xEC } }

/-- The device after `sata_device_init` has cleared the headers and the table. -/
def sataDeviceInit (mainSlot : ℕ) : SataDevice where
  mainSlot := mainSlot
  headers := fun _ => ⟨0, 0, 0, 0⟩
  fis := ⟨0, 0, 0, 0, 0, 0, 0, 0, 0, 0, 0, 0⟩
  prdtEntry := fun _ => ⟨0, 0, 0⟩

inductive Command
  | identify (physical : ℕ)
  | read (physical : ℕ → ℕ) (start size buffer : ℕ)
  | write (physical : ℕ → ℕ) (start size buffer : ℕ)

/-- The device after a command; a request with too many entries changes nothing. -/
def issue (d : SataDevice) : Command → SataDevice
  | .identify physical => sataIdentify d physical
  | .read physical start size buffer => (sataRead physical d start size buffer).getD d
  | .write physical start size buffer => (sataWrite physical d start size buffer).getD d

def Fis.lba (fis : Fis) : ℕ :=
  fis.lba0 + 2 ^ 8 * fis.lba1 + 2 ^ 16 * fis.lba2 + 2 ^ 24 * fis.lba3 + 2 ^ 32 * fis.lba4 +
    2 ^ 40 * fis.lba5

def Fis.count (fis : Fis) : ℕ := fis.countLow + 2 ^ 8 * fis.countHigh

/-- The bytes that the first `n` entries of a table describe: the field is one less. -/
def described (table : ℕ → PrdtEntry) (n : ℕ) : ℕ :=
  ((List.range n).map fun i => (table i).byteCount + 1).sum

/-- The command in the main slot transfers the request. -/
structure SataDevice.Encodes (d : SataDevice) (physical : ℕ → ℕ) (start size buffer : ℕ) :
    Prop where
  lba : d.fis.lba = start / sectorSize
  count : d.fis.count = (size + (sectorSize - 1)) / sectorSize
  bytes : described d.prdtEntry (d.headers d.mainSlot).prdtLength = d.fis.count * sectorSize
  /-- every entry starts where the one before it ends -/
  order : ∀ i < (d.headers d.mainSlot).prdtLength,
    (d.prdtEntry i).dataBaseAddress = physical (wadd buffer (described d.prdtEntry i))

section

variable {physical : ℕ → ℕ} {buffer turns i j n left : ℕ} {table : ℕ → PrdtEntry}

theorem loadPrdt_of_lt (h : j < i) : loadPrdt physical buffer turns i left table j = table j := by
  induction turns generalizing i left table with
  | zero => rfl
  | succ turns ih => rw [loadPrdt, ih (by omega), update_of_ne (by omega)]

theorem loadPrdt_eq (hle : left ≤ 8 * turns) (hlt : 8 * turns < left + 8) (hi : i ≤ j)
    (hj : j < i + turns) :
    loadPrdt physical buffer turns i left table j =
      { dataBaseAddress := physical (wadd buffer (j * 0x1000))
        byteCount := min (left - 8 * (j - i)) 8 * 512 - 1
        interruptOnCompletion := 1 } := by
  induction turns generalizing i left table with
  | zero => omega
  | succ turns ih =>
    have hload : (if left > prdtSectorCount then prdtSectorCount else left) = min left 8 := by
      rw [show prdtSectorCount = 8 from rfl]
      split_ifs <;> omega
    rw [loadPrdt, hload]
    rcases Nat.eq_or_lt_of_le hi with rfl | hi
    · rw [loadPrdt_of_lt (by omega), update_self, wsub_of_le (by omega) (by omega),
        Nat.mod_eq_of_lt (by omega), Nat.sub_self]
      rfl
    · rw [ih (by omega) (by omega) (by omega) (by omega)]
      congr 3
      omega

theorem described_succ :
    described table (n + 1) = described table n + ((table n).byteCount + 1) := by
  simp [described, List.range_succ]

theorem described_loadPrdt (hle : left ≤ 8 * turns) (hlt : 8 * turns < left + 8) (hn : n ≤ turns) :
    described (loadPrdt physical buffer turns 0 left table) n = min (8 * n) left * 512 := by
  induction n with
  | zero => simp [described]
  | succ n ih =>
    rw [described_succ, ih (by omega), loadPrdt_eq hle hlt (by omega) (by omega)]
    show _ + (min (left - 8 * (n - 0)) 8 * 512 - 1 + 1) = _
    omega

end

section

variable {start size buffer command write mainSlot : ℕ} {physical : ℕ → ℕ} {d d' : SataDevice}

theorem sectorCount_of_aligned (hs : start % sectorSize = 0) (hn : size < 2 ^ 64) :
    sectorCount start size = wadd size 511 / 512 := by
  rw [sectorCount, hs, wadd_of_lt (by omega), divRoundup]
  rfl

theorem prdtLength_eq (h : sectorCount start size < 2 ^ 60) :
    prdtLength start size = (sectorCount start size + 7) / 8 := by
  rw [prdtLength, divRoundup, show prdtSectorCount = 8 from rfl, wadd_of_lt (by omega)]

theorem sectorCount_lt (start size : ℕ) : sectorCount start size < 2 ^ 60 := by
  have hlt : wadd (wadd size (start % sectorSize)) (sectorSize - 1) < 2 ^ 64 :=
    Nat.mod_lt _ (by decide)
  rw [sectorCount, divRoundup]
  exact Nat.div_lt_of_lt_mul (by rw [sectorSize] at *; omega)

theorem lba_transferFis_iff {fis : Fis} {sector : ℕ} (command count : ℕ) (h5 : fis.lba5 = 0)
    (hs : sector < 2 ^ 48) :
    (transferFis fis command sector count).lba = sector ↔ sector < 2 ^ 24 := by
  have hlow : sector % 2 ^ 32 % 2 ^ 8 + 2 ^ 8 * (sector % 2 ^ 32 / 2 ^ 8 % 2 ^ 8) +
      2 ^ 16 * (sector % 2 ^ 32 / 2 ^ 16 % 2 ^ 8) = sector % 2 ^ 24 := by omega
  have hhigh : sector / 2 ^ 32 % 2 ^ 32 = sector / 2 ^ 32 := Nat.mod_eq_of_lt (by omega)
  have hlba4 : sector / 2 ^ 32 / 2 ^ 16 = 0 := by omega
  have hlba : (transferFis fis command sector count).lba =
      sector % 2 ^ 24 + 2 ^ 24 * (sector / 2 ^ 32 % 2 ^ 8) := by
    simp only [transferFis, Fis.lba, h5, hlow, hhigh, hlba4, Nat.zero_mod, Nat.mul_zero,
      Nat.add_zero]
  rw [hlba]
  constructor
  · intro heq
    have hdiv : sector / 2 ^ 24 = sector / 2 ^ 32 % 2 ^ 8 := by omega
    have hzero : sector / 2 ^ 32 = 0 := by omega
    rw [hzero] at hdiv
    omega
  · intro hlt
    rw [Nat.mod_eq_of_lt hlt, Nat.div_eq_of_lt (by omega : sector < 2 ^ 32)]
    rfl

theorem count_transferFis {fis : Fis} {sector count : ℕ} (h : count < 2 ^ 16) :
    (transferFis fis command sector count).count = count := by
  simp only [transferFis, Fis.count]
  omega

/-- What no command changes: the highest byte of the address, and the header of the main slot
unless it is the first one. -/
structure SataDevice.Untouched (d : SataDevice) (mainSlot : ℕ) : Prop where
  slot : d.mainSlot = mainSlot
  lba5 : d.fis.lba5 = 0
  header : mainSlot ≠ 0 → (d.headers mainSlot).prdtLength = 0

theorem SataDevice.Untouched.sataTransfer (h : d.Untouched mainSlot)
    (ht : Ahci.sataTransfer command write physical d start size buffer = some d') :
    d'.Untouched mainSlot := by
  unfold Ahci.sataTransfer at ht
  split_ifs at ht
  cases ht
  refine ⟨h.slot, h.lba5, fun hm => ?_⟩
  show (update d.headers 0 _ mainSlot).prdtLength = 0
  rw [update_of_ne hm]
  exact h.header hm

theorem SataDevice.Untouched.issue (h : d.Untouched mainSlot) (c : Command) :
    (Ahci.issue d c).Untouched mainSlot := by
  cases c with
  | identify p =>
    refine ⟨h.slot, h.lba5, fun hm => ?_⟩
    show (update d.headers 0 _ mainSlot).prdtLength = 0
    rw [update_of_ne hm]
    exact h.header hm
  | read p start size buffer =>
    rw [Ahci.issue]
    cases ht : sataRead p d start size buffer with
    | none => exact h
    | some d' => exact h.sataTransfer ht
  | write p start size buffer =>
    rw [Ahci.issue]
    cases ht : sataWrite p d start size buffer with
    | none => exact h
    | some d' => exact h.sataTransfer ht

theorem untouched_of_run {cs : List Command}
    (h : Run (fun d c d' => d' = issue d c) (sataDeviceInit mainSlot) cs d) :
    d.Untouched mainSlot := by
  apply h.invariant ⟨rfl, rfl, fun _ => rfl⟩
  rintro t c u ht rfl
  exact ht.issue c

theorem sataTransfer_fields (h : d.Untouched mainSlot)
    (ht : sataTransfer command write physical d start size buffer = some d') :
    prdtLength start size ≤ 16 ∧
      d'.fis = transferFis d.fis command (start / 2 ^ 9) (sectorCount start size) ∧
      d'.prdtEntry = loadPrdt physical buffer (prdtLength start size) 0 (sectorCount start size)
        d.prdtEntry ∧
      (d'.headers d'.mainSlot).prdtLength =
        if mainSlot = 0 then prdtLength start size else 0 := by
  unfold sataTransfer at ht
  split_ifs at ht with hmax
  have hmax' : prdtLength start size ≤ 16 := Nat.le_of_not_lt hmax
  rw [← Option.some.inj ht]
  refine ⟨hmax', rfl, rfl, ?_⟩
  show (update d.headers 0 _ d.mainSlot).prdtLength = _
  rw [h.slot]
  split_ifs with hm
  · rw [hm, update_self]
    exact Nat.mod_eq_of_lt (by omega)
  · rw [update_of_ne hm]
    exact h.header hm

theorem sataTransfer_encodes_iff (h : d.Untouched mainSlot) (hs : start % sectorSize = 0)
    (hlba : start / sectorSize < 2 ^ 48) (hn : size < 2 ^ 64)
    (ht : sataTransfer command write physical d start size buffer = some d') :
    d'.Encodes physical start size buffer ↔
      start / sectorSize < 2 ^ 24 ∧ size + 511 < 2 ^ 64 ∧ (mainSlot = 0 ∨ size = 0) := by
  obtain ⟨hmax, hfis, hprdt, hheaders⟩ := sataTransfer_fields h ht
  have hcount := sectorCount_of_aligned hs hn
  have hlen := prdtLength_eq (sectorCount_lt start size)
  have hlba' := lba_transferFis_iff command (sectorCount start size) h.lba5 hlba
  have hcount16 : sectorCount start size < 2 ^ 16 := by omega
  constructor
  · intro he
    have hsum : (size + 511) / 512 = sectorCount start size := by
      rw [← count_transferFis hcount16, ← hfis]
      exact he.count.symm
    have hbytes := he.bytes
    rw [hfis, count_transferFis hcount16, hheaders, hprdt, described_loadPrdt (by omega) (by omega)
      (by split_ifs <;> omega)] at hbytes
    have hwrap : size + 511 < 2 ^ 64 := by
      by_contra hge
      rw [hcount, wadd, Nat.mod_eq_sub_mod (by omega)] at hsum
      omega
    refine ⟨hlba'.mp (hfis ▸ he.lba), hwrap, ?_⟩
    split_ifs at hbytes with hm
    · exact .inl hm
    · exact .inr (by rw [sectorSize] at hbytes; omega)
  · rintro ⟨h24, hwrap, hslot⟩
    rw [wadd_of_lt hwrap] at hcount
    have hdescribed : ∀ n ≤ prdtLength start size,
        described d'.prdtEntry n = min (8 * n) (sectorCount start size) * 512 := by
      intro n hle
      rw [hprdt, described_loadPrdt (by omega) (by omega) hle]
    have hle : (d'.headers d'.mainSlot).prdtLength ≤ prdtLength start size := by
      rw [hheaders]
      split_ifs <;> omega
    refine ⟨?_, ?_, ?_, ?_⟩
    · rw [hfis]
      exact hlba'.mpr h24
    · rw [hfis, count_transferFis hcount16, hcount]
      rfl
    · rw [hdescribed _ hle, hfis, count_transferFis hcount16, hheaders, sectorSize]
      split_ifs with hm <;> omega
    · intro i hi
      rw [hdescribed i (by omega), hprdt, loadPrdt_eq (by omega) (by omega) (by omega) (by omega)]
      have hfull : min (8 * i) (sectorCount start size) * 512 = i * 0x1000 := by omega
      rw [hfull]

end

/-- After any commands, the command built for an aligned request within the table is right exactly
for sectors below 2²⁴, if the rounding does not wrap and the header is that of the main slot. -/
theorem sata_encodes_iff (mainSlot : ℕ) (cs : List Command) (d : SataDevice)
    (h : Run (fun d c d' => d' = issue d c) (sataDeviceInit mainSlot) cs d) (physical : ℕ → ℕ)
    (start size buffer : ℕ) (hs : start % sectorSize = 0) (hlba : start / sectorSize < 2 ^ 48)
    (hn : size < 2 ^ 64) (hmax : prdtLength start size ≤ prdtMaxEntries) :
    ((∃ d', sataRead physical d start size buffer = some d' ∧
        d'.Encodes physical start size buffer) ↔
      start / sectorSize < 2 ^ 24 ∧ size + 511 < 2 ^ 64 ∧ (mainSlot = 0 ∨ size = 0)) ∧
    ((∃ d', sataWrite physical d start size buffer = some d' ∧
        d'.Encodes physical start size buffer) ↔
      start / sectorSize < 2 ^ 24 ∧ size + 511 < 2 ^ 64 ∧ (mainSlot = 0 ∨ size = 0)) := by
  have hu := untouched_of_run h
  have hbuilt : ∀ command write, (∃ d', sataTransfer command write physical d start size buffer =
      some d' ∧ d'.Encodes physical start size buffer) ↔
      start / sectorSize < 2 ^ 24 ∧ size + 511 < 2 ^ 64 ∧ (mainSlot = 0 ∨ size = 0) := by
    intro command write
    obtain ⟨d', ht⟩ : ∃ d', sataTransfer command write physical d start size buffer = some d' :=
      ⟨_, if_neg (Nat.not_lt.mpr hmax)⟩
    rw [← sataTransfer_encodes_iff hu hs hlba hn ht]
    constructor
    · rintro ⟨d'', ht', he⟩
      rw [ht] at ht'
      rwa [Option.some.inj ht']
    · intro he
      exact ⟨d', ht, he⟩
  exact ⟨hbuilt 0x25 0, hbuilt 0x35 1⟩

theorem sata_encodes_first_page :
    ∃ d', sataRead id (sataIdentify (sataDeviceInit 0) 0) 0 0x1000 0 = some d' ∧
      d'.Encodes id 0 0x1000 0 :=
  (sata_encodes_iff 0 [.identify 0] _ (Run.snoc .nil rfl) id 0 0x1000 0 (by decide) (by decide)
    (by decide) (by decide)).1.mpr ⟨by decide, by decide, .inl rfl⟩

/-- The registers for the sector 2²⁴ hold the address of the sector 0. -/
theorem high_sector_is_lost :
    ∃ d', sataRead id (sataIdentify (sataDeviceInit 0) 0) (2 ^ 24 * 512) 512 0 = some d' ∧
      d'.fis.lba = 0 ∧ ¬ d'.Encodes id (2 ^ 24 * 512) 512 0 := by
  refine ⟨_, rfl, by decide +kernel, fun he => ?_⟩
  exact absurd he.lba (by decide +kernel)

end Kot.Ahci
