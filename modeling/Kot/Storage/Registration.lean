import Kot.Storage.GptRepair
import Mathlib.Algebra.Order.BigOperators.Group.List
import Mathlib.Algebra.Order.Group.Nat

/-! The partitions that `load_gpt_partitions` registers, against those that a GUID partition table
describes. -/
namespace Kot.Storage

open Kot.Kernel Kot.Lib List Header

/-- A call `new_partition(device, start, size, &partition_type_guid)`. -/
structure NewPartition where
  start : ℕ
  size : ℕ
  partitionTypeGuid : ℕ
  deriving DecidableEq

/-- A field of an entry in an array whose entries have `stride` bytes. -/
def entryField (array : List UInt8) (stride i offset width : ℕ) : ℕ :=
  fromLe ((array.drop (i * stride + offset)).take width)

/-- One turn of the loop in `load_gpt_partitions`; the stride is that of
`gpt_partition_entry_t`. -/
def registerEntry (array : List UInt8) (i : ℕ) : Option NewPartition :=
  let startingLba := entryField array 128 i 32 8
  let endingLba := entryField array 128 i 40 8
  let start := lbaToBytes startingLba
  let size := lbaToBytes (wsub endingLba startingLba)
  if size ≠ 0 then some ⟨start, size, entryField array 128 i 0 16⟩ else none

def registerEntries (array : List UInt8) (n : ℕ) : List NewPartition :=
  (List.range n).filterMap (registerEntry array)

/-- The header of the device, loaded if it is not yet. -/
def ensureGptHeader (stale stale' : ℕ → UInt8) (s : DevicePartitions) :
    Except Fault (Status × DevicePartitions) :=
  if s.isGptHeaderLoaded then .ok (.ok, s) else loadGptHeader stale stale' s

/-- The part of `load_gpt_partitions` after the header is loaded. -/
def loadArray (stale stale' : ℕ → UInt8) (s : DevicePartitions) :
    Except Fault (Status × DevicePartitions × List NewPartition) :=
  match s.gptHeader with
  | none => .error .nullDereference
  | some h =>
    if s.gptPartitionEntries.isSome then .error .panic
    else
      match checkPartitions stale' (loadEntries stale h s) with
      | .error f => .error f
      | .ok (.einval, s) => .ok (.einval, s, [])
      | .ok (.ok, s) =>
        .ok (.ok, s, registerEntries (s.gptPartitionEntries.getD []) h.numberOfPartitionEntries)

/-- `load_gpt_partitions` and the partitions that it registers; `stale` is what the blocks from
`malloc` hold. -/
def loadGptPartitions (stale : Fin 4 → ℕ → UInt8) (s : DevicePartitions) :
    Except Fault (Status × DevicePartitions × List NewPartition) :=
  match ensureGptHeader (stale 0) (stale 1) s with
  | .error f => .error f
  | .ok (.einval, s) => .ok (.einval, s, [])
  | .ok (.ok, s) => loadArray (stale 2) (stale 3) s

def Header.headerSize (h : Header) : ℕ := h.field 12 4

def Header.sizeOfPartitionEntry (h : Header) : ℕ := h.field 84 4

/-- The array of a table, with the stride that its header records. -/
def Header.array (h : Header) (d : Disk) : List UInt8 :=
  readAt d.bytes (h.partitionEntryLba * 512) (h.numberOfPartitionEntries * h.sizeOfPartitionEntry)

section

variable (d : Disk) (h : Header)

def Header.typeGuid (i : ℕ) : ℕ := entryField (h.array d) h.sizeOfPartitionEntry i 0 16

def Header.startingLba (i : ℕ) : ℕ := entryField (h.array d) h.sizeOfPartitionEntry i 32 8

def Header.endingLba (i : ℕ) : ℕ := entryField (h.array d) h.sizeOfPartitionEntry i 40 8

/-- An entry with a type. -/
def Header.Used (i : ℕ) : Prop := i < h.numberOfPartitionEntries ∧ h.typeGuid d i ≠ 0

/-- The partition of an entry; the ending LBA belongs to it. -/
def Header.describedEntry (i : ℕ) : Option NewPartition :=
  if h.typeGuid d i ≠ 0 then
    some ⟨h.startingLba d i * 512, (h.endingLba d i - h.startingLba d i + 1) * 512, h.typeGuid d i⟩
  else none

/-- The partitions of a table, in its order. -/
def Header.described : List NewPartition :=
  (List.range h.numberOfPartitionEntries).filterMap (h.describedEntry d)

/-- A header in its sector: signature, checksum over the recorded size and own position. -/
structure SectorValid (lba : ℕ) : Prop where
  headerAt : d.headerAt lba = h
  signature : h.signature = gptSignature
  headerSize : 92 ≤ h.headerSize ∧ h.headerSize ≤ 512
  headerCrc32 : h.headerCrc32 =
    (partitionCrc32 0 (splice (readAt d.bytes (lba * 512) h.headerSize) 16 (toLe 4 0))).toNat
  myLba : h.myLba = lba

/-- A disk with a GUID partition table whose primary header is in the sector `lba`: header, array,
usable sectors, array and header follow each other. -/
structure ValidGpt (lba : ℕ) : Prop where
  primary : SectorValid d h lba
  backup : SectorValid d (d.headerAt h.alternateLba) h.alternateLba
  stride : 128 ≤ h.sizeOfPartitionEntry
  array_start : lba < h.partitionEntryLba
  array_end : h.partitionEntryLba * 512 + h.numberOfPartitionEntries * h.sizeOfPartitionEntry ≤
    h.firstUsableLba * 512
  usable : h.firstUsableLba ≤ h.lastUsableLba + 1
  backup_array : (h.lastUsableLba + 1) * 512 +
    h.numberOfPartitionEntries * h.sizeOfPartitionEntry ≤ h.alternateLba * 512
  disk_end : h.alternateLba * 512 + 512 ≤ d.size
  array_crc : h.partitionEntryArrayCrc32 = (partitionCrc32 0 (h.array d)).toNat
  entries : ∀ i, h.Used d i → h.firstUsableLba ≤ h.startingLba d i ∧
    h.startingLba d i ≤ h.endingLba d i ∧ h.endingLba d i ≤ h.lastUsableLba

/-- The registered partitions are those of the table; if its entries do not overlap they are
disjoint, and they cover all sectors. -/
structure Registers (parts : List NewPartition) : Prop where
  exact : parts = h.described d
  disjoint : (∀ i j, i ≠ j → h.Used d i → h.Used d j →
      h.endingLba d i < h.startingLba d j ∨ h.endingLba d j < h.startingLba d i) →
    parts.Pairwise fun p q => p.start + p.size ≤ q.start ∨ q.start + q.size ≤ p.start
  cover : ∀ i, h.Used d i → ∀ l, h.startingLba d i ≤ l → l ≤ h.endingLba d i →
    ∃ p ∈ parts, p.start ≤ l * 512 ∧ (l + 1) * 512 ≤ p.start + p.size

/-- The array of 128-byte records that the driver goes through: that of the table, or the records
before the backup header. -/
def Takes (a : List UInt8) : Prop :=
  h.Valid ∧ ((ArrayValid h d (lbaToBytes h.partitionEntryLba) ∧
      a = readAt d.bytes (lbaToBytes h.partitionEntryLba) (sizeOfPartitionList h)) ∨
    (¬ ArrayValid h d (lbaToBytes h.partitionEntryLba) ∧ ArrayValid h d (recoveryLocation h) ∧
      a = readAt d.bytes (recoveryLocation h) (sizeOfPartitionList h)))

end

section

variable {s : DevicePartitions} {h : Header} {d d' : Disk} {lba n : ℕ}

theorem checkPartitions_cases (stale stale' : ℕ → UInt8) (hd : ArraysApart h s.device) :
    ∃ st t, checkPartitions stale' (loadEntries stale h s) = .ok (st, t) ∧
      ((st = .ok ∧ ArrayValid h s.device (lbaToBytes h.partitionEntryLba) ∧
          t.gptPartitionEntries = some (readAt s.device.bytes (lbaToBytes h.partitionEntryLba)
            (sizeOfPartitionList h))) ∨
        (st = .ok ∧ ¬ ArrayValid h s.device (lbaToBytes h.partitionEntryLba) ∧
          ArrayValid h s.device (recoveryLocation h) ∧
          t.gptPartitionEntries = some (readAt s.device.bytes (recoveryLocation h)
            (sizeOfPartitionList h))) ∨
        (st = .einval ∧ ¬ ArrayValid h s.device (lbaToBytes h.partitionEntryLba) ∧
          ¬ ArrayValid h s.device (recoveryLocation h))) := by
  obtain ⟨hp, hc, hapart⟩ := hd
  unfold checkPartitions loadEntries ArrayValid
  simp only [Disk.read_fresh hp, Disk.read_fresh hc, readAt_length, ne_eq, not_true_eq_false, if_false]
  split_ifs with h1 h2 h2
  · exact ⟨_, _, rfl, .inl ⟨rfl, h1, rfl⟩⟩
  · exact ⟨_, _, rfl, .inl ⟨rfl, h1, rfl⟩⟩
  · refine ⟨_, _, rfl, .inr (.inl ⟨rfl, h1, h2, ?_⟩)⟩
    rw [Disk.read_inside (by rw [readAt_length]; exact hp), readAt_length,
      Disk.write_inside (by rw [readAt_length]; exact hp)]
    exact congrArg some (readAt_writeAt_eq (readAt_length ..))
  · exact ⟨_, _, rfl, .inr (.inr ⟨rfl, h1, h2⟩)⟩

section
variable (hv : ValidGpt d h lba)
include hv

theorem sizeOfPartitionList_le :
    sizeOfPartitionList h ≤ h.numberOfPartitionEntries * h.sizeOfPartitionEntry := by
  rw [sizeOfPartitionList, Nat.mul_comm]
  exact Nat.mul_le_mul_left _ hv.stride

theorem ValidGpt.places : lbaToBytes h.partitionEntryLba = h.partitionEntryLba * 512 ∧
      recoveryLocation h = h.alternateLba * 512 - sizeOfPartitionList h := by
  have hsize := d.size_lt
  have hle := sizeOfPartitionList_le hv
  obtain ⟨_, _, _, _, hend, husable, hbackup, hdisk, _, _⟩ := hv
  rw [recoveryLocation, lbaToBytes_of_lt (by omega), lbaToBytes_of_lt (by omega),
    wsub_of_le (by omega) (by omega)]
  exact ⟨rfl, rfl⟩

theorem ValidGpt.arraysApart : ArraysApart h d := by
  obtain ⟨hP, hC⟩ := hv.places
  have hle := sizeOfPartitionList_le hv
  obtain ⟨_, _, _, _, hend, husable, hbackup, hdisk, _, _⟩ := hv
  exact ⟨by omega, by omega, by omega⟩

theorem ValidGpt.readAt_eq (hsame : ∀ x, (lba + 1) * 512 ≤ x → d'.bytes x = d.bytes x) :
    readAt d'.bytes (lbaToBytes h.partitionEntryLba) (sizeOfPartitionList h) =
        readAt d.bytes (lbaToBytes h.partitionEntryLba) (sizeOfPartitionList h) ∧
      readAt d'.bytes (recoveryLocation h) (sizeOfPartitionList h) =
        readAt d.bytes (recoveryLocation h) (sizeOfPartitionList h) := by
  obtain ⟨hP, hC⟩ := hv.places
  have hle := sizeOfPartitionList_le hv
  have hlow : (lba + 1) * 512 ≤ lbaToBytes h.partitionEntryLba ∧
      (lba + 1) * 512 ≤ recoveryLocation h := by
    obtain ⟨_, _, _, hstart, hend, husable, hbackup, _, _, _⟩ := hv
    omega
  exact ⟨readAt_congr fun x hx _ => hsame x (hlow.1.trans hx),
    readAt_congr fun x hx _ => hsame x (hlow.2.trans hx)⟩

theorem loadArray_cases {stale stale' : ℕ → UInt8} (hvalid : h.Valid)
    (hh : s.gptHeader = some h) (he : s.gptPartitionEntries = none)
    (hsize : s.device.size = d.size)
    (hsame : ∀ x, (lba + 1) * 512 ≤ x → s.device.bytes x = d.bytes x) :
    ∃ st t parts, loadArray stale stale' s = .ok (st, t, parts) ∧
      ((∃ a, Takes d h a ∧ parts = registerEntries a h.numberOfPartitionEntries) ∨
        ((∀ a, ¬ Takes d h a) ∧ parts = [])) := by
  obtain ⟨hP, hC⟩ := hv.readAt_eq hsame
  obtain ⟨hp, hc, hapart⟩ := hv.arraysApart
  obtain ⟨st, t, hcheck, hcases⟩ := checkPartitions_cases stale stale'
    ⟨hsize ▸ hp, hsize ▸ hc, hapart⟩
  simp only [ArrayValid, hP, hC] at hcases
  rw [loadArray, hh]
  simp only [he, Option.isSome_none, Bool.false_eq_true, if_false, hcheck]
  rcases hcases with ⟨rfl, h1, ht⟩ | ⟨rfl, h1, h2, ht⟩ | ⟨rfl, h1, h2⟩
  · exact ⟨_, _, _, rfl, .inl ⟨_, ⟨hvalid, .inl ⟨h1, rfl⟩⟩, by rw [ht]; rfl⟩⟩
  · exact ⟨_, _, _, rfl, .inl ⟨_, ⟨hvalid, .inr ⟨h1, h2, rfl⟩⟩, by rw [ht]; rfl⟩⟩
  · refine ⟨_, _, _, rfl, .inr ⟨?_, rfl⟩⟩
    rintro a ⟨_, ⟨hval, _⟩ | ⟨_, hval, _⟩⟩
    · exact h1 hval
    · exact h2 hval

end

theorem loadGptPartitions_cases {stale : Fin 4 → ℕ → UInt8}
    (hv : ValidGpt s.device h s.startingLba.toNat) (hl : s.isGptHeaderLoaded = false)
    (hh : s.gptHeader = none) (he : s.gptPartitionEntries = none) :
    ∃ st t parts, loadGptPartitions stale s = .ok (st, t, parts) ∧
      ((∃ a, Takes s.device h a ∧ parts = registerEntries a h.numberOfPartitionEntries) ∨
        ((∀ a, ¬ Takes s.device h a) ∧ parts = [])) := by
  have hat := hv.primary.headerAt
  have hmy := hv.primary.myLba
  have hsize := s.device.size_lt
  have hin : s.startingLba.toNat * 512 + 92 ≤ s.device.size ∧
      h.alternateLba * 512 + 92 ≤ s.device.size := by
    obtain ⟨_, _, _, hstart, hend, husable, hbackup, hdisk, _, _⟩ := hv
    omega
  simp only [loadGptPartitions, ensureGptHeader, hl, Bool.false_eq_true, if_false, loadGptHeader,
    hh, Option.isSome_none, Disk.readHeader_inside _ hin.1, hat, hmy, ne_eq, not_true_eq_false,
    Disk.readHeader_inside _ hin.2]
  by_cases hvalid : h.Valid
  · have hcheck : checkGptHeader h = .ok := hvalid
    cases hrec : checkGptHeader (s.device.headerAt h.alternateLba) with
    | ok =>
      simp only [hcheck]
      exact loadArray_cases hv hvalid rfl he rfl fun _ _ => rfl
    | einval =>
      simp only [hcheck]
      refine loadArray_cases hv hvalid rfl he rfl fun x hx => ?_
      -- the backup is put over the primary header, which ends before the array
      rw [lbaToBytes_of_lt (by omega), Disk.write_inside (by rw [length_eq]; exact hin.1),
        writeAt_outside (by rw [length_eq]; omega)]
  · have hcheck := not_valid.mp hvalid
    cases hrec : checkGptHeader (s.device.headerAt h.alternateLba) with
    | ok | einval =>
      simp only [hcheck]
      exact ⟨_, _, _, rfl, .inr ⟨fun a ha => hvalid ha.1, rfl⟩⟩

theorem Takes.unique {a b : List UInt8} (ha : Takes d h a) (hb : Takes d h b) : a = b := by
  obtain ⟨_, ⟨h1, rfl⟩ | ⟨h1, _, rfl⟩⟩ := ha <;> obtain ⟨_, ⟨h2, rfl⟩ | ⟨h2, _, rfl⟩⟩ := hb
  · rfl
  · exact absurd h1 h2
  · exact absurd h2 h1
  · rfl

section
variable (hv : ValidGpt d h lba) (hstride : h.sizeOfPartitionEntry = 128)
include hv hstride

theorem ValidGpt.array_eq :
    readAt d.bytes (lbaToBytes h.partitionEntryLba) (sizeOfPartitionList h) = h.array d := by
  rw [array, hstride, hv.places.1, sizeOfPartitionList, Nat.mul_comm 128]

theorem ValidGpt.arrayValid : ArrayValid h d (lbaToBytes h.partitionEntryLba) := by
  rw [ArrayValid, hv.array_eq hstride]
  exact hv.array_crc

theorem Takes.eq_array {a : List UInt8} (ha : Takes d h a) : a = h.array d := by
  obtain ⟨_, ⟨_, rfl⟩ | ⟨hno, _⟩⟩ := ha
  · exact hv.array_eq hstride
  · exact absurd (hv.arrayValid hstride) hno

end

theorem described_eq_nil_iff : h.described d = [] ↔ ∀ i, ¬ h.Used d i := by
  rw [described, filterMap_eq_nil_iff]
  constructor
  · rintro hnil i ⟨hi, hguid⟩
    have hnone := hnil i (mem_range.mpr hi)
    rw [describedEntry, if_pos hguid] at hnone
    cases hnone
  · intro hno i hi
    rw [describedEntry, if_neg fun hguid => hno i ⟨mem_range.mp hi, hguid⟩]

def typedBytes (parts : List NewPartition) : ℕ :=
  (parts.map fun p => if p.partitionTypeGuid ≠ 0 then p.size else 0).sum

theorem typedBytes_filterMap {f : ℕ → Option NewPartition} {l : List ℕ} :
    typedBytes (l.filterMap f) = (l.map fun i => typedBytes (f i).toList).sum := by
  induction l with
  | nil => rfl
  | cons i l ih =>
    rw [filterMap_cons, map_cons, sum_cons, ← ih]
    cases f i with
    | none | some p => simp [typedBytes]

theorem typedBytes_registerEntry (hv : ValidGpt d h lba) (hstride : h.sizeOfPartitionEntry = 128)
    {i : ℕ} (hi : i < h.numberOfPartitionEntries) :
    typedBytes (registerEntry (h.array d) i).toList ≤ typedBytes (h.describedEntry d i).toList ∧
      (h.Used d i → typedBytes (registerEntry (h.array d) i).toList <
        typedBytes (h.describedEntry d i).toList) := by
  have hsize := d.size_lt
  have hguid : entryField (h.array d) 128 i 0 16 = h.typeGuid d i := by rw [typeGuid, hstride]
  have hfirst : entryField (h.array d) 128 i 32 8 = h.startingLba d i := by
    rw [startingLba, hstride]
  have hlast : entryField (h.array d) 128 i 40 8 = h.endingLba d i := by
    rw [endingLba, hstride]
  by_cases hused : h.typeGuid d i ≠ 0
  · obtain ⟨_, hle, hend⟩ := hv.entries i ⟨hi, hused⟩
    have hlt : h.endingLba d i * 512 < 2 ^ 64 := by
      have hbackup := hv.backup_array
      have hdisk := hv.disk_end
      omega
    simp only [registerEntry, describedEntry, hguid, hfirst, hlast, if_pos hused]
    rw [wsub_of_le (by omega) hle,
      lbaToBytes_of_lt ((Nat.mul_le_mul_right 512 (Nat.sub_le ..)).trans_lt hlt)]
    generalize h.endingLba d i - h.startingLba d i = count
    have hlt : count * 512 < (count + 1) * 512 :=
      Nat.mul_lt_mul_of_pos_right count.lt_succ_self (by decide)
    split_ifs
    · simp [typedBytes, hused, hlt, hlt.le]
    · simp [typedBytes, hused]
  · have hzero : typedBytes (registerEntry (h.array d) i).toList = 0 := by
      simp only [registerEntry, hguid]
      split_ifs <;> simp [typedBytes, not_not.mp hused]
    rw [hzero]
    exact ⟨Nat.zero_le _, fun hu => absurd hu.2 hused⟩

theorem registerEntries_ne_described (hv : ValidGpt d h lba)
    (hstride : h.sizeOfPartitionEntry = 128) {i : ℕ} (hi : h.Used d i) :
    registerEntries (h.array d) h.numberOfPartitionEntries ≠ h.described d := by
  intro heq
  have hsum := congrArg typedBytes heq
  rw [registerEntries, described, typedBytes_filterMap, typedBytes_filterMap] at hsum
  refine absurd hsum (ne_of_lt (sum_lt_sum _ _ ?_ ?_))
  · intro j hj
    exact (typedBytes_registerEntry hv hstride (mem_range.mp hj)).1
  · exact ⟨i, mem_range.mpr hi.1, (typedBytes_registerEntry hv hstride hi.1).2 hi⟩

theorem describedEntry_eq_some {i : ℕ} {p : NewPartition} (hi : i < h.numberOfPartitionEntries)
    (hp : h.describedEntry d i = some p) :
    h.Used d i ∧ p = ⟨h.startingLba d i * 512,
      (h.endingLba d i - h.startingLba d i + 1) * 512, h.typeGuid d i⟩ := by
  rw [describedEntry] at hp
  split_ifs at hp with hguid
  exact ⟨⟨hi, hguid⟩, (Option.some.inj hp).symm⟩

theorem registers_described (hv : ValidGpt d h lba) : Registers d h (h.described d) := by
  refine ⟨rfl, ?_, ?_⟩
  · intro hapart
    rw [described, pairwise_filterMap]
    refine List.Pairwise.imp_of_mem ?_ (pairwise_lt_range)
    intro i j hi hj hij p hp q hq
    obtain ⟨hui, rfl⟩ := describedEntry_eq_some (mem_range.mp hi) hp
    obtain ⟨huj, rfl⟩ := describedEntry_eq_some (mem_range.mp hj) hq
    obtain ⟨_, hlei, _⟩ := hv.entries i hui
    obtain ⟨_, hlej, _⟩ := hv.entries j huj
    have hor := hapart i j (by omega) hui huj
    show h.startingLba d i * 512 + (h.endingLba d i - h.startingLba d i + 1) * 512 ≤
        h.startingLba d j * 512 ∨
      h.startingLba d j * 512 + (h.endingLba d j - h.startingLba d j + 1) * 512 ≤
        h.startingLba d i * 512
    omega
  · intro i hi l hstart hend
    refine ⟨_, mem_filterMap.mpr ⟨i, mem_range.mpr hi.1, if_pos hi.2⟩, ?_, ?_⟩
    · exact Nat.mul_le_mul_right _ hstart
    · show (l + 1) * 512 ≤
        h.startingLba d i * 512 + (h.endingLba d i - h.startingLba d i + 1) * 512
      omega

/-- No record of an array has a length. -/
def Lengthless (a : List UInt8) (n : ℕ) : Prop :=
  ∀ i < n, lbaToBytes (wsub (entryField a 128 i 40 8) (entryField a 128 i 32 8)) = 0

theorem registerEntries_eq_nil_iff {a : List UInt8} : registerEntries a n = [] ↔ Lengthless a n := by
  rw [registerEntries, filterMap_eq_nil_iff]
  simp only [mem_range, registerEntry, ne_eq, ite_eq_right_iff, reduceCtorEq, imp_false,
    not_not, Lengthless]

end

/-- An entry of the given type from one sector to another. -/
def tableEntry (type first last : ℕ) : List UInt8 :=
  toLe 16 type ++ List.replicate 16 0 ++ toLe 8 first ++ toLe 8 last ++ List.replicate 80 0

theorem Header.setHeaderCrc32_twice (h : Header) (v w : ℕ) :
    (h.setHeaderCrc32 v).setHeaderCrc32 w = h.setHeaderCrc32 w := by
  have hlen := h.length_eq
  simp only [setHeaderCrc32, set, mk.injEq]
  exact splice_splice (by rw [toLe_length]; omega) (by rw [toLe_length, toLe_length])

variable {h : Header} {d : Disk} {lba : ℕ} {entry : List UInt8}

theorem Header.sign_valid (hsig : h.signature = gptSignature) : h.sign.Valid := by
  have hlt : h.computeCrc32 < 256 ^ 4 := (partitionCrc32 0 (h.setHeaderCrc32 0).bytes).toNat_lt
  have hcrc : h.sign.headerCrc32 = h.computeCrc32 := by
    rw [sign, headerCrc32, setHeaderCrc32, field_set_self, Nat.mod_eq_of_lt hlt]
  have hcompute : h.sign.computeCrc32 = h.computeCrc32 := by
    rw [computeCrc32, sign, setHeaderCrc32_twice, computeCrc32]
  have hsig' : h.sign.signature = gptSignature := by
    rw [sign, signature, setHeaderCrc32, field_set_of_disjoint _ (by omega)]
    exact hsig
  rw [Valid, checkGptHeader, if_pos hsig', if_pos (hcrc.trans hcompute.symm)]

theorem tableHeader_fields (entry : List UInt8) (my alternate entryLba : ℕ) (hmy : my < 2 ^ 64)
    (halternate : alternate < 2 ^ 64) (hentry : entryLba < 2 ^ 64) :
    let h := tableHeader entry my alternate entryLba
    h.Valid ∧ h.headerSize = 92 ∧ h.myLba = my ∧ h.alternateLba = alternate ∧
      h.firstUsableLba = 3 ∧ h.lastUsableLba = 125 ∧ h.partitionEntryLba = entryLba ∧
      h.numberOfPartitionEntries = 1 ∧ h.sizeOfPartitionEntry = 128 ∧
      h.partitionEntryArrayCrc32 = (partitionCrc32 0 entry).toNat := by
  have hcrc := (partitionCrc32 0 entry).toNat_lt
  refine ⟨Header.sign_valid ?_, ?_, ?_, ?_, ?_, ?_, ?_, ?_, ?_, ?_⟩
  all_goals simp (disch := omega) only [tableHeader, Header.sign, Header.setHeaderCrc32, Header.setMyLba,
    Header.setPartitionEntryLba, Header.signature, Header.headerSize, Header.myLba,
    Header.alternateLba, Header.firstUsableLba, Header.lastUsableLba, Header.partitionEntryLba,
    Header.numberOfPartitionEntries, Header.sizeOfPartitionEntry, Header.partitionEntryArrayCrc32,
    Header.field_set_of_disjoint, Header.field_set_self]
  all_goals first | rfl | exact Nat.mod_eq_of_lt (by omega)

theorem headerAt_eq (hbytes : readAt d.bytes (lba * 512) 92 = h.bytes) : d.headerAt lba = h := by
  cases h with
  | mk bytes length_eq => simp only [Disk.headerAt, hbytes]

theorem tableDisk_reads (hlen : entry.length = 128) :
    (tableDisk entry).device.headerAt 1 = tableHeader entry 1 127 2 ∧
      (tableDisk entry).device.headerAt 127 = tableHeader entry 127 1 126 ∧
      readAt (tableDisk entry).device.bytes (2 * 512) 128 = entry := by
  have h1 := (tableHeader entry 1 127 2).length_eq
  have h2 := (tableHeader entry 127 1 126).length_eq
  have hbytes : (tableDisk entry).device.bytes =
      writeAt (writeAt (writeAt (fun _ => 0) 512 (tableHeader entry 1 127 2).bytes)
        (127 * 512) (tableHeader entry 127 1 126).bytes) 1024 entry := rfl
  refine ⟨headerAt_eq ?_, headerAt_eq ?_, ?_⟩
  · rw [hbytes, readAt_writeAt_of_disjoint (by omega), readAt_writeAt_of_disjoint (by omega)]
    exact readAt_writeAt_eq h1
  · rw [hbytes, readAt_writeAt_of_disjoint (by omega), readAt_writeAt_eq h2]
  · rw [hbytes]
    exact readAt_writeAt_eq hlen

theorem sectorValid_of_valid (hat : d.headerAt lba = h)
    (hvalid : h.Valid) (hsize : h.headerSize = 92) (hmy : h.myLba = lba) :
    SectorValid d h lba := by
  have hbytes : readAt d.bytes (lba * 512) 92 = h.bytes := congrArg Header.bytes hat
  rw [Header.Valid, checkGptHeader] at hvalid
  split_ifs at hvalid with hsig hcrc
  refine ⟨hat, hsig, by omega, ?_, hmy⟩
  rw [hsize, hbytes, hcrc]
  rfl

theorem tableDisk_array (hlen : entry.length = 128) :
    (tableHeader entry 1 127 2).array (tableDisk entry).device = entry := by
  obtain ⟨_, _, _, _, _, _, hlba, hn, hstride, _⟩ :=
    tableHeader_fields entry 1 127 2 (by omega) (by omega)
      (by omega)
  rw [array, hlba, hn, hstride]
  exact (tableDisk_reads hlen).2.2

theorem tableDisk_valid (hlen : entry.length = 128)
    (hentry : entryField entry 128 0 0 16 ≠ 0 → 3 ≤ entryField entry 128 0 32 8 ∧
    entryField entry 128 0 32 8 ≤ entryField entry 128 0 40 8 ∧
    entryField entry 128 0 40 8 ≤ 125) :
    ValidGpt (tableDisk entry).device (tableHeader entry 1 127 2) 1 := by
  obtain ⟨hvalid, hsize, hmy, halt, hfirst, hlast, hlba, hn, hstride, hcrc⟩ :=
    tableHeader_fields entry 1 127 2 (by omega) (by omega)
      (by omega)
  obtain ⟨hvalid', hsize', hmy', _⟩ :=
    tableHeader_fields entry 127 1 126 (by omega) (by omega)
      (by omega)
  obtain ⟨hat, hat', _⟩ := tableDisk_reads hlen
  have harray := tableDisk_array hlen
  have hdisk : (tableDisk entry).device.size = 128 * 512 := rfl
  refine ⟨sectorValid_of_valid hat hvalid hsize hmy, ?_, ?_, ?_, ?_, ?_, ?_, ?_, ?_, ?_⟩
  · rw [halt, hat']
    exact sectorValid_of_valid hat' hvalid' hsize' hmy'
  · rw [hstride]
  · omega
  · rw [hlba, hn, hstride, hfirst]
    omega
  · rw [hfirst, hlast]
    omega
  · rw [hlast, hn, hstride, halt]
    omega
  · rw [halt, hdisk]
  · rw [harray, hcrc]
  · rintro i ⟨hi, hguid⟩
    obtain rfl : i = 0 := by omega
    rw [typeGuid, harray, hstride] at hguid
    rw [startingLba, endingLba, harray, hstride, hfirst, hlast]
    exact hentry hguid

end Kot.Storage
