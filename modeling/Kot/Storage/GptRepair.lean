import Kot.Storage.Gpt

/-! What `load_gpt_header` and `check_partitions` make of a disk with one good copy. -/
namespace Kot.Storage

open Kot.Kernel Kot.Lib List

variable {d : Disk} {s : DevicePartitions} {start n p b : ℕ} {h : Header}

theorem Disk.read_inside {buffer : List UInt8} (hin : start + buffer.length ≤ d.size) :
    d.read start buffer = readAt d.bytes start buffer.length := by
  simp only [read]
  rw [Nat.min_eq_left (by omega), drop_length, append_nil]

theorem Disk.read_fresh {stale : ℕ → UInt8} (hin : start + n ≤ d.size) :
    d.read start (freshBytes stale n) = readAt d.bytes start n := by
  rw [read_inside (by rwa [freshBytes_length]), freshBytes_length]

theorem Disk.write_inside {buffer : List UInt8} (hin : start + buffer.length ≤ d.size) :
    (d.write start buffer).bytes = writeAt d.bytes start buffer := by
  simp only [write]
  rw [take_of_length_le (by omega)]

def Disk.headerAt (d : Disk) (lba : ℕ) : Header := ⟨readAt d.bytes (lba * 512) 92, readAt_length ..⟩

theorem lbaToBytes_of_lt (hin : p * 512 < 2 ^ 64) : lbaToBytes p = p * 512 := by
  unfold lbaToBytes
  omega

theorem Disk.readHeader_inside (block : Header) (hin : p * 512 + 92 ≤ d.size) :
    d.readHeader (lbaToBytes p) block = d.headerAt p := by
  have hlt := d.size_lt
  simp only [readHeader, headerAt, Header.mk.injEq]
  rw [lbaToBytes_of_lt (by omega), read_inside (by rw [block.length_eq]; exact hin), block.length_eq]

theorem Disk.headerAt_write (r : Header) (hin : p * 512 + 92 ≤ d.size) :
    (d.write (lbaToBytes p) r.bytes).headerAt p = r := by
  have hlt := d.size_lt
  have hbytes : (d.write (lbaToBytes p) r.bytes).bytes = writeAt d.bytes (p * 512) r.bytes := by
    rw [lbaToBytes_of_lt (by omega), write_inside (by rw [r.length_eq]; exact hin)]
  cases r with
  | mk bytes length_eq =>
    simp only [headerAt, Header.mk.injEq]
    rw [hbytes]
    exact readAt_writeAt_eq length_eq

theorem Header.field_set_of_disjoint {offset width offset' width' value : ℕ}
    (hfit : offset + width ≤ 92) (hdisj : offset' + width' ≤ offset ∨ offset + width ≤ offset') :
    (h.set offset width value hfit).field offset' width' = h.field offset' width' := by
  unfold field
  congr 1
  apply ext_getElem?
  intro i
  have hlen := h.length_eq
  simp only [getElem?_take, getElem?_drop, set]
  rw [getElem?_splice (by rw [toLe_length]; omega), toLe_length]
  split_ifs with hi hcov
  · omega
  · rfl
  · rfl

theorem Header.field_set_self {offset width value : ℕ} (hfit : offset + width ≤ 92) :
    (h.set offset width value hfit).field offset width = value % 256 ^ width := by
  have hlen := h.length_eq
  unfold field set
  rw [take_drop_splice (by omega) (toLe_length ..), fromLe_toLe]

theorem Header.alternateLba_lt (h : Header) : h.alternateLba < 2 ^ 64 := by
  have hlen := h.length_eq
  have := fromLe_lt ((h.bytes.drop 32).take 8)
  rw [length_take, length_drop, hlen] at this
  exact this

theorem Header.myLba_sign_setMyLba (h : Header) {v : ℕ} (hv : v < 2 ^ 64) :
    (h.setMyLba v).sign.myLba = v := by
  unfold sign setHeaderCrc32 myLba
  rw [field_set_of_disjoint _ (by omega), setMyLba, field_set_self]
  exact Nat.mod_eq_of_lt hv

def Header.Valid (h : Header) : Prop := checkGptHeader h = .ok

/-- Two headers that are the copies of one table. -/
structure Mirrored (p b : ℕ) (primary backup : Header) : Prop where
  primary_valid : primary.Valid
  backup_valid : backup.Valid
  primary_myLba : primary.myLba = p
  primary_alternateLba : primary.alternateLba = b
  backup_myLba : backup.myLba = b
  backup_alternateLba : backup.alternateLba = p
  diskGuid : primary.diskGuid = backup.diskGuid
  usable : primary.firstUsableLba = backup.firstUsableLba ∧
    primary.lastUsableLba = backup.lastUsableLba
  /-- each has an array of its own -/
  arrays : lbaToBytes primary.partitionEntryLba + sizeOfPartitionList primary ≤
      lbaToBytes backup.partitionEntryLba ∨
    lbaToBytes backup.partitionEntryLba + sizeOfPartitionList backup ≤
      lbaToBytes primary.partitionEntryLba

/-- The call succeeds, keeps the good copies and leaves two of them. -/
def HeadersRepaired (b : ℕ) (s : DevicePartitions) (r : Except Fault (Status × DevicePartitions)) :
    Prop :=
  ∃ t, r = .ok (.ok, t) ∧
    ((s.device.headerAt s.startingLba.toNat).Valid →
      t.device.headerAt s.startingLba.toNat = s.device.headerAt s.startingLba.toNat) ∧
    ((s.device.headerAt b).Valid → t.device.headerAt b = s.device.headerAt b) ∧
    Mirrored s.startingLba.toNat b (t.device.headerAt s.startingLba.toNat) (t.device.headerAt b)

theorem not_valid : ¬ h.Valid ↔ checkGptHeader h = .einval := by
  unfold Header.Valid
  cases checkGptHeader h <;> simp

theorem headersRepaired_iff (hs : s.gptHeader = none)
    (hp : s.startingLba.toNat * 512 + 92 ≤ s.device.size) (hb : b * 512 + 92 ≤ s.device.size)
    {stale stale' : ℕ → UInt8} :
    HeadersRepaired b s (loadGptHeader stale stale' s) ↔
      Mirrored s.startingLba.toNat b (s.device.headerAt s.startingLba.toNat) (s.device.headerAt b) := by
  constructor
  · rintro ⟨t, ht, hprimary, _, hmirrored⟩
    simp only [loadGptHeader, Disk.readHeader_inside _ hp] at ht
    split_ifs at ht with hnull hmy
    · cases ht
    split at ht
    · cases ht
    · cases ht
    · -- the copy written over the primary header names itself as the backup
      rename_i hvalid hbad
      obtain rfl := (Prod.mk.inj (Except.ok.inj ht)).2
      have hself := congrArg Header.myLba ((Disk.headerAt_write _ hp).symm.trans (hprimary hvalid))
      rw [Header.myLba_sign_setMyLba _ (Header.alternateLba_lt _), not_not.mp hmy] at hself
      rw [hself, Disk.readHeader_inside _ hp] at hbad
      exact absurd hvalid (not_valid.mpr hbad)
    · obtain rfl := (Prod.mk.inj (Except.ok.inj ht)).2
      exact hmirrored
  · intro hm
    refine ⟨{ s with gptHeader := some (s.device.headerAt s.startingLba.toNat)
                     isGptHeaderLoaded := true }, ?_, fun _ => rfl, fun _ => rfl, hm⟩
    have h1 : checkGptHeader (s.device.headerAt s.startingLba.toNat) = .ok := hm.primary_valid
    have h2 : checkGptHeader (s.device.headerAt b) = .ok := hm.backup_valid
    simp only [loadGptHeader, hs, Option.isSome_none, Bool.false_eq_true, if_false,
      Disk.readHeader_inside _ hp, hm.primary_myLba, ne_eq, not_true_eq_false,
      hm.primary_alternateLba, Disk.readHeader_inside _ hb, h1, h2]

/-- The array at a position has the checksum that the header gives. -/
def ArrayValid (h : Header) (d : Disk) (position : ℕ) : Prop :=
  h.partitionEntryArrayCrc32 =
    (partitionCrc32 0 (readAt d.bytes position (sizeOfPartitionList h))).toNat

/-- Two arrays on the disk that do not overlap. -/
structure ArraysApart (h : Header) (d : Disk) : Prop where
  primary : lbaToBytes h.partitionEntryLba + sizeOfPartitionList h ≤ d.size
  recovery : recoveryLocation h + sizeOfPartitionList h ≤ d.size
  apart : lbaToBytes h.partitionEntryLba + sizeOfPartitionList h ≤ recoveryLocation h ∨
    recoveryLocation h + sizeOfPartitionList h ≤ lbaToBytes h.partitionEntryLba

/-- The call succeeds, keeps the good arrays and leaves two of them. -/
def ArraysRepaired (h : Header) (s : DevicePartitions)
    (r : Except Fault (Status × DevicePartitions)) : Prop :=
  ∃ t, r = .ok (.ok, t) ∧
    (∀ a ∈ [lbaToBytes h.partitionEntryLba, recoveryLocation h],
      (ArrayValid h s.device a → readAt t.device.bytes a (sizeOfPartitionList h) =
        readAt s.device.bytes a (sizeOfPartitionList h)) ∧ ArrayValid h t.device a) ∧
    t.gptPartitionEntries =
      some (readAt t.device.bytes (lbaToBytes h.partitionEntryLba) (sizeOfPartitionList h))

theorem checkPartitions_loadEntries {stale stale' : ℕ → UInt8} (hd : ArraysApart h s.device)
    (hvalid : ArrayValid h s.device (lbaToBytes h.partitionEntryLba) ∨
      ArrayValid h s.device (recoveryLocation h)) :
    ArraysRepaired h s (checkPartitions stale' (loadEntries stale h s)) := by
  obtain ⟨hp, hc, hapart⟩ := hd
  unfold ArraysRepaired checkPartitions loadEntries
  simp only [Disk.read_fresh hp, Disk.read_fresh hc, readAt_length, ne_eq, not_true_eq_false, if_false]
  unfold ArrayValid at hvalid ⊢
  set P := lbaToBytes h.partitionEntryLba
  set C := recoveryLocation h
  set k := sizeOfPartitionList h
  have hwrite : ∀ a b : ℕ, a + k ≤ s.device.size → (a + k ≤ b ∨ b + k ≤ a) →
      readAt (s.device.write a (readAt s.device.bytes b k)).bytes a k = readAt s.device.bytes b k ∧
      readAt (s.device.write a (readAt s.device.bytes b k)).bytes b k = readAt s.device.bytes b k := by
    intro a b ha hab
    rw [Disk.write_inside (by rwa [readAt_length])]
    exact ⟨readAt_writeAt_eq (readAt_length ..),
      readAt_writeAt_of_disjoint (by rw [readAt_length]; omega)⟩
  by_cases h1 : h.partitionEntryArrayCrc32 = (partitionCrc32 0 (readAt s.device.bytes P k)).toNat
  · by_cases h2 : h.partitionEntryArrayCrc32 = (partitionCrc32 0 (readAt s.device.bytes C k)).toNat
    · rw [if_pos h1, if_pos h2]
      exact ⟨_, rfl, by simp [h1.symm, h2.symm], rfl⟩
    · rw [if_pos h1, if_neg h2]
      obtain ⟨hC, hP⟩ := hwrite C P hc hapart.symm
      refine ⟨_, rfl, ?_, by rw [hP]⟩
      simp [hC, hP, h1.symm, h2]
  · have h2 := hvalid.resolve_left h1
    rw [if_neg h1, if_pos h2]
    obtain ⟨hP, hC⟩ := hwrite P C hp hapart
    refine ⟨_, rfl, ?_, ?_⟩
    · simp [hC, hP, h1, h2.symm]
    · rw [Disk.read_inside (by rw [readAt_length]; exact hp), readAt_length]

/-- A header with four entries on a disk of 128 sectors. -/
def sampleHeader (my alternate entry : ℕ) : Header :=
  let h : Header := ⟨List.replicate 92 0, rfl⟩
  let h := h.set 0 8 gptSignature (by decide)
  let h := h.set 32 8 alternate (by decide)
  let h := h.set 80 4 4 (by decide)
  ((h.setMyLba my).setPartitionEntryLba entry).sign

/-- A disk that holds the primary header and, as it may be, a backup. -/
def sampleDisk (backup : List UInt8) : DevicePartitions where
  device := ⟨writeAt (writeAt (fun _ => 0) 512 (sampleHeader 1 127 2).bytes) (127 * 512) backup,
    128 * 512, by decide⟩
  startingLba := 1
  isGptHeaderLoaded := false
  gptHeader := none
  gptPartitionEntries := none

/-- A header of a table with one entry, whose array lies inside the disk of 128 sectors below. -/
def tableHeader (entry : List UInt8) (my alternate entryLba : ℕ) : Header :=
  let h : Header := ⟨List.replicate 92 0, rfl⟩
  let h := h.set 0 8 gptSignature (by decide)
  let h := h.set 12 4 92 (by decide)
  let h := h.set 32 8 alternate (by decide)
  let h := h.set 40 8 3 (by decide)
  let h := h.set 48 8 125 (by decide)
  let h := h.set 80 4 1 (by decide)
  let h := h.set 84 4 128 (by decide)
  let h := h.set 88 4 (partitionCrc32 0 entry).toNat (by decide)
  ((h.setMyLba my).setPartitionEntryLba entryLba).sign

def tableDisk (entry : List UInt8) : DevicePartitions where
  device := ⟨writeAt (writeAt (writeAt (fun _ => 0) 512 (tableHeader entry 1 127 2).bytes)
    (127 * 512) (tableHeader entry 127 1 126).bytes) 1024 entry, 128 * 512, by decide⟩
  startingLba := 1
  isGptHeaderLoaded := false
  gptHeader := none
  gptPartitionEntries := none

end Kot.Storage
