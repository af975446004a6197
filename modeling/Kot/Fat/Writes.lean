import Kot.Fat.Steps

/-! Where the driver writes: the cells of the table copies, the FSInfo sector and the data area
of a volume whose boot sector fits its partition. -/
namespace Kot.Fat

open Kot.Kernel Kot.Lib Kot.Lib.Program

/-- `total_sector` of `fat_mount`. -/
@[irreducible] def Bpb.totalSectors (bpb : Bpb) : ℕ :=
  if bpb.totalSectors16 ≠ 0 then bpb.totalSectors16.toNat else bpb.totalSectors32.toNat

theorem Bpb.totalSectors_lt (bpb : Bpb) : bpb.totalSectors < 2 ^ 32 := by
  have hset := bpb.totalSectors16.toNat_lt
  have hinfo := bpb.totalSectors32.toNat_lt
  unfold totalSectors
  split_ifs <;> omega

/-- The first sector behind the copies of the table. -/
@[irreducible] def Bpb.dataSector (bpb : Bpb) : ℕ :=
  bpb.reservedSectors.toNat + bpb.fats.toNat * bpb.sectorsPerFat.toNat

/-- The sizes in the boot sector fit each other and the partition. -/
structure Context.Consistent (ctx : Context) : Prop where
  fats_pos : 1 ≤ ctx.bpb.fats.toNat
  table_pos : 1 ≤ ctx.bpb.sectorsPerFat.toNat
  data_pos : ctx.bpb.dataSector < ctx.bpb.totalSectors
  sectors_le : ctx.bpb.totalSectors * 512 ≤ ctx.partition.size
  fsInfo_lt : ctx.bpb.sectorNumberFsInfo.toNat < ctx.bpb.totalSectors

variable {ctx : Context} {v v' : Volume}

theorem Partition.access_of_inside {P : Partition} {start size : ℕ} (h : start + size ≤ P.size) :
    P.access start size = some ⟨P.start + start, size⟩ := by
  have hfits := P.fits
  rw [Partition.access, wadd_of_lt hfits, wadd_of_lt (by omega), wadd_of_lt (by omega),
    if_neg (by omega), Nat.add_comm start]

theorem writePartition_inside {start : ℕ} {bytes : List UInt8}
    (h : start + bytes.length ≤ ctx.partition.size) : writePartition ctx start bytes v =
      .ok (none, { v with disk := writeAt v.disk (ctx.partition.start + start) bytes }) := by
  rw [writePartition, Partition.access_of_inside h]
  rfl

theorem writeAccess_cases {bytes : List UInt8} {a : Option Access} {r : Option Errno}
    (h : writeAccess bytes a v = .ok (r, v')) :
    v' = v ∨ ∃ acc, a = some acc ∧ v' = { v with disk := writeAt v.disk acc.start bytes } := by
  cases a with
  | none => cases h; exact .inl rfl
  | some acc => cases h; exact .inr ⟨acc, rfl, rfl⟩

/-- An offset behind the start of the data area is an address behind it, or the sum wraps to an
address far below the partition. -/
theorem address_region {P : Partition} {offset first n : ℕ} (h : first ≤ offset)
    (ho : offset < 2 ^ 43) (hn : n < 2 ^ 17) :
    P.start + first ≤ (P.start + offset) % 2 ^ 64 ∨ (P.start + offset) % 2 ^ 64 + n ≤ P.start := by
  omega

namespace Context.Consistent

variable (hc : ctx.Consistent)

include hc

theorem firstUsableLba_eq : ctx.firstUsableLba = ctx.bpb.dataSector := by
  have h := hc.data_pos.trans ctx.bpb.totalSectors_lt
  rw [Bpb.dataSector] at h ⊢
  rw [firstUsableLba, Nat.mod_eq_of_lt h]

theorem dataSector_le : (ctx.bpb.dataSector + 1) * 512 ≤ ctx.partition.size :=
  (Nat.mul_le_mul_right 512 hc.data_pos).trans hc.sectors_le

theorem le_clusterPosition (c : ℕ) : ctx.bpb.dataSector * 512 ≤ ctx.clusterPosition c := by
  rw [ctx.clusterPosition_eq, ctx.clusterToLba_eq, hc.firstUsableLba_eq]
  omega

theorem table_le : ctx.fat1Position + ctx.fatSize ≤ ctx.bpb.dataSector * 512 := by
  have h : ctx.bpb.sectorsPerFat.toNat ≤ ctx.bpb.fats.toNat * ctx.bpb.sectorsPerFat.toNat :=
    Nat.le_mul_of_pos_left _ hc.fats_pos
  rw [ctx.fat1Position_eq, ctx.fatSize_eq, Bpb.dataSector]
  omega

theorem fatSize_pos : 512 ≤ ctx.fatSize := by
  have := hc.table_pos
  rw [ctx.fatSize_eq]
  omega

theorem fsInfo_le : (ctx.bpb.sectorNumberFsInfo.toNat + 1) * 512 ≤ ctx.partition.size :=
  (Nat.mul_le_mul_right 512 hc.fsInfo_lt).trans hc.sectors_le

/-- The writes of `fat_write_cluster` and of entries stay out of everything in front of the data
area. -/
theorem clusterAccess_region {c al n : ℕ} {a : Access} (hal : al ≤ ctx.clusterSize)
    (hn : n ≤ ctx.clusterSize) (h : ctx.clusterAccess c al n = some a) :
    ctx.partition.start + ctx.bpb.dataSector * 512 ≤ a.start ∨ a.start + n ≤ ctx.partition.start := by
  have hcs := clusterSize_lt ctx
  have hpos := ctx.clusterPosition_lt c
  have hle := hc.le_clusterPosition c
  unfold clusterAccess at h
  simp only at h
  split_ifs at h
  cases h
  simp only [wadd, Nat.mod_add_mod, Nat.add_assoc]
  exact address_region (by omega) (by omega) (by omega)

theorem entryAccess_region {c i n : ℕ} {a : Access} (hi : i < ctx.entriesPerCluster) (hn : n ≤ 32)
    (h : ctx.partition.access (ctx.clusterPosition c + i * 32) n = some a) :
    ctx.partition.start + ctx.bpb.dataSector * 512 ≤ a.start ∨ a.start + n ≤ ctx.partition.start := by
  have hcs := clusterSize_lt ctx
  have hpos := ctx.clusterPosition_lt c
  have hle := hc.le_clusterPosition c
  have hep := ctx.entriesPerCluster_le
  unfold Partition.access at h
  split_ifs at h
  cases h
  simp only [wadd, Nat.add_comm _ ctx.partition.start]
  exact address_region (by omega) (by omega) (by omega)

omit hc in
theorem setNextCluster_eq {c n : ℕ} (h : c < ctx.fatEntryCount)
    (h2 : ctx.fat2Position + c * 4 + 4 ≤ ctx.partition.size) :
    fatSetNextCluster ctx c n v = .ok ((), { v with
      fat := Function.update v.fat c (linkedEntry (v.fat c) n)
      disk := writeAt (writeAt v.disk (ctx.partition.start + (ctx.fat1Position + c * 4))
          (toLe 4 (linkedEntry (v.fat c) n)))
        (ctx.partition.start + (ctx.fat2Position + c * 4)) (toLe 4 (linkedEntry (v.fat c) n)) }) := by
  have h1 : ctx.fat1Position + c * 4 + 4 ≤ ctx.partition.size := by
    rw [ctx.fat2Position_eq] at h2
    omega
  rw [fatSetNextCluster, bind_of_ok get_eq_ok]
  have hstore : fatStoreEntry ctx c (linkedEntry (v.fat c) n) v =
      .ok ((), { v with fat := Function.update v.fat c (linkedEntry (v.fat c) n) }) := by
    rw [fatStoreEntry, if_pos h]
  rw [bind_of_ok hstore]
  rw [bind_of_ok (writePartition_inside (by rw [toLe_length]; exact h1))]
  rw [bind_of_ok (writePartition_inside (by rw [toLe_length]; exact h2))]
  rfl

theorem writeFsInfoSector_eq (hfsi : ctx.fsi.length = 512) :
    fatWriteFsInfoSector ctx v = .ok (none, { v with
      disk := writeAt v.disk (ctx.partition.start + ctx.bpb.sectorNumberFsInfo.toNat * 512)
        (ctx.fsInfoSector v.freeClusterCount) }) := by
  have hlt := ctx.bpb.sectorNumberFsInfo.toNat_lt
  have hlba : lbaToBytes ctx.bpb.sectorNumberFsInfo.toNat =
      ctx.bpb.sectorNumberFsInfo.toNat * 512 := Nat.mod_eq_of_lt (by omega)
  have hlen : (ctx.fsInfoSector v.freeClusterCount).length = 512 := by
    rw [fsInfoSector, splice_length (by rw [toLe_length, hfsi]; omega), hfsi]
  rw [fatWriteFsInfoSector, bind_of_ok get_eq_ok, hlba]
  exact writePartition_inside (by rw [hlen, ← Nat.succ_mul]; exact hc.fsInfo_le)

end Context.Consistent

theorem freeCluster_cases {c : ℕ} (h : fatFreeCluster ctx c v = .ok ((), v')) :
    ∃ v1 err, fatSetNextCluster ctx c 0 v = .ok ((), v1) ∧ fatWriteFsInfoSector ctx { v1 with
        freeClusterCount := (v1.freeClusterCount + 1) % 2 ^ 32
        nextFreeCluster := v1.nextFreeCluster } = .ok (err, v') := by
  obtain ⟨_, v1, hset, h⟩ := bind_eq_ok.mp h
  obtain ⟨_, v2, hinfo, h⟩ := bind_eq_ok.mp h
  obtain ⟨err, v3, h3, h4⟩ := bind_eq_ok.mp h
  cases hinfo
  cases h4
  exact ⟨v1, err, hset, h3⟩

/-- An allocation finds no free entry, or ends a chain at the one it finds, counts it and writes
FSInfo. -/
theorem allocateCluster_cases {r : Option ℕ} (h : fatAllocateCluster ctx v = .ok (r, v')) :
    (v.firstFree ctx.fatEntryCount = none ∧ r = none ∧ v' = v) ∨
    ∃ i v1 err, v.firstFree ctx.fatEntryCount = some i ∧ r = some (i % 2 ^ 32) ∧
      fatSetNextCluster ctx (i % 2 ^ 32) endOfClusterchain v = .ok ((), v1) ∧
      fatWriteFsInfoSector ctx { v1 with
        freeClusterCount := (v1.freeClusterCount + 2 ^ 32 - 1) % 2 ^ 32
        nextFreeCluster := i } = .ok (err, v') := by
  obtain ⟨w, v0, h0, h⟩ := bind_eq_ok.mp h
  cases h0
  cases hfree : v.firstFree ctx.fatEntryCount with
  | none =>
    rw [hfree] at h
    cases h
    exact .inl ⟨rfl, rfl, rfl⟩
  | some i =>
    rw [hfree] at h
    obtain ⟨_, v1, hset, h⟩ := bind_eq_ok.mp h
    obtain ⟨_, v2, hinfo, h⟩ := bind_eq_ok.mp h
    obtain ⟨err, v3, h3, h4⟩ := bind_eq_ok.mp h
    cases hinfo
    cases h4
    exact .inr ⟨i, v1, err, rfl, rfl, hset, h3⟩

theorem setNextCluster_error {c n : ℕ} (h : ¬ c < ctx.fatEntryCount) :
    fatSetNextCluster ctx c n v = .error .strayAccess := by
  rw [fatSetNextCluster, bind_of_ok get_eq_ok]
  apply bind_of_error
  rw [fatStoreEntry, if_neg h]

theorem setNextCluster_lt {c n : ℕ} (h : fatSetNextCluster ctx c n v = .ok ((), v')) :
    c < ctx.fatEntryCount := by
  by_contra hc
  rw [setNextCluster_error hc] at h
  cases h

def Context.cell (ctx : Context) (copy i : ℕ) : ℕ :=
  ctx.partition.start + (ctx.fat1Position + copy * ctx.fatSize + i * 4)

/-- An update of the table and of FSInfo. -/
def Metadata (ctx : Context) (v v' : Volume) : Prop :=
  (∃ r, fatAllocateCluster ctx v = .ok (r, v')) ∨ (∃ c, fatFreeCluster ctx c v = .ok ((), v')) ∨
    ∃ c n, fatSetNextCluster ctx c n v = .ok ((), v')

/-- The boot sector and the data area are as before. -/
def Spares (ctx : Context) (v v' : Volume) : Prop :=
  ∀ x, (ctx.partition.start ≤ x ∧ x < ctx.partition.start + 512) ∨
    (ctx.partition.start + ctx.bpb.dataSector * 512 ≤ x ∧
      x < ctx.partition.start + ctx.partition.size) → v'.disk x = v.disk x

theorem Spares.trans {v1 v2 v3 : Volume} (hset : Spares ctx v1 v2) (hinfo : Spares ctx v2 v3) :
    Spares ctx v1 v3 := fun x hx => (hinfo x hx).trans (hset x hx)

/-- The FSInfo sector and two copies of the table lie between the boot sector and the data area. -/
structure Apart (ctx : Context) : Prop where
  consistent : ctx.Consistent
  fsi_length : ctx.fsi.length = 512
  fats_ge : 2 ≤ ctx.bpb.fats.toNat
  fsInfo_pos : 1 ≤ ctx.bpb.sectorNumberFsInfo.toNat
  fsInfo_lt : ctx.bpb.sectorNumberFsInfo.toNat < ctx.bpb.reservedSectors.toNat

namespace Apart

variable (h2 : Apart ctx)

include h2

theorem data_ge : ctx.fat1Position + 2 * ctx.fatSize ≤ ctx.bpb.dataSector * 512 := by
  have h : 2 * ctx.bpb.sectorsPerFat.toNat ≤ ctx.bpb.fats.toNat * ctx.bpb.sectorsPerFat.toNat :=
    Nat.mul_le_mul_right _ h2.fats_ge
  rw [ctx.fat1Position_eq, ctx.fatSize_eq, Bpb.dataSector]
  omega

omit h2 in
theorem fsInfoSector_length (hfsi : ctx.fsi.length = 512) (n : ℕ) :
    (ctx.fsInfoSector n).length = 512 := by
  rw [Context.fsInfoSector, splice_length (by rw [toLe_length, hfsi]; omega), hfsi]

theorem fsInfo_le (n : ℕ) : ctx.bpb.sectorNumberFsInfo.toNat * 512 + (ctx.fsInfoSector n).length ≤
    ctx.fat1Position := by
  rw [fsInfoSector_length h2.fsi_length, ← Nat.succ_mul, ctx.fat1Position_eq]
  exact Nat.mul_le_mul_right 512 h2.fsInfo_lt

theorem setNextCluster_eq {c n : ℕ} (h : c < ctx.fatEntryCount) :
    fatSetNextCluster ctx c n v = .ok ((), { v with
      fat := Function.update v.fat c (linkedEntry (v.fat c) n)
      disk := writeAt (writeAt v.disk (ctx.cell 0 c) (toLe 4 (linkedEntry (v.fat c) n)))
        (ctx.cell 1 c) (toLe 4 (linkedEntry (v.fat c) n)) }) := by
  have hle := h2.data_ge.trans
    ((Nat.mul_le_mul_right 512 (Nat.le_succ _)).trans h2.consistent.dataSector_le)
  have hsize : 4 * c + 4 ≤ ctx.fatSize := by
    unfold Context.fatEntryCount at h
    omega
  rw [Context.Consistent.setNextCluster_eq h (by rw [ctx.fat2Position_eq]; omega), ctx.fat2Position_eq]
  simp only [Context.cell, Nat.zero_mul, Nat.one_mul, Nat.add_zero]

theorem spared_cases {x : ℕ} (hx : (ctx.partition.start ≤ x ∧ x < ctx.partition.start + 512) ∨
    (ctx.partition.start + ctx.bpb.dataSector * 512 ≤ x ∧
      x < ctx.partition.start + ctx.partition.size)) :
    x < ctx.partition.start + ctx.bpb.sectorNumberFsInfo.toNat * 512 ∨
      ctx.partition.start + (ctx.fat1Position + 2 * ctx.fatSize) ≤ x := by
  have h512 := Nat.mul_le_mul_right 512 h2.fsInfo_pos
  rcases hx with hx | hx
  · left
    exact lt_of_lt_of_le hx.2 (Nat.add_le_add_left (by simpa using h512) _)
  · right
    exact (Nat.add_le_add_left h2.data_ge _).trans hx.1

theorem setNextCluster_spares {c n : ℕ} (h : fatSetNextCluster ctx c n v = .ok ((), v')) :
    Spares ctx v v' := by
  have hlt := setNextCluster_lt h
  rw [h2.setNextCluster_eq hlt] at h
  cases h
  intro x hx
  have hfs := h2.fsInfo_le 0
  have hcases := h2.spared_cases hx
  have hout : ∀ k < 2, x < ctx.cell k c ∨ ctx.cell k c + 4 ≤ x := by
    intro k hk
    unfold Context.fatEntryCount at hlt
    have hk : k = 0 ∨ k = 1 := by omega
    rcases hk with rfl | rfl <;> unfold Context.cell <;> omega
  simp only
  rw [writeAt_outside (by rw [toLe_length]; exact hout 1 (by omega)),
    writeAt_outside (by rw [toLe_length]; exact hout 0 (by omega))]

theorem writeFsInfoSector_spares {r : Option Errno}
    (h : fatWriteFsInfoSector ctx v = .ok (r, v')) : Spares ctx v v' := by
  rw [h2.consistent.writeFsInfoSector_eq h2.fsi_length] at h
  cases h
  intro x hx
  have hle := h2.fsInfo_le v.freeClusterCount
  have hcases := h2.spared_cases hx
  exact writeAt_outside (by omega)

theorem updates_spare {r : Option Errno} {v1 : Volume} {c n count hint : ℕ}
    (hset : fatSetNextCluster ctx c n v = .ok ((), v1))
    (hinfo : fatWriteFsInfoSector ctx
      { v1 with freeClusterCount := count, nextFreeCluster := hint } = .ok (r, v')) :
    Spares ctx v v' := by
  have hfs := h2.writeFsInfoSector_spares hinfo
  exact (h2.setNextCluster_spares hset).trans hfs

theorem metadata_spares (h : Metadata ctx v v') : Spares ctx v v' := by
  rcases h with ⟨r, h⟩ | ⟨c, h⟩ | ⟨c, n, h⟩
  · rcases allocateCluster_cases h with ⟨_, _, rfl⟩ | ⟨i, v1, err, _, _, hset, hinfo⟩
    · exact fun _ _ => rfl
    · exact h2.updates_spare hset hinfo
  · obtain ⟨v1, err, hset, hinfo⟩ := freeCluster_cases h
    exact h2.updates_spare hset hinfo
  · exact h2.setNextCluster_spares h

end Apart

end Kot.Fat
