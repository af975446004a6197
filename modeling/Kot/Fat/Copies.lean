import Kot.Fat.Writes

/-! The copies of the table on a mounted volume: when the table in memory equals every copy after
every call, and when no update of the table or of FSInfo reaches the boot sector or the data area. -/
namespace Kot.Fat

open Kot.Kernel Kot.Lib Kot.Lib.Program Function Context

def Volume.copyEntry (v : Volume) (ctx : Context) (copy i : ℕ) : ℕ :=
  fromLe (readAt v.disk (ctx.cell copy i) 4)

/-- The table in memory equals every copy entry by entry. -/
def Synced (ctx : Context) (v : Volume) : Prop :=
  ∀ copy < ctx.bpb.fats.toNat, ∀ i < ctx.fatEntryCount, v.copyEntry ctx copy i = v.fat i

/-- A mounted volume whose boot sector fits its partition. -/
structure Mounted where
  partition : Partition
  disk : ℕ → UInt8
  ctx : Context
  volume : Volume
  mounted : fatMount partition disk = .ok (some (ctx, volume))
  consistent : ctx.Consistent

/-- There are two copies, they agree, and FSInfo is a reserved sector but not the boot sector. -/
structure Mounted.Mirrored (m : Mounted) : Prop where
  fats_eq : m.ctx.bpb.fats.toNat = 2
  agree : ∀ i < m.ctx.fatEntryCount, m.volume.copyEntry m.ctx 0 i = m.volume.copyEntry m.ctx 1 i
  fsInfo_pos : 1 ≤ m.ctx.bpb.sectorNumberFsInfo.toNat
  fsInfo_lt : m.ctx.bpb.sectorNumberFsInfo.toNat < m.ctx.bpb.reservedSectors.toNat

theorem assertSome_eq_ok {α : Type} {o : Option α} {a : α} (h : assertSome o = .ok a) :
    o = some a := by
  cases o with
  | none => cases h
  | some b => cases h; rfl

theorem readPartition_inside {P : Partition} {disk : ℕ → UInt8} {start size : ℕ}
    (h : start + size ≤ P.size) :
    readPartition P disk start size = some (readAt disk (P.start + start) size) := by
  rw [readPartition, Partition.access_of_inside h]
  rfl

theorem lbaToBytes_fsInfo {ctx : Context} :
    lbaToBytes ctx.bpb.sectorNumberFsInfo.toNat = ctx.bpb.sectorNumberFsInfo.toNat * 512 := by
  have := ctx.bpb.sectorNumberFsInfo.toNat_lt
  exact Nat.mod_eq_of_lt (by omega)

theorem numberAt_readAt {disk : ℕ → UInt8} {a n offset size : ℕ} (h : offset + size ≤ n) :
    numberAt (readAt disk a n) offset size = fromLe (readAt disk (a + offset) size) := by
  rw [numberAt, readAt_drop, readAt_take, Nat.min_eq_left (by omega)]

theorem fatMount_eq_ok {P : Partition} {disk : ℕ → UInt8} {ctx : Context} {v : Volume}
    (h : fatMount P disk = .ok (some (ctx, v))) : ctx.partition = P ∧ ∃ table,
      readPartition P disk (lbaToBytes ctx.bpb.sectorNumberFsInfo.toNat) 512 = some ctx.fsi ∧
      readPartition P disk ctx.fat1Position ctx.fatSize = some table ∧
      v = { disk, fat := fun i => numberAt table (4 * i) 4
            freeClusterCount := numberAt ctx.fsi 488 4
            nextFreeCluster := startHint ctx.bpb ctx.fsi, buffer := [] } := by
  obtain ⟨boot, _, h⟩ := Kernel.bind_eq_ok h
  by_cases hid : (bpbOf boot).identifier ≠ fat32Signature
  · rw [if_pos hid] at h
    cases h
  rw [if_neg hid] at h
  obtain ⟨fsi, hfsi, h⟩ := Kernel.bind_eq_ok h
  by_cases hsigned : ¬ FsInfoSigned fsi
  · rw [if_pos hsigned] at h
    cases h
  rw [if_neg hsigned] at h
  obtain ⟨table, htable, h⟩ := Kernel.bind_eq_ok h
  cases h
  exact ⟨rfl, table, assertSome_eq_ok hfsi, assertSome_eq_ok htable, rfl⟩

namespace Mounted

variable (m : Mounted)

theorem fsi_eq : m.ctx.fsi = readAt m.volume.disk
    (m.ctx.partition.start + m.ctx.bpb.sectorNumberFsInfo.toNat * 512) 512 := by
  obtain ⟨hp, table, hfsi, _, hv⟩ := fatMount_eq_ok m.mounted
  have hle := m.consistent.fsInfo_le
  rw [lbaToBytes_fsInfo, ← hp,
    readPartition_inside (by rw [← Nat.succ_mul]; exact hle)] at hfsi
  rw [hv]
  exact (Option.some.inj hfsi).symm

theorem fsi_length : m.ctx.fsi.length = 512 := by
  rw [fsi_eq, readAt_length]

theorem fat_eq {i : ℕ} (hi : i < m.ctx.fatEntryCount) :
    m.volume.fat i = m.volume.copyEntry m.ctx 0 i := by
  obtain ⟨hp, table, _, htable, hv⟩ := fatMount_eq_ok m.mounted
  have hle := m.consistent.table_le.trans
    ((Nat.mul_le_mul_right 512 (Nat.le_succ _)).trans m.consistent.dataSector_le)
  rw [← hp, readPartition_inside hle] at htable
  cases htable
  have hsize : 4 * i + 4 ≤ m.ctx.fatSize := by
    unfold fatEntryCount at hi
    omega
  rw [hv]
  simp only [numberAt_readAt hsize, Volume.copyEntry, cell]
  congr 2
  omega

theorem freeClusterCount_eq : m.volume.freeClusterCount = numberAt m.ctx.fsi 488 4 := by
  obtain ⟨_, _, _, _, hv⟩ := fatMount_eq_ok m.mounted
  rw [hv]

end Mounted

/-! Two copies and a FSInfo sector of its own keep everything in step. -/

section

variable {ctx : Context} {v v' : Volume}

theorem linkedEntry_lt {entry n : ℕ} (h : entry < 2 ^ 32) : linkedEntry entry n < 2 ^ 32 := by
  unfold linkedEntry
  omega

theorem copyEntry_lt {copy i : ℕ} : v.copyEntry ctx copy i < 2 ^ 32 := by
  have := fromLe_lt (readAt v.disk (ctx.cell copy i) 4)
  rw [readAt_length] at this
  exact this

/-- A volume of which everything but the FSInfo sector and two copies of the table is data. -/
structure TwoCopies (ctx : Context) : Prop extends Apart ctx where
  fats_eq : ctx.bpb.fats.toNat = 2

namespace TwoCopies

variable (h2 : TwoCopies ctx)

include h2

theorem data_eq : ctx.bpb.dataSector * 512 = ctx.fat1Position + 2 * ctx.fatSize := by
  rw [ctx.fat1Position_eq, ctx.fatSize_eq, Bpb.dataSector, h2.fats_eq]
  omega

theorem setNextCluster_synced {c n : ℕ} (h : fatSetNextCluster ctx c n v = .ok ((), v'))
    (hs : Synced ctx v) : Synced ctx v' := by
  have hlt := setNextCluster_lt h
  rw [h2.setNextCluster_eq hlt] at h
  cases h
  have hentry : fromLe (toLe 4 (linkedEntry (v.fat c) n)) = linkedEntry (v.fat c) n := by
    rw [fromLe_toLe]
    apply Nat.mod_eq_of_lt
    apply linkedEntry_lt
    rw [← hs 0 (by rw [h2.fats_eq]; omega) c hlt]
    exact copyEntry_lt
  intro copy hcopy i hi
  rw [h2.fats_eq] at hcopy
  have hd : ∀ k < 2, copy ≠ k ∨ i ≠ c → ctx.cell k c + 4 ≤ ctx.cell copy i ∨
      ctx.cell copy i + 4 ≤ ctx.cell k c := by
    intro k hk hne
    unfold fatEntryCount at hi hlt
    have hcopy : copy = 0 ∨ copy = 1 := by omega
    have hk : k = 0 ∨ k = 1 := by omega
    rcases hcopy with rfl | rfl <;> rcases hk with rfl | rfl <;> unfold cell <;> omega
  simp only [Volume.copyEntry]
  by_cases hic : i = c
  · subst hic
    rw [update_self]
    by_cases hk : copy = 1
    · subst hk
      rw [readAt_writeAt_eq (toLe_length ..), hentry]
    · have hk0 : copy = 0 := by omega
      subst hk0
      rw [readAt_writeAt_of_disjoint (by rw [toLe_length]; exact hd 1 (by omega) (.inl (by omega))),
        readAt_writeAt_eq (toLe_length ..), hentry]
  · rw [update_of_ne hic,
      readAt_writeAt_of_disjoint (by rw [toLe_length]; exact hd 1 (by omega) (.inr hic)),
      readAt_writeAt_of_disjoint (by rw [toLe_length]; exact hd 0 (by omega) (.inr hic))]
    exact hs copy (by rw [h2.fats_eq]; exact hcopy) i hi

theorem writeFsInfoSector_synced {r : Option Errno} (h : fatWriteFsInfoSector ctx v = .ok (r, v'))
    (hs : Synced ctx v) : Synced ctx v' := by
  rw [h2.consistent.writeFsInfoSector_eq h2.fsi_length] at h
  cases h
  intro copy hcopy i hi
  have hle := h2.fsInfo_le v.freeClusterCount
  simp only [Volume.copyEntry]
  rw [readAt_writeAt_of_disjoint (by unfold cell; omega)]
  exact hs copy hcopy i hi

theorem updates {r : Option Errno} {v1 : Volume} {c n count hint : ℕ}
    (hset : fatSetNextCluster ctx c n v = .ok ((), v1))
    (hinfo : fatWriteFsInfoSector ctx
      { v1 with freeClusterCount := count, nextFreeCluster := hint } = .ok (r, v'))
    (hs : Synced ctx v) : Synced ctx v' := by
  have hs1 := h2.setNextCluster_synced hset hs
  exact h2.writeFsInfoSector_synced hinfo hs1

theorem metadata (h : Metadata ctx v v') (hs : Synced ctx v) : Synced ctx v' := by
  rcases h with ⟨r, h⟩ | ⟨c, h⟩ | ⟨c, n, h⟩
  · rcases allocateCluster_cases h with ⟨_, _, rfl⟩ | ⟨i, v1, err, _, _, hset, hinfo⟩
    · exact hs
    · exact h2.updates hset hinfo hs
  · obtain ⟨v1, err, hset, hinfo⟩ := freeCluster_cases h
    exact h2.updates hset hinfo hs
  · exact h2.setNextCluster_synced h hs

theorem writeAt_synced {a : ℕ} {bytes : List UInt8}
    (ha : ctx.partition.start + ctx.bpb.dataSector * 512 ≤ a ∨
      a + bytes.length ≤ ctx.partition.start) (hs : Synced ctx v) :
    Synced ctx { v with disk := writeAt v.disk a bytes } := by
  intro copy hcopy i hi
  have hi' := hi
  have hcopy' := hcopy
  rw [h2.fats_eq] at hcopy'
  rw [h2.data_eq] at ha
  unfold fatEntryCount at hi'
  simp only [Volume.copyEntry]
  have hk : copy = 0 ∨ copy = 1 := by omega
  rw [readAt_writeAt_of_disjoint (by
    rcases hk with rfl | rfl <;> unfold cell <;> omega)]
  exact hs copy hcopy i hi

theorem step (h : Step ctx v v') (hs : Synced ctx v) : Synced ctx v' := by
  cases h with
  | allocate r h => exact h2.metadata (.inl ⟨r, h⟩) hs
  | free c h => exact h2.metadata (.inr (.inl ⟨c, h⟩)) hs
  | link c n h => exact h2.metadata (.inr (.inr ⟨c, n, h⟩)) hs
  | writeCluster c al bytes r hal hb h =>
    rcases writeAccess_cases h with rfl | ⟨acc, hacc, rfl⟩
    · exact hs
    · exact h2.writeAt_synced (h2.consistent.clusterAccess_region hal hb hacc) hs
  | writeEntry c i entry r hi h =>
    rcases writeAccess_cases h with rfl | ⟨acc, hacc, rfl⟩
    · exact hs
    · exact h2.writeAt_synced
        (h2.consistent.entryAccess_region hi entry.length_eq.le hacc) hs
  | fill b => exact hs

end TwoCopies

end

/-! Everything else goes out of step. -/

/-- After every sequence of steps the table equals its copies, and every update from there spares
the boot sector and the data area. -/
def Mounted.StaysSynced (m : Mounted) : Prop :=
  ∀ v, Relation.ReflTransGen (Step m.ctx) m.volume v →
    Synced m.ctx v ∧ ∀ v', Metadata m.ctx v v' → Spares m.ctx v v'

namespace Mounted

variable {m : Mounted}

theorem fat2_le : m.ctx.fat2Position + 0 * 4 + 4 ≤ m.ctx.partition.size := by
  have hset := m.consistent.table_le
  have hinfo := m.consistent.dataSector_le
  rw [m.ctx.fat2Position_eq]
  rw [Nat.succ_mul] at hinfo
  generalize m.ctx.bpb.dataSector * 512 = d at *
  exact Nat.le_trans (by omega) hinfo

theorem zero_lt_fatEntryCount : 0 < m.ctx.fatEntryCount := by
  have := m.consistent.table_pos
  rw [m.ctx.fatEntryCount_eq]
  omega

theorem fat_zero_lt : m.volume.fat 0 < 2 ^ 32 := by
  rw [m.fat_eq m.zero_lt_fatEntryCount]
  exact copyEntry_lt ..

theorem link_zero (n : ℕ) : ∃ v', fatSetNextCluster m.ctx 0 n m.volume = .ok ((), v') ∧
    v'.fat = update m.volume.fat 0 (linkedEntry (m.volume.fat 0) n) ∧
    v'.disk = writeAt (writeAt m.volume.disk (m.ctx.cell 0 0)
        (toLe 4 (linkedEntry (m.volume.fat 0) n)))
      (m.ctx.cell 1 0) (toLe 4 (linkedEntry (m.volume.fat 0) n)) ∧
    v'.freeClusterCount = m.volume.freeClusterCount := by
  refine ⟨_, Context.Consistent.setNextCluster_eq m.zero_lt_fatEntryCount m.fat2_le, rfl, ?_, rfl⟩
  rw [m.ctx.fat2Position_eq]
  simp only [cell, Nat.zero_mul, Nat.one_mul, Nat.add_zero]

theorem linkedEntry_ne {entry : ℕ} : linkedEntry entry 0 ≠ linkedEntry entry 1 := by
  unfold linkedEntry
  omega

theorem StaysSynced.fats_ne_one (h : m.StaysSynced) : m.ctx.bpb.fats.toNat ≠ 1 := by
  intro hf
  have hdata : m.ctx.cell 1 0 = m.ctx.partition.start + m.ctx.bpb.dataSector * 512 := by
    rw [cell, m.ctx.fat1Position_eq, m.ctx.fatSize_eq, Bpb.dataSector, hf]
    omega
  have hle := m.consistent.dataSector_le
  have heq : ∀ n, linkedEntry (m.volume.fat 0) n =
      fromLe (readAt m.volume.disk (m.ctx.cell 1 0) 4) := by
    intro n
    obtain ⟨v', hlink, _, hdisk, _⟩ := m.link_zero n
    have hsp := (h m.volume .refl).2 v' (.inr (.inr ⟨0, n, hlink⟩))
    have hread : readAt v'.disk (m.ctx.cell 1 0) 4 = readAt m.volume.disk (m.ctx.cell 1 0) 4 := by
      refine readAt_congr fun x hx hx' => hsp x (.inr ⟨hdata ▸ hx, ?_⟩)
      rw [hdata] at hx'
      rw [Nat.succ_mul] at hle
      exact Nat.lt_of_lt_of_le hx' (by omega)
    rw [← hread, hdisk, readAt_writeAt_eq (toLe_length ..), fromLe_toLe]
    exact (Nat.mod_eq_of_lt (linkedEntry_lt m.fat_zero_lt)).symm
  exact linkedEntry_ne ((heq 0).trans (heq 1).symm)

theorem StaysSynced.fats_lt (h : m.StaysSynced) : m.ctx.bpb.fats.toNat < 3 := by
  by_contra hf
  have h0 := m.zero_lt_fatEntryCount
  have hsize := m.consistent.fatSize_pos
  have heq : ∀ n, linkedEntry (m.volume.fat 0) n = m.volume.fat 0 := by
    intro n
    obtain ⟨v', hlink, hfat, hdisk, _⟩ := m.link_zero n
    have hsync := (h v' (.single (.link 0 n hlink))).1 2 (by omega) 0 h0
    have hsync0 := (h m.volume .refl).1 2 (by omega) 0 h0
    have hread : v'.copyEntry m.ctx 2 0 = m.volume.copyEntry m.ctx 2 0 := by
      rw [Volume.copyEntry, hdisk,
        readAt_writeAt_of_disjoint (by rw [toLe_length]; unfold cell; omega),
        readAt_writeAt_of_disjoint (by rw [toLe_length]; unfold cell; omega)]
      rfl
    rw [hread, hsync0, hfat, update_self] at hsync
    exact hsync.symm
  exact linkedEntry_ne ((heq 0).trans (heq 1).symm)

theorem free_zero : ∃ v', fatFreeCluster m.ctx 0 m.volume = .ok ((), v') ∧
    (∀ i ≠ 0, v'.fat i = m.volume.fat i) ∧
    fromLe (readAt v'.disk (m.ctx.partition.start +
        m.ctx.bpb.sectorNumberFsInfo.toNat * 512 + 488) 4) ≠
      fromLe (readAt m.volume.disk (m.ctx.partition.start +
        m.ctx.bpb.sectorNumberFsInfo.toNat * 512 + 488) 4) := by
  obtain ⟨v1, hlink, hfat, _, hcount⟩ := m.link_zero 0
  have hlen := Apart.fsInfoSector_length m.fsi_length ((v1.freeClusterCount + 1) % 2 ^ 32)
  have hfs := m.consistent.writeFsInfoSector_eq (v := { v1 with
    freeClusterCount := (v1.freeClusterCount + 1) % 2 ^ 32 }) m.fsi_length
  refine ⟨{ v1 with
    freeClusterCount := (v1.freeClusterCount + 1) % 2 ^ 32
    disk := writeAt v1.disk (m.ctx.partition.start + m.ctx.bpb.sectorNumberFsInfo.toNat * 512)
      (m.ctx.fsInfoSector ((v1.freeClusterCount + 1) % 2 ^ 32)) }, ?_, ?_, ?_⟩
  · rw [fatFreeCluster, bind_of_ok hlink, bind_of_ok (modify_eq_ok _)]
    exact bind_of_ok hfs
  · intro i hi
    simp only [hfat, update_of_ne hi]
  · rw [← numberAt_readAt (n := 512) (by omega), ← numberAt_readAt (n := 512) (by omega)]
    simp only [readAt_writeAt_eq hlen]
    rw [← m.fsi_eq, ← m.freeClusterCount_eq, fsInfoSector, numberAt,
      take_drop_splice (by rw [m.fsi_length]; omega) (toLe_length ..), fromLe_toLe, hcount]
    omega

theorem StaysSynced.fsInfo_spared (h : m.StaysSynced) : 1 ≤ m.ctx.bpb.sectorNumberFsInfo.toNat ∧
      m.ctx.bpb.sectorNumberFsInfo.toNat < m.ctx.bpb.dataSector := by
  obtain ⟨v', hfree, _, hne⟩ := m.free_zero
  have hsp := (h m.volume .refl).2 v' (.inr (.inl ⟨0, hfree⟩))
  have hle := m.consistent.fsInfo_le
  constructor
  · by_contra hs
    have hs0 : m.ctx.bpb.sectorNumberFsInfo.toNat = 0 := by omega
    refine hne (congrArg fromLe (readAt_congr fun x hx hx' => hsp x (.inl ⟨?_, ?_⟩)))
    · omega
    · rw [hs0] at hx'
      omega
  · by_contra hs
    rw [Nat.succ_mul] at hle
    refine hne (congrArg fromLe (readAt_congr fun x hx hx' => hsp x (.inr ⟨?_, ?_⟩)))
    · omega
    · exact Nat.lt_of_lt_of_le hx' (by omega)

theorem StaysSynced.fsInfo_reserved (h : m.StaysSynced) (hf : m.ctx.bpb.fats.toNat = 2) :
    m.ctx.bpb.sectorNumberFsInfo.toNat < m.ctx.bpb.reservedSectors.toNat := by
  by_contra hs
  obtain ⟨v', hfree, hfat, hne⟩ := m.free_zero
  have hlt := h.fsInfo_spared.2
  rw [Bpb.dataSector, hf] at hlt
  -- the count stands in the entry `122` of a sector of the first or the second copy
  obtain ⟨copy, q, hcopy, hq, hsec⟩ : ∃ copy q, copy < 2 ∧ q < m.ctx.bpb.sectorsPerFat.toNat ∧
      m.ctx.bpb.sectorNumberFsInfo.toNat =
        m.ctx.bpb.reservedSectors.toNat + copy * m.ctx.bpb.sectorsPerFat.toNat + q := by
    by_cases hc : m.ctx.bpb.sectorNumberFsInfo.toNat <
        m.ctx.bpb.reservedSectors.toNat + m.ctx.bpb.sectorsPerFat.toNat
    · exact ⟨0, _, by omega, by omega, (Nat.add_sub_of_le (by omega)).symm⟩
    · exact ⟨1, _, by omega, by omega, (Nat.add_sub_of_le (by omega)).symm⟩
  have hi : q * 128 + 122 < m.ctx.fatEntryCount := by
    rw [m.ctx.fatEntryCount_eq]
    omega
  have hcell : m.ctx.cell copy (q * 128 + 122) = m.ctx.partition.start +
      m.ctx.bpb.sectorNumberFsInfo.toNat * 512 + 488 := by
    rw [cell, m.ctx.fat1Position_eq, m.ctx.fatSize_eq, hsec]
    have hk : copy = 0 ∨ copy = 1 := by omega
    rcases hk with rfl | rfl <;> omega
  have h0 := (h m.volume .refl).1 copy (by omega) _ hi
  have hset := (h v' (.single (.free 0 hfree))).1 copy (by omega) _ hi
  rw [hfat _ (by omega), ← h0, Volume.copyEntry, Volume.copyEntry, hcell] at hset
  exact hne hset

theorem StaysSynced.mirrored (h : m.StaysSynced) : m.Mirrored := by
  have hpos := m.consistent.fats_pos
  have h1 := h.fats_ne_one
  have h3 := h.fats_lt
  have h2 : m.ctx.bpb.fats.toNat = 2 := by omega
  have hsync := (h m.volume .refl).1
  refine ⟨h2, fun i hi => ?_, h.fsInfo_spared.1, h.fsInfo_reserved h2⟩
  rw [hsync 0 (by omega) i hi, hsync 1 (by omega) i hi]

theorem Mirrored.twoCopies (h : m.Mirrored) : TwoCopies m.ctx :=
  ⟨⟨m.consistent, m.fsi_length, h.fats_eq.ge, h.fsInfo_pos, h.fsInfo_lt⟩, h.fats_eq⟩

theorem Mirrored.synced (h : m.Mirrored) : Synced m.ctx m.volume := by
  intro copy hcopy i hi
  rw [h.fats_eq] at hcopy
  rw [m.fat_eq hi]
  have hk : copy = 0 ∨ copy = 1 := by omega
  rcases hk with rfl | rfl
  · rfl
  · exact (h.agree i hi).symm

theorem Mirrored.staysSynced (h : m.Mirrored) : m.StaysSynced := by
  intro v hv
  refine ⟨?_, fun v' hmeta => h.twoCopies.toApart.metadata_spares hmeta⟩
  induction hv with
  | refl => exact h.synced
  | tail _ hstep ih => exact h.twoCopies.step hstep ih

end Mounted

/-- The table stays equal to all its copies, and its updates spare the boot sector and the data
area, exactly on the volumes with two copies that agree at the mount and a FSInfo sector among the
reserved ones; on those every run of calls passes only through such states. -/
theorem copies_stay_synced (m : Mounted) : (m.StaysSynced ↔ m.Mirrored) ∧
    (m.Mirrored → ∀ s cs t, s.volume = m.volume → Run (callStep m.ctx) s cs t →
      Synced m.ctx t.volume ∧ Relation.ReflTransGen (fun v v' => Step m.ctx v v' ∧
        Synced m.ctx v' ∧ (Metadata m.ctx v v' → Spares m.ctx v v')) m.volume t.volume) := by
  refine ⟨⟨Mounted.StaysSynced.mirrored, Mounted.Mirrored.staysSynced⟩, ?_⟩
  intro h s cs t hs hrun
  have hsteps := run_steps hrun
  rw [hs] at hsteps
  refine ⟨(h.staysSynced _ hsteps).1, ?_⟩
  generalize t.volume = v at hsteps
  induction hsteps with
  | refl => exact .refl
  | tail hsteps hstep ih =>
    refine ih.tail ⟨hstep, (h.staysSynced _ (hsteps.tail hstep)).1, ?_⟩
    exact (h.staysSynced _ hsteps).2 _

instance (ctx : Context) : Decidable ctx.Consistent :=
  decidable_of_iff (1 ≤ ctx.bpb.fats.toNat ∧ 1 ≤ ctx.bpb.sectorsPerFat.toNat ∧
    ctx.bpb.dataSector < ctx.bpb.totalSectors ∧
    ctx.bpb.totalSectors * 512 ≤ ctx.partition.size ∧
    ctx.bpb.sectorNumberFsInfo.toNat < ctx.bpb.totalSectors)
    ⟨fun h => ⟨h.1, h.2.1, h.2.2.1, h.2.2.2.1, h.2.2.2.2⟩,
      fun h => ⟨h.1, h.2, h.3, h.4, h.5⟩⟩

def mountsTo (P : Partition) (disk : ℕ → UInt8) (check : Context → Volume → Bool) : Bool :=
  match fatMount P disk with
  | .ok (some (ctx, v)) => check ctx v
  | _ => false

theorem exists_mounted (P : Partition) (disk : ℕ → UInt8) (check : Context → Volume → Bool)
    (h : mountsTo P disk (fun ctx v => ctx.Consistent && check ctx v) = true) :
    ∃ m : Mounted, check m.ctx m.volume = true := by
  unfold mountsTo at h
  split at h
  · rename_i ctx v hm
    rw [Bool.and_eq_true, decide_eq_true_eq] at h
    exact ⟨⟨P, disk, ctx, v, hm, h.1⟩, h.2⟩
  · cases h

/-- A volume of 64 sectors: the boot sector, FSInfo, copies of a table of one sector, and data. -/
def sampleDisk (fats : UInt8) (table : List UInt8) : ℕ → UInt8 :=
  let boot := writeAt (fun _ => 0) 13 ([1, 2, 0, fats] ++ List.replicate 15 0 ++ [64, 0, 0, 0] ++
    [1, 0, 0, 0] ++ [0, 0, 0, 0] ++ [2, 0, 0, 0] ++ [1, 0])
  let signed := writeAt boot 82 [0x46, 0x41, 0x54, 0x33, 0x32, 0x20, 0x20, 0x20]
  let lead := writeAt signed 512 [0x52, 0x52, 0x61, 0x41]
  let fsInfo := writeAt lead 996 [0x72, 0x72, 0x41, 0x61, 125, 0, 0, 0, 3, 0, 0, 0]
  let trail := writeAt fsInfo 1020 [0, 0, 0x55, 0xAA]
  (List.range fats.toNat).foldl (fun d i => writeAt d (1024 + i * 512) table) trail

def samplePartition : Partition := ⟨0, 32768, by decide⟩

/-- The entries 0 and 1 and the root directory in cluster 2. -/
def sampleTable : List UInt8 := (List.replicate 3 [0xFF, 0xFF, 0xFF, 0x0F]).flatten

def sampleEnv : Env := ⟨0, 0, fun _ => 0x41, fun _ => 0x42⟩

/-- Creating a directory on a volume with three copies leaves the third copy behind. -/
theorem third_copy_stale : ∃ m : Mounted, m.ctx.bpb.fats = 3 ∧ ∃ t,
    Run (callStep m.ctx) ⟨m.volume, fun _ => none⟩ [(.dirCreate [0x41], sampleEnv)] t ∧
      ¬ Synced m.ctx t.volume := by
  obtain ⟨m, hm⟩ := exists_mounted samplePartition (sampleDisk 3 sampleTable)
    (fun ctx v => ctx.bpb.fats = 3 &&
      (runChecked (fun s c => perform ctx s c.2 c.1) (fun _ _ _ => true) ⟨v, fun _ => none⟩
        [(.dirCreate [0x41], sampleEnv)]).any fun t =>
          2 < ctx.bpb.fats.toNat && 3 < ctx.fatEntryCount &&
            t.volume.copyEntry ctx 2 3 ≠ t.volume.fat 3) (by decide +kernel)
  rw [Bool.and_eq_true, decide_eq_true_eq] at hm
  obtain ⟨t, ht, hne⟩ := (Option.any_eq_true ..).mp hm.2
  refine ⟨m, hm.1, t, .of_runChecked (fun _ _ _ h _ => h) ht, fun hs => ?_⟩
  simp only [Bool.and_eq_true, decide_eq_true_eq] at hne
  exact hne.2 (hs 2 hne.1.1 3 hne.1.2)

end Kot.Fat
