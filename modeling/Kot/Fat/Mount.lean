import Kot.Fat.Driver

/-! `fat_mount`: the geometry, the FSInfo record and the table of a volume as they are read from
its partition. -/
namespace Kot.Fat

open Kot.Kernel Kot.Lib

def numberAt (bytes : List UInt8) (offset size : ℕ) : ℕ := fromLe ((bytes.drop offset).take size)

def bpbOf (boot : List UInt8) : Bpb where
  sectorsPerCluster := UInt8.ofNat (numberAt boot 13 1)
  reservedSectors := UInt16.ofNat (numberAt boot 14 2)
  fats := UInt8.ofNat (numberAt boot 16 1)
  totalSectors16 := UInt16.ofNat (numberAt boot 19 2)
  totalSectors32 := UInt32.ofNat (numberAt boot 32 4)
  sectorsPerFat := UInt32.ofNat (numberAt boot 36 4)
  rootClusterNumber := UInt32.ofNat (numberAt boot 44 4)
  sectorNumberFsInfo := UInt16.ofNat (numberAt boot 48 2)
  identifier := UInt64.ofNat (numberAt boot 82 8)

/-- `"FAT32   "`. -/
def fat32Signature : UInt64 := 0x2020203233544146

/-- The signatures that `fat_read_fs_info_sector` checks. -/
def FsInfoSigned (fsi : List UInt8) : Prop :=
  numberAt fsi 0 4 = 0x41615252 ∧ numberAt fsi 484 4 = 0x61417272 ∧ numberAt fsi 508 4 = 0xAA550000

instance (fsi : List UInt8) : Decidable (FsInfoSigned fsi) := inferInstanceAs (Decidable (_ ∧ _ ∧ _))

/-- `ctx->cluster_count`. -/
def Bpb.clusterCount (bpb : Bpb) : ℕ :=
  let total := if bpb.totalSectors16 ≠ 0 then bpb.totalSectors16.toNat else bpb.totalSectors32.toNat
  if bpb.sectorsPerCluster ≠ 0 then total / bpb.sectorsPerCluster.toNat else total

/-- The search for a free cluster starts where FSInfo says, if that is not too far. -/
def startHint (bpb : Bpb) (fsi : List UInt8) : ℕ :=
  if numberAt fsi 492 4 ≤ bpb.clusterCount then numberAt fsi 492 4 else 0

/-- `fat_mount`; `none` when the volume is not a FAT32 volume. -/
def fatMount (P : Partition) (disk : ℕ → UInt8) : Except Fault (Option (Context × Volume)) := do
  let boot ← assertSome (readPartition P disk 0 512)
  let bpb := bpbOf boot
  if bpb.identifier ≠ fat32Signature then pure none
  else
    let fsi ← assertSome (readPartition P disk (lbaToBytes bpb.sectorNumberFsInfo.toNat) 512)
    if ¬ FsInfoSigned fsi then throw .panic
    else
      let ctx : Context := ⟨P, bpb, fsi⟩
      let table ← assertSome (readPartition P disk ctx.fat1Position ctx.fatSize)
      pure (some (ctx, {
        disk
        fat := fun i => numberAt table (4 * i) 4
        freeClusterCount := numberAt fsi 488 4
        nextFreeCluster := startHint bpb fsi
        buffer := [] }))

end Kot.Fat
