import Kot.Kernel.Machine
import Mathlib.Tactic.SplitIfs
import Mathlib.Tactic.ByContra

/-! The partition under the FAT32 driver (`modules/fat32/source/core.c`): the geometry that
`fat_mount` takes from the boot sector, and the two families of accessors that turn a request of
the driver into an access of the device. -/
namespace Kot.Fat

open Kot.Kernel

/-- The bytes `[start, start + size)` of a device. -/
structure Partition where
  start : ℕ
  size : ℕ
  /-- the end is a 64-bit address -/
  fits : start + size < 2 ^ 64

/-- The fields of `bpb_t` that the driver reads. -/
structure Bpb where
  sectorsPerCluster : UInt8
  reservedSectors : UInt16
  fats : UInt8
  totalSectors16 : UInt16
  totalSectors32 : UInt32
  sectorsPerFat : UInt32
  rootClusterNumber : UInt32
  sectorNumberFsInfo : UInt16
  identifier : UInt64
  deriving DecidableEq

/-- The part of `fat_context_t` that does not change after the mount. The values that
`fat_mount` computes from the boot sector are functions of it. -/
structure Context where
  partition : Partition
  bpb : Bpb
  /-- the FSInfo sector as it was read -/
  fsi : List UInt8

def lbaToBytes (value : ℕ) : ℕ := value * 512 % 2 ^ 64

namespace Context

variable (ctx : Context)

@[irreducible] def fatSize : ℕ := lbaToBytes ctx.bpb.sectorsPerFat.toNat

@[irreducible] def fat1Position : ℕ := lbaToBytes ctx.bpb.reservedSectors.toNat

@[irreducible] def fat2Position : ℕ := wadd ctx.fat1Position ctx.fatSize

/-- The product and the sum are 32-bit. -/
@[irreducible] def firstUsableLba : ℕ :=
  (ctx.bpb.reservedSectors.toNat + ctx.bpb.fats.toNat * ctx.bpb.sectorsPerFat.toNat) % 2 ^ 32

@[irreducible] def clusterSize : ℕ := lbaToBytes ctx.bpb.sectorsPerCluster.toNat

def entrySize : ℕ := 32

@[irreducible] def entriesPerCluster : ℕ := ctx.clusterSize / entrySize

@[irreducible] def fatEntryCount : ℕ := ctx.fatSize / 4

/-- `cluster - 2` and the product are 32-bit. -/
@[irreducible] def clusterToLba (cluster : ℕ) : ℕ :=
  wadd ctx.firstUsableLba
    (ctx.bpb.sectorsPerCluster.toNat * ((cluster + 2 ^ 32 - 2) % 2 ^ 32) % 2 ^ 32)

theorem fatSize_eq : ctx.fatSize = ctx.bpb.sectorsPerFat.toNat * 512 := by
  have := ctx.bpb.sectorsPerFat.toNat_lt
  unfold fatSize lbaToBytes
  omega

theorem fat1Position_eq : ctx.fat1Position = ctx.bpb.reservedSectors.toNat * 512 := by
  have := ctx.bpb.reservedSectors.toNat_lt
  unfold fat1Position lbaToBytes
  omega

theorem fat2Position_eq : ctx.fat2Position = ctx.fat1Position + ctx.fatSize := by
  have := ctx.bpb.sectorsPerFat.toNat_lt
  have := ctx.bpb.reservedSectors.toNat_lt
  rw [fat2Position, wadd_of_lt]
  rw [fat1Position_eq, fatSize_eq]
  omega

theorem clusterSize_eq : ctx.clusterSize = ctx.bpb.sectorsPerCluster.toNat * 512 := by
  have := ctx.bpb.sectorsPerCluster.toNat_lt
  unfold clusterSize lbaToBytes
  omega

theorem entriesPerCluster_le : ctx.entriesPerCluster ≤ ctx.clusterSize := by
  unfold entriesPerCluster
  exact Nat.div_le_self _ _

theorem fatEntryCount_eq : ctx.fatEntryCount = ctx.bpb.sectorsPerFat.toNat * 128 := by
  rw [fatEntryCount, fatSize_eq]
  omega

theorem firstUsableLba_lt : ctx.firstUsableLba < 2 ^ 32 := by
  unfold firstUsableLba
  exact Nat.mod_lt _ (by decide)

theorem clusterToLba_eq (cluster : ℕ) : ctx.clusterToLba cluster = ctx.firstUsableLba +
    ctx.bpb.sectorsPerCluster.toNat * ((cluster + 2 ^ 32 - 2) % 2 ^ 32) % 2 ^ 32 := by
  have h1 := ctx.firstUsableLba_lt
  unfold clusterToLba
  exact wadd_of_lt (by omega)

theorem clusterToLba_lt (cluster : ℕ) : ctx.clusterToLba cluster < 2 ^ 33 := by
  have h1 := ctx.firstUsableLba_lt
  rw [clusterToLba_eq]
  omega

/-- Where the driver looks for a byte of a cluster, counted from the start of the partition. -/
@[irreducible] def clusterPosition (cluster : ℕ) : ℕ := lbaToBytes (ctx.clusterToLba cluster)

theorem clusterPosition_eq (cluster : ℕ) :
    ctx.clusterPosition cluster = ctx.clusterToLba cluster * 512 := by
  have := ctx.clusterToLba_lt cluster
  unfold clusterPosition lbaToBytes
  omega

theorem clusterPosition_lt (cluster : ℕ) : ctx.clusterPosition cluster < 2 ^ 42 := by
  rw [clusterPosition_eq]
  exact Nat.mul_lt_mul_of_pos_right (ctx.clusterToLba_lt cluster) (by decide)

end Context

/-- An access of the device: `size` bytes from `start` on. -/
structure Access where
  start : ℕ
  size : ℕ
  deriving DecidableEq

/-- The check of `read_partition` and `write_partition` and the access that they issue. -/
@[irreducible] def Partition.access (P : Partition) (start size : ℕ) : Option Access :=
  if wadd start size > wadd P.start P.size then none else some ⟨wadd start P.start, size⟩

/-- The check of `fat_read_cluster` and `fat_write_cluster` and the access that they issue. -/
@[irreducible] def Context.clusterAccess (ctx : Context) (cluster alignement size : ℕ) : Option Access :=
  let start := wadd (wadd ctx.partition.start (ctx.clusterPosition cluster)) alignement
  if wadd start size > wadd ctx.partition.start ctx.partition.size then none
  else some ⟨start, size⟩

theorem Context.clusterAccess_size {ctx : Context} {cluster alignement size : ℕ} {a : Access}
    (h : ctx.clusterAccess cluster alignement size = some a) : a.size = size := by
  unfold clusterAccess at h
  simp only at h
  split_ifs at h
  cases h
  rfl

/-- What a caller in the driver can ask for. -/
inductive Request
  /-- of `read_partition` and `write_partition` -/
  | relative (start size : UInt64)
  /-- of `fat_read_cluster` and `fat_write_cluster` -/
  | cluster (number alignement : UInt32) (size : UInt64)

namespace Request

def size : Request → ℕ
  | relative _ size => size.toNat
  | cluster _ _ size => size.toNat

/-- The access that the driver issues for the request, if it issues one. -/
def issued (ctx : Context) : Request → Option Access
  | relative start size => ctx.partition.access start.toNat size.toNat
  | cluster number alignement size => ctx.clusterAccess number.toNat alignement.toNat size.toNat

/-- The first byte that the request means, counted from the start of the partition: the data
area starts behind the FAT copies and cluster 2 is its first cluster. -/
def position (ctx : Context) : Request → ℕ
  | relative start _ => start.toNat
  | cluster number alignement _ => (ctx.bpb.reservedSectors.toNat +
      ctx.bpb.fats.toNat * ctx.bpb.sectorsPerFat.toNat +
      ctx.bpb.sectorsPerCluster.toNat * (number.toNat - 2)) * 512 + alignement.toNat

/-- The request lies inside the partition; there are no clusters 0 and 1. -/
def Inside (ctx : Context) (r : Request) : Prop :=
  r.position ctx + r.size ≤ ctx.partition.size ∧
    match r with
    | relative _ _ => True
    | cluster number _ _ => 2 ≤ number.toNat

/-- The offset that the driver computes for the request. -/
def offset (ctx : Context) : Request → ℕ
  | relative start _ => start.toNat
  | cluster number alignement _ => ctx.clusterPosition number.toNat + alignement.toNat

/-- The sum that the driver compares with the end of the partition: the accessors of the first
family leave out the start of the partition. -/
def comparedEnd (ctx : Context) : Request → ℕ
  | relative start size => (start.toNat + size.toNat) % 2 ^ 64
  | cluster number alignement size => (ctx.partition.start +
      ctx.clusterPosition number.toNat + alignement.toNat + size.toNat) % 2 ^ 64

/-- The request ends inside the partition at the offset that the driver computes, or is empty,
or the sum that the driver compares is beyond the end of the partition; and a request inside
the partition is at the offset that the driver computes. -/
def Checked (ctx : Context) (r : Request) : Prop :=
  (r.offset ctx + r.size ≤ ctx.partition.size ∨ r.size = 0 ∨
    ctx.partition.start + ctx.partition.size < r.comparedEnd ctx) ∧
  (r.Inside ctx → r.offset ctx = r.position ctx)

/-- The issued access touches bytes of the partition only, and a request inside the partition is
issued as it is. -/
def Confined (ctx : Context) (r : Request) : Prop :=
  (∀ a ∈ r.issued ctx, a.size = 0 ∨ ctx.partition.start ≤ a.start ∧
    a.start + a.size ≤ ctx.partition.start + ctx.partition.size) ∧
  (r.Inside ctx → r.issued ctx = some ⟨ctx.partition.start + r.position ctx, r.size⟩)

variable {ctx : Context} {r : Request}

theorem offset_lt (ctx : Context) (r : Request) : r.offset ctx < 2 ^ 64 := by
  cases r with
  | relative start _ => exact start.toNat_lt
  | cluster number alignement _ =>
    have h1 := ctx.clusterToLba_lt number.toNat
    have h2 := alignement.toNat_lt
    rw [offset, Context.clusterPosition_eq]
    omega

theorem issued_eq (ctx : Context) (r : Request) : r.issued ctx =
    if ctx.partition.start + ctx.partition.size < r.comparedEnd ctx then none
    else some ⟨(ctx.partition.start + r.offset ctx) % 2 ^ 64, r.size⟩ := by
  have hend := wadd_of_lt ctx.partition.fits
  cases r with
  | relative start size =>
    simp only [issued, Partition.access, hend, comparedEnd, offset, Request.size, gt_iff_lt]
    rw [Nat.add_comm ctx.partition.start start.toNat]
    rfl
  | cluster number alignement size =>
    simp only [issued, Context.clusterAccess, hend, comparedEnd, offset, Request.size, gt_iff_lt]
    simp only [wadd, Nat.mod_add_mod, Nat.add_assoc]

theorem issued_of_inside (h : r.offset ctx + r.size ≤ ctx.partition.size) :
    r.issued ctx = some ⟨ctx.partition.start + r.offset ctx, r.size⟩ := by
  have hfits := ctx.partition.fits
  have hend : ¬ ctx.partition.start + ctx.partition.size < r.comparedEnd ctx := by
    cases r <;> simp only [comparedEnd, offset, size] at h ⊢ <;> omega
  rw [issued_eq, if_neg hend, Nat.mod_eq_of_lt (by omega)]

/-- A request is served inside the partition exactly when the check of its accessor meets the
bytes that it means. -/
theorem confined_iff_checked (ctx : Context) (r : Request) : r.Confined ctx ↔ r.Checked ctx := by
  have hfits := ctx.partition.fits
  constructor
  · intro h
    constructor
    · by_contra hc
      simp only [not_or, Nat.not_le, Nat.not_lt] at hc
      obtain ⟨hout, hsize, hend⟩ := hc
      have hi := issued_eq ctx r
      rw [if_neg (by omega)] at hi
      rcases h.1 _ hi with h0 | hin
      · exact hsize h0
      · have hoff := offset_lt ctx r
        dsimp only at hin
        omega
    · intro hin
      by_cases hoff : r.offset ctx + r.size ≤ ctx.partition.size
      · have := (issued_of_inside hoff).symm.trans (h.2 hin)
        simp only [Option.some.injEq, Access.mk.injEq] at this
        omega
      · have hi := issued_eq ctx r
        have h2 := h.2 hin
        rw [hi] at h2
        split_ifs at h2 with hc
        simp only [Option.some.injEq, Access.mk.injEq] at h2
        have := offset_lt ctx r
        omega
  · rintro ⟨hsafe, hsame⟩
    constructor
    · intro a ha
      rw [issued_eq] at ha
      split_ifs at ha with hc
      · cases ha
      · cases ha
        rcases hsafe with hin | h0 | hlt
        · right
          rw [Nat.mod_eq_of_lt (by omega)]
          constructor <;> simp only <;> omega
        · exact .inl h0
        · exact absurd hlt hc
    · intro hin
      have hoff := hsame hin
      rw [← hoff]
      exact issued_of_inside (hoff ▸ hin.1)

/-- A volume of 64 MiB whose partition starts at the first MiB of its device. -/
def sample : Context where
  partition := ⟨1048576, 67108864, by decide⟩
  bpb := ⟨1, 32, 2, 0, 131072, 1009, 2, 1, 0x2020203233544146⟩
  fsi := []

/-- A relative access that starts at the end of the partition is issued: the check compares an
offset with an address of the device. -/
theorem relative_access_escapes :
    (relative 67108864 1).issued sample = some ⟨68157440, 1⟩ ∧ ¬ (relative 67108864 1).Confined sample := by
  have hi : (relative 67108864 1).issued sample = some ⟨68157440, 1⟩ := by decide +kernel
  refine ⟨hi, fun h => ?_⟩
  rcases h.1 _ hi with h0 | hin
  · exact absurd h0 (by decide)
  · exact absurd hin.2 (by decide)

end Request

end Kot.Fat
