import Kot.Fat.Partition
import Kot.Lib.Bytes
import Kot.Lib.Program
import Mathlib.Logic.Function.Basic
import Mathlib.Order.Nat

/-! The state of a mounted FAT32 volume and the operations of `modules/fat32/source/core.c` on
its table and its clusters: allocation, freeing, and reading and writing along a chain. -/
namespace Kot.Fat

open Kot.Kernel Kot.Lib

inductive Errno
  | einval
  | eio
  | enoent
  | eexist
  | eacces
  | eisdir
  | enotdir
  | enotempty
  | enomem
  deriving DecidableEq, Repr

/-- The device and the part of `fat_context_t` that changes after the mount. -/
structure Volume where
  /-- the bytes of the device -/
  disk : ℕ → UInt8
  /-- the table in memory: 32-bit values -/
  fat : ℕ → ℕ
  /-- `fsi->free_cluster_count` -/
  freeClusterCount : ℕ
  /-- where the next search for a free cluster starts -/
  nextFreeCluster : ℕ
  /-- the `cluster_buffer` of the running operation -/
  buffer : List UInt8

/-- Calls of the driver. An `int` result is `none` for `0`. -/
abbrev FatM := Program Volume Fault

def endOfClusterchain : ℕ := 0x0FFFFFFF

/-- `cluster >= 0xFFFFFF8 || cluster == 0`. -/
def IsEnd (cluster : ℕ) : Prop := 0xFFFFFF8 ≤ cluster ∨ cluster = 0

instance (cluster : ℕ) : Decidable (IsEnd cluster) := inferInstanceAs (Decidable (_ ∨ _))

/-- The turns after which a loop of the driver counts as endless: its counters are 32-bit. -/
def loopBound : ℕ := 2 ^ 32

/-- The bytes that `read_partition` puts into its buffer; `none` when it refuses. -/
def readPartition (P : Partition) (disk : ℕ → UInt8) (start size : ℕ) : Option (List UInt8) :=
  (P.access start size).map fun a => readAt disk a.start a.size

def writeAccess (bytes : List UInt8) : Option Access → FatM (Option Errno)
  | none => pure (some .einval)
  | some a => fun v => .ok (none, { v with disk := writeAt v.disk a.start bytes })

def assertSome {α : Type} : Option α → Except Fault α
  | none => .error .panic
  | some a => .ok a

section

variable (ctx : Context)

def writePartition (start : ℕ) (bytes : List UInt8) : FatM (Option Errno) :=
  writeAccess bytes (ctx.partition.access start bytes.length)

/-- The bytes that `fat_read_cluster` puts into its buffer; `none` when it refuses. -/
def fatReadCluster (disk : ℕ → UInt8) (cluster alignement size : ℕ) : Option (List UInt8) :=
  (ctx.clusterAccess cluster alignement size).map fun a => readAt disk a.start a.size

def fatWriteCluster (cluster alignement : ℕ) (bytes : List UInt8) : FatM (Option Errno) :=
  writeAccess bytes (ctx.clusterAccess cluster alignement bytes.length)

def Context.fsInfoSector (freeClusterCount : ℕ) : List UInt8 :=
  splice ctx.fsi 488 (toLe 4 freeClusterCount)

def fatWriteFsInfoSector : FatM (Option Errno) := do
  writePartition ctx (lbaToBytes ctx.bpb.sectorNumberFsInfo.toNat)
    (ctx.fsInfoSector (← get).freeClusterCount)

def fatGetNextCluster (current : ℕ) : FatM ℕ := fun v =>
  if current < ctx.fatEntryCount then .ok (v.fat current % 2 ^ 28, v) else .error .strayAccess

/-- The low 28 bits of an entry are replaced, the high four are kept. -/
def linkedEntry (entry nextCluster : ℕ) : ℕ := nextCluster % 2 ^ 28 + entry / 2 ^ 28 * 2 ^ 28

def fatStoreEntry (current entry : ℕ) : FatM Unit := fun v =>
  if current < ctx.fatEntryCount then .ok ((), { v with fat := Function.update v.fat current entry })
  else .error .strayAccess

def fatSetNextCluster (current nextCluster : ℕ) : FatM Unit := do
  let entry := linkedEntry ((← get).fat current) nextCluster
  fatStoreEntry ctx current entry
  let _ ← writePartition ctx (ctx.fat1Position + current * 4) (toLe 4 entry)
  let _ ← writePartition ctx (ctx.fat2Position + current * 4) (toLe 4 entry)

/-- The first free entry from the hint on; the loop counter is passed on as `uint32_t`. -/
def Volume.firstFree (v : Volume) (fatEntryCount : ℕ) : Option ℕ :=
  (List.range' v.nextFreeCluster (fatEntryCount - v.nextFreeCluster)).find? fun i =>
    v.fat (i % 2 ^ 32) % 2 ^ 28 = 0

/-- `fat_allocate_cluster`; `none` when it fails. -/
def fatAllocateCluster : FatM (Option ℕ) := do
  match (← get).firstFree ctx.fatEntryCount with
  | none => pure none
  | some i =>
    fatSetNextCluster ctx (i % 2 ^ 32) endOfClusterchain
    modify fun v => { v with
      nextFreeCluster := i
      freeClusterCount := (v.freeClusterCount + 2 ^ 32 - 1) % 2 ^ 32 }
    let _ ← fatWriteFsInfoSector ctx
    pure (some (i % 2 ^ 32))

def fatFreeCluster (cluster : ℕ) : FatM Unit := do
  fatSetNextCluster ctx cluster 0
  modify fun v => { v with freeClusterCount := (v.freeClusterCount + 1) % 2 ^ 32 }
  let _ ← fatWriteFsInfoSector ctx

/-- The loop of `fat_free_all_following_clusters`. -/
def freeLoop : ℕ → ℕ → FatM Unit
  | 0, _ => throw .endlessLoop
  | turns + 1, current =>
    if IsEnd current then pure ()
    else do
      let next ← fatGetNextCluster ctx current
      fatFreeCluster ctx current
      freeLoop turns next

def fatFreeAllFollowingClusters (cluster : ℕ) : FatM Unit := freeLoop ctx loopBound cluster

/-- The bytes of the cluster `current` that a request of `size` bytes takes. -/
def chunkSize (alignement size : ℕ) : ℕ :=
  if wadd alignement size > ctx.clusterSize then ctx.clusterSize - alignement else size

/-- `assert(!fat_read_cluster(...))`: the bytes read. -/
def readChunk (current alignement size : ℕ) : FatM (List UInt8) := do
  assertSome (fatReadCluster ctx (← get).disk current alignement size)

/-- The loop of `fat_read_cluster_chain`: what it has put into the buffer. Before the first
cluster is read `size_to_read` is `0`. -/
def readLoop : ℕ → ℕ → ℕ → ℕ → FatM (List UInt8)
  | 0, _, _, _ => throw .endlessLoop
  | turns + 1, current, alignement, size =>
    if size = 0 ∨ IsEnd current then pure []
    else if alignement < ctx.clusterSize then do
      let n := chunkSize ctx alignement size
      let bytes ← readChunk ctx current alignement n
      let next ← fatGetNextCluster ctx current
      let rest ← readLoop turns next 0 (size - n)
      pure (bytes ++ rest)
    else do
      let next ← fatGetNextCluster ctx current
      readLoop turns next (alignement - ctx.clusterSize) size

/-- `fat_read_cluster_chain`; the alignment is a `uint32_t`. -/
def fatReadClusterChain (cluster alignement size : ℕ) : FatM (List UInt8) :=
  readLoop ctx loopBound cluster (alignement % 2 ^ 32) size

/-- The variables of `fat_write_cluster_chain` when its loop ends. -/
structure Cursor where
  current : ℕ
  next : ℕ
  /-- `size_to_write` of the last turn -/
  last : ℕ

/-- The cluster that a turn of the writing loop works on: the next one of the chain or a fresh
one behind `current`. -/
def nextOrFresh (current next : ℕ) : FatM (Option ℕ) :=
  if IsEnd next then do
    match ← fatAllocateCluster ctx with
    | none => pure none
    | some fresh =>
      fatSetNextCluster ctx current fresh
      pure (some fresh)
  else pure (some next)

def assertOk (m : FatM (Option Errno)) : FatM Unit := do
  match ← m with
  | none => pure ()
  | some _ => throw .panic

/-- A chunk of no bytes is not written. -/
def writeChunk (current alignement : ℕ) (bytes : List UInt8) : FatM Unit :=
  if bytes = [] then pure () else assertOk (fatWriteCluster ctx current alignement bytes)

/-- The loop of `fat_write_cluster_chain`: where it ends, or `none` when no cluster is left, and
the number of bytes that it has written. -/
def writeLoop : ℕ → Cursor → ℕ → List UInt8 → FatM (Option Cursor × ℕ)
  | 0, _, _, _ => throw .endlessLoop
  | turns + 1, cur, alignement, data =>
    if data = [] ∧ alignement = 0 then pure (some cur, 0)
    else do
      match ← nextOrFresh ctx cur.current cur.next with
      | none => pure (none, 0)
      | some current =>
        if alignement < ctx.clusterSize then
          let n := chunkSize ctx alignement data.length
          writeChunk ctx current alignement (data.take n)
          let next ← fatGetNextCluster ctx current
          let (cur, written) ← writeLoop turns ⟨current, next, n⟩ 0 (data.drop n)
          pure (cur, n + written)
        else
          let next ← fatGetNextCluster ctx current
          writeLoop turns ⟨current, next, cur.last⟩ (alignement - ctx.clusterSize) data

/-- `WRITE_CLUSTER_CHAIN_FLAG_FWZ`: zeros behind the last chunk, counted from the start of the
cluster. -/
def fillWithZero (cur : Cursor) : FatM Unit :=
  let fillStart := cur.last % 2 ^ 32
  let fillSize := wsub ctx.clusterSize fillStart
  assertOk (fatWriteCluster ctx cur.current fillStart (List.replicate fillSize 0))

/-- `WRITE_CLUSTER_CHAIN_FLAG_EOC`: the chain ends behind the cursor. -/
def endChain (cur : Cursor) : FatM Unit :=
  if IsEnd cur.next then pure ()
  else do
    fatFreeAllFollowingClusters ctx cur.next
    fatSetNextCluster ctx cur.current endOfClusterchain

def onlyIf (flag : Bool) (m : FatM Unit) : FatM Unit := if flag then m else pure ()

/-- `fat_write_cluster_chain`: its result and the number of bytes written. -/
def fatWriteClusterChain (cluster alignement : ℕ) (data : List UInt8) (eoc fwz : Bool) :
    FatM (Option Errno × ℕ) := do
  let (cur, written) ← writeLoop ctx loopBound ⟨cluster, cluster, 0⟩ (alignement % 2 ^ 32) data
  match cur with
  | none => pure (some .eio, written)
  | some cur =>
    onlyIf fwz (fillWithZero ctx cur)
    onlyIf eoc (endChain ctx cur)
    pure (none, written)

end

end Kot.Fat
