import Kot.Fat.Names
import Kot.Fat.Volume

/-! Scans of a directory: the reader of single entries with its cluster cache, the size of a
directory, the search for a name and the listing. -/
namespace Kot.Fat

open Kot.Kernel Kot.Lib

def entryAt (bytes : List UInt8) (i : ℕ) : Entry := .ofBytes (bytes.drop (32 * i))

/-- The variables of a caller of `fat_read_entry_with_cache`. -/
structure Cache where
  /-- `cluster_buffer` -/
  buffer : List UInt8
  /-- `cluster_cache_id_count_from_base`: one more than the place of the cluster in its chain -/
  id : ℕ
  /-- `last_cluster_read` -/
  last : ℕ

section

variable (ctx : Context) (v : Volume)

/-- `count` steps along a chain; `none` where the chain ends. -/
def followChain : (count cluster : ℕ) → Except Fault (Option ℕ)
  | 0, cluster => .ok (some cluster)
  | count + 1, cluster =>
    if cluster < ctx.fatEntryCount then
      let next := v.fat cluster % 2 ^ 28
      if IsEnd next then .ok none else followChain count next
    else .error .strayAccess

/-- `fat_read_entry_with_cache`. A cluster that the partition refuses leaves the buffer as it is;
clusters without room for an entry make the division fail. -/
def fatReadEntryWithCache (base number : ℕ) (k : Cache) : Except Fault (Option Entry × Cache) :=
  if ctx.entriesPerCluster = 0 then .error .panic
  else
    let count := number / ctx.entriesPerCluster
    let id := (k.id + 2 ^ 32 - 1) % 2 ^ 32
    if count ≠ id then do
      let (cluster, index) := if id ≠ 0 ∧ count > id then (k.last, id) else (base, 0)
      match ← followChain ctx v (count - index) cluster with
      | none => .ok (none, { k with id })
      | some cluster =>
        let buffer := (fatReadCluster ctx v.disk cluster 0 ctx.clusterSize).getD k.buffer
        .ok (some (entryAt buffer (number % ctx.entriesPerCluster)), ⟨buffer, count + 1, cluster⟩)
    else .ok (some (entryAt k.buffer (number % ctx.entriesPerCluster)), k)

end

section

variable {κ β : Type} (read : ℕ → κ → Except Fault (Option Entry × κ))

/-- The loop of `fat_get_dir_size`: one more than the place of the last valid entry. -/
def dirSizeLoop : ℕ → ℕ → ℕ → κ → Except Fault (ℕ × κ)
  | 0, _, _, _ => .error .endlessLoop
  | turns + 1, index, last, k => do
    match ← read index k with
    | (none, k) => .ok (last, k)
    | (some e, k) =>
      let index := (index + 1) % 2 ^ 32
      dirSizeLoop turns index (if e.Valid then index else last) k

/-- The long name in `order` entries from `index` on: the first entry has the last piece. A
missing entry is parsed all the same. -/
def readLfn : (order index : ℕ) → List UInt8 → κ → Except Fault (Name × κ)
  | 0, _, name, k => .ok (name.takeWhile (· ≠ 0), k)
  | order + 1, index, name, k => do
    match ← read index k with
    | (none, _) => .error .nullDereference
    | (some e, k) => readLfn order ((index + 1) % 2 ^ 32) (fatParseLfn e ++ name) k

structure Item where
  entry : Entry
  /-- the long name before it, or else the short one -/
  name : Name
  /-- the place of the entry in its directory -/
  index : ℕ
  /-- the place of the first entry of its long name -/
  lfnFirst : ℕ
  deriving DecidableEq

/-- `last_entry_index_lfn = -1`, read back as `uint32_t`. -/
def noLfn : ℕ := 2 ^ 32 - 1

structure Scan where
  index : ℕ
  isLastEntryLfn : Bool
  name : Name
  lfnFirst : ℕ

/-- The name that a short entry gets and the place where it starts. -/
def Scan.item (st : Scan) (e : Entry) : Item :=
  if st.isLastEntryLfn then ⟨e, st.name, st.index, st.lfnFirst⟩
  else ⟨e, fatParseSfn e, st.index, noLfn⟩

/-- The loop that `fat_find_entry`, `fat_find_entry_info` and the listing share. `nameSize` is the
size of the buffer for names, `more` says whether the loop goes on, and `visit` handles a short
entry and says whether the scan ends with it. -/
def scanLoop (nameSize : ℕ) (more : β → Bool) (visit : β → Item → β × Bool) :
    ℕ → Scan → κ → β → Except Fault (β × Scan × κ)
  | 0, _, _, _ => .error .endlessLoop
  | turns + 1, st, k, b => do
    match ← read st.index k with
    | (none, k) => .ok (b, st, k)
    | (some e, k) =>
      if !more b then .ok (b, st, k)
      else if ¬ e.Valid then
        scanLoop nameSize more visit turns { st with index := (st.index + 1) % 2 ^ 32 } k b
      else if e.IsLfn then
        if nameSize ≤ lfnNameSize * e.order then .error .strayAccess
        else
          let (name, k) ← readLfn read e.order st.index [] k
          scanLoop nameSize more visit turns
            ⟨(st.index + e.order) % 2 ^ 32, true, name, st.index⟩ k b
      else
        let item := st.item e
        let st := { st with isLastEntryLfn := false, name := item.name, lfnFirst := item.lfnFirst }
        let (b, stop) := visit b item
        if stop then .ok (b, st, k)
        else scanLoop nameSize more visit turns { st with index := (st.index + 1) % 2 ^ 32 } k b

def Scan.start (index : ℕ) : Scan := ⟨index, false, [], 0⟩

def searchLoop (nameSize : ℕ) (name : Name) (k : κ) : Except Fault (Option Item × Scan × κ) :=
  scanLoop read nameSize (fun _ => true)
    (fun _ item => if item.name = name then (some item, true) else (none, false))
    loopBound (.start 0) k none

structure Dirent where
  ino : ℕ
  off : ℕ
  isDirectory : Bool
  name : Name
  deriving DecidableEq

/-- A listing of at most `maxEntryCount` entries from a position on; the name buffer is the
`d_name` of a `dirent_t`. -/
def listLoop (rootCluster maxEntryCount position : ℕ) (k : κ) :
    Except Fault (List Dirent × Scan × κ) :=
  scanLoop read 1024 (fun l => l.length < maxEntryCount)
    (fun l item =>
      let cluster := if item.entry.cluster = 0 then rootCluster else item.entry.cluster
      (l ++ [⟨cluster, item.index, item.entry.isDirectory, item.name⟩], false))
    loopBound (.start position) k []

end

section

variable (ctx : Context)

/-- Runs a scan of the directory that starts at `base` with an empty cache. -/
def withCache {α : Type} (base : ℕ)
    (scan : (ℕ → Cache → Except Fault (Option Entry × Cache)) → Cache → Except Fault (α × Cache)) :
    FatM (α × Cache) := fun v => do
  let (a, k) ← scan (fatReadEntryWithCache ctx v base) ⟨v.buffer, 0, 0⟩
  .ok ((a, k), { v with buffer := k.buffer })

def fatGetClusterEntry (dir : Entry) : ℕ :=
  if dir.cluster = 0 then ctx.bpb.rootClusterNumber.toNat else dir.cluster

def fatGetDirSize (dir : Entry) : FatM ℕ := do
  let (last, _) ← withCache ctx (fatGetClusterEntry ctx dir) fun read k =>
    dirSizeLoop read loopBound 0 0 k
  pure (last * 32)

def fatFindEntry (current : ℕ) (name : Name) : FatM (Option Entry) := do
  let (item, _) ← withCache ctx current fun read k => do
    let (item, _, k) ← searchLoop read 257 name k
    .ok (item, k)
  pure (item.map Item.entry)

/-- What `fat_find_entry_info` returns. -/
structure EntryInfo where
  sfnPosition : ℕ
  sfnIndex : ℕ
  lfnFirst : ℕ

def fatFindEntryInfo (current : ℕ) (name : Name) : FatM (Option EntryInfo) := do
  let (item, k) ← withCache ctx current fun read k => do
    let (item, _, k) ← searchLoop read 256 name k
    .ok (item, k)
  pure (item.map fun item =>
    ⟨ctx.clusterPosition k.last + item.index % ctx.entriesPerCluster * 32, item.index,
      item.lfnFirst⟩)

def descend (dir : Entry) : List Name → FatM (Option Entry)
  | [] => pure (some dir)
  | name :: names => do
    match ← fatFindEntry ctx (fatGetClusterEntry ctx dir) name with
    | none => pure none
    | some dir => if dir.isDirectory then descend dir names else pure none

/-- `fat_find_last_directory`: the directory and the last name of the path. -/
def fatFindLastDirectory (dir : Entry) (path : List UInt8) : FatM (Option (Entry × Name)) := do
  let (names, last) := splitPath path
  let dir ← descend ctx dir names
  pure (dir.map fun dir => (dir, last))

def fatFindEntryInfoWithPath (dir : Entry) (path : List UInt8) : FatM (Option EntryInfo) := do
  match ← fatFindLastDirectory ctx dir path with
  | none => pure none
  | some (dir, name) => fatFindEntryInfo ctx (fatGetClusterEntry ctx dir) name

def fatFindEntryWithPath (dir : Entry) (path : List UInt8) : FatM (Option Entry) := do
  match ← fatFindLastDirectory ctx dir path with
  | none => pure none
  | some (dir, name) => fatFindEntry ctx (fatGetClusterEntry ctx dir) name

end

end Kot.Fat
