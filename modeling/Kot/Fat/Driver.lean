import Kot.Fat.Directory

/-! The operations of the FAT32 driver on paths: adding, removing and renaming entries, files and
directories, and the functions that the virtual file system calls. -/
namespace Kot.Fat

open Kot.Kernel Kot.Lib

/-- What an operation finds around it. -/
structure Env where
  /-- `fat_get_current_time()` -/
  time : ℕ
  /-- `fat_get_current_date()` -/
  date : ℕ
  /-- what a fresh block of the heap holds -/
  stale : ℕ → UInt8
  /-- the bytes behind the end of the string that names the new entry -/
  behind : ℕ → UInt8

def freshBlock (stale : ℕ → UInt8) (size : ℕ) : List UInt8 := (List.range size).map stale

/-- No block of memory is as large as this. -/
def addressSpace : ℕ := 2 ^ 47

def deref {α : Type} : Option α → FatM α
  | none => throw .nullDereference
  | some a => pure a

section

variable (ctx : Context) (env : Env)

/-- `ctx->root_dir`: a cleared entry with the directory bit and the root cluster. -/
def Context.rootDir : Entry :=
  ((Entry.ofBytes []).put 11 [0x10]).setCluster ctx.bpb.rootClusterNumber.toNat

/-- `void* cluster_buffer = malloc(ctx->cluster_size)`. -/
def mallocBuffer : FatM Unit :=
  modify fun v => { v with buffer := freshBlock env.stale ctx.clusterSize }

/-- `fat_update_entry_with_path`; it has a buffer of its own, so the one of the caller stays. -/
def fatUpdateEntryWithPath (dir : Entry) (path : List UInt8) (entry : Entry) :
    FatM (Option Errno) := do
  let buffer := (← get).buffer
  mallocBuffer ctx env
  let info ← fatFindEntryInfoWithPath ctx dir path
  modify fun v => { v with buffer }
  match info with
  | none => pure (some .enoent)
  | some info => writePartition ctx info.sfnPosition entry.bytes

/-- `fat_add_entry_with_path`; the result of the write is not looked at. -/
def fatAddEntryWithPath (dir : Entry) (path : List UInt8) (entry : Entry) (useLfn : Bool) :
    FatM (Option Errno) := do
  match ← fatFindLastDirectory ctx dir path with
  | none => pure (some .enoent)
  | some (dir, name) =>
    let base := fatGetClusterEntry ctx dir
    match ← fatFindEntry ctx base name with
    | some _ => pure (some .eexist)
    | none =>
      let dirSize ← fatGetDirSize ctx dir
      let entries := newEntries entry name (freshBlock env.behind 3) useLfn
      let _ ← fatWriteClusterChain ctx base dirSize (entries.flatMap Entry.bytes) true false
      pure none

/-- The last part of `fat_remove_entry_with_path`: the entries behind the removed ones move to the
front. A block for more bytes than the memory has is not to be had. -/
def removeRange (base source destination sizeToCopy : ℕ) : FatM Unit :=
  if addressSpace ≤ sizeToCopy then throw .panic
  else do
    let bytes ← fatReadClusterChain ctx base source sizeToCopy
    -- a chain that ends early leaves the rest of the fresh block as it is
    let copy := bytes ++ (freshBlock env.stale sizeToCopy).drop bytes.length
    assertOk (Prod.fst <$> fatWriteClusterChain ctx base destination copy true true)

/-- `fat_remove_entry_with_path`: the lookup inside the last directory is made with the whole
path. -/
def fatRemoveEntryWithPath (dir : Entry) (path : List UInt8) : FatM (Option Errno) := do
  match ← fatFindLastDirectory ctx dir path with
  | none => pure (some .enoent)
  | some (dir, _) =>
    match ← fatFindEntryInfoWithPath ctx dir path with
    | none => pure (some .enoent)
    | some info =>
      let first := if info.lfnFirst ≠ noLfn then info.lfnFirst else info.sfnIndex
      let source := (info.sfnIndex + 1) % 2 ^ 32 * 32 % 2 ^ 32
      let destination := first * 32 % 2 ^ 32
      let dirSize ← fatGetDirSize ctx dir
      removeRange ctx env (fatGetClusterEntry ctx dir) source destination
        (wsub dirSize (wsub source destination))
      pure none

def fatClearEntryData (entry : Entry) : FatM Unit := fatFreeAllFollowingClusters ctx entry.cluster

/-- `fat_remove_and_clear_entry_with_path`. Without a last directory the pointer to the name is
not set and `strlen` reads through it. -/
def fatRemoveAndClearEntryWithPath (dir : Entry) (path : List UInt8) : FatM (Option Errno) := do
  match ← fatFindLastDirectory ctx dir path with
  | none => throw .strayAccess
  | some (parent, name) =>
    match ← fatFindEntryWithPath ctx parent name with
    | none => pure (some .enoent)
    | some entry =>
      assertOk (fatRemoveEntryWithPath ctx env parent name)
      fatClearEntryData ctx entry
      pure none

/-- The last part of `fat_rename_entry_with_path`: a directory gets a new entry `..`. -/
def updateDotDot (entry newDir : Entry) (newPath : List UInt8) : FatM (Option Errno) := do
  let (parent, _) ← deref (← fatFindLastDirectory ctx newDir newPath)
  let name := fatSetNameToSfn true [0x2E, 0x2E] (freshBlock env.behind 3)
  let special := (entry.put 0 name).setCluster (fatGetClusterEntry ctx parent)
  match ← fatUpdateEntryWithPath ctx env entry [0x2E, 0x2E] special with
  | some _ => pure (some .eio)
  | none => pure none

def fatRenameEntryWithPath (oldDir newDir : Entry) (oldPath newPath : List UInt8) :
    FatM (Option Errno) :=
  if newPath = [] ∨ oldPath = [] then pure (some .enoent)
  else do
    let entry ← deref (← fatFindEntryWithPath ctx oldDir oldPath)
    if fatGetClusterEntry ctx entry = ctx.bpb.rootClusterNumber.toNat then pure (some .eacces)
    else
      let newName ← deref (strrchr newPath)
      match ← fatAddEntryWithPath ctx env newDir newPath entry
          (fatIsNeedLfn newName (!entry.isDirectory)) with
      | some err => pure (some err)
      | none =>
        match ← fatRemoveEntryWithPath ctx env oldDir oldPath with
        | some err => pure (some err)
        | none => if entry.isDirectory then updateDotDot ctx env entry newDir newPath else pure none

/-- `fat_file_internal_t`. -/
structure File where
  entry : Entry
  path : List UInt8

/-- An entry with the current times and everything else cleared. -/
def newEntry (attributes : UInt8) : Entry :=
  .ofBytes <| List.replicate 11 0 ++ [attributes, 0, 0] ++ toLe 2 env.time ++ toLe 2 env.date ++
    toLe 2 env.date ++ [0, 0] ++ toLe 2 env.time ++ toLe 2 env.date

def fatCreateFile (path : List UInt8) : FatM (Option Errno) := do
  if path = [] then pure (some .enoent)
  else
    let fileName := (strrchr path).getD path
    fatAddEntryWithPath ctx env ctx.rootDir path (newEntry env 0) (fatIsNeedLfn fileName true)

def fatRemoveFile (path : List UInt8) : FatM (Option Errno) := do
  mallocBuffer ctx env
  match ← fatFindEntryWithPath ctx ctx.rootDir path with
  | none => pure (some .enoent)
  | some dir =>
    if dir.isDirectory then pure (some .eisdir)
    else fatRemoveAndClearEntryWithPath ctx env ctx.rootDir path

/-- The part of `fat_open_file` after the entry is found. -/
def openEntry (path : List UInt8) (entry : Entry) : FatM (Except Errno File) := do
  if entry.isDirectory then pure (.error .enoent)
  else if entry.lastAccessDate ≠ env.date % 2 ^ 16 then
    let entry := entry.setLastAccessDate env.date
    let _ ← fatUpdateEntryWithPath ctx env ctx.rootDir path entry
    pure (.ok ⟨entry, path⟩)
  else pure (.ok ⟨entry, path⟩)

/-- `fat_open_file`; `create` is the flag `O_CREAT`. -/
def fatOpenFile (path : List UInt8) (create : Bool) : FatM (Except Errno File) := do
  mallocBuffer ctx env
  match ← fatFindEntryWithPath ctx ctx.rootDir path with
  | some entry => openEntry ctx env path entry
  | none =>
    if create then
      match ← fatCreateFile ctx env path with
      | some err => pure (.error err)
      | none =>
        match ← fatFindEntryWithPath ctx ctx.rootDir path with
        | none => throw .panic
        | some entry => openEntry ctx env path entry
    else pure (.error .enoent)

/-- The bytes that `fat_file_read` puts into the buffer: a file without a cluster has none. -/
def readFrom (file : File) (start size : ℕ) : FatM (List UInt8) :=
  if file.entry.cluster ≠ 0 then fatReadClusterChain ctx file.entry.cluster start size
  else pure []

/-- `fat_file_read`: the bytes put into the buffer and `*size_read`. -/
def fatFileRead (file : File) (start size : ℕ) : FatM (List UInt8 × ℕ) := do
  let bytes ← readFrom ctx file start size
  let sizeRead := if wadd bytes.length start > file.entry.size then wsub file.entry.size start
    else bytes.length
  pure (bytes, sizeRead)

/-- The part of `fat_file_write` after the file has a cluster. -/
def writeFrom (file : File) (start : ℕ) (data : List UInt8) (isEndOfFile : Bool) :
    FatM (Option Errno × ℕ × File) := do
  let (err, written) ←
    fatWriteClusterChain ctx file.entry.cluster start data isEndOfFile false
  let entry := if isEndOfFile ∨ wadd start written > file.entry.size then
    file.entry.setSize (wadd start written) else file.entry
  let file := { file with entry := entry.setLastWrite env.time env.date }
  let _ ← fatUpdateEntryWithPath ctx env ctx.rootDir file.path file.entry
  pure (err, written, file)

/-- `fat_file_write`: its result, `*size_write` and the handle afterwards. A request of size 0
leaves `*size_write` as the caller has it. -/
def fatFileWrite (file : File) (start : ℕ) (data : List UInt8) (sizeWrite : ℕ)
    (isEndOfFile : Bool) : FatM (Option Errno × ℕ × File) := do
  if data = [] then pure (none, sizeWrite, file)
  else if file.entry.cluster = 0 then
    match ← fatAllocateCluster ctx with
    | none => pure (some .eio, sizeWrite, file)
    | some cluster =>
      writeFrom ctx env { file with entry := file.entry.setCluster cluster } start data isEndOfFile
  else writeFrom ctx env file start data isEndOfFile

def addDotEntries (path : List UInt8) (entry : Entry) : FatM Unit := do
  assertOk (fatAddEntryWithPath ctx env entry [0x2E] entry false)
  let (parent, _) ← deref (← fatFindLastDirectory ctx ctx.rootDir path)
  let cluster := fatGetClusterEntry ctx parent
  let cluster := if cluster = ctx.bpb.rootClusterNumber.toNat then 0 else cluster
  assertOk (fatAddEntryWithPath ctx env entry [0x2E, 0x2E] (entry.setCluster cluster) false)

def fatCreateDir (path : List UInt8) : FatM (Option Errno) := do
  if path = [] then pure (some .enoent)
  else
    let dirName := (strrchr path).getD path
    match ← fatAllocateCluster ctx with
    | none => pure (some .enomem)
    | some base =>
      assertOk (fatWriteCluster ctx base 0 (List.replicate ctx.clusterSize 0))
      let entry := (newEntry env 0x10).setCluster base
      mallocBuffer ctx env
      match ← fatAddEntryWithPath ctx env ctx.rootDir path entry (fatIsNeedLfn dirName true) with
      | some err =>
        fatFreeCluster ctx base
        pure (some err)
      | none =>
        addDotEntries ctx env path entry
        pure none

/-- `DIR_MINIMUM_SIZE * ENTRY_SIZE`: the macro is the product of two sizes already. -/
def dirMinimum : ℕ := 32 * 2 * 32

def fatRemoveDir (path : List UInt8) : FatM (Option Errno) := do
  mallocBuffer ctx env
  let dir ← deref (← fatFindEntryWithPath ctx ctx.rootDir path)
  if dir.isDirectory then
    if fatGetClusterEntry ctx dir = ctx.bpb.rootClusterNumber.toNat then pure (some .eacces)
    else if (← fatGetDirSize ctx dir) > dirMinimum then pure (some .enotempty)
    else fatRemoveAndClearEntryWithPath ctx env ctx.rootDir path
  else pure (some .enotdir)

def fatRename (oldPath newPath : List UInt8) : FatM (Option Errno) := do
  mallocBuffer ctx env
  fatRenameEntryWithPath ctx env ctx.rootDir ctx.rootDir oldPath newPath

/-- The entry that `fat_open_dir` looks at: the empty path is the root directory. -/
def findDir (path : List UInt8) : FatM (Option Entry) :=
  if path = [] then pure (some ctx.rootDir) else fatFindEntryWithPath ctx ctx.rootDir path

/-- `fat_open_dir`: the entry of the directory. -/
def fatOpenDir (path : List UInt8) : FatM (Except Errno Entry) := do
  mallocBuffer ctx env
  match ← findDir ctx path with
  | none => pure (.error .enoent)
  | some dir => if dir.isDirectory then pure (.ok dir) else pure (.error .enoent)

/-- `fat_interface_dir_get_directory_entries`: the records and the new position. -/
def fatListDir (dir : Entry) (maxEntryCount position : ℕ) : FatM (List Dirent × ℕ) := do
  mallocBuffer ctx env
  let ((records, st), _) ← withCache ctx (fatGetClusterEntry ctx dir) fun read k => do
    let (records, st, k) ← listLoop read ctx.bpb.rootClusterNumber.toNat maxEntryCount position k
    .ok ((records, st), k)
  pure (records, st.index)

/-! The interface of the virtual file system. -/

/-- `kernel_file_t`: a file and its seek position. -/
structure KernelFile where
  file : File
  seekPosition : ℕ

/-- `fat_interface_convert_path`: a slash at the end and one at the start are dropped. -/
def convertPath (path : List UInt8) : List UInt8 :=
  let path := if path.getLast? = some 0x2F then path.dropLast else path
  if path.head? = some 0x2F then path.tail else path

def fatInterfaceFileRead (f : KernelFile) (size : ℕ) : FatM (List UInt8 × ℕ × KernelFile) := do
  let (bytes, sizeRead) ← fatFileRead ctx f.file f.seekPosition size
  pure (bytes, sizeRead, { f with seekPosition := wadd f.seekPosition sizeRead })

/-- `fat_interface_file_write`: every write ends the file. -/
def fatInterfaceFileWrite (f : KernelFile) (data : List UInt8) (sizeWrite : ℕ) :
    FatM (Option Errno × ℕ × KernelFile) := do
  let (err, written, file) ← fatFileWrite ctx env f.file f.seekPosition data sizeWrite true
  pure (err, written, ⟨file, wadd f.seekPosition written⟩)

end

end Kot.Fat
