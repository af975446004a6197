import Kot.Fat.Mount
import Kot.Lib.Run

/-! Calls of the FAT32 driver by its users, and the steps on the volume that every call is made
of: allocating, freeing and linking clusters, writing into clusters and over entries, and filling
the cluster buffer. -/
namespace Kot.Fat

open Kot.Kernel Kot.Lib Function

structure UserBuffer where
  bytes : List UInt8
  fits : bytes.length < addressSpace

structure Session where
  volume : Volume
  files : ℕ → Option KernelFile

inductive Call
  /-- opens a file, and creates it first if it is missing and `create` is set -/
  | fileOpen (handle : ℕ) (path : List UInt8) (create : Bool)
  | fileClose (handle : ℕ)
  | fileRead (handle size : ℕ)
  /-- `sizeWrite` is what the variable for the result holds -/
  | fileWrite (handle : ℕ) (data : UserBuffer) (sizeWrite : ℕ)
  | fileSeek (handle position : ℕ)
  | fileRemove (path : List UInt8)
  | dirCreate (path : List UInt8)
  | dirRemove (path : List UInt8)
  | dirList (path : List UInt8) (maxEntryCount position : ℕ)
  | rename (oldPath newPath : List UInt8)

section

variable (ctx : Context)

def perform (s : Session) (env : Env) : Call → Except Fault Session
  | .fileOpen handle path create => do
    let (file, volume) ← fatOpenFile ctx env (convertPath path) create s.volume
    .ok ⟨volume, match file with
      | .error _ => s.files
      | .ok file => update s.files handle (some ⟨file, 0⟩)⟩
  | .fileClose handle => .ok { s with files := update s.files handle none }
  | .fileRead handle size =>
    match s.files handle with
    | none => .ok s
    | some f => do
      let ((_, _, f), volume) ← fatInterfaceFileRead ctx f size s.volume
      .ok ⟨volume, update s.files handle (some f)⟩
  | .fileWrite handle data sizeWrite =>
    match s.files handle with
    | none => .ok s
    | some f => do
      let ((_, _, f), volume) ← fatInterfaceFileWrite ctx env f data.bytes sizeWrite s.volume
      .ok ⟨volume, update s.files handle (some f)⟩
  | .fileSeek handle position =>
    match s.files handle with
    | none => .ok s
    | some f => .ok { s with
        files := update s.files handle (some { f with seekPosition := position }) }
  | .fileRemove path => do
    let (_, volume) ← fatRemoveFile ctx env (convertPath path) s.volume
    .ok { s with volume }
  | .dirCreate path => do
    let (_, volume) ← fatCreateDir ctx env (convertPath path) s.volume
    .ok { s with volume }
  | .dirRemove path => do
    let (_, volume) ← fatRemoveDir ctx env (convertPath path) s.volume
    .ok { s with volume }
  | .dirList path maxEntryCount position => do
    let (dir, volume) ← fatOpenDir ctx env (convertPath path) s.volume
    match dir with
    | .error _ => .ok { s with volume }
    | .ok dir => do
      let (_, volume) ← fatListDir ctx env dir maxEntryCount position volume
      .ok { s with volume }
  | .rename oldPath newPath => do
    let (_, volume) ← fatRename ctx env (convertPath oldPath) (convertPath newPath) s.volume
    .ok { s with volume }

def callStep (s : Session) (c : Call × Env) (t : Session) : Prop := perform ctx s c.2 c.1 = .ok t

inductive Step : Volume → Volume → Prop
  | allocate {v v' : Volume} (cluster : Option ℕ) :
      fatAllocateCluster ctx v = .ok (cluster, v') → Step v v'
  | free {v v' : Volume} (cluster : ℕ) : fatFreeCluster ctx cluster v = .ok ((), v') → Step v v'
  | link {v v' : Volume} (current next : ℕ) :
      fatSetNextCluster ctx current next v = .ok ((), v') → Step v v'
  | writeCluster {v v' : Volume} (cluster alignement : ℕ) (bytes : List UInt8)
      (err : Option Errno) : alignement ≤ ctx.clusterSize → bytes.length ≤ ctx.clusterSize →
      fatWriteCluster ctx cluster alignement bytes v = .ok (err, v') → Step v v'
  | writeEntry {v v' : Volume} (cluster index : ℕ) (entry : Entry) (err : Option Errno) :
      index < ctx.entriesPerCluster →
      writePartition ctx (ctx.clusterPosition cluster + index * 32) entry.bytes v = .ok (err, v') →
      Step v v'
  | fill (v : Volume) (buffer : List UInt8) : Step v { v with buffer }

end

end Kot.Fat
