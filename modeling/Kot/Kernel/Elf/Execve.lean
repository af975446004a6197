import Kot.Kernel.Elf.Loading

/-! `execve` of a process (`scheduler_execve_syscall`) and the loader below it
(`load_elf_exec_with_file`): what an error leaves behind. -/
namespace Kot.Kernel.Elf

open Kot.Kernel.Mm (mmAllocateRegionVm)

/-- The codes that `execve` returns: its own, and those of `f_open`. -/
inductive ExecErrno
  | einval
  | ofOpen (code : ℕ)
  deriving DecidableEq, Repr

/-- The fields of the process that the calls change, the page tables that the processor uses, and
the files that are open. -/
structure Machine where
  memoryHandler : Ptr
  entryThread : Option Ptr
  threads : List Ptr
  space : ℕ
  openFiles : List (List UInt8)
  deriving DecidableEq, Repr

/-- What the calls find: the files by their paths, the old bytes of the stack, the new handler with
its address space, and the new thread. -/
structure ExecEnv where
  files : List UInt8 → Except ExecErrno (List UInt8)
  stack : List UInt8
  stale : ℕ → UInt8
  newHandler : Ptr
  newSpace : ℕ
  newThread : Ptr
  fresh : LoadState
  /-- the uninitialised `ld_segments_info` -/
  ldPath : Option (List UInt8)
  atPhdr : ℕ

inductive Outcome
  /-- an error is returned to the caller -/
  | refused (errno : ExecErrno) (m : Machine)
  /-- the new program runs and the calling thread ends -/
  | replaced (m : Machine)
  deriving DecidableEq, Repr

def elfClass64 : UInt8 := 2
def etExec : ℕ := 2
def etDyn : ℕ := 3
def dynamicLinkerBaseAddress : ℕ := 0x40000000
def processStackSize : ℕ := 0x400000

def Machine.fOpen (m : Machine) (path : List UInt8) : Machine :=
  { m with openFiles := path :: m.openFiles }

def Machine.fClose (m : Machine) (path : List UInt8) : Machine :=
  { m with openFiles := m.openFiles.erase path }

def Machine.spaceSwap (m : Machine) (space : ℕ) : Machine := { m with space }

/-- The checks of a header, in the order of the source; all of them give `EINVAL`. -/
def checkHeader (header : Ehdr) (type : ℕ) : Bool :=
  checkElfSignature header && header.ident[4]? == some elfClass64 && header.type == type

section Model

variable (A : Allocator) (env : ExecEnv)

def ExecEnv.header (file : List UInt8) : Ehdr := .ofBytes (headerBytes env.stack file)

/-- The end of `load_elf_exec_with_file`: the stack is allocated and the entry thread is made. -/
def createEntryThread (s : LoadState) (m : Machine) : Except Fault Machine := do
  let (errno, base, mm) ← mmAllocateRegionVm A s.mm 0 processStackSize false
  if errno ≠ .success then .error .panic
  else do
    let _ ← allocateMemoryBlock env.stale { s with mm } (base.getD 0) processStackSize
    if m.entryThread ≠ none then .error .panic
    else .ok { m with entryThread := some env.newThread, threads := env.newThread :: m.threads }

/-- The part of `load_elf_exec_with_file` for an executable with a dynamic linker; `restore` is the
address space of the caller. -/
def loadLinker (restore : ℕ) (s : LoadState) (m : Machine) (ldPath : List UInt8) :
    Except Fault (Option ExecErrno × Machine) :=
  match env.files ldPath with
  | .error e => .ok (some e, m.spaceSwap restore)
  | .ok ldFile =>
    let m := m.fOpen ldPath
    if ¬ checkHeader (env.header ldFile) etDyn then .ok (some .einval, m.fClose ldPath)
    else do
      let s ← loadElfExecSegments A env.stale ldFile (env.header ldFile) dynamicLinkerBaseAddress
        { s with ldPath := env.ldPath, atPhdr := env.atPhdr }
      let m ← createEntryThread A env s ((m.fClose ldPath).spaceSwap restore)
      .ok (none, m)

/-- `load_elf_exec_with_file` for a process with the new handler. -/
def loadElfExecWithFile (path file : List UInt8) (m : Machine) :
    Except Fault (Option ExecErrno × Machine) :=
  if ¬ checkHeader (env.header file) etExec then .ok (some .einval, m.fClose path)
  else do
    let s ← loadElfExecSegments A env.stale file (env.header file) 0 env.fresh
    let loaded := (m.spaceSwap env.newSpace).fClose path
    match s.ldPath with
    | some ldPath => loadLinker A env m.space s loaded ldPath
    | none => do
      let m ← createEntryThread A env s (loaded.spaceSwap m.space)
      .ok (none, m)

/-- `scheduler_execve_syscall`. -/
def execve (path : List UInt8) (m : Machine) : Except Fault Outcome :=
  match env.files path with
  | .error e => .ok (.refused e m)
  | .ok file => do
    let (error, m') ← loadElfExecWithFile A env path file
      { m.fOpen path with entryThread := none, memoryHandler := env.newHandler }
    match error with
    | some e =>
      .ok (.refused e { m' with entryThread := m.entryThread, memoryHandler := m.memoryHandler })
    | none => .ok (.replaced m')

end Model

/-- The executable is loaded and names a dynamic linker, which can be opened but is none. -/
def BadLinker (A : Allocator) (env : ExecEnv) (path : List UInt8) : Prop :=
  ∃ file s ldPath ldFile, env.files path = .ok file ∧
    checkHeader (env.header file) etExec = true ∧
    loadElfExecSegments A env.stale file (env.header file) 0 env.fresh = .ok s ∧
    s.ldPath = some ldPath ∧ env.files ldPath = .ok ldFile ∧
    checkHeader (env.header ldFile) etDyn = false

variable {A : Allocator} {env : ExecEnv} {path file : List UInt8} {m m' : Machine} {e : ExecErrno}

theorem Machine.fClose_fOpen (m : Machine) (path : List UInt8) : (m.fOpen path).fClose path = m := by
  unfold Machine.fClose Machine.fOpen
  simp only [List.erase_cons_head]

/-- The errors of the part for a dynamic linker: it cannot be opened, and the address space of the
caller is restored, or it is none, and the address space stays as it is. -/
theorem loadLinker_error {restore : ℕ} {s : LoadState} {ldPath : List UInt8}
    (h : loadLinker A env restore s m ldPath = .ok (some e, m')) :
    m' = m.spaceSwap restore ∨ (m' = m ∧ ∃ ldFile, env.files ldPath = .ok ldFile ∧
      checkHeader (env.header ldFile) etDyn = false) := by
  unfold loadLinker at h
  cases hfile : env.files ldPath with
  | error e' =>
    rw [hfile] at h
    have hm := (Prod.mk.inj (Except.ok.inj h)).2
    exact .inl hm.symm
  | ok ldFile =>
    rw [hfile] at h
    dsimp only at h
    split_ifs at h with hcheck
    · obtain ⟨s', -, h⟩ := bind_eq_ok h
      obtain ⟨m1, -, h⟩ := bind_eq_ok h
      cases h
    · have hm := (Prod.mk.inj (Except.ok.inj h)).2
      rw [Machine.fClose_fOpen] at hm
      exact .inr ⟨hm.symm, ldFile, rfl, by simpa using hcheck⟩

theorem loadElfExecWithFile_error (h : loadElfExecWithFile A env path file m = .ok (some e, m')) :
    m' = m.fClose path ∨ ∃ s ldPath ldFile, checkHeader (env.header file) etExec = true ∧
      loadElfExecSegments A env.stale file (env.header file) 0 env.fresh = .ok s ∧
      s.ldPath = some ldPath ∧ env.files ldPath = .ok ldFile ∧
      checkHeader (env.header ldFile) etDyn = false := by
  unfold loadElfExecWithFile at h
  split_ifs at h with hcheck
  · obtain ⟨s, hs, h⟩ := bind_eq_ok h
    cases hld : s.ldPath with
    | none =>
      rw [hld] at h
      obtain ⟨m1, -, h⟩ := bind_eq_ok h
      cases h
    | some ldPath =>
      rw [hld] at h
      rcases loadLinker_error h with hm | ⟨-, ldFile, hfile, hbad⟩
      · exact .inl hm
      · exact .inr ⟨s, ldPath, ldFile, hcheck, hs, hld, hfile, hbad⟩
  · exact .inl (Prod.mk.inj (Except.ok.inj h)).2.symm

theorem execve_badLinker (h : BadLinker A env path) :
    execve A env path m = .ok (.refused .einval (m.spaceSwap env.newSpace)) := by
  obtain ⟨file, s, ldPath, ldFile, hfile, hcheck, hs, hld, hldFile, hbad⟩ := h
  have hlinker : ∀ m restore, loadLinker A env restore s m ldPath = .ok (some .einval, m) := by
    intro m restore
    unfold loadLinker
    rw [hldFile]
    dsimp only
    rw [if_pos (by simp [hbad]), Machine.fClose_fOpen]
  unfold execve loadElfExecWithFile
  simp only [hfile, hcheck, hs, ok_bind, hld, hlinker, not_true_eq_false, if_false]
  have hopen := Machine.fClose_fOpen m path
  unfold Machine.fClose Machine.fOpen at hopen
  unfold Machine.fClose Machine.fOpen Machine.spaceSwap
  have hfiles := congrArg Machine.openFiles hopen
  rw [hfiles]

/-- An executable whose only header names the dynamic linker `l`. -/
def sampleInterpreted : List UInt8 :=
  [0x7f, 0x45, 0x4c, 0x46, 2] ++ List.replicate 11 0 ++ Lib.toLe 2 2 ++ List.replicate 14 0 ++
    Lib.toLe 8 64 ++ List.replicate 14 0 ++ Lib.toLe 2 56 ++ Lib.toLe 2 1 ++ List.replicate 6 0 ++
    Lib.toLe 8 3 ++ Lib.toLe 8 120 ++ List.replicate 16 0 ++ Lib.toLe 8 1 ++ List.replicate 16 0 ++
    [0x6c, 0]

/-- `p` is the executable, and `linker` is what the file `l` holds. -/
def sampleEnv (linker : Except ExecErrno (List UInt8)) : ExecEnv where
  files := fun path => if path = [0x70] then .ok sampleInterpreted else linker
  stack := []
  stale := fun _ => 0
  newHandler := 20
  newSpace := 0x5000
  newThread := 30
  fresh := sampleProcess
  ldPath := none
  atPhdr := 0

def sampleMachine : Machine := ⟨10, some 11, [11], 0x1000, []⟩

end Kot.Kernel.Elf
