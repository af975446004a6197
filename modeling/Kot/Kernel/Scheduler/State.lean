import Mathlib.Data.Fin.Basic
import Kot.Kernel.Vector
import Kot.Kernel.Scheduler.Queue

/-! The data of `scheduler.c`: contexts, threads, processes, the wait list and the CPUs.
Threads and processes are named by arbitrary types; `G` is the type of the register contents
that the scheduler only copies. -/
namespace Kot.Kernel.Scheduler
open Kot.Lib

/-- `cpu_context_t` with the `context_info_t` it points to. -/
structure CpuContext (T G : Type) where
  thread : Option T
  infoCs : ℕ
  infoSs : ℕ
  rdi : ℕ
  rip : ℕ
  rsp : ℕ
  cs : ℕ
  ss : ℕ
  general : G

/-- `GDT_KERNEL_CODE * sizeof(gdt_entry_t)` -/
def kernelCode : ℕ := 8

def CpuContext.isKernel {T G : Type} (ctx : CpuContext T G) : Bool :=
  ctx.cs = kernelCode ∨ ctx.cs = 0

/-- `context_t` -/
structure Context (T G : Type) where
  cpuCtx : CpuContext T G
  simdCtx : G
  fsBase : ℕ

/-- A CPU between two scheduling decisions: the interrupted registers, the SIMD registers and
the base of `fs`. -/
structure Cpu (T G : Type) where
  ctx : CpuContext T G
  simd : G
  fsBase : ℕ

inductive SignalAction
  | default | ignore | user
  deriving DecidableEq

structure SignalHandler where
  handler : ℕ
  sigreturn : ℕ
  action : SignalAction

structure ChildResult where
  returnPid : ℤ
  returnStatus : ℤ
  deriving DecidableEq

structure WaitpidInfo (T : Type) where
  waitingThread : T
  pid : ℤ
  childResult : ChildResult

/-- The fields of a thread outside the run queue. -/
structure ThreadInfo (T P G : Type) where
  process : P
  ctx : Context T G
  signalRestoreCtx : Context T G
  signal : ℕ
  isIgnoringCtx : Bool
  isSignalToRestore : Bool
  isSignaling : Bool
  isPausing : Bool
  isExiting : Bool
  index : ℕ
  threadToFree : Option T

structure ProcessInfo (T P : Type) where
  pid : ℤ
  entryThread : Option T
  threads : List (Option T)
  parent : Option P
  childsResult : List ChildResult
  returnStatus : ℤ
  signalHandlers : ℕ → SignalHandler

/-- What is left to do of a call after its first critical section. -/
inductive Call (T : Type)
  | unpause (thread : T)
  | enqueue (thread : T)
  deriving DecidableEq

instance {T : Type} [DecidableEq T] : LawfulBEq (Call T) := inferInstance

/-- Where a thread stands in `scheduler_waitpid` after it has registered. -/
inductive WaitStage
  | outside
  /-- before `scheduler_generate_task_switching` -/
  | switching (info : ℕ)
  /-- behind it -/
  | returning (info : ℕ)
  deriving DecidableEq

/-- What happened so far, oldest first. -/
inductive Event (T : Type)
  /-- `scheduler_enqueue_wl`, and whether the thread was queued or current on another CPU -/
  | enqueued (thread : T) (clash : Bool)
  /-- a pausing thread is woken, and whether it was away: in no place to run from -/
  | woken (thread : T) (away : Bool)
  | ended (thread : T)
  /-- a signal is delivered to a user handler -/
  | delivered (thread : T)
  /-- the result of a child is given to a thread that waits for `pid` -/
  | reported (thread : T) (pid : ℤ) (result : ChildResult)
  /-- `scheduler_waitpid` returns -/
  | waited (thread : T) (result : ChildResult)
  deriving DecidableEq

/-- The scheduler on `n` CPUs. `calls` are the calls between two critical sections; `log` is
only written. -/
structure Sched (T P G : Type) (n : ℕ) where
  schedulerSpinlock : Bool
  queue : RunQueue T
  info : T → ThreadInfo T P G
  process : P → ProcessInfo T P
  waitpidList : List ℕ
  waitpidInfo : ℕ → WaitpidInfo T
  waitStage : T → WaitStage
  cpu : Fin n → Cpu T G
  iddleThread : Fin n → T
  calls : List (Call T)
  log : List (Event T)

variable {T P G : Type} {n : ℕ}

namespace Sched

/-- `ARCH_CONTEXT_CURRENT_THREAD` on a CPU. -/
def current (s : Sched T P G n) (c : Fin n) : Option T := (s.cpu c).ctx.thread

/-- `assert(!spinlock_acquire(&scheduler_spinlock))` by the holder of the lock never succeeds. -/
def acquire (s : Sched T P G n) : Except Fault (Sched T P G n) :=
  if s.schedulerSpinlock then .error .deadlock else .ok { s with schedulerSpinlock := true }

/-- The thread belongs to the scheduler. -/
def isIddle (s : Sched T P G n) (t : T) : Prop := ∃ d, s.iddleThread d = t

/-- The entry thread of a process that has a parent. -/
def isChildEntry (s : Sched T P G n) (t : T) : Prop :=
  (s.process (s.info t).process).entryThread = some t ∧
    (s.process (s.info t).process).parent ≠ none

def release (s : Sched T P G n) : Sched T P G n := { s with schedulerSpinlock := false }

def note (s : Sched T P G n) (e : Event T) : Sched T P G n := { s with log := s.log ++ [e] }

variable [DecidableEq T]

instance (s : Sched T P G n) (t : T) : Decidable (s.isIddle t) :=
  inferInstanceAs (Decidable (∃ _, _))

instance [DecidableEq P] (s : Sched T P G n) (t : T) : Decidable (s.isChildEntry t) :=
  inferInstanceAs (Decidable (_ ∧ _))

def modifyInfo (s : Sched T P G n) (t : T) (f : ThreadInfo T P G → ThreadInfo T P G) :
    Sched T P G n :=
  { s with info := Function.update s.info t (f (s.info t)) }

def modifyProcess [DecidableEq P] (s : Sched T P G n) (p : P) (f : ProcessInfo T P → ProcessInfo T P) :
    Sched T P G n :=
  { s with process := Function.update s.process p (f (s.process p)) }

def setCpu (s : Sched T P G n) (c : Fin n) (cpu : Cpu T G) : Sched T P G n :=
  { s with cpu := Function.update s.cpu c cpu }

/-- The thread is current on a CPU other than `on`. -/
def runsElsewhere (s : Sched T P G n) (on : Option (Fin n)) (t : T) : Bool :=
  ∃ d, on ≠ some d ∧ s.current d = some t

/-- The thread is neither queued nor about to be queued nor current on a CPU other than `on`. -/
def away (s : Sched T P G n) (on : Option (Fin n)) (t : T) : Bool :=
  !(s.queue.thread t).isInQueue && !s.runsElsewhere on t && !(.enqueue t ∈ s.calls : Bool)

/-- `scheduler_enqueue_wl`, during `scheduler_handler` on the CPU `on` or in another call. -/
def enqueueWl (s : Sched T P G n) (on : Option (Fin n)) (t : T) : Sched T P G n :=
  { s with queue := schedulerEnqueueWl s.queue t }.note
    (.enqueued t ((s.queue.thread t).isInQueue || s.runsElsewhere on t))

/-- `is_pausing = false` for a thread that is going to be queued. -/
def wake (s : Sched T P G n) (on : Option (Fin n)) (t : T) : Sched T P G n :=
  (s.modifyInfo t fun r => { r with isPausing := false }).note (.woken t (s.away on t))

/-- `scheduler_get_tread_wl` -/
def getTread (s : Sched T P G n) : Except Fault (Option T × Sched T P G n) :=
  match schedulerGetTreadWl s.queue with
  | none => .error .nullDereference
  | some (t, queue) => .ok (t, { s with queue })

/-- `context_save(thread->ctx, ctx)` -/
def contextSave (s : Sched T P G n) (c : Fin n) (t : T) : Sched T P G n :=
  s.modifyInfo t fun r =>
    { r with ctx := { r.ctx with cpuCtx := (s.cpu c).ctx, simdCtx := (s.cpu c).simd } }

/-- `context_restore(thread->ctx, ctx)` -/
def contextRestore (s : Sched T P G n) (c : Fin n) (t : T) : Sched T P G n :=
  let ctx := (s.info t).ctx
  s.setCpu c { ctx := ctx.cpuCtx, simd := ctx.simdCtx, fsBase := ctx.fsBase }

section
variable (s : Sched T P G n) (t a : T) (on : Option (Fin n))
  (f : ThreadInfo T P G → ThreadInfo T P G) (e : Event T)

theorem modifyInfo_info : (s.modifyInfo t f).info a = if a = t then f (s.info a) else s.info a := by
  by_cases h : a = t
  · subst h; simp [modifyInfo]
  · simp [modifyInfo, h]

theorem modifyInfo_modifyInfo (f' : ThreadInfo T P G → ThreadInfo T P G) :
    (s.modifyInfo t f).modifyInfo t f' = s.modifyInfo t fun r => f' (f r) := by
  simp [modifyInfo]

@[simp] theorem modifyInfo_queue : (s.modifyInfo t f).queue = s.queue := rfl

@[simp] theorem modifyInfo_cpu : (s.modifyInfo t f).cpu = s.cpu := rfl

@[simp] theorem modifyInfo_calls : (s.modifyInfo t f).calls = s.calls := rfl

@[simp] theorem modifyInfo_log : (s.modifyInfo t f).log = s.log := rfl

@[simp] theorem note_log : (s.note e).log = s.log ++ [e] := rfl

@[simp] theorem note_info : (s.note e).info = s.info := rfl

@[simp] theorem enqueueWl_queue : (s.enqueueWl on t).queue = schedulerEnqueueWl s.queue t := rfl

@[simp] theorem enqueueWl_info : (s.enqueueWl on t).info = s.info := rfl

@[simp] theorem enqueueWl_log : (s.enqueueWl on t).log =
    s.log ++ [.enqueued t ((s.queue.thread t).isInQueue || s.runsElsewhere on t)] := rfl

@[simp] theorem wake_log : (s.wake on t).log = s.log ++ [.woken t (s.away on t)] := rfl

theorem runsElsewhere_iff :
    s.runsElsewhere on t = true ↔ ∃ d, on ≠ some d ∧ s.current d = some t := by
  simp [runsElsewhere]

theorem away_iff : s.away on t = true ↔ (s.queue.thread t).isInQueue = false ∧
    s.runsElsewhere on t = false ∧ .enqueue t ∉ s.calls := by
  simp [away, and_assoc]

end

end Sched
end Kot.Kernel.Scheduler
