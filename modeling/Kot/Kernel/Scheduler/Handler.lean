import Kot.Kernel.Scheduler.State

/-! `scheduler_handler` and what it calls with the lock held: the end of a thread, the delivery
of a signal, the choice of the next thread. -/
namespace Kot.Kernel.Scheduler
open Kot.Lib

variable {T P G : Type} {n : ℕ} [DecidableEq T] [DecidableEq P]

/-- A waiting thread gets the result of a child and is queued. -/
def waitpidReturn (s : Sched T P G n) (on : Option (Fin n)) (result : ChildResult)
    (info index : ℕ) : Except Fault (Sched T P G n) := do
  let waitpidList ← vectorRemove s.waitpidList index
  let waiting := (s.waitpidInfo info).waitingThread
  let s := { s with
    waitpidList
    waitpidInfo := Function.update s.waitpidInfo info
      { s.waitpidInfo info with childResult := result } }
  .ok (((s.wake on waiting).enqueueWl on waiting).note
    (.reported waiting (s.waitpidInfo info).pid result))

/-- The test of the loop in `exit_thread_routine`. -/
def waitsForAny (s : Sched T P G n) (parent : P) (info : ℕ) : Bool :=
  (s.process (s.info (s.waitpidInfo info).waitingThread).process).pid = (s.process parent).pid ∧
    (s.waitpidInfo info).pid = -1

/-- The result of a process whose entry thread ends. -/
def exitResult (s : Sched T P G n) (p : P) : ChildResult :=
  ⟨(s.process p).pid, (s.process p).returnStatus⟩

def exitThreadRoutine (s : Sched T P G n) (on : Option (Fin n)) (thread : T) :
    Except Fault (Sched T P G n) :=
  let p := (s.info thread).process
  if (s.process p).entryThread = some thread then
    match (s.process p).parent with
    | none => .ok s
    | some parent =>
      match s.waitpidList.zipIdx.find? fun w => waitsForAny s parent w.1 with
      | some (info, index) => waitpidReturn s on (exitResult s p) info index
      | none => .ok (s.modifyProcess parent fun r =>
          { r with childsResult := vectorPush r.childsResult (exitResult s p) })
  else .ok s

def sigkill : ℕ := 9

def exitsByDefault (signal : ℕ) : Bool := signal ∈ [6, 14, 7, 8, 1, 4, 2, 29, 9, 13, 30, 3, 11, 16]

def signalsCount : ℕ := 34

inductive HandleSignal
  | ignore | exit | execute
  deriving DecidableEq

/-- `context_signal`: the interrupted registers with the arguments of the handler. The address
of `sigreturn` that it stores on the stack of the thread is not modelled. -/
def contextSignal (handler : SignalHandler) (restore : CpuContext T G) (simd : G) (signal : ℕ)
    (ctx : Context T G) : Context T G :=
  let rsp := if restore.rsp % 8 ≠ 0 then wsub restore.rsp (restore.rsp % 8) else restore.rsp
  { ctx with
    cpuCtx := { restore with
      rdi := signal, rsp := wsub rsp 8, rip := handler.handler
      cs := restore.infoCs, ss := restore.infoSs }
    simdCtx := simd }

/-- The thread leaves the list of its process and is ended. -/
def endThread (s : Sched T P G n) (on : Option (Fin n)) (thread : T) :
    Except Fault (Sched T P G n) :=
  let r := s.info thread
  exitThreadRoutine ((s.modifyProcess r.process fun p =>
    { p with threads := vectorSet p.threads r.index none }).note (.ended thread)) on thread

/-- The context of the thread and the slot for the interrupted one change places. -/
def deliver (s : Sched T P G n) (c : Fin n) (thread : T) (handler : SignalHandler) (signal : ℕ) :
    Sched T P G n :=
  (s.modifyInfo thread fun r =>
    { r with
      ctx := contextSignal handler r.ctx.cpuCtx (s.cpu c).simd signal r.signalRestoreCtx
      signalRestoreCtx := r.ctx
      isSignalToRestore := true }).note (.delivered thread)

/-- The pending signal is taken out of its slot. -/
def takeSignal (s : Sched T P G n) (thread : T) : Sched T P G n :=
  s.modifyInfo thread fun r => { r with isSignaling := false, signal := 0 }

/-- The signal ends a thread of the process. -/
def ProcessInfo.isFatal (p : ProcessInfo T P) (signal : ℕ) : Prop :=
  signal = sigkill ∨ (p.signalHandlers (signal - 1)).action = .default ∧ exitsByDefault signal = true

instance (p : ProcessInfo T P) (signal : ℕ) : Decidable (p.isFatal signal) :=
  inferInstanceAs (Decidable (_ ∨ _ ∧ _))

def schedulerHandleSignal (s : Sched T P G n) (c : Fin n) (thread : T) :
    Except Fault (HandleSignal × Sched T P G n) :=
  if (s.info thread).isSignaling then do
    let signal := (s.info thread).signal
    let s := takeSignal s thread
    if signal = sigkill then
      let s ← endThread s (some c) thread
      .ok (.exit, s)
    else if signal = 0 ∨ signalsCount < signal then .error .strayAccess
    else
      let handler := (s.process (s.info thread).process).signalHandlers (signal - 1)
      match handler.action with
      | .default =>
        if exitsByDefault signal then
          let s ← endThread s (some c) thread
          .ok (.exit, s)
        else .ok (.ignore, s)
      | .user => .ok (.execute, deliver s c thread handler signal)
      | .ignore => .ok (.ignore, s)
  else .ok (.ignore, s)

/-- The thread that was running is saved and queued, parked or ended. -/
def retireEnding (s : Sched T P G n) (c : Fin n) (ending : T) : Except Fault (Sched T P G n) :=
  let s := s.modifyInfo ending fun r => { r with threadToFree := none }
  let r := s.info ending
  if r.isIgnoringCtx then
    .ok ((s.modifyInfo ending fun r => { r with isIgnoringCtx := false }).enqueueWl (some c) ending)
  else if r.isPausing then
    if r.isExiting then exitThreadRoutine (s.note (.ended ending)) (some c) ending
    else .ok (s.contextSave c ending)
  else .ok ((s.contextSave c ending).enqueueWl (some c) ending)

/-- The oldest queued thread, or the next one if a signal ends it. -/
def chooseStarting (s : Sched T P G n) (c : Fin n) : Except Fault (Option T × Sched T P G n) := do
  let (starting, s) ← s.getTread
  match starting with
  | none => .ok (none, s)
  | some t =>
    if (s.info t).ctx.cpuCtx.isKernel then .ok (some t, s)
    else
      let (handling, s) ← schedulerHandleSignal s c t
      if handling = .exit then
        let s ← exitThreadRoutine s (some c) t
        s.getTread
      else .ok (some t, s)

/-- A CPU whose thread is pausing falls back on its idle thread; another one goes on. -/
def fallback (s : Sched T P G n) (c : Fin n) (ending starting : Option T) : Option T :=
  match ending with
  | none => starting
  | some e => if (s.info e).isPausing then some (starting.getD (s.iddleThread c)) else starting

/-- `starting_thread->thread_to_free = ending_thread` for a thread that exits. -/
def passOn (s : Sched T P G n) (ending : Option T) (starting : T) : Sched T P G n :=
  match ending with
  | none => s
  | some e =>
    if (s.info e).isPausing ∧ (s.info e).isExiting then
      s.modifyInfo starting fun r => { r with threadToFree := some e }
    else s

def installStarting (s : Sched T P G n) (c : Fin n) (ending starting : Option T) : Sched T P G n :=
  match fallback s c ending starting with
  | none => s
  | some t => (passOn s ending t).contextRestore c t

def retire (s : Sched T P G n) (c : Fin n) : Except Fault (Sched T P G n) :=
  match s.current c with
  | none => .ok s
  | some e => retireEnding s c e

def schedulerHandler (s : Sched T P G n) (c : Fin n) (forceSwitching : Bool) :
    Except Fault (Sched T P G n) :=
  if !forceSwitching && s.schedulerSpinlock then .ok s
  else do
    let s ← s.acquire
    let ending := s.current c
    let s ← retire s c
    let (starting, s) ← chooseStarting s c
    .ok (installStarting s c ending starting).release

end Kot.Kernel.Scheduler
