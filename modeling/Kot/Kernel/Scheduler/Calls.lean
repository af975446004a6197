import Mathlib.Data.Fintype.Sum
import Mathlib.Data.List.FinRange
import Kot.Kernel.Scheduler.Handler

/-! The calls of the scheduler, cut into their critical sections, and the steps of a system of
CPUs: every section is one step, and a CPU runs its thread between two calls of
`scheduler_handler`. -/
namespace Kot.Kernel.Scheduler
open Kot.Lib Function

variable {T P G : Type} {n : ℕ} [DecidableEq T] [DecidableEq P]

def schedulerEnqueue (s : Sched T P G n) (thread : T) : Except Fault (Sched T P G n) := do
  let s ← s.acquire
  .ok (s.enqueueWl none thread).release

def schedulerDequeue (s : Sched T P G n) (thread : T) : Except Fault (Sched T P G n) := do
  let s ← s.acquire
  match schedulerDequeueWl s.queue thread with
  | none => .error .nullDereference
  | some queue => .ok { s with queue }.release

/-- The section of `scheduler_pause_thread`, and whether the call goes on to switch. -/
def pauseSection (s : Sched T P G n) (thread : T) : Except Fault (Bool × Sched T P G n) := do
  let s ← s.acquire
  if (s.info thread).isPausing ∨ (s.info thread).isExiting then .ok (false, s.release)
  else if (s.queue.thread thread).isInQueue then
    let s ← schedulerDequeue s thread
    .ok (false, s.release)
  else .ok (true, (s.modifyInfo thread fun r => { r with isPausing := true }).release)

/-- The first section of `scheduler_unpause_thread` and the rest of the call. -/
def unpauseSection (s : Sched T P G n) (thread : T) :
    Except Fault (Option (Call T) × Sched T P G n) := do
  let s ← s.acquire
  if (s.info thread).isPausing then .ok (some (.enqueue thread), (s.wake none thread).release)
  else .ok (none, s.release)

/-- The section of `scheduler_signal_thread` and the rest of the call. -/
def signalSection (s : Sched T P G n) (thread : T) (signal : ℕ) :
    Except Fault (Option (Call T) × Sched T P G n) := do
  let s ← s.acquire
  let s := s.modifyInfo thread fun r => { r with isSignaling := true, signal := signal }
  .ok (if (s.info thread).isPausing then some (.unpause thread) else none, s.release)

def callSection (s : Sched T P G n) : Call T → Except Fault (Option (Call T) × Sched T P G n)
  | .unpause t => unpauseSection s t
  | .enqueue t => do
    let s ← schedulerEnqueue s t
    .ok (none, s)

/-- The section of `scheduler_exit_thread`, and whether the call goes on to switch. -/
def exitSection (s : Sched T P G n) (thread : T) : Except Fault (Bool × Sched T P G n) := do
  let s ← s.acquire
  let s := s.modifyProcess (s.info thread).process fun p =>
    { p with threads := vectorSet p.threads (s.info thread).index none }
  if (s.queue.thread thread).isInQueue then
    let s ← exitThreadRoutine (s.note (.ended thread)) none thread
    let s ← schedulerDequeue s thread
    .ok (false, s.release)
  else
    .ok (true, (s.modifyInfo thread fun r =>
      { r with isPausing := true, isExiting := true }).release)

/-- A stored result is taken: the loop returns at its first turn. -/
def takeResult (s : Sched T P G n) (t : T) (pid : ℤ) (result : ChildResult) :
    Except Fault (Sched T P G n) := do
  let childsResult ← vectorRemove (s.process (s.info t).process).childsResult 0
  .ok (((s.modifyProcess (s.info t).process fun p => { p with childsResult }).release.note
    (.reported t pid result)).note (.waited t result))

/-- The thread joins the wait list with the record `info` and pauses. -/
def register (s : Sched T P G n) (t : T) (pid : ℤ) (info : ℕ) : Sched T P G n :=
  ({ s with
    waitpidInfo := update s.waitpidInfo info ⟨t, pid, ⟨0, 0⟩⟩
    waitpidList := vectorPush s.waitpidList info
    waitStage := update s.waitStage t (.switching info) }.modifyInfo t fun r =>
      { r with isPausing := true }).release

/-- The section of `scheduler_waitpid` on a CPU; `info` is the block that `malloc` returns. -/
def waitpidSection (s : Sched T P G n) (c : Fin n) (pid : ℤ) (info : ℕ) :
    Except Fault (Sched T P G n) := do
  let s ← s.acquire
  match s.current c with
  | none => .error .nullDereference
  | some t =>
    match (s.process (s.info t).process).childsResult with
    | result :: _ => if pid = -1 then takeResult s t pid result else .ok (register s t pid info)
    | [] => .ok (register s t pid info)

/-- The end of `scheduler_waitpid` behind the switch: the result is read from the record. -/
def waitpidFinish (s : Sched T P G n) (c : Fin n) : Except Fault (Sched T P G n) :=
  match s.current c with
  | none => .error .nullDereference
  | some t =>
    match s.waitStage t with
    | .returning info =>
      .ok ({ s with waitStage := update s.waitStage t .outside }.note
        (.waited t (s.waitpidInfo info).childResult))
    | _ => .ok s

/-- The current thread of a CPU passes on to the switch, if it is in `scheduler_waitpid`. -/
def passSwitch (s : Sched T P G n) (c : Fin n) : Sched T P G n :=
  { s with
    waitStage := match s.current c with
      | none => s.waitStage
      | some t => match s.waitStage t with
        | .switching info => update s.waitStage t (.returning info)
        | _ => s.waitStage }

/-- `scheduler_generate_task_switching` by the current thread of a CPU. -/
def taskSwitch (s : Sched T P G n) (c : Fin n) : Except Fault (Sched T P G n) :=
  schedulerHandler (passSwitch s c) c true

/-- The section of `scheduler_sigrestore` by the current thread of a CPU. -/
def sigrestoreSection (s : Sched T P G n) (c : Fin n) : Except Fault (Sched T P G n) :=
  match s.current c with
  | none => .error .nullDereference
  | some t =>
    if (s.info t).isSignalToRestore then do
      let s ← s.acquire
      .ok (s.modifyInfo t fun r =>
        { r with
          ctx := r.signalRestoreCtx
          signalRestoreCtx := r.ctx
          isSignalToRestore := false
          isIgnoringCtx := true }).release
    else .ok s

/-- `scheduler_pause_thread` by the current thread of a CPU, with or without its context. -/
def schedulerPauseThread (s : Sched T P G n) (c : Fin n) (ctx : Bool) (thread : T) :
    Except Fault (Sched T P G n) := do
  let (goesOn, s) ← pauseSection s thread
  if goesOn ∧ (ctx → s.current c = some thread) then taskSwitch s c else .ok s

/-- The rest of a call, section after section. -/
def finishCall (s : Sched T P G n) : Option (Call T) → Except Fault (Sched T P G n)
  | none => .ok s
  | some (.enqueue t) => schedulerEnqueue s t
  | some (.unpause t) => do
    let (call, s) ← unpauseSection s t
    match call with
    | none => .ok s
    | some _ => schedulerEnqueue s t

def schedulerUnpauseThread (s : Sched T P G n) (thread : T) : Except Fault (Sched T P G n) := do
  let (call, s) ← unpauseSection s thread
  finishCall s call

def schedulerSignalThread (s : Sched T P G n) (thread : T) (signal : ℕ) :
    Except Fault (Sched T P G n) := do
  let (call, s) ← signalSection s thread signal
  finishCall s call

def schedulerExitThread (s : Sched T P G n) (c : Fin n) (ctx : Bool) (thread : T) :
    Except Fault (Sched T P G n) := do
  let (goesOn, s) ← exitSection s thread
  if goesOn ∧ (ctx → s.current c = some thread) then taskSwitch s c else .ok s

/-- One turn of the loop of `scheduler_exit_process`. -/
def exitOther (c : Fin n) (p : P) (s : Sched T P G n) (i : ℕ) : Except Fault (Sched T P G n) :=
  match ((s.process p).threads[i]?).join with
  | none => .ok s
  | some t => if s.current c = some t then .ok s else schedulerExitThread s c true t

def schedulerExitProcess (s : Sched T P G n) (c : Fin n) (p : P) : Except Fault (Sched T P G n) := do
  let s ← (List.range (s.process p).threads.length).foldlM (exitOther c p) s
  match s.current c with
  | none => .error .nullDereference
  | some t => schedulerExitThread s c true t

/-- `scheduler_waitpid` up to the switch, if it comes to one. -/
def schedulerWaitpid (s : Sched T P G n) (c : Fin n) (pid : ℤ) (info : ℕ) :
    Except Fault (Sched T P G n) := do
  let s ← waitpidSection s c pid info
  match (s.current c).map s.waitStage with
  | some (.switching _) => taskSwitch s c
  | _ => .ok s

inductive SchedOp (T G : Type) (n : ℕ)
  /-- the timer of a CPU -/
  | handler (c : Fin n)
  /-- the thread of a CPU gives up the CPU -/
  | taskSwitch (c : Fin n)
  /-- the thread of a CPU changes the registers -/
  | execute (c : Fin n) (cpu : Cpu T G)
  | launch (thread : T)
  | pause (thread : T)
  | unpause (thread : T)
  | signal (thread : T) (signal : ℕ)
  /-- the next section of a call that has begun -/
  | resume (index : ℕ)
  | exitThread (thread : T)
  | waitpid (c : Fin n) (pid : ℤ) (info : ℕ)
  | waitpidFinish (c : Fin n)
  | sigrestore (c : Fin n)

/-- The rest of a call waits for its next section. -/
def pend (r : Except Fault (Option (Call T) × Sched T P G n)) : Except Fault (Sched T P G n) := do
  let (call, s) ← r
  .ok { s with calls := s.calls ++ call.toList }

/-- The next section of the `i`-th call in flight. -/
def resumeCall (s : Sched T P G n) (i : ℕ) : Except Fault (Sched T P G n) :=
  match s.calls[i]? with
  | none => .ok s
  | some call => pend (callSection { s with calls := s.calls.eraseIdx i } call)

def schedPerform (s : Sched T P G n) : SchedOp T G n → Except Fault (Sched T P G n)
  | .handler c => schedulerHandler s c false
  | .taskSwitch c => taskSwitch s c
  | .execute c cpu => .ok (s.setCpu c cpu)
  | .launch t => schedulerEnqueue s t
  | .pause t => do
    let (_, s) ← pauseSection s t
    .ok s
  | .unpause t => pend (unpauseSection s t)
  | .signal t signal => pend (signalSection s t signal)
  | .resume i => resumeCall s i
  | .exitThread t => do
    let (_, s) ← exitSection s t
    .ok s
  | .waitpid c pid info => waitpidSection s c pid info
  | .waitpidFinish c => waitpidFinish s c
  | .sigrestore c => sigrestoreSection s c

def SchedStep (s : Sched T P G n) (op : SchedOp T G n) (s' : Sched T P G n) : Prop :=
  schedPerform s op = .ok s'

/-- What the rest of the kernel keeps to: idle threads are private to the scheduler, threads do
not change the identity of their context, a thread is launched once, and a thread waits with a
record of its own. -/
def SchedLegal (s : Sched T P G n) : SchedOp T G n → Prop
  | .execute c cpu => cpu.ctx.thread = s.current c ∧ cpu.ctx.infoCs = (s.cpu c).ctx.infoCs ∧
      cpu.ctx.infoSs = (s.cpu c).ctx.infoSs
  | .launch t => ¬ s.isIddle t ∧ s.away none t = true
  | .pause t | .unpause t | .signal t _ | .exitThread t => ¬ s.isIddle t
  | .waitpid c _ info => info ∉ s.waitpidList ∧
      (∀ t, s.waitStage t ≠ .switching info ∧ s.waitStage t ≠ .returning info) ∧
      ∀ t ∈ s.current c, ¬ s.isIddle t ∧ s.waitStage t = .outside
  | .sigrestore c => ∀ t ∈ s.current c, ¬ s.isIddle t
  | .handler _ | .taskSwitch _ | .resume _ | .waitpidFinish _ => True

instance [Fintype T] (s : Sched T P G n) : DecidablePred (SchedLegal s)
  | .execute _ _ => inferInstanceAs (Decidable (_ ∧ _ ∧ _))
  | .launch _ => inferInstanceAs (Decidable (_ ∧ _))
  | .pause _ | .unpause _ | .signal _ _ | .exitThread _ => inferInstanceAs (Decidable (¬ _))
  | .waitpid c _ info => inferInstanceAs (Decidable (info ∉ s.waitpidList ∧
      (∀ t, s.waitStage t ≠ .switching info ∧ s.waitStage t ≠ .returning info) ∧
      ∀ t ∈ s.current c, ¬ s.isIddle t ∧ s.waitStage t = .outside))
  | .sigrestore c => inferInstanceAs (Decidable (∀ t ∈ s.current c, ¬ s.isIddle t))
  | .handler _ | .taskSwitch _ | .resume _ | .waitpidFinish _ => inferInstanceAs (Decidable True)

def LegalStep (s : Sched T P G n) (op : SchedOp T G n) (s' : Sched T P G n) : Prop :=
  SchedLegal s op ∧ schedPerform s op = .ok s'

theorem exists_checkedRun [Fintype T] {s : Sched T P G n} {l : List (SchedOp T G n)}
    {C : Sched T P G n → SchedOp T G n → Sched T P G n → Prop} [∀ s op s', Decidable (C s op s')]
    {Q : Sched T P G n → Prop} [DecidablePred Q]
    (h : (runChecked schedPerform (fun s op s' => SchedLegal s op ∧ C s op s') s l).any (Q ·) = true) :
    ∃ t, Run (fun s op s' => LegalStep s op s' ∧ C s op s') s l t ∧ Q t :=
  exists_run_of_check _ (fun _ _ _ h hc => ⟨⟨hc.1, h⟩, hc.2⟩) h

theorem exists_legalRun [Fintype T] {s : Sched T P G n} {l : List (SchedOp T G n)}
    {Q : Sched T P G n → Prop} [DecidablePred Q]
    (h : (runChecked schedPerform (fun s op _ => SchedLegal s op) s l).any (Q ·) = true) :
    ∃ t, Run LegalStep s l t ∧ Q t :=
  exists_run_of_check (fun s op _ => SchedLegal s op) (fun _ _ _ h hc => ⟨hc, h⟩) h

structure Booted (s : Sched T P G n) : Prop where
  free : s.schedulerSpinlock = false
  queue : s.queue = emptyQueue
  own : ∀ t, (s.info t).ctx.cpuCtx.thread = some t ∧
    (s.info t).signalRestoreCtx.cpuCtx.thread = some t
  flags : ∀ t, (s.info t).isIgnoringCtx = false ∧ (s.info t).isSignalToRestore = false ∧
    (s.info t).isSignaling = false ∧ (s.info t).isExiting = false
  pausing : ∀ t, (s.info t).isPausing = true ↔ s.isIddle t
  childsResult : ∀ p, (s.process p).childsResult = []
  waitpidList : s.waitpidList = []
  waitStage : ∀ t, s.waitStage t = .outside
  cpu : ∀ c, s.current c = none
  iddleThread : Function.Injective s.iddleThread
  calls : s.calls = []
  log : s.log = []

def contextStart (ip sp arg : ℕ) (user : Bool) (thread : T) (general : G) : Context T G :=
  let cs := if user then 43 else kernelCode
  let ss := if user then 35 else 16
  { cpuCtx := ⟨some thread, cs, ss, arg, ip, sp, cs, ss, general⟩, simdCtx := general, fsBase := 0 }

/-- A thread that is created and launched, but not queued yet. -/
def createThread (process : P) (index : ℕ) (ctx : Context T G) : ThreadInfo T P G where
  process := process
  ctx := ctx
  signalRestoreCtx := ctx
  signal := 0
  isIgnoringCtx := false
  isSignalToRestore := false
  isSignaling := false
  isPausing := false
  isExiting := false
  index := index
  threadToFree := none

/-- The threads of a process of `bootSched`, two for each. -/
def bootThreads (n m : ℕ) (p : ℕ) : List (Fin n ⊕ Fin (m + 1)) :=
  ((List.finRange (m + 1)).filter fun t => t.val / 2 = p).map .inr

/-- The system after `scheduler_init`, with an idle thread for every CPU and `m + 1` user threads
in processes that are children of the first one. -/
def bootSched (n m : ℕ) : Sched (Fin n ⊕ Fin (m + 1)) ℕ Unit n where
  schedulerSpinlock := false
  queue := emptyQueue
  info
    | .inl c => { createThread 0 0 (contextStart 0 0 0 false (.inl c) ()) with isPausing := true }
    | .inr t => createThread (t.val / 2) (t.val % 2) (contextStart 0 0 0 true (.inr t) ())
  process p :=
    { pid := p
      entryThread := (bootThreads n m p).head?
      threads := (bootThreads n m p).map some
      parent := if p = 0 then none else some 0
      childsResult := []
      returnStatus := 0
      signalHandlers _ := { handler := 4096, sigreturn := 8192, action := .default } }
  waitpidList := []
  waitpidInfo _ := ⟨.inr 0, 0, ⟨0, 0⟩⟩
  waitStage _ := .outside
  cpu _ := ⟨⟨none, 0, 0, 0, 0, 0, 0, 0, ()⟩, (), 0⟩
  iddleThread c := .inl c
  calls := []
  log := []

theorem bootSched_booted (n m : ℕ) : Booted (bootSched n m) where
  free := rfl
  queue := rfl
  own t := by cases t <;> exact ⟨rfl, rfl⟩
  flags t := by cases t <;> exact ⟨rfl, rfl, rfl, rfl⟩
  pausing t := by
    cases t with
    | inl c => exact ⟨fun _ => ⟨c, rfl⟩, fun _ => rfl⟩
    | inr t =>
      refine ⟨fun h => absurd h Bool.false_ne_true, ?_⟩
      rintro ⟨c, hc⟩
      cases hc
  childsResult _ := rfl
  waitpidList := rfl
  waitStage _ := rfl
  cpu _ := rfl
  iddleThread _ _ h := Sum.inl.inj h
  calls := rfl
  log := rfl

end Kot.Kernel.Scheduler
