import Kot.Lib.Linked
import Kot.Lib.Run

/-! The run queue of the scheduler: a circular list through `next` whose nodes also
carry a `last` link. Threads are named by an arbitrary type `T`; a null pointer is `none`.
The functions are the `_wl` ones, which run with the scheduler lock held. -/
namespace Kot.Kernel.Scheduler
open Kot.Lib

variable {T : Type*}

/-- The fields of a thread that the run queue reads or writes. -/
structure Thread (T : Type*) where
  next : Option T
  last : Option T
  isInQueue : Bool

structure RunQueue (T : Type*) where
  schedulerFirstNode : Option T
  schedulerLastNode : Option T
  thread : T → Thread T

/-- The state before the first thread is queued: threads are allocated zeroed. -/
def emptyQueue : RunQueue T where
  schedulerFirstNode := none
  schedulerLastNode := none
  thread _ := { next := none, last := none, isInQueue := false }

variable [DecidableEq T]

namespace RunQueue

def modify (q : RunQueue T) (t : T) (f : Thread T → Thread T) : RunQueue T :=
  { q with thread := Function.update q.thread t (f (q.thread t)) }

def setNext (q : RunQueue T) (t : T) (n : Option T) : RunQueue T :=
  q.modify t fun r => { r with next := n }

def setLast (q : RunQueue T) (t : T) (n : Option T) : RunQueue T :=
  q.modify t fun r => { r with last := n }

def setInQueue (q : RunQueue T) (t : T) (b : Bool) : RunQueue T :=
  q.modify t fun r => { r with isInQueue := b }

section
variable (q : RunQueue T) (t a : T) (f : Thread T → Thread T) (n : Option T) (b : Bool)

theorem modify_thread : (q.modify t f).thread a = if a = t then f (q.thread a) else q.thread a := by
  by_cases h : a = t
  · subst h; simp [modify]
  · simp [modify, h]

@[simp] theorem setNext_first : (q.setNext t n).schedulerFirstNode = q.schedulerFirstNode := rfl

@[simp] theorem setNext_lastNode : (q.setNext t n).schedulerLastNode = q.schedulerLastNode := rfl

@[simp] theorem setLast_first : (q.setLast t n).schedulerFirstNode = q.schedulerFirstNode := rfl

@[simp] theorem setLast_lastNode : (q.setLast t n).schedulerLastNode = q.schedulerLastNode := rfl

@[simp] theorem setInQueue_first :
    (q.setInQueue t b).schedulerFirstNode = q.schedulerFirstNode := rfl

@[simp] theorem setInQueue_lastNode :
    (q.setInQueue t b).schedulerLastNode = q.schedulerLastNode := rfl

@[simp] theorem setNext_next :
    ((q.setNext t n).thread a).next = if a = t then n else (q.thread a).next := by
  rw [setNext, modify_thread]; split <;> rfl

@[simp] theorem setNext_last : ((q.setNext t n).thread a).last = (q.thread a).last := by
  rw [setNext, modify_thread]; split <;> rfl

@[simp] theorem setNext_inQueue :
    ((q.setNext t n).thread a).isInQueue = (q.thread a).isInQueue := by
  rw [setNext, modify_thread]; split <;> rfl

@[simp] theorem setLast_next : ((q.setLast t n).thread a).next = (q.thread a).next := by
  rw [setLast, modify_thread]; split <;> rfl

@[simp] theorem setLast_last :
    ((q.setLast t n).thread a).last = if a = t then n else (q.thread a).last := by
  rw [setLast, modify_thread]; split <;> rfl

@[simp] theorem setLast_inQueue :
    ((q.setLast t n).thread a).isInQueue = (q.thread a).isInQueue := by
  rw [setLast, modify_thread]; split <;> rfl

@[simp] theorem setInQueue_next : ((q.setInQueue t b).thread a).next = (q.thread a).next := by
  rw [setInQueue, modify_thread]; split <;> rfl

@[simp] theorem setInQueue_last : ((q.setInQueue t b).thread a).last = (q.thread a).last := by
  rw [setInQueue, modify_thread]; split <;> rfl

@[simp] theorem setInQueue_inQueue :
    ((q.setInQueue t b).thread a).isInQueue = if a = t then b else (q.thread a).isInQueue := by
  rw [setInQueue, modify_thread]; split <;> rfl

end
end RunQueue

def schedulerEnqueueWl (q : RunQueue T) (thread : T) : RunQueue T :=
  let q := if q.schedulerFirstNode = none then { q with schedulerFirstNode := some thread } else q
  let q := match q.schedulerLastNode with
    | some l => (q.setNext l (some thread)).setLast thread (some l)
    | none => q
  let q := { q with schedulerLastNode := some thread }
  (q.setNext thread q.schedulerFirstNode).setInQueue thread true

/-- `none` is the null dereference of `thread->next->last` on a thread without successor. -/
def schedulerDequeueWl (q : RunQueue T) (thread : T) : Option (RunQueue T) :=
  let q := if q.schedulerFirstNode = some thread then
      if q.schedulerFirstNode ≠ (q.thread thread).next then
        { q with schedulerFirstNode := (q.thread thread).next }
      else { q with schedulerFirstNode := none, schedulerLastNode := none }
    else q
  let q := if q.schedulerLastNode = some thread then
      if (q.thread thread).last ≠ none then
        { q with schedulerLastNode := (q.thread thread).last }
      else { q with schedulerLastNode := q.schedulerFirstNode }
    else q
  let q := match q.schedulerLastNode with
    | some l => q.setNext l q.schedulerFirstNode
    | none => q
  let q := match (q.thread thread).last with
    | some l => q.setNext l (q.thread thread).next
    | none => q
  match (q.thread thread).next with
  | none => none
  | some n =>
    let q := q.setLast n (q.thread thread).last
    some (((q.setLast thread none).setNext thread none).setInQueue thread false)

def schedulerGetTreadWl (q : RunQueue T) : Option (Option T × RunQueue T) :=
  match q.schedulerFirstNode with
  | some t => (schedulerDequeueWl q t).map fun q => (some t, q)
  | none => some (none, q)

end Kot.Kernel.Scheduler
