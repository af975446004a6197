import Mathlib.Data.List.Count
import Kot.Kernel.Scheduler.OneCpu

/-! The results of child processes: where a result is between the end of the child and the
return of `scheduler_waitpid`, and which threads wait for one. -/
set_option linter.unusedSectionVars false

namespace Kot.Kernel.Scheduler
open Kot.Lib List Event

variable {T P G : Type} {n : ℕ} [DecidableEq T] {s s' s1 : Sched T P G n}
  {c d : Fin n} {on : Option (Fin n)} {t w e : T} {r : Option T} {info : ℕ}

/-- What a process keeps for life. -/
structure Kin (T P : Type) where
  pid : ℤ
  entryThread : Option T
  parent : Option P
  returnStatus : ℤ
  signalHandlers : ℕ → SignalHandler

def ProcessInfo.kin (p : ProcessInfo T P) : Kin T P :=
  ⟨p.pid, p.entryThread, p.parent, p.returnStatus, p.signalHandlers⟩

/-- The record of a thread in `scheduler_waitpid`. -/
def WaitStage.record : WaitStage → Option ℕ
  | .outside => none
  | .switching info => some info
  | .returning info => some info

namespace Sched

def registered (s : Sched T P G n) (t : T) : Prop :=
  ∃ info ∈ s.waitpidList, (s.waitpidInfo info).waitingThread = t

instance (s : Sched T P G n) (t : T) : Decidable (s.registered t) :=
  inferInstanceAs (Decidable (∃ info ∈ _, _))

/-- The result that a thread in `scheduler_waitpid` is going to return with. -/
def inRecord (s : Sched T P G n) (t : T) : Option ChildResult :=
  match (s.waitStage t).record with
  | none => none
  | some info => if info ∈ s.waitpidList then none else some (s.waitpidInfo info).childResult

def stored (s : Sched T P G n) (p : P) : ℕ :=
  match (s.process p).parent with
  | none => 0
  | some parent => (s.process parent).childsResult.countP fun r => r.returnPid = (s.process p).pid

end Sched

/-- The event gives out a result of the process `pid`. -/
def Event.reports (pid : ℤ) : Event T → Bool
  | .reported _ _ result => result.returnPid = pid
  | _ => false

def Event.reportsTo (t : T) (result : ChildResult) : Event T → Bool
  | .reported t' _ result' => t' = t ∧ result' = result
  | _ => false

structure Ledger (s : Sched T P G n) : Prop where
  nodup : s.waitpidList.Nodup
  record : ∀ t info, (s.waitStage t).record = some info →
    (s.waitpidInfo info).waitingThread = t ∧ (s.waitpidInfo info).pid = -1
  listed : ∀ info ∈ s.waitpidList,
    (s.waitStage (s.waitpidInfo info).waitingThread).record = some info
  unserved : ∀ t, s.registered t → (s.process (s.info t).process).childsResult = []
  children : ∀ q, ∀ result ∈ (s.process q).childsResult,
    ∃ p, (s.process p).parent = some q ∧ result = exitResult s p
  once : ∀ t, s.isChildEntry t → s.stored (s.info t).process +
    s.log.countP (Event.reports (s.process (s.info t).process).pid) = s.log.count (.ended t)
  toParent : ∀ t pid result, .reported t pid result ∈ s.log → pid = -1 ∧
    ∃ p, (s.process p).parent = some (s.info t).process ∧ result = exitResult s p
  returned : ∀ t result, s.log.count (.waited t result) +
    (if s.inRecord t = some result then 1 else 0) = s.log.countP (Event.reportsTo t result)

/-- An event that moves no result. -/
def Sched.neutral (s : Sched T P G n) : Event T → Prop
  | .reported _ _ _ => False
  | .waited _ _ => False
  | .ended t => ¬ s.isChildEntry t
  | _ => True

/-- The processes and their threads are the same. -/
structure Kindred (s s' : Sched T P G n) : Prop where
  home : ∀ t, (s'.info t).process = (s.info t).process
  kin : ∀ p, (s'.process p).kin = (s.process p).kin

namespace Kindred
omit [DecidableEq T]

section
variable (h : Kindred s s')
include h

theorem pid (p : P) : (s'.process p).pid = (s.process p).pid := congrArg Kin.pid (h.kin p)

theorem parent (p : P) : (s'.process p).parent = (s.process p).parent :=
  congrArg Kin.parent (h.kin p)

theorem isChildEntry (t : T) : s'.isChildEntry t ↔ s.isChildEntry t := by
  unfold Sched.isChildEntry
  rw [h.home, h.parent, show (s'.process _).entryThread = _ from congrArg Kin.entryThread (h.kin _)]
  rfl

theorem exitResult (p : P) : exitResult s' p = exitResult s p := by
  unfold Scheduler.exitResult
  rw [h.pid, show (s'.process p).returnStatus = _ from congrArg Kin.returnStatus (h.kin p)]
  rfl

theorem child {q : P} {result : ChildResult} :
    (∃ p, (s.process p).parent = some q ∧ result = Scheduler.exitResult s p) →
      ∃ p, (s'.process p).parent = some q ∧ result = Scheduler.exitResult s' p := by
  rintro ⟨p, hp, hr⟩
  exact ⟨p, (h.parent p).trans hp, hr.trans (h.exitResult p).symm⟩

theorem isFatal (p : P) (signal : ℕ) :
    (s'.process p).isFatal signal ↔ (s.process p).isFatal signal := by
  unfold ProcessInfo.isFatal
  rw [show (s'.process p).signalHandlers = _ from congrArg Kin.signalHandlers (h.kin p)]
  rfl

end

theorem refl (s : Sched T P G n) : Kindred s s := ⟨fun _ => rfl, fun _ => rfl⟩

theorem trans (h : Kindred s s1) (h' : Kindred s1 s') : Kindred s s' :=
  ⟨fun t => (h'.home t).trans (h.home t), fun p => (h'.kin p).trans (h.kin p)⟩

end Kindred

/-- No result moves. -/
structure Frame (s s' : Sched T P G n) : Prop extends Kindred s s' where
  childsResult : ∀ p, (s'.process p).childsResult = (s.process p).childsResult
  list : s'.waitpidList = s.waitpidList
  infos : s'.waitpidInfo = s.waitpidInfo
  stage : ∀ t, (s'.waitStage t).record = (s.waitStage t).record
  iddleThread : s'.iddleThread = s.iddleThread
  log : ∃ es, s'.log = s.log ++ es ∧ ∀ e ∈ es, s.neutral e

namespace Frame
omit [DecidableEq T]

theorem registered (h : Frame s s') (t : T) : s'.registered t ↔ s.registered t := by
  unfold Sched.registered
  rw [h.list, h.infos]

theorem isIddle (h : Frame s s') (t : T) : s'.isIddle t ↔ s.isIddle t := by
  unfold Sched.isIddle
  rw [h.iddleThread]

theorem stored (h : Frame s s') (p : P) : s'.stored p = s.stored p := by
  unfold Sched.stored
  rw [h.parent, h.pid]
  split
  · rfl
  · rw [h.childsResult]

theorem inRecord (h : Frame s s') (t : T) : s'.inRecord t = s.inRecord t := by
  unfold Sched.inRecord
  rw [h.stage, h.list, h.infos]

theorem neutral (h : Frame s s') (e : Event T) : s'.neutral e ↔ s.neutral e := by
  cases e with
  | ended t => exact not_congr (h.isChildEntry t)
  | _ => exact Iff.rfl

theorem refl (s : Sched T P G n) : Frame s s :=
  ⟨.refl s, fun _ => rfl, rfl, rfl, fun _ => rfl, rfl, [], by simp, by simp⟩

theorem trans (h : Frame s s1) (h' : Frame s1 s') : Frame s s' := by
  refine ⟨h.toKindred.trans h'.toKindred,
    fun p => (h'.childsResult p).trans (h.childsResult p), h'.list.trans h.list,
    h'.infos.trans h.infos, fun t => (h'.stage t).trans (h.stage t),
    h'.iddleThread.trans h.iddleThread, ?_⟩
  obtain ⟨es, hes, hn⟩ := h.log
  obtain ⟨es', hes', hn'⟩ := h'.log
  refine ⟨es ++ es', by rw [hes', hes, append_assoc], fun e he => ?_⟩
  rcases mem_append.mp he with he | he
  · exact hn e he
  · exact (h.neutral e).mp (hn' e he)

end Frame

theorem frame_modifyInfo {f : ThreadInfo T P G → ThreadInfo T P G}
    (hf : (f (s.info t)).process = (s.info t).process) : Frame s (s.modifyInfo t f) := by
  refine ⟨⟨fun a => ?_, fun _ => rfl⟩, fun _ => rfl, rfl, rfl, fun _ => rfl, rfl, [], by simp, by simp⟩
  rw [Sched.modifyInfo_info]
  split_ifs with ha
  · rw [ha]; exact hf
  · rfl

theorem frame_note {ev : Event T} (he : s.neutral ev) : Frame s (s.note ev) :=
  ⟨⟨fun _ => rfl, fun _ => rfl⟩, fun _ => rfl, rfl, rfl, fun _ => rfl, rfl, [ev], rfl, by simpa using he⟩

theorem frame_enqueueWl (s : Sched T P G n) (on : Option (Fin n)) (t : T) :
    Frame s (s.enqueueWl on t) :=
  ⟨⟨fun _ => rfl, fun _ => rfl⟩, fun _ => rfl, rfl, rfl, fun _ => rfl, rfl, [_], rfl,
    by simp [Sched.neutral]⟩

theorem frame_wake (s : Sched T P G n) (on : Option (Fin n)) (t : T) : Frame s (s.wake on t) :=
  (frame_modifyInfo rfl).trans (frame_note trivial)

theorem frame_modifyProcess [DecidableEq P] {p : P} {g : ProcessInfo T P → ProcessInfo T P}
    (hkin : (g (s.process p)).kin = (s.process p).kin)
    (hchilds : (g (s.process p)).childsResult = (s.process p).childsResult) :
    Frame s (s.modifyProcess p g) := by
  have hg : ∀ q, (s.modifyProcess p g).process q = if q = p then g (s.process p) else s.process q :=
    fun q => Function.update_apply ..
  refine ⟨⟨fun _ => rfl, fun q => ?_⟩, fun q => ?_, rfl, rfl, fun _ => rfl, rfl, [],
    (append_nil _).symm, by simp⟩
  · rw [hg]
    split_ifs with hq
    · rw [hq]; exact hkin
    · rfl
  · rw [hg]
    split_ifs with hq
    · rw [hq]; exact hchilds
    · rfl

/-- The result in its record is returned to `t`. -/
def finishWait (s : Sched T P G n) (t : T) (info : ℕ) : Sched T P G n :=
  { s with waitStage := Function.update s.waitStage t .outside }.note
    (.waited t (s.waitpidInfo info).childResult)

section
variable [DecidableEq P]

theorem kindred_childsResult {p : P} (f : List ChildResult → List ChildResult) :
    Kindred s (s.modifyProcess p fun r => { r with childsResult := f r.childsResult }) := by
  refine ⟨fun _ => rfl, fun x => ?_⟩
  by_cases hx : x = p
  · subst hx; simp [Sched.modifyProcess, ProcessInfo.kin]
  · simp [Sched.modifyProcess, hx]

theorem kindred_note (s : Sched T P G n) (ev : Event T) : Kindred s (s.note ev) :=
  ⟨fun _ => rfl, fun _ => rfl⟩

/-- A stored result is returned to `t`; `list` is left. -/
def handResult (s : Sched T P G n) (t : T) (list : List ChildResult) (result : ChildResult) :
    Sched T P G n :=
  ((s.modifyProcess (s.info t).process fun p => { p with childsResult := list }).note
    (.reported t (-1) result)).note (.waited t result)

theorem kindred_handResult (s : Sched T P G n) (t : T) (list : List ChildResult)
    (result : ChildResult) : Kindred s (handResult s t list result) :=
  ((kindred_childsResult fun _ => list).trans (kindred_note ..)).trans (kindred_note ..)

/-- The result of `e` is kept for the parent `q`. -/
def storeResult (s : Sched T P G n) (e : T) (q : P) (result : ChildResult) : Sched T P G n :=
  (s.note (.ended e)).modifyProcess q fun r => { r with childsResult := r.childsResult ++ [result] }

theorem kindred_storeResult (s : Sched T P G n) (e : T) (q : P) (result : ChildResult) :
    Kindred s (storeResult s e q result) :=
  (kindred_note s (.ended e)).trans (kindred_childsResult fun l => l ++ [result])

theorem kindred_serve (s : Sched T P G n) (on : Option (Fin n)) (list : List ℕ) (info : ℕ)
    (result : ChildResult) : Kindred s (serve s on list info result) := by
  refine ⟨fun a => ?_, fun _ => rfl⟩
  rw [serve_info]
  split_ifs <;> rfl

theorem exitThreadRoutine_kindred (hs : exitThreadRoutine s on t = .ok s') : Kindred s s' := by
  rcases exitThreadRoutine_ok hs with ⟨-, rfl⟩ | ⟨q, -, -, ⟨-, rfl⟩ | ⟨info, index, list, -, -, rfl⟩⟩
  · exact .refl _
  · exact kindred_childsResult fun l => l ++ [_]
  · exact kindred_serve ..

theorem SignalEffect.kindred {handling : HandleSignal} (he : SignalEffect s c t handling s') :
    Kindred s s' := by
  have htake : Frame s (takeSignal s t) := frame_modifyInfo rfl
  cases he with
  | absent _ => exact .refl s
  | ended _ _ hend =>
    exact ((htake.trans (frame_modifyProcess rfl rfl)).toKindred.trans (kindred_note ..)).trans
      (exitThreadRoutine_kindred hend)
  | ignored _ _ => exact htake.toKindred
  | delivered _ _ _ => exact (htake.trans (frame_modifyInfo rfl)).toKindred.trans (kindred_note ..)

theorem getTread_kindred (hs : s.getTread = .ok (r, s')) : Kindred s s' := by
  obtain ⟨queue, rfl⟩ := getTread_eq hs
  exact ⟨fun _ => rfl, fun _ => rfl⟩

theorem Chosen.kindred (hch : Chosen s c r s') : Kindred s s' := by
  cases hch with
  | nobody hget | kernel hget _ => exact getTread_kindred hget
  | first hget _ _ hsig => exact (getTread_kindred hget).trans (handleSignal_effect hsig).kindred
  | second hget _ hsig hexit hget' =>
    exact (((getTread_kindred hget).trans (handleSignal_effect hsig).kindred).trans
      (exitThreadRoutine_kindred hexit)).trans (getTread_kindred hget')

theorem Retired.kindred (hr : Retired s c e s') : Kindred s s' := by
  cases hr with
  | restored _ | saved _ _ => exact ((frame_modifyInfo rfl).trans (frame_enqueueWl ..)).toKindred
  | exited _ _ _ hs =>
    exact ((frame_modifyInfo rfl).toKindred.trans (kindred_note ..)).trans
      (exitThreadRoutine_kindred hs)
  | parked _ _ _ => exact (frame_modifyInfo rfl).toKindred

theorem retire_kindred (hs : retire s c = .ok s') : Kindred s s' := by
  rcases retire_cases hs with ⟨-, rfl⟩ | ⟨e, -, hr⟩
  · exact .refl _
  · exact hr.kindred

theorem handler_kindred {force : Bool} (hl : s.schedulerSpinlock = false)
    (hs : schedulerHandler s c force = .ok s') : Kindred s s' := by
  obtain ⟨s1, s2, r, hret, hch, rfl⟩ := schedulerHandler_ok hl hs
  have h1 : Kindred s s1 := ⟨(retire_kindred hret).home, (retire_kindred hret).kin⟩
  have h2 : Kindred s2 (installStarting s2 c (s.current c) r) := by
    unfold installStarting
    split
    · exact .refl _
    · rename_i t _
      have hpass : Kindred s2 (passOn s2 (s.current c) t) := by
        rcases passOn_cases s2 (s.current c) t with hp | ⟨e, hp⟩ <;> rw [hp]
        · exact .refl _
        · exact (frame_modifyInfo rfl).toKindred
      exact ⟨hpass.home, hpass.kin⟩
  have := (h1.trans hch.kindred).trans h2
  exact ⟨this.home, this.kin⟩

theorem Stepped.kindred {op : SchedOp T G n} (hs : Stepped s op s')
    (hl : s.schedulerSpinlock = false) : Kindred s s' := by
  have hinfo : ∀ (t : T) (f : ThreadInfo T P G → ThreadInfo T P G),
      (∀ r, (f r).process = r.process) → Kindred s (s.modifyInfo t f) :=
    fun _ _ hf => (frame_modifyInfo (hf _)).toKindred
  cases hs with
  | handler hs => exact handler_kindred hl hs
  | @taskSwitch c _ hs =>
    obtain ⟨stage, he⟩ := taskSwitch_eq s c
    have := handler_kindred (s := { s with waitStage := stage }) hl (he ▸ hs)
    exact ⟨this.home, this.kin⟩
  | paused _ _ _ | sigrestored _ _ => exact hinfo _ _ fun _ => rfl
  | @unpaused t _ | @resumedUnpause _ t _ _ =>
    exact ⟨(hinfo t (fun r => { r with isPausing := false }) fun _ => rfl).home, fun _ => rfl⟩
  | @signaled t signal =>
    exact ⟨(hinfo t (fun r => { r with isSignaling := true, signal := signal }) fun _ => rfl).home,
      fun _ => rfl⟩
  | @exiting t _ =>
    have hproc : Frame s (s.modifyProcess (s.info t).process fun p =>
        { p with threads := vectorSet p.threads (s.info t).index none }) := frame_modifyProcess rfl rfl
    exact (hproc.trans (frame_modifyInfo rfl)).toKindred
  | resultTaken _ _ _ => exact kindred_handResult ..
  | @registered _ _ t _ _ _ =>
    exact ⟨(hinfo t (fun r => { r with isPausing := true }) fun _ => rfl).home, fun _ => rfl⟩
  | _ => exact ⟨fun _ => rfl, fun _ => rfl⟩

end

namespace Ledger

theorem frame (h : Ledger s) (hf : Frame s s') : Ledger s' := by
  obtain ⟨es, hlog, hn⟩ := hf.log
  have hcount : ∀ f : Event T → Bool, (∀ e, f e = true → ¬ s.neutral e) →
      s'.log.countP f = s.log.countP f := by
    intro f hfe
    rw [hlog, countP_append, countP_eq_zero.mpr fun e he hf => hfe e hf (hn e he), Nat.add_zero]
  have hmem : ∀ e ∈ s'.log, ¬ s.neutral e → e ∈ s.log := by
    intro e he hne
    rw [hlog, mem_append] at he
    exact he.resolve_right fun he => hne (hn e he)
  constructor
  · rw [hf.list]; exact h.nodup
  · intro t info ht
    rw [hf.stage] at ht
    rw [hf.infos]
    exact h.record t info ht
  · intro info hi
    rw [hf.list] at hi
    rw [hf.infos, hf.stage]
    exact h.listed info hi
  · intro t ht
    rw [hf.home, hf.childsResult]
    exact h.unserved t ((hf.registered t).mp ht)
  · intro q result hr
    rw [hf.childsResult] at hr
    exact hf.child (h.children q result hr)
  · intro t ht
    have ht := (hf.isChildEntry t).mp ht
    rw [hf.home, hf.stored, hf.pid, hcount, List.count, hcount]
    · exact h.once t ht
    · intro e he hne
      obtain rfl : e = .ended t := by simpa using he
      exact hne ht
    · intro e he hne
      cases e <;> simp [reports, Sched.neutral] at he hne
  · intro t pid result hr
    rw [hf.home]
    exact (h.toParent t pid result (hmem _ hr fun hn => hn)).imp_right hf.child
  · intro t result
    rw [hf.inRecord, List.count, hcount, hcount]
    · exact h.returned t result
    · intro e he hne
      cases e <;> simp [reportsTo, Sched.neutral] at he hne
    · intro e he hne
      obtain rfl : e = .waited t result := by simpa using he
      exact hne

section
variable [DecidableEq P] {p q : P}

theorem home_ne {a : T} (ha : s.isChildEntry a) (he : s.isChildEntry e) (hne : a ≠ e) :
    (s.info a).process ≠ (s.info e).process := by
  intro hp
  have h1 := ha.1
  rw [hp, he.1] at h1
  exact hne (Option.some.inj h1).symm

omit [DecidableEq P] in
theorem count_ended {a : T} :
    (s.log ++ [Event.ended e]).count (Event.ended a) = s.log.count (Event.ended a) + if a = e then 1 else 0 := by
  rw [count_append, count_singleton]
  by_cases h : a = e
  · simp [h]
  · simp [h, Ne.symm h]

section
variable (h : Ledger s)
include h

theorem store (hpid : Function.Injective fun p => (s.process p).pid)
    (he : s.isChildEntry e) (hq : (s.process (s.info e).process).parent = some q)
    (hnone : ∀ i ∈ s.waitpidList, waitsForAny s q i = false) :
    Ledger (storeResult s e q (exitResult s (s.info e).process)) := by
  set s' := storeResult s e q (exitResult s (s.info e).process) with hs'
  have hkin : Kindred s s' := kindred_storeResult ..
  have hchilds : ∀ x, (s'.process x).childsResult = (s.process x).childsResult ++
      if x = q then [exitResult s (s.info e).process] else [] := by
    intro x
    by_cases hx : x = q
    · subst hx; simp [hs', storeResult, Sched.modifyProcess, Sched.note]
    · simp [hs', storeResult, Sched.modifyProcess, Sched.note, hx]
  refine ⟨h.nodup, h.record, h.listed, fun a ha => ?_, fun x result hr => ?_, fun a ha => ?_,
    fun a pid result hr => ?_, fun a result => ?_⟩
  · have ha : s.registered a := ha
    have hne : (s.info a).process ≠ q := by
      intro hqa
      obtain ⟨i, hi, rfl⟩ := ha
      have hw := hnone i hi
      simp [waitsForAny, (h.record _ i (h.listed i hi)).2, hqa] at hw
    change (s'.process (s.info a).process).childsResult = []
    rw [hchilds, if_neg hne, append_nil]
    exact h.unserved a ha
  · rw [hchilds, mem_append] at hr
    rcases hr with hr | hr
    · exact hkin.child (h.children x result hr)
    · split_ifs at hr with hx
      · rw [mem_singleton] at hr
        exact hkin.child ⟨(s.info e).process, hx ▸ hq, hr⟩
      · simp at hr
  · have ha := (hkin.isChildEntry a).mp ha
    change s'.stored (s.info a).process + (s.log ++ [Event.ended e]).countP
      (Event.reports (s'.process (s.info a).process).pid) = (s.log ++ [Event.ended e]).count (Event.ended a)
    rw [hkin.pid, count_ended, ← h.once a ha, countP_append]
    have hstored : s'.stored (s.info a).process = s.stored (s.info a).process +
        if a = e then 1 else 0 := by
      unfold Sched.stored
      rw [hkin.parent, hkin.pid]
      by_cases hae : a = e
      · subst hae
        simp [hq, hchilds, exitResult]
      · have hne : (s.process (s.info e).process).pid ≠ (s.process (s.info a).process).pid :=
          fun hp => home_ne ha he hae (hpid hp).symm
        cases hpa : (s.process (s.info a).process).parent with
        | none => simp [hae]
        | some x =>
          simp only [hchilds, countP_append, hae, if_false, Nat.add_zero]
          split_ifs <;> simp [exitResult, hne]
    rw [hstored]
    simp [reports]
    omega
  · have hr : .reported a pid result ∈ s.log := by
      have hr : .reported a pid result ∈ s.log ++ [Event.ended e] := hr
      simpa using hr
    exact (h.toParent a pid result hr).imp_right hkin.child
  · change (s.log ++ [Event.ended e]).count (Event.waited a result) + (if s.inRecord a = some result then 1 else 0)
      = (s.log ++ [Event.ended e]).countP (Event.reportsTo a result)
    simpa [count_append, countP_append, reportsTo] using h.returned a result

theorem inRecord_none (hw : s.registered t) : s.inRecord t = none := by
  obtain ⟨i, hi, rfl⟩ := hw
  simp [Sched.inRecord, h.listed i hi, hi]

theorem serve {list : List ℕ}
    (hpid : Function.Injective fun p => (s.process p).pid) (he : s.isChildEntry e)
    (hq : (s.process (s.info e).process).parent = some q) (hlist : s.waitpidList = list ++ [info])
    (hw : waitsForAny s q info = true) :
    Ledger (serve (s.note (.ended e)) on list info (exitResult s (s.info e).process)) := by
  set s' := Scheduler.serve (s.note (.ended e)) on list info (exitResult s (s.info e).process) with hs'
  have hmem : info ∈ s.waitpidList := by simp [hlist]
  have hnot : info ∉ list := by
    have hnodup := h.nodup
    rw [hlist, nodup_append] at hnodup
    exact fun hi => hnodup.2.2 info hi info (by simp) rfl
  obtain ⟨hwpid, hwait⟩ : (s.process (s.info (s.waitpidInfo info).waitingThread).process).pid =
      (s.process q).pid ∧ (s.waitpidInfo info).pid = -1 := by simpa [waitsForAny] using hw
  set waiting := (s.waitpidInfo info).waitingThread with hwaiting
  have hkin : Kindred s s' := (kindred_note s (.ended e)).trans (kindred_serve ..)
  have hinfos : ∀ i, (s'.waitpidInfo i).waitingThread = (s.waitpidInfo i).waitingThread ∧
      (s'.waitpidInfo i).pid = (s.waitpidInfo i).pid ∧
      (i ≠ info → s'.waitpidInfo i = s.waitpidInfo i) := by
    intro i
    rw [hs', serve_waitpidInfo]
    split_ifs with hi
    · subst hi; exact ⟨rfl, rfl, fun hne => absurd rfl hne⟩
    · exact ⟨rfl, rfl, fun _ => rfl⟩
  obtain ⟨b, b', hlog⟩ : ∃ b b', s'.log = s.log ++ [.ended e, .woken waiting b, .enqueued waiting b',
      .reported waiting (-1) (exitResult s (s.info e).process)] := by
    obtain ⟨b, b', hserve⟩ := serve_log (s.note (.ended e)) on list info (exitResult s (s.info e).process)
    refine ⟨b, b', hserve.trans ?_⟩
    rw [Sched.note_log, append_assoc, ← hwait]
    rfl
  have hreg : ∀ a, s'.registered a → s.registered a := by
    rintro a ⟨i, hi, hia⟩
    exact ⟨i, by rw [hlist]; exact mem_append_left _ hi, (hinfos i).1 ▸ hia⟩
  constructor
  · have hnodup := h.nodup
    rw [hlist] at hnodup
    exact (nodup_append.mp hnodup).1
  · intro a i ha
    rw [(hinfos i).1, (hinfos i).2.1]
    exact h.record a i ha
  · intro i hi
    rw [(hinfos i).1]
    exact h.listed i (by rw [hlist]; exact mem_append_left _ hi)
  · intro a ha
    rw [hkin.home]
    exact h.unserved a (hreg a ha)
  · intro x result hr
    exact hkin.child (h.children x result hr)
  · intro a ha
    have ha := (hkin.isChildEntry a).mp ha
    rw [hkin.home, hkin.pid, hlog, countP_append, count_append,
      show s'.stored (s.info a).process = s.stored (s.info a).process from rfl, ← h.once a ha]
    by_cases hae : a = e
    · subst hae
      simp [reports, exitResult]
      omega
    · have hne : (s.process (s.info e).process).pid ≠ (s.process (s.info a).process).pid :=
        fun hp => home_ne ha he hae (hpid hp).symm
      simp [reports, exitResult, hne, Ne.symm hae]
  · intro a pid result hr
    rw [hlog] at hr
    simp only [mem_append, mem_cons, reduceCtorEq, reported.injEq, not_mem_nil,
      or_false, false_or] at hr
    rw [hkin.home]
    rcases hr with hr | ⟨rfl, rfl, rfl⟩
    · exact (h.toParent a pid result hr).imp_right hkin.child
    · exact ⟨rfl, hkin.child ⟨(s.info e).process, by rw [hq, hpid hwpid], rfl⟩⟩
  · intro a result
    rw [hlog, countP_append, count_append]
    have hold := h.returned a result
    by_cases haw : a = waiting
    · subst haw
      have hnew : s'.inRecord waiting = some (exitResult s (s.info e).process) := by
        have hst : (s'.waitStage waiting).record = some info := h.listed info hmem
        have hupd : (s'.waitpidInfo info).childResult = exitResult s (s.info e).process := by
          rw [hs', serve_waitpidInfo, if_pos rfl]
        unfold Sched.inRecord
        rw [hst]
        change (if info ∈ list then none else some (s'.waitpidInfo info).childResult) = _
        rw [if_neg hnot, hupd]
      rw [h.inRecord_none ⟨info, hmem, rfl⟩] at hold
      rw [hnew, ← hold]
      simp [reportsTo, countP_cons]
    · have hsame : s'.inRecord a = s.inRecord a := by
        unfold Sched.inRecord
        rw [show (s'.waitStage a).record = (s.waitStage a).record from rfl]
        cases hr : (s.waitStage a).record with
        | none => rfl
        | some i =>
          have hi : i ≠ info := by
            rintro rfl
            exact haw (h.record a i hr).1.symm
          dsimp only
          rw [(hinfos i).2.2 hi, show s'.waitpidList = list from rfl]
          simp [hlist, hi]
      rw [hsame, ← hold]
      simp [reportsTo, Ne.symm haw]

theorem take {result : ChildResult} (hpid : Function.Injective fun p => (s.process p).pid)
    (hres : (s.process (s.info t).process).childsResult = [result]) :
    Ledger (handResult s t [] result) := by
  set s' := handResult s t [] result with hs'
  have hkin : Kindred s s' := kindred_handResult ..
  have hchilds : ∀ x, (s'.process x).childsResult =
      if x = (s.info t).process then [] else (s.process x).childsResult := by
    intro x
    by_cases hx : x = (s.info t).process
    · subst hx; simp [hs', handResult, Sched.modifyProcess, Sched.note]
    · simp [hs', handResult, Sched.modifyProcess, Sched.note, hx]
  have hlog : s'.log = s.log ++ [.reported t (-1) result, .waited t result] := by
    change (s.log ++ [_]) ++ [_] = _
    rw [append_assoc]
    rfl
  have hold : ∀ x r, r ∈ (s'.process x).childsResult → r ∈ (s.process x).childsResult := by
    intro x r hr
    rw [hchilds] at hr
    split_ifs at hr with hx
    · simp at hr
    · exact hr
  refine ⟨h.nodup, h.record, h.listed, fun a ha => ?_, fun x r hr => ?_, fun a ha => ?_,
    fun a pid r hr => ?_, fun a r => ?_⟩
  · rw [hchilds]
    split_ifs
    · rfl
    · exact h.unserved a ha
  · exact hkin.child (h.children x r (hold x r hr))
  · have ha := (hkin.isChildEntry a).mp ha
    rw [hkin.home, hkin.pid, hlog, countP_append, count_append]
    have hstored : s'.stored (s.info a).process +
        (if result.returnPid = (s.process (s.info a).process).pid then 1 else 0) =
          s.stored (s.info a).process := by
      obtain ⟨p, hp, hr⟩ := h.children (s.info t).process result (by simp [hres])
      obtain ⟨q, hq⟩ := Option.ne_none_iff_exists'.mp ha.2
      simp only [Sched.stored, hkin.parent, hkin.pid, hq, hchilds]
      by_cases hqt : q = (s.info t).process
      · subst hqt
        simp [hres, countP_cons]
      · -- the result is of a child of another process
        rw [if_neg hqt, if_neg, Nat.add_zero]
        intro heq
        rw [hr] at heq
        rw [hpid heq, hq] at hp
        exact hqt (Option.some.inj hp)
    rw [← h.once a ha, ← hstored]
    simp [reports, countP_cons]
    omega
  · rw [hlog] at hr
    simp only [mem_append, mem_cons, reduceCtorEq, reported.injEq, not_mem_nil,
      or_false] at hr
    rcases hr with hr | ⟨rfl, rfl, rfl⟩
    · exact (h.toParent a pid r hr).imp_right hkin.child
    · exact ⟨rfl, hkin.child (h.children (s.info a).process r (by simp [hres]))⟩
  · rw [hlog, countP_append, count_append, show s'.inRecord a = s.inRecord a from rfl,
      ← h.returned a r]
    by_cases har : a = t ∧ r = result
    · obtain ⟨rfl, rfl⟩ := har
      simp [reportsTo]
      omega
    · have hw : Event.waited t result ≠ .waited a r := by
        rintro ⟨⟩
        exact har ⟨rfl, rfl⟩
      have hto : ¬ (t = a ∧ result = r) := fun hx => har ⟨hx.1.symm, hx.2.symm⟩
      simp [reportsTo, hw, hto]

theorem register (hlist : info ∉ s.waitpidList)
    (hnew : ∀ a, (s.waitStage a).record ≠ some info) (ht : s.waitStage t = .outside)
    (hres : (s.process (s.info t).process).childsResult = []) :
    Ledger (register s t (-1) info) := by
  set s' := Scheduler.register s t (-1) info with hs'
  have hkin : Kindred s s' := by
    refine ⟨fun a => ?_, fun _ => rfl⟩
    change ((Sched.modifyInfo s t fun r => { r with isPausing := true }).info a).process = _
    rw [Sched.modifyInfo_info]
    split_ifs <;> rfl
  have hl : s'.waitpidList = s.waitpidList ++ [info] := rfl
  have hinfos : ∀ i, s'.waitpidInfo i = if i = info then ⟨t, -1, ⟨0, 0⟩⟩ else s.waitpidInfo i :=
    fun i => Function.update_apply ..
  have hstage : ∀ a, s'.waitStage a = if a = t then .switching info else s.waitStage a :=
    fun a => Function.update_apply ..
  have hold : ∀ i ∈ s.waitpidList, i ≠ info := fun i hi heq => hlist (heq ▸ hi)
  have hlisted : ∀ i ∈ s.waitpidList, (s.waitpidInfo i).waitingThread ≠ t := by
    intro i hi hit
    have := h.listed i hi
    rw [hit, ht] at this
    cases this
  constructor
  · rw [hl]
    exact h.nodup.append (by simp) (by simpa using hlist)
  · intro a i ha
    rw [hstage] at ha
    rw [hinfos]
    split_ifs at ha with hat
    · obtain rfl : info = i := Option.some.inj ha
      rw [if_pos rfl, hat]
      exact ⟨rfl, rfl⟩
    · rw [if_neg (by rintro rfl; exact hnew a ha)]
      exact h.record a i ha
  · intro i hi
    rw [hl, mem_append, mem_singleton] at hi
    rw [hinfos]
    rcases hi with hi | rfl
    · rw [if_neg (hold i hi), hstage, if_neg (hlisted i hi)]
      exact h.listed i hi
    · rw [if_pos rfl, hstage, if_pos rfl]
      rfl
  · rintro a ⟨i, hi, rfl⟩
    rw [hl, mem_append, mem_singleton] at hi
    rw [hkin.home, hinfos]
    rcases hi with hi | rfl
    · rw [if_neg (hold i hi)]
      exact h.unserved _ ⟨i, hi, rfl⟩
    · rw [if_pos rfl]
      exact hres
  · intro q result hr
    exact h.children q result hr
  · intro a ha
    rw [hkin.home]
    exact h.once a ((hkin.isChildEntry a).mp ha)
  · intro a pid result hr
    rw [hkin.home]
    exact h.toParent a pid result hr
  · intro a result
    have hsame : s'.inRecord a = s.inRecord a := by
      unfold Sched.inRecord
      rw [hstage]
      split_ifs with hat
      · subst hat
        rw [ht]
        simp [WaitStage.record, hl]
      · cases hr : (s.waitStage a).record with
        | none => rfl
        | some i =>
          have hi : i ≠ info := by rintro rfl; exact hnew a hr
          simp [hl, hi, hinfos]
    rw [hsame]
    exact h.returned a result

theorem finish (ht : s.waitStage t = .returning info) (hlist : info ∉ s.waitpidList) :
    Ledger (finishWait s t info) := by
  set s' := finishWait s t info with hs'
  have hstage : ∀ a, s'.waitStage a = if a = t then .outside else s.waitStage a :=
    fun a => Function.update_apply ..
  have hlisted : ∀ i ∈ s.waitpidList, (s.waitpidInfo i).waitingThread ≠ t := by
    intro i hi hit
    have := h.listed i hi
    rw [hit, ht] at this
    exact hlist (Option.some.inj this ▸ hi)
  have hlog : s'.log = s.log ++ [.waited t (s.waitpidInfo info).childResult] := rfl
  refine ⟨h.nodup, fun a i ha => ?_, fun i hi => ?_, h.unserved, h.children, fun a ha => ?_,
    fun a pid result hr => ?_, fun a result => ?_⟩
  · rw [hstage] at ha
    split_ifs at ha with hat
    · cases ha
    · exact h.record a i ha
  · have hne := hlisted i hi
    change (s'.waitStage (s.waitpidInfo i).waitingThread).record = some i
    rw [hstage, if_neg hne]
    exact h.listed i hi
  · rw [hlog, countP_append, count_append]
    simp only [reports, countP_cons, countP_nil, count_cons, count_nil]
    exact h.once a ha
  · rw [hlog] at hr
    exact h.toParent a pid result (by simpa using hr)
  · rw [hlog, countP_append, count_append]
    have hret := h.returned a result
    by_cases hat : a = t
    · subst hat
      have hin : s.inRecord a = some (s.waitpidInfo info).childResult := by
        simp [Sched.inRecord, ht, WaitStage.record, hlist]
      have hout : s'.inRecord a = none := by
        simp [Sched.inRecord, hstage, WaitStage.record]
      rw [hin] at hret
      rw [hout, ← hret]
      by_cases hres : (s.waitpidInfo info).childResult = result
      · simp [hres, reportsTo]
      · simp [hres, reportsTo]
    · have hsame : s'.inRecord a = s.inRecord a := by
        unfold Sched.inRecord
        rw [hstage, if_neg hat]
        rfl
      rw [hsame, ← hret]
      simp [reportsTo, Ne.symm hat]

end

end
end Ledger
end Kot.Kernel.Scheduler
