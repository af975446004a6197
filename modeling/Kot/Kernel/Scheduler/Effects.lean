import Kot.Kernel.Scheduler.Calls
import Kot.Kernel.Scheduler.CleanQueue

/-! What the end of a thread does to the rest of the system: at most one waiting thread is
woken and queued. -/
set_option linter.unusedSectionVars false

namespace Kot.Kernel.Scheduler
open Kot.Lib List Sched

variable {T P G : Type} {n : ℕ} [DecidableEq T] [DecidableEq P] {s s' s1 : Sched T P G n}
  {c : Fin n} {on : Option (Fin n)} {t w : T} {r : Option T} {info index : ℕ}

/-- Only processes and the records of waiting threads differ. -/
structure Quiet (s s' : Sched T P G n) : Prop where
  lock : s'.schedulerSpinlock = s.schedulerSpinlock
  queue : s'.queue = s.queue
  info : s'.info = s.info
  cpu : s'.cpu = s.cpu
  iddleThread : s'.iddleThread = s.iddleThread
  calls : s'.calls = s.calls
  log : s'.log = s.log
  waitStage : s'.waitStage = s.waitStage
  listed : ∀ i ∈ s'.waitpidList, i ∈ s.waitpidList
  waiting : ∀ i, (s'.waitpidInfo i).waitingThread = (s.waitpidInfo i).waitingThread

theorem Quiet.refl (s : Sched T P G n) : Quiet s s :=
  ⟨rfl, rfl, rfl, rfl, rfl, rfl, rfl, rfl, fun _ h => h, fun _ => rfl⟩

theorem quiet_modifyProcess (s : Sched T P G n) (p : P) (g : ProcessInfo T P → ProcessInfo T P) :
    Quiet s (s.modifyProcess p g) :=
  ⟨rfl, rfl, rfl, rfl, rfl, rfl, rfl, rfl, fun _ h => h, fun _ => rfl⟩

/-- The record gets its result and leaves the wait list. -/
def served (s : Sched T P G n) (list : List ℕ) (info : ℕ) (result : ChildResult) : Sched T P G n :=
  { s with
    waitpidList := list
    waitpidInfo := Function.update s.waitpidInfo info
      { s.waitpidInfo info with childResult := result } }

theorem served_waiting {list : List ℕ} {i : ℕ} {result : ChildResult} :
    ((served s list info result).waitpidInfo i).waitingThread = (s.waitpidInfo i).waitingThread := by
  by_cases hi : i = info
  · subst hi; simp [served]
  · simp [served, hi]

/-- A waiting thread gets its result and is queued. -/
def serve (s : Sched T P G n) (on : Option (Fin n)) (list : List ℕ) (info : ℕ)
    (result : ChildResult) : Sched T P G n :=
  let waiting := (s.waitpidInfo info).waitingThread
  (((served s list info result).wake on waiting).enqueueWl on waiting).note
    (.reported waiting (s.waitpidInfo info).pid result)

section
variable (s : Sched T P G n) (on : Option (Fin n)) (list : List ℕ) (info : ℕ) (result : ChildResult)

omit [DecidableEq P]

theorem serve_info (a : T) : (serve s on list info result).info a =
    if a = (s.waitpidInfo info).waitingThread then { s.info a with isPausing := false }
    else s.info a :=
  Sched.modifyInfo_info (served s list info result) _ a fun r => { r with isPausing := false }

theorem serve_waitpidInfo (i : ℕ) : (serve s on list info result).waitpidInfo i =
    if i = info then { s.waitpidInfo info with childResult := result } else s.waitpidInfo i :=
  Function.update_apply ..

theorem serve_log : ∃ away clash, (serve s on list info result).log = s.log ++
    [.woken (s.waitpidInfo info).waitingThread away,
      .enqueued (s.waitpidInfo info).waitingThread clash,
      .reported (s.waitpidInfo info).waitingThread (s.waitpidInfo info).pid result] := by
  refine ⟨(served s list info result).away on (s.waitpidInfo info).waitingThread,
    (s.queue.thread (s.waitpidInfo info).waitingThread).isInQueue ||
      s.runsElsewhere on (s.waitpidInfo info).waitingThread, ?_⟩
  change ((s.log ++ [_]) ++ [_]) ++ [_] = _
  simp only [append_assoc, cons_append, nil_append]
  rfl

end

/-- The result of an ended thread is no one's, is given to the first waiting thread of the
parent, or is stored there. -/
theorem exitThreadRoutine_ok (h : exitThreadRoutine s on t = .ok s') :
    ¬ s.isChildEntry t ∧ s' = s ∨ ∃ parent, s.isChildEntry t ∧
      (s.process (s.info t).process).parent = some parent ∧ ((s.waitpidList.zipIdx.find? (fun w => waitsForAny s parent w.1) = none ∧
        s' = s.modifyProcess parent fun r =>
          { r with childsResult := r.childsResult ++ [exitResult s (s.info t).process] }) ∨
      ∃ info index list, s.waitpidList.zipIdx.find? (fun w => waitsForAny s parent w.1) =
          some (info, index) ∧ vectorRemove s.waitpidList index = .ok list ∧
        s' = serve s on list info (exitResult s (s.info t).process)) := by
  unfold exitThreadRoutine at h
  dsimp only at h
  split_ifs at h with he
  · cases hp : (s.process (s.info t).process).parent with
    | none =>
      rw [hp] at h
      exact .inl ⟨fun hc => hc.2 hp, (Except.ok.inj h).symm⟩
    | some parent =>
      rw [hp] at h
      dsimp only at h
      refine .inr ⟨parent, ⟨he, by simp [hp]⟩, rfl, ?_⟩
      cases hf : s.waitpidList.zipIdx.find? (fun w => waitsForAny s parent w.1) with
      | none =>
        rw [hf] at h
        exact .inl ⟨rfl, (Except.ok.inj h).symm⟩
      | some w =>
        rw [hf] at h
        obtain ⟨list, hl, h⟩ := bind_eq_ok h
        refine .inr ⟨w.1, w.2, list, rfl, hl, (Except.ok.inj h).symm.trans ?_⟩
        simp [serve, served]
  · exact .inl ⟨fun hc => he hc.1, (Except.ok.inj h).symm⟩

theorem exitThreadRoutine_quiet (h : exitThreadRoutine s on t = .ok s') :
    Quiet s s' ∨ ∃ s1 info result, Quiet s s1 ∧ info ∈ s.waitpidList ∧
      s' = ((s1.wake on (s.waitpidInfo info).waitingThread).enqueueWl on
        (s.waitpidInfo info).waitingThread).note
          (.reported (s.waitpidInfo info).waitingThread (s.waitpidInfo info).pid result) := by
  rcases exitThreadRoutine_ok h with ⟨-, rfl⟩ | ⟨parent, -, -, ⟨-, rfl⟩ | ⟨info, index, list, hf, hl, rfl⟩⟩
  · exact .inl (.refl _)
  · exact .inl (quiet_modifyProcess _ _ _)
  · have hmem := mem_of_find?_eq_some hf
    have hinfo := fst_mem_of_mem_zipIdx hmem
    have hindex := (mem_zipIdx hmem).2.1
    rw [Nat.zero_add] at hindex
    have hdrop := vectorRemove_ok hindex hl
    refine .inr ⟨served s list info (exitResult s (s.info t).process), info, _,
      ⟨rfl, rfl, rfl, rfl, rfl, rfl, rfl, rfl, fun i hi => ?_, fun i => served_waiting ..⟩, hinfo, rfl⟩
    exact (dropLast_sublist _).subset (hdrop ▸ hi)

/-- What `scheduler_handle_signal` can do with a thread. -/
inductive SignalEffect (s : Sched T P G n) (c : Fin n) (t : T) : HandleSignal → Sched T P G n → Prop
  | absent : (s.info t).isSignaling = false → SignalEffect s c t .ignore s
  | ended {s' : Sched T P G n} : (s.info t).isSignaling = true →
      (s.process (s.info t).process).isFatal (s.info t).signal →
      endThread (takeSignal s t) (some c) t = .ok s' → SignalEffect s c t .exit s'
  | ignored : (s.info t).isSignaling = true → (s.info t).signal ≠ sigkill →
      SignalEffect s c t .ignore (takeSignal s t)
  | delivered (handler : SignalHandler) : (s.info t).isSignaling = true →
      (s.info t).signal ≠ sigkill → SignalEffect s c t .execute
        (deliver (takeSignal s t) c t handler (s.info t).signal)

theorem handleSignal_effect {handling : HandleSignal}
    (h : schedulerHandleSignal s c t = .ok (handling, s')) : SignalEffect s c t handling s' := by
  unfold schedulerHandleSignal at h
  cases hsig : (s.info t).isSignaling with
  | false =>
    simp only [hsig, Bool.false_eq_true, if_false, Except.ok.injEq, Prod.mk.injEq] at h
    obtain ⟨rfl, rfl⟩ := h
    exact .absent hsig
  | true =>
    simp only [hsig, if_true] at h
    split_ifs at h with hk hr hd
    · obtain ⟨s1, hend, h⟩ := bind_eq_ok h
      cases h
      exact .ended hsig (.inl hk) hend
    · split at h
      · rename_i hact
        obtain ⟨s1, hend, h⟩ := bind_eq_ok h
        cases h
        refine .ended hsig (.inr ⟨?_, hd⟩) hend
        simpa [takeSignal, modifyInfo] using hact
      · cases h
        exact .delivered _ hsig hk
      · cases h
        exact .ignored hsig hk
    · split at h
      · cases h
        exact .ignored hsig hk
      · cases h
        exact .delivered _ hsig hk
      · cases h
        exact .ignored hsig hk

theorem handleSignal_exit (h : schedulerHandleSignal s c t = .ok (.exit, s')) :
    (s.info t).isSignaling = true ∧ (s.process (s.info t).process).isFatal (s.info t).signal ∧
      endThread (takeSignal s t) (some c) t = .ok s' := by
  have heff := handleSignal_effect h
  generalize hh : HandleSignal.exit = handling at heff
  cases heff with
  | absent _ => cases hh
  | ended hs hf hend => exact ⟨hs, hf, hend⟩
  | ignored _ _ => cases hh
  | delivered _ _ _ => cases hh

theorem handleSignal_execute (h : schedulerHandleSignal s c t = .ok (.execute, s')) :
    ∃ handler, s' = deliver (takeSignal s t) c t handler (s.info t).signal := by
  have heff := handleSignal_effect h
  generalize hh : HandleSignal.execute = handling at heff
  cases heff with
  | absent _ => cases hh
  | ended _ _ _ => cases hh
  | ignored _ _ => cases hh
  | delivered handler _ _ => exact ⟨handler, rfl⟩

/-- What `chooseStarting` can do, by the state after the first thread has been taken. -/
inductive Chosen (s : Sched T P G n) (c : Fin n) : Option T → Sched T P G n → Prop
  | nobody {s1 : Sched T P G n} : s.getTread = .ok (none, s1) → Chosen s c none s1
  | kernel {s1 : Sched T P G n} {t : T} : s.getTread = .ok (some t, s1) →
      (s1.info t).ctx.cpuCtx.isKernel = true → Chosen s c (some t) s1
  | first {s1 s2 : Sched T P G n} {t : T} {handling : HandleSignal} :
      s.getTread = .ok (some t, s1) → (s1.info t).ctx.cpuCtx.isKernel = false →
      handling ≠ .exit → schedulerHandleSignal s1 c t = .ok (handling, s2) → Chosen s c (some t) s2
  | second {s1 s2 s3 s4 : Sched T P G n} {t : T} {r : Option T} :
      s.getTread = .ok (some t, s1) → (s1.info t).ctx.cpuCtx.isKernel = false →
      schedulerHandleSignal s1 c t = .ok (.exit, s2) → exitThreadRoutine s2 (some c) t = .ok s3 →
      s3.getTread = .ok (r, s4) → Chosen s c r s4

theorem chooseStarting_chosen (h : chooseStarting s c = .ok (r, s')) : Chosen s c r s' := by
  obtain ⟨⟨starting, s1⟩, hget, h⟩ := bind_eq_ok h
  cases starting with
  | none =>
    cases h
    exact .nobody hget
  | some t =>
    dsimp only at h
    split_ifs at h with hk
    · cases h
      exact .kernel hget hk
    · obtain ⟨⟨handling, s2⟩, hsig, h⟩ := bind_eq_ok h
      rw [Bool.not_eq_true] at hk
      split_ifs at h with he
      · subst he
        obtain ⟨s3, hexit, h⟩ := bind_eq_ok h
        exact .second hget hk hsig hexit h
      · cases h
        exact .first hget hk he hsig

omit [DecidableEq P] in
theorem passOn_cases (s : Sched T P G n) (ending : Option T) (t : T) : passOn s ending t = s ∨
      ∃ e, passOn s ending t = s.modifyInfo t fun r => { r with threadToFree := some e } := by
  unfold passOn
  split
  · exact .inl rfl
  · split_ifs
    · exact .inr ⟨_, rfl⟩
    · exact .inl rfl

omit [DecidableEq T] [DecidableEq P] in
theorem fallback_some {ending : Option T} (h : fallback s c ending r = some t) :
    r = some t ∨ r = none ∧ s.iddleThread c = t ∧ ∃ e, ending = some e ∧
      (s.info e).isPausing = true := by
  unfold fallback at h
  split at h
  · exact .inl h
  · split_ifs at h with hp
    · cases r with
      | none => exact .inr ⟨rfl, Option.some.inj h, _, rfl, hp⟩
      | some a => exact .inl h
    · exact .inl h

omit [DecidableEq T] [DecidableEq P] in
theorem fallback_none {ending : Option T} (h : fallback s c ending r = none) :
    r = none ∧ ∀ e ∈ ending, (s.info e).isPausing = false := by
  unfold fallback at h
  split at h
  · exact ⟨h, by simp⟩
  · split_ifs at h with hp
    exact ⟨h, fun e he => by simpa [← Option.some.inj he] using hp⟩

/-- What the code that runs with the lock held leaves alone. -/
structure Within (s s' : Sched T P G n) : Prop where
  lock : s'.schedulerSpinlock = s.schedulerSpinlock
  cpu : s'.cpu = s.cpu
  iddleThread : s'.iddleThread = s.iddleThread
  calls : s'.calls = s.calls
  waitStage : s'.waitStage = s.waitStage
  log : ∀ e ∈ s.log, e ∈ s'.log

theorem Within.trans (h : Within s s1) (h' : Within s1 s') : Within s s' :=
  ⟨h'.lock.trans h.lock, h'.cpu.trans h.cpu, h'.iddleThread.trans h.iddleThread,
    h'.calls.trans h.calls, h'.waitStage.trans h.waitStage, fun e he => h'.log e (h.log e he)⟩

theorem Quiet.within (h : Quiet s s') : Within s s' :=
  ⟨h.lock, h.cpu, h.iddleThread, h.calls, h.waitStage, fun _ he => h.log.symm ▸ he⟩

theorem within_modifyInfo (s : Sched T P G n) (f : ThreadInfo T P G → ThreadInfo T P G) :
    Within s (s.modifyInfo t f) := ⟨rfl, rfl, rfl, rfl, rfl, fun _ h => h⟩

theorem within_note {e : Event T} : Within s (s.note e) :=
  ⟨rfl, rfl, rfl, rfl, rfl, fun _ h => mem_append_left _ h⟩

theorem within_enqueueWl :
    Within s (s.enqueueWl on t) := ⟨rfl, rfl, rfl, rfl, rfl, fun _ h => mem_append_left _ h⟩

theorem within_wake (s : Sched T P G n) : Within s (s.wake on t) :=
  ⟨rfl, rfl, rfl, rfl, rfl, fun _ h => mem_append_left _ h⟩

theorem exitThreadRoutine_within (h : exitThreadRoutine s on t = .ok s') : Within s s' := by
  rcases exitThreadRoutine_quiet h with hq | ⟨s1, info, _, hq, -, rfl⟩
  · exact hq.within
  · exact hq.within.trans (((within_wake ..).trans within_enqueueWl ..).trans within_note ..)

theorem endThread_within (h : endThread s on t = .ok s') : Within s s' :=
  ((quiet_modifyProcess ..).within.trans within_note ..).trans (exitThreadRoutine_within h)

omit [DecidableEq P] in
theorem getTread_eq (h : s.getTread = .ok (r, s')) : ∃ queue, s' = { s with queue } := by
  unfold getTread at h
  split at h
  · cases h
  · cases h
    exact ⟨_, rfl⟩

theorem getTread_within (h : s.getTread = .ok (r, s')) : Within s s' := by
  obtain ⟨queue, rfl⟩ := getTread_eq h
  exact ⟨rfl, rfl, rfl, rfl, rfl, fun _ h => h⟩

theorem SignalEffect.within {handling : HandleSignal} (h : SignalEffect s c t handling s') :
    Within s s' := by
  cases h with
  | absent _ => exact (Quiet.refl s).within
  | ended _ _ hend => exact (within_modifyInfo ..).trans (endThread_within hend)
  | ignored _ _ => exact within_modifyInfo ..
  | delivered _ _ _ =>
    exact (within_modifyInfo ..).trans ((within_modifyInfo ..).trans within_note ..)

theorem Chosen.within (h : Chosen s c r s') : Within s s' := by
  cases h with
  | nobody hget | kernel hget _ => exact getTread_within hget
  | first hget _ _ hsig => exact (getTread_within hget).trans (handleSignal_effect hsig).within
  | second hget _ hsig hexit hget' =>
    exact (((getTread_within hget).trans (handleSignal_effect hsig).within).trans
      (exitThreadRoutine_within hexit)).trans (getTread_within hget')

/-- The record of a thread after `context_save`. -/
def savedInfo (cpu : Cpu T G) (r : ThreadInfo T P G) : ThreadInfo T P G :=
  { r with
    threadToFree := none
    ctx := { r.ctx with cpuCtx := cpu.ctx, simdCtx := cpu.simd } }

/-- What becomes of the thread that was running. -/
inductive Retired (s : Sched T P G n) (c : Fin n) (e : T) : Sched T P G n → Prop
  | restored : (s.info e).isIgnoringCtx = true →
      Retired s c e ((s.modifyInfo e fun r =>
        { r with threadToFree := none, isIgnoringCtx := false }).enqueueWl (some c) e)
  | exited {s' : Sched T P G n} : (s.info e).isIgnoringCtx = false → (s.info e).isPausing = true →
      (s.info e).isExiting = true →
      exitThreadRoutine ((s.modifyInfo e fun r => { r with threadToFree := none }).note (.ended e))
        (some c) e = .ok s' → Retired s c e s'
  | parked : (s.info e).isIgnoringCtx = false → (s.info e).isPausing = true →
      (s.info e).isExiting = false → Retired s c e (s.modifyInfo e (savedInfo (s.cpu c)))
  | saved : (s.info e).isIgnoringCtx = false → (s.info e).isPausing = false →
      Retired s c e ((s.modifyInfo e (savedInfo (s.cpu c))).enqueueWl (some c) e)

theorem retireEnding_retired (h : retireEnding s c t = .ok s') : Retired s c t s' := by
  unfold retireEnding Sched.contextSave at h
  simp only [modifyInfo_info, if_true, modifyInfo_modifyInfo] at h
  split_ifs at h with hign hpause hexit
  · cases h
    exact .restored hign
  · exact .exited (by simpa using hign) hpause hexit h
  · cases h
    exact .parked (by simpa using hign) hpause (by simpa using hexit)
  · cases h
    exact .saved (by simpa using hign) (by simpa using hpause)

theorem Retired.within (h : Retired s c t s') : Within s s' := by
  cases h with
  | restored _ | saved _ _ => exact (within_modifyInfo ..).trans within_enqueueWl ..
  | exited _ _ _ hs =>
    exact ((within_modifyInfo ..).trans within_note ..).trans (exitThreadRoutine_within hs)
  | parked _ _ _ => exact within_modifyInfo ..

theorem retire_cases (h : retire s c = .ok s') :
    s.current c = none ∧ s' = s ∨ ∃ e, s.current c = some e ∧ Retired s c e s' := by
  unfold retire at h
  cases he : s.current c with
  | none =>
    rw [he] at h
    exact .inl ⟨rfl, (Except.ok.inj h).symm⟩
  | some e =>
    rw [he] at h
    exact .inr ⟨e, rfl, retireEnding_retired h⟩

theorem retire_within (h : retire s c = .ok s') : Within s s' := by
  rcases retire_cases h with ⟨-, rfl⟩ | ⟨e, -, hr⟩
  · exact (Quiet.refl _).within
  · exact hr.within

theorem schedulerHandler_ok {force : Bool} (hl : s.schedulerSpinlock = false)
    (h : schedulerHandler s c force = .ok s') :
    ∃ s1 s2 r, retire { s with schedulerSpinlock := true } c = .ok s1 ∧ Chosen s1 c r s2 ∧
      s' = (installStarting s2 c (s.current c) r).release := by
  unfold schedulerHandler at h
  rw [if_neg (by simp [hl])] at h
  obtain ⟨s0, h0, h⟩ := bind_eq_ok h
  obtain rfl : { s with schedulerSpinlock := true } = s0 := by
    simpa [acquire, hl] using h0
  obtain ⟨s1, h1, h⟩ := bind_eq_ok h
  obtain ⟨⟨r, s2⟩, h2, h⟩ := bind_eq_ok h
  exact ⟨s1, s2, r, h1, chooseStarting_chosen h2, (Except.ok.inj h).symm⟩

theorem acquire_free (h : s.schedulerSpinlock = false) :
    s.acquire = .ok { s with schedulerSpinlock := true } := by
  simp [acquire, h]

theorem release_acquired (h : s.schedulerSpinlock = false) :
    { s with schedulerSpinlock := true }.release = s := by
  rw [release, ← h]

theorem schedulerDequeue_held (h : s.schedulerSpinlock = true) (t : T) :
    schedulerDequeue s t = .error .deadlock := by
  rw [schedulerDequeue, acquire, if_pos h]
  rfl

/-- `scheduler_exit_thread` of a thread that is not queued, up to the switch. -/
def markExiting (s : Sched T P G n) (t : T) : Sched T P G n :=
  (s.modifyProcess (s.info t).process fun p =>
    { p with threads := vectorSet p.threads (s.info t).index none }).modifyInfo t fun r =>
      { r with isPausing := true, isExiting := true }

theorem exitSection_free (h : s.schedulerSpinlock = false)
    (hq : (s.queue.thread t).isInQueue = false) :
    exitSection s t = .ok (true, markExiting s t) := by
  rw [exitSection, acquire_free h]
  simp only [ok_bind]
  rw [if_neg (by simpa [modifyProcess] using hq)]
  simp [markExiting, modifyInfo, modifyProcess, release, h]

theorem exitSection_queued (h : s.schedulerSpinlock = false)
    (hq : (s.queue.thread t).isInQueue = true) (b : Bool) : exitSection s t ≠ .ok (b, s') := by
  intro hs
  rw [exitSection, acquire_free h] at hs
  simp only [ok_bind] at hs
  rw [if_pos (by simpa [modifyProcess] using hq)] at hs
  obtain ⟨s2, h2, hs⟩ := bind_eq_ok hs
  obtain ⟨s3, h3, -⟩ := bind_eq_ok hs
  rw [schedulerDequeue_held (exitThreadRoutine_within h2).lock] at h3
  cases h3

theorem pend_ok {r : Except Fault (Option (Call T) × Sched T P G n)} (h : pend r = .ok s') :
    ∃ call s1, r = .ok (call, s1) ∧ s' = { s1 with calls := s1.calls ++ call.toList } := by
  obtain ⟨⟨call, s1⟩, hr, h⟩ := bind_eq_ok h
  exact ⟨call, s1, hr, (Except.ok.inj h).symm⟩

/-- What the sections do to a system whose lock is free. -/
inductive Stepped (s : Sched T P G n) : SchedOp T G n → Sched T P G n → Prop
  | handler {c : Fin n} {s' : Sched T P G n} :
      schedulerHandler s c false = .ok s' → Stepped s (.handler c) s'
  | taskSwitch {c : Fin n} {s' : Sched T P G n} :
      taskSwitch s c = .ok s' → Stepped s (.taskSwitch c) s'
  | execute {c : Fin n} {cpu : Cpu T G} : Stepped s (.execute c cpu) (s.setCpu c cpu)
  | launched {t : T} : Stepped s (.launch t) (s.enqueueWl none t)
  | pauseRefused {t : T} : (s.info t).isPausing = true ∨ (s.info t).isExiting = true →
      Stepped s (.pause t) s
  | paused {t : T} : (s.info t).isPausing = false → (s.info t).isExiting = false →
      (s.queue.thread t).isInQueue = false →
      Stepped s (.pause t) (s.modifyInfo t fun r => { r with isPausing := true })
  | unpauseRefused {t : T} : (s.info t).isPausing = false → Stepped s (.unpause t) s
  | unpaused {t : T} : (s.info t).isPausing = true →
      Stepped s (.unpause t) { s.wake none t with calls := s.calls ++ [.enqueue t] }
  | signaled {t : T} {signal : ℕ} : Stepped s (.signal t signal)
      { s.modifyInfo t fun r => { r with isSignaling := true, signal := signal } with
        calls := s.calls ++ if (s.info t).isPausing then [.unpause t] else [] }
  | resumedNone {i : ℕ} : s.calls[i]? = none → Stepped s (.resume i) s
  | resumedEnqueue {i : ℕ} {t : T} : s.calls[i]? = some (.enqueue t) →
      Stepped s (.resume i) ({ s with calls := s.calls.eraseIdx i }.enqueueWl none t)
  | resumedRefused {i : ℕ} {t : T} : s.calls[i]? = some (.unpause t) →
      (s.info t).isPausing = false → Stepped s (.resume i) { s with calls := s.calls.eraseIdx i }
  | resumedUnpause {i : ℕ} {t : T} : s.calls[i]? = some (.unpause t) →
      (s.info t).isPausing = true → Stepped s (.resume i)
        { { s with calls := s.calls.eraseIdx i }.wake none t with
          calls := s.calls.eraseIdx i ++ [.enqueue t] }
  | exiting {t : T} : (s.queue.thread t).isInQueue = false →
      Stepped s (.exitThread t) (markExiting s t)
  | resultTaken {c : Fin n} {info : ℕ} {t : T} {result : ChildResult}
      {rest list : List ChildResult} : s.current c = some t →
      (s.process (s.info t).process).childsResult = result :: rest →
      vectorRemove (result :: rest) 0 = .ok list →
      Stepped s (.waitpid c (-1) info) (((s.modifyProcess (s.info t).process fun p =>
        { p with childsResult := list }).note (.reported t (-1) result)).note (.waited t result))
  | registered {c : Fin n} {info : ℕ} {t : T} {pid : ℤ} : s.current c = some t →
      (pid = -1 → (s.process (s.info t).process).childsResult = []) →
      Stepped s (.waitpid c pid info) (register s t pid info)
  | finished {c : Fin n} {info : ℕ} {t : T} : s.current c = some t →
      s.waitStage t = .returning info → Stepped s (.waitpidFinish c)
        ({ s with waitStage := Function.update s.waitStage t .outside }.note
          (.waited t (s.waitpidInfo info).childResult))
  | finishedNone {c : Fin n} : Stepped s (.waitpidFinish c) s
  | sigrestored {c : Fin n} {t : T} : s.current c = some t →
      (s.info t).isSignalToRestore = true → Stepped s (.sigrestore c) (s.modifyInfo t fun r =>
        { r with
          ctx := r.signalRestoreCtx
          signalRestoreCtx := r.ctx
          isSignalToRestore := false
          isIgnoringCtx := true })
  | sigrestoreRefused {c : Fin n} {t : T} : s.current c = some t →
      (s.info t).isSignalToRestore = false → Stepped s (.sigrestore c) s

section
variable (h : s.schedulerSpinlock = false)
include h

theorem unpauseSection_ok {call : Option (Call T)} (hs : unpauseSection s t = .ok (call, s')) :
    (s.info t).isPausing = true ∧ call = some (.enqueue t) ∧ s' = s.wake none t ∨
      (s.info t).isPausing = false ∧ call = none ∧ s' = s := by
  rw [unpauseSection, acquire_free h] at hs
  simp only [ok_bind] at hs
  split_ifs at hs with hp
  · cases hs
    refine .inl ⟨hp, rfl, ?_⟩
    simp [wake, modifyInfo, note, release, away, runsElsewhere,
      current, h]
  · cases hs
    exact .inr ⟨by simpa using hp, rfl, release_acquired h⟩

theorem schedulerEnqueue_ok (hs : schedulerEnqueue s t = .ok s') : s' = s.enqueueWl none t := by
  rw [schedulerEnqueue, acquire_free h] at hs
  cases hs
  simp [enqueueWl, note, release, runsElsewhere, current, h]

theorem pauseSection_ok {b : Bool} (hs : pauseSection s t = .ok (b, s')) :
    ((s.info t).isPausing = true ∨ (s.info t).isExiting = true) ∧ s' = s ∨
      (s.info t).isPausing = false ∧ (s.info t).isExiting = false ∧
        (s.queue.thread t).isInQueue = false ∧
        s' = s.modifyInfo t fun r => { r with isPausing := true } := by
  rw [pauseSection, acquire_free h] at hs
  simp only [ok_bind] at hs
  split_ifs at hs with hp hq
  · cases hs
    exact .inl ⟨hp, release_acquired h⟩
  · rw [schedulerDequeue_held rfl] at hs
    cases hs
  · cases hs
    simp only [not_or, Bool.not_eq_true] at hp hq
    exact .inr ⟨hp.1, hp.2, hq, by simp [modifyInfo, release, h]⟩

theorem resumeCall_stepped {i : ℕ} (hs : resumeCall s i = .ok s') : Stepped s (.resume i) s' := by
  unfold resumeCall at hs
  split at hs
  · rename_i hi
    cases hs
    exact .resumedNone hi
  · rename_i call hi
    obtain ⟨rest, s1, hc, rfl⟩ := pend_ok hs
    cases call with
    | enqueue t =>
      obtain ⟨s2, h2, hc⟩ := bind_eq_ok hc
      cases hc
      obtain rfl := schedulerEnqueue_ok (by exact h) h2
      rw [Option.toList_none, append_nil]
      exact .resumedEnqueue hi
    | unpause t =>
      rcases unpauseSection_ok (by exact h) hc with ⟨hp, rfl, rfl⟩ | ⟨hp, rfl, rfl⟩
      · exact .resumedUnpause hi hp
      · simpa using Stepped.resumedRefused hi hp

theorem waitpidSection_stepped {pid : ℤ}
    (hs : waitpidSection s c pid info = .ok s') : Stepped s (.waitpid c pid info) s' := by
  rw [waitpidSection, acquire_free h] at hs
  simp only [ok_bind] at hs
  split at hs
  · cases hs
  · rename_i t ht
    have hreg : ∀ s' , register { s with schedulerSpinlock := true } t pid info = s' →
        s' = register s t pid info := by
      rintro _ rfl
      simp [register, modifyInfo, release]
    split at hs
    · rename_i result rest hres
      split_ifs at hs with hpid
      · subst hpid
        obtain ⟨list, hlist, hs⟩ := bind_eq_ok hs
        cases hs
        have hform : Stepped s (.waitpid c (-1) info) _ := .resultTaken ht hres (hres ▸ hlist)
        convert hform using 1
        simp [modifyProcess, note, release, h]
      · rw [hreg s' (Except.ok.inj hs)]
        exact .registered ht fun hp => absurd hp hpid
    · rename_i hres
      rw [hreg s' (Except.ok.inj hs)]
      exact .registered ht fun _ => hres

theorem sigrestoreSection_stepped
    (hs : sigrestoreSection s c = .ok s') : Stepped s (.sigrestore c) s' := by
  unfold sigrestoreSection at hs
  split at hs
  · cases hs
  · rename_i t ht
    split_ifs at hs with hr
    · rw [acquire_free h] at hs
      cases hs
      have hform : Stepped s (.sigrestore c) _ := .sigrestored ht hr
      convert hform using 1
      simp [modifyInfo, release, h]
    · cases hs
      exact .sigrestoreRefused ht (by simpa using hr)

end

theorem waitpidFinish_stepped (hs : waitpidFinish s c = .ok s') :
    Stepped s (.waitpidFinish c) s' := by
  unfold waitpidFinish at hs
  split at hs
  · cases hs
  · rename_i t ht
    split at hs
    · rename_i info hst
      cases hs
      exact .finished ht hst
    · cases hs
      exact .finishedNone

theorem schedPerform_stepped {op : SchedOp T G n} (h : s.schedulerSpinlock = false)
    (hs : schedPerform s op = .ok s') : Stepped s op s' := by
  cases op with
  | handler c => exact .handler hs
  | taskSwitch c => exact .taskSwitch hs
  | execute c cpu => exact Except.ok.inj hs ▸ .execute
  | launch t => exact schedulerEnqueue_ok h hs ▸ .launched
  | pause t =>
    obtain ⟨⟨b, s1⟩, h1, hs⟩ := bind_eq_ok hs
    cases hs
    rcases pauseSection_ok h h1 with ⟨hp, rfl⟩ | ⟨hp, he, hq, rfl⟩
    · exact .pauseRefused hp
    · exact .paused hp he hq
  | unpause t =>
    obtain ⟨call, s1, hr, rfl⟩ := pend_ok hs
    rcases unpauseSection_ok h hr with ⟨hp, rfl, rfl⟩ | ⟨hp, rfl, rfl⟩
    · exact .unpaused hp
    · simpa using Stepped.unpauseRefused hp
  | signal t signal =>
    obtain ⟨call, s1, hr, rfl⟩ := pend_ok hs
    rw [signalSection, acquire_free h] at hr
    cases hr
    have hform : Stepped s (.signal t signal) _ := .signaled
    convert hform using 1
    by_cases hp : (s.info t).isPausing = true <;>
      simp [modifyInfo, release, h, hp]
  | resume i => exact resumeCall_stepped h hs
  | exitThread t =>
    obtain ⟨⟨b, s1⟩, h1, hs⟩ := bind_eq_ok hs
    cases hs
    cases hq : (s.queue.thread t).isInQueue with
    | true => exact absurd h1 (exitSection_queued h hq b)
    | false =>
      rw [exitSection_free h hq] at h1
      cases h1
      exact .exiting hq
  | waitpid c pid info => exact waitpidSection_stepped h hs
  | waitpidFinish c => exact waitpidFinish_stepped hs
  | sigrestore c => exact sigrestoreSection_stepped h hs

end Kot.Kernel.Scheduler
