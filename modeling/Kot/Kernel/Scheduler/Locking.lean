import Kot.Kernel.Scheduler.Effects

/-! Who holds `scheduler_spinlock`. The helpers that run with the lock held do not touch it,
except for `scheduler_dequeue`, which acquires it again. -/
set_option linter.unusedSectionVars false

namespace Kot.Kernel.Scheduler
open Kot.Lib List

variable {T P G α β : Type} {n : ℕ} [DecidableEq T] [DecidableEq P] {s s' s1 : Sched T P G n}
  {c : Fin n} {on : Option (Fin n)} {t : T} {p : P} {call : Option (Call T)} {op : SchedOp T G n}

/-- The caller does not try to acquire the lock that it holds. -/
def NoDeadlock (r : Except Fault α) : Prop := r ≠ .error .deadlock

/-- Nor does it keep the lock. -/
def Alternates (r : Except Fault (Sched T P G n)) : Prop :=
  NoDeadlock r ∧ ∀ s', r = .ok s' → s'.schedulerSpinlock = false

@[simp] theorem noDeadlock_ok (a : α) : NoDeadlock (.ok a) := by simp [NoDeadlock]

theorem NoDeadlock.bind {x : Except Fault α} {f : α → Except Fault β} (hx : NoDeadlock x)
    (hf : ∀ a, x = .ok a → NoDeadlock (f a)) : NoDeadlock (x >>= f) := by
  cases x with
  | error e => exact fun h => hx (congrArg _ (Except.error.inj h))
  | ok a => exact hf a rfl

theorem Alternates.bind {x : Except Fault α} {f : α → Except Fault (Sched T P G n)}
    (hx : NoDeadlock x) (hf : ∀ a, x = .ok a → Alternates (f a)) : Alternates (x >>= f) := by
  refine ⟨hx.bind fun a ha => (hf a ha).1, fun s' h => ?_⟩
  obtain ⟨a, ha, h⟩ := bind_eq_ok h
  exact (hf a ha).2 s' h

theorem alternates_ok (h : s.schedulerSpinlock = false) : Alternates (.ok s) :=
  ⟨by simp, fun _ hs => Except.ok.inj hs ▸ h⟩

theorem vectorRemove_noDeadlock {v : List α} {i : ℕ} : NoDeadlock (vectorRemove v i) := by
  unfold vectorRemove NoDeadlock
  split_ifs <;> simp

theorem exitThreadRoutine_noDeadlock : NoDeadlock (exitThreadRoutine s on t) := by
  unfold exitThreadRoutine
  dsimp only
  split_ifs
  · split
    · simp
    · split
      · exact vectorRemove_noDeadlock.bind fun _ _ => by simp
      · simp
  · simp

theorem getTread_noDeadlock : NoDeadlock s.getTread := by
  unfold Sched.getTread NoDeadlock
  split <;> simp

theorem handleSignal_noDeadlock : NoDeadlock (schedulerHandleSignal s c t) := by
  have hend : ∀ s : Sched T P G n,
      NoDeadlock (do let s ← endThread s (some c) t; .ok (HandleSignal.exit, s)) := fun s =>
    exitThreadRoutine_noDeadlock.bind fun _ _ => by simp
  unfold schedulerHandleSignal
  split_ifs
  · dsimp only
    split_ifs
    · exact hend _
    · simp [NoDeadlock]
    · split
      · exact hend _
      · simp
      · simp
    · split <;> simp
  · simp

theorem retire_noDeadlock : NoDeadlock (retire s c) := by
  unfold retire
  split
  · simp
  · unfold retireEnding
    dsimp only
    split_ifs
    · simp
    · exact exitThreadRoutine_noDeadlock
    · simp
    · simp

theorem chooseStarting_noDeadlock : NoDeadlock (chooseStarting s c) := by
  refine getTread_noDeadlock.bind fun a _ => ?_
  obtain ⟨starting, s⟩ := a
  cases starting with
  | none => simp
  | some t =>
    dsimp only
    split_ifs
    · simp
    · refine handleSignal_noDeadlock.bind fun b _ => ?_
      split_ifs
      · exact exitThreadRoutine_noDeadlock.bind fun _ _ => getTread_noDeadlock
      · simp

section
variable (h : s.schedulerSpinlock = false)
include h

theorem handler_alternates (c : Fin n) (force : Bool) :
    Alternates (schedulerHandler s c force) := by
  constructor
  · unfold schedulerHandler
    rw [if_neg (by simp [h])]
    refine NoDeadlock.bind (by simp [Sched.acquire, h]) fun s _ => ?_
    exact retire_noDeadlock.bind fun s _ => chooseStarting_noDeadlock.bind fun _ _ => by simp
  · intro s' hs
    obtain ⟨s1, s2, r, -, -, rfl⟩ := schedulerHandler_ok h hs
    rfl

theorem schedulerEnqueue_alternates (t : T) : Alternates (schedulerEnqueue s t) := by
  rw [schedulerEnqueue, acquire_free h]
  exact alternates_ok rfl

theorem unpauseSection_free (t : T) :
    ∃ call s', unpauseSection s t = .ok (call, s') ∧ s'.schedulerSpinlock = false := by
  rw [unpauseSection, acquire_free h]
  simp only [ok_bind]
  split_ifs
  · exact ⟨_, _, rfl, rfl⟩
  · exact ⟨_, _, rfl, rfl⟩

theorem finishCall_alternates (call : Option (Call T)) : Alternates (finishCall s call) := by
  rcases call with _ | ⟨t | t⟩
  · exact alternates_ok h
  · obtain ⟨call, s', hs, hl⟩ := unpauseSection_free h t
    rw [finishCall, hs]
    simp only [ok_bind]
    cases call with
    | none => exact alternates_ok hl
    | some _ => exact schedulerEnqueue_alternates hl t
  · exact schedulerEnqueue_alternates h t

theorem unpause_alternates (t : T) : Alternates (schedulerUnpauseThread s t) := by
  obtain ⟨call, s', hs, hl⟩ := unpauseSection_free h t
  rw [schedulerUnpauseThread, hs]
  exact finishCall_alternates hl call

theorem signal_alternates (t : T) (signal : ℕ) : Alternates (schedulerSignalThread s t signal) := by
  rw [schedulerSignalThread, signalSection, acquire_free h]
  exact finishCall_alternates rfl _

theorem taskSwitch_alternates (c : Fin n) : Alternates (taskSwitch s c) := by
  exact handler_alternates (by exact h) c true

theorem waitpidSection_alternates (c : Fin n) (pid : ℤ)
    (info : ℕ) : Alternates (waitpidSection s c pid info) := by
  rw [waitpidSection, acquire_free h]
  simp only [ok_bind]
  split
  · exact ⟨by simp [NoDeadlock], fun _ hs => by cases hs⟩
  · split
    · split_ifs
      · exact Alternates.bind vectorRemove_noDeadlock fun _ _ => alternates_ok rfl
      · exact alternates_ok rfl
    · exact alternates_ok rfl

theorem waitpid_alternates (c : Fin n) (pid : ℤ) (info : ℕ) :
    Alternates (schedulerWaitpid s c pid info) := by
  obtain ⟨h1, h2⟩ := waitpidSection_alternates h c pid info
  refine Alternates.bind h1 fun s' hs => ?_
  split
  · exact taskSwitch_alternates (h2 s' hs) c
  · exact alternates_ok (h2 s' hs)

end

/-- A queued thread that is neither pausing nor exiting. -/
def PausesQueued (s : Sched T P G n) (t : T) : Prop :=
  (s.queue.thread t).isInQueue = true ∧ (s.info t).isPausing = false ∧
    (s.info t).isExiting = false

section
variable (h : s.schedulerSpinlock = false)
include h

theorem pause_alternates_iff (c : Fin n) (ctx : Bool) (t : T) :
    Alternates (schedulerPauseThread s c ctx t) ↔ ¬ PausesQueued s t := by
  rw [schedulerPauseThread, pauseSection, acquire_free h]
  simp only [ok_bind, PausesQueued]
  by_cases hp : (s.info t).isPausing = true ∨ (s.info t).isExiting = true
  · rw [if_pos hp]
    simp only [ok_bind]
    refine iff_of_true ?_ (by rintro ⟨-, h1, h2⟩; simp [h1, h2] at hp)
    rw [if_neg (by simp)]
    exact alternates_ok rfl
  · rw [if_neg hp]
    by_cases hq : (s.queue.thread t).isInQueue = true
    · rw [if_pos hq, schedulerDequeue_held rfl]
      refine iff_of_false (fun ha => ha.1 rfl) ?_
      simp only [not_or, Bool.not_eq_true] at hp
      simp [hq, hp]
    · rw [if_neg hq]
      simp only [ok_bind]
      refine iff_of_true ?_ (fun hx => hq hx.1)
      split_ifs
      · exact taskSwitch_alternates rfl c
      · exact alternates_ok rfl

theorem exitThread_queued (c : Fin n) (ctx : Bool)
    (hq : (s.queue.thread t).isInQueue = true) : schedulerExitThread s c ctx t ≠ .ok s' := by
  intro hs
  obtain ⟨⟨b, s1⟩, h1, -⟩ := bind_eq_ok hs
  exact exitSection_queued h hq b h1

theorem exitThread_alternates (c : Fin n) (ctx : Bool)
    (hq : (s.queue.thread t).isInQueue = false) : Alternates (schedulerExitThread s c ctx t) := by
  rw [schedulerExitThread, exitSection_free h hq]
  simp only [ok_bind]
  split_ifs
  · exact taskSwitch_alternates (s := markExiting s t) h c
  · exact alternates_ok h

theorem exitOther_ok {i : ℕ} (hs : exitOther c p s i = .ok s') :
    s' = s ∨ ∃ t, (s.process p).threads[i]? = some (some t) ∧ s.current c ≠ some t ∧
      (s.queue.thread t).isInQueue = false ∧ s' = markExiting s t := by
  unfold exitOther at hs
  split at hs
  · exact .inl (Except.ok.inj hs).symm
  · rename_i t ht
    split_ifs at hs with hc
    · exact .inl (Except.ok.inj hs).symm
    · cases hq : (s.queue.thread t).isInQueue with
      | true => exact absurd hs (exitThread_queued h c true hq)
      | false =>
        rw [schedulerExitThread, exitSection_free h hq] at hs
        simp only [ok_bind] at hs
        rw [if_neg fun hx => hc (hx.2 trivial)] at hs
        exact .inr ⟨t, Option.join_eq_some_iff.mp ht, hc, hq, (Except.ok.inj hs).symm⟩

end

/-- No thread that the loop reaches is queued. -/
def OthersRunning (s : Sched T P G n) (c : Fin n) (p : P) : Prop :=
  ∀ t, some t ∈ (s.process p).threads → s.current c ≠ some t →
    (s.queue.thread t).isInQueue = false

theorem markExiting_threads : ((markExiting s t).process p).threads = if p = (s.info t).process then
      vectorSet (s.process p).threads (s.info t).index none else (s.process p).threads := by
  by_cases hp : p = (s.info t).process
  · subst hp; simp [markExiting, Sched.modifyInfo, Sched.modifyProcess]
  · simp [markExiting, Sched.modifyInfo, Sched.modifyProcess, hp]

theorem OthersRunning.markExiting (h : OthersRunning s c p) (t : T) :
    OthersRunning (markExiting s t) c p := by
  intro a ha hc
  refine h a ?_ hc
  rw [markExiting_threads] at ha
  split_ifs at ha with hp
  · rcases mem_or_eq_of_mem_set ha with ha | ha
    · exact ha
    · cases ha
  · exact ha

theorem exitOther_noDeadlock {i : ℕ} (h : s.schedulerSpinlock = false) (ho : OthersRunning s c p) :
    NoDeadlock (exitOther c p s i) := by
  unfold exitOther
  split
  · simp
  · rename_i t ht
    split_ifs with hc
    · simp
    · exact (exitThread_alternates h c true
        (ho t (mem_of_getElem? (Option.join_eq_some_iff.mp ht)) hc)).1

theorem exitLoop_free {l : List ℕ} (h : s.schedulerSpinlock = false) (ho : OthersRunning s c p) :
    NoDeadlock (l.foldlM (exitOther c p) s) ∧ ∀ s', l.foldlM (exitOther c p) s = .ok s' →
      s'.schedulerSpinlock = false ∧ s'.queue = s.queue ∧ s'.current c = s.current c := by
  induction l generalizing s with
  | nil => exact ⟨by simp [pure, Except.pure], fun s' hs => Except.ok.inj hs ▸ ⟨h, rfl, rfl⟩⟩
  | cons i l ih =>
    have hstep : ∀ s1, exitOther c p s i = .ok s1 → s1.schedulerSpinlock = false ∧
        OthersRunning s1 c p ∧ s1.queue = s.queue ∧ s1.current c = s.current c := by
      intro s1 h1
      rcases exitOther_ok h h1 with rfl | ⟨t, -, -, -, rfl⟩
      · exact ⟨h, ho, rfl, rfl⟩
      · exact ⟨h, ho.markExiting t, rfl, rfl⟩
    rw [foldlM_cons]
    refine ⟨(exitOther_noDeadlock h ho).bind fun s1 h1 => ?_, fun s' hs => ?_⟩
    · exact (ih (hstep s1 h1).1 (hstep s1 h1).2.1).1
    · obtain ⟨s1, h1, hs⟩ := bind_eq_ok hs
      obtain ⟨hl, ho1, hq, hc⟩ := hstep s1 h1
      obtain ⟨hl', hq', hc'⟩ := (ih hl ho1).2 s' hs
      exact ⟨hl', hq'.trans hq, hc'.trans hc⟩

/-- The entries of the thread list know their place. -/
def Indexed (s : Sched T P G n) (p : P) : Prop :=
  ∀ i t, (s.process p).threads[i]? = some (some t) → (s.info t).index = i ∧ (s.info t).process = p

theorem Indexed.markExiting (h : Indexed s p) (t : T) : Indexed (markExiting s t) p := by
  intro i a ha
  have hinfo : ∀ b, ((Scheduler.markExiting s t).info b).index = (s.info b).index ∧
      ((Scheduler.markExiting s t).info b).process = (s.info b).process := by
    intro b
    rw [Scheduler.markExiting, Sched.modifyInfo_info]
    split_ifs <;> exact ⟨rfl, rfl⟩
  rw [(hinfo a).1, (hinfo a).2]
  refine h i a ?_
  rw [markExiting_threads] at ha
  split_ifs at ha with hp
  · rw [vectorSet, getElem?_set] at ha
    split_ifs at ha with h1 h2
    · simp at ha
    · exact ha
  · exact ha

theorem exitLoop_queued {l : List ℕ} {i : ℕ} (h : s.schedulerSpinlock = false) (hx : Indexed s p)
    (ht : (s.process p).threads[i]? = some (some t)) (hc : s.current c ≠ some t)
    (hq : (s.queue.thread t).isInQueue = true) (hi : i ∈ l) :
    l.foldlM (exitOther c p) s ≠ .ok s' := by
  induction l generalizing s with
  | nil => simp at hi
  | cons j l ih =>
    rw [foldlM_cons]
    intro hs
    obtain ⟨s1, h1, hrest⟩ := bind_eq_ok hs
    by_cases hj : j = i
    · subst hj
      rw [exitOther, ht, Option.join_some] at h1
      simp only [if_neg hc] at h1
      exact exitThread_queued h c true hq h1
    · have hil : i ∈ l := by simpa [Ne.symm hj] using hi
      rcases exitOther_ok h h1 with rfl | ⟨a, ha, -, -, rfl⟩
      · exact ih h hx ht hc hq hil hrest
      · refine ih (s := markExiting s a) h (hx.markExiting a) ?_ hc hq hil hrest
        obtain ⟨hindex, -⟩ := hx j a ha
        rw [markExiting_threads]
        split_ifs
        · rw [vectorSet, getElem?_set, if_neg (by rw [hindex]; exact hj), ht]
        · exact ht

/-- Neither the thread that exits its process nor another thread of the process is queued. -/
def ProcessRunning (s : Sched T P G n) (c : Fin n) (p : P) : Prop :=
  OthersRunning s c p ∧ ∀ t ∈ s.current c, (s.queue.thread t).isInQueue = false

theorem exitProcess_alternates (h : s.schedulerSpinlock = false) (hp : ProcessRunning s c p) :
    Alternates (schedulerExitProcess s c p) := by
  obtain ⟨hno, hloop⟩ := exitLoop_free h hp.1
  refine Alternates.bind hno fun s' hs => ?_
  obtain ⟨hl, hq, hcur⟩ := hloop s' hs
  rw [hcur]
  cases ht : s.current c with
  | none => exact ⟨by simp [NoDeadlock], fun _ hs => by cases hs⟩
  | some t => exact exitThread_alternates hl c true (hq ▸ hp.2 t ht)

theorem exitProcess_queued (h : s.schedulerSpinlock = false) (hx : Indexed s p)
    (hp : ¬ ProcessRunning s c p) : schedulerExitProcess s c p ≠ .ok s' := by
  intro hs
  obtain ⟨s1, h1, hs⟩ := bind_eq_ok hs
  by_cases ho : OthersRunning s c p
  · obtain ⟨hl, hq, hcur⟩ := (exitLoop_free h ho).2 s1 h1
    rw [hcur] at hs
    cases ht : s.current c with
    | none =>
      rw [ht] at hs
      cases hs
    | some t =>
      rw [ht] at hs
      cases hin : (s.queue.thread t).isInQueue with
      | true => exact exitThread_queued hl c true (hq ▸ hin) hs
      | false =>
        refine hp ⟨ho, fun a ha => ?_⟩
        rw [← Option.some.inj (ht.symm.trans ha)]
        exact hin
  · simp only [OthersRunning, not_forall, Bool.not_eq_false] at ho
    obtain ⟨t, ht, hc, hq⟩ := ho
    obtain ⟨i, hi⟩ := mem_iff_getElem?.mp ht
    refine exitLoop_queued h hx hi hc hq (mem_range.mpr ?_) h1
    exact (List.getElem?_eq_some_iff.mp hi).1

theorem Stepped.free (h : s.schedulerSpinlock = false) (hs : Stepped s op s') :
    s'.schedulerSpinlock = false := by
  cases hs with
  | handler hs => exact (handler_alternates h _ _).2 _ hs
  | taskSwitch hs => exact (taskSwitch_alternates h _).2 _ hs
  | registered => rfl
  | _ => exact h

end Kot.Kernel.Scheduler
