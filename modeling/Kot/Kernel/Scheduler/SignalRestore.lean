import Kot.Kernel.Scheduler.Spared

/-! The context of a thread that a signal interrupts: it waits in one slot until the handler of
the thread ends with `scheduler_sigrestore`. -/
set_option linter.unusedSectionVars false

namespace Kot.Kernel.Scheduler
open Kot.Lib Sched

variable {T P G : Type} {n : ℕ} [DecidableEq T] {s s' s1 s2 : Sched T P G n}
  {c d : Fin n} {t e a : T} {r : Option T} {x : Context T G}

/-- What a step leaves in the slots of a thread for signals, except that it may take the pending
signal. -/
structure Held (t : T) (s s' : Sched T P G n) : Prop where
  isSignalToRestore : (s'.info t).isSignalToRestore = (s.info t).isSignalToRestore
  signalRestoreCtx : (s'.info t).signalRestoreCtx = (s.info t).signalRestoreCtx
  pending : (s'.info t).isSignaling = true →
    (s.info t).isSignaling = true ∧ (s'.info t).signal = (s.info t).signal

theorem Held.trans (h : Held t s s1) (h' : Held t s1 s') : Held t s s' := by
  refine ⟨h'.1.trans h.1, h'.2.trans h.2, fun hs => ?_⟩
  obtain ⟨hs1, hsig⟩ := h'.pending hs
  exact ⟨(h.pending hs1).1, hsig.trans (h.pending hs1).2⟩

theorem Spared.held (h : Spared t s s') : Held t s s' := by
  obtain ⟨b, f, hi⟩ := h.info
  exact ⟨by rw [hi], by rw [hi], fun hs => by rw [hi] at hs ⊢; exact ⟨hs, rfl⟩⟩

/-- A pending signal does not end the thread. -/
def Harmless (s : Sched T P G n) (t : T) : Prop :=
  (s.info t).isSignaling = true → ¬ (s.process (s.info t).process).isFatal (s.info t).signal

theorem Held.harmless (h : Held t s s') (hk : Kindred s s') (hh : Harmless s t) :
    Harmless s' t := by
  intro hs
  obtain ⟨hs, hsig⟩ := h.pending hs
  rw [hk.isFatal, hk.home, hsig]
  exact hh hs

theorem held_modifyInfo {f : ThreadInfo T P G → ThreadInfo T P G}
    (h1 : (f (s.info t)).isSignalToRestore = (s.info t).isSignalToRestore)
    (h2 : (f (s.info t)).signalRestoreCtx = (s.info t).signalRestoreCtx)
    (h3 : (f (s.info t)).isSignaling = true →
      (s.info t).isSignaling = true ∧ (f (s.info t)).signal = (s.info t).signal) :
    Held t s (s.modifyInfo t f) := by
  have hi : (s.modifyInfo t f).info t = f (s.info t) := by rw [modifyInfo_info, if_pos rfl]
  exact ⟨by rw [hi, h1], by rw [hi, h2], by rw [hi]; exact h3⟩

theorem held_takeSignal : Held t s (takeSignal s t) := held_modifyInfo rfl rfl nofun

theorem deliver_info (s : Sched T P G n) (c : Fin n) (t : T) (handler : SignalHandler) (signal : ℕ) :
    (deliver (takeSignal s t) c t handler signal).info t = { s.info t with
      ctx := contextSignal handler (s.info t).ctx.cpuCtx (s.cpu c).simd signal
        (s.info t).signalRestoreCtx
      signalRestoreCtx := (s.info t).ctx
      isSignalToRestore := true
      isSignaling := false
      signal := 0 } := by
  rw [deliver, note_info, modifyInfo_info, if_pos rfl, takeSignal, modifyInfo_info,
    if_pos rfl]
  rfl

/-- The context that the thread goes on with when it is started again. -/
def resumeCtx (s : Sched T P G n) (c : Fin n) (t : T) : Context T G :=
  if s.current c = some t ∧ (s.info t).isIgnoringCtx = false ∧
      ¬ ((s.info t).isPausing = true ∧ (s.info t).isExiting = true) then
    { (s.info t).ctx with cpuCtx := (s.cpu c).ctx, simdCtx := (s.cpu c).simd }
  else (s.info t).ctx

section
variable [DecidableEq P]

theorem Retired.held (hr : Retired s c t s') : Held t s s' := by
  have hfree : Held t s (s.modifyInfo t fun r => { r with threadToFree := none }) :=
    held_modifyInfo rfl rfl fun h => ⟨h, rfl⟩
  have hsave : Held t s (s.modifyInfo t (savedInfo (s.cpu c))) :=
    held_modifyInfo rfl rfl fun h => ⟨h, rfl⟩
  cases hr with
  | restored _ =>
    have h : Held t s (s.modifyInfo t fun r =>
      { r with threadToFree := none, isIgnoringCtx := false }) :=
      held_modifyInfo rfl rfl fun h => ⟨h, rfl⟩
    exact ⟨h.1, h.2, h.3⟩
  | exited _ _ _ hs => exact hfree.trans ((Spared.note _).trans (.exitThreadRoutine hs)).held
  | parked _ _ _ => exact hsave
  | saved _ _ => exact ⟨hsave.1, hsave.2, hsave.3⟩

theorem retire_resumes (hret : retire s c = .ok s') :
    Held t s s' ∧ (s'.info t).ctx = resumeCtx s c t := by
  rcases retire_cases hret with ⟨hc, rfl⟩ | ⟨e, he, hr⟩
  · refine ⟨(Spared.refl t s').held, ?_⟩
    rw [resumeCtx, if_neg (by simp [hc])]
  · by_cases het : t = e
    · subst het
      refine ⟨hr.held, ?_⟩
      have hself : ∀ f : ThreadInfo T P G → ThreadInfo T P G,
          (s.modifyInfo t f).info t = f (s.info t) := fun f => by
        rw [modifyInfo_info, if_pos rfl]
      cases hr with
      | restored hi =>
        rw [resumeCtx, if_neg fun h => absurd (h.2.1.symm.trans hi) Bool.false_ne_true]
        rw [enqueueWl_info, hself]
      | exited _ hp hx hs =>
        obtain ⟨b, f, hi⟩ := (Spared.exitThreadRoutine hs : Spared t _ s').info
        rw [resumeCtx, if_neg fun h => h.2.2 ⟨hp, hx⟩, hi]
        rw [note_info, hself]
      | parked hi _ hx =>
        rw [resumeCtx, if_pos ⟨he, hi, fun h => absurd (hx.symm.trans h.2) Bool.false_ne_true⟩, hself]
        rfl
      | saved hi hp =>
        rw [resumeCtx, if_pos ⟨he, hi, fun h => absurd (hp.symm.trans h.1) Bool.false_ne_true⟩]
        rw [enqueueWl_info, hself]
        rfl
    · have hsp := Spared.retired hr het
      obtain ⟨b, f, hi⟩ := hsp.info
      refine ⟨hsp.held, ?_⟩
      rw [resumeCtx, if_neg fun h => het (Option.some.inj (h.1.symm.trans he)), hi]

/-- The thread whose signal handler a decision on the CPU starts. -/
def interrupted (s : Sched T P G n) (c : Fin n) : Except Fault (Option T) := do
  let s ← retire { s with schedulerSpinlock := true } c
  let (starting, s) ← s.getTread
  match starting with
  | none => .ok none
  | some x =>
    if (s.info x).ctx.cpuCtx.isKernel then .ok none
    else
      let (handling, _) ← schedulerHandleSignal s c x
      .ok (if handling = .execute then some x else none)

theorem SignalEffect.held {handling : HandleSignal} (he : SignalEffect s c t handling s')
    (hx : handling ≠ .execute) : Held t s s' := by
  cases he with
  | absent _ => exact (Spared.refl t s).held
  | ended _ _ hend => exact held_takeSignal.trans (Spared.endThread hend).held
  | ignored _ _ => exact held_takeSignal
  | delivered _ _ _ => exact absurd rfl hx

theorem interrupted_first {handling : HandleSignal}
    (hret : retire { s with schedulerSpinlock := true } c = .ok s1)
    (hget : s1.getTread = .ok (some a, s2)) (hk : (s2.info a).ctx.cpuCtx.isKernel = false)
    (hsig : schedulerHandleSignal s2 c a = .ok (handling, s')) :
    interrupted s c = .ok (if handling = .execute then some a else none) := by
  simp only [interrupted, hret, hget, hk, hsig, ok_bind, Bool.false_eq_true, if_false]

theorem handler_held {force : Bool} (hl : s.schedulerSpinlock = false)
    (hs : schedulerHandler s c force = .ok s') (hn : interrupted s c ≠ .ok (some t)) :
    Held t s s' := by
  obtain ⟨s1, s2, r, hret, hch, rfl⟩ := schedulerHandler_ok hl hs
  have h1 : Held t { s with schedulerSpinlock := true } s1 := (retire_resumes hret).1
  have h3 := (installStarting_frame (t := t) s2 c (s.current c) r).2.2.2.held
  have hpop : ∀ {s1 s2 : Sched T P G n} {a}, s1.getTread = .ok (a, s2) → Held t s1 s2 := by
    intro s1 s2 a hget
    obtain ⟨queue, rfl⟩ := getTread_eq hget
    exact ⟨rfl, rfl, fun h => ⟨h, rfl⟩⟩
  have hsignal : ∀ {s1 s2 : Sched T P G n} {a handling}, SignalEffect s1 c a handling s2 →
      (a = t → handling ≠ .execute) → Held t s1 s2 := by
    intro s1 s2 a handling heff hne
    by_cases hat : a = t
    · subst hat
      exact heff.held (hne rfl)
    · exact (Spared.signalEffect heff fun h => hat h.symm).held
  have h2 : Held t s1 s2 := by
    cases hch with
    | nobody hget | kernel hget _ => exact hpop hget
    | first hget hk _ hsig =>
      refine (hpop hget).trans (hsignal (handleSignal_effect hsig) ?_)
      rintro rfl rfl
      exact hn (interrupted_first hret hget hk hsig)
    | second hget _ hsig hexit hget' =>
      refine ((hpop hget).trans (hsignal (handleSignal_effect hsig) fun _ => nofun)).trans ?_
      exact (Spared.exitThreadRoutine hexit).held.trans (hpop hget')
  have h := (h1.trans h2).trans h3
  exact ⟨h.1, h.2, h.3⟩

theorem handler_delivered {force : Bool} (hl : s.schedulerSpinlock = false)
    (hs : schedulerHandler s c force = .ok s') (hd : interrupted s c = .ok (some t)) :
    (s'.info t).isSignalToRestore = true ∧ (s'.info t).signalRestoreCtx = resumeCtx s c t ∧
      (s'.info t).isSignaling = false ∧ (resumeCtx s c t).cpuCtx.isKernel = false := by
  obtain ⟨s1, s2, r, hret, hch, rfl⟩ := schedulerHandler_ok hl hs
  have hctx : (s1.info t).ctx = resumeCtx s c t := (retire_resumes hret).2
  obtain ⟨b, f, hi⟩ := (installStarting_frame (t := t) s2 c (s.current c) r).2.2.2.info
  cases hch with
  | nobody hget => simp [interrupted, hret, hget, ok_bind] at hd
  | kernel hget hk => simp [interrupted, hret, hget, hk, ok_bind] at hd
  | second hget hk hsig _ _ => simp [interrupted_first hret hget hk hsig] at hd
  | @first s3 _ a handling hget hk _ hsig =>
    rw [interrupted_first hret hget hk hsig] at hd
    split_ifs at hd with hh
    · obtain rfl : a = t := by simpa using hd
      subst hh
      obtain ⟨queue, rfl⟩ := getTread_eq hget
      obtain ⟨handler, rfl⟩ := handleSignal_execute hsig
      have hnew := deliver_info { s1 with queue } c a handler (s1.info a).signal
      refine ⟨?_, ?_, ?_, hctx ▸ hk⟩
      · exact (congrArg ThreadInfo.isSignalToRestore hi).trans (by rw [hnew])
      · exact (congrArg ThreadInfo.signalRestoreCtx hi).trans (by rw [hnew]; exact hctx)
      · exact (congrArg ThreadInfo.isSignaling hi).trans (by rw [hnew])
    · cases hd

/-- The handler of the thread has ended: the interrupted context is back, and the thread is queued
or is going to be without its present context. -/
structure Restored (s : Sched T P G n) (t : T) (x : Context T G) : Prop where
  isSignalToRestore : (s.info t).isSignalToRestore = false
  ctx : (s.info t).ctx = x
  place : (s.queue.thread t).isInQueue = true ∨
    ∃ d, s.current d = some t ∧ (s.info t).isIgnoringCtx = true

theorem Restored.resumeCtx (h : Restored s t x) (hx : Exclusive none s) (c : Fin n) :
    resumeCtx s c t = x := by
  rw [Scheduler.resumeCtx, if_neg, h.ctx]
  rintro ⟨hc, hi, -⟩
  rcases h.place with hq | ⟨d, -, hi'⟩
  · have hrun := (s.runsElsewhere_iff t none).mpr ⟨c, nofun, hc⟩
    exact Bool.false_ne_true ((hx.queued t hq).1.symm.trans hrun)
  · exact Bool.false_ne_true (hi.symm.trans hi')

theorem Restored.retire (h : Restored s t x) (hx : Exclusive none s) (hret : retire s c = .ok s') :
    (s'.info t).ctx = x ∧ ((s'.queue.thread t).isInQueue = true ∨
      ∃ d, d ≠ c ∧ s.current d = some t ∧ (s'.info t).isIgnoringCtx = true) := by
  have hctx := (retire_resumes hret).2.trans (h.resumeCtx hx c)
  refine ⟨hctx, ?_⟩
  by_cases hc : s.current c = some t
  · left
    have hi : (s.info t).isIgnoringCtx = true := by
      rcases h.place with hq | ⟨d, -, hi⟩
      · have hrun := (s.runsElsewhere_iff t none).mpr ⟨c, nofun, hc⟩
        exact absurd ((hx.queued t hq).1.symm.trans hrun) Bool.false_ne_true
      · exact hi
    rcases retire_cases hret with ⟨hnone, -⟩ | ⟨e, he, hr⟩
    · exact absurd (hnone.symm.trans hc) nofun
    · obtain rfl : e = t := Option.some.inj (he.symm.trans hc)
      cases hr with
      | restored _ => rw [enqueueWl_queue, enqueueWl_isInQueue, if_pos rfl]
      | exited hn _ _ _ | parked hn _ _ | saved hn _ =>
        exact absurd (hn.symm.trans hi) Bool.false_ne_true
  · have hsp : Spared t s s' := by
      rcases retire_cases hret with ⟨-, rfl⟩ | ⟨e, he, hr⟩
      · exact .refl t _
      · exact .retired hr fun h => hc (h ▸ he)
    rcases h.place with hq | ⟨d, hd, hi⟩
    · exact .inl (hsp.queued hq)
    · exact .inr ⟨d, fun h => hc (h ▸ hd), hd, hsp.ctx.2.trans hi⟩

theorem Chosen.restored (hch : Chosen s c (some t) s') (hx : (s.info t).ctx.cpuCtx.isKernel = false)
    (hpend : Harmless s t)
    (hret : retire { s1 with schedulerSpinlock := true } c = .ok s)
    (hn : interrupted s1 c ≠ .ok (some t)) : (s'.info t).ctx = (s.info t).ctx := by
  generalize hr : some t = r at hch
  cases hch with
  | nobody _ => cases hr
  | kernel hget hkernel =>
    cases hr
    obtain ⟨queue, rfl⟩ := getTread_eq hget
    exact absurd (hx.symm.trans hkernel) Bool.false_ne_true
  | @first s3 _ _ handling hget hk hne hsig =>
    cases hr
    have hint := interrupted_first hret hget hk hsig
    obtain ⟨queue, rfl⟩ := getTread_eq hget
    cases handleSignal_effect hsig with
    | absent _ => rfl
    | ended _ _ _ => exact absurd rfl hne
    | ignored _ _ => rw [takeSignal, modifyInfo_info, if_pos rfl]
    | delivered _ _ _ => exact absurd hint hn
  | @second s3 s4 s5 _ a _ hget hk hsig hexit hget' =>
    obtain ⟨queue', rfl⟩ := getTread_eq hget'
    obtain ⟨queue, rfl⟩ := getTread_eq hget
    by_cases hat : t = a
    · subst hat
      obtain ⟨hs, hf, -⟩ := handleSignal_exit hsig
      exact absurd hf (hpend hs)
    · exact ((Spared.signalEffect (handleSignal_effect hsig) hat).trans
        (.exitThreadRoutine hexit)).ctx.1

theorem handler_restored {force : Bool} (ho : Orderly s)
    (hs : schedulerHandler s c force = .ok s') (hw : WakesAway s') (h : Restored s t x)
    (hx : x.cpuCtx.isKernel = false)
    (hpend : Harmless s t)
    (hn : interrupted s c ≠ .ok (some t)) :
    Restored s' t x ∧ s'.current c ≠ some t ∨ s'.cpu c = ⟨x.cpuCtx, x.simdCtx, x.fsBase⟩ := by
  have hheld := handler_held ho.free hs hn
  have hx' := (handler_guarded ho.guarded ho.free ho.iddle hs hw).1
  obtain ⟨s1, s2, r, hret, hch, rfl, hw2, hin, hg1, hcur⟩ := handler_parts ho.free ho.guarded hs hw
  have hlock : Restored { s with schedulerSpinlock := true } t x := ⟨h.1, h.2, h.3⟩
  obtain ⟨hctx1, hplace⟩ :=
    hlock.retire ((ho.guarded.setLock true).exclusive (hin.wakesAway hw2)) hret
  have hpend1 := (retire_resumes hret).1.harmless (retire_kindred hret) hpend
  obtain ⟨hqueue, -, hcpu, hsp3⟩ := installStarting_frame s2 c (s.current c) r
  by_cases hrt : r = some t
  · subst hrt
    right
    have hctx2 := hch.restored (hctx1 ▸ hx) hpend1 hret hn
    have h2 := installStarting_cpu (fallback_started s2 c (s.current c) t)
    rw [hctx2, hctx1] at h2
    exact h2
  · left
    have hsp : Spared t s1 s2 := by
      refine (hch.spared hg1 hw2 hrt).resolve_right ?_
      rintro ⟨a1, a2, a3, hget, hsig, -⟩
      obtain ⟨hs, hf, -⟩ := handleSignal_exit hsig
      obtain ⟨queue, rfl⟩ := getTread_eq hget
      exact hpend1 hs hf
    have hctx' := (hsp.trans hsp3).ctx
    rcases hplace with hq | ⟨d, hdc, hd, hi⟩
    · have hq' := hqueue ▸ hsp.queued hq
      refine ⟨⟨hheld.1.trans h.1, hctx'.1.trans hctx1, .inl hq'⟩, fun hc => ?_⟩
      have hrun := (Sched.runsElsewhere_iff _ t none).mpr ⟨c, nofun, hc⟩
      exact Bool.false_ne_true ((hx'.queued t hq').1.symm.trans hrun)
    · have hd' : (installStarting s2 c (s.current c) r).release.current d = some t := by
        refine (congrArg (fun cpu => cpu.ctx.thread) (hcpu d hdc)).trans ?_
        exact (congrFun hcur d).trans hd
      refine ⟨⟨hheld.1.trans h.1, hctx'.1.trans hctx1, .inr ⟨d, hd', hctx'.2.trans hi⟩⟩, fun hc => ?_⟩
      exact hdc (hx'.single d c t nofun nofun hd' hc)

/-- A section other than a decision or a signal leaves the contexts of the thread and its place alone. -/
structure Steady (t : T) (s s' : Sched T P G n) : Prop where
  info : ∃ p e f, s'.info t = { s.info t with isPausing := p, isExiting := e, threadToFree := f }
  queued : (s.queue.thread t).isInQueue = true → (s'.queue.thread t).isInQueue = true
  current : s'.current = s.current

theorem Steady.refl (t : T) (s : Sched T P G n) : Steady t s s := ⟨⟨_, _, _, rfl⟩, fun h => h, rfl⟩

theorem steady_modifyInfo {f : ThreadInfo T P G → ThreadInfo T P G}
    (hf : a = t → ∃ p e f', f (s.info t) = { s.info t with
      isPausing := p, isExiting := e, threadToFree := f' }) :
    Steady t s (s.modifyInfo a f) := by
  refine ⟨?_, fun h => h, rfl⟩
  rw [modifyInfo_info]
  split_ifs with h
  · exact hf h.symm
  · exact ⟨_, _, _, rfl⟩

theorem steady_enqueueWl : Steady t s (s.enqueueWl none a) := by
  refine ⟨⟨_, _, _, rfl⟩, fun h => ?_, rfl⟩
  rw [enqueueWl_queue, enqueueWl_isInQueue]
  split_ifs
  · rfl
  · exact h

/-- The operation is a scheduling decision on the CPU. -/
def SchedOp.decides (c : Fin n) : SchedOp T G n → Prop
  | .handler d | .taskSwitch d => d = c
  | _ => False

instance (c : Fin n) : DecidablePred (SchedOp.decides (T := T) (G := G) c)
  | .handler d | .taskSwitch d => inferInstanceAs (Decidable (d = c))
  | .execute _ _ | .launch _ | .pause _ | .unpause _ | .signal _ _ | .resume _ | .exitThread _
  | .waitpid _ _ _ | .waitpidFinish _ | .sigrestore _ => inferInstanceAs (Decidable False)

def Sigrestores (t : T) (s : Sched T P G n) : SchedOp T G n → Prop
  | .sigrestore c => s.current c = some t
  | _ => False

theorem Stepped.steady {op : SchedOp T G n} (hs : Stepped s op s') (hlegal : SchedLegal s op)
    (hd : ∀ c, ¬ op.decides c) (hsig : ∀ a signal, op ≠ .signal a signal)
    (hr : Sigrestores t s op → (s.info t).isSignalToRestore = false) : Steady t s s' := by
  cases hs with
  | @handler c _ _ | @taskSwitch c _ _ => exact absurd rfl (hd c)
  | @execute c cpu =>
    refine ⟨⟨_, _, _, rfl⟩, fun h => h, funext fun d => ?_⟩
    by_cases hdc : d = c
    · subst hdc; simpa [current, setCpu] using hlegal.1
    · simp [current, setCpu, hdc]
  | launched => exact steady_enqueueWl ..
  | pauseRefused _ | unpauseRefused _ | resumedNone _ | finishedNone | sigrestoreRefused _ _ =>
    exact .refl t s
  | paused _ _ _ => exact steady_modifyInfo fun _ => ⟨_, _, _, rfl⟩
  | @unpaused a _ | @resumedUnpause i a _ _ =>
    have h : Steady t s (s.modifyInfo a fun r => { r with isPausing := false }) :=
      steady_modifyInfo fun _ => ⟨_, _, _, rfl⟩
    exact ⟨h.1, h.2, h.3⟩
  | signaled => exact absurd rfl (hsig _ _)
  | @resumedEnqueue i a _ =>
    have h : Steady t s (s.enqueueWl none a) := steady_enqueueWl ..
    exact ⟨h.1, h.2, h.3⟩
  | resumedRefused _ _ | resultTaken _ _ _ | finished _ _ => exact ⟨⟨_, _, _, rfl⟩, fun h => h, rfl⟩
  | @exiting a _ =>
    have h : Steady t s (s.modifyInfo a fun r => { r with isPausing := true, isExiting := true }) :=
      steady_modifyInfo fun _ => ⟨_, _, _, rfl⟩
    exact ⟨h.1, h.2, h.3⟩
  | @registered _ _ a _ _ _ =>
    have h : Steady t s (s.modifyInfo a fun r => { r with isPausing := true }) :=
      steady_modifyInfo fun _ => ⟨_, _, _, rfl⟩
    exact ⟨h.1, h.2, h.3⟩
  | @sigrestored c a hc hto =>
    refine steady_modifyInfo ?_
    rintro rfl
    exact absurd ((hr hc).symm.trans hto) Bool.false_ne_true

theorem Steady.held (h : Steady t s s') : Held t s s' := by
  obtain ⟨p, e, f, hi⟩ := h.info
  exact ⟨by rw [hi], by rw [hi], fun hs => by rw [hi] at hs ⊢; exact ⟨hs, rfl⟩⟩

theorem Restored.steady (h : Restored s t x) (hst : Steady t s s') : Restored s' t x := by
  obtain ⟨p, e, f, hi⟩ := hst.info
  refine ⟨by rw [hi]; exact h.1, by rw [hi]; exact h.2, h.place.imp hst.queued ?_⟩
  rw [hst.current, hi]
  exact fun h => h

/-- The scheduler with the signals delivered to a thread and its calls of `scheduler_sigrestore`. -/
structure Tally (T P G : Type) (n : ℕ) where
  sched : Sched T P G n
  deliveries : ℕ
  sigrestores : ℕ

/-- A decision delivers a signal to a user handler of the thread. -/
def Delivers (t : T) (s : Sched T P G n) : SchedOp T G n → Prop
  | .handler c => interrupted s c = .ok (some t)
  | .taskSwitch c => interrupted (passSwitch s c) c = .ok (some t)
  | _ => False

instance (t : T) (s : Sched T P G n) : DecidablePred (Delivers t s)
  | .handler c => inferInstanceAs (Decidable (interrupted s c = _))
  | .taskSwitch c => inferInstanceAs (Decidable (interrupted (passSwitch s c) c = _))
  | .execute _ _ | .launch _ | .pause _ | .unpause _ | .signal _ _ | .resume _ | .exitThread _
  | .waitpid _ _ _ | .waitpidFinish _ | .sigrestore _ => inferInstanceAs (Decidable False)

instance (t : T) (s : Sched T P G n) : DecidablePred (Sigrestores t s)
  | .sigrestore c => inferInstanceAs (Decidable (s.current c = some t))
  | .execute _ _ | .launch _ | .pause _ | .unpause _ | .signal _ _ | .resume _ | .exitThread _
  | .waitpid _ _ _ | .waitpidFinish _ | .handler _ | .taskSwitch _ => inferInstanceAs (Decidable False)

def tallyPerform (t : T) (a : Tally T P G n) (op : SchedOp T G n) : Except Fault (Tally T P G n) := do
  let sched ← schedPerform a.sched op
  .ok {
    sched
    deliveries := a.deliveries + if Delivers t a.sched op then 1 else 0
    sigrestores := a.sigrestores + if Sigrestores t a.sched op then 1 else 0 }

/-- Every handler of the thread ends with one `scheduler_sigrestore`, and signals that end the
thread are not sent to it. -/
def HandlersEnd (t : T) (a : Tally T P G n) : SchedOp T G n → Prop
  | .sigrestore c => a.sched.current c = some t → a.sigrestores < a.deliveries
  | .signal b signal => b = t → ¬ (a.sched.process (a.sched.info t).process).isFatal signal
  | _ => True

instance (t : T) (a : Tally T P G n) : DecidablePred (HandlersEnd t a)
  | .sigrestore c => inferInstanceAs (Decidable (a.sched.current c = some t → _))
  | .signal b _ => inferInstanceAs (Decidable (b = t → ¬ _))
  | .execute _ _ | .launch _ | .pause _ | .unpause _ | .resume _ | .exitThread _ | .waitpid _ _ _
  | .waitpidFinish _ | .handler _ | .taskSwitch _ => inferInstanceAs (Decidable True)

/-- No signal is delivered to the thread while a handler of it has not ended. -/
def Unnested (t : T) (s : Sched T P G n) (op : SchedOp T G n) : Prop :=
  Delivers t s op → (s.info t).isSignalToRestore = false

instance (t : T) (s : Sched T P G n) (op : SchedOp T G n) : Decidable (Unnested t s op) :=
  inferInstanceAs (Decidable (_ → _))

/-- What the steps of a run keep to. -/
def SignalKept (t : T) (a : Tally T P G n) (op : SchedOp T G n) (b : Tally T P G n) : Prop :=
  SchedLegal a.sched op ∧ HandlersEnd t a op ∧ Unnested t a.sched op ∧ WakesAway b.sched

instance [Fintype T] (t : T) (a b : Tally T P G n) (op : SchedOp T G n) :
    Decidable (SignalKept t a op b) := inferInstanceAs (Decidable (_ ∧ _ ∧ _ ∧ _))

def SignalStep (t : T) (a : Tally T P G n) (op : SchedOp T G n) (b : Tally T P G n) : Prop :=
  tallyPerform t a op = .ok b ∧ SignalKept t a op b

/-- A decision on a CPU starts the thread outside of its handlers. -/
def Resumes (t : T) (a : Tally T P G n) (op : SchedOp T G n) (b : Tally T P G n) : Prop :=
  a.deliveries = a.sigrestores ∧ b.deliveries = a.deliveries ∧
    ∃ c, op.decides c ∧ b.sched.current c = some t

instance (t : T) (a b : Tally T P G n) (op : SchedOp T G n) : Decidable (Resumes t a op b) :=
  inferInstanceAs (Decidable (_ ∧ _ ∧ ∃ _, _))

/-- Where the interrupted context is after a number of deliveries and calls. -/
def Phase (t : T) (x : Context T G) (deliveries sigrestores : ℕ) (s : Sched T P G n) : Prop :=
  deliveries = sigrestores + 1 ∧ (s.info t).isSignalToRestore = true ∧
      (s.info t).signalRestoreCtx = x ∨
    deliveries = sigrestores ∧ Restored s t x

/-- The contexts of the thread while its handlers run. -/
structure Handling (t : T) (x : Context T G) (a : Tally T P G n) : Prop where
  orderly : Orderly a.sched
  wakes : WakesAway a.sched
  harmless : Harmless a.sched t
  phase : Phase t x a.deliveries a.sigrestores a.sched

theorem Phase.steady {k m : ℕ} (h : Phase t x k m s) (hst : Steady t s s') : Phase t x k m s' := by
  refine h.imp (fun ⟨hk, hto, hctx⟩ => ⟨hk, ?_, ?_⟩) fun ⟨hk, hres⟩ => ⟨hk, hres.steady hst⟩
  · exact hst.held.isSignalToRestore.trans hto
  · exact hst.held.signalRestoreCtx.trans hctx

theorem Phase.sigrestore {k m : ℕ} (h : Phase t x k m s) (hl : s.schedulerSpinlock = false)
    (hs : schedPerform s (.sigrestore c) = .ok s') (hc : s.current c = some t) (hlt : m < k)
    (hh : Harmless s t) : Harmless s' t ∧ Phase t x k (m + 1) s' := by
  obtain ⟨rfl, hto, hctx⟩ := h.resolve_right fun h => by omega
  cases schedPerform_stepped hl hs with
  | @sigrestored _ a ha _ =>
    obtain rfl : a = t := Option.some.inj (ha.symm.trans hc)
    have hi : (s.modifyInfo a fun r => { r with
        ctx := r.signalRestoreCtx, signalRestoreCtx := r.ctx, isSignalToRestore := false,
        isIgnoringCtx := true }).info a = { s.info a with
          ctx := x, signalRestoreCtx := (s.info a).ctx, isSignalToRestore := false,
          isIgnoringCtx := true } := by
      rw [modifyInfo_info, if_pos rfl, hctx]
    refine ⟨fun hsig => ?_, .inr ⟨rfl, ⟨by rw [hi], by rw [hi], .inr ⟨c, hc, by rw [hi]⟩⟩⟩⟩
    rw [hi] at hsig ⊢
    exact hh hsig
  | @sigrestoreRefused _ a ha hno =>
    obtain rfl : a = t := Option.some.inj (ha.symm.trans hc)
    exact absurd (hno.symm.trans hto) Bool.false_ne_true

theorem Phase.signal {k m signal : ℕ} (h : Phase t x k m s) (hl : s.schedulerSpinlock = false)
    (hs : schedPerform s (.signal a signal) = .ok s')
    (hfatal : a = t → ¬ (s.process (s.info t).process).isFatal signal) (hh : Harmless s t) :
    Harmless s' t ∧ Phase t x k m s' := by
  cases schedPerform_stepped hl hs with
  | signaled =>
    have hi : (s.modifyInfo a fun r => { r with isSignaling := true, signal := signal }).info t =
        if t = a then { s.info t with isSignaling := true, signal := signal } else s.info t :=
      Sched.modifyInfo_info ..
    split_ifs at hi with hat
    · refine ⟨fun _ => ?_, h.imp (fun ⟨hk, hto, hctx⟩ => ⟨hk, ?_, ?_⟩) fun ⟨hk, hres⟩ => ⟨hk, ?_⟩⟩
      · simp only [hi]
        exact hfatal hat.symm
      · simp only [hi]
        exact hto
      · simp only [hi]
        exact hctx
      · refine ⟨?_, ?_, ?_⟩ <;> simp only [hi]
        · exact hres.1
        · exact hres.2
        · exact hres.3
    · have hst : Steady t s (s.modifyInfo a fun r => { r with isSignaling := true, signal := signal }) :=
        ⟨⟨_, _, _, hi⟩, fun h => h, rfl⟩
      have hk : Kindred s (s.modifyInfo a fun r => { r with isSignaling := true, signal := signal }) :=
        (frame_modifyInfo rfl).toKindred
      exact ⟨hst.held.harmless hk hh, h.steady ⟨hst.1, hst.2, hst.3⟩⟩

/-- A decision on a CPU, as the timer or the thread of the CPU brings it about: either the thread
is started with the interrupted context, or the context is kept. -/
theorem Handling.decide {force : Bool} {a : Tally T P G n} {k : ℕ} {p : Prop} [Decidable p]
    (h : Handling t x a)
    (hx : x.cpuCtx.isKernel = false) (hs : schedulerHandler a.sched c force = .ok s')
    (hw : WakesAway s') (ho' : Orderly s')
    (hp : p ↔ interrupted a.sched c = .ok (some t))
    (hn : p → (a.sched.info t).isSignalToRestore = false)
    (hk : k = a.deliveries + if p then 1 else 0) :
    Handling t x ⟨s', k, a.sigrestores⟩ ∧
        ¬ (a.deliveries = a.sigrestores ∧ k = a.deliveries ∧ s'.current c = some t) ∨
      (a.deliveries = a.sigrestores ∧ k = a.deliveries ∧ s'.current c = some t) ∧
        s'.cpu c = ⟨x.cpuCtx, x.simdCtx, x.fsBase⟩ := by
  have ho := h.orderly
  have hxs := ho.guarded.exclusive h.wakes
  by_cases hd : p
  · obtain ⟨hto, hctx, hsig, -⟩ := handler_delivered ho.free hs (hp.mp hd)
    rw [if_pos hd] at hk
    refine .inl ⟨⟨ho', hw, fun h => ?_, ?_⟩, fun h => by omega⟩
    · exact absurd (hsig.symm.trans h) Bool.false_ne_true
    · rcases h.phase with ⟨-, hto', -⟩ | ⟨he, hres⟩
      · exact absurd ((hn hd).symm.trans hto') Bool.false_ne_true
      · exact .inl ⟨hk.trans (he ▸ rfl), hto, hctx.trans (hres.resumeCtx hxs c)⟩
  · have hnot := fun h => hd (hp.mpr h)
    have hheld := handler_held ho.free hs hnot
    have hharm := hheld.harmless (handler_kindred ho.free hs) h.harmless
    rw [if_neg hd, Nat.add_zero] at hk
    subst hk
    rcases h.phase with ⟨he, hto, hctx⟩ | ⟨he, hres⟩
    · exact .inl ⟨⟨ho', hw, hharm, .inl ⟨he, hheld.1.trans hto, hheld.2.trans hctx⟩⟩,
        fun h => by omega⟩
    · rcases handler_restored ho hs hw hres hx h.harmless hnot with ⟨hres', hcur⟩ | hcpu
      · exact .inl ⟨⟨ho', hw, hharm, .inr ⟨he, hres'⟩⟩, fun h => hcur h.2.2⟩
      · refine .inr ⟨⟨he, rfl, ?_⟩, hcpu⟩
        have hown := (hxs.own t).1
        rw [hres.ctx] at hown
        rw [current, hcpu]
        exact hown

theorem SignalStep.handling {a b : Tally T P G n} {op : SchedOp T G n}
    (hx : x.cpuCtx.isKernel = false) (h : Handling t x a) (hs : SignalStep t a op b) :
    Handling t x b ∧ ¬ Resumes t a op b ∨ Resumes t a op b ∧
      ∀ c, op.decides c → b.sched.cpu c = ⟨x.cpuCtx, x.simdCtx, x.fsBase⟩ := by
  obtain ⟨htally, hlegal, hend, hnest, hw⟩ := hs
  obtain ⟨s', hs, hb⟩ := bind_eq_ok htally
  cases hb
  have ho' := LegalStep.orderly h.orderly ⟨hlegal, hs⟩
  have hk := (schedPerform_stepped h.orderly.free hs).kindred h.orderly.free
  have hsame : (∀ c, ¬ op.decides c) → (∀ a signal, op ≠ .signal a signal) →
      ¬ Sigrestores t a.sched op → Steady t a.sched s' := fun hd hsig hno =>
    (schedPerform_stepped h.orderly.free hs).steady hlegal hd hsig fun h => absurd h hno
  cases op with
  | handler c =>
    have hdec := h.decide (p := Delivers t a.sched (.handler c)) hx hs hw ho' Iff.rfl hnest rfl
    rw [if_neg (show ¬ Sigrestores t a.sched (.handler c) from id)]
    simpa only [Resumes, SchedOp.decides, exists_eq_left', forall_eq', Nat.add_zero] using hdec
  | taskSwitch c =>
    have hst : Steady t a.sched (passSwitch a.sched c) := ⟨⟨_, _, _, rfl⟩, fun h => h, rfl⟩
    have hpass : Handling t x { a with sched := passSwitch a.sched c } :=
      ⟨⟨h.orderly.free, h.orderly.iddle, h.orderly.guarded.setStage _⟩, h.wakes, h.harmless,
        h.phase.steady hst⟩
    have hs : taskSwitch a.sched c = .ok s' := hs
    have hdec := hpass.decide (p := Delivers t a.sched (.taskSwitch c)) hx hs hw ho' Iff.rfl hnest rfl
    rw [if_neg (show ¬ Sigrestores t a.sched (.taskSwitch c) from id)]
    simpa only [Resumes, SchedOp.decides, exists_eq_left', forall_eq', Nat.add_zero] using hdec
  | sigrestore c =>
    refine .inl ⟨?_, fun ⟨_, _, _, h, _⟩ => h⟩
    rw [if_neg (show ¬ Delivers t a.sched (.sigrestore c) from id), Nat.add_zero]
    by_cases hc : a.sched.current c = some t
    · obtain ⟨hh, hp⟩ := h.phase.sigrestore h.orderly.free hs hc (hend hc) h.harmless
      rw [if_pos (show Sigrestores t a.sched (.sigrestore c) from hc)]
      exact ⟨ho', hw, hh, hp⟩
    · have hst := hsame nofun nofun hc
      rw [if_neg (show ¬ Sigrestores t a.sched (.sigrestore c) from hc)]
      exact ⟨ho', hw, hst.held.harmless hk h.harmless, h.phase.steady hst⟩
  | signal b signal =>
    obtain ⟨hh, hp⟩ := h.phase.signal h.orderly.free hs hend h.harmless
    exact .inl ⟨⟨ho', hw, hh, hp⟩, fun ⟨_, _, _, h, _⟩ => h⟩
  | _ =>
    have hst := hsame nofun nofun id
    exact .inl ⟨⟨ho', hw, hst.held.harmless hk h.harmless, h.phase.steady hst⟩,
      fun ⟨_, _, _, h, _⟩ => h⟩

theorem SignalStep.begin {a : Tally T P G n} {op : SchedOp T G n} (ho : Orderly s)
    (hs : SignalStep t ⟨s, 0, 0⟩ op a) (hd : Delivers t s op) (hc : op.decides c) :
    Handling t (resumeCtx s c t) a ∧ (resumeCtx s c t).cpuCtx.isKernel = false := by
  obtain ⟨htally, hlegal, -, -, hw⟩ := hs
  obtain ⟨s', hs, hb⟩ := bind_eq_ok htally
  cases hb
  have ho' := LegalStep.orderly ho ⟨hlegal, hs⟩
  have hnew : (s'.info t).isSignalToRestore = true ∧
      (s'.info t).signalRestoreCtx = resumeCtx s c t ∧ (s'.info t).isSignaling = false ∧
      (resumeCtx s c t).cpuCtx.isKernel = false ∧ ¬ Sigrestores t s op := by
    cases op with
    | handler d =>
      obtain rfl : d = c := hc
      obtain ⟨h1, h2, h3, h4⟩ := handler_delivered ho.free hs hd
      exact ⟨h1, h2, h3, h4, id⟩
    | taskSwitch d =>
      obtain rfl : d = c := hc
      have hs : taskSwitch s d = .ok s' := hs
      obtain ⟨h1, h2, h3, h4⟩ := handler_delivered (by exact ho.free) hs hd
      exact ⟨h1, h2, h3, h4, id⟩
    | _ => exact hd.elim
  obtain ⟨hto, hctx, hsig, huser, hno⟩ := hnew
  refine ⟨⟨ho', hw, fun h => absurd (hsig.symm.trans h) Bool.false_ne_true, ?_⟩, huser⟩
  rw [if_pos hd, if_neg hno]
  exact .inl ⟨rfl, hto, hctx⟩

end

/-- `bootSched` with user handlers for all signals. -/
def handlerSched (n m : ℕ) : Sched (Fin n ⊕ Fin (m + 1)) ℕ Unit n :=
  { bootSched n m with
    process := fun p => { (bootSched n m).process p with signalHandlers := fun _ => ⟨4096, 8192, .user⟩ } }

theorem handlerSched_booted {m : ℕ} : Booted (handlerSched n m) := by
  have h := bootSched_booted n m
  exact ⟨h.free, h.queue, h.own, h.flags, h.pausing, h.childsResult, h.waitpidList, h.waitStage, h.cpu,
    h.iddleThread, h.calls, h.log⟩

/-- The thread `.inr 0` runs at the address 100. -/
def at100 : Cpu (Fin 1 ⊕ Fin 1) Unit := ⟨⟨some (.inr 0), 43, 35, 0, 100, 64, 43, 35, ()⟩, (), 0⟩

end Kot.Kernel.Scheduler
