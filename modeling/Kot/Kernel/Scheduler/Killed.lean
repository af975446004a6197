import Kot.Kernel.Scheduler.Spared

/-! A thread that has been sent `SIGKILL` and does not run user code any more. -/
set_option linter.unusedSectionVars false

namespace Kot.Kernel.Scheduler
open Kot.Lib

variable {T P G : Type} {n : ℕ} [DecidableEq T] {s s' s1 : Sched T P G n}
  {c d : Fin n} {on : Option (Fin n)} {t w x e : T} {r : Option T}

/-- The signal waits in the slot of the thread. -/
def KillPending (s : Sched T P G n) (t : T) : Prop :=
  (s.info t).isSignaling = true ∧ (s.info t).signal = sigkill

instance (s : Sched T P G n) (t : T) : Decidable (KillPending s t) :=
  inferInstanceAs (Decidable (_ ∧ _))

theorem Spared.killPending (h : Spared t s s') (hk : KillPending s t) : KillPending s' t := by
  obtain ⟨b, f, hi⟩ := h.info
  unfold KillPending
  rw [hi]
  exact hk

/-- Processes have numbers of their own, and none is its own parent. -/
structure Family (s : Sched T P G n) : Prop where
  pid : Function.Injective fun p => (s.process p).pid
  parent : ∀ p, (s.process p).parent ≠ some p

theorem Family.kindred (h : Family s) (hk : Kindred s s') : Family s' :=
  ⟨fun p q hpq => h.pid ((hk.pid p).symm.trans (hpq.trans (hk.pid q))),
    fun p => hk.parent p ▸ h.parent p⟩

theorem killPending_modifyInfo (f : ThreadInfo T P G → ThreadInfo T P G) (hk : KillPending s t)
    (h1 : (f (s.info t)).isSignaling = (s.info t).isSignaling)
    (h2 : (f (s.info t)).signal = (s.info t).signal) : KillPending (s.modifyInfo t f) t := by
  unfold KillPending
  rw [Sched.modifyInfo_info, if_pos rfl, h1, h2]
  exact hk

section
variable [DecidableEq P]

/-- The thread that is taken in place of a first one that a signal ends. -/
def secondStarting (s : Sched T P G n) (c : Fin n) : Except Fault (Option T) := do
  let (starting, s) ← s.getTread
  match starting with
  | none => .ok none
  | some x =>
    if (s.info x).ctx.cpuCtx.isKernel then .ok none
    else
      let (handling, s) ← schedulerHandleSignal s c x
      if handling = .exit then
        let s ← exitThreadRoutine s (some c) x
        let (second, _) ← s.getTread
        .ok second
      else .ok none

variable {s2 s3 : Sched T P G n} {force : Bool} {op : SchedOp T G n}

theorem exitThreadRoutine_self (hs : exitThreadRoutine s on t = .ok s') (hfam : Family s) :
    (s'.info t).isPausing = (s.info t).isPausing ∧
      (s'.queue.thread t).isInQueue = (s.queue.thread t).isInQueue := by
  rcases exitThreadRoutine_ok hs with ⟨-, rfl⟩ | ⟨q, -, hq, ⟨-, rfl⟩ |
    ⟨info, index, list, hf, hrem, rfl⟩⟩
  · exact ⟨rfl, rfl⟩
  · exact ⟨rfl, rfl⟩
  · have hw := List.find?_some hf
    have hwait : t ≠ (s.waitpidInfo info).waitingThread := by
      rintro rfl
      simp only [waitsForAny, decide_eq_true_eq] at hw
      rw [← hfam.pid hw.1] at hq
      exact hfam.parent _ hq
    refine ⟨by rw [serve_info, if_neg hwait], ?_⟩
    exact (enqueueWl_isInQueue ..).trans (if_neg hwait)

theorem Retired.killPending (hr : Retired s c t s') (hk : KillPending s t)
    (hf : Family s) : KillPending s' t ∧
    (s'.info t).isPausing = (s.info t).isPausing ∧
      ((s.info t).isPausing = false → (s'.queue.thread t).isInQueue = true) := by
  have hqueued : ∀ s : Sched T P G n, ((s.enqueueWl (some c) t).queue.thread t).isInQueue = true :=
    fun s => by rw [Sched.enqueueWl_queue, enqueueWl_isInQueue, if_pos rfl]
  have hself : ∀ f : ThreadInfo T P G → ThreadInfo T P G, (s.modifyInfo t f).info t = f (s.info t) :=
    fun f => by rw [Sched.modifyInfo_info, if_pos rfl]
  cases hr with
  | restored _ =>
    exact ⟨killPending_modifyInfo (fun r => { r with threadToFree := none, isIgnoringCtx := false })
      hk rfl rfl, by rw [Sched.enqueueWl_info, hself], fun _ => hqueued _⟩
  | exited _ hp _ hs =>
    have hsp : Spared t (s.modifyInfo t fun r => { r with threadToFree := none }) s' :=
      (Spared.note _).trans (.exitThreadRoutine hs)
    refine ⟨hsp.killPending (killPending_modifyInfo _ hk rfl rfl), ?_, fun hp' => ?_⟩
    · refine (exitThreadRoutine_self hs
        (hf.kindred ((frame_modifyInfo rfl).toKindred.trans (kindred_note ..)))).1.trans ?_
      rw [Sched.note_info, hself]
    · exact absurd (hp'.symm.trans hp) Bool.false_ne_true
  | parked _ hp _ =>
    refine ⟨killPending_modifyInfo _ hk rfl rfl, by rw [hself]; rfl, fun hp' => ?_⟩
    exact absurd (hp'.symm.trans hp) Bool.false_ne_true
  | saved _ _ =>
    exact ⟨killPending_modifyInfo (savedInfo (s.cpu c)) hk rfl rfl,
      by rw [Sched.enqueueWl_info, hself]; rfl, fun _ => hqueued _⟩

theorem ended_away (hfam : Family s) (hsig : schedulerHandleSignal s c t = .ok (.exit, s2))
    (hexit : exitThreadRoutine s2 (some c) t = .ok s3) :
    (s3.info t).isPausing = (s.info t).isPausing ∧
      (s3.queue.thread t).isInQueue = (s.queue.thread t).isInQueue := by
  have hfam2 := hfam.kindred (handleSignal_effect hsig).kindred
  obtain ⟨hp3, hq3⟩ := exitThreadRoutine_self hexit hfam2
  obtain ⟨-, -, hend⟩ := handleSignal_exit hsig
  have htake : Frame s (takeSignal s t) := frame_modifyInfo rfl
  obtain ⟨hp2, hq2⟩ := exitThreadRoutine_self hend (hfam.kindred
    ((htake.trans (frame_modifyProcess rfl rfl)).toKindred.trans (kindred_note ..)))
  refine ⟨hp3.trans (hp2.trans ?_), hq3.trans hq2⟩
  change ((takeSignal s t).info t).isPausing = _
  rw [takeSignal, Sched.modifyInfo_info, if_pos rfl]

theorem install_current (hx : s.current c = some t → r = none → (s.info t).isPausing = true)
    (hr : r = some t → (s.info t).ctx.cpuCtx.isKernel = true) (hid : ¬ s.isIddle t)
    (hown : ∀ a, (s.info a).ctx.cpuCtx.thread = some a)
    (hc : (installStarting s c (s.current c) r).current c = some t) :
    r = some t ∧ ((installStarting s c (s.current c) r).cpu c).ctx.isKernel = true := by
  cases hf : fallback s c (s.current c) r with
  | none =>
    obtain ⟨hr, hp⟩ := fallback_none hf
    simp only [installStarting, hf] at hc
    exact absurd ((hp t hc).symm.trans (hx hc hr)) Bool.false_ne_true
  | some a =>
    rw [installStarting_cpu hf]
    rw [Sched.current, installStarting_cpu hf] at hc
    obtain rfl : a = t := Option.some.inj ((hown a).symm.trans hc)
    rcases fallback_some hf with hra | ⟨-, hra, -⟩
    · exact ⟨hra, hr hra⟩
    · exact absurd ⟨c, hra⟩ hid

theorem Chosen.killPending (hch : Chosen s c (some t) s') (hk : KillPending s t)
    (h2 : secondStarting s c ≠ .ok (some t)) :
    s'.info = s.info ∧ (s'.info t).ctx.cpuCtx.isKernel = true := by
  generalize hr : some t = r at hch
  cases hch with
  | nobody _ => cases hr
  | kernel hget hkernel =>
    cases hr
    obtain ⟨queue, rfl⟩ := getTread_eq hget
    exact ⟨rfl, hkernel⟩
  | first hget _ hne hsig =>
    cases hr
    obtain ⟨queue, rfl⟩ := getTread_eq hget
    cases handleSignal_effect hsig with
    | absent h => exact absurd (h.symm.trans hk.1) Bool.false_ne_true
    | ended _ _ _ => exact absurd rfl hne
    | ignored _ h | delivered _ _ h => exact absurd hk.2 h
  | second hget hkernel hsig hexit hget' =>
    subst hr
    refine absurd ?_ h2
    simp only [secondStarting, hget, hkernel, hsig, hexit, hget', ok_bind, Bool.false_eq_true,
      if_false, if_true]

theorem install_away {ending : Option T} (h : s.away (some c) t = true)
    (hc : (installStarting s c ending r).current c ≠ some t) :
    (installStarting s c ending r).away none t = true := by
  obtain ⟨hqueue, hcalls, hcpu, -⟩ := installStarting_frame (t := t) s c ending r
  obtain ⟨hq, hr, hcall⟩ := (s.away_iff t _).mp h
  refine (Sched.away_iff ..).mpr ⟨hqueue ▸ hq, ?_, hcalls ▸ hcall⟩
  rw [← Bool.not_eq_true, Sched.runsElsewhere_iff] at hr ⊢
  rintro ⟨d, -, hd⟩
  have hdc : d ≠ c := fun h => hc (h ▸ hd)
  refine hr ⟨d, fun h => hdc (Option.some.inj h).symm, ?_⟩
  rw [Sched.current, hcpu d hdc] at hd
  exact hd

/-- The thread is going to be ended, or is out of the scheduler. -/
def Killed (s : Sched T P G n) (t : T) : Prop := KillPending s t ∨ s.away none t = true

/-- The thread that a decision on the CPU takes in place of one that a signal ends. -/
def takenSecond (s : Sched T P G n) (c : Fin n) : Except Fault (Option T) := do
  let s ← retire { s with schedulerSpinlock := true } c
  secondStarting s c

/-- A decision on the CPU does not keep the killed thread running: another thread is queued
if the CPU runs the killed one, and that one is not taken in place of another that ends. -/
def DecidesKill (s : Sched T P G n) (c : Fin n) (t : T) : Prop :=
  if KillPending s t then
    (s.current c = some t → (s.info t).isPausing = false →
      ∃ a, a ≠ t ∧ (s.queue.thread a).isInQueue = true) ∧ takenSecond s c ≠ .ok (some t)
  else ¬ s.registered t

instance [Fintype T] (s : Sched T P G n) (c : Fin n) (t : T) : Decidable (DecidesKill s c t) :=
  inferInstanceAs (Decidable (if KillPending s t then _ else _))

theorem retire_killPending (hret : retire s c = .ok s') (hk : KillPending s t) (hfam : Family s) :
    KillPending s' t ∧ (s.current c = some t → (s'.info t).isPausing = (s.info t).isPausing ∧
      ((s.info t).isPausing = false → (s'.queue.thread t).isInQueue = true) ∧
      ∀ a, a ≠ t → (s.queue.thread a).isInQueue = true → (s'.queue.thread a).isInQueue = true) := by
  rcases retire_cases hret with ⟨hc, rfl⟩ | ⟨e, he, hr⟩
  · exact ⟨hk, fun h => absurd (hc.symm.trans h) nofun⟩
  · by_cases het : t = e
    · subst het
      obtain ⟨hk', hp, hq⟩ := hr.killPending hk hfam
      exact ⟨hk', fun _ => ⟨hp, hq, fun a ha => (Spared.retired hr ha).queued⟩⟩
    · refine ⟨(Spared.retired hr het).killPending hk, fun h => ?_⟩
      exact absurd (Option.some.inj (h.symm.trans he)) het

theorem killed_away (hg : Guarded (some c) s) (hw : WakesAway s')
    (hfam : Family s) (hget : s.getTread = .ok (some t, s1))
    (hsig : schedulerHandleSignal s1 c t = .ok (.exit, s2))
    (hexit : exitThreadRoutine s2 (some c) t = .ok s3) (hget' : s3.getTread = .ok (r, s')) :
    s'.away (some c) t = true ∧ r ≠ some t ∧ (s'.info t).isPausing = (s.info t).isPausing ∧
      (r = none → ∀ a, a ≠ t → (s.queue.thread a).isInQueue = false) := by
  have heff := handleSignal_effect hsig
  have hin2 := heff.within.trans (exitThreadRoutine_within hexit)
  have hw3 := (getTread_within hget').wakesAway hw
  have hw1 := hin2.wakesAway hw3
  have hx := hg.exclusive ((getTread_within hget).wakesAway hw1)
  have hg1 := (hg.getTread hget).1
  have hg3 := exitThreadRoutine_guarded (heff.guarded hg1).1 hexit
  have hx3 := hg3.exclusive hw3
  have haway := ((hg.getTread hget).2 hw1).1 t rfl
  obtain ⟨q1, rfl, -, hq1⟩ := hx.popped hget
  obtain ⟨q', rfl, htake, hq'⟩ := hx3.popped hget'
  obtain ⟨hp3, hq3⟩ := ended_away (hfam.kindred (getTread_kindred hget)) hsig hexit
  obtain ⟨hout, hrun, hcall⟩ := (Sched.away_iff ..).mp haway.1
  have hnot := hq3.trans hout
  have hr : r ≠ some t := fun h => Bool.false_ne_true (hnot.symm.trans (htake t h))
  refine ⟨(Sched.away_iff ..).mpr ⟨?_, ?_, hin2.calls ▸ hcall⟩, hr, hp3, fun hnone a ha => ?_⟩
  · exact (hq' t).trans ((if_neg hr).trans hnot)
  · unfold Sched.runsElsewhere Sched.current at hrun ⊢
    simp only [hin2.cpu]
    exact hrun
  · -- a queued thread is still queued when the next one is taken
    rw [← Bool.not_eq_true]
    intro hqa
    have hsp := (Spared.signalEffect heff ha).trans (.exitThreadRoutine hexit)
    have hqa1 : (q1.thread a).isInQueue = true := by
      rw [hq1 a, if_neg fun h => ha (Option.some.inj h).symm]
      exact hqa
    have hempty := ((hg3.getTread hget').2 hw).2 hnone a
    rw [hq' a, hnone, if_neg nofun] at hempty
    exact Bool.false_ne_true (hempty.symm.trans (hsp.queued hqa1))

theorem handler_killPending (ho : Orderly s)
    (hs : schedulerHandler s c force = .ok s') (hw : WakesAway s') (hfam : Family s)
    (hid : ¬ s.isIddle t) (hk : KillPending s t) (hd : DecidesKill s c t) :
    Killed s' t ∧ (s'.current c = some t → (s'.cpu c).ctx.isKernel = true) := by
  obtain ⟨s1, s2, r, hret, hch, rfl, hw2, hin, hg1, hcur⟩ := handler_parts ho.free ho.guarded hs hw
  rw [DecidesKill, if_pos hk] at hd
  have hg2 := hch.guarded hg1
  have hfam0 : Family { s with schedulerSpinlock := true } := ⟨hfam.pid, hfam.parent⟩
  have hfam1 := hfam0.kindred (retire_kindred hret)
  have hx2 := hg2.1.exclusive hw2
  have hid2 : ¬ s2.isIddle t := by
    rintro ⟨d, hd⟩
    exact hid ⟨d, hin.iddleThread ▸ hd⟩
  obtain ⟨hk1, hown1⟩ := retire_killPending hret hk hfam0
  have hsecond : secondStarting s1 c ≠ .ok (some t) := by
    intro h
    apply hd.2
    rw [takenSecond, hret]
    exact h
  have hend : ∀ {e : Option T}, e = s.current c →
      (s2.current c = some t → r = none → (s2.info t).isPausing = true) →
      (r = some t → (s2.info t).ctx.cpuCtx.isKernel = true) →
      (installStarting s2 c e r).current c = some t →
        r = some t ∧ ((installStarting s2 c e r).cpu c).ctx.isKernel = true := by
    rintro e rfl h1 h2 h3
    rw [← hcur] at h3 ⊢
    exact install_current h1 h2 hid2 (fun a => (hx2.own a).1) h3
  have hpend := (installStarting_frame (t := t) s2 c (s.current c) r).2.2.2
  by_cases hrt : r = some t
  · subst hrt
    obtain ⟨hinfo, hkernel⟩ := hch.killPending hk1 hsecond
    have hk2 : KillPending s2 t := by unfold KillPending; rw [hinfo]; exact hk1
    exact ⟨.inl (hpend.killPending hk2), fun hc => (hend rfl nofun (fun _ => hkernel) hc).2⟩
  · rcases hch.spared hg1 hw2 hrt with hsp | ⟨a1, a2, a3, hget, hsig, hexit, hget'⟩
    · refine ⟨.inl (hpend.killPending (hsp.killPending hk1)), fun hc => ?_⟩
      refine absurd (hend rfl (fun hct hnone => ?_) (fun h => absurd h hrt) hc).1 hrt
      -- the thread goes on only if it is neither queued nor pausing
      obtain ⟨hp1, hq1, -⟩ := hown1 (hcur ▸ hct)
      have hempty := (hg2.2 hw2).2 hnone t
      rcases hsp.woken with ⟨hp, hq⟩ | ⟨-, -, hq⟩
      · rw [hp, hp1, ← Bool.not_eq_false]
        intro hpf
        exact Bool.false_ne_true (hempty.symm.trans (hq.trans (hq1 hpf)))
      · exact absurd (hempty.symm.trans hq) Bool.false_ne_true
    · obtain ⟨haway, -, hp2, hothers⟩ := killed_away hg1 hw2 hfam1 hget hsig hexit hget'
      have hcc : (installStarting s2 c (s.current c) r).current c ≠ some t := by
        intro hc
        refine hrt (hend rfl (fun hct hnone => ?_) (fun h => absurd h hrt) hc).1
        obtain ⟨hp1, -, hq1⟩ := hown1 (hcur ▸ hct)
        rw [hp2, hp1, ← Bool.not_eq_false]
        intro hpf
        obtain ⟨a, ha, hqa⟩ := hd.1 (hcur ▸ hct) hpf
        exact Bool.false_ne_true ((hothers hnone a ha).symm.trans (hq1 a ha hqa))
      exact ⟨.inr (install_away haway hcc), fun hc => absurd hc hcc⟩

theorem handler_away (ho : Orderly s) (hs : schedulerHandler s c force = .ok s') (hw : WakesAway s')
    (hid : ¬ s.isIddle t) (ha : s.away none t = true) (hr : ¬ s.registered t) :
    s'.away none t = true := by
  obtain ⟨s1, s2, r, hret, hch, rfl, hw2, hin, hg1, hcur⟩ := handler_parts ho.free ho.guarded hs hw
  have hx2 := (hch.guarded hg1).1.exclusive hw2
  obtain ⟨hq, hrun, hcall⟩ := (s.away_iff t _).mp ha
  have hnone : ∀ d, s.current d ≠ some t := by
    intro d hd
    exact Bool.false_ne_true (hrun.symm.trans ((s.runsElsewhere_iff t none).mpr ⟨d, nofun, hd⟩))
  have hsp1 : Spared t { s with schedulerSpinlock := true } s1 := by
    rcases retire_cases hret with ⟨-, rfl⟩ | ⟨e, he, hret⟩
    · exact .refl t _
    · exact .retired hret fun h => hnone c (h ▸ he)
  obtain ⟨hq1, hr1⟩ := hsp1.not_queued hr hq
  obtain ⟨hrt, hsp2⟩ := hch.spared_out hg1 hw2 hq1 hr1
  have haway : s2.away (some c) t = true := by
    refine (Sched.away_iff ..).mpr ⟨(hsp2.not_queued hr1 hq1).1, ?_, hin.calls ▸ hcall⟩
    rw [← Bool.not_eq_true, Sched.runsElsewhere_iff]
    rintro ⟨d, -, hd⟩
    exact hnone d (hcur ▸ hd)
  refine install_away haway fun hc => hrt ?_
  rw [← hcur] at hc
  exact (install_current (fun h => absurd (hcur ▸ h) (hnone c)) (fun h => absurd h hrt)
    (fun ⟨d, hd⟩ => hid ⟨d, hin.iddleThread ▸ hd⟩) (fun a => (hx2.own a).1) hc).1

/-- Steps that leave a killed thread to its end: its signal is not replaced, it is not woken
after its end, and every decision ends it for good. -/
def KillKept (t : T) (s : Sched T P G n) : SchedOp T G n → Prop
  | .handler c => DecidesKill s c t
  | .taskSwitch c => DecidesKill (passSwitch s c) c t
  | .signal a signal => a = t → signal = sigkill
  | .launch a => a = t → KillPending s t
  | .unpause a => a = t → (s.info t).isPausing = true → KillPending s t
  | .resume i => s.calls[i]? = some (.unpause t) → (s.info t).isPausing = true → KillPending s t
  | .execute _ _ | .pause _ | .exitThread _ | .waitpid _ _ _ | .waitpidFinish _ | .sigrestore _ => True

instance [Fintype T] (t : T) (s : Sched T P G n) : DecidablePred (KillKept t s)
  | .handler c => inferInstanceAs (Decidable (DecidesKill s c t))
  | .taskSwitch c => inferInstanceAs (Decidable (DecidesKill (passSwitch s c) c t))
  | .signal a signal => inferInstanceAs (Decidable (a = t → signal = sigkill))
  | .launch a => inferInstanceAs (Decidable (a = t → KillPending s t))
  | .unpause a => inferInstanceAs (Decidable (a = t → _ → KillPending s t))
  | .resume i => inferInstanceAs (Decidable (s.calls[i]? = some (.unpause t) → _ → KillPending s t))
  | .execute _ _ | .pause _ | .exitThread _ | .waitpid _ _ _ | .waitpidFinish _ | .sigrestore _ =>
    inferInstanceAs (Decidable True)

def KillStep (t : T) (s : Sched T P G n) (op : SchedOp T G n) (s' : Sched T P G n) : Prop :=
  LegalStep s op s' ∧ KillKept t s op ∧ WakesAway s'

theorem Killed.modifyInfo {f : ThreadInfo T P G → ThreadInfo T P G} (h : Killed s t)
    (hf : ∀ r, (f r).isSignaling = r.isSignaling ∧ (f r).signal = r.signal) :
    Killed (s.modifyInfo x f) t := by
  refine h.imp (fun hk => ?_) fun ha => ha
  by_cases hx : t = x
  · subst hx
    exact killPending_modifyInfo f hk (hf _).1 (hf _).2
  · exact (Spared.modifyInfo hx).killPending hk

theorem Killed.enqueueWl (h : Killed s t) (hx : x = t → KillPending s t) :
    Killed (s.enqueueWl none x) t := by
  rcases h with hk | ha
  · exact .inl hk
  · by_cases hxt : x = t
    · exact .inl (hx hxt)
    · obtain ⟨hq, hr, hc⟩ := (s.away_iff t none).mp ha
      refine .inr ((Sched.away_iff ..).mpr ⟨?_, hr, hc⟩)
      rw [Sched.enqueueWl_queue, enqueueWl_isInQueue, if_neg fun h => hxt h.symm]
      exact hq

theorem Killed.setCalls {calls : List (Call T)} (h : Killed s t)
    (hc : .enqueue t ∉ s.calls → .enqueue t ∈ calls → KillPending s t) :
    Killed { s with calls } t := by
  rcases h with hk | ha
  · exact .inl hk
  · obtain ⟨hq, hr, hcall⟩ := (s.away_iff t none).mp ha
    by_cases hmem : .enqueue t ∈ calls
    · exact .inl (hc hcall hmem)
    · exact .inr ((Sched.away_iff ..).mpr ⟨hq, hr, hmem⟩)

theorem Killed.setCpu {cpu : Cpu T G} (h : Killed s t) (hc : cpu.ctx.thread = s.current c) :
    Killed (s.setCpu c cpu) t := by
  refine h.imp (fun hk => hk) fun ha => ?_
  have hcur : (s.setCpu c cpu).current = s.current := by
    funext d
    by_cases hd : d = c
    · subst hd; simpa [Sched.current, Sched.setCpu] using hc
    · simp [Sched.current, Sched.setCpu, hd]
  unfold Sched.away Sched.runsElsewhere at ha ⊢
  rw [hcur]
  exact ha

theorem Killed.unpause (h : Killed s t) (hx : x = t → KillPending s t) :
    Killed { s.wake none x with calls := s.calls ++ [.enqueue x] } t := by
  have hwake : Killed (s.wake none x) t :=
    Killed.modifyInfo (f := fun r => { r with isPausing := false }) h fun _ => ⟨rfl, rfl⟩
  refine hwake.setCalls fun hold hnew => ?_
  have hxt : x = t := by simpa [eq_comm, show Call.enqueue t ∉ s.calls from hold] using hnew
  subst hxt
  exact killPending_modifyInfo (fun r => { r with isPausing := false }) (hx rfl) rfl rfl

/-- What holds of a killed thread between two sections. -/
structure Hunted (t : T) (s : Sched T P G n) : Prop where
  orderly : Orderly s
  wakes : WakesAway s
  family : Family s
  iddle : ¬ s.isIddle t
  killed : Killed s t

theorem Hunted.decides (h : Hunted t s) (hd : DecidesKill s c t)
    (hs : schedulerHandler s c force = .ok s') (hw : WakesAway s') :
    Killed s' t ∧ (s'.current c = some t → (s'.cpu c).ctx.isKernel = true) := by
  by_cases hk : KillPending s t
  · exact handler_killPending h.orderly hs hw h.family h.iddle hk hd
  · have ha := h.killed.resolve_left hk
    rw [DecidesKill, if_neg hk] at hd
    have ha' := handler_away h.orderly hs hw h.iddle ha hd
    refine ⟨.inr ha', fun hc => ?_⟩
    have hrun := ((Sched.away_iff ..).mp ha').2.1
    exact absurd (hrun.symm.trans ((Sched.runsElsewhere_iff ..).mpr ⟨c, nofun, hc⟩))
      Bool.false_ne_true

theorem Hunted.passSwitch (h : Hunted t s) (c : Fin n) : Hunted t (passSwitch s c) :=
  ⟨⟨h.orderly.free, h.orderly.iddle, h.orderly.guarded.setStage _⟩, h.wakes,
    ⟨h.family.pid, h.family.parent⟩, h.iddle, h.killed⟩

theorem KillStep.killed (h : Hunted t s) (hs : KillStep t s op s') : Killed s' t := by
  obtain ⟨⟨hlegal, hs⟩, hkeep, hw⟩ := hs
  have hk := h.killed
  cases schedPerform_stepped h.orderly.free hs with
  | handler hs => exact (h.decides hkeep hs hw).1
  | taskSwitch hs => exact ((h.passSwitch _).decides hkeep hs hw).1
  | execute => exact hk.setCpu hlegal.1
  | launched => exact hk.enqueueWl hkeep
  | pauseRefused _ => exact hk
  | paused _ _ _ | sigrestored _ _ => exact hk.modifyInfo fun _ => ⟨rfl, rfl⟩
  | unpauseRefused _ => exact hk
  | unpaused hp => exact hk.unpause fun hx => hkeep hx (hx ▸ hp)
  | @signaled x signal =>
    refine Killed.setCalls ?_ fun hold hnew => ?_
    · by_cases hx : x = t
      · subst hx
        refine .inl ?_
        unfold KillPending
        rw [Sched.modifyInfo_info, if_pos rfl]
        exact ⟨rfl, hkeep rfl⟩
      · refine hk.imp (fun hk => ?_) fun ha => ha
        exact (Spared.modifyInfo fun h => hx h.symm).killPending hk
    · refine absurd hnew ?_
      split_ifs <;> simpa using hold
  | resumedNone _ => exact hk
  | resumedEnqueue hi =>
    refine (hk.setCalls fun hold hnew => absurd (List.mem_of_mem_eraseIdx hnew) hold).enqueueWl ?_
    rintro rfl
    refine hk.resolve_right fun ha => ?_
    exact ((s.away_iff _ _).mp ha).2.2 (List.mem_of_getElem? hi)
  | resumedRefused _ _ =>
    exact hk.setCalls fun hold hnew => absurd (List.mem_of_mem_eraseIdx hnew) hold
  | resumedUnpause hi hp =>
    refine Killed.unpause (hk.setCalls fun hold hnew =>
      absurd (List.mem_of_mem_eraseIdx hnew) hold) ?_
    rintro rfl
    exact hkeep hi hp
  | exiting _ => exact Killed.modifyInfo hk fun _ => ⟨rfl, rfl⟩
  | resultTaken _ _ _ => exact hk
  | @registered _ _ a _ _ _ =>
    have hpause : Killed (s.modifyInfo a fun r => { r with isPausing := true }) t :=
      hk.modifyInfo fun _ => ⟨rfl, rfl⟩
    exact hpause
  | finished _ _ => exact hk
  | finishedNone => exact hk
  | sigrestoreRefused _ _ => exact hk

theorem LegalStep.family (ho : Orderly s) (hfam : Family s) (hs : LegalStep s op s') : Family s' :=
  hfam.kindred ((schedPerform_stepped ho.free hs.2).kindred ho.free)

theorem LegalStep.isIddle (ho : Orderly s) (hs : LegalStep s op s') :
    s'.isIddle t ↔ s.isIddle t := by
  unfold Sched.isIddle
  rw [(schedPerform_stepped ho.free hs.2).iddleThread ho.free]

theorem KillStep.hunted (h : Hunted t s) (hs : KillStep t s op s') : Hunted t s' :=
  ⟨hs.1.orderly h.orderly, hs.2.2, hs.1.family h.orderly h.family,
    fun hi => h.iddle ((hs.1.isIddle h.orderly).mp hi), hs.killed h⟩

theorem LegalStep.hunted (ho : Orderly s) (hfam : Family s)
    (hs : LegalStep s (.signal t sigkill) s') (hw : WakesAway s') : Hunted t s' := by
  have hkill : KillPending s' t := by
    cases schedPerform_stepped ho.free hs.2 with
    | signaled => simp only [KillPending, Sched.modifyInfo_info, if_true, and_self]
  exact ⟨hs.orderly ho, hw, hs.family ho hfam, fun hi => hs.1 ((hs.isIddle ho).mp hi), .inl hkill⟩

end

end Kot.Kernel.Scheduler
