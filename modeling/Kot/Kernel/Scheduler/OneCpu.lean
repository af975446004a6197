import Mathlib.Data.List.Perm.Basic
import Kot.Kernel.Scheduler.Exclusive
import Kot.Kernel.Scheduler.Locking

/-! The sections other than `scheduler_handler` keep the places of threads apart, and so does
every run in which a thread is woken only after it has left its CPU. -/
namespace Kot.Kernel.Scheduler
open Kot.Lib List
variable {T P G : Type} {n : ℕ} [DecidableEq T] {s s' s1 : Sched T P G n}
  {c d : Fin n} {on : Option (Fin n)} {t w : T} {r ending starting : Option T}

theorem Exclusive.setCalls {calls : List (Call T)} (h : Exclusive on s)
    (henq : ∀ a, calls.count (.enqueue a) ≤ s.calls.count (.enqueue a))
    (hun : ∀ a, s.isIddle a → .unpause a ∉ calls) : Exclusive on { s with calls } := by
  have hmem : ∀ a, .enqueue a ∉ s.calls → .enqueue a ∉ calls := by
    intro a ha
    rw [← count_eq_zero] at ha ⊢
    exact Nat.le_zero.mp (ha ▸ henq a)
  refine ⟨h.queue, h.own, fun a ha => ?_, fun a ha => hmem a (h.running a ha), h.single,
    fun a => (henq a).trans (h.flight a), fun a ha => ?_, h.home, h.waiting⟩
  · exact ⟨(h.queued a ha).1, hmem a (h.queued a ha).2⟩
  · obtain ⟨h1, h2, h3, h4, -⟩ := h.parked a ha
    exact ⟨h1, h2, h3, hmem a h4, hun a ha⟩

theorem Exclusive.pendEnqueue (h : Exclusive none s) (ha : s.away none t = true)
    (hid : ¬ s.isIddle t) : Exclusive none { s with calls := s.calls ++ [.enqueue t] } := by
  obtain ⟨hq, hr, hc⟩ := (s.away_iff t none).mp ha
  have hmem : ∀ a, a ≠ t → .enqueue a ∉ s.calls → .enqueue a ∉ s.calls ++ [.enqueue t] := by
    intro a hat ha
    simp [ha, hat]
  refine ⟨h.queue, h.own, fun a haq => ?_, fun a har => ?_, h.single, fun a => ?_, fun a hai => ?_,
    h.home, h.waiting⟩
  · have hat : a ≠ t := by rintro rfl; exact Bool.false_ne_true (hq.symm.trans haq)
    exact ⟨(h.queued a haq).1, hmem a hat (h.queued a haq).2⟩
  · have hat : a ≠ t := by rintro rfl; exact Bool.false_ne_true (hr.symm.trans har)
    exact hmem a hat (h.running a har)
  · by_cases hat : a = t
    · subst hat
      simp [count_eq_zero.mpr hc]
    · have hne : Call.enqueue t ≠ .enqueue a := fun he => hat (Call.enqueue.inj he).symm
      simpa [count_append, count_singleton, hne] using h.flight a
  · have hat : a ≠ t := by rintro rfl; exact hid hai
    obtain ⟨h1, h2, h3, h4, h5⟩ := h.parked a hai
    exact ⟨h1, h2, h3, hmem a hat h4, by simpa using h5⟩

theorem Guarded.unpause (h : Guarded none s) (hid : ¬ s.isIddle t) :
    Guarded none { s.wake none t with calls := s.calls ++ [.enqueue t] } := by
  obtain ⟨hg, haway⟩ := h.wake fun _ => hid
  exact fun hw => ⟨(hg hw).1.pendEnqueue (haway hw) hid, (hg hw).2⟩

theorem Guarded.eraseCall (h : Guarded on s) (i : ℕ) :
    Guarded on { s with calls := s.calls.eraseIdx i } := fun hw =>
  ⟨(h hw).1.setCalls (fun _ => (eraseIdx_sublist _ i).count_le _) fun a ha hmem =>
    ((h hw).1.parked a ha).2.2.2.2 (mem_of_mem_eraseIdx hmem), (h hw).2⟩

theorem Guarded.resumeEnqueue {i : ℕ} (h : Guarded none s) (hi : s.calls[i]? = some (.enqueue t)) :
    Guarded none ({ s with calls := s.calls.eraseIdx i }.enqueueWl none t) := by
  refine (h.eraseCall i).enqueueWl fun hw => ?_
  have hx := (h hw).1
  have hmem := mem_of_getElem? hi
  refine ⟨(Sched.away_iff ..).mpr ⟨?_, ?_, fun hrest => ?_⟩, fun hid => ?_⟩
  · rw [← Bool.not_eq_true]
    exact fun hq => (hx.queued t hq).2 hmem
  · rw [← Bool.not_eq_true]
    exact fun hr => hx.running t hr hmem
  · obtain ⟨hlt, hget⟩ := List.getElem?_eq_some_iff.mp hi
    have hcount := hx.flight t
    rw [← (getElem_cons_eraseIdx_perm hlt).count_eq, hget, count_cons_self] at hcount
    have := count_pos_iff.mpr hrest
    simp only at this
    omega
  · exact (hx.parked t hid).2.2.2.1 hmem

theorem Guarded.execute {cpu : Cpu T G} (h : Guarded none s) (hc : cpu.ctx.thread = s.current c) :
    Guarded none (s.setCpu c cpu) := by
  have hcur : (s.setCpu c cpu).current = s.current := by
    funext d
    by_cases hd : d = c
    · subst hd; simpa [Sched.current, Sched.setCpu] using hc
    · simp [Sched.current, Sched.setCpu, hd]
  have hrun : (s.setCpu c cpu).runsElsewhere none = s.runsElsewhere none := by
    unfold Sched.runsElsewhere
    rw [hcur]
  intro hw
  obtain ⟨hx, hclean⟩ := h hw
  refine ⟨⟨hx.queue, hx.own, ?_, ?_, ?_, hx.flight, hx.parked, ?_, hx.waiting⟩, hclean⟩
  · rw [hrun]; exact hx.queued
  · rw [hrun]; exact hx.running
  · rw [hcur]; exact hx.single
  · rw [hcur]; exact hx.home

theorem Guarded.setStage (h : Guarded on s) (waitStage : T → WaitStage) :
    Guarded on { s with waitStage } := by
  intro hw
  obtain ⟨hx, hc⟩ := h hw
  exact ⟨⟨hx.queue, hx.own, hx.queued, hx.running, hx.single, hx.flight, hx.parked, hx.home,
    hx.waiting⟩, hc⟩

theorem Guarded.register (h : Guarded none s) (hid : ¬ s.isIddle t) (pid : ℤ) (info : ℕ) :
    Guarded none (register s t pid info) := by
  intro hw
  obtain ⟨hx, hclean⟩ := h hw
  have hx' := hx.modifyInfo (f := fun r => { r with isPausing := true }) (hx.own t)
    fun hi => absurd hi hid
  refine ⟨⟨hx'.queue, hx'.own, hx'.queued, hx'.running, hx'.single, hx'.flight, hx'.parked, hx'.home,
    fun i hi => ?_⟩, hclean⟩
  have hupd : ((Scheduler.register s t pid info).waitpidInfo i) =
      if i = info then ⟨t, pid, ⟨0, 0⟩⟩ else s.waitpidInfo i := Function.update_apply ..
  rw [hupd]
  split_ifs with hii
  · exact hid
  · refine hx.waiting i ?_
    have hi : i ∈ s.waitpidList ++ [info] := hi
    simpa [hii] using hi

section
variable [DecidableEq P]

theorem taskSwitch_eq (s : Sched T P G n) (c : Fin n) :
    ∃ waitStage, taskSwitch s c = schedulerHandler { s with waitStage } c true := ⟨_, rfl⟩

theorem Stepped.guarded {op : SchedOp T G n} (hs : Stepped s op s') (hop : SchedLegal s op)
    (hl : s.schedulerSpinlock = false) (hinj : Function.Injective s.iddleThread)
    (h : Guarded none s) : Guarded none s' := by
  cases hs with
  | handler hs => exact handler_guarded h hl hinj hs
  | @taskSwitch c _ hs =>
    obtain ⟨stage, he⟩ := taskSwitch_eq s c
    exact handler_guarded (h.setStage stage) hl hinj (he ▸ hs)
  | execute => exact h.execute hop.1
  | launched => exact h.enqueueWl fun _ => ⟨hop.2, hop.1⟩
  | pauseRefused _ => exact h
  | paused _ _ _ => exact h.modifyInfo (fun hx => hx.own _) fun _ hi => absurd hi hop
  | unpauseRefused _ => exact h
  | unpaused _ => exact h.unpause hop
  | @signaled t signal =>
    have hg := h.modifyInfo (f := fun r => { r with isSignaling := true, signal := signal })
      (fun hx => hx.own t) fun _ hi => absurd hi hop
    refine fun hw => ⟨(hg hw).1.setCalls (fun a => ?_) fun a ha hmem => ?_, (hg hw).2⟩
    · split_ifs <;> simp [count_append]
    · have hold := ((hg hw).1.parked a ha).2.2.2.2
      split_ifs at hmem with hp
      · simp only [mem_append, mem_singleton, Call.unpause.injEq] at hmem
        rcases hmem with hmem | rfl
        · exact hold hmem
        · exact hop ha
      · exact hold (by simpa using hmem)
  | resumedNone _ => exact h
  | resumedEnqueue hi => exact h.resumeEnqueue hi
  | resumedRefused _ _ => exact h.eraseCall _
  | @resumedUnpause i t hi _ =>
    intro hw
    have hid : ¬ s.isIddle t := by
      intro hid
      refine ((h fun a ha => hw a ?_).1.parked t hid).2.2.2.2 (mem_of_getElem? hi)
      exact mem_append_left _ ha
    exact (h.eraseCall i).unpause hid hw
  | exiting _ =>
    exact (h.quiet (quiet_modifyProcess s _ _)).modifyInfo (fun hx => hx.own _) fun _ hi =>
      absurd hi hop
  | resultTaken _ _ _ => exact ((h.quiet (quiet_modifyProcess s _ _)).note (by simp)).note (by simp)
  | registered hc _ => exact h.register (hop.2.2 _ hc).1 _ _
  | finished _ _ => exact (h.setStage _).note (by simp)
  | finishedNone => exact h
  | sigrestored hc _ =>
    exact h.modifyInfo (fun hx => ⟨(hx.own _).2, (hx.own _).1⟩) fun _ hi => absurd hi (hop _ hc)
  | sigrestoreRefused _ _ => exact h

omit [DecidableEq P] in
theorem installStarting_keeps (s : Sched T P G n) :
    (installStarting s c ending starting).iddleThread = s.iddleThread ∧
      (installStarting s c ending starting).log = s.log := by
  unfold installStarting
  split
  · exact ⟨rfl, rfl⟩
  · rename_i t _
    rcases passOn_cases s ending t with hp | ⟨e, hp⟩ <;> rw [hp] <;> exact ⟨rfl, rfl⟩

theorem handler_parts {force : Bool} (hl : s.schedulerSpinlock = false) (hg : Guarded none s)
    (hs : schedulerHandler s c force = .ok s') (hw : WakesAway s') :
    ∃ s1 s2 r, retire { s with schedulerSpinlock := true } c = .ok s1 ∧ Chosen s1 c r s2 ∧
      s' = (installStarting s2 c (s.current c) r).release ∧ WakesAway s2 ∧
      Within { s with schedulerSpinlock := true } s2 ∧ Guarded (some c) s1 ∧
      s2.current = s.current := by
  obtain ⟨s1, s2, r, hret, hch, rfl⟩ := schedulerHandler_ok hl hs
  have hin := (retire_within hret).trans hch.within
  exact ⟨s1, s2, r, hret, hch, rfl, fun a ha => hw a ((installStarting_keeps s2).2 ▸ ha), hin,
    retire_guarded (hg.setLock true) hret,
    funext fun d => congrArg (fun f => (f d).ctx.thread) hin.cpu⟩

theorem handler_iddleThread {force : Bool} (hl : s.schedulerSpinlock = false)
    (hs : schedulerHandler s c force = .ok s') : s'.iddleThread = s.iddleThread := by
  obtain ⟨s1, s2, r, hret, hch, rfl⟩ := schedulerHandler_ok hl hs
  exact (installStarting_keeps ..).1.trans
    ((retire_within hret).trans hch.within).iddleThread

theorem Stepped.iddleThread {op : SchedOp T G n} (hs : Stepped s op s')
    (hl : s.schedulerSpinlock = false) : s'.iddleThread = s.iddleThread := by
  cases hs with
  | handler hs => exact handler_iddleThread hl hs
  | @taskSwitch c _ hs =>
    obtain ⟨stage, he⟩ := taskSwitch_eq s c
    exact handler_iddleThread (s := { s with waitStage := stage }) hl (he ▸ hs)
  | _ => rfl

/-- What holds between any two sections. -/
structure Orderly (s : Sched T P G n) : Prop where
  free : s.schedulerSpinlock = false
  iddle : Function.Injective s.iddleThread
  guarded : Guarded none s

omit [DecidableEq P] in
theorem Booted.exclusive (h : Booted s) : Exclusive none s := by
  have hrun : ∀ t, s.runsElsewhere none t = false := by
    intro t
    rw [← Bool.not_eq_true, Sched.runsElsewhere_iff]
    rintro ⟨d, -, hd⟩
    rw [h.cpu] at hd
    cases hd
  have hq : ∀ t, (s.queue.thread t).isInQueue = false := fun t => by rw [h.queue]; rfl
  constructor
  · exact ⟨[], by rw [h.queue]; exact ⟨emptyQueue_holds, by simp, by simp [emptyQueue]⟩⟩
  · exact h.own
  · intro t ht
    rw [hq] at ht
    cases ht
  · intro t ht
    rw [hrun] at ht
    cases ht
  · intro c d t _ _ hc
    rw [h.cpu] at hc
    cases hc
  · simp [h.calls]
  · intro t ht
    simp [(h.pausing t).mpr ht, (h.flags t).1, hq, h.calls]
  · intro c d _ hc
    rw [h.cpu] at hc
    cases hc
  · simp [h.waitpidList]

omit [DecidableEq P] in
theorem Booted.orderly (h : Booted s) : Orderly s :=
  ⟨h.free, h.iddleThread, fun _ => ⟨h.exclusive, by simp [EnqueuesClean, h.log]⟩⟩

theorem LegalStep.orderly {op : SchedOp T G n} (h : Orderly s) (hs : LegalStep s op s') :
    Orderly s' := by
  have hstep := schedPerform_stepped h.free hs.2
  refine ⟨hstep.free h.free, ?_, hstep.guarded hs.1 h.free h.iddle h.guarded⟩
  rw [hstep.iddleThread h.free]
  exact h.iddle

/-- In every run in which only away threads are woken, a thread is queued only while it is
neither queued nor current on another CPU, and no thread runs on two CPUs. -/
theorem one_cpu_per_thread {s0 : Sched T P G n} {ops : List (SchedOp T G n)} (h0 : Booted s0)
    (h : Run LegalStep s0 ops s) (hw : WakesAway s) :
    EnqueuesClean s ∧ ∀ c d t, s.current c = some t → s.current d = some t → c = d := by
  have ho := h.invariant h0.orderly fun _ _ _ ho hs => hs.orderly ho
  obtain ⟨hx, hclean⟩ := ho.guarded hw
  exact ⟨hclean, fun c d t => hx.single c d t (by simp) (by simp)⟩

end

/-- A thread is paused and woken again before its CPU has switched: it is queued while current,
and another CPU starts it as well. -/
theorem thread_on_two_cpus :
    ∃ s, Run LegalStep (bootSched 2 0) [.launch (.inr 0), .handler 0, .pause (.inr 0),
        .unpause (.inr 0), .resume 0, .handler 1] s ∧ .enqueued (.inr 0) true ∈ s.log ∧
      s.current 0 = some (.inr 0) ∧ s.current 1 = some (.inr 0) :=
  exists_legalRun (by decide +kernel)

/-- A thread that has left its CPU is woken and moves to another one. -/
theorem one_cpu_per_thread_moves :
    ∃ s, Run LegalStep (bootSched 2 0) [.launch (.inr 0), .handler 0, .pause (.inr 0), .handler 0,
        .unpause (.inr 0), .resume 0, .handler 1] s ∧ s.current 1 = some (.inr 0) ∧
      EnqueuesClean s ∧ ∀ c d t, s.current c = some t → s.current d = some t → c = d := by
  obtain ⟨s, hrun, hcur, hw⟩ : ∃ s, Run LegalStep (bootSched 2 0) [.launch (.inr 0), .handler 0,
      .pause (.inr 0), .handler 0, .unpause (.inr 0), .resume 0, .handler 1] s ∧
      s.current 1 = some (.inr 0) ∧ WakesAway s := exists_legalRun (by decide +kernel)
  exact ⟨s, hrun, hcur, one_cpu_per_thread (bootSched_booted 2 0) hrun hw⟩

end Kot.Kernel.Scheduler
