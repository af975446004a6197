import Kot.Kernel.Scheduler.Effects

/-! A thread has at most one place to run from: the queue, one CPU, or a call that is about to
queue it. Threads that are woken only while they have none keep it that way. -/
namespace Kot.Kernel.Scheduler
open Kot.Lib Sched

variable {T P G : Type} {n : ℕ} [DecidableEq T] {s s' s1 : Sched T P G n}
  {c d : Fin n} {on : Option (Fin n)} {t w : T} {r ending starting : Option T}

/-- Every wake-up so far was of a thread that was away. -/
def WakesAway (s : Sched T P G n) : Prop := ∀ t, .woken t false ∉ s.log

instance [Fintype T] (s : Sched T P G n) : Decidable (WakesAway s) :=
  inferInstanceAs (Decidable (∀ _, _ ∉ _))

/-- No thread so far was queued while queued or current on another CPU. -/
def EnqueuesClean (s : Sched T P G n) : Prop := ∀ t, .enqueued t true ∉ s.log

/-- Places to run from do not overlap. On the CPU `on` a scheduling decision is under way. -/
structure Exclusive (on : Option (Fin n)) (s : Sched T P G n) : Prop where
  queue : ∃ l, Clean s.queue l
  own : ∀ t, (s.info t).ctx.cpuCtx.thread = some t ∧
    (s.info t).signalRestoreCtx.cpuCtx.thread = some t
  queued : ∀ t, (s.queue.thread t).isInQueue = true →
    s.runsElsewhere on t = false ∧ .enqueue t ∉ s.calls
  running : ∀ t, s.runsElsewhere on t = true → .enqueue t ∉ s.calls
  single : ∀ c d t, on ≠ some c → on ≠ some d → s.current c = some t → s.current d = some t → c = d
  flight : ∀ t, s.calls.count (.enqueue t) ≤ 1
  parked : ∀ t, s.isIddle t → (s.info t).isPausing = true ∧ (s.info t).isIgnoringCtx = false ∧
    (s.queue.thread t).isInQueue = false ∧ .enqueue t ∉ s.calls ∧ .unpause t ∉ s.calls
  home : ∀ c d, on ≠ some c → s.current c = some (s.iddleThread d) → c = d
  waiting : ∀ i ∈ s.waitpidList, ¬ s.isIddle (s.waitpidInfo i).waitingThread

/-- As long as the wake-ups are of away threads. -/
def Guarded (on : Option (Fin n)) (s : Sched T P G n) : Prop :=
  WakesAway s → Exclusive on s ∧ EnqueuesClean s

theorem Exclusive.quiet (h : Exclusive on s) (hq : Quiet s s') : Exclusive on s' := by
  obtain ⟨-, h1, h2, h3, h4, h5, -, -, h6, h7⟩ := hq
  have hrun : s'.runsElsewhere on = s.runsElsewhere on := by
    unfold runsElsewhere Sched.current
    rw [h3]
  have hid : s'.isIddle = s.isIddle := by unfold isIddle; rw [h4]
  have hcur : s'.current = s.current := by unfold current; rw [h3]
  constructor
  · rw [h1]; exact h.queue
  · rw [h2]; exact h.own
  · rw [h1, h5, hrun]; exact h.queued
  · rw [h5, hrun]; exact h.running
  · rw [hcur]; exact h.single
  · rw [h5]; exact h.flight
  · rw [h1, h2, h5, hid]; exact h.parked
  · rw [hcur, h4]; exact h.home
  · intro i hi
    rw [h7, hid]
    exact h.waiting i (h6 i hi)

theorem Exclusive.modifyInfo {f : ThreadInfo T P G → ThreadInfo T P G} (h : Exclusive on s)
    (hown : (f (s.info t)).ctx.cpuCtx.thread = some t ∧
      (f (s.info t)).signalRestoreCtx.cpuCtx.thread = some t)
    (hid : s.isIddle t → (f (s.info t)).isPausing = true ∧ (f (s.info t)).isIgnoringCtx = false) :
    Exclusive on (s.modifyInfo t f) := by
  refine ⟨h.queue, fun a => ?_, h.queued, h.running, h.single, h.flight, fun a ha => ?_, h.home,
    h.waiting⟩
  · rw [modifyInfo_info]
    split_ifs with hat
    · rw [hat]; exact hown
    · exact h.own a
  · obtain ⟨h1, h2, h3⟩ := h.parked a ha
    rw [modifyInfo_info]
    split_ifs with hat
    · rw [hat]
      obtain ⟨h4, h5⟩ := hid (hat ▸ ha)
      exact ⟨h4, h5, hat ▸ h3⟩
    · exact ⟨h1, h2, h3⟩

theorem Exclusive.enqueueWl (h : Exclusive on s) (ha : s.away on t = true) (hid : ¬ s.isIddle t) :
    Exclusive on (s.enqueueWl on t) := by
  obtain ⟨hq, hr, hc⟩ := (s.away_iff t on).mp ha
  obtain ⟨l, hl⟩ := h.queue
  have htl : t ∉ l := fun hmem => by simp [hl.mem_iff.mpr hmem] at hq
  have hl' := hl.enqueue htl
  have hmem : ∀ a, ((schedulerEnqueueWl s.queue t).thread a).isInQueue = true ↔
      (s.queue.thread a).isInQueue = true ∨ a = t := fun a => by
    rw [hl'.mem_iff, hl.mem_iff]
    simp
  refine ⟨⟨_, hl'⟩, h.own, fun a haq => ?_, h.running, h.single, h.flight, fun a hai => ?_, h.home,
    h.waiting⟩
  · rcases (hmem a).mp haq with haq | rfl
    · exact h.queued a haq
    · exact ⟨hr, hc⟩
  · obtain ⟨h1, h2, h3, h4⟩ := h.parked a hai
    refine ⟨h1, h2, ?_, h4⟩
    rw [← Bool.not_eq_true]
    intro hq'
    rcases (hmem a).mp hq' with haq | rfl
    · exact Bool.false_ne_true (h3.symm.trans haq)
    · exact hid hai

theorem Exclusive.getTread (h : Exclusive on s) :
    ∃ r queue, s.getTread = .ok (r, { s with queue }) ∧ Exclusive on { s with queue } ∧
      (∀ t ∈ r, { s with queue }.away on t = true ∧ ¬ s.isIddle t) ∧
      (r = none → ∀ t, (queue.thread t).isInQueue = false) := by
  obtain ⟨l, hl⟩ := h.queue
  obtain ⟨q, hget, hq⟩ := hl.get
  have hsub : ∀ a, (q.thread a).isInQueue = true → (s.queue.thread a).isInQueue = true := fun a ha =>
    hl.mem_iff.mpr (List.mem_of_mem_tail (hq.mem_iff.mp ha))
  refine ⟨l.head?, q, by simp [Sched.getTread, hget], ⟨⟨_, hq⟩, h.own, fun a ha => h.queued a (hsub a ha),
    h.running, h.single, h.flight, fun a ha => ?_, h.home, h.waiting⟩, fun t ht => ?_, fun hr t => ?_⟩
  · obtain ⟨h1, h2, h3, h4⟩ := h.parked a ha
    refine ⟨h1, h2, ?_, h4⟩
    rw [← Bool.not_eq_true]
    exact fun hqa => Bool.false_ne_true (h3.symm.trans (hsub a hqa))
  · obtain ⟨m, rfl⟩ := List.head?_eq_some_iff.mp ht
    have htq : (s.queue.thread t).isInQueue = true := hl.mem_iff.mpr (by simp)
    obtain ⟨h1, h2⟩ := h.queued t htq
    refine ⟨(Sched.away_iff ..).mpr ⟨?_, h1, h2⟩, fun hid => ?_⟩
    · rw [← Bool.not_eq_true, hq.mem_iff]
      exact (List.nodup_cons.mp hl.holds.nodup).1
    · exact Bool.false_ne_true ((h.parked t hid).2.2.1.symm.trans htq)
  · have hnil : l = [] := List.head?_eq_none_iff.mp hr
    rw [← Bool.not_eq_true, hq.mem_iff, hnil]
    simp

theorem enqueuesClean_enqueueWl (ha : s.away on t = true) :
    EnqueuesClean (s.enqueueWl on t) ↔ EnqueuesClean s := by
  obtain ⟨hq, hr, -⟩ := (s.away_iff t on).mp ha
  simp [EnqueuesClean, hq, hr]

section
variable (h : Guarded on s)
include h

theorem Guarded.enqueueWl (ha : WakesAway s → s.away on t = true ∧ ¬ s.isIddle t) :
    Guarded on (s.enqueueWl on t) := by
  intro hw
  have hw : WakesAway s := by simpa [WakesAway] using hw
  obtain ⟨hx, hc⟩ := h hw
  exact ⟨hx.enqueueWl (ha hw).1 (ha hw).2, (enqueuesClean_enqueueWl (ha hw).1).mpr hc⟩

theorem Guarded.quiet (hq : Quiet s s') : Guarded on s' := by
  intro hw
  have hlog := hq.log
  obtain ⟨hx, hc⟩ := h (by unfold WakesAway at hw ⊢; rwa [← hlog])
  exact ⟨hx.quiet hq, by unfold EnqueuesClean at hc ⊢; rwa [hlog]⟩

theorem Guarded.modifyInfo {f : ThreadInfo T P G → ThreadInfo T P G}
    (hown : Exclusive on s → (f (s.info t)).ctx.cpuCtx.thread = some t ∧
      (f (s.info t)).signalRestoreCtx.cpuCtx.thread = some t)
    (hid : Exclusive on s → s.isIddle t →
      (f (s.info t)).isPausing = true ∧ (f (s.info t)).isIgnoringCtx = false) :
    Guarded on (s.modifyInfo t f) := fun hw =>
  ⟨(h hw).1.modifyInfo (hown (h hw).1) (hid (h hw).1), (h hw).2⟩

theorem Guarded.note {e : Event T} (he : ∀ t, e ≠ .enqueued t true) : Guarded on (s.note e) := by
  intro hws
  obtain ⟨hx, hc⟩ := h fun t ht => hws t (by simp [ht])
  refine ⟨⟨hx.queue, hx.own, hx.queued, hx.running, hx.single, hx.flight, hx.parked, hx.home,
    hx.waiting⟩, fun t ht => ?_⟩
  rw [note_log, List.mem_append, List.mem_singleton] at ht
  exact ht.elim (hc t) fun ht => he t ht.symm

theorem Guarded.wake (hid : WakesAway s → ¬ s.isIddle t) :
    Guarded on (s.wake on t) ∧ (WakesAway (s.wake on t) → (s.wake on t).away on t = true) := by
  have hmono : WakesAway (s.wake on t) → WakesAway s ∧ s.away on t = true := by
    intro hw
    refine ⟨fun a ha => hw a (by simp [ha]), ?_⟩
    by_contra haway
    exact hw t (by simp [haway])
  refine ⟨fun hw => ?_, fun hw => (hmono hw).2⟩
  obtain ⟨hw, -⟩ := hmono hw
  obtain ⟨hx, hc⟩ := h hw
  have hx' := hx.modifyInfo (f := fun r => { r with isPausing := false }) (hx.own t)
    fun hi => absurd hi (hid hw)
  refine ⟨⟨hx'.queue, hx'.own, hx'.queued, hx'.running, hx'.single, hx'.flight, hx'.parked, hx'.home,
    hx'.waiting⟩, fun a ha => hc a ?_⟩
  simpa using ha

theorem Guarded.takeSignal : Guarded on (takeSignal s t) :=
  h.modifyInfo (fun hx => hx.own t) fun hx hi => ⟨(hx.parked t hi).1, (hx.parked t hi).2.1⟩

theorem Guarded.getTread (hs : s.getTread = .ok (r, s')) :
    Guarded on s' ∧ (WakesAway s' → (∀ t ∈ r, s'.away on t = true ∧ ¬ s'.isIddle t) ∧
        (r = none → ∀ t, (s'.queue.thread t).isInQueue = false)) := by
  obtain ⟨queue, rfl⟩ := getTread_eq hs
  refine ⟨fun hw => ?_, fun hw => ?_⟩
  · obtain ⟨r', q, hget, hx, -⟩ := (h hw).1.getTread
    obtain ⟨rfl, hq⟩ := Prod.mk.inj (Except.ok.inj (hget.symm.trans hs))
    exact ⟨hq ▸ hx, (h hw).2⟩
  · obtain ⟨r', q, hget, -, hr, hnone⟩ := (h hw).1.getTread
    obtain ⟨rfl, hq⟩ := Prod.mk.inj (Except.ok.inj (hget.symm.trans hs))
    obtain rfl : q = queue := congrArg Sched.queue hq
    exact ⟨hr, hnone⟩

end

theorem runsElsewhere_mono (h : s.runsElsewhere (some c) t = true) :
    s.runsElsewhere none t = true := by
  obtain ⟨d, -, hd⟩ := (s.runsElsewhere_iff t _).mp h
  exact (s.runsElsewhere_iff t _).mpr ⟨d, by simp, hd⟩

theorem Exclusive.leave (h : Exclusive none s) (c : Fin n) : Exclusive (some c) s := by
  refine ⟨h.queue, h.own, fun t ht => ?_, fun t ht => h.running t (runsElsewhere_mono ht),
    fun a b t _ _ => h.single a b t (by simp) (by simp), h.flight, h.parked,
    fun a d _ => h.home a d (by simp), h.waiting⟩
  obtain ⟨h1, h2⟩ := h.queued t ht
  refine ⟨?_, h2⟩
  rw [← Bool.not_eq_true]
  exact fun hr => Bool.false_ne_true (h1.symm.trans (runsElsewhere_mono hr))

theorem Exclusive.current_away (h : Exclusive none s) (hc : s.current c = some t) :
    s.away (some c) t = true := by
  have hrun : s.runsElsewhere none t = true := (s.runsElsewhere_iff t _).mpr ⟨c, by simp, hc⟩
  refine (s.away_iff t _).mpr ⟨?_, ?_, h.running t hrun⟩
  · rw [← Bool.not_eq_true]
    exact fun hq => Bool.false_ne_true ((h.queued t hq).1.symm.trans hrun)
  · rw [← Bool.not_eq_true]
    intro hr
    obtain ⟨d, hd, hdt⟩ := (s.runsElsewhere_iff t _).mp hr
    exact hd (congrArg some (h.single c d t (by simp) (by simp) hc hdt))

theorem Exclusive.enter {cpu : Cpu T G} (h : Exclusive (some c) s)
    (ht : ∀ t, cpu.ctx.thread = some t → s.away (some c) t = true ∧ ∀ d, s.iddleThread d = t → c = d) :
    Exclusive none (s.setCpu c cpu) := by
  have hcur : ∀ d, (s.setCpu c cpu).current d = if d = c then cpu.ctx.thread else s.current d := by
    intro d
    by_cases hd : d = c
    · subst hd; simp [current, setCpu]
    · simp [current, setCpu, hd]
  have hrun : ∀ a, (s.setCpu c cpu).runsElsewhere none a = true →
      cpu.ctx.thread = some a ∨ s.runsElsewhere (some c) a = true := by
    intro a ha
    obtain ⟨d, -, hd⟩ := (Sched.runsElsewhere_iff ..).mp ha
    rw [hcur] at hd
    split_ifs at hd with hdc
    · exact .inl hd
    · exact .inr ((s.runsElsewhere_iff a _).mpr ⟨d, by simpa using Ne.symm hdc, hd⟩)
  have hother : ∀ a d, cpu.ctx.thread = some a → s.current d = some a → d = c := by
    intro a d ha hd
    by_contra hdc
    have hr : s.runsElsewhere (some c) a = true :=
      (s.runsElsewhere_iff a _).mpr ⟨d, by simpa using Ne.symm hdc, hd⟩
    exact Bool.false_ne_true (((s.away_iff a _).mp (ht a ha).1).2.1.symm.trans hr)
  refine ⟨h.queue, h.own, fun a ha => ?_, fun a ha => ?_, fun x y a _ _ hx hy => ?_, h.flight, h.parked,
    fun x d _ hx => ?_, h.waiting⟩
  · obtain ⟨h1, h2⟩ := h.queued a ha
    refine ⟨?_, h2⟩
    rw [← Bool.not_eq_true]
    intro hr
    rcases hrun a hr with hr | hr
    · exact Bool.false_ne_true (((s.away_iff a _).mp (ht a hr).1).1.symm.trans ha)
    · exact Bool.false_ne_true (h1.symm.trans hr)
  · rcases hrun a ha with hr | hr
    · exact ((s.away_iff a _).mp (ht a hr).1).2.2
    · exact h.running a hr
  · rw [hcur] at hx hy
    split_ifs at hx hy with h1 h2 h2
    · exact h1.trans h2.symm
    · exact absurd (hother a y hx hy) h2
    · exact absurd (hother a x hy hx) h1
    · exact h.single x y a (by simpa using Ne.symm h1) (by simpa using Ne.symm h2) hx hy
  · rw [hcur] at hx
    split_ifs at hx with h1
    · exact h1.trans ((ht _ hx).2 d rfl)
    · exact h.home x d (by simpa using Ne.symm h1) hx

omit [DecidableEq T] in
theorem setCpu_self (s : Sched T P G n) : s.setCpu c (s.cpu c) = s := by
  unfold setCpu
  rw [Function.update_eq_self]

theorem Exclusive.iddle_away (h : Exclusive (some c) s) :
    s.away (some c) (s.iddleThread c) = true := by
  obtain ⟨-, -, h1, h2, -⟩ := h.parked _ ⟨c, rfl⟩
  refine (s.away_iff _ _).mpr ⟨h1, ?_, h2⟩
  rw [← Bool.not_eq_true]
  intro hr
  obtain ⟨d, hd, hdc⟩ := (s.runsElsewhere_iff _ _).mp hr
  exact hd (congrArg some (h.home d c hd hdc).symm)

/-- The last part of a decision. Without a thread to start, the CPU keeps one that is not
pausing; then no thread is queued. -/
theorem install_guarded (h : Guarded (some c) s)
    (hr : WakesAway s → (∀ t ∈ r, s.away (some c) t = true ∧ ¬ s.isIddle t) ∧
      (r = none → ∀ t, (s.queue.thread t).isInQueue = false))
    (hcur : WakesAway s → ∀ t, s.current c = some t → s.runsElsewhere (some c) t = false ∧
      .enqueue t ∉ s.calls ∧ ∀ d, s.iddleThread d = t → c = d)
    (hinj : Function.Injective s.iddleThread) :
    Guarded none (installStarting s c (s.current c) r) := by
  intro hw
  unfold installStarting at hw ⊢
  cases hf : fallback s c (s.current c) r with
  | none =>
    rw [hf] at hw
    obtain ⟨hx, hclean⟩ := h hw
    refine ⟨?_, hclean⟩
    obtain ⟨hrn, -⟩ := fallback_none hf
    rw [← setCpu_self s]
    refine hx.enter fun t ht => ?_
    obtain ⟨h1, h2, h3⟩ := hcur hw t ht
    exact ⟨(s.away_iff t _).mpr ⟨(hr hw).2 hrn t, h1, h2⟩, h3⟩
  | some t =>
    have hlog : (passOn s (s.current c) t).log = s.log ∧
        (passOn s (s.current c) t).away (some c) t = s.away (some c) t ∧
        (passOn s (s.current c) t).iddleThread = s.iddleThread := by
      rcases passOn_cases s (s.current c) t with hp | ⟨e, hp⟩ <;> rw [hp] <;> exact ⟨rfl, rfl, rfl⟩
    have hws : WakesAway s := by
      rw [hf] at hw
      intro a ha
      exact hw a (hlog.1.symm ▸ ha)
    obtain ⟨hx, hclean⟩ := h hws
    have ht : s.away (some c) t = true ∧ ∀ d, s.iddleThread d = t → c = d := by
      rcases fallback_some hf with rfl | ⟨-, rfl, -⟩
      · exact ⟨((hr hws).1 t rfl).1, fun d hd => absurd ⟨d, hd⟩ ((hr hws).1 t rfl).2⟩
      · exact ⟨hx.iddle_away, fun d hd => (hinj hd).symm⟩
    have hpass : Exclusive (some c) (passOn s (s.current c) t) := by
      rcases passOn_cases s (s.current c) t with hp | ⟨e, hp⟩
      · rw [hp]; exact hx
      · rw [hp]
        exact hx.modifyInfo (hx.own t) fun hi => ⟨(hx.parked t hi).1, (hx.parked t hi).2.1⟩
    refine ⟨hpass.enter fun a ha => ?_, fun a ha => hclean a ?_⟩
    · obtain rfl : t = a := Option.some.inj ((hpass.own t).1.symm.trans ha)
      rw [hlog.2.1, hlog.2.2]
      exact ht
    · exact hlog.1 ▸ ha

section
variable [DecidableEq P]

theorem exitThreadRoutine_guarded (h : Guarded on s) (hs : exitThreadRoutine s on t = .ok s') :
    Guarded on s' := by
  rcases exitThreadRoutine_quiet hs with hq | ⟨s1, info, _, hq, hinfo, rfl⟩
  · exact h.quiet hq
  · have hid : WakesAway s1 → ¬ s1.isIddle (s.waitpidInfo info).waitingThread := by
      intro hw
      have hx := (h fun a ha => hw a (hq.log ▸ ha)).1
      unfold isIddle
      rw [hq.iddleThread]
      exact hx.waiting info hinfo
    obtain ⟨hg, haway⟩ := (h.quiet hq).wake hid
    refine (hg.enqueueWl fun hw => ⟨haway hw, hid fun a ha => hw a ?_⟩).note (by simp)
    simp [ha]

theorem SignalEffect.guarded {handling : HandleSignal} (he : SignalEffect s c t handling s')
    (h : Guarded (some c) s) :
    Guarded (some c) s' ∧ (handling ≠ .exit → s'.queue = s.queue) := by
  cases he with
  | absent _ => exact ⟨h, fun _ => rfl⟩
  | ended _ _ hend =>
    refine ⟨exitThreadRoutine_guarded ?_ hend, fun hne => absurd rfl hne⟩
    exact (h.takeSignal.quiet (quiet_modifyProcess ..)).note (by simp)
  | ignored _ _ => exact ⟨h.takeSignal, fun _ => rfl⟩
  | delivered handler _ _ =>
    have hdel := h.takeSignal (t := t)
    refine ⟨(hdel.modifyInfo (fun hx => ?_) fun hx hi => ?_).note (by simp), fun _ => rfl⟩
    · exact ⟨(hx.own t).1, (hx.own t).1⟩
    · exact ⟨(hx.parked t hi).1, (hx.parked t hi).2.1⟩

omit [DecidableEq T] [DecidableEq P] in
theorem Within.wakesAway (h : Within s s') (hw : WakesAway s') : WakesAway s := fun t ht =>
  hw t (h.log _ ht)

theorem Chosen.guarded (hc : Chosen s c r s') (h : Guarded (some c) s) : Guarded (some c) s' ∧
      (WakesAway s' → (∀ t ∈ r, s'.away (some c) t = true ∧ ¬ s'.isIddle t) ∧
        (r = none → ∀ t, (s'.queue.thread t).isInQueue = false)) := by
  cases hc with
  | nobody hget | kernel hget _ => exact h.getTread hget
  | @first s1 _ t handling hget _ hne hsig =>
    have heff := handleSignal_effect hsig
    obtain ⟨hg, hr⟩ := h.getTread hget
    obtain ⟨hg', hqueue⟩ := heff.guarded hg
    have hin := heff.within
    refine ⟨hg', fun hw => ⟨fun a ha => ?_, by simp⟩⟩
    obtain ⟨haway, hid⟩ := (hr (hin.wakesAway hw)).1 a ha
    unfold isIddle Sched.away Sched.runsElsewhere Sched.current at *
    rw [hqueue hne, hin.cpu, hin.calls, hin.iddleThread]
    exact ⟨haway, hid⟩
  | second hget _ hsig hexit hget' =>
    have hg := ((handleSignal_effect hsig).guarded (h.getTread hget).1).1
    exact (exitThreadRoutine_guarded hg hexit).getTread hget'

theorem retire_guarded (h : Guarded none s) (hs : retire s c = .ok s') : Guarded (some c) s' := by
  have hleave : Guarded (some c) s := fun hw => ⟨(h hw).1.leave c, (h hw).2⟩
  rcases retire_cases hs with ⟨-, rfl⟩ | ⟨e, he, hr⟩
  · exact hleave
  · have haway : WakesAway s → s.away (some c) e = true := fun hw => (h hw).1.current_away he
    have hsave : Guarded (some c) (s.modifyInfo e (savedInfo (s.cpu c))) :=
      hleave.modifyInfo (fun hx => ⟨he, (hx.own e).2⟩) fun hx hi =>
        ⟨(hx.parked e hi).1, (hx.parked e hi).2.1⟩
    cases hr with
    | restored hign =>
      refine (hleave.modifyInfo (fun hx => hx.own e) fun hx hi => ?_).enqueueWl fun hw =>
        ⟨haway hw, fun hi => ?_⟩
      · exact ⟨(hx.parked e hi).1, rfl⟩
      · exact Bool.false_ne_true (((h hw).1.parked e hi).2.1.symm.trans hign)
    | exited _ _ _ hexit =>
      exact exitThreadRoutine_guarded ((hleave.modifyInfo (fun hx => hx.own e) fun hx hi =>
        ⟨(hx.parked e hi).1, (hx.parked e hi).2.1⟩).note (by simp)) hexit
    | parked _ _ _ => exact hsave
    | saved _ hpause =>
      refine hsave.enqueueWl fun hw => ⟨haway hw, fun hi => ?_⟩
      exact Bool.false_ne_true (hpause.symm.trans ((h hw).1.parked e hi).1)

omit [DecidableEq P] in
theorem Guarded.setLock (h : Guarded on s) (b : Bool) :
    Guarded on { s with schedulerSpinlock := b } := by
  intro hw
  obtain ⟨hx, hc⟩ := h hw
  exact ⟨⟨hx.queue, hx.own, hx.queued, hx.running, hx.single, hx.flight, hx.parked, hx.home,
    hx.waiting⟩, hc⟩

theorem handler_guarded {force : Bool} (h : Guarded none s) (hl : s.schedulerSpinlock = false)
    (hinj : Function.Injective s.iddleThread) (hs : schedulerHandler s c force = .ok s') :
    Guarded none s' := by
  obtain ⟨s1, s2, r, hret, hch, rfl⟩ := schedulerHandler_ok hl hs
  have hin := (retire_within hret).trans hch.within
  obtain ⟨hg2, hr⟩ := hch.guarded (retire_guarded (h.setLock true) hret)
  have hcur : s2.current = s.current := by
    unfold current
    rw [hin.cpu]
  have hinst : Guarded none (installStarting s2 c (s2.current c) r) := by
    refine install_guarded hg2 hr (fun hw t ht => ?_) (hin.iddleThread.symm ▸ hinj)
    have hx := (h (hin.wakesAway hw)).1
    rw [hcur] at ht
    obtain ⟨-, h1, h2⟩ := (s.away_iff t _).mp (hx.current_away ht)
    refine ⟨?_, hin.calls.symm ▸ h2, fun d hd => ?_⟩
    · unfold runsElsewhere at h1 ⊢
      rw [hcur]
      exact h1
    · rw [hin.iddleThread] at hd
      exact hx.home c d (by simp) (hd.symm ▸ ht)
  rw [hcur] at hinst
  exact hinst.setLock false

end

end Kot.Kernel.Scheduler
