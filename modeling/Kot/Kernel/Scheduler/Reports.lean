import Kot.Kernel.Scheduler.Standing

/-! Runs in which the result of every child is reported once. -/
set_option linter.unusedSectionVars false

namespace Kot.Kernel.Scheduler
open Kot.Lib Sched

variable {T P G : Type} {n : ℕ} [DecidableEq T] [DecidableEq P] {s s' s1 : Sched T P G n}
  {c d : Fin n} {on : Option (Fin n)} {t w e : T} {r hand : Option T} {info : ℕ}
  {op : SchedOp T G n}

/-- A pausing thread may be woken by others: it neither waits for a child nor exits. -/
def Wakeable (s : Sched T P G n) (t : T) : Prop :=
  (s.info t).isPausing = true → ¬ s.registered t ∧ (s.info t).isExiting = false

/-- Steps that keep the results in order: threads wait for any child, a result that is taken is
the last of its vector, no fatal signal goes to the entry thread of a child, waiting and exiting
threads are left alone, and the entry thread of a child exits while it runs. -/
def Reportable (s : Sched T P G n) : SchedOp T G n → Prop
  | .handler c | .taskSwitch c => ∀ e ∈ s.current c, (s.info e).isExiting = true → ServesLast s e
  | .launch t => (s.info t).isPausing = false ∧ (s.info t).isExiting = false
  | .unpause t => Wakeable s t
  | .resume i => ∀ t, s.calls[i]? = some (.unpause t) → Wakeable s t
  | .signal t signal => s.isChildEntry t → ¬ (s.process (s.info t).process).isFatal signal
  | .exitThread t => ¬ s.registered t ∧ (s.isChildEntry t → s.runsElsewhere none t = true)
  | .waitpid c pid _ => pid = -1 ∧ ∀ t ∈ s.current c, (s.info t).isIgnoringCtx = false ∧
      (s.info t).isExiting = false ∧ (s.process (s.info t).process).childsResult.length ≤ 1
  | .sigrestore c => ∀ t ∈ s.current c, s.waitStage t = .outside
  | .execute _ _ | .pause _ | .waitpidFinish _ => True

instance (s : Sched T P G n) (t : T) : Decidable (Wakeable s t) :=
  inferInstanceAs (Decidable (_ → _ ∧ _))

instance [Fintype T] (s : Sched T P G n) : DecidablePred (Reportable s)
  | .handler c | .taskSwitch c => inferInstanceAs (Decidable (∀ e ∈ s.current c, _))
  | .launch _ => inferInstanceAs (Decidable (_ ∧ _))
  | .unpause t => inferInstanceAs (Decidable (Wakeable s t))
  | .resume i => inferInstanceAs (Decidable (∀ t, s.calls[i]? = some (.unpause t) → Wakeable s t))
  | .signal t _ => inferInstanceAs (Decidable (s.isChildEntry t → ¬ _))
  | .exitThread t => inferInstanceAs (Decidable (¬ s.registered t ∧ (s.isChildEntry t → _)))
  | .waitpid c _ _ => inferInstanceAs (Decidable (_ ∧ ∀ t ∈ s.current c, _))
  | .sigrestore c => inferInstanceAs (Decidable (∀ t ∈ s.current c, _))
  | .execute _ _ | .pause _ | .waitpidFinish _ => inferInstanceAs (Decidable True)

theorem taskSwitch_record (s : Sched T P G n) : ∃ waitStage,
    taskSwitch s c = schedulerHandler { s with waitStage } c true ∧
    (∀ a, (waitStage a).record = (s.waitStage a).record) ∧
    ∀ a, s.current c ≠ some a → waitStage a = s.waitStage a := by
  unfold taskSwitch passSwitch
  cases hc : s.current c with
  | none => exact ⟨_, rfl, fun _ => rfl, fun _ _ => rfl⟩
  | some t =>
    cases ht : s.waitStage t with
    | outside | returning i => exact ⟨s.waitStage, by simp only [ht], fun _ => rfl, fun _ _ => rfl⟩
    | switching i =>
      refine ⟨Function.update s.waitStage t (.returning i), by simp only [ht], fun a => ?_,
        fun a ha => ?_⟩
      · by_cases hat : a = t
        · subst hat; simp [ht, WaitStage.record]
        · simp [hat]
      · have hat : a ≠ t := by rintro rfl; exact ha rfl
        simp [hat]

theorem frame_calls (s : Sched T P G n) {calls : List (Call T)} : Frame s { s with calls } :=
  ⟨⟨fun _ => rfl, fun _ => rfl⟩, fun _ => rfl, rfl, rfl, fun _ => rfl, rfl, [], by simp, by simp⟩

theorem view_calls {calls : List (Call T)} {a : T} :
    { s with calls }.view on a = { s.view on a with pending := Call.enqueue a ∈ calls } := rfl

theorem Standing.setCalls {calls : List (Call T)} (h : Standing hand on s)
    (hc : ∀ a, .enqueue a ∈ calls ↔ .enqueue a ∈ s.calls) : Standing hand on { s with calls } := by
  intro a
  rw [view_calls]
  simp only [hc]
  exact (h a).frame (frame_calls s)

theorem Standing.unpause (h : Standing none none s) (hr : ¬ s.registered t)
    (hx : (s.info t).isExiting = false) :
    Standing none none { s.wake none t with calls := s.calls ++ [.enqueue t] } := by
  refine h.change t ((frame_wake s none t).trans (frame_calls ..)) (fun a ha => ?_)
    (fun _ _ => Iff.rfl) ?_
  · rw [view_calls, view_wake, if_neg ha]
    simp [view, ha]
  · have ht := h t
    rw [view_calls, view_wake, if_pos rfl]
    refine ⟨fun hw => absurd hw hr, fun _ hexit => ?_, fun hc => ?_, ht.harmless, ht.iddle⟩
    · exact absurd (hx.symm.trans hexit) Bool.false_ne_true
    · have hend := ht.ended hc
      have hx' : (s.view none t).isExiting = false := hx
      simpa [hx'] using hend

theorem Standing.resumeEnqueue {i : ℕ} (h : Standing none none s)
    (hi : s.calls[i]? = some (.enqueue t)) :
    Standing none none ({ s with calls := s.calls.eraseIdx i }.enqueueWl none t) := by
  have hmem := List.mem_of_getElem? hi
  have hnot : ¬ s.registered t := fun hr => by
    have := ((h t).waiting hr).2.2.2.2.1
    simp [view, hmem] at this
  refine h.change t ((frame_calls ..).trans (frame_enqueueWl ..)) (fun a ha => ?_)
    (fun _ _ => Iff.rfl) ?_
  · obtain ⟨hlt, hget⟩ := List.getElem?_eq_some_iff.mp hi
    have hperm := List.getElem_cons_eraseIdx_perm hlt
    have hiff : Call.enqueue a ∈ s.calls.eraseIdx i ↔ Call.enqueue a ∈ s.calls := by
      rw [← hperm.mem_iff, hget]
      simp [ha]
    rw [view_enqueueWl, if_neg ha, view_calls]
    simp only [hiff]
    rfl
  · have ht := h t
    rw [view_enqueueWl, if_pos rfl, view_calls]
    refine ⟨fun hw => absurd hw hnot, ht.pausing, fun hc => ?_, ht.harmless, ht.iddle⟩
    have hend := ht.ended hc
    simp only [view, View.away, hmem] at hend ⊢
    simpa using hend

theorem Standing.setStage {waitStage : T → WaitStage} (h : Standing hand (some c) s)
    (hx : Exclusive none s) (hrec : ∀ a, (waitStage a).record = (s.waitStage a).record)
    (hne : ∀ a, s.current c ≠ some a → waitStage a = s.waitStage a) :
    Standing hand (some c) { s with waitStage } := by
  have hf : Frame s { s with waitStage } := ⟨⟨fun _ => rfl, fun _ => rfl⟩, fun _ => rfl, rfl, rfl, hrec,
    rfl, [], by simp, by simp⟩
  intro a
  refine Stands.frame ?_ hf
  by_cases hc : s.current c = some a
  · have ha := h a
    refine ⟨fun hr => ?_, ha.pausing, ha.ended, ha.harmless, ha.iddle⟩
    obtain ⟨h1, h2, h3, h4, h5, -⟩ := ha.waiting hr
    refine ⟨h1, h2, h3, h4, h5, fun hrun => ?_⟩
    have := ((s.away_iff a _).mp (hx.current_away hc)).2.1
    exact absurd (this.symm.trans hrun) Bool.false_ne_true
  · have hv : { s with waitStage }.view (some c) a = s.view (some c) a := by
      unfold view
      simp only [hne a hc]
      rfl
    rw [hv]
    exact h a

theorem mem_eraseIdx_unpause {calls : List (Call T)} {i : ℕ} {t a : T}
    (hi : calls[i]? = some (.unpause t)) :
    Call.enqueue a ∈ calls.eraseIdx i ↔ Call.enqueue a ∈ calls := by
  obtain ⟨hlt, hget⟩ := List.getElem?_eq_some_iff.mp hi
  rw [← (List.getElem_cons_eraseIdx_perm hlt).mem_iff, hget]
  simp

/-- What holds between two sections of a run that keeps the results in order. -/
structure Accounted (s : Sched T P G n) : Prop where
  orderly : Orderly s
  wakes : WakesAway s
  pid : Function.Injective fun p => (s.process p).pid
  ledger : Ledger s
  standing : Standing none none s

abbrev Balanced (s : Sched T P G n) : Prop := Ledger s ∧ Standing none none s

def ReportStep (s : Sched T P G n) (op : SchedOp T G n) (s' : Sched T P G n) : Prop :=
  LegalStep s op s' ∧ Reportable s op ∧ WakesAway s'

section
variable (h : Accounted s)
include h

theorem Accounted.exclusive : Exclusive none s := (h.orderly.guarded h.wakes).1

theorem Accounted.handler {force : Bool}
    (hop : ∀ e, s.current c = some e → (s.info e).isExiting = true → ServesLast s e)
    (hs : schedulerHandler s c force = .ok s') (hw : WakesAway s') : Balanced s' :=
  handler_standing h.ledger (fun _ he => h.standing.begin h.exclusive he) (fun _ => h.standing)
    h.orderly.guarded h.pid hop h.orderly.free hs hw

theorem Accounted.taskSwitch
    (hop : ∀ e, s.current c = some e → (s.info e).isExiting = true → ServesLast s e)
    (hs : taskSwitch s c = .ok s') (hw : WakesAway s') : Balanced s' := by
  obtain ⟨stage, heq, hrec, hne⟩ := taskSwitch_record s
  have hf : Frame s { s with waitStage := stage } := ⟨⟨fun _ => rfl, fun _ => rfl⟩, fun _ => rfl, rfl,
    rfl, hrec, rfl, [], by simp, by simp⟩
  refine handler_standing (h.ledger.frame hf) (fun e he => ?_) (fun hc => ?_)
    (h.orderly.guarded.setStage stage) h.pid hop h.orderly.free (heq ▸ hs) hw
  · exact (h.standing.begin h.exclusive he).setStage h.exclusive hrec hne
  · have hstage := funext fun a => hne a (by
      have hc : s.current c = none := hc
      simp [hc])
    subst hstage
    exact h.standing

theorem Accounted.outside_not_registered (ht : s.waitStage t = .outside) : ¬ s.registered t := by
  rintro ⟨i, hi, rfl⟩
  have := h.ledger.listed i hi
  rw [ht] at this
  cases this

theorem Accounted.execute {cpu : Cpu T G} (hc : cpu.ctx.thread = s.current c) :
    Balanced (s.setCpu c cpu) := by
  refine ⟨h.ledger.frame (frame_setCpu ..), fun a => ?_⟩
  have hcur : (s.setCpu c cpu).current = s.current := by
    funext d
    by_cases hd : d = c
    · subst hd; simpa [current, setCpu] using hc
    · simp [current, setCpu, hd]
  have hv : (s.setCpu c cpu).view none a = s.view none a := by
    unfold view Sched.runsElsewhere
    rw [hcur]
    rfl
  exact hv ▸ (h.standing a).frame (frame_setCpu ..)

theorem Accounted.launch (hp : (s.info t).isPausing = false) (hx : (s.info t).isExiting = false) :
    Balanced (s.enqueueWl none t) := by
  refine ⟨h.ledger.frame (frame_enqueueWl ..), Standing.enqueueWl (fun a => ?_) fun hr => ?_⟩
  · have ha := h.standing a
    refine ⟨ha.waiting, ha.pausing, fun hc => ?_, ha.harmless, ha.iddle⟩
    have hend := ha.ended hc
    by_cases hat : t = a
    · subst hat
      have hx' : (s.view none t).isExiting = false := hx
      simpa [hx'] using hend
    · simpa [hat] using hend
  · exact absurd (hp.symm.trans ((h.standing t).waiting hr).1) Bool.false_ne_true

theorem Accounted.pause (hp : (s.info t).isPausing = false) :
    Balanced (s.modifyInfo t fun r => { r with isPausing := true }) := by
  have hf : Frame s (s.modifyInfo t fun r => { r with isPausing := true }) := frame_modifyInfo rfl
  refine ⟨h.ledger.frame hf, h.standing.change t hf (fun a ha => ?_) (fun _ _ => Iff.rfl) ?_⟩
  · rw [view_modifyInfo, if_neg ha]
  · have ht := h.standing t
    rw [view_modifyInfo, if_pos rfl]
    refine ⟨fun hr => ?_, fun _ _ => rfl, ht.ended, ht.harmless, ht.iddle⟩
    exact absurd (hp.symm.trans (ht.waiting hr).1) Bool.false_ne_true

theorem Accounted.unpause (hp : (s.info t).isPausing = true) (hw : Wakeable s t) :
    Balanced { s.wake none t with calls := s.calls ++ [.enqueue t] } :=
  ⟨(h.ledger.frame (frame_wake s none t)).frame (frame_calls ..), h.standing.unpause (hw hp).1 (hw hp).2⟩

theorem Accounted.signal {signal : ℕ}
    (hs : s.isChildEntry t → ¬ (s.process (s.info t).process).isFatal signal) {calls : List (Call T)}
    (hc : ∀ a, .enqueue a ∈ calls ↔ .enqueue a ∈ s.calls) :
    Balanced
      { s.modifyInfo t (fun r => { r with isSignaling := true, signal := signal }) with calls } := by
  have hf : Frame s (s.modifyInfo t fun r => { r with isSignaling := true, signal := signal }) :=
    frame_modifyInfo rfl
  refine ⟨(h.ledger.frame hf).frame (frame_calls ..), Standing.setCalls ?_ hc⟩
  refine h.standing.change t hf (fun a ha => ?_) (fun _ _ => Iff.rfl) ?_
  · rw [view_modifyInfo, if_neg ha]
  · have ht := h.standing t
    rw [view_modifyInfo, if_pos rfl]
    exact ⟨ht.waiting, ht.pausing, ht.ended, fun hce _ => hs hce, ht.iddle⟩

theorem Accounted.exiting (hr : ¬ s.registered t)
    (hrun : s.isChildEntry t → s.runsElsewhere none t = true) (hid : ¬ s.isIddle t) :
    Balanced (markExiting s t) := by
  have hproc : Frame s (s.modifyProcess (s.info t).process fun p =>
      { p with threads := vectorSet p.threads (s.info t).index none }) := frame_modifyProcess rfl rfl
  have hf : Frame s (markExiting s t) := hproc.trans (frame_modifyInfo rfl)
  refine ⟨h.ledger.frame hf, h.standing.change t hf (fun a ha => ?_) (fun _ _ => Iff.rfl) ?_⟩
  · rw [markExiting, view_modifyInfo, if_neg ha]; rfl
  · have ht := h.standing t
    rw [markExiting, view_modifyInfo, if_pos rfl,
      show (s.modifyProcess _ _).view none t = s.view none t from rfl]
    refine ⟨fun hreg => absurd hreg hr, fun _ _ => rfl, fun hc => ?_, ht.harmless, fun hi => absurd hi hid⟩
    have hend := ht.ended hc
    have hr' : (s.view none t).runs = true := hrun hc
    simpa [View.away, hr'] using hend

theorem Accounted.take {result : ChildResult} {rest list : List ChildResult}
    (hres : (s.process (s.info t).process).childsResult = result :: rest)
    (hlen : (s.process (s.info t).process).childsResult.length ≤ 1)
    (hlist : vectorRemove (result :: rest) 0 = .ok list) :
    Balanced (handResult s t list result) := by
  obtain rfl : rest = [] := by
    rw [hres] at hlen
    simpa using hlen
  obtain rfl : [] = list := Except.ok.inj hlist
  refine ⟨h.ledger.take h.pid hres, fun a => ?_⟩
  rw [handResult, view_note _ _ _ (by simp), view_note _ _ _ (by simp)]
  exact (h.standing a).kindred (kindred_handResult s t [] result) (fun hr => hr) fun hi => hi

theorem Accounted.register (hc : s.current c = some t) (hlist : info ∉ s.waitpidList)
    (hnew : ∀ a, s.waitStage a ≠ .switching info ∧ s.waitStage a ≠ .returning info)
    (ht : s.waitStage t = .outside) (hres : (s.process (s.info t).process).childsResult = [])
    (hign : (s.info t).isIgnoringCtx = false) (hexit : (s.info t).isExiting = false) :
    Balanced (register s t (-1) info) := by
  have hrec : ∀ a, (s.waitStage a).record ≠ some info := by
    intro a ha
    cases hs : s.waitStage a with
    | outside => rw [hs] at ha; cases ha
    | switching i => rw [hs] at ha; exact (hnew a).1 (Option.some.inj ha ▸ hs)
    | returning i => rw [hs] at ha; exact (hnew a).2 (Option.some.inj ha ▸ hs)
  refine ⟨h.ledger.register hlist hrec ht hres, fun a => ?_⟩
  have hk : Kindred s (Scheduler.register s t (-1) info) := by
    refine ⟨fun a => ?_, fun _ => rfl⟩
    change ((Sched.modifyInfo s t fun r => { r with isPausing := true }).info a).process = _
    rw [modifyInfo_info]
    split_ifs <;> rfl
  have hreg : ∀ a ≠ t, (Scheduler.register s t (-1) info).registered a → s.registered a := by
    rintro a ha ⟨i, hi, hia⟩
    have hi : i ∈ s.waitpidList ++ [info] := hi
    have hinfo : (Scheduler.register s t (-1) info).waitpidInfo i =
        if i = info then ⟨t, -1, ⟨0, 0⟩⟩ else s.waitpidInfo i := Function.update_apply ..
    rw [hinfo] at hia
    split_ifs at hia with hii
    · exact absurd hia.symm ha
    · exact ⟨i, by simpa [hii] using hi, hia⟩
  have hview : (Scheduler.register s t (-1) info).view none a =
      { s.view none a with
        isPausing := if a = t then true else (s.view none a).isPausing
        stage := if a = t then .switching info else (s.view none a).stage } := by
    refine (view_modifyInfo { s with
      waitpidInfo := Function.update s.waitpidInfo info ⟨t, -1, ⟨0, 0⟩⟩
      waitpidList := vectorPush s.waitpidList info
      waitStage := Function.update s.waitStage t (.switching info) } none t a
      (f := fun r => { r with isPausing := true })).trans ?_
    by_cases hat : a = t
    · subst hat
      rw [if_pos rfl, if_pos rfl, if_pos rfl]
      unfold view
      simp only [Function.update_self]
      rfl
    · rw [if_neg hat, if_neg hat, if_neg hat]
      unfold view
      simp only [Function.update_of_ne hat]
      rfl
  by_cases hat : a = t
  · subst hat
    have ha := h.standing a
    rw [hview, if_pos rfl, if_pos rfl]
    obtain ⟨h1, h2, h3⟩ := (s.away_iff a _).mp (h.exclusive.current_away hc)
    refine ⟨fun _ => ⟨rfl, hign, hexit, h1, ?_, fun _ => ⟨info, rfl⟩⟩, fun _ _ => rfl, fun hce => ?_,
      fun hce hsig hfatal => ?_, ha.iddle⟩
    · exact decide_eq_false h3
    · exact ha.ended ((hk.isChildEntry a).mp hce)
    · rw [hk.home, hk.isFatal] at hfatal
      exact ha.harmless ((hk.isChildEntry a).mp hce) hsig hfatal
  · rw [hview, if_neg hat, if_neg hat]
    exact (h.standing a).kindred hk (hreg a hat) fun hi => hi

theorem Accounted.finish (hc : s.current c = some t) (ht : s.waitStage t = .returning info) :
    Balanced (finishWait s t info) := by
  have hrun : s.runsElsewhere none t = true := (s.runsElsewhere_iff t _).mpr ⟨c, by simp, hc⟩
  have hnot : ¬ s.registered t := by
    intro hr
    obtain ⟨i, hi⟩ := ((h.standing t).waiting hr).2.2.2.2.2 hrun
    rw [show (s.view none t).stage = s.waitStage t from rfl, ht] at hi
    cases hi
  have hinfo : info ∉ s.waitpidList := fun hi =>
    hnot ⟨info, hi, (h.ledger.record t info (by rw [ht]; rfl)).1⟩
  refine ⟨h.ledger.finish ht hinfo, fun a => ?_⟩
  rw [finishWait, view_note _ _ _ (by simp)]
  have hk : Kindred s (finishWait s t info) := ⟨fun _ => rfl, fun _ => rfl⟩
  refine Stands.kindred ?_ hk (fun hr => hr) fun hi => hi
  by_cases hat : a = t
  · subst hat
    have ha := h.standing a
    exact ⟨fun hr => absurd hr hnot, ha.pausing, ha.ended, ha.harmless, ha.iddle⟩
  · have hv : { s with waitStage := Function.update s.waitStage t .outside }.view none a =
        s.view none a := by
      unfold view
      simp only [Function.update_of_ne hat]
      rfl
    rw [hv]
    exact h.standing a

theorem Accounted.sigrestore (ht : s.waitStage t = .outside)
    {f : ThreadInfo T P G → ThreadInfo T P G}
    (hf : ∀ r, (f r).process = r.process ∧ (f r).isPausing = r.isPausing ∧
      (f r).isExiting = r.isExiting ∧ (f r).isSignaling = r.isSignaling ∧ (f r).signal = r.signal) :
    Balanced (s.modifyInfo t f) := by
  obtain ⟨h1, h2, h3, h4, h5⟩ := hf (s.info t)
  have hfr := frame_modifyInfo h1
  refine ⟨h.ledger.frame hfr, h.standing.change t hfr (fun a ha => ?_) (fun _ _ => Iff.rfl) ?_⟩
  · rw [view_modifyInfo, if_neg ha]
  · have hst := h.standing t
    rw [view_modifyInfo, if_pos rfl, h2, h3, h4, h5]
    exact ⟨fun hr => absurd hr (h.outside_not_registered ht), hst.pausing, hst.ended, hst.harmless,
      hst.iddle⟩

theorem ReportStep.ledger_standing (hs : ReportStep s op s') : Balanced s' := by
  obtain ⟨⟨hlegal, hs⟩, hop, hw⟩ := hs
  have hsame : Balanced s := ⟨h.ledger, h.standing⟩
  cases schedPerform_stepped h.orderly.free hs with
  | handler hs => exact h.handler hop hs hw
  | taskSwitch hs => exact h.taskSwitch hop hs hw
  | execute => exact h.execute hlegal.1
  | launched => exact h.launch hop.1 hop.2
  | pauseRefused _ | unpauseRefused _ | resumedNone _ | finishedNone | sigrestoreRefused _ _ =>
    exact hsame
  | paused hp _ _ => exact h.pause hp
  | unpaused hp => exact h.unpause hp hop
  | signaled =>
    refine h.signal hop fun a => ?_
    split_ifs <;> simp
  | resumedEnqueue hi =>
    exact ⟨(h.ledger.frame (frame_calls ..)).frame (frame_enqueueWl ..), h.standing.resumeEnqueue hi⟩
  | resumedRefused hi _ =>
    exact ⟨h.ledger.frame (frame_calls ..), h.standing.setCalls fun a => mem_eraseIdx_unpause hi⟩
  | @resumedUnpause i t hi hp =>
    have hst := h.standing.setCalls fun a => mem_eraseIdx_unpause hi
    have hwake := hop t hi hp
    refine ⟨((h.ledger.frame (frame_calls s)).frame (frame_wake _ none t)).frame (frame_calls ..), ?_⟩
    exact hst.unpause hwake.1 hwake.2
  | exiting _ => exact h.exiting hop.1 hop.2 hlegal
  | resultTaken hc hres hlist => exact h.take hres (hop.2 _ hc).2.2 hlist
  | registered hc hres =>
    obtain ⟨rfl, hcond⟩ := hop
    obtain ⟨hlist, hnew, hcur⟩ := hlegal
    exact h.register hc hlist hnew (hcur _ hc).2 (hres rfl) (hcond _ hc).1 (hcond _ hc).2.1
  | finished hc ht => exact h.finish hc ht
  | sigrestored hc _ => exact h.sigrestore (hop _ hc) fun r => ⟨rfl, rfl, rfl, rfl, rfl⟩

theorem ReportStep.accounted (hs : ReportStep s op s') : Accounted s' := by
  obtain ⟨hl, hst⟩ := hs.ledger_standing h
  refine ⟨hs.1.orderly h.orderly, hs.2.2, ?_, hl, hst⟩
  have hk := (schedPerform_stepped h.orderly.free hs.1.2).kindred h.orderly.free
  intro p q hpq
  exact h.pid ((hk.pid p).symm.trans (hpq.trans (hk.pid q)))

end

theorem Booted.accounted (h : Booted s) (hpid : Function.Injective fun p => (s.process p).pid) :
    Accounted s := by
  have hreg : ∀ t, ¬ s.registered t := by
    rintro t ⟨i, hi, -⟩
    simp [h.waitpidList] at hi
  have hrec : ∀ t, (s.waitStage t).record = none := fun t => by rw [h.waitStage]; rfl
  refine ⟨h.orderly, by simp [WakesAway, h.log], hpid, ⟨by simp [h.waitpidList], fun t i hi => ?_, ?_,
    fun t ht => absurd ht (hreg t), ?_, fun t _ => ?_, by simp [h.log], fun t result => ?_⟩, fun t =>
    ⟨fun hr => absurd hr (hreg t), fun _ hx => ?_, fun _ => ?_, fun _ hx => ?_, fun _ => (h.flags t).2.2.2⟩⟩
  · rw [hrec] at hi
    cases hi
  · simp [h.waitpidList]
  · simp [h.childsResult]
  · unfold stored
    split <;> simp [h.childsResult, h.log]
  · simp [inRecord, hrec, h.log]
  · exact absurd ((h.flags t).2.2.2.symm.trans hx) Bool.false_ne_true
  · simp [view, (h.flags t).2.2.2, h.log]
  · exact absurd ((h.flags t).2.2.1.symm.trans hx) Bool.false_ne_true

/-- The child of an entry thread has terminated: the thread exits and has left its CPU. -/
def Sched.terminated (s : Sched T P G n) (t : T) : Prop :=
  (s.info t).isExiting = true ∧ s.away none t = true

instance (s : Sched T P G n) (t : T) : Decidable (s.terminated t) :=
  inferInstanceAs (Decidable (_ ∧ _))

end Kot.Kernel.Scheduler
