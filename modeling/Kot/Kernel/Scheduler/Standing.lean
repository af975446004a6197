import Kot.Kernel.Scheduler.Ledger

/-! Where the threads stand that results depend on: a registered thread pauses until it is
served, and the entry thread of a child that exits has ended once it has no place to run from. -/
set_option linter.unusedSectionVars false

namespace Kot.Kernel.Scheduler
open Kot.Lib List Sched

variable {T P G : Type} {n : ℕ} [DecidableEq T] {s s' s1 : Sched T P G n}
  {c d : Fin n} {on on' : Option (Fin n)} {t w e : T} {r hand hand' : Option T} {info : ℕ}

/-- What the rest of the system sees of a thread. -/
@[ext] structure View where
  isPausing : Bool
  isIgnoringCtx : Bool
  isExiting : Bool
  isSignaling : Bool
  signal : ℕ
  isInQueue : Bool
  runs : Bool
  pending : Bool
  stage : WaitStage
  ended : ℕ

def Sched.view (s : Sched T P G n) (on : Option (Fin n)) (t : T) : View where
  isPausing := (s.info t).isPausing
  isIgnoringCtx := (s.info t).isIgnoringCtx
  isExiting := (s.info t).isExiting
  isSignaling := (s.info t).isSignaling
  signal := (s.info t).signal
  isInQueue := (s.queue.thread t).isInQueue
  runs := s.runsElsewhere on t
  pending := .enqueue t ∈ s.calls
  stage := s.waitStage t
  ended := s.log.count (.ended t)

def View.away (v : View) : Bool := !v.isInQueue && !v.runs && !v.pending

/-- A thread with the given view; `hand` is the thread that a scheduling decision holds. -/
structure Stands (s : Sched T P G n) (hand : Option T) (t : T) (v : View) : Prop where
  waiting : s.registered t → v.isPausing = true ∧ v.isIgnoringCtx = false ∧ v.isExiting = false ∧
    v.isInQueue = false ∧ v.pending = false ∧ (v.runs = true → ∃ i, v.stage = .switching i)
  pausing : s.isChildEntry t → v.isExiting = true → v.isPausing = true
  ended : s.isChildEntry t →
    v.ended = if v.isExiting = true ∧ hand ≠ some t ∧ v.away = true then 1 else 0
  harmless : s.isChildEntry t → v.isSignaling = true →
    ¬ (s.process (s.info t).process).isFatal v.signal
  iddle : s.isIddle t → v.isExiting = false

def Standing (hand : Option T) (on : Option (Fin n)) (s : Sched T P G n) : Prop :=
  ∀ t, Stands s hand t (s.view on t)

theorem Stands.kindred {v : View} (h : Stands s hand t v) (hk : Kindred s s')
    (hr : s'.registered t → s.registered t) (hi : s'.isIddle t → s.isIddle t) :
    Stands s' hand t v where
  waiting hw := h.waiting (hr hw)
  pausing hc := h.pausing ((hk.isChildEntry t).mp hc)
  ended hc := h.ended ((hk.isChildEntry t).mp hc)
  harmless hc hs hfatal := by
    rw [hk.home, hk.isFatal] at hfatal
    exact h.harmless ((hk.isChildEntry t).mp hc) hs hfatal
  iddle hw := h.iddle (hi hw)

theorem Stands.frame {v : View} (h : Stands s hand t v) (hf : Frame s s') : Stands s' hand t v :=
  h.kindred hf.toKindred (hf.registered t).mp (hf.isIddle t).mp

theorem Stands.passed {v : View} (h : Stands s hand t v) (hh : hand' = some t ↔ hand = some t) :
    Stands s hand' t v :=
  ⟨h.waiting, h.pausing, fun hc => by simp only [h.ended hc, ne_eq, hh], h.harmless, h.iddle⟩

theorem Standing.change (t : T) (h : Standing hand on s) (hf : Frame s s')
    (hv : ∀ a ≠ t, s'.view on' a = s.view on a) (hh : ∀ a ≠ t, hand' = some a ↔ hand = some a)
    (ht : Stands s hand' t (s'.view on' t)) : Standing hand' on' s' := by
  intro a
  by_cases hat : a = t
  · subst hat
    exact ht.frame hf
  · rw [hv a hat]
    exact ((h a).passed (hh a hat)).frame hf

section
variable (s : Sched T P G n) (on on' : Option (Fin n)) (t a : T)
  {f : ThreadInfo T P G → ThreadInfo T P G} {ev : Event T}

theorem view_modifyInfo : (s.modifyInfo t f).view on a =
    if a = t then { s.view on a with
      isPausing := (f (s.info a)).isPausing
      isIgnoringCtx := (f (s.info a)).isIgnoringCtx
      isExiting := (f (s.info a)).isExiting
      isSignaling := (f (s.info a)).isSignaling
      signal := (f (s.info a)).signal } else s.view on a := by
  unfold view
  rw [modifyInfo_info]
  split_ifs <;> rfl

theorem enqueueWl_isInQueue (q : RunQueue T) : ((schedulerEnqueueWl q t).thread a).isInQueue =
    if a = t then true else (q.thread a).isInQueue := by
  unfold schedulerEnqueueWl
  cases hf : q.schedulerFirstNode <;> cases hl : q.schedulerLastNode <;> simp [hf, hl]

theorem view_note (he : ∀ b, ev ≠ .ended b) : (s.note ev).view on a = s.view on a := by
  have hcount : (s.log ++ [ev]).count (.ended a) = s.log.count (.ended a) := by
    rw [count_append, count_singleton]
    simp [he a]
  unfold view
  rw [note_log, hcount]
  rfl

theorem view_ended : (s.note (.ended t)).view on a =
    { s.view on a with ended := (s.view on a).ended + if a = t then 1 else 0 } := by
  unfold view
  rw [note_log, Ledger.count_ended]
  rfl

theorem view_enqueueWl : (s.enqueueWl on' t).view on a =
    { s.view on a with isInQueue := if a = t then true else (s.view on a).isInQueue } := by
  rw [enqueueWl, view_note _ _ _ (by simp)]
  unfold view
  rw [← enqueueWl_isInQueue]
  rfl

theorem view_wake : (s.wake on' t).view on a =
    { s.view on a with isPausing := if a = t then false else (s.view on a).isPausing } := by
  rw [wake, view_note _ _ _ (by simp), view_modifyInfo]
  split_ifs <;> rfl

end

theorem Standing.modifyInfo {f : ThreadInfo T P G → ThreadInfo T P G} (h : Standing hand on s)
    (hhome : (f (s.info t)).process = (s.info t).process)
    (hflags : (f (s.info t)).isPausing = (s.info t).isPausing ∧
      (f (s.info t)).isIgnoringCtx = (s.info t).isIgnoringCtx ∧
      (f (s.info t)).isExiting = (s.info t).isExiting)
    (hsignal : (f (s.info t)).isSignaling = true → (s.info t).isSignaling = true ∧
      (f (s.info t)).signal = (s.info t).signal) : Standing hand on (s.modifyInfo t f) := by
  obtain ⟨h1, h2, h3⟩ := hflags
  refine h.change t (frame_modifyInfo hhome) (fun a ha => ?_) (fun _ _ => Iff.rfl) ?_
  · rw [view_modifyInfo, if_neg ha]
  · have ht := h t
    rw [view_modifyInfo, if_pos rfl, h1, h2, h3]
    refine ⟨ht.waiting, ht.pausing, ht.ended, fun hc hs hfatal => ?_, ht.iddle⟩
    obtain ⟨h4, h5⟩ := hsignal hs
    rw [h5] at hfatal
    exact ht.harmless hc h4 hfatal

theorem Standing.note {ev : Event T} (h : Standing hand on s) (hn : s.neutral ev)
    (he : ∀ b, ev ≠ .ended b) : Standing hand on (s.note ev) := by
  intro a
  rw [view_note _ _ _ he]
  exact (h a).frame (frame_note hn)

theorem view_of_ne (h : s.current c ≠ some t) : s.view (some c) t = s.view none t := by
  have hrun : s.runsElsewhere (some c) t = s.runsElsewhere none t := by
    rw [Bool.eq_iff_iff, runsElsewhere_iff, runsElsewhere_iff]
    refine exists_congr fun d => ?_
    have hd : s.current d = some t → some c ≠ some d := by
      rintro hd hcd
      rw [← Option.some.inj hcd] at hd
      exact h hd
    simpa using fun hda => by simpa using hd hda
  unfold view
  rw [hrun]

theorem Standing.begin (h : Standing none none s) (hx : Exclusive none s)
    (hc : s.current c = some e) : Standing (some e) (some c) s := by
  obtain ⟨h1, h2, h3⟩ := (s.away_iff e _).mp (hx.current_away hc)
  have hrune : s.runsElsewhere none e = true := (s.runsElsewhere_iff e _).mpr ⟨c, by simp, hc⟩
  refine h.change e (.refl s) (fun a ha => view_of_ne ?_) (fun a ha => by simp [Ne.symm ha]) ?_
  · rw [hc]
    exact fun hea => ha (Option.some.inj hea).symm
  · have he := h e
    refine ⟨fun hr => ?_, he.pausing, fun hce => ?_, he.harmless, he.iddle⟩
    · obtain ⟨k1, k2, k3, k4, k5, -⟩ := he.waiting hr
      exact ⟨k1, k2, k3, k4, k5, fun hrun => absurd (hrun.symm.trans h2) Bool.true_eq_false.mp⟩
    · have hend := he.ended hce
      simp only [view, View.away, hrune] at hend
      simpa [view] using hend

theorem Standing.enqueueWl (h : Standing (some t) on s) (hr : ¬ s.registered t) :
    Standing none on (s.enqueueWl on t) := by
  refine h.change t (frame_enqueueWl s on t) (fun a ha => ?_) (fun a ha => by simp [Ne.symm ha]) ?_
  · rw [view_enqueueWl, if_neg ha]
  · have ht := h t
    rw [view_enqueueWl, if_pos rfl]
    refine ⟨fun hw => absurd hw hr, ht.pausing, fun hc => ?_, ht.harmless, ht.iddle⟩
    have hend := ht.ended hc
    simpa [View.away] using hend

theorem Standing.putDown (h : Standing (some t) on s)
    (ht : s.isChildEntry t → (s.info t).isExiting = false) : Standing none on s := by
  refine h.change t (.refl s) (fun _ _ => rfl) (fun a ha => by simp [Ne.symm ha]) ?_
  have hs := h t
  refine ⟨hs.waiting, hs.pausing, fun hc => ?_, hs.harmless, hs.iddle⟩
  have hend := hs.ended hc
  simpa [view, ht hc] using hend

section
variable [DecidableEq P] {q : P}

/-- The results that the end of a thread produces go to the thread that registered last. -/
def ServesLast (s : Sched T P G n) (e : T) : Prop :=
  ∀ q ∈ (s.process (s.info e).process).parent,
    ∀ w ∈ s.waitpidList.zipIdx.find? (fun w => waitsForAny s q w.1),
      w.2 + 1 = s.waitpidList.length

instance (s : Sched T P G n) (e : T) : Decidable (ServesLast s e) :=
  inferInstanceAs (Decidable (∀ q ∈ _, ∀ w ∈ _, _))

theorem view_serve {list : List ℕ}
    {result : ChildResult} {a : T} : (serve s on' list info result).view on a =
    if a = (s.waitpidInfo info).waitingThread then
      { s.view on a with isPausing := false, isInQueue := true } else s.view on a := by
  unfold serve
  rw [view_note _ _ _ (by simp), view_enqueueWl, view_wake]
  split_ifs <;> rfl

theorem Stands.exited (h : Stands s (some e) e (s.view on e)) (haway : s.away on e = true)
    (hexit : (s.info e).isExiting = true) : Stands s none e ((s.note (.ended e)).view on e) := by
  rw [view_ended, if_pos rfl]
  refine ⟨fun hr => ?_, h.pausing, fun hc => ?_, h.harmless, h.iddle⟩
  · exact absurd ((h.waiting hr).2.2.1.symm.trans hexit) Bool.false_ne_true
  · have hend := h.ended hc
    have hv : (s.view on e).away = true := haway
    have hx : (s.view on e).isExiting = true := hexit
    rw [if_neg (by simp)] at hend
    simp only [hend, hx, View.away] at hv ⊢
    simp [hv]

theorem Standing.exited (h : Standing (some e) on s) (hae : t ≠ e) :
    Stands s none t ((s.note (.ended e)).view on t) := by
  rw [view_ended, if_neg hae]
  exact (h t).passed (by simp [Ne.symm hae])

theorem Standing.store (h : Standing (some e) on s) (haway : s.away on e = true)
    (hexit : (s.info e).isExiting = true) (q : P) (result : ChildResult) :
    Standing none on (storeResult s e q result) := by
  intro a
  refine Stands.kindred ?_ (kindred_storeResult ..) (fun hr => hr) fun hi => hi
  by_cases hae : a = e
  · subst hae
    exact (h a).exited haway hexit
  · exact h.exited hae

theorem Ledger.registered_serve {list : List ℕ} (hl : Ledger s) (hlist : s.waitpidList = list ++ [info])
    {result : ChildResult} {e : T}
    (hr : (Scheduler.serve (s.note (.ended e)) on list info result).registered t) :
    s.registered t ∧ t ≠ (s.waitpidInfo info).waitingThread := by
  obtain ⟨i, hi, hit⟩ := hr
  have hi : i ∈ list := hi
  have hmem : i ∈ s.waitpidList := by simp [hlist, hi]
  have hit : (s.waitpidInfo i).waitingThread = t := by
    rw [serve_waitpidInfo] at hit
    split_ifs at hit with hii
    · rw [hii]; exact hit
    · exact hit
  refine ⟨⟨i, hmem, hit⟩, fun htw => ?_⟩
  have hst := hl.listed i hmem
  rw [hit, htw, hl.listed info (by simp [hlist])] at hst
  have hnodup := hl.nodup
  rw [hlist, nodup_append] at hnodup
  exact hnodup.2.2 i hi info (by simp) (Option.some.inj hst).symm

theorem Standing.serve {list : List ℕ} (h : Standing (some e) on s) (hl : Ledger s)
    (haway : s.away on e = true) (hexit : (s.info e).isExiting = true)
    (hlist : s.waitpidList = list ++ [info]) (result : ChildResult) :
    Standing none on (Scheduler.serve (s.note (.ended e)) on list info result) := by
  have hk : Kindred s (Scheduler.serve (s.note (.ended e)) on list info result) :=
    (kindred_note s (.ended e)).trans (kindred_serve ..)
  have hreg : s.registered (s.waitpidInfo info).waitingThread := ⟨info, by simp [hlist], rfl⟩
  intro a
  rw [view_serve]
  split_ifs with haw
  · have haw : a = (s.waitpidInfo info).waitingThread := haw
    subst haw
    have hst := h (s.waitpidInfo info).waitingThread
    have hexiting := (hst.waiting hreg).2.2.1
    have hwe : (s.waitpidInfo info).waitingThread ≠ e := by
      intro hwe
      rw [hwe] at hexiting
      exact absurd (hexiting.symm.trans hexit) Bool.false_ne_true
    rw [view_ended, if_neg hwe]
    refine ⟨fun hr => absurd rfl (hl.registered_serve hlist hr).2, fun _ hx => ?_, fun hc => ?_,
      fun hc hsig hfatal => ?_, hst.iddle⟩
    · exact absurd (hexiting.symm.trans hx) Bool.false_ne_true
    · have hend := hst.ended ((hk.isChildEntry _).mp hc)
      simpa [hexiting] using hend
    · rw [hk.home, hk.isFatal] at hfatal
      exact hst.harmless ((hk.isChildEntry _).mp hc) hsig hfatal
  · refine Stands.kindred ?_ hk (fun hr => (hl.registered_serve hlist hr).1) fun hi => hi
    by_cases hae : a = e
    · subst hae
      exact (h a).exited haway hexit
    · exact h.exited hae

theorem exitChild (hl : Ledger s) (h : Standing (some e) on s)
    (hpid : Function.Injective fun p => (s.process p).pid) (haway : s.away on e = true)
    (hexit : (s.info e).isExiting = true) (hlast : ServesLast s e) (hc : s.isChildEntry e)
    (hs : exitThreadRoutine (s.note (.ended e)) on e = .ok s') : Ledger s' ∧ Standing none on s' := by
  rcases exitThreadRoutine_ok hs with ⟨hne, -⟩ | ⟨q, -, hq, ⟨hnone, rfl⟩ |
    ⟨info, index, list, hf, hrem, rfl⟩⟩
  · exact absurd hc hne
  · refine ⟨hl.store hpid hc hq fun i hi => ?_, h.store haway hexit q _⟩
    obtain ⟨k, hk⟩ := mem_iff_getElem?.mp hi
    exact (Bool.not_eq_true _).mp
      (find?_eq_none.mp hnone (i, k) (mem_zipIdx_iff_getElem?.mpr hk))
  · have hget := mem_zipIdx_iff_getElem?.mp (mem_of_find?_eq_some hf)
    have hlist := vectorRemove_ok_last (hlast q hq (info, index) hf) hget hrem
    have hw := find?_some hf
    exact ⟨hl.serve hpid hc hq hlist hw, h.serve hl haway hexit hlist _⟩

theorem exitThreadRoutine_other (hc : ¬ s.isChildEntry t)
    (hs : exitThreadRoutine s on t = .ok s') : s' = s := by
  rcases exitThreadRoutine_ok hs with ⟨-, rfl⟩ | ⟨q, hc', -⟩
  · rfl
  · exact absurd hc' hc

theorem Retired.standing (hr : Retired s c e s') (hl : Ledger s) (h : Standing (some e) (some c) s)
    (hpid : Function.Injective fun p => (s.process p).pid) (haway : s.away (some c) e = true)
    (hlast : (s.info e).isExiting = true → ServesLast s e) :
    Ledger s' ∧ Standing none (some c) s' := by
  cases hr with
  | restored hign =>
    have hnot : ¬ s.registered e := fun hreg =>
      absurd (((h e).waiting hreg).2.1.symm.trans hign) Bool.false_ne_true
    have hf : Frame s (s.modifyInfo e fun r =>
        { r with threadToFree := none, isIgnoringCtx := false }) := frame_modifyInfo rfl
    refine ⟨(hl.frame hf).frame (frame_enqueueWl ..), Standing.enqueueWl ?_ fun hreg =>
      hnot ((hf.registered e).mp hreg)⟩
    refine h.change e hf (fun a ha => by rw [view_modifyInfo, if_neg ha]) (fun _ _ => Iff.rfl) ?_
    rw [view_modifyInfo, if_pos rfl]
    exact ⟨fun hreg => absurd hreg hnot, (h e).pausing, (h e).ended, (h e).harmless, (h e).iddle⟩
  | exited hign hpause hexit hs =>
    have hf : Frame s (s.modifyInfo e fun r => { r with threadToFree := none }) :=
      frame_modifyInfo rfl
    have hst := h.modifyInfo (t := e) (f := fun r => { r with threadToFree := none }) rfl
      ⟨rfl, rfl, rfl⟩ fun hsig => ⟨hsig, rfl⟩
    have hexit' : ((s.modifyInfo e fun r => { r with threadToFree := none }).info e).isExiting = true := by
      rw [modifyInfo_info, if_pos rfl]
      exact hexit
    by_cases hc : s.isChildEntry e
    · refine exitChild (hl.frame hf) hst hpid haway hexit' (fun q hq w hw => ?_)
        ((hf.isChildEntry e).mpr hc) hs
      rw [hf.home, hf.parent] at hq
      refine hlast hexit q hq w ?_
      have hany : ∀ i, waitsForAny (s.modifyInfo e fun r => { r with threadToFree := none }) q i =
          waitsForAny s q i := fun i => by
        unfold waitsForAny
        rw [hf.home]
        rfl
      simp only [hany] at hw
      exact hw
    · have hn : (s.modifyInfo e fun r => { r with threadToFree := none }).neutral (.ended e) :=
        fun hce => hc ((hf.isChildEntry e).mp hce)
      obtain rfl := exitThreadRoutine_other
        (fun hce => hc (((hf.trans (frame_note hn)).isChildEntry e).mp hce)) hs
      refine ⟨(hl.frame hf).frame (frame_note hn), fun a => ?_⟩
      refine Stands.frame ?_ (frame_note hn)
      by_cases hae : a = e
      · subst hae
        exact (hst a).exited haway hexit'
      · exact hst.exited hae
  | parked hign hpause hexit =>
    have hst := h.modifyInfo (t := e) (f := savedInfo (s.cpu c)) rfl ⟨rfl, rfl, rfl⟩
      fun hsig => ⟨hsig, rfl⟩
    refine ⟨hl.frame (frame_modifyInfo rfl), hst.putDown fun _ => ?_⟩
    rw [modifyInfo_info, if_pos rfl]
    exact hexit
  | saved hign hpause =>
    have hf : Frame s (s.modifyInfo e (savedInfo (s.cpu c))) := frame_modifyInfo rfl
    have hst := h.modifyInfo (t := e) (f := savedInfo (s.cpu c)) rfl ⟨rfl, rfl, rfl⟩
      fun hsig => ⟨hsig, rfl⟩
    refine ⟨(hl.frame hf).frame (frame_enqueueWl ..), hst.enqueueWl fun hreg => ?_⟩
    exact absurd (hpause.symm.trans ((h e).waiting ((hf.registered e).mp hreg)).1) Bool.false_ne_true

theorem frame_queue (s : Sched T P G n) (queue : RunQueue T) : Frame s { s with queue } :=
  ⟨⟨fun _ => rfl, fun _ => rfl⟩, fun _ => rfl, rfl, rfl, fun _ => rfl, rfl, [], by simp, by simp⟩

omit [DecidableEq P] in
theorem Exclusive.popped (hx : Exclusive on s) (hs : s.getTread = .ok (r, s')) :
    ∃ queue, s' = { s with queue } ∧ (∀ t ∈ r, (s.queue.thread t).isInQueue = true) ∧
      ∀ a, (queue.thread a).isInQueue =
        if r = some a then false else (s.queue.thread a).isInQueue := by
  obtain ⟨l, hclean⟩ := hx.queue
  obtain ⟨q, hget, hq⟩ := hclean.get
  simp only [Sched.getTread, hget] at hs
  cases hs
  refine ⟨q, rfl, fun t ht => ?_, fun a => ?_⟩
  · exact hclean.mem_iff.mpr (mem_of_mem_head? ht)
  · rw [Bool.eq_iff_iff, hq.mem_iff]
    cases l with
    | nil =>
      have := hclean.mem_iff (t := a)
      simpa using this
    | cons x l =>
      have hx := (nodup_cons.mp hclean.holds.nodup).1
      have hmem := hclean.mem_iff (t := a)
      by_cases hxa : x = a
      · subst hxa
        simpa using hx
      · simp [hxa, hmem, Ne.symm hxa]

theorem Standing.getTread (h : Standing none on s) (hx : Exclusive on s)
    (hs : s.getTread = .ok (r, s')) :
    Frame s s' ∧ Standing r on s' ∧ ∀ t ∈ r, ¬ s.registered t := by
  obtain ⟨queue, rfl, hr, hq⟩ := hx.popped hs
  have hview : ∀ a, { s with queue }.view on a =
      { s.view on a with isInQueue := if r = some a then false else (s.view on a).isInQueue } := by
    intro a
    have := hq a
    unfold view
    simp only [this]
    rfl
  have hnot : ∀ t ∈ r, ¬ s.registered t := fun t ht hreg =>
    absurd (((h t).waiting hreg).2.2.2.1.symm.trans (hr t ht)) Bool.false_ne_true
  refine ⟨frame_queue .., ?_, hnot⟩
  cases r with
  | none =>
    intro a
    have hv : { s with queue }.view on a = s.view on a := by rw [hview]; simp
    exact hv ▸ (h a).frame (frame_queue ..)
  | some t =>
    refine h.change t (frame_queue ..) (fun a ha => ?_) (fun a ha => by simp [Ne.symm ha]) ?_
    · rw [hview, if_neg (by simpa using Ne.symm ha)]
    · have ht := h t
      rw [hview, if_pos rfl]
      refine ⟨fun hreg => absurd hreg (hnot t rfl), ht.pausing, fun hc => ?_, ht.harmless, ht.iddle⟩
      have hend := ht.ended hc
      have hqt : (s.view on t).isInQueue = true := hr t rfl
      simpa [View.away, hqt] using hend

theorem Standing.takeSignal (h : Standing hand on s) : Standing hand on (takeSignal s t) :=
  h.modifyInfo rfl ⟨rfl, rfl, rfl⟩ fun hsig => absurd hsig Bool.false_ne_true

theorem SignalEffect.standing {handling : HandleSignal} (he : SignalEffect s c t handling s')
    (h : Standing (some t) on s) : Frame s s' ∧
      if handling = .exit then ¬ s.isChildEntry t ∧ Standing none on s' else Standing (some t) on s' := by
  have htake : Frame s (takeSignal s t) := frame_modifyInfo rfl
  cases he with
  | absent _ => exact ⟨.refl s, h⟩
  | ended hsig hfatal hend =>
    have hc : ¬ s.isChildEntry t := fun hc => (h t).harmless hc hsig hfatal
    have hproc : Frame (takeSignal s t) ((takeSignal s t).modifyProcess
        ((takeSignal s t).info t).process fun p =>
          { p with threads := vectorSet p.threads ((takeSignal s t).info t).index none }) :=
      frame_modifyProcess rfl rfl
    have hf := htake.trans hproc
    have hn : Sched.neutral _ (.ended t) := fun hce => hc ((hf.isChildEntry t).mp hce)
    have hf' := hf.trans (frame_note hn)
    obtain rfl := exitThreadRoutine_other (fun hce => hc ((hf'.isChildEntry t).mp hce)) hend
    refine ⟨hf', hc, ?_⟩
    refine Standing.change t h.takeSignal (hproc.trans (frame_note hn))
      (fun a ha => ?_) (fun a ha => by simp [Ne.symm ha]) ?_
    · rw [view_ended, if_neg ha]; rfl
    · have hst := h.takeSignal (t := t) t
      have hc' : ¬ (takeSignal s t).isChildEntry t := fun hce => hc ((htake.isChildEntry t).mp hce)
      rw [view_ended]
      exact ⟨hst.waiting, fun hce => absurd hce hc', fun hce => absurd hce hc',
        fun hce => absurd hce hc', hst.iddle⟩
  | ignored _ _ => exact ⟨htake, h.takeSignal⟩
  | delivered handler _ _ =>
    refine ⟨(htake.trans (frame_modifyInfo rfl)).trans (frame_note trivial), ?_⟩
    refine Standing.note (h.takeSignal.modifyInfo rfl ⟨rfl, rfl, rfl⟩ fun hs => ⟨hs, rfl⟩) trivial ?_
    simp

theorem Chosen.standing (hch : Chosen s c r s') (h : Standing none (some c) s)
    (hg : Guarded (some c) s) (hw : WakesAway s') :
    Frame s s' ∧ Standing r (some c) s' ∧ ∀ t ∈ r, ¬ s.registered t := by
  have hx := (hg (hch.within.wakesAway hw)).1
  cases hch with
  | nobody hget | kernel hget _ => exact h.getTread hx hget
  | first hget _ hne hsig =>
    obtain ⟨hf, hst, hnot⟩ := h.getTread hx hget
    obtain ⟨hf', hst'⟩ := (handleSignal_effect hsig).standing hst
    rw [if_neg hne] at hst'
    exact ⟨hf.trans hf', hst', hnot⟩
  | @second s1 s2 s3 _ t _ hget _ hsig hexit hget' =>
    have heff := handleSignal_effect hsig
    obtain ⟨hf, hst, -⟩ := h.getTread hx hget
    obtain ⟨hf', hst'⟩ := heff.standing hst
    rw [if_pos rfl] at hst'
    obtain rfl := exitThreadRoutine_other (fun hce => hst'.1 ((hf'.isChildEntry t).mp hce)) hexit
    have hg3 := (heff.guarded (hg.getTread hget).1).1
    have hx3 := (hg3 ((getTread_within hget').wakesAway hw)).1
    obtain ⟨hf'', hst'', hnot⟩ := hst'.2.getTread hx3 hget'
    refine ⟨(hf.trans hf').trans hf'', hst'', fun a ha hreg => hnot a ha ?_⟩
    exact ((hf.trans hf').registered a).mpr hreg

theorem frame_setCpu (s : Sched T P G n) (c : Fin n) (cpu : Cpu T G) : Frame s (s.setCpu c cpu) :=
  ⟨⟨fun _ => rfl, fun _ => rfl⟩, fun _ => rfl, rfl, rfl, fun _ => rfl, rfl, [], by simp [setCpu],
    by simp⟩

theorem Standing.enter {cpu : Cpu T G} (h : Standing r (some c) s) (hc : cpu.ctx.thread = some t)
    (hreg : ¬ s.registered t) (hr : r = some t ∨ r = none ∧ s.isIddle t) :
    Standing none none (s.setCpu c cpu) := by
  have hcur : ∀ d, (s.setCpu c cpu).current d = if d = c then some t else s.current d := by
    intro d
    by_cases hd : d = c
    · subst hd; simp [current, setCpu, hc]
    · simp [current, setCpu, hd]
  have hrun : ∀ a ≠ t, (s.setCpu c cpu).runsElsewhere none a = s.runsElsewhere (some c) a := by
    intro a ha
    rw [Bool.eq_iff_iff, runsElsewhere_iff, runsElsewhere_iff]
    refine exists_congr fun d => ?_
    rw [hcur]
    by_cases hd : d = c
    · subst hd; simp [Ne.symm ha]
    · simp [hd, Ne.symm hd]
  have hrunt : (s.setCpu c cpu).runsElsewhere none t = true :=
    (Sched.runsElsewhere_iff ..).mpr ⟨c, by simp, by simp [hcur]⟩
  refine h.change t (frame_setCpu ..) (fun a ha => ?_) (fun a ha => ?_) ?_
  · have := hrun a ha
    unfold view
    rw [this]
    rfl
  · rcases hr with rfl | ⟨rfl, -⟩ <;> simp [Ne.symm ha]
  · have ht := h t
    refine ⟨fun hw => absurd hw hreg, ht.pausing, fun hce => ?_, ht.harmless, ht.iddle⟩
    have hend : s.log.count (.ended t) = 0 := by
      refine (ht.ended hce).trans (if_neg ?_)
      rcases hr with rfl | ⟨rfl, hi⟩
      · simp
      · simp [ht.iddle hi]
    rw [if_neg]
    · exact hend
    · simp [view, View.away, hrunt]

theorem Standing.stay (h : Standing none (some c) s)
    (hp : ∀ e ∈ s.current c, (s.info e).isPausing = false) : Standing none none s := by
  intro a
  by_cases hc : s.current c = some a
  · have ha := h a
    have hpa := hp a hc
    have hexit : s.isChildEntry a → (s.view (some c) a).isExiting = false := by
      intro hce
      rw [← Bool.not_eq_true]
      exact fun hx => absurd (hpa.symm.trans (ha.pausing hce hx)) Bool.false_ne_true
    refine ⟨fun hr => ?_, ha.pausing, fun hce => ?_, ha.harmless, ha.iddle⟩
    · exact absurd (hpa.symm.trans (ha.waiting hr).1) Bool.false_ne_true
    · have hend := ha.ended hce
      have hx := hexit hce
      simp only [view] at hx hend ⊢
      simpa [hx] using hend
  · rw [← view_of_ne hc]
    exact h a

theorem install_standing (h : Standing r (some c) s) (hx : Exclusive (some c) s)
    (hreg : ∀ t ∈ r, ¬ s.registered t) :
    Frame s (installStarting s c (s.current c) r) ∧
      Standing none none (installStarting s c (s.current c) r) := by
  unfold installStarting
  cases hf : fallback s c (s.current c) r with
  | none =>
    refine ⟨.refl s, ?_⟩
    obtain ⟨rfl, hpause⟩ := fallback_none hf
    exact h.stay hpause
  | some t =>
    have hpass : Frame s (passOn s (s.current c) t) ∧
        Standing r (some c) (passOn s (s.current c) t) := by
      rcases passOn_cases s (s.current c) t with hp | ⟨e, hp⟩ <;> rw [hp]
      · exact ⟨.refl s, h⟩
      · exact ⟨frame_modifyInfo rfl, h.modifyInfo rfl ⟨rfl, rfl, rfl⟩ fun hs => ⟨hs, rfl⟩⟩
    have hown : ((passOn s (s.current c) t).info t).ctx.cpuCtx.thread = some t := by
      have := (hx.own t).1
      rcases passOn_cases s (s.current c) t with hp | ⟨e, hp⟩ <;> rw [hp]
      · exact this
      · rw [modifyInfo_info, if_pos rfl]; exact this
    refine ⟨hpass.1.trans (frame_setCpu ..), hpass.2.enter hown (fun hw => ?_) ?_⟩
    · have hw := (hpass.1.registered t).mp hw
      rcases fallback_some hf with rfl | ⟨-, hi, -⟩
      · exact hreg t rfl hw
      · obtain ⟨i, hi', rfl⟩ := hw
        exact hx.waiting i hi' ⟨c, hi⟩
    · rcases fallback_some hf with rfl | ⟨rfl, hi, -⟩
      · exact .inl rfl
      · exact .inr ⟨rfl, (hpass.1.isIddle t).mpr ⟨c, hi⟩⟩

theorem frame_lock (s : Sched T P G n) (b : Bool) : Frame s { s with schedulerSpinlock := b } :=
  ⟨⟨fun _ => rfl, fun _ => rfl⟩, fun _ => rfl, rfl, rfl, fun _ => rfl, rfl, [], by simp, by simp⟩

theorem handler_standing {force : Bool} (hl : Ledger s)
    (h : ∀ e, s.current c = some e → Standing (some e) (some c) s)
    (hnone : s.current c = none → Standing none none s) (hg : Guarded none s)
    (hpid : Function.Injective fun p => (s.process p).pid)
    (hlast : ∀ e, s.current c = some e → (s.info e).isExiting = true → ServesLast s e)
    (hlock : s.schedulerSpinlock = false) (hs : schedulerHandler s c force = .ok s')
    (hw : WakesAway s') : Ledger s' ∧ Standing none none s' := by
  obtain ⟨s1, s2, r, hret, hch, rfl, hw2, hin, hg1, hcur⟩ := handler_parts hlock hg hs hw
  have hws := hin.wakesAway hw2
  have hlk := frame_lock s true
  have h1 : Ledger s1 ∧ Standing none (some c) s1 := by
    rcases retire_cases hret with ⟨hc, rfl⟩ | ⟨e, he, hr⟩
    · refine ⟨hl.frame hlk, fun a => ?_⟩
      rw [view_of_ne (by rw [hc]; simp)]
      exact (hnone hc a).frame hlk
    · exact hr.standing (hl.frame hlk) (fun a => (h e he a).frame hlk) hpid
        ((hg hws).1.current_away he) (hlast e he)
  obtain ⟨hf2, hst2, hnot⟩ := hch.standing h1.2 hg1 hw2
  have hinst := install_standing hst2 ((hch.guarded hg1).1 hw2).1 fun t ht hr =>
    hnot t ht ((hf2.registered t).mp hr)
  rw [hcur] at hinst
  have hf := (hf2.trans hinst.1).trans (frame_lock _ false)
  exact ⟨h1.1.frame hf, fun a => (hinst.2 a).frame (frame_lock _ false)⟩

end
end Kot.Kernel.Scheduler
