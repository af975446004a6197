import Kot.Kernel.Scheduler.Standing

/-! What a scheduling decision does to a thread that it does not handle itself. -/
set_option linter.unusedSectionVars false

namespace Kot.Kernel.Scheduler
open Kot.Lib

variable {T P G : Type} {n : ℕ} [DecidableEq T] {s s' s1 : Sched T P G n}
  {c d : Fin n} {on : Option (Fin n)} {t w x e : T} {r : Option T}

/-- The thread is left alone, except that it may be woken if it is registered. -/
structure Spared (t : T) (s s' : Sched T P G n) : Prop where
  info : ∃ b f, s'.info t = { s.info t with isPausing := b, threadToFree := f }
  queued : (s.queue.thread t).isInQueue = true → (s'.queue.thread t).isInQueue = true
  woken : (s'.info t).isPausing = (s.info t).isPausing ∧
      (s'.queue.thread t).isInQueue = (s.queue.thread t).isInQueue ∨
    s.registered t ∧ (s'.info t).isPausing = false ∧ (s'.queue.thread t).isInQueue = true
  registered : s'.registered t → s.registered t

namespace Spared

theorem refl (t : T) (s : Sched T P G n) : Spared t s s :=
  ⟨⟨_, _, rfl⟩, fun h => h, .inl ⟨rfl, rfl⟩, fun h => h⟩

theorem trans (h : Spared t s s1) (h' : Spared t s1 s') : Spared t s s' := by
  obtain ⟨b, f, hi⟩ := h.info
  obtain ⟨b', f', hi'⟩ := h'.info
  refine ⟨⟨b', f', by rw [hi', hi]⟩, fun hq => h'.queued (h.queued hq), ?_,
    fun hr => h.registered (h'.registered hr)⟩
  rcases h'.woken with ⟨hp', hq'⟩ | ⟨hr, hp', hq'⟩
  · rcases h.woken with ⟨hp, hq⟩ | ⟨hr, hp, hq⟩
    · exact .inl ⟨hp'.trans hp, hq'.trans hq⟩
    · exact .inr ⟨hr, hp'.trans hp, hq'.trans hq⟩
  · exact .inr ⟨h.registered hr, hp', hq'⟩

theorem of_same (hinfo : s'.info t = s.info t)
    (hqueue : (s'.queue.thread t).isInQueue = (s.queue.thread t).isInQueue)
    (hreg : s'.registered t → s.registered t) : Spared t s s' :=
  ⟨⟨_, _, hinfo⟩, fun hq => hqueue.trans hq, .inl ⟨by rw [hinfo], hqueue⟩, hreg⟩

theorem modifyInfo {f : ThreadInfo T P G → ThreadInfo T P G} (h : t ≠ x) :
    Spared t s (s.modifyInfo x f) :=
  of_same (by rw [Sched.modifyInfo_info, if_neg h]) rfl fun hr => hr

theorem enqueueWl (h : t ≠ x) : Spared t s (s.enqueueWl on x) := by
  refine of_same rfl ?_ fun hr => hr
  rw [Sched.enqueueWl_queue, enqueueWl_isInQueue, if_neg h]

theorem note (ev : Event T) : Spared t s (s.note ev) := of_same rfl rfl fun hr => hr

theorem passOn (ending : Option T) : Spared t s (passOn s ending x) := by
  rcases passOn_cases s ending x with hp | ⟨e, hp⟩ <;> rw [hp]
  · exact refl t s
  · by_cases h : t = x
    · subst h
      have hi : (s.modifyInfo t fun r => { r with threadToFree := some e }).info t =
          { s.info t with threadToFree := some e } := by rw [Sched.modifyInfo_info, if_pos rfl]
      exact ⟨⟨_, _, hi⟩, fun hq => hq, .inl ⟨by rw [hi], rfl⟩, fun hr => hr⟩
    · exact modifyInfo h

section
variable [DecidableEq P]

theorem exitThreadRoutine (hs : exitThreadRoutine s on e = .ok s') : Spared t s s' := by
  rcases exitThreadRoutine_ok hs with ⟨-, rfl⟩ | ⟨q, -, -, ⟨-, rfl⟩ |
    ⟨info, index, list, hf, hrem, rfl⟩⟩
  · exact refl t s'
  · exact of_same rfl rfl fun hr => hr
  · have hmem := List.mem_of_find?_eq_some hf
    have hinfo := List.fst_mem_of_mem_zipIdx hmem
    have hsub : ∀ i ∈ list, i ∈ s.waitpidList := by
      have hindex := (List.mem_zipIdx hmem).2.1
      rw [Nat.zero_add] at hindex
      intro i hi
      exact (List.dropLast_sublist _).subset (vectorRemove_ok hindex hrem ▸ hi)
    have hreg : (serve s on list info (exitResult s (s.info e).process)).registered t →
        s.registered t := by
      rintro ⟨i, hi, hit⟩
      refine ⟨i, hsub i hi, ?_⟩
      rw [serve_waitpidInfo] at hit
      split_ifs at hit with hii
      · rw [hii]; exact hit
      · exact hit
    have hqueue : ((serve s on list info (exitResult s (s.info e).process)).queue.thread t).isInQueue =
        if t = (s.waitpidInfo info).waitingThread then true else (s.queue.thread t).isInQueue :=
      enqueueWl_isInQueue ..
    by_cases hw : t = (s.waitpidInfo info).waitingThread
    · rw [if_pos hw] at hqueue
      have hi := serve_info s on list info (exitResult s (s.info e).process) t
      rw [if_pos hw] at hi
      exact ⟨⟨_, _, hi⟩, fun _ => hqueue, .inr ⟨⟨info, hinfo, hw.symm⟩, by rw [hi], hqueue⟩, hreg⟩
    · rw [if_neg hw] at hqueue
      exact of_same (by rw [serve_info, if_neg hw]) hqueue hreg

theorem endThread (hs : endThread s on e = .ok s') : Spared t s s' := by
  refine Spared.trans ?_ (exitThreadRoutine hs)
  exact of_same rfl rfl fun hr => hr

theorem signalEffect {handling : HandleSignal} (he : SignalEffect s c x handling s') (h : t ≠ x) :
    Spared t s s' := by
  cases he with
  | absent _ => exact refl t s
  | ended _ _ hend => exact (modifyInfo h).trans (endThread hend)
  | ignored _ _ => exact modifyInfo h
  | delivered _ _ _ => exact ((modifyInfo h).trans (modifyInfo h)).trans (note _)

theorem retired (hr : Retired s c e s') (h : t ≠ e) : Spared t s s' := by
  cases hr with
  | restored _ | saved _ _ => exact (modifyInfo h).trans (enqueueWl h)
  | exited _ _ _ hs => exact ((modifyInfo h).trans (note _)).trans (exitThreadRoutine hs)
  | parked _ _ _ => exact modifyInfo h

end

theorem getTread (hx : Exclusive on s) (hs : s.getTread = .ok (r, s')) (h : r ≠ some t) :
    Spared t s s' := by
  obtain ⟨queue, rfl, -, hq⟩ := hx.popped hs
  exact of_same rfl (by rw [hq t, if_neg h]) fun hr => hr

theorem not_queued (h : Spared t s s') (hr : ¬ s.registered t)
    (hq : (s.queue.thread t).isInQueue = false) :
    (s'.queue.thread t).isInQueue = false ∧ ¬ s'.registered t := by
  rcases h.woken with ⟨-, hq'⟩ | ⟨hr', -, -⟩
  · exact ⟨hq'.trans hq, fun h' => hr (h.registered h')⟩
  · exact absurd hr' hr

theorem ctx (h : Spared t s s') : (s'.info t).ctx = (s.info t).ctx ∧
    (s'.info t).isIgnoringCtx = (s.info t).isIgnoringCtx := by
  obtain ⟨b, f, hi⟩ := h.info
  rw [hi]
  exact ⟨rfl, rfl⟩

end Spared

theorem Guarded.exclusive (h : Guarded on s) (hw : WakesAway s) : Exclusive on s := (h hw).1

theorem installStarting_frame (s : Sched T P G n) (c : Fin n) (ending starting : Option T) :
    (installStarting s c ending starting).queue = s.queue ∧
    (installStarting s c ending starting).calls = s.calls ∧
    (∀ d, d ≠ c → (installStarting s c ending starting).cpu d = s.cpu d) ∧
    Spared t s (installStarting s c ending starting) := by
  unfold installStarting
  split
  · exact ⟨rfl, rfl, fun _ _ => rfl, .refl t s⟩
  · rename_i x _
    have hsp : Spared t s (passOn s ending x) := .passOn ending
    refine ⟨?_, ?_, fun d hd => (Function.update_of_ne hd ..).trans ?_,
      ⟨hsp.info, hsp.queued, hsp.woken, hsp.registered⟩⟩ <;>
    rcases passOn_cases s ending x with hp | ⟨e, hp⟩ <;> rw [hp] <;> rfl

theorem fallback_started (s : Sched T P G n) (c : Fin n) (ending : Option T) (t : T) :
    fallback s c ending (some t) = some t := by
  unfold fallback
  split
  · rfl
  · split_ifs <;> rfl

theorem installStarting_cpu {ending : Option T} (h : fallback s c ending r = some t) :
    (installStarting s c ending r).cpu c =
      ⟨(s.info t).ctx.cpuCtx, (s.info t).ctx.simdCtx, (s.info t).ctx.fsBase⟩ := by
  have hpass := (Spared.passOn ending : Spared t s (passOn s ending t)).ctx.1
  simp only [installStarting, h, Sched.contextRestore, Sched.setCpu, Function.update_self, hpass]

section
variable [DecidableEq P]

theorem Chosen.spared (hch : Chosen s c r s') (hg : Guarded (some c) s) (hw : WakesAway s')
    (hr : r ≠ some t) : Spared t s s' ∨ ∃ s1 s2 s3, s.getTread = .ok (some t, s1) ∧
      schedulerHandleSignal s1 c t = .ok (.exit, s2) ∧ exitThreadRoutine s2 (some c) t = .ok s3 ∧
      s3.getTread = .ok (r, s') := by
  have hx := hg.exclusive (hch.within.wakesAway hw)
  cases hch with
  | nobody hget | kernel hget _ => exact .inl (.getTread hx hget hr)
  | first hget _ _ hsig =>
    exact .inl ((Spared.getTread hx hget hr).trans
      (.signalEffect (handleSignal_effect hsig) fun h => hr (h ▸ rfl)))
  | @second s1 s2 s3 _ x _ hget _ hsig hexit hget' =>
    by_cases hxt : x = t
    · subst hxt
      exact .inr ⟨s1, s2, s3, hget, hsig, hexit, hget'⟩
    · have heff := handleSignal_effect hsig
      have hg3 := exitThreadRoutine_guarded (heff.guarded (hg.getTread hget).1).1 hexit
      have hx3 := hg3.exclusive ((getTread_within hget').wakesAway hw)
      have hne : t ≠ x := fun h => hxt h.symm
      refine .inl (((Spared.getTread hx hget (by simpa using hxt)).trans (.signalEffect heff hne)).trans ?_)
      exact (Spared.exitThreadRoutine hexit).trans (.getTread hx3 hget' hr)

theorem Chosen.spared_out (hch : Chosen s c r s') (hg : Guarded (some c) s) (hw : WakesAway s')
    (hq : (s.queue.thread t).isInQueue = false) (hreg : ¬ s.registered t) :
    r ≠ some t ∧ Spared t s s' := by
  have hx := hg.exclusive (hch.within.wakesAway hw)
  have hfirst : ∀ {a s1}, s.getTread = .ok (a, s1) → a ≠ some t := by
    intro a s1 hget hat
    obtain ⟨-, -, htake, -⟩ := hx.popped hget
    exact Bool.false_ne_true (hq.symm.trans (htake t hat))
  have hr : r ≠ some t := by
    cases hch with
    | nobody _ => exact nofun
    | kernel hget _ | first hget _ _ _ => exact hfirst hget
    | @second s1 s2 s3 _ x _ hget _ hsig hexit hget' =>
      have heff := handleSignal_effect hsig
      have hg3 := exitThreadRoutine_guarded (heff.guarded (hg.getTread hget).1).1 hexit
      have hx3 := hg3.exclusive ((getTread_within hget').wakesAway hw)
      have hsp : Spared t s s3 := ((Spared.getTread hx hget (hfirst hget)).trans
        (.signalEffect heff fun h => hfirst hget (h ▸ rfl))).trans (.exitThreadRoutine hexit)
      intro hrt
      obtain ⟨-, -, htake, -⟩ := hx3.popped hget'
      exact Bool.false_ne_true ((hsp.not_queued hreg hq).1.symm.trans (htake t hrt))
  refine ⟨hr, (hch.spared hg hw hr).resolve_right ?_⟩
  rintro ⟨s1, -, -, hget, -⟩
  exact hfirst hget rfl

end
end Kot.Kernel.Scheduler
