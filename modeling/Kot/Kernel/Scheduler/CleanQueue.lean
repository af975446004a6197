import Kot.Kernel.Scheduler.QueueOrder

/-! Runs that only queue threads at the tail and take them from the head never leave a stale
link: the head and all threads outside the queue have a null `last` link. -/
namespace Kot.Kernel.Scheduler
open Kot.Lib

variable {T : Type*} [DecidableEq T] {q q' : RunQueue T} {l : List T} {t a : T}

structure Clean (q : RunQueue T) (l : List T) : Prop where
  holds : Holds q l
  headLink : ∀ t ∈ l.head?, (q.thread t).last = none
  outside : ∀ t ∉ l, (q.thread t).last = none

theorem enqueue_last : ((schedulerEnqueueWl q t).thread a).last =
      if a = t ∧ q.schedulerLastNode ≠ none then q.schedulerLastNode else (q.thread a).last := by
  cases hl : q.schedulerLastNode with
  | none | some z =>
    unfold schedulerEnqueueWl
    split_ifs <;> simp_all

theorem Clean.enqueue (h : Clean q l) (ht : t ∉ l) : Clean (schedulerEnqueueWl q t) (l ++ [t]) where
  holds := enqueue_holds h.holds ht
  headLink := by
    intro a ha
    rw [enqueue_last, h.holds.lastNode]
    cases l with
    | nil =>
      obtain rfl : t = a := by simpa using ha
      simpa using h.outside t ht
    | cons b m =>
      obtain rfl : b = a := by simpa using ha
      have hbt : b ≠ t := fun he => ht (by simp [he])
      simpa [hbt] using h.headLink b (by simp)
  outside := by
    intro a ha
    simp only [List.mem_append, List.mem_singleton, not_or] at ha
    simpa [enqueue_last, ha.2] using h.outside a ha.1

theorem dequeue_head_last {m : List T} (h : Clean q (t :: m))
    (hq : schedulerDequeueWl q t = some q') :
    (q'.thread a).last = if a = t ∨ m.head? = some a then none else (q.thread a).last := by
  have hf := h.holds.first
  have hlast := h.headLink t rfl
  obtain ⟨p, -, hn, -⟩ := h.holds.linked
  cases m with
  | nil =>
    simp [schedulerDequeueWl, hf, hlast, hn] at hq
    subst hq
    by_cases ha : a = t <;> simp [ha]
  | cons b m =>
    obtain ⟨htm, -⟩ := List.nodup_cons.mp h.holds.nodup
    have hbt : b ≠ t := fun he => htm (by simp [he])
    obtain ⟨z, hz⟩ : ∃ z, (b :: m).getLast? = some z :=
      ⟨_, List.getLast?_eq_getLast_of_ne_nil (by simp)⟩
    have hzt : z ≠ t := fun he => htm (he ▸ List.mem_of_getLast? hz)
    have hzl : q.schedulerLastNode = some z := by
      rw [h.holds.lastNode, List.getLast?_cons_cons, hz]
    simp [schedulerDequeueWl, hf, hlast, hn, hzl, hbt.symm, hzt, hzt.symm] at hq
    subst hq
    by_cases ha : a = t
    · simp [ha]
    · by_cases hb : b = a
      · subst hb
        simp [hbt]
      · simp [ha, hb, Ne.symm hb]

theorem Clean.get (h : Clean q l) :
    ∃ q', schedulerGetTreadWl q = some (l.head?, q') ∧ Clean q' l.tail := by
  cases l with
  | nil =>
    have hf := h.holds.first
    exact ⟨q, by simp [schedulerGetTreadWl, hf], h⟩
  | cons t m =>
    have hf := h.holds.first
    have hlast := h.headLink t rfl
    have hharm : HeadLinkHarmless q := by
      intro t' ht' x hx
      obtain rfl : t = t' := Option.some.inj (hf.symm.trans ht')
      simp [hlast] at hx
    obtain ⟨q', hq', hh⟩ := dequeue_holds h.holds (by simp : t ∈ t :: m) fun _ => hharm
    rw [List.erase_cons_head] at hh
    refine ⟨q', by simp [schedulerGetTreadWl, hf, hq'], hh, fun a ha => ?_, fun a ha => ?_⟩
    · rw [dequeue_head_last h hq', if_pos (.inr ha)]
    · rw [dequeue_head_last h hq']
      split_ifs with hx
      · rfl
      · exact h.outside a (by simpa [not_or.mp hx |>.1] using ha)

omit [DecidableEq T] in
theorem Clean.mem_iff (h : Clean q l) : (q.thread t).isInQueue = true ↔ t ∈ l := h.holds.inQueue t

end Kot.Kernel.Scheduler
