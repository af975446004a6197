import Kot.Kernel.Scheduler.Queue

/-! The run queue as a first-in first-out sequence. `Holds` is what the three operations
keep: the `last` link of the head is left unspecified there, because removing the tail
stores the new tail in it. Removing the head writes through that link. -/
namespace Kot.Kernel.Scheduler
open Kot.Lib List

variable {T : Type*}

/-- The queue holds exactly the threads of `l`, oldest first. -/
structure IsFifo (q : RunQueue T) (l : List T) : Prop where
  nodup : l.Nodup
  first : q.schedulerFirstNode = l.head?
  lastNode : q.schedulerLastNode = l.getLast?
  chain : l.IsChain fun a b => (q.thread a).next = some b
  inQueue : ∀ t, (q.thread t).isInQueue = true ↔ t ∈ l

/-- `IsFifo` with both links of every node, circular through `next`. -/
structure Holds (q : RunQueue T) (l : List T) : Prop where
  nodup : l.Nodup
  first : q.schedulerFirstNode = l.head?
  lastNode : q.schedulerLastNode = l.getLast?
  linked : ∃ p, Linked (fun t => (q.thread t).next) (fun t => (q.thread t).last) p l l.head?
  inQueue : ∀ t, (q.thread t).isInQueue = true ↔ t ∈ l

theorem Holds.isFifo {q : RunQueue T} {l : List T} (h : Holds q l) : IsFifo q l := by
  obtain ⟨p, hl⟩ := h.linked
  exact ⟨h.nodup, h.first, h.lastNode, hl.isChain, h.inQueue⟩

theorem emptyQueue_holds : Holds (emptyQueue : RunQueue T) [] where
  nodup := .nil
  first := rfl
  lastNode := rfl
  linked := ⟨none, trivial⟩
  inQueue := by simp [emptyQueue]

variable [DecidableEq T] {q q' : RunQueue T} {l : List T} {t : T}

private theorem enqueue_empty (h : Holds q []) : Holds (schedulerEnqueueWl q t) [t] := by
  have hf := h.first
  have hl := h.lastNode
  refine ⟨by simp, ?_, ?_, ⟨(q.thread t).last, ?_⟩, fun a => ?_⟩
  · simp [schedulerEnqueueWl, hf, hl]
  · simp [schedulerEnqueueWl, hf, hl]
  · simp [schedulerEnqueueWl, hf, hl]
  · have := h.inQueue a
    by_cases ha : a = t <;> simp [schedulerEnqueueWl, hf, hl, ha] at this ⊢
    exact this

private theorem enqueue_snoc {z : T} (h : Holds q (l ++ [z])) (ht : t ∉ l ++ [z]) :
    Holds (schedulerEnqueueWl q t) (l ++ [z] ++ [t]) := by
  have hf : q.schedulerFirstNode ≠ none := by simp [h.first]
  have hl : q.schedulerLastNode = some z := by simp [h.lastNode]
  have htz : z ≠ t := fun he => ht (by simp [he])
  obtain ⟨p, hp⟩ := h.linked
  refine ⟨?_, ?_, ?_, ⟨p, ?_⟩, fun a => ?_⟩
  · exact h.nodup.append (by simp) (by simpa using ht)
  · simp [schedulerEnqueueWl, hl, h.first]
  · simp [schedulerEnqueueWl, hl]
  · rw [linked_append]
    constructor
    · refine hp.relink h.nodup ?_ ?_ ?_ ?_
      · intro a ha haz
        have hat : a ≠ t := fun he => ht (he ▸ ha)
        have haz : a ≠ z := fun he => haz (by simp [he])
        simp [schedulerEnqueueWl, hf, hl, hat, haz]
      · intro b hb
        obtain rfl : z = b := by simpa using hb
        simp [schedulerEnqueueWl, hf, hl, htz]
      · intro a ha _
        have hat : a ≠ t := fun he => ht (he ▸ ha)
        simp [schedulerEnqueueWl, hf, hl, hat]
      · intro a ha
        have hat : a ≠ t := fun he => ht (he ▸ mem_of_mem_head? ha)
        obtain ⟨b, m, hbm⟩ := exists_cons_of_ne_nil (l := l ++ [z]) (by simp)
        rw [hbm] at ha hp
        obtain rfl : b = a := by simpa using ha
        simpa [schedulerEnqueueWl, hf, hl, hat] using hp.1
    · simp [schedulerEnqueueWl, hl, h.first]
  · have := h.inQueue a
    by_cases ha : a = t
    · simp [schedulerEnqueueWl, hf, hl, ha]
    · simpa [schedulerEnqueueWl, hf, hl, ha] using this

theorem enqueue_holds (h : Holds q l) (ht : t ∉ l) : Holds (schedulerEnqueueWl q t) (l ++ [t]) := by
  rcases eq_nil_or_concat l with rfl | ⟨m, z, rfl⟩
  · exact enqueue_empty h
  · rw [concat_eq_append] at h ht ⊢
    exact enqueue_snoc h ht

/-- `scheduler_dequeue_wl` takes `t` out, with these ends and links of the others afterwards. -/
def Dequeues (q : RunQueue T) (t first end' : T) (next last : T → Option T) : Prop :=
  ∃ q', schedulerDequeueWl q t = some q' ∧ q'.schedulerFirstNode = some first ∧
    q'.schedulerLastNode = some end' ∧ (∀ a, a ≠ t → (q'.thread a).next = next a) ∧
    (∀ a, a ≠ t → (q'.thread a).last = last a) ∧
    ∀ a, (q'.thread a).isInQueue = if a = t then false else (q.thread a).isInQueue

/-- Removing the head of a longer queue: the successor becomes the head and inherits the
`last` link, and the thread that link names is made to point at the new head. -/
private theorem dequeue_head_eq {b z : T} (hf : q.schedulerFirstNode = some t)
    (hn : (q.thread t).next = some b) (hz : q.schedulerLastNode = some z)
    (hbt : b ≠ t) (hzt : z ≠ t) :
    Dequeues q t b z (fun a => if (q.thread t).last = some a ∨ a = z then some b else (q.thread a).next)
      fun a => if a = b then (q.thread t).last else (q.thread a).last := by
  cases hp : (q.thread t).last with
  | none | some x =>
    simp [Dequeues, schedulerDequeueWl, hf, hn, hz, hbt.symm, hzt, hzt.symm, hp]
    grind

private theorem dequeue_single_eq (hf : q.schedulerFirstNode = some t)
    (hn : (q.thread t).next = some t) :
    ∃ q', schedulerDequeueWl q t = some q' ∧ q'.schedulerFirstNode = none ∧
      q'.schedulerLastNode = none ∧
      ∀ a, (q'.thread a).isInQueue = if a = t then false else (q.thread a).isInQueue := by
  cases hp : (q.thread t).last with
  | none | some x => simp [schedulerDequeueWl, hf, hn, hp]

private theorem dequeue_tail_eq {f y : T} (hf : q.schedulerFirstNode = some f)
    (hz : q.schedulerLastNode = some t) (hn : (q.thread t).next = some f)
    (hl : (q.thread t).last = some y) (hft : f ≠ t) (hyt : y ≠ t) :
    Dequeues q t f y (fun a => if a = y then some f else (q.thread a).next)
      fun a => if a = f then some y else (q.thread a).last := by
  simp [Dequeues, schedulerDequeueWl, hf, hn, hz, hl, hft, hyt.symm]
  grind

private theorem dequeue_mid_eq {f z y b : T} (hf : q.schedulerFirstNode = some f)
    (hz : q.schedulerLastNode = some z) (hn : (q.thread t).next = some b)
    (hl : (q.thread t).last = some y) (hft : f ≠ t) (hzt : z ≠ t) (hyt : y ≠ t) :
    Dequeues q t f z (fun a => if a = y then some b else if a = z then some f else (q.thread a).next)
      fun a => if a = b then some y else (q.thread a).last := by
  simp [Dequeues, schedulerDequeueWl, hf, hn, hz, hl, hft, hzt, hzt.symm, hyt.symm]
  grind

/-- The `last` link of the head names the head itself, the tail or no queued thread. -/
def HeadLinkHarmless (q : RunQueue T) : Prop :=
  ∀ t ∈ q.schedulerFirstNode, ∀ x ∈ (q.thread t).last,
    (q.thread x).isInQueue = true → x = t ∨ q.schedulerLastNode = some x

instance : Decidable (HeadLinkHarmless q) :=
  inferInstanceAs (Decidable (∀ t ∈ q.schedulerFirstNode, ∀ x ∈ (q.thread t).last,
    (q.thread x).isInQueue = true → x = t ∨ q.schedulerLastNode = some x))

private theorem dequeue_single_holds (h : Holds q [t]) :
    ∃ q', schedulerDequeueWl q t = some q' ∧ Holds q' [] := by
  obtain ⟨p, -, hn, -⟩ := h.linked
  obtain ⟨q', hq', hf, hl, hi⟩ := dequeue_single_eq h.first hn
  refine ⟨q', hq', .nil, hf, hl, ⟨none, trivial⟩, fun a => ?_⟩
  have := h.inQueue a
  rw [hi]
  split <;> simp_all

private theorem dequeue_head_holds {b : T} (h : Holds q (t :: b :: l)) (hs : HeadLinkHarmless q) :
    ∃ q', schedulerDequeueWl q t = some q' ∧ Holds q' (b :: l) := by
  obtain ⟨p, hp, hn, hlk⟩ := h.linked
  obtain ⟨ht, hd⟩ := nodup_cons.mp h.nodup
  obtain ⟨z, hz⟩ : ∃ z, (b :: l).getLast? = some z := ⟨_, getLast?_eq_getLast_of_ne_nil (by simp)⟩
  have hzl := mem_of_getLast? hz
  have hlast : q.schedulerLastNode = some z := by rw [h.lastNode, getLast?_cons_cons, hz]
  have hne : ∀ a ∈ b :: l, a ≠ t := fun a ha he => ht (he ▸ ha)
  obtain ⟨q', hq', hf', hl', hnx, hls, hi⟩ := dequeue_head_eq h.first hn hlast
    (hne b (by simp)) (hne z hzl)
  refine ⟨q', hq', hd, hf', hl'.trans hz.symm, ⟨(q.thread t).last, ?_⟩, fun a => ?_⟩
  · refine hlk.relink hd ?_ ?_ ?_ ?_
    · intro a ha haz
      have hz' : a ≠ z := fun he => haz (he ▸ hz)
      have hx : (q.thread t).last ≠ some a := by
        intro hx
        rcases hs t h.first a hx ((h.inQueue a).mpr (by simp [ha])) with he | he
        · exact hne a ha he
        · exact hz' (Option.some.inj (he.symm.trans hlast))
      simp [hnx a (hne a ha), hz', hx]
    · intro a ha
      obtain rfl : z = a := Option.some.inj (hz.symm.trans ha)
      simp [hnx z (hne z hzl)]
    · intro a ha hab
      have hab : a ≠ b := fun he => hab (by simp [he])
      simp [hls a (hne a ha), hab]
    · intro a ha
      obtain rfl : b = a := by simpa using ha
      simp [hls b (hne b (by simp))]
  · have := h.inQueue a
    rw [hi]
    split <;> simp_all

private theorem dequeue_tail_holds (h : Holds q (l ++ [t])) (hne : l ≠ []) :
    ∃ q', schedulerDequeueWl q t = some q' ∧ Holds q' l := by
  obtain ⟨f, m, rfl⟩ := exists_cons_of_ne_nil hne
  obtain ⟨p, hp⟩ := h.linked
  obtain ⟨hd, -, hdt⟩ := nodup_append.mp h.nodup
  have htl : ∀ a ∈ f :: m, a ≠ t := fun a ha => hdt a ha t (by simp)
  obtain ⟨y, hy⟩ : ∃ y, (f :: m).getLast? = some y := ⟨_, getLast?_eq_getLast_of_ne_nil (by simp)⟩
  have hyl := mem_of_getLast? hy
  obtain ⟨hlt, hnt⟩ := hp.mid
  rw [hy] at hlt
  obtain ⟨q', hq', hf', hl', hnx, hls, hi⟩ := dequeue_tail_eq h.first
    (by rw [h.lastNode, getLast?_concat]) (by simpa using hnt) hlt (htl f (by simp)) (htl y hyl)
  refine ⟨q', hq', hd, hf', hl'.trans hy.symm, ⟨some y, ?_⟩, fun a => ?_⟩
  · refine (linked_append.mp hp).1.relink hd ?_ ?_ ?_ ?_
    · intro a ha hay
      have hay : a ≠ y := fun he => hay (he ▸ hy)
      simp [hnx a (htl a ha), hay]
    · intro a ha
      obtain rfl : y = a := Option.some.inj (hy.symm.trans ha)
      simp [hnx y (htl y hyl)]
    · intro a ha haf
      have haf : a ≠ f := fun he => haf (by simp [he])
      simp [hls a (htl a ha), haf]
    · intro a ha
      obtain rfl : f = a := by simpa using ha
      simp [hls f (htl f (by simp))]
  · have := h.inQueue a
    have := htl a
    rw [hi]
    split <;> simp_all

private theorem dequeue_mid_holds {m : List T} (h : Holds q (l ++ t :: m)) (hl : l ≠ [])
    (hm : m ≠ []) : ∃ q', schedulerDequeueWl q t = some q' ∧ Holds q' (l ++ m) := by
  obtain ⟨f, l, rfl⟩ := exists_cons_of_ne_nil hl
  obtain ⟨b, m, rfl⟩ := exists_cons_of_ne_nil hm
  obtain ⟨p, hp⟩ := h.linked
  obtain ⟨hd, hdm, hdlm⟩ := nodup_append.mp h.nodup
  obtain ⟨htm, hdm⟩ := nodup_cons.mp hdm
  have htl : ∀ a ∈ f :: l, a ≠ t := fun a ha => hdlm a ha t (by simp)
  have htm : ∀ a ∈ b :: m, a ≠ t := fun a ha he => htm (he ▸ ha)
  have hlm : ∀ a ∈ f :: l, ∀ c ∈ b :: m, a ≠ c := fun a ha c hc => hdlm a ha c (by simp at hc ⊢; tauto)
  obtain ⟨y, hy⟩ : ∃ y, (f :: l).getLast? = some y := ⟨_, getLast?_eq_getLast_of_ne_nil (by simp)⟩
  obtain ⟨z, hz⟩ : ∃ z, (b :: m).getLast? = some z := ⟨_, getLast?_eq_getLast_of_ne_nil (by simp)⟩
  have hyl := mem_of_getLast? hy
  have hzm := mem_of_getLast? hz
  obtain ⟨hlt, hnt⟩ := hp.mid
  rw [hy] at hlt
  have hlast : q.schedulerLastNode = some z := by
    rw [h.lastNode, getLast?_append, getLast?_cons_cons, hz, Option.some_or]
  obtain ⟨q', hq', hf', hl', hnx, hls, hi⟩ := dequeue_mid_eq h.first hlast
    hnt hlt (htl f (by simp)) (htm z hzm) (htl y hyl)
  obtain ⟨hlk, -, -, hmk⟩ := linked_append.mp hp
  refine ⟨q', hq', hd.append hdm fun a ha hc => hlm a ha a hc rfl, hf', ?_, ⟨p, ?_⟩, fun a => ?_⟩
  · rw [hl', getLast?_append, hz, Option.some_or]
  · refine linked_append.mpr ⟨?_, ?_⟩
    · refine hlk.relink hd ?_ ?_ ?_ ?_
      · intro a ha hay
        have hay : a ≠ y := fun he => hay (he ▸ hy)
        simp [hnx a (htl a ha), hay, hlm a ha z hzm]
      · intro a ha
        obtain rfl : y = a := Option.some.inj (hy.symm.trans ha)
        simp [hnx y (htl y hyl)]
      · intro a ha _
        simp [hls a (htl a ha), hlm a ha b (by simp)]
      · intro a ha
        obtain rfl : f = a := by simpa using ha
        simpa [hls f (htl f (by simp)), hlm f (by simp) b (by simp)] using hlk.1
    · refine hmk.relink hdm ?_ ?_ ?_ ?_
      · intro a ha haz
        have haz : a ≠ z := fun he => haz (he ▸ hz)
        simp [hnx a (htm a ha), haz, (hlm y hyl a ha).symm]
      · intro a ha
        obtain rfl : z = a := Option.some.inj (hz.symm.trans ha)
        simp [hnx z (htm z hzm), (hlm y hyl z hzm).symm]
      · intro a ha hab
        have hab : a ≠ b := fun he => hab (by simp [he])
        simp [hls a (htm a ha), hab]
      · intro a ha
        obtain rfl : b = a := by simpa using ha
        simp [hls b (htm b (by simp)), hy]
  · have := h.inQueue a
    have := htl a
    rw [hi]
    split <;> simp_all

theorem dequeue_holds (h : Holds q l) (ht : t ∈ l)
    (hs : q.schedulerFirstNode = some t → HeadLinkHarmless q) :
    ∃ q', schedulerDequeueWl q t = some q' ∧ Holds q' (l.erase t) := by
  obtain ⟨a, b, rfl⟩ := append_of_mem ht
  have hta : t ∉ a := fun hta => (nodup_append.mp h.nodup).2.2 t hta t (by simp) rfl
  rw [erase_append_right _ hta, erase_cons_head]
  rcases a with _ | ⟨f, a⟩
  · rcases b with _ | ⟨b, m⟩
    · exact dequeue_single_holds h
    · exact dequeue_head_holds h (hs h.first)
  · rcases b with _ | ⟨b, m⟩
    · simpa using dequeue_tail_holds h (by simp)
    · exact dequeue_mid_holds h (by simp) (by simp)

theorem dequeue_not_isFifo (h : Holds q l) (ht : q.schedulerFirstNode = some t)
    (hs : ¬ HeadLinkHarmless q) (hq' : schedulerDequeueWl q t = some q') :
    ¬ IsFifo q' (l.erase t) := by
  simp only [HeadLinkHarmless, not_forall, not_or] at hs
  obtain ⟨t', ht', x, hx, hxq, hxt, hxz⟩ := hs
  obtain rfl : t = t' := Option.some.inj (ht.symm.trans ht')
  obtain ⟨m, rfl⟩ := head?_eq_some_iff.mp (h.first.symm.trans ht)
  have hxm : x ∈ m := by simpa [hxt] using (h.inQueue x).mp hxq
  obtain ⟨b, m, rfl⟩ := exists_cons_of_ne_nil (ne_nil_of_mem hxm)
  obtain ⟨p, hp, hn, hlk⟩ := h.linked
  obtain ⟨htm, hd⟩ := nodup_cons.mp h.nodup
  have hne : ∀ a ∈ b :: m, a ≠ t := fun a ha he => htm (he ▸ ha)
  obtain ⟨z, hz⟩ : ∃ z, (b :: m).getLast? = some z := ⟨_, getLast?_eq_getLast_of_ne_nil (by simp)⟩
  have hlast : q.schedulerLastNode = some z := by rw [h.lastNode, getLast?_cons_cons, hz]
  obtain ⟨q1, hq1, -, -, hnx, -, -⟩ := dequeue_head_eq h.first hn hlast
    (hne b (by simp)) (hne z (mem_of_getLast? hz))
  obtain rfl : q' = q1 := Option.some.inj (hq'.symm.trans hq1)
  have hxb : (q'.thread x).next = some b := by simp [hnx x hxt, Option.mem_def.mp hx]
  intro hfifo
  rw [erase_cons_head] at hfifo
  obtain ⟨u, v, huv⟩ := append_of_mem hxm
  rcases v with _ | ⟨c, v⟩
  · rw [huv, getLast?_concat] at hz
    exact hxz (hlast.trans hz.symm)
  · have hc := hfifo.chain
    rw [huv, isChain_append_cons_cons, hxb] at hc
    obtain rfl : b = c := Option.some.inj hc.2.1
    rw [huv] at hd
    rcases u with _ | ⟨w, u⟩
    · obtain ⟨rfl, -⟩ := List.cons.inj huv
      simp at hd
    · obtain ⟨rfl, -⟩ := List.cons.inj huv
      simp at hd

inductive QueueOp (T : Type*)
  | enqueue (t : T)
  | dequeue (t : T)
  | get

/-- One call and the pointer it returns, if any. -/
def execute (q : RunQueue T) : QueueOp T → Option (Option T × RunQueue T)
  | .enqueue t => some (none, schedulerEnqueueWl q t)
  | .dequeue t => (schedulerDequeueWl q t).map fun q => (none, q)
  | .get => schedulerGetTreadWl q

/-- The same call on the abstract sequence of queued threads. -/
def fifoStep (l : List T) : QueueOp T → Option T × List T
  | .enqueue t => (none, l ++ [t])
  | .dequeue t => (none, l.erase t)
  | .get => (l.head?, l.tail)

/-- Threads are enqueued only while not queued and dequeued only while queued. -/
def Applicable (l : List T) : QueueOp T → Prop
  | .enqueue t => t ∉ l
  | .dequeue t => t ∈ l
  | .get => True

/-- The step does not remove a head whose `last` link is harmful. -/
def KeepsOrder (q : RunQueue T) : QueueOp T → Prop
  | .enqueue _ => True
  | .dequeue t => q.schedulerFirstNode = some t → HeadLinkHarmless q
  | .get => HeadLinkHarmless q

instance (l : List T) : ∀ op, Decidable (Applicable l op)
  | .enqueue t => inferInstanceAs (Decidable (t ∉ l))
  | .dequeue t => inferInstanceAs (Decidable (t ∈ l))
  | .get => inferInstanceAs (Decidable True)

instance (q : RunQueue T) : ∀ op, Decidable (KeepsOrder q op)
  | .enqueue _ => inferInstanceAs (Decidable True)
  | .dequeue t => inferInstanceAs (Decidable (q.schedulerFirstNode = some t → HeadLinkHarmless q))
  | .get => inferInstanceAs (Decidable (HeadLinkHarmless q))

/-- An applicable call, made on the queue and on the abstract sequence. -/
def queueStep (s : RunQueue T × List T) (op : QueueOp T) : Option (RunQueue T × List T) :=
  if Applicable s.2 op then
    (execute s.1 op).map fun r => (r.2, (fifoStep s.2 op).2)
  else none

/-- An applicable call that keeps the order. -/
def orderedStep (s : RunQueue T × List T) (op : QueueOp T) : Option (RunQueue T × List T) :=
  if KeepsOrder s.1 op then queueStep s op else none

/-- The call returns what the sequence says and leaves the sequence it says. -/
def Follows (q : RunQueue T) (l : List T) (op : QueueOp T) : Prop :=
  ∃ q', execute q op = some ((fifoStep l op).1, q') ∧ IsFifo q' (fifoStep l op).2

theorem execute_holds {op : QueueOp T} (h : Holds q l) (ha : Applicable l op)
    (hk : KeepsOrder q op) :
    ∃ q', execute q op = some ((fifoStep l op).1, q') ∧ Holds q' (fifoStep l op).2 := by
  cases op with
  | enqueue t => exact ⟨_, rfl, enqueue_holds h ha⟩
  | dequeue t =>
    obtain ⟨q', hq', hh⟩ := dequeue_holds h ha hk
    exact ⟨q', by simp [execute, fifoStep, hq'], hh⟩
  | get =>
    rcases l with _ | ⟨t, l⟩
    · have hf := h.first
      exact ⟨q, by simp [execute, schedulerGetTreadWl, fifoStep, hf], h⟩
    · have hf := h.first
      obtain ⟨q', hq', hh⟩ := dequeue_holds h (by simp : t ∈ t :: l) fun _ => hk
      rw [erase_cons_head] at hh
      exact ⟨q', by simp [execute, schedulerGetTreadWl, fifoStep, hf, hq'], hh⟩

theorem keepsOrder_of_follows {op : QueueOp T} (h : Holds q l) (hf : Follows q l op) :
    KeepsOrder q op := by
  obtain ⟨q', hq', hfifo⟩ := hf
  cases op with
  | enqueue t => trivial
  | dequeue t =>
    intro ht
    by_contra hs
    obtain ⟨q1, hq1, he⟩ := Option.map_eq_some_iff.mp hq'
    obtain ⟨-, rfl⟩ := Prod.mk.inj he
    exact dequeue_not_isFifo h ht hs hq1 hfifo
  | get =>
    by_contra hs
    obtain ⟨t, ht⟩ : ∃ t, q.schedulerFirstNode = some t := by
      simp only [KeepsOrder, HeadLinkHarmless, not_forall] at hs
      obtain ⟨t, ht, -⟩ := hs
      exact ⟨t, ht⟩
    obtain ⟨m, rfl⟩ := head?_eq_some_iff.mp (h.first.symm.trans ht)
    simp only [execute, schedulerGetTreadWl, ht] at hq'
    obtain ⟨q1, hq1, he⟩ := Option.map_eq_some_iff.mp hq'
    obtain ⟨-, rfl⟩ := Prod.mk.inj he
    refine dequeue_not_isFifo h ht hs hq1 ?_
    rwa [erase_cons_head]

theorem run_holds {ops : List (QueueOp T)} {s : RunQueue T × List T}
    (h : Run (fun s op s' => orderedStep s op = some s') (emptyQueue, []) ops s) :
    Holds s.1 s.2 := by
  refine h.invariant (P := fun s => Holds s.1 s.2) emptyQueue_holds ?_
  intro s op s' hh hs
  simp only [orderedStep, queueStep, Option.ite_none_right_eq_some, Option.map_eq_some_iff] at hs
  obtain ⟨hk, ha, r, hr, rfl⟩ := hs
  obtain ⟨q1, hq1, hh⟩ := execute_holds hh ha hk
  obtain rfl := Option.some.inj (hr.symm.trans hq1)
  exact hh

/-- As long as no harmful head link is removed the queue is a FIFO sequence, and the
first step that removes one loses a thread. -/
theorem runQueue_fifo {ops : List (QueueOp T)} {q : RunQueue T} {l : List T}
    (h : Run (fun s op s' => orderedStep s op = some s') (emptyQueue, []) ops (q, l)) :
    IsFifo q l ∧ ∀ op, Applicable l op → (Follows q l op ↔ KeepsOrder q op) := by
  have hh := run_holds h
  refine ⟨hh.isFifo, fun op ha => ⟨keepsOrder_of_follows hh, fun hk => ?_⟩⟩
  obtain ⟨q', hq', hh'⟩ := execute_holds hh ha hk
  exact ⟨q', hq', hh'.isFifo⟩

/-- Three threads queued, the middle one removed and the oldest one taken. -/
theorem runQueue_fifo_three : ∃ q : RunQueue ℕ,
    IsFifo q [2] ∧ ∀ op, Applicable [2] op → (Follows q [2] op ↔ KeepsOrder q op) :=
  ⟨_, runQueue_fifo (show Run _ _ [.enqueue 0, .enqueue 1, .enqueue 2, .dequeue 1, .get] _ from
    .of_foldlM (fun _ _ _ h => h) rfl)⟩

/-- Removing the tail, queueing another thread and taking the head loses that thread:
thread `1` becomes its own successor and thread `3` is out of reach. -/
theorem runQueue_loses_thread : ∃ q : RunQueue ℕ,
    Run (fun s op s' => queueStep s op = some s') (emptyQueue, [])
      [.enqueue 0, .enqueue 1, .enqueue 2, .dequeue 2, .enqueue 3, .get] (q, [1, 3]) ∧
      ¬ IsFifo q [1, 3] := by
  refine ⟨_, .of_foldlM (fun _ _ _ h => h) rfl, fun h => ?_⟩
  have := h.chain
  revert this
  decide

end Kot.Kernel.Scheduler
