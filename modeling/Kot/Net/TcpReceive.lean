import Kot.Lib.Run
import Kot.Net.Tcp

/-! The receiving side of a TCP connection: data segments of a byte stream, in any order, and the
buffers that the packet handler queues for the reader. Positions of the stream are natural numbers;
the sequence number of a position is the initial one plus the position. -/
namespace Kot.Net.TcpReceive

open Kot.Kernel Kot.Lib List Listener

/-- Whether the data of a segment is copied into the current buffer. -/
def stores (stale : ℕ → UInt8) (l : Listener) (g : Segment) : Bool :=
  let r := l.openBuffer stale g
  !g.data.isEmpty && decide (r.1.startOffset.toNat ≤ g.thSeq.toNat) &&
    match r.1.growBuffer stale g (g.thSeq.toNat - r.1.startOffset.toNat + g.data.length) r.2 with
    | .ok r => !r.2
    | .error _ => false

/-- The connection, and the parts of the stream that have been copied into its buffers. -/
structure State where
  listener : Listener
  kept : List Interval

/-- A segment, the position of its data in the stream, and what fresh blocks hold. -/
structure Event where
  position : ℕ
  segment : Segment
  stale : ℕ → UInt8

def Event.size (e : Event) : ℕ := e.segment.data.length

def Event.range (e : Event) : Interval := ⟨e.position, e.size⟩

structure Slice (stream : List UInt8) (isn : UInt32) (e : Event) : Prop where
  bytes : e.segment.data = (stream.drop e.position).take e.size
  size_lt : e.size < 2 ^ 16
  seq : e.segment.thSeq = isn + UInt32.ofNat e.position
  syn : e.segment.syn = false
  fin : e.segment.fin = false

def Step (stream : List UInt8) (isn : UInt32) (s : State) (e : Event) (t : State) : Prop :=
  Slice stream isn e ∧ ∃ p, s.listener.process e.stale e.segment = .ok (t.listener, p) ∧
    t.kept = if stores e.stale (s.listener.processFlags e.segment) e.segment then e.range :: s.kept
      else s.kept

/-- A connection on which no data has arrived. -/
structure Fresh (isn : UInt32) (l : Listener) : Prop where
  sequenceReceive : l.sequenceReceive = isn
  queue : l.queue = []
  bufferReadSize : l.bufferReadSize = 0
  bufferReadSizeAllocated : l.bufferReadSizeAllocated = 0
  startOffset : l.startOffset = 0

/-- The queued bytes are the start of the stream, and all bytes before the acknowledged sequence
number have been received. -/
structure Integral (stream : List UInt8) (isn : UInt32) (s : State) : Prop where
  inOrder : s.listener.queue.flatten <+: stream
  acknowledged : ∃ k, s.listener.sequenceReceive = isn + UInt32.ofNat k ∧
    ∀ i < k, ∃ r ∈ s.kept, i ∈ r

/-- How much of the stream has been queued. -/
def delivered (l : Listener) : ℕ := l.queue.flatten.length

/-- Nothing is missing in the current buffer. -/
def Closed (l : Listener) : Prop := l.bufferReadSizeAllocated = l.bufferReadSize

/-- The next segment in order while nothing is missing; or a segment near by whose sequence numbers
do not wrap around, without bytes that have been received but not queued, and, where it leaves a gap
while nothing else is missing, not shorter than what is left in `smallest_continuous_size`. -/
def Orderly (s : State) (e : Event) : Prop :=
  Closed s.listener ∧ e.position = delivered s.listener ∨
    e.segment.thSeq.toNat + e.size < 2 ^ 32 ∧
    e.position + e.size < delivered s.listener + 2 ^ 31 ∧
    (Closed s.listener →
      e.segment.thSeq.toNat + delivered s.listener = s.listener.sequenceReceive.toNat + e.position ∧
      (delivered s.listener < e.position → s.listener.smallestContinuousSize ≤ e.size)) ∧
    (¬ Closed s.listener →
      e.segment.thSeq.toNat + delivered s.listener = s.listener.startOffset.toNat + e.position ∧
      (delivered s.listener ≤ e.position → ∀ r ∈ s.kept, e.range.Disjoint r))

instance (stream : List UInt8) (isn : UInt32) (e : Event) : Decidable (Slice stream isn e) :=
  decidable_of_iff (e.segment.data = (stream.drop e.position).take e.size ∧ e.size < 2 ^ 16 ∧
    e.segment.thSeq = isn + UInt32.ofNat e.position ∧ e.segment.syn = false ∧ e.segment.fin = false)
    ⟨fun h => ⟨h.1, h.2.1, h.2.2.1, h.2.2.2.1, h.2.2.2.2⟩, fun h => ⟨h.1, h.2, h.3, h.4, h.5⟩⟩

instance (l : Listener) : Decidable (Closed l) :=
  inferInstanceAs (Decidable (l.bufferReadSizeAllocated = l.bufferReadSize))

instance (s : State) (e : Event) : Decidable (Orderly s e) := instDecidableOr

def State.step (stream : List UInt8) (isn : UInt32) (s : State) (e : Event) : Option State :=
  if Slice stream isn e then
    match s.listener.process e.stale e.segment with
    | .ok r => some ⟨r.1, if stores e.stale (s.listener.processFlags e.segment) e.segment then
        e.range :: s.kept else s.kept⟩
    | .error _ => none
  else none

/-- The current buffer holds what has been received of the stream from position `p` on. -/
structure Buffer (stream : List UInt8) (isn : UInt32) (kept : List Interval) (p : ℕ) (l : Listener) :
    Prop where
  alloc_le : l.bufferReadSizeAllocated ≤ 65535
  length : l.bufferRead.length = l.bufferReadSizeAllocated
  isQueued : l.isQueued = false
  start : l.startOffset = isn + UInt32.ofNat p
  nowrap : l.startOffset.toNat + l.bufferReadSizeAllocated < 2 ^ 32
  inside : ∀ i ∈ cover kept, p ≤ i → i < p + l.bufferReadSizeAllocated
  bytes : ∀ i ∈ cover kept, p ≤ i → l.bufferRead[i - p]? = stream[i]?
  count : l.bufferReadSize = coverCount kept p (p + l.bufferReadSizeAllocated)

/-- From `smallest_write_offset` on, `smallest_continuous_size` bytes have been received. -/
def SmallestRun (kept : List Interval) (p : ℕ) (l : Listener) : Prop :=
  l.startOffset.toNat ≤ l.smallestWriteOffset.toNat →
    ∃ o, l.smallestWriteOffset.toNat = l.startOffset.toNat + o ∧
      o + l.smallestContinuousSize ≤ l.bufferReadSizeAllocated ∧
      ∀ j < l.smallestContinuousSize, p + o + j ∈ cover kept

/-- Something is missing in the current buffer. -/
structure Gap (stream : List UInt8) (isn : UInt32) (kept : List Interval) (l : Listener) : Prop where
  buffer : Buffer stream isn kept (delivered l) l
  notClosed : ¬ Closed l
  smallest : l.smallestWriteOffset ≠ l.startOffset
  run : SmallestRun kept (delivered l) l

/-- Nothing is missing; the numbers of the last buffer are still there. -/
structure Done (isn : UInt32) (kept : List Interval) (l : Listener) : Prop where
  closed : Closed l
  alloc_le : l.bufferReadSizeAllocated ≤ 65535
  receive : l.sequenceReceive = isn + UInt32.ofNat (delivered l)
  old : ∀ i ∈ cover kept, i < delivered l
  last : delivered l = 0 ∧ l.startOffset = 0 ∧ l.bufferReadSizeAllocated = 0 ∨
    l.sequenceReceive.toNat = l.startOffset.toNat + l.bufferReadSizeAllocated ∨
    l.sequenceReceive.toNat + 2 ^ 32 = l.startOffset.toNat + l.bufferReadSizeAllocated

/-- What is known of the stream at any time. -/
structure Sound (stream : List UInt8) (isn : UInt32) (kept : List Interval) (l : Listener) :
    Prop where
  inOrder : l.queue.flatten <+: stream
  covered : ∀ i < delivered l, i ∈ cover kept
  acknowledged : ∃ k ≤ delivered l, l.sequenceReceive = isn + UInt32.ofNat k

structure Received (stream : List UInt8) (isn : UInt32) (kept : List Interval) (l : Listener) :
    Prop extends Sound stream isn kept l where
  buffer : Done isn kept l ∨ Gap stream isn kept l

variable {stream : List UInt8} {isn : UInt32} {kept : List Interval} {l l' : Listener} {g : Segment}
  {stale : ℕ → UInt8} {p n : ℕ}

theorem seq_toNat (isn : UInt32) (k : ℕ) :
    (isn + UInt32.ofNat k).toNat = (isn.toNat + k) % 2 ^ 32 := by
  rw [UInt32.toNat_add, UInt32.toNat_ofNat']
  omega

theorem queue_append {q b : List UInt8} (h : q <+: stream)
    (hb : ∀ i < b.length, b[i]? = stream[q.length + i]?) : q ++ b <+: stream := by
  obtain ⟨rest, rfl⟩ := h
  refine (prefix_append_right_inj q).mpr ?_
  rw [prefix_iff_eq_take]
  apply ext_getElem?
  intro i
  rw [getElem?_take]
  split_ifs with hi
  · rw [hb i hi, getElem?_append_right (by omega)]
    congr 1
    omega
  · exact getElem?_eq_none (by omega)

variable {i o pos : ℕ} {l1 l2 : Listener} {ig : Bool}

theorem getElem?_slice (hdata : g.data = (stream.drop p).take n) (hi : i < n) :
    g.data[i]? = stream[p + i]? := by
  rw [hdata, getElem?_take_of_lt hi, getElem?_drop]

theorem mem_cover_cons {r : Interval} : i ∈ cover (r :: kept) ↔ i ∈ r ∨ i ∈ cover kept := by
  rw [cover, Finset.mem_union, Finset.mem_Ico]
  rfl

theorem mem_interval {a i : ℕ} : i ∈ (⟨a, n⟩ : Interval) ↔ a ≤ i ∧ i < a + n := Iff.rfl

/-- A segment at offset `o` of the current buffer. -/
structure Fits (stream : List UInt8) (kept : List Interval) (p : ℕ) (l : Listener) (g : Segment)
    (o : ℕ) : Prop where
  pos : 0 < g.data.length
  bytes : g.data = (stream.drop (p + o)).take g.data.length
  seq : g.thSeq.toNat = l.startOffset.toNat + o
  fits : o + g.data.length ≤ l.bufferReadSizeAllocated
  new : ∀ i ∈ (⟨p + o, g.data.length⟩ : Interval), i ∉ cover kept

/-- The run at `smallest_write_offset` after the segment; at the start of the buffer it is a new one
that the segment begins. -/
theorem updateSmallest_run (hf : Fits stream kept p l g o) (hle : l.bufferReadSizeAllocated ≤ 65535)
    (hrun : SmallestRun (⟨p + o, g.data.length⟩ :: kept) p l)
    (hne : l.smallestWriteOffset ≠ l.startOffset) :
    SmallestRun (⟨p + o, g.data.length⟩ :: kept) p (l.updateSmallest g) ∧
      ((l.updateSmallest g).smallestWriteOffset = l.startOffset →
        o = 0 ∧ g.data.length ≤ (l.updateSmallest g).smallestContinuousSize) := by
  have hseq := hf.seq
  have hfits := hf.fits
  unfold updateSmallest
  by_cases hgt : l.smallestWriteOffset.toNat > g.thSeq.toNat
  · rw [if_pos hgt]
    have hzero : g.thSeq = l.startOffset → o = 0 := by
      intro h
      rw [h] at hseq
      omega
    have hnew : ∀ j < g.data.length, p + o + j ∈ cover (⟨p + o, g.data.length⟩ :: kept) := by
      intro j hj
      rw [mem_cover_cons, mem_interval]
      exact .inl ⟨by omega, by omega⟩
    by_cases hadj : l.smallestWriteOffset.toNat = g.thSeq.toNat + g.data.length
    · rw [if_pos hadj]
      obtain ⟨o', ho', hfit', hall⟩ := hrun (by omega)
      have hadd : wadd l.smallestContinuousSize g.data.length =
          l.smallestContinuousSize + g.data.length := wadd_of_lt (by omega)
      rw [hadd]
      refine ⟨fun _ => ⟨o, hseq, ?_, fun j hj => ?_⟩, fun h => ⟨hzero h, Nat.le_add_left ..⟩⟩
      · change o + (l.smallestContinuousSize + g.data.length) ≤ l.bufferReadSizeAllocated
        omega
      · change j < l.smallestContinuousSize + g.data.length at hj
        rcases Nat.lt_or_ge j g.data.length with hlt | hge
        · exact hnew j hlt
        · have := hall (j - g.data.length) (by omega)
          rwa [show p + o' + (j - g.data.length) = p + o + j by omega] at this
    · rw [if_neg hadj]
      exact ⟨fun _ => ⟨o, hseq, hfits, hnew⟩, fun h => ⟨hzero h, Nat.le_refl _⟩⟩
  · rw [if_neg hgt]
    exact ⟨hrun, fun h => absurd h hne⟩

theorem Buffer.store (hb : Buffer stream isn kept p l) (hf : Fits stream kept p l g o)
    (hbuffer : l1.bufferRead = splice l.bufferRead o g.data)
    (hsize : l1.bufferReadSize = l.bufferReadSize + g.data.length)
    (halloc : l1.bufferReadSizeAllocated = l.bufferReadSizeAllocated)
    (hqueued : l1.isQueued = l.isQueued) (hstart : l1.startOffset = l.startOffset) :
    Buffer stream isn (⟨p + o, g.data.length⟩ :: kept) p l1 := by
  have hfits := hf.fits
  have hlen := hb.length
  refine ⟨halloc ▸ hb.alloc_le, ?_, hqueued ▸ hb.isQueued, hstart ▸ hb.start, ?_, ?_, ?_, ?_⟩
  · rw [hbuffer, splice_length (by omega), hlen, halloc]
  · rw [hstart, halloc]
    exact hb.nowrap
  · intro i hi hp
    rw [halloc]
    rcases mem_cover_cons.mp hi with hi | hi
    · have := (mem_interval.mp hi).2
      omega
    · exact hb.inside i hi hp
  · intro i hi hp
    rw [hbuffer, getElem?_splice (by omega)]
    split_ifs with hcov
    · rw [getElem?_slice hf.bytes (by omega)]
      congr 1
      omega
    · rcases mem_cover_cons.mp hi with hi | hi
      · have := mem_interval.mp hi
        omega
      · exact hb.bytes i hi hp
  · rw [hsize, halloc, hb.count, coverCount_cons hf.new (Nat.le_add_right ..)]
    change p + o + g.data.length ≤ _
    omega

theorem updateSmallest_fields : (l.updateSmallest g).bufferRead = l.bufferRead ∧
      (l.updateSmallest g).bufferReadSize = l.bufferReadSize ∧
      (l.updateSmallest g).bufferReadSizeAllocated = l.bufferReadSizeAllocated ∧
      (l.updateSmallest g).isQueued = l.isQueued ∧
      (l.updateSmallest g).startOffset = l.startOffset ∧ (l.updateSmallest g).queue = l.queue ∧
      (l.updateSmallest g).sequenceReceive = l.sequenceReceive := by
  unfold updateSmallest
  split_ifs <;> exact ⟨rfl, rfl, rfl, rfl, rfl, rfl, rfl⟩

theorem delivered_append {b : List UInt8} (hq : l'.queue = l.queue ++ [b]) :
    delivered l' = delivered l + b.length := by
  rw [delivered, hq, flatten_concat, length_append]
  rfl

/-- What the delivery finds: the segment has been copied, and `smallest_write_offset` is at the start
of the buffer only if the segment is. -/
structure Copied (stream : List UInt8) (isn : UInt32) (kept : List Interval) (l : Listener)
    (g : Segment) : Prop extends Sound stream isn kept l where
  buffer : Buffer stream isn kept (delivered l) l
  run : SmallestRun kept (delivered l) l
  start : l.smallestWriteOffset = l.startOffset →
    g.thSeq = l.startOffset ∧ g.data.length ≤ l.smallestContinuousSize

theorem Buffer.count_le (hb : Buffer stream isn kept p l) :
    l.bufferReadSize ≤ l.bufferReadSizeAllocated := by
  have h := coverCount_le (l := kept) (a := p) (b := p + l.bufferReadSizeAllocated)
  rw [← hb.count] at h
  omega

theorem Copied.sendAll (h : Copied stream isn kept l g) (hc : Closed l) : Received stream isn kept
      (l.sendAll (l.startOffset + UInt32.ofNat l.bufferReadSizeAllocated)) := by
  generalize hr : l.startOffset + UInt32.ofNat l.bufferReadSizeAllocated = r
  have hb := h.buffer
  have hlen := hb.length
  have hd : delivered (l.sendAll r) = delivered l + l.bufferReadSizeAllocated := by
    rw [delivered_append rfl, hlen]
  have hmem : ∀ i, delivered l ≤ i → i < delivered l + l.bufferReadSizeAllocated → i ∈ cover kept := by
    intro i hi hlt
    refine mem_cover_of_coverCount ?_ hi hlt
    rw [← hb.count, ← hc]
    omega
  have hreceive : r = isn + UInt32.ofNat (delivered l + l.bufferReadSizeAllocated) := by
    rw [← hr, hb.start, UInt32.ofNat_add, UInt32.add_assoc]
  have hnat : r.toNat = l.startOffset.toNat + l.bufferReadSizeAllocated := by
    rw [← hr, seq_toNat, Nat.mod_eq_of_lt hb.nowrap]
  refine ⟨⟨?_, ?_, _, Nat.le_refl _, hd ▸ hreceive⟩, .inl ⟨hc, hb.alloc_le, hd ▸ hreceive, ?_, ?_⟩⟩
  · change (l.queue ++ [l.bufferRead]).flatten <+: stream
    rw [flatten_concat]
    refine queue_append h.inOrder fun i hi => ?_
    have := hb.bytes _ (hmem (delivered l + i) (Nat.le_add_right ..) (by omega))
      (Nat.le_add_right ..)
    rwa [Nat.add_sub_cancel_left] at this
  · intro i hi
    rw [hd] at hi
    rcases Nat.lt_or_ge i (delivered l) with hlt | hge
    · exact h.covered i hlt
    · exact hmem i hge hi
  · intro i hi
    rw [hd]
    rcases Nat.lt_or_ge i (delivered l) with hlt | hge
    · omega
    · exact hb.inside i hi hge
  · exact .inr (.inl hnat)

theorem Copied.sendLow (h : Copied stream isn kept l g) (hc : ¬ Closed l)
    (hs : l.smallestWriteOffset = l.startOffset) :
    l.smallestContinuousSize ≤ l.bufferRead.length ∧
      Received stream isn kept (l.sendLow l.smallestContinuousSize
        (UInt32.ofNat (g.thSeq.toNat + g.data.length))
        (l.startOffset + UInt32.ofNat l.smallestContinuousSize)
        (l.startOffset + UInt32.ofNat l.smallestContinuousSize +
          UInt32.ofNat (wsub l.bufferReadSizeAllocated l.smallestContinuousSize))
        (wsub l.bufferReadSizeAllocated l.smallestContinuousSize)
        (wsub l.bufferReadSize l.smallestContinuousSize)) := by
  have hb := h.buffer
  have hlen := hb.length
  have halloc := hb.alloc_le
  have hle := hb.count_le
  have hnowrap := hb.nowrap
  obtain ⟨o, ho, hfit, hrun⟩ := h.run (by rw [hs])
  obtain ⟨hseq, hlow⟩ := h.start hs
  obtain rfl : o = 0 := by
    rw [hs] at ho
    omega
  have hlt : l.bufferReadSize < l.bufferReadSizeAllocated := by
    unfold Closed at hc
    omega
  generalize hcdef : l.smallestContinuousSize = c at *
  have hmem : ∀ i, delivered l ≤ i → i < delivered l + c → i ∈ cover kept := by
    intro i hi hlt
    have := hrun (i - delivered l) (by omega)
    rwa [show delivered l + 0 + (i - delivered l) = i by omega] at this
  have hsplit := coverCount_split
    (b := delivered l + l.bufferReadSizeAllocated) (by omega) (by omega) hmem
  rw [← hb.count, Nat.add_sub_cancel_left] at hsplit
  have hallocated : wsub l.bufferReadSizeAllocated c = l.bufferReadSizeAllocated - c :=
    wsub_of_le (by omega) (by omega)
  have hsize : wsub l.bufferReadSize c = l.bufferReadSize - c := wsub_of_le (by omega) (by omega)
  have hreceive : UInt32.ofNat (g.thSeq.toNat + g.data.length) =
      isn + UInt32.ofNat (delivered l + g.data.length) := by
    rw [UInt32.ofNat_add, UInt32.ofNat_toNat, hseq, hb.start, UInt32.ofNat_add, UInt32.add_assoc]
  rw [hallocated, hsize, hreceive]
  refine ⟨by omega, ?_⟩
  have hstart : (l.startOffset + UInt32.ofNat c).toNat = l.startOffset.toNat + c := by
    rw [seq_toNat, Nat.mod_eq_of_lt (by omega)]
  have hsmallest : (l.startOffset + UInt32.ofNat c +
      UInt32.ofNat (l.bufferReadSizeAllocated - c)).toNat =
        l.startOffset.toNat + l.bufferReadSizeAllocated := by
    rw [seq_toNat, hstart, Nat.mod_eq_of_lt (by omega)]
    omega
  have hstart' : l.startOffset + UInt32.ofNat c = isn + UInt32.ofNat (delivered l + c) := by
    rw [hb.start, UInt32.ofNat_add, UInt32.add_assoc]
  generalize l.startOffset + UInt32.ofNat c + UInt32.ofNat (l.bufferReadSizeAllocated - c) = s at *
  generalize l.startOffset + UInt32.ofNat c = b at *
  generalize hr : isn + UInt32.ofNat (delivered l + g.data.length) = r
  generalize hadef : l.bufferReadSizeAllocated - c = a at *
  generalize hndef : l.bufferReadSize - c = n at *
  have hd : delivered (l.sendLow c r b s a n) = delivered l + c := by
    rw [delivered_append rfl, length_take]
    omega
  refine ⟨⟨?_, ?_, _, ?_, hr.symm⟩, .inr ⟨?_, ?_, ?_, ?_⟩⟩
  · change (l.queue ++ [l.bufferRead.take c]).flatten <+: stream
    rw [flatten_concat]
    refine queue_append h.inOrder fun i hi => ?_
    rw [length_take] at hi
    have := hb.bytes _ (hmem (delivered l + i) (Nat.le_add_right ..) (by omega))
      (Nat.le_add_right ..)
    rwa [Nat.add_sub_cancel_left, ← getElem?_take_of_lt (show i < c by omega)] at this
  · intro i hi
    rw [hd] at hi
    rcases Nat.lt_or_ge i (delivered l) with hlt | hge
    · exact h.covered i hlt
    · exact hmem i hge hi
  · omega
  · rw [hd]
    refine ⟨?_, ?_, hb.isQueued, hstart', ?_, ?_, ?_, ?_⟩
    · change a ≤ 65535
      omega
    · change (l.bufferRead.drop c).length = a
      rw [length_drop]
      omega
    · change b.toNat + a < 2 ^ 32
      omega
    · intro i hi hp
      have := hb.inside i hi (by omega)
      change i < delivered l + c + a
      omega
    · intro i hi hp
      change (l.bufferRead.drop c)[i - (delivered l + c)]? = stream[i]?
      rw [getElem?_drop, ← hb.bytes i hi (by omega)]
      congr 1
      omega
    · change n = coverCount kept (delivered l + c) (delivered l + c + a)
      rw [show delivered l + c + a = delivered l + l.bufferReadSizeAllocated by omega]
      omega
  · change ¬ a = n
    omega
  · change ¬ s = b
    intro hsb
    rw [hsb] at hsmallest
    omega
  · intro _
    refine ⟨a, ?_, ?_, fun j hj => absurd hj (Nat.not_lt_zero j)⟩
    · change s.toNat = b.toNat + a
      omega
    · exact Nat.le_refl a

theorem Copied.deliver (h : Copied stream isn kept l g) :
    ∃ l' b, l.deliver g = .ok (l', b) ∧ Received stream isn kept l' := by
  simp only [Listener.deliver]
  by_cases hc : l.bufferReadSizeAllocated = l.bufferReadSize
  · rw [if_pos hc]
    exact ⟨_, _, rfl, h.sendAll hc⟩
  · rw [if_neg hc]
    by_cases hs : l.smallestWriteOffset = l.startOffset
    · obtain ⟨hle, hr⟩ := h.sendLow hc hs
      rw [if_pos hs, if_neg (Nat.not_lt.mpr hle)]
      exact ⟨_, _, rfl, hr⟩
    · rw [if_neg hs]
      exact ⟨l, _, rfl, h.toSound, .inr ⟨h.buffer, hc, hs, h.run⟩⟩

theorem Sound.congr (hs : Sound stream isn kept l) (hq : l'.queue = l.queue)
    (hr : l'.sequenceReceive = l.sequenceReceive) : Sound stream isn kept l' := by
  have hd : delivered l' = delivered l := by rw [delivered, hq, delivered]
  refine ⟨?_, ?_, ?_⟩
  · rw [hq]
    exact hs.inOrder
  · rw [hd]
    exact hs.covered
  · rw [hd, hr]
    exact hs.acknowledged

theorem storeData_received (hs : Sound stream isn kept l)
    (hb : Buffer stream isn kept (delivered l) l) (hf : Fits stream kept (delivered l) l g o)
    (hrun : SmallestRun (⟨delivered l + o, g.data.length⟩ :: kept) (delivered l) l)
    (hne : l.smallestWriteOffset ≠ l.startOffset) :
    ∃ l' b, l.storeData g o = .ok (l', b) ∧
      Received stream isn (⟨delivered l + o, g.data.length⟩ :: kept) l' := by
  obtain ⟨hrun', hstart⟩ := updateSmallest_run (l := l.setReceiving)
    ⟨hf.pos, hf.bytes, hf.seq, hf.fits, hf.new⟩ hb.alloc_le hrun hne
  obtain ⟨hbuf, hsize, halloc, hqueued, hoff, hqueue, hreceive⟩ :=
    updateSmallest_fields
  have hfits := hf.fits
  have hle := hb.alloc_le
  have hcount := hb.count_le
  have hlen := hb.length
  generalize hl1 : l.setReceiving.updateSmallest g = l1 at *
  have hcopy : l1.copyData g o =
      .ok (l1.setBuffer (splice l.bufferRead o g.data) (l.bufferReadSize + g.data.length)) := by
    rw [copyData, if_pos (by rw [hbuf]; exact hfits.trans hlen.ge), hbuf, hsize]
    change Except.ok (l1.setBuffer (splice l.bufferRead o g.data)
      (wadd l.bufferReadSize g.data.length)) = _
    rw [wadd_of_lt (by omega)]
  have hcopied : Copied stream isn (⟨delivered l + o, g.data.length⟩ :: kept)
      (l1.setBuffer (splice l.bufferRead o g.data) (l.bufferReadSize + g.data.length)) g := by
    have hd : delivered (l1.setBuffer (splice l.bufferRead o g.data)
        (l.bufferReadSize + g.data.length)) = delivered l := by
      exact congrArg (fun q => (List.flatten q).length) hqueue
    refine ⟨⟨?_, ?_, ?_⟩, ?_, ?_, ?_⟩
    · exact hqueue ▸ hs.inOrder
    · intro i hi
      rw [hd] at hi
      exact mem_cover_cons.mpr (.inr (hs.covered i hi))
    · rw [hd]
      exact hreceive ▸ hs.acknowledged
    · rw [hd]
      exact hb.store hf rfl rfl halloc hqueued hoff
    · rw [hd]
      exact hrun'
    · intro h
      obtain ⟨rfl, hle⟩ := hstart (h.trans hoff)
      refine ⟨UInt32.toNat_inj.mp ?_, hle⟩
      change g.thSeq.toNat = l1.startOffset.toNat
      rw [hoff]
      exact hf.seq
  obtain ⟨l', b, hdel, hrec⟩ := hcopied.deliver
  refine ⟨l', b, ?_, hrec⟩
  rw [storeData, hl1, hcopy]
  exact hdel

section
variable (hne : g.data ≠ []) (hopen : l.openBuffer stale g = (l1, ig))
include hne hopen

theorem receiveData_before (hlt : g.thSeq.toNat < l1.startOffset.toNat) :
    l.receiveData stale g = .ok (l1, false) ∧ stores stale l g = false := by
  simp only [receiveData, stores, hopen, if_neg hne, if_neg (Nat.not_le.mpr hlt),
    decide_eq_false (Nat.not_le.mpr hlt), Bool.and_false, Bool.false_and, and_self]

theorem receiveData_skipped (hle : l1.startOffset.toNat ≤ g.thSeq.toNat)
    (hgrow : l1.growBuffer stale g (g.thSeq.toNat - l1.startOffset.toNat + g.data.length) ig =
    .ok (l2, true)) :
    l.receiveData stale g = .ok (l2, false) ∧ stores stale l g = false := by
  simp only [receiveData, stores, writeData, hopen, if_neg hne, if_pos hle, hgrow]
  exact ⟨rfl, by simp⟩

theorem receiveData_stored (hle : l1.startOffset.toNat ≤ g.thSeq.toNat)
    (hgrow : l1.growBuffer stale g (g.thSeq.toNat - l1.startOffset.toNat + g.data.length) ig =
    .ok (l2, false)) :
    l.receiveData stale g = l2.storeData g (g.thSeq.toNat - l1.startOffset.toNat) ∧
      stores stale l g = true := by
  have hempty : g.data.isEmpty = false := by simpa using hne
  simp only [receiveData, stores, writeData, hopen, if_neg hne, if_pos hle, hgrow,
    hempty, decide_eq_true hle]
  exact ⟨rfl, rfl⟩

end

theorem receiveData_nil (h : g.data = []) :
    l.receiveData stale g = .ok (l, false) ∧ stores stale l g = false := by
  simp [receiveData, stores, h]

/-- The handler does not fault on the data of a segment, and the invariant still holds. -/
def Handled (stream : List UInt8) (isn : UInt32) (kept : List Interval) (stale : ℕ → UInt8)
    (l : Listener) (g : Segment) (r : Interval) : Prop :=
  ∃ l' b, l.receiveData stale g = .ok (l', b) ∧
    Received stream isn (if stores stale l g then r :: kept else kept) l'

variable {r : Interval}

theorem handled_of_not_stored {b : Bool}
    (h : l.receiveData stale g = .ok (l', b) ∧ stores stale l g = false)
    (hr : Received stream isn kept l') : Handled stream isn kept stale l g r := by
  refine ⟨l', b, h.1, ?_⟩
  rw [h.2]
  exact hr

theorem handled_of_stored (h : l.receiveData stale g = l2.storeData g o ∧ stores stale l g = true)
    (hs : ∃ l' b, l2.storeData g o = .ok (l', b) ∧ Received stream isn (r :: kept) l') :
    Handled stream isn kept stale l g r := by
  obtain ⟨l', b, hok, hr⟩ := hs
  refine ⟨l', b, h.1.trans hok, ?_⟩
  rw [h.2]
  exact hr

theorem Buffer.realloc (hb : Buffer stream isn kept p l) (hle : l.bufferReadSizeAllocated ≤ n)
    (hn : n ≤ 65535) (hwrap : l.startOffset.toNat + n < 2 ^ 32) :
    Buffer stream isn kept p (l.reallocBuffer stale n) := by
  have hlen := hb.length
  refine ⟨hn, ?_, hb.isQueued, hb.start, hwrap, ?_, ?_, ?_⟩
  · change (l.bufferRead ++ (freshBytes stale n).drop l.bufferRead.length).length = n
    rw [length_append, length_drop, freshBytes_length]
    omega
  · intro i hi hp
    have := hb.inside i hi hp
    change i < p + n
    omega
  · intro i hi hp
    have := hb.inside i hi hp
    change (l.bufferRead ++ (freshBytes stale n).drop l.bufferRead.length)[i - p]? = stream[i]?
    rw [getElem?_append_left (by omega)]
    exact hb.bytes i hi hp
  · change l.bufferReadSize = coverCount kept p (p + n)
    rw [hb.count, coverCount_extend hb.inside (Nat.add_le_add_left hle p)]

theorem Gap.receive (hs : Sound stream isn kept l) (hg : Gap stream isn kept l)
    (hdata : g.data = (stream.drop pos).take g.data.length)
    (hseq : g.thSeq.toNat + delivered l = l.startOffset.toNat + pos)
    (hwrap : g.thSeq.toNat + g.data.length < 2 ^ 32)
    (hnew : delivered l ≤ pos → ∀ r ∈ kept, Interval.Disjoint ⟨pos, g.data.length⟩ r) :
    Handled stream isn kept stale l g ⟨pos, g.data.length⟩ := by
  have hb := hg.buffer
  have hsame : Received stream isn kept l := ⟨hs, .inr hg⟩
  by_cases hne : g.data = []
  · exact handled_of_not_stored (receiveData_nil hne) hsame
  have hopen : l.openBuffer stale g = (l, false) := by
    have hawait : l.awaitingDataToRead ≠ 0 := by
      have hle := hb.alloc_le
      have hcount := hb.count_le
      have hopen := hg.notClosed
      unfold Closed at hopen
      rw [awaitingDataToRead, wsub_of_le (by omega) hcount]
      omega
    rw [Listener.openBuffer, if_neg hawait]
  rcases Nat.lt_or_ge g.thSeq.toNat l.startOffset.toNat with hlt | hge
  · exact handled_of_not_stored (receiveData_before hne hopen hlt) hsame
  obtain ⟨o, ho⟩ : ∃ o, g.thSeq.toNat - l.startOffset.toNat = o := ⟨_, rfl⟩
  obtain rfl : pos = delivered l + o := by omega
  have hpos := length_pos_iff.mpr hne
  have hcover : ∀ i ∈ (⟨delivered l + o, g.data.length⟩ : Interval), i ∉ cover kept := by
    intro i hi hc
    obtain ⟨q, hq, hiq⟩ := mem_cover.mp hc
    exact hnew (Nat.le_add_right ..) q hq i hi hiq
  -- the run at the smallest offset is as long as before in a larger buffer
  have hrun : ∀ m, l.bufferReadSizeAllocated ≤ m →
      SmallestRun (⟨delivered l + o, g.data.length⟩ :: kept) (delivered l)
        { l with bufferReadSizeAllocated := m } := by
    intro m hm hle
    obtain ⟨o', ho', hfit, hall⟩ := hg.run hle
    exact ⟨o', ho', hfit.trans hm, fun j hj => mem_cover_cons.mpr (.inr (hall j hj))⟩
  by_cases hbig : o + g.data.length > l.bufferReadSizeAllocated
  · by_cases hwin : o + g.data.length ≤ g.thWin.toNat
    · have hgrow : l.growBuffer stale g (o + g.data.length) false =
          .ok (l.reallocBuffer stale (o + g.data.length), false) := by
        rw [growBuffer, if_pos hbig, if_pos hwin, hb.isQueued]
        rfl
      have hmax := g.thWin.toNat_lt
      refine handled_of_stored (receiveData_stored hne hopen hge (ho ▸ hgrow)) ?_
      rw [ho]
      exact storeData_received (hs.congr rfl rfl)
        (hb.realloc hbig.le (by omega) (by omega))
        ⟨hpos, hdata, by change _ = l.startOffset.toNat + o; omega, Nat.le_refl _, hcover⟩
        (hrun _ hbig.le) hg.smallest
    · have hgrow : l.growBuffer stale g (o + g.data.length) false = .ok (l, true) := by
        rw [growBuffer, if_pos hbig, if_neg hwin]
      exact handled_of_not_stored (receiveData_skipped hne hopen hge (ho ▸ hgrow)) hsame
  · have hgrow : l.growBuffer stale g (o + g.data.length) false = .ok (l, false) := by
      rw [growBuffer, if_neg hbig]
    refine handled_of_stored (receiveData_stored hne hopen hge (ho ▸ hgrow)) ?_
    rw [ho]
    exact storeData_received hs hb ⟨hpos, hdata, by omega, Nat.not_lt.mp hbig, hcover⟩
      (hrun _ (Nat.le_refl _)) hg.smallest

theorem sizeToAllocate_of_le (hn : g.data.length < 2 ^ 16)
    (h : l.sequenceReceive.toNat ≤ g.thSeq.toNat + g.data.length) :
    l.sizeToAllocate g = g.thSeq.toNat + g.data.length - l.sequenceReceive.toNat := by
  have := g.thSeq.toNat_lt
  rw [sizeToAllocate, wsub_of_le (by omega) h]

theorem Done.openBuffer (hd : Done isn kept l) (stale : ℕ → UInt8) (g : Segment) :
    l.openBuffer stale g =
      if l.sizeToAllocate g ≤ g.thWin.toNat then (l.freshBuffer stale g (l.sizeToAllocate g), false)
      else (l, true) := by
  have hawait : l.awaitingDataToRead = 0 := by
    have hle := hd.alloc_le
    have hclosed : l.bufferReadSizeAllocated = l.bufferReadSize := hd.closed
    rw [awaitingDataToRead, wsub_of_le (by omega) (by omega)]
    omega
  rw [Listener.openBuffer, if_pos hawait]

theorem Done.opens (hd : Done isn kept l) (stale : ℕ → UInt8) (hn : g.data.length < 2 ^ 16)
    (hwin : l.sizeToAllocate g ≤ g.thWin.toNat) :
    ∃ size ≤ 65535, size + l.sequenceReceive.toNat = g.thSeq.toNat + g.data.length ∧
      l.openBuffer stale g = (l.freshBuffer stale g size, false) := by
  have hmax := g.thWin.toNat_lt
  have hend : l.sequenceReceive.toNat ≤ g.thSeq.toNat + g.data.length := by
    by_contra h
    have := l.sequenceReceive.toNat_lt
    have hsize : 65535 < l.sizeToAllocate g := by
      rw [sizeToAllocate, wsub, Nat.mod_eq_of_lt (by omega)]
      omega
    omega
  refine ⟨l.sizeToAllocate g, by omega, ?_, ?_⟩
  · rw [sizeToAllocate_of_le hn hend]
    omega
  · rw [hd.openBuffer stale g, if_pos hwin]

theorem Done.freshBuffer (hd : Done isn kept l) (hn : n ≤ 65535)
    (hwrap : l.sequenceReceive.toNat + n < 2 ^ 32) :
    Buffer stream isn kept (delivered l) (l.freshBuffer stale g n) := by
  have hnone : ∀ i ∈ cover kept, ¬ delivered l ≤ i := fun i hi => Nat.not_le.mpr (hd.old i hi)
  refine ⟨hn, freshBytes_length .., rfl, hd.receive, hwrap, fun i hi hp => absurd hp (hnone i hi),
    fun i hi hp => absurd hp (hnone i hi), ?_⟩
  have hzero := coverCount_le (l := kept) (a := delivered l) (b := delivered l)
  rw [← coverCount_extend (fun i hi _ => hd.old i hi) (Nat.le_add_right _ n)] at hzero
  change 0 = coverCount kept (delivered l) (delivered l + n)
  omega

theorem storeData_freshBuffer (hn : g.data.length < 2 ^ 16) :
    (l.freshBuffer stale g g.data.length).storeData g 0 =
      .ok (((l.freshBuffer stale g g.data.length).setReceiving.setBuffer g.data
        g.data.length).sendAll (l.sequenceReceive + UInt32.ofNat g.data.length), true) := by
  have hsmallest : (l.freshBuffer stale g g.data.length).setReceiving.updateSmallest g =
      (l.freshBuffer stale g g.data.length).setReceiving := by
    rw [updateSmallest, if_neg]
    exact Nat.lt_irrefl g.thSeq.toNat
  have hsplice : splice (freshBytes stale g.data.length) 0 g.data = g.data := by
    simp [splice]
  have hcopy : (l.freshBuffer stale g g.data.length).setReceiving.copyData g 0 =
      .ok ((l.freshBuffer stale g g.data.length).setReceiving.setBuffer
        (splice (freshBytes stale g.data.length) 0 g.data) (wadd 0 g.data.length)) := by
    rw [copyData, if_pos]
    · rfl
    · change 0 + g.data.length ≤ (freshBytes stale g.data.length).length
      rw [freshBytes_length, Nat.zero_add]
  rw [hsplice, wadd_of_lt (by omega), Nat.zero_add] at hcopy
  rw [storeData, hsmallest, hcopy]
  change Listener.deliver _ g = _
  rw [Listener.deliver, if_pos]
  · rfl
  · rfl

section
variable (hs : Sound stream isn kept l) (hd : Done isn kept l) (hne : g.data ≠ [])
  (hn : g.data.length < 2 ^ 16)
include hs hd hne hn

theorem Done.receive_ignored (hseq : g.thSeq.toNat + delivered l = l.sequenceReceive.toNat + pos)
    (hnear : pos + g.data.length < delivered l + 2 ^ 31)
    (hwin : ¬ l.sizeToAllocate g ≤ g.thWin.toNat) : Handled stream isn kept stale l g r := by
  have hopen := hd.openBuffer stale g
  rw [if_neg hwin] at hopen
  have hsame : Received stream isn kept l := ⟨hs, .inl hd⟩
  rcases Nat.lt_or_ge g.thSeq.toNat l.startOffset.toNat with hlt | hge
  · exact handled_of_not_stored (receiveData_before hne hopen hlt) hsame
  -- the end of the segment is inside the last buffer, or behind the window
  have hend : g.thSeq.toNat - l.startOffset.toNat + g.data.length > l.bufferReadSizeAllocated →
      ¬ g.thSeq.toNat - l.startOffset.toNat + g.data.length ≤ g.thWin.toNat := by
    have hsize := sizeToAllocate_of_le (l := l) hn
    rcases hd.last with ⟨h1, h2, h3⟩ | h | h
    · rw [h2, show (0 : UInt32).toNat = 0 from rfl]
      omega
    · omega
    · omega
  refine handled_of_not_stored (receiveData_skipped hne hopen hge ?_) hsame
  rw [growBuffer]
  by_cases hbig : g.thSeq.toNat - l.startOffset.toNat + g.data.length > l.bufferReadSizeAllocated
  · rw [if_pos hbig, if_neg (hend hbig)]
  · rw [if_neg hbig]

theorem Done.receive_before (hwrap : g.thSeq.toNat + g.data.length < 2 ^ 32)
    (hlt : g.thSeq.toNat < l.sequenceReceive.toNat)
    (hwin : l.sizeToAllocate g ≤ g.thWin.toNat) : Handled stream isn kept stale l g r := by
  obtain ⟨size, hle, hsize, hopen⟩ := hd.opens stale hn hwin
  refine handled_of_not_stored (receiveData_before hne hopen hlt)
    ⟨hs.congr rfl rfl, ?_⟩
  rcases Nat.eq_zero_or_pos size with hzero | hpos
  · refine .inl ⟨hzero, hle, hd.receive, hd.old, .inr (.inl ?_)⟩
    · change l.sequenceReceive.toNat = l.sequenceReceive.toNat + size
      omega
  · refine .inr ⟨hd.freshBuffer hle (by omega), hpos.ne', ?_, fun h => ?_⟩
    · intro h
      exact hlt.ne (congrArg UInt32.toNat h)
    · exact absurd h (Nat.not_le.mpr hlt)

theorem Done.receive_behind (hdata : g.data = (stream.drop pos).take g.data.length)
    (hseq : g.thSeq.toNat + delivered l = l.sequenceReceive.toNat + pos)
    (hwrap : g.thSeq.toNat + g.data.length < 2 ^ 32) (hpos : delivered l < pos)
    (hlow : l.smallestContinuousSize ≤ g.data.length)
    (hwin : l.sizeToAllocate g ≤ g.thWin.toNat) :
    Handled stream isn kept stale l g ⟨pos, g.data.length⟩ := by
  obtain ⟨size, hle, hsize, hopen⟩ := hd.opens stale hn hwin
  obtain ⟨o, rfl⟩ : ∃ o, pos = delivered l + o := ⟨pos - delivered l, by omega⟩
  have ho : g.thSeq.toNat - l.sequenceReceive.toNat = o := by omega
  have hgrow : (l.freshBuffer stale g size).growBuffer stale g (o + g.data.length) false =
      .ok (l.freshBuffer stale g size, false) := by
    rw [growBuffer, if_neg]
    change ¬ o + g.data.length > size
    omega
  refine handled_of_stored
    (receiveData_stored hne hopen (by change l.sequenceReceive.toNat ≤ _; omega) (ho ▸ hgrow)) ?_
  change ∃ l' b, (l.freshBuffer stale g size).storeData g
    (g.thSeq.toNat - l.sequenceReceive.toNat) = .ok (l', b) ∧ _
  rw [ho]
  refine storeData_received (hs.congr rfl rfl)
    (hd.freshBuffer (by omega) (by omega))
    ⟨length_pos_iff.mpr hne, hdata, ?_, ?_, ?_⟩ (fun _ => ⟨o, ?_, ?_, fun j hj => ?_⟩) ?_
  · change g.thSeq.toNat = l.sequenceReceive.toNat + o
    omega
  · change o + g.data.length ≤ size
    omega
  · intro i hi hc
    have := hd.old i hc
    have := (mem_interval.mp hi).1
    change delivered l + o ≤ i at this
    omega
  · change g.thSeq.toNat = l.sequenceReceive.toNat + o
    omega
  · change o + l.smallestContinuousSize ≤ size
    omega
  · change j < l.smallestContinuousSize at hj
    rw [mem_cover_cons, mem_interval]
    exact .inl ⟨Nat.le_add_right .., by omega⟩
  · intro h
    have := congrArg UInt32.toNat h
    change g.thSeq.toNat = l.sequenceReceive.toNat at this
    omega

theorem Done.receive_next (hdata : g.data = (stream.drop (delivered l)).take g.data.length)
    (hseq : g.thSeq.toNat = l.sequenceReceive.toNat)
    (hwin : l.sizeToAllocate g ≤ g.thWin.toNat) :
    Handled stream isn kept stale l g ⟨delivered l, g.data.length⟩ := by
  obtain ⟨size, hle, hsize, hopen⟩ := hd.opens stale hn hwin
  obtain rfl : size = g.data.length := by omega
  have hgrow : (l.freshBuffer stale g g.data.length).growBuffer stale g
      (g.thSeq.toNat - l.sequenceReceive.toNat + g.data.length) false =
        .ok (l.freshBuffer stale g g.data.length, false) := by
    rw [growBuffer, if_neg]
    change ¬ _ > g.data.length
    omega
  refine handled_of_stored
    (receiveData_stored hne hopen (by change l.sequenceReceive.toNat ≤ _; omega) hgrow) ?_
  change ∃ l' b, (l.freshBuffer stale g g.data.length).storeData g
    (g.thSeq.toNat - l.sequenceReceive.toNat) = .ok (l', b) ∧ _
  rw [hseq, Nat.sub_self, storeData_freshBuffer hn]
  refine ⟨_, _, rfl, ?_⟩
  have hreceive : l.sequenceReceive + UInt32.ofNat g.data.length =
      isn + UInt32.ofNat (delivered l + g.data.length) := by
    rw [hd.receive, UInt32.ofNat_add, UInt32.add_assoc]
  have hnat := seq_toNat l.sequenceReceive g.data.length
  have hlt := l.sequenceReceive.toNat_lt
  generalize l.sequenceReceive + UInt32.ofNat g.data.length = receive at *
  generalize hl1 : ((l.freshBuffer stale g g.data.length).setReceiving.setBuffer g.data
    g.data.length).sendAll receive = l1
  have hqueue : l1.queue = l.queue ++ [g.data] := by rw [← hl1]; rfl
  have hd1 := delivered_append hqueue
  have hr1 : l1.sequenceReceive = isn + UInt32.ofNat (delivered l1) := by
    rw [hd1, ← hreceive, ← hl1]
    rfl
  refine ⟨⟨?_, ?_, _, Nat.le_refl _, hr1⟩, .inl ⟨?_, ?_, hr1, ?_, .inr ?_⟩⟩
  · rw [hqueue, flatten_concat]
    exact queue_append hs.inOrder fun i hi => getElem?_slice hdata hi
  · intro i hi
    rw [hd1] at hi
    rw [mem_cover_cons, mem_interval]
    rcases Nat.lt_or_ge i (delivered l) with h | h
    · exact .inr (hs.covered i h)
    · exact .inl ⟨h, hi⟩
  · rw [← hl1]
    rfl
  · rw [← hl1]
    exact hle
  · intro i hi
    rw [hd1]
    rcases mem_cover_cons.mp hi with h | h
    · exact (mem_interval.mp h).2
    · exact (hd.old i h).trans_le (Nat.le_add_right ..)
  · rw [← hl1]
    change receive.toNat = l.sequenceReceive.toNat + g.data.length ∨
      receive.toNat + 2 ^ 32 = l.sequenceReceive.toNat + g.data.length
    omega

end

variable {s t : State} {e : Event} {es : List Event}

theorem Received.receiveData (h : Received stream isn s.kept s.listener) (he : Slice stream isn e)
    (ho : Orderly s e) : Handled stream isn s.kept e.stale s.listener e.segment e.range := by
  obtain ⟨l, kept⟩ := s
  obtain ⟨pos, g, stale⟩ := e
  change Handled stream isn kept stale l g ⟨pos, g.data.length⟩
  have hs := h.toSound
  have hdata := he.bytes
  have hn : g.data.length < 2 ^ 16 := he.size_lt
  have hfar := he.seq
  rcases h.buffer with hd | hg
  · -- in both cases of the condition the segment is near the next byte
    obtain ⟨hseq, hnear, hwrap, hlow⟩ :
        g.thSeq.toNat + delivered l = l.sequenceReceive.toNat + pos ∧
        pos + g.data.length < delivered l + 2 ^ 31 ∧
        (pos ≠ delivered l → g.thSeq.toNat + g.data.length < 2 ^ 32) ∧
        (delivered l < pos → l.smallestContinuousSize ≤ g.data.length) := by
      rcases ho with ⟨_, hpos⟩ | ⟨hwrap, hnear, hclosed, _⟩
      · change pos = delivered l at hpos
        refine ⟨?_, by omega, fun h => absurd hpos h, fun h => absurd hpos h.ne'⟩
        rw [hfar, hpos, ← hd.receive]
      · obtain ⟨hseq, hlow⟩ := hclosed hd.closed
        exact ⟨hseq, hnear, fun _ => hwrap, hlow⟩
    by_cases hne : g.data = []
    · exact handled_of_not_stored (receiveData_nil hne) h
    by_cases hwin : l.sizeToAllocate g ≤ g.thWin.toNat
    · rcases lt_trichotomy pos (delivered l) with hlt | rfl | hgt
      · exact Done.receive_before hs hd hne hn (hwrap hlt.ne) (by omega) hwin
      · exact Done.receive_next hs hd hne hn hdata (by omega) hwin
      · exact Done.receive_behind hs hd hne hn hdata hseq (hwrap hgt.ne') hgt (hlow hgt) hwin
    · exact Done.receive_ignored hs hd hne hn hseq hnear hwin
  · rcases ho with ⟨hclosed, _⟩ | ⟨hwrap, _, _, hopen⟩
    · exact absurd hclosed hg.notClosed
    · obtain ⟨hseq, hnew⟩ := hopen hg.notClosed
      exact hg.receive hs hdata hseq hwrap hnew

theorem processFlags_eq (h : g.syn = false) :
    ∃ w b, l.processFlags g = { l with sequenceWaitingForAck := w, isReset := b } := by
  simp only [processFlags, h, Bool.false_eq_true, if_false]
  split_ifs
  · exact ⟨0, true, rfl⟩
  · exact ⟨l.sequenceWaitingForAck, true, rfl⟩
  · exact ⟨0, l.isReset, rfl⟩
  · exact ⟨l.sequenceWaitingForAck, l.isReset, rfl⟩

theorem Received.flags (h : Received stream isn kept l) (w : UInt32) (b : Bool) :
    Received stream isn kept { l with sequenceWaitingForAck := w, isReset := b } := by
  refine ⟨h.toSound.congr rfl rfl, ?_⟩
  rcases h.buffer with hd | hg
  · exact .inl ⟨hd.closed, hd.alloc_le, hd.receive, hd.old, hd.last⟩
  · have hb := hg.buffer
    exact .inr ⟨⟨hb.alloc_le, hb.length, hb.isQueued, hb.start, hb.nowrap, hb.inside, hb.bytes,
      hb.count⟩, hg.notClosed, hg.smallest, hg.run⟩

theorem Received.process (h : Received stream isn s.kept s.listener) (he : Slice stream isn e)
    (ho : Orderly s e) :
    ∃ l' p, s.listener.process e.stale e.segment = .ok (l', p) ∧
      Received stream isn (if stores e.stale (s.listener.processFlags e.segment) e.segment then
        e.range :: s.kept else s.kept) l' := by
  obtain ⟨w, b, hflags⟩ := processFlags_eq he.syn
  have ho' : Orderly ⟨s.listener.processFlags e.segment, s.kept⟩ e := by
    rw [hflags]
    exact ho
  have h' : Received stream isn s.kept (s.listener.processFlags e.segment) := by
    rw [hflags]
    exact h.flags w b
  obtain ⟨l', c, hok, hr⟩ := Received.receiveData h' he ho'
  have hfin : l'.processFin e.segment = l' := by
    rw [processFin, he.fin]
    rfl
  refine ⟨l', if e.segment.syn || c || e.segment.fin then some l'.acknowledgement else none, ?_, hr⟩
  rw [Listener.process, hok]
  change Except.ok (l'.processFin e.segment, if _ then some (l'.processFin e.segment).acknowledgement
    else none) = _
  rw [hfin]

theorem Received.step (h : Received stream isn s.kept s.listener)
    (hs : Guarded (Step stream isn) Orderly s e t) : Received stream isn t.kept t.listener := by
  obtain ⟨⟨he, p, hok, hkept⟩, ho⟩ := hs
  obtain ⟨l', p', hok', hr⟩ := h.process he ho
  obtain ⟨rfl, _⟩ := Prod.mk.inj (Except.ok.inj (hok.symm.trans hok'))
  rw [hkept]
  exact hr

theorem Fresh.received (hl : Fresh isn l) : Received stream isn [] l := by
  have hd : delivered l = 0 := by rw [delivered, hl.queue]; rfl
  have hr : l.sequenceReceive = isn + UInt32.ofNat (delivered l) := by
    rw [hd, hl.sequenceReceive]
    exact (UInt32.add_zero isn).symm
  refine ⟨⟨?_, ?_, _, Nat.le_refl _, hr⟩,
    .inl ⟨?_, ?_, hr, fun i hi => absurd hi (Finset.notMem_empty i), .inl ⟨hd, hl.startOffset,
      hl.bufferReadSizeAllocated⟩⟩⟩
  · rw [hl.queue]
    exact ⟨stream, rfl⟩
  · rw [hd]
    exact fun i hi => absurd hi (Nat.not_lt_zero i)
  · rw [Closed, hl.bufferReadSizeAllocated, hl.bufferReadSize]
  · rw [hl.bufferReadSizeAllocated]
    exact Nat.zero_le _

theorem Received.integral (h : Received stream isn t.kept t.listener) : Integral stream isn t := by
  obtain ⟨k, hk, hr⟩ := h.acknowledged
  exact ⟨h.inOrder, k, hr, fun i hi => mem_cover.mp (h.covered i (hi.trans_le hk))⟩

/-- After any number of orderly segments the queued bytes are the start of the stream, nothing that
is missing has been acknowledged, and the handler takes the next orderly segment. -/
theorem integral_of_orderly (hl : Fresh isn l)
    (h : Run (Guarded (Step stream isn) Orderly) ⟨l, []⟩ es t) :
    Integral stream isn t ∧ ∀ e, Slice stream isn e → Orderly t e → ∃ u, Step stream isn t e u := by
  have ht := h.invariant (P := fun t => Received stream isn t.kept t.listener) hl.received
      fun _ _ _ hs hstep => hs.step hstep
  refine ⟨ht.integral, fun e he ho => ?_⟩
  obtain ⟨l', p, hok, _⟩ := ht.process he ho
  exact ⟨⟨l', _⟩, he, p, hok, rfl⟩

theorem State.step_sound (h : s.step stream isn e = some t) : Step stream isn s e t := by
  by_cases he : Slice stream isn e
  · rw [State.step, if_pos he] at h
    split at h
    · rename_i r hr
      cases h
      exact ⟨he, r.2, hr, rfl⟩
    · cases h
  · rw [State.step, if_neg he] at h
    cases h

/-- A connection on which no data has arrived. -/
def sampleListener (isn : UInt32) : Listener := { Listener.zero with sequenceReceive := isn }

theorem sampleListener_fresh : Fresh isn (sampleListener isn) := ⟨rfl, rfl, rfl, rfl, rfl⟩

/-- The bytes from a position of the stream, with initial sequence number ten. -/
def sampleEvent (position : ℕ) (data : List UInt8) : Event :=
  ⟨position, ⟨1, 80, 1024, 10 + UInt32.ofNat position, 0, 65535, false, true, false, false, data⟩,
    fun _ => 0⟩

theorem exchanged_segments_integral : ∃ t, Run (Step [1, 2, 3, 4] 10) ⟨sampleListener 10, []⟩
      [sampleEvent 2 [3, 4], sampleEvent 0 [1, 2]] t ∧
    t.listener.queue = [[1, 2, 3, 4]] ∧ Integral [1, 2, 3, 4] 10 t := by
  obtain ⟨t, hrun, hq⟩ : ∃ t,
      Run (Guarded (Step [1, 2, 3, 4] 10) Orderly) ⟨sampleListener 10, []⟩
        [sampleEvent 2 [3, 4], sampleEvent 0 [1, 2]] t ∧
      (t.listener.queue == [[1, 2, 3, 4]]) = true :=
    exists_run_of_foldlM (f := fun s e => if Orderly s e then s.step [1, 2, 3, 4] 10 e else none) _
      (fun s e s' h => by split_ifs at h with hc; exact ⟨State.step_sound h, hc⟩)
      (by decide +kernel)
  exact ⟨t, hrun.of_guarded, beq_iff_eq.mp hq,
    (integral_of_orderly sampleListener_fresh hrun).1⟩

/-- A segment behind a gap that comes twice is counted twice: the buffer with the gap goes to the
reader, and its end is acknowledged. -/
theorem duplicate_fills_gap : ∃ t, Run (Step [1, 2, 3, 4] 10) ⟨sampleListener 10, []⟩
      [sampleEvent 2 [3, 4], sampleEvent 2 [3, 4]] t ∧
    ¬ t.listener.queue.flatten <+: [1, 2, 3, 4] ∧ ¬ Integral [1, 2, 3, 4] 10 t := by
  obtain ⟨t, hrun, hq⟩ : ∃ t,
      Run (Step [1, 2, 3, 4] 10) ⟨sampleListener 10, []⟩
        [sampleEvent 2 [3, 4], sampleEvent 2 [3, 4]] t ∧
      (t.listener.queue == [[0, 0, 3, 4]]) = true :=
    exists_run_of_foldlM _ (fun _ _ _ => State.step_sound)
      (by decide +kernel)
  have hnot : ¬ t.listener.queue.flatten <+: [1, 2, 3, 4] := by
    rw [beq_iff_eq.mp hq]
    decide
  exact ⟨t, hrun, hnot, fun h => hnot h.inOrder⟩

end Kot.Net.TcpReceive
