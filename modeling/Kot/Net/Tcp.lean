import Kot.Net.Ip

/-! The TCP side of a socket (`modules/net/source/socket.c`): the record of a connection and what
the packet handler does with a segment. Addresses and ports stay in network byte order as in the
source; sequence numbers are those that `ntohl` gives. -/
namespace Kot.Net

open Kot.Kernel Kot.Lib

/-- A segment with the address it comes from; `data` is what follows the header. -/
structure Segment where
  saddr : UInt32
  thSport : UInt16
  thDport : UInt16
  thSeq : UInt32
  thAck : UInt32
  thWin : UInt16
  syn : Bool
  ack : Bool
  fin : Bool
  rst : Bool
  data : List UInt8
  deriving DecidableEq

/-- A call of `generate_tcp_packet`. -/
structure Packet where
  daddr : UInt32
  dport : UInt16
  sport : UInt16
  seq : UInt32
  ack : UInt32
  isSyn : Bool
  isPush : Bool
  data : List UInt8
  deriving DecidableEq

/-- `socket_tcp_listener_t`. The buffers from `last_read->next` to `last_allocated` are `queue`. -/
structure Listener where
  ipAddress : UInt32
  destinationPort : UInt16
  sourcePort : UInt16
  sequenceReceive : UInt32
  sequenceSend : UInt32
  sequenceWaitingForAck : UInt32
  isFin : Bool
  isReset : Bool
  isAccept : Bool
  isWaitingForAccept : Bool
  queue : List (List UInt8)
  bufferRead : List UInt8
  /-- the block at `buffer_read` has been put into the queue -/
  isQueued : Bool
  startOffset : UInt32
  smallestWriteOffset : UInt32
  smallestContinuousSize : ℕ
  bufferReadSize : ℕ
  bufferReadSizeAllocated : ℕ
  isReceivingData : Bool
  deriving DecidableEq

def Listener.zero : Listener :=
  ⟨0, 0, 0, 0, 0, 0, false, false, false, false, [], [], false, 0, 0, 0, 0, 0, false⟩

def Listener.sendBuffer (l : Listener) (buffer : List UInt8) : Listener :=
  { l with queue := l.queue ++ [buffer] }

@[irreducible] def Listener.awaitingDataToRead (l : Listener) : ℕ :=
  wsub l.bufferReadSizeAllocated l.bufferReadSize

@[irreducible] def Listener.sizeToAllocate (l : Listener) (g : Segment) : ℕ :=
  wsub (g.thSeq.toNat + g.data.length) l.sequenceReceive.toNat

def Listener.freshBuffer (stale : ℕ → UInt8) (l : Listener) (g : Segment) (size : ℕ) : Listener :=
  { l with
    bufferReadSizeAllocated := size
    bufferRead := freshBytes stale size
    isQueued := false
    bufferReadSize := 0
    startOffset := l.sequenceReceive
    smallestWriteOffset := g.thSeq }

/-- A segment when nothing is missing in the current buffer: a new one from `sequence_receive` to
the end of the segment. The flag is `ignore_data`. -/
def Listener.openBuffer (stale : ℕ → UInt8) (l : Listener) (g : Segment) : Listener × Bool :=
  if l.awaitingDataToRead = 0 then
    if l.sizeToAllocate g ≤ g.thWin.toNat then (l.freshBuffer stale g (l.sizeToAllocate g), false)
    else (l, true)
  else (l, false)

/-- `realloc` of the current buffer. -/
def Listener.reallocBuffer (stale : ℕ → UInt8) (l : Listener) (size : ℕ) : Listener :=
  { l with
    bufferRead := l.bufferRead ++ (freshBytes stale size).drop l.bufferRead.length
    bufferReadSizeAllocated := size }

/-- A segment that ends behind the current buffer. -/
def Listener.growBuffer (stale : ℕ → UInt8) (l : Listener) (g : Segment) (endSize : ℕ)
    (ignoreData : Bool) : Except Fault (Listener × Bool) :=
  if endSize > l.bufferReadSizeAllocated then
    if endSize ≤ g.thWin.toNat then
      if l.isQueued then .error .strayAccess
      else .ok (l.reallocBuffer stale endSize, ignoreData)
    else .ok (l, true)
  else .ok (l, ignoreData)

def Listener.setSmallest (l : Listener) (offset : UInt32) (size : ℕ) : Listener :=
  { l with smallestContinuousSize := size, smallestWriteOffset := offset }

/-- `smallest_write_offset` and `smallest_continuous_size`. -/
def Listener.updateSmallest (l : Listener) (g : Segment) : Listener :=
  if l.smallestWriteOffset.toNat > g.thSeq.toNat then
    l.setSmallest g.thSeq
      (if l.smallestWriteOffset.toNat = g.thSeq.toNat + g.data.length then
        wadd l.smallestContinuousSize g.data.length
      else g.data.length)
  else l

def Listener.setBuffer (l : Listener) (buffer : List UInt8) (size : ℕ) : Listener :=
  { l with bufferRead := buffer, bufferReadSize := size }

/-- The copy into the current buffer. -/
def Listener.copyData (l : Listener) (g : Segment) (offset : ℕ) : Except Fault Listener :=
  if offset + g.data.length ≤ l.bufferRead.length then
    .ok (l.setBuffer (splice l.bufferRead offset g.data) (wadd l.bufferReadSize g.data.length))
  else .error .strayAccess

/-- The whole buffer goes to the reader. -/
def Listener.sendAll (l : Listener) (receive : UInt32) : Listener :=
  { l.sendBuffer l.bufferRead with sequenceReceive := receive, isQueued := true }

/-- The first `low` bytes of the buffer go to the reader. -/
def Listener.sendLow (l : Listener) (low : ℕ) (receive start smallest : UInt32)
    (allocated size : ℕ) : Listener :=
  { l.sendBuffer (l.bufferRead.take low) with
    sequenceReceive := receive
    startOffset := start
    bufferReadSizeAllocated := allocated
    bufferRead := l.bufferRead.drop low
    bufferReadSize := size
    smallestContinuousSize := 0
    smallestWriteOffset := smallest }

/-- What is handed to the reader: the whole buffer, or the part before the first gap. The flag says
that an acknowledgement is due. -/
def Listener.deliver (l : Listener) (g : Segment) : Except Fault (Listener × Bool) :=
  if l.bufferReadSizeAllocated = l.bufferReadSize then
    .ok (l.sendAll (l.startOffset + UInt32.ofNat l.bufferReadSizeAllocated), true)
  else if l.smallestWriteOffset = l.startOffset then
    let low := l.smallestContinuousSize
    let start := l.startOffset + UInt32.ofNat low
    let allocated := wsub l.bufferReadSizeAllocated low
    if low > l.bufferRead.length then .error .strayAccess
    else .ok (l.sendLow low (UInt32.ofNat (g.thSeq.toNat + g.data.length)) start
      (start + UInt32.ofNat allocated) allocated (wsub l.bufferReadSize low), true)
  else .ok (l, false)

def Listener.setReceiving (l : Listener) : Listener := { l with isReceivingData := true }

/-- The data of a segment that is not ignored. -/
def Listener.storeData (l : Listener) (g : Segment) (offset : ℕ) : Except Fault (Listener × Bool) := do
  let l ← (l.setReceiving.updateSmallest g).copyData g offset
  l.deliver g

/-- A segment that starts at or behind the start of the current buffer. -/
def Listener.writeData (stale : ℕ → UInt8) (l : Listener) (g : Segment) (ignoreData : Bool) :
    Except Fault (Listener × Bool) := do
  let offset := g.thSeq.toNat - l.startOffset.toNat
  let r ← l.growBuffer stale g (offset + g.data.length) ignoreData
  if r.2 then .ok (r.1, false) else r.1.storeData g offset

/-- The part of the handler for segments with data. -/
def Listener.receiveData (stale : ℕ → UInt8) (l : Listener) (g : Segment) :
    Except Fault (Listener × Bool) :=
  if g.data = [] then .ok (l, false)
  else
    let r := l.openBuffer stale g
    if r.1.startOffset.toNat ≤ g.thSeq.toNat then r.1.writeData stale g r.2
    else .ok (r.1, false)

def Listener.setSequences (l : Listener) (receive send : UInt32) : Listener :=
  { l with sequenceReceive := receive, sequenceSend := send }

/-- The flags of a segment before its data is looked at. -/
def Listener.processFlags (l : Listener) (g : Segment) : Listener :=
  let l := if l.sequenceWaitingForAck ≠ 0 ∧ g.ack then { l with sequenceWaitingForAck := 0 } else l
  let l := if g.rst then { l with isReset := true } else l
  if g.syn then { l.setSequences (g.thSeq + 1) (l.sequenceSend + 1) with isAccept := true } else l

def Listener.processFin (l : Listener) (g : Segment) : Listener :=
  if g.fin then { l.setSequences (l.sequenceReceive + 1) (l.sequenceSend + 1) with isFin := true }
  else l

def Listener.acknowledgement (l : Listener) : Packet :=
  ⟨l.ipAddress, l.destinationPort, l.sourcePort, l.sequenceSend, l.sequenceReceive, false, false, []⟩

/-- `tcp_socket_handler` once the record has been found. -/
def Listener.process (stale : ℕ → UInt8) (l : Listener) (g : Segment) :
    Except Fault (Listener × Option Packet) := do
  let r ← (l.processFlags g).receiveData stale g
  let l := r.1.processFin g
  .ok (l, if g.syn || r.2 || g.fin then some l.acknowledgement else none)

/-- The record without its receiving side. -/
structure Frame where
  ipAddress : UInt32
  destinationPort : UInt16
  sourcePort : UInt16
  sequenceSend : UInt32
  sequenceWaitingForAck : UInt32
  isWaitingForAccept : Bool

def Listener.frame (l : Listener) : Frame :=
  ⟨l.ipAddress, l.destinationPort, l.sourcePort, l.sequenceSend, l.sequenceWaitingForAck,
    l.isWaitingForAccept⟩

variable {stale : ℕ → UInt8} {l l' : Listener} {g : Segment}

theorem Listener.freshBuffer_frame (l : Listener) (n : ℕ) :
    (l.freshBuffer stale g n).frame = l.frame := rfl

theorem Listener.openBuffer_frame (l : Listener) : (l.openBuffer stale g).1.frame = l.frame := by
  unfold openBuffer
  split_ifs
  · exact freshBuffer_frame ..
  · rfl
  · rfl

theorem Listener.growBuffer_frame {n : ℕ} {ig : Bool} {r : Listener × Bool}
    (h : l.growBuffer stale g n ig = .ok r) : r.1.frame = l.frame := by
  unfold growBuffer at h
  split_ifs at h <;> obtain rfl := Except.ok.inj h <;> rfl

theorem Listener.updateSmallest_frame (l : Listener) : (l.updateSmallest g).frame = l.frame := by
  unfold updateSmallest
  split_ifs <;> rfl

theorem Listener.copyData_frame {n : ℕ} (h : l.copyData g n = .ok l') : l'.frame = l.frame := by
  unfold copyData at h
  split_ifs at h
  cases h
  rfl

theorem Listener.deliver_frame {b : Bool} (h : l.deliver g = .ok (l', b)) : l'.frame = l.frame := by
  simp only [deliver] at h
  split_ifs at h <;> obtain ⟨rfl, _⟩ := Prod.mk.inj (Except.ok.inj h) <;> rfl

theorem Listener.receiveData_frame {b : Bool} (h : l.receiveData stale g = .ok (l', b)) :
    l'.frame = l.frame := by
  simp only [receiveData] at h
  split_ifs at h
  · obtain ⟨rfl, _⟩ := Prod.mk.inj (Except.ok.inj h)
    rfl
  · obtain ⟨r, hg, h⟩ := Kernel.bind_eq_ok h
    have hframe := (growBuffer_frame hg).trans (openBuffer_frame l)
    split_ifs at h
    · obtain ⟨rfl, _⟩ := Prod.mk.inj (Except.ok.inj h)
      exact hframe
    · obtain ⟨l2, hc, h⟩ := Kernel.bind_eq_ok h
      rw [deliver_frame h, copyData_frame hc, updateSmallest_frame]
      exact hframe
  · obtain ⟨rfl, _⟩ := Prod.mk.inj (Except.ok.inj h)
    exact openBuffer_frame l

end Kot.Net
