import Kot.Lib.Run
import Kot.Net.Tcp

/-! Sending on a TCP connection (`socket_general_send_handler`, the same for connected and accepted
sockets): the sender waits for `sequence_waiting_for_ack` to be cleared by the packet handler. -/
namespace Kot.Net.TcpSend

open Kot.Kernel Kot.Lib

def tcpTimeOut : ℕ := 10000

def tcpTimeRetransmission : ℕ := 1000

/-- Where the sender is: before the condition of its loop, waiting, or behind the wait. -/
inductive Phase
  | top
  | wait
  | check
  deriving DecidableEq

/-- A call in progress, with the sequence number of its first byte and the acknowledgement numbers
received since its data was first transmitted. -/
structure Sender where
  data : List UInt8
  timeCount : ℕ
  phase : Phase
  start : UInt32
  isTransmitted : Bool
  acks : List UInt32

/-- A call that has succeeded: its first sequence number and size, what had been acknowledged, and
`sequence_send` behind it with the number of bytes sent up to then. -/
structure Success where
  start : UInt32
  size : ℕ
  acks : List UInt32
  sequenceSend : UInt32
  sent : ℕ
  deriving DecidableEq

structure State where
  listener : Listener
  sender : Option Sender
  transmitted : List Packet
  sent : ℕ
  successes : List Success
  /-- `sequence_send` at the start -/
  initial : UInt32

inductive Event
  /-- a segment of the peer; `stale` is what fresh blocks hold -/
  | segment (g : Segment) (stale : ℕ → UInt8)
  | send (data : List UInt8)
  /-- the sender goes on -/
  | turn

def Listener.dataPacket (l : Listener) (data : List UInt8) : Packet :=
  ⟨l.ipAddress, l.destinationPort, l.sourcePort, l.sequenceSend, l.sequenceReceive, false, true, data⟩

def Listener.setWaiting (l : Listener) (seq : UInt32) : Listener :=
  { l with sequenceWaitingForAck := seq }

def Listener.setSend (l : Listener) (seq : UInt32) : Listener := { l with sequenceSend := seq }

def State.turn (s : State) (r : Sender) : State :=
  match r.phase with
  | .top =>
    if r.timeCount < tcpTimeOut then
      { s with
        transmitted := s.transmitted ++ [Listener.dataPacket s.listener r.data]
        sender := some { r with phase := .wait, isTransmitted := true } }
    else { s with sender := none }
  | .wait =>
    if s.listener.sequenceWaitingForAck ≠ 0 then
      { s with sender := some { r with
          timeCount := r.timeCount + 1
          phase := if (r.timeCount + 1) % tcpTimeRetransmission = 0 then .check else .wait } }
    else { s with sender := some { r with phase := .check } }
  | .check =>
    if s.listener.sequenceWaitingForAck = 0 then
      let send := s.listener.sequenceSend + UInt32.ofNat r.data.length
      { s with
        listener := Listener.setSend s.listener send
        sender := none
        sent := s.sent + r.data.length
        successes := s.successes ++ [⟨r.start, r.data.length, r.acks, send, s.sent + r.data.length⟩] }
    else { s with sender := some { r with phase := .top } }

/-- The acknowledgement of a segment is noted by a call whose data is on its way. -/
def Sender.note (r : Sender) (g : Segment) : Sender :=
  if g.ack ∧ r.isTransmitted then { r with acks := r.acks ++ [g.thAck] } else r

def State.step (s : State) : Event → Option State
  | .segment g stale =>
    match s.listener.process stale g with
    | .ok (l, _) => some { s with listener := l, sender := s.sender.map (·.note g) }
    | .error _ => none
  | .send data =>
    match s.sender with
    | none => some { s with
        listener := Listener.setWaiting s.listener s.listener.sequenceSend
        sender := some ⟨data, 0, .top, s.listener.sequenceSend, false, []⟩ }
    | some _ => none
  | .turn => s.sender.map s.turn

def Step (s : State) (e : Event) (t : State) : Prop := s.step e = some t

def State.start (l : Listener) : State := ⟨l, none, [], 0, [], l.sequenceSend⟩

/-- An acknowledgement number that covers `size` bytes from `start` on. -/
def Covers (start : UInt32) (size : ℕ) (ack : UInt32) : Prop := size ≤ (ack - start).toNat

instance (start : UInt32) (size : ℕ) (ack : UInt32) : Decidable (Covers start size ack) :=
  inferInstanceAs (Decidable (_ ≤ _))

def Acknowledged (s : State) : Prop :=
  ∀ r ∈ s.successes, (∃ ack ∈ r.acks, Covers r.start r.size ack) ∧
    r.sequenceSend = s.initial + UInt32.ofNat r.sent

/-- A segment has no SYN or FIN, and one that acknowledges while the sender waits comes after the
transmission and covers the data; a call does not start at sequence number zero. -/
def Orderly (s : State) : Event → Prop
  | .segment g _ => g.syn = false ∧ g.fin = false ∧
      (s.listener.sequenceWaitingForAck ≠ 0 → g.ack = true → ∀ r ∈ s.sender,
        r.isTransmitted = true ∧ Covers r.start r.data.length g.thAck)
  | .send _ => s.listener.sequenceSend ≠ 0
  | .turn => True

instance (s : State) : (e : Event) → Decidable (Orderly s e)
  | .segment g _ => inferInstanceAs (Decidable (g.syn = false ∧ g.fin = false ∧
      (s.listener.sequenceWaitingForAck ≠ 0 → g.ack = true → ∀ r ∈ s.sender,
        r.isTransmitted = true ∧ Covers r.start r.data.length g.thAck)))
  | .send _ => inferInstanceAs (Decidable (_ ≠ _))
  | .turn => .isTrue trivial

/-- `sequence_send` and `sequence_waiting_for_ack`. -/
def numbers (l : Listener) : UInt32 × UInt32 := (l.sequenceSend, l.sequenceWaitingForAck)

variable {stale : ℕ → UInt8} {l l' : Listener} {g : Segment}

theorem numbers_of_frame (h : l'.frame = l.frame) : numbers l' = numbers l :=
  congrArg (fun f : Frame => (f.sequenceSend, f.sequenceWaitingForAck)) h

/-- A segment without SYN and FIN clears `sequence_waiting_for_ack` or leaves both numbers alone. -/
theorem process_numbers {p : Option Packet} (hsyn : g.syn = false) (hfin : g.fin = false)
    (h : l.process stale g = .ok (l', p)) : l'.sequenceSend = l.sequenceSend ∧
      l'.sequenceWaitingForAck =
        if l.sequenceWaitingForAck ≠ 0 ∧ g.ack = true then 0 else l.sequenceWaitingForAck := by
  obtain ⟨r, hr, h⟩ := Kernel.bind_eq_ok h
  obtain ⟨rfl, _⟩ := Prod.mk.inj (Except.ok.inj h)
  have hframe := numbers_of_frame (Listener.receiveData_frame hr)
  simp only [numbers, Prod.mk.injEq] at hframe
  simp only [Listener.processFin, hfin, Bool.false_eq_true, if_false]
  rw [hframe.1, hframe.2]
  simp only [Listener.processFlags, hsyn, Bool.false_eq_true, if_false]
  constructor
  · split_ifs <;> rfl
  · split_ifs <;> rfl

variable {s t : State} {e : Event}

/-- What holds while the steps meet their condition. -/
structure Sound (s : State) : Prop where
  acknowledged : Acknowledged s
  sent : s.listener.sequenceSend = s.initial + UInt32.ofNat s.sent
  /-- the wait of a call ends with an acknowledgement of its data -/
  waits : ∀ r ∈ s.sender, r.start = s.listener.sequenceSend ∧
    (s.listener.sequenceWaitingForAck = 0 → ∃ ack ∈ r.acks, Covers r.start r.data.length ack)

theorem Sender.note_eq (r : Sender) (g : Segment) :
    (r.note g).start = r.start ∧ (r.note g).data = r.data ∧ ∀ ack ∈ r.acks, ack ∈ (r.note g).acks := by
  unfold Sender.note
  split_ifs
  · exact ⟨rfl, rfl, fun ack h => List.mem_append_left _ h⟩
  · exact ⟨rfl, rfl, fun ack h => h⟩

theorem Sound.segment (h : Sound s) (hc : Orderly s (.segment g stale))
    (hs : Step s (.segment g stale) t) : Sound t := by
  obtain ⟨hsyn, hfin, hack⟩ := hc
  simp only [Step, State.step] at hs
  split at hs
  · rename_i l p hp
    cases hs
    obtain ⟨hsend, hwait⟩ := process_numbers hsyn hfin hp
    refine ⟨h.acknowledged, hsend.trans h.sent, fun r' hr' => ?_⟩
    obtain ⟨r, hr, rfl⟩ := Option.map_eq_some_iff.mp hr'
    obtain ⟨hstart, hdone⟩ := h.waits r hr
    obtain ⟨hnote, hdata, hacks⟩ := Sender.note_eq r g
    refine ⟨by rw [hnote, hsend, hstart], fun hzero => ?_⟩
    rw [hnote, hdata]
    by_cases hclear : s.listener.sequenceWaitingForAck ≠ 0 ∧ g.ack = true
    · obtain ⟨htrans, hcov⟩ := hack hclear.1 hclear.2 r hr
      refine ⟨g.thAck, ?_, hcov⟩
      simp [Sender.note, hclear.2, htrans]
    · rw [if_neg hclear] at hwait
      obtain ⟨ack, hmem, hcov⟩ := hdone (hwait ▸ hzero)
      exact ⟨ack, hacks ack hmem, hcov⟩
  · cases hs

theorem Sound.goesOn (h : Sound s) {r r' : Sender} (hr : s.sender = some r)
    (hstart : r'.start = r.start) (hdata : r'.data = r.data) (hacks : r'.acks = r.acks)
    (ps : List Packet) : Sound { s with transmitted := ps, sender := some r' } := by
  refine ⟨h.acknowledged, h.sent, ?_⟩
  rintro q ⟨⟩
  rw [hstart, hdata, hacks]
  exact h.waits r hr

theorem Sound.turn (h : Sound s) {r : Sender} (hr : s.sender = some r) : Sound (s.turn r) := by
  unfold State.turn
  split
  · split_ifs
    · refine h.goesOn hr ?_ ?_ ?_ _ <;> rfl
    · exact ⟨h.acknowledged, h.sent, by simp⟩
  · by_cases hzero : s.listener.sequenceWaitingForAck ≠ 0
    · rw [if_pos hzero]
      refine h.goesOn hr ?_ ?_ ?_ _ <;> rfl
    · rw [if_neg hzero]
      refine h.goesOn hr ?_ ?_ ?_ _ <;> rfl
  · split_ifs with hzero
    · have hsend : s.listener.sequenceSend + UInt32.ofNat r.data.length =
          s.initial + UInt32.ofNat (s.sent + r.data.length) := by
        rw [h.sent, UInt32.ofNat_add, UInt32.add_assoc]
      refine ⟨fun q hq => ?_, hsend, by simp⟩
      rcases List.mem_append.mp hq with hq | hq
      · exact h.acknowledged q hq
      · obtain rfl := List.mem_singleton.mp hq
        exact ⟨(h.waits r hr).2 hzero, hsend⟩
    · refine h.goesOn hr ?_ ?_ ?_ _ <;> rfl

theorem Sound.step (h : Sound s) (hs : Step s e t) (hc : Orderly s e) : Sound t := by
  cases e with
  | segment g stale => exact h.segment hc hs
  | send data =>
    simp only [Step, State.step] at hs
    split at hs
    · cases hs
      refine ⟨h.acknowledged, h.sent, ?_⟩
      rintro r ⟨⟩
      exact ⟨rfl, fun hzero => absurd hzero hc⟩
    · cases hs
  | turn =>
    obtain ⟨r, hr, rfl⟩ := Option.map_eq_some_iff.mp hs
    exact h.turn hr

/-- A connection with the given `sequence_send`. -/
def sampleListener (send : UInt32) : Listener := { Listener.zero with sequenceSend := send }

def ackSegment (ack : UInt32) : Segment := ⟨1, 80, 1024, 5, ack, 65535, false, true, false, false, []⟩

end Kot.Net.TcpSend
