import Kot.Lib.Run
import Kot.Net.Tcp

/-! A listening socket: the slots that SYN segments take, the segments that go to a slot, and
`accept`. -/
namespace Kot.Net

open Kot.Kernel Kot.Lib List Listener

def minListeningPort : UInt16 := 1024

def maxListeningPort : UInt16 := 65535

/-- `allocate_port`: the port, and the next one. -/
def allocatePort (last : UInt16) : UInt16 × UInt16 :=
  (last, if last = maxListeningPort then minListeningPort else last + 1)

/-- A listening socket: its address, `socket_tcp_data_t` and the port counter of the module. -/
structure Listening where
  sinPort : UInt16
  listenAllowCount : ℕ
  listenAcceptCount : ℕ
  listeners : List Listener
  lastAllocatedPort : UInt16

def socketListenHandler (sinPort : UInt16) (backlog : ℕ) (last : UInt16) : Listening :=
  ⟨sinPort, backlog, 0, List.replicate backlog .zero, last⟩

def getTcpListener (listenAcceptCount : ℕ) (listeners : List Listener) (ipAddress : UInt32)
    (port : UInt16) : Option ℕ :=
  (listeners.take listenAcceptCount).findIdx? fun l => l.ipAddress == ipAddress && l.sourcePort == port

/-- A slot taken by a SYN segment. -/
def Listener.take (l : Listener) (g : Segment) (port : UInt16) : Listener :=
  { l with
    ipAddress := g.saddr
    destinationPort := g.thSport
    sourcePort := htons port
    sequenceReceive := g.thSeq
    isWaitingForAccept := true
    queue := [] }

/-- A segment that belongs to no slot. -/
def Listening.passiveOpen (s : Listening) (g : Segment) : Listening :=
  if g.syn ∧ s.listenAcceptCount < s.listenAllowCount then
    match s.listeners.findIdx? (! ·.isWaitingForAccept) with
    | some i =>
      let (port, last) := allocatePort s.lastAllocatedPort
      { s with
        listeners := s.listeners.modify i (·.take g port)
        lastAllocatedPort := last
        listenAcceptCount := s.listenAcceptCount + 1 }
    | none => { s with listenAcceptCount := s.listenAcceptCount + 1 }
  else s

/-- `tcp_socket_handler`, with the slot that took the segment. -/
def Listening.tcpSocketHandler (stale : ℕ → UInt8) (s : Listening) (g : Segment) :
    Except Fault (Listening × Option Listener) :=
  match getTcpListener s.listenAcceptCount s.listeners g.saddr g.thDport with
  | none => .ok (s.passiveOpen g, none)
  | some i =>
    match s.listeners[i]? with
    | none => .error .strayAccess
    | some l => do
      let r ← l.process stale g
      .ok ({ s with listeners := s.listeners.set i r.1 }, some l)

/-- `socket_accept_handler` for the slot that its loop has found. -/
def Listener.accept (l : Listener) : Listener × Packet :=
  let l := { l with
    isFin := false
    isAccept := true
    sequenceSend := 0
    sequenceReceive := l.sequenceReceive + 1 }
  ({ l with sequenceSend := l.sequenceSend + 1 },
    ⟨l.ipAddress, l.destinationPort, l.sourcePort, l.sequenceSend, l.sequenceReceive, true, false, []⟩)

/-- The socket, the segments that slots have taken and the packets sent on `accept`. -/
structure System where
  sock : Listening
  processed : List (Segment × Listener)
  synAcks : List Packet

inductive Event
  /-- a segment to the port of the socket; `stale` is what fresh blocks hold -/
  | segment (g : Segment) (stale : ℕ → UInt8)
  /-- a call of `accept` whose loop comes to rest at a slot -/
  | accept (index : ℕ)

def System.step (s : System) : Event → Option System
  | .segment g stale =>
    if g.thDport = s.sock.sinPort then
      match s.sock.tcpSocketHandler stale g with
      | .ok (sock, slot) => some { s with sock, processed := s.processed ++ slot.toList.map (g, ·) }
      | .error _ => none
    else none
  | .accept i =>
    match s.sock.listeners[i]? with
    | none => none
    | some l =>
      if l.isWaitingForAccept ∧ ¬ l.isAccept then
        some { s with
          sock := { s.sock with listeners := s.sock.listeners.set i l.accept.1 }
          synAcks := s.synAcks ++ [l.accept.2] }
      else none

def System.Step (s : System) (e : Event) (t : System) : Prop := s.step e = some t

/-- Where a slot says its peer is. -/
def Listener.peer (l : Listener) : UInt32 × UInt16 := (l.ipAddress, l.destinationPort)

/-- Where a segment comes from. -/
def Segment.peer (g : Segment) : UInt32 × UInt16 := (g.saddr, g.thSport)

structure Demultiplexed (s : System) : Prop where
  one : ∀ (i j : ℕ) (l m : Listener), s.sock.listeners[i]? = some l → s.sock.listeners[j]? = some m →
    l.isWaitingForAccept = true → m.isWaitingForAccept = true → l.peer = m.peer → i = j
  count : s.sock.listenAcceptCount = s.sock.listeners.countP (·.isWaitingForAccept)
  allowed : s.sock.listenAcceptCount ≤ s.sock.listenAllowCount
  own : ∀ g l, (g, l) ∈ s.processed → l.peer = g.peer
  addressed : ∀ p ∈ s.synAcks, p.sport = s.sock.sinPort

/-- What a step needs: a segment goes to a slot of its peer, a SYN takes a slot only for a peer that
has none, and `accept` finds a slot with the port of the socket. -/
def Orderly (s : System) : Event → Prop
  | .segment g _ =>
    match getTcpListener s.sock.listenAcceptCount s.sock.listeners g.saddr g.thDport with
    | some i => ∀ l ∈ s.sock.listeners[i]?, l.peer = g.peer
    | none => g.syn = true → s.sock.listenAcceptCount < s.sock.listenAllowCount →
        ∀ l ∈ s.sock.listeners, l.isWaitingForAccept = true → l.peer ≠ g.peer
  | .accept i => ∀ l ∈ s.sock.listeners[i]?, l.sourcePort = s.sock.sinPort

instance (s : System) : (e : Event) → Decidable (Orderly s e)
  | .segment g _ =>
    match h : getTcpListener s.sock.listenAcceptCount s.sock.listeners g.saddr g.thDport with
    | some i => decidable_of_iff (∀ l ∈ s.sock.listeners[i]?, l.peer = g.peer)
        (by simp only [Orderly, h])
    | none => decidable_of_iff (g.syn = true → s.sock.listenAcceptCount < s.sock.listenAllowCount →
        ∀ l ∈ s.sock.listeners, l.isWaitingForAccept = true → l.peer ≠ g.peer)
        (by simp only [Orderly, h])
  | .accept i => inferInstanceAs (Decidable (∀ l ∈ s.sock.listeners[i]?, l.sourcePort = s.sock.sinPort))

def Listener.slot (l : Listener) : UInt32 × UInt16 × UInt16 × Bool :=
  (l.ipAddress, l.destinationPort, l.sourcePort, l.isWaitingForAccept)

variable {stale : ℕ → UInt8} {l l' : Listener} {g : Segment}

theorem Listener.slot_of_frame (h : l'.frame = l.frame) : l'.slot = l.slot :=
  congrArg (fun f : Frame =>
    (f.ipAddress, f.destinationPort, f.sourcePort, f.isWaitingForAccept)) h

theorem Listener.processFlags_slot (l : Listener) : (l.processFlags g).slot = l.slot := by
  simp only [processFlags]
  split_ifs <;> rfl

theorem Listener.processFin_slot (l : Listener) : (l.processFin g).slot = l.slot := by
  unfold processFin
  split_ifs <;> rfl

theorem Listener.process_slot {p : Option Packet} (h : l.process stale g = .ok (l', p)) :
    l'.slot = l.slot := by
  obtain ⟨r, hr, h⟩ := Kernel.bind_eq_ok h
  obtain ⟨rfl, _⟩ := Prod.mk.inj (Except.ok.inj h)
  rw [processFin_slot, slot_of_frame (receiveData_frame hr), processFlags_slot]

/-- The slots in use are the first ones. -/
structure Filled (s : Listening) : Prop where
  length : s.listeners.length = s.listenAllowCount
  le : s.listenAcceptCount ≤ s.listenAllowCount
  used : ∀ i l, s.listeners[i]? = some l → (l.isWaitingForAccept = true ↔ i < s.listenAcceptCount)

/-- What one step does to the slots. -/
inductive Change (s t : System) : Event → Prop
  | nothing {g : Segment} {stale : ℕ → UInt8} (h : getTcpListener s.sock.listenAcceptCount s.sock.listeners g.saddr
        g.thDport = none)
      (hnew : ¬ (g.syn = true ∧ s.sock.listenAcceptCount < s.sock.listenAllowCount)) (ht : t = s) :
      Change s t (.segment g stale)
  | taken {g : Segment} {stale : ℕ → UInt8} {l : Listener} (h : getTcpListener s.sock.listenAcceptCount s.sock.listeners
        g.saddr g.thDport = none)
      (hsyn : g.syn = true) (hlt : s.sock.listenAcceptCount < s.sock.listenAllowCount)
      (hl : s.sock.listeners[s.sock.listenAcceptCount]? = some l) (port : UInt16)
      (hlisteners : t.sock.listeners = s.sock.listeners.set s.sock.listenAcceptCount (l.take g port))
      (hcount : t.sock.listenAcceptCount = s.sock.listenAcceptCount + 1)
      (hallow : t.sock.listenAllowCount = s.sock.listenAllowCount)
      (hport : t.sock.sinPort = s.sock.sinPort) (hprocessed : t.processed = s.processed)
      (hsent : t.synAcks = s.synAcks) : Change s t (.segment g stale)
  | processed {g : Segment} {stale : ℕ → UInt8} {i : ℕ} {l l' : Listener}
      (h : getTcpListener s.sock.listenAcceptCount s.sock.listeners g.saddr g.thDport = some i)
      (hl : s.sock.listeners[i]? = some l) (hslot : l'.slot = l.slot)
      (ht : t = { s with
        sock := { s.sock with listeners := s.sock.listeners.set i l' }
        processed := s.processed ++ [(g, l)] }) : Change s t (.segment g stale)
  | accepted {i : ℕ} {l : Listener} (hl : s.sock.listeners[i]? = some l)
      (ht : t = { s with
        sock := { s.sock with listeners := s.sock.listeners.set i l.accept.1 }
        synAcks := s.synAcks ++ [l.accept.2] }) : Change s t (.accept i)

variable {s t : System} {e : Event}

theorem Filled.findIdx (h : Filled s.sock) (hlt : s.sock.listenAcceptCount < s.sock.listenAllowCount) :
    s.sock.listeners.findIdx? (! ·.isWaitingForAccept) = some s.sock.listenAcceptCount := by
  have hlen := h.length
  rw [findIdx?_eq_some_iff_getElem]
  refine ⟨by omega, ?_, fun j hj => ?_⟩
  · have := (h.used _ _ (getElem?_eq_getElem (by omega))).not.mpr (Nat.lt_irrefl _)
    simpa using this
  · have := (h.used j _ (getElem?_eq_getElem (by omega))).mpr hj
    simpa using this

theorem step_change (hf : Filled s.sock) (h : System.Step s e t) : Change s t e := by
  cases e with
  | segment g stale =>
    simp only [System.Step, System.step] at h
    split_ifs at h with hport
    unfold Listening.tcpSocketHandler at h
    split at h
    · rename_i sock slot hhandler
      split at hhandler
      · rename_i hfind
        cases hhandler
        cases h
        unfold Listening.passiveOpen
        split_ifs with hnew
        · rw [hf.findIdx hnew.2]
          have hlen := hf.length
          have hl := getElem?_eq_getElem (l := s.sock.listeners)
            (i := s.sock.listenAcceptCount) (by omega)
          refine .taken hfind hnew.1 hnew.2 hl (allocatePort s.sock.lastAllocatedPort).1 ?_ rfl rfl rfl
            (by simp) rfl
          change s.sock.listeners.modify s.sock.listenAcceptCount _ = _
          rw [modify_eq_set_getElem?, hl]
          rfl
        · exact .nothing hfind hnew (by simp)
      · rename_i i hfind
        split at hhandler
        · cases hhandler
        · rename_i l hl
          obtain ⟨⟨l', p⟩, hp, hhandler⟩ := Kernel.bind_eq_ok hhandler
          cases hhandler
          cases h
          exact .processed hfind hl (Listener.process_slot hp) (by simp)
    · cases h
  | accept i =>
    simp only [System.Step, System.step] at h
    split at h
    · cases h
    · rename_i l hl
      split_ifs at h
      cases h
      exact .accepted hl rfl

theorem Listener.accept_slot (l : Listener) : l.accept.1.slot = l.slot := rfl

def SameSlots (s t : System) : Prop :=
  t.sock.listeners.map Listener.slot = s.sock.listeners.map Listener.slot

theorem SameSlots.get (h : SameSlots s t) {i : ℕ} {m : Listener}
    (hm : t.sock.listeners[i]? = some m) : ∃ l, s.sock.listeners[i]? = some l ∧ m.slot = l.slot := by
  have hi := congrArg (·[i]?) h
  simp only [getElem?_map, hm, Option.map_some] at hi
  obtain ⟨l, hl, hslot⟩ := Option.map_eq_some_iff.mp hi.symm
  exact ⟨l, hl, hslot.symm⟩

theorem sameSlots_set {i : ℕ} (hl : s.sock.listeners[i]? = some l) (hslot : l'.slot = l.slot)
    (ht : t.sock.listeners = s.sock.listeners.set i l') : SameSlots s t := by
  unfold SameSlots
  rw [ht, map_set, hslot]
  apply ext_getElem?
  intro j
  rw [getElem?_set, getElem?_map]
  split_ifs with hij hlt
  · rw [← hij, hl]
    rfl
  · rw [← hij, getElem?_eq_none (by simpa using hlt)]
    rfl
  · rfl

theorem Listener.waiting_of_slot {m : Listener} (h : m.slot = l.slot) :
    m.isWaitingForAccept = l.isWaitingForAccept :=
  congrArg (·.2.2.2) h

theorem Listener.peer_of_slot {m : Listener} (h : m.slot = l.slot) : m.peer = l.peer :=
  congrArg (fun x => (x.1, x.2.1)) h

theorem filled_start {port : UInt16} {backlog : ℕ} {last : UInt16} :
    Filled (socketListenHandler port backlog last) where
  length := length_replicate
  le := Nat.zero_le _
  used i l hl := by
    obtain rfl := eq_of_mem_replicate (mem_of_getElem? hl)
    simp [zero, socketListenHandler]

theorem Filled.of_sameSlots (h : Filled s.sock) (hs : SameSlots s t)
    (hlen : t.sock.listeners.length = s.sock.listeners.length)
    (hallow : t.sock.listenAllowCount = s.sock.listenAllowCount)
    (hcount : t.sock.listenAcceptCount = s.sock.listenAcceptCount) : Filled t.sock := by
  refine ⟨by rw [hlen, hallow, h.length], by rw [hcount, hallow]; exact h.le, fun i m hm => ?_⟩
  obtain ⟨l, hl, hslot⟩ := hs.get hm
  rw [waiting_of_slot hslot, hcount]
  exact h.used i l hl

theorem Filled.change (h : Filled s.sock) (hc : Change s t e) : Filled t.sock := by
  cases hc with
  | nothing _ _ ht => exact ht ▸ h
  | taken _ _ hlt hl port hlisteners hcount hallow =>
    refine ⟨by rw [hlisteners, length_set, h.length, hallow], by omega, fun i m hm => ?_⟩
    rw [hlisteners, getElem?_set] at hm
    split_ifs at hm with hij hi
    · cases hm
      simp only [Listener.take, true_iff]
      omega
    · rw [h.used i m hm]
      omega
  | processed _ hl hslot ht =>
    subst ht
    exact h.of_sameSlots (sameSlots_set hl hslot rfl) (length_set ..) rfl rfl
  | accepted hl ht =>
    subst ht
    exact h.of_sameSlots (sameSlots_set hl (Listener.accept_slot _) rfl) (length_set ..) rfl rfl

theorem Filled.count_eq (h : Filled s.sock) :
    s.sock.listenAcceptCount = s.sock.listeners.countP (·.isWaitingForAccept) := by
  have hlen := h.length
  have hle := h.le
  rw [← take_append_drop s.sock.listenAcceptCount s.sock.listeners, countP_append,
    countP_eq_length.mpr, countP_eq_zero.mpr, length_take]
  · omega
  · intro l hl
    obtain ⟨i, hi⟩ := mem_iff_getElem?.mp hl
    rw [getElem?_drop] at hi
    rw [h.used _ l hi]
    omega
  · intro l hl
    obtain ⟨i, hi⟩ := mem_iff_getElem?.mp hl
    rw [getElem?_take] at hi
    split_ifs at hi with hlt
    exact (h.used i l hi).mpr hlt

/-- The part of the property that a step can break. -/
structure Separate (s : System) : Prop where
  one : ∀ (i j : ℕ) (l m : Listener), s.sock.listeners[i]? = some l →
    s.sock.listeners[j]? = some m → l.isWaitingForAccept = true → m.isWaitingForAccept = true →
    l.peer = m.peer → i = j
  own : ∀ g l, (g, l) ∈ s.processed → l.peer = g.peer
  addressed : ∀ p ∈ s.synAcks, p.sport = s.sock.sinPort

theorem Separate.one_of_sameSlots (h : Separate s) (hs : SameSlots s t) (i j : ℕ) (l m : Listener)
    (hl : t.sock.listeners[i]? = some l) (hm : t.sock.listeners[j]? = some m)
    (hlw : l.isWaitingForAccept = true) (hmw : m.isWaitingForAccept = true)
    (hp : l.peer = m.peer) : i = j := by
  obtain ⟨l0, hl0, hls⟩ := hs.get hl
  obtain ⟨m0, hm0, hms⟩ := hs.get hm
  refine h.one i j l0 m0 hl0 hm0 ?_ ?_ ?_
  · rw [← waiting_of_slot hls, hlw]
  · rw [← waiting_of_slot hms, hmw]
  · rw [← peer_of_slot hls, hp, peer_of_slot hms]

theorem Separate.change (h : Separate s) (hc : Change s t e) (ho : Orderly s e) : Separate t := by
  cases hc with
  | nothing _ _ ht => exact ht ▸ h
  | @taken g _ l0 hfind hsyn hlt hl port hlisteners hcount hallow hport hprocessed hsent =>
    simp only [Orderly, hfind] at ho
    have hnew : ∀ (i : ℕ) (l : Listener), t.sock.listeners[i]? = some l →
        i = s.sock.listenAcceptCount ∧ l.peer = g.peer ∨
          i ≠ s.sock.listenAcceptCount ∧ s.sock.listeners[i]? = some l := by
      intro i l hi
      rw [hlisteners, getElem?_set] at hi
      split_ifs at hi with hij hlen
      · cases hi
        exact .inl ⟨hij.symm, rfl⟩
      · exact .inr ⟨fun h => hij h.symm, hi⟩
    refine ⟨fun i j l m hi hj hlw hmw hp => ?_, hprocessed ▸ h.own, ?_⟩
    · rcases hnew i l hi with ⟨rfl, hlp⟩ | ⟨hine, hi⟩ <;>
        rcases hnew j m hj with ⟨rfl, hmp⟩ | ⟨hjne, hj⟩
      · rfl
      · exact absurd (hp.symm.trans hlp) (ho hsyn hlt m (mem_of_getElem? hj) hmw)
      · exact absurd (hp.trans hmp) (ho hsyn hlt l (mem_of_getElem? hi) hlw)
      · exact h.one i j l m hi hj hlw hmw hp
    · rw [hsent, hport]
      exact h.addressed
  | @processed g _ i l l' hfind hl hslot ht =>
    simp only [Orderly, hfind] at ho
    subst ht
    refine ⟨h.one_of_sameSlots (sameSlots_set hl hslot rfl), fun g' m hm => ?_, h.addressed⟩
    rcases mem_append.mp hm with hm | hm
    · exact h.own g' m hm
    · obtain ⟨rfl, rfl⟩ : g' = g ∧ m = l := by simpa using hm
      exact ho m hl
  | accepted hl ht =>
    subst ht
    refine ⟨h.one_of_sameSlots (sameSlots_set hl (Listener.accept_slot _) rfl), h.own, fun p hp => ?_⟩
    rcases mem_append.mp hp with hp | hp
    · exact h.addressed p hp
    · obtain rfl := mem_singleton.mp hp
      exact ho _ hl

theorem Separate.of_change (h : Separate t) (hf : Filled s.sock) (hc : Change s t e) : Separate s := by
  cases hc with
  | nothing _ _ ht => exact ht ▸ h
  | @taken g _ l0 hfind hsyn hlt hl port hlisteners hcount hallow hport hprocessed hsent =>
    have hold : ∀ (i : ℕ) (l : Listener), s.sock.listeners[i]? = some l →
        l.isWaitingForAccept = true → t.sock.listeners[i]? = some l := by
      intro i l hi hw
      have := (hf.used i l hi).mp hw
      rw [hlisteners, getElem?_set, if_neg (by omega), hi]
    refine ⟨fun i j l m hi hj hlw hmw hp =>
      h.one i j l m (hold i l hi hlw) (hold j m hj hmw) hlw hmw hp, hprocessed ▸ h.own, ?_⟩
    rw [← hsent, ← hport]
    exact h.addressed
  | processed _ hl hslot ht =>
    subst ht
    exact ⟨h.one_of_sameSlots (Eq.symm (sameSlots_set hl hslot rfl)),
      fun g m hm => h.own g m (mem_append_left _ hm), h.addressed⟩
  | accepted hl ht =>
    subst ht
    exact ⟨h.one_of_sameSlots (Eq.symm (sameSlots_set hl (Listener.accept_slot _) rfl)), h.own,
      fun p hp => h.addressed p (mem_append_left _ hp)⟩

theorem Separate.orderly (h : Separate t) (hf : Filled s.sock) (hc : Change s t e) : Orderly s e := by
  cases hc with
  | nothing hfind hnew _ =>
    simp only [Orderly, hfind]
    exact fun hsyn hlt => absurd ⟨hsyn, hlt⟩ hnew
  | @taken g _ l0 hfind hsyn hlt hl port hlisteners hcount hallow hport hprocessed hsent =>
    simp only [Orderly, hfind]
    intro _ _ l hmem hw hp
    obtain ⟨i, hi⟩ := mem_iff_getElem?.mp hmem
    have hused := (hf.used i l hi).mp hw
    have hlen := hf.length
    have hnew : t.sock.listeners[s.sock.listenAcceptCount]? = some (l0.take g port) := by
      rw [hlisteners, getElem?_set, if_pos rfl, if_pos (by omega)]
    have hold : t.sock.listeners[i]? = some l := by
      rw [hlisteners, getElem?_set, if_neg (by omega), hi]
    have := h.one i _ l _ hold hnew hw rfl hp
    omega
  | @processed g _ i l l' hfind hl hslot ht =>
    simp only [Orderly, hfind]
    intro m hm
    obtain rfl := Option.some.inj (hl.symm.trans hm)
    subst ht
    exact h.own g l (mem_append_right _ mem_cons_self)
  | @accepted i l hl ht =>
    intro m hm
    obtain rfl := Option.some.inj (hl.symm.trans hm)
    subst ht
    exact h.addressed _ (mem_append_right _ mem_cons_self)

theorem demultiplexed_iff (hf : Filled s.sock) : Demultiplexed s ↔ Separate s :=
  ⟨fun h => ⟨h.one, h.own, h.addressed⟩, fun h => ⟨h.one, hf.count_eq, hf.le, h.own, h.addressed⟩⟩

def System.start (port : UInt16) (backlog : ℕ) (last : UInt16) : System :=
  ⟨socketListenHandler port backlog last, [], []⟩

theorem separate_start {port : UInt16} {backlog : ℕ} {last : UInt16} :
    Separate (System.start port backlog last) where
  one i j l m hl _ hw := by
    have := (filled_start.used i l hl).mp hw
    exact absurd this (Nat.not_lt_zero _)
  own := by simp [System.start]
  addressed := by simp [System.start]

/-- The segments and calls of a run stay apart as they should exactly if every step finds the slot
of its peer, a new one for a new peer and, on `accept`, one with the port of the socket. -/
theorem demultiplexed_iff_orderly (port : UInt16) (backlog : ℕ) (last : UInt16) {es : List Event}
    (h : Run System.Step (System.start port backlog last) es t) :
    Demultiplexed t ↔ Run (Guarded System.Step Orderly) (System.start port backlog last) es t := by
  have hfilled : ∀ {es t}, Run System.Step (System.start port backlog last) es t → Filled t.sock :=
    fun h => h.invariant (P := fun t => Filled t.sock) filled_start
      fun _ _ _ hf hs => hf.change (step_change hf hs)
  rw [demultiplexed_iff (hfilled h)]
  constructor
  · intro ht
    refine h.guarded (P := fun t => Filled t.sock → Separate t) (fun _ => ht)
      (fun t e u hs hu hf => ?_) (fun es t e u hr hs hu => ?_)
    · have hc := step_change hf hs
      exact (hu (hf.change hc)).of_change hf hc
    · have hf := hfilled hr
      have hc := step_change hf hs
      exact (hu (hf.change hc)).orderly hf hc
  · intro hg
    refine (hg.invariant (P := fun t => Filled t.sock ∧ Separate t)
      ⟨filled_start, separate_start⟩
      fun t e u ⟨hf, ht⟩ hs => ?_).2
    have hc := step_change hf hs.1
    exact ⟨hf.change hc, ht.change hc hs.2⟩

def sampleSyn (port : UInt16) : Segment :=
  ⟨1, 5000, htons port, 100, 0, 65535, true, false, false, false, []⟩

/-- The port counter stands at the port of the socket when the only peer comes. -/
theorem syn_accepted : ∃ t, Run System.Step (System.start (htons 1024) 2 1024)
    [.segment (sampleSyn 1024) fun _ => 0, .accept 0] t ∧ t.synAcks.length = 1 ∧
    Demultiplexed t := by
  obtain ⟨t, hrun, hq⟩ : ∃ t, Run (Guarded System.Step Orderly) (System.start (htons 1024) 2 1024)
      [.segment (sampleSyn 1024) fun _ => 0, .accept 0] t ∧ (t.synAcks.length == 1) = true :=
    exists_run_of_foldlM (f := fun s e => if Orderly s e then s.step e else none) _
      (fun s e s' h => by split_ifs at h with ho; exact ⟨h, ho⟩) (by decide +kernel)
  exact ⟨t, hrun.of_guarded, beq_iff_eq.mp hq,
    (demultiplexed_iff_orderly (htons 1024) 2 1024 hrun.of_guarded).mpr hrun⟩

/-- A SYN segment that is sent again takes a second slot. -/
theorem syn_takes_two_slots : ∃ t, Run System.Step (System.start (htons 80) 2 1024)
    [.segment (sampleSyn 80) fun _ => 0, .segment (sampleSyn 80) fun _ => 0] t ∧
    ¬ Demultiplexed t := by
  obtain ⟨t, hrun, hq⟩ : ∃ t, Run System.Step (System.start (htons 80) 2 1024)
      [.segment (sampleSyn 80) fun _ => 0, .segment (sampleSyn 80) fun _ => 0] t ∧
      ((t.sock.listeners.map fun l => (l.isWaitingForAccept, l.peer)) ==
        List.replicate 2 (true, (sampleSyn 80).peer)) = true :=
    exists_run_of_foldlM _ (fun _ _ _ h => h) (by decide +kernel)
  refine ⟨t, hrun, fun h => ?_⟩
  have hslots := beq_iff_eq.mp hq
  have hslot : ∀ i < 2, ∃ l, t.sock.listeners[i]? = some l ∧ l.isWaitingForAccept = true ∧
      l.peer = (sampleSyn 80).peer := by
    intro i hi
    have hget := congrArg (·[i]?) hslots
    simp only [getElem?_map, getElem?_replicate, hi, if_true] at hget
    obtain ⟨l, hl, hpair⟩ := Option.map_eq_some_iff.mp hget
    exact ⟨l, hl, congrArg Prod.fst hpair, congrArg Prod.snd hpair⟩
  obtain ⟨l, hl, hlw, hlp⟩ := hslot 0 (by decide)
  obtain ⟨m, hm, hmw, hmp⟩ := hslot 1 (by decide)
  exact absurd (h.one 0 1 l m hl hm hlw hmw (hlp.trans hmp.symm)) (by decide)

end Kot.Net
