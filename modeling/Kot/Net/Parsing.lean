import Kot.Net.Listen

/-! What the handlers of a received frame read and pass on: the Ethernet, ARP, IP, TCP, UDP and
DHCP layers of `modules/net/source`, as the list of the ranges of bytes they touch. -/
namespace Kot.Net.Parsing

open Kot.Kernel (wsub)
open Kot.Lib (readAt fromLe)

/-- A block of memory: the frame, or a reassembled packet. Behind its end `mem` is what happens to
be there. -/
structure Block where
  mem : ℕ → UInt8
  limit : ℕ

structure Range where
  start : ℕ
  size : ℕ
  limit : ℕ
  deriving DecidableEq, Repr

def Range.Inside (r : Range) : Prop := r.start + r.size ≤ r.limit

instance (r : Range) : Decidable r.Inside := inferInstanceAs (Decidable (_ ≤ _))

def AllInside (l : List Range) : Prop := ∀ r ∈ l, r.Inside

namespace Block

def range (b : Block) (start size : ℕ) : Range := ⟨start, size, b.limit⟩

/-- `ntohs` of a field. -/
def be16 (b : Block) (a : ℕ) : ℕ := (b.mem a).toNat * 256 + (b.mem (a + 1)).toNat

/-- A field as the CPU reads it. -/
def le16 (b : Block) (a : ℕ) : ℕ := fromLe (readAt b.mem a 2)

def le32 (b : Block) (a : ℕ) : ℕ := fromLe (readAt b.mem a 4)

/-- `ntohl` of a field. -/
def be32 (b : Block) (a : ℕ) : ℕ := b.be16 a * 2 ^ 16 + b.be16 (a + 2)

end Block

inductive UdpHandler
  | dhcp
  | socket
  deriving DecidableEq, Repr

/-- The state that the handlers look at: the address of the card, the records of incomplete
packets and the registrations of the ports. A TCP socket that does not listen has no `listeners`. -/
structure Environment where
  macAddress : List UInt8
  fragments : List IpFragment
  tcpHandlers : ℕ → List (Option Listening)
  udpHandlers : ℕ → List UdpHandler
  /-- sizes are 64-bit numbers -/
  total_lt : ∀ f ∈ fragments, f.totalSize < 2 ^ 64

variable (env : Environment) (b : Block)

/-! ARP; the header is at `a`. -/

def etherTypeIp : ℕ := 0x0800

def etherTypeArp : ℕ := 0x0806

def processArpPacket (a : ℕ) : List Range :=
  b.range (a + 2) 2 ::
    if b.be16 (a + 2) = etherTypeIp then
      b.range (a + 5) 1 ::
        if b.mem (a + 5) = 4 then
          b.range a 2 ::
            if b.be16 a = 1 then
              b.range (a + 4) 1 ::
                if b.mem (a + 4) = 6 then
                  [b.range (a + 14) 4, b.range (a + 8) 6, b.range (a + 6) 2] ++
                    if b.be16 (a + 6) = 1 then [b.range (a + 24) 4] else []
                else []
            else []
        else []
    else []

/-! TCP; the header is at `a` and the packet is said to have `size` bytes. -/

/-- A listener reads the window when it has to make room. -/
def readsWindow (l : Listener) (seq dataSize : ℕ) : Bool :=
  l.awaitingDataToRead == 0 ||
    (decide (l.startOffset.toNat ≤ seq) &&
      decide (l.bufferReadSizeAllocated < seq - l.startOffset.toNat + dataSize))

/-- `tcp_socket_handler` for a listener that has been found. -/
def tcpListenerReads (l : Listener) (a size : ℕ) : List Range :=
  let dataOffset := (b.mem (a + 12)).toNat / 16 * 4
  let dataSize := wsub size dataOffset
  [b.range (a + 12) 1, b.range (a + 13) 1, b.range (a + dataOffset) dataSize] ++
    (if b.mem (a + 13) &&& 2 ≠ 0 then [b.range (a + 4) 4] else []) ++
    if dataSize ≠ 0 then
      b.range (a + 4) 4 :: if readsWindow l (b.be32 (a + 4)) dataSize then [b.range (a + 14) 2] else []
    else []

/-- `tcp_socket_handler` for a segment of no listener. -/
def tcpSynReads (s : Listening) (a : ℕ) : List Range :=
  b.range (a + 13) 1 ::
    if b.mem (a + 13) &&& 2 ≠ 0 ∧ s.listenAcceptCount < s.listenAllowCount ∧
        s.listeners.any (! ·.isWaitingForAccept) then
      [b.range a 2, b.range (a + 4) 4]
    else []

def tcpSocketHandler (saddr : UInt32) (a size : ℕ) : Option Listening → List Range
  | none => []
  | some s =>
    b.range (a + 2) 2 ::
      match getTcpListener s.listenAcceptCount s.listeners saddr (UInt16.ofNat (b.le16 (a + 2))) with
      | none => tcpSynReads b s a
      | some i => tcpListenerReads b ((s.listeners[i]?).getD .zero) a size

def processTcpPacket (saddr : UInt32) (a size : ℕ) : List Range :=
  b.range (a + 2) 2 :: (env.tcpHandlers (b.le16 (a + 2))).flatMap (tcpSocketHandler b saddr a size)

/-- The options that are stored: how many bytes of them are read. -/
def optionSize (code : UInt8) : ℕ :=
  if code = 53 then 1 else if code = 6 ∨ code = 1 ∨ code = 3 then 4 else 0

def dhcpOptionLen : ℕ := 1218

/-- The loop of `receive_dhcp_info` over the options at `o`; the first argument bounds its turns. -/
def dhcpOptionReads (o : ℕ) : ℕ → ℕ → List Range
  | 0, _ => []
  | n + 1, length =>
    b.range (o + length) 1 ::
      if b.mem (o + length) ≠ 255 ∧ length < dhcpOptionLen then
        [b.range (o + length + 2) (optionSize (b.mem (o + length))), b.range (o + length + 1) 1] ++
          dhcpOptionReads o n (length + (b.mem (o + length + 1)).toNat + 2)
      else []

def dhcpCookie : List UInt8 := [99, 130, 83, 99]

/-- `receive_dhcp_info`; the message is at `d`. The address that is read from an offer lies before
the cookie. -/
def receiveDhcpInfo (d : ℕ) : List Range :=
  b.range d 1 ::
    if b.mem d = 2 then
      b.range (d + 1) 1 ::
        if b.mem (d + 1) = 1 then
          b.range (d + 2) 1 ::
            if b.mem (d + 2) = 6 then
              b.range (d + 28) 6 ::
                if readAt b.mem (d + 28) 6 = env.macAddress then
                  b.range (d + 236) 4 ::
                    if readAt b.mem (d + 236) 4 = dhcpCookie then
                      dhcpOptionReads b (d + 240) (dhcpOptionLen + 1) 0
                    else []
                else []
            else []
        else []
    else []

/-- `udp_socket_handler` and `receive_dhcp_info`. -/
def udpHandlerReads (a size : ℕ) : UdpHandler → List Range
  | .socket => [b.range (a + 8) (wsub size 8)]
  | .dhcp => receiveDhcpInfo env b (a + 8)

def processUdpPacket (a size : ℕ) : List Range :=
  b.range (a + 2) 2 :: (env.udpHandlers (b.le16 (a + 2))).flatMap (udpHandlerReads env b a size)

/-! IP; the header is at `a`. -/

/-- `process_full_packet`, for a packet of the block `c`. -/
def processFullPacket (protocol : UInt8) (saddr : UInt32) (c : Block) (start size : ℕ) : List Range :=
  if protocol = ipprotoTcp then processTcpPacket env c saddr start size
  else if protocol = ipprotoUdp then processUdpPacket env c start size
  else []

/-- The addresses, the number and the protocol of a packet. -/
def headerAt (a : ℕ) : IpHeader where
  ihl := b.mem a % 16
  version := b.mem a / 16
  tos := b.mem (a + 1)
  totLen := UInt16.ofNat (b.le16 (a + 2))
  id := UInt16.ofNat (b.le16 (a + 4))
  fragOff := UInt16.ofNat (b.le16 (a + 6))
  ttl := b.mem (a + 8)
  protocol := b.mem (a + 9)
  check := UInt16.ofNat (b.le16 (a + 10))
  saddr := UInt32.ofNat (b.le32 (a + 12))
  daddr := UInt32.ofNat (b.le32 (a + 16))

def headerSize (a : ℕ) : ℕ := (b.mem a).toNat % 16 * 4

/-- `size_data`. -/
def dataSize (a : ℕ) : ℕ := wsub (b.be16 (a + 2)) (headerSize b a)

def fragmentRecord (a : ℕ) : IpFragment :=
  let h := headerAt b a
  let f := (env.fragments.find? (·.belongsTo h)).getD (createIpFragment h.saddr h.daddr h.id h.protocol)
  let offset := (h.fragOff &&& ipOffmask).toNat
  { f with
    totalSize := if h.fragOff &&& ipMf ≠ 0 then Kernel.wadd offset (dataSize b a) else f.totalSize
    sizeReceived := Kernel.wadd f.sizeReceived (dataSize b a)
    data := f.data ++ [⟨readAt b.mem (a + headerSize b a) (dataSize b a), offset⟩] }

/-- The places of the copies into the reassembled packet. -/
def copyRanges (f : IpFragment) : List Range :=
  f.data.map fun d => ⟨d.offset, d.buffer.length, f.totalSize⟩

/-- The reassembled packet; `stale` is what the fresh block holds. -/
def reassembled (stale : ℕ → UInt8) (f : IpFragment) : Block where
  mem := f.data.foldl (fun m d => Kot.Lib.writeAt m d.offset d.buffer) stale
  limit := f.totalSize

def payloadRange (a : ℕ) : Range := b.range (a + headerSize b a) (dataSize b a)

variable (stale : ℕ → UInt8)

/-- The part of `process_ip_packet` for a fragment. -/
def processFragment (a : ℕ) : List Range :=
  [b.range (a + 12) 4, b.range (a + 16) 4, b.range (a + 4) 2, b.range (a + 9) 1, b.range (a + 2) 2,
    payloadRange b a] ++
    let f := fragmentRecord env b a
    if isIpFragmentEntirelyReceived f then
      copyRanges f ++ processFullPacket env (b.mem (a + 9)) (headerAt b a).saddr (reassembled stale f) 0 f.totalSize
    else []

/-- The part of `process_ip_packet` for a whole packet. -/
def processWhole (a : ℕ) : List Range :=
  [b.range (a + 2) 2, payloadRange b a, b.range (a + 9) 1] ++
    ((if b.mem (a + 9) = ipprotoTcp ∨ b.mem (a + 9) = ipprotoUdp then [b.range (a + 12) 4] else []) ++
      processFullPacket env (b.mem (a + 9)) (headerAt b a).saddr b (a + headerSize b a) (dataSize b a))

def processIpPacket (a : ℕ) : List Range :=
  b.range a 1 ::
    if (b.mem a).toNat / 16 = 4 then
      b.range (a + 6) 2 ::
        if (headerAt b a).fragOff &&& ipMf = 0 ∧ (headerAt b a).fragOff &&& ipOffmask = 0 then
          processWhole env b a
        else processFragment env b stale a
    else []

/-- `sizeof(struct ether_header)`. -/
def etherHeaderSize : ℕ := 14

def processEthernetPacket : List Range :=
  if b.limit < etherHeaderSize + 4 then []
  else
    [b.range 12 2, b.range etherHeaderSize (b.limit - (etherHeaderSize + 4))] ++
      if b.be16 12 = etherTypeArp then processArpPacket b etherHeaderSize
      else if b.be16 12 = etherTypeIp then processIpPacket env b stale etherHeaderSize
      else []

/-- An ARP packet that the code takes is there up to the target address if it is a request, and up
to the sender's addresses otherwise. -/
def ArpFits (a : ℕ) : Prop :=
  b.be16 (a + 2) = etherTypeIp → a + 6 ≤ b.limit ∧
    (b.mem (a + 5) = 4 ∧ b.be16 a = 1 ∧ b.mem (a + 4) = 6 →
      a + 18 ≤ b.limit ∧ (b.be16 (a + 6) = 1 → a + 28 ≤ b.limit))

/-- A listener's segment: its header and its data end inside the block, and the header is not
longer than the segment. -/
def SegmentFits (l : Listener) (a size : ℕ) : Prop :=
  let dataOffset := (b.mem (a + 12)).toNat / 16 * 4
  a + 14 ≤ b.limit ∧ dataOffset ≤ size ∧ a + size ≤ b.limit ∧
    (dataOffset < size → readsWindow l (b.be32 (a + 4)) (size - dataOffset) = true → a + 16 ≤ b.limit)

def TcpFits (saddr : UInt32) (a size : ℕ) : Prop :=
  a + 4 ≤ b.limit ∧ ∀ s, some s ∈ env.tcpHandlers (b.le16 (a + 2)) →
    match getTcpListener s.listenAcceptCount s.listeners saddr (UInt16.ofNat (b.le16 (a + 2))) with
    | none => a + 14 ≤ b.limit
    | some i => SegmentFits b ((s.listeners[i]?).getD .zero) a size

/-- The options up to the end marker are inside the block, with the values that are stored. -/
def OptionsFit (o : ℕ) : ℕ → ℕ → Prop
  | 0, _ => True
  | n + 1, length => o + length + 1 ≤ b.limit ∧
    (b.mem (o + length) ≠ 255 ∧ length < dhcpOptionLen →
      o + length + 2 + optionSize (b.mem (o + length)) ≤ b.limit ∧
      OptionsFit o n (length + (b.mem (o + length + 1)).toNat + 2))

def DhcpFits (d : ℕ) : Prop :=
  d + 1 ≤ b.limit ∧ (b.mem d = 2 → d + 2 ≤ b.limit ∧ (b.mem (d + 1) = 1 → d + 3 ≤ b.limit ∧
    (b.mem (d + 2) = 6 → d + 34 ≤ b.limit ∧ (readAt b.mem (d + 28) 6 = env.macAddress →
      d + 240 ≤ b.limit ∧ (readAt b.mem (d + 236) 4 = dhcpCookie →
        OptionsFit b (d + 240) (dhcpOptionLen + 1) 0)))))

def UdpFits (a size : ℕ) : Prop :=
  a + 4 ≤ b.limit ∧ ∀ h ∈ env.udpHandlers (b.le16 (a + 2)),
    match h with
    | .socket => 8 ≤ size ∧ a + size ≤ b.limit
    | .dhcp => DhcpFits env b (a + 8)

def TransportFits (protocol : UInt8) (saddr : UInt32) (c : Block) (start size : ℕ) : Prop :=
  (protocol = ipprotoTcp → TcpFits env c saddr start size) ∧
    (protocol = ipprotoUdp → UdpFits env c start size)

/-- The header is not longer than the packet, which ends inside the block. -/
def PayloadFits (a : ℕ) : Prop := headerSize b a ≤ b.be16 (a + 2) ∧ a + b.be16 (a + 2) ≤ b.limit

def WholeFits (a : ℕ) : Prop :=
  a + 10 ≤ b.limit ∧ PayloadFits b a ∧
    (b.mem (a + 9) = ipprotoTcp ∨ b.mem (a + 9) = ipprotoUdp → a + 16 ≤ b.limit ∧
      TransportFits env (b.mem (a + 9)) (headerAt b a).saddr b (a + headerSize b a) (dataSize b a))

def FragmentFits (a : ℕ) : Prop :=
  a + 20 ≤ b.limit ∧ PayloadFits b a ∧
    (isIpFragmentEntirelyReceived (fragmentRecord env b a) = true →
      (∀ d ∈ (fragmentRecord env b a).data, d.offset + d.buffer.length ≤ (fragmentRecord env b a).totalSize) ∧
      TransportFits env (b.mem (a + 9)) (headerAt b a).saddr (reassembled stale (fragmentRecord env b a)) 0
        (fragmentRecord env b a).totalSize)

def IpFits (a : ℕ) : Prop :=
  (b.mem a).toNat / 16 = 4 → a + 8 ≤ b.limit ∧
    if (headerAt b a).fragOff &&& ipMf = 0 ∧ (headerAt b a).fragOff &&& ipOffmask = 0 then WholeFits env b a
    else FragmentFits env b stale a

def FrameFits : Prop :=
  etherHeaderSize + 4 ≤ b.limit →
    (b.be16 12 = etherTypeArp → ArpFits b etherHeaderSize) ∧
    (b.be16 12 = etherTypeIp → IpFits env b stale etherHeaderSize)

/-! The conditions are exact. -/

variable {env} {b} {stale}

@[simp] theorem allInside_nil : AllInside [] := nofun

variable {l : List Range} {start size a : ℕ}

@[simp] theorem allInside_cons {r : Range} : AllInside (r :: l) ↔ r.Inside ∧ AllInside l :=
  List.forall_mem_cons

@[simp] theorem allInside_append {l l' : List Range} : AllInside (l ++ l') ↔ AllInside l ∧ AllInside l' :=
  List.forall_mem_append

theorem allInside_flatMap {α : Type*} {l : List α} {f : α → List Range} :
    AllInside (l.flatMap f) ↔ ∀ x ∈ l, AllInside (f x) := by
  simp only [AllInside, List.mem_flatMap]
  constructor
  · intro h x hx r hr
    exact h r ⟨x, hx, hr⟩
  · rintro h r ⟨x, hx, hr⟩
    exact h x hx r hr

theorem allInside_if {p : Prop} [Decidable p] :
    AllInside (if p then l else []) ↔ (p → AllInside l) := by
  split_ifs with h <;> simp [h]

@[simp] theorem range_inside : (b.range start size).Inside ↔ start + size ≤ b.limit :=
  Iff.rfl

/-- A size that is computed by a subtraction describes a range of the block exactly when it did
not wrap around. -/
theorem inside_wsub {a offset size limit : ℕ} (hs : size < 2 ^ 64) (ho : offset < 2 ^ 64)
    (hl : limit < 2 ^ 64) :
    a + offset + wsub size offset ≤ limit ↔ offset ≤ size ∧ a + size ≤ limit := by
  by_cases h : offset ≤ size
  · rw [Kernel.wsub_of_le hs h]
    omega
  · have hw : wsub size offset = size + 2 ^ 64 - offset := Nat.mod_eq_of_lt (by omega)
    rw [hw]
    omega

theorem processArpPacket_inside (ha : a + 4 ≤ b.limit) :
    AllInside (processArpPacket b a) ↔ ArpFits b a := by
  simp only [processArpPacket, ArpFits, allInside_cons, allInside_append, allInside_if, allInside_nil,
    range_inside]
  constructor
  · rintro ⟨-, h⟩ hpro
    obtain ⟨hpln, h⟩ := h hpro
    refine ⟨by omega, ?_⟩
    rintro ⟨h1, h2, h3⟩
    obtain ⟨hsip, hop⟩ := ((h h1).2 h2).2 h3
    exact ⟨by omega, fun hreq => by have := (hop hreq).1; omega⟩
  · intro h
    refine ⟨by omega, fun hpro => ?_⟩
    obtain ⟨hpln, h⟩ := h hpro
    refine ⟨by omega, fun h1 => ⟨by omega, fun h2 => ⟨by omega, fun h3 => ?_⟩⟩⟩
    obtain ⟨hsip, hop⟩ := h ⟨h1, h2, h3⟩
    exact ⟨⟨by omega, by omega, by omega, trivial⟩, fun hreq => ⟨by have := hop hreq; omega, trivial⟩⟩

theorem tcpListenerReads_inside (l : Listener) (hs : size < 2 ^ 64) (hl : b.limit < 2 ^ 64) :
    AllInside (tcpListenerReads b l a size) ↔ SegmentFits b l a size := by
  have ho : (b.mem (a + 12)).toNat / 16 * 4 < 2 ^ 64 := by
    have := (b.mem (a + 12)).toNat_lt
    omega
  simp only [tcpListenerReads, SegmentFits, allInside_append, allInside_cons, allInside_if, allInside_nil,
    range_inside, inside_wsub hs ho hl]
  generalize (b.mem (a + 12)).toNat / 16 * 4 = offset at ho ⊢
  constructor
  · rintro ⟨⟨⟨-, hflags, ⟨hoff, hend⟩, -⟩, -⟩, hwin⟩
    refine ⟨by omega, hoff, hend, fun hlt hread => ?_⟩
    rw [Kernel.wsub_of_le hs hoff] at hwin
    have := ((hwin (by omega)).2 hread).1
    omega
  · rintro ⟨hflags, hoff, hend, hwin⟩
    rw [Kernel.wsub_of_le hs hoff]
    refine ⟨⟨⟨by omega, by omega, ⟨hoff, hend⟩, trivial⟩, fun _ => ⟨by omega, trivial⟩⟩, fun hne => ⟨by omega, ?_⟩⟩
    intro hread
    exact ⟨by have := hwin (by omega) hread; omega, trivial⟩

theorem tcpSynReads_inside (s : Listening) : AllInside (tcpSynReads b s a) ↔ a + 14 ≤ b.limit := by
  simp only [tcpSynReads, allInside_cons, allInside_if, allInside_nil, range_inside]
  constructor
  · rintro ⟨h, -⟩
    omega
  · intro h
    exact ⟨by omega, fun _ => ⟨by omega, by omega, trivial⟩⟩

theorem processTcpPacket_inside (saddr : UInt32) (hs : size < 2 ^ 64) (hl : b.limit < 2 ^ 64) :
    AllInside (processTcpPacket env b saddr a size) ↔ TcpFits env b saddr a size := by
  simp only [processTcpPacket, TcpFits, allInside_cons, allInside_flatMap, range_inside]
  have hport : a + 2 + 2 ≤ b.limit ↔ a + 4 ≤ b.limit := by omega
  rw [hport]
  refine and_congr_right fun ha => ?_
  -- what one listening socket reads
  have hsocket : ∀ s : Listening, AllInside (tcpSocketHandler b saddr a size (some s)) ↔
      match getTcpListener s.listenAcceptCount s.listeners saddr (UInt16.ofNat (b.le16 (a + 2))) with
      | none => a + 14 ≤ b.limit
      | some i => SegmentFits b ((s.listeners[i]?).getD .zero) a size := by
    intro s
    simp only [tcpSocketHandler, allInside_cons, range_inside]
    split
    · rw [tcpSynReads_inside]
      omega
    · rw [tcpListenerReads_inside _ hs hl]
      exact and_iff_right (by omega)
  constructor
  · intro h s hmem
    exact (hsocket s).mp (h _ hmem)
  · rintro h (_ | s) hmem
    · exact allInside_nil
    · exact (hsocket s).mpr (h s hmem)

theorem dhcpOptionReads_inside (o n : ℕ) :
    ∀ length, AllInside (dhcpOptionReads b o n length) ↔ OptionsFit b o n length := by
  induction n with
  | zero => exact fun length => iff_of_true allInside_nil trivial
  | succ n ih =>
    intro length
    simp only [dhcpOptionReads, OptionsFit, allInside_cons, allInside_append, allInside_if, allInside_nil,
      range_inside, ih, and_true]
    refine and_congr Iff.rfl (imp_congr Iff.rfl (and_congr ?_ Iff.rfl))
    omega

theorem receiveDhcpInfo_inside (d : ℕ) : AllInside (receiveDhcpInfo env b d) ↔ DhcpFits env b d := by
  simp only [receiveDhcpInfo, DhcpFits, allInside_cons, allInside_if, range_inside, dhcpOptionReads_inside,
    Nat.add_assoc, Nat.reduceAdd]

theorem processUdpPacket_inside (hs : size < 2 ^ 64) (hl : b.limit < 2 ^ 64) :
    AllInside (processUdpPacket env b a size) ↔ UdpFits env b a size := by
  simp only [processUdpPacket, UdpFits, allInside_cons, allInside_flatMap, range_inside]
  have hport : a + 2 + 2 ≤ b.limit ↔ a + 4 ≤ b.limit := by omega
  rw [hport]
  refine and_congr_right fun _ => forall_congr' fun h => imp_congr Iff.rfl ?_
  cases h with
  | dhcp => exact receiveDhcpInfo_inside (a + 8)
  | socket =>
    simp only [udpHandlerReads, allInside_cons, allInside_nil, range_inside,
      inside_wsub hs (show 8 < 2 ^ 64 by decide) hl, and_true]

theorem processFullPacket_inside (protocol : UInt8) (saddr : UInt32) {c : Block}
    (hs : size < 2 ^ 64) (hl : c.limit < 2 ^ 64) :
    AllInside (processFullPacket env protocol saddr c start size) ↔
      TransportFits env protocol saddr c start size := by
  unfold processFullPacket TransportFits
  split_ifs with htcp hudp
  · subst htcp
    simp [processTcpPacket_inside saddr hs hl, ipprotoTcp, ipprotoUdp]
  · subst hudp
    simp [processUdpPacket_inside hs hl, ipprotoTcp, ipprotoUdp]
  · simp [htcp, hudp]

theorem payloadRange_inside (hl : b.limit < 2 ^ 64) :
    (payloadRange b a).Inside ↔ PayloadFits b a := by
  have htot : b.be16 (a + 2) < 2 ^ 64 := by
    have h1 := (b.mem (a + 2)).toNat_lt
    have h2 := (b.mem (a + 2 + 1)).toNat_lt
    unfold Block.be16
    omega
  have hhdr : headerSize b a < 2 ^ 64 := by
    unfold headerSize
    omega
  exact inside_wsub htot hhdr hl

theorem processWhole_inside (hl : b.limit < 2 ^ 64) :
    AllInside (processWhole env b a) ↔ WholeFits env b a := by
  have hn : dataSize b a < 2 ^ 64 := Nat.mod_lt _ (by decide)
  simp only [processWhole, WholeFits, allInside_append, allInside_cons, allInside_if, allInside_nil,
    range_inside, payloadRange_inside hl, processFullPacket_inside _ _ hn hl, and_true]
  constructor
  · rintro ⟨⟨-, hpay, hproto⟩, haddr, hfull⟩
    refine ⟨by omega, hpay, fun h => ⟨?_, hfull⟩⟩
    have := haddr h
    omega
  · rintro ⟨hproto, hpay, hfull⟩
    refine ⟨⟨by omega, hpay, by omega⟩, fun h => ?_, ?_⟩
    · have := (hfull h).1
      omega
    · -- other protocols read nothing
      exact ⟨fun h => (hfull (.inl h)).2.1 h, fun h => (hfull (.inr h)).2.2 h⟩

theorem fragmentRecord_total_lt (a : ℕ) : (fragmentRecord env b a).totalSize < 2 ^ 64 := by
  simp only [fragmentRecord]
  split_ifs with hlast
  · exact Nat.mod_lt _ (by decide)
  · cases hfind : env.fragments.find? (·.belongsTo (headerAt b a)) with
    | none => exact (by decide : 2 ^ 64 - 1 < 2 ^ 64)
    | some f => exact env.total_lt f (List.mem_of_find?_eq_some hfind)

theorem processFragment_inside (hl : b.limit < 2 ^ 64) :
    AllInside (processFragment env b stale a) ↔ FragmentFits env b stale a := by
  have hcopy : AllInside (copyRanges (fragmentRecord env b a)) ↔
      ∀ d ∈ (fragmentRecord env b a).data,
        d.offset + d.buffer.length ≤ (fragmentRecord env b a).totalSize := by
    simp only [AllInside, copyRanges, List.forall_mem_map]
    rfl
  have hfull : AllInside (processFullPacket env (b.mem (a + 9)) (headerAt b a).saddr
      (reassembled stale (fragmentRecord env b a)) 0 (fragmentRecord env b a).totalSize) ↔
      TransportFits env (b.mem (a + 9)) (headerAt b a).saddr (reassembled stale (fragmentRecord env b a)) 0
        (fragmentRecord env b a).totalSize :=
    processFullPacket_inside _ _ (fragmentRecord_total_lt a) (fragmentRecord_total_lt a)
  simp only [processFragment, FragmentFits, allInside_append, allInside_cons, allInside_if, allInside_nil,
    range_inside, payloadRange_inside hl, hcopy, hfull, and_true]
  constructor
  · rintro ⟨⟨-, hdaddr, -, -, -, hpay⟩, hrest⟩
    exact ⟨by omega, hpay, hrest⟩
  · rintro ⟨hhdr, hpay, hrest⟩
    exact ⟨⟨by omega, by omega, by omega, by omega, by omega, hpay⟩, hrest⟩

theorem processIpPacket_inside (ha : a + 4 ≤ b.limit) (hl : b.limit < 2 ^ 64) :
    AllInside (processIpPacket env b stale a) ↔ IpFits env b stale a := by
  simp only [processIpPacket, IpFits, allInside_cons, allInside_if, range_inside]
  have hversion : a + 1 ≤ b.limit := by omega
  have hfrag : a + 6 + 2 ≤ b.limit ↔ a + 8 ≤ b.limit := by omega
  rw [and_iff_right hversion, hfrag]
  refine imp_congr Iff.rfl (and_congr Iff.rfl ?_)
  split_ifs
  · exact processWhole_inside hl
  · exact processFragment_inside hl

/-- Everything that the handlers of a frame read or pass on lies inside the frame, or inside the
packet that it completes, exactly when the frame is as long as its headers say. -/
theorem frameFits_iff (env : Environment) (b : Block) (stale : ℕ → UInt8) (hl : b.limit < 2 ^ 64) :
    AllInside (processEthernetPacket env b stale) ↔ FrameFits env b stale := by
  unfold processEthernetPacket FrameFits
  split_ifs with hshort harp hip
  · exact iff_of_true allInside_nil fun h => absurd hshort (by omega)
  all_goals
    have hlong : etherHeaderSize + 4 ≤ b.limit := by omega
    have hhdr : 12 + 2 ≤ b.limit := by
      unfold etherHeaderSize at hlong
      omega
    have hpay : etherHeaderSize + (b.limit - (etherHeaderSize + 4)) ≤ b.limit := by omega
    simp only [allInside_append, allInside_cons, allInside_nil, range_inside, hhdr, hpay, and_true, true_and]
  · rw [processArpPacket_inside hlong]
    refine ⟨fun h _ => ⟨fun _ => h, fun hip => ?_⟩, fun h => (h hlong).1 harp⟩
    exact absurd (harp.symm.trans hip) (by decide)
  · rw [processIpPacket_inside hlong hl]
    exact ⟨fun h _ => ⟨fun harp' => absurd harp' harp, fun _ => h⟩, fun h => (h hlong).2 hip⟩
  · exact iff_of_true trivial fun _ => ⟨fun h => absurd h harp, fun h => absurd h hip⟩

instance (l : List Range) : Decidable (AllInside l) := inferInstanceAs (Decidable (∀ r ∈ l, r.Inside))

/-- A station with a UDP socket on every port. -/
def oneSocket : Environment := ⟨[2, 0, 0, 0, 0, 1], [], fun _ => [], fun _ => [.socket], nofun⟩

/-- A frame with one byte of UDP data, whose IP header gives the length `totLen`. -/
def udpFrame (totLen : UInt8) : Block where
  mem a := ([2, 0, 0, 0, 0, 1, 2, 0, 0, 0, 0, 2, 8, 0,
    0x45, 0, 0, totLen, 0, 1, 0, 0, 64, 17, 0, 0, 10, 0, 0, 2, 10, 0, 0, 1,
    0, 53, 4, 0, 0, 9, 0, 0, 42, 0, 0, 0, 0] : List UInt8).getD a 0
  limit := 47

theorem frameFits_udpFrame : AllInside (processEthernetPacket oneSocket (udpFrame 29) fun _ => 0) ∧
      FrameFits oneSocket (udpFrame 29) fun _ => 0 := by
  have hinside : AllInside (processEthernetPacket oneSocket (udpFrame 29) fun _ => 0) := by decide +kernel
  exact ⟨hinside, (frameFits_iff _ _ _ (by decide)).mp hinside⟩

/-- With the length 0 in the IP header the payload has `2 ^ 64 - 20` bytes. -/
theorem payload_wraps :
    ⟨34, 2 ^ 64 - 20, 47⟩ ∈ processEthernetPacket oneSocket (udpFrame 0) (fun _ => 0) ∧
      ¬ AllInside (processEthernetPacket oneSocket (udpFrame 0) fun _ => 0) := by
  decide +kernel

end Kot.Net.Parsing
