import Kot.Lib.Checksum
import Kot.Net.Reassembly

/-! Sending and receiving IP packets (`modules/net/source/ip.c`): the headers, the checksums of
the transport packets, splitting a payload into packets and handing over what arrives. Fields of
more than one byte hold what a little-endian CPU reads there. -/
namespace Kot.Net

open Kot.Kernel Kot.Lib

/-- `htons` and `ntohs`: the two bytes exchanged. -/
def htons (x : UInt16) : UInt16 := UInt16.ofNat (x.toNat % 256 * 256 + x.toNat / 256)

/-- `struct iphdr`. -/
structure IpHeader where
  ihl : UInt8
  version : UInt8
  tos : UInt8
  totLen : UInt16
  id : UInt16
  fragOff : UInt16
  ttl : UInt8
  protocol : UInt8
  check : UInt16
  saddr : UInt32
  daddr : UInt32
  deriving DecidableEq

def IpHeader.bytes (h : IpHeader) : List UInt8 :=
  [h.ihl &&& (0xF : UInt8) ||| h.version <<< (4 : UInt8), h.tos] ++ toLe 2 h.totLen.toNat ++ toLe 2 h.id.toNat ++
    toLe 2 h.fragOff.toNat ++ [h.ttl, h.protocol] ++ toLe 2 h.check.toNat ++
    toLe 4 h.saddr.toNat ++ toLe 4 h.daddr.toNat

structure IpPacket where
  header : IpHeader
  data : List UInt8
  deriving DecidableEq

def ipMf : UInt16 := 0x2000

def ipOffmask : UInt16 := 0x1FFF

def ipprotoTcp : UInt8 := 6

def ipprotoUdp : UInt8 := 17

/-- `sizeof(struct iphdr)`. -/
def iphdrSize : ℕ := 20

def ipChecksum (data : List UInt8) : UInt16 :=
  let result := wordSum data % 2 ^ 32
  let result := result / 2 ^ 16 + result % 2 ^ 16
  let result := result + result / 2 ^ 16
  UInt16.ofNat (2 ^ 32 - 1 - result)

/-- The words that stand for the addresses, the protocol and the length. -/
def pseudoSum (saddr daddr : UInt32) (protocol : UInt8) (length : ℕ) : ℕ :=
  saddr.toNat / 2 ^ 16 + saddr.toNat % 2 ^ 16 + daddr.toNat / 2 ^ 16 + daddr.toNat % 2 ^ 16 +
    (htons protocol.toUInt16).toNat + (htons (UInt16.ofNat length)).toNat

/-- `compute_tcp_checksum` and `compute_udp_checksum`, which differ in the protocol and in the
place of the sum: the packet with the sum in it. -/
def computeChecksum (protocol : UInt8) (place : ℕ) (saddr daddr : UInt32) (data : List UInt8) :
    Except Fault (List UInt8) :=
  if place + 2 ≤ data.length then
    let data := splice data place [0, 0]
    let result := foldCarries 32 ((pseudoSum saddr daddr protocol data.length + wordSum data) % 2 ^ 32)
    .ok (splice data place (toLe 2 (65535 - result)))
  else .error .strayAccess

/-- `offsetof(struct tcphdr, th_sum)`. -/
def thSum : ℕ := 16

/-- `offsetof(struct udphdr, uh_sum)`. -/
def uhSum : ℕ := 6

def computeTcpChecksum := computeChecksum ipprotoTcp thSum

def computeUdpChecksum := computeChecksum ipprotoUdp uhSum

/-- The link: the size of the largest packet. The driver takes every packet that it is given. -/
structure NetDevice where
  maxSizeTxPacket : ℕ
  size_lt : maxSizeTxPacket < 2 ^ 64

/-- The switch at the end of `generate_ip_packet`: only the first part of a payload gets a sum. -/
def transportSum (fragOff : UInt16) (protocol : UInt8) (saddr daddr : UInt32) (data : List UInt8) :
    Except Fault (List UInt8) :=
  if fragOff = 0 then
    if protocol = ipprotoTcp then computeTcpChecksum saddr daddr data
    else if protocol = ipprotoUdp then computeUdpChecksum saddr daddr data
    else .ok data
  else .ok data

/-- The header that `generate_ip_packet` builds for a packet of `size` bytes. -/
def buildHeader (ihl tos : UInt8) (id fragOff : UInt16) (ttl protocol : UInt8)
    (saddr daddr : UInt32) (size : ℕ) : IpHeader :=
  let header : IpHeader := ⟨ihl, 4, tos, htons (UInt16.ofNat size), htons id, htons fragOff, ttl,
    protocol, 0, saddr, daddr⟩
  { header with check := ipChecksum header.bytes }

/-- `generate_ip_packet`: the packet that is sent, or `none` when the call refuses. -/
def generateIpPacket (dev : NetDevice) (ihl tos : UInt8) (id fragOff : UInt16) (ttl protocol : UInt8)
    (saddr daddr : UInt32) (data : List UInt8) : Except Fault (Option IpPacket) :=
  if ihl.toNat * 4 < iphdrSize then .ok none
  else if dev.maxSizeTxPacket < data.length + iphdrSize then .ok none
  else do
    let data' ← transportSum fragOff protocol saddr daddr data
    .ok (some ⟨buildHeader ihl tos id fragOff ttl protocol saddr daddr (data.length + iphdrSize), data'⟩)

/-- The arguments of `generate_ip_packets` apart from the payload, and the number of the payload. -/
structure Transport where
  tos : UInt8
  ttl : UInt8
  protocol : UInt8
  saddr : UInt32
  daddr : UInt32
  id : UInt16

/-- `size_send / sizeof(uint32_t)`, and the flag as long as more than one packet is left. -/
def fragField (sizeSend left maxPacketSize : ℕ) : UInt16 :=
  let fragOff := UInt16.ofNat (sizeSend / 4)
  if left > maxPacketSize then fragOff ||| ipMf else fragOff

/-- The loop of `generate_ip_packets`; `left` is what `packet_buffer` still points to. -/
def packetsLoop (dev : NetDevice) (tr : Transport) (maxPacketSize dataSize : ℕ) :
    ℕ → (i sizeSend : ℕ) → (left : List UInt8) → Except Fault (List IpPacket)
  | 0, _, _, _ => .error .endlessLoop
  | turns + 1, i, sizeSend, left =>
    if i < dataSize then do
      let data := left.take maxPacketSize
      let left := left.drop maxPacketSize
      let fragOff := fragField sizeSend left.length maxPacketSize
      match ← generateIpPacket dev 5 tr.tos tr.id fragOff tr.ttl tr.protocol tr.saddr tr.daddr data with
      | none => .ok []
      | some packet =>
        let packets ← packetsLoop dev tr maxPacketSize dataSize turns (wadd i maxPacketSize)
          (sizeSend + data.length) left
        .ok (packet :: packets)
    else .ok []

/-- `generate_ip_packets`: the packets that are sent. -/
def generateIpPackets (dev : NetDevice) (tr : Transport) (data : List UInt8) :
    Except Fault (List IpPacket) :=
  packetsLoop dev tr (wsub dev.maxSizeTxPacket iphdrSize) data.length (data.length + 1) 0 0 data

/-- A packet that `process_full_packet` hands over. -/
structure Delivery where
  protocol : UInt8
  saddr : UInt32
  data : List UInt8
  deriving DecidableEq

def processFullPacket (h : IpHeader) (data : List UInt8) : Option Delivery :=
  if h.protocol = ipprotoTcp ∨ h.protocol = ipprotoUdp then some ⟨h.protocol, h.saddr, data⟩ else none

/-- `ip_fragments`: records with the index that `vector_push` gave them; `none` is a record that
has been freed and is still in the vector. -/
abbrev Receiver := List (Option (IpFragment × ℕ))

def IpFragment.belongsTo (f : IpFragment) (h : IpHeader) : Bool :=
  f.saddr = h.saddr && f.daddr = h.daddr && f.id = h.id && f.protocol = h.protocol

/-- `find_ip_fragment`: the place of the record. -/
def findIpFragment (h : IpHeader) : (place : ℕ) → Receiver → Except Fault (Option ℕ)
  | _, [] => .ok none
  | _, none :: _ => .error .strayAccess
  | place, some (f, _) :: s =>
    if f.belongsTo h then .ok (some place) else findIpFragment h (place + 1) s

def packetData (p : IpPacket) : Except Fault (List UInt8) :=
  let start := p.header.ihl.toNat * 4
  let total := (htons p.header.totLen).toNat
  let bytes := p.header.bytes ++ p.data
  if start ≤ total ∧ total ≤ bytes.length then .ok ((bytes.drop start).take (total - start))
  else .error .strayAccess

/-- The record of a packet, which is created if there is none. -/
def recordOf (h : IpHeader) (s : Receiver) : Option ℕ → Receiver × ℕ
  | some place => (s, place)
  | none => (s ++ [some (createIpFragment h.saddr h.daddr h.id h.protocol, s.length)], s.length)

/-- The part of `process_ip_packet` for a fragment. -/
def processFragment (stale : ℕ → UInt8) (s : Receiver) (p : IpPacket) :
    Except Fault (Option Delivery × Receiver) := do
  let (s, place) := recordOf p.header s (← findIpFragment p.header 0 s)
  match s[place]? with
  | some (some (f, index)) =>
    let data ← packetData p
    let f ← addIpFragment f data (p.header.fragOff &&& ipOffmask).toNat (p.header.fragOff &&& ipMf != 0)
    if isIpFragmentEntirelyReceived f then
      let out ← generateBufferIpFragment stale f
      -- the record is freed, and the vector drops the entry at the index of the record
      .ok (processFullPacket p.header out, (s.set place none).eraseIdx index)
    else .ok (none, s.set place (some (f, index)))
  | _ => .error .strayAccess

/-- `process_ip_packet`: what is handed over, and the records afterwards. -/
def processIpPacket (stale : ℕ → UInt8) (s : Receiver) (p : IpPacket) :
    Except Fault (Option Delivery × Receiver) :=
  if p.header.version = 4 then
    if p.header.fragOff &&& ipMf = 0 ∧ p.header.fragOff &&& ipOffmask = 0 then do
      let data ← packetData p
      .ok (processFullPacket p.header data, s)
    else processFragment stale s p
  else .ok (none, s)

/-- A sequence of packets: what is handed over after each of them. -/
def processAll (stale : ℕ → UInt8) : Receiver → List IpPacket → Except Fault (List (Option Delivery))
  | _, [] => .ok []
  | s, p :: ps => do
    let (d, s) ← processIpPacket stale s p
    let ds ← processAll stale s ps
    .ok (d :: ds)

end Kot.Net
