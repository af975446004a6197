import Kot.Net.Checksums
import Mathlib.Data.List.Perm.Basic

/-! What a receiver makes of the packets that `generate_ip_packets` emits: a payload that fits
into one packet arrives as it was sent, a longer one does not. -/
namespace Kot.Net

open Kot.Kernel Kot.Lib List

/-- The payload has room for the header of its protocol. -/
def Transport.Carries (tr : Transport) (n : ℕ) : Prop :=
  tr.protocol = ipprotoTcp ∧ 20 ≤ n ∨ tr.protocol = ipprotoUdp ∧ 8 ≤ n

/-- Where the sum of a protocol stands. -/
def sumPlace (protocol : UInt8) : ℕ := if protocol = ipprotoTcp then thSum else uhSum

/-- The one's complement sum over the pseudo header and the packet is all ones. -/
def Transport.Verifies (tr : Transport) (data : List UInt8) : Prop :=
  foldCarries 32 (pseudoSum tr.saddr tr.daddr tr.protocol data.length + wordSum data) = 65535

/-- The payload with its sum. -/
def Transport.Summed (tr : Transport) (payload data : List UInt8) : Prop :=
  (∃ c, data = splice payload (sumPlace tr.protocol) (toLe 2 c)) ∧ tr.Verifies data

/-- A receiver that has no record of the payload. -/
def Transport.Unrelated (tr : Transport) (s : Receiver) : Prop :=
  ∀ e ∈ s, ∃ f k, e = some (f, k) ∧ ¬ (f.saddr = tr.saddr ∧ f.daddr = tr.daddr ∧
    f.id = htons tr.id ∧ f.protocol = tr.protocol)

/-- Whatever the order of arrival, the last packet and no other hands over the payload. -/
def RoundTrip (dev : NetDevice) (tr : Transport) (payload : List UInt8) : Prop :=
  ∃ packets, generateIpPackets dev tr payload = .ok packets ∧
    ∀ arrival, arrival.Perm packets → ∀ stale s, tr.Unrelated s → ∃ data,
      processAll stale s arrival = .ok (List.replicate (packets.length - 1) none ++
        [some ⟨tr.protocol, tr.saddr, data⟩]) ∧ tr.Summed payload data

variable {dev : NetDevice} {tr : Transport} {data data' out payload left : List UInt8}
  {s s' : Receiver} {p : IpPacket} {protocol : UInt8} {saddr daddr : UInt32}

theorem computeChecksum_verifies {data : List UInt8}
    (hplace : sumPlace tr.protocol + 2 ≤ data.length)
    (hn : data.length ≤ 65515) :
    ∃ out, computeChecksum tr.protocol (sumPlace tr.protocol) tr.saddr tr.daddr data = .ok out ∧
      out.length = data.length ∧ tr.Summed data out := by
  have heven : sumPlace tr.protocol % 2 = 0 := by unfold sumPlace; split_ifs <;> rfl
  obtain ⟨c, hout, hfolds⟩ := computeChecksum_eq tr.protocol tr.saddr tr.daddr heven hplace (by omega)
  have hlen : (splice data (sumPlace tr.protocol) (toLe 2 c)).length = data.length := splice_length hplace
  refine ⟨_, hout, hlen, ⟨c, rfl⟩, ?_⟩
  have hsmall := checkedSum_lt tr.protocol tr.saddr tr.daddr (hlen.trans_le (by omega))
  rw [Transport.Verifies, hlen] at *
  exact (folds_foldCarries hsmall (by decide)).unique hfolds

theorem transportSum_eq (hc : tr.Carries data.length) (hn : data.length ≤ 65515) :
    ∃ out, transportSum 0 tr.protocol tr.saddr tr.daddr data = .ok out ∧
      out.length = data.length ∧ tr.Summed data out := by
  obtain ⟨hp, hlen⟩ | ⟨hp, hlen⟩ := hc
  · have hplace : sumPlace tr.protocol = thSum := if_pos hp
    obtain ⟨out, hout, hrest⟩ := computeChecksum_verifies
      (by rw [hplace]; unfold thSum; omega) hn
    refine ⟨out, ?_, hrest⟩
    rw [transportSum, if_pos rfl, if_pos hp, ← hout, hplace, hp]
    rfl
  · have hne : tr.protocol ≠ ipprotoTcp := by rw [hp]; decide
    have hplace : sumPlace tr.protocol = uhSum := if_neg hne
    obtain ⟨out, hout, hrest⟩ := computeChecksum_verifies
      (by rw [hplace]; unfold uhSum; omega) hn
    refine ⟨out, ?_, hrest⟩
    rw [transportSum, if_pos rfl, if_neg hne, if_pos hp, ← hout, hplace, hp]
    rfl

theorem bytes_length (h : IpHeader) : h.bytes.length = 20 := by simp [IpHeader.bytes, toLe_length]

theorem packetData_eq (hihl : p.header.ihl = 5)
    (htot : (htons p.header.totLen).toNat = p.data.length + 20) : packetData p = .ok p.data := by
  have hstart : p.header.ihl.toNat * 4 = p.header.bytes.length := by rw [hihl, bytes_length]; rfl
  have hle : p.header.ihl.toNat * 4 ≤ (htons p.header.totLen).toNat ∧
      (htons p.header.totLen).toNat ≤ (p.header.bytes ++ p.data).length := by
    rw [hstart, htot, length_append, bytes_length]
    omega
  simp only [packetData]
  rw [if_pos hle, hstart, drop_left, htot, bytes_length, Nat.add_sub_cancel,
    take_of_length_le (Nat.le_refl _)]

variable {id fragOff : UInt16} {tos ttl : UInt8} {m n turns i sizeSend : ℕ} {f : IpFragment}
  {d : Option Delivery} {ps : List IpPacket}

theorem generateIpPacket_eq (hmax : data.length + 20 ≤ dev.maxSizeTxPacket)
    (hsum : transportSum fragOff protocol saddr daddr data = .ok out) :
    generateIpPacket dev 5 tos id fragOff ttl protocol saddr daddr data =
      .ok (some ⟨buildHeader 5 tos id fragOff ttl protocol saddr daddr (data.length + 20), out⟩) := by
  have hihl : ¬ (5 : UInt8).toNat * 4 < iphdrSize := by decide
  have hsize : ¬ dev.maxSizeTxPacket < data.length + iphdrSize := Nat.not_lt.mpr hmax
  rw [generateIpPacket, if_neg hihl, if_neg hsize, hsum]
  rfl

theorem maxPacketSize_eq (hdev : 28 ≤ dev.maxSizeTxPacket) :
    wsub dev.maxSizeTxPacket iphdrSize = dev.maxSizeTxPacket - 20 :=
  wsub_of_le dev.size_lt (by unfold iphdrSize; omega)

theorem packetsLoop_succ (hi : i < n)
    (hp : generateIpPacket dev 5 tr.tos tr.id (fragField sizeSend (left.drop m).length m) tr.ttl
    tr.protocol tr.saddr tr.daddr (left.take m) = .ok (some p)) :
    packetsLoop dev tr m n (turns + 1) i sizeSend left =
      (packetsLoop dev tr m n turns (wadd i m) (sizeSend + (left.take m).length) (left.drop m)).map
        (p :: ·) := by
  rw [packetsLoop, if_pos hi]
  simp only [hp, ok_bind]
  cases packetsLoop dev tr m n turns (wadd i m) (sizeSend + (left.take m).length) (left.drop m) <;> rfl

theorem generateIpPackets_single (hdev : 28 ≤ dev.maxSizeTxPacket) (hpos : payload ≠ [])
    (hfit : payload.length ≤ dev.maxSizeTxPacket - 20)
    (hsum : transportSum 0 tr.protocol tr.saddr tr.daddr payload = .ok out) :
    generateIpPackets dev tr payload = .ok [⟨buildHeader 5 tr.tos tr.id 0 tr.ttl tr.protocol tr.saddr
      tr.daddr (payload.length + 20), out⟩] := by
  have hlen := length_pos_of_ne_nil hpos
  obtain ⟨n, hn⟩ : ∃ n, payload.length = n + 1 := ⟨payload.length - 1, by omega⟩
  have hstop : ¬ wadd 0 (dev.maxSizeTxPacket - 20) < payload.length := by
    rw [wadd_of_lt (by have := dev.size_lt; omega)]
    omega
  have hfield : fragField 0 0 (dev.maxSizeTxPacket - 20) = 0 := by
    rw [fragField, if_neg (by omega)]
    rfl
  have htake := take_of_length_le hfit
  have hdrop := drop_eq_nil_of_le hfit
  rw [generateIpPackets, maxPacketSize_eq hdev, packetsLoop_succ hlen
    (by rw [htake, hdrop, length_nil, hfield]; exact generateIpPacket_eq (by omega) hsum),
    htake, hdrop]
  generalize hm : payload.length = m at hn hstop
  rw [hn, packetsLoop, ← hn, if_neg hstop]
  rfl

theorem roundTrip_of_fits (hdev : 28 ≤ dev.maxSizeTxPacket) (hc : tr.Carries payload.length)
    (hn : payload.length ≤ 65515) (hfit : payload.length ≤ dev.maxSizeTxPacket - 20) :
    RoundTrip dev tr payload := by
  obtain ⟨out, hout, hlen, hsummed⟩ := transportSum_eq hc hn
  have hne : payload ≠ [] := by
    rintro rfl
    obtain ⟨_, h⟩ | ⟨_, h⟩ := hc <;> simp at h
  refine ⟨_, generateIpPackets_single hdev hne hfit hout, fun arrival harr stale s _ => ?_⟩
  obtain rfl := perm_singleton.mp harr
  refine ⟨out, ?_, hsummed⟩
  set p : IpPacket := ⟨buildHeader 5 tr.tos tr.id 0 tr.ttl tr.protocol tr.saddr tr.daddr
    (payload.length + 20), out⟩ with hp
  have hdata : packetData p = .ok out := by
    refine packetData_eq rfl ?_
    have htot : p.header.totLen = htons (UInt16.ofNat (payload.length + 20)) := rfl
    rw [htot, htons_htons, UInt16.toNat_ofNat', Nat.mod_eq_of_lt (by omega), hp, hlen]
  have hfull : processFullPacket p.header out = some ⟨tr.protocol, tr.saddr, out⟩ := by
    refine if_pos ?_
    obtain ⟨h, _⟩ | ⟨h, _⟩ := hc
    · exact .inl h
    · exact .inr h
  have hversion : p.header.version = 4 := rfl
  have hfrag : p.header.fragOff &&& ipMf = 0 ∧ p.header.fragOff &&& ipOffmask = 0 := by
    have : p.header.fragOff = htons 0 := rfl
    rw [this]
    decide
  rw [processAll, processIpPacket, if_pos hversion, if_pos hfrag, hdata]
  simp only [ok_bind, hfull]
  rfl

/-! A payload of several packets. The byte `1` marks the start of the payload: no packet puts it
at the place `0` of what is handed over. -/

/-- The packet does not claim to start the payload, or does not start with the mark. -/
structure Tame (p : IpPacket) : Prop where
  ihl : p.header.ihl = 5
  mark : p.header.fragOff &&& ipOffmask = 0 → p.data[0]? ≠ some 1

/-- No copy in a record puts the mark at the place `0`. -/
def Marked (s : Receiver) : Prop :=
  ∀ f k, some (f, k) ∈ s → ∀ d ∈ f.data, d.offset = 0 → d.buffer[0]? ≠ some 1

theorem packetData_mark (hp : Tame p) (hz : p.header.fragOff &&& ipOffmask = 0)
    (h : packetData p = .ok data) : data[0]? ≠ some 1 := by
  have hstart : p.header.ihl.toNat * 4 = p.header.bytes.length := by
    rw [hp.ihl, bytes_length]
    rfl
  simp only [packetData] at h
  split_ifs at h
  cases h
  rw [hstart, drop_left, getElem?_take]
  split_ifs
  · exact hp.mark hz
  · simp

theorem generate_mark (hf : ∀ d ∈ f.data, d.offset = 0 → d.buffer[0]? ≠ some 1)
    (h : generateBufferIpFragment (fun _ => 0) f = .ok out) : out[0]? ≠ some 1 := by
  unfold generateBufferIpFragment at h
  split_ifs at h
  obtain ⟨out', hout', _, hbytes⟩ := foldlM_copyFragment (inside_of_foldlM_copyFragment h)
  obtain rfl : out' = out := Except.ok.inj (hout'.symm.trans h)
  rcases hbytes 0 with ⟨d, hd, hcov, hval⟩ | ⟨_, hval⟩
  · have hzero : d.offset = 0 := by omega
    rw [hval, hzero]
    exact hf d hd hzero
  · rw [hval, freshBytes, getElem?_map]
    cases (List.range f.totalSize)[0]? <;> simp

theorem recordOf_marked (hs : Marked s) (h : IpHeader) (place : Option ℕ) :
    Marked (recordOf h s place).1 := by
  cases place with
  | some place => exact hs
  | none =>
    intro f k hf d hd
    rcases mem_append.mp hf with hf | hf
    · exact hs f k hf d hd
    · obtain ⟨rfl, _⟩ : f = createIpFragment h.saddr h.daddr h.id h.protocol ∧ k = s.length := by
        simpa using hf
      cases hd

theorem processFragment_marked (hs : Marked s) (hp : Tame p)
    (h : processFragment (fun _ => 0) s p = .ok (d, s')) :
    Marked s' ∧ ∀ e, d = some e → e.data[0]? ≠ some 1 := by
  obtain ⟨place, _, h⟩ := Kernel.bind_eq_ok h
  have hs1 := recordOf_marked hs p.header place
  generalize recordOf p.header s place = r at h hs1
  simp only at h hs1
  split at h
  · rename_i f index hplace
    obtain ⟨data, hdata, h⟩ := Kernel.bind_eq_ok h
    obtain ⟨g, hg, h⟩ := Kernel.bind_eq_ok h
    obtain ⟨_, hgeq⟩ := addIpFragment_cases hg
    have hmarked : ∀ d ∈ g.data, d.offset = 0 → d.buffer[0]? ≠ some 1 := by
      intro d hd hzero
      rw [hgeq] at hd
      rcases mem_append.mp hd with hd | hd
      · exact hs1 f index (mem_of_getElem? hplace) d hd hzero
      · obtain rfl := mem_singleton.mp hd
        exact packetData_mark hp (UInt16.toNat_inj.mp hzero) hdata
    split_ifs at h with hall
    · obtain ⟨out, hout, h⟩ := Kernel.bind_eq_ok h
      cases h
      refine ⟨?_, ?_⟩
      · intro e k he
        rcases mem_or_eq_of_mem_set (mem_of_mem_eraseIdx he) with he | he
        · exact hs1 e k he
        · cases he
      · intro e he
        unfold processFullPacket at he
        split_ifs at he
        cases he
        exact generate_mark hmarked hout
    · cases h
      refine ⟨fun g j hg => ?_, by simp⟩
      rcases mem_or_eq_of_mem_set hg with hg | hg
      · exact hs1 g j hg
      · obtain ⟨rfl, _⟩ := Prod.mk.inj (Option.some.inj hg)
        exact hmarked
  · cases h

theorem processIpPacket_marked (hs : Marked s) (hp : Tame p)
    (h : processIpPacket (fun _ => 0) s p = .ok (d, s')) :
    Marked s' ∧ ∀ e, d = some e → e.data[0]? ≠ some 1 := by
  unfold processIpPacket at h
  split_ifs at h with hv hfrag
  · obtain ⟨data, hdata, h⟩ := Kernel.bind_eq_ok h
    cases h
    refine ⟨hs, fun e he => ?_⟩
    unfold processFullPacket at he
    split_ifs at he
    cases he
    exact packetData_mark hp hfrag.2 hdata
  · exact processFragment_marked hs hp h
  · cases h
    exact ⟨hs, by simp⟩

theorem processAll_marked {ds : List (Option Delivery)} (hs : Marked s)
    (hps : ∀ p ∈ ps, Tame p) (h : processAll (fun _ => 0) s ps = .ok ds) :
    ∀ e, some e ∈ ds → e.data[0]? ≠ some 1 := by
  induction ps generalizing s ds with
  | nil =>
    cases h
    simp
  | cons p ps ih =>
    rw [processAll] at h
    obtain ⟨⟨d, s1⟩, hd, h⟩ := Kernel.bind_eq_ok h
    obtain ⟨rest, hrest, h⟩ := Kernel.bind_eq_ok h
    cases h
    obtain ⟨hs1, hmark⟩ := processIpPacket_marked hs (hps p (by simp)) hd
    intro e he
    rcases mem_cons.mp he with rfl | he
    · exact hmark e rfl
    · exact ih hs1 (fun q hq => hps q (by simp [hq])) hrest e he

theorem transportSum_head
    (h : transportSum fragOff protocol saddr daddr data = .ok out) : out[0]? = data[0]? := by
  have hcompute : ∀ {place : ℕ} {proto : UInt8}, 0 < place →
      computeChecksum proto place saddr daddr data = .ok out → out[0]? = data[0]? := by
    intro place proto hplace h
    unfold computeChecksum at h
    split_ifs at h with hlen
    cases h
    have hz : (splice data place [0, 0]).length = data.length := splice_length hlen
    rw [getElem?_splice (by rw [hz]; exact hlen), if_neg (by omega), getElem?_splice hlen,
      if_neg (by omega)]
  unfold transportSum at h
  split_ifs at h
  · exact hcompute (by decide) h
  · exact hcompute (by decide) h
  · rw [Except.ok.inj h]
  · rw [Except.ok.inj h]

theorem generateIpPacket_cases {r : Option IpPacket}
    (h : generateIpPacket dev 5 tos id fragOff ttl protocol saddr daddr data = .ok r) :
    ∀ p, r = some p → p.header = buildHeader 5 tos id fragOff ttl protocol saddr daddr
      (data.length + 20) ∧ p.data[0]? = data[0]? := by
  have hihl : ¬ (5 : UInt8).toNat * 4 < iphdrSize := by decide
  rw [generateIpPacket, if_neg hihl] at h
  split_ifs at h with hsize
  · cases h
    simp
  · obtain ⟨out, hout, h⟩ := Kernel.bind_eq_ok h
    cases h
    rintro p hp
    cases hp
    exact ⟨rfl, transportSum_head hout⟩

theorem packetsLoop_tame (hzero : ∀ b ∈ left, b = 0)
    (h : packetsLoop dev tr m n turns i sizeSend left = .ok ps) : ∀ p ∈ ps, Tame p := by
  induction turns generalizing i sizeSend left ps with
  | zero => cases h
  | succ turns ih =>
    rw [packetsLoop] at h
    split_ifs at h
    · simp only at h
      obtain ⟨r, hr, h⟩ := Kernel.bind_eq_ok h
      cases r with
      | none =>
        cases h
        simp
      | some q =>
        obtain ⟨rest, hrest, h⟩ := Kernel.bind_eq_ok h
        cases h
        obtain ⟨hheader, hhead⟩ := generateIpPacket_cases hr q rfl
        refine forall_mem_cons.mpr ⟨⟨?_, fun _ hmark => ?_⟩,
          ih (fun b hb => hzero b (mem_of_mem_drop hb)) hrest⟩
        · rw [hheader]
          rfl
        · rw [hhead] at hmark
          have := hzero 1 (mem_of_mem_take (mem_of_getElem? hmark))
          simp at this
    · cases h
      simp

theorem packetsLoop_cons (hi : i < n) (hm : m + 20 ≤ dev.maxSizeTxPacket)
    (h : packetsLoop dev tr m n turns i sizeSend left = .ok ps) :
    ∃ p rest turns', ps = p :: rest ∧
      p.header = buildHeader 5 tr.tos tr.id (fragField sizeSend (left.drop m).length m) tr.ttl
        tr.protocol tr.saddr tr.daddr ((left.take m).length + 20) ∧
      packetsLoop dev tr m n turns' (wadd i m) (sizeSend + (left.take m).length) (left.drop m) =
        .ok rest := by
  cases turns with
  | zero => cases h
  | succ turns =>
    rw [packetsLoop, if_pos hi] at h
    obtain ⟨r, hr, h⟩ := Kernel.bind_eq_ok h
    cases r with
    | none =>
      have hlen := length_take_le m left
      have hihl : ¬ (5 : UInt8).toNat * 4 < iphdrSize := by decide
      have hsize : ¬ dev.maxSizeTxPacket < (left.take m).length + iphdrSize := by
        unfold iphdrSize
        omega
      rw [generateIpPacket, if_neg hihl, if_neg hsize] at hr
      obtain ⟨_, _, hr⟩ := Kernel.bind_eq_ok hr
      cases hr
    | some q =>
      obtain ⟨rest, hrest, h⟩ := Kernel.bind_eq_ok h
      cases h
      exact ⟨q, rest, turns, rfl, (generateIpPacket_cases hr q rfl).1, hrest⟩

theorem not_roundTrip (hdev : 28 ≤ dev.maxSizeTxPacket) (hc : tr.Carries n)
    (hlong : dev.maxSizeTxPacket - 20 < n) (hn : n ≤ 65515) :
    ¬ RoundTrip dev tr (1 :: List.replicate (n - 1) 0) := by
  rintro ⟨packets, hpackets, hall⟩
  set payload : List UInt8 := 1 :: List.replicate (n - 1) 0 with hpayload
  have hlen : payload.length = n := by simp [hpayload]; omega
  set m := dev.maxSizeTxPacket - 20 with hm
  rw [generateIpPackets, maxPacketSize_eq hdev, ← hm, hlen] at hpackets
  obtain ⟨p, rest, turns, rfl, hheader, hrest⟩ := packetsLoop_cons (by omega) (by omega) hpackets
  rw [wadd_of_lt (by omega)] at hrest
  obtain ⟨q, rest', _, hrest', _, _⟩ := packetsLoop_cons (by omega) (by omega) hrest
  obtain ⟨data, hdata, ⟨c, hsum⟩, _⟩ := hall _ (List.Perm.refl _) (fun _ => 0) [] (by simp [Transport.Unrelated])
  have hproto : tr.protocol = ipprotoTcp ∨ tr.protocol = ipprotoUdp := by
    obtain ⟨h, _⟩ | ⟨h, _⟩ := hc
    · exact .inl h
    · exact .inr h
  have hfield : p.header.fragOff = htons (fragField 0 (n - m) m) := by
    rw [hheader, length_drop, hlen]
    rfl
  by_cases hmore : n - m > m
  · -- the first packet claims the place 32, and only later ones can claim the place 0
    have htame : ∀ p' ∈ p :: rest, Tame p' := by
      refine forall_mem_cons.mpr ⟨⟨by rw [hheader]; rfl, fun hzero => ?_⟩,
        packetsLoop_tame (fun b hb => ?_) hrest⟩
      · rw [hfield, fragField, if_pos hmore] at hzero
        exact absurd hzero (by decide)
      · obtain ⟨k, hk⟩ : ∃ k, m = k + 1 := ⟨m - 1, by omega⟩
        rw [hpayload, hk, drop_succ_cons] at hb
        exact (mem_replicate.mp (mem_of_mem_drop hb)).2
    have hmark := processAll_marked (by simp [Marked]) htame hdata
      ⟨tr.protocol, tr.saddr, data⟩ (by simp)
    refine hmark ?_
    have hplace : 6 ≤ sumPlace tr.protocol ∧ sumPlace tr.protocol + 2 ≤ payload.length := by
      rw [hlen]
      obtain ⟨h, hle⟩ | ⟨h, hle⟩ := hc
      · rw [sumPlace, if_pos h, thSum]
        omega
      · rw [sumPlace, if_neg (by rw [h]; decide), uhSum]
        omega
    simp only
    rw [hsum, getElem?_splice (by rw [toLe_length]; exact hplace.2), if_neg (by omega)]
    rfl
  · -- the first packet does not look like a fragment at all
    rw [fragField, if_neg hmore] at hfield
    rw [hrest', processAll] at hdata
    obtain ⟨⟨d, s1⟩, hd, hdata⟩ := Kernel.bind_eq_ok hdata
    obtain ⟨ds, _, hdata⟩ := Kernel.bind_eq_ok hdata
    have hnone : d = none := by
      have := Except.ok.inj hdata
      simp only [length_cons, Nat.add_sub_cancel, replicate_succ, cons_append,
        List.cons.injEq] at this
      exact this.1
    rw [processIpPacket, if_pos (by rw [hheader]; rfl), if_pos (by rw [hfield]; decide)] at hd
    obtain ⟨data, _, hd⟩ := Kernel.bind_eq_ok hd
    obtain ⟨rfl, _⟩ := Prod.mk.inj (Except.ok.inj hd)
    rw [processFullPacket, if_pos (by rw [hheader]; exact hproto)] at hnone
    cases hnone

/-- Every payload of a size arrives as it was sent exactly if that size fits into one packet. -/
theorem roundTrip_iff_fits (dev : NetDevice) (hdev : 28 ≤ dev.maxSizeTxPacket) (tr : Transport)
    (n : ℕ) (hn : n ≤ 65515) (hc : tr.Carries n) :
    (∀ payload : List UInt8, payload.length = n → RoundTrip dev tr payload) ↔
      n ≤ dev.maxSizeTxPacket - 20 := by
  constructor
  · intro h
    by_contra hlong
    refine not_roundTrip hdev hc (Nat.lt_of_not_le hlong) hn (h _ ?_)
    rw [length_cons, length_replicate]
    omega
  · rintro hfit payload rfl
    exact roundTrip_of_fits hdev hc hn hfit

/-- An Ethernet packet with 28 bytes of UDP. -/
theorem roundTrip_small :
    RoundTrip ⟨1500, by decide⟩ ⟨0, 64, 17, 0x0100000A, 0x0200000A, 7⟩ (List.replicate 28 0) :=
  (roundTrip_iff_fits ⟨1500, by decide⟩ (by decide) ⟨0, 64, 17, 0x0100000A, 0x0200000A, 7⟩ 28
    (by decide) (.inr ⟨rfl, by decide⟩)).mpr (by decide) _ length_replicate

/-- 28 bytes of UDP over a link for packets of 40 bytes: of the two packets the first one is handed
over alone, as a transport packet of 20 bytes. -/
theorem first_fragment_handed_over :
    ((generateIpPackets ⟨40, by decide⟩ ⟨0, 64, 17, 0x0100000A, 0x0200000A, 7⟩
      (1 :: List.replicate 27 0)).bind (processAll (fun _ => 0) [])).map
        (List.map (Option.map fun d => d.data.length)) = .ok [some 20, none] ∧
    ¬ RoundTrip ⟨40, by decide⟩ ⟨0, 64, 17, 0x0100000A, 0x0200000A, 7⟩ (1 :: List.replicate 27 0) :=
  ⟨by decide +kernel, not_roundTrip (n := 28) (by decide) (.inr ⟨rfl, by decide⟩) (by decide)
    (by decide)⟩

end Kot.Net
