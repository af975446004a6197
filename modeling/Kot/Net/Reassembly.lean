import Kot.Kernel.Machine
import Kot.Lib.Bytes
import Kot.Lib.Cover

/-! Reassembly of IP fragments (`modules/net/source/ip.c`): a datagram counts as received when the
sizes of its fragments add up to its size. -/
namespace Kot.Net

open Kot.Kernel Kot.Lib List

/-- `data_ip_fragment_t`: a copy of the bytes and their place in the datagram. -/
structure DataIpFragment where
  buffer : List UInt8
  offset : ℕ
  deriving DecidableEq

/-- `ip_fragment_t`, without its lock and its place in the list. The size `-1` is `2 ^ 64 - 1`. -/
structure IpFragment where
  saddr : UInt32
  daddr : UInt32
  id : UInt16
  protocol : UInt8
  data : List DataIpFragment
  sizeReceived : ℕ
  totalSize : ℕ
  deriving DecidableEq

def createIpFragment (saddr daddr : UInt32) (id : UInt16) (protocol : UInt8) : IpFragment :=
  ⟨saddr, daddr, id, protocol, [], 0, 2 ^ 64 - 1⟩

/-- The memory that the copies of a datagram take. -/
def IpFragment.stored (f : IpFragment) : ℕ := (f.data.map fun d => d.buffer.length).sum

/-- `add_ip_fragment`; a copy that does not fit into memory is written through a null pointer. -/
def addIpFragment (f : IpFragment) (buffer : List UInt8) (offset : ℕ) (isLast : Bool) :
    Except Fault IpFragment :=
  if heapLimit ≤ f.stored + buffer.length then .error .nullDereference
  else .ok { f with
    totalSize := if isLast then wadd offset buffer.length else f.totalSize
    sizeReceived := wadd f.sizeReceived buffer.length
    data := f.data ++ [⟨buffer, offset⟩] }

def isIpFragmentEntirelyReceived (f : IpFragment) : Bool := f.totalSize == f.sizeReceived

/-- A `memcpy` into the datagram. -/
def copyFragment (block : List UInt8) (d : DataIpFragment) : Except Fault (List UInt8) :=
  if d.buffer = [] then .ok block
  else if d.offset + d.buffer.length ≤ block.length then .ok (splice block d.offset d.buffer)
  else .error .strayAccess

/-- `generate_buffer_ip_fragment`; `stale` is what the fresh block holds. -/
def generateBufferIpFragment (stale : ℕ → UInt8) (f : IpFragment) : Except Fault (List UInt8) :=
  if isIpFragmentEntirelyReceived f then
    f.data.foldlM copyFragment (freshBytes stale f.totalSize)
  else .error .panic

/-- The arguments of a call of `add_ip_fragment`. -/
structure Piece where
  buffer : List UInt8
  offset : ℕ
  offset_lt : offset < 2 ^ 64
  isLast : Bool

namespace Piece

def data (p : Piece) : DataIpFragment := ⟨p.buffer, p.offset⟩

def range (p : Piece) : Interval := ⟨p.offset, p.buffer.length⟩

/-- The fragment is a part of the datagram, and only its end is marked as the last one. -/
structure SliceOf (p : Piece) (datagram : List UInt8) : Prop where
  inside : p.offset + p.buffer.length ≤ datagram.length
  bytes : p.buffer = (datagram.drop p.offset).take p.buffer.length
  last : p.isLast = true → p.offset + p.buffer.length = datagram.length

end Piece

/-- The fragments of a datagram in the order in which they arrive. -/
def receive (f : IpFragment) (ps : List Piece) : Except Fault IpFragment :=
  ps.foldlM (fun f p => addIpFragment f p.buffer p.offset p.isLast) f

/-- Every byte has been supplied, the buffer is written only inside, and the slices of a datagram
give it back. -/
def Sound (ps : List Piece) (f : IpFragment) : Prop :=
  (∀ i < f.totalSize, ∃ p ∈ ps, i ∈ p.range) ∧
    ∀ stale, ∃ out, generateBufferIpFragment stale f = .ok out ∧ out.length = f.totalSize ∧
      ∀ datagram, (∀ p ∈ ps, p.SliceOf datagram) → out = datagram

/-- No fragment ends behind the datagram and no two overlap. -/
def Fits (ps : List Piece) (f : IpFragment) : Prop :=
  (∀ p ∈ ps, p.buffer ≠ [] → p.range.stop ≤ f.totalSize) ∧
    (ps.map Piece.range).Pairwise Interval.Disjoint

variable {f g : IpFragment} {ps : List Piece} {p : Piece} {d : DataIpFragment}
  {block out datagram : List UInt8}

theorem addIpFragment_cases {buffer : List UInt8} {offset : ℕ} {isLast : Bool}
    (h : addIpFragment f buffer offset isLast = .ok g) :
    f.stored + buffer.length < heapLimit ∧ g = { f with
      totalSize := if isLast then wadd offset buffer.length else f.totalSize
      sizeReceived := wadd f.sizeReceived buffer.length
      data := f.data ++ [⟨buffer, offset⟩] } := by
  unfold addIpFragment at h
  by_cases hlim : heapLimit ≤ f.stored + buffer.length
  · rw [if_pos hlim] at h
    cases h
  · rw [if_neg hlim] at h
    exact ⟨Nat.lt_of_not_le hlim, (Except.ok.inj h).symm⟩

/-- What a record holds after some fragments. -/
structure Received (f : IpFragment) (ps : List Piece) : Prop where
  data : f.data = ps.map Piece.data
  size : f.sizeReceived = f.stored
  stored_lt : f.stored < heapLimit
  total : f.totalSize = 2 ^ 64 - 1 ∨
    ∃ p ∈ ps, p.isLast = true ∧ f.totalSize = wadd p.offset p.buffer.length

theorem Received.create (saddr daddr : UInt32) (id : UInt16) (protocol : UInt8) :
    Received (createIpFragment saddr daddr id protocol) [] :=
  ⟨rfl, rfl, Nat.two_pow_pos 47, .inl rfl⟩

theorem Received.add (h : Received f ps) (hg : addIpFragment f p.buffer p.offset p.isLast = .ok g) :
    Received g (ps ++ [p]) := by
  obtain ⟨hlim, rfl⟩ := addIpFragment_cases hg
  have hstored : IpFragment.stored { f with
      totalSize := if p.isLast then wadd p.offset p.buffer.length else f.totalSize
      sizeReceived := wadd f.sizeReceived p.buffer.length
      data := f.data ++ [⟨p.buffer, p.offset⟩] } = f.stored + p.buffer.length := by
    simp [IpFragment.stored]
  refine ⟨?_, ?_, ?_, ?_⟩
  · simp [h.data, Piece.data]
  · rw [hstored, h.size]
    exact wadd_of_lt (Nat.lt_trans hlim (by decide))
  · rw [hstored]
    exact hlim
  · by_cases hlast : p.isLast = true
    · exact .inr ⟨p, by simp, hlast, by simp [hlast]⟩
    · rcases h.total with ht | ⟨q, hq, hql, hqt⟩
      · exact .inl (by simp [hlast, ht])
      · exact .inr ⟨q, by simp [hq], hql, by simp [hlast, hqt]⟩

theorem received_of_receive {qs : List Piece} (h : Received f qs) (hg : receive f ps = .ok g) :
    Received g (qs ++ ps) := by
  induction ps generalizing f qs with
  | nil =>
    obtain rfl : f = g := Except.ok.inj hg
    simpa using h
  | cons p ps ih =>
    rw [receive, foldlM_cons] at hg
    obtain ⟨f', hf', hg⟩ := Kernel.bind_eq_ok hg
    simpa using ih (h.add hf') hg

theorem copyFragment_eq (h : d.buffer ≠ [] → d.offset + d.buffer.length ≤ block.length) :
    copyFragment block d = .ok (if d.buffer = [] then block else splice block d.offset d.buffer) := by
  unfold copyFragment
  by_cases hnil : d.buffer = []
  · simp [hnil]
  · rw [if_neg hnil, if_pos (h hnil), if_neg hnil]

theorem getElem?_copy (h : d.buffer ≠ [] → d.offset + d.buffer.length ≤ block.length) {i : ℕ} :
    (if d.buffer = [] then block else splice block d.offset d.buffer)[i]? =
      if d.offset ≤ i ∧ i < d.offset + d.buffer.length then d.buffer[i - d.offset]? else block[i]? := by
  by_cases hnil : d.buffer = []
  · rw [if_pos hnil, if_neg (by simp [hnil])]
  · rw [if_neg hnil, getElem?_splice (h hnil)]

theorem foldlM_copyFragment {ds : List DataIpFragment}
    (h : ∀ d ∈ ds, d.buffer ≠ [] → d.offset + d.buffer.length ≤ block.length) :
    ∃ out, ds.foldlM copyFragment block = .ok out ∧ out.length = block.length ∧
      ∀ i, (∃ d ∈ ds, (d.offset ≤ i ∧ i < d.offset + d.buffer.length) ∧
        out[i]? = d.buffer[i - d.offset]?) ∨
        (∀ d ∈ ds, ¬ (d.offset ≤ i ∧ i < d.offset + d.buffer.length)) ∧ out[i]? = block[i]? := by
  induction ds generalizing block with
  | nil => exact ⟨block, rfl, rfl, fun i => .inr ⟨by simp, rfl⟩⟩
  | cons d ds ih =>
    have hd := h d (by simp)
    set block' := if d.buffer = [] then block else splice block d.offset d.buffer with hblock
    have hlen : block'.length = block.length := by
      rw [hblock]
      split_ifs with hnil
      · rfl
      · exact splice_length (hd hnil)
    have hds : ∀ e ∈ ds, e.buffer ≠ [] → e.offset + e.buffer.length ≤ block'.length := by
      intro e he
      rw [hlen]
      exact h e (by simp [he])
    obtain ⟨out, hout, hlen', hbytes⟩ := ih hds
    refine ⟨out, ?_, hlen'.trans hlen, fun i => ?_⟩
    · rw [foldlM_cons, copyFragment_eq hd]
      exact hout
    · rcases hbytes i with ⟨e, he, hcov, hi⟩ | ⟨hnot, hi⟩
      · exact .inl ⟨e, by simp [he], hcov, hi⟩
      · rw [hi, hblock, getElem?_copy hd]
        split_ifs with hcov
        · exact .inl ⟨d, by simp, hcov, rfl⟩
        · exact .inr ⟨forall_mem_cons.mpr ⟨hcov, hnot⟩, rfl⟩

theorem inside_of_foldlM_copyFragment {ds : List DataIpFragment}
    (h : ds.foldlM copyFragment block = .ok out) :
    ∀ d ∈ ds, d.buffer ≠ [] → d.offset + d.buffer.length ≤ block.length := by
  induction ds generalizing block with
  | nil => simp
  | cons d ds ih =>
    rw [foldlM_cons] at h
    obtain ⟨block', hb, h⟩ := Kernel.bind_eq_ok h
    have hd : d.buffer ≠ [] → d.offset + d.buffer.length ≤ block.length := by
      intro hnil
      by_contra hout
      rw [copyFragment, if_neg hnil, if_neg hout] at hb
      cases hb
    have hlen : block'.length = block.length := by
      rw [copyFragment_eq hd] at hb
      cases hb
      split_ifs with hnil
      · rfl
      · exact splice_length (hd hnil)
    intro e he hnil
    rcases mem_cons.mp he with rfl | he
    · exact hd hnil
    · rw [← hlen]
      exact ih h e he hnil

namespace Received

section
variable (h : Received f ps) (hc : isIpFragmentEntirelyReceived f = true)
include h hc

theorem complete : ((ps.map Piece.range).map Interval.count).sum = f.totalSize := by
  have htotal : f.totalSize = f.sizeReceived := by simpa [isIpFragmentEntirelyReceived] using hc
  rw [htotal, h.size, IpFragment.stored, h.data, map_map, map_map]
  rfl

theorem generate_eq (stale : ℕ → UInt8) : generateBufferIpFragment stale f =
      (ps.map Piece.data).foldlM copyFragment (freshBytes stale f.totalSize) := by
  rw [generateBufferIpFragment, if_pos hc, h.data]

theorem total_eq_length (hin : ∀ p ∈ ps, p.buffer ≠ [] → p.range.stop ≤ f.totalSize)
    (hs : ∀ p ∈ ps, p.SliceOf datagram) : f.totalSize = datagram.length := by
  have hlim := h.stored_lt
  have htotal : f.totalSize = f.sizeReceived := by simpa [isIpFragmentEntirelyReceived] using hc
  unfold heapLimit at hlim
  rcases h.total with ht | ⟨p, hp, hlast, ht⟩
  · rw [← h.size, ← htotal, ht] at hlim
    omega
  · rw [← (hs p hp).last hlast, ht]
    refine wadd_of_lt ?_
    by_cases hnil : p.buffer = []
    · simpa [hnil] using p.offset_lt
    · have hstop := hin p hp hnil
      rw [htotal, h.size] at hstop
      exact Nat.lt_trans (Nat.lt_of_le_of_lt hstop hlim) (by decide)

theorem sound_of_fits (hf : Fits ps f) : Sound ps f := by
  have hcover : ∀ i < f.totalSize, ∃ p ∈ ps, i ∈ p.range := by
    have hin : ∀ r ∈ ps.map Piece.range, r.count ≠ 0 → r.stop ≤ f.totalSize := by
      intro r hr hcount
      obtain ⟨p, hp, rfl⟩ := mem_map.mp hr
      exact hf.1 p hp fun hnil => hcount (by simp [Piece.range, hnil])
    intro i hi
    obtain ⟨r, hr, hir⟩ := (covers_iff_disjoint hin (h.complete hc)).mpr hf.2 i hi
    obtain ⟨p, hp, rfl⟩ := mem_map.mp hr
    exact ⟨p, hp, hir⟩
  refine ⟨hcover, fun stale => ?_⟩
  have hin : ∀ d ∈ ps.map Piece.data, d.buffer ≠ [] →
      d.offset + d.buffer.length ≤ (freshBytes stale f.totalSize).length := by
    intro d hd hnil
    obtain ⟨p, hp, rfl⟩ := mem_map.mp hd
    rw [freshBytes_length]
    exact hf.1 p hp hnil
  obtain ⟨out, hout, hlen, hbytes⟩ := foldlM_copyFragment hin
  rw [freshBytes_length] at hlen
  refine ⟨out, (h.generate_eq hc stale).trans hout, hlen, fun datagram hs => ?_⟩
  have htotal := h.total_eq_length hc hf.1 hs
  refine ext_getElem? fun i => ?_
  rcases Nat.lt_or_ge i f.totalSize with hi | hi
  · rcases hbytes i with ⟨d, hd, hcov, hi'⟩ | ⟨hnot, _⟩
    · obtain ⟨p, hp, rfl⟩ := mem_map.mp hd
      obtain ⟨hlo, hhi⟩ : p.offset ≤ i ∧ i < p.offset + p.buffer.length := hcov
      have hlt : i - p.offset < p.buffer.length := by omega
      rw [hi', show p.data.buffer = p.buffer from rfl, show p.data.offset = p.offset from rfl,
        (hs p hp).bytes, getElem?_take_of_lt hlt, getElem?_drop]
      congr 1
      omega
    · obtain ⟨p, hp, hip⟩ := hcover i hi
      exact absurd hip (hnot p.data (mem_map_of_mem hp))
  · rw [getElem?_eq_none (by omega), getElem?_eq_none (by omega)]

theorem fits_of_sound (hs : Sound ps f) : Fits ps f := by
  obtain ⟨out, hout, _⟩ := hs.2 fun _ => 0
  rw [h.generate_eq hc] at hout
  have hin : ∀ p ∈ ps, p.buffer ≠ [] → p.range.stop ≤ f.totalSize := by
    intro p hp hnil
    have := inside_of_foldlM_copyFragment hout p.data (mem_map_of_mem hp) hnil
    rwa [freshBytes_length] at this
  refine ⟨hin, (covers_iff_disjoint ?_ (h.complete hc)).mp ?_⟩
  · intro r hr hcount
    obtain ⟨p, hp, rfl⟩ := mem_map.mp hr
    exact hin p hp fun hnil => hcount (by simp [Piece.range, hnil])
  · intro i hi
    obtain ⟨p, hp, hip⟩ := hs.1 i hi
    exact ⟨p.range, mem_map_of_mem hp, hip⟩

end

end Received

/-- When a record counts as complete, it is sound exactly if its fragments lie inside the datagram
and do not overlap. -/
theorem reassembly_sound_iff_fits (saddr daddr : UInt32) (id : UInt16) (protocol : UInt8)
    (ps : List Piece) {f : IpFragment}
    (h : receive (createIpFragment saddr daddr id protocol) ps = .ok f) :
    (isIpFragmentEntirelyReceived f = true → Sound ps f) ↔
      (isIpFragmentEntirelyReceived f = true → Fits ps f) := by
  have hr := received_of_receive (.create saddr daddr id protocol) h
  exact ⟨fun hs hc => hr.fits_of_sound hc (hs hc), fun hf hc => hr.sound_of_fits hc (hf hc)⟩

/-- Two fragments of eight bytes, the last one first. -/
def exchanged : List Piece :=
  [⟨List.replicate 8 2, 8, by decide, true⟩, ⟨List.replicate 8 1, 0, by decide, false⟩]

theorem exchanged_sound : ∃ f, receive (createIpFragment 0 0 0 17) exchanged = .ok f ∧
    isIpFragmentEntirelyReceived f = true ∧ Sound exchanged f := by
  refine ⟨_, rfl, rfl, (reassembly_sound_iff_fits 0 0 0 17 exchanged rfl).mpr (fun _ => ?_) rfl⟩
  refine ⟨by decide, ?_⟩
  rw [exchanged, map_cons, map_cons, map_nil, pairwise_pair]
  rintro i ⟨h, _⟩ ⟨_, h'⟩
  have h : 8 ≤ i := h
  have h' : i < 0 + 8 := h'
  omega

/-- The last fragment of 16 bytes twice: the count is right and the first half is missing. -/
theorem duplicate_completes : ∃ f, receive (createIpFragment 0 0 0 17)
    [⟨List.replicate 8 2, 8, by decide, true⟩, ⟨List.replicate 8 2, 8, by decide, true⟩] = .ok f ∧
    isIpFragmentEntirelyReceived f = true ∧ f.totalSize = 16 ∧
    generateBufferIpFragment (fun _ => 0xAA) f = .ok (List.replicate 8 0xAA ++ List.replicate 8 2) ∧
    ¬ Sound [⟨List.replicate 8 2, 8, by decide, true⟩,
      ⟨List.replicate 8 2, 8, by decide, true⟩] f := by
  refine ⟨_, rfl, rfl, rfl, rfl, fun h => ?_⟩
  obtain ⟨p, hp, hmem⟩ := h.1 0 (by decide)
  simp only [mem_cons, not_mem_nil, or_false, or_self] at hp
  subst hp
  exact absurd hmem (by decide)

end Kot.Net
