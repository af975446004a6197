import Kot.Net.Ip

/-! The sums in the headers of packets: whatever the buffer, the sum over it with its field filled in is
all ones. -/
namespace Kot.Net

open Kot.Kernel Kot.Lib

variable {data : List UInt8} {place : ℕ}

theorem wordSum_splice {place c : ℕ} (hplace : place % 2 = 0) (h : place + 2 ≤ data.length)
    (hc : c < 65536) :
    wordSum (splice data place (toLe 2 c)) = wordSum (splice data place [0, 0]) + c := by
  have htake : (data.take place).length % 2 = 0 := by rw [List.length_take]; omega
  have hle : toLe 2 c = [UInt8.ofNat c, UInt8.ofNat (c / 256)] := rfl
  simp only [splice, hle, List.append_assoc, wordSum_append htake, List.cons_append,
    List.nil_append, wordSum, List.length_cons, List.length_nil, UInt8.toNat_ofNat']
  have h0 : (0 : UInt8).toNat = 0 := rfl
  rw [h0]
  omega

theorem checkedSum_lt (protocol : UInt8) (saddr daddr : UInt32) (hn : data.length ≤ 65535) :
    pseudoSum saddr daddr protocol data.length + wordSum data < 2 ^ 32 := by
  have h1 := saddr.toNat_lt
  have h2 := daddr.toNat_lt
  have h3 := (htons protocol.toUInt16).toNat_lt
  have h4 := (htons (UInt16.ofNat data.length)).toNat_lt
  have hsum := wordSum_le (l := data)
  unfold pseudoSum
  omega

/-- `compute_tcp_checksum` and `compute_udp_checksum` only fill in the sum, and the whole sum is then
all ones. -/
theorem computeChecksum_eq (protocol : UInt8) (saddr daddr : UInt32) (heven : place % 2 = 0)
    (hplace : place + 2 ≤ data.length) (hn : data.length ≤ 65535) :
    ∃ c, computeChecksum protocol place saddr daddr data = .ok (splice data place (toLe 2 c)) ∧
      Folds (pseudoSum saddr daddr protocol data.length + wordSum (splice data place (toLe 2 c)))
        65535 := by
  set zeroed := splice data place [0, 0] with hz
  have hzlen : zeroed.length = data.length := splice_length hplace
  have hsmall := checkedSum_lt protocol saddr daddr (hzlen.trans_le hn)
  rw [hzlen] at hsmall
  set n := pseudoSum saddr daddr protocol data.length + wordSum zeroed with hndef
  have hfolds : Folds n (foldCarries 32 n) := folds_foldCarries hsmall (by decide)
  refine ⟨65535 - foldCarries 32 n, ?_, ?_⟩
  · rw [computeChecksum, if_pos hplace]
    simp only [← hz, hzlen, ← hndef, Nat.mod_eq_of_lt hsmall]
    have hout : splice zeroed place (toLe 2 (65535 - foldCarries 32 n)) =
        splice data place (toLe 2 (65535 - foldCarries 32 n)) := splice_splice hplace rfl
    rw [hout]
  · rw [wordSum_splice heven hplace (by omega), ← hz, ← Nat.add_assoc, ← hndef]
    exact hfolds.complement

theorem ipChecksum_eq (hn : data.length ≤ 65535) :
    (ipChecksum data).toNat = 65535 - onesSum (words data) := by
  have hsum := wordSum_le (l := data)
  set n := wordSum data with hndef
  set s := n / 2 ^ 16 + n % 2 ^ 16 with hs
  have hfolds : Folds n (s % 2 ^ 16 + s / 2 ^ 16) := ⟨by omega, by omega, by omega⟩
  have hunique := hfolds.unique (folds_onesSum data)
  rw [ipChecksum]
  simp only [← hndef, Nat.mod_eq_of_lt (show n < 2 ^ 32 by omega), ← hs, UInt16.toNat_ofNat']
  omega

/-- The pseudo header of a TCP or UDP packet as it stands in memory. -/
def pseudoHeader (saddr daddr : UInt32) (protocol : UInt8) (length : ℕ) : List UInt8 :=
  toLe 4 saddr.toNat ++ toLe 4 daddr.toNat ++ [0, protocol] ++
    [UInt8.ofNat (length / 256), UInt8.ofNat length]

theorem htons_toNat {x : UInt16} : (htons x).toNat = x.toNat % 256 * 256 + x.toNat / 256 := by
  have hx := x.toNat_lt
  rw [htons, UInt16.toNat_ofNat']
  omega

theorem htons_htons (x : UInt16) : htons (htons x) = x := by
  apply UInt16.toNat_inj.mp
  have hx := x.toNat_lt
  rw [htons_toNat, htons_toNat]
  omega

theorem wordSum_toLe_four {n : ℕ} (hn : n < 2 ^ 32) :
    wordSum (toLe 4 n) = n / 2 ^ 16 + n % 2 ^ 16 := by
  simp only [toLe, wordSum, UInt8.toNat_ofNat']
  omega

theorem wordSum_pseudoHeader {saddr daddr : UInt32} {protocol : UInt8} {length : ℕ}
    (hn : length ≤ 65535) :
    wordSum (pseudoHeader saddr daddr protocol length) = pseudoSum saddr daddr protocol length := by
  have hp := protocol.toNat_lt
  have hprotocol : wordSum [0, protocol] = (htons protocol.toUInt16).toNat := by
    rw [htons_toNat, UInt8.toNat_toUInt16, wordSum, wordSum]
    have h0 : (0 : UInt8).toNat = 0 := rfl
    omega
  have hlength : wordSum [UInt8.ofNat (length / 256), UInt8.ofNat length] =
      (htons (UInt16.ofNat length)).toNat := by
    rw [htons_toNat, UInt16.toNat_ofNat', wordSum, wordSum, UInt8.toNat_ofNat', UInt8.toNat_ofNat']
    omega
  rw [pseudoHeader, wordSum_append (by simp [toLe_length]), wordSum_append (by simp [toLe_length]),
    wordSum_append (by simp [toLe_length]), wordSum_toLe_four saddr.toNat_lt,
    wordSum_toLe_four daddr.toNat_lt, hprotocol, hlength, pseudoSum]
  omega

/-- The sums over whole packets are all ones: with the value of `ip_checksum` in a field that was zero,
and with the pseudo header for TCP and UDP. -/
theorem checksums_verify : (∀ data : List UInt8, data.length ≤ 65535 →
      (ipChecksum data).toNat = 65535 - onesSum (words data)) ∧
    (∀ (data : List UInt8) (place : ℕ), data.length ≤ 65535 → place % 2 = 0 →
      place + 2 ≤ data.length → splice data place [0, 0] = data →
      onesSum (words (splice data place (toLe 2 (ipChecksum data).toNat))) = 0xFFFF) ∧
    ∀ (saddr daddr : UInt32) (data : List UInt8), data.length ≤ 65535 →
      (thSum + 2 ≤ data.length → ∃ c, computeTcpChecksum saddr daddr data = .ok (splice data thSum c) ∧
        onesSum (words (pseudoHeader saddr daddr ipprotoTcp data.length ++ splice data thSum c)) =
          0xFFFF) ∧
      (uhSum + 2 ≤ data.length → ∃ c, computeUdpChecksum saddr daddr data = .ok (splice data uhSum c) ∧
        onesSum (words (pseudoHeader saddr daddr ipprotoUdp data.length ++ splice data uhSum c)) =
          0xFFFF) := by
  refine ⟨fun _ => ipChecksum_eq, fun data place hn heven hplace hzero => ?_, fun saddr daddr data hn => ?_⟩
  · have hfolds := folds_onesSum data
    refine (folds_onesSum _).unique ?_
    rw [wordSum_splice heven hplace (UInt16.toNat_lt _), hzero, ipChecksum_eq hn]
    exact hfolds.complement
  · have hsum : ∀ (protocol : UInt8) (place : ℕ), place % 2 = 0 → place + 2 ≤ data.length →
        ∃ c, computeChecksum protocol place saddr daddr data = .ok (splice data place c) ∧
          onesSum (words (pseudoHeader saddr daddr protocol data.length ++ splice data place c)) =
            0xFFFF := by
      intro protocol place heven hplace
      obtain ⟨c, hout, hfolds⟩ := computeChecksum_eq protocol saddr daddr heven hplace hn
      refine ⟨toLe 2 c, hout, (folds_onesSum _).unique ?_⟩
      have hlen : (pseudoHeader saddr daddr protocol data.length).length % 2 = 0 := by
        simp [pseudoHeader, toLe_length]
      rwa [wordSum_append hlen, wordSum_pseudoHeader hn]
    exact ⟨hsum ipprotoTcp thSum rfl, hsum ipprotoUdp uhSum rfl⟩

/-- A header of 12 bytes, and a TCP header without data and a UDP packet of odd length. -/
theorem checksums_verify_small : onesSum (words (splice (List.replicate 12 0) 10
      (toLe 2 (ipChecksum (List.replicate 12 0)).toNat))) = 0xFFFF ∧
    (∃ c, computeTcpChecksum 1 2 (List.replicate 20 7) = .ok (splice (List.replicate 20 7) thSum c) ∧
      onesSum (words (pseudoHeader 1 2 ipprotoTcp 20 ++ splice (List.replicate 20 7) thSum c)) =
        0xFFFF) ∧
    ∃ c, computeUdpChecksum 1 2 (List.replicate 9 7) = .ok (splice (List.replicate 9 7) uhSum c) ∧
      onesSum (words (pseudoHeader 1 2 ipprotoUdp 9 ++ splice (List.replicate 9 7) uhSum c)) = 0xFFFF := by
  have hip := checksums_verify.2.1 (List.replicate 12 0) 10 (by decide) (by decide) (by decide) (by decide)
  have htcp := (checksums_verify.2.2 1 2 (List.replicate 20 7) (by decide)).1 (by decide)
  have hudp := (checksums_verify.2.2 1 2 (List.replicate 9 7) (by decide)).2 (by decide)
  exact ⟨hip, htcp, hudp⟩

end Kot.Net
