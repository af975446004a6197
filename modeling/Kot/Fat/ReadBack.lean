import Kot.Fat.Cache
import Kot.Fat.ChainWrite

/-! Reading along a chain gives the bytes of its clusters, so also those that were written. -/
namespace Kot.Fat

open Kot.Kernel Kot.Lib Kot.Lib.Program List

variable {ctx : Context} {v : Volume} {c a n turns k : ℕ} {l fs rest : List ℕ} {d : List UInt8}

theorem readLoop_eq (hs : ctx.Sound) (h : Chain ctx v.next c l) (ht : l.length < turns)
    (hn : n < 2 ^ 63) : readLoop ctx turns c a n v = .ok (((v.content ctx l).drop a).take n, v) := by
  induction turns generalizing c l a n with
  | zero => omega
  | succ turns ih =>
    rw [readLoop]
    cases l with
    | nil =>
      obtain ⟨⟨_, rfl, hd⟩, _⟩ := h
      rw [if_pos (.inr (isEnd_of_le hd)), content_nil, drop_nil, take_nil]
      rfl
    | cons b l =>
      obtain rfl : c = b := h.1.choose_spec.1.1
      have hc := h.2 c mem_cons_self
      have hlen := Volume.clusterBytes_length (v := v) hc
      have hnext := getNextCluster_eq (v := v) (hs.lt_fatEntryCount hc)
      have ih := fun a n => ih (a := a) (n := n) h.tail (Nat.lt_of_succ_lt_succ ht)
      by_cases h0 : n = 0
      · rw [if_pos (.inl h0), h0, take_zero]
        rfl
      rw [if_neg (by simp [h0, hs.not_isEnd hc]), content_cons]
      by_cases ha : a < ctx.clusterSize
      · have hchunk := chunkSize_eq ha hn
        have hread : readChunk ctx c a (chunkSize ctx a n) v =
            .ok (((v.clusterBytes ctx c).drop a).take (chunkSize ctx a n), v) :=
          readChunk_eq_ok.mpr ⟨Volume.readCluster_eq hs hc (by omega), rfl⟩
        have htake : ((v.clusterBytes ctx c).drop a).take (chunkSize ctx a n) =
            ((v.clusterBytes ctx c).drop a).take n := by
          rw [take_eq_take_iff, length_drop, hlen]
          omega
        have hleft : n - chunkSize ctx a n = n - (ctx.clusterSize - a) := by omega
        rw [if_pos ha, bind_of_ok hread, bind_of_ok hnext, bind_of_ok (ih _ _ (by omega)), htake,
          hleft, drop_append_of_le_length (by omega), take_append, length_drop, hlen]
        rfl
      · have hdrop : (v.clusterBytes ctx c).drop a = [] := drop_eq_nil_of_le (by omega)
        rw [if_neg ha, bind_of_ok hnext, ih _ _ hn, drop_append, hdrop, hlen, nil_append]

/-- A read of an open file moves its position to `min (position + n) size`. From a position inside
the file it reports the bytes up to there and gives those of the chain, from one behind the end it
reports the way back as an unsigned number. -/
theorem interfaceFileRead_eq (hs : ctx.Sound) {f : KernelFile}
    (h : Chain ctx v.next f.file.entry.cluster l)
    (hsize : f.file.entry.size ≤ l.length * ctx.clusterSize) (hn : n < 2 ^ 63)
    (hp : f.seekPosition < 2 ^ 63) :
    ∃ bytes size, fatInterfaceFileRead ctx f n v = .ok ((bytes, size,
        { f with seekPosition := min (f.seekPosition + n) f.file.entry.size }), v) ∧
      if f.seekPosition ≤ f.file.entry.size then size = min n (f.file.entry.size - f.seekPosition) ∧
        bytes.take size = ((v.content ctx l).drop f.seekPosition).take size
      else size + f.seekPosition = f.file.entry.size + 2 ^ 64 := by
  obtain ⟨file, p⟩ := f
  dsimp only at *
  have hlt : file.entry.size < 256 ^ 4 :=
    (fromLe_lt _).trans_le (Nat.pow_le_pow_right (by decide) (length_take_le ..))
  have hne : file.entry.cluster ≠ 0 := by
    intro h0
    rw [h0] at h
    obtain ⟨⟨d, hw, hd⟩, hdata⟩ := h
    cases l with
    | nil => exact absurd (hw ▸ hd) (by decide)
    | cons b l => exact absurd (hw.1 ▸ (hdata b mem_cons_self).1) (by decide)
  obtain ⟨bytes, hbytes⟩ : ∃ bytes, bytes = ((v.content ctx l).drop (p % 2 ^ 32)).take n := ⟨_, rfl⟩
  have hread : readFrom ctx file p n v = .ok (bytes, v) := by
    rw [readFrom, if_pos hne, fatReadClusterChain, readLoop_eq hs h (h.length_lt hs) hn, hbytes]
  have hlen : bytes.length = min n (l.length * ctx.clusterSize - p % 2 ^ 32) := by
    rw [hbytes, length_take, length_drop, content_length h.2]
  obtain ⟨size, hcut⟩ : ∃ size, size = if wadd bytes.length p > file.entry.size
    then wsub file.entry.size p else bytes.length := ⟨_, rfl⟩
  have hmove : wadd p size = min (p + n) file.entry.size ∧
      if p ≤ file.entry.size then size = min n (file.entry.size - p)
      else size + p = file.entry.size + 2 ^ 64 := by
    rw [hcut, hlen, wadd, wadd, wsub]
    split_ifs <;> omega
  have hfile : fatFileRead ctx file p n v = .ok ((bytes, size), v) := by
    rw [hcut]
    exact bind_of_ok hread
  refine ⟨bytes, size, ?_, ?_⟩
  · rw [← hmove.1]
    exact bind_of_ok hfile
  · have := hmove.2
    split_ifs at this ⊢ with hle
    · have hn : size ≤ n := by omega
      refine ⟨this, ?_⟩
      rw [hbytes, take_take, Nat.min_eq_left hn, Nat.mod_eq_of_lt (by omega)]
    · exact this

theorem interfaceFileRead_small : ∃ bytes size, fatInterfaceFileRead smallContext
      ⟨⟨.ofBytes (replicate 26 0 ++ [2, 0, 5]), []⟩, 3⟩ 9 smallVolume =
        .ok ((bytes, size, ⟨⟨.ofBytes (replicate 26 0 ++ [2, 0, 5]), []⟩, 5⟩), smallVolume) ∧
      size = 2 ∧ bytes.take size = ((smallVolume.content smallContext [2, 3, 4]).drop 3).take size :=
  interfaceFileRead_eq smallContext_sound smallVolume_chain (by decide +kernel) (by decide) (by decide)

end Kot.Fat
