import Kot.Kernel.Pmm.Taking

/-! What each call does to bits and counters when it returns, whatever the free list says. -/
namespace Kot.Kernel.Pmm
open Kot.Lib

variable {s s' : PmmState} {b b' : Bitmap} {i j n turns address : ℕ} {v : Bool}

theorem bitsSet_of_ok (h : bitmapSetBits b i n v = .ok b') (hw : 8 * b.size < 2 ^ 64) :
    BitsSet b b' i n v ∧ (0 < n → i + n ≤ 8 * b.size) := by
  rcases Nat.eq_zero_or_pos n with rfl | hn
  · cases h
    refine ⟨⟨⟨rfl, rfl⟩, fun x => ?_⟩, by omega⟩
    rw [if_neg (by omega)]
  · have hb := bitmapSetBits_ok h hn hw
    obtain ⟨b1, h1, hplace, hbit⟩ := bitmapSetBits_spec hb (by omega)
    obtain rfl := Except.ok.inj (h1.symm.trans h)
    exact ⟨⟨hplace, hbit⟩, fun _ => hb⟩

theorem acquire_ok (h : s.acquire = .ok s') : s.pmmLock = false ∧ s' = { s with pmmLock := true } := by
  unfold PmmState.acquire at h
  split_ifs at h with hl
  exact ⟨by simpa using hl, (Except.ok.inj h).symm⟩

theorem pmmFreePagesIndex_ok (h : pmmFreePagesIndex s i n = .ok s')
    (hw : 8 * s.pmmBitmap.size < 2 ^ 64) :
    s.pmmLock = false ∧ ∃ s1 b, BitsSet s.pmmBitmap b i n false ∧
      (0 < n → i + n ≤ 8 * s.pmmBitmap.size) ∧ s' = freedState s s1 b i n := by
  obtain ⟨s0, h0, h⟩ := bind_eq_ok h
  obtain ⟨hlock, rfl⟩ := acquire_ok h0
  obtain ⟨s1, h1, h⟩ := bind_eq_ok h
  obtain ⟨s2, h2, h⟩ := bind_eq_ok h
  obtain ⟨b, hb, h2⟩ := bind_eq_ok h2
  have hv := pmmAddPageToFreeList_sameVars h1
  rw [hv.bitmap] at hb
  obtain ⟨hset, hbound⟩ := bitsSet_of_ok hb hw
  refine ⟨hlock, s1, b, hset, hbound, ?_⟩
  cases h
  cases h2
  rw [hv]
  simp [PmmState.release, freedState, hlock]

theorem pmmLockPagesIndex_ok (h : pmmLockPagesIndex s i n = .ok s')
    (hw : 8 * s.pmmBitmap.size < 2 ^ 64) :
    ∃ b, BitsSet s.pmmBitmap b i n true ∧ (0 < n → i + n ≤ 8 * s.pmmBitmap.size) ∧ s' = { s with
        pmmBitmap := b
        availablePages := wsub s.availablePages n
        usedPages := wadd s.usedPages n } := by
  obtain ⟨b, hb, h⟩ := bind_eq_ok h
  obtain ⟨hset, hbound⟩ := bitsSet_of_ok hb hw
  exact ⟨b, hset, hbound, (Except.ok.inj h).symm⟩

theorem scanPages_ok (h : scanPages b i n = .ok (some (j, b'))) :
    b.Clear j ∧ j < i + n ∧ BitsSet b b' j 1 true := by
  induction n generalizing i with
  | zero => cases h
  | succ n ih =>
    obtain ⟨⟨used, b1⟩, hg, h⟩ := bind_eq_ok h
    obtain ⟨v, hv, hg⟩ := bind_eq_ok hg
    obtain ⟨hi, rfl⟩ := bitmapGetBit_ok hv
    obtain ⟨b2, h2, hplace, hbits⟩ := bitmapSetBit_spec (v := true) hi
    cases hbit : b.bit i with
    | false =>
      simp only [hbit, h2, ne_eq, Bool.false_eq_true, not_false_eq_true, if_true, ok_bind] at hg
      cases hg
      simp only [Bool.false_eq_true, if_false, Except.ok.injEq, Option.some.injEq,
        Prod.mk.injEq] at h
      obtain ⟨rfl, rfl⟩ := h
      refine ⟨⟨hi, hbit⟩, by omega, hplace, fun x => ?_⟩
      rw [hbits]
      simp only [show (i ≤ x ∧ x < i + 1) ↔ x = i by omega]
    | true =>
      simp only [hbit, ne_eq, not_true_eq_false, if_false] at hg
      cases hg
      simp only [if_true] at h
      obtain ⟨hc, hj, hset⟩ := ih h
      exact ⟨hc, by omega, hset⟩

theorem pmmAllocatePage_ok (h : pmmAllocatePage s = .ok (address, s')) :
    ∃ j t b, s.pmmBitmap.Clear j ∧ BitsSet s.pmmBitmap b j 1 true ∧
      address = j * pageSize ∧ s' = takenState s t b j 1 := by
  obtain ⟨s0, h0, h⟩ := bind_eq_ok h
  obtain ⟨hlock, rfl⟩ := acquire_ok h0
  obtain ⟨found, hscan, h⟩ := bind_eq_ok h
  cases found with
  | none => cases h
  | some jb =>
    obtain ⟨j, b⟩ := jb
    obtain ⟨hc, -, hset⟩ := scanPages_ok hscan
    obtain ⟨t, ht, h⟩ := bind_eq_ok h
    cases h
    refine ⟨j, t, b, hc, hset, rfl, ?_⟩
    rw [pmmRemovePagesToFreeList_sameVars ht]
    simp [PmmState.release, takenState, hlock]

theorem pmmAllocatePages_ok (h : pmmAllocatePages turns s n = .ok (address, s'))
    (hw : 8 * s.pmmBitmap.size < 2 ^ 64) :
    ∃ node t b, findRun s n turns s.pmmLastFreeEntry = .ok node ∧
      BitsSet s.pmmBitmap b node.indexStart n true ∧
      (0 < n → node.indexStart + n ≤ 8 * s.pmmBitmap.size) ∧
      address = node.indexStart * pageSize ∧
      s' = takenState s t b s.pmmFirstFreePageIndex n := by
  obtain ⟨s0, h0, h⟩ := bind_eq_ok h
  obtain ⟨hlock, rfl⟩ := acquire_ok h0
  obtain ⟨node, hnode, h⟩ := bind_eq_ok h
  rw [findRun_lock] at hnode
  obtain ⟨s1, h1, h⟩ := bind_eq_ok h
  obtain ⟨b, hset, hbound, rfl⟩ := pmmLockPagesIndex_ok h1 hw
  obtain ⟨t, ht, h⟩ := bind_eq_ok h
  cases h
  refine ⟨node, t, b, hnode, hset, hbound, rfl, ?_⟩
  rw [pmmRemovePagesToFreeList_sameVars ht]
  simp [PmmState.release, takenState, hlock]

end Kot.Kernel.Pmm
