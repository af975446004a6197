import Kot.Kernel.Pmm.Tracked

/-! Taking pages from the start of a free run, and how the two allocation functions choose
that run: the lowest clear bit, or the first listed run with enough pages. -/
namespace Kot.Kernel.Pmm
open Kot.Lib List Interval

/-- How the runs and the links change when `k` pages are taken from the run at `i`. -/
inductive Taken (s s' : PmmState) (i k : ℕ) : List Interval → List Interval → Prop
  | whole {r : Interval} {l1 l2 : List Interval} (hi : r.start = i) (hk : r.count = k)
      (hv : SameVars s s') (hu : ∀ x, (s'.info x).unlinked = (s.info x).unlinked)
      (hlink : Bypassed s s' i) : Taken s s' i k (l1 ++ r :: l2) (l1 ++ l2)
  | part {r : Interval} {l1 l2 : List Interval} (hi : r.start = i) (hk : k < r.count)
      (hin : Installed s s' ⟨i + k, r.count - k⟩) (hlink : Moved s s' i (i + k)) :
      Taken s s' i k (l1 ++ r :: l2) (l1 ++ ⟨i + k, r.count - k⟩ :: l2)

variable {s s' : PmmState} {r q : Interval} {i j k n turns : ℕ} {rs rs' : List Interval}
  {b b' : Bitmap}

theorem Taken.sameVars (h : Taken s s' i k rs rs') : SameVars s s' := by
  cases h with
  | whole _ _ hv _ _ => exact hv
  | part _ _ hin _ => exact hin.same

theorem pmmRemovePagesToFreeList_spec (h : Recorded s rs) (hr : r ∈ rs) (hk : k ≤ r.count)
    (hw : r.stop < 2 ^ 64) (hpos : 0 < r.count) (hc : ∀ x ∈ r, ¬ s.pmmBitmap.covers x) :
    ∃ s' rs', pmmRemovePagesToFreeList s r.start k = .ok s' ∧ Taken s s' r.start k rs rs' := by
  have hst := h.stored r hr
  have hstart : ¬ s.pmmBitmap.covers r.start :=
    hc _ (by simp only [mem_iff, stop]; omega)
  have hmem : r.start ∈ rs.map Interval.start := mem_map_of_mem hr
  obtain ⟨l1, l2, rfl⟩ := append_of_mem hr
  unfold pmmRemovePagesToFreeList
  rw [load_eq hstart, ok_bind, hst.pageCount]
  split_ifs with hcount
  · obtain ⟨s', hs', hv, hu, hby⟩ := unlinkNode_spec (h.pointers.last _ hmem)
      (h.pointers.next _ hmem) rfl rfl
    exact ⟨s', _, hs', .whole rfl hcount hv hu hby⟩
  · obtain ⟨s', hs', hin, hmv⟩ := shrinkRun_spec (k := k) hst (by omega) hw hc
    exact ⟨s', _, hs', .part rfl (by omega) hin hmv⟩

theorem Taken.runs {P P' : ℕ → Prop} (ht : Taken s s' i k rs rs') (h : Runs P rs)
    (hp : ∀ x, P' x ↔ P x ∧ ¬ (i ≤ x ∧ x < i + k)) : Runs P' rs' := by
  cases ht with
  | @whole r l1 l2 hi hk _ _ _ =>
    refine (h.perm perm_middle).tail fun x => ?_
    rw [hp, mem_iff, stop, hi, hk]
  | @part r l1 l2 hi hk _ _ =>
    subst hi
    have hrl := h.perm perm_middle
    have hmem : r ∈ r :: (l1 ++ l2) := by simp
    have hstop : (⟨r.start + k, r.count - k⟩ : Interval).stop = r.stop := by
      simp only [stop]
      omega
    refine Runs.perm (hrl.replace (by dsimp only; omega) ?_ ?_ ?_ ?_) perm_middle.symm
    · intro x hx _
      simp only [mem_iff, hstop] at *
      omega
    · intro x hx hpx
      by_cases hk0 : k = 0
      · exact absurd hpx (hrl.before hmem (by dsimp only at hx; omega))
      · simp only [mem_iff, stop] at *
        omega
    · rw [hstop]
      exact fun hpx => absurd hpx (hrl.after hmem)
    · intro x
      have hxr : x ∈ r → P x := hrl.all hmem
      rw [hp]
      simp only [mem_iff, hstop] at *
      constructor
      · rintro ⟨hpx, hx⟩
        by_cases hxr' : r.start ≤ x ∧ x < r.stop
        · right
          omega
        · exact .inl ⟨hpx, hxr'⟩
      · rintro (⟨hpx, hx⟩ | hx)
        · refine ⟨hpx, ?_⟩
          simp only [stop] at *
          omega
        · exact ⟨hxr ⟨by omega, hx.2⟩, by omega⟩

theorem Taken.recorded {P : ℕ → Prop} (ht : Taken s s' i k rs rs') (h : Recorded s rs)
    (hi : ∀ r ∈ rs, ∀ x ∈ r, ¬ s.pmmBitmap.covers x) (hr : Runs P rs') : Recorded s' rs' := by
  cases ht with
  | @whole r l1 l2 hstart hk hv hu hlink =>
    subst hstart
    have hsub := (sublist_cons_self r l2 |>.append_left l1).subset
    refine ⟨fun q hq => (h.stored q (hsub hq)).congr (hu _) (hu _), ?_⟩
    refine (hlink.pointersOk hv.bitmap h.pointers (by simp)).mono ?_
    exact fun c hc => (map_subset _ hsub) hc
  | @part r l1 l2 hstart hk hin hlink =>
    subst hstart
    refine hlink.recorded hin h (hi r (by simp) _ ?_) hr
    simp only [mem_iff, stop]
    omega

theorem scanPages_spec (hb : ∀ x, i ≤ x → x < i + n → x < 8 * b.size) :
    (∃ j b', scanPages b i n = .ok (some (j, b')) ∧ i ≤ j ∧ j < i + n ∧ b.bit j = false ∧
      (∀ x, i ≤ x → x < j → b.bit x = true) ∧ BitsSet b b' j 1 true) ∨
    scanPages b i n = .ok none ∧ ∀ x, i ≤ x → x < i + n → b.bit x = true := by
  induction n generalizing i with
  | zero => exact .inr ⟨rfl, by omega⟩
  | succ n ih =>
    have hi := hb i le_rfl (by omega)
    have hget := bitmapGetBit_eq hi
    cases hbit : b.bit i with
    | false =>
      left
      obtain ⟨b', hset, hplace, hbits⟩ := bitmapSetBit_spec (v := true) hi
      refine ⟨i, b', ?_, le_rfl, by omega, hbit, by omega, hplace, fun x => ?_⟩
      · simp [scanPages, bitmapGetSetBit, hget, hbit, hset]
      · rw [hbits]
        simp only [show (i ≤ x ∧ x < i + 1) ↔ x = i by omega]
    | true =>
      have hstep : scanPages b i (n + 1) = scanPages b (i + 1) n := by
        simp [scanPages, bitmapGetSetBit, hget, hbit]
      rw [hstep]
      rcases ih (i := i + 1) (fun x hx hxn => hb x (by omega) (by omega)) with
        ⟨j, b', hs, hij, hjn, hj, hall, hset⟩ | ⟨hs, hall⟩
      · refine .inl ⟨j, b', hs, by omega, by omega, hj, fun x hx hxj => ?_, hset⟩
        rcases Nat.eq_or_lt_of_le hx with rfl | hx
        · exact hbit
        · exact hall x hx hxj
      · refine .inr ⟨hs, fun x hx hxn => ?_⟩
        rcases Nat.eq_or_lt_of_le hx with rfl | hx
        · exact hbit
        · exact hall x hx (by omega)

theorem Tracked.take {t : PmmState} (h : Tracked s rs) (hr : r ∈ rs) (hk : k ≤ r.count)
    (hset : BitsSet s.pmmBitmap t.pmmBitmap r.start k true) (hi : t.info = s.info)
    (he : t.pmmLastFreeEntry = s.pmmLastFreeEntry) :
    ∃ t1 rs', pmmRemovePagesToFreeList t r.start k = .ok t1 ∧ Taken t t1 r.start k rs rs' ∧
      Tracked t1 rs' := by
  have hword := h.word
  obtain ⟨hpos, hstop⟩ := h.bounds hr
  have hrec := h.recorded.congr hi he fun x => hset.covers
  have hunc : ∀ q ∈ rs, ∀ x ∈ q, ¬ t.pmmBitmap.covers x := by
    intro q hq x hx
    rw [hset.covers]
    exact h.run_uncovered hq x hx
  obtain ⟨t1, rs', ht1, htaken⟩ :=
    pmmRemovePagesToFreeList_spec hrec hr hk (by omega) hpos (hunc r hr)
  have hbitmap := htaken.sameVars.bitmap
  have hruns := htaken.runs h.runs fun x => hbitmap ▸ hset.clear_true
  refine ⟨t1, rs', ht1, htaken, hruns, htaken.recorded hrec hunc hruns, fun x hx => ?_, ?_⟩
  · rw [hbitmap, hset.covers]
    rw [hbitmap, hset.clear_true] at hx
    exact h.uncovered x hx.1
  · rw [hbitmap, hset.place.2]
    exact hword

/-- What an allocation of `n` pages leaves, given the list that `t` holds. -/
def takenState (s t : PmmState) (bitmap : Bitmap) (hint n : ℕ) : PmmState :=
  { s with
    info := t.info
    pmmLastFreeEntry := t.pmmLastFreeEntry
    pmmBitmap := bitmap
    availablePages := wsub s.availablePages n
    usedPages := wadd s.usedPages n
    pmmFirstFreePageIndex := hint }

/-- The pages `i, …, i + n - 1` were taken: `s'` differs from `s` by them and the hint. -/
structure Allocated (s s' : PmmState) (hint i n : ℕ) (rs rs' : List Interval) : Prop where
  bits : BitsSet s.pmmBitmap s'.pmmBitmap i n true
  taken : ∃ t t1, t.info = s.info ∧ t.pmmLastFreeEntry = s.pmmLastFreeEntry ∧
    Taken t t1 i n rs rs' ∧ s' = takenState s t1 s'.pmmBitmap hint n
  tracked : Tracked s' rs'

theorem Tracked.allocated {t : PmmState} (h : Tracked s rs) (hint : ℕ) (hr : r ∈ rs)
    (hk : k ≤ r.count) (hset : BitsSet s.pmmBitmap b r.start k true) (hlock : s.pmmLock = false)
    (ht : t = { s with
      pmmLock := true
      pmmBitmap := b
      pmmFirstFreePageIndex := hint
      availablePages := wsub s.availablePages k
      usedPages := wadd s.usedPages k }) :
    ∃ t1 rs', pmmRemovePagesToFreeList t r.start k = .ok t1 ∧
      Allocated s t1.release hint r.start k rs rs' := by
  have hbt : t.pmmBitmap = b := by rw [ht]
  have hi : t.info = s.info := by rw [ht]
  have he : t.pmmLastFreeEntry = s.pmmLastFreeEntry := by rw [ht]
  obtain ⟨t1, rs', ht1, htaken, htr⟩ := h.take hr hk (hbt.symm ▸ hset) hi he
  have hv := htaken.sameVars
  refine ⟨t1, rs', ht1, ?_, ⟨t, t1, hi, he, htaken, ?_⟩, htr.congr rfl rfl rfl⟩
  · rw [← hbt, ← hv.bitmap] at hset
    exact hset
  · rw [hv, ht]
    simp [PmmState.release, takenState, hlock]

theorem pmmAllocatePage_spec (h : Tracked s rs) (hlock : s.pmmLock = false)
    (hhint : ∀ x, s.pmmBitmap.Clear x → s.pmmFirstFreePageIndex ≤ x)
    (hhigh : ∀ x, s.pmmBitmap.Clear x → x < s.highestPageIndex)
    (hsize : s.highestPageIndex ≤ 8 * s.pmmBitmap.size) :
    (rs = [] ∧ pmmAllocatePage s = .error .panic) ∨
      ∃ r ∈ rs, ∃ s' rs', pmmAllocatePage s = .ok (r.start * pageSize, s') ∧
        Allocated s s' r.start r.start 1 rs rs' ∧ (∀ x, s.pmmBitmap.Clear x → r.start ≤ x) ∧
        ∃ b', scanPages s.pmmBitmap s.pmmFirstFreePageIndex
          (s.highestPageIndex - s.pmmFirstFreePageIndex) = .ok (some (r.start, b')) := by
  have hacq : s.acquire = .ok { s with pmmLock := true } := by simp [PmmState.acquire, hlock]
  unfold pmmAllocatePage
  rw [hacq, ok_bind]
  rcases scanPages_spec (b := s.pmmBitmap) (i := s.pmmFirstFreePageIndex)
    (n := s.highestPageIndex - s.pmmFirstFreePageIndex) (by omega) with
    ⟨j, b', hs, hij, hj, hbit, hall, hset⟩ | ⟨hs, hall⟩
  · right
    have hclear : s.pmmBitmap.Clear j := ⟨by omega, hbit⟩
    have hlow : ∀ x, s.pmmBitmap.Clear x → j ≤ x := by
      intro x hx
      by_contra hlt
      have := hall x (hhint x hx) (by omega)
      simp [hx.2] at this
    obtain ⟨r, hr, rfl⟩ := h.run_after hclear fun y hy hc => by
      have := hlow y hc
      omega
    obtain ⟨t1, rs', ht1, hal⟩ := h.allocated r.start hr (h.bounds hr).1 hset hlock rfl
    refine ⟨r, hr, t1.release, rs', ?_, hal, hlow, b', hs⟩
    simp only [hs, ok_bind, ht1]
  · left
    constructor
    · refine eq_nil_iff_forall_not_mem.mpr fun r hr => ?_
      have hclear := h.runs.all hr (h.runs.start_mem hr)
      have := hhigh _ hclear
      have := hall _ (hhint _ hclear) (by omega)
      simp [hclear.2] at this
    · simp only [hs, ok_bind]

theorem findRun_lock {v : Bool} {p : Option ℕ} :
    findRun { s with pmmLock := v } n turns p = findRun s n turns p := by
  induction turns generalizing p with
  | zero => rfl
  | succ turns ih =>
    have hload : PmmState.load { s with pmmLock := v } p = s.load p := by cases p <;> rfl
    simp only [findRun, hload, ih]

theorem pmmAllocatePages_spec (h : Tracked s rs) (hlock : s.pmmLock = false) (hr : r ∈ rs)
    (hn : n ≤ r.count) (hfind : findRun s n turns s.pmmLastFreeEntry = .ok (s.info r.start)) :
    ∃ s' rs', pmmAllocatePages turns s n = .ok (r.start * pageSize, s') ∧
      Allocated s s' s.pmmFirstFreePageIndex r.start n rs rs' := by
  have hword := h.word
  obtain ⟨hpos, hstop⟩ := h.bounds hr
  have hacq : s.acquire = .ok { s with pmmLock := true } := by simp [PmmState.acquire, hlock]
  obtain ⟨b, hb, hplace, hbit⟩ := bitmapSetBits_spec (b := s.pmmBitmap) (i := r.start) (n := n)
    (by simp only [stop] at hstop; omega)
    (by simp only [stop] at hstop; omega)
  obtain ⟨t1, rs', ht1, hal⟩ := h.allocated s.pmmFirstFreePageIndex hr hn ⟨hplace, hbit⟩
    hlock rfl
  refine ⟨t1.release, rs', ?_, hal⟩
  unfold pmmAllocatePages pmmLockPagesIndex
  simp only [hacq, ok_bind, findRun_lock, hfind, (h.recorded.stored r hr).indexStart, hb, ht1]

end Kot.Kernel.Pmm
