import Kot.Kernel.Mm.Status

/-! The effect of `mm_allocate_region_vm` and `mm_free_region` on well-formed handlers. -/
namespace Kot.Kernel.Mm
open Kot.Lib MemoryRegion

variable {A : Allocator} {s s' : MmState} {l l1 l2 : List Ptr} {r : Ptr} {base size x : ℕ}

/-- The size a region of size `whole` keeps when it is cut at `size`. -/
def cutSize (size whole : ℕ) : ℕ := if 0 < size ∧ size < whole then size else whole

theorem split_usedAt (h : WellFormed s (l1 ++ r :: l2)) (h0 : 0 < size)
    (hs : size < (s.region r).size) :
    ∃ s' n, splitRegion A s r size = (s', n) ∧ WellFormed s' (l1 ++ r :: n :: l2) ∧
      SameHandler s s' ∧
      (∀ x, UsedAt (view s' (l1 ++ r :: n :: l2)) x ↔ UsedAt (view s (l1 ++ r :: l2)) x) ∧
      (s'.region r).extent = ⟨(s.region r).base, size, divRoundupPage size, (s.region r).isFree⟩ ∧
      (s'.region n).extent = ⟨(s.region r).base + size, (s.region r).size - size,
          divRoundupPage ((s.region r).size - size), (s.region r).isFree⟩ ∧
      view s' l2 = view s l2 := by
  obtain ⟨s', n, he, hw, hsame, hv1, hv2, hr, hn⟩ := splitRegion_wellFormed h h0 hs
  refine ⟨s', n, he, hw, hsame, fun x => ?_, hr, hn, hv2⟩
  have hx := holds_of_touching (d := (s.region r).extent) (e := (s'.region r).extent)
    (c := (s'.region n).extent) (x := x) (by rw [hr]; rfl)
    (by rw [hr, hn]; simp only [extent]; omega) (by rw [hr, hn])
  have hfr : (s'.region r).extent.isFree = (s.region r).extent.isFree := by rw [hr]; rfl
  have hfn : (s'.region n).extent.isFree = (s.region r).extent.isFree := by rw [hn]; rfl
  simp only [view_append, view_cons, usedAt_append, usedAt_cons, hv1, hv2, hx, hfr, hfn]
  tauto

theorem splitRegion_lower (size : ℕ) (h : WellFormed s (l1 ++ r :: l2)) :
    ∃ m, WellFormed (splitRegion A s r size).1 (l1 ++ r :: m) ∧
      SameHandler s (splitRegion A s r size).1 ∧
      (∀ x, UsedAt (view (splitRegion A s r size).1 (l1 ++ r :: m)) x ↔
        UsedAt (view s (l1 ++ r :: l2)) x) ∧
      ((splitRegion A s r size).1.region r).base = (s.region r).base ∧
      ((splitRegion A s r size).1.region r).isFree = (s.region r).isFree ∧
      ((splitRegion A s r size).1.region r).size = cutSize size (s.region r).size := by
  unfold cutSize
  by_cases hc : 0 < size ∧ size < (s.region r).size
  · obtain ⟨s', n, he, hw, hsame, hu, hr, -⟩ := split_usedAt h hc.1 hc.2
    rw [he, if_pos hc]
    exact ⟨n :: l2, hw, hsame, hu, congrArg Extent.base hr, congrArg Extent.isFree hr,
      congrArg Extent.size hr⟩
  · have he : splitRegion A s r size = (s, r) := by
      unfold splitRegion
      split_ifs <;> first | rfl | omega
    rw [he, if_neg hc]
    exact ⟨l2, h, .refl s, fun _ => Iff.rfl, rfl, rfl, rfl⟩

theorem splitRegion_upper (size : ℕ) (h : WellFormed s (l1 ++ r :: l2)) :
    ∃ m s' n, splitRegion A s r size = (s', n) ∧ WellFormed s' (m ++ n :: l2) ∧ SameHandler s s' ∧
      (∀ x, UsedAt (view s' (m ++ n :: l2)) x ↔ UsedAt (view s (l1 ++ r :: l2)) x) ∧
      (s'.region n).isFree = (s.region r).isFree ∧
      ((s'.region n).base, (s'.region n).size) =
        if 0 < size ∧ size < (s.region r).size then
          ((s.region r).base + size, (s.region r).size - size)
        else ((s.region r).base, (s.region r).size) := by
  by_cases hc : 0 < size ∧ size < (s.region r).size
  · obtain ⟨s', n, he, hw, hsame, hu, -, hn, -⟩ := split_usedAt h hc.1 hc.2
    refine ⟨l1 ++ [r], s', n, he, by simpa using hw, hsame, by simpa using hu,
      congrArg Extent.isFree hn, ?_⟩
    rw [if_pos hc]
    exact congrArg (fun e : Extent => (e.base, e.size)) hn
  · have he : splitRegion A s r size = (s, r) := by
      unfold splitRegion
      split_ifs <;> first | rfl | omega
    exact ⟨l1, s, r, he, h, .refl s, fun _ => Iff.rfl, rfl, by rw [if_neg hc]⟩

theorem usedAt_release {l : List Ptr} : UsedAt (view s.release l) x ↔ UsedAt (view s l) x := Iff.rfl

private theorem usedAt_run {lo hi : ℕ} {es1 es2 es3 : List Extent} {e : Extent}
    (h : Tiles Extent.base Extent.size lo (es1 ++ e :: (es2 ++ es3)) hi)
    (hx : ¬ (e.base ≤ x ∧ x < e.base + e.size + (es2.map Extent.size).sum)) :
    UsedAt (es1 ++ e :: (es2 ++ es3)) x ↔ UsedAt (es1 ++ es3) x := by
  obtain ⟨mid, -, he, -, h2⟩ := tiles_append.mp h
  obtain ⟨mid', h2, -⟩ := tiles_append.mp h2
  have hsum := h2.sum
  have hex : ¬ e.Holds x := by
    unfold Extent.Holds
    omega
  have h₂x : ¬ UsedAt es2 x := by
    rintro ⟨d, hd, hdx, -⟩
    obtain ⟨h1, h2, -⟩ := h2.bounds hd
    unfold Extent.Holds at hdx
    omega
  simp [hex, h₂x]

theorem growRegion_usedAt (size : ℕ) (h : WellFormed s (l1 ++ r :: l2)) :
    ∃ m m' s' enough, l2 = m ++ m' ∧
      growRegion r size (s.handler.regionCount + 1) s = .ok (enough, s') ∧
      WellFormed s' (l1 ++ r :: m') ∧ SameHandler s s' ∧
      (∀ x, UsedAt (view s' (l1 ++ r :: m')) x ↔
        if (s'.region r).extent.Holds x then (s.region r).isFree = false
        else UsedAt (view s (l1 ++ r :: l2)) x) ∧
      (s'.region r).base = (s.region r).base ∧
      (s'.region r).isFree = (s.region r).isFree ∧
      (s'.region r).size = (s.region r).size + totalSize s m ∧
      (enough = true → size ≤ (s'.region r).size) ∧
      (enough = false → m' = [] ∧ (s'.region r).size < size) ∧
      ∀ m0 x, m = m0 ++ [x] → (s.region r).size + totalSize s m0 < size := by
  have hcount := h.count
  obtain ⟨m, m', s', enough, rfl, hg, hw, hsame, hv1, hv2, hb, hf, hz, hlast⟩ :=
    growRegion_spec size h (i := s.handler.regionCount + 1) (by simp at hcount; omega)
  refine ⟨m, m', s', enough, rfl, hg, hw, hsame, fun x => ?_, hb, hf, hz, hlast⟩
  have ht := hw.tiles
  have ht' := h.tiles
  rw [view_append, view_cons] at ht ht'
  rw [view_append, view_cons, usedAt_mid ht, hv1, hv2]
  split
  · rw [← hf]
    rfl
  · next hx =>
    rw [view_append, view_cons, view_append] at *
    rw [usedAt_run ht']
    intro hx'
    apply hx
    simp only [Extent.Holds, extent] at hx' ⊢
    rw [hb, hz, totalSize]
    omega

theorem setLock_wellFormed (b : Bool) (h : WellFormed s l) : WellFormed (s.setLock b) l where
  linked := h.linked
  nodup := h.nodup
  live := h.live
  count := h.count
  first := h.first
  lastFree := h.lastFree
  tiles := h.tiles
  bound := h.bound

@[simp] theorem setLock_region (s : MmState) (b : Bool) : (s.setLock b).region = s.region := rfl

@[simp] theorem view_setLock (s : MmState) (b : Bool) (l : List Ptr) :
    view (s.setLock b) l = view s l := rfl

@[simp] theorem totalSize_setLock (s : MmState) (b : Bool) (l : List Ptr) :
    totalSize (s.setLock b) l = totalSize s l := rfl

def SameRange (s s' : MmState) : Prop :=
  s'.handler.base = s.handler.base ∧ s'.handler.size = s.handler.size

/-- A fixed request first grows the region of its base over the successors `m` that it
reaches. When that region is free the part from the base on is cut out of it; a used
region is left in one piece. -/
theorem allocateFixed_spec (size : ℕ) (h : WellFormed s (l1 ++ r :: l2)) (hlo : (s.region r).base ≤ base)
    (hhi : base < (s.region r).base + (s.region r).size) :
    ∃ m m' s' l', l2 = m ++ m' ∧ allocateFixed A s r base size = .ok (.success, some base, s') ∧
      WellFormed s' l' ∧ SameRange s s' ∧ s'.handler.lock = false ∧
      (m' = [] ∨ wadd (base - (s.region r).base) size ≤ (s.region r).size + totalSize s m) ∧
      (∀ m0 x, m = m0 ++ [x] →
        (s.region r).size + totalSize s m0 < wadd (base - (s.region r).base) size) ∧
      ∀ x, UsedAt (view s' l') x ↔ (if (s.region r).isFree then base ≤ x ∧ x < base + cutSize size
            ((s.region r).size + totalSize s m - (base - (s.region r).base))
          else (s.region r).base ≤ x ∧
            x < (s.region r).base + ((s.region r).size + totalSize s m)) ∨
        ¬ ((s.region r).base ≤ x ∧ x < (s.region r).base + ((s.region r).size + totalSize s m)) ∧
          UsedAt (view s (l1 ++ r :: l2)) x := by
  have hbound := h.bound
  obtain ⟨m, m', s1, enough, rfl, hg, hw, hsame, hu, hb, hf, hz, he, hne, hmin⟩ :=
    growRegion_usedAt (wadd (base - (s.region r).base) size) h
  have hend := (hw.bounds (r := r) (by simp)).2.2
  obtain ⟨hsb, hss, -⟩ := hsame.range
  have hfits : ¬ (¬ enough = true ∧ wadd s1.handler.base s1.handler.size <
      wadd (s1.region r).base (s1.region r).size) := by
    rw [wadd_of_lt (by omega), wadd_of_lt (by omega)]
    omega
  have hreach : m' = [] ∨
      wadd (base - (s.region r).base) size ≤ (s.region r).size + totalSize s m := by
    cases enough with
    | false => exact .inl (hne rfl).1
    | true => exact .inr (hz ▸ he rfl)
  rw [allocateFixed, wsub_of_le (by omega) hlo, hg]
  simp only [bind, Except.bind, if_neg hfits, hf]
  cases hfree : (s.region r).isFree with
  | false =>
    obtain ⟨s', l', hset, hw', hsame', hu'⟩ := settleRegion_spec false hw
    refine ⟨m, m', s'.release, l', rfl, by simp [hset], setLock_wellFormed _ hw',
      (hsame.trans hsame').range.imp_right And.left, rfl, hreach, hmin, fun x => ?_⟩
    rw [usedAt_release, hu', hu]
    simp only [Extent.Holds, extent, hb, hz, hfree, Bool.false_eq_true, if_false]
    split_ifs <;> simp [*]
  | true =>
    obtain ⟨k, s2, n, hsp, hw2, hsame2, hu2, -, hn⟩ :=
      splitRegion_upper (A := A) (base - (s.region r).base) hw
    obtain ⟨k', hw3, hsame3, hu3, hb3, -, hs3⟩ := splitRegion_lower (A := A) size hw2
    obtain ⟨s', l', hset, hw', hsame', hu'⟩ := settleRegion_spec false hw3
    have hbn : (s2.region n).base = base ∧
        (s2.region n).size =
          (s.region r).size + totalSize s m - (base - (s.region r).base) := by
      rw [hb, hz] at hn
      split_ifs at hn <;> obtain ⟨hn1, hn2⟩ := Prod.mk.inj hn <;> omega
    refine ⟨m, m', s'.release, l', rfl, by simp [hsp, hset], setLock_wellFormed _ hw',
      (((hsame.trans hsame2).trans hsame3).trans hsame').range.imp_right And.left, rfl, hreach,
      hmin, fun x => ?_⟩
    rw [usedAt_release, hu', hu3, hu2, hu]
    simp only [Extent.Holds, extent, hb, hz, hb3, hs3, hbn, hfree,
      Bool.true_eq_false, if_true]
    split_ifs <;> simp [*]

theorem allocateFree_spec (size : ℕ) (h : WellFormed s (l1 ++ r :: l2)) :
    ∃ s' l', allocateFree A s r size = .ok (.success, some (s.region r).base, s') ∧
      WellFormed s' l' ∧ SameRange s s' ∧ s'.handler.lock = false ∧
      ∀ x, UsedAt (view s' l') x ↔
        ((s.region r).base ≤ x ∧ x < (s.region r).base + cutSize size (s.region r).size) ∨
          UsedAt (view s (l1 ++ r :: l2)) x := by
  obtain ⟨m, hw, hsame, hu, hb, -, hs⟩ := splitRegion_lower (A := A) size h
  obtain ⟨s', l', hset, hw', hsame', hu'⟩ := settleRegion_spec false hw
  refine ⟨s'.release, l', by simp [allocateFree, hset, hb, bind, Except.bind],
    setLock_wellFormed _ hw', (hsame.trans hsame').range.imp_right And.left, rfl, fun x => ?_⟩
  rw [usedAt_release, hu', hu]
  simp only [Extent.Holds, extent, hb, hs]
  split_ifs with hx
  · simp [hx]
  · exact (or_iff_right hx).symm

private theorem freeSized_wellFormed (h : WellFormed s (l1 ++ r :: l2)) :
    ∃ e s' l', freeSized A s r size = .ok (e, s') ∧ WellFormed s' l' ∧ SameRange s s' := by
  have hgrow : ∃ s1 enough m, growUnequal s r size = .ok (enough, s1) ∧
      WellFormed s1 (l1 ++ r :: m) ∧ SameHandler s s1 := by
    unfold growUnequal
    split
    · obtain ⟨m, m', s1, enough, -, hg, hw, hsame, -⟩ := growRegion_usedAt size h
      exact ⟨s1, enough, m', hg, hw, hsame⟩
    · exact ⟨s, true, l2, rfl, h, .refl s⟩
  obtain ⟨s1, enough, m, hg, hw, hsame⟩ := hgrow
  have hcut : ∃ s2 n m1, (if size < (s1.region r).size then splitRegion A s1 r size
      else (s1, r)) = (s2, n) ∧ WellFormed s2 (m1 ++ n :: m) ∧ SameHandler s1 s2 := by
    split
    · obtain ⟨m1, s2, n, hsp, hw2, hsame2, -⟩ := splitRegion_upper size hw
      exact ⟨s2, n, m1, hsp, hw2, hsame2⟩
    · exact ⟨s1, r, l1, rfl, hw, .refl s1⟩
  obtain ⟨s2, n, m1, hc, hw2, hsame2⟩ := hcut
  obtain ⟨s', l', hset, hw', hsame', -⟩ := settleRegion_spec true hw2
  rw [freeSized, hg]
  simp only [bind, Except.bind]
  split
  · exact ⟨.einval, s1, _, rfl, hw, hsame.range.imp_right And.left⟩
  · refine ⟨.success, s'.release, l', ?_, setLock_wellFormed _ hw',
      ((hsame.trans hsame2).trans hsame').range.imp_right And.left⟩
    rw [hc]
    simp [hset]

private theorem acquire_eq (h : s.acquire = .ok s') :
    s.handler.lock = false ∧ s' = s.setLock true := by
  unfold MmState.acquire at h
  split at h
  · cases h
  · next hl => exact ⟨by simpa using hl, (Except.ok.inj h).symm⟩

theorem mmFreeRegion_wellFormed {e : Errno} (h : WellFormed s l) (hlo : s.handler.base ≤ base)
    (hhi : base < s.handler.base + s.handler.size)
    (hok : mmFreeRegion A s base size = .ok (e, s')) :
    ∃ l', WellFormed s' l' ∧ SameRange s s' := by
  unfold mmFreeRegion at hok
  split at hok
  · cases hok
  cases hacq : s.acquire with
  | error f => simp [hacq, bind, Except.bind] at hok
  | ok s1 =>
    obtain ⟨-, rfl⟩ := acquire_eq hacq
    obtain ⟨l1, r, l2, rfl, hget, h1, h2⟩ :=
      mmGetRegion_mem (setLock_wellFormed true h) hlo hhi
    have hw := setLock_wellFormed true h
    have hcut : ∃ s2 n m, (if ((s.setLock true).region r).base ≠ base then
        splitRegion A (s.setLock true) r (wsub base ((s.setLock true).region r).base)
        else (s.setLock true, r)) = (s2, n) ∧ WellFormed s2 (m ++ n :: l2) ∧
        SameHandler (s.setLock true) s2 := by
      split
      · obtain ⟨m, s2, n, hsp, hw2, hsame2, -⟩ := splitRegion_upper _ hw
        exact ⟨s2, n, m, hsp, hw2, hsame2⟩
      · exact ⟨_, r, l1, rfl, hw, .refl _⟩
    obtain ⟨s2, n, m, hc, hw2, hsame2⟩ := hcut
    obtain ⟨e', s'', l', hf, hw', hrange⟩ := freeSized_wellFormed hw2
    simp only [hacq, bind, Except.bind, hget] at hok
    rw [hc] at hok
    obtain ⟨-, rfl⟩ := Prod.mk.inj (Except.ok.inj (hf.symm.trans hok))
    obtain ⟨hb, hs, -⟩ := hsame2.range
    exact ⟨l', hw', hrange.1.trans hb, hrange.2.trans hs⟩

end Kot.Kernel.Mm
