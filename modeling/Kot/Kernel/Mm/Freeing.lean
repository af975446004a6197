import Kot.Kernel.Mm.Accounting

/-! Which bytes `mm_free_region` frees, and what its error return leaves behind. When the region
has to be cut at the end of the request, the code goes on with the part behind the cut. -/
namespace Kot.Kernel.Mm
open Kot.Lib MemoryRegion

variable {A : Allocator} {s s' : MmState} {l l1 l2 : List Ptr} {r k : Ptr} {base size x : ℕ}

theorem growUnequal_eq :
    growUnequal s r size = growRegion r size (s.handler.regionCount + 1) s := by
  unfold growUnequal
  split
  · rfl
  · next h =>
    have heq : ¬ (s.region r).size < size := by omega
    rw [growRegion, if_neg heq]

/-- A region that can be made as long as the request: the bytes it swallows take its status, and
the part from the end of the request on is freed, or all of it if there is no such part. -/
theorem freeSized_enough (h : WellFormed s (l1 ++ r :: l2))
    (hfit : (s.region r).base + size ≤ s.handler.base + s.handler.size) :
    ∃ m m' s' l', l2 = m ++ m' ∧ freeSized A s r size = .ok (.success, s') ∧
      WellFormed s' l' ∧ s'.handler.lock = false ∧
      size ≤ (s.region r).size + totalSize s m ∧
      (∀ m0 x, m = m0 ++ [x] → (s.region r).size + totalSize s m0 < size) ∧
      ∀ x, UsedAt (view s' l') x ↔
        if (s.region r).base ≤ x ∧ x < (s.region r).base + ((s.region r).size + totalSize s m) then
          size < (s.region r).size + totalSize s m ∧ x < (s.region r).base + size ∧
            (s.region r).isFree = false
        else UsedAt (view s (l1 ++ r :: l2)) x := by
  obtain ⟨m, m', s1, enough, rfl, hg, hw, hsame, hu, hb, hf, hz, he, hne, hmin⟩ :=
    growRegion_usedAt size h
  obtain rfl : enough = true := by
    cases enough with
    | true => rfl
    | false =>
      obtain ⟨rfl, hlt⟩ := hne rfl
      have hall := grown_end (by simpa using h)
      omega
  have hsize := hz ▸ he rfl
  rw [freeSized, growUnequal_eq, hg]
  simp only [bind, Except.bind, not_true_eq_false, if_false]
  by_cases hcut : size < (s1.region r).size
  · -- the code goes on with the part behind the cut
    obtain ⟨k, s2, n, hsp, hw2, hsame2, hu2, -, hn⟩ := splitRegion_upper (A := A) size hw
    obtain ⟨s', l', hset, hw', -, hu'⟩ := settleRegion_spec true hw2
    -- an empty request cuts nothing off
    have hnx : (s2.region n).base = (s1.region r).base + size ∧
        (s2.region n).size = (s1.region r).size - size := by
      split_ifs at hn with h0
      · exact Prod.mk.inj hn
      · obtain rfl : size = 0 := by omega
        exact Prod.mk.inj hn
    obtain ⟨hnb, hns⟩ := hnx
    refine ⟨m, m', s'.release, l', rfl, by simp [hcut, hsp, hset], setLock_wellFormed _ hw', rfl,
      hsize, hmin, fun x => ?_⟩
    rw [usedAt_release, hu', hu2, hu]
    simp only [Extent.Holds, extent, hnb, hns, hb, hz, Bool.true_eq_false]
    rw [hz] at hcut
    split_ifs with h1 h2 h2
    · simp only [false_iff]
      omega
    · omega
    · simp only [hcut, true_and]
      constructor
      · intro hfree
        exact ⟨by omega, hfree⟩
      · exact And.right
    · rfl
  · obtain ⟨s', l', hset, hw', -, hu'⟩ := settleRegion_spec true hw
    refine ⟨m, m', s'.release, l', rfl, by simp [hcut, hset], setLock_wellFormed _ hw', rfl,
      hsize, hmin, fun x => ?_⟩
    rw [usedAt_release, hu', hu]
    simp only [Extent.Holds, extent, hb, hz, Bool.true_eq_false]
    rw [hz] at hcut
    split_ifs
    · simp only [hcut, false_and]
    · rfl

theorem freeSized_short (h : WellFormed s (l1 ++ r :: l2))
    (hshort : s.handler.base + s.handler.size < (s.region r).base + size) :
    ∃ s', freeSized A s r size = .ok (.einval, s') ∧ s'.handler.lock = s.handler.lock := by
  obtain ⟨m, m', s1, enough, rfl, hg, hw, hsame, hu, hb, hf, hz, he, hne, hmin⟩ :=
    growRegion_usedAt size h
  have hend := (hw.bounds (r := r) (by simp)).2.2
  obtain ⟨hsb, hss, hlock⟩ := hsame.range
  obtain rfl : enough = false := by
    cases enough with
    | false => rfl
    | true =>
      have := he rfl
      omega
  refine ⟨s1, ?_, hlock⟩
  rw [freeSized, growUnequal_eq, hg]
  simp [bind, Except.bind]

/-- The region in which a request starts is cut at its base, and the code goes on with the part
from there on. -/
theorem mmFreeRegion_eq (h : WellFormed s l) (hl : s.handler.lock = false)
    (hb : base % pageSize = 0) (hs : size % pageSize = 0) (hlo : s.handler.base ≤ base)
    (hhi : base < s.handler.base + s.handler.size) :
    ∃ l1 r l2 m s1 n, l = l1 ++ r :: l2 ∧ (s.region r).base ≤ base ∧
      base < (s.region r).base + (s.region r).size ∧
      mmFreeRegion A s base size = freeSized A s1 n size ∧ WellFormed s1 (m ++ n :: l2) ∧
      SameHandler (s.setLock true) s1 ∧ view s1 l2 = view s l2 ∧
      (∀ x, UsedAt (view s1 (m ++ n :: l2)) x ↔ UsedAt (view s l) x) ∧
      (s1.region n).base = base ∧
      (s1.region n).size = (s.region r).base + (s.region r).size - base ∧
      (s1.region n).isFree = (s.region r).isFree := by
  have hw := setLock_wellFormed true h
  obtain ⟨l1, r, l2, rfl, hget, h1, h2⟩ := mmGetRegion_mem hw hlo hhi
  have hok : ¬ (base % pageSize ≠ 0 ∨ size % pageSize ≠ 0) := by omega
  have hbound := hw.bound
  have hle := (hw.bounds (r := r) (by simp)).2.2
  have hstep : mmFreeRegion A s base size =
      freeSized A (if (s.region r).base ≠ base then
        splitRegion A (s.setLock true) r (wsub base (s.region r).base) else (s.setLock true, r)).1
        (if (s.region r).base ≠ base then
        splitRegion A (s.setLock true) r (wsub base (s.region r).base) else (s.setLock true, r)).2
        size := by
    rw [mmFreeRegion, if_neg hok, acquire_free hl]
    simp only [bind, Except.bind, hget]
    rfl
  simp only [setLock_region] at h1 h2 hle
  by_cases heq : (s.region r).base = base
  · rw [if_neg (not_not.mpr heq)] at hstep
    exact ⟨l1, r, l2, l1, s.setLock true, r, rfl, h1, h2, hstep, hw, .refl _, rfl,
      fun _ => Iff.rfl, heq, by rw [← heq, setLock_region]; omega, rfl⟩
  · have hsub := wsub_of_le (by omega) h1
    obtain ⟨s1, n, hsp, hw1, hsame, hu, -, hn, hv2⟩ := split_usedAt hw
      (show 0 < base - (s.region r).base by omega) (by rw [setLock_region]; omega)
    rw [if_pos heq, hsub, hsp] at hstep
    have hw1 : WellFormed s1 ((l1 ++ [r]) ++ n :: l2) := by simpa using hw1
    have hnb := congrArg Extent.base hn
    have hns := congrArg Extent.size hn
    simp only [extent, setLock_region] at hnb hns
    exact ⟨l1, r, l2, l1 ++ [r], s1, n, rfl, h1, h2, hstep, hw1, hsame, hv2, by simpa using hu,
      by omega, by omega, congrArg Extent.isFree hn⟩

/-- The request succeeds and makes exactly its own bytes free. -/
def FreesExactly (A : Allocator) (s : MmState) (base size : ℕ) : Prop :=
  ∃ s', mmFreeRegion A s base size = .ok (.success, s') ∧
    ∀ x, Used s' x ↔ Used s x ∧ ¬ (base ≤ x ∧ x < base + size)

/-- The request ends where a region ends, or it starts and ends in free regions. -/
def FreeExact (s : MmState) (base size : ℕ) : Prop :=
  ∀ r ∈ regionNodes s, (s.region r).extent.Holds base →
    ∀ k ∈ regionNodes s, (s.region k).extent.Holds (base + size - 1) →
      (s.region k).base + (s.region k).size = base + size ∨
        (s.region r).isFree = true ∧ (s.region k).isFree = true

/-- What freeing does, in terms of the regions before: `r` is the one that holds the base and
`stop` the end of the one that holds the last byte of the request. -/
theorem mmFreeRegion_used (h : WellFormed s (regionNodes s)) (hl : s.handler.lock = false)
    (hb : base % pageSize = 0) (hs : size % pageSize = 0) (hpos : 0 < size)
    (hlo : s.handler.base ≤ base) (hhi : base + size ≤ s.handler.base + s.handler.size) :
    ∃ r k s', r ∈ regionNodes s ∧ k ∈ regionNodes s ∧ (s.region r).extent.Holds base ∧
      (s.region k).extent.Holds (base + size - 1) ∧
      mmFreeRegion A s base size = .ok (.success, s') ∧ s'.handler.lock = false ∧
      ∀ x, Used s' x ↔
        if base ≤ x ∧ x < (s.region k).base + (s.region k).size then
          base + size < (s.region k).base + (s.region k).size ∧ x < base + size ∧
            (s.region r).isFree = false
        else Used s x := by
  obtain ⟨l1, r, l2, m1, s1, n, hnodes, h1, h2, heq, hw, hsame, hv, hu, hnb, hns, hnf⟩ :=
    mmFreeRegion_eq h hl hb hs hlo (by omega)
  obtain ⟨hsb, hss, -⟩ := hsame.range
  obtain ⟨m, m', s', l', rfl, hfree, hw', hlock, hreach, hmin, hu'⟩ :=
    freeSized_enough hw (by rw [hnb, hsb, hss]; exact hhi)
  have htotal : ∀ m0 m2, m ++ m' = m0 ++ m2 → totalSize s1 m0 = totalSize s m0 := by
    intro m0 m2 hm
    rw [hm, view_append, view_append] at hv
    exact totalSize_congr (List.append_inj hv (by simp [view])).1
  have hr := hnodes ▸ h
  obtain ⟨k, hk, hkb, hke⟩ := grown_last hr
    (show 0 < base - (s.region r).base + size by omega) (by
      intro m0 y hm
      have hlt := hmin m0 y hm
      rw [htotal m0 ([y] ++ m') (by rw [hm, List.append_assoc])] at hlt
      omega)
  rw [htotal m m' rfl] at hreach hu'
  have hrange : (s.region r).base + ((s.region r).size + totalSize s m) =
      base + ((s1.region n).size + totalSize s m) := by omega
  refine ⟨r, k, s', by simp [hnodes], hnodes ▸ hk, ⟨h1, h2⟩, ?_, heq.trans hfree, hlock,
    fun x => ?_⟩
  · simp only [Extent.Holds, extent]
    omega
  · rw [Used, hw'.regionNodes_eq, hu', hu, hnb, hnf, hke, hrange]
    have hcut : size < (s1.region n).size + totalSize s m ↔
        base + size < base + ((s1.region n).size + totalSize s m) := by omega
    rw [hcut]
    rfl

/-- In every handler state whose regions tile its range, freeing a page-aligned part of the range
frees exactly its bytes if and only if it meets `FreeExact`. -/
theorem freesExactly_iff (h : WellFormed s (regionNodes s)) (hl : s.handler.lock = false)
    (hb : base % pageSize = 0) (hs : size % pageSize = 0) (hpos : 0 < size)
    (hlo : s.handler.base ≤ base) (hhi : base + size ≤ s.handler.base + s.handler.size) :
    FreesExactly A s base size ↔ FreeExact s base size := by
  obtain ⟨r, k, s', hr, hk, hrx, hkx, hok, -, hu⟩ :=
    mmFreeRegion_used h hl hb hs hpos hlo hhi
  have hexact : FreeExact s base size ↔
      (s.region k).base + (s.region k).size = base + size ∨
        (s.region r).isFree = true ∧ (s.region k).isFree = true := by
    constructor
    · intro hf
      exact hf r hr hrx k hk hkx
    · intro hf r' hr' hrx' k' hk' hkx'
      obtain rfl := h.eq_of_holds hr hr' hrx hrx'
      obtain rfl := h.eq_of_holds hk hk' hkx hkx'
      exact hf
  have hsucc : FreesExactly A s base size ↔
      ∀ x, Used s' x ↔ Used s x ∧ ¬ (base ≤ x ∧ x < base + size) := by
    constructor
    · rintro ⟨t, ht, hut⟩
      obtain ⟨-, rfl⟩ := Prod.mk.inj (Except.ok.inj (hok.symm.trans ht))
      exact hut
    · intro hus
      exact ⟨s', hok, hus⟩
  have hru := h.usedAt_iff hr hrx
  have hku := fun x hx => h.usedAt_iff (x := x) hk hx
  simp only [Extent.Holds, extent] at hkx hku
  change ∀ x, _ → (Used s x ↔ _) at hku
  rw [hexact, hsucc]
  constructor
  · intro hall
    by_contra hne
    rw [not_or] at hne
    have hlt : base + size < (s.region k).base + (s.region k).size := by omega
    have hfirst := (hu base).symm.trans (hall base)
    have hlast := (hu (base + size)).symm.trans (hall (base + size))
    rw [if_pos (by omega)] at hfirst hlast
    rw [hku (base + size) (by omega)] at hlast
    have hrf : (s.region r).isFree = true := by
      by_contra hrf
      have := (hfirst.mp ⟨hlt, by omega, by simpa using hrf⟩).2
      omega
    have hkf : (s.region k).isFree = true := by
      by_contra hkf
      have := (hlast.mpr ⟨by simpa using hkf, by omega⟩).2.1
      omega
    exact hne.2 ⟨hrf, hkf⟩
  · intro hc x
    rw [hu]
    split_ifs with hx
    · rcases hc with hend | ⟨hrf, hkf⟩
      · constructor
        · rintro ⟨hlt, -⟩
          omega
        · rintro ⟨-, hout⟩
          omega
      · constructor
        · rintro ⟨-, -, hfalse⟩
          simp [hrf] at hfalse
        · rintro ⟨hused, hout⟩
          rw [hku x (by omega), hkf] at hused
          simp at hused
    · constructor
      · intro hused
        exact ⟨hused, by omega⟩
      · exact And.left

instance (s : MmState) (base size : ℕ) : Decidable (FreeExact s base size) :=
  inferInstanceAs (Decidable (∀ r ∈ regionNodes s, _))

theorem wellFormed_of_request (op : MmOp)
    (h : mmStep .above (mmCreateHandler .above (fun _ => poisoned) [] 0 0x1000 0x10000) op = some s) :
    WellFormed s (regionNodes s) :=
  (mmStep_wellFormed (Initial.wellFormed (.inl ⟨_, _, _, _, _, by decide, by decide, rfl⟩)) h).1

/-- Two used pages of which the second is freed. -/
theorem freesExactly_second_page :
    ∃ s, mmStep .above (mmCreateHandler .above (fun _ => poisoned) [] 0 0x1000 0x10000)
        (.allocate 0x3000 0x2000 true) = some s ∧ FreesExactly .above s 0x4000 0x1000 := by
  refine ⟨_, rfl, ?_⟩
  exact (freesExactly_iff (wellFormed_of_request (.allocate 0x3000 0x2000 true) rfl) rfl
    (by decide) (by decide) (by decide) (by decide) (by decide)).mpr (by decide)

set_option maxRecDepth 20000 in
/-- Two used pages of which the first is freed: the second one is free afterwards, and the first
one is still in use. -/
theorem free_takes_the_tail :
    ∃ s s', mmStep .above (mmCreateHandler .above (fun _ => poisoned) [] 0 0x1000 0x10000)
        (.allocate 0x3000 0x2000 true) = some s ∧
      mmFreeRegion .above s 0x3000 0x1000 = .ok (.success, s') ∧
      Used s' 0x3000 ∧ Used s 0x4000 ∧ ¬ Used s' 0x4000 ∧ ¬ FreesExactly .above s 0x3000 0x1000 := by
  refine ⟨_, _, rfl, rfl, by decide, by decide, by decide, ?_⟩
  rintro ⟨t, ht, hu⟩
  cases ht
  exact absurd ((hu 0x3000).mp (by decide)).2 (by decide)

/-- The lock is free, and an error has changed no byte. -/
def ReturnsClean (s : MmState) (e : Errno) (s' : MmState) : Prop :=
  s'.handler.lock = false ∧ (e ≠ .success → ∀ x, Used s' x ↔ Used s x)

def AllocateClean (A : Allocator) (s : MmState) (base size : ℕ) (isFixed : Bool) : Prop :=
  ∀ e result s', mmAllocateRegionVm A s base size isFixed = .ok (e, result, s') →
    ReturnsClean s e s'

def FreeClean (A : Allocator) (s : MmState) (base size : ℕ) : Prop :=
  ∀ e s', mmFreeRegion A s base size = .ok (e, s') → ReturnsClean s e s'

/-- A request from a page of the range on does not go beyond the end of the range. -/
def FreeInside (s : MmState) (base size : ℕ) : Prop :=
  s.handler.lock = false → base % pageSize = 0 → size % pageSize = 0 → s.handler.base ≤ base →
    base < s.handler.base + s.handler.size → base + size ≤ s.handler.base + s.handler.size

theorem returnsClean_self (hl : s.handler.lock = false) {e : Errno} : ReturnsClean s e s :=
  ⟨hl, fun _ _ => Iff.rfl⟩

theorem allocateClean (h : WellFormed s (regionNodes s)) (base size : ℕ) (isFixed : Bool) :
    AllocateClean A s base size isFixed := by
  intro e result s' he
  cases hl : s.handler.lock with
  | true => simp [mmAllocateRegionVm, MmState.acquire, hl, bind, Except.bind] at he
  | false =>
    cases isFixed with
    | true =>
      by_cases hin : s.handler.base ≤ (roundRequest base size).1 ∧
          (roundRequest base size).1 < s.handler.base + s.handler.size
      · obtain ⟨l1, r, l2, hnodes, h1, h2, heq⟩ :=
          allocate_inside hl base size h hin.1 hin.2
        obtain ⟨-, -, t, -, -, hf, -, -, hlock, -⟩ := allocateFixed_spec
          (roundRequest base size).2 (setLock_wellFormed true (hnodes ▸ h)) h1 h2
        cases hf.symm.trans (heq.symm.trans he)
        exact ⟨hlock, fun hne => absurd rfl hne⟩
      · have heq := allocate_outside (A := A) hl base size h (by omega)
        rw [heq] at he
        split_ifs at he
        · cases he
          exact returnsClean_self hl
        · cases he
          exact returnsClean_self hl
    | false =>
      have heq := allocate_anywhere (A := A) hl base size h
      rw [heq] at he
      split at he
      · cases he
        exact returnsClean_self hl
      · next r hfind =>
        obtain ⟨l1, l2, hnodes⟩ := List.append_of_mem (List.mem_of_find?_eq_some hfind)
        obtain ⟨t, l', hf, -, -, hlock, -⟩ := allocateFree_spec (roundRequest base size).2
          (setLock_wellFormed true (hnodes ▸ h))
        cases hf.symm.trans he
        exact ⟨hlock, fun hne => absurd rfl hne⟩

theorem freeClean_iff (h : WellFormed s (regionNodes s)) (base size : ℕ) :
    FreeClean A s base size ↔ FreeInside s base size := by
  constructor
  · intro hclean hl hb hs hlo hhi
    by_contra hout
    obtain ⟨l1, r, l2, m1, s1, n, -, -, -, heq, hw, hsame, -, -, hnb, -⟩ :=
      mmFreeRegion_eq h hl hb hs hlo hhi
    obtain ⟨hsb, hss, hlock⟩ := hsame.range
    obtain ⟨s', hshort, hlock'⟩ := freeSized_short hw
      (show s1.handler.base + s1.handler.size < (s1.region n).base + size by
        rw [hnb, hsb, hss]
        exact Nat.not_le.mp hout)
    have hfree := (hclean _ _ (heq.trans hshort)).1
    rw [hlock', hlock] at hfree
    exact absurd (show true = false from hfree) (by decide)
  · intro hin e s' he
    have halign : base % pageSize = 0 ∧ size % pageSize = 0 := by
      by_contra hne
      have hpanic : base % pageSize ≠ 0 ∨ size % pageSize ≠ 0 := by omega
      rw [mmFreeRegion, if_pos hpanic] at he
      cases he
    have hok : ¬ (base % pageSize ≠ 0 ∨ size % pageSize ≠ 0) := by omega
    have hl : s.handler.lock = false := by
      by_contra hne
      have hheld : s.handler.lock = true := by simpa using hne
      simp [mmFreeRegion, hok, MmState.acquire, hheld, bind, Except.bind] at he
    have hrange : s.handler.base ≤ base ∧ base < s.handler.base + s.handler.size := by
      by_contra hne
      have hget := mmGetRegion_outside (setLock_wellFormed true h)
        (show base < s.handler.base ∨ s.handler.base + s.handler.size ≤ base by omega)
      simp [mmFreeRegion, hok, acquire_free hl, bind, Except.bind, hget] at he
    obtain ⟨l1, r, l2, m1, s1, n, -, -, -, heq, hw, hsame, -, -, hnb, -⟩ :=
      mmFreeRegion_eq h hl halign.1 halign.2 hrange.1 hrange.2
    obtain ⟨hsb, hss, -⟩ := hsame.range
    obtain ⟨-, -, t, -, -, hfree, -, hlock, -⟩ := freeSized_enough hw
      (show (s1.region n).base + size ≤ s1.handler.base + s1.handler.size by
        rw [hnb, hsb, hss]
        exact hin hl halign.1 halign.2 hrange.1 hrange.2)
    obtain ⟨rfl, rfl⟩ := Prod.mk.inj (Except.ok.inj (hfree.symm.trans (heq.symm.trans he)))
    exact ⟨hlock, fun hne => absurd rfl hne⟩

/-- In every state a handler can reach, every return of `mm_allocate_region_vm` is clean, and those
of `mm_free_region` are if and only if the request meets `FreeInside`. -/
theorem returnsClean_iff {s0 : MmState} {ops : List MmOp} (h0 : Initial A s0)
    (h : Run (fun s op s' => mmStep A s op = some s') s0 ops s) :
    (∀ base size isFixed, AllocateClean A s base size isFixed) ∧
      ∀ base size, FreeClean A s base size ↔ FreeInside s base size :=
  have hw := (run_wellFormed h0 h).1
  ⟨allocateClean hw, freeClean_iff hw⟩

/-- Freeing the whole range of a new handler. -/
theorem returnsClean_whole :
    AllocateClean .above (mmCreateHandler .above (fun _ => poisoned) [] 0 0x1000 0x10000)
        0 0x1800 false ∧
      FreeClean .above (mmCreateHandler .above (fun _ => poisoned) [] 0 0x1000 0x10000)
        0x1000 0x10000 := by
  have hclean := returnsClean_iff (A := .above)
    (.inl ⟨fun _ => poisoned, [], 0, 0x1000, 0x10000, by decide, by decide, rfl⟩) .nil
  exact ⟨hclean.1 _ _ _, (hclean.2 0x1000 0x10000).mpr fun _ _ _ _ _ => by decide⟩

set_option maxRecDepth 20000 in
/-- The last page is in use and a request for three pages starts one page before it: the error
comes after the last page has been merged into the free region before it, and the lock is kept. -/
theorem error_return_keeps_lock :
    ∃ s s', mmStep .above (mmCreateHandler .above (fun _ => poisoned) [] 0 0x1000 0x10000)
        (.allocate 0x10000 0x1000 true) = some s ∧
      mmFreeRegion .above s 0xf000 0x3000 = .ok (.einval, s') ∧
      s'.handler.lock = true ∧ Used s 0x10000 ∧ ¬ Used s' 0x10000 ∧
      ¬ FreeClean .above s 0xf000 0x3000 := by
  refine ⟨_, _, rfl, rfl, rfl, by decide, by decide, fun hclean => ?_⟩
  exact absurd (hclean _ _ rfl).1 (by decide)

end Kot.Kernel.Mm
