import Kot.Kernel.Mm.RegionList

/-! Well-formed handlers: the regions tile the range of the handler. Each helper of
`mm.c` gets one specification lemma over well-formed handlers. -/
namespace Kot.Kernel.Mm
open Kot.Lib List

/-- The region list of the handler is `l` and tiles the handler's range. -/
structure WellFormed (s : MmState) (l : List Ptr) : Prop extends Chained s l where
  tiles : Tiles Extent.base Extent.size s.handler.base (view s l)
    (s.handler.base + s.handler.size)
  bound : s.handler.base + s.handler.size < 2 ^ 64

/-- Everything in the handler but the region count is unchanged. -/
def SameHandler (s s' : MmState) : Prop :=
  s'.handler = { s.handler with regionCount := s'.handler.regionCount }

variable {A : Allocator} {s s' s'' : MmState} {l l1 l2 : List Ptr} {r c : Ptr} {base size : ℕ}

theorem SameHandler.refl (s : MmState) : SameHandler s s := rfl

theorem SameHandler.trans (h : SameHandler s s') (h' : SameHandler s' s'') : SameHandler s s'' := by
  unfold SameHandler at *
  rw [h', h]

theorem SameHandler.range (h : SameHandler s s') :
    s'.handler.base = s.handler.base ∧ s'.handler.size = s.handler.size ∧
      s'.handler.lock = s.handler.lock := by
  rw [h]
  exact ⟨rfl, rfl, rfl⟩

theorem WellFormed.length_le (h : WellFormed s l) : l.length ≤ s.handler.size := by
  have := h.tiles.length_le
  rw [view, length_map] at this
  omega

theorem WellFormed.bounds (h : WellFormed s l) (hr : r ∈ l) :
    s.handler.base ≤ (s.region r).base ∧ 0 < (s.region r).size ∧
      (s.region r).base + (s.region r).size ≤ s.handler.base + s.handler.size := by
  obtain ⟨h1, h2, h3⟩ := h.tiles.bounds (mem_map.mpr ⟨r, hr, rfl⟩)
  exact ⟨h1, h3, h2⟩

theorem splitRegion_wellFormed (h : WellFormed s (l1 ++ r :: l2)) (h0 : 0 < size)
    (hs : size < (s.region r).size) :
    ∃ s' n, splitRegion A s r size = (s', n) ∧ WellFormed s' (l1 ++ r :: n :: l2) ∧
      SameHandler s s' ∧ view s' l1 = view s l1 ∧ view s' l2 = view s l2 ∧
      (s'.region r).extent = ⟨(s.region r).base, size, divRoundupPage size, (s.region r).isFree⟩ ∧
      (s'.region n).extent = ⟨(s.region r).base + size, (s.region r).size - size,
          divRoundupPage ((s.region r).size - size), (s.region r).isFree⟩ := by
  obtain ⟨-, -, hb⟩ := h.bounds (r := r) (by simp)
  have hbound := h.bound
  have ht := h.tiles
  rw [view_append, view_cons] at ht
  have ht' := ht.split (b := ⟨(s.region r).base, size, divRoundupPage size, (s.region r).isFree⟩)
    (c := ⟨(s.region r).base + size, (s.region r).size - size,
      divRoundupPage ((s.region r).size - size), (s.region r).isFree⟩) rfl rfl
    (by simp only [MemoryRegion.extent]; omega) h0 (by simp only; omega)
  have hlen := ht'.length_le
  simp only [view, length_append, length_cons, length_map] at hlen
  obtain ⟨s', n, he, hch, hh, hv1, hv2, hr, hn⟩ := splitRegion_chained h.toChained h0 hs
    (by simp only [length_append, length_cons]; omega)
  rw [wadd_of_lt (by omega)] at hn
  refine ⟨s', n, he, ⟨hch, ?_, ?_⟩, ?_, hv1, hv2, hr, hn⟩
  · rw [view_append, view_cons, view_cons, hv1, hv2, hr, hn, hh]
    exact ht'
  · rw [hh]
    exact hbound
  · rw [SameHandler, hh]

theorem mergeRegion_wellFormed (h : WellFormed s (l1 ++ r :: c :: l2)) :
    ∃ s', mergeRegion s r = some s' ∧ WellFormed s' (l1 ++ r :: l2) ∧ SameHandler s s' ∧
      view s' l1 = view s l1 ∧ view s' l2 = view s l2 ∧
      (s'.region r).extent = ⟨(s.region r).base, (s.region r).size + (s.region c).size,
          wadd (s.region r).blockCount (s.region c).blockCount, (s.region r).isFree⟩ := by
  have hbound := h.bound
  have hlen := h.length_le
  have ht := h.tiles
  rw [view_append, view_cons, view_cons] at ht
  have ht' := ht.merge (a := ⟨(s.region r).base, (s.region r).size + (s.region c).size,
      wadd (s.region r).blockCount (s.region c).blockCount, (s.region r).isFree⟩) rfl rfl
  have hb := (ht'.bounds (mem_append_right _ mem_cons_self)).2.1
  obtain ⟨s', he, hch, hh, hv1, hv2, hr⟩ := mergeRegion_chained h.toChained (by omega)
  rw [wadd_of_lt (by simp only at hb; omega)] at hr
  refine ⟨s', he, ⟨hch, ?_, ?_⟩, ?_, hv1, hv2, hr⟩
  · rw [view_append, view_cons, hv1, hv2, hr, hh]
    exact ht'
  · rw [hh]
    exact hbound
  · rw [SameHandler, hh]

theorem setFree_wellFormed (b : Bool) (h : WellFormed s (l1 ++ r :: l2)) :
    WellFormed (s.setFree r b) (l1 ++ r :: l2) := by
  obtain ⟨hch, hv1, hv2, hr⟩ := setFree_chained b h.toChained
  refine ⟨hch, ?_, h.bound⟩
  have ht := h.tiles
  rw [view_append, view_cons] at ht ⊢
  rw [hv1, hv2, hr]
  obtain ⟨mid, h1, h2⟩ := tiles_append.mp ht
  exact tiles_append.mpr ⟨mid, h1, h2⟩

/-- A walk along `next` that stops at the first region as wanted. -/
private theorem walk_eq {P : Ptr → Prop} [DecidablePred P] {walk : ℕ → Option Ptr → Except Fault (Option Ptr)}
    (hzero : ∀ r, walk 0 r = .ok none) (hsucc : ∀ i r, walk (i + 1) (some r) =
      if P r then .ok (some r) else walk i (s.region r).next) {p : Option Ptr}
    (h : Linked (fun r => (s.region r).next) (fun r => (s.region r).last) p l none) :
    walk l.length l.head? = .ok (l.find? P) := by
  induction l generalizing p with
  | nil => exact hzero _
  | cons r l ih =>
    obtain ⟨-, hn, ht⟩ := h
    have hn : (s.region r).next = l.head? := by simpa using hn
    rw [length_cons, head?_cons, hsucc, hn, ih ht, find?_cons]
    split
    · next hp => rw [decide_eq_true hp]
    · next hp => rw [decide_eq_false hp]

private theorem findRegion_eq (base : ℕ) {p : Option Ptr}
    (h : Linked (fun r => (s.region r).next) (fun r => (s.region r).last) p l none) :
    findRegion s base l.length l.head? = .ok (l.find? fun r =>
      (s.region r).base ≤ base ∧ base < wadd (s.region r).base (s.region r).size) :=
  walk_eq (fun _ => rfl) (fun _ _ => rfl) h

theorem mmGetRegion_mem (h : WellFormed s l) (hlo : s.handler.base ≤ base)
    (hhi : base < s.handler.base + s.handler.size) :
    ∃ l1 r l2, l = l1 ++ r :: l2 ∧ mmGetRegion s base = .ok (some r) ∧
      (s.region r).base ≤ base ∧ base < (s.region r).base + (s.region r).size := by
  have hb := h.bound
  have hw := wadd_of_lt hb
  have he := findRegion_eq base h.linked
  obtain ⟨v1, e, v2, hv, hx, hy⟩ := h.tiles.exists_mem hlo hhi
  obtain ⟨l1, l3, rfl, rfl, h3⟩ := map_eq_append_iff.mp hv
  obtain ⟨r, l2, rfl, rfl, rfl⟩ := map_eq_cons_iff.mp h3
  obtain ⟨r', hr'⟩ : ∃ r', (l1 ++ r :: l2).find? (fun r =>
      (s.region r).base ≤ base ∧ base < wadd (s.region r).base (s.region r).size) = some r' := by
    rw [← Option.isSome_iff_exists, find?_isSome]
    refine ⟨r, by simp, ?_⟩
    have hle := (h.bounds (r := r) (by simp)).2.2
    simpa [wadd_of_lt (lt_of_le_of_lt hle hb)] using ⟨hx, hy⟩
  obtain ⟨hp, m1, m2, hm, -⟩ := find?_eq_some_iff_append.mp hr'
  have hle := (h.bounds (r := r') (by rw [hm]; simp)).2.2
  rw [wadd_of_lt (lt_of_le_of_lt hle hb)] at hp
  refine ⟨m1, r', m2, hm, ?_, by simpa using hp⟩
  rw [mmGetRegion, if_neg (by omega), h.count, h.first, he, hr']

theorem mmGetRegion_outside (h : WellFormed s l)
    (hx : base < s.handler.base ∨ s.handler.base + s.handler.size ≤ base) :
    mmGetRegion s base = .ok none := by
  have hb := h.bound
  rw [mmGetRegion, wadd_of_lt hb]
  split
  · rfl
  · rw [h.count, h.first, findRegion_eq base h.linked]
    congr 1
    rw [find?_eq_none]
    intro r hr
    obtain ⟨h1, -, h2⟩ := h.bounds hr
    rw [wadd_of_lt (by omega)]
    simp only [decide_eq_true_eq]
    omega

/-- The search without fixed address stays inside the list: it starts at the first
region and makes at most as many turns as there are regions. -/
theorem findFree_spec (size : ℕ) (h : WellFormed s l) :
    findFree s size s.handler.regionCount s.handler.lastFreeRegion =
      .ok (l.find? fun r => (s.region r).isFree ∧ size ≤ (s.region r).size) := by
  rw [h.count, h.lastFree]
  exact walk_eq (fun _ => rfl) (fun _ _ => rfl) h.linked

/-- The sizes of the listed regions together. -/
def totalSize (s : MmState) (l : List Ptr) : ℕ := ((view s l).map Extent.size).sum

@[simp] theorem totalSize_nil (s : MmState) : totalSize s [] = 0 := rfl

@[simp] theorem totalSize_cons :
    totalSize s (r :: l) = (s.region r).size + totalSize s l := sum_cons

theorem totalSize_congr (h : view s' l = view s l) : totalSize s' l = totalSize s l := by
  rw [totalSize, totalSize, h]

/-- Growing a region swallows the shortest run of successors that makes it large enough,
or all of them. -/
theorem growRegion_spec {i : ℕ} (size : ℕ) (h : WellFormed s (l1 ++ r :: l2)) (hi : l2.length < i) :
    ∃ m m' s' enough, l2 = m ++ m' ∧ growRegion r size i s = .ok (enough, s') ∧
      WellFormed s' (l1 ++ r :: m') ∧ SameHandler s s' ∧ view s' l1 = view s l1 ∧
      view s' m' = view s m' ∧ (s'.region r).base = (s.region r).base ∧
      (s'.region r).isFree = (s.region r).isFree ∧
      (s'.region r).size = (s.region r).size + totalSize s m ∧
      (enough = true → size ≤ (s'.region r).size) ∧
      (enough = false → m' = [] ∧ (s'.region r).size < size) ∧
      ∀ m0 x, m = m0 ++ [x] → (s.region r).size + totalSize s m0 < size := by
  induction i generalizing s l2 with
  | zero => omega
  | succ i ih =>
    by_cases hs : (s.region r).size < size
    · cases l2 with
      | nil =>
        refine ⟨[], [], s, false, rfl, ?_, h, .refl s, rfl, rfl, rfl, rfl, by simp, by simp,
          by simpa using hs, by simp⟩
        simp [growRegion, hs, mergeRegion_last h.toChained]
      | cons c l2 =>
        obtain ⟨s1, hm, hw, hsame, hv1, hv2, hr⟩ := mergeRegion_wellFormed h
        have hsz : (s1.region r).size = (s.region r).size + (s.region c).size :=
          congrArg Extent.size hr
        obtain ⟨m, m', s', enough, rfl, hg, hw', hsame', hv1', hm', hb, hf, hz, he, hne, hmin⟩ :=
          ih hw (by simp at hi; omega)
        rw [view_append, view_append] at hv2
        obtain ⟨hvm, hvm'⟩ := append_inj hv2 (by simp [view])
        have htm := totalSize_congr hvm
        refine ⟨c :: m, m', s', enough, rfl, ?_, hw', hsame.trans hsame', hv1'.trans hv1,
          hm'.trans hvm', hb.trans (congrArg Extent.base hr),
          hf.trans (congrArg Extent.isFree hr), ?_, he, hne, ?_⟩
        · simp [growRegion, hs, hm, hg]
        · rw [hz, hsz, totalSize_cons, htm, add_assoc]
        · intro m0 x hx
          rcases m0 with _ | ⟨y, m0⟩
          · simpa using hs
          · rw [cons_append, List.cons.injEq] at hx
            obtain ⟨rfl, rfl⟩ := hx
            have := hmin m0 x rfl
            have htm0 : totalSize s1 m0 = totalSize s m0 := by
              rw [view_append, view_append] at hvm
              exact totalSize_congr (append_inj hvm (by simp [view])).1
            rw [totalSize_cons]
            omega
    · refine ⟨[], l2, s, true, rfl, ?_, h, .refl s, rfl, rfl, rfl, rfl, by simp, ?_, by simp,
        by simp⟩
      · simp [growRegion, hs]
      · intro _
        omega

end Kot.Kernel.Mm
