import Kot.Kernel.Heap.Layout

/-! The heap invariant and what each part of `malloc` and `free` does to it. -/
namespace Kot.Kernel.Heap
open List

/-- The segment list of a heap that ends at `top` is the main segment, in the last bytes
below `top`, followed by `l`. -/
structure HeapShape (top : ℕ) (s : HeapState) (l : List Ptr) : Prop where
  chained : Chained s (top - headerSize) l
  main : segmentAt s (top - headerSize) = ⟨top - headerSize, 0, false⟩
  stacked : Stacked s.heapEnd (top - headerSize) (view s l)
  lowest : l.getLast? = some s.heapEnd
  pos : 0 < s.heapEnd
  bound : top < 2 ^ 64

variable {s s' : HeapState} {top size length a b n z : ℕ} {l l1 l2 : List Ptr}

theorem HeapShape.congr (h : HeapShape top s l) (s' : HeapState) (hh : s'.header = s.header)
    (he : s'.heapEnd = s.heapEnd) (hm : s'.mainSegment = s.mainSegment)
    (hl : s'.lastSegment = s.lastSegment) : HeapShape top s' l ∧ view s' l = view s l := by
  have hv : view s' l = view s l := view_congr fun a _ => by
    rw [segmentAt, segmentAt, hh]
  obtain ⟨hc, h1, h2, h3, h4, h5⟩ := h
  refine ⟨⟨hc.congr (by simp [hh]) (by simp [hh]) hm hl, ?_, ?_, he ▸ h3, he ▸ h4, h5⟩, hv⟩
  · rw [← h1, segmentAt, segmentAt, hh]
  · rw [hv, he]
    exact h2

theorem HeapShape.bounds (h : HeapShape top s l) (ha : a ∈ l) :
    s.heapEnd ≤ a ∧ a + headerSize + (s.header a).length ≤ top - headerSize ∧ headerSize ≤ top ∧
      16 ∣ a ∧ 16 ∣ (s.header a).length := by
  have hm : segmentAt s a ∈ view s l := mem_map.mpr ⟨a, ha, rfl⟩
  obtain ⟨h1, h2⟩ := h.stacked.inside _ hm
  obtain ⟨h3, h4⟩ := h.stacked.aligned _ hm
  simp only [Segment.stop, segmentAt] at h1 h2 h3 h4
  exact ⟨h1, h2, by omega, h3, h4⟩

theorem HeapShape.not_mem (h : HeapShape top s (l1 ++ a :: l2)) (hlo : a < n)
    (hhi : n < a + headerSize + (s.header a).length) :
    n ∉ (top - headerSize) :: (l1 ++ a :: l2) := by
  have hst := h.stacked
  rw [view_append, view_cons] at hst
  obtain ⟨h1, h2⟩ := hst.around
  have hb := (h.bounds (a := a) (by simp)).2.1
  simp only [Segment.stop, segmentAt] at h1 h2
  intro hn
  simp only [mem_cons, mem_append] at hn
  rcases hn with rfl | hn | rfl | hn
  · omega
  · have := h1 _ (mem_map.mpr ⟨n, hn, rfl⟩)
    simp only [segmentAt] at this
    omega
  · omega
  · have := h2 _ (mem_map.mpr ⟨n, hn, rfl⟩)
    simp only [segmentAt] at this
    omega

theorem HeapShape.not_mem_below (h : HeapShape top s l) (hn : n < s.heapEnd) :
    n ∉ (top - headerSize) :: l := by
  have hz := h.bounds (mem_of_getLast? h.lowest)
  intro hx
  rcases mem_cons.mp hx with rfl | hx
  · omega
  · have := (h.bounds hx).1
    omega

theorem setFree_shape {f : Bool} (h : HeapShape top s (l1 ++ a :: l2)) :
    HeapShape top (s.setFree a f) (l1 ++ a :: l2) ∧ view (s.setFree a f) (l1 ++ a :: l2) =
        view s l1 ++ ⟨a, (s.header a).length, f⟩ :: view s l2 := by
  obtain ⟨hc, hv1, hv2, ha⟩ := setFree_chained f h.chained
  obtain ⟨hm, hv1⟩ := List.cons.inj hv1
  have hview : view (s.setFree a f) (l1 ++ a :: l2) =
      view s l1 ++ ⟨a, (s.header a).length, f⟩ :: view s l2 := by
    rw [view_append, view_cons, ha]
    exact congrArg₂ _ hv1 (congrArg _ hv2)
  have hst := h.stacked
  rw [view_append, view_cons] at hst
  refine ⟨⟨hc, hm.trans h.main, ?_, h.lowest, h.pos, h.bound⟩, hview⟩
  rw [hview]
  exact hst.setFree

theorem splitSegment_shape (h : HeapShape top s (l1 ++ a :: l2))
    (hs : size + headerSize < (s.header a).length) (ha : 16 ∣ size) :
    ∃ s', splitSegment s a size = some (s', a + (s.header a).length - size) ∧ SameVars s s' ∧
      HeapShape top s' (l1 ++ (a + (s.header a).length - size) :: a :: l2) ∧
      view s' (l1 ++ (a + (s.header a).length - size) :: a :: l2) =
        view s l1 ++ ⟨a + (s.header a).length - size, size, true⟩ ::
          ⟨a, (s.header a).length - (size + headerSize), (s.header a).isFree⟩ :: view s l2 := by
  obtain ⟨-, hhi, htop, -⟩ := h.bounds (a := a) (by simp)
  have hbound := h.bound
  have hn : wsub (wadd a (s.header a).length) size = a + (s.header a).length - size := by
    rw [wadd_of_lt (by omega), wsub_of_le (by omega) (by omega)]
  have hlen : wsub (s.header a).length (wadd size headerSize) =
      (s.header a).length - (size + headerSize) := by
    rw [wadd_of_lt (by omega), wsub_of_le (by omega) (by omega)]
  obtain ⟨s', he, hv, hc, hv1, hv2, hn', ha'⟩ := splitSegment_chained h.chained
    (by rw [wadd_of_lt (by omega)]; exact hs) hn (h.not_mem (by omega) (by unfold headerSize; omega))
  obtain ⟨hm, hv1⟩ := List.cons.inj hv1
  rw [hlen] at ha'
  have hview : view s' (l1 ++ (a + (s.header a).length - size) :: a :: l2) =
      view s l1 ++ ⟨a + (s.header a).length - size, size, true⟩ ::
        ⟨a, (s.header a).length - (size + headerSize), (s.header a).isFree⟩ :: view s l2 := by
    rw [view_append, view_cons, view_cons, hn', ha', hv2]
    exact congrArg (· ++ _) hv1
  have hst := h.stacked
  rw [view_append, view_cons] at hst
  have hheap : s'.heapEnd = s.heapEnd := by rw [hv]
  refine ⟨s', he, hv, ⟨hc, hm.trans h.main, ?_, ?_, hheap ▸ h.pos, hbound⟩, hview⟩
  · rw [hview, hheap]
    exact hst.split hs ha
  · rw [hheap, ← h.lowest, getLast?_append_of_ne_nil _ (by simp),
      getLast?_append_of_ne_nil _ (by simp), getLast?_cons_cons]

theorem merge_shape (h : HeapShape top s (l1 ++ a :: b :: l2)) :
    ∃ s', mergeLastToThis s b = .ok s' ∧ mergeThisToNext s a = .ok s' ∧ SameVars s s' ∧
      HeapShape top s' (l1 ++ b :: l2) ∧
      view s' (l1 ++ b :: l2) = view s l1 ++
        ⟨b, (s.header b).length + ((s.header a).length + headerSize), (s.header b).isFree⟩ ::
          view s l2 := by
  obtain ⟨-, hhi, htop, -⟩ := h.bounds (a := a) (by simp)
  have hbound := h.bound
  have hst := h.stacked
  rw [view_append, view_cons, view_cons] at hst
  have hba := hst.around.2 (segmentAt s b) (by simp)
  simp only [Segment.stop, segmentAt] at hba
  obtain ⟨s', he1, he2, hv, hc, hv1, hv2, hb⟩ := merge_chained h.chained
  obtain ⟨hm, hv1⟩ := List.cons.inj hv1
  have hupper : wadd (s.header a).length headerSize = (s.header a).length + headerSize :=
    wadd_of_lt (by omega)
  rw [hupper, wadd_of_lt (by omega)] at hb
  have hview : view s' (l1 ++ b :: l2) = view s l1 ++
      ⟨b, (s.header b).length + ((s.header a).length + headerSize), (s.header b).isFree⟩ ::
        view s l2 := by
    rw [view_append, view_cons, hb, hv2]
    exact congrArg (· ++ _) hv1
  have hheap : s'.heapEnd = s.heapEnd := by rw [hv]
  refine ⟨s', he1, he2, hv, ⟨hc, hm.trans h.main, ?_, ?_, hheap ▸ h.pos, hbound⟩, hview⟩
  · rw [hview, hheap]
    exact hst.merge
  · rw [hheap, ← h.lowest, getLast?_append_of_ne_nil _ (by simp),
      getLast?_append_of_ne_nil _ (by simp), getLast?_cons_cons]

theorem expansionSize_spec (hs : size + headerSize ≤ 2 ^ 64 - pageSize) :
    size + headerSize ≤ expansionSize size ∧ expansionSize size < size + headerSize + pageSize ∧
      pageSize ∣ expansionSize size := by
  unfold expansionSize wadd headerSize pageSize at *
  dsimp only
  rw [Nat.mod_eq_of_lt (by omega : size + 48 < 2 ^ 64)]
  split_ifs <;> omega

/-- How the view changes when `length` bytes are added at the lower end. -/
inductive Expanded (V : List Segment) (heapEnd length : ℕ) : List Segment → Prop
  | absorb {V1 : List Segment} {v : Segment} : V = V1 ++ [v] → v.isFree = true →
      Expanded V heapEnd length (V1 ++ [⟨heapEnd, v.length + length - headerSize, true⟩])
  | append {V1 : List Segment} {v : Segment} : V = V1 ++ [v] → v.isFree = false →
      Expanded V heapEnd length (V ++ [⟨heapEnd, length - headerSize, true⟩])

private theorem linkExpansion_shape (s' : HeapState) (h : HeapShape top s l)
    (hs : headerSize ≤ length)
    (hl : length < s.heapEnd) (ha : 16 ∣ length) (hs' : s'.header = s.header ∧
      s'.mainSegment = s.mainSegment ∧ s'.lastSegment = s.lastSegment ∧
      s'.heapEnd = s.heapEnd - length) :
    ∃ l', HeapShape top (linkExpansion s' s'.heapEnd length) l' ∧
      linkExpansion s' s'.heapEnd length =
        { s' with header := (linkExpansion s' s'.heapEnd length).header,
                  lastSegment := some s'.heapEnd } ∧
      Expanded (view s l) s'.heapEnd length (view (linkExpansion s' s'.heapEnd length) l') := by
  obtain ⟨hh, hm, hf, he⟩ := hs'
  have hhead : headerSize = 48 := rfl
  obtain ⟨l1, hl1⟩ := getLast?_eq_some_iff.mp h.lowest
  have hz := h.bounds (mem_of_getLast? h.lowest)
  have hbound := h.bound
  have hc := h.chained.congr (by simp [hh]) (by simp [hh]) hm hf
  have hnot : s'.heapEnd ∉ (top - headerSize) :: l := h.not_mem_below (by omega)
  have hseg : ∀ x, segmentAt s' x = segmentAt s x := fun x => by rw [segmentAt, segmentAt, hh]
  have hv : ∀ k, view s' k = view s k := fun k => view_congr fun x _ => hseg x
  have hpos : 0 < s'.heapEnd := by omega
  cases hfree : (s.header s.heapEnd).isFree with
  | true =>
    subst hl1
    obtain ⟨hvars, hc', hv', hn⟩ := linkExpansion_absorb hc (by rw [hh]; exact hfree)
      (fun hx => hnot (by
        rw [← cons_append]
        exact mem_append_left _ hx))
    generalize linkExpansion s' s'.heapEnd length = s1 at *
    obtain ⟨hm', hv'⟩ := List.cons.inj hv'
    have hheap : s1.heapEnd = s'.heapEnd := by rw [hvars]
    have hview : view s1 (l1 ++ [s'.heapEnd]) = view s l1 ++
        [⟨s'.heapEnd, (s.header s.heapEnd).length + length - headerSize, true⟩] := by
      rw [view_append, view_cons, hn, hh, wadd_of_lt (by omega), wsub_of_le (by omega) (by omega)]
      exact congrArg (· ++ _) (hv'.trans (hv l1))
    have hst : Stacked s.heapEnd (top - headerSize) (view s l1 ++ [segmentAt s s.heapEnd]) := by
      simpa using h.stacked
    refine ⟨l1 ++ [s'.heapEnd], ⟨hc', hm'.trans ((hseg _).trans h.main), ?_, ?_, ?_, hbound⟩,
      hvars, ?_⟩
    · rw [hview, hheap, he]
      exact hst.absorb rfl hs hl.le ha
    · rw [hheap, getLast?_concat]
    · rw [hheap]
      exact hpos
    · rw [hview]
      change Expanded _ _ _ (view s l1 ++
        [⟨s'.heapEnd, (segmentAt s s.heapEnd).length + length - headerSize, true⟩])
      apply Expanded.absorb
      · simp
      · exact hfree
  | false =>
    obtain ⟨hvars, hc', hv', hn⟩ := linkExpansion_append hc (by
      intro x hx
      rw [hh, ← Option.some.inj (h.lowest.symm.trans hx)]
      exact hfree) hnot
    generalize linkExpansion s' s'.heapEnd length = s1 at *
    obtain ⟨hm', hv'⟩ := List.cons.inj hv'
    have hheap : s1.heapEnd = s'.heapEnd := by rw [hvars]
    have hview : view s1 (l ++ [s'.heapEnd]) =
        view s l ++ [⟨s'.heapEnd, length - headerSize, true⟩] := by
      rw [view_append, view_cons, hn, wsub_of_le (by omega) hs]
      exact congrArg (· ++ _) (hv'.trans (hv l))
    refine ⟨l ++ [s'.heapEnd], ⟨hc', hm'.trans ((hseg _).trans h.main), ?_, ?_, ?_, hbound⟩,
      hvars, ?_⟩
    · rw [hview, hheap, he]
      exact h.stacked.append (by omega) hz.2.2.2.1 hs hl.le ha
    · rw [hheap, getLast?_concat]
    · rw [hheap]
      exact hpos
    · rw [hview]
      have hlast : view s l = view s l1 ++ [segmentAt s s.heapEnd] := by
        rw [hl1]
        simp
      apply Expanded.append hlast
      exact hfree

/-- Expanding the heap adds one free segment at its lower end, or puts a longer one in the
place of a free last segment. -/
theorem expandHeap_shape (h : HeapShape top s l) (hs : size + headerSize ≤ 2 ^ 64 - pageSize)
    (he : expandHeap s size = .ok s') :
    ∃ l', HeapShape top s' l' ∧ s'.lock = s.lock ∧ s'.usedSize = s.usedSize ∧
      s'.mapped = s.mapped + expansionSize size ∧
      s'.totalSize = wadd s.totalSize (wadd (expansionSize size) headerSize) ∧
      Expanded (view s l) s'.heapEnd (expansionSize size) (view s' l') := by
  obtain ⟨h1, h2, h3⟩ := expansionSize_spec hs
  have h16 : 16 ∣ expansionSize size := Nat.dvd_trans (by decide) h3
  have hz := h.bounds (mem_of_getLast? h.lowest)
  have hpos := h.pos
  have hbound := h.bound
  rw [expandHeap] at he
  generalize expansionSize size = L at *
  split_ifs at he with hmap
  -- the range fits below the old end, else the mapping would wrap
  have hfits : L ≤ s.heapEnd := by
    unfold wsub pageSize at *
    omega
  rw [wsub_of_le (by omega) hfits] at he hmap
  obtain ⟨l', hshape, hvars, hview⟩ := linkExpansion_shape
    { s with heapEnd := s.heapEnd - L, mapped := s.mapped + L } h (by omega) (by omega) h16
    ⟨rfl, rfl, rfl, rfl⟩
  cases he
  generalize linkExpansion _ (s.heapEnd - L) L = s1 at *
  obtain ⟨hs1, hv1⟩ := hshape.congr { s1 with
    totalSize := wadd s1.totalSize (wadd L headerSize)
    freeSize := wadd s1.freeSize (wadd L headerSize) } rfl rfl rfl rfl
  refine ⟨l', hs1, ?_, ?_, ?_, ?_, ?_⟩
  · rw [hvars]
  · rw [hvars]
  · rw [hvars]
  · rw [hvars]
  · rw [hv1]
    rw [hvars] at *
    exact hview

end Kot.Kernel.Heap
