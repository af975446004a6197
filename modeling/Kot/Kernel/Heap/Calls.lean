import Kot.Kernel.Heap.Invariant

/-! The calls of the heap on heaps that satisfy the invariant: which block a request gets
and what becomes of the other segments. -/
namespace Kot.Kernel.Heap
open List

/-- The invariant between two calls: the shape of the list, and no two free neighbours. -/
structure HeapInv (top : ℕ) (s : HeapState) (l : List Ptr) : Prop extends HeapShape top s l where
  apart : Apart (view s l)

variable {s s' : HeapState} {top size length a n p : ℕ} {l l1 l2 : List Ptr}

theorem HeapInv.congr (h : HeapInv top s l) (s' : HeapState) (hh : s'.header = s.header)
    (he : s'.heapEnd = s.heapEnd) (hm : s'.mainSegment = s.mainSegment)
    (hl : s'.lastSegment = s.lastSegment) : HeapInv top s' l ∧ view s' l = view s l := by
  obtain ⟨hs, hv⟩ := h.toHeapShape.congr s' hh he hm hl
  exact ⟨⟨hs, hv ▸ h.apart⟩, hv⟩

private theorem view_inj {V1 V2 : List Segment} {v : Segment}
    (h : view s (l1 ++ a :: l2) = V1 ++ v :: V2) (hl : l1.length = V1.length) :
    view s l1 = V1 ∧ segmentAt s a = v ∧ view s l2 = V2 := by
  rw [view_append, view_cons] at h
  obtain ⟨h1, h2⟩ := append_inj h (by simpa [view] using hl)
  obtain ⟨h2, h3⟩ := List.cons.inj h2
  exact ⟨h1, h2, h3⟩

/-- What serving a request of `size` bytes at `p` changes. -/
structure Served (top : ℕ) (s : HeapState) (l : List Ptr) (p size : ℕ) (s' : HeapState)
    (l' : List Ptr) : Prop where
  inv : HeapInv top s' l'
  heapEnd : s'.heapEnd = s.heapEnd
  mapped : s'.mapped = s.mapped
  totalSize : s'.totalSize = s.totalSize
  lock : s'.lock = false
  usedSize : s'.usedSize = wadd s.usedSize (wadd size headerSize)
  freeSize : s'.freeSize = wsub s.freeSize (wadd size headerSize)
  blocks : (usedBlocks (view s' l')).Perm ((p, size) :: usedBlocks (view s l))
  tight : ∀ lo hi, Tight lo hi (view s l) → Tight lo hi (view s' l')

private theorem takeSegment_shape (h : HeapShape top s (l1 ++ a :: l2))
    (h1 : Apart (view s l1)) (h2 : Apart (view s l2)) :
    ∃ s', takeSegment s a = (some (a + headerSize), s') ∧ HeapInv top s' (l1 ++ a :: l2) ∧
      s' = { s with
        header := s'.header
        lock := false
        usedSize := wadd s.usedSize (wadd (s.header a).length headerSize)
        freeSize := wsub s.freeSize (wadd (s.header a).length headerSize) } ∧
      view s' (l1 ++ a :: l2) =
        view s l1 ++ ⟨a, (s.header a).length, false⟩ :: view s l2 := by
  obtain ⟨-, hhi, htop, -⟩ := h.bounds (a := a) (by simp)
  have hbound := h.bound
  obtain ⟨hs, hv⟩ := setFree_shape h
  have hlen : ((s.setFree a false).header a).length = (s.header a).length := by
    simp [HeapState.setFree, modify_header]
  have hap : Apart (view (s.setFree a false) (l1 ++ a :: l2)) := by
    rw [hv, apart_mid]
    exact ⟨h1, h2, by simp⟩
  rw [takeSegment, wadd_of_lt (by omega), hlen]
  obtain ⟨hinv, hv'⟩ := (HeapInv.mk hs hap).congr (HeapState.release
    { s.setFree a false with
      usedSize := wadd (s.setFree a false).usedSize (wadd (s.header a).length headerSize)
      freeSize := wsub (s.setFree a false).freeSize (wadd (s.header a).length headerSize) })
    rfl rfl rfl rfl
  exact ⟨_, rfl, hinv, rfl, hv'.trans hv⟩

theorem serveSegment_served (h : HeapInv top s (l1 ++ a :: l2)) (hf : (s.header a).isFree = true)
    (hfit : size + headerSize < (s.header a).length ∨ (s.header a).length = size)
    (hs : size + headerSize < 2 ^ 64) (ha : 16 ∣ size) :
    ∃ p s' l', serveSegment s a size = .ok (some p, s') ∧ Served top s (l1 ++ a :: l2) p size s' l' := by
  have hap := h.apart
  rw [view_append, view_cons] at hap
  obtain ⟨hap1, hap2, hfree⟩ := apart_mid.mp hap
  rw [serveSegment, wadd_of_lt hs]
  split_ifs with hc
  · obtain ⟨s1, he, hv, hsh, hview⟩ := splitSegment_shape h.toHeapShape hc ha
    obtain ⟨hv1, hn, hv2⟩ := view_inj hview (by simp [view])
    obtain ⟨s', ht, hinv, hs', hview'⟩ := takeSegment_shape hsh (by rw [hv1]; exact hap1) (by
      rw [hv2, apart_cons]
      exact ⟨hap2, fun _ => (hfree hf).2⟩)
    have hlen : (s1.header (a + (s.header a).length - size)).length = size :=
      congrArg Segment.length hn
    rw [hlen] at hs' hview'
    rw [hv1, hv2] at hview'
    refine ⟨_, s', _, by rw [he]; exact congrArg _ ht, hinv, ?_, ?_, ?_, ?_, ?_, ?_, ?_, ?_⟩
    · rw [hs', hv]
    · rw [hs', hv]
    · rw [hs', hv]
    · rw [hs']
    · rw [hs', hv]
    · rw [hs', hv]
    · rw [hview', view_append, view_cons, usedBlocks_append, usedBlocks_append,
        usedBlocks_cons_used rfl, usedBlocks_cons_free hf, usedBlocks_cons_free hf]
      exact perm_middle
    · intro lo hi ht
      rw [view_append, view_cons] at ht
      rw [hview']
      exact ht.split hc
  · have hsize : (s.header a).length = size := by omega
    obtain ⟨s', ht, hinv, hs', hview⟩ := takeSegment_shape h.toHeapShape hap1 hap2
    rw [hsize] at hs' hview
    refine ⟨_, s', _, congrArg _ ht, hinv, ?_, ?_, ?_, ?_, ?_, ?_, ?_, ?_⟩
    · rw [hs']
    · rw [hs']
    · rw [hs']
    · rw [hs']
    · rw [hs']
    · rw [hs']
    · rw [hview, view_append, view_cons, usedBlocks_append, usedBlocks_append,
        usedBlocks_cons_used rfl, usedBlocks_cons_free hf]
      exact perm_middle
    · intro lo hi ht
      rw [view_append, view_cons] at ht
      rw [hview, ← hsize]
      exact ht.setFree

variable {V V' : List Segment} {heapEnd turns : ℕ} {r : Option Ptr}

theorem Expanded.usedBlocks_eq (h : Expanded V heapEnd length V') : usedBlocks V' = usedBlocks V := by
  cases h with
  | absorb hV hf =>
    rw [hV, usedBlocks_append, usedBlocks_append, usedBlocks_cons_free rfl,
      usedBlocks_cons_free hf]
  | append hV hf => rw [usedBlocks_append, usedBlocks_cons_free rfl]; simp

theorem Expanded.apart (h : Expanded V heapEnd length V') (ha : Apart V) : Apart V' := by
  cases h with
  | absorb hV hf =>
    rw [hV, apart_mid] at ha
    exact apart_mid.mpr ⟨ha.1, ha.2.1, fun _ => ha.2.2 hf⟩
  | append hV hf =>
    apply apart_mid.mpr
    refine ⟨ha, List.IsChain.nil, fun _ => ⟨fun u hu => ?_, by simp⟩⟩
    rw [hV, getLast?_concat] at hu
    cases hu
    exact hf

theorem roundup16_spec (hs : size + headerSize ≤ 2 ^ 64) :
    size ≤ roundup16 size ∧ 16 ∣ roundup16 size ∧ roundup16 size < size + 16 ∧
      roundup16 (roundup16 size) = roundup16 size := by
  unfold roundup16 wadd headerSize at *
  split_ifs <;> omega

theorem acquire_eq (h : s.acquire = .ok s') : s.lock = false ∧ s' = s.setLock true := by
  unfold HeapState.acquire at h
  split at h
  · cases h
  · next hl => exact ⟨by simpa using hl, (Except.ok.inj h).symm⟩

/-- The two ways a call of `malloc` returns: a segment is found, or the heap is expanded
and the call starts again with the rounded size. -/
theorem malloc_cases (h0 : size ≠ 0) (hm : malloc turns s size = .ok (r, s')) :
    s.lock = false ∧ ∃ t, turns = t + 1 ∧
      ((∃ a, findSegment (s.setLock true) (roundup16 size) turns s.mainSegment = .ok (some a) ∧
          serveSegment (s.setLock true) a (roundup16 size) = .ok (r, s')) ∨
        (findSegment (s.setLock true) (roundup16 size) turns s.mainSegment = .ok none ∧
          ∃ s1, expandHeap (s.setLock true) (roundup16 size) = .ok s1 ∧
            malloc t s1.release (roundup16 size) = .ok (r, s'))) := by
  cases turns with
  | zero => cases hm
  | succ t =>
    rw [malloc, if_neg h0] at hm
    obtain ⟨s0, hacq, hm⟩ := bind_eq_ok hm
    obtain ⟨hl, rfl⟩ := acquire_eq hacq
    obtain ⟨found, hf, hm⟩ := bind_eq_ok hm
    refine ⟨hl, t, rfl, ?_⟩
    cases found with
    | some a => exact .inl ⟨a, hf, hm⟩
    | none =>
      obtain ⟨s1, he, hm⟩ := bind_eq_ok hm
      exact .inr ⟨hf, s1, he, hm⟩

theorem findSegment_some (h : HeapInv top s l) (hs : size + headerSize < 2 ^ 64)
    (hf : findSegment s size turns s.mainSegment = .ok (some a)) :
    ∃ l1 l2, l = l1 ++ a :: l2 ∧ (s.header a).isFree = true ∧
      (size + headerSize < (s.header a).length ∨ (s.header a).length = size) := by
  have hmain := h.chained.main
  rw [hmain] at hf
  have hfind := findSegment_eq h.chained.linked hf
  have hfit := find?_some hfind.symm
  have hmem := mem_of_find?_eq_some hfind.symm
  simp only [decide_eq_true_eq, wadd_of_lt hs] at hfit
  have hal : a ∈ l := by
    rcases mem_cons.mp hmem with rfl | hal
    · have := congrArg Segment.isFree h.main
      simp [segmentAt, hfit.1] at this
    · exact hal
  obtain ⟨l1, l2, hl⟩ := append_of_mem hal
  exact ⟨l1, l2, hl, hfit⟩

theorem malloc_served (h : HeapInv top s l)
    (hs : roundup16 size + headerSize < 2 ^ 64) (ha : 16 ∣ roundup16 size)
    (hf : findSegment (s.setLock true) (roundup16 size) turns s.mainSegment = .ok (some a))
    (hm : serveSegment (s.setLock true) a (roundup16 size) = .ok (r, s')) :
    ∃ p l', r = some p ∧ Served top s l p (roundup16 size) s' l' := by
  obtain ⟨hlock, hview⟩ := h.congr (s.setLock true) rfl rfl rfl rfl
  obtain ⟨l1, l2, rfl, hfree, hfit⟩ := findSegment_some hlock hs hf
  obtain ⟨p, s1, l', he, hserved⟩ := serveSegment_served hlock hfree hfit hs ha
  obtain ⟨rfl, rfl⟩ := Prod.mk.inj (Except.ok.inj (he.symm.trans hm))
  obtain ⟨h1, h2, h3, h4, h5, h6, h7, h8, h9⟩ := hserved
  exact ⟨p, l', rfl, h1, h2, h3, h4, h5, h6, h7, hview ▸ h8, fun lo hi ht => h9 lo hi (hview ▸ ht)⟩

/-- Every call with a size whose page rounding does not wrap returns a new block of the
rounded size and keeps the invariant. -/
theorem malloc_inv (h : HeapInv top s l) (h0 : 1 ≤ size)
    (hs : roundup16 size + headerSize ≤ 2 ^ 64 - pageSize) (hle : size + headerSize ≤ 2 ^ 64)
    (hm : malloc turns s size = .ok (r, s')) :
    ∃ p l', r = some p ∧ HeapInv top s' l' ∧ s'.lock = false ∧
      (usedBlocks (view s' l')).Perm ((p, roundup16 size) :: usedBlocks (view s l)) := by
  have hpage : pageSize = 4096 := rfl
  induction turns generalizing s l size with
  | zero => cases hm
  | succ t ih =>
    obtain ⟨hup, hdvd, -, hidem⟩ := roundup16_spec hle
    obtain ⟨-, t', ht, ⟨a, hf, hm⟩ | ⟨-, s1, he, hm⟩⟩ := malloc_cases (by omega) hm
    · obtain ⟨p, l', hr, hserved⟩ := malloc_served h (by omega) hdvd hf hm
      exact ⟨p, l', hr, hserved.inv, hserved.lock, hserved.blocks⟩
    · obtain rfl : t = t' := by omega
      obtain ⟨hlock, hview⟩ := h.congr (s.setLock true) rfl rfl rfl rfl
      obtain ⟨l1, hsh, -, -, -, -, hx⟩ := expandHeap_shape hlock.toHeapShape hs he
      have h1 : HeapInv top s1 l1 := ⟨hsh, hx.apart hlock.apart⟩
      obtain ⟨h2, hview2⟩ := h1.congr s1.release rfl rfl rfl rfl
      obtain ⟨p, l', hr, hinv, hl, hperm⟩ := ih h2 (by omega) (by rw [hidem]; exact hs) (by omega) hm
      rw [hidem, hview2, hx.usedBlocks_eq, hview] at hperm
      exact ⟨p, l', hr, hinv, hl, hperm⟩

/-- The three merging branches of `free` are a merge with the neighbour above followed by
a merge with the neighbour below, each where that neighbour is free. -/
private theorem coalesce_eq {a : Ptr} :
    coalesce s a = (if isFreeAt s (s.header a).last then mergeLastToThis s a else .ok s) >>=
      fun s1 => if isFreeAt s (s.header a).next then mergeThisToNext s1 a else .ok s1 := by
  unfold coalesce
  cases isFreeAt s (s.header a).last <;> cases isFreeAt s (s.header a).next <;>
    simp [mergeLastAndThisToNext, bind, Except.bind]
  cases mergeLastToThis s a <;> rfl

section
variable (h : HeapShape top s (l1 ++ a :: l2)) (hf : (s.header a).isFree = true)
include h hf

private theorem joinLast (hap : Apart (view s l1)) :
    ∃ s' l', (if isFreeAt s (s.header a).last then mergeLastToThis s a else .ok s) = .ok s' ∧
      SameVars s s' ∧ HeapShape top s' (l' ++ a :: l2) ∧ view s' l2 = view s l2 ∧
      (s'.header a).isFree = true ∧ Apart (view s' l') ∧
      (∀ u ∈ (view s' l').getLast?, u.isFree = false) ∧
      usedBlocks (view s' l') = usedBlocks (view s l1) ∧
      ∀ lo hi, Tight lo hi (view s (l1 ++ a :: l2)) → Tight lo hi (view s' (l' ++ a :: l2)) := by
  rw [h.chained.around.1]
  rcases eq_nil_or_concat l1 with rfl | ⟨l0, p, rfl⟩
  · have hm : (s.header (top - headerSize)).isFree = false := congrArg Segment.isFree h.main
    refine ⟨s, [], ?_, .refl s, h, rfl, hf, hap, by simp, rfl, fun _ _ ht => ht⟩
    simp [isFreeAt, hm]
  · rw [concat_eq_append] at *
    rw [← cons_append, getLast?_concat]
    by_cases hp : isFreeAt s (some p) = true
    · have h' : HeapShape top s (l0 ++ p :: a :: l2) := by simpa using h
      obtain ⟨s', he, -, hv, hsh, hview⟩ := merge_shape h'
      obtain ⟨hv0, ha, hv2⟩ := view_inj hview (by simp [view])
      rw [view_append, view_cons, view_nil, apart_mid] at hap
      refine ⟨s', l0, by rw [if_pos hp, he], hv, hsh, hv2, ?_, ?_, ?_, ?_, ?_⟩
      · exact (congrArg Segment.isFree ha).trans hf
      · rw [hv0]
        exact hap.1
      · rw [hv0]
        exact (hap.2.2 hp).1
      · rw [hv0, view_append, view_cons, usedBlocks_append, usedBlocks_cons_free hp]
        simp
      · intro lo hi ht
        rw [append_assoc, view_append, cons_append, view_cons, nil_append,
          view_cons] at ht
        rw [hview]
        exact ht.merge
    · refine ⟨s, l0 ++ [p], by rw [if_neg hp], .refl s, h, rfl, hf, hap, ?_, rfl,
        fun _ _ ht => ht⟩
      simpa [segmentAt, isFreeAt] using hp

private theorem joinNext (hap : Apart (view s l2)) :
    ∃ s' b l', (if isFreeAt s l2.head? then mergeThisToNext s a else .ok s) = .ok s' ∧
      SameVars s s' ∧ HeapShape top s' (l1 ++ b :: l') ∧ view s' l1 = view s l1 ∧
      (s'.header b).isFree = true ∧ Apart (view s' l') ∧
      (∀ u ∈ (view s' l').head?, u.isFree = false) ∧
      usedBlocks (view s' l') = usedBlocks (view s l2) ∧
      ∀ lo hi, Tight lo hi (view s (l1 ++ a :: l2)) → Tight lo hi (view s' (l1 ++ b :: l')) := by
  rcases l2 with _ | ⟨b, l2⟩
  · exact ⟨s, a, [], rfl, .refl s, h, rfl, hf, hap, by simp, rfl, fun _ _ ht => ht⟩
  · rw [head?_cons]
    by_cases hb : isFreeAt s (some b) = true
    · obtain ⟨s', -, he, hv, hsh, hview⟩ := merge_shape h
      obtain ⟨hv1, hb', hv2⟩ := view_inj hview (by simp [view])
      rw [view_cons, apart_cons] at hap
      refine ⟨s', b, l2, by rw [if_pos hb, he], hv, hsh, hv1, ?_, ?_, ?_, ?_, ?_⟩
      · exact (congrArg Segment.isFree hb').trans hb
      · rw [hv2]
        exact hap.1
      · rw [hv2]
        exact hap.2 hb
      · rw [hv2, view_cons, usedBlocks_cons_free hb]
      · intro lo hi ht
        rw [view_append, view_cons, view_cons] at ht
        rw [hview]
        exact ht.merge
    · refine ⟨s, a, b :: l2, by rw [if_neg hb], .refl s, h, rfl, hf, hap, ?_, rfl,
        fun _ _ ht => ht⟩
      simpa [segmentAt, isFreeAt] using hb

private theorem coalesce_shape (h1 : Apart (view s l1)) (h2 : Apart (view s l2)) :
    ∃ s' l', coalesce s a = .ok s' ∧ SameVars s s' ∧ HeapInv top s' l' ∧
      usedBlocks (view s' l') = usedBlocks (view s l1) ++ usedBlocks (view s l2) ∧
      ∀ lo hi, Tight lo hi (view s (l1 ++ a :: l2)) → Tight lo hi (view s' l') := by
  obtain ⟨s1, l1', he1, hv1, hs1, hview1, hf1, hap1, hlast, hu1, ht1⟩ := joinLast h hf h1
  obtain ⟨s2, b, l2', he2, hv2, hs2, hview2, hf2, hap2, hhead, hu2, ht2⟩ :=
    joinNext hs1 hf1 (hview1 ▸ h2)
  have hnext : isFreeAt s l2.head? = isFreeAt s1 l2.head? := by
    cases l2 with
    | nil => rfl
    | cons c l2 => exact (congrArg Segment.isFree (List.cons.inj hview1).1).symm
  refine ⟨s2, l1' ++ b :: l2', ?_, hv1.trans hv2, ⟨hs2, ?_⟩, ?_,
    fun lo hi ht => ht2 lo hi (ht1 lo hi ht)⟩
  · rw [coalesce_eq, he1, h.chained.around.2.1, hnext]
    exact he2
  · rw [view_append, view_cons, hview2, apart_mid]
    exact ⟨hap1, hap2, fun _ => ⟨hlast, hhead⟩⟩
  · rw [view_append, view_cons, usedBlocks_append, usedBlocks_cons_free hf2, hview2, hu1, hu2,
      hview1]

end

/-- What freeing the block of `length` bytes at `p` changes. -/
structure Freed (top : ℕ) (s : HeapState) (l : List Ptr) (p length : ℕ) (s' : HeapState)
    (l' : List Ptr) : Prop where
  inv : HeapInv top s' l'
  heapEnd : s'.heapEnd = s.heapEnd
  mapped : s'.mapped = s.mapped
  totalSize : s'.totalSize = s.totalSize
  lock : s'.lock = false
  usedSize : s'.usedSize = wsub s.usedSize (wadd length headerSize)
  freeSize : s'.freeSize = wadd s.freeSize (wadd length headerSize)
  blocks : (usedBlocks (view s l)).Perm ((p, length) :: usedBlocks (view s' l'))
  tight : ∀ lo hi, Tight lo hi (view s l) → Tight lo hi (view s' l')

theorem free_freed (h : HeapInv top s l) (hl : s.lock = false)
    (hp : (p, length) ∈ usedBlocks (view s l)) :
    ∃ s' l', free s (some p) = .ok s' ∧ Freed top s l p length s' l' := by
  obtain ⟨v, hv, hused, rfl, rfl⟩ := mem_usedBlocks.mp hp
  obtain ⟨a, ha, rfl⟩ := mem_map.mp hv
  obtain ⟨l1, l2, rfl⟩ := append_of_mem ha
  obtain ⟨-, hhi, htop, -⟩ := h.bounds (a := a) (by simp)
  have hbound := h.bound
  have haddr : wsub (a + headerSize) headerSize = a := by
    rw [wsub_of_le (by omega) (by omega)]
    omega
  have hap := h.apart
  rw [view_append, view_cons, apart_mid] at hap
  obtain ⟨hlock, hviewl⟩ := h.toHeapShape.congr (s.setLock true) rfl rfl rfl rfl
  obtain ⟨hs1, hview1⟩ := setFree_shape hlock
  obtain ⟨hv1, ha1, hv2⟩ := view_inj hview1 (by simp [view])
  have hlen : (((s.setLock true).setFree a true).header a).length = (s.header a).length :=
    congrArg Segment.length ha1
  have hgive : giveSegment (s.setLock true) a = { (s.setLock true).setFree a true with
      freeSize := wadd s.freeSize (wadd (s.header a).length headerSize)
      usedSize := wsub s.usedSize (wadd (s.header a).length headerSize) } := by
    rw [giveSegment, hlen]
    rfl
  obtain ⟨hshape, -⟩ := hs1.congr (giveSegment (s.setLock true) a) rfl rfl rfl rfl
  have hview2 : ∀ k, view (giveSegment (s.setLock true) a) k =
      view ((s.setLock true).setFree a true) k := fun _ => rfl
  obtain ⟨s3, l', he, hvars, hinv, hu, ht⟩ := coalesce_shape hshape
    (congrArg Segment.isFree ha1) (by rw [hview2, hv1]; exact hap.1)
    (by rw [hview2, hv2]; exact hap.2.1)
  obtain ⟨hinv', hview'⟩ := hinv.congr s3.release rfl rfl rfl rfl
  rw [hgive] at hvars
  refine ⟨s3.release, l', ?_, hinv', ?_, ?_, ?_, rfl, ?_, ?_, ?_, ?_⟩
  · change free s (some (a + headerSize)) = _
    rw [free, HeapState.acquire, hl, haddr]
    simp only [bind, Except.bind, Bool.false_eq_true, if_false, he]
  · change s3.heapEnd = _
    rw [hvars]
    rfl
  · change s3.mapped = _
    rw [hvars]
    rfl
  · change s3.totalSize = _
    rw [hvars]
    rfl
  · change s3.usedSize = _
    rw [hvars]
    rfl
  · change s3.freeSize = _
    rw [hvars]
    rfl
  · rw [hview', hu, hview2, hview2, hv1, hv2, view_append, view_cons, usedBlocks_append,
      usedBlocks_cons_used hused]
    exact perm_middle
  · intro lo hi htight
    rw [hview']
    apply ht
    rw [view_append, view_cons] at htight
    rw [hview2, hview1]
    exact htight.setFree

end Kot.Kernel.Heap
