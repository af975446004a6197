import Kot.Kernel.Heap.Runs

/-! Conservation of heap memory: as long as no call expands the heap, the segments tile it
and the counters agree with them. -/
namespace Kot.Kernel.Heap
open Kot.Lib List

/-- The bytes of the listed blocks, headers included. -/
def blockSum (blocks : List (ℕ × ℕ)) : ℕ := (blocks.map fun b => b.2 + headerSize).sum

/-- Nothing is lost: the segments tile the heap, the bytes in segments, the mapped bytes and
`total_size` are one number, and the other two counters share it out. -/
structure HeapTight (top : ℕ) (st : HeapRun) (l : List ℕ) : Prop where
  main : st.heap.mainSegment = l.head?
  linked : Linked (fun a => (st.heap.header a).next) (fun a => (st.heap.header a).last) none l none
  tiles : Tiles (fun a => a) (fun a => headerSize + (st.heap.header a).length) st.heap.heapEnd
    l.reverse top
  total : (l.map fun a => (st.heap.header a).length + headerSize).sum = st.heap.totalSize
  mapped : st.heap.mapped = st.heap.totalSize
  balance : st.heap.usedSize + st.heap.freeSize = st.heap.totalSize
  used : st.heap.usedSize =
    (st.live.map fun b => blockLength st.heap b.1 + headerSize).sum

def findsSegment (turns : ℕ) (st : HeapRun) (op : HeapOp) : Bool :=
  match op.request with
  | none => true
  | some n =>
    match findSegment st.heap (roundup16 n) turns st.heap.mainSegment with
    | .ok (some _) => true
    | _ => false

/-- One legal call that does not expand the heap. -/
def unexpandedStep (turns : ℕ) (st : HeapRun) (op : HeapOp) : Option HeapRun :=
  if findsSegment turns st op then heapStep (2 ^ 64 - 1) turns st op else none

variable {st st' : HeapRun} {s s' : HeapState} {top size length turns p n : ℕ}
  {l l' : List Ptr} {live : List (ℕ × ℕ)} {op : HeapOp} {V : List Segment} {lo hi : ℕ}

/-- The counters of a heap that was never expanded. -/
structure Counted (top : ℕ) (s : HeapState) (l : List Ptr) : Prop where
  heapEnd : s.heapEnd = top - pageSize
  mapped : s.mapped = pageSize
  totalSize : s.totalSize = pageSize
  usedSize : s.usedSize = blockSum (usedBlocks (view s l))
  balance : s.usedSize + s.freeSize = pageSize
  tight : Tight (top - pageSize) (top - headerSize) (view s l)

theorem Tight.blockSum_le (h : Tight lo hi V) : lo + blockSum (usedBlocks V) ≤ hi := by
  have hsum := h.sum
  have hle : blockSum (usedBlocks V) ≤ (V.map fun v => headerSize + v.length).sum := by
    clear hsum h
    induction V with
    | nil => exact le_rfl
    | cons v V ih =>
      rw [map_cons, sum_cons]
      cases hf : v.isFree with
      | true =>
        rw [usedBlocks_cons_free hf]
        omega
      | false =>
        rw [usedBlocks_cons_used hf, blockSum, map_cons, sum_cons]
        rw [blockSum] at ih
        omega
  rw [map_reverse, sum_reverse] at hsum
  omega

theorem Served.counted (h : Served top s l p size s' l') (hc : Counted top s l)
    (ht : HeapTop top) : Counted top s' l' := by
  have htight := h.tight _ _ hc.tight
  have hle := htight.blockSum_le
  have hsum : blockSum (usedBlocks (view s' l')) =
      size + headerSize + blockSum (usedBlocks (view s l)) := by
    rw [blockSum, (h.blocks.map _).sum_eq]
    rfl
  have hused := hc.usedSize
  have hbalance := hc.balance
  have hsize : wadd size headerSize = size + headerSize :=
    wadd_of_lt (by unfold pageSize headerSize at *; omega)
  have hu := h.usedSize
  have hf := h.freeSize
  rw [hsize, wadd_of_lt (by unfold pageSize headerSize at *; omega)] at hu
  rw [hsize, wsub_of_le (by unfold pageSize at *; omega) (by unfold pageSize headerSize at *; omega)]
    at hf
  refine ⟨h.heapEnd.trans hc.heapEnd, h.mapped.trans hc.mapped, h.totalSize.trans hc.totalSize, ?_,
    ?_, htight⟩
  · omega
  · unfold pageSize headerSize at *
    omega

theorem Freed.counted (h : Freed top s l p length s' l') (hc : Counted top s l)
    (ht : HeapTop top) : Counted top s' l' := by
  have hsum : blockSum (usedBlocks (view s l)) =
      length + headerSize + blockSum (usedBlocks (view s' l')) := by
    rw [blockSum, (h.blocks.map _).sum_eq]
    rfl
  have hused := hc.usedSize
  have hbalance := hc.balance
  have hsize : wadd length headerSize = length + headerSize :=
    wadd_of_lt (by unfold pageSize headerSize at *; omega)
  have hu := h.usedSize
  have hf := h.freeSize
  rw [hsize, wsub_of_le (by unfold pageSize at *; omega) (by omega)] at hu
  rw [hsize, wadd_of_lt (by unfold pageSize headerSize at *; omega)] at hf
  refine ⟨h.heapEnd.trans hc.heapEnd, h.mapped.trans hc.mapped, h.totalSize.trans hc.totalSize, ?_,
    ?_, h.tight _ _ hc.tight⟩
  · omega
  · omega

theorem counted_kept (ht : HeapTop top) :
    Kept fun st => ∃ l, RunInv top st l ∧ Counted top st.heap l where
  nodup := by
    rintro st ⟨l, h, -⟩
    exact h.nodup
  fill := by
    rintro s live a k f ⟨l, h, hc⟩
    exact ⟨l, h.fill, hc.heapEnd, hc.mapped, hc.totalSize, hc.usedSize, hc.balance, hc.tight⟩
  free := by
    rintro s live p s' ⟨l, h, hc⟩ hp hf
    obtain ⟨length, hmem⟩ := h.owned.mem hp
    obtain ⟨s'', l', he, hfreed⟩ := free_freed h.inv h.lock hmem
    obtain rfl := Except.ok.inj (he.symm.trans hf)
    exact ⟨l', ⟨hfreed.inv, hfreed.lock,
      h.owned.drop hfreed.blocks h.inv.stacked.usedBlocks_nodup⟩, hfreed.counted hc ht⟩

private theorem findSegment_setLock {b : Bool} {r : Option Ptr} :
    findSegment (s.setLock b) size turns r = findSegment s size turns r := by
  induction turns generalizing r with
  | zero => cases r <;> rfl
  | succ t ih =>
    cases r with
    | none => rfl
    | some a =>
      rw [findSegment, findSegment, ih]
      rfl

private theorem malloc_counted {r : Option Ptr} (ht : HeapTop top) (h : RunInv top st l)
    (hc : Counted top st.heap l) (h1 : 1 ≤ n)
    (hn : (n + 15) / 16 * 16 + headerSize ≤ 2 ^ 64 - 1)
    (hop : op.request = some n) (hfind : findsSegment turns st op = true)
    (hm : malloc turns st.heap n = .ok (r, s')) :
    ∃ p l', r = some p ∧ RunInv top ⟨s', (p, n) :: st.live⟩ l' ∧ Counted top s' l' := by
  have hround := roundup16_eq (n := n) (by omega)
  obtain ⟨-, t, -, ⟨b, hf, hm⟩ | ⟨hf, -⟩⟩ := malloc_cases (by omega) hm
  · obtain ⟨p, l', hr, hserved⟩ := malloc_served h.inv (by omega) (by omega) hf hm
    exact ⟨p, l', hr, ⟨hserved.inv, hserved.lock, h.owned.add hserved.blocks (by omega)⟩,
      hserved.counted hc ht⟩
  · rw [findSegment_setLock] at hf
    simp [findsSegment, hop, hf] at hfind

private theorem blockSum_live (h : RunInv top st l) : blockSum (usedBlocks (view st.heap l)) =
      (st.live.map fun b => blockLength st.heap b.1 + headerSize).sum := by
  have hlen : ∀ b ∈ usedBlocks (view st.heap l), b.2 = blockLength st.heap b.1 := by
    rintro ⟨p, k⟩ hb
    obtain ⟨v, hv, -, rfl, rfl⟩ := mem_usedBlocks.mp hb
    obtain ⟨a, -, rfl⟩ := mem_map.mp hv
    rw [blockLength]
    simp [segmentAt]
  have hsum : blockSum (usedBlocks (view st.heap l)) =
      (((usedBlocks (view st.heap l)).map Prod.fst).map
        fun p => blockLength st.heap p + headerSize).sum := by
    rw [blockSum, map_map]
    congr 1
    exact map_congr_left fun b hb => by rw [hlen b hb]; rfl
  rw [hsum, ← (h.owned.perm.map _).sum_eq, map_map]
  rfl

theorem RunInv.heapTight (h : RunInv top st l) (hc : Counted top st.heap l) (ht : HeapTop top) :
    HeapTight top st ((top - headerSize) :: l) := by
  have habove := ht.above
  have hmain : (st.heap.header (top - headerSize)).length = 0 := congrArg Segment.length h.inv.main
  have htiles : Tiles (fun a => a) (fun a => headerSize + (st.heap.header a).length)
      (top - pageSize) l.reverse (top - headerSize) := by
    have := hc.tight
    rw [Tight, view, ← map_reverse, tiles_map] at this
    exact this
  constructor
  · exact h.inv.chained.main
  · exact h.inv.chained.linked
  · rw [hc.heapEnd, reverse_cons, tiles_append]
    refine ⟨top - headerSize, htiles, rfl, ?_, ?_⟩
    · exact Nat.add_pos_left (by decide) _
    · change top - headerSize + (headerSize + (st.heap.header (top - headerSize)).length) = top
      rw [hmain]
      unfold pageSize headerSize at *
      omega
  · have hsum := htiles.sum
    rw [map_reverse, sum_reverse] at hsum
    have hcomm : (l.map fun a => (st.heap.header a).length + headerSize) =
        l.map fun a => headerSize + (st.heap.header a).length :=
      map_congr_left fun a _ => Nat.add_comm _ _
    rw [hc.totalSize, map_cons, sum_cons, hmain, hcomm]
    generalize (l.map fun a => headerSize + (st.heap.header a).length).sum = total at *
    omega
  · rw [hc.mapped, hc.totalSize]
  · rw [hc.balance, hc.totalSize]
  · rw [hc.usedSize, blockSum_live h]

private theorem linkExpansion_sizes (s : HeapState) (a length : ℕ) :
    (linkExpansion s a length).totalSize = s.totalSize ∧
      (linkExpansion s a length).mapped = s.mapped := by
  unfold linkExpansion attachSegment
  split
  · exact ⟨rfl, rfl⟩
  · dsimp only
    split <;> exact ⟨rfl, rfl⟩

private theorem expandHeap_uncounted (h : s.totalSize = s.mapped)
    (he : expandHeap s size = .ok s') : s'.totalSize ≠ s'.mapped := by
  rw [expandHeap] at he
  split_ifs at he
  cases he
  obtain ⟨ht, hm⟩ := linkExpansion_sizes
    { s with heapEnd := wsub s.heapEnd (expansionSize size),
             mapped := s.mapped + expansionSize size }
    (wsub s.heapEnd (expansionSize size)) (expansionSize size)
  rw [ht, hm]
  dsimp only
  rw [h]
  unfold wadd headerSize
  omega

/-- In runs in which every request finds a segment, so that `expand_heap` is never called,
no heap memory is lost; the first expansion then breaks the account. -/
theorem heap_conserved {memory : Ptr → Header} {data : ℕ → ℕ} {ops : List HeapOp} (ht : HeapTop top)
    (h : Run (fun st op st' => ∃ turns, unexpandedStep turns st op = some st')
      ⟨heapInit memory data top, []⟩ ops st) :
    (∃ l, HeapTight top st l) ∧
      ∀ size s', expandHeap st.heap size = .ok s' → s'.totalSize ≠ s'.mapped := by
  have hinv : ∃ l, RunInv top st l ∧ Counted top st.heap l := by
    obtain ⟨hrun, htight⟩ := heapInit_run ht
    have hend := wsub_of_le ht.word ht.above.le
    refine h.invariant (P := fun st => ∃ l, RunInv top st l ∧ Counted top st.heap l)
      ⟨_, hrun, hend, rfl, rfl, ?_, rfl, htight⟩ ?_
    · have hperm := hrun.owned.perm.length_eq
      rw [length_map, length_map] at hperm
      rw [eq_nil_of_length_eq_zero hperm.symm]
      rfl
    · rintro st op st' ⟨l, hl, hc⟩ ⟨turns, hs⟩
      unfold unexpandedStep at hs
      split_ifs at hs with hfind
      obtain ⟨hlegal, hp⟩ := heapStep_perform hs
      refine (counted_kept ht).perform (by omega) ?_ ⟨l, hl, hc⟩ hlegal hp
      intro n hn r s' hm
      obtain ⟨h1, hlimit⟩ := hlegal.1 n hn
      obtain ⟨p, l', hr, hinv⟩ := malloc_counted ht hl hc h1 hlimit hn hfind hm
      exact ⟨p, hr, l', hinv⟩
  obtain ⟨l, hl, hc⟩ := hinv
  refine ⟨⟨_, hl.heapTight hc ht⟩, fun size s' he => ?_⟩
  exact expandHeap_uncounted (hc.totalSize.trans hc.mapped.symm) he

theorem heap_conserved_two :
    ∃ st, Run (fun st op st' => ∃ turns, unexpandedStep turns st op = some st')
        ⟨heapInit (fun _ => .zero) (fun _ => 0) 0xffffffff80000000, []⟩
        [.malloc 100, .free (some 0xffffffff7fffff60)] st ∧
      ∃ l, HeapTight 0xffffffff80000000 st l := by
  have hsome : ([.malloc 100, .free (some 0xffffffff7fffff60)].foldlM (unexpandedStep 5)
      ⟨heapInit (fun _ => .zero) (fun _ => 0) 0xffffffff80000000, []⟩).isSome := by
    decide +kernel
  obtain ⟨st, hst⟩ := Option.isSome_iff_exists.mp hsome
  refine ⟨st, Run.of_foldlM (fun _ _ _ h => ⟨5, h⟩) hst, ?_⟩
  exact (heap_conserved ⟨by decide, by decide, by decide⟩
    (Run.of_foldlM (fun _ _ _ h => ⟨5, h⟩) hst)).1

/-- The first request that does not fit in the first page. -/
theorem expansion_miscounted :
    ∃ st, Run (fun st op st' => ∃ turns, heapStep (2 ^ 64 - 1) turns st op = some st')
        ⟨heapInit (fun _ => .zero) (fun _ => 0) 0xffffffff80000000, []⟩ [.malloc 5000] st ∧
      ¬ ∃ l, HeapTight 0xffffffff80000000 st l := by
  refine ⟨_, Run.of_foldlM (fun _ _ _ h => ⟨5, h⟩) rfl, ?_⟩
  rintro ⟨l, h⟩
  have hm := h.mapped
  revert hm
  decide

end Kot.Kernel.Heap
