import Kot.Lib.Run
import Kot.Kernel.Heap.Calls

/-! Runs of `malloc`, `calloc`, `realloc` and `free` after `heap_init`, with the blocks
that were handed out and not yet given back. -/
namespace Kot.Kernel.Heap
open Kot.Lib List

/-- The heap and the live blocks: address and requested size. -/
structure HeapRun where
  heap : HeapState
  live : List (ℕ × ℕ)

inductive HeapOp
  | malloc (size : ℕ)
  | calloc (number size : ℕ)
  | realloc (buffer : Option Ptr) (size : ℕ)
  | free (address : Option Ptr)

def HeapOp.request : HeapOp → Option ℕ
  | .malloc size => some size
  | .calloc number size => some (number * size)
  | .realloc _ size => some size
  | .free _ => none

def HeapOp.returned : HeapOp → Option Ptr
  | .realloc buffer _ => buffer
  | .free address => address
  | _ => none

/-- Requests are not empty and stay below `limit` when they are rounded up to 16 and get a
header; only live blocks are given back. -/
def Legal (limit : ℕ) (st : HeapRun) (op : HeapOp) : Prop :=
  (∀ n ∈ op.request, 1 ≤ n ∧ (n + 15) / 16 * 16 + headerSize ≤ limit) ∧
    ∀ p ∈ op.returned, p ∈ st.live.map Prod.fst

instance (limit : ℕ) (st : HeapRun) (op : HeapOp) : Decidable (Legal limit st op) :=
  inferInstanceAs (Decidable (_ ∧ _))

def dropBlock (live : List (ℕ × ℕ)) (p : Option Ptr) : List (ℕ × ℕ) :=
  live.filter fun b => some b.1 ≠ p

def newBlock (live : List (ℕ × ℕ)) (p : Option Ptr) (size : ℕ) : List (ℕ × ℕ) :=
  match p with
  | none => live
  | some p => (p, size) :: live

def perform (turns : ℕ) (st : HeapRun) : HeapOp → Except Fault HeapRun
  | .malloc size => do
    let (p, s) ← malloc turns st.heap size
    .ok ⟨s, newBlock st.live p size⟩
  | .calloc number size => do
    let (p, s) ← calloc turns st.heap number size
    .ok ⟨s, newBlock st.live p (number * size)⟩
  | .realloc buffer size => do
    let (p, s) ← realloc turns st.heap buffer size
    .ok ⟨s, newBlock (dropBlock st.live buffer) p size⟩
  | .free address => do
    let s ← free st.heap address
    .ok ⟨s, dropBlock st.live address⟩

/-- One legal call that returns. -/
def heapStep (limit turns : ℕ) (st : HeapRun) (op : HeapOp) : Option HeapRun :=
  if Legal limit st op then (perform turns st op).toOption else none

/-- Every live block is a used segment that is long enough, and every used segment is live. -/
structure Owned (live blocks : List (ℕ × ℕ)) : Prop where
  perm : (live.map Prod.fst).Perm (blocks.map Prod.fst)
  long : ∀ b ∈ live, ∃ length, (b.1, length) ∈ blocks ∧ b.2 ≤ length

variable {st st' : HeapRun} {s s' : HeapState} {top size length limit turns p n : ℕ}
  {l : List Ptr} {live blocks blocks' : List (ℕ × ℕ)} {op : HeapOp} {V : List Segment} {lo hi : ℕ}

theorem Stacked.usedBlocks_nodup (h : Stacked lo hi V) : ((usedBlocks V).map Prod.fst).Nodup := by
  rw [usedBlocks, map_map]
  refine List.Pairwise.map _ ?_ (h.below.filter _)
  intro a b hab
  simp only [Segment.stop, headerSize, Function.comp_apply] at hab ⊢
  omega

theorem Owned.add (h : Owned live blocks) (hp : blocks'.Perm ((p, length) :: blocks))
    (hn : n ≤ length) : Owned ((p, n) :: live) blocks' where
  perm := by
    refine List.Perm.trans ?_ (hp.map Prod.fst).symm
    exact h.perm.cons p
  long := by
    intro b hb
    rcases mem_cons.mp hb with rfl | hb
    · exact ⟨length, hp.mem_iff.mpr (by simp), hn⟩
    · obtain ⟨k, hk, hle⟩ := h.long b hb
      exact ⟨k, hp.mem_iff.mpr (by simp [hk]), hle⟩

theorem Owned.drop (h : Owned live blocks) (hp : blocks.Perm ((p, length) :: blocks'))
    (hd : (blocks.map Prod.fst).Nodup) : Owned (dropBlock live (some p)) blocks' := by
  have hd' := (hp.map Prod.fst).nodup_iff.mp hd
  rw [map_cons, nodup_cons] at hd'
  constructor
  · have hf : (dropBlock live (some p)).map Prod.fst =
        (live.map Prod.fst).filter (fun x => some x ≠ some p) := by
      rw [dropBlock, filter_map]
      rfl
    have hf' : ((p :: blocks'.map Prod.fst).filter fun x => some x ≠ some p) =
        blocks'.map Prod.fst := by
      rw [filter_cons_of_neg (by simp), filter_eq_self]
      intro x hx
      have hne : x ≠ p := fun he => hd'.1 (he ▸ hx)
      simpa using hne
    rw [hf, ← hf']
    exact (h.perm.trans (hp.map Prod.fst)).filter _
  · intro b hb
    obtain ⟨hb, hne⟩ := mem_filter.mp hb
    obtain ⟨k, hk, hle⟩ := h.long b hb
    rcases mem_cons.mp (hp.mem_iff.mp hk) with he | hk
    · simp [(Prod.mk.inj he).1] at hne
    · exact ⟨k, hk, hle⟩

theorem Owned.mem (h : Owned live blocks) (hp : p ∈ live.map Prod.fst) :
    ∃ length, (p, length) ∈ blocks := by
  obtain ⟨b, hb, rfl⟩ := mem_map.mp hp
  obtain ⟨k, hk, -⟩ := h.long b hb
  exact ⟨k, hk⟩

structure RunInv (top : ℕ) (st : HeapRun) (l : List Ptr) : Prop where
  inv : HeapInv top st.heap l
  lock : st.heap.lock = false
  owned : Owned st.live (usedBlocks (view st.heap l))

theorem RunInv.nodup (h : RunInv top st l) : (st.live.map Prod.fst).Nodup :=
  h.owned.perm.nodup_iff.mpr h.inv.stacked.usedBlocks_nodup

theorem roundup16_eq (h : (n + 15) / 16 * 16 + headerSize ≤ 2 ^ 64) :
    roundup16 n = (n + 15) / 16 * 16 := by
  unfold roundup16 wadd headerSize at *
  split_ifs <;> omega

theorem RunInv.fill {a k : ℕ} {f : ℕ → ℕ} (h : RunInv top ⟨s, live⟩ l) :
    RunInv top ⟨s.fill a k f, live⟩ l := by
  obtain ⟨hi, hv⟩ := h.inv.congr (s.fill a k f) rfl rfl rfl rfl
  exact ⟨hi, h.lock, hv ▸ h.owned⟩

theorem dropBlock_none : dropBlock live none = live := by simp [dropBlock]

private theorem dropBlock_cons {b : ℕ} (h : p ≠ b) :
    dropBlock ((p, n) :: live) (some b) = (p, n) :: dropBlock live (some b) := by
  simp [dropBlock, h]

/-- What a property of heaps with their live blocks must satisfy to survive every call. -/
structure Kept (Q : HeapRun → Prop) : Prop where
  nodup : ∀ {st}, Q st → (st.live.map Prod.fst).Nodup
  fill : ∀ {s live a k f}, Q ⟨s, live⟩ → Q ⟨s.fill a k f, live⟩
  free : ∀ {s live p s'}, Q ⟨s, live⟩ → p ∈ live.map Prod.fst → free s (some p) = .ok s' →
    Q ⟨s', dropBlock live (some p)⟩

private theorem Kept.moveBlock {Q : HeapRun → Prop} {buffer : Option Ptr} (hQ : Kept Q)
    (h : Q ⟨s, (p, n) :: live⟩) (hb : ∀ b ∈ buffer, b ∈ live.map Prod.fst)
    (hm : moveBlock s p buffer n = .ok s') : Q ⟨s', (p, n) :: dropBlock live buffer⟩ := by
  cases buffer with
  | none =>
    cases hm
    rw [dropBlock_none]
    exact h
  | some b =>
    have hlive := hb b rfl
    have hne : p ≠ b := by
      rintro rfl
      exact (nodup_cons.mp (hQ.nodup h)).1 hlive
    rw [← dropBlock_cons hne]
    exact hQ.free (hQ.fill h) (by simp [hlive]) hm

theorem Kept.perform {Q : HeapRun → Prop} (hQ : Kept Q) (hle : limit ≤ 2 ^ 64)
    (hmalloc : ∀ n ∈ op.request, ∀ r s', malloc turns st.heap n = .ok (r, s') →
      ∃ p, r = some p ∧ Q ⟨s', (p, n) :: st.live⟩)
    (h : Q st) (hl : Legal limit st op) (hp : perform turns st op = .ok st') : Q st' := by
  obtain ⟨hreq, hret⟩ := hl
  cases op with
  | malloc size =>
    obtain ⟨⟨r, s'⟩, hm, hp⟩ := bind_eq_ok hp
    obtain ⟨p, rfl, hinv⟩ := hmalloc size rfl r s' hm
    cases hp
    exact hinv
  | calloc number size =>
    obtain ⟨⟨r, s'⟩, hm, hp⟩ := bind_eq_ok hp
    obtain ⟨⟨r', s''⟩, hm, hc⟩ := bind_eq_ok hm
    have hword : number * size % 2 ^ 64 = number * size := by
      have := (hreq _ rfl).2
      unfold headerSize at this
      exact Nat.mod_eq_of_lt (by omega)
    rw [hword] at hm hc
    obtain ⟨p, rfl, hinv⟩ := hmalloc _ rfl r' s'' hm
    cases hc
    cases hp
    exact hQ.fill hinv
  | realloc buffer size =>
    obtain ⟨⟨r, s'⟩, hm, hp⟩ := bind_eq_ok hp
    obtain ⟨⟨r', s''⟩, hm, hc⟩ := bind_eq_ok hm
    obtain ⟨p, rfl, hinv⟩ := hmalloc size rfl r' s'' hm
    obtain ⟨s2, hmove, hc⟩ := bind_eq_ok hc
    cases hc
    cases hp
    exact hQ.moveBlock hinv hret hmove
  | free address =>
    obtain ⟨s', hf, hp⟩ := bind_eq_ok hp
    cases hp
    cases address with
    | none =>
      cases hf
      rw [dropBlock_none]
      exact h
    | some p => exact hQ.free h (hret p rfl) hf

theorem heapStep_perform (h : heapStep limit turns st op = some st') :
    Legal limit st op ∧ perform turns st op = .ok st' := by
  unfold heapStep at h
  split_ifs at h with hl
  cases hp : Heap.perform turns st op with
  | error e => simp [hp, Except.toOption] at h
  | ok st1 => exact ⟨hl, by simpa [hp, Except.toOption] using h⟩

theorem runInv_kept : Kept fun st => ∃ l, RunInv top st l where
  nodup := by
    rintro st ⟨l, h⟩
    exact h.nodup
  fill := by
    rintro s live a k f ⟨l, h⟩
    exact ⟨l, h.fill⟩
  free := by
    rintro s live p s' ⟨l, h⟩ hp hf
    obtain ⟨length, hmem⟩ := h.owned.mem hp
    obtain ⟨s'', l', he, hfreed⟩ := free_freed h.inv h.lock hmem
    obtain rfl := Except.ok.inj (he.symm.trans hf)
    exact ⟨l', hfreed.inv, hfreed.lock,
      h.owned.drop hfreed.blocks h.inv.stacked.usedBlocks_nodup⟩

/-- The start of the heap area: what `heap_init` gets as its upper end. -/
structure HeapTop (top : ℕ) : Prop where
  above : pageSize < top
  word : top < 2 ^ 64
  aligned : 16 ∣ top

theorem heapInit_run {memory : Ptr → Header} {data : ℕ → ℕ} (h : HeapTop top) :
    RunInv top ⟨heapInit memory data top, []⟩ [top - pageSize] ∧
      Tight (top - pageSize) (top - headerSize)
        (view (heapInit memory data top) [top - pageSize]) := by
  obtain ⟨habove, hword, halign⟩ := h
  have hend := wsub_of_le hword habove.le
  have hmain : wadd (top - pageSize) (pageSize - headerSize) = top - headerSize := by
    unfold wadd pageSize headerSize at *
    omega
  have hfirst : wadd (wsub (top - headerSize) pageSize) headerSize = top - pageSize := by
    unfold wadd wsub pageSize headerSize at *
    omega
  have hne : top - headerSize ≠ top - pageSize := by
    unfold pageSize headerSize at *
    omega
  have hhead : (heapInit memory data top).header (top - headerSize) =
      { isFree := false, length := 0, last := none, next := some (top - pageSize) } := by
    simp [heapInit, hend, hmain, hfirst, hne]
  have hnode : (heapInit memory data top).header (top - pageSize) =
      { isFree := true, length := pageSize - headerSize - headerSize,
        last := some (top - headerSize), next := none } := by
    simp [heapInit, hend, hmain, hfirst]
  have hview : view (heapInit memory data top) [top - pageSize] =
      [⟨top - pageSize, pageSize - headerSize - headerSize, true⟩] := by
    simp [view, segmentAt, hnode]
  refine ⟨⟨⟨⟨⟨?_, ?_, ?_, ?_⟩, ?_, ?_, ?_, ?_, hword⟩, ?_⟩, rfl, ?_, by simp⟩, ?_⟩
  · simpa using hne
  · simp [hhead, hnode]
  · simp [heapInit, hend, hmain]
  · simp [heapInit, hend, hmain, hfirst]
  · simp [segmentAt, hhead]
  · rw [hview]
    simp only [heapInit, hend]
    unfold pageSize headerSize at *
    apply stacked_singleton
    · exact le_rfl
    · simp only [Segment.stop, headerSize]
      omega
    · dsimp only
      omega
    · dsimp only
      omega
  · simp [heapInit, hend]
  · simp only [heapInit, hend]
    omega
  · rw [hview]
    exact isChain_singleton _
  · rw [hview]
    simp [usedBlocks]
  · rw [hview]
    unfold Tight pageSize headerSize at *
    simp only [reverse_singleton, Tiles]
    refine ⟨trivial, ?_, ?_⟩ <;> omega

theorem Stacked.disjoint {v w : Segment} (h : Stacked lo hi V) (hv : v ∈ V) (hw : w ∈ V)
    (hne : v.base ≠ w.base) : v.stop ≤ w.base ∨ w.stop ≤ v.base := by
  have : Std.Symm fun a b : Segment => a.stop ≤ b.base ∨ b.stop ≤ a.base :=
    ⟨fun _ _ hab => hab.symm⟩
  have hp : V.Pairwise fun a b => a.stop ≤ b.base ∨ b.stop ≤ a.base := h.below.imp .inr
  exact hp.forall hv hw fun he => hne (by rw [he])

/-- The length of the block at `p`, as its header has it. -/
def blockLength (s : HeapState) (p : ℕ) : ℕ := (s.header (p - headerSize)).length

/-- What the heap promises: the live blocks are disjoint, aligned, long enough, inside the
heap and clear of all headers, and the list through `next` is as the code expects it. -/
structure HeapSafe (top : ℕ) (st : HeapRun) (l : List ℕ) : Prop where
  disjoint : st.live.Pairwise fun b c =>
    b.1 + blockLength st.heap b.1 ≤ c.1 ∨ c.1 + blockLength st.heap c.1 ≤ b.1
  aligned : ∀ b ∈ st.live, 16 ∣ b.1
  long : ∀ b ∈ st.live, b.2 ≤ blockLength st.heap b.1
  inside : ∀ b ∈ st.live, st.heap.heapEnd ≤ b.1 ∧ b.1 + blockLength st.heap b.1 ≤ top
  clear : ∀ b ∈ st.live, ∀ a ∈ l, b.1 + blockLength st.heap b.1 ≤ a ∨ a + headerSize ≤ b.1
  main : st.heap.mainSegment = l.head?
  final : st.heap.lastSegment = l.getLast?
  linked : Linked (fun a => (st.heap.header a).next) (fun a => (st.heap.header a).last) none l none
  decreasing : l.Pairwise (· > ·)
  apart : l.IsChain fun a b =>
    ¬ ((st.heap.header a).isFree = true ∧ (st.heap.header b).isFree = true)

theorem RunInv.segment {b : ℕ × ℕ} (h : RunInv top st l) (hb : b ∈ st.live) :
    ∃ a ∈ l, b.1 = a + headerSize ∧ blockLength st.heap b.1 = (st.heap.header a).length ∧
      b.2 ≤ (st.heap.header a).length ∧ (st.heap.header a).isFree = false := by
  obtain ⟨k, hk, hle⟩ := h.owned.long b hb
  obtain ⟨v, hv, hused, hp, rfl⟩ := mem_usedBlocks.mp hk
  obtain ⟨a, ha, rfl⟩ := mem_map.mp hv
  have hp : b.1 = a + headerSize := hp
  refine ⟨a, ha, hp, ?_, hle, hused⟩
  rw [blockLength, hp, Nat.add_sub_cancel]

theorem RunInv.safe (h : RunInv top st l) : HeapSafe top st ((top - headerSize) :: l) := by
  have hst := h.inv.stacked
  have hmem : ∀ a ∈ l, segmentAt st.heap a ∈ view st.heap l := fun a ha =>
    mem_map.mpr ⟨a, ha, rfl⟩
  have hmain : (st.heap.header (top - headerSize)).isFree = false :=
    congrArg Segment.isFree h.inv.main
  constructor
  · refine (pairwise_map.mp h.nodup).imp_of_mem ?_
    intro b c hb hc hne
    obtain ⟨a, ha, hba, hbl, -⟩ := h.segment hb
    obtain ⟨a', ha', hca, hcl, -⟩ := h.segment hc
    have := hst.disjoint (hmem a ha) (hmem a' ha') (by simp only [segmentAt]; omega)
    simp only [Segment.stop, segmentAt] at this
    omega
  · intro b hb
    obtain ⟨a, ha, hba, -⟩ := h.segment hb
    obtain ⟨-, -, -, h16, -⟩ := h.inv.bounds ha
    unfold headerSize at hba
    omega
  · intro b hb
    obtain ⟨a, ha, -, hbl, hle, -⟩ := h.segment hb
    omega
  · intro b hb
    obtain ⟨a, ha, hba, hbl, -⟩ := h.segment hb
    obtain ⟨h1, h2, -⟩ := h.inv.bounds ha
    omega
  · intro b hb x hx
    obtain ⟨a, ha, hba, hbl, -⟩ := h.segment hb
    obtain ⟨-, h2, -⟩ := h.inv.bounds ha
    rcases mem_cons.mp hx with rfl | hx
    · omega
    · by_cases hax : a = x
      · subst hax
        omega
      · have := hst.disjoint (hmem a ha) (hmem x hx) hax
        simp only [Segment.stop, segmentAt] at this
        omega
  · exact h.inv.chained.main
  · exact h.inv.chained.final
  · exact h.inv.chained.linked
  · refine pairwise_cons.mpr ⟨fun a ha => ?_, ?_⟩
    · obtain ⟨-, h2, -⟩ := h.inv.bounds ha
      unfold headerSize at *
      omega
    · refine (pairwise_map.mp hst.below).imp ?_
      intro a b hab
      simp only [Segment.stop, segmentAt, headerSize] at hab
      omega
  · refine isChain_cons.mpr ⟨fun a _ => by simp [hmain], ?_⟩
    exact isChain_map _ |>.mp h.inv.apart

end Kot.Kernel.Heap
