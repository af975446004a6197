import Mathlib.Data.Finset.Card
import Mathlib.Order.Interval.Finset.Nat
import Kot.Kernel.Pmm.InitPages
import Kot.Kernel.Pmm.PageRuns

/-! The page counters against the bitmap. Allocations and frees move pages between the
counters; reserving and unreserving count every page twice. -/
namespace Kot.Kernel.Pmm
open Kot.Lib Finset
open scoped List

/-- The number of clear bits below `total_pages`. -/
def clearCount (s : PmmState) : ℕ :=
  ((Finset.range s.totalPages).filter fun x => s.pmmBitmap.Clear x).card

/-- The counters agree with the bitmap and add up; so none of them has wrapped. -/
structure Consistent (s : PmmState) : Prop where
  available : s.availablePages = clearCount s
  sum : s.availablePages + s.usedPages + s.reservedPages = s.totalPages

/-- The allocator, the pages in the hands of its callers and the reserved pages. -/
structure CounterRun extends PmmRun where
  reserved : List ℕ

inductive CounterOp
  | page (op : PmmOp)
  | reservePage (address : ℕ)
  | reservePages (address pageCount : ℕ)
  | unreservePage (address : ℕ)
  | unreservePages (address pageCount : ℕ)

/-- The first page and the number of pages that a call reserves. -/
def CounterOp.reserves : CounterOp → Option (ℕ × ℕ)
  | .reservePage address => some (pmmAddressToIndex address, 1)
  | .reservePages address n => some (pmmAddressToIndex address, n)
  | _ => none

def CounterOp.unreserves : CounterOp → Option (ℕ × ℕ)
  | .unreservePage address => some (pmmAddressToIndex address, 1)
  | .unreservePages address n => some (pmmAddressToIndex address, n)
  | _ => none

/-- Held pages are freed, free pages are reserved and reserved pages are unreserved; the
number of requested pages is a 64-bit number. -/
def CounterLegal (st : CounterRun) (op : CounterOp) : Prop :=
  (match op with
    | .page (.allocatePages n) => n < 2 ^ 64
    | .page op => Legal st.toPmmRun op
    | _ => True) ∧
  (∀ f ∈ op.reserves, ∀ x ∈ List.range' f.1 f.2, st.pmm.pmmBitmap.Clear x) ∧
  ∀ f ∈ op.unreserves, ∀ x ∈ List.range' f.1 f.2, x ∈ st.reserved

instance (st : CounterRun) (op : CounterOp) : Decidable (CounterLegal st op) :=
  match op with
  | .page (.allocatePages n) => inferInstanceAs (Decidable (n < 2 ^ 64 ∧ _ ∧ _))
  | .page .allocatePage => inferInstanceAs (Decidable (Legal _ _ ∧ _ ∧ _))
  | .page (.freePage _) => inferInstanceAs (Decidable (Legal _ _ ∧ _ ∧ _))
  | .page (.freePages _ _) => inferInstanceAs (Decidable (Legal _ _ ∧ _ ∧ _))
  | .page (.write _ _) => inferInstanceAs (Decidable (Legal _ _ ∧ _ ∧ _))
  | .reservePage _ => inferInstanceAs (Decidable (True ∧ _ ∧ _))
  | .reservePages _ _ => inferInstanceAs (Decidable (True ∧ _ ∧ _))
  | .unreservePage _ => inferInstanceAs (Decidable (True ∧ _ ∧ _))
  | .unreservePages _ _ => inferInstanceAs (Decidable (True ∧ _ ∧ _))

def counterPerform (turns : ℕ) (st : CounterRun) : CounterOp → Except Fault CounterRun
  | .page op => do
    let st' ← perform turns st.toPmmRun op
    .ok ⟨st', st.reserved⟩
  | .reservePage address => do
    let s ← pmmReservePage st.pmm address
    .ok ⟨⟨s, st.held⟩, handOut st.reserved address 1⟩
  | .reservePages address n => do
    let s ← pmmReservePages st.pmm address n
    .ok ⟨⟨s, st.held⟩, handOut st.reserved address n⟩
  | .unreservePage address => do
    let s ← pmmUnreservePage st.pmm address
    .ok ⟨⟨s, st.held⟩, giveBack st.reserved address 1⟩
  | .unreservePages address n => do
    let s ← pmmUnreservePages st.pmm address n
    .ok ⟨⟨s, st.held⟩, giveBack st.reserved address n⟩

/-- The pages that `pmm_allocate_pages` is about to take are clear in the bitmap. -/
def takesClear (turns : ℕ) (s : PmmState) : PmmOp → Bool
  | .allocatePages n =>
    match findRun s n turns s.pmmLastFreeEntry with
    | .ok node => (List.range' node.indexStart n).all fun x => s.pmmBitmap.Clear x
    | .error _ => true
  | _ => true

/-- The calls that count every page once: no page is reserved or unreserved, and only clear
pages are taken. -/
def countsOnce (turns : ℕ) (s : PmmState) : CounterOp → Bool
  | .page op => takesClear turns s op
  | .reservePage _ => false
  | .reservePages _ n => n = 0
  | .unreservePage _ => false
  | .unreservePages _ n => n = 0

variable {st st' : CounterRun} {s s' t : PmmState} {b : Bitmap} {i j n hint turns address x : ℕ}
  {op : CounterOp} {held : List ℕ}

private theorem card_split {P P' : ℕ → Prop} [DecidablePred P] [DecidablePred P'] {N : ℕ}
    (h : ∀ x, P' x ↔ P x ∧ ¬ (i ≤ x ∧ x < i + n)) :
    ((Finset.range N).filter P).card = ((Finset.range N).filter P').card +
      ((Finset.Ico i (i + n)).filter fun x => x < N ∧ P x).card := by
  rw [← card_filter_add_card_filter_not (fun x => ¬ (i ≤ x ∧ x < i + n))
   ]
  congr 2
  · ext x
    simp only [mem_filter, mem_range, h]
    tauto
  · ext x
    simp only [mem_filter, mem_range, mem_Ico]
    tauto

/-- The `n` pages from `i` on move from the available to the used pages. -/
structure PagesTaken (s s' : PmmState) (i n : ℕ) : Prop where
  bits : BitsSet s.pmmBitmap s'.pmmBitmap i n true
  available : s'.availablePages = wsub s.availablePages n
  used : s'.usedPages = wadd s.usedPages n
  total : s'.totalPages = s.totalPages

/-- The `n` pages from `i` on move from the used to the available pages. -/
structure PagesFreed (s s' : PmmState) (i n : ℕ) : Prop where
  bits : BitsSet s.pmmBitmap s'.pmmBitmap i n false
  bound : 0 < n → i + n ≤ 8 * s.pmmBitmap.size
  available : s'.availablePages = wadd s.availablePages n
  used : s'.usedPages = wsub s.usedPages n
  total : s'.totalPages = s.totalPages

-- The sums are generalized: comparing the other fields must not evaluate them.
theorem pagesTaken_takenState (h : BitsSet s.pmmBitmap b i n true) :
    PagesTaken s (takenState s t b hint n) i n ∧
      (takenState s t b hint n).reservedPages = s.reservedPages := by
  unfold takenState
  generalize ha : wsub s.availablePages n = a
  generalize hu : wadd s.usedPages n = u
  exact ⟨⟨h, ha.symm, hu.symm, rfl⟩, rfl⟩

theorem pagesFreed_freedState (h : BitsSet s.pmmBitmap b i n false)
    (hb : 0 < n → i + n ≤ 8 * s.pmmBitmap.size) :
    PagesFreed s (freedState s t b i n) i n ∧
      (freedState s t b i n).reservedPages = s.reservedPages := by
  unfold freedState
  generalize ha : wadd s.availablePages n = a
  generalize hu : wsub s.usedPages n = u
  exact ⟨⟨h, hb, ha.symm, hu.symm, rfl⟩, rfl⟩

/-- The clear pages among the `n` pages from `i` on. -/
def clearIn (s : PmmState) (i n : ℕ) : ℕ :=
  ((Finset.Ico i (i + n)).filter fun x => x < s.totalPages ∧ s.pmmBitmap.Clear x).card

theorem clearIn_le (s : PmmState) (i n : ℕ) : clearIn s i n ≤ n := by
  refine (Finset.card_filter_le _ _).trans ?_
  rw [Nat.card_Ico, Nat.add_sub_cancel_left]

theorem clearIn_eq_iff (hlow : ∀ x, s.pmmBitmap.Clear x → x < s.totalPages) :
    clearIn s i n = n ↔ ∀ x, i ≤ x → x < i + n → s.pmmBitmap.Clear x := by
  have hcard : (Finset.Ico i (i + n)).card = n := by rw [Nat.card_Ico, Nat.add_sub_cancel_left]
  constructor
  · intro h x hx hxn
    have hall := Finset.filter_eq_self.mp (Finset.eq_of_subset_of_card_le
      (Finset.filter_subset (fun x => x < s.totalPages ∧ s.pmmBitmap.Clear x)
        (Finset.Ico i (i + n))) (hcard.trans h.symm).le)
    exact (hall x (Finset.mem_Ico.mpr ⟨hx, hxn⟩)).2
  · intro hall
    unfold clearIn
    rw [filter_true_of_mem, hcard]
    intro x hx
    rw [mem_Ico] at hx
    exact ⟨hlow x (hall x hx.1 hx.2), hall x hx.1 hx.2⟩

theorem PagesTaken.clearCount (h : PagesTaken s s' i n) :
    clearCount s = clearCount s' + clearIn s i n := by
  unfold Pmm.clearCount clearIn
  rw [h.total]
  exact card_split fun x => h.bits.clear_true

theorem PagesFreed.clearCount (h : PagesFreed s s' i n)
    (hn : ∀ x, i ≤ x → x < i + n → ¬ s.pmmBitmap.Clear x ∧ x < s.totalPages) :
    clearCount s' = clearCount s + n := by
  have hsplit : ∀ x, s.pmmBitmap.Clear x ↔ s'.pmmBitmap.Clear x ∧ ¬ (i ≤ x ∧ x < i + n) := by
    intro x
    rw [h.bits.clear_false h.bound]
    constructor
    · exact fun hc => ⟨.inl hc, fun hx => (hn x hx.1 hx.2).1 hc⟩
    · rintro ⟨hc | hx, hnot⟩
      · exact hc
      · exact absurd hx hnot
  unfold Pmm.clearCount
  rw [h.total, card_split hsplit]
  congr 1
  rw [filter_true_of_mem, Nat.card_Ico, Nat.add_sub_cancel_left]
  intro x hx
  rw [mem_Ico] at hx
  exact ⟨(hn x hx.1 hx.2).2, (h.bits.clear_false h.bound).mpr (.inr hx)⟩

theorem Consistent.taken_values (h : Consistent s) (ht : PagesTaken s s' i n)
    (htotal : s.totalPages < 2 ^ 60) (hfull : clearIn s i n = n) :
    n ≤ s.availablePages ∧ s'.availablePages = s.availablePages - n ∧
      s'.usedPages = s.usedPages + n := by
  have hav := h.available
  have hsum := h.sum
  have hcount := ht.clearCount
  have hle : n ≤ s.availablePages := by omega
  refine ⟨hle, ?_, ?_⟩
  · rw [ht.available, wsub_of_le (by omega) hle]
  · rw [ht.used, wadd_of_lt (by omega)]

theorem Consistent.taken_iff (h : Consistent s) (ht : PagesTaken s s' i n)
    (hr : s'.reservedPages = s.reservedPages) (htotal : s.totalPages < 2 ^ 60) (hn : n < 2 ^ 64)
    (hlow : ∀ x, s.pmmBitmap.Clear x → x < s.totalPages) :
    Consistent s' ↔ ∀ x, i ≤ x → x < i + n → s.pmmBitmap.Clear x := by
  rw [← clearIn_eq_iff hlow]
  have hav := h.available
  have hsum := h.sum
  have hcount := ht.clearCount
  constructor
  · intro hc
    have hle := clearIn_le s i n
    have hav' := hc.available
    rw [ht.available] at hav'
    unfold wsub at hav'
    omega
  · intro hfull
    obtain ⟨hle, hav', hused⟩ := h.taken_values ht htotal hfull
    have htot := ht.total
    exact ⟨by omega, by omega⟩

/-- Consistent counters on a machine of at most `2 ^ 60` pages; the held and the reserved
pages are in use, and the held ones count as used. -/
structure Accounted (st : CounterRun) : Prop where
  consistent : Consistent st.pmm
  word : 8 * st.pmm.pmmBitmap.size < 2 ^ 64
  total : st.pmm.totalPages < 2 ^ 60
  low : ∀ x, st.pmm.pmmBitmap.Clear x → x < st.pmm.totalPages
  held : ∀ x ∈ st.held, ¬ st.pmm.pmmBitmap.Clear x ∧ x < st.pmm.totalPages
  nodup : st.held.Nodup
  used : st.held.length ≤ st.pmm.usedPages
  reserved : ∀ x ∈ st.reserved, ¬ st.pmm.pmmBitmap.Clear x ∧ x < st.pmm.totalPages
  apart : ∀ x ∈ st.held, x ∉ st.reserved

theorem Accounted.take (h : Accounted st) (ht : PagesTaken st.pmm s' i n)
    (hr : s'.reservedPages = st.pmm.reservedPages) (hn : n < 2 ^ 64)
    (hall : ∀ x, i ≤ x → x < i + n → st.pmm.pmmBitmap.Clear x) :
    Accounted ⟨⟨s', List.range' i n ++ st.held⟩, st.reserved⟩ := by
  have hc := (h.consistent.taken_iff ht hr h.total hn h.low).mpr hall
  obtain ⟨-, -, hused⟩ := h.consistent.taken_values ht h.total ((clearIn_eq_iff h.low).mpr hall)
  have hclear : ∀ x, s'.pmmBitmap.Clear x ↔ st.pmm.pmmBitmap.Clear x ∧ ¬ (i ≤ x ∧ x < i + n) :=
    fun x => ht.bits.clear_true
  refine ⟨hc, ht.bits.place.2 ▸ h.word, ht.total ▸ h.total, ?_, ?_, ?_, ?_, ?_, ?_⟩
  · intro x hx
    rw [ht.total]
    exact h.low x ((hclear x).mp hx).1
  · intro x hx
    rw [ht.total]
    rcases List.mem_append.mp hx with hx | hx
    · rw [List.mem_range'_1] at hx
      exact ⟨fun hcx => ((hclear x).mp hcx).2 hx, h.low x (hall x hx.1 hx.2)⟩
    · exact ⟨fun hcx => (h.held x hx).1 ((hclear x).mp hcx).1, (h.held x hx).2⟩
  · refine List.nodup_append.mpr ⟨List.nodup_range', h.nodup, fun x hx y hy hxy => ?_⟩
    rw [List.mem_range'_1] at hx
    exact (h.held y hy).1 (hxy ▸ hall x hx.1 hx.2)
  · have := h.used
    rw [List.length_append, List.length_range', hused]
    omega
  · intro x hx
    rw [ht.total]
    exact ⟨fun hcx => (h.reserved x hx).1 ((hclear x).mp hcx).1, (h.reserved x hx).2⟩
  · intro x hx hres
    rcases List.mem_append.mp hx with hx | hx
    · rw [List.mem_range'_1] at hx
      exact (h.reserved x hres).1 (hall x hx.1 hx.2)
    · exact h.apart x hx hres

theorem Accounted.free (h : Accounted st) (hf : PagesFreed st.pmm s' i n)
    (hr : s'.reservedPages = st.pmm.reservedPages)
    (hheld : ∀ x, i ≤ x → x < i + n → x ∈ st.held) :
    Accounted ⟨⟨s', st.held.filter fun x => x ∉ List.range' i n⟩, st.reserved⟩ := by
  have hcount := hf.clearCount fun x hx hxn => h.held x (hheld x hx hxn)
  have hclear : ∀ x, s'.pmmBitmap.Clear x ↔ st.pmm.pmmBitmap.Clear x ∨ i ≤ x ∧ x < i + n :=
    fun x => hf.bits.clear_false hf.bound
  have hsplit : st.held.length = n + (st.held.filter fun x => x ∉ List.range' i n).length := by
    have hperm : st.held.filter (fun x => x ∈ List.range' i n) ~ List.range' i n := by
      refine (List.perm_ext_iff_of_nodup (h.nodup.filter _) List.nodup_range').mpr fun x => ?_
      simp only [List.mem_filter, List.mem_range'_1, decide_eq_true_eq, and_iff_right_iff_imp]
      exact fun hx => hheld x hx.1 hx.2
    rw [List.length_eq_length_filter_add (fun x => x ∈ List.range' i n), hperm.length_eq,
      List.length_range']
    simp only [decide_not]
  have hav := h.consistent.available
  have hsum := h.consistent.sum
  have hused := h.used
  have htot := h.total
  have hused' : s'.usedPages = st.pmm.usedPages - n := by
    rw [hf.used, wsub_of_le (by omega) (by omega)]
  have hav' : s'.availablePages = st.pmm.availablePages + n := by
    rw [hf.available, wadd_of_lt (by omega)]
  have htot' := hf.total
  have hc : Consistent s' := ⟨by omega, by omega⟩
  refine ⟨hc, hf.bits.place.2 ▸ h.word, hf.total ▸ h.total, ?_, ?_, ?_, ?_, ?_, ?_⟩
  · intro x hx
    rw [hf.total]
    rcases (hclear x).mp hx with hx | hx
    · exact h.low x hx
    · exact (h.held x (hheld x hx.1 hx.2)).2
  · intro x hx
    simp only [List.mem_filter, List.mem_range'_1, decide_eq_true_eq] at hx
    rw [hf.total]
    exact ⟨fun hcx => ((hclear x).mp hcx).elim (h.held x hx.1).1 hx.2, (h.held x hx.1).2⟩
  · exact h.nodup.filter _
  · change (st.held.filter fun x => x ∉ List.range' i n).length ≤ s'.usedPages
    omega
  · intro x hx
    rw [hf.total]
    refine ⟨fun hcx => ((hclear x).mp hcx).elim (h.reserved x hx).1 fun hx' => ?_,
      (h.reserved x hx).2⟩
    exact h.apart x (hheld x hx'.1 hx'.2) hx
  · exact fun x hx => h.apart x (List.mem_filter.mp hx).1

theorem Accounted.write (h : Accounted st) {page : ℕ} {record : FreeListInfo} :
    Accounted ⟨⟨st.pmm.modify page fun _ => record, st.held⟩, st.reserved⟩ :=
  ⟨⟨h.consistent.available, h.consistent.sum⟩, h.word, h.total, h.low, h.held, h.nodup, h.used,
    h.reserved, h.apart⟩

theorem pmmReservePagesIndex_ok (h : pmmReservePagesIndex s i n = .ok s')
    (hw : 8 * s.pmmBitmap.size < 2 ^ 64) :
    PagesTaken s s' i n ∧ s'.reservedPages = wadd s.reservedPages n := by
  unfold pmmReservePagesIndex at h
  generalize wadd s.reservedPages n = r at h ⊢
  obtain ⟨b, hset, -, rfl⟩ := pmmLockPagesIndex_ok h hw
  generalize ha : wsub s.availablePages n = a
  generalize hu : wadd s.usedPages n = u
  exact ⟨⟨hset, ha.symm, hu.symm, rfl⟩, rfl⟩

theorem pmmUnreservePagesIndex_ok (h : pmmUnreservePagesIndex s i n = .ok s')
    (hw : 8 * s.pmmBitmap.size < 2 ^ 64) :
    PagesFreed s s' i n ∧ s'.reservedPages = wsub s.reservedPages n := by
  unfold pmmUnreservePagesIndex at h
  generalize wsub s.reservedPages n = r at h ⊢
  obtain ⟨-, t, b, hset, hbound, rfl⟩ := pmmFreePagesIndex_ok h hw
  obtain ⟨hf, hr⟩ := pagesFreed_freedState hset hbound
  exact ⟨⟨hf.bits, hf.bound, hf.available, hf.used, hf.total⟩, hr⟩

section
variable (h : Accounted st)
include h

theorem Accounted.allocatePage (hs : pmmAllocatePage st.pmm = .ok (address, s')) :
    Accounted ⟨⟨s', handOut st.held address 1⟩, st.reserved⟩ := by
  obtain ⟨j, t, b, hclear, hset, rfl, rfl⟩ := pmmAllocatePage_ok hs
  obtain ⟨ht, hr⟩ := pagesTaken_takenState hset
  rw [handOut, pmmAddressToIndex, Nat.mul_div_cancel _ (by decide)]
  refine h.take ht hr (by decide) fun x hx hx' => ?_
  obtain rfl : x = j := by omega
  exact hclear

theorem Accounted.allocatePages (hn : n < 2 ^ 64)
    (hs : pmmAllocatePages turns st.pmm n = .ok (address, s')) :
    (Consistent s' ↔ takesClear turns st.pmm (.allocatePages n)) ∧
      (takesClear turns st.pmm (.allocatePages n) →
        Accounted ⟨⟨s', handOut st.held address n⟩, st.reserved⟩) := by
  obtain ⟨node, t, b, hfind, hset, -, rfl, rfl⟩ := pmmAllocatePages_ok hs h.word
  obtain ⟨ht, hr⟩ := pagesTaken_takenState hset
  have htakes : takesClear turns st.pmm (.allocatePages n) ↔
      ∀ x, node.indexStart ≤ x → x < node.indexStart + n → st.pmm.pmmBitmap.Clear x := by
    simp [takesClear, hfind, List.mem_range'_1]
  rw [htakes, handOut, pmmAddressToIndex, Nat.mul_div_cancel _ (by decide)]
  exact ⟨h.consistent.taken_iff ht hr h.total hn h.low, h.take ht hr hn⟩

theorem Accounted.freePages (hheld : ∀ x ∈ List.range' (pmmAddressToIndex address) n, x ∈ st.held)
    (hs : pmmFreePages st.pmm address n = .ok s') :
    Accounted ⟨⟨s', giveBack st.held address n⟩, st.reserved⟩ := by
  obtain ⟨-, t, b, hset, hbound, rfl⟩ := pmmFreePagesIndex_ok hs h.word
  obtain ⟨hf, hr⟩ := pagesFreed_freedState hset hbound
  exact h.free hf hr fun x hx hx' => hheld x (List.mem_range'_1.mpr ⟨hx, hx'⟩)

theorem Accounted.reservePages
    (hclear : ∀ x ∈ List.range' (pmmAddressToIndex address) n, st.pmm.pmmBitmap.Clear x)
    (hs : pmmReservePages st.pmm address n = .ok s') :
    (Consistent s' ↔ n = 0) ∧
      (n = 0 → Accounted ⟨⟨s', st.held⟩, handOut st.reserved address n⟩) := by
  obtain ⟨ht, hr⟩ := pmmReservePagesIndex_ok hs h.word
  have hzero : n = 0 → Accounted ⟨⟨s', st.held⟩, handOut st.reserved address n⟩ := by
    rintro rfl
    have hres : s'.reservedPages = st.pmm.reservedPages := by
      have := h.consistent.sum
      have := h.total
      rw [hr, wadd_of_lt (by omega), Nat.add_zero]
    simpa [handOut] using h.take ht hres (by decide) (by omega)
  refine ⟨⟨fun hc => ?_, fun hn => (hzero hn).consistent⟩, hzero⟩
  have hall := (clearIn_eq_iff h.low).mpr fun x hx hx' => hclear x (List.mem_range'_1.mpr ⟨hx, hx'⟩)
  obtain ⟨hle, hav, hused⟩ := h.consistent.taken_values ht h.total hall
  have hsum := h.consistent.sum
  have htot := h.total
  have hsum' := hc.sum
  rw [wadd_of_lt (by omega)] at hr
  rw [hav, hused, hr, ht.total] at hsum'
  omega

theorem Accounted.unreservePages
    (hres : ∀ x ∈ List.range' (pmmAddressToIndex address) n, x ∈ st.reserved)
    (hs : pmmUnreservePages st.pmm address n = .ok s') :
    (Consistent s' ↔ n = 0) ∧
      (n = 0 → Accounted ⟨⟨s', st.held⟩, giveBack st.reserved address n⟩) := by
  obtain ⟨hf, hr⟩ := pmmUnreservePagesIndex_ok hs h.word
  have hzero : n = 0 → Accounted ⟨⟨s', st.held⟩, giveBack st.reserved address n⟩ := by
    rintro rfl
    have hres : s'.reservedPages = st.pmm.reservedPages := by
      have := h.consistent.sum
      have := h.total
      rw [hr, wsub_of_le (by omega) (by omega), Nat.sub_zero]
    simpa [giveBack] using h.free hf hres (by omega)
  refine ⟨⟨fun hc => ?_, fun hn => (hzero hn).consistent⟩, hzero⟩
  by_contra hn
  have hlast := (h.reserved _ (hres (pmmAddressToIndex address + n - 1)
    (List.mem_range'_1.mpr ⟨by omega, by omega⟩))).2
  have hsum := h.consistent.sum
  have htot := h.total
  have hsum' := hc.sum
  rw [hf.available, hf.used, hr, hf.total] at hsum'
  unfold wsub wadd at hsum'
  omega

theorem Accounted.step (hl : CounterLegal st op) (hs : counterPerform turns st op = .ok st') :
    (Consistent st'.pmm ↔ countsOnce turns st.pmm op) ∧
      (countsOnce turns st.pmm op → Accounted st') := by
  obtain ⟨hl, hclear, hres⟩ := hl
  cases op with
  | page op =>
    obtain ⟨r, hp, hs⟩ := bind_eq_ok hs
    cases hs
    cases op with
    | allocatePage =>
      obtain ⟨⟨address, s'⟩, hal, hp⟩ := bind_eq_ok hp
      cases hp
      have := h.allocatePage hal
      exact ⟨iff_of_true this.consistent rfl, fun _ => this⟩
    | allocatePages n =>
      obtain ⟨⟨address, s'⟩, hal, hp⟩ := bind_eq_ok hp
      cases hp
      exact h.allocatePages hl hal
    | freePage address | freePages address n =>
      obtain ⟨s', hf, hp⟩ := bind_eq_ok hp
      cases hp
      have := h.freePages (hl.1 _ rfl) hf
      exact ⟨iff_of_true this.consistent rfl, fun _ => this⟩
    | write page record =>
      cases hp
      exact ⟨iff_of_true h.write.consistent rfl, fun _ => h.write⟩
  | reservePage address | reservePages address n =>
    obtain ⟨s', hr, hs⟩ := bind_eq_ok hs
    cases hs
    simpa [countsOnce] using h.reservePages (hclear _ rfl) hr
  | unreservePage address | unreservePages address n =>
    obtain ⟨s', hr, hs⟩ := bind_eq_ok hs
    cases hs
    simpa [countsOnce] using h.unreservePages (hres _ rfl) hr

end

/-- The calls of `pmm_init`: what one entry adds to the available pages it takes from the used
ones, below zero. -/
structure Mirrored (s : PmmState) (size total : ℕ) : Prop where
  size : s.pmmBitmap.size = size
  total : s.totalPages = total
  available : s.availablePages < 2 ^ 64
  used : s.usedPages < 2 ^ 64
  sum : (s.availablePages + s.usedPages) % 2 ^ 64 = 0

variable {size total : ℕ} {l : List (MemmapEntry × ℕ)} {info : ℕ → FreeListInfo}
  {entries : List MemmapEntry}

theorem Mirrored.freed (h : Mirrored s size total) (hw : 8 * size < 2 ^ 64)
    (hf : PagesFreed s s' i n) : Mirrored s' size total := by
  have hsum := h.sum
  have hbound := hf.bound
  rw [h.size] at hbound
  have ha := hf.available
  have hu := hf.used
  unfold wadd at ha
  unfold wsub at hu
  exact ⟨hf.bits.place.2.trans h.size, hf.total.trans h.total, by omega, by omega, by omega⟩

theorem initEntries_mirrored {size host bytes total : ℕ}
    (hw : 8 * bytes < 2 ^ 64) (hs : Mirrored s bytes total)
    (h : l.foldlM (initEntry size host) s = .ok s') : Mirrored s' bytes total := by
  induction l generalizing s with
  | nil =>
    cases h
    exact hs
  | cons p l ih =>
    rw [List.foldlM_cons] at h
    obtain ⟨s1, h1, h⟩ := bind_eq_ok h
    refine ih ?_ h
    unfold initEntry at h1
    split at h1
    · cases h1
      exact hs
    · exact hs.freed hw (pmmUnreservePagesIndex_ok h1 (hs.size ▸ hw)).1

theorem pmmInit_mirrored (h : pmmInit info entries = .ok s) :
    Mirrored s (bitmapSize entries) (totalPageCount entries) := by
  unfold pmmInit at h
  split at h
  · cases h
  · have hlt := totalPageCount_lt entries
    refine initEntries_mirrored (by unfold bitmapSize; omega) ?_ h
    exact ⟨rfl, rfl, by simp [allReserved], by simp [allReserved], by simp [allReserved]⟩

theorem pmmInit_not_consistent (h : pmmInit info entries = .ok s) (hx : s.pmmBitmap.Clear x) (hlt : x < s.totalPages) :
    ¬ Consistent s := by
  intro hc
  have hm := pmmInit_mirrored h
  have hpos : 0 < clearCount s := Finset.card_pos.mpr ⟨x, by simp [hx, hlt]⟩
  have hav := hc.available
  have hsum := hc.sum
  have hmod := hm.sum
  have htot := totalPageCount_lt entries
  rw [← hm.total] at htot
  omega

/-- No entry of the map leads to a call that frees a page. -/
def FreesNothing (entries : List MemmapEntry) : Prop :=
  ∀ q ∈ pmmFindFreeEntry entries (bitmapSize entries), ∀ p ∈ entries.zipIdx,
    ∀ c ∈ unreserveCall (bitmapSize entries) (p.2 = q.2) p.1, c.2 = 0

theorem allReserved_accounted {base : ℕ}
    (ht : total < 2 ^ 60) : Accounted ⟨⟨allReserved info base total, []⟩, List.range total⟩ := by
  have hnot := allReserved_not_clear info base total
  refine ⟨⟨?_, ?_⟩, (allReserved_tracked info base ht).word, ht, fun x hx => absurd hx (hnot x),
    by simp, .nil, by simp, fun x hx => ⟨hnot x, List.mem_range.mp hx⟩, by simp⟩
  · unfold clearCount
    rw [filter_false_of_mem fun x _ => hnot x]
    rfl
  · simp [allReserved]

theorem initEntries_accounted {size host : ℕ} {reserved : List ℕ}
    (hs : Accounted ⟨⟨s, []⟩, reserved⟩)
    (hzero : ∀ p ∈ l, ∀ c ∈ unreserveCall size (p.2 = host) p.1, c.2 = 0)
    (h : l.foldlM (initEntry size host) s = .ok s') : Accounted ⟨⟨s', []⟩, reserved⟩ := by
  induction l generalizing s with
  | nil =>
    cases h
    exact hs
  | cons p l ih =>
    rw [List.foldlM_cons] at h
    obtain ⟨s1, h1, h⟩ := bind_eq_ok h
    refine ih ?_ (fun p hp => hzero p (by simp [hp])) h
    have hp := hzero p (by simp)
    unfold initEntry at h1
    cases hc : unreserveCall size (p.2 = host) p.1 with
    | none =>
      rw [hc] at h1
      cases h1
      exact hs
    | some c =>
      obtain ⟨address, n⟩ := c
      obtain rfl : n = 0 := hp _ hc
      rw [hc] at h1
      simpa [giveBack] using (hs.unreservePages (by simp) h1).2 rfl

theorem pmmInit_accounted (h : pmmInit info entries = .ok s) (hzero : FreesNothing entries) :
    Accounted ⟨⟨s, []⟩, List.range s.totalPages⟩ := by
  rw [(pmmInit_mirrored h).total]
  unfold pmmInit at h
  cases hf : pmmFindFreeEntry entries (bitmapSize entries) with
  | none =>
    rw [hf] at h
    cases h
  | some q =>
    rw [hf] at h
    exact initEntries_accounted (allReserved_accounted (totalPageCount_lt entries))
      (hzero q hf) h

/-- A legal call that returns and counts every page once. -/
def OnceSteps (st : CounterRun) (op : CounterOp) (st' : CounterRun) : Prop :=
  ∃ turns, CounterLegal st op ∧ countsOnce turns st.pmm op ∧ counterPerform turns st op = .ok st'

/-- The executable form of `OnceSteps`. -/
def onceStep (turns : ℕ) (st : CounterRun) (op : CounterOp) : Option CounterRun :=
  if CounterLegal st op ∧ countsOnce turns st.pmm op then (counterPerform turns st op).toOption
  else none

theorem onceStep_onceSteps (h : onceStep turns st op = some st') : OnceSteps st op st' := by
  unfold onceStep at h
  split_ifs at h with hl
  refine ⟨turns, hl.1, hl.2, ?_⟩
  cases hp : counterPerform turns st op with
  | error e => simp [hp, Except.toOption] at h
  | ok st1 =>
    rw [hp] at h
    rw [Option.some.inj h]

/-- The counters are right after `pmm_init` if it frees no page and wrong if it frees one. From
states with right counters they stay right in runs whose calls count every page once, and any
other call makes them wrong. -/
theorem counters_exact {st0 : CounterRun} {ops : List CounterOp} (h0 : Accounted st0)
    (h : Run OnceSteps st0 ops st) :
    (Consistent st.pmm ∧ ∀ turns op st', CounterLegal st op → counterPerform turns st op = .ok st' →
        (Consistent st'.pmm ↔ countsOnce turns st.pmm op)) ∧
    ∀ info entries s, pmmInit info entries = .ok s →
      (FreesNothing entries → Accounted ⟨⟨s, []⟩, List.range s.totalPages⟩) ∧
        ∀ x < s.totalPages, s.pmmBitmap.Clear x → ¬ Consistent s := by
  have hst : Accounted st := by
    refine h.invariant h0 ?_
    rintro st op st' hst ⟨turns, hl, hc, hp⟩
    exact (hst.step hl hp).2 hc
  refine ⟨⟨hst.consistent, fun turns op st' hl hp => (hst.step hl hp).1⟩, ?_⟩
  intro info entries s hi
  exact ⟨pmmInit_accounted hi, fun x hlt hx => pmmInit_not_consistent hi hx hlt⟩

def tenPages : CounterRun :=
  ⟨⟨{ allReserved (fun _ => .zero) 0x8000 10 with usedPages := 6, reservedPages := 4 },
    [1, 2, 3, 4, 5]⟩, [6, 7, 9]⟩

theorem tenPages_accounted : Accounted tenPages := by
  have hnot : ∀ x, ¬ tenPages.pmm.pmmBitmap.Clear x :=
    allReserved_not_clear (fun _ => .zero) 0x8000 10
  have hcount : clearCount tenPages.pmm = 0 := by
    unfold clearCount
    rw [filter_false_of_mem fun x _ => hnot x]
    rfl
  refine ⟨⟨hcount.symm, rfl⟩, by decide, by decide, fun x hx => absurd hx (hnot x),
    fun x hx => ⟨hnot x, ?_⟩, by decide, by decide, fun x hx => ⟨hnot x, ?_⟩, by decide⟩
  · revert x
    decide
  · revert x
    decide

theorem counters_exact_tenPages :
    ∃ st, Run OnceSteps tenPages [.page (.freePages 0x1000 3), .page .allocatePage,
        .page (.write 1 .zero), .page (.freePage 0x5000), .reservePages 0x9000 0] st ∧
      Consistent st.pmm := by
  have hsome : ([.page (.freePages 0x1000 3), .page .allocatePage, .page (.write 1 .zero),
      .page (.freePage 0x5000), .reservePages 0x9000 0].foldlM (onceStep 3) tenPages).isSome := by
    decide +kernel
  obtain ⟨st, hst⟩ := Option.isSome_iff_exists.mp hsome
  have hrun := Run.of_foldlM (f := onceStep 3) (fun _ _ _ h => onceStep_onceSteps h) hst
  exact ⟨st, hrun, (counters_exact tenPages_accounted hrun).1.1⟩

/-- On a small machine `pmm_init` finds five free pages and leaves minus five used ones. -/
theorem used_pages_wrap : ∃ s, pmmInit (fun _ => .zero) smallMap = .ok s ∧ s.availablePages = 5 ∧
      s.usedPages = 2 ^ 64 - 5 ∧ s.totalPages = 264 ∧ ¬ Consistent s := by
  have hrun : (pmmInit (fun _ => .zero) smallMap).toOption.map
      (fun s => (s.availablePages, s.usedPages, s.totalPages)) =
        some (5, 2 ^ 64 - 5, 264) := by decide +kernel
  cases h : pmmInit (fun _ => .zero) smallMap with
  | error e => simp [h, Except.toOption] at hrun
  | ok s =>
    simp only [h, Except.toOption, Option.map_some, Option.some.injEq, Prod.mk.injEq] at hrun
    obtain ⟨ha, hu, ht⟩ := hrun
    refine ⟨s, rfl, ha, hu, ht, fun hc => ?_⟩
    have := hc.sum
    omega

end Kot.Kernel.Pmm
