import Kot.Kernel.Pmm.Init
import Kot.Kernel.Pmm.Effects

/-! Which pages `pmm_init` frees. Each entry of the map leads to at most one call of
`pmm_unreserve_pages`; the calls of a sound map are disjoint and miss the bitmap. -/
namespace Kot.Kernel.Pmm
open Kot.Lib List Interval

def callPages (c : ℕ × ℕ) : Interval := ⟨pmmAddressToIndex c.1, c.2⟩

def EntryPage (size host : ℕ) (p : MemmapEntry × ℕ) (x : ℕ) : Prop :=
  ∃ c ∈ unreserveCall size (p.2 = host) p.1, x ∈ callPages c

/-- A call that frees pages in use, inside the bitmap and not holding it. -/
structure CallOk (b : Bitmap) (c : ℕ × ℕ) : Prop where
  pos : 0 < c.2
  first : 1 ≤ pmmAddressToIndex c.1
  bound : pmmAddressToIndex c.1 + c.2 < 8 * b.size
  uncovered : ∀ x ∈ callPages c, ¬ b.covers x

variable {s s' : PmmState} {rs : List Interval} {size host x page : ℕ} {e f : MemmapEntry}
  {p q : MemmapEntry × ℕ} {l : List (MemmapEntry × ℕ)} {entries : List MemmapEntry}
  {info : ℕ → FreeListInfo}

theorem initEntry_spec (h : Tracked s rs) (hlock : s.pmmLock = false)
    (hcall : ∀ c ∈ unreserveCall size (p.2 = host) p.1, CallOk s.pmmBitmap c)
    (hused : ∀ x, EntryPage size host p x → ¬ s.pmmBitmap.Clear x) :
    ∃ s' rs', initEntry size host s p = .ok s' ∧ Tracked s' rs' ∧ s'.pmmLock = false ∧
      s.pmmBitmap.SamePlace s'.pmmBitmap ∧
      ∀ x, s'.pmmBitmap.Clear x ↔ s.pmmBitmap.Clear x ∨ EntryPage size host p x := by
  unfold initEntry EntryPage at *
  cases hc : unreserveCall size (p.2 = host) p.1 with
  | none => exact ⟨s, rs, rfl, h, hlock, ⟨rfl, rfl⟩, by simp⟩
  | some c =>
    obtain ⟨hpos, hfirst, hbound, hunc⟩ := hcall c hc
    have hf : Freeable { s with reservedPages := wsub s.reservedPages c.2 }
        (pmmAddressToIndex c.1) c.2 :=
      ⟨hpos, hfirst, hbound, fun x hx hxn => hused x ⟨c, hc, hx, hxn⟩,
        fun x hx hxn => hunc x ⟨hx, hxn⟩⟩
    have hT : Tracked { s with reservedPages := wsub s.reservedPages c.2 } rs := h.congr rfl rfl rfl
    obtain ⟨s1, rs', b, -, hset, hok, htr⟩ := pmmFreePagesIndex_spec hT hf hlock
    refine ⟨_, rs', hok, htr, hlock, hset.place, fun x => ?_⟩
    change b.Clear x ↔ _
    rw [hset.clear_false fun _ => hbound.le]
    simp [callPages, mem_iff, stop]

theorem initEntries_spec (h : Tracked s rs) (hlock : s.pmmLock = false)
    (hcall : ∀ p ∈ l, ∀ c ∈ unreserveCall size (p.2 = host) p.1, CallOk s.pmmBitmap c)
    (hdis : l.Pairwise fun p q => ∀ x, EntryPage size host p x → ¬ EntryPage size host q x)
    (hused : ∀ p ∈ l, ∀ x, EntryPage size host p x → ¬ s.pmmBitmap.Clear x) :
    ∃ s', l.foldlM (initEntry size host) s = .ok s' ∧ s.pmmBitmap.SamePlace s'.pmmBitmap ∧
      ∀ x, s'.pmmBitmap.Clear x ↔ s.pmmBitmap.Clear x ∨ ∃ p ∈ l, EntryPage size host p x := by
  induction l generalizing s rs with
  | nil => exact ⟨s, rfl, ⟨rfl, rfl⟩, by simp⟩
  | cons p l ih =>
    obtain ⟨hp, hl⟩ := pairwise_cons.mp hdis
    obtain ⟨s1, rs1, h1, ht1, hlock1, hplace1, hclear1⟩ :=
      initEntry_spec h hlock (hcall p (by simp)) (hused p (by simp))
    have hcall1 : ∀ q ∈ l, ∀ c ∈ unreserveCall size (q.2 = host) q.1, CallOk s1.pmmBitmap c := by
      intro q hq c hc
      obtain ⟨hpos, hfirst, hbound, hunc⟩ := hcall q (by simp [hq]) c hc
      refine ⟨hpos, hfirst, by rw [hplace1.2]; exact hbound, fun x hx => ?_⟩
      unfold Bitmap.covers at *
      rw [hplace1.1, hplace1.2]
      exact hunc x hx
    have hused1 : ∀ q ∈ l, ∀ x, EntryPage size host q x → ¬ s1.pmmBitmap.Clear x := by
      intro q hq x hx hc
      rcases (hclear1 x).mp hc with hc | hc
      · exact hused q (by simp [hq]) x hx hc
      · exact hp q hq x hc hx
    obtain ⟨s', hs', hplace, hclear⟩ := ih ht1 hlock1 hcall1 hl hused1
    refine ⟨s', ?_, ⟨hplace.1.trans hplace1.1, hplace.2.trans hplace1.2⟩, fun x => ?_⟩
    · rw [foldlM_cons, h1]
      exact hs'
    · rw [hclear, hclear1]
      simp only [mem_cons, exists_eq_or_imp, or_assoc]

/-- What a boot loader promises: 64-bit fields, and usable entries that are page-aligned and
do not overlap. -/
structure MapOk (entries : List MemmapEntry) : Prop where
  word : ∀ e ∈ entries, e.base < 2 ^ 64 ∧ e.length < 2 ^ 64
  aligned : ∀ e ∈ entries, e.type = .usable → pageSize ∣ e.base ∧ pageSize ∣ e.length
  disjoint : entries.Pairwise fun e f => e.type = .usable → f.type = .usable →
    e.base + e.length ≤ f.base ∨ f.base + f.length ≤ e.base

/-- The maps for which the loop computes the right calls: the memory ends below the top of
the address space, no usable entry above the reserved addresses is empty, and the entry with
the bitmap starts above them and is filled by the bitmap or has another page. -/
structure InitSafe (entries : List MemmapEntry) : Prop where
  low : ∀ e ∈ entries, e.base + e.length ≤ 2 ^ 64 - pageSize
  nonempty : ∀ e ∈ entries, e.type = .usable → physicalAddressReservedEnd < e.base → 0 < e.length
  host : ∀ p ∈ pmmFindFreeEntry entries (bitmapSize entries),
    physicalAddressReservedEnd ≤ p.1.base ∧
      (p.1.length = bitmapSize entries ∨ bitmapSize entries + pageSize ≤ p.1.length)

def UsablePage (entries : List MemmapEntry) (page : ℕ) : Prop :=
  ∃ e ∈ entries, e.type = .usable ∧ e.base ≤ page * pageSize ∧ page * pageSize < e.base + e.length

theorem foldl_end_bounds (acc : ℕ) (hacc : acc ≤ 2 ^ 64 - pageSize)
    (h : ∀ e ∈ entries, e.base + e.length ≤ 2 ^ 64 - pageSize) :
    let memoryEnd := entries.foldl (fun lastAddress e =>
      if lastAddress < wadd e.base e.length then wadd e.base e.length else lastAddress) acc
    acc ≤ memoryEnd ∧ memoryEnd ≤ 2 ^ 64 - pageSize ∧
      ∀ e ∈ entries, e.base + e.length ≤ memoryEnd := by
  induction entries generalizing acc with
  | nil => simpa using hacc
  | cons e l ih =>
    have he := h e (by simp)
    have hadd : wadd e.base e.length = e.base + e.length := wadd_of_lt (by unfold pageSize at he; omega)
    have hnew : (if acc < wadd e.base e.length then wadd e.base e.length else acc) ≤
        2 ^ 64 - pageSize := by
      rw [hadd]
      split_ifs <;> omega
    obtain ⟨h1, h2, h3⟩ := ih _ hnew fun f hf => h f (by simp [hf])
    rw [hadd] at h1 h2 h3
    simp only [foldl_cons, hadd]
    refine ⟨?_, h2, fun f hf => ?_⟩
    · split_ifs at h1 ⊢ <;> omega
    · rcases mem_cons.mp hf with rfl | hf
      · split_ifs at h1 ⊢ <;> omega
      · exact h3 f hf

theorem InitSafe.end_le (h : InitSafe entries) (he : e ∈ entries) :
    e.base + e.length ≤ totalPageCount entries * pageSize := by
  obtain ⟨-, hle, hall⟩ := foldl_end_bounds 0 (by decide) h.low
  have hend : e.base + e.length ≤ pmmGetMemoryEnd entries := hall e he
  have hle : pmmGetMemoryEnd entries ≤ 2 ^ 64 - pageSize := hle
  unfold totalPageCount divRoundupPage
  unfold pageSize at *
  rw [wadd_of_lt (by omega)]
  omega

theorem unreserveCall_other (ha : e.type = .usable → pageSize ∣ e.base ∧ pageSize ∣ e.length)
    (hne : e.type = .usable → physicalAddressReservedEnd < e.base → 0 < e.length) :
    (∀ c ∈ unreserveCall size false e, 0 < c.2 ∧ 1 ≤ pmmAddressToIndex c.1 ∧
      (pmmAddressToIndex c.1 + c.2) * pageSize ≤ e.base + e.length) ∧
    ∀ x, (∃ c ∈ unreserveCall size false e, x ∈ callPages c) ↔ e.type = .usable ∧
      (e.base ≤ x * pageSize ∧ x * pageSize < e.base + e.length) ∧
      physicalAddressReservedEnd ≤ x * pageSize := by
  by_cases hu : e.type = .usable
  · obtain ⟨⟨u, hu'⟩, ⟨v, hv⟩⟩ := ha hu
    have hne := hne hu
    unfold unreserveCall usablePart
    simp only [hu, if_true, true_and]
    unfold physicalAddressReservedEnd pageSize at *
    by_cases hlow : e.base ≤ 0x100000
    · by_cases hlen : 0x100000 - e.base < e.length
      · simp only [hlow, hlen, if_true, Bool.false_eq_true, if_false, Option.mem_some_iff]
        refine ⟨?_, fun x => ?_⟩
        · rintro c rfl
          simp only [pmmAddressToIndex, pageSize]
          omega
        · simp only [exists_eq_left', callPages, mem_iff, stop, pmmAddressToIndex,
            pageSize]
          omega
      · simp only [hlow, hlen, if_true, if_false]
        refine ⟨by simp, fun x => ?_⟩
        simp only [Option.not_mem_none, false_and, exists_false, false_iff]
        omega
    · simp only [hlow, Bool.false_eq_true, if_false, Option.mem_some_iff]
      refine ⟨?_, fun x => ?_⟩
      · rintro c rfl
        simp only [pmmAddressToIndex, pageSize]
        omega
      · simp only [exists_eq_left', callPages, mem_iff, stop, pmmAddressToIndex,
          pageSize]
        omega
  · simp [unreserveCall, usablePart, hu]

theorem unreserveCall_host (hu : e.type = .usable) (ha : pageSize ∣ e.base ∧ pageSize ∣ e.length)
    (hend : e.base + e.length ≤ 2 ^ 64 - pageSize) (hlow : physicalAddressReservedEnd ≤ e.base)
    (hsize : 0 < size) (hroom : e.length = size ∨ size + pageSize ≤ e.length) :
    (∀ c ∈ unreserveCall size true e, 0 < c.2 ∧ 1 ≤ pmmAddressToIndex c.1 ∧
      (pmmAddressToIndex c.1 + c.2) * pageSize ≤ e.base + e.length) ∧
    ∀ x, (∃ c ∈ unreserveCall size true e, x ∈ callPages c) ↔
      (e.base ≤ x * pageSize ∧ x * pageSize < e.base + e.length) ∧
      e.base + size ≤ x * pageSize := by
  have hpart : usablePart e = some (e.base, e.length) := by
    unfold usablePart
    rw [if_pos hu]
    split_ifs with h1 h2
    · rw [show physicalAddressReservedEnd = e.base by omega, Nat.sub_self, Nat.sub_zero]
    · omega
    · rfl
  unfold unreserveCall
  rw [hpart]
  unfold physicalAddressReservedEnd pageSize at *
  by_cases hfull : e.length = size
  · simp only [hfull, if_true, ne_eq, not_true_eq_false, if_false]
    refine ⟨by simp, fun x => ?_⟩
    simp only [Option.not_mem_none, false_and, exists_false, false_iff]
    omega
  · have hsub : wsub e.length size = e.length - size := wsub_of_le (by omega) (by omega)
    have hendb : bitmapEnd e.base size = (e.base + size + 4095) / 4096 * 4096 := by
      unfold bitmapEnd pageSize
      rw [wadd_of_lt (by omega)]
      dsimp only
      split_ifs with h1
      · rw [wadd_of_lt (by omega)]
        omega
      · omega
    simp only [if_true, ne_eq, hfull, not_false_eq_true, hsub, hendb, Option.mem_some_iff]
    refine ⟨?_, fun x => ?_⟩
    · rintro c rfl
      simp only [pmmAddressToIndex, pageSize]
      omega
    · simp only [exists_eq_left', callPages, mem_iff, stop, pmmAddressToIndex,
        pageSize]
      omega

theorem MapOk.pair_disjoint (h : MapOk entries) (hp : p ∈ entries.zipIdx) (hq : q ∈ entries.zipIdx)
    (hne : p ≠ q) (hpu : p.1.type = .usable) (hqu : q.1.type = .usable) :
    p.1.base + p.1.length ≤ q.1.base ∨ q.1.base + q.1.length ≤ p.1.base := by
  have hpair : entries.zipIdx.Pairwise fun p q => p.1.type = .usable → q.1.type = .usable →
      p.1.base + p.1.length ≤ q.1.base ∨ q.1.base + q.1.length ≤ p.1.base := by
    have := h.disjoint
    rw [← zipIdx_map_fst 0 entries] at this
    exact pairwise_map.mp this
  have : Std.Symm fun p q : MemmapEntry × ℕ => p.1.type = .usable → q.1.type = .usable →
      p.1.base + p.1.length ≤ q.1.base ∨ q.1.base + q.1.length ≤ p.1.base :=
    ⟨fun _ _ hab ha hb => (hab hb ha).symm⟩
  exact hpair.forall hp hq hne hpu hqu

theorem pmmFindFreeEntry_some (hf : pmmFindFreeEntry entries size = some p) :
    p ∈ entries.zipIdx ∧ p.1.type = .usable ∧ size ≤ p.1.length := by
  have hroom := find?_some hf
  simp only [hasRoom, Bool.decide_and, Bool.and_eq_true, decide_eq_true_eq] at hroom
  exact ⟨mem_of_find?_eq_some hf, hroom.1, hroom.2.1⟩

theorem InitSafe.entryPage_iff (hs : InitSafe entries) (hm : MapOk entries)
    (hf : pmmFindFreeEntry entries (bitmapSize entries) = some q) (hp : p ∈ entries.zipIdx) :
    (∀ c ∈ unreserveCall (bitmapSize entries) (p.2 = q.2) p.1,
      CallOk (bitmapInit (bitmapBase q.1) (bitmapSize entries) true) c) ∧
    ∀ x, EntryPage (bitmapSize entries) q.2 p x ↔ p.1.type = .usable ∧
      (p.1.base ≤ x * pageSize ∧ x * pageSize < p.1.base + p.1.length) ∧
      physicalAddressReservedEnd ≤ x * pageSize ∧
      ¬ (bitmapInit (bitmapBase q.1) (bitmapSize entries) true).covers x := by
  obtain ⟨hq, hqu, hqs⟩ := pmmFindFreeEntry_some hf
  obtain ⟨hqlow, hqroom⟩ := hs.host q hf
  have hpe := fst_mem_of_mem_zipIdx hp
  have hqe := fst_mem_of_mem_zipIdx hq
  have hpend := hs.end_le hpe
  have hqa := hm.aligned q.1 hqe hqu
  have hpos : 0 < bitmapSize entries := Nat.succ_pos _
  have hcount : totalPageCount entries < 8 * bitmapSize entries := by
    unfold bitmapSize
    omega
  have hbelow : ∀ c : ℕ × ℕ, (pmmAddressToIndex c.1 + c.2) * pageSize ≤ p.1.base + p.1.length →
      pmmAddressToIndex c.1 + c.2 < 8 * bitmapSize entries := fun c hle =>
    lt_of_le_of_lt (Nat.le_of_mul_le_mul_right (hle.trans hpend) (by decide)) hcount
  have hbase : bitmapBase q.1 = q.1.base := if_neg (by omega)
  have hcov : ∀ x, (bitmapInit (bitmapBase q.1) (bitmapSize entries) true).covers x ↔
      q.1.base ≤ x * pageSize ∧ x * pageSize < q.1.base + bitmapSize entries := by
    intro x
    simp only [Bitmap.covers, bitmapInit, hbase]
    unfold pageSize at *
    omega
  by_cases hi : p.2 = q.2
  · obtain rfl : p = q := by
      rw [mem_zipIdx_iff_getElem?] at hp hq
      rw [hi, hq] at hp
      exact Prod.ext (Option.some.inj hp).symm hi
    obtain ⟨hcalls, hpages⟩ := unreserveCall_host hqu hqa (hs.low _ hqe) hqlow hpos hqroom
    simp only [EntryPage, decide_true]
    refine ⟨fun c hc => ?_, fun x => ?_⟩
    · obtain ⟨h0, h1, hle⟩ := hcalls c hc
      refine ⟨h0, h1, hbelow c hle, fun x hx => ?_⟩
      rw [hcov]
      have := (hpages x).mp ⟨c, hc, hx⟩
      omega
    · rw [hpages, hcov]
      constructor
      · intro h
        exact ⟨hqu, h.1, by omega, by omega⟩
      · rintro ⟨-, h1, h2, h3⟩
        exact ⟨h1, by omega⟩
  · have hne : p ≠ q := fun h => hi (by rw [h])
    obtain ⟨hcalls, hpages⟩ := unreserveCall_other (hm.aligned _ hpe)
      (hs.nonempty _ hpe)
    have hmiss : p.1.type = .usable → ∀ x, p.1.base ≤ x * pageSize ∧
        x * pageSize < p.1.base + p.1.length →
        ¬ (q.1.base ≤ x * pageSize ∧ x * pageSize < q.1.base + bitmapSize entries) := by
      intro hpu x hx
      have := hm.pair_disjoint hp hq hne hpu hqu
      omega
    simp only [EntryPage, hi, decide_false]
    refine ⟨fun c hc => ?_, fun x => ?_⟩
    · obtain ⟨h0, h1, hle⟩ := hcalls c hc
      refine ⟨h0, h1, hbelow c hle, fun x hx => ?_⟩
      obtain ⟨hpu, hx, -⟩ := (hpages x).mp ⟨c, hc, hx⟩
      rw [hcov]
      exact hmiss hpu x hx
    · rw [hpages, hcov]
      constructor
      · rintro ⟨hpu, hx, hr⟩
        exact ⟨hpu, hx, hr, hmiss hpu x hx⟩
      · rintro ⟨hpu, hx, hr, -⟩
        exact ⟨hpu, hx, hr⟩

/-- After `pmm_init` the clear bits are the usable pages above the reserved addresses that do
not hold the bitmap. -/
def InitExact (info : ℕ → FreeListInfo) (entries : List MemmapEntry) : Prop :=
  ∃ s, pmmInit info entries = .ok s ∧ ∀ page, s.pmmBitmap.Clear page ↔
    UsablePage entries page ∧ physicalAddressReservedEnd ≤ page * pageSize ∧
      ¬ s.pmmBitmap.covers page

theorem totalPageCount_lt (entries : List MemmapEntry) : totalPageCount entries < 2 ^ 60 := by
  unfold totalPageCount divRoundupPage wadd pageSize
  omega

theorem InitSafe.initExact (hs : InitSafe entries) (hm : MapOk entries)
    (hf : pmmFindFreeEntry entries (bitmapSize entries) = some q) (info : ℕ → FreeListInfo) :
    InitExact info entries := by
  have hpairs := fun p hp => hs.entryPage_iff (p := p) hm hf hp
  have hnodup : entries.zipIdx.Nodup := by
    have hsnd : (entries.zipIdx.map Prod.snd).Nodup := by
      rw [zipIdx_map_snd]
      exact nodup_range'
    exact (pairwise_map.mp hsnd).imp fun hne heq => hne (by rw [heq])
  have hdis : entries.zipIdx.Pairwise fun p p' => ∀ x, EntryPage (bitmapSize entries) q.2 p x →
      ¬ EntryPage (bitmapSize entries) q.2 p' x := by
    refine hnodup.imp_of_mem fun {p p'} hp hp' hne x hx hx' => ?_
    obtain ⟨hu, hx, -⟩ := ((hpairs p hp).2 x).mp hx
    obtain ⟨hu', hx', -⟩ := ((hpairs p' hp').2 x).mp hx'
    have := hm.pair_disjoint hp hp' hne hu hu'
    omega
  have hnot := allReserved_not_clear info (bitmapBase q.1) (totalPageCount entries)
  obtain ⟨s, hok, hplace, hclear⟩ := initEntries_spec
    (allReserved_tracked info (bitmapBase q.1) (totalPageCount_lt entries)) rfl
    (fun p hp => (hpairs p hp).1) hdis fun p _ x _ => hnot x
  refine ⟨s, ?_, fun page => ?_⟩
  · rw [pmmInit, hf]
    exact hok
  · have hcov : s.pmmBitmap.covers page ↔
        (bitmapInit (bitmapBase q.1) (bitmapSize entries) true).covers page := by
      unfold Bitmap.covers
      rw [hplace.1, hplace.2]
      rfl
    rw [hclear, hcov, or_iff_right (hnot page)]
    constructor
    · rintro ⟨p, hp, hx⟩
      obtain ⟨hu, hx, hr, hc⟩ := ((hpairs p hp).2 page).mp hx
      exact ⟨⟨p.1, fst_mem_of_mem_zipIdx hp, hu, hx⟩, hr, hc⟩
    · rintro ⟨⟨e, he, hu, hx⟩, hr, hc⟩
      obtain ⟨i, hi⟩ := mem_iff_getElem?.mp he
      have hp : (e, i) ∈ entries.zipIdx := mem_zipIdx_iff_getElem?.mpr hi
      exact ⟨(e, i), hp, ((hpairs _ hp).2 page).mpr ⟨hu, hx, hr, hc⟩⟩

theorem initEntries_clear (hw : 8 * s.pmmBitmap.size < 2 ^ 64)
    (h : l.foldlM (initEntry size host) s = .ok s') :
    ∀ x, s'.pmmBitmap.Clear x ↔ s.pmmBitmap.Clear x ∨ ∃ p ∈ l, EntryPage size host p x := by
  induction l generalizing s with
  | nil =>
    cases h
    simp
  | cons p l ih =>
    rw [foldlM_cons] at h
    obtain ⟨s1, h1, h⟩ := bind_eq_ok h
    have hstep : s1.pmmBitmap.size = s.pmmBitmap.size ∧
        ∀ x, s1.pmmBitmap.Clear x ↔ s.pmmBitmap.Clear x ∨ EntryPage size host p x := by
      unfold initEntry at h1
      unfold EntryPage
      cases hc : unreserveCall size (p.2 = host) p.1 with
      | none =>
        rw [hc] at h1
        cases h1
        simp
      | some c =>
        rw [hc] at h1
        obtain ⟨-, t, b, hset, hbound, rfl⟩ := pmmFreePagesIndex_ok h1 hw
        refine ⟨hset.place.2, fun x => ?_⟩
        change b.Clear x ↔ _
        rw [hset.clear_false hbound]
        simp [callPages, mem_iff, stop]
    intro x
    rw [ih (hstep.1 ▸ hw) h, hstep.2]
    simp only [mem_cons, exists_eq_or_imp, or_assoc]

/-- An entry with the bitmap that starts below the reserved end: the call also frees the page
behind the entry. -/
theorem unreserveCall_straddling (hu : e.type = .usable)
    (ha : pageSize ∣ e.base ∧ pageSize ∣ e.length) (hw : e.length < 2 ^ 64)
    (hlow : e.base < physicalAddressReservedEnd) (hsize : 0 < size) (hsize' : size < 2 ^ 60)
    (hroom : hasRoom size e) :
    ∃ c ∈ unreserveCall size true e, (e.base + e.length) / pageSize ∈ callPages c := by
  simp only [hasRoom, Bool.decide_and, Bool.and_eq_true, decide_eq_true_eq] at hroom
  obtain ⟨-, -, hroom⟩ := hroom
  unfold unreserveCall usablePart
  unfold physicalAddressReservedEnd pageSize at *
  rw [if_pos hu, if_pos (by omega), if_pos (by omega)]
  have hsub : wsub e.length size = e.length - size := wsub_of_le hw (by omega)
  have hend : bitmapEnd 0x100000 size = (0x100000 + size + 4095) / 4096 * 4096 := by
    unfold bitmapEnd pageSize
    rw [wadd_of_lt (by omega)]
    dsimp only
    split_ifs with h1
    · rw [wadd_of_lt (by omega)]
      omega
    · omega
  refine ⟨_, by simp [show e.length ≠ size by omega]; rfl, ?_⟩
  simp only [hsub, hend, callPages, mem_iff, stop, pmmAddressToIndex, pageSize]
  omega

def smallMap : List MemmapEntry :=
  [⟨0x1000, 0x9e000, .usable⟩, ⟨0x9f000, 0x61000, .reserved⟩, ⟨0x100000, 0x4000, .usable⟩,
    ⟨0x104000, 0x1800, .kernelAndModules⟩, ⟨0x106000, 0x2000, .usable⟩]

/-- The bitmap goes into an entry that straddles the reserved end. -/
def straddlingMap : List MemmapEntry := [⟨0xff000, 0x4000, .usable⟩, ⟨0x103000, 0x1000, .reserved⟩]

end Kot.Kernel.Pmm
