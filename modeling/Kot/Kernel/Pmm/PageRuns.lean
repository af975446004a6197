import Kot.Lib.Run
import Kot.Kernel.Pmm.Chained

/-! Runs of the page allocator with the pages that were handed out and not yet given back.
The holder of a page may write to it. -/
namespace Kot.Kernel.Pmm
open Kot.Lib List Interval

/-- The allocator and the pages in the hands of its callers. -/
structure PmmRun where
  pmm : PmmState
  held : List ℕ

inductive PmmOp
  | allocatePage
  | allocatePages (pageCount : ℕ)
  | freePage (address : ℕ)
  | freePages (address pageCount : ℕ)
  /-- a holder overwrites the start of its page -/
  | write (page : ℕ) (record : FreeListInfo)

/-- The first page and the number of pages that a call gives back. -/
def PmmOp.freed : PmmOp → Option (ℕ × ℕ)
  | .freePage address => some (pmmAddressToIndex address, 1)
  | .freePages address pageCount => some (pmmAddressToIndex address, pageCount)
  | _ => none

def PmmOp.written : PmmOp → Option ℕ
  | .write page _ => some page
  | _ => none

/-- Only pages that are held are given back or written to. -/
def Legal (st : PmmRun) (op : PmmOp) : Prop :=
  (∀ f ∈ op.freed, ∀ x ∈ List.range' f.1 f.2, x ∈ st.held) ∧ ∀ page ∈ op.written, page ∈ st.held

instance (st : PmmRun) (op : PmmOp) : Decidable (Legal st op) := inferInstanceAs (Decidable (_ ∧ _))

/-- The held pages after an allocation. -/
def handOut (held : List ℕ) (address n : ℕ) : List ℕ :=
  List.range' (pmmAddressToIndex address) n ++ held

def giveBack (held : List ℕ) (address n : ℕ) : List ℕ :=
  held.filter fun x => x ∉ List.range' (pmmAddressToIndex address) n

def perform (turns : ℕ) (st : PmmRun) : PmmOp → Except Fault PmmRun
  | .allocatePage => do
    let (address, s) ← pmmAllocatePage st.pmm
    .ok ⟨s, handOut st.held address 1⟩
  | .allocatePages n => do
    let (address, s) ← pmmAllocatePages turns st.pmm n
    .ok ⟨s, handOut st.held address n⟩
  | .freePage address => do
    let s ← pmmFreePage st.pmm address
    .ok ⟨s, giveBack st.held address 1⟩
  | .freePages address n => do
    let s ← pmmFreePages st.pmm address n
    .ok ⟨s, giveBack st.held address n⟩
  | .write page record => .ok ⟨st.pmm.modify page fun _ => record, st.held⟩

/-- One legal call that returns. -/
def pmmStep (turns : ℕ) (st : PmmRun) (op : PmmOp) : Option PmmRun :=
  if Legal st op then (perform turns st op).toOption else none

/-- The list from the entry through `last` holds the maximal runs of clear bits, each once and
with its record, and `next` is the inverse of `last`. -/
structure FreeListExact (s : PmmState) (l : List ℕ) : Prop where
  chained : Chained s l
  nodup : l.Nodup
  maximal : ∀ c, c ∈ l ↔ ∃ n, MaximalRun s.pmmBitmap.Clear ⟨c, n⟩
  stored : ∀ r, MaximalRun s.pmmBitmap.Clear r → Stored s.info r

/-- A state to start from: an exact list of any free runs, the hint below all of them, and
neither free nor held pages in the bitmap. -/
structure Initial (st : PmmRun) : Prop where
  exact_list : ∃ l, FreeListExact st.pmm l
  lock : st.pmm.pmmLock = false
  hint : ∀ x, st.pmm.pmmBitmap.Clear x → st.pmm.pmmFirstFreePageIndex ≤ x
  high : ∀ x, st.pmm.pmmBitmap.Clear x → x < st.pmm.highestPageIndex
  size : st.pmm.highestPageIndex < 8 * st.pmm.pmmBitmap.size
  word : 8 * st.pmm.pmmBitmap.size < 2 ^ 64
  uncovered : ∀ x, st.pmm.pmmBitmap.Clear x → ¬ st.pmm.pmmBitmap.covers x
  held : ∀ x ∈ st.held, ¬ st.pmm.pmmBitmap.Clear x ∧ ¬ st.pmm.pmmBitmap.covers x ∧
    x < st.pmm.highestPageIndex

/-- The node of a run that a call moves to another page. -/
def movedNode (turns : ℕ) (s : PmmState) (op : PmmOp) : Option ℕ :=
  match op with
  | .allocatePage =>
    match scanPages s.pmmBitmap s.pmmFirstFreePageIndex
      (s.highestPageIndex - s.pmmFirstFreePageIndex) with
    | .ok (some (i, _)) => if (s.info i).pageCount = 1 then none else some i
    | _ => none
  | .allocatePages n =>
    match findRun s n turns s.pmmLastFreeEntry with
    | .ok node => if node.pageCount = n ∨ n = 0 then none else some node.indexStart
    | _ => none
  | .write _ _ => none
  | op =>
    match op.freed with
    | some (i, n) =>
      if s.pmmBitmap.Clear (i + n) ∧ ¬ s.pmmBitmap.Clear (i - 1) then some (i + n) else none
    | none => none

/-- The call moves no node that has a neighbour, and a free gives back at least one page. -/
def Undisturbed (turns : ℕ) (s : PmmState) (op : PmmOp) : Prop :=
  (∀ c ∈ movedNode turns s op, Alone s c) ∧ ∀ f ∈ op.freed, 0 < f.2

instance (turns : ℕ) (s : PmmState) (op : PmmOp) : Decidable (Undisturbed turns s op) :=
  inferInstanceAs (Decidable (_ ∧ _))

structure PmmInv (st : PmmRun) (rs : List Interval) : Prop where
  tracked : Tracked st.pmm rs
  chained : Chained st.pmm (rs.map Interval.start)
  lock : st.pmm.pmmLock = false
  hint : ∀ x, st.pmm.pmmBitmap.Clear x → st.pmm.pmmFirstFreePageIndex ≤ x
  high : ∀ x, st.pmm.pmmBitmap.Clear x → x < st.pmm.highestPageIndex
  size : st.pmm.highestPageIndex < 8 * st.pmm.pmmBitmap.size
  held : ∀ x ∈ st.held, ¬ st.pmm.pmmBitmap.Clear x ∧ ¬ st.pmm.pmmBitmap.covers x ∧
    x < st.pmm.highestPageIndex

/-- A legal call that returns after some number of turns through the list. -/
def Steps (st : PmmRun) (op : PmmOp) (st' : PmmRun) : Prop :=
  ∃ turns, pmmStep turns st op = some st'

/-- Such a call that disturbs no neighbour. -/
def QuietSteps (st : PmmRun) (op : PmmOp) (st' : PmmRun) : Prop :=
  ∃ turns, Undisturbed turns st.pmm op ∧ pmmStep turns st op = some st'

/-- The executable form of `QuietSteps`. -/
def quietStep (turns : ℕ) (st : PmmRun) (op : PmmOp) : Option PmmRun :=
  if Undisturbed turns st.pmm op then pmmStep turns st op else none

variable {st st' : PmmRun} {s s' : PmmState} {r : Interval} {rs rs' : List Interval}
  {turns address hint i n page x : ℕ} {op : PmmOp} {held : List ℕ}

theorem Initial.inv (h : Initial st) : ∃ rs, PmmInv st rs := by
  obtain ⟨l, hl⟩ := h.exact_list
  have hstarts : (l.map fun c => (⟨c, (st.pmm.info c).pageCount⟩ : Interval)).map Interval.start =
      l := by
    rw [map_map]
    exact map_id l
  have hmem : ∀ r, r ∈ l.map (fun c => (⟨c, (st.pmm.info c).pageCount⟩ : Interval)) ↔
      MaximalRun st.pmm.pmmBitmap.Clear r := by
    intro r
    rw [mem_map]
    constructor
    · rintro ⟨c, hc, rfl⟩
      obtain ⟨n, hn⟩ := (hl.maximal c).mp hc
      have hcount := (hl.stored _ hn).pageCount
      rwa [hcount]
    · intro hr
      refine ⟨r.start, (hl.maximal _).mpr ⟨r.count, hr⟩, ?_⟩
      rw [(hl.stored r hr).pageCount]
  have hruns := runs_of_maximal h.high
    (hl.nodup.map fun a b hab => (Interval.mk.inj hab).1) hmem
  refine ⟨_, ⟨hruns, ⟨fun r hr => hl.stored r ((hmem r).mp hr), ?_⟩, h.uncovered, h.word⟩, ?_,
    h.lock, h.hint, h.high, h.size, h.held⟩
  · rw [hstarts]
    refine hl.chained.pointersOk fun c hc => h.uncovered c ?_
    obtain ⟨n, hn⟩ := (hl.maximal c).mp hc
    have := hn.pos
    exact hn.all c ⟨le_rfl, by simp only [stop] at *; omega⟩
  · rw [hstarts]
    exact hl.chained

theorem PmmInv.exact_list (h : PmmInv st rs) : FreeListExact st.pmm (rs.map Interval.start) where
  chained := h.chained
  nodup := h.tracked.runs.starts_nodup
  maximal c := by
    rw [mem_map]
    constructor
    · rintro ⟨r, hr, rfl⟩
      exact ⟨r.count, h.tracked.runs.mem_iff_maximalRun.mp hr⟩
    · rintro ⟨n, hn⟩
      exact ⟨_, h.tracked.runs.mem_iff_maximalRun.mpr hn, rfl⟩
  stored r hr := h.tracked.recorded.stored r (h.tracked.runs.mem_iff_maximalRun.mpr hr)

theorem PmmInv.freeable (h : PmmInv st rs) (hn : 0 < n) (hi : 1 ≤ i)
    (hheld : ∀ x ∈ List.range' i n, x ∈ st.held) : Freeable st.pmm i n := by
  have hmem : ∀ x, i ≤ x → x < i + n → x ∈ st.held := fun x hx hxn =>
    hheld x (mem_range'_1.mpr ⟨hx, hxn⟩)
  refine ⟨hn, hi, ?_, fun x hx hxn => (h.held x (hmem x hx hxn)).1,
    fun x hx hxn => (h.held x (hmem x hx hxn)).2.1⟩
  have hlast := (h.held _ (hmem (i + n - 1) (by omega) (by omega))).2.2
  have := h.size
  omega

theorem pmmFreePagesIndex_zero (hw : 8 * s.pmmBitmap.size < 2 ^ 64) :
    pmmFreePagesIndex s 0 n ≠ .ok s' := by
  intro h
  obtain ⟨s1, h1, h⟩ := bind_eq_ok h
  obtain ⟨s2, h2, h⟩ := bind_eq_ok h
  obtain ⟨u, -, h2⟩ := bind_eq_ok h2
  obtain ⟨v, hv, -⟩ := bind_eq_ok h2
  have hb : s1.pmmBitmap = s.pmmBitmap := by
    unfold PmmState.acquire at h1
    split_ifs at h1
    exact (Except.ok.inj h1) ▸ rfl
  have := (bitmapGetBit_ok hv).1
  rw [hb] at this
  unfold wsub at this
  omega

theorem PmmInv.free_ok (h : PmmInv st rs) (hn : 0 < n) (hi : pmmAddressToIndex address = i)
    (hheld : ∀ x ∈ List.range' i n, x ∈ st.held) (hs : pmmFreePages st.pmm address n = .ok s') :
    ∃ s1 rs' b, Freeable { st.pmm with pmmLock := true } i n ∧
      Added { st.pmm with pmmLock := true } s1 i n rs rs' ∧
      BitsSet st.pmm.pmmBitmap b i n false ∧ s' = freedState st.pmm s1 b i n ∧ Tracked s' rs' := by
  rw [pmmFreePages, hi] at hs
  have h1 : 1 ≤ i := by
    by_contra h0
    obtain rfl : i = 0 := by omega
    exact pmmFreePagesIndex_zero h.tracked.word hs
  have hf := h.freeable hn h1 hheld
  obtain ⟨s1, rs', b, hadd, hset, heq, htr⟩ := pmmFreePagesIndex_spec h.tracked hf h.lock
  obtain rfl := Except.ok.inj (heq.symm.trans hs)
  exact ⟨s1, rs', b, ⟨hf.pos, hf.first, hf.bound, hf.used, hf.uncovered⟩, hadd, hset, rfl, htr⟩

theorem PmmInv.free (h : PmmInv st rs) (hn : 0 < n) (hi : pmmAddressToIndex address = i)
    (hheld : ∀ x ∈ List.range' i n, x ∈ st.held) (hs : pmmFreePages st.pmm address n = .ok s')
    (hm : st.pmm.pmmBitmap.Clear (i + n) → ¬ st.pmm.pmmBitmap.Clear (i - 1) →
      Alone st.pmm (i + n)) :
    ∃ rs', PmmInv ⟨s', giveBack st.held address n⟩ rs' := by
  obtain ⟨s1, rs', b, hf, hadd, hset, rfl, htr⟩ := h.free_ok hn hi hheld hs
  have hbound : i + n < 8 * st.pmm.pmmBitmap.size := hf.bound
  have hclear : ∀ x, b.Clear x ↔ st.pmm.pmmBitmap.Clear x ∨ i ≤ x ∧ x < i + n := fun x =>
    hset.clear_false (by omega)
  have hmem : ∀ x, i ≤ x → x < i + n → x ∈ st.held := fun x hx hxn =>
    hheld x (mem_range'_1.mpr ⟨hx, hxn⟩)
  refine ⟨rs', htr, ?_, h.lock, fun x hx => ?_, fun x hx => ?_, ?_, fun x hx => ?_⟩
  · exact (hadd.chained (h.chained.congr rfl rfl) h.tracked.runs hf hm).congr rfl rfl
  · simp only [freedState]
    rcases (hclear x).mp hx with hx | hx
    · have := h.hint x hx
      split_ifs <;> omega
    · split_ifs <;> omega
  · rcases (hclear x).mp hx with hx | hx
    · exact h.high x hx
    · exact (h.held x (hmem x hx.1 hx.2)).2.2
  · change st.pmm.highestPageIndex < 8 * b.size
    rw [hset.place.2]
    exact h.size
  · simp only [giveBack, mem_filter, mem_range'_1, decide_eq_true_eq, hi] at hx
    obtain ⟨hnot, hcov, hlt⟩ := h.held x hx.1
    refine ⟨fun hc => ?_, fun hc => hcov (hset.covers.mp hc), hlt⟩
    exact ((hclear x).mp hc).elim hnot hx.2

theorem FreeListExact.mem_iff {l : List ℕ} (h : FreeListExact s l)
    (hr : Runs s.pmmBitmap.Clear rs) : x ∈ l ↔ x ∈ rs.map Interval.start := by
  rw [h.maximal, mem_map]
  constructor
  · rintro ⟨n, hn⟩
    exact ⟨_, hr.mem_iff_maximalRun.mpr hn, rfl⟩
  · rintro ⟨r, hr', rfl⟩
    exact ⟨r.count, hr.mem_iff_maximalRun.mp hr'⟩

section
variable (h : PmmInv st rs)
include h

theorem PmmInv.allocate (hr : r ∈ rs) (hn : n ≤ r.count)
    (hal : Allocated st.pmm s' hint r.start n rs rs')
    (hhint : ∀ x, st.pmm.pmmBitmap.Clear x → hint ≤ x)
    (hm : r.count ≠ n → n ≠ 0 → Alone st.pmm r.start) :
    PmmInv ⟨s', handOut st.held (r.start * pageSize) n⟩ rs' := by
  obtain ⟨hset, ⟨t, t1, hi, he, htaken, hs'⟩, htr⟩ := hal
  have hclear : ∀ x, s'.pmmBitmap.Clear x ↔
      st.pmm.pmmBitmap.Clear x ∧ ¬ (r.start ≤ x ∧ x < r.start + n) := fun x => hset.clear_true
  have hhighest : s'.highestPageIndex = st.pmm.highestPageIndex := by rw [hs', takenState]
  refine ⟨htr, ?_, ?_, fun x hx => ?_, fun x hx => ?_, ?_, fun x hx => ?_⟩
  · have hchain : Chained t1 (rs'.map Interval.start) := by
      refine htaken.chained (h.chained.congr hi he) h.tracked.runs.starts_nodup ?_
      intro q hq hqr hqn hn0
      obtain rfl : q = r := h.tracked.runs.eq_of_mem hq hr (h.tracked.runs.start_mem hq)
        (hqr ▸ h.tracked.runs.start_mem hr)
      have := hm hqn hn0
      unfold Alone at *
      rwa [hi]
    refine hchain.congr ?_ ?_ <;> dsimp only <;> rw [hs', takenState]
  · dsimp only
    rw [hs', takenState]
    exact h.lock
  · dsimp only at *
    rw [hs', takenState]
    exact hhint x ((hclear x).mp hx).1
  · dsimp only at *
    rw [hhighest]
    exact h.high x ((hclear x).mp hx).1
  · dsimp only
    rw [hhighest, hset.place.2]
    exact h.size
  · dsimp only
    rw [hclear, hset.covers, hhighest]
    have hidx : pmmAddressToIndex (r.start * pageSize) = r.start :=
      Nat.mul_div_cancel _ (by decide)
    simp only [handOut, hidx, mem_append, mem_range'_1] at hx
    rcases hx with hx | hx
    · have hc : st.pmm.pmmBitmap.Clear x := h.tracked.runs.all hr (by
        simp only [mem_iff, stop]
        omega)
      exact ⟨fun hcx => hcx.2 hx, h.tracked.uncovered x hc, h.high x hc⟩
    · obtain ⟨hnot, hcov, hlt⟩ := h.held x hx
      exact ⟨fun hcx => hnot hcx.1, hcov, hlt⟩

theorem PmmInv.allocate_alone {l : List ℕ} (hr : r ∈ rs)
    (hal : Allocated st.pmm s' hint r.start n rs rs') (hl : FreeListExact s' l)
    (hne : r.count ≠ n) (hn0 : n ≠ 0) : Alone st.pmm r.start := by
  obtain ⟨-, ⟨t, t1, hi, he, htaken, hs'⟩, htr⟩ := hal
  have hruns := h.tracked.runs
  have hchain : Chained t1 l := by
    refine hl.chained.congr ?_ ?_ <;> rw [hs', takenState]
  have halone := htaken.alone (h.chained.congr hi he) hruns hchain (fun x => hl.mem_iff htr.runs)
    (fun q hq hqr => ?_) hn0
  · unfold Alone at *
    rwa [← hi]
  · obtain rfl : q = r :=
      hruns.eq_of_mem hq hr (hruns.start_mem hq) (hqr ▸ hruns.start_mem hr)
    exact hne

theorem PmmInv.allocatePage_ok (hs : pmmAllocatePage st.pmm = .ok (address, s')) :
    ∃ r ∈ rs, ∃ rs' b, address = r.start * pageSize ∧ Allocated st.pmm s' r.start r.start 1 rs rs' ∧
      (∀ x, st.pmm.pmmBitmap.Clear x → r.start ≤ x) ∧
      scanPages st.pmm.pmmBitmap st.pmm.pmmFirstFreePageIndex
        (st.pmm.highestPageIndex - st.pmm.pmmFirstFreePageIndex) = .ok (some (r.start, b)) := by
  rcases pmmAllocatePage_spec h.tracked h.lock h.hint h.high h.size.le with
    ⟨-, hp⟩ | ⟨r, hr, s'', rs', hok, hal, hlow, b, hscan⟩
  · rw [hp] at hs
    cases hs
  · obtain ⟨rfl, rfl⟩ := Prod.mk.inj (Except.ok.inj (hok.symm.trans hs))
    exact ⟨r, hr, rs', b, rfl, hal, hlow, hscan⟩

theorem PmmInv.allocatePages_ok (hs : pmmAllocatePages turns st.pmm n = .ok (address, s')) :
    ∃ r ∈ rs, ∃ rs', address = r.start * pageSize ∧ n ≤ r.count ∧
      Allocated st.pmm s' st.pmm.pmmFirstFreePageIndex r.start n rs rs' ∧
      findRun st.pmm n turns st.pmm.pmmLastFreeEntry = .ok (st.pmm.info r.start) := by
  obtain ⟨s1, h1, h2⟩ := bind_eq_ok hs
  have hs1 : s1 = { st.pmm with pmmLock := true } := by
    simpa [PmmState.acquire, h.lock] using h1.symm
  obtain ⟨node, hnode, -⟩ := bind_eq_ok h2
  rw [hs1, findRun_lock] at hnode
  obtain ⟨c, hc, rfl, hn⟩ := findRun_mem h.chained.linked (h.chained.entry ▸ hnode)
  obtain ⟨r, hr, rfl⟩ := mem_map.mp hc
  have hle := (h.tracked.recorded.stored r hr).pageCount ▸ hn
  obtain ⟨s'', rs', hok, hal⟩ := pmmAllocatePages_spec h.tracked h.lock hr hle hnode
  obtain ⟨rfl, rfl⟩ := Prod.mk.inj (Except.ok.inj (hok.symm.trans hs))
  exact ⟨r, hr, rs', rfl, hle, hal, hnode⟩

theorem PmmInv.write {record : FreeListInfo} (hp : page ∈ st.held) :
    PmmInv ⟨st.pmm.modify page fun _ => record, st.held⟩ rs := by
  have hnot := (h.held page hp).1
  have hne : ∀ r ∈ rs, ∀ x ∈ r, x ≠ page := by
    rintro r hr x hx rfl
    exact hnot (h.tracked.runs.all hr hx)
  have hinfo : ∀ r ∈ rs, ∀ x ∈ r, (st.pmm.modify page fun _ => record).info x = st.pmm.info x := by
    intro r hr x hx
    rw [modify_info, if_neg (hne r hr x hx)]
  have hstart : ∀ c ∈ rs.map Interval.start,
      (st.pmm.modify page fun _ => record).info c = st.pmm.info c := by
    intro c hc
    obtain ⟨r, hr, rfl⟩ := mem_map.mp hc
    exact hinfo r hr _ (h.tracked.runs.start_mem hr)
  refine ⟨⟨h.tracked.runs, ⟨fun r hr => ?_, ?_⟩, h.tracked.uncovered, h.tracked.word⟩, ?_, h.lock,
    h.hint, h.high, h.size, h.held⟩
  · have hpos := h.tracked.runs.pos r hr
    refine (h.tracked.recorded.stored r hr).congr ?_ ?_ <;> rw [hinfo r hr] <;>
      simp only [mem_iff, stop] <;> omega
  · obtain ⟨hl, hn, he⟩ := h.tracked.recorded.pointers
    exact ⟨fun c hc => by rw [hstart c hc]; exact hl c hc,
      fun c hc => by rw [hstart c hc]; exact hn c hc, he⟩
  · refine ⟨h.chained.entry, h.chained.linked.congr (fun c hc => ?_) fun c hc => ?_⟩ <;>
      dsimp only <;> rw [hstart c hc]

end

theorem pmmStep_perform (h : pmmStep turns st op = some st') :
    Legal st op ∧ perform turns st op = .ok st' := by
  unfold pmmStep at h
  split_ifs at h with hl
  cases hp : perform turns st op with
  | error e => simp [hp, Except.toOption] at h
  | ok st1 => exact ⟨hl, by simpa [hp, Except.toOption] using h⟩

theorem PmmInv.step (h : PmmInv st rs) (hu : Undisturbed turns st.pmm op)
    (hs : pmmStep turns st op = some st') : ∃ rs', PmmInv st' rs' := by
  obtain ⟨⟨hfreed, hwritten⟩, hp⟩ := pmmStep_perform hs
  obtain ⟨hmoved, hpos⟩ := hu
  cases op with
  | allocatePage =>
    obtain ⟨⟨address, s'⟩, hal, hp⟩ := bind_eq_ok hp
    cases hp
    obtain ⟨r, hr, rs', b, rfl, hal, hlow, hscan⟩ := h.allocatePage_ok hal
    refine ⟨rs', h.allocate hr (h.tracked.runs.pos r hr) hal hlow fun hne _ => hmoved _ ?_⟩
    simp [movedNode, hscan, (h.tracked.recorded.stored r hr).pageCount, hne]
  | allocatePages n =>
    obtain ⟨⟨address, s'⟩, hal, hp⟩ := bind_eq_ok hp
    cases hp
    obtain ⟨r, hr, rs', rfl, hn, hal, hfind⟩ := h.allocatePages_ok hal
    refine ⟨rs', h.allocate hr hn hal h.hint fun hne hn0 => hmoved _ ?_⟩
    have hst := h.tracked.recorded.stored r hr
    simp [movedNode, hfind, hst.pageCount, hst.indexStart, hne, hn0]
  | freePage address | freePages address n =>
    obtain ⟨s', hf, hp⟩ := bind_eq_ok hp
    cases hp
    refine h.free (hpos _ rfl) rfl (hfreed _ rfl) hf fun hc hl => hmoved _ ?_
    simp [movedNode, PmmOp.freed, hc, hl]
  | write page record =>
    cases hp
    exact ⟨rs, h.write (hwritten page rfl)⟩

theorem PmmInv.undisturbed {l : List ℕ} (h : PmmInv st rs) (hs : pmmStep turns st op = some st')
    (hpos : ∀ f ∈ op.freed, 0 < f.2) (hl : FreeListExact st'.pmm l) :
    Undisturbed turns st.pmm op := by
  obtain ⟨⟨hfreed, -⟩, hp⟩ := pmmStep_perform hs
  refine ⟨fun c hc => ?_, hpos⟩
  cases op with
  | allocatePage =>
    obtain ⟨⟨address, s'⟩, hal, hp⟩ := bind_eq_ok hp
    cases hp
    obtain ⟨r, hr, rs', b, rfl, hal, -, hscan⟩ := h.allocatePage_ok hal
    simp only [movedNode, hscan, (h.tracked.recorded.stored r hr).pageCount] at hc
    split_ifs at hc with h1
    · cases hc
    · obtain rfl := Option.mem_some_iff.mp hc
      exact h.allocate_alone hr hal hl h1 Nat.one_ne_zero
  | allocatePages n =>
    obtain ⟨⟨address, s'⟩, hal, hp⟩ := bind_eq_ok hp
    cases hp
    obtain ⟨r, hr, rs', rfl, hn, hal, hfind⟩ := h.allocatePages_ok hal
    have hst := h.tracked.recorded.stored r hr
    simp only [movedNode, hfind, hst.pageCount, hst.indexStart] at hc
    split_ifs at hc with h1
    · cases hc
    · obtain rfl := Option.mem_some_iff.mp hc
      exact h.allocate_alone hr hal hl (fun hx => h1 (.inl hx)) fun hx => h1 (.inr hx)
  | freePage address | freePages address n =>
    obtain ⟨s', hf, hp⟩ := bind_eq_ok hp
    cases hp
    simp only [movedNode, PmmOp.freed] at hc
    split_ifs at hc with h1
    · obtain rfl := Option.mem_some_iff.mp hc
      obtain ⟨s1, rs', b, hfree, hadd, -, rfl, htr⟩ := h.free_ok (hpos _ rfl) rfl (hfreed _ rfl) hf
      exact hadd.alone (h.chained.congr rfl rfl) h.tracked.runs hfree (hl.chained.congr rfl rfl)
        (fun x => hl.mem_iff htr.runs) h1.1 h1.2
    · cases hc
  | write page record => cases hc

theorem PmmInv.fresh (h : PmmInv st rs) (hr : r ∈ rs) (hn : n ≤ r.count)
    (hx : x ∈ List.range' (pmmAddressToIndex (r.start * pageSize)) n) : x ∉ st.held := by
  have hidx : pmmAddressToIndex (r.start * pageSize) = r.start := Nat.mul_div_cancel _ (by decide)
  rw [hidx, mem_range'_1] at hx
  refine fun hheld => (h.held x hheld).1 (h.tracked.runs.all hr ?_)
  simp only [mem_iff, stop]
  omega

theorem allReserved_initial {info : ℕ → FreeListInfo} {base total : ℕ} (ht : total < 2 ^ 60)
    (hheld : ∀ x ∈ held, ¬ (allReserved info base total).pmmBitmap.covers x ∧ x < total) :
    Initial ⟨allReserved info base total, held⟩ := by
  have hnot := allReserved_not_clear info base total
  refine ⟨⟨[], ⟨rfl, trivial⟩, .nil, fun c => ?_, fun r hr => ?_⟩, rfl, ?_, ?_, ?_, ?_, ?_, ?_⟩
  · refine ⟨by simp, fun ⟨n, hn⟩ => ?_⟩
    have := hn.pos
    exact absurd (hn.all c ⟨le_rfl, by simp only [stop] at *; omega⟩) (hnot c)
  · have := hr.pos
    exact absurd (hr.all r.start ⟨le_rfl, by simp only [stop]; omega⟩) (hnot _)
  · exact fun x hx => absurd hx (hnot x)
  · exact fun x hx => absurd hx (hnot x)
  · change total < 8 * (total / 8 + 1)
    omega
  · exact (allReserved_tracked info base ht).word
  · exact fun x hx => absurd hx (hnot x)
  · exact fun x hx => ⟨hnot x, hheld x hx⟩

/-- In runs whose calls move no node that has a neighbour, the list is exact in every state,
and no allocation returns a page that is held. In such a state, a further call of at least
one page leaves an exact list only if it moves no such node either. -/
theorem freeList_exact {st0 : PmmRun} {ops : List PmmOp} (h0 : Initial st0)
    (h : Run QuietSteps st0 ops st) :
    (∃ l, FreeListExact st.pmm l) ∧ (∀ address s', pmmAllocatePage st.pmm = .ok (address, s') →
        pmmAddressToIndex address ∉ st.held) ∧
      (∀ turns n address s', pmmAllocatePages turns st.pmm n = .ok (address, s') →
        ∀ x ∈ List.range' (pmmAddressToIndex address) n, x ∉ st.held) ∧
      ∀ turns op st', pmmStep turns st op = some st' → (∀ f ∈ op.freed, 0 < f.2) →
        ((∃ l, FreeListExact st'.pmm l) ↔ Undisturbed turns st.pmm op) := by
  have hinv : ∃ rs, PmmInv st rs := by
    refine h.invariant (P := fun st => ∃ rs, PmmInv st rs) h0.inv ?_
    rintro st op st' ⟨rs, hrs⟩ ⟨turns, hu, hs⟩
    exact hrs.step hu hs
  obtain ⟨rs, hrs⟩ := hinv
  refine ⟨⟨_, hrs.exact_list⟩, ?_, ?_, ?_⟩
  · intro address s' hs
    obtain ⟨r, hr, -, -, rfl, -, -, -⟩ := hrs.allocatePage_ok hs
    exact hrs.fresh hr (hrs.tracked.runs.pos r hr) (by simp)
  · intro turns n address s' hs x hx
    obtain ⟨r, hr, -, rfl, hn, -, -⟩ := hrs.allocatePages_ok hs
    exact hrs.fresh hr hn hx
  · intro turns op st' hs hpos
    constructor
    · rintro ⟨l, hl⟩
      exact hrs.undisturbed hs hpos hl
    · intro hu
      obtain ⟨rs', hrs'⟩ := hrs.step hu hs
      exact ⟨_, hrs'.exact_list⟩

theorem quietStep_quietSteps (h : quietStep turns st op = some st') : QuietSteps st op st' := by
  unfold quietStep at h
  split_ifs at h with hu
  exact ⟨turns, hu, h⟩

theorem freeList_exact_five :
    ∃ st, Run QuietSteps ⟨allReserved (fun _ => .zero) 0x8000 10, [1, 2, 3, 4, 5]⟩
        [.freePages 0x1000 3, .allocatePage, .write 1 .zero, .freePage 0x5000, .allocatePages 2] st ∧
      ∃ l, FreeListExact st.pmm l := by
  have hsome : ([.freePages 0x1000 3, .allocatePage, .write 1 .zero, .freePage 0x5000,
      .allocatePages 2].foldlM (quietStep 3)
      ⟨allReserved (fun _ => .zero) 0x8000 10, [1, 2, 3, 4, 5]⟩).isSome := by
    decide +kernel
  obtain ⟨st, hst⟩ := Option.isSome_iff_exists.mp hsome
  have hrun := Run.of_foldlM (f := quietStep 3) (fun _ _ _ h => quietStep_quietSteps h) hst
  exact ⟨st, hrun, (freeList_exact (allReserved_initial (by decide) (by decide)) hrun).1⟩

/-- Two free runs; the node of the first one moves from page 1 to page 2, but the node at
page 4 still leads to page 1, which now belongs to a caller. The next request for two pages
finds the old record there and hands out page 1 again. -/
theorem page_handed_out_twice :
    ∃ st st' : PmmRun, Run Steps ⟨allReserved (fun _ => .zero) 0x8000 10, [1, 2, 4]⟩
        [.freePages 0x1000 2, .freePage 0x4000, .allocatePage] st ∧
      (¬ ∃ l, FreeListExact st.pmm l) ∧ 1 ∈ st.held ∧
      pmmStep 2 st (.allocatePages 2) = some st' ∧ st'.held = [1, 2, 1] := by
  have hfirst : ([.freePages 0x1000 2, .freePage 0x4000, .allocatePage].foldlM (pmmStep 3)
      ⟨allReserved (fun _ => .zero) 0x8000 10, [1, 2, 4]⟩).map (fun st =>
        (st.pmm.pmmLastFreeEntry, (st.pmm.info 4).last, st.pmm.pmmBitmap.bit 1, st.held,
          (pmmStep 2 st (.allocatePages 2)).map PmmRun.held)) =
      some (some 4, some 1, true, [1], some [1, 2, 1]) := by decide +kernel
  obtain ⟨st, hst, hval⟩ := Option.map_eq_some_iff.mp hfirst
  simp only [Prod.mk.injEq] at hval
  obtain ⟨hentry, hlast, hbit, hheld, hnext⟩ := hval
  obtain ⟨st', hst', hheld'⟩ := Option.map_eq_some_iff.mp hnext
  refine ⟨st, st', Run.of_foldlM (fun _ _ _ h => ⟨3, h⟩) hst, ?_, by simp [hheld], hst', hheld'⟩
  rintro ⟨l, hl⟩
  have h4 : 4 ∈ l := mem_of_mem_head? (hl.chained.entry.symm.trans hentry)
  have h1 : 1 ∈ l := hl.chained.link_mem h4 (.inl hlast)
  obtain ⟨n, hn⟩ := (hl.maximal 1).mp h1
  have hpos := hn.pos
  have hclear := hn.all 1 ⟨le_rfl, by simp only [stop] at *; omega⟩
  simp [hclear.2] at hbit

end Kot.Kernel.Pmm
