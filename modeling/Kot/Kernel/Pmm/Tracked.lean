import Mathlib.Tactic.Tauto
import Kot.Kernel.Pmm.RunNodes

/-! Bitmap and records agree: each maximal run of clear bits has its record in its first and
last page. Freeing pages and taking pages from the start of a run keep this, whatever the
links between the records are. -/
namespace Kot.Kernel.Pmm
open Kot.Lib List Interval

/-- No link of the nodes `l` and not the entry either leads into the bitmap. -/
structure PointersOk (s : PmmState) (l : List ℕ) : Prop where
  last : ∀ c ∈ l, ∀ page ∈ (s.info c).last, ¬ s.pmmBitmap.covers page
  next : ∀ c ∈ l, ∀ page ∈ (s.info c).next, ¬ s.pmmBitmap.covers page
  entry : ∀ page ∈ s.pmmLastFreeEntry, ¬ s.pmmBitmap.covers page

/-- The records of the runs `rs`. -/
structure Recorded (s : PmmState) (rs : List Interval) : Prop where
  stored : ∀ r ∈ rs, Stored s.info r
  pointers : PointersOk s (rs.map Interval.start)

/-- The clear bits are the pages of the runs `rs`, and the records say so. -/
structure Tracked (s : PmmState) (rs : List Interval) : Prop where
  runs : Runs s.pmmBitmap.Clear rs
  recorded : Recorded s rs
  uncovered : ∀ x, s.pmmBitmap.Clear x → ¬ s.pmmBitmap.covers x
  word : 8 * s.pmmBitmap.size < 2 ^ 64

variable {s s' s'' : PmmState} {r a b q : Interval} {c c' i n k x page : ℕ}
  {l l1 l2 m1 m2 : List Interval} {cs : List ℕ} {rs rs' : List Interval}

section
variable (hb : s'.pmmBitmap = s.pmmBitmap) (hp : PointersOk s cs)
include hb hp

theorem SameLinks.pointersOk (h : SameLinks s s') : PointersOk s' cs where
  last c hc page hpage := hb ▸ hp.last c hc page (h.last c ▸ hpage)
  next c hc page hpage := hb ▸ hp.next c hc page (h.next c ▸ hpage)
  entry page hpage := hb ▸ hp.entry page (h.entry ▸ hpage)

theorem Bypassed.pointersOk (h : Bypassed s s' c) (hc : c ∈ cs) : PointersOk s' cs := by
  refine ⟨fun d hd => ?_, fun d hd => ?_, ?_⟩ <;> rw [hb]
  · rw [h.last]
    split_ifs
    · exact hp.last c hc
    · exact hp.last d hd
  · rw [h.next]
    split_ifs
    · exact hp.next c hc
    · exact hp.next d hd
  · rw [h.entry]
    split_ifs
    · exact hp.last c hc
    · exact hp.entry

theorem Moved.pointersOk (h : Moved s s' c c') (hc : c ∈ cs) (hc' : ¬ s.pmmBitmap.covers c') :
    PointersOk s' (c' :: cs) := by
  refine ⟨fun d hd => ?_, fun d hd => ?_, ?_⟩ <;> rw [hb]
  · rw [h.last]
    split_ifs with hdc
    · exact hp.last c hc
    · exact hp.last d (by simpa [hdc] using hd)
  · rw [h.next]
    split_ifs with hdc
    · exact hp.next c hc
    · exact hp.next d (by simpa [hdc] using hd)
  · rw [h.entry]
    split_ifs
    · rintro page ⟨⟩
      exact hc'
    · exact hp.entry

theorem Pushed.pointersOk (h : Pushed s s' c) (hc : ¬ s.pmmBitmap.covers c) : PointersOk s' (c :: cs) := by
  have hself : ∀ page ∈ some c, ¬ s.pmmBitmap.covers page := by
    rintro page ⟨⟩
    exact hc
  refine ⟨fun d hd => ?_, fun d hd => ?_, ?_⟩ <;> rw [hb]
  · rw [h.last]
    split_ifs with hdc
    · exact hp.entry
    · exact hp.last d (by simpa [hdc] using hd)
  · rw [h.next]
    split_ifs with hde hdc
    · exact hself
    · exact nofun
    · exact hp.next d (by simpa [hdc] using hd)
  · exact h.entry ▸ hself

end

theorem PointersOk.mono {cs' : List ℕ} (h : PointersOk s cs) (hs : ∀ c ∈ cs', c ∈ cs) :
    PointersOk s cs' :=
  ⟨fun c hc => h.last c (hs c hc), fun c hc => h.next c (hs c hc), h.entry⟩

theorem Recorded.congr (h : Recorded s rs) (hi : s'.info = s.info)
    (he : s'.pmmLastFreeEntry = s.pmmLastFreeEntry)
    (hc : ∀ x, s'.pmmBitmap.covers x ↔ s.pmmBitmap.covers x) : Recorded s' rs where
  stored r hr := hi ▸ h.stored r hr
  pointers := by
    refine ⟨fun c hcs => ?_, fun c hcs => ?_, ?_⟩ <;> simp only [hc]
    · exact hi ▸ h.pointers.last c hcs
    · exact hi ▸ h.pointers.next c hcs
    · exact he ▸ h.pointers.entry

theorem Tracked.congr (h : Tracked s rs) (hi : s'.info = s.info)
    (he : s'.pmmLastFreeEntry = s.pmmLastFreeEntry) (hb : s'.pmmBitmap = s.pmmBitmap) :
    Tracked s' rs where
  runs := hb ▸ h.runs
  recorded := h.recorded.congr hi he fun x => by rw [hb]
  uncovered := hb ▸ h.uncovered
  word := hb ▸ h.word

theorem Installed.stored_apart (h : Installed s s' r) (hq : Stored s.info q) (hq0 : 0 < q.count)
    (hqr : q.Apart r) : Stored s'.info q := by
  have hmem : ∀ x ∈ q, x ∉ r := by
    intro x hx hxr
    simp only [Interval.Apart, mem_iff] at *
    omega
  refine hq.congr (h.frame _ (hmem _ ?_)) (h.frame _ (hmem _ ?_)) <;>
    simp only [mem_iff, stop] <;> omega

/-- Pages that can be given back: in use, inside the bitmap and not holding it. -/
structure Freeable (s : PmmState) (i n : ℕ) : Prop where
  pos : 0 < n
  first : 1 ≤ i
  bound : i + n < 8 * s.pmmBitmap.size
  used : ∀ x, i ≤ x → x < i + n → ¬ s.pmmBitmap.Clear x
  uncovered : ∀ x, i ≤ x → x < i + n → ¬ s.pmmBitmap.covers x

/-- How the runs and the links change when the pages `i, …, i + n - 1` are added. -/
inductive Added (s s' : PmmState) (i n : ℕ) : List Interval → List Interval → Prop
  | both {a b : Interval} {l1 l2 m1 m2 : List Interval} (ha : a.stop = i) (hb : b.start = i + n)
      (hl : l1 ++ l2 = m1 ++ a :: m2) (hin : Installed s s' ⟨a.start, a.count + n + b.count⟩)
      (hlink : Bypassed s s' b.start) :
      Added s s' i n (l1 ++ b :: l2) (m1 ++ ⟨a.start, a.count + n + b.count⟩ :: m2)
  | next {b : Interval} {l1 l2 : List Interval} (hb : b.start = i + n)
      (hlast : ¬ s.pmmBitmap.Clear (i - 1)) (hin : Installed s s' ⟨i, n + b.count⟩)
      (hlink : Moved s s' b.start i) :
      Added s s' i n (l1 ++ b :: l2) (l1 ++ ⟨i, n + b.count⟩ :: l2)
  | last {a : Interval} {l1 l2 : List Interval} (ha : a.stop = i)
      (hnext : ¬ s.pmmBitmap.Clear (i + n)) (hin : Installed s s' ⟨a.start, a.count + n⟩)
      (hlink : SameLinks s s') :
      Added s s' i n (l1 ++ a :: l2) (l1 ++ ⟨a.start, a.count + n⟩ :: l2)
  | new {l : List Interval} (hlast : ¬ s.pmmBitmap.Clear (i - 1))
      (hnext : ¬ s.pmmBitmap.Clear (i + n)) (hin : Installed s s' ⟨i, n⟩)
      (hlink : Pushed s s' i) : Added s s' i n l (⟨i, n⟩ :: l)

theorem Tracked.bounds (h : Tracked s rs) (hr : r ∈ rs) :
    0 < r.count ∧ r.stop ≤ 8 * s.pmmBitmap.size := by
  have hpos := h.runs.pos r hr
  have hlast := h.runs.all hr (i := r.stop - 1) (by simp only [mem_iff, stop]; omega)
  have := hlast.1
  omega

theorem Tracked.run_uncovered (h : Tracked s rs) (hr : r ∈ rs) :
    ∀ x ∈ r, ¬ s.pmmBitmap.covers x := fun x hx => h.uncovered x (h.runs.all hr hx)

theorem Tracked.run_after (h : Tracked s rs) (hc : s.pmmBitmap.Clear x)
    (hu : ∀ y, y + 1 = x → ¬ s.pmmBitmap.Clear y) : ∃ b ∈ rs, b.start = x := by
  obtain ⟨b, hb, hx⟩ := (h.runs.covers x).mp hc
  refine ⟨b, hb, ?_⟩
  by_contra hne
  refine hu (x - 1) ?_ (h.runs.all hb ?_) <;> simp only [mem_iff] at * <;> omega

theorem Tracked.run_before (h : Tracked s rs) (hc : s.pmmBitmap.Clear x)
    (hu : ¬ s.pmmBitmap.Clear (x + 1)) : ∃ a ∈ rs, a.stop = x + 1 := by
  obtain ⟨a, ha, hx⟩ := (h.runs.covers x).mp hc
  refine ⟨a, ha, ?_⟩
  by_contra hne
  refine hu (h.runs.all ha ?_)
  simp only [mem_iff] at *
  omega

private theorem clear_iff (hx : x < 8 * s.pmmBitmap.size) {v : Bool} (hv : s.pmmBitmap.bit x = v) :
    s.pmmBitmap.Clear x ↔ v = false := by
  simp [Bitmap.Clear, hx, hv]

theorem pmmAddPageToFreeList_spec (h : Tracked s rs) (hf : Freeable s i n) :
    ∃ s' rs', pmmAddPageToFreeList s i n = .ok s' ∧ Added s s' i n rs rs' := by
  obtain ⟨hpos, hfirst, hbound, hused, hunc⟩ := hf
  have hword := h.word
  have hadd : wadd i n = i + n := wadd_of_lt (by omega)
  have hsub := wsub_of_le (by omega) hfirst
  have hi := hunc i le_rfl (by omega)
  have hprev : ∀ y, y + 1 = i + n → ¬ s.pmmBitmap.Clear y := fun y hy => hused y (by omega) (by omega)
  have hsucc : ¬ s.pmmBitmap.Clear (i - 1 + 1) := hused _ (by omega) (by omega)
  unfold pmmAddPageToFreeList
  rw [hadd, hsub, bitmapGetBit_eq (by omega), bitmapGetBit_eq (by omega)]
  have hnext := clear_iff (by omega) rfl
  have hlast := clear_iff (s := s) (x := i - 1) (by omega) rfl
  generalize s.pmmBitmap.bit (i + n) = nextUsed at *
  generalize s.pmmBitmap.bit (i - 1) = lastUsed at *
  simp only [ok_bind]
  cases nextUsed with
  | false =>
    obtain ⟨b, hb, hbi⟩ := h.run_after (hnext.mpr rfl) hprev
    obtain ⟨hb0, hb8⟩ := h.bounds hb
    obtain ⟨l1, l2, rfl⟩ := append_of_mem hb
    cases lastUsed with
    | false =>
      obtain ⟨a, ha, hai⟩ := h.run_before (hlast.mpr rfl) hsucc
      have hab : a ∈ l1 ++ l2 := by
        have hne : a ≠ b := by
          rintro rfl
          simp only [stop] at *
          omega
        simpa [hne] using ha
      obtain ⟨m1, m2, hm⟩ := append_of_mem hab
      obtain ⟨s', hs', hin, hby⟩ := joinBoth_spec (h.recorded.stored b hb) hb0 (by omega)
        (h.run_uncovered hb) (h.recorded.stored a ha) (h.bounds ha).1 (by omega) hbi (h.run_uncovered ha)
        (h.recorded.pointers.last _ (mem_map_of_mem hb))
        (h.recorded.pointers.next _ (mem_map_of_mem hb))
      exact ⟨s', _, hs', .both (by omega) hbi hm hin hby⟩
    | true =>
      obtain ⟨s', hs', hin, hmv⟩ := joinNext_spec (h.recorded.stored b hb) hb0 (by omega)
        (h.run_uncovered hb) hbi hi
      exact ⟨s', _, hs', .next hbi (by simpa using hlast) hin hmv⟩
  | true =>
    cases lastUsed with
    | false =>
      obtain ⟨a, ha, hai⟩ := h.run_before (hlast.mpr rfl) hsucc
      obtain ⟨s', hs', hin, hsl⟩ := joinLast_spec (h.recorded.stored a ha) (h.bounds ha).1
        (i := i) (by omega) hpos (by omega) (h.run_uncovered ha)
        (hunc _ (by omega) (by omega))
      obtain ⟨l1, l2, rfl⟩ := append_of_mem ha
      exact ⟨s', _, hs', .last (by omega) (by simpa using hnext) hin hsl⟩
    | true =>
      obtain ⟨s', hs', hin, hpu⟩ := newRun_spec hpos (by omega) hi (hunc _ (by omega) (by omega))
        h.recorded.pointers.entry
      exact ⟨s', _, hs', .new (by simpa using hlast) (by simpa using hnext) hin hpu⟩

theorem Added.runs {P : ℕ → Prop} (ha : Added s s' i n rs rs') (h : Runs s.pmmBitmap.Clear rs)
    (hf : Freeable s i n) (hp : ∀ x, P x ↔ s.pmmBitmap.Clear x ∨ i ≤ x ∧ x < i + n) :
    Runs P rs' := by
  obtain ⟨hpos, hfirst, -, hused, -⟩ := hf
  cases ha with
  | @both a b l1 l2 m1 m2 ha hb hl _ _ =>
    have hperm : (l1 ++ b :: l2).Perm (b :: a :: (m1 ++ m2)) := by
      refine perm_middle.trans (.cons b ?_)
      rw [hl]
      exact perm_middle
    have hab := h.perm hperm
    have hbmem : b ∈ b :: a :: (m1 ++ m2) := by simp
    have hamem : a ∈ b :: a :: (m1 ++ m2) := by simp
    have hmem : ∀ x, x ∈ (⟨a.start, a.count + n + b.count⟩ : Interval) ↔
        x ∈ a ∨ (i ≤ x ∧ x < i + n) ∨ x ∈ b := by
      intro x
      simp only [mem_iff, stop] at *
      omega
    have hstop : (⟨a.start, a.count + n + b.count⟩ : Interval).stop = b.stop := by
      simp only [stop] at *
      omega
    refine Runs.perm (Runs.grow (hab.tail fun _ => Iff.rfl) ?_ ?_ ?_ ?_ ?_) perm_middle.symm
    · exact fun x hx => (hmem x).mpr (.inl hx)
    · rintro x hx ⟨hc, hxb⟩
      rcases (hmem x).mp hx with hxa | hxi | hxb'
      · exact hxa
      · exact absurd hc (hused x hxi.1 hxi.2)
      · exact absurd hxb' hxb
    · exact fun x hx hc => hab.before hamem hx hc.1
    · rw [hstop]
      exact fun hc => hab.after hbmem hc.1
    · intro x
      have hxa : x ∈ a → s.pmmBitmap.Clear x := hab.all hamem
      have hxb : x ∈ b → s.pmmBitmap.Clear x := hab.all hbmem
      rw [hp, hmem]
      tauto
  | @next b l1 l2 hb hlast _ _ =>
    have hbl := h.perm perm_middle
    have hbmem : b ∈ b :: (l1 ++ l2) := by simp
    have hmem : ∀ x, x ∈ (⟨i, n + b.count⟩ : Interval) ↔ (i ≤ x ∧ x < i + n) ∨ x ∈ b := by
      intro x
      simp only [mem_iff, stop] at *
      omega
    have hstop : (⟨i, n + b.count⟩ : Interval).stop = b.stop := by
      simp only [stop] at *
      omega
    refine Runs.perm (Runs.grow hbl ?_ ?_ ?_ ?_ ?_) perm_middle.symm
    · exact fun x hx => (hmem x).mpr (.inr hx)
    · intro x hx hc
      rcases (hmem x).mp hx with hxi | hxb
      · exact absurd hc (hused x hxi.1 hxi.2)
      · exact hxb
    · intro x hx
      rwa [show x = i - 1 by dsimp only at hx; omega]
    · rw [hstop]
      exact hbl.after hbmem
    · intro x
      have hxb : x ∈ b → s.pmmBitmap.Clear x := hbl.all hbmem
      rw [hp, hmem]
      tauto
  | @last a l1 l2 ha hnext _ _ =>
    have hal := h.perm perm_middle
    have hamem : a ∈ a :: (l1 ++ l2) := by simp
    have hmem : ∀ x, x ∈ (⟨a.start, a.count + n⟩ : Interval) ↔ x ∈ a ∨ (i ≤ x ∧ x < i + n) := by
      intro x
      simp only [mem_iff, stop] at *
      omega
    have hstop : (⟨a.start, a.count + n⟩ : Interval).stop = i + n := by
      simp only [stop] at *
      omega
    refine Runs.perm (Runs.grow hal ?_ ?_ ?_ ?_ ?_) perm_middle.symm
    · exact fun x hx => (hmem x).mpr (.inl hx)
    · intro x hx hc
      rcases (hmem x).mp hx with hxa | hxi
      · exact hxa
      · exact absurd hc (hused x hxi.1 hxi.2)
    · exact fun x hx => hal.before hamem hx
    · rwa [hstop]
    · intro x
      have hxa : x ∈ a → s.pmmBitmap.Clear x := hal.all hamem
      rw [hp, hmem]
      tauto
  | new hlast hnext _ _ =>
    refine h.cons hpos (fun x hx => hused x hx.1 hx.2) ?_ hnext hp
    intro x hx
    rwa [show x = i - 1 by dsimp only at hx; omega]

private theorem recorded_of_installed {P : ℕ → Prop} (hin : Installed s s' r)
    (hst : ∀ q ∈ l, Stored s.info q) (hruns : Runs P (l1 ++ r :: l2)) (hl : ∀ q ∈ l1 ++ l2, q ∈ l) :
    ∀ q ∈ l1 ++ r :: l2, Stored s'.info q := by
  intro q hq
  by_cases hqr : q = r
  · subst hqr
    exact hin.stored
  · refine hin.stored_apart (hst q (hl q ?_)) (hruns.pos q hq) ?_
    · simpa [hqr] using hq
    · exact hruns.apart_of_ne hq (by simp) hqr

theorem Moved.recorded {P : ℕ → Prop} (hlink : Moved s s' q.start r.start) (hin : Installed s s' r)
    (h : Recorded s (l1 ++ q :: l2)) (hc : ¬ s.pmmBitmap.covers r.start)
    (hr : Runs P (l1 ++ r :: l2)) : Recorded s' (l1 ++ r :: l2) := by
  have hsub := (sublist_cons_self q l2 |>.append_left l1).subset
  refine ⟨recorded_of_installed hin h.stored hr fun q hq => hsub hq, ?_⟩
  refine (hlink.pointersOk hin.same.bitmap h.pointers (by simp) hc).mono ?_
  intro c hc
  simp only [map_append, map_cons, mem_append, mem_cons] at hc ⊢
  rcases hc with hc | hc | hc
  · exact .inr (.inl hc)
  · exact .inl hc
  · exact .inr (.inr (.inr hc))

theorem Added.recorded {P : ℕ → Prop} (ha : Added s s' i n rs rs') (h : Recorded s rs)
    (hi : ¬ s.pmmBitmap.covers i) (hr : Runs P rs') : Recorded s' rs' := by
  cases ha with
  | @both a b l1 l2 m1 m2 _ _ hl hin hlink =>
    have hsub' : ∀ q ∈ m1 ++ a :: m2, q ∈ l1 ++ b :: l2 := by
      rw [← hl]
      exact (sublist_cons_self b l2 |>.append_left l1).subset
    have hsub : ∀ q ∈ m1 ++ m2, q ∈ l1 ++ b :: l2 := fun q hq =>
      hsub' q ((sublist_cons_self a m2 |>.append_left m1).subset hq)
    have ha := hsub' a (by simp)
    refine ⟨recorded_of_installed hin h.stored hr hsub, ?_⟩
    refine (hlink.pointersOk hin.same.bitmap h.pointers (by simp)).mono ?_
    intro c hc
    obtain ⟨q, hq, rfl⟩ := mem_map.mp hc
    rcases mem_append.mp hq with hq | hq
    · exact mem_map_of_mem (hsub q (by simp [hq]))
    · rcases mem_cons.mp hq with rfl | hq
      · exact mem_map.mpr ⟨a, ha, rfl⟩
      · exact mem_map_of_mem (hsub q (by simp [hq]))
  | next hb _ hin hlink => exact hlink.recorded hin h hi hr
  | @last a l1 l2 _ _ hin hlink =>
    have hsub := (sublist_cons_self a l2 |>.append_left l1).subset
    refine ⟨recorded_of_installed hin h.stored hr fun q hq => hsub hq, ?_⟩
    refine (hlink.pointersOk hin.same.bitmap h.pointers).mono ?_
    simp
  | new _ _ hin hlink =>
    refine ⟨recorded_of_installed hin h.stored (show Runs _ ([] ++ _ :: _) from hr) (by simp), ?_⟩
    exact hlink.pointersOk hin.same.bitmap h.pointers hi

/-- The bits of `i, …, i + n - 1` are `v` and the others as before. -/
structure BitsSet (b b' : Bitmap) (i n : ℕ) (v : Bool) : Prop where
  place : b.SamePlace b'
  bit : ∀ x, b'.bit x = if i ≤ x ∧ x < i + n then v else b.bit x

theorem BitsSet.covers {b b' : Bitmap} {v : Bool} (h : BitsSet b b' i n v) :
    b'.covers x ↔ b.covers x := by
  unfold Bitmap.covers
  rw [h.place.1, h.place.2]

theorem BitsSet.clear_false {b b' : Bitmap} (h : BitsSet b b' i n false)
    (hb : 0 < n → i + n ≤ 8 * b.size) : b'.Clear x ↔ b.Clear x ∨ i ≤ x ∧ x < i + n := by
  unfold Bitmap.Clear
  rw [h.place.2, h.bit]
  split_ifs <;> simp <;> omega

theorem BitsSet.clear_true {b b' : Bitmap} (h : BitsSet b b' i n true) :
    b'.Clear x ↔ b.Clear x ∧ ¬ (i ≤ x ∧ x < i + n) := by
  unfold Bitmap.Clear
  rw [h.place.2, h.bit]
  split_ifs with hx <;> simp [hx]

/-- What a call of `pmm_free_pages_index` leaves, given the list that `s1` holds. -/
def freedState (s s1 : PmmState) (bitmap : Bitmap) (i n : ℕ) : PmmState :=
  { s with
    info := s1.info
    pmmLastFreeEntry := s1.pmmLastFreeEntry
    pmmBitmap := bitmap
    availablePages := wadd s.availablePages n
    usedPages := wsub s.usedPages n
    pmmFirstFreePageIndex := if i < s.pmmFirstFreePageIndex then i else s.pmmFirstFreePageIndex }

theorem pmmFreePagesIndex_spec (h : Tracked s rs) (hf : Freeable s i n) (hlock : s.pmmLock = false) :
    ∃ s1 rs' b, Added { s with pmmLock := true } s1 i n rs rs' ∧ BitsSet s.pmmBitmap b i n false ∧
      pmmFreePagesIndex s i n = .ok (freedState s s1 b i n) ∧
      Tracked (freedState s s1 b i n) rs' := by
  have hword := h.word
  have hbound := hf.bound
  have hL : Tracked { s with pmmLock := true } rs := h.congr rfl rfl rfl
  have hfL : Freeable { s with pmmLock := true } i n :=
    ⟨hf.pos, hf.first, hf.bound, hf.used, hf.uncovered⟩
  obtain ⟨s1, rs', hs1, hadd⟩ := pmmAddPageToFreeList_spec hL hfL
  have hvars : SameVars { s with pmmLock := true } s1 := by
    cases hadd with
    | both _ _ _ hin _ | next _ _ hin _ | last _ _ hin _ | new _ _ hin _ => exact hin.same
  obtain ⟨b, hb, hplace, hbit⟩ := bitmapSetBits_spec (b := s.pmmBitmap) (i := i) (n := n)
    (by omega) (by omega)
  have hset : BitsSet s.pmmBitmap b i n false := ⟨hplace, hbit⟩
  refine ⟨s1, rs', b, hadd, hset, ?_, ?_⟩
  · have hacq : s.acquire = .ok { s with pmmLock := true } := by simp [PmmState.acquire, hlock]
    unfold pmmFreePagesIndex clearPages
    rw [hacq, ok_bind, hs1, ok_bind, hvars.bitmap, hb, ok_bind, ok_bind, hvars]
    simp [PmmState.release, freedState, hlock]
  · have hruns := hadd.runs h.runs hfL fun x => hset.clear_false (by omega)
    have hrec := hadd.recorded hL.recorded (hf.uncovered i le_rfl (by have := hf.pos; omega)) hruns
    refine ⟨hruns, hrec.congr rfl rfl fun x => ?_, fun x hx => ?_, ?_⟩
    · rw [hvars.bitmap]
      exact hset.covers
    · change ¬ b.covers x
      rw [hset.covers]
      rcases (hset.clear_false (by omega)).mp hx with hx | hx
      · exact h.uncovered x hx
      · exact hf.uncovered x hx.1 hx.2
    · change 8 * b.size < _
      rw [hplace.2]
      exact hword

theorem allReserved_not_clear (info : ℕ → FreeListInfo) (base total x : ℕ) :
    ¬ (allReserved info base total).pmmBitmap.Clear x := by
  intro hx
  have : (bitmapInit base (total / 8 + 1) true).bit x = false := hx.2
  simp [bitmapInit_bit] at this

theorem allReserved_tracked (info : ℕ → FreeListInfo) (base : ℕ) {total : ℕ} (ht : total < 2 ^ 60) :
    Tracked (allReserved info base total) [] := by
  have hnot := allReserved_not_clear info base total
  refine ⟨runs_nil hnot, ⟨by simp, by simp, by simp, ?_⟩, fun x hx => absurd hx (hnot x), ?_⟩
  · simp [allReserved]
  · change 8 * (total / 8 + 1) < _
    omega

end Kot.Kernel.Pmm
