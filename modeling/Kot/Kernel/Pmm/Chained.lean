import Kot.Lib.Linked
import Kot.Kernel.Pmm.Taking

/-! The order of the free list. Its nodes are reached from the entry through `last`, and
`next` leads back. Taking a node out, putting one in and rewriting one in place keep the
list; moving a node to another page keeps it only if the node has no neighbour. -/
namespace Kot.Kernel.Pmm
open Kot.Lib List

/-- The list from the entry through `last` is `l`, and `next` leads back. -/
structure Chained (s : PmmState) (l : List ℕ) : Prop where
  entry : s.pmmLastFreeEntry = l.head?
  linked : Linked (fun p => (s.info p).last) (fun p => (s.info p).next) none l none

def Alone (s : PmmState) (c : ℕ) : Prop := (s.info c).last = none ∧ (s.info c).next = none

instance (s : PmmState) (c : ℕ) : Decidable (Alone s c) := inferInstanceAs (Decidable (_ ∧ _))

variable {s s' t : PmmState} {c c' i k n turns : ℕ} {l l1 l2 : List ℕ}
  {P : ℕ → Prop} {rs rs' : List Interval}

theorem Chained.congr (h : Chained s l) (hi : s'.info = s.info)
    (he : s'.pmmLastFreeEntry = s.pmmLastFreeEntry) : Chained s' l :=
  ⟨he.trans h.entry, hi ▸ h.linked⟩

theorem Chained.link_mem {d : ℕ} (h : Chained s l) (hc : c ∈ l)
    (hd : (s.info c).last = some d ∨ (s.info c).next = some d) : d ∈ l := by
  obtain ⟨l1, l2, rfl⟩ := append_of_mem hc
  obtain ⟨hn, hl⟩ := h.linked.mid
  simp only [Option.or_none] at hn hl
  rcases hd with hd | hd
  · simp [mem_of_mem_head? (hl.symm.trans hd)]
  · simp [mem_of_getLast? (hn.symm.trans hd)]

theorem Chained.pointersOk (h : Chained s l) (hl : ∀ c ∈ l, ¬ s.pmmBitmap.covers c) :
    PointersOk s l where
  last _ hc d hd := hl d (h.link_mem hc (.inl hd))
  next _ hc d hd := hl d (h.link_mem hc (.inr hd))
  entry d hd := hl d (mem_of_mem_head? (h.entry.symm.trans hd))

theorem SameLinks.chained (hs : SameLinks s s') (h : Chained s l) : Chained s' l :=
  ⟨hs.entry.trans h.entry, h.linked.congr (fun x _ => hs.last x) fun x _ => hs.next x⟩

theorem Bypassed.chained (hs : Bypassed s s' c) (h : Chained s (l1 ++ c :: l2))
    (hd : (l1 ++ c :: l2).Nodup) : Chained s' (l1 ++ l2) := by
  obtain ⟨hn, hl⟩ := h.linked.mid
  simp only [Option.or_none] at hn hl
  constructor
  · rw [hs.entry, h.entry, hl]
    cases l1 with
    | nil => simp
    | cons a l =>
      have hne : a ≠ c := by
        rintro rfl
        simp at hd
      simp [hne]
  · refine h.linked.remove hd (fun x _ => ?_) fun x _ => ?_
    · rw [hs.last, hn, hl, Option.or_none]
    · rw [hs.next, hn, hl, Option.or_none]

theorem Pushed.chained (hs : Pushed s s' c) (h : Chained s l) (hd : l.Nodup) (hc : c ∉ l) :
    Chained s' (c :: l) := by
  have hent : s.pmmLastFreeEntry ≠ some c := by
    rw [h.entry]
    exact fun hx => hc (mem_of_mem_head? hx)
  have hne : ∀ a ∈ l, a ≠ c := fun a ha hac => hc (hac ▸ ha)
  refine ⟨hs.entry, ?_, ?_, h.linked.relink_left hd (fun a ha => ?_) fun a ha => ?_⟩
  · change (s'.info c).next = none
    rw [hs.next, if_neg hent, if_pos rfl]
  · change (s'.info c).last = _
    rw [hs.last, if_pos rfl, h.entry, Option.or_none]
  · rw [hs.last, if_neg (hne a ha)]
  · rw [hs.next, h.entry, if_neg (hne a ha)]

theorem Moved.chained (hs : Moved s s' c c') (h : Chained s (l1 ++ c :: l2)) (ha : Alone s c) :
    Chained s' (l1 ++ c' :: l2) := by
  obtain ⟨hn, hl⟩ := h.linked.mid
  simp only [Option.or_none] at hn hl
  obtain rfl : l1 = [] := getLast?_eq_none_iff.mp (hn.symm.trans ha.2)
  obtain rfl : l2 = [] := head?_eq_none_iff.mp (hl.symm.trans ha.1)
  refine ⟨?_, ?_, ?_, trivial⟩
  · rw [hs.entry, h.entry]
    simp
  · change (s'.info c').next = none
    rw [hs.next, if_pos rfl, ha.2]
  · change (s'.info c').last = none
    rw [hs.last, if_pos rfl, ha.1]

/-- Conversely, if there is a list of the same nodes with the new page in place of the old one,
then the moved node had no neighbours: a neighbour would still lead to the old page. -/
theorem Moved.alone (hs : Moved s s' c c') (h : Chained s (l1 ++ c :: l2))
    (hd : (l1 ++ c :: l2).Nodup) (hc' : c' ∉ l1 ++ c :: l2) (h' : Chained s' l)
    (hl : ∀ x, x ∈ l ↔ x ∈ l1 ++ c' :: l2) : Alone s c := by
  obtain ⟨hn, hla⟩ := h.linked.mid
  simp only [Option.or_none] at hn hla
  have hstale : ∀ z ∈ l1 ++ l2, (s.info z).last ≠ some c ∧ (s.info z).next ≠ some c := by
    intro z hz
    have hzl := (sublist_cons_self c l2 |>.append_left l1).subset hz
    have hzc : z ≠ c' := fun hx => hc' (hx ▸ hzl)
    have hzl' : z ∈ l := (hl z).mpr ((sublist_cons_self c' l2 |>.append_left l1).subset hz)
    have hcl : c ∉ l := by
      rw [hl]
      obtain ⟨-, hd2, hd12⟩ := nodup_append.mp hd
      simp only [mem_append, mem_cons, not_or]
      refine ⟨fun hx => hd12 c hx c (by simp) rfl, ?_, (nodup_cons.mp hd2).1⟩
      rintro rfl
      exact hc' (by simp)
    constructor <;> intro hx
    · exact hcl (h'.link_mem hzl' (.inl (by rw [hs.last, if_neg hzc, hx])))
    · exact hcl (h'.link_mem hzl' (.inr (by rw [hs.next, if_neg hzc, hx])))
  constructor
  · rw [hla]
    cases l2 with
    | nil => rfl
    | cons z m =>
      have hk : Linked (fun p => (s.info p).last) (fun p => (s.info p).next) none
          ((l1 ++ [c]) ++ z :: m) none := by
        rw [append_assoc]
        exact h.linked
      exact absurd (by simpa using hk.mid.1) (hstale z (by simp)).2
  · rw [hn]
    rcases eq_nil_or_concat l1 with rfl | ⟨m, z, rfl⟩
    · rfl
    · have hk : Linked (fun p => (s.info p).last) (fun p => (s.info p).next) none
          (m ++ z :: c :: l2) none := by
        simpa using h.linked
      exact absurd (by simpa using hk.mid.2) (hstale z (by simp)).1

theorem Moved.chained_self (hs : Moved s s' c c) (h : Chained s l) : Chained s' l := by
  refine ⟨?_, h.linked.congr (fun x _ => ?_) fun x _ => ?_⟩
  · rw [hs.entry, ← h.entry]
    split_ifs with he
    · exact he.symm
    · rfl
  · rw [hs.last]
    split_ifs with hx
    · rw [hx]
    · rfl
  · rw [hs.next]
    split_ifs with hx
    · rw [hx]
    · rfl

/-- The list after pages were added: whole, unless the node of the run behind them moved
away from its neighbours. -/
theorem Added.chained (ha : Added s s' i n rs rs') (h : Chained s (rs.map Interval.start))
    (hr : Runs s.pmmBitmap.Clear rs) (hf : Freeable s i n)
    (hm : s.pmmBitmap.Clear (i + n) → ¬ s.pmmBitmap.Clear (i - 1) → Alone s (i + n)) :
    Chained s' (rs'.map Interval.start) := by
  have hd := hr.starts_nodup
  cases ha with
  | @both a b l1 l2 m1 m2 _ _ hl _ hlink =>
    have hstarts : (m1 ++ (⟨a.start, a.count + n + b.count⟩ : Interval) :: m2).map Interval.start =
        l1.map Interval.start ++ l2.map Interval.start := by
      rw [← map_append, hl]
      simp
    rw [map_append, map_cons] at h hd
    rw [hstarts]
    exact hlink.chained h hd
  | @next b l1 l2 hb hlast _ hlink =>
    rw [map_append, map_cons] at h ⊢
    refine hlink.chained h (hb ▸ hm ?_ hlast)
    exact hb ▸ hr.all (by simp) (hr.start_mem (by simp))
  | last _ _ _ hlink => simpa using hlink.chained h
  | new _ _ _ hlink =>
    rw [map_cons]
    refine hlink.chained h hd fun hi => ?_
    obtain ⟨q, hq, hqi⟩ := mem_map.mp hi
    refine hf.used i le_rfl (by have := hf.pos; omega) ?_
    exact hqi ▸ hr.all hq (hr.start_mem hq)

theorem Added.alone (ha : Added s s' i n rs rs') (h : Chained s (rs.map Interval.start))
    (hr : Runs s.pmmBitmap.Clear rs) (hf : Freeable s i n) (h' : Chained s' l)
    (hl : ∀ x, x ∈ l ↔ x ∈ rs'.map Interval.start) (hc : s.pmmBitmap.Clear (i + n))
    (hc' : ¬ s.pmmBitmap.Clear (i - 1)) : Alone s (i + n) := by
  cases ha with
  | @both a b l1 l2 m1 m2 hai _ hm _ _ =>
    have ha : a ∈ l1 ++ b :: l2 :=
      (sublist_cons_self b l2 |>.append_left l1).subset (by rw [hm]; simp)
    have hpos := hr.pos a ha
    refine absurd (hr.all ha ?_) hc'
    simp only [Interval.mem_iff, Interval.stop] at *
    omega
  | @next b l1 l2 hb _ _ hlink =>
    have hd := hr.starts_nodup
    have hi : i ∉ (l1 ++ b :: l2).map Interval.start := by
      intro hi
      obtain ⟨q, hq, hqi⟩ := mem_map.mp hi
      refine hf.used i le_rfl (by have := hf.pos; omega) ?_
      exact hqi ▸ hr.all hq (hr.start_mem hq)
    rw [map_append, map_cons] at h hl hd hi
    exact hb ▸ hlink.alone h hd hi h' hl
  | last _ hnext _ _ | new _ hnext _ _ => exact absurd hc hnext

/-- The list after pages were taken: whole, unless the rest of the run moved away from the
neighbours of its node. -/
theorem Taken.chained (ht : Taken s s' i k rs rs') (h : Chained s (rs.map Interval.start))
    (hd : (rs.map Interval.start).Nodup)
    (hm : ∀ r ∈ rs, r.start = i → r.count ≠ k → k ≠ 0 → Alone s i) :
    Chained s' (rs'.map Interval.start) := by
  cases ht with
  | whole hi _ _ _ hlink =>
    subst hi
    rw [map_append, map_cons] at h hd
    rw [map_append]
    exact hlink.chained h hd
  | @part r l1 l2 hi hk _ hlink =>
    subst hi
    rw [map_append, map_cons] at h ⊢
    by_cases hk0 : k = 0
    · subst hk0
      exact hlink.chained_self h
    · exact hlink.chained h (hm r (by simp) rfl (by omega) hk0)

theorem Taken.alone (ht : Taken s s' i k rs rs') (h : Chained s (rs.map Interval.start))
    (hr : Runs P rs) (h' : Chained s' l) (hl : ∀ x, x ∈ l ↔ x ∈ rs'.map Interval.start)
    (hk : ∀ r ∈ rs, r.start = i → r.count ≠ k) (hk0 : k ≠ 0) : Alone s i := by
  cases ht with
  | @whole r l1 l2 hi hcount _ _ _ => exact absurd hcount (hk r (by simp) hi)
  | @part r l1 l2 hi hlt _ hlink =>
    subst hi
    have hd := hr.starts_nodup
    have hnew : r.start + k ∉ (l1 ++ r :: l2).map Interval.start := by
      intro hx
      obtain ⟨q, hq, hqi⟩ := mem_map.mp hx
      have hmem : r.start + k ∈ r := by
        simp only [Interval.mem_iff, Interval.stop]
        omega
      obtain rfl := hr.eq_of_mem hq (by simp) (hqi ▸ hr.start_mem hq) hmem
      omega
    rw [map_append, map_cons] at h hl hd hnew
    exact hlink.alone h hd hnew h' hl

theorem findRun_mem {node : FreeListInfo} {p : Option ℕ}
    (h : Linked (fun p => (s.info p).last) (fun p => (s.info p).next) p l none)
    (hf : findRun s n turns l.head? = .ok node) :
    ∃ c ∈ l, node = s.info c ∧ n ≤ node.pageCount := by
  induction l generalizing turns p with
  | nil =>
    cases turns with
    | zero => cases hf
    | succ turns => cases hf
  | cons a l ih =>
    obtain ⟨-, hn, ht⟩ := h
    cases turns with
    | zero => cases hf
    | succ turns =>
      obtain ⟨m, hm, hf⟩ := bind_eq_ok hf
      simp only [PmmState.load, head?_cons] at hm
      split_ifs at hm
      cases hm
      split_ifs at hf with hlt
      · have hn : (s.info a).last = l.head? := by simpa using hn
        cases hl : (s.info a).last with
        | none => simp [hl] at hf
        | some d =>
          rw [hl] at hn
          simp only [hl] at hf
          rw [hn] at hf
          obtain ⟨c, hc, hnode⟩ := ih ht hf
          exact ⟨c, by simp [hc], hnode⟩
      · cases hf
        exact ⟨a, by simp, rfl, by omega⟩

end Kot.Kernel.Pmm
