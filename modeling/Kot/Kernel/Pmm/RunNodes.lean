import Kot.Lib.Intervals
import Kot.Kernel.Pmm.FreeList

/-! What the helpers of the free list write: the record of one run, and the links of the
node that they move, take out or put in. -/
namespace Kot.Kernel.Pmm
open Kot.Lib Interval PmmState

/-- The record of a free run: numbers and header in its first page, the back pointer in its
last page. -/
structure Stored (info : ℕ → FreeListInfo) (r : Interval) : Prop where
  headerEnd : (info r.start).headerEnd = some (r.stop - 1)
  headerStart : (info (r.stop - 1)).headerStart = some r.start
  indexStart : (info r.start).indexStart = r.start
  indexEnd : (info r.start).indexEnd = r.stop - 1
  pageCount : (info r.start).pageCount = r.count

/-- A record without its links. -/
def FreeListInfo.unlinked (r : FreeListInfo) : FreeListInfo := { r with last := none, next := none }

/-- Only records and the entry of the list differ. -/
def SameVars (s s' : PmmState) : Prop :=
  s' = { s with info := s'.info, pmmLastFreeEntry := s'.pmmLastFreeEntry }

/-- The record of `r` is in place, and outside `r` nothing but links has changed. -/
structure Installed (s s' : PmmState) (r : Interval) : Prop where
  same : SameVars s s'
  stored : Stored s'.info r
  frame : ∀ x, x ∉ r → (s'.info x).unlinked = (s.info x).unlinked

structure SameLinks (s s' : PmmState) : Prop where
  next : ∀ x, (s'.info x).next = (s.info x).next
  last : ∀ x, (s'.info x).last = (s.info x).last
  entry : s'.pmmLastFreeEntry = s.pmmLastFreeEntry

/-- The neighbours of the node `c` and the entry skip it. -/
structure Bypassed (s s' : PmmState) (c : ℕ) : Prop where
  next : ∀ x, (s'.info x).next = if (s.info c).last = some x then (s.info c).next else (s.info x).next
  last : ∀ x, (s'.info x).last = if (s.info c).next = some x then (s.info c).last else (s.info x).last
  entry : s'.pmmLastFreeEntry =
    if s.pmmLastFreeEntry = some c then (s.info c).last else s.pmmLastFreeEntry

/-- The node `c'` gets the links of `c`, and the entry follows; the neighbours do not. -/
structure Moved (s s' : PmmState) (c c' : ℕ) : Prop where
  next : ∀ x, (s'.info x).next = if x = c' then (s.info c).next else (s.info x).next
  last : ∀ x, (s'.info x).last = if x = c' then (s.info c).last else (s.info x).last
  entry : s'.pmmLastFreeEntry =
    if s.pmmLastFreeEntry = some c then some c' else s.pmmLastFreeEntry

/-- The node `c` is put before the entry of the list. -/
structure Pushed (s s' : PmmState) (c : ℕ) : Prop where
  next : ∀ x, (s'.info x).next =
    if s.pmmLastFreeEntry = some x then some c else if x = c then none else (s.info x).next
  last : ∀ x, (s'.info x).last = if x = c then s.pmmLastFreeEntry else (s.info x).last
  entry : s'.pmmLastFreeEntry = some c

variable {s s' s'' : PmmState} {r a b : Interval} {c i n k x page : ℕ} {p : Option ℕ}
  {f : FreeListInfo → FreeListInfo} {node : FreeListInfo}

theorem SameVars.refl (s : PmmState) : SameVars s s := rfl

theorem SameVars.trans (h : SameVars s s') (h' : SameVars s' s'') : SameVars s s'' := by
  unfold SameVars at *
  rw [h', h]

theorem SameVars.bitmap (h : SameVars s s') : s'.pmmBitmap = s.pmmBitmap := by
  rw [h]

theorem modify_info :
    (s.modify page f).info x = if x = page then f (s.info x) else s.info x := by
  by_cases h : x = page
  · subst h
    simp [PmmState.modify]
  · simp [PmmState.modify, h]

@[simp] theorem modify_bitmap : (s.modify page f).pmmBitmap = s.pmmBitmap := rfl

@[simp] theorem modify_entry : (s.modify page f).pmmLastFreeEntry = s.pmmLastFreeEntry := rfl

@[simp] theorem modify_sameVars : SameVars s (s.modify page f) := rfl

theorem load_eq (h : ¬ s.pmmBitmap.covers page) : s.load (some page) = .ok (s.info page) := if_neg h

theorem store_eq (h : ¬ s.pmmBitmap.covers page) : s.store f (some page) = .ok (s.modify page f) :=
  if_neg h

theorem storeIfSome_eq (h : ∀ page ∈ p, ¬ s.pmmBitmap.covers page) :
    ∃ s', s.storeIfSome f p = .ok s' ∧ s'.pmmLastFreeEntry = s.pmmLastFreeEntry ∧ SameVars s s' ∧
      ∀ x, s'.info x = if p = some x then f (s.info x) else s.info x := by
  cases p with
  | none => exact ⟨s, rfl, rfl, .refl s, by simp⟩
  | some page =>
    refine ⟨_, store_eq (h page rfl), rfl, rfl, fun x => ?_⟩
    rw [modify_info]
    simp only [Option.some.injEq, eq_comm]

theorem store_sameVars (h : s.store f p = .ok s') : SameVars s s' := by
  cases p with
  | none => cases h
  | some page =>
    simp only [store] at h
    split_ifs at h
    cases h
    rfl

theorem storeIfSome_sameVars (h : s.storeIfSome f p = .ok s') : SameVars s s' := by
  cases p with
  | none =>
    cases h
    rfl
  | some page => exact store_sameVars (p := some page) h

theorem moveEntry_entry : (s.moveEntry c p).pmmLastFreeEntry =
    if s.pmmLastFreeEntry = some c then p else s.pmmLastFreeEntry := by
  unfold moveEntry
  split_ifs <;> rfl

@[simp] theorem moveEntry_info : (s.moveEntry c p).info = s.info := by
  unfold moveEntry
  split_ifs <;> rfl

@[simp] theorem moveEntry_bitmap : (s.moveEntry c p).pmmBitmap = s.pmmBitmap := by
  unfold moveEntry
  split_ifs <;> rfl

theorem moveEntry_sameVars : SameVars s (s.moveEntry c p) := by
  unfold moveEntry
  split_ifs <;> rfl

theorem Stored.congr {info info' : ℕ → FreeListInfo} (h : Stored info r)
    (hs : (info' r.start).unlinked = (info r.start).unlinked)
    (he : (info' (r.stop - 1)).unlinked = (info (r.stop - 1)).unlinked) : Stored info' r where
  headerEnd := (congrArg FreeListInfo.headerEnd hs).trans h.headerEnd
  headerStart := (congrArg FreeListInfo.headerStart he).trans h.headerStart
  indexStart := (congrArg FreeListInfo.indexStart hs).trans h.indexStart
  indexEnd := (congrArg FreeListInfo.indexEnd hs).trans h.indexEnd
  pageCount := (congrArg FreeListInfo.pageCount hs).trans h.pageCount

theorem Installed.relink (h : Installed s s' r) (hv : SameVars s' s'')
    (hu : ∀ x, (s''.info x).unlinked = (s'.info x).unlinked) : Installed s s'' r :=
  ⟨h.same.trans hv, h.stored.congr (hu _) (hu _), fun x hx => (hu x).trans (h.frame x hx)⟩

theorem Bypassed.of_sameLinks (h : Bypassed s' s'' c) (hs : SameLinks s s') : Bypassed s s'' c := by
  refine ⟨fun x => ?_, fun x => ?_, ?_⟩
  · rw [h.next, hs.next, hs.last, hs.next]
  · rw [h.last, hs.next, hs.last, hs.last]
  · rw [h.entry, hs.entry, hs.last]

theorem unlinkNode_spec (hl : ∀ page ∈ node.last, ¬ s.pmmBitmap.covers page)
    (hn : ∀ page ∈ node.next, ¬ s.pmmBitmap.covers page) (hnode : node.last = (s.info c).last)
    (hnode' : node.next = (s.info c).next) :
    ∃ s', unlinkNode s c node = .ok s' ∧ SameVars s s' ∧
      (∀ x, (s'.info x).unlinked = (s.info x).unlinked) ∧ Bypassed s s' c := by
  obtain ⟨s1, h1, he1, hv1, hi1⟩ :=
    storeIfSome_eq hl
  obtain ⟨s2, h2, he2, hv2, hi2⟩ :=
    storeIfSome_eq (hv1.bitmap ▸ hn)
  refine ⟨s2.moveEntry c node.last, ?_, (hv1.trans hv2).trans moveEntry_sameVars, fun x => ?_,
    fun x => ?_, fun x => ?_, ?_⟩
  · rw [unlinkNode, h1]
    change (do let s ← s1.storeIfSome _ _; _) = _
    rw [h2]
    rfl
  · rw [moveEntry_info, hi2, hi1]
    split_ifs <;> rfl
  · rw [moveEntry_info, hi2, hi1, hnode, hnode']
    split_ifs <;> rfl
  · rw [moveEntry_info, hi2, hi1, hnode, hnode']
    split_ifs <;> rfl
  · rw [moveEntry_entry, he2, he1, hnode]

private theorem ends_mem (hr : 0 < r.count) : r.start ∈ r ∧ r.stop - 1 ∈ r := by
  simp only [mem_iff, stop]
  omega

private theorem ne_ends (hr : 0 < r.count) (hx : x ∉ r) : x ≠ r.start ∧ x ≠ r.stop - 1 :=
  ⟨fun h => hx (h ▸ (ends_mem hr).1), fun h => hx (h ▸ (ends_mem hr).2)⟩

theorem shrinkRun_spec (hr : Stored s.info r) (hk : k < r.count) (hw : r.stop < 2 ^ 64)
    (hc : ∀ x ∈ r, ¬ s.pmmBitmap.covers x) :
    ∃ s', shrinkRun s r.start k (s.info r.start) = .ok s' ∧
      Installed s s' ⟨r.start + k, r.count - k⟩ ∧ Moved s s' r.start (r.start + k) := by
  have hcount : (⟨r.start + k, r.count - k⟩ : Interval).stop = r.stop := by
    simp only [stop]
    omega
  have hstart : ¬ s.pmmBitmap.covers (r.start + k) :=
    hc _ ⟨by omega, by simp only [stop]; omega⟩
  have hend : ¬ s.pmmBitmap.covers (r.stop - 1) :=
    hc _ ⟨by simp only [stop]; omega, by simp only [stop]; omega⟩
  have hnew : wadd r.start k = r.start + k :=
    wadd_of_lt (by simp only [stop] at hw; omega)
  have hsub := wsub_of_le (by simp only [stop] at hw; omega) hk.le
  unfold shrinkRun
  rw [hr.pageCount, hr.indexStart, hr.indexEnd, hr.headerEnd, hnew, hsub]
  simp only [store_eq hstart]
  refine ⟨_, store_eq (by simpa using hend), ⟨?_, ?_, ?_⟩, ?_, ?_, ?_⟩
  · exact (modify_sameVars.trans moveEntry_sameVars).trans modify_sameVars
  · constructor <;> simp only [hcount, modify_info, moveEntry_info] <;> split_ifs <;> simp_all
  · intro x hx
    obtain ⟨h1, h2⟩ := ne_ends (Nat.sub_pos_of_lt hk) hx
    rw [hcount] at h2
    simp only [modify_info, moveEntry_info, h1, h2, if_false]
  · intro x
    simp only [modify_info, moveEntry_info]
    split_ifs <;> rfl
  · intro x
    simp only [modify_info, moveEntry_info]
    split_ifs <;> rfl
  · rw [modify_entry, moveEntry_entry, modify_entry]

section
variable (hb : Stored s.info b) (hb0 : 0 < b.count) (hw : b.stop < 2 ^ 64)
  (hcb : ∀ x ∈ b, ¬ s.pmmBitmap.covers x)
include hb hb0 hw hcb

theorem joinRecords_spec (ha : Stored s.info a) (ha0 : 0 < a.count) (hn : b.start = a.stop + n)
    (hca : ∀ x ∈ a, ¬ s.pmmBitmap.covers x) :
    ∃ s', joinRecords s n (s.info b.start) (some a.start) = .ok s' ∧
      Installed s s' ⟨a.start, a.count + n + b.count⟩ ∧ SameLinks s s' := by
  obtain ⟨has, -⟩ := ends_mem ha0
  obtain ⟨-, hbe⟩ := ends_mem hb0
  have hstop : (⟨a.start, a.count + n + b.count⟩ : Interval).stop = b.stop := by
    simp only [stop] at *
    omega
  have hsum : wadd a.count (wadd n b.count) = a.count + n + b.count := by
    simp only [stop] at *
    have hnb : wadd n b.count = n + b.count := wadd_of_lt (by omega)
    rw [hnb, wadd_of_lt (by omega), Nat.add_assoc]
  have hne : a.start ≠ b.stop - 1 := by
    simp only [stop] at *
    omega
  unfold joinRecords
  simp only [hb.headerEnd, hb.indexEnd, hb.pageCount, ok_bind, store_eq (hca _ has),
    store_eq (s := s.modify _ _) (hcb _ hbe)]
  refine ⟨_, store_eq (hca _ has), ⟨rfl, ?_, ?_⟩, ?_, ?_, rfl⟩
  · constructor <;> simp [hstop, modify_info, hne, hne.symm, ha.pageCount, ha.indexStart, hsum]
  · intro x hx
    obtain ⟨h1, h2⟩ := ne_ends (Nat.add_pos_right _ hb0) hx
    rw [hstop] at h2
    simp only [modify_info, h1, h2, if_false]
  · intro x
    simp only [modify_info]
    split_ifs <;> rfl
  · intro x
    simp only [modify_info]
    split_ifs <;> rfl

theorem joinBoth_spec (ha : Stored s.info a) (ha0 : 0 < a.count) (hai : a.stop = i) (hbi : b.start = i + n)
    (hca : ∀ x ∈ a, ¬ s.pmmBitmap.covers x)
    (hl : ∀ page ∈ (s.info b.start).last, ¬ s.pmmBitmap.covers page)
    (hn : ∀ page ∈ (s.info b.start).next, ¬ s.pmmBitmap.covers page) :
    ∃ s', joinBoth s i n = .ok s' ∧ Installed s s' ⟨a.start, a.count + n + b.count⟩ ∧
      Bypassed s s' b.start := by
  have hfollow : wadd i n = b.start := by
    rw [wadd_of_lt, hbi]
    simp only [stop] at *
    omega
  have hlast : wsub i 1 = a.stop - 1 := by
    rw [wsub_of_le, hai] <;> simp only [stop] at * <;> omega
  obtain ⟨s1, h1, hin, hsl⟩ := joinRecords_spec hb hb0 hw hcb ha ha0 (hai ▸ hbi) hca
  rw [← hin.same.bitmap] at hl hn
  obtain ⟨s', hs', hv, hu, hby⟩ := unlinkNode_spec hl hn
    (hsl.last _).symm (hsl.next _).symm
  refine ⟨s', ?_, hin.relink hv hu, hby.of_sameLinks hsl⟩
  unfold joinBoth
  simp only [hfollow, hlast, load_eq (hcb _ (ends_mem hb0).1), load_eq (hca _ (ends_mem ha0).2),
    ha.headerStart, ok_bind, h1, hs']

theorem joinNext_spec (hbi : b.start = i + n) (hi : ¬ s.pmmBitmap.covers i) :
    ∃ s', joinNext s i n = .ok s' ∧ Installed s s' ⟨i, n + b.count⟩ ∧ Moved s s' b.start i := by
  obtain ⟨hbs, hbe⟩ := ends_mem hb0
  have hstop : (⟨i, n + b.count⟩ : Interval).stop = b.stop := by
    simp only [stop] at *
    omega
  have hfollow : wadd i n = b.start := by
    rw [wadd_of_lt, hbi]
    simp only [stop] at *
    omega
  have hsum : wadd b.count n = n + b.count := by
    rw [wadd_of_lt, Nat.add_comm]
    simp only [stop] at *
    omega
  unfold joinNext
  simp only [hfollow, load_eq (hcb _ hbs), hb.headerEnd, hb.indexEnd, hb.pageCount, hsum, ok_bind,
    store_eq hi, store_eq (s := s.modify _ _) (hcb _ hbe),
    store_eq (s := (s.modify _ _).modify _ _) hi]
  refine ⟨_, rfl, ⟨?_, ?_, ?_⟩, ?_, ?_, ?_⟩
  · exact (modify_sameVars.trans (modify_sameVars.trans modify_sameVars)).trans moveEntry_sameVars
  · constructor <;> simp only [hstop, modify_info, moveEntry_info] <;> split_ifs <;> simp_all
  · intro x hx
    obtain ⟨h1, h2⟩ := ne_ends (Nat.add_pos_right _ hb0) hx
    rw [hstop] at h2
    simp only [modify_info, moveEntry_info, h1, h2, if_false]
  · intro x
    simp only [modify_info, moveEntry_info]
    split_ifs <;> rfl
  · intro x
    simp only [modify_info, moveEntry_info]
    split_ifs <;> rfl
  · rw [moveEntry_entry]
    rfl

end

theorem joinLast_spec (ha : Stored s.info a) (ha0 : 0 < a.count) (hai : a.stop = i) (hn : 0 < n)
    (hw : i + n < 2 ^ 64) (hca : ∀ x ∈ a, ¬ s.pmmBitmap.covers x)
    (hi : ¬ s.pmmBitmap.covers (i + n - 1)) :
    ∃ s', joinLast s i n = .ok s' ∧ Installed s s' ⟨a.start, a.count + n⟩ ∧ SameLinks s s' := by
  obtain ⟨has, hae⟩ := ends_mem ha0
  have hstop : (⟨a.start, a.count + n⟩ : Interval).stop = i + n := by
    simp only [stop] at *
    omega
  have hlast : wsub i 1 = a.stop - 1 := by
    rw [wsub_of_le, hai] <;> simp only [stop] at * <;> omega
  have hend : wsub (wadd i n) 1 = i + n - 1 := by
    rw [wadd_of_lt hw, wsub_of_le hw (by omega)]
  have hsum : wadd a.count n = a.count + n := by
    rw [wadd_of_lt]
    simp only [stop] at *
    omega
  have hne : i + n - 1 ≠ a.start := by
    simp only [stop] at *
    omega
  unfold joinLast
  simp only [hlast, hend, load_eq (hca _ hae), ha.headerStart, ok_bind, store_eq (hca _ has)]
  refine ⟨_, store_eq hi, ⟨rfl, ?_, ?_⟩, ?_, ?_, rfl⟩
  · constructor <;> simp [hstop, modify_info, hne, hne.symm, ha.pageCount, ha.indexStart, hsum]
  · intro x hx
    obtain ⟨h1, h2⟩ := ne_ends (Nat.add_pos_right _ hn) hx
    rw [hstop] at h2
    simp only [modify_info, h1, h2, if_false]
  · intro x
    simp only [modify_info]
    split_ifs <;> rfl
  · intro x
    simp only [modify_info]
    split_ifs <;> rfl

theorem newRun_spec (hn : 0 < n) (hw : i + n < 2 ^ 64) (hi : ¬ s.pmmBitmap.covers i)
    (hi' : ¬ s.pmmBitmap.covers (i + n - 1))
    (he : ∀ page ∈ s.pmmLastFreeEntry, ¬ s.pmmBitmap.covers page) :
    ∃ s', newRun s i n = .ok s' ∧ Installed s s' ⟨i, n⟩ ∧ Pushed s s' i := by
  have hend : wsub (wadd i n) 1 = i + n - 1 := by
    rw [wadd_of_lt hw, wsub_of_le hw (by omega)]
  obtain ⟨s1, hs1⟩ : ∃ s1, s1 = ((s.modify i fun r =>
      { r with indexStart := i, indexEnd := i + n - 1, pageCount := n,
               headerEnd := some (i + n - 1) }).modify (i + n - 1)
      fun r => { r with headerStart := some i }).modify i
      fun r => { r with last := s.pmmLastFreeEntry, next := none } := ⟨_, rfl⟩
  have hin : Installed s s1 ⟨i, n⟩ := by
    subst hs1
    refine ⟨rfl, ?_, fun x hx => ?_⟩
    · by_cases h : i + n - 1 = i
      · constructor <;> simp [stop, modify_info, h]
      · constructor <;> simp [stop, modify_info, h, Ne.symm h]
    · simp only [mem_iff, stop] at hx
      have h1 : x ≠ i := by omega
      have h2 : x ≠ i + n - 1 := by omega
      simp only [modify_info, h1, h2, if_false]
  have hentry : s1.pmmLastFreeEntry = s.pmmLastFreeEntry := by
    subst hs1
    rfl
  obtain ⟨s2, h2, -, hv2, hi2⟩ := storeIfSome_eq
    (f := fun r => { r with next := some i }) (hin.same.bitmap ▸ he)
  refine ⟨s2.setEntry (some i), ?_, hin.relink (hv2.trans rfl) fun x => ?_, ?_, ?_, rfl⟩
  · unfold newRun
    simp only [hend, ok_bind, store_eq hi, store_eq (s := s.modify _ _) hi',
      store_eq (s := (s.modify _ _).modify _ _) hi, modify_entry, ← hs1, hentry, h2]
  · simp only [setEntry, hi2]
    split_ifs <;> rfl
  · intro x
    simp only [setEntry, hi2, hs1, modify_info]
    split_ifs <;> rfl
  · intro x
    simp only [setEntry, hi2, hs1, modify_info]
    split_ifs <;> rfl

theorem unlinkNode_sameVars (h : unlinkNode s c node = .ok s') : SameVars s s' := by
  obtain ⟨s1, h1, h⟩ := bind_eq_ok h
  obtain ⟨s2, h2, h⟩ := bind_eq_ok h
  cases h
  exact ((storeIfSome_sameVars h1).trans (storeIfSome_sameVars h2)).trans moveEntry_sameVars

theorem pmmRemovePagesToFreeList_sameVars (h : pmmRemovePagesToFreeList s i n = .ok s') :
    SameVars s s' := by
  obtain ⟨node, -, h⟩ := bind_eq_ok h
  split_ifs at h
  · exact unlinkNode_sameVars h
  · obtain ⟨s1, h1, h⟩ := bind_eq_ok h
    exact ((store_sameVars h1).trans moveEntry_sameVars).trans (store_sameVars h)

theorem pmmAddPageToFreeList_sameVars (h : pmmAddPageToFreeList s i n = .ok s') :
    SameVars s s' := by
  obtain ⟨nextUsed, -, h⟩ := bind_eq_ok h
  obtain ⟨lastUsed, -, h⟩ := bind_eq_ok h
  cases nextUsed with
  | false =>
    cases lastUsed with
    | false =>
      obtain ⟨nodeNext, -, h⟩ := bind_eq_ok h
      obtain ⟨nodeEnd, -, h⟩ := bind_eq_ok h
      obtain ⟨s1, hj, h⟩ := bind_eq_ok h
      obtain ⟨s2, h2, hj⟩ := bind_eq_ok hj
      obtain ⟨s3, h3, hj⟩ := bind_eq_ok hj
      exact ((store_sameVars h2).trans ((store_sameVars h3).trans (store_sameVars hj))).trans
        (unlinkNode_sameVars h)
    | true =>
      obtain ⟨nodeNext, -, h⟩ := bind_eq_ok h
      obtain ⟨s1, h1, h⟩ := bind_eq_ok h
      obtain ⟨s2, h2, h⟩ := bind_eq_ok h
      obtain ⟨s3, h3, h⟩ := bind_eq_ok h
      cases h
      exact ((store_sameVars h1).trans ((store_sameVars h2).trans (store_sameVars h3))).trans
        moveEntry_sameVars
  | true =>
    cases lastUsed with
    | false =>
      obtain ⟨nodeEnd, -, h⟩ := bind_eq_ok h
      obtain ⟨s1, h1, h⟩ := bind_eq_ok h
      exact (store_sameVars h1).trans (store_sameVars h)
    | true =>
      obtain ⟨s1, h1, h⟩ := bind_eq_ok h
      obtain ⟨s2, h2, h⟩ := bind_eq_ok h
      obtain ⟨s3, h3, h⟩ := bind_eq_ok h
      obtain ⟨s4, h4, h⟩ := bind_eq_ok h
      cases h
      exact ((store_sameVars h1).trans ((store_sameVars h2).trans ((store_sameVars h3).trans
        (storeIfSome_sameVars h4)))).trans rfl

end Kot.Kernel.Pmm
