import Kot.Lib.Linked
import Kot.Lib.Tiling
import Kot.Kernel.Mm.Regions

/-! The region list of a handler as a list of extents. Splitting and merging are first
shown to rewrite the linked list around one node, everything else staying in place. -/
namespace Kot.Kernel.Mm
open Kot.Lib List MemoryRegion

/-- What a region says about the address space. -/
structure Extent where
  base : ℕ
  size : ℕ
  blockCount : ℕ
  isFree : Bool
  deriving DecidableEq

def MemoryRegion.extent (r : MemoryRegion) : Extent where
  base := r.base
  size := r.size
  blockCount := r.blockCount
  isFree := r.isFree

/-- The regions reached from the first one, in order, are the nodes of `l`. -/
structure Chained (s : MmState) (l : List Ptr) : Prop where
  nodup : l.Nodup
  linked : Linked (fun r => (s.region r).next) (fun r => (s.region r).last) none l none
  first : s.handler.firstRegion = l.head?
  lastFree : s.handler.lastFreeRegion = l.head?
  count : s.handler.regionCount = l.length
  live : ∀ r ∈ l, r ∈ s.live

def view (s : MmState) (l : List Ptr) : List Extent := l.map fun r => (s.region r).extent

section
variable (s : MmState) (r a : Ptr) (f : MemoryRegion → MemoryRegion) (n : Option Ptr) (b : Bool)

theorem modify_region : (s.modify r f).region a = if a = r then f (s.region a) else s.region a := by
  by_cases h : a = r
  · subst h; simp [MmState.modify]
  · simp [MmState.modify, h]

@[simp] theorem modify_handler : (s.modify r f).handler = s.handler := rfl

@[simp] theorem modify_live : (s.modify r f).live = s.live := rfl

end

variable {A : Allocator} {s s' : MmState} {l l1 l2 : List Ptr} {r c : Ptr} {size : ℕ}

private theorem splitRegion_eq (h0 : 0 < size) (hs : size < (s.region r).size)
    (hr : r ∈ s.live) (hn : ∀ a, (s.region r).next = some a → a ∈ s.live ∧ a ≠ r) :
    ∃ s' n, splitRegion A s r size = (s', n) ∧ n ∉ s.live ∧ s'.live = n :: s.live ∧
      s'.handler = { s.handler with regionCount := wadd s.handler.regionCount 1 } ∧
      s'.region r = { s.region r with
        next := some n, size := size, blockCount := divRoundupPage size } ∧
      s'.region n =
        { base := wadd (s.region r).base size, size := (s.region r).size - size,
          blockCount := divRoundupPage ((s.region r).size - size),
          isFree := (s.region r).isFree, last := some r, next := (s.region r).next } ∧
      (∀ a, (s.region r).next = some a → s'.region a = { s.region a with last := some n }) ∧
      ∀ a, a ≠ r → a ≠ n → (s.region r).next ≠ some a → s'.region a = s.region a := by
  have hne : A.malloc s.live ≠ r := fun he => A.fresh s.live (he ▸ hr)
  have hlive : ∀ a, (s.region r).next = some a → a ≠ A.malloc s.live ∧ a ≠ r :=
    fun a ha => ⟨fun he => A.fresh s.live (he ▸ (hn a ha).1), (hn a ha).2⟩
  have h1 : ¬ (size = 0 ∨ (s.region r).size = size) := by omega
  have h2 : ¬ (s.region r).size < size := by omega
  rw [splitRegion, if_neg h1, if_neg h2]
  refine ⟨_, _, rfl, A.fresh s.live, ?_⟩
  cases hx : (s.region r).next with
  | none => simp +contextual [modify_region, hne, hne.symm]
  | some d =>
    obtain ⟨hdn, hdr⟩ := hlive d hx
    simp +contextual [modify_region, MmState.setLast, hne, hne.symm, hdn, hdn.symm, hdr, hdr.symm]
    intro a _ _ had
    simp [Ne.symm had]

theorem view_append (s : MmState) (l1 l2 : List Ptr) :
    view s (l1 ++ l2) = view s l1 ++ view s l2 := map_append

@[simp] theorem view_cons (s : MmState) (r : Ptr) (l : List Ptr) :
    view s (r :: l) = (s.region r).extent :: view s l := rfl

theorem view_congr (h : ∀ a ∈ l, (s'.region a).extent = (s.region a).extent) :
    view s' l = view s l := map_congr_left h

private theorem Chained.around (h : Chained s (l1 ++ r :: l2)) :
    (s.region r).last = l1.getLast? ∧ (s.region r).next = l2.head? ∧
      (∀ a ∈ l1, a ≠ r ∧ a ∉ l2) ∧ ∀ a ∈ l2, a ≠ r := by
  obtain ⟨hl, hn⟩ := h.linked.mid
  obtain ⟨-, hd, hd'⟩ := nodup_append.mp h.nodup
  obtain ⟨hr, -⟩ := nodup_cons.mp hd
  refine ⟨by simpa using hl, by simpa using hn, fun a ha => ⟨?_, fun ha' => ?_⟩, ?_⟩
  · exact hd' a ha r (by simp)
  · exact hd' a ha a (by simp [ha']) rfl
  · rintro a ha rfl
    exact hr ha

theorem splitRegion_chained (h : Chained s (l1 ++ r :: l2)) (h0 : 0 < size)
    (hs : size < (s.region r).size) (hc : (l1 ++ r :: l2).length + 1 < 2 ^ 64) :
    ∃ s' n, splitRegion A s r size = (s', n) ∧ Chained s' (l1 ++ r :: n :: l2) ∧
      s'.handler = { s.handler with regionCount := wadd s.handler.regionCount 1 } ∧
      view s' l1 = view s l1 ∧ view s' l2 = view s l2 ∧
      (s'.region r).extent =
        ⟨(s.region r).base, size, divRoundupPage size, (s.region r).isFree⟩ ∧
      (s'.region n).extent =
        ⟨wadd (s.region r).base size, (s.region r).size - size,
          divRoundupPage ((s.region r).size - size), (s.region r).isFree⟩ := by
  obtain ⟨hlr, hnr, hl1, hl2⟩ := h.around
  obtain ⟨s', n, he, hn, hlive, hh, hr', hn', hd', ho'⟩ := splitRegion_eq
    h0 hs (h.live r (by simp)) (by
      intro a ha
      have ha := mem_of_mem_head? (hnr.symm.trans ha)
      exact ⟨h.live a (by simp [ha]), hl2 a ha⟩)
  have hnl : ∀ a ∈ l1 ++ r :: l2, a ≠ n := fun a ha he => hn (he ▸ h.live a ha)
  have h1 : ∀ a ∈ l1, s'.region a = s.region a := by
    intro a ha
    refine ho' a (hl1 a ha).1 (hnl a (by simp [ha])) fun hx => (hl1 a ha).2 ?_
    exact mem_of_mem_head? (hnr.symm.trans hx)
  have h2 : ∀ a ∈ l2, (s'.region a).next = (s.region a).next ∧
      (s'.region a).extent = (s.region a).extent ∧
      (s'.region a).last = if l2.head? = some a then some n else (s.region a).last := by
    intro a ha
    by_cases hx : l2.head? = some a
    · simp [hd' a (hnr.trans hx), hx, extent]
    · simp [ho' a (hl2 a ha) (hnl a (by simp [ha])) (hnr ▸ hx), hx]
  refine ⟨s', n, he, ⟨?_, ?_, ?_, ?_, ?_, ?_⟩, hh, view_congr fun a ha => by rw [h1 a ha],
    view_congr fun a ha => (h2 a ha).2.1, by simp [hr', extent],
    by simp [hn', extent]⟩
  · have hd := h.nodup
    simp only [nodup_append, nodup_cons, mem_cons] at hd ⊢
    simp only [mem_append, mem_cons] at hnl
    grind
  · obtain ⟨hk1, -, -, hk2⟩ := linked_append.mp h.linked
    refine linked_append.mpr ⟨?_, ?_, ?_, ?_, ?_, ?_⟩
    · exact hk1.congr (fun a ha => by rw [h1 a ha]) (fun a ha => by rw [h1 a ha])
    · simp [hr', hlr]
    · simp [hr']
    · simp [hn']
    · simp [hn', hnr]
    · exact hk2.relink_left (nodup_cons.mp (nodup_append.mp h.nodup).2.1).2
        (fun a ha => (h2 a ha).1) (fun a ha => (h2 a ha).2.2)
  · rw [hh, h.first]
    cases l1 <;> rfl
  · rw [hh, h.lastFree]
    cases l1 <;> rfl
  · rw [hh]
    simp only [h.count, length_append, length_cons] at hc ⊢
    rw [wadd_of_lt (by omega)]
    omega
  · intro a ha
    rw [hlive]
    simp only [mem_append, mem_cons] at ha ⊢
    have := h.live a
    simp only [mem_append, mem_cons] at this
    tauto

private theorem mergeRegion_eq (hn : (s.region r).next = some c) (hl : (s.region c).last = some r)
    (hrc : r ≠ c) (hf : s.handler.lastFreeRegion ≠ some c)
    (hd : ∀ a, (s.region c).next = some a → a ≠ r ∧ a ≠ c) :
    ∃ s', mergeRegion s r = some s' ∧ s'.live = s.live.erase c ∧
      s'.handler = { s.handler with regionCount := wsub s.handler.regionCount 1 } ∧
      s'.region r = { s.region r with
        next := (s.region c).next
        size := wadd (s.region r).size (s.region c).size
        blockCount := wadd (s.region r).blockCount (s.region c).blockCount } ∧
      (∀ a, (s.region c).next = some a → s'.region a = { s.region a with last := some r }) ∧
      ∀ a, a ≠ r → a ≠ c → (s.region c).next ≠ some a → s'.region a = s.region a := by
  simp only [mergeRegion, hn, Option.some.injEq, exists_eq_left']
  cases hx : (s.region c).next with
  | none =>
    simp +contextual [removeRegion, modify_region, hl, hrc, hrc.symm, hf, hx, MmState.setNext]
  | some d =>
    obtain ⟨hdr, hdc⟩ := hd d hx
    simp +contextual [removeRegion, modify_region, hl, hrc, hrc.symm, hf, hx, hdr, hdr.symm, hdc,
      MmState.setNext, MmState.setLast]
    intro a _ _ had
    simp [Ne.symm had]

theorem mergeRegion_chained (h : Chained s (l1 ++ r :: c :: l2))
    (hc : (l1 ++ r :: c :: l2).length < 2 ^ 64) :
    ∃ s', mergeRegion s r = some s' ∧ Chained s' (l1 ++ r :: l2) ∧
      s'.handler = { s.handler with regionCount := wsub s.handler.regionCount 1 } ∧
      view s' l1 = view s l1 ∧ view s' l2 = view s l2 ∧
      (s'.region r).extent =
        ⟨(s.region r).base, wadd (s.region r).size (s.region c).size,
          wadd (s.region r).blockCount (s.region c).blockCount, (s.region r).isFree⟩ := by
  obtain ⟨hlr, hnr, hl1, hl2⟩ := h.around
  have h' : Chained s ((l1 ++ [r]) ++ c :: l2) := by simpa using h
  obtain ⟨hlc, hnc, hl₁c, hl₂c⟩ := h'.around
  have hrc : r ≠ c := (hl₁c r (by simp)).1
  have hcl1 : ∀ a ∈ l1, a ≠ c := fun a ha => (hl₁c a (by simp [ha])).1
  have hl12 : ∀ a ∈ l1, a ∉ l2 := fun a ha => (hl₁c a (by simp [ha])).2
  obtain ⟨s', he, hlive, hh, hr', hd', ho'⟩ := mergeRegion_eq hnr
    (by simpa using hlc) hrc
    (by
      rw [h.lastFree]
      cases l1 with
      | nil => simpa using hrc
      | cons a l => simpa using hcl1 a (by simp))
    (by
      intro a ha
      have ha := mem_of_mem_head? (hnc.symm.trans ha)
      exact ⟨hl2 a (by simp [ha]), hl₂c a ha⟩)
  have h1 : ∀ a ∈ l1, s'.region a = s.region a := by
    intro a ha
    refine ho' a (hl1 a ha).1 (hcl1 a ha) fun hx => hl12 a ha ?_
    exact mem_of_mem_head? (hnc.symm.trans hx)
  have h2 : ∀ a ∈ l2, (s'.region a).next = (s.region a).next ∧
      (s'.region a).extent = (s.region a).extent ∧
      (s'.region a).last = if l2.head? = some a then some r else (s.region a).last := by
    intro a ha
    by_cases hx : l2.head? = some a
    · simp [hd' a (hnc.trans hx), hx, extent]
    · simp [ho' a (hl2 a (by simp [ha])) (hl₂c a ha) (hnc ▸ hx), hx]
  have hsub : (l1 ++ r :: l2).Sublist (l1 ++ r :: c :: l2) := by simp
  refine ⟨s', he, ⟨h.nodup.sublist hsub, ?_, ?_, ?_, ?_, ?_⟩, hh,
    view_congr fun a ha => by rw [h1 a ha], view_congr fun a ha => (h2 a ha).2.1,
    by simp [hr', extent]⟩
  · obtain ⟨hk1, -, -, -, -, hk2⟩ := linked_append.mp h.linked
    refine linked_append.mpr ⟨?_, ?_, ?_, ?_⟩
    · exact hk1.congr (fun a ha => by rw [h1 a ha]) (fun a ha => by rw [h1 a ha])
    · simp [hr', hlr]
    · simp [hr', hnc]
    · exact hk2.relink_left (nodup_cons.mp (nodup_append.mp h'.nodup).2.1).2
        (fun a ha => (h2 a ha).1) (fun a ha => (h2 a ha).2.2)
  · rw [hh, h.first]
    cases l1 <;> rfl
  · rw [hh, h.lastFree]
    cases l1 <;> rfl
  · rw [hh]
    simp only [h.count, length_append, length_cons] at hc ⊢
    rw [wsub_of_le (by omega) (by omega)]
    omega
  · intro a ha
    have hac : a ≠ c := by
      rcases mem_append.mp ha with ha | ha
      · exact hcl1 a ha
      · rcases mem_cons.mp ha with rfl | ha
        · exact hrc
        · exact hl₂c a ha
    rw [hlive, mem_erase_of_ne hac]
    exact h.live a (hsub.subset ha)

theorem mergeRegion_last (h : Chained s (l1 ++ [r])) : mergeRegion s r = none := by
  have hn := h.around.2.1
  simp [mergeRegion, hn]

theorem setFree_chained (b : Bool) (h : Chained s (l1 ++ r :: l2)) :
    Chained (s.setFree r b) (l1 ++ r :: l2) ∧ view (s.setFree r b) l1 = view s l1 ∧
      view (s.setFree r b) l2 = view s l2 ∧
      ((s.setFree r b).region r).extent = { (s.region r).extent with isFree := b } := by
  obtain ⟨-, -, hl1, hl2⟩ := h.around
  have hr : ∀ a, ((s.setFree r b).region a).next = (s.region a).next ∧
      ((s.setFree r b).region a).last = (s.region a).last ∧
      (a ≠ r → (s.setFree r b).region a = s.region a) := by
    intro a
    rw [MmState.setFree, modify_region]
    split <;> simp_all
  refine ⟨⟨h.nodup, ?_, h.first, h.lastFree, h.count, h.live⟩, ?_, ?_, ?_⟩
  · exact h.linked.congr (fun a _ => (hr a).1) (fun a _ => (hr a).2.1)
  · exact view_congr fun a ha => by rw [(hr a).2.2 (hl1 a ha).1]
  · exact view_congr fun a ha => by rw [(hr a).2.2 (hl2 a ha)]
  · simp [MmState.setFree, modify_region, extent]

end Kot.Kernel.Mm
