import Kot.Lib.Run
import Kot.Kernel.Mm.Allocate

/-! Runs of one process memory handler: any calls of `mm_allocate_region_vm` and of
`mm_free_region` keep the region list a tiling of the handler's range. -/
namespace Kot.Kernel.Mm
open Kot.Lib

variable {A : Allocator} {s s' : MmState} {l l1 l2 : List Ptr} {r : Ptr} {base size x : ℕ}

/-- The list read off the memory: `n` regions through `next`. -/
def walkRegions (s : MmState) : ℕ → Option Ptr → List Ptr
  | 0, _ => []
  | _ + 1, none => []
  | i + 1, some r => r :: walkRegions s i (s.region r).next

def regionNodes (s : MmState) : List Ptr :=
  walkRegions s s.handler.regionCount s.handler.firstRegion

private theorem walkRegions_eq {p : Option Ptr}
    (h : Linked (fun r => (s.region r).next) (fun r => (s.region r).last) p l none) :
    walkRegions s l.length l.head? = l := by
  induction l generalizing p with
  | nil => rfl
  | cons r l ih =>
    obtain ⟨-, hn, ht⟩ := h
    have hn : (s.region r).next = l.head? := by simpa using hn
    rw [List.length_cons, List.head?_cons, walkRegions, hn, ih ht]

theorem WellFormed.regionNodes_eq (h : WellFormed s l) : regionNodes s = l := by
  rw [regionNodes, h.count, h.first, walkRegions_eq h.linked]

theorem mmCreateHandler_wellFormed (memory : Ptr → MemoryRegion) (live : List Ptr) (space : ℕ)
    (h0 : 0 < size) (hb : base + size < 2 ^ 64) :
    WellFormed (mmCreateHandler A memory live space base size)
      [A.malloc (A.malloc live :: live)] where
  linked := by simp [mmCreateHandler]
  nodup := List.nodup_singleton _
  live := by simp [mmCreateHandler]
  count := rfl
  first := rfl
  lastFree := rfl
  tiles := by simp [view, mmCreateHandler, MemoryRegion.extent, h0]
  bound := hb

section
variable (hl : s.handler.lock = false)
include hl

theorem acquire_free : s.acquire = .ok (s.setLock true) := by
  simp [MmState.acquire, hl]

private theorem release_acquired : (s.setLock true).release = s := by
  obtain ⟨⟨b, z, c, f, lf, v, lk⟩, reg, live⟩ := s
  simp only at hl
  rw [hl]
  rfl

theorem allocate_outside (base size : ℕ) (h : WellFormed s l)
    (hx : (roundRequest base size).1 < s.handler.base ∨
      s.handler.base + s.handler.size ≤ (roundRequest base size).1) :
    mmAllocateRegionVm A s base size true =
      if s.handler.base + s.handler.size <
          wadd (roundRequest base size).1 (roundRequest base size).2 then .ok (.einval, none, s)
      else .ok (.success, some (roundRequest base size).1, s) := by
  have hget := mmGetRegion_outside (setLock_wellFormed true h) hx
  have hend : wadd (s.setLock true).handler.base (s.setLock true).handler.size =
      s.handler.base + s.handler.size := wadd_of_lt h.bound
  rw [mmAllocateRegionVm, acquire_free hl]
  simp only [bind, Except.bind, if_true, hget, hend, release_acquired hl]

theorem allocate_inside (base size : ℕ) (h : WellFormed s l)
    (hlo : s.handler.base ≤ (roundRequest base size).1)
    (hhi : (roundRequest base size).1 < s.handler.base + s.handler.size) :
    ∃ l1 r l2, l = l1 ++ r :: l2 ∧ (s.region r).base ≤ (roundRequest base size).1 ∧
      (roundRequest base size).1 < (s.region r).base + (s.region r).size ∧
      mmAllocateRegionVm A s base size true =
        allocateFixed A (s.setLock true) r (roundRequest base size).1
          (roundRequest base size).2 := by
  obtain ⟨l1, r, l2, he, hget, h1, h2⟩ := mmGetRegion_mem (setLock_wellFormed true h) hlo hhi
  refine ⟨l1, r, l2, he, h1, h2, ?_⟩
  rw [mmAllocateRegionVm, acquire_free hl]
  simp only [bind, Except.bind, if_true, hget]

theorem allocate_anywhere (base size : ℕ) (h : WellFormed s l) :
    mmAllocateRegionVm A s base size false =
      match l.find? fun r =>
        (s.region r).isFree ∧ (roundRequest base size).2 ≤ (s.region r).size with
      | none => .ok (.enomem, none, s)
      | some r => allocateFree A (s.setLock true) r (roundRequest base size).2 := by
  have hfind := findFree_spec (roundRequest base size).2 (setLock_wellFormed true h)
  rw [mmAllocateRegionVm, acquire_free hl]
  simp only [bind, Except.bind, Bool.false_eq_true, if_false, hfind]
  change (match l.find? fun r =>
      decide ((s.region r).isFree ∧ (roundRequest base size).2 ≤ (s.region r).size) with
    | none => _
    | some r => _) = _
  split <;> simp_all [release_acquired hl]

theorem mmAllocateRegionVm_wellFormed (base size : ℕ) (isFixed : Bool) (h : WellFormed s l) :
    ∃ e res s' l', mmAllocateRegionVm A s base size isFixed = .ok (e, res, s') ∧
      WellFormed s' l' ∧ SameRange s s' := by
  cases isFixed with
  | true =>
    by_cases hx : s.handler.base ≤ (roundRequest base size).1 ∧
        (roundRequest base size).1 < s.handler.base + s.handler.size
    · obtain ⟨l1, r, l2, rfl, h1, h2, he⟩ := allocate_inside (A := A) hl base size h hx.1 hx.2
      obtain ⟨-, -, s', l', -, hf, hw, hr, -⟩ :=
        allocateFixed_spec (roundRequest base size).2
          (setLock_wellFormed true h) h1 h2
      exact ⟨_, _, s', l', he.trans hf, hw, hr⟩
    · rw [allocate_outside hl base size h (by omega)]
      split
      · exact ⟨_, _, s, l, rfl, h, rfl, rfl⟩
      · exact ⟨_, _, s, l, rfl, h, rfl, rfl⟩
  | false =>
    rw [allocate_anywhere hl base size h]
    split
    · exact ⟨_, _, s, l, rfl, h, rfl, rfl⟩
    · next r hr =>
      obtain ⟨-, l1, l2, rfl, -⟩ := List.find?_eq_some_iff_append.mp hr
      obtain ⟨s', l', hf, hw, hr, -⟩ := allocateFree_spec
        (roundRequest base size).2 (setLock_wellFormed true h)
      exact ⟨_, _, s', l', hf, hw, hr⟩

end

/-- The calls a process makes on its handler. -/
inductive MmOp
  | allocate (base size : ℕ) (isFixed : Bool)
  | free (base size : ℕ)

/-- One call with machine-word arguments, whatever error code it returns. A call that
faults ends the run; the base of a free lies inside the handler's range. -/
def mmStep (A : Allocator) (s : MmState) : MmOp → Option MmState
  | .allocate base size isFixed =>
    if base < 2 ^ 64 ∧ size < 2 ^ 64 then
      match mmAllocateRegionVm A s base size isFixed with
      | .ok (_, _, s') => some s'
      | .error _ => none
    else none
  | .free base size =>
    if s.handler.base ≤ base ∧ base < s.handler.base + s.handler.size ∧ size < 2 ^ 64 then
      match mmFreeRegion A s base size with
      | .ok (_, s') => some s'
      | .error _ => none
    else none

/-- Handlers a run starts from: new ones, and ones whose list tiles their range already,
such as the copy of a handler. -/
def Initial (A : Allocator) (s : MmState) : Prop :=
  (∃ memory live space base size, 0 < size ∧ base + size < 2 ^ 64 ∧
    s = mmCreateHandler A memory live space base size) ∨ WellFormed s (regionNodes s)

theorem Initial.wellFormed (h : Initial A s) : WellFormed s (regionNodes s) := by
  obtain ⟨memory, live, space, base, size, h0, hb, rfl⟩ | h := h
  · have hw := mmCreateHandler_wellFormed (A := A) memory live space h0 hb
    rw [hw.regionNodes_eq]
    exact hw
  · exact h

theorem mmStep_wellFormed {op : MmOp} (h : WellFormed s (regionNodes s))
    (hs : mmStep A s op = some s') : WellFormed s' (regionNodes s') ∧ SameRange s s' := by
  suffices hw : ∃ l, WellFormed s' l ∧ SameRange s s' by
    obtain ⟨l, hw, hr⟩ := hw
    exact ⟨by rw [hw.regionNodes_eq]; exact hw, hr⟩
  cases op with
  | allocate base size isFixed =>
    simp only [mmStep] at hs
    split_ifs at hs
    cases hl : s.handler.lock with
    | true => simp [mmAllocateRegionVm, MmState.acquire, hl, bind, Except.bind] at hs
    | false =>
      obtain ⟨e, res, s1, l, he, hw, hr⟩ :=
        mmAllocateRegionVm_wellFormed hl base size isFixed h
      rw [he] at hs
      cases hs
      exact ⟨l, hw, hr⟩
  | free base size =>
    simp only [mmStep] at hs
    split_ifs at hs with hc
    split at hs
    · next e s1 he =>
      cases hs
      exact mmFreeRegion_wellFormed h hc.1 hc.2.1 he
    · cases hs

theorem run_wellFormed {s0 : MmState} {ops : List MmOp} (h0 : Initial A s0)
    (h : Run (fun s op s' => mmStep A s op = some s') s0 ops s) :
    WellFormed s (regionNodes s) ∧ SameRange s0 s := by
  refine h.invariant (P := fun s => WellFormed s (regionNodes s) ∧ SameRange s0 s)
    ⟨h0.wellFormed, rfl, rfl⟩ ?_
  rintro s op s' ⟨hw, hr⟩ hs
  obtain ⟨hw', hr'⟩ := mmStep_wellFormed hw hs
  exact ⟨hw', hr'.1.trans hr.1, hr'.2.trans hr.2⟩

/-- In every run the list tiles the handler's range, its sizes add up to the handler's
size, and the search without fixed address stays inside the list. -/
theorem regionList_tiles {s0 : MmState} {ops : List MmOp} (h0 : Initial A s0)
    (h : Run (fun s op s' => mmStep A s op = some s') s0 ops s) :
    WellFormed s (regionNodes s) ∧ SameRange s0 s ∧ totalSize s (regionNodes s) = s.handler.size ∧
      ∀ size, ∃ found,
        findFree s size s.handler.regionCount s.handler.lastFreeRegion = .ok found := by
  obtain ⟨hw, hr⟩ := run_wellFormed h0 h
  refine ⟨hw, hr, ?_, fun size => ⟨_, findFree_spec size hw⟩⟩
  have hsum := hw.tiles.sum
  unfold totalSize
  omega

theorem regionList_tiles_three :
    ∃ s, [.allocate 0 0x1800 false, .allocate 0x5000 0x2000 true, .free 0x2000 0x1000].foldlM
        (mmStep .above) (mmCreateHandler .above (fun _ => poisoned) [] 0 0x1000 0x10000) = some s ∧
      (regionNodes s).length = 4 ∧ WellFormed s (regionNodes s) := by
  refine ⟨_, rfl, by decide, ?_⟩
  have hrun := Run.of_foldlM (f := mmStep .above)
    (s := mmCreateHandler .above (fun _ => poisoned) [] 0 0x1000 0x10000) (fun _ _ _ h => h)
    (show [.allocate 0 0x1800 false, .allocate 0x5000 0x2000 true, .free 0x2000 0x1000].foldlM
      _ _ = some _ from rfl)
  exact (regionList_tiles (.inl ⟨_, _, _, _, _, by decide, by decide, rfl⟩) hrun).1

end Kot.Kernel.Mm
