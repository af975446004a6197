import Mathlib.Logic.Function.Basic
import Mathlib.Tactic.SplitIfs
import Kot.Kernel.Machine

/-! The page tables of `vmm.c`. Tables are reached through the direct map, so the words of memory
are named by their addresses there. -/
namespace Kot.Kernel.Vmm

inductive Errno
  | success
  | eaddrnotavail
  deriving DecidableEq, Repr

/-- The words of memory, and the frames that `pmm_allocate_page` is going to return. -/
structure VmmState where
  word : ℕ → ℕ
  pool : List ℕ

def flagPresent : ℕ := 1
def flagReadWrite : ℕ := 2
def flagUser : ℕ := 4
def flagCacheDisabled : ℕ := 16

def memoryFlagWritable : ℕ := 2
def memoryFlagUser : ℕ := 8
def memoryFlagDma : ℕ := 16

def getPhysical (entry : ℕ) : ℕ := entry &&& 0x000ffffffffff000

def isPresent (entry : ℕ) : Bool := entry &&& flagPresent ≠ 0

def entryFlags (flags : ℕ) : ℕ :=
  flagPresent ||| (if memoryFlagUser &&& flags ≠ 0 then flagUser else 0) |||
    (if memoryFlagWritable &&& flags ≠ 0 then flagReadWrite else 0) |||
    (if memoryFlagDma &&& flags ≠ 0 then flagCacheDisabled else 0)

def makeEntry (physicalAddress flags : ℕ) : ℕ :=
  (physicalAddress &&& 0x000ffffffffff000) ||| (entryFlags flags &&& 0xfff)

/-- `VMM_PML_X_GET_INDEX`. -/
def pmlIndex (address level : ℕ) : ℕ :=
  (address &&& (0x1ff <<< (12 + level * 9))) >>> (12 + level * 9)

def slotAddress (table index : ℕ) : ℕ := table + 8 * index

variable (hhdm : ℕ)

def getVirtualAddress (physicalAddress : ℕ) : ℕ := wadd physicalAddress hhdm

def VmmState.set (s : VmmState) (a value : ℕ) : VmmState :=
  { s with word := Function.update s.word a value }

/-- `memset` of a page to zero. -/
def VmmState.clearPage (s : VmmState) (page : ℕ) : VmmState :=
  { s with word := fun a => if page ≤ a ∧ a < page + pageSize then 0 else s.word a }

/-- `vmm_get_entry`: the table that an entry points to. A missing one is allocated. -/
def getEntry (s : VmmState) (table index flags : ℕ) : Except Fault (ℕ × VmmState) :=
  if isPresent (s.word (slotAddress table index)) then
    .ok (getVirtualAddress hhdm (getPhysical (s.word (slotAddress table index))), s)
  else
    match s.pool with
    | [] => .error .panic
    | frame :: pool =>
      let virtualAddress := getVirtualAddress hhdm frame
      let s := ({ s with pool } : VmmState).clearPage virtualAddress
      .ok (virtualAddress, s.set (slotAddress table index) (makeEntry frame flags))

/-- The walk down to the last table. -/
def getLeafTable (s : VmmState) (table page flags : ℕ) : Except Fault (ℕ × VmmState) := do
  let (pml3, s) ← getEntry hhdm s table (pmlIndex page 3) flags
  let (pml2, s) ← getEntry hhdm s pml3 (pmlIndex page 2) flags
  getEntry hhdm s pml2 (pmlIndex page 1) flags

/-- `vmm_update_page_flags`. The new entry takes its frame from `entry`, which is the address of
the old entry. -/
def updatePageFlags (s : VmmState) (table virtualPage flags : ℕ) : Except Fault (Errno × VmmState) := do
  let (pml1, s) ← getLeafTable hhdm s table virtualPage (flags ||| flagReadWrite ||| memoryFlagUser)
  let entry := slotAddress pml1 (pmlIndex virtualPage 0)
  if isPresent (s.word entry) then .ok (.success, s.set entry (makeEntry (getPhysical entry) flags))
  else .ok (.eaddrnotavail, s)

/-- The loop of `vmm_update_flags`; the first argument bounds its turns. -/
def updateLoop (table address size flags : ℕ) : ℕ → ℕ → VmmState → Except Fault VmmState
  | 0, _, _ => .error .endlessLoop
  | n + 1, i, s =>
    if i < size then
      match updatePageFlags hhdm s table (wadd address i) flags with
      | .error f => .error f
      | .ok (.eaddrnotavail, _) => .error .panic
      | .ok (.success, s) => updateLoop table address size flags n (wadd i pageSize) s
    else .ok s

def vmmUpdateFlags (s : VmmState) (space address size flags : ℕ) : Except Fault VmmState :=
  updateLoop hhdm (getVirtualAddress hhdm space) address size flags (size / pageSize + 2) 0 s

variable {p q flags : ℕ}

theorem entryFlags_and_mask (flags : ℕ) : entryFlags flags &&& 0xfff &&& 0x000ffffffffff000 = 0 := by
  rw [Nat.and_assoc]
  exact Nat.and_zero _

@[simp] theorem getPhysical_getPhysical (e : ℕ) : getPhysical (getPhysical e) = getPhysical e := by
  rw [getPhysical, getPhysical, Nat.and_assoc, Nat.and_self]

@[simp] theorem getPhysical_makeEntry (p flags : ℕ) :
    getPhysical (makeEntry p flags) = getPhysical p := by
  rw [getPhysical, makeEntry, Nat.and_or_distrib_right, entryFlags_and_mask, Nat.or_zero,
    Nat.and_assoc, Nat.and_self]
  rfl

@[simp] theorem isPresent_makeEntry (p flags : ℕ) : isPresent (makeEntry p flags) = true := by
  have hflags : entryFlags flags &&& 0xfff &&& 1 = 1 := by
    unfold entryFlags
    split_ifs <;> rfl
  have hframe : p &&& 0x000ffffffffff000 &&& 1 = 0 := by
    rw [Nat.and_assoc]
    exact Nat.and_zero p
  rw [isPresent, makeEntry, flagPresent, Nat.and_or_distrib_right, hflags, hframe]
  rfl

def nextTable (word : ℕ → ℕ) (table index : ℕ) : Option ℕ :=
  if isPresent (word (slotAddress table index)) then
    some (getVirtualAddress hhdm (getPhysical (word (slotAddress table index))))
  else none

/-- The entries read on the way to the last table. -/
def upperSlots (word : ℕ → ℕ) (table page : ℕ) : List ℕ :=
  slotAddress table (pmlIndex page 3) ::
    match nextTable hhdm word table (pmlIndex page 3) with
    | none => []
    | some pml3 => slotAddress pml3 (pmlIndex page 2) ::
      match nextTable hhdm word pml3 (pmlIndex page 2) with
      | none => []
      | some pml2 => [slotAddress pml2 (pmlIndex page 1)]

/-- The address of the entry of a page. -/
def leafSlot (word : ℕ → ℕ) (table page : ℕ) : Option ℕ := do
  let pml3 ← nextTable hhdm word table (pmlIndex page 3)
  let pml2 ← nextTable hhdm word pml3 (pmlIndex page 2)
  let pml1 ← nextTable hhdm word pml2 (pmlIndex page 1)
  some (slotAddress pml1 (pmlIndex page 0))

/-- The entries of a page have an address and the last one is present. -/
def Mapped (word : ℕ → ℕ) (table page : ℕ) : Prop :=
  ∃ e, leafSlot hhdm word table page = some e ∧ isPresent (word e) = true

variable {hhdm} {s : VmmState} {word word' : ℕ → ℕ} {table page e : ℕ}

theorem nextTable_congr {index : ℕ}
    (h : word' (slotAddress table index) = word (slotAddress table index)) :
    nextTable hhdm word' table index = nextTable hhdm word table index := by
  unfold nextTable
  rw [h]

theorem leafSlot_congr (h : ∀ a ∈ upperSlots hhdm word table page, word' a = word a) :
    upperSlots hhdm word' table page = upperSlots hhdm word table page ∧
      leafSlot hhdm word' table page = leafSlot hhdm word table page := by
  unfold upperSlots leafSlot at *
  have h3 : nextTable hhdm word' table (pmlIndex page 3) = nextTable hhdm word table (pmlIndex page 3) :=
    nextTable_congr (h _ List.mem_cons_self)
  rw [h3]
  cases hn3 : nextTable hhdm word table (pmlIndex page 3) with
  | none => exact ⟨rfl, rfl⟩
  | some pml3 =>
    simp only [hn3] at h
    have h2 : nextTable hhdm word' pml3 (pmlIndex page 2) = nextTable hhdm word pml3 (pmlIndex page 2) :=
      nextTable_congr (h _ (List.mem_cons_of_mem _ List.mem_cons_self))
    simp only [h2, Option.bind_eq_bind, Option.bind_some]
    cases hn2 : nextTable hhdm word pml3 (pmlIndex page 2) with
    | none => exact ⟨trivial, rfl⟩
    | some pml2 =>
      simp only [hn2] at h
      have h1 : nextTable hhdm word' pml2 (pmlIndex page 1) = nextTable hhdm word pml2 (pmlIndex page 1) :=
        nextTable_congr (h _ (List.mem_cons_of_mem _ (List.mem_cons_of_mem _ List.mem_cons_self)))
      simp only [h1, Option.bind_some]
      exact ⟨trivial, trivial⟩

theorem getEntry_of_next {index t : ℕ} (flags : ℕ) (h : nextTable hhdm s.word table index = some t) :
    getEntry hhdm s table index flags = .ok (t, s) := by
  unfold nextTable at h
  split_ifs at h with hp
  rw [getEntry, if_pos hp, Option.some.inj h]

theorem updatePageFlags_of_leafSlot (flags : ℕ) (h : leafSlot hhdm s.word table page = some e)
    (hp : isPresent (s.word e) = true) :
    updatePageFlags hhdm s table page flags =
      .ok (.success, s.set e (makeEntry (getPhysical e) flags)) := by
  obtain ⟨pml3, h3, h⟩ := Option.bind_eq_some_iff.mp h
  obtain ⟨pml2, h2, h⟩ := Option.bind_eq_some_iff.mp h
  obtain ⟨pml1, h1, h⟩ := Option.bind_eq_some_iff.mp h
  cases h
  rw [updatePageFlags, getLeafTable, getEntry_of_next _ h3]
  simp only [ok_bind]
  rw [getEntry_of_next _ h2]
  simp only [ok_bind]
  rw [getEntry_of_next _ h1]
  simp only [ok_bind, hp, if_true]

end Kot.Kernel.Vmm
