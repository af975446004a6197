import Mathlib.Data.List.Range
import Kot.Kernel.Vmm.Tables

/-! What `vmm_update_flags` leaves in the tables of a space. -/
namespace Kot.Kernel.Vmm

variable (hhdm : ℕ)

def SamePage (p q : ℕ) : Prop := ∀ level < 4, pmlIndex p level = pmlIndex q level

/-- The tables of a space form a tree: no entry of a page is also an entry of an upper table, and
different pages have different entries. -/
structure Separate (word : ℕ → ℕ) (table : ℕ) : Prop where
  leaf_not_upper : ∀ p q e, leafSlot hhdm word table p = some e → e ∉ upperSlots hhdm word table q
  leaf_inj : ∀ p q e, leafSlot hhdm word table p = some e → leafSlot hhdm word table q = some e →
    SamePage p q

def pagesOf (address n : ℕ) : List ℕ := (List.range n).map fun i => wadd address (i * pageSize)

/-- The pages have the requested flags, all pages keep their frames, and nothing else changes. -/
structure FlagsUpdated (word word' : ℕ → ℕ) (table : ℕ) (pages : List ℕ) (flags : ℕ) : Prop where
  walk : ∀ q, leafSlot hhdm word' table q = leafSlot hhdm word table q
  frame : ∀ q e, leafSlot hhdm word table q = some e → getPhysical (word' e) = getPhysical (word e)
  flags : ∀ p ∈ pages, ∀ e, leafSlot hhdm word table p = some e → word' e &&& 0xfff = entryFlags flags
  other : ∀ q e, (∀ p ∈ pages, ¬ SamePage q p) → leafSlot hhdm word table q = some e →
    word' e = word e

/-- The memory after an update of the pages. -/
def updated (word : ℕ → ℕ) (table : ℕ) (pages : List ℕ) (flags : ℕ) : ℕ → ℕ := fun a =>
  if ∃ p ∈ pages, leafSlot hhdm word table p = some a then makeEntry (getPhysical a) flags
  else word a

variable {hhdm} {word : ℕ → ℕ} {table address n flags e p : ℕ} {pages : List ℕ} {s : VmmState}

theorem pagesOf_succ (address n : ℕ) :
    pagesOf address (n + 1) = pagesOf address n ++ [wadd address (n * pageSize)] := by
  simp [pagesOf, List.range_succ]

@[simp] theorem updated_nil (word : ℕ → ℕ) (table flags : ℕ) : updated hhdm word table [] flags = word := by
  funext a
  simp [updated]

theorem updated_of_leafSlot (hp : p ∈ pages) (h : leafSlot hhdm word table p = some e) :
    updated hhdm word table pages flags e = makeEntry (getPhysical e) flags :=
  if_pos ⟨p, hp, h⟩

theorem updated_of_not_leaf {a : ℕ} (h : ∀ p ∈ pages, leafSlot hhdm word table p ≠ some a) :
    updated hhdm word table pages flags a = word a := by
  rw [updated, if_neg]
  rintro ⟨p, hp, he⟩
  exact h p hp he

theorem leafSlot_updated (hsep : Separate hhdm word table) (pages : List ℕ) (flags q : ℕ) :
    leafSlot hhdm (updated hhdm word table pages flags) table q = leafSlot hhdm word table q := by
  refine (leafSlot_congr fun a ha => ?_).2
  apply updated_of_not_leaf
  intro p _ hleaf
  exact hsep.leaf_not_upper p q a hleaf ha

theorem update_updated (h : leafSlot hhdm word table p = some e) :
    Function.update (updated hhdm word table pages flags) e (makeEntry (getPhysical e) flags) =
      updated hhdm word table (pages ++ [p]) flags := by
  funext a
  by_cases ha : a = e
  · subst ha
    rw [Function.update_self, updated_of_leafSlot (List.mem_append_right _ List.mem_cons_self) h]
  · rw [Function.update_of_ne ha]
    have hne : leafSlot hhdm word table p ≠ some a := by
      rw [h]
      exact fun heq => ha (Option.some.inj heq).symm
    simp [updated, hne]

theorem updateLoop_eq (hsep : Separate hhdm word table)
    (hmapped : ∀ p ∈ pagesOf address n, Mapped hhdm word table p) (hn : n * pageSize < 2 ^ 64) :
    ∀ m k fuel s, m + k = n → m < fuel → s.word = updated hhdm word table (pagesOf address k) flags →
      updateLoop hhdm table address (n * pageSize) flags fuel (k * pageSize) s =
        .ok { s with word := updated hhdm word table (pagesOf address n) flags } := by
  intro m
  induction m with
  | zero =>
    rintro k (_ | fuel) s hk hfuel hs
    · cases hfuel
    · obtain rfl : k = n := by omega
      rw [updateLoop, if_neg (lt_irrefl _), ← hs]
  | succ m ih =>
    rintro k (_ | fuel) s hk hfuel hs
    · cases hfuel
    · have hkn : (k + 1) * pageSize ≤ n * pageSize := Nat.mul_le_mul_right _ (by omega)
      have hlt : k * pageSize < n * pageSize := Nat.mul_lt_mul_of_pos_right (by omega) (by decide)
      have hnext : wadd (k * pageSize) pageSize = (k + 1) * pageSize := by
        rw [Nat.succ_mul] at hkn ⊢
        exact wadd_of_lt (by omega)
      have hmem : wadd address (k * pageSize) ∈ pagesOf address n :=
        List.mem_map_of_mem (List.mem_range.mpr (by omega))
      obtain ⟨e, he, hp⟩ := hmapped _ hmem
      have he' : leafSlot hhdm s.word table (wadd address (k * pageSize)) = some e := by
        rw [hs, leafSlot_updated hsep, he]
      have hp' : isPresent (s.word e) = true := by
        rw [hs, updated]
        split_ifs
        · exact isPresent_makeEntry _ _
        · exact hp
      rw [updateLoop, if_pos hlt, updatePageFlags_of_leafSlot flags he' hp', hnext]
      refine ih (k + 1) fuel _ (by omega) (by omega) ?_
      rw [VmmState.set, hs, update_updated he, pagesOf_succ]

theorem entryFlags_and (flags : ℕ) : entryFlags flags &&& 0xfff = entryFlags flags := by
  unfold entryFlags
  split_ifs <;> rfl

theorem makeEntry_and (p flags : ℕ) : makeEntry p flags &&& 0xfff = entryFlags flags := by
  have hframe : p &&& 0x000ffffffffff000 &&& 0xfff = 0 := by
    rw [Nat.and_assoc]
    exact Nat.and_zero p
  rw [makeEntry, Nat.and_or_distrib_right, hframe, Nat.zero_or, entryFlags_and, entryFlags_and]

/-- The frame of a page is the address of its entry, as far as the mask keeps it. -/
def FrameIsSlot (hhdm : ℕ) (word : ℕ → ℕ) (table page : ℕ) : Prop :=
  ∀ e, leafSlot hhdm word table page = some e → getPhysical e = getPhysical (word e)

theorem flagsUpdated_updated (hsep : Separate hhdm word table) :
    FlagsUpdated hhdm word (updated hhdm word table pages flags) table pages flags ↔
      ∀ p ∈ pages, FrameIsSlot hhdm word table p := by
  constructor
  · intro h p hp e he
    have hframe := h.frame p e he
    rwa [updated_of_leafSlot hp he, getPhysical_makeEntry, getPhysical_getPhysical] at hframe
  · intro h
    refine ⟨leafSlot_updated hsep pages flags, ?_, ?_, ?_⟩
    · intro q e _
      by_cases hin : ∃ p ∈ pages, leafSlot hhdm word table p = some e
      · obtain ⟨p, hp, he⟩ := hin
        rw [updated_of_leafSlot hp he, getPhysical_makeEntry, getPhysical_getPhysical, h p hp e he]
      · rw [updated, if_neg hin]
    · intro p hp e he
      rw [updated_of_leafSlot hp he, makeEntry_and]
    · intro q e hq he
      apply updated_of_not_leaf
      intro p hp hp'
      exact hq p hp (hsep.leaf_inj q p e he hp')

/-- The call keeps the frames exactly when each page of the range is mapped to the frame that the
masked address of its own entry names. -/
theorem flagsUpdated_iff (s : VmmState) (space address n flags : ℕ)
    (hsep : Separate hhdm s.word (getVirtualAddress hhdm space))
    (hmapped : ∀ p ∈ pagesOf address n, Mapped hhdm s.word (getVirtualAddress hhdm space) p)
    (hn : n * pageSize < 2 ^ 64) :
    (∃ s', vmmUpdateFlags hhdm s space address (n * pageSize) flags = .ok s' ∧
      FlagsUpdated hhdm s.word s'.word (getVirtualAddress hhdm space) (pagesOf address n) flags) ↔
    ∀ p ∈ pagesOf address n, FrameIsSlot hhdm s.word (getVirtualAddress hhdm space) p := by
  have hturns : n * pageSize / pageSize = n := Nat.mul_div_cancel _ (by decide)
  have hok := updateLoop_eq hsep hmapped hn n 0 (n + 2) s rfl (by omega) (updated_nil _ _ flags).symm
  rw [Nat.zero_mul] at hok
  rw [vmmUpdateFlags, hturns, hok, ← flagsUpdated_updated hsep]
  constructor
  · rintro ⟨s', hs', h⟩
    cases hs'
    exact h
  · intro h
    exact ⟨_, rfl, h⟩

/-! A space of four tables with one page, at address 0. -/

theorem pmlIndex_lt (address level : ℕ) : pmlIndex address level < 512 := by
  rw [pmlIndex, Nat.shiftRight_and_distrib, Nat.shiftLeft_shiftRight]
  exact Nat.lt_succ_of_le Nat.and_le_right

def onePage (hhdm frame : ℕ) : VmmState where
  word a :=
    if a = hhdm + 0x1000 then makeEntry 0x2000 15
    else if a = hhdm + 0x2000 then makeEntry 0x3000 15
    else if a = hhdm + 0x3000 then makeEntry 0x4000 15
    else if a = hhdm + 0x4000 then makeEntry frame 11
    else 0
  pool := []

section OnePage

variable {frame : ℕ}

theorem onePage_word {t i : ℕ} (ht : t = 1 ∨ t = 2 ∨ t = 3) (hi : i < 512) :
    (onePage hhdm frame).word (slotAddress (hhdm + t * 0x1000) i) =
      if i = 0 then makeEntry ((t + 1) * 0x1000) 15 else 0 := by
  unfold slotAddress onePage
  obtain rfl | rfl | rfl := ht <;> grind

section
variable (hhdm_lt : hhdm + 0x5000 < 2 ^ 64)
include hhdm_lt

theorem onePage_next {t i : ℕ} (ht : t = 1 ∨ t = 2 ∨ t = 3) (hi : i < 512) :
    nextTable hhdm (onePage hhdm frame).word (hhdm + t * 0x1000) i =
      if i = 0 then some (hhdm + (t + 1) * 0x1000) else none := by
  have hframe : getPhysical ((t + 1) * 0x1000) = (t + 1) * 0x1000 := by
    obtain rfl | rfl | rfl := ht <;> rfl
  rw [nextTable, onePage_word ht hi]
  split_ifs with hz hp hp
  · rw [getPhysical_makeEntry, hframe, getVirtualAddress, wadd_of_lt (by omega), Nat.add_comm]
  · exact absurd (isPresent_makeEntry _ _) hp
  · cases hp
  · rfl

theorem onePage_leafSlot {q : ℕ}
    (h : leafSlot hhdm (onePage hhdm frame).word (hhdm + 1 * 0x1000) q = some e) :
    pmlIndex q 3 = 0 ∧ pmlIndex q 2 = 0 ∧ pmlIndex q 1 = 0 ∧
      e = slotAddress (hhdm + 4 * 0x1000) (pmlIndex q 0) := by
  obtain ⟨pml3, h3, h⟩ := Option.bind_eq_some_iff.mp h
  rw [onePage_next hhdm_lt (by decide) (pmlIndex_lt q 3)] at h3
  split_ifs at h3 with hz3
  cases h3
  obtain ⟨pml2, h2, h⟩ := Option.bind_eq_some_iff.mp h
  rw [onePage_next hhdm_lt (by decide) (pmlIndex_lt q 2)] at h2
  split_ifs at h2 with hz2
  cases h2
  obtain ⟨pml1, h1, h⟩ := Option.bind_eq_some_iff.mp h
  rw [onePage_next hhdm_lt (by decide) (pmlIndex_lt q 1)] at h1
  split_ifs at h1 with hz1
  cases h1
  exact ⟨hz3, hz2, hz1, (Option.some.inj h).symm⟩

theorem onePage_upper {q a : ℕ}
    (h : a ∈ upperSlots hhdm (onePage hhdm frame).word (hhdm + 1 * 0x1000) q) :
    a < hhdm + 4 * 0x1000 := by
  have h3 := pmlIndex_lt q 3
  have h2 := pmlIndex_lt q 2
  have h1 := pmlIndex_lt q 1
  unfold upperSlots at h
  rw [onePage_next hhdm_lt (by decide) h3] at h
  simp only [slotAddress] at h
  split_ifs at h with hz
  · simp only [onePage_next hhdm_lt (show 1 + 1 = 1 ∨ 1 + 1 = 2 ∨ 1 + 1 = 3 by decide) h2] at h
    split_ifs at h <;> simp at h <;> omega
  · simp at h
    omega

theorem onePage_separate : Separate hhdm (onePage hhdm frame).word (hhdm + 1 * 0x1000) := by
  constructor
  · intro p q e hp hq
    obtain ⟨-, -, -, rfl⟩ := onePage_leafSlot hhdm_lt hp
    have hlt := onePage_upper hhdm_lt hq
    unfold slotAddress at hlt
    omega
  · intro p q e hp hq
    obtain ⟨hp3, hp2, hp1, rfl⟩ := onePage_leafSlot hhdm_lt hp
    obtain ⟨hq3, hq2, hq1, he⟩ := onePage_leafSlot hhdm_lt hq
    unfold slotAddress at he
    intro level hlevel
    obtain rfl | rfl | rfl | rfl : level = 0 ∨ level = 1 ∨ level = 2 ∨ level = 3 := by omega
    · omega
    · rw [hp1, hq1]
    · rw [hp2, hq2]
    · rw [hp3, hq3]

end

end OnePage

/-- A page that maps its own last table, in a direct map whose address the mask clears. -/
theorem flagsUpdated_own_table :
    (∃ s', vmmUpdateFlags 0xfff0000000000000 (onePage 0xfff0000000000000 0x4000) 0x1000 0 pageSize 0 = .ok s' ∧
      FlagsUpdated 0xfff0000000000000 (onePage 0xfff0000000000000 0x4000).word s'.word
        0xfff0000000001000 (pagesOf 0 1) 0) := by
  have hleaf : leafSlot 0xfff0000000000000 (onePage 0xfff0000000000000 0x4000).word 0xfff0000000001000 0 =
      some 0xfff0000000004000 := by decide
  refine (flagsUpdated_iff (onePage 0xfff0000000000000 0x4000) 0x1000 0 1 0 ?_ ?_ (by decide)).mpr ?_
  · exact onePage_separate (by decide)
  · intro p hp
    obtain rfl : p = 0 := List.mem_singleton.mp hp
    exact ⟨_, hleaf, by decide⟩
  · intro p hp e he
    obtain rfl : p = 0 := List.mem_singleton.mp hp
    obtain rfl := Option.some.inj (hleaf.symm.trans he)
    decide

/-- A page of frame `0x5000`, made read-only: it is then mapped to the frame `0xf800000004000`. -/
theorem update_changes_frame :
    Separate 0xffff800000000000 (onePage 0xffff800000000000 0x5000).word 0xffff800000001000 ∧
    leafSlot 0xffff800000000000 (onePage 0xffff800000000000 0x5000).word 0xffff800000001000 0 =
      some 0xffff800000004000 ∧
    getPhysical ((onePage 0xffff800000000000 0x5000).word 0xffff800000004000) = 0x5000 ∧
    ∃ s', vmmUpdateFlags 0xffff800000000000 (onePage 0xffff800000000000 0x5000) 0x1000 0 pageSize 8 = .ok s' ∧
      getPhysical (s'.word 0xffff800000004000) = 0xf800000004000 :=
  ⟨onePage_separate (by decide), by decide, by decide, _, rfl, by decide⟩

end Kot.Kernel.Vmm
