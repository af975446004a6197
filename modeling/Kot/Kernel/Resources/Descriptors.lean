import Mathlib.Data.Fin.Basic
import Mathlib.Algebra.Group.Int.Defs
import Mathlib.Logic.Function.Basic
import Mathlib.Order.Fin.Basic
import Mathlib.Order.WellFounded
import Mathlib.Tactic.SplitIfs
import Kot.Kernel.Machine
import Kot.Lib.Run

/-! The descriptor tables of the processes (`global/resources.c`). -/
namespace Kot.Kernel.Resources

open Function
open Kot.Lib (Run)

/-- A value of `descriptor_index_t`, which has 8 bits. -/
abbrev Index := Fin 256

/-- `descriptors_ctx_t` with pointers of the type `D`. -/
structure Ctx (D : Type) where
  descriptors : Index → Option D
  indexSearchBegin : Index

def Ctx.empty (D : Type) : Ctx D := ⟨fun _ => none, 0⟩

/-- The tables, and the flags `is_parent` of the records. -/
structure Tables (D : Type) where
  ctx : ℕ → Ctx D
  isParent : D → Bool

def einval : ℤ := 22

section Model

variable {D : Type}

def checkIndex (index : ℤ) : Option Index :=
  if h : 0 ≤ index ∧ index < 256 then some ⟨index.toNat, by omega⟩ else none

/-- The loop of `allocate_index`. The bound of the source is never reached: behind 255 comes 0. -/
def searchIndex (slots : Index → Option D) : ℕ → Index → Option Index
  | 0, _ => none
  | turns + 1, i => if (slots i).isNone then some i else searchIndex slots turns (i + 1)

/-- `allocate_index`. After 256 turns without an empty slot the loop is where it began. -/
def allocateIndex (c : Ctx D) : Except Fault (Index × Ctx D) :=
  match searchIndex c.descriptors 256 c.indexSearchBegin with
  | some i => .ok (i, { c with indexSearchBegin := i })
  | none => .error .endlessLoop

def freeIndex (c : Ctx D) (i : Index) : Ctx D where
  descriptors := update c.descriptors i none
  indexSearchBegin := if i < c.indexSearchBegin then i else c.indexSearchBegin

variable [DecidableEq D]

def addDescriptor (s : Tables D) (p : ℕ) (d : D) : Except Fault (ℤ × Tables D) := do
  let (i, c) ← allocateIndex (s.ctx p)
  .ok ((i.val : ℤ),
    { ctx := update s.ctx p { c with descriptors := update c.descriptors i (some d) }
      isParent := update s.isParent d true })

def removeDescriptor (s : Tables D) (p : ℕ) (index : ℤ) : ℤ × Tables D :=
  match checkIndex index with
  | none => (einval, s)
  | some i => (0, { s with ctx := update s.ctx p (freeIndex (s.ctx p) i) })

def moveDescriptor (s : Tables D) (p : ℕ) (old new : ℤ) : ℤ × Tables D :=
  match checkIndex old, checkIndex new with
  | some i, some j =>
    if ((s.ctx p).descriptors i).isNone then (einval, s)
    else if ((s.ctx p).descriptors j).isSome then (einval, s)
    else
      let c := { s.ctx p with
        descriptors := update (s.ctx p).descriptors j ((s.ctx p).descriptors i) }
      (0, { s with ctx := update s.ctx p (freeIndex c i) })
  | _, _ => (einval, s)

def copyProcessDescriptors (s : Tables D) (dst src : ℕ) : Except Fault (ℤ × Tables D) :=
  if (s.ctx dst).indexSearchBegin ≠ 0 then .error .panic
  else .ok (0,
    { ctx := update s.ctx dst { s.ctx dst with descriptors := (s.ctx src).descriptors }
      isParent := fun d => if ∃ i, (s.ctx src).descriptors i = some d then false else s.isParent d })

end Model

section Search

variable {D : Type}

/-- Below the place where the search begins nothing is empty. -/
def Searched (c : Ctx D) : Prop := ∀ i < c.indexSearchBegin, c.descriptors i ≠ none

variable {o : Option D} {slots : Index → Option D} {j : Index} {c : Ctx D}

theorem isNone_of_ne (h : o ≠ none) : o.isNone = false := by
  cases o with
  | none => exact absurd rfl h
  | some d => rfl

theorem searchIndex_eq (hj : slots j = none) {turns : ℕ}
    {i : Index} (hi : i ≤ j) (hturns : j.val - i.val < turns)
    (hbetween : ∀ k, i ≤ k → k < j → slots k ≠ none) : searchIndex slots turns i = some j := by
  induction turns generalizing i with
  | zero => omega
  | succ turns ih =>
    unfold searchIndex
    rcases Fin.lt_or_eq_of_le hi with hlt | rfl
    · have hval := Fin.lt_def.mp hlt
      rw [isNone_of_ne (hbetween i (Fin.le_refl i) hlt)]
      apply ih
      · exact Fin.le_def.mpr (by omega)
      · omega
      · intro k hk hkj
        refine hbetween k ?_ hkj
        have := Fin.le_def.mp hk
        exact Fin.le_def.mpr (by omega)
    · simp [hj]

theorem searchIndex_full (h : ∀ i, slots i ≠ none) (turns : ℕ) (i : Index) :
    searchIndex slots turns i = none := by
  induction turns generalizing i with
  | zero => rfl
  | succ turns ih =>
    simp only [searchIndex, isNone_of_ne (h i)]
    exact ih (i + 1)

theorem exists_lowest (h : ∃ i, slots i = none) :
    ∃ j, slots j = none ∧ ∀ i < j, slots i ≠ none := by
  obtain ⟨j, hj, hlow⟩ := (wellFounded_lt : WellFounded fun i j : Index => i < j).has_min {i | slots i = none} h
  exact ⟨j, hj, fun i hlt hi => hlow i hi hlt⟩

/-! Runs keep the slots below the begin of the search in use. -/

theorem Searched.freeIndex (hc : Searched c) (i : Index) : Searched (freeIndex c i) := by
  intro j hj
  have hne : j ≠ i := by
    rintro rfl
    simp only [Resources.freeIndex] at hj
    split_ifs at hj with hlt
    · exact absurd hj (Fin.lt_irrefl j)
    · exact hlt hj
  have hbegin : j < c.indexSearchBegin := by
    simp only [Resources.freeIndex] at hj
    split_ifs at hj with hlt
    · exact Fin.lt_trans hj hlt
    · exact hj
  simp only [Resources.freeIndex, update_of_ne hne]
  exact hc j hbegin

theorem Searched.fill (hc : Searched c) (i : Index) (ho : o ≠ none) :
    Searched { c with descriptors := update c.descriptors i o } := by
  intro j hj
  by_cases hji : j = i
  · subst hji
    simpa using ho
  · simp only [update_of_ne hji]
    exact hc j hj

def AllSearched (s : Tables D) : Prop := ∀ p, Searched (s.ctx p)

theorem AllSearched.update {s : Tables D} (h : AllSearched s) {p : ℕ} (hc : Searched c)
    {isParent : D → Bool} : AllSearched ⟨update s.ctx p c, isParent⟩ := by
  intro q
  by_cases hq : q = p
  · subst hq
    simpa using hc
  · simp only [update_of_ne hq]
    exact h q

def start (isParent : D → Bool) : Tables D := ⟨fun _ => Ctx.empty D, isParent⟩

theorem allSearched_start {isParent : D → Bool} : AllSearched (start isParent) := by
  intro p i hi
  exact absurd hi (Fin.not_lt_zero i)

end Search

inductive Call (D : Type)
  | add (p : ℕ) (d : D)
  | remove (p : ℕ) (index : ℤ)
  | move (p : ℕ) (old new : ℤ)
  | copy (dst src : ℕ)

section Runs

variable {D : Type} [DecidableEq D] {s s' : Tables D}

def perform (s : Tables D) : Call D → Except Fault (ℤ × Tables D)
  | .add p d => addDescriptor s p d
  | .remove p index => .ok (removeDescriptor s p index)
  | .move p old new => .ok (moveDescriptor s p old new)
  | .copy dst src => copyProcessDescriptors s dst src

def Step (s : Tables D) (c : Call D) (s' : Tables D) : Prop := ∃ r, perform s c = .ok (r, s')

/-- The call takes the lowest empty slot, or is refused when there is none. -/
def AddsLowest (s : Tables D) (p : ℕ) (d : D) : Prop :=
  ∃ r s', addDescriptor s p d = .ok (r, s') ∧
    ((∃ i : Index, r = (i.val : ℤ) ∧ (s.ctx p).descriptors i = none ∧
        (∀ j < i, (s.ctx p).descriptors j ≠ none) ∧
        (s'.ctx p).descriptors = update (s.ctx p).descriptors i (some d)) ∨
      ((∀ i, (s.ctx p).descriptors i ≠ none) ∧ r < 0 ∧ s' = s))

theorem addDescriptor_eq (h : AllSearched s) {p : ℕ} {d : D} {j : Index}
    (hj : (s.ctx p).descriptors j = none) (hlow : ∀ i < j, (s.ctx p).descriptors i ≠ none) :
    addDescriptor s p d = .ok ((j.val : ℤ),
      { ctx := update s.ctx p ⟨update (s.ctx p).descriptors j (some d), j⟩
        isParent := update s.isParent d true }) := by
  have hbegin : (s.ctx p).indexSearchBegin ≤ j := by
    by_contra hlt
    exact h p j (Fin.not_le.mp hlt) hj
  have hsearch : searchIndex (s.ctx p).descriptors 256 (s.ctx p).indexSearchBegin = some j :=
    searchIndex_eq hj hbegin (by omega) fun k _ hk => hlow k hk
  simp only [addDescriptor, allocateIndex, hsearch, ok_bind]

theorem addDescriptor_full {p : ℕ} {d : D} (hfull : ∀ i, (s.ctx p).descriptors i ≠ none) :
    addDescriptor s p d = .error .endlessLoop := by
  rw [addDescriptor, allocateIndex, searchIndex_full hfull]
  rfl

theorem AllSearched.step (h : AllSearched s) {c : Call D} (hstep : Step s c s') : AllSearched s' := by
  obtain ⟨r, hr⟩ := hstep
  cases c with
  | add p d =>
    by_cases hfull : ∀ i, (s.ctx p).descriptors i ≠ none
    · rw [perform, addDescriptor_full hfull] at hr
      cases hr
    · obtain ⟨j, hj, hlow⟩ := exists_lowest (by simpa using hfull)
      rw [perform, addDescriptor_eq h hj hlow] at hr
      obtain ⟨-, rfl⟩ := Prod.mk.inj (Except.ok.inj hr)
      apply h.update
      intro i hi
      have hij : i < j := hi
      simp only [update_of_ne (Fin.ne_of_lt hij)]
      exact hlow i hij
  | remove p index =>
    obtain ⟨-, rfl⟩ := Prod.mk.inj (Except.ok.inj hr)
    split
    · exact h
    · exact h.update ((h p).freeIndex _)
  | move p old new =>
    obtain ⟨-, rfl⟩ := Prod.mk.inj (Except.ok.inj hr)
    split
    · split_ifs with hold hnew
      · exact h
      · exact h
      · refine h.update (((h p).fill _ ?_).freeIndex _)
        intro hnone
        exact hold (by rw [hnone]; rfl)
    · exact h
  | copy dst src =>
    simp only [perform, copyProcessDescriptors] at hr
    split_ifs at hr with hbegin
    obtain ⟨-, rfl⟩ := Prod.mk.inj (Except.ok.inj hr)
    apply h.update
    intro i hi
    simp only [ne_eq, not_not] at hbegin
    simp only [hbegin] at hi
    exact absurd hi (Fin.not_lt_zero i)

/-- In every state that calls on empty tables reach, a descriptor is added as it should be exactly if
there is an empty slot. -/
theorem addsLowest_iff {isParent : D → Bool} {calls : List (Call D)}
    (hrun : Run Step (start isParent) calls s) (p : ℕ) (d : D) :
    AddsLowest s p d ↔ ∃ i, (s.ctx p).descriptors i = none := by
  have hs := hrun.invariant allSearched_start fun _ _ _ h hstep => h.step hstep
  constructor
  · rintro ⟨r, s', hadd, -⟩
    by_contra hfull
    rw [addDescriptor_full (by simpa using hfull)] at hadd
    cases hadd
  · intro hempty
    obtain ⟨j, hj, hlow⟩ := exists_lowest hempty
    refine ⟨_, _, addDescriptor_eq hs hj hlow, .inl ⟨j, rfl, hj, hlow, ?_⟩⟩
    simp only [update_self]

theorem exists_run_adds {isParent : D → Bool} {p : ℕ} (d : D) {n : ℕ} (hn : n ≤ 256) :
    ∃ s, Run Step (start isParent) (List.replicate n (.add p d)) s ∧ AllSearched s ∧
      ∀ i, (s.ctx p).descriptors i = none ↔ n ≤ i.val := by
  induction n with
  | zero => exact ⟨_, .nil, allSearched_start, fun i => iff_of_true rfl (Nat.zero_le _)⟩
  | succ n ih =>
    obtain ⟨s, hrun, hs, hslots⟩ := ih (by omega)
    have hlow : ∀ i < (⟨n, by omega⟩ : Index), (s.ctx p).descriptors i ≠ none := by
      intro i hi
      rw [ne_eq, hslots]
      exact Nat.not_le.mpr (Fin.lt_def.mp hi)
    have hadd := addDescriptor_eq (d := d) hs ((hslots ⟨n, by omega⟩).mpr (Nat.le_refl n)) hlow
    have hstep : Step s (.add p d) _ := ⟨_, hadd⟩
    refine ⟨_, List.replicate_succ' ▸ hrun.snoc hstep, hs.step hstep, ?_⟩
    intro i
    simp only [update_self]
    by_cases hi : i = ⟨n, by omega⟩
    · subst hi
      simp
    · have hne : i.val ≠ n := fun h => hi (Fin.ext h)
      rw [update_of_ne hi, hslots]
      omega

end Runs

/-- After a descriptor is removed the next one takes its slot. -/
theorem addsLowest_removed_slot :
    ∃ s, Run Step (start fun _ : ℕ => false) [.add 0 1, .remove 0 0] s ∧ AddsLowest s 0 3 := by
  have hadd : Step (start fun _ : ℕ => false) (.add 0 1) _ := ⟨_, rfl⟩
  have hrun := Run.nil.snoc hadd
  have hrun := hrun.snoc (i := .remove 0 0) ⟨_, rfl⟩
  exact ⟨_, hrun, (addsLowest_iff hrun 0 3).mpr ⟨0, rfl⟩⟩

/-- A table of which all slots are in use is reached, and the next call does not return. -/
theorem full_table_is_endless :
    ∃ s, Run Step (start fun _ : ℕ => false) (List.replicate 256 (.add 0 1)) s ∧
      addDescriptor s 0 2 = .error .endlessLoop := by
  obtain ⟨s, hrun, -, hslots⟩ := exists_run_adds 1 (Nat.le_refl 256)
  refine ⟨s, hrun, addDescriptor_full ?_⟩
  intro i hi
  exact absurd ((hslots i).mp hi) (by omega)

end Kot.Kernel.Resources
