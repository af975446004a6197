import Mathlib.Data.List.Perm.Basic
import Kot.Lib.Tiling
import Kot.Kernel.Heap.SegmentList

/-! The segments as they lie in memory, from the top down: disjoint with their headers,
aligned, and never two free ones in a row. Each change of the list keeps this. -/
namespace Kot.Kernel.Heap
open Kot.Lib List

def Segment.stop (v : Segment) : ℕ := v.base + headerSize + v.length

/-- Segments between `lo` and `hi`, from higher to lower addresses. -/
structure Stacked (lo hi : ℕ) (V : List Segment) : Prop where
  below : V.Pairwise fun a b => b.stop ≤ a.base
  inside : ∀ a ∈ V, lo ≤ a.base ∧ a.stop ≤ hi
  aligned : ∀ a ∈ V, 16 ∣ a.base ∧ 16 ∣ a.length

def Apart (V : List Segment) : Prop := V.IsChain fun a b => ¬ (a.isFree = true ∧ b.isFree = true)

def usedBlocks (V : List Segment) : List (ℕ × ℕ) :=
  (V.filter fun v => !v.isFree).map fun v => (v.base + headerSize, v.length)

variable {lo hi : ℕ} {V V1 V2 : List Segment} {a b v w : Segment}

@[simp] theorem usedBlocks_nil : usedBlocks [] = [] := rfl

@[simp] theorem usedBlocks_append : usedBlocks (V1 ++ V2) = usedBlocks V1 ++ usedBlocks V2 := by
  simp [usedBlocks]

theorem usedBlocks_cons_free (h : v.isFree = true) : usedBlocks (v :: V) = usedBlocks V := by
  simp [usedBlocks, h]

theorem usedBlocks_cons_used (h : v.isFree = false) :
    usedBlocks (v :: V) = (v.base + headerSize, v.length) :: usedBlocks V := by
  simp [usedBlocks, h]

theorem mem_usedBlocks {p n : ℕ} :
    (p, n) ∈ usedBlocks V ↔ ∃ v ∈ V, v.isFree = false ∧ p = v.base + headerSize ∧ n = v.length := by
  simp only [usedBlocks, mem_map, mem_filter, Prod.mk.injEq, Bool.not_eq_true',
    and_assoc]
  grind

theorem Stacked.replace {W0 W : List Segment} {x y : ℕ} (h : Stacked lo hi (V1 ++ (W0 ++ V2)))
    (hx : lo ≤ x) (hy : y ≤ hi) (hV1 : ∀ v ∈ V1, y ≤ v.base) (hV2 : ∀ v ∈ V2, v.stop ≤ x)
    (hW : Stacked x y W) : Stacked lo hi (V1 ++ (W ++ V2)) := by
  have hb := h.below
  simp only [pairwise_append, mem_append] at hb
  obtain ⟨hb1, ⟨-, hb2, -⟩, hb12⟩ := hb
  have hsplit : ∀ v ∈ V1 ++ (W ++ V2), v ∈ V1 ++ (W0 ++ V2) ∨ v ∈ W := by
    intro v hv
    simp only [mem_append] at hv ⊢
    tauto
  refine ⟨?_, fun v hv => ?_, fun v hv => ?_⟩
  · simp only [pairwise_append, mem_append]
    refine ⟨hb1, ⟨hW.below, hb2, fun v hv u hu => ?_⟩, ?_⟩
    · have := (hW.inside v hv).1
      have := hV2 u hu
      omega
    · rintro v hv u (hu | hu)
      · have := (hW.inside u hu).2
        have := hV1 v hv
        omega
      · exact hb12 v hv u (.inr hu)
  · rcases hsplit v hv with hv | hv
    · exact h.inside v hv
    · have := hW.inside v hv
      omega
  · rcases hsplit v hv with hv | hv
    · exact h.aligned v hv
    · exact hW.aligned v hv

theorem Stacked.around (h : Stacked lo hi (V1 ++ v :: V2)) :
    (∀ u ∈ V1, v.stop ≤ u.base) ∧ ∀ u ∈ V2, u.stop ≤ v.base := by
  have hb := h.below
  simp only [pairwise_append, pairwise_cons, mem_cons] at hb
  exact ⟨fun u hu => hb.2.2 u hu v (.inl rfl), hb.2.1.1⟩

theorem stacked_singleton (hlo : lo ≤ v.base) (hhi : v.stop ≤ hi) (hb : 16 ∣ v.base)
    (hl : 16 ∣ v.length) : Stacked lo hi [v] where
  below := pairwise_singleton _ _
  inside := by simpa using ⟨hlo, hhi⟩
  aligned := by simpa using ⟨hb, hl⟩

theorem Stacked.mono {lo' hi' : ℕ} (h : Stacked lo hi V) (hl : lo' ≤ lo) (hh : hi ≤ hi') :
    Stacked lo' hi' V where
  below := h.below
  inside v hv := by
    have := h.inside v hv
    omega
  aligned := h.aligned

theorem Stacked.split {size : ℕ} {f g : Bool} (h : Stacked lo hi (V1 ++ v :: V2))
    (hs : size + headerSize < v.length) (ha : 16 ∣ size) :
    Stacked lo hi (V1 ++ ⟨v.base + v.length - size, size, f⟩ ::
      ⟨v.base, v.length - (size + headerSize), g⟩ :: V2) := by
  obtain ⟨h1, h2⟩ := h.around
  obtain ⟨hlo, hhi⟩ := h.inside v (by simp)
  obtain ⟨hvb, hvl⟩ := h.aligned v (by simp)
  have h : Stacked lo hi (V1 ++ ([v] ++ V2)) := h
  apply h.replace hlo hhi h1 h2 (W := [_, _])
  unfold headerSize at *
  constructor
  · simp only [pairwise_pair, Segment.stop, headerSize]
    omega
  · simp only [mem_cons, not_mem_nil, or_false, forall_eq_or_imp, forall_eq,
      Segment.stop, headerSize]
    omega
  · simp only [mem_cons, not_mem_nil, or_false, forall_eq_or_imp, forall_eq]
    omega

theorem Stacked.merge {f : Bool} (h : Stacked lo hi (V1 ++ a :: b :: V2)) :
    Stacked lo hi (V1 ++ ⟨b.base, b.length + (a.length + headerSize), f⟩ :: V2) := by
  have h' : Stacked lo hi ((V1 ++ [a]) ++ b :: V2) := by simpa using h
  obtain ⟨h1, -⟩ := h.around
  obtain ⟨h1', h2⟩ := h'.around
  have hab := h1' a (by simp)
  obtain ⟨-, hhi⟩ := h.inside a (by simp)
  obtain ⟨hlo, -⟩ := h.inside b (by simp)
  obtain ⟨-, hal⟩ := h.aligned a (by simp)
  obtain ⟨hbb, hbl⟩ := h.aligned b (by simp)
  have h : Stacked lo hi (V1 ++ ([a, b] ++ V2)) := h
  apply h.replace hlo hhi h1 h2 (W := [_])
  unfold Segment.stop headerSize at *
  apply stacked_singleton
  · exact le_rfl
  · simp only [Segment.stop, headerSize]
    omega
  · exact hbb
  · dsimp only
    omega

theorem Stacked.setFree {f : Bool} (h : Stacked lo hi (V1 ++ v :: V2)) :
    Stacked lo hi (V1 ++ ⟨v.base, v.length, f⟩ :: V2) := by
  obtain ⟨h1, h2⟩ := h.around
  obtain ⟨hlo, hhi⟩ := h.inside v (by simp)
  obtain ⟨hvb, hvl⟩ := h.aligned v (by simp)
  have h : Stacked lo hi (V1 ++ ([v] ++ V2)) := h
  exact h.replace hlo hhi h1 h2 (W := [_]) (stacked_singleton le_rfl le_rfl hvb hvl)

/-- An expansion in the place of the last segment. The new segment is a header shorter than
the space it covers. -/
theorem Stacked.absorb {length : ℕ} {f : Bool} (h : Stacked lo hi (V1 ++ [v]))
    (hv : v.base = lo) (hs : headerSize ≤ length) (hl : length ≤ lo) (ha : 16 ∣ length) :
    Stacked (lo - length) hi (V1 ++ [⟨lo - length, v.length + length - headerSize, f⟩]) := by
  obtain ⟨h1, -⟩ := h.around
  obtain ⟨-, hhi⟩ := h.inside v (by simp)
  obtain ⟨hvb, hvl⟩ := h.aligned v (by simp)
  have h : Stacked (lo - length) hi (V1 ++ ([v] ++ [])) := h.mono (by omega) le_rfl
  apply h.replace le_rfl hhi h1 (by simp) (W := [_])
  unfold Segment.stop headerSize at *
  apply stacked_singleton
  · exact le_rfl
  · simp only [Segment.stop, headerSize]
    omega
  · dsimp only
    omega
  · dsimp only
    omega

theorem Stacked.append {length : ℕ} {f : Bool} (h : Stacked lo hi V) (hlo : lo ≤ hi)
    (hb : 16 ∣ lo) (hs : headerSize ≤ length) (hl : length ≤ lo) (ha : 16 ∣ length) :
    Stacked (lo - length) hi (V ++ [⟨lo - length, length - headerSize, f⟩]) := by
  have h' : Stacked (lo - length) hi (V ++ ([] ++ [])) := by
    simpa using h.mono (by omega) le_rfl
  apply h'.replace le_rfl hlo (fun v hv => (h.inside v hv).1) (by simp) (W := [_])
  unfold headerSize at *
  apply stacked_singleton
  · exact le_rfl
  · simp only [Segment.stop, headerSize]
    omega
  · dsimp only
    omega
  · dsimp only
    omega

theorem apart_mid : Apart (V1 ++ v :: V2) ↔ Apart V1 ∧ Apart V2 ∧ (v.isFree = true →
      (∀ u ∈ V1.getLast?, u.isFree = false) ∧ ∀ u ∈ V2.head?, u.isFree = false) := by
  unfold Apart
  rw [isChain_append, isChain_cons]
  simp only [head?_cons, Option.mem_some_iff, forall_eq', not_and, Bool.not_eq_true]
  constructor
  · rintro ⟨h1, ⟨h2, h3⟩, h4⟩
    refine ⟨h1, h3, fun hv => ⟨fun u hu => ?_, fun u hu => h2 u hu hv⟩⟩
    by_contra hf
    have := h4 u hu (by simpa using hf)
    simp [hv] at this
  · rintro ⟨h1, h2, h3⟩
    refine ⟨h1, ⟨fun u hu hv => (h3 hv).2 u hu, h2⟩, fun u hu hf => ?_⟩
    by_contra hv
    have := (h3 (by simpa using hv)).1 u hu
    simp [hf] at this

theorem apart_cons : Apart (v :: V) ↔
    Apart V ∧ (v.isFree = true → ∀ u ∈ V.head?, u.isFree = false) := by
  change Apart ([] ++ v :: V) ↔ _
  rw [apart_mid]
  simp [Apart]

/-- The segments tile the area between `lo` and `hi`. -/
def Tight (lo hi : ℕ) (V : List Segment) : Prop :=
  Tiles Segment.base (fun v => headerSize + v.length) lo V.reverse hi

theorem Tight.setFree {f : Bool} (h : Tight lo hi (V1 ++ v :: V2)) :
    Tight lo hi (V1 ++ ⟨v.base, v.length, f⟩ :: V2) := by
  unfold Tight at *
  simp only [reverse_append, reverse_cons, append_assoc, singleton_append,
    tiles_append, tiles_cons] at *
  exact h

theorem Tight.split {size : ℕ} {f g : Bool} (h : Tight lo hi (V1 ++ v :: V2))
    (hs : size + headerSize < v.length) :
    Tight lo hi (V1 ++ ⟨v.base + v.length - size, size, f⟩ ::
      ⟨v.base, v.length - (size + headerSize), g⟩ :: V2) := by
  unfold Tight headerSize at *
  simp only [reverse_append, reverse_cons, append_assoc, cons_append] at *
  apply h.split
  · rfl
  · dsimp only
    omega
  · dsimp only
    omega
  · dsimp only
    omega
  · dsimp only
    omega

theorem Tight.merge {f : Bool} (h : Tight lo hi (V1 ++ a :: b :: V2)) :
    Tight lo hi (V1 ++ ⟨b.base, b.length + (a.length + headerSize), f⟩ :: V2) := by
  unfold Tight at *
  simp only [reverse_append, reverse_cons, append_assoc, cons_append] at *
  apply h.merge
  · rfl
  · dsimp only
    omega

end Kot.Kernel.Heap
