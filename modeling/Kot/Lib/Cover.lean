import Kot.Lib.Intervals
import Mathlib.Data.Finset.Card
import Mathlib.Order.Interval.Finset.Nat

/-! Lists of intervals that cover a range: when as many numbers are counted as the range has, they
cover it exactly if no two of them overlap. -/
namespace Kot.Lib
open Finset

variable {l : List Interval} {r q : Interval} {n i : ℕ}

def Interval.Disjoint (r q : Interval) : Prop := ∀ i, i ∈ r → i ∉ q

instance (r q : Interval) : Decidable (r.Disjoint q) :=
  decidable_of_iff (∀ i < r.stop, i ∈ r → i ∉ q) ⟨fun h i hi => h i hi.2 hi, fun h i _ => h i⟩

def cover : List Interval → Finset ℕ
  | [] => ∅
  | r :: l => Finset.Ico r.start r.stop ∪ cover l

theorem mem_cover : i ∈ cover l ↔ ∃ r ∈ l, i ∈ r := by
  induction l with
  | nil => simp [cover]
  | cons r l ih => simp [cover, ih, Interval.mem_iff]

theorem card_interval : (Finset.Ico r.start r.stop).card = r.count := by
  rw [Nat.card_Ico, Interval.stop]
  omega

theorem card_cover_le : (cover l).card ≤ (l.map Interval.count).sum := by
  induction l with
  | nil => simp [cover]
  | cons r l ih =>
    rw [cover, List.map_cons, List.sum_cons, ← card_interval]
    exact (Finset.card_union_le _ _).trans (Nat.add_le_add_left ih _)

theorem disjoint_cover : Disjoint (Finset.Ico r.start r.stop) (cover l) ↔ ∀ q ∈ l, r.Disjoint q := by
  rw [disjoint_left]
  constructor
  · intro h q hq i hi hiq
    exact h (Finset.mem_Ico.mpr hi) (mem_cover.mpr ⟨q, hq, hiq⟩)
  · intro h i hi hc
    obtain ⟨q, hq, hiq⟩ := mem_cover.mp hc
    exact h q hq i (Finset.mem_Ico.mp hi) hiq

theorem card_cover_eq_iff :
    (cover l).card = (l.map Interval.count).sum ↔ l.Pairwise Interval.Disjoint := by
  induction l with
  | nil => simp [cover]
  | cons r l ih =>
    rw [cover, List.map_cons, List.sum_cons, List.pairwise_cons, ← ih, ← disjoint_cover,
      ← card_interval, ← card_union_eq_card_add_card]
    have hle := card_cover_le (l := l)
    have hunion := Finset.card_union_le (Finset.Ico r.start r.stop) (cover l)
    constructor
    · intro h
      have hcard : (cover l).card = (l.map Interval.count).sum := by omega
      exact ⟨by omega, hcard⟩
    · rintro ⟨h, hcard⟩
      omega

theorem covers_iff_disjoint (hin : ∀ r ∈ l, r.count ≠ 0 → r.stop ≤ n)
    (hsum : (l.map Interval.count).sum = n) :
    (∀ i < n, ∃ r ∈ l, i ∈ r) ↔ l.Pairwise Interval.Disjoint := by
  have hsub : cover l ⊆ Finset.range n := by
    intro i hi
    obtain ⟨r, hr, hir⟩ := mem_cover.mp hi
    have hstop := hir.2
    have hle := hin r hr (by have := hir.1; have := hir.2; unfold Interval.stop at *; omega)
    exact Finset.mem_range.mpr (by omega)
  rw [← card_cover_eq_iff, hsum]
  constructor
  · intro h
    have heq := hsub.antisymm fun i hi => mem_cover.mpr (h i (Finset.mem_range.mp hi))
    rw [heq, card_range]
  · intro h i hi
    have heq := Finset.eq_of_subset_of_card_le hsub (by rw [card_range, h])
    exact mem_cover.mp (heq ▸ Finset.mem_range.mpr hi)

def coverCount (l : List Interval) (a b : ℕ) : ℕ := (cover l ∩ Finset.Ico a b).card

variable {a b m : ℕ}

theorem coverCount_le : coverCount l a b ≤ b - a :=
  (Finset.card_le_card Finset.inter_subset_right).trans (Nat.card_Ico a b).le

theorem coverCount_cons (hnew : ∀ i ∈ r, i ∉ cover l) (ha : a ≤ r.start) (hb : r.stop ≤ b) :
    coverCount (r :: l) a b = coverCount l a b + r.count := by
  have hinside := Finset.inter_eq_left.mpr (Finset.Ico_subset_Ico ha hb)
  have hdisj : Disjoint (Finset.Ico r.start r.stop) (cover l ∩ Finset.Ico a b) := by
    rw [disjoint_left]
    intro i hi hc
    exact hnew i (Finset.mem_Ico.mp hi) (Finset.mem_inter.mp hc).1
  rw [coverCount, cover, union_inter_distrib_right, hinside,
    card_union_of_disjoint hdisj, card_interval, Nat.add_comm]
  rfl

theorem coverCount_extend (h : ∀ i ∈ cover l, a ≤ i → i < b) (hb : b ≤ n) :
    coverCount l a n = coverCount l a b := by
  unfold coverCount
  congr 1
  ext i
  simp only [mem_inter, mem_Ico]
  constructor
  · rintro ⟨hi, ha, _⟩
    exact ⟨hi, ha, h i hi ha⟩
  · rintro ⟨hi, ha, hlt⟩
    exact ⟨hi, ha, by omega⟩

theorem mem_cover_of_coverCount (h : coverCount l a b = b - a) (ha : a ≤ i) (hi : i < b) :
    i ∈ cover l := by
  have heq :=
    Finset.eq_of_subset_of_card_le Finset.inter_subset_right (by rw [Nat.card_Ico]; exact h.ge)
  have hmem : i ∈ cover l ∩ Finset.Ico a b := by
    rw [heq]
    exact Finset.mem_Ico.mpr ⟨ha, hi⟩
  exact (Finset.mem_inter.mp hmem).1

theorem coverCount_split (ham : a ≤ m) (hmb : m ≤ b) (h : ∀ i, a ≤ i → i < m → i ∈ cover l) :
    coverCount l a b = m - a + coverCount l m b := by
  have hlow : cover l ∩ Finset.Ico a m = Finset.Ico a m := by
    rw [inter_eq_right]
    intro i hi
    obtain ⟨ha, hi⟩ := Finset.mem_Ico.mp hi
    exact h i ha hi
  have hdisj : Disjoint (cover l ∩ Finset.Ico a m) (cover l ∩ Finset.Ico m b) :=
    (Finset.Ico_disjoint_Ico_consecutive a m b).mono Finset.inter_subset_right
      Finset.inter_subset_right
  rw [coverCount, ← Finset.Ico_union_Ico_eq_Ico ham hmb, inter_union_distrib_left,
    card_union_of_disjoint hdisj, hlow, Nat.card_Ico]
  rfl

end Kot.Lib
