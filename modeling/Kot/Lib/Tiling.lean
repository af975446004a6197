import Mathlib.Algebra.BigOperators.Group.List.Basic
import Mathlib.Algebra.GroupWithZero.Nat

/-! Lists of nonempty half-open intervals that tile a range: each interval starts where
the one before it ends. An interval of `a` is `[base a, base a + size a)`. -/
namespace Kot.Lib

variable {α β : Type*} {base size : α → ℕ} {lo mid hi : ℕ} {l l1 l2 : List α}

/-- The intervals of the list cover `[lo, hi)` in order, without gap or overlap. -/
def Tiles (base size : α → ℕ) : ℕ → List α → ℕ → Prop
  | lo, [], hi => lo = hi
  | lo, a :: l, hi => base a = lo ∧ 0 < size a ∧ Tiles base size (lo + size a) l hi

@[simp] theorem tiles_nil : Tiles base size lo [] hi ↔ lo = hi := Iff.rfl

@[simp] theorem tiles_cons {a : α} :
    Tiles base size lo (a :: l) hi ↔
      base a = lo ∧ 0 < size a ∧ Tiles base size (lo + size a) l hi := Iff.rfl

theorem tiles_append : Tiles base size lo (l1 ++ l2) hi ↔
      ∃ mid, Tiles base size lo l1 mid ∧ Tiles base size mid l2 hi := by
  induction l1 generalizing lo with
  | nil => simp
  | cons a l ih => simp only [List.cons_append, tiles_cons, ih, and_assoc, exists_and_left]

theorem tiles_map {γ : Type*} {f : γ → α} {l : List γ} :
    Tiles base size lo (l.map f) hi ↔ Tiles (base ∘ f) (size ∘ f) lo l hi := by
  induction l generalizing lo with
  | nil => rfl
  | cons a l ih => simp only [List.map_cons, tiles_cons, ih, Function.comp_apply]

section
variable (h : Tiles base size lo l hi)
include h

theorem Tiles.sum : lo + (l.map size).sum = hi := by
  induction l generalizing lo with
  | nil => simpa using h
  | cons a l ih =>
    have := ih h.2.2
    rw [List.map_cons, List.sum_cons]
    omega

theorem Tiles.le : lo ≤ hi := by
  have := h.sum
  omega

theorem Tiles.bounds {a : α} (ha : a ∈ l) : lo ≤ base a ∧ base a + size a ≤ hi ∧ 0 < size a := by
  induction l generalizing lo with
  | nil => simp at ha
  | cons b l ih =>
    obtain ⟨hb, hs, ht⟩ := h
    have hle := ht.le
    rcases List.mem_cons.mp ha with rfl | ha
    · omega
    · have := ih ht ha
      omega

theorem Tiles.length_le : lo + l.length ≤ hi := by
  induction l generalizing lo with
  | nil => exact Nat.le_of_eq h
  | cons a l ih =>
    have := ih h.2.2
    have := h.2.1
    rw [List.length_cons]
    omega

theorem Tiles.exists_mem {x : ℕ} (hlo : lo ≤ x) (hhi : x < hi) :
    ∃ l1 a l2, l = l1 ++ a :: l2 ∧ base a ≤ x ∧ x < base a + size a := by
  induction l generalizing lo with
  | nil =>
    have : lo = hi := h
    omega
  | cons a l ih =>
    obtain ⟨hb, hs, ht⟩ := h
    by_cases hx : x < lo + size a
    · exact ⟨[], a, l, rfl, by omega, by omega⟩
    · obtain ⟨l1, b, l2, rfl, hbx⟩ := ih ht (by omega)
      exact ⟨a :: l1, b, l2, rfl, hbx⟩

theorem Tiles.pairwise : l.Pairwise fun a b => base a + size a ≤ base b := by
  induction l generalizing lo with
  | nil => exact .nil
  | cons a l ih =>
    obtain ⟨hb, hs, ht⟩ := h
    refine .cons (fun b hbl => ?_) (ih ht)
    have := (ht.bounds hbl).1
    omega

end

theorem Tiles.split {a b c : α} (h : Tiles base size lo (l1 ++ a :: l2) hi)
    (hb : base b = base a) (hc : base c = base a + size b) (hs : size b + size c = size a)
    (hb0 : 0 < size b) (hc0 : 0 < size c) : Tiles base size lo (l1 ++ b :: c :: l2) hi := by
  obtain ⟨mid, h1, ha, -, h2⟩ := tiles_append.mp h
  refine tiles_append.mpr ⟨mid, h1, hb.trans ha, hb0, by omega, hc0, ?_⟩
  rwa [add_assoc, hs]

theorem Tiles.merge {a b c : α} (h : Tiles base size lo (l1 ++ b :: c :: l2) hi)
    (hb : base a = base b) (hs : size a = size b + size c) :
    Tiles base size lo (l1 ++ a :: l2) hi := by
  obtain ⟨mid, h1, ha, hb0, -, -, h2⟩ := tiles_append.mp h
  refine tiles_append.mpr ⟨mid, h1, hb.trans ha, by omega, ?_⟩
  rwa [hs, ← add_assoc]

end Kot.Lib
