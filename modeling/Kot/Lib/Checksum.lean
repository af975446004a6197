import Kot.Lib.Bytes

/-! The one's complement sum of 16-bit words: adding words, folding the carries back, and that the
complement of a sum makes the whole sum up to all ones. -/
namespace Kot.Lib
open List

variable {l r : List UInt8} {n m t : ℕ}

/-- The sum of the little-endian 16-bit words of a list; a last odd byte counts as a word. -/
def wordSum : List UInt8 → ℕ
  | a :: b :: l => a.toNat + 256 * b.toNat + wordSum l
  | [a] => a.toNat
  | [] => 0

theorem wordSum_append (h : l.length % 2 = 0) : wordSum (l ++ r) = wordSum l + wordSum r := by
  induction l using wordSum.induct with
  | case1 a b l ih =>
    have := ih (by simp only [length_cons] at h; omega)
    simp only [cons_append, wordSum, this]
    omega
  | case2 a => simp at h
  | case3 => simp [wordSum]

theorem wordSum_le : wordSum l ≤ 65535 * ((l.length + 1) / 2) := by
  induction l using wordSum.induct with
  | case1 a b l ih =>
    have ha := a.toNat_lt
    have hb := b.toNat_lt
    simp only [wordSum, length_cons]
    omega
  | case2 a =>
    have := a.toNat_lt
    simp only [wordSum, length_singleton]
    omega
  | case3 => simp [wordSum]

/-- `while(result >> 16) result = (result & 0xffff) + (result >> 16);` for at most `t` turns. -/
def foldCarries : (t n : ℕ) → ℕ
  | 0, n => n
  | t + 1, n => if n / 2 ^ 16 = 0 then n else foldCarries t (n % 2 ^ 16 + n / 2 ^ 16)

theorem foldCarries_mod : foldCarries t n % 65535 = n % 65535 := by
  induction t generalizing n with
  | zero => rfl
  | succ t ih =>
    rw [foldCarries]
    split_ifs
    · rfl
    · rw [ih]
      omega

theorem foldCarries_eq_zero (h : foldCarries t n = 0) : n = 0 := by
  induction t generalizing n with
  | zero => exact h
  | succ t ih =>
    rw [foldCarries] at h
    split_ifs at h with hn
    · exact h
    · have := ih h
      omega

theorem foldCarries_lt (hn : n < 2 ^ 32) (ht : 3 ≤ t) : foldCarries t n < 2 ^ 16 := by
  obtain ⟨t, rfl⟩ : ∃ k, t = k + 3 := ⟨t - 3, by omega⟩
  have hstop : ∀ k m, m < 2 ^ 16 → foldCarries k m < 2 ^ 16 := by
    intro k m hm
    cases k with
    | zero => exact hm
    | succ k =>
      rw [foldCarries, if_pos (by omega)]
      exact hm
  rw [foldCarries]
  split_ifs with h1
  · omega
  rw [foldCarries]
  split_ifs with h2
  · omega
  rw [foldCarries]
  split_ifs with h3
  · omega
  exact hstop t _ (by omega)

/-- `r` is what remains of the sum `n` when all carries are folded back. -/
structure Folds (n r : ℕ) : Prop where
  lt : r < 65536
  mod : r % 65535 = n % 65535
  zero : r = 0 ↔ n = 0

theorem Folds.unique {r r' : ℕ} (h : Folds n r) (h' : Folds n r') : r = r' := by
  have hlt := h.lt
  have hlt' := h'.lt
  have hmod := h.mod.trans h'.mod.symm
  have hzero := h.zero.trans h'.zero.symm
  omega

theorem Folds.complement {r : ℕ} (h : Folds n r) : Folds (n + (65535 - r)) 65535 := by
  have hlt := h.lt
  have hmod := h.mod
  have hzero := h.zero
  exact ⟨by decide, by omega, by omega⟩

theorem folds_foldCarries (hn : n < 2 ^ 32) (ht : 3 ≤ t) : Folds n (foldCarries t n) := by
  refine ⟨foldCarries_lt hn ht, foldCarries_mod, foldCarries_eq_zero, ?_⟩
  rintro rfl
  cases t <;> simp [foldCarries]

/-- The little-endian 16-bit words of a list; a last odd byte is padded with zero. -/
def words : List UInt8 → List ℕ
  | a :: b :: l => (a.toNat + 256 * b.toNat) :: words l
  | [a] => [a.toNat]
  | [] => []

theorem sum_words : (words l).sum = wordSum l := by
  induction l using wordSum.induct with
  | case1 a b l ih => rw [words, sum_cons, ih, wordSum]
  | case2 a => simp [words, wordSum]
  | case3 => rfl

theorem lt_of_mem_words {w : ℕ} (h : w ∈ words l) : w < 65536 := by
  induction l using wordSum.induct with
  | case1 a b l ih =>
    have ha := a.toNat_lt
    have hb := b.toNat_lt
    rw [words, mem_cons] at h
    obtain rfl | h := h
    · omega
    · exact ih h
  | case2 a =>
    have ha := a.toNat_lt
    obtain rfl := mem_singleton.mp h
    omega
  | case3 => exact absurd h not_mem_nil

def endAround (a b : ℕ) : ℕ := (a + b) % 65536 + (a + b) / 65536

/-- The one's complement sum of 16-bit words. -/
def onesSum (l : List ℕ) : ℕ := l.foldl endAround 0

theorem folds_foldl_endAround (l : List ℕ) (hl : ∀ w ∈ l, w < 65536) (a : ℕ) (ha : a < 65536) :
    Folds (a + l.sum) (l.foldl endAround a) := by
  induction l generalizing a with
  | nil => exact ⟨ha, rfl, Iff.rfl⟩
  | cons w l ih =>
    have hw := hl w mem_cons_self
    have hlt : endAround a w < 65536 := by
      unfold endAround
      omega
    obtain ⟨h1, h2, h3⟩ := ih (fun w hw => hl w (mem_cons_of_mem _ hw)) (endAround a w) hlt
    rw [foldl_cons, sum_cons]
    -- the carry changes the sum by 65535 and does not make it zero
    have hstep : endAround a w % 65535 = (a + w) % 65535 ∧ (endAround a w = 0 ↔ a + w = 0) := by
      unfold endAround
      omega
    exact ⟨h1, by omega, by omega⟩

theorem folds_onesSum (l : List UInt8) : Folds (wordSum l) (onesSum (words l)) := by
  have h := folds_foldl_endAround (words l) (fun _ => lt_of_mem_words) 0 (by decide)
  rwa [Nat.zero_add, sum_words] at h

end Kot.Lib
