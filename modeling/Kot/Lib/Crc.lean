import Mathlib.Algebra.GroupWithZero.Nat
import Mathlib.Logic.Function.Iterate
import Mathlib.Tactic.SplitIfs

/-! Reflected cyclic redundancy checks, bit by bit: the register of any width, its linearity, and how
several bits are taken at once. -/
namespace Kot.Lib.Crc
open BitVec

variable {w k : ℕ} (p : BitVec w)

/-- One step of the division: the lowest bit is shifted out and decides about the polynomial. -/
def shift (c : BitVec w) : BitVec w := if c.getLsbD 0 then (c >>> 1) ^^^ p else c >>> 1

def ofBit (w : ℕ) (b : Bool) : BitVec w := (BitVec.ofBool b).setWidth w

/-- The register after one more bit of the message. -/
def feed (c : BitVec w) (b : Bool) : BitVec w := shift p (c ^^^ ofBit w b)

/-- The register after the bits of a message. -/
def feedBits (c : BitVec w) (bits : List Bool) : BitVec w := bits.foldl (feed p) c

def low (k : ℕ) (c : BitVec w) : BitVec w := (c.setWidth k).setWidth w

theorem getLsbD_ofBit (b : Bool) (i : ℕ) :
    (ofBit w b).getLsbD i = (decide (i < w) && decide (i = 0) && b) := by
  cases b <;> simp [ofBit, getLsbD_setWidth]

theorem getLsbD_low (c : BitVec w) (i : ℕ) :
    (low k c).getLsbD i = (decide (i < k) && c.getLsbD i) := by
  rw [low, getLsbD_setWidth, getLsbD_setWidth]
  rcases Nat.lt_or_ge i w with hi | hi
  · simp [hi]
  · simp [getLsbD_of_ge c i hi]

theorem shift_xor (a b : BitVec w) : shift p (a ^^^ b) = shift p a ^^^ shift p b := by
  unfold shift
  rw [getLsbD_xor, ushiftRight_xor_distrib]
  cases a.getLsbD 0 <;> cases b.getLsbD 0
  · rfl
  · exact BitVec.xor_assoc ..
  · exact (BitVec.xor_assoc ..).trans ((congrArg _ (BitVec.xor_comm ..)).trans (BitVec.xor_assoc ..).symm)
  · apply BitVec.eq_of_getLsbD_eq
    intro i _
    simp only [Bool.bne_true, Bool.not_true, Bool.false_eq_true, if_false, if_true, getLsbD_xor]
    cases p.getLsbD i <;> simp

theorem iterate_shift_xor (k : ℕ) (a b : BitVec w) :
    (shift p)^[k] (a ^^^ b) = (shift p)^[k] a ^^^ (shift p)^[k] b := by
  induction k generalizing a b with
  | zero => rfl
  | succ k ih =>
    rw [Function.iterate_succ_apply, shift_xor, ih]
    rfl

theorem iterate_shift_of_zero (c : BitVec w) (h : ∀ i < k, c.getLsbD i = false) :
    (shift p)^[k] c = c >>> k := by
  induction k with
  | zero => exact (BitVec.ushiftRight_zero c).symm
  | succ k ih =>
    rw [Function.iterate_succ_apply', ih fun i hi => h i (by omega), shift, getLsbD_ushiftRight,
      Nat.add_zero, h k (by omega), shiftRight_add]
    rfl

theorem iterate_shift_eq (k : ℕ) (c : BitVec w) :
    (shift p)^[k] c = (c >>> k) ^^^ (shift p)^[k] (low k c) := by
  have hsplit : c = (c ^^^ low k c) ^^^ low k c := by
    rw [BitVec.xor_assoc, BitVec.xor_self, BitVec.xor_zero]
  have hzero : ∀ i < k, (c ^^^ low k c).getLsbD i = false := by
    intro i hi
    simp [getLsbD_low, hi]
  have hhigh : (c ^^^ low k c) >>> k = c >>> k := by
    apply BitVec.eq_of_getLsbD_eq
    intro i _
    simp [getLsbD_low, show ¬ k + i < k by omega]
  calc (shift p)^[k] c = (shift p)^[k] ((c ^^^ low k c) ^^^ low k c) := by rw [← hsplit]
    _ = (c >>> k) ^^^ (shift p)^[k] (low k c) := by
      rw [iterate_shift_xor, iterate_shift_of_zero p _ hzero, hhigh]

theorem feedBits_append (c : BitVec w) (bits rest : List Bool) :
    feedBits p c (bits ++ rest) = feedBits p (feedBits p c bits) rest := List.foldl_append

theorem low_succ (c : BitVec w) : low (k + 1) c = low k c ^^^ (ofBit w (c.getLsbD k) <<< k) := by
  apply BitVec.eq_of_getLsbD_eq
  intro i hi
  rw [getLsbD_xor, getLsbD_low, getLsbD_low, getLsbD_shiftLeft, getLsbD_ofBit]
  rcases Nat.lt_trichotomy i k with h | rfl | h
  · simp [h, Nat.lt_succ_of_lt h]
  · simp [hi, Nat.zero_lt_of_lt hi]
  · simp [show ¬ i < k + 1 by omega, show ¬ i < k by omega, show i - k ≠ 0 by omega]

theorem feedBits_eq (c m : BitVec w) (hk : k ≤ w) :
    feedBits p c ((List.range k).map m.getLsbD) = (shift p)^[k] (c ^^^ low k m) := by
  induction k with
  | zero =>
    have hlow : low 0 m = 0#w := by
      apply BitVec.eq_of_getLsbD_eq
      intro i _
      simp [getLsbD_low]
    rw [hlow, BitVec.xor_zero]
    rfl
  | succ k ih =>
    have hzero : ∀ i < k, (ofBit w (m.getLsbD k) <<< k).getLsbD i = false := by
      intro i hi
      simp [hi]
    have hback : (ofBit w (m.getLsbD k) <<< k) >>> k = ofBit w (m.getLsbD k) := by
      apply BitVec.eq_of_getLsbD_eq
      intro i hi
      rw [getLsbD_ushiftRight, getLsbD_shiftLeft, getLsbD_ofBit, getLsbD_ofBit]
      rcases Nat.eq_zero_or_pos i with rfl | hpos
      · simp [Nat.lt_of_lt_of_le (Nat.lt_succ_self k) hk]
      · simp [show i ≠ 0 by omega]
    rw [List.range_succ, List.map_append, feedBits_append, ih (by omega),
      Function.iterate_succ_apply', low_succ, ← BitVec.xor_assoc, iterate_shift_xor p k (c ^^^ low k m),
      iterate_shift_of_zero p _ hzero, hback]
    rfl

end Kot.Lib.Crc
