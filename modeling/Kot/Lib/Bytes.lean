import Mathlib.Algebra.GroupWithZero.Nat
import Mathlib.Data.List.Basic
import Mathlib.Tactic.SplitIfs

/-! Stores of values at consecutive addresses: reading a list from a store, writing one into it,
replacing a part of a list, and little-endian numbers. -/
namespace Kot.Lib
open List

variable {α : Type*} {m : ℕ → α} {l d : List α} {a b n k i x : ℕ}

/-- The `n` values from the address `a` on. -/
def readAt (m : ℕ → α) (a n : ℕ) : List α := (List.range n).map fun i => m (a + i)

/-- The store with the values of `l` from the address `a` on. -/
def writeAt (m : ℕ → α) (a : ℕ) (l : List α) : ℕ → α := fun x =>
  if a ≤ x then (l[x - a]?).getD (m x) else m x

/-- The list with the values of `d` from the position `a` on. -/
def splice (l : List α) (a : ℕ) (d : List α) : List α := l.take a ++ d ++ l.drop (a + d.length)

@[simp] theorem readAt_length (m : ℕ → α) (a n : ℕ) : (readAt m a n).length = n := by
  simp [readAt]

@[simp] theorem readAt_zero (m : ℕ → α) (a : ℕ) : readAt m a 0 = [] := rfl

theorem getElem?_readAt :
    (readAt m a n)[i]? = if i < n then some (m (a + i)) else none := by
  split_ifs with h <;> simp [readAt, h]

theorem readAt_append (m : ℕ → α) (a n k : ℕ) :
    readAt m a (n + k) = readAt m a n ++ readAt m (a + n) k := by
  simp [readAt, range_add, Function.comp_def, Nat.add_assoc]

theorem readAt_take : (readAt m a n).take k = readAt m a (min k n) := by
  simp [readAt, ← map_take, take_range]

theorem readAt_drop : (readAt m a n).drop k = readAt m (a + k) (n - k) := by
  apply ext_getElem?
  intro i
  rw [getElem?_drop, getElem?_readAt, getElem?_readAt]
  simp only [Nat.add_assoc]
  congr 1
  exact propext (by omega)

theorem readAt_eq_iff (h : l.length = n) :
    readAt m a n = l ↔ ∀ i < n, l[i]? = some (m (a + i)) := by
  constructor
  · rintro rfl i hi
    rw [getElem?_readAt, if_pos hi]
  · intro hall
    apply ext_getElem?
    intro i
    rw [getElem?_readAt]
    split_ifs with hi
    · exact (hall i hi).symm
    · rw [getElem?_eq_none (by omega)]

theorem readAt_congr {m' : ℕ → α} (h : ∀ x, a ≤ x → x < a + n → m x = m' x) :
    readAt m a n = readAt m' a n := by
  apply map_congr_left
  intro i hi
  exact h (a + i) (by omega) (by have := mem_range.mp hi; omega)

theorem writeAt_outside (h : x < a ∨ a + l.length ≤ x) : writeAt m a l x = m x := by
  unfold writeAt
  split_ifs with ha
  · rw [getElem?_eq_none (by omega)]
    rfl
  · rfl

theorem writeAt_inside (h : i < l.length) : writeAt m a l (a + i) = l[i] := by
  simp [writeAt, h]

@[simp] theorem writeAt_nil : writeAt m a [] = m :=
  funext fun _ => writeAt_outside (by simp; omega)

theorem writeAt_writeAt_append (m : ℕ → α) (a : ℕ) (l d : List α) :
    writeAt (writeAt m a l) (a + l.length) d = writeAt m a (l ++ d) := by
  funext x
  rcases Nat.lt_or_ge x (a + l.length) with hx | hx
  · rw [writeAt_outside (.inl hx)]
    rcases Nat.lt_or_ge x a with ha | ha
    · rw [writeAt_outside (.inl ha), writeAt_outside (.inl ha)]
    · rw [writeAt, writeAt, if_pos ha, if_pos ha, getElem?_append_left (by omega)]
  · have ha : a ≤ x := by omega
    rw [writeAt, if_pos hx, writeAt_outside (.inr hx), writeAt, if_pos ha,
      getElem?_append_right (by omega), Nat.sub_add_eq]

theorem readAt_writeAt_self : readAt (writeAt m a l) a l.length = l := by
  apply ext_getElem?
  intro i
  rw [getElem?_readAt]
  split_ifs with h
  · rw [writeAt_inside h, getElem?_eq_getElem h]
  · rw [getElem?_eq_none (by omega)]

theorem readAt_writeAt_eq (h : l.length = n) : readAt (writeAt m a l) a n = l :=
  h ▸ readAt_writeAt_self

theorem readAt_writeAt_of_disjoint (h : a + l.length ≤ b ∨ b + n ≤ a) :
    readAt (writeAt m a l) b n = readAt m b n :=
  readAt_congr fun _ _ _ => writeAt_outside (by omega)

theorem readAt_writeAt_inside (h : k + l.length ≤ n) :
    readAt (writeAt m (a + k) l) a n = splice (readAt m a n) k l := by
  obtain ⟨j, rfl⟩ : ∃ j, n = k + (l.length + j) := ⟨n - k - l.length, by omega⟩
  rw [readAt_append, readAt_append, readAt_writeAt_self,
    readAt_writeAt_of_disjoint (by omega),
    readAt_writeAt_of_disjoint (by omega)]
  simp only [splice, readAt_take, readAt_drop, append_assoc]
  congr 2
  · omega
  · congr 1 <;> omega

@[simp] theorem splice_length (h : a + d.length ≤ l.length) : (splice l a d).length = l.length := by
  simp [splice]
  omega

theorem drop_splice (h : a ≤ l.length) : (splice l a d).drop a = d ++ l.drop (a + d.length) := by
  rw [splice, append_assoc, drop_append_of_le_length (by rw [length_take]; omega),
    drop_eq_nil_of_le (by rw [length_take]; omega), nil_append]

theorem take_drop_splice (h : a ≤ l.length) (hn : d.length = n) :
    ((splice l a d).drop a).take n = d := by
  rw [drop_splice h, ← hn, take_left']
  rfl

theorem getElem?_splice (h : a + d.length ≤ l.length) :
    (splice l a d)[i]? = if a ≤ i ∧ i < a + d.length then d[i - a]? else l[i]? := by
  have hta : (l.take a).length = a := by rw [length_take]; omega
  rw [splice, append_assoc]
  rcases Nat.lt_or_ge i a with hi | hi
  · rw [getElem?_append_left (by omega), getElem?_take_of_lt hi, if_neg (by omega)]
  · rw [getElem?_append_right (by omega), hta]
    rcases Nat.lt_or_ge i (a + d.length) with hd | hd
    · rw [getElem?_append_left (by omega), if_pos ⟨hi, hd⟩]
    · rw [getElem?_append_right (by omega), getElem?_drop, if_neg (by omega)]
      congr 1
      omega

theorem splice_splice {e : List α} (h : a + d.length ≤ l.length) (he : e.length = d.length) :
    splice (splice l a d) a e = splice l a e := by
  apply ext_getElem?
  intro i
  rw [getElem?_splice (by rw [splice_length h]; omega), getElem?_splice h,
    getElem?_splice (by omega)]
  split_ifs with hi hd
  · rfl
  · omega
  · rfl

theorem splice_append_left {r : List α} (h : a + d.length ≤ l.length) :
    splice (l ++ r) a d = splice l a d ++ r := by
  simp only [splice, append_assoc]
  rw [take_append_of_le_length (by omega), drop_append_of_le_length h]

theorem splice_append_right {r : List α} (h : l.length ≤ a) :
    splice (l ++ r) a d = l ++ splice r (a - l.length) d := by
  simp only [splice, take_append, take_of_length_le h, append_assoc]
  congr 3
  rw [drop_append, drop_eq_nil_of_le (by omega), nil_append]
  congr 1
  omega

theorem splice_append {r e : List α} (h : a + d.length = l.length) :
    splice (l ++ r) a (d ++ e) = splice l a d ++ splice r 0 e := by
  simp only [splice, length_append, take_zero, nil_append, Nat.zero_add,
    append_assoc]
  have h1 : l.drop (a + (d.length + e.length)) = [] := drop_eq_nil_of_le (by omega)
  have h2 : l.drop (a + d.length) = [] := drop_eq_nil_of_le (by omega)
  have h3 : a + (d.length + e.length) - l.length = e.length := by omega
  rw [take_append_of_le_length (by omega), drop_append, h1, h2, h3, nil_append,
    nil_append]

theorem splice_nil : splice l a [] = l := by simp [splice]

/-- `width` bytes of a number, the lowest one first. -/
def toLe : (width : ℕ) → ℕ → List UInt8
  | 0, _ => []
  | w + 1, n => UInt8.ofNat n :: toLe w (n / 256)

/-- The number of a list of bytes, the lowest one first. -/
def fromLe : List UInt8 → ℕ
  | [] => 0
  | b :: l => b.toNat + 256 * fromLe l

@[simp] theorem toLe_length (w n : ℕ) : (toLe w n).length = w := by
  induction w generalizing n with
  | zero => rfl
  | succ w ih => simp [toLe, ih]

theorem fromLe_lt (l : List UInt8) : fromLe l < 256 ^ l.length := by
  induction l with
  | nil => simp [fromLe]
  | cons b l ih =>
    have hb := b.toNat_lt
    simp only [fromLe, length_cons, Nat.pow_succ]
    omega

theorem fromLe_toLe (w n : ℕ) : fromLe (toLe w n) = n % 256 ^ w := by
  induction w generalizing n with
  | zero => simp [toLe, fromLe, Nat.mod_one]
  | succ w ih =>
    have hb : (UInt8.ofNat n).toNat = n % 256 := by simp
    rw [toLe, fromLe, ih, hb, Nat.pow_succ', Nat.mod_mul]

end Kot.Lib
