import Mathlib.Logic.Function.Basic
import Mathlib.Order.Nat
import Kot.Kernel.Machine

/-! The bitmaps of `bitmap.h`: bytes in memory, one bit for each index. -/
namespace Kot.Kernel

/-- The bytes of a bitmap and the physical address of the first of them. -/
structure Bitmap where
  address : ℕ
  size : ℕ
  bytes : ℕ → BitVec 8

/-- `BIT_SET(a,b)` -/
def bitSet (a : BitVec 8) (b : ℕ) : BitVec 8 := a ||| 1#8 <<< b

/-- `BIT_CLEAR(a,b)` -/
def bitClear (a : BitVec 8) (b : ℕ) : BitVec 8 := a &&& ~~~(1#8 <<< b)

/-- `BIT_GET(a,b)` -/
def bitGet (a : BitVec 8) (b : ℕ) : Bool := a &&& 1#8 <<< b != 0#8

def bitmapInit (address size : ℕ) (defaultValue : Bool) : Bitmap where
  address
  size
  bytes _ := if defaultValue then 0xff#8 else 0#8

def bitmapGetBit (bitmap : Bitmap) (index : ℕ) : Except Fault Bool :=
  if index / 8 < bitmap.size then .ok (bitGet (bitmap.bytes (index / 8)) (index % 8))
  else .error .strayAccess

def bitmapSetBit (bitmap : Bitmap) (index : ℕ) (value : Bool) : Except Fault Bitmap :=
  if index / 8 < bitmap.size then
    let byte := bitmap.bytes (index / 8)
    .ok { bitmap with
      bytes := Function.update bitmap.bytes (index / 8)
        (if value then bitSet byte (index % 8) else bitClear byte (index % 8)) }
  else .error .strayAccess

def bitmapSetBits (bitmap : Bitmap) (index : ℕ) : (count : ℕ) → (value : Bool) → Except Fault Bitmap
  | 0, _ => .ok bitmap
  | count + 1, value => do
    let bitmap ← bitmapSetBit bitmap index value
    bitmapSetBits bitmap (wadd index 1) count value

def bitmapGetSetBit (bitmap : Bitmap) (index : ℕ) (value : Bool) : Except Fault (Bool × Bitmap) := do
  let currentValue ← bitmapGetBit bitmap index
  if currentValue ≠ value then do
    let bitmap ← bitmapSetBit bitmap index value
    .ok (currentValue, bitmap)
  else .ok (currentValue, bitmap)

/-- The bit of an index, as a total function. -/
def Bitmap.bit (bitmap : Bitmap) (index : ℕ) : Bool := bitGet (bitmap.bytes (index / 8)) (index % 8)

def Bitmap.covers (bitmap : Bitmap) (page : ℕ) : Prop :=
  bitmap.address < (page + 1) * pageSize ∧ page * pageSize < bitmap.address + bitmap.size

instance (bitmap : Bitmap) (page : ℕ) : Decidable (bitmap.covers page) :=
  inferInstanceAs (Decidable (_ ∧ _))

def Bitmap.Clear (bitmap : Bitmap) (index : ℕ) : Prop :=
  index < 8 * bitmap.size ∧ bitmap.bit index = false

instance (bitmap : Bitmap) (index : ℕ) : Decidable (bitmap.Clear index) :=
  inferInstanceAs (Decidable (_ ∧ _))

/-- The same bytes of memory with other contents. -/
def Bitmap.SamePlace (b b' : Bitmap) : Prop := b'.address = b.address ∧ b'.size = b.size

variable {b b' : Bitmap} {i j n : ℕ} {v : Bool}

private theorem getLsbD_mask (hi : i < 8) : (1#8 <<< i).getLsbD j = decide (j = i) := by
  rw [BitVec.getLsbD_shiftLeft, BitVec.getLsbD_one]
  rcases lt_trichotomy j i with h | h | h
  · simp [h, h.ne]
  · simp [h, hi]
  · have hne : j - i ≠ 0 := by omega
    simp [h.ne', hne]

theorem bitGet_eq {a : BitVec 8} (hi : i < 8) : bitGet a i = a.getLsbD i := by
  have hz : a &&& 1#8 <<< i = 0#8 ↔ a.getLsbD i = false := by
    constructor
    · intro h
      have := congrArg (fun x => x.getLsbD i) h
      simpa [BitVec.getLsbD_and, getLsbD_mask hi] using this
    · intro h
      apply BitVec.eq_of_getLsbD_eq
      intro j _
      by_cases hj : j = i
      · simp [hj, h]
      · simp [BitVec.getLsbD_and, getLsbD_mask hi, hj]
  unfold bitGet
  cases h : a.getLsbD i <;> simp [hz, h]

theorem bitGet_bitSet {a : BitVec 8} (hi : i < 8) (hj : j < 8) :
    bitGet (bitSet a i) j = (decide (j = i) || bitGet a j) := by
  rw [bitGet_eq hj, bitGet_eq hj, bitSet, BitVec.getLsbD_or, getLsbD_mask hi, Bool.or_comm]

theorem bitGet_bitClear {a : BitVec 8} (hi : i < 8) (hj : j < 8) :
    bitGet (bitClear a i) j = (!decide (j = i) && bitGet a j) := by
  rw [bitGet_eq hj, bitGet_eq hj, bitClear, BitVec.getLsbD_and, BitVec.getLsbD_not,
    getLsbD_mask hi, Bool.and_comm]
  simp [hj]

theorem bitmapInit_bit (address size : ℕ) : (bitmapInit address size true).bit i = true := by
  have hset : ∀ k < 8, (0xff#8).getLsbD k = true := by decide
  have hi : i % 8 < 8 := Nat.mod_lt _ (by decide)
  rw [Bitmap.bit, bitGet_eq hi]
  exact hset _ hi

theorem bitmapGetBit_eq (h : i < 8 * b.size) : bitmapGetBit b i = .ok (b.bit i) := by
  rw [bitmapGetBit, if_pos (by omega), Bitmap.bit]

theorem bitmapGetBit_ok (h : bitmapGetBit b i = .ok v) : i < 8 * b.size ∧ v = b.bit i := by
  unfold bitmapGetBit at h
  split_ifs at h with hi
  exact ⟨by omega, (Except.ok.inj h).symm⟩

theorem bitmapSetBit_spec (h : i < 8 * b.size) :
    ∃ b', bitmapSetBit b i v = .ok b' ∧ b.SamePlace b' ∧
      ∀ j, b'.bit j = if j = i then v else b.bit j := by
  rw [bitmapSetBit, if_pos (by omega)]
  refine ⟨_, rfl, ⟨rfl, rfl⟩, fun j => ?_⟩
  have hi8 : i % 8 < 8 := Nat.mod_lt _ (by decide)
  have hj8 : j % 8 < 8 := Nat.mod_lt _ (by decide)
  unfold Bitmap.bit
  by_cases hbyte : j / 8 = i / 8
  · have hmod : j % 8 = i % 8 ↔ j = i := by omega
    cases v <;> by_cases hji : j = i <;>
      simp [hbyte, bitGet_bitSet hi8 hj8, bitGet_bitClear hi8 hj8, hmod, hji]
    · simp [bitGet_bitClear hi8 hi8]
    · simp [bitGet_bitSet hi8 hi8]
  · have hji : j ≠ i := fun h => hbyte (by rw [h])
    simp [Function.update_of_ne hbyte, hji]

theorem bitmapSetBits_spec (hn : i + n ≤ 8 * b.size) (hw : i + n < 2 ^ 64) :
    ∃ b', bitmapSetBits b i n v = .ok b' ∧ b.SamePlace b' ∧
      ∀ j, b'.bit j = if i ≤ j ∧ j < i + n then v else b.bit j := by
  induction n generalizing b i with
  | zero =>
    refine ⟨b, rfl, ⟨rfl, rfl⟩, fun j => ?_⟩
    rw [if_neg (by omega)]
  | succ n ih =>
    obtain ⟨b1, hb1, hs1, hbit1⟩ := bitmapSetBit_spec (b := b) (i := i) (by omega)
    have hsize := hs1.2
    obtain ⟨b2, hb2, hs2, hbit2⟩ := ih (b := b1) (i := i + 1) (by omega) (by omega)
    refine ⟨b2, ?_, ⟨hs2.1.trans hs1.1, hs2.2.trans hs1.2⟩, fun j => ?_⟩
    · rw [bitmapSetBits, hb1, wadd_of_lt (by omega)]
      exact hb2
    · rw [hbit2, hbit1]
      split_ifs <;> first | rfl | omega

theorem bitmapSetBits_ok (h : bitmapSetBits b i n v = .ok b') (hn : 0 < n)
    (hw : 8 * b.size < 2 ^ 64) : i + n ≤ 8 * b.size := by
  induction n generalizing b i with
  | zero => omega
  | succ n ih =>
    obtain ⟨b1, h1, h⟩ := bind_eq_ok h
    have hi : i < 8 * b.size := by
      by_contra hi
      rw [bitmapSetBit, if_neg (by omega)] at h1
      cases h1
    obtain ⟨b2, h2, hplace, -⟩ := bitmapSetBit_spec hi
    obtain rfl := Except.ok.inj (h1.symm.trans h2)
    rcases Nat.eq_zero_or_pos n with rfl | hn
    · omega
    · rw [wadd_of_lt (by omega)] at h
      have hsize := hplace.2
      have := ih h hn (by omega)
      omega

end Kot.Kernel
