import Mathlib.Algebra.GroupWithZero.Nat
import Mathlib.Order.Nat

/-! The row conversion of `load_jpeg_image_file`: three bytes a pixel become four in the same memory.
The sides of a JPEG are below `2 ^ 16`, so no product of the source wraps. -/
namespace Kot.Graphics.Jpeg

/-- The bytes from the start of the buffer on, and the offsets the loop has stored to. -/
structure Memory where
  byte : ℕ → UInt8
  stores : List ℕ

def Memory.put (m : Memory) (a : ℕ) (v : UInt8) : Memory :=
  ⟨Function.update m.byte a v, a :: m.stores⟩

def convertPixel (startIndex x : ℕ) (m : Memory) : Memory :=
  let b := m.byte (x * 3 + startIndex)
  let g := m.byte (x * 3 + startIndex + 1)
  let r := m.byte (x * 3 + startIndex + 2)
  (((m.put (x * 4 + startIndex) r).put (x * 4 + startIndex + 1) g).put
    (x * 4 + startIndex + 2) b).put (x * 4 + startIndex + 3) 0xff

/-- The loop that counts `x` down to one. -/
def convertRow (startIndex : ℕ) : ℕ → Memory → Memory
  | 0, m => m
  | x + 1, m => convertRow startIndex x (convertPixel startIndex (x + 1) m)

def jpegReadScanlines (startIndex width : ℕ) (line : ℕ → UInt8) (m : Memory) : Memory :=
  { m with byte := fun a =>
      if startIndex ≤ a ∧ a < startIndex + width * 3 then line (a - startIndex) else m.byte a }

/-- The loop over the scanlines, up to `outputScanline`. -/
def loadRows (width : ℕ) (scan : ℕ → ℕ → UInt8) (m : Memory) : ℕ → Memory
  | 0 => m
  | outputScanline + 1 =>
    let startIndex := width * outputScanline * 4
    convertRow startIndex width
      (jpegReadScanlines startIndex width (scan outputScanline) (loadRows width scan m outputScanline))

/-- Pixel `i` of a line with its bytes reversed, and `0xff`. -/
def reversed (line : ℕ → UInt8) (i : ℕ) : ℕ → UInt8
  | 0 => line (i * 3 + 2)
  | 1 => line (i * 3 + 1)
  | 2 => line (i * 3)
  | _ => 0xff

def Converted (width : ℕ) (scan : ℕ → ℕ → UInt8) (m : Memory) (row i : ℕ) : Prop :=
  ∀ c < 4, m.byte (width * row * 4 + (i * 4 + c)) = reversed (scan row) i c

variable {startIndex width a i c n row height : ℕ} {m : Memory} {scan : ℕ → ℕ → UInt8}

theorem convertPixel_byte (hc : c < 4) :
    (convertPixel startIndex i m).byte (startIndex + (i * 4 + c)) =
      reversed (fun k => m.byte (startIndex + k)) i c := by
  match c with
  | 0 | 1 | 2 | 3 =>
    simp [convertPixel, Memory.put, reversed, Nat.add_comm, Nat.add_left_comm]

theorem convertPixel_frame (ha : a < startIndex + i * 4 ∨ startIndex + i * 4 + 4 ≤ a) :
    (convertPixel startIndex i m).byte a = m.byte a := by
  simp only [convertPixel, Memory.put, Function.update_apply]
  split_ifs <;> first | omega | rfl

theorem convertRow_frame (ha : a < startIndex + 4 ∨ startIndex + n * 4 + 4 ≤ a) :
    (convertRow startIndex n m).byte a = m.byte a := by
  induction n generalizing m with
  | zero => rfl
  | succ n ih => rw [convertRow, ih (by omega), convertPixel_frame (by omega)]

/-- The bytes still to be read lie below those stored so far. -/
theorem convertRow_byte (hi : 0 < i) (hn : i ≤ n) (hc : c < 4) :
    (convertRow startIndex n m).byte (startIndex + (i * 4 + c)) =
      reversed (fun k => m.byte (startIndex + k)) i c := by
  induction n generalizing m with
  | zero => omega
  | succ n ih =>
    rw [convertRow]
    obtain rfl | hn := Nat.eq_or_lt_of_le hn
    · rw [convertRow_frame (by omega), convertPixel_byte hc]
    · rw [ih (by omega)]
      unfold reversed
      split <;> first | rfl | exact convertPixel_frame (by omega)

theorem mem_convertRow (startIndex n : ℕ) (m : Memory) : a ∈ (convertRow startIndex n m).stores ↔
    startIndex + 4 ≤ a ∧ a < startIndex + n * 4 + 4 ∨ a ∈ m.stores := by
  induction n generalizing m with
  | zero => exact (or_iff_right (by omega)).symm
  | succ n ih => grind [convertRow, convertPixel, Memory.put]

theorem mem_loadRows (byte : ℕ → UInt8) : a ∈ (loadRows width scan ⟨byte, []⟩ height).stores ↔
    ∃ row < height, width * row * 4 + 4 ≤ a ∧ a < width * row * 4 + width * 4 + 4 := by
  induction height with
  | zero => simp [loadRows]
  | succ height ih =>
    rw [loadRows, mem_convertRow, jpegReadScanlines, ih, Nat.exists_lt_succ_right, or_comm]

theorem jpegReadScanlines_byte {line : ℕ → UInt8} (ha : a < width * 3) :
    (jpegReadScanlines startIndex width line m).byte (startIndex + a) = line a :=
  (if_pos (by omega)).trans (by rw [Nat.add_sub_cancel_left])

/-- Later rows leave a row alone. -/
theorem loadRows_byte (hrow : row < height) (ha : a < width * 4) :
    (loadRows width scan m height).byte (width * row * 4 + a) =
      (loadRows width scan m (row + 1)).byte (width * row * 4 + a) := by
  induction height, hrow using Nat.le_induction with
  | base => rfl
  | succ height hrow ih =>
    have hle := Nat.mul_le_mul_left width hrow
    rw [Nat.mul_succ] at hle
    rw [loadRows, convertRow_frame (by omega), jpegReadScanlines, ← ih]
    exact if_neg (by omega)

theorem loadRows_first (hrow : row < height) (hc : c < 3) (hw : 0 < width) :
    (loadRows width scan m height).byte (width * row * 4 + c) = scan row c := by
  rw [loadRows_byte hrow (by omega), loadRows, convertRow_frame (by omega),
    jpegReadScanlines_byte (by omega)]

/-- A pixel is converted if and only if it is not the first of its row, or its three bytes read the
same both ways and `0xff` follows them. All stores lie in the buffer only if there are none. -/
theorem loadRows_converted_iff (width height : ℕ) (scan : ℕ → ℕ → UInt8) (byte : ℕ → UInt8) :
    let m := loadRows width scan ⟨byte, []⟩ height
    (∀ row < height, ∀ i < width, (Converted width scan m row i ↔
      0 < i ∨ scan row 2 = scan row 0 ∧ m.byte (width * row * 4 + 3) = 0xff)) ∧
    ((∀ a ∈ m.stores, a < width * height * 4) ↔ width = 0 ∨ height = 0) := by
  constructor
  · intro row hrow i hw
    obtain rfl | hi := Nat.eq_zero_or_pos i
    · simp only [Converted, Nat.zero_mul, Nat.zero_add, Nat.lt_irrefl, false_or]
      constructor
      · intro h
        exact ⟨(loadRows_first hrow (by decide) hw).symm.trans (h 2 (by decide)), h 3 (by decide)⟩
      · rintro ⟨h2, h3⟩ c hc
        match c with
        | 0 => exact (loadRows_first hrow (by decide) hw).trans h2.symm
        | 1 => exact loadRows_first hrow (by decide) hw
        | 2 => exact (loadRows_first hrow (by decide) hw).trans h2
        | 3 => exact h3
    · refine iff_of_true (fun c hc => ?_) (.inl hi)
      rw [loadRows_byte hrow (by omega), loadRows, convertRow_byte hi hw.le hc]
      unfold reversed
      split <;> first | rfl | exact jpegReadScanlines_byte (by omega)
  · constructor
    · intro h
      by_contra hne
      obtain ⟨height, rfl⟩ := Nat.exists_eq_add_one_of_ne_zero (fun h => hne (.inr h))
      have hsucc := Nat.mul_add_one width height
      exact (h _ ((mem_loadRows byte).mpr ⟨height, by omega, by omega, by omega⟩)).false
    · rintro (rfl | rfl) a ha
      · obtain ⟨row, -, hge, hlt⟩ := (mem_loadRows byte).mp ha
        omega
      · cases ha

/-- An image of one pixel: it is not reversed, and four bytes behind the buffer are stored to. -/
theorem loadRows_leaves_buffer :
    let m := loadRows 1 (fun _ => UInt8.ofNat) ⟨fun _ => 0, []⟩ 1
    (¬ ∀ a ∈ m.stores, a < 1 * 1 * 4) ∧ ¬ Converted 1 (fun _ => UInt8.ofNat) m 0 0 :=
  ⟨by decide, fun h => absurd (h 0 (by decide)) (by decide)⟩

end Kot.Graphics.Jpeg
