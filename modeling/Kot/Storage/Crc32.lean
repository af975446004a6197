import Kot.Lib.Crc
import Kot.Storage.Gpt

/-! The check sums of the partition tables are the reflected CRC-32 of their bytes. -/
namespace Kot.Storage

open Kot.Lib BitVec

/-- The polynomial of the check sums of EFI. -/
def crc32Polynomial : BitVec 32 := 0xEDB88320#32

/-- The bits of a string, of each byte the lowest first. -/
def messageBits (buf : List UInt8) : List Bool :=
  buf.flatMap fun byte => (List.range 8).map (byte.toBitVec.setWidth 32).getLsbD

/-- The reflected CRC-32, bit by bit. -/
def crc32Bitwise (buf : List UInt8) : BitVec 32 :=
  ~~~ Crc.feedBits crc32Polynomial (BitVec.allOnes 32) (messageBits buf)

/-- The register after the bytes of a string, as `partition_crc32` keeps it. -/
def crc32Register (crc : UInt32) (buf : List UInt8) : UInt32 :=
  buf.foldl (fun crc byte =>
    (crc >>> 8) ^^^ crc32Table.getD ((crc &&& 0xff) ^^^ byte.toUInt32).toNat 0) crc

theorem crc32Remainder_toBitVec {i : UInt32} :
    (crc32Remainder i).toBitVec = (Crc.shift crc32Polynomial)^[8] i.toBitVec := by
  have hstep : ∀ c : UInt32, (if c &&& 1 = 1 then (c >>> 1) ^^^ 0xedb88320 else c >>> 1).toBitVec =
      Crc.shift crc32Polynomial c.toBitVec := by
    intro c
    have hbit : (c &&& 1 = 1) ↔ c.toBitVec.getLsbD 0 = true := by
      rw [← UInt32.toBitVec_inj, UInt32.toBitVec_and, UInt32.toBitVec_one,
        and_one_eq_setWidth_ofBool_getLsbD]
      cases c.toBitVec.getLsbD 0 <;> decide
    rw [Crc.shift]
    by_cases h : c &&& 1 = 1
    · rw [if_pos h, if_pos (hbit.mp h)]
      rfl
    · rw [if_neg h, if_neg (mt hbit.mpr h)]
      rfl
  have hfold : ∀ n (c : UInt32), ((List.range n).foldl (fun (rem : UInt32) _ =>
      if rem &&& 1 = 1 then (rem >>> 1) ^^^ 0xedb88320 else rem >>> 1) c).toBitVec =
      (Crc.shift crc32Polynomial)^[n] c.toBitVec := by
    intro n c
    induction n with
    | zero => rfl
    | succ n ih =>
      rw [List.range_succ, List.foldl_append, Function.iterate_succ_apply', ← ih]
      exact hstep _
  exact hfold 8 i

theorem crc32Table_getD {i : UInt32} (h : i.toNat < 256) :
    crc32Table.getD i.toNat 0 = crc32Remainder i := by
  rw [crc32Table_eq, List.getD_eq_getElem?_getD, List.getElem?_map, List.getElem?_range h]
  exact congrArg crc32Remainder (UInt32.ofNat_toNat)

theorem crc32Index_toBitVec {crc : UInt32} {byte : UInt8} :
    ((crc &&& 0xff) ^^^ byte.toUInt32).toBitVec =
      Crc.low 8 (crc.toBitVec ^^^ byte.toBitVec.setWidth 32) := by
  have hmask : ∀ i < 32, (0xff#32).getLsbD i = decide (i < 8) := by decide
  apply BitVec.eq_of_getLsbD_eq
  intro i hi
  have hff : (0xff : UInt32).toBitVec = 0xff#32 := rfl
  rw [UInt32.toBitVec_xor, UInt32.toBitVec_and, UInt8.toBitVec_toUInt32, hff, getLsbD_xor,
    getLsbD_and, hmask i hi, Crc.getLsbD_low, getLsbD_xor, getLsbD_setWidth]
  rcases Nat.lt_or_ge i 8 with h | h
  · simp [h]
  · simp [Nat.not_lt.mpr h, getLsbD_of_ge byte.toBitVec i h]

theorem crc32Index_lt {crc : UInt32} {byte : UInt8} :
    ((crc &&& 0xff) ^^^ byte.toUInt32).toNat < 256 := by
  rw [← UInt32.toNat_toBitVec, crc32Index_toBitVec, Crc.low, toNat_setWidth]
  exact Nat.lt_of_le_of_lt (Nat.mod_le _ _) (BitVec.isLt _)

theorem crc32Step_toBitVec (crc : UInt32) (byte : UInt8) :
    ((crc >>> 8) ^^^ crc32Table.getD ((crc &&& 0xff) ^^^ byte.toUInt32).toNat 0).toBitVec =
      Crc.feedBits crc32Polynomial crc.toBitVec
        ((List.range 8).map (byte.toBitVec.setWidth 32).getLsbD) := by
  have hlow : Crc.low 8 (byte.toBitVec.setWidth 32) = byte.toBitVec.setWidth 32 := by
    apply BitVec.eq_of_getLsbD_eq
    intro i _
    rw [Crc.getLsbD_low, getLsbD_setWidth]
    rcases Nat.lt_or_ge i 8 with h | h
    · simp [h]
    · simp [getLsbD_of_ge byte.toBitVec i h]
  have hhigh : (crc.toBitVec ^^^ byte.toBitVec.setWidth 32) >>> 8 = crc.toBitVec >>> 8 := by
    apply BitVec.eq_of_getLsbD_eq
    intro i _
    simp
  rw [Crc.feedBits_eq _ _ _ (by decide), hlow, Crc.iterate_shift_eq, ← crc32Index_toBitVec, hhigh,
    crc32Table_getD crc32Index_lt, UInt32.toBitVec_xor, crc32Remainder_toBitVec]
  rfl

theorem crc32Register_toBitVec (crc : UInt32) (buf : List UInt8) :
    (crc32Register crc buf).toBitVec = Crc.feedBits crc32Polynomial crc.toBitVec (messageBits buf) := by
  induction buf generalizing crc with
  | nil => rfl
  | cons byte buf ih =>
    rw [messageBits, List.flatMap_cons, Crc.feedBits_append, ← crc32Step_toBitVec]
    exact ih _

/-- The sum of a string is its reflected CRC-32, and it can be taken in parts. -/
theorem partitionCrc32_bitwise : (∀ buf, (partitionCrc32 0 buf).toBitVec = crc32Bitwise buf) ∧
      ∀ a b, partitionCrc32 (partitionCrc32 0 a) b = partitionCrc32 0 (a ++ b) := by
  have heq : ∀ crc buf, partitionCrc32 crc buf = ~~~ crc32Register (~~~ crc) buf := fun _ _ => rfl
  refine ⟨fun buf => ?_, fun a b => ?_⟩
  · rw [heq, UInt32.toBitVec_not, crc32Register_toBitVec]
    rfl
  · rw [heq, heq, heq, UInt32.not_not, crc32Register, crc32Register, crc32Register, List.foldl_append]

end Kot.Storage
