import Kot.Kernel.Machine
import Kot.Lib.Run

/-! Files of the initrd: `initrd_read` and `initrd_seek` on a module that the boot loader has put
into memory. -/
namespace Kot.Kernel.Initrd

open Kot.Lib (Succeeds MeetsAll succeeds_iff)

structure LimineFile where
  bytes : List UInt8
  fits : bytes.length < 2 ^ 64

inductive Whence
  | set
  | cur
  | fromEnd
  | other
  deriving DecidableEq, Repr

inductive Op
  | read (size : UInt64)
  | seek (offset : Int64) (whence : Whence)
  deriving DecidableEq, Repr

inductive Reply
  | read (bytes : List UInt8) (bytesRead : UInt64)
  | seek (newOffset : UInt64)
  | einval
  deriving DecidableEq, Repr

/-- The position of the file, and the reply to the last call. -/
structure File where
  seekPosition : UInt64
  reply : Reply
  deriving DecidableEq, Repr

def opened : File := ⟨0, .seek 0⟩

def initrdGetFileSize (m : LimineFile) : UInt64 := UInt64.ofNat m.bytes.length

def LimineFile.memcpy (m : LimineFile) (position size : ℕ) : Except Fault (List UInt8) :=
  if size = 0 ∨ position + size ≤ m.bytes.length then .ok ((m.bytes.drop position).take size)
  else .error .strayAccess

/-- The size of a read, cut down at the end of the file. -/
def readSize (m : LimineFile) (position size : UInt64) : UInt64 :=
  if initrdGetFileSize m < position + size then initrdGetFileSize m - position else size

def initrdRead (m : LimineFile) (position size : UInt64) : Except Fault File := do
  let size := readSize m position size
  let bytes ← m.memcpy position.toNat size.toNat
  .ok ⟨position + size, .read bytes size⟩

/-- The case for the end of the file does not use the offset. -/
def initrdSeek (m : LimineFile) (position : UInt64) (offset : Int64) : Whence → File
  | .set => ⟨offset.toUInt64, .seek offset.toUInt64⟩
  | .cur => ⟨position + offset.toUInt64, .seek (position + offset.toUInt64)⟩
  | .fromEnd => ⟨initrdGetFileSize m, .seek (initrdGetFileSize m)⟩
  | .other => ⟨position, .einval⟩

def call (m : LimineFile) (f : File) : Op → Except Fault File
  | .read size => initrdRead m f.seekPosition size
  | .seek offset whence => .ok (initrdSeek m f.seekPosition offset whence)

/-- A read copies and reports what is left of the file, up to the size, and moves the position behind
it; the position relative to the end is the sum. -/
def Correct (m : LimineFile) (f : File) (op : Op) (f' : File) : Prop :=
  match op with
  | .read size =>
    let count := min size.toNat (m.bytes.length - f.seekPosition.toNat)
    f'.seekPosition.toNat = f.seekPosition.toNat + count ∧ ∃ bytesRead : UInt64, bytesRead.toNat = count ∧
      f'.reply = .read ((m.bytes.drop f.seekPosition.toNat).take count) bytesRead
  | .seek offset .fromEnd => (f'.seekPosition.toNat : Int) = m.bytes.length + offset.toInt
  | .seek _ _ => True

/-- Reads start inside the file and do not reach beyond the address space; a position relative to
the end is the end. -/
def Meets (m : LimineFile) (f : File) : Op → Prop
  | .read size => f.seekPosition.toNat ≤ m.bytes.length ∧ f.seekPosition.toNat + size.toNat < 2 ^ 64
  | .seek offset .fromEnd => offset = 0
  | .seek _ _ => True

theorem initrdGetFileSize_toNat (m : LimineFile) : (initrdGetFileSize m).toNat = m.bytes.length :=
  UInt64.toNat_ofNat_of_lt' m.fits

theorem readSize_eq_iff (m : LimineFile) {position : UInt64} {size : UInt64} :
    (readSize m position size).toNat = min size.toNat (m.bytes.length - position.toNat) ↔
      position.toNat ≤ m.bytes.length ∧ position.toNat + size.toNat < 2 ^ 64 := by
  have hlen := initrdGetFileSize_toNat m
  have hs := m.fits
  have hp := position.toNat_lt
  have hn := size.toNat_lt
  unfold readSize
  split_ifs with h
  all_goals
    rw [UInt64.lt_iff_toNat_lt, UInt64.toNat_add, hlen] at h
    try rw [UInt64.toNat_sub, hlen]
    omega

theorem read_iff {m : LimineFile} {f : File} {size : UInt64} :
    (∃ f', call m f (.read size) = .ok f' ∧ Correct m f (.read size) f') ↔ Meets m f (.read size) := by
  refine Iff.trans ?_ (readSize_eq_iff m)
  constructor
  · rintro ⟨f', hcall, -, bytesRead, hread, hreply⟩
    obtain ⟨bytes, -, hcall⟩ := bind_eq_ok hcall
    cases hcall
    cases hreply
    exact hread
  · intro hsize
    have hmeets := (readSize_eq_iff ..).mp hsize
    have hcopy : m.memcpy f.seekPosition.toNat (readSize m f.seekPosition size).toNat = .ok _ :=
      if_pos (by omega)
    simp only [call, initrdRead, hcopy, ok_bind]
    refine ⟨_, rfl, ?_, _, hsize, by rw [hsize]⟩
    rw [UInt64.toNat_add, hsize]
    omega

theorem step_iff (m : LimineFile) (f : File) (op : Op) :
    (∃ f', call m f op = .ok f' ∧ Correct m f op f') ↔ Meets m f op := by
  cases op with
  | read size => exact read_iff
  | seek offset whence =>
    cases whence with
    | set | cur | other => exact ⟨fun _ => trivial, fun _ => ⟨_, rfl, trivial⟩⟩
    | fromEnd =>
      have hlen := initrdGetFileSize_toNat m
      constructor
      · rintro ⟨f', hcall, hpos⟩
        cases hcall
        apply Int64.toInt_inj.mp
        simp only [Correct, initrdSeek, hlen] at hpos
        rw [Int64.toInt_zero]
        omega
      · rintro rfl
        refine ⟨_, rfl, ?_⟩
        simp [Correct, initrdSeek, hlen]

/-- The reads and seeks of a file do what they should in exactly those runs in which every read
starts inside the file and does not reach beyond the address space, and the offsets from the end
are zero. -/
theorem initrd_correct_iff (m : LimineFile) (ops : List Op) :
    Succeeds (call m) (Correct m) opened ops ↔ MeetsAll (call m) (Meets m) opened ops :=
  succeeds_iff (fun f op _ => step_iff m f op) (fun _ _ _ _ _ _ => trivial) trivial ops

def three : LimineFile := ⟨[1, 2, 3], by decide⟩

/-- A seek to the last of three bytes ends behind it, and a read behind the end leaves the module. -/
theorem seek_from_end_ignores_offset : call three opened (.seek (-1) .fromEnd) = .ok ⟨3, .seek 3⟩ ∧
      (call three opened (.seek 5 .set) >>= fun f => call three f (.read 1)) = .error .strayAccess :=
  ⟨rfl, rfl⟩

end Kot.Kernel.Initrd
