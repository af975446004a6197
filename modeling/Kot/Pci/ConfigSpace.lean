import Mathlib.Tactic.IntervalCases
import Kot.Kernel.Machine
import Kot.Lib.Bytes
import Kot.Lib.Run

/-! The configuration space of a legacy PCI device: its registers and the two buffers that shadow
them. -/
namespace Kot.Pci

open Kot.Kernel (Fault ok_bind)
open Kot.Lib (readAt writeAt toLe fromLe Run Guarded)

/-- The device and its buffers. Past offset `0x100` a buffer stands for what the heap has there;
`outside` counts the bytes written past the buffers. -/
structure Device where
  register : ℕ → UInt8
  /-- the bits of a register that a write changes -/
  writable : ℕ → UInt8
  front : ℕ → UInt8
  back : ℕ → UInt8
  outside : ℕ

inductive BarType
  | null
  | io
  | memory32
  | memory64
  deriving DecidableEq, Repr

inductive Result
  | done
  | einval
  | enosys
  | bound (version : ℕ)
  | size (n : ℕ)
  deriving DecidableEq, Repr

def spaceSize : ℕ := 0x100

def word (m : ℕ → UInt8) (a : ℕ) : ℕ := fromLe (readAt m a 2)

def dword (m : ℕ → UInt8) (a : ℕ) : ℕ := fromLe (readAt m a 4)

/-- The bytes of a write at `a` that lie past a buffer. -/
def past (a n : ℕ) : ℕ := a + n - max a spaceSize

/-- A write through a pointer into the front buffer. -/
def Device.poke (d : Device) (a : ℕ) (bytes : List UInt8) : Device :=
  { d with front := writeAt d.front a bytes, outside := d.outside + past a bytes.length }

/-- `pci_write32`: the device keeps the bits that are not writable. -/
def Device.pciWrite32 (d : Device) (a value : ℕ) : Device :=
  { d with register := fun x =>
      if a ≤ x ∧ x < a + 4 then
        (writeAt d.register a (toLe 4 value) x &&& d.writable x) ||| (d.register x &&& ~~~ d.writable x)
      else d.register x }

/-- One turn of the loop of `send_configuration_space_pci`. -/
def Device.sendRegister (d : Device) (i : ℕ) : Device :=
  if dword d.back (4 * i) ≠ dword d.front (4 * i) then d.pciWrite32 (4 * i) (dword d.front (4 * i)) else d

/-- `send_configuration_space_pci`. The loop leaves both pointers at the ends of the buffers, and
the copy starts there. -/
def Device.send (d : Device) : Device :=
  let d := (List.range (spaceSize / 4)).foldl Device.sendRegister d
  { d with
    back := writeAt d.back spaceSize (readAt d.front spaceSize spaceSize)
    outside := d.outside + past spaceSize spaceSize }

/-- `receive_configuration_space_pci`. -/
def Device.receive (d : Device) : Device :=
  { d with front := writeAt d.front 0 (readAt d.register 0 spaceSize) }

/-- `get_device`: both buffers are read from the registers. -/
def getDevice (register writable afterFront afterBack : ℕ → UInt8) : Device where
  register := register
  writable := writable
  front := writeAt afterFront 0 (readAt register 0 spaceSize)
  back := writeAt afterBack 0 (readAt register 0 spaceSize)
  outside := 0

/-- `device_get_bar_type_with_bar_value`. -/
def barType (value : ℕ) : BarType :=
  if value &&& 0b1 ≠ 0 then .io
  else if value &&& 0b110 = 0 then .memory32
  else if value &&& 0b110 = 0b110 then .memory64
  else .null

def Device.headerType (d : Device) : UInt8 := d.front 0xe &&& 0x7f

def barOffset (index : ℕ) : ℕ := 0x10 + 4 * index

/-- The steps of `device_get_bar_size_with_address` for the upper half of a 64-bit address. -/
def Device.sizeHigh (d : Device) (a : ℕ) : ℕ × Device :=
  let value := dword d.front a
  let d := (d.poke a (toLe 4 0xffffffff)).send.receive
  let size := dword d.front a
  (size, (d.poke a (toLe 4 value)).send)

def Device.barSizeWithAddress (d : Device) (a : ℕ) : ℕ × Device :=
  let value := dword d.front a
  let type := barType value
  if type = .null then (0, d)
  else
    let d := (d.poke a (toLe 4 0xffffffff)).send.receive
    let sizeLow := dword d.front a &&& (if type = .io then 0xfffffffc else 0xfffffff0)
    let (sizeHigh, d) := if type = .memory64 then d.sizeHigh (a + 4) else (0xffffffff, d)
    let d := (d.poke a (toLe 4 value)).send
    ((2 ^ 64 - (sizeHigh * 2 ^ 32 + sizeLow)) % 2 ^ 64, d)

def Device.barSize (d : Device) (index : ℕ) : ℕ × Device :=
  if d.headerType = 0 then
    if index < 6 then d.barSizeWithAddress (barOffset index) else (0, d)
  else (0, d)

/-- The walk over the capabilities: the last MSI capability before the first MSI-X one, and that
one. The first argument bounds the turns. -/
def scanCapabilities (front : ℕ → UInt8) : ℕ → UInt8 → Option ℕ → Except Fault (Option ℕ × Option ℕ)
  | 0, _, _ => .error .endlessLoop
  | n + 1, offset, msi =>
    if offset = 0 then .ok (msi, none)
    else if front offset.toNat = 0x5 then
      scanCapabilities front n (front (offset.toNat + 1)) (some offset.toNat)
    else if front offset.toNat = 0x11 then .ok (msi, some offset.toNat)
    else scanCapabilities front n (front (offset.toNat + 1)) msi

/-- The capabilities from `capabilities_ptr` on; there are 255 places for one. -/
def Device.capabilities (d : Device) : Except Fault (Option ℕ × Option ℕ) :=
  scanCapabilities d.front 256 (d.front 0x34) none

/-- `control |= 1 << 15` of the capability at `o`. -/
def Device.enableMsix (d : Device) (o : ℕ) : Device :=
  d.poke (o + 2) [d.front (o + 2), d.front (o + 3) ||| 0x80]

/-- The field `bir` of an MSI-X capability. -/
def bir (front : ℕ → UInt8) (o : ℕ) : ℕ := (front (o + 4) &&& 0b11).toNat

/-- The stores of `device_bind_msi` into an MSI capability and the command register. -/
def Device.programMsi (d : Device) (o interruptVector processor : ℕ) : Device :=
  let d := d.poke (o + 4) (toLe 8 (0xfee00000 ||| (processor <<< 12)))
  let d := d.poke (o + 12) (toLe 2 ((interruptVector &&& 0xff) ||| (1 <<< 14) ||| (1 <<< 15)))
  let d := d.poke (o + 2) [d.front (o + 2) &&& 0x8f, d.front (o + 3) &&& 0xfe]
  let d := d.poke (o + 2) [d.front (o + 2) ||| 0x1, d.front (o + 3)]
  d.poke 0x4 [d.front 0x4, d.front 0x5 ||| 0x4]

/-- `device_bind_msi`. The stores into the MSI-X table, which is not configuration space, are left
out. -/
def Device.bindMsi (d : Device) (interruptVector processor localDeviceVector : ℕ) :
    Except Fault (Result × Device) :=
  if d.headerType = 0 then do
    match ← d.capabilities with
    | (_, some o) =>
      let d := d.enableMsix o
      let (_, d) := d.barSize (bir d.front o)
      if localDeviceVector ≤ word d.front (o + 2) &&& 0x7ff then .ok (.bound 2, d.send)
      else .ok (.enosys, d)
    | (some o, none) =>
      if d.front (o + 2) &&& 0x80 ≠ 0 then .ok (.bound 1, (d.programMsi o interruptVector processor).send)
      else .ok (.enosys, d)
    | (none, none) => .ok (.enosys, d)
  else .ok (.enosys, d)

/-- `device_unbind_msi`. For an MSI-X capability it uses the control field of the MSI one. -/
def Device.unbindMsi (d : Device) (localDeviceVector : ℕ) : Except Fault (Result × Device) :=
  if d.headerType = 0 then do
    match ← d.capabilities with
    | (none, some _) => .error .nullDereference
    | (some m, some o) =>
      let d := d.enableMsix m
      let (_, d) := d.barSize (bir d.front o)
      if word d.front (m + 2) &&& 0x7ff ≤ localDeviceVector then .ok (.done, d.send)
      else .ok (.enosys, d)
    | (some o, none) =>
      let d := d.poke (o + 2) [d.front (o + 2) &&& 0xfe, d.front (o + 3)]
      let d := d.poke (o + 4) (toLe 8 0)
      let d := d.poke (o + 12) (toLe 2 0)
      .ok (.done, d.send)
    | (none, none) => .ok (.enosys, d)
  else .ok (.enosys, d)

/-- `device_config_write_word`, for a device that is not PCI Express. -/
def Device.configWriteWord (d : Device) (offset value : ℕ) : Result × Device :=
  if spaceSize - 2 < offset then (.einval, d)
  else (.done, (d.poke offset (toLe 2 value)).send)

inductive Call
  | configWriteWord (offset value : ℕ)
  | barSize (index : ℕ)
  | bindMsi (interruptVector processor localDeviceVector : ℕ)
  | unbindMsi (localDeviceVector : ℕ)
  deriving DecidableEq, Repr

def call (d : Device) : Call → Except Fault (Result × Device)
  | .configWriteWord offset value => .ok (d.configWriteWord offset value)
  | .barSize index => .ok (.size (d.barSize index).1, (d.barSize index).2)
  | .bindMsi interruptVector processor localDeviceVector =>
    d.bindMsi interruptVector processor localDeviceVector
  | .unbindMsi localDeviceVector => d.unbindMsi localDeviceVector

def Step (d : Device) (c : Call) (d' : Device) : Prop := ∃ r, call d c = .ok (r, d')

/-- The registers and the two buffers agree. -/
def Synced (d : Device) : Prop :=
  ∀ a < spaceSize, d.front a = d.register a ∧ d.back a = d.register a

/-- The size of the region that a base address register decodes, from the bits that can be written. -/
def regionSize (d : Device) (index : ℕ) : Option ℕ :=
  let value := dword d.register (barOffset index)
  let mask := dword d.writable (barOffset index)
  if d.register 0xe &&& 0x7f ≠ 0 ∨ 6 ≤ index then none
  else if value &&& 0b1 ≠ 0 then some (2 ^ 32 - (mask &&& 0xfffffffc))
  else if value &&& 0b110 = 0 then some (2 ^ 32 - (mask &&& 0xfffffff0))
  else if value &&& 0b110 = 0b100 then
    some (2 ^ 64 - (dword d.writable (barOffset index + 4) * 2 ^ 32 + (mask &&& 0xfffffff0)))
  else none

structure Transparent (d : Device) (c : Call) (r : Result) (d' : Device) : Prop where
  synced : Synced d'
  inside : d'.outside = d.outside
  size : ∀ index n, c = .barSize index → regionSize d index = some n → r = .size n
  restored : ∀ index, c = .barSize index → ∀ a < spaceSize, d'.register a = d.register a

/-- The code takes the base address register for one of no type. -/
def NoRegion (d : Device) (index : ℕ) : Prop := barType (dword d.front (barOffset index)) = .null

instance (d : Device) (index : ℕ) : Decidable (NoRegion d index) := inferInstanceAs (Decidable (_ = _))

/-- A capability whose bit 15 is set already, so that setting it changes nothing. -/
def MsixEnabled (d : Device) (o : ℕ) : Prop :=
  o + 4 ≤ spaceSize ∧ d.front (o + 3) ||| 0x80 = d.front (o + 3)

/-- The calls that have nothing to send. -/
def Quiet (d : Device) : Call → Prop
  | .configWriteWord offset _ => spaceSize - 2 < offset
  | .barSize index => d.headerType ≠ 0 ∨ 6 ≤ index ∨ dword d.front (barOffset index) &&& 0b111 = 0b010
  | .bindMsi _ _ localDeviceVector => d.headerType ≠ 0 ∨ d.capabilities = .ok (none, none) ∨
      (∃ m, d.capabilities = .ok (some m, none) ∧ d.front (m + 2) &&& 0x80 = 0) ∨
      ∃ m o, d.capabilities = .ok (m, some o) ∧ MsixEnabled d o ∧ NoRegion d (bir d.front o) ∧
        word d.front (o + 2) &&& 0x7ff < localDeviceVector
  | .unbindMsi localDeviceVector => d.headerType ≠ 0 ∨ d.capabilities = .ok (none, none) ∨
      ∃ m o, d.capabilities = .ok (some m, some o) ∧ MsixEnabled d m ∧ NoRegion d (bir d.front o) ∧
        localDeviceVector < word d.front (m + 2) &&& 0x7ff

variable {d : Device} {index o m : ℕ}

@[simp] theorem poke_outside {a : ℕ} {bytes : List UInt8} :
    (d.poke a bytes).outside = d.outside + past a bytes.length := rfl

@[simp] theorem receive_outside : d.receive.outside = d.outside := rfl

theorem foldl_sendRegister_outside {l : List ℕ} :
    ∀ d : Device, (l.foldl Device.sendRegister d).outside = d.outside := by
  induction l with
  | nil => exact fun d => rfl
  | cons i l ih =>
    intro d
    rw [List.foldl_cons, ih, Device.sendRegister]
    split_ifs <;> rfl

theorem send_outside : d.send.outside = d.outside + 0x100 := by
  change ((List.range (spaceSize / 4)).foldl Device.sendRegister d).outside + past spaceSize spaceSize = _
  rw [foldl_sendRegister_outside]
  rfl

theorem sizeHigh_outside (d : Device) (a : ℕ) : d.outside ≤ (d.sizeHigh a).2.outside := by
  simp only [Device.sizeHigh, send_outside, poke_outside, receive_outside]
  omega

theorem barSizeWithAddress_outside {a : ℕ} (h : barType (dword d.front a) ≠ .null) :
    d.outside < (d.barSizeWithAddress a).2.outside := by
  rw [Device.barSizeWithAddress, if_neg h]
  simp only [send_outside, poke_outside]
  split_ifs with h64
  · have hhigh := sizeHigh_outside (d.poke a (toLe 4 0xffffffff)).send.receive (a + 4)
    simp only [send_outside, poke_outside, receive_outside] at hhigh
    omega
  · simp only [send_outside, poke_outside, receive_outside]
    omega

theorem barSize_cases :
    (d.headerType ≠ 0 ∨ 6 ≤ index ∨ NoRegion d index) ∧ d.barSize index = (0, d) ∨
      ¬ (d.headerType ≠ 0 ∨ 6 ≤ index ∨ NoRegion d index) ∧ d.outside < (d.barSize index).2.outside := by
  unfold Device.barSize
  by_cases h0 : d.headerType = 0
  · by_cases hi : index < 6
    · rw [if_pos h0, if_pos hi]
      by_cases hn : NoRegion d index
      · refine .inl ⟨.inr (.inr hn), ?_⟩
        unfold NoRegion at hn
        rw [Device.barSizeWithAddress, if_pos hn]
      · refine .inr ⟨by simp [h0, hn, hi], barSizeWithAddress_outside hn⟩
    · rw [if_pos h0, if_neg hi]
      exact .inl ⟨.inr (.inl (by omega)), rfl⟩
  · rw [if_neg h0]
    exact .inl ⟨.inl h0, rfl⟩

theorem barSize_eq (h : d.headerType ≠ 0 ∨ 6 ≤ index ∨ NoRegion d index) :
    d.barSize index = (0, d) := by
  obtain ⟨-, h'⟩ | ⟨hn, -⟩ := barSize_cases
  · exact h'
  · exact absurd h hn

theorem barSize_outside_le (d : Device) (index : ℕ) : d.outside ≤ (d.barSize index).2.outside := by
  obtain ⟨-, h⟩ | ⟨-, h⟩ := barSize_cases
  · rw [h]
  · exact h.le

theorem bir_lt (front : ℕ → UInt8) (o : ℕ) : bir front o < 6 := by
  have h : (front (o + 4) &&& 0b11).toNat ≤ 3 := by
    rw [UInt8.toNat_and]
    exact Nat.and_le_right
  exact lt_of_le_of_lt h (by decide)

theorem enableMsix_eq (h : MsixEnabled d o) : d.enableMsix o = d := by
  obtain ⟨hin, hset⟩ := h
  have hpast : past (o + 2) 2 = 0 := by
    unfold past
    omega
  have hfront : writeAt d.front (o + 2) [d.front (o + 2), d.front (o + 3)] = d.front := by
    funext x
    unfold writeAt
    split_ifs with hx
    · obtain ⟨k, rfl⟩ := Nat.exists_eq_add_of_le hx
      obtain _ | _ | k := k <;> simp
    · rfl
  rw [Device.enableMsix, Device.poke, hset, hfront]
  simp [hpast]

theorem enableMsix_changes (h : ¬ MsixEnabled d o) :
    d.outside < (d.enableMsix o).outside ∨ ∃ a < spaceSize, (d.enableMsix o).front a ≠ d.front a := by
  by_cases hin : o + 4 ≤ spaceSize
  · right
    refine ⟨o + 3, by omega, ?_⟩
    have hwrite : (d.enableMsix o).front (o + 2 + 1) = d.front (o + 3) ||| 0x80 :=
      Kot.Lib.writeAt_inside Nat.one_lt_two
    intro heq
    exact h ⟨hin, hwrite.symm.trans heq⟩
  · left
    rw [Device.enableMsix, poke_outside]
    simp only [past, List.length_cons, List.length_nil]
    omega

theorem enableMsix_outside_le (d : Device) (o : ℕ) : d.outside ≤ (d.enableMsix o).outside :=
  Nat.le_add_right _ _

/-- Setting the bit and sizing the table leaves everything as it was only if there was nothing to
set and nothing to size. -/
theorem msix_quiet (hs : Synced d) (h0 : d.headerType = 0)
    (hs' : Synced ((d.enableMsix m).barSize (bir (d.enableMsix m).front o)).2)
    (hin : ((d.enableMsix m).barSize (bir (d.enableMsix m).front o)).2.outside ≤ d.outside) :
    MsixEnabled d m ∧ NoRegion d (bir d.front o) := by
  have h1 := enableMsix_outside_le d m
  obtain ⟨hno, hsize⟩ | ⟨-, hlt⟩ := barSize_cases
  · rw [hsize] at hs' hin
    have hen : MsixEnabled d m := by
      by_contra hen
      obtain hlt | ⟨a, ha, hne⟩ := enableMsix_changes hen
      · exact absurd hin (by simp only; omega)
      · exact hne ((hs' a ha).1.trans (hs a ha).1.symm)
    rw [enableMsix_eq hen] at hno
    obtain hno | hno | hno := hno
    · exact absurd h0 hno
    · exact absurd hno (by have := bir_lt d.front o; omega)
    · exact ⟨hen, hno⟩
  · omega

theorem msix_eq (h : MsixEnabled d m) (hno : NoRegion d (bir d.front o)) :
    (d.enableMsix m).barSize (bir (d.enableMsix m).front o) = (0, d) := by
  rw [enableMsix_eq h]
  exact barSize_eq (.inr (.inr hno))

theorem dword_front (hs : Synced d) {a : ℕ} (ha : a + 4 ≤ spaceSize) :
    dword d.front a = dword d.register a := by
  unfold dword
  rw [Kot.Lib.readAt_congr fun x _ hx => (hs x (by omega)).1]

theorem bar_bits {v : ℕ} : v &&& 0b1 = (v % 8) &&& 0b1 ∧ v &&& 0b110 = (v % 8) &&& 0b110 ∧
    v &&& 0b111 = v % 8 := by
  have hmod := (Nat.and_two_pow_sub_one_eq_mod v 3).symm
  refine ⟨?_, ?_, hmod.symm⟩
  · rw [hmod, Nat.and_assoc]
    rfl
  · rw [hmod, Nat.and_assoc]
    rfl

theorem barType_null {v : ℕ} : barType v = .null ↔
    v &&& 0b111 = 0b010 ∨ v &&& 0b1 = 0 ∧ v &&& 0b110 = 0b100 := by
  obtain ⟨h1, h2, h3⟩ := bar_bits
  have hlt : v % 8 < 8 := Nat.mod_lt _ (by decide)
  unfold barType
  rw [h1, h2, h3]
  generalize v % 8 = r at hlt
  interval_cases r <;> decide

theorem reserved_bits {v : ℕ} (h : v &&& 0b111 = 0b010) : v &&& 0b1 = 0 ∧ v &&& 0b110 = 0b010 := by
  obtain ⟨h1, h2, h3⟩ := bar_bits
  rw [h1, h2, ← h3, h]
  decide

variable {c : Call} {r : Result} {d' : Device}

theorem call_of_quiet (h : Quiet d c) : ∃ r, call d c = .ok (r, d) := by
  cases c with
  | configWriteWord offset value =>
    refine ⟨.einval, ?_⟩
    have hoffset : spaceSize - 2 < offset := h
    rw [call, Device.configWriteWord, if_pos hoffset]
  | barSize index =>
    refine ⟨.size 0, ?_⟩
    have hno : d.headerType ≠ 0 ∨ 6 ≤ index ∨ NoRegion d index := by
      obtain h | h | h := h
      · exact .inl h
      · exact .inr (.inl h)
      · exact .inr (.inr (barType_null.mpr (.inl h)))
    rw [call, barSize_eq hno]
  | bindMsi interruptVector processor localDeviceVector =>
    refine ⟨.enosys, ?_⟩
    rw [call, Device.bindMsi]
    split_ifs with h0
    · obtain h | h | ⟨m, h, hbit⟩ | ⟨m, o, h, hen, hno, hlt⟩ := h
      · exact absurd h0 h
      · rw [h, ok_bind]
      · rw [h, ok_bind]
        exact if_neg (by simpa using hbit)
      · rw [h, ok_bind]
        simp only [msix_eq hen hno]
        exact if_neg (by omega)
    · rfl
  | unbindMsi localDeviceVector =>
    refine ⟨.enosys, ?_⟩
    rw [call, Device.unbindMsi]
    split_ifs with h0
    · obtain h | h | ⟨m, o, h, hen, hno, hlt⟩ := h
      · exact absurd h0 h
      · rw [h, ok_bind]
      · rw [h, ok_bind]
        simp only [msix_eq hen hno]
        exact if_neg (by omega)
    · rfl

theorem regionSize_of_quiet (hs : Synced d) (h : Quiet d (.barSize index)) : regionSize d index = none := by
  have hheader : d.headerType = d.register 0xe &&& 0x7f := by rw [Device.headerType, (hs 0xe (by decide)).1]
  unfold regionSize
  obtain h | h | h := h
  · exact if_pos (.inl (hheader ▸ h))
  · exact if_pos (.inr h)
  · by_cases hbad : d.register 0xe &&& 0x7f ≠ 0 ∨ 6 ≤ index
    · exact if_pos hbad
    · have hoff : barOffset index + 4 ≤ spaceSize := by
        unfold barOffset spaceSize
        omega
      rw [dword_front hs hoff] at h
      obtain ⟨h1, h2⟩ := reserved_bits h
      simp only [if_neg hbad, h1, h2]
      rfl

theorem quiet_of_configWriteWord {offset value : ℕ}
    (ht : Transparent d (.configWriteWord offset value) (d.configWriteWord offset value).1
      (d.configWriteWord offset value).2) : Quiet d (.configWriteWord offset value) := by
  by_contra hq
  have hoffset : ¬ spaceSize - 2 < offset := hq
  have hin := ht.inside
  rw [Device.configWriteWord, if_neg hoffset] at hin
  simp only [send_outside, poke_outside] at hin
  omega

theorem quiet_of_barSize (hs : Synced d)
    (ht : Transparent d (.barSize index) (.size (d.barSize index).1) (d.barSize index).2) :
    Quiet d (.barSize index) := by
  have hin := ht.inside
  obtain ⟨hno, hsize⟩ | ⟨-, hlt⟩ := barSize_cases
  · by_cases h0 : d.headerType ≠ 0
    · exact .inl h0
    by_cases hi : 6 ≤ index
    · exact .inr (.inl hi)
    obtain hno | hno | hno := hno
    · exact absurd hno h0
    · exact absurd hno hi
    obtain hres | ⟨h1, h2⟩ := barType_null.mp hno
    · exact .inr (.inr hres)
    · -- a 64-bit address: the size is not zero
      exfalso
      have hoff : barOffset index + 4 ≤ spaceSize := by
        unfold barOffset spaceSize
        omega
      rw [dword_front hs hoff] at h1 h2
      have hheader : ¬ (d.register 0xe &&& 0x7f ≠ 0 ∨ 6 ≤ index) := by
        rw [← (hs 0xe (by decide)).1]
        rintro (h | h)
        · exact h0 h
        · exact hi h
      have hregion : regionSize d index =
          some (2 ^ 64 - (dword d.writable (barOffset index + 4) * 2 ^ 32 +
            (dword d.writable (barOffset index) &&& 0xfffffff0))) := by
        rw [regionSize]
        simp only [if_neg hheader, h1, h2]
        rfl
      have hr := ht.size index _ rfl hregion
      rw [hsize] at hr
      have hhigh : dword d.writable (barOffset index + 4) < 256 ^ 4 := Kot.Lib.fromLe_lt _
      have hlow : dword d.writable (barOffset index) &&& 0xfffffff0 ≤ 0xfffffff0 := Nat.and_le_right
      have hzero := Result.size.inj hr
      omega
  · omega

theorem quiet_of_bindMsi (hs : Synced d) {interruptVector processor localDeviceVector : ℕ}
    (hc : d.bindMsi interruptVector processor localDeviceVector = .ok (r, d'))
    (hs' : Synced d') (hin : d'.outside = d.outside) :
    Quiet d (.bindMsi interruptVector processor localDeviceVector) := by
  unfold Device.bindMsi at hc
  split_ifs at hc with h0
  · obtain ⟨⟨msi, msix⟩, hcap, hc⟩ := Kot.Kernel.bind_eq_ok hc
    match msi, msix with
    | none, none => exact .inr (.inl hcap)
    | some m, none =>
      simp only at hc
      split_ifs at hc with hbit
      · cases hc
        simp only [send_outside, Device.programMsi, poke_outside] at hin
        omega
      · exact .inr (.inr (.inl ⟨m, hcap, not_not.mp hbit⟩))
    | msi, some o =>
      simp only at hc
      split_ifs at hc with hle
      · cases hc
        have h1 := enableMsix_outside_le d o
        have h2 := barSize_outside_le (d.enableMsix o) (bir (d.enableMsix o).front o)
        rw [send_outside] at hin
        omega
      · cases hc
        obtain ⟨hen, hno⟩ := msix_quiet hs h0 hs' hin.le
        rw [msix_eq hen hno] at hle
        exact .inr (.inr (.inr ⟨msi, o, hcap, hen, hno, Nat.lt_of_not_le hle⟩))
  · exact .inl h0

theorem quiet_of_unbindMsi (hs : Synced d) {localDeviceVector : ℕ}
    (hc : d.unbindMsi localDeviceVector = .ok (r, d')) (hs' : Synced d')
    (hin : d'.outside = d.outside) : Quiet d (.unbindMsi localDeviceVector) := by
  unfold Device.unbindMsi at hc
  split_ifs at hc with h0
  · obtain ⟨⟨msi, msix⟩, hcap, hc⟩ := Kot.Kernel.bind_eq_ok hc
    match msi, msix with
    | none, none => exact .inr (.inl hcap)
    | none, some o => cases hc
    | some m, none =>
      cases hc
      simp only [send_outside, poke_outside] at hin
      omega
    | some m, some o =>
      simp only at hc
      split_ifs at hc with hle
      · cases hc
        have h1 := enableMsix_outside_le d m
        have h2 := barSize_outside_le (d.enableMsix m) (bir (d.enableMsix m).front o)
        rw [send_outside] at hin
        omega
      · cases hc
        obtain ⟨hen, hno⟩ := msix_quiet hs h0 hs' hin.le
        rw [msix_eq hen hno] at hle
        exact .inr (.inr ⟨m, o, hcap, hen, hno, Nat.lt_of_not_le hle⟩)
  · exact .inl h0

theorem call_transparent_iff (hs : Synced d) :
    (∃ r d', call d c = .ok (r, d') ∧ Transparent d c r d') ↔ Quiet d c := by
  constructor
  · rintro ⟨r, d', hc, ht⟩
    cases c with
    | configWriteWord offset value =>
      obtain ⟨rfl, rfl⟩ := Prod.mk.inj (Except.ok.inj hc)
      exact quiet_of_configWriteWord ht
    | barSize index =>
      obtain ⟨rfl, rfl⟩ := Prod.mk.inj (Except.ok.inj hc)
      exact quiet_of_barSize hs ht
    | bindMsi interruptVector processor localDeviceVector =>
      exact quiet_of_bindMsi hs hc ht.synced ht.inside
    | unbindMsi localDeviceVector => exact quiet_of_unbindMsi hs hc ht.synced ht.inside
  · intro h
    obtain ⟨r, hc⟩ := call_of_quiet h
    refine ⟨r, d, hc, hs, rfl, ?_, fun _ _ _ _ => rfl⟩
    rintro index n rfl hn
    rw [regionSize_of_quiet hs h] at hn
    cases hn

theorem getDevice_synced {register writable afterFront afterBack : ℕ → UInt8} :
    Synced (getDevice register writable afterFront afterBack) := by
  have hread : ∀ m : ℕ → UInt8, ∀ a < spaceSize,
      writeAt m 0 (readAt register 0 spaceSize) a = register a := by
    intro m a ha
    rw [writeAt, if_pos (Nat.zero_le a), Nat.sub_zero, Kot.Lib.getElem?_readAt, if_pos ha, Nat.zero_add]
    rfl
  exact fun a ha => ⟨hread afterFront a ha, hread afterBack a ha⟩

/-- As long as no call had anything to send, the buffers agree with the registers, and the next
call is transparent exactly when it has nothing to send either. -/
theorem transparent_iff (register writable afterFront afterBack : ℕ → UInt8) (calls : List Call)
    (d : Device)
    (hrun : Run (Guarded Step Quiet) (getDevice register writable afterFront afterBack) calls d)
    (c : Call) :
    Synced d ∧ ((∃ r d', call d c = .ok (r, d') ∧ Transparent d c r d') ↔ Quiet d c) := by
  have hs : Synced d := by
    refine hrun.invariant getDevice_synced ?_
    rintro d1 c1 d2 hs ⟨⟨r, hc⟩, hq⟩
    obtain ⟨r', hc'⟩ := call_of_quiet hq
    obtain ⟨-, rfl⟩ := Prod.mk.inj (Except.ok.inj (hc'.symm.trans hc))
    exact hs
  exact ⟨hs, call_transparent_iff hs⟩

/-- A device with a 32-bit memory region of `0x4000` bytes at `0xfebc0000` in its first base
address register; the other registers are plain. -/
def networkCard : Device :=
  getDevice (writeAt (fun _ => 0) 0x10 [0x00, 0x00, 0xbc, 0xfe])
    (writeAt (fun _ => 0xff) 0x10 [0x00, 0xc0, 0xff, 0xff]) (fun _ => 0) (fun _ => 0)

/-- A word past the end of the space is refused, and then a size of a register that does not exist
is zero. -/
theorem transparent_refused_word :
    Run (Guarded Step Quiet) networkCard [.configWriteWord 0xff 1] networkCard ∧
    ∃ r d', call networkCard (.barSize 6) = .ok (r, d') ∧ Transparent networkCard (.barSize 6) r d' := by
  have hrun : Run (Guarded Step Quiet) networkCard ([] ++ [.configWriteWord 0xff 1]) networkCard := by
    refine .snoc .nil ⟨⟨.einval, rfl⟩, ?_⟩
    change spaceSize - 2 < 0xff
    decide
  refine ⟨hrun, ?_⟩
  exact (transparent_iff _ _ _ _ _ networkCard hrun (.barSize 6)).2.mpr (.inr (.inl (by decide)))

/-- Sizing the region of the card: the size is right, but the register keeps the probed value,
because the back buffer still holds the old one when it is to be restored, and bytes past the back
buffer are written. -/
theorem probed_register_stays : dword networkCard.register 0x10 = 0xfebc0000 ∧
    (networkCard.barSize 0).1 = 0x4000 ∧
    dword (networkCard.barSize 0).2.register 0x10 = 0xffffc000 ∧
    dword (networkCard.barSize 0).2.front 0x10 = 0xfebc0000 ∧
    (networkCard.barSize 0).2.outside = 0x200 := by
  decide +kernel

end Kot.Pci
