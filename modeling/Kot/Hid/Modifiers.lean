import Kot.Kernel.Machine
import Kot.Lib.Run
import Mathlib.Logic.Function.Basic

/-! Translating key events (`modules/hid/source/interface.c`): the modifier flags select a sub-table,
and the keys found there set the flags. -/
namespace Kot.Hid

open Function (update update_self update_of_ne)
open Kot.Kernel (Fault)
open Kot.Lib (Succeeds MeetsAll succeeds_iff)

def tskShift : ℕ := 0xF

def tskCapsLock : ℕ := 0x11

def tskAltGr : ℕ := 0x13

/-- Four sub-tables of `sub` entries that have the modifier keys at the same places. -/
structure Table where
  sub : ℕ
  entry : ℕ → ℕ
  size_lt : 4 * sub < 2 ^ 64
  agree : ∀ c < sub, ∀ i < 4, ∀ m ∈ [tskShift, tskCapsLock, tskAltGr],
    entry (c + i * sub) = m ↔ entry c = m

/-- The static variables of `key_update_state`. -/
@[ext] structure Flags where
  isCapsLock : Bool
  isShiftPressed : Bool
  isAltGrPressed : Bool

/-- The starts of the sub-tables are of 16 bits. -/
def translationIndex (t : Table) (f : Flags) (scancode : ℕ) : ℕ :=
  (scancode + (if f.isCapsLock ^^ f.isShiftPressed then 4 * t.sub * 1 / 4 % 2 ^ 16 else 0) +
    if f.isAltGrPressed then 4 * t.sub * 2 / 4 % 2 ^ 16 else 0) % 2 ^ 64

def translate (t : Table) (f : Flags) (scancode : ℕ) : ℕ :=
  if translationIndex t f scancode < 4 * t.sub then t.entry (translationIndex t f scancode) else 0

def keyUpdateState (t : Table) (f : Flags) (scancode : ℕ) (isPressed : Bool) : Flags :=
  let key := translate t f scancode
  if key = tskCapsLock ∧ isPressed = true then { f with isCapsLock := !f.isCapsLock }
  else if key = tskShift then { f with isShiftPressed := isPressed }
  else if key = tskAltGr then { f with isAltGrPressed := isPressed }
  else f

/-- The flags, and what the code does not keep: the keys that are down, and how often one of caps
lock was pressed. -/
structure Keyboard where
  flags : Flags
  held : ℕ → Bool
  capsPresses : ℕ

def start : Keyboard := ⟨⟨false, false, false⟩, fun _ => false, 0⟩

def Mapped (t : Table) (m c : ℕ) : Prop := c < t.sub ∧ t.entry c = m

instance (t : Table) (m c : ℕ) : Decidable (Mapped t m c) := inferInstanceAs (Decidable (_ ∧ _))

/-- A key is pressed if it is up, and released if it is down. -/
def Keyboard.event (t : Table) (s : Keyboard) (scancode : ℕ) : Except Fault Keyboard :=
  let isPressed := !s.held scancode
  .ok ⟨keyUpdateState t s.flags scancode isPressed, update s.held scancode isPressed,
    if Mapped t tskCapsLock scancode ∧ isPressed = true then s.capsPresses + 1 else s.capsPresses⟩

def Holds (t : Table) (m : ℕ) (held : ℕ → Bool) : Prop := ∃ c, Mapped t m c ∧ held c = true

structure Right (t : Table) (s : Keyboard) : Prop where
  capsLock : s.flags.isCapsLock = true ↔ s.capsPresses % 2 = 1
  shift : s.flags.isShiftPressed = true ↔ Holds t tskShift s.held
  altGr : s.flags.isAltGrPressed = true ↔ Holds t tskAltGr s.held

/-- The sub-table that the flags select. -/
def selected (f : Flags) : ℕ :=
  (if f.isCapsLock ^^ f.isShiftPressed then 1 else 0) + if f.isAltGrPressed then 2 else 0

/-- No other key with the same modifier is down when one is released. -/
def Alone (t : Table) (s : Keyboard) (m c : ℕ) : Prop :=
  t.entry c = m → s.held c = true → ∀ d, d ≠ c → Mapped t m d → s.held d = false

/-- The starts that are added are not cut, and keys with one modifier are not held together; a key
outside the sub-tables changes no flag. -/
def Kept (t : Table) (s : Keyboard) (c : ℕ) : Prop :=
  if c < t.sub then
    ((s.flags.isCapsLock ^^ s.flags.isShiftPressed) = true → t.sub < 2 ^ 16) ∧
      (s.flags.isAltGrPressed = true → 2 * t.sub < 2 ^ 16) ∧
      Alone t s tskShift c ∧ Alone t s tskAltGr c
  else keyUpdateState t s.flags c (!s.held c) = s.flags

variable {t : Table} {s : Keyboard} {m c : ℕ} {flag : Bool}

theorem translationIndex_eq_iff (hc : c < t.sub) :
    translationIndex t s.flags c = c + selected s.flags * t.sub ↔
      ((s.flags.isCapsLock ^^ s.flags.isShiftPressed) = true → t.sub < 2 ^ 16) ∧
        (s.flags.isAltGrPressed = true → 2 * t.sub < 2 ^ 16) := by
  have hsize := t.size_lt
  unfold translationIndex selected
  rw [Nat.mod_eq_of_lt (by split_ifs <;> omega)]
  split_ifs with h1 h2 h2 <;> simp only [h1, h2] <;> simp <;> omega

theorem translate_eq_iff (hc : c < t.sub) (hi : translationIndex t s.flags c = c + selected s.flags * t.sub)
    (hm : m ∈ [tskShift, tskCapsLock, tskAltGr]) : translate t s.flags c = m ↔ t.entry c = m := by
  have hlt : selected s.flags < 4 := by
    unfold selected
    split_ifs <;> decide
  have hle := Nat.mul_le_mul_right t.sub (Nat.le_of_lt_succ hlt)
  rw [translate, hi, if_pos (by omega)]
  exact t.agree c hc _ hlt m hm

theorem keyUpdateState_eq {isPressed : Bool}
    (h : ∀ m ∈ [tskShift, tskCapsLock, tskAltGr], translate t s.flags c = m ↔ t.entry c = m) :
    keyUpdateState t s.flags c isPressed =
      ⟨if t.entry c = tskCapsLock ∧ isPressed = true then !s.flags.isCapsLock else s.flags.isCapsLock,
        if t.entry c = tskShift then isPressed else s.flags.isShiftPressed,
        if t.entry c = tskAltGr then isPressed else s.flags.isAltGrPressed⟩ := by
  simp only [keyUpdateState, h tskShift (by simp), h tskCapsLock (by simp), h tskAltGr (by simp)]
  unfold tskShift tskCapsLock tskAltGr
  split_ifs <;> first | rfl | omega

theorem holds_update_of_not (hc : ¬ Mapped t m c) :
    Holds t m (update s.held c flag) ↔ Holds t m s.held := by
  refine exists_congr fun d => and_congr_right fun hd => ?_
  rw [update_of_ne]
  rintro rfl
  exact hc hd

theorem holds_update_self (hc : Mapped t m c) :
    ((!s.held c) = true ↔ Holds t m (update s.held c (!s.held c))) ↔ Alone t s m c := by
  cases h : s.held c with
  | false =>
    refine iff_of_true ⟨fun _ => ⟨c, hc, update_self ..⟩, fun _ => rfl⟩ fun _ hheld => ?_
    rw [h] at hheld
    cases hheld
  | true =>
    constructor
    · intro hno _ _ d hd hm
      rw [Bool.eq_false_iff]
      exact fun hheld => Bool.false_ne_true (hno.mpr ⟨d, hm, by rwa [update_of_ne hd]⟩)
    · intro halone
      refine ⟨nofun, ?_⟩
      rintro ⟨d, hm, hd⟩
      by_cases hdc : d = c
      · rwa [hdc, update_self] at hd
      · rw [update_of_ne hdc, halone hc.2 h d hdc hm] at hd
        cases hd

theorem flag_iff (hc : c < t.sub) (hs : flag = true ↔ Holds t m s.held) :
    ((if t.entry c = m then !s.held c else flag) = true ↔ Holds t m (update s.held c (!s.held c))) ↔
      Alone t s m c := by
  split_ifs with h
  · exact holds_update_self ⟨hc, h⟩
  · rw [holds_update_of_not fun hm => h hm.2]
    exact iff_of_true hs fun hm => absurd hm h

theorem event_iff (hs : Right t s) : (∃ s', s.event t c = .ok s' ∧
      (c < t.sub → translationIndex t s.flags c = c + selected s.flags * t.sub) ∧ Right t s') ↔
    Kept t s c := by
  simp only [Keyboard.event, Except.ok.injEq, exists_eq_left', Kept]
  by_cases hc : c < t.sub
  · rw [if_pos hc, ← and_assoc, ← translationIndex_eq_iff hc]
    simp only [hc, true_imp_iff]
    refine and_congr_right fun hi => ?_
    rw [keyUpdateState_eq fun m hm => translate_eq_iff hc hi hm]
    constructor
    · rintro ⟨-, hshift, haltGr⟩
      exact ⟨(flag_iff hc hs.shift).mp hshift, (flag_iff hc hs.altGr).mp haltGr⟩
    · rintro ⟨hshift, haltGr⟩
      refine ⟨?_, (flag_iff hc hs.shift).mpr hshift, (flag_iff hc hs.altGr).mpr haltGr⟩
      have hcaps := hs.capsLock
      simp only [Mapped, hc, true_and]
      split_ifs with h
      · simp only [Bool.not_eq_true', Bool.eq_false_iff, ne_eq, hcaps]
        omega
      · exact hcaps
  · have hnot : ∀ m, ¬ Mapped t m c := fun m hm => hc hm.1
    rw [if_neg hc, if_neg fun h => hnot _ h.1]
    constructor
    · rintro ⟨-, hcaps, hshift, haltGr⟩
      rw [holds_update_of_not (hnot _)] at hshift haltGr
      exact Flags.ext (Bool.eq_iff_iff.mpr (hcaps.trans hs.capsLock.symm))
        (Bool.eq_iff_iff.mpr (hshift.trans hs.shift.symm))
        (Bool.eq_iff_iff.mpr (haltGr.trans hs.altGr.symm))
    · intro h
      refine ⟨fun h => absurd h hc, ?_, ?_, ?_⟩ <;> simp only [h, holds_update_of_not (hnot _)]
      · exact hs.capsLock
      · exact hs.shift
      · exact hs.altGr

def twoShifts : Table := ⟨2, fun _ => tskShift, by decide, fun _ _ _ _ _ _ => Iff.rfl⟩

end Kot.Hid
