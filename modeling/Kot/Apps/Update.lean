import Mathlib.Algebra.GroupWithZero.Nat
import Mathlib.Algebra.Group.Int.Defs
import Mathlib.Order.Nat
import Mathlib.Tactic.SplitIfs

/-! The update check of the store (`apps/store-ui/source/update/update.c`): a version is packed into
one signed 32-bit number, and the packed numbers are compared. -/
namespace Kot.Apps.Update

def isDigit (c : UInt8) : Bool := 48 ≤ c && c ≤ 57

def dot : UInt8 := 46

/-- The number at the front of a text, after the digits of `n`, and the rest of the text. -/
def scanDigits (n : ℕ) : List UInt8 → ℕ × List UInt8
  | [] => (n, [])
  | c :: s => if isDigit c then scanDigits (10 * n + (c.toNat - 48)) s else (n, c :: s)

/-- `%d` where the text has neither blanks nor signs. -/
def scanInt (s : List UInt8) : Option (ℕ × List UInt8) :=
  if s.head?.any isDigit then some (scanDigits 0 s) else none

def scanDot (s : List UInt8) : Option (List UInt8) := if s.head? = some dot then some s.tail else none

/-- `sscanf(version_str, "%d.%d.%d", &x, &y, &z)`; `none` when a variable is not set. -/
def sscanf (s : List UInt8) : Option (ℕ × ℕ × ℕ) := do
  let (x, s) ← scanInt s
  let (y, s) ← scanInt (← scanDot s)
  let (z, _) ← scanInt (← scanDot s)
  some (x, y, z)

/-- `version_int`: the masks keep sixteen, eight and eight bits, and the sign is the highest. -/
def packVersion (x y z : ℕ) : ℤ :=
  let packed : ℕ := x % 2 ^ 16 * 2 ^ 16 + y % 2 ^ 8 * 2 ^ 8 + z % 2 ^ 8
  if packed < 2 ^ 31 then packed else (packed : ℤ) - 2 ^ 32

def getVersionFromString (s : List UInt8) : Option ℤ :=
  if s.all fun c => c == dot || isDigit c then (sscanf s).map fun v => packVersion v.1 v.2.1 v.2.2
  else some (-1)

/-- The result of `check_update`, given the version of the installed and of the remote
description. -/
def checkUpdate (installed remote : List UInt8) : Option ℤ := do
  let versionUrl ← getVersionFromString remote
  let versionLocal ← getVersionFromString installed
  if 0 < versionUrl ∧ 0 < versionLocal then some (if versionLocal < versionUrl then 1 else 0)
  else some (-1)

def number (l : List (Fin 10)) (n : ℕ) : ℕ := l.foldl (fun n d => 10 * n + d.val) n

/-- A decimal number that fits in an `int`. -/
structure Component where
  digits : List (Fin 10)
  nonempty : digits ≠ []
  fits : number digits 0 < 2 ^ 31

def digit (d : Fin 10) : UInt8 := 48 + UInt8.ofNat d

def Component.text (c : Component) : List UInt8 := c.digits.map digit

def Component.value (c : Component) : ℕ := number c.digits 0

structure Version where
  x : Component
  y : Component
  z : Component

namespace Version

def text (v : Version) : List UInt8 := v.x.text ++ dot :: (v.y.text ++ dot :: v.z.text)

def Reports (installed remote : Version) : Prop := checkUpdate installed.text remote.text = some 1

/-- The lexicographic order. -/
def Before (v w : Version) : Prop :=
  v.x.value < w.x.value ∨ v.x.value = w.x.value ∧
    (v.y.value < w.y.value ∨ v.y.value = w.y.value ∧ v.z.value < w.z.value)

/-- No bit is masked, the sign bit is clear, and the packed number is not zero. -/
def Fits (v : Version) : Prop :=
  v.x.value < 2 ^ 15 ∧ v.y.value < 2 ^ 8 ∧ v.z.value < 2 ^ 8 ∧
    0 < v.x.value + v.y.value + v.z.value

def packed (v : Version) : ℤ := packVersion v.x.value v.y.value v.z.value

end Version

theorem isDigit_digit : ∀ d, isDigit (digit d) = true := by decide

theorem digit_toNat : ∀ d, (digit d).toNat - 48 = d := by decide

variable {s : List UInt8} {v w : Version}

theorem scanDigits_digits {l : List (Fin 10)} {n : ℕ} (hs : s.head?.any isDigit = false) :
    scanDigits n (l.map digit ++ s) = (number l n, s) := by
  induction l generalizing n with
  | nil => cases s <;> simp_all [scanDigits, number]
  | cons d l ih => simp [scanDigits, isDigit_digit, digit_toNat, ih, number]

theorem scanInt_text {c : Component} (hs : s.head?.any isDigit = false) :
    scanInt (c.text ++ s) = some (c.value, s) := by
  obtain ⟨d, l, hl⟩ := List.exists_cons_of_ne_nil c.nonempty
  have hhead : (c.text ++ s).head?.any isDigit = true := by
    simp [Component.text, hl, isDigit_digit]
  rw [scanInt, if_pos hhead, Component.text, scanDigits_digits hs, Component.value]

theorem getVersionFromString_text : getVersionFromString v.text = some v.packed := by
  have hall : ∀ c : Component, c.text.all fun b => b == dot || isDigit b := by
    simp [Component.text, isDigit_digit]
  have hdot : isDigit dot = false := by decide
  have hz := scanInt_text (c := v.z) (s := []) rfl
  rw [List.append_nil] at hz
  rw [getVersionFromString, if_pos (by simp [Version.text, hall])]
  simp [sscanf, Version.text, scanDot, scanInt_text, hdot, hz, Version.packed]

theorem reports_iff : v.Reports w ↔ 0 < v.packed ∧ v.packed < w.packed := by
  simp only [Version.Reports, checkUpdate, getVersionFromString_text]
  change (if 0 < w.packed ∧ 0 < v.packed then some (if v.packed < w.packed then 1 else 0)
    else some (-1)) = some (1 : ℤ) ↔ _
  split_ifs <;> simp <;> omega

theorem Version.packed_lt (v : Version) : v.packed < 2 ^ 31 := by
  unfold packed packVersion
  dsimp only
  split_ifs <;> omega

theorem Version.packed_of_lt (h : v.x.value < 2 ^ 15) : v.packed =
    v.x.value * 2 ^ 16 + v.y.value % 2 ^ 8 * 2 ^ 8 + v.z.value % 2 ^ 8 := by
  unfold packed packVersion
  dsimp only
  split_ifs <;> omega

theorem Version.Fits.packed (h : v.Fits) :
    v.packed = v.x.value * 2 ^ 16 + v.y.value * 2 ^ 8 + v.z.value := by
  obtain ⟨hx, hy, hz, -⟩ := h
  rw [packed_of_lt hx]
  omega

/-- A version is compared as it should be with all versions that fit exactly if it fits too. -/
theorem update_ordered_iff (v : Version) : (∀ w : Version, w.Fits →
    (v.Reports w ↔ v.Before w) ∧ (w.Reports v ↔ w.Before v)) ↔ v.Fits := by
  simp only [reports_iff]
  constructor
  · intro h
    obtain ⟨m, hm⟩ : ∃ c : Component, c.value = 32767 := ⟨⟨[3, 2, 7, 6, 7], by decide, by decide⟩, rfl⟩
    obtain ⟨b, hb⟩ : ∃ c : Component, c.value = 255 := ⟨⟨[2, 5, 5], by decide, by decide⟩, rfl⟩
    obtain ⟨o, ho⟩ : ∃ c : Component, c.value = 0 := ⟨⟨[0], by decide, by decide⟩, rfl⟩
    obtain ⟨i, hi⟩ : ∃ c : Component, c.value = 1 := ⟨⟨[1], by decide, by decide⟩, rfl⟩
    have hnewer : ∀ x y z : Component, Version.Fits ⟨x, y, z⟩ → Version.Before ⟨x, y, z⟩ v →
        x.value * 2 ^ 16 + y.value * 2 ^ 8 + z.value < v.packed := by
      intro x y z hw hlt
      have := ((h ⟨x, y, z⟩ hw).2.mpr hlt).2
      rwa [hw.packed] at this
    have h1 := hnewer m b b
    have h2 := hnewer v.x b b
    have h3 := hnewer v.x v.y b
    have h4 := fun hw => (h ⟨o, o, i⟩ hw).1
    have hmax := v.packed_lt
    have hv := v.packed_of_lt
    simp only [Version.Fits, Version.Before, hm, hb, ho, hi, true_and] at h1 h2 h3 h4 ⊢
    omega
  · intro hv w hw
    rw [hv.packed, hw.packed, Version.Before, Version.Before]
    obtain ⟨_, _, _, _⟩ := hv
    obtain ⟨_, _, _, _⟩ := hw
    omega

/-- Version 1.256.0 is not reported as an update of 1.0.0. -/
theorem update_missed : ∃ v w : Version, v.Before w ∧ checkUpdate v.text w.text = some 0 :=
  ⟨⟨⟨[1], by decide, by decide⟩, ⟨[0], by decide, by decide⟩, ⟨[0], by decide, by decide⟩⟩,
    ⟨⟨[1], by decide, by decide⟩, ⟨[2, 5, 6], by decide, by decide⟩, ⟨[0], by decide, by decide⟩⟩,
    .inr ⟨rfl, .inl (by decide)⟩, by decide⟩

end Kot.Apps.Update
