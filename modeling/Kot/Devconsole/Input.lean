import Kot.Devconsole.Console
import Kot.Lib.Bytes
import Kot.Lib.Run

/-! Keys and reads of the terminal. The reader copies `key_buffer` and then resets it, and keys
arrive in between. -/
namespace Kot.Devconsole.Input

open List Function
open Kot.Kernel (Fault)
open Kot.Lib (readAt readAt_append readAt_congr Succeeds MeetsAll succeeds_iff)

/-- Where `console_interface_read` is. -/
inductive Reader
  | idle
  | copying (size : ℕ) (stored : List UInt8)
  /-- behind the loop -/
  | copied (stored : List UInt8)
  /-- behind `key_buffer_size = 0` -/
  | cleared (stored : List UInt8)
  deriving DecidableEq

structure Tty where
  keyBuffer : ℕ → UInt8
  keyBufferCharIndex : ℕ
  keyBufferSize : ℕ
  crtlKeyIsPressed : Bool
  reader : Reader
  accepted : List UInt8
  returned : List UInt8

def start : Tty := ⟨fun _ => 0, 0, 0, false, .idle, [], []⟩

def addKeyToKeyBuffer (s : Tty) (key : UInt16) : Except Fault Tty :=
  if s.keyBufferSize < 1024 then
    if s.keyBufferCharIndex < 1024 then
      .ok { s with
        keyBuffer := update (update s.keyBuffer s.keyBufferCharIndex key.toUInt8) (s.keyBufferCharIndex + 1) 0
        keyBufferCharIndex := s.keyBufferCharIndex + 1
        keyBufferSize := s.keyBufferSize + 1
        accepted := s.accepted ++ [key.toUInt8] }
    else .error .strayAccess
  else .ok s

def keyHandler (s : Tty) (key : UInt16) (isPressed : Bool) : Except Fault Tty :=
  if key = 0x12 then .ok { s with crtlKeyIsPressed := isPressed }
  else if isPressed then
    if isPrintable key then if s.crtlKeyIsPressed then .ok s else addKeyToKeyBuffer s key
    else if key = 10 ∨ key = 8 then addKeyToKeyBuffer s key
    else .ok s
  else .ok s

/-- The next turn of the loop, which does not look at the size, or the next store behind it. -/
def goOn (s : Tty) : Except Fault Tty :=
  match s.reader with
  | .idle => .ok s
  | .copying size stored =>
    if stored.length < s.keyBufferSize then
      if stored.length < size then
        .ok { s with reader := .copying size (stored ++ [s.keyBuffer stored.length]) }
      else .error .strayAccess
    else .ok { s with reader := .copied stored }
  | .copied stored => .ok { s with keyBufferSize := 0, reader := .cleared stored }
  | .cleared stored =>
    .ok { s with keyBufferCharIndex := 0, reader := .idle, returned := s.returned ++ stored }

inductive Event
  | key (key : UInt16) (isPressed : Bool)
  | read (size : ℕ)
  | goOn
  deriving DecidableEq

/-- A read that finds the lock taken ends with `EIO`; one that finds no key goes on when it is
woken. -/
def step (s : Tty) : Event → Except Fault Tty
  | .key key isPressed => keyHandler s key isPressed
  | .read size => .ok (if s.reader = .idle then { s with reader := .copying size [] } else s)
  | .goOn => goOn s

/-- What the reads have still to return: a reader behind its loop resets the buffer. -/
def Tty.pending (s : Tty) : List UInt8 :=
  match s.reader with
  | .copied stored | .cleared stored => stored
  | _ => readAt s.keyBuffer 0 s.keyBufferSize

/-- The accepted keys are those returned, and then those still to be returned. -/
def Lossless (s : Tty) : Prop := s.accepted = s.returned ++ s.pending

/-- No key is accepted between the loop and the resets, and no read is shorter than what is there. -/
def Meets (s : Tty) : Event → Prop
  | .key key isPressed =>
    match s.reader with
    | .copied _ | .cleared _ => ∃ t, keyHandler s key isPressed = .ok t ∧ t.accepted = s.accepted
    | _ => True
  | .read _ => True
  | .goOn =>
    match s.reader with
    | .copying size stored => stored.length < s.keyBufferSize → stored.length < size
    | _ => True

def Reader.Fits (s : Tty) : Reader → Prop
  | .idle | .copied _ => s.keyBufferCharIndex = s.keyBufferSize
  | .copying _ stored => stored.length ≤ s.keyBufferSize ∧ stored = readAt s.keyBuffer 0 stored.length ∧
      s.keyBufferCharIndex = s.keyBufferSize
  | .cleared _ => s.keyBufferSize = 0

def Inv (s : Tty) : Prop := s.reader.Fits s ∧ Lossless s

variable {s t : Tty} {key : UInt16} {isPressed : Bool}

theorem keyHandler_cases : keyHandler s key isPressed = addKeyToKeyBuffer s key ∨
      ∃ c, keyHandler s key isPressed = .ok { s with crtlKeyIsPressed := c } := by
  unfold keyHandler
  split_ifs
  · exact .inr ⟨isPressed, rfl⟩
  · exact .inr ⟨_, rfl⟩
  · exact .inl rfl
  · exact .inl rfl
  · exact .inr ⟨_, rfl⟩
  · exact .inr ⟨_, rfl⟩

theorem readAt_key {b : ℕ → UInt8} {n : ℕ} {k : UInt8} {m : ℕ} (hm : m ≤ n) :
    readAt (update (update b n k) (n + 1) 0) 0 m = readAt b 0 m := by
  refine readAt_congr fun x _ hx => ?_
  rw [update_of_ne (by omega), update_of_ne (by omega)]

theorem keyHandler_keeps (hs : keyHandler s key isPressed = .ok t) :
    t.returned = s.returned ∧ t.reader = s.reader ∧
      (t.accepted = s.accepted → ∃ c, t = { s with crtlKeyIsPressed := c }) := by
  obtain hk | ⟨c, hk⟩ := keyHandler_cases
  · rw [hk, addKeyToKeyBuffer] at hs
    split_ifs at hs
    · cases hs
      exact ⟨rfl, rfl, fun ha => by simp at ha⟩
    · cases hs
      exact ⟨rfl, rfl, fun _ => ⟨_, rfl⟩⟩
  · cases hk.symm.trans hs
    exact ⟨rfl, rfl, fun _ => ⟨c, rfl⟩⟩

/-- While the reader is not behind its loop, a key goes to the end of the buffer. -/
theorem Inv.addKey (h : Inv s) (hindex : s.keyBufferCharIndex = s.keyBufferSize)
    (hr : s.reader = .idle ∨ ∃ size stored, s.reader = .copying size stored) (key : UInt16) :
    ∃ t, addKeyToKeyBuffer s key = .ok t ∧ Inv t := by
  unfold addKeyToKeyBuffer
  split_ifs with hroom hplace
  · refine ⟨_, rfl, ?_⟩
    obtain ⟨b, index, n, c, r, a, q⟩ := s
    obtain rfl : index = n := hindex
    have hlaw : a = q ++ readAt b 0 index → a ++ [key.toUInt8] =
        q ++ readAt (update (update b index key.toUInt8) (index + 1) 0) 0 (index + 1) := by
      rintro rfl
      rw [readAt_append, readAt_key (Nat.le_refl _), append_assoc]
      simp [readAt]
    obtain rfl | ⟨size, stored, rfl⟩ := hr
    · exact ⟨rfl, hlaw h.2⟩
    · obtain ⟨⟨hle, hstored, -⟩, h⟩ := h
      exact ⟨⟨Nat.le_succ_of_le hle, hstored.trans (readAt_key hle).symm, rfl⟩, hlaw h⟩
  · omega
  · exact ⟨s, rfl, h⟩

theorem meets_key (h : Inv s) (hm : Meets s (.key key isPressed)) :
    ∃ t, keyHandler s key isPressed = .ok t ∧ Inv t := by
  have hbehind : (∃ t, keyHandler s key isPressed = .ok t ∧ t.accepted = s.accepted) →
      ∃ t, keyHandler s key isPressed = .ok t ∧ Inv t := by
    rintro ⟨t, ht, ha⟩
    obtain ⟨c, rfl⟩ := (keyHandler_keeps ht).2.2 ha
    exact ⟨_, ht, h⟩
  have hbefore (hindex : s.keyBufferCharIndex = s.keyBufferSize)
      (hr : s.reader = .idle ∨ ∃ size stored, s.reader = .copying size stored) :
      ∃ t, keyHandler s key isPressed = .ok t ∧ Inv t := by
    obtain hk | ⟨c, hk⟩ := keyHandler_cases
    · exact hk ▸ h.addKey hindex hr key
    · exact ⟨_, hk, h⟩
  obtain ⟨b, index, n, c, r, a, q⟩ := s
  cases r with
  | idle => exact hbefore h.1 (.inl rfl)
  | copying size stored => exact hbefore h.1.2.2 (.inr ⟨_, _, rfl⟩)
  | copied stored | cleared stored => exact hbehind hm

theorem meets_goOn (h : Inv s) (hm : Meets s .goOn) : ∃ t, goOn s = .ok t ∧ Inv t := by
  obtain ⟨b, index, n, c, r, a, q⟩ := s
  cases r with
  | idle => exact ⟨_, rfl, h⟩
  | copying size stored =>
    obtain ⟨⟨hle, hstored, hindex⟩, h⟩ := h
    dsimp only [goOn]
    split_ifs with hlt hsize
    · refine ⟨_, rfl, ⟨?_, ?_, hindex⟩, h⟩
      · rw [length_append]
        exact hlt
      · rw [length_append, readAt_append, ← hstored]
        simp [readAt]
    · exact absurd (hm hlt) hsize
    · obtain rfl : stored.length = n := Nat.le_antisymm hle (Nat.le_of_not_lt hlt)
      refine ⟨_, rfl, hindex, ?_⟩
      rw [Lossless] at h ⊢
      exact h.trans (congrArg (q ++ ·) hstored.symm)
  | copied stored => exact ⟨_, rfl, rfl, h.2⟩
  | cleared stored =>
    obtain ⟨rfl, h⟩ := h
    exact ⟨_, rfl, rfl, h.trans (append_nil _).symm⟩

theorem meets_step (h : Inv s) {e : Event} (hm : Meets s e) : ∃ t, step s e = .ok t ∧ Inv t := by
  cases e with
  | key key isPressed => exact meets_key h hm
  | goOn => exact meets_goOn h hm
  | read size =>
    refine ⟨_, rfl, ?_⟩
    split_ifs with hr
    · obtain ⟨b, index, n, c, r, a, q⟩ := s
      cases hr
      exact ⟨⟨Nat.zero_le _, rfl, h.1⟩, h.2⟩
    · exact h

theorem step_iff (h : Inv s) (e : Event) : (∃ t, step s e = .ok t ∧ Lossless t) ↔ Meets s e := by
  refine ⟨?_, fun hm => (meets_step h hm).imp fun t ht => ⟨ht.1, ht.2.2⟩⟩
  rintro ⟨t, hs, hl⟩
  obtain ⟨b, index, n, c, r, a, q⟩ := s
  cases e with
  | read size => trivial
  | key key isPressed =>
    obtain ⟨hq, hr, -⟩ := keyHandler_keeps hs
    have ha := hl.trans (by rw [hq])
    unfold Tty.pending at ha
    rw [hr] at ha
    cases r with
    | idle => trivial
    | copying size stored => trivial
    | copied stored | cleared stored => exact ⟨t, hs, ha.trans h.2.symm⟩
  | goOn =>
    cases r with
    | copying size stored =>
      intro hlt
      by_contra hsize
      simp [step, goOn, hlt, hsize] at hs
    | _ => trivial

theorem inv_step (h : Inv s) (e : Event) (hs : step s e = .ok t) (hl : Lossless t) : Inv t := by
  obtain ⟨u, hu, hinv⟩ := meets_step h ((step_iff h e).mp ⟨t, hs, hl⟩)
  cases hu.symm.trans hs
  exact hinv

end Kot.Devconsole.Input
