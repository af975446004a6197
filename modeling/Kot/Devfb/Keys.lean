import Kot.Kernel.Machine
import Kot.Lib.Run
import Mathlib.Logic.Function.Basic

/-! The ring of key events behind the framebuffer device: `key_handler` fills it, `fb_interface_read`
takes one event from it. -/
namespace Kot.Devfb.Keys

open List
open Function (update update_self update_of_ne)
open Kot.Kernel (Fault)
open Kot.Lib (Succeeds MeetsAll succeeds_iff)

def scancodeBufferLength : ℕ := 512 * 2

structure KeyEvent where
  scancode : UInt64
  translatedKey : UInt16
  isPressed : Bool
  deriving DecidableEq, Repr

/-- A word of the ring. The number of the event that it is from is not in the code. -/
structure Word where
  event : ℕ
  value : UInt64
  deriving DecidableEq, Repr

def KeyEvent.words (e : KeyEvent) (number : ℕ) : Word × Word :=
  (⟨number, e.scancode⟩, ⟨number, e.translatedKey.toUInt64 ||| e.isPressed.toUInt64 <<< 63⟩)

/-- The ring, and what the code does not keep: the events so far, those that were returned and the
number of the first one that is still to be returned. -/
structure State where
  scancodeBuffer : ℕ → Word
  indexRead : ℕ
  indexWrite : ℕ
  sizeToRead : ℕ
  arrived : List (Word × Word)
  returned : List (Word × Word)
  oldest : ℕ

def start : State := ⟨fun _ => ⟨0, 0⟩, 0, 0, 0, [], [], 0⟩

def keyHandler (s : State) (e : KeyEvent) : State :=
  let words := e.words s.arrived.length
  { s with
    scancodeBuffer := update (update s.scancodeBuffer s.indexWrite words.1) (s.indexWrite + 1) words.2
    indexWrite := (s.indexWrite + 2) % scancodeBufferLength
    sizeToRead :=
      if s.sizeToRead + 2 > scancodeBufferLength then scancodeBufferLength else s.sizeToRead + 2
    arrived := s.arrived ++ [words]
    oldest := max s.oldest (s.arrived.length + 1 - 512) }

def State.front (s : State) : Option (Word × Word) :=
  if s.sizeToRead ≥ 2 then some (s.scancodeBuffer s.indexRead, s.scancodeBuffer (s.indexRead + 1))
  else none

def fbInterfaceRead (s : State) : State :=
  match s.front with
  | none => s
  | some words =>
    { s with
      indexRead := (s.indexRead + 2) % scancodeBufferLength
      sizeToRead := s.sizeToRead - 2
      returned := s.returned ++ [words]
      oldest := s.oldest + 1 }

inductive Op
  | key (e : KeyEvent)
  | read
  deriving DecidableEq, Repr

def step (s : State) : Op → Except Fault State
  | .key e => .ok (keyHandler s e)
  | .read => .ok (fbInterfaceRead s)

/-- What the next reads return when no event arrives. -/
def reads : ℕ → State → List (Word × Word)
  | 0, _ => []
  | n + 1, s =>
    match s.front with
    | none => []
    | some words => words :: reads n (fbInterfaceRead s)

/-- What was returned are events in the order of their arrival, none twice, and what will be returned
are the last 512 that were not, oldest first. -/
def Law (s : State) : Prop :=
  s.returned.Sublist s.arrived ∧ (s.arrived.map fun words => words.1.event) = List.range s.arrived.length ∧
    ∀ n, reads n s = (s.arrived.drop s.oldest).take n

/-- No event arrives while 512 are to be read. -/
def Meets (s : State) : Op → Prop
  | .key _ => s.sizeToRead < scancodeBufferLength
  | .read => True

/-- The last 512 events are in the ring, in every run. -/
structure Stored (s : State) : Prop where
  numbered : (s.arrived.map fun words => words.1.event) = List.range s.arrived.length
  write : s.indexWrite = 2 * (s.arrived.length % 512)
  stored : ∀ k words, s.arrived[k]? = some words → s.arrived.length ≤ k + 512 →
    s.scancodeBuffer (2 * (k % 512)) = words.1 ∧ s.scancodeBuffer (2 * (k % 512) + 1) = words.2

structure Inv (s : State) : Prop extends Stored s where
  read : s.indexRead = 2 * (s.oldest % 512)
  size : s.sizeToRead + 2 * s.oldest = 2 * s.arrived.length
  room : s.arrived.length ≤ s.oldest + 512
  returned : s.returned.Sublist (s.arrived.take s.oldest)

variable {s : State}

theorem Stored.keyHandler (h : Stored s) (e : KeyEvent) : Stored (keyHandler s e) := by
  refine ⟨?_, ?_, fun k words hk hlast => ?_⟩
  · simp [Keys.keyHandler, KeyEvent.words, h.numbered, range_succ]
  · simp only [Keys.keyHandler, scancodeBufferLength, h.write, length_append, length_singleton]
    omega
  · simp only [Keys.keyHandler, length_append, length_singleton, h.write] at hk hlast ⊢
    rcases Nat.lt_trichotomy k s.arrived.length with hlt | rfl | hgt
    · rw [getElem?_append_left hlt] at hk
      rw [update_of_ne (by omega), update_of_ne (by omega), update_of_ne (by omega),
        update_of_ne (by omega)]
      exact h.stored k words hk (by omega)
    · rw [getElem?_concat_length] at hk
      cases hk
      rw [update_of_ne (by omega), update_self, update_self]
      exact ⟨rfl, rfl⟩
    · rw [getElem?_eq_none (by simp; omega)] at hk
      cases hk

theorem Inv.keyHandler (h : Inv s) (e : KeyEvent) (hroom : s.sizeToRead < scancodeBufferLength) :
    Inv (keyHandler s e) := by
  have hsize := h.size
  have hlength : scancodeBufferLength = 1024 := rfl
  have holdest : max s.oldest (s.arrived.length + 1 - 512) = s.oldest := by omega
  refine ⟨h.toStored.keyHandler e, ?_, ?_, ?_, ?_⟩
  · simp only [Keys.keyHandler, holdest, h.read]
  · simp only [Keys.keyHandler, holdest, length_append, length_singleton]
    rw [if_neg (by omega)]
    omega
  · simp only [Keys.keyHandler, holdest, length_append, length_singleton]
    omega
  · simp only [Keys.keyHandler, holdest]
    rw [take_append_of_le_length (by omega)]
    exact h.returned

theorem Inv.front (h : Inv s) : s.front = s.arrived[s.oldest]? := by
  have hsize := h.size
  unfold State.front
  split_ifs with hs
  · have hlt : s.oldest < s.arrived.length := by omega
    obtain ⟨h1, h2⟩ := h.stored s.oldest _ (getElem?_eq_getElem hlt) h.room
    rw [h.read, h1, h2, getElem?_eq_getElem hlt]
  · rw [getElem?_eq_none (by omega)]

theorem Inv.fbInterfaceRead (h : Inv s) : Inv (fbInterfaceRead s) := by
  unfold Keys.fbInterfaceRead
  rw [h.front]
  cases hfront : s.arrived[s.oldest]? with
  | none => exact h
  | some words =>
    have hlt := (List.getElem?_eq_some_iff.mp hfront).1
    have hsize := h.size
    have hle := h.room
    refine ⟨⟨h.numbered, h.write, h.stored⟩, ?_, ?_, ?_, ?_⟩
    · simp only [h.read, scancodeBufferLength]
      omega
    · simp only
      omega
    · simp only
      omega
    · rw [take_add_one, hfront]
      exact h.returned.append (List.Sublist.refl _)

theorem Inv.reads (h : Inv s) (n : ℕ) : reads n s = (s.arrived.drop s.oldest).take n := by
  induction n generalizing s with
  | zero => rfl
  | succ n ih =>
    have hnext := ih h.fbInterfaceRead
    unfold Keys.fbInterfaceRead at hnext
    rw [Keys.reads, Keys.fbInterfaceRead, h.front]
    rw [h.front] at hnext
    cases hfront : s.arrived[s.oldest]? with
    | none => rw [drop_of_length_le (getElem?_eq_none_iff.mp hfront)]; rfl
    | some words =>
      obtain ⟨hlt, hwords⟩ := List.getElem?_eq_some_iff.mp hfront
      rw [hfront] at hnext
      rw [drop_eq_getElem_cons hlt, take_succ_cons, hwords]
      exact congrArg _ hnext

theorem Inv.law (h : Inv s) : Law s := ⟨h.returned.trans (take_sublist ..), h.numbered, h.reads⟩

/-- An event that arrives while 512 are to be read takes the place of the oldest, where the next read
begins. -/
theorem Inv.front_of_full (h : Inv s) (e : KeyEvent) (hfull : ¬ s.sizeToRead < scancodeBufferLength) :
    (Keys.keyHandler s e).front = some (e.words s.arrived.length) ∧
      (Keys.keyHandler s e).oldest = s.oldest + 1 ∧ s.arrived.length = s.oldest + 512 := by
  have hsize := h.size
  have hle := h.room
  have hlength : scancodeBufferLength = 1024 := rfl
  obtain ⟨h1, h2⟩ := (h.toStored.keyHandler e).stored s.arrived.length (e.words s.arrived.length)
    (getElem?_concat_length ..) (by simp [Keys.keyHandler])
  have hread : (Keys.keyHandler s e).indexRead = 2 * (s.arrived.length % 512) := by
    simp only [Keys.keyHandler, h.read]
    omega
  refine ⟨?_, ?_, by omega⟩
  · rw [State.front, hread, h1, h2, if_pos]
    simp only [Keys.keyHandler]
    split_ifs <;> omega
  · simp only [Keys.keyHandler]
    omega

theorem Inv.not_law (h : Inv s) (e : KeyEvent) (hfull : ¬ s.sizeToRead < scancodeBufferLength) :
    ¬ Law (Keys.keyHandler s e) := by
  rintro ⟨-, hnumbered, hreads⟩
  obtain ⟨hfront, holdest, hlen⟩ := h.front_of_full e hfull
  have hnext : (Keys.keyHandler s e).arrived[s.oldest + 1]? = some (e.words s.arrived.length) := by
    have hone := congrArg List.head? (hreads 1)
    simpa [Keys.reads, hfront, holdest, head?_take, head?_drop] using hone.symm
  have hnumber := congrArg (Option.map fun words => words.1.event) hnext
  rw [← getElem?_map, hnumbered, Option.map_some, List.getElem?_eq_some_iff] at hnumber
  obtain ⟨_, hnumber⟩ := hnumber
  rw [getElem_range] at hnumber
  simp only [KeyEvent.words] at hnumber
  omega

theorem step_iff (h : Inv s) (op : Op) : (∃ t, step s op = .ok t ∧ Law t) ↔ Meets s op := by
  cases op with
  | read => exact ⟨fun _ => trivial, fun _ => ⟨_, rfl, h.fbInterfaceRead.law⟩⟩
  | key e =>
    constructor
    · rintro ⟨t, ht, hlaw⟩
      cases ht
      by_contra hfull
      exact h.not_law e hfull hlaw
    · intro hroom
      exact ⟨_, rfl, (h.keyHandler e hroom).law⟩

theorem inv_step (op : Op) {t : State} (h : Inv s) (ht : step s op = .ok t) (hlaw : Law t) : Inv t := by
  cases op with
  | read =>
    cases ht
    exact h.fbInterfaceRead
  | key e =>
    cases ht
    exact h.keyHandler e ((step_iff h (.key e)).mp ⟨_, rfl, hlaw⟩)

theorem inv_start : Inv start :=
  ⟨⟨rfl, rfl, by simp [start]⟩, rfl, rfl, by simp [start], by simp [start]⟩

/-- The law holds all along a run exactly if no event arrives while 512 are to be read. -/
theorem keys_law_iff (ops : List Op) :
    Succeeds step (fun _ _ t => Law t) start ops ↔ MeetsAll step Meets start ops :=
  succeeds_iff (fun _ op h => step_iff h op) (fun _ op _ h ht hlaw => inv_step op h ht hlaw) inv_start ops

def presses : ℕ → State
  | 0 => start
  | n + 1 => keyHandler (presses n) ⟨1, 2, true⟩

theorem inv_presses (n : ℕ) (hn : n ≤ 512) :
    Inv (presses n) ∧ (presses n).arrived.length = n ∧ (presses n).oldest = 0 := by
  induction n with
  | zero => exact ⟨inv_start, rfl, rfl⟩
  | succ n ih =>
    obtain ⟨hinv, hlen, hold⟩ := ih (by omega)
    have hsize := hinv.size
    refine ⟨hinv.keyHandler _ ?_, ?_, ?_⟩
    · unfold scancodeBufferLength
      omega
    · simp [presses, keyHandler, hlen]
    · simp only [presses, keyHandler, hold, hlen]
      omega

/-- After 513 events the first read returns the last of them, and not the second. -/
theorem overflow_returns_newest :
    (presses 513).front = some (KeyEvent.words ⟨1, 2, true⟩ 512) ∧ (presses 513).oldest = 1 := by
  obtain ⟨hinv, hlen, hold⟩ := inv_presses 512 (by omega)
  have hsize := hinv.size
  obtain ⟨hfront, holdest, -⟩ := hinv.front_of_full ⟨1, 2, true⟩ (by unfold scancodeBufferLength; omega)
  rw [hlen] at hfront
  rw [hold] at holdest
  exact ⟨hfront, holdest⟩

end Kot.Devfb.Keys
