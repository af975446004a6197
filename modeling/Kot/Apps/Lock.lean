import Mathlib.Algebra.Group.Int.Defs
import Mathlib.Tactic.IntervalCases
import Kot.Kernel.Machine
import Kot.Lib.Run

/-! The lock screen: the PIN that is typed into a buffer of five bytes, over the whole history of
keys. -/
namespace Kot.Apps.Lock

open List
open Kot.Kernel (Fault ok_bind)
open Kot.Lib (Run)

/-- What `get_key` reads. -/
structure KeyEvent where
  pressed : Bool
  key : ℕ
  deriving DecidableEq, Repr

/-- The two loops of `main`, and its end with `EXIT_SUCCESS`. -/
inductive Screen
  | login
  | pin
  | unlocked
  deriving DecidableEq, Repr

structure State where
  pin : List UInt8
  displayPin : List UInt8
  pinExpected : List UInt8
  isPinSet : Bool
  screen : Screen
  deriving DecidableEq, Repr

/-- The values that `wait_for_pin` returns: 0, 1, 2, 3 and 4. -/
inductive PinResult
  | waiting
  | complete
  | back
  | choosing
  | chosen
  deriving DecidableEq, Repr

/-- `_ _ _ _` with its terminator. -/
def textboxDisplayPin : List UInt8 := [95, 32, 95, 32, 95, 32, 95, 0]

/-- The distance to the terminator; a buffer without one is read past its end. -/
def stringLength : List UInt8 → Except Fault ℕ
  | [] => .error .strayAccess
  | b :: bs => if b = 0 then .ok 0 else (· + 1) <$> stringLength bs

/-- The characters before the terminator. -/
def text (buffer : List UInt8) : List UInt8 := buffer.takeWhile (· ≠ 0)

def store (buffer : List UInt8) (i : ℤ) (b : UInt8) : Except Fault (List UInt8) :=
  if 0 ≤ i ∧ i < buffer.length then .ok (buffer.set i.toNat b) else .error .strayAccess

/-- `strcpy` of a string with its terminator. -/
def strcpy (buffer string : List UInt8) : Except Fault (List UInt8) :=
  if string.length ≤ buffer.length then .ok (string ++ buffer.drop string.length)
  else .error .strayAccess

def waitEnter : Option KeyEvent → Bool
  | some e => e.pressed && e.key == 28
  | none => false

def digitOf (key : ℕ) : UInt8 :=
  let number := key - 1
  let number := if number = 10 then 0 else number
  .ofNat (48 + number)

/-- The branch of `wait_for_pin` for a digit. -/
def typeDigit (s : State) (key : ℕ) : Except Fault (PinResult × State) := do
  let c ← stringLength s.pin
  let pin ← store s.pin c (digitOf key)
  let pin ← store pin (c + 1) 0
  let displayPin ← store s.displayPin (c * 2) 42
  let s := { s with pin, displayPin }
  if c = 3 then
    if s.isPinSet then .ok (.complete, s) else .ok (.chosen, { s with pinExpected := text pin })
  else .ok (if s.isPinSet then .waiting else .choosing, s)

/-- The branch of `wait_for_pin` for the key 14. -/
def eraseDigit (s : State) : Except Fault (PinResult × State) := do
  let c ← stringLength s.pin
  let pin ← store s.pin ((c : ℤ) - 1) 0
  let displayPin ← store s.displayPin (((c : ℤ) - 1) * 2) 95
  .ok (if s.isPinSet then .waiting else .choosing, { s with pin, displayPin })

def waitForPin (s : State) : Option KeyEvent → Except Fault (PinResult × State)
  | none => .ok (if s.isPinSet then .waiting else .choosing, s)
  | some e =>
    if e.pressed ∧ e.key = 1 then .ok (.back, s)
    else if e.pressed ∧ 1 ≤ e.key ∧ e.key ≤ 11 then typeDigit s e.key
    else if e.pressed ∧ e.key = 14 then eraseDigit s
    else .ok (if s.isPinSet then .waiting else .choosing, s)

def checkPin (s : State) : Bool := text s.pin = s.pinExpected

/-- What the PIN loop of `main` does with the result. -/
def handlePin (r : PinResult) (s : State) : Except Fault State :=
  match r with
  | .complete =>
    if checkPin s then .ok { s with screen := .unlocked }
    else do
      let pin ← store s.pin 0 0
      let displayPin ← strcpy s.displayPin textboxDisplayPin
      .ok { s with pin, displayPin }
  | .back => .ok { s with screen := .login }
  | .waiting => .ok s
  | .choosing => .ok s
  | .chosen => .ok { s with screen := .unlocked }

/-- One turn of the two loops of `main`. -/
def turn (s : State) (event : Option KeyEvent) : Except Fault State :=
  match s.screen with
  | .login => .ok (if waitEnter event then { s with screen := .pin } else s)
  | .pin => do
    let (r, s) ← waitForPin s event
    handlePin r s
  | .unlocked => .ok s

/-- The start of `main`: the last four bytes of `pin` are what the stack holds. -/
def start (pinExpected stale : List UInt8) : State where
  pin := 0 :: stale
  displayPin := textboxDisplayPin
  pinExpected := pinExpected
  isPinSet := pinExpected.length = 4
  screen := .login

def Step (s : State) (event : Option KeyEvent) (t : State) : Prop :=
  s.screen ≠ .unlocked ∧ turn s event = .ok t

/-- Whether the PIN is asked for, and the digits of the current attempt. -/
structure Typed where
  onPin : Bool
  digits : List UInt8
  deriving DecidableEq, Repr

/-- The digits that count for the next key: a complete attempt that has not ended the program was
rejected. -/
def Typed.current (t : Typed) : List UInt8 := if t.digits.length = 4 then [] else t.digits

def typeKey (t : Typed) : Option KeyEvent → Typed
  | none => { t with digits := t.current }
  | some e =>
    if !e.pressed then { t with digits := t.current }
    else if !t.onPin then { onPin := e.key == 28, digits := t.current }
    else if e.key = 1 then { onPin := false, digits := t.current }
    else if 2 ≤ e.key ∧ e.key ≤ 11 then { t with digits := t.current ++ [digitOf e.key] }
    else if e.key = 14 then { t with digits := t.current.dropLast }
    else { t with digits := t.current }

/-- The attempt after a history of events, oldest first. -/
def typed (events : List (Option KeyEvent)) : Typed := events.foldl typeKey ⟨false, []⟩

/-- Backspace is pressed in the PIN loop with nothing typed. -/
def ErasesNothing (t : Typed) (event : Option KeyEvent) : Prop :=
  t.onPin = true ∧ event = some ⟨true, 14⟩ ∧ t.current = []

variable {d rest buffer : List UInt8}

theorem stringLength_append (hd : ∀ b ∈ d, b ≠ 0) : stringLength (d ++ 0 :: rest) = .ok d.length := by
  induction d with
  | nil => rfl
  | cons b d ih =>
    have hb : b ≠ 0 := hd b mem_cons_self
    rw [cons_append, stringLength, if_neg hb, ih fun c hc => hd c (mem_cons_of_mem _ hc)]
    rfl

theorem text_append (hd : ∀ b ∈ d, b ≠ 0) : text (d ++ 0 :: rest) = d := by
  rw [text, takeWhile_append_of_pos (by simpa using hd)]
  simp

theorem store_natCast {i : ℕ} (b : UInt8) (h : i < buffer.length) :
    store buffer (i : ℤ) b = .ok (buffer.set i b) := by
  rw [store, if_pos (by omega), Int.toNat_natCast]

theorem digitOf_ne_zero {key : ℕ} (h : 2 ≤ key) (h' : key ≤ 11) : digitOf key ≠ 0 := by
  interval_cases key <;> decide

/-- The digits stand before the terminator of `pin`. -/
structure Holds (expected : List UInt8) (s : State) (d : List UInt8) : Prop where
  pin : ∃ rest, s.pin = d ++ 0 :: rest
  nonzero : ∀ b ∈ d, b ≠ 0
  pin_length : s.pin.length = 5
  display_length : s.displayPin.length = 8
  isPinSet : s.isPinSet = true
  expected : s.pinExpected = expected

/-- The running program agrees with the history. -/
structure Agrees (expected : List UInt8) (s : State) (t : Typed) : Prop where
  holds : Holds expected s t.current
  short : t.digits.length ≤ 4
  screen : s.screen = if t.onPin then .pin else .login

variable {expected : List UInt8} {s : State} {t : Typed} {key : ℕ}

theorem Typed.current_length (ht : t.digits.length ≤ 4) : t.current.length < 4 := by
  unfold Typed.current
  split_ifs
  · decide
  · omega

theorem Agrees.mk_of_lt {onPin : Bool} (h : Holds expected s d) (hd : d.length < 4)
    (hscreen : s.screen = if onPin then .pin else .login) : Agrees expected s ⟨onPin, d⟩ where
  holds := by rwa [Typed.current, if_neg (by simp only; omega)]
  short := hd.le
  screen := hscreen

theorem typeDigit_eq (h : Holds expected s d) (hd : d.length < 4) (hkey : digitOf key ≠ 0) :
    ∃ s', typeDigit s key = .ok (if d.length = 3 then .complete else .waiting, s') ∧
      Holds expected s' (d ++ [digitOf key]) ∧ s'.screen = s.screen := by
  obtain ⟨rest, hpin⟩ := h.pin
  have hlen := h.pin_length
  have hdisplay := h.display_length
  obtain ⟨r, rest, rfl⟩ : ∃ r rest', rest = r :: rest' := by
    apply exists_cons_of_length_pos
    rw [hpin, length_append, length_cons] at hlen
    omega
  have hset : (s.pin.set d.length (digitOf key)).set (d.length + 1) 0 =
      d ++ [digitOf key] ++ 0 :: rest := by
    rw [hpin]
    simp [set_append_right]
  refine ⟨{ s with
    pin := d ++ [digitOf key] ++ 0 :: rest
    displayPin := s.displayPin.set (d.length * 2) 42 }, ?_, ⟨⟨rest, rfl⟩, ?_, ?_, ?_, h.isPinSet, h.expected⟩, rfl⟩
  · have hcell : (d.length : ℤ) * 2 = ((d.length * 2 : ℕ) : ℤ) := by omega
    rw [typeDigit, hpin, stringLength_append h.nonzero, ← hpin]
    simp only [ok_bind]
    rw [store_natCast _ (by omega), ok_bind, ← Int.natCast_succ,
      store_natCast _ (by rw [length_set]; omega), ok_bind, hset, hcell,
      store_natCast _ (by omega), ok_bind]
    simp only [h.isPinSet, if_true]
    split_ifs <;> rfl
  · intro b hb
    rcases mem_append.mp hb with hb | hb
    · exact h.nonzero b hb
    · rwa [mem_singleton.mp hb]
  · rw [← hset, length_set, length_set, hlen]
  · rw [length_set, hdisplay]

theorem eraseDigit_eq {x : UInt8} (h : Holds expected s (d ++ [x])) (hd : d.length < 4) :
    ∃ s', eraseDigit s = .ok (.waiting, s') ∧ Holds expected s' d ∧ s'.screen = s.screen := by
  obtain ⟨rest, hpin⟩ := h.pin
  have hlen := h.pin_length
  have hdisplay := h.display_length
  have hset : s.pin.set d.length 0 = d ++ 0 :: 0 :: rest := by
    rw [hpin]
    simp [set_append_right]
  refine ⟨{ s with pin := d ++ 0 :: 0 :: rest, displayPin := s.displayPin.set (d.length * 2) 95 }, ?_,
    ⟨⟨0 :: rest, rfl⟩, ?_, ?_, ?_, h.isPinSet, h.expected⟩, rfl⟩
  · have hprev : ((d ++ [x]).length : ℤ) - 1 = (d.length : ℤ) := by
      rw [length_append]
      simp
    have hcell : (d.length : ℤ) * 2 = ((d.length * 2 : ℕ) : ℤ) := by omega
    rw [eraseDigit, hpin, stringLength_append h.nonzero, ← hpin, ok_bind, hprev,
      store_natCast _ (by omega), ok_bind, hset, hcell, store_natCast _ (by omega), ok_bind, h.isPinSet]
    rfl
  · intro b hb
    exact h.nonzero b (mem_append_left _ hb)
  · rw [← hset, length_set, hlen]
  · rw [length_set, hdisplay]

theorem eraseDigit_nil (h : Holds expected s []) : eraseDigit s = .error .strayAccess := by
  obtain ⟨rest, hpin⟩ := h.pin
  rw [eraseDigit, hpin]
  rfl

theorem handlePin_complete (h : Holds expected s d) (hd : d.length = 4) :
    ∃ s', handlePin .complete s = .ok s' ∧
      (s'.screen = .unlocked ∧ d = expected ∨ Holds expected s' [] ∧ s'.screen = s.screen) := by
  obtain ⟨rest, hpin⟩ := h.pin
  have hcheck : checkPin s = true ↔ d = expected := by
    rw [checkPin, hpin, text_append h.nonzero, h.expected]
    exact decide_eq_true_iff
  by_cases hc : d = expected
  · exact ⟨{ s with screen := .unlocked }, by rw [handlePin, if_pos (hcheck.mpr hc)], .inl ⟨rfl, hc⟩⟩
  · have hlen := h.pin_length
    have hdisplay := h.display_length
    obtain ⟨b, d, rfl⟩ : ∃ b d', d = b :: d' := exists_cons_of_length_eq_add_one hd
    have hset : s.pin.set 0 0 = 0 :: (d ++ 0 :: rest) := by
      rw [hpin]
      rfl
    have hfirst : store s.pin 0 0 = .ok (s.pin.set 0 0) := store_natCast (i := 0) 0 (by omega)
    have hcopy : strcpy s.displayPin textboxDisplayPin = .ok textboxDisplayPin := by
      rw [strcpy, if_pos (by rw [hdisplay]; decide), drop_eq_nil_of_le (by rw [hdisplay]; decide),
        append_nil]
    refine ⟨{ s with pin := 0 :: (d ++ 0 :: rest), displayPin := textboxDisplayPin }, ?_,
      .inr ⟨⟨⟨d ++ 0 :: rest, rfl⟩, nofun, ?_, rfl, h.isPinSet, h.expected⟩, rfl⟩⟩
    · rw [handlePin, if_neg (hcheck.not.mpr hc), hfirst, ok_bind, hset, hcopy]
      rfl
    · rw [← hset, length_set, hlen]

/-- What a turn leaves: the end of the program with the expected digits, or agreement. -/
def Continues (expected : List UInt8) (s : State) (t : Typed) : Prop :=
  s.screen = .unlocked ∧ t.digits = expected ∨ Agrees expected s t

section
variable (h : Agrees expected s t)
include h

theorem Agrees.keep {onPin : Bool} {screen : Screen}
    (hscreen : screen = if onPin then .pin else .login) :
    Agrees expected { s with screen } ⟨onPin, t.current⟩ := by
  obtain ⟨hpin, hnz, hlen, hdisplay, hset, hexpected⟩ := h.holds
  exact .mk_of_lt ⟨hpin, hnz, hlen, hdisplay, hset, hexpected⟩ (Typed.current_length h.short) hscreen

theorem turn_login (honPin : t.onPin = false) (event : Option KeyEvent) :
    ∃ s', turn s event = .ok s' ∧ Continues expected s' (typeKey t event) := by
  have hscreen : s.screen = .login := by rw [h.screen, honPin]; rfl
  have htyped : typeKey t event = ⟨waitEnter event, t.current⟩ := by
    cases event with
    | none => simp [typeKey, waitEnter, honPin]
    | some e => cases hp : e.pressed <;> simp [typeKey, waitEnter, honPin, hp]
  unfold turn
  rw [hscreen, htyped]
  cases waitEnter event with
  | false => exact ⟨_, rfl, .inr (h.keep hscreen)⟩
  | true => exact ⟨_, rfl, .inr (h.keep rfl)⟩

theorem turn_digit (honPin : t.onPin = true) (hkey : 2 ≤ key ∧ key ≤ 11) :
    ∃ s', turn s (some ⟨true, key⟩) = .ok s' ∧ Continues expected s' (typeKey t (some ⟨true, key⟩)) := by
  have hscreen : s.screen = .pin := by rw [h.screen, honPin]; rfl
  have hc := Typed.current_length h.short
  have hlength : (t.current ++ [digitOf key]).length = t.current.length + 1 := by simp
  have htyped : typeKey t (some ⟨true, key⟩) = ⟨true, t.current ++ [digitOf key]⟩ := by
    have hne : key ≠ 1 := by omega
    simp [typeKey, honPin, hkey, hne]
  have hwait : waitForPin s (some ⟨true, key⟩) = typeDigit s key := by
    rw [waitForPin, if_neg (by simp only; omega), if_pos ⟨rfl, by simp only; omega⟩]
  obtain ⟨s1, hs1, hholds, hscreen1⟩ := typeDigit_eq h.holds hc (digitOf_ne_zero hkey.1 hkey.2)
  unfold turn
  rw [hscreen, htyped]
  simp only [hwait, hs1, ok_bind]
  split_ifs with hthree
  · -- the fourth digit
    obtain ⟨s', hs', ⟨hdone, heq⟩ | ⟨hempty, hsame⟩⟩ := handlePin_complete hholds (by omega)
    · exact ⟨s', hs', .inl ⟨hdone, heq⟩⟩
    · refine ⟨s', hs', .inr ⟨?_, ?_, hsame.trans (hscreen1.trans hscreen)⟩⟩
      · rwa [Typed.current, if_pos (by simp only; omega)]
      · simp only
        omega
  · exact ⟨s1, rfl, .inr (.mk_of_lt hholds (by omega) (hscreen1.trans hscreen))⟩

theorem turn_erase (honPin : t.onPin = true) (hne : t.current ≠ []) :
    ∃ s', turn s (some ⟨true, 14⟩) = .ok s' ∧ Continues expected s' (typeKey t (some ⟨true, 14⟩)) := by
  have hscreen : s.screen = .pin := by rw [h.screen, honPin]; rfl
  have hc := Typed.current_length h.short
  have hsplit := dropLast_concat_getLast hne
  have htyped : typeKey t (some ⟨true, 14⟩) = ⟨true, t.current.dropLast⟩ := by
    simp [typeKey, honPin]
  have hlt : t.current.dropLast.length < 4 := by
    rw [length_dropLast]
    omega
  obtain ⟨s', hs', hholds, hscreen'⟩ := eraseDigit_eq (hsplit.symm ▸ h.holds) hlt
  unfold turn
  rw [hscreen, htyped]
  have hwait : waitForPin s (some ⟨true, 14⟩) = eraseDigit s := rfl
  simp only [hwait, hs', ok_bind]
  exact ⟨s', rfl, .inr (.mk_of_lt hholds hlt (hscreen'.trans hscreen))⟩

end

/-- The events of the PIN loop that neither type nor erase nor leave. -/
def Idle : Option KeyEvent → Prop
  | none => True
  | some e => e.pressed = true → e.key ≠ 1 ∧ ¬ (2 ≤ e.key ∧ e.key ≤ 11) ∧ e.key ≠ 14

theorem turn_idle (h : Agrees expected s t) (honPin : t.onPin = true) {event : Option KeyEvent}
    (hidle : Idle event) :
    ∃ s', turn s event = .ok s' ∧ Continues expected s' (typeKey t event) := by
  have hscreen : s.screen = .pin := by rw [h.screen, honPin]; rfl
  have hwait : waitForPin s event = .ok (.waiting, s) := by
    cases event with
    | none => rw [waitForPin, h.holds.isPinSet]; rfl
    | some e =>
      simp only [Idle] at hidle
      rw [waitForPin, if_neg (by grind), if_neg (by grind), if_neg (by grind), h.holds.isPinSet]
      rfl
  have htyped : typeKey t event = ⟨true, t.current⟩ := by
    cases event with
    | none => simp [typeKey, honPin]
    | some e =>
      cases hp : e.pressed with
      | false => simp [typeKey, hp, honPin]
      | true =>
        obtain ⟨h1, h2, h3⟩ := hidle hp
        simp [typeKey, hp, honPin, h1, h2, h3]
  unfold turn
  rw [hscreen, htyped]
  simp only [hwait, ok_bind]
  exact ⟨s, rfl, .inr (h.keep hscreen)⟩

theorem turn_continues (h : Agrees expected s t) {event : Option KeyEvent}
    (hok : ¬ ErasesNothing t event) :
    ∃ s', turn s event = .ok s' ∧ Continues expected s' (typeKey t event) := by
  cases honPin : t.onPin with
  | false => exact turn_login h honPin event
  | true =>
    by_cases hidle : Idle event
    · exact turn_idle h honPin hidle
    · obtain _ | ⟨_ | _, key⟩ := event
      · exact absurd trivial hidle
      · exact absurd nofun hidle
      · by_cases hesc : key = 1
        · subst hesc
          have hscreen : s.screen = .pin := by rw [h.screen, honPin]; rfl
          have htyped : typeKey t (some ⟨true, 1⟩) = ⟨false, t.current⟩ := by simp [typeKey, honPin]
          rw [turn, hscreen, htyped]
          exact ⟨_, rfl, .inr (h.keep rfl)⟩
        by_cases hdigit : 2 ≤ key ∧ key ≤ 11
        · exact turn_digit h honPin hdigit
        by_cases hback : key = 14
        · subst hback
          exact turn_erase h honPin fun hnil => hok ⟨honPin, rfl, hnil⟩
        · exact absurd (fun _ => ⟨hesc, hdigit, hback⟩) hidle

theorem turn_erasesNothing (h : Agrees expected s t) {event : Option KeyEvent}
    (hbad : ErasesNothing t event) : turn s event = .error .strayAccess := by
  obtain ⟨honPin, rfl, hnil⟩ := hbad
  have hscreen : s.screen = .pin := by rw [h.screen, honPin]; rfl
  have hwait : waitForPin s (some ⟨true, 14⟩) = eraseDigit s := rfl
  rw [turn, hscreen]
  simp only [hwait, eraseDigit_nil (hnil ▸ h.holds)]
  rfl

theorem run_continues {stale : List UInt8} {events : List (Option KeyEvent)}
    (hexpected : expected.length = 4) (hstale : stale.length = 4)
    (hrun : Run Step (start expected stale) events s) : Continues expected s (typed events) := by
  induction hrun with
  | nil =>
    exact .inr ⟨⟨⟨stale, rfl⟩, nofun, by simp [start, hstale], rfl, by simp [start, hexpected], rfl⟩,
      Nat.zero_le _, rfl⟩
  | @snoc events event s1 s2 _ hstep ih =>
    obtain ⟨hrunning, hturn⟩ := hstep
    obtain ⟨hdone, -⟩ | h := ih
    · exact absurd hdone hrunning
    have hok : ¬ ErasesNothing (typed events) event := by
      intro hbad
      rw [turn_erasesNothing h hbad] at hturn
      cases hturn
    obtain ⟨s', hs', hc⟩ := turn_continues h hok
    obtain rfl := Except.ok.inj (hs'.symm.trans hturn)
    rw [typed, foldl_append]
    exact hc

/-- The program ends with success only when the digits of the current attempt are the expected
PIN, and the next turn writes inside its buffers unless it erases a digit that was not typed. -/
theorem lock_iff (expected stale : List UInt8) (events : List (Option KeyEvent)) (s : State)
    (hexpected : expected.length = 4) (hstale : stale.length = 4)
    (hrun : Run Step (start expected stale) events s) :
    (s.screen = .unlocked → (typed events).digits = expected) ∧ (s.screen ≠ .unlocked → ∀ event,
        (∃ s', turn s event = .ok s') ↔ ¬ ErasesNothing (typed events) event) := by
  obtain ⟨hdone, heq⟩ | h := run_continues hexpected hstale hrun
  · exact ⟨fun _ => heq, fun hrunning => absurd hdone hrunning⟩
  · constructor
    · intro hdone
      rw [h.screen] at hdone
      split_ifs at hdone
    · intro _ event
      constructor
      · rintro ⟨s', hs'⟩ hbad
        rw [turn_erasesNothing h hbad] at hs'
        cases hs'
      · intro hok
        obtain ⟨s', hs', -⟩ := turn_continues h hok
        exact ⟨s', hs'⟩

def erasedDigit : List (Option KeyEvent) :=
  [some ⟨true, 28⟩, some ⟨true, 2⟩, some ⟨true, 10⟩, some ⟨true, 14⟩, some ⟨true, 3⟩, some ⟨true, 4⟩,
    some ⟨true, 5⟩]

theorem lock_iff_erasedDigit :
    ∃ s, Run Step (start [49, 50, 51, 52] [7, 7, 7, 7]) erasedDigit s ∧ s.screen = .unlocked ∧
      (typed erasedDigit).digits = [49, 50, 51, 52] := by
  have hrun : ∃ s, Run Step (start [49, 50, 51, 52] [7, 7, 7, 7]) erasedDigit s ∧ s.screen = .unlocked :=
    Kot.Lib.exists_run_of_check (fun s _ _ => s.screen ≠ .unlocked)
      (fun _ _ _ ht hs => ⟨hs, ht⟩) (by decide +kernel)
  obtain ⟨s, hrun, hdone⟩ := hrun
  exact ⟨s, hrun, hdone, (lock_iff _ _ _ s (by decide) (by decide) hrun).1 hdone⟩

/-- Enter and backspace: the terminator is written in front of `pin`. -/
theorem backspace_before_pin :
    [some ⟨true, 28⟩, some ⟨true, 14⟩].foldlM turn (start [49, 50, 51, 52] [7, 7, 7, 7]) =
      .error .strayAccess := rfl

end Kot.Apps.Lock
