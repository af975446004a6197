import Mathlib.Algebra.Group.Int.Defs
import Mathlib.Logic.Function.Iterate
import Kot.Kernel.Machine
import Kot.Lib.Exact

/-! The terminal of the module `devconsole`: the cursor, the parser of escape sequences and every
access to the two pixel buffers. The colours are left out. -/
namespace Kot.Devconsole

open Kot.Kernel (Fault wsub)
open Kot.Lib (iterateStep)

/-- A 32 bit framebuffer of at least two cells in each direction. -/
structure Framebuffer where
  width : ℕ
  height : ℕ
  pitch : ℕ
  width_ge : 16 ≤ width
  width_lt : width < 2 ^ 16
  height_ge : 32 ≤ height
  height_lt : height < 2 ^ 16
  pitch_ge : 4 * width ≤ pitch

namespace Framebuffer

/-- `fb_size`. -/
def size (fb : Framebuffer) : ℕ := fb.pitch * fb.height

/-- The variable `fb_pitch` has 16 bits. -/
def fbPitch (fb : Framebuffer) : ℕ := fb.pitch % 2 ^ 16

def lineSize (fb : Framebuffer) : ℕ := fb.fbPitch * 16

/-- `cx_max_index`. -/
def cxMax (fb : Framebuffer) : ℕ := fb.width / 8 - 1

def rows (fb : Framebuffer) : ℕ := fb.height / 16

end Framebuffer

inductive ParseState
  | normal
  | escape
  | control
  | osCommand
  | characterSet
  | graphics
  deriving DecidableEq, Repr

/-- The variables of `console.c`. `printFrom` is the local variable of `devconsole_print`. -/
structure Console where
  cx : ℕ
  cy : ℕ
  lastCx : ℕ
  lastCy : ℕ
  cyMin : ℕ
  cyMax : ℕ
  parse : ParseState
  escape : List UInt8
  isCursor : Bool
  refresh : Bool
  ctrl : Bool
  printFrom : ℕ
  deriving DecidableEq, Repr

def int32 (v : ℤ) : ℤ := v.bmod (2 ^ 32)

/-- The conversion of an `int` to `uint16_t`. -/
def uint16 (v : ℤ) : ℕ := (v % 2 ^ 16).toNat

/-- `devconsole_putpixel`. The index is computed as an `int`. -/
def putpixel (fb : Framebuffer) (x y : ℕ) : Except Fault Unit :=
  if x % 2 ^ 16 < fb.width ∧ y % 2 ^ 16 < fb.height then
    if (y % 2 ^ 16) * fb.width + x % 2 ^ 16 < 2 ^ 31 then .ok ()
    else .error .strayAccess
  else .error .panic

def times (n : ℕ) (f : ℕ → Except Fault Unit) : Except Fault Unit :=
  match n with
  | 0 => .ok ()
  | n + 1 => do
    times n f
    f n

/-- The pixels of `devconsole_setchar` and `devconsole_clearchar`. -/
def drawCell (fb : Framebuffer) (x y : ℕ) : Except Fault Unit :=
  times 16 fun j => times 8 fun i => putpixel fb (x + i) (y + j)

def setchar (fb : Framebuffer) (x y : ℕ) : Except Fault Unit := drawCell fb x y

def clearchar (fb : Framebuffer) (x y : ℕ) : Except Fault Unit := drawCell fb x y

/-- `memset32` on one of the buffers. -/
def memset32 (fb : Framebuffer) (offset : ℤ) (count : ℕ) : Except Fault Unit :=
  if count = 0 ∨ (0 ≤ offset ∧ offset + 4 * count ≤ fb.size) then .ok () else .error .strayAccess

/-- The `memcpy` that moves `count` bytes from `offset` to the start of the buffer. -/
def moveUp (fb : Framebuffer) (offset count : ℕ) : Except Fault Unit :=
  if count = 0 ∨ offset + count ≤ fb.size then .ok () else .error .strayAccess

def newLine (fb : Framebuffer) (s : Console) : Except Fault Console :=
  if s.cy < s.cyMax then do
    times (fb.cxMax + 1 - s.cx) fun i => clearchar fb ((s.cx + i) * 8) (s.cy * 16)
    .ok { s with cy := s.cy + 1, cx := 0 }
  else do
    moveUp fb fb.lineSize (fb.lineSize * s.cyMax)
    memset32 fb (fb.lineSize * s.cyMax : ℕ) (fb.width * 16)
    .ok { s with lastCy := (s.lastCy + (2 ^ 16 - 1)) % 2 ^ 16, cx := 0 }

/-- The pixels of `cursor_draw` and `cursor_remove_last`. -/
def cursorBar (fb : Framebuffer) (cx cy : ℕ) : Except Fault Unit :=
  times 16 fun i => putpixel fb (cx * 8) (cy * 16 + i)

def cursorUpdate (fb : Framebuffer) (s : Console) : Except Fault Console := do
  cursorBar fb s.lastCx s.lastCy
  cursorBar fb s.cx s.cy
  .ok { s with lastCx := s.cx, lastCy := s.cy }

/-- The first lines of `devconsole_putchar`: at the end of a line it goes to the next. -/
def wrap (fb : Framebuffer) (s : Console) : Except Fault Console :=
  if fb.width ≤ s.cx * 8 % 2 ^ 16 + 8 then newLine fb s else .ok s

def putchar (fb : Framebuffer) (c : UInt8) (s : Console) : Except Fault Console := do
  let s ← wrap fb s
  if c = 10 then newLine fb s
  else if c = 13 then .ok { s with cx := 0 }
  else if c = 9 then .ok { s with cx := (s.cx - s.cx % 8 + 8) % 2 ^ 16 }
  else do
    setchar fb (s.cx * 8) (s.cy * 16)
    .ok { s with cx := (s.cx + 1) % 2 ^ 16 }

/-- `devconsole_delchar`. At the start of a line the inner condition is never true. -/
def delchar (fb : Framebuffer) (s : Console) : Except Fault Console := do
  let s := { s with cx := s.cx - 1 }
  clearchar fb (s.cx * 8) (s.cy * 16)
  cursorUpdate fb s

def isPrintable (c : UInt16) : Bool := (0x21 ≤ c && c ≤ 0x7E) || c == 32 || c == 9

/-- `devconsole_aplha`. -/
def isAlpha (c : UInt8) : Bool := (65 ≤ c && c ≤ 90) || (97 ≤ c && c ≤ 122)

def escapeBufferMaxSize : ℕ := 128

/-- `dev_console_appendescapebuffer`. -/
def appendEscape (s : Console) (c : UInt8) : Console :=
  if s.escape.length + 1 < escapeBufferMaxSize then { s with escape := s.escape ++ [c] } else s

def cString (l : List UInt8) : List UInt8 := l.takeWhile (· ≠ 0)

/-- The digits of `atoi`, which stops at the bounds of `int`. -/
def atoiDigits (negative : Bool) (base : ℕ) : List UInt8 → ℤ
  | [] => if negative then -base else base
  | c :: cs =>
    if 48 ≤ c ∧ c ≤ 57 then
      if 214748364 < base ∨ (base = 214748364 ∧ 55 < c) then
        if negative then -2 ^ 31 else 2 ^ 31 - 1
      else atoiDigits negative (10 * base + (c.toNat - 48)) cs
    else if negative then -base else base

def atoi (str : List UInt8) : ℤ :=
  match str.dropWhile (· = 32) with
  | 45 :: cs => atoiDigits true 0 cs
  | 43 :: cs => atoiDigits false 0 cs
  | cs => atoiDigits false 0 cs

/-- The numbers on both sides of the separator. The code overwrites the separator; the buffer is not
read again before it is cleared. -/
def arguments (l : List UInt8) : Option (ℤ × ℤ) :=
  let data := cString l
  if 59 ∈ data then
    some (atoi (data.takeWhile (· ≠ 59)), atoi ((data.dropWhile (· ≠ 59)).drop 1))
  else none

/-- The number of a sequence that counts. -/
def amount (l : List UInt8) : ℤ := if cString l = [] then 1 else atoi (cString l)

def cursorPosition (fb : Framebuffer) (s : Console) : Console :=
  match arguments s.escape with
  | none => { s with cx := 0, cy := 0 }
  | some (row, column) =>
    { s with
      cy := uint16 (min (max (int32 (row - 1)) s.cyMin) s.cyMax)
      cx := uint16 (min (max (int32 (column - 1)) 0) fb.cxMax) }

def cursorDown (s : Console) : Console :=
  { s with cy := uint16 (min (int32 (s.cy + amount s.escape)) s.cyMax) }

def cursorForward (fb : Framebuffer) (s : Console) : Console :=
  { s with cx := uint16 (min (int32 (s.cx + amount s.escape)) fb.cxMax) }

/-- The first mode of `dev_console_clear`. Of the products only the one with the pitch can leave the
range of `int`. -/
def clearBelow (fb : Framebuffer) (s : Console) : Except Fault Unit := do
  memset32 fb (s.cx * 16 * 16 * 4 : ℕ) (8 * wsub fb.cxMax s.cx * 16 % 2 ^ 64)
  if s.cy < s.cyMax then
    memset32 fb (int32 ((s.cy + 1) * 16 * fb.fbPitch : ℕ)) (fb.width * 16 * (s.cyMax - (s.cy + 1)))
  else .ok ()

def clearMode (fb : Framebuffer) (mode : ℤ) (s : Console) : Except Fault Unit :=
  if mode = 0 then clearBelow fb s
  else if mode = 1 ∨ mode = 2 then memset32 fb 0 (fb.width * 16 * s.cyMax)
  else .ok ()

def clear (fb : Framebuffer) (s : Console) : Except Fault Console := do
  clearMode fb (atoi (cString s.escape)) s
  .ok { s with refresh := true }

def eraseInLine (fb : Framebuffer) (s : Console) : Except Fault Console := do
  times 16 fun i =>
    memset32 fb (int32 ((s.cy * 16 + i) * fb.fbPitch : ℕ) + (s.cx * 4 * 8 * 16 : ℕ))
      (8 * wsub fb.cxMax s.cx % 2 ^ 64)
  .ok s

/-- `ANSI_SCREEN_MODE` and `ANSI_SCREEN_RESET`. -/
def screenMode (shown : Bool) (s : Console) : Console :=
  match cString s.escape with
  | 63 :: c :: cs => if atoi (c :: cs) = 25 then { s with isCursor := shown } else s
  | _ => s

def screenMargin (s : Console) : Console :=
  match arguments s.escape with
  | none => s
  | some (first, last) => { s with cyMin := uint16 (int32 (first - 1)), cyMax := uint16 (int32 (last - 1)) }

def toNormal (s : Console) : Console := { s with parse := .normal }

/-- The letter that ends a control sequence. Other letters, the answer to `ANSI_REQUEST_CURSOR_1`
included, do nothing to the display. -/
def controlLetter (fb : Framebuffer) (c : UInt8) (s : Console) : Except Fault Console :=
  if c = 109 then .ok { s with parse := .graphics }
  else if c = 72 then cursorUpdate fb (cursorPosition fb (toNormal s))
  else if c = 84 then iterateStep (newLine fb) (amount s.escape).toNat (toNormal s) >>= cursorUpdate fb
  else if c = 66 then cursorUpdate fb (cursorDown (toNormal s))
  else if c = 67 then cursorUpdate fb (cursorForward fb (toNormal s))
  else if c = 74 then clear fb (toNormal s) >>= cursorUpdate fb
  else if c = 75 then eraseInLine fb (toNormal s)
  else if c = 104 then .ok (screenMode false (toNormal s))
  else if c = 108 then .ok (screenMode true (toNormal s))
  else if c = 114 then .ok (screenMargin (toNormal s))
  else .ok (toNormal s)

def controlChar (fb : Framebuffer) (c : UInt8) (s : Console) : Except Fault Console :=
  if isAlpha c then controlLetter fb c s else .ok (appendEscape s c)

def normalChar (fb : Framebuffer) (c : UInt8) (s : Console) : Except Fault Console :=
  if isPrintable c.toUInt16 then putchar fb c s
  else if c = 10 then putchar fb 10 s >>= putchar fb 13
  else if c = 27 then .ok { s with escape := [], parse := .escape }
  else if c = 8 then delchar fb s
  else .ok s

def escapeChar (c : UInt8) (s : Console) : Console :=
  { s with parse :=
      if c = 91 then .control
      else if c = 40 then .characterSet
      else if c = 93 then .osCommand
      else .normal }

/-- The first part of `devconsole_parsechar`. -/
def parseIn (fb : Framebuffer) (c : UInt8) (s : Console) : Except Fault Console :=
  match s.parse with
  | .normal => normalChar fb c s
  | .escape => .ok (escapeChar c s)
  | .control => controlChar fb c s
  | .characterSet => .ok (toNormal s)
  | .osCommand => .ok (if c = 7 then toNormal s else s)
  | .graphics => .ok s

/-- The end of `devconsole_parsechar`, where the colours are set. -/
def setGraphics (s : Console) : Console := if s.parse = .graphics then toNormal s else s

/-- `devconsole_parsechar`. The negative values of `char` are neither printable nor letters. -/
def parsechar (fb : Framebuffer) (c : UInt8) (s : Console) : Except Fault Console := do
  let s ← parseIn fb c s
  .ok (setGraphics s)

def printStart (s : Console) : Console := { s with printFrom := s.cy }

/-- The end of `devconsole_print`. -/
def printEnd (fb : Framebuffer) (s : Console) : Except Fault Console :=
  cursorUpdate fb (if s.printFrom ≠ s.cy then { s with refresh := false } else s)

def print (fb : Framebuffer) (str : List UInt8) (s : Console) : Except Fault Console := do
  let s ← str.foldlM (fun s c => parsechar fb c s) (printStart s)
  printEnd fb s

def echo (fb : Framebuffer) (key : UInt16) (s : Console) : Except Fault Console :=
  if isPrintable key then
    if s.ctrl then .ok s
    else if s.isCursor then putchar fb key.toUInt8 s else .ok s
  else if key = 10 then
    if s.isCursor then putchar fb 10 s else .ok s
  else if key = 8 then
    if s.isCursor then delchar fb s else .ok s
  else .ok s

def keyHandler (fb : Framebuffer) (key : UInt16) (pressed : Bool) (s : Console) : Except Fault Console :=
  if key = 0x12 then .ok { s with ctrl := pressed }
  else if pressed then echo fb key s >>= cursorUpdate fb
  else .ok s

/-- A write is its start, its bytes and its end; keys come at any time. -/
inductive Event
  | printStart
  | byte (c : UInt8)
  | printEnd
  | key (key : UInt16) (pressed : Bool)
  deriving DecidableEq, Repr

def handle (fb : Framebuffer) (s : Console) : Event → Except Fault Console
  | .printStart => .ok (printStart s)
  | .byte c => parsechar fb c s
  | .printEnd => printEnd fb s
  | .key key pressed => keyHandler fb key pressed s

def Step (fb : Framebuffer) (s : Console) (e : Event) (t : Console) : Prop := handle fb s e = .ok t

/-- The state after `devconsole_request_fb`. -/
def start (fb : Framebuffer) : Console where
  cx := 0
  cy := 0
  lastCx := 0
  lastCy := 0
  cyMin := 0
  cyMax := fb.height / 16 - 1
  parse := .normal
  escape := []
  isCursor := true
  refresh := false
  ctrl := false
  printFrom := 0

end Kot.Devconsole
