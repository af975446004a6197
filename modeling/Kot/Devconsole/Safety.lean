import Mathlib.Tactic.SplitIfs
import Kot.Devconsole.Console
import Kot.Lib.Run

/-! Which bytes and keys keep the terminal inside its framebuffer and the cursor on the grid. -/
namespace Kot.Devconsole

open Kot.Kernel (Fault wsub wsub_of_le bind_eq_ok ok_bind)
open Kot.Lib (Exact iterateStep Run Guarded)

/-- The cursor is on the grid and the index of the escape buffer below its capacity. -/
structure Safe (fb : Framebuffer) (s : Console) : Prop where
  column : s.cx ≤ fb.cxMax
  row : s.cy < fb.rows
  index : s.escape.length < escapeBufferMaxSize

/-- The index of the last pixel of a cell is an `int`. -/
def CellFits (fb : Framebuffer) (cx cy : ℕ) : Prop :=
  (16 * cy + 15) * fb.width + 8 * cx + 7 < 2 ^ 31

def BarFits (fb : Framebuffer) (cx cy : ℕ) : Prop :=
  8 * cx % 2 ^ 16 < fb.width ∧ 16 * cy % 2 ^ 16 + 15 < fb.height ∧
    (16 * cy % 2 ^ 16 + 15) * fb.width + 8 * cx % 2 ^ 16 < 2 ^ 31

/-- The old cursor, which a scroll moves up without a bound, and the new one. -/
def CursorFits (fb : Framebuffer) (s : Console) : Prop :=
  BarFits fb s.lastCx s.lastCy ∧ BarFits fb s.cx s.cy

/-- A new line below the cursor is on the grid, or the lines down to the margin can be moved up. -/
def NewLineFits (fb : Framebuffer) (s : Console) : Prop :=
  if s.cy < s.cyMax then CellFits fb fb.cxMax s.cy ∧ s.cy + 1 < fb.rows
  else (fb.lineSize * s.cyMax = 0 ∨ fb.lineSize + fb.lineSize * s.cyMax ≤ fb.size) ∧
    fb.lineSize * s.cyMax + 64 * fb.width ≤ fb.size

def lineBelow (s : Console) : Console :=
  if s.cy < s.cyMax then { s with cy := s.cy + 1, cx := 0 }
  else { s with lastCy := (s.lastCy + (2 ^ 16 - 1)) % 2 ^ 16, cx := 0 }

def wrapped (fb : Framebuffer) (s : Console) : Console :=
  if fb.width ≤ 8 * s.cx + 8 then lineBelow s else s

/-- Behind a tab or a character there is still a column. -/
def PutFits (fb : Framebuffer) (c : UInt8) (s : Console) : Prop :=
  (fb.width ≤ 8 * s.cx + 8 → NewLineFits fb s) ∧
    if c = 10 then NewLineFits fb (wrapped fb s)
    else if c = 13 then True
    else if c = 9 then (wrapped fb s).cx - (wrapped fb s).cx % 8 + 8 ≤ fb.cxMax
    else CellFits fb (wrapped fb s).cx (wrapped fb s).cy ∧ (wrapped fb s).cx + 1 ≤ fb.cxMax

def put (fb : Framebuffer) (c : UInt8) (s : Console) : Console :=
  if c = 10 then lineBelow (wrapped fb s)
  else if c = 13 then { wrapped fb s with cx := 0 }
  else if c = 9 then { wrapped fb s with cx := (wrapped fb s).cx - (wrapped fb s).cx % 8 + 8 }
  else { wrapped fb s with cx := (wrapped fb s).cx + 1 }

def drawn (s : Console) : Console := { s with lastCx := s.cx, lastCy := s.cy }

def deleted (s : Console) : Console := drawn { s with cx := s.cx - 1 }

def DelFits (fb : Framebuffer) (s : Console) : Prop :=
  CellFits fb (s.cx - 1) s.cy ∧ CursorFits fb { s with cx := s.cx - 1 }

/-- `dev_console_clear` stays in the buffer. -/
def ClearFits (fb : Framebuffer) (s : Console) : Prop :=
  if atoi (cString s.escape) = 0 then
    s.cy + 1 < s.cyMax → 0 ≤ int32 ((s.cy + 1) * 16 * fb.fbPitch : ℕ) ∧
      int32 ((s.cy + 1) * 16 * fb.fbPitch : ℕ) + 4 * (fb.width * 16 * (s.cyMax - (s.cy + 1)) : ℕ) ≤ fb.size
  else if atoi (cString s.escape) = 1 ∨ atoi (cString s.escape) = 2 then
    64 * fb.width * s.cyMax ≤ fb.size
  else True

/-- The erased part of every pixel row of the line is in the buffer. The code multiplies the column by
the height of a cell. -/
def EraseFits (fb : Framebuffer) (s : Console) : Prop :=
  s.cx < fb.cxMax → ∀ i < 16, 0 ≤ int32 ((s.cy * 16 + i) * fb.fbPitch : ℕ) + (512 * s.cx : ℕ) ∧
    int32 ((s.cy * 16 + i) * fb.fbPitch : ℕ) + (512 * s.cx : ℕ) + 32 * (fb.cxMax - s.cx : ℕ) ≤ fb.size

def ControlFits (fb : Framebuffer) (c : UInt8) (s : Console) : Prop :=
  if c = 72 then (cursorPosition fb s).cy < fb.rows ∧ CursorFits fb (cursorPosition fb s)
  else if c = 84 then
    (∀ i < (amount s.escape).toNat, NewLineFits fb (lineBelow^[i] s)) ∧
      CursorFits fb (lineBelow^[(amount s.escape).toNat] s)
  else if c = 66 then (cursorDown s).cy < fb.rows ∧ CursorFits fb (cursorDown s)
  else if c = 67 then (cursorForward fb s).cx ≤ fb.cxMax ∧ CursorFits fb (cursorForward fb s)
  else if c = 74 then ClearFits fb s ∧ CursorFits fb s
  else if c = 75 then EraseFits fb s
  else True

def NormalFits (fb : Framebuffer) (c : UInt8) (s : Console) : Prop :=
  if isPrintable c.toUInt16 then PutFits fb c s
  else if c = 10 then PutFits fb 10 s ∧ PutFits fb 13 (put fb 10 s)
  else if c = 27 then True
  else if c = 8 then DelFits fb s
  else True

/-- A byte of an escape sequence matters when it is the letter that ends it. -/
def ByteFits (fb : Framebuffer) (c : UInt8) (s : Console) : Prop :=
  match s.parse with
  | .normal => NormalFits fb c s
  | .control => isAlpha c = true → ControlFits fb c (toNormal s)
  | _ => True

def EchoFits (fb : Framebuffer) (key : UInt16) (s : Console) : Prop :=
  if isPrintable key then
    if s.ctrl then True
    else if s.isCursor then PutFits fb key.toUInt8 s else True
  else if key = 10 then
    if s.isCursor then PutFits fb 10 s else True
  else if key = 8 then
    if s.isCursor then DelFits fb s else True
  else True

def echoed (fb : Framebuffer) (key : UInt16) (s : Console) : Console :=
  if isPrintable key then
    if s.ctrl then s
    else if s.isCursor then put fb key.toUInt8 s else s
  else if key = 10 then
    if s.isCursor then put fb 10 s else s
  else if key = 8 then
    if s.isCursor then deleted s else s
  else s

/-- The events that keep the terminal safe. -/
def Meets (fb : Framebuffer) (s : Console) : Event → Prop
  | .printStart => True
  | .byte c => ByteFits fb c s
  | .printEnd => CursorFits fb s
  | .key key pressed => key ≠ 0x12 → pressed = true → EchoFits fb key s ∧ CursorFits fb (echoed fb key s)

theorem times_ok {n : ℕ} {f : ℕ → Except Fault Unit} :
    times n f = .ok () ↔ ∀ i < n, f i = .ok () := by
  induction n with
  | zero => simp [times]
  | succ n ih =>
    constructor
    · intro h i hi
      obtain ⟨u, hn, hf⟩ := bind_eq_ok h
      rcases Nat.lt_succ_iff_lt_or_eq.mp hi with hi | rfl
      · exact ih.mp hn i hi
      · exact hf
    · intro h
      have hn := ih.mpr fun i hi => h i (by omega)
      simp only [times, hn, ok_bind]
      exact h n (by omega)

theorem putpixel_ok {fb : Framebuffer} {x y : ℕ} : putpixel fb x y = .ok () ↔
      x % 2 ^ 16 < fb.width ∧ y % 2 ^ 16 < fb.height ∧ (y % 2 ^ 16) * fb.width + x % 2 ^ 16 < 2 ^ 31 := by
  unfold putpixel
  split_ifs with h h'
  · exact iff_of_true rfl ⟨h.1, h.2, h'⟩
  · exact iff_of_false (fun h => by cases h) (fun hp => h' hp.2.2)
  · exact iff_of_false (fun h => by cases h) (fun hp => h ⟨hp.1, hp.2.1⟩)

theorem memset32_ok {fb : Framebuffer} {offset : ℤ} {count : ℕ} :
    memset32 fb offset count = .ok () ↔
      count = 0 ∨ (0 ≤ offset ∧ offset + 4 * count ≤ fb.size) := by
  unfold memset32
  split_ifs with h <;> simp [h]

theorem moveUp_ok {fb : Framebuffer} {offset count : ℕ} :
    moveUp fb offset count = .ok () ↔ count = 0 ∨ offset + count ≤ fb.size := by
  unfold moveUp
  split_ifs with h <;> simp [h]

section Geometry

variable {fb : Framebuffer} {cx cy : ℕ}

theorem column_lt (hx : cx ≤ fb.cxMax) : 8 * cx + 7 < fb.width := by
  have := fb.width_ge
  unfold Framebuffer.cxMax at hx
  omega

theorem row_lt (hy : cy < fb.rows) : 16 * cy + 15 < fb.height := by
  unfold Framebuffer.rows at hy
  omega

theorem drawCell_ok (hx : cx ≤ fb.cxMax) (hy : cy < fb.rows) :
    drawCell fb (cx * 8) (cy * 16) = .ok () ↔ CellFits fb cx cy := by
  have hcolumn := column_lt hx
  have hrow := row_lt hy
  have hw := fb.width_lt
  have hh := fb.height_lt
  simp only [drawCell, times_ok, putpixel_ok, CellFits]
  constructor
  · intro h
    have hlast := (h 15 (by omega) 7 (by omega)).2.2
    rw [Nat.mod_eq_of_lt (by omega), Nat.mod_eq_of_lt (by omega), Nat.mul_comm cy, Nat.mul_comm cx] at hlast
    omega
  · intro h j hj i hi
    rw [Nat.mod_eq_of_lt (by omega), Nat.mod_eq_of_lt (by omega)]
    have hmono : (cy * 16 + j) * fb.width ≤ (16 * cy + 15) * fb.width := Nat.mul_le_mul_right _ (by omega)
    omega

theorem cursorBar_ok (fb : Framebuffer) : cursorBar fb cx cy = .ok () ↔ BarFits fb cx cy := by
  have hy : ∀ i < 16, (cy * 16 + i) % 2 ^ 16 = 16 * cy % 2 ^ 16 + i := by
    intro i hi
    omega
  simp only [cursorBar, times_ok, putpixel_ok, BarFits, Nat.mul_comm cx]
  constructor
  · intro h
    have hlast := h 15 (by omega)
    rwa [hy 15 (by omega)] at hlast
  · rintro ⟨hx, hlast, hindex⟩ i hi
    rw [hy i hi]
    have hmono : (16 * cy % 2 ^ 16 + i) * fb.width ≤ (16 * cy % 2 ^ 16 + 15) * fb.width :=
      Nat.mul_le_mul_right _ (by omega)
    omega

theorem size_ge (fb : Framebuffer) : 128 * fb.width ≤ fb.size := by
  have h := Nat.mul_le_mul fb.pitch_ge fb.height_ge
  unfold Framebuffer.size
  omega

end Geometry

section Steps

variable {fb : Framebuffer}

theorem newLine_exact : Exact (Safe fb) (newLine fb) (NewLineFits fb) lineBelow := by
  intro s hs t
  have hx := hs.column
  have hy := hs.row
  unfold newLine NewLineFits lineBelow
  split_ifs with hcy
  · have hclear : (times (fb.cxMax + 1 - s.cx) fun i => clearchar fb ((s.cx + i) * 8) (s.cy * 16)) = .ok () ↔
        CellFits fb fb.cxMax s.cy := by
      rw [times_ok]
      constructor
      · intro h
        have hlast := h (fb.cxMax - s.cx) (by omega)
        rw [Nat.add_sub_cancel' hx] at hlast
        exact (drawCell_ok (Nat.le_refl _) hy).mp hlast
      · intro h i hi
        refine (drawCell_ok (by omega) hy).mpr ?_
        unfold CellFits at h ⊢
        omega
    constructor
    · rintro ⟨ht, hsafe⟩
      obtain ⟨u, hloop, ht⟩ := bind_eq_ok ht
      cases ht
      exact ⟨⟨hclear.mp hloop, hsafe.row⟩, rfl⟩
    · rintro ⟨⟨hcell, hrow⟩, rfl⟩
      rw [hclear.mpr hcell]
      exact ⟨rfl, Nat.zero_le _, hrow, hs.index⟩
  · constructor
    · rintro ⟨ht, -⟩
      obtain ⟨u, hmove, ht⟩ := bind_eq_ok ht
      obtain ⟨u, hset, ht⟩ := bind_eq_ok ht
      cases ht
      have hwidth := fb.width_ge
      refine ⟨⟨moveUp_ok.mp hmove, ?_⟩, rfl⟩
      rcases memset32_ok.mp hset with h | ⟨-, h⟩ <;> omega
    · rintro ⟨⟨hmove, hset⟩, rfl⟩
      have hset' : memset32 fb (fb.lineSize * s.cyMax : ℕ) (fb.width * 16) = .ok () := by
        rw [memset32_ok]
        omega
      rw [moveUp_ok.mpr hmove, ok_bind, hset']
      exact ⟨rfl, Nat.zero_le _, hy, hs.index⟩

variable {s t : Console} {n : ℕ}

theorem newLine_ok (h : newLine fb s = .ok t) : t.cx = 0 ∧ s.cy ≤ t.cy ∧ t.escape = s.escape := by
  unfold newLine at h
  split_ifs at h
  · obtain ⟨u, -, h⟩ := bind_eq_ok h
    cases h
    exact ⟨rfl, Nat.le_succ _, rfl⟩
  · obtain ⟨u, -, h⟩ := bind_eq_ok h
    obtain ⟨u, -, h⟩ := bind_eq_ok h
    cases h
    exact ⟨rfl, Nat.le_refl _, rfl⟩

theorem cursorUpdate_ok (h : cursorUpdate fb s = .ok t) : t = drawn s := by
  obtain ⟨u, -, h⟩ := bind_eq_ok h
  obtain ⟨u, -, h⟩ := bind_eq_ok h
  exact (Except.ok.inj h).symm

theorem cursorUpdate_exact : Exact (Safe fb) (cursorUpdate fb) (CursorFits fb) drawn := by
  intro s hs t
  constructor
  · rintro ⟨ht, -⟩
    obtain rfl := cursorUpdate_ok ht
    obtain ⟨u, hlast, ht⟩ := bind_eq_ok ht
    obtain ⟨u, hnew, ht⟩ := bind_eq_ok ht
    exact ⟨⟨(cursorBar_ok ..).mp hlast, (cursorBar_ok ..).mp hnew⟩, rfl⟩
  · rintro ⟨⟨hlast, hnew⟩, rfl⟩
    refine ⟨?_, hs.column, hs.row, hs.index⟩
    rw [cursorUpdate, (cursorBar_ok ..).mpr hlast, ok_bind, (cursorBar_ok ..).mpr hnew]
    rfl

theorem then_cursorUpdate {f : Console → Except Fault Console} {C : Console → Prop}
    {g : Console → Console} (h : Exact (Safe fb) f C g) :
    Exact (Safe fb) (fun s => f s >>= cursorUpdate fb) (fun s => C s ∧ CursorFits fb (g s))
      fun s => drawn (g s) := by
  refine h.andThen cursorUpdate_exact ?_
  intro s t u _ _ hu hsafe
  rw [cursorUpdate_ok hu] at hsafe
  exact ⟨hsafe.column, hsafe.row, hsafe.index⟩

theorem wrap_exact :
    Exact (Safe fb) (wrap fb) (fun s => fb.width ≤ 8 * s.cx + 8 → NewLineFits fb s) (wrapped fb) := by
  intro s hs t
  have hcolumn := column_lt hs.column
  have hw := fb.width_lt
  have hmod : s.cx * 8 % 2 ^ 16 + 8 = 8 * s.cx + 8 := by omega
  unfold wrap wrapped
  rw [hmod]
  split_ifs with h
  · rw [newLine_exact s hs t]
    simp [h]
  · simp only [h, false_imp_iff, true_and, Except.ok.injEq]
    constructor
    · rintro ⟨rfl, -⟩
      rfl
    · rintro rfl
      exact ⟨rfl, hs⟩

theorem wrap_ok (hs : Safe fb s) (h : wrap fb s = .ok t) :
    t.cx ≤ fb.cxMax ∧ s.cy ≤ t.cy ∧ t.escape = s.escape := by
  unfold wrap at h
  split_ifs at h
  · obtain ⟨hx, hy, he⟩ := newLine_ok h
    exact ⟨by omega, hy, he⟩
  · cases h
    exact ⟨hs.column, Nat.le_refl _, rfl⟩

/-- `devconsole_putchar` behind the wrap. -/
def putRest (fb : Framebuffer) (c : UInt8) (s : Console) : Except Fault Console :=
  if c = 10 then newLine fb s
  else if c = 13 then .ok { s with cx := 0 }
  else if c = 9 then .ok { s with cx := (s.cx - s.cx % 8 + 8) % 2 ^ 16 }
  else do
    setchar fb (s.cx * 8) (s.cy * 16)
    .ok { s with cx := (s.cx + 1) % 2 ^ 16 }

theorem putchar_eq {c : UInt8} : putchar fb c = fun s => wrap fb s >>= putRest fb c := rfl

theorem putRest_ok {c : UInt8} (h : putRest fb c s = .ok t) :
    s.cy ≤ t.cy ∧ t.escape = s.escape := by
  unfold putRest at h
  split_ifs at h
  · exact (newLine_ok h).2
  · cases h
    exact ⟨Nat.le_refl _, rfl⟩
  · cases h
    exact ⟨Nat.le_refl _, rfl⟩
  · obtain ⟨u, -, h⟩ := bind_eq_ok h
    cases h
    exact ⟨Nat.le_refl _, rfl⟩

theorem setchar_exact : Exact (Safe fb) (fun s => do
      setchar fb (s.cx * 8) (s.cy * 16)
      .ok { s with cx := (s.cx + 1) % 2 ^ 16 })
    (fun s => CellFits fb s.cx s.cy ∧ s.cx + 1 ≤ fb.cxMax) fun s => { s with cx := s.cx + 1 } := by
  intro s hs t
  have hcolumn := column_lt hs.column
  have hw := fb.width_lt
  have hmod : (s.cx + 1) % 2 ^ 16 = s.cx + 1 := Nat.mod_eq_of_lt (by omega)
  have hcell := drawCell_ok hs.column hs.row
  simp only [hmod]
  constructor
  · rintro ⟨ht, hsafe⟩
    obtain ⟨u, hdraw, ht⟩ := bind_eq_ok ht
    cases ht
    exact ⟨⟨hcell.mp hdraw, hsafe.column⟩, rfl⟩
  · rintro ⟨⟨hfits, hlast⟩, rfl⟩
    rw [setchar, hcell.mpr hfits]
    exact ⟨rfl, hlast, hs.row, hs.index⟩

theorem putRest_exact {c : UInt8} : Exact (Safe fb) (putRest fb c) (fun s =>
      if c = 10 then NewLineFits fb s
      else if c = 13 then True
      else if c = 9 then s.cx - s.cx % 8 + 8 ≤ fb.cxMax
      else CellFits fb s.cx s.cy ∧ s.cx + 1 ≤ fb.cxMax)
    fun s =>
      if c = 10 then lineBelow s
      else if c = 13 then { s with cx := 0 }
      else if c = 9 then { s with cx := s.cx - s.cx % 8 + 8 }
      else { s with cx := s.cx + 1 } := by
  refine .ite newLine_exact (.ite (.pure ?_) (.ite (.congr_step (.pure ?_) ?_) setchar_exact))
  · intro s hs
    exact iff_of_true ⟨Nat.zero_le _, hs.row, hs.index⟩ trivial
  · intro s hs
    exact ⟨fun h => h.column, fun h => ⟨h, hs.row, hs.index⟩⟩
  · intro s hs
    have hcolumn := column_lt hs.column
    have hw := fb.width_lt
    rw [Nat.mod_eq_of_lt (by omega)]

theorem putchar_exact {c : UInt8} : Exact (Safe fb) (putchar fb c) (PutFits fb c) (put fb c) := by
  rw [putchar_eq]
  refine wrap_exact.andThen putRest_exact ?_
  intro s t u hs hwrap hrest hu
  obtain ⟨hx, -, he⟩ := wrap_ok hs hwrap
  obtain ⟨hy, -⟩ := putRest_ok hrest
  have hrow := hu.row
  exact ⟨hx, by omega, by rw [he]; exact hs.index⟩

theorem lineFeed_exact : Exact (Safe fb) (fun s => putchar fb 10 s >>= putchar fb 13)
    (fun s => PutFits fb 10 s ∧ PutFits fb 13 (put fb 10 s)) fun s => put fb 13 (put fb 10 s) := by
  refine putchar_exact.andThen putchar_exact ?_
  intro s t u hs hfeed hreturn hu
  rw [putchar_eq] at hfeed hreturn
  obtain ⟨v, hv, hfeed⟩ := bind_eq_ok hfeed
  obtain ⟨hx, hvt, het⟩ := newLine_ok hfeed
  obtain ⟨w, hw, hreturn⟩ := bind_eq_ok hreturn
  have hsame := putRest_ok hreturn
  have hev := (wrap_ok hs hv).2.2
  have htw : t.cy ≤ w.cy := by
    unfold wrap at hw
    split_ifs at hw
    · exact (newLine_ok hw).2.1
    · exact (Except.ok.inj hw) ▸ Nat.le_refl _
  have hrow := hu.row
  exact ⟨by omega, by omega, by rw [het, hev]; exact hs.index⟩

theorem delchar_exact : Exact (Safe fb) (delchar fb) (DelFits fb) deleted := by
  intro s hs t
  have hs' : Safe fb { s with cx := s.cx - 1 } :=
    ⟨Nat.le_trans (Nat.sub_le ..) hs.column, hs.row, hs.index⟩
  have hcell := drawCell_ok hs'.column hs'.row
  constructor
  · rintro ⟨ht, hsafe⟩
    obtain ⟨u, hdraw, ht⟩ := bind_eq_ok ht
    obtain ⟨hcursor, rfl⟩ := (cursorUpdate_exact _ hs' t).mp ⟨ht, hsafe⟩
    exact ⟨⟨hcell.mp hdraw, hcursor⟩, rfl⟩
  · rintro ⟨⟨hfits, hcursor⟩, rfl⟩
    have hdraw : clearchar fb ((s.cx - 1) * 8) (s.cy * 16) = .ok () := hcell.mpr hfits
    simp only [delchar, hdraw, ok_bind]
    exact cursorUpdate_exact.ok hs' hcursor

theorem cursorPosition_column : (cursorPosition fb s).cx ≤ fb.cxMax := by
  unfold cursorPosition
  split
  · exact Nat.zero_le _
  · unfold uint16
    dsimp only
    omega

theorem cursorPosition_exact : Exact (Safe fb) (fun s => cursorUpdate fb (cursorPosition fb s))
    (fun s => (cursorPosition fb s).cy < fb.rows ∧ CursorFits fb (cursorPosition fb s))
    fun s => drawn (cursorPosition fb s) := by
  refine then_cursorUpdate (.pure ?_)
  intro s hs
  refine ⟨fun h => h.row, fun h => ⟨cursorPosition_column, h, ?_⟩⟩
  have hindex := hs.index
  unfold cursorPosition
  split <;> exact hindex

theorem cursorDown_exact : Exact (Safe fb) (fun s => cursorUpdate fb (cursorDown s))
    (fun s => (cursorDown s).cy < fb.rows ∧ CursorFits fb (cursorDown s)) fun s => drawn (cursorDown s) := by
  refine then_cursorUpdate (.pure ?_)
  intro s hs
  exact ⟨fun h => h.row, fun h => ⟨hs.column, h, hs.index⟩⟩

theorem cursorForward_exact : Exact (Safe fb) (fun s => cursorUpdate fb (cursorForward fb s))
    (fun s => (cursorForward fb s).cx ≤ fb.cxMax ∧ CursorFits fb (cursorForward fb s))
    fun s => drawn (cursorForward fb s) := by
  refine then_cursorUpdate (.pure ?_)
  intro s hs
  exact ⟨fun h => h.column, fun h => ⟨h, hs.row, hs.index⟩⟩

theorem newLines_ok (h : iterateStep (newLine fb) n s = .ok t) : s.cy ≤ t.cy := by
  induction n generalizing s with
  | zero => exact (Except.ok.inj h) ▸ Nat.le_refl _
  | succ n ih =>
    obtain ⟨u, hu, h⟩ := bind_eq_ok h
    exact Nat.le_trans (newLine_ok hu).2.1 (ih h)

theorem newLines_exact : Exact (Safe fb) (iterateStep (newLine fb) n)
    (fun s => ∀ i < n, NewLineFits fb (lineBelow^[i] s)) lineBelow^[n] := by
  refine newLine_exact.iterate ?_ n
  intro m s t u hs ht htu hu
  obtain ⟨hx, -, he⟩ := newLine_ok ht
  have hy := newLines_ok htu
  have hrow := hu.row
  exact ⟨by omega, by omega, by rw [he]; exact hs.index⟩

theorem scrollDown_exact : Exact (Safe fb)
    (fun s => iterateStep (newLine fb) (amount s.escape).toNat s >>= cursorUpdate fb)
    (fun s => (∀ i < (amount s.escape).toNat, NewLineFits fb (lineBelow^[i] s)) ∧
      CursorFits fb (lineBelow^[(amount s.escape).toNat] s))
    fun s => drawn (lineBelow^[(amount s.escape).toNat] s) :=
  then_cursorUpdate fun s hs t => newLines_exact s hs t

theorem clear_first (hs : Safe fb s) :
    memset32 fb (s.cx * 16 * 16 * 4 : ℕ) (8 * wsub fb.cxMax s.cx * 16 % 2 ^ 64) = .ok () := by
  have hx := hs.column
  have hsize := size_ge fb
  have hcolumn := column_lt (Nat.le_refl fb.cxMax)
  have hw := fb.width_lt
  rw [wsub_of_le (by omega) hx, Nat.mod_eq_of_lt (by omega), memset32_ok]
  omega

theorem clearBelow_ok (hs : Safe fb s) : clearBelow fb s = .ok () ↔
      (s.cy + 1 < s.cyMax → 0 ≤ int32 ((s.cy + 1) * 16 * fb.fbPitch : ℕ) ∧
        int32 ((s.cy + 1) * 16 * fb.fbPitch : ℕ) + 4 * (fb.width * 16 * (s.cyMax - (s.cy + 1)) : ℕ) ≤
          fb.size) := by
  have hwidth := fb.width_ge
  have hzero : fb.width * 16 * (s.cyMax - (s.cy + 1)) = 0 ↔ ¬ s.cy + 1 < s.cyMax := by
    rw [Nat.mul_eq_zero]
    omega
  rw [clearBelow, clear_first hs, ok_bind]
  split_ifs with h
  · rw [memset32_ok, hzero]
    constructor
    · intro hor hlt
      exact hor.resolve_left (fun hn => hn hlt)
    · intro himp
      by_cases hlt : s.cy + 1 < s.cyMax
      · exact .inr (himp hlt)
      · exact .inl hlt
  · exact iff_of_true rfl (fun hlt => absurd hlt (by omega))

theorem clearMode_ok (hs : Safe fb s) :
    clearMode fb (atoi (cString s.escape)) s = .ok () ↔ ClearFits fb s := by
  unfold clearMode ClearFits
  split_ifs
  · exact clearBelow_ok hs
  · rw [memset32_ok]
    rw [Nat.mul_right_comm fb.width, Nat.mul_assoc 64]
    omega
  · exact iff_of_true rfl trivial

theorem clear_exact :
    Exact (Safe fb) (clear fb) (ClearFits fb) fun s => { s with refresh := true } := by
  intro s hs t
  have hmode := clearMode_ok hs
  constructor
  · rintro ⟨ht, -⟩
    obtain ⟨u, hm, ht⟩ := bind_eq_ok ht
    exact ⟨hmode.mp hm, (Except.ok.inj ht).symm⟩
  · rintro ⟨hfits, rfl⟩
    rw [clear, hmode.mpr hfits]
    exact ⟨rfl, hs.column, hs.row, hs.index⟩

theorem eraseInLine_exact : Exact (Safe fb) (eraseInLine fb) (EraseFits fb) id := by
  intro s hs t
  have hx := hs.column
  have hcolumn := column_lt (Nat.le_refl fb.cxMax)
  have hw := fb.width_lt
  have hcount : 8 * wsub fb.cxMax s.cx % 2 ^ 64 = 8 * (fb.cxMax - s.cx) := by
    rw [wsub_of_le (by omega) hx, Nat.mod_eq_of_lt (by omega)]
  have herase : (times 16 fun i =>
      memset32 fb (int32 ((s.cy * 16 + i) * fb.fbPitch : ℕ) + (s.cx * 4 * 8 * 16 : ℕ))
        (8 * wsub fb.cxMax s.cx % 2 ^ 64)) = .ok () ↔ EraseFits fb s := by
    rw [hcount, times_ok]
    simp only [memset32_ok]
    constructor
    · intro h hlt i hi
      have := h i hi
      omega
    · intro h i hi
      by_cases hlt : s.cx < fb.cxMax
      · have := h hlt i hi
        omega
      · omega
  constructor
  · rintro ⟨ht, -⟩
    obtain ⟨u, hm, ht⟩ := bind_eq_ok ht
    exact ⟨herase.mp hm, (Except.ok.inj ht).symm⟩
  · rintro ⟨hfits, rfl⟩
    rw [eraseInLine, herase.mpr hfits]
    exact ⟨rfl, hs⟩

theorem exists_ite_iff {P A B : Prop} [Decidable P] {x y : Except Fault Console}
    (hx : (∃ t, x = .ok t ∧ Safe fb t) ↔ A) (hy : (∃ t, y = .ok t ∧ Safe fb t) ↔ B) :
    (∃ t, (if P then x else y) = .ok t ∧ Safe fb t) ↔ if P then A else B := by
  split_ifs
  · exact hx
  · exact hy

section
variable (hs : Safe fb s)
include hs

theorem safe_toNormal : Safe fb (toNormal s) := ⟨hs.column, hs.row, hs.index⟩

theorem safe_same (hx : t.cx = s.cx) (hy : t.cy = s.cy) (he : t.escape = s.escape) : Safe fb t :=
  ⟨hx ▸ hs.column, hy ▸ hs.row, he ▸ hs.index⟩

theorem exists_ok_iff : (∃ t, (.ok s : Except Fault Console) = .ok t ∧ Safe fb t) ↔ True :=
  iff_of_true ⟨s, rfl, hs⟩ trivial

theorem safe_screenMode (shown : Bool) : Safe fb (screenMode shown s) := by
  unfold screenMode
  split
  · split_ifs
    · exact ⟨hs.column, hs.row, hs.index⟩
    · exact hs
  · exact hs

theorem safe_screenMargin : Safe fb (screenMargin s) := by
  unfold screenMargin
  split
  · exact hs
  · exact ⟨hs.column, hs.row, hs.index⟩

theorem safe_appendEscape (c : UInt8) : Safe fb (appendEscape s c) := by
  unfold appendEscape
  split_ifs with h
  · refine ⟨hs.column, hs.row, ?_⟩
    simpa using h
  · exact hs

theorem controlLetter_iff (c : UInt8) :
    (∃ t, controlLetter fb c s = .ok t ∧ Safe fb t) ↔ ControlFits fb c (toNormal s) := by
  have hn := safe_toNormal hs
  unfold controlLetter ControlFits
  by_cases hm : c = 109
  · subst hm
    simp only [if_true]
    exact exists_ok_iff (safe_same hs rfl rfl rfl)
  rw [if_neg hm]
  refine exists_ite_iff (cursorPosition_exact.exists_iff hn) ?_
  refine exists_ite_iff (scrollDown_exact.exists_iff hn) ?_
  refine exists_ite_iff (cursorDown_exact.exists_iff hn) ?_
  refine exists_ite_iff (cursorForward_exact.exists_iff hn) ?_
  refine exists_ite_iff ((then_cursorUpdate clear_exact).exists_iff hn) ?_
  refine exists_ite_iff (eraseInLine_exact.exists_iff hn) ?_
  -- the other letters write nothing
  split_ifs
  · exact exists_ok_iff (safe_screenMode hn false)
  · exact exists_ok_iff (safe_screenMode hn true)
  · exact exists_ok_iff (safe_screenMargin hn)
  · exact exists_ok_iff hn

theorem normalChar_iff (c : UInt8) :
    (∃ t, normalChar fb c s = .ok t ∧ Safe fb t) ↔ NormalFits fb c s := by
  unfold normalChar NormalFits
  split_ifs
  · exact putchar_exact.exists_iff hs
  · exact lineFeed_exact.exists_iff hs
  · exact exists_ok_iff ⟨hs.column, hs.row, Nat.zero_lt_succ _⟩
  · exact delchar_exact.exists_iff hs
  · exact exists_ok_iff hs

theorem parseIn_iff (c : UInt8) : (∃ t, parseIn fb c s = .ok t ∧ Safe fb t) ↔ ByteFits fb c s := by
  unfold parseIn ByteFits
  cases s.parse with
  | normal => exact normalChar_iff hs c
  | escape => exact exists_ok_iff (safe_same hs rfl rfl rfl)
  | control =>
    simp only [controlChar]
    split_ifs with h
    · rw [controlLetter_iff hs c]
      simp [h]
    · rw [exists_ok_iff (safe_appendEscape hs c)]
      simp [h]
  | osCommand =>
    refine exists_ok_iff ?_
    split_ifs
    · exact safe_toNormal hs
    · exact hs
  | characterSet => exact exists_ok_iff (safe_toNormal hs)
  | graphics => exact exists_ok_iff hs

end

theorem safe_setGraphics : Safe fb (setGraphics s) ↔ Safe fb s := by
  unfold setGraphics
  split_ifs
  · exact ⟨fun h => ⟨h.column, h.row, h.index⟩, safe_toNormal⟩
  · rfl

theorem parsechar_iff (hs : Safe fb s) {c : UInt8} :
    (∃ t, parsechar fb c s = .ok t ∧ Safe fb t) ↔ ByteFits fb c s := by
  rw [← parseIn_iff hs c]
  constructor
  · rintro ⟨t, ht, hsafe⟩
    obtain ⟨u, hu, ht⟩ := bind_eq_ok ht
    cases ht
    exact ⟨u, hu, safe_setGraphics.mp hsafe⟩
  · rintro ⟨u, hu, hsafe⟩
    refine ⟨setGraphics u, ?_, safe_setGraphics.mpr hsafe⟩
    rw [parsechar, hu]
    rfl

theorem echo_exact {key : UInt16} : Exact (Safe fb) (echo fb key) (EchoFits fb key) (echoed fb key) := by
  have hskip : Exact (Safe fb) (fun s => (.ok s : Except Fault Console)) (fun _ => True) fun s => s :=
    .pure fun s hs => iff_of_true hs trivial
  exact .ite (.ite hskip (.ite putchar_exact hskip))
    (.ite (.ite putchar_exact hskip) (.ite (.ite delchar_exact hskip) hskip))

theorem keyHandler_iff (hs : Safe fb s) {key : UInt16} {pressed : Bool} :
    (∃ t, keyHandler fb key pressed s = .ok t ∧ Safe fb t) ↔
      (key ≠ 0x12 → pressed = true → EchoFits fb key s ∧ CursorFits fb (echoed fb key s)) := by
  unfold keyHandler
  split_ifs with hkey hpressed
  · exact iff_of_true ⟨_, rfl, safe_same hs rfl rfl rfl⟩ (fun hne => absurd hkey hne)
  · rw [(then_cursorUpdate echo_exact).exists_iff hs]
    simp [hkey, hpressed]
  · rw [exists_ok_iff hs]
    simp [hpressed]

theorem printEnd_iff (hs : Safe fb s) :
    (∃ t, printEnd fb s = .ok t ∧ Safe fb t) ↔ CursorFits fb s := by
  unfold printEnd
  split_ifs
  · exact cursorUpdate_exact.exists_iff (safe_same hs rfl rfl rfl)
  · exact cursorUpdate_exact.exists_iff hs

theorem handle_iff (hs : Safe fb s) {e : Event} :
    (∃ t, handle fb s e = .ok t ∧ Safe fb t) ↔ Meets fb s e := by
  cases e with
  | printStart => exact exists_ok_iff (safe_same hs rfl rfl rfl)
  | byte c => exact parsechar_iff hs
  | printEnd => exact printEnd_iff hs
  | key key pressed => exact keyHandler_iff hs

end Steps

theorem safe_start {fb : Framebuffer} : Safe fb (start fb) := by
  have hh := fb.height_ge
  refine ⟨Nat.zero_le _, ?_, Nat.zero_lt_succ _⟩
  change 0 < fb.height / 16
  omega

theorem safe_of_run {fb : Framebuffer} {events : List Event} {s : Console}
    (hrun : Run (Guarded (Step fb) (Meets fb)) (start fb) events s) : Safe fb s := by
  apply hrun.invariant safe_start
  rintro s e t hs ⟨hstep, hm⟩
  obtain ⟨u, hu, hsafe⟩ := (handle_iff hs).mpr hm
  rw [show handle fb s e = .ok t from hstep] at hu
  exact Except.ok.inj hu ▸ hsafe

/-- As long as every event keeps to the condition, the cursor is on the grid and the escape buffer
below its capacity, and nothing was accessed outside. The next event keeps this exactly if it keeps to
the condition too. -/
theorem terminal_iff (fb : Framebuffer) {events : List Event} {s : Console}
    (hrun : Run (Guarded (Step fb) (Meets fb)) (start fb) events s) (e : Event) :
    Safe fb s ∧ ((∃ t, handle fb s e = .ok t ∧ Safe fb t) ↔ Meets fb s e) :=
  ⟨safe_of_run hrun, handle_iff (safe_of_run hrun)⟩

def twoByTwo : Framebuffer := ⟨16, 32, 64, by decide, by decide, by decide, by decide, by decide⟩

theorem terminal_letter :
    ∃ s, Run (Guarded (Step twoByTwo) (Meets twoByTwo)) (start twoByTwo) [.printStart, .byte 65] s ∧
      ∃ t, handle twoByTwo s .printEnd = .ok t ∧ Safe twoByTwo t := by
  have hbegin : Guarded (Step twoByTwo) (Meets twoByTwo) (start twoByTwo) .printStart (start twoByTwo) :=
    ⟨rfl, trivial⟩
  have hbyte : Guarded (Step twoByTwo) (Meets twoByTwo) (start twoByTwo) (.byte 65)
      { start twoByTwo with cx := 1 } := by
    refine ⟨rfl, ?_, ?_⟩
    · intro h
      cases (by decide : ¬ 16 ≤ 8 * 0 + 8) h
    · exact ⟨(by decide : (16 * 0 + 15) * 16 + 8 * 0 + 7 < 2 ^ 31), Nat.le_refl 1⟩
  have hrun := (Run.nil.snoc hbegin).snoc hbyte
  refine ⟨_, hrun, (terminal_iff twoByTwo hrun .printEnd).2.mpr ?_⟩
  exact ⟨(by decide : 8 * 0 % 2 ^ 16 < 16 ∧ 16 * 0 % 2 ^ 16 + 15 < 32 ∧
      (16 * 0 % 2 ^ 16 + 15) * 16 + 8 * 0 % 2 ^ 16 < 2 ^ 31),
    (by decide : 8 * 1 % 2 ^ 16 < 16 ∧ 16 * 0 % 2 ^ 16 + 15 < 32 ∧
      (16 * 0 % 2 ^ 16 + 15) * 16 + 8 * 1 % 2 ^ 16 < 2 ^ 31)⟩

/-- Two line feeds in one write: the second one scrolls, the remembered cursor of the first line goes
to line 65535, and the assertion of `devconsole_putpixel` fails when it is removed. -/
theorem lineFeeds_panic : print twoByTwo [10, 10] (start twoByTwo) = .error .panic := by
  decide +kernel

end Kot.Devconsole
