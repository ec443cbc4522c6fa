import MyaXOS.Lib.Terminal
import MyaXOS.System

/-!
# The screen

The text screen is 25 rows of 80 cells, each a character and an attribute, in the memory from
`textmemptr` on.  `writech` writes a character or moves the cursor, and scrolls when the cursor has
left the last row.

* `Vga` is the driver on the memory; `VgaCall` is a call of it.
* `Console` is what it is meant to be: a terminal without a limit, and the current attribute.
* `Shows` says that the screen shows the last 25 rows of the console.  Every call keeps it
  (`Shows.perform`) and writes to the cells of the screen only, so it holds after any calls
  (`screen_shows`).
* `writechf` puts a character on the screen in its own way; `writechf_iff` compares it with
  `writech`.

**A simulation.**  The console never scrolls, and what a character means for it can be said in a
line.  The driver keeps 2000 cells in memory, and moves all of them when its last row is full.
`Shows` relates the two: the cells are the last rows of the console, the cursor is in the same place
of the same row, and the attribute is the same.  Each function of the driver is then one lemma that
says which operation of the console it performs, and `writech` is put together from them as the
source has it: the character, the wrap at the end of a row, and the scrolling that may come with it.

**Scrolling** copies 24 rows by `memcpy`, from the second row to the first, over itself.  The target
is below the source and the copy runs upwards, so every byte is read before it is overwritten; then
the last row is filled with blanks.  `cellAt_scroll` says what is in each cell afterwards, and
`view_down` of the terminal that this is the view one row further down.

**One word for two bytes.**  A cell is written as a half word, made of a character and an attribute
by a shift and an `or`.  `writechf` computes the shifted attribute as well, and then writes the one
that has not been shifted, so that the character and the attribute get mixed up in its cells; the
theorem says for which they do not.
-/

set_option autoImplicit false

namespace MyaXOS

/-- `textmemptr`, once `init_video` has set it. -/
def textmemptr : Nat := 0xB8000

/-- The variables of the driver, and the memory. -/
structure Vga where
  mem : Mem
  attrib : Nat
  csrX : Nat
  csrY : Nat
  /-- The two registers of the hardware cursor. -/
  cursor : UInt8 × UInt8

/-- `memsetw(dest, val, count)`. -/
def memsetw (m : Mem) (dest val : Nat) : Nat → Mem
  | 0 => m
  | count + 1 => (memsetw m dest val count).store16 (dest + 2 * count) val

namespace Vga

/-- The address of a cell. -/
def cellAddr (y x : Nat) : Nat := textmemptr + 2 * (y * 80 + x)

/-- `0x20 | (attrib << 8)`. -/
def blank (attrib : Nat) : Nat := 0x20 ||| attrib <<< 8

/-- `scroll()`. -/
def scroll (s : Vga) : Vga :=
  if 25 ≤ s.csrY then
    let temp := s.csrY - 25 + 1
    let rest := u32 (25 + 0x100000000 - temp)
    let m := memcpy s.mem textmemptr (cellAddr temp 0) (rest * 80 * 2)
    { s with mem := memsetw m (cellAddr rest 0) (blank s.attrib) 80, csrY := 25 - 1 }
  else s

/-- `move_csr()`. -/
def moveCsr (s : Vga) : Vga :=
  let temp := s.csrY * 80 + s.csrX
  { s with cursor := (UInt8.ofNat (temp / 0x100), UInt8.ofNat temp) }

/-- The loop of `cls`, after `i` rounds. -/
def clsLoop (m : Mem) (attrib : Nat) : Nat → Mem
  | 0 => m
  | i + 1 => memsetw (clsLoop m attrib i) (cellAddr i 0) (blank attrib) 80

/-- `cls()`. -/
def cls (s : Vga) : Vga :=
  moveCsr { s with mem := clsLoop s.mem s.attrib 25, csrX := 0, csrY := 0 }

/-- What `writech(c)` does with the character. -/
def place (c : UInt8) (s : Vga) : Vga :=
  if c = 0x08 then if s.csrX ≠ 0 then { s with csrX := s.csrX - 1 } else s
  else if c = 0x09 then { s with csrX := (s.csrX + 8) &&& 0xFFFFFFF8 }
  else if c = 0x0D then { s with csrX := 0 }
  else if c = 0x0A then { s with csrX := 0, csrY := s.csrY + 1 }
  else if 0x20 ≤ c then
    { s with
      mem := s.mem.store16 (cellAddr s.csrY s.csrX) (c.toNat ||| s.attrib <<< 8)
      csrX := s.csrX + 1 }
  else s

/-- The wrap at the end of a row. -/
def wrap (s : Vga) : Vga := if 80 ≤ s.csrX then { s with csrX := 0, csrY := s.csrY + 1 } else s

/-- `writech(c)`. -/
def writech (c : UInt8) (s : Vga) : Vga := moveCsr (scroll (wrap (place c s)))

/-- `placech(c, x, y, attr)`.  It shifts `attr` into the variable `att` and writes `c | attr`. -/
def placech (m : Mem) (c : UInt8) (x y attr : Nat) : Mem :=
  m.store16 (cellAddr y x) (c.toNat ||| attr)

/-- `writechf(c)`. -/
def writechf (c : UInt8) (s : Vga) : Vga :=
  moveCsr (scroll (wrap
    { s with mem := placech s.mem c s.csrX s.csrY s.attrib, csrX := s.csrX + 1 }))

/-- `settextcolor(forecolor, backcolor)`. -/
def settextcolor (forecolor backcolor : UInt8) (s : Vga) : Vga :=
  { s with attrib := backcolor.toNat <<< 4 ||| forecolor.toNat &&& 0x0F }

/-- The character and the attribute in a cell. -/
def cellAt (m : Mem) (y x : Nat) : UInt8 × UInt8 := (m (cellAddr y x), m (cellAddr y x + 1))

/-- The cells of the screen. -/
def cell (s : Vga) (y x : Nat) : UInt8 × UInt8 := cellAt s.mem y x

end Vga

/-- A call of the driver. -/
inductive VgaCall where
  | writech (c : UInt8)
  | settextcolor (forecolor backcolor : UInt8)
  | cls
  deriving DecidableEq, Repr

/-- Perform a call. -/
def Vga.perform (s : Vga) : VgaCall → Vga
  | .writech c => s.writech c
  | .settextcolor forecolor backcolor => s.settextcolor forecolor backcolor
  | .cls => s.cls

/-! ## The console

What the driver is for: a terminal whose rows never end, with the attribute that is current.  It has
no memory and does not scroll.  The screen shows its last 25 rows, and `Shows` says in which cell
each character of it is. -/

/-- A terminal with 80 columns and the attribute that is current.  Characters are written with this
attribute, and so are the blanks of the rows that are new. -/
structure Console where
  terminal : Terminal (UInt8 × UInt8)
  attr : UInt8

namespace Console

/-- A blank in the current attribute. -/
def blank (t : Console) : UInt8 × UInt8 := (0x20, t.attr)

/-- Go to a column, or to the next row if there is no such column. -/
def advance (x : Nat) (t : Console) : Console :=
  { t with terminal := if x < 80 then t.terminal.moveTo x else t.terminal.down t.blank }

/-- A character arrives. -/
def write (c : UInt8) (t : Console) : Console :=
  if c = 0x08 then { t with terminal := t.terminal.moveTo (t.terminal.col - 1) }
  else if c = 0x09 then t.advance (t.terminal.col / 8 * 8 + 8)
  else if c = 0x0D then { t with terminal := t.terminal.moveTo 0 }
  else if c = 0x0A then { t with terminal := t.terminal.down t.blank }
  else if 0x20 ≤ c then
    { t with terminal := t.terminal.put (c, t.attr) }.advance (t.terminal.col + 1)
  else t

/-- What a call means. -/
def perform (t : Console) : VgaCall → Console
  | .writech c => t.write c
  | .settextcolor forecolor backcolor =>
    { t with attr := UInt8.ofNat (16 * backcolor.toNat + forecolor.toNat % 16) }
  | .cls => { t with terminal := t.terminal.clear 25 t.blank }

/-- The console that has the rows and the cursor of a screen. -/
def ofScreen (s : Vga) : Console where
  terminal := { cell := s.cell, height := 25, row := s.csrY, col := s.csrX }
  attr := UInt8.ofNat s.attrib

end Console

/-- The screen shows the last 25 rows of the console, with the cursor.  The columns are the same,
the rows are counted from the first of the 25 on, and each cell has the character and the attribute
of the console. -/
structure Shows (s : Vga) (t : Console) : Prop where
  onScreen : t.terminal.OnScreen 25
  col_lt : s.csrX < 80
  col : s.csrX = t.terminal.col
  row : s.csrY = t.terminal.screenRow 25
  attr : UInt8.ofNat s.attrib = t.attr
  cell : ∀ y < 25, ∀ x < 80, s.cell y x = t.terminal.view 25 y x

/-- The two memories differ in the cells of the screen at most. -/
def ScreenOnly (m m' : Mem) : Prop :=
  ∀ a, a < textmemptr ∨ textmemptr + 4000 ≤ a → m' a = m a

/-! ## Cells

A cell is two bytes.  What the driver does to the memory is to write a cell, to fill a row with
blanks and, when it scrolls, to copy the rows.  For the first two it is said here which cells change
and that nothing else does. -/

section
variable {m : Mem} {dest val count y x y' x' : Nat} {s : Vga} {t : Console}

theorem memsetw_of_outside (h : ∀ i < count, x < dest + 2 * i ∨ dest + 2 * i + 2 ≤ x) :
    memsetw m dest val count x = m x := by
  induction count with
  | zero => rfl
  | succ count ih =>
    rw [memsetw, Mem.store16_of_outside _ _ (h count (Nat.lt_succ_self count))]
    exact ih fun i hi => h i (Nat.lt_succ_of_lt hi)

theorem memsetw_apply (m : Mem) (dest val : Nat) {i : Nat} (hi : i < count) :
    memsetw m dest val count (dest + 2 * i) = UInt8.ofNat val ∧
      memsetw m dest val count (dest + 2 * i + 1) = UInt8.ofNat (val / 0x100) := by
  induction count with
  | zero => exact absurd hi (Nat.not_lt_zero i)
  | succ count ih =>
    rw [memsetw]
    rcases Nat.lt_succ_iff_lt_or_eq.mp hi with hlt | rfl
    · rw [Mem.store16_of_outside _ _ (by omega), Mem.store16_of_outside _ _ (by omega)]
      exact ih hlt
    · exact ⟨Mem.store16_low .., Mem.store16_high ..⟩

/-- The two bytes of a character with its attribute. -/
theorem char_attrib (c attrib : Nat) (hc : c < 0x100) :
    UInt8.ofNat (c ||| attrib <<< 8) = UInt8.ofNat c ∧
      UInt8.ofNat ((c ||| attrib <<< 8) / 0x100) = UInt8.ofNat attrib := by
  have hor : c ||| attrib <<< 8 = 0x100 * attrib + c := by
    rw [Nat.or_comm, ← Nat.shiftLeft_add_eq_or_of_lt hc, Nat.shiftLeft_eq, Nat.mul_comm]
  rw [hor]
  refine ⟨UInt8.toNat_inj.mp ?_, congrArg UInt8.ofNat (by omega)⟩
  simp only [UInt8.toNat_ofNat']
  omega

/-- Writing a cell changes no other. -/
theorem cellAt_store16 (m : Mem) (v : Nat) (hx : x < 80) (hx' : x' < 80) :
    Vga.cellAt (m.store16 (Vga.cellAddr y x) v) y' x' =
      if y' = y ∧ x' = x then (UInt8.ofNat v, UInt8.ofNat (v / 0x100)) else Vga.cellAt m y' x' := by
  rw [Vga.cellAt]
  split_ifs with h
  · rw [h.1, h.2, Mem.store16_low, Mem.store16_high]
  · have hne : y' * 80 + x' ≠ y * 80 + x := by omega
    rw [Mem.store16_of_outside _ _ (by simp only [Vga.cellAddr]; omega),
      Mem.store16_of_outside _ _ (by simp only [Vga.cellAddr]; omega)]
    rfl

/-- Filling a row with blanks changes no other. -/
theorem cellAt_blankRow (m : Mem) (attrib : Nat) (hx : x < 80) :
    Vga.cellAt (memsetw m (Vga.cellAddr y 0) (Vga.blank attrib) 80) y' x =
      if y' = y then (0x20, UInt8.ofNat attrib) else Vga.cellAt m y' x := by
  rw [Vga.cellAt]
  split_ifs with h
  · obtain ⟨hlow, hhigh⟩ := memsetw_apply m (Vga.cellAddr y 0) (Vga.blank attrib) hx
    obtain ⟨hchar, hattr⟩ := char_attrib 0x20 attrib (by decide)
    have haddr : Vga.cellAddr y' x = Vga.cellAddr y 0 + 2 * x := by
      rw [h, Vga.cellAddr, Vga.cellAddr]
      omega
    rw [haddr, hlow, hhigh, Vga.blank, hchar, hattr]
    rfl
  · rw [memsetw_of_outside fun i hi => by simp only [Vga.cellAddr]; omega,
      memsetw_of_outside fun i hi => by simp only [Vga.cellAddr]; omega]
    rfl

theorem blankRow_screenOnly (m : Mem) (val : Nat) (hy : y < 25) :
    ScreenOnly m (memsetw m (Vga.cellAddr y 0) val 80) := by
  intro a ha
  rw [memsetw_of_outside fun i hi => by simp only [Vga.cellAddr]; omega]

/-! ## Calls

A call is put together from few motions: the cursor goes to the next row, or moves within its row,
or a character is written where it is.  Each keeps the screen showing the console, and scrolling
comes in at one place only, where the cursor leaves the last row.  The run is then an induction on
the list of calls. -/

theorem ScreenOnly.trans {m' m'' : Mem} (h : ScreenOnly m m') (h' : ScreenOnly m' m'') :
    ScreenOnly m m'' := fun a ha => (h' a ha).trans (h a ha)

theorem ScreenOnly.refl (m : Mem) : ScreenOnly m m := fun _ _ => rfl

/-- The screen moved up by a row. -/
theorem cellAt_scroll (hy : s.csrY = 25) (hy' : y < 25) (hx : x < 80) :
    s.scroll.cell y x =
      if y + 1 < 25 then s.cell (y + 1) x else (0x20, UInt8.ofNat s.attrib) := by
  rw [Vga.scroll, if_pos hy.ge, hy, Vga.cell]
  simp only [show u32 (25 + 0x100000000 - (25 - 25 + 1)) = 24 from rfl,
    show 25 - 25 + 1 = 1 from rfl]
  rw [cellAt_blankRow _ _ hx]
  by_cases hlast : y + 1 < 25
  · have hcopy : ∀ i < 24 * 80 * 2, memcpy s.mem textmemptr (Vga.cellAddr 1 0) (24 * 80 * 2)
        (textmemptr + i) = s.mem (Vga.cellAddr 1 0 + i) :=
      fun i hi => memcpy_apply (by decide) (by decide) (Or.inl (by decide)) hi
    rw [if_neg (by omega), if_pos hlast, Vga.cell, Vga.cellAt, Vga.cellAt,
      show Vga.cellAddr y x = textmemptr + (2 * (y * 80 + x)) from rfl, Nat.add_assoc,
      hcopy _ (by omega), hcopy _ (by omega)]
    refine Prod.ext (congrArg s.mem ?_) (congrArg s.mem ?_)
    · simp only [Vga.cellAddr]
      omega
    · simp only [Vga.cellAddr]
      omega
  · rw [if_pos (by omega), if_neg hlast]

theorem scroll_screenOnly (hy : s.csrY ≤ 25) : ScreenOnly s.mem s.scroll.mem := by
  rw [Vga.scroll]
  split_ifs with h
  · rw [Nat.le_antisymm hy h]
    simp only [show u32 (25 + 0x100000000 - (25 - 25 + 1)) = 24 from rfl]
    refine ScreenOnly.trans (fun a ha => ?_) (blankRow_screenOnly _ _ (by decide))
    exact memcpy_of_outside (by decide) (by simp only [textmemptr] at *; omega)
  · exact ScreenOnly.refl _

/-- **The cursor leaves a row**: the screen scrolls where the console gets a new row. -/
theorem Shows.down (h : Shows s t) :
    Shows { s with csrX := 0, csrY := s.csrY + 1 }.scroll
        { t with terminal := t.terminal.down t.blank } ∧
      ScreenOnly s.mem { s with csrX := 0, csrY := s.csrY + 1 }.scroll.mem := by
  have hlt := h.onScreen.screenRow_lt
  have hview := Terminal.view_down h.onScreen t.blank
  have honly := scroll_screenOnly (s := { s with csrX := 0, csrY := s.csrY + 1 })
    (by rw [h.row]; exact hlt)
  refine ⟨?_, honly⟩
  rcases Nat.lt_or_ge (s.csrY + 1) 25 with hroom | hfull
  · rw [if_pos (h.row ▸ hroom)] at hview
    rw [Vga.scroll, if_neg (Nat.not_le.mpr hroom)]
    exact {
      onScreen := h.onScreen.down _
      col_lt := Nat.zero_lt_succ 79
      col := (Terminal.down_col ..).symm
      row := by rw [hview.1, ← h.row]
      attr := h.attr
      cell := fun y hy x hx => (h.cell y hy x hx).trans (hview.2 y hy x).symm }
  · have hlast : s.csrY + 1 = 25 := by
      rw [h.row] at hfull ⊢
      exact Nat.le_antisymm hlt hfull
    rw [if_neg (h.row ▸ Nat.not_lt.mpr hfull)] at hview
    have hrow : Vga.csrY (Vga.scroll { s with csrX := 0, csrY := s.csrY + 1 }) = 24 := by
      rw [Vga.scroll, if_pos hfull]
    exact {
      onScreen := h.onScreen.down _
      col_lt := by rw [Vga.scroll, if_pos hfull]; exact Nat.zero_lt_succ 79
      col := by rw [Vga.scroll, if_pos hfull]; exact (Terminal.down_col ..).symm
      row := by rw [hrow, hview.1, ← h.row]; omega
      attr := by rw [Vga.scroll, if_pos hfull]; exact h.attr
      cell := fun y hy x hx => by
        rw [cellAt_scroll hlast hy hx, hview.2 y hy x]
        split_ifs with hnext
        · exact h.cell (y + 1) hnext x hx
        · exact Prod.ext rfl h.attr }

/-- The cursor moves within its row. -/
theorem Shows.moveTo (h : Shows s t) {x : Nat} (hx : x < 80) :
    Shows { s with csrX := x } { t with terminal := t.terminal.moveTo x } where
  onScreen := h.onScreen.moveTo x
  col_lt := hx
  col := rfl
  row := h.row
  attr := h.attr
  cell := h.cell

/-- A character is written at the cursor. -/
theorem Shows.put (h : Shows s t) (c : UInt8) :
    Shows { s with mem := s.mem.store16 (Vga.cellAddr s.csrY s.csrX) (c.toNat ||| s.attrib <<< 8) }
      { t with terminal := t.terminal.put (c, t.attr) } where
  onScreen := h.onScreen.put _
  col_lt := h.col_lt
  col := h.col
  row := h.row
  attr := h.attr
  cell := fun y hy x hx => by
    obtain ⟨hchar, hattr⟩ := char_attrib c.toNat s.attrib c.toNat_lt
    rw [Terminal.view_put h.onScreen, Vga.cell, cellAt_store16 _ _ h.col_lt hx, hchar, hattr,
      h.attr, h.row, h.col, UInt8.ofNat_toNat]
    split_ifs
    · rfl
    · exact h.cell y hy x hx

/-- **The wrap**, and the scrolling that may come with it: a cursor in column 80 goes to the next
row, and in any other column stays where it is. -/
theorem Shows.advance (h : Shows s t) {x : Nat} (hx : x ≤ 80) :
    Shows ({ s with csrX := x }.wrap.scroll) (t.advance x) ∧
      ScreenOnly s.mem ({ s with csrX := x }.wrap.scroll).mem := by
  have hlt := h.onScreen.screenRow_lt
  rw [Vga.wrap, Console.advance]
  rcases Nat.lt_or_eq_of_le hx with hx | rfl
  · rw [if_neg (Nat.not_le.mpr hx), if_pos hx, Vga.scroll, if_neg (by simp only [h.row]; omega)]
    exact ⟨h.moveTo hx, ScreenOnly.refl _⟩
  · rw [if_pos le_rfl, if_neg (Nat.lt_irrefl 80)]
    exact h.down

theorem Shows.moveCsr (h : Shows s t) : Shows s.moveCsr t := ⟨h.1, h.2, h.3, h.4, h.5, h.6⟩

/-- The tab stops are the multiples of 8. -/
theorem tab_stop : ∀ x < 80, (x + 8) &&& 0xFFFFFFF8 = x / 8 * 8 + 8 := by decide

theorem cellAddr_screenOnly (m : Mem) (v : Nat) (hy : y < 25) (hx : x < 80) :
    ScreenOnly m (m.store16 (Vga.cellAddr y x) v) := fun a ha =>
  Mem.store16_of_outside m v (by simp only [Vga.cellAddr]; omega)

/-- Without a wrap there is nothing to scroll. -/
theorem Shows.stay (h : Shows s t) : s.wrap.scroll = s := by
  have hlt := h.onScreen.screenRow_lt
  have hwrap : s.wrap = s := if_neg (Nat.not_le.mpr h.col_lt)
  rw [hwrap, Vga.scroll, if_neg (by rw [h.row]; omega)]

/-- **`writech` writes on the console**: backspace, tab, return, newline and printable characters do
to the screen what they do to the console, and the others do nothing. -/
theorem Shows.writech (h : Shows s t) (c : UInt8) :
    Shows (s.writech c) (t.write c) ∧ ScreenOnly s.mem (s.writech c).mem := by
  have hsame : ∀ {s' : Vga} {t' : Console}, s'.mem = s.mem → Shows s' t' →
      Shows s'.wrap.scroll.moveCsr t' ∧ ScreenOnly s.mem s'.wrap.scroll.moveCsr.mem := by
    intro s' t' hmem hshows
    rw [hshows.stay]
    exact ⟨hshows.moveCsr, by rw [← hmem]; exact ScreenOnly.refl _⟩
  rw [Vga.writech, Vga.place, Console.write]
  by_cases hback : c = 0x08
  · rw [if_pos hback, if_pos hback, ← h.col]
    by_cases hzero : s.csrX = 0
    · rw [if_neg (not_not.mpr hzero)]
      refine hsame rfl ⟨h.onScreen.moveTo _, h.col_lt, ?_, h.row, h.attr, h.cell⟩
      rw [hzero]
      rfl
    · rw [if_pos hzero]
      exact hsame rfl (h.moveTo (by have := h.col_lt; omega))
  rw [if_neg hback, if_neg hback]
  by_cases htab : c = 0x09
  · rw [if_pos htab, if_pos htab, ← h.col, tab_stop s.csrX h.col_lt]
    have hadvance := h.advance (x := s.csrX / 8 * 8 + 8) (by have := h.col_lt; omega)
    exact ⟨hadvance.1.moveCsr, hadvance.2⟩
  rw [if_neg htab, if_neg htab]
  by_cases hreturn : c = 0x0D
  · rw [if_pos hreturn, if_pos hreturn]
    exact hsame rfl (h.moveTo (by decide))
  rw [if_neg hreturn, if_neg hreturn]
  by_cases hnewline : c = 0x0A
  · rw [if_pos hnewline, if_pos hnewline]
    have hwrap : ({ s with csrX := 0, csrY := s.csrY + 1 } : Vga).wrap =
        { s with csrX := 0, csrY := s.csrY + 1 } := if_neg (Nat.not_le.mpr (Nat.zero_lt_succ 79))
    rw [hwrap]
    exact ⟨h.down.1.moveCsr, h.down.2⟩
  rw [if_neg hnewline, if_neg hnewline]
  by_cases hprint : 0x20 ≤ c
  · rw [if_pos hprint, if_pos hprint, ← h.col]
    have hadvance := (h.put c).advance (x := s.csrX + 1) h.col_lt
    have hlt := h.onScreen.screenRow_lt
    have honly := cellAddr_screenOnly s.mem (c.toNat ||| s.attrib <<< 8) (h.row ▸ hlt) h.col_lt
    exact ⟨hadvance.1.moveCsr, honly.trans hadvance.2⟩
  · rw [if_neg hprint, if_neg hprint]
    exact hsame rfl h

/-- `cls` clears the console. -/
theorem Shows.cls (h : Shows s t) :
    Shows s.cls { t with terminal := t.terminal.clear 25 t.blank } ∧
      ScreenOnly s.mem s.cls.mem := by
  have hloop : ∀ i ≤ 25, ScreenOnly s.mem (Vga.clsLoop s.mem s.attrib i) ∧
      ∀ y < i, ∀ x < 80, Vga.cellAt (Vga.clsLoop s.mem s.attrib i) y x =
        (0x20, UInt8.ofNat s.attrib) := by
    intro i
    induction i with
    | zero => exact fun _ => ⟨ScreenOnly.refl _, fun y hy => absurd hy (Nat.not_lt_zero y)⟩
    | succ i ih =>
      intro hi
      obtain ⟨honly, hblank⟩ := ih (Nat.le_of_succ_le hi)
      rw [Vga.clsLoop]
      refine ⟨honly.trans (blankRow_screenOnly _ _ hi), fun y hy x hx => ?_⟩
      rw [cellAt_blankRow _ _ hx]
      split_ifs with hlast
      · rfl
      · exact hblank y (by omega) x hx
  obtain ⟨honly, hblank⟩ := hloop 25 le_rfl
  obtain ⟨hrow, hview⟩ := Terminal.view_clear 25 t.blank t.terminal
  refine ⟨?_, honly⟩
  exact {
    onScreen := Terminal.OnScreen.clear (by decide) _ _
    col_lt := Nat.zero_lt_succ 79
    col := rfl
    row := hrow.symm
    attr := h.attr
    cell := fun y hy x hx => by
      rw [hview y x, Console.blank, ← h.attr]
      exact hblank y hy x hx }

/-- The attribute byte of two colours. -/
theorem attrib_eq (forecolor backcolor : UInt8) :
    backcolor.toNat <<< 4 ||| forecolor.toNat &&& 0x0F =
      16 * backcolor.toNat + forecolor.toNat % 16 := by
  have hmask : forecolor.toNat &&& 0x0F = forecolor.toNat % 16 :=
    Nat.and_two_pow_sub_one_eq_mod forecolor.toNat 4
  have hlow : forecolor.toNat % 16 < 2 ^ 4 := Nat.mod_lt _ (by decide)
  rw [hmask, ← Nat.shiftLeft_add_eq_or_of_lt hlow, Nat.shiftLeft_eq, Nat.mul_comm]

/-- **A call keeps the screen showing the console**, and writes to nothing but the cells of the
screen. -/
theorem Shows.perform (h : Shows s t) (call : VgaCall) :
    Shows (s.perform call) (t.perform call) ∧ ScreenOnly s.mem (s.perform call).mem := by
  cases call with
  | writech c => exact h.writech c
  | settextcolor forecolor backcolor =>
    refine ⟨⟨h.onScreen, h.col_lt, h.col, h.row, ?_, h.cell⟩, ScreenOnly.refl _⟩
    rw [Vga.perform, Vga.settextcolor, Console.perform, attrib_eq]
  | cls => exact h.cls

theorem Shows.run (h : Shows s t) (calls : List VgaCall) :
    Shows (calls.foldl Vga.perform s) (calls.foldl Console.perform t) ∧
      ScreenOnly s.mem (calls.foldl Vga.perform s).mem := by
  induction calls generalizing s t with
  | nil => exact ⟨h, ScreenOnly.refl _⟩
  | cons call calls ih =>
    obtain ⟨hshows, honly⟩ := h.perform call
    obtain ⟨hrun, honly'⟩ := ih hshows
    exact ⟨hrun, honly.trans honly'⟩

theorem shows_ofScreen (hx : s.csrX < 80) (hy : s.csrY < 25) : Shows s (Console.ofScreen s) where
  onScreen := ⟨le_rfl, Nat.zero_le _, hy⟩
  col_lt := hx
  col := rfl
  row := rfl
  attr := rfl
  cell y _ x _ := by
    rw [Terminal.view, Console.ofScreen]
    simp only [Nat.sub_self, Nat.zero_add]

end

/-- **The screen shows the last 25 rows** of a terminal without a limit that starts with the same
rows and cursor and gets the same calls; and whatever the memory holds, only the cells of the screen
are written to. -/
theorem screen_shows (s : Vga) (hx : s.csrX < 80) (hy : s.csrY < 25) (calls : List VgaCall) :
    (calls.foldl Vga.perform s).csrX < 80 ∧ (calls.foldl Vga.perform s).csrY < 25 ∧
    ScreenOnly s.mem (calls.foldl Vga.perform s).mem ∧
    (calls.foldl Vga.perform s).csrX =
      (calls.foldl Console.perform (Console.ofScreen s)).terminal.col ∧
    (calls.foldl Vga.perform s).csrY =
      (calls.foldl Console.perform (Console.ofScreen s)).terminal.screenRow 25 ∧
    ∀ y < 25, ∀ x < 80, (calls.foldl Vga.perform s).cell y x =
      (calls.foldl Console.perform (Console.ofScreen s)).terminal.view 25 y x := by
  obtain ⟨hshows, honly⟩ := (shows_ofScreen hx hy).run calls
  exact ⟨hshows.col_lt, hshows.row ▸ hshows.onScreen.screenRow_lt, honly, hshows.col, hshows.row,
    hshows.cell⟩

/-- `X`, a newline and `cls` on a screen of zeros. -/
theorem screen_shows_newline :
    ScreenOnly (fun _ => 0) ([.writech 0x58, .writech 0x0A, .cls].foldl Vga.perform
      { mem := fun _ => 0, attrib := 0x0F, csrX := 79, csrY := 24, cursor := (0, 0) }).mem :=
  (screen_shows { mem := fun _ => 0, attrib := 0x0F, csrX := 79, csrY := 24, cursor := (0, 0) }
    (by decide) (by decide) _).2.2.1

/-! ## Forced writing

`writechf` does what `writech` does to a printable character, but for the value that it puts into
the cell.  So the two are written as one function of that value, and the question is when the two
values have the same two bytes. -/

/-- The two screens have the same cells and the same cursor. -/
structure SameScreen (s s' : Vga) : Prop where
  cell : ∀ y < 25, ∀ x < 80, s.cell y x = s'.cell y x
  csrX : s.csrX = s'.csrX
  csrY : s.csrY = s'.csrY
  cursor : s.cursor = s'.cursor

/-- The value `v` in the cell at the cursor, and the cursor behind it. -/
def Vga.put (v : Nat) (s : Vga) : Vga :=
  { s with mem := s.mem.store16 (Vga.cellAddr s.csrY s.csrX) v, csrX := s.csrX + 1 }

section
variable {s : Vga} {c : UInt8}

theorem writechf_eq_put (c : UInt8) (s : Vga) :
    s.writechf c = (s.put (c.toNat ||| s.attrib)).wrap.scroll.moveCsr := rfl

theorem writech_eq_put (hc : 0x20 ≤ c) :
    s.writech c = (s.put (c.toNat ||| s.attrib <<< 8)).wrap.scroll.moveCsr := by
  have hne : ∀ b : UInt8, b < 0x20 → c ≠ b := fun b hb h => absurd hb (h ▸ UInt8.not_lt.mpr hc)
  rw [Vga.writech, Vga.place, if_neg (hne 0x08 (by decide)), if_neg (hne 0x09 (by decide)),
    if_neg (hne 0x0D (by decide)), if_neg (hne 0x0A (by decide)), if_pos hc]
  rfl

/-- The row of the character just written: one higher if the screen had to scroll. -/
def Vga.rowPut (s : Vga) : Nat := if s.csrX = 79 ∧ s.csrY = 24 then 23 else s.csrY

/-- The cell with the character just written. -/
theorem cell_put (hx : s.csrX < 80) (hy : s.csrY < 25) (v : Nat) :
    (s.put v).wrap.scroll.moveCsr.cell s.rowPut s.csrX =
      (UInt8.ofNat v, UInt8.ofNat (v / 0x100)) := by
  have hput : (s.put v).cell s.csrY s.csrX = (UInt8.ofNat v, UInt8.ofNat (v / 0x100)) := by
    rw [Vga.cell, Vga.put, cellAt_store16 _ _ hx hx, if_pos ⟨rfl, rfl⟩]
  change ((s.put v).wrap.scroll).cell s.rowPut s.csrX = _
  by_cases hwrap : 80 ≤ (s.put v).csrX
  · have hcol : s.csrX = 79 := by
      simp only [Vga.put] at hwrap
      omega
    rw [Vga.wrap, if_pos hwrap]
    by_cases hlast : s.csrY = 24
    · rw [cellAt_scroll (by simp only [Vga.put, hlast]) (by simp [Vga.rowPut, hcol, hlast]) hx,
        if_pos (by simp [Vga.rowPut, hcol, hlast]), ← hput]
      simp only [Vga.rowPut, hcol, hlast, and_self, if_true]
      rfl
    · rw [Vga.scroll, if_neg (by simp only [Vga.put]; omega), Vga.rowPut,
        if_neg fun h => hlast h.2, ← hput]
      rfl
  · rw [Vga.wrap, if_neg hwrap, Vga.scroll, if_neg (by simp only [Vga.put]; omega), Vga.rowPut,
      if_neg fun h => hwrap (by simp only [Vga.put, h.1]; omega), hput]

/-- A cell gets two bytes, whatever the value that is written there. -/
theorem put_congr {v v' : Nat} (hlow : UInt8.ofNat v = UInt8.ofNat v')
    (hhigh : UInt8.ofNat (v / 0x100) = UInt8.ofNat (v' / 0x100)) : s.put v = s.put v' := by
  have hstore : ∀ a, s.mem.store16 a v = s.mem.store16 a v' := fun a => by
    funext x
    rw [Mem.store16, Mem.store16, hlow, hhigh]
  rw [Vga.put, Vga.put, hstore]

/-- The bytes of a character with the attribute on top of it. -/
theorem char_or_attr (c : UInt8) (attr : Nat) :
    UInt8.ofNat (c.toNat ||| attr) = UInt8.ofNat c.toNat ↔ c.toNat ||| attr % 0x100 = c.toNat := by
  rw [← UInt8.toNat_inj, UInt8.toNat_ofNat', UInt8.toNat_ofNat', Nat.or_mod_two_pow,
    Nat.mod_eq_of_lt c.toNat_lt]

theorem high_or_attr (c : UInt8) (attr : Nat) : (c.toNat ||| attr) / 0x100 = attr / 0x100 := by
  rw [show 0x100 = 2 ^ 8 from rfl, Nat.or_div_two_pow, Nat.div_eq_of_lt c.toNat_lt, Nat.zero_or]

end

/-- **`writechf` leaves the attribute in the wrong byte.**  The bits of the attribute go on top of
the character and not next to it, which is the same screen only if the low byte of the attribute has
no bit that the character lacks, and the byte above it is the same. -/
theorem writechf_iff (s : Vga) (hx : s.csrX < 80) (hy : s.csrY < 25) (c : UInt8) (hc : 0x20 ≤ c) :
    SameScreen (s.writechf c) (s.writech c) ↔
      c.toNat ||| s.attrib % 0x100 = c.toNat ∧
      s.attrib / 0x100 % 0x100 = s.attrib % 0x100 := by
  obtain ⟨hchar, hattr⟩ := char_attrib c.toNat s.attrib c.toNat_lt
  rw [writechf_eq_put, writech_eq_put hc, ← char_or_attr]
  have hbyte : s.attrib / 0x100 % 0x100 = s.attrib % 0x100 ↔
      UInt8.ofNat (s.attrib / 0x100) = UInt8.ofNat s.attrib := by
    rw [← UInt8.toNat_inj, UInt8.toNat_ofNat', UInt8.toNat_ofNat']
  rw [hbyte]
  constructor
  · intro h
    have hrow : s.rowPut < 25 := by
      rw [Vga.rowPut]
      split_ifs <;> omega
    have hcell := h.cell s.rowPut hrow s.csrX hx
    rw [cell_put hx hy, cell_put hx hy, Prod.mk.injEq, hchar, hattr, high_or_attr] at hcell
    exact hcell
  · rintro ⟨hlow, hhigh⟩
    have hput : s.put (c.toNat ||| s.attrib) = s.put (c.toNat ||| s.attrib <<< 8) :=
      put_congr (by rw [hlow, hchar]) (by rw [high_or_attr, hhigh, hattr])
    rw [hput]
    exact ⟨fun _ _ _ _ => rfl, rfl, rfl, rfl⟩

/-- With attribute 0 the two agree. -/
theorem writechf_iff_black :
    SameScreen
      (Vga.writechf 0x41
        { mem := fun _ => 0, attrib := 0, csrX := 79, csrY := 24, cursor := (0, 0) })
      (Vga.writech 0x41
        { mem := fun _ => 0, attrib := 0, csrX := 79, csrY := 24, cursor := (0, 0) }) :=
  (writechf_iff { mem := fun _ => 0, attrib := 0, csrX := 79, csrY := 24, cursor := (0, 0) }
    (by decide) (by decide) 0x41 (by decide)).mpr (by decide)

/-- An `A` in white on black, the attribute the driver starts with, comes out as `O` on black. -/
theorem not_writechf :
    ¬ SameScreen
      (Vga.writechf 0x41
        { mem := fun _ => 0, attrib := 0x0F, csrX := 0, csrY := 0, cursor := (0, 0) })
      (Vga.writech 0x41
        { mem := fun _ => 0, attrib := 0x0F, csrX := 0, csrY := 0, cursor := (0, 0) }) :=
  fun h => absurd (h.cell 0 (by decide) 0 (by decide)) (by decide)

end MyaXOS
