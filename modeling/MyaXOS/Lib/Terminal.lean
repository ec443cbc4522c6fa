import Mathlib.Tactic.SplitIfs

/-!
# A terminal that forgets nothing

A `Terminal` has as many rows as have been written, and a cursor.  The cursor moves within a row and
down; when it moves below the last row there is a new one.

* `view n t` is what a screen of `n` rows shows: the last `n` rows.  `OnScreen n t` says that the
  cursor is in one of them, the row `screenRow n t` of the screen.
* Each operation on the terminal is described by what it does to the view: `view_put`, `view_down`
  and `view_clear`.  Moving down either moves the cursor or moves the view.

A screen that scrolls forgets its first row, and a description of it has to say after each line what
has become of every cell.  A terminal does not scroll.  Its rows are written and stay, and the
screen is a window on the end of it; that a row has moved up by one is a fact about the window.  So
a program that writes to a screen can be specified by what it has written, and `view` is the
relation in which the cells of the screen have to be to it.

The rows have any width, and the cells are of any type.  A row that is new is blank, and what a
blank cell is may change from row to row, for a screen whose background colour is set.
-/

set_option autoImplicit false

universe u

/-- Rows of cells, without a limit, and a cursor.  New rows come at the bottom and none goes away,
so that scrolling is a matter of which rows are looked at. -/
structure Terminal (κ : Type u) where
  cell : Nat → Nat → κ
  height : Nat
  row : Nat
  col : Nat

namespace Terminal

variable {κ : Type u}

/-- Write a cell at the cursor. -/
def put (k : κ) (t : Terminal κ) : Terminal κ :=
  { t with cell := fun r x => if r = t.row ∧ x = t.col then k else t.cell r x }

/-- Move the cursor within its row. -/
def moveTo (x : Nat) (t : Terminal κ) : Terminal κ := { t with col := x }

/-- Move the cursor to the start of the next row, which is new and blank if there is none. -/
def down (blank : κ) (t : Terminal κ) : Terminal κ :=
  if t.row + 1 < t.height then { t with row := t.row + 1, col := 0 }
  else
    { cell := fun r x => if r < t.height then t.cell r x else blank
      height := t.height + 1
      row := t.row + 1
      col := 0 }

/-- Add `n` blank rows and move the cursor to the start of the first. -/
def clear (n : Nat) (blank : κ) (t : Terminal κ) : Terminal κ where
  cell := fun r x => if r < t.height then t.cell r x else blank
  height := t.height + n
  row := t.height
  col := 0

/-- What a screen of `n` rows shows. -/
def view (n : Nat) (t : Terminal κ) (y x : Nat) : κ := t.cell (t.height - n + y) x

/-- The row of the screen the cursor is in. -/
def screenRow (n : Nat) (t : Terminal κ) : Nat := t.row - (t.height - n)

/-- The cursor is in one of the last `n` rows, and there are so many: what is needed for the last
`n` rows to be a screen with the cursor on it. -/
structure OnScreen (n : Nat) (t : Terminal κ) : Prop where
  le_height : n ≤ t.height
  le_row : t.height - n ≤ t.row
  row_lt : t.row < t.height

variable {n : Nat} {t : Terminal κ}

theorem OnScreen.screenRow_lt (h : OnScreen n t) : screenRow n t < n := by
  have := h.le_height
  have := h.le_row
  have := h.row_lt
  rw [screenRow]
  omega

theorem OnScreen.put (h : OnScreen n t) (k : κ) : OnScreen n (t.put k) := ⟨h.1, h.2, h.3⟩

theorem OnScreen.moveTo (h : OnScreen n t) (x : Nat) : OnScreen n (t.moveTo x) := ⟨h.1, h.2, h.3⟩

/-- A cell that is written shows at the cursor. -/
theorem view_put (h : OnScreen n t) (k : κ) (y x : Nat) :
    view n (t.put k) y x = if y = screenRow n t ∧ x = t.col then k else view n t y x := by
  have hrow : t.height - n + y = t.row ↔ y = screenRow n t := by
    have := h.le_row
    rw [screenRow]
    omega
  rw [view, Terminal.put]
  simp only [hrow]
  rfl

theorem OnScreen.down (h : OnScreen n t) (blank : κ) : OnScreen n (t.down blank) := by
  obtain ⟨hheight, hle, hlt⟩ := h
  rw [Terminal.down]
  split_ifs with hrow
  · exact ⟨hheight, Nat.le_succ_of_le hle, hrow⟩
  · exact ⟨Nat.le_succ_of_le hheight, by simp only; omega, Nat.succ_lt_succ hlt⟩

theorem down_col (blank : κ) (t : Terminal κ) : (t.down blank).col = 0 := by
  rw [down]
  split_ifs <;> rfl

/-- **Moving down** moves the cursor, or else the rows of the screen, with a blank row coming in. -/
theorem view_down (h : OnScreen n t) (blank : κ) :
    if screenRow n t + 1 < n then
      screenRow n (t.down blank) = screenRow n t + 1 ∧
        ∀ y < n, ∀ x, view n (t.down blank) y x = view n t y x
    else
      screenRow n (t.down blank) = screenRow n t ∧
        ∀ y < n, ∀ x, view n (t.down blank) y x =
          if y + 1 < n then view n t (y + 1) x else blank := by
  have hiff : screenRow n t + 1 < n ↔ t.row + 1 < t.height := by
    have := h.le_height
    have := h.le_row
    rw [screenRow]
    omega
  obtain ⟨hheight, hle, hlt⟩ := h
  by_cases hrow : t.row + 1 < t.height
  · rw [if_pos (hiff.mpr hrow), down, if_pos hrow]
    exact ⟨by simp only [screenRow]; omega, fun y _ x => rfl⟩
  · rw [if_neg fun hs => hrow (hiff.mp hs), down, if_neg hrow]
    refine ⟨by simp only [screenRow]; omega, fun y hy x => ?_⟩
    simp only [view, show t.height + 1 - n + y = t.height - n + (y + 1) by omega]
    simp only [show t.height - n + (y + 1) < t.height ↔ y + 1 < n by omega]

theorem OnScreen.clear (hn : 0 < n) (blank : κ) (t : Terminal κ) :
    OnScreen n (t.clear n blank) where
  le_height := Nat.le_add_left n t.height
  le_row := by simp only [Terminal.clear, Nat.add_sub_cancel, Nat.le_refl]
  row_lt := Nat.lt_add_of_pos_right hn

/-- After clearing, the screen is blank and the cursor in its first row. -/
theorem view_clear (n : Nat) (blank : κ) (t : Terminal κ) :
    screenRow n (t.clear n blank) = 0 ∧ ∀ y x, view n (t.clear n blank) y x = blank := by
  refine ⟨by simp only [screenRow, clear, Nat.add_sub_cancel, Nat.sub_self], fun y x => ?_⟩
  rw [view, clear]
  simp only [Nat.add_sub_cancel, Nat.not_lt.mpr (Nat.le_add_right ..), if_false]

end Terminal
