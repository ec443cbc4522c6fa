import MyaXOS.Kgets
import MyaXOS.Vga

/-!
# The line on the screen

While a line is typed it is in the buffer of `kgets` and, since the handler gives every character to
`writech`, on the screen as well.  The two are edited by different code.

* `Echo` is the state of both; `Echo.step` is a printable character or a backspace that arrives.
* `Echo.Shown` says that the cells from the end of the prompt on read what the buffer holds, and
  that those behind it are blank again.
* `shown_always_iff`: this is so as long as no backspace comes while the cursor is in column 0.  A
  backspace does not take the cursor to the row above.

The screen is a row of 2000 cells for this purpose, and the cursor has a number.  A printable
character goes to the cell at the cursor and the number grows by one, at the end of a row too.  To
take a character away the handler writes a backspace, a blank and another backspace.  In the middle
of a row these blank the cell before the cursor and leave the cursor on it.  In column 0 the first
of them does nothing, the blank goes to the cell of the cursor, and the second takes the cursor back
to where it was: a character is gone from the buffer, and is still on the screen.

`Shown` alone is not an invariant.  How many cells have to be blank depends on how far the line has
reached before, so the invariant remembers the greatest number of characters that the line has had.
A backspace in column 0 breaks the relation between the cursor and the line at once
(`Inv.not_shown`), which is the other direction.

Lines that make the screen scroll are left out: the prompt itself moves then.
-/

set_option autoImplicit false

namespace MyaXOS

/-! ## One character on the screen

The handler knows nothing of the screen, and the screen nothing of the line.  For the time being the
cells are numbered from the top left on, so that a character put on the screen moves the cursor by
one, and what backspace, blank and backspace do together is one fact with one exception: in column 0
the cursor cannot go back. -/

namespace Vga

/-- The number of the cell at the cursor. -/
def position (s : Vga) : Nat := 80 * s.csrY + s.csrX

/-- The character in a cell. -/
def charAt (s : Vga) (p : Nat) : UInt8 := (s.cell (p / 80) (p % 80)).1

/-- The cursor is on the screen. -/
def InRange (s : Vga) : Prop := s.csrX < 80 ∧ s.csrY < 25

variable {s : Vga} {c : UInt8}

/-- A character that does not make the screen scroll: the cursor moves on by one cell. -/
theorem writech_print (hc : 0x20 ≤ c) (hs : s.InRange) (hroom : s.position + 1 < 2000) :
    (s.writech c).InRange ∧ (s.writech c).position = s.position + 1 ∧
      ∀ p, (s.writech c).charAt p = if p = s.position then c else s.charAt p := by
  obtain ⟨hx, hy⟩ := hs
  obtain ⟨hchar, -⟩ := char_attrib c.toNat s.attrib c.toNat_lt
  have hcell : ∀ p, (s.put (c.toNat ||| s.attrib <<< 8)).charAt p =
      if p = s.position then c else s.charAt p := by
    intro p
    rw [charAt, cell, put, cellAt_store16 _ _ hx (Nat.mod_lt p (by decide)), charAt, cell]
    have hp : p / 80 = s.csrY ∧ p % 80 = s.csrX ↔ p = s.position := by
      rw [position]
      omega
    simp only [hp]
    split_ifs
    · rw [hchar, UInt8.ofNat_toNat]
    · rfl
  rw [position] at hroom
  rw [writech_eq_put hc]
  by_cases hwrap : s.csrX = 79
  · have hput : (s.put (c.toNat ||| s.attrib <<< 8)).wrap.scroll =
        { s.put (c.toNat ||| s.attrib <<< 8) with csrX := 0, csrY := s.csrY + 1 } := by
      rw [wrap, if_pos (by rw [put, hwrap]), scroll, if_neg (by simp only [put]; omega)]
      rfl
    rw [hput]
    refine ⟨⟨Nat.zero_lt_succ 79, show s.csrY + 1 < 25 by omega⟩, ?_, hcell⟩
    change 80 * (s.csrY + 1) + 0 = 80 * s.csrY + s.csrX + 1
    omega
  · have hput : (s.put (c.toNat ||| s.attrib <<< 8)).wrap.scroll =
        s.put (c.toNat ||| s.attrib <<< 8) := by
      rw [wrap, if_neg (by simp only [put]; omega), scroll, if_neg (by simp only [put]; omega)]
    rw [hput]
    exact ⟨⟨show s.csrX + 1 < 80 by omega, hy⟩, rfl, hcell⟩

/-- A backspace takes the cursor back within its row, and changes no cell. -/
theorem writech_backspace (hs : s.InRange) :
    (s.writech 0x08).InRange ∧ (s.writech 0x08).position = 80 * s.csrY + (s.csrX - 1) ∧
      ∀ p, (s.writech 0x08).charAt p = s.charAt p := by
  obtain ⟨hx, hy⟩ := hs
  have hplace : s.place 0x08 = { s with csrX := s.csrX - 1 } := by
    rw [place, if_pos rfl]
    split_ifs with hzero
    · rfl
    · rw [show s.csrX - 1 = s.csrX by omega]
  have hstay : (s.place 0x08).wrap.scroll = { s with csrX := s.csrX - 1 } := by
    rw [hplace, wrap, if_neg (by simp only; omega), scroll, if_neg (by simp only; omega)]
  rw [writech, hstay]
  exact ⟨⟨show s.csrX - 1 < 80 by omega, hy⟩, rfl, fun _ => rfl⟩

/-- The three characters with which the handler takes a character away. -/
def erase (s : Vga) : Vga := ((s.writech 0x08).writech 0x20).writech 0x08

/-- **The cell before the cursor is blanked**, unless the cursor is in column 0: it then stays
there, and the blank goes to its own cell. -/
theorem erase_eq (hs : s.InRange) :
    s.erase.InRange ∧ s.erase.position = 80 * s.csrY + (s.csrX - 1) ∧
      ∀ p, s.erase.charAt p = if p = 80 * s.csrY + (s.csrX - 1) then 0x20 else s.charAt p := by
  obtain ⟨hin, hpos, hchar⟩ := writech_backspace hs
  have hx := hs.1
  have hy := hs.2
  obtain ⟨hin', hpos', hchar'⟩ := writech_print (c := 0x20) (by decide) hin (by omega)
  obtain ⟨hin'', hpos'', hchar''⟩ := writech_backspace hin'
  refine ⟨hin'', ?_, fun p => ?_⟩
  · rw [position] at hpos'
    obtain ⟨hx', -⟩ := hin'
    rw [erase, hpos'']
    omega
  · rw [erase, hchar'', hchar', hpos, hchar]

end Vga

/-! ## The line and the screen

The invariant is that the cells from the prompt on hold the line, that the cursor is behind it, and
that cells which were used once are blank.  A character keeps it, and so does a backspace, unless
the cursor is in column 0; after such a backspace the cursor is one cell too far on.  Both together
give a condition that is exact for whole runs. -/

/-- The line buffer and the screen. -/
structure Echo where
  kgets : Kgets
  vga : Vga
  /-- How many characters were held at most. -/
  most : Nat

namespace Echo

/-- `kgets_handler(ch)`, with its calls of `writech`. -/
def handler (ch : UInt8) (s : Echo) : Echo :=
  let kgets := s.kgets.handler ch
  { kgets := kgets
    vga := (kgets.echo.drop s.kgets.echo.length).foldl (fun vga c => vga.writech c) s.vga
    most := max s.most kgets.collected }

/-- A backspace, or a printable character for which there is room in the buffer and, without
scrolling, on the screen. -/
def Accepts (ch : UInt8) (s : Echo) : Prop :=
  ch = 0x08 ∨ (0x20 ≤ ch ∧ ch ≤ 0x7E) ∧ s.kgets.collected < s.kgets.want ∧
    ¬ (s.vga.csrX = 79 ∧ s.vga.csrY = 24)

instance (ch : UInt8) (s : Echo) : Decidable (s.Accepts ch) :=
  inferInstanceAs (Decidable (_ ∨ _))

/-- A character arrives.  There is no step for the characters that are not accepted. -/
def step (ch : UInt8) (s : Echo) : Except Stop Echo :=
  if s.Accepts ch then .ok (s.handler ch) else .error .spin

/-- `kgets(buffer, want)` has installed the handler, on a screen with the cursor behind the prompt.
-/
def start (buffer : Nat → UInt8) (want : Nat) (vga : Vga) : Echo :=
  ⟨Kgets.start buffer want, vga, 0⟩

/-- **The screen shows the line**, from cell `prompt` on: the cursor is behind it, and the cells
that a backspace removed are blank. -/
structure Shown (prompt : Nat) (s : Echo) : Prop where
  cursor : s.vga.position = prompt + s.kgets.collected
  held : ∀ i < s.kgets.collected, s.vga.charAt (prompt + i) = s.kgets.buffer i
  blank : ∀ i, s.kgets.collected ≤ i → i < s.most → s.vga.charAt (prompt + i) = 0x20

/-- A backspace with which a character goes away comes when the cursor is not in column 0. -/
def Erases (ch : UInt8) (s : Echo) : Prop :=
  ch = 0x08 → s.kgets.collected ≠ 0 → s.vga.csrX ≠ 0

variable {s s' : Echo} {ch : UInt8} {prompt : Nat}

theorem step_eq_ok (h : s.step ch = .ok s') : s.Accepts ch ∧ s' = s.handler ch := by
  rw [step] at h
  split_ifs at h with haccepts
  exact ⟨haccepts, (Except.ok.inj h).symm⟩

/-- What arrives: a backspace with nothing to remove, one that removes a character, or a character
to hold. -/
theorem handler_accepted (h : s.Accepts ch) :
    (ch = 0x08 ∧ s.kgets.collected = 0 ∧ (s.handler ch).vga = s.vga ∧
      (s.handler ch).kgets = s.kgets ∧ (s.handler ch).most = s.most) ∨
    (ch = 0x08 ∧ s.kgets.collected ≠ 0 ∧ (s.handler ch).vga = s.vga.erase ∧
      (s.handler ch).kgets.collected = s.kgets.collected - 1 ∧
      (s.handler ch).kgets.buffer = Function.update s.kgets.buffer s.kgets.collected 0 ∧
      (s.handler ch).most = max s.most (s.kgets.collected - 1)) ∨
    (0x20 ≤ ch ∧ ¬ (s.vga.csrX = 79 ∧ s.vga.csrY = 24) ∧
      (s.handler ch).vga = s.vga.writech ch ∧
      (s.handler ch).kgets.collected = s.kgets.collected + 1 ∧
      (s.handler ch).kgets.buffer = Function.update s.kgets.buffer s.kgets.collected ch ∧
      (s.handler ch).most = max s.most (s.kgets.collected + 1)) := by
  rcases h with rfl | ⟨hprint, hroom, hscreen⟩
  · rcases handler_cases 0x08 s.kgets with ⟨-, heq⟩ | ⟨hprint, -⟩ | ⟨-, hne, -⟩
    · by_cases hzero : s.kgets.collected = 0
      · rw [if_neg (not_not.mpr hzero)] at heq
        refine Or.inl ⟨rfl, hzero, ?_, heq, ?_⟩
        · rw [handler, heq, List.drop_length, List.foldl_nil]
        · rw [handler, heq, hzero, Nat.max_zero]
      · rw [if_pos hzero] at heq
        refine Or.inr (Or.inl ⟨rfl, hzero, ?_, ?_, ?_, ?_⟩)
        · rw [handler, heq, List.drop_left]
          rfl
        all_goals rw [handler, heq]
    · exact absurd hprint.1 (by decide)
    · exact absurd rfl hne
  · have hhigh : ch ≤ 0x7F := UInt8.le_trans hprint.2 (by decide)
    rcases handler_cases ch s.kgets with ⟨rfl, -⟩ | ⟨-, -, heq⟩ | ⟨hnot, -⟩
    · exact absurd hprint.1 (by decide)
    · rw [if_pos hroom] at heq
      refine Or.inr (Or.inr ⟨hprint.1, hscreen, ?_, ?_, ?_, ?_⟩)
      · rw [handler, heq, List.drop_left]
        rfl
      all_goals rw [handler, heq]
    · exact absurd ⟨hprint.1, hhigh⟩ hnot

/-- What holds while the screen shows the line.  Besides what is to be shown, the induction needs
that the cursor is on the screen, and that `most` is as large as it should be. -/
structure Inv (prompt : Nat) (s : Echo) : Prop where
  shown : s.Shown prompt
  inRange : s.vga.InRange
  most : s.kgets.collected ≤ s.most

/-- **A character keeps the screen showing the line.**  It goes to the cell behind the line, and a
backspace blanks the last cell of the line; what lies behind is blank before and after. -/
theorem Inv.handler (h : s.Inv prompt) (haccepts : s.Accepts ch) (herases : s.Erases ch) :
    (s.handler ch).Inv prompt := by
  obtain ⟨⟨hcursor, hheld, hblank⟩, hin, hmost⟩ := h
  rcases handler_accepted haccepts with ⟨-, hzero, hvga, hkgets, hmost'⟩ |
    ⟨hch, hpos, hvga, hcollected, hbuffer, hmost'⟩ |
    ⟨hprint, hscreen, hvga, hcollected, hbuffer, hmost'⟩
  · exact {
      shown := {
        cursor := by rw [hvga, hkgets, hcursor]
        held := by rw [hvga, hkgets]; exact hheld
        blank := by rw [hvga, hkgets, hmost']; exact hblank }
      inRange := by rw [hvga]; exact hin
      most := by rw [hkgets, hmost']; exact hmost }
  · have hx := herases hch hpos
    obtain ⟨hin', hpos', hchar⟩ := Vga.erase_eq hin
    rw [Vga.position] at hcursor
    have hlast : 80 * s.vga.csrY + (s.vga.csrX - 1) = prompt + (s.kgets.collected - 1) := by omega
    rw [hlast] at hpos' hchar
    refine ⟨⟨?_, fun i hi => ?_, fun i hi hlt => ?_⟩, ?_, ?_⟩
    · rw [hvga, hcollected, hpos']
    · rw [hcollected] at hi
      rw [hvga, hbuffer, hchar, if_neg (by omega), Function.update_of_ne (by omega)]
      exact hheld i (by omega)
    · rw [hcollected] at hi
      rw [hmost'] at hlt
      rw [hvga, hchar]
      split_ifs with hcell
      · rfl
      · exact hblank i (by omega) (by omega)
    · rw [hvga]
      exact hin'
    · rw [hcollected, hmost']
      exact Nat.le_max_right _ _
  · have hroom : s.vga.position + 1 < 2000 := by
      obtain ⟨hx, hy⟩ := hin
      rw [Vga.position]
      omega
    obtain ⟨hin', hpos', hchar⟩ := Vga.writech_print hprint hin hroom
    refine ⟨⟨?_, fun i hi => ?_, fun i hi hlt => ?_⟩, ?_, ?_⟩
    · rw [hvga, hcollected, hpos', hcursor, Nat.add_assoc]
    · rw [hcollected] at hi
      rw [hvga, hbuffer, hchar, hcursor]
      rcases Nat.lt_or_eq_of_le (Nat.lt_succ_iff.mp hi) with hlt | rfl
      · rw [if_neg (by omega), Function.update_of_ne hlt.ne]
        exact hheld i hlt
      · rw [if_pos rfl, Function.update_self]
    · rw [hcollected] at hi
      rw [hmost'] at hlt
      rw [hvga, hchar, hcursor, if_neg (by omega)]
      exact hblank i (by omega) (by omega)
    · rw [hvga]
      exact hin'
    · rw [hcollected, hmost']
      exact Nat.le_max_right _ _

/-- **In column 0 the screen and the line come apart**: one character goes away, and the cursor does
not move. -/
theorem Inv.not_shown (h : s.Inv prompt) (hch : ch = 0x08) (hpos : s.kgets.collected ≠ 0)
    (hx : s.vga.csrX = 0) : ¬ (s.handler ch).Shown prompt := by
  intro hshown
  have hcursor := h.shown.cursor
  have hcursor' := hshown.cursor
  rcases handler_accepted (s := s) (Or.inl hch) with ⟨-, hzero, -⟩ | ⟨-, -, hvga, hcollected, -⟩ |
    ⟨hprint, -⟩
  · exact hpos hzero
  · rw [hvga, (Vga.erase_eq h.inRange).2.1, hcollected] at hcursor'
    rw [Vga.position] at hcursor
    omega
  · rw [hch] at hprint
    exact absurd hprint (by decide)

end Echo

/-- **The screen shows the line as long as no backspace comes in column 0**, whatever characters are
typed, wherever the prompt has left the cursor and whatever is on the screen. -/
theorem shown_always_iff (buffer : Nat → UInt8) (want : Nat) (vga : Vga) (hvga : vga.InRange)
    (chs : List UInt8) :
    Runs.Always Echo.step (Echo.Shown vga.position) chs (Echo.start buffer want vga) ↔
      Runs.Along Echo.step (fun ch s => s.Accepts ch → s.Erases ch) chs
        (Echo.start buffer want vga) := by
  refine Runs.always_iff_along (I := Echo.Inv vga.position) (fun ch s s' h herases hstep => ?_)
    (fun s h => h.shown) (fun ch s h herases => ?_) ?_
  · obtain ⟨haccepts, rfl⟩ := Echo.step_eq_ok hstep
    exact h.handler haccepts (herases haccepts)
  · simp only [Echo.Erases, Classical.not_imp, not_not] at herases
    obtain ⟨haccepts, hch, hpos, hx⟩ := herases
    exact ⟨_, if_pos haccepts, h.not_shown hch hpos hx⟩
  · exact ⟨⟨rfl, fun i hi => absurd hi (Nat.not_lt_zero i), fun i _ hi => absurd hi
      (Nat.not_lt_zero i)⟩, hvga, le_rfl⟩

/-- A letter and a backspace behind the prompt. -/
theorem shown_always_iff_a :
    Runs.Always Echo.step (Echo.Shown 10) [0x61, 0x08] (Echo.start (fun _ => 0) 1023
      { mem := fun _ => 0, attrib := 0x0F, csrX := 10, csrY := 0, cursor := (0, 0) }) := by
  refine (shown_always_iff (fun _ => 0) 1023
    { mem := fun _ => 0, attrib := 0x0F, csrX := 10, csrY := 0, cursor := (0, 0) }
    ⟨by decide, by decide⟩ _).mpr ⟨fun _ h => absurd h (by decide), ?_⟩
  rintro _ ⟨⟩
  exact ⟨fun _ _ _ => by decide, fun _ _ => trivial⟩

/-- A letter in the last column, and a backspace: the letter stays on the screen. -/
theorem not_shown_always :
    ¬ Runs.Always Echo.step (Echo.Shown 79) [0x61, 0x08] (Echo.start (fun _ => 0) 1023
      { mem := fun _ => 0, attrib := 0x0F, csrX := 79, csrY := 0, cursor := (0, 0) }) := by
  intro h
  have h₁ := h.2 _ rfl
  have h₂ := h₁.2 _ rfl
  exact absurd h₂.cursor (by decide)

end MyaXOS
