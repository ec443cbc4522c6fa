import Mathlib.Data.List.Infix
import MyaXOS.Lib.Run
import MyaXOS.Strings

/-!
# Reading a line

`kgets` installs `kgets_handler` and waits; the handler runs in the interrupts of the keyboard and
of the serial port and fills the buffer.  The two share `kgets_collected`, `kgets_newline` and the
buffer, and an interrupt may come between any two steps of `kgets`.

* `Kgets` is the state of both; `KgetsEvent` is a step of `kgets` or a character from one of the two
  devices.
* `editLine` says which line a sequence of characters means.
* `Editing` holds until the first newline and `Entered` from there on.  The handler goes on editing
  the line as long as it is installed, whatever `kgets_newline` says, so `Entered` is kept only by
  characters that leave the line alone, which is what `KgetsEvent.Harmless` asks for.
* `kgets_line` puts this together.
* `kgets_bounded` is about the buffer itself, and holds in every run: it has the line that the
  characters mean when it is full, and nothing behind it is written to.

**The interleaving.**  `kgets` is a program with a program counter, and a run is any list of events:
steps of `kgets` and characters, in any order.  A character that arrives while no handler is
installed goes nowhere.  So the handler may run before `kgets` has looked at the newline, between
its test and its next statements, or after it has removed the handler.  What an event does is said
once, by cases (`perform_cases`), and each of the invariants is read off.

**Two invariants in a row.**  Until the first newline `kgets` stays in its loop, and what is in the
buffer is the line so far: every character edits it, and the events of `kgets` change nothing.  With
the newline the line is complete.  From there on there is a fixed number of steps to the return
(`KgetsPC.left`), and the line must not change until the handler is gone.  It does if a character
arrives that edits it, since the handler does not look at the newline that has come already.

**The buffer** is a separate matter.  Whether the line is right or not, the handler compares the
number of characters with the size before it writes, so nothing behind the buffer is ever written
to.  For this the line is one that has a limit: what comes when it is full is dropped
(`editBounded`).
-/

set_option autoImplicit false

namespace MyaXOS

/-- The next step of `kgets`. -/
inductive KgetsPC where
  /-- The test of the loop. -/
  | test
  /-- The `hlt` in the loop. -/
  | hlt
  /-- `buffer[kgets_collected] = '\0'`. -/
  | terminate
  /-- `keyboard_buffer_handler = NULL`. -/
  | uninstall
  /-- `return kgets_collected`. -/
  | ret
  /-- `kgets` has returned `count`. -/
  | done (count : Nat)
  deriving DecidableEq, Repr

/-- The variables of `kgets` and of its handler. -/
structure Kgets where
  /-- `kgets_buffer`. -/
  buffer : Nat → UInt8
  collected : Nat
  want : Nat
  newline : Bool
  /-- Is `keyboard_buffer_handler` the handler, or `NULL`? -/
  installed : Bool
  /-- The characters given to `writech`. -/
  echo : List UInt8
  pc : KgetsPC

/-- Something that happens while `kgets` runs. -/
inductive KgetsEvent where
  /-- A step of `kgets`. -/
  | step
  /-- A keyboard interrupt that calls `putch(c)`. -/
  | putch (c : UInt8)
  /-- A serial interrupt in which `serial_recv()` returns `c`. -/
  | serial (c : UInt8)
  deriving DecidableEq, Repr

/-- The character `serial_handler` passes on. -/
def serialChar (c : UInt8) : UInt8 := if c = 127 then 0x08 else if c = 13 then 0x0A else c

namespace Kgets

/-- `kgets(buffer, size)` at the moment the handler is installed. -/
def start (buffer : Nat → UInt8) (size : Nat) : Kgets where
  buffer := buffer
  collected := 0
  want := size
  newline := false
  installed := true
  echo := []
  pc := .test

/-- `kgets_handler(ch)`. -/
def handler (ch : UInt8) (s : Kgets) : Kgets :=
  if charValue ch = 0x08 then
    if s.collected ≠ 0 then
      { s with
        echo := s.echo ++ [0x08, 0x20, 0x08]
        buffer := Function.update s.buffer s.collected 0
        collected := s.collected - 1 }
    else s
  else if charValue ch = 0x0A then { s with newline := true, echo := s.echo ++ [0x0A] }
  else if charValue ch < 0x20 then { s with echo := s.echo ++ [0x5E, ch + 0x40] }
  else
    let s := { s with echo := s.echo ++ [ch] }
    if s.collected < s.want then
      { s with
        buffer := Function.update s.buffer s.collected ch
        collected := s.collected + 1 }
    else s

/-- `putch(c)`. -/
def putch (c : UInt8) (s : Kgets) : Kgets :=
  if s.installed then s.handler c else { s with echo := s.echo ++ [c] }

/-- `serial_handler`, on the character `c`. -/
def serialHandler (c : UInt8) (s : Kgets) : Kgets :=
  if s.installed then s.handler (serialChar c) else s

/-- A step of `kgets(buffer, size)`. -/
def next (size : Nat) (s : Kgets) : Kgets :=
  match s.pc with
  | .test => { s with pc := if s.collected < size ∧ s.newline = false then .hlt else .terminate }
  | .hlt => { s with pc := .test }
  | .terminate =>
    { s with buffer := Function.update s.buffer s.collected 0, pc := .uninstall }
  | .uninstall => { s with installed := false, pc := .ret }
  | .ret => { s with pc := .done s.collected }
  | .done _ => s

end Kgets

namespace KgetsEvent

/-- What an event does. -/
def perform (size : Nat) : KgetsEvent → Kgets → Except Stop Kgets
  | .step, s => .ok (s.next size)
  | .putch c, s => .ok (s.putch c)
  | .serial c, s => .ok (s.serialHandler c)

/-- The character that arrives in an event. -/
def char : KgetsEvent → Option UInt8
  | .step => none
  | .putch c => some c
  | .serial c => some (serialChar c)

variable {size : Nat} {e : KgetsEvent} {s s' : Kgets} {ch : UInt8}

/-- A character goes to the handler if there is one. -/
theorem perform_installed (hchar : e.char = some ch) (hin : s.installed = true) :
    e.perform size s = .ok (s.handler ch) := by
  cases e with
  | step => cases hchar
  | putch c =>
    cases hchar
    rw [perform, Kgets.putch, if_pos hin]
  | serial c =>
    cases hchar
    rw [perform, Kgets.serialHandler, if_pos hin]

theorem eq_step (hchar : e.char = none) : e = .step := by
  cases e with
  | step => rfl
  | putch c => cases hchar
  | serial c => cases hchar

/-- **What an event does**: it is a step of `kgets`, or a character for the handler, or a character
that `writech` may get but `kgets` does not. -/
theorem perform_cases (hs : e.perform size s = .ok s') :
    e = .step ∧ s' = s.next size ∨
    (∃ ch, e.char = some ch ∧ s.installed = true ∧ s' = s.handler ch) ∨
    e ≠ .step ∧ ¬ s.installed = true ∧ ∃ echo, s' = { s with echo := echo } := by
  cases hchar : e.char with
  | none =>
    obtain rfl := eq_step hchar
    cases hs
    exact Or.inl ⟨rfl, rfl⟩
  | some ch =>
    by_cases hin : s.installed = true
    · rw [perform_installed hchar hin] at hs
      cases hs
      exact Or.inr (Or.inl ⟨ch, rfl, hin, rfl⟩)
    · refine Or.inr (Or.inr ⟨fun he => ?_, hin, ?_⟩)
      · rw [he] at hchar
        cases hchar
      · cases e with
        | step => cases hchar
        | putch c =>
          cases hs
          exact ⟨_, if_neg hin⟩
        | serial c =>
          cases hs
          exact ⟨s.echo, if_neg hin⟩

end KgetsEvent

/-! ## What a line is

The abstract side: the characters that arrive are edits, and a line is what they make of the empty
list.  Nothing is said about the buffer, the interrupts, or the moment at which `kgets` looks.  The
conditions on a run are stated in these terms too, except for one: which characters come while the
handler is still installed depends on the state. -/

/-- The edit a character makes: backspace takes the last character away, other control characters
are ignored, and printable characters are added. -/
def editChar (line : List UInt8) (ch : UInt8) : List UInt8 :=
  if charValue ch = 0x08 then line.dropLast
  else if charValue ch < 0x20 then line
  else line ++ [ch]

/-- The line a sequence of characters means. -/
def editLine (chs : List UInt8) : List UInt8 := chs.foldl editChar []

/-- The characters that arrive in a run. -/
def arrived (es : List KgetsEvent) : List UInt8 := es.filterMap KgetsEvent.char

/-- The characters that arrive before the first newline. -/
def beforeNewline (es : List KgetsEvent) : List UInt8 :=
  (arrived es).takeWhile fun ch => ch != 0x0A

/-- The events from the first newline on. -/
def fromNewline (es : List KgetsEvent) : List KgetsEvent :=
  es.dropWhile fun e => e.char != some 0x0A

/-- A newline arrives, and before it does, the buffer is never full. -/
structure NewlineInTime (size : Nat) (es : List KgetsEvent) : Prop where
  newline : 0x0A ∈ arrived es
  room : ∀ chs, chs <+: beforeNewline es → (editLine chs).length < size

/-- What is asked of the state after a run: if `kgets` has returned, it has returned the length of
the line that was typed, and the buffer has the line and a NUL. -/
def ReturnsLine (es : List KgetsEvent) (s : Kgets) : Prop :=
  ∀ count, s.pc = .done count →
    count = (editLine (beforeNewline es)).length ∧
      (∀ i (hi : i < (editLine (beforeNewline es)).length),
        s.buffer i = (editLine (beforeNewline es))[i]) ∧
      s.buffer count = 0

/-- A character that does not change the line: a backspace on the empty line, another control
character, or any character for which there is no room. -/
def Kgets.LeavesLine (s : Kgets) (ch : UInt8) : Prop :=
  if charValue ch = 0x08 then s.collected = 0 else charValue ch < 0x20 ∨ s.want ≤ s.collected

/-- A character that comes after the newline, while the handler is still installed, must not change
the line. -/
def KgetsEvent.Harmless (e : KgetsEvent) (s : Kgets) : Prop :=
  ∀ ch, e.char = some ch → s.newline = true → s.installed = true → s.LeavesLine ch

/-! ## Until the first newline

While the newline has not arrived, `kgets` goes round its loop and the handler edits the buffer.
The buffer holds the line so far, the variable of the handler is its length, and both are kept by a
step of `kgets` and by a character for which there is room. -/

theorem charValue_newline {ch : UInt8} : charValue ch = 0x0A ↔ ch = 0x0A := by
  rw [show (0x0A : Int) = charValue 0x0A from rfl, charValue_inj]

theorem editLine_append_singleton (chs : List UInt8) (ch : UInt8) :
    editLine (chs ++ [ch]) = editChar (editLine chs) ch := by
  rw [editLine, List.foldl_append]
  rfl

/-- The buffer holds a line. -/
def Kgets.Holds (s : Kgets) (chs : List UInt8) : Prop :=
  s.collected = chs.length ∧ ∀ i (hi : i < chs.length), s.buffer i = chs[i]

/-- `kgets` is waiting, and the line typed so far is `line`.  This is the invariant before the
newline, when `kgets` can only be at its test or asleep. -/
structure Editing (size : Nat) (line : List UInt8) (s : Kgets) : Prop where
  holds : s.Holds line
  want : s.want = size
  newline : s.newline = false
  installed : s.installed = true
  pc : s.pc = .test ∨ s.pc = .hlt

/-- The newline has arrived, and the line is `line`: what is left for `kgets` to do.  Each field is
about what has been done by the time `kgets` is at a certain point, so that at the end all of it
has. -/
structure Entered (line : List UInt8) (s : Kgets) : Prop where
  holds : s.Holds line
  newline : s.newline = true
  terminated : s.pc ≠ .test → s.pc ≠ .hlt → s.pc ≠ .terminate → s.buffer line.length = 0
  uninstalled : s.pc = .ret ∨ (∃ count, s.pc = .done count) → s.installed = false
  count : ∀ count, s.pc = .done count → count = line.length

variable {size : Nat} {line : List UInt8} {s : Kgets} {ch : UInt8}

theorem editing_start (buffer : Nat → UInt8) (size : Nat) :
    Editing size [] (Kgets.start buffer size) :=
  ⟨⟨rfl, fun i hi => absurd hi (Nat.not_lt_zero i)⟩, rfl, rfl, rfl, Or.inl rfl⟩

theorem Editing.handler (h : Editing size line s) (hch : ch ≠ 0x0A) (hroom : line.length < size) :
    Editing size (editChar line ch) (s.handler ch) := by
  obtain ⟨⟨hcollected, hbuffer⟩, hwant, hnewline, hinstalled, hpc⟩ := h
  rw [Kgets.handler, editChar]
  by_cases hback : charValue ch = 0x08
  · rw [if_pos hback, if_pos hback]
    split
    · refine ⟨⟨by simp [hcollected], fun i hi => ?_⟩, hwant, hnewline, hinstalled, hpc⟩
      rw [List.length_dropLast] at hi
      simp only [Function.update_of_ne (show i ≠ s.collected by omega), List.getElem_dropLast]
      exact hbuffer i (by omega)
    · next hzero =>
      have hnil : line = [] := List.eq_nil_of_length_eq_zero (by omega)
      subst hnil
      exact ⟨⟨hcollected, hbuffer⟩, hwant, hnewline, hinstalled, hpc⟩
  · rw [if_neg hback, if_neg hback, if_neg fun e => hch (charValue_newline.mp e)]
    by_cases hcontrol : charValue ch < 0x20
    · rw [if_pos hcontrol, if_pos hcontrol]
      exact ⟨⟨hcollected, hbuffer⟩, hwant, hnewline, hinstalled, hpc⟩
    · rw [if_neg hcontrol, if_neg hcontrol]
      simp only [show s.collected < s.want by omega, if_true]
      refine ⟨⟨by simp [hcollected], fun i hi => ?_⟩, hwant, hnewline, hinstalled, hpc⟩
      rw [List.length_append, List.length_singleton] at hi
      by_cases hlast : i = line.length
      · subst hlast
        simp [hcollected]
      · rw [List.getElem_append_left (by omega)]
        simp only [Function.update_of_ne (show i ≠ s.collected by omega)]
        exact hbuffer i (by omega)

/-- The newline leaves the line as it is. -/
theorem Editing.newline_arrives (h : Editing size line s) : Entered line (s.handler 0x0A) := by
  obtain ⟨hholds, -, -, -, hpc⟩ := h
  have hhandler : s.handler 0x0A = { s with newline := true, echo := s.echo ++ [0x0A] } := by
    rw [Kgets.handler, if_neg (by decide), if_pos (by decide)]
  rw [hhandler]
  refine ⟨hholds, rfl, fun h h' _ => ?_, fun h => ?_, fun count h => ?_⟩
  · exact absurd hpc (not_or.mpr ⟨h, h'⟩)
  · rcases hpc with hpc | hpc <;> rcases h with h | ⟨count, h⟩ <;> cases hpc.symm.trans h
  · rcases hpc with hpc | hpc <;> cases hpc.symm.trans h

theorem Editing.next (h : Editing size line s) (hroom : line.length < size) :
    Editing size line (s.next size) := by
  obtain ⟨hholds, hwant, hnewline, hinstalled, hpc | hpc⟩ := h
  · have hlt : s.collected < size := hholds.1.trans_lt hroom
    rw [Kgets.next, hpc]
    simp only [hlt, hnewline, and_self, if_true]
    exact ⟨hholds, hwant, rfl, hinstalled, Or.inr rfl⟩
  · rw [Kgets.next, hpc]
    exact ⟨hholds, hwant, hnewline, hinstalled, Or.inl rfl⟩

/-! ## After the newline

The newline does not stop the handler.  Until `kgets` has found out and removed it, a character can
still change the line, and this is what the condition on harmless characters excludes.  What is left
for `kgets` to do is then a matter of its own steps. -/

/-- The characters that leave the line alone are those that do not move its end. -/
theorem handler_collected_iff : (s.handler ch).collected = s.collected ↔ s.LeavesLine ch := by
  rw [Kgets.LeavesLine, Kgets.handler]
  by_cases hback : charValue ch = 0x08
  · rw [if_pos hback, if_pos hback]
    split
    · next hne =>
      simp only
      omega
    · next hzero => exact ⟨fun _ => Decidable.not_not.mp hzero, fun _ => rfl⟩
  · rw [if_neg hback, if_neg hback]
    by_cases hnewline : charValue ch = 0x0A
    · rw [if_pos hnewline]
      exact ⟨fun _ => Or.inl (by omega), fun _ => rfl⟩
    · rw [if_neg hnewline]
      by_cases hcontrol : charValue ch < 0x20
      · rw [if_pos hcontrol]
        exact ⟨fun _ => Or.inl hcontrol, fun _ => rfl⟩
      · rw [if_neg hcontrol]
        by_cases hfull : s.collected < s.want
        · simp only [hfull, if_true, hcontrol, false_or, Nat.not_le.mpr hfull, iff_false]
          omega
        · simp only [hfull, if_false, hcontrol, false_or, true_iff]
          omega

theorem Entered.handler (h : Entered line s) (hch : s.LeavesLine ch) :
    Entered line (s.handler ch) := by
  rw [Kgets.LeavesLine] at hch
  rw [Kgets.handler]
  by_cases hback : charValue ch = 0x08
  · rw [if_pos hback] at hch ⊢
    rwa [if_neg (not_not_intro hch)]
  · rw [if_neg hback] at hch ⊢
    by_cases hnewline : charValue ch = 0x0A
    · rw [if_pos hnewline]
      exact ⟨h.holds, rfl, h.terminated, h.uninstalled, h.count⟩
    · rw [if_neg hnewline]
      by_cases hcontrol : charValue ch < 0x20
      · rw [if_pos hcontrol]
        exact ⟨h.holds, h.newline, h.terminated, h.uninstalled, h.count⟩
      · rw [if_neg hcontrol]
        simp only [if_neg (Nat.not_lt.mpr (hch.resolve_left hcontrol))]
        exact ⟨h.holds, h.newline, h.terminated, h.uninstalled, h.count⟩

theorem Entered.next (h : Entered line s) : Entered line (s.next size) := by
  obtain ⟨hholds, hnewline, hterminated, huninstalled, hcount⟩ := h
  cases hpc : s.pc with
  | test =>
    rw [Kgets.next, hpc]
    simp only [hnewline, Bool.true_eq_false, and_false, if_false]
    exact ⟨hholds, rfl, by simp, by simp, by simp⟩
  | hlt =>
    rw [Kgets.next, hpc]
    exact ⟨hholds, hnewline, by simp, by simp, by simp⟩
  | terminate =>
    rw [Kgets.next, hpc]
    refine ⟨⟨hholds.1, fun i hi => ?_⟩, hnewline, fun _ _ _ => ?_, by simp, by simp⟩
    · simp only [Function.update_of_ne (show i ≠ s.collected from
        fun e => absurd (e ▸ hholds.1) (Nat.ne_of_lt hi))]
      exact hholds.2 i hi
    · simp only [hholds.1, Function.update_self]
  | uninstall =>
    rw [Kgets.next, hpc]
    rw [hpc] at hterminated
    exact ⟨hholds, hnewline, fun _ _ _ => hterminated (by simp) (by simp) (by simp),
      fun _ => rfl, by simp⟩
  | ret =>
    rw [Kgets.next, hpc]
    rw [hpc] at hterminated huninstalled
    refine ⟨hholds, hnewline, fun _ _ _ => hterminated (by simp) (by simp) (by simp),
      fun _ => huninstalled (Or.inl rfl), fun count h => ?_⟩
    cases h
    exact hholds.1
  | done count =>
    rw [Kgets.next, hpc]
    exact ⟨hholds, hnewline, hterminated, huninstalled, hcount⟩

/-- **After the newline**, a harmless event keeps the line.  The steps of `kgets` do so in any case,
and a character does where it does not move the end of the line. -/
theorem Entered.perform {e : KgetsEvent} {s' : Kgets} (h : Entered line s)
    (hharmless : e.Harmless s) (hs : e.perform size s = .ok s') : Entered line s' := by
  rcases KgetsEvent.perform_cases hs with ⟨-, rfl⟩ | ⟨ch, hchar, hin, rfl⟩ | ⟨-, -, echo, rfl⟩
  · exact h.next
  · exact h.handler (hharmless ch hchar h.newline hin)
  · exact ⟨h.holds, h.newline, h.terminated, h.uninstalled, h.count⟩

/-! ## Whole runs

From the newline on, each step of `kgets` brings it closer to its return and no character takes it
away from there.  So five steps are enough, however many characters come between them. -/

/-- The number of steps left for `kgets`, once the newline has arrived. -/
def KgetsPC.left : KgetsPC → Nat
  | .hlt => 5
  | .test => 4
  | .terminate => 3
  | .uninstall => 2
  | .ret => 1
  | .done _ => 0

theorem left_next (h : s.newline = true) : (s.next size).pc.left = s.pc.left - 1 := by
  cases hpc : s.pc <;> simp [Kgets.next, hpc, KgetsPC.left, h]

theorem pc_handler : (s.handler ch).pc = s.pc := by
  simp only [Kgets.handler]
  split_ifs <;> rfl

theorem pc_perform {e : KgetsEvent} {s' : Kgets} (he : e ≠ .step)
    (hs : e.perform size s = .ok s') : s'.pc = s.pc := by
  rcases KgetsEvent.perform_cases hs with ⟨hstep, -⟩ | ⟨ch, -, -, rfl⟩ | ⟨-, -, echo, rfl⟩
  · exact absurd hstep he
  · exact pc_handler
  · rfl

/-- From the newline on, every step of `kgets` brings it closer to its return. -/
theorem Entered.run {es : List KgetsEvent} {s' : Kgets} (h : Entered line s)
    (hharmless : Runs.Along (KgetsEvent.perform size) KgetsEvent.Harmless es s)
    (hrun : Runs.run (KgetsEvent.perform size) es s = .ok s') :
    Entered line s' ∧ s'.pc.left = s.pc.left - es.count .step := by
  induction es generalizing s with
  | nil =>
    cases hrun
    exact ⟨h, rfl⟩
  | cons e es ih =>
    rw [Runs.run] at hrun
    split at hrun
    · next t ht =>
      obtain ⟨h', hleft⟩ := ih (h.perform hharmless.1 ht) (hharmless.2 t ht) hrun
      refine ⟨h', ?_⟩
      rw [hleft]
      by_cases he : e = .step
      · subst he
        cases ht
        rw [left_next h.newline, List.count_cons_self]
        omega
      · rw [pc_perform he ht, List.count_cons_of_ne he]
    · cases hrun

/-! ## The characters of a run

The run is split at the first newline.  Before it the induction carries the characters that have
arrived, since the condition that the buffer is never full is about all prefixes of them; from the
newline on the section before takes over. -/

section
variable {e : KgetsEvent} {es : List KgetsEvent}

theorem arrived_cons (hchar : e.char = some ch) : arrived (e :: es) = ch :: arrived es :=
  List.filterMap_cons_some hchar

theorem beforeNewline_newline (hchar : e.char = some 0x0A) : beforeNewline (e :: es) = [] := by
  rw [beforeNewline, arrived_cons hchar]
  rfl

theorem beforeNewline_cons (hchar : e.char = some ch) (hch : ch ≠ 0x0A) :
    beforeNewline (e :: es) = ch :: beforeNewline es := by
  rw [beforeNewline, arrived_cons hchar, List.takeWhile_cons_of_pos (by simpa using hch)]
  rfl

theorem fromNewline_newline (hchar : e.char = some 0x0A) : fromNewline (e :: es) = e :: es := by
  rw [fromNewline, List.dropWhile_cons, hchar]
  rfl

theorem fromNewline_cons (hchar : e.char = some ch) (hch : ch ≠ 0x0A) :
    fromNewline (e :: es) = fromNewline es := by
  rw [fromNewline, List.dropWhile_cons_of_pos (by simpa [hchar] using hch)]
  rfl

end

/-- The induction over the characters before the newline, of which `chs` have arrived. -/
theorem Editing.run : ∀ {es : List KgetsEvent} {chs : List UInt8} {s s' : Kgets},
    Editing size (editLine chs) s → 0x0A ∈ arrived es →
    (∀ chs', chs' <+: beforeNewline es → (editLine (chs ++ chs')).length < size) →
    Runs.Along (KgetsEvent.perform size) KgetsEvent.Harmless es s →
    Runs.run (KgetsEvent.perform size) es s = .ok s' →
    Entered (editLine (chs ++ beforeNewline es)) s' ∧
      s'.pc.left ≤ 5 - (fromNewline es).count .step
  | [], _, _, _, _, hmem, _, _, _ => absurd hmem List.not_mem_nil
  | e :: es, chs, s, s', h, hmem, hroom, hharmless, hrun => by
    rw [Runs.run] at hrun
    have hnow : (editLine chs).length < size := by
      simpa using hroom [] (List.nil_prefix)
    cases hchar : e.char with
    | none =>
      obtain rfl := KgetsEvent.eq_step hchar
      have hbefore : beforeNewline (.step :: es) = beforeNewline es := rfl
      have hfrom : fromNewline (.step :: es) = fromNewline es := rfl
      rw [hbefore] at hroom ⊢
      rw [hfrom]
      exact (h.next hnow).run hmem hroom (hharmless.2 _ rfl) hrun
    | some ch =>
      have hperform : e.perform size s = .ok (s.handler ch) :=
        KgetsEvent.perform_installed hchar h.installed
      rw [hperform] at hrun
      by_cases hch : ch = 0x0A
      · subst hch
        have hpc : s.pc.left ≤ 5 := by
          rcases h.pc with hpc | hpc <;> rw [hpc] <;> decide
        obtain ⟨h', hleft⟩ := h.newline_arrives.run (hharmless.2 _ hperform) hrun
        rw [beforeNewline_newline hchar, fromNewline_newline hchar, List.append_nil, hleft,
          pc_handler, List.count_cons_of_ne (by rintro rfl; cases hchar)]
        exact ⟨h', by omega⟩
      · have hedit := h.handler hch hnow
        rw [← editLine_append_singleton] at hedit
        have hmem' : 0x0A ∈ arrived es := by
          rw [arrived_cons hchar] at hmem
          exact (List.mem_cons.mp hmem).resolve_left (Ne.symm hch)
        rw [beforeNewline_cons hchar hch] at hroom ⊢
        rw [fromNewline_cons hchar hch]
        have hrest := hedit.run hmem' (fun chs' hchs' => by
          rw [List.append_assoc]
          exact hroom _ ((List.prefix_cons_inj ch).mpr hchs')) (hharmless.2 _ hperform) hrun
        rwa [List.append_assoc] at hrest

/-- **`kgets` returns the line that was typed**, if a newline arrives in time and no character that
comes after it changes the line before the handler is removed; and it does return, given five steps
after the newline. -/
theorem kgets_line (buffer : Nat → UInt8) (size : Nat) (es : List KgetsEvent) (s : Kgets)
    (hrun : Runs.run (KgetsEvent.perform size) es (Kgets.start buffer size) = .ok s)
    (hnewline : NewlineInTime size es)
    (hharmless : Runs.Along (KgetsEvent.perform size) KgetsEvent.Harmless es
      (Kgets.start buffer size)) :
    ReturnsLine es s ∧
      (5 ≤ (fromNewline es).count .step → ∃ count, s.pc = .done count) := by
  have hroom : ∀ chs, chs <+: beforeNewline es → (editLine ([] ++ chs)).length < size :=
    hnewline.room
  have hstart : Editing size (editLine []) (Kgets.start buffer size) := editing_start buffer size
  obtain ⟨h, hleft⟩ := hstart.run hnewline.newline hroom hharmless hrun
  rw [List.nil_append] at h
  refine ⟨fun count hdone => ?_, fun hsteps => ?_⟩
  · have hcount := h.count count hdone
    refine ⟨hcount, h.holds.2, ?_⟩
    rw [hcount]
    exact h.terminated (by simp [hdone]) (by simp [hdone]) (by simp [hdone])
  · have hzero : s.pc.left = 0 := by omega
    cases hpc : s.pc with
    | done count => exact ⟨count, rfl⟩
    | _ => simp [hpc, KgetsPC.left] at hzero

theorem newlineInTime_of_single {es : List KgetsEvent} (hmem : 0x0A ∈ arrived es)
    (hbefore : beforeNewline es = [0x61]) : NewlineInTime 4 es := by
  refine ⟨hmem, fun chs hchs => ?_⟩
  rw [hbefore] at hchs
  rcases List.prefix_cons_iff.mp hchs with rfl | ⟨chs', rfl, hchs'⟩
  · decide
  · rw [List.prefix_nil.mp hchs']
    decide

/-- An `a` from the keyboard and a return from the serial port. -/
theorem kgets_line_a :
    ∃ s, Runs.run (KgetsEvent.perform 4)
        [.putch 0x61, .step, .serial 13, .step, .step, .step, .step, .step]
        (Kgets.start (fun _ => 0xFF) 4) = .ok s ∧
      ReturnsLine [.putch 0x61, .step, .serial 13, .step, .step, .step, .step, .step] s ∧
      ∃ count, s.pc = .done count := by
  have hharmless : Runs.Along (KgetsEvent.perform 4) KgetsEvent.Harmless
      [.putch 0x61, .step, .serial 13, .step, .step, .step, .step, .step]
      (Kgets.start (fun _ => 0xFF) 4) := by
    refine ⟨fun _ _ hn => absurd hn (by decide), ?_⟩
    rintro _ ⟨⟩
    refine ⟨fun _ h => (by cases h), ?_⟩
    rintro _ ⟨⟩
    refine ⟨fun _ _ hn => absurd hn (by decide), ?_⟩
    rintro _ ⟨⟩
    iterate 5
      refine ⟨fun _ h => (by cases h), ?_⟩
      rintro _ ⟨⟩
    trivial
  have htime : NewlineInTime 4
      [.putch 0x61, .step, .serial 13, .step, .step, .step, .step, .step] :=
    newlineInTime_of_single (by decide) (by decide)
  have h := kgets_line (fun _ => 0xFF) 4 _ _ rfl htime hharmless
  exact ⟨_, rfl, h.1, h.2 (by decide)⟩

/-- A `b` right behind the newline, before `kgets` gets to its test: the line returned is `ab`. -/
theorem not_kgets_line :
    NewlineInTime 4 [.putch 0x61, .putch 0x0A, .putch 0x62, .step, .step, .step, .step] ∧
    ∃ s, Runs.run (KgetsEvent.perform 4)
        [.putch 0x61, .putch 0x0A, .putch 0x62, .step, .step, .step, .step]
        (Kgets.start (fun _ => 0xFF) 4) = .ok s ∧
      ¬ ReturnsLine [.putch 0x61, .putch 0x0A, .putch 0x62, .step, .step, .step, .step] s := by
  refine ⟨newlineInTime_of_single (by decide) (by decide), _, rfl, fun h => ?_⟩
  exact absurd (h 2 rfl).1 (by decide)

/-! ## The buffer in every run

The other question about the buffer asks for no newline and for no condition: what does it hold, and
can anything behind it be written to? The line is now one with bounded room, and the writes of an
event are listed, so that a single invariant answers both.  It holds as long as the handler is
installed, and `kgets` removes the handler only behind the last write. -/

/-- The edit a character makes to a line with room for `n`. -/
def editBounded (n : Nat) (line : List UInt8) (ch : UInt8) : List UInt8 :=
  if ch = 0x08 then line.dropLast
  else if 0x20 ≤ ch ∧ ch ≤ 0x7F then (if line.length < n then line ++ [ch] else line)
  else line

/-- The line with room for `n` that a sequence of characters means. -/
def boundedLine (n : Nat) (chs : List UInt8) : List UInt8 := chs.foldl (editBounded n) []

/-- The places of the buffer that `kgets_handler(ch)` writes to. -/
def Kgets.handlerWrites (ch : UInt8) (s : Kgets) : List Nat :=
  if charValue ch = 0x08 then (if s.collected ≠ 0 then [s.collected] else [])
  else if charValue ch < 0x20 then []
  else if s.collected < s.want then [s.collected] else []

/-- The places of the buffer that an event writes to. -/
def KgetsEvent.writes : KgetsEvent → Kgets → List Nat
  | .step, s => if s.pc = .terminate then [s.collected] else []
  | .putch c, s => if s.installed then s.handlerWrites c else []
  | .serial c, s => if s.installed then s.handlerWrites (serialChar c) else []

/-- While the handler is installed the buffer holds the line, which has not got too long.  Unlike
`Editing` it does not say whether the newline has arrived, since the handler edits the line just the
same. -/
structure Bounded (n : Nat) (line : List UInt8) (s : Kgets) : Prop where
  holds : s.Holds line
  length_le : line.length ≤ n
  want : s.want = n

section
variable {n i : Nat} {e : KgetsEvent} {s' : Kgets}

/-- What `kgets_handler` does is said by three cases of the character. -/
theorem charValue_cases (ch : UInt8) :
    ch = 0x08 ∧ charValue ch = 0x08 ∨
    (0x20 ≤ ch ∧ ch ≤ 0x7F) ∧ ch ≠ 0x08 ∧ 0x20 ≤ charValue ch ∨
    ¬ (0x20 ≤ ch ∧ ch ≤ 0x7F) ∧ ch ≠ 0x08 ∧ charValue ch ≠ 0x08 ∧ charValue ch < 0x20 := by
  have hvalue : charValue ch = if ch.toNat < 0x80 then (ch.toNat : Int) else ch.toNat - 0x100 := by
    rw [charValue, BitVec.toInt_eq_toNat_cond]
    simp only [UInt8.toNat_toBitVec]
    split_ifs <;> omega
  have hlt := ch.toNat_lt
  simp only [UInt8.le_iff_toNat_le, ← UInt8.toNat_inj, ne_eq, hvalue,
    show UInt8.toNat 0x08 = 8 from rfl, show UInt8.toNat 0x20 = 32 from rfl,
    show UInt8.toNat 0x7F = 127 from rfl]
  split_ifs <;> omega

/-- What `kgets_handler` does with a backspace, with a printable character, and with another. -/
theorem handler_cases (ch : UInt8) (s : Kgets) :
    (ch = 0x08 ∧ s.handler ch = if s.collected ≠ 0 then
        { s with
          echo := s.echo ++ [0x08, 0x20, 0x08]
          buffer := Function.update s.buffer s.collected 0
          collected := s.collected - 1 }
      else s) ∨
    ((0x20 ≤ ch ∧ ch ≤ 0x7F) ∧ ch ≠ 0x08 ∧ s.handler ch = if s.collected < s.want then
        { s with
          echo := s.echo ++ [ch]
          buffer := Function.update s.buffer s.collected ch
          collected := s.collected + 1 }
      else { s with echo := s.echo ++ [ch] }) ∨
    (¬ (0x20 ≤ ch ∧ ch ≤ 0x7F) ∧ ch ≠ 0x08 ∧ ∃ echo newline,
      s.handler ch = { s with echo := echo, newline := newline }) := by
  rw [Kgets.handler]
  rcases charValue_cases ch with ⟨hch, hvalue⟩ | ⟨hch, hne, hvalue⟩ | ⟨hch, hne, hvalue, hlt⟩
  · rw [if_pos hvalue]
    exact Or.inl ⟨hch, rfl⟩
  · rw [if_neg (by omega), if_neg (by omega), if_neg (by omega)]
    exact Or.inr (Or.inl ⟨hch, hne, rfl⟩)
  · rw [if_neg hvalue]
    refine Or.inr (Or.inr ⟨hch, hne, ?_⟩)
    split_ifs
    · exact ⟨_, true, rfl⟩
    · exact ⟨_, s.newline, rfl⟩

/-- **A character edits the line**: backspace shortens it, and a printable character is added as
long as there is room.  What is behind its end in the buffer does not matter. -/
theorem Bounded.handler (h : Bounded n line s) (ch : UInt8) :
    Bounded n (editBounded n line ch) (s.handler ch) := by
  obtain ⟨⟨hcollected, hbuffer⟩, hle, hwant⟩ := h
  rcases handler_cases ch s with ⟨hch, heq⟩ | ⟨hch, hne, heq⟩ | ⟨hch, hne, echo, newline, heq⟩
  · rw [heq, editBounded, if_pos hch]
    split_ifs with hzero
    · refine ⟨⟨by rw [List.length_dropLast, ← hcollected], fun i hi => ?_⟩, ?_, hwant⟩
      · rw [List.length_dropLast] at hi
        simp only [Function.update_of_ne (show i ≠ s.collected by omega), List.getElem_dropLast]
        exact hbuffer i (by omega)
      · rw [List.length_dropLast]
        omega
    · obtain rfl : line = [] := List.eq_nil_of_length_eq_zero (by omega)
      exact ⟨⟨hcollected, hbuffer⟩, hle, hwant⟩
  · have hfull : s.collected < s.want ↔ line.length < n := by rw [hcollected, hwant]
    rw [heq, editBounded, if_neg hne, if_pos hch]
    simp only [hfull]
    split_ifs with hroom
    · refine ⟨⟨?_, fun i hi => ?_⟩, ?_, hwant⟩
      · rw [List.length_append, List.length_singleton, ← hcollected]
      · rw [List.length_append, List.length_singleton] at hi
        simp only [hcollected]
        rcases Nat.lt_or_eq_of_le (Nat.lt_succ_iff.mp hi) with hlt | rfl
        · rw [List.getElem_append_left hlt, Function.update_of_ne hlt.ne]
          exact hbuffer i hlt
        · rw [Function.update_self, List.getElem_concat_length rfl]
      · rw [List.length_append, List.length_singleton]
        exact hroom
    · exact ⟨⟨hcollected, hbuffer⟩, hle, hwant⟩
  · rw [heq, editBounded, if_neg hne, if_neg hch]
    exact ⟨⟨hcollected, hbuffer⟩, hle, hwant⟩

theorem installed_handler : (s.handler ch).installed = s.installed := by
  simp only [Kgets.handler]
  split_ifs <;> rfl

/-- The handler is installed until `kgets` comes to its `return`, and not any longer; so whether a
character is for the handler can be told from where `kgets` is. -/
def Kgets.InstalledUntil (s : Kgets) : Prop := s.installed = true ↔ 1 < s.pc.left

theorem Kgets.InstalledUntil.next (h : s.InstalledUntil) : (s.next n).InstalledUntil := by
  rw [InstalledUntil] at h ⊢
  cases hpc : s.pc with
  | test =>
    rw [hpc] at h
    have hinstalled : s.installed = true := h.mpr (by decide)
    simp only [Kgets.next, hpc, hinstalled, true_iff]
    split_ifs <;> decide
  | uninstall => simp [Kgets.next, hpc, KgetsPC.left]
  | _ => simpa [Kgets.next, hpc, KgetsPC.left] using h

theorem Kgets.InstalledUntil.perform (h : s.InstalledUntil) (hs : e.perform n s = .ok s') :
    s'.InstalledUntil := by
  rcases KgetsEvent.perform_cases hs with ⟨-, rfl⟩ | ⟨ch, -, -, rfl⟩ | ⟨-, -, echo, rfl⟩
  · exact h.next
  · rwa [InstalledUntil, installed_handler, pc_handler]
  · exact h

/-- The line after an event. -/
def KgetsEvent.edit (n : Nat) (e : KgetsEvent) (line : List UInt8) : List UInt8 :=
  e.char.elim line (editBounded n line)

/-- A step of `kgets` leaves the line as it is. -/
theorem Bounded.next {line : List UInt8} (h : Bounded n line s) : Bounded n line (s.next n) := by
  obtain ⟨⟨hcollected, hbuffer⟩, hle, hwant⟩ := h
  cases hpc : s.pc with
  | terminate =>
    rw [Kgets.next, hpc]
    refine ⟨⟨hcollected, fun i hi => ?_⟩, hle, hwant⟩
    simp only [Function.update_of_ne (show i ≠ s.collected by omega)]
    exact hbuffer i hi
  | _ =>
    rw [Kgets.next, hpc]
    exact ⟨⟨hcollected, hbuffer⟩, hle, hwant⟩

theorem installed_of_next (h : (s.next n).installed = true) : s.installed = true := by
  cases hpc : s.pc with
  | uninstall =>
    rw [Kgets.next, hpc] at h
    cases h
  | _ =>
    rw [Kgets.next, hpc] at h
    exact h

/-- **An event edits the line**, up to the one that removes the handler.  That the handler is
installed after the event says that it was before, since nothing installs it again. -/
theorem Bounded.perform {line : List UInt8} (h : s.installed = true → Bounded n line s)
    (hs : e.perform n s = .ok s') (hinstalled : s'.installed = true) :
    Bounded n (e.edit n line) s' := by
  rcases KgetsEvent.perform_cases hs with ⟨rfl, rfl⟩ | ⟨ch, hchar, hin, rfl⟩ | ⟨-, hout, echo, rfl⟩
  · exact (h (installed_of_next hinstalled)).next
  · rw [KgetsEvent.edit, hchar, Option.elim_some]
    exact (h hin).handler ch
  · exact absurd hinstalled hout

/-- The writes of the handler. -/
theorem mem_handlerWrites (h : i ∈ s.handlerWrites ch) : i = s.collected := by
  rw [Kgets.handlerWrites] at h
  split_ifs at h
  · exact List.mem_singleton.mp h
  · cases h
  · cases h
  · exact List.mem_singleton.mp h
  · cases h

theorem KgetsEvent.writes_of_char (hchar : e.char = some ch) :
    e.writes s = if s.installed then s.handlerWrites ch else [] := by
  cases e with
  | step => cases hchar
  | putch c =>
    cases hchar
    rfl
  | serial c =>
    cases hchar
    rfl

/-- The writes of an event are at the end of the line, and there are none once the handler has been
removed. -/
theorem KgetsEvent.mem_writes (hpc : s.InstalledUntil) (h : i ∈ e.writes s) :
    s.installed = true ∧ i = s.collected := by
  cases hchar : e.char with
  | none =>
    obtain rfl := eq_step hchar
    rw [writes] at h
    split_ifs at h with hterminate
    · refine ⟨hpc.mpr ?_, List.mem_singleton.mp h⟩
      rw [hterminate]
      decide
    · cases h
  | some ch =>
    rw [writes_of_char hchar] at h
    split_ifs at h with hinstalled
    · exact ⟨hinstalled, mem_handlerWrites h⟩
    · cases h

theorem buffer_handler (h : i ∉ s.handlerWrites ch) : (s.handler ch).buffer i = s.buffer i := by
  rw [Kgets.handlerWrites] at h
  rw [Kgets.handler]
  by_cases hback : charValue ch = 0x08
  · rw [if_pos hback] at h ⊢
    split_ifs at h ⊢
    · exact Function.update_of_ne (by simpa using h) _ _
    · rfl
  rw [if_neg hback] at h ⊢
  by_cases hnewline : charValue ch = 0x0A
  · rw [if_pos hnewline]
  rw [if_neg hnewline]
  by_cases hcontrol : charValue ch < 0x20
  · rw [if_pos hcontrol]
  rw [if_neg hcontrol] at h ⊢
  by_cases hroom : s.collected < s.want
  · rw [if_pos hroom] at h
    simp only [if_pos hroom]
    exact Function.update_of_ne (by simpa using h) _ _
  · simp only [if_neg hroom]

theorem buffer_next (h : s.pc = .terminate → i ≠ s.collected) :
    (s.next n).buffer i = s.buffer i := by
  cases hpc : s.pc with
  | terminate =>
    rw [Kgets.next, hpc]
    exact Function.update_of_ne (h hpc) _ _
  | _ => rw [Kgets.next, hpc]

/-- Nothing but what is said to be written to changes. -/
theorem KgetsEvent.buffer_perform (hs : e.perform n s = .ok s') (h : i ∉ e.writes s) :
    s'.buffer i = s.buffer i := by
  rcases perform_cases hs with ⟨rfl, rfl⟩ | ⟨ch, hchar, hin, rfl⟩ | ⟨-, -, echo, rfl⟩
  · refine buffer_next fun hpc => ?_
    rwa [writes, if_pos hpc, List.mem_singleton] at h
  · rw [writes_of_char hchar, if_pos hin] at h
    exact buffer_handler h
  · rfl

end

/-- The line of a run that goes on with some more events. -/
theorem boundedLine_cons (n : Nat) (e : KgetsEvent) (es : List KgetsEvent) (line : List UInt8) :
    (arrived (e :: es)).foldl (editBounded n) line =
      (arrived es).foldl (editBounded n) (e.edit n line) := by
  rw [arrived, KgetsEvent.edit]
  cases hchar : e.char with
  | none => rw [List.filterMap_cons_none hchar, Option.elim_none, arrived]
  | some ch => rw [List.filterMap_cons_some hchar, Option.elim_some, List.foldl_cons, arrived]

/-- The induction over the events. -/
theorem Bounded.run {n : Nat} {es : List KgetsEvent} {line : List UInt8} {s s' : Kgets}
    (hpc : s.InstalledUntil) (h : s.installed = true → Bounded n line s)
    (hrun : Runs.run (KgetsEvent.perform n) es s = .ok s') :
    s'.InstalledUntil ∧
      (s'.installed = true → Bounded n ((arrived es).foldl (editBounded n) line) s') ∧
      ∀ i, n < i → s'.buffer i = s.buffer i := by
  induction es generalizing line s with
  | nil =>
    cases hrun
    exact ⟨hpc, h, fun _ _ => rfl⟩
  | cons e es ih =>
    rw [Runs.run] at hrun
    split at hrun
    · next t ht =>
      rw [boundedLine_cons]
      obtain ⟨hpc', h', hrest⟩ := ih (hpc.perform ht)
        (fun hinstalled => Bounded.perform h ht hinstalled) hrun
      refine ⟨hpc', h', fun i hi => (hrest i hi).trans ?_⟩
      refine KgetsEvent.buffer_perform ht fun hmem => ?_
      obtain ⟨hinstalled, rfl⟩ := KgetsEvent.mem_writes hpc hmem
      obtain ⟨hholds, hle, -⟩ := h hinstalled
      exact absurd (hholds.1 ▸ hi) (Nat.not_lt.mpr hle)
    · cases hrun

/-- **While the handler is installed** the buffer holds the line that the characters so far mean,
which is no longer than the buffer has room for; and every write is within the buffer, so that what
lies behind it is as it was. -/
theorem kgets_bounded (buffer : Nat → UInt8) (n : Nat) (es : List KgetsEvent) (s : Kgets)
    (hrun : Runs.run (KgetsEvent.perform n) es (Kgets.start buffer n) = .ok s)
    (hinstalled : s.installed = true) :
    s.collected ≤ n ∧ s.Holds (boundedLine n (arrived es)) ∧
      (∀ e : KgetsEvent, ∀ i ∈ e.writes s, i ≤ n) ∧ ∀ i, n < i → s.buffer i = buffer i := by
  have hstart : Bounded n [] (Kgets.start buffer n) :=
    ⟨⟨rfl, fun i hi => absurd hi (Nat.not_lt_zero i)⟩, Nat.zero_le n, rfl⟩
  have hpc : (Kgets.start buffer n).InstalledUntil :=
    iff_of_true rfl (show 1 < KgetsPC.test.left by decide)
  obtain ⟨hpc', h, hbehind⟩ := Bounded.run hpc (fun _ => hstart) hrun
  obtain ⟨hholds, hle, -⟩ := h hinstalled
  have hcollected : s.collected ≤ n := hholds.1.trans_le hle
  exact ⟨hcollected, hholds, fun e i hi => (KgetsEvent.mem_writes hpc' hi).2.trans_le hcollected,
    hbehind⟩

/-- Two letters, of which one fits, and a backspace. -/
theorem kgets_bounded_full :
    ∃ s, Runs.run (KgetsEvent.perform 1) [.putch 0x61, .step, .serial 0x62, .putch 0x08]
        (Kgets.start (fun _ => 0xFF) 1) = .ok s ∧
      s.Holds (boundedLine 1 (arrived [.putch 0x61, .step, .serial 0x62, .putch 0x08])) :=
  ⟨_, rfl, (kgets_bounded (fun _ => 0xFF) 1 _ _ rfl (by decide)).2.1⟩

end MyaXOS
