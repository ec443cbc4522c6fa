import MyaXOS.Lib.Memory

/-!
# The descriptor tables of a processor

A 32-bit x86 processor finds its segments and the way to its interrupt handlers in two tables in
memory.  This file is about what it reads there.

* `TableReg` is a table register; `Gate` and `Segment` are what the eight bytes of an entry mean.
* `vectored` is what the processor does with an interrupt, at the highest privilege level: it goes
  to the code that a gate leads to, or it reports an exception instead.

The fields of an entry are spread over its bytes: the base of a segment is in three pieces, and an
address in a gate in two.  `read` puts them together.  A program that fills in an entry writes the
pieces, and what it has achieved is that the entry reads as intended, so statements about a table
are statements about `Gate.read` and `Segment.read`, and the positions of the pieces are in the
definitions of these two only.

An interrupt goes through the gate to a segment, and both can be missing or wrong in many ways: the
number is beyond the table, the gate is not present, its selector is null or beyond the other table,
the segment is not code.  `vectored` has a case for each, since a theorem that an interrupt arrives
at its handler has to exclude all of them.  `vectored_interrupt` is the case in which the gate and
the segment are in order.

Task gates and gates of 16 bits are told apart from the others, and that is all.
-/

set_option autoImplicit false

namespace Mem

variable {m m' : Mem} {a b v : Nat}

theorem load16_store16_self (m : Mem) (a : Nat) (hv : v < 2 ^ 16) :
    load16 (store16 m a v) a = v := by
  rw [load16, store16_low, store16_high, UInt8.toNat_ofNat', UInt8.toNat_ofNat']
  omega

end Mem

/-- A table register: the number of the last byte of the table, and its address. -/
structure TableReg where
  limit : Nat
  base : Nat
  deriving DecidableEq, Repr

namespace TableReg

/-- `lgdt [p]` and `lidt [p]`. -/
def load (m : Mem) (p : Nat) : TableReg := ⟨m.load16 p, m.load32 (p + 2)⟩

/-- The address of an entry, if there is one. -/
def entry (r : TableReg) (n : Nat) : Option Nat :=
  if 8 * n + 7 ≤ r.limit then some (r.base + 8 * n) else none

end TableReg

/-- A gate. -/
structure Gate where
  sel : Nat
  offset : Nat
  flags : UInt8
  deriving DecidableEq, Repr

namespace Gate

/-- The gate at `e`. -/
def read (m : Mem) (e : Nat) : Gate where
  sel := m.load16 (e + 2)
  offset := m.load16 e + 0x10000 * m.load16 (e + 6)
  flags := m (e + 5)

/-- What kind of gate it is. -/
def type (g : Gate) : UInt8 := g.flags &&& 0x1F

def Present (g : Gate) : Prop := g.flags &&& 0x80 ≠ 0

instance (g : Gate) : Decidable g.Present := inferInstanceAs (Decidable (_ ≠ _))

/-- A gate depends on its eight bytes only. -/
theorem read_congr {m m' : Mem} {e : Nat} (h : ∀ x, e ≤ x → x < e + 8 → m x = m' x) :
    read m e = read m' e := by
  rw [read, read, Mem.load16_congr (a := e) fun x hle hlt => h x hle (by omega),
    Mem.load16_congr (a := e + 2) fun x hle hlt => h x (by omega) (by omega),
    Mem.load16_congr (a := e + 6) fun x hle hlt => h x (by omega) (by omega),
    h (e + 5) (by omega) (by omega)]

end Gate

/-- A segment. -/
structure Segment where
  base : Nat
  limit : Nat
  access : UInt8
  /-- The upper half of the byte; the lower one belongs to the limit. -/
  gran : UInt8
  deriving DecidableEq, Repr

namespace Segment

/-- The segment whose descriptor is at `e`. -/
def read (m : Mem) (e : Nat) : Segment where
  base := m.load16 (e + 2) + 0x10000 * (m (e + 4)).toNat + 0x1000000 * (m (e + 7)).toNat
  limit := m.load16 e + 0x10000 * (m (e + 6) &&& 0x0F).toNat
  access := m (e + 5)
  gran := m (e + 6) &&& 0xF0

/-- The number of the last byte of the segment.  The limit counts bytes or pages. -/
def last (s : Segment) : Nat :=
  if s.gran &&& 0x80 = 0 then s.limit else 0x1000 * s.limit + 0xFFF

def Present (s : Segment) : Prop := s.access &&& 0x80 ≠ 0

/-- A code segment of the highest privilege level. -/
def IsCode (s : Segment) : Prop := s.access &&& 0x78 = 0x18

/-- A data segment of the highest privilege level that can be written, and that grows upwards. -/
def IsData (s : Segment) : Prop := s.access &&& 0x7E = 0x12

/-- A segment of 32-bit code or with a 32-bit stack. -/
def Is32 (s : Segment) : Prop := s.gran &&& 0x40 ≠ 0

instance (s : Segment) : Decidable s.Present := inferInstanceAs (Decidable (_ ≠ _))
instance (s : Segment) : Decidable s.IsCode := inferInstanceAs (Decidable (_ = _))
instance (s : Segment) : Decidable s.IsData := inferInstanceAs (Decidable (_ = _))
instance (s : Segment) : Decidable s.Is32 := inferInstanceAs (Decidable (_ ≠ _))

/-- A descriptor depends on its eight bytes only. -/
theorem read_congr {m m' : Mem} {e : Nat} (h : ∀ x, e ≤ x → x < e + 8 → m x = m' x) :
    read m e = read m' e := by
  rw [read, read, Mem.load16_congr (a := e) fun x hle hlt => h x hle (by omega),
    Mem.load16_congr (a := e + 2) fun x hle hlt => h x (by omega) (by omega),
    h (e + 4) (by omega) (by omega), h (e + 5) (by omega) (by omega),
    h (e + 6) (by omega) (by omega), h (e + 7) (by omega) (by omega)]

end Segment

/-- The segment that a selector stands for.  There is none for a null selector, and those of a local
table are left out. -/
def selected (m : Mem) (gdtr : TableReg) (sel : Nat) : Option Segment :=
  if sel / 8 = 0 ∨ sel.testBit 2 then none else (gdtr.entry (sel / 8)).map (Segment.read m)

/-- What the processor does with an interrupt. -/
inductive Vectored where
  /-- Go on at `offset` in the segment `sel`, with interrupts off or not. -/
  | enters (sel offset : Nat) (off : Bool)
  /-- A task gate or a gate of 16 bits. -/
  | other (g : Gate)
  /-- A general protection exception instead, with an error code. -/
  | protection (err : Nat)
  /-- The exception for what is not present, with an error code. -/
  | notPresent (err : Nat)
  deriving DecidableEq, Repr

/-- Go on where a gate leads to. -/
def Gate.enter (m : Mem) (gdtr : TableReg) (g : Gate) : Vectored :=
  match selected m gdtr g.sel with
  | none => .protection (g.sel / 4 * 4)
  | some s =>
    if ¬ s.IsCode then .protection (g.sel / 4 * 4)
    else if ¬ s.Present then .notPresent (g.sel / 4 * 4)
    else if s.last < g.offset then .protection 0
    else .enters g.sel g.offset (g.type = 0x0E)

/-- What the processor does with the interrupt `v`. -/
def vectored (m : Mem) (idtr gdtr : TableReg) (v : Nat) : Vectored :=
  match (idtr.entry v).map (Gate.read m) with
  | none => .protection (8 * v + 2)
  | some g =>
    if g.type = 0x0E ∨ g.type = 0x0F then
      if g.Present then g.enter m gdtr else .notPresent (8 * v + 2)
    else if g.type = 0x05 ∨ g.type = 0x06 ∨ g.type = 0x07 then .other g
    else .protection (8 * v + 2)

section
variable {m : Mem} {idtr gdtr : TableReg} {g : Gate} {s : Segment} {v : Nat}

/-- A gate in good order is gone through. -/
theorem Gate.enter_eq (hs : selected m gdtr g.sel = some s) (hcode : s.IsCode) (hpresent : s.Present)
    (hlast : g.offset ≤ s.last) : g.enter m gdtr = .enters g.sel g.offset (g.type = 0x0E) := by
  rw [Gate.enter, hs]
  dsimp only
  rw [if_neg (not_not_intro hcode), if_neg (not_not_intro hpresent), if_neg (Nat.not_lt.mpr hlast)]

/-- An interrupt gate that is present. -/
theorem vectored_interrupt (hg : (idtr.entry v).map (Gate.read m) = some g)
    (htype : g.type = 0x0E) (hpresent : g.Present) : vectored m idtr gdtr v = g.enter m gdtr := by
  rw [vectored, hg]
  dsimp only
  rw [if_pos (Or.inl htype), if_pos hpresent]

end
