import MyaXOS.Interrupt.Stubs
import MyaXOS.Lib.Descriptor
import MyaXOS.System

/-!
# The descriptor tables of the kernel

`gdt.c` and `idt.c` write the two tables, with one function that makes an entry and one that
installs the table; `isrs_install` and `irq_install` make the entries for the interrupts.

* `Core` is the memory and what the processor keeps about the tables, and `installInterrupts` is how
  `main` puts them in place.
* `gate_idtSetGate` and `segment_gdtSetGate` say what the processor reads in an entry.
* `interrupts_installed` is the result: whatever the memory was, every interrupt has its way
  afterwards.

**Bytes and meaning.**  An entry is eight bytes, and the functions that make one split their
arguments by shifts and masks and store the pieces.  The processor puts the pieces together again,
in its own way.  The two lemmas on entries say that what it gets is what the function has been
called with, or as much of it as an entry has room for: the limit of a segment loses its upper part,
since the function takes the granularity for a whole byte.  After these two nothing depends on bits.

**Forty-eight calls.**  `isrs_install` and `irq_install` are a long row of calls of `idt_set_gate`,
with consecutive vectors and one stub after the other.  They are one definition here, `setGates`,
with the number of calls as a parameter, and `gate_setGates` is proved by induction on it: the last
call has made its own entry, and has left those before it alone.  The vectors that have no stub keep
the zeros that `memset` has put there, and these are gates that are not present.

**What is on the way.**  For an interrupt to arrive at its stub the register has to point to the
table, the gate has to be in order, and the segment it names as well.  The registers are loaded from
memory, through a pointer that is filled in before, so the writes of all tables have to be apart
from the pointers and from each other.  `TableLayout` says that they are, which is the linker's
part.
-/

set_option autoImplicit false

namespace MyaXOS

/-! ## Making entries

An entry has eight bytes, in which address, selector and limit are cut into pieces.  The code writes
the pieces and the processor puts them together; that this gives back the address is arithmetic on
bytes.  The other entries are elsewhere, so a row of entries can be made one by one. -/

/-- `gdt_set_gate(num, base, limit, access, gran)`, for the table at `gdt`. -/
def gdtSetGate (gdt : Nat) (m : Mem) (num base limit : Nat) (access gran : UInt8) : Mem :=
  let e := gdt + 8 * num
  let m := m.store16 (e + 2) (base &&& 0xFFFF)
  let m := m.store8 (e + 4) (UInt8.ofNat ((base >>> 16) &&& 0xFF))
  let m := m.store8 (e + 7) (UInt8.ofNat ((base >>> 24) &&& 0xFF))
  let m := m.store16 e (limit &&& 0xFFFF)
  let m := m.store8 (e + 6) (UInt8.ofNat ((limit >>> 16) &&& 0x0F))
  let m := m.store8 (e + 6) (m (e + 6) ||| (gran &&& 0xF0))
  m.store8 (e + 5) access

/-- `idt_set_gate(num, base, sel, flags)`, for the table at `idt`. -/
def idtSetGate (idt : Nat) (m : Mem) (num : UInt8) (base sel : Nat) (flags : UInt8) : Mem :=
  let e := idt + 8 * num.toNat
  let m := m.store16 e (base &&& 0xFFFF)
  let m := m.store16 (e + 6) ((base >>> 16) &&& 0xFFFF)
  let m := m.store16 (e + 2) sel
  let m := m.store8 (e + 4) 0
  m.store8 (e + 5) flags

section
variable {m : Mem} {idt gdt base sel limit x v : Nat} {num flags access gran : UInt8}

theorem idtSetGate_of_outside (h : x < idt + 8 * num.toNat ∨ idt + 8 * num.toNat + 8 ≤ x) :
    idtSetGate idt m num base sel flags x = m x := by
  rw [idtSetGate, Mem.store8_of_ne _ (by omega), Mem.store8_of_ne _ (by omega),
    Mem.store16_of_outside _ _ (by omega), Mem.store16_of_outside _ _ (by omega),
    Mem.store16_of_outside _ _ (by omega)]

/-- **What the processor reads in the entry `v`** after an entry has been made. -/
theorem gate_idtSetGate (hbase : base < 2 ^ 32) (hsel : sel < 2 ^ 16) :
    Gate.read (idtSetGate idt m num base sel flags) (idt + 8 * v) =
      if v = num.toNat then ⟨sel, base, flags⟩ else Gate.read m (idt + 8 * v) := by
  split_ifs with hv
  · subst hv
    rw [Gate.read, idtSetGate]
    generalize idt + 8 * num.toNat = e
    have hlow : base &&& 0xFFFF = base % 2 ^ 16 := Nat.and_two_pow_sub_one_eq_mod base 16
    have hhigh : base >>> 16 &&& 0xFFFF = base / 2 ^ 16 := by
      rw [Nat.and_two_pow_sub_one_eq_mod _ 16, Nat.shiftRight_eq_div_pow]
      omega
    rw [hlow, hhigh]
    simp [Mem.load16, Mem.store8, Mem.store16, Nat.add_assoc]
    omega
  · exact Gate.read_congr fun x hle hlt => idtSetGate_of_outside (by omega)

theorem gdtSetGate_of_outside {num : Nat} (h : x < gdt + 8 * num ∨ gdt + 8 * num + 8 ≤ x) :
    gdtSetGate gdt m num base limit access gran x = m x := by
  rw [gdtSetGate, Mem.store8_of_ne _ (by omega), Mem.store8_of_ne _ (by omega),
    Mem.store8_of_ne _ (by omega), Mem.store16_of_outside _ _ (by omega),
    Mem.store8_of_ne _ (by omega), Mem.store8_of_ne _ (by omega),
    Mem.store16_of_outside _ _ (by omega)]

/-- The two halves of a byte. -/
theorem and_or_and {a b c d : UInt8} (h : a &&& c = 0) : (d &&& a ||| b &&& c) &&& c = b &&& c := by
  rw [← UInt8.toBitVec_inj] at h ⊢
  simp only [UInt8.toBitVec_and, UInt8.toBitVec_or] at h ⊢
  ext i hi
  have hbit := congrArg (·[i]) h
  simp only [BitVec.getElem_and, UInt8.toBitVec_zero, BitVec.getElem_zero] at hbit
  simp only [BitVec.getElem_and, BitVec.getElem_or, Bool.and_or_distrib_right, Bool.and_assoc,
    hbit, Bool.and_self, Bool.and_false, Bool.false_or]

theorem low_nibble (a b : UInt8) : (a &&& 0x0F ||| b &&& 0xF0) &&& 0x0F = a &&& 0x0F := by
  rw [UInt8.or_comm]
  exact and_or_and (by decide)

theorem high_nibble (a b : UInt8) : (a &&& 0x0F ||| b &&& 0xF0) &&& 0xF0 = b &&& 0xF0 :=
  and_or_and (by decide)

/-- **What the processor reads in the entry `n`** of the other table.  There is no room for the
upper part of the limit. -/
theorem segment_gdtSetGate {num n : Nat} (hbase : base < 2 ^ 32) :
    Segment.read (gdtSetGate gdt m num base limit access gran) (gdt + 8 * n) =
      if n = num then ⟨base, limit % 2 ^ 20, access, gran &&& 0xF0⟩
      else Segment.read m (gdt + 8 * n) := by
  split_ifs with hn
  · subst hn
    rw [Segment.read, gdtSetGate]
    generalize gdt + 8 * n = e
    have hbyte (v : Nat) : UInt8.ofNat (v &&& 0xFF) = UInt8.ofNat v := by
      rw [Nat.and_two_pow_sub_one_eq_mod _ 8, UInt8.ofNat_mod_size]
    rw [hbyte, hbyte, Nat.and_two_pow_sub_one_eq_mod _ 16, Nat.and_two_pow_sub_one_eq_mod _ 16,
      UInt8.ofNat_and]
    have hnibble : (UInt8.ofNat (limit >>> 16) &&& 0x0F).toNat = limit / 2 ^ 16 % 2 ^ 4 := by
      rw [UInt8.toNat_and, UInt8.toNat_ofNat', Nat.shiftRight_eq_div_pow]
      exact (Nat.and_two_pow_sub_one_eq_mod _ 4).trans (by omega)
    simp [Mem.load16, Mem.store8, Mem.store16, Nat.add_assoc, low_nibble, high_nibble, hnibble,
      -UInt8.toNat_and]
    omega
  · exact Segment.read_congr fun x hle hlt => gdtSetGate_of_outside (by omega)

end

/-! ## Installing the tables

The four functions in the order in which `main` calls them, on a memory and with the two table
registers.  `idt_install` clears its table first, so that a gate that nobody sets is one that is not
present. -/

/-- Where the tables, the pointers to them and the stubs are. -/
structure TableLayout where
  gdt : Nat
  gp : Nat
  idt : Nat
  idtp : Nat
  /-- The addresses of `_isr0` to `_isr31`. -/
  isrAt : Nat → Nat
  /-- The addresses of `_irq0` to `_irq15`. -/
  irqAt : Nat → Nat
  gdt_lt : gdt + 24 ≤ 2 ^ 32
  idt_lt : idt + 2048 ≤ 2 ^ 32
  isrAt_lt : ∀ n, isrAt n < 2 ^ 32
  irqAt_lt : ∀ n, irqAt n < 2 ^ 32
  /-- The four variables do not overlap. -/
  apart : [(gdt, 24), (gp, 6), (idt, 2048), (idtp, 6)].Pairwise
    fun p q => p.1 + p.2 ≤ q.1 ∨ q.1 + q.2 ≤ p.1

/-- The memory, and what the processor keeps. -/
structure Core where
  mem : Mem
  gdtr : TableReg
  idtr : TableReg
  seg : SegReg → BitVec 16
  /-- The interrupt flag. -/
  interrupts : Bool

/-- What the processor does with the interrupt `v`. -/
def Core.take (c : Core) (v : Nat) : Vectored := vectored c.mem c.idtr c.gdtr v

/-- The segment that a segment register stands for. -/
def Core.segment (c : Core) (r : SegReg) : Option Segment :=
  selected c.mem c.gdtr (c.seg r).toNat

/-- `gdt_install()`. -/
def gdtInstall (L : TableLayout) (c : Core) : Core :=
  let m := c.mem.store16 L.gp (8 * 3 - 1)
  let m := m.store32 (L.gp + 2) L.gdt
  let m := gdtSetGate L.gdt m 0 0 0 0 0
  let m := gdtSetGate L.gdt m 1 0 0xFFFFFFFF 0x9A 0xCF
  let m := gdtSetGate L.gdt m 2 0 0xFFFFFFFF 0x92 0xCF
  -- `gdt_flush`
  { c with mem := m, gdtr := TableReg.load m L.gp, seg := fun r => if r = .cs then 0x08 else 0x10 }

/-- `idt_install()`. -/
def idtInstall (L : TableLayout) (c : Core) : Core :=
  let m := c.mem.store16 L.idtp (8 * 256 - 1)
  let m := m.store32 (L.idtp + 2) L.idt
  let m := memset m L.idt 0 (8 * 256)
  -- `idt_load`
  { c with mem := m, idtr := TableReg.load m L.idtp }

/-- The calls of `idt_set_gate` for `count` stubs, from the vector `first` on. -/
def setGates (idt : Nat) (at' : Nat → Nat) (first : Nat) : Nat → Mem → Mem
  | 0, m => m
  | n + 1, m =>
    idtSetGate idt (setGates idt at' first n m) (UInt8.ofNat (first + n)) (at' n) 0x08 0x8E

/-- `isrs_install()`. -/
def isrsInstall (L : TableLayout) (c : Core) : Core :=
  { c with mem := setGates L.idt L.isrAt 0 32 c.mem }

/-- `irq_install()`, but for the call of `irq_remap`, which leaves all this alone. -/
def irqInstall (L : TableLayout) (c : Core) : Core :=
  { c with mem := setGates L.idt L.irqAt 32 16 c.mem, interrupts := true }

/-- What `main` does first. -/
def installInterrupts (L : TableLayout) (c : Core) : Core :=
  irqInstall L (isrsInstall L (idtInstall L (gdtInstall L c)))

section
variable {m : Mem} {p x v : Nat}

/-- A pointer to a table is what is loaded from it. -/
theorem load_pointer {limit base : Nat} (hlimit : limit < 2 ^ 16) (hbase : base < 2 ^ 32) :
    TableReg.load ((m.store16 p limit).store32 (p + 2) base) p = ⟨limit, base⟩ := by
  rw [TableReg.load, Mem.load32_store32_self _ _ hbase,
    Mem.load16_congr fun x _ hlt => Mem.store32_of_outside _ _ (Or.inl hlt),
    Mem.load16_store16_self _ _ hlimit]

theorem load_congr {m' : Mem} (h : ∀ x, p ≤ x → x < p + 6 → m x = m' x) :
    TableReg.load m p = TableReg.load m' p := by
  rw [TableReg.load, TableReg.load, Mem.load16_congr fun x hle hlt => h x hle (by omega),
    Mem.load32_congr fun x hle hlt => h x (by omega) (by omega)]

theorem pointer_of_outside {limit base : Nat} (h : x < p ∨ p + 6 ≤ x) :
    (m.store16 p limit).store32 (p + 2) base x = m x := by
  rw [Mem.store32_of_outside _ _ (by omega), Mem.store16_of_outside _ _ (by omega)]

variable {idt first count : Nat} {at' : Nat → Nat}

/-- Entries are made in the table. -/
theorem setGates_of_outside (hcount : first + count ≤ 256) (h : x < idt ∨ idt + 2048 ≤ x) :
    setGates idt at' first count m x = m x := by
  induction count with
  | zero => rfl
  | succ count ih =>
    have hnum : (UInt8.ofNat (first + count)).toNat = first + count := by
      rw [UInt8.toNat_ofNat', Nat.mod_eq_of_lt (by omega)]
    rw [setGates, idtSetGate_of_outside (by omega)]
    exact ih (by omega)

/-- **The entries of a row of stubs**: each has the address of its stub, and the entries before and
behind the row are as they were. -/
theorem gate_setGates (hat : ∀ n, at' n < 2 ^ 32) (hcount : first + count ≤ 256) :
    Gate.read (setGates idt at' first count m) (idt + 8 * v) =
      if first ≤ v ∧ v < first + count then ⟨0x08, at' (v - first), 0x8E⟩
      else Gate.read m (idt + 8 * v) := by
  induction count with
  | zero => rw [if_neg (by omega)]; rfl
  | succ count ih =>
    have hnum : (UInt8.ofNat (first + count)).toNat = first + count := by
      rw [UInt8.toNat_ofNat', Nat.mod_eq_of_lt (by omega)]
    rw [setGates, gate_idtSetGate (hat count) (by decide), hnum, ih (by omega)]
    by_cases hv : v = first + count
    · rw [if_pos hv, if_pos (by omega), hv, Nat.add_sub_cancel_left]
    · rw [if_neg hv]
      exact if_congr (by omega) rfl rfl

/-- An entry of zeros. -/
theorem gate_memset (hidt : idt + 2048 ≤ 2 ^ 32) (hv : v < 256) :
    Gate.read (memset m idt 0 2048) (idt + 8 * v) = ⟨0, 0, 0⟩ := by
  have hzero (x : Nat) (hle : idt ≤ x) (hlt : x < idt + 2048) : memset m idt 0 2048 x = 0 :=
    memset_apply (by omega) hle hlt
  rw [Gate.read, Mem.load16, Mem.load16, Mem.load16, hzero _ (by omega) (by omega),
    hzero _ (by omega) (by omega), hzero _ (by omega) (by omega), hzero _ (by omega) (by omega),
    hzero _ (by omega) (by omega), hzero _ (by omega) (by omega), hzero _ (by omega) (by omega)]
  rfl

end

/-! ## What the processor finds

The tables and the pointers to them are apart, so each write can be looked through until the one
that has made the entry.  The result speaks of what the processor does with a vector, and no longer
of bytes. -/

section
variable (L : TableLayout) (c : Core)

/-- What is installed leaves all other memory alone. -/
theorem installInterrupts_of_outside {x : Nat} (hgdt : x < L.gdt ∨ L.gdt + 24 ≤ x)
    (hgp : x < L.gp ∨ L.gp + 6 ≤ x) (hidt : x < L.idt ∨ L.idt + 2048 ≤ x)
    (hidtp : x < L.idtp ∨ L.idtp + 6 ≤ x) : (installInterrupts L c).mem x = c.mem x := by
  change setGates L.idt L.irqAt 32 16 (setGates L.idt L.isrAt 0 32 (memset _ L.idt 0 2048)) x = _
  rw [setGates_of_outside (by decide) hidt, setGates_of_outside (by decide) hidt,
    memset_of_outside L.idt_lt hidt, pointer_of_outside hidtp]
  change gdtSetGate _ (gdtSetGate _ (gdtSetGate _ _ 0 _ _ _ _) 1 _ _ _ _) 2 _ _ _ _ x = _
  rw [gdtSetGate_of_outside (by omega), gdtSetGate_of_outside (by omega),
    gdtSetGate_of_outside (by omega), pointer_of_outside hgp]

theorem gdtr_installInterrupts : (installInterrupts L c).gdtr = ⟨23, L.gdt⟩ := by
  have hgdt := L.gdt_lt
  have hapart : L.gdt + 24 ≤ L.gp ∨ L.gp + 6 ≤ L.gdt :=
    List.rel_of_pairwise_cons L.apart List.mem_cons_self
  refine (load_congr fun x hle hlt => ?_).trans (load_pointer (m := c.mem) (by decide) (by omega))
  rw [gdtSetGate_of_outside (by omega), gdtSetGate_of_outside (by omega),
    gdtSetGate_of_outside (by omega)]

theorem idtr_installInterrupts : (installInterrupts L c).idtr = ⟨2047, L.idt⟩ := by
  have hidt := L.idt_lt
  have hapart : L.idt + 2048 ≤ L.idtp ∨ L.idtp + 6 ≤ L.idt :=
    List.rel_of_pairwise_cons (List.Pairwise.of_cons (List.Pairwise.of_cons L.apart))
      List.mem_cons_self
  refine (load_congr fun x hle hlt => ?_).trans
    (load_pointer (m := (gdtInstall L c).mem) (by decide) (by omega))
  exact memset_of_outside hidt (by omega)

/-- The gates: those of the exceptions, those of the interrupts, and zeros. -/
theorem gate_installInterrupts {v : Nat} (hv : v < 256) :
    Gate.read (installInterrupts L c).mem (L.idt + 8 * v) =
      if v < 32 then ⟨0x08, L.isrAt v, 0x8E⟩
      else if v < 48 then ⟨0x08, L.irqAt (v - 32), 0x8E⟩ else ⟨0, 0, 0⟩ := by
  change Gate.read (setGates L.idt L.irqAt 32 16 (setGates L.idt L.isrAt 0 32
    (memset _ L.idt 0 2048))) _ = _
  rw [gate_setGates L.irqAt_lt (by decide), gate_setGates L.isrAt_lt (by decide),
    gate_memset L.idt_lt hv]
  split_ifs with h32 h48 h h <;> first | rfl | omega

/-- The segments. -/
theorem segment_installInterrupts {n : Nat} (hn : n < 3) :
    Segment.read (installInterrupts L c).mem (L.gdt + 8 * n) =
      if n = 2 then ⟨0, 0xFFFFF, 0x92, 0xC0⟩
      else if n = 1 then ⟨0, 0xFFFFF, 0x9A, 0xC0⟩ else ⟨0, 0, 0, 0⟩ := by
  have hapart := List.pairwise_cons.mp L.apart
  have hidt : L.gdt + 24 ≤ L.idt ∨ L.idt + 2048 ≤ L.gdt := hapart.1 (L.idt, 2048) (by simp)
  have hidtp : L.gdt + 24 ≤ L.idtp ∨ L.idtp + 6 ≤ L.gdt := hapart.1 (L.idtp, 6) (by simp)
  have hframe (x : Nat) (hle : L.gdt + 8 * n ≤ x) (hlt : x < L.gdt + 8 * n + 8) :
      (installInterrupts L c).mem x = (gdtInstall L c).mem x := by
    change setGates L.idt L.irqAt 32 16 (setGates L.idt L.isrAt 0 32 (memset _ L.idt 0 2048)) x = _
    rw [setGates_of_outside (by decide) (by omega), setGates_of_outside (by decide) (by omega),
      memset_of_outside L.idt_lt (by omega), pointer_of_outside (by omega)]
  rw [Segment.read_congr hframe, gdtInstall, segment_gdtSetGate (by decide),
    segment_gdtSetGate (by decide), segment_gdtSetGate (by decide)]
  split_ifs <;> first | rfl | omega

/-- The way of an interrupt. -/
theorem take_installInterrupts (v : Nat) : (installInterrupts L c).take v =
    if v < 32 then .enters 0x08 (L.isrAt v) true
    else if v < 48 then .enters 0x08 (L.irqAt (v - 32)) true
    else .protection (8 * v + 2) := by
  let c' := installInterrupts L c
  have hcode : selected c'.mem c'.gdtr 0x08 = some ⟨0, 0xFFFFF, 0x9A, 0xC0⟩ := by
    rw [selected, if_neg (by decide), gdtr_installInterrupts]
    exact congrArg some (segment_installInterrupts L c (n := 1) (by decide))
  have henter (a : Nat) (ha : a < 2 ^ 32)
      (hg : (c'.idtr.entry v).map (Gate.read c'.mem) = some ⟨0x08, a, 0x8E⟩) :
      vectored c'.mem c'.idtr c'.gdtr v = .enters 0x08 a true := by
    have htype : (0x8E &&& 0x1F : UInt8) = 0x0E := by decide
    have hpresent : (0x8E &&& 0x80 : UInt8) ≠ 0 := by decide
    have hcode' : (0x9A &&& 0x78 : UInt8) = 0x18 := by decide
    have hpresent' : (0x9A &&& 0x80 : UInt8) ≠ 0 := by decide
    have hlast : a ≤ 0xFFFFFFFF := by omega
    rw [vectored_interrupt hg htype hpresent,
      Gate.enter_eq (g := ⟨0x08, a, 0x8E⟩) hcode hcode' hpresent' hlast]
    exact congrArg _ (decide_eq_true htype)
  by_cases hv : v < 256
  · have hg : (c'.idtr.entry v).map (Gate.read c'.mem) =
      some (if v < 32 then ⟨0x08, L.isrAt v, 0x8E⟩
        else if v < 48 then ⟨0x08, L.irqAt (v - 32), 0x8E⟩ else ⟨0, 0, 0⟩) := by
      rw [idtr_installInterrupts, TableReg.entry, if_pos (show 8 * v + 7 ≤ 2047 by omega),
        Option.map_some, gate_installInterrupts L c hv]
    split_ifs at hg ⊢ with h32 h48
    · exact henter _ (L.isrAt_lt v) hg
    · exact henter _ (L.irqAt_lt (v - 32)) hg
    · rw [Core.take, vectored, hg]
      rfl
  · rw [Core.take, vectored, idtr_installInterrupts, TableReg.entry,
      if_neg (show ¬ 8 * v + 7 ≤ 2047 by omega), if_neg (by omega), if_neg (by omega)]
    rfl

/-- **Every interrupt has its way.**  Whatever the memory was, the processor takes an exception to
its `_isr` stub and a hardware interrupt to its `_irq` stub, in the code segment and with interrupts
off; any other interrupt is a general protection exception, whose error code says which it was.  All
segment registers stand for a segment of 32 bits that is all of the memory; and nothing but the two
tables and the pointers to them is written. -/
theorem interrupts_installed :
    (∀ v, (installInterrupts L c).take v =
      if v < 32 then .enters 0x08 (L.isrAt v) true
      else if v < 48 then .enters 0x08 (L.irqAt (v - 32)) true
      else .protection (8 * v + 2)) ∧
    (∀ r, ∃ s, (installInterrupts L c).segment r = some s ∧ s.Present ∧ s.Is32 ∧ s.base = 0 ∧
      s.last = 0xFFFFFFFF ∧ if r = .cs then s.IsCode else s.IsData) ∧
    ∀ x, (x < L.gdt ∨ L.gdt + 24 ≤ x) → (x < L.gp ∨ L.gp + 6 ≤ x) →
      (x < L.idt ∨ L.idt + 2048 ≤ x) → (x < L.idtp ∨ L.idtp + 6 ≤ x) →
      (installInterrupts L c).mem x = c.mem x := by
  refine ⟨take_installInterrupts L c, fun r => ?_, fun x => installInterrupts_of_outside L c⟩
  have hseg : (installInterrupts L c).seg r = if r = .cs then 0x08 else 0x10 := rfl
  by_cases hr : r = .cs
  · refine ⟨⟨0, 0xFFFFF, 0x9A, 0xC0⟩, ?_, ?_⟩
    · rw [Core.segment, hseg, if_pos hr, selected, if_neg (by decide), gdtr_installInterrupts]
      exact congrArg some (segment_installInterrupts L c (n := 1) (by decide))
    · rw [if_pos hr]
      decide
  · refine ⟨⟨0, 0xFFFFF, 0x92, 0xC0⟩, ?_, ?_⟩
    · rw [Core.segment, hseg, if_neg hr, selected, if_neg (by decide), gdtr_installInterrupts]
      exact congrArg some (segment_installInterrupts L c (n := 2) (by decide))
    · rw [if_neg hr]
      decide

end

end MyaXOS
