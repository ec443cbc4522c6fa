import Mathlib.Data.Set.Basic
import MyaXOS.Lib.Interruptible
import MyaXOS.Lib.Memory

/-!
# The stack of a processor

The part of a 32-bit x86 processor that the entry to an interrupt and the return from it are written
with: the registers, the stack in memory, and the instructions that move between the two.

* `Cpu` is the processor with its memory, and `Instr.exec` what an instruction does to it.
* `Frame` is the same with the words on the stack in a list of their own, and `Instr.eval` does on a
  frame what the instruction does.  `Frame.At` relates the two: the words are where `esp` points,
  and what is above them is as it was.
* `Transparent W` allows everything that the interrupted code does not notice: the registers are as
  they were, and so is the memory from `esp` on, except in `W`.
* `Frame.At.guarantees` runs a list of instructions on the frame instead, whatever transparent
  happens in between.

**Why frames.**  To run twenty instructions that push and pop, on a stack in memory, means to
compute twenty addresses and to show for each access which of the earlier ones it meets.  On a frame
the stack is a list: a push is a cons, and what is popped is the head.  The relation `At` has all
that is to be known of addresses, and it is preserved by each instruction (`At.exec`); after that a
list of instructions is run by `rfl`, since a frame with variables in it can be computed with.

**Room.**  The words of a frame have to be above the end of the memory that the stack may use and
outside of `W`.  A frame does not know this, so `Instr.run` counts the words, and gives up when
there are more than there is room for.  The caller of `guarantees` has the room as a hypothesis,
once.

**Stability.**  What happens between two instructions may write below `esp`, and to `W`.  A frame is
not disturbed by it: its words are above `esp`, and `Clear` says that they are not in `W`.  This is
the reason why the stub has to save everything before it gives up the stack pointer.

A segment register is pushed as a word.  Processors differ in its upper half, so that is given with
the instruction.  `eip` is of interest only when it is pushed and popped.
-/

set_option autoImplicit false

/-- The general registers other than `esp`. -/
inductive Reg where
  | eax
  | ecx
  | edx
  | ebx
  | ebp
  | esi
  | edi
  deriving DecidableEq, Repr

/-- The segment registers. -/
inductive SegReg where
  | cs
  | ds
  | es
  | fs
  | gs
  | ss
  deriving DecidableEq, Repr

/-- The registers and the memory. -/
structure Cpu where
  reg : Reg → BitVec 32
  seg : SegReg → BitVec 16
  esp : BitVec 32
  eip : BitVec 32
  eflags : BitVec 32
  mem : Mem

/-- The instructions. -/
inductive Instr where
  | cli
  /-- `push byte n`. -/
  | pushByte (n : BitVec 8)
  | push (r : Reg)
  | pop (r : Reg)
  | pushSeg (upper : BitVec 16) (r : SegReg)
  | popSeg (r : SegReg)
  | pusha
  | popa
  /-- `mov ax, v`. -/
  | movAx (v : BitVec 16)
  /-- `mov r, ax`. -/
  | movSegAx (r : SegReg)
  /-- `mov eax, esp`. -/
  | movEaxEsp
  /-- `mov eax, v`. -/
  | movEax (v : BitVec 32)
  /-- `call eax`, up to the first instruction of what is called; it returns to `ret`. -/
  | callEax (ret : BitVec 32)
  /-- `add esp, 4 * n`. -/
  | addEsp (n : Nat)
  | iret

namespace Cpu

/-- Push a word. -/
def push (v : BitVec 32) (s : Cpu) : Cpu :=
  { s with esp := s.esp - 4#32, mem := s.mem.store32 (s.esp - 4#32).toNat v.toNat }

/-- The word on top of the stack. -/
def top (s : Cpu) : BitVec 32 := BitVec.ofNat 32 (s.mem.load32 s.esp.toNat)

/-- Leave `n` words of the stack behind. -/
def drop (n : Nat) (s : Cpu) : Cpu := { s with esp := s.esp + BitVec.ofNat 32 (4 * n) }

/-- Set a register. -/
def set (r : Reg) (v : BitVec 32) (s : Cpu) : Cpu := { s with reg := Function.update s.reg r v }

/-- Set a segment register. -/
def setSeg (r : SegReg) (v : BitVec 16) (s : Cpu) : Cpu :=
  { s with seg := Function.update s.seg r v }

/-- Pop a register. -/
def pop (r : Reg) (s : Cpu) : Cpu := (s.set r s.top).drop 1

/-- Pop a segment register. -/
def popSeg (r : SegReg) (s : Cpu) : Cpu := (s.setSeg r (s.top.setWidth 16)).drop 1

/-- `eflags` with the interrupt flag cleared. -/
def interruptsOff (eflags : BitVec 32) : BitVec 32 := eflags &&& ~~~0x200#32

/-- The processor takes an interrupt through an interrupt gate for the code at `offset` in the
segment `sel`.  With some interrupts it pushes an error code, `err`. -/
def interrupt (upper : BitVec 16) (err : Option (BitVec 32)) (sel : BitVec 16)
    (offset : BitVec 32) (s : Cpu) : Cpu :=
  let t := ((s.push s.eflags).push (upper ++ s.seg .cs)).push s.eip
  let t := err.elim t t.push
  -- the flags IF, TF, NT, RF and VM are cleared
  { t with
    seg := Function.update t.seg .cs sel
    eip := offset
    eflags := t.eflags &&& ~~~0x34300#32 }

end Cpu

/-- What an instruction does. -/
def Instr.exec : Instr → Cpu → Cpu
  | .cli, s => { s with eflags := Cpu.interruptsOff s.eflags }
  | .pushByte n, s => s.push (n.signExtend 32)
  | .push r, s => s.push (s.reg r)
  | .pop r, s => s.pop r
  | .pushSeg upper r, s => s.push (upper ++ s.seg r)
  | .popSeg r, s => s.popSeg r
  | .pusha, s =>
    let esp := s.esp
    let s := (((s.push (s.reg .eax)).push (s.reg .ecx)).push (s.reg .edx)).push (s.reg .ebx)
    (((s.push esp).push (s.reg .ebp)).push (s.reg .esi)).push (s.reg .edi)
  | .popa, s =>
    let s := ((s.pop .edi).pop .esi).pop .ebp
    -- the word that was pushed for `esp` is skipped
    ((((s.drop 1).pop .ebx).pop .edx).pop .ecx).pop .eax
  | .movAx v, s => s.set .eax ((s.reg .eax).extractLsb' 16 16 ++ v)
  | .movSegAx r, s => s.setSeg r ((s.reg .eax).setWidth 16)
  | .movEaxEsp, s => s.set .eax s.esp
  | .movEax v, s => s.set .eax v
  | .callEax ret, s => s.push ret
  | .addEsp n, s => s.drop n
  -- the selector is not checked here: where code returns to its own segment it is that segment's
  | .iret, s =>
    let s := { s with eip := s.top }.drop 1
    let s := s.popSeg .cs
    { s with eflags := s.top }.drop 1

/-! ## Frames

Instructions on a frame are partial: a frame has none of the words that were on the stack before, so
what pops more than has been pushed has no result.  This is what keeps a proof about a frame from
speaking of the stack of the caller. -/

/-- The registers, and the words on the stack, the last one pushed first.  On a frame, `push` and
`pop` are those of a list, and nothing is said about where the stack is; `esp` and the memory come
in when a frame is put on a processor. -/
structure Frame where
  reg : Reg → BitVec 32
  seg : SegReg → BitVec 16
  eip : BitVec 32
  eflags : BitVec 32
  words : List (BitVec 32)

namespace Frame

/-- Push a word. -/
def push (v : BitVec 32) (F : Frame) : Frame := { F with words := v :: F.words }

/-- Pop a word. -/
def pop (F : Frame) : Option (BitVec 32 × Frame) :=
  match F.words with
  | [] => none
  | w :: ws => some (w, { F with words := ws })

/-- Set a register. -/
def set (r : Reg) (v : BitVec 32) (F : Frame) : Frame :=
  { F with reg := Function.update F.reg r v }

/-- Set a segment register. -/
def setSeg (r : SegReg) (v : BitVec 16) (F : Frame) : Frame :=
  { F with seg := Function.update F.seg r v }

/-- Pop a register. -/
def popReg (r : Reg) (F : Frame) : Option Frame := F.pop.map fun p => p.2.set r p.1

/-- Pop a segment register. -/
def popSeg (r : SegReg) (F : Frame) : Option Frame :=
  F.pop.map fun p => p.2.setSeg r (p.1.setWidth 16)

/-- Leave a word behind. -/
def skip (F : Frame) : Option Frame := F.pop.map Prod.snd

/-- Leave `n` words behind. -/
def drop : Nat → Frame → Option Frame
  | 0, F => some F
  | n + 1, F => F.skip >>= drop n

/-- The frame at an interrupt: what the processor has pushed. -/
def interrupt (upper : BitVec 16) (err : Option (BitVec 32)) (sel : BitVec 16)
    (offset : BitVec 32) (s : Cpu) : Frame where
  reg := s.reg
  seg := Function.update s.seg .cs sel
  eip := offset
  eflags := s.eflags &&& ~~~0x34300#32
  words := err.toList ++ [s.eip, upper ++ s.seg .cs, s.eflags]

theorem length_interrupt (upper : BitVec 16) (err : Option (BitVec 32)) (sel : BitVec 16)
    (offset : BitVec 32) (s : Cpu) : (interrupt upper err sel offset s).words.length ≤ 4 := by
  cases err with
  | none => exact Nat.le_succ 3
  | some e => exact Nat.le_refl 4

/-- Where `esp` points, when the first word was pushed at `base`. -/
def esp (base : Nat) (F : Frame) : BitVec 32 := BitVec.ofNat 32 (base - 4 * F.words.length)

end Frame

/-- What an instruction does to a frame.  There is none after a word has been popped that was not
pushed. -/
def Instr.eval (base : Nat) : Instr → Frame → Option Frame
  | .cli, F => some { F with eflags := Cpu.interruptsOff F.eflags }
  | .pushByte n, F => some (F.push (n.signExtend 32))
  | .push r, F => some (F.push (F.reg r))
  | .pop r, F => F.popReg r
  | .pushSeg upper r, F => some (F.push (upper ++ F.seg r))
  | .popSeg r, F => F.popSeg r
  | .pusha, F =>
    let G := (((F.push (F.reg .eax)).push (F.reg .ecx)).push (F.reg .edx)).push (F.reg .ebx)
    some ((((G.push (F.esp base)).push (F.reg .ebp)).push (F.reg .esi)).push (F.reg .edi))
  | .popa, F =>
    F.popReg .edi >>= Frame.popReg .esi >>= Frame.popReg .ebp >>= Frame.skip >>=
      Frame.popReg .ebx >>= Frame.popReg .edx >>= Frame.popReg .ecx >>= Frame.popReg .eax
  | .movAx v, F => some (F.set .eax ((F.reg .eax).extractLsb' 16 16 ++ v))
  | .movSegAx r, F => some (F.setSeg r ((F.reg .eax).setWidth 16))
  | .movEaxEsp, F => some (F.set .eax (F.esp base))
  | .movEax v, F => some (F.set .eax v)
  | .callEax ret, F => some (F.push ret)
  | .addEsp n, F => F.drop n
  | .iret, F =>
    (F.pop.map fun p => { p.2 with eip := p.1 }) >>= Frame.popSeg .cs >>= fun F =>
      F.pop.map fun p => { p.2 with eflags := p.1 }

/-- Perform the instructions on a frame of no more than `room` words. -/
def Instr.run (base room : Nat) : List Instr → Frame → Option Frame
  | [], F => some F
  | i :: is, F => do
    let F ← i.eval base F
    if F.words.length ≤ room then run base room is F else none

theorem Instr.run_append (base room : Nat) (is is' : List Instr) (F : Frame) :
    run base room (is ++ is') F = run base room is F >>= run base room is' := by
  induction is generalizing F with
  | nil => rfl
  | cons i is ih =>
    rw [List.cons_append, run, run]
    cases i.eval base F with
    | none => rfl
    | some G =>
      simp only [Option.bind_eq_bind, Option.bind_some]
      split
      · exact ih G
      · rfl

/-! ## What the interrupted code does not notice

`Transparent` is what may happen to the processor between two instructions, and `At` is the relation
between the processor and a frame.  The lemmas on `At` are one for each instruction, and the one on
stability says that `At` survives what is transparent, because the words of the frame are above
`esp`. -/

/-- The registers are as they were, and the memory from `esp` on is, except in `W`.  What is below
the stack pointer belongs to nobody, and this is why an interrupt may use it and may go unnoticed.
-/
structure Transparent (W : Set Nat) (s t : Cpu) : Prop where
  reg : t.reg = s.reg
  seg : t.seg = s.seg
  esp : t.esp = s.esp
  eip : t.eip = s.eip
  eflags : t.eflags = s.eflags
  mem : ∀ x, s.esp.toNat ≤ x → x ∉ W → t.mem x = s.mem x

theorem Transparent.refl (W : Set Nat) (s : Cpu) : Transparent W s s :=
  ⟨rfl, rfl, rfl, rfl, rfl, fun _ _ _ => rfl⟩

theorem Transparent.trans {W : Set Nat} {s t u : Cpu} (h : Transparent W s t)
    (h' : Transparent W t u) : Transparent W s u where
  reg := h'.reg.trans h.reg
  seg := h'.seg.trans h.seg
  esp := h'.esp.trans h.esp
  eip := h'.eip.trans h.eip
  eflags := h'.eflags.trans h.eflags
  mem x hx hxW := (h'.mem x (by rwa [h.esp]) hxW).trans (h.mem x hx hxW)

/-- The `n` words below `base` are outside of `W`. -/
def Clear (W : Set Nat) (n base : Nat) : Prop := ∀ x ∈ W, base ≤ x + 4 * n → base ≤ x

namespace Frame

/-- The words `ws` are in memory from address `a` on. -/
def Holds (m : Mem) : Nat → List (BitVec 32) → Prop
  | _, [] => True
  | a, w :: ws => m.load32 a = w.toNat ∧ Holds m (a + 4) ws

/-- The registers are those of the frame, its words are on the stack below `base`, and from `base`
on the memory is `m₀`, except in `W`. -/
structure At (W : Set Nat) (base : Nat) (m₀ : Mem) (F : Frame) (s : Cpu) : Prop where
  reg : s.reg = F.reg
  seg : s.seg = F.seg
  eip : s.eip = F.eip
  eflags : s.eflags = F.eflags
  esp : s.esp.toNat + 4 * F.words.length = base
  words : Holds s.mem s.esp.toNat F.words
  above : ∀ x, base ≤ x → x ∉ W → s.mem x = m₀ x

section
variable {W : Set Nat} {base room n a : Nat} {m m' m₀ : Mem} {F F' : Frame} {s t : Cpu}
  {v w : BitVec 32} {ws : List (BitVec 32)} {r : Reg} {q : SegReg} {i : Instr} {is : List Instr}

theorem Holds.congr (h : ∀ x, a ≤ x → x < a + 4 * ws.length → m' x = m x) (hm : Holds m a ws) :
    Holds m' a ws := by
  induction ws generalizing a with
  | nil => trivial
  | cons w ws ih =>
    rw [List.length_cons] at h
    refine ⟨?_, ih (fun x hx hlt => h x (by omega) (by omega)) hm.2⟩
    rw [← hm.1]
    exact Mem.load32_congr fun x hx hlt => h x hx (by omega)

/-- The address of a word that is pushed. -/
theorem At.esp_sub (h : F.At W base m₀ s) (hroom : 4 * (F.words.length + 1) ≤ base) :
    (s.esp - 4#32).toNat + 4 = s.esp.toNat := by
  have hesp := h.esp
  bv_omega

/-- **A word is pushed.** -/
theorem At.push (h : F.At W base m₀ s) (hroom : 4 * (F.words.length + 1) ≤ base) :
    (F.push v).At W base m₀ (s.push v) := by
  have hesp := h.esp
  have hsub := h.esp_sub hroom
  refine ⟨h.reg, h.seg, h.eip, h.eflags, ?_, ⟨?_, ?_⟩, fun x hx hxW => ?_⟩
  · change (s.esp - 4#32).toNat + 4 * (F.words.length + 1) = base
    omega
  · exact Mem.load32_store32_self _ _ v.isLt
  · change Holds _ ((s.esp - 4#32).toNat + 4) F.words
    rw [hsub]
    exact h.words.congr fun x hx _ => Mem.store32_of_outside _ _ (by omega)
  · rw [← h.above x hx hxW]
    exact Mem.store32_of_outside _ _ (by omega)

/-- The word on top. -/
theorem At.top (h : F.At W base m₀ s) (hwords : F.words = w :: ws) : s.top = w := by
  have hholds := h.words
  rw [hwords] at hholds
  rw [Cpu.top, hholds.1, BitVec.ofNat_toNat, BitVec.setWidth_eq]

/-- **A word is left behind.** -/
theorem At.drop (h : F.At W base m₀ s) (hwords : F.words = w :: ws) (hbase : base < 2 ^ 32) :
    { F with words := ws }.At W base m₀ (s.drop 1) := by
  have hholds := h.words
  have hesp := h.esp
  rw [hwords] at hholds hesp
  rw [List.length_cons] at hesp
  have hadd : (s.esp + BitVec.ofNat 32 (4 * 1)).toNat = s.esp.toNat + 4 := by
    rw [BitVec.toNat_add, BitVec.toNat_ofNat]
    omega
  refine ⟨h.reg, h.seg, h.eip, h.eflags, ?_, ?_, h.above⟩
  · change (s.esp + BitVec.ofNat 32 (4 * 1)).toNat + 4 * ws.length = base
    omega
  · change Holds s.mem (s.esp + BitVec.ofNat 32 (4 * 1)).toNat ws
    rw [hadd]
    exact hholds.2

theorem At.set (h : F.At W base m₀ s) (r : Reg) (v : BitVec 32) :
    (F.set r v).At W base m₀ (s.set r v) :=
  ⟨by rw [Cpu.set, Frame.set, h.reg], h.seg, h.eip, h.eflags, h.esp, h.words, h.above⟩

theorem At.setSeg (h : F.At W base m₀ s) (q : SegReg) (v : BitVec 16) :
    (F.setSeg q v).At W base m₀ (s.setSeg q v) :=
  ⟨h.reg, by rw [Cpu.setSeg, Frame.setSeg, h.seg], h.eip, h.eflags, h.esp, h.words, h.above⟩

theorem pop_eq_some {p : BitVec 32 × Frame} (h : F.pop = some p) :
    ∃ ws, F.words = p.1 :: ws ∧ p.2 = { F with words := ws } := by
  rw [Frame.pop] at h
  split at h
  · cases h
  · next w ws hwords =>
    cases h
    exact ⟨ws, hwords, rfl⟩

/-- A register is popped. -/
theorem At.pop (h : F.At W base m₀ s) (hbase : base < 2 ^ 32) (hpop : F.popReg r = some F') :
    F'.At W base m₀ (s.pop r) := by
  obtain ⟨p, hp, rfl⟩ := Option.map_eq_some_iff.mp hpop
  obtain ⟨ws, hwords, hrest⟩ := pop_eq_some hp
  rw [hrest, Cpu.pop, h.top hwords]
  exact (h.drop hwords hbase).set r p.1

/-- A segment register is popped. -/
theorem At.popSeg (h : F.At W base m₀ s) (hbase : base < 2 ^ 32) (hpop : F.popSeg q = some F') :
    F'.At W base m₀ (s.popSeg q) := by
  obtain ⟨p, hp, rfl⟩ := Option.map_eq_some_iff.mp hpop
  obtain ⟨ws, hwords, hrest⟩ := pop_eq_some hp
  rw [hrest, Cpu.popSeg, h.top hwords]
  exact (h.drop hwords hbase).setSeg q _

theorem At.skip (h : F.At W base m₀ s) (hbase : base < 2 ^ 32) (hskip : F.skip = some F') :
    F'.At W base m₀ (s.drop 1) := by
  obtain ⟨p, hp, rfl⟩ := Option.map_eq_some_iff.mp hskip
  obtain ⟨ws, hwords, hrest⟩ := pop_eq_some hp
  rw [hrest]
  exact h.drop hwords hbase

theorem At.dropAll (h : F.At W base m₀ s) (hbase : base < 2 ^ 32) (hdrop : F.drop n = some F') :
    F'.At W base m₀ (s.drop n) := by
  induction n generalizing F s with
  | zero =>
    cases hdrop
    rwa [Cpu.drop, BitVec.add_zero]
  | succ n ih =>
    obtain ⟨G, hskip, hrest⟩ := Option.bind_eq_some_iff.mp hdrop
    have hsplit : s.drop (n + 1) = (s.drop 1).drop n := by
      rw [Cpu.drop, Cpu.drop, Cpu.drop, BitVec.add_assoc, ← BitVec.ofNat_add, Nat.mul_add,
        Nat.add_comm]
    rw [hsplit]
    exact ih (h.skip hbase hskip) hrest

/-- `esp`, computed from the words on the stack. -/
theorem At.esp_eq (h : F.At W base m₀ s) : s.esp = F.esp base := by
  have hesp := h.esp
  rw [Frame.esp, show base - 4 * F.words.length = s.esp.toNat by omega, BitVec.ofNat_toNat,
    BitVec.setWidth_eq]

/-- All registers are pushed. -/
theorem At.pusha (h : F.At W base m₀ s) (heval : Instr.eval base .pusha F = some F')
    (hroom : 4 * F'.words.length ≤ base) : F'.At W base m₀ (Instr.exec .pusha s) := by
  cases heval
  change 4 * (F.words.length + 8) ≤ base at hroom
  rw [← h.reg, ← h.esp_eq]
  have h₁ := h.push (v := s.reg .eax) (by omega)
  have h₂ := h₁.push (v := s.reg .ecx) (by change 4 * (F.words.length + 2) ≤ base; omega)
  have h₃ := h₂.push (v := s.reg .edx) (by change 4 * (F.words.length + 3) ≤ base; omega)
  have h₄ := h₃.push (v := s.reg .ebx) (by change 4 * (F.words.length + 4) ≤ base; omega)
  have h₅ := h₄.push (v := s.esp) (by change 4 * (F.words.length + 5) ≤ base; omega)
  have h₆ := h₅.push (v := s.reg .ebp) (by change 4 * (F.words.length + 6) ≤ base; omega)
  have h₇ := h₆.push (v := s.reg .esi) (by change 4 * (F.words.length + 7) ≤ base; omega)
  exact h₇.push hroom

/-- All registers are popped. -/
theorem At.popa (h : F.At W base m₀ s) (hbase : base < 2 ^ 32)
    (heval : Instr.eval base .popa F = some F') : F'.At W base m₀ (Instr.exec .popa s) := by
  simp only [Instr.eval, Option.bind_eq_bind, Option.bind_eq_some_iff] at heval
  obtain ⟨G₇, ⟨G₆, ⟨G₅, ⟨G₄, ⟨G₃, ⟨G₂, ⟨G₁, h₁, h₂⟩, h₃⟩, h₄⟩, h₅⟩, h₆⟩, h₇⟩, h₈⟩ := heval
  have hskip := (((h.pop hbase h₁).pop hbase h₂).pop hbase h₃).skip hbase h₄
  exact (((hskip.pop hbase h₅).pop hbase h₆).pop hbase h₇).pop hbase h₈

/-- The interrupt returns. -/
theorem At.iret (h : F.At W base m₀ s) (hbase : base < 2 ^ 32)
    (heval : Instr.eval base .iret F = some F') : F'.At W base m₀ (Instr.exec .iret s) := by
  simp only [Instr.eval, Option.bind_eq_bind, Option.bind_eq_some_iff] at heval
  obtain ⟨G₂, ⟨G₁, heip, hcs⟩, heflags⟩ := heval
  obtain ⟨p, hp, rfl⟩ := Option.map_eq_some_iff.mp heip
  obtain ⟨q, hq, rfl⟩ := Option.map_eq_some_iff.mp heflags
  obtain ⟨ws, hwords, hrest⟩ := pop_eq_some hp
  obtain ⟨ws', hwords', hrest'⟩ := pop_eq_some hq
  have h₁ : { F with eip := p.1, words := ws }.At W base m₀ ({ s with eip := s.top }.drop 1) := by
    rw [h.top hwords]
    have hdrop := h.drop hwords hbase
    exact ⟨hdrop.reg, hdrop.seg, rfl, hdrop.eflags, hdrop.esp, hdrop.words, hdrop.above⟩
  rw [hrest] at hcs
  have h₂ := h₁.popSeg hbase hcs
  rw [Instr.exec]
  simp only [h₂.top hwords', hrest']
  have hdrop := h₂.drop hwords' hbase
  exact ⟨hdrop.reg, hdrop.seg, hdrop.eip, rfl, hdrop.esp, hdrop.words, hdrop.above⟩

/-- **The processor takes an interrupt**, and pushes three words, or four with an error code, on the
stack of the interrupted code. -/
theorem at_interrupt (upper : BitVec 16) (err : Option (BitVec 32)) (sel : BitVec 16)
    (offset : BitVec 32) (hroom : 16 ≤ s.esp.toNat) :
    (interrupt upper err sel offset s).At W s.esp.toNat s.mem
      (s.interrupt upper err sel offset) := by
  have h₀ : Frame.At W s.esp.toNat s.mem ⟨s.reg, s.seg, s.eip, s.eflags, []⟩ s :=
    ⟨rfl, rfl, rfl, rfl, rfl, trivial, fun _ _ _ => rfl⟩
  have h₁ := h₀.push (v := s.eflags) (by change 4 * 1 ≤ s.esp.toNat; omega)
  have h₂ := h₁.push (v := upper ++ s.seg .cs) (by change 4 * 2 ≤ s.esp.toNat; omega)
  have h₃ := h₂.push (v := s.eip) (by change 4 * 3 ≤ s.esp.toNat; omega)
  cases err with
  | none => exact ⟨rfl, rfl, rfl, rfl, h₃.esp, h₃.words, h₃.above⟩
  | some e =>
    have h₄ := h₃.push (v := e) hroom
    exact ⟨rfl, rfl, rfl, rfl, h₄.esp, h₄.words, h₄.above⟩

/-- **An instruction does to the processor what it does to the frame**, as long as there is room for
the words. -/
theorem At.exec (h : F.At W base m₀ s) (hbase : base < 2 ^ 32) (heval : i.eval base F = some F')
    (hroom : 4 * F'.words.length ≤ base) : F'.At W base m₀ (i.exec s) := by
  cases i with
  | cli =>
    cases heval
    exact ⟨h.reg, h.seg, h.eip, congrArg Cpu.interruptsOff h.eflags, h.esp, h.words, h.above⟩
  | pushByte n =>
    cases heval
    exact h.push hroom
  | push r =>
    cases heval
    rw [Instr.exec, h.reg]
    exact h.push hroom
  | pop r => exact h.pop hbase heval
  | pushSeg upper r =>
    cases heval
    rw [Instr.exec, h.seg]
    exact h.push hroom
  | popSeg r => exact h.popSeg hbase heval
  | pusha => exact h.pusha heval hroom
  | popa => exact h.popa hbase heval
  | movAx v =>
    cases heval
    rw [Instr.exec, h.reg]
    exact h.set .eax _
  | movSegAx r =>
    cases heval
    rw [Instr.exec, h.reg]
    exact h.setSeg r _
  | movEaxEsp =>
    cases heval
    rw [Instr.exec, h.esp_eq]
    exact h.set .eax _
  | movEax v =>
    cases heval
    exact h.set .eax v
  | callEax ret =>
    cases heval
    exact h.push hroom
  | addEsp n => exact h.dropAll hbase heval
  | iret => exact h.iret hbase heval

/-- **A frame is not disturbed** by what is transparent, if it is clear of `W`. -/
theorem At.stable (hclear : Clear W room base) (hroom : F.words.length ≤ room) :
    Interruptible.Stable (Transparent W) (F.At W base m₀) := by
  intro s t hst h
  have hesp := h.esp
  refine ⟨hst.reg.trans h.reg, hst.seg.trans h.seg, hst.eip.trans h.eip,
    hst.eflags.trans h.eflags, by rw [hst.esp, hesp], ?_, fun x hx hxW => ?_⟩
  · rw [hst.esp]
    refine h.words.congr fun x hx hlt => hst.mem x hx fun hxW => ?_
    have hbase := hclear x hxW (by omega)
    omega
  · rw [hst.mem x (by omega) hxW, h.above x hx hxW]

/-- **A list of instructions** does to the processor what it does to the frame, whatever transparent
happens in between. -/
theorem At.guarantees (hclear : Clear W room base) (hroom : 4 * room ≤ base)
    (hbase : base < 2 ^ 32) (hF : F.words.length ≤ room)
    (hrun : Instr.run base room is F = some F') :
    Interruptible.Guarantees (Transparent W) (F.At W base m₀) (is.map Instr.exec)
      (F'.At W base m₀) := by
  induction is generalizing F with
  | nil =>
    cases hrun
    exact .nil (At.stable hclear hF)
  | cons i is ih =>
    obtain ⟨G, heval, hrest⟩ := Option.bind_eq_some_iff.mp hrun
    split at hrest
    · next hG =>
      exact .cons (At.stable hclear hF) (fun s h => h.exec hbase heval (by omega)) (ih hG hrest)
    · cases hrest

end

end Frame
