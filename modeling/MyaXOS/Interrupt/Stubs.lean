import MyaXOS.Lib.Cpu

/-!
# The way into an interrupt and back

The interrupt descriptor table leads to the stubs of `start.asm`.  A stub makes the stack look the
same for all interrupts, saves the registers, and calls `fault_handler` or `irq_handler` with a
pointer to what it has saved; then it restores the registers and returns.

* `isr`, `irq`, `commonEntry` and `commonExit` are the stubs; `Trap` is one interrupt with all that
  is particular to it.
* `Returns` is what a C function does for its caller, and `Conventional` asks this of the handlers.
* `trap_transparent` says that the interrupted code does not notice an interrupt, and this is so
  whatever other interrupts come while it is handled.
* `interrupts_unseen` says what this means for a program that is interrupted anywhere.
* `handler_regs` is about the `struct regs` that a handler finds.

**One stub for all.**  The stubs differ in what they push before the jump, and there are three
kinds:  for exceptions with an error code, for exceptions without one, and for the hardware
interrupts.  `Taken.stub_run` is the only lemma that looks at them.  After it there is a list of
words on the stack, the same for every interrupt, and what follows is the code that all of them
share.

**Interrupts in between.**  Between any two instructions of a stub another interrupt may come, if
only one that cannot be switched off, and its stub may be interrupted too.  So nothing can be proved
by running the code from its first instruction to its last.  What is proved is that the code,
disturbed by steps that are `Transparent`, is transparent itself (`Taken.transparent`), and
`Nested.steps` concludes that interrupts are, to any depth.

The disturbance leaves alone what is on the stack, the memory above it, and all registers.  It may
change what is below the stack pointer and the variables of the kernel, `W`.  So the stub runs as if
it were alone as long as what it has saved is above its stack pointer and outside of `W`.  Both are
seen from the shape of the stack: each instruction is run on a `Frame`, which has the words in a
list, and `Frame.At.guarantees` carries the result over to the processor.

**The handlers** are C functions, of which only their convention is known: they return to where they
have been called from, with the registers of the caller and its stack as they were, and do not write
to what has been saved.  A handler that wrote to its `struct regs` would change the registers of the
interrupted code; this is what the field `mem` of `Returns` excludes.

`unexpected_error` is about an exception that pushes an error code and goes to a stub which does not
expect one.
-/

set_option autoImplicit false

namespace MyaXOS

open Interruptible

/-! ## The stubs

`start.asm` makes the stubs with macros; here a macro is a function of the number of the interrupt.
The two common stubs have the same instructions but for the address that they call, and the jumps
into them are left out, since nothing but `eip` depends on where the instructions are. -/

/-- `ISR_NOERR n`, up to the jump. -/
def isrNoErr (n : Nat) : List Instr := [.cli, .pushByte 0, .pushByte (BitVec.ofNat 8 n)]

/-- `ISR_ERR n`, up to the jump. -/
def isrErr (n : Nat) : List Instr := [.cli, .pushByte (BitVec.ofNat 8 n)]

/-- `IRQ_ENTRY irq, n`, up to the jump. -/
def irqEntry (n : Nat) : List Instr := [.cli, .pushByte 0, .pushByte (BitVec.ofNat 8 n)]

/-- The exceptions whose stub is an `ISR_ERR`. -/
def errVectors : List Nat := [8, 10, 11, 12, 13, 14]

/-- `_isr0` to `_isr31`. -/
def isr (n : Nat) : List Instr := if n ∈ errVectors then isrErr n else isrNoErr n

/-- `_irq0` to `_irq15`. -/
def irq (n : Nat) : List Instr := irqEntry (n + 32)

/-- The stub of an interrupt. -/
def stub (vector : Nat) : List Instr := if vector < 32 then isr vector else irq (vector - 32)

/-- `isr_common_stub` and `irq_common_stub`, which differ in the address `handler` only, up to the
call.  The call returns to `ret`. -/
def commonEntry (upper : SegReg → BitVec 16) (handler ret : BitVec 32) : List Instr :=
  [.pusha, .pushSeg (upper .ds) .ds, .pushSeg (upper .es) .es, .pushSeg (upper .fs) .fs,
    .pushSeg (upper .gs) .gs, .movAx 0x10, .movSegAx .ds, .movSegAx .es, .movSegAx .fs,
    .movSegAx .gs, .movEaxEsp, .push .eax, .movEax handler, .callEax ret]

/-- `isr_common_stub` and `irq_common_stub` after the call. -/
def commonExit : List Instr :=
  [.pop .eax, .popSeg .gs, .popSeg .fs, .popSeg .es, .popSeg .ds, .popa, .addEsp 2, .iret]

/-- An interrupt. -/
structure Trap where
  vector : Nat
  /-- The error code that the processor pushes. -/
  err : Option (BitVec 32)
  /-- What the processor writes to the upper half of a word when it pushes a segment register. -/
  upper : SegReg → BitVec 16
  /-- The gate. -/
  sel : BitVec 16
  offset : BitVec 32
  /-- The address of `fault_handler` or `irq_handler`. -/
  handler : BitVec 32
  ret : BitVec 32
  /-- What the handler does, its `ret` included. -/
  body : List (Cpu → Cpu)

namespace Trap

/-- The processor takes the interrupt. -/
def start (k : Trap) (s : Cpu) : Cpu := s.interrupt (k.upper .cs) k.err k.sel k.offset

/-- The stub up to the first instruction of the handler. -/
def entry (k : Trap) : List Instr := stub k.vector ++ commonEntry k.upper k.handler k.ret

/-- The code that runs. -/
def code (k : Trap) : List (Cpu → Cpu) :=
  k.entry.map Instr.exec ++ k.body ++ commonExit.map Instr.exec

end Trap

/-! ## The convention for calls

A handler is compiled from C, so what is known of it is what the convention says: it returns to its
caller, it keeps the registers that are the caller's, and it writes below its stack and to the
variables `W` of the kernel.  It may be interrupted itself; hence it is a set of possible lists of
operations, and `Conventional` is about each of them with transparent steps in between. -/

/-- The handler has been called, with the address of what lies above its argument. -/
structure Called (s : Cpu) : Prop where
  room : s.esp.toNat + 8 < 2 ^ 32
  arg : s.mem.load32 (s.esp.toNat + 4) = s.esp.toNat + 8

/-- A C function has returned: the return address is gone, the registers that belong to the caller
are as they were, and so is the stack of the caller, except for the argument. -/
structure Returns (W : Set Nat) (s t : Cpu) : Prop where
  esp : t.esp = s.esp + 4#32
  ebx : t.reg .ebx = s.reg .ebx
  esi : t.reg .esi = s.reg .esi
  edi : t.reg .edi = s.reg .edi
  ebp : t.reg .ebp = s.reg .ebp
  seg : t.seg = s.seg
  mem : ∀ x, s.esp.toNat + 8 ≤ x → x ∉ W → t.mem x = s.mem x

/-- What the handlers do.  `bodies vector` are the ways in which a handler can run; whatever
transparent happens meanwhile, it returns as a C function does, and on the stack of its caller it
writes to `W` only. -/
def Conventional (W : Set Nat) (bodies : Nat → Set (List (Cpu → Cpu))) : Prop :=
  ∀ vector, ∀ body ∈ bodies vector, ∀ s t, Called s → Steps (Transparent W) body s t → Returns W s t

/-- An interrupt is taken in the state `s`.  The processor pushes an error code for those vectors
whose stub expects one, and there is room on the stack, apart from `W`. -/
structure Taken (W : Set Nat) (bodies : Nat → Set (List (Cpu → Cpu))) (k : Trap) (s : Cpu) :
    Prop where
  vector : k.vector < 48
  err : k.err.isSome ↔ k.vector ∈ errVectors
  body : k.body ∈ bodies k.vector
  room : 76 ≤ s.esp.toNat
  clear : Clear W 19 s.esp.toNat

/-- The traps of `Nested`. -/
def Traps (W : Set Nat) (bodies : Nat → Set (List (Cpu → Cpu))) (s s' : Cpu)
    (code : List (Cpu → Cpu)) : Prop :=
  ∃ k, Taken W bodies k s ∧ s' = k.start s ∧ code = k.code

/-! ## What is saved

The way in and the way back are run on frames, where each is a computation.  In between is the
handler, which is a C function and so leaves the words above its argument as they are.  The three
pieces are put together by `Guarantees.append`, and the result is an assertion about the end that
speaks of the registers at the start. -/

/-- The registers that the stub saves, from the lowest address on.  At the `pusha` the stack pointer
is `esp`. -/
def Trap.savedRegs (k : Trap) (s : Cpu) (esp : BitVec 32) : List (BitVec 32) :=
  [k.upper .gs ++ s.seg .gs, k.upper .fs ++ s.seg .fs, k.upper .es ++ s.seg .es,
    k.upper .ds ++ s.seg .ds, s.reg .edi, s.reg .esi, s.reg .ebp, esp, s.reg .ebx, s.reg .edx,
    s.reg .ecx, s.reg .eax]

/-- What is on the stack when the handler is called: above the registers there are the number of the
interrupt, the error code, and what the processor has pushed. -/
def Trap.saved (k : Trap) (s : Cpu) : List (BitVec 32) :=
  k.savedRegs s (BitVec.ofNat 32 (s.esp.toNat - 20)) ++
    [BitVec.ofNat 32 k.vector, k.err.getD 0, s.eip, k.upper .cs ++ s.seg .cs, s.eflags]

section
variable {W : Set Nat} {bodies : Nat → Set (List (Cpu → Cpu))} {k : Trap} {s s' t : Cpu}
  {code ops : List (Cpu → Cpu)}

/-- A byte that is pushed for the number of an interrupt. -/
theorem signExtend_vector : ∀ n < 48,
    (BitVec.ofNat 8 n).signExtend 32 = BitVec.ofNat 32 n := by
  decide

theorem setWidth_upper (u v : BitVec 16) : (u ++ v).setWidth 16 = v := by
  rw [BitVec.setWidth_append, dif_pos le_rfl, BitVec.setWidth_eq]

/-- **The stubs make the stack look the same**: above what the processor has pushed there are the
error code, or a zero, and the number of the interrupt. -/
theorem Taken.stub_run (h : Taken W bodies k s) : ∃ F,
    Instr.run s.esp.toNat 19 (stub k.vector)
        (Frame.interrupt (k.upper .cs) k.err k.sel k.offset s) = some F ∧
      F.reg = s.reg ∧ F.seg = Function.update s.seg .cs k.sel ∧
      F.words = [BitVec.ofNat 32 k.vector, k.err.getD 0, s.eip, k.upper .cs ++ s.seg .cs,
        s.eflags] := by
  have hsign := signExtend_vector k.vector h.vector
  have herr := h.err
  by_cases hmem : k.vector ∈ errVectors
  · obtain ⟨e, he⟩ := Option.isSome_iff_exists.mp (herr.mpr hmem)
    have hlt : k.vector < 32 := by
      revert hmem
      generalize k.vector = n
      simp only [errVectors, List.mem_cons, List.not_mem_nil, or_false]
      omega
    rw [stub, if_pos hlt, isr, if_pos hmem, isrErr, he, ← hsign]
    exact ⟨_, rfl, rfl, rfl, rfl⟩
  · have he : k.err = none := Option.not_isSome_iff_eq_none.mp (mt herr.mp hmem)
    rw [he, ← hsign, stub]
    split_ifs with hlt
    · rw [isr, if_neg hmem]
      exact ⟨_, rfl, rfl, rfl, rfl⟩
    · rw [irq, Nat.sub_add_cancel (Nat.not_lt.mp hlt)]
      exact ⟨_, rfl, rfl, rfl, rfl⟩

/-- **The way in**: what has been saved is on the stack, and above it the argument and the return
address. -/
theorem Taken.entry_run (h : Taken W bodies k s) : ∃ F,
    Instr.run s.esp.toNat 19 k.entry
        (Frame.interrupt (k.upper .cs) k.err k.sel k.offset s) = some F ∧
      F.words = k.ret :: BitVec.ofNat 32 (s.esp.toNat - 4 * (k.saved s).length) :: k.saved s ∧
      (∀ r, r ≠ .eax → F.reg r = s.reg r) ∧ F.seg .ss = s.seg .ss := by
  obtain ⟨F, hstub, hreg, hseg, hwords⟩ := h.stub_run
  obtain ⟨reg, seg, eip, eflags, words⟩ := F
  obtain rfl : reg = s.reg := hreg
  obtain rfl : seg = Function.update s.seg .cs k.sel := hseg
  obtain rfl : words = _ := hwords
  rw [Trap.entry, Instr.run_append, hstub]
  refine ⟨_, rfl, rfl, fun r hr => ?_, rfl⟩
  cases r with
  | eax => exact absurd rfl hr
  | _ => rfl

/-- **The way back.**  The argument may have changed, and so may the registers; what is popped are
the words above the argument, and these are as they were saved. -/
theorem exit_run (base : Nat) {F : Frame} {arg : BitVec 32} (hwords : F.words = arg :: k.saved s)
    (hss : F.seg .ss = s.seg .ss) : ∃ G, Instr.run base 19 commonExit F = some G ∧
      G.reg = s.reg ∧ G.seg = s.seg ∧ G.eip = s.eip ∧ G.eflags = s.eflags ∧ G.words = [] := by
  obtain ⟨reg, seg, eip, eflags, words⟩ := F
  cases hwords
  refine ⟨_, rfl, ?_, ?_, rfl, rfl, rfl⟩
  · funext r
    cases r <;> rfl
  · funext q
    cases q with
    | ss => exact hss
    | cs => exact setWidth_upper _ _
    | ds => exact setWidth_upper _ _
    | es => exact setWidth_upper _ _
    | fs => exact setWidth_upper _ _
    | gs => exact setWidth_upper _ _

/-- The handler is called as a C function is, with the address of the words `ws`. -/
theorem called_of_at {base : Nat} {m₀ : Mem} {F : Frame} {ret : BitVec 32}
    {ws : List (BitVec 32)} (hF : F.At W base m₀ t)
    (hwords : F.words = ret :: BitVec.ofNat 32 (base - 4 * ws.length) :: ws)
    (hbase : base < 2 ^ 32) (hpos : 0 < ws.length) : Called t := by
  have hesp := hF.esp
  have hholds := hF.words
  rw [hwords] at hesp hholds
  rw [List.length_cons, List.length_cons] at hesp
  refine ⟨by omega, ?_⟩
  rw [hholds.2.1, BitVec.toNat_ofNat]
  omega

/-- When the handler has returned, the words above its argument are still there. -/
theorem at_of_returns {base room : Nat} {m₀ : Mem} {F : Frame} {ret arg : BitVec 32}
    {ws : List (BitVec 32)} {m : Cpu} (hF : F.At W base m₀ m) (hwords : F.words = ret :: arg :: ws)
    (hbase : base < 2 ^ 32) (hclear : Clear W room base) (hroom : ws.length + 2 ≤ room)
    (hreturns : Returns W m t) :
    Frame.At W base m₀ ⟨t.reg, t.seg, t.eip, t.eflags,
      BitVec.ofNat 32 (t.mem.load32 t.esp.toNat) :: ws⟩ t := by
  have hesp := hF.esp
  have hholds := hF.words
  rw [hwords] at hesp hholds
  rw [List.length_cons, List.length_cons] at hesp
  have hesp' : t.esp.toNat = m.esp.toNat + 4 := by
    rw [hreturns.esp, BitVec.toNat_add, BitVec.toNat_ofNat]
    omega
  refine ⟨rfl, rfl, rfl, rfl, ?_, ⟨?_, ?_⟩, fun x hx hxW => ?_⟩
  · rw [List.length_cons]
    omega
  · rw [BitVec.toNat_ofNat, Nat.mod_eq_of_lt (Mem.load32_lt _ _)]
  · rw [hesp']
    refine hholds.2.2.congr fun x hx hlt => hreturns.mem x hx fun hxW => ?_
    have hle := hclear x hxW (by omega)
    omega
  · rw [hreturns.mem x (by omega) hxW, hF.above x hx hxW]

/-- **From the interrupt to its return.**  The way in puts the words `ws` on the stack, with the
argument and the return address above them; from any frame with these words, the way back `back`
leads to one in `Q`. -/
theorem at_of_code {room : Nat} {F : Frame} {ws : List (BitVec 32)} {Q : Frame → Prop}
    {back : List Instr} (hconv : Conventional W bodies) (hbody : k.body ∈ bodies k.vector)
    (hesp : 4 * room ≤ s.esp.toNat) (hfour : 4 ≤ room) (hclear : Clear W room s.esp.toNat)
    (hentry : Instr.run s.esp.toNat room k.entry
      (Frame.interrupt (k.upper .cs) k.err k.sel k.offset s) = some F)
    (hwords : F.words = k.ret :: BitVec.ofNat 32 (s.esp.toNat - 4 * ws.length) :: ws)
    (hss : F.seg .ss = s.seg .ss) (hpos : 0 < ws.length) (hroom : ws.length + 2 ≤ room)
    (hexit : ∀ (F : Frame) (arg : BitVec 32), F.words = arg :: ws → F.seg .ss = s.seg .ss →
      ∃ G, Instr.run s.esp.toNat room back F = some G ∧ Q G)
    (hst : Steps (Transparent W) (k.entry.map Instr.exec ++ k.body ++ back.map Instr.exec)
      (k.start s) t) :
    ∃ G, Q G ∧ G.At W s.esp.toNat s.mem t := by
  have hbase := s.esp.isLt
  have hstart := Frame.at_interrupt (W := W) (k.upper .cs) k.err k.sel k.offset
    (show 16 ≤ s.esp.toNat by omega)
  obtain ⟨m', hm', hback⟩ := hst.of_append
  obtain ⟨m, hm, hhandler⟩ := hm'.of_append
  have hat := Frame.At.guarantees hclear hesp hbase
    ((Frame.length_interrupt ..).trans hfour) hentry _ _ hstart hm
  have hreturns := hconv _ _ hbody _ _ (called_of_at hat hwords hbase hpos) hhandler
  have hat' := at_of_returns hat hwords hbase hclear hroom hreturns
  have hss' : m'.seg .ss = s.seg .ss := by rw [hreturns.seg, hat.seg, hss]
  obtain ⟨G, hrun, hG⟩ := hexit ⟨m'.reg, m'.seg, m'.eip, m'.eflags, _ :: ws⟩ _ rfl hss'
  exact ⟨G, hG, Frame.At.guarantees hclear hesp hbase (by change ws.length + 1 ≤ room; omega)
    hrun _ _ hat' hback⟩

/-- **An interrupt is transparent**, if what happens while it is handled is.  The hypothesis is
about the traps inside of it, and this is where the induction on nested traps has its step. -/
theorem Taken.transparent (hconv : Conventional W bodies) (h : Taken W bodies k s)
    (hst : Steps (Transparent W) k.code (k.start s) t) : Transparent W s t := by
  obtain ⟨F, hentry, hwords, -, hss⟩ := h.entry_run
  have hlength : (k.saved s).length = 17 := rfl
  obtain ⟨G, ⟨hreg, hseg, heip, heflags, hnil⟩, hat⟩ :=
    at_of_code hconv h.body h.room (by decide) h.clear hentry hwords hss (by omega) (by omega)
      (fun F arg => exit_run s.esp.toNat) hst
  have hesp := hat.esp
  rw [hnil] at hesp
  exact ⟨hat.reg.trans hreg, hat.seg.trans hseg, BitVec.eq_of_toNat_eq hesp, hat.eip.trans heip,
    hat.eflags.trans heflags, hat.above⟩

/-- Interrupts are transparent, one by one. -/
theorem traps_transparent (hconv : Conventional W bodies) (htraps : Traps W bodies s s' code)
    (hst : Steps (Transparent W) code s' t) : Transparent W s t := by
  obtain ⟨k, hk, rfl, rfl⟩ := htraps
  exact hk.transparent hconv hst

/-- **The interrupted code does not notice an interrupt**, whatever other interrupts come while it
is handled, in the stub or in the handler, and however deep they are nested. -/
theorem trap_transparent (hconv : Conventional W bodies) (h : Taken W bodies k s)
    (hrun : Nested (Traps W bodies) k.code (k.start s) t) : Transparent W s t :=
  h.transparent hconv (hrun.steps fun _ _ _ _ => traps_transparent hconv)

/-! ### A handler that counts

A handler for the examples, with the convention proved of it: it writes to a variable of the kernel
and returns. -/

/-- Where the kernel has its variables. -/
def kernelData : Set Nat := {x | 0x100000 ≤ x}

/-- A handler that counts in the first byte of the variables and returns. -/
def countBody : List (Cpu → Cpu) :=
  [fun s => { s with mem := s.mem.store8 0x100000 (s.mem 0x100000 + 1) }, Cpu.drop 1]

theorem countBody_conventional : Conventional kernelData fun _ => {countBody} := by
  rintro _ body rfl s t hcalled hst
  have hroom := hcalled.room
  have hcount : ∀ u, Transparent kernelData s u → Transparent kernelData s
      { u with mem := u.mem.store8 0x100000 (u.mem 0x100000 + 1) } := by
    intro u hu
    refine ⟨hu.reg, hu.seg, hu.esp, hu.eip, hu.eflags, fun x hx hxW => ?_⟩
    rw [← hu.mem x hx hxW]
    exact Mem.store8_of_ne _ fun h => hxW (Nat.le_of_eq h.symm)
  have hret : ∀ u, Transparent kernelData s u → Returns kernelData s (u.drop 1) := by
    intro u hu
    exact ⟨congrArg (· + 4#32) hu.esp, congrFun hu.reg _, congrFun hu.reg _, congrFun hu.reg _,
      congrFun hu.reg _, hu.seg, fun x hx hxW => hu.mem x (by omega) hxW⟩
  have hstable : Stable (Transparent kernelData) (Returns kernelData s) := by
    intro u u' hu' hu
    have hesp : u.esp.toNat = s.esp.toNat + 4 := by
      rw [hu.esp, BitVec.toNat_add, BitVec.toNat_ofNat]
      omega
    refine ⟨hu'.esp.trans hu.esp, (congrFun hu'.reg _).trans hu.ebx,
      (congrFun hu'.reg _).trans hu.esi, (congrFun hu'.reg _).trans hu.edi,
      (congrFun hu'.reg _).trans hu.ebp, hu'.seg.trans hu.seg, fun x hx hxW => ?_⟩
    rw [hu'.mem x (by omega) hxW, hu.mem x hx hxW]
  have htransparent : Stable (Transparent kernelData) (Transparent kernelData s) :=
    fun u u' hu' hu => hu.trans hu'
  exact Guarantees.cons htransparent hcount (Guarantees.cons htransparent hret (.nil hstable)) s t
    (.refl _ s) hst

/-- The kernel, waiting. -/
def waiting : Cpu where
  reg _ := 0
  seg _ := 0x10
  esp := 0x7FF00
  eip := 0x100200
  eflags := 0x202
  mem _ := 0

/-- The keyboard interrupts. -/
def keyboardTrap : Trap where
  vector := 33
  err := none
  upper _ := 0
  sel := 8
  offset := 0x100400
  handler := 0x100600
  ret := 0x100480
  body := countBody

theorem keyboardTrap_taken : Taken kernelData (fun _ => {countBody}) keyboardTrap waiting where
  vector := by decide
  err := by decide
  body := rfl
  room := by decide
  clear x hx _ := Nat.le_trans (by decide) hx

/-- An interrupt that cannot be switched off. -/
def nmiTrap : Trap := { keyboardTrap with vector := 2, handler := 0x100700, ret := 0x1004C0 }

/-- Where it comes in: in the stub of the keyboard, behind its `push`es. -/
def inStub : Cpu :=
  ((keyboardTrap.code.take 6).foldl (fun s f => f s) (keyboardTrap.start waiting))

theorem nmiTrap_taken : Taken kernelData (fun _ => {countBody}) nmiTrap inStub where
  vector := by decide
  err := by decide
  body := rfl
  room := by decide
  clear x hx _ := Nat.le_trans (by decide) hx

/-- The keyboard interrupts, and while its stub saves the registers there is another interrupt. -/
theorem trap_transparent_keyboard : Transparent kernelData waiting
    ((keyboardTrap.code.drop 6).foldl (fun s f => f s)
      (nmiTrap.code.foldl (fun s f => f s) (nmiTrap.start inStub))) := by
  refine trap_transparent countBody_conventional keyboardTrap_taken ?_
  have hrest : Nested (Traps kernelData fun _ => {countBody}) (keyboardTrap.code.drop 6) inStub
      ((keyboardTrap.code.drop 6).foldl (fun s f => f s)
        (nmiTrap.code.foldl (fun s f => f s) (nmiTrap.start inStub))) :=
    .trap ⟨nmiTrap, nmiTrap_taken, rfl, rfl⟩ (.plain _ _) (.plain _ _)
  exact .op (.op (.op (.op (.op (.op hrest)))))

/-- **A program does not notice that it is interrupted.**  Whatever it can see of the processor,
when its operations work on what it sees, and it sees nothing that is below its stack or in `W`:
with interrupts between any two operations, nested to any depth, it gets to the same result as
without. -/
theorem interrupts_unseen {α : Type} (view : Cpu → α) (seen : (Cpu → Cpu) → α → α)
    (hconv : Conventional W bodies) (hview : ∀ s s', Transparent W s s' → view s' = view s)
    (hops : ∀ f ∈ ops, ∀ s, view (f s) = seen f (view s)) (hrun : Nested (Traps W bodies) ops s t) :
    view t = ops.foldl (fun a f => seen f a) (view s) :=
  (hrun.steps fun _ _ _ _ => traps_transparent hconv).view hview hops

/-- An instruction that is interrupted by the keyboard. -/
theorem interrupts_unseen_mov :
    (Instr.exec (.movEax 5)
      (keyboardTrap.code.foldl (fun s f => f s) (keyboardTrap.start waiting))).reg =
      Function.update waiting.reg .eax 5 :=
  interrupts_unseen (fun s => s.reg) (fun f reg => (f { waiting with reg := reg }).reg)
    countBody_conventional (fun _ _ h => h.reg)
    (fun f hf s => by rw [List.mem_singleton.mp hf]; rfl)
    (Nested.trap ⟨keyboardTrap, keyboardTrap_taken, rfl, rfl⟩ (.plain _ _)
      (.op (f := Instr.exec (.movEax 5)) (.nil _)))

/-- The code of an interrupt up to the `iret` of the stub. -/
def Trap.beforeIret (k : Trap) : List (Cpu → Cpu) :=
  k.entry.map Instr.exec ++ k.body ++ commonExit.dropLast.map Instr.exec

/-- **An error code that the stub does not expect** is still on the stack at the `iret`: a stub that
pushes a zero for it leaves behind the one that the processor has pushed.  So `iret` finds it where
it looks for `eip`, and the interrupted `eip` where it looks for the code segment. -/
theorem unexpected_error {e : BitVec 32} (hconv : Conventional W bodies) (hvector : k.vector < 48)
    (hmem : k.vector ∉ errVectors) (herr : k.err = some e) (hbody : k.body ∈ bodies k.vector)
    (hroom : 80 ≤ s.esp.toNat) (hclear : Clear W 20 s.esp.toNat)
    (hrun : Nested (Traps W bodies) k.beforeIret (k.start s) t) :
    t.reg = s.reg ∧ t.esp.toNat + 16 = s.esp.toNat ∧
      Frame.Holds t.mem t.esp.toNat [e, s.eip, k.upper .cs ++ s.seg .cs, s.eflags] := by
  have hsign := signExtend_vector k.vector hvector
  have hentry : ∃ F ws, Instr.run s.esp.toNat 20 k.entry
      (Frame.interrupt (k.upper .cs) k.err k.sel k.offset s) = some F ∧
      F.words = k.ret :: BitVec.ofNat 32 (s.esp.toNat - 4 * ws.length) :: ws ∧
      F.seg .ss = s.seg .ss ∧ ws = k.savedRegs s (BitVec.ofNat 32 (s.esp.toNat - 24)) ++
        [BitVec.ofNat 32 k.vector, 0, e, s.eip, k.upper .cs ++ s.seg .cs, s.eflags] := by
    rw [Trap.entry, herr, ← hsign, stub]
    split_ifs with hlt
    · rw [isr, if_neg hmem]
      exact ⟨_, _, rfl, rfl, rfl, rfl⟩
    · rw [irq, Nat.sub_add_cancel (Nat.not_lt.mp hlt)]
      exact ⟨_, _, rfl, rfl, rfl, rfl⟩
  obtain ⟨F, ws, hentry, hwords, hss, rfl⟩ := hentry
  obtain ⟨G, ⟨hreg, hrest⟩, hat⟩ := at_of_code
    (Q := fun G => G.reg = s.reg ∧ G.words = [e, s.eip, k.upper .cs ++ s.seg .cs, s.eflags]) hconv
    hbody hroom (by decide) hclear hentry hwords hss (Nat.succ_pos _) (Nat.le_refl 20)
    (fun F arg hF _ => by
      obtain ⟨reg, seg, eip, eflags, words⟩ := F
      obtain rfl : words = _ := hF
      refine ⟨_, rfl, ?_, rfl⟩
      funext r
      cases r <;> rfl)
    (hrun.steps fun _ _ _ _ => traps_transparent hconv)
  have hesp := hat.esp
  have hholds := hat.words
  rw [hrest] at hesp hholds
  exact ⟨hat.reg.trans hreg, hesp, hholds⟩

/-- The alignment check, whose stub is an `ISR_NOERR`. -/
def alignmentTrap : Trap := { keyboardTrap with vector := 17, err := some 0 }

/-- What would be taken for a code segment is the address of the interrupted instruction. -/
theorem unexpected_error_alignment :
    ((alignmentTrap.beforeIret.foldl (fun s f => f s) (alignmentTrap.start waiting)).drop 1).top =
      waiting.eip := by
  obtain ⟨-, hesp, -, heip, -⟩ := unexpected_error (k := alignmentTrap) (s := waiting)
    countBody_conventional (by decide) (by decide) rfl rfl (by decide)
    (fun x hx _ => Nat.le_trans (by decide) hx) (.plain _ _)
  generalize alignmentTrap.beforeIret.foldl (fun s f => f s) (alignmentTrap.start waiting) = t at *
  have hesp' : waiting.esp.toNat = 0x7FF00 := rfl
  have hdrop : (t.drop 1).esp.toNat = t.esp.toNat + 4 := by
    rw [Cpu.drop, BitVec.toNat_add, BitVec.toNat_ofNat]
    omega
  rw [Cpu.top, hdrop]
  exact BitVec.eq_of_toNat_eq (by rw [Cpu.drop, heip]; rfl)

end

/-! ## What a handler sees

The argument of the handler is a pointer to what the stub has saved, and `struct regs` gives names
to these words.  Reading the structure is reading the words of the frame in the order in which they
lie in memory, the last one pushed first. -/

/-- `struct regs`. -/
structure Regs where
  gs : Nat
  fs : Nat
  es : Nat
  ds : Nat
  edi : Nat
  esi : Nat
  ebp : Nat
  esp : Nat
  ebx : Nat
  edx : Nat
  ecx : Nat
  eax : Nat
  intNo : Nat
  errCode : Nat
  eip : Nat
  cs : Nat
  eflags : Nat
  useresp : Nat
  ss : Nat
  deriving DecidableEq, Repr

/-- The structure at `r`. -/
def Regs.read (m : Mem) (r : Nat) : Regs where
  gs := m.load32 r
  fs := m.load32 (r + 4)
  es := m.load32 (r + 8)
  ds := m.load32 (r + 12)
  edi := m.load32 (r + 16)
  esi := m.load32 (r + 20)
  ebp := m.load32 (r + 24)
  esp := m.load32 (r + 28)
  ebx := m.load32 (r + 32)
  edx := m.load32 (r + 36)
  ecx := m.load32 (r + 40)
  eax := m.load32 (r + 44)
  intNo := m.load32 (r + 48)
  errCode := m.load32 (r + 52)
  eip := m.load32 (r + 56)
  cs := m.load32 (r + 60)
  eflags := m.load32 (r + 64)
  useresp := m.load32 (r + 68)
  ss := m.load32 (r + 72)

section
variable {W : Set Nat} {bodies : Nat → Set (List (Cpu → Cpu))} {k : Trap} {s m t : Cpu}

/-- **What a handler sees** through its argument, however the stub has been interrupted: the
registers of the interrupted code, the number of the interrupt and the error code.  In place of
`useresp` and `ss` there is what the interrupted code has on top of its stack. -/
theorem handler_regs (hconv : Conventional W bodies) (h : Taken W bodies k s)
    (hrun : Nested (Traps W bodies) (k.entry.map Instr.exec) (k.start s) m) :
    ∃ r, m.mem.load32 (m.esp.toNat + 4) = r ∧ r + 68 = s.esp.toNat ∧
      Regs.read m.mem r =
        { gs := (k.upper .gs ++ s.seg .gs).toNat
          fs := (k.upper .fs ++ s.seg .fs).toNat
          es := (k.upper .es ++ s.seg .es).toNat
          ds := (k.upper .ds ++ s.seg .ds).toNat
          edi := (s.reg .edi).toNat
          esi := (s.reg .esi).toNat
          ebp := (s.reg .ebp).toNat
          esp := s.esp.toNat - 20
          ebx := (s.reg .ebx).toNat
          edx := (s.reg .edx).toNat
          ecx := (s.reg .ecx).toNat
          eax := (s.reg .eax).toNat
          intNo := k.vector
          errCode := (k.err.getD 0).toNat
          eip := s.eip.toNat
          cs := (k.upper .cs ++ s.seg .cs).toNat
          eflags := s.eflags.toNat
          useresp := m.mem.load32 s.esp.toNat
          ss := m.mem.load32 (s.esp.toNat + 4) } := by
  have hbase := s.esp.isLt
  have hroom := h.room
  have hvector := h.vector
  obtain ⟨F, hentry, hwords, -, -⟩ := h.entry_run
  have hstart := Frame.at_interrupt (W := W) (k.upper .cs) k.err k.sel k.offset
    (show 16 ≤ s.esp.toNat by omega)
  have hat := Frame.At.guarantees h.clear hroom hbase
    ((Frame.length_interrupt ..).trans (by decide)) hentry _ _ hstart
    (hrun.steps fun _ _ _ _ => traps_transparent hconv)
  have hesp := hat.esp
  have hholds := hat.words
  rw [hwords] at hesp hholds
  change m.esp.toNat + 76 = s.esp.toNat at hesp
  obtain ⟨-, harg, hgs, hfs, hes, hds, hedi, hesi, hebp, hesp', hebx, hedx, hecx, heax, hint, herr,
    heip, hcs, heflags, -⟩ := hholds
  refine ⟨m.esp.toNat + 8, ?_, by omega, ?_⟩
  · rw [harg, BitVec.toNat_ofNat]
    change (s.esp.toNat - 68) % 2 ^ 32 = m.esp.toNat + 8
    omega
  · rw [BitVec.toNat_ofNat, Nat.mod_eq_of_lt (by omega)] at hesp' hint
    rw [Regs.read]
    simp only [Nat.add_assoc, Nat.reduceAdd] at *
    simp only [hgs, hfs, hes, hds, hedi, hesi, hebp, hesp', hebx, hedx, hecx, heax, hint, herr, heip,
      hcs, heflags]
    rw [show m.esp.toNat + 80 = m.esp.toNat + 76 + 4 from rfl, hesp]

/-- The handler of the keyboard sees number 33. -/
theorem handler_regs_keyboard : ∃ r, r + 68 = 0x7FF00 ∧ (Regs.read
    ((keyboardTrap.entry.map Instr.exec).foldl (fun s f => f s) (keyboardTrap.start waiting)).mem
      r).intNo = 33 := by
  obtain ⟨r, -, hr, hregs⟩ :=
    handler_regs countBody_conventional keyboardTrap_taken (.plain _ (keyboardTrap.start waiting))
  exact ⟨r, hr, by rw [hregs]; rfl⟩

end

end MyaXOS
