import MyaXOS.Mem.Paging

/-!
# Paging, in one memory

The functions of `mem.c` on the bytes of one memory: `frames` and `kernel_directory` are addresses,
the words of the bitmap are where `frames` points, and a page table is found through the word that
`kernel_directory->tables` has for it.  Nothing keeps these objects apart here.

A `page_t` is a word whose bit fields are laid out from the lowest bit up, as the compiler the
kernel is built with does; `Page.decode_encode` reads back what was written.

This is what the kernel does, for any values of its variables, and it is short because it assumes
nothing.  A bitmap that is too small runs into the directory behind it, a table at address 0 is
taken for no table, and an address that wraps around is an address.  Every access is through the
memory:  the flag that tells whether a page is present is the bit of a word, and it is read again
after it has been written.

The same functions on separate objects are in `Mem/Paging.lean`.  They follow each other line by
line, and the names agree, so that the comparison in `Mem/FlatRefine.lean` is a lemma for each
function.  What depends on the bytes themselves is proved here or in `Mem/Bitmap.lean` and
`Mem/Tables.lean`.
-/

set_option autoImplicit false

namespace MyaXOS

/-! ## `page_t` as a word

How the compiler lays out the bit fields of `page_t`, lowest bits first.  A word and an entry are
two ways of writing the same 32 bits, and reading what has been written gives the entry back. -/

/-- The entry a word stands for. -/
def Page.decode (w : BitVec 32) : Page where
  present := w.getLsbD 0
  rw := w.getLsbD 1
  user := w.getLsbD 2
  accessed := w.getLsbD 3
  dirty := w.getLsbD 4
  unused := w.extractLsb' 5 7
  frame := w.extractLsb' 12 20

/-- The word of an entry. -/
def Page.encode (p : Page) : BitVec 32 :=
  p.frame ++ p.unused ++ BitVec.ofBool p.dirty ++ BitVec.ofBool p.accessed ++
    BitVec.ofBool p.user ++ BitVec.ofBool p.rw ++ BitVec.ofBool p.present

theorem Page.decode_encode (p : Page) : Page.decode p.encode = p := by
  obtain ⟨present, rw, user, accessed, dirty, unused, frame⟩ := p
  simp only [decode, encode, Page.mk.injEq]
  refine ⟨?_, ?_, ?_, ?_, ?_, ?_, ?_⟩
  iterate 5
    · simp only [BitVec.getLsbD_append, BitVec.getLsbD_ofBool]
      simp
  all_goals
    apply BitVec.eq_of_getLsbD_eq
    intro i hi
    simp only [BitVec.getLsbD_extractLsb', BitVec.getLsbD_append, BitVec.getLsbD_ofBool]
    grind

theorem Page.encode_zero : Page.zero.encode = 0#32 := by decide

/-! ## The state of `mem.c`

The functions of `mem.c` once more, on the bytes of a memory.  Each follows the source in the order
of its reads and writes, since these may now fall on the same bytes: `memset` of a new table comes
before the slot is written, and the bitmap before the entry. -/

/-- Memory, and the variables of `mem.c`.  The bitmap, the directory and the tables are in the
memory, at the addresses that the variables and the words of the directory name, and nothing here
keeps them apart. -/
structure Machine where
  mem : Mem
  placementPointer : Nat
  /-- The address of the bitmap. -/
  frames : Nat
  nframes : Nat
  kernelDirectory : Nat
  heapEnd : Nat

namespace Machine

/-- The words from `frames` on. -/
def bitmap (m : Machine) : Bitmap :=
  fun i => BitVec.ofNat 32 (m.mem.load32 (u32 (m.frames + 4 * i)))

/-- The address of `kernel_directory->tables[slot]`. -/
def tableSlot (m : Machine) (slot : Nat) : Nat := u32 (m.kernelDirectory + 4 * slot)

/-- The address of `kernel_directory->physical_tables[slot]`. -/
def physicalSlot (m : Machine) (slot : Nat) : Nat := u32 (m.kernelDirectory + 0x1000 + 4 * slot)

/-- `set_frame(frame_addr)`. -/
def setFrame (m : Machine) (frameAddr : Nat) : Machine :=
  let index := indexFromBit (frameAddr / 0x1000)
  { m with
    mem := m.mem.store32 (u32 (m.frames + 4 * index))
      (MyaXOS.setFrame m.bitmap frameAddr index).toNat }

/-- `alloc_frame(page, is_kernel, is_writeable)`. -/
def allocFrame (m : Machine) (page : Nat) (isKernel isWriteable : Bool) : Except Stop Machine :=
  if (Page.decode (BitVec.ofNat 32 (m.mem.load32 page))).frame ≠ 0#20 then .ok m
  else
    let index := firstFrame m.nframes m.bitmap
    if index = 0xFFFFFFFF then .error (.halt "Failed to allocate a frame: out of frames")
    else
      let m := m.setFrame (u32 (index * 0x1000))
      let entry := Page.decode (BitVec.ofNat 32 (m.mem.load32 page))
      .ok { m with
        mem := m.mem.store32 page (entry.assign index isKernel isWriteable).encode.toNat }

/-- The branch of `get_page` that makes the table of a slot. -/
def makeTable (m : Machine) (slot : Nat) : Machine :=
  let placed := kvmallocP m.placementPointer 0x1000
  let mem := m.mem.store32 (m.tableSlot slot) placed.address
  let mem := memset mem (mem.load32 (m.tableSlot slot)) 0 0x1000
  let mem := mem.store32 (m.physicalSlot slot) (placed.phys.getD 0 ||| 0x7)
  { m with mem := mem, placementPointer := placed.pointer }

/-- The address of `kernel_directory->tables[slot]->pages[index]`. -/
def entry (m : Machine) (slot index : Nat) : Nat :=
  u32 (m.mem.load32 (m.tableSlot slot) + 4 * index)

/-- `get_page(address, make, kernel_directory)`. -/
def getPage (address : Nat) (make : Bool) (m : Machine) : Option Nat × Machine :=
  let page := address / 0x1000
  let tableIndex := page / 1024
  if m.mem.load32 (m.tableSlot tableIndex) ≠ 0 then (some (m.entry tableIndex (page % 1024)), m)
  else if make then
    let m := m.makeTable tableIndex
    (some (m.entry tableIndex (page % 1024)), m)
  else (none, m)

/-- `alloc_frame(get_page(i, 1, kernel_directory), 0, 0)`. -/
def mapPage (i : Nat) (m : Machine) : Except Stop Machine :=
  match getPage i true m with
  | (some page, m) => m.allocFrame page false false
  | (none, _) => .error .nullPointer

/-- The loop of `paging_install`, from address `i` on. -/
def mapLoop : Nat → Nat → Machine → Except Stop Machine
  | 0, _, _ => .error .spin
  | fuel + 1, i, m =>
    if i < m.placementPointer then
      match mapPage i m with
      | .ok m => mapLoop fuel (u32 (i + 0x1000)) m
      | .error e => .error e
    else .ok m

/-- `paging_install(memsize)` up to its loop. -/
def prepare (memsize : Nat) (m : Machine) : Machine :=
  let nframes := memsize / 4
  let frames := kmalloc m.placementPointer (indexFromBit nframes)
  let mem := memset m.mem frames.address 0 (indexFromBit nframes)
  let directory := kvmalloc frames.pointer 0x2004
  let mem := memset mem directory.address 0 0x2004
  { m with
    mem := mem
    placementPointer := directory.pointer
    frames := frames.address
    nframes := nframes
    kernelDirectory := directory.address }

/-- `paging_install(memsize)`. -/
def pagingInstall (fuel memsize : Nat) (m : Machine) : Except Stop Machine :=
  mapLoop fuel 0 (prepare memsize m)

/-- `heap_install()`. -/
def heapInstall (m : Machine) : Machine :=
  { m with heapEnd := m.placementPointer, placementPointer := 0 }

/-- The loop of `sbrk`, from address `i` on. -/
def sbrkLoop : Nat → Nat → Machine → Except Stop Machine
  | 0, _, _ => .error .spin
  | fuel + 1, i, m =>
    if i < m.heapEnd then
      match mapPage i (getPage i true m).2 with
      | .ok m => sbrkLoop fuel (u32 (i + 0x1000)) m
      | .error e => .error e
    else .ok m

/-- `sbrk(increment)`: the address it returns, and the machine after. -/
def sbrk (fuel increment : Nat) (m : Machine) : Except Stop (Nat × Machine) :=
  match assert (increment % 0x1000 = 0) "increment % 0x1000 == 0" with
  | .error e => .error e
  | .ok () =>
    let address := m.heapEnd
    match sbrkLoop fuel address { m with heapEnd := u32 (m.heapEnd + increment) } with
    | .ok m => .ok (address, m)
    | .error e => .error e

end Machine

end MyaXOS
