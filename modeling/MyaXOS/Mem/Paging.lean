import MyaXOS.Mem.Frames
import MyaXOS.Mem.Placement

/-!
# Paging, on separate objects

The page directory has a slot for each 4 MB of addresses.  Slot `k` is kept twice: `tables[k]` is
the address of a page table, for the kernel to use, and `physical_tables[k]` is the same address
with three flag bits, for the processor.  `get_page` finds the entry of an address and, if it is
asked to, makes the table the entry belongs to.

In this file the frame bitmap, the directory and the page tables are objects of their own: a write
to one does not touch another, and the entries of a table are named by the slot the table belongs
to.  `MyaXOS.Mem.Flat` has the same functions on the bytes of one memory.

* `Mapped n s` is the invariant of everything that maps pages in ascending order: pages `0` to `n -
  1` are present with the frame of their own number, and nothing else is taken or present.
  `Mapped.mapPage` is the one step all of them share.
* `mapLoop_eq` follows the loop of `paging_install` to its end.  The bound of the loop is
  `placement_pointer`, which moves when a table is made; one table costs a page and covers 1024 of
  them, and `bootPages` is where the two meet.

**Two files for one program.**  Most of what there is to know of the pager has nothing to do with
where its objects lie.  That pages get the frames of their own numbers, or that the loop of
`paging_install` ends, is the same for any placement that works at all, and in a memory every step
would have to be accompanied by the reasons why it overwrites nothing.  So this file has the
functions on objects, the next ones have what is proved about them, and `Mem/FlatRefine.lean`
carries it over to memory, for the placements that keep the objects apart.

**Why frames get their own numbers.**  `first_frame` returns the least frame that is free, and the
pages are mapped in ascending order.  If pages 0 to `n - 1` have the frames 0 to `n - 1`, and no
other frame is taken, then the least free one is `n`, and page `n` gets it.  This is all of
`Mapped.mapPage`.  The page that is mapped twice, because its table was missing at first, keeps what
it has.

**The loop whose bound moves.**  `i` grows by a page in each round, and the bound by a page in each
round that makes a table, which is every 1024th.  The number of rounds is therefore the least one
that is large enough for its own tables.  `mapLoop_eq` is by induction on the rounds that are left,
with the tables made so far as a function of the pages mapped so far, and termination is part of it.
-/

set_option autoImplicit false

namespace MyaXOS

/-- The state of the pager. -/
structure Paging where
  placementPointer : Nat
  nframes : Nat
  frames : Bitmap
  /-- `kernel_directory->tables`: addresses of page tables, 0 for `NULL`. -/
  tables : Nat → Nat
  /-- `kernel_directory->physical_tables`. -/
  physicalTables : Nat → Nat
  /-- `pages k j` is the entry `kernel_directory->tables[k]->pages[j]`. -/
  pages : Nat → Nat → Page
  heapEnd : Nat

/-- A pointer `&kernel_directory->tables[slot]->pages[index]`. -/
structure Entry where
  address : Nat
  slot : Nat
  index : Nat
  deriving DecidableEq, Repr

namespace Paging

/-- The address of an entry. -/
def entry (s : Paging) (slot index : Nat) : Entry := ⟨s.tables slot + 4 * index, slot, index⟩

/-- The branch of `get_page` that makes the table of a slot: `kvmalloc_p(sizeof(page_table_t),
&temp)`, the `memset` of the new table, and the physical address with its present, writable and user
bits. -/
def makeTable (s : Paging) (slot : Nat) : Paging :=
  let placed := kvmallocP s.placementPointer 0x1000
  { s with
    placementPointer := placed.pointer
    tables := fun k => if k = slot then placed.address else s.tables k
    pages := fun k => if k = slot then fun _ => Page.zero else s.pages k
    physicalTables := fun k =>
      if k = slot then placed.phys.getD 0 ||| 0x7 else s.physicalTables k }

/-- `get_page(address, make, kernel_directory)`. -/
def getPage (address : Nat) (make : Bool) (s : Paging) : Option Entry × Paging :=
  let page := address / 0x1000
  let tableIndex := page / 1024
  if s.tables tableIndex ≠ 0 then (some (s.entry tableIndex (page % 1024)), s)
  else if make then
    let s := s.makeTable tableIndex
    (some (s.entry tableIndex (page % 1024)), s)
  else (none, s)

/-- Replace the entry `pages[slot][index]`. -/
def setEntry (s : Paging) (slot index : Nat) (page : Page) : Nat → Nat → Page :=
  fun k j => if k = slot ∧ j = index then page else s.pages k j

/-- `alloc_frame` through a pointer to an entry. -/
def allocFrame (s : Paging) (entry : Entry) (isKernel isWriteable : Bool) : Except Stop Paging :=
  match MyaXOS.allocFrame s.nframes s.frames (s.pages entry.slot entry.index) isKernel
    isWriteable with
  | .ok (frames, page) =>
    .ok { s with frames := frames, pages := s.setEntry entry.slot entry.index page }
  | .error e => .error e

/-- `alloc_frame(get_page(i, 1, kernel_directory), 0, 0)`. -/
def mapPage (i : Nat) (s : Paging) : Except Stop Paging :=
  match getPage i true s with
  | (some entry, s) => s.allocFrame entry false false
  | (none, _) => .error .nullPointer

/-- The loop of `paging_install`, from address `i` on. -/
def mapLoop : Nat → Nat → Paging → Except Stop Paging
  | 0, _, _ => .error .spin
  | fuel + 1, i, s =>
    if i < s.placementPointer then
      match mapPage i s with
      | .ok s => mapLoop fuel (u32 (i + 0x1000)) s
      | .error e => .error e
    else .ok s

/-- `paging_install(memsize)` up to its loop: the bitmap and the directory are allocated and
cleared. -/
def prepare (memsize : Nat) (s : Paging) : Paging :=
  let nframes := memsize / 4
  let frames := kmalloc s.placementPointer (indexFromBit nframes)
  let directory := kvmalloc frames.pointer 0x2004
  { s with
    placementPointer := directory.pointer
    nframes := nframes
    frames := fun _ => 0#32
    tables := fun _ => 0
    physicalTables := fun _ => 0 }

/-- `paging_install(memsize)`. -/
def pagingInstall (fuel memsize : Nat) (s : Paging) : Except Stop Paging :=
  mapLoop fuel 0 (prepare memsize s)

/-- `heap_install()`. -/
def heapInstall (s : Paging) : Paging :=
  { s with heapEnd := s.placementPointer, placementPointer := 0 }

/-- The entry of the page at an address, if its table exists. -/
def pageAt (s : Paging) (a : Nat) : Option Page :=
  (getPage a false s).1.map fun e => s.pages e.slot e.index

/-! ## `get_page`

The two ways through `get_page`: the table is there, or it is made.  In both the entry that is
returned is that of the page in the table of its slot, at the address that the slot has afterwards.
-/

variable {s : Paging} {a n : Nat} {make : Bool}

theorem getPage_of_table (h : s.tables (a / 0x1000 / 1024) ≠ 0) :
    getPage a make s = (some (s.entry (a / 0x1000 / 1024) (a / 0x1000 % 1024)), s) := by
  rw [getPage, if_pos h]

theorem getPage_make (h : s.tables (a / 0x1000 / 1024) = 0) :
    getPage a true s =
      (some ((s.makeTable (a / 0x1000 / 1024)).entry (a / 0x1000 / 1024) (a / 0x1000 % 1024)),
        s.makeTable (a / 0x1000 / 1024)) := by
  rw [getPage, if_neg (Decidable.not_not.mpr h), if_pos rfl]

theorem pageAt_eq : s.pageAt a =
    if s.tables (a / 0x1000 / 1024) ≠ 0 then
      some (s.pages (a / 0x1000 / 1024) (a / 0x1000 % 1024))
    else none := by
  rw [pageAt]
  by_cases h : s.tables (a / 0x1000 / 1024) ≠ 0
  · rw [getPage_of_table h, if_pos h]
    rfl
  · rw [getPage, if_neg h, if_neg Bool.false_ne_true, if_neg h]
    rfl

/-! ## Pages mapped in order

Boot and the heap map pages in ascending order, and frames are handed out in ascending order too.
So frame `n` goes to page `n` as long as both have started at 0 and never skip one; `Mapped n` is
this invariant.  A table may be made at any time, since it has nothing mapped in it. -/

/-- Pages `0` to `n - 1` are present, each with the frame of its own number; exactly these frames
are marked; and every other entry there is, is zero. -/
structure Mapped (n : Nat) (s : Paging) : Prop where
  marked_iff : ∀ f, marked s.frames f = true ↔ f < n
  table : ∀ p < n, s.tables (p / 1024) ≠ 0
  mapped : ∀ p < n, (s.pages (p / 1024) (p % 1024)).present = true ∧
    (s.pages (p / 1024) (p % 1024)).frame.toNat = p
  unmapped : ∀ p, n ≤ p → s.tables (p / 1024) ≠ 0 → s.pages (p / 1024) (p % 1024) = Page.zero

theorem Mapped.pageAt_of_lt (h : Mapped n s) (ha : a / 0x1000 < n) :
    ∃ page, s.pageAt a = some page ∧ page.present = true ∧ page.frame.toNat = a / 0x1000 := by
  rw [pageAt_eq, if_pos (h.table (a / 0x1000) ha)]
  exact ⟨_, rfl, h.mapped (a / 0x1000) ha⟩

theorem Mapped.pageAt_of_le (h : Mapped n s) (ha : n ≤ a / 0x1000) {page : Page}
    (hpage : s.pageAt a = some page) : page = Page.zero := by
  rw [pageAt_eq] at hpage
  split at hpage
  · next ht =>
    cases hpage
    exact h.unmapped (a / 0x1000) ha ht
  · cases hpage

/-- A new table has nothing mapped in it, whatever its address. -/
theorem Mapped.makeTable (h : Mapped n s) {slot : Nat} (hslot : s.tables slot = 0) :
    Mapped n (s.makeTable slot) := by
  have hne : ∀ p < n, p / 1024 ≠ slot := fun p hp e => h.table p hp (e ▸ hslot)
  refine ⟨fun f => ?_, fun p hp => ?_, fun p hp => ?_, fun p hp ht => ?_⟩
  · simpa only [Paging.makeTable] using h.marked_iff f
  · simpa only [Paging.makeTable, if_neg (hne p hp)] using h.table p hp
  · simpa only [Paging.makeTable, if_neg (hne p hp)] using h.mapped p hp
  · by_cases hk : p / 1024 = slot
    · simp only [Paging.makeTable, if_pos hk]
    · simp only [Paging.makeTable, if_neg hk] at ht ⊢
      exact h.unmapped p hp ht

theorem Mapped.getPage (h : Mapped n s) : Mapped n (getPage a true s).2 := by
  by_cases ht : s.tables (a / 0x1000 / 1024) ≠ 0
  · rwa [getPage_of_table ht]
  · rw [getPage_make (Decidable.not_not.mp ht)]
    exact h.makeTable (Decidable.not_not.mp ht)

/-- With the frames below `n` taken, `first_frame` finds frame `n`, or nothing. -/
theorem Mapped.firstFrame_eq (h : Mapped n s) :
    firstFrame s.nframes s.frames =
      if n < indexFromBit s.nframes * 0x20 then n else 0xFFFFFFFF :=
  firstFrame_of_marked h.marked_iff

/-- The state after `alloc_frame` has mapped page `n`. -/
def mapNext (n : Nat) (s : Paging) : Paging :=
  { s with
    frames := setFrame s.frames (u32 (n * 0x1000))
    pages := s.setEntry (n / 1024) (n % 1024)
      ((s.pages (n / 1024) (n % 1024)).assign n false false) }

theorem Mapped.mapNext (h : Mapped n s) (ht : s.tables (n / 1024) ≠ 0) (hn : n < 0x100000) :
    Mapped (n + 1) (s.mapNext n) := by
  have hsame : ∀ {p}, p / 1024 = n / 1024 ∧ p % 1024 = n % 1024 → p = n := by omega
  refine ⟨fun f => ?_, fun p hp => ?_, fun p hp => ?_, fun p hp hp' => ?_⟩
  · rw [Paging.mapNext, marked_setFrame, u32_eq (by omega), Bool.or_eq_true, decide_eq_true_eq,
      h.marked_iff]
    omega
  · rcases Nat.lt_or_ge p n with hlt | hge
    · exact h.table p hlt
    · rwa [show p = n by omega]
  · rcases Nat.lt_or_ge p n with hlt | hge
    · simp only [Paging.mapNext, setEntry, if_neg fun e => absurd (hsame e) (Nat.ne_of_lt hlt)]
      exact h.mapped p hlt
    · obtain rfl : p = n := by omega
      simp only [Paging.mapNext, setEntry, and_self, if_true, Page.assign, BitVec.toNat_ofNat,
        true_and]
      exact Nat.mod_eq_of_lt hn
  · have hne : p ≠ n := by omega
    simp only [Paging.mapNext, setEntry, if_neg fun e => hne (hsame e)]
    exact h.unmapped p (by omega) hp'

/-- **Mapping the next page.**  On a table that exists, `alloc_frame` gives page `n` frame `n`, or
halts for lack of frames. -/
theorem Mapped.allocFrame (h : Mapped n s) (ht : s.tables (n / 1024) ≠ 0) (hn : n < 0x100000) :
    s.allocFrame (s.entry (n / 1024) (n % 1024)) false false =
      if n < indexFromBit s.nframes * 0x20 then .ok (s.mapNext n)
      else .error (.halt "Failed to allocate a frame: out of frames") := by
  have hzero : (s.pages (n / 1024) (n % 1024)).frame = 0#20 := by
    rw [h.unmapped n (Nat.le_refl n) ht]
    rfl
  simp only [Paging.allocFrame, Paging.entry, MyaXOS.allocFrame, hzero, h.firstFrame_eq, ne_eq,
    not_true_eq_false, if_false]
  by_cases hlt : n < indexFromBit s.nframes * 0x20
  · simp only [if_pos hlt, if_neg (show n ≠ 0xFFFFFFFF by omega)]
    rfl
  · simp only [if_neg hlt, if_true]

theorem mapPage_eq (s : Paging) (n : Nat) : mapPage (n * 0x1000) s =
    (Paging.getPage (n * 0x1000) true s).2.allocFrame
      ((Paging.getPage (n * 0x1000) true s).2.entry (n / 1024) (n % 1024)) false false := by
  have hpage : n * 0x1000 / 0x1000 = n := by omega
  by_cases hk : s.tables (n * 0x1000 / 0x1000 / 1024) = 0
  · rw [Paging.mapPage, getPage_make hk, hpage]
  · rw [Paging.mapPage, getPage_of_table hk, hpage]

/-- **One round of a mapping loop**, at address `n * 0x1000`.  With the pages before it mapped to
themselves, the first free frame is frame `n`, if the bitmap has so many. -/
theorem Mapped.mapPage (h : Mapped n s) (hn : n < 0x100000)
    (ht : (Paging.getPage (n * 0x1000) true s).2.tables (n / 1024) ≠ 0) :
    mapPage (n * 0x1000) s =
      if n < indexFromBit s.nframes * 0x20 then
        .ok ((Paging.getPage (n * 0x1000) true s).2.mapNext n)
      else .error (.halt "Failed to allocate a frame: out of frames") := by
  have hmapped : Mapped n (Paging.getPage (n * 0x1000) true s).2 := h.getPage
  have hnframes : (Paging.getPage (n * 0x1000) true s).2.nframes = s.nframes := by
    by_cases hk : s.tables (n * 0x1000 / 0x1000 / 1024) ≠ 0
    · rw [getPage_of_table hk]
    · rw [getPage_make (Decidable.not_not.mp hk)]
      simp only [Paging.makeTable]
  rw [mapPage_eq, hmapped.allocFrame ht hn, hnframes]

/-! ## The loop of `paging_install`

The loop maps what lies below the placement pointer, and moves the pointer up whenever it needs a
table.  A table maps 1024 pages and takes one, so the loop catches up with the pointer; the number
of tables for which it does is `bootTables`.  `Booting` is `Mapped` with the place of the pointer:
it stands behind the last table that has been made. -/

/-- Where the page directory is placed. -/
def directoryAddress (memsize pointer : Nat) : Nat :=
  (pointer + indexFromBit (memsize / 4)) / 0x1000 * 0x1000

/-- Where the first page table is placed: the directory is 4 bytes longer than two pages, and the
rounding takes these 4 bytes back. -/
def tableBase (memsize pointer : Nat) : Nat := directoryAddress memsize pointer + 0x2000

/-- The number of page tables made at boot. -/
def bootTables (memsize pointer : Nat) : Nat := (tableBase memsize pointer / 0x1000 + 1022) / 1023

/-- The number of pages mapped at boot. -/
def bootPages (memsize pointer : Nat) : Nat :=
  tableBase memsize pointer / 0x1000 + bootTables memsize pointer

/-- The state of the loop when it has made `t` tables, one after the other from `base` on, and
mapped pages `0` to `n - 1`. -/
structure Booting (base t n : Nat) (s : Paging) : Prop extends Mapped n s where
  table_iff : ∀ k, s.tables k ≠ 0 ↔ k < t
  table_eq : ∀ k < t, s.tables k = base + 0x1000 * k
  /-- The first table is placed where the pointer is rounded down to. -/
  pointer : s.placementPointer / 0x1000 * 0x1000 = base + 0x1000 * t
  pointer_aligned : 0 < t → s.placementPointer % 0x1000 = 0
  pointer_lt : s.placementPointer < 0x100000000

variable {base t : Nat}

theorem Booting.kvmallocP (h : Booting base t n s) (hpos : 0 < base)
    (hwrap : base + 0x1000 * (t + 1) < 0x100000000) :
    MyaXOS.kvmallocP s.placementPointer 0x1000 =
      ⟨base + 0x1000 * t, some (base + 0x1000 * t), base + 0x1000 * (t + 1)⟩ := by
  have hp := h.pointer
  rw [MyaXOS.kvmallocP, kmallocReal_aligned (by omega) h.pointer_lt, hp, if_pos rfl]
  simp only [Placed.mk.injEq, true_and, u32]
  omega

/-- The next table is made in the place behind the last one. -/
theorem Booting.makeTable (h : Booting base t n s) (hbase : base % 0x1000 = 0) (hpos : 0 < base)
    (hwrap : base + 0x1000 * (t + 1) < 0x100000000) :
    Booting base (t + 1) n (s.makeTable t) := by
  have hnone : s.tables t = 0 := Decidable.not_not.mp fun hc =>
    absurd ((h.table_iff t).mp hc) (Nat.lt_irrefl t)
  have htables : (s.makeTable t).tables =
      fun k => if k = t then base + 0x1000 * t else s.tables k := by
    simp only [Paging.makeTable, h.kvmallocP hpos hwrap]
  have hpointer : (s.makeTable t).placementPointer = base + 0x1000 * (t + 1) := by
    simp only [Paging.makeTable, h.kvmallocP hpos hwrap]
  refine ⟨h.toMapped.makeTable hnone, fun k => ?_, fun k hk => ?_, ?_, fun _ => ?_, ?_⟩
  · simp only [htables]
    split
    · omega
    · rw [h.table_iff]
      omega
  · simp only [htables]
    split
    · next e => rw [e]
    · exact h.table_eq k (by omega)
  all_goals rw [hpointer]; omega

/-- `get_page` makes a table when page `n` is the first of its slot, and only then. -/
theorem Booting.getPage (h : Booting base ((n + 1023) / 1024) n s) (hbase : base % 0x1000 = 0)
    (hpos : 0 < base) (hwrap : base + 0x1000 * ((n + 1024) / 1024) < 0x100000000) :
    Booting base ((n + 1024) / 1024) n (getPage (n * 0x1000) true s).2 ∧
      (getPage (n * 0x1000) true s).2.nframes = s.nframes := by
  have hslot : n * 0x1000 / 0x1000 / 1024 = n / 1024 := by omega
  by_cases hn : n % 1024 = 0
  · have ht : (n + 1023) / 1024 = n / 1024 := by omega
    have ht' : (n + 1024) / 1024 = n / 1024 + 1 := by omega
    rw [ht] at h
    rw [ht'] at hwrap ⊢
    have hnone : s.tables (n * 0x1000 / 0x1000 / 1024) = 0 := Decidable.not_not.mp fun hc => by
      rw [hslot] at hc
      exact absurd ((h.table_iff (n / 1024)).mp hc) (Nat.lt_irrefl _)
    rw [getPage_make hnone, hslot]
    exact ⟨h.makeTable hbase hpos hwrap, by simp only [Paging.makeTable]⟩
  · have ht : (n + 1023) / 1024 = n / 1024 + 1 := by omega
    rw [show (n + 1024) / 1024 = n / 1024 + 1 by omega]
    rw [ht] at h
    have hsome : s.tables (n * 0x1000 / 0x1000 / 1024) ≠ 0 := by
      rw [hslot]
      exact (h.table_iff (n / 1024)).mpr (Nat.lt_succ_self _)
    rw [getPage_of_table hsome]
    exact ⟨h, rfl⟩

theorem Booting.mapNext (h : Booting base t n s) (ht : n / 1024 < t) (hn : n < 0x100000) :
    Booting base t (n + 1) (s.mapNext n) :=
  ⟨h.toMapped.mapNext ((h.table_iff _).mpr ht) hn, h.table_iff, h.table_eq, h.pointer,
    h.pointer_aligned, h.pointer_lt⟩

/-- The test of the loop: it goes on until the page behind the last table. -/
theorem Booting.test_iff {b : Nat} (h : Booting (0x1000 * b) ((n + 1023) / 1024) n s)
    (hb : 0 < b) : n * 0x1000 < s.placementPointer ↔ n < b + (b + 1022) / 1023 := by
  have hp := h.pointer
  rcases Nat.eq_zero_or_pos n with rfl | hn
  · omega
  · have haligned := h.pointer_aligned (by omega)
    omega

/-- **The mapping loop** ends behind the last table if there are frames for all it maps, and halts
otherwise. -/
theorem mapLoop_eq {b : Nat} (hb : 0 < b)
    (hwrap : 0x1000 * (b + (b + 1022) / 1023) < 0x100000000) :
    ∀ {fuel n : Nat} {s : Paging}, Booting (0x1000 * b) ((n + 1023) / 1024) n s →
      n ≤ b + (b + 1022) / 1023 → n ≤ indexFromBit s.nframes * 0x20 →
      b + (b + 1022) / 1023 - n < fuel →
      if b + (b + 1022) / 1023 ≤ indexFromBit s.nframes * 0x20 then
        ∃ s', mapLoop fuel (n * 0x1000) s = .ok s' ∧
          Booting (0x1000 * b) ((b + 1022) / 1023) (b + (b + 1022) / 1023) s'
      else mapLoop fuel (n * 0x1000) s =
        .error (.halt "Failed to allocate a frame: out of frames")
  | 0, _, _, _, _, _, hfuel => absurd hfuel (Nat.not_lt_zero _)
  | fuel + 1, n, s, h, hle, hframes, hfuel => by
    rcases Nat.lt_or_ge n (b + (b + 1022) / 1023) with hlt | hge
    · have hwrap' : 0x1000 * b + 0x1000 * ((n + 1024) / 1024) < 0x100000000 := by omega
      obtain ⟨hget, hnframes⟩ := h.getPage (by omega) (by omega) hwrap'
      have hround := h.toMapped.mapPage (by omega) ((hget.table_iff (n / 1024)).mpr (by omega))
      rw [mapLoop, if_pos ((h.test_iff hb).mpr hlt), hround]
      by_cases hn : n < indexFromBit s.nframes * 0x20
      · have hi : u32 (n * 0x1000 + 0x1000) = (n + 1) * 0x1000 := by
          rw [u32_eq (show n * 0x1000 + 0x1000 < 0x100000000 by omega)]
          omega
        rw [if_pos hn]
        simp only [hi]
        have hfuel' : b + (b + 1022) / 1023 - (n + 1) < fuel := by omega
        have ih := mapLoop_eq hb hwrap (hget.mapNext (by omega) (by omega)) hlt
          (by simp only [Paging.mapNext, hnframes]; exact hn) hfuel'
        simpa only [Paging.mapNext, hnframes] using ih
      · rw [if_neg hn, if_neg (by omega)]
    · obtain rfl : n = b + (b + 1022) / 1023 := by omega
      rw [if_pos hframes, mapLoop, if_neg (by rw [h.test_iff hb]; omega)]
      refine ⟨s, rfl, ?_⟩
      rwa [show (b + (b + 1022) / 1023 + 1023) / 1024 = (b + 1022) / 1023 by omega] at h

/-! ## `paging_install`

What comes before the loop puts the bitmap and the directory in place, and the first table comes to
lie 4 bytes into a page, as the directory is 4 bytes longer than two pages.  With this the loop
starts in the state that its invariant asks for. -/

/-- The pager before `paging_install`, with no bitmap and no directory yet. -/
def unset (pointer : Nat) : Paging :=
  { placementPointer := pointer
    nframes := 0
    frames := fun _ => 0#32
    tables := fun _ => 0
    physicalTables := fun _ => 0
    pages := fun _ _ => Page.zero
    heapEnd := 0 }

/-- What `paging_install` is for: all that lies below the placement pointer is mapped to itself, and
nothing else is mapped. -/
structure IdentityMapped (s : Paging) : Prop where
  below : ∀ a < s.placementPointer, ∃ page,
    s.pageAt a = some page ∧ page.present = true ∧ page.frame.toNat = a / 0x1000
  above : ∀ a page, s.placementPointer ≤ a → s.pageAt a = some page → page.present = false
  /-- The heap starts at the placement pointer. -/
  heap_start : (heapInstall s).heapEnd = s.placementPointer
  aligned : s.placementPointer % 0x1000 = 0

theorem Booting.identityMapped (h : Booting base t n s) (ht : 0 < t)
    (hn : s.placementPointer = 0x1000 * n) : IdentityMapped s where
  below a ha := h.toMapped.pageAt_of_lt (by omega)
  above a page ha hpage := by
    rw [h.toMapped.pageAt_of_le (by omega) hpage]
    rfl
  heap_start := rfl
  aligned := h.pointer_aligned ht

/-- The loop starts with the pointer 4 bytes into the page of the first table. -/
theorem prepare_booting (memsize : Nat) (hpp : 0x1000 ≤ s.placementPointer)
    (hwrap : tableBase memsize s.placementPointer + 0x1000 < 0x100000000) :
    Booting (tableBase memsize s.placementPointer) 0 0 (prepare memsize s) := by
  simp only [tableBase, directoryAddress] at hwrap ⊢
  have hpointer : (prepare memsize s).placementPointer =
      (s.placementPointer + indexFromBit (memsize / 4)) / 0x1000 * 0x1000 + 0x2004 := by
    rw [prepare, kmalloc, kmallocReal_in_place (by simp) (by omega)]
    simp only [kvmalloc]
    rw [kmallocReal_aligned (by omega) (by omega)]
    simp only [u32]
    omega
  refine ⟨⟨fun f => ?_, by omega, by omega, fun p _ ht => absurd rfl ht⟩, fun k => ?_, by omega,
    by omega, by omega, by omega⟩
  · simp only [prepare, marked, BitVec.getLsbD_zero, Bool.false_eq_true, Nat.not_lt_zero]
  · simp only [prepare, ne_eq, not_true_eq_false, Nat.not_lt_zero]

/-- `paging_install` runs its loop to the end if the bitmap has frames for it, and halts if not. -/
theorem pagingInstall_booting (fuel memsize : Nat) (hpp : 0x1000 ≤ s.placementPointer)
    (hwrap : 0x1000 * bootPages memsize s.placementPointer < 0x100000000)
    (hfuel : bootPages memsize s.placementPointer < fuel) :
    if bootPages memsize s.placementPointer ≤ indexFromBit (memsize / 4) * 0x20 then
      ∃ s', pagingInstall fuel memsize s = .ok s' ∧
        Booting (tableBase memsize s.placementPointer) (bootTables memsize s.placementPointer)
          (bootPages memsize s.placementPointer) s' ∧
        s'.placementPointer = 0x1000 * bootPages memsize s.placementPointer
    else pagingInstall fuel memsize s =
      .error (.halt "Failed to allocate a frame: out of frames") := by
  have hbase : tableBase memsize s.placementPointer =
      0x1000 * (tableBase memsize s.placementPointer / 0x1000) := by
    simp only [tableBase, directoryAddress]
    omega
  have hpos : 0 < tableBase memsize s.placementPointer / 0x1000 := by
    simp only [tableBase]
    omega
  rw [bootPages, bootTables] at hwrap hfuel ⊢
  have hboot := prepare_booting memsize hpp (by omega)
  rw [hbase] at hboot
  generalize tableBase memsize s.placementPointer / 0x1000 = b at *
  rw [hbase]
  have hloop := mapLoop_eq hpos hwrap hboot (Nat.zero_le _) (Nat.zero_le _) hfuel
  rw [show (prepare memsize s).nframes = memsize / 4 from rfl, Nat.zero_mul] at hloop
  split
  · next hframes =>
    rw [if_pos hframes] at hloop
    obtain ⟨s', hs', h'⟩ := hloop
    have hp := h'.pointer
    have haligned := h'.pointer_aligned (by omega)
    exact ⟨s', hs', h', by omega⟩
  · next hframes =>
    rw [if_neg hframes] at hloop
    exact hloop

theorem bootTables_pos (memsize pointer : Nat) : 0 < bootTables memsize pointer := by
  simp only [bootTables, tableBase]
  omega

/-- **`paging_install` maps identically all memory in use**, the page tables it makes on the way
included, if the bitmap has frames for it; if not, it halts.  The fuel is for the loop, which takes
`bootPages` rounds. -/
theorem pagingInstall_identity (fuel memsize : Nat) (s : Paging)
    (hpp : 0x1000 ≤ s.placementPointer)
    (hwrap : 0x1000 * bootPages memsize s.placementPointer < 0x100000000)
    (hfuel : bootPages memsize s.placementPointer < fuel) :
    if bootPages memsize s.placementPointer ≤ indexFromBit (memsize / 4) * 0x20 then
      ∃ s', pagingInstall fuel memsize s = .ok s' ∧ IdentityMapped s' ∧
        s'.placementPointer = 0x1000 * bootPages memsize s.placementPointer
    else pagingInstall fuel memsize s =
      .error (.halt "Failed to allocate a frame: out of frames") := by
  have hboot := pagingInstall_booting fuel memsize hpp hwrap hfuel
  split at hboot
  · next hframes =>
    rw [if_pos hframes]
    obtain ⟨s', hs', h', hp⟩ := hboot
    exact ⟨s', hs', h'.identityMapped (bootTables_pos _ _) hp, hp⟩
  · next hframes =>
    rwa [if_neg hframes]

theorem pagingInstall_identity_32MB :
    if bootPages 0x8000 0x200000 ≤ indexFromBit (0x8000 / 4) * 0x20 then
      ∃ s', pagingInstall 516 0x8000 (unset 0x200000) = .ok s' ∧ IdentityMapped s' ∧
        s'.placementPointer = 0x1000 * bootPages 0x8000 0x200000
    else pagingInstall 516 0x8000 (unset 0x200000) =
      .error (.halt "Failed to allocate a frame: out of frames") :=
  pagingInstall_identity 516 0x8000 (unset 0x200000) (by decide) (by decide) (by decide)

end Paging

end MyaXOS
