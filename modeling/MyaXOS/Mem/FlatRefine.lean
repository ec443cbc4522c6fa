import MyaXOS.Lib.Run
import MyaXOS.Mem.Flat

/-!
# One memory holds separate objects

`MyaXOS.Mem.Paging` keeps the bitmap, the directory and the page tables apart, and
`MyaXOS.Mem.Flat` does not.  This file says when that makes no difference, for boot and for the heap
alike.

* `Layout` is a placement of the bitmap and of the directory in memory that keeps apart all that is
  made use of: the words of the bitmap for the frames that are handed out, and the slots that are
  filled in.
* `Represents L low m₀ m s` relates the two states: each object of `s` is found in `m` at its place.
  The page tables are found where their slots say, and all of them are in one of two places: behind
  the directory, where boot puts them, or in the first `low` bytes, where `sbrk` puts them once
  `heap_install` has set the placement pointer to 0.
* What lies between, from `low` up to the bitmap and the directory, is as it was in `m₀`.  At boot
  `low` is 0 and so nothing below the bitmap is written to, which is what becomes of the ramdisk.

## Why it works

Each function of `mem.c` writes to one object at a time, so the proof for each is a frame argument:
the object that is written to is read back as it was written, and every other object is disjoint
from it.  That a new table is disjoint from all there is cannot be read off the layout, since its
address is the placement pointer; it is a hypothesis, `Placeable`, which boot and the heap discharge
differently.  At boot `Paging.Booting` says where the pointer is, and `Represents.mapLoop` follows
the loop of `paging_install` with it.  The two sides are compared by `Runs.Agree`, so running out of
frames is one of the cases and no count of the frames is needed.
-/

set_option autoImplicit false

namespace MyaXOS

/-- A placement of the first `words` words of the bitmap and of the first `tables` slots and tables
of the directory that keeps them apart. -/
structure Layout where
  frames : Nat
  directory : Nat
  words : Nat
  tables : Nat
  aligned : directory % 0x1000 = 0
  /-- The bitmap lies below the directory, or between the tables in use and the physical tables. -/
  separate : frames + 4 * words ≤ directory ∨
    directory + 4 * tables ≤ frames ∧ frames + 4 * words ≤ directory + 0x1000
  words_le : words ≤ 0x8000
  tables_le : tables ≤ 1024
  fits : directory + 0x2000 + 0x1000 * tables ≤ 0xFFFFF000

/-- The address of the first page table. -/
def Layout.base (L : Layout) : Nat := L.directory + 0x2000

/-- A place for a page table: in the first `low` bytes, or behind the directory. -/
def Layout.Spot (L : Layout) (low a : Nat) : Prop :=
  (a + 0x1000 ≤ low ∨ L.base ≤ a) ∧ a + 0x1000 < 0x100000000

/-- Two pages that do not overlap.  They need not be aligned, as the placement pointer need not be.
-/
def PagesApart (a b : Nat) : Prop := a + 0x1000 ≤ b ∨ b + 0x1000 ≤ a

/-- The machine `m` has the objects of `s` in their places, and the bytes of `m₀` between the first
`low` bytes and the bitmap and the directory. -/
structure Represents (L : Layout) (low : Nat) (m₀ : Mem) (m : Machine) (s : Paging) : Prop where
  pointer : m.placementPointer = s.placementPointer
  nframes : m.nframes = s.nframes
  heapEnd : m.heapEnd = s.heapEnd
  frames : m.frames = L.frames
  directory : m.kernelDirectory = L.directory
  bitmap : ∀ i < L.words, m.mem.load32 (L.frames + 4 * i) = (s.frames i).toNat
  tables : ∀ k < L.tables, m.mem.load32 (L.directory + 4 * k) = s.tables k
  physical : ∀ k < L.tables, m.mem.load32 (L.directory + 0x1000 + 4 * k) = s.physicalTables k
  pages : ∀ k < L.tables, s.tables k ≠ 0 → ∀ j < 1024,
    m.mem.load32 (s.tables k + 4 * j) = (s.pages k j).encode.toNat
  spot : ∀ k < L.tables, s.tables k ≠ 0 → L.Spot low (s.tables k)
  distinct : ∀ k < L.tables, ∀ k' < L.tables, k ≠ k' → s.tables k ≠ 0 → s.tables k' ≠ 0 →
    PagesApart (s.tables k) (s.tables k')
  low_le : low ≤ L.frames ∧ low ≤ L.directory
  kept : ∀ x, low ≤ x → x < L.frames → x < L.directory → m.mem x = m₀ x

/-- The next table would be placed at `a`, and there is room for it: it comes into the way of
neither the bitmap nor the directory nor a table that is there already. -/
structure Placeable (L : Layout) (low : Nat) (s : Paging) (a p : Nat) : Prop where
  placed : kvmallocP s.placementPointer 0x1000 = ⟨a, some a, p⟩
  spot : L.Spot low a
  apart : ∀ k < L.tables, s.tables k ≠ 0 → PagesApart (s.tables k) a

/-- The search for a free frame stays in the words of the layout. -/
def FrameInside (L : Layout) (s : Paging) : Prop :=
  firstFrame s.nframes s.frames < L.words * 0x20 ∨ indexFromBit s.nframes ≤ L.words

namespace Represents

variable {L : Layout} {low a p t k j n : Nat} {m₀ : Mem} {m : Machine} {s : Paging}

theorem tableSlot_eq (h : Represents L low m₀ m s) (hk : k < L.tables) :
    m.tableSlot k = L.directory + 4 * k := by
  have := L.fits
  rw [Machine.tableSlot, h.directory]
  exact u32_eq (show L.directory + 4 * k < 0x100000000 by omega)

theorem physicalSlot_eq (h : Represents L low m₀ m s) (hk : k < L.tables) :
    m.physicalSlot k = L.directory + 0x1000 + 4 * k := by
  have := L.fits
  rw [Machine.physicalSlot, h.directory]
  exact u32_eq (show L.directory + 0x1000 + 4 * k < 0x100000000 by omega)

theorem word_eq (h : Represents L low m₀ m s) {i : Nat} (hi : i < L.words) :
    u32 (m.frames + 4 * i) = L.frames + 4 * i := by
  have := L.fits
  have := L.separate
  rw [h.frames]
  exact u32_eq (show L.frames + 4 * i < 0x100000000 by omega)

theorem bitmap_eq (h : Represents L low m₀ m s) {i : Nat} (hi : i < L.words) :
    m.bitmap i = s.frames i := by
  rw [Machine.bitmap, h.word_eq hi, h.bitmap i hi, BitVec.ofNat_toNat, BitVec.setWidth_eq]

/-- The address of an entry: that of its table, which may be 0, and 4 bytes for each index. -/
theorem entry_eq (h : Represents L low m₀ m s) (hk : k < L.tables) (hj : j < 1024) :
    m.entry k j = s.tables k + 4 * j := by
  rw [Machine.entry, h.tableSlot_eq hk, h.tables k hk]
  refine u32_eq (show s.tables k + 4 * j < 0x100000000 from ?_)
  by_cases hne : s.tables k = 0
  · omega
  · have := (h.spot k hk hne).2
    omega

/-! ## Making a table

The new table is cleared and then named in two slots of the directory.  These are three writes, at
places that the hypothesis `Placeable` and the layout keep apart from each other and from all else
that is represented. -/

/-- The memory after a table has been made at its place. -/
theorem makeTable_mem (h : Represents L low m₀ m s) (hp : Placeable L low s a p)
    (ht : t < L.tables) :
    (m.makeTable t).mem =
      (memset (m.mem.store32 (L.directory + 4 * t) a) a 0 0x1000).store32
        (L.directory + 0x1000 + 4 * t) (a ||| 0x7) := by
  have hlt : a < 2 ^ 32 := by
    have := hp.spot.2
    omega
  simp only [Machine.makeTable, h.pointer, hp.placed, h.tableSlot_eq ht, h.physicalSlot_eq ht,
    Mem.load32_store32_self _ _ hlt, Option.getD_some]

theorem makeTable_of_outside (h : Represents L low m₀ m s) (hp : Placeable L low s a p)
    (ht : t < L.tables) {x : Nat} (hslot : x < L.directory + 4 * t ∨ L.directory + 4 * t + 4 ≤ x)
    (hphys : x < L.directory + 0x1000 + 4 * t ∨ L.directory + 0x1000 + 4 * t + 4 ≤ x)
    (htable : x < a ∨ a + 0x1000 ≤ x) : (m.makeTable t).mem x = m.mem x := by
  have hspot := hp.spot.2
  rw [h.makeTable_mem hp ht, Mem.store32_of_outside _ _ hphys,
    memset_of_outside (by omega) htable, Mem.store32_of_outside _ _ hslot]

/-- **Making the next table** on the bytes is making it on the objects: what is represented is where
it was, and the new table is in its place. -/
theorem makeTable (h : Represents L low m₀ m s) (hp : Placeable L low s a p)
    (ht : t < L.tables) : Represents L low m₀ (m.makeTable t) (s.makeTable t) := by
  have hfits := L.fits
  have hsep := L.separate
  have htables := L.tables_le
  have hbase : L.base = L.directory + 0x2000 := rfl
  obtain ⟨hspot, hlt⟩ := hp.spot
  obtain ⟨hlow, hlow'⟩ := h.low_le
  have hword : ∀ {x}, (x + 4 ≤ L.directory + 4 * t ∨ L.directory + 4 * t + 4 ≤ x) →
      (x + 4 ≤ L.directory + 0x1000 + 4 * t ∨ L.directory + 0x1000 + 4 * t + 4 ≤ x) →
      (x + 4 ≤ a ∨ a + 0x1000 ≤ x) →
      (m.makeTable t).mem.load32 x = m.mem.load32 x := fun _ _ _ =>
    Mem.load32_congr fun x _ _ =>
      h.makeTable_of_outside hp ht (by omega) (by omega) (by omega)
  have htable : ∀ k, (s.makeTable t).tables k = if k = t then a else s.tables k := fun k => by
    simp only [Paging.makeTable, hp.placed]
  refine ⟨?_, ?_, ?_, ?_, ?_, fun i hi => ?_, fun k hk => ?_, fun k hk => ?_,
    fun k hk hne j hj => ?_, fun k hk hne => ?_, fun k hk k' hk' hkk hne hne' => ?_, h.low_le,
    fun x hx hx' hx'' => ?_⟩
  · simp only [Machine.makeTable, Paging.makeTable, h.pointer]
  · simpa only [Machine.makeTable, Paging.makeTable] using h.nframes
  · simpa only [Machine.makeTable, Paging.makeTable] using h.heapEnd
  · simpa only [Machine.makeTable] using h.frames
  · simpa only [Machine.makeTable] using h.directory
  · rw [hword (by omega) (by omega) (by omega)]
    simpa only [Paging.makeTable] using h.bitmap i hi
  · rw [htable]
    split
    · next e =>
      subst e
      rw [h.makeTable_mem hp ht, Mem.load32_store32_of_disjoint _ _ (by omega)]
      rw [← Mem.load32_store32_self m.mem (L.directory + 4 * k) (show a < 2 ^ 32 by omega)]
      refine Mem.load32_congr fun x _ _ => ?_
      rw [Mem.load32_store32_self _ _ (show a < 2 ^ 32 by omega)]
      exact memset_of_outside (by omega) (by omega)
    · rw [hword (by omega) (by omega) (by omega)]
      exact h.tables k hk
  · simp only [Paging.makeTable, hp.placed, Option.getD_some]
    split
    · next e =>
      subst e
      have hor : a ||| 0x7 < 2 ^ 32 := Nat.or_lt_two_pow (by omega) (by omega)
      rw [h.makeTable_mem hp ht, Mem.load32_store32_self _ _ hor]
    · rw [hword (by omega) (by omega) (by omega)]
      exact h.physical k hk
  · rw [htable] at hne ⊢
    simp only [Paging.makeTable]
    by_cases hkt : k = t
    · rw [if_pos hkt, if_pos hkt, h.makeTable_mem hp ht,
        Mem.load32_store32_of_disjoint _ _ (by omega), Page.encode_zero]
      exact Mem.load32_eq_zero fun x _ _ => memset_apply (by omega) (by omega) (by omega)
    · rw [if_neg hkt] at hne ⊢
      rw [if_neg hkt]
      have hk' := (h.spot k hk hne).1
      rcases hp.apart k hk hne with hapart | hapart <;>
        rw [hword (by omega) (by omega) (by omega)] <;> exact h.pages k hk hne j hj
  · rw [htable] at hne ⊢
    split
    · exact hp.spot
    · next hkt =>
      rw [if_neg hkt] at hne
      exact h.spot k hk hne
  · rw [htable] at hne hne'
    rw [htable, htable]
    by_cases hkt : k = t
    · have hkt' : ¬ k' = t := fun e => hkk (hkt.trans e.symm)
      rw [if_neg hkt'] at hne'
      rw [if_pos hkt, if_neg hkt']
      exact (hp.apart k' hk' hne').symm
    · rw [if_neg hkt] at hne ⊢
      split
      · exact hp.apart k hk hne
      · next hkt' =>
        rw [if_neg hkt'] at hne'
        exact h.distinct k hk k' hk' hkk hne hne'
  · rw [h.makeTable_of_outside hp ht (by omega) (by omega) (by omega)]
    exact h.kept x hx hx' hx''

/-! ## `get_page`

The two sides agree on whether a slot has a table, because both read the same word.  If it has none
then the table is made on both, at the same address. -/

theorem getPage_make (h : Represents L low m₀ m s) (hk : a / 0x1000 / 1024 < L.tables)
    (hnone : s.tables (a / 0x1000 / 1024) = 0) : Machine.getPage a true m =
      (some ((m.makeTable (a / 0x1000 / 1024)).entry (a / 0x1000 / 1024) (a / 0x1000 % 1024)),
        m.makeTable (a / 0x1000 / 1024)) := by
  have hload := h.tables _ hk
  rw [← h.tableSlot_eq hk, hnone] at hload
  simp only [Machine.getPage, hload, ne_eq, not_true_eq_false, if_false, if_true]

theorem getPage_of_table (h : Represents L low m₀ m s) (hk : a / 0x1000 / 1024 < L.tables)
    (hsome : s.tables (a / 0x1000 / 1024) ≠ 0) (make : Bool) : Machine.getPage a make m =
      (some (m.entry (a / 0x1000 / 1024) (a / 0x1000 % 1024)), m) := by
  have hload := h.tables _ hk
  rw [← h.tableSlot_eq hk] at hload
  simp only [Machine.getPage, hload, ne_eq, hsome, not_false_eq_true, if_true]

/-- **`get_page`** returns the same entry on both sides, and makes the same table.  The table is
placed where nothing is, so clearing it and storing its address change nothing else. -/
theorem getPage (h : Represents L low m₀ m s) (hk : a / 0x1000 / 1024 < L.tables)
    (hplace : s.tables (a / 0x1000 / 1024) = 0 → ∃ b p, Placeable L low s b p) :
    (Machine.getPage a true m).1 = (Paging.getPage a true s).1.map Entry.address ∧
      Represents L low m₀ (Machine.getPage a true m).2 (Paging.getPage a true s).2 := by
  have hj : a / 0x1000 % 1024 < 1024 := Nat.mod_lt _ (by decide)
  by_cases hne : s.tables (a / 0x1000 / 1024) = 0
  · obtain ⟨b, p, hp⟩ := hplace hne
    have hmake := h.makeTable hp hk
    rw [h.getPage_make hk hne, Paging.getPage_make hne]
    exact ⟨congrArg some (hmake.entry_eq hk hj), hmake⟩
  · rw [h.getPage_of_table hk hne, Paging.getPage_of_table hne]
    exact ⟨congrArg some (h.entry_eq hk hj), h⟩

/-! ## Mapping a page

`alloc_frame` reads the bitmap and the entry, and writes a word of each.  That the search does not
leave the words of the layout is the hypothesis `FrameInside`: behind them the memory of the machine
is something else than the bitmap of the objects. -/

theorem setFrame (h : Represents L low m₀ m s) (hn : n < L.words * 0x20) :
    Represents L low m₀ (m.setFrame (u32 (n * 0x1000)))
      { s with frames := MyaXOS.setFrame s.frames (u32 (n * 0x1000)) } := by
  have hfits := L.fits
  have hsep := L.separate
  have htables := L.tables_le
  have hwords := L.words_le
  have hbase : L.base = L.directory + 0x2000 := rfl
  obtain ⟨hlow, hlow'⟩ := h.low_le
  have hindex : indexFromBit (u32 (n * 0x1000) / 0x1000) = n / 0x20 := by
    rw [u32_eq (show n * 0x1000 < 0x100000000 by omega)]
    simp only [indexFromBit]
    omega
  have hmem : (m.setFrame (u32 (n * 0x1000))).mem = m.mem.store32 (L.frames + 4 * (n / 0x20))
      (MyaXOS.setFrame s.frames (u32 (n * 0x1000)) (n / 0x20)).toNat := by
    simp only [Machine.setFrame, hindex, h.word_eq (show n / 0x20 < L.words by omega)]
    simp only [MyaXOS.setFrame, hindex, h.bitmap_eq (show n / 0x20 < L.words by omega)]
  have hword : ∀ {a}, (a + 4 ≤ L.frames + 4 * (n / 0x20) ∨ L.frames + 4 * (n / 0x20) + 4 ≤ a) →
      (m.setFrame (u32 (n * 0x1000))).mem.load32 a = m.mem.load32 a := fun _ => by
    rw [hmem, Mem.load32_store32_of_disjoint _ _ (by omega)]
  refine ⟨h.pointer, h.nframes, h.heapEnd, h.frames, h.directory, fun i hi => ?_, fun k hk => ?_,
    fun k hk => ?_, fun k hk hne j hj => ?_, h.spot, h.distinct, h.low_le, fun x hx hx' hx'' => ?_⟩
  · by_cases hi' : i = n / 0x20
    · rw [hi', hmem, Mem.load32_store32_self _ _ (BitVec.isLt _)]
    · rw [hword (by omega), h.bitmap i hi]
      simp only [MyaXOS.setFrame, hindex, if_neg hi']
  · rw [hword (by omega)]
    exact h.tables k hk
  · rw [hword (by omega)]
    exact h.physical k hk
  · have hspot := (h.spot k hk hne).1
    show (m.setFrame (u32 (n * 0x1000))).mem.load32 (s.tables k + 4 * j) = _
    rw [hword (by omega)]
    exact h.pages k hk hne j hj
  · rw [hmem, Mem.store32_of_outside _ _ (by omega)]
    exact h.kept x hx hx' hx''

theorem setEntry (h : Represents L low m₀ m s) (hk : k < L.tables) (hne : s.tables k ≠ 0)
    (hj : j < 1024) (page : Page) :
    Represents L low m₀ { m with mem := m.mem.store32 (s.tables k + 4 * j) page.encode.toNat }
      { s with pages := s.setEntry k j page } := by
  have hfits := L.fits
  have hsep := L.separate
  have htables := L.tables_le
  have hbase : L.base = L.directory + 0x2000 := rfl
  obtain ⟨hlow, hlow'⟩ := h.low_le
  have hspot := (h.spot k hk hne).1
  refine ⟨h.pointer, h.nframes, h.heapEnd, h.frames, h.directory, fun i hi => ?_,
    fun k' hk' => ?_, fun k' hk' => ?_, fun k' hk' hne' j' hj' => ?_, h.spot, h.distinct,
    h.low_le, fun x hx hx' hx'' => ?_⟩
  · rw [Mem.load32_store32_of_disjoint _ _ (by omega)]
    exact h.bitmap i hi
  · rw [Mem.load32_store32_of_disjoint _ _ (by omega)]
    exact h.tables k' hk'
  · rw [Mem.load32_store32_of_disjoint _ _ (by omega)]
    exact h.physical k' hk'
  · simp only [Paging.setEntry]
    by_cases hsame : k' = k ∧ j' = j
    · obtain ⟨rfl, rfl⟩ := hsame
      rw [if_pos ⟨rfl, rfl⟩, Mem.load32_store32_self _ _ (BitVec.isLt _)]
    · have hdisjoint : s.tables k' + 4 * j' + 4 ≤ s.tables k + 4 * j ∨
          s.tables k + 4 * j + 4 ≤ s.tables k' + 4 * j' := by
        by_cases hkk : k' = k
        · subst hkk
          omega
        · rcases h.distinct k' hk' k hk hkk hne' hne with hapart | hapart <;> omega
      rw [if_neg hsame, Mem.load32_store32_of_disjoint _ _ hdisjoint.symm]
      exact h.pages k' hk' hne' j' hj'
  · simp only
    rw [Mem.store32_of_outside _ _ (by omega)]
    exact h.kept x hx hx' hx''

/-- **`alloc_frame`** takes the same frame on both sides, or finds none.  The word of the bitmap
that it writes to is below the directory, which is what `FrameInside` says. -/
theorem allocFrame (h : Represents L low m₀ m s) (hk : k < L.tables) (hne : s.tables k ≠ 0)
    (hj : j < 1024) (hframe : (s.pages k j).frame = 0#20 → FrameInside L s) :
    Runs.Agree (Represents L low m₀) (m.allocFrame (s.tables k + 4 * j) false false)
      (s.allocFrame (s.entry k j) false false) := by
  have hwords := L.words_le
  have hentry : ∀ {m' s'}, Represents L low m₀ m' s' → s'.tables = s.tables →
      Page.decode (BitVec.ofNat 32 (m'.mem.load32 (s.tables k + 4 * j))) = s'.pages k j :=
    fun h' hsame => by
      have hword := h'.pages k hk (by rwa [hsame]) j hj
      rw [hsame] at hword
      rw [hword, BitVec.ofNat_toNat, BitVec.setWidth_eq, Page.decode_encode]
  rw [Machine.allocFrame, hentry h rfl]
  by_cases hheld : (s.pages k j).frame = 0#20
  · have hframe := hframe hheld
    have hfirst : firstFrame m.nframes m.bitmap = firstFrame s.nframes s.frames := by
      rw [h.nframes]
      exact firstFrame_congr (fun i hi => h.bitmap_eq hi) (by omega) hframe
    rw [hfirst]
    by_cases hnone : firstFrame s.nframes s.frames = 0xFFFFFFFF
    · simp only [Paging.allocFrame, Paging.entry, MyaXOS.allocFrame, hheld, hnone, ne_eq,
        not_true_eq_false, if_false, if_true]
      exact .error _
    · have hn : firstFrame s.nframes s.frames < L.words * 0x20 := by
        rcases hframe with hlt | hle
        · exact hlt
        · rcases firstFrame_spec s.nframes s.frames with ⟨hmissing, -⟩ | ⟨hlt, -⟩
          · exact absurd hmissing hnone
          · omega
      have hset := h.setFrame hn
      simp only [Paging.allocFrame, Paging.entry, MyaXOS.allocFrame, hheld, hnone, ne_eq,
        not_true_eq_false, if_false, hentry hset rfl]
      exact .ok (hset.setEntry hk hne hj _)
  · have hsame : s.setEntry k j (s.pages k j) = s.pages := by
      funext k' j'
      simp only [Paging.setEntry]
      split
      · next e => rw [e.1, e.2]
      · rfl
    simp only [Paging.allocFrame, Paging.entry, MyaXOS.allocFrame, hheld, ne_eq,
      not_false_eq_true, if_true, hsame]
    exact .ok h

/-- **One round of a mapping loop** does the same on both sides, or finds no frame on both. -/
theorem mapPage (h : Represents L low m₀ m s) (hk : a / 0x1000 / 1024 < L.tables)
    (hplace : s.tables (a / 0x1000 / 1024) = 0 → ∃ b p, Placeable L low s b p)
    (hne : (Paging.getPage a true s).2.tables (a / 0x1000 / 1024) ≠ 0)
    (hframe : ((Paging.getPage a true s).2.pages (a / 0x1000 / 1024)
      (a / 0x1000 % 1024)).frame = 0#20 → FrameInside L (Paging.getPage a true s).2) :
    Runs.Agree (Represents L low m₀) (Machine.mapPage a m) (Paging.mapPage a s) := by
  obtain ⟨hentry, hget⟩ := h.getPage hk hplace
  have hpaging : Paging.getPage a true s =
      (some ((Paging.getPage a true s).2.entry (a / 0x1000 / 1024) (a / 0x1000 % 1024)),
        (Paging.getPage a true s).2) := by
    by_cases hk : s.tables (a / 0x1000 / 1024) = 0
    · rw [Paging.getPage_make hk]
    · rw [Paging.getPage_of_table hk]
  have hflat : Machine.getPage a true m = (some ((Paging.getPage a true s).2.tables
      (a / 0x1000 / 1024) + 4 * (a / 0x1000 % 1024)), (Machine.getPage a true m).2) := by
    refine Prod.ext ?_ rfl
    rw [hentry, hpaging]
    rfl
  rw [Machine.mapPage, Paging.mapPage, hflat, hpaging]
  exact hget.allocFrame hk hne (Nat.mod_lt _ (by decide)) hframe

/-! ## Boot

The two loops side by side, with `Booting` on the side of the objects to say where the next table
goes.  If one runs out of frames then so does the other, and nothing needs to be known of when this
is. -/

/-- At boot the next table is placed behind the last one. -/
theorem placeable_of_booting (hs : Paging.Booting L.base t n s) (ht : t < L.tables) :
    Placeable L low s (L.base + 0x1000 * t) (L.base + 0x1000 * (t + 1)) := by
  have hfits := L.fits
  have hbase : L.base = L.directory + 0x2000 := rfl
  refine ⟨hs.kvmallocP (by omega) (by omega), ⟨Or.inr (by omega), by omega⟩, fun k _ hne => ?_⟩
  have hk := (hs.table_iff k).mp hne
  rw [hs.table_eq k hk, PagesApart]
  omega

/-- **The loop of `paging_install`** on the bytes ends where the loop on the objects does. -/
theorem mapLoop {b : Nat} (hb : L.base = 0x1000 * b) (htables : (b + 1022) / 1023 ≤ L.tables)
    (hwords : b + (b + 1022) / 1023 ≤ L.words * 0x20) :
    ∀ (fuel n : Nat) {m : Machine} {s : Paging}, Represents L low m₀ m s →
      Paging.Booting L.base ((n + 1023) / 1024) n s →
      Runs.Agree (Represents L low m₀) (Machine.mapLoop fuel (n * 0x1000) m)
        (Paging.mapLoop fuel (n * 0x1000) s)
  | 0, _, _, _, _, _ => .error Stop.spin
  | fuel + 1, n, m, s, h, hs => by
    have hfits := L.fits
    have haligned := L.aligned
    have hbase : L.base = L.directory + 0x2000 := rfl
    have htest := (hb ▸ hs).test_iff (show 0 < b by omega)
    rw [Machine.mapLoop, Paging.mapLoop, h.pointer]
    split
    · next hi =>
      have hn := htest.mp hi
      clear htest hi
      have hlt : n * 0x1000 + 0x1000 < 0x100000000 := by omega
      have hstep : u32 (n * 0x1000 + 0x1000) = (n + 1) * 0x1000 := by
        rw [u32_eq hlt]
        omega
      have hpage : n * 0x1000 / 0x1000 / 1024 = n / 1024 := by omega
      obtain ⟨hget, hnframes⟩ := hs.getPage (by omega) (by omega) (by omega)
      have htable := (hget.table_iff (n / 1024)).mpr (by omega)
      have hround := h.mapPage (a := n * 0x1000) (by omega) (fun hnone => by
        rw [hpage] at hnone
        have hfirst : (n + 1023) / 1024 = n / 1024 := by
          by_contra hc
          exact (hs.table_iff (n / 1024)).mpr (by omega) hnone
        rw [hfirst] at hs
        exact ⟨_, _, placeable_of_booting hs (by omega)⟩) (by rwa [hpage]) fun _ => by
        rw [FrameInside, hget.firstFrame_eq, hnframes]
        split <;> omega
      have hnext := hs.toMapped.mapPage (by omega) htable
      by_cases hframe : n < indexFromBit s.nframes * 0x20
      · rw [if_pos hframe] at hnext
        obtain ⟨m', hm', h'⟩ := hround.of_ok' hnext
        rw [hm', hnext]
        simp only [hstep]
        exact mapLoop hb htables hwords fuel (n + 1) h' (hget.mapNext (by omega) (by omega))
      · rw [if_neg hframe] at hnext
        rw [hround.of_error' hnext, hnext]
        exact .error _
    · exact .ok h

/-- Both start with a bitmap and a directory that are zero. -/
theorem prepare {memsize : Nat} (hpointer : s.placementPointer = m.placementPointer)
    (hend : s.heapEnd = m.heapEnd) (hpp : 0x1000 ≤ m.placementPointer)
    (hframes : L.frames = m.placementPointer)
    (hdirectory : L.directory = Paging.directoryAddress memsize m.placementPointer) :
    Represents L 0 m.mem (Machine.prepare memsize m) (Paging.prepare memsize s) := by
  have hfits := L.fits
  have hsep := L.separate
  have htables := L.tables_le
  have hdir := hdirectory
  rw [Paging.directoryAddress, ← hframes] at hdir
  have hkmalloc : kmalloc m.placementPointer (indexFromBit (memsize / 4)) =
      ⟨L.frames, none, L.frames + indexFromBit (memsize / 4)⟩ := by
    rw [kmalloc, kmallocReal_in_place (by simp) (by omega), ← hframes]
    rfl
  have hkvmalloc : kvmalloc (L.frames + indexFromBit (memsize / 4)) 0x2004 =
      ⟨L.directory, none, L.directory + 0x2004⟩ := by
    rw [kvmalloc, kmallocReal_aligned (by omega) (by omega), ← hdir,
      u32_eq (show L.directory + 0x2004 < 0x100000000 by omega)]
    rfl
  have hmem : (Machine.prepare memsize m).mem =
      memset (memset m.mem L.frames 0 (indexFromBit (memsize / 4))) L.directory 0 0x2004 := by
    simp only [Machine.prepare, hkmalloc, hkvmalloc]
  have hcleared : ∀ x, L.directory ≤ x → x < L.directory + 0x2004 →
      (Machine.prepare memsize m).mem x = 0 := fun x _ _ => by
    rw [hmem]
    exact memset_apply (by omega) (by omega) (by omega)
  refine ⟨?_, ?_, ?_, ?_, ?_, fun i hi => ?_, fun k hk => ?_, fun k hk => ?_,
    fun k hk hne => absurd rfl hne, fun k hk hne => absurd rfl hne,
    fun k _ k' _ _ hne => absurd rfl hne, ⟨Nat.zero_le _, Nat.zero_le _⟩, fun x _ hx hx' => ?_⟩
  · simp only [Machine.prepare, Paging.prepare, hpointer, hkmalloc, hkvmalloc]
  · simp only [Machine.prepare, Paging.prepare]
  · simp only [Machine.prepare, Paging.prepare, hend]
  · simp only [Machine.prepare, hkmalloc]
  · simp only [Machine.prepare, hkmalloc, hkvmalloc]
  · refine Mem.load32_eq_zero fun x _ _ => ?_
    rcases Nat.lt_or_ge x L.directory with hx | hx
    · rw [hmem, memset_of_outside (by omega) (Or.inl hx)]
      exact memset_apply (by omega) (by omega) (by omega)
    · exact hcleared x hx (by omega)
  · exact Mem.load32_eq_zero fun x _ _ => hcleared x (by omega) (by omega)
  · exact Mem.load32_eq_zero fun x _ _ => hcleared x (by omega) (by omega)
  · rw [hmem, memset_of_outside (by omega) (Or.inl hx'), memset_of_outside (by omega) (Or.inl hx)]

/-- **`paging_install` on the bytes** refines `paging_install` on the objects, and leaves alone all
that lies below the bitmap and the directory. -/
theorem pagingInstall (fuel memsize : Nat) (hpointer : s.placementPointer = m.placementPointer)
    (hend : s.heapEnd = m.heapEnd) (hpp : 0x1000 ≤ m.placementPointer)
    (hframes : L.frames = m.placementPointer)
    (hdirectory : L.directory = Paging.directoryAddress memsize m.placementPointer)
    (htables : Paging.bootTables memsize m.placementPointer ≤ L.tables)
    (hwords : Paging.bootPages memsize m.placementPointer ≤ L.words * 0x20) :
    Runs.Agree (Represents L 0 m.mem) (Machine.pagingInstall fuel memsize m)
      (Paging.pagingInstall fuel memsize s) := by
  have hfits := L.fits
  have haligned := L.aligned
  have hbase : Paging.tableBase memsize m.placementPointer = L.base := by
    rw [Paging.tableBase, ← hdirectory, Layout.base]
  have hbase' : L.base = L.directory + 0x2000 := rfl
  have hpos := Paging.bootTables_pos memsize m.placementPointer
  have hboot := Paging.prepare_booting memsize (s := s) (by omega)
    (show Paging.tableBase memsize s.placementPointer + 0x1000 < 0x100000000 by
      rw [hpointer]
      omega)
  rw [hpointer, hbase] at hboot
  simp only [Paging.bootPages, Paging.bootTables, hbase] at htables hwords
  have hloop := mapLoop (b := L.base / 0x1000) (by omega) htables hwords fuel 0
    (prepare hpointer hend hpp hframes hdirectory) hboot
  rwa [Nat.zero_mul] at hloop

/-- `heap_install`: the pages below `low` become a place for tables. -/
theorem heapInstall (h : Represents L 0 m₀ m s) (hlow : low ≤ L.frames)
    (hlow' : low ≤ L.directory) :
    Represents L low m.mem m.heapInstall s.heapInstall :=
  ⟨rfl, h.nframes, h.pointer, h.frames, h.directory, h.bitmap, h.tables, h.physical, h.pages,
    fun k hk hne => ⟨(h.spot k hk hne).1.imp_left (by omega), (h.spot k hk hne).2⟩, h.distinct,
    ⟨hlow, hlow'⟩, fun _ _ _ _ => rfl⟩

end Represents

end MyaXOS
