import MyaXOS.Mem.FlatRefine
import MyaXOS.Mem.Heap
import Mathlib.Order.Interval.Finset.Nat

/-!
# `sbrk`, in one memory

`MyaXOS.Mem.Heap` says what `sbrk` and `get_page` do to separate objects after `heap_install`.  This
file says when they do the same in one memory.

## Where the objects are

`paging_install` makes the bitmap 32 times too short, one byte for each word of it, so the words
behind its end belong to the directory, and `sbrk` goes on to take frames there.  The tables that
are placed from address 0 on come to memory that is in use.  So there has to be room for a call:

* `BootApart` says that the bitmap has words below the directory for all that boot maps.  With a
  boot module of the wrong length the directory is placed over the bitmap, and there are none.
* `GrowthApart` says the same of a call of `sbrk`.  It is about the state before the call: it counts
  the pages that need a frame and the slots that need a table, and asks whether there is room for so
  many.  The tables may be in the memory below `0xA0000` and no further up, where a PC has its
  screen and this kernel its code and its ramdisk.

## Why it works

Under these conditions the state is followed by two invariants.  `Represents` says that the objects
are found in memory, and `Steady` says of the objects where the next table goes and which frames are
taken.  The count of `GrowthApart` is `Room` on the objects.  Each round of the loop of `sbrk` uses
up what it takes of it: a table that is made is one less to make (`Steady.getPage_room`), and a page
that is given a frame is behind the loop (`Steady.allocFrame`).  So the room lasts to the end of the
loop, and `Represents.sbrkLoop` is an induction on the fuel with nothing else to count.
-/

set_option autoImplicit false

namespace MyaXOS

namespace Machine

/-- The page at an address, if its table exists. -/
def pageAt (m : Machine) (a : Nat) : Option Page :=
  (getPage a false m).1.map fun entry => Page.decode (BitVec.ofNat 32 (m.mem.load32 entry))

/-- A slot has a table exactly if the processor sees one, and then both views name the same. -/
def ViewsAgree (m : Machine) : Prop :=
  ∀ k < 1024,
    (m.mem.load32 (m.tableSlot k) ≠ 0 ↔ (m.mem.load32 (m.physicalSlot k)).testBit 0 = true) ∧
    (m.mem.load32 (m.tableSlot k) ≠ 0 →
      m.mem.load32 (m.physicalSlot k) = m.mem.load32 (m.tableSlot k) ||| 0x7)

/-- The page at an address has a table, or its table would not be placed at 0. -/
def CanMake (a : Nat) (m : Machine) : Prop :=
  m.mem.load32 (m.tableSlot (a / 0x1000 / 1024)) ≠ 0 ∨ m.placementPointer ≠ 0

/-! ## Room for the heap to grow

What a call of `sbrk` needs, counted on the machine before the call: the pages of the region without
a frame, and the slots without a table.  The count allows for pages that `get_page` has been called
for earlier, and for the table at address 0, which is made once more. -/

/-- The frames the bitmap has words for below the directory. -/
def roomFrames (m : Machine) : Nat := 0x20 * min ((m.kernelDirectory - m.frames) / 4) 0x8000

/-- The end of the memory for the tables that are made after `heap_install`. -/
def heapLow (m : Machine) : Nat := min m.frames 0xA0000

/-- The pages from `p` up to `e` that have no frame. -/
def frameless (m : Machine) (p e : Nat) : Finset Nat :=
  (Finset.Ico p e).filter fun q => ((m.pageAt (q * 0x1000)).getD Page.zero).frame = 0#20

/-- The slots of the pages from `p` up to `e` that have no table. -/
def tableless (m : Machine) (p e : Nat) : Finset Nat :=
  ((Finset.Ico p e).image (· / 1024)).filter fun k => m.mem.load32 (m.tableSlot k) = 0

/-- The number of tables that `sbrk` places for so many slots: the one that is placed at 0 is made
twice. -/
def newTables (pointer slots : Nat) : Nat :=
  if pointer = 0 ∧ slots ≠ 0 then slots + 1 else slots

/-- There is room for the heap to grow over the pages from `p` up to `e`: for the frames of the
pages and for the tables of the slots that have none. -/
structure GrowthApart (m : Machine) (p e : Nat) : Prop where
  frames : (m.frameless p e).card ≠ 0 →
    firstFrame m.nframes m.bitmap + (m.frameless p e).card ≤ m.roomFrames
  tables : m.placementPointer + 0x1000 * newTables m.placementPointer (m.tableless p e).card ≤
    m.heapLow

/-- There is room for `sbrk(increment)`.  An increment with a carry needs none, since the loop of
`sbrk` does not run, and nor does one that is not of whole pages, since `sbrk` stops. -/
def RoomFor (m : Machine) (increment : Nat) : Prop :=
  increment % 0x1000 = 0 → m.heapEnd + increment < 0x100000000 →
    m.GrowthApart (m.heapEnd / 0x1000) ((m.heapEnd + increment) / 0x1000)

/-- The bitmap and the directory that `paging_install(memsize)` makes do not come into each other's
way at boot.  The bitmap has words up to the directory, although it was given fewer bytes; so the
pages that are mapped at boot must be no more than such words have bits for. -/
structure BootApart (memsize : Nat) (m : Machine) : Prop where
  pointer : 0x1000 ≤ m.placementPointer
  wrap : 0x1000 * Paging.bootPages memsize m.placementPointer < 0x100000000
  frames : Paging.bootPages memsize m.placementPointer ≤
    0x20 * ((Paging.directoryAddress memsize m.placementPointer - m.placementPointer) / 4)

end Machine

namespace Paging

/-! ## The same room, for separate objects

The counts are sizes of sets of pages and slots, so that a step of the loop can be compared with the
one before: mapping a page takes it out of the first set, and making a table takes a slot out of the
second. -/

/-- The pages from `p` up to `e` that have no frame. -/
def frameless (s : Paging) (p e : Nat) : Finset Nat :=
  (Finset.Ico p e).filter fun q => ((s.pageAt (q * 0x1000)).getD Page.zero).frame = 0#20

/-- The slots of the pages from `p` up to `e` that have no table. -/
def tableless (s : Paging) (p e : Nat) : Finset Nat :=
  ((Finset.Ico p e).image (· / 1024)).filter fun k => s.tables k = 0

variable {s s' : Paging} {p q e k : Nat}

theorem mem_frameless : q ∈ s.frameless p e ↔
    (p ≤ q ∧ q < e) ∧ ((s.pageAt (q * 0x1000)).getD Page.zero).frame = 0#20 := by
  rw [frameless, Finset.mem_filter, Finset.mem_Ico]

theorem mem_tableless : k ∈ s.tableless p e ↔
    (∃ q, (p ≤ q ∧ q < e) ∧ q / 1024 = k) ∧ s.tables k = 0 := by
  simp only [tableless, Finset.mem_filter, Finset.mem_image, Finset.mem_Ico]

theorem pageAt_page (s : Paging) (q : Nat) : s.pageAt (q * 0x1000) =
    if s.tables (q / 1024) ≠ 0 then some (s.pages (q / 1024) (q % 1024)) else none := by
  rw [pageAt_eq, show q * 0x1000 / 0x1000 = q by omega]

theorem frameless_of_heapEnd {heapEnd : Nat} :
    ({ s with heapEnd := heapEnd } : Paging).frameless p e = s.frameless p e :=
  Finset.filter_congr fun q _ => by rw [pageAt_page, pageAt_page]

/-- A new table has no frames, whether it can be seen or not. -/
theorem frameless_makeTable (hnone : s.tables k = 0) :
    (s.makeTable k).frameless p e = s.frameless p e := by
  refine Finset.filter_congr fun q _ => ?_
  rw [pageAt_page, pageAt_page]
  by_cases hk : q / 1024 = k
  · rw [hk, if_neg (not_not_intro hnone)]
    split
    · simp only [makeTable, if_pos, Option.getD_some, Option.getD_none]
    · rfl
  · simp only [makeTable, if_neg hk]

/-- A table that is not placed at 0 is one less to make. -/
theorem tableless_makeTable (hk : k ∈ s.tableless p e) (hp : s.placementPointer ≠ 0) :
    ((s.makeTable k).tableless p e).card + 1 = (s.tableless p e).card := by
  have herase : (s.makeTable k).tableless p e = (s.tableless p e).erase k := by
    ext k'
    rw [Finset.mem_erase, mem_tableless, mem_tableless]
    by_cases hkk : k' = k
    · subst hkk
      have hne : (s.makeTable k').tables k' ≠ 0 := fun h0 => hp (makeTable_tables_self.mp h0)
      simp only [ne_eq, not_true_eq_false, false_and, iff_false, not_and]
      exact fun _ h0 => hne h0
    · have hsame : (s.makeTable k).tables k' = s.tables k' := by
        simp only [makeTable, if_neg hkk]
      rw [hsame]
      exact (and_iff_right hkk).symm
  rw [herase, Finset.card_erase_add_one hk]

/-- A table that is placed at 0 has to be made once more. -/
theorem tableless_makeTable_zero (hnone : s.tables k = 0) (hp : s.placementPointer = 0) :
    (s.makeTable k).tableless p e = s.tableless p e := by
  refine Finset.filter_congr fun k' _ => ?_
  by_cases hk : k' = k
  · rw [hk, hnone, makeTable_tables_self.mpr hp]
  · simp only [makeTable, if_neg hk]

/-- If the pages below `p` are mapped then the slots without a table are behind that of page
`p - 1`. -/
theorem card_tableless_le (h : Mapped p s) (hp : 0 < p) :
    (s.tableless p e).card ≤ (e - 1) / 1024 - (p - 1) / 1024 := by
  have hsub : s.tableless p e ⊆ Finset.Ioc ((p - 1) / 1024) ((e - 1) / 1024) := fun k hk => by
    obtain ⟨⟨q, hq, rfl⟩, hnone⟩ := mem_tableless.mp hk
    have hne : q / 1024 ≠ (p - 1) / 1024 := fun hsame => h.table (p - 1) (by omega) (hsame ▸ hnone)
    rw [Finset.mem_Ioc]
    omega
  exact (Finset.card_le_card hsub).trans (Nat.card_Ioc _ _).le

theorem card_frameless_le : (s.frameless p e).card ≤ e - p :=
  (Finset.card_filter_le _ _).trans (Nat.card_Ico _ _).le

theorem frameless_succ_subset : s.frameless (p + 1) e ⊆ s.frameless p e := fun q hq => by
  rw [mem_frameless] at hq ⊢
  exact ⟨⟨by omega, hq.1.2⟩, hq.2⟩

theorem tableless_succ_subset : s.tableless (p + 1) e ⊆ s.tableless p e := fun k hk => by
  rw [mem_tableless] at hk ⊢
  obtain ⟨⟨q, hq, hqk⟩, hnone⟩ := hk
  exact ⟨⟨q, ⟨by omega, hq.2⟩, hqk⟩, hnone⟩

end Paging

namespace Machine

variable {pointer slots slots' : Nat}

theorem newTables_of_pos (h : pointer ≠ 0) : newTables pointer slots = slots :=
  if_neg fun hc => h hc.1

theorem newTables_zero (h : slots ≠ 0) : newTables 0 slots = slots + 1 := if_pos ⟨rfl, h⟩

theorem le_newTables (pointer slots : Nat) : slots ≤ newTables pointer slots := by
  rw [newTables]
  split
  · exact Nat.le_succ slots
  · exact Nat.le_refl slots

theorem newTables_mono (pointer : Nat) (h : slots' ≤ slots) :
    newTables pointer slots' ≤ newTables pointer slots := by
  simp only [newTables]
  split
  · rw [if_pos (by omega)]
    omega
  · exact Nat.le_trans h (le_newTables pointer slots)

end Machine

/-! ## The invariant of the objects

`Steady` is what stays true of the objects after `heap_install`, whatever is called: the tables that
have been made since lie below the placement pointer, the next one fits behind them, and the frames
that are marked are those below `n`.  `Room` is what is left for the pages from `p` to `e`; it goes
down as the loop goes on. -/

/-- Where the next table goes and which frames are taken, after `heap_install`: the tables are
placed one behind the other in the first `low` bytes, and the frames below `n` are taken. -/
structure Steady (L : Layout) (low n : Nat) (s : Paging) : Prop where
  marked_iff : ∀ f, marked s.frames f = true ↔ f < n
  le : n ≤ 0x20 * L.words
  words_le : L.words ≤ indexFromBit s.nframes
  aligned : s.placementPointer % 0x1000 = 0
  pointer_le : s.placementPointer ≤ low
  low_le : low ≤ L.directory
  below : ∀ k, s.tables k ≠ 0 → s.tables k + 0x1000 ≤ s.placementPointer ∨ L.base ≤ s.tables k
  beyond : ∀ k, 1024 ≤ k → s.tables k = 0 ∧ (s.physicalTables k).testBit 0 = false
  heapEnd_aligned : s.heapEnd % 0x1000 = 0
  heapEnd_lt : s.heapEnd < 0x100000000

/-- There is room for `sbrk` to go on from page `p` up to page `e`, where `n` frames are taken.  A
round of the loop takes of both at most what the pages behind it do not need, so the condition is
kept with `p` moved on. -/
structure Room (L : Layout) (low n : Nat) (s : Paging) (p e : Nat) : Prop where
  frames : n + (s.frameless p e).card ≤ 0x20 * L.words
  tables : s.placementPointer +
    0x1000 * Machine.newTables s.placementPointer (s.tableless p e).card ≤ low

namespace Steady

variable {L : Layout} {low n p e k : Nat} {s s' : Paging}

/-- The next table is placed at the pointer. -/
theorem placeable (h : Steady L low n s) (hroom : s.placementPointer + 0x1000 ≤ low) :
    Placeable L low s s.placementPointer (s.placementPointer + 0x1000) := by
  have hfits := L.fits
  have hlow := h.low_le
  have hbase : L.base = L.directory + 0x2000 := rfl
  refine ⟨?_, ⟨Or.inl hroom, by omega⟩, fun k _ hne => ?_⟩
  · rw [kvmallocP, kmallocReal_in_place (fun _ => h.aligned) (by omega)]
    rfl
  · rw [PagesApart]
    rcases h.below k hne with hk | hk <;> omega

theorem makeTable (h : Steady L low n s) (hroom : s.placementPointer + 0x1000 ≤ low)
    (hk : k < 1024) : Steady L low n (s.makeTable k) := by
  have hplaced := (h.placeable hroom).placed
  have hpointer : (s.makeTable k).placementPointer = s.placementPointer + 0x1000 := by
    simp only [Paging.makeTable, hplaced]
  have htables : ∀ k', (s.makeTable k).tables k' =
      if k' = k then s.placementPointer else s.tables k' := fun k' => by
    simp only [Paging.makeTable, hplaced]
  refine ⟨?_, h.le, ?_, ?_, hpointer.trans_le hroom, h.low_le, fun k' hne => ?_,
    fun k' hk' => ?_, ?_, ?_⟩
  · simpa only [Paging.makeTable] using h.marked_iff
  · simpa only [Paging.makeTable] using h.words_le
  · rw [hpointer, Nat.add_mod_right]
    exact h.aligned
  · rw [htables] at hne ⊢
    rw [hpointer]
    split
    · exact Or.inl (Nat.le_refl _)
    · next hkk =>
      rw [if_neg hkk] at hne
      exact (h.below k' hne).imp_left (by omega)
  · simp only [Paging.makeTable, if_neg (show ¬ k' = k by omega)]
    exact h.beyond k' hk'
  · simpa only [Paging.makeTable] using h.heapEnd_aligned
  · simpa only [Paging.makeTable] using h.heapEnd_lt

/-- **`get_page` uses up room** for the tables it makes, and no frame.  A table that it makes is one
that the count has as missing; the one at address 0 is counted twice, and made twice. -/
theorem getPage_room (h : Steady L low n s) (hr : Room L low n s p e) (hp : p < e)
    (he : e ≤ 0x100000) :
    Steady L low n (Paging.getPage (p * 0x1000) true s).2 ∧
      Room L low n (Paging.getPage (p * 0x1000) true s).2 p e ∧
      (s.tables (p / 1024) = 0 → s.placementPointer + 0x1000 ≤ low) := by
  have hslot : p * 0x1000 / 0x1000 / 1024 = p / 1024 := by omega
  by_cases hne : s.tables (p / 1024) = 0
  · have hget := Paging.getPage_make (a := p * 0x1000) (by rwa [hslot])
    have hmem : p / 1024 ∈ s.tableless p e :=
      Paging.mem_tableless.mpr ⟨⟨p, ⟨Nat.le_refl p, hp⟩, rfl⟩, hne⟩
    have hcard : 0 < (s.tableless p e).card := Finset.card_pos.mpr ⟨_, hmem⟩
    have htables := hr.tables
    have hle := Machine.le_newTables s.placementPointer (s.tableless p e).card
    have hroom : s.placementPointer + 0x1000 ≤ low := by omega
    have hsteady := h.makeTable hroom (show p / 1024 < 1024 by omega)
    have hframeless := Paging.frameless_makeTable (p := p) (e := e) hne
    have hzero := Paging.tableless_makeTable_zero (p := p) (e := e) hne
    have hpos := Paging.tableless_makeTable hmem
    have hpointer : (s.makeTable (p / 1024)).placementPointer = s.placementPointer + 0x1000 := by
      simp only [Paging.makeTable, (h.placeable hroom).placed]
    rw [hget, hslot]
    refine ⟨hsteady, ?_, fun _ => hroom⟩
    generalize s.makeTable (p / 1024) = t at hframeless hzero hpos hpointer
    refine ⟨?_, ?_⟩
    · simp only [hframeless]
      exact hr.frames
    · simp only [hpointer, Machine.newTables_of_pos (Nat.succ_ne_zero (s.placementPointer + 0xFFF))]
      by_cases hp0 : s.placementPointer = 0
      · rw [hp0, Machine.newTables_zero (by omega)] at htables
        rw [hzero hp0]
        omega
      · rw [Machine.newTables_of_pos hp0] at htables
        have := hpos hp0
        omega
  · rw [Paging.getPage_of_table (by rwa [hslot])]
    exact ⟨h, hr, fun h0 => absurd h0 hne⟩

theorem firstFrame_eq (h : Steady L low n s) (hn : n < 0x20 * L.words) :
    firstFrame s.nframes s.frames = n := by
  have := h.words_le
  rw [firstFrame_of_marked h.marked_iff, if_pos (by omega)]

/-- **`alloc_frame` uses up a frame** for a page that has none, and is done with the page. -/
theorem allocFrame (h : Steady L low n s) (hr : Room L low n s p e) (hp : p < e)
    (hne : s.tables (p / 1024) ≠ 0)
    (hs : s.allocFrame (s.entry (p / 1024) (p % 1024)) false false = .ok s') :
    ∃ n', Steady L low n' s' ∧ Room L low n' s' (p + 1) e := by
  have hwords := L.words_le
  have hsame : ∀ {q}, q / 1024 = p / 1024 ∧ q % 1024 = p % 1024 → q = p := by omega
  have hroom : s.placementPointer +
      0x1000 * Machine.newTables s.placementPointer (s.tableless (p + 1) e).card ≤ low := by
    have hmono := Machine.newTables_mono s.placementPointer
      (Finset.card_le_card (Paging.tableless_succ_subset (s := s) (p := p) (e := e)))
    have htables := hr.tables
    omega
  have hpage : ((s.pageAt (p * 0x1000)).getD Page.zero).frame =
      (s.pages (p / 1024) (p % 1024)).frame := by
    rw [Paging.pageAt_page, if_pos hne, Option.getD_some]
  simp only [Paging.allocFrame, Paging.entry, MyaXOS.allocFrame] at hs
  by_cases hheld : (s.pages (p / 1024) (p % 1024)).frame = 0#20
  · have hmem : p ∈ s.frameless p e :=
      Paging.mem_frameless.mpr ⟨⟨Nat.le_refl p, hp⟩, hpage.trans hheld⟩
    have hcard : 0 < (s.frameless p e).card := Finset.card_pos.mpr ⟨_, hmem⟩
    have hframes := hr.frames
    have hn : n < 0x20 * L.words := by omega
    simp only [hheld, h.firstFrame_eq hn, ne_eq, not_true_eq_false, if_false,
      if_neg (show ¬ n = 0xFFFFFFFF by omega)] at hs
    cases hs
    refine ⟨n + 1, ⟨fun f => ?_, hn, h.words_le, h.aligned, h.pointer_le, h.low_le, h.below,
      h.beyond, h.heapEnd_aligned, h.heapEnd_lt⟩, ⟨?_, hroom⟩⟩
    · rw [marked_setFrame, u32_eq (by omega), Bool.or_eq_true, decide_eq_true_eq, h.marked_iff]
      omega
    · refine Nat.le_trans ?_ hframes
      rw [Nat.add_assoc, Nat.add_le_add_iff_left, Nat.add_comm, ← Finset.card_erase_add_one hmem]
      refine Nat.succ_le_succ (Finset.card_le_card fun q hq => ?_)
      rw [Paging.mem_frameless, Paging.pageAt_page] at hq
      have hqp : ¬ (q / 1024 = p / 1024 ∧ q % 1024 = p % 1024) := fun e => by
        have := hsame e
        omega
      rw [Finset.mem_erase, Paging.mem_frameless, Paging.pageAt_page]
      refine ⟨by omega, ⟨by omega, hq.1.2⟩, ?_⟩
      simpa only [Paging.setEntry, if_neg hqp] using hq.2
  · simp only [hheld, ne_eq, not_false_eq_true, if_true] at hs
    cases hs
    have hkeep : s.setEntry (p / 1024) (p % 1024) (s.pages (p / 1024) (p % 1024)) = s.pages := by
      funext k j
      simp only [Paging.setEntry]
      split
      · next e => rw [e.1, e.2]
      · rfl
    rw [hkeep]
    refine ⟨n, h, ⟨Nat.le_trans (Nat.add_le_add_left (Finset.card_le_card ?_) n) hr.frames, hroom⟩⟩
    exact Paging.frameless_succ_subset

/-- The search for a frame stays in the bitmap if there is room for one. -/
theorem frameInside (h : Steady L low n s) (hr : Room L low n s p e) (hp : p < e)
    (hne : s.tables (p / 1024) ≠ 0) (hzero : (s.pages (p / 1024) (p % 1024)).frame = 0#20) :
    FrameInside L s := by
  have hmem : p ∈ s.frameless p e := by
    rw [Paging.mem_frameless, Paging.pageAt_page, if_pos hne]
    exact ⟨⟨Nat.le_refl p, hp⟩, hzero⟩
  have hcard : 0 < (s.frameless p e).card := Finset.card_pos.mpr ⟨_, hmem⟩
  have hframes := hr.frames
  rw [FrameInside, h.firstFrame_eq (by omega)]
  omega

/-- There is always room for nothing. -/
theorem room_of_le (h : Steady L low n s) (he : e ≤ p) : Room L low n s p e := by
  have hframeless : s.frameless p e = ∅ := by
    rw [Paging.frameless, Finset.Ico_eq_empty (by omega), Finset.filter_empty]
  have htableless : s.tableless p e = ∅ := by
    rw [Paging.tableless, Finset.Ico_eq_empty (by omega), Finset.image_empty, Finset.filter_empty]
  refine ⟨?_, ?_⟩
  · rw [hframeless, Finset.card_empty]
    exact h.le
  · rw [htableless, Finset.card_empty, Machine.newTables, if_neg (by simp), Nat.mul_zero]
    exact h.pointer_le

end Steady

/-! ## The simulation

First, what is counted on the bytes is what is counted on the objects.  Then the loop of `sbrk`, by
induction on its fuel: each round uses up what `Room` has for its page, and ends in a state in which
the machine still has the objects in their places. -/

/-- The layout of a machine after boot, with all slots in use, and the memory for its tables. -/
structure HeapLayout (L : Layout) (low : Nat) : Prop where
  tables : L.tables = 1024
  words : L.words = min ((L.directory - L.frames) / 4) 0x8000
  low : low = min L.frames 0xA0000

namespace Represents

variable {L : Layout} {low n p e a k fuel increment : Nat} {m₀ : Mem} {m : Machine} {s : Paging}

theorem pageAt_eq (h : Represents L low m₀ m s) (hk : a / 0x1000 / 1024 < L.tables) :
    m.pageAt a = s.pageAt a := by
  by_cases hne : s.tables (a / 0x1000 / 1024) = 0
  · have hload := h.tables _ hk
    rw [← h.tableSlot_eq hk, hne] at hload
    rw [Paging.pageAt_eq, if_neg (not_not_intro hne)]
    simp only [Machine.pageAt, Machine.getPage, hload, ne_eq, not_true_eq_false, if_false,
      Bool.false_eq_true, Option.map_none]
  · have hj : a / 0x1000 % 1024 < 1024 := Nat.mod_lt _ (by decide)
    rw [Machine.pageAt, h.getPage_of_table hk hne, Paging.pageAt_eq, if_pos hne]
    simp only [Option.map_some, h.entry_eq hk hj, h.pages _ hk hne _ hj, BitVec.ofNat_toNat,
      BitVec.setWidth_eq, Page.decode_encode]

theorem frameless_eq (h : Represents L low m₀ m s) (htables : L.tables = 1024)
    (he : e ≤ 0x100000) : m.frameless p e = s.frameless p e :=
  Finset.filter_congr fun q hq => by
    have := (Finset.mem_Ico.mp hq).2
    rw [h.pageAt_eq (by omega)]

theorem tableless_eq (h : Represents L low m₀ m s) (htables : L.tables = 1024)
    (he : e ≤ 0x100000) : m.tableless p e = s.tableless p e :=
  Finset.filter_congr fun k hk => by
    obtain ⟨q, hq, rfl⟩ := Finset.mem_image.mp hk
    have := (Finset.mem_Ico.mp hq).2
    rw [h.tableSlot_eq (by omega), h.tables _ (by omega)]

/-- What `GrowthApart` counts on the bytes is there on the objects. -/
theorem room (h : Represents L low m₀ m s) (hL : HeapLayout L low) (hs : Steady L low n s)
    (he : e ≤ 0x100000) (hg : m.GrowthApart p e) : Room L low n s p e := by
  have hwords := L.words_le
  obtain ⟨hframes, htables⟩ := hg
  have hroom : m.roomFrames = 0x20 * L.words := by
    rw [Machine.roomFrames, h.directory, h.frames, ← hL.words]
  have hlow : m.heapLow = low := by
    rw [Machine.heapLow, h.frames, ← hL.low]
  rw [h.frameless_eq hL.tables he, hroom] at hframes
  rw [h.tableless_eq hL.tables he, hlow, h.pointer] at htables
  refine ⟨?_, htables⟩
  by_cases hcard : (s.frameless p e).card = 0
  · rw [hcard]
    exact hs.le
  · have hle := hframes hcard
    have hfirst : firstFrame s.nframes s.frames = firstFrame m.nframes m.bitmap := by
      rw [← h.nframes]
      exact firstFrame_congr (fun i (hi : i < L.words) => (h.bitmap_eq hi).symm) (by omega)
        (Or.inl (by omega))
    rw [firstFrame_of_marked hs.marked_iff] at hfirst
    split at hfirst <;> omega

/-- The converse of `room`. -/
theorem growthApart (h : Represents L low m₀ m s) (hL : HeapLayout L low) (hs : Steady L low n s)
    (he : e ≤ 0x100000) (hr : Room L low n s p e) : m.GrowthApart p e := by
  have hwords := L.words_le
  have hframes := hr.frames
  refine ⟨fun hcard => ?_, ?_⟩
  · rw [h.frameless_eq hL.tables he] at hcard ⊢
    have hfirst : firstFrame m.nframes m.bitmap = n := by
      rw [h.nframes, ← hs.firstFrame_eq (show n < 0x20 * L.words by omega)]
      refine firstFrame_congr (fun i (hi : i < L.words) => h.bitmap_eq hi) (by omega) (Or.inl ?_)
      rw [hs.firstFrame_eq (by omega)]
      omega
    rw [hfirst, Machine.roomFrames, h.directory, h.frames, ← hL.words]
    exact hframes
  · rw [h.tableless_eq hL.tables he, Machine.heapLow, h.frames, ← hL.low, h.pointer]
    exact hr.tables

/-- **The loop of `sbrk`** on the bytes does what the loop on the objects does, as long as there is
room for it. -/
theorem sbrkLoop (htables : L.tables = 1024) : ∀ (fuel : Nat) {p n : Nat} {m : Machine}
    {s : Paging},
    Represents L low m₀ m s → Steady L low n s → Room L low n s p (s.heapEnd / 0x1000) →
    Runs.Agree (fun m s => Represents L low m₀ m s ∧ ∃ n, Steady L low n s)
      (Machine.sbrkLoop fuel (p * 0x1000) m) (Paging.sbrkLoop fuel (p * 0x1000) s)
  | 0, _, _, _, _, _, _, _ => .error Stop.spin
  | fuel + 1, p, n, m, s, h, hs, hr => by
    have haligned := hs.heapEnd_aligned
    have hend := hs.heapEnd_lt
    rw [Machine.sbrkLoop, Paging.sbrkLoop, h.heapEnd]
    split
    · next hi =>
      have hp : p < s.heapEnd / 0x1000 := by omega
      have he : s.heapEnd / 0x1000 ≤ 0x100000 := by omega
      have hlt : p < 0xFFFFF := by omega
      have hnext : u32 (p * 0x1000 + 0x1000) = (p + 1) * 0x1000 := by
        clear hi
        rw [u32_eq (show p * 0x1000 + 0x1000 < 0x100000000 by omega), Nat.succ_mul]
      have hpage : p * 0x1000 / 0x1000 = p := by omega
      have hk : p * 0x1000 / 0x1000 / 1024 < L.tables := by omega
      -- the first call of `get_page`, for the table only
      obtain ⟨hs₁, hr₁, hroom⟩ := hs.getPage_room hr hp he
      obtain ⟨-, h₁⟩ := h.getPage hk fun hnone =>
        ⟨_, _, hs.placeable (hroom (hpage ▸ hnone))⟩
      have hcan := Paging.canMake_getPage (s := s) (a := p * 0x1000)
      have hend₁ := Paging.heapEnd_getPage (s := s) (a := p * 0x1000)
      generalize (Paging.getPage (p * 0x1000) true s).2 = s₁ at hs₁ hr₁ h₁ hcan hend₁ ⊢
      generalize (Machine.getPage (p * 0x1000) true m).2 = m₁ at h₁ ⊢
      -- the second call, for the entry
      obtain ⟨hs₂, hr₂, hroom₂⟩ := hs₁.getPage_room hr₁ hp he
      have hsome := Paging.getPage_tables hcan
      have hne := hsome
      rw [hpage] at hne
      have hround := h₁.mapPage hk (fun hnone =>
          ⟨_, _, hs₁.placeable (hroom₂ (hpage ▸ hnone))⟩) hsome fun hzero => by
        rw [hpage] at hzero
        exact hs₂.frameInside hr₂ hp hne hzero
      generalize hres : Paging.mapPage (p * 0x1000) s₁ = res at hround ⊢
      generalize Machine.mapPage (p * 0x1000) m₁ = res' at hround ⊢
      cases hround with
      | error e => exact .error e
      | @ok m₃ s₃ h₃ =>
        have hend₃ := (Paging.heapEnd_mapPage hres).trans hend₁
        obtain ⟨n', hs₃, hr₃⟩ := hs₂.allocFrame hr₂ hp hne
          ((Paging.mapPage_eq s₁ p).symm.trans hres)
        simp only [hnext]
        rw [← hend₃] at hr₃
        exact sbrkLoop htables fuel h₃ hs₃ hr₃
    · exact .ok ⟨h, n, hs⟩

/-- **`sbrk`** on the bytes returns what it returns on the objects, and stops where it stops, as
long as there is room for it. -/
theorem sbrk (fuel : Nat) (h : Represents L low m₀ m s) (hL : HeapLayout L low)
    (hs : Steady L low n s)
    (hapart : m.RoomFor increment) (hinc : increment < 0x100000000) :
    Runs.Agree (fun r r' => r.1 = r'.1 ∧ Represents L low m₀ r.2 r'.2 ∧ ∃ n, Steady L low n r'.2)
      (m.sbrk fuel increment) (s.sbrk fuel increment) := by
  have haligned := hs.heapEnd_aligned
  have hend := hs.heapEnd_lt
  by_cases hmul : increment % 0x1000 = 0
  · have hr : Room L low n s (s.heapEnd / 0x1000) (u32 (s.heapEnd + increment) / 0x1000) := by
      rcases Nat.lt_or_ge (s.heapEnd + increment) 0x100000000 with hlt | hge
      · have hg := hapart hmul (by rwa [h.heapEnd])
        rw [h.heapEnd] at hg
        rw [u32_eq hlt]
        exact h.room hL hs (by omega) hg
      · refine hs.room_of_le ?_
        rw [u32]
        omega
    have haligned' : u32 (s.heapEnd + increment) % 0x1000 = 0 := by
      rw [u32]
      omega
    have h' : Represents L low m₀ { m with heapEnd := u32 (s.heapEnd + increment) }
        { s with heapEnd := u32 (s.heapEnd + increment) } :=
      ⟨h.pointer, h.nframes, rfl, h.frames, h.directory, h.bitmap, h.tables, h.physical, h.pages,
        h.spot, h.distinct, h.low_le, h.kept⟩
    have hs' : Steady L low n { s with heapEnd := u32 (s.heapEnd + increment) } :=
      ⟨hs.marked_iff, hs.le, hs.words_le, hs.aligned, hs.pointer_le, hs.low_le, hs.below,
        hs.beyond, haligned', Nat.mod_lt _ (by decide)⟩
    have hr' : Room L low n { s with heapEnd := u32 (s.heapEnd + increment) } (s.heapEnd / 0x1000)
        (u32 (s.heapEnd + increment) / 0x1000) :=
      ⟨by rw [Paging.frameless_of_heapEnd]; exact hr.frames, hr.tables⟩
    have hloop := sbrkLoop hL.tables fuel h' hs' hr'
    rw [Nat.div_mul_cancel (Nat.dvd_of_mod_eq_zero haligned)] at hloop
    simp only [Machine.sbrk, Paging.sbrk, assert_eq_ok hmul, h.heapEnd]
    generalize Machine.sbrkLoop fuel s.heapEnd
      { m with heapEnd := u32 (s.heapEnd + increment) } = r at hloop ⊢
    generalize Paging.sbrkLoop fuel s.heapEnd
      { s with heapEnd := u32 (s.heapEnd + increment) } = r' at hloop ⊢
    cases hloop with
    | ok hrep => exact .ok ⟨rfl, hrep⟩
    | error e => exact .error e
  · rw [Machine.sbrk, Paging.sbrk, assert, if_neg hmul]
    exact .error _

end Represents

/-! ## Boot

`BootApart` is a condition on three numbers, and `layout` makes the placement of it that the
simulation needs: the words of the bitmap are those below the directory.  Boot has frames for all
that it maps if these words have, so it returns. -/

namespace Machine.BootApart

variable {memsize fuel : Nat} {m m₁ : Machine}

theorem directory_le (h : m.BootApart memsize) :
    m.placementPointer ≤ Paging.directoryAddress memsize m.placementPointer := by
  have hpages := h.frames
  have hpos := Paging.bootTables_pos memsize m.placementPointer
  rw [Paging.bootPages] at hpages
  omega

/-- The words of the bitmap below the directory do not reach it. -/
theorem words_below (h : m.BootApart memsize) :
    m.placementPointer + 4 * min ((Paging.directoryAddress memsize m.placementPointer -
      m.placementPointer) / 4) 0x8000 ≤ Paging.directoryAddress memsize m.placementPointer := by
  have hle := h.directory_le
  omega

theorem directory_fits (h : m.BootApart memsize) :
    Paging.directoryAddress memsize m.placementPointer + 0x2000 + 0x1000 * 1024 ≤ 0xFFFFF000 := by
  have hwrap := h.wrap
  have haligned : Paging.directoryAddress memsize m.placementPointer % 0x1000 = 0 :=
    Nat.mul_mod_left _ _
  rw [Paging.bootPages, Paging.bootTables, Paging.tableBase] at hwrap
  omega

/-- The placement of the bitmap and the directory. -/
def layout (h : m.BootApart memsize) : Layout where
  frames := m.placementPointer
  directory := Paging.directoryAddress memsize m.placementPointer
  words := min ((Paging.directoryAddress memsize m.placementPointer - m.placementPointer) / 4)
    0x8000
  tables := 1024
  aligned := Nat.mul_mod_left _ _
  separate := Or.inl h.words_below
  words_le := Nat.min_le_right _ _
  tables_le := Nat.le_refl _
  fits := h.directory_fits

theorem bootTables_le (h : m.BootApart memsize) :
    Paging.bootTables memsize m.placementPointer ≤ 1024 := by
  have hwrap := h.wrap
  rw [Paging.bootPages, Paging.bootTables] at hwrap
  rw [Paging.bootTables]
  omega

/-- The objects of a machine that has no bitmap and no directory yet. -/
def objects (m : Machine) : Paging :=
  { Paging.unset m.placementPointer with heapEnd := m.heapEnd }

/-- Boot does the same to the bytes and to the objects. -/
theorem agree (h : m.BootApart memsize) (fuel : Nat) :
    Runs.Agree (Represents h.layout 0 m.mem) (m.pagingInstall fuel memsize)
      (Paging.pagingInstall fuel memsize (objects m)) := by
  have hwrap := h.wrap
  have hframes := h.frames
  refine Represents.pagingInstall fuel memsize rfl rfl h.pointer rfl rfl h.bootTables_le ?_
  show _ ≤ min _ _ * 0x20
  omega

/-- The bitmap has frames for all that boot maps. -/
theorem booting (h : m.BootApart memsize) (hfuel : 0x100000 < fuel) :
    ∃ s, Paging.pagingInstall fuel memsize (objects m) = .ok s ∧
      Paging.Booting (Paging.tableBase memsize m.placementPointer)
        (Paging.bootTables memsize m.placementPointer)
        (Paging.bootPages memsize m.placementPointer) s ∧
      s.placementPointer = 0x1000 * Paging.bootPages memsize m.placementPointer := by
  have hwrap := h.wrap
  have hframes := h.frames
  have hinstall := Paging.pagingInstall_booting (s := objects m) fuel memsize h.pointer hwrap
    (show Paging.bootPages memsize m.placementPointer < fuel by omega)
  have hle : Paging.bootPages memsize m.placementPointer ≤ indexFromBit (memsize / 4) * 0x20 := by
    rw [Paging.directoryAddress] at hframes
    omega
  rwa [show (objects m).placementPointer = m.placementPointer from rfl, if_pos hle] at hinstall

/-- **After boot** the objects of the pager are apart, and the heap starts behind them. -/
theorem start (h : m.BootApart memsize) (hfuel : 0x100000 < fuel)
    (hboot : m.pagingInstall fuel memsize = .ok m₁) :
    ∃ s, HeapLayout h.layout (min m.placementPointer 0xA0000) ∧
      Represents h.layout (min m.placementPointer 0xA0000) m₁.mem m₁.heapInstall s ∧
      Steady h.layout (min m.placementPointer 0xA0000) (s.heapEnd / 0x1000) s ∧
      Paging.Mapped (s.heapEnd / 0x1000) s ∧ s.ViewsAgree ∧ s.placementPointer = 0 ∧
      s.heapEnd = 0x1000 * Paging.bootPages memsize m.placementPointer ∧
      ∀ k, s.tables k ≠ 0 ↔ k < Paging.bootTables memsize m.placementPointer := by
  have hwrap := h.wrap
  have hframes := h.frames
  have hdir := h.directory_le
  obtain ⟨s₁, hs₁, hbooting, hpointer⟩ := h.booting hfuel
  obtain ⟨m', hm', hrep⟩ := (h.agree fuel).of_ok' hs₁
  cases hboot.symm.trans hm'
  obtain ⟨hmapped, haligned, hlt⟩ := hbooting.heapInstall hpointer
  have hend : s₁.heapInstall.heapEnd = 0x1000 * Paging.bootPages memsize m.placementPointer :=
    hpointer
  have hviews₁ : s₁.ViewsAgree := Paging.viewsAgree_pagingInstall hs₁
  have hviews : s₁.heapInstall.ViewsAgree := hviews₁
  have hnframes₁ := Paging.nframes_pagingInstall hs₁
  have hnframes : s₁.heapInstall.nframes = memsize / 4 := hnframes₁
  refine ⟨s₁.heapInstall, ⟨rfl, rfl, rfl⟩,
    hrep.heapInstall (Nat.min_le_left _ _) ((Nat.min_le_left _ _).trans hdir),
    ⟨hmapped.marked_iff, ?_, ?_, rfl, Nat.zero_le _, (Nat.min_le_left _ _).trans hdir,
      fun k hne => Or.inr ?_, fun k hk => ?_, haligned, hlt⟩, hmapped, hviews, rfl, hend,
    hbooting.table_iff⟩
  · show _ ≤ 0x20 * min _ _
    omega
  · rw [hnframes]
    show min _ _ ≤ _
    rw [Paging.directoryAddress] at hdir ⊢
    omega
  · have hk := (hbooting.table_iff k).mp hne
    have hk' : s₁.heapInstall.tables k = _ := hbooting.table_eq k hk
    rw [hk']
    exact Nat.le_add_right _ _
  · have hnone : s₁.heapInstall.tables k = 0 := by
      by_contra hne
      have hk' := (hbooting.table_iff k).mp hne
      have hle := h.bootTables_le
      omega
    exact ⟨hnone, Bool.eq_false_iff.mpr fun hbit => (hviews k).1.mpr hbit hnone⟩

end Machine.BootApart

end MyaXOS
