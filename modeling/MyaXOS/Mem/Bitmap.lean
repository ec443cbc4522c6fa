import Mathlib.Data.Nat.Find
import MyaXOS.Mem.Flat

/-!
# The words of the bitmap

`paging_install` asks `kmalloc` for as many bytes as the bitmap has words, and clears as many.  The
first frame is allocated in the first round of its loop, after `get_page` has made the first page
table and has stored the address of this table in the directory; `Machine.beforeFrames` is the state
of the machine there.

* `firstFrameReads` are the words that `first_frame` reads; `mem_firstFrameReads` says which these
  are, by the frame that is returned.
* `BitmapTouched` are the words that are read or changed in some run of `alloc_frame` and
  `free_frame`.
* `mem_beforeFrames` says what is in the words at the start.  The directory begins in the last page
  of the block that `kmalloc` has returned, since `kvmalloc` rounds down, so that the address of the
  first table can lie among the words that are used.
* `bitmap_inside_iff` says when all the words touched lie in the block and are zero at the start:
  when there are none, or when the block is so large that the frame numbers wrap around before its
  end, the words of these frames lie below the end of the address space, and no byte of the address
  of the first table that is not zero lies among them.

The argument is the same in both directions.  As long as the words are zero, allocating frames fills
them one after the other, so the first word that is outside the block or not zero is read sooner or
later (`touched_next`); and where there is none below the word of frame `0x100000`, the search never
gets beyond it, because a frame number that does not fit in the twenty bits of a page entry marks
another frame than its own (`le_of_touched`).
-/

set_option autoImplicit false

namespace MyaXOS

/-! ## What `first_frame` reads

The words that the loop reads are those it has passed and the one it stops at.  So the last word
that is read is that of the frame that is returned, or the last whole word of the bitmap. -/

/-- The words that the outer loop of `first_frame` reads, from word `i` on, with `k` words left. -/
def firstFrameReadsLoop (frames : Bitmap) : Nat → Nat → List Nat
  | 0, _ => []
  | k + 1, i =>
    i :: if frames i ≠ 0xFFFFFFFF#32 then
      match firstBit (frames i) with
      | some _ => []
      | none => firstFrameReadsLoop frames k (i + 1)
    else firstFrameReadsLoop frames k (i + 1)

/-- The words that `first_frame()` reads. -/
def firstFrameReads (nframes : Nat) (frames : Bitmap) : List Nat :=
  firstFrameReadsLoop frames (indexFromBit nframes) 0

/-- The loop finds nothing before the word it starts with. -/
theorem le_firstFrameLoop (frames : Bitmap) {k i : Nat} (h : (i + k) * 0x20 ≤ 0xFFFFFFFF) :
    i ≤ firstFrameLoop frames k i / 0x20 := by
  induction k generalizing i with
  | zero =>
    rw [firstFrameLoop]
    omega
  | succ k ih =>
    rw [firstFrameLoop]
    have hnext := ih (i := i + 1) (by omega)
    split
    · split
      · next j hj => omega
      · omega
    · omega

theorem mem_firstFrameReadsLoop (frames : Bitmap) {k i j : Nat}
    (h : (i + k) * 0x20 ≤ 0xFFFFFFFF) : j ∈ firstFrameReadsLoop frames k i ↔
      i ≤ j ∧ j < i + k ∧ j ≤ firstFrameLoop frames k i / 0x20 := by
  induction k generalizing i with
  | zero =>
    rw [firstFrameReadsLoop]
    simp only [List.not_mem_nil, false_iff]
    omega
  | succ k ih =>
    have hnext := ih (i := i + 1) (by omega)
    have hle := le_firstFrameLoop frames (k := k) (i := i + 1) (by omega)
    rw [firstFrameReadsLoop, firstFrameLoop, List.mem_cons]
    by_cases hones : frames i ≠ 0xFFFFFFFF#32
    · obtain ⟨b, hb, hlt, -⟩ := firstBit_spec hones
      rw [if_pos hones, if_pos hones, hb]
      simp only [List.not_mem_nil, or_false]
      omega
    · rw [if_neg hones, if_neg hones, hnext]
      omega

/-- **The words read** are those up to the word of the frame that is returned. -/
theorem mem_firstFrameReads {nframes : Nat} (frames : Bitmap) {i : Nat}
    (h : indexFromBit nframes * 0x20 ≤ 0xFFFFFFFF) : i ∈ firstFrameReads nframes frames ↔
      i < indexFromBit nframes ∧ i ≤ firstFrame nframes frames / 0x20 := by
  rw [firstFrameReads, mem_firstFrameReadsLoop frames (by omega), ← firstFrame]
  omega

/-! ## Words in use

A word is touched if some run of calls reads or changes it.  The question of the theorem is which
words these are, over all runs from the state in which the loop of `paging_install` starts. -/

/-- Page entries that are all zero, and the bitmap that `paging_install` leaves. -/
def Machine.frameState (m : Machine) : FrameState Nat := ⟨m.bitmap, fun _ => Page.zero⟩

/-- A word of the bitmap that `first_frame` reads, or that a call changes, in some run. -/
def BitmapTouched (m : Machine) (i : Nat) : Prop :=
  ∃ calls s, Runs.run (FrameCall.perform m.nframes) calls m.frameState = .ok s ∧
    (i ∈ firstFrameReads m.nframes s.frames ∨
      ∃ c s', FrameCall.perform m.nframes c s = .ok s' ∧ s'.frames i ≠ s.frames i)

/-- Word `i` of the bitmap lies in a block of `size` bytes at `frames`, as far as the block lies in
the address space. -/
def InBitmapBlock (m : Machine) (size i : Nat) : Prop :=
  m.frames ≤ u32 (m.frames + 4 * i) ∧
    u32 (m.frames + 4 * i) + 4 ≤ min (m.frames + size) 0x100000000

/-! ### Where a call changes the bitmap

A frame that has been found is in a word that has been read, and a frame that is freed is one that a
page holds; the number of such a frame fits 20 bits.  So the words that are changed are no more than
those that are read, and the first 0x8000. -/

section
variable {ι : Type} [DecidableEq ι] {nframes i : Nat} {s s' : FrameState ι}

theorem setFrame_of_ne {frames : Bitmap} {a : Nat} (h : i ≠ indexFromBit (a / 0x1000)) :
    setFrame frames a i = frames i := if_neg h

theorem clearFrame_of_ne {frames : Bitmap} {a : Nat} (h : i ≠ indexFromBit (a / 0x1000)) :
    clearFrame frames a i = frames i := if_neg h

/-- No call changes a word beyond those of the frames whose numbers fit a page entry. -/
theorem frames_perform (c : FrameCall ι) (hs : c.perform nframes s = .ok s') (hi : 0x8000 ≤ i) :
    s'.frames i = s.frames i := by
  cases c with
  | alloc p k w =>
    rw [perform_alloc] at hs
    split_ifs at hs
    · rw [← Except.ok.inj hs]
    · rw [← Except.ok.inj hs]
      refine setFrame_of_ne ?_
      rw [indexFromBit, u32]
      omega
  | free p =>
    rw [perform_free] at hs
    have hlt := (s.pages p).frame.isLt
    split_ifs at hs
    · rw [← Except.ok.inj hs]
    · rw [← Except.ok.inj hs]
      refine clearFrame_of_ne ?_
      rw [indexFromBit]
      omega

theorem marked_perform (c : FrameCall ι) (hs : c.perform nframes s = .ok s') {n : Nat}
    (hn : 0x100000 ≤ n) : marked s'.frames n = marked s.frames n := by
  rw [marked, marked, frames_perform c hs (by rw [indexFromBit]; omega)]

end

/-! ### Where the bitmap starts

Before the first frame is allocated `get_page` has made a table and stored its address in the
directory, which may lie in the words of the bitmap.  If the block is small then these words are
behind it and not zero; if it is large then the address has to miss the words in use. -/

/-- `paging_install` up to the first call of `alloc_frame`: the loop has called `get_page` for
address 0. -/
def Machine.beforeFrames (memsize : Nat) (m : Machine) : Machine :=
  (Machine.getPage 0 true (Machine.prepare memsize m)).2

/-- The address of the page table that the first `get_page` makes. -/
def Machine.firstTable (memsize : Nat) (m : Machine) : Nat :=
  (kvmallocP (Machine.prepare memsize m).placementPointer 0x1000).address

/-- The address of the first page table, stored as the first word of the directory, does not reach
into the words of the frames below `0x100000` and the next word, unless with bytes that are zero. -/
def PointerApart (memsize : Nat) (m : Machine) : Prop :=
  ∀ x, m.placementPointer ≤ x → x < m.placementPointer + 0x20004 →
    Mem.store32 (fun _ => 0) (Machine.prepare memsize m).kernelDirectory
      (Machine.firstTable memsize m) x = 0

section
variable {m : Machine} {memsize i x : Nat}

/-- Where an aligned request is served. -/
theorem kmallocReal_address {pointer : Nat} (h : pointer < 0x100000000) (size : Nat)
    (phys : Bool) : (kmallocReal pointer size true phys).address =
      if pointer < 0x1000 then pointer else pointer / 0x1000 * 0x1000 := by
  split_ifs with hlow
  · rw [kmallocReal_low hlow]
  · rw [kmallocReal_aligned (Nat.not_lt.mp hlow) h]

/-- The directory is placed behind the block of the bitmap, and rounded down. -/
theorem kernelDirectory_prepare (memsize : Nat) (m : Machine) :
    (Machine.prepare memsize m).kernelDirectory =
      if u32 (m.placementPointer + indexFromBit (memsize / 4)) < 0x1000 then
        u32 (m.placementPointer + indexFromBit (memsize / 4))
      else u32 (m.placementPointer + indexFromBit (memsize / 4)) / 0x1000 * 0x1000 :=
  kmallocReal_address (Nat.mod_lt _ (by decide)) 0x2004 false

/-- The first table is placed behind the directory, and rounded down. -/
theorem firstTable_eq (memsize : Nat) (m : Machine) : Machine.firstTable memsize m =
    if u32 ((Machine.prepare memsize m).kernelDirectory + 0x2004) < 0x1000 then
      u32 ((Machine.prepare memsize m).kernelDirectory + 0x2004)
    else u32 ((Machine.prepare memsize m).kernelDirectory + 0x2004) / 0x1000 * 0x1000 :=
  kmallocReal_address (Nat.mod_lt _ (by decide)) _ _

theorem kernelDirectory_le (memsize : Nat) (m : Machine) :
    (Machine.prepare memsize m).kernelDirectory ≤ 0xFFFFF000 := by
  rw [kernelDirectory_prepare, u32]
  split_ifs <;> omega

/-- The directory has been cleared, so there is no table yet. -/
theorem tableSlot_prepare (memsize : Nat) (m : Machine) :
    (Machine.prepare memsize m).tableSlot 0 = (Machine.prepare memsize m).kernelDirectory ∧
      (Machine.prepare memsize m).mem.load32 ((Machine.prepare memsize m).tableSlot 0) = 0 := by
  have hle := kernelDirectory_le memsize m
  have hslot : (Machine.prepare memsize m).tableSlot 0 =
      (Machine.prepare memsize m).kernelDirectory := by
    rw [Machine.tableSlot]
    exact u32_eq (show (Machine.prepare memsize m).kernelDirectory + 4 * 0 < 0x100000000 by omega)
  refine ⟨hslot, Mem.load32_eq_zero fun x hx hlt => ?_⟩
  rw [hslot] at hx hlt
  exact memset_apply (b := (Machine.prepare memsize m).kernelDirectory) (by omega) hx (by omega)

theorem beforeFrames_eq (memsize : Nat) (m : Machine) :
    Machine.beforeFrames memsize m = (Machine.prepare memsize m).makeTable 0 := by
  have hslot := (tableSlot_prepare memsize m).2
  simp only [Machine.beforeFrames, Machine.getPage, Nat.zero_div, hslot, ne_eq, not_true_eq_false,
    if_false, if_true]

theorem nframes_beforeFrames (memsize : Nat) (m : Machine) :
    (Machine.beforeFrames memsize m).nframes = memsize / 4 := by
  rw [beforeFrames_eq]
  rfl

theorem frames_beforeFrames (memsize : Nat) (m : Machine) :
    (Machine.beforeFrames memsize m).frames = m.placementPointer := by
  rw [beforeFrames_eq]
  rfl

/-- The memory after the first `get_page`. -/
theorem mem_makeTable (memsize : Nat) (m : Machine) :
    (Machine.beforeFrames memsize m).mem =
      (memset ((Machine.prepare memsize m).mem.store32
          (Machine.prepare memsize m).kernelDirectory (Machine.firstTable memsize m))
        (Machine.firstTable memsize m) 0 0x1000).store32
        ((Machine.prepare memsize m).physicalSlot 0) (Machine.firstTable memsize m ||| 0x7) := by
  have hlt : Machine.firstTable memsize m < 2 ^ 32 := by
    rw [firstTable_eq, u32]
    split_ifs <;> omega
  rw [beforeFrames_eq]
  simp only [Machine.makeTable, (tableSlot_prepare memsize m).1]
  rw [show (kvmallocP (Machine.prepare memsize m).placementPointer 0x1000).address =
    Machine.firstTable memsize m from rfl, Mem.load32_store32_self _ _ hlt]
  rfl

/-- **What is in the words at the start**: the address of the first table where it overlaps them,
and zeros. -/
theorem mem_beforeFrames (hsize : memsize < 0x100000000)
    (hlarge : 0x20004 ≤ indexFromBit (memsize / 4))
    (hend : m.placementPointer + 0x20004 ≤ 0x100000000) (hle : m.placementPointer ≤ x)
    (hlt : x < m.placementPointer + 0x20004) :
    (Machine.beforeFrames memsize m).mem x =
      Mem.store32 (fun _ => 0) (Machine.prepare memsize m).kernelDirectory
        (Machine.firstTable memsize m) x := by
  have hdirectory := kernelDirectory_prepare memsize m
  have htable := firstTable_eq memsize m
  have hwords : indexFromBit (memsize / 4) ≤ 0x2000000 := by
    rw [indexFromBit]
    omega
  have hzero : (Machine.prepare memsize m).mem x = 0 :=
    memset_eq_zero (memset_apply (b := m.placementPointer) (by omega) hle (by omega))
  have hphysical : (Machine.prepare memsize m).physicalSlot 0 =
      u32 ((Machine.prepare memsize m).kernelDirectory + 0x1000) := rfl
  rw [mem_makeTable, hphysical]
  generalize (Machine.prepare memsize m).kernelDirectory = directory at *
  generalize Machine.firstTable memsize m = table at *
  generalize indexFromBit (memsize / 4) = words at *
  rw [u32] at *
  rw [Mem.store32_of_outside _ _ (by split_ifs at hdirectory <;> omega)]
  have hfits : table + 0x1000 ≤ 0x100000000 := by split_ifs at htable <;> omega
  rcases Nat.lt_or_ge x table with hbefore | hafter
  · rw [memset_of_outside hfits (Or.inl hbefore), Mem.store32, Mem.store32, hzero]
  · rcases Nat.lt_or_ge x (table + 0x1000) with hin | hbehind
    · rw [memset_apply (by omega) hafter hin, Mem.store32_of_outside]
      · rfl
      · split_ifs at hdirectory htable <;> omega
    · rw [memset_of_outside hfits (Or.inr hbehind), Mem.store32, Mem.store32, hzero]

/-- The words in front of the one of frame `0x100000`, and that word. -/
theorem bitmap_beforeFrames (hsize : memsize < 0x100000000)
    (hlarge : 0x20004 ≤ indexFromBit (memsize / 4))
    (hend : m.placementPointer + 0x20004 ≤ 0x100000000) (hapart : PointerApart memsize m)
    (hi : i ≤ 0x8000) : (Machine.beforeFrames memsize m).bitmap i = 0#32 := by
  rw [Machine.bitmap, frames_beforeFrames, u32_eq (by omega), Mem.load32_eq_zero]
  intro x hle hlt
  rw [mem_beforeFrames hsize hlarge hend (by omega) (by omega)]
  exact hapart x (by omega) (by omega)

/-- The words of the block that lie below the directory. -/
theorem bitmap_of_block (hblock : 4 * i + 4 ≤ indexFromBit (memsize / 4))
    (hbelow : m.placementPointer + (4 * i + 4) ≤ (Machine.prepare memsize m).kernelDirectory)
    (hfits : (Machine.prepare memsize m).kernelDirectory + 0x3000 ≤ 0x100000000) :
    (Machine.beforeFrames memsize m).bitmap i = 0#32 := by
  have htable := firstTable_eq memsize m
  rw [Machine.bitmap, frames_beforeFrames, u32_eq (by omega), Mem.load32_eq_zero]
  intro x hle hlt
  have hzero : (Machine.prepare memsize m).mem x = 0 :=
    memset_eq_zero (memset_apply (b := m.placementPointer) (by omega) (by omega) (by omega))
  have hphysical : (Machine.prepare memsize m).physicalSlot 0 =
      (Machine.prepare memsize m).kernelDirectory + 0x1000 :=
    u32_eq (show (Machine.prepare memsize m).kernelDirectory + 0x1000 + 4 * 0 < 0x100000000 by
      omega)
  rw [mem_makeTable, hphysical, Mem.store32_of_outside _ _ (Or.inl (by omega))]
  refine memset_eq_zero ?_
  rw [Mem.store32_of_outside _ _ (Or.inl (by omega)), hzero]

theorem inBitmapBlock_iff (hi : i < indexFromBit (memsize / 4))
    (hsize : memsize < 0x100000000) :
    InBitmapBlock (Machine.beforeFrames memsize m) (indexFromBit (memsize / 4)) i ↔
      4 * i + 4 ≤ indexFromBit (memsize / 4) ∧
        m.placementPointer + (4 * i + 4) ≤ 0x100000000 := by
  rw [InBitmapBlock, frames_beforeFrames, Nat.le_min]
  rw [indexFromBit] at *
  rcases Nat.lt_or_ge (m.placementPointer + 4 * i) 0x100000000 with hlt | hge
  · rw [u32_eq hlt]
    omega
  · rw [u32]
    omega

end

/-! ## A run that fills the words

To show that a word is read one needs a run that has filled all words before it.  Calls of
`alloc_frame` on fresh pages do this, one frame after the other, as long as the numbers fit an
entry. -/

/-- **Allocating the frames of the first words**, one after the other. -/
theorem exists_run_alloc {nframes words : Nat} (hwords : words ≤ indexFromBit nframes)
    (hlow : words ≤ 0x8000) : ∀ (k j : Nat) (s : FrameState Nat), j + k ≤ words * 0x20 →
      (∀ n < words * 0x20, marked s.frames n = decide (n < j)) →
      (∀ p, j ≤ p → s.pages p = Page.zero) →
      ∃ calls s', Runs.run (FrameCall.perform nframes) calls s = .ok s' ∧
        ∀ n < words * 0x20, marked s'.frames n = decide (n < j + k)
  | 0, j, s, _, hmarked, _ => ⟨[], s, rfl, hmarked⟩
  | k + 1, j, s, hle, hmarked, hzero => by
    have hfirst : firstFrame nframes s.frames = j := by
      rcases firstFrame_spec nframes s.frames with ⟨-, hall⟩ | ⟨hlt, hclear, hall⟩
      · have hj := hall j (by omega)
        rw [hmarked j (by omega), decide_eq_true_eq] at hj
        exact absurd hj (Nat.lt_irrefl j)
      · refine Nat.le_antisymm (Nat.le_of_not_lt fun hj => ?_) (Nat.le_of_not_lt fun hj => ?_)
        · have hmark := hall j hj
          rw [hmarked j (by omega), decide_eq_true_eq] at hmark
          exact Nat.lt_irrefl j hmark
        · rw [hmarked _ (by omega), decide_eq_false_iff_not] at hclear
          exact hclear hj
    have hstep : (FrameCall.alloc j false false).perform nframes s =
        .ok (s.assign j j false false) := by
      rw [perform_alloc, hzero j le_rfl, if_neg (by decide), hfirst, if_neg (by omega)]
    obtain ⟨calls, s', hrun, hmarked'⟩ := exists_run_alloc hwords hlow k (j + 1)
      (s.assign j j false false) (by omega)
      (fun n hn => by
        rw [marked_assign, hmarked n hn, Nat.mod_eq_of_lt (by omega), ← Bool.decide_or]
        exact decide_eq_decide.mpr Nat.lt_succ_iff_lt_or_eq.symm)
      (fun p hp => by
        rw [pages_assign_of_ne (by omega)]
        exact hzero p (by omega))
    refine ⟨.alloc j false false :: calls, s', ?_, fun n hn => ?_⟩
    · rw [Runs.run, hstep]
      exact hrun
    · rw [hmarked' n hn, Nat.add_assoc, Nat.add_comm 1 k]

/-! ## When the words lie in the block

If the bitmap has words then the run that fills them reads a word behind a block that has a quarter
of their bytes.  Only a block of 0x20004 bytes or more is long enough for what can ever be read,
since frame numbers wrap around before the end of such a bitmap. -/

section
variable {m : Machine} {memsize i : Nat}

/-- Once some words that are zero at the start are full, the next one is read. -/
theorem touched_next {words : Nat} (hsize : memsize < 0x100000000)
    (hlt : words < indexFromBit (memsize / 4))
    (hzero : ∀ i < words, (Machine.beforeFrames memsize m).bitmap i = 0#32)
    (hlow : words ≤ 0x8000) : BitmapTouched (Machine.beforeFrames memsize m) words := by
  have hwords : indexFromBit (memsize / 4) * 0x20 ≤ 0xFFFFFFFF := by
    rw [indexFromBit]
    omega
  have hstart : ∀ n < words * 0x20,
      marked (Machine.beforeFrames memsize m).frameState.frames n = decide (n < 0) := by
    intro n hn
    have hindex : indexFromBit n < words := Nat.div_lt_of_lt_mul (by omega)
    have hword : (Machine.beforeFrames memsize m).frameState.frames (indexFromBit n) = 0#32 :=
      hzero _ hindex
    rw [marked, hword, BitVec.getLsbD_zero, decide_eq_false (Nat.not_lt_zero n)]
  obtain ⟨calls, s, hrun, hmarked⟩ := exists_run_alloc hlt.le hlow _ 0
    (Machine.beforeFrames memsize m).frameState (by rw [Nat.zero_add]) hstart fun p _ => rfl
  rw [BitmapTouched, nframes_beforeFrames]
  refine ⟨calls, s, hrun, Or.inl ((mem_firstFrameReads s.frames hwords).mpr ⟨hlt, ?_⟩)⟩
  rcases firstFrame_spec (memsize / 4) s.frames with ⟨hnone, -⟩ | ⟨-, hclear, -⟩
  · rw [hnone]
    omega
  · by_contra hlt
    rw [hmarked _ (by omega), decide_eq_false_iff_not] at hclear
    omega

/-- Without a word in the bitmap no frame is found, and nothing happens. -/
theorem not_touched_of_empty (hempty : indexFromBit (memsize / 4) = 0) :
    ¬ BitmapTouched (Machine.beforeFrames memsize m) i := by
  rw [BitmapTouched, nframes_beforeFrames]
  rintro ⟨calls, s, hrun, htouched⟩
  have hnone : ∀ frames, firstFrame (memsize / 4) frames = 0xFFFFFFFF := by
    intro frames
    rw [firstFrame, hempty, firstFrameLoop]
  have hstep : ∀ (c : FrameCall Nat) s s', (∀ p, (s.pages p).frame = 0#20) →
      c.perform (memsize / 4) s = .ok s' → s' = s := by
    intro c s s' hpages hs
    cases c with
    | alloc p k w =>
      rw [perform_alloc, hpages, if_neg (by decide), hnone, if_pos rfl] at hs
      cases hs
    | free p =>
      rw [perform_free, if_pos (hpages p)] at hs
      exact (Except.ok.inj hs).symm
  have hpages : ∀ p, (s.pages p).frame = 0#20 := by
    refine (Runs.always_of_step (P := fun s : FrameState Nat => ∀ p, (s.pages p).frame = 0#20)
      (fun c s s' hs hperform => ?_) (fun p => rfl)).last hrun
    rw [hstep c s s' hs hperform]
    exact hs
  rcases htouched with hread | ⟨c, s', hs, hne⟩
  · rw [firstFrameReads, hempty] at hread
    cases hread
  · exact hne (by rw [hstep c s s' hpages hs])

/-- Frame `0x100000` stays unmarked, and no word behind its own is read. -/
theorem le_of_touched (hsize : memsize < 0x100000000)
    (hlarge : 0x20004 ≤ indexFromBit (memsize / 4))
    (hzero : (Machine.beforeFrames memsize m).bitmap 0x8000 = 0#32)
    (htouched : BitmapTouched (Machine.beforeFrames memsize m) i) : i ≤ 0x8000 := by
  rw [BitmapTouched, nframes_beforeFrames] at htouched
  obtain ⟨calls, s, hrun, htouched⟩ := htouched
  have hwords : indexFromBit (memsize / 4) * 0x20 ≤ 0xFFFFFFFF := by
    rw [indexFromBit]
    omega
  have hstart : marked (Machine.beforeFrames memsize m).frameState.frames 0x100000 = false := by
    have hword : (Machine.beforeFrames memsize m).frameState.frames (indexFromBit 0x100000) = 0#32 :=
      hzero
    rw [marked, hword, BitVec.getLsbD_zero]
  have halways : Runs.Always (FrameCall.perform (memsize / 4))
      (fun s => marked s.frames 0x100000 = false) calls
      (Machine.beforeFrames memsize m).frameState :=
    Runs.always_of_step (fun c s s' hs hperform => (marked_perform c hperform le_rfl).trans hs)
      hstart
  have hmarked : marked s.frames 0x100000 = false := halways.last hrun
  rcases htouched with hread | ⟨c, s', hs, hne⟩
  · obtain ⟨-, hle⟩ := (mem_firstFrameReads s.frames hwords).mp hread
    rcases firstFrame_spec (memsize / 4) s.frames with ⟨-, hall⟩ | ⟨-, -, hall⟩
    · have hmark := hall 0x100000 (by omega)
      rw [hmarked] at hmark
      exact absurd hmark Bool.false_ne_true
    · have hfirst : firstFrame (memsize / 4) s.frames ≤ 0x100000 := by
        refine Nat.le_of_not_lt fun hlt => ?_
        have hmark := hall 0x100000 hlt
        rw [hmarked] at hmark
        exact Bool.false_ne_true hmark
      exact hle.trans (Nat.div_le_div_right hfirst)
  · exact Nat.le_of_not_lt fun hlt => hne (frames_perform c hs (by omega))

/-- A word that is zero has four zero bytes. -/
theorem eq_zero_of_load32 {mem : Mem} {a x : Nat} (h : mem.load32 a = 0) (hle : a ≤ x)
    (hlt : x < a + 4) : mem x = 0 := by
  rw [Mem.load32] at h
  have hx : x = a ∨ x = a + 1 ∨ x = a + 2 ∨ x = a + 3 := by omega
  refine UInt8.toNat_inj.mp ?_
  rcases hx with rfl | rfl | rfl | rfl <;> simp only [UInt8.toNat_zero] <;> omega

/-- If the condition does not hold, some word up to that of frame `0x100000` is outside the block or
not zero. -/
theorem exists_bad (hsize : memsize < 0x100000000) (hpointer : m.placementPointer < 0x100000000)
    (hpos : indexFromBit (memsize / 4) ≠ 0)
    (hnot : ¬ (0x20004 ≤ indexFromBit (memsize / 4) ∧
      m.placementPointer + 0x20004 ≤ 0x100000000 ∧ PointerApart memsize m)) :
    ∃ i, i < indexFromBit (memsize / 4) ∧ i ≤ 0x8000 ∧
      ¬ (InBitmapBlock (Machine.beforeFrames memsize m) (indexFromBit (memsize / 4)) i ∧
        (Machine.beforeFrames memsize m).bitmap i = 0#32) := by
  by_cases hroom : 0x20004 ≤ indexFromBit (memsize / 4) ∧
      m.placementPointer + 0x20004 ≤ 0x100000000
  · -- a byte of the pointer to the first table is among the words
    obtain ⟨hlarge, hend⟩ := hroom
    obtain ⟨x, hx⟩ := not_forall.mp fun h => hnot ⟨hlarge, hend, h⟩
    obtain ⟨hle, hx⟩ := Classical.not_imp.mp hx
    obtain ⟨hlt, hne⟩ := Classical.not_imp.mp hx
    refine ⟨(x - m.placementPointer) / 4, by omega, by omega, fun hgood => hne ?_⟩
    rw [← mem_beforeFrames hsize hlarge hend hle hlt]
    have hword := congrArg BitVec.toNat hgood.2
    rw [Machine.bitmap, frames_beforeFrames, u32_eq (by omega), BitVec.toNat_ofNat,
      Nat.mod_eq_of_lt (Mem.load32_lt _ _), BitVec.toNat_ofNat, Nat.zero_mod] at hword
    exact eq_zero_of_load32 hword (by omega) (by omega)
  · -- the first word that is not in the block
    obtain ⟨words, hwords⟩ : ∃ words, words =
        min (indexFromBit (memsize / 4) / 4) ((0x100000000 - m.placementPointer) / 4) := ⟨_, rfl⟩
    have hlt : words < indexFromBit (memsize / 4) := by omega
    refine ⟨words, hlt, by omega, fun hgood => ?_⟩
    have hblock := (inBitmapBlock_iff hlt hsize).mp hgood.1
    omega

end

/-- **The words of the bitmap lie in its block exactly when there are none, or when the block is so
large** that the numbers of the frames wrap around before the last word it has room for, does not
itself wrap around before, and does not have the address of the first page table in these words. -/
theorem bitmap_inside_iff (memsize : Nat) (m : Machine) (hsize : memsize < 0x100000000)
    (hpointer : m.placementPointer < 0x100000000) :
    (∀ i, BitmapTouched (Machine.beforeFrames memsize m) i →
      InBitmapBlock (Machine.beforeFrames memsize m) (indexFromBit (memsize / 4)) i ∧
      (Machine.beforeFrames memsize m).bitmap i = 0#32) ↔
    indexFromBit (memsize / 4) = 0 ∨ 0x20004 ≤ indexFromBit (memsize / 4) ∧
      m.placementPointer + 0x20004 ≤ 0x100000000 ∧ PointerApart memsize m := by
  classical
  constructor
  · intro hinside
    by_contra hnot
    obtain ⟨hpos, hnot⟩ := not_or.mp hnot
    have hbad := exists_bad hsize hpointer hpos hnot
    obtain ⟨hlt, hlow, hword⟩ := Nat.find_spec hbad
    -- the words before the first bad one are zero, so that one is read
    have hzero : ∀ i < Nat.find hbad, (Machine.beforeFrames memsize m).bitmap i = 0#32 := by
      intro i hi
      have hgood := Nat.find_min hbad hi
      by_contra hne
      exact hgood ⟨by omega, by omega, fun h => hne h.2⟩
    exact hword (hinside _ (touched_next hsize hlt hzero hlow))
  · rintro (hempty | ⟨hlarge, hend, hapart⟩) i htouched
    · exact absurd htouched (not_touched_of_empty hempty)
    · have hzero : ∀ j ≤ 0x8000, (Machine.beforeFrames memsize m).bitmap j = 0#32 :=
        fun j hj => bitmap_beforeFrames hsize hlarge hend hapart hj
      have hle := le_of_touched hsize hlarge (hzero _ le_rfl) htouched
      exact ⟨(inBitmapBlock_iff (by omega) hsize).mpr (by omega), hzero i hle⟩

/-- A kernel that ends at `0x110000`, with memory full of ones. -/
def Machine.ones : Machine := ⟨fun _ => 0xFF, 0x110000, 0, 0, 0, 0⟩

theorem pointerApart_large : PointerApart 0x1080000 Machine.ones := by
  intro x _ hlt
  have hdirectory : (Machine.prepare 0x1080000 Machine.ones).kernelDirectory = 0x131000 := by
    rw [kernelDirectory_prepare]
    decide
  have hlt' : x < 0x110000 + 0x20004 := hlt
  rw [hdirectory, Mem.store32_of_outside _ _ (Or.inl (by omega))]

/-- With 16 GiB and 512 MiB the numbers wrap around, and the last word read is in the block, in
front of the directory at `0x131000`. -/
theorem bitmap_inside_iff_large :
    BitmapTouched (Machine.beforeFrames 0x1080000 Machine.ones) 0x8000 ∧
    InBitmapBlock (Machine.beforeFrames 0x1080000 Machine.ones) (indexFromBit (0x1080000 / 4))
      0x8000 ∧ (Machine.beforeFrames 0x1080000 Machine.ones).bitmap 0x8000 = 0#32 := by
  have htouched : BitmapTouched (Machine.beforeFrames 0x1080000 Machine.ones) 0x8000 :=
    touched_next (by decide) (by decide) (fun i hi => bitmap_beforeFrames (by decide) (by decide)
      (by decide) pointerApart_large (Nat.le_of_lt hi)) le_rfl
  exact ⟨htouched, (bitmap_inside_iff 0x1080000 Machine.ones (by decide) (by decide)).mpr
    (Or.inr ⟨by decide, by decide, pointerApart_large⟩) 0x8000 htouched⟩

/-- A kernel that has loaded a module of `0xF00` bytes. -/
def Machine.loaded : Machine := ⟨fun _ => 0xFF, 0x200F00, 0, 0, 0, 0⟩

/-- With 32 MiB the bitmap has 256 words in 256 bytes.  After 2048 frames the first word behind them
is read; the directory is there. -/
theorem not_bitmap_inside :
    BitmapTouched (Machine.beforeFrames 0x8000 Machine.loaded) 64 ∧
    ¬ InBitmapBlock (Machine.beforeFrames 0x8000 Machine.loaded)
      (indexFromBit (0x8000 / 4)) 64 := by
  have hdirectory : (Machine.prepare 0x8000 Machine.loaded).kernelDirectory = 0x201000 := by
    rw [kernelDirectory_prepare]
    decide
  refine ⟨touched_next (by decide) (by decide) (fun i hi => ?_) (by decide), fun hblock =>
    absurd ((inBitmapBlock_iff (by decide) (by decide)).mp hblock) (by decide)⟩
  exact bitmap_of_block (show 4 * i + 4 ≤ 0x100 by omega)
    (by rw [hdirectory]; show 0x200F00 + (4 * i + 4) ≤ 0x201000; omega)
    (by rw [hdirectory]; decide)

end MyaXOS
