import MyaXOS.Ext2.Read

/-!
# The copies of `read_initrd`

`read_initrd` computes where it stops, and from that the blocks to copy from, in 32-bit arithmetic
that nothing checks.

* `readCopies` are the copies it makes, and `readInitrd_eq_copies` says that they are.
* `ReadInside` is what a caller expects, for every offset, every size and every image.
* `read_inside_iff` says when it is met.

**Copies as data.**  `Ext2/Read.lean` is about the memory after a reading.  Where a reading goes
wrong this is of no use: a copy may write to anywhere, also to the image from which the next one is
made.  So the copies themselves are listed here, each with the block it reads from, its place in the
block, its place in the buffer and its length, in the order in which they are made.  Performing the
list is what the function does, for any image and any numbers, and all that is promised about bytes
is promised about the list.

**The cases** come from where the range stops.  The code takes `offset + size`, or the size of the
file if this is less, and both the sum and the comparison can go wrong:

* If the range starts in the file and does not wrap around, the copies are those of an ordinary
  reading, and they are right if the block of the last byte is one that an inode can name.
* If the sum wraps around, the stop is before the start.  Then there is one copy, from the start of
  a block before that of the offset (`blockCopies_back`), and it is made to a place in front of the
  buffer, except in the few cases in which there is nothing to copy.
* If the range starts behind the end of the file, the stop is the size of the file, again before the
  start, and the number of bytes that is returned is a difference that wraps around.

Each case is an equivalence of its own, on the numbers alone (`readInside_iff_of_le`, `_of_wrap`,
`not_readInside`), and `read_inside_iff` puts them together.

**Division.**  The block of the last byte and the piece of it that is left are the quotient and the
remainder of the stop, and whether the remainder is 0 decides if there is a last copy at all.  The
two lemmas on the quotient of the predecessor, one for each case, are what connects the loop with
the byte before the stop.
-/

set_option autoImplicit false

namespace MyaXOS

/-- A `memcpy` of `read_initrd`: from byte `start` of a block of the file to `dest`. -/
structure BlockCopy where
  block : Nat
  start : Nat
  dest : Nat
  count : Nat
  deriving DecidableEq, Repr

/-- Perform a copy. -/
def BlockCopy.perform (g : Initrd) (inode : Nat) (m : Mem) (c : BlockCopy) : Mem :=
  memcpy m c.dest (u32 (g.ext2GetInodeBlock m inode c.block + c.start)) c.count

/-- The copy of the loop after so many blocks. -/
def loopCopy (blockSize offset buffer blocksRead : Nat) : BlockCopy :=
  if blocksRead = 0 then ⟨offset / blockSize, offset % blockSize, buffer,
    blockSize - offset % blockSize⟩
  else ⟨offset / blockSize + blocksRead, 0,
    u32 (buffer + blockSize * blocksRead + 0x100000000 - offset % blockSize), blockSize⟩

/-- The copies for the bytes from `offset` to `stop`. -/
def blockCopies (blockSize offset stop buffer : Nat) : List BlockCopy :=
  if offset / blockSize = stop / blockSize then
    [⟨offset / blockSize, offset % blockSize, buffer, u32 (stop + 0x100000000 - offset)⟩]
  else
    (List.range (stop / blockSize - offset / blockSize)).map (loopCopy blockSize offset buffer) ++
      [⟨stop / blockSize, 0, u32 (buffer + blockSize * (stop / blockSize - offset / blockSize) +
        0x100000000 - offset % blockSize), stop % blockSize⟩]

/-- Where a reading of an inode stops. -/
def readStop (m : Mem) (inode offset size : Nat) : Nat :=
  if u32 (offset + size) > Initrd.size m inode then Initrd.size m inode else u32 (offset + size)

/-- The copies of `read_initrd(node, offset, size, buffer)`. -/
def readCopies (g : Initrd) (m : Mem) (node offset size buffer : Nat) : List BlockCopy :=
  blockCopies (g.blockSize m) offset (readStop m (g.ext2GetInode m node) offset size) buffer

section
variable {g : Initrd} {m : Mem} {node inode offset size buffer bs : Nat}

theorem perform_mk (block start dest count : Nat) :
    BlockCopy.perform g inode m ⟨block, start, dest, count⟩ =
      memcpy m dest (u32 (g.ext2GetInodeBlock m inode block + start)) count := rfl

/-- A copy from the start of a block. -/
theorem perform_start (block dest count : Nat) :
    BlockCopy.perform g inode m ⟨block, 0, dest, count⟩ =
      memcpy m dest (g.ext2GetInodeBlock m inode block) count := by
  rw [perform_mk, Nat.add_zero, u32_eq (ext2GetInodeBlock_lt ..)]

theorem readLoop_eq_copies (blocksRead : Nat) :
    readLoop g inode offset buffer (offset / bs) bs blocksRead m =
      ((List.range blocksRead).map (loopCopy bs offset buffer)).foldl (BlockCopy.perform g inode)
        m := by
  induction blocksRead with
  | zero => rfl
  | succ r ih =>
    rw [readLoop, ih, List.range_succ, List.map_append, List.foldl_append]
    generalize ((List.range r).map (loopCopy bs offset buffer)).foldl
      (BlockCopy.perform g inode) m = m'
    simp only [List.map_singleton, List.foldl_cons, List.foldl_nil]
    by_cases hr : r = 0
    · subst hr
      rw [if_pos (Nat.add_zero _), loopCopy, if_pos rfl]
      rfl
    · rw [if_neg (by omega), loopCopy, if_neg hr, perform_start]

/-- **`read_initrd` makes these copies**, one after the other, and does nothing else to the memory.
So whether it stays inside is a question about a list. -/
theorem readInitrd_eq_copies (g : Initrd) (m : Mem) (node offset size buffer : Nat) :
    readInitrd g m node offset size buffer =
      (u32 (readStop m (g.ext2GetInode m node) offset size + 0x100000000 - offset),
        (readCopies g m node offset size buffer).foldl
          (BlockCopy.perform g (g.ext2GetInode m node)) m) := by
  have hstop : (if u32 (offset + size) > Initrd.size m (g.ext2GetInode m node) then
      Initrd.size m (g.ext2GetInode m node) else u32 (offset + size)) =
        readStop m (g.ext2GetInode m node) offset size := by
    rw [readStop]
  rw [readCopies, blockCopies]
  simp only [readInitrd, hstop]
  generalize readStop m (g.ext2GetInode m node) offset size = stop
  by_cases hsame : offset / g.blockSize m = stop / g.blockSize m
  · rw [if_pos hsame, if_pos hsame, List.foldl_cons, List.foldl_nil, perform_mk]
  · rw [if_neg hsame, if_neg hsame, List.foldl_append, ← readLoop_eq_copies, List.foldl_cons,
      List.foldl_nil, perform_start]

end

/-! ## What a caller expects

What is expected of a reading is said of the copies it makes, and of the number it returns.  A copy
of no bytes reads and writes nothing, so it may name any block. -/

/-- The bytes that a copy writes lie in `buffer[0..size)`. -/
def BlockCopy.WritesInside (c : BlockCopy) (buffer size : Nat) : Prop :=
  ∀ i < c.count, ∃ k < size, u32 (c.dest + i) = u32 (buffer + k)

/-- What a copy reads, if anything, lies in a block that an inode can name. -/
def BlockCopy.ReadsMapped (c : BlockCopy) (blockSize : Nat) : Prop :=
  0 < c.count → c.block < 12 + blockSize / 4 ∧ c.start + c.count ≤ blockSize

/-- `read_initrd` returns at most `size`, writes inside the buffer, reads from blocks of the file,
and neither reads nor writes from the end of the file on.  With blocks of 0 bytes it does not
return: it divides by their size. -/
structure ReadInside (g : Initrd) (m : Mem) (node offset size buffer : Nat) : Prop where
  divides : g.blockSize m ≠ 0
  returned : (readInitrd g m node offset size buffer).1 ≤ size
  writes : ∀ c ∈ readCopies g m node offset size buffer, c.WritesInside buffer size
  blocks : ∀ c ∈ readCopies g m node offset size buffer, c.ReadsMapped (g.blockSize m)
  past : Initrd.size m (g.ext2GetInode m node) ≤ offset →
    (readInitrd g m node offset size buffer).1 = 0 ∧
      ∀ c ∈ readCopies g m node offset size buffer, c.count = 0

/-! ## A range that does not wrap around

The copies cover the range from its start to its end, each in its own block.  Each writes at the
place in the buffer that its part of the range has, and so inside, and the highest block that is
read is that of the last byte; whether an inode can name it is the condition. -/

section
variable {bs offset stop buffer r : Nat}

/-- The blocks between the first and the last of a range. -/
theorem block_bounds (hle : offset ≤ stop) (hne : offset / bs ≠ stop / bs) :
    bs * (offset / bs) + bs * (stop / bs - offset / bs) = bs * (stop / bs) ∧
      bs ≤ bs * (stop / bs - offset / bs) := by
  have hlt : offset / bs < stop / bs := Nat.lt_of_le_of_ne (Nat.div_le_div_right hle) hne
  refine ⟨?_, Nat.le_mul_of_pos_right bs (Nat.sub_pos_of_lt hlt)⟩
  rw [← Nat.mul_add, Nat.add_sub_of_le hlt.le]

theorem loopCopy_block (bs offset buffer r : Nat) :
    (loopCopy bs offset buffer r).block = offset / bs + r := by
  rw [loopCopy]
  split_ifs with hr
  · rw [hr, Nat.add_zero]
  · rfl

/-- **A copy of the loop** writes the part of the range that is in its block. -/
theorem loopCopy_inside (buffer : Nat) (hpos : 0 < bs)
    (hlt : bs * (offset / bs) + bs * (r + 1) ≤ stop) :
    (loopCopy bs offset buffer r).WritesInside buffer (stop - offset) ∧
      (loopCopy bs offset buffer r).start + (loopCopy bs offset buffer r).count ≤ bs := by
  have ho := Nat.mod_lt offset hpos
  have hoffset := Nat.div_add_mod offset bs
  rw [Nat.mul_add, Nat.mul_one] at hlt
  rw [loopCopy]
  split_ifs with hr
  · subst hr
    refine ⟨fun i hi => ⟨i, ?_, rfl⟩, ?_⟩
    · simp only at hi
      omega
    · simp only
      omega
  · have hle : bs ≤ bs * r := Nat.le_mul_of_pos_right bs (Nat.pos_of_ne_zero hr)
    refine ⟨fun i hi => ⟨bs * r - offset % bs + i, ?_, ?_⟩, by simp only; omega⟩
    · simp only at hi
      omega
    · simp only [u32]
      omega

/-- The block of the last byte before `stop`. -/
theorem pred_div_of_mod_pos (hpos : 0 < stop % bs) : (stop - 1) / bs = stop / bs := by
  have hstop := Nat.div_add_mod stop bs
  rcases Nat.eq_zero_or_pos bs with rfl | hbs
  · rw [Nat.div_zero, Nat.div_zero]
  · have hlt := Nat.mod_lt stop hbs
    exact (div_mod_of_eq (j := stop % bs - 1) (by omega) (by omega)).1

theorem pred_div_of_mod_zero (hbs : 0 < bs) (hzero : stop % bs = 0) (hstop : stop / bs ≠ 0) :
    (stop - 1) / bs = stop / bs - 1 := by
  obtain ⟨e, he⟩ := Nat.exists_eq_succ_of_ne_zero hstop
  have heq := Nat.div_add_mod stop bs
  rw [hzero, he, Nat.mul_succ] at heq
  rw [he, Nat.succ_sub_one]
  exact (div_mod_of_eq (j := bs - 1) (by omega) (by omega)).1

/-- **The copies of a range within a block**: there is one, from where the range begins. -/
theorem blockCopies_same (hpos : 0 < bs) (hle : offset ≤ stop) (hstop : stop < 0x100000000)
    (hsame : offset / bs = stop / bs) :
    (∀ c ∈ blockCopies bs offset stop buffer, c.WritesInside buffer (stop - offset) ∧
      c.start + c.count ≤ bs ∧ (0 < c.count → c.block ≤ (stop - 1) / bs)) ∧
    (offset < stop → ∃ c ∈ blockCopies bs offset stop buffer,
      0 < c.count ∧ c.block = (stop - 1) / bs) := by
  have hc := Nat.mod_lt stop hpos
  have hoffset := Nat.div_add_mod offset bs
  have hstop_eq := Nat.div_add_mod stop bs
  have hread : u32 (stop + 0x100000000 - offset) = stop - offset := by
    rw [u32]
    omega
  have hlast : offset < stop → offset / bs = (stop - 1) / bs := by
    intro hlt
    refine Nat.le_antisymm (Nat.div_le_div_right (by omega)) ?_
    rw [hsame]
    exact Nat.div_le_div_right (Nat.sub_le _ _)
  rw [← hsame] at hstop_eq
  rw [blockCopies, if_pos hsame, List.forall_mem_singleton, hread]
  refine ⟨⟨fun i hi => ⟨i, hi, rfl⟩, ?_, fun hcount => ?_⟩, fun hlt => ?_⟩
  · simp only
    omega
  · exact (hlast (Nat.lt_of_sub_pos hcount)).le
  · exact ⟨_, List.mem_singleton_self _, Nat.sub_pos_of_lt hlt, hlast hlt⟩

/-- The copies of a range over several blocks lie inside. -/
theorem blockCopies_diff (hpos : 0 < bs) (hle : offset ≤ stop) (hstop : stop < 0x100000000)
    (hne : offset / bs ≠ stop / bs) :
    ∀ c ∈ blockCopies bs offset stop buffer, c.WritesInside buffer (stop - offset) ∧
      c.start + c.count ≤ bs ∧ (0 < c.count → c.block ≤ (stop - 1) / bs) := by
  have ho := Nat.mod_lt offset hpos
  have hc := Nat.mod_lt stop hpos
  have hoffset := Nat.div_add_mod offset bs
  have hstop_eq := Nat.div_add_mod stop bs
  have hlt : offset / bs < stop / bs := Nat.lt_of_le_of_ne (Nat.div_le_div_right hle) hne
  obtain ⟨hadd, hblocks⟩ := block_bounds hle hne
  have hpred : stop / bs - 1 ≤ (stop - 1) / bs := by
    rcases Nat.eq_zero_or_pos (stop % bs) with hzero | hmod
    · exact (pred_div_of_mod_zero hpos hzero (Nat.zero_lt_of_lt hlt).ne').ge
    · rw [pred_div_of_mod_pos hmod]
      exact Nat.sub_le _ _
  rw [blockCopies, if_neg hne]
  refine List.forall_mem_append.mpr ⟨fun c hmem => ?_, ?_⟩
  · obtain ⟨r, hr, rfl⟩ := List.mem_map.mp hmem
    have hr := List.mem_range.mp hr
    have hmul : bs * (r + 1) ≤ bs * (stop / bs - offset / bs) := Nat.mul_le_mul_left bs hr
    have hbelow : bs * (offset / bs) + bs * (r + 1) ≤ stop := by omega
    obtain ⟨hwrites, hreads⟩ := loopCopy_inside buffer hpos hbelow
    have hlast : offset / bs + r ≤ stop / bs - 1 := by
      generalize offset / bs = q at hr ⊢
      generalize stop / bs = e at hr ⊢
      omega
    refine ⟨hwrites, hreads, fun _ => ?_⟩
    rw [loopCopy_block]
    exact hlast.trans hpred
  · rw [List.forall_mem_singleton]
    refine ⟨fun i hi => ⟨bs * (stop / bs - offset / bs) - offset % bs + i, ?_, ?_⟩, ?_,
      fun hcount => (pred_div_of_mod_pos hcount).ge⟩
    · simp only at hi
      omega
    · simp only [u32]
      omega
    · simp only
      omega

/-- One of them comes to the last byte: that behind the loop if there is something left for it, and
else the last one of the loop. -/
theorem exists_last_of_diff (hpos : 0 < bs) (hle : offset ≤ stop)
    (hne : offset / bs ≠ stop / bs) :
    ∃ c ∈ blockCopies bs offset stop buffer, 0 < c.count ∧ c.block = (stop - 1) / bs := by
  have hlt : offset / bs < stop / bs := Nat.lt_of_le_of_ne (Nat.div_le_div_right hle) hne
  rw [blockCopies, if_neg hne]
  rcases Nat.eq_zero_or_pos (stop % bs) with hzero | hmod
  · have hr : stop / bs - offset / bs - 1 < stop / bs - offset / bs :=
      Nat.sub_one_lt (Nat.sub_pos_of_lt hlt).ne'
    refine ⟨_, List.mem_append_left _ (List.mem_map.mpr ⟨stop / bs - offset / bs - 1,
      List.mem_range.mpr hr, rfl⟩), ?_, ?_⟩
    · rw [loopCopy]
      split_ifs
      · exact Nat.sub_pos_of_lt (Nat.mod_lt offset hpos)
      · exact hpos
    · rw [loopCopy_block, pred_div_of_mod_zero hpos hzero (Nat.zero_lt_of_lt hlt).ne',
        ← Nat.add_sub_assoc (Nat.sub_pos_of_lt hlt), Nat.add_sub_of_le hlt.le]
  · exact ⟨_, List.mem_append_right _ (List.mem_singleton_self _), hmod,
      (pred_div_of_mod_pos hmod).symm⟩

/-- **The copies of a range** write to the first bytes of the buffer and read from the blocks up to
that of the last byte, from which there is one. -/
theorem blockCopies_inside (buffer : Nat) (hpos : 0 < bs) (hle : offset ≤ stop)
    (hstop : stop < 0x100000000) :
    (∀ c ∈ blockCopies bs offset stop buffer, c.WritesInside buffer (stop - offset) ∧
      c.start + c.count ≤ bs ∧ (0 < c.count → c.block ≤ (stop - 1) / bs)) ∧
    (offset < stop → ∃ c ∈ blockCopies bs offset stop buffer,
      0 < c.count ∧ c.block = (stop - 1) / bs) := by
  by_cases hsame : offset / bs = stop / bs
  · exact blockCopies_same hpos hle hstop hsame
  · exact ⟨blockCopies_diff hpos hle hstop hsame, fun _ => exists_last_of_diff hpos hle hsame⟩

/-! ## A range that wraps around

If the sum of offset and size wraps around then the range stops before it starts.  The loop is not
entered, and the code makes the copy for the last block, with a target in front of the buffer.  That
nothing is written then is the case of an offset at a block boundary or of an empty rest. -/

/-- When the range stops in a block before that of its start, there is one copy, from the start of
that block. -/
theorem blockCopies_back {dest : Nat} (hlt : stop / bs < offset / bs)
    (hdest : u32 (buffer + bs * (stop / bs - offset / bs) + 0x100000000 - offset % bs) = dest) :
    blockCopies bs offset stop buffer = [⟨stop / bs, 0, dest, stop % bs⟩] := by
  rw [blockCopies, if_neg hlt.ne', hdest, Nat.sub_eq_zero_of_le hlt.le, List.range_zero,
    List.map_nil, List.nil_append]

/-- Then it writes in front of the buffer, unless there is nothing to write, or the range starts
with a block. -/
theorem writesInside_back {size dest : Nat} (hpos : 0 < bs) (hoffset : offset < 0x100000000)
    (hstop : stop + 0x100000000 = offset + size) (hlt : stop / bs < offset / bs)
    (hdest : u32 (buffer + bs * (stop / bs - offset / bs) + 0x100000000 - offset % bs) = dest) :
    BlockCopy.WritesInside ⟨stop / bs, 0, dest, stop % bs⟩ buffer size ↔
      stop % bs = 0 ∨ offset % bs = 0 := by
  have ho := Nat.mod_lt offset hpos
  have hoffset_eq := Nat.div_add_mod offset bs
  have hstop_eq := Nat.div_add_mod stop bs
  have hmod := Nat.mod_lt stop hpos
  have hmul : bs * (stop / bs) + bs ≤ bs * (offset / bs) := by
    rw [← Nat.mul_succ]
    exact Nat.mul_le_mul_left bs hlt
  rw [Nat.sub_eq_zero_of_le hlt.le, Nat.mul_zero, u32] at hdest
  rw [BlockCopy.WritesInside]
  dsimp only
  constructor
  · intro hinside
    by_contra hnot
    obtain ⟨hcount, hstart⟩ := not_or.mp hnot
    obtain ⟨k, hk, heq⟩ := hinside 0 (Nat.pos_of_ne_zero hcount)
    rw [u32, u32] at heq
    omega
  · rintro (hzero | hzero) i hi
    · exact absurd (hzero ▸ hi) (Nat.not_lt_zero i)
    · refine ⟨i, by omega, ?_⟩
      rw [hzero] at hdest
      rw [u32, u32]
      omega

end

/-- The size of a block fits a power of two below the size of the address space. -/
theorem blockSize_le (g : Initrd) (m : Mem) : g.blockSize m ≤ 0x80000000 := by
  rw [Initrd.blockSize]
  rcases Nat.lt_or_ge (g.logBlockSize m) 22 with hlt | hge
  · have hpow : 2 ^ g.logBlockSize m ≤ 2 ^ 21 := Nat.pow_le_pow_right (by decide) (by omega)
    rw [u32]
    omega
  · obtain ⟨k, hk⟩ := Nat.exists_eq_add_of_le hge
    rw [hk, Nat.pow_add, ← Nat.mul_assoc, u32, show 1024 * 2 ^ 22 = 0x100000000 by decide,
      Nat.mul_mod_right]
    exact Nat.zero_le _

/-- **When a reading comes out right.**  The range starts in the file or at its end; and if it does
not wrap around, the block of its last byte is one that an inode can name; or it does, and then
nothing is copied, or the start of a block before the offset, which is itself the start of a block.
-/
def ReadFits (blockSize isize offset size : Nat) : Prop :=
  (offset ≤ isize ∧ offset + size < 0x100000000 ∧
    (min (offset + size) isize = offset ∨
      (min (offset + size) isize - 1) / blockSize < 12 + blockSize / 4)) ∨
  (offset < isize ∧ 0x100000000 ≤ offset + size ∧
    (offset + size - 0x100000000) / blockSize < offset / blockSize ∧
    ((offset + size - 0x100000000) % blockSize = 0 ∨
      offset % blockSize = 0 ∧
        (offset + size - 0x100000000) / blockSize < 12 + blockSize / 4))

instance (blockSize isize offset size : Nat) : Decidable (ReadFits blockSize isize offset size) :=
  inferInstanceAs (Decidable (_ ∨ _))

section
variable {g : Initrd} {m : Mem} {node offset size buffer stop : Nat}

/-- What a reading is that stops at `stop`. -/
theorem readInside_iff_stop (hpos : 0 < g.blockSize m)
    (hstop : readStop m (g.ext2GetInode m node) offset size = stop) :
    ReadInside g m node offset size buffer ↔ u32 (stop + 0x100000000 - offset) ≤ size ∧
      (∀ c ∈ blockCopies (g.blockSize m) offset stop buffer, c.WritesInside buffer size) ∧
      (∀ c ∈ blockCopies (g.blockSize m) offset stop buffer, c.ReadsMapped (g.blockSize m)) ∧
      (Initrd.size m (g.ext2GetInode m node) ≤ offset →
        u32 (stop + 0x100000000 - offset) = 0 ∧
          ∀ c ∈ blockCopies (g.blockSize m) offset stop buffer, c.count = 0) := by
  have hreturned : (readInitrd g m node offset size buffer).1 =
      u32 (stop + 0x100000000 - offset) := by
    rw [readInitrd_eq_copies, hstop]
  have hcopies : readCopies g m node offset size buffer =
      blockCopies (g.blockSize m) offset stop buffer := by
    rw [readCopies, hstop]
  constructor
  · rintro ⟨-, hle, hwrites, hblocks, hpast⟩
    rw [hreturned] at hle hpast
    rw [hcopies] at hwrites hblocks hpast
    exact ⟨hle, hwrites, hblocks, hpast⟩
  · rintro ⟨hle, hwrites, hblocks, hpast⟩
    rw [← hreturned] at hle hpast
    rw [← hcopies] at hwrites hblocks hpast
    exact ⟨hpos.ne', hle, hwrites, hblocks, hpast⟩

/-- **A range that starts in the file and does not wrap around** is read as expected exactly if an
inode can name the block of its last byte. -/
theorem readInside_iff_of_le (hpos : 0 < g.blockSize m)
    (hle : offset ≤ Initrd.size m (g.ext2GetInode m node))
    (hsum : offset + size < 0x100000000)
    (hstop : min (offset + size) (Initrd.size m (g.ext2GetInode m node)) = stop) :
    ReadInside g m node offset size buffer ↔
      stop = offset ∨ (stop - 1) / g.blockSize m < 12 + g.blockSize m / 4 := by
  have hreadStop : readStop m (g.ext2GetInode m node) offset size = stop := by
    rw [readStop, u32_eq hsum, ← hstop]
    split_ifs <;> omega
  have hoffset : offset ≤ stop := by omega
  have hlen : stop - offset ≤ size := by omega
  have hpast : Initrd.size m (g.ext2GetInode m node) ≤ offset → stop = offset := by omega
  have hread : u32 (stop + 0x100000000 - offset) = stop - offset := by
    rw [u32]
    omega
  obtain ⟨hcopies, hlast⟩ := blockCopies_inside buffer hpos hoffset (by omega)
  have hnone : stop = offset →
      ∀ c ∈ blockCopies (g.blockSize m) offset stop buffer, c.count = 0 := by
    intro heq c hc
    by_contra hne
    obtain ⟨k, hk, -⟩ := (hcopies c hc).1 0 (Nat.pos_of_ne_zero hne)
    exact absurd (hk.trans_eq (Nat.sub_eq_zero_of_le heq.le)) (Nat.not_lt_zero k)
  rw [readInside_iff_stop hpos hreadStop, hread]
  constructor
  · rintro ⟨-, -, hblocks, -⟩
    rcases Nat.eq_or_lt_of_le hoffset with heq | hlt
    · exact Or.inl heq.symm
    · obtain ⟨c, hc, hcount, hblock⟩ := hlast hlt
      rw [← hblock]
      exact Or.inr (hblocks c hc hcount).1
  · intro hfits
    refine ⟨hlen, fun c hc i hi => ?_, fun c hc hcount => ?_, fun hend => ?_⟩
    · obtain ⟨k, hk, heq⟩ := (hcopies c hc).1 i hi
      exact ⟨k, hk.trans_le hlen, heq⟩
    · rcases hfits with heq | hlt
      · exact absurd (hnone heq c hc) hcount.ne'
      · exact ⟨((hcopies c hc).2.2 hcount).trans_lt hlt, (hcopies c hc).2.1⟩
    · exact ⟨Nat.sub_eq_zero_of_le (hpast hend).le, hnone (hpast hend)⟩

/-- **A range that starts in the file and wraps around** is read as expected only if there is
nothing to write, or if it starts with a block. -/
theorem readInside_iff_of_wrap (hpos : 0 < g.blockSize m) (hoffset : offset < 0x100000000)
    (hlt : offset < Initrd.size m (g.ext2GetInode m node)) (hsize : size < 0x100000000)
    (hsum : stop + 0x100000000 = offset + size) :
    ReadInside g m node offset size buffer ↔
      stop / g.blockSize m < offset / g.blockSize m ∧ (stop % g.blockSize m = 0 ∨
        offset % g.blockSize m = 0 ∧ stop / g.blockSize m < 12 + g.blockSize m / 4) := by
  have hstop : readStop m (g.ext2GetInode m node) offset size = stop := by
    have hwrap : u32 (offset + size) = stop := by
      rw [u32]
      omega
    rw [readStop, hwrap, if_neg (by omega)]
  have hread : u32 (stop + 0x100000000 - offset) = size := by
    rw [u32]
    omega
  have hpast : ¬ Initrd.size m (g.ext2GetInode m node) ≤ offset := Nat.not_le.mpr hlt
  have hback : stop < offset := by omega
  have hbs := blockSize_le g m
  rw [readInside_iff_stop hpos hstop, hread]
  generalize g.blockSize m = bs at *
  rcases Nat.lt_or_ge (stop / bs) (offset / bs) with hblock | hblock
  · have hmod := Nat.mod_lt stop hpos
    obtain ⟨dest, hdest⟩ : ∃ dest, u32 (buffer + bs * (stop / bs - offset / bs) + 0x100000000 -
      offset % bs) = dest := ⟨_, rfl⟩
    rw [blockCopies_back hblock hdest]
    simp only [List.forall_mem_singleton, writesInside_back hpos hoffset hsum hblock hdest,
      BlockCopy.ReadsMapped, le_refl, hpast, hblock, true_and, false_implies, and_true,
      Nat.zero_add, hmod.le]
    constructor
    · rintro ⟨hzero | hstart, hmapped⟩
      · exact Or.inl hzero
      · rcases Nat.eq_zero_or_pos (stop % bs) with hzero | hcount
        · exact Or.inl hzero
        · exact Or.inr ⟨hstart, hmapped hcount⟩
    · rintro (hzero | ⟨hstart, hmapped⟩)
      · exact ⟨Or.inl hzero, fun hcount => absurd hzero hcount.ne'⟩
      · exact ⟨Or.inr hstart, fun _ => hmapped⟩
  · -- it starts and stops in one block, and what lies between is longer than the block
    have hsame : offset / bs = stop / bs := Nat.le_antisymm hblock (Nat.div_le_div_right hback.le)
    have hmod := Nat.mod_lt offset hpos
    have hoffset_eq := Nat.div_add_mod offset bs
    have hstop_eq := Nat.div_add_mod stop bs
    rw [← hsame] at hstop_eq
    have hlong : bs < size := by omega
    refine iff_of_false (fun hinside => ?_) fun hfits => absurd hfits.1 (Nat.not_lt.mpr hblock)
    rw [blockCopies, if_pos hsame, hread] at hinside
    have hmapped := hinside.2.2.1 _ (List.mem_singleton_self _)
    have hle := (hmapped ((Nat.zero_le bs).trans_lt hlong)).2
    exact absurd ((Nat.le_add_left ..).trans hle) (Nat.not_le.mpr hlong)

/-- **A range that starts behind the end**, or at the end and wraps around: the size of what is to
be read comes out negative, and a copy of it leaves the file. -/
theorem not_readInside (hpos : 0 < g.blockSize m) (hoffset : offset < 0x100000000)
    (hsize : size < 0x100000000) (hend : Initrd.size m (g.ext2GetInode m node) ≤ offset)
    (hbehind : Initrd.size m (g.ext2GetInode m node) < offset ∨
      0x100000000 ≤ offset + size) : ¬ ReadInside g m node offset size buffer := by
  intro hinside
  have hstop : readStop m (g.ext2GetInode m node) offset size < offset := by
    rw [readStop]
    split_ifs with hlt
    · rcases hbehind with hlt' | hwrap
      · exact hlt'
      · rw [u32] at hlt
        omega
    · rcases hbehind with hlt' | hwrap
      · exact (Nat.le_of_not_lt hlt).trans_lt hlt'
      · rw [u32]
        omega
  generalize hback : readStop m (g.ext2GetInode m node) offset size = stop at hstop
  have hread := ((readInside_iff_stop hpos hback).mp hinside).2.2.2 hend
  rw [u32] at hread
  omega

end

/-- **`read_initrd` does what a caller expects exactly when** the block size is not 0 and the range
is one of those in `ReadFits`. -/
theorem read_inside_iff (g : Initrd) (m : Mem) (node offset size buffer : Nat)
    (hoffset : offset < 0x100000000) (hsize : size < 0x100000000) :
    ReadInside g m node offset size buffer ↔ g.blockSize m ≠ 0 ∧
      ReadFits (g.blockSize m) (Initrd.size m (g.ext2GetInode m node)) offset size := by
  by_cases hzero : g.blockSize m = 0
  · exact iff_of_false (fun hinside => hinside.divides hzero) fun hfits => hfits.1 hzero
  have hpos := Nat.pos_of_ne_zero hzero
  rw [and_iff_right hzero, ReadFits]
  rcases Nat.lt_or_ge (offset + size) 0x100000000 with hsum | hsum
  · by_cases hle : offset ≤ Initrd.size m (g.ext2GetInode m node)
    · rw [readInside_iff_of_le hpos hle hsum rfl]
      simp only [hle, hsum, Nat.not_le.mpr hsum, true_and, false_and, and_false, or_false]
    · refine iff_of_false (not_readInside hpos hoffset hsize (Nat.le_of_not_le hle)
        (Or.inl (Nat.lt_of_not_le hle))) ?_
      rintro (⟨hle', -⟩ | ⟨hlt, -⟩)
      · exact hle hle'
      · exact hle hlt.le
  · by_cases hlt : offset < Initrd.size m (g.ext2GetInode m node)
    · rw [readInside_iff_of_wrap hpos hoffset hlt hsize (Nat.sub_add_cancel hsum)]
      simp only [hlt, hsum, Nat.not_lt.mpr hsum, true_and, false_and, and_false, false_or]
    · refine iff_of_false (not_readInside hpos hoffset hsize (Nat.le_of_not_lt hlt)
        (Or.inr hsum)) ?_
      rintro (⟨-, hsum', -⟩ | ⟨hlt', -⟩)
      · exact absurd hsum' (Nat.not_lt.mpr hsum)
      · exact hlt hlt'

theorem read_inside_abc :
    ReadInside ⟨0x200000, 0x200400, 0x201400⟩ abcImage 2 1 10 0x100000 :=
  (read_inside_iff ⟨0x200000, 0x200400, 0x201400⟩ abcImage 2 1 10 0x100000 (by decide)
    (by decide)).mpr ⟨by decide, by decide⟩

/-- The file has three bytes, and a reading of one byte from the fifth on returns `2 ^ 32 - 1`. -/
theorem not_read_inside :
    Initrd.size abcImage (Initrd.ext2GetInode ⟨0x200000, 0x200400, 0x201400⟩ abcImage 2) = 3 ∧
    (readInitrd ⟨0x200000, 0x200400, 0x201400⟩ abcImage 2 4 1 0x100000).1 = 0xFFFFFFFF := by
  refine ⟨by decide, ?_⟩
  rw [readInitrd_eq_copies]
  decide

end MyaXOS
