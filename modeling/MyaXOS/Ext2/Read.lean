import MyaXOS.Ext2.Image

/-!
# Reading a file

`read_initrd` copies a range of a file into a buffer, one block at a time: what is left of the first
block, then whole blocks, then the beginning of the last one.  If the range does not leave its first
block there is a single copy.

* `Wrote m m' buffer f k` says that `m'` is `m` with `k` bytes of the function `f` in the buffer.
  Every copy of `read_initrd` appends to what has been written (`Wrote.memcpy`).
* `readLoop_wrote` is the invariant of the loop: after `r` blocks, the buffer has `r` blocks less
  the part of the first one that the range skips.
* `readInitrd_spec` is the result.

**What is written is a function.**  The range is described by `fileByte`, which gives its byte `i`,
and `Wrote` compares memory with this function and with nothing else.  A copy of a piece of a block
is then right if the bytes of the piece are those that come next: `Wrote.block` has the whole
arithmetic of a copy, once, for any piece of any data block.  The first copy, those of the loop and
the last one are instances of it; the proofs that use it only have to say which piece is copied, and
that the cursor of the buffer is where the last piece has ended.

**The cursor.**  The loop does not count the bytes.  It knows the block it is at, and the place in
the buffer is computed from that: a whole block for each round, less the offset into the first block
if this is not 0.  `dest_eq` is this equation.  It is the reason why the code has separate cases for
a range that starts with a block and for one that does not, and why the invariant has both.

**The file may be shorter** than what is asked for.  The code then stops at the size of the inode
(`stop_eq`), and the number that it returns is how much is left.  The theorem is about ranges that
start inside the file or at its end; what happens beyond is in `Ext2/Copies.lean`.
-/

set_option autoImplicit false

namespace MyaXOS

/-- The loop of `read_initrd` over the blocks before the last one, after so many rounds. -/
def readLoop (g : Initrd) (inode offset buffer startBlock blockSize : Nat) : Nat → Mem → Mem
  | 0, m => m
  | blocksRead + 1, m =>
    let m := readLoop g inode offset buffer startBlock blockSize blocksRead m
    let blockOffset := startBlock + blocksRead
    if blockOffset = startBlock then
      memcpy m buffer (u32 (g.ext2GetInodeBlock m inode blockOffset + offset % blockSize))
        (blockSize - offset % blockSize)
    else
      memcpy m (u32 (buffer + blockSize * blocksRead + 0x100000000 - offset % blockSize))
        (g.ext2GetInodeBlock m inode blockOffset) blockSize

/-- `read_initrd(node, offset, size, buffer)`, with `node->inode` for `node`: the number of bytes
read, and the memory after. -/
def readInitrd (g : Initrd) (m : Mem) (node offset size buffer : Nat) : Nat × Mem :=
  let inode := g.ext2GetInode m node
  let stop := if u32 (offset + size) > Initrd.size m inode then Initrd.size m inode
    else u32 (offset + size)
  let blockSize := g.blockSize m
  let startBlock := offset / blockSize
  let endBlock := stop / blockSize
  let endSize := stop % blockSize
  let sizeToRead := u32 (stop + 0x100000000 - offset)
  if startBlock = endBlock then
    (sizeToRead, memcpy m buffer
      (u32 (g.ext2GetInodeBlock m inode startBlock + offset % blockSize)) sizeToRead)
  else
    let blocksRead := endBlock - startBlock
    let m := readLoop g inode offset buffer startBlock blockSize blocksRead m
    (sizeToRead, memcpy m (u32 (buffer + blockSize * blocksRead + 0x100000000 - offset % blockSize))
      (g.ext2GetInodeBlock m inode endBlock) endSize)

/-! ## Filling a buffer

`Wrote` is the invariant of all loops that fill a buffer: the bytes up to `k` are what they should
be, and nothing else has changed.  One more `memcpy` to the end extends it.  Because the rest of
memory is a part of the statement, what is read from the image is the same after every copy. -/

/-- `m'` is `m` with the bytes `f 0, …, f (k - 1)` from `buffer` on. -/
def Wrote (m m' : Mem) (buffer : Nat) (f : Nat → UInt8) (k : Nat) : Prop :=
  ∀ x, m' x = if buffer ≤ x ∧ x < buffer + k then f (x - buffer) else m x

variable {m m' : Mem} {buffer k src count : Nat} {f : Nat → UInt8}

theorem Wrote.refl (m : Mem) (buffer : Nat) (f : Nat → UInt8) : Wrote m m buffer f 0 := fun x => by
  rw [if_neg (by omega)]

theorem Wrote.outside (h : Wrote m m' buffer f k) {x : Nat} (hx : x < buffer ∨ buffer + k ≤ x) :
    m' x = m x := by
  rw [h x, if_neg (by omega)]

theorem Wrote.inside (h : Wrote m m' buffer f k) {i : Nat} (hi : i < k) :
    m' (buffer + i) = f i := by
  rw [h (buffer + i), if_pos (by omega), show buffer + i - buffer = i by omega]

/-- A copy to the end of what has been written, from a place outside the buffer. -/
theorem Wrote.memcpy (h : Wrote m m' buffer f k) (hd : buffer + k + count ≤ 0x100000000)
    (hs : src + count ≤ 0x100000000) (hdisj : src + count ≤ buffer ∨ buffer + k + count ≤ src)
    (hsrc : ∀ j < count, m (src + j) = f (k + j)) :
    Wrote m (memcpy m' (buffer + k) src count) buffer f (k + count) := by
  intro x
  by_cases hx : buffer + k ≤ x ∧ x < buffer + k + count
  · have hcopy := memcpy_apply (m := m') hd hs (by omega)
      (show x - (buffer + k) < count by omega)
    rw [show buffer + k + (x - (buffer + k)) = x by omega, h.outside (by omega),
      hsrc _ (by omega)] at hcopy
    rw [hcopy, if_pos (by omega), show k + (x - (buffer + k)) = x - buffer by omega]
  · rw [memcpy_of_outside hd (by omega), h x]
    by_cases hin : buffer ≤ x ∧ x < buffer + k
    · rw [if_pos hin, if_pos (by omega)]
    · rw [if_neg hin, if_neg (by omega)]

theorem Wrote.agree {g : Initrd} {length : Nat} (h : Wrote m m' buffer f k)
    (hdisj : buffer + k ≤ g.start ∨ g.start + length ≤ buffer) : Agree g length m m' :=
  fun x _ _ => h.outside (by omega)

/-! ## The loop

The range is a part of the file, and the file is cut into blocks; `fileByte_eq` goes from the one to
the other by division.  Each copy of the code is a piece of one block, so with `Wrote.block` each
branch of `read_initrd` is one or two extensions of the invariant.  The branches differ in whether
the range begins and ends within a block, and in whether it is all in one. -/

theorem div_mod_of_eq {x k q j : Nat} (hx : x = k * q + j) (hj : j < k) :
    x / k = q ∧ x % k = j := by
  subst hx
  rw [Nat.mul_add_div (by omega), Nat.div_eq_of_lt hj, Nat.mul_add_mod, Nat.mod_eq_of_lt hj]
  exact ⟨rfl, rfl⟩

/-- The byte `i` of the range that starts at `offset`. -/
def fileByte (g : Initrd) (m : Mem) (inode offset i : Nat) : UInt8 :=
  m (g.start + g.blockSize m * blockNumber g m inode ((offset + i) / g.blockSize m) +
    (offset + i) % g.blockSize m)

variable {g : Initrd} {length inode offset size stop : Nat}

/-- A piece of a data block, as a piece of the range. -/
theorem fileByte_eq {b j i : Nat} (hi : offset + i = g.blockSize m * b + j)
    (hj : j < g.blockSize m) :
    fileByte g m inode offset i =
      m (g.start + g.blockSize m * blockNumber g m inode b + j) := by
  obtain ⟨hdiv, hmod⟩ := div_mod_of_eq hi hj
  rw [fileByte, hdiv, hmod]

/-- What a reading needs: an image, a buffer outside of it, and a range `[offset, stop)` of the
file.  The blocks of the file are all direct ones or in the one indirect block, since the driver
knows no others. -/
structure Reads (g : Initrd) (m : Mem) (length inode offset stop buffer : Nat) : Prop where
  image : Image g m length inode
  size_le : Initrd.size m inode ≤ (12 + g.blockSize m / 4) * g.blockSize m
  offset_le : offset ≤ stop
  stop_le : stop ≤ Initrd.size m inode
  buffer_fits : buffer + (stop - offset) ≤ 0x100000000
  disjoint : buffer + (stop - offset) ≤ g.start ∨ g.start + length ≤ buffer

/-- **One copy.**  A piece of data block `b`, from byte `j` of the block on, is the next part of the
range.  The image is outside the buffer, so the block still has the bytes that it had at the start.
-/
theorem Wrote.block (h : Wrote m m' buffer (fileByte g m inode offset) k)
    (hr : Reads g m length inode offset stop buffer) {b j : Nat}
    (hstart : offset + k = g.blockSize m * b + j) (hlength : j + count ≤ g.blockSize m)
    (hstop : offset + k + count ≤ stop) (hcount : 0 < count) :
    Wrote m (MyaXOS.memcpy m' (buffer + k) (u32 (g.ext2GetInodeBlock m' inode b + j)) count) buffer
      (fileByte g m inode offset) (k + count) := by
  have hstop_le := hr.stop_le
  have hbuffer := hr.buffer_fits
  have hdisj := hr.disjoint
  have hfits := hr.image.fits
  have hb : b * g.blockSize m < Initrd.size m inode := by
    rw [Nat.mul_comm]
    omega
  have hin := hr.image.block_in b hb
  have hagree : Agree g length m m' := h.agree (by omega)
  rw [hr.image.ext2GetInodeBlock_congr hagree hr.size_le hb, u32_eq (by omega)]
  refine h.memcpy (by omega) (by omega) (by omega) fun i hi => ?_
  rw [fileByte_eq (b := b) (j := j + i) (by omega) (by omega), Nat.add_assoc]

/-- A copy from the first byte of a data block. -/
theorem Wrote.block_start (h : Wrote m m' buffer (fileByte g m inode offset) k)
    (hr : Reads g m length inode offset stop buffer) {b : Nat}
    (hstart : offset + k = g.blockSize m * b) (hlength : count ≤ g.blockSize m)
    (hstop : offset + k + count ≤ stop) :
    Wrote m (MyaXOS.memcpy m' (buffer + k) (g.ext2GetInodeBlock m' inode b) count) buffer
      (fileByte g m inode offset) (k + count) := by
  rcases Nat.eq_zero_or_pos count with rfl | hcount
  · exact h
  · have hblock := h.block hr (b := b) (j := 0) (by omega) (by omega) hstop hcount
    rwa [Nat.add_zero, u32_eq (ext2GetInodeBlock_lt ..)] at hblock

/-- The place in the buffer that is reached after `r` blocks. -/
theorem dest_eq {bs o r : Nat} (ho : o < bs) (hr : 0 < r)
    (hlt : buffer + (bs * r - o) < 0x100000000) :
    u32 (buffer + bs * r + 0x100000000 - o) = buffer + (bs * r - o) := by
  have hle : bs ≤ bs * r := Nat.le_mul_of_pos_right bs hr
  simp only [u32]
  omega

/-- **The loop of `read_initrd`** appends block after block.  The first block starts at the offset
and the others at 0, so after `r` rounds the end of a block has been reached in either case. -/
theorem readLoop_wrote (hr : Reads g m length inode offset stop buffer) : ∀ {r : Nat},
    r = 0 ∨ g.blockSize m * (offset / g.blockSize m + r) ≤ stop →
    Wrote m (readLoop g inode offset buffer (offset / g.blockSize m) (g.blockSize m) r m) buffer
      (fileByte g m inode offset) (g.blockSize m * r - offset % g.blockSize m)
  | 0, _ => by
    rw [Nat.mul_zero, Nat.zero_sub]
    exact Wrote.refl m buffer _
  | r + 1, hstop => by
    have hpos := hr.image.blockSize_pos
    have ho := Nat.mod_lt offset hpos
    have hoffset := Nat.div_add_mod offset (g.blockSize m)
    have hbuffer := hr.buffer_fits
    have hstop' := hstop.resolve_left (Nat.succ_ne_zero r)
    rw [Nat.mul_add, Nat.mul_add, Nat.mul_one] at hstop'
    rw [readLoop, Nat.mul_add, Nat.mul_one]
    rcases Nat.eq_zero_or_pos r with rfl | hpos'
    · rw [if_pos (Nat.add_zero _), Nat.mul_zero, Nat.zero_add]
      have hrest : offset % g.blockSize m + (g.blockSize m - offset % g.blockSize m) ≤
          g.blockSize m := by omega
      have hfirst := (Wrote.refl m buffer (fileByte g m inode offset)).block hr
        (b := offset / g.blockSize m) (by omega) hrest (by omega) (by omega)
      rwa [Nat.zero_add] at hfirst
    · have hbefore := readLoop_wrote hr (r := r) (Or.inr (by rw [Nat.mul_add]; omega))
      have hle : g.blockSize m ≤ g.blockSize m * r := Nat.le_mul_of_pos_right _ hpos'
      rw [if_neg (by omega), dest_eq ho hpos' (by omega),
        show g.blockSize m * r + g.blockSize m - offset % g.blockSize m =
          g.blockSize m * r - offset % g.blockSize m + g.blockSize m by omega]
      exact hbefore.block_start hr (by rw [Nat.mul_add]; omega) (Nat.le_refl _) (by omega)

/-- Where `read_initrd` stops: at the end of the range, or of the file. -/
theorem stop_eq {isize : Nat} (hoffset : offset ≤ isize) (hsum : offset + size < 0x100000000) :
    (if u32 (offset + size) > isize then isize else u32 (offset + size)) =
      offset + min size (isize - offset) := by
  rw [u32_eq hsum]
  split <;> omega

/-- `read_initrd` on a range of the file. -/
theorem readInitrd_wrote {node : Nat} (hinode : g.ext2GetInode m node = inode)
    (hoffset : offset ≤ Initrd.size m inode) (hsum : offset + size < 0x100000000)
    (hstop : stop = offset + min size (Initrd.size m inode - offset))
    (hr : Reads g m length inode offset stop buffer) :
    (readInitrd g m node offset size buffer).1 = stop - offset ∧
      Wrote m (readInitrd g m node offset size buffer).2 buffer (fileByte g m inode offset)
        (stop - offset) := by
  have hpos := hr.image.blockSize_pos
  have ho := Nat.mod_lt offset hpos
  have hoffset_eq := Nat.div_add_mod offset (g.blockSize m)
  have hstop_eq := Nat.div_add_mod stop (g.blockSize m)
  have hle := hr.offset_le
  have hbuffer := hr.buffer_fits
  have hread : u32 (stop + 0x100000000 - offset) = stop - offset := by
    simp only [u32]
    omega
  simp only [readInitrd, hinode, stop_eq hoffset hsum, ← hstop, hread]
  split
  · next hsame =>
    refine ⟨rfl, ?_⟩
    rcases Nat.eq_zero_or_pos (stop - offset) with hzero | hcount
    · rw [hzero]
      exact Wrote.refl m buffer _
    · have hstop_lt := Nat.mod_lt stop hpos
      rw [← hsame] at hstop_eq
      have hblock := (Wrote.refl m buffer (fileByte g m inode offset)).block hr
        (b := offset / g.blockSize m) (j := offset % g.blockSize m) (by omega)
        (show offset % g.blockSize m + (stop - offset) ≤ g.blockSize m by omega) (by omega) hcount
      rwa [Nat.zero_add] at hblock
  · next hdiff =>
    refine ⟨rfl, ?_⟩
    have hlt : offset / g.blockSize m < stop / g.blockSize m :=
      Nat.lt_of_le_of_ne (Nat.div_le_div_right hle) hdiff
    have hadd : g.blockSize m * (offset / g.blockSize m) +
        g.blockSize m * (stop / g.blockSize m - offset / g.blockSize m) =
          g.blockSize m * (stop / g.blockSize m) := by
      rw [← Nat.mul_add, Nat.add_sub_of_le (Nat.le_of_lt hlt)]
    have hblocks := Nat.le_mul_of_pos_right (g.blockSize m) (Nat.sub_pos_of_lt hlt)
    have hloop := readLoop_wrote hr (r := stop / g.blockSize m - offset / g.blockSize m)
      (Or.inr (by rw [Nat.mul_add]; omega))
    rw [show stop - offset = g.blockSize m * (stop / g.blockSize m - offset / g.blockSize m) -
      offset % g.blockSize m + stop % g.blockSize m by omega]
    rcases Nat.eq_zero_or_pos (stop % g.blockSize m) with hzero | hlast
    · rw [hzero]
      exact hloop
    · rw [dest_eq ho (by omega) (by omega)]
      exact hloop.block_start hr (by omega) (Nat.le_of_lt (Nat.mod_lt stop hpos)) (by omega)

/-- **`read_initrd` reads the range it is asked for**, or what there is of it: it returns the number
of bytes, puts them in the buffer and changes nothing else. -/
theorem readInitrd_spec (g : Initrd) (m : Mem) (length node offset size buffer : Nat)
    (himage : Image g m length (g.ext2GetInode m node))
    (hsize : Initrd.size m (g.ext2GetInode m node) ≤ (12 + g.blockSize m / 4) * g.blockSize m)
    (hoffset : offset ≤ Initrd.size m (g.ext2GetInode m node))
    (hsum : offset + size < 0x100000000)
    (hbuffer : buffer + min size (Initrd.size m (g.ext2GetInode m node) - offset) ≤ 0x100000000)
    (hdisjoint : buffer + min size (Initrd.size m (g.ext2GetInode m node) - offset) ≤ g.start ∨
      g.start + length ≤ buffer) :
    (readInitrd g m node offset size buffer).1 =
        min size (Initrd.size m (g.ext2GetInode m node) - offset) ∧
      (∀ i < min size (Initrd.size m (g.ext2GetInode m node) - offset),
        some ((readInitrd g m node offset size buffer).2 (buffer + i)) =
          (fileData g m (g.ext2GetInode m node))[offset + i]?) ∧
      ∀ x, x < buffer ∨
          buffer + min size (Initrd.size m (g.ext2GetInode m node) - offset) ≤ x →
        (readInitrd g m node offset size buffer).2 x = m x := by
  generalize hinode : g.ext2GetInode m node = inode at *
  generalize hn : min size (Initrd.size m inode - offset) = n at *
  have hsub : offset + n - offset = n := Nat.add_sub_cancel_left _ _
  have hr : Reads g m length inode offset (offset + n) buffer :=
    ⟨himage, hsize, Nat.le_add_right _ _, by omega, by rwa [hsub], by rwa [hsub]⟩
  obtain ⟨hret, hwrote⟩ := readInitrd_wrote hinode hoffset hsum (by rw [hn]) hr
  rw [hsub] at hret hwrote
  refine ⟨hret, fun i hi => ?_, fun x hx => hwrote.outside hx⟩
  rw [hwrote.inside hi, fileData_getElem? himage (by omega)]
  rfl

/-- An image of 8 blocks with a file `abc` at inode 2. -/
def abcImage : Mem := fun x =>
  if x = 0x200458 then 0x80
  else if x = 0x201484 then 3
  else if x = 0x2014A8 then 6
  else if x = 0x201800 then 0x61
  else if x = 0x201801 then 0x62
  else if x = 0x201802 then 0x63
  else 0

theorem image_abcImage : Image ⟨0x200000, 0x200400, 0x201400⟩ abcImage 0x2000
    (Initrd.ext2GetInode ⟨0x200000, 0x200400, 0x201400⟩ abcImage 2) := by
  refine ⟨by decide, rfl, by decide, by decide, by decide, by decide, by decide, fun b hb => ?_⟩
  have hsize : Initrd.size abcImage
    (Initrd.ext2GetInode ⟨0x200000, 0x200400, 0x201400⟩ abcImage 2) = 3 := by decide
  have hblock : Initrd.blockSize ⟨0x200000, 0x200400, 0x201400⟩ abcImage = 1024 := by decide
  rw [hsize, hblock] at hb
  obtain rfl : b = 0 := by omega
  decide

theorem readInitrd_spec_abc :
    (readInitrd ⟨0x200000, 0x200400, 0x201400⟩ abcImage 2 1 10 0x100000).1 = 2 ∧
      some ((readInitrd ⟨0x200000, 0x200400, 0x201400⟩ abcImage 2 1 10 0x100000).2 0x100001) =
        (fileData ⟨0x200000, 0x200400, 0x201400⟩ abcImage
          (Initrd.ext2GetInode ⟨0x200000, 0x200400, 0x201400⟩ abcImage 2))[2]? := by
  have h := readInitrd_spec ⟨0x200000, 0x200400, 0x201400⟩ abcImage 0x2000 2 1 10 0x100000
    image_abcImage (by decide) (by decide) (by decide) (by decide) (by decide)
  exact ⟨h.1, h.2.1 1 (by decide)⟩

end MyaXOS
