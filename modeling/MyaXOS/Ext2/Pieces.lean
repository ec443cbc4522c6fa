import MyaXOS.Ext2.Read
import MyaXOS.Ext2.Types

/-!
# Reading on

A caller of `read_fs` may read a file at once, as `cat` does, or piece by piece, each piece where
the last one ended.

* `Wrote.append` puts two pieces together: what has been written in two steps has been written.
* `readPieces` is the caller that reads on.  `readPieces_eq` says that it ends up with what a single
  read would have given it, whatever the pieces.
* `fileData_eq` is the file as the bytes that are read.

The pieces need not have to do with blocks.  A piece may end in the middle of a block, be empty, or
go beyond the end of the file, and then the rest of the pieces get nothing.  `read_initrd` takes a
different way through its cases for each of these, so comparing the copies of a single read with
those of many would mean to compare all ways with each other.

Instead both are compared with the file.  `Wrote` says of a read what the buffer has afterwards, and
that all else is as it was, and this determines the memory (`Wrote.unique`).  So it is enough that
the pieces, put together, have written the same bytes as the single read: the induction is on the
list of the sizes, and its step is `Wrote.append`.  Between two pieces the memory has changed, by
the buffer only, which is apart from the image; so the second piece reads the same file as before,
and this is what the lemmas in the middle say.
-/

set_option autoImplicit false

namespace MyaXOS

namespace Initrd

/-- `read_fs(node, offset, size, buffer)`.  The nodes of the driver have its `read_initrd`. -/
def readFs (g : Initrd) (m : Mem) (node : FsNode) (offset size buffer : Nat) : Nat × Mem :=
  readInitrd g m node.inode offset size buffer

/-- Read pieces of these sizes, each behind the one before, in the file and in the buffer. -/
def readPieces (g : Initrd) (node : FsNode) : List Nat → Nat → Nat → Mem → Nat × Mem
  | [], _, _, m => (0, m)
  | size :: sizes, offset, buffer, m =>
    let (count, m) := g.readFs m node offset size buffer
    let (rest, m) := g.readPieces node sizes (offset + count) (buffer + count) m
    (count + rest, m)

end Initrd

/-! ## What has been written

`Wrote` determines the memory, so two ways of filling a buffer that both satisfy it end in the same
one.  This is how the theorem is proved: nothing is said about the order of the copies. -/

section
variable {m m₁ m₂ : Mem} {buffer k l : Nat} {f f' : Nat → UInt8}

theorem Wrote.unique (h : Wrote m m₁ buffer f k) (h' : Wrote m m₂ buffer f k) : m₁ = m₂ :=
  funext fun x => (h x).trans (h' x).symm

/-- **Two pieces**, one right behind the other and with the bytes of one file, are a piece. -/
theorem Wrote.append (h : Wrote m m₁ buffer f k) (h' : Wrote m₁ m₂ (buffer + k) f' l)
    (hf : ∀ i < l, f' i = f (k + i)) : Wrote m m₂ buffer f (k + l) := by
  intro x
  rw [h' x]
  by_cases hsecond : buffer + k ≤ x ∧ x < buffer + k + l
  · rw [if_pos hsecond, if_pos (by omega), hf _ (by omega),
      show k + (x - (buffer + k)) = x - buffer by omega]
  · rw [if_neg hsecond, h x]
    by_cases hfirst : buffer ≤ x ∧ x < buffer + k
    · rw [if_pos hfirst, if_pos (by omega)]
    · rw [if_neg hfirst, if_neg (by omega)]

end

/-! ## The same file in another memory

The second piece is read from a memory in which the first has been written to the buffer.  The
buffer is apart from the image, and what a file holds depends on the image only. -/

section
variable {g : Initrd} {m m' : Mem} {length inode node offset size stop buffer i : Nat}

theorem Image.ext2GetInode_congr (h : Image g m length inode) (hm : Agree g length m m') (n : Nat) :
    g.ext2GetInode m' n = g.ext2GetInode m n := by
  have hsuper := h.superblock
  have hin := h.superblock_in
  have hsize : g.inodeSize m' = g.inodeSize m := by
    rw [Initrd.inodeSize, Initrd.inodeSize, hm _ (by omega) (by omega), hm _ (by omega) (by omega)]
  rw [Initrd.ext2GetInode, Initrd.ext2GetInode, hsize]

/-- A byte of the file is in the image. -/
theorem Image.fileByte_congr (h : Image g m length inode) (hm : Agree g length m m')
    (hsize : Initrd.size m inode ≤ (12 + g.blockSize m / 4) * g.blockSize m)
    (hi : offset + i < Initrd.size m inode) :
    fileByte g m' inode offset i = fileByte g m inode offset i := by
  have hpos := h.blockSize_pos
  have hmod := Nat.mod_lt (offset + i) hpos
  have hblock : (offset + i) / g.blockSize m * g.blockSize m < Initrd.size m inode :=
    Nat.lt_of_le_of_lt (Nat.div_mul_le_self ..) hi
  have hin := h.block_in _ hblock
  rw [fileByte, fileByte, h.blockSize_congr hm, h.blockNumber_congr hm hsize hblock]
  exact hm _ (by omega) (by omega)

/-- The contents of a file are the bytes that are read from its start on. -/
theorem fileData_eq (h : Image g m length inode) :
    fileData g m inode = (List.range (Initrd.size m inode)).map (fileByte g m inode 0) := by
  refine List.ext_getElem? fun i => ?_
  rw [List.getElem?_map]
  by_cases hi : i < Initrd.size m inode
  · rw [List.getElem?_range hi, fileData_getElem? h hi, Option.map_some, fileByte, Nat.zero_add]
  · have hshort : (fileData g m inode).length ≤ i := by
      rw [fileData]
      exact (List.length_take_le ..).trans (Nat.le_of_not_lt hi)
    rw [List.getElem?_eq_none hshort, List.getElem?_eq_none (by rw [List.length_range]; omega)]
    rfl

/-- What is read is the same, too. -/
theorem Reads.congr (h : Reads g m length inode offset stop buffer) (hm : Agree g length m m') :
    Reads g m' length inode offset stop buffer where
  image := h.image.congr hm h.size_le
  size_le := by
    rw [h.image.size_congr hm, h.image.blockSize_congr hm]
    exact h.size_le
  offset_le := h.offset_le
  stop_le := by
    rw [h.image.size_congr hm]
    exact h.stop_le
  buffer_fits := h.buffer_fits
  disjoint := h.disjoint

/-- The rest of a range. -/
theorem Reads.drop (h : Reads g m length inode offset stop buffer) {k : Nat}
    (hk : offset + k ≤ stop) : Reads g m length inode (offset + k) stop (buffer + k) := by
  have hfits := h.buffer_fits
  have hdisjoint := h.disjoint
  exact ⟨h.image, h.size_le, hk, h.stop_le, by omega, by omega⟩

/-- The beginning of a range. -/
theorem Reads.take (h : Reads g m length inode offset stop buffer) {k : Nat}
    (hk : offset + k ≤ stop) : Reads g m length inode offset (offset + k) buffer := by
  have hfits := h.buffer_fits
  have hdisjoint := h.disjoint
  have hstop := h.stop_le
  exact ⟨h.image, h.size_le, Nat.le_add_right .., by omega, by omega, by omega⟩

/-! ## Reading on

The induction is on the list of the sizes.  After a piece the offset has moved by what was read and
not by what was asked for; the two differ only at the end of the file, and from there on every piece
is empty. -/

/-- **Pieces of a range** are written one behind the other.  By induction on the sizes: the first
piece is a read, and the others are pieces of what is left. -/
theorem readPieces_wrote {node : FsNode} {sizes : List Nat}
    (hinode : g.ext2GetInode m node.inode = inode) (hoffset : offset ≤ Initrd.size m inode)
    (hsum : offset + sizes.sum < 0x100000000)
    (hstop : stop = offset + min sizes.sum (Initrd.size m inode - offset))
    (hr : Reads g m length inode offset stop buffer) :
    (g.readPieces node sizes offset buffer m).1 = stop - offset ∧
      Wrote m (g.readPieces node sizes offset buffer m).2 buffer (fileByte g m inode offset)
        (stop - offset) := by
  induction sizes generalizing m offset buffer with
  | nil =>
    have hnone : stop - offset = 0 := by
      rw [hstop, List.sum_nil, Nat.zero_min]
      omega
    rw [hnone]
    exact ⟨rfl, Wrote.refl m buffer _⟩
  | cons size sizes ih =>
    rw [List.sum_cons] at hsum hstop
    obtain ⟨k, hk⟩ : ∃ k, k = min size (Initrd.size m inode - offset) := ⟨_, rfl⟩
    have hle : offset + k ≤ stop := by omega
    have hfirst : (readInitrd g m node.inode offset size buffer).1 = offset + k - offset ∧
        Wrote m (readInitrd g m node.inode offset size buffer).2 buffer
          (fileByte g m inode offset) (offset + k - offset) :=
      readInitrd_wrote hinode hoffset (by omega) (by rw [hk]) (hr.take hle)
    rw [Nat.add_sub_cancel_left] at hfirst
    obtain ⟨hcount, hwrote⟩ := hfirst
    obtain ⟨m₁, hm₁⟩ : ∃ m₁, m₁ = (readInitrd g m node.inode offset size buffer).2 := ⟨_, rfl⟩
    rw [← hm₁] at hwrote
    have hagree : Agree g length m m₁ := hwrote.agree (by
      have hdisjoint := (hr.take hle).disjoint
      rwa [Nat.add_sub_cancel_left] at hdisjoint)
    have hsame := hr.image.size_congr hagree
    obtain ⟨hrest, hwrote₁⟩ := ih
      ((hr.image.ext2GetInode_congr hagree _).trans hinode) (by rw [hsame]; omega) (by omega)
      (by rw [hsame]; omega) ((hr.drop hle).congr hagree)
    rw [Initrd.readPieces, Initrd.readFs]
    simp only [hcount, ← hm₁]
    refine ⟨by rw [hrest]; omega, ?_⟩
    rw [show stop - offset = k + (stop - (offset + k)) by omega]
    refine hwrote.append hwrote₁ fun i hi => ?_
    have hstop_le := hr.stop_le
    rw [hr.image.fileByte_congr hagree hr.size_le (by omega), fileByte, fileByte,
      Nat.add_assoc offset]

end

/-- **Reading in pieces is reading.**  Whatever the sizes of the pieces, the caller gets as many
bytes as from a single read of their sum, and the memory is the same. -/
theorem readPieces_eq (g : Initrd) (m : Mem) (length : Nat) (node : FsNode) (sizes : List Nat)
    (offset buffer : Nat) (himage : Image g m length (g.ext2GetInode m node.inode))
    (hsize : Initrd.size m (g.ext2GetInode m node.inode) ≤
      (12 + g.blockSize m / 4) * g.blockSize m)
    (hoffset : offset ≤ Initrd.size m (g.ext2GetInode m node.inode))
    (hsum : offset + sizes.sum < 0x100000000)
    (hbuffer : buffer + min sizes.sum (Initrd.size m (g.ext2GetInode m node.inode) - offset) ≤
      0x100000000)
    (hdisjoint : buffer + min sizes.sum (Initrd.size m (g.ext2GetInode m node.inode) - offset) ≤
      g.start ∨ g.start + length ≤ buffer) :
    g.readPieces node sizes offset buffer m = g.readFs m node offset sizes.sum buffer := by
  obtain ⟨n, hn⟩ : ∃ n, n = min sizes.sum (Initrd.size m (g.ext2GetInode m node.inode) - offset) :=
    ⟨_, rfl⟩
  rw [← hn] at hbuffer hdisjoint
  have hr : Reads g m length (g.ext2GetInode m node.inode) offset (offset + n) buffer := by
    refine ⟨himage, hsize, Nat.le_add_right .., by omega, ?_, ?_⟩ <;> rwa [Nat.add_sub_cancel_left]
  obtain ⟨hcount, hwrote⟩ := readPieces_wrote rfl hoffset hsum (by rw [hn]) hr
  obtain ⟨hcount', hwrote'⟩ := readInitrd_wrote rfl hoffset hsum (by rw [hn]) hr
  exact Prod.ext (hcount.trans hcount'.symm) (hwrote.unique hwrote')

/-- The file `abc`, of which a byte, then no byte and then up to five bytes are read. -/
theorem readPieces_eq_abc :
    Initrd.readPieces ⟨0x200000, 0x200400, 0x201400⟩ { deviceNode with inode := 2 } [1, 0, 5] 0
        0x100000 abcImage =
      Initrd.readFs ⟨0x200000, 0x200400, 0x201400⟩ abcImage { deviceNode with inode := 2 } 0 6
        0x100000 :=
  readPieces_eq ⟨0x200000, 0x200400, 0x201400⟩ abcImage 0x2000 { deviceNode with inode := 2 }
    [1, 0, 5] 0 0x100000 image_abcImage (by decide) (by decide) (by decide) (by decide) (by decide)

end MyaXOS
