import MyaXOS.System

/-!
# The ext2 image

`initrd_mount` keeps pointers into an image in memory, and every access to a file goes through them:
to the superblock for the block size, to the table of inodes, to the block numbers of an inode.  The
functions here compute these addresses as the driver does.

* `Image` says that what the driver reads for one inode lies inside the image and that no address
  wraps around.  `Agree` says that two memories have the same image; all the addresses are then the
  same (`Image.ext2GetInodeBlock_congr`).
* `fileData` is the contents of a file: its data blocks one after the other, the first twelve named
  by the inode and the others by the indirect block.

**The image is read anew each time.**  The driver has three variables, `Initrd`, and nothing else is
kept from one call to the next.  The block size is computed from the superblock wherever it is
needed, and a block number is read from the inode at the moment at which it is used.  So a function
that writes to memory while it reads a file, as `read_initrd` does with its buffer, could change the
file under its own hands.  The functions here take the memory as an argument, to leave this
possible, and `Agree` is the condition under which it does not happen: the image is apart from what
is written.

**What an image must be.**  Very little.  `Image` is about one inode: its 128 bytes, the indirect
block if there is data that needs it, and its data blocks are inside, below `2 ^ 32`.  Block numbers
of blocks without data may be anything, and other inodes too.  That the blocks of a file are
different from each other, or from those of another file, is nowhere needed: a file is what is read
when its numbers are followed.

**Two spellings of a block.**  `ext2GetInodeBlock` is the address that the driver computes, with all
its sums modulo `2 ^ 32`; `blockNumber` is the number that the image names.  They are put together
by `Image.ext2GetInodeBlock_eq`, and after this no proof about files has to reduce a sum.
-/

set_option autoImplicit false

namespace MyaXOS

/-- The variables of the driver. -/
structure Initrd where
  /-- `initrd_start`. -/
  start : Nat
  /-- `initrd_superblock`. -/
  superblock : Nat
  /-- `initrd_inode_table`. -/
  inodeTable : Nat
  deriving DecidableEq, Repr

namespace Initrd

/-- `initrd_superblock->log_block_size`. -/
def logBlockSize (g : Initrd) (m : Mem) : Nat := m.load32 (g.superblock + 24)

/-- `1024 << initrd_superblock->log_block_size`. -/
def blockSize (g : Initrd) (m : Mem) : Nat := u32 (1024 * 2 ^ g.logBlockSize m)

/-- `initrd_superblock->inode_size`. -/
def inodeSize (g : Initrd) (m : Mem) : Nat :=
  (m (g.superblock + 88)).toNat + 0x100 * (m (g.superblock + 89)).toNat

/-- `ext2_get_inode(inode)`. -/
def ext2GetInode (g : Initrd) (m : Mem) (inode : Nat) : Nat :=
  u32 (g.inodeTable + g.inodeSize m * u32 (inode + 0xFFFFFFFF))

/-- `inode->size`. -/
def size (m : Mem) (inode : Nat) : Nat := m.load32 (inode + 4)

/-- `inode->block[i]`. -/
def block (m : Mem) (inode i : Nat) : Nat := m.load32 (inode + 40 + 4 * i)

/-- `ext2_get_block(block)`. -/
def ext2GetBlock (g : Initrd) (m : Mem) (block : Nat) : Nat :=
  u32 (g.start + g.blockSize m * block)

/-- `ext2_get_inode_block(inode, block)`, where 0 is `NULL`. -/
def ext2GetInodeBlock (g : Initrd) (m : Mem) (inode block : Nat) : Nat :=
  if block < 12 then g.ext2GetBlock m (Initrd.block m inode block)
  else if block < 12 + g.blockSize m / 4 then
    g.ext2GetBlock m
      (m.load32 (u32 (g.ext2GetBlock m (Initrd.block m inode 12) + (block - 12) * 4)))
  else 0

end Initrd

theorem ext2GetInodeBlock_lt (g : Initrd) (m : Mem) (inode b : Nat) :
    g.ext2GetInodeBlock m inode b < 0x100000000 := by
  rw [Initrd.ext2GetInodeBlock]
  split
  · exact u32_lt _
  · split
    · exact u32_lt _
    · decide

/-! ## Files

What a file is, by the format alone: the numbers of its blocks come from the inode or from its
indirect block, and its contents are these blocks, cut off at the size.  Nothing here calls the
driver, so that `fileData` can be used to say what the driver should read. -/

/-- The number of data block `b` of a file, from the inode or from its indirect block. -/
def blockNumber (g : Initrd) (m : Mem) (inode b : Nat) : Nat :=
  if b < 12 then Initrd.block m inode b
  else m.load32 (g.start + g.blockSize m * Initrd.block m inode 12 + 4 * (b - 12))

/-- The bytes of a block of the image. -/
def blockData (g : Initrd) (m : Mem) (number : Nat) : List UInt8 :=
  (List.range (g.blockSize m)).map fun j => m (g.start + g.blockSize m * number + j)

/-- The number of data blocks of a file. -/
def blockCount (g : Initrd) (m : Mem) (inode : Nat) : Nat :=
  (Initrd.size m inode + (g.blockSize m - 1)) / g.blockSize m

/-- The contents of a file: its data blocks one after the other, up to its size. -/
def fileData (g : Initrd) (m : Mem) (inode : Nat) : List UInt8 :=
  ((List.range (blockCount g m inode)).flatMap fun b =>
    blockData g m (blockNumber g m inode b)).take (Initrd.size m inode)

/-- A list of blocks of one size, read at an index. -/
theorem getElem?_flatMap_range {α : Type} {k : Nat} {f : Nat → List α}
    (hf : ∀ b, (f b).length = k) {n i : Nat} (hi : i < n * k) :
    ((List.range n).flatMap f)[i]? = (f (i / k))[i % k]? := by
  induction n with
  | zero =>
    rw [Nat.zero_mul] at hi
    exact absurd hi (Nat.not_lt_zero i)
  | succ n ih =>
    have hlength : ((List.range n).flatMap f).length = n * k := by
      simp [List.length_flatMap, hf, List.map_const']
    rw [List.range_succ, List.flatMap_append, List.flatMap_singleton]
    rcases Nat.lt_or_ge i (n * k) with hlt | hge
    · rw [List.getElem?_append_left (by omega)]
      exact ih hlt
    · rw [List.getElem?_append_right (by omega), hlength]
      have hdiv : i / k = n := Nat.div_eq_of_lt_le hge hi
      have hmod := Nat.div_add_mod i k
      rw [hdiv, Nat.mul_comm] at hmod
      rw [hdiv, show i - n * k = i % k by omega]

/-! ## Images

The driver computes addresses modulo 2^32 and reads whatever is there.  `Image` says that for one
inode all of this stays inside the image, and then the sums do not wrap around and the address of a
block is the one that the format has. -/

/-- What the driver reads for the inode at address `inode` lies in an image of `length` bytes: the
superblock, the inode, the indirect block if there is one, and the data blocks up to the size of the
file.  Two memories with the same image give the same file then. -/
structure Image (g : Initrd) (m : Mem) (length inode : Nat) : Prop where
  /-- The shifts of the driver are defined. -/
  log_le : g.logBlockSize m ≤ 21
  superblock : g.superblock = g.start + 1024
  superblock_in : 2048 ≤ length
  fits : g.start + length ≤ 0x100000000
  inode_ge : g.start ≤ inode
  inode_in : inode + 128 ≤ g.start + length
  /-- The indirect block, if the file needs it. -/
  indirect_in : 12 * g.blockSize m < Initrd.size m inode →
    g.blockSize m * Initrd.block m inode 12 + g.blockSize m ≤ length
  /-- The data blocks. -/
  block_in : ∀ b, b * g.blockSize m < Initrd.size m inode →
    g.blockSize m * blockNumber g m inode b + g.blockSize m ≤ length

/-- Two memories that have the same image, byte for byte.  What the driver reads is the same in
both, and this is how results pass from the memory of the mount to a later one. -/
def Agree (g : Initrd) (length : Nat) (m m' : Mem) : Prop :=
  ∀ x, g.start ≤ x → x < g.start + length → m' x = m x

variable {g : Initrd} {m m' : Mem} {length inode b : Nat}

namespace Image

theorem blockSize_eq (h : Image g m length inode) :
    g.blockSize m = 1024 * 2 ^ g.logBlockSize m := by
  have hpow : 2 ^ g.logBlockSize m ≤ 2 ^ 21 := Nat.pow_le_pow_right (by decide) h.log_le
  exact u32_eq (by omega)

theorem blockSize_pos (h : Image g m length inode) : 0 < g.blockSize m := by
  have hpow : 0 < 2 ^ g.logBlockSize m := Nat.two_pow_pos _
  rw [h.blockSize_eq]
  omega

theorem blockSize_mod (h : Image g m length inode) : g.blockSize m % 4 = 0 := by
  rw [h.blockSize_eq]
  omega

/-- A block that holds data is one the inode can name. -/
theorem lt_of_data (hsize : Initrd.size m inode ≤ (12 + g.blockSize m / 4) * g.blockSize m)
    (hb : b * g.blockSize m < Initrd.size m inode) : b < 12 + g.blockSize m / 4 :=
  Nat.lt_of_mul_lt_mul_right (Nat.lt_of_lt_of_le hb hsize)

theorem ext2GetBlock_eq (h : Image g m length inode) {number : Nat}
    (hin : g.blockSize m * number + g.blockSize m ≤ length) :
    g.ext2GetBlock m number = g.start + g.blockSize m * number := by
  have hpos := h.blockSize_pos
  have hfits := h.fits
  exact u32_eq (by omega)

/-- The indirect block is needed only if there is data beyond block 11. -/
theorem indirect_data (h : Image g m length inode) (hb : b * g.blockSize m < Initrd.size m inode)
    (h12 : 12 ≤ b) :
    g.blockSize m * Initrd.block m inode 12 + g.blockSize m ≤ length :=
  h.indirect_in (Nat.lt_of_le_of_lt (Nat.mul_le_mul_right _ h12) hb)

/-- **Where the driver finds a data block**: at the address that the format gives it, as long as it
holds data. -/
theorem ext2GetInodeBlock_eq (h : Image g m length inode)
    (hsize : Initrd.size m inode ≤ (12 + g.blockSize m / 4) * g.blockSize m)
    (hb : b * g.blockSize m < Initrd.size m inode) :
    g.ext2GetInodeBlock m inode b =
      g.start + g.blockSize m * blockNumber g m inode b := by
  have hlt := lt_of_data hsize hb
  have hin := h.block_in b hb
  rw [← h.ext2GetBlock_eq hin, Initrd.ext2GetInodeBlock, blockNumber]
  by_cases h12 : b < 12
  · rw [if_pos h12, if_pos h12]
  · have hindirect := h.indirect_data hb (by omega)
    have hmod := h.blockSize_mod
    have hfits := h.fits
    rw [if_neg h12, if_neg h12, if_pos hlt, h.ext2GetBlock_eq hindirect,
      Nat.mul_comm (b - 12) 4,
      u32_eq (show g.start + g.blockSize m * Initrd.block m inode 12 + 4 * (b - 12) <
        0x100000000 by omega)]

/-! ### The same image in another memory

A reading writes to a buffer while it reads the image.  As long as the buffer is elsewhere the two
memories agree on the image, and everything that the driver computes from it is the same.  There is
one lemma for each field, and from these the others follow in the order in which the driver computes
them. -/

theorem load32_congr (h : Agree g length m m') {a : Nat} (ha : g.start ≤ a)
    (ha' : a + 4 ≤ g.start + length) : m'.load32 a = m.load32 a :=
  Mem.load32_congr fun x _ _ => h x (by omega) (by omega)

theorem blockSize_congr (h : Image g m length inode) (hm : Agree g length m m') :
    g.blockSize m' = g.blockSize m := by
  have hsuper := h.superblock
  have hin := h.superblock_in
  rw [Initrd.blockSize, Initrd.blockSize, Initrd.logBlockSize, Initrd.logBlockSize,
    load32_congr hm (by omega) (by omega)]

theorem size_congr (h : Image g m length inode) (hm : Agree g length m m') :
    Initrd.size m' inode = Initrd.size m inode := by
  have hge := h.inode_ge
  have hin := h.inode_in
  exact load32_congr hm (by omega) (by omega)

theorem block_congr (h : Image g m length inode) (hm : Agree g length m m') {i : Nat}
    (hi : i < 15) : Initrd.block m' inode i = Initrd.block m inode i := by
  have hge := h.inode_ge
  have hin := h.inode_in
  exact load32_congr hm (by omega) (by omega)

theorem blockNumber_congr (h : Image g m length inode) (hm : Agree g length m m')
    (hsize : Initrd.size m inode ≤ (12 + g.blockSize m / 4) * g.blockSize m)
    (hb : b * g.blockSize m < Initrd.size m inode) :
    blockNumber g m' inode b = blockNumber g m inode b := by
  rw [blockNumber, blockNumber]
  by_cases h12 : b < 12
  · rw [if_pos h12, if_pos h12, h.block_congr hm (by omega)]
  · have hlt := lt_of_data hsize hb
    have hindirect := h.indirect_data hb (by omega)
    have hmod := h.blockSize_mod
    rw [if_neg h12, if_neg h12, h.blockSize_congr hm, h.block_congr hm (by omega)]
    exact load32_congr hm (by omega) (by omega)

/-- The image is an image in the other memory. -/
theorem congr (h : Image g m length inode) (hm : Agree g length m m')
    (hsize : Initrd.size m inode ≤ (12 + g.blockSize m / 4) * g.blockSize m) :
    Image g m' length inode := by
  have hbs := h.blockSize_congr hm
  have hsame := h.size_congr hm
  refine ⟨?_, h.superblock, h.superblock_in, h.fits, h.inode_ge, h.inode_in, fun hind => ?_,
    fun b hb => ?_⟩
  · have hsuper := h.superblock
    have hin := h.superblock_in
    have hlog := h.log_le
    rwa [Initrd.logBlockSize, load32_congr hm (by omega) (by omega)]
  · rw [hbs, h.block_congr hm (by decide)]
    rw [hbs, hsame] at hind
    exact h.indirect_in hind
  · rw [hbs, hsame] at hb
    rw [hbs, h.blockNumber_congr hm hsize hb]
    exact h.block_in b hb

/-- **Where the driver finds a data block** while it is writing to a buffer outside the image. -/
theorem ext2GetInodeBlock_congr (h : Image g m length inode) (hm : Agree g length m m')
    (hsize : Initrd.size m inode ≤ (12 + g.blockSize m / 4) * g.blockSize m)
    (hb : b * g.blockSize m < Initrd.size m inode) :
    g.ext2GetInodeBlock m' inode b =
      g.start + g.blockSize m * blockNumber g m inode b := by
  have hbs := h.blockSize_congr hm
  have hsame := h.size_congr hm
  rw [← h.blockNumber_congr hm hsize hb, ← hbs]
  exact (h.congr hm hsize).ext2GetInodeBlock_eq (by rwa [hbs, hsame]) (by rwa [hbs, hsame])

end Image

/-- The byte at an index of a file, where the driver finds it. -/
theorem fileData_getElem? (h : Image g m length inode) {i : Nat} (hi : i < Initrd.size m inode) :
    (fileData g m inode)[i]? =
      some (m (g.start + g.blockSize m * blockNumber g m inode (i / g.blockSize m) +
        i % g.blockSize m)) := by
  have hpos := h.blockSize_pos
  have hlength : ∀ b, (blockData g m (blockNumber g m inode b)).length = g.blockSize m := by
    intro b
    rw [blockData, List.length_map, List.length_range]
  have hcount : i < blockCount g m inode * g.blockSize m := by
    have hdiv := Nat.lt_div_mul_add (a := Initrd.size m inode + (g.blockSize m - 1)) hpos
    rw [blockCount]
    omega
  rw [fileData, List.getElem?_take_of_lt hi, getElem?_flatMap_range hlength hcount, blockData,
    List.getElem?_map, List.getElem?_range (Nat.mod_lt i hpos)]
  rfl

end MyaXOS
