import MyaXOS.Ext2.Dir

/-!
# Trees that lie in an image

`finddir_initrd` takes blocks from the heap while it reads a directory, so the memory changes under
it.  That is no harm as long as the directory is in the image and the blocks are not.  An image may
be damaged, however: a record can have a length that leads out of the image, an inode number can
belong to no inode, and then the driver reads whatever is there.

## What is here

* `TreeInside g m length root` says that the tree below `root` does not lead out of the image: every
  directory that a walk comes to has its inode in the image (`DirInside`), and every record that the
  driver comes to in it, with the inode that the record names (`EntryInside`).
* What is read from such an inode or record is the same in every memory that has the same image
  (`Agree`): `InodeInside.size_congr`, `EntryInside.entryName_congr` and the others.

## The records of a directory

A walk over the records need not end.  So `DirInside` is about the records that the walk comes to in
any number of steps, which is all that the loop of `finddir_initrd` reads, whether it ends or not.
`TreeInside.child` is how a walk uses it: what is below a node that is found in the tree is in the
tree.
-/

set_option autoImplicit false

namespace MyaXOS

/-- The inode at `inode` lies in an image of `length` bytes. -/
structure InodeInside (g : Initrd) (length inode : Nat) : Prop where
  ge : g.start ≤ inode
  le : inode + 128 ≤ g.start + length

/-- The record at `dEnt` lies in the image, and so does the inode that it names.  These are the
bytes that `finddir_initrd` reads when it comes to the record. -/
structure EntryInside (g : Initrd) (m : Mem) (length dEnt : Nat) : Prop where
  ge : g.start ≤ dEnt
  le : dEnt + 8 + Initrd.nameLen m dEnt ≤ g.start + length
  inode_in : InodeInside g length (g.ext2GetInode m (Initrd.entryInode m dEnt))

/-- The records that a walk comes to from `dirOffset` on lie in the image. -/
def EntriesInside (g : Initrd) (m : Mem) (length block size dirOffset : Nat) : Prop :=
  ∀ ps o', Walk.Visits (recordNext m block) size dirOffset ps o' →
    ∀ p ∈ ps, EntryInside g m length (u32 (block + p))

/-- The inode of a directory and its records lie in the image. -/
structure DirInside (g : Initrd) (m : Mem) (length inode : Nat) : Prop where
  inode_in : InodeInside g length inode
  entries : EntriesInside g m length (dirBlock g m inode) (Initrd.size m inode) 0

/-- The tree below `root` lies in an image of `length` bytes, which is not at `NULL`.  Only the
directories that a walk comes to have to be in it; nothing is asked of a directory that no path
leads to. -/
structure TreeInside (g : Initrd) (m : Mem) (length : Nat) (root : FsNode) : Prop where
  start_pos : 0 < g.start
  superblock : g.superblock = g.start + 1024
  superblock_in : 2048 ≤ length
  fits : g.start + length < 0x100000000
  /-- The directories that a walk comes to. -/
  dirs : ∀ names node, (g.vfs m).lookup root names = .ok (some node) →
    node.flags &&& fsDirectory ≠ 0 → DirInside g m length (g.ext2GetInode m node.inode)

section
variable {g : Initrd} {m m' : Mem} {length inode dEnt block size dirOffset n : Nat}
  {root node : FsNode} {name : List UInt8}

/-- Below a node that is found, all is as it was. -/
theorem TreeInside.child (h : TreeInside g m length root)
    (hnode : (g.vfs m).finddirFs root name = .ok (some node)) : TreeInside g m length node :=
  { h with
    dirs := fun names child hchild => h.dirs (name :: names) child (by
      rw [Vfs.lookup, hnode, ok_bind]
      exact hchild) }

theorem TreeInside.root_dir (h : TreeInside g m length root)
    (hdir : root.flags &&& fsDirectory ≠ 0) : DirInside g m length (g.ext2GetInode m root.inode) :=
  h.dirs [] root rfl hdir

/-! ### The records -/

/-- The record that the walk is at. -/
theorem EntriesInside.head (h : EntriesInside g m length block size dirOffset)
    (hlt : dirOffset < size) : EntryInside g m length (u32 (block + dirOffset)) :=
  h [dirOffset] _ ⟨rfl, hlt, rfl⟩ dirOffset List.mem_cons_self

/-- The records behind it. -/
theorem EntriesInside.next (h : EntriesInside g m length block size dirOffset)
    (hlt : dirOffset < size) :
    EntriesInside g m length block size (recordNext m block dirOffset) :=
  fun ps o' hvisits p hp =>
    h (dirOffset :: ps) o' ⟨rfl, hlt, hvisits⟩ p (List.mem_cons_of_mem _ hp)

/-! ### The same image in another memory

The counterpart of the lemmas in `Ext2/Image.lean`, for an image of which it is known that a tree
lies in it.  What is asked of an inode is less here, as a lookup reads its first block only. -/

namespace InodeInside

theorem mode_congr (h : InodeInside g length inode) (hm : Agree g length m m') :
    Initrd.mode m' inode = Initrd.mode m inode :=
  Mem.load16_congr fun x _ _ => hm x (h.ge.trans ‹_›) (by have := h.le; omega)

theorem size_congr (h : InodeInside g length inode) (hm : Agree g length m m') :
    Initrd.size m' inode = Initrd.size m inode := by
  have hge := h.ge
  have hle := h.le
  exact Mem.load32_congr fun x _ _ => hm x (by omega) (by omega)

theorem block_congr (h : InodeInside g length inode) (hm : Agree g length m m') :
    Initrd.block m' inode 0 = Initrd.block m inode 0 := by
  have hge := h.ge
  have hle := h.le
  exact Mem.load32_congr fun x _ _ => hm x (by omega) (by omega)

end InodeInside

namespace TreeInside

theorem blockSize_congr (h : TreeInside g m length root) (hm : Agree g length m m') :
    g.blockSize m' = g.blockSize m := by
  have hsuper := h.superblock
  have hin := h.superblock_in
  rw [Initrd.blockSize, Initrd.blockSize, Initrd.logBlockSize, Initrd.logBlockSize]
  exact congrArg (fun n => u32 (1024 * 2 ^ n))
    (Mem.load32_congr fun x _ _ => hm x (by omega) (by omega))

theorem inodeSize_congr (h : TreeInside g m length root) (hm : Agree g length m m') :
    g.inodeSize m' = g.inodeSize m := by
  have hsuper := h.superblock
  have hin := h.superblock_in
  rw [Initrd.inodeSize, Initrd.inodeSize, hm _ (by omega) (by omega), hm _ (by omega) (by omega)]

theorem ext2GetInode_congr (h : TreeInside g m length root) (hm : Agree g length m m') (n : Nat) :
    g.ext2GetInode m' n = g.ext2GetInode m n := by
  rw [Initrd.ext2GetInode, Initrd.ext2GetInode, h.inodeSize_congr hm]

theorem ext2GetInodeBlock_congr (h : TreeInside g m length root) (hm : Agree g length m m')
    (hinode : InodeInside g length inode) :
    g.ext2GetInodeBlock m' inode 0 = dirBlock g m inode := by
  rw [Initrd.ext2GetInodeBlock, if_pos (by decide), dirBlock, Initrd.ext2GetBlock,
    Initrd.ext2GetBlock, h.blockSize_congr hm, hinode.block_congr hm]

end TreeInside

namespace EntryInside

theorem nameLen_congr (h : EntryInside g m length dEnt) (hm : Agree g length m m') :
    Initrd.nameLen m' dEnt = Initrd.nameLen m dEnt := by
  have hge := h.ge
  have hle := h.le
  rw [Initrd.nameLen, Initrd.nameLen, hm _ (by omega) (by omega)]

theorem recLen_congr (h : EntryInside g m length dEnt) (hm : Agree g length m m') :
    Initrd.recLen m' dEnt = Initrd.recLen m dEnt := by
  have hge := h.ge
  have hle := h.le
  exact Mem.load16_congr fun x _ _ => hm x (by omega) (by omega)

theorem entryInode_congr (h : EntryInside g m length dEnt) (hm : Agree g length m m') :
    Initrd.entryInode m' dEnt = Initrd.entryInode m dEnt := by
  have hge := h.ge
  have hle := h.le
  exact Mem.load32_congr fun x _ _ => hm x (by omega) (by omega)

theorem entryName_congr (h : EntryInside g m length dEnt) (hm : Agree g length m m')
    (hfits : g.start + length < 0x100000000) :
    Initrd.entryName m' dEnt = Initrd.entryName m dEnt := by
  have hge := h.ge
  have hle := h.le
  rw [Initrd.entryName, Initrd.entryName, h.nameLen_congr hm]
  refine congrArg (· ++ [0]) (List.map_congr_left fun i hi => ?_)
  have hlt := List.mem_range.mp hi
  rw [u32_eq (by omega)]
  exact hm _ (by omega) (by omega)

end EntryInside

/-- **The node that is filled in** from a record in the image. -/
theorem TreeInside.initrdNodeFromFile_congr (h : TreeInside g m length root)
    (hm : Agree g length m m') (hentry : EntryInside g m length dEnt) :
    Initrd.initrdNodeFromFile m' (g.ext2GetInode m (Initrd.entryInode m dEnt)) dEnt =
      g.foundNode m dEnt := by
  have hge := hentry.inode_in.ge
  have hle := hentry.inode_in.le
  have hhalf : ∀ a, a + 2 ≤ 128 →
      m'.load16 (g.ext2GetInode m (Initrd.entryInode m dEnt) + a) =
        m.load16 (g.ext2GetInode m (Initrd.entryInode m dEnt) + a) := fun a ha =>
    Mem.load16_congr fun x _ _ => hm x (by omega) (by omega)
  rw [Initrd.foundNode, Initrd.initrdNodeFromFile, Initrd.initrdNodeFromFile,
    hentry.entryInode_congr hm, hentry.entryName_congr hm h.fits, hentry.inode_in.mode_congr hm,
    hentry.inode_in.size_congr hm, hhalf 2 (by decide), hhalf 24 (by decide)]

end

end MyaXOS
