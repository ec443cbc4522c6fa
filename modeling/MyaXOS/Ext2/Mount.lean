import MyaXOS.Ext2.Dir

/-!
# Mounting

`initrd_mount` finds the superblock in the second kilobyte of the image and takes the third for the
group descriptors; from the first descriptor it learns where the table of inodes is.

* `groupTable` is where the table of a group is in the standard layout, which puts the descriptors
  into the block behind the superblock's, and `inodeAddress` where an inode is.
* `ext2_get_inode` has one table for all groups.  `getInode_iff` says what an image must look like
  for that to be right: the tables of the groups follow each other, and the first is the one that
  the word in the third kilobyte names.

The two sides of `getInode_iff` are computed in different ways.  The driver multiplies the number of
the inode, less one, by the size of an inode, and adds this to the only table it knows.  The layout
divides by the number of inodes in a group, looks up the table of this group, and multiplies what is
left.  For inodes of one group the two differ by a constant, which is how far the table of the group
is from where the driver would have it (`TableBehind`).  So if the address is right for one inode of
a group, it is right for all, and it is enough to compare the first inode of each group: this is the
direction from left to right.  Sums are modulo `2 ^ 32` on both sides, and a summand that both have
can be cancelled nevertheless (`u32_add_right_cancel`).

The mount is a part of the statement, and not an assumption on the variables.  The size of an inode
is read from the superblock at the mount, and a mount of an image without it fails; the position of
the descriptors is a constant in the source, while the block size is not, and that the two fit is
one of the things that the theorem says.
-/

set_option autoImplicit false

namespace MyaXOS

namespace Initrd

/-- `initrd_node_root(inode, fnode)`. -/
def initrdNodeRoot (m : Mem) (inode : Nat) : FsNode where
  inode := 2
  name := [0x2F, 0]
  uid := m.load16 (inode + 2)
  gid := m.load16 (inode + 24)
  length := size m inode
  mask := mode m inode &&& 0xFF
  flags := nodeFlags (mode m inode)

/-- `initrd_mount(mem_head, mem_top)`: the variables, the memory and the root. -/
def initrdMount (m : Mem) (memHead : Nat) : Except Stop (Initrd × Mem × FsNode) := do
  let superblock := u32 (memHead + 1024)
  assert (m.load16 (superblock + 56) = 0xEF53) "initrd_superblock->magic == EXT2_SUPER_MAGIC"
  let m := if m.load16 (superblock + 88) = 0 then m.store16 (superblock + 88) 128 else m
  let rootBlock := u32 (memHead + 1024 + 1024)
  let g : Initrd := { start := memHead, superblock := superblock, inodeTable := 0 }
  let g := { g with inodeTable := u32 (memHead + g.blockSize m * m.load32 (rootBlock + 8)) }
  let rootInode := g.ext2GetInode m 2
  let _ ← g.ext2GetDirentry m rootInode 0
  .ok (g, m, initrdNodeRoot m rootInode)

/-! ## The standard layout

What the format says, next to what the driver computes.  By the format inode `n` lies in the table
of its group, whose first block is in the descriptor of the group.  The driver has one table, and
counts from its start.  The two addresses agree for an inode exactly if the table of its group
begins where the tables of the groups before it end; a group has one entry at least below
`inodes_count`, so this is a condition on the descriptors. -/

/-- `inodes_count`. -/
def inodesCount (g : Initrd) (m : Mem) : Nat := m.load32 g.superblock

/-- `first_data_block`. -/
def firstDataBlock (g : Initrd) (m : Mem) : Nat := m.load32 (g.superblock + 20)

/-- `inodes_per_group`. -/
def inodesPerGroup (g : Initrd) (m : Mem) : Nat := m.load32 (g.superblock + 40)

/-- The block in which the inode table of a group starts, as its descriptor says. -/
def groupTable (g : Initrd) (m : Mem) (group : Nat) : Nat :=
  m.load32 (g.start + g.blockSize m * (g.firstDataBlock m + 1) + 32 * group + 8)

/-- The address of inode `n`. -/
def inodeAddress (g : Initrd) (m : Mem) (n : Nat) : Nat :=
  u32 (g.start + g.blockSize m * g.groupTable m ((n - 1) / g.inodesPerGroup m) +
    g.inodeSize m * ((n - 1) % g.inodesPerGroup m))

/-- The block that the driver takes for the start of the inode table of group 0. -/
def rootTable (g : Initrd) (m : Mem) : Nat := m.load32 (u32 (g.start + 1024 + 1024) + 8)

/-- The table of a group lies behind the inodes of the groups before it, from the table on that the
driver uses. -/
def TableBehind (g : Initrd) (m : Mem) (group : Nat) : Prop :=
  u32 (g.start + g.blockSize m * g.groupTable m group) =
    u32 (g.start + g.blockSize m * g.rootTable m +
      g.inodeSize m * (g.inodesPerGroup m * group))

end Initrd

section
variable {m m' : Mem} {memHead n : Nat} {g : Initrd} {root : FsNode}

theorem ext2GetDirentry_zero (g : Initrd) (m : Mem) (inode : Nat) :
    ∃ direntry, g.ext2GetDirentry m inode 0 = .ok direntry := by
  rw [Initrd.ext2GetDirentry, show dirFuel = 0x100000000 + 1 from rfl, Initrd.direntryLoop]
  by_cases hsize : 0 < Initrd.size m inode
  · rw [if_pos hsize]
    exact ⟨_, if_pos rfl⟩
  · rw [if_neg hsize]
    exact ⟨_, rfl⟩

/-- The inode table and the root that a mount finds. -/
theorem found_of_mount (h : Initrd.initrdMount m memHead = .ok (g, m', root)) :
    g.inodeTable = u32 (g.start + g.blockSize m' * g.rootTable m') ∧
      root = Initrd.initrdNodeRoot m' (g.ext2GetInode m' 2) := by
  obtain ⟨_, -, h⟩ := bind_eq_ok h
  obtain ⟨direntry, -, h⟩ := bind_eq_ok h
  cases h
  exact ⟨rfl, rfl⟩

/-- A mount of an image that has the size of its inodes. -/
theorem initrdMount_eq {inodeTable : Nat}
    (hmagic : m.load16 (u32 (memHead + 1024) + 56) = 0xEF53)
    (hsize : m.load16 (u32 (memHead + 1024) + 88) ≠ 0)
    (htable : u32 (memHead +
      Initrd.blockSize { start := memHead, superblock := u32 (memHead + 1024), inodeTable := 0 } m *
        m.load32 (u32 (memHead + 1024 + 1024) + 8)) = inodeTable) :
    ∃ root, Initrd.initrdMount m memHead = .ok
      ({ start := memHead, superblock := u32 (memHead + 1024), inodeTable := inodeTable }, m,
        root) := by
  rw [Initrd.initrdMount, assert_bind hmagic]
  simp only [if_neg hsize, htable]
  obtain ⟨direntry, hdirentry⟩ := ext2GetDirentry_zero
    { start := memHead, superblock := u32 (memHead + 1024), inodeTable := inodeTable } m
    (Initrd.ext2GetInode
      { start := memHead, superblock := u32 (memHead + 1024), inodeTable := inodeTable } m 2)
  rw [hdirentry, ok_bind]
  exact ⟨_, rfl⟩

/-- What `ext2_get_inode` computes. -/
theorem ext2GetInode_eq (h : Initrd.initrdMount m memHead = .ok (g, m', root)) (hn : 1 ≤ n)
    (hlt : n < 0x100000000) : g.ext2GetInode m' n =
      u32 (g.start + g.blockSize m' * g.rootTable m' + g.inodeSize m' * (n - 1)) := by
  have hpred : u32 (n + 0xFFFFFFFF) = n - 1 := by
    rw [show n + 0xFFFFFFFF = n - 1 + 0x100000000 by omega, u32, Nat.add_mod_right,
      Nat.mod_eq_of_lt (by omega)]
  rw [Initrd.ext2GetInode, (found_of_mount h).1, hpred, u32, u32, u32, Nat.mod_add_mod]

end

theorem u32_add_right_cancel {a b c : Nat} : u32 (a + c) = u32 (b + c) ↔ u32 a = u32 b := by
  simp only [u32]
  omega

/-- **`ext2_get_inode` is right for every inode exactly when the tables follow each other.** -/
theorem getInode_iff (m : Mem) (memHead : Nat) (g : Initrd) (m' : Mem) (root : FsNode)
    (hmount : Initrd.initrdMount m memHead = .ok (g, m', root))
    (hgroup : 0 < g.inodesPerGroup m') :
    (∀ n, 1 ≤ n → n ≤ g.inodesCount m' → g.ext2GetInode m' n = g.inodeAddress m' n) ↔
      ∀ group, group * g.inodesPerGroup m' < g.inodesCount m' → g.TableBehind m' group := by
  have hcount : g.inodesCount m' < 0x100000000 := Mem.load32_lt ..
  -- both sides of an inode differ by its slot, the same on both
  have hinode : ∀ n, 1 ≤ n → n ≤ g.inodesCount m' →
      (g.ext2GetInode m' n = g.inodeAddress m' n ↔
        g.TableBehind m' ((n - 1) / g.inodesPerGroup m')) := by
    intro n hn hle
    have hslot := Nat.div_add_mod (n - 1) (g.inodesPerGroup m')
    rw [ext2GetInode_eq hmount hn (by omega), Initrd.inodeAddress, Initrd.TableBehind]
    nth_rewrite 1 [← hslot]
    rw [Nat.mul_add, ← Nat.add_assoc, u32_add_right_cancel]
    exact eq_comm
  constructor
  · intro h group hlt
    have hdiv : (group * g.inodesPerGroup m' + 1 - 1) / g.inodesPerGroup m' = group := by
      rw [Nat.add_sub_cancel, Nat.mul_div_cancel _ hgroup]
    have hbehind := (hinode (group * g.inodesPerGroup m' + 1) (Nat.le_add_left ..) hlt).mp
      (h _ (Nat.le_add_left ..) hlt)
    rwa [hdiv] at hbehind
  · intro h n hn hle
    refine (hinode n hn hle).mpr (h _ ?_)
    have := Nat.div_mul_le_self (n - 1) (g.inodesPerGroup m')
    omega

/-- An image with blocks of 1024 bytes and two groups of 8 inodes.  The inode table of the first
starts in block 5, that of the second in block `second`. -/
def twoGroupImage (second : UInt8) : Mem := fun x =>
  match x with
  | 1024 => 16
  | 1044 => 1
  | 1064 => 8
  | 1080 => 0x53
  | 1081 => 0xEF
  | 1112 => 128
  | 2056 => 5
  | 2088 => second
  | 5249 => 0x40
  | 5253 => 4
  | _ => 0

/-- The variables of the driver for it. -/
def twoGroupInitrd : Initrd := { start := 0, superblock := 1024, inodeTable := 5120 }

theorem mount_twoGroup (second : UInt8) (hsecond : second = 6 ∨ second = 100) :
    ∃ root, Initrd.initrdMount (twoGroupImage second) 0 =
      .ok (twoGroupInitrd, twoGroupImage second, root) := by
  rcases hsecond with rfl | rfl
  · exact initrdMount_eq (by decide) (by decide) (by decide)
  · exact initrdMount_eq (by decide) (by decide) (by decide)

/-- The second table starts in block 6, right behind the first, and inode 9 is its first entry. -/
theorem getInode_two_groups : 9 ≤ twoGroupInitrd.inodesCount (twoGroupImage 6) ∧
    twoGroupInitrd.ext2GetInode (twoGroupImage 6) 9 =
      twoGroupInitrd.inodeAddress (twoGroupImage 6) 9 := by
  obtain ⟨root, hmount⟩ := mount_twoGroup 6 (Or.inl rfl)
  have hcount : 9 ≤ twoGroupInitrd.inodesCount (twoGroupImage 6) := by decide
  refine ⟨hcount, (getInode_iff (twoGroupImage 6) 0 twoGroupInitrd (twoGroupImage 6) root hmount
    (by decide)).mpr (fun group hlt => ?_) 9 (by decide) hcount⟩
  rw [show twoGroupInitrd.inodesPerGroup (twoGroupImage 6) = 8 by decide,
    show twoGroupInitrd.inodesCount (twoGroupImage 6) = 16 by decide] at hlt
  rcases (by omega : group = 0 ∨ group = 1) with rfl | rfl
  · rw [Initrd.TableBehind]
    decide
  · rw [Initrd.TableBehind]
    decide

/-- The second table starts in block 100, and the driver looks for inode 9 behind the first. -/
theorem not_getInode :
    (∃ root, Initrd.initrdMount (twoGroupImage 100) 0 =
      .ok (twoGroupInitrd, twoGroupImage 100, root)) ∧
    9 ≤ twoGroupInitrd.inodesCount (twoGroupImage 100) ∧
    twoGroupInitrd.ext2GetInode (twoGroupImage 100) 9 ≠
      twoGroupInitrd.inodeAddress (twoGroupImage 100) 9 :=
  ⟨mount_twoGroup 100 (Or.inr rfl), by decide, by decide⟩

end MyaXOS
