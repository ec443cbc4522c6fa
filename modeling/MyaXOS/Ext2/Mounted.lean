import MyaXOS.Ext2.Returns

/-!
# A mounted tree

What has to be true of the kernel when `kopen` is called: there is an image in memory, `fs_root`
points to the node of its root directory, and there is a path.

* `Mounted` says this of the image and of the root, and `Names` of the path.
* `HeapFs.initrdMount` is `initrd_mount` with its call of `malloc`, and `mounted_of_initrdMount`
  says that the tree is mounted when it returns.
* `Mounted.adds`: what is mounted stays mounted, whatever is done with the heap.

**What is asked of the image** is `TreeInside`: of every directory that can be walked to, the inode
and the records that the walk visits lie in the image.  Nothing is asked of files, or of records
that no walk comes to.  It is about the image as it was mounted; that it is still there when `kopen`
is called is `agree`, and that nobody can have changed it is `held`: the image is outside the heap.

**The root** is a node in a block of the heap.  The block was taken by the mount and never given
back, so it is held too.

## A kernel with a tree

The second half of the file is a kernel in which all this is the case, so that there are calls of
`kopen` to speak of.  Its image has a root with two records, the block device `a` and the directory
`d`, and both of them have the data block of the root for their own.  Every path made of these two
names leads somewhere, to any depth.  `exists_treeKernel` follows the kernel from `heap_install` on:
it mounts the image, takes a block for a string and writes the string to it.  What is needed of the
image is computed once, in `tree_records`, for the three nodes that there are.
-/

set_option autoImplicit false

namespace MyaXOS

variable {σ ρ : Type}

namespace HeapFs

/-- The image of `m`, of `length` bytes, is mounted, and its root `root` is at `rootPtr`.  Neither
is the allocator's.  Of the memory no more is said than that it has the image of `m`; all else may
have changed since the image was mounted. -/
structure Mounted (fs : HeapFs σ ρ) (m : Mem) (length : Nat) (root : FsNode) (rootPtr : Nat)
    (s : AllocRun σ ρ) : Prop where
  tree : TreeInside fs.g m length root
  agree : Agree fs.g length m s.heap.mem
  image_held : ∀ x, fs.g.start ≤ x → x < fs.g.start + length → s.Held fs.env fs.heapEnd x
  node : HoldsNode fs.ops s.heap.mem rootPtr root
  node_held : ∀ x, rootPtr ≤ x → x < rootPtr + fsNodeSize → s.Held fs.env fs.heapEnd x

/-- The string `str` is at `a`, and it is not the allocator's.  It may be in a block that is in use,
which is where the shell builds its names, or outside of the heap. -/
structure Names (fs : HeapFs σ ρ) (a : Nat) (str : List UInt8) (s : AllocRun σ ρ) : Prop where
  string : s.heap.mem.HoldsStr a str
  fits : a + str.length < 0x100000000
  held : ∀ i ≤ str.length, s.Held fs.env fs.heapEnd (a + i)

/-- `initrd_mount(mem_head, mem_top)`: the variables of the driver, and `fs_root`. -/
def initrdMount (env : AllocEnv σ ρ) (heapEnd : σ → Nat) (ops : InitrdOps) (memHead : Nat)
    (s : AllocRun σ ρ) : Except Stop (HeapFs σ ρ × Nat × AllocRun σ ρ) := do
  let (g, m, _) ← Initrd.initrdMount s.heap.mem memHead
  let rootInode := g.ext2GetInode m 2
  let (initrdRoot, s) ← (s.withMem m).malloc env heapEnd fsNodeSize
  let _ ← assert (initrdRoot ≠ 0) "initrd_node_root(root_inode, initrd_root)"
  .ok (⟨env, heapEnd, ops, g⟩, initrdRoot,
    s.withMem (initrdNodeRoot ops s.heap.mem rootInode initrdRoot))

section
variable {fs : HeapFs σ ρ} {Ready : σ → Prop} {s t : AllocRun σ ρ} {m m₀ : Mem}
  {length rootPtr memHead a : Nat} {root : FsNode} {str : List UInt8}

theorem Mounted.holds_image (h : fs.Mounted m length root rootPtr s) : fs.HoldsImage m length s :=
  ⟨h.image_held, fun _ hm' x hle hlt => (hm' x hle hlt).trans (h.agree x hle hlt)⟩

theorem Mounted.holds_root (h : fs.Mounted m length root rootPtr s) :
    fs.HoldsFsNode rootPtr root s :=
  ⟨h.node_held, fun _ hm' => h.node.congr hm'⟩

theorem Names.holds (h : fs.Names a str s) : fs.HoldsString a str s :=
  ⟨fun x hle hlt => by
    rw [show x = a + (x - a) by omega]
    exact h.held (x - a) (by omega),
  fun m' hm' => h.string.congr fun i hi => hm' _ (by omega) (by omega)⟩

/-! ## Mounting

`initrd_mount` reads the superblock, may write the size of the inodes into it, and takes a block for
the node of the root.  The size of the inodes is the only field of the image that changes, so what
is mounted afterwards is the image with this field in order. -/

/-- A mount writes to nothing but the size of the inodes. -/
theorem start_of_mount {g : Initrd} (h : Initrd.initrdMount m₀ memHead = .ok (g, m, root)) :
    g.start = memHead ∧ g.superblock = u32 (memHead + 1024) ∧
      ∀ x, x < g.superblock + 88 ∨ g.superblock + 90 ≤ x → m x = m₀ x := by
  obtain ⟨_, -, h⟩ := bind_eq_ok h
  obtain ⟨direntry, -, h⟩ := bind_eq_ok h
  cases h
  refine ⟨rfl, rfl, fun x hx => ?_⟩
  split
  · exact Mem.store16_of_outside m₀ _ (by simp only at hx; omega)
  · rfl

/-- **`initrd_mount` mounts** an image outside the heap.  The node of the root is a new block, and
besides the size of the inodes nothing else is written to. -/
theorem mounted_of_initrdMount {env : AllocEnv σ ρ} {heapEnd : σ → Nat} {ops : InitrdOps}
    {g : Initrd} (hsbrk : SbrkFresh env.sbrk heapEnd Ready)
    (hbelow : SbrkBelow env.sbrk heapEnd Ready) (hinv : ∃ A, s.Inv env heapEnd Ready A)
    (himage : ∀ x, memHead ≤ x → x < memHead + length → s.Outside env heapEnd x)
    (hmount : Initrd.initrdMount s.heap.mem memHead = .ok (g, m, root))
    (htree : TreeInside g m length root) (hroot : InodeInside g length (g.ext2GetInode m 2))
    (hok : initrdMount env heapEnd ops memHead s = .ok (fs, rootPtr, t)) :
    fs = ⟨env, heapEnd, ops, g⟩ ∧ fs.Adds Ready [(rootPtr, fsNodeSize)] (s.withMem m) t ∧
      fs.Mounted m length root rootPtr t ∧
      ∃ s₁, (s.withMem m).malloc env heapEnd fsNodeSize = .ok (rootPtr, s₁) ∧
        t = s₁.withMem t.heap.mem ∧
        ∀ x, x < rootPtr ∨ rootPtr + fsNodeSize ≤ x → t.heap.mem x = s₁.heap.mem x := by
  obtain ⟨hstart, -, hsame⟩ := start_of_mount hmount
  rw [initrdMount, hmount, ok_bind] at hok
  obtain ⟨⟨ptr, s₁⟩, hmalloc, hok⟩ := bind_eq_ok hok
  obtain ⟨_, hassert, hok⟩ := bind_eq_ok hok
  cases hok
  obtain ⟨A, hA⟩ := hinv
  have hsuper := htree.superblock
  have hlong := htree.superblock_in
  have hm : (s.withMem m).Inv env heapEnd Ready A := hA.write_outside fun x hx =>
    hsame x (by
      by_contra hin
      exact hx (himage x (by omega) (by omega)))
  have himage' : AllocRun.Holds env heapEnd (s.withMem m) g.start length (Agree g length m) :=
    ⟨fun x hle hlt => Or.inl (himage x (hstart ▸ hle) (hstart ▸ hlt)), fun m' hm' => hm'⟩
  obtain ⟨hne, hadds⟩ := AllocRun.Adds.malloc_small hm hsbrk hbelow (by decide) (by decide) hmalloc
  obtain ⟨hlive, hroom, -⟩ := hadds.mem_live List.mem_cons_self
  have hsize : fsNodeSize = 312 := rfl
  have happart := himage'.apart (by omega) hadds List.mem_cons_self (by omega)
  have hge := hroot.ge
  have hle := hroot.le
  obtain ⟨hnode, hout⟩ := holdsNode_initrdNodeRoot ops s₁.heap.mem
    (g.ext2GetInode m 2) hne (by omega)
  have hwrite := hadds.write List.mem_cons_self fun x hx => hout x (by omega)
  have hagree := (himage'.adds hadds).now
  have hnode_eq : Initrd.initrdNodeRoot s₁.heap.mem (g.ext2GetInode m 2) = root := by
    have hhalf : ∀ a, a + 2 ≤ 128 → s₁.heap.mem.load16 (g.ext2GetInode m 2 + a) =
        m.load16 (g.ext2GetInode m 2 + a) := fun a ha =>
      Mem.load16_congr fun x _ _ => hagree x (by omega) (by omega)
    rw [(found_of_mount hmount).2, Initrd.initrdNodeRoot, Initrd.initrdNodeRoot,
      hroot.mode_congr hagree, hroot.size_congr hagree, hhalf 2 (by decide), hhalf 24 (by decide)]
  rw [hnode_eq] at hnode
  have himage₂ := himage'.adds hwrite
  refine ⟨rfl, hwrite, ⟨htree, himage₂.now, himage₂.held, hnode, ?_⟩, s₁, hmalloc, rfl, hout⟩
  refine (AllocRun.Holds.of_new hwrite List.mem_cons_self ?_ fun m' hm' => hnode.congr hm').held
  exact (hwrite.mem_live List.mem_cons_self).2.1

/-- What is mounted stays mounted, whatever the allocator does: the image and the node of the root
are held. -/
theorem Mounted.adds {new : List (Nat × Nat)} (h : fs.Mounted m length root rootPtr s)
    (hadds : fs.Adds Ready new s t) : fs.Mounted m length root rootPtr t where
  tree := h.tree
  agree := (h.holds_image.adds hadds).now
  image_held := (h.holds_image.adds hadds).held
  node := (h.holds_root.adds hadds).now
  node_held := (h.holds_root.adds hadds).held

end

end HeapFs

/-! ## A tree

A small image for the concrete runs of `kopen`.  Its root, its directory and its device have the
same data block, so every path over the names `a` and `d` can be walked, through a directory or
through the device; this is what makes it possible to show with one image how paths of several
lengths and kinds end. -/

/-- An image at `0x1000`.  There are two records in the root: `a` with inode 11, a block device, and
`d` with inode 12, a directory.  Both consist of the data block of the root. -/
def treeImage : Mem := fun x =>
  match x with
  | 0x1438 => 0x53
  | 0x1439 => 0xEF
  | 0x1458 => 128
  | 0x1808 => 8
  | 0x1C00 => 11
  | 0x1C04 => 12
  | 0x1C06 => 1
  | 0x1C08 => 0x61
  | 0x1C0C => 12
  | 0x1C10 => 12
  | 0x1C12 => 1
  | 0x1C14 => 0x64
  | 0x3081 => 0x40
  | 0x3084 => 24
  | 0x30A8 => 3
  | 0x3501 => 0x60
  | 0x3504 => 24
  | 0x3528 => 3
  | 0x3581 => 0x40
  | 0x3584 => 24
  | 0x35A8 => 3
  | _ => 0

/-- The variables of the driver for it. -/
def treeInitrd : Initrd := { start := 0x1000, superblock := 0x1400, inodeTable := 0x3000 }

/-- The root. -/
def treeRoot : FsNode := Initrd.initrdNodeRoot treeImage (treeInitrd.ext2GetInode treeImage 2)

/-- The node of `a`. -/
def treeDevice : FsNode := treeInitrd.foundNode treeImage 0x1C00

/-- The node of `d`. -/
def treeDirectory : FsNode := treeInitrd.foundNode treeImage 0x1C0C

/-- The nodes of the tree. -/
def InTree (node : FsNode) : Prop := node = treeRoot ∨ node = treeDevice ∨ node = treeDirectory

theorem mount_tree :
    Initrd.initrdMount treeImage 0x1000 = .ok (treeInitrd, treeImage, treeRoot) := by
  obtain ⟨root, hmount⟩ : ∃ root, Initrd.initrdMount treeImage 0x1000 =
      .ok (treeInitrd, treeImage, root) :=
    initrdMount_eq (by decide) (by decide) (by decide)
  rw [hmount, (found_of_mount hmount).2]
  rfl

/-- Each of them has the two records. -/
theorem tree_records {node : FsNode} (hnode : InTree node) :
    dirBlock treeInitrd treeImage (treeInitrd.ext2GetInode treeImage node.inode) = 0x1C00 ∧
    Initrd.mode treeImage (treeInitrd.ext2GetInode treeImage node.inode) &&& 0x4000 ≠ 0 ∧
    node.flags &&& fsDirectory ≠ 0 ∧
    InodeInside treeInitrd 0x2600 (treeInitrd.ext2GetInode treeImage node.inode) ∧
    DirRecords treeInitrd treeImage (treeInitrd.ext2GetInode treeImage node.inode) [0, 12] := by
  have hfacts : dirBlock treeInitrd treeImage (treeInitrd.ext2GetInode treeImage node.inode) =
        0x1C00 ∧
      Initrd.mode treeImage (treeInitrd.ext2GetInode treeImage node.inode) &&& 0x4000 ≠ 0 ∧
      node.flags &&& fsDirectory ≠ 0 ∧
      Initrd.size treeImage (treeInitrd.ext2GetInode treeImage node.inode) = 24 ∧
      0x1000 ≤ treeInitrd.ext2GetInode treeImage node.inode ∧
      treeInitrd.ext2GetInode treeImage node.inode + 128 ≤ 0x3600 := by
    rcases hnode with rfl | rfl | rfl <;> decide
  obtain ⟨hblock, hmode, hflags, hsize, hge, hle⟩ := hfacts
  refine ⟨hblock, hmode, hflags, ⟨hge, hle⟩, 24, ?_, hsize.le⟩
  rw [hblock, hsize]
  exact ⟨rfl, by decide, rfl, by decide, show _ = _ by decide⟩

/-- What is found in them. -/
theorem tree_find {node : FsNode} (hnode : InTree node) (name : List UInt8) :
    (treeInitrd.vfs treeImage).finddirFs node name =
      .ok (if name = [0x61] then some treeDevice
        else if name = [0x64] then some treeDirectory else none) := by
  obtain ⟨hblock, hmode, hflags, -, hrecords⟩ := tree_records hnode
  have hfind : treeInitrd.finddirInitrd treeImage node name = _ := finddirInitrd_eq hrecords hmode
  have hfirst : cString (Initrd.entryName treeImage (u32 (0x1C00 + 0))) = [0x61] := by decide
  have hsecond : cString (Initrd.entryName treeImage (u32 (0x1C00 + 12))) = [0x64] := by decide
  rw [Vfs.finddirFs, if_pos ⟨hflags, rfl⟩]
  refine hfind.trans (congrArg Except.ok ?_)
  rw [hblock, List.find?_cons, List.find?_cons, List.find?_nil]
  by_cases ha : name = [0x61]
  · rw [if_pos ha, show hasName treeImage 0x1C00 name 0 = true from
      decide_eq_true (hfirst.trans ha.symm)]
    rfl
  · rw [if_neg ha, show hasName treeImage 0x1C00 name 0 = false from
      decide_eq_false fun h => ha (h.symm.trans hfirst)]
    by_cases hd : name = [0x64]
    · rw [if_pos hd, show hasName treeImage 0x1C00 name 12 = true from
        decide_eq_true (hsecond.trans hd.symm)]
      rfl
    · rw [if_neg hd, show hasName treeImage 0x1C00 name 12 = false from
        decide_eq_false fun h => hd (h.symm.trans hsecond)]
      rfl

/-- What a walk finds is in the tree. -/
theorem inTree_of_lookup {names : List (List UInt8)} {node : FsNode}
    (hfound : (treeInitrd.vfs treeImage).lookup treeRoot names = .ok (some node)) :
    InTree node := by
  refine Vfs.lookup_induction (Or.inl rfl) (fun dir name child hdir hchild => ?_) hfound
  rw [tree_find hdir] at hchild
  split_ifs at hchild
  · cases hchild
    exact Or.inr (Or.inl rfl)
  · cases hchild
    exact Or.inr (Or.inr rfl)
  · cases hchild

theorem tree_inside : TreeInside treeInitrd treeImage 0x2600 treeRoot where
  start_pos := by decide
  superblock := rfl
  superblock_in := by decide
  fits := by decide
  dirs names node hnode _ := by
    obtain ⟨hblock, -, -, hinode, o', hvisits, hout⟩ := tree_records (inTree_of_lookup hnode)
    refine ⟨hinode, fun ps o'' hps p hp => ?_⟩
    rw [hblock]
    have hentry : EntryInside treeInitrd treeImage 0x2600 (u32 (0x1C00 + 0)) ∧
        EntryInside treeInitrd treeImage 0x2600 (u32 (0x1C00 + 12)) :=
      ⟨⟨by decide, by decide, by decide, by decide⟩, ⟨by decide, by decide, by decide, by decide⟩⟩
    rcases List.mem_cons.mp (hvisits.subset hout hps hp) with rfl | hmem
    · exact hentry.1
    · rw [List.mem_singleton.mp hmem]
      exact hentry.2

theorem tree_listed : TreeListed treeInitrd treeImage 2 treeRoot := fun names node hnode _ => by
  obtain ⟨-, hmode, -, -, hrecords⟩ := tree_records (inTree_of_lookup hnode)
  exact ⟨hmode, [0, 12], hrecords, le_rfl⟩

theorem kernelReaddir_ne : (0x101400 : UInt32) ≠ 0 := by
  decide

/-- Where the functions of the driver are in the kernel. -/
def kernelOps : InitrdOps where
  readInitrd := 0x101000
  writeInitrd := 0x101100
  openInitrd := 0x101200
  closeInitrd := 0x101300
  readdirInitrd := 0x101400
  finddirInitrd := 0x101500
  readdir_ne := kernelReaddir_ne

/-- The kernel with 32 MB of memory that has mounted this image. -/
def treeFs : HeapFs Paging SkipRand := ⟨kernelEnv, Paging.heapEnd, kernelOps, treeInitrd⟩

theorem treeFs_fresh : SbrkFresh treeFs.env.sbrk treeFs.heapEnd KernelReady := kernel_sbrk_fresh

theorem treeFs_below : SbrkBelow treeFs.env.sbrk treeFs.heapEnd KernelReady := kernel_sbrk_below

/-- What is needed to call `kopen` for `str` in this kernel: a state that calls of the allocator
have reached, in which the tree is mounted and the string is there, and pages enough for all blocks
that the call will ask for. -/
structure TreeKernel (str : List UInt8) (rootPtr filename : Nat) (s : AllocRun Paging SkipRand) :
    Prop where
  reached : s.Reached kernelEnv Paging.heapEnd KernelReady
  mounted : treeFs.Mounted treeImage 0x2600 treeRoot rootPtr s
  root_ne : rootPtr ≠ 0
  names : treeFs.Names filename str s
  pages : SbrkPages kernelEnv.sbrk 64 s.heap.os

/-- The kernel after its boot, with the image in memory. -/
theorem kernelStart_tree : ∃ os, os.heapEnd = 0x204000 ∧
    ((kernelStart os).withMem treeImage).Start kernelEnv Paging.heapEnd KernelReady := by
  obtain ⟨os, hend, hstart⟩ := kernelStart_start
  refine ⟨os, hend, hstart.binHead, hstart.level, hstart.newestBig, hstart.head_word,
    hstart.head_below, fun i hi => ?_, hstart.heapEnd_lt, hstart.ready, rfl, rfl⟩
  have hzero : ∀ i ≤ 6, read treeImage (.forward 0x110000 i) = 0 := by decide
  exact hzero i hi

/-- **The image can be mounted in this kernel**, and a string written to a block: the state that
this leads to is reached by calls of the allocator. -/
theorem exists_treeKernel (str : List UInt8) (hstr : 0 ∉ str) (hlen : str.length < 2048) :
    ∃ rootPtr filename s, TreeKernel str rootPtr filename s := by
  obtain ⟨os, hend, hstart⟩ := kernelStart_tree
  have hready := hstart.ready
  have hreached := AllocRun.Reached.of_start hstart
  obtain ⟨A, hA⟩ := hreached.inv kernel_sbrk_fresh
  have hpages : SbrkPages kernelEnv.sbrk (64 + 1 + 1) os :=
    KernelReady.pages hready (by rw [hend]; decide)
  -- the image is mounted
  obtain ⟨rootPtr, s₁, hmalloc, hpages₁⟩ := hA.malloc_pages kernel_sbrk_fresh kernel_sbrk_below
    (n := fsNodeSize) (by decide) (by decide) hpages
  have hne := (AllocRun.Adds.malloc_small hA kernel_sbrk_fresh kernel_sbrk_below (by decide)
    (by decide) hmalloc).1
  obtain ⟨s₂, hs₂⟩ : ∃ s₂, s₂ = s₁.withMem (initrdNodeRoot kernelOps s₁.heap.mem
    (treeInitrd.ext2GetInode treeImage 2) rootPtr) := ⟨_, rfl⟩
  have hmount : HeapFs.initrdMount kernelEnv Paging.heapEnd kernelOps 0x1000
      ((kernelStart os).withMem treeImage) = .ok (treeFs, rootPtr, s₂) := by
    rw [HeapFs.initrdMount, show ((kernelStart os).withMem treeImage).heap.mem = treeImage from rfl,
      mount_tree, ok_bind]
    simp only
    rw [show ((kernelStart os).withMem treeImage).withMem treeImage =
      (kernelStart os).withMem treeImage from rfl, hmalloc, ok_bind]
    simp only
    rw [assert_bind hne, hs₂]
    rfl
  obtain ⟨-, hadds, hmounted, s₁', hmalloc', hs₂', hsame⟩ := HeapFs.mounted_of_initrdMount
    kernel_sbrk_fresh kernel_sbrk_below ⟨A, hA⟩
      (fun x _ hlt => ⟨Or.inl (show x < 0x110000 by omega),
      show x < os.heapEnd by rw [hend]; omega, fun p hp => absurd hp List.not_mem_nil⟩)
    mount_tree tree_inside (tree_records (Or.inl rfl)).2.2.2.1 hmount
  cases hmalloc.symm.trans hmalloc'
  have hreached₂ : s₂.Reached kernelEnv Paging.heapEnd KernelReady := by
    rw [hs₂']
    exact (hreached.malloc (hready.valid_small (by decide) (by decide)) hmalloc).write
      (AllocRun.mem_malloc hne hmalloc) hsame
  -- and the string is written
  obtain ⟨B, hB⟩ := hadds.inv
  have hpages₂ : SbrkPages kernelEnv.sbrk (64 + 1) s₂.heap.os := by
    rw [hs₂]
    exact hpages₁
  obtain ⟨filename, s₃, hmalloc₃, hpages₃⟩ := hB.malloc_pages kernel_sbrk_fresh kernel_sbrk_below
    (Nat.succ_pos str.length) hlen hpages₂
  obtain ⟨hne₃, hadds₃⟩ := AllocRun.Adds.malloc_small hB kernel_sbrk_fresh kernel_sbrk_below
    (Nat.succ_pos _) hlen hmalloc₃
  obtain ⟨hlive₃, hlong₃, -⟩ := hadds₃.mem_live List.mem_cons_self
  obtain ⟨m, hm⟩ : ∃ m, m = s₃.heap.mem.storeAll (((str ++ [0]).zipIdx filename).map Prod.swap) :=
    ⟨_, rfl⟩
  have hout : ∀ x, x < filename ∨ filename + (str.length + 1) ≤ x → m x = s₃.heap.mem x := by
    intro x hx
    rw [hm]
    refine Mem.storeAll_of_forall_ne fun w hw => ?_
    obtain ⟨⟨b, a⟩, hab, rfl⟩ := List.mem_map.mp hw
    have hbounds := List.mem_zipIdx hab
    rw [List.length_append, List.length_singleton] at hbounds
    show a ≠ x
    omega
  have hwrite := hadds₃.write List.mem_cons_self (m := m) fun x hx => hout x (by omega)
  have hstring : m.HoldsStr filename str := hm ▸ Mem.holdsStr_storeAll _ _ hstr
  have hholds := AllocRun.Holds.of_new hwrite List.mem_cons_self (k := str.length + 1)
    (hwrite.mem_live List.mem_cons_self).2.1 fun m' hm' =>
      hstring.congr fun i hi => hm' _ (by omega) (by omega)
  obtain ⟨C, hC⟩ := hwrite.inv
  have hend₃ := (hC.live_le (hwrite.mem_live List.mem_cons_self).1).trans_lt
    hC.kept.accounted.heapEnd_lt
  refine ⟨rootPtr, filename, s₃.withMem m, ?_, hmounted.adds hwrite, hne, ⟨hstring, by omega,
    fun i hi => hholds.held _ (by omega) (by omega)⟩, hpages₃⟩
  exact (hreached₂.malloc (hB.ready.valid_small (Nat.succ_pos _) hlen) hmalloc₃).write hlive₃ hout

namespace TreeKernel

variable {path : List UInt8} {rootPtr filename : Nat} {s : AllocRun Paging SkipRand}

/-- A path up to 2048 bytes may be opened. -/
theorem valid (h : TreeKernel (0x2F :: path) rootPtr filename s)
    (hsmall : (0x2F :: path).length ≤ 2048) :
    (KernelCall.kopen filename).Valid kernelEnv Paging.heapEnd s := by
  obtain ⟨A, hA⟩ := h.reached.inv kernel_sbrk_fresh
  have hle := hA.ready.heapEnd_le
  have hpos : 0 < (0x2F :: path).length := Nat.succ_pos _
  refine ⟨_, strlen_eq h.names.string h.names.fits, hpos, fun _ => ?_⟩
  rw [sbrkIncrement, if_pos ((klmallocBinSize_spec hpos).1.mpr hsmall)]
  omega

/-- There is room for its terminator unless it is as long as a block. -/
theorem terminatorFits (h : TreeKernel (0x2F :: path) rootPtr filename s)
    (hsmall : (0x2F :: path).length ≤ 2048)
    (hne : (0x2F :: path).length ≠ 2 ^ (2 + klmallocBinSize (0x2F :: path).length)) :
    (KernelCall.kopen filename).TerminatorFits s := by
  intro pathLen hlen
  cases (strlen_eq h.names.string h.names.fits).symm.trans hlen
  exact ⟨fun _ => hne, fun hlarge => absurd hsmall (Nat.not_le.mpr hlarge)⟩

/-- **`kopen` in this kernel** returns, and walks along the names of the path.  What is asked of the
path is that its copy is a small block with room for the terminator, and that there are pages for
the walk. -/
theorem kopen (h : TreeKernel (0x2F :: path) rootPtr filename s)
    (hsmall : (0x2F :: path).length ≤ 2048)
    (hne : (0x2F :: path).length ≠ 2 ^ (2 + klmallocBinSize (0x2F :: path).length))
    (hdepth : (path.splitOn 0x2F).length * 3 + 1 ≤ 64) :
    ∃ nodePtr t, treeFs.kopen rootPtr filename s = .ok (nodePtr, t) ∧
      ∃ passed copy found,
        (treeInitrd.vfs treeImage).Walked treeRoot (path.splitOn 0x2F) passed.length found ∧
        treeFs.Finds KernelReady (passed ++ copy) s found nodePtr t ∧
        (found = none ∧ copy = [] ∨ ∃ child ptr, found = some child ∧
          copy = [(ptr, (0x2F :: path).length)]) := by
  have hlen := strlen_eq h.names.string h.names.fits
  have hfit := h.terminatorFits hsmall hne _ hlen
  have hpages : SbrkPages kernelEnv.sbrk ((path.splitOn 0x2F).length * (2 + 1) + 1) s.heap.os :=
    h.pages.mono hdepth
  have hinv := h.reached.inv kernel_sbrk_fresh
  obtain ⟨nodePtr, t, hreturns⟩ := HeapFs.kopen_returns treeFs_fresh treeFs_below tree_inside
    tree_listed h.root_ne hinv h.mounted.holds_image h.mounted.holds_root h.names.holds
    h.names.fits hsmall hfit hpages
  obtain ⟨pathLen, hlen', -, hgrows⟩ := h.valid hsmall
  cases hlen.symm.trans hlen'
  exact ⟨nodePtr, t, hreturns, HeapFs.kopen_spec treeFs_fresh treeFs_below tree_inside hinv
    h.mounted.holds_image h.mounted.holds_root h.names.holds h.names.fits hgrows hfit hreturns⟩

end TreeKernel

end MyaXOS
