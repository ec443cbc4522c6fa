import MyaXOS.Ext2.Mounted
import MyaXOS.Ext2.Types

/-!
# What `kopen` walks through

A path should lead through directories.  `finddir_fs` and `finddir_initrd` look at a flag before
they look a name up, and `Ext2/Types.lean` says which types of inodes have this flag: that of a
directory and seven more.  This file says what follows for the nodes that `kopen` returns.

* `Mistakes` says that some type on a path is taken for that of a directory.
* `WalksDirectories` is what should be true of a node that is returned.
* `kopen_types_iff` says that it is true if no type is mistaken, and, for a path whose copy has
  room, only then.

The walk is that of `kopen` on the heap, from a state that a run of calls has reached.  By
`kopen_spec` it passes the nodes that the walk in the image passes, so that the theorem is about the
image and about two nodes: the one that the walk ends at, and the one in memory that is returned.
They have the same flags and the same inode, since one is a copy of the other.

`directories_iff` is the part about the image.  A node on the way has been looked into, so it has
the flag, and then being a directory is the same as having no other bit of the type.  For the node
at the end there are two tests that have to be compared, that of `readdir_fs` and the type, and they
differ for the type `0x5000` only.

Why the copy has to have room is said in `Ext2/Kopen.lean`: without it, what is walked along is not
the path.
-/

set_option autoImplicit false

namespace MyaXOS

variable {σ ρ : Type}

/-- The test of `readdir_fs`, on a node in memory. -/
def Accepted (m : Mem) (node : Nat) : Prop :=
  fsNodeFlags m node &&& 0x07 = fsDirectory ∧ fsNodeReaddir m node ≠ 0

theorem HoldsNode.accepted_iff {ops : InitrdOps} {g : Initrd} {m m' : Mem} {node : Nat} {v : FsNode}
    (h : HoldsNode ops m' node v) : Accepted m' node ↔ (g.vfs m).Accepts v := by
  have hreaddir : fsNodeReaddir m' node ≠ 0 := by
    rw [h.readdirInitrd]
    exact fun h => ops.readdir_ne (UInt32.toNat_inj.mp h)
  rw [Accepted, h.flags, and_iff_left hreaddir]
  exact (and_iff_left rfl).symm

/-- Some type is taken for that of a directory on the walk along the names: an inode on the way has
the bit of a directory and another bit of the type, or the inode at the end is of the type `0x5000`.
-/
def Mistakes (g : Initrd) (m : Mem) (root : FsNode) (names : List (List UInt8)) : Prop :=
  ∃ node, (g.vfs m).lookup root names = .ok (some node) ∧
    ((∃ dir, (g.vfs m).Descends root names dir ∧ g.modeOf m dir &&& 0x4000 ≠ 0 ∧
      g.modeOf m dir &&& 0xB000 ≠ 0) ∨ g.modeOf m node &&& 0xF000 = 0x5000)

/-- All that is looked into on the way to `node` is a directory exactly if no type is mistaken. -/
theorem directories_iff {g : Initrd} {m₀ m : Mem} {memHead : Nat} {root node : FsNode}
    {names : List (List UInt8)} (hmount : Initrd.initrdMount m₀ memHead = .ok (g, m, root))
    (hfound : (g.vfs m).lookup root names = .ok (some node)) :
    ((∀ dir, (g.vfs m).Descends root names dir → g.IsDirectory m dir) ∧
      ((g.vfs m).Accepts node ↔ g.IsDirectory m node)) ↔ ¬ Mistakes g m root names := by
  have hdescends : (∀ dir, (g.vfs m).Descends root names dir → g.IsDirectory m dir) ↔
      ¬ ∃ dir, (g.vfs m).Descends root names dir ∧ g.modeOf m dir &&& 0x4000 ≠ 0 ∧
        g.modeOf m dir &&& 0xB000 ≠ 0 := by
    rw [not_exists]
    refine forall_congr' fun dir => ?_
    rw [not_and]
    refine imp_congr_right fun hdir => ?_
    have hflagged : Flagged g m dir := by
      obtain ⟨before, -, -, -, hbefore⟩ := hdir
      exact flagged_of_lookup hmount hbefore
    obtain ⟨name, child, hchild⟩ := hdir.finds hfound
    have hbit := bit_of_found hflagged hchild
    rw [Initrd.IsDirectory, type_eq_directory _ hbit, not_and_not_right]
    exact ⟨fun hzero _ => hzero, fun hzero => hzero hbit⟩
  have haccepts : ((g.vfs m).Accepts node ↔ g.IsDirectory m node) ↔
      g.modeOf m node &&& 0xF000 ≠ 0x5000 := by
    rw [accepts_iff (flagged_of_lookup hmount hfound)]
    constructor
    · intro hiff hpipe
      have hdirectory := hiff.mp (Or.inr hpipe)
      rw [Initrd.IsDirectory, hpipe] at hdirectory
      exact absurd hdirectory (by decide)
    · intro hpipe
      exact or_iff_left hpipe
  rw [hdescends, haccepts, ← not_or, Mistakes]
  refine not_congr ⟨fun hbad => ⟨node, hfound, hbad⟩, ?_⟩
  rintro ⟨node', hfound', hbad⟩
  cases hfound.symm.trans hfound'
  exact hbad

/-- What the walk of `kopen` promises of a node that is returned: all that it has looked into is a
directory, and `readdir_fs` accepts the node exactly if its inode is one. -/
def WalksDirectories (fs : HeapFs σ ρ) (m : Mem) (root : FsNode) (names : List (List UInt8))
    (nodePtr : Nat) (t : AllocRun σ ρ) : Prop :=
  nodePtr ≠ 0 →
    (∀ dir, (fs.g.vfs m).Descends root names dir → fs.g.IsDirectory m dir) ∧
    (Accepted t.heap.mem nodePtr ↔
      Initrd.mode m (fs.g.ext2GetInode m (fsNodeInode t.heap.mem nodePtr)) &&& 0xF000 = 0x4000)

/-- **`kopen` walks through directories only, as long as no type is taken for that of a directory.**
Let it return, in a reached state with a mounted tree, for an absolute path whose copy has room for
its terminator. -/
theorem kopen_types_iff (fs : HeapFs σ ρ) (Ready : σ → Prop)
    (hsbrk : SbrkFresh fs.env.sbrk fs.heapEnd Ready)
    (hbelow : SbrkBelow fs.env.sbrk fs.heapEnd Ready)
    (m₀ m : Mem) (memHead length : Nat) (root : FsNode) (rootPtr : Nat) (s t : AllocRun σ ρ)
    (hmount : Initrd.initrdMount m₀ memHead = .ok (fs.g, m, root))
    (hreached : s.Reached fs.env fs.heapEnd Ready) (hmounted : fs.Mounted m length root rootPtr s)
    (filename : Nat) (path : List UInt8) (hnames : fs.Names filename (0x2F :: path) s)
    (hvalid : (KernelCall.kopen filename).Valid fs.env fs.heapEnd s) (nodePtr : Nat)
    (hreturns : fs.kopen rootPtr filename s = .ok (nodePtr, t)) :
    ((KernelCall.kopen filename).TerminatorFits s ∧ ¬ Mistakes fs.g m root (path.splitOn 0x2F) →
      WalksDirectories fs m root (path.splitOn 0x2F) nodePtr t) ∧
    ((KernelCall.kopen filename).TerminatorFits s →
      WalksDirectories fs m root (path.splitOn 0x2F) nodePtr t →
        ¬ Mistakes fs.g m root (path.splitOn 0x2F)) := by
  have hlen := strlen_eq hnames.string hnames.fits
  obtain ⟨pathLen, hlen', -, hgrows⟩ := hvalid
  cases hlen.symm.trans hlen'
  have hiff : (KernelCall.kopen filename).TerminatorFits s →
      (WalksDirectories fs m root (path.splitOn 0x2F) nodePtr t ↔
        ¬ Mistakes fs.g m root (path.splitOn 0x2F)) := fun hfit => by
    obtain ⟨passed, copy, found, hwalked, hfinds, -⟩ := HeapFs.kopen_spec hsbrk hbelow
      hmounted.tree (hreached.inv hsbrk) hmounted.holds_image hmounted.holds_root hnames.holds
      hnames.fits hgrows (hfit _ hlen) hreturns
    cases found with
    | none =>
      refine iff_of_true (fun hne => absurd hfinds.1 hne) ?_
      rintro ⟨node, hnode, -⟩
      cases hwalked.lookup_eq.symm.trans hnode
    | some node =>
      obtain ⟨hne, -, hnode⟩ := hfinds
      rw [WalksDirectories, forall_prop_of_true hne, hnode.now.accepted_iff, hnode.now.inode,
        ← directories_iff hmount hwalked.lookup_eq]
      rfl
  exact ⟨fun hcond => (hiff hcond.1).mpr hcond.2, fun hfit => (hiff hfit).mp⟩

/-- On the way along directories there are directories only. -/
theorem descends_tree {names : List (List UInt8)} {dir : FsNode}
    (hnames : ∀ name ∈ names.dropLast, name = [0x64])
    (hdir : (treeInitrd.vfs treeImage).Descends treeRoot names dir) :
    dir = treeRoot ∨ dir = treeDirectory := by
  have hwalk : ∀ (before : List (List UInt8)) (node : FsNode), (∀ name ∈ before, name = [0x64]) →
      node = treeRoot ∨ node = treeDirectory →
      (treeInitrd.vfs treeImage).lookup node before = .ok (some dir) →
      dir = treeRoot ∨ dir = treeDirectory := by
    intro before
    induction before with
    | nil =>
      intro node _ hnode hfound
      cases hfound
      exact hnode
    | cons name before ih =>
      intro node hbefore hnode hfound
      rw [Vfs.lookup, tree_find (hnode.imp_right Or.inr), ok_bind,
        hbefore name List.mem_cons_self] at hfound
      exact ih treeDirectory (fun n hn => hbefore n (List.mem_cons_of_mem _ hn)) (Or.inr rfl) hfound
  obtain ⟨before, name, after, rfl, hbefore⟩ := hdir
  refine hwalk before treeRoot (fun n hn => hnames n ?_) (Or.inl rfl) hbefore
  rw [List.dropLast_append_cons]
  exact List.mem_append_left _ hn

/-- `kopen("/d/d/a")` walks through the root and `d`, and returns the node of `a`. -/
theorem kopen_types_dda : ∃ rootPtr filename s nodePtr t,
    TreeKernel (ascii "/d/d/a") rootPtr filename s ∧
    treeFs.kopen rootPtr filename s = .ok (nodePtr, t) ∧ nodePtr ≠ 0 ∧
    WalksDirectories treeFs treeImage treeRoot [[0x64], [0x64], [0x61]] nodePtr t := by
  have hpath : ascii "/d/d/a" = 0x2F :: [0x64, 0x2F, 0x64, 0x2F, 0x61] := by decide
  have hsplit : ([0x64, 0x2F, 0x64, 0x2F, 0x61] : List UInt8).splitOn 0x2F =
      [[0x64], [0x64], [0x61]] := by decide
  have hfound : (treeInitrd.vfs treeImage).lookup treeRoot [[0x64], [0x64], [0x61]] =
      .ok (some treeDevice) := by
    rw [Vfs.lookup, tree_find (Or.inl rfl), ok_bind]
    simp only [show ¬ ([0x64] : List UInt8) = [0x61] by decide, if_false, if_true]
    rw [Vfs.lookup, tree_find (Or.inr (Or.inr rfl)), ok_bind]
    simp only [show ¬ ([0x64] : List UInt8) = [0x61] by decide, if_false, if_true]
    rw [Vfs.lookup_singleton, tree_find (Or.inr (Or.inr rfl)), if_pos rfl]
  obtain ⟨rootPtr, filename, s, hkernel⟩ := exists_treeKernel (ascii "/d/d/a") (by decide)
    (by decide)
  have h := hpath ▸ hkernel
  obtain ⟨nodePtr, t, hreturns, passed, copy, found, hwalked, hfinds, -⟩ :=
    h.kopen (by decide) (by decide) (by decide)
  rw [hsplit] at hwalked
  cases hwalked.lookup_eq.symm.trans hfound
  refine ⟨rootPtr, filename, s, nodePtr, t, hkernel, hreturns, hfinds.1, ?_⟩
  rw [← hsplit]
  refine (kopen_types_iff treeFs KernelReady treeFs_fresh treeFs_below treeImage treeImage 0x1000
    0x2600 treeRoot rootPtr s t mount_tree h.reached h.mounted filename _ h.names
    (h.valid (by decide)) nodePtr hreturns).1 ⟨h.terminatorFits (by decide) (by decide), ?_⟩
  rw [hsplit]
  rintro ⟨node, hnode, hbad⟩
  cases hnode.symm.trans hfound
  rcases hbad with ⟨dir, hdir, -, hbits⟩ | hpipe
  · rcases descends_tree (by decide) hdir with rfl | rfl <;> exact hbits (by decide)
  · exact absurd hpipe (by decide)

/-- `kopen("/a/a/a")` walks through the block device `a`. -/
theorem not_types :
    Initrd.initrdMount treeImage 0x1000 = .ok (treeInitrd, treeImage, treeRoot) ∧
    ∃ rootPtr filename s nodePtr t, TreeKernel (ascii "/a/a/a") rootPtr filename s ∧
      (KernelCall.kopen filename).Valid kernelEnv Paging.heapEnd s ∧
      treeFs.kopen rootPtr filename s = .ok (nodePtr, t) ∧ nodePtr ≠ 0 ∧
      (treeInitrd.vfs treeImage).Descends treeRoot [[0x61], [0x61], [0x61]] treeDevice ∧
      treeInitrd.modeOf treeImage treeDevice &&& 0xF000 = 0x6000 ∧
      ¬ WalksDirectories treeFs treeImage treeRoot [[0x61], [0x61], [0x61]] nodePtr t := by
  have hpath : ascii "/a/a/a" = 0x2F :: [0x61, 0x2F, 0x61, 0x2F, 0x61] := by decide
  have hsplit : ([0x61, 0x2F, 0x61, 0x2F, 0x61] : List UInt8).splitOn 0x2F =
      [[0x61], [0x61], [0x61]] := by decide
  have hfirst : (treeInitrd.vfs treeImage).lookup treeRoot [[0x61]] = .ok (some treeDevice) := by
    rw [Vfs.lookup_singleton, tree_find (Or.inl rfl), if_pos rfl]
  have hfound : (treeInitrd.vfs treeImage).lookup treeRoot [[0x61], [0x61], [0x61]] =
      .ok (some treeDevice) := by
    rw [Vfs.lookup, tree_find (Or.inl rfl), if_pos rfl, ok_bind]
    simp only
    rw [Vfs.lookup, tree_find (Or.inr (Or.inl rfl)), if_pos rfl, ok_bind]
    simp only
    rw [Vfs.lookup_singleton, tree_find (Or.inr (Or.inl rfl)), if_pos rfl]
  obtain ⟨rootPtr, filename, s, hkernel⟩ := exists_treeKernel (ascii "/a/a/a") (by decide)
    (by decide)
  have h := hpath ▸ hkernel
  obtain ⟨nodePtr, t, hreturns, passed, copy, found, hwalked, hfinds, -⟩ :=
    h.kopen (by decide) (by decide) (by decide)
  rw [hsplit] at hwalked
  cases hwalked.lookup_eq.symm.trans hfound
  have hdescends : (treeInitrd.vfs treeImage).Descends treeRoot [[0x61], [0x61], [0x61]]
      treeDevice := ⟨[[0x61]], [0x61], [[0x61]], rfl, hfirst⟩
  refine ⟨mount_tree, rootPtr, filename, s, nodePtr, t, hkernel, h.valid (by decide), hreturns,
    hfinds.1, hdescends, by decide, fun hwalks => ?_⟩
  have hdirectory := (hwalks hfinds.1).1 treeDevice hdescends
  rw [Initrd.IsDirectory] at hdirectory
  exact absurd hdirectory (by decide)

end MyaXOS
