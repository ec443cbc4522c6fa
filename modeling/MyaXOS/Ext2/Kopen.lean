import MyaXOS.Alloc.Adds
import MyaXOS.Ext2.Node
import MyaXOS.Ext2.Tree

/-!
# `kopen` on the heap

`kopen` walks from the root along the names of a path.  On its way it uses the heap all the time:
for its copy of the path, for a copy of the name of every record that is compared, and for the node
of every record that is found.  Here it is with all its calls of `malloc` and `free`, on the memory
of the allocator, and it reads each name and each field of a node from this memory when it needs it.

## Why it is modelled like this

A walk through a tree that is given as a function (`Vfs.kopen`) does not depend on the heap, and for
most questions this is right: what is found depends on the image and on the names.  But it supposes
that the names stay what they are while the walk goes on, and with this code they need not.  The
terminator of the copy is written behind the bytes that were asked for.  If the block is exactly as
long as the path, then this byte belongs to the block behind it, and the copy of the first name may
be put there.  From then on the last name of the path goes on into what has been written there.  So
it has to be proved that the walk sees the names of the path, and it is true only if the copy has
room (`TerminatorFits`).

## What is proved

* `copied`: after a name of the directory has been copied, both it and the name that is looked for
  can be read back.  This is where the blocks have to be apart.
* `finddirLoop_spec`, `finddirInitrd_spec`, `finddirFs_spec`: a lookup on the heap finds the record
  that the lookup in the image finds, and leaves one block, with its node, or none (`Finds`).
* `walkLoop_spec`: the walk passes the nodes that `Vfs.lookup` passes (`Walked`), and leaves a block
  for each.
* `kopen_spec` is the result for the whole function, and `kopen_of_step` says that what comes before
  the walk is the call `KernelCall.kopen` of the allocator's runs.

## Why it works

All of these say the same of the heap: some blocks have been added, and what was held is what it was
(`AllocRun.Adds`).  The image, the name that is looked for, the copy of the path and the node that
is looked into are all held, outside the heap or in a block, so they are the same after each call,
and the addresses that are computed from the image do not change either (`Ext2/Tree.lean`).  Each
proof goes through the calls of its function in their order, and composes what they add with
`Adds.trans`.  The loop over the records is by induction on the fuel; the walk is by induction on
the names that are left, and its invariant is that the copy of the path is held and that the cursor
is at the beginning of a name.
-/

set_option autoImplicit false

namespace MyaXOS

variable {σ ρ : Type}

/-- What `kopen` runs on: the allocator, and the variables and functions of the driver.  The
addresses of the functions matter, because nodes have pointers to them and `finddir_fs` tests one
for `NULL`. -/
structure HeapFs (σ ρ : Type) where
  env : AllocEnv σ ρ
  heapEnd : σ → Nat
  ops : InitrdOps
  g : Initrd

namespace HeapFs

/-! ## The functions

The functions of `vfs.c` and of the driver as programs on the state of the allocator.  Where the
source has a `malloc`, here is one; strings and nodes are addresses, and what they stand for is read
from memory when the code reads it. -/

/-- The `while` loop of `finddir_initrd`, for the string at `name`: the record, or `NULL`. -/
def finddirLoop (fs : HeapFs σ ρ) (inode block name : Nat) :
    Nat → Nat → AllocRun σ ρ → Except Stop (Nat × AllocRun σ ρ)
  | 0, _, _ => .error .spin
  | fuel + 1, dirOffset, s =>
    if dirOffset < Initrd.size s.heap.mem inode then do
      let dEnt := u32 (block + dirOffset)
      let (dname, s) ← s.malloc fs.env fs.heapEnd (Initrd.nameLen s.heap.mem dEnt + 1)
      let s := s.withMem (copyName s.heap.mem dname dEnt)
      let copy ← string s.heap.mem dname
      let wanted ← string s.heap.mem name
      if strcmp copy wanted = 0 then do
        let s ← s.free fs.env dname
        .ok (dEnt, s)
      else do
        let s ← s.free fs.env dname
        fs.finddirLoop inode block name fuel
          (u32 (dirOffset + Initrd.recLen s.heap.mem dEnt)) s
    else .ok (0, s)

/-- `finddir_initrd(node, name)`. -/
def finddirInitrd (fs : HeapFs σ ρ) (node name : Nat) (s : AllocRun σ ρ) :
    Except Stop (Nat × AllocRun σ ρ) := do
  let inode := fs.g.ext2GetInode s.heap.mem (fsNodeInode s.heap.mem node)
  assert (Initrd.mode s.heap.mem inode &&& 0x4000 ≠ 0) "inode->mode & EXT2_S_IFDIR"
  let block := fs.g.ext2GetInodeBlock s.heap.mem inode 0
  let (direntry, s) ← fs.finddirLoop inode block name dirFuel 0 s
  if direntry = 0 then .ok (0, s)
  else do
    let (outnode, s) ← s.malloc fs.env fs.heapEnd fsNodeSize
    let inode := fs.g.ext2GetInode s.heap.mem (Initrd.entryInode s.heap.mem direntry)
    .ok (outnode, s.withMem (initrdNodeFromFile fs.ops s.heap.mem inode direntry outnode))

/-- `finddir_fs(node, name)`. -/
def finddirFs (fs : HeapFs σ ρ) (node name : Nat) (s : AllocRun σ ρ) :
    Except Stop (Nat × AllocRun σ ρ) :=
  if fsNodeFlags s.heap.mem node &&& fsDirectory ≠ 0 ∧ fsNodeReaddir s.heap.mem node ≠ 0 then
    if fsNodeFinddir s.heap.mem node = fs.ops.finddirInitrd.toNat then fs.finddirInitrd node name s
    else .error (.wildCall (fsNodeFinddir s.heap.mem node))
  else .ok (0, s)

/-- `open_fs(node, read, write)`.  The driver's function for it is empty. -/
def openFs (fs : HeapFs σ ρ) (node : Nat) (s : AllocRun σ ρ) : Except Stop (AllocRun σ ρ) :=
  if fsNodeOpen s.heap.mem node ≠ 0 then
    if fsNodeOpen s.heap.mem node = fs.ops.openInitrd.toNat then .ok s
    else .error (.wildCall (fsNodeOpen s.heap.mem node))
  else .ok s

/-- The `for` loop of `kopen`, with `left` rounds to go. -/
def walkLoop (fs : HeapFs σ ρ) :
    Nat → Nat → Nat → AllocRun σ ρ → Except Stop (Nat × AllocRun σ ρ)
  | 0, _, _, s => .ok (0, s)
  | left + 1, pathOffset, nodePtr, s => do
    let (nodePtr, s) ← fs.finddirFs nodePtr pathOffset s
    if nodePtr = 0 then .ok (0, s)
    else if left = 0 then do
      let s ← fs.openFs nodePtr s
      .ok (nodePtr, s)
    else do
      let len ← strlen s.heap.mem pathOffset
      fs.walkLoop left (u32 (pathOffset + (len + 1))) nodePtr s

/-- `kopen(filename, flags)`, with `fs_root`. -/
def kopen (fs : HeapFs σ ρ) (fsRoot filename : Nat) (s : AllocRun σ ρ) :
    Except Stop (Nat × AllocRun σ ρ) :=
  if fsRoot = 0 then
    .error (.halt "Attempted to kopen() without a filesystem in place.")
  else if (if s.heap.mem filename = 0 then 1 else 0) = 0x2F then
    .error (.halt "Attempted to kopen() a non-absolute path.")
  else do
    let pathLen ← strlen s.heap.mem filename
    let (path, s) ← s.malloc fs.env fs.heapEnd pathLen
    let (m, pathDepth) := Vfs.copyPath s.heap.mem path filename pathLen
    let (nodePtr, s) ← fs.walkLoop pathDepth (u32 (path + 1)) fsRoot (s.withMem m)
    if nodePtr = 0 then do
      let s ← s.free fs.env path
      .ok (0, s)
    else .ok (nodePtr, s)

/-! ## What they do

Each function is compared with the one on trees, which has the same name in `Vfs` and `Initrd`.  The
hypotheses say what is held when it is called, and the conclusion is that what the function on trees
returns is what is found, together with the blocks that have been added.  The state at the end is
not described otherwise: that all else is as it was is `Adds`. -/

/-- From `s` to `t` the blocks `new` have been added, and what was held is what it was. -/
abbrev Adds (fs : HeapFs σ ρ) (Ready : σ → Prop) (new : List (Nat × Nat)) (s t : AllocRun σ ρ) :
    Prop :=
  AllocRun.Adds fs.env fs.heapEnd Ready new s t

/-- The image of `m` is held. -/
abbrev HoldsImage (fs : HeapFs σ ρ) (m : Mem) (length : Nat) (s : AllocRun σ ρ) : Prop :=
  s.Holds fs.env fs.heapEnd fs.g.start length (Agree fs.g length m)

/-- The string `w` is held, at `a`. -/
abbrev HoldsString (fs : HeapFs σ ρ) (a : Nat) (w : List UInt8) (s : AllocRun σ ρ) : Prop :=
  s.Holds fs.env fs.heapEnd a (w.length + 1) fun m => m.HoldsStr a w

/-- The node `v` is held, at `node`. -/
abbrev HoldsFsNode (fs : HeapFs σ ρ) (node : Nat) (v : FsNode) (s : AllocRun σ ρ) : Prop :=
  s.Holds fs.env fs.heapEnd node fsNodeSize fun m => HoldsNode fs.ops m node v

/-- A lookup has found `found`, and has left the blocks `passed` in use besides its node, which is
at `node`. -/
def Finds (fs : HeapFs σ ρ) (Ready : σ → Prop) (passed : List (Nat × Nat)) (s : AllocRun σ ρ) :
    Option FsNode → Nat → AllocRun σ ρ → Prop
  | none, node, t => node = 0 ∧ fs.Adds Ready passed s t
  | some v, node, t =>
    node ≠ 0 ∧ fs.Adds Ready ((node, fsNodeSize) :: passed) s t ∧ fs.HoldsFsNode node v t

section
variable {fs : HeapFs σ ρ} {Ready : σ → Prop} {s t : AllocRun σ ρ} {m : Mem}
  {length inode block name dEnt dname direntry node : Nat} {v : FsNode} {w : List UInt8}

/-! ### The copy of a name

The block that `finddir_initrd` takes has a byte more than the name, for the NUL, so this copy
always has room.  What is compared is the copy and not the record, so it has to be shown that the
copy is the name: it is written to a new block, and the record it is copied from is in the image,
which is held and so is not in the block. -/

/-- The string in a buffer is there, up to the first NUL. -/
theorem holdsStr_cString {a : Nat} {buffer : List UInt8}
    (hbyte : ∀ i (hi : i < buffer.length), m (a + i) = buffer[i]) (hnul : 0 ∈ buffer) :
    m.HoldsStr a (cString buffer) := by
  induction buffer generalizing a with
  | nil => exact absurd hnul List.not_mem_nil
  | cons c buffer ih =>
    have hhead : m a = c := hbyte 0 (Nat.succ_pos _)
    by_cases hc : c = 0
    · have hempty : cString (c :: buffer) = [] := List.takeWhile_cons_of_neg (by simp [hc])
      rw [hempty]
      exact ⟨fun i hi => absurd hi (Nat.not_lt_zero i), hhead.trans hc, List.not_mem_nil⟩
    · have hcons : cString (c :: buffer) = c :: cString buffer :=
        List.takeWhile_cons_of_pos (by simp [hc])
      have hrest := ih (a := a + 1) (fun i hi => by
        rw [show a + 1 + i = a + (i + 1) by omega]
        exact hbyte (i + 1) (Nat.succ_lt_succ hi))
        ((List.mem_cons.mp hnul).resolve_left (Ne.symm hc))
      rw [hcons]
      refine ⟨fun i hi => ?_, ?_, ?_⟩
      · rcases i with _ | i
        · exact hhead
        · rw [show a + (i + 1) = a + 1 + i by omega]
          exact hrest.byte i (Nat.lt_of_succ_lt_succ hi)
      · rw [List.length_cons, show a + ((cString buffer).length + 1) =
          a + 1 + (cString buffer).length by omega]
        exact hrest.terminator
      · rw [List.mem_cons, not_or]
        exact ⟨Ne.symm hc, hrest.nonzero⟩

/-- **One round of the loop**, up to the comparison: the copy is the name of the record. -/
theorem copied (hsbrk : SbrkFresh fs.env.sbrk fs.heapEnd Ready)
    (hbelow : SbrkBelow fs.env.sbrk fs.heapEnd Ready)
    (hinv : ∃ A, s.Inv fs.env fs.heapEnd Ready A) (htree : TreeInside fs.g m length v)
    (himage : fs.HoldsImage m length s) (hname : fs.HoldsString name w s)
    (hfits : name + w.length < 0x100000000) (hentry : EntryInside fs.g m length dEnt)
    (hmalloc : s.malloc fs.env fs.heapEnd (Initrd.nameLen s.heap.mem dEnt + 1) = .ok (dname, t)) :
    fs.Adds Ready [(dname, Initrd.nameLen m dEnt + 1)] s
      (t.withMem (copyName t.heap.mem dname dEnt)) ∧
    string (t.withMem (copyName t.heap.mem dname dEnt)).heap.mem dname =
      .ok (cString (Initrd.entryName m dEnt)) ∧
    string (t.withMem (copyName t.heap.mem dname dEnt)).heap.mem name = .ok w := by
  obtain ⟨A, hA⟩ := hinv
  have hlt := nameLen_lt m dEnt
  rw [hentry.nameLen_congr himage.now] at hmalloc
  obtain ⟨-, hadds⟩ := AllocRun.Adds.malloc_small hA hsbrk hbelow (Nat.succ_pos _) (by omega)
    hmalloc
  obtain ⟨hlive, hlong, -⟩ := hadds.mem_live List.mem_cons_self
  obtain ⟨B, hB⟩ := hadds.inv
  have hend := (hB.end_le hlive).trans_lt hB.kept.accounted.heapEnd_lt
  have hagree := (himage.adds hadds).now
  have happart := himage.apart (by have := htree.superblock_in; omega) hadds List.mem_cons_self
    (by omega)
  have hge := hentry.ge
  have hle := hentry.le
  have hspec := copyName_spec t.heap.mem dname dEnt
  rw [hentry.nameLen_congr hagree, hentry.entryName_congr hagree htree.fits] at hspec
  obtain ⟨hbytes, hout⟩ := hspec (by omega) (by omega) (by have := htree.fits; omega)
  have hwrite := hadds.write List.mem_cons_self (m := copyName t.heap.mem dname dEnt)
    fun x hx => hout x (by omega)
  refine ⟨hwrite, string_eq (holdsStr_cString hbytes ?_) ?_, string_eq
    (hname.adds hwrite).now hfits⟩
  · simp [Initrd.entryName]
  · have hshort : (cString (Initrd.entryName m dEnt)).length ≤ (Initrd.entryName m dEnt).length :=
      (List.takeWhile_sublist _).length_le
    rw [length_entryName] at hshort
    omega

/-- **The loop gives back every copy of a name**, and finds the record that is in the image.  The
name that is looked for is held, so it is the same in every round. -/
theorem finddirLoop_spec (hsbrk : SbrkFresh fs.env.sbrk fs.heapEnd Ready)
    (hbelow : SbrkBelow fs.env.sbrk fs.heapEnd Ready) (htree : TreeInside fs.g m length v)
    (hinode : InodeInside fs.g length inode) (hfits : name + w.length < 0x100000000)
    {fuel dirOffset : Nat} (hinv : ∃ A, s.Inv fs.env fs.heapEnd Ready A)
    (himage : fs.HoldsImage m length s) (hname : fs.HoldsString name w s)
    (hentries : EntriesInside fs.g m length block (Initrd.size m inode) dirOffset)
    (hok : fs.finddirLoop inode block name fuel dirOffset s = .ok (direntry, t)) :
    fs.Adds Ready [] s t ∧
      ∃ found, Initrd.finddirLoop m block (Initrd.size m inode) w fuel dirOffset = .ok found ∧
        (found = none ∧ direntry = 0 ∨
          found = some direntry ∧ EntryInside fs.g m length direntry) := by
  induction fuel generalizing dirOffset s with
  | zero => cases hok
  | succ fuel ih =>
    rw [finddirLoop, hinode.size_congr himage.now] at hok
    rw [Initrd.finddirLoop]
    by_cases hlt : dirOffset < Initrd.size m inode
    · rw [if_pos hlt] at hok ⊢
      have hentry := hentries.head hlt
      obtain ⟨⟨dname, s₁⟩, hmalloc, hok⟩ := bind_eq_ok hok
      obtain ⟨hadds, hcopy, hwanted⟩ := copied hsbrk hbelow hinv htree himage hname hfits hentry
        hmalloc
      simp only at hok
      rw [hcopy, ok_bind, hwanted, ok_bind] at hok
      by_cases heq : strcmp (cString (Initrd.entryName m (u32 (block + dirOffset)))) w = 0
      · rw [if_pos heq] at hok ⊢
        obtain ⟨s₂, hfree, hok⟩ := bind_eq_ok hok
        cases hok
        exact ⟨hadds.free_single hfree, _, rfl, Or.inr ⟨rfl, hentry⟩⟩
      · rw [if_neg heq] at hok ⊢
        obtain ⟨s₂, hfree, hok⟩ := bind_eq_ok hok
        have hgone : fs.Adds Ready [] s s₂ := hadds.free_single hfree
        have himage' := himage.adds hgone
        rw [hentry.recLen_congr himage'.now] at hok
        obtain ⟨hrest, hfound⟩ := ih hgone.inv himage' (hname.adds hgone) (hentries.next hlt) hok
        exact ⟨hgone.trans hrest, hfound⟩
    · rw [if_neg hlt] at hok ⊢
      cases hok
      obtain ⟨A, hA⟩ := hinv
      exact ⟨AllocRun.Adds.refl hA, none, rfl, Or.inl ⟨rfl, rfl⟩⟩

/-! ### The driver

A node is found in memory by its functions: `HoldsNode` says that they are those of the driver, so
that `finddir_fs` calls `finddir_initrd`.  The node that is returned is a new block, and is filled
in from an inode in the image. -/

/-- **`finddir_initrd`** finds what is in the directory, and leaves the node.  When it finds nothing
it leaves nothing. -/
theorem finddirInitrd_spec (hsbrk : SbrkFresh fs.env.sbrk fs.heapEnd Ready)
    (hbelow : SbrkBelow fs.env.sbrk fs.heapEnd Ready) (htree : TreeInside fs.g m length v)
    (hdir : DirInside fs.g m length (fs.g.ext2GetInode m v.inode))
    (hfits : name + w.length < 0x100000000) (hinv : ∃ A, s.Inv fs.env fs.heapEnd Ready A)
    (himage : fs.HoldsImage m length s) (hname : fs.HoldsString name w s)
    (hnode : fs.HoldsFsNode node v s) {outnode : Nat}
    (hok : fs.finddirInitrd node name s = .ok (outnode, t)) :
    ∃ found, fs.g.finddirInitrd m v w = .ok found ∧ fs.Finds Ready [] s found outnode t := by
  have hinode : fs.g.ext2GetInode s.heap.mem (fsNodeInode s.heap.mem node) =
      fs.g.ext2GetInode m v.inode := by
    rw [hnode.now.inode, htree.ext2GetInode_congr himage.now]
  have hblock : fs.g.ext2GetInodeBlock m (fs.g.ext2GetInode m v.inode) 0 =
      dirBlock fs.g m (fs.g.ext2GetInode m v.inode) := if_pos (by decide)
  rw [finddirInitrd] at hok
  simp only [hinode, hdir.inode_in.mode_congr himage.now,
    htree.ext2GetInodeBlock_congr himage.now hdir.inode_in] at hok
  obtain ⟨_, hassert, hok⟩ := bind_eq_ok hok
  obtain ⟨⟨direntry, s₁⟩, hloop, hok⟩ := bind_eq_ok hok
  obtain ⟨hadds, found, hfound, hcases⟩ := finddirLoop_spec hsbrk hbelow htree hdir.inode_in hfits
    hinv himage hname hdir.entries hloop
  rw [Initrd.finddirInitrd, assert_bind (assert_ok hassert), hblock, hfound, ok_bind]
  rcases hcases with ⟨rfl, rfl⟩ | ⟨rfl, hentry⟩
  · cases hok
    exact ⟨none, rfl, rfl, hadds⟩
  · have hpos := htree.start_pos
    have hge := hentry.ge
    simp only [if_neg (show direntry ≠ 0 by omega)] at hok
    obtain ⟨⟨outnode', s₂⟩, hmalloc, hok⟩ := bind_eq_ok hok
    obtain ⟨A, hA⟩ := hadds.inv
    obtain ⟨hne, hnew⟩ := AllocRun.Adds.malloc_small hA hsbrk hbelow (by decide) (by decide) hmalloc
    have hadds₂ : fs.Adds Ready [(outnode', fsNodeSize)] s s₂ := hadds.trans hnew
    obtain ⟨hlive, hlong, -⟩ := hadds₂.mem_live List.mem_cons_self
    obtain ⟨B, hB⟩ := hadds₂.inv
    have hend := (hB.end_le hlive).trans_lt hB.kept.accounted.heapEnd_lt
    have hagree := (himage.adds hadds₂).now
    have happart := himage.apart (by have := htree.superblock_in; omega) hadds₂ List.mem_cons_self
      (by have : fsNodeSize = 312 := rfl; omega)
    have hle := hentry.le
    have hentry_len := hentry.nameLen_congr hagree
    have hplace := hentry.inode_in
    have hplace_ge := hplace.ge
    have hplace_le := hplace.le
    have hinside := htree.fits
    obtain ⟨hholds, hout⟩ := holdsNode_initrdNodeFromFile fs.ops s₂.heap.mem
      (fs.g.ext2GetInode m (Initrd.entryInode m direntry)) direntry hne
      (by omega) (by omega) (by omega) (by omega)
    rw [htree.initrdNodeFromFile_congr hagree hentry] at hholds
    simp only [hentry.entryInode_congr hagree, htree.ext2GetInode_congr hagree] at hok
    cases hok
    have hwrite := hadds₂.write List.mem_cons_self fun x hx => hout x (by omega)
    refine ⟨_, rfl, hne, hwrite, AllocRun.Holds.of_new hwrite List.mem_cons_self ?_
      fun m' hm' => hholds.congr hm'⟩
    exact (hwrite.mem_live List.mem_cons_self).2.1

/-- What `finddir_fs` makes of a node with the functions of the driver. -/
theorem finddirFs_eq (hnode : HoldsNode fs.ops s.heap.mem node v) (name : Nat) :
    fs.finddirFs node name s =
      if v.flags &&& fsDirectory ≠ 0 then fs.finddirInitrd node name s else .ok (0, s) := by
  have hreaddir : fsNodeReaddir s.heap.mem node ≠ 0 := by
    rw [hnode.readdirInitrd]
    exact fun h => fs.ops.readdir_ne (UInt32.toNat_inj.mp h)
  rw [finddirFs, hnode.flags, if_pos hnode.finddirInitrd]
  by_cases hflag : v.flags &&& fsDirectory ≠ 0
  · rw [if_pos hflag, if_pos ⟨hflag, hreaddir⟩]
  · rw [if_neg hflag, if_neg fun h => hflag h.1]

/-- **`finddir_fs`** finds what is in the node, if it is a directory.  It takes a block for each
record it looks at and gives it back, so in the end the node that it has found is all that has been
added to the blocks in use. -/
theorem finddirFs_spec (hsbrk : SbrkFresh fs.env.sbrk fs.heapEnd Ready)
    (hbelow : SbrkBelow fs.env.sbrk fs.heapEnd Ready) (htree : TreeInside fs.g m length v)
    (hfits : name + w.length < 0x100000000) (hinv : ∃ A, s.Inv fs.env fs.heapEnd Ready A)
    (himage : fs.HoldsImage m length s) (hname : fs.HoldsString name w s)
    (hnode : fs.HoldsFsNode node v s) {outnode : Nat}
    (hok : fs.finddirFs node name s = .ok (outnode, t)) :
    ∃ found, (fs.g.vfs m).finddirFs v w = .ok found ∧ fs.Finds Ready [] s found outnode t := by
  rw [finddirFs_eq hnode.now] at hok
  rw [Vfs.finddirFs]
  by_cases hflag : v.flags &&& fsDirectory ≠ 0
  · rw [if_pos hflag] at hok
    rw [if_pos ⟨hflag, rfl⟩]
    exact finddirInitrd_spec hsbrk hbelow htree (htree.root_dir hflag) hfits hinv himage hname hnode
      hok
  · rw [if_neg hflag] at hok
    cases hok
    obtain ⟨A, hA⟩ := hinv
    exact ⟨none, if_neg fun h => hflag h.1, rfl, AllocRun.Adds.refl hA⟩

/-! ### `kopen`

The loop runs over the copy of the path, in which each slash has become a NUL.  The induction is on
the names that are left, and its hypothesis is that the rest of the copy is held, with one NUL after
each name.  The bytes of the copy are in a block that the walk itself has not taken, so no lookup
changes them; this is where the room for the terminator is needed. -/

/-- What has been added before a lookup is added after it. -/
theorem Finds.after {u : AllocRun σ ρ} {new passed : List (Nat × Nat)} {found : Option FsNode}
    (hadds : fs.Adds Ready new s t) (h : fs.Finds Ready passed t found node u) :
    fs.Finds Ready (passed ++ new) s found node u := by
  cases found with
  | none => exact ⟨h.1, hadds.trans h.2⟩
  | some v => exact ⟨h.1, hadds.trans h.2.1, h.2.2⟩

/-- The driver's `open_initrd` does nothing. -/
theorem openFs_eq (hnode : HoldsNode fs.ops s.heap.mem node v) : fs.openFs node s = .ok s := by
  rw [openFs]
  by_cases hopen : fsNodeOpen s.heap.mem node ≠ 0
  · rw [if_pos hopen, if_pos hnode.openInitrd]
  · rw [if_neg hopen]

/-- The path from `pathOffset` on is held, with a NUL for each slash. -/
abbrev HoldsPath (fs : HeapFs σ ρ) (pathOffset : Nat) (path : List UInt8) (s : AllocRun σ ρ) :
    Prop :=
  s.Holds fs.env fs.heapEnd pathOffset (path.length + 1) fun m => m.HoldsCut 0x2F pathOffset path

/-- **The first name of a path**, and what follows it. -/
theorem HoldsPath.cases {pathOffset : Nat} {path : List UInt8} {names : List (List UInt8)}
    (h : fs.HoldsPath pathOffset path s) (hsplit : path.splitOn 0x2F = w :: names) :
    fs.HoldsString pathOffset w s ∧ w.length ≤ path.length ∧
      (names = [] ∨ ∃ rest, rest.splitOn 0x2F = names ∧ w.length + 1 + rest.length = path.length ∧
        fs.HoldsPath (pathOffset + w.length + 1) rest s) := by
  obtain ⟨hname, hrest⟩ := h.now.cases hsplit
  have hlength : w.length ≤ path.length := by
    rcases hrest with ⟨-, rfl⟩ | ⟨rest, rfl, -⟩
    · exact le_rfl
    · rw [List.length_append]
      exact Nat.le_add_right ..
  refine ⟨⟨fun x hle hlt => h.held x hle (by omega), fun m' hm' => hname.congr fun i hi =>
    hm' _ (by omega) (by omega)⟩, hlength, ?_⟩
  rcases hrest with ⟨rfl, -⟩ | ⟨rest, rfl, hnames, hcut⟩
  · exact Or.inl rfl
  · have hlength' : (w ++ 0x2F :: rest).length = w.length + 1 + rest.length := by
      rw [List.length_append, List.length_cons]
      omega
    exact Or.inr ⟨rest, hnames, hlength'.symm, fun x hle hlt => h.held x (by omega) (by omega),
      fun m' hm' => hcut.congr fun i hi => hm' _ (by omega) (by omega)⟩

/-- What follows the first character of a path. -/
theorem HoldsPath.tail {pathOffset : Nat} {c : UInt8} {path : List UInt8}
    (h : fs.HoldsPath pathOffset (c :: path) s) : fs.HoldsPath (pathOffset + 1) path s := by
  have hlength : (c :: path).length = path.length + 1 := rfl
  exact ⟨fun x hle hlt => h.held x (by omega) (by omega), fun m' hm' =>
    h.now.tail.congr fun i hi => hm' _ (by omega) (by omega)⟩

/-- **The loop of `kopen` is the walk**, and leaves the node that it finds and those on the way. -/
theorem walkLoop_spec (hsbrk : SbrkFresh fs.env.sbrk fs.heapEnd Ready)
    (hbelow : SbrkBelow fs.env.sbrk fs.heapEnd Ready) {left pathOffset nodePtr : Nat}
    {path : List UInt8} (htree : TreeInside fs.g m length v)
    (hfits : pathOffset + path.length < 0x100000000) (hleft : left + 1 = (path.splitOn 0x2F).length)
    (hinv : ∃ A, s.Inv fs.env fs.heapEnd Ready A) (himage : fs.HoldsImage m length s)
    (hpath : fs.HoldsPath pathOffset path s) (hnode : fs.HoldsFsNode node v s)
    (hok : fs.walkLoop (left + 1) pathOffset node s = .ok (nodePtr, t)) :
    ∃ passed found, (fs.g.vfs m).Walked v (path.splitOn 0x2F) passed.length found ∧
      fs.Finds Ready passed s found nodePtr t := by
  induction left generalizing path pathOffset node v s with
  | zero =>
    obtain ⟨w, names, hsplit⟩ := List.exists_cons_of_ne_nil (List.splitOn_ne_nil 0x2F path)
    obtain ⟨hname, hlength, -⟩ := hpath.cases hsplit
    obtain rfl : names = [] := by
      rw [hsplit, List.length_cons] at hleft
      exact List.length_eq_zero_iff.mp (Nat.succ.inj hleft).symm
    rw [walkLoop] at hok
    obtain ⟨⟨ptr, s₁⟩, hfind, hok⟩ := bind_eq_ok hok
    obtain ⟨found, hfound, hfinds⟩ := finddirFs_spec hsbrk hbelow htree (by omega) hinv himage hname
      hnode hfind
    rw [hsplit]
    cases found with
    | none =>
      simp only [hfinds.1, if_true] at hok
      cases hok
      exact ⟨[], none, ⟨[], w, [], v, rfl, rfl, rfl, hfound⟩, rfl, hfinds.2⟩
    | some child =>
      simp only [if_neg hfinds.1, openFs_eq hfinds.2.2.now, if_true, ok_bind] at hok
      cases hok
      exact ⟨[], some child, ⟨rfl, (Vfs.lookup_singleton _).trans hfound⟩, hfinds⟩
  | succ left ih =>
    obtain ⟨w, names, hsplit⟩ := List.exists_cons_of_ne_nil (List.splitOn_ne_nil 0x2F path)
    obtain ⟨hname, hlength, hrest⟩ := hpath.cases hsplit
    rw [walkLoop] at hok
    obtain ⟨⟨ptr, s₁⟩, hfind, hok⟩ := bind_eq_ok hok
    obtain ⟨found, hfound, hfinds⟩ := finddirFs_spec hsbrk hbelow htree (by omega) hinv himage hname
      hnode hfind
    rw [hsplit] at hleft ⊢
    cases found with
    | none =>
      simp only [hfinds.1, if_true] at hok
      cases hok
      exact ⟨[], none, ⟨[], w, names, v, rfl, rfl, rfl, hfound⟩, rfl, hfinds.2⟩
    | some child =>
      obtain ⟨hne, hadds, hchild⟩ := hfinds
      obtain ⟨rest, rfl, hrest_length, hrest⟩ := hrest.resolve_left fun hnil => by
        rw [hnil] at hleft
        exact absurd hleft (by simp)
      simp only [if_neg hne, Nat.add_one_ne_zero, if_false,
        strlen_eq (hname.adds hadds).now (show pathOffset + w.length < 0x100000000 by omega),
        ok_bind] at hok
      rw [u32_eq (by omega), ← Nat.add_assoc] at hok
      obtain ⟨passed, found, hwalked, hfinds⟩ := ih (htree.child hfound) (by omega)
        (Nat.succ.inj hleft) hadds.inv (himage.adds hadds) (hrest.adds hadds) hchild hok
      refine ⟨passed ++ [(ptr, fsNodeSize)], found, ?_, hfinds.after hadds⟩
      rw [List.length_append, List.length_singleton]
      exact hwalked.cons hfound

/-- **The copy of the path** is in a block of its own, cut at the slashes.  The block has room for
the terminator, so the copy ends where the path does, whatever is taken afterwards. -/
theorem copied_path (hsbrk : SbrkFresh fs.env.sbrk fs.heapEnd Ready) {filename path : Nat}
    {str : List UInt8} (hinv : ∃ A, s.Inv fs.env fs.heapEnd Ready A)
    (hstring : fs.HoldsString filename str s) (hfits : filename + str.length < 0x100000000)
    (hlen : 0 < str.length)
    (hgrows : CallsSbrk fs.env str.length s.heap →
      fs.heapEnd s.heap.os + sbrkIncrement str.length < 0x100000000)
    (hfit : TerminatorFits s str.length)
    (hmalloc : s.malloc fs.env fs.heapEnd str.length = .ok (path, t)) :
    fs.Adds Ready [(path, str.length)] s
      (t.withMem (Vfs.copyPath t.heap.mem path filename str.length).1) ∧
    fs.HoldsPath path str (t.withMem (Vfs.copyPath t.heap.mem path filename str.length).1) ∧
    (Vfs.copyPath t.heap.mem path filename str.length).2 = str.count 0x2F ∧
    path + str.length < 0x100000000 := by
  obtain ⟨A, hA⟩ := hinv
  obtain ⟨-, hadds⟩ := AllocRun.Adds.malloc hA hsbrk hlen hgrows hmalloc
  obtain ⟨hlive, -, -⟩ := hadds.mem_live List.mem_cons_self
  obtain ⟨B, hB⟩ := hadds.inv
  have hend := (hB.end_le hlive).trans_lt hB.kept.accounted.heapEnd_lt
  have hroom : str.length < usable t.heap.mem path := by
    obtain ⟨⟨path', heap⟩, hklmalloc, hallotted⟩ := bind_eq_ok hmalloc
    cases hallotted
    exact (hA.lt_usable_iff hsbrk hlen hgrows hklmalloc).mpr hfit
  have happart := hstring.apart (Nat.succ_pos _) hadds List.mem_cons_self (by omega)
  obtain ⟨hcut, hout, hcount⟩ := Vfs.copyPath_spec (hstring.adds hadds).now hfits
    (show path + str.length < 0x100000000 by omega) (by omega)
  have hsame : ∀ x, x < path ∨ path + usable t.heap.mem path ≤ x →
      (Vfs.copyPath t.heap.mem path filename str.length).1 x = t.heap.mem x :=
    fun x hx => hout x (by omega)
  have hwrite := hadds.write List.mem_cons_self hsame
  refine ⟨hwrite, AllocRun.Holds.of_new hwrite List.mem_cons_self ?_ fun m' hm' =>
    hcut.congr fun i hi => hm' _ (by omega) (by omega), hcount, by omega⟩
  have husable := hadds.usable_write List.mem_cons_self hsame _ hlive
  exact (show str.length + 1 ≤ usable t.heap.mem path from hroom).trans_eq husable.symm

/-- **What comes before the walk** is the call of `kopen` in a run of the allocator. -/
theorem kopen_of_step {filename rootPtr : Nat} (hroot : rootPtr ≠ 0)
    (hstep : KernelCall.step fs.env fs.heapEnd (.kopen filename) s = .ok t) :
    ∃ path pathLen pathDepth, strlen s.heap.mem filename = .ok pathLen ∧
      (path ≠ 0 → (path, pathLen) ∈ t.live) ∧
      fs.kopen rootPtr filename s = (do
        let (nodePtr, t) ← fs.walkLoop pathDepth (u32 (path + 1)) rootPtr t
        if nodePtr = 0 then do
          let t ← t.free fs.env path
          .ok (0, t)
        else .ok (nodePtr, t)) := by
  obtain ⟨pathLen, hlen, hstep⟩ := bind_eq_ok hstep
  obtain ⟨⟨path, heap⟩, hmalloc, hstep⟩ := bind_eq_ok hstep
  cases hstep
  refine ⟨path, pathLen, (Vfs.copyPath heap.mem path filename pathLen).2, hlen,
    fun hne => AllocRun.mem_allotted hne _, ?_⟩
  rw [kopen, if_neg hroot, if_neg (Vfs.truth_ne_slash _), hlen, ok_bind, AllocRun.malloc, hmalloc,
    ok_bind, ok_bind]
  rfl

/-- **What `kopen` does** when it returns, for a path whose copy has room for its terminator.  The
blocks of the nodes on the way stay in use, and so does the copy unless a lookup fails. -/
theorem kopen_spec (hsbrk : SbrkFresh fs.env.sbrk fs.heapEnd Ready)
    (hbelow : SbrkBelow fs.env.sbrk fs.heapEnd Ready) {filename rootPtr nodePtr : Nat}
    {path : List UInt8} (htree : TreeInside fs.g m length v)
    (hinv : ∃ A, s.Inv fs.env fs.heapEnd Ready A) (himage : fs.HoldsImage m length s)
    (hroot : fs.HoldsFsNode rootPtr v s) (hstring : fs.HoldsString filename (0x2F :: path) s)
    (hfits : filename + (0x2F :: path).length < 0x100000000)
    (hgrows : CallsSbrk fs.env (0x2F :: path).length s.heap →
      fs.heapEnd s.heap.os + sbrkIncrement (0x2F :: path).length < 0x100000000)
    (hfit : TerminatorFits s (0x2F :: path).length)
    (hok : fs.kopen rootPtr filename s = .ok (nodePtr, t)) :
    ∃ passed copy found, (fs.g.vfs m).Walked v (path.splitOn 0x2F) passed.length found ∧
      fs.Finds Ready (passed ++ copy) s found nodePtr t ∧
      (found = none ∧ copy = [] ∨ ∃ child ptr, found = some child ∧
        copy = [(ptr, (0x2F :: path).length)]) := by
  have hroot_ne : rootPtr ≠ 0 := by
    intro hnull
    rw [kopen, if_pos hnull] at hok
    cases hok
  rw [kopen, if_neg hroot_ne, if_neg (Vfs.truth_ne_slash _), strlen_eq hstring.now hfits,
    ok_bind] at hok
  obtain ⟨⟨ptr, s₁⟩, hmalloc, hok⟩ := bind_eq_ok hok
  obtain ⟨hadds, hpath, hcount, hend⟩ := copied_path hsbrk hinv hstring hfits (Nat.succ_pos _) hgrows
    hfit hmalloc
  have hlength : (0x2F :: path).length = path.length + 1 := rfl
  have hdepth : (0x2F :: path).count 0x2F = path.count 0x2F + 1 := List.count_cons_self
  simp only [hcount, hdepth] at hok
  rw [u32_eq (by omega)] at hok
  obtain ⟨⟨nodePtr', s₂⟩, hwalk, hok⟩ := bind_eq_ok hok
  obtain ⟨passed, found, hwalked, hfinds⟩ := walkLoop_spec hsbrk hbelow htree (by omega)
    (Mem.length_splitOn _ _).symm hadds.inv (himage.adds hadds) hpath.tail (hroot.adds hadds) hwalk
  have hfinds' := hfinds.after hadds
  cases found with
  | none =>
    simp only [hfinds.1, if_true] at hok
    obtain ⟨s₃, hfree, hok⟩ := bind_eq_ok hok
    cases hok
    exact ⟨passed, [], none, hwalked, ⟨rfl, hfinds'.2.free hfree⟩, Or.inl ⟨rfl, rfl⟩⟩
  | some child =>
    simp only [if_neg hfinds.1] at hok
    cases hok
    exact ⟨passed, [(ptr, (0x2F :: path).length)], some child, hwalked, hfinds',
      Or.inr ⟨child, ptr, rfl, rfl⟩⟩

end

end HeapFs

end MyaXOS
