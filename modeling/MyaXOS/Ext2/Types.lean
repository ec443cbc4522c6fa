import MyaXOS.Ext2.Mount

/-!
# Types of inodes

The type of an inode is the number in the upper four bits of its mode.  The driver takes the codes
of the types for flags: a node is a directory if the bit of the code of a directory is set, which is
set in seven other codes as well.

* `nodeFlags_directory` and `nodeFlags_accepted` say which types pass the tests of `finddir_fs` and
  of `readdir_fs`.
* `Descends` are the nodes that a walk looks a name up in.
* `flagged_of_lookup`: the nodes that a walk finds have the flags of the inodes that they name, so
  that a test of the one is a test of the other.

The flags of a node are a sum of six tests, each of one code against the mode.  Instead of going
through all modes, the lemmas go through the sixteen types: a test `mode & code == code` depends on
the upper four bits alone (`and_mask_eq`), and for these it can be evaluated.  What comes out are
two conditions.  `finddir_fs` asks for the flag of a directory, which is there if the bit `0x4000`
is.  `readdir_fs` compares three flags, and this lets the type of a directory through, and `0x5000`,
in which the flags of a FIFO are not among the three.

Which inodes a walk can come to depends on the image, and on how a node is made.  There are two
functions that make one, for the root and for a record, and both compute the flags from the mode in
the same way.  `Vfs.lookup_induction` carries this along the walk: the root is flagged, and what is
found in a directory is.  The same induction is used elsewhere for the length of a node.

What follows from this for `kopen` is in `Ext2/Descent.lean`.
-/

set_option autoImplicit false

namespace MyaXOS

namespace Vfs

variable {ν : Type}

/-- The nodes in which the walk along the names looks a name up. -/
def Descends (fs : Vfs ν) (root : ν) (names : List (List UInt8)) (dir : ν) : Prop :=
  ∃ before name after, names = before ++ name :: after ∧ fs.lookup root before = .ok (some dir)

/-- The test of `readdir_fs`.  It asks for a function, and for three bits of the flags, where
`finddir_fs` asks for one of them. -/
def Accepts (fs : Vfs ν) (node : ν) : Prop :=
  fs.flags node &&& 0x07 = fsDirectory ∧ fs.hasReaddir node = true

instance (fs : Vfs ν) (node : ν) : Decidable (fs.Accepts node) :=
  inferInstanceAs (Decidable (_ ∧ _))

variable {fs : Vfs ν} {root node dir : ν} {names : List (List UInt8)}

/-- Where the walk finds something, it has found something in every node on the way. -/
theorem Descends.finds (hdir : fs.Descends root names dir)
    (hfound : fs.lookup root names = .ok (some node)) :
    ∃ name child, fs.finddirFs dir name = .ok (some child) := by
  obtain ⟨before, name, after, rfl, hbefore⟩ := hdir
  rw [lookup_append, hbefore, ok_bind] at hfound
  simp only [lookup] at hfound
  refine ⟨name, ?_⟩
  obtain ⟨_ | child, hchild, hrest⟩ := bind_eq_ok hfound
  · cases hrest
  · exact ⟨child, hchild⟩

/-- What is found is found by the driver. -/
theorem finddirFs_eq_some {name : List UInt8} {child : ν}
    (hfound : fs.finddirFs dir name = .ok (some child)) :
    fs.flags dir &&& fsDirectory ≠ 0 ∧ fs.finddir dir name = .ok (some child) := by
  rw [finddirFs] at hfound
  by_cases htest : fs.flags dir &&& fsDirectory ≠ 0 ∧ fs.hasReaddir dir
  · rw [if_pos htest] at hfound
    exact ⟨htest.1, hfound⟩
  · rw [if_neg htest] at hfound
    cases hfound

end Vfs

/-! ## The flags of a type

A type is one of sixteen values, and the tests of the driver look at the four bits of the type and
at no others.  So each statement about flags is a check of sixteen cases; `and_type_eq` and
`and_mask_eq` are what brings a mode of any size down to them. -/

/-- The type of an inode is a multiple of `0x1000`. -/
theorem and_type_eq (mode : Nat) : ∃ k < 16, mode &&& 0xF000 = 0x1000 * k := by
  have hle : mode &&& 0xF000 ≤ 0xF000 := Nat.and_le_right
  have hmod : (mode &&& 0xF000) % 2 ^ 12 = 0 := by
    rw [Nat.and_mod_two_pow]
    exact Nat.and_zero _
  exact ⟨(mode &&& 0xF000) / 0x1000, by omega, by omega⟩

/-- A test of bits of the type. -/
theorem and_mask_eq (mode mask : Nat) (hmask : 0xF000 &&& mask = mask) :
    mode &&& mask = (mode &&& 0xF000) &&& mask := by
  rw [Nat.and_assoc, hmask]

theorem nodeFlags_eq (mode : Nat) :
    Initrd.nodeFlags mode = Initrd.nodeFlags (mode &&& 0xF000) := by
  have htype : ∀ type flag, 0xF000 &&& type = type →
      Initrd.typeFlag mode type flag = Initrd.typeFlag (mode &&& 0xF000) type flag := by
    intro type flag hmask
    rw [Initrd.typeFlag, Initrd.typeFlag, and_mask_eq mode type hmask]
  rw [Initrd.nodeFlags, Initrd.nodeFlags, htype 0x8000 _ rfl, htype 0x4000 _ rfl,
    htype 0x6000 _ rfl, htype 0x2000 _ rfl, htype 0x1000 _ rfl, htype 0xA000 _ rfl]

/-- The types that `finddir_fs` looks a name up in. -/
theorem nodeFlags_directory (mode : Nat) :
    Initrd.nodeFlags mode &&& fsDirectory ≠ 0 ↔ mode &&& 0x4000 ≠ 0 := by
  obtain ⟨k, hk, htype⟩ := and_type_eq mode
  rw [nodeFlags_eq, and_mask_eq mode 0x4000 rfl, htype]
  clear htype
  revert k
  decide

/-- The types that `readdir_fs` lists. -/
theorem nodeFlags_accepted (mode : Nat) : Initrd.nodeFlags mode &&& 0x07 = fsDirectory ↔
    mode &&& 0xF000 = 0x4000 ∨ mode &&& 0xF000 = 0x5000 := by
  obtain ⟨k, hk, htype⟩ := and_type_eq mode
  rw [nodeFlags_eq, htype]
  clear htype
  revert k
  decide

/-- The bit of a directory is set in eight types. -/
theorem type_eq_directory (mode : Nat) (hbit : mode &&& 0x4000 ≠ 0) :
    mode &&& 0xF000 = 0x4000 ↔ mode &&& 0xB000 = 0 := by
  obtain ⟨k, hk, htype⟩ := and_type_eq mode
  rw [and_mask_eq mode 0x4000 rfl, htype] at hbit
  rw [and_mask_eq mode 0xB000 rfl, htype]
  clear htype
  revert hbit
  revert k
  decide

/-! ## The nodes of an image

A node has the flags of its inode because both functions that fill one in compute them from the
mode.  This is an induction along the walk: the root has been filled in by the mount, and every
other node has been found by the driver.  What is asked of a node on the way can therefore be asked
of its inode. -/

namespace Initrd

/-- `readdir_fs(node, index)`. -/
def readdirFs (g : Initrd) (m : Mem) (node : FsNode) (index : Nat) : Except Stop (Option Dirent) :=
  if (g.vfs m).Accepts node then g.readdirInitrd m node index else .ok none

/-- The mode of the inode that a node names. -/
def modeOf (g : Initrd) (m : Mem) (node : FsNode) : Nat := mode m (g.ext2GetInode m node.inode)

/-- The inode that a node names is a directory. -/
def IsDirectory (g : Initrd) (m : Mem) (node : FsNode) : Prop := g.modeOf m node &&& 0xF000 = 0x4000

end Initrd

section
variable {g : Initrd} {m m₀ : Mem} {memHead : Nat} {root node dir : FsNode} {name : List UInt8}

/-- The node has the flags of the inode that it names.  Nodes are filled in from inodes in two
places, the root apart from the others, and both leave it like this. -/
def Flagged (g : Initrd) (m : Mem) (node : FsNode) : Prop :=
  node.flags = Initrd.nodeFlags (g.modeOf m node)

theorem flagged_root (hmount : Initrd.initrdMount m₀ memHead = .ok (g, m, root)) :
    Flagged g m root := by
  rw [(found_of_mount hmount).2]
  rfl

theorem flagged_of_found (hfound : g.finddirInitrd m dir name = .ok (some node)) :
    Flagged g m node := by
  obtain ⟨_, -, hfound⟩ := bind_eq_ok hfound
  obtain ⟨_ | direntry, -, hfound⟩ := bind_eq_ok hfound
  · cases hfound
  · cases hfound
    rfl

/-- **Every node that a walk finds has the flags of its inode.**  The root has them from the mount,
and a node that is found from the function that filled it in. -/
theorem flagged_of_lookup {names : List (List UInt8)}
    (hmount : Initrd.initrdMount m₀ memHead = .ok (g, m, root))
    (hfound : (g.vfs m).lookup root names = .ok (some node)) : Flagged g m node := by
  refine Vfs.lookup_induction (flagged_root hmount) (fun dir name child _ hchild => ?_) hfound
  exact flagged_of_found (Vfs.finddirFs_eq_some hchild).2

/-- A node that is looked into has the bit of a directory. -/
theorem bit_of_found (hflagged : Flagged g m dir)
    (hfound : (g.vfs m).finddirFs dir name = .ok (some node)) : g.modeOf m dir &&& 0x4000 ≠ 0 := by
  have hbit : dir.flags &&& fsDirectory ≠ 0 := (Vfs.finddirFs_eq_some hfound).1
  rw [hflagged] at hbit
  exact (nodeFlags_directory _).mp hbit

theorem accepts_iff (hflagged : Flagged g m node) : (g.vfs m).Accepts node ↔
    g.IsDirectory m node ∨ g.modeOf m node &&& 0xF000 = 0x5000 := by
  rw [Initrd.IsDirectory, ← nodeFlags_accepted, ← hflagged]
  exact and_iff_left rfl

end

/-- An image with the root directory of `oneEntryImage`, in which `a` is a block device.  The device
names the data block of the directory.  In the boot block is the string `/a/a`. -/
def deviceImage : Mem := fun x =>
  match x with
  | 0x100 => 0x2F
  | 0x101 => 0x61
  | 0x102 => 0x2F
  | 0x103 => 0x61
  | 1080 => 0x53
  | 1081 => 0xEF
  | 2056 => 8
  | 0x2501 => 0x60
  | 0x2504 => 12
  | 0x2528 => 3
  | _ => oneEntryImage x

/-- The root of `deviceImage`. -/
def deviceRoot : FsNode :=
  Initrd.initrdNodeRoot deviceImage (oneEntryInitrd.ext2GetInode deviceImage 2)

/-- The node of the device. -/
def deviceNode : FsNode :=
  { name := [0x61, 0], mask := 0, uid := 0, gid := 0, flags := 0x0E, inode := 11, length := 12 }

theorem mount_device :
    Initrd.initrdMount deviceImage 0 = .ok (oneEntryInitrd, deviceImage, deviceRoot) := by
  obtain ⟨root, hmount⟩ : ∃ root, Initrd.initrdMount deviceImage 0 =
      .ok (oneEntryInitrd, deviceImage, root) :=
    initrdMount_eq (by decide) (by decide) (by decide)
  rw [hmount, (found_of_mount hmount).2]
  rfl

/-- There is one record in the root, and it is what the device consists of as well. -/
theorem finddirInitrd_device {node : FsNode} (hnode : node = deviceRoot ∨ node = deviceNode)
    (name : List UInt8) :
    oneEntryInitrd.finddirInitrd deviceImage node name =
      .ok (([0].find? (hasName deviceImage 0x0C00 name)).map fun p =>
        oneEntryInitrd.foundNode deviceImage (u32 (0x0C00 + p))) := by
  have hblock : dirBlock oneEntryInitrd deviceImage
      (oneEntryInitrd.ext2GetInode deviceImage node.inode) = 0x0C00 := by
    rcases hnode with rfl | rfl <;> decide
  have hsize : Initrd.size deviceImage
      (oneEntryInitrd.ext2GetInode deviceImage node.inode) = 12 := by
    rcases hnode with rfl | rfl <;> decide
  have hmode : Initrd.mode deviceImage
      (oneEntryInitrd.ext2GetInode deviceImage node.inode) &&& 0x4000 ≠ 0 := by
    rcases hnode with rfl | rfl <;> decide
  have hrecords : DirRecords oneEntryInitrd deviceImage
      (oneEntryInitrd.ext2GetInode deviceImage node.inode) [0] := by
    rw [DirRecords, hblock, hsize]
    exact ⟨12, ⟨rfl, by decide, show _ = _ by decide⟩, by decide⟩
  rw [finddirInitrd_eq hrecords hmode, hblock]

/-- It is the record of `a`. -/
theorem device_find {node : FsNode} (hnode : node = deviceRoot ∨ node = deviceNode) :
    oneEntryInitrd.finddirInitrd deviceImage node [0x61] = .ok (some deviceNode) := by
  have hfind : [0].find? (hasName deviceImage 0x0C00 [0x61]) = some 0 := by
    decide
  have hfound : oneEntryInitrd.foundNode deviceImage 0x0C00 = deviceNode := by
    decide
  rw [finddirInitrd_device hnode, hfind]
  exact congrArg (Except.ok ∘ some) hfound

/-- What `/a/a` names: the walk goes through the device. -/
theorem device_lookup :
    (oneEntryInitrd.vfs deviceImage).lookup deviceRoot [[0x61]] = .ok (some deviceNode) ∧
    (oneEntryInitrd.vfs deviceImage).lookup deviceRoot [[0x61], [0x61]] =
      .ok (some deviceNode) := by
  have hstep : ∀ node, node = deviceRoot ∨ node = deviceNode →
      (oneEntryInitrd.vfs deviceImage).finddirFs node [0x61] = .ok (some deviceNode) := by
    intro node hnode
    rw [Vfs.finddirFs, if_pos (by rcases hnode with rfl | rfl <;> decide)]
    exact device_find hnode
  constructor
  · rw [Vfs.lookup_singleton]
    exact hstep _ (Or.inl rfl)
  · rw [Vfs.lookup, hstep _ (Or.inl rfl), ok_bind]
    simp only [Vfs.lookup_singleton]
    exact hstep _ (Or.inr rfl)

end MyaXOS
