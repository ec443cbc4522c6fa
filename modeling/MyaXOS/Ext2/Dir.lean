import MyaXOS.Ext2.Image
import MyaXOS.Lib.Walk
import MyaXOS.Strings
import MyaXOS.Vfs

/-!
# Directories

A directory is a file of records.  A record has its own length, which leads to the next one.
`ext2_get_direntry`, for `readdir_initrd`, and `finddir_initrd` walk over the records, each in a
loop of its own: the one counts them, the other compares their names.

* `recordNext` is where the walk goes from an offset.  `Records` says that the walk ends and which
  offsets it visits.
* `ext2GetDirentry_eq` and `finddirInitrd_eq` say what the two loops make of these offsets, and
  `finddir_readdir` that they agree.
* Both loops take the bytes behind block 0 for the rest of the directory.  `Directory` is a
  directory whose blocks may be anywhere; it is listed exactly when its blocks are one behind the
  other (`lists_iff`).

**One walk for two loops.**  The loops have different variables and different exits, and a proof
that runs them against each other would have to keep both in step.  Instead each is compared with
the list of the offsets that a walk visits, which does not depend on what is looked for: the loop
that counts finds the `i`-th element of this list, and the loop that compares finds the first
element with the name.  That the two agree is then a fact about lists, between `[i]?` and `find?`.
Equal names need no argument of their own, since both are about the first.

**The walk need not end.**  The length of a record is whatever the image says, and 0 leads back to
the same record.  So `Records` is a hypothesis of these lemmas, and the loops have fuel: if more
records have been visited than there are offsets, one has been visited twice.  When the walk does
end, there are fewer records than the fuel (`dirRecords_length_lt`), and it makes no difference.

**Several blocks.**  The block map of the inode is asked for block 0 only.  For a directory with `k`
blocks the code therefore reads `k` blocks of memory from there on, and this is the directory only
if its blocks are neighbours.  One direction of `lists_iff` is that the records of neighbours make
one walk, block after block (`Directory.visits`).  The other is by strong induction on the blocks:
if the records are listed in order and those before block `j` are where they should be, then the
walk comes to the end of block `j - 1`, and the next record that it lists is the first of block `j`.
-/

set_option autoImplicit false

namespace MyaXOS

/-- `struct dirent`: `name` is the part of the buffer that is written. -/
structure Dirent where
  name : List UInt8
  ino : Nat
  deriving DecidableEq, Repr

/-- `fs_node_t`, as the driver fills it in.  The functions are those of the driver. -/
structure FsNode where
  name : List UInt8
  mask : Nat
  uid : Nat
  gid : Nat
  flags : Nat
  inode : Nat
  length : Nat
  deriving DecidableEq, Repr

/-- The string in a buffer. -/
def cString (buffer : List UInt8) : List UInt8 := buffer.takeWhile (· ≠ 0)

/-- The fuel of a walk over a directory.  There are fewer offsets. -/
def dirFuel : Nat := 0x100000001

namespace Initrd

/-- `d_ent->inode`. -/
def entryInode (m : Mem) (dEnt : Nat) : Nat := m.load32 dEnt

/-- `d_ent->rec_len`. -/
def recLen (m : Mem) (dEnt : Nat) : Nat := m.load16 (dEnt + 4)

/-- `d_ent->name_len`. -/
def nameLen (m : Mem) (dEnt : Nat) : Nat := (m (dEnt + 6)).toNat

/-- A copy of `d_ent->name`, with a NUL behind it. -/
def entryName (m : Mem) (dEnt : Nat) : List UInt8 :=
  ((List.range (nameLen m dEnt)).map fun i => m (u32 (dEnt + 8 + i))) ++ [0]

/-- `inode->mode`. -/
def mode (m : Mem) (inode : Nat) : Nat := m.load16 inode

/-- The loop of `ext2_get_direntry`. -/
def direntryLoop (m : Mem) (block size index : Nat) : Nat → Nat → Nat → Except Stop (Option Nat)
  | 0, _, _ => .error .spin
  | fuel + 1, dirOffset, dirIndex =>
    if dirOffset < size then
      let dEnt := u32 (block + dirOffset)
      if dirIndex = index then .ok (some dEnt)
      else direntryLoop m block size index fuel (u32 (dirOffset + recLen m dEnt))
        (u32 (dirIndex + 1))
    else .ok none

/-- `ext2_get_direntry(inode, index)`, where `none` is `NULL`. -/
def ext2GetDirentry (g : Initrd) (m : Mem) (inode index : Nat) : Except Stop (Option Nat) :=
  direntryLoop m (g.ext2GetBlock m (block m inode 0)) (size m inode) index dirFuel 0 0

/-- What `readdir_initrd` returns for a record. -/
def dirent (m : Mem) (direntry : Nat) : Dirent where
  name := entryName m direntry
  ino := entryInode m direntry

/-- `readdir_initrd(node, index)`. -/
def readdirInitrd (g : Initrd) (m : Mem) (node : FsNode) (index : Nat) :
    Except Stop (Option Dirent) := do
  let direntry ← g.ext2GetDirentry m (g.ext2GetInode m node.inode) index
  .ok (direntry.map (dirent m))

/-- The `while` loop of `finddir_initrd`. -/
def finddirLoop (m : Mem) (block size : Nat) (name : List UInt8) :
    Nat → Nat → Except Stop (Option Nat)
  | 0, _ => .error .spin
  | fuel + 1, dirOffset =>
    if dirOffset < size then
      let dEnt := u32 (block + dirOffset)
      if strcmp (cString (entryName m dEnt)) name = 0 then .ok (some dEnt)
      else finddirLoop m block size name fuel (u32 (dirOffset + recLen m dEnt))
    else .ok none

/-- The flag of a node for a file type. -/
def typeFlag (mode type flag : Nat) : Nat := if mode &&& type = type then flag else 0

/-- `fnode->flags`, from `inode->mode`. -/
def nodeFlags (mode : Nat) : Nat :=
  typeFlag mode 0x8000 0x01 ||| typeFlag mode 0x4000 0x02 ||| typeFlag mode 0x6000 0x08 |||
    typeFlag mode 0x2000 0x04 ||| typeFlag mode 0x1000 0x10 ||| typeFlag mode 0xA000 0x20

/-- `initrd_node_from_file(inode, direntry, fnode)`. -/
def initrdNodeFromFile (m : Mem) (inode direntry : Nat) : FsNode where
  inode := entryInode m direntry
  name := entryName m direntry
  uid := m.load16 (inode + 2)
  gid := m.load16 (inode + 24)
  length := size m inode
  mask := mode m inode &&& 0xFFF
  flags := nodeFlags (mode m inode)

/-- The node that `finddir_initrd` builds for a record. -/
def foundNode (g : Initrd) (m : Mem) (direntry : Nat) : FsNode :=
  initrdNodeFromFile m (g.ext2GetInode m (entryInode m direntry)) direntry

/-- `finddir_initrd(node, name)`. -/
def finddirInitrd (g : Initrd) (m : Mem) (node : FsNode) (name : List UInt8) :
    Except Stop (Option FsNode) := do
  let inode := g.ext2GetInode m node.inode
  assert (mode m inode &&& 0x4000 ≠ 0) "inode->mode & EXT2_S_IFDIR"
  match ← finddirLoop m (g.ext2GetInodeBlock m inode 0) (size m inode) name dirFuel 0 with
  | none => .ok none
  | some direntry => .ok (some (g.foundNode m direntry))

/-- The tree of an image. -/
def vfs (g : Initrd) (m : Mem) : Vfs FsNode where
  flags := FsNode.flags
  inode := FsNode.inode
  hasReaddir _ := true
  finddir := g.finddirInitrd m

end Initrd

/-! ## The walk

Both loops go from a record to the next by `rec_len`, and stop when the offset has reached the size.
`Walk.Visits` is this without what the loops do on their way, and each loop is then a fact about the
list of the offsets that are visited: the one that counts returns the entry with an index, and the
one that compares returns the first with a property. -/

/-- Where the walk goes from an offset. -/
def recordNext (m : Mem) (block dirOffset : Nat) : Nat :=
  u32 (dirOffset + Initrd.recLen m (u32 (block + dirOffset)))

/-- The walk over the `size` bytes from `block` on ends, and visits the offsets `ps`. -/
def Records (m : Mem) (block size : Nat) (ps : List Nat) : Prop :=
  ∃ o', Walk.Visits (recordNext m block) size 0 ps o' ∧ size ≤ o'

section
variable {m : Mem} {block size index fuel o o' : Nat} {ps : List Nat} {name : List UInt8}

/-- **The loop that counts** finds the record that is counted.  The count goes down by one at each
record, so it is 0 at the one with the index. -/
theorem direntryLoop_of_visits (fuel : Nat) (h : Walk.Visits (recordNext m block) size o ps o')
    {i k : Nat} (hi : i < ps.length) (hfuel : i < fuel) (hindex : k + i < 0x100000000) :
    Initrd.direntryLoop m block size (k + i) fuel o k = .ok (some (u32 (block + ps[i]))) := by
  induction ps generalizing o i k fuel with
  | nil => exact absurd hi (Nat.not_lt_zero i)
  | cons p ps ih =>
    obtain ⟨rfl, hlt, hrest⟩ := h
    obtain _ | fuel := fuel
    · exact absurd hfuel (Nat.not_lt_zero i)
    rw [Initrd.direntryLoop, if_pos hlt]
    cases i with
    | zero => rw [if_pos (by rfl), List.getElem_cons_zero]
    | succ i =>
      rw [if_neg (by omega), List.getElem_cons_succ, u32_eq (show k + 1 < 0x100000000 by omega),
        show k + (i + 1) = k + 1 + i by omega]
      exact ih fuel hrest (Nat.lt_of_succ_lt_succ hi) (Nat.lt_of_succ_lt_succ hfuel) (by omega)

/-- The loop that counts comes to the end. -/
theorem direntryLoop_of_out (h : Walk.Visits (recordNext m block) size o ps o') (hout : size ≤ o')
    {k : Nat} (hfuel : ps.length < fuel) (hindex : k + ps.length ≤ index)
    (hcount : k + ps.length < 0x100000000) :
    Initrd.direntryLoop m block size index fuel o k = .ok none := by
  induction ps generalizing o k fuel with
  | nil =>
    cases h
    obtain _ | fuel := fuel
    · exact absurd hfuel (Nat.not_lt_zero _)
    rw [Initrd.direntryLoop, if_neg (Nat.not_lt.mpr hout)]
  | cons p ps ih =>
    obtain ⟨rfl, hlt, hrest⟩ := h
    rw [List.length_cons] at hfuel hindex hcount
    obtain _ | fuel := fuel
    · exact absurd hfuel (Nat.not_lt_zero _)
    rw [Initrd.direntryLoop, if_pos hlt, if_neg (by omega),
      u32_eq (show k + 1 < 0x100000000 by omega)]
    exact ih hrest (Nat.lt_of_succ_lt_succ hfuel) (by omega) (by omega)

/-- The record with a name. -/
def hasName (m : Mem) (block : Nat) (name : List UInt8) (p : Nat) : Bool :=
  cString (Initrd.entryName m (u32 (block + p))) = name

/-- **The loop that compares** finds the first record with the name, on a block whose records have
been laid out: where a walk goes from record to record, the loop does. -/
theorem finddirLoop_eq (h : Walk.Visits (recordNext m block) size o ps o') (hout : size ≤ o')
    (hfuel : ps.length < fuel) :
    Initrd.finddirLoop m block size name fuel o =
      .ok ((ps.find? (hasName m block name)).map fun p => u32 (block + p)) := by
  induction ps generalizing o fuel with
  | nil =>
    cases h
    obtain _ | fuel := fuel
    · exact absurd hfuel (Nat.not_lt_zero _)
    rw [Initrd.finddirLoop, if_neg (Nat.not_lt.mpr hout)]
    rfl
  | cons p ps ih =>
    obtain ⟨rfl, hlt, hrest⟩ := h
    rw [List.length_cons] at hfuel
    obtain _ | fuel := fuel
    · exact absurd hfuel (Nat.not_lt_zero _)
    rw [Initrd.finddirLoop, if_pos hlt, List.find?_cons]
    simp only [strcmp_eq_zero]
    by_cases hname : cString (Initrd.entryName m (u32 (block + o))) = name
    · rw [if_pos hname, show hasName m block name o = true from decide_eq_true hname]
      rfl
    · rw [if_neg hname, show hasName m block name o = false from decide_eq_false hname]
      exact ih hrest (Nat.lt_of_succ_lt_succ hfuel)

end

/-! ## Listing and finding

If the walk ends then there is a list of records, and both functions are functions of this list:
`readdir_initrd` is the lookup of an index in it, and `finddir_initrd` is `find?`.  That the two
agree is then a fact about lists. -/

/-- Where both loops start. -/
def dirBlock (g : Initrd) (m : Mem) (inode : Nat) : Nat :=
  g.ext2GetBlock m (Initrd.block m inode 0)

/-- The offsets that a walk over the records of a directory visits. -/
def DirRecords (g : Initrd) (m : Mem) (inode : Nat) (ps : List Nat) : Prop :=
  Records m (dirBlock g m inode) (Initrd.size m inode) ps

section
variable {g : Initrd} {m : Mem} {inode i : Nat} {ps : List Nat} {node : FsNode}
  {name : List UInt8}

theorem dirRecords_length_lt (h : DirRecords g m inode ps) : ps.length < 0x100000000 := by
  obtain ⟨o', hvisits, hout⟩ := h
  exact (hvisits.length_le hout).trans_lt (Mem.load32_lt m (inode + 4))

/-- `ext2_get_direntry` finds the records in the order of the walk. -/
theorem ext2GetDirentry_eq (h : DirRecords g m inode ps) (i : Nat) :
    g.ext2GetDirentry m inode i =
      .ok (ps[i]?.map fun p => u32 (dirBlock g m inode + p)) := by
  have hlength := dirRecords_length_lt h
  obtain ⟨o', hvisits, hout⟩ := h
  rw [Initrd.ext2GetDirentry, ← dirBlock]
  rcases Nat.lt_or_ge i ps.length with hi | hi
  · have hfound := direntryLoop_of_visits dirFuel hvisits (k := 0) hi
      (by rw [dirFuel]; omega) (by omega)
    rw [Nat.zero_add] at hfound
    rw [hfound, List.getElem?_eq_getElem hi]
    rfl
  · rw [List.getElem?_eq_none hi]
    exact direntryLoop_of_out hvisits hout (by rw [dirFuel]; omega) (by omega) (by omega)

theorem readdirInitrd_eq (h : DirRecords g m (g.ext2GetInode m node.inode) ps) (i : Nat) :
    g.readdirInitrd m node i = .ok (ps[i]?.map fun p =>
      Initrd.dirent m (u32 (dirBlock g m (g.ext2GetInode m node.inode) + p))) := by
  rw [Initrd.readdirInitrd, ext2GetDirentry_eq h, ok_bind, Option.map_map]
  rfl

/-- `finddir_initrd` finds the first record with the name. -/
theorem finddirInitrd_eq (h : DirRecords g m (g.ext2GetInode m node.inode) ps)
    (hmode : Initrd.mode m (g.ext2GetInode m node.inode) &&& 0x4000 ≠ 0) :
    g.finddirInitrd m node name = .ok
      ((ps.find? (hasName m (dirBlock g m (g.ext2GetInode m node.inode)) name)).map fun p =>
        g.foundNode m (u32 (dirBlock g m (g.ext2GetInode m node.inode) + p))) := by
  have hlength := dirRecords_length_lt h
  obtain ⟨o', hvisits, hout⟩ := h
  have hblock : g.ext2GetInodeBlock m (g.ext2GetInode m node.inode) 0 =
      dirBlock g m (g.ext2GetInode m node.inode) := if_pos (by decide)
  rw [Initrd.finddirInitrd, assert_bind hmode, hblock,
    finddirLoop_eq hvisits hout (by rw [dirFuel]; omega), ok_bind]
  cases ps.find? _ with
  | none => rfl
  | some p => rfl

end

/-- **What is listed and what is found agree.**  On a directory on which the walk ends,
`finddir_initrd` returns, and it returns `NULL` exactly when no index gives an entry with the name;
otherwise the node has the inode of the first such entry. -/
theorem finddir_readdir (g : Initrd) (m : Mem) (node : FsNode) (name : List UInt8)
    (hmode : Initrd.mode m (g.ext2GetInode m node.inode) &&& 0x4000 ≠ 0)
    (hwalk : ∃ ps, DirRecords g m (g.ext2GetInode m node.inode) ps) :
    (∃ found, g.finddirInitrd m node name = .ok found) ∧
    (∀ i, ∃ entry, g.readdirInitrd m node i = .ok entry) ∧
    (g.finddirInitrd m node name = .ok none ↔
      ∀ i d, g.readdirInitrd m node i = .ok (some d) → cString d.name ≠ name) ∧
    ∀ i d, g.readdirInitrd m node i = .ok (some d) → cString d.name = name →
      (∀ j < i, ∀ d', g.readdirInitrd m node j = .ok (some d') → cString d'.name ≠ name) →
      ∃ found, g.finddirInitrd m node name = .ok (some found) ∧ found.inode = d.ino := by
  obtain ⟨ps, hps⟩ := hwalk
  simp only [readdirInitrd_eq hps, finddirInitrd_eq hps hmode, Except.ok.injEq]
  refine ⟨⟨_, rfl⟩, fun i => ⟨_, rfl⟩, ?_, ?_⟩
  · rw [Option.map_eq_none_iff, List.find?_eq_none]
    constructor
    · intro hnone i d hd hname
      obtain ⟨p, hp, rfl⟩ := Option.map_eq_some_iff.mp hd
      exact hnone p (List.mem_of_getElem? hp) (decide_eq_true hname)
    · intro hnone p hp hname
      obtain ⟨i, hi, rfl⟩ := List.mem_iff_getElem.mp hp
      rw [hasName, decide_eq_true_eq] at hname
      refine hnone i (Initrd.dirent m (u32 (dirBlock g m (g.ext2GetInode m node.inode) + ps[i]))) ?_
        hname
      rw [List.getElem?_eq_getElem hi]
      rfl
  · intro i d hd hname hfirst
    obtain ⟨p, hp, rfl⟩ := Option.map_eq_some_iff.mp hd
    obtain ⟨hi, rfl⟩ := List.getElem?_eq_some_iff.mp hp
    have hfind : ps.find? (hasName m (dirBlock g m (g.ext2GetInode m node.inode)) name) =
        some ps[i] := by
      rw [List.find?_eq_some_iff_getElem]
      refine ⟨decide_eq_true hname, i, hi, rfl, fun j hj => ?_⟩
      rw [Bool.not_eq_true', hasName, decide_eq_false_iff_not]
      exact hfirst j hj _ (by rw [List.getElem?_eq_getElem (hj.trans hi)]; rfl)
    exact ⟨_, by rw [hfind]; rfl, rfl⟩

/-- An image with a directory of one record, `a` with inode 11. -/
def oneEntryImage : Mem := fun x =>
  match x with
  | 1112 => 128
  | 0x0C00 => 11
  | 0x0C04 => 12
  | 0x0C06 => 1
  | 0x0C08 => 0x61
  | 0x2081 => 0x40
  | 0x2084 => 12
  | 0x20A8 => 3
  | _ => 0

/-- The variables of the driver for it. -/
def oneEntryInitrd : Initrd := { start := 0, superblock := 1024, inodeTable := 0x2000 }

/-- The node of its directory. -/
def oneEntryNode : FsNode :=
  { name := [0x2F, 0], mask := 0, uid := 0, gid := 0, flags := fsDirectory, inode := 2,
    length := 12 }

theorem oneEntry_records :
    DirRecords oneEntryInitrd oneEntryImage
      (oneEntryInitrd.ext2GetInode oneEntryImage oneEntryNode.inode) [0] := by
  refine ⟨12, ⟨rfl, by decide, ?_⟩, by decide⟩
  rw [Walk.Visits]
  decide

/-- An image with a directory of four records: `.`, `a` with inode 11, `ab` with inode 12, and `a`
once more, with inode 13. -/
def fourEntryImage : Mem := fun x =>
  match x with
  | 1112 => 128
  | 0x0C00 => 2
  | 0x0C04 => 12
  | 0x0C06 => 1
  | 0x0C08 => 0x2E
  | 0x0C0C => 11
  | 0x0C10 => 12
  | 0x0C12 => 1
  | 0x0C14 => 0x61
  | 0x0C18 => 12
  | 0x0C1C => 16
  | 0x0C1E => 2
  | 0x0C20 => 0x61
  | 0x0C21 => 0x62
  | 0x0C28 => 13
  | 0x0C2C => 12
  | 0x0C2E => 1
  | 0x0C30 => 0x61
  | 0x2081 => 0x40
  | 0x2084 => 52
  | 0x20A8 => 3
  | _ => 0

theorem fourEntry_records :
    DirRecords oneEntryInitrd fourEntryImage
      (oneEntryInitrd.ext2GetInode fourEntryImage oneEntryNode.inode) [0, 12, 24, 40] := by
  refine ⟨52, ?_, by decide⟩
  simp only [Walk.Visits]
  decide

/-- What `readdir_initrd` returns for the four of them. -/
theorem fourEntry_readdir (i : Nat) :
    oneEntryInitrd.readdirInitrd fourEntryImage oneEntryNode i =
      .ok ([⟨[0x2E, 0], 2⟩, ⟨[0x61, 0], 11⟩, ⟨[0x61, 0x62, 0], 12⟩, ⟨[0x61, 0], 13⟩] :
        List Dirent)[i]? := by
  have hblock : dirBlock oneEntryInitrd fourEntryImage
      (oneEntryInitrd.ext2GetInode fourEntryImage oneEntryNode.inode) = 0x0C00 := by decide
  have h₀ : Initrd.dirent fourEntryImage (u32 (0x0C00 + 0)) = ⟨[0x2E, 0], 2⟩ := by decide
  have h₁ : Initrd.dirent fourEntryImage (u32 (0x0C00 + 12)) = ⟨[0x61, 0], 11⟩ := by decide
  have h₂ : Initrd.dirent fourEntryImage (u32 (0x0C00 + 24)) = ⟨[0x61, 0x62, 0], 12⟩ := by decide
  have h₃ : Initrd.dirent fourEntryImage (u32 (0x0C00 + 40)) = ⟨[0x61, 0], 13⟩ := by decide
  rw [readdirInitrd_eq fourEntry_records, hblock, ← List.getElem?_map]
  simp only [List.map_cons, List.map_nil, h₀, h₁, h₂, h₃]

/-- `a` is found at index 1, and `b` is not found. -/
theorem finddir_readdir_a :
    (∃ found, oneEntryInitrd.finddirInitrd fourEntryImage oneEntryNode [0x61] = .ok (some found) ∧
      found.inode = 11) ∧
    oneEntryInitrd.finddirInitrd fourEntryImage oneEntryNode [0x62] = .ok none := by
  constructor
  · refine (finddir_readdir oneEntryInitrd fourEntryImage oneEntryNode [0x61] (by decide)
      ⟨_, fourEntry_records⟩).2.2.2 1 ⟨[0x61, 0], 11⟩ (fourEntry_readdir 1) (by decide) ?_
    intro j hj d hd
    obtain rfl := Nat.lt_one_iff.mp hj
    cases hd.symm.trans (fourEntry_readdir 0)
    decide
  · refine (finddir_readdir oneEntryInitrd fourEntryImage oneEntryNode [0x62] (by decide)
      ⟨_, fourEntry_records⟩).2.2.1.mpr fun i d hd => ?_
    rw [fourEntry_readdir, Except.ok.injEq] at hd
    have hnames : ∀ d ∈ ([⟨[0x2E, 0], 2⟩, ⟨[0x61, 0], 11⟩, ⟨[0x61, 0x62, 0], 12⟩,
        ⟨[0x61, 0], 13⟩] : List Dirent), cString d.name ≠ [0x62] := by decide
    exact hnames d (List.mem_of_getElem? hd)

/-! ## Directories of several blocks

A directory has its own blocks, but the code takes the address of the first and walks on through
memory.  The records of the blocks are therefore what it visits only if the blocks lie one behind
the other.  `Directory.visits` is one direction, by induction on the number of blocks; for the
other, a directory that is listed as it is shows by the addresses of its records where its blocks
are. -/

/-- A well-formed directory of `k` blocks: the pieces at the offsets `records j` fill block `j`.  A
record does not cross the end of a block, and the lengths lead from one record to the next up to
exactly that end.  The blocks are those that the direct and the indirect block numbers can name. -/
structure Directory (g : Initrd) (m : Mem) (inode k : Nat) (records : Nat → List Nat) : Prop where
  blockSize_pos : 0 < g.blockSize m
  pos : 0 < k
  mapped : k ≤ 12 + g.blockSize m / 4
  size : Initrd.size m inode = k * g.blockSize m
  tiled : ∀ j < k, Walk.Tiles
    (fun o => Initrd.recLen m (u32 (g.ext2GetInodeBlock m inode j + o))) (g.blockSize m) 0
    (records j)

/-- The addresses of the records of the first `n` blocks, in order. -/
def recordsOf (g : Initrd) (m : Mem) (inode : Nat) (records : Nat → List Nat) (n : Nat) :
    List Nat :=
  (List.range n).flatMap fun j =>
    (records j).map fun o => u32 (g.ext2GetInodeBlock m inode j + o)

/-- The records at `ds` are listed, in order and each once, and they are what is found.  The three
functions of the driver walk through a directory each in its own way, and this says that they come
to the same records. -/
structure Lists (g : Initrd) (m : Mem) (node : FsNode) (ds : List Nat) : Prop where
  counted : ∀ i, g.ext2GetDirentry m (g.ext2GetInode m node.inode) i = .ok ds[i]?
  listed : ∀ i, g.readdirInitrd m node i = .ok (ds[i]?.map (Initrd.dirent m))
  found : ∀ name, (∃ found, g.finddirInitrd m node name = .ok (some found)) ↔
    ∃ d ∈ ds, cString (Initrd.entryName m d) = name

/-- Block `j` lies where it would if the blocks were one behind the other. -/
def BlockBehind (g : Initrd) (m : Mem) (inode j : Nat) : Prop :=
  g.ext2GetInodeBlock m inode j = u32 (g.ext2GetInodeBlock m inode 0 + j * g.blockSize m)

instance (g : Initrd) (m : Mem) (inode j : Nat) : Decidable (BlockBehind g m inode j) :=
  inferInstanceAs (Decidable (_ = _))

section
variable {g : Initrd} {m : Mem} {inode k n : Nat} {records : Nat → List Nat} {node : FsNode}

/-- **Blocks one behind the other are one row of records**, since the last record of a block goes up
to its end, which is where the next one begins. -/
theorem Directory.visits (h : Directory g m inode k records) (hn : n ≤ k)
    (hbehind : ∀ j < n, BlockBehind g m inode j) :
    ∃ ps, Walk.Visits (recordNext m (dirBlock g m inode)) (Initrd.size m inode) 0 ps
        (n * g.blockSize m) ∧ ps.length ≤ n * g.blockSize m ∧
      recordsOf g m inode records n = ps.map fun p => u32 (dirBlock g m inode + p) := by
  have hsize := Mem.load32_lt m (inode + 4)
  rw [← Initrd.size, h.size] at hsize
  have hblock : g.ext2GetInodeBlock m inode 0 = dirBlock g m inode := if_pos (by decide)
  induction n with
  | zero => exact ⟨[], (Nat.zero_mul _).symm, Nat.zero_le _, rfl⟩
  | succ n ih =>
    obtain ⟨ps, hvisits, hlength, hrecords⟩ := ih (Nat.le_of_succ_le hn)
      fun j hj => hbehind j (Nat.lt_succ_of_lt hj)
    have hfit : n * g.blockSize m + g.blockSize m ≤ k * g.blockSize m := by
      rw [← Nat.succ_mul]
      exact Nat.mul_le_mul_right _ hn
    have hplace : ∀ p, u32 (dirBlock g m inode + (n * g.blockSize m + p)) =
        u32 (g.ext2GetInodeBlock m inode n + p) := by
      intro p
      rw [hbehind n (Nat.lt_succ_self n), hblock, u32, u32, u32, Nat.mod_add_mod, Nat.add_assoc]
    have htiled := h.tiled n hn
    have hnext : ∀ p, p + Initrd.recLen m (u32 (g.ext2GetInodeBlock m inode n + p)) ≤
          g.blockSize m →
        recordNext m (dirBlock g m inode) (n * g.blockSize m + p) = n * g.blockSize m +
          (p + Initrd.recLen m (u32 (g.ext2GetInodeBlock m inode n + p))) := by
      intro p hp
      rw [recordNext, hplace, u32_eq (by omega), Nat.add_assoc]
    have hstop : n * g.blockSize m + g.blockSize m ≤ Initrd.size m inode := by
      rwa [h.size]
    have hblock_visits := htiled.visits hstop hnext
    rw [Nat.add_zero, ← Nat.succ_mul] at hblock_visits
    refine ⟨ps ++ (records n).map (n * g.blockSize m + ·), hvisits.append hblock_visits, ?_, ?_⟩
    · have := htiled.length_le
      rw [List.length_append, List.length_map, Nat.succ_mul]
      omega
    · rw [recordsOf, List.range_succ, List.flatMap_append, ← recordsOf, hrecords, List.map_append,
        List.flatMap_singleton, List.map_map]
      exact congrArg _ (List.map_congr_left fun o _ => (hplace o).symm)

/-- The first record of a block comes after those of the blocks before it. -/
theorem Directory.getElem?_records (h : Directory g m inode k records) (hn : n < k) :
    (recordsOf g m inode records k)[(recordsOf g m inode records n).length]? =
      some (u32 (g.ext2GetInodeBlock m inode n)) := by
  obtain ⟨qs, hqs⟩ := (h.tiled n hn).head h.blockSize_pos
  obtain ⟨d, rfl⟩ := Nat.exists_eq_add_of_lt hn
  have hrange : List.range (n + d + 1) = List.range n ++ n :: (List.range d).map (n + 1 + ·) := by
    rw [Nat.add_assoc, List.range_add, List.range_succ_eq_map, List.map_cons, List.map_map]
    refine congrArg _ (congrArg _ (List.map_congr_left fun i _ => ?_))
    simp only [Function.comp_apply]
    omega
  rw [recordsOf, hrange, List.flatMap_append, ← recordsOf, List.getElem?_append_right le_rfl,
    Nat.sub_self, List.flatMap_cons, hqs, List.map_cons, List.cons_append, List.getElem?_cons_zero,
    Nat.add_zero]

/-- When the blocks lie one behind the other, the directory is listed as it is. -/
theorem Directory.lists (h : Directory g m (g.ext2GetInode m node.inode) k records)
    (hmode : Initrd.mode m (g.ext2GetInode m node.inode) &&& 0x4000 ≠ 0)
    (hbehind : ∀ j < k, BlockBehind g m (g.ext2GetInode m node.inode) j) :
    Lists g m node (recordsOf g m (g.ext2GetInode m node.inode) records k) := by
  obtain ⟨ps, hvisits, -, hrecords⟩ := h.visits le_rfl hbehind
  have hps : DirRecords g m (g.ext2GetInode m node.inode) ps := ⟨_, hvisits, h.size.le⟩
  rw [hrecords]
  refine ⟨fun i => ?_, fun i => ?_, fun name => ?_⟩
  · rw [ext2GetDirentry_eq hps, List.getElem?_map]
  · rw [readdirInitrd_eq hps, List.getElem?_map, Option.map_map]
    rfl
  · rw [finddirInitrd_eq hps hmode]
    simp only [Except.ok.injEq, Option.map_eq_some_iff, List.mem_map]
    constructor
    · rintro ⟨found, p, hp, -⟩
      exact ⟨_, ⟨p, List.mem_of_find?_eq_some hp, rfl⟩,
        of_decide_eq_true (List.find?_some hp : hasName m _ name p = true)⟩
    · rintro ⟨d, ⟨p, hp, rfl⟩, hname⟩
      obtain ⟨q, hq⟩ : ∃ q, ps.find? (hasName m (dirBlock g m (g.ext2GetInode m node.inode)) name)
          = some q := by
        rw [← Option.isSome_iff_exists, List.find?_isSome]
        exact ⟨p, hp, decide_eq_true hname⟩
      exact ⟨_, q, hq, rfl⟩

/-- When the records are counted in order, the next block lies behind those before it. -/
theorem Directory.behind (h : Directory g m inode k records)
    (hcounted : ∀ i, g.ext2GetDirentry m inode i = .ok (recordsOf g m inode records k)[i]?)
    (hn : n < k) (hbehind : ∀ j < n, BlockBehind g m inode j) : BlockBehind g m inode n := by
  obtain ⟨ps, hvisits, hlength, hrecords⟩ := h.visits hn.le hbehind
  have hsize := Mem.load32_lt m (inode + 4)
  rw [← Initrd.size, h.size] at hsize
  have hlt : n * g.blockSize m < k * g.blockSize m := Nat.mul_lt_mul_of_pos_right hn h.blockSize_pos
  -- the loop comes to the end of the blocks before, and takes what is there for the next record
  have hnext : Walk.Visits (recordNext m (dirBlock g m inode)) (Initrd.size m inode) 0
      (ps ++ [n * g.blockSize m]) (recordNext m (dirBlock g m inode) (n * g.blockSize m)) :=
    hvisits.append ⟨rfl, by rw [h.size]; exact hlt, rfl⟩
  have hloop := direntryLoop_of_visits dirFuel hnext (i := ps.length) (k := 0)
    (by simp) (by rw [dirFuel]; omega) (by omega)
  have hcount := hcounted ps.length
  have hfirst := h.getElem?_records hn
  rw [hrecords, List.length_map] at hfirst
  rw [hfirst, Initrd.ext2GetDirentry, ← dirBlock] at hcount
  rw [Nat.zero_add, hcount] at hloop
  have hplace := Option.some.inj (Except.ok.inj hloop)
  rw [List.getElem_append_right le_rfl] at hplace
  simp only [Nat.sub_self, List.getElem_cons_zero] at hplace
  rw [u32_eq (ext2GetInodeBlock_lt ..)] at hplace
  exact hplace

end

/-- **A directory is listed and found as it is exactly when its blocks lie one behind the other.**
-/
theorem lists_iff (g : Initrd) (m : Mem) (node : FsNode) (k : Nat) (records : Nat → List Nat)
    (hdir : Directory g m (g.ext2GetInode m node.inode) k records)
    (hmode : Initrd.mode m (g.ext2GetInode m node.inode) &&& 0x4000 ≠ 0) :
    Lists g m node (recordsOf g m (g.ext2GetInode m node.inode) records k) ↔
      ∀ j < k, BlockBehind g m (g.ext2GetInode m node.inode) j := by
  refine ⟨fun h j => ?_, hdir.lists hmode⟩
  induction j using Nat.strong_induction_on with
  | _ j ih =>
    intro hj
    exact hdir.behind h.counted hj fun i hi => ih i hi (hi.trans hj)

/-- An image with a directory of two blocks of 1024 bytes, block 3 and block `second`.  There is a
record in each, `a` with inode 11 and `b` with inode 12. -/
def twoBlockImage (second : Nat) : Mem := fun x =>
  if x = 0x20AC then UInt8.ofNat second
  else if x = 0x400 * second then 12
  else if x = 0x400 * second + 5 then 4
  else if x = 0x400 * second + 6 then 1
  else if x = 0x400 * second + 8 then 0x62
  else match x with
    | 1112 => 128
    | 0x0C00 => 11
    | 0x0C05 => 4
    | 0x0C06 => 1
    | 0x0C08 => 0x61
    | 0x2081 => 0x40
    | 0x2085 => 8
    | 0x20A8 => 3
    | _ => 0

/-- The node of its directory. -/
def twoBlockNode : FsNode :=
  { name := [0x2F, 0], mask := 0, uid := 0, gid := 0, flags := fsDirectory, inode := 2,
    length := 2048 }

theorem twoBlock_directory (second : Nat) (hsecond : second = 4 ∨ second = 5) :
    Directory oneEntryInitrd (twoBlockImage second)
      (oneEntryInitrd.ext2GetInode (twoBlockImage second) twoBlockNode.inode) 2 fun _ => [0] := by
  rcases hsecond with rfl | rfl
  · refine ⟨by decide, by decide, by decide, by decide, fun j hj => ?_⟩
    rcases (by omega : j = 0 ∨ j = 1) with rfl | rfl
    · exact ⟨rfl, by decide, show _ = _ by decide⟩
    · exact ⟨rfl, by decide, show _ = _ by decide⟩
  · refine ⟨by decide, by decide, by decide, by decide, fun j hj => ?_⟩
    rcases (by omega : j = 0 ∨ j = 1) with rfl | rfl
    · exact ⟨rfl, by decide, show _ = _ by decide⟩
    · exact ⟨rfl, by decide, show _ = _ by decide⟩

theorem lists_two_blocks :
    Lists oneEntryInitrd (twoBlockImage 4) twoBlockNode
      (recordsOf oneEntryInitrd (twoBlockImage 4)
        (oneEntryInitrd.ext2GetInode (twoBlockImage 4) twoBlockNode.inode) (fun _ => [0]) 2) :=
  (lists_iff oneEntryInitrd (twoBlockImage 4) twoBlockNode 2 (fun _ => [0])
    (twoBlock_directory 4 (Or.inl rfl)) (by decide)).mpr (by decide)

/-- The second block is block 5, and what lies in block 4 is listed in its place. -/
theorem not_lists :
    ¬ Lists oneEntryInitrd (twoBlockImage 5) twoBlockNode
      (recordsOf oneEntryInitrd (twoBlockImage 5)
        (oneEntryInitrd.ext2GetInode (twoBlockImage 5) twoBlockNode.inode) (fun _ => [0]) 2) := by
  intro h
  have hbehind := (twoBlock_directory 5 (Or.inr rfl)).behind h.counted (n := 1) (by decide)
    (by decide)
  exact absurd hbehind (by decide)

end MyaXOS
