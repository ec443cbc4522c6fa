import MyaXOS.Ext2.Types

/-!
# Directories that are not well formed

Both walks over a directory take the length of a record from the image and add it to the offset.
Nothing checks that it is not zero, that it leads forwards, or that the record has room for its
header and name.

* `finddirReads` and `readdirReads` are the bytes of the directory that the two walks read.
* `ls` is the loop of the shell over `readdir_fs`.
* `walks_end_iff` says for which images the walks end and stay inside the directory.

**What a walk reads** is given by functions that follow the loops, round by round, and list the
offsets.  For a record that is compared these are `name_len` and the name, and then either the inode
number, if the name is the right one, or `rec_len`, to go on.  For a record that is counted it is
`rec_len` only.  So the walks do not read the same, and a record may be harmless for one of them.

**Enough.**  If the lengths lead from the start of the directory to its end, and each record on the
way lies inside, then all that is read lies inside; this is an induction on the offsets that are
visited, since every round of either walk is at one of them.

**Necessary.**  The converse needs a search that has to look at everything, and there is one: no
record has a name of 256 characters, since the length of a name is a byte.  A search for such a name
does not stop early.  When it ends, it has visited all the records (`visits_of_finddirLoop`) and has
read the header and the name of each, so if it has stayed inside then each record lies inside.  Here
the induction is on the fuel, and it builds the list of the offsets as it goes.

That the walk ends at all is part of both directions.  A record that leads back is not excluded by
anything but the end of the search: a walk that has come to the end of the directory has visited no
offset twice, or it would never have come there.
-/

set_option autoImplicit false

namespace MyaXOS

namespace Initrd

/-! ## What the walks read

For each loop a second function with the same recursion, which returns the offsets that the loop
reads in place of what it returns.  An access is listed where the code makes it, so that a record
whose name has been compared contributes its name even if the walk stops there. -/

/-- The offsets of the name of the record at an offset. -/
def nameOffsets (m : Mem) (block dirOffset : Nat) : List Nat :=
  (List.range (nameLen m (u32 (block + dirOffset)))).map (dirOffset + 8 + ·)

/-- The offsets that the `while` loop of `finddir_initrd` reads, and those of the inode number when
the record is found: `name_len` and the name, then `inode` or `rec_len`. -/
def finddirLoopReads (m : Mem) (block size : Nat) (name : List UInt8) : Nat → Nat → List Nat
  | 0, _ => []
  | fuel + 1, dirOffset =>
    if dirOffset < size then
      let dEnt := u32 (block + dirOffset)
      (dirOffset + 6) :: nameOffsets m block dirOffset ++
        if strcmp (cString (entryName m dEnt)) name = 0 then (List.range 4).map (dirOffset + ·)
        else [dirOffset + 4, dirOffset + 5] ++
          finddirLoopReads m block size name fuel (u32 (dirOffset + recLen m dEnt))
    else []

/-- The offsets that `finddir_initrd(node, name)` reads. -/
def finddirReads (g : Initrd) (m : Mem) (node : FsNode) (name : List UInt8) : List Nat :=
  let inode := g.ext2GetInode m node.inode
  finddirLoopReads m (g.ext2GetInodeBlock m inode 0) (size m inode) name dirFuel 0

/-- The offsets that the loop of `ext2_get_direntry` reads, and those that `readdir_initrd` reads of
the record that it gets: `rec_len` before, and then `inode`, `name_len` and the name. -/
def direntryLoopReads (m : Mem) (block size index : Nat) : Nat → Nat → Nat → List Nat
  | 0, _, _ => []
  | fuel + 1, dirOffset, dirIndex =>
    if dirOffset < size then
      let dEnt := u32 (block + dirOffset)
      if dirIndex = index then
        (List.range 4).map (dirOffset + ·) ++ (dirOffset + 6) :: nameOffsets m block dirOffset
      else [dirOffset + 4, dirOffset + 5] ++
        direntryLoopReads m block size index fuel (u32 (dirOffset + recLen m dEnt))
          (u32 (dirIndex + 1))
    else []

/-- The offsets that `readdir_initrd(node, index)` reads. -/
def readdirReads (g : Initrd) (m : Mem) (node : FsNode) (index : Nat) : List Nat :=
  let inode := g.ext2GetInode m node.inode
  direntryLoopReads m (g.ext2GetBlock m (block m inode 0)) (size m inode) index dirFuel 0 0

/-- The loop of the shell over `readdir_fs`, from index `i` on: the entries it prints. -/
def lsLoop (g : Initrd) (m : Mem) (node : FsNode) : Nat → Nat → Except Stop (List Dirent)
  | 0, _ => .error .spin
  | fuel + 1, i => do
    match ← g.readdirFs m node i with
    | none => .ok []
    | some entry => do
      let entries ← lsLoop g m node fuel (u32 (i + 1))
      .ok (entry :: entries)

/-- `ls` in the directory `node`. -/
def ls (g : Initrd) (m : Mem) (node : FsNode) : Except Stop (List Dirent) :=
  g.lsLoop m node dirFuel 0

end Initrd

/-! ## One record

A record at `p` is read from `p` to the end of its name.  The bytes up to `name_len` and the name
lie next to each other, so all of it is inside exactly if its last byte is. -/

/-- What is read of the record at offset `p` lies below `size`: the header up to `name_len`, and the
name. -/
def RecordInside (m : Mem) (block size p : Nat) : Prop :=
  p + 7 ≤ size ∧ (Initrd.nameLen m (u32 (block + p)) = 0 ∨
    p + 8 + Initrd.nameLen m (u32 (block + p)) ≤ size)

section
variable {m : Mem} {block size o o' p fuel : Nat} {ps : List Nat} {name : List UInt8}

theorem nameOffsets_lt_iff (m : Mem) (block size p : Nat) :
    (∀ q ∈ Initrd.nameOffsets m block p, q < size) ↔
      Initrd.nameLen m (u32 (block + p)) = 0 ∨
        p + 8 + Initrd.nameLen m (u32 (block + p)) ≤ size := by
  rw [Initrd.nameOffsets]
  simp only [List.mem_map, List.mem_range, forall_exists_index, and_imp,
    forall_apply_eq_imp_iff₂]
  constructor
  · intro h
    rcases Nat.eq_zero_or_pos (Initrd.nameLen m (u32 (block + p))) with hzero | hpos
    · exact Or.inl hzero
    · have hlast := h (Initrd.nameLen m (u32 (block + p)) - 1) (by omega)
      exact Or.inr (by omega)
  · rintro (hzero | hle) k hk
    · omega
    · omega

/-- What both walks read of a record that lies inside. -/
theorem RecordInside.reads (h : RecordInside m block size p) :
    (∀ q ∈ (p + 6) :: Initrd.nameOffsets m block p, q < size) ∧
    (∀ q ∈ [p + 4, p + 5], q < size) ∧ ∀ q ∈ (List.range 4).map (p + ·), q < size := by
  have hheader : ∀ j < 7, p + j < size := fun j hj => (Nat.add_lt_add_left hj p).trans_le h.1
  refine ⟨List.forall_mem_cons.mpr ⟨hheader 6 (by decide), ?_⟩,
    List.forall_mem_cons.mpr ⟨hheader 4 (by decide), ?_⟩, fun q hq => ?_⟩
  · exact (nameOffsets_lt_iff m block size p).mpr h.2
  · exact List.forall_mem_singleton.mpr (hheader 5 (by decide))
  · obtain ⟨j, hj, rfl⟩ := List.mem_map.mp hq
    exact hheader j ((List.mem_range.mp hj).trans (by decide))

/-! ## A name that is not there

To know something about all records from a search one needs a search that does not stop at one.  A
name of 256 characters is in no record, since `name_len` is a byte; the search for it walks over all
of them, and what it reads are the names of all records. -/

/-- A name of 256 characters. -/
def longName : List UInt8 := List.replicate 256 0x78

/-- No record has a name as long as this: the length of a name is a byte. -/
theorem entryName_ne_longName (m : Mem) (dEnt : Nat) :
    cString (Initrd.entryName m dEnt) ≠ longName := by
  intro heq
  have hlength : longName.length = 256 := List.length_replicate
  have hle : (cString (Initrd.entryName m dEnt)).length ≤ (m (dEnt + 6)).toNat := by
    have hzero : Initrd.entryName m dEnt = ((List.range (Initrd.nameLen m dEnt)).map fun i =>
        m (u32 (dEnt + 8 + i))) ++ [0] := rfl
    rw [cString, hzero, List.takeWhile_append]
    split_ifs
    · rw [List.length_append, List.length_map, List.length_range]
      exact le_rfl
    · refine (List.takeWhile_prefix _).length_le.trans ?_
      rw [List.length_map, List.length_range]
      exact le_rfl
  rw [heq, hlength] at hle
  have hbyte := (m (dEnt + 6)).toNat_lt
  omega

/-- **A search that ends without a record** has walked over all of them, and has read of each its
`name_len`, its name and its `rec_len`. -/
theorem visits_of_finddirLoop (hname : ∀ p, cString (Initrd.entryName m (u32 (block + p))) ≠ name)
    {found : Option Nat} (h : Initrd.finddirLoop m block size name fuel o = .ok found)
    (hreads : ∀ q ∈ Initrd.finddirLoopReads m block size name fuel o, q < size) :
    ∃ ps o', Walk.Visits (recordNext m block) size o ps o' ∧ size ≤ o' ∧
      ∀ p ∈ ps, RecordInside m block size p := by
  induction fuel generalizing o with
  | zero => cases h
  | succ fuel ih =>
    have hne : strcmp (cString (Initrd.entryName m (u32 (block + o)))) name ≠ 0 :=
      mt strcmp_eq_zero.mp (hname o)
    rw [Initrd.finddirLoop] at h
    rw [Initrd.finddirLoopReads] at hreads
    by_cases hlt : o < size
    · simp only [if_pos hlt, if_neg hne] at h hreads
      simp only [List.forall_mem_append, List.forall_mem_cons] at hreads
      obtain ⟨⟨hlen, hoffsets⟩, ⟨-, -, -⟩, hrest⟩ := hreads
      obtain ⟨ps, o', hvisits, hout, hinside⟩ := ih h hrest
      refine ⟨o :: ps, o', ⟨rfl, hlt, hvisits⟩, hout, List.forall_mem_cons.mpr ⟨?_, hinside⟩⟩
      exact ⟨hlen, (nameOffsets_lt_iff m block size o).mp hoffsets⟩
    · exact ⟨[], o, rfl, Nat.le_of_not_lt hlt, List.forall_mem_nil _⟩

/-! ## Records that lie inside

If each record on the way lies inside then so does each access, by induction along the walk.  This
is for any name and any index, also for those where a walk stops early, which then reads a part of
what the whole walk reads. -/

theorem finddirLoopReads_lt (h : Walk.Visits (recordNext m block) size o ps o') (hout : size ≤ o')
    (hinside : ∀ p ∈ ps, RecordInside m block size p) :
    ∀ q ∈ Initrd.finddirLoopReads m block size name fuel o, q < size := by
  induction fuel generalizing o ps with
  | zero => exact List.forall_mem_nil _
  | succ fuel ih =>
    rw [Initrd.finddirLoopReads]
    cases ps with
    | nil =>
      cases h
      rw [if_neg (Nat.not_lt.mpr hout)]
      exact List.forall_mem_nil _
    | cons p ps =>
      obtain ⟨rfl, hlt, hrest⟩ := h
      obtain ⟨hfirst, hinside⟩ := List.forall_mem_cons.mp hinside
      obtain ⟨hname, hlength, hnumber⟩ := hfirst.reads
      rw [if_pos hlt]
      refine List.forall_mem_append.mpr ⟨hname, ?_⟩
      split_ifs
      · exact hnumber
      · exact List.forall_mem_append.mpr ⟨hlength, ih hrest hinside⟩

theorem direntryLoopReads_lt {index k : Nat} (h : Walk.Visits (recordNext m block) size o ps o')
    (hout : size ≤ o') (hinside : ∀ p ∈ ps, RecordInside m block size p) :
    ∀ q ∈ Initrd.direntryLoopReads m block size index fuel o k, q < size := by
  induction fuel generalizing o ps k with
  | zero => exact List.forall_mem_nil _
  | succ fuel ih =>
    rw [Initrd.direntryLoopReads]
    cases ps with
    | nil =>
      cases h
      rw [if_neg (Nat.not_lt.mpr hout)]
      exact List.forall_mem_nil _
    | cons p ps =>
      obtain ⟨rfl, hlt, hrest⟩ := h
      obtain ⟨hfirst, hinside⟩ := List.forall_mem_cons.mp hinside
      obtain ⟨hname, hlength, hnumber⟩ := hfirst.reads
      rw [if_pos hlt]
      split_ifs
      · exact List.forall_mem_append.mpr ⟨hnumber, hname⟩
      · exact List.forall_mem_append.mpr ⟨hlength, ih hrest hinside⟩

end

/-! ## When the walks end

The condition is enough by the lemmas before.  It is necessary because of the name that is not
there: if the search for it ends then the walk ends, and if it stays inside then the records do. -/

/-- Every search in a directory ends, some index has no entry, and so `ls` ends too; and no walk
reads a byte of a record at or behind the size of the directory. -/
structure WalksEnd (g : Initrd) (m : Mem) (node : FsNode) : Prop where
  found : ∀ name, ∃ found, g.finddirInitrd m node name = .ok found
  listed : ∃ index < 0x100000000, g.readdirInitrd m node index = .ok none
  ls : ∃ entries, g.ls m node = .ok entries
  finddir_inside : ∀ name, ∀ o ∈ g.finddirReads m node name,
    o < Initrd.size m (g.ext2GetInode m node.inode)
  readdir_inside : ∀ index, ∀ o ∈ g.readdirReads m node index,
    o < Initrd.size m (g.ext2GetInode m node.inode)

section
variable {g : Initrd} {m : Mem} {node : FsNode} {ps : List Nat}

/-- The blocks that the two walks start with are the same. -/
theorem ext2GetInodeBlock_zero (g : Initrd) (m : Mem) (inode : Nat) :
    g.ext2GetInodeBlock m inode 0 = dirBlock g m inode := if_pos (by decide)

/-- `ls` in a directory with so many records. -/
theorem lsLoop_eq (h : DirRecords g m (g.ext2GetInode m node.inode) ps) {fuel i : Nat}
    (hi : i ≤ ps.length) (hfuel : ps.length - i < fuel) :
    ∃ entries, g.lsLoop m node fuel i = .ok entries := by
  have hlength := dirRecords_length_lt h
  induction fuel generalizing i with
  | zero => exact absurd hfuel (Nat.not_lt_zero _)
  | succ fuel ih =>
    rw [Initrd.lsLoop, Initrd.readdirFs]
    by_cases haccepts : (g.vfs m).Accepts node
    · rw [if_pos haccepts, readdirInitrd_eq h, ok_bind]
      rcases Nat.lt_or_ge i ps.length with hlt | hge
      · obtain ⟨entries, hentries⟩ := ih (i := i + 1) hlt (by omega)
        rw [List.getElem?_eq_getElem hlt, u32_eq (by omega)]
        simp only [Option.map_some, hentries]
        exact ⟨_, rfl⟩
      · rw [List.getElem?_eq_none hge]
        exact ⟨[], rfl⟩
    · rw [if_neg haccepts]
      exact ⟨[], rfl⟩

/-- **The walks end when the records lie inside.**  A walk that goes from record to record up to the
end of the directory is one that each of the loops makes, with as many rounds. -/
theorem walksEnd_of_records (hdir : g.IsDirectory m node)
    (h : DirRecords g m (g.ext2GetInode m node.inode) ps)
    (hinside : ∀ p ∈ ps, RecordInside m (dirBlock g m (g.ext2GetInode m node.inode))
      (Initrd.size m (g.ext2GetInode m node.inode)) p) : WalksEnd g m node := by
  have hlength := dirRecords_length_lt h
  have hmode : Initrd.mode m (g.ext2GetInode m node.inode) &&& 0x4000 ≠ 0 := by
    rw [Initrd.IsDirectory, Initrd.modeOf] at hdir
    rw [and_mask_eq _ 0x4000 rfl, hdir]
    decide
  obtain ⟨o', hvisits, hout⟩ := id h
  refine ⟨fun name => ⟨_, finddirInitrd_eq h hmode⟩, ⟨ps.length, hlength, ?_⟩,
    lsLoop_eq h (Nat.zero_le _) (by rw [dirFuel]; omega), fun name o ho => ?_, fun index o ho => ?_⟩
  · rw [readdirInitrd_eq h, List.getElem?_eq_none le_rfl]
    rfl
  · rw [Initrd.finddirReads] at ho
    simp only [ext2GetInodeBlock_zero] at ho
    exact finddirLoopReads_lt hvisits hout hinside o ho
  · exact direntryLoopReads_lt hvisits hout hinside o ho

/-- **Where a search for a name that is not there ends**, it has walked over the records. -/
theorem records_of_walksEnd (h : WalksEnd g m node) :
    ∃ ps, DirRecords g m (g.ext2GetInode m node.inode) ps ∧
      ∀ p ∈ ps, RecordInside m (dirBlock g m (g.ext2GetInode m node.inode))
        (Initrd.size m (g.ext2GetInode m node.inode)) p := by
  obtain ⟨found, hfound⟩ := h.found longName
  have hreads := h.finddir_inside longName
  rw [Initrd.finddirReads] at hreads
  obtain ⟨_, -, hfound⟩ := bind_eq_ok hfound
  obtain ⟨direntry, hloop, -⟩ := bind_eq_ok hfound
  rw [ext2GetInodeBlock_zero] at hloop hreads
  obtain ⟨ps, o', hvisits, hout, hinside⟩ :=
    visits_of_finddirLoop (fun _ => entryName_ne_longName m _) hloop hreads
  exact ⟨ps, ⟨o', hvisits, hout⟩, hinside⟩

end

/-- **The walks over a directory end and stay inside it exactly when** the lengths of its records
lead from its start to its end, and each record on the way lies inside. -/
theorem walks_end_iff (g : Initrd) (m : Mem) (node : FsNode) (hdir : g.IsDirectory m node) :
    WalksEnd g m node ↔ ∃ ps, DirRecords g m (g.ext2GetInode m node.inode) ps ∧
      ∀ p ∈ ps, RecordInside m (dirBlock g m (g.ext2GetInode m node.inode))
        (Initrd.size m (g.ext2GetInode m node.inode)) p :=
  ⟨records_of_walksEnd, fun ⟨_, h, hinside⟩ => walksEnd_of_records hdir h hinside⟩

theorem walks_end_one : WalksEnd oneEntryInitrd oneEntryImage oneEntryNode := by
  refine (walks_end_iff oneEntryInitrd oneEntryImage oneEntryNode (by
    rw [Initrd.IsDirectory]
    decide)).mpr ⟨[0], oneEntry_records, ?_⟩
  rw [List.forall_mem_singleton]
  exact ⟨by decide, Or.inr (by decide)⟩

/-- The image with a directory of one record, whose length is 0. -/
def zeroLengthImage : Mem := fun x => if x = 0x0C04 then 0 else oneEntryImage x

/-- A record that leads back to itself is compared again and again. -/
theorem finddirLoop_spin {m : Mem} {block size o : Nat} {name : List UInt8}
    (hnext : recordNext m block o = o) (hlt : o < size)
    (hname : cString (Initrd.entryName m (u32 (block + o))) ≠ name) (fuel : Nat) :
    Initrd.finddirLoop m block size name fuel o = .error .spin := by
  induction fuel with
  | zero => rfl
  | succ fuel ih =>
    rw [recordNext] at hnext
    rw [Initrd.finddirLoop, if_pos hlt]
    simp only [if_neg (mt strcmp_eq_zero.mp hname), hnext, ih]

/-- The search for `b` does not come past the record. -/
theorem not_walks_end :
    oneEntryInitrd.IsDirectory zeroLengthImage oneEntryNode ∧
    oneEntryInitrd.finddirInitrd zeroLengthImage oneEntryNode [0x62] = .error .spin := by
  have hmode : Initrd.mode zeroLengthImage
      (oneEntryInitrd.ext2GetInode zeroLengthImage oneEntryNode.inode) &&& 0x4000 ≠ 0 := by
    decide
  refine ⟨show _ = _ by decide, ?_⟩
  rw [Initrd.finddirInitrd, assert_bind hmode, finddirLoop_spin (by decide) (by decide) (by decide)]
  rfl

end MyaXOS
