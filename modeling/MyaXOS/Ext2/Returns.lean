import MyaXOS.Ext2.Kopen

/-!
# When `kopen` returns

What is known of `kopen` from `Ext2/Kopen.lean` is about calls that return.  Here is when they do:
when `sbrk` can return a few pages, and the records of the directories lead to their ends.

* `TreeListed` says that every directory that a walk can come to has a list of records, of a bounded
  length.
* `finddirLoop_returns`, `finddirFs_returns`, `walkLoop_returns` and `kopen_returns` follow the
  functions once more, and give a state in which each of them ends.

**Why this is separate.**  A call can stop for reasons that have nothing to do with what it does if
it goes on: a record that leads back to itself, or a heap that cannot grow.  The specifications
would have to carry both through every step.  Split like this, they say what a result means, and the
lemmas here say that there is one; neither needs the other, except that the calls of `malloc` in a
loop have to know that the state they are made in is a good one.

**Counting pages.**  A small block takes one page at most from `sbrk` (`Inv.malloc_pages`), and
giving one back takes none.  So each function has a number of pages that it can take: one for each
record that is compared, one for a node, and for a walk that many for each of its names.
`SbrkPages` is how many `sbrk` can return, and it goes down by one with each call of `malloc`.  The
bound is generous, since a copy of a name is given back before the next one is made, but nothing
needs a better one.
-/

set_option autoImplicit false

namespace MyaXOS

variable {σ ρ : Type}

/-- Every directory that a walk from `root` comes to has the bit of a directory, and a walk over its
records ends after `r` records at most. -/
def TreeListed (g : Initrd) (m : Mem) (r : Nat) (root : FsNode) : Prop :=
  ∀ names node, (g.vfs m).lookup root names = .ok (some node) → node.flags &&& fsDirectory ≠ 0 →
    Initrd.mode m (g.ext2GetInode m node.inode) &&& 0x4000 ≠ 0 ∧
      ∃ ps, DirRecords g m (g.ext2GetInode m node.inode) ps ∧ ps.length ≤ r

theorem TreeListed.child {g : Initrd} {m : Mem} {r : Nat} {root node : FsNode} {name : List UInt8}
    (h : TreeListed g m r root) (hnode : (g.vfs m).finddirFs root name = .ok (some node)) :
    TreeListed g m r node := fun names child hchild => h (name :: names) child (by
  rw [Vfs.lookup, hnode, ok_bind]
  exact hchild)

namespace HeapFs

section
variable {fs : HeapFs σ ρ} {Ready : σ → Prop} {s : AllocRun σ ρ} {m : Mem}
  {length inode block name node k r : Nat} {v : FsNode} {w : List UInt8}

/-- **The loop comes to its end** if the walk over the records does.  It takes a page for each of
them at most. -/
theorem finddirLoop_returns (hsbrk : SbrkFresh fs.env.sbrk fs.heapEnd Ready)
    (hbelow : SbrkBelow fs.env.sbrk fs.heapEnd Ready) (htree : TreeInside fs.g m length v)
    (hinode : InodeInside fs.g length inode) (hfits : name + w.length < 0x100000000)
    {fuel dirOffset o' : Nat} {ps : List Nat} (hinv : ∃ A, s.Inv fs.env fs.heapEnd Ready A)
    (himage : fs.HoldsImage m length s) (hname : fs.HoldsString name w s)
    (hentries : EntriesInside fs.g m length block (Initrd.size m inode) dirOffset)
    (hvisits : Walk.Visits (recordNext m block) (Initrd.size m inode) dirOffset ps o')
    (hout : Initrd.size m inode ≤ o') (hfuel : ps.length < fuel)
    (hpages : SbrkPages fs.env.sbrk (ps.length + k) s.heap.os) :
    ∃ direntry t, fs.finddirLoop inode block name fuel dirOffset s = .ok (direntry, t) ∧
      SbrkPages fs.env.sbrk k t.heap.os := by
  induction ps generalizing dirOffset s fuel with
  | nil =>
    cases hvisits
    obtain _ | fuel := fuel
    · exact absurd hfuel (Nat.not_lt_zero _)
    refine ⟨0, s, ?_, hpages.mono (Nat.le_add_left ..)⟩
    rw [finddirLoop, hinode.size_congr himage.now, if_neg (Nat.not_lt.mpr hout)]
  | cons p ps ih =>
    obtain ⟨rfl, hlt, hrest⟩ := hvisits
    rw [List.length_cons] at hfuel hpages
    obtain _ | fuel := fuel
    · exact absurd hfuel (Nat.not_lt_zero _)
    have hentry := hentries.head hlt
    have hlen := nameLen_lt s.heap.mem (u32 (block + dirOffset))
    obtain ⟨A, hA⟩ := hinv
    obtain ⟨dname, s₁, hmalloc, hpages₁⟩ := hA.malloc_pages hsbrk hbelow
      (n := Initrd.nameLen s.heap.mem (u32 (block + dirOffset)) + 1) (Nat.succ_pos _) (by omega)
      (by rwa [show ps.length + k + 1 = ps.length + 1 + k by omega])
    obtain ⟨hadds, hcopy, hwanted⟩ := copied hsbrk hbelow ⟨A, hA⟩ htree himage hname hfits hentry
      hmalloc
    obtain ⟨B, hB⟩ := hadds.inv
    obtain ⟨s₂, hfree, hos⟩ := hB.free_pages (hadds.mem_live List.mem_cons_self).1
    have hpages₂ : SbrkPages fs.env.sbrk (ps.length + k) s₂.heap.os := by
      rw [hos]
      exact hpages₁
    have hgone : fs.Adds Ready [] s s₂ := hadds.free_single hfree
    have himage₂ := himage.adds hgone
    rw [finddirLoop, hinode.size_congr himage.now, if_pos hlt]
    simp only [hmalloc, hcopy, hwanted, ok_bind, hfree, hentry.recLen_congr himage₂.now]
    by_cases heq : strcmp (cString (Initrd.entryName m (u32 (block + dirOffset)))) w = 0
    · rw [if_pos heq]
      exact ⟨_, s₂, rfl, hpages₂.mono (Nat.le_add_left ..)⟩
    · rw [if_neg heq]
      exact ih hgone.inv himage₂ (hname.adds hgone) (hentries.next hlt) hrest
        (Nat.lt_of_succ_lt_succ hfuel) hpages₂

/-- **`finddir_fs` returns** for a node of a tree whose directories end.  Each record and the node
that is found take a page at most, so a directory with `r` records takes `r + 1`. -/
theorem finddirFs_returns (hsbrk : SbrkFresh fs.env.sbrk fs.heapEnd Ready)
    (hbelow : SbrkBelow fs.env.sbrk fs.heapEnd Ready) (htree : TreeInside fs.g m length v)
    (hlisted : TreeListed fs.g m r v) (hfits : name + w.length < 0x100000000)
    (hinv : ∃ A, s.Inv fs.env fs.heapEnd Ready A) (himage : fs.HoldsImage m length s)
    (hname : fs.HoldsString name w s) (hnode : fs.HoldsFsNode node v s)
    (hpages : SbrkPages fs.env.sbrk (r + 1 + k) s.heap.os) :
    ∃ outnode t, fs.finddirFs node name s = .ok (outnode, t) ∧
      SbrkPages fs.env.sbrk k t.heap.os := by
  rw [finddirFs_eq hnode.now]
  by_cases hflag : v.flags &&& fsDirectory ≠ 0
  · have hdir := htree.root_dir hflag
    obtain ⟨hmode, ps, hrecords, hlength⟩ := hlisted [] v rfl hflag
    have hshort := dirRecords_length_lt hrecords
    obtain ⟨o', hvisits, hout⟩ := hrecords
    have hinode : fs.g.ext2GetInode s.heap.mem (fsNodeInode s.heap.mem node) =
        fs.g.ext2GetInode m v.inode := by
      rw [hnode.now.inode, htree.ext2GetInode_congr himage.now]
    obtain ⟨direntry, s₁, hloop, hpages₁⟩ := finddirLoop_returns hsbrk hbelow htree hdir.inode_in
      hfits hinv himage hname hdir.entries hvisits hout
      (show ps.length < dirFuel by rw [dirFuel]; omega) (k := 1 + k) (hpages.mono (by omega))
    rw [if_pos hflag, finddirInitrd]
    simp only [hinode, hdir.inode_in.mode_congr himage.now,
      htree.ext2GetInodeBlock_congr himage.now hdir.inode_in]
    rw [assert_bind hmode, hloop, ok_bind]
    by_cases hnull : direntry = 0
    · simp only [if_pos hnull]
      exact ⟨0, s₁, rfl, hpages₁.mono (Nat.le_add_left ..)⟩
    · obtain ⟨hadds, -⟩ := finddirLoop_spec hsbrk hbelow htree hdir.inode_in hfits hinv himage hname
        hdir.entries hloop
      obtain ⟨A, hA⟩ := hadds.inv
      obtain ⟨outnode, s₂, hmalloc, hpages₂⟩ := hA.malloc_pages hsbrk hbelow (n := fsNodeSize)
        (by decide) (by decide) (by rwa [Nat.add_comm k 1])
      simp only [if_neg hnull, hmalloc, ok_bind]
      exact ⟨_, _, rfl, hpages₂⟩
  · rw [if_neg hflag]
    exact ⟨0, s, rfl, hpages.mono (Nat.le_add_left ..)⟩

/-- **The loop of `kopen` returns**, if there are pages for a lookup in each round.  The induction
is on the rounds that are left, and each uses up its share. -/
theorem walkLoop_returns (hsbrk : SbrkFresh fs.env.sbrk fs.heapEnd Ready)
    (hbelow : SbrkBelow fs.env.sbrk fs.heapEnd Ready) {left pathOffset : Nat} {path : List UInt8}
    (htree : TreeInside fs.g m length v) (hlisted : TreeListed fs.g m r v)
    (hfits : pathOffset + path.length < 0x100000000) (hleft : left = (path.splitOn 0x2F).length)
    (hinv : ∃ A, s.Inv fs.env fs.heapEnd Ready A) (himage : fs.HoldsImage m length s)
    (hpath : fs.HoldsPath pathOffset path s) (hnode : fs.HoldsFsNode node v s)
    (hpages : SbrkPages fs.env.sbrk (left * (r + 1)) s.heap.os) :
    ∃ nodePtr t, fs.walkLoop left pathOffset node s = .ok (nodePtr, t) := by
  induction left generalizing path pathOffset node v s with
  | zero => exact ⟨0, s, rfl⟩
  | succ left ih =>
    obtain ⟨w, names, hsplit⟩ := List.exists_cons_of_ne_nil (List.splitOn_ne_nil 0x2F path)
    obtain ⟨hname, hlength, hrest⟩ := hpath.cases hsplit
    rw [Nat.succ_mul, Nat.add_comm] at hpages
    obtain ⟨ptr, s₁, hfind, hpages₁⟩ := finddirFs_returns hsbrk hbelow htree hlisted
      (show pathOffset + w.length < 0x100000000 by omega) hinv himage hname hnode hpages
    obtain ⟨found, hfound, hfinds⟩ := finddirFs_spec hsbrk hbelow htree (by omega) hinv himage hname
      hnode hfind
    rw [walkLoop, hfind, ok_bind]
    cases found with
    | none =>
      simp only [hfinds.1, if_true]
      exact ⟨0, s₁, rfl⟩
    | some child =>
      obtain ⟨hne, hadds, hchild⟩ := hfinds
      simp only [if_neg hne]
      by_cases hzero : left = 0
      · simp only [if_pos hzero, openFs_eq hchild.now, ok_bind]
        exact ⟨ptr, s₁, rfl⟩
      · rw [hsplit, List.length_cons, Nat.add_right_cancel_iff] at hleft
        obtain ⟨rest, rfl, hrest_length, hrest⟩ := hrest.resolve_left fun hnil => by
          rw [hnil] at hleft
          exact hzero hleft
        simp only [if_neg hzero, strlen_eq (hname.adds hadds).now
          (show pathOffset + w.length < 0x100000000 by omega), ok_bind]
        rw [u32_eq (by omega), ← Nat.add_assoc]
        exact ih (htree.child hfound) (hlisted.child hfound) (by omega) hleft hadds.inv
          (himage.adds hadds) (hrest.adds hadds) hchild hpages₁

/-- **`kopen` returns**, for a path of up to 2048 bytes in a tree whose directories end, if `sbrk`
has a page for the copy, and for each name as many as a directory has records, and one. -/
theorem kopen_returns (hsbrk : SbrkFresh fs.env.sbrk fs.heapEnd Ready)
    (hbelow : SbrkBelow fs.env.sbrk fs.heapEnd Ready) {filename rootPtr : Nat} {path : List UInt8}
    (htree : TreeInside fs.g m length v) (hlisted : TreeListed fs.g m r v) (hroot_ne : rootPtr ≠ 0)
    (hinv : ∃ A, s.Inv fs.env fs.heapEnd Ready A) (himage : fs.HoldsImage m length s)
    (hroot : fs.HoldsFsNode rootPtr v s) (hstring : fs.HoldsString filename (0x2F :: path) s)
    (hfits : filename + (0x2F :: path).length < 0x100000000)
    (hsmall : (0x2F :: path).length ≤ 2048) (hfit : TerminatorFits s (0x2F :: path).length)
    (hpages : SbrkPages fs.env.sbrk ((path.splitOn 0x2F).length * (r + 1) + 1) s.heap.os) :
    ∃ nodePtr t, fs.kopen rootPtr filename s = .ok (nodePtr, t) := by
  obtain ⟨A, hA⟩ := hinv
  obtain ⟨ptr, s₁, hmalloc, hpages₁⟩ := hA.malloc_pages hsbrk hbelow (Nat.succ_pos path.length)
    hsmall hpages
  have hgrows := hA.fits_small hbelow (Nat.succ_pos _) hsmall hmalloc
  obtain ⟨hadds, hpath, hcount, hend⟩ := copied_path hsbrk ⟨A, hA⟩ hstring hfits (Nat.succ_pos _)
    hgrows hfit hmalloc
  have hlength : (0x2F :: path).length = path.length + 1 := rfl
  have hdepth : (0x2F :: path).count 0x2F = (path.splitOn 0x2F).length := by
    rw [List.count_cons_self, Mem.length_splitOn]
  obtain ⟨nodePtr, s₂, hwalk⟩ := walkLoop_returns hsbrk hbelow htree hlisted
    (show ptr + 1 + path.length < 0x100000000 by omega) rfl hadds.inv (himage.adds hadds)
    hpath.tail (hroot.adds hadds) hpages₁
  rw [kopen, if_neg hroot_ne, if_neg (Vfs.truth_ne_slash _), strlen_eq hstring.now hfits, ok_bind,
    hlength, hmalloc, ok_bind]
  rw [← hlength]
  simp only [hcount, hdepth]
  rw [u32_eq (by omega), hwalk, ok_bind]
  by_cases hnull : nodePtr = 0
  · obtain ⟨left, hleft⟩ : ∃ left, (path.splitOn 0x2F).length = left + 1 :=
      ⟨path.count 0x2F, Mem.length_splitOn _ _⟩
    rw [hleft] at hwalk
    obtain ⟨passed, found, -, hfinds⟩ := walkLoop_spec hsbrk hbelow htree (by omega) hleft.symm
      hadds.inv (himage.adds hadds) hpath.tail (hroot.adds hadds) hwalk
    have hlive : (ptr, path.length + 1) ∈ s₂.live := by
      cases found with
      | none => exact hfinds.2.live ▸ List.mem_append_right _ (hadds.mem_live List.mem_cons_self).1
      | some child => exact absurd hnull hfinds.1
    have hinv₂ : ∃ B, s₂.Inv fs.env fs.heapEnd Ready B := by
      cases found with
      | none => exact hfinds.2.inv
      | some child => exact hfinds.2.1.inv
    obtain ⟨B, hB⟩ := hinv₂
    obtain ⟨s₃, hfree, -⟩ := hB.free_pages hlive
    simp only [if_pos hnull, hfree, ok_bind]
    exact ⟨0, s₃, rfl⟩
  · simp only [if_neg hnull]
    exact ⟨nodePtr, s₂, rfl⟩

end

end HeapFs

end MyaXOS
