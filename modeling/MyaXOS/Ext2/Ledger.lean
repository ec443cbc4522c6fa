import MyaXOS.Ext2.Mounted

/-!
# What `kopen` leaves on the heap

`kopen` should leave nothing when it returns `NULL`, and the node that it returns otherwise.  It
does not: the copy of the path is given back on one of the two ways out only, and the nodes of the
directories on the way are never given back.

* `NetEffect` compares the addresses of the blocks in use before and after, in any order.
* `Finds.netEffect_iff` says that a lookup which has added the blocks `new` besides its node has the
  right effect if there are none.
* `kopen_net_iff`: the effect is right if the first lookup fails, and, for a path whose copy has
  room, only then.

By `kopen_spec` the blocks that are left are known one by one: a node for each name that was passed,
and the copy of the path if a node is returned.  Both lists are empty in one case only.  If the walk
has ended without a node then the copy has been given back, and the nodes on the way are as many as
there were lookups that succeeded; if it has ended with a node, the copy is still there.  So nothing
is left if and only if no lookup has succeeded, that is, if the first has failed.

The count does not depend on where the blocks are, or on how many bytes they have, and that no block
is lost or given out twice on the way is a part of `AllocRun.Adds`.
-/

set_option autoImplicit false

namespace MyaXOS

variable {σ ρ : Type}

/-- What `kopen` should leave: nothing if it returns `NULL`, and the node that it returns
otherwise. -/
def NetEffect (s : AllocRun σ ρ) (nodePtr : Nat) (t : AllocRun σ ρ) : Prop :=
  (t.live.map Prod.fst).Perm ((if nodePtr = 0 then [] else [nodePtr]) ++ s.live.map Prod.fst)

/-- **What is on the heap after a lookup** besides its node: the blocks of the nodes on the way, and
what was taken before. -/
theorem HeapFs.Finds.netEffect_iff {fs : HeapFs σ ρ} {Ready : σ → Prop} {new : List (Nat × Nat)}
    {s t : AllocRun σ ρ} {found : Option FsNode} {nodePtr : Nat}
    (h : fs.Finds Ready new s found nodePtr t) : NetEffect s nodePtr t ↔ new = [] := by
  have hlive : t.live.map Prod.fst = (if nodePtr = 0 then [] else [nodePtr]) ++
      new.map Prod.fst ++ s.live.map Prod.fst := by
    cases found with
    | none =>
      obtain ⟨rfl, hadds⟩ := h
      rw [hadds.live, List.map_append, if_pos rfl, List.nil_append]
    | some v =>
      obtain ⟨hne, hadds, -⟩ := h
      rw [hadds.live, List.map_append, if_neg hne]
      rfl
  rw [NetEffect, hlive]
  constructor
  · intro hperm
    have hlength := hperm.length_eq
    rw [List.length_append, List.length_append, List.length_append, List.length_map] at hlength
    exact List.length_eq_zero_iff.mp (by omega)
  · rintro rfl
    rw [List.map_nil, List.append_nil]

/-- **When `kopen` leaves nothing behind.**  Let it return, in a reached state with a mounted tree,
for an absolute path.  If the copy of the path has room for its terminator and the first lookup
fails, then the node that is returned is the only block that has been added to those in use; and if
the copy has room, only then. -/
theorem kopen_net_iff (fs : HeapFs σ ρ) (Ready : σ → Prop)
    (hsbrk : SbrkFresh fs.env.sbrk fs.heapEnd Ready)
    (hbelow : SbrkBelow fs.env.sbrk fs.heapEnd Ready)
    (m : Mem) (length : Nat) (root : FsNode) (rootPtr : Nat) (s t : AllocRun σ ρ)
    (hreached : s.Reached fs.env fs.heapEnd Ready) (hmounted : fs.Mounted m length root rootPtr s)
    (filename : Nat) (path : List UInt8) (hnames : fs.Names filename (0x2F :: path) s)
    (hvalid : (KernelCall.kopen filename).Valid fs.env fs.heapEnd s) (nodePtr : Nat)
    (hreturns : fs.kopen rootPtr filename s = .ok (nodePtr, t)) :
    ((KernelCall.kopen filename).TerminatorFits s ∧
      (fs.g.vfs m).finddirFs root ((path.splitOn 0x2F).headD []) = .ok none →
        NetEffect s nodePtr t) ∧
    ((KernelCall.kopen filename).TerminatorFits s → NetEffect s nodePtr t →
      (fs.g.vfs m).finddirFs root ((path.splitOn 0x2F).headD []) = .ok none) := by
  have hlen := strlen_eq hnames.string hnames.fits
  obtain ⟨pathLen, hlen', -, hgrows⟩ := hvalid
  cases hlen.symm.trans hlen'
  have hiff : (KernelCall.kopen filename).TerminatorFits s → (NetEffect s nodePtr t ↔
      (fs.g.vfs m).finddirFs root ((path.splitOn 0x2F).headD []) = .ok none) := fun hfit => by
    obtain ⟨passed, copy, found, hwalked, hfinds, hcases⟩ := HeapFs.kopen_spec hsbrk hbelow
      hmounted.tree (hreached.inv hsbrk) hmounted.holds_image hmounted.holds_root hnames.holds
      hnames.fits hgrows (hfit _ hlen) hreturns
    obtain ⟨name, names, hsplit⟩ := List.exists_cons_of_ne_nil (List.splitOn_ne_nil 0x2F path)
    rw [hsplit] at hwalked ⊢
    rw [hfinds.netEffect_iff, List.append_eq_nil_iff, List.headD_cons,
      ← hwalked.fails_at_once_iff, List.length_eq_zero_iff]
    refine and_congr_right fun _ => ?_
    rcases hcases with ⟨rfl, rfl⟩ | ⟨child, ptr, rfl, rfl⟩
    · exact iff_of_true rfl rfl
    · exact iff_of_false (List.cons_ne_nil _ _) (Option.some_ne_none _)
  exact ⟨fun hcond => (hiff hcond.1).mpr hcond.2, fun hfit => (hiff hfit).mp⟩

/-- `kopen("/bd/a")` finds no `bd`, and leaves nothing. -/
theorem kopen_net_bd : ∃ rootPtr filename s nodePtr t,
    TreeKernel (ascii "/bd/a") rootPtr filename s ∧
    treeFs.kopen rootPtr filename s = .ok (nodePtr, t) ∧ NetEffect s nodePtr t := by
  have hpath : ascii "/bd/a" = 0x2F :: [0x62, 0x64, 0x2F, 0x61] := by decide
  obtain ⟨rootPtr, filename, s, hkernel⟩ := exists_treeKernel (ascii "/bd/a") (by decide)
    (by decide)
  have h := hpath ▸ hkernel
  obtain ⟨nodePtr, t, hreturns, -⟩ := h.kopen (by decide) (by decide) (by decide)
  refine ⟨rootPtr, filename, s, nodePtr, t, hkernel, hreturns, (kopen_net_iff treeFs KernelReady
    treeFs_fresh treeFs_below treeImage 0x2600 treeRoot rootPtr s t h.reached h.mounted filename _
    h.names (h.valid (by decide)) nodePtr hreturns).1
    ⟨h.terminatorFits (by decide) (by decide), ?_⟩⟩
  exact (tree_find (Or.inl rfl) _).trans (congrArg Except.ok (by decide))

/-- `kopen("/a")` returns the node of `a`, and the copy of the path stays in use. -/
theorem not_kopen_net :
    Initrd.initrdMount treeImage 0x1000 = .ok (treeInitrd, treeImage, treeRoot) ∧
    ∃ rootPtr filename s nodePtr t, TreeKernel (ascii "/a") rootPtr filename s ∧
      (KernelCall.kopen filename).Valid kernelEnv Paging.heapEnd s ∧
      treeFs.kopen rootPtr filename s = .ok (nodePtr, t) ∧ ¬ NetEffect s nodePtr t := by
  have hpath : ascii "/a" = 0x2F :: [0x61] := by decide
  obtain ⟨rootPtr, filename, s, hkernel⟩ := exists_treeKernel (ascii "/a") (by decide)
    (by decide)
  have h := hpath ▸ hkernel
  obtain ⟨nodePtr, t, hreturns, passed, copy, found, hwalked, hfinds, hcases⟩ :=
    h.kopen (by decide) (by decide) (by decide)
  refine ⟨mount_tree, rootPtr, filename, s, nodePtr, t, hkernel, h.valid (by decide), hreturns, ?_⟩
  have hfound : (treeInitrd.vfs treeImage).lookup treeRoot ([0x61].splitOn 0x2F) =
      .ok (some treeDevice) := by
    rw [show ([0x61] : List UInt8).splitOn 0x2F = [[0x61]] by decide, Vfs.lookup_singleton,
      tree_find (Or.inl rfl)]
    rfl
  cases hwalked.lookup_eq.symm.trans hfound
  rw [hfinds.netEffect_iff]
  rcases hcases with ⟨hnone, -⟩ | ⟨child, ptr, -, rfl⟩
  · cases hnone
  · exact fun hnil => List.cons_ne_nil _ _ (List.append_eq_nil_iff.mp hnil).2

end MyaXOS
