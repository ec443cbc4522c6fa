import MyaXOS.Ext2.Mount
import MyaXOS.Lib.Record

/-!
# Nodes in memory

A node of the file system is a `struct fs_node` of 312 bytes that `finddir_initrd` takes from the
heap.  The functions of the driver are in it as pointers, and `vfs.c` knows the driver by nothing
else.

## What is here

* `fsNodeFlags`, `fsNodeInode`, `fsNodeOpen`, `fsNodeReaddir` and `fsNodeFinddir` are the fields
  that `vfs.c` and the driver read.
* `initrdNodeFromFile` and `initrdNodeRoot` fill in a node as the driver does, store by store, each
  value read from the memory as it is then.
* `HoldsNode` says that a value of type `FsNode` is in memory, with the functions of the driver.
* `holdsNode_initrdNodeFromFile`: if the node is apart from the inode and from the record, then what
  is filled in is `Initrd.initrdNodeFromFile`, and nothing else is written to.

## The flags

The driver sets the flags bit by bit: it stores a 0 and then, for each type, reads the mode of the
inode once more and adds the flag to what is in the node.  `setFlags` is this loop, unrolled in the
source, over the list `fileTypes`; what it comes to is `Initrd.nodeFlags` (`load32_setFlags`).
-/

set_option autoImplicit false

namespace MyaXOS

/-- `sizeof(fs_node_t)`. -/
def fsNodeSize : Nat := 312

/-- The addresses of the functions of the driver. -/
structure InitrdOps where
  readInitrd : UInt32
  writeInitrd : UInt32
  openInitrd : UInt32
  closeInitrd : UInt32
  readdirInitrd : UInt32
  finddirInitrd : UInt32
  /-- A function is not at `NULL`. -/
  readdir_ne : readdirInitrd ≠ 0

/-- `node->flags`. -/
def fsNodeFlags (m : Mem) (node : Nat) : Nat := m.load32 (node + 268)

/-- `node->inode`. -/
def fsNodeInode (m : Mem) (node : Nat) : Nat := m.load32 (node + 272)

/-- `node->open`. -/
def fsNodeOpen (m : Mem) (node : Nat) : Nat := m.load32 (node + 292)

/-- `node->readdir`. -/
def fsNodeReaddir (m : Mem) (node : Nat) : Nat := m.load32 (node + 300)

/-- `node->finddir`. -/
def fsNodeFinddir (m : Mem) (node : Nat) : Nat := m.load32 (node + 304)

/-- The codes of the types and their flags, in the order in which they are tested. -/
def fileTypes : List (Nat × Nat) :=
  [(0x8000, 0x01), (0x4000, 0x02), (0x6000, 0x08), (0x2000, 0x04), (0x1000, 0x10), (0xA000, 0x20)]

/-- Add a flag to `fnode->flags` for each type that `inode->mode` has. -/
def setFlags (inode fnode : Nat) : List (Nat × Nat) → Mem → Mem
  | [], m => m
  | (type, flag) :: types, m =>
    setFlags inode fnode types
      (if Initrd.mode m inode &&& type = type then
        m.store32 (fnode + 268) (m.load32 (fnode + 268) ||| flag)
      else m)

/-- What is copied from the inode, with `fnode->flags = 0` at the end. -/
def inodeFields (mask inode : Nat) : List (Nat × (Mem → Nat)) :=
  [(260, fun m => m.load16 (inode + 2)), (264, fun m => m.load16 (inode + 24)),
    (276, fun m => Initrd.size m inode), (256, fun m => Initrd.mode m inode &&& mask),
    (268, fun _ => 0)]

/-- The functions of a node. -/
def opsFields (ops : InitrdOps) : List (Nat × (Mem → Nat)) :=
  [(284, fun _ => ops.readInitrd.toNat), (288, fun _ => ops.writeInitrd.toNat),
    (292, fun _ => ops.openInitrd.toNat), (296, fun _ => ops.closeInitrd.toNat),
    (300, fun _ => ops.readdirInitrd.toNat), (304, fun _ => ops.finddirInitrd.toNat)]

/-- The name of a record is copied to `dest`, with a NUL behind it. -/
def copyName (m : Mem) (dest dEnt : Nat) : Mem :=
  let m := memcpy m dest (u32 (dEnt + 8)) (Initrd.nameLen m dEnt)
  m.store8 (u32 (dest + Initrd.nameLen m dEnt)) 0

/-- "Information from the direntry". -/
def nodeFromDirentry (m : Mem) (direntry fnode : Nat) : Mem :=
  copyName (m.store32 (fnode + 272) (Initrd.entryInode m direntry)) fnode direntry

/-- "Information from the inode", "File Flags", and the functions. -/
def nodeFromInode (ops : InitrdOps) (mask : Nat) (m : Mem) (inode fnode : Nat) : Mem :=
  let m := m.storeFields fnode (inodeFields mask inode)
  let m := setFlags inode fnode fileTypes m
  m.storeFields fnode (opsFields ops)

/-- `initrd_node_from_file(inode, direntry, fnode)`: the memory with the node. -/
def initrdNodeFromFile (ops : InitrdOps) (m : Mem) (inode direntry fnode : Nat) : Mem :=
  if fnode = 0 then m else nodeFromInode ops 0xFFF (nodeFromDirentry m direntry fnode) inode fnode

/-- `initrd_node_root(inode, fnode)`: the memory with the node of the root. -/
def initrdNodeRoot (ops : InitrdOps) (m : Mem) (inode fnode : Nat) : Mem :=
  if fnode = 0 then m
  else
    let m := m.store32 (fnode + 272) 2
    let m := (m.store8 fnode 0x2F).store8 (fnode + 1) 0
    nodeFromInode ops 0xFF m inode fnode

/-- The node `v` is at `node`, with the functions of the driver.  Each field is at its offset in the
structure; the name is given by the bytes that have been written, and those behind it are whatever
the block had in it. -/
structure HoldsNode (ops : InitrdOps) (m : Mem) (node : Nat) (v : FsNode) : Prop where
  name : ∀ i (hi : i < v.name.length), m (node + i) = v.name[i]
  name_le : v.name.length ≤ 256
  mask : m.load32 (node + 256) = v.mask
  uid : m.load32 (node + 260) = v.uid
  gid : m.load32 (node + 264) = v.gid
  flags : fsNodeFlags m node = v.flags
  inode : fsNodeInode m node = v.inode
  length : m.load32 (node + 276) = v.length
  readInitrd : m.load32 (node + 284) = ops.readInitrd.toNat
  writeInitrd : m.load32 (node + 288) = ops.writeInitrd.toNat
  openInitrd : fsNodeOpen m node = ops.openInitrd.toNat
  closeInitrd : m.load32 (node + 296) = ops.closeInitrd.toNat
  readdirInitrd : fsNodeReaddir m node = ops.readdirInitrd.toNat
  finddirInitrd : fsNodeFinddir m node = ops.finddirInitrd.toNat

section
variable {ops : InitrdOps} {m m' : Mem} {node inode direntry fnode x : Nat} {v : FsNode}

/-- The 312 bytes of a node are all there is to it. -/
theorem HoldsNode.congr (h : HoldsNode ops m node v)
    (hsame : ∀ x, node ≤ x → x < node + fsNodeSize → m' x = m x) : HoldsNode ops m' node v := by
  have hword : ∀ o, o + 4 ≤ fsNodeSize → m'.load32 (node + o) = m.load32 (node + o) := fun o ho =>
    Mem.load32_congr fun x _ _ => hsame x (by omega) (by omega)
  have hname := h.name_le
  refine ⟨fun i hi => ?_, hname, ?_, ?_, ?_, ?_, ?_, ?_, ?_, ?_, ?_, ?_, ?_, ?_⟩
  · rw [hsame _ (Nat.le_add_right ..) (Nat.add_lt_add_left (hi.trans_le (hname.trans (by decide))) _)]
    exact h.name i hi
  · exact (hword 256 (by decide)).trans h.mask
  · exact (hword 260 (by decide)).trans h.uid
  · exact (hword 264 (by decide)).trans h.gid
  · exact (hword 268 (by decide)).trans h.flags
  · exact (hword 272 (by decide)).trans h.inode
  · exact (hword 276 (by decide)).trans h.length
  · exact (hword 284 (by decide)).trans h.readInitrd
  · exact (hword 288 (by decide)).trans h.writeInitrd
  · exact (hword 292 (by decide)).trans h.openInitrd
  · exact (hword 296 (by decide)).trans h.closeInitrd
  · exact (hword 300 (by decide)).trans h.readdirInitrd
  · exact (hword 304 (by decide)).trans h.finddirInitrd

/-! ## What is filled in

The functions of the driver store one field after the other.  `storeFields` is a list of such
stores, and reading a field back is one lemma of `Lib/Record.lean` for all of them.  The flags are
different: they are changed in place, once for each type, and what they come to is an induction over
the types. -/

theorem mode_congr (h : ∀ x, inode ≤ x → x < inode + 2 → m' x = m x) :
    Initrd.mode m' inode = Initrd.mode m inode := Mem.load16_congr h

/-- The loop writes to the flags only. -/
theorem setFlags_of_outside {types : List (Nat × Nat)} (h : x < fnode + 268 ∨ fnode + 272 ≤ x) :
    setFlags inode fnode types m x = m x := by
  induction types generalizing m with
  | nil => rfl
  | cons t types ih =>
    rw [setFlags, ih]
    split
    · exact Mem.store32_of_outside m _ (by omega)
    · rfl

/-- **What the flags come to**: those that were there, and one for each type that the mode has. -/
theorem load32_setFlags {types : List (Nat × Nat)}
    (hinode : inode + 2 ≤ fnode + 268 ∨ fnode + 272 ≤ inode) (hflags : ∀ t ∈ types, t.2 < 2 ^ 32) :
    (setFlags inode fnode types m).load32 (fnode + 268) = types.foldl
      (fun flags t => flags ||| Initrd.typeFlag (Initrd.mode m inode) t.1 t.2)
      (m.load32 (fnode + 268)) := by
  induction types generalizing m with
  | nil => rfl
  | cons t types ih =>
    obtain ⟨type, flag⟩ := t
    have ih' := fun m' => ih (m := m') fun t ht => hflags t (List.mem_cons_of_mem _ ht)
    rw [setFlags, ih', List.foldl_cons, Initrd.typeFlag]
    split
    · have hor : m.load32 (fnode + 268) ||| flag < 2 ^ 32 :=
        Nat.or_lt_two_pow (Mem.load32_lt _ _) (hflags _ List.mem_cons_self)
      rw [Mem.load32_store32_self _ _ hor,
        mode_congr fun x _ _ => Mem.store32_of_outside m _ (by omega)]
    · rw [Nat.or_zero]

theorem length_entryName (m : Mem) (dEnt : Nat) :
    (Initrd.entryName m dEnt).length = Initrd.nameLen m dEnt + 1 := by
  rw [Initrd.entryName, List.length_append, List.length_map, List.length_range,
    List.length_singleton]

theorem nameLen_lt (m : Mem) (dEnt : Nat) : Initrd.nameLen m dEnt < 256 :=
  (m (dEnt + 6)).toNat_lt

/-- **The copy of a name**, at a place apart from the record: the bytes of the name with a NUL
behind them, and nothing else is changed. -/
theorem copyName_spec (m : Mem) (dest dEnt : Nat)
    (hdest : dest + Initrd.nameLen m dEnt < 0x100000000)
    (hapart : dEnt + 8 + Initrd.nameLen m dEnt ≤ dest ∨ dest + Initrd.nameLen m dEnt < dEnt)
    (hend : dEnt + 8 + Initrd.nameLen m dEnt < 0x100000000) :
    (∀ i (hi : i < (Initrd.entryName m dEnt).length),
      copyName m dest dEnt (dest + i) = (Initrd.entryName m dEnt)[i]) ∧
    ∀ x, x < dest ∨ dest + Initrd.nameLen m dEnt < x → copyName m dest dEnt x = m x := by
  obtain ⟨m₁, hm₁⟩ : ∃ m₁, m₁ = memcpy m dest (dEnt + 8) (Initrd.nameLen m dEnt) := ⟨_, rfl⟩
  have hout : ∀ x, x < dest ∨ dest + Initrd.nameLen m dEnt ≤ x → m₁ x = m x :=
    fun x hx => by rw [hm₁, memcpy_of_outside hdest.le hx]
  have hlen : Initrd.nameLen m₁ dEnt = Initrd.nameLen m dEnt := by
    rw [Initrd.nameLen, hout _ (by omega), ← Initrd.nameLen]
  have heq : copyName m dest dEnt = m₁.store8 (dest + Initrd.nameLen m dEnt) 0 := by
    rw [copyName, u32_eq (show dEnt + 8 < 0x100000000 by omega), ← hm₁, hlen, u32_eq hdest]
  rw [heq]
  refine ⟨fun i hi => ?_, fun x hx => ?_⟩
  · have hle : i < Initrd.nameLen m dEnt + 1 := hi.trans_eq (length_entryName m dEnt)
    rcases Nat.lt_or_eq_of_le (Nat.le_of_lt_succ hle) with hlt | rfl
    · have hget : (Initrd.entryName m dEnt)[i] = m (u32 (dEnt + 8 + i)) := by
        simp [Initrd.entryName, hlt]
      rw [hget, u32_eq (by omega), Mem.store8_of_ne _ (by omega), hm₁,
        memcpy_apply hdest.le hend.le (by omega) hlt]
    · rw [Mem.store8_self]
      simp [Initrd.entryName]
  · rw [Mem.store8_of_ne _ (by omega), hout x (by omega)]

/-- The record is copied to the name and the number of the inode. -/
theorem nodeFromDirentry_spec (hfits : fnode + fsNodeSize ≤ 0x100000000)
    (hentry : direntry + 8 + Initrd.nameLen m direntry ≤ fnode ∨ fnode + fsNodeSize ≤ direntry)
    (hend : direntry + 8 + Initrd.nameLen m direntry < 0x100000000) :
    (∀ i (hi : i < (Initrd.entryName m direntry).length),
      nodeFromDirentry m direntry fnode (fnode + i) = (Initrd.entryName m direntry)[i]) ∧
    (nodeFromDirentry m direntry fnode).load32 (fnode + 272) = Initrd.entryInode m direntry ∧
    ∀ x, x < fnode ∨ fnode + fsNodeSize ≤ x → nodeFromDirentry m direntry fnode x = m x := by
  have hsize : fsNodeSize = 312 := rfl
  have hlt := nameLen_lt m direntry
  rw [hsize] at hfits hentry ⊢
  obtain ⟨m₁, hm₁⟩ : ∃ m₁, m₁ = m.store32 (fnode + 272) (Initrd.entryInode m direntry) := ⟨_, rfl⟩
  have hout₁ : ∀ x, x < fnode + 272 ∨ fnode + 276 ≤ x → m₁ x = m x := fun x hx => by
    rw [hm₁, Mem.store32_of_outside m _ (by omega)]
  have hlen : Initrd.nameLen m₁ direntry = Initrd.nameLen m direntry := by
    rw [Initrd.nameLen, Initrd.nameLen, hout₁ _ (by omega)]
  have hname : Initrd.entryName m₁ direntry = Initrd.entryName m direntry := by
    rw [Initrd.entryName, Initrd.entryName, hlen]
    refine congrArg (· ++ [0]) (List.map_congr_left fun i hi => ?_)
    have hi' := List.mem_range.mp hi
    rw [u32_eq (by omega), hout₁ _ (by omega)]
  have hcopy := copyName_spec m₁ fnode direntry
  rw [hlen, hname] at hcopy
  obtain ⟨hbytes, hout⟩ := hcopy (by omega) (by omega) hend
  rw [nodeFromDirentry, ← hm₁]
  refine ⟨hbytes, ?_, fun x hx => ?_⟩
  · rw [Mem.load32_congr fun x _ _ => hout x (by omega), hm₁]
    exact Mem.load32_store32_self _ _ (Mem.load32_lt _ _)
  · rw [hout x (by omega), hout₁ x (by omega)]

/-- The rest of the node is copied from the inode, or is the functions of the driver. -/
theorem nodeFromInode_spec (ops : InitrdOps) {mask : Nat} (hmask : mask < 2 ^ 32)
    (hinode : inode + 128 ≤ fnode ∨ fnode + fsNodeSize ≤ inode) :
    (∀ o n, (o, n) ∈ [(256, Initrd.mode m inode &&& mask), (260, m.load16 (inode + 2)),
      (264, m.load16 (inode + 24)), (268, Initrd.nodeFlags (Initrd.mode m inode)),
      (276, Initrd.size m inode), (284, ops.readInitrd.toNat), (288, ops.writeInitrd.toNat),
      (292, ops.openInitrd.toNat), (296, ops.closeInitrd.toNat), (300, ops.readdirInitrd.toNat),
      (304, ops.finddirInitrd.toNat)] →
      (nodeFromInode ops mask m inode fnode).load32 (fnode + o) = n) ∧
    ∀ x, x < fnode + 256 ∨ fnode + 272 ≤ x ∧ x < fnode + 276 ∨ fnode + fsNodeSize ≤ x →
      nodeFromInode ops mask m inode fnode x = m x := by
  have hsize : fsNodeSize = 312 := rfl
  rw [hsize] at hinode ⊢
  obtain ⟨m₁, hm₁⟩ : ∃ m₁, m₁ = m.storeFields fnode (inodeFields mask inode) := ⟨_, rfl⟩
  obtain ⟨m₂, hm₂⟩ : ∃ m₂, m₂ = setFlags inode fnode fileTypes m₁ := ⟨_, rfl⟩
  have heq : nodeFromInode ops mask m inode fnode = m₂.storeFields fnode (opsFields ops) := by
    rw [nodeFromInode, ← hm₁, ← hm₂]
  have hout₁ : ∀ x, x < fnode + 256 ∨ fnode + 280 ≤ x ∨ fnode + 272 ≤ x ∧ x < fnode + 276 →
      m₁ x = m x := fun x hx => by
    rw [hm₁, Mem.storeFields_of_outside]
    simp [inodeFields]
    omega
  have hout₂ : ∀ x, x < fnode + 268 ∨ fnode + 272 ≤ x → m₂ x = m₁ x := fun x hx => by
    rw [hm₂, setFlags_of_outside hx]
  have hout₃ : ∀ x, x < fnode + 284 ∨ fnode + 308 ≤ x →
      m₂.storeFields fnode (opsFields ops) x = m₂ x := fun x hx => by
    rw [Mem.storeFields_of_outside]
    simp [opsFields]
    omega
  rw [heq]
  -- what is copied from the inode is behind the flags, or in front of them
  have hcopied : ∀ o v n, (o, v) ∈ inodeFields mask inode → m.SteadyOff fnode 312 v n → n < 2 ^ 32 →
      m₁.load32 (fnode + o) = n := fun o v n hmem hsteady hn => by
    rw [hm₁]
    exact Mem.load32_storeFields (by simp [inodeFields]) (by simp [inodeFields]) hmem hsteady hn
  have hhalf : ∀ a, a + 2 ≤ 128 → m.SteadyOff fnode 312 (fun m => m.load16 (inode + a))
      (m.load16 (inode + a)) := fun a ha m' hm' =>
    Mem.load16_congr fun x _ _ => hm' x (by omega)
  have hmode : m.SteadyOff fnode 312 (fun m => Initrd.mode m inode) (Initrd.mode m inode) :=
    hhalf 0 (by decide)
  have hmasked : m.SteadyOff fnode 312 (fun m => Initrd.mode m inode &&& mask)
      (Initrd.mode m inode &&& mask) := fun m' hm' => congrArg (· &&& mask) (hmode m' hm')
  have hlength : m.SteadyOff fnode 312 (fun m => Initrd.size m inode) (Initrd.size m inode) :=
    fun m' hm' => Mem.load32_congr fun x _ _ => hm' x (by omega)
  have hhalf_lt : ∀ a, m.load16 a < 2 ^ 32 := fun a => (Mem.load16_lt m a).trans (by decide)
  have hkept : ∀ o, o + 4 ≤ 268 ∨ 272 ≤ o ∧ o + 4 ≤ 284 →
      (m₂.storeFields fnode (opsFields ops)).load32 (fnode + o) = m₁.load32 (fnode + o) :=
    fun o ho => Mem.load32_congr fun x _ _ => by rw [hout₃ x (by omega), hout₂ x (by omega)]
  have hops : ∀ o v, (o, fun _ => v) ∈ opsFields ops → v < 2 ^ 32 →
      (m₂.storeFields fnode (opsFields ops)).load32 (fnode + o) = v := fun o v hmem hv =>
    Mem.load32_storeFields (by simp [opsFields]) (by simp [opsFields]) hmem
      (fun _ _ => rfl : m₂.SteadyOff fnode 312 (fun _ => v) v) hv
  have hflags : m₂.load32 (fnode + 268) = Initrd.nodeFlags (Initrd.mode m inode) := by
    have hzero : m₁.load32 (fnode + 268) = 0 :=
      hcopied 268 (fun _ => 0) 0 (by simp [inodeFields]) (fun _ _ => rfl) (by decide)
    rw [hm₂, load32_setFlags (by omega) (by decide), hzero,
      mode_congr fun x _ _ => hout₁ x (by omega)]
    simp [fileTypes, Initrd.nodeFlags]
  refine ⟨fun o n hmem => ?_, fun x hx => ?_⟩
  · simp only [List.mem_cons, Prod.mk.injEq, List.not_mem_nil, or_false] at hmem
    rcases hmem with ⟨rfl, rfl⟩ | ⟨rfl, rfl⟩ | ⟨rfl, rfl⟩ | ⟨rfl, rfl⟩ | ⟨rfl, rfl⟩ | ⟨rfl, rfl⟩ |
      ⟨rfl, rfl⟩ | ⟨rfl, rfl⟩ | ⟨rfl, rfl⟩ | ⟨rfl, rfl⟩ | ⟨rfl, rfl⟩
    · rw [hkept 256 (by decide)]
      exact hcopied 256 _ _ (by simp [inodeFields]) hmasked (Nat.and_lt_two_pow _ hmask)
    · rw [hkept 260 (by decide)]
      exact hcopied 260 _ _ (by simp [inodeFields]) (hhalf 2 (by decide)) (hhalf_lt _)
    · rw [hkept 264 (by decide)]
      exact hcopied 264 _ _ (by simp [inodeFields]) (hhalf 24 (by decide)) (hhalf_lt _)
    · rw [← hflags]
      exact Mem.load32_congr fun x _ _ => hout₃ x (by omega)
    · rw [hkept 276 (by decide)]
      exact hcopied 276 _ _ (by simp [inodeFields]) hlength (Mem.load32_lt _ _)
    · exact hops 284 _ (by simp [opsFields]) (UInt32.toNat_lt _)
    · exact hops 288 _ (by simp [opsFields]) (UInt32.toNat_lt _)
    · exact hops 292 _ (by simp [opsFields]) (UInt32.toNat_lt _)
    · exact hops 296 _ (by simp [opsFields]) (UInt32.toNat_lt _)
    · exact hops 300 _ (by simp [opsFields]) (UInt32.toNat_lt _)
    · exact hops 304 _ (by simp [opsFields]) (UInt32.toNat_lt _)
  · rw [hout₃ x (by omega), hout₂ x (by omega), hout₁ x (by omega)]

/-- **A node that is filled in** after its name and the number of its inode, from an inode that
these have left alone. -/
theorem holdsNode_nodeFromInode (ops : InitrdOps) {mask : Nat} (hmask : mask < 2 ^ 32)
    (hinode : inode + 128 ≤ fnode ∨ fnode + fsNodeSize ≤ inode)
    (hsame : ∀ x, inode ≤ x → x < inode + 128 → m' x = m x) {name : List UInt8}
    (hname : ∀ i (hi : i < name.length), m' (fnode + i) = name[i]) (hlen : name.length ≤ 256) :
    HoldsNode ops (nodeFromInode ops mask m' inode fnode) fnode
      { name, inode := m'.load32 (fnode + 272), uid := m.load16 (inode + 2),
        gid := m.load16 (inode + 24), length := Initrd.size m inode,
        mask := Initrd.mode m inode &&& mask, flags := Initrd.nodeFlags (Initrd.mode m inode) } := by
  have hhalf : ∀ a, a + 2 ≤ 128 → m'.load16 (inode + a) = m.load16 (inode + a) := fun a ha =>
    Mem.load16_congr fun x _ _ => hsame x (by omega) (by omega)
  have hmode : Initrd.mode m' inode = Initrd.mode m inode := hhalf 0 (by decide)
  have hsize : Initrd.size m' inode = Initrd.size m inode :=
    Mem.load32_congr fun x _ _ => hsame x (by omega) (by omega)
  obtain ⟨hfields, hkept⟩ := nodeFromInode_spec ops hmask hinode
  rw [hmode, hhalf 2 (by decide), hhalf 24 (by decide), hsize] at hfields
  refine ⟨fun i hi => ?_, hlen, hfields 256 _ ?_, hfields 260 _ ?_, hfields 264 _ ?_,
    hfields 268 _ ?_, ?_, hfields 276 _ ?_, hfields 284 _ ?_, hfields 288 _ ?_, hfields 292 _ ?_,
    hfields 296 _ ?_, hfields 300 _ ?_, hfields 304 _ ?_⟩
  case refine_6 => exact Mem.load32_congr fun x _ _ => hkept x (by omega)
  case refine_1 =>
    have hlt : i < 256 := hi.trans_le hlen
    rw [hkept _ (Or.inl (by omega))]
    exact hname i hi
  all_goals simp

/-- **The node that the driver fills in**, if it is apart from the inode and from the record. -/
theorem holdsNode_initrdNodeFromFile (ops : InitrdOps) (m : Mem) (inode direntry : Nat)
    (hne : fnode ≠ 0)
    (hfits : fnode + fsNodeSize ≤ 0x100000000)
    (hinode : inode + 128 ≤ fnode ∨ fnode + fsNodeSize ≤ inode)
    (hentry : direntry + 8 + Initrd.nameLen m direntry ≤ fnode ∨ fnode + fsNodeSize ≤ direntry)
    (hend : direntry + 8 + Initrd.nameLen m direntry < 0x100000000) :
    HoldsNode ops (initrdNodeFromFile ops m inode direntry fnode) fnode
      (Initrd.initrdNodeFromFile m inode direntry) ∧
    ∀ x, x < fnode ∨ fnode + fsNodeSize ≤ x →
      initrdNodeFromFile ops m inode direntry fnode x = m x := by
  have hsize : fsNodeSize = 312 := rfl
  obtain ⟨hname, hnumber, hout⟩ := nodeFromDirentry_spec hfits hentry hend
  have hlen : (Initrd.entryName m direntry).length ≤ 256 :=
    (length_entryName m direntry).trans_le (nameLen_lt m direntry)
  have hholds := holdsNode_nodeFromInode ops (show 0xFFF < 2 ^ 32 by decide) hinode
    (fun x _ _ => hout x (by omega)) hname hlen
  rw [hnumber] at hholds
  rw [initrdNodeFromFile, if_neg hne]
  refine ⟨hholds, fun x hx => ?_⟩
  rw [(nodeFromInode_spec ops (by decide) hinode).2 x (by omega), hout x hx]

/-- The node of the root. -/
theorem holdsNode_initrdNodeRoot (ops : InitrdOps) (m : Mem) (inode : Nat) (hne : fnode ≠ 0)
    (hinode : inode + 128 ≤ fnode ∨ fnode + fsNodeSize ≤ inode) :
    HoldsNode ops (initrdNodeRoot ops m inode fnode) fnode (Initrd.initrdNodeRoot m inode) ∧
    ∀ x, x < fnode ∨ fnode + fsNodeSize ≤ x → initrdNodeRoot ops m inode fnode x = m x := by
  have hsize : fsNodeSize = 312 := rfl
  obtain ⟨m₁, hm₁⟩ : ∃ m₁, m₁ = ((m.store32 (fnode + 272) 2).store8 fnode 0x2F).store8
    (fnode + 1) 0 := ⟨_, rfl⟩
  have hout : ∀ x, x < fnode ∨ fnode + fsNodeSize ≤ x → m₁ x = m x := fun x hx => by
    rw [hm₁, Mem.store8_of_ne _ (by omega), Mem.store8_of_ne _ (by omega),
      Mem.store32_of_outside m _ (by omega)]
  have hname : ∀ i (hi : i < [(0x2F : UInt8), 0].length), m₁ (fnode + i) = [0x2F, 0][i] := by
    intro i hi
    rcases i with _ | _ | i
    · show m₁ fnode = 0x2F
      rw [hm₁, Mem.store8_of_ne _ (by omega), Mem.store8_self]
    · show m₁ (fnode + 1) = 0
      rw [hm₁, Mem.store8_self]
    · exact absurd hi (by simp)
  have hnumber : m₁.load32 (fnode + 272) = 2 := by
    rw [hm₁, Mem.load32_store8 _ _ (by omega), Mem.load32_store8 _ _ (by omega)]
    exact Mem.load32_store32_self _ _ (by decide)
  have hholds := holdsNode_nodeFromInode ops (show 0xFF < 2 ^ 32 by decide) hinode
    (fun x _ _ => hout x (by omega)) hname (by decide)
  rw [hnumber] at hholds
  have heq : initrdNodeRoot ops m inode fnode = nodeFromInode ops 0xFF m₁ inode fnode := by
    rw [initrdNodeRoot, if_neg hne, hm₁]
  rw [heq]
  refine ⟨hholds, fun x hx => ?_⟩
  rw [(nodeFromInode_spec ops (by decide) hinode).2 x (by omega), hout x hx]

end

end MyaXOS
