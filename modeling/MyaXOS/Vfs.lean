import Mathlib.Data.List.Count
import MyaXOS.Strings

/-!
# Paths

`kopen` copies the path it is given, overwrites each slash of the copy by a NUL and counts them, and
then walks from the root with one name after the other, each where the last one ended.

* `Vfs` is a mounted tree: what the nodes answer when they are asked for a name.
* `Allocator` is what `kopen` uses of the heap.  `Allocator.Lends` says that it returns a block of
  its own for the copy, with room for the terminator.
* `Vfs.lookup` is the walk along a list of names.  `kopen_eq` says that `kopen` does this walk, for
  every string, and `kopen_path` reads it for a path made of names.
* `kopen_relative` is about a string that does not begin with a slash.  The test for it compares a
  truth value with the slash, so `kopen` walks there too.

**The three counts.**  The code has a number of slashes, which it gets while it cuts; a cursor,
which goes from one name to the next by the length of the name; and a test for the last round, which
compares a counter with the number of slashes.  They have to fit together, for names of any length
and any number of them.  What they are compared with is `List.splitOn`: a string with `k` slashes
has `k + 1` pieces, the cursor is at the beginning of a piece in every round, and there are as many
rounds left as there are pieces.  The first piece is what comes before the first slash.  The code
takes its first name from the second character on, so for a path this piece is empty and is left
out, and for a string that is not a path it is a piece with a character missing.

**The copy** is made before the walk, by `memcpy` and by a loop that runs over it, and after that it
is only read.  `cutLoop_spec` says what the loop has done after any number of rounds, and
`copyPath_spec` that the result is a cut string.  `pathWrites` lists the writes one by one, for
those who want to know whether they stay in the block.

**Trees** have nodes of any type, and a lookup may fail or stop.  The walk here does not write to
memory; `Ext2/Kopen.lean` has `kopen` with the calls of the heap that the driver makes on the way,
and that they do not get in the way of the walk is proved there.
-/

set_option autoImplicit false

namespace MyaXOS

/-- `FS_DIRECTORY`. -/
def fsDirectory : Nat := 0x02

/-- A mounted tree, with nodes `ν`.  It has what the functions of the VFS use of a node; `finddir`
may fail to find, and it may stop, since an assertion of the driver can halt the kernel. -/
structure Vfs (ν : Type) where
  /-- `node->flags`. -/
  flags : ν → Nat
  /-- `node->inode`. -/
  inode : ν → Nat
  /-- `node->readdir != 0`. -/
  hasReaddir : ν → Bool
  /-- `node->finddir(node, name)`. -/
  finddir : ν → List UInt8 → Except Stop (Option ν)

/-- What is used of the heap.  The states of the heap are `α`, and each has a memory.  Nothing is
assumed of `malloc` and `free` in the definition; what a result needs is in `Lends`. -/
structure Allocator (α : Type) where
  mem : α → Mem
  setMem : α → Mem → α
  /-- `malloc(size)`. -/
  malloc : Nat → α → Except Stop (Nat × α)
  /-- `free(ptr)`. -/
  free : Nat → α → Except Stop α

variable {ν α : Type}

namespace Vfs

/-- `finddir_fs(node, name)`. -/
def finddirFs (fs : Vfs ν) (node : ν) (name : List UInt8) : Except Stop (Option ν) :=
  if fs.flags node &&& fsDirectory ≠ 0 ∧ fs.hasReaddir node then fs.finddir node name else .ok none

/-- The loop that cuts the copy, after `k` rounds: the memory and `path_depth`. -/
def cutLoop (m : Mem) (path : Nat) : Nat → Mem × Nat
  | 0 => (m, 0)
  | k + 1 =>
    let (m, pathDepth) := cutLoop m path k
    if m (u32 (path + k)) = 0x2F then (m.store8 (u32 (path + k)) 0, pathDepth + 1)
    else (m, pathDepth)

/-- The copy of the path, cut and terminated, and `path_depth`. -/
def copyPath (m : Mem) (path filename pathLen : Nat) : Mem × Nat :=
  let (m, pathDepth) := cutLoop (memcpy m path filename pathLen) path pathLen
  (m.store8 (u32 (path + pathLen)) 0, pathDepth)

/-- The `for` loop of `kopen`, with `left` rounds to go. -/
def walkLoop (fs : Vfs ν) (m : Mem) : Nat → Nat → ν → Except Stop (Option ν)
  | 0, _, _ => .ok none
  | left + 1, pathOffset, node => do
    let name ← string m pathOffset
    match ← fs.finddirFs node name with
    | none => .ok none
    | some node =>
      if left = 0 then .ok (some node)
      else do
        let len ← strlen m pathOffset
        walkLoop fs m left (u32 (pathOffset + (len + 1))) node

/-- `kopen(filename, flags)`.  The second test compares `!filename[0]`, which is 0 or 1, with a
slash. -/
def kopen (A : Allocator α) (fs : Vfs ν) (fsRoot : Option ν) (filename : Nat) (h : α) :
    Except Stop (Option ν × α) := do
  match fsRoot with
  | none => .error (.halt "Attempted to kopen() without a filesystem in place.")
  | some root =>
    if (if A.mem h filename = 0 then 1 else 0) = 0x2F then
      .error (.halt "Attempted to kopen() a non-absolute path.")
    else do
      let pathLen ← strlen (A.mem h) filename
      let (path, h) ← A.malloc pathLen h
      let (m, pathDepth) := copyPath (A.mem h) path filename pathLen
      let h := A.setMem h m
      match ← fs.walkLoop m pathDepth (u32 (path + 1)) root with
      | none => do
        let h ← A.free path h
        .ok (none, h)
      | some node => .ok (some node, h)

/-- The test for a path that is not absolute compares a truth value with a character. -/
theorem truth_ne_slash (c : UInt8) : ¬ (if c = 0 then 1 else 0) = 0x2F := by
  split_ifs <;> decide

/-! ## The walk

What `kopen` is for, apart from how it gets at the names: start at the root, and look one name after
the other up in what was found before.  A name that is not found ends the walk.  Which names a
string means is a question of its own, and here the answer follows the code: `kopenPath` counts the
slashes and splits behind the first character, whether that is a slash or not. -/

/-- The walk from `node` along the names. -/
def lookup (fs : Vfs ν) : ν → List (List UInt8) → Except Stop (Option ν)
  | node, [] => .ok (some node)
  | node, name :: names => do
    match ← fs.finddirFs node name with
    | none => .ok none
    | some node => fs.lookup node names

/-- What `kopen` finds for a string: it takes as many names as there are slashes, the first from the
second character on. -/
def kopenPath (fs : Vfs ν) (root : ν) (filename : List UInt8) : Except Stop (Option ν) :=
  if filename.count 0x2F = 0 then .ok none
  else fs.lookup root (((filename.drop 1).splitOn 0x2F).take (filename.count 0x2F))

/-! ## The copy

`kopen` cuts a copy of the path, and not the path.  After each round the first bytes of the copy are
cut and the others are those of the path, which is what the induction needs; at the end the copy is
a row of strings, one for each piece, as `HoldsCut` says. -/

section
variable {m : Mem} {path filename : Nat} {s : List UInt8}

/-- **What `k` rounds of the loop have done**: the first `k` bytes of `s` are cut, and the slashes
among them counted. -/
theorem cutLoop_spec (hbyte : ∀ i (hi : i < s.length), m (path + i) = s[i])
    (hfits : path + s.length < 0x100000000) {k : Nat} (hk : k ≤ s.length) :
    (∀ i (hi : i < s.length), (cutLoop m path k).1 (path + i) =
      if i < k ∧ s[i] = 0x2F then 0 else s[i]) ∧
    (∀ a, a < path ∨ path + s.length ≤ a → (cutLoop m path k).1 a = m a) ∧
    (cutLoop m path k).2 = (s.take k).count 0x2F := by
  induction k with
  | zero =>
    refine ⟨fun i hi => ?_, fun a _ => rfl, rfl⟩
    rw [if_neg (by simp)]
    exact hbyte i hi
  | succ k ih =>
    obtain ⟨hcut, hsame, hcount⟩ := ih (by omega)
    have hbyte_k : (cutLoop m path k).1 (path + k) = s[k] := by
      rw [hcut k (by omega), if_neg (by simp)]
    have hcount_succ : (s.take (k + 1)).count 0x2F =
        (s.take k).count 0x2F + if s[k] = 0x2F then 1 else 0 := by
      rw [List.take_succ_eq_append_getElem (by omega), List.count_append, List.count_singleton]
      simp only [beq_iff_eq]
    rw [cutLoop, hcount_succ]
    simp only [u32_eq (show path + k < 0x100000000 by omega), hbyte_k]
    by_cases hslash : s[k] = 0x2F
    · simp only [if_pos hslash]
      refine ⟨fun i hi => ?_, fun a ha => ?_, by rw [hcount]⟩
      · by_cases hik : i = k
        · subst hik
          rw [Mem.store8_self, if_pos ⟨Nat.lt_succ_self i, hslash⟩]
        · rw [Mem.store8_of_ne _ (by omega), hcut i hi]
          simp only [show i < k + 1 ↔ i < k by omega]
      · rw [Mem.store8_of_ne _ (by omega), hsame a ha]
    · simp only [if_neg hslash]
      refine ⟨fun i hi => ?_, hsame, hcount⟩
      rw [hcut i hi]
      by_cases hik : i = k
      · subst hik
        rw [if_neg (by simp), if_neg fun h => hslash h.2]
      · simp only [show i < k + 1 ↔ i < k by omega]

/-- **The copy of a path** is the path, cut at its slashes; outside of the copy the memory is as it
was, and the number of slashes is the number of names to look up. -/
theorem copyPath_spec (hs : m.HoldsStr filename s) (hfits : filename + s.length < 0x100000000)
    (hpath : path + s.length < 0x100000000)
    (hdisj : path + s.length ≤ filename ∨ filename + s.length ≤ path) :
    (copyPath m path filename s.length).1.HoldsCut 0x2F path s ∧
    (∀ a, a < path ∨ path + s.length < a → (copyPath m path filename s.length).1 a = m a) ∧
    (copyPath m path filename s.length).2 = s.count 0x2F := by
  have hbyte : ∀ i (hi : i < s.length), memcpy m path filename s.length (path + i) = s[i] := by
    intro i hi
    rw [memcpy_apply hpath.le hfits.le (by omega) hi, hs.byte i hi]
  obtain ⟨hcut, hsame, hcount⟩ := cutLoop_spec hbyte hpath le_rfl
  rw [copyPath]
  simp only [u32_eq hpath]
  refine ⟨⟨fun i hi => ?_, Mem.store8_self _ _ _, hs.nonzero⟩, fun a ha => ?_, ?_⟩
  · rw [Mem.store8_of_ne _ (by omega), hcut i hi]
    simp only [hi, true_and]
  · rw [Mem.store8_of_ne _ (by omega), hsame a (by omega), memcpy_of_outside hpath.le (by omega)]
  · rw [hcount, List.take_length]

end

/-! ## Where it writes

The block for the copy is as long as the path, so that the terminator has no room in it.  To say
exactly that, the writes are listed with their addresses, and the list is shown to be all that the
function does to the memory.  Whether they stay inside is then a matter of the last one. -/

/-- The writes of the first `k` rounds of the loop that cuts the copy. -/
def cutWrites (m : Mem) (path k : Nat) : List (Nat × UInt8) :=
  ((List.range k).filter fun i => (cutLoop m path i).1 (u32 (path + i)) = 0x2F).map fun i =>
    (u32 (path + i), 0)

/-- The writes to the copy: those of `memcpy`, a NUL for each slash, and the terminator. -/
def pathWrites (m : Mem) (path filename pathLen : Nat) : List (Nat × UInt8) :=
  (List.range pathLen).map (fun i =>
    (u32 (path + i), memcpy m path filename i (u32 (filename + i)))) ++
  cutWrites (memcpy m path filename pathLen) path pathLen ++ [(u32 (path + pathLen), 0)]

section
variable {m : Mem} {path filename pathLen k : Nat}

theorem cutLoop_eq_storeAll : (cutLoop m path k).1 = m.storeAll (cutWrites m path k) := by
  induction k with
  | zero => rfl
  | succ k ih =>
    rw [cutLoop, cutWrites, List.range_succ, List.filter_append, List.map_append,
      Mem.storeAll_append, ← cutWrites, ← ih]
    by_cases hslash : (cutLoop m path k).1 (u32 (path + k)) = 0x2F
    · simp [hslash]
    · simp [hslash, Mem.storeAll]

/-- **The copy is made by these writes**, and by no others: the memory afterwards is the one before
with the list stored in it. -/
theorem copyPath_eq_storeAll : (copyPath m path filename pathLen).1 =
    m.storeAll (pathWrites m path filename pathLen) := by
  rw [pathWrites, Mem.storeAll_append, Mem.storeAll_append, copyPath]
  simp only [cutLoop_eq_storeAll, Mem.storeAll_singleton]
  rw [memcpy, Mem.copyFwd_eq_storeAll]
  rfl

/-- They go to the first `pathLen + 1` bytes of the copy, and the last of them to the last byte. -/
theorem pathWrites_bounds (m : Mem) (filename : Nat) (hfits : path + pathLen < 0x100000000) :
    (∀ w ∈ pathWrites m path filename pathLen, path ≤ w.1 ∧ w.1 ≤ path + pathLen) ∧
    (path + pathLen, 0) ∈ pathWrites m path filename pathLen := by
  have hbyte : ∀ i < pathLen, path ≤ u32 (path + i) ∧ u32 (path + i) ≤ path + pathLen :=
    fun i hi => by rw [u32_eq (by omega)]; omega
  refine ⟨fun w hw => ?_, by simp [pathWrites, u32_eq hfits]⟩
  rw [pathWrites, List.mem_append, List.mem_append] at hw
  rcases hw with (hcopy | hcut) | hlast
  · obtain ⟨i, hi, rfl⟩ := List.mem_map.mp hcopy
    exact hbyte i (List.mem_range.mp hi)
  · obtain ⟨i, hi, rfl⟩ := List.mem_map.mp hcut
    exact hbyte i (List.mem_range.mp (List.mem_of_mem_filter hi))
  · rw [List.mem_singleton.mp hlast, u32_eq hfits]
    exact ⟨Nat.le_add_right .., le_rfl⟩

/-- The copy needs a byte more than the path has. -/
theorem pathWrites_inside_iff (m : Mem) (filename k : Nat)
    (hfits : path + pathLen < 0x100000000) :
    (∀ w ∈ pathWrites m path filename pathLen, path ≤ w.1 ∧ w.1 < path + k) ↔ pathLen < k := by
  obtain ⟨hbounds, hlast⟩ := pathWrites_bounds m filename hfits
  constructor
  · intro hinside
    exact Nat.lt_of_add_lt_add_left (hinside _ hlast).2
  · intro hk w hw
    obtain ⟨hle, hlt⟩ := hbounds w hw
    exact ⟨hle, by omega⟩

end

/-! ## `kopen` walks

The loop reads a name at its offset, looks it up, and moves the offset behind the name.  The
induction is on the rounds that are left, and it carries that the offset is at the start of a piece.

The heap is a parameter in these results: all that is used is that the block lent for the copy is
apart from the string and can be given back.  Where the calls of the heap that a walk makes change
the names themselves, `Ext2/Descent.lean` takes over. -/

/-- **The loop of `kopen` is the walk** along the pieces of what has been cut. -/
theorem walkLoop_eq (fs : Vfs ν) {m : Mem} : ∀ {left : Nat} {t : List UInt8} {pathOffset : Nat}
    {node : ν}, m.HoldsCut 0x2F pathOffset t → pathOffset + t.length < 0x100000000 →
    left < (t.splitOn 0x2F).length →
    fs.walkLoop m (left + 1) pathOffset node = fs.lookup node ((t.splitOn 0x2F).take (left + 1))
  | left, t, pathOffset, node, ht, hfits, hleft => by
    obtain ⟨name, names, hsplit⟩ := List.exists_cons_of_ne_nil (List.splitOn_ne_nil 0x2F t)
    obtain ⟨hname, hrest⟩ := ht.cases hsplit
    have hlength : name.length ≤ t.length := by
      rcases hrest with ⟨-, rfl⟩ | ⟨t', rfl, -⟩
      · exact le_rfl
      · rw [List.length_append]
        exact Nat.le_add_right ..
    rw [hsplit, List.take_succ_cons, walkLoop, lookup, string_eq hname (by omega), ok_bind]
    refine congrArg _ (funext fun found => ?_)
    cases found with
    | none => rfl
    | some node =>
      cases left with
      | zero => rfl
      | succ left =>
        rw [hsplit] at hleft
        rcases hrest with ⟨rfl, -⟩ | ⟨t', rfl, rfl, ht'⟩
        · exact absurd hleft (by simp)
        · rw [List.length_append, List.length_cons] at hfits
          rw [List.length_cons, Nat.add_lt_add_iff_right] at hleft
          simp only [Nat.add_one_ne_zero, if_false]
          rw [strlen_eq hname (by omega), ok_bind, u32_eq (by omega), ← Nat.add_assoc]
          exact walkLoop_eq fs ht' (by omega) hleft

/-- Some lookup on the way fails. -/
theorem lookup_eq_none (fs : Vfs ν) {names : List (List UInt8)} {root : ν} :
    fs.lookup root names = .ok none ↔ ∃ before name after node,
      names = before ++ name :: after ∧ fs.lookup root before = .ok (some node) ∧
        fs.finddirFs node name = .ok none := by
  induction names generalizing root with
  | nil => simp [lookup]
  | cons name names ih =>
    rw [lookup]
    constructor
    · intro h
      rcases hfind : fs.finddirFs root name with e | _ | child
      · rw [hfind] at h
        cases h
      · exact ⟨[], name, names, root, rfl, rfl, hfind⟩
      · rw [hfind, ok_bind] at h
        obtain ⟨before, name', after, node, rfl, hbefore, hnone⟩ := ih.mp h
        refine ⟨name :: before, name', after, node, rfl, ?_, hnone⟩
        rw [lookup, hfind, ok_bind]
        exact hbefore
    · rintro ⟨before, name', after, node, heq, hbefore, hnone⟩
      cases before with
      | nil =>
        obtain ⟨rfl, rfl⟩ := List.cons.inj heq
        cases hbefore
        rw [hnone, ok_bind]
      | cons first before =>
        obtain ⟨rfl, rfl⟩ := List.cons.inj heq
        rw [lookup] at hbefore
        rcases hfind : fs.finddirFs root name with e | _ | child
        · rw [hfind] at hbefore
          cases hbefore
        · rw [hfind] at hbefore
          cases hbefore
        · rw [hfind, ok_bind] at hbefore
          rw [ok_bind]
          exact ih.mpr ⟨before, name', after, node, rfl, hbefore, hnone⟩

/-- A walk goes on where the one before it ended. -/
theorem lookup_append (fs : Vfs ν) {names names' : List (List UInt8)} {root : ν} :
    fs.lookup root (names ++ names') = (do
      match ← fs.lookup root names with
      | none => .ok none
      | some node => fs.lookup node names') := by
  induction names generalizing root with
  | nil => rfl
  | cons name names ih =>
    rw [List.cons_append, lookup, lookup]
    rcases fs.finddirFs root name with e | _ | child
    · rfl
    · rfl
    · exact ih

theorem lookup_singleton (fs : Vfs ν) {name : List UInt8} {root : ν} :
    fs.lookup root [name] = fs.finddirFs root name := by
  rw [lookup]
  rcases fs.finddirFs root name with e | _ | child <;> rfl

/-- What is true of the root, and of what is found in a node of which it is true, is true of all
that the walk finds. -/
theorem lookup_induction {fs : Vfs ν} {P : ν → Prop} {root node : ν} {names : List (List UInt8)}
    (hroot : P root)
    (hfind : ∀ dir name child, P dir → fs.finddirFs dir name = .ok (some child) → P child)
    (hfound : fs.lookup root names = .ok (some node)) : P node := by
  induction names generalizing root with
  | nil =>
    cases hfound
    exact hroot
  | cons name names ih =>
    obtain ⟨_ | child, hchild, hrest⟩ := bind_eq_ok hfound
    · cases hrest
    · exact ih (hfind root name child hroot hchild) hrest

/-- The walk along the names comes through `k` nodes on its way. -/
def Walked (fs : Vfs ν) (node : ν) (names : List (List UInt8)) (k : Nat) : Option ν → Prop
  | some child => names.length = k + 1 ∧ fs.lookup node names = .ok (some child)
  | none => ∃ before name after dir, names = before ++ name :: after ∧ before.length = k ∧
    fs.lookup node before = .ok (some dir) ∧ fs.finddirFs dir name = .ok none

section
variable {fs : Vfs ν} {node child : ν} {k : Nat} {name : List UInt8} {names : List (List UInt8)}
  {found : Option ν}

theorem Walked.cons (hchild : fs.finddirFs node name = .ok (some child))
    (h : Walked fs child names k found) : Walked fs node (name :: names) (k + 1) found := by
  have hlookup : ∀ names, fs.lookup node (name :: names) = fs.lookup child names := by
    intro names
    rw [lookup, hchild, ok_bind]
  cases found with
  | some last =>
    obtain ⟨hlength, hlast⟩ := h
    exact ⟨congrArg (· + 1) hlength, (hlookup names).trans hlast⟩
  | none =>
    obtain ⟨before, name', after, dir, rfl, hlength, hbefore, hnone⟩ := h
    exact ⟨name :: before, name', after, dir, rfl, congrArg (· + 1) hlength,
      (hlookup before).trans hbefore, hnone⟩

/-- What the walk finds. -/
theorem Walked.lookup_eq (h : Walked fs node names k found) : fs.lookup node names = .ok found := by
  cases found with
  | some child => exact h.2
  | none =>
    obtain ⟨before, name, after, dir, hnames, -, hbefore, hnone⟩ := h
    exact (lookup_eq_none fs).mpr ⟨before, name, after, dir, hnames, hbefore, hnone⟩

/-- **A walk that fails at once** comes through no node, and no other walk that fails does. -/
theorem Walked.fails_at_once_iff (h : Walked fs node (name :: names) k found) :
    k = 0 ∧ found = none ↔ fs.finddirFs node name = .ok none := by
  cases found with
  | some child =>
    refine iff_of_false (fun hnone => Option.some_ne_none _ hnone.2) fun hfirst => ?_
    have hlookup := h.lookup_eq
    rw [lookup, hfirst] at hlookup
    cases hlookup
  | none =>
    obtain ⟨before, name', after, dir, hnames, rfl, hbefore, hnone⟩ := h
    cases before with
    | nil =>
      obtain ⟨rfl, -⟩ := List.cons.inj hnames
      cases hbefore
      exact iff_of_true ⟨rfl, rfl⟩ hnone
    | cons first before =>
      obtain ⟨rfl, -⟩ := List.cons.inj hnames
      refine iff_of_false (fun hzero => Nat.succ_ne_zero _ hzero.1) fun hfirst => ?_
      rw [lookup, hfirst] at hbefore
      cases hbefore

end

end Vfs

/-- `malloc` lends a block for the string at `filename` and its terminator: the block is apart from
the string, and `free` takes it back, whatever has been written in it. -/
structure Allocator.Lends (A : Allocator α) (filename length path : Nat) (h h' : α) : Prop where
  malloc : A.malloc length h = .ok (path, h')
  fits : path + length < 0x100000000
  apart : path + length ≤ filename ∨ filename + length ≤ path
  kept : ∀ i ≤ length, A.mem h' (filename + i) = A.mem h (filename + i)
  free : ∀ m, (∀ a, a < path ∨ path + length < a → m a = A.mem h' a) →
    ∃ h'', A.free path (A.setMem h' m) = .ok h''

/-- `kopen` is called with the string `s` at `filename`, and `malloc` lends it a block. -/
structure Allocator.Opens (A : Allocator α) (filename : Nat) (s : List UInt8) (h : α) : Prop where
  string : (A.mem h).HoldsStr filename s
  fits : filename + s.length < 0x100000000
  lends : ∃ path h', A.Lends filename s.length path h h'

namespace Vfs

variable {A : Allocator α} {h h₂ : α} {filename filename₂ : Nat} {s : List UInt8}

/-- **`kopen` finds what the path names**, for every string.  The copy is cut, the loop is the walk
along its pieces, and giving the copy back does not change what has been found. -/
theorem kopen_eq (fs : Vfs ν) (root : ν) (hopens : A.Opens filename s h) :
    (kopen A fs (some root) filename h).map Prod.fst = fs.kopenPath root s := by
  obtain ⟨hs, hfits, path, h', hmalloc, hpath, happart, hkept, hfree⟩ := hopens
  obtain ⟨hcut, hsame, hcount⟩ := copyPath_spec (hs.congr hkept) hfits hpath happart
  have hwalk : fs.walkLoop (copyPath (A.mem h') path filename s.length).1 (s.count 0x2F)
      (u32 (path + 1)) root = fs.kopenPath root s := by
    rw [kopenPath]
    rcases hdepth : s.count 0x2F with _ | left
    · rw [if_pos rfl, walkLoop]
    · rw [if_neg (Nat.add_one_ne_zero left)]
      rcases s with _ | ⟨c, t⟩
      · cases hdepth
      · rw [List.length_cons] at hpath
        rw [u32_eq (by omega), List.drop_one, List.tail_cons]
        refine walkLoop_eq fs hcut.tail (by omega) ?_
        rw [Mem.length_splitOn]
        rw [List.count_cons] at hdepth
        split_ifs at hdepth <;> omega
  rw [kopen]
  simp only [if_neg (truth_ne_slash _)]
  rw [strlen_eq hs hfits, ok_bind, hmalloc, ok_bind]
  simp only [hcount, hwalk]
  rcases hfound : fs.kopenPath root s with e | _ | node
  · rfl
  · obtain ⟨h'', hfreed⟩ := hfree _ hsame
    rw [ok_bind]
    simp only [hfreed]
    rfl
  · rfl

/-- The path `/c1/…/cn`. -/
def absolute (names : List (List UInt8)) : List UInt8 := names.flatMap (0x2F :: ·)

variable {names : List (List UInt8)}

theorem absolute_append (names names' : List (List UInt8)) :
    absolute (names ++ names') = absolute names ++ absolute names' := List.flatMap_append

theorem absolute_eq (hne : names ≠ []) :
    absolute names = 0x2F :: [(0x2F : UInt8)].intercalate names := by
  induction names with
  | nil => exact absurd rfl hne
  | cons name names ih =>
    cases names with
    | nil => simp [absolute]
    | cons name' names =>
      rw [absolute, List.flatMap_cons, ← absolute, ih (List.cons_ne_nil _ _)]
      simp

/-- All the pieces behind the first slash are names. -/
theorem kopenPath_slash (fs : Vfs ν) (root : ν) (t : List UInt8) :
    fs.kopenPath root (0x2F :: t) = fs.lookup root (t.splitOn 0x2F) := by
  rw [kopenPath, List.count_cons_self, if_neg (Nat.add_one_ne_zero _), List.drop_one,
    List.tail_cons, ← Mem.length_splitOn, List.take_length]

/-- The names of a path are what `kopen` looks up. -/
theorem kopenPath_absolute (fs : Vfs ν) (root : ν) (hne : names ≠ [])
    (hslash : ∀ name ∈ names, 0x2F ∉ name) :
    fs.kopenPath root (absolute names) = fs.lookup root names := by
  rw [absolute_eq hne, kopenPath_slash, List.splitOn_intercalate (0x2F : UInt8) hslash hne]

/-- **`kopen` on `/c1/…/cn`**: `NULL` exactly when a lookup on the way fails, otherwise the node at
the end of the walk; and `kopen` on `/c1/…/cn/c` looks `c` up in what `kopen` on `/c1/…/cn` finds.
-/
theorem kopen_path (fs : Vfs ν) (root : ν) (hne : names ≠ [])
    (hslash : ∀ name ∈ names, 0x2F ∉ name) (hopens : A.Opens filename (absolute names) h) :
    ((kopen A fs (some root) filename h).map Prod.fst = .ok none ↔
      ∃ before name after node, names = before ++ name :: after ∧
        fs.lookup root before = .ok (some node) ∧ fs.finddirFs node name = .ok none) ∧
    (∀ node, (kopen A fs (some root) filename h).map Prod.fst = .ok (some node) ↔
      fs.lookup root names = .ok (some node)) ∧
    ∀ name filename₂ h₂, 0x2F ∉ name →
      A.Opens filename₂ (absolute names ++ 0x2F :: name) h₂ →
      (kopen A fs (some root) filename₂ h₂).map Prod.fst = (do
        match ← (kopen A fs (some root) filename h).map Prod.fst with
        | none => .ok none
        | some node => fs.finddirFs node name) := by
  rw [kopen_eq fs root hopens, kopenPath_absolute fs root hne hslash]
  refine ⟨fs.lookup_eq_none, fun node => Iff.rfl, fun name filename₂ h₂ hname hopens₂ => ?_⟩
  have hjoin : absolute names ++ 0x2F :: name = absolute (names ++ [name]) := by
    rw [absolute_append]
    simp [absolute]
  rw [hjoin] at hopens₂
  rw [kopen_eq fs root hopens₂, kopenPath_absolute fs root (by simp) ?_, lookup_append]
  · simp only [lookup_singleton]
  · intro name' hname'
    rcases List.mem_append.mp hname' with hmem | hmem
    · exact hslash name' hmem
    · rwa [List.mem_singleton.mp hmem]

/-- A heap that lends the block at `0x1000`. -/
def lender : Allocator Mem where
  mem := id
  setMem _ m := m
  malloc _ m := .ok (0x1000, m)
  free _ m := .ok m

/-- A tree with the directories `/d` and `/d/e`, and in the latter the file `a`. -/
def nestedTree : Vfs Nat where
  flags inode := if inode = 11 then 0x01 else fsDirectory
  inode := id
  hasReaddir _ := true
  finddir inode name := .ok (
    if inode = 2 ∧ name = [0x64] then some 12
    else if inode = 12 ∧ name = [0x65] then some 13
    else if inode = 13 ∧ name = [0x61] then some 11 else none)

theorem lender_opens {s : List UInt8} (hs : 0 ∉ s) (hlen : s.length < 0x100) :
    lender.Opens 0x100 s (stringAt 0x100 s) where
  string := stringAt_holds 0x100 hs
  fits := by omega
  lends := ⟨0x1000, _, rfl, by omega, by omega, fun _ _ => rfl, fun m _ => ⟨m, rfl⟩⟩

/-- `/d/e/a` is found, `/d/x/a` is not, and what `/d/e/a` names is found in `/d/e`. -/
theorem kopen_path_a :
    (kopen lender nestedTree (some 2) 0x100 (stringAt 0x100 (absolute [[0x64], [0x65], [0x61]]))).map
      Prod.fst = .ok (some 11) ∧
    (kopen lender nestedTree (some 2) 0x100 (stringAt 0x100 (absolute [[0x64], [0x78], [0x61]]))).map
      Prod.fst = .ok none ∧
    (kopen lender nestedTree (some 2) 0x100
        (stringAt 0x100 (absolute [[0x64], [0x65]] ++ [0x2F, 0x61]))).map Prod.fst = (do
      match ← (kopen lender nestedTree (some 2) 0x100 (stringAt 0x100 (absolute [[0x64], [0x65]]))).map
        Prod.fst with
      | none => .ok none
      | some node => nestedTree.finddirFs node [0x61]) := by
  refine ⟨?_, ?_, ?_⟩
  · exact ((kopen_path nestedTree 2 (by decide) (by decide)
      (lender_opens (by decide) (by decide))).2.1 11).mpr rfl
  · exact (kopen_path nestedTree 2 (by decide) (by decide)
      (lender_opens (by decide) (by decide))).1.mpr ⟨[[0x64]], [0x78], [[0x61]], 12, rfl, rfl, rfl⟩
  · exact (kopen_path nestedTree 2 (by decide) (by decide)
      (lender_opens (by decide) (by decide))).2.2 [0x61] 0x100 _ (by decide)
      (lender_opens (by decide) (by decide))

/-! ## Paths that are not absolute

The test for a path that is not absolute compares a truth value with a slash, and so never fires.
No part of the function stops with that message then, if the tree and the heap do not, and a string
without a slash in front is walked like any other, with its first character and its last name left
out. -/

/-- The halt of `kopen` at a path that is not absolute. -/
def nonAbsolute : Stop := .halt "Attempted to kopen() a non-absolute path."

theorem nonAbsolute_ne_spin : nonAbsolute ≠ .spin := nofun

theorem walkLoop_ne_nonAbsolute (fs : Vfs ν) {m : Mem}
    (hfinddir : ∀ node name, fs.finddir node name ≠ .error nonAbsolute) {left pathOffset : Nat}
    {node : ν} : fs.walkLoop m left pathOffset node ≠ .error nonAbsolute := by
  induction left generalizing pathOffset node with
  | zero => exact ok_ne_error _ _
  | succ left ih =>
    refine bind_ne_error (string_ne_error nonAbsolute_ne_spin) fun name => bind_ne_error ?_ ?_
    · rw [finddirFs]
      split_ifs
      · exact hfinddir node name
      · exact ok_ne_error _ _
    · rintro (_ | child)
      · exact ok_ne_error _ _
      · dsimp only
        split_ifs
        · exact ok_ne_error _ _
        · exact bind_ne_error (strlen_ne_error nonAbsolute_ne_spin) fun len => ih

/-- Without a slash in front, the first character and the last name are left out. -/
theorem kopenPath_relative (fs : Vfs ν) (root : ν) {c : UInt8} {t : List UInt8} (hc : c ≠ 0x2F) :
    fs.kopenPath root (c :: t) =
      if 0x2F ∈ t then fs.lookup root (t.splitOn 0x2F).dropLast else .ok none := by
  rw [kopenPath, List.count_cons_of_ne hc, List.drop_one, List.tail_cons]
  by_cases hslash : 0x2F ∈ t
  · have hcount := List.count_pos_iff.mpr hslash
    rw [if_neg hcount.ne', if_pos hslash, List.dropLast_eq_take, Mem.length_splitOn,
      Nat.add_sub_cancel]
  · rw [if_pos (List.count_eq_zero_of_not_mem hslash), if_neg hslash]

/-- **`kopen` takes any string for a path.**  It does not come to its halt, whatever the string, and
where the string does not begin with a slash, it walks along the names between the first character
and the last name. -/
theorem kopen_relative (A : Allocator α) (fs : Vfs ν) (root : ν)
    (hmalloc : ∀ size h, A.malloc size h ≠ .error nonAbsolute)
    (hfree : ∀ ptr h, A.free ptr h ≠ .error nonAbsolute)
    (hfinddir : ∀ node name, fs.finddir node name ≠ .error nonAbsolute) :
    (∀ filename h, kopen A fs (some root) filename h ≠ .error nonAbsolute) ∧
    ∀ filename h c t, c ≠ 0x2F → A.Opens filename (c :: t) h →
      (kopen A fs (some root) filename h).map Prod.fst =
        if 0x2F ∈ t then fs.lookup root (t.splitOn 0x2F).dropLast else .ok none := by
  constructor
  · intro filename h
    rw [kopen]
    simp only [if_neg (truth_ne_slash _)]
    refine bind_ne_error (strlen_ne_error nonAbsolute_ne_spin) fun pathLen =>
      bind_ne_error (hmalloc _ _) fun lent =>
        bind_ne_error (walkLoop_ne_nonAbsolute fs hfinddir) ?_
    rintro (_ | node)
    · exact bind_ne_error (hfree _ _) fun _ => ok_ne_error _ _
    · exact ok_ne_error _ _
  · intro filename h c t hc hopens
    rw [kopen_eq fs root hopens, kopenPath_relative fs root hc]

/-- A root directory with one file `a`. -/
def rootAndFile : Vfs Bool where
  flags isRoot := if isRoot then fsDirectory else 0x01
  inode isRoot := if isRoot then 2 else 11
  hasReaddir _ := true
  finddir isRoot name := .ok (if isRoot ∧ name = [0x61] then some false else none)

/-- A memory with the path `xa/b`. -/
def relativePath : Mem := fun a =>
  match a with
  | 0x100 => 0x78
  | 0x101 => 0x61
  | 0x102 => 0x2F
  | 0x103 => 0x62
  | _ => 0

theorem relativePath_opens : lender.Opens 0x100 [0x78, 0x61, 0x2F, 0x62] relativePath where
  string := ⟨by decide, rfl, by decide⟩
  fits := by decide
  lends := ⟨0x1000, _, rfl, by decide, by decide, fun _ _ => rfl, fun m _ => ⟨m, rfl⟩⟩

theorem kopen_relative_a :
    kopen lender rootAndFile (some true) 0x100 relativePath ≠ .error nonAbsolute ∧
    (kopen lender rootAndFile (some true) 0x100 relativePath).map Prod.fst = .ok (some false) :=
  have hrelative := kopen_relative lender rootAndFile true (fun _ _ => ok_ne_error _ _)
    (fun _ _ => ok_ne_error _ _) fun _ _ => ok_ne_error _ _
  ⟨hrelative.1 0x100 relativePath,
    (hrelative.2 0x100 relativePath 0x78 [0x61, 0x2F, 0x62] (by decide) relativePath_opens).trans
      rfl⟩

/-- `xa/b` begins with a letter, and `kopen` returns the file `a`. -/
theorem not_nonAbsolute :
    relativePath.HoldsStr 0x100 [0x78, 0x61, 0x2F, 0x62] ∧
    (kopen lender rootAndFile (some true) 0x100 relativePath).map Prod.fst = .ok (some false) := by
  refine ⟨relativePath_opens.string, ?_⟩
  rw [kopen_eq rootAndFile true relativePath_opens]
  rfl

end Vfs

end MyaXOS
