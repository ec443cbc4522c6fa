import MyaXOS.Alloc.Kernel
import MyaXOS.Vfs

/-!
# Calls that write to the heap

`kopen` and `realloc` write to blocks of the heap themselves: `kopen` makes a private copy of the
path, and `realloc` copies a block.  Here they take their turns with `malloc`, `free` and the writes
of the program.

* `kopen` asks for as many bytes as the path has, and writes a terminator behind them.  This is
  within the block unless the block is exactly as long as the path (`TerminatorFits`), and
  `path_inside_iff` says so for every run.
* `realloc` copies a block to a shorter one when a small block shrinks into a lower bin
  (`KeepsBin`); `realloc_right` says that a run in which this does not happen is in order.

**Promises and conditions.**  For each of the two calls there are a promise, read off the memory
after the call, and a condition on the state before it.  `PathInside` and `ReallocInside` say where
the call has written; `TerminatorFits` and `KeepsBin` compare lengths, before anything is written.
The step lemmas say that the condition is enough for the promise, and also that a call that has kept
the promise had the condition, and the two theorems about runs are their sum.

**Why both are in every run.**  A call that overruns its block leaves a heap about which nothing is
known, so a statement about `kopen` cannot be made along a run in which a `realloc` has overrun
before.  So each of the two theorems has the condition on the other call as a hypothesis on the run.
This is `step_inv`: it is the calls that leave the other blocks alone that keep the invariant.

**When a copy has no room.**  The block that `malloc` returns for `n` bytes is longer than `n`
except in two cases: `n` is the length of a bin, or a freed big block of exactly this length fits
best.  `lt_usable_iff` is this equivalence, from the lengths in `Alloc/Blocks.lean`.  The terminator
is then the first byte behind the block.  For a small bin this is the block behind it, with its link
if it is free, and `not_path_inside` is this case.

The walk that `kopen` goes on with, and what its own calls of `malloc` do to the byte behind the
copy, is a matter of the file system, and is in `Ext2/Kopen.lean`.
-/

set_option autoImplicit false

namespace MyaXOS

variable {σ ρ : Type}

/-- A call that uses the heap. -/
inductive KernelCall where
  | alloc (call : AllocCall)
  | realloc (ptr size : Nat)
  /-- `kopen(filename, flags)`, up to the terminator of its copy.  What it does then is to walk, and
  to give the copy back if the walk fails. -/
  | kopen (filename : Nat)
  deriving DecidableEq, Repr

/-- The state with another memory. -/
def AllocRun.withMem (s : AllocRun σ ρ) (m : Mem) : AllocRun σ ρ :=
  { s with heap := { s.heap with mem := m } }

/-- Perform a call. -/
def KernelCall.step (env : AllocEnv σ ρ) (heapEnd : σ → Nat) :
    KernelCall → AllocRun σ ρ → Except Stop (AllocRun σ ρ)
  | .alloc call, s => call.step env heapEnd s
  | .realloc ptr size, s => do
    let (newptr, heap) ← klrealloc env ptr size s.heap
    .ok (s.reallocated heapEnd ptr size newptr heap)
  | .kopen filename, s => do
    let pathLen ← strlen s.heap.mem filename
    let (path, heap) ← klmalloc env pathLen s.heap
    let (m, _) := Vfs.copyPath heap.mem path filename pathLen
    .ok ((s.allotted heapEnd pathLen path heap).withMem m)

/-- The calls that may be made.  The path has a character at least, and the heap does not have to
grow beyond the address space. -/
def KernelCall.Valid (env : AllocEnv σ ρ) (heapEnd : σ → Nat) : KernelCall → AllocRun σ ρ → Prop
  | .alloc call, s => call.Valid env heapEnd s
  | .realloc ptr size, s => (ptr = 0 ∨ ∃ n, (ptr, n) ∈ s.live) ∧
    (Reallocates s.heap.mem ptr size → (AllocCall.malloc size).Valid env heapEnd s)
  | .kopen filename, s => ∃ pathLen, strlen s.heap.mem filename = .ok pathLen ∧ 0 < pathLen ∧
    (CallsSbrk env pathLen s.heap → heapEnd s.heap.os + sbrkIncrement pathLen < 0x100000000)

/-! ## What is promised, and when it is kept

For `kopen` and for `realloc` there is a promise and a condition, each a predicate of the call and
of the state before it.  The condition is about lengths and numbers of bins; the promise is about
what is in memory afterwards.  Calls of the other kind promise nothing here. -/

/-- No free block is exactly as long as the path: its length is not that of a small bin, and no
freed big block has this length. -/
def TerminatorFits (s : AllocRun σ ρ) (pathLen : Nat) : Prop :=
  (pathLen ≤ 2048 → pathLen ≠ 2 ^ (2 + klmallocBinSize pathLen)) ∧
  (2048 < pathLen → ∀ p, FreedBig s p → read s.heap.mem (.size p) ≠ pathLen)

/-- What `kopen` writes to its copy at `path` is within the block, and spares all else: the headers,
the lists and the other blocks are as they were. -/
structure AllocRun.PathInside (env : AllocEnv σ ρ) (s : AllocRun σ ρ)
    (path filename pathLen : Nat) : Prop where
  inside : ∀ w ∈ Vfs.pathWrites s.heap.mem path filename pathLen,
    path ≤ w.1 ∧ w.1 < path + usable s.heap.mem path
  spares : s.Spares env path (Vfs.copyPath s.heap.mem path filename pathLen).1

namespace KernelCall

/-- The copies that `kopen` makes stay in their blocks.  Other calls make no copies of a path, and
for them nothing is asked. -/
def PathInside (env : AllocEnv σ ρ) (heapEnd : σ → Nat) : KernelCall → AllocRun σ ρ → Prop
  | .kopen filename, s => ∀ pathLen path heap, strlen s.heap.mem filename = .ok pathLen →
    klmalloc env pathLen s.heap = .ok (path, heap) →
    (s.allotted heapEnd pathLen path heap).PathInside env path filename pathLen
  | _, _ => True

/-- They have room for their terminators: the block that `malloc` lends for the path is longer than
the path, which is what it was asked for. -/
def TerminatorFits : KernelCall → AllocRun σ ρ → Prop
  | .kopen filename, s => ∀ pathLen, strlen s.heap.mem filename = .ok pathLen →
    MyaXOS.TerminatorFits s pathLen
  | _, _ => True

/-- `realloc` of a block in use, for a size that is not zero, does what it promises. -/
def ReallocRight (env : AllocEnv σ ρ) (heapEnd : σ → Nat) : KernelCall → AllocRun σ ρ → Prop
  | .realloc ptr size, s => (∃ n, (ptr, n) ∈ s.live) → 0 < size →
    s.ReallocRight env heapEnd ptr size
  | _, _ => True

/-- The copy that `realloc` makes is not longer than the new block. -/
def ReallocInside (env : AllocEnv σ ρ) : KernelCall → AllocRun σ ρ → Prop
  | .realloc ptr size, s => (∃ n, (ptr, n) ∈ s.live) → Reallocates s.heap.mem ptr size →
    ∀ newptr heap, klmalloc env size s.heap = .ok (newptr, heap) →
      oldSize heap.mem ptr ≤ usable heap.mem newptr
  | _, _ => True

/-- No small block moves to a lower bin: `realloc` copies all that the old block has, and a block of
a lower bin has no room for it. -/
def KeepsBin : KernelCall → AllocRun σ ρ → Prop
  | .realloc ptr size, s => MyaXOS.KeepsBin s.heap.mem ptr size
  | _, _ => True

end KernelCall

/-! ## `kopen`

`kopen` asks for as many bytes as the path has characters, copies one character more, the
terminator, and writes zeros over the slashes.  So the question is whether the block that `malloc`
returns is longer than what was asked for, and this is `lt_usable_iff`. -/

section
variable {env : AllocEnv σ ρ} {heapEnd : σ → Nat} {Ready : σ → Prop} {s : AllocRun σ ρ} {A : Arena}
  {n pathLen path filename ptr size : Nat} {heap : AllocHeap σ ρ}

namespace AllocRun.Inv

/-- **When a block is longer than was asked for**: always, but for a size that is the length of a
small bin, or of the free block that is the best fit. -/
theorem lt_usable_iff (h : s.Inv env heapEnd Ready A) (hsbrk : SbrkFresh env.sbrk heapEnd Ready)
    (hn : 0 < n)
    (hfits : CallsSbrk env n s.heap → heapEnd s.heap.os + sbrkIncrement n < 0x100000000)
    (hmalloc : MyaXOS.klmalloc env n s.heap = .ok (path, heap)) :
    n < MyaXOS.usable heap.mem path ↔ TerminatorFits s n := by
  obtain ⟨hsmall_iff, hle, -⟩ := klmallocBinSize_spec hn
  have hchain := h.kept.stored.chain
  have hsize : ∀ p, FreedBig s p → read s.heap.mem (.size p) = A.size p := fun p hp =>
    h.kept.stored.size p (h.headers ▸ hp.1)
  rw [h.usable_klmalloc hsbrk hn hfits hmalloc, TerminatorFits]
  by_cases hsmall : klmallocBinSize n < 10
  · have hn' := hsmall_iff.mp hsmall
    rw [if_pos hsmall, forall_prop_of_true hn',
      and_iff_left fun hlt => absurd hn' (Nat.not_le.mpr hlt)]
    exact (hle hsmall).lt_iff_ne
  · have hn' := Nat.lt_of_not_le fun hle => hsmall (hsmall_iff.mpr hle)
    rw [if_neg hsmall, and_iff_right fun hle => absurd hle (Nat.not_le.mpr hn'),
      forall_prop_of_true hn']
    by_cases hnone : bestFit A env.bigBins n s.heap = 0
    · rw [if_pos hnone]
      refine iff_of_true (by omega) fun p hp => ?_
      rw [hsize p hp]
      exact ((hchain.best_eq_nil_iff n).mp hnone p (h.freedBig_iff.mp hp)).ne
    · rw [if_neg hnone]
      obtain ⟨hmem, hfit, hleast⟩ := hchain.best_le rfl hnone
      constructor
      · intro hlt p hp heq
        rw [hsize p hp] at heq
        exact Nat.not_lt.mpr (hleast p (h.freedBig_iff.mp hp) heq.ge) (heq.trans_lt hlt)
      · intro hother
        have hfreed := h.freedBig_iff.mpr hmem
        exact lt_of_le_of_ne hfit fun heq => hother _ hfreed ((hsize _ hfreed).trans heq.symm)

/-- **`kopen` stays in its block** exactly if there is room for the terminator, and then the run
goes on. -/
theorem pathInside_iff (h : s.Inv env heapEnd Ready A) (hsbrk : SbrkFresh env.sbrk heapEnd Ready)
    (hlen : 0 < pathLen)
    (hfits : CallsSbrk env pathLen s.heap → heapEnd s.heap.os + sbrkIncrement pathLen < 0x100000000)
    (hmalloc : MyaXOS.klmalloc env pathLen s.heap = .ok (path, heap)) (filename : Nat) :
    ((s.allotted heapEnd pathLen path heap).PathInside env path filename pathLen ↔
      TerminatorFits s pathLen) ∧
    (TerminatorFits s pathLen → ∃ B, ((s.allotted heapEnd pathLen path heap).withMem
      (Vfs.copyPath heap.mem path filename pathLen).1).Inv env heapEnd Ready B) := by
  obtain ⟨hne, -, ⟨B, hinv⟩, -⟩ := h.allotted hsbrk hlen hfits hmalloc
  have hnew : (path, pathLen) ∈ (s.allotted heapEnd pathLen path heap).live :=
    AllocRun.mem_allotted hne heap
  have hlt := (hinv.live_le hnew).trans_lt hinv.kept.accounted.heapEnd_lt
  have hroom := h.lt_usable_iff hsbrk hlen hfits hmalloc
  have hwrites := Vfs.pathWrites_inside_iff heap.mem filename (MyaXOS.usable heap.mem path)
    hlt
  have hspares : TerminatorFits s pathLen → _ := fun hfit => by
    refine hinv.spares (m := (Vfs.copyPath heap.mem path filename pathLen).1) hnew fun x hx => ?_
    rw [Vfs.copyPath_eq_storeAll]
    refine Mem.storeAll_of_forall_ne fun w hw => ?_
    obtain ⟨hle, hlt⟩ := hwrites.mpr (hroom.mpr hfit) w hw
    have hx' : x < path ∨ path + MyaXOS.usable heap.mem path ≤ x := hx
    omega
  refine ⟨⟨fun hinside => hroom.mp (hwrites.mp hinside.inside), fun hfit => ?_⟩, fun hfit => ?_⟩
  · exact ⟨hwrites.mpr (hroom.mpr hfit), (hspares hfit).1⟩
  · exact ⟨B, (hspares hfit).2⟩

/-- The copy of `realloc` is not longer than the new block exactly if the block keeps its bin. -/
theorem reallocInside_iff (h : s.Inv env heapEnd Ready A) (hsbrk : SbrkFresh env.sbrk heapEnd Ready)
    (hlive : (ptr, n) ∈ s.live) (hsize : 0 < size)
    (hmoves : read s.heap.mem (.size (ptr &&& 0xFFFFF000)) < size)
    (hfits : CallsSbrk env size s.heap → heapEnd s.heap.os + sbrkIncrement size < 0x100000000)
    (hmalloc : MyaXOS.klmalloc env size s.heap = .ok (path, heap)) :
    oldSize heap.mem ptr ≤ MyaXOS.usable heap.mem path ↔ KeepsBin s.heap.mem ptr size := by
  obtain ⟨hne, -, ⟨B, hinv⟩, hkept⟩ := h.allotted hsbrk hsize hfits hmalloc
  have husable : MyaXOS.usable heap.mem ptr = MyaXOS.usable s.heap.mem ptr := (hkept _ hlive).2.1
  have hlong : size ≤ MyaXOS.usable heap.mem path :=
    hinv.sound.long_enough (path, size) (AllocRun.mem_allotted hne heap)
  rw [oldSize_eq, husable]
  constructor
  · intro hle _ _ hsmall _
    by_contra hlower
    have hnew : klmallocBinSize size < 10 := by omega
    rw [h.usable_klmalloc hsbrk hsize hfits hmalloc, if_pos hnew, MyaXOS.usable, capacity,
      if_pos hsmall] at hle
    exact Nat.not_lt.mpr hle (Nat.pow_lt_pow_right (by decide) (by omega))
  · intro hkeeps
    exact h.room hsbrk hlive hsize hmoves hkeeps hfits hmalloc hlong

/-- No block in use is at `NULL`. -/
theorem filter_null (h : s.Inv env heapEnd Ready A) :
    s.live.filter (fun b => b.1 ≠ 0) = s.live :=
  List.filter_eq_self.mpr fun _ hb => decide_eq_true (h.ne_zero hb)

/-- `realloc(NULL, size)` is `malloc(size)`. -/
theorem klrealloc_null (h : s.Inv env heapEnd Ready A) (hsbrk : SbrkFresh env.sbrk heapEnd Ready)
    (hfits : CallsSbrk env size s.heap → heapEnd s.heap.os + sbrkIncrement size < 0x100000000)
    {newptr : Nat} (hok : MyaXOS.klrealloc env 0 size s.heap = .ok (newptr, heap)) :
    ∃ B, (s.reallocated heapEnd 0 size newptr heap).Inv env heapEnd Ready B := by
  have hfilter := h.filter_null
  rw [MyaXOS.klrealloc, if_pos rfl] at hok
  rcases Nat.eq_zero_or_pos size with rfl | hsize
  · rw [MyaXOS.klmalloc, if_pos rfl] at hok
    cases hok
    refine ⟨A, ?_⟩
    rw [AllocRun.reallocated, AllocRun.allotted, hfilter, if_neg (not_not.mpr rfl), if_pos rfl,
      if_pos rfl]
    exact h
  · obtain ⟨hne, -, ⟨B, hinv⟩, -⟩ := h.allotted hsbrk hsize hfits hok
    refine ⟨B, ?_⟩
    rw [AllocRun.reallocated, hfilter, if_pos hne]
    rw [AllocRun.allotted, if_neg hne] at hinv ⊢
    exact hinv

/-- `realloc(ptr, 0)` is `free(ptr)`. -/
theorem klrealloc_zero (h : s.Inv env heapEnd Ready A) (hlive : (ptr, n) ∈ s.live) {newptr : Nat}
    (hok : MyaXOS.klrealloc env ptr 0 s.heap = .ok (newptr, heap)) :
    ∃ B, (s.reallocated heapEnd ptr 0 newptr heap).Inv env heapEnd Ready B := by
  obtain ⟨heap', B, hfree, -, hinv, -⟩ := h.klfree hlive
  have hos := h.klfree_os hlive hfree
  rw [MyaXOS.klrealloc, if_neg (h.ne_zero hlive), if_pos rfl, hfree, ok_bind] at hok
  cases hok
  refine ⟨B, ?_⟩
  rw [AllocRun.reallocated, AllocRun.allotted, if_neg (not_not.mpr rfl), if_pos rfl, hos,
    if_pos rfl]
  exact hinv

end AllocRun.Inv

/-! ## Runs

The step lemma for all calls, and what each promise needs.  The two directions of an equivalence are
different lemmas: that the condition is enough is proved for one call from the invariant, and that
it is necessary needs that the call returns, since a call that is stopped by `sbrk` promises
nothing. -/

/-- **One step** of a call that leaves the other blocks alone keeps the invariant.  For `malloc`,
`free` and writes this is always so; for the other two it is what the guard asks for. -/
theorem KernelCall.step_inv (h : s.Inv env heapEnd Ready A)
    (hsbrk : SbrkFresh env.sbrk heapEnd Ready) {call : KernelCall} {s' : AllocRun σ ρ}
    (hvalid : call.Valid env heapEnd s) (hfit : call.TerminatorFits s) (hkeeps : call.KeepsBin s)
    (hstep : call.step env heapEnd s = .ok s') : ∃ B, s'.Inv env heapEnd Ready B := by
  cases call with
  | alloc call =>
    rcases AllocCall.step_inv h hsbrk hvalid with ⟨t, B, ht, hB⟩ | ⟨_, e, he, -⟩
    · cases hstep.symm.trans ht
      exact ⟨B, hB⟩
    · cases hstep.symm.trans he
  | realloc ptr size =>
    obtain ⟨hptr, hmalloc⟩ := hvalid
    obtain ⟨⟨newptr, heap⟩, hok, hstep⟩ := bind_eq_ok hstep
    cases hstep
    rcases hptr with rfl | ⟨n, hlive⟩
    · exact h.klrealloc_null hsbrk (hmalloc (Or.inl rfl)).2 hok
    · rcases Nat.eq_zero_or_pos size with rfl | hsize
      · exact h.klrealloc_zero hlive hok
      · exact (h.klrealloc hsbrk hlive hsize hkeeps fun hmoves => (hmalloc hmoves).2).2 _ _ hok
  | kopen filename =>
    obtain ⟨pathLen, hlen, hpos, hfits⟩ := hvalid
    rw [KernelCall.step, hlen, ok_bind] at hstep
    obtain ⟨⟨path, heap⟩, hmalloc, hstep⟩ := bind_eq_ok hstep
    cases hstep
    exact (h.pathInside_iff hsbrk hpos hfits hmalloc filename).2 (hfit pathLen hlen)

/-- A `kopen` with room for its terminator stays in its block. -/
theorem KernelCall.pathInside (h : s.Inv env heapEnd Ready A)
    (hsbrk : SbrkFresh env.sbrk heapEnd Ready) {call : KernelCall}
    (hvalid : call.Valid env heapEnd s) (hfit : call.TerminatorFits s) :
    call.PathInside env heapEnd s := by
  cases call with
  | alloc call => trivial
  | realloc ptr size => trivial
  | kopen filename =>
    obtain ⟨pathLen, hlen, hpos, hfits⟩ := hvalid
    intro pathLen' path heap hlen' hmalloc
    cases hlen.symm.trans hlen'
    exact (h.pathInside_iff hsbrk hpos hfits hmalloc filename).1.mpr (hfit pathLen hlen)

/-- A `kopen` that returns and stays in its block had room for its terminator. -/
theorem KernelCall.terminatorFits (h : s.Inv env heapEnd Ready A)
    (hsbrk : SbrkFresh env.sbrk heapEnd Ready) {call : KernelCall} {s' : AllocRun σ ρ}
    (hvalid : call.Valid env heapEnd s) (hstep : call.step env heapEnd s = .ok s')
    (hinside : call.PathInside env heapEnd s) : call.TerminatorFits s := by
  cases call with
  | alloc call => trivial
  | realloc ptr size => trivial
  | kopen filename =>
    obtain ⟨pathLen, hlen, hpos, hfits⟩ := hvalid
    intro pathLen' hlen'
    cases hlen.symm.trans hlen'
    rw [KernelCall.step, hlen, ok_bind] at hstep
    obtain ⟨⟨path, heap⟩, hmalloc, -⟩ := bind_eq_ok hstep
    have hpath := hinside pathLen path heap hlen hmalloc
    exact (h.pathInside_iff hsbrk hpos hfits hmalloc filename).1.mp hpath

/-- A `realloc` that keeps the bin does what it promises. -/
theorem KernelCall.reallocRight (h : s.Inv env heapEnd Ready A)
    (hsbrk : SbrkFresh env.sbrk heapEnd Ready) {call : KernelCall}
    (hvalid : call.Valid env heapEnd s) (hkeeps : call.KeepsBin s) :
    call.ReallocRight env heapEnd s := by
  cases call with
  | alloc call => trivial
  | kopen filename => trivial
  | realloc ptr size =>
    rintro ⟨n, hlive⟩ hsize
    exact (h.klrealloc hsbrk hlive hsize hkeeps fun hmoves => (hvalid.2 hmoves).2).1

/-- Then the copy it makes is not longer than the new block. -/
theorem KernelCall.reallocInside (h : s.Inv env heapEnd Ready A)
    (hsbrk : SbrkFresh env.sbrk heapEnd Ready) {call : KernelCall}
    (hvalid : call.Valid env heapEnd s) (hkeeps : call.KeepsBin s) : call.ReallocInside env s := by
  cases call with
  | alloc call => trivial
  | kopen filename => trivial
  | realloc ptr size =>
    rintro ⟨n, hlive⟩ hreallocates newptr heap hnew
    obtain ⟨hsize, hmoves⟩ := hreallocates.resolve_left (h.ne_zero hlive)
    exact (h.reallocInside_iff hsbrk hlive (Nat.pos_of_ne_zero hsize) hmoves
      (hvalid.2 hreallocates).2 hnew).mpr hkeeps

/-- A `realloc` that returns and copies no more than the new block has room for keeps the bin. -/
theorem KernelCall.keepsBin (h : s.Inv env heapEnd Ready A)
    (hsbrk : SbrkFresh env.sbrk heapEnd Ready) {call : KernelCall} {s' : AllocRun σ ρ}
    (hvalid : call.Valid env heapEnd s) (hstep : call.step env heapEnd s = .ok s')
    (hinside : call.ReallocInside env s) : call.KeepsBin s := by
  cases call with
  | alloc call => trivial
  | kopen filename => trivial
  | realloc ptr size =>
    intro hptr hsize hsmall hmoves
    obtain ⟨n, hlive⟩ := hvalid.1.resolve_left hptr
    have hreallocates : Reallocates s.heap.mem ptr size := Or.inr ⟨hsize, hmoves⟩
    obtain ⟨_, hrealloc, -⟩ := bind_eq_ok hstep
    rw [klrealloc_moves env hptr hmoves] at hrealloc
    obtain ⟨⟨newptr, heap⟩, hnew, -⟩ := bind_eq_ok hrealloc
    have hle := hinside ⟨n, hlive⟩ hreallocates newptr heap hnew
    exact (h.reallocInside_iff hsbrk hlive (Nat.pos_of_ne_zero hsize) hmoves
      (hvalid.2 hreallocates).2 hnew).mp hle hptr hsize hsmall hmoves

end

/-! ## Every run

The invariant of these runs is that there is an arena.  A call that breaks its promise leaves no
arena, and this is why each theorem has the condition of the other call as a part of its guard; what
is shown is that the promise of the one is kept as long as the other's condition is. -/

section
variable {env : AllocEnv σ ρ} {heapEnd : σ → Nat} {Ready : σ → Prop}

/-- The step of a run in which every copy has room. -/
theorem KernelCall.step_exists_inv (hsbrk : SbrkFresh env.sbrk heapEnd Ready) (call : KernelCall)
    (s s' : AllocRun σ ρ) (hinv : ∃ A, s.Inv env heapEnd Ready A)
    (hcall : (call.Valid env heapEnd s ∧ call.TerminatorFits s) ∧ call.KeepsBin s)
    (hs : call.step env heapEnd s = .ok s') : ∃ A, s'.Inv env heapEnd Ready A := by
  obtain ⟨A, hA⟩ := hinv
  exact KernelCall.step_inv hA hsbrk hcall.1.1 hcall.1.2 hcall.2 hs

end

/-- **When `kopen` keeps to its copy.**  In a run of valid calls in which no block is moved to a
lower bin, `kopen` writes within the block of its copy, and spares the other blocks and every link,
if no path is exactly as long as the block; and if the run returns, only then. -/
theorem path_inside_iff (env : AllocEnv σ ρ) (heapEnd : σ → Nat) (Ready : σ → Prop)
    (hsbrk : SbrkFresh env.sbrk heapEnd Ready) (s : AllocRun σ ρ)
    (hstart : s.Start env heapEnd Ready) (calls : List KernelCall)
    (hvalid : Runs.Along (KernelCall.step env heapEnd) (KernelCall.Valid env heapEnd) calls s)
    (hkeeps : Runs.Along (KernelCall.step env heapEnd) KernelCall.KeepsBin calls s) :
    (Runs.Along (KernelCall.step env heapEnd) KernelCall.TerminatorFits calls s →
      Runs.Along (KernelCall.step env heapEnd) (KernelCall.PathInside env heapEnd) calls s) ∧
    ∀ t, Runs.run (KernelCall.step env heapEnd) calls s = .ok t →
      Runs.Along (KernelCall.step env heapEnd) (KernelCall.PathInside env heapEnd) calls s →
      Runs.Along (KernelCall.step env heapEnd) KernelCall.TerminatorFits calls s := by
  refine ⟨fun hfit => ?_, fun t hrun hinside => ?_⟩
  · refine Runs.along_of_inv (I := fun s => ∃ A, s.Inv env heapEnd Ready A)
      (KernelCall.step_exists_inv hsbrk) (fun call s hinv hcall => ?_) ⟨_, hstart.inv hsbrk⟩
      ((hvalid.and hfit).and hkeeps)
    obtain ⟨A, hA⟩ := hinv
    exact KernelCall.pathInside hA hsbrk hcall.1.1 hcall.1.2
  · refine Runs.along_of_run (I := fun s => ∃ A, s.Inv env heapEnd Ready A)
      (fun call s s' hinv hcall hfit hs => ?_) (fun call s s' hinv hcall hs hinside => ?_)
      ⟨_, hstart.inv hsbrk⟩ (hvalid.and hkeeps) hrun hinside
    · exact KernelCall.step_exists_inv hsbrk call s s' hinv ⟨⟨hcall.1, hfit⟩, hcall.2⟩ hs
    · obtain ⟨A, hA⟩ := hinv
      exact KernelCall.terminatorFits hA hsbrk hcall.1 hs hinside

/-- The kernel right after `heap_install`, with a path at `0x100`. -/
def kernelWithPath (os : Paging) (s : List UInt8) : AllocRun Paging SkipRand :=
  (kernelStart os).withMem (stringAt 0x100 s)

theorem kernelWithPath_start : ∃ os, os.heapEnd = 0x204000 ∧
    ∀ s : List UInt8, s.length < 0x1000 →
      (kernelWithPath os s).Start kernelEnv Paging.heapEnd KernelReady := by
  obtain ⟨os, hend, hstart⟩ := kernelStart_start
  refine ⟨os, hend, fun s hs => ⟨hstart.binHead, hstart.level, hstart.newestBig,
    hstart.head_word, hstart.head_below, fun i hi => ?_, hstart.heapEnd_lt, hstart.ready, rfl, rfl⟩⟩
  refine Mem.load32_eq_zero fun x hx _ => ?_
  have hx' : 0x110000 + 16 + 4 * i ≤ x := hx
  have hout : s.length ≤ x - 0x100 := by omega
  simp only [kernelWithPath, AllocRun.withMem, stringAt]
  rw [if_pos (by omega), List.getD_eq_getElem?_getD, List.getElem?_eq_none hout]
  rfl

/-- `kopen` of a path with a length below 2048, when the heap is new. -/
theorem kernelWithPath_valid {os : Paging} (hend : os.heapEnd = 0x204000) {s : List UInt8}
    (hs : 0 ∉ s) (hpos : 0 < s.length) (hsmall : s.length ≤ 2048) :
    strlen (kernelWithPath os s).heap.mem 0x100 = .ok s.length ∧
    Runs.Along (KernelCall.step kernelEnv Paging.heapEnd)
      (KernelCall.Valid kernelEnv Paging.heapEnd) [.kopen 0x100] (kernelWithPath os s) := by
  have hlen : strlen (kernelWithPath os s).heap.mem 0x100 = .ok s.length :=
    strlen_eq (stringAt_holds 0x100 hs) (by omega)
  refine ⟨hlen, ⟨s.length, hlen, hpos, fun _ => ?_⟩, fun _ _ => trivial⟩
  show os.heapEnd + sbrkIncrement s.length < 0x100000000
  rw [hend, sbrkIncrement, if_pos ((klmallocBinSize_spec hpos).1.mpr hsmall)]
  decide

theorem path_inside_iff_ab : ∃ os,
    Runs.Along (KernelCall.step kernelEnv Paging.heapEnd)
      (KernelCall.PathInside kernelEnv Paging.heapEnd) [.kopen 0x100]
      (kernelWithPath os [0x2F, 0x61, 0x62]) := by
  obtain ⟨os, hend, hstart⟩ := kernelWithPath_start
  obtain ⟨hlen, hvalid⟩ := kernelWithPath_valid hend (s := [0x2F, 0x61, 0x62]) (by decide)
    (by decide) (by decide)
  refine ⟨os, (path_inside_iff kernelEnv Paging.heapEnd KernelReady kernel_sbrk_fresh _
    (hstart _ (by decide)) [.kopen 0x100] hvalid ⟨trivial, fun _ _ => trivial⟩).1
    ⟨fun pathLen hlen' => ?_, fun _ _ => trivial⟩⟩
  cases hlen.symm.trans hlen'
  exact ⟨fun _ => by decide, fun hlt => absurd hlt (by decide)⟩

/-- `kopen("/abc")`: the block has four bytes, and the terminator is the fifth. -/
theorem not_path_inside : ∃ os,
    (kernelWithPath os [0x2F, 0x61, 0x62, 0x63]).Start kernelEnv Paging.heapEnd KernelReady ∧
    Runs.Along (KernelCall.step kernelEnv Paging.heapEnd)
      (KernelCall.Valid kernelEnv Paging.heapEnd) [.kopen 0x100]
      (kernelWithPath os [0x2F, 0x61, 0x62, 0x63]) ∧
    ¬ Runs.Along (KernelCall.step kernelEnv Paging.heapEnd)
      (KernelCall.PathInside kernelEnv Paging.heapEnd) [.kopen 0x100]
      (kernelWithPath os [0x2F, 0x61, 0x62, 0x63]) := by
  obtain ⟨os, hend, hstart⟩ := kernelWithPath_start
  obtain ⟨hlen, hvalid⟩ := kernelWithPath_valid hend (s := [0x2F, 0x61, 0x62, 0x63]) (by decide)
    (by decide) (by decide)
  have hs := hstart [0x2F, 0x61, 0x62, 0x63] (by decide)
  refine ⟨os, hs, hvalid, fun hinside => ?_⟩
  have hinv := hs.inv kernel_sbrk_fresh
  have hfits : CallsSbrk kernelEnv 4 (kernelWithPath os [0x2F, 0x61, 0x62, 0x63]).heap →
      os.heapEnd + sbrkIncrement 4 < 0x100000000 := fun _ => by rw [hend]; decide
  have hround := hinv.round (by decide) hfits
  rcases hinv.klmalloc kernel_sbrk_fresh (by decide) hround hfits with
    ⟨path, heap, -, hmalloc, -⟩ | ⟨e, -, -, hstop⟩
  · have hpath := hinside.1 4 path heap hlen hmalloc
    have hfit := (hinv.pathInside_iff kernel_sbrk_fresh (by decide) hfits hmalloc 0x100).1.mp hpath
    exact hfit.1 (by decide) (by decide)
  · obtain ⟨os', hsbrk, -⟩ := kernel_sbrk hs.ready (show 0x1000 % 0x1000 = 0 by decide)
      (show os.heapEnd + 0x1000 ≤ 0x1000000 by omega)
    cases hstop.symm.trans hsbrk

/-- **When `realloc` is right.**  In a run of valid calls in which every copy of `kopen` has room
for its terminator, `realloc` does what it promises, and the blocks in use and the free lists stay
in order, if no small block moves to a lower bin; and if the run returns, then this is also when no
copy of `realloc` is longer than its new block. -/
theorem realloc_right (env : AllocEnv σ ρ) (heapEnd : σ → Nat) (Ready : σ → Prop)
    (hsbrk : SbrkFresh env.sbrk heapEnd Ready) (s : AllocRun σ ρ)
    (hstart : s.Start env heapEnd Ready) (calls : List KernelCall)
    (hvalid : Runs.Along (KernelCall.step env heapEnd) (KernelCall.Valid env heapEnd) calls s)
    (hfit : Runs.Along (KernelCall.step env heapEnd) KernelCall.TerminatorFits calls s) :
    (Runs.Along (KernelCall.step env heapEnd) KernelCall.KeepsBin calls s →
      Runs.Along (KernelCall.step env heapEnd) (KernelCall.ReallocRight env heapEnd) calls s ∧
      Runs.Always (KernelCall.step env heapEnd)
        (fun s => AllocSound env s ∧ FreeListsWhole env s) calls s) ∧
    ∀ t, Runs.run (KernelCall.step env heapEnd) calls s = .ok t →
      (Runs.Along (KernelCall.step env heapEnd) (KernelCall.ReallocInside env) calls s ↔
        Runs.Along (KernelCall.step env heapEnd) KernelCall.KeepsBin calls s) := by
  have hinv : ∃ A, s.Inv env heapEnd Ready A := ⟨_, hstart.inv hsbrk⟩
  have hstep := KernelCall.step_exists_inv hsbrk
  refine ⟨fun hkeeps => ⟨?_, ?_⟩, fun t hrun => ⟨fun hinside => ?_, fun hkeeps => ?_⟩⟩
  · refine Runs.along_of_inv (I := fun s => ∃ A, s.Inv env heapEnd Ready A) hstep
      (fun call s hinv hcall => ?_) hinv ((hvalid.and hfit).and hkeeps)
    obtain ⟨A, hA⟩ := hinv
    exact KernelCall.reallocRight hA hsbrk hcall.1.1 hcall.2
  · refine (Runs.along_always hstep hinv ((hvalid.and hfit).and hkeeps)).imp fun s hinv => ?_
    obtain ⟨A, hA⟩ := hinv
    exact ⟨hA.sound, hA.whole⟩
  · refine Runs.along_of_run (I := fun s => ∃ A, s.Inv env heapEnd Ready A)
      (fun call s s' hinv hcall hbin hs => hstep call s s' hinv ⟨hcall, hbin⟩ hs)
      (fun call s s' hinv hcall hs hinside => ?_) hinv (hvalid.and hfit) hrun hinside
    obtain ⟨A, hA⟩ := hinv
    exact KernelCall.keepsBin hA hsbrk hcall.1 hs hinside
  · refine Runs.along_of_inv (I := fun s => ∃ A, s.Inv env heapEnd Ready A) hstep
      (fun call s hinv hcall => ?_) hinv ((hvalid.and hfit).and hkeeps)
    obtain ⟨A, hA⟩ := hinv
    exact KernelCall.reallocInside hA hsbrk hcall.1.1 hcall.2

/-- The first three blocks of four bytes behind a header. -/
theorem cells_four (p : Nat) : ∃ cs, cells p 0 = (p + 12) :: (p + 16) :: (p + 20) :: cs := by
  have hcount : (0x1000 - 12) >>> (2 + 0) = 1018 + 3 := by decide
  rw [cells, if_pos (by decide), hcount, List.range_eq_range', List.range'_succ, List.range'_succ,
    List.range'_succ]
  exact ⟨_, rfl⟩

/-- The first two blocks of sixteen bytes. -/
theorem cells_sixteen (p : Nat) : ∃ cs, cells p 2 = (p + 12) :: (p + 28) :: cs := by
  have hcount : (0x1000 - 12) >>> (2 + 2) = 253 + 2 := by decide
  rw [cells, if_pos (by decide), hcount, List.range_eq_range', List.range'_succ, List.range'_succ]
  exact ⟨_, rfl⟩

/-- Take a block of sixteen bytes, and write a 0 to the fifth of them. -/
def oneBlock (call : KernelCall) : List KernelCall :=
  [.alloc (.malloc 16), .alloc (.write 0x204010 0), call]

/-- The kernel with this block. -/
structure OneBlock (os : Paging) (s : AllocRun Paging SkipRand) : Prop where
  start : (kernelStart os).Start kernelEnv Paging.heapEnd KernelReady
  /-- It is reached with the two calls. -/
  steps : ∃ s₁, KernelCall.step kernelEnv Paging.heapEnd (.alloc (.malloc 16)) (kernelStart os) =
      .ok s₁ ∧ KernelCall.step kernelEnv Paging.heapEnd (.alloc (.write 0x204010 0)) s₁ = .ok s ∧
    (KernelCall.alloc (.malloc 16)).Valid kernelEnv Paging.heapEnd (kernelStart os) ∧
    (KernelCall.alloc (.write 0x204010 0)).Valid kernelEnv Paging.heapEnd s₁
  live : s.live = [(0x20400C, 16)]
  heapEnd : s.heap.os.heapEnd = 0x205000
  binHead : s.heap.binHead 0 = 0
  size : read s.heap.mem (.size 0x204000) = 2
  byte : s.heap.mem 0x204010 = 0
  inv : ∃ A, s.Inv kernelEnv Paging.heapEnd KernelReady A

theorem exists_oneBlock : ∃ os s, OneBlock os s := by
  obtain ⟨os, hend, hstart⟩ := kernelStart_start
  have hinv := hstart.inv kernel_sbrk_fresh
  have hfits : CallsSbrk kernelEnv 16 (kernelStart os).heap →
      os.heapEnd + sbrkIncrement 16 < 0x100000000 := fun _ => by rw [hend]; decide
  obtain ⟨os₁, hsbrk, -, hend₁⟩ :=
    kernel_sbrk hstart.ready (show 0x1000 % 0x1000 = 0 by decide)
      (show os.heapEnd + 0x1000 ≤ 0x1000000 by omega)
  obtain ⟨cs, hcells⟩ := cells_sixteen os.heapEnd
  obtain ⟨h₁, hmalloc, hos, hothers, hsize, -⟩ := hinv.kept.klmalloc_fresh (n := 16) (by decide)
    (by decide) rfl (show os.heapEnd + 0x1000 < 0x100000000 by omega) hsbrk hcells
  have hend' : (kernelStart os).heap.os.heapEnd = 0x204000 := hend
  rw [hend] at hmalloc
  rw [hend'] at hsize hend₁
  obtain ⟨-, hlive, ⟨A, hA⟩, -⟩ := hinv.allotted kernel_sbrk_fresh (by decide) hfits hmalloc
  obtain ⟨s₁, hs₁⟩ : ∃ s₁, s₁ = (kernelStart os).allotted Paging.heapEnd 16 0x20400C h₁ := ⟨_, rfl⟩
  have hheap : s₁.heap = h₁ := by rw [hs₁]; rfl
  rw [← hs₁] at hlive hA
  have hblock : (0x20400C, 16) ∈ s₁.live := hlive ▸ List.mem_cons_self
  have hmallocStep : KernelCall.step kernelEnv Paging.heapEnd (.alloc (.malloc 16))
      (kernelStart os) = .ok s₁ := by
    simp only [KernelCall.step, AllocCall.step, hmalloc, hs₁]
    rfl
  refine ⟨os, s₁.withMem (s₁.heap.mem.store8 0x204010 0), hstart, ⟨s₁, hmallocStep, rfl,
    ⟨by decide, hfits⟩, ⟨0x20400C, 16, hblock, by decide, by decide⟩⟩, hlive, ?_, ?_, ?_,
    Mem.store8_self s₁.heap.mem 0x204010 0, A, hA.write fun x hx => Mem.store8_of_ne 0 ?_⟩
  · rw [AllocRun.withMem, hheap, hos]
    exact hend₁
  · rw [AllocRun.withMem, hheap]
    exact hothers 0 (by decide)
  · rw [AllocRun.withMem, hheap]
    exact (Mem.load32_store8 _ _ (by decide)).trans hsize
  · rintro rfl
    exact hx (hA.data hblock (by decide) (by decide))

namespace OneBlock

variable {os : Paging} {s : AllocRun Paging SkipRand} {call : KernelCall}

theorem block (h : OneBlock os s) : (0x20400C, 16) ∈ s.live := h.live ▸ List.mem_cons_self

/-- What a guard says along the three calls. -/
theorem along_iff (h : OneBlock os s) {guard : KernelCall → AllocRun Paging SkipRand → Prop} :
    Runs.Along (KernelCall.step kernelEnv Paging.heapEnd) guard (oneBlock call) (kernelStart os) ↔
      guard (.alloc (.malloc 16)) (kernelStart os) ∧
      (∃ s₁, KernelCall.step kernelEnv Paging.heapEnd (.alloc (.malloc 16)) (kernelStart os) =
        .ok s₁ ∧ guard (.alloc (.write 0x204010 0)) s₁) ∧ guard call s := by
  obtain ⟨s₁, hmalloc, hwrite, -⟩ := h.steps
  rw [oneBlock, Runs.along_cons_iff hmalloc, Runs.along_cons_iff hwrite]
  refine and_congr_right fun _ => ⟨fun hs => ⟨⟨s₁, hmalloc, hs.1⟩, hs.2.1⟩, fun hs => ?_⟩
  obtain ⟨⟨s₁', hmalloc', hguard⟩, hcall⟩ := hs
  cases hmalloc.symm.trans hmalloc'
  exact ⟨hguard, hcall, fun _ _ => trivial⟩

theorem valid (h : OneBlock os s) (hcall : call.Valid kernelEnv Paging.heapEnd s) :
    Runs.Along (KernelCall.step kernelEnv Paging.heapEnd)
      (KernelCall.Valid kernelEnv Paging.heapEnd) (oneBlock call) (kernelStart os) := by
  obtain ⟨s₁, hmalloc, -, hmalloc_valid, hwrite_valid⟩ := h.steps
  exact h.along_iff.mpr ⟨hmalloc_valid, ⟨s₁, hmalloc, hwrite_valid⟩, hcall⟩

/-- A guard of `realloc` and `kopen` only. -/
theorem along (h : OneBlock os s) {guard : KernelCall → AllocRun Paging SkipRand → Prop}
    (halloc : ∀ c s, guard (.alloc c) s) (hcall : guard call s) :
    Runs.Along (KernelCall.step kernelEnv Paging.heapEnd) guard (oneBlock call)
      (kernelStart os) := by
  obtain ⟨s₁, hmalloc, -⟩ := h.steps
  exact h.along_iff.mpr ⟨halloc _ _, ⟨s₁, hmalloc, halloc _ _⟩, hcall⟩

end OneBlock

/-- The block grows to a hundred bytes. -/
theorem realloc_right_grow : ∃ os,
    Runs.Along (KernelCall.step kernelEnv Paging.heapEnd)
        (KernelCall.ReallocRight kernelEnv Paging.heapEnd) (oneBlock (.realloc 0x20400C 100))
        (kernelStart os) ∧
      Runs.Always (KernelCall.step kernelEnv Paging.heapEnd)
        (fun s => AllocSound kernelEnv s ∧ FreeListsWhole kernelEnv s)
        (oneBlock (.realloc 0x20400C 100)) (kernelStart os) := by
  obtain ⟨os, s, h⟩ := exists_oneBlock
  have hvalid : (KernelCall.realloc 0x20400C 100).Valid kernelEnv Paging.heapEnd s := by
    refine ⟨Or.inr ⟨16, h.block⟩, fun _ => ⟨by decide, fun _ => ?_⟩⟩
    show s.heap.os.heapEnd + sbrkIncrement 100 < 0x100000000
    rw [h.heapEnd]
    decide
  have hkeeps : (KernelCall.realloc 0x20400C 100).KeepsBin s := fun _ _ _ _ => by
    rw [show 0x20400C &&& 0xFFFFF000 = 0x204000 by decide, h.size]
    decide
  exact ⟨os, (realloc_right kernelEnv Paging.heapEnd KernelReady kernel_sbrk_fresh _ h.start _
    (h.valid hvalid) (h.along (fun _ _ => trivial) trivial)).1
    (h.along (fun _ _ => trivial) hkeeps)⟩

/-- The block shrinks to four bytes: the sixteen that are copied go over the link of the block
behind the new one. -/
theorem not_realloc_right : ∃ os,
    (kernelStart os).Start kernelEnv Paging.heapEnd KernelReady ∧
    Runs.Along (KernelCall.step kernelEnv Paging.heapEnd)
      (KernelCall.Valid kernelEnv Paging.heapEnd) (oneBlock (.realloc 0x20400C 4))
      (kernelStart os) ∧
    ¬ Runs.Along (KernelCall.step kernelEnv Paging.heapEnd)
      (KernelCall.ReallocRight kernelEnv Paging.heapEnd) (oneBlock (.realloc 0x20400C 4))
      (kernelStart os) := by
  obtain ⟨os, s, h⟩ := exists_oneBlock
  obtain ⟨A, hinv⟩ := h.inv
  have hend := h.heapEnd
  have hfits : CallsSbrk kernelEnv 4 s.heap →
      s.heap.os.heapEnd + sbrkIncrement 4 < 0x100000000 := fun _ => by rw [hend]; decide
  refine ⟨os, h.start, h.valid ⟨Or.inr ⟨16, h.block⟩, fun _ => ⟨by decide, hfits⟩⟩,
    fun hright => ?_⟩
  have hcopy := ((h.along_iff.mp hright).2.2 ⟨16, h.block⟩ (by decide)).copy
  obtain ⟨os₁, hsbrk, -, hend₁⟩ :=
    kernel_sbrk hinv.ready (show 0x1000 % 0x1000 = 0 by decide)
      (show s.heap.os.heapEnd + 0x1000 ≤ 0x1000000 by omega)
  obtain ⟨cs, hcells⟩ := cells_four s.heap.os.heapEnd
  obtain ⟨h₁, hmalloc, hos, -, -, hstack⟩ := hinv.kept.klmalloc_fresh (n := 4) (by decide)
    (by decide) h.binHead (show s.heap.os.heapEnd + 0x1000 < 0x100000000 by omega) hsbrk hcells
  have hheader : 0x20400C &&& 0xFFFFF000 = 0x204000 := by decide
  have husable : usable s.heap.mem 0x20400C = 16 := by
    rw [usable, hheader, h.size]
    rfl
  obtain ⟨-, -, -, hkept⟩ := hinv.allotted kernel_sbrk_fresh (by decide) hfits hmalloc
  obtain ⟨-, husable₁, hsame⟩ := hkept _ h.block
  have hold : oldSize h₁.mem 0x20400C = 16 := (oldSize_eq ..).trans (husable₁.trans husable)
  have hbyte₁ : h₁.mem 0x204010 = 0 :=
    (hsame 0x204010 (by decide) (by rw [husable]; decide)).trans h.byte
  have hspares := hcopy (Or.inr ⟨by decide, by rw [hheader, h.size]; decide⟩) _ _ hmalloc
  rw [hold] at hspares
  -- the block behind the new one is the first on its stack
  have hpage : s.heap.os.heapEnd ∈
      (s.allotted Paging.heapEnd 4 (s.heap.os.heapEnd + 12) h₁).headers := by
    rw [AllocRun.allotted, if_neg (show ¬ h₁.os.heapEnd = s.heap.os.heapEnd by rw [hos]; omega)]
    exact List.mem_cons_self
  have hnext : read h₁.mem (.item (s.heap.os.heapEnd + 16)) = s.heap.os.heapEnd + 20 :=
    hstack.2.2.1
  have hlink : read (memcpy h₁.mem (s.heap.os.heapEnd + 12) 0x20400C 16)
      (.item (s.heap.os.heapEnd + 16)) = s.heap.os.heapEnd + 20 :=
    (hspares.links (.item (s.heap.os.heapEnd + 16))
      ⟨s.heap.os.heapEnd, hpage, _, hstack, List.mem_cons_self⟩).trans hnext
  have hlow : read (memcpy h₁.mem (s.heap.os.heapEnd + 12) 0x20400C 16)
      (.item (s.heap.os.heapEnd + 16)) % 0x100 = 0 := by
    refine (Mem.load32_mod ..).trans ?_
    rw [show Place.addr (.item (s.heap.os.heapEnd + 16)) = s.heap.os.heapEnd + 12 + 4 from rfl,
      memcpy_apply (by omega) (by decide) (by omega) (by decide), hbyte₁]
    rfl
  rw [hlink, hend] at hlow
  exact absurd hlow (by decide)

end MyaXOS
