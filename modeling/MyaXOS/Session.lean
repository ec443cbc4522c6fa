import MyaXOS.Alloc.Adds
import MyaXOS.Alloc.Calloc
import MyaXOS.Alloc.Outside
import MyaXOS.Ext2.Pieces
import MyaXOS.Vga

/-!
# One memory

The heap, the screen and the image of the file system are in one memory, without any protection.
`cat` uses all three: it takes a block of the heap, has the file read into it, and writes it to the
screen character by character.

* `Session` is the kernel with these three, and `SessionCall` a call of the heap, a call of the
  screen, or a `cat`.
* `Shares` says that each of the three has its part of the memory to itself: the heap is in order,
  the image is what was mounted, and the screen shows the console.
* Every call keeps it (`Shares.step`), so it holds after any calls in any order, and every `cat` on
  the way has put the whole file on the console (`session_shows`).

**What each part knows of the others.**  The allocator keeps what is outside the heap as it was, and
does not care what is written there (`Alloc/Outside.lean`).  The screen writes to its own cells, and
depends on nothing else (`ScreenOnly`, `Shows.congr_mem`).  Reading a file depends on the image, and
writes to the buffer (`Wrote`).  So no part has to be looked at again: each call belongs to one of
them, and for the others it is a change of memory that they do not notice.  `Shares` has the three
invariants, and in addition that the cells of the screen and the image are outside the heap, which
stays so while the heap grows.

**`cat`** goes through all of them.  The block that `malloc` returns is behind the screen and behind
the image, since it is in the heap; it has room for the whole file, since the length in the node is
that of the inode (`sized_of_lookup`), and 200 bytes more.  The file is read into it, then its bytes
are printed one by one, while the screen may scroll, and at the end the block is given back.
`cat_of_malloc` is the composition of these four.

A run stops only when `sbrk` does.  With pages for `sbrk` to return, `cat` returns
(`cat_returns`).
-/

set_option autoImplicit false

namespace MyaXOS

variable {σ ρ : Type}

/-- The kernel with its heap and its screen. -/
structure Session (σ ρ : Type) where
  /-- The heap, with the memory. -/
  run : AllocRun σ ρ
  /-- The variables of the screen.  Its memory is that of the heap. -/
  vga : Vga

/-- A call in a session. -/
inductive SessionCall where
  | heap (call : KernelCall)
  | screen (call : VgaCall)
  /-- `cat`, from where `kopen` has returned the node. -/
  | cat (file : FsNode)

namespace Session

/-- The screen, as the memory has it. -/
def view (s : Session σ ρ) : Vga := { s.vga with mem := s.run.heap.mem }

/-- The loop of `cat` over the characters in the buffer, after `i` rounds. -/
def printLoop (bufferb : Nat) : Nat → Vga → Vga
  | 0, v => v
  | i + 1, v =>
    let v := printLoop bufferb i v
    v.writech (v.mem (u32 (bufferb + i)))

/-- `cat` on a node.  `close_fs` does nothing. -/
def cat (env : AllocEnv σ ρ) (heapEnd : σ → Nat) (g : Initrd) (file : FsNode)
    (s : Session σ ρ) : Except Stop (Session σ ρ) := do
  let size := u32 (file.length + 200)
  let (bufferb, heap) ← klmalloc env size s.run.heap
  let run := s.run.allotted heapEnd size bufferb heap
  let (bytesRead, m) := g.readFs heap.mem file 0 file.length bufferb
  let v := printLoop bufferb bytesRead { s.vga with mem := m }
  let heap ← klfree env bufferb (run.withMem v.mem).heap
  .ok { run := ⟨heap, run.live.filter fun b => b.1 ≠ bufferb, run.headers⟩, vga := v }

end Session

namespace SessionCall

/-- Perform a call. -/
def step (env : AllocEnv σ ρ) (heapEnd : σ → Nat) (g : Initrd) :
    SessionCall → Session σ ρ → Except Stop (Session σ ρ)
  | .heap call, s => do
    let run ← call.step env heapEnd s.run
    .ok { s with run := run }
  | .screen call, s =>
    let v := s.view.perform call
    .ok { run := s.run.withMem v.mem, vga := v }
  | .cat file, s => s.cat env heapEnd g file

end SessionCall

/-- What a call means for the console, when the file system is that in the memory `m`. -/
def Console.session (g : Initrd) (m : Mem) (t : Console) : SessionCall → Console
  | .heap _ => t
  | .screen call => t.perform call
  | .cat file => (fileData g m (g.ext2GetInode m file.inode)).foldl (fun t c => t.write c) t

/-! ## Calls that may be made

What a call needs of the state: a call of the heap what it needs in any run of the heap, and `cat` a
node that a walk has found and room for a buffer of the length of its file.  The invariant puts the
three parts side by side.  None of them says anything about the others, and what keeps them apart is
where they lie: screen and image are outside of the heap. -/

/-- A node that a walk from the root has found, of a file that lies in the image and is no longer
than its direct and indirect blocks can hold. -/
structure Served (g : Initrd) (m : Mem) (length : Nat) (root file : FsNode) : Prop where
  found : ∃ names, (g.vfs m).lookup root names = .ok (some file)
  image : Image g m length (g.ext2GetInode m file.inode)
  size_le : Initrd.size m (g.ext2GetInode m file.inode) ≤
    (12 + g.blockSize m / 4) * g.blockSize m

/-- The calls that may be made: those of the heap as in any run, and `cat` on a file that leaves
room for its buffer. -/
def SessionCall.Valid (env : AllocEnv σ ρ) (heapEnd : σ → Nat) (g : Initrd) (m : Mem)
    (length : Nat) (root : FsNode) : SessionCall → Session σ ρ → Prop
  | .heap call, s =>
    call.Valid env heapEnd s.run ∧ call.TerminatorFits s.run ∧ call.KeepsBin s.run
  | .screen _, _ => True
  | .cat file, s => Served g m length root file ∧
    (AllocCall.malloc (file.length + 200)).Valid env heapEnd s.run

/-- The three parts of the memory.  `m` is the memory in which the file system was mounted.  The
first three fields are the invariants of the parts, and the others say that the parts are apart;
those do not change in a run, as what is outside of the heap stays outside. -/
structure Shares (env : AllocEnv σ ρ) (heapEnd : σ → Nat) (Ready : σ → Prop) (g : Initrd) (m : Mem)
    (length : Nat) (s : Session σ ρ) (t : Console) : Prop where
  heap : ∃ A, s.run.Inv env heapEnd Ready A
  shows : Shows s.view t
  agree : Agree g length m s.run.heap.mem
  screen : ∀ x, textmemptr ≤ x → x < textmemptr + 4000 → s.run.Outside env heapEnd x
  image : ∀ x, g.start ≤ x → x < g.start + length → s.run.Outside env heapEnd x
  apart : g.start + length ≤ textmemptr ∨ textmemptr + 4000 ≤ g.start

/-! ## Nodes have the length of their files

`cat` takes its buffer by the length in the node, and reads by the length in the inode.  The two are
the same for every node that a walk has found, by induction along the walk, because each node is
made from the inode it names. -/

section
variable {g : Initrd} {m m₀ : Mem} {memHead : Nat} {root node : FsNode}
  {names : List (List UInt8)}

/-- The node has the length of the inode that it names, so that a buffer of this length has room for
the file. -/
def Sized (g : Initrd) (m : Mem) (node : FsNode) : Prop :=
  node.length = Initrd.size m (g.ext2GetInode m node.inode)

/-- **Every node that a walk finds has the length of its file**: the root when it is mounted, and
each other node when it is filled in from the inode. -/
theorem sized_of_lookup (hmount : Initrd.initrdMount m₀ memHead = .ok (g, m, root))
    (hfound : (g.vfs m).lookup root names = .ok (some node)) : Sized g m node := by
  have hroot : Sized g m root := by
    rw [(found_of_mount hmount).2]
    rfl
  refine Vfs.lookup_induction hroot (fun dir name child _ hchild => ?_) hfound
  obtain ⟨_, -, hchild⟩ := bind_eq_ok (Vfs.finddirFs_eq_some hchild).2
  obtain ⟨_ | direntry, -, hchild⟩ := bind_eq_ok hchild
  · cases hchild
  · cases hchild
    rfl

end

/-! ## Printing

The loop of `cat` reads a byte of the buffer and writes it on the screen, and the screen is memory
too.  The bytes still to be read do not change, since a call of the driver writes to the cells only.
-/

section
variable {v : Vga} {t : Console} {m : Mem} {bufferb k : Nat}

/-- The screen is what is in its cells. -/
theorem Shows.congr_mem (h : Shows v t)
    (hsame : ∀ a, textmemptr ≤ a → a < textmemptr + 4000 → m a = v.mem a) :
    Shows { v with mem := m } t where
  onScreen := h.onScreen
  col_lt := h.col_lt
  col := h.col
  row := h.row
  attr := h.attr
  cell := fun y hy x hx => by
    rw [← h.cell y hy x hx, Vga.cell, Vga.cell, Vga.cellAt, Vga.cellAt]
    have hin : textmemptr ≤ Vga.cellAddr y x ∧ Vga.cellAddr y x + 1 < textmemptr + 4000 := by
      simp only [Vga.cellAddr]
      omega
    exact Prod.ext (hsame _ hin.1 (by omega)) (hsame _ (by omega) hin.2)

/-- **The loop of `cat`** writes what is in the buffer, from a buffer behind the screen. -/
theorem printLoop_shows (h : Shows v t) (hbuffer : textmemptr + 4000 ≤ bufferb)
    (hfits : bufferb + k ≤ 0x100000000) :
    Shows (Session.printLoop bufferb k v)
        (((List.range k).map fun i => v.mem (bufferb + i)).foldl (fun t c => t.write c) t) ∧
      ScreenOnly v.mem (Session.printLoop bufferb k v).mem := by
  induction k with
  | zero => exact ⟨h, ScreenOnly.refl _⟩
  | succ k ih =>
    obtain ⟨hshows, honly⟩ := ih (by omega)
    have hbyte : (Session.printLoop bufferb k v).mem (u32 (bufferb + k)) = v.mem (bufferb + k) := by
      rw [u32_eq (by omega)]
      exact honly _ (Or.inr (by omega))
    rw [Session.printLoop, List.range_succ, List.map_append, List.foldl_append]
    simp only [hbyte]
    obtain ⟨hnext, honly'⟩ := hshows.writech (v.mem (bufferb + k))
    exact ⟨hnext, honly.trans honly'⟩

end

/-! ## How a call of the heap stops

A call of the heap that the rules allow passes all its assertions and finds its loops at an end.
What is left is `sbrk`, which stops when there are no more pages, and a call that stops has stopped
there.  The proof is one more time through `klmalloc`, now for the case of an error. -/

section
variable {env : AllocEnv σ ρ} {heapEnd : σ → Nat} {Ready : σ → Prop} {s : AllocRun σ ρ} {A : Arena}
  {n : Nat} {e : Stop}

theorem SbrkStops.of_increment (hn : env.sbrk (sbrkIncrement n) s.heap.os = .error e) :
    SbrkStops env s.heap.os e := by
  refine ⟨sbrkIncrement n, ?_, hn⟩
  rw [sbrkIncrement]
  split_ifs
  · rfl
  · exact Nat.mul_mod_right ..

theorem AllocRun.Inv.klmalloc_error (h : s.Inv env heapEnd Ready A)
    (hsbrk : SbrkFresh env.sbrk heapEnd Ready)
    (hfits : CallsSbrk env n s.heap → heapEnd s.heap.os + sbrkIncrement n < 0x100000000)
    (he : MyaXOS.klmalloc env n s.heap = .error e) : SbrkStops env s.heap.os e := by
  rcases Nat.eq_zero_or_pos n with rfl | hn
  · rw [MyaXOS.klmalloc, if_pos rfl] at he
    cases he
  · rcases h.klmalloc hsbrk hn (h.round hn hfits) hfits with ⟨c, h', -, hok, -⟩ | ⟨e', he', -, hs⟩
    · cases he.symm.trans hok
    · cases he.symm.trans he'
      exact SbrkStops.of_increment hs

/-- **Only `sbrk` stops a call**: in a heap that is in order every assertion of the allocator holds,
and every search ends. -/
theorem KernelCall.step_error (h : s.Inv env heapEnd Ready A)
    (hsbrk : SbrkFresh env.sbrk heapEnd Ready) {call : KernelCall}
    (hvalid : call.Valid env heapEnd s) (hkeeps : call.KeepsBin s)
    (he : call.step env heapEnd s = .error e) : SbrkStops env s.heap.os e := by
  cases call with
  | alloc call =>
    rcases AllocCall.step_inv h hsbrk hvalid with ⟨t, B, ht, -⟩ | ⟨increment, e', he', hinc, -, hs⟩
    · cases he.symm.trans ht
    · cases he.symm.trans he'
      exact ⟨increment, hinc, hs⟩
  | realloc ptr size =>
    have hrealloc : klrealloc env ptr size s.heap = .error e := by
      rw [KernelCall.step] at he
      rcases hresult : klrealloc env ptr size s.heap with e' | ⟨newptr, heap⟩
      · rw [hresult, error_bind] at he
        cases he
        rfl
      · rw [hresult, ok_bind] at he
        cases he
    obtain ⟨hptr, hmalloc⟩ := hvalid
    by_cases hnull : ptr = 0
    · rw [klrealloc, if_pos hnull] at hrealloc
      exact h.klmalloc_error hsbrk (hmalloc (Or.inl hnull)).2 hrealloc
    obtain ⟨n, hlive⟩ := hptr.resolve_left hnull
    rcases Nat.eq_zero_or_pos size with rfl | hsize
    · obtain ⟨heap', -, hfree, -⟩ := h.klfree hlive
      rw [klrealloc, if_neg hnull, if_pos rfl, hfree, ok_bind] at hrealloc
      cases hrealloc
    · rcases (h.klrealloc hsbrk hlive hsize hkeeps fun hmoves => (hmalloc hmoves).2).1.returns with
        ⟨newptr, heap, hok, -⟩ | ⟨e', he', hs⟩
      · cases hrealloc.symm.trans hok
      · cases hrealloc.symm.trans he'
        exact SbrkStops.of_increment hs
  | kopen filename =>
    obtain ⟨pathLen, hlen, hpos, hfits⟩ := hvalid
    rw [KernelCall.step, hlen, ok_bind] at he
    rcases hresult : klmalloc env pathLen s.heap with e' | ⟨path, heap⟩
    · rw [hresult, error_bind] at he
      cases he
      exact h.klmalloc_error hsbrk hfits hresult
    · rw [hresult, ok_bind] at he
      cases he

end

/-! ## The calls

One lemma for each kind of call.  A call of the heap writes to the heap, and to the pages it has
just taken, so screen and image stay; a call of the screen writes to the cells only, so the heap
stays in order and the image as it was. -/

namespace Shares

variable {env : AllocEnv σ ρ} {heapEnd : σ → Nat} {Ready : σ → Prop} {g : Initrd} {m m₀ : Mem}
  {length memHead : Nat} {root file : FsNode} {s : Session σ ρ} {t : Console}

/-- What leaves everything outside the heap as it was leaves the other two parts as they were. -/
theorem of_untouched (h : Shares env heapEnd Ready g m length s t) {run : AllocRun σ ρ}
    (hinv : ∃ A, run.Inv env heapEnd Ready A)
    (hsame : ∀ x b, s.run.Untouched env heapEnd x b → run.Untouched env heapEnd x b) :
    Shares env heapEnd Ready g m length { s with run := run } t where
  heap := hinv
  shows := h.shows.congr_mem fun a hle hlt => (hsame a _ ⟨h.screen a hle hlt, rfl⟩).2
  agree x hle hlt := (hsame x _ ⟨h.image x hle hlt, rfl⟩).2.trans (h.agree x hle hlt)
  screen x hle hlt := (hsame x _ ⟨h.screen x hle hlt, rfl⟩).1
  image x hle hlt := (hsame x _ ⟨h.image x hle hlt, rfl⟩).1
  apart := h.apart

/-- A call of the heap. -/
theorem heap_step (h : Shares env heapEnd Ready g m length s t)
    (hsbrk : SbrkFresh env.sbrk heapEnd Ready) {call : KernelCall}
    (hvalid : call.Valid env heapEnd s.run) (hfit : call.TerminatorFits s.run)
    (hkeeps : call.KeepsBin s.run) :
    (∃ s', SessionCall.step env heapEnd g (.heap call) s = .ok s' ∧
      Shares env heapEnd Ready g m length s' t) ∨
    ∃ e, SessionCall.step env heapEnd g (.heap call) s = .error e ∧
      SbrkStops env s.run.heap.os e := by
  obtain ⟨A, hA⟩ := h.heap
  rw [SessionCall.step]
  rcases hresult : call.step env heapEnd s.run with e | run
  · exact Or.inr ⟨e, rfl, KernelCall.step_error hA hsbrk hvalid hkeeps hresult⟩
  · refine Or.inl ⟨_, rfl, h.of_untouched ?_ fun x b hx => ?_⟩
    · exact KernelCall.step_inv hA hsbrk hvalid hfit hkeeps hresult
    · exact KernelCall.step_outside hA hsbrk hvalid hfit hkeeps hresult hx

/-- A call of the screen. -/
theorem screen_step (h : Shares env heapEnd Ready g m length s t) (call : VgaCall) :
    Shares env heapEnd Ready g m length
      { run := s.run.withMem (s.view.perform call).mem, vga := s.view.perform call }
      (t.perform call) := by
  obtain ⟨hshows, honly⟩ := h.shows.perform call
  obtain ⟨A, hA⟩ := h.heap
  have hapart := h.apart
  refine ⟨⟨A, hA.write_outside fun x hx => ?_⟩, hshows, fun x hle hlt => ?_, h.screen, h.image,
    h.apart⟩
  · refine honly x ?_
    by_contra hin
    exact hx (h.screen x (by omega) (by omega))
  · exact (honly x (by omega)).trans (h.agree x hle hlt)

/-! ### `cat`

Four things in a row: take a buffer, read the file into it, print the buffer, give it back.  In
between the buffer is a live block of the heap, and that is all that is needed to know that reading
into it disturbs nothing. -/

/-- The heap is behind the screen. -/
theorem screen_le (h : Shares env heapEnd Ready g m length s t) {ptr n : Nat}
    (hlive : (ptr, n) ∈ s.run.live) : textmemptr + 4000 ≤ ptr := by
  obtain ⟨A, hA⟩ := h.heap
  have hlast := hA.outside_lt hlive (h.screen (textmemptr + 3999) (by omega) (by omega))
  omega

/-- And behind the image. -/
theorem image_le (h : Shares env heapEnd Ready g m length s t) {ptr n : Nat}
    (hlive : (ptr, n) ∈ s.run.live) (hlength : 0 < length) : g.start + length ≤ ptr := by
  obtain ⟨A, hA⟩ := h.heap
  have hlast := hA.outside_lt hlive (h.image (g.start + length - 1) (by omega) (by omega))
  omega

/-- What has been read into a block of the heap is printed. -/
theorem print (h : Shares env heapEnd Ready g m length s t) {bufferb n k : Nat} {f : Nat → UInt8}
    {m₁ : Mem} (hlive : (bufferb, n) ∈ s.run.live) (hk : k ≤ n)
    (hwrote : Wrote s.run.heap.mem m₁ bufferb f k) :
    Shares env heapEnd Ready g m length
      { run := s.run.withMem (Session.printLoop bufferb k { s.vga with mem := m₁ }).mem
        vga := Session.printLoop bufferb k { s.vga with mem := m₁ } }
      (((List.range k).map f).foldl (fun t c => t.write c) t) := by
  obtain ⟨A, hA⟩ := h.heap
  have hscreen := h.screen_le hlive
  have hapart := h.apart
  have hend := (hA.live_le hlive).trans_lt hA.kept.accounted.heapEnd_lt
  have hread : Shows { s.vga with mem := m₁ } t :=
    h.shows.congr_mem fun a _ hlt => hwrote.outside (Or.inl (by omega))
  obtain ⟨hshows, honly⟩ := printLoop_shows hread hscreen (show bufferb + k ≤ 0x100000000 by omega)
  have hchars : (List.range k).map (fun i => m₁ (bufferb + i)) = (List.range k).map f :=
    List.map_congr_left fun i hi => hwrote.inside (List.mem_range.mp hi)
  simp only [hchars] at hshows
  refine ⟨⟨A, hA.write_spared fun x hx => ?_⟩, hshows, fun x hle hlt => ?_, h.screen, h.image,
    h.apart⟩
  · have hout : x < textmemptr ∨ textmemptr + 4000 ≤ x := by
      by_contra hin
      obtain ⟨hle, hlt⟩ : textmemptr ≤ x ∧ x < textmemptr + 4000 := by omega
      exact hx (hA.spared (h.screen x hle hlt))
    refine (honly x hout).trans (hwrote.outside ?_)
    by_contra hin
    exact hx (Or.inl (hA.data hlive (by omega) (by omega)))
  · have hbefore := hA.outside_lt hlive (h.image x hle hlt)
    refine ((honly x (by omega)).trans (hwrote.outside (Or.inl hbefore))).trans (h.agree x hle hlt)

/-- A block is given back. -/
theorem free (h : Shares env heapEnd Ready g m length s t) {ptr n : Nat}
    (hlive : (ptr, n) ∈ s.run.live) :
    ∃ heap, klfree env ptr s.run.heap = .ok heap ∧
      Shares env heapEnd Ready g m length
        { s with run := ⟨heap, s.run.live.filter fun b => b.1 ≠ ptr, s.run.headers⟩ } t := by
  obtain ⟨A, hA⟩ := h.heap
  obtain ⟨heap, B, hfree, -, hB, -⟩ := hA.klfree hlive
  exact ⟨heap, hfree, h.of_untouched ⟨B, hB⟩ fun x b hx => hA.klfree_outside hlive hfree hx⟩

/-- The file is read into a block of the heap. -/
theorem read (h : Shares env heapEnd Ready g m length s t)
    (hmount : Initrd.initrdMount m₀ memHead = .ok (g, m, root))
    (hserved : Served g m length root file) {bufferb : Nat}
    (hlive : (bufferb, file.length + 200) ∈ s.run.live) :
    (g.readFs s.run.heap.mem file 0 file.length bufferb).1 = file.length ∧
      ∃ f, Wrote s.run.heap.mem (g.readFs s.run.heap.mem file 0 file.length bufferb).2 bufferb f
          file.length ∧
        (List.range file.length).map f = fileData g m (g.ext2GetInode m file.inode) := by
  obtain ⟨A, hA⟩ := h.heap
  obtain ⟨⟨names, hfound⟩, himage, hsize⟩ := hserved
  have hlength : file.length = Initrd.size m (g.ext2GetInode m file.inode) :=
    sized_of_lookup hmount hfound
  have hend := (hA.live_le hlive).trans_lt hA.kept.accounted.heapEnd_lt
  have hbehind := h.image_le hlive (by have := himage.superblock_in; omega)
  have hsame := himage.size_congr h.agree
  have hr : Reads g s.run.heap.mem length (g.ext2GetInode m file.inode) 0 file.length bufferb := by
    refine ⟨himage.congr h.agree hsize, ?_, Nat.zero_le _, (hlength.trans hsame.symm).le, by omega,
      Or.inr hbehind⟩
    rw [hsame, himage.blockSize_congr h.agree]
    exact hsize
  have hread : (readInitrd g s.run.heap.mem file.inode 0 file.length bufferb).1 =
        file.length - 0 ∧
      Wrote s.run.heap.mem (readInitrd g s.run.heap.mem file.inode 0 file.length bufferb).2 bufferb
        (fileByte g s.run.heap.mem (g.ext2GetInode m file.inode) 0) (file.length - 0) :=
    readInitrd_wrote (himage.ext2GetInode_congr h.agree _) (Nat.zero_le _) (by omega)
      (by rw [hsame, ← hlength]; omega) hr
  refine ⟨hread.1, _, hread.2, ?_⟩
  rw [fileData_eq himage, ← hlength]
  refine List.map_congr_left fun i hi => himage.fileByte_congr h.agree hsize ?_
  rw [← hlength, Nat.zero_add]
  exact List.mem_range.mp hi

/-- **`cat` prints the file**, all of it, and gives its buffer back, if `malloc` lends it one. -/
theorem cat_of_malloc (h : Shares env heapEnd Ready g m length s t)
    (hsbrk : SbrkFresh env.sbrk heapEnd Ready)
    (hmount : Initrd.initrdMount m₀ memHead = .ok (g, m, root))
    (hserved : Served g m length root file)
    (hvalid : (AllocCall.malloc (file.length + 200)).Valid env heapEnd s.run) {bufferb : Nat}
    {heap : AllocHeap σ ρ}
    (hmalloc : klmalloc env (file.length + 200) s.run.heap = .ok (bufferb, heap)) :
    ∃ s', s.cat env heapEnd g file = .ok s' ∧
      Shares env heapEnd Ready g m length s' (t.session g m (.cat file)) := by
  obtain ⟨A, hA⟩ := h.heap
  obtain ⟨hround, hfits⟩ := hvalid
  have hu32 : u32 (file.length + 200) = file.length + 200 := u32_eq (by omega)
  obtain ⟨hne, -, hinv, -⟩ := hA.allotted hsbrk (show 0 < file.length + 200 by omega) hfits hmalloc
  have hlent := h.of_untouched hinv fun x b hx => hA.klmalloc_outside hsbrk hfits hmalloc hx
  have hlive : (bufferb, file.length + 200) ∈
      (s.run.allotted heapEnd (file.length + 200) bufferb heap).live :=
    AllocRun.mem_allotted hne heap
  obtain ⟨hcount, f, hwrote, hfile⟩ := hlent.read hmount hserved hlive
  replace hcount : (g.readFs heap.mem file 0 file.length bufferb).1 = file.length := hcount
  have hprinted := hlent.print hlive (Nat.le_add_right ..) hwrote
  obtain ⟨heap', hfree, hfreed⟩ := hprinted.free hlive
  rw [hfile] at hfreed
  refine ⟨_, ?_, hfreed⟩
  replace hfree : klfree env bufferb
      ((s.run.allotted heapEnd (file.length + 200) bufferb heap).withMem
        (Session.printLoop bufferb file.length
          { s.vga with mem := (g.readFs heap.mem file 0 file.length bufferb).2 }).mem).heap =
      .ok heap' := hfree
  rw [Session.cat]
  simp only [hu32]
  rw [hmalloc, ok_bind]
  simp only [hcount]
  rw [hfree]
  rfl

/-- With pages for `sbrk` to return a small block is taken, -/
theorem malloc_returns (h : Shares env heapEnd Ready g m length s t)
    (hsbrk : SbrkFresh env.sbrk heapEnd Ready) (hbelow : SbrkBelow env.sbrk heapEnd Ready)
    {n k : Nat} (hn : 0 < n) (hsmall : n ≤ 2048)
    (hvalid : (KernelCall.alloc (.malloc n)).Valid env heapEnd s.run)
    (hpages : SbrkPages env.sbrk (k + 1) s.run.heap.os) :
    ∃ s', SessionCall.step env heapEnd g (.heap (.alloc (.malloc n))) s = .ok s' ∧
      Shares env heapEnd Ready g m length s' t ∧ SbrkPages env.sbrk k s'.run.heap.os := by
  obtain ⟨A, hA⟩ := h.heap
  obtain ⟨ptr, run, hmalloc, hpages'⟩ := hA.malloc_pages hsbrk hbelow hn hsmall hpages
  obtain ⟨⟨ptr', heap⟩, hklmalloc, hrun⟩ := bind_eq_ok hmalloc
  cases hrun
  have hstep : SessionCall.step env heapEnd g (.heap (.alloc (.malloc n))) s =
      .ok ⟨s.run.allotted heapEnd n ptr heap, s.vga⟩ := by
    rw [SessionCall.step, KernelCall.step, AllocCall.step, hklmalloc]
    rfl
  rcases h.heap_step hsbrk hvalid trivial trivial with ⟨s', hs', hnext⟩ | ⟨e, he, -⟩
  · cases hs'.symm.trans hstep
    exact ⟨_, hstep, hnext, hpages'⟩
  · cases he.symm.trans hstep

/-- and a short file is printed. -/
theorem cat_returns (h : Shares env heapEnd Ready g m length s t)
    (hsbrk : SbrkFresh env.sbrk heapEnd Ready) (hbelow : SbrkBelow env.sbrk heapEnd Ready)
    (hmount : Initrd.initrdMount m₀ memHead = .ok (g, m, root))
    (hserved : Served g m length root file) (hsmall : file.length + 200 ≤ 2048)
    (hvalid : (AllocCall.malloc (file.length + 200)).Valid env heapEnd s.run) {k : Nat}
    (hpages : SbrkPages env.sbrk (k + 1) s.run.heap.os) :
    ∃ s', s.cat env heapEnd g file = .ok s' := by
  obtain ⟨A, hA⟩ := h.heap
  obtain ⟨_, _, hmalloc, -⟩ := hA.malloc_pages hsbrk hbelow (by omega) hsmall hpages
  obtain ⟨⟨bufferb, heap⟩, hklmalloc, -⟩ := bind_eq_ok hmalloc
  obtain ⟨s', hcat, -⟩ := h.cat_of_malloc hsbrk hmount hserved hvalid hklmalloc
  exact ⟨s', hcat⟩

/-- If `cat` does not return, then `sbrk` has stopped `malloc`. -/
theorem cat_step (h : Shares env heapEnd Ready g m length s t)
    (hsbrk : SbrkFresh env.sbrk heapEnd Ready)
    (hmount : Initrd.initrdMount m₀ memHead = .ok (g, m, root))
    (hserved : Served g m length root file)
    (hvalid : (AllocCall.malloc (file.length + 200)).Valid env heapEnd s.run) :
    (∃ s', s.cat env heapEnd g file = .ok s' ∧
      Shares env heapEnd Ready g m length s' (t.session g m (.cat file))) ∨
    ∃ e, s.cat env heapEnd g file = .error e ∧ SbrkStops env s.run.heap.os e := by
  rcases hmalloc : klmalloc env (file.length + 200) s.run.heap with e | ⟨bufferb, heap⟩
  · obtain ⟨A, hA⟩ := h.heap
    have hu32 : u32 (file.length + 200) = file.length + 200 := u32_eq (by have := hvalid.1; omega)
    refine Or.inr ⟨e, ?_, hA.klmalloc_error hsbrk hvalid.2 hmalloc⟩
    rw [Session.cat]
    simp only [hu32]
    rw [hmalloc, error_bind]
  · exact Or.inl (h.cat_of_malloc hsbrk hmount hserved hvalid hmalloc)

/-- **A call in a session** either returns, with the three parts in order and the screen showing
what the call means, or it has been stopped by `sbrk`. -/
theorem step (h : Shares env heapEnd Ready g m length s t)
    (hsbrk : SbrkFresh env.sbrk heapEnd Ready)
    (hmount : Initrd.initrdMount m₀ memHead = .ok (g, m, root)) {call : SessionCall}
    (hvalid : call.Valid env heapEnd g m length root s) :
    (∃ s', call.step env heapEnd g s = .ok s' ∧
      Shares env heapEnd Ready g m length s' (t.session g m call)) ∨
    ∃ e, call.step env heapEnd g s = .error e ∧ SbrkStops env s.run.heap.os e := by
  cases call with
  | heap call => exact h.heap_step hsbrk hvalid.1 hvalid.2.1 hvalid.2.2
  | screen call => exact Or.inl ⟨_, rfl, h.screen_step call⟩
  | cat file => exact h.cat_step hsbrk hmount hvalid.1 hvalid.2

end Shares

/-! ## Runs

The induction over the calls, with the invariant at both ends.  The example starts from the kernel
as `heap_install` leaves it, so that its calls of `sbrk` are those of the real paging code. -/

/-- **The three parts share one memory.**  Start with the image and the cells of the screen in front
of the heap and apart from each other.  After any valid calls, in any order, the screen shows what
the calls of the screen have written and every file that `cat` was called for, whole; the heap is in
order, and the image is as it was mounted.  Only `sbrk` can stop such a run. -/
theorem session_shows (env : AllocEnv σ ρ) (heapEnd : σ → Nat) (Ready : σ → Prop)
    (hsbrk : SbrkFresh env.sbrk heapEnd Ready) (s : Session σ ρ)
    (hreach : s.run.Reachable env heapEnd Ready) (hx : s.vga.csrX < 80) (hy : s.vga.csrY < 25)
    (g : Initrd) (m₀ : Mem) (memHead length : Nat) (root : FsNode)
    (hmount : Initrd.initrdMount m₀ memHead = .ok (g, s.run.heap.mem, root))
    (hscreen : ∀ x, textmemptr ≤ x → x < textmemptr + 4000 → s.run.Outside env heapEnd x)
    (himage : ∀ x, g.start ≤ x → x < g.start + length → s.run.Outside env heapEnd x)
    (hapart : g.start + length ≤ textmemptr ∨ textmemptr + 4000 ≤ g.start)
    (calls : List SessionCall)
    (hvalid : Runs.Along (SessionCall.step env heapEnd g)
      (SessionCall.Valid env heapEnd g s.run.heap.mem length root) calls s) :
    (∃ s', Runs.run (SessionCall.step env heapEnd g) calls s = .ok s' ∧
      Shows s'.view
        (calls.foldl (Console.session g s.run.heap.mem) (Console.ofScreen s.view)) ∧
      AllocSound env s'.run ∧ Agree g length s.run.heap.mem s'.run.heap.mem) ∨
    ∃ e, Runs.run (SessionCall.step env heapEnd g) calls s = .error e ∧
      ∃ os, Ready os ∧ SbrkStops env os e := by
  have hshares : Shares env heapEnd Ready g s.run.heap.mem length s (Console.ofScreen s.view) :=
    ⟨hreach.inv hsbrk, shows_ofScreen hx hy, fun _ _ _ => rfl, hscreen, himage, hapart⟩
  have hstep : ∀ call s' t, Shares env heapEnd Ready g s.run.heap.mem length s' t →
      SessionCall.Valid env heapEnd g s.run.heap.mem length root call s' →
      (∃ s'', SessionCall.step env heapEnd g call s' = .ok s'' ∧
        Shares env heapEnd Ready g s.run.heap.mem length s''
          (t.session g s.run.heap.mem call)) ∨
      ∃ e, SessionCall.step env heapEnd g call s' = .error e ∧
        ∃ os, Ready os ∧ SbrkStops env os e := by
    intro call s' t hs' hcall
    rcases hs'.step hsbrk hmount hcall with hok | ⟨e, he, hstops⟩
    · exact Or.inl hok
    · obtain ⟨A, hA⟩ := hs'.heap
      exact Or.inr ⟨e, he, _, hA.ready, hstops⟩
  rcases Runs.run_follows hstep hshares hvalid with ⟨s', hrun, hs'⟩ | herror
  · obtain ⟨A, hA⟩ := hs'.heap
    exact Or.inl ⟨s', hrun, hs'.shows, hA.sound, hs'.agree⟩
  · exact Or.inr herror

/-- The kernel right after `heap_install`, with `deviceImage` at address 0 and an empty screen. -/
def deviceSession (os : Paging) : Session Paging SkipRand :=
  ⟨(kernelStart os).withMem deviceImage, ⟨fun _ => 0, 0x0F, 0, 0, (0, 0)⟩⟩

theorem deviceNode_served : Served oneEntryInitrd deviceImage 0x2800 deviceRoot deviceNode where
  found := ⟨[[0x61]], device_lookup.1⟩
  image := by
    refine ⟨by decide, rfl, by decide, by decide, by decide, by decide, by decide, fun b hb => ?_⟩
    have hsize : Initrd.size deviceImage
        (oneEntryInitrd.ext2GetInode deviceImage deviceNode.inode) = 12 := by decide
    have hblock : oneEntryInitrd.blockSize deviceImage = 1024 := by decide
    rw [hsize, hblock] at hb
    obtain rfl : b = 0 := by omega
    decide
  size_le := by decide

/-- Take a block, print the device, and then an `X`. -/
def deviceCalls : List SessionCall :=
  [.heap (.alloc (.malloc 100)), .cat deviceNode, .screen (.writech 0x58)]

theorem deviceSession_shares : ∃ os, os.heapEnd = 0x204000 ∧
    (deviceSession os).run.Start kernelEnv Paging.heapEnd KernelReady ∧
    Shares kernelEnv Paging.heapEnd KernelReady oneEntryInitrd deviceImage 0x2800 (deviceSession os)
      (Console.ofScreen (deviceSession os).view) := by
  obtain ⟨os, hend, hstart⟩ := kernelStart_start
  have hzero : ∀ i ≤ 6, read deviceImage (.forward 0x110000 i) = 0 := by
    decide
  have hdevice : (deviceSession os).run.Start kernelEnv Paging.heapEnd KernelReady :=
    ⟨hstart.binHead, hstart.level, hstart.newestBig, hstart.head_word, hstart.head_below, hzero,
      hstart.heapEnd_lt, hstart.ready, hstart.live, hstart.headers⟩
  have houtside : ∀ x < 0x110000,
      (deviceSession os).run.Outside kernelEnv Paging.heapEnd x := by
    intro x hx
    refine ⟨Or.inl hx, ?_, fun p hp => absurd hp List.not_mem_nil⟩
    show x < os.heapEnd
    omega
  refine ⟨os, hend, hdevice, ⟨⟨_, hdevice.inv kernel_sbrk_fresh⟩, ?_, fun _ _ _ => rfl,
    fun x _ hlt => houtside x (by simp only [textmemptr] at hlt; omega),
    fun x _ hlt => houtside x (hlt.trans_le (by decide)), Or.inl (by decide)⟩⟩
  exact shows_ofScreen (show 0 < 80 by decide) (show 0 < 25 by decide)

/-- The calls return, and the screen shows the device and the `X`. -/
theorem session_shows_device : ∃ os s',
    Runs.run (SessionCall.step kernelEnv Paging.heapEnd oneEntryInitrd) deviceCalls
      (deviceSession os) = .ok s' ∧
    Shows s'.view (deviceCalls.foldl (Console.session oneEntryInitrd deviceImage)
      (Console.ofScreen (deviceSession os).view)) ∧
    AllocSound kernelEnv s'.run ∧ Agree oneEntryInitrd 0x2800 deviceImage s'.run.heap.mem := by
  obtain ⟨os, hend, hdevice, hshares⟩ := deviceSession_shares
  have hpages : SbrkPages kernelEnv.sbrk (0 + 1 + 1) (deviceSession os).run.heap.os :=
    hdevice.ready.pages (show os.heapEnd + 0x1000 * 2 ≤ 0x1000000 by rw [hend]; decide)
  have hvalid₁ : (KernelCall.alloc (.malloc 100)).Valid kernelEnv Paging.heapEnd
      (deviceSession os).run := hdevice.ready.valid_small (by decide) (by decide)
  obtain ⟨s₁, hstep₁, hshares₁, hpages₁⟩ := hshares.malloc_returns kernel_sbrk_fresh
    kernel_sbrk_below (by decide) (by decide) hvalid₁ hpages
  obtain ⟨A, hA⟩ := hshares₁.heap
  have hvalid₂ : (AllocCall.malloc (deviceNode.length + 200)).Valid kernelEnv Paging.heapEnd
      s₁.run := hA.ready.valid_small (by decide) (by decide)
  obtain ⟨s₂, hcat⟩ := hshares₁.cat_returns kernel_sbrk_fresh kernel_sbrk_below mount_device
    deviceNode_served (by decide) hvalid₂ hpages₁
  have hvalid : Runs.Along (SessionCall.step kernelEnv Paging.heapEnd oneEntryInitrd)
      (SessionCall.Valid kernelEnv Paging.heapEnd oneEntryInitrd deviceImage 0x2800 deviceRoot)
      deviceCalls (deviceSession os) := by
    refine ⟨⟨hvalid₁, trivial, trivial⟩, fun s hs => ?_⟩
    cases hs.symm.trans hstep₁
    exact ⟨⟨deviceNode_served, hvalid₂⟩, fun _ _ => ⟨trivial, fun _ _ => trivial⟩⟩
  rcases session_shows kernelEnv Paging.heapEnd KernelReady kernel_sbrk_fresh (deviceSession os)
    ⟨_, [], hdevice, trivial, rfl⟩ (show 0 < 80 by decide) (show 0 < 25 by decide) oneEntryInitrd
    deviceImage 0 0x2800 deviceRoot mount_device hshares.screen hshares.image hshares.apart
    deviceCalls hvalid with ⟨s', hrun, hshows⟩ | ⟨e, he, -⟩
  · exact ⟨os, s', hrun, hshows⟩
  · rw [deviceCalls, Runs.run, hstep₁] at he
    simp only at he
    rw [Runs.run, SessionCall.step, hcat] at he
    cases he

end MyaXOS
