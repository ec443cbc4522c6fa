import MyaXOS.Alloc.Ops
import MyaXOS.Lib.Run
import MyaXOS.Mem.Heap

/-!
# Runs of the allocator

A run is a sequence of calls of `malloc` and `free`, with writes to the blocks in use in between.
The state of a run has the heap, the blocks in use and the headers, which are the addresses at which
`sbrk` has returned memory.

* `SbrkFresh` is what the allocator relies on of `sbrk`; `Paging.sbrk_fresh` says that the `sbrk` of
  `mem.c` is like this.
* `AllocSound` is what the allocator promises, read off the memory as `klrealloc` and `klfree` read
  it.
* `AllocRun.Inv` is the invariant: the heap keeps an arena, in the sense of `Kept`, whose blocks in
  use and whose headers are those of the run.

**What the state of a run has that the kernel has not.**  The list of the blocks in use, with the
sizes that were asked for, and the list of headers are kept beside the heap, and no function of the
allocator reads them.  The first says what a program may free or write to; both are what a promise
can be stated about.  That they are right at the end of a call is part of what has to be proved.

**The promise says nothing about arenas.**  `AllocSound` speaks of addresses and of the words that
are in memory: blocks in use do not overlap each other, a header or a free block, each is as long as
its header says and as was asked for, and its contents are left alone.  Arenas are how it is proved.
The invariant keeps the promise (`Inv.sound`) since two blocks of a layout do not overlap.

**One step.**  `AllocCall.step_inv` is the step lemma: a valid call from a state with the invariant
either returns, in a state with the invariant, or `sbrk` has stopped it.  For `malloc` this needs a
case distinction that the code makes by looking at its lists — is there a page with a free block, is
there a big block that fits — and `callsSbrk_iff` turns it into a statement about the heap before
the call.  The four cases are then the four ways of `Alloc/Ops.lean`.  That a run keeps the
invariant is the induction in `Lib/Run.lean`, applied to this step.

**When the heap grows.**  A run that has called `sbrk` cannot give the memory back, so it matters
that it does not call it without need.  `Inv.full` and `Inv.freedBig_iff` say what the lists not
having a block means for the blocks themselves: all blocks of all pages of the bin are in use, or no
freed big block is long enough.
-/

set_option autoImplicit false

namespace MyaXOS

open Chain (Linked pred)

variable {σ ρ : Type}

/-- What the allocator relies on of `sbrk`: as long as the end of the heap does not wrap around, the
memory it returns is at the end of the heap, which moves up.  `Ready` is what `sbrk` itself needs.
-/
structure SbrkFresh (sbrk : Nat → σ → Except Stop (Nat × σ)) (heapEnd : σ → Nat)
    (Ready : σ → Prop) : Prop where
  aligned : ∀ s, Ready s → heapEnd s % 0x1000 = 0
  fresh : ∀ s increment a s', Ready s → increment % 0x1000 = 0 →
    heapEnd s + increment < 0x100000000 → sbrk increment s = .ok (a, s') →
    a = heapEnd s ∧ heapEnd s' = heapEnd s + increment ∧ Ready s'

/-- **The `sbrk` of `mem.c`**, in a kernel whose heap is mapped up to its end. -/
theorem Paging.sbrk_fresh (fuel : Nat) (hfuel : 0x100000 < fuel) :
    SbrkFresh (Paging.sbrk fuel) Paging.heapEnd
      fun s => Paging.Mapped (s.heapEnd / 0x1000) s ∧ s.heapEnd % 0x1000 = 0 where
  aligned _ h := h.2
  fresh s increment a s' h hinc hfits hs := by
    rcases Paging.sbrk_mapped h.1 h.2 hinc hfits hfuel with ⟨t, ht, hmapped, hend⟩ | ht
    · cases hs.symm.trans ht
      refine ⟨rfl, hend, by rwa [hend], ?_⟩
      rw [hend]
      have := h.2
      omega
    · cases hs.symm.trans ht

/-! ## Calls

A run is of `malloc`, `free` and writes of the program to its blocks.  The state has, besides the
heap, the blocks in use with the sizes that were asked for, and the headers that `malloc` has got
from `sbrk`; neither is kept by the allocator, and both are needed to say what is promised. -/

/-- Does `malloc(size)` call `sbrk`?  If it does, then an `sbrk` that stops stops it. -/
def CallsSbrk (env : AllocEnv σ ρ) (size : Nat) (h : AllocHeap σ ρ) : Prop :=
  ∀ e, klmalloc { env with sbrk := fun _ _ => .error e } size h = .error e

/-- How much `malloc(size)` asks `sbrk` for. -/
def sbrkIncrement (size : Nat) : Nat :=
  if klmallocBinSize size < 10 then 0x1000 else 0x1000 * ((size + 44) / 0x1000 + 1)

/-- What is asked for is what should be asked for, if that is not too much. -/
theorem askedIncrement_eq {n : Nat} (h : sbrkIncrement n < 0x100000000) :
    askedIncrement n = sbrkIncrement n := by
  rw [sbrkIncrement] at h ⊢
  rw [askedIncrement]
  split_ifs at h ⊢
  · rfl
  · rw [u32_eq (show n + 44 < 0x100000000 by omega), u32_eq h]

/-- What happens in a run. -/
inductive AllocCall where
  | malloc (size : Nat)
  | free (ptr : Nat)
  /-- The program writes a byte. -/
  | write (a : Nat) (b : UInt8)
  deriving DecidableEq, Repr

/-- The state of a run: the heap, and what `malloc` and `sbrk` have handed out so far.  The last two
are no variables of the kernel; they are there to say what may be freed, and what must not overlap.
-/
structure AllocRun (σ ρ : Type) where
  heap : AllocHeap σ ρ
  /-- The blocks in use: address and size asked for. -/
  live : List (Nat × Nat)
  /-- Where `sbrk` returned memory, latest first. -/
  headers : List Nat

/-- Perform a call. -/
def AllocCall.step (env : AllocEnv σ ρ) (heapEnd : σ → Nat) :
    AllocCall → AllocRun σ ρ → Except Stop (AllocRun σ ρ)
  | .malloc size, s =>
    match klmalloc env size s.heap with
    | .ok (ptr, heap) =>
      .ok ⟨heap, if ptr = 0 then s.live else (ptr, size) :: s.live,
        if heapEnd heap.os = heapEnd s.heap.os then s.headers else heapEnd s.heap.os :: s.headers⟩
    | .error e => .error e
  | .free ptr, s =>
    match klfree env ptr s.heap with
    | .ok heap => .ok ⟨heap, s.live.filter fun b => b.1 ≠ ptr, s.headers⟩
    | .error e => .error e
  | .write a b, s => .ok { s with heap := { s.heap with mem := s.heap.mem.store8 a b } }

/-- The calls a program may make: what it frees is in use, what it writes to too, and what it asks
for is small enough that neither the rounding to pages nor `sbrk` wraps around. -/
def AllocCall.Valid (env : AllocEnv σ ρ) (heapEnd : σ → Nat) : AllocCall → AllocRun σ ρ → Prop
  | .malloc size, s => 0x1000 * ((size + 44) / 0x1000 + 1) < 0x100000000 ∧
    (CallsSbrk env size s.heap → heapEnd s.heap.os + sbrkIncrement size < 0x100000000)
  | .free ptr, s => ptr = 0 ∨ ∃ n, (ptr, n) ∈ s.live
  | .write a _, s => ∃ ptr n, (ptr, n) ∈ s.live ∧ ptr ≤ a ∧ a < ptr + n

/-- The state in which `heap_install` leaves the allocator: its variables are 0, and the head of the
skip list is below the heap. -/
structure AllocRun.Start (env : AllocEnv σ ρ) (heapEnd : σ → Nat) (Ready : σ → Prop)
    (s : AllocRun σ ρ) : Prop where
  binHead : ∀ b, s.heap.binHead b = 0
  level : s.heap.level = 0
  newestBig : s.heap.newestBig = 0
  head_word : env.bigBins % 4 = 0
  head_below : env.bigBins + 44 ≤ heapEnd s.heap.os
  head_zero : ∀ i ≤ 6, read s.heap.mem (.forward env.bigBins i) = 0
  heapEnd_lt : heapEnd s.heap.os < 0x100000000
  ready : Ready s.heap.os
  live : s.live = []
  headers : s.headers = []

/-! ## What is promised

The promise is about addresses and the words in memory, as one would check it with a debugger: how
long a block is, is read from its header, and the free blocks are found by following the stacks.
The arena does not occur in it. -/

/-- How many bytes the block at `ptr` has, by its header. -/
def usable (m : Mem) (ptr : Nat) : Nat := capacity (read m (.size (ptr &&& 0xFFFFF000)))

/-- `n` bytes at `a` and `k` bytes at `b` do not overlap. -/
def Apart (a n b k : Nat) : Prop := a + n ≤ b ∨ b + k ≤ a

/-- The promise, for all blocks at once.  A block is as long as its header makes it, which is what
`realloc` goes by, and not only as long as was asked for; so it is the larger length that must not
overlap anything. -/
structure AllocSound (env : AllocEnv σ ρ) (s : AllocRun σ ρ) : Prop where
  /-- The blocks in use do not overlap. -/
  disjoint : s.live.Pairwise fun b c =>
    Apart b.1 (usable s.heap.mem b.1) c.1 (usable s.heap.mem c.1)
  /-- They are as long as was asked for. -/
  long_enough : ∀ b ∈ s.live, b.2 ≤ usable s.heap.mem b.1
  /-- They do not overlap a header. -/
  off_headers : ∀ b ∈ s.live, ∀ p ∈ s.headers,
    Apart b.1 (usable s.heap.mem b.1) p (headerLength (read s.heap.mem (.size p)))
  /-- They do not overlap `klmalloc_big_bins.head`. -/
  off_head : ∀ b ∈ s.live, Apart b.1 (usable s.heap.mem b.1) env.bigBins 44
  /-- The stack of each header ends, and they do not overlap a block on it. -/
  off_free : ∀ p ∈ s.headers, ∃ cs,
    Linked 0 (fun c => read s.heap.mem (.item c)) (read s.heap.mem (.head p)) cs ∧
    ∀ c ∈ cs, ∀ b ∈ s.live, Apart b.1 (usable s.heap.mem b.1) c (usable s.heap.mem c)

/-! ## The invariant of a run

There is an arena that the heap keeps, whose blocks in use and headers are those of the run.  The
promise is then a translation: `usable` is `capacity`, what a stack links is `free`, and the rest
are the lemmas on the geometry. -/

/-- A run keeps an arena, and the arena agrees with what the run knows: the same blocks are in use
and the same headers are there.  `Ready` is what `sbrk` needs of its own state in order to go on
keeping its promise. -/
structure AllocRun.Inv (env : AllocEnv σ ρ) (heapEnd : σ → Nat) (Ready : σ → Prop)
    (s : AllocRun σ ρ) (A : Arena) : Prop where
  kept : Kept A env.bigBins (heapEnd s.heap.os) s.heap
  live : A.live = s.live
  headers : A.headers = s.headers
  ready : Ready s.heap.os

section
variable {env : AllocEnv σ ρ} {heapEnd : σ → Nat} {Ready : σ → Prop} {s : AllocRun σ ρ} {A : Arena}
  {p c ptr n : Nat}

/-- A block in use is a block of the arena. -/
theorem AllocRun.Inv.cell (h : s.Inv env heapEnd Ready A) (hlive : (ptr, n) ∈ s.live) :
    ∃ p, A.Cell p ptr ∧ ptr ∉ A.free p ∧ n ≤ capacity (A.size p) := by
  rw [← h.live] at hlive
  obtain ⟨p, hp, hnot⟩ := (h.kept.accounted.inUse_iff ptr).mp ⟨n, hlive⟩
  exact ⟨p, hp, hnot, h.kept.accounted.fits ptr n hlive p hp⟩

/-- The length of a block can be read off its header. -/
theorem AllocRun.Inv.usable (h : s.Inv env heapEnd Ready A) (hc : A.Cell p c) :
    usable s.heap.mem c = capacity (A.size p) := by
  rw [MyaXOS.usable, Kept.header_eq h.kept.accounted.toLayout hc, h.kept.stored.size p hc.1]

/-- A block in use ends below the end of the heap. -/
theorem AllocRun.Inv.end_le (h : s.Inv env heapEnd Ready A) (hlive : (ptr, n) ∈ s.live) :
    ptr + MyaXOS.usable s.heap.mem ptr ≤ heapEnd s.heap.os := by
  obtain ⟨p, hp, -⟩ := h.cell hlive
  rw [h.usable hp]
  exact h.kept.accounted.cell_lt hp

/-- **The invariant keeps the promise.**  What the promise reads from memory is what the arena has,
and for the arena it is geometry. -/
theorem AllocRun.Inv.sound (h : s.Inv env heapEnd Ready A) : AllocSound env s where
  disjoint := by
    have hnodup := h.kept.accounted.live_nodup
    rw [h.live, List.Nodup, List.pairwise_map] at hnodup
    refine hnodup.imp_of_mem fun {b c} hb hc hne => ?_
    obtain ⟨p, hp, -⟩ := h.cell hb
    obtain ⟨q, hq, -⟩ := h.cell hc
    rw [h.usable hp, h.usable hq]
    exact h.kept.accounted.disjoint hp hq hne
  long_enough b hb := by
    obtain ⟨p, hp, -, hn⟩ := h.cell hb
    rwa [h.usable hp]
  off_headers b hb p hp := by
    obtain ⟨q, hq, -⟩ := h.cell hb
    rw [← h.headers] at hp
    rw [h.usable hq, h.kept.stored.size p hp]
    exact h.kept.accounted.header_disjoint hq hp
  off_head b hb := by
    obtain ⟨p, hp, -⟩ := h.cell hb
    have := h.kept.accounted.above p hp.1
    have := h.kept.accounted.cell_page hp
    exact Or.inr (by omega)
  off_free p hp := by
    rw [← h.headers] at hp
    refine ⟨A.free p, h.kept.stored.free p hp, fun c hc b hb => ?_⟩
    obtain ⟨q, hq, hnot, -⟩ := h.cell hb
    have hcell : A.Cell p c := ⟨hp, h.kept.accounted.free_cell p hp c hc⟩
    rw [h.usable hq, h.usable hcell]
    refine h.kept.accounted.disjoint hq hcell ?_
    rintro rfl
    rw [h.kept.accounted.cell_unique hq hcell] at hnot
    exact hnot hc

/-- What was asked for lies below the end of the heap. -/
theorem AllocRun.Inv.live_le (h : s.Inv env heapEnd Ready A) (hlive : (ptr, n) ∈ s.live) :
    ptr + n ≤ heapEnd s.heap.os :=
  (Nat.add_le_add_left (h.sound.long_enough _ hlive) ptr).trans (h.end_le hlive)

/-- The arena at the start. -/
theorem AllocRun.Start.inv (h : s.Start env heapEnd Ready)
    (hsbrk : SbrkFresh env.sbrk heapEnd Ready) :
    s.Inv env heapEnd Ready ⟨[], fun _ => 0, fun _ => [], fun _ => [], fun _ => [], []⟩ where
  kept := by
    refine ⟨⟨⟨h.head_word, h.head_below, by simp, by simp, by simp, by simp, by simp, by simp,
      by simp, hsbrk.aligned _ h.ready, h.heapEnd_lt⟩, ?_, by simp, by simp⟩, ⟨by simp, by simp⟩,
      ⟨by simp, by simp, fun b _ => h.binHead b, by simp, ?_, by simp,
        fun hne => absurd h.newestBig hne⟩⟩
    · simp [Arena.InUse, Arena.Cell]
    · refine ⟨fun i hi => h.head_zero i hi, fun i => List.Sublist.refl _, List.Pairwise.nil,
        List.not_mem_nil, fun i _ => rfl, ?_⟩
      rw [h.level]
      exact Nat.zero_le 6
  live := h.live.symm
  headers := h.headers.symm
  ready := h.ready

/-! ## `malloc`

There are four ways through `klmalloc`: small or big, and with or without a call of `sbrk`.  For
each there is a lemma that says what the call does, in terms of the arena.  `CallsSbrk` is defined
by running the code with an `sbrk` that fails; `callsSbrk_iff` says which of the four ways these
are, and the lemmas that end in `_error` are the ones it is proved from. -/

end

namespace Kept

variable {A : Arena} {bigBins heapEnd n : Nat} {h : AllocHeap σ ρ} {env : AllocEnv σ ρ}

/-- A page with a free block: `sbrk` is not called. -/
theorem klmalloc_listed (env : AllocEnv σ ρ) (hk : Kept A bigBins heapEnd h) (hn : 0 < n)
    (hsmall : klmallocBinSize n < 10) (hhead : h.binHead (klmallocBinSize n) ≠ 0) :
    ∃ c h' B, klmalloc env n h = .ok (c, h') ∧ c ≠ 0 ∧ h'.os = h.os ∧ Kept B bigBins heapEnd h' ∧
      Gives A B c n ∧ B.headers = A.headers ∧
      ∀ x, A.Spared bigBins heapEnd x → h'.mem x = h.mem x := by
  obtain ⟨ps, hlisted, -⟩ := (hk.stored.listed _ hsmall).exists_cons hhead
  obtain ⟨c, h', B, hpop, hrest⟩ := hk.popBin hsmall hlisted ((klmallocBinSize_spec hn).2.1 hsmall)
  refine ⟨c, h', B, ?_, hrest⟩
  rw [klmalloc, if_neg (by omega), if_pos hsmall, klmallocSmall, if_neg hhead, ok_bind]
  exact hpop

/-- No page with a free block: `sbrk` is called. -/
theorem klmalloc_unlisted_error (hn : 0 < n) (hsmall : klmallocBinSize n < 10)
    (hhead : h.binHead (klmallocBinSize n) = 0) {e : Stop} (he : env.sbrk 0x1000 h.os = .error e) :
    klmalloc env n h = .error e := by
  rw [klmalloc, if_neg (by omega), if_pos hsmall, klmallocSmall, if_pos hhead, MyaXOS.growBin, he,
    error_bind, error_bind]

theorem klmalloc_unlisted (hk : Kept A bigBins heapEnd h) (hn : 0 < n)
    (hsmall : klmallocBinSize n < 10) (hhead : h.binHead (klmallocBinSize n) = 0) {os : σ}
    (hfits : heapEnd + 0x1000 < 0x100000000) (hsbrk : env.sbrk 0x1000 h.os = .ok (heapEnd, os)) :
    ∃ c h' B, klmalloc env n h = .ok (c, h') ∧ c ≠ 0 ∧ h'.os = os ∧
      Kept B bigBins (heapEnd + 0x1000) h' ∧ Gives A B c n ∧ B.headers = heapEnd :: A.headers ∧
      ∀ x, A.Spared bigBins heapEnd x → h'.mem x = h.mem x := by
  have hempty : A.listed (klmallocBinSize n) = [] := (hk.stored.listed _ hsmall).eq_nil_iff.mp hhead
  obtain ⟨h₁, B, hgrow, hos, hk₁, hlisted, hheaders, hlive, hsize, hdata, hsame⟩ :=
    hk.growBin hsmall hempty hfits hsbrk
  obtain ⟨c, h', B', hpop, hc, hos', hk', hgives, hheaders', hsame'⟩ :=
    hk₁.popBin hsmall hlisted ((klmallocBinSize_spec hn).2.1 hsmall)
  refine ⟨c, h', B', ?_, hc, hos'.trans hos, hk', ⟨?_, fun p hp => ?_⟩, hheaders'.trans hheaders,
    fun x hx => (hsame' x (hdata x hx)).trans (hsame x hx)⟩
  · rw [klmalloc, if_neg (by omega), if_pos hsmall, klmallocSmall, if_pos hhead, hgrow, ok_bind]
    exact hpop
  · rw [hgives.live, hlive]
  · rw [hgives.size p (hheaders ▸ List.mem_cons_of_mem _ hp), hsize p hp]

/-- A free big block that is large enough: `sbrk` is not called. -/
theorem klmalloc_found (env : AllocEnv σ ρ) (hk : Kept A env.bigBins heapEnd h) (hn : 0 < n)
    (hbig : ¬ klmallocBinSize n < 10) {p : Nat} (hfit : bestFit A env.bigBins n h = p)
    (hp : p ≠ 0) :
    ∃ h' B, klmalloc env n h = .ok (p + 44, h') ∧ h'.os = h.os ∧ Kept B env.bigBins heapEnd h' ∧
      Gives A B (p + 44) n ∧ B.headers = A.headers ∧
      ∀ x, A.Spared env.bigBins heapEnd x → h'.mem x = h.mem x := by
  obtain ⟨h', B, hmalloc, hrest⟩ := hk.klmallocBig_found rfl hfit hp
  exact ⟨h', B, by rw [klmalloc, if_neg (by omega), if_neg hbig, hmalloc], hrest⟩

/-- No free big block that is large enough: `sbrk` is called. -/
theorem klmalloc_none_error (hk : Kept A bigBins heapEnd h) (henv : env.bigBins = bigBins)
    (hn : 0 < n) (hbig : ¬ klmallocBinSize n < 10) (hnone : bestFit A bigBins n h = 0) {e : Stop}
    (he : env.sbrk (u32 (0x1000 * (u32 (n + 44) / 0x1000 + 1))) h.os = .error e) :
    klmalloc env n h = .error e := by
  rw [klmalloc, if_neg (by omega), if_neg hbig, klmallocBig, henv,
    hk.stored.skip.findbest hk.accounted.toLayout, ok_bind,
    show read h.mem (.forward (pred bigBins A.size A.chain n 0) 0) = 0 from hnone,
    if_neg (not_not.mpr rfl), MyaXOS.growBig, he, error_bind]

theorem klmalloc_none (hk : Kept A env.bigBins heapEnd h) (hn : 0 < n)
    (hbig : ¬ klmallocBinSize n < 10) (hnone : bestFit A env.bigBins n h = 0) {os : σ}
    (hfits : heapEnd + 0x1000 * ((n + 44) / 0x1000 + 1) < 0x100000000)
    (hsbrk : env.sbrk (0x1000 * ((n + 44) / 0x1000 + 1)) h.os = .ok (heapEnd, os)) :
    ∃ c h' B, klmalloc env n h = .ok (c, h') ∧ c ≠ 0 ∧ h'.os = os ∧
      Kept B env.bigBins (heapEnd + 0x1000 * ((n + 44) / 0x1000 + 1)) h' ∧ Gives A B c n ∧
      B.headers = heapEnd :: A.headers ∧ ∀ x, A.Spared env.bigBins heapEnd x →
        h'.mem x = h.mem x := by
  obtain ⟨h', B, hmalloc, hrest⟩ := hk.klmallocBig_new rfl hnone rfl hfits hsbrk
  exact ⟨_, h', B, by rw [klmalloc, if_neg (by omega), if_neg hbig, hmalloc],
    Nat.succ_ne_zero _, hrest⟩

/-- **When `sbrk` is called**: for a small size if the list of its bin is empty, and for a big one
if the search finds nothing. -/
theorem callsSbrk_iff (hk : Kept A env.bigBins heapEnd h) (hn : 0 < n) :
    CallsSbrk env n h ↔ if klmallocBinSize n < 10 then h.binHead (klmallocBinSize n) = 0
      else bestFit A env.bigBins n h = 0 := by
  split
  · next hsmall =>
    refine ⟨fun hcalls => by_contra fun hhead => ?_, fun hhead e =>
      klmalloc_unlisted_error hn hsmall hhead rfl⟩
    obtain ⟨c, h', B, hmalloc, -⟩ := klmalloc_listed
      { env with sbrk := fun _ _ => .error .spin } hk hn hsmall hhead
    cases (hcalls .spin).symm.trans hmalloc
  · next hbig =>
    refine ⟨fun hcalls => by_contra fun hhead => ?_, fun hnone e => ?_⟩
    · obtain ⟨h', B, hmalloc, -⟩ := klmalloc_found
        { env with sbrk := fun _ _ => .error .spin } hk hn hbig rfl hhead
      cases (hcalls .spin).symm.trans hmalloc
    · refine hk.klmalloc_none_error ?_ hn hbig hnone ?_ <;> rfl

end Kept

section
variable {env : AllocEnv σ ρ} {heapEnd : σ → Nat} {Ready : σ → Prop} {s : AllocRun σ ρ} {A : Arena}
  {p c ptr n : Nat}

/-- What is left to say of a block given out when `sbrk` was not called. -/
theorem AllocRun.Inv.gives {h' : AllocHeap σ ρ} {B : Arena} (h : s.Inv env heapEnd Ready A)
    (hos : h'.os = s.heap.os) (hkept : Kept B env.bigBins (heapEnd s.heap.os) h')
    (hgives : Gives A B c n) (hheaders : B.headers = A.headers) :
    AllocRun.Inv env heapEnd Ready ⟨h', (c, n) :: s.live,
      if heapEnd h'.os = heapEnd s.heap.os then s.headers
      else heapEnd s.heap.os :: s.headers⟩ B where
  kept := by rwa [hos]
  live := by rw [hgives.live, h.live]
  headers := by rw [hos, if_pos rfl, hheaders, h.headers]
  ready := by
    rw [hos]
    exact h.ready

/-- And when it was. -/
theorem AllocRun.Inv.gives_new {h' : AllocHeap σ ρ} {B : Arena} {increment : Nat} {os : σ}
    (h : s.Inv env heapEnd Ready A) (hend : heapEnd os = heapEnd s.heap.os + increment)
    (hpos : 0 < increment) (hready : Ready os) (hos : h'.os = os)
    (hkept : Kept B env.bigBins (heapEnd s.heap.os + increment) h') (hgives : Gives A B c n)
    (hheaders : B.headers = heapEnd s.heap.os :: A.headers) :
    AllocRun.Inv env heapEnd Ready ⟨h', (c, n) :: s.live,
      if heapEnd h'.os = heapEnd s.heap.os then s.headers
      else heapEnd s.heap.os :: s.headers⟩ B where
  kept := by rwa [hos, hend]
  live := by rw [hgives.live, h.live]
  headers := by rw [hos, hend, if_neg (by omega), hheaders, h.headers]
  ready := by rwa [hos]

/-- **`malloc` gives out a block, or `sbrk` stops it.**  The block is not `NULL`, the invariant
holds with it among the blocks in use, and the bytes that are spared are as they were. -/
theorem AllocRun.Inv.klmalloc (h : s.Inv env heapEnd Ready A)
    (hsbrk : SbrkFresh env.sbrk heapEnd Ready) (hn : 0 < n)
    (hround : 0x1000 * ((n + 44) / 0x1000 + 1) < 0x100000000)
    (hfits : CallsSbrk env n s.heap → heapEnd s.heap.os + sbrkIncrement n < 0x100000000) :
    (∃ c h' B, MyaXOS.klmalloc env n s.heap = .ok (c, h') ∧ c ≠ 0 ∧ Gives A B c n ∧
      AllocRun.Inv env heapEnd Ready ⟨h', (c, n) :: s.live,
        if heapEnd h'.os = heapEnd s.heap.os then s.headers
        else heapEnd s.heap.os :: s.headers⟩ B ∧
      ∀ x, A.Spared env.bigBins (heapEnd s.heap.os) x → h'.mem x = s.heap.mem x) ∨
    ∃ e, MyaXOS.klmalloc env n s.heap = .error e ∧ CallsSbrk env n s.heap ∧
      env.sbrk (sbrkIncrement n) s.heap.os = .error e := by
  have hk := h.kept
  have hcalls := hk.callsSbrk_iff (n := n) hn
  by_cases hsmall : klmallocBinSize n < 10
  · rw [if_pos hsmall] at hcalls
    have hincrement : sbrkIncrement n = 0x1000 := if_pos hsmall
    by_cases hhead : s.heap.binHead (klmallocBinSize n) = 0
    · have hfits' := hfits (hcalls.mpr hhead)
      rw [hincrement] at hfits' ⊢
      rcases hresult : env.sbrk 0x1000 s.heap.os with e | ⟨a, os⟩
      · exact Or.inr ⟨e, Kept.klmalloc_unlisted_error hn hsmall hhead hresult, hcalls.mpr hhead,
          rfl⟩
      · obtain ⟨rfl, hend, hready⟩ := hsbrk.fresh _ _ a os h.ready (by decide) hfits' hresult
        obtain ⟨c, h', B, hmalloc, hc, hos, hk', hgives, hheaders, hdata⟩ :=
          hk.klmalloc_unlisted hn hsmall hhead hfits' hresult
        exact Or.inl ⟨c, h', B, hmalloc, hc, hgives,
          h.gives_new hend (by decide) hready hos hk' hgives hheaders, hdata⟩
    · obtain ⟨c, h', B, hmalloc, hc, hos, hk', hgives, hheaders, hdata⟩ :=
        Kept.klmalloc_listed env hk hn hsmall hhead
      exact Or.inl ⟨c, h', B, hmalloc, hc, hgives, h.gives hos hk' hgives hheaders, hdata⟩
  · rw [if_neg hsmall] at hcalls
    have hincrement : sbrkIncrement n = 0x1000 * ((n + 44) / 0x1000 + 1) := if_neg hsmall
    by_cases hnone : bestFit A env.bigBins n s.heap = 0
    · have hfits' := hfits (hcalls.mpr hnone)
      rw [hincrement] at hfits' ⊢
      rcases hresult : env.sbrk (0x1000 * ((n + 44) / 0x1000 + 1)) s.heap.os with e | ⟨a, os⟩
      · refine Or.inr ⟨e, hk.klmalloc_none_error rfl hn hsmall hnone ?_, hcalls.mpr hnone, rfl⟩
        rw [u32_eq (show n + 44 < 0x100000000 by omega), u32_eq hround]
        exact hresult
      · obtain ⟨rfl, hend, hready⟩ :=
          hsbrk.fresh _ _ a os h.ready (Nat.mul_mod_right ..) hfits' hresult
        obtain ⟨c, h', B, hmalloc, hc, hos, hk', hgives, hheaders, hdata⟩ :=
          hk.klmalloc_none hn hsmall hnone hfits' hresult
        exact Or.inl ⟨c, h', B, hmalloc, hc, hgives,
          h.gives_new hend (by omega) hready hos hk' hgives hheaders, hdata⟩
    · obtain ⟨h', B, hmalloc, hos, hk', hgives, hheaders, hdata⟩ :=
        Kept.klmalloc_found env hk hn hsmall rfl hnone
      exact Or.inl ⟨_, h', B, hmalloc, Nat.succ_ne_zero _, hgives,
        h.gives hos hk' hgives hheaders, hdata⟩

/-! ## `free` and writes

Neither calls `sbrk`, and neither can fail.  For a write all that is used is that the bytes are data
of the arena. -/

/-- **`free` takes a block in use back**, and always returns.  Its assertions hold, since the
pointer leads back to a header and the block is not on its stack. -/
theorem AllocRun.Inv.klfree (h : s.Inv env heapEnd Ready A) (hlive : (ptr, n) ∈ s.live) :
    ∃ h' B, MyaXOS.klfree env ptr s.heap = .ok h' ∧ B.size = A.size ∧
      AllocRun.Inv env heapEnd Ready ⟨h', s.live.filter fun b => b.1 ≠ ptr, s.headers⟩ B ∧
      ∀ x, B.Spared env.bigBins (heapEnd s.heap.os) x → h'.mem x = s.heap.mem x := by
  obtain ⟨p, hp, -⟩ := h.cell hlive
  have hused : A.InUse ptr := ⟨n, h.live ▸ hlive⟩
  have hresult : ∃ h' B, MyaXOS.klfree env ptr s.heap = .ok h' ∧ h'.os = s.heap.os ∧
      Kept B env.bigBins (heapEnd s.heap.os) h' ∧ B.live = A.live.filter (fun b => b.1 ≠ ptr) ∧
      B.headers = A.headers ∧ B.size = A.size ∧
      ∀ x, B.Spared env.bigBins (heapEnd s.heap.os) x → h'.mem x = s.heap.mem x := by
    by_cases hsmall : A.size p < 10
    · exact h.kept.klfree_small hp hused hsmall
    · exact h.kept.klfree_big rfl hp hused hsmall
  obtain ⟨h', B, hfree, hos, hk', hlive', hheaders, hsize, hdata⟩ := hresult
  refine ⟨h', B, hfree, hsize, ⟨?_, ?_, hheaders.trans h.headers, ?_⟩, hdata⟩
  · simpa only [hos] using hk'
  · rw [hlive', h.live]
  · simpa only [hos] using h.ready

/-- A byte of a block in use is data. -/
theorem AllocRun.Inv.data (h : s.Inv env heapEnd Ready A) (hlive : (ptr, n) ∈ s.live) {x : Nat}
    (hle : ptr ≤ x) (hlt : x < ptr + n) : A.Data x := by
  obtain ⟨p, hp, hnot, hn⟩ := h.cell hlive
  exact ⟨p, ptr, hp, hnot, hle, by omega⟩

/-- **What is not the allocator's may be changed**: the run goes on with the same arena, blocks and
headers. -/
theorem AllocRun.Inv.write_spared (h : s.Inv env heapEnd Ready A) {m : Mem}
    (hsame : ∀ x, ¬ A.Spared env.bigBins (heapEnd s.heap.os) x → m x = s.heap.mem x) :
    AllocRun.Inv env heapEnd Ready { s with heap := { s.heap with mem := m } } A :=
  ⟨⟨h.kept.accounted, h.kept.indexed, h.kept.stored.congr h.kept.accounted.toLayout hsame⟩, h.live,
    h.headers, h.ready⟩

/-- In particular data. -/
theorem AllocRun.Inv.write (h : s.Inv env heapEnd Ready A) {m : Mem}
    (hsame : ∀ x, ¬ A.Data x → m x = s.heap.mem x) :
    AllocRun.Inv env heapEnd Ready { s with heap := { s.heap with mem := m } } A :=
  h.write_spared fun x hx => hsame x fun hdata => hx (Or.inl hdata)

/-! ## Runs

`step_inv` is the step lemma, with a case for each call; the run lemma is `Runs.along_always` from
the library.  A call that does not return ends the run, and then it was `sbrk` that did not. -/

/-- **One step** keeps the invariant, or `sbrk` stops it. -/
theorem AllocCall.step_inv (h : s.Inv env heapEnd Ready A)
    (hsbrk : SbrkFresh env.sbrk heapEnd Ready) {call : AllocCall}
    (hvalid : call.Valid env heapEnd s) :
    (∃ s' B, call.step env heapEnd s = .ok s' ∧ s'.Inv env heapEnd Ready B) ∨
    ∃ increment e, call.step env heapEnd s = .error e ∧ increment % 0x1000 = 0 ∧
      heapEnd s.heap.os + increment < 0x100000000 ∧ env.sbrk increment s.heap.os = .error e := by
  cases call with
  | malloc size =>
    simp only [AllocCall.step]
    by_cases hsize : size = 0
    · left
      simp only [hsize, MyaXOS.klmalloc, if_true]
      exact ⟨_, A, rfl, h⟩
    · rcases h.klmalloc hsbrk (Nat.pos_of_ne_zero hsize) hvalid.1 hvalid.2 with
        ⟨c, h', B, hmalloc, hc, -, hinv, -⟩ | ⟨e, hmalloc, hcalls, he⟩
      · left
        rw [hmalloc]
        simp only [if_neg hc]
        exact ⟨_, B, rfl, hinv⟩
      · right
        rw [hmalloc]
        refine ⟨sbrkIncrement size, e, rfl, ?_, hvalid.2 hcalls, he⟩
        rw [sbrkIncrement]
        split_ifs
        · rfl
        · exact Nat.mul_mod_right ..
  | free ptr =>
    left
    simp only [AllocCall.step]
    rcases hvalid with rfl | ⟨n, hlive⟩
    · have hnone : ∀ b ∈ s.live, b.1 ≠ 0 := fun b hb hb0 => by
        obtain ⟨p, hp, -⟩ := h.cell hb
        have := h.kept.accounted.cell_page hp
        omega
      simp only [MyaXOS.klfree, if_true]
      refine ⟨_, A, rfl, h.kept, ?_, h.headers, h.ready⟩
      rw [h.live]
      exact (List.filter_eq_self.mpr fun b hb => by simpa using hnone b hb).symm
    · obtain ⟨h', B, hfree, -, hinv, -⟩ := h.klfree hlive
      rw [hfree]
      exact ⟨_, B, rfl, hinv⟩
  | write a b =>
    obtain ⟨ptr, n, hlive, hle, hlt⟩ := hvalid
    refine Or.inl ⟨_, A, rfl, h.write fun x hx => Mem.store8_of_ne b ?_⟩
    rintro rfl
    exact hx (h.data hlive hle hlt)

/-- **The invariant along a run** of valid calls, from the state in which `heap_install` leaves the
allocator. -/
theorem AllocRun.Start.always (hstart : s.Start env heapEnd Ready)
    (hsbrk : SbrkFresh env.sbrk heapEnd Ready) {calls : List AllocCall}
    (hvalid : Runs.Along (AllocCall.step env heapEnd) (AllocCall.Valid env heapEnd) calls s) :
    Runs.Always (AllocCall.step env heapEnd) (fun s => ∃ A, s.Inv env heapEnd Ready A) calls s := by
  refine Runs.along_always (fun call s s' hinv hcall hs => ?_) ⟨_, hstart.inv hsbrk⟩ hvalid
  obtain ⟨A, hA⟩ := hinv
  rcases AllocCall.step_inv hA hsbrk hcall with ⟨t, B, ht, hB⟩ | ⟨_, e, he, -⟩
  · cases hs.symm.trans ht
    exact ⟨B, hB⟩
  · cases hs.symm.trans he

end

/-! ## Reachable states -/

/-- A state at the end of a run of valid calls, from a heap in which nothing has been handed out. -/
def AllocRun.Reachable (env : AllocEnv σ ρ) (heapEnd : σ → Nat) (Ready : σ → Prop)
    (s : AllocRun σ ρ) : Prop :=
  ∃ s₀ calls, s₀.Start env heapEnd Ready ∧
    Runs.Along (AllocCall.step env heapEnd) (AllocCall.Valid env heapEnd) calls s₀ ∧
    Runs.run (AllocCall.step env heapEnd) calls s₀ = .ok s

theorem AllocRun.Reachable.inv {env : AllocEnv σ ρ} {heapEnd : σ → Nat} {Ready : σ → Prop}
    {s : AllocRun σ ρ} (h : s.Reachable env heapEnd Ready)
    (hsbrk : SbrkFresh env.sbrk heapEnd Ready) : ∃ A, s.Inv env heapEnd Ready A := by
  obtain ⟨s₀, calls, hstart, hvalid, hrun⟩ := h
  exact (hstart.always hsbrk hvalid).last hrun

/-! ## When the heap grows

What "nothing free fits" means is said without the arena: every block of a small bin's pages is in
use, and no header of a big block that is not in use has the size.  These two lemmas are how it is
read from `Indexed`. -/

/-- A big block that is not in use: it has been handed out before and has come back, since a new one
is handed out at once. -/
def FreedBig (s : AllocRun σ ρ) (p : Nat) : Prop :=
  p ∈ s.headers ∧ 11 < read s.heap.mem (.size p) ∧ ∀ n, (p + 44, n) ∉ s.live

section
variable {env : AllocEnv σ ρ} {heapEnd : σ → Nat} {Ready : σ → Prop} {s : AllocRun σ ρ} {A : Arena}
  {p n : Nat}

/-- The freed big blocks are those in the skip list. -/
theorem AllocRun.Inv.freedBig_iff (h : s.Inv env heapEnd Ready A) :
    FreedBig s p ↔ p ∈ A.chain 0 := by
  have hA := h.kept.accounted
  rw [h.kept.indexed.freed_iff, FreedBig, ← h.headers]
  refine and_congr_right fun hp => ?_
  have hcases := hA.size_cases p hp
  rw [h.kept.stored.size p hp]
  have hbig : 11 < A.size p ↔ ¬ A.size p < 10 := by omega
  rw [hbig]
  refine and_congr_right fun hbig => ?_
  have hcell : A.Cell p (p + 44) := ⟨hp, (mem_cells_big hbig).mpr rfl⟩
  have hused : A.InUse (p + 44) ↔ p + 44 ∉ A.free p := by
    rw [hA.inUse_iff]
    exact ⟨fun ⟨q, hq, hnot⟩ => hA.cell_unique hq hcell ▸ hnot, fun hnot => ⟨p, hcell, hnot⟩⟩
  rw [← not_exists, ← h.live, show (∃ n, (p + 44, n) ∈ A.live) ↔ A.InUse (p + 44) from Iff.rfl,
    hused, not_not]
  refine ⟨fun hmem => List.ne_nil_of_mem hmem, fun hne => ?_⟩
  rw [hA.free_big hp hbig hne]
  exact List.mem_singleton.mpr rfl

/-- A page that is not in a list has all its blocks in use. -/
theorem AllocRun.Inv.full (h : s.Inv env heapEnd Ready A) (hp : p ∈ s.headers)
    (hempty : A.listed (A.size p) = []) (hsmall : A.size p < 10) :
    ∀ c ∈ cells p (A.size p), ∃ n, (c, n) ∈ s.live := by
  intro c hc
  rw [← h.headers] at hp
  have hfree : A.free p = [] := by
    by_contra hne
    have := (h.kept.indexed.listed_iff _ hsmall p).mpr ⟨hp, rfl, hne⟩
    rw [hempty] at this
    cases this
  rw [← h.live]
  refine (h.kept.accounted.inUse_iff c).mpr ⟨p, ⟨hp, hc⟩, ?_⟩
  rw [hfree]
  exact List.not_mem_nil

end

end MyaXOS
