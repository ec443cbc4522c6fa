import MyaXOS.Alloc.Room

/-!
# Sizes that wrap around

Between the size that `malloc` or `calloc` is asked for and the end of the heap there are a product,
the length of a header, the rounding to pages and a sum, all modulo `2 ^ 32` and none of them
checked.  Each of them wraps around at another size, and what comes out still looks like a block.

This file says for which sizes the two calls do what they promise, in the kernel that there is:
`sbrk` is that of `mem.c`, and the bitmap, the directory and the tables are in one memory.

## What is promised

`MallocRight` and `CallocRight` are what the two calls promise for any size: `NULL`, a halt, or a
block that is mapped and long enough, cleared by `calloc`.  For `malloc` the halt is one of `sbrk`.
For `calloc` it may also be that `memset` comes to a page that is not present, which ends in
`page_fault`; `malloc` has by then written a header, and the promise does not allow it to halt
there.

## When it is kept

`Lends` says that there is a block of `n` bytes, or that the heap can grow by one without its end
reaching `2 ^ 32`.  Then `malloc(n)` is right, and otherwise it is wrong, unless `n` is 0.  `calloc`
is right if its product does not wrap around.  If it does, then it is wrong just when there is a
block for what is left of the product; without one, `memset` comes to the end of the heap.

## Why it works

`klmalloc_returns` says what `malloc` does for any size, and both results are read off it.  If the
heap does not grow, or the new end is below `2 ^ 32`, then the invariant of the allocator gives the
block.  If the new end is not, then what `sbrk` is asked for is either that much, and `sbrk` maps
nothing, or it has wrapped around itself, and is less than `n` (`askedIncrement_le`).  In both cases
the block of `n` bytes ends behind the last page that is mapped, which `MappedUpTo` knows.

The invariant is that of the kernel whose `sbrk` stops if there is no room (`MyaXOS.Alloc.Room`),
and `klmalloc_eq` and `CallocCall.step_eq` go over to the kernel that there is.
-/

set_option autoImplicit false

namespace MyaXOS

variable {σ ρ : Type}

/-- The halt of `page_fault`. -/
def pageFault : Stop := .halt "Page fault"

/-- `klcalloc(nmemb, size)`.  If `memset` comes to a page that is not present, then `page_fault` is
where it ends. -/
def klcalloc (env : AllocEnv Machine ρ) (nmemb size : Nat) (h : AllocHeap Machine ρ) :
    Except Stop (Nat × AllocHeap Machine ρ) := do
  let (ptr, h) ← klmalloc env (u32 (nmemb * size)) h
  if ptr ≠ 0 then
    if ∀ i < u32 (nmemb * size), h.os.present (u32 (ptr + i)) then
      .ok (ptr, { h with mem := memset h.mem ptr 0 (u32 (nmemb * size)) })
    else .error pageFault
  else .ok (ptr, h)

/-! ## What is promised

A block that is returned has the bytes that were asked for, and each of them is in a page that is
present.  Both promises allow the call to stop; `malloc` may only stop in `sbrk`, while for `calloc`
a halt of any kind is allowed. -/

/-- The block at `ptr` has `n` bytes at least, and it is mapped.  The second part is what a client
can feel: a block whose pages are not present is of no use, whatever its header says about its size.
-/
structure AllocHeap.Block (h : AllocHeap Machine ρ) (ptr n : Nat) : Prop where
  long_enough : n ≤ usable h.mem ptr
  mapped : ∀ a, ptr ≤ a → a < ptr + usable h.mem ptr → h.os.present a = true

/-- `sbrk` stops, asked for some pages. -/
def SbrkStops (env : AllocEnv σ ρ) (os : σ) (e : Stop) : Prop :=
  ∃ increment, increment % 0x1000 = 0 ∧ env.sbrk increment os = .error e

/-- There is a block of `n` bytes, or the heap can grow by one. -/
def Lends (s : AllocRun Machine ρ) (n : Nat) : Prop :=
  Grows s n → s.heap.os.heapEnd + sbrkIncrement n < 0x100000000

/-- The sizes of `calloc(nmemb, size)` fit: the product does, or nothing is left of it, or there is
no block for what is left. -/
def CallocFits (s : AllocRun Machine ρ) (nmemb size : Nat) : Prop :=
  nmemb * size < 0x100000000 ∨ u32 (nmemb * size) = 0 ∨ ¬ Lends s (u32 (nmemb * size))

/-! ## A heap that grows

The lemmas of `Alloc/Run.lean` follow `malloc` when `sbrk` returns the end of the heap.  Here it may
return anything, since after a carry what it returns is not memory of the heap.  So these lemmas
follow the code alone: a page is filled wherever it is, and its first block is what `malloc`
returns.  For a new page this is a fact about the last write to the head of the stack, and the arena
has no part in it. -/

section
variable {env : AllocEnv σ ρ} {h h' : AllocHeap σ ρ} {os : σ} {bucket header n : Nat}

/-- The block that is popped is the head of the stack. -/
theorem popBin_ok (bucket : Nat) (hheader : header ≠ 0)
    (hhead : read h.mem (.head header) ≠ 0) :
    ∃ h', popBin bucket header h = .ok (read h.mem (.head header), h') ∧ h'.os = h.os := by
  rw [popBin, klmallocStackPop, assert_bind hheader, assert_bind hhead]
  simp only [ok_bind]
  split_ifs
  · exact ⟨_, rfl, rfl⟩
  · exact ⟨_, rfl, rfl⟩

/-- The loop over the blocks of a new page leaves its header alone. -/
theorem read_stackFill_head (m : Mem) (p b n : Nat) :
    read (stackFill (p + 12) b n m) (.head p) = read m (.head p) := by
  induction n with
  | zero => rfl
  | succ n ih =>
    rw [stackFill, read_write_of_ne _ _ (by simp only [Place.addr]; omega), ih]

theorem read_pageMem_head (m : Mem) (p b next : Nat) :
    read (pageMem p b next m) (.head p) = u32 (p + 12) := by
  rw [pageMem, read_write_of_ne _ _ (by simp only [Place.addr]; omega),
    read_write_of_ne _ _ (by simp only [Place.addr]; omega), read_stackFill_head,
    read_write_of_ne _ _ (by simp only [Place.addr]; omega), read_write_self _ _ (u32_lt _)]

/-- A small block from a new page, wherever the page is. -/
theorem klmallocSmall_new (hnone : h.binHead bucket = 0) (hpage : header % 0x1000 = 0)
    (hpos : 0 < header) (hlt : header < 0x100000000)
    (hsbrk : env.sbrk 0x1000 h.os = .ok (header, os)) :
    ∃ h', klmallocSmall env bucket h = .ok (header + 12, h') ∧ h'.os = os := by
  have hhead : u32 (header + 12) = header + 12 := u32_eq (by omega)
  obtain ⟨h₁, hh₁⟩ : ∃ h₁, h₁ = { h with
    mem := pageMem header bucket (h.binHead bucket) h.mem
    binHead := Function.update h.binHead bucket header
    os := os } := ⟨_, rfl⟩
  have hread : read h₁.mem (.head header) = header + 12 := by
    rw [hh₁, read_pageMem_head, hhead]
  obtain ⟨h', hpop, hos⟩ := popBin_ok (h := h₁) bucket hpos.ne'
    (by rw [hread]; exact Nat.succ_ne_zero _)
  rw [hread] at hpop
  refine ⟨h', ?_, by rw [hos, hh₁]⟩
  rw [klmallocSmall, if_pos hnone, growBin_eq hpage (by omega) hsbrk, ok_bind, ← hh₁]
  exact hpop

/-- A big block that is new, wherever it is. -/
theorem growBig_new (hpage : header % 0x1000 = 0) (hlt : header < 0x100000000)
    (hsbrk : env.sbrk (u32 (0x1000 * (u32 (n + 44) / 0x1000 + 1))) h.os = .ok (header, os)) :
    ∃ h', growBig env n h = .ok (header + 44, h') ∧ h'.os = os := by
  have hhead : u32 (header + 44) = header + 44 := u32_eq (by omega)
  obtain ⟨k, hk⟩ : ∃ k, k = u32 (n + 44) / 0x1000 := ⟨_, rfl⟩
  have hwhole : ∀ m, u32 (read (write m (.size header) (u32 (0x1000 * (k + 1) - 44)))
      (.size header) + 44) % 0x1000 = 0 := by
    intro m
    rw [read_write_self _ _ (u32_lt _)]
    simp only [u32]
    omega
  rw [← hk] at hsbrk
  rw [growBig, ← hk, hsbrk, ok_bind]
  simp only [assert_bind hpage, assert_bind (hwhole _), hhead]
  exact ⟨_, rfl, rfl⟩

end

/-! ## What `malloc` does

The case split is whether a block is there, and if not, whether the increment carries over the end
of the address space.  In the first two cases the invariant gives a block; in the third the block
ends behind the last page, which is not present (`not_block`), so the promise is broken by what is
returned. -/

section
variable {L : Layout} {low bigBins fuel n : Nat} {m₀ : Mem} {skipRand : ρ → Nat × ρ}
  {s : AllocRun Machine ρ} {A : Arena}

namespace AllocRun.Inv

/-- A heap that has to grow: `malloc` goes on with what `sbrk` returns, wherever that is. -/
theorem klmalloc_grows {env : AllocEnv σ ρ} {heapEnd : σ → Nat} {Ready : σ → Prop}
    {s : AllocRun σ ρ} (h : s.Inv env heapEnd Ready A) (hn : 0 < n) (hgrows : Grows s n) {os : σ}
    (hsbrk : env.sbrk (askedIncrement n) s.heap.os = .ok (heapEnd s.heap.os, os)) :
    ∃ c h', MyaXOS.klmalloc env n s.heap = .ok (c, h') ∧ heapEnd s.heap.os < c ∧
      c < 0x100000000 ∧ h'.os = os := by
  have hend : heapEnd s.heap.os < 0x100000000 := h.kept.accounted.heapEnd_lt
  have hpage : heapEnd s.heap.os % 0x1000 = 0 := h.kept.accounted.heapEnd_page
  have hpos : env.bigBins + 44 ≤ heapEnd s.heap.os := h.kept.accounted.head_below
  rw [h.grows_iff hn, h.kept.callsSbrk_iff hn] at hgrows
  rw [askedIncrement] at hsbrk
  by_cases hsmall : klmallocBinSize n < 10
  · rw [if_pos hsmall] at hgrows hsbrk
    obtain ⟨h', hnew, hos'⟩ := klmallocSmall_new hgrows hpage (by omega) hend hsbrk
    exact ⟨heapEnd s.heap.os + 12, h', by rw [MyaXOS.klmalloc, if_neg hn.ne', if_pos hsmall, hnew],
      by omega, by omega, hos'⟩
  · rw [if_neg hsmall] at hgrows hsbrk
    obtain ⟨h', hnew, hos'⟩ := growBig_new hpage hend hsbrk
    refine ⟨heapEnd s.heap.os + 44, h', ?_, by omega, by omega, hos'⟩
    rw [bestFit] at hgrows
    rw [MyaXOS.klmalloc, if_neg hn.ne', if_neg hsmall, klmallocBig,
      h.kept.stored.skip.findbest h.kept.accounted.toLayout, ok_bind, if_neg (not_not.mpr hgrows),
      hnew]

/-- With room for what `sbrk` is asked for, the two kernels give out the same block. -/
theorem klmalloc_eq (h : s.Inv (roomEnv bigBins fuel skipRand) Machine.heapEnd
    (HeapReady L low m₀) A) (hroom : 0 < n → Grows s n → s.heap.os.RoomFor (askedIncrement n)) :
    MyaXOS.klmalloc (machineEnv bigBins fuel skipRand) n s.heap =
      MyaXOS.klmalloc (roomEnv bigBins fuel skipRand) n s.heap := by
  refine (klmalloc_congr (machineEnv bigBins fuel skipRand) (roomSbrk fuel) n s.heap
    fun hcalls => ?_).symm
  have hn : 0 < n := by
    by_contra hzero
    obtain rfl : n = 0 := by omega
    cases hcalls .spin
  exact if_pos (hroom hn ((h.grows_iff hn).mpr hcalls))

/-- **What `malloc` does**, for every size.  If there is a block, or if the heap can grow by one,
then it returns one.  If not, then a sum has wrapped around, and what it returns ends behind the
last page of the heap. -/
theorem klmalloc_returns (h : s.Inv (roomEnv bigBins fuel skipRand) Machine.heapEnd
    (HeapReady L low m₀) A) (hfuel : 0x100000 < fuel) (hn : 0 < n) (hlt : n < 0x100000000)
    (hroom : Grows s n → s.heap.os.RoomFor (askedIncrement n)) :
    (Lends s n ∧ ∃ c h' B,
      MyaXOS.klmalloc (machineEnv bigBins fuel skipRand) n s.heap = .ok (c, h') ∧ c ≠ 0 ∧
      (s.allotted Machine.heapEnd n c h').Inv (roomEnv bigBins fuel skipRand) Machine.heapEnd
        (HeapReady L low m₀) B) ∨
    ¬ Lends s n ∧ ∃ c h' p,
      MyaXOS.klmalloc (machineEnv bigBins fuel skipRand) n s.heap = .ok (c, h') ∧ c ≠ 0 ∧
      c < 0x100000000 ∧ MappedUpTo L low m₀ p h'.os ∧ p * 0x1000 < 0x100000000 ∧
      p * 0x1000 < c + n := by
  have hfresh : SbrkFresh (roomEnv bigBins fuel skipRand).sbrk Machine.heapEnd
      (HeapReady L low m₀) := roomEnv_sbrk_fresh bigBins skipRand hfuel
  rw [h.klmalloc_eq fun _ => hroom]
  by_cases hgrows : Grows s n
  · obtain ⟨hasked, hasked_lt⟩ := askedIncrement_page n
    have hend : s.heap.os.heapEnd < 0x100000000 := h.kept.accounted.heapEnd_lt
    obtain ⟨os, p, hos, hmapped, hnocarry, hcarry⟩ :=
      h.ready.sbrk hfuel hasked hasked_lt (hroom hgrows)
    obtain ⟨c, h', hmalloc, hc, hc_lt, hos'⟩ :=
      h.klmalloc_grows hn hgrows ((if_pos (hroom hgrows)).trans hos)
    rw [Lends, forall_prop_of_true hgrows]
    by_cases hnowrap : s.heap.os.heapEnd + sbrkIncrement n < 0x100000000
    · obtain ⟨hne, -, ⟨B, hinv⟩, -⟩ := h.allotted hfresh hn (fun _ => hnowrap) hmalloc
      exact Or.inl ⟨hnowrap, c, h', B, hmalloc, hne, hinv⟩
    · refine Or.inr ⟨hnowrap, c, h', p, hmalloc, by omega, hc_lt, hos' ▸ hmapped, ?_⟩
      by_cases hfit : s.heap.os.heapEnd + askedIncrement n < 0x100000000
      · -- the rounding has wrapped around: what is mapped is too little
        obtain ⟨hend', rfl⟩ := hnocarry hfit
        have hround : 0x100000000 ≤ sbrkIncrement n := by
          by_contra hround
          exact hnowrap (askedIncrement_eq (Nat.lt_of_not_le hround) ▸ hfit)
        have := askedIncrement_le hlt hround
        omega
      · -- the end of the heap has wrapped around: nothing is mapped
        have := hcarry (Nat.le_of_not_lt hfit)
        omega
  · have hnone : CallsSbrk (roomEnv bigBins fuel skipRand) n s.heap →
        s.heap.os.heapEnd + sbrkIncrement n < 0x100000000 := fun hcalls =>
      absurd ((h.grows_iff hn).mpr hcalls) hgrows
    rcases h.klmalloc hfresh hn (h.round hn hnone) hnone with
      ⟨c, h', B, hmalloc, hc, -⟩ | ⟨e, -, hcalls, -⟩
    · obtain ⟨-, -, ⟨B, hinv⟩, -⟩ := h.allotted hfresh hn hnone hmalloc
      exact Or.inl ⟨fun hgrows' => absurd hgrows' hgrows, c, h', B, hmalloc, hc, hinv⟩
    · exact absurd ((h.grows_iff hn).mpr hcalls) hgrows

/-- A block in use is mapped, and long enough. -/
theorem block (h : s.Inv (roomEnv bigBins fuel skipRand) Machine.heapEnd (HeapReady L low m₀) A)
    {c : Nat} (hlive : (c, n) ∈ s.live) : s.heap.Block c n := by
  have hend : c + MyaXOS.usable s.heap.mem c ≤ s.heap.os.heapEnd := h.end_le hlive
  obtain ⟨haligned, hlt⟩ := h.ready.aligned
  exact ⟨h.sound.long_enough _ hlive, fun a _ ha => h.ready.present (by omega) (by omega)⟩

end AllocRun.Inv

section
variable {env : AllocEnv Machine ρ} {h h' : AllocHeap Machine ρ} {nmemb size c : Nat}

theorem klcalloc_ok (hmalloc : klmalloc env (u32 (nmemb * size)) h = .ok (c, h')) (hc : c ≠ 0)
    (hpresent : ∀ i < u32 (nmemb * size), h'.os.present (u32 (c + i)) = true) :
    klcalloc env nmemb size h =
      .ok (c, { h' with mem := memset h'.mem c 0 (u32 (nmemb * size)) }) := by
  rw [klcalloc, hmalloc, ok_bind]
  exact (if_pos hc).trans (if_pos hpresent)

theorem klcalloc_zero (hzero : u32 (nmemb * size) = 0) :
    klcalloc env nmemb size h = .ok (0, h) := by
  rw [klcalloc, hzero, klmalloc, if_pos rfl, ok_bind]
  exact if_neg (not_not.mpr rfl)

/-- `memset` does not come to the end of a block that ends behind the last page. -/
theorem klcalloc_fault {p : Nat} (hmalloc : klmalloc env (u32 (nmemb * size)) h = .ok (c, h'))
    (hc : c ≠ 0) (hc_lt : c < 0x100000000) (hmapped : MappedUpTo L low m₀ p h'.os)
    (hp_lt : p * 0x1000 < 0x100000000) (hp : p * 0x1000 < c + u32 (nmemb * size))
    (hpos : 0 < u32 (nmemb * size)) : klcalloc env nmemb size h = .error pageFault := by
  rw [klcalloc, hmalloc, ok_bind]
  refine (if_pos hc).trans (if_neg fun hpresent => ?_)
  have hlast := hmapped.not_present
    (show p * 0x1000 ≤ u32 (c + (p * 0x1000 - c)) by rw [u32_eq (by omega)]; omega) (u32_lt _)
  rw [hpresent _ (by omega)] at hlast
  cases hlast

end

namespace AllocRun.Inv

/-- A block in use can be cleared, and all else is as it was. -/
theorem cleared (h : s.Inv (roomEnv bigBins fuel skipRand) Machine.heapEnd (HeapReady L low m₀) A)
    {c : Nat} (hlive : (c, n) ∈ s.live) :
    (s.withMem (memset s.heap.mem c 0 n)).Inv (roomEnv bigBins fuel skipRand) Machine.heapEnd
      (HeapReady L low m₀) A ∧
    (∀ i < n, s.heap.os.present (u32 (c + i)) = true) ∧
    ∀ i < n, memset s.heap.mem c 0 n (c + i) = 0 := by
  have hend : c + n < 0x100000000 :=
    (h.live_le hlive).trans_lt h.kept.accounted.heapEnd_lt
  have hlong : n ≤ MyaXOS.usable s.heap.mem c := h.sound.long_enough _ hlive
  refine ⟨(h.spares hlive fun x hx => memset_of_outside (by omega) (by omega)).2, fun i hi => ?_,
    fun i hi => memset_apply (by omega) (Nat.le_add_right c i) (by omega)⟩
  rw [u32_eq (by omega)]
  exact (h.block hlive).mapped _ (Nat.le_add_right c i) (by omega)

end AllocRun.Inv

/-! ## Runs

The run is of the kernel that there is; the invariant is about the kernel whose `sbrk` stops when
there is no room.  Along a run in which there is room the two take the same steps, and so a state of
the first is a state of the second. -/

/-- A call that uses the heap. -/
inductive CallocCall where
  | kernel (call : KernelCall)
  | calloc (nmemb size : Nat)
  deriving DecidableEq, Repr

namespace CallocCall

variable {env : AllocEnv Machine ρ} {call : CallocCall} {s' : AllocRun Machine ρ}

/-- Perform a call. -/
def step (env : AllocEnv Machine ρ) :
    CallocCall → AllocRun Machine ρ → Except Stop (AllocRun Machine ρ)
  | .kernel call, s => call.step env Machine.heapEnd s
  | .calloc nmemb size, s => do
    let (ptr, heap) ← klcalloc env nmemb size s.heap
    .ok (s.allotted Machine.heapEnd (u32 (nmemb * size)) ptr heap)

/-- The sizes that a call asks `malloc` for; that of `calloc` is the product, as 32 bits have it. -/
def Asks : CallocCall → AllocRun Machine ρ → Nat → Prop
  | .kernel call, s, n => call.Asks s n
  | .calloc nmemb size, _, n => n = u32 (nmemb * size)

/-- There is room for what the call asks `sbrk` for, if it does. -/
def Apart (call : CallocCall) (s : AllocRun Machine ρ) : Prop :=
  ∀ n, call.Asks s n → 0 < n → Grows s n → s.heap.os.RoomFor (askedIncrement n)

/-- What is asked of the calls.  `malloc` and `calloc` take any numbers of 32 bits.  The others are
valid, and `kopen` and `realloc` stay in their blocks. -/
def Legal (env : AllocEnv Machine ρ) : CallocCall → AllocRun Machine ρ → Prop
  | .kernel (.alloc (.malloc size)), _ => size < 0x100000000
  | .kernel call, s => (call.Valid env Machine.heapEnd s ∧ call.TerminatorFits s) ∧ call.KeepsBin s
  | .calloc nmemb size, _ => nmemb < 0x100000000 ∧ size < 0x100000000

/-- The sizes fit. -/
def Fits : CallocCall → AllocRun Machine ρ → Prop
  | .kernel (.alloc (.malloc size)), s => 0 < size → Lends s size
  | .kernel _, _ => True
  | .calloc nmemb size, s => CallocFits s nmemb size

/-- With room for what `sbrk` is asked for, a call does the same in the two kernels. -/
theorem step_eq {call : KernelCall}
    (h : s.Inv (roomEnv bigBins fuel skipRand) Machine.heapEnd (HeapReady L low m₀) A)
    (hapart : (CallocCall.kernel call).Apart s) :
    call.step (machineEnv bigBins fuel skipRand) Machine.heapEnd s =
      call.step (roomEnv bigBins fuel skipRand) Machine.heapEnd s := by
  refine (call.step_congr (machineEnv bigBins fuel skipRand) (roomSbrk fuel) s
    fun n hasks hcalls => ?_).symm
  have hn : 0 < n := by
    by_contra hzero
    obtain rfl : n = 0 := by omega
    cases hcalls .spin
  exact if_pos (hapart n hasks hn ((h.grows_iff hn).mpr hcalls))

/-- **One step** of a call whose sizes fit keeps the invariant.  Where the kernel's `sbrk` and the
one that stops differ, the call would have wrapped around. -/
theorem step_inv (h : s.Inv (roomEnv bigBins fuel skipRand) Machine.heapEnd (HeapReady L low m₀) A)
    (hfuel : 0x100000 < fuel) (hapart : call.Apart s)
    (hlegal : call.Legal (machineEnv bigBins fuel skipRand) s) (hfits : call.Fits s)
    (hstep : call.step (machineEnv bigBins fuel skipRand) s = .ok s') :
    ∃ B, s'.Inv (roomEnv bigBins fuel skipRand) Machine.heapEnd (HeapReady L low m₀) B := by
  have hfresh : SbrkFresh (roomEnv bigBins fuel skipRand).sbrk Machine.heapEnd
      (HeapReady L low m₀) := roomEnv_sbrk_fresh bigBins skipRand hfuel
  have hothers : ∀ call : KernelCall, (CallocCall.kernel call).Apart s →
      (call.Valid (roomEnv bigBins fuel skipRand) Machine.heapEnd s ∧ call.TerminatorFits s) ∧
        call.KeepsBin s →
      call.step (machineEnv bigBins fuel skipRand) Machine.heapEnd s = .ok s' →
      ∃ B, s'.Inv (roomEnv bigBins fuel skipRand) Machine.heapEnd (HeapReady L low m₀) B :=
    fun call hapart hlegal hstep =>
      KernelCall.step_exists_inv hfresh call s s' ⟨A, h⟩ hlegal
        ((step_eq h hapart).symm.trans hstep)
  match call, hapart, hlegal, hfits, hstep with
  | .kernel (.alloc (.malloc size)), hapart, hlt, hfits, hstep =>
    simp only [step, KernelCall.step, AllocCall.step] at hstep
    rcases Nat.eq_zero_or_pos size with rfl | hpos
    · rw [klmalloc, if_pos rfl] at hstep
      cases hstep
      refine ⟨A, ?_⟩
      rw [if_pos rfl, if_pos rfl]
      exact h
    · rcases h.klmalloc_returns hfuel hpos hlt (hapart _ rfl hpos) with
        ⟨-, c, h', B, hmalloc, -, hinv⟩ | ⟨hwrong, -⟩
      · rw [hmalloc] at hstep
        cases hstep
        exact ⟨B, hinv⟩
      · exact absurd (hfits hpos) hwrong
  | .kernel (.alloc (.free ptr)), hapart, hlegal, _, hstep => exact hothers _ hapart hlegal hstep
  | .kernel (.alloc (.write a b)), hapart, hlegal, _, hstep => exact hothers _ hapart hlegal hstep
  | .kernel (.realloc ptr size), hapart, hlegal, _, hstep => exact hothers _ hapart hlegal hstep
  | .kernel (.kopen filename), hapart, hlegal, _, hstep => exact hothers _ hapart hlegal hstep
  | .calloc nmemb size, hapart, _, hfits, hstep =>
    obtain ⟨n, hn⟩ : ∃ n, n = u32 (nmemb * size) := ⟨_, rfl⟩
    rw [step] at hstep
    rcases Nat.eq_zero_or_pos n with rfl | hpos
    · rw [klcalloc_zero hn.symm, ok_bind] at hstep
      cases hstep
      refine ⟨A, ?_⟩
      rw [AllocRun.allotted, if_pos rfl, if_pos rfl]
      exact h
    · rcases h.klmalloc_returns hfuel hpos (hn ▸ u32_lt _) (hapart n hn hpos) with
        ⟨-, c, h', B, hmalloc, hc, hinv⟩ |
        ⟨-, c, h', p, hmalloc, hc, hc_lt, hmapped, hp_lt, hp⟩
      · obtain ⟨hinv', hpresent, -⟩ := hinv.cleared (AllocRun.mem_allotted hc h')
        rw [klcalloc_ok (hn ▸ hmalloc) hc (hn ▸ hpresent), ok_bind, ← hn] at hstep
        cases hstep
        exact ⟨B, hinv'⟩
      · rw [klcalloc_fault (hn ▸ hmalloc) hc hc_lt hmapped hp_lt (hn ▸ hp) (hn ▸ hpos)] at hstep
        cases hstep

end CallocCall

end

/-- A kernel with 32 MB of memory, with its objects in one memory. -/
def machineKernel : AllocEnv Machine SkipRand := machineEnv 0x110000 0x100001 klmallocSkipRand

/-- A state of this kernel in which the heap has not grown beyond `e`. -/
structure HeapBelow (m₁ : Machine) (e : Nat) (s : AllocRun Machine SkipRand) : Prop where
  inv : ∃ A, s.Inv (roomEnv 0x110000 0x100001 klmallocSkipRand) Machine.heapEnd
    (HeapReady bootApart_32MB.layout 0xA0000 m₁.mem) A
  start_le : 0x204000 ≤ s.heap.os.heapEnd
  le : s.heap.os.heapEnd ≤ e

namespace HeapBelow

variable {m₁ : Machine} {e : Nat} {s : AllocRun Machine SkipRand}

/-- There is room for the heap in the first 4 MB, where it needs no table. -/
theorem roomFor (h : HeapBelow m₁ e s) {increment : Nat} (hle : e + increment ≤ 0x400000) :
    s.heap.os.RoomFor increment := by
  obtain ⟨⟨A, hinv⟩, hlow, hhigh⟩ := h
  obtain ⟨-, t, htracked, hmapped⟩ := hinv.ready
  obtain ⟨hrep, n, hsteady⟩ := htracked
  have hend : s.heap.os.heapEnd = t.heapEnd := hrep.heapEnd
  rw [hend] at hmapped hlow hhigh
  intro _ _
  refine growthApart_32MB 0 ⟨hrep, n, hsteady⟩ hmapped (by omega) (by omega) (by omega) ?_
  rw [Machine.newTables, if_neg (by simp), Nat.mul_zero]
  exact hsteady.pointer_le

/-- The heap grows by what it is asked for. -/
theorem malloc (h : HeapBelow m₁ e s) {n k c : Nat} {heap : AllocHeap Machine SkipRand}
    (hn : sbrkIncrement n ≤ k) (hle : e + k ≤ 0x400000)
    (hmalloc : klmalloc machineKernel n s.heap = .ok (c, heap)) :
    0x204000 ≤ heap.os.heapEnd ∧ heap.os.heapEnd ≤ e + k := by
  have hlow := h.start_le
  have hhigh := h.le
  rcases klmalloc_os hmalloc with hos | ⟨a, hsbrk⟩
  · rw [hos]
    omega
  · obtain ⟨A, hinv⟩ := h.inv
    obtain ⟨hasked, hasked_lt⟩ := askedIncrement_page n
    have heq : askedIncrement n = sbrkIncrement n := askedIncrement_eq (by omega)
    obtain ⟨os, p, hos, -, hnocarry, -⟩ := hinv.ready.sbrk (show 0x100000 < 0x100001 by decide)
      hasked hasked_lt (h.roomFor (by omega))
    cases hsbrk.symm.trans hos
    have := (hnocarry (by omega)).1
    omega

end HeapBelow

/-- A `malloc` or `calloc` of two pages at most. -/
def CallocCall.Small : CallocCall → Prop
  | .kernel (.alloc (.malloc size)) => sbrkIncrement size ≤ 0x2000 ∧ size < 0x100000000
  | .calloc nmemb size => sbrkIncrement (nmemb * size) ≤ 0x2000 ∧ nmemb < 0x100000000 ∧
    size < 0x100000000 ∧ nmemb * size < 0x100000000
  | _ => False

/-- Such calls are legal, and there is room for them, as long as the heap is in the first 4 MB. -/
theorem HeapBelow.along {m₁ : Machine} : ∀ (calls : List CallocCall) {e : Nat}
    {s : AllocRun Machine SkipRand}, HeapBelow m₁ e s → (∀ call ∈ calls, call.Small) →
    e + 0x2000 * calls.length ≤ 0x400000 →
    Runs.Along (CallocCall.step machineKernel) (CallocCall.Legal machineKernel) calls s ∧
      Runs.Along (CallocCall.step machineKernel) (fun call s => call.Apart s ∧ call.Fits s) calls s
  | [], _, _, _, _, _ => ⟨trivial, trivial⟩
  | call :: calls, e, s, h, hsmall, hle => by
    rw [List.length_cons, Nat.mul_succ] at hle
    have hroom : e + 0x2000 ≤ 0x400000 :=
      (Nat.add_le_add_left (Nat.le_add_left 0x2000 _) e).trans hle
    obtain ⟨n, hasks, hn, hlegal, hfits, hend⟩ : ∃ n, (∀ k, call.Asks s k → k = n) ∧
        sbrkIncrement n ≤ 0x2000 ∧ call.Legal machineKernel s ∧ call.Fits s ∧
        ∀ s', call.step machineKernel s = .ok s' →
          0x204000 ≤ s'.heap.os.heapEnd ∧ s'.heap.os.heapEnd ≤ e + 0x2000 := by
      have hcall := hsmall call List.mem_cons_self
      have hhigh := h.le
      match call, hcall with
      | .kernel (.alloc (.malloc size)), ⟨hincrement, hlt⟩ =>
        refine ⟨size, fun k hk => hk, hincrement, hlt, fun _ _ => by omega, fun s' hs' => ?_⟩
        simp only [CallocCall.step, KernelCall.step, AllocCall.step] at hs'
        split at hs'
        · next c heap hmalloc =>
          cases hs'
          exact h.malloc hincrement hroom hmalloc
        · cases hs'
      | .calloc nmemb size, ⟨hincrement, hnmemb, hsize, hlt⟩ =>
        refine ⟨nmemb * size, fun k hk => hk.trans (u32_eq hlt), hincrement, ⟨hnmemb, hsize⟩,
          Or.inl hlt, fun s' hs' => ?_⟩
        rw [CallocCall.step, klcalloc, u32_eq hlt] at hs'
        obtain ⟨⟨c, heap⟩, hcalloc, hs'⟩ := bind_eq_ok hs'
        cases hs'
        obtain ⟨⟨ptr, heap₁⟩, hmalloc, hcalloc⟩ := bind_eq_ok hcalloc
        have := h.malloc hincrement hroom hmalloc
        simp only at hcalloc
        split_ifs at hcalloc <;> cases hcalloc <;> exact this
    have hapart : call.Apart s := fun k hk _ _ => by
      obtain rfl := hasks k hk
      rw [askedIncrement_eq (by omega)]
      exact h.roomFor (by omega)
    have hnext : ∀ s', call.step machineKernel s = .ok s' → HeapBelow m₁ (e + 0x2000) s' :=
      fun s' hs' => by
        obtain ⟨A, hinv⟩ := h.inv
        exact ⟨CallocCall.step_inv hinv (by decide) hapart hlegal hfits hs', (hend s' hs').1,
          (hend s' hs').2⟩
    have hrest := fun s' hs' => (hnext s' hs').along calls
      (fun call hcall => hsmall call (List.mem_cons_of_mem _ hcall)) (by omega)
    exact ⟨⟨hlegal, fun s' hs' => (hrest s' hs').1⟩, ⟨hapart, hfits⟩,
      fun s' hs' => (hrest s' hs').2⟩

end MyaXOS
