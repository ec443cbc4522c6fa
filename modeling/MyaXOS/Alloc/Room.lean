import MyaXOS.Alloc.Calls
import MyaXOS.Mem.HeapRuns

/-!
# The allocator, with the pager in one memory

What is known of `klmalloc` and `klfree` so far rests on `SbrkFresh`, which asks of `sbrk` that it
does its work whatever it is asked for.  With the bitmap, the directory and the tables in one memory
`sbrk` is not like this: it does its work if there is room for it (`Machine.RoomFor`), and otherwise
the objects of the pager come into each other's way and nothing can be said about it.

Nor can one ask for room in `SbrkFresh`, since it is the states of a run that have room or not, each
for what it is asked for next.

## What is done about it

`roomEnv` is a kernel whose `sbrk` stops if there is no room.  This `sbrk` is as `SbrkFresh` asks
for (`roomEnv_sbrk_fresh`), so everything about the allocator holds in this kernel.  The kernel that
there is, `machineEnv`, has an `sbrk` that goes on.  The two do the same as long as there is room:

* `klmalloc` asks `sbrk` for memory once at most, so it makes no difference to it what `sbrk` does
  elsewhere.  This is `klmalloc_congr`, and `KernelCall.step_congr` for the calls that use it.
* `Grows` says of the state before a call whether `sbrk` is asked, and `askedIncrement` for how
  much.  `Grows` is about the free blocks, and `AllocRun.Inv.grows_iff` finds them in the lists.

## What `sbrk` does

With room `sbrk` always returns (`HeapReady.sbrk`): room is counted in words of the bitmap that lie
below the directory, which are fewer than all, so the frames are never all taken.  It maps the pages
up to the new end of the heap, unless the new end is not below `2 ^ 32`.  Then it maps nothing, and
still returns.  `MappedUpTo` is what is left of `HeapReady` in this case.

The bytes of the blocks are in the memory of the allocator, as before.  The heap lies above all that
`sbrk` writes to, which is the bitmap, the directory and the tables.
-/

set_option autoImplicit false

namespace MyaXOS

variable {σ ρ : Type}

/-! ## What `sbrk` is asked for

The increment as the code computes it, modulo 2^32 at every step, beside the increment as it should
be.  They are the same as long as the second is below 2^32.  Otherwise the first is too small, and
the heap does not grow by as much as the block needs. -/

/-- No free block is large enough, so that `malloc` will ask `sbrk` for pages: the heap has to grow.
-/
def Grows (s : AllocRun σ ρ) (n : Nat) : Prop :=
  if n ≤ 2048 then s.heap.binHead (klmallocBinSize n) = 0
  else ∀ p, FreedBig s p → read s.heap.mem (.size p) < n

/-- The sizes that a call asks `malloc` for. -/
def KernelCall.Asks : KernelCall → AllocRun σ ρ → Nat → Prop
  | .alloc (.malloc size), _, n => n = size
  | .alloc _, _, _ => False
  | .realloc ptr size, s, n => Reallocates s.heap.mem ptr size ∧ n = size
  | .kopen filename, s, n => strlen s.heap.mem filename = .ok n

theorem askedIncrement_page (n : Nat) :
    askedIncrement n % 0x1000 = 0 ∧ askedIncrement n < 0x100000000 := by
  rw [askedIncrement]
  split_ifs
  · decide
  · refine ⟨?_, u32_lt _⟩
    rw [u32]
    omega

/-- If it is too much, then what is asked for is too little. -/
theorem askedIncrement_le {n : Nat} (hn : n < 0x100000000) (h : 0x100000000 ≤ sbrkIncrement n) :
    askedIncrement n ≤ n := by
  rw [sbrkIncrement] at h
  rw [askedIncrement]
  split_ifs at h ⊢
  · omega
  · rw [u32, u32]
    omega

/-- The heap grows exactly if `sbrk` is called. -/
theorem AllocRun.Inv.grows_iff {env : AllocEnv σ ρ} {heapEnd : σ → Nat} {Ready : σ → Prop}
    {s : AllocRun σ ρ} {A : Arena} {n : Nat} (h : s.Inv env heapEnd Ready A) (hn : 0 < n) :
    Grows s n ↔ CallsSbrk env n s.heap := by
  have hbin := (klmallocBinSize_spec hn).1
  rw [h.kept.callsSbrk_iff hn]
  by_cases hsmall : n ≤ 2048
  · rw [Grows, if_pos hsmall, if_pos (hbin.mpr hsmall)]
  · rw [Grows, if_neg hsmall, if_neg fun hlt => hsmall (hbin.mp hlt)]
    refine Iff.trans ?_ (h.kept.stored.chain.best_eq_nil_iff n).symm
    refine forall_congr' fun p => ?_
    rw [h.freedBig_iff]
    refine forall_congr' fun hp => ?_
    rw [h.kept.stored.size p ((h.kept.indexed.freed_iff p).mp hp).1]

/-! ## Another `sbrk`

`klmalloc` calls `sbrk` once at most, and with what `askedIncrement` says.  If two kernels differ in
their `sbrk` only, and not in what it returns here, then their `klmalloc` do the same; and so do the
calls that are made of it. -/

section
variable (env : AllocEnv σ ρ) (sbrk' : Nat → σ → Except Stop (Nat × σ)) {heapEnd : σ → Nat}

theorem klmalloc_congr (n : Nat) (h : AllocHeap σ ρ)
    (hsame : CallsSbrk env n h → sbrk' (askedIncrement n) h.os = env.sbrk (askedIncrement n) h.os) :
    klmalloc { env with sbrk := sbrk' } n h = klmalloc env n h := by
  rcases Nat.eq_zero_or_pos n with rfl | hn
  · rfl
  · by_cases hsmall : klmallocBinSize n < 10
    · rw [klmalloc, klmalloc, if_neg hn.ne', if_neg hn.ne', if_pos hsmall, if_pos hsmall]
      by_cases hhead : h.binHead (klmallocBinSize n) = 0
      · have hcalls : CallsSbrk env n h := fun e => Kept.klmalloc_unlisted_error hn hsmall hhead rfl
        have hsbrk := hsame hcalls
        rw [askedIncrement, if_pos hsmall] at hsbrk
        simp only [klmallocSmall, if_pos hhead, growBin, hsbrk]
      · simp only [klmallocSmall, if_neg hhead]
    · rw [klmalloc, klmalloc, if_neg hn.ne', if_neg hn.ne', if_neg hsmall, if_neg hsmall]
      simp only [klmallocBig]
      cases hfind : klmallocSkipListFindbest env.bigBins n h with
      | error e => rfl
      | ok header =>
        by_cases hheader : header = 0
        · subst hheader
          have hcalls : CallsSbrk env n h := fun e => by
            rw [klmalloc, if_neg hn.ne', if_neg hsmall, klmallocBig]
            simp only [hfind, ok_bind, if_neg (not_not.mpr rfl), growBig, error_bind]
          have hsbrk := hsame hcalls
          rw [askedIncrement, if_neg hsmall] at hsbrk
          simp only [ok_bind, if_neg (not_not.mpr rfl), growBig, hsbrk]
        · simp only [ok_bind, if_pos hheader]

theorem klrealloc_congr (ptr size : Nat) (h : AllocHeap σ ρ)
    (hsame : Reallocates h.mem ptr size →
      klmalloc { env with sbrk := sbrk' } size h = klmalloc env size h) :
    klrealloc { env with sbrk := sbrk' } ptr size h = klrealloc env ptr size h := by
  by_cases hptr : ptr = 0
  · rw [klrealloc, klrealloc, if_pos hptr, if_pos hptr, hsame (Or.inl hptr)]
  · by_cases hsize : size = 0
    · rw [klrealloc, klrealloc, if_neg hptr, if_neg hptr, if_pos hsize, if_pos hsize]
      rfl
    · rcases Nat.lt_or_ge (read h.mem (.size (ptr &&& 0xFFFFF000))) size with hmoves | hstays
      · rw [klrealloc_moves _ hptr hmoves, klrealloc_moves _ hptr hmoves,
          hsame (Or.inr ⟨hsize, hmoves⟩)]
        rfl
      · rw [klrealloc_stays _ hptr hsize hstays, klrealloc_stays _ hptr hsize hstays]

/-- **A call does the same** if `sbrk` does, for what the call asks of it.  No other part of the
environment is different. -/
theorem KernelCall.step_congr (call : KernelCall) (s : AllocRun σ ρ)
    (hsame : ∀ n, call.Asks s n → CallsSbrk env n s.heap →
      sbrk' (askedIncrement n) s.heap.os = env.sbrk (askedIncrement n) s.heap.os) :
    call.step { env with sbrk := sbrk' } heapEnd s = call.step env heapEnd s := by
  have hmalloc : ∀ n, call.Asks s n →
      klmalloc { env with sbrk := sbrk' } n s.heap = klmalloc env n s.heap := fun n hn =>
    klmalloc_congr env sbrk' n s.heap (hsame n hn)
  match call, hmalloc with
  | .alloc (.malloc size), hmalloc => simp only [step, AllocCall.step, hmalloc size rfl]
  | .alloc (.free ptr), _ => rfl
  | .alloc (.write a b), _ => rfl
  | .realloc ptr size, hmalloc =>
    rw [step, step, klrealloc_congr env sbrk' ptr size s.heap fun h => hmalloc size ⟨h, rfl⟩]
  | .kopen filename, hmalloc =>
    rw [step, step]
    cases hlen : strlen s.heap.mem filename with
    | error e => rfl
    | ok pathLen => simp only [ok_bind, hmalloc pathLen hlen]

end

/-! ## The two kernels

The kernel's own `sbrk`, on the bytes of one memory, and the one that stops where there is no room.
The second has what `SbrkFresh` asks for in every state that is ready: either it stops, or the pages
it returns are new, and the state is ready again because the simulation of `Mem/HeapRuns.lean`
carries over one more call. -/

/-- What is around the allocator in the kernel: `sbrk` is that of `mem.c`, on the bytes of one
memory. -/
def machineEnv (bigBins fuel : Nat) (skipRand : ρ → Nat × ρ) : AllocEnv Machine ρ :=
  ⟨bigBins, Machine.sbrk fuel, skipRand⟩

open Classical in
/-- The `sbrk` that stops if there is no room for what it is asked for. -/
noncomputable def roomSbrk (fuel increment : Nat) (m : Machine) : Except Stop (Nat × Machine) :=
  if m.RoomFor increment then m.sbrk fuel increment else .error (.halt "No room")

/-- The kernel that stops if there is no room for the heap to grow. -/
noncomputable def roomEnv (bigBins fuel : Nat) (skipRand : ρ → Nat × ρ) : AllocEnv Machine ρ :=
  { machineEnv bigBins fuel skipRand with sbrk := roomSbrk fuel }

/-- The pages below `p` are mapped and no others, and the objects of the pager are apart. -/
def MappedUpTo (L : Layout) (low : Nat) (m₀ : Mem) (p : Nat) (m : Machine) : Prop :=
  HeapLayout L low ∧ ∃ s, Tracked L low m₀ m s ∧ Paging.Mapped p s

/-- All that is below the end of the heap is mapped, and nothing else. -/
def HeapReady (L : Layout) (low : Nat) (m₀ : Mem) (m : Machine) : Prop :=
  MappedUpTo L low m₀ (m.heapEnd / 0x1000) m

/-- The page at an address is present. -/
def Machine.present (m : Machine) (a : Nat) : Bool := (m.pageAt a).any Page.present

section
variable {L : Layout} {low p a fuel increment : Nat} {m₀ : Mem} {m : Machine}

theorem MappedUpTo.present (h : MappedUpTo L low m₀ p m) (ha : a < p * 0x1000)
    (hlt : a < 0x100000000) : m.present a = true := by
  obtain ⟨hL, s, ⟨hrep, -⟩, hmapped⟩ := h
  obtain ⟨page, hpage, hpresent, -⟩ := hmapped.pageAt_of_lt (show a / 0x1000 < p by omega)
  rw [Machine.present, hrep.pageAt_eq (by rw [hL.tables]; omega), hpage]
  exact hpresent

theorem MappedUpTo.not_present (h : MappedUpTo L low m₀ p m) (ha : p * 0x1000 ≤ a)
    (hlt : a < 0x100000000) : m.present a = false := by
  obtain ⟨hL, s, ⟨hrep, -⟩, hmapped⟩ := h
  rw [Machine.present, hrep.pageAt_eq (by rw [hL.tables]; omega)]
  cases hpage : s.pageAt a with
  | none => rfl
  | some page =>
    rw [hmapped.pageAt_of_le (by omega) hpage]
    rfl

namespace HeapReady

theorem aligned (h : HeapReady L low m₀ m) : m.heapEnd % 0x1000 = 0 ∧ m.heapEnd < 0x100000000 := by
  obtain ⟨-, s, ⟨hrep, n, hs⟩, -⟩ := h
  rw [hrep.heapEnd]
  exact ⟨hs.heapEnd_aligned, hs.heapEnd_lt⟩

/-- With room for all the new pages the frames are not all taken: none of the pages has one, and the
words that are counted are in the bitmap. -/
theorem enough {s : Paging} (hL : HeapLayout L low) (hs : Tracked L low m₀ m s)
    (hmapped : Paging.Mapped (m.heapEnd / 0x1000) s) (hinc : increment % 0x1000 = 0)
    (hroom : m.RoomFor increment) (hfit : m.heapEnd + increment < 0x100000000) :
    m.heapEnd + increment ≤ indexFromBit s.nframes * 0x20 * 0x1000 ∨ increment = 0 := by
  obtain ⟨hrep, n, hsteady⟩ := hs
  have haligned := hsteady.heapEnd_aligned
  rw [← hrep.heapEnd] at haligned
  obtain ⟨p, hp⟩ : ∃ p, p = m.heapEnd / 0x1000 := ⟨_, rfl⟩
  obtain ⟨e, he⟩ : ∃ e, e = (m.heapEnd + increment) / 0x1000 := ⟨_, rfl⟩
  have hframes := (hrep.room hL hsteady (by omega) (hroom hinc hfit)).frames
  rw [← hp, ← he] at hframes
  rw [← hp] at hmapped
  have hn : n = p := by
    by_contra hne
    rcases Nat.lt_or_gt_of_ne hne with hlt | hgt
    · exact absurd ((hsteady.marked_iff n).mp ((hmapped.marked_iff n).mpr hlt)) (Nat.lt_irrefl n)
    · exact absurd ((hmapped.marked_iff p).mp ((hsteady.marked_iff p).mpr hgt)) (Nat.lt_irrefl p)
  have hall : s.frameless p e = Finset.Ico p e := by
    refine Finset.filter_true_of_mem fun q hq => ?_
    have hle := (Finset.mem_Ico.mp hq).1
    cases hpage : s.pageAt (q * 0x1000) with
    | none => rfl
    | some page =>
      rw [hmapped.pageAt_of_le (by omega) hpage]
      rfl
  rw [hall, Nat.card_Ico] at hframes
  have hwords := hsteady.words_le
  omega

/-- **`sbrk` returns** if there is room, but it maps nothing if there is a carry: the end of the
heap is then below its beginning, and the loop does not run. -/
theorem sbrk (h : HeapReady L low m₀ m) (hfuel : 0x100000 < fuel) (hinc : increment % 0x1000 = 0)
    (hlt : increment < 0x100000000) (hroom : m.RoomFor increment) :
    ∃ m' p, m.sbrk fuel increment = .ok (m.heapEnd, m') ∧ MappedUpTo L low m₀ p m' ∧
      (m.heapEnd + increment < 0x100000000 →
        m'.heapEnd = m.heapEnd + increment ∧ p = m'.heapEnd / 0x1000) ∧
      (0x100000000 ≤ m.heapEnd + increment → p * 0x1000 = m.heapEnd) := by
  obtain ⟨haligned, hend⟩ := h.aligned
  obtain ⟨hL, s, hs, hmapped⟩ := h
  obtain ⟨hrep, n, hsteady⟩ := hs
  have hagree := hrep.sbrk fuel hL hsteady hroom hlt
  rw [hrep.heapEnd] at haligned hend hmapped
  by_cases hfit : s.heapEnd + increment < 0x100000000
  · have henough := enough hL ⟨hrep, n, hsteady⟩ (by rwa [hrep.heapEnd]) hinc hroom
      (by rwa [hrep.heapEnd])
    rw [hrep.heapEnd] at henough
    have hsbrk := Paging.sbrk_eq hmapped haligned hinc hfit hfuel
    rw [if_pos henough.symm] at hsbrk
    obtain ⟨t, ht, hmapped', hend', -⟩ := hsbrk
    obtain ⟨⟨address, m'⟩, hm', haddress, htracked⟩ := hagree.of_ok' ht
    cases haddress
    have hend₁ : m'.heapEnd = s.heapEnd + increment := htracked.1.heapEnd.trans hend'
    refine ⟨m', _, by rw [hm', hrep.heapEnd], ⟨hL, t, htracked, hmapped'⟩, fun _ => ?_,
      fun hge => ?_⟩
    · rw [hend₁, hrep.heapEnd]
      exact ⟨rfl, rfl⟩
    · rw [hrep.heapEnd] at hge
      omega
  · obtain ⟨⟨address, m'⟩, hm', haddress, htracked⟩ := hagree.of_ok'
      (Paging.sbrk_carry fuel increment hend hinc hlt (Nat.le_of_not_lt hfit) (by omega))
    cases haddress
    refine ⟨m', s.heapEnd / 0x1000, by rw [hm', hrep.heapEnd],
      ⟨hL, _, htracked, hmapped.of_heapEnd⟩, fun hlt' => ?_, fun _ => ?_⟩
    · rw [hrep.heapEnd] at hlt'
      exact absurd hlt' hfit
    · rw [hrep.heapEnd]
      omega

end HeapReady

/-- **The `sbrk` that stops** is as the allocator needs it: when it returns there was room, and then
the pages are mapped, and behind all that was there. -/
theorem roomEnv_sbrk_fresh (bigBins : Nat) (skipRand : ρ → Nat × ρ) (hfuel : 0x100000 < fuel) :
    SbrkFresh (roomEnv bigBins fuel skipRand).sbrk Machine.heapEnd (HeapReady L low m₀) where
  aligned _ h := h.aligned.1
  fresh m increment a m' h hinc hfit hs := by
    have hs' : roomSbrk fuel increment m = .ok (a, m') := hs
    rw [roomSbrk] at hs'
    split at hs'
    · next hroom =>
      obtain ⟨m₁, p, hm₁, hmapped, hnocarry, -⟩ := h.sbrk hfuel hinc (by omega) hroom
      cases hs'.symm.trans hm₁
      obtain ⟨hend, hp⟩ := hnocarry hfit
      refine ⟨rfl, hend, ?_⟩
      rwa [HeapReady, ← hp]
    · cases hs'

end

end MyaXOS
