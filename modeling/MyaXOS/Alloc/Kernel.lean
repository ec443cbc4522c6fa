import MyaXOS.Alloc.Realloc

/-!
# The heap of a kernel with 32 MB

The statements about the allocator are about any `sbrk` that is like `SbrkFresh`.  Here is one, the
`sbrk` of `mem.c` in a kernel with 32 MB of memory that has just installed its heap, and what is
needed to follow a run of this kernel from call to call.

## What is here

* `kernelEnv` is what is around the allocator in this kernel, `kernelStart` the state in which
  `heap_install` leaves it, and `kernelStart_start` says that the allocator may be used from there.
* `KernelRoom room` are the states with an invariant and with `room` more bytes for the heap.  A
  call of `malloc` takes what `sbrkIncrement` says from the room at most, and a call of `free` takes
  nothing (`KernelRoom.malloc`, `KernelRoom.free`), so that a run can be followed as long as there
  is room.  There are frames for the whole of it: `kernel_sbrk`.
* `AllocRun.PagesStay` says that what `sbrk` has once returned keeps its header.  It is what makes
  the blocks that have been freed findable again later in the run: a block of more than 2048 bytes
  has a header of its own (`AllocRun.Inv.live_big`), and when it is given back this header is that
  of a freed big block (`AllocRun.Inv.freedBig_of_free`), as long as the block has been.

Where no big block has been freed, `malloc` of a big block grows the heap, and the length of the new
block is known from the size alone (`AllocRun.Inv.new_big`).  Two blocks of one size are then as
long as each other.
-/

set_option autoImplicit false

namespace MyaXOS

variable {σ ρ : Type}

/-! ## Pages stay what they are

`malloc` and `free` never change the size in a header, and never take a header away.  So what is
known of a block from the time when it was given out is known later.  `FreedBig.stays` is the use
that is made of it: a big block that has been freed is one until `malloc` returns it again. -/

/-- The headers of `s` are still there in `t`, each for blocks of the length it was for. -/
def AllocRun.PagesStay (s t : AllocRun σ ρ) : Prop :=
  ∀ p ∈ s.headers, p ∈ t.headers ∧ read t.heap.mem (.size p) = read s.heap.mem (.size p)

theorem AllocRun.PagesStay.trans {s t u : AllocRun σ ρ} (h : s.PagesStay t) (h' : t.PagesStay u) :
    s.PagesStay u := fun p hp =>
  ⟨(h' p (h p hp).1).1, (h' p (h p hp).1).2.trans (h p hp).2⟩

/-- What is freed stays freed as long as nothing is given out. -/
theorem FreedBig.stays {s t : AllocRun σ ρ} {p : Nat} (h : FreedBig s p) (hpages : s.PagesStay t)
    (hlive : ∀ b ∈ t.live, b ∈ s.live) : FreedBig t p :=
  ⟨(hpages p h.1).1, (hpages p h.1).2 ▸ h.2.1, fun n hn => h.2.2 n (hlive _ hn)⟩

section
variable {env : AllocEnv σ ρ} {heapEnd : σ → Nat} {Ready : σ → Prop} {s : AllocRun σ ρ} {A : Arena}
  {n c ptr : Nat} {heap : AllocHeap σ ρ}

namespace AllocRun.Inv

theorem malloc_pagesStay (h : s.Inv env heapEnd Ready A) (hsbrk : SbrkFresh env.sbrk heapEnd Ready)
    (hn : 0 < n)
    (hfits : CallsSbrk env n s.heap → heapEnd s.heap.os + sbrkIncrement n < 0x100000000)
    (hmalloc : MyaXOS.klmalloc env n s.heap = .ok (c, heap)) :
    s.PagesStay (s.allotted heapEnd n c heap) := by
  intro p hp
  have hmem : p ∈ (s.allotted heapEnd n c heap).headers := by
    rw [AllocRun.allotted]
    simp only
    split
    · exact hp
    · exact List.mem_cons_of_mem _ hp
  refine ⟨hmem, ?_⟩
  rcases h.klmalloc hsbrk hn (h.round hn hfits) hfits with
    ⟨c', h', B, hmalloc', hc, hgives, hinv, -⟩ | ⟨e, he, -⟩
  · cases hmalloc.symm.trans hmalloc'
    rw [AllocRun.allotted, if_neg hc] at hmem ⊢
    rw [← hinv.headers] at hmem
    rw [← h.headers] at hp
    exact (hinv.kept.stored.size p hmem).trans
      ((hgives.size p hp).trans (h.kept.stored.size p hp).symm)
  · cases hmalloc.symm.trans he

theorem free_pagesStay (h : s.Inv env heapEnd Ready A) (hlive : (ptr, n) ∈ s.live)
    (hfree : MyaXOS.klfree env ptr s.heap = .ok heap) :
    s.PagesStay ⟨heap, s.live.filter fun b => b.1 ≠ ptr, s.headers⟩ := by
  intro p hp
  obtain ⟨heap', B, hfree', hsize, hinv, -⟩ := h.klfree hlive
  cases hfree.symm.trans hfree'
  refine ⟨hp, (hinv.kept.stored.size p (hinv.headers ▸ hp)).trans ?_⟩
  rw [hsize, h.kept.stored.size p (h.headers ▸ hp)]

/-- **A big block has a header of its own**, right in front of it. -/
theorem live_big (h : s.Inv env heapEnd Ready A) (hlive : (c, n) ∈ s.live) (hbig : 2048 < n) :
    ∃ p ∈ s.headers, c = p + 44 ∧ 11 < read s.heap.mem (.size p) ∧
      read s.heap.mem (.size p) = MyaXOS.usable s.heap.mem c := by
  obtain ⟨p, hp, -, hn⟩ := h.cell hlive
  have hsize := h.kept.stored.size p hp.1
  rcases h.kept.accounted.size_cases p hp.1 with hsmall | ⟨hlarge, -⟩
  · have hpow : 2 ^ (2 + A.size p) ≤ 2 ^ 11 := Nat.pow_le_pow_right (by decide) (by omega)
    rw [capacity, if_pos hsmall] at hn
    omega
  · have hnot : ¬ A.size p < 10 := by omega
    refine ⟨p, h.headers ▸ hp.1, (mem_cells_big hnot).mp hp.2, by rwa [hsize], ?_⟩
    rw [hsize, h.usable hp, capacity_big hnot]

/-- **When it is given back** its header is that of a freed big block. -/
theorem freedBig_of_free (h : s.Inv env heapEnd Ready A) (hlive : (c, n) ∈ s.live)
    (hbig : 2048 < n) (hfree : MyaXOS.klfree env c s.heap = .ok heap) :
    ∃ p, c = p + 44 ∧ FreedBig ⟨heap, s.live.filter fun b => b.1 ≠ c, s.headers⟩ p ∧
      read heap.mem (.size p) = MyaXOS.usable s.heap.mem c := by
  obtain ⟨p, hp, rfl, hlarge, hsize⟩ := h.live_big hlive hbig
  obtain ⟨hmem, hsame⟩ := h.free_pagesStay hlive hfree p hp
  refine ⟨p, rfl, ⟨hmem, hsame ▸ hlarge, fun k hk => ?_⟩, hsame.trans hsize⟩
  simpa using (List.mem_filter.mp hk).2

/-- **Where nothing is free** a big block is new, and fills its pages: its address and its length
are known from the size and the end of the heap. -/
theorem new_big (h : s.Inv env heapEnd Ready A) (hsbrk : SbrkFresh env.sbrk heapEnd Ready)
    (hbig : 2048 < n) (hnone : ∀ p, ¬ FreedBig s p)
    (hfits : CallsSbrk env n s.heap → heapEnd s.heap.os + sbrkIncrement n < 0x100000000)
    (hmalloc : MyaXOS.klmalloc env n s.heap = .ok (c, heap)) :
    MyaXOS.usable heap.mem c = 0x1000 * ((n + 44) / 0x1000 + 1) - 44 ∧
    ∀ p, ¬ FreedBig (s.allotted heapEnd n c heap) p := by
  have hn : 0 < n := Nat.zero_lt_of_lt hbig
  have hnot : ¬ klmallocBinSize n < 10 := fun hsmall =>
    Nat.not_le.mpr hbig ((klmallocBinSize_spec hn).1.mp hsmall)
  constructor
  · rw [h.usable_klmalloc hsbrk hn hfits hmalloc, if_neg hnot, if_pos]
    exact (h.kept.stored.chain.best_eq_nil_iff n).mpr fun p hp =>
      absurd (h.freedBig_iff.mpr hp) (hnone p)
  · obtain ⟨hne, hlive, ⟨B, hinv⟩, hkept⟩ := h.allotted hsbrk hn hfits hmalloc
    have hpages := h.malloc_pagesStay hsbrk hn hfits hmalloc
    have hcases : ∀ p ∈ (s.allotted heapEnd n c heap).headers,
        p ∈ s.headers ∨ p = heapEnd s.heap.os := by
      intro p hp
      rw [AllocRun.allotted] at hp
      simp only at hp
      split at hp
      · exact Or.inl hp
      · exact (List.mem_cons.mp hp).symm
    -- a header of a page that was there before is not that of the new block
    have hold : ∀ p ∈ s.headers, 11 < read heap.mem (.size p) → ∃ k, (p + 44, k) ∈ s.live := by
      intro p hp hlarge
      by_contra hnotlive
      refine hnone p ⟨hp, ?_, not_exists.mp hnotlive⟩
      rw [← (hpages p hp).2]
      exact hlarge
    have hnew : (c, n) ∈ (s.allotted heapEnd n c heap).live := hlive ▸ List.mem_cons_self
    obtain ⟨q, hq, hcq, hlargeq, -⟩ := hinv.live_big hnew hbig
    rintro p ⟨hp, hlarge, hfreed⟩
    rcases hcases p hp with hp | rfl
    · obtain ⟨k, hk⟩ := hold p hp hlarge
      exact hfreed k (hlive ▸ List.mem_cons_of_mem _ hk)
    · rcases hcases q hq with hq | rfl
      · obtain ⟨k, hk⟩ := hold q hq hlargeq
        exact (hkept _ hk).1 hcq.symm
      · exact hfreed n (hcq ▸ hnew)

end AllocRun.Inv

end

/-! ## The kernel

The allocator as the kernel has it, with the `sbrk` of `mem.c`, and a state of the pager for which
everything that the theorems ask of an `sbrk` is true.  This is the machine that the concrete runs
of this development are about. -/

/-- A kernel with 32 MB of memory, right after `heap_install`. -/
def kernelEnv : AllocEnv Paging SkipRand := ⟨0x110000, Paging.sbrk 0x100001, klmallocSkipRand⟩

/-- The states in which `sbrk` is called there: all that is below the end of the heap is mapped, and
there are frames for 32 MB, each for the page at its own address. -/
structure KernelReady (s : Paging) : Prop where
  mapped : Paging.Mapped (s.heapEnd / 0x1000) s
  aligned : s.heapEnd % 0x1000 = 0
  nframes : s.nframes = 0x2000
  heapEnd_le : s.heapEnd ≤ 0x2000000

/-- The `sbrk` of this kernel, without a carry. -/
theorem KernelReady.sbrk_eq {os : Paging} {increment : Nat} (h : KernelReady os)
    (hinc : increment % 0x1000 = 0) (hfit : os.heapEnd + increment < 0x100000000) :
    if os.heapEnd + increment ≤ 0x2000000 then
      ∃ os', kernelEnv.sbrk increment os = .ok (os.heapEnd, os') ∧ KernelReady os' ∧
        os'.heapEnd = os.heapEnd + increment
    else ∃ e, kernelEnv.sbrk increment os = .error e := by
  have haligned := h.aligned
  have hframes := h.nframes
  have hle := h.heapEnd_le
  have hpages : indexFromBit 0x2000 * 0x20 * 0x1000 = 0x2000000 := by decide
  have hsbrk := Paging.sbrk_eq h.mapped haligned hinc hfit (show 0x100000 < 0x100001 by decide)
  rw [hframes, hpages] at hsbrk
  split
  · next hroom =>
    rw [if_pos (Or.inr hroom)] at hsbrk
    obtain ⟨os', hos', hmapped, hend, hframes'⟩ := hsbrk
    refine ⟨os', hos', ⟨by rwa [hend], ?_, hframes', hend ▸ hroom⟩, hend⟩
    rw [hend]
    omega
  · next hfull =>
    rw [if_neg (by omega)] at hsbrk
    exact ⟨_, hsbrk⟩

theorem kernel_sbrk_fresh : SbrkFresh kernelEnv.sbrk Paging.heapEnd KernelReady where
  aligned _ h := h.aligned
  fresh os increment a os' h hinc hfit hs := by
    have hsbrk := h.sbrk_eq hinc hfit
    split at hsbrk
    · obtain ⟨os₁, hos₁, hready, hend⟩ := hsbrk
      cases hs.symm.trans hos₁
      exact ⟨rfl, hend, hready⟩
    · obtain ⟨e, he⟩ := hsbrk
      cases hs.symm.trans he

/-- The heap may have the first half of the memory. -/
theorem kernel_sbrk {os : Paging} {increment : Nat} (h : KernelReady os)
    (hinc : increment % 0x1000 = 0) (hend : os.heapEnd + increment ≤ 0x1000000) :
    ∃ os', kernelEnv.sbrk increment os = .ok (os.heapEnd, os') ∧ KernelReady os' ∧
      os'.heapEnd = os.heapEnd + increment := by
  have hsbrk := h.sbrk_eq hinc (by omega)
  rwa [if_pos (by omega)] at hsbrk

/-- The allocator at this point, with the kernel's `sbrk` in the state `os`. -/
def kernelStart (os : σ) : AllocRun σ SkipRand :=
  ⟨⟨fun _ => 0, fun _ => 0, 0, 0, os, SkipRand.seed⟩, [], []⟩

theorem kernelStart_start : ∃ os, os.heapEnd = 0x204000 ∧
    (kernelStart os).Start kernelEnv Paging.heapEnd KernelReady := by
  obtain ⟨s₁, hinstall, hboot, hpointer⟩ := Paging.boot_32MB 0x100001 (by decide)
  have hend : s₁.heapInstall.heapEnd = 0x204000 := hpointer
  obtain ⟨hmapped, haligned, hlt⟩ := hboot.heapInstall (hpointer.trans (by decide))
  have hframes : s₁.heapInstall.nframes = 0x2000 := Paging.nframes_pagingInstall hinstall
  refine ⟨s₁.heapInstall, hend, fun b => rfl, rfl, rfl, by decide, ?_, fun i _ => ?_, hlt,
    ⟨hmapped, haligned, hframes, ?_⟩, rfl, rfl⟩
  · show 0x110000 + 44 ≤ s₁.heapInstall.heapEnd
    rw [hend]
    decide
  · exact Mem.load32_eq_zero fun _ _ _ => rfl
  · show s₁.heapInstall.heapEnd ≤ 0x2000000
    rw [hend]
    decide

/-! ## Following a run

A concrete run is not evaluated: that would be to compute with a memory of 32 MB.  It is followed
with the lemmas on `malloc` and `free`, and what is carried along is how much the heap may still
grow. -/

/-- A state of this kernel, with `room` more bytes for the heap. -/
structure KernelRoom (room : Nat) (s : AllocRun Paging SkipRand) : Prop where
  inv : ∃ A, s.Inv kernelEnv Paging.heapEnd KernelReady A
  heapEnd : s.heap.os.heapEnd + room ≤ 0x1000000

theorem kernelStart_room : ∃ os, os.heapEnd = 0x204000 ∧
    (kernelStart os).Start kernelEnv Paging.heapEnd KernelReady ∧
    KernelRoom 0xDFC000 (kernelStart os) := by
  obtain ⟨os, hend, hstart⟩ := kernelStart_start
  refine ⟨os, hend, hstart, ⟨_, hstart.inv kernel_sbrk_fresh⟩, ?_⟩
  show os.heapEnd + 0xDFC000 ≤ 0x1000000
  rw [hend]

namespace KernelRoom

variable {room n ptr : Nat} {s : AllocRun Paging SkipRand}

theorem mono {room' : Nat} (h : KernelRoom room s) (hle : room' ≤ room) : KernelRoom room' s :=
  ⟨h.inv, (Nat.add_le_add_left hle _).trans h.heapEnd⟩

theorem fits (h : KernelRoom room s) (hroom : sbrkIncrement n ≤ room) :
    s.heap.os.heapEnd + sbrkIncrement n < 0x100000000 :=
  ((Nat.add_le_add_left hroom _).trans h.heapEnd).trans_lt (by decide)

theorem valid_malloc (h : KernelRoom room s) (hn : 0 < n) (hroom : sbrkIncrement n ≤ room) :
    (AllocCall.malloc n).Valid kernelEnv Paging.heapEnd s := by
  obtain ⟨A, hinv⟩ := h.inv
  exact ⟨hinv.round hn fun _ => h.fits hroom, fun _ => h.fits hroom⟩

theorem valid_free (hlive : (ptr, n) ∈ s.live) :
    (AllocCall.free ptr).Valid kernelEnv Paging.heapEnd s := Or.inr ⟨n, hlive⟩

/-- **`malloc` returns** if there is room for what it may ask for, and there is then less room by
that. -/
theorem malloc (h : KernelRoom room s) (hn : 0 < n) (hroom : sbrkIncrement n ≤ room) :
    ∃ c heap, klmalloc kernelEnv n s.heap = .ok (c, heap) ∧
      KernelRoom (room - sbrkIncrement n) (s.allotted Paging.heapEnd n c heap) := by
  obtain ⟨A, hinv⟩ := h.inv
  have hfits : CallsSbrk kernelEnv n s.heap →
      s.heap.os.heapEnd + sbrkIncrement n < 0x100000000 := fun _ => h.fits hroom
  have hpage : sbrkIncrement n % 0x1000 = 0 := by
    rw [sbrkIncrement]
    split_ifs
    · rfl
    · exact Nat.mul_mod_right ..
  have hle : s.heap.os.heapEnd + sbrkIncrement n ≤ 0x1000000 :=
    (Nat.add_le_add_left hroom _).trans h.heapEnd
  obtain ⟨os, hsbrk, -, hend⟩ := kernel_sbrk hinv.ready hpage hle
  rcases hinv.klmalloc kernel_sbrk_fresh hn (hinv.round hn hfits) hfits with
    ⟨c, heap, B, hmalloc, hc, -, hinv', -⟩ | ⟨e, -, -, he⟩
  · refine ⟨c, heap, hmalloc, ⟨B, ?_⟩, ?_⟩
    · rw [AllocRun.allotted, if_neg hc]
      exact hinv'
    · show heap.os.heapEnd + (room - sbrkIncrement n) ≤ 0x1000000
      have hall := h.heapEnd
      rcases klmalloc_os hmalloc with hos | ⟨a, hos⟩
      · rw [hos]
        omega
      · rw [askedIncrement_eq (show sbrkIncrement n < 0x100000000 by omega), hsbrk] at hos
        cases hos
        omega
  · cases hsbrk.symm.trans he

/-- **`free` takes a block back**, and leaves the room as it was. -/
theorem free (h : KernelRoom room s) (hlive : (ptr, n) ∈ s.live) :
    ∃ heap, klfree kernelEnv ptr s.heap = .ok heap ∧
      KernelRoom room ⟨heap, s.live.filter fun b => b.1 ≠ ptr, s.headers⟩ := by
  obtain ⟨A, hinv⟩ := h.inv
  obtain ⟨heap, B, hfree, -, hinv', -⟩ := hinv.klfree hlive
  have hos := hinv.klfree_os hlive hfree
  refine ⟨heap, hfree, ⟨B, hinv'⟩, ?_⟩
  show heap.os.heapEnd + room ≤ 0x1000000
  rw [hos]
  exact h.heapEnd

/-- A call of `malloc` as a step. -/
theorem step_malloc (h : KernelRoom room s) (hn : 0 < n) (hroom : sbrkIncrement n ≤ room) :
    ∃ c t, AllocCall.step kernelEnv Paging.heapEnd (.malloc n) s = .ok t ∧
      KernelRoom (room - sbrkIncrement n) t ∧ t.live = (c, n) :: s.live ∧ s.PagesStay t ∧
      (∀ b ∈ s.live, b.1 ≠ c) ∧
      (2048 < n → (∀ p, ¬ FreedBig s p) → (∀ p, ¬ FreedBig t p) ∧ ∃ p ∈ t.headers, c = p + 44 ∧
        read t.heap.mem (.size p) = 0x1000 * ((n + 44) / 0x1000 + 1) - 44) := by
  obtain ⟨A, hinv⟩ := h.inv
  have hfits : CallsSbrk kernelEnv n s.heap →
      s.heap.os.heapEnd + sbrkIncrement n < 0x100000000 := fun _ => h.fits hroom
  obtain ⟨c, heap, hmalloc, hroom'⟩ := h.malloc hn hroom
  obtain ⟨-, hlive, -, hkept⟩ := hinv.allotted kernel_sbrk_fresh hn hfits hmalloc
  refine ⟨c, _, ?_, hroom', hlive, hinv.malloc_pagesStay kernel_sbrk_fresh hn hfits hmalloc,
    fun b hb => (hkept b hb).1, fun hbig hnone => ?_⟩
  · rw [AllocCall.step, hmalloc]
    rfl
  · obtain ⟨husable, hnone'⟩ := hinv.new_big kernel_sbrk_fresh hbig hnone hfits hmalloc
    obtain ⟨B, hinv'⟩ := hroom'.inv
    obtain ⟨p, hp, hcp, -, hsize⟩ := hinv'.live_big (hlive ▸ List.mem_cons_self) hbig
    exact ⟨hnone', p, hp, hcp, hsize.trans husable⟩

/-- A call of `free` for a big block.  Its header is then that of a freed one. -/
theorem step_free (h : KernelRoom room s) (hlive : (ptr, n) ∈ s.live) (hbig : 2048 < n) :
    ∃ t, AllocCall.step kernelEnv Paging.heapEnd (.free ptr) s = .ok t ∧ KernelRoom room t ∧
      t.live = (s.live.filter fun b => b.1 ≠ ptr) ∧ s.PagesStay t ∧
      ∀ p, ptr = p + 44 → FreedBig t p := by
  obtain ⟨A, hinv⟩ := h.inv
  obtain ⟨heap, hfree, hroom⟩ := h.free hlive
  refine ⟨_, ?_, hroom, rfl, hinv.free_pagesStay hlive hfree, fun p hp => ?_⟩
  · rw [AllocCall.step, hfree]
  · obtain ⟨q, hq, hfreed, -⟩ := hinv.freedBig_of_free hlive hbig hfree
    rwa [show p = q by omega]

end KernelRoom

/-- Take two blocks of 5000 bytes, one of 3000 and one of 16, and give the big ones back. -/
def threeFreed (a b c : Nat) : List AllocCall :=
  [.malloc 5000, .malloc 5000, .malloc 3000, .malloc 16, .free a, .free b, .free c]

/-- **Three big blocks are then free**, two of them of one length, and there are ten pages left for
what the examples do next. -/
theorem kernel_threeFreed : ∃ os a b c s,
    (kernelStart os).Start kernelEnv Paging.heapEnd KernelReady ∧
    Runs.Leads (AllocCall.step kernelEnv Paging.heapEnd) (AllocCall.Valid kernelEnv Paging.heapEnd)
      (threeFreed a b c) (kernelStart os) s ∧
    KernelRoom 0xA000 s ∧ ∃ p q r, p ≠ q ∧ FreedBig s p ∧ FreedBig s q ∧ FreedBig s r ∧
      read s.heap.mem (.size p) = 8148 ∧ read s.heap.mem (.size q) = 8148 ∧
      read s.heap.mem (.size r) = 4052 := by
  obtain ⟨os, -, hstart, hroom⟩ := kernelStart_room
  have hnone : ∀ p, ¬ FreedBig (kernelStart os) p := fun p hp => List.not_mem_nil hp.1
  -- the blocks are taken
  have hroom₀ : KernelRoom 0x10000 (kernelStart os) := hroom.mono (by decide)
  obtain ⟨a, s₁, hs₁, hroom₁, hlive₁, -, -, hnew₁⟩ := hroom₀.step_malloc (n := 5000) (by decide)
    (by decide)
  obtain ⟨hnone₁, p, hp, rfl, hsizep⟩ := hnew₁ (by decide) hnone
  obtain ⟨b, s₂, hs₂, hroom₂, hlive₂, hstay₂, hne₂, hnew₂⟩ := hroom₁.step_malloc (n := 5000)
    (by decide) (by decide)
  obtain ⟨hnone₂, q, hq, rfl, hsizeq⟩ := hnew₂ (by decide) hnone₁
  obtain ⟨c, s₃, hs₃, hroom₃, hlive₃, hstay₃, hne₃, hnew₃⟩ := hroom₂.step_malloc (n := 3000)
    (by decide) (by decide)
  obtain ⟨-, r, hr, rfl, hsizer⟩ := hnew₃ (by decide) hnone₂
  obtain ⟨d, s₄, hs₄, hroom₄, hlive₄, hstay₄, hne₄, -⟩ := hroom₃.step_malloc (n := 16)
    (by decide) (by decide)
  rw [hlive₃, hlive₂, hlive₁] at hlive₄ hne₄
  rw [hlive₂, hlive₁] at hne₃
  rw [hlive₁] at hne₂
  have hpq : p + 44 ≠ q + 44 := hne₂ (p + 44, 5000) List.mem_cons_self
  have hqr : q + 44 ≠ r + 44 := hne₃ (q + 44, 5000) List.mem_cons_self
  have hpr : p + 44 ≠ r + 44 := hne₃ (p + 44, 5000) (by simp)
  -- and given back
  have hmem₄ : (p + 44, 5000) ∈ s₄.live := by
    rw [hlive₄]
    simp
  obtain ⟨s₅, hs₅, hroom₅, hlive₅, hstay₅, hfreed₅⟩ := hroom₄.step_free hmem₄ (by decide)
  have hmem₅ : (q + 44, 5000) ∈ s₅.live := by
    rw [hlive₅, hlive₄, List.mem_filter]
    exact ⟨by simp, decide_eq_true hpq.symm⟩
  obtain ⟨s₆, hs₆, hroom₆, hlive₆, hstay₆, hfreed₆⟩ := hroom₅.step_free hmem₅ (by decide)
  have hmem₆ : (r + 44, 3000) ∈ s₆.live := by
    rw [hlive₆, List.mem_filter, hlive₅, hlive₄, List.mem_filter]
    exact ⟨⟨by simp, decide_eq_true hpr.symm⟩, decide_eq_true hqr.symm⟩
  obtain ⟨s₇, hs₇, hroom₇, hlive₇, hstay₇, hfreed₇⟩ := hroom₆.step_free hmem₆ (by decide)
  have hsub₆ : ∀ b ∈ s₆.live, b ∈ s₅.live := fun b hb => List.mem_of_mem_filter (hlive₆ ▸ hb)
  have hsub₇ : ∀ b ∈ s₇.live, b ∈ s₆.live := fun b hb => List.mem_of_mem_filter (hlive₇ ▸ hb)
  have hlast := ((hstay₄.trans hstay₅).trans hstay₆).trans hstay₇
  have htaken := ((((Runs.Leads.refl (kernelStart os)).snoc
    (hroom₀.valid_malloc (by decide) (by decide)) hs₁).snoc
    (hroom₁.valid_malloc (by decide) (by decide)) hs₂).snoc
    (hroom₂.valid_malloc (by decide) (by decide)) hs₃).snoc
    (hroom₃.valid_malloc (by decide) (by decide)) hs₄
  have hfreed := ((htaken.snoc (KernelRoom.valid_free hmem₄) hs₅).snoc
    (KernelRoom.valid_free hmem₅) hs₆).snoc (KernelRoom.valid_free hmem₆) hs₇
  refine ⟨os, p + 44, q + 44, r + 44, s₇, hstart, hfreed, hroom₇, p, q, r, fun he => hpq (he ▸ rfl),
    ((hfreed₅ p rfl).stays hstay₆ hsub₆).stays hstay₇ hsub₇, (hfreed₆ q rfl).stays hstay₇ hsub₇,
    hfreed₇ r rfl, ?_, ?_, ?_⟩
  · exact (((hstay₂.trans hstay₃).trans hlast) p hp).2.trans hsizep
  · exact ((hstay₃.trans hlast) q hq).2.trans hsizeq
  · exact (hlast r hr).2.trans hsizer

end MyaXOS
