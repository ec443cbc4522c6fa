import MyaXOS.Alloc.Calls

/-!
# The memory outside the heap

The heap has the head of the skip list and what `sbrk` has returned.  The rest of the memory in
front of it is not the allocator's: the screen, the image of the file system and the kernel are
there.

* `AllocRun.Outside` is a byte of it.  It stays outside while the heap grows, since `sbrk` returns
  memory behind what it has returned before.
* `step_outside` says that no call changes such a byte, and `heap_confined` that no run does.
* `AllocRun.Inv.write_outside` is the converse: what is written there is nothing to the allocator.

The invariant of a run knows already which bytes are spared by the calls: a byte that is outside is
one of them (`Arena.Spared`), so for each function there is little left to prove.  What has to be
seen is that a byte that is outside now is outside after the call.  The bytes are described by the
headers of the run, and these only become more; that the new one is not below an address that was
outside follows from `SbrkFresh`, since `sbrk` returns the old end of the heap.

The statement is about runs in which every copy has room, because a copy that overruns its block
may overwrite a link, and what the allocator writes to after that is unknown.

This is what the other parts of the kernel need of the heap.  `Session.lean` puts the screen and the
image in front of it, and there `heap_confined` says that neither changes while the heap is used,
and `write_outside` that the heap does not change while the screen is written to.
-/

set_option autoImplicit false

namespace MyaXOS

variable {σ ρ : Type}

/-- `x` is a byte in front of the heap, and not one of the head of the skip list. -/
def AllocRun.Outside (env : AllocEnv σ ρ) (heapEnd : σ → Nat) (s : AllocRun σ ρ) (x : Nat) :
    Prop :=
  (x < env.bigBins ∨ env.bigBins + 44 ≤ x) ∧ x < heapEnd s.heap.os ∧ ∀ p ∈ s.headers, x < p

/-- The byte is outside, and what it was.  This is kept by every call, and a part of the memory that
consists of such bytes goes through a run of the heap unchanged. -/
def AllocRun.Untouched (env : AllocEnv σ ρ) (heapEnd : σ → Nat) (x : Nat) (b : UInt8)
    (s : AllocRun σ ρ) : Prop :=
  s.Outside env heapEnd x ∧ s.heap.mem x = b

section
variable {env : AllocEnv σ ρ} {heapEnd : σ → Nat} {Ready : σ → Prop} {s t : AllocRun σ ρ}
  {A B : Arena} {n ptr size x : Nat} {b : UInt8} {heap : AllocHeap σ ρ}

namespace AllocRun.Inv

theorem spared (h : s.Inv env heapEnd Ready A) (hx : s.Outside env heapEnd x) :
    A.Spared env.bigBins (heapEnd s.heap.os) x := by
  obtain ⟨hhead, hend, hbefore⟩ := hx
  exact Or.inr ⟨hhead, hend, fun p hp => hbefore p (h.headers ▸ hp)⟩

/-- What is outside is in front of every block. -/
theorem outside_lt (h : s.Inv env heapEnd Ready A) (hlive : (ptr, n) ∈ s.live)
    (hx : s.Outside env heapEnd x) : x < ptr := by
  obtain ⟨p, hp, -⟩ := h.cell hlive
  have hcell := h.kept.accounted.cell_page hp
  have hbefore := hx.2.2 p (h.headers ▸ hp.1)
  omega

/-- **What is outside may be changed**: by the screen, by a reading into a buffer there, or by
anything else that is not the heap. -/
theorem write_outside (h : s.Inv env heapEnd Ready A) {m : Mem}
    (hsame : ∀ x, ¬ s.Outside env heapEnd x → m x = s.heap.mem x) :
    (s.withMem m).Inv env heapEnd Ready A :=
  h.write_spared fun x hx => hsame x fun hout => hx (h.spared hout)

end AllocRun.Inv

/-- The heap grows at its end. -/
theorem AllocRun.Outside.allotted (hx : s.Outside env heapEnd x)
    (h : (s.allotted heapEnd n ptr heap).Inv env heapEnd Ready B) :
    (s.allotted heapEnd n ptr heap).Outside env heapEnd x := by
  obtain ⟨hhead, hend, hbefore⟩ := hx
  by_cases hgrows : heapEnd heap.os = heapEnd s.heap.os
  · refine ⟨hhead, ?_, ?_⟩
    · show x < heapEnd heap.os
      rwa [hgrows]
    · rwa [AllocRun.allotted, if_pos hgrows]
  · have hheaders : (s.allotted heapEnd n ptr heap).headers =
        heapEnd s.heap.os :: s.headers := if_neg hgrows
    have hnew : heapEnd s.heap.os ∈ B.headers := by
      rw [h.headers, hheaders]
      exact List.mem_cons_self
    have hlt : heapEnd s.heap.os + 0x1000 ≤ heapEnd heap.os := h.kept.accounted.header_lt hnew
    refine ⟨hhead, ?_, fun p hp => ?_⟩
    · show x < heapEnd heap.os
      omega
    · rw [hheaders] at hp
      rcases List.mem_cons.mp hp with rfl | hp
      · exact hend
      · exact hbefore p hp

/-! ## The calls

One lemma for each function, and each from what is known of it: `malloc` and `free` spare what is
outside, and a write goes to a block, which is not outside.  The copy of `realloc` and the path of
`kopen` are writes to a block as long as they have room. -/

namespace AllocRun.Inv

theorem klmalloc_outside (h : s.Inv env heapEnd Ready A) (hsbrk : SbrkFresh env.sbrk heapEnd Ready)
    (hfits : CallsSbrk env n s.heap → heapEnd s.heap.os + sbrkIncrement n < 0x100000000)
    (hmalloc : MyaXOS.klmalloc env n s.heap = .ok (ptr, heap))
    (hx : s.Untouched env heapEnd x b) :
    (s.allotted heapEnd n ptr heap).Untouched env heapEnd x b := by
  obtain ⟨hout, hbyte⟩ := hx
  rcases Nat.eq_zero_or_pos n with rfl | hn
  · rw [MyaXOS.klmalloc, if_pos rfl] at hmalloc
    cases hmalloc
    rw [AllocRun.allotted, if_pos rfl, if_pos rfl]
    exact ⟨hout, hbyte⟩
  · obtain ⟨-, -, ⟨B, hinv⟩, -⟩ := h.allotted hsbrk hn hfits hmalloc
    rcases h.klmalloc hsbrk hn (h.round hn hfits) hfits with
      ⟨c, h', C, hmalloc', -, -, -, hsame⟩ | ⟨e, he, -⟩
    · cases hmalloc.symm.trans hmalloc'
      exact ⟨hout.allotted hinv, (hsame x (h.spared hout)).trans hbyte⟩
    · cases hmalloc.symm.trans he

theorem klfree_outside (h : s.Inv env heapEnd Ready A) (hlive : (ptr, n) ∈ s.live)
    (hfree : MyaXOS.klfree env ptr s.heap = .ok heap) (hx : s.Untouched env heapEnd x b) :
    AllocRun.Untouched env heapEnd x b ⟨heap, s.live.filter fun b => b.1 ≠ ptr, s.headers⟩ := by
  obtain ⟨⟨hhead, hend, hbefore⟩, hbyte⟩ := hx
  obtain ⟨heap', B, hfree', -, hinv, hsame⟩ := h.klfree hlive
  cases hfree.symm.trans hfree'
  have hos := h.klfree_os hlive hfree
  have hspared : B.Spared env.bigBins (heapEnd s.heap.os) x :=
    Or.inr ⟨hhead, hend, fun p hp => hbefore p (hinv.headers ▸ hp)⟩
  refine ⟨⟨hhead, ?_, hbefore⟩, (hsame x hspared).trans hbyte⟩
  show x < heapEnd heap.os
  rwa [hos]

/-- What is written to a block. -/
theorem block_outside (h : s.Inv env heapEnd Ready A) (hlive : (ptr, n) ∈ s.live) {m : Mem}
    (hsame : ∀ y, y < ptr → m y = s.heap.mem y) (hx : s.Untouched env heapEnd x b) :
    (s.withMem m).Untouched env heapEnd x b :=
  ⟨hx.1, (hsame x (h.outside_lt hlive hx.1)).trans hx.2⟩

/-- A `realloc` that keeps the bin. -/
theorem klrealloc_outside (h : s.Inv env heapEnd Ready A)
    (hsbrk : SbrkFresh env.sbrk heapEnd Ready) (hptr : ptr = 0 ∨ ∃ n, (ptr, n) ∈ s.live)
    (hkeeps : KeepsBin s.heap.mem ptr size)
    (hfits : Reallocates s.heap.mem ptr size → CallsSbrk env size s.heap →
      heapEnd s.heap.os + sbrkIncrement size < 0x100000000)
    {newptr : Nat} (hok : MyaXOS.klrealloc env ptr size s.heap = .ok (newptr, heap))
    (hx : s.Untouched env heapEnd x b) :
    (s.reallocated heapEnd ptr size newptr heap).Untouched env heapEnd x b := by
  -- which blocks are left in use is no matter
  show (s.allotted heapEnd size newptr heap).Untouched env heapEnd x b
  by_cases hnull : ptr = 0
  · rw [MyaXOS.klrealloc, if_pos hnull] at hok
    exact h.klmalloc_outside hsbrk (hfits (Or.inl hnull)) hok hx
  obtain ⟨n, hlive⟩ := hptr.resolve_left hnull
  by_cases hzero : size = 0
  · rw [MyaXOS.klrealloc, if_neg hnull, if_pos hzero] at hok
    obtain ⟨heap', hfree, hok⟩ := bind_eq_ok hok
    cases hok
    have hos := h.klfree_os hlive hfree
    rw [AllocRun.allotted, if_pos rfl, if_pos (congrArg heapEnd hos)]
    exact h.klfree_outside hlive hfree hx
  by_cases hstays : size ≤ read s.heap.mem (.size (ptr &&& 0xFFFFF000))
  · rw [klrealloc_stays env hnull hzero hstays] at hok
    cases hok
    rw [AllocRun.allotted, if_pos rfl]
    exact hx
  · have hmoves := Nat.lt_of_not_le hstays
    have hfits' := hfits (Or.inr ⟨hzero, hmoves⟩)
    have hsize := Nat.pos_of_ne_zero hzero
    rw [klrealloc_moves env hnull hmoves] at hok
    obtain ⟨⟨newptr', heap₁⟩, hmalloc, hok⟩ := bind_eq_ok hok
    obtain ⟨hne, hlive₁, ⟨B, hinv⟩, hkept⟩ := h.allotted hsbrk hsize hfits' hmalloc
    simp only [if_pos hne] at hok
    obtain ⟨heap₂, hfree, hok⟩ := bind_eq_ok hok
    cases hok
    have hnew : (newptr, size) ∈ (s.allotted heapEnd size newptr heap₁).live :=
      AllocRun.mem_allotted hne heap₁
    have hold : (ptr, n) ∈ (s.allotted heapEnd size newptr heap₁).live :=
      hlive₁ ▸ List.mem_cons_of_mem _ hlive
    have hroom := (h.reallocInside_iff hsbrk hlive hsize hmoves hfits' hmalloc).mpr hkeeps
    rw [oldSize_eq] at hroom
    obtain ⟨-, hcopied, -⟩ := hinv.copy hnew hold (hkept _ hlive).1.symm hroom rfl
    have hend : newptr + MyaXOS.usable heap₁.mem newptr < 0x100000000 :=
      (hinv.end_le hnew).trans_lt hinv.kept.accounted.heapEnd_lt
    have hbefore : ∀ y, y < newptr →
        memcpy heap₁.mem newptr ptr (oldSize heap₁.mem ptr) y = heap₁.mem y := fun y hy =>
      memcpy_of_outside (by rw [oldSize_eq]; omega) (Or.inl hy)
    have hcopy := hinv.block_outside hnew hbefore (h.klmalloc_outside hsbrk hfits' hmalloc hx)
    have hfreed := hcopied.klfree_outside hold hfree hcopy
    have hos : heap.os = heap₁.os := hcopied.klfree_os hold hfree
    rw [AllocRun.allotted, hos]
    exact hfreed

end AllocRun.Inv

/-- **No call touches what is outside**, if it is valid and its copy has room.  A byte that is
outside stays so, since the heap grows at its end. -/
theorem KernelCall.step_outside (h : s.Inv env heapEnd Ready A)
    (hsbrk : SbrkFresh env.sbrk heapEnd Ready) {call : KernelCall}
    (hvalid : call.Valid env heapEnd s) (hfit : call.TerminatorFits s) (hkeeps : call.KeepsBin s)
    (hstep : call.step env heapEnd s = .ok t) (hx : s.Untouched env heapEnd x b) :
    t.Untouched env heapEnd x b := by
  cases call with
  | alloc call =>
    cases call with
    | malloc size =>
      simp only [KernelCall.step, AllocCall.step] at hstep
      split at hstep
      · next ptr heap hmalloc =>
        cases hstep
        exact h.klmalloc_outside hsbrk hvalid.2 hmalloc hx
      · cases hstep
    | free ptr =>
      simp only [KernelCall.step, AllocCall.step] at hstep
      split at hstep
      · next heap hfree =>
        cases hstep
        rcases hvalid with rfl | ⟨n, hlive⟩
        · rw [MyaXOS.klfree, if_pos rfl] at hfree
          cases hfree
          exact hx
        · exact h.klfree_outside hlive hfree hx
      · cases hstep
    | write a c =>
      obtain ⟨ptr, n, hlive, hle, -⟩ := hvalid
      cases hstep
      exact h.block_outside hlive (fun y hy => Mem.store8_of_ne c (by omega)) hx
  | realloc ptr size =>
    obtain ⟨⟨newptr, heap⟩, hok, hstep⟩ := bind_eq_ok hstep
    cases hstep
    exact h.klrealloc_outside hsbrk hvalid.1 hkeeps (fun hmoves => (hvalid.2 hmoves).2) hok hx
  | kopen filename =>
    obtain ⟨pathLen, hlen, hpos, hfits⟩ := hvalid
    rw [KernelCall.step, hlen, ok_bind] at hstep
    obtain ⟨⟨path, heap⟩, hmalloc, hstep⟩ := bind_eq_ok hstep
    cases hstep
    obtain ⟨hne, -, ⟨B, hinv⟩, -⟩ := h.allotted hsbrk hpos hfits hmalloc
    have hinside := ((h.pathInside_iff hsbrk hpos hfits hmalloc filename).1.mpr
      (hfit pathLen hlen)).inside
    refine hinv.block_outside (AllocRun.mem_allotted hne heap) (fun y hy => ?_)
      (h.klmalloc_outside hsbrk hfits hmalloc hx)
    show (Vfs.copyPath heap.mem path filename pathLen).1 y = heap.mem y
    rw [Vfs.copyPath_eq_storeAll]
    refine Mem.storeAll_of_forall_ne fun w hw => ?_
    have hle := (hinside w hw).1
    omega

end

/-- **The heap keeps to itself.**  In a run of valid calls in which every copy has room, each byte
in front of the heap that is not in the head of the skip list is always what it was at the start.
The bitmap and the page tables of `sbrk` are not in this memory. -/
theorem heap_confined (env : AllocEnv σ ρ) (heapEnd : σ → Nat) (Ready : σ → Prop)
    (hsbrk : SbrkFresh env.sbrk heapEnd Ready) (s : AllocRun σ ρ)
    (hstart : s.Start env heapEnd Ready) (calls : List KernelCall)
    (hvalid : Runs.Along (KernelCall.step env heapEnd) (KernelCall.Valid env heapEnd) calls s)
    (hfit : Runs.Along (KernelCall.step env heapEnd) KernelCall.TerminatorFits calls s)
    (hkeeps : Runs.Along (KernelCall.step env heapEnd) KernelCall.KeepsBin calls s) (x : Nat)
    (hhead : x < env.bigBins ∨ env.bigBins + 44 ≤ x) (hend : x < heapEnd s.heap.os) :
    Runs.Always (KernelCall.step env heapEnd) (fun t => t.heap.mem x = s.heap.mem x) calls s := by
  have hbefore : ∀ p ∈ s.headers, x < p := by
    rw [hstart.headers]
    exact fun p hp => absurd hp List.not_mem_nil
  refine (Runs.along_always (P := fun t => (∃ A, t.Inv env heapEnd Ready A) ∧
    t.Untouched env heapEnd x (s.heap.mem x)) (fun call t t' ht hcall hstep => ?_)
    ⟨⟨_, hstart.inv hsbrk⟩, ⟨hhead, hend, hbefore⟩, rfl⟩
    ((hvalid.and hfit).and hkeeps)).imp fun t ht => ht.2.2
  obtain ⟨⟨A, hA⟩, hx⟩ := ht
  exact ⟨KernelCall.step_inv hA hsbrk hcall.1.1 hcall.1.2 hcall.2 hstep,
    KernelCall.step_outside hA hsbrk hcall.1.1 hcall.1.2 hcall.2 hstep hx⟩

/-- The first cell of the screen, while a block grows to a hundred bytes. -/
theorem heap_confined_screen : ∃ os,
    Runs.Always (KernelCall.step kernelEnv Paging.heapEnd)
      (fun t => t.heap.mem 0xB8000 = (kernelStart os).heap.mem 0xB8000)
      (oneBlock (.realloc 0x20400C 100)) (kernelStart os) := by
  obtain ⟨os, s, h⟩ := exists_oneBlock
  have hvalid : (KernelCall.realloc 0x20400C 100).Valid kernelEnv Paging.heapEnd s := by
    refine ⟨Or.inr ⟨16, h.block⟩, fun _ => ⟨by decide, fun _ => ?_⟩⟩
    show s.heap.os.heapEnd + sbrkIncrement 100 < 0x100000000
    rw [h.heapEnd]
    decide
  have hkeeps : (KernelCall.realloc 0x20400C 100).KeepsBin s := fun _ _ _ _ => by
    rw [show 0x20400C &&& 0xFFFFF000 = 0x204000 by decide, h.size]
    decide
  have hend : 0xB8000 < (kernelStart os).heap.os.heapEnd := by
    have hbelow := h.start.head_below
    exact Nat.lt_of_lt_of_le (by decide) hbelow
  exact ⟨os, heap_confined kernelEnv Paging.heapEnd KernelReady kernel_sbrk_fresh _ h.start _
    (h.valid hvalid) (h.along (fun _ _ => trivial) trivial)
    (h.along (fun _ _ => trivial) hkeeps) 0xB8000 (Or.inl (by decide)) hend⟩

end MyaXOS
