import MyaXOS.Alloc.Blocks

/-!
# `klrealloc`

A block that is long enough by its header stays where it is; otherwise a new one is taken, as many
bytes as the old block has are copied, and the old block is given back.

The field `size` of the header is the number of a bin for a small block and a length for a big one,
and it is compared with the new size as it stands.  So a small block that shrinks moves too, and if
it moves to a lower bin then what is copied is longer than the new block.  `KeepsBin` excludes this;
`AllocRun.Inv.klrealloc` says that all is well then.

**Two ways.**  `klrealloc_stays` and `klrealloc_moves` are the two ways through the function, with
the condition that decides between them, `Reallocates`.  The first changes nothing in memory, so all
that is left to see is that the block is long enough for what it is used for from now on
(`Inv.resize`).  The second is three calls: `malloc`, a copy, and `free`.

**The copy.**  While it runs the old and the new block are both in use, and so they are apart; this
is why `memcpy`, which asks for operands that do not overlap, is right here.  It spares everything
but the new block if it is not longer than that, and the lemma `Inv.copy` has this as a hypothesis.
Where it comes from is `Inv.room`: a block that keeps its bin, or that goes into a higher one, has
at least the length of the old block.  `oldSize_eq` says that `old_size` is the whole length of the
block, so nothing is left behind either.

**What is promised.**  `Reallocated` says what `realloc` does for those who hold the block: the
first bytes are those of the old block, as many as both have, the new block is long enough, and all
other blocks are as they were.  `ReallocRight` adds that the function returns unless `sbrk` stops
it.  The calls of a run that go through `malloc` share the state `AllocRun.allotted`, which is what
is known of a state in which `malloc` has just returned.
-/

set_option autoImplicit false

namespace MyaXOS

variable {σ ρ : Type}

/-- `old_size`: how much of the block at `ptr` is copied. -/
def oldSize (m : Mem) (ptr : Nat) : Nat :=
  let oldSize := read m (.size (ptr &&& 0xFFFFF000))
  if oldSize < 10 then 1 <<< (2 + oldSize) else oldSize

/-- `klrealloc(ptr, size)`. -/
def klrealloc (env : AllocEnv σ ρ) (ptr size : Nat) (h : AllocHeap σ ρ) :
    Except Stop (Nat × AllocHeap σ ρ) :=
  if ptr = 0 then klmalloc env size h
  else if size = 0 then do
    let h ← klfree env ptr h
    .ok (0, h)
  else if size ≤ read h.mem (.size (ptr &&& 0xFFFFF000)) then .ok (ptr, h)
  else do
    let (newptr, h) ← klmalloc env size h
    if newptr ≠ 0 then
      let h := { h with mem := memcpy h.mem newptr ptr (oldSize h.mem ptr) }
      let h ← klfree env ptr h
      .ok (newptr, h)
    else .ok (0, h)

/-- The way through `klrealloc` that takes a new block. -/
theorem klrealloc_moves (env : AllocEnv σ ρ) {ptr size : Nat} {h : AllocHeap σ ρ} (hptr : ptr ≠ 0)
    (hmoves : read h.mem (.size (ptr &&& 0xFFFFF000)) < size) :
    klrealloc env ptr size h = (do
      let (newptr, h) ← klmalloc env size h
      if newptr ≠ 0 then
        let h := { h with mem := memcpy h.mem newptr ptr (oldSize h.mem ptr) }
        let h ← klfree env ptr h
        .ok (newptr, h)
      else .ok (0, h)) := by
  rw [klrealloc, if_neg hptr, if_neg (Nat.ne_zero_of_lt hmoves), if_neg (Nat.not_le.mpr hmoves)]

/-- The way that leaves the block where it is. -/
theorem klrealloc_stays (env : AllocEnv σ ρ) {ptr size : Nat} {h : AllocHeap σ ρ} (hptr : ptr ≠ 0)
    (hsize : size ≠ 0) (hstays : size ≤ read h.mem (.size (ptr &&& 0xFFFFF000))) :
    klrealloc env ptr size h = .ok (ptr, h) := by
  rw [klrealloc, if_neg hptr, if_neg hsize, if_pos hstays]

/-- What is copied is the block, all of it. -/
theorem oldSize_eq (m : Mem) (ptr : Nat) : oldSize m ptr = usable m ptr := by
  rw [oldSize, usable, capacity]
  simp only [Nat.shiftLeft_eq, Nat.one_mul]

/-- Does `realloc(ptr, size)` call `malloc`? -/
def Reallocates (m : Mem) (ptr size : Nat) : Prop :=
  ptr = 0 ∨ size ≠ 0 ∧ read m (.size (ptr &&& 0xFFFFF000)) < size

/-- A small block that moves does not move to a lower bin. -/
def KeepsBin (m : Mem) (ptr size : Nat) : Prop :=
  ptr ≠ 0 → size ≠ 0 → read m (.size (ptr &&& 0xFFFFF000)) < 10 →
    read m (.size (ptr &&& 0xFFFFF000)) < size →
    read m (.size (ptr &&& 0xFFFFF000)) ≤ klmallocBinSize size

/-! ## The state after

`realloc` is a `malloc`, a copy and a `free`, and these definitions are the states in between, as
`kopen` has them too.  What `Reallocated` promises is said of the states before and after; the way
in between does not occur in it. -/

namespace AllocRun

/-- The state after `malloc(size)` has returned `ptr`. -/
def allotted (heapEnd : σ → Nat) (s : AllocRun σ ρ) (size ptr : Nat) (heap : AllocHeap σ ρ) :
    AllocRun σ ρ :=
  ⟨heap, if ptr = 0 then s.live else (ptr, size) :: s.live,
    if heapEnd heap.os = heapEnd s.heap.os then s.headers else heapEnd s.heap.os :: s.headers⟩

/-- A block that has been given out is in use. -/
theorem mem_allotted {heapEnd : σ → Nat} {s : AllocRun σ ρ} {size ptr : Nat} (hne : ptr ≠ 0)
    (heap : AllocHeap σ ρ) : (ptr, size) ∈ (s.allotted heapEnd size ptr heap).live := by
  rw [allotted, if_neg hne]
  exact List.mem_cons_self

/-- `malloc(size)`. -/
def malloc (env : AllocEnv σ ρ) (heapEnd : σ → Nat) (size : Nat) (s : AllocRun σ ρ) :
    Except Stop (Nat × AllocRun σ ρ) := do
  let (ptr, heap) ← klmalloc env size s.heap
  .ok (ptr, s.allotted heapEnd size ptr heap)

theorem mem_malloc {env : AllocEnv σ ρ} {heapEnd : σ → Nat} {s t : AllocRun σ ρ} {size ptr : Nat}
    (hne : ptr ≠ 0) (hok : s.malloc env heapEnd size = .ok (ptr, t)) : (ptr, size) ∈ t.live := by
  obtain ⟨⟨ptr', heap⟩, -, hok⟩ := bind_eq_ok hok
  cases hok
  exact mem_allotted hne heap

/-- `free(ptr)`. -/
def free (env : AllocEnv σ ρ) (ptr : Nat) (s : AllocRun σ ρ) : Except Stop (AllocRun σ ρ) := do
  let heap ← klfree env ptr s.heap
  .ok ⟨heap, s.live.filter fun b => b.1 ≠ ptr, s.headers⟩

/-- The state after `realloc(ptr, size)` has returned `newptr`. -/
def reallocated (heapEnd : σ → Nat) (s : AllocRun σ ρ) (ptr size newptr : Nat)
    (heap : AllocHeap σ ρ) : AllocRun σ ρ :=
  { s.allotted heapEnd size newptr heap with
    live :=
      if newptr ≠ 0 then (newptr, size) :: s.live.filter fun b => b.1 ≠ ptr
      else if size = 0 then s.live.filter fun b => b.1 ≠ ptr
      else s.live }

/-- What `realloc(ptr, size)` promises when it has returned `newptr` in the state `s'`.  It is about
the contents of the block that has moved, about those of all other blocks, and about the heap as a
whole, since the old block has been given back in between. -/
structure Reallocated (env : AllocEnv σ ρ) (s : AllocRun σ ρ) (ptr size newptr : Nat)
    (s' : AllocRun σ ρ) : Prop where
  nonzero : newptr ≠ 0
  long_enough : size ≤ usable s'.heap.mem newptr
  /-- The bytes of the old block are there, as many of them as there is room for in `size`. -/
  same : ∀ i < min (usable s.heap.mem ptr) size,
    s'.heap.mem (newptr + i) = s.heap.mem (ptr + i)
  others : ∀ b ∈ s.live, b.1 ≠ ptr → ∀ x, b.1 ≤ x → x < b.1 + usable s.heap.mem b.1 →
    s'.heap.mem x = s.heap.mem x
  sound : AllocSound env s'
  whole : FreeListsWhole env s'

/-- `realloc(ptr, size)` does what it promises, or `sbrk` stops it.  If it takes a new block, then
the copy spares the other blocks and every link. -/
structure ReallocRight (env : AllocEnv σ ρ) (heapEnd : σ → Nat) (s : AllocRun σ ρ)
    (ptr size : Nat) : Prop where
  returns : (∃ newptr heap, klrealloc env ptr size s.heap = .ok (newptr, heap) ∧
      s.Reallocated env ptr size newptr (s.reallocated heapEnd ptr size newptr heap)) ∨
    ∃ e, klrealloc env ptr size s.heap = .error e ∧
      env.sbrk (sbrkIncrement size) s.heap.os = .error e
  copy : Reallocates s.heap.mem ptr size → ∀ newptr heap,
    klmalloc env size s.heap = .ok (newptr, heap) →
    (s.allotted heapEnd size newptr heap).Spares env newptr
      (memcpy heap.mem newptr ptr (oldSize heap.mem ptr))

end AllocRun

/-! ## The same block for another size

If the block is large enough then nothing changes in memory.  What changes is the size that was
asked for: in the arena this is a `resize`, which keeps the geometry, the lists and the memory, and
only the account has to be looked at. -/

/-- The block at `ptr` is used for `n` bytes from now on. -/
def Arena.resize (A : Arena) (ptr n : Nat) : Arena :=
  { A with live := (ptr, n) :: A.live.filter fun b => b.1 ≠ ptr }

section
variable {A : Arena} {bigBins heapEnd n p ptr : Nat} {h : AllocHeap σ ρ}

theorem Arena.Accounted.resize (hA : A.Accounted bigBins heapEnd) (hp : A.Cell p ptr)
    (hused : A.InUse ptr) (hn : n ≤ capacity (A.size p)) :
    (A.resize ptr n).Accounted bigBins heapEnd where
  toLayout := ⟨hA.head_word, hA.head_below, hA.page, hA.above, hA.below, hA.apart, hA.size_cases,
    hA.free_cell, hA.free_nodup, hA.heapEnd_page, hA.heapEnd_lt⟩
  inUse_iff a := by
    refine Iff.trans ?_ (hA.inUse_iff a)
    by_cases ha : a = ptr
    · subst ha
      exact iff_of_true ⟨n, List.mem_cons_self⟩ hused
    · simp [Arena.InUse, Arena.resize, ha]
  live_nodup := by
    refine List.nodup_cons.mpr ⟨fun hmem => ?_, hA.live_nodup.sublist (List.filter_sublist.map _)⟩
    obtain ⟨b, hb, hb'⟩ := List.mem_map.mp hmem
    simpa [hb'] using (List.mem_filter.mp hb).2
  fits a k hk q hq := by
    rcases List.mem_cons.mp hk with heq | hmem
    · cases heq
      obtain rfl : p = q := hA.cell_unique hp hq
      exact hn
    · exact hA.fits a k (List.mem_of_mem_filter hmem) q hq

theorem Kept.resize (hk : Kept A bigBins heapEnd h) (hp : A.Cell p ptr) (hused : A.InUse ptr)
    (hn : n ≤ capacity (A.size p)) : Kept (A.resize ptr n) bigBins heapEnd h :=
  ⟨hk.accounted.resize hp hused hn, ⟨hk.indexed.listed_iff, hk.indexed.freed_iff⟩,
    ⟨hk.stored.size, hk.stored.free, hk.stored.listed, hk.stored.listed_header, hk.stored.chain,
      hk.stored.chain_header, hk.stored.newest⟩⟩

end

namespace AllocRun.Inv

variable {env : AllocEnv σ ρ} {heapEnd : σ → Nat} {Ready : σ → Prop} {s t : AllocRun σ ρ}
  {A B : Arena} {n p ptr size newptr : Nat} {heap : AllocHeap σ ρ}

/-- No two blocks in use have the same address. -/
theorem live_nodup (h : s.Inv env heapEnd Ready A) : (s.live.map Prod.fst).Nodup :=
  h.live ▸ h.kept.accounted.live_nodup

/-- A byte of a block in use, asked for or not, is data. -/
theorem data_usable (h : s.Inv env heapEnd Ready A) (hlive : (ptr, n) ∈ s.live) {x : Nat}
    (hle : ptr ≤ x) (hlt : x < ptr + MyaXOS.usable s.heap.mem ptr) : A.Data x := by
  obtain ⟨p, hp, hnot, -⟩ := h.cell hlive
  exact ⟨p, ptr, hp, hnot, hle, by rwa [h.usable hp] at hlt⟩

/-- A block is as long as it was if the headers are what they were. -/
theorem usable_congr (h : s.Inv env heapEnd Ready A) (h' : t.Inv env heapEnd Ready B)
    (hheaders : ∀ p ∈ s.headers, p ∈ t.headers) (hsize : ∀ p ∈ A.headers, B.size p = A.size p)
    (hlive : (ptr, n) ∈ s.live) :
    MyaXOS.usable t.heap.mem ptr = MyaXOS.usable s.heap.mem ptr := by
  obtain ⟨p, hp, -⟩ := h.cell hlive
  have hcell : B.Cell p ptr := by
    refine ⟨?_, by rw [hsize p hp.1]; exact hp.2⟩
    rw [h'.headers]
    exact hheaders p (h.headers ▸ hp.1)
  rw [h.usable hp, h'.usable hcell, hsize p hp.1]

/-- `free` does not call `sbrk`. -/
theorem klfree_os (h : s.Inv env heapEnd Ready A) (hlive : (ptr, n) ∈ s.live)
    (hfree : MyaXOS.klfree env ptr s.heap = .ok heap) : heap.os = s.heap.os := by
  obtain ⟨p, hp, -⟩ := h.cell hlive
  have hused : A.InUse ptr := ⟨n, h.live ▸ hlive⟩
  by_cases hsmall : A.size p < 10
  · obtain ⟨h', B, hfree', hos, -⟩ := h.kept.klfree_small hp hused hsmall
    cases hfree.symm.trans hfree'
    exact hos
  · obtain ⟨h', B, hfree', hos, -⟩ := h.kept.klfree_big rfl hp hused hsmall
    cases hfree.symm.trans hfree'
    exact hos

/-- **A block that stays** where it is.  Its contents and all of memory are as before, and the
blocks in use are the same but for the size of this one. -/
theorem resize (h : s.Inv env heapEnd Ready A) (hlive : (ptr, n) ∈ s.live)
    (hsize : size ≤ read s.heap.mem (.size (ptr &&& 0xFFFFF000))) :
    AllocRun.Inv env heapEnd Ready
      { s with live := (ptr, size) :: s.live.filter fun b => b.1 ≠ ptr } (A.resize ptr size) := by
  obtain ⟨p, hp, -⟩ := h.cell hlive
  rw [Kept.header_eq h.kept.accounted.toLayout hp, h.kept.stored.size p hp.1] at hsize
  have hfits : size ≤ capacity (A.size p) := by
    rw [capacity]
    split
    · have hpow : A.size p < 2 ^ A.size p := Nat.lt_two_pow_self
      have hle : 2 ^ A.size p ≤ 2 ^ (2 + A.size p) := Nat.pow_le_pow_right (by decide) (by omega)
      omega
    · exact hsize
  refine ⟨h.kept.resize hp ⟨n, h.live ▸ hlive⟩ hfits, ?_, h.headers, h.ready⟩
  rw [Arena.resize, h.live]

/-! ## A new block

The three parts, with the invariant of a run at the end of each.  The copy is the one that may go
wrong, since it copies all of the old block.  `room` is why it does not if the block keeps its bin:
a small block then goes to a bin whose blocks are at least as long, or to a big block, which is
longer than any small one; and a big block moves only if more is asked for than it has. -/

/-- **What `malloc` leaves** when it returns: a new block, and the others as they were. -/
theorem allotted (h : s.Inv env heapEnd Ready A) (hsbrk : SbrkFresh env.sbrk heapEnd Ready)
    (hsize : 0 < size)
    (hfits : CallsSbrk env size s.heap → heapEnd s.heap.os + sbrkIncrement size < 0x100000000)
    (hmalloc : MyaXOS.klmalloc env size s.heap = .ok (newptr, heap)) :
    newptr ≠ 0 ∧ (s.allotted heapEnd size newptr heap).live = (newptr, size) :: s.live ∧
    (∃ B, (s.allotted heapEnd size newptr heap).Inv env heapEnd Ready B) ∧
    ∀ b ∈ s.live, b.1 ≠ newptr ∧ MyaXOS.usable heap.mem b.1 = MyaXOS.usable s.heap.mem b.1 ∧
      ∀ x, b.1 ≤ x → x < b.1 + MyaXOS.usable s.heap.mem b.1 → heap.mem x = s.heap.mem x := by
  rcases h.klmalloc hsbrk hsize (h.round hsize hfits) hfits with
    ⟨c, h', B, hmalloc', hc, hgives, hinv, hdata⟩ | ⟨e, he, -⟩
  · cases hmalloc.symm.trans hmalloc'
    have hstate : s.allotted heapEnd size newptr heap = ⟨heap, (newptr, size) :: s.live,
        if heapEnd heap.os = heapEnd s.heap.os then s.headers
        else heapEnd s.heap.os :: s.headers⟩ := by
      rw [AllocRun.allotted, if_neg hc]
    rw [hstate]
    refine ⟨hc, rfl, ⟨B, hinv⟩, fun b hb => ⟨fun he => ?_, ?_, fun x hle hlt => ?_⟩⟩
    · exact (List.nodup_cons.mp hinv.live_nodup).1 (List.mem_map.mpr ⟨b, hb, he⟩)
    · refine h.usable_congr hinv (fun p hp => ?_) hgives.size hb
      simp only
      split
      · exact hp
      · exact List.mem_cons_of_mem _ hp
    · exact hdata x (Or.inl (h.data_usable hb hle hlt))
  · cases hmalloc.symm.trans he

/-- **The copy** into another block that is at least as long.  It writes to data of the new block
only, so the invariant is kept, and it reads a block that it does not write to. -/
theorem copy (h : s.Inv env heapEnd Ready A) {k : Nat} (hnew : (newptr, k) ∈ s.live)
    (hold : (ptr, n) ∈ s.live) (hne : newptr ≠ ptr)
    (hroom : MyaXOS.usable s.heap.mem ptr ≤ MyaXOS.usable s.heap.mem newptr) {m : Mem}
    (hm : m = memcpy s.heap.mem newptr ptr (oldSize s.heap.mem ptr)) :
    s.Spares env newptr m ∧
    AllocRun.Inv env heapEnd Ready { s with heap := { s.heap with mem := m } } A ∧
    ∀ i < MyaXOS.usable s.heap.mem ptr, m (newptr + i) = s.heap.mem (ptr + i) := by
  obtain ⟨p, hp, -⟩ := h.cell hnew
  obtain ⟨q, hq, -⟩ := h.cell hold
  have hL := h.kept.accounted.toLayout
  have hend := hL.heapEnd_lt
  have hlt := hL.cell_lt hp
  have hlt' := hL.cell_lt hq
  have hdisjoint := hL.disjoint hp hq hne
  rw [← h.usable hp, ← h.usable hq] at hdisjoint
  rw [← h.usable hp] at hlt
  rw [← h.usable hq] at hlt'
  rw [oldSize_eq] at hm
  obtain ⟨hspares, hinv⟩ := h.spares (m := m) hnew fun x hx => by
    rw [hm]
    exact memcpy_of_outside (by omega) (by omega)
  refine ⟨hspares, hinv, fun i hi => ?_⟩
  rw [hm]
  exact memcpy_apply (by omega) (by omega) (by omega) hi

/-- A block that keeps its bin has room in the new one. -/
theorem room (h : s.Inv env heapEnd Ready A) (hsbrk : SbrkFresh env.sbrk heapEnd Ready)
    (hlive : (ptr, n) ∈ s.live) (hsize : 0 < size)
    (hmoves : read s.heap.mem (.size (ptr &&& 0xFFFFF000)) < size)
    (hkeeps : KeepsBin s.heap.mem ptr size)
    (hfits : CallsSbrk env size s.heap → heapEnd s.heap.os + sbrkIncrement size < 0x100000000)
    (hmalloc : MyaXOS.klmalloc env size s.heap = .ok (newptr, heap))
    (hlong : size ≤ MyaXOS.usable heap.mem newptr) :
    MyaXOS.usable s.heap.mem ptr ≤ MyaXOS.usable heap.mem newptr := by
  obtain ⟨p, hp, -⟩ := h.cell hlive
  have hpos := h.kept.accounted.cell_page hp
  have hbin := (klmallocBinSize_spec hsize).1
  have husable := h.usable_klmalloc hsbrk hsize hfits hmalloc
  have hmono : ∀ {i j : Nat}, i ≤ j → 2 ^ i ≤ 2 ^ j := fun hij =>
    Nat.pow_le_pow_right (by decide) hij
  rw [KeepsBin] at hkeeps
  rw [MyaXOS.usable, capacity]
  split
  · next hsmall =>
    have hle := hkeeps (by omega) (by omega) hsmall hmoves
    by_cases hnew : klmallocBinSize size < 10
    · rw [husable, if_pos hnew]
      exact hmono (by omega)
    · -- a big block is longer than any block of a bin
      have hpow : 2 ^ (2 + read s.heap.mem (.size (ptr &&& 0xFFFFF000))) ≤ 2 ^ 11 :=
        hmono (by omega)
      have hgt : 2048 < size := Nat.lt_of_not_le fun hle => hnew (hbin.mpr hle)
      exact (hpow.trans hgt.le).trans hlong
  · exact hmoves.le.trans hlong

/-- What a copied block becomes when the old one is given back. -/
theorem moved (h : s.Inv env heapEnd Ready A) (hsbrk : SbrkFresh env.sbrk heapEnd Ready)
    (hlive : (ptr, n) ∈ s.live) (hsize : 0 < size)
    (hmoves : read s.heap.mem (.size (ptr &&& 0xFFFFF000)) < size)
    (hkeeps : KeepsBin s.heap.mem ptr size)
    (hfits : CallsSbrk env size s.heap → heapEnd s.heap.os + sbrkIncrement size < 0x100000000)
    (hmalloc : MyaXOS.klmalloc env size s.heap = .ok (newptr, heap)) :
    (s.allotted heapEnd size newptr heap).Spares env newptr
      (memcpy heap.mem newptr ptr (oldSize heap.mem ptr)) ∧
    ∃ heap' B, MyaXOS.klfree env ptr
        { heap with mem := memcpy heap.mem newptr ptr (oldSize heap.mem ptr) } = .ok heap' ∧
      (s.reallocated heapEnd ptr size newptr heap').Inv env heapEnd Ready B ∧
      s.Reallocated env ptr size newptr (s.reallocated heapEnd ptr size newptr heap') := by
  obtain ⟨hne, hlive₁, ⟨B, hinv⟩, hkept⟩ := h.allotted hsbrk hsize hfits hmalloc
  have hnew : (newptr, size) ∈ (s.allotted heapEnd size newptr heap).live := mem_allotted hne heap
  have hold : ∀ {b}, b ∈ s.live → b ∈ (s.allotted heapEnd size newptr heap).live := fun hb =>
    hlive₁ ▸ List.mem_cons_of_mem _ hb
  obtain ⟨hdistinct, husable, hsame⟩ := hkept _ hlive
  have hroom := h.room hsbrk hlive hsize hmoves hkeeps hfits hmalloc
    (hinv.sound.long_enough _ hnew)
  obtain ⟨m, hm⟩ : ∃ m, m = memcpy heap.mem newptr ptr (oldSize heap.mem ptr) := ⟨_, rfl⟩
  obtain ⟨hspares, hinv', hcopied⟩ := hinv.copy hnew (hold hlive) hdistinct.symm
    (husable.le.trans hroom) hm
  rw [← hm]
  obtain ⟨heap', C, hfree, hsizes, hinv'', hdata⟩ := hinv'.klfree (hold hlive)
  have hos : heap'.os = heap.os := hinv'.klfree_os (hold hlive) hfree
  have hstate : s.reallocated heapEnd ptr size newptr heap' =
      ⟨heap', (s.allotted heapEnd size newptr heap).live.filter fun b => b.1 ≠ ptr,
        (s.allotted heapEnd size newptr heap).headers⟩ := by
    rw [AllocRun.reallocated, AllocRun.allotted, if_pos hne, hlive₁, hos]
    simp [hdistinct.symm, AllocRun.allotted]
  rw [← hstate] at hinv''
  have hlive₂ : ∀ {b}, b ∈ (s.allotted heapEnd size newptr heap).live → b.1 ≠ ptr →
      b ∈ (s.reallocated heapEnd ptr size newptr heap').live := fun hb hb' => by
    rw [hstate]
    exact List.mem_filter.mpr ⟨hb, by simpa using hb'⟩
  -- neither the copy nor `free` changes a header, so the blocks keep their lengths
  have husable₂ : ∀ b ∈ (s.allotted heapEnd size newptr heap).live,
      MyaXOS.usable heap'.mem b.1 = MyaXOS.usable heap.mem b.1 := fun b hb => by
    refine (hinv'.usable_congr hinv'' (fun p hp => ?_) (fun p _ => by rw [hsizes]) hb).trans
      (hinv.usable_congr hinv' (fun p hp => hp) (fun p _ => rfl) hb)
    rw [hstate]
    exact hp
  have hdata₂ : ∀ b ∈ (s.allotted heapEnd size newptr heap).live, b.1 ≠ ptr → ∀ x, b.1 ≤ x →
      x < b.1 + MyaXOS.usable heap.mem b.1 → heap'.mem x = m x := fun b hb hb' x hle hlt => by
    refine hdata x (Or.inl (hinv''.data_usable (hlive₂ hb hb') hle ?_))
    rw [← husable₂ b hb] at hlt
    exact hlt
  refine ⟨hspares, heap', C, hfree, hinv'', hne, ?_, fun i hi => ?_, fun b hb hb' x hle hlt => ?_,
    hinv''.sound, hinv''.whole⟩
  · exact hinv''.sound.long_enough _ (hlive₂ hnew hdistinct.symm)
  · obtain ⟨hi_old, hi_size⟩ := lt_min_iff.mp hi
    have hi_new := hi_size.trans_le (hinv.sound.long_enough _ hnew)
    calc heap'.mem (newptr + i)
        = m (newptr + i) := hdata₂ _ hnew hdistinct.symm _ (Nat.le_add_right ..)
          (Nat.add_lt_add_left hi_new _)
      _ = heap.mem (ptr + i) := hcopied i (hi_old.trans_eq husable.symm)
      _ = s.heap.mem (ptr + i) := hsame _ (Nat.le_add_right ..) (Nat.add_lt_add_left hi_old _)
  · obtain ⟨hb₁, husable₁, hsame₁⟩ := hkept b hb
    calc heap'.mem x
        = m x := hdata₂ b (hold hb) hb' x hle (by omega)
      _ = heap.mem x := hspares.blocks b (hold hb) hb₁ x hle (husable₁.symm ▸ hlt)
      _ = s.heap.mem x := hsame₁ x hle hlt

/-! ## `realloc`

The three ways through `klrealloc` put together.  That the pointer is not `NULL` comes from the
geometry: no header is at 0. -/

theorem ne_zero (h : s.Inv env heapEnd Ready A) (hlive : (ptr, n) ∈ s.live) : ptr ≠ 0 := by
  obtain ⟨p, hp, -⟩ := h.cell hlive
  have := h.kept.accounted.cell_page hp
  omega

/-- **`realloc` of a block in use** that keeps its bin: it does what it promises, and the run goes
on. -/
theorem klrealloc (h : s.Inv env heapEnd Ready A) (hsbrk : SbrkFresh env.sbrk heapEnd Ready)
    (hlive : (ptr, n) ∈ s.live) (hsize : 0 < size) (hkeeps : KeepsBin s.heap.mem ptr size)
    (hfits : Reallocates s.heap.mem ptr size → CallsSbrk env size s.heap →
      heapEnd s.heap.os + sbrkIncrement size < 0x100000000) :
    s.ReallocRight env heapEnd ptr size ∧
    ∀ newptr heap, MyaXOS.klrealloc env ptr size s.heap = .ok (newptr, heap) →
      ∃ B, (s.reallocated heapEnd ptr size newptr heap).Inv env heapEnd Ready B := by
  have hptr := h.ne_zero hlive
  rcases Nat.lt_or_ge (read s.heap.mem (.size (ptr &&& 0xFFFFF000))) size with hmoves | hstays
  · have hfits' := hfits (Or.inr ⟨by omega, hmoves⟩)
    have heq := klrealloc_moves env hptr hmoves
    rcases h.klmalloc hsbrk hsize (h.round hsize hfits') hfits' with
      ⟨c, h', -, hmalloc, hc, -⟩ | ⟨e, he, -, hstop⟩
    · obtain ⟨hspares, heap', B, hfree, hinv, hright⟩ :=
        h.moved hsbrk hlive hsize hmoves hkeeps hfits' hmalloc
      have hok : MyaXOS.klrealloc env ptr size s.heap = .ok (c, heap') := by
        rw [heq, hmalloc, ok_bind]
        simp only [if_pos hc, hfree, ok_bind]
      refine ⟨⟨Or.inl ⟨c, heap', hok, hright⟩, fun _ newptr heap hmalloc' => ?_⟩,
        fun newptr heap hok' => ?_⟩
      · cases hmalloc.symm.trans hmalloc'
        exact hspares
      · cases hok.symm.trans hok'
        exact ⟨B, hinv⟩
    · have hstop' : MyaXOS.klrealloc env ptr size s.heap = .error e := by
        rw [heq, he, error_bind]
      refine ⟨⟨Or.inr ⟨e, hstop', hstop⟩, fun _ newptr heap hmalloc' => ?_⟩,
        fun newptr heap hok => ?_⟩
      · cases he.symm.trans hmalloc'
      · cases hstop'.symm.trans hok
  · have heq := klrealloc_stays env hptr hsize.ne' hstays
    have hstate : s.reallocated heapEnd ptr size ptr s.heap =
        { s with live := (ptr, size) :: s.live.filter fun b => b.1 ≠ ptr } := by
      simp only [AllocRun.reallocated, AllocRun.allotted, if_true, ne_eq, hptr, not_false_eq_true]
    have hinv := h.resize hlive hstays
    rw [← hstate] at hinv
    refine ⟨⟨Or.inl ⟨ptr, s.heap, heq, hptr, ?_, fun i _ => rfl, fun b _ _ x _ _ => rfl, hinv.sound,
      hinv.whole⟩, fun hmoves => ?_⟩, fun newptr heap hok => ?_⟩
    · exact hinv.sound.long_enough (ptr, size) (by rw [hstate]; exact List.mem_cons_self)
    · rcases hmoves with hnull | ⟨-, hlt⟩
      · exact absurd hnull hptr
      · omega
    · cases heq.symm.trans hok
      exact ⟨_, hinv⟩

end AllocRun.Inv

end MyaXOS
