import MyaXOS.Alloc.Kernel

/-!
# The skip list of the freed big blocks

`BigBins bigBins h chain` says what a well-formed list is, whatever else is in the heap: the levels
`chain i` are linked through the headers of blocks that do not overlap.

* `Unlinks` is what `klmalloc_skip_list_delete` is for: the call returns, and the list has the other
  members, on every level and in their order.
* `unlinks_iff`: it does this for the first member of a size.  For a later one the search stops in
  front of the first, which is not the block to be unlinked, and the list stays as it is
  (`BigBins.delete_later`).
* `bigBins_sound`: in a run of the allocator the list is well formed and has the freed big blocks,
  and the block that `klmalloc` deletes is the first of its size.

**The function alone.**  The first two of these are about `klmalloc_skip_list_delete` for itself,
with any well-formed list in memory, while everything in `Alloc/Skip.lean` is about a heap that
keeps an arena.  There is no second proof.  The members of a list are the headers of blocks that do
not overlap, so they make an arena of their own, in which nothing else is there (`BigBins.arena`);
the heap keeps it, and the lemmas on the search and on the loop that unlinks apply to it.

**A later member.**  The search takes the predecessors of a size, and the code then goes on along
level 0 until it has the block itself.  The predecessors stay what they are.  So for a block that
has another of its size before it, what stands behind `update[0]` is that other block; the loop
compares it with the block to be unlinked on the lowest level, finds that they differ, and stops
before it has done anything.  `delete_later` follows the code on this way, and `first_of_unlinks`
concludes that a block that has been unlinked had no other of its size before it.

**In the kernel** this does not happen.  `klmalloc` deletes what the search for a best fit has
found, which is the first of its size (`AllocRun.Inv.firstOfSize`), so that the skip list is sound
in every run although the function is not.
-/

set_option autoImplicit false

namespace MyaXOS

open Chain (Linked SkipList fromKey pred)

variable {σ ρ : Type}

/-- A well-formed list: each member is the header of a block of whole pages that has something on
its stack, and `chain i` are the members on level `i`. -/
structure BigBins (bigBins : Nat) (h : AllocHeap σ ρ) (chain : Nat → List Nat) : Prop where
  skip : SkipList 0 bigBins (fun p => read h.mem (.size p)) (fun i p => read h.mem (.forward p i))
    h.level 6 chain
  head_word : bigBins % 4 = 0
  above : ∀ p ∈ chain 0, bigBins + 44 ≤ p
  page : ∀ p ∈ chain 0, p % 0x1000 = 0
  whole : ∀ p ∈ chain 0, (read h.mem (.size p) + 44) % 0x1000 = 0
  below : ∀ p ∈ chain 0, p + (44 + read h.mem (.size p)) < 0x100000000
  apart : ∀ p ∈ chain 0, ∀ q ∈ chain 0, p < q → p + (44 + read h.mem (.size p)) ≤ q
  stack : ∀ p ∈ chain 0, read h.mem (.head p) ≠ 0

/-- `klmalloc_skip_list_delete(value)` returns, and what is left are the other members: on every
level, and in their order. -/
def Unlinks (bigBins value : Nat) (h : AllocHeap σ ρ) (chain : Nat → List Nat) : Prop :=
  ∃ h', klmallocSkipListDelete bigBins value h = .ok h' ∧
    BigBins bigBins h' fun i => (chain i).erase value

/-- No member before it has its size.  The deletion goes by the size alone, so this is the condition
under which it takes out the block that was meant. -/
def FirstOfSize (m : Mem) (members : List Nat) (value : Nat) : Prop :=
  ∃ pre post, members = pre ++ value :: post ∧
    ∀ p ∈ pre, read m (.size p) ≠ read m (.size value)

/-- The loop of `klmalloc_skip_list_delete` that goes on to `value` gets there. -/
theorem skipTo_eq {m : Mem} {value : Nat} {as : List Nat} :
    ∀ {node fuel : Nat}, Linked 0 (fun p => read m (.forward p 0)) node as → value ∈ as →
    as.length ≤ fuel → skipTo m value fuel node = .ok value := by
  induction as with
  | nil => exact fun _ hmem => absurd hmem List.not_mem_nil
  | cons a as ih =>
    intro node fuel hlinked hmem hfuel
    obtain ⟨fuel, rfl⟩ := Nat.exists_eq_add_one_of_ne_zero (Nat.ne_of_gt (Nat.zero_lt_of_lt hfuel))
    obtain ⟨rfl, hne, hrest⟩ := hlinked
    rw [skipTo]
    by_cases hvalue : node = value
    · rw [if_pos hvalue, hvalue]
    · rw [if_neg hvalue, if_neg hne]
      refine ih hrest ((List.mem_cons.mp hmem).resolve_left fun he => hvalue he.symm) ?_
      exact Nat.le_of_succ_le_succ hfuel

namespace BigBins

variable {bigBins x : Nat} {h : AllocHeap σ ρ} {chain chain' : Nat → List Nat}

/-- The arena that has the members of the list and nothing else. -/
def arena (h : AllocHeap σ ρ) (chain : Nat → List Nat) : Arena :=
  ⟨chain 0, fun p => read h.mem (.size p), fun _ => [], fun _ => [], chain, []⟩

theorem size_big (hl : BigBins bigBins h chain) (hx : x ∈ chain 0) :
    11 < read h.mem (.size x) := by
  have := hl.whole x hx
  omega

theorem extent_eq (hl : BigBins bigBins h chain) (hx : x ∈ chain 0) :
    extent (read h.mem (.size x)) = 44 + read h.mem (.size x) := by
  have := hl.size_big hx
  rw [extent, if_neg (by omega)]

theorem layout (hl : BigBins bigBins h chain) (hx : x ∈ chain 0) :
    (arena h chain).Layout bigBins 0xFFFFF000 := by
  have hbelow : ∀ p ∈ chain 0, p + extent (read h.mem (.size p)) ≤ 0xFFFFF000 := fun p hp => by
    have := hl.page p hp
    have := hl.whole p hp
    have := hl.below p hp
    rw [hl.extent_eq hp]
    omega
  refine ⟨hl.head_word, ?_, hl.page, hl.above, hbelow, fun p hp q hq hpq => ?_, fun p hp => ?_,
    fun p _ c hc => absurd hc List.not_mem_nil, fun p _ => List.nodup_nil, by decide, by decide⟩
  · have := hl.above x hx
    have := hbelow x hx
    omega
  · rw [show (arena h chain).size p = read h.mem (.size p) from rfl, hl.extent_eq hp]
    exact hl.apart p hp q hq hpq
  · exact Or.inr ⟨hl.size_big hp, hl.whole p hp⟩

theorem stored (hl : BigBins bigBins h chain) : SkipStored (arena h chain) bigBins h where
  size _ _ := rfl
  chain := hl.skip
  chain_header p hp := by
    have hbig := hl.size_big hp
    exact ⟨hp, fun hsmall : read h.mem (.size p) < 10 => by omega⟩

/-- Other links between some of the members. -/
theorem relink (hl : BigBins bigBins h chain) {m : Mem} {level : Nat}
    (hsize : ∀ p ∈ chain 0, read m (.size p) = read h.mem (.size p))
    (hhead : ∀ p ∈ chain 0, read m (.head p) = read h.mem (.head p))
    (hsub : ∀ p ∈ chain' 0, p ∈ chain 0)
    (hskip : SkipList 0 bigBins (fun p => read h.mem (.size p))
      (fun i p => read m (.forward p i)) level 6 chain') :
    BigBins bigBins { h with mem := m, level := level } chain' where
  skip := hskip.congr (fun p hp => hsize p (hsub p hp)) fun _ _ _ _ => rfl
  head_word := hl.head_word
  above p hp := hl.above p (hsub p hp)
  page p hp := hl.page p (hsub p hp)
  whole p hp := by
    simp only [hsize p (hsub p hp)]
    exact hl.whole p (hsub p hp)
  below p hp := by
    simp only [hsize p (hsub p hp)]
    exact hl.below p (hsub p hp)
  apart p hp q hq hpq := by
    simp only [hsize p (hsub p hp)]
    exact hl.apart p (hsub p hp) q (hsub q hq) hpq
  stack p hp := by
    simp only [hhead p (hsub p hp)]
    exact hl.stack p (hsub p hp)

/-! ## Deleting

The search is the same for every member of a size, and ends at the predecessors of the size.  The
members of the size stand behind the predecessor in one row, and the loop `skipTo` runs along this
row.  So there are two cases: the block is at the front of the row, or it is not.  In the second
case the loop that unlinks stops at once, and the links are what they were. -/

theorem ne_zero (hl : BigBins bigBins h chain) (hx : x ∈ chain 0) : x ≠ 0 := by
  have := hl.above x hx
  omega

/-- **The first member of a size** is unlinked.  It stands right behind the predecessor on each
level that it is on. -/
theorem delete_first (hl : BigBins bigBins h chain) (hx : x ∈ chain 0)
    (hfirst : FirstOfSize h.mem (chain 0) x) : Unlinks bigBins x h chain := by
  have hx0 := hl.ne_zero hx
  obtain ⟨m, level, hdelete, hskip, hsame, -⟩ := hl.stored.delete (hl.layout hx)
    ((hl.skip.next_pred_self_iff hx0).mpr hfirst) hx0 (hl.stack x hx)
  refine ⟨_, hdelete, hl.relink (fun p hp => ?_) (fun p hp => ?_)
    (fun p hp => List.mem_of_mem_erase hp) hskip⟩
  · exact hsame (.size p) hp (by simp)
  · exact hsame (.head p) hp (by simp)

/-- **A later member** is found, but not unlinked: what stands behind the predecessor on level 0 is
the first member of its size. -/
theorem delete_later (hl : BigBins bigBins h chain) (hx : x ∈ chain 0)
    (hlater : ¬ FirstOfSize h.mem (chain 0) x) :
    klmallocSkipListDelete bigBins x h =
      .ok { h with level := skipLower h.mem bigBins h.level } := by
  have hx0 := hl.ne_zero hx
  have hL := hl.layout hx
  have hne := mt (hl.skip.next_pred_self_iff hx0).mp hlater
  have hrest := hl.skip.linked_pred (Nat.zero_le 6) (read h.mem (.size x))
  have hlength := hl.stored.length_lt hL (i := 0) hrest.nodup (List.dropWhile_sublist _).subset
  rw [klmallocSkipListDelete, assert_bind hx0, assert_bind (hl.stack x hx),
    hl.stored.search_head hL, ok_bind]
  simp only
  rw [show (arena h chain).chain = chain from rfl,
    show (arena h chain).size = fun p => read h.mem (.size p) from rfl,
    skipTo_eq hrest (Chain.mem_fromKey hx) hlength.le, ok_bind, skipUnlink,
    if_pos (Nat.succ_pos h.level), if_pos hne, ok_bind]

/-- **No other member is unlinked**: after such a call the links are the old ones, and they still
lead to the block. -/
theorem first_of_unlinks (hl : BigBins bigBins h chain) (hx : x ∈ chain 0)
    (hunlinks : Unlinks bigBins x h chain) : FirstOfSize h.mem (chain 0) x := by
  by_contra hlater
  obtain ⟨h', hdelete, hl'⟩ := hunlinks
  cases hdelete.symm.trans (hl.delete_later hx hlater)
  have hsame := (hl'.skip.linked 0 (Nat.zero_le 6)).unique (hl.skip.linked 0 (Nat.zero_le 6))
  have hgone : x ∉ (chain 0).erase x := hl.skip.nodup.not_mem_erase
  rw [hsame] at hgone
  exact hgone hx

end BigBins

/-- **What `klmalloc_skip_list_delete` unlinks.**  It unlinks a member of a well-formed list exactly
if no member before it has its size. -/
theorem unlinks_iff (bigBins value : Nat) (h : AllocHeap σ ρ) (chain : Nat → List Nat)
    (hl : BigBins bigBins h chain) (hvalue : value ∈ chain 0) :
    Unlinks bigBins value h chain ↔ FirstOfSize h.mem (chain 0) value :=
  ⟨hl.first_of_unlinks hvalue, hl.delete_first hvalue⟩

/-- Two blocks of one page each, at `0x203000` and `0x204000`, freed in this order: the latter is
now in front of the former. -/
def twoFreed : AllocHeap Unit Unit where
  mem :=
    let m := write (fun _ => 0) (.forward 0x110000 0) 0x204000
    let m := write (write m (.size 0x204000) 0xFD4) (.head 0x204000) 0x20402C
    let m := write (write m (.size 0x203000) 0xFD4) (.head 0x203000) 0x20302C
    write m (.forward 0x204000 0) 0x203000
  binHead _ := 0
  level := 0
  newestBig := 0x204000
  os := ()
  rng := ()

/-- Its levels. -/
def twoFreedChain (i : Nat) : List Nat := if i = 0 then [0x204000, 0x203000] else []

section
variable {p i : Nat}

theorem mem_twoFreedChain (hp : p ∈ twoFreedChain 0) : p = 0x204000 ∨ p = 0x203000 := by
  simpa [twoFreedChain] using hp

theorem twoFreed_size (hp : p ∈ twoFreedChain 0) : read twoFreed.mem (.size p) = 0xFD4 := by
  rcases mem_twoFreedChain hp with rfl | rfl <;> decide +kernel

theorem twoFreed_linked (hi : i ≤ 6) : Linked 0 (fun p => read twoFreed.mem (.forward p i))
    (read twoFreed.mem (.forward 0x110000 i)) (twoFreedChain i) := by
  rcases Nat.eq_zero_or_pos i with rfl | hpos
  · refine ⟨?_, by decide, ?_, by decide,
      show read twoFreed.mem (.forward 0x203000 0) = 0 from ?_⟩ <;> decide +kernel
  · have hempty : ∀ i < 7, 0 < i → read twoFreed.mem (.forward 0x110000 i) = 0 := by
      decide +kernel
    rw [twoFreedChain, if_neg hpos.ne']
    exact hempty i (by omega) hpos

end

theorem twoFreed_bigBins : BigBins 0x110000 twoFreed twoFreedChain where
  skip := {
    linked := fun i hi => twoFreed_linked hi
    sublist := fun i => by
      rw [twoFreedChain, if_neg (Nat.succ_ne_zero i)]
      exact List.nil_sublist _
    sorted := List.pairwise_of_forall_mem_list fun p hp q hq => by
      rw [twoFreed_size hp, twoFreed_size hq]
    head_notMem := by decide
    above := fun i hi => if_neg (Nat.ne_of_gt hi)
    level_le := by decide }
  head_word := by decide
  above p hp := by rcases mem_twoFreedChain hp with rfl | rfl <;> decide
  page p hp := by rcases mem_twoFreedChain hp with rfl | rfl <;> decide
  whole p hp := by rw [twoFreed_size hp]
  below p hp := by
    rw [twoFreed_size hp]
    rcases mem_twoFreedChain hp with rfl | rfl <;> decide
  apart p hp q hq hpq := by
    rw [twoFreed_size hp]
    rcases mem_twoFreedChain hp with rfl | rfl <;>
      rcases mem_twoFreedChain hq with rfl | rfl <;> omega
  stack p hp := by rcases mem_twoFreedChain hp with rfl | rfl <;> decide +kernel

/-- The block that was freed last is unlinked. -/
theorem unlinks_iff_newer : Unlinks 0x110000 0x204000 twoFreed twoFreedChain :=
  (unlinks_iff 0x110000 0x204000 twoFreed twoFreedChain twoFreed_bigBins (by decide)).mpr
    ⟨[], [0x203000], rfl, List.forall_mem_nil _⟩

/-- The block that was freed first is not unlinked. -/
theorem not_unlinks : ¬ ∀ (bigBins value : Nat) (h : AllocHeap Unit Unit) (chain : Nat → List Nat),
    BigBins bigBins h chain → value ∈ chain 0 → Unlinks bigBins value h chain := by
  intro hall
  have hmem : 0x203000 ∈ twoFreedChain 0 := by decide
  have hunlinks := hall 0x110000 0x203000 twoFreed twoFreedChain twoFreed_bigBins hmem
  obtain ⟨pre, post, hchain, hpre⟩ := twoFreed_bigBins.first_of_unlinks hmem hunlinks
  have hsize : read twoFreed.mem (.size 0x204000) = read twoFreed.mem (.size 0x203000) := by
    decide +kernel
  rcases pre with _ | ⟨p, pre⟩
  · cases hchain
  · rw [twoFreedChain, if_pos rfl, List.cons_append, List.cons.injEq] at hchain
    exact hpre p List.mem_cons_self (hchain.1 ▸ hsize)

/-! ## Runs

The list of a run is the one in its arena, so it is well formed by the invariant, and the function
applies to it as to any other.  What `klmalloc` deletes is the best fit, which stands right behind
the predecessor of the size that was asked for; nothing of its own size is before it. -/

/-- What the list is in a run: `chain i` is what is found on level `i`.  The last field is about the
deletion which `klmalloc` makes of the block that it has found; it says what is in the list
afterwards, and that it ends at all. -/
structure BigBinsSound (env : AllocEnv σ ρ) (s : AllocRun σ ρ) (chain : Nat → List Nat) :
    Prop where
  linked : ∀ i ≤ 6, Linked 0 (fun p => read s.heap.mem (.forward p i))
    (read s.heap.mem (.forward env.bigBins i)) (chain i)
  freed : ∀ p, p ∈ chain 0 ↔ FreedBig s p
  once : (chain 0).Nodup
  sorted : (chain 0).Pairwise fun p q => read s.heap.mem (.size p) ≤ read s.heap.mem (.size q)
  sublist : ∀ i < s.heap.level, (chain (i + 1)).Sublist (chain i)
  null_above : ∀ i ≤ 6, s.heap.level < i → read s.heap.mem (.forward env.bigBins i) = 0
  level_le : s.heap.level ≤ 6
  /-- What `klmalloc_skip_list_findbest` returns can be deleted. -/
  best : ∀ size, ∃ p, klmallocSkipListFindbest env.bigBins size s.heap = .ok p ∧
    (p ≠ 0 → Unlinks env.bigBins p s.heap chain)

section
variable {env : AllocEnv σ ρ} {heapEnd : σ → Nat} {Ready : σ → Prop} {s : AllocRun σ ρ} {A : Arena}

/-- **The list of a run** is well formed.  What the arena has in its chains and what is stored of it
are put together here, without the rest of the heap. -/
theorem AllocRun.Inv.bigBins (h : s.Inv env heapEnd Ready A) :
    BigBins env.bigBins s.heap A.chain := by
  have hL := h.kept.accounted.toLayout
  have hst := h.kept.stored
  have hheader : ∀ {p}, p ∈ A.chain 0 → p ∈ A.headers ∧ ¬ A.size p < 10 ∧ A.free p ≠ [] :=
    fun hp => (h.kept.indexed.freed_iff _).mp hp
  have hsize : ∀ p ∈ A.chain 0, read s.heap.mem (.size p) = A.size p := hst.skip.size
  have hextent : ∀ {p}, p ∈ A.chain 0 → extent (A.size p) = 44 + A.size p := fun hp =>
    if_neg (hheader hp).2.1
  refine ⟨hst.chain.congr hsize fun _ _ _ _ => rfl, hL.head_word,
    fun p hp => hL.above p (hheader hp).1, fun p hp => hL.page p (hheader hp).1, fun p hp => ?_,
    fun p hp => ?_, fun p hp q hq hpq => ?_, fun p hp => ?_⟩
  · rw [hsize p hp]
    exact ((hL.size_cases p (hheader hp).1).resolve_left (hheader hp).2.1).2
  · have hbelow := hL.below p (hheader hp).1
    rw [hsize p hp, ← hextent hp]
    exact hbelow.trans_lt hL.heapEnd_lt
  · rw [hsize p hp, ← hextent hp]
    exact hL.apart p (hheader hp).1 q (hheader hq).1 hpq
  · exact hst.head_ne_zero (hheader hp).1 (hheader hp).2.2

/-- **A best fit is the first of its size**, since the search stops at the first block that is large
enough, and those before it are smaller.  So the deletion, which looks for the place by the size,
comes to this very block. -/
theorem AllocRun.Inv.firstOfSize (h : s.Inv env heapEnd Ready A) {size p : Nat}
    (hfit : bestFit A env.bigBins size s.heap = p) (hp : p ≠ 0) :
    p ∈ A.chain 0 ∧ FirstOfSize s.heap.mem (A.chain 0) p := by
  have hchain := h.kept.stored.chain
  have hsize := h.kept.stored.skip.size
  have hfirst := hchain.pred_best hfit hp
  obtain ⟨pre, post, hsplit, hpre⟩ := (hchain.next_pred_self_iff hp).mp (by rw [hfirst]; exact hfit)
  have hmem : p ∈ A.chain 0 := hsplit ▸ List.mem_append_right pre List.mem_cons_self
  refine ⟨hmem, pre, post, hsplit, fun q hq => ?_⟩
  rw [hsize q (hsplit ▸ List.mem_append_left _ hq), hsize p hmem]
  exact hpre q hq

end

/-- **The skip list is sound.**  In every state that valid calls of `malloc` and `free` lead to,
whatever the random levels were, it has the freed big blocks, sorted by size, and each level is a
part of the one below; and the block that `klmalloc` deletes is unlinked. -/
theorem bigBins_sound (env : AllocEnv σ ρ) (heapEnd : σ → Nat) (Ready : σ → Prop)
    (hsbrk : SbrkFresh env.sbrk heapEnd Ready) (s : AllocRun σ ρ)
    (hs : s.Reachable env heapEnd Ready) : ∃ chain, BigBinsSound env s chain := by
  obtain ⟨A, hA⟩ := hs.inv hsbrk
  have hl := hA.bigBins
  refine ⟨A.chain, hl.skip.linked, fun p => hA.freedBig_iff.symm, hl.skip.nodup, hl.skip.sorted,
    fun i _ => hl.skip.sublist i, fun i hi hlevel => ?_, hl.skip.level_le, fun size => ?_⟩
  · exact (hl.skip.next_eq_nil_iff hi).mpr (hl.skip.above i hlevel)
  · refine ⟨_, hA.kept.stored.skip.findbest hA.kept.accounted.toLayout size, fun hne => ?_⟩
    obtain ⟨hmem, hfirst⟩ := hA.firstOfSize rfl hne
    exact hl.delete_first hmem hfirst

/-- The list with the three big blocks that have been given back, two of them of one length. -/
theorem bigBins_sound_32MB : ∃ os a b c s chain,
    Runs.run (AllocCall.step kernelEnv Paging.heapEnd) (threeFreed a b c) (kernelStart os) = .ok s ∧
    BigBinsSound kernelEnv s chain ∧ ∃ p q r, p ∈ chain 0 ∧ q ∈ chain 0 ∧ r ∈ chain 0 ∧ p ≠ q ∧
      read s.heap.mem (.size p) = 8148 ∧ read s.heap.mem (.size q) = 8148 ∧
      read s.heap.mem (.size r) = 4052 := by
  obtain ⟨os, a, b, c, s, hstart, hleads, -, p, q, r, hne, hp, hq, hr, hsizep, hsizeq, hsizer⟩ :=
    kernel_threeFreed
  obtain ⟨chain, hsound⟩ := bigBins_sound kernelEnv Paging.heapEnd KernelReady kernel_sbrk_fresh s
    ⟨_, _, hstart, hleads.along, hleads.run⟩
  exact ⟨os, a, b, c, s, chain, hleads.run, hsound, p, q, r, (hsound.freed p).mpr hp,
    (hsound.freed q).mpr hq, (hsound.freed r).mpr hr, hne, hsizep, hsizeq, hsizer⟩

end MyaXOS
