import MyaXOS.Alloc.Skip
import MyaXOS.Mem.Placement

/-!
# What `klmalloc` and `klfree` do

`Kept A bigBins heapEnd h` is the invariant of the allocator: the heap keeps an arena in which every
block is accounted for and every free block can be found.  The four ways through `klmalloc` and the
two through `klfree` keep it:

* `Kept.popBin` takes a block of a page that is in the list of its bin, and `Kept.growBin` makes
  such a page;
* `Kept.klmallocBig_found` takes a best fit from the skip list, and `Kept.klmallocBig_new` makes a
  new block if there is none;
* `Kept.klfree_small` and `Kept.klfree_big` give a block back.

None of them changes a byte of a block that is in use.

**How a way is proved.**  Each is a short sequence of the functions of `Alloc/Stored.lean` and
`Alloc/Skip.lean`.  Their lemmas say what arena is kept after each call; the arena at the end is
then compared with the one that a step of `Alloc/Arena.lean` makes, and the lemma on this step says
that it is accounted for and indexed.  Within a way the invariant does not hold: after the last
block of a page has been popped, and before the page has been taken out of its list, `Indexed` is
false.  This is why `Stored`, `Accounted` and `Indexed` are three predicates, and why `Kept` joins
them at the beginning and at the end only.

**The fit.**  `bestFit` is what the search of `klmalloc` finds, read from the arena: the first block
of the lowest level whose size is enough.  `klmallocBig_found` and `klmallocBig_new` are the two
cases of it, so that the callers can split on a property of the arena and not on the value of a
loop.

**Going back.**  `klfree` computes the header of a block from its address: it rounds down to a page,
and takes the header there.  For a small block this is right because the blocks of a page are in it,
and for a big one because the block begins 44 bytes behind its header and the header at a page
boundary.  `header_eq` is this computation, from the geometry of the arena.  That the block is in
use is the caller's part, and a hypothesis of both lemmas; for a big block the code asserts that it
is not free, which is a consequence, and for a small one it checks nothing.
-/

set_option autoImplicit false

namespace MyaXOS

open Chain (Linked SkipList pred)

variable {σ ρ : Type}

/-- The invariant: the arena is in order, its lists are complete, and the heap has this arena in its
memory.  Each of the operations is shown to take a heap with an arena to a heap with an arena, and
what it does is said about the arena. -/
structure Kept (A : Arena) (bigBins heapEnd : Nat) (h : AllocHeap σ ρ) : Prop where
  accounted : A.Accounted bigBins heapEnd
  indexed : A.Indexed
  stored : Stored A bigBins h

/-- The arena after a block was given out.  It is in use from now on, with the size that was asked
for; there may be a new header, but the sizes of the old ones are as before, and with them the
extents of all blocks. -/
structure Gives (A B : Arena) (c n : Nat) : Prop where
  live : B.live = (c, n) :: A.live
  size : ∀ p ∈ A.headers, B.size p = A.size p

/-- What the search of `klmalloc` finds, or 0. -/
def bestFit (A : Arena) (bigBins n : Nat) (h : AllocHeap σ ρ) : Nat :=
  read h.mem (.forward (pred bigBins A.size A.chain n 0) 0)

namespace Kept

variable {A : Arena} {bigBins heapEnd b n p c : Nat} {h : AllocHeap σ ρ} {env : AllocEnv σ ρ}

theorem relist (hA : A.Accounted bigBins heapEnd) (listed chain : Nat → List Nat) :
    (A.relist listed chain).Accounted bigBins heapEnd :=
  ⟨⟨hA.head_word, hA.head_below, hA.page, hA.above, hA.below, hA.apart, hA.size_cases, hA.free_cell,
    hA.free_nodup, hA.heapEnd_page, hA.heapEnd_lt⟩, hA.inUse_iff, hA.live_nodup, hA.fits⟩

/-! ## `malloc`, small bins

In both cases the block that is given out is the first on a stack.  If it was the last of its page
then the page leaves its list, and this is the case split of `popBin`.  A new page enters the list
with all its blocks free, so that `growBin` ends in a state in which `popBin` can be applied. -/

/-- **A block of the first page of a bin** is given out, and the page leaves the list of the bin if
this was its last free block. -/
theorem popBin (hk : Kept A bigBins heapEnd h) (hb : b < 10) {ps : List Nat}
    (hlisted : A.listed b = p :: ps) (hn : n ≤ 2 ^ (2 + b)) :
    ∃ c h' B, MyaXOS.popBin b p h = .ok (c, h') ∧ c ≠ 0 ∧ h'.os = h.os ∧
      Kept B bigBins heapEnd h' ∧ Gives A B c n ∧ B.headers = A.headers ∧
      ∀ x, A.Spared bigBins heapEnd x → h'.mem x = h.mem x := by
  have hA := hk.accounted
  have hL := hA.toLayout
  obtain ⟨hp, hsize, hne⟩ := (hk.indexed.listed_iff b hb p).mp (hlisted ▸ List.mem_cons_self)
  obtain ⟨c, cs, hfree⟩ := List.exists_cons_of_ne_nil hne
  have hnodup := (hk.stored.listed b hb).nodup
  rw [hlisted] at hnodup
  have hcell : A.Cell p c := ⟨hp, hA.free_cell p hp c (hfree ▸ List.mem_cons_self)⟩
  have hc := hL.cell_page hcell
  obtain ⟨hpop, hst⟩ := hk.stored.pop hL hp hfree n
  have htake := hA.take hp hfree (n := n) (by rwa [hsize, capacity_small hb])
  obtain ⟨m, hm⟩ : ∃ m, m = write h.mem (.head p) (read h.mem (.item c)) := ⟨_, rfl⟩
  rw [← hm] at hpop hst
  have hdata : ∀ x, A.Spared bigBins heapEnd x → m x = h.mem x := fun x hx => by
    rw [hm, hL.write_data (w := .head p) hp (by simp) hx]
  have hempty : read m (.head p) = 0 ↔ cs = [] := by
    have := (hst.free p hp).eq_nil_iff
    rwa [Arena.take_free_self] at this
  have hother : ∀ q, q ≠ p → (A.take p c cs n).free q = A.free q := fun q hq =>
    Arena.take_free_of_ne hq
  have hchain : p ∉ A.chain 0 := fun hmem => ((hk.indexed.freed_iff p).mp hmem).2.1 (hsize ▸ hb)
  simp only [MyaXOS.popBin, hpop, ok_bind, hempty]
  by_cases hcs : cs = []
  · rw [if_pos hcs]
    have hunlisted : ∀ b' < 10, b' ≠ b → p ∉ A.listed b' := fun b' hb' hbb hmem =>
      hbb (((hk.indexed.listed_iff b' hb' p).mp hmem).2.1.symm.trans hsize)
    refine ⟨c, _, (A.take p c cs n).relist (Function.update A.listed b ps) A.chain, rfl, by omega,
      rfl, ⟨relist htake _ _, ?_, hst.listDecouple (hL.take hfree) hb hlisted hunlisted⟩,
      ⟨rfl, fun _ _ => rfl⟩, rfl, fun x hx => ?_⟩
    · refine hk.indexed.change (p := p) hp
        (fun q hq => ⟨Iff.rfl, rfl, hother q hq, fun b' hb' => ?_, Iff.rfl⟩) (fun b' hb' => ?_) ?_
      · simp only [Arena.relist]
        by_cases hbb : b' = b
        · subst hbb
          rw [Function.update_self, hlisted, List.mem_cons, or_iff_right hq]
        · rw [Function.update_of_ne hbb]
      · refine iff_of_false ?_ fun hne => hne.2 (by simpa using hcs)
        simp only [Arena.relist]
        by_cases hbb : b' = b
        · subst hbb
          rw [Function.update_self]
          exact (List.nodup_cons.mp hnodup).1
        · rw [Function.update_of_ne hbb]
          exact hunlisted b' hb' hbb
      · exact iff_of_false hchain fun hne => hne.1 (hsize ▸ hb)
    · rw [klmallocListDecouple]
      simp only
      rw [hL.write_data (w := .next p) hp (by simp) hx, hdata x hx]
  · rw [if_neg hcs]
    refine ⟨c, _, A.take p c cs n, rfl, by omega, rfl, ⟨htake, ?_, hst⟩, ⟨rfl, fun _ _ => rfl⟩, rfl,
      hdata⟩
    refine hk.indexed.change (p := p) hp
      (fun q hq => ⟨Iff.rfl, rfl, hother q hq, fun _ _ => Iff.rfl, Iff.rfl⟩) (fun b' hb' => ?_) ?_
    · rw [Arena.take_free_self]
      refine ((hk.indexed.listed_iff b' hb' p).trans (and_iff_right hp)).trans ?_
      exact and_congr_right fun _ => iff_of_true hne hcs
    · exact iff_of_false hchain fun hne => hne.1 (hsize ▸ hb)

/-- **A new page** for a bin that has none: the arena grows by a header all of whose blocks are
free. -/
theorem growBin (hk : Kept A bigBins heapEnd h) (hb : b < 10) (hlisted : A.listed b = []) {os : σ}
    (hfits : heapEnd + 0x1000 < 0x100000000) (hsbrk : env.sbrk 0x1000 h.os = .ok (heapEnd, os)) :
    ∃ h' B, MyaXOS.growBin env b h = .ok (heapEnd, h') ∧ h'.os = os ∧
      Kept B bigBins (heapEnd + 0x1000) h' ∧ B.listed b = [heapEnd] ∧
      B.headers = heapEnd :: A.headers ∧ B.live = A.live ∧ (∀ p ∈ A.headers, B.size p = A.size p) ∧
      (∀ x, A.Spared bigBins heapEnd x → B.Spared bigBins (heapEnd + 0x1000) x) ∧
      ∀ x, A.Spared bigBins heapEnd x → h'.mem x = h.mem x := by
  have hA := hk.accounted
  have hL := hA.toLayout
  have hextent : extent b = 0x1000 := if_pos hb
  obtain ⟨h', hgrow, hos, hst, hdata⟩ := hk.stored.growBin hL hb hlisted hfits hsbrk
  have hne : cells heapEnd b ≠ [] := by
    rw [cells, if_pos hb]
    refine List.ne_nil_of_mem (List.mem_map_of_mem (List.mem_range.mpr (?_ : 0 < _)))
    rw [Nat.shiftRight_eq_div_pow]
    refine Nat.div_pos ?_ (by positivity)
    exact (Nat.pow_le_pow_right (by decide) (show 2 + b ≤ 11 by omega)).trans (by decide)
  refine ⟨h', _, hgrow, hos,
    ⟨relist (hextent ▸ hA.grow (Or.inl hb) (by rwa [hextent])) _ _, ?_, hst⟩,
    Function.update_self .., rfl, rfl, fun p hp => Arena.grow_size_of_ne (hL.ne_heapEnd hp),
    fun x hx => hextent ▸ hL.spared_grow hx, hdata⟩
  refine hk.indexed.change (p := heapEnd) List.mem_cons_self
    (fun q hq => ⟨?_, Arena.grow_size_of_ne hq, Arena.grow_free_of_ne hq, fun b' hb' => ?_,
      Iff.rfl⟩)
    (fun b' hb' => ?_) ?_
  · exact List.mem_cons.trans (or_iff_right hq)
  · simp only [Arena.relist]
    by_cases hbb : b' = b
    · subst hbb
      rw [Function.update_self, hlisted, List.mem_singleton]
      exact iff_of_false hq (List.not_mem_nil)
    · rw [Function.update_of_ne hbb]
  · simp only [Arena.relist, Arena.grow_size_self, Arena.grow_free_self]
    by_cases hbb : b' = b
    · subst hbb
      rw [Function.update_self]
      exact iff_of_true List.mem_cons_self ⟨rfl, hne⟩
    · rw [Function.update_of_ne hbb]
      refine iff_of_false (fun hmem => ?_) fun h => hbb h.1.symm
      exact hL.ne_heapEnd (hk.stored.listed_header b' hb' _ hmem) rfl
  · refine iff_of_false (fun hmem => ?_) fun h => h.1 (by simpa using hb)
    exact hL.ne_heapEnd (hk.stored.chain_header _ hmem).1 rfl

/-! ## `malloc`, big bins

The search returns the first block of the lowest level whose size is enough.  If there is one it
leaves the skip list, and its stack of one block is popped.  If there is none the arena grows by a
header whose only block is not put on the stack in the first place: this is `grow` and `take` in one
step, and the account comes out as if the block had been free for a moment. -/

/-- **A best fit** from the skip list is given out: it is unlinked from every level, and its stack
is empty afterwards. -/
theorem klmallocBig_found (hk : Kept A bigBins heapEnd h) (henv : env.bigBins = bigBins)
    (hfit : bestFit A bigBins n h = p) (hp0 : p ≠ 0) :
    ∃ h' B, klmallocBig env n h = .ok (p + 44, h') ∧ h'.os = h.os ∧ Kept B bigBins heapEnd h' ∧
      Gives A B (p + 44) n ∧ B.headers = A.headers ∧
      ∀ x, A.Spared bigBins heapEnd x → h'.mem x = h.mem x := by
  have hA := hk.accounted
  have hL := hA.toLayout
  have hchain := hk.stored.chain
  obtain ⟨hmem, hn, -⟩ := hchain.best_le hfit hp0
  obtain ⟨hp, hbig, hne⟩ := (hk.indexed.freed_iff p).mp hmem
  have hfree := hL.free_big hp hbig hne
  have hx : read h.mem (.forward (pred bigBins A.size A.chain (A.size p) 0) 0) = p := by
    rw [hchain.pred_best hfit hp0]
    exact hfit
  obtain ⟨m, level, hdelete, hst, hdata⟩ := hk.stored.delete hL hx hp0 hne
  have hR := relist hA A.listed fun i => (A.chain i).erase p
  obtain ⟨hpop, hst'⟩ := hst.pop hR.toLayout hp hfree n
  refine ⟨_, (A.relist A.listed fun i => (A.chain i).erase p).take p (p + 44) [] n, ?_, ?_,
    ⟨hR.take hp hfree (by rwa [Arena.relist_size, capacity_big hbig]), ?_, hst'⟩,
    ⟨rfl, fun _ _ => rfl⟩, rfl, fun x hx => ?_⟩
  · rw [klmallocBig, henv, hk.stored.skip.findbest hL, ok_bind,
      show read h.mem (.forward (pred bigBins A.size A.chain n 0) 0) = p from hfit, if_pos hp0,
      hdelete, ok_bind, hpop, ok_bind]
  · rfl
  · refine hk.indexed.change (p := p) hp (fun q hq => ⟨Iff.rfl, rfl, Arena.take_free_of_ne hq,
      fun _ _ => Iff.rfl, List.mem_erase_of_ne hq⟩) (fun b hb => ?_) ?_
    · refine iff_of_false (fun hlisted => ?_) fun h => hbig (?_ : A.size p < 10)
      · have := ((hk.indexed.listed_iff b hb p).mp hlisted).2.1
        omega
      · have : A.size p = b := h.1
        omega
    · refine iff_of_false ?_ fun h => h.2 (Arena.take_free_self ..)
      exact hchain.nodup.not_mem_erase
  · exact (hL.write_data (w := .head p) hp (by simp) hx).trans (hdata x hx)

/-- **A new block** if there is no fit.  It is given out at once, and the skip list stays as it is.
-/
theorem klmallocBig_new (hk : Kept A bigBins heapEnd h) (henv : env.bigBins = bigBins)
    (hnone : bestFit A bigBins n h = 0) {pages : Nat} (hpages : pages = (n + 44) / 0x1000 + 1)
    {os : σ} (hfits : heapEnd + 0x1000 * pages < 0x100000000)
    (hsbrk : env.sbrk (0x1000 * pages) h.os = .ok (heapEnd, os)) :
    ∃ h' B, klmallocBig env n h = .ok (heapEnd + 44, h') ∧ h'.os = os ∧
      Kept B bigBins (heapEnd + 0x1000 * pages) h' ∧ Gives A B (heapEnd + 44) n ∧
      B.headers = heapEnd :: A.headers ∧ ∀ x, A.Spared bigBins heapEnd x → h'.mem x = h.mem x := by
  have hA := hk.accounted
  have hL := hA.toLayout
  obtain ⟨h', hgrow, hos, hst, hdata⟩ := hk.stored.growBig hL hk.indexed hpages hfits hsbrk
  obtain ⟨s, hs⟩ : ∃ s, s = 0x1000 * pages - 44 := ⟨_, rfl⟩
  rw [← hs] at hst
  have hbig : ¬ s < 10 := by omega
  have hextent : extent s = 0x1000 * pages := by rw [extent, if_neg hbig]; omega
  have hG : (A.grow heapEnd s).Accounted bigBins (heapEnd + 0x1000 * pages) :=
    hextent ▸ hA.grow (Or.inr ⟨by omega, by omega⟩) (by rwa [hextent])
  have hfree : (A.grow heapEnd s).free heapEnd = [heapEnd + 44] := by
    rw [Arena.grow_free_self, cells, if_neg hbig]
  refine ⟨h', (A.grow heapEnd s).take heapEnd (heapEnd + 44) [] n, ?_, hos,
    ⟨hG.take List.mem_cons_self hfree ?_, ?_, hst⟩,
    ⟨rfl, fun p hp => Arena.grow_size_of_ne (hL.ne_heapEnd hp)⟩, rfl, hdata⟩
  · rw [klmallocBig, henv, hk.stored.skip.findbest hL, ok_bind,
      show read h.mem (.forward (pred bigBins A.size A.chain n 0) 0) = 0 from hnone,
      if_neg (not_not.mpr rfl), hgrow]
  · rw [Arena.grow_size_self, capacity_big hbig]
    omega
  · refine hk.indexed.change (p := heapEnd) List.mem_cons_self (fun q hq => ⟨?_,
      Arena.grow_size_of_ne hq, (Arena.take_free_of_ne hq).trans (Arena.grow_free_of_ne hq),
      fun _ _ => Iff.rfl, Iff.rfl⟩) (fun b hb => ?_) ?_
    · exact List.mem_cons.trans (or_iff_right hq)
    · refine iff_of_false (fun hmem => ?_) fun h => h.2 (Arena.take_free_self ..)
      exact hL.ne_heapEnd (hk.stored.listed_header b hb _ hmem) rfl
    · refine iff_of_false (fun hmem => ?_) fun h => h.2 (Arena.take_free_self ..)
      exact hL.ne_heapEnd (hk.stored.chain_header _ hmem).1 rfl

/-! ## `free`

For a small block the question is whether its page is in a list, and `Indexed` answers it: the page
is in the list of its bin if the stack was not empty.  The code asks the same question by looking at
the stack, so the page enters the list exactly when it was not in it. -/

/-- The header of a block, as `klfree` computes it. -/
theorem header_eq (hL : A.Layout bigBins heapEnd) (hc : A.Cell p c) : c &&& 0xFFFFF000 = p := by
  have hcell := hL.cell_page hc
  have hlt := hL.header_lt hc.1
  have hend := hL.heapEnd_lt
  rw [and_page_mask (by omega)]
  exact hL.cell_header hc

/-- A block that is in use is not free. -/
theorem notMem_free (hA : A.Accounted bigBins heapEnd) (hc : A.Cell p c) (hused : A.InUse c) :
    c ∉ A.free p := by
  obtain ⟨q, hq, hnot⟩ := (hA.inUse_iff c).mp hused
  rwa [hA.cell_unique hc hq]

/-- **A block goes back to its page**, and the page to the list of its bin if it had none free. -/
theorem klfree_small (hk : Kept A bigBins heapEnd h) (hc : A.Cell p c) (hused : A.InUse c)
    (hsmall : A.size p < 10) :
    ∃ h' B, klfree env c h = .ok h' ∧ h'.os = h.os ∧ Kept B bigBins heapEnd h' ∧
      B.live = A.live.filter (fun b => b.1 ≠ c) ∧ B.headers = A.headers ∧ B.size = A.size ∧
      (∀ x, B.Spared bigBins heapEnd x → h'.mem x = h.mem x) := by
  have hA := hk.accounted
  have hL := hA.toLayout
  have hp := hc.1
  have hcell := hL.cell_page hc
  have hnot := notMem_free hA hc hused
  have hchain : p ∉ A.chain 0 := fun hmem => ((hk.indexed.freed_iff p).mp hmem).2.1 hsmall
  have hempty : read h.mem (.head p) = 0 ↔ A.free p = [] := (hk.stored.free p hp).eq_nil_iff
  have hfree : klfree env c h = (do
      let h := if A.free p = [] then klmallocListInsert (A.size p) p h else h
      let m ← klmallocStackPush p c h.mem
      .ok { h with mem := m }) := by
    rw [klfree, if_neg (by omega), header_eq hL hc]
    simp only [assert_bind (hL.page p hp), hk.stored.size p hp,
      if_neg (show ¬ 11 < A.size p by omega), hempty]
  have hother : ∀ q, q ≠ p → (A.give p c).free q = A.free q := fun q hq => Arena.give_free_of_ne hq
  rw [hfree]
  by_cases hfull : A.free p = []
  · have hunlisted : ∀ b < 10, p ∉ A.listed b := fun b hb hmem =>
      ((hk.indexed.listed_iff b hb p).mp hmem).2.2 hfull
    have hinsert := hk.stored.listInsert hL hsmall hp hunlisted
    have hR := relist hA (Function.update A.listed (A.size p) (p :: A.listed (A.size p))) A.chain
    obtain ⟨m, hpush, hst, -, hdata⟩ := hinsert.push hR.toLayout hc hnot
    refine ⟨{ klmallocListInsert (A.size p) p h with mem := m }, _, ?_, rfl,
      ⟨hR.give hc hused, ?_, hst⟩, rfl, rfl, rfl, fun x hx => ?_⟩
    · simp only [if_pos hfull, hpush, ok_bind]
    · refine hk.indexed.change (p := p) hp
        (fun q hq => ⟨Iff.rfl, rfl, hother q hq, fun b hb => ?_, Iff.rfl⟩) (fun b hb => ?_) ?_
      · simp only [Arena.relist, Arena.give]
        by_cases hb' : b = A.size p
        · rw [hb', Function.update_self, List.mem_cons, or_iff_right hq]
        · rw [Function.update_of_ne hb']
      · simp only [Arena.give_free_self, ne_eq, reduceCtorEq, not_false_eq_true, and_true]
        simp only [Arena.relist, Arena.give]
        by_cases hb' : b = A.size p
        · rw [hb', Function.update_self]
          exact iff_of_true List.mem_cons_self rfl
        · rw [Function.update_of_ne hb']
          exact iff_of_false (hunlisted b hb) fun h => hb' h.symm
      · exact iff_of_false hchain fun h => h.1 hsmall
    · exact (hdata x hx).trans (hL.write_data (w := .next p) hp (by simp) (Arena.spared_of_give hx))
  · obtain ⟨m, hpush, hst, -, hdata⟩ := hk.stored.push hL hc hnot
    refine ⟨{ h with mem := m }, _, ?_, rfl, ⟨hA.give hc hused, ?_, hst⟩, rfl, rfl, rfl, hdata⟩
    · simp only [if_neg hfull, hpush, ok_bind]
    · refine hk.indexed.change (p := p) hp
        (fun q hq => ⟨Iff.rfl, rfl, hother q hq, fun _ _ => Iff.rfl, Iff.rfl⟩) (fun b hb => ?_) ?_
      · simp only [Arena.give_free_self, ne_eq, reduceCtorEq, not_false_eq_true, and_true]
        exact ((hk.indexed.listed_iff b hb p).trans (and_iff_right hp)).trans (and_iff_left hfull)
      · exact iff_of_false hchain fun h => h.1 hsmall

/-- **A big block goes back to the skip list.**  It was in use, so its stack is empty and it is in
no level, and this is what the insertion needs. -/
theorem klfree_big (hk : Kept A bigBins heapEnd h) (henv : env.bigBins = bigBins) (hc : A.Cell p c)
    (hused : A.InUse c) (hbig : ¬ A.size p < 10) :
    ∃ h' B, klfree env c h = .ok h' ∧ h'.os = h.os ∧ Kept B bigBins heapEnd h' ∧
      B.live = A.live.filter (fun b => b.1 ≠ c) ∧ B.headers = A.headers ∧ B.size = A.size ∧
      (∀ x, B.Spared bigBins heapEnd x → h'.mem x = h.mem x) := by
  have hA := hk.accounted
  have hL := hA.toLayout
  have hp := hc.1
  have hcell := hL.cell_page hc
  have hlt := hL.header_lt hp
  have hend := hL.heapEnd_lt
  have hnot := notMem_free hA hc hused
  have hceq : c = p + 44 := (mem_cells_big hbig).mp hc.2
  have hsize := (hL.size_cases p hp).resolve_left hbig
  have hbelow := hL.below p hp
  rw [extent, if_neg hbig] at hbelow
  have hempty : A.free p = [] := by
    by_contra hne
    rw [hL.free_big hp hbig hne, hceq, List.mem_singleton] at hnot
    exact hnot rfl
  have hchain : p ∉ A.chain 0 := fun hmem => ((hk.indexed.freed_iff p).mp hmem).2.2 hempty
  have hhead : read h.mem (.head p) = 0 := (hk.stored.free p hp).eq_nil_iff.mpr hempty
  obtain ⟨m, hpush, hst, hread, hdata⟩ := hk.stored.push hL hc hnot
  have hG := hA.give hc hused
  obtain ⟨m', level, rng, -, hinsert, hst', hdata'⟩ := hst.insert hG.toLayout env.skipRand hp hbig
    hchain (by rw [Arena.give_free_self]; exact List.cons_ne_nil _ _)
  refine ⟨_, _, ?_, ?_, ⟨relist hG A.listed (SkipList.inserted A.size A.chain p level), ?_, hst'⟩,
    rfl, rfl, rfl, fun x hx => ?_⟩
  · have hwhole : u32 (A.size p + 44) % 0x1000 = 0 := by
      rw [u32_eq (by omega)]
      exact hsize.2
    have hword : u32 (p + 44) = c := by rw [u32_eq (by omega), hceq]
    rw [klfree, if_neg (by omega), header_eq hL hc]
    simp only [assert_bind (hL.page p hp), hk.stored.size p hp, if_pos hsize.1,
      assert_bind (hL.header_pos hp), assert_bind hhead, assert_bind hwhole, hword, hpush, ok_bind,
      hread, assert_bind (show c ≠ 0 by omega), henv, hinsert]
  · rfl
  · refine hk.indexed.change (p := p) hp (fun q hq => ⟨Iff.rfl, rfl, Arena.give_free_of_ne hq,
      fun _ _ => Iff.rfl, ?_⟩) (fun b hb => ?_) ?_
    · simp only [Arena.relist, SkipList.inserted, if_pos (Nat.zero_le level),
        List.mem_orderedInsert]
      exact or_iff_right hq
    · refine iff_of_false (fun hmem => ?_) fun h => ?_
      · have := ((hk.indexed.listed_iff b hb p).mp hmem).2.1
        omega
      · have : A.size p = b := h.1
        omega
    · refine iff_of_true ?_ ⟨hbig, ?_⟩
      · simp only [Arena.relist, SkipList.inserted, if_pos (Nat.zero_le level),
          List.mem_orderedInsert]
        exact Or.inl trivial
      · simp
  · exact (hdata' x hx).trans (hdata x hx)

end Kept

end MyaXOS
