import MyaXOS.Alloc.Run

/-!
# What a block is good for

How many bytes `malloc` gives out, and what a program may do with them.

* `AllocRun.Inv.usable_klmalloc` is the exact length of the block that `malloc` returns.
* `AllocRun.Link` are the words the allocator keeps for itself in memory, and `AllocRun.Spares` says
  that a change of the memory leaves them and the other blocks alone.  `AllocRun.Inv.spares`: every
  change within a block in use does.
* `FreeListsWhole` is the other half of the promise `AllocSound`: the free lists have all that is
  free.

`AllocSound` says that a block is at least as long as was asked for.  For two of the functions of
the kernel this is not enough.  `kopen` writes one byte more than it has asked for, and `klrealloc`
copies as many bytes as the old block has; whether they stay in their blocks depends on how much
longer than the request a block is.  So here the length is computed: it is that of the bin for a
small block, and for a big one either the length of the best fit, which it has kept from its first
use, or what is left of whole pages behind a header.

The computation follows the ways of `klmalloc` once more, and reads the field `size` that the header
has afterwards.  For the small bins this is short, since the page has got its bin when it was made.
For a new page one has to see that the loop that links its blocks leaves the header alone, which is
`klmalloc_fresh`; it also says which block of the new page is given out and in what order the others
follow, for those who want to know what lies behind a block.

**What is behind a block.**  The statement that a write "goes over" something needs a word for what
may not be written over.  That is `Link`: the fields of the headers, the links of the free blocks
and the head of the skip list.  In an arena these are the places that the allocator may read, so a
change that spares them, and the blocks in use, is one that the allocator cannot notice.
-/

set_option autoImplicit false

namespace MyaXOS

open Chain (Linked SkipList pred)

variable {σ ρ : Type}

/-! ## How long a block is

Each of the four ways through `malloc` returns a block of a known length.  For three of them the
length is already in the arena; for a new big block it is what `growBig` writes to the header, which
is all that the new pages have behind it. -/

namespace Kept

variable {A : Arena} {bigBins heapEnd b c n p : Nat} {ps : List Nat} {h h' : AllocHeap σ ρ}
  {env : AllocEnv σ ρ}

theorem usable_eq (hk : Kept A bigBins heapEnd h) (hc : A.Cell p c) :
    usable h.mem c = capacity (A.size p) := by
  rw [usable, header_eq hk.accounted.toLayout hc, hk.stored.size p hc.1]

/-- A block of a page has the length of its bin. -/
theorem usable_popBin (hk : Kept A bigBins heapEnd h) (hb : b < 10) (hlisted : A.listed b = p :: ps)
    (hpop : MyaXOS.popBin b p h = .ok (c, h')) : usable h'.mem c = 2 ^ (2 + b) := by
  obtain ⟨hp, hsize, hne⟩ := (hk.indexed.listed_iff b hb p).mp (hlisted ▸ List.mem_cons_self)
  obtain ⟨c', cs, hfree⟩ := List.exists_cons_of_ne_nil hne
  obtain ⟨hstack, -⟩ := hk.stored.pop hk.accounted.toLayout hp hfree 0
  obtain ⟨c'', h'', B, hpop', -, -, hk', hgives, hheaders, -⟩ :=
    hk.popBin hb hlisted (Nat.zero_le _)
  cases hpop.symm.trans hpop'
  have hc : c = c' := by
    rw [MyaXOS.popBin, hstack, ok_bind] at hpop
    simp only at hpop
    split at hpop <;> cases hpop <;> rfl
  have hcell : B.Cell p c := by
    refine ⟨hheaders ▸ hp, ?_⟩
    rw [hgives.size p hp, hc]
    exact hk.accounted.free_cell p hp c' (hfree ▸ List.mem_cons_self)
  rw [hk'.usable_eq hcell, hgives.size p hp, hsize, capacity_small hb]

/-- **A small block** has the length of its bin, whether its page is new or was there before: the
bin is in the header either way. -/
theorem usable_klmalloc_small (hk : Kept A bigBins heapEnd h) (hn : 0 < n)
    (hsmall : klmallocBinSize n < 10)
    (hsbrk : h.binHead (klmallocBinSize n) = 0 → heapEnd + 0x1000 < 0x100000000 ∧
      ∀ a os, env.sbrk 0x1000 h.os = .ok (a, os) → a = heapEnd)
    (hmalloc : klmalloc env n h = .ok (c, h')) : usable h'.mem c = 2 ^ (2 + klmallocBinSize n) := by
  rw [klmalloc, if_neg (by omega), if_pos hsmall, klmallocSmall] at hmalloc
  by_cases hhead : h.binHead (klmallocBinSize n) = 0
  · obtain ⟨hfits, haddr⟩ := hsbrk hhead
    rcases hresult : env.sbrk 0x1000 h.os with e | ⟨a, os⟩
    · rw [if_pos hhead, MyaXOS.growBin, hresult] at hmalloc
      cases hmalloc
    · obtain rfl := haddr a os hresult
      have hempty := (hk.stored.listed _ hsmall).eq_nil_iff.mp hhead
      obtain ⟨h₁, B, hgrow, -, hk₁, hlisted, -⟩ := hk.growBin hsmall hempty hfits hresult
      rw [if_pos hhead, hgrow] at hmalloc
      exact hk₁.usable_popBin hsmall hlisted hmalloc
  · obtain ⟨ps, hlisted, -⟩ := (hk.stored.listed _ hsmall).exists_cons hhead
    rw [if_neg hhead] at hmalloc
    exact hk.usable_popBin hsmall hlisted hmalloc

/-- A big block that was free is as long as it was. -/
theorem usable_klmalloc_found (hk : Kept A env.bigBins heapEnd h) (hn : 0 < n)
    (hbig : ¬ klmallocBinSize n < 10) (hfit : bestFit A env.bigBins n h = p) (hp : p ≠ 0)
    (hmalloc : klmalloc env n h = .ok (c, h')) : usable h'.mem c = A.size p := by
  obtain ⟨h'', B, hmalloc', -, hk', hgives, hheaders, -⟩ :=
    klmalloc_found env hk hn hbig hfit hp
  cases hmalloc.symm.trans hmalloc'
  obtain ⟨hmem, -, -⟩ := hk.stored.chain.best_le hfit hp
  obtain ⟨hheader, hsize, -⟩ := (hk.indexed.freed_iff p).mp hmem
  have hcell : B.Cell p (p + 44) := by
    refine ⟨hheaders ▸ hheader, ?_⟩
    rw [hgives.size p hheader]
    exact (mem_cells_big hsize).mpr rfl
  rw [hk'.usable_eq hcell, hgives.size p hheader, capacity_big hsize]

/-- A new big block fills its pages. -/
theorem usable_klmalloc_none (hk : Kept A env.bigBins heapEnd h) (hn : 0 < n)
    (hbig : ¬ klmallocBinSize n < 10) (hnone : bestFit A env.bigBins n h = 0)
    (hfits : heapEnd + 0x1000 * ((n + 44) / 0x1000 + 1) < 0x100000000)
    (hsbrk : ∀ a os, env.sbrk (0x1000 * ((n + 44) / 0x1000 + 1)) h.os = .ok (a, os) → a = heapEnd)
    (hmalloc : klmalloc env n h = .ok (c, h')) :
    usable h'.mem c = 0x1000 * ((n + 44) / 0x1000 + 1) - 44 := by
  have hL := hk.accounted.toLayout
  have hpage := hL.heapEnd_page
  have hround : 0x1000 * ((n + 44) / 0x1000 + 1) < 0x100000000 :=
    (Nat.le_add_left ..).trans_lt hfits
  have hincrement :
      u32 (0x1000 * (u32 (n + 44) / 0x1000 + 1)) = 0x1000 * ((n + 44) / 0x1000 + 1) := by
    rw [u32_eq (show n + 44 < 0x100000000 by omega), u32_eq hround]
  rcases hresult : env.sbrk (0x1000 * ((n + 44) / 0x1000 + 1)) h.os with e | ⟨a, os⟩
  · have hstop : klmalloc env n h = .error e :=
      hk.klmalloc_none_error rfl hn hbig hnone (by rw [hincrement, hresult])
    cases hmalloc.symm.trans hstop
  · obtain rfl := hsbrk a os hresult
    obtain ⟨h₁, hgrow, -, hst, -⟩ := hk.stored.growBig hL hk.indexed rfl hfits hresult
    rw [klmalloc, if_neg (by omega), if_neg hbig, klmallocBig, hk.stored.skip.findbest hL, ok_bind,
      show read h.mem (.forward (pred env.bigBins A.size A.chain n 0) 0) = 0 from hnone,
      if_neg (not_not.mpr rfl), hgrow] at hmalloc
    cases hmalloc
    have hsize := hst.size a List.mem_cons_self
    have hbound := hL.heapEnd_lt
    have hheader : (a + 44) &&& 0xFFFFF000 = a := by
      rw [and_page_mask (by omega)]
      omega
    rw [usable, hheader, hsize]
    simp only [Arena.take, Arena.grow_size_self]
    exact capacity_big (by omega)

/-- **The first block of a new page** is given out, and the others are on its stack, in order. -/
theorem klmalloc_fresh (hk : Kept A bigBins heapEnd h) (hn : 0 < n)
    (hsmall : klmallocBinSize n < 10) (hhead : h.binHead (klmallocBinSize n) = 0)
    (hfits : heapEnd + 0x1000 < 0x100000000) {os : σ}
    (hsbrk : env.sbrk 0x1000 h.os = .ok (heapEnd, os)) {c₁ : Nat} {cs : List Nat}
    (hcells : cells heapEnd (klmallocBinSize n) = c :: c₁ :: cs) :
    ∃ h', klmalloc env n h = .ok (c, h') ∧ h'.os = os ∧
      (∀ b, b ≠ klmallocBinSize n → h'.binHead b = h.binHead b) ∧
      read h'.mem (.size heapEnd) = klmallocBinSize n ∧
      Linked 0 (fun c => read h'.mem (.item c)) (read h'.mem (.head heapEnd)) (c₁ :: cs) := by
  have hL := hk.accounted.toLayout
  have hempty := (hk.stored.listed _ hsmall).eq_nil_iff.mp hhead
  have hextent : extent (klmallocBinSize n) = 0x1000 := if_pos hsmall
  obtain ⟨h₁, hgrow, hos, hst, -⟩ := hk.stored.growBin hL hsmall hempty hfits hsbrk
  have hothers : ∀ b, b ≠ klmallocBinSize n → h₁.binHead b = h.binHead b := fun b hb => by
    rw [MyaXOS.growBin, hsbrk, ok_bind] at hgrow
    simp only [assert_bind hL.heapEnd_page] at hgrow
    cases hgrow
    exact Function.update_of_ne hb ..
  have hB := relist (hextent ▸ hk.accounted.grow (Or.inl hsmall) (by rwa [hextent]))
    (Function.update A.listed (klmallocBinSize n) [heapEnd]) A.chain
  obtain ⟨hpop, hst'⟩ := hst.pop hB.toLayout (p := heapEnd) List.mem_cons_self
    ((Arena.grow_free_self ..).trans hcells) n
  have hstack := hst'.free heapEnd List.mem_cons_self
  rw [Arena.take_free_self] at hstack
  refine ⟨{ h₁ with mem := write h₁.mem (.head heapEnd) (read h₁.mem (.item c)) }, ?_, hos, hothers,
    (hst'.size heapEnd List.mem_cons_self).trans (Arena.grow_size_self ..), hstack⟩
  have hne : read (write h₁.mem (.head heapEnd) (read h₁.mem (.item c))) (.head heapEnd) ≠ 0 :=
    fun hzero => hstack.2.1 (hstack.1.symm.trans hzero)
  rw [klmalloc, if_neg (by omega), if_pos hsmall, klmallocSmall, if_pos hhead, hgrow, ok_bind]
  simp only [MyaXOS.popBin, hpop, ok_bind, if_neg hne]

end Kept

section
variable {env : AllocEnv σ ρ} {heapEnd : σ → Nat} {Ready : σ → Prop} {s : AllocRun σ ρ} {A : Arena}
  {c n p ptr : Nat} {heap : AllocHeap σ ρ} {m : Mem}

/-- If the heap does not have to grow beyond the address space, then the rounding to pages does not
wrap around either. -/
theorem AllocRun.Inv.round (h : s.Inv env heapEnd Ready A) (hn : 0 < n)
    (hfits : CallsSbrk env n s.heap → heapEnd s.heap.os + sbrkIncrement n < 0x100000000) :
    0x1000 * ((n + 44) / 0x1000 + 1) < 0x100000000 := by
  have hcalls := h.kept.callsSbrk_iff (n := n) hn
  by_cases hsmall : klmallocBinSize n < 10
  · have := (klmallocBinSize_spec hn).1.mp hsmall
    omega
  · rw [if_neg hsmall] at hcalls
    by_cases hnone : bestFit A env.bigBins n s.heap = 0
    · have hlt := hfits (hcalls.mpr hnone)
      rw [sbrkIncrement, if_neg hsmall] at hlt
      exact (Nat.le_add_left ..).trans_lt hlt
    · obtain ⟨hmem, hle, -⟩ := h.kept.stored.chain.best_le rfl hnone
      obtain ⟨hheader, hbig, -⟩ := (h.kept.indexed.freed_iff _).mp hmem
      have hbelow := h.kept.accounted.below _ hheader
      have hend := h.kept.accounted.heapEnd_lt
      have hpage := h.kept.accounted.heapEnd_page
      rw [extent, if_neg hbig] at hbelow
      have hfit : n ≤ A.size (bestFit A env.bigBins n s.heap) := hle
      have hbelow' : bestFit A env.bigBins n s.heap +
          (44 + A.size (bestFit A env.bigBins n s.heap)) ≤ heapEnd s.heap.os := hbelow
      omega

/-- **The length of the block that `malloc` returns**: that of its bin, that of the best fit, or all
of the new pages. -/
theorem AllocRun.Inv.usable_klmalloc (h : s.Inv env heapEnd Ready A)
    (hsbrk : SbrkFresh env.sbrk heapEnd Ready) (hn : 0 < n)
    (hfits : CallsSbrk env n s.heap → heapEnd s.heap.os + sbrkIncrement n < 0x100000000)
    (hmalloc : MyaXOS.klmalloc env n s.heap = .ok (c, heap)) :
    MyaXOS.usable heap.mem c =
      if klmallocBinSize n < 10 then 2 ^ (2 + klmallocBinSize n)
      else if bestFit A env.bigBins n s.heap = 0 then 0x1000 * ((n + 44) / 0x1000 + 1) - 44
      else A.size (bestFit A env.bigBins n s.heap) := by
  have hk := h.kept
  have hcalls := hk.callsSbrk_iff (n := n) hn
  have hfresh : ∀ {increment}, increment % 0x1000 = 0 →
      heapEnd s.heap.os + increment < 0x100000000 →
      ∀ a os, env.sbrk increment s.heap.os = .ok (a, os) → a = heapEnd s.heap.os :=
    fun hinc hlt a os hresult => (hsbrk.fresh _ _ a os h.ready hinc hlt hresult).1
  by_cases hsmall : klmallocBinSize n < 10
  · rw [if_pos hsmall] at hcalls ⊢
    refine hk.usable_klmalloc_small hn hsmall (fun hhead => ?_) hmalloc
    have hlt := hfits (hcalls.mpr hhead)
    rw [sbrkIncrement, if_pos hsmall] at hlt
    exact ⟨hlt, hfresh (by decide) hlt⟩
  · rw [if_neg hsmall] at hcalls ⊢
    split
    · next hnone =>
      have hlt := hfits (hcalls.mpr hnone)
      rw [sbrkIncrement, if_neg hsmall] at hlt
      exact hk.usable_klmalloc_none hn hsmall hnone hlt (hfresh (Nat.mul_mod_right ..) hlt) hmalloc
    · next hfound => exact hk.usable_klmalloc_found hn hsmall rfl hfound hmalloc

end

/-! ## What a block must leave alone

What a write behind the end of a block may hit.  `Link` lists the words that the allocator will read
again; `Spares` says that a memory agrees with the run on those and on the other blocks in use, and
this is the weakest condition under which the run can go on as if nothing had happened. -/

/-- The words that the allocator keeps in memory: the headers, the links of the free blocks and the
head of the skip list. -/
def AllocRun.Link (env : AllocEnv σ ρ) (s : AllocRun σ ρ) : Place → Prop
  | .next p => p ∈ s.headers
  | .head p => p ∈ s.headers
  | .size p => p ∈ s.headers
  | .prev p => p ∈ s.headers ∧ 11 < read s.heap.mem (.size p)
  | .forward p i => i ≤ 6 ∧ (p = env.bigBins ∨ p ∈ s.headers ∧ 11 < read s.heap.mem (.size p))
  | .item c => ∃ p ∈ s.headers, ∃ cs,
    Linked 0 (fun c => read s.heap.mem (.item c)) (read s.heap.mem (.head p)) cs ∧ c ∈ cs

/-- With the memory `m`, all but the block at `ptr` is as it is in the run: the other blocks in use,
and every link. -/
structure AllocRun.Spares (env : AllocEnv σ ρ) (s : AllocRun σ ρ) (ptr : Nat) (m : Mem) : Prop where
  blocks : ∀ b ∈ s.live, b.1 ≠ ptr → ∀ x, b.1 ≤ x → x < b.1 + usable s.heap.mem b.1 →
    m x = s.heap.mem x
  links : ∀ w, s.Link env w → read m w = read s.heap.mem w

/-- The free lists have all that is free, and nothing else.  It is said of the memory and of the
blocks that the run knows to be in use, without an arena, as a reader of the allocator would put it.
-/
structure FreeListsWhole (env : AllocEnv σ ρ) (s : AllocRun σ ρ) : Prop where
  /-- On the stack of a header are the blocks behind it that are not in use. -/
  stack : ∀ p ∈ s.headers, ∃ cs,
    Linked 0 (fun c => read s.heap.mem (.item c)) (read s.heap.mem (.head p)) cs ∧
    ∀ c, c ∈ cs ↔ c ∈ cells p (read s.heap.mem (.size p)) ∧ ∀ n, (c, n) ∉ s.live
  /-- In the list of a bin are its pages with a free block. -/
  bin : ∀ b < 10, ∃ ps, Linked 0 (fun p => read s.heap.mem (.next p)) (s.heap.binHead b) ps ∧
    ∀ p, p ∈ ps ↔ p ∈ s.headers ∧ read s.heap.mem (.size p) = b ∧ read s.heap.mem (.head p) ≠ 0
  /-- In the skip list are the freed big blocks. -/
  big : ∃ ps, Linked 0 (fun p => read s.heap.mem (.forward p 0))
      (read s.heap.mem (.forward env.bigBins 0)) ps ∧ ∀ p, p ∈ ps ↔ FreedBig s p

section
variable {env : AllocEnv σ ρ} {heapEnd : σ → Nat} {Ready : σ → Prop} {s : AllocRun σ ρ} {A : Arena}
  {c n p ptr : Nat} {m : Mem}

namespace AllocRun.Inv

theorem big_iff (h : s.Inv env heapEnd Ready A) (hp : p ∈ s.headers) :
    11 < read s.heap.mem (.size p) ↔ ¬ A.size p < 10 := by
  rw [← h.headers] at hp
  have hcases := h.kept.accounted.size_cases p hp
  rw [h.kept.stored.size p hp]
  omega

/-- The links are places of the arena, in headers and in free blocks. -/
theorem has_of_link (h : s.Inv env heapEnd Ready A) {w : Place} (hw : s.Link env w) :
    A.Has env.bigBins w ∧ ∀ p c, w = .item c → A.Cell p c → c ∈ A.free p := by
  have hheader : ∀ {p}, p ∈ s.headers → p ∈ A.headers := fun hp => h.headers ▸ hp
  cases w with
  | next p => exact ⟨hheader hw, by simp⟩
  | head p => exact ⟨hheader hw, by simp⟩
  | size p => exact ⟨hheader hw, by simp⟩
  | prev p => exact ⟨⟨hheader hw.1, (h.big_iff hw.1).mp hw.2⟩, by simp⟩
  | forward p i =>
    refine ⟨⟨hw.1, hw.2.imp_right fun hp => ?_⟩, by simp⟩
    exact ⟨hheader hp.1, (h.big_iff hp.1).mp hp.2⟩
  | item c =>
    obtain ⟨p, hp, cs, hlinked, hc⟩ := hw
    rw [← h.headers] at hp
    obtain rfl := hlinked.unique (h.kept.stored.free p hp)
    have hcell : A.Cell p c := ⟨hp, h.kept.accounted.free_cell p hp c hc⟩
    refine ⟨⟨p, hcell⟩, fun q c' he hq => ?_⟩
    cases he
    rwa [h.kept.accounted.cell_unique hq hcell]

/-- **What is written within a block in use** spares all else, and the run goes on with it. -/
theorem spares (h : s.Inv env heapEnd Ready A) (hlive : (ptr, n) ∈ s.live)
    (hsame : ∀ x, x < ptr ∨ ptr + MyaXOS.usable s.heap.mem ptr ≤ x → m x = s.heap.mem x) :
    s.Spares env ptr m ∧
      AllocRun.Inv env heapEnd Ready { s with heap := { s.heap with mem := m } } A := by
  obtain ⟨p, hp, hnot, -⟩ := h.cell hlive
  have husable := h.usable hp
  have hdata : ∀ x, ¬ A.Data x → m x = s.heap.mem x := fun x hx => hsame x <| by
    rw [husable]
    by_contra hin
    exact hx ⟨p, ptr, hp, hnot, by omega, by omega⟩
  refine ⟨⟨fun b hb hne x hle hlt => hsame x ?_, fun w hw => ?_⟩, h.write hdata⟩
  · obtain ⟨q, hq, -⟩ := h.cell hb
    rw [h.usable hq] at hlt
    rw [husable]
    rcases h.kept.accounted.disjoint hq hp hne with hbefore | hbehind <;> omega
  · obtain ⟨hhas, hfree⟩ := h.has_of_link hw
    exact h.kept.accounted.read_data hhas hfree fun x hx => hdata x fun hin => hx (Or.inl hin)

/-- **Nothing that is free is lost.**  The stacks and the skip list, followed in memory, lead to
every block that is not in use, and to no other. -/
theorem whole (h : s.Inv env heapEnd Ready A) : FreeListsWhole env s where
  stack p hp := by
    rw [← h.headers] at hp
    refine ⟨A.free p, h.kept.stored.free p hp, fun c => ?_⟩
    rw [h.kept.stored.size p hp, ← not_exists, ← h.live]
    have hused : A.InUse c ↔ ∃ q, A.Cell q c ∧ c ∉ A.free q := h.kept.accounted.inUse_iff c
    constructor
    · intro hc
      have hcell : A.Cell p c := ⟨hp, h.kept.accounted.free_cell p hp c hc⟩
      refine ⟨hcell.2, fun hlive => ?_⟩
      obtain ⟨q, hq, hnot⟩ := hused.mp hlive
      exact hnot (h.kept.accounted.cell_unique hq hcell ▸ hc)
    · rintro ⟨hc, hnot⟩
      by_contra hfree
      exact hnot (hused.mpr ⟨p, ⟨hp, hc⟩, hfree⟩)
  bin b hb := by
    refine ⟨A.listed b, h.kept.stored.listed b hb, fun p => ?_⟩
    rw [h.kept.indexed.listed_iff b hb p, ← h.headers]
    refine and_congr_right fun hp => ?_
    rw [h.kept.stored.size p hp, ne_eq, ne_eq, (h.kept.stored.free p hp).eq_nil_iff]
  big := ⟨A.chain 0, h.kept.stored.chain.linked 0 (Nat.zero_le _), fun _ => h.freedBig_iff.symm⟩

end AllocRun.Inv

end

end MyaXOS
