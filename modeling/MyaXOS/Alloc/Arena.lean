import MyaXOS.Alloc.Bins

/-!
# The arena

What the allocator has in hand, without the memory in which it keeps it: the headers of the pages
and big blocks it got from `sbrk`, the blocks behind each that are free, the lists of the bins, the
levels of the skip list, and the blocks that are in use.

* `Arena.Layout` is the geometry.  It is enough to tell any two places apart (`Layout.place_inj`),
  and any two blocks (`Layout.disjoint`).
* `Arena.Accounted` adds that nothing is lost or given out twice: a block is free or in use.
* `Arena.Indexed` says that a page is in the list of its bin exactly if it has a free block, and a
  big block in the skip list exactly if it is free.
* The rest of the file are the steps: `take` a block, `give` one back, and `grow` the arena.

An arena is the abstract side of the allocator.  It is made of lists and of functions on addresses,
and a step is a change of these at one header; there are no words, no pointers and no halts.  What
is proved about it is therefore combinatorics, and can be read without the source.  That the code
makes these steps in memory is the subject of `Alloc/Stored.lean` and `Alloc/Ops.lean`.

**Geometry.**  Everything rests on one fact: the extents of two headers do not meet.  A place of the
allocator belongs to a header, its `owner`, and lies in the page of this header, and a block lies in
the extent of its header and behind it.  So for two places with one address the owners are the same,
and within one header the places are told apart by arithmetic on the offsets.  This is the argument
of `place_inj`, and the same one shows that blocks do not overlap and that a block has no header in
it.

**What is nobody's business.**  A byte is `Data` if it is in a block that is not free, `Outside` if
it lies before the heap, and `Spared` if it is either.  Reads of the allocator never depend on such
bytes (`read_data`), and its writes never change them (`write_data`).  That the contents of a block
survive any number of calls of others, and that a program may write what it likes to its blocks, are
these two lemmas.

**Steps.**  `Indexed` is the invariant that is easily broken: when the last free block of a page is
taken, the page has to leave its list, and when the first is given back, it has to enter it.
`Indexed.change` says what a step has to respect for this — the lists change at the header where the
free blocks change, and in the same way — and each step of the code is one instance of it.
-/

set_option autoImplicit false

namespace MyaXOS

/-- The contents of the heap, without addresses of links.  A big block is a header with one block
behind it.  The order in `free`, in `listed` and in `chain` is that of the links, since it decides
which block is given out next. -/
structure Arena where
  /-- The headers, latest first. -/
  headers : List Nat
  /-- `header->size`. -/
  size : Nat → Nat
  /-- The stack of free blocks behind a header. -/
  free : Nat → List Nat
  /-- The pages in the list of a bin. -/
  listed : Nat → List Nat
  /-- The big blocks in a level of the skip list. -/
  chain : Nat → List Nat
  /-- The blocks in use: address and size asked for. -/
  live : List (Nat × Nat)

namespace Arena

variable {A : Arena} {bigBins heapEnd p q c c' n : Nat}

/-- `c` is a block behind the header `p`. -/
def Cell (A : Arena) (p c : Nat) : Prop := p ∈ A.headers ∧ c ∈ cells p (A.size p)

/-- `ptr` is in use. -/
def InUse (A : Arena) (ptr : Nat) : Prop := ∃ n, (ptr, n) ∈ A.live

/-- The geometry of the arena, between the skip list's head and the end of the heap: where headers
may be, and how far what belongs to a header extends.  Since this depends on the sizes only, it is
what stays when a block changes hands, and that two blocks do not overlap follows from it. -/
structure Layout (A : Arena) (bigBins heapEnd : Nat) : Prop where
  head_word : bigBins % 4 = 0
  head_below : bigBins + 44 ≤ heapEnd
  page : ∀ p ∈ A.headers, p % 0x1000 = 0
  above : ∀ p ∈ A.headers, bigBins + 44 ≤ p
  below : ∀ p ∈ A.headers, p + extent (A.size p) ≤ heapEnd
  apart : ∀ p ∈ A.headers, ∀ q ∈ A.headers, p < q → p + extent (A.size p) ≤ q
  size_cases : ∀ p ∈ A.headers,
    A.size p < 10 ∨ 11 < A.size p ∧ (A.size p + 44) % 0x1000 = 0
  free_cell : ∀ p ∈ A.headers, ∀ c ∈ A.free p, c ∈ cells p (A.size p)
  free_nodup : ∀ p ∈ A.headers, (A.free p).Nodup
  heapEnd_page : heapEnd % 0x1000 = 0
  heapEnd_lt : heapEnd < 0x100000000

/-- The blocks in use and the free ones are all the blocks there are.  A block behind a header is
either on its stack or in use, so that taking it from the stack and handing it out is one change and
not two. -/
structure Accounted (A : Arena) (bigBins heapEnd : Nat) : Prop
    extends Layout A bigBins heapEnd where
  /-- No block is lost, and none is both free and in use. -/
  inUse_iff : ∀ ptr, A.InUse ptr ↔ ∃ p, A.Cell p ptr ∧ ptr ∉ A.free p
  live_nodup : (A.live.map Prod.fst).Nodup
  /-- A block is at least as long as was asked for. -/
  fits : ∀ ptr n, (ptr, n) ∈ A.live → ∀ p, A.Cell p ptr → n ≤ capacity (A.size p)

/-- The lists lead to the free blocks, and to all of them.  A page is in the list of its bin exactly
if it has a free block, and a big block is in the skip list exactly if it is free; so an empty list
means that nothing is left. -/
structure Indexed (A : Arena) : Prop where
  listed_iff : ∀ b < 10, ∀ p, p ∈ A.listed b ↔ p ∈ A.headers ∧ A.size p = b ∧ A.free p ≠ []
  freed_iff : ∀ p, p ∈ A.chain 0 ↔ p ∈ A.headers ∧ ¬ A.size p < 10 ∧ A.free p ≠ []

/-- The places the allocator may read or write: the fields of the headers, the first words of
blocks, and the head of the skip list.  All else is somebody else's. -/
def Has (A : Arena) (bigBins : Nat) : Place → Prop
  | .next p => p ∈ A.headers
  | .head p => p ∈ A.headers
  | .size p => p ∈ A.headers
  | .prev p => p ∈ A.headers ∧ ¬ A.size p < 10
  | .forward p i => i ≤ 6 ∧ (p = bigBins ∨ p ∈ A.headers ∧ ¬ A.size p < 10)
  | .item c => ∃ p, A.Cell p c

/-- `x` is a byte of a block that is not free. -/
def Data (A : Arena) (x : Nat) : Prop :=
  ∃ p c, A.Cell p c ∧ c ∉ A.free p ∧ c ≤ x ∧ x < c + capacity (A.size p)

/-- `x` is a byte in front of the heap, and not one of the head of the skip list. -/
def Outside (A : Arena) (bigBins heapEnd x : Nat) : Prop :=
  (x < bigBins ∨ bigBins + 44 ≤ x) ∧ x < heapEnd ∧ ∀ p ∈ A.headers, x < p

/-- `x` is a byte that is none of the allocator's business. -/
def Spared (A : Arena) (bigBins heapEnd x : Nat) : Prop := A.Data x ∨ A.Outside bigBins heapEnd x

/-! ## Geometry

What follows from `Layout` alone.  A block is found from its header and the header from the block,
both by arithmetic: the blocks of a header are in its page, so rounding an address down to a page
gives the header, and a block has only one.  Two blocks of one header are apart by `cells_disjoint`,
and two of different headers because the extents are. -/

namespace Layout

variable (hA : A.Layout bigBins heapEnd)

include hA

theorem header_pos (hp : p ∈ A.headers) : p ≠ 0 := by
  have := hA.above p hp
  omega

theorem page_in_extent (hp : p ∈ A.headers) : 0x1000 ≤ extent (A.size p) := by
  rw [extent]
  split_ifs
  · exact le_rfl
  · have := hA.size_cases p hp
    omega

theorem header_lt (hp : p ∈ A.headers) : p + 0x1000 ≤ heapEnd := by
  have := hA.below p hp
  have := hA.page_in_extent hp
  omega

/-- A block is in the page of its header. -/
theorem cell_page (hc : A.Cell p c) : p + 12 ≤ c ∧ c + 4 ≤ p + 0x1000 ∧ c % 4 = 0 := by
  have hpage := hA.page p hc.1
  have hbounds := cell_bounds hc.2
  have hword := cell_word hc.2
  have hlength : 12 ≤ headerLength (A.size p) := by
    rw [headerLength]
    split_ifs <;> decide
  omega

theorem cell_header (hc : A.Cell p c) : c / 0x1000 * 0x1000 = p := by
  have hpage := hA.page p hc.1
  have hcell := hA.cell_page hc
  omega

theorem cell_unique (hc : A.Cell p c) (hc' : A.Cell q c) : p = q :=
  (hA.cell_header hc).symm.trans (hA.cell_header hc')

theorem cell_lt (hc : A.Cell p c) : c + capacity (A.size p) ≤ heapEnd := by
  have hbelow := hA.below p hc.1
  have hbounds := cell_bounds hc.2
  omega

/-- **Blocks do not overlap.**  With different headers they are in different extents, and with the
same header they are different multiples of one length. -/
theorem disjoint (hc : A.Cell p c) (hc' : A.Cell q c') (hne : c ≠ c') :
    c + capacity (A.size p) ≤ c' ∨ c' + capacity (A.size q) ≤ c := by
  have hbounds := cell_bounds hc.2
  have hbounds' := cell_bounds hc'.2
  rcases Nat.lt_trichotomy p q with hpq | rfl | hpq
  · have := hA.apart p hc.1 q hc'.1 hpq
    omega
  · exact cells_disjoint hc.2 hc'.2 hne
  · have := hA.apart q hc'.1 p hc.1 hpq
    omega

/-- A block does not overlap a header either: it lies behind its own, and in front of the next. -/
theorem header_disjoint (hc : A.Cell p c) (hq : q ∈ A.headers) :
    c + capacity (A.size p) ≤ q ∨ q + headerLength (A.size q) ≤ c := by
  have hbounds := cell_bounds hc.2
  have hlength : headerLength (A.size q) ≤ extent (A.size q) := by
    rw [headerLength, extent]
    split_ifs <;> omega
  rcases Nat.lt_trichotomy p q with hpq | rfl | hpq
  · have := hA.apart p hc.1 q hq hpq
    omega
  · omega
  · have := hA.apart q hq p hc.1 hpq
    omega

/-- A big block that is free is all there is on its stack. -/
theorem free_big (hp : p ∈ A.headers) (hbig : ¬ A.size p < 10) (hne : A.free p ≠ []) :
    A.free p = [p + 44] := by
  obtain ⟨c, cs, hfree⟩ := List.exists_cons_of_ne_nil hne
  have hcell := hA.free_cell p hp
  have hnodup := hA.free_nodup p hp
  rw [hfree] at hcell hnodup ⊢
  have hc : ∀ b ∈ c :: cs, b = p + 44 := fun b hb => (mem_cells_big hbig).mp (hcell b hb)
  rcases cs with _ | ⟨c', cs⟩
  · rw [hc c List.mem_cons_self]
  · have he : c = c' := (hc c List.mem_cons_self).trans
      (hc c' (List.mem_cons_of_mem c List.mem_cons_self)).symm
    exact absurd (he ▸ List.mem_cons_self) (List.nodup_cons.mp hnodup).1

/-! ## Places

The words of memory that the allocator uses, and the bytes that it does not.  The lemmas are used in
pairs: `read_write` is what one write does to the words of the allocator, and `write_data` is what
it does to all other bytes, which is nothing.  `place_cases` is where the address of a place is
taken apart; after that no proof computes with it. -/

/-- A place is in the head of the skip list or in the page of a header. -/
theorem place_cases {w : Place} (hw : A.Has bigBins w) :
    (∃ i ≤ 6, w = .forward bigBins i) ∨ ∃ p ∈ A.headers, p ≤ w.addr ∧ w.addr + 4 ≤ p + 0x1000 ∧
      w.addr % 4 = 0 ∧ w.owner = p := by
  have hfield : ∀ {w : Place} {p o : Nat}, p ∈ A.headers → w.addr = p + o → w.owner = p → o ≤ 40 →
      o % 4 = 0 → ∃ p ∈ A.headers, p ≤ w.addr ∧ w.addr + 4 ≤ p + 0x1000 ∧ w.addr % 4 = 0 ∧
        w.owner = p := fun {w p o} hp haddr howner ho hword => by
    have := hA.page p hp
    exact ⟨p, hp, by omega, by omega, by omega, howner⟩
  cases w with
  | next p => exact Or.inr (hfield (o := 0) hw rfl rfl (by decide) rfl)
  | head p => exact Or.inr (hfield hw rfl rfl (by decide) rfl)
  | size p => exact Or.inr (hfield hw rfl rfl (by decide) rfl)
  | prev p => exact Or.inr (hfield hw.1 rfl rfl (by decide) rfl)
  | forward p i =>
    obtain ⟨hi, rfl | hp⟩ := hw
    · exact Or.inl ⟨i, hi, rfl⟩
    · exact Or.inr (hfield (o := 16 + 4 * i) hp.1 (Nat.add_assoc p 16 (4 * i)) rfl (by omega)
        (by omega))
  | item c =>
    obtain ⟨p, hc⟩ := hw
    have hcell := hA.cell_page hc
    exact Or.inr ⟨p, hc.1, by rw [Place.addr]; omega, by rw [Place.addr]; omega,
      hcell.2.2, hA.cell_header hc⟩

theorem place_word {w : Place} (hw : A.Has bigBins w) :
    w.addr % 4 = 0 ∧ w.addr + 4 ≤ heapEnd := by
  rcases hA.place_cases hw with ⟨i, hi, rfl⟩ | ⟨p, hp, -, hle, hword, -⟩
  · have := hA.head_word
    have := hA.head_below
    simp only [Place.addr]
    omega
  · have := hA.header_lt hp
    omega

/-- A place in a header is not in a block. -/
theorem place_ne_item {w : Place} (hw : A.Has bigBins w) (hc : A.Cell p c)
    (hitem : w ≠ .item w.addr) : w.addr ≠ c := by
  have hpage := hA.page p hc.1
  have hcell := hA.cell_page hc
  have habove := hA.above p hc.1
  -- the fields that only the header of a big block has
  have hbig : ∀ q ∈ A.headers, ¬ A.size q < 10 → q + 12 ≤ c → c ≤ q + 40 → False := by
    intro q hq hsize hlow hhigh
    have hpage' := hA.page q hq
    obtain rfl : p = q := by omega
    have := (mem_cells_big hsize).mp hc.2
    omega
  intro h
  cases w with
  | next q => have := hA.page q hw; simp only [Place.addr] at h; omega
  | head q => have := hA.page q hw; simp only [Place.addr] at h; omega
  | size q => have := hA.page q hw; simp only [Place.addr] at h; omega
  | prev q => simp only [Place.addr] at h; exact hbig q hw.1 hw.2 (by omega) (by omega)
  | forward q i =>
    simp only [Place.addr] at h
    obtain ⟨hi, rfl | hq⟩ := hw
    · omega
    · exact hbig q hq.1 hq.2 (by omega) (by omega)
  | item c' => exact hitem rfl

/-- **No two places have the same address.**  If the addresses agree then so do the headers the
places belong to, and the offsets within one header are different for different fields. -/
theorem place_inj {w w' : Place} (hw : A.Has bigBins w) (hw' : A.Has bigBins w')
    (h : w.addr = w'.addr) : w = w' := by
  by_cases hitem : w = .item w.addr
  · by_cases hitem' : w' = .item w'.addr
    · rw [hitem, hitem', h]
    · rw [hitem] at hw
      obtain ⟨p, hc⟩ := hw
      exact absurd h.symm (hA.place_ne_item hw' hc hitem')
  · by_cases hitem' : w' = .item w'.addr
    · rw [hitem'] at hw'
      obtain ⟨p, hc⟩ := hw'
      exact absurd h (hA.place_ne_item hw hc hitem)
    · have howner : w.owner = w'.owner := by
        rcases hA.place_cases hw with ⟨i, hi, rfl⟩ | ⟨p, hp, hle, hlt, -, howner⟩
        · rcases hA.place_cases hw' with ⟨j, hj, rfl⟩ | ⟨q, hq, hle', hlt', -, -⟩
          · rfl
          · have := hA.above q hq
            simp only [Place.addr] at h hle'
            omega
        · rcases hA.place_cases hw' with ⟨j, hj, rfl⟩ | ⟨q, hq, hle', hlt', -, howner'⟩
          · have := hA.above p hp
            simp only [Place.addr] at h hle
            omega
          · have := hA.page p hp
            have := hA.page q hq
            omega
      cases w <;> cases w' <;> simp only [Place.owner, Place.addr, Place.next.injEq,
        Place.head.injEq, Place.size.injEq, Place.prev.injEq, Place.forward.injEq, reduceCtorEq,
        not_true_eq_false] at * <;> omega

/-- A place in a header is in the header. -/
theorem place_header {w : Place} (hw : A.Has bigBins w) (hitem : w ≠ .item w.addr) :
    (∃ i ≤ 6, w = .forward bigBins i) ∨
      ∃ p ∈ A.headers, p ≤ w.addr ∧ w.addr + 4 ≤ p + headerLength (A.size p) := by
  have hlength : ∀ s, 12 ≤ headerLength s := fun s => by
    rw [headerLength]
    split_ifs <;> decide
  have hbig : ∀ {s}, ¬ s < 10 → headerLength s = 44 := fun hs => if_neg hs
  cases w with
  | next p =>
    have := hlength (A.size p)
    exact Or.inr ⟨p, hw, le_rfl, by simp only [Place.addr]; omega⟩
  | head p =>
    have := hlength (A.size p)
    exact Or.inr ⟨p, hw, by simp only [Place.addr]; omega, by simp only [Place.addr]; omega⟩
  | size p =>
    have := hlength (A.size p)
    exact Or.inr ⟨p, hw, by simp only [Place.addr]; omega, by simp only [Place.addr]; omega⟩
  | prev p =>
    have := hbig hw.2
    exact Or.inr ⟨p, hw.1, by simp only [Place.addr]; omega, by simp only [Place.addr]; omega⟩
  | forward p i =>
    obtain ⟨hi, rfl | hp⟩ := hw
    · exact Or.inl ⟨i, hi, rfl⟩
    · have := hbig hp.2
      exact Or.inr ⟨p, hp.1, by simp only [Place.addr]; omega, by simp only [Place.addr]; omega⟩
  | item c => exact absurd rfl hitem

/-- A header and a free block have no data, and are not outside the heap. -/
theorem spared_outside {w : Place} {x : Nat} (hw : A.Has bigBins w)
    (hfree : ∀ p c, w = .item c → A.Cell p c → c ∈ A.free p) (hx : A.Spared bigBins heapEnd x) :
    x < w.addr ∨ w.addr + 4 ≤ x := by
  obtain ⟨p, c, hc, hused, hle, hlt⟩ | ⟨hhead, -, hbefore⟩ := hx
  case inr =>
    rcases hA.place_cases hw with ⟨i, hi, rfl⟩ | ⟨p, hp, hle, -⟩
    · simp only [Place.addr]
      omega
    · exact Or.inl (Nat.lt_of_lt_of_le (hbefore p hp) hle)
  have hdisjoint : w.addr + 4 ≤ c ∨ c + capacity (A.size p) ≤ w.addr := by
    by_cases hitem : w = .item w.addr
    · rw [hitem] at hw
      obtain ⟨q, hq⟩ := hw
      have hfreeq := hfree q _ hitem hq
      have hne : w.addr ≠ c := fun he => by
        rw [he] at hq hfreeq
        rw [hA.cell_unique hq hc] at hfreeq
        exact hused hfreeq
      have := (cell_word hq.2).2.2
      rcases hA.disjoint hq hc hne with h | h <;> omega
    · rcases hA.place_header hw hitem with ⟨i, hi, hwi⟩ | ⟨q, hq, hqle, hqlt⟩
      · have := hA.above p hc.1
        have := hA.cell_page hc
        rw [hwi]
        simp only [Place.addr]
        omega
      · rcases hA.header_disjoint hc hq with h | h <;> omega
  omega

/-- **A write to a header or to a free block changes nothing else**, neither what is in the blocks
in use nor what is in front of the heap. -/
theorem write_data {m : Mem} {w : Place} {v x : Nat} (hw : A.Has bigBins w)
    (hfree : ∀ p c, w = .item c → A.Cell p c → c ∈ A.free p) (hx : A.Spared bigBins heapEnd x) :
    write m w v x = m x :=
  Mem.store32_of_outside m v (hA.spared_outside hw hfree hx)

/-- In particular a write to a free block. -/
theorem write_item_data {m : Mem} {v x : Nat} (hc : A.Cell p c) (hfree : c ∈ A.free p)
    (hx : A.Spared bigBins heapEnd x) : write m (.item c) v x = m x := by
  refine hA.write_data (w := .item c) ⟨p, hc⟩ (fun q c' he hq => ?_) hx
  cases he
  rwa [hA.cell_unique hq hc]

/-- **A change of the others changes no header and no free block**, so that the allocator cannot
notice it. -/
theorem read_data {m m' : Mem} {w : Place} (hw : A.Has bigBins w)
    (hfree : ∀ p c, w = .item c → A.Cell p c → c ∈ A.free p)
    (hsame : ∀ x, ¬ A.Spared bigBins heapEnd x → m' x = m x) : read m' w = read m w := by
  refine Mem.load32_congr fun x hle hlt => hsame x fun hx => ?_
  rcases hA.spared_outside hw hfree hx with h | h <;> omega

theorem read_write {m : Mem} {w w' : Place} {v : Nat} (hw : A.Has bigBins w)
    (hw' : A.Has bigBins w') (hv : v < 0x100000000) :
    read (write m w v) w' = if w' = w then v else read m w' := by
  split
  · next h => rw [h, read_write_self m w hv]
  · next h =>
    have hword := hA.place_word hw
    have hword' := hA.place_word hw'
    have hne : w'.addr ≠ w.addr := fun he => h (hA.place_inj hw' hw he)
    exact read_write_of_ne m v (by omega)

end Layout

/-! ## Steps

Each step changes the arena at one header, with `Function.update`, so that what is asked about
another header is answered by the arena before.  That a step keeps the geometry is one lemma, and
that it keeps the account is another, since the second needs more of the step: `give` keeps the
geometry for any block that is not on the stack, but the account only if the block was in use. -/

/-- Give out the block `c`, the first of the stack behind `p`; `cs` are the others. -/
def take (A : Arena) (p c : Nat) (cs : List Nat) (n : Nat) : Arena :=
  { A with free := Function.update A.free p cs, live := (c, n) :: A.live }

/-- Take the block `c` behind `p` back. -/
def give (A : Arena) (p c : Nat) : Arena :=
  { A with
    free := Function.update A.free p (c :: A.free p)
    live := A.live.filter fun b => b.1 ≠ c }

/-- Add a header, with all its blocks free. -/
def grow (A : Arena) (p s : Nat) : Arena :=
  { A with
    headers := p :: A.headers
    size := Function.update A.size p s
    free := Function.update A.free p (cells p s) }

/-- Change the lists. -/
def relist (A : Arena) (listed chain : Nat → List Nat) : Arena :=
  { A with listed := listed, chain := chain }

section
variable {cs : List Nat} {s : Nat} {listed chain : Nat → List Nat}

@[simp] theorem relist_size : (A.relist listed chain).size = A.size := rfl

@[simp] theorem relist_free : (A.relist listed chain).free = A.free := rfl

@[simp] theorem take_free_self : (A.take p c cs n).free p = cs := Function.update_self ..

theorem take_free_of_ne (h : q ≠ p) : (A.take p c cs n).free q = A.free q :=
  Function.update_of_ne h ..

@[simp] theorem give_free_self : (A.give p c).free p = c :: A.free p := Function.update_self ..

theorem give_free_of_ne (h : q ≠ p) : (A.give p c).free q = A.free q := Function.update_of_ne h ..

/-- What is data when a block has been given back was data before: there is less of it. -/
theorem data_of_give {x : Nat} (hx : (A.give p c).Data x) : A.Data x := by
  obtain ⟨q, c', hc', hnot, hle, hlt⟩ := hx
  refine ⟨q, c', hc', fun hmem => hnot ?_, hle, hlt⟩
  by_cases hqp : q = p
  · subst hqp
    rw [give_free_self]
    exact List.mem_cons_of_mem c hmem
  · rwa [give_free_of_ne hqp]

theorem spared_of_give {x : Nat} (hx : (A.give p c).Spared bigBins heapEnd x) :
    A.Spared bigBins heapEnd x := hx.imp data_of_give id

@[simp] theorem grow_free_self : (A.grow p s).free p = cells p s := Function.update_self ..

theorem grow_free_of_ne (h : q ≠ p) : (A.grow p s).free q = A.free q := Function.update_of_ne h ..

@[simp] theorem grow_size_self : (A.grow p s).size p = s := Function.update_self ..

theorem grow_size_of_ne (h : q ≠ p) : (A.grow p s).size q = A.size q := Function.update_of_ne h ..

end

theorem inUse_take {cs : List Nat} {ptr : Nat} :
    (A.take p c cs n).InUse ptr ↔ ptr = c ∨ A.InUse ptr := by
  simp only [InUse, take, List.mem_cons, Prod.mk.injEq, exists_or, exists_and_left, exists_eq,
    and_true]

theorem inUse_give {ptr : Nat} : (A.give p c).InUse ptr ↔ ptr ≠ c ∧ A.InUse ptr := by
  simp only [InUse, give, List.mem_filter, decide_not, Bool.not_eq_eq_eq_not, Bool.not_true,
    decide_eq_false_iff_not, exists_and_right]
  exact and_comm

theorem inUse_iff_mem {ptr : Nat} : A.InUse ptr ↔ ptr ∈ A.live.map Prod.fst := by
  simp only [InUse, List.mem_map, Prod.exists, exists_and_right, exists_eq_right]

namespace Layout

variable (hA : A.Layout bigBins heapEnd)

include hA

theorem take {cs : List Nat} (hfree : A.free p = c :: cs) :
    (A.take p c cs n).Layout bigBins heapEnd where
  head_word := hA.head_word
  head_below := hA.head_below
  page := hA.page
  above := hA.above
  below := hA.below
  apart := hA.apart
  size_cases := hA.size_cases
  free_cell q hq := by
    have hcells := hA.free_cell q hq
    by_cases hqp : q = p
    · subst hqp
      rw [hfree] at hcells
      rw [take_free_self]
      exact fun b hb => hcells b (List.mem_cons_of_mem c hb)
    · rwa [take_free_of_ne hqp]
  free_nodup q hq := by
    have hnodup := hA.free_nodup q hq
    by_cases hqp : q = p
    · subst hqp
      rw [hfree] at hnodup
      rw [take_free_self]
      exact (List.nodup_cons.mp hnodup).2
    · rwa [take_free_of_ne hqp]
  heapEnd_page := hA.heapEnd_page
  heapEnd_lt := hA.heapEnd_lt

theorem give (hc : A.Cell p c) (hused : c ∉ A.free p) : (A.give p c).Layout bigBins heapEnd where
  head_word := hA.head_word
  head_below := hA.head_below
  page := hA.page
  above := hA.above
  below := hA.below
  apart := hA.apart
  size_cases := hA.size_cases
  free_cell q hq := by
    by_cases hqp : q = p
    · subst hqp
      rw [give_free_self]
      exact List.forall_mem_cons.mpr ⟨hc.2, hA.free_cell q hq⟩
    · rw [give_free_of_ne hqp]
      exact hA.free_cell q hq
  free_nodup q hq := by
    by_cases hqp : q = p
    · subst hqp
      rw [give_free_self]
      exact List.nodup_cons.mpr ⟨hused, hA.free_nodup q hq⟩
    · rw [give_free_of_ne hqp]
      exact hA.free_nodup q hq
  heapEnd_page := hA.heapEnd_page
  heapEnd_lt := hA.heapEnd_lt

/-- The end of the heap is the header of what `sbrk` adds there. -/
theorem ne_heapEnd (hp : p ∈ A.headers) : p ≠ heapEnd := by
  have := hA.header_lt hp
  omega

theorem grow {s : Nat} (hs : s < 10 ∨ 11 < s ∧ (s + 44) % 0x1000 = 0)
    (hfits : heapEnd + extent s < 0x100000000) :
    (A.grow heapEnd s).Layout bigBins (heapEnd + extent s) where
  head_word := hA.head_word
  head_below := by have := hA.head_below; omega
  page := List.forall_mem_cons.mpr ⟨hA.heapEnd_page, hA.page⟩
  above := List.forall_mem_cons.mpr ⟨hA.head_below, hA.above⟩
  below := by
    refine List.forall_mem_cons.mpr ⟨by rw [grow_size_self], fun p hp => ?_⟩
    have := hA.below p hp
    rw [grow_size_of_ne (hA.ne_heapEnd hp)]
    omega
  apart p hp q hq hpq := by
    rcases List.mem_cons.mp hp with rfl | hold
    · rcases List.mem_cons.mp hq with rfl | hold'
      · omega
      · have := hA.header_lt hold'
        omega
    · rw [grow_size_of_ne (hA.ne_heapEnd hold)]
      rcases List.mem_cons.mp hq with rfl | hold'
      · exact hA.below p hold
      · exact hA.apart p hold q hold' hpq
  size_cases := by
    refine List.forall_mem_cons.mpr ⟨by rwa [grow_size_self], fun p hp => ?_⟩
    rw [grow_size_of_ne (hA.ne_heapEnd hp)]
    exact hA.size_cases p hp
  free_cell := by
    refine List.forall_mem_cons.mpr ⟨fun c hc => ?_, fun p hp => ?_⟩
    · rw [grow_size_self]
      rwa [grow_free_self] at hc
    · have hne := hA.ne_heapEnd hp
      rw [grow_free_of_ne hne, grow_size_of_ne hne]
      exact hA.free_cell p hp
  free_nodup := by
    refine List.forall_mem_cons.mpr ⟨?_, fun p hp => ?_⟩
    · rw [grow_free_self]
      exact cells_nodup
    · rw [grow_free_of_ne (hA.ne_heapEnd hp)]
      exact hA.free_nodup p hp
  heapEnd_page := by
    have := hA.heapEnd_page
    rw [extent]
    split_ifs <;> omega
  heapEnd_lt := hfits

/-- The places that were there before are still places. -/
theorem has_grow {s : Nat} {w : Place} (hw : A.Has bigBins w) :
    (A.grow heapEnd s).Has bigBins w := by
  cases w with
  | next p => exact List.mem_cons_of_mem _ hw
  | head p => exact List.mem_cons_of_mem _ hw
  | size p => exact List.mem_cons_of_mem _ hw
  | prev p =>
    exact ⟨List.mem_cons_of_mem _ hw.1, by rw [grow_size_of_ne (hA.ne_heapEnd hw.1)]; exact hw.2⟩
  | forward p i =>
    obtain ⟨hi, rfl | hp⟩ := hw
    · exact ⟨hi, Or.inl rfl⟩
    · exact ⟨hi, Or.inr ⟨List.mem_cons_of_mem _ hp.1,
        by rw [grow_size_of_ne (hA.ne_heapEnd hp.1)]; exact hp.2⟩⟩
  | item c =>
    obtain ⟨p, hc⟩ := hw
    exact ⟨p, List.mem_cons_of_mem _ hc.1, by rw [grow_size_of_ne (hA.ne_heapEnd hc.1)]; exact hc.2⟩

theorem data_grow {s x : Nat} (hx : A.Data x) : (A.grow heapEnd s).Data x := by
  obtain ⟨p, c, hc, hused, hle, hlt⟩ := hx
  have hne := hA.ne_heapEnd hc.1
  have hsize : (A.grow heapEnd s).size p = A.size p := grow_size_of_ne hne
  refine ⟨p, c, ⟨List.mem_cons_of_mem _ hc.1, ?_⟩, ?_, hle, ?_⟩
  · rw [hsize]
    exact hc.2
  · rwa [grow_free_of_ne hne]
  · rwa [hsize]

theorem spared_grow {s x : Nat} (hx : A.Spared bigBins heapEnd x) :
    (A.grow heapEnd s).Spared bigBins (heapEnd + extent s) x := by
  refine hx.imp hA.data_grow fun hout => ?_
  obtain ⟨hhead, hend, hbefore⟩ := hout
  refine ⟨hhead, Nat.lt_add_right _ hend, fun p hp => ?_⟩
  rcases List.mem_cons.mp hp with rfl | hp
  · exact hend
  · exact hbefore p hp

/-- None of them is in what is new. -/
theorem owner_ne {w : Place} (hw : A.Has bigBins w) : w.owner ≠ heapEnd := by
  rcases hA.place_cases hw with ⟨i, -, rfl⟩ | ⟨p, hp, -, -, -, howner⟩
  · have := hA.head_below
    simp only [Place.owner]
    omega
  · rw [howner]
    exact hA.ne_heapEnd hp

end Layout

namespace Accounted

variable (hA : A.Accounted bigBins heapEnd)

include hA

theorem take {cs : List Nat} (hp : p ∈ A.headers) (hfree : A.free p = c :: cs)
    (hn : n ≤ capacity (A.size p)) : (A.take p c cs n).Accounted bigBins heapEnd where
  toLayout := hA.toLayout.take hfree
  inUse_iff ptr := by
    have hcell : A.Cell p c := ⟨hp, hA.free_cell p hp c (hfree ▸ List.mem_cons_self)⟩
    have hnodup := hA.free_nodup p hp
    rw [hfree, List.nodup_cons] at hnodup
    rw [inUse_take, hA.inUse_iff]
    constructor
    · rintro (rfl | ⟨q, hq, hused⟩)
      · exact ⟨p, hcell, by rw [take_free_self]; exact hnodup.1⟩
      · refine ⟨q, hq, ?_⟩
        by_cases hqp : q = p
        · subst hqp
          rw [take_free_self]
          exact fun hmem => hused (hfree ▸ List.mem_cons_of_mem c hmem)
        · rwa [take_free_of_ne hqp]
    · rintro ⟨q, hq, hused⟩
      by_cases hqp : q = p
      · subst hqp
        rw [take_free_self] at hused
        by_cases hptr : ptr = c
        · exact Or.inl hptr
        · exact Or.inr ⟨q, hq, by rw [hfree]; exact List.not_mem_cons_of_ne_of_not_mem hptr hused⟩
      · rw [take_free_of_ne hqp] at hused
        exact Or.inr ⟨q, hq, hused⟩
  live_nodup := by
    refine List.nodup_cons.mpr ⟨fun hmem => ?_, hA.live_nodup⟩
    obtain ⟨q, hq, hused⟩ := (hA.inUse_iff c).mp (inUse_iff_mem.mpr hmem)
    have hcell : A.Cell p c := ⟨hp, hA.free_cell p hp c (hfree ▸ List.mem_cons_self)⟩
    obtain rfl := hA.cell_unique hcell hq
    exact hused (hfree ▸ List.mem_cons_self)
  fits ptr m hm q hq := by
    rcases List.mem_cons.mp hm with heq | hm
    · cases heq
      have hcell : A.Cell p c := ⟨hp, hA.free_cell p hp c (hfree ▸ List.mem_cons_self)⟩
      obtain rfl := hA.cell_unique hcell hq
      exact hn
    · exact hA.fits ptr m hm q hq

theorem give (hc : A.Cell p c) (hused : A.InUse c) : (A.give p c).Accounted bigBins heapEnd where
  toLayout := by
    obtain ⟨q, hq, hnot⟩ := (hA.inUse_iff c).mp hused
    obtain rfl := hA.cell_unique hc hq
    exact hA.toLayout.give hc hnot
  inUse_iff ptr := by
    rw [inUse_give, hA.inUse_iff]
    constructor
    · rintro ⟨hne, q, hq, hnot⟩
      refine ⟨q, hq, ?_⟩
      by_cases hqp : q = p
      · subst hqp
        rw [give_free_self]
        exact List.not_mem_cons_of_ne_of_not_mem hne hnot
      · rwa [give_free_of_ne hqp]
    · rintro ⟨q, hq, hnot⟩
      by_cases hqp : q = p
      · subst hqp
        rw [give_free_self, List.mem_cons, not_or] at hnot
        exact ⟨hnot.1, q, hq, hnot.2⟩
      · rw [give_free_of_ne hqp] at hnot
        refine ⟨?_, q, hq, hnot⟩
        rintro rfl
        exact hqp (hA.cell_unique hq hc)
  live_nodup := hA.live_nodup.sublist ((List.filter_sublist).map Prod.fst)
  fits ptr m hm q hq := hA.fits ptr m (List.mem_of_mem_filter hm) q hq

/-- A block that is in use was in use before the arena grew. -/
theorem grow {s : Nat} (hs : s < 10 ∨ 11 < s ∧ (s + 44) % 0x1000 = 0)
    (hfits : heapEnd + extent s < 0x100000000) :
    (A.grow heapEnd s).Accounted bigBins (heapEnd + extent s) where
  toLayout := hA.toLayout.grow hs hfits
  inUse_iff ptr := by
    refine (hA.inUse_iff ptr).trans ?_
    constructor
    · rintro ⟨q, hq, hnot⟩
      have hne := hA.ne_heapEnd hq.1
      refine ⟨q, ⟨List.mem_cons_of_mem _ hq.1, ?_⟩, ?_⟩
      · rw [grow_size_of_ne hne]
        exact hq.2
      · rwa [grow_free_of_ne hne]
    · rintro ⟨q, ⟨hmem, hq⟩, hnot⟩
      rcases List.mem_cons.mp hmem with rfl | hmem
      · rw [grow_free_self] at hnot
        rw [grow_size_self] at hq
        exact absurd hq hnot
      · have hne := hA.ne_heapEnd hmem
        rw [grow_free_of_ne hne] at hnot
        rw [grow_size_of_ne hne] at hq
        exact ⟨q, ⟨hmem, hq⟩, hnot⟩
  live_nodup := hA.live_nodup
  fits ptr m hm q hq := by
    obtain ⟨r, hr, -⟩ := (hA.inUse_iff ptr).mp ⟨m, hm⟩
    have hne := hA.ne_heapEnd hr.1
    have hr' : (A.grow heapEnd s).Cell r ptr :=
      ⟨List.mem_cons_of_mem _ hr.1, by rw [grow_size_of_ne hne]; exact hr.2⟩
    obtain rfl := (hA.toLayout.grow hs hfits).cell_unique hr' hq
    rw [grow_size_of_ne hne]
    exact hA.fits ptr m hm r hr

end Accounted

/-- **A change at one header** keeps the lists in order, if it changes the lists in the same way. -/
theorem Indexed.change (hA : A.Indexed) {B : Arena} (hp : p ∈ B.headers)
    (hother : ∀ q, q ≠ p → (q ∈ B.headers ↔ q ∈ A.headers) ∧ B.size q = A.size q ∧
      B.free q = A.free q ∧ (∀ b < 10, q ∈ B.listed b ↔ q ∈ A.listed b) ∧
      (q ∈ B.chain 0 ↔ q ∈ A.chain 0))
    (hlisted : ∀ b < 10, p ∈ B.listed b ↔ B.size p = b ∧ B.free p ≠ [])
    (hchain : p ∈ B.chain 0 ↔ ¬ B.size p < 10 ∧ B.free p ≠ []) : B.Indexed where
  listed_iff b hb q := by
    by_cases hqp : q = p
    · rw [hqp, hlisted b hb, and_iff_right hp]
    · obtain ⟨hheaders, hsize, hfree, hlists, -⟩ := hother q hqp
      rw [hlists b hb, hheaders, hsize, hfree]
      exact hA.listed_iff b hb q
  freed_iff q := by
    by_cases hqp : q = p
    · rw [hqp, hchain, and_iff_right hp]
    · obtain ⟨hheaders, hsize, hfree, -, hchains⟩ := hother q hqp
      rw [hchains, hheaders, hsize, hfree]
      exact hA.freed_iff q

end Arena

end MyaXOS
