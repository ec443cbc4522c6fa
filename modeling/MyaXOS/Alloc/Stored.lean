import MyaXOS.Alloc.Arena
import MyaXOS.Alloc.Klmalloc
import MyaXOS.Lib.SkipList

/-!
# The arena in memory

`Stored A bigBins h` says that the heap `h` keeps the arena `A`: the headers have the sizes, the
stacks of free blocks and the lists of pages are linked through memory, and so is the skip list.

Each of the small functions of the allocator changes the arena in one place.  For each there is a
lemma here that says what becomes of the arena, and, since no two places have one address, that all
else stays: `Stored.pop`, `push`, `listInsert`, `listDecouple` and, for the pages and blocks that
are new, `growBin` and `growBig`.

**Why these proofs work.**  Every list of the allocator is a `Linked` list: the nodes are addresses,
and `next` reads a place.  A function writes to one or two places, and by `Layout.place_inj` a read
of any other place gives what it gave before.  So all the lists but one follow `next` functions that
agree on their nodes with the old ones, and `Linked.congr` moves them to the new memory; for the one
list that has changed there is the lemma on the edit, `Linked.insert` or `Linked.erase`, or the
definition of `Linked` for an edit at its front.  None of the proofs looks at a sum of addresses:
what is compared are places, and places are compared by their constructors.

**The skip list** is kept apart, in `SkipStored`, because its nodes are big blocks of the arena and
its order is by their sizes.  A change at the small bins leaves all of it alone, and a change of the
skip list leaves the small bins alone; `Stored.rechain` and `Stored.skip` are how the two halves are
put together again.

**Data.**  `Stored.congr` says that a heap keeps the same arena when only spared bytes change.  It
is what allows the program to write to its blocks between two calls, and it is proved from
`Layout.read_data` alone, one field after the other.

**New pages** are the long part.  `klmalloc` fills a fresh page with a loop, so there is no arena to
preserve while the loop runs: the page enters the arena when its fields are set and its blocks are
linked.  `read_stackFill` says what the loop leaves in memory, by induction on the rounds, with the
link of every block that has been reached; `read_pageMem` and `read_bigMem` add the fields of the
header.  Since the page lies at the end of the heap, no place of the old arena is in it, and
`Stored.extend` — a heap keeps an arena with one more header if what it had is as before and the new
header is in order — finishes both cases.
-/

set_option autoImplicit false

namespace MyaXOS

open Chain (Linked SkipList)

variable {σ ρ : Type}

/-- The heap keeps the arena: each list of the arena is found in memory by following the links from
the variable that starts it.  The last field is about `klmalloc_newest_big`: a new big block is
entered in the `next` of the block that it names, so it has to name one. -/
structure Stored (A : Arena) (bigBins : Nat) (h : AllocHeap σ ρ) : Prop where
  size : ∀ p ∈ A.headers, read h.mem (.size p) = A.size p
  free : ∀ p ∈ A.headers,
    Linked 0 (fun c => read h.mem (.item c)) (read h.mem (.head p)) (A.free p)
  listed : ∀ b < 10, Linked 0 (fun p => read h.mem (.next p)) (h.binHead b) (A.listed b)
  listed_header : ∀ b < 10, ∀ p ∈ A.listed b, p ∈ A.headers
  chain : SkipList 0 bigBins A.size (fun i p => read h.mem (.forward p i)) h.level 6 A.chain
  chain_header : ∀ p ∈ A.chain 0, p ∈ A.headers ∧ ¬ A.size p < 10
  newest : h.newestBig ≠ 0 → h.newestBig ∈ A.headers ∧ ¬ A.size h.newestBig < 10

/-- The heap keeps the skip list of the arena.  It is what the three functions of the skip list
need, so that they can be proved right without the bins and the stacks. -/
structure SkipStored (A : Arena) (bigBins : Nat) (h : AllocHeap σ ρ) : Prop where
  size : ∀ p ∈ A.chain 0, read h.mem (.size p) = A.size p
  chain : SkipList 0 bigBins A.size (fun i p => read h.mem (.forward p i)) h.level 6 A.chain
  chain_header : ∀ p ∈ A.chain 0, p ∈ A.headers ∧ ¬ A.size p < 10

section
variable {A : Arena} {bigBins p i : Nat} {h : AllocHeap σ ρ}

theorem SkipStored.has_forward (hst : SkipStored A bigBins h) (hi : i ≤ 6)
    (hp : p ∈ bigBins :: A.chain i) : A.Has bigBins (.forward p i) := by
  refine ⟨hi, ?_⟩
  rcases List.mem_cons.mp hp with rfl | hp
  · exact Or.inl rfl
  · exact Or.inr (hst.chain_header p (hst.chain.mem_bottom hp))

theorem Stored.skip (hst : Stored A bigBins h) : SkipStored A bigBins h :=
  ⟨fun p hp => hst.size p (hst.chain_header p hp).1, hst.chain, hst.chain_header⟩

theorem Stored.has_forward (hst : Stored A bigBins h) (hi : i ≤ 6)
    (hp : p ∈ bigBins :: A.chain i) : A.Has bigBins (.forward p i) :=
  hst.skip.has_forward hi hp

end

namespace Stored

variable {A : Arena} {bigBins heapEnd p q c n b : Nat} {cs ps : List Nat} {h : AllocHeap σ ρ}

/-- **Data is none of the allocator's business**: it may change, and the heap keeps the same arena.
-/
theorem congr (hst : Stored A bigBins h) (hA : A.Layout bigBins heapEnd) {m : Mem}
    (hsame : ∀ x, ¬ A.Spared bigBins heapEnd x → m x = h.mem x) :
    Stored A bigBins { h with mem := m } where
  size p hp := (hA.read_data (w := .size p) hp (by simp) hsame).trans (hst.size p hp)
  free p hp := by
    simp only [hA.read_data (w := .head p) hp (by simp) hsame]
    refine (hst.free p hp).congr fun c hc => ?_
    have hcell : A.Cell p c := ⟨hp, hA.free_cell p hp c hc⟩
    refine hA.read_data (w := .item c) ⟨p, hcell⟩ (fun q c' he hq => ?_) hsame
    cases he
    rwa [hA.cell_unique hq hcell]
  listed b hb := (hst.listed b hb).congr fun p hp =>
    hA.read_data (w := .next p) (hst.listed_header b hb p hp) (by simp) hsame
  listed_header := hst.listed_header
  chain := hst.chain.congr (fun _ _ => rfl) fun i hi p hp =>
    hA.read_data (hst.has_forward hi hp) (by simp) hsame
  chain_header := hst.chain_header
  newest := hst.newest

/-! ## The stack of a header

The free blocks behind a header are linked through their first words, and `head` is the first of
them.  To pop is to set `head` to what the first one links to, and the list is then the tail of what
it was; to push is to write two words.  The blocks in use are not on the stack, so what is written
to a block that is given back is not data any more. -/

/-- **`klmalloc_stack_pop`** takes the first free block.  One word is written, `head`, and the stack
that it now leads to is the rest of the old one. -/
theorem pop (hst : Stored A bigBins h) (hA : A.Layout bigBins heapEnd) (hp : p ∈ A.headers)
    (hfree : A.free p = c :: cs) (n : Nat) :
    klmallocStackPop p h.mem =
      .ok (c, write h.mem (.head p) (read h.mem (.item c))) ∧
    Stored (A.take p c cs n) bigBins
      { h with mem := write h.mem (.head p) (read h.mem (.item c)) } := by
  have hlinked := hst.free p hp
  rw [hfree] at hlinked
  obtain ⟨hhead, hc, hrest⟩ := hlinked
  have hsame : ∀ w, A.Has bigBins w → w ≠ .head p →
      read (write h.mem (.head p) (read h.mem (.item c))) w = read h.mem w := fun w hw hne => by
    rw [hA.read_write (w := .head p) hp hw (read_lt ..), if_neg hne]
  refine ⟨?_, ?_⟩
  · rw [klmallocStackPop, assert_bind (hA.header_pos hp), assert_bind (by rwa [hhead]), hhead]
  · refine ⟨fun q hq => ?_, fun q hq => ?_, fun b hb => ?_, hst.listed_header, ?_,
      hst.chain_header, hst.newest⟩
    · exact (hsame (.size q) hq (by simp)).trans (hst.size q hq)
    · by_cases hqp : q = p
      · subst hqp
        rw [Arena.take_free_self]
        simp only [read_write_self _ _ (read_lt ..)]
        refine hrest.congr fun c' hc' => hsame (.item c') ⟨q, hq, ?_⟩ (by simp)
        exact hA.free_cell q hq c' (hfree ▸ List.mem_cons_of_mem c hc')
      · rw [Arena.take_free_of_ne hqp]
        simp only [hsame (.head q) hq (by simpa using hqp)]
        exact (hst.free q hq).congr fun c' hc' =>
          hsame (.item c') ⟨q, hq, hA.free_cell q hq c' hc'⟩ (by simp)
    · exact (hst.listed b hb).congr fun q hq =>
        hsame (.next q) (hst.listed_header b hb q hq) (by simp)
    · exact hst.chain.congr (fun _ _ => rfl) fun i hi q hq =>
        hsame (.forward q i) (hst.has_forward hi hq) (by simp)

/-- **`klmalloc_stack_push`** puts a block in front of the free ones.  It writes to the block
itself, which must not be data of anybody any more. -/
theorem push (hst : Stored A bigBins h) (hA : A.Layout bigBins heapEnd) (hc : A.Cell p c)
    (hused : c ∉ A.free p) :
    ∃ m, klmallocStackPush p c h.mem = .ok m ∧ Stored (A.give p c) bigBins { h with mem := m } ∧
      read m (.head p) = c ∧ ∀ x, (A.give p c).Spared bigBins heapEnd x → m x = h.mem x := by
  have hcell := hA.cell_page hc
  have hlt := hA.header_lt hc.1
  have hend := hA.heapEnd_lt
  have hhas : A.Has bigBins (.item c) := ⟨p, hc⟩
  obtain ⟨m, hm⟩ : ∃ m, m = write (write h.mem (.item c) (read h.mem (.head p))) (.head p) c :=
    ⟨_, rfl⟩
  have hread : ∀ w, A.Has bigBins w → read m w = if w = .head p then c
      else if w = .item c then read h.mem (.head p) else read h.mem w := fun w hw => by
    rw [hm, hA.read_write (w := .head p) hc.1 hw (by omega), hA.read_write hhas hw (read_lt ..)]
  have hgive := hA.give hc hused
  refine ⟨m, ?_, ?_, ?_, fun x hx => ?_⟩
  · rw [klmallocStackPush, assert_bind (by omega), hm]
  · refine ⟨fun q hq => ?_, fun q hq => ?_, fun b hb => ?_, hst.listed_header, ?_,
      hst.chain_header, hst.newest⟩
    · simp only [hread (.size q) hq, reduceCtorEq, if_false]
      exact hst.size q hq
    · by_cases hqp : q = p
      · subst hqp
        rw [Arena.give_free_self]
        refine ⟨?_, by omega, ?_⟩
        · simp only [hread (.head q) hq, if_true]
        · simp only [hread (.item c) hhas, reduceCtorEq, if_false, if_true]
          refine (hst.free q hq).congr fun c' hc' => ?_
          have hne : c' ≠ c := fun h => hused (h ▸ hc')
          simp only [hread (.item c') ⟨q, hq, hA.free_cell q hq c' hc'⟩, reduceCtorEq, if_false,
            Place.item.injEq, if_neg hne]
      · rw [Arena.give_free_of_ne hqp]
        simp only [hread (.head q) hq, reduceCtorEq, if_false, Place.head.injEq, if_neg hqp]
        refine (hst.free q hq).congr fun c' hc' => ?_
        have hcell' : A.Cell q c' := ⟨hq, hA.free_cell q hq c' hc'⟩
        have hne : c' ≠ c := fun h => hqp (hA.cell_unique (h ▸ hcell') hc)
        simp only [hread (.item c') ⟨q, hcell'⟩, reduceCtorEq, if_false, Place.item.injEq,
          if_neg hne]
    · refine (hst.listed b hb).congr fun q hq => ?_
      simp only [hread (.next q) (hst.listed_header b hb q hq), reduceCtorEq, if_false]
    · refine hst.chain.congr (fun _ _ => rfl) fun i hi q hq => ?_
      simp only [hread (.forward q i) (hst.has_forward hi hq), reduceCtorEq, if_false]
  · rw [hread (.head p) hc.1, if_pos rfl]
  · have hfree : c ∈ (A.give p c).free p := by
      rw [Arena.give_free_self]
      exact List.mem_cons_self
    rw [hm, hgive.write_data (w := .head p) hc.1 (by simp) hx, hgive.write_item_data hc hfree hx]

/-! ## The list of a bin

Pages with a free block are in a list that begins in `klmalloc_bin_head` and goes on through the
field `next` of the headers.  The code takes a page out at the front only, and puts it in at the
front.  The lists of the other bins follow the same fields, but at other headers, and this is all
that has to be said of them. -/

/-- **`klmalloc_list_decouple`** takes the first page of a bin off its list.  The field `next` of
the page is cleared, so the page must not be in another list. -/
theorem listDecouple (hst : Stored A bigBins h) (hA : A.Layout bigBins heapEnd) (hb : b < 10)
    (hlisted : A.listed b = p :: ps) (hother : ∀ b' < 10, b' ≠ b → p ∉ A.listed b') :
    Stored (A.relist (Function.update A.listed b ps) A.chain) bigBins
      (klmallocListDecouple b p h) := by
  have hlinked := hst.listed b hb
  have hnodup := hlinked.nodup
  have hp : p ∈ A.headers := hst.listed_header b hb p (hlisted ▸ List.mem_cons_self)
  rw [hlisted] at hlinked hnodup
  have hsame : ∀ w, A.Has bigBins w → w ≠ .next p →
      read (write h.mem (.next p) 0) w = read h.mem w := fun w hw hne => by
    rw [hA.read_write (w := .next p) hp hw (by decide), if_neg hne]
  refine ⟨fun q hq => ?_, fun q hq => ?_, fun b' hb' => ?_, fun b' hb' q hq => ?_, ?_,
    hst.chain_header, hst.newest⟩
  · exact (hsame (.size q) hq (by simp)).trans (hst.size q hq)
  · simp only [klmallocListDecouple, hsame (.head q) hq (by simp)]
    exact (hst.free q hq).congr fun c' hc' =>
      hsame (.item c') ⟨q, hq, hA.free_cell q hq c' hc'⟩ (by simp)
  · simp only [klmallocListDecouple, Arena.relist]
    by_cases hbb : b' = b
    · subst hbb
      rw [Function.update_self, Function.update_self]
      refine hlinked.2.2.congr fun q hq => hsame (.next q) ?_ ?_
      · exact hst.listed_header b' hb' q (hlisted ▸ List.mem_cons_of_mem p hq)
      · rintro hqp
        cases hqp
        exact (List.nodup_cons.mp hnodup).1 hq
    · rw [Function.update_of_ne hbb, Function.update_of_ne hbb]
      refine (hst.listed b' hb').congr fun q hq =>
        hsame (.next q) (hst.listed_header b' hb' q hq) ?_
      rintro hqp
      cases hqp
      exact hother b' hb' hbb hq
  · simp only [Arena.relist] at hq ⊢
    by_cases hbb : b' = b
    · subst hbb
      rw [Function.update_self] at hq
      exact hst.listed_header b' hb' q (hlisted ▸ List.mem_cons_of_mem p hq)
    · rw [Function.update_of_ne hbb] at hq
      exact hst.listed_header b' hb' q hq
  · exact hst.chain.congr (fun _ _ => rfl) fun i hi q hq =>
      hsame (.forward q i) (hst.has_forward hi hq) (by simp)

/-- **`klmalloc_list_insert`** puts a page in front of the list of a bin. -/
theorem listInsert (hst : Stored A bigBins h) (hA : A.Layout bigBins heapEnd) (hb : b < 10)
    (hp : p ∈ A.headers) (hnew : ∀ b' < 10, p ∉ A.listed b') :
    Stored (A.relist (Function.update A.listed b (p :: A.listed b)) A.chain) bigBins
      (klmallocListInsert b p h) := by
  have hhead : h.binHead b < 0x100000000 := by
    have hlinked := hst.listed b hb
    rcases hl : A.listed b with _ | ⟨a, as⟩
    · rw [hl] at hlinked
      rw [show h.binHead b = 0 from hlinked]
      decide
    · rw [hl] at hlinked
      rw [hlinked.1]
      have := hA.header_lt (hst.listed_header b hb a (hl ▸ List.mem_cons_self))
      have := hA.heapEnd_lt
      omega
  have hread : ∀ w, A.Has bigBins w → read (write h.mem (.next p) (h.binHead b)) w =
      if w = .next p then h.binHead b else read h.mem w := fun w hw =>
    hA.read_write (w := .next p) hp hw hhead
  refine ⟨fun q hq => ?_, fun q hq => ?_, fun b' hb' => ?_, fun b' hb' q hq => ?_, ?_,
    hst.chain_header, hst.newest⟩
  · simp only [klmallocListInsert, hread (.size q) hq, reduceCtorEq, if_false]
    exact hst.size q hq
  · simp only [klmallocListInsert, hread (.head q) hq, reduceCtorEq, if_false]
    refine (hst.free q hq).congr fun c' hc' => ?_
    simp only [hread (.item c') ⟨q, hq, hA.free_cell q hq c' hc'⟩, reduceCtorEq, if_false]
  · simp only [klmallocListInsert, Arena.relist]
    have hsame : ∀ b'' < 10, ∀ q ∈ A.listed b'',
        read (write h.mem (.next p) (h.binHead b)) (.next q) = read h.mem (.next q) :=
      fun b'' hb'' q hq => by
        rw [hread (.next q) (hst.listed_header b'' hb'' q hq), if_neg]
        rintro hqp
        cases hqp
        exact hnew b'' hb'' hq
    by_cases hbb : b' = b
    · subst hbb
      rw [Function.update_self, Function.update_self]
      refine ⟨rfl, hA.header_pos hp, ?_⟩
      simp only [hread (.next p) hp, if_true]
      exact (hst.listed b' hb').congr (hsame b' hb')
    · rw [Function.update_of_ne hbb, Function.update_of_ne hbb]
      exact (hst.listed b' hb').congr (hsame b' hb')
  · simp only [Arena.relist] at hq ⊢
    by_cases hbb : b' = b
    · subst hbb
      rw [Function.update_self] at hq
      rcases List.mem_cons.mp hq with rfl | hq
      · exact hp
      · exact hst.listed_header b' hb' q hq
    · rw [Function.update_of_ne hbb] at hq
      exact hst.listed_header b' hb' q hq
  · refine hst.chain.congr (fun _ _ => rfl) fun i hi q hq => ?_
    simp only [klmallocListInsert, hread (.forward q i) (hst.has_forward hi hq), reduceCtorEq,
      if_false]

/-! ## New pages

The arena grows by a header at its end.  Here it is compared with the arena before, whose places are
all below: every field that was read from the old memory is read from the new one with the same
result. -/

/-- **A heap keeps an arena with one more header** if what it had is as before and the new header is
in order. -/
theorem extend (hst : Stored A bigBins h) {B : Arena} {h' : AllocHeap σ ρ}
    (hheaders : B.headers = p :: A.headers)
    (hsize : ∀ q ∈ A.headers, B.size q = A.size q) (hfree : ∀ q ∈ A.headers, B.free q = A.free q)
    (hcell : ∀ q ∈ A.headers, ∀ c ∈ A.free q, A.Cell q c) (hchain : B.chain = A.chain)
    (hlevel : h'.level = h.level)
    (hold : ∀ w, A.Has bigBins w → (∀ q, w ≠ .next q) → read h'.mem w = read h.mem w)
    (hpsize : read h'.mem (.size p) = B.size p)
    (hpfree : Linked 0 (fun c => read h'.mem (.item c)) (read h'.mem (.head p)) (B.free p))
    (hlisted : ∀ b < 10, Linked 0 (fun q => read h'.mem (.next q)) (h'.binHead b) (B.listed b))
    (hlisted_header : ∀ b < 10, ∀ q ∈ B.listed b, q ∈ B.headers)
    (hnewest : h'.newestBig ≠ 0 → h'.newestBig ∈ B.headers ∧ ¬ B.size h'.newestBig < 10) :
    Stored B bigBins h' where
  size := by
    rw [hheaders]
    refine List.forall_mem_cons.mpr ⟨hpsize, fun q hq => ?_⟩
    rw [hold (.size q) hq (by simp), hsize q hq]
    exact hst.size q hq
  free := by
    rw [hheaders]
    refine List.forall_mem_cons.mpr ⟨hpfree, fun q hq => ?_⟩
    rw [hold (.head q) hq (by simp), hfree q hq]
    exact (hst.free q hq).congr fun c hc => hold (.item c) ⟨q, hcell q hq c hc⟩ (by simp)
  listed := hlisted
  listed_header := hlisted_header
  chain := by
    rw [hchain, hlevel]
    refine hst.chain.congr (fun q hq => hsize q (hst.chain_header q hq).1) fun i hi q hq => ?_
    exact hold (.forward q i) (hst.has_forward hi hq) (by simp)
  chain_header q hq := by
    rw [hchain] at hq
    have hold := hst.chain_header q hq
    rw [hheaders, hsize q hold.1]
    exact ⟨List.mem_cons_of_mem p hold.1, hold.2⟩
  newest := hnewest

end Stored

/-! ### Filling the stack of a new page

The loop writes to each block the address of the next.  It goes on for one block less than there
are, and the last link, which is 0, is written behind the loop.  The induction is on the number of
blocks that have been linked, and the invariant has two parts: what these blocks hold, and that no
other place has changed. -/

section
variable {A : Arena} {bigBins heapEnd p b n next : Nat} {m : Mem}

/-- The `i`-th block of a page. -/
theorem cell_of_lt (hb : b < 10) (hp : p ∈ A.headers) (hsize : A.size p = b) {i : Nat}
    (hi : i < (0x1000 - 12) >>> (2 + b)) : A.Cell p (p + 12 + 4 * (i <<< b)) := by
  refine ⟨hp, ?_⟩
  rw [hsize, cells, if_pos hb]
  exact List.mem_map_of_mem (List.mem_range.mpr hi)

theorem cell_ne {i j : Nat} (hij : i ≠ j) : p + 12 + 4 * (i <<< b) ≠ p + 12 + 4 * (j <<< b) := by
  intro h
  rw [Nat.shiftLeft_eq, Nat.shiftLeft_eq] at h
  have hpos : 0 < 2 ^ b := by positivity
  exact hij (Nat.eq_of_mul_eq_mul_right hpos (by omega))

/-- **The loop of `klmalloc`** links the blocks of a page: the first `n` of them lead to the next
one each, and no other place has changed. -/
theorem read_stackFill (hA : A.Layout bigBins heapEnd) (hb : b < 10) (hp : p ∈ A.headers)
    (hsize : A.size p = b) (hn : n < (0x1000 - 12) >>> (2 + b)) :
    (∀ i < n, read (stackFill (p + 12) b n m) (.item (p + 12 + 4 * (i <<< b))) =
      p + 12 + 4 * ((i + 1) <<< b)) ∧
    ∀ w, A.Has bigBins w → (∀ i < n, w ≠ .item (p + 12 + 4 * (i <<< b))) →
      read (stackFill (p + 12) b n m) w = read m w := by
  induction n with
  | zero => exact ⟨fun i hi => absurd hi (Nat.not_lt_zero i), fun w _ _ => rfl⟩
  | succ n ih =>
    obtain ⟨hitems, hothers⟩ := ih (by omega)
    have hcell : ∀ i ≤ n + 1, A.Has bigBins (.item (p + 12 + 4 * (i <<< b))) := fun i hi =>
      ⟨p, cell_of_lt hb hp hsize (by omega)⟩
    have hlt : p + 12 + 4 * ((n + 1) <<< b) < 0x100000000 := by
      have := hA.cell_lt (cell_of_lt hb hp hsize hn)
      have := hA.heapEnd_lt
      omega
    refine ⟨fun i hi => ?_, fun w hw hne => ?_⟩
    · rw [stackFill, hA.read_write (hcell n (by omega)) (hcell i (by omega)) hlt]
      rcases Nat.lt_succ_iff_lt_or_eq.mp hi with hi | rfl
      · rw [if_neg fun h => cell_ne (Nat.ne_of_lt hi) (Place.item.inj h), hitems i hi]
      · rw [if_pos rfl]
    · rw [stackFill, hA.read_write (hcell n (by omega)) hw hlt, if_neg (hne n (by omega))]
      exact hothers w hw fun i hi => hne i (by omega)

theorem stackFill_data (hA : A.Layout bigBins heapEnd) (hb : b < 10) (hp : p ∈ A.headers)
    (hsize : A.size p = b) (hfree : A.free p = cells p b) (hn : n < (0x1000 - 12) >>> (2 + b))
    {x : Nat} (hx : A.Spared bigBins heapEnd x) : stackFill (p + 12) b n m x = m x := by
  induction n with
  | zero => rfl
  | succ n ih =>
    have hcell := cell_of_lt (i := n) hb hp hsize (by omega)
    have hmem : p + 12 + 4 * (n <<< b) ∈ A.free p := by
      rw [hfree]
      exact hsize ▸ hcell.2
    rw [stackFill, hA.write_item_data hcell hmem hx, ih (by omega)]

/-- A page has a block at least. -/
theorem exists_blocks (hb : b < 10) : ∃ k, (0x1000 - 12) >>> (2 + b) = k + 1 := by
  refine ⟨_, (Nat.sub_add_cancel ?_).symm⟩
  rw [Nat.shiftRight_eq_div_pow, Nat.one_le_div_iff (by positivity)]
  exact (Nat.pow_le_pow_right (by decide) (show 2 + b ≤ 11 by omega)).trans (by decide)

/-! ### The memory of a new page

`pageMem` and `bigMem` are the memory after all the writes that `klmalloc` makes to a page it has
just got, as one expression.  That the code makes these writes and no others is `growBin_eq` and
`growBig_eq`; what can be read from it afterwards is the subject of the other lemmas.  With the two
apart, the proofs about the contents do not follow the code. -/

/-- The memory with a page of a small bin whose blocks are free, and with `next` behind it. -/
def pageMem (p b next : Nat) (m : Mem) : Mem :=
  write (write (stackFill (p + 12) b ((0x1000 - 12) >>> (2 + b) - 1)
      (write (write m (.head p) (u32 (p + 12))) (.next p) next))
    (.item (p + 12 + 4 * (((0x1000 - 12) >>> (2 + b) - 1) <<< b))) 0) (.size p) b

theorem growBin_eq {env : AllocEnv σ ρ} {h : AllocHeap σ ρ} {os : σ} (hpage : p % 0x1000 = 0)
    (hfits : p + 12 < 0x100000000) (hsbrk : env.sbrk 0x1000 h.os = .ok (p, os)) :
    growBin env b h = .ok (p, { h with
      mem := pageMem p b (h.binHead b) h.mem
      binHead := Function.update h.binHead b p
      os := os }) := by
  have hbase : read (write (write h.mem (.head p) (u32 (p + 12))) (.next p) (h.binHead b))
      (.head p) = p + 12 := by
    rw [read_write_of_ne _ _ (by simp only [Place.addr]; omega), read_write_self _ _ (u32_lt _),
      u32_eq hfits]
  simp only [growBin, hsbrk, ok_bind, assert_bind hpage, klmallocListInsert, hbase, pageMem]

/-- **A new page is in order**: its fields are set, its blocks are on its stack, and the other
headers are as before. -/
theorem read_pageMem (m : Mem) (hA : A.Layout bigBins heapEnd) (hb : b < 10) (hp : p ∈ A.headers)
    (hsize : A.size p = b) (hnext : next < 0x100000000) :
    (∀ w, A.Has bigBins w → w.owner ≠ p → read (pageMem p b next m) w = read m w) ∧
    read (pageMem p b next m) (.size p) = b ∧ read (pageMem p b next m) (.next p) = next ∧
    Linked 0 (fun c => read (pageMem p b next m) (.item c)) (read (pageMem p b next m) (.head p))
      (cells p b) := by
  obtain ⟨k, hk⟩ := exists_blocks hb
  have hcell : ∀ i ≤ k, A.Cell p (p + 12 + 4 * (i <<< b)) := fun i hi =>
    cell_of_lt hb hp hsize (by omega)
  have hbase : p + 12 < 0x100000000 := by
    have hlt := hA.cell_lt (hcell 0 (Nat.zero_le k))
    have hend := hA.heapEnd_lt
    omega
  obtain ⟨m₂, hm₂⟩ : ∃ m₂, m₂ = write (write m (.head p) (u32 (p + 12))) (.next p) next := ⟨_, rfl⟩
  have hread₂ : ∀ w, A.Has bigBins w → read m₂ w =
      if w = .next p then next else if w = .head p then p + 12 else read m w := fun w hw => by
    rw [hm₂, hA.read_write (w := .next p) hp hw hnext,
      hA.read_write (w := .head p) hp hw (u32_lt _), u32_eq hbase]
  obtain ⟨hitems, hothers⟩ := read_stackFill (m := m₂) (n := k) hA hb hp hsize (by omega)
  have hread : ∀ w, A.Has bigBins w → read (pageMem p b next m) w = if w = .size p then b
      else if w = .item (p + 12 + 4 * (k <<< b)) then 0
      else read (stackFill (p + 12) b k m₂) w := fun w hw => by
    rw [pageMem, hk, Nat.add_sub_cancel, ← hm₂, hA.read_write (w := .size p) hp hw (by omega),
      hA.read_write (w := .item _) ⟨p, hcell k le_rfl⟩ hw (by decide)]
  refine ⟨fun w hw howner => ?_, ?_, ?_, ?_⟩
  · have hne : ∀ w' : Place, w'.owner = p → w ≠ w' := fun w' howner' he =>
      howner (he ▸ howner')
    have hitem : ∀ i ≤ k, w ≠ .item (p + 12 + 4 * (i <<< b)) := fun i hi =>
      hne _ (hA.cell_header (hcell i hi))
    rw [hread w hw, if_neg (hne _ rfl), if_neg (hitem k le_rfl),
      hothers w hw fun i hi => hitem i hi.le, hread₂ w hw, if_neg (hne _ rfl), if_neg (hne _ rfl)]
  · rw [hread (.size p) hp, if_pos rfl]
  · rw [hread (.next p) hp, if_neg (by simp), if_neg (by simp), hothers (.next p) hp (by simp),
      hread₂ (.next p) hp, if_pos rfl]
  · have hhead : read (pageMem p b next m) (.head p) = p + 12 + 4 * (0 <<< b) := by
      rw [hread (.head p) hp, if_neg (by simp), if_neg (by simp), hothers (.head p) hp (by simp),
        hread₂ (.head p) hp, if_neg (by simp), if_pos rfl, Nat.zero_shiftLeft]
    rw [hhead, cells, if_pos hb, hk]
    refine Chain.linked_map_range (n := k) (f := fun i => p + 12 + 4 * (i <<< b)) ?_ ?_ ?_
    · intro i hi
      rw [hread (.item _) ⟨p, hcell i hi.le⟩, if_neg (by simp),
        if_neg fun he => cell_ne (Nat.ne_of_lt hi) (Place.item.inj he), hitems i hi]
    · rw [hread (.item _) ⟨p, hcell k le_rfl⟩, if_neg (by simp), if_pos rfl]
    · intro i hi
      omega

theorem pageMem_data (hA : A.Layout bigBins heapEnd) (hb : b < 10) (hp : p ∈ A.headers)
    (hsize : A.size p = b) (hfree : A.free p = cells p b) {x : Nat}
    (hx : A.Spared bigBins heapEnd x) : pageMem p b next m x = m x := by
  obtain ⟨k, hk⟩ := exists_blocks hb
  have hcell : A.Cell p (p + 12 + 4 * (k <<< b)) := cell_of_lt hb hp hsize (by omega)
  have hmem : p + 12 + 4 * (k <<< b) ∈ A.free p := by
    rw [hfree]
    exact hsize ▸ hcell.2
  rw [pageMem, hk, Nat.add_sub_cancel, hA.write_data (w := .size p) hp (by simp) hx,
    hA.write_item_data hcell hmem hx, stackFill_data hA hb hp hsize hfree (by omega) hx,
    hA.write_data (w := .next p) hp (by simp) hx, hA.write_data (w := .head p) hp (by simp) hx]

/-- The memory with a big block of `size` bytes, the newest, and with `newest` before it. -/
def bigMem (p size newest : Nat) (m : Mem) : Mem :=
  let m := write (write m (.size p) size) (.prev p) newest
  write (write (if newest ≠ 0 then write m (.next newest) p else m) (.next p) 0) (.head p) 0

theorem growBig_eq {env : AllocEnv σ ρ} {h : AllocHeap σ ρ} {os : σ} {pages : Nat}
    (hpages : pages = (n + 44) / 0x1000 + 1) (hpage : p % 0x1000 = 0)
    (hfits : p + 0x1000 * pages < 0x100000000) (hnewest : h.newestBig < 0x100000000)
    (hsbrk : env.sbrk (0x1000 * pages) h.os = .ok (p, os)) :
    growBig env n h = .ok (p + 44, { h with
      mem := bigMem p (0x1000 * pages - 44) h.newestBig h.mem
      newestBig := p
      os := os }) := by
  obtain ⟨s, hs⟩ : ∃ s, s = 0x1000 * pages - 44 := ⟨_, rfl⟩
  have hround : u32 s = s := u32_eq (by omega)
  have hwhole : u32 (s + 44) % 0x1000 = 0 := by
    rw [u32_eq (by omega)]
    omega
  have hsize : read (write h.mem (.size p) s) (.size p) = s := read_write_self _ _ (by omega)
  have hprev : read (write (write h.mem (.size p) s) (.prev p) h.newestBig) (.prev p) =
      h.newestBig := read_write_self _ _ hnewest
  simp only [growBig, u32_eq (show n + 44 < 0x100000000 by omega), ← hpages,
    u32_eq (show 0x1000 * pages < 0x100000000 by omega), hsbrk, ok_bind, assert_bind hpage, ← hs,
    hround, hsize, assert_bind hwhole, hprev, u32_eq (show p + 44 < 0x100000000 by omega), bigMem]

/-- **A new big block is in order**, and changes no more of the others than the link of the
newest. -/
theorem read_bigMem (m : Mem) (hA : A.Layout bigBins heapEnd) (hp : p ∈ A.headers)
    (hbig : ¬ A.size p < 10) (hn : n < 0x100000000) (hnext : next < 0x100000000)
    (hnewest : next ≠ 0 → next ∈ A.headers) :
    (∀ w, A.Has bigBins w → w.owner ≠ p → (∀ q, w = .next q → q ≠ next) →
      read (bigMem p n next m) w = read m w) ∧
    read (bigMem p n next m) (.size p) = n ∧ read (bigMem p n next m) (.head p) = 0 := by
  have hend := hA.heapEnd_lt
  have hlt := hA.header_lt hp
  have hprev : A.Has bigBins (.prev p) := ⟨hp, hbig⟩
  obtain ⟨m₂, hm₂⟩ : ∃ m₂, m₂ = write (write m (.size p) n) (.prev p) next := ⟨_, rfl⟩
  obtain ⟨m₃, hm₃⟩ : ∃ m₃, m₃ = if next ≠ 0 then write m₂ (.next next) p else m₂ := ⟨_, rfl⟩
  have hread₂ : ∀ w, A.Has bigBins w → read m₂ w =
      if w = .prev p then next else if w = .size p then n else read m w := fun w hw => by
    rw [hm₂, hA.read_write hprev hw hnext, hA.read_write (w := .size p) hp hw hn]
  have hread₃ : ∀ w, A.Has bigBins w → (∀ q, w = .next q → q ≠ next) → read m₃ w = read m₂ w :=
    fun w hw hne => by
      rw [hm₃]
      split
      · next hnonzero =>
        rw [hA.read_write (w := .next next) (hnewest hnonzero) hw (by omega),
          if_neg fun he => hne _ he rfl]
      · rfl
  have hread : ∀ w, A.Has bigBins w → read (bigMem p n next m) w = if w = .head p then 0
      else if w = .next p then 0 else read m₃ w := fun w hw => by
    simp only [bigMem, ← hm₂, ← hm₃]
    rw [hA.read_write (w := .head p) hp hw (by decide),
      hA.read_write (w := .next p) hp hw (by decide)]
  refine ⟨fun w hw howner hlink => ?_, ?_, ?_⟩
  · have hne : ∀ w' : Place, w'.owner = p → w ≠ w' := fun w' howner' he => howner (he ▸ howner')
    rw [hread w hw, if_neg (hne _ rfl), if_neg (hne _ rfl), hread₃ w hw hlink, hread₂ w hw,
      if_neg (hne _ rfl), if_neg (hne _ rfl)]
  · rw [hread (.size p) hp, if_neg (by simp), if_neg (by simp), hread₃ (.size p) hp (by simp),
      hread₂ (.size p) hp, if_neg (by simp), if_pos rfl]
  · rw [hread (.head p) hp, if_pos rfl]

theorem bigMem_data (hA : A.Layout bigBins heapEnd) (hp : p ∈ A.headers) (hbig : ¬ A.size p < 10)
    (hnewest : next ≠ 0 → next ∈ A.headers) {x : Nat} (hx : A.Spared bigBins heapEnd x) :
    bigMem p n next m x = m x := by
  have hset : write (write m (.size p) n) (.prev p) next x = m x := by
    rw [hA.write_data (w := .prev p) ⟨hp, hbig⟩ (by simp) hx,
      hA.write_data (w := .size p) hp (by simp) hx]
  simp only [bigMem]
  rw [hA.write_data (w := .head p) hp (by simp) hx, hA.write_data (w := .next p) hp (by simp) hx]
  split
  · next hnonzero =>
    rw [hA.write_data (w := .next next) (hnewest hnonzero) (by simp) hx, hset]
  · exact hset

end

namespace Stored

variable {A : Arena} {bigBins heapEnd b n size : Nat} {h : AllocHeap σ ρ} {env : AllocEnv σ ρ}
  {os : σ}

/-- **A new page** for a small bin whose list is empty.  The page is cut into blocks, all of them go
on its stack, and it becomes the list of the bin. -/
theorem growBin (hst : Stored A bigBins h) (hA : A.Layout bigBins heapEnd) (hb : b < 10)
    (hlisted : A.listed b = []) (hfits : heapEnd + 0x1000 < 0x100000000)
    (hsbrk : env.sbrk 0x1000 h.os = .ok (heapEnd, os)) :
    ∃ h', MyaXOS.growBin env b h = .ok (heapEnd, h') ∧ h'.os = os ∧
      Stored ((A.grow heapEnd b).relist (Function.update A.listed b [heapEnd]) A.chain) bigBins
        h' ∧ ∀ x, A.Spared bigBins heapEnd x → h'.mem x = h.mem x := by
  have hextent : extent b = 0x1000 := if_pos hb
  have hB : (A.grow heapEnd b).Layout bigBins (heapEnd + 0x1000) :=
    hextent ▸ hA.grow (Or.inl hb) (by rwa [hextent])
  have hp : heapEnd ∈ (A.grow heapEnd b).headers := List.mem_cons_self
  have hempty : h.binHead b = 0 := (hst.listed b hb).eq_nil_iff.mpr hlisted
  obtain ⟨hother, hsize, hnext, hstack⟩ := read_pageMem h.mem hB hb hp
    Arena.grow_size_self (show h.binHead b < 0x100000000 by rw [hempty]; decide)
  have hold : ∀ w, A.Has bigBins w →
      read (pageMem heapEnd b (h.binHead b) h.mem) w = read h.mem w := fun w hw =>
    hother w (hA.has_grow hw) (hA.owner_ne hw)
  refine ⟨_, growBin_eq hA.heapEnd_page (by omega) hsbrk, rfl, ?_, fun x hx =>
    pageMem_data hB hb hp Arena.grow_size_self Arena.grow_free_self
      (hextent ▸ hA.spared_grow hx)⟩
  refine hst.extend (p := heapEnd) rfl (fun q hq => Arena.grow_size_of_ne (hA.ne_heapEnd hq))
    (fun q hq => Arena.grow_free_of_ne (hA.ne_heapEnd hq))
    (fun q hq c hc => ⟨hq, hA.free_cell q hq c hc⟩) rfl rfl (fun w hw _ => hold w hw)
    ?_ ?_ ?_ ?_ ?_
  · rw [hsize]
    exact Arena.grow_size_self.symm
  · simp only [Arena.relist, Arena.grow_free_self]
    exact hstack
  · intro b' hb'
    simp only [Arena.relist]
    by_cases hbb : b' = b
    · subst hbb
      rw [Function.update_self, Function.update_self]
      exact ⟨rfl, hB.header_pos hp, hnext.trans hempty⟩
    · rw [Function.update_of_ne hbb, Function.update_of_ne hbb]
      exact (hst.listed b' hb').congr fun q hq => hold (.next q) (hst.listed_header b' hb' q hq)
  · intro b' hb' q hq
    simp only [Arena.relist] at hq
    by_cases hbb : b' = b
    · subst hbb
      rw [Function.update_self, List.mem_singleton] at hq
      exact hq ▸ hp
    · rw [Function.update_of_ne hbb] at hq
      exact List.mem_cons_of_mem _ (hst.listed_header b' hb' q hq)
  · intro hne
    have hnewest := hst.newest hne
    refine ⟨List.mem_cons_of_mem _ hnewest.1, ?_⟩
    simp only [Arena.relist]
    rw [Arena.grow_size_of_ne (hA.ne_heapEnd hnewest.1)]
    exact hnewest.2

/-- **A new big block**, which is given out at once.  Its pages are the header and the block, and it
is in no list until it comes back. -/
theorem growBig (hst : Stored A bigBins h) (hA : A.Layout bigBins heapEnd) (hidx : A.Indexed)
    {pages : Nat}
    (hpages : pages = (n + 44) / 0x1000 + 1) (hfits : heapEnd + 0x1000 * pages < 0x100000000)
    (hsbrk : env.sbrk (0x1000 * pages) h.os = .ok (heapEnd, os)) :
    ∃ h', MyaXOS.growBig env n h = .ok (heapEnd + 44, h') ∧ h'.os = os ∧
      Stored ((A.grow heapEnd (0x1000 * pages - 44)).take heapEnd (heapEnd + 44) [] n) bigBins
        h' ∧ ∀ x, A.Spared bigBins heapEnd x → h'.mem x = h.mem x := by
  obtain ⟨s, hs⟩ : ∃ s, s = 0x1000 * pages - 44 := ⟨_, rfl⟩
  have hbig : ¬ s < 10 := by omega
  have hextent : extent s = 0x1000 * pages := by rw [extent, if_neg hbig]; omega
  have hB : (A.grow heapEnd s).Layout bigBins (heapEnd + 0x1000 * pages) :=
    hextent ▸ hA.grow (Or.inr ⟨by omega, by omega⟩) (by rwa [hextent])
  have hp : heapEnd ∈ (A.grow heapEnd s).headers := List.mem_cons_self
  have hpbig : ¬ (A.grow heapEnd s).size heapEnd < 10 := by rwa [Arena.grow_size_self]
  have hnewest : h.newestBig ≠ 0 → h.newestBig ∈ (A.grow heapEnd s).headers := fun hne =>
    List.mem_cons_of_mem _ (hst.newest hne).1
  have hnew : h.newestBig < 0x100000000 := by
    by_cases hne : h.newestBig = 0
    · rw [hne]
      decide
    · have := hA.header_lt (hst.newest hne).1
      omega
  obtain ⟨hother, hsize, hhead⟩ := read_bigMem h.mem hB hp hpbig
    (show s < 0x100000000 by omega) hnew hnewest
  have hold : ∀ w, A.Has bigBins w → (∀ q, w = .next q → q ≠ h.newestBig) →
      read (bigMem heapEnd s h.newestBig h.mem) w = read h.mem w := fun w hw =>
    hother w (hA.has_grow hw) (hA.owner_ne hw)
  refine ⟨_, growBig_eq hpages hA.heapEnd_page hfits hnew hsbrk, rfl, ?_, fun x hx => ?_⟩
  · rw [← hs]
    refine hst.extend (p := heapEnd) rfl (fun q hq => Arena.grow_size_of_ne (hA.ne_heapEnd hq))
      (fun q hq => ?_) (fun q hq c hc => ⟨hq, hA.free_cell q hq c hc⟩) rfl rfl
      (fun w hw hne => hold w hw fun q he => absurd he (hne q)) ?_ ?_ ?_ ?_ fun _ => ⟨hp, hpbig⟩
    · rw [Arena.take_free_of_ne (hA.ne_heapEnd hq), Arena.grow_free_of_ne (hA.ne_heapEnd hq)]
    · exact hsize.trans Arena.grow_size_self.symm
    · rw [Arena.take_free_self]
      exact hhead
    · intro b hb
      refine (hst.listed b hb).congr fun q hq => hold (.next q) (hst.listed_header b hb q hq) ?_
      -- the pages in the lists are not big
      rintro q' hq' rfl
      cases hq'
      have hlisted := (hidx.listed_iff b hb h.newestBig).mp hq
      refine (hst.newest (hA.header_pos hlisted.1)).2 ?_
      rw [hlisted.2.1]
      exact hb
    · exact fun b hb q hq => List.mem_cons_of_mem _ (hst.listed_header b hb q hq)
  · rw [← hs]
    exact bigMem_data hB hp hpbig hnewest (hextent ▸ hA.spared_grow hx)

end Stored

end MyaXOS
