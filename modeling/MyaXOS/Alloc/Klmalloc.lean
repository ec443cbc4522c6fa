import Mathlib.Logic.Function.Basic
import MyaXOS.Alloc.Bins

/-!
# `klmalloc` and `klfree`

The allocator of `alloc.c`.  Its small bins are pages cut into blocks of one size; the free blocks
of a page are a stack, and the pages that have a free block are in the list of their bin.  Big
blocks have pages of their own, and those that are free are in the skip list `klmalloc_big_bins`.

`AllocEnv` is what the allocator finds in the kernel around it: `sbrk`, the address of the head of
its skip list, and the random numbers.  `AllocHeap` is what it keeps: the memory, what `sbrk` and
the random numbers depend on, and its variables that no pointer leads to.  Pointers are addresses in
the memory of the heap, and `&klmalloc_big_bins.head` is one of them: the searches start there.

* **Memory is read where the code reads it.**  Nothing is cached: a function that reads a field
  twice, before and after a write, does so here too.  The lists, the stacks and the skip list are
  therefore not data structures of the model but a reading of the memory, and that the reading makes
  sense is the invariant of `Alloc/Stored.lean`, not an assumption.
* **Loops that follow pointers** have fuel for `2 ^ 32` rounds.  There are no more addresses than
  that, so a loop that needs more has been at one address twice, and never ends; it is `.spin` in
  the model.  The theorems show that this does not happen (`Chain.length_le_of_nodup` is why).
* **Assertions** halt, with the text that `ASSERT` prints.  They are part of the functions, so what
  is proved to return has passed all of them.

`randomLevelLoop` and `klmallocSkipRand` have the arithmetic of the source, although no theorem
depends on the numbers: what is proved holds for whatever level comes out, as long as it is at most
`SKIP_MAX_LEVEL`.

The few results in this file need no invariant.  `klmalloc_ne_zero` says that `malloc` returns
`NULL` for size 0 only, in any heap whatsoever, and `klmalloc_os` that it calls `sbrk` once at most;
both follow the branches of the function.
-/

set_option autoImplicit false

namespace MyaXOS

/-- What is around the allocator: the address of its one big variable, and the two functions that it
calls.  They are parameters, since all that is proved here holds for every outcome of the random
levels and for every `sbrk` that hands out fresh pages. -/
structure AllocEnv (σ ρ : Type) where
  /-- `&klmalloc_big_bins.head`. -/
  bigBins : Nat
  /-- `sbrk(increment)`. -/
  sbrk : Nat → σ → Except Stop (Nat × σ)
  /-- `klmalloc_skip_rand()`. -/
  skipRand : ρ → Nat × ρ

/-- The variables of the allocator and of the two functions it calls. -/
structure AllocHeap (σ ρ : Type) where
  mem : Mem
  /-- `klmalloc_bin_head[i].first`. -/
  binHead : Nat → Nat
  /-- `klmalloc_big_bins.level`. -/
  level : Nat
  /-- `klmalloc_newest_big`. -/
  newestBig : Nat
  /-- What `sbrk` keeps. -/
  os : σ
  /-- What `klmalloc_skip_rand` keeps. -/
  rng : ρ

variable {σ ρ : Type}

/-! ## Page lists

Both functions change the head of a bin and one field `next`.  The source passes a pointer to the
head; here it is the number of the bin, since the heads are variables of the allocator and not words
that anything else could reach. -/

/-- `klmalloc_list_decouple(&klmalloc_bin_head[bucket], node)`. -/
def klmallocListDecouple (bucket node : Nat) (h : AllocHeap σ ρ) : AllocHeap σ ρ :=
  { h with
    binHead := Function.update h.binHead bucket (read h.mem (.next node))
    mem := write h.mem (.next node) 0 }

/-- `klmalloc_list_insert(&klmalloc_bin_head[bucket], node)`. -/
def klmallocListInsert (bucket node : Nat) (h : AllocHeap σ ρ) : AllocHeap σ ρ :=
  { h with
    binHead := Function.update h.binHead bucket node
    mem := write h.mem (.next node) (h.binHead bucket) }

/-! ## The skip list

The loops that follow pointers have fuel, which they do not use up: there are no more nodes in a
level than addresses (`SkipStored.length_lt`).  A loop that does run out of fuel is one that never
ends, and is modelled as a `Stop.spin`.  The levels are counted down by recursion, so these loops
need no fuel. -/

/-- The state of `klmalloc_skip_rand`: its variables `x`, `y`, `z`, `w`. -/
structure SkipRand where
  x : Nat
  y : Nat
  z : Nat
  w : Nat
  deriving DecidableEq, Repr

/-- The seed. -/
def SkipRand.seed : SkipRand := ⟨123456789, 362436069, 521288629, 88675123⟩

/-- `klmalloc_skip_rand()`. -/
def klmallocSkipRand (r : SkipRand) : Nat × SkipRand :=
  let t := r.x ^^^ u32 (r.x <<< 11)
  let w := r.w ^^^ (r.w >>> 19) ^^^ t ^^^ (t >>> 8)
  (w, ⟨r.y, r.z, r.w, w⟩)

/-- The loop of `klmalloc_random_level`, with `left` levels to go to `SKIP_MAX_LEVEL`. -/
def randomLevelLoop (skipRand : ρ → Nat × ρ) : Nat → ρ → Nat × ρ
  | 0, rng => (6, (skipRand rng).2)
  | left + 1, rng =>
    if (skipRand rng).1 < 0x7FFFFFFF then randomLevelLoop skipRand left (skipRand rng).2
    else (6 - (left + 1), (skipRand rng).2)

/-- `klmalloc_random_level()`. -/
def klmallocRandomLevel (skipRand : ρ → Nat × ρ) (rng : ρ) : Nat × ρ :=
  randomLevelLoop skipRand 6 rng

/-- The fuel of a loop that follows pointers. -/
def walkFuel : Nat := 0x100000001

/-- The `while` loop of the three searches, on level `i`. -/
def skipAlong (m : Mem) (i size : Nat) : Nat → Nat → Except Stop Nat
  | 0, _ => .error .spin
  | fuel + 1, node =>
    let next := read m (.forward node i)
    if next ≠ 0 ∧ read m (.size next) < size then do
      assert (u32 (read m (.size next) + 44) % 0x1000 = 0)
        "(node->size + sizeof(klmalloc_big_bin_header)) % PAGE_SIZE == 0"
      skipAlong m i size fuel next
    else .ok node

/-- The `for` loop of the three searches: from level `i - 1` down to level 0.  It returns the node
and the array `update`. -/
def skipSearch (m : Mem) (size : Nat) : Nat → Nat → (Nat → Nat) → Except Stop (Nat × (Nat → Nat))
  | 0, node, update => .ok (node, update)
  | i + 1, node, update => do
    let node ← skipAlong m i size walkFuel node
    skipSearch m size i node (Function.update update i node)

/-- `klmalloc_skip_list_findbest(search_size)`. -/
def klmallocSkipListFindbest (bigBins searchSize : Nat) (h : AllocHeap σ ρ) : Except Stop Nat := do
  let (node, _) ← skipSearch h.mem searchSize (h.level + 1) bigBins fun _ => 0
  let node := read h.mem (.forward node 0)
  assert (node ≠ 0 → node % 0x1000 = 0) "(uintptr_t)node % PAGE_SIZE == 0"
  assert (node ≠ 0 → u32 (read h.mem (.size node) + 44) % 0x1000 = 0)
    "(node->size + sizeof(klmalloc_big_bin_header)) % PAGE_SIZE == 0"
  .ok node

/-- The loop that links `node` into the levels below `i`. -/
def skipLink (node : Nat) (update : Nat → Nat) : Nat → Mem → Except Stop Mem
  | 0, m => .ok m
  | i + 1, m => do
    let m ← skipLink node update i m
    let m := write m (.forward node i) (read m (.forward (update i) i))
    let next := read m (.forward node i)
    assert (next ≠ 0 → u32 (read m (.size next) + 44) % 0x1000 = 0)
      "(node->forward[i]->size + sizeof(klmalloc_big_bin_header)) % PAGE_SIZE == 0"
    .ok (write m (.forward (update i) i) node)

/-- `klmalloc_skip_list_insert(value)`. -/
def klmallocSkipListInsert (bigBins : Nat) (skipRand : ρ → Nat × ρ) (value : Nat)
    (h : AllocHeap σ ρ) : Except Stop (AllocHeap σ ρ) := do
  assert (value ≠ 0) "value != NULL"
  assert (read h.mem (.head value) ≠ 0) "value->head != NULL"
  assert (value % 0x1000 = 0) "(uintptr_t)value % PAGE_SIZE == 0"
  assert (u32 (read h.mem (.size value) + 44) % 0x1000 = 0)
    "(value->size + sizeof(klmalloc_big_bin_header)) % PAGE_SIZE == 0"
  assert (read h.mem (.size value) ≠ 0) "value->size != 0"
  let (node, update) ← skipSearch h.mem (read h.mem (.size value)) (h.level + 1) bigBins fun _ => 0
  if read h.mem (.forward node 0) = value then .ok h
  else
    let (level, rng) := klmallocRandomLevel skipRand h.rng
    -- the levels that the list does not have yet start at its head
    let update := fun i => if h.level < i then bigBins else update i
    let m ← skipLink value update (level + 1) h.mem
    .ok { h with mem := m, level := max h.level level, rng }

/-- The loop of `klmalloc_skip_list_delete` that goes on to `value`.  It does not end anywhere else,
so the search from the front that comes after it in the source is never made. -/
def skipTo (m : Mem) (value : Nat) : Nat → Nat → Except Stop Nat
  | 0, _ => .error .spin
  | fuel + 1, node =>
    if node = value then .ok node
    else if node = 0 then .error .nullPointer
    else skipTo m value fuel (read m (.forward node 0))

/-- The loop that unlinks `node`, from level `i` on, with `left` levels to go. -/
def skipUnlink (node : Nat) (update : Nat → Nat) : Nat → Nat → Mem → Except Stop Mem
  | 0, _, m => .ok m
  | left + 1, i, m =>
    if read m (.forward (update i) i) ≠ node then .ok m
    else do
      let m := write m (.forward (update i) i) (read m (.forward node i))
      let next := read m (.forward (update i) i)
      assert (next ≠ 0 → next % 0x1000 = 0) "(uintptr_t)(update[i]->forward[i]) % PAGE_SIZE == 0"
      assert (next ≠ 0 → u32 (read m (.size next) + 44) % 0x1000 = 0)
        "(update[i]->forward[i]->size + sizeof(klmalloc_big_bin_header)) % PAGE_SIZE == 0"
      skipUnlink node update left (i + 1) m

/-- The loop that lowers `klmalloc_big_bins.level`. -/
def skipLower (m : Mem) (bigBins : Nat) : Nat → Nat
  | 0 => 0
  | level + 1 =>
    if read m (.forward bigBins (level + 1)) = 0 then skipLower m bigBins level else level + 1

/-- `klmalloc_skip_list_delete(value)`. -/
def klmallocSkipListDelete (bigBins value : Nat) (h : AllocHeap σ ρ) :
    Except Stop (AllocHeap σ ρ) := do
  assert (value ≠ 0) "value != NULL"
  assert (read h.mem (.head value) ≠ 0) "value->head"
  let (node, update) ← skipSearch h.mem (read h.mem (.size value)) (h.level + 1) bigBins fun _ => 0
  let node ← skipTo h.mem value walkFuel (read h.mem (.forward node 0))
  let m ← skipUnlink node update (h.level + 1) 0 h.mem
  .ok { h with mem := m, level := skipLower m bigBins h.level }

/-! ## Stacks

The stack of the free blocks of a page, and of the one block of a big bin.  The first asserts that
its header is not `NULL` and has something to pop, and the second that what is pushed is not `NULL`.
-/

/-- `klmalloc_stack_pop(header)`. -/
def klmallocStackPop (header : Nat) (m : Mem) : Except Stop (Nat × Mem) := do
  assert (header ≠ 0) "header"
  assert (read m (.head header) ≠ 0) "header->head != NULL"
  let item := read m (.head header)
  .ok (item, write m (.head header) (read m (.item item)))

/-- `klmalloc_stack_push(header, ptr)`. -/
def klmallocStackPush (header ptr : Nat) (m : Mem) : Except Stop Mem := do
  assert (ptr ≠ 0) "ptr != NULL"
  let m := write m (.item ptr) (read m (.head header))
  .ok (write m (.head header) ptr)

/-- The loop of `klmalloc` that links each of the first `n` blocks of a new page to the next. -/
def stackFill (base bucket : Nat) : Nat → Mem → Mem
  | 0, m => m
  | i + 1, m =>
    write (stackFill base bucket i m) (.item (base + 4 * (i <<< bucket)))
      (base + 4 * ((i + 1) <<< bucket))

/-! ## `malloc`

The body of `klmalloc`, in the pieces that its branches are made of.  The sums wrap around where the
source's do: `u32` is written at the rounding to pages and at the header that is added, so that a
request near the end of the address space is rounded as the source rounds it. -/

/-- A new page for a small bin, as `klmalloc` makes it. -/
def growBin (env : AllocEnv σ ρ) (bucket : Nat) (h : AllocHeap σ ρ) :
    Except Stop (Nat × AllocHeap σ ρ) := do
  let (header, os) ← env.sbrk 0x1000 h.os
  assert (header % 0x1000 = 0) "(uintptr_t)bin_header % PAGE_SIZE == 0"
  let h := { h with mem := write h.mem (.head header) (u32 (header + 12)), os }
  let h := klmallocListInsert bucket header h
  let available := ((0x1000 - 12) >>> (2 + bucket)) - 1
  let base := read h.mem (.head header)
  let m := stackFill base bucket available h.mem
  let m := write m (.item (base + 4 * (available <<< bucket))) 0
  .ok (header, { h with mem := write m (.size header) bucket })

/-- A block of the page `header`, which leaves the list of its bin when it has none left. -/
def popBin (bucket header : Nat) (h : AllocHeap σ ρ) : Except Stop (Nat × AllocHeap σ ρ) := do
  let (item, m) ← klmallocStackPop header h.mem
  let h := { h with mem := m }
  if read h.mem (.head header) = 0 then .ok (item, klmallocListDecouple bucket header h)
  else .ok (item, h)

/-- `klmalloc(size)` for a small bin. -/
def klmallocSmall (env : AllocEnv σ ρ) (bucket : Nat) (h : AllocHeap σ ρ) :
    Except Stop (Nat × AllocHeap σ ρ) := do
  let (header, h) ← if h.binHead bucket = 0 then growBin env bucket h
    else .ok (h.binHead bucket, h)
  popBin bucket header h

/-- A new big block, as `klmalloc` makes it. -/
def growBig (env : AllocEnv σ ρ) (size : Nat) (h : AllocHeap σ ρ) :
    Except Stop (Nat × AllocHeap σ ρ) := do
  let pages := u32 (size + 44) / 0x1000 + 1
  let (header, os) ← env.sbrk (u32 (0x1000 * pages)) h.os
  assert (header % 0x1000 = 0) "(uintptr_t)bin_header % PAGE_SIZE == 0"
  let m := write h.mem (.size header) (u32 (0x1000 * pages - 44))
  assert (u32 (read m (.size header) + 44) % 0x1000 = 0)
    "(bin_header->size + sizeof(klmalloc_big_bin_header)) % PAGE_SIZE == 0"
  let m := write m (.prev header) h.newestBig
  let prev := read m (.prev header)
  let m := if prev ≠ 0 then write m (.next prev) header else m
  let m := write m (.next header) 0
  let m := write m (.head header) 0
  .ok (u32 (header + 44), { h with mem := m, newestBig := header, os })

/-- `klmalloc(size)` for a big bin. -/
def klmallocBig (env : AllocEnv σ ρ) (size : Nat) (h : AllocHeap σ ρ) :
    Except Stop (Nat × AllocHeap σ ρ) := do
  let header ← klmallocSkipListFindbest env.bigBins size h
  if header ≠ 0 then
    let h ← klmallocSkipListDelete env.bigBins header h
    let (item, m) ← klmallocStackPop header h.mem
    .ok (item, { h with mem := m })
  else growBig env size h

/-- `klmalloc(size)`. -/
def klmalloc (env : AllocEnv σ ρ) (size : Nat) (h : AllocHeap σ ρ) :
    Except Stop (Nat × AllocHeap σ ρ) :=
  if size = 0 then .ok (0, h)
  else if klmallocBinSize size < 10 then klmallocSmall env (klmallocBinSize size) h
  else klmallocBig env size h

/-- What `klmalloc(size)` asks `sbrk` for, if it does. -/
def askedIncrement (size : Nat) : Nat :=
  if klmallocBinSize size < 10 then 0x1000 else u32 (0x1000 * (u32 (size + 44) / 0x1000 + 1))

section
variable {env : AllocEnv σ ρ} {h h' : AllocHeap σ ρ} {bucket header size ptr : Nat}

theorem klmallocStackPop_ne_zero {m m' : Mem} (hpop : klmallocStackPop header m = .ok (ptr, m')) :
    ptr ≠ 0 := by
  rw [klmallocStackPop] at hpop
  obtain ⟨_, -, hpop⟩ := bind_eq_ok hpop
  obtain ⟨_, hhead, hpop⟩ := bind_eq_ok hpop
  cases hpop
  exact assert_ok hhead

theorem popBin_ne_zero (hok : popBin bucket header h = .ok (ptr, h')) : ptr ≠ 0 := by
  rw [popBin] at hok
  obtain ⟨⟨item, m⟩, hitem, hok⟩ := bind_eq_ok hok
  simp only at hok
  split_ifs at hok <;> cases hok <;> exact klmallocStackPop_ne_zero hitem

theorem klmallocSmall_ne_zero (hok : klmallocSmall env bucket h = .ok (ptr, h')) : ptr ≠ 0 := by
  rw [klmallocSmall] at hok
  split_ifs at hok
  · obtain ⟨⟨header, h₁⟩, -, hpop⟩ := bind_eq_ok hok
    exact popBin_ne_zero hpop
  · exact popBin_ne_zero hok

theorem growBig_ne_zero (hok : growBig env size h = .ok (ptr, h')) : ptr ≠ 0 := by
  rw [growBig] at hok
  obtain ⟨⟨header, os⟩, -, hok⟩ := bind_eq_ok hok
  obtain ⟨_, haligned, hok⟩ := bind_eq_ok hok
  obtain ⟨_, -, hok⟩ := bind_eq_ok hok
  have hheader := assert_ok haligned
  cases hok
  rw [u32]
  omega

/-- **`malloc` returns `NULL` for no size but 0**, whatever the state of the heap: it has no branch
for a failure, and where it cannot go on it stops. -/
theorem klmalloc_ne_zero (hsize : 0 < size) (hok : klmalloc env size h = .ok (ptr, h')) :
    ptr ≠ 0 := by
  rw [klmalloc, if_neg hsize.ne'] at hok
  split_ifs at hok
  · exact klmallocSmall_ne_zero hok
  · rw [klmallocBig] at hok
    obtain ⟨header, -, hok⟩ := bind_eq_ok hok
    split_ifs at hok
    · obtain ⟨h₁, -, hok⟩ := bind_eq_ok hok
      obtain ⟨⟨item, m⟩, hitem, hok⟩ := bind_eq_ok hok
      cases hok
      exact klmallocStackPop_ne_zero hitem
    · exact growBig_ne_zero hok

theorem popBin_os (hok : popBin bucket header h = .ok (ptr, h')) : h'.os = h.os := by
  rw [popBin] at hok
  obtain ⟨⟨item, m⟩, -, hok⟩ := bind_eq_ok hok
  simp only at hok
  split_ifs at hok <;> cases hok <;> rfl

theorem growBin_os (hok : growBin env bucket h = .ok (header, h')) :
    env.sbrk 0x1000 h.os = .ok (header, h'.os) := by
  rw [growBin] at hok
  obtain ⟨⟨a, os⟩, hsbrk, hok⟩ := bind_eq_ok hok
  obtain ⟨_, -, hok⟩ := bind_eq_ok hok
  cases hok
  exact hsbrk

theorem growBig_os (hok : growBig env size h = .ok (ptr, h')) :
    ∃ a, env.sbrk (u32 (0x1000 * (u32 (size + 44) / 0x1000 + 1))) h.os = .ok (a, h'.os) := by
  rw [growBig] at hok
  obtain ⟨⟨a, os⟩, hsbrk, hok⟩ := bind_eq_ok hok
  obtain ⟨_, -, hok⟩ := bind_eq_ok hok
  obtain ⟨_, -, hok⟩ := bind_eq_ok hok
  cases hok
  exact ⟨a, hsbrk⟩

theorem klmallocSkipListDelete_os {bigBins value : Nat}
    (hok : klmallocSkipListDelete bigBins value h = .ok h') : h'.os = h.os := by
  rw [klmallocSkipListDelete] at hok
  obtain ⟨_, -, hok⟩ := bind_eq_ok hok
  obtain ⟨_, -, hok⟩ := bind_eq_ok hok
  obtain ⟨⟨_, _⟩, -, hok⟩ := bind_eq_ok hok
  obtain ⟨_, -, hok⟩ := bind_eq_ok hok
  obtain ⟨_, -, hok⟩ := bind_eq_ok hok
  cases hok
  rfl

/-- **`malloc` calls `sbrk` once at most**, and is otherwise done with what is there. -/
theorem klmalloc_os (hok : klmalloc env size h = .ok (ptr, h')) :
    h'.os = h.os ∨ ∃ a, env.sbrk (askedIncrement size) h.os = .ok (a, h'.os) := by
  rw [klmalloc] at hok
  rw [askedIncrement]
  by_cases hsize : size = 0
  · rw [if_pos hsize] at hok
    cases hok
    exact Or.inl rfl
  · rw [if_neg hsize] at hok
    split_ifs at hok ⊢
    · rw [klmallocSmall] at hok
      split_ifs at hok
      · obtain ⟨⟨header, h₁⟩, hpage, hpop⟩ := bind_eq_ok hok
        rw [popBin_os hpop]
        exact Or.inr ⟨header, growBin_os hpage⟩
      · exact Or.inl (popBin_os hok)
    · rw [klmallocBig] at hok
      obtain ⟨header, -, hok⟩ := bind_eq_ok hok
      split_ifs at hok
      · obtain ⟨h₁, hdelete, hok⟩ := bind_eq_ok hok
        obtain ⟨⟨item, m⟩, -, hok⟩ := bind_eq_ok hok
        cases hok
        exact Or.inl (show h₁.os = h.os from klmallocSkipListDelete_os hdelete)
      · exact Or.inr (growBig_os hok)

end

/-! ## `free`

`klfree` has one function for both kinds of blocks, and tells them apart by the field `size` of the
header, which it finds by rounding down. -/

/-- `klfree(ptr)`. -/
def klfree (env : AllocEnv σ ρ) (ptr : Nat) (h : AllocHeap σ ρ) : Except Stop (AllocHeap σ ρ) :=
  if ptr = 0 then .ok h
  else do
    let header := ptr &&& 0xFFFFF000
    assert (header % 0x1000 = 0) "(uintptr_t)header % PAGE_SIZE == 0"
    let bucket := read h.mem (.size header)
    if 11 < bucket then
      assert (header ≠ 0) "bheader"
      assert (read h.mem (.head header) = 0) "bheader->head == NULL"
      assert (u32 (read h.mem (.size header) + 44) % 0x1000 = 0)
        "(bheader->size + sizeof(klmalloc_big_bin_header)) % PAGE_SIZE == 0"
      let m ← klmallocStackPush header (u32 (header + 44)) h.mem
      assert (read m (.head header) ≠ 0) "bheader->head != NULL"
      klmallocSkipListInsert env.bigBins env.skipRand header { h with mem := m }
    else
      let h := if read h.mem (.head header) = 0 then klmallocListInsert bucket header h else h
      let m ← klmallocStackPush header ptr h.mem
      .ok { h with mem := m }

end MyaXOS
