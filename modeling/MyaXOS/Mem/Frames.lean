import MyaXOS.Lib.Run
import MyaXOS.System

/-!
# Physical frames

The frame allocator of `mem.c` keeps one bit for each physical frame in the array `frames`, and the
number of the frame a page is mapped to in the page's own entry, a `page_t`.

* `firstFrame` finds the least clear bit of the whole words; `firstFrame_spec` says so.  The frames
  behind the last whole word are not looked at, and `searches_iff` says when this matters.
* `allocFrame` and `freeFrame` are one call on one entry.
* `Accounted` is what the two are for: the bitmap marks exactly the frames that present pages hold,
  and no two present pages hold the same one.
* `accounted_always_iff` is the result about runs.  `free_frame` hands a frame *number* to
  `clear_frame`, which expects an address, and leaves the entry present; `alloc_frame` takes frame
  number 0 to mean that the page has no frame.  So a run keeps its frames accounted for precisely as
  long as it steers clear of both, which `FrameCall.Sound` spells out.
* `not_alloc_free` is about a frame that is allocated and freed again.  The state from before never
  comes back.

**The bitmap as a set.**  A word of the bitmap has 32 bits, and a frame is a word and a bit in it.
The functions take these apart by division and masks; here that is done once, for the functions that
set and clear a bit, and from then on the bitmap is the set of the frames that are marked
(`marked`).  The search is the exception.  It skips words that are full and looks at the bits of the
first one that is not, so that it finds the least frame that is not marked: two loops, one within
the other, and the induction is on each of them.

**What makes a run go wrong.**  A call is harmless when it does nothing, which is `alloc_frame` for
a page with a frame or when none is left, and `free_frame` for a page without one; and when it gives
a page that is not present a frame whose number fits the entry.  All others break the accounts at
once, and this is the converse of the result about runs: a frame is marked that nobody holds, or
somebody holds a frame that is not marked or that is held already.  That is why `Accounted` is an
equivalence.  What is marked and not held is lost, and what is held and not marked will be handed
out once more.

Frames are also what later files count.  There the entries are those of page tables, and only
`alloc_frame` is called, always for an entry that is not present.
-/

set_option autoImplicit false

namespace MyaXOS

/-! ## The bitmap

A bit is set or cleared in one word, and bits of other words and other bits of the word are as they
were.  `marked_setFrame` and `marked_clearFrame` say this of frame numbers, and are all that is used
of the two functions afterwards. -/

/-- `INDEX_FROM_BIT(b)`. -/
def indexFromBit (b : Nat) : Nat := b / 0x20

/-- `OFFSET_FROM_BIT(b)`. -/
def offsetFromBit (b : Nat) : Nat := b % 0x20

/-- The array `frames`. -/
abbrev Bitmap := Nat → BitVec 32

/-- `set_frame(frame_addr)`. -/
def setFrame (frames : Bitmap) (frameAddr : Nat) : Bitmap :=
  let frame := frameAddr / 0x1000
  let index := indexFromBit frame
  let offset := offsetFromBit frame
  fun i => if i = index then frames i ||| (1#32 <<< offset) else frames i

/-- `clear_frame(frame_addr)`. -/
def clearFrame (frames : Bitmap) (frameAddr : Nat) : Bitmap :=
  let frame := frameAddr / 0x1000
  let index := indexFromBit frame
  let offset := offsetFromBit frame
  fun i => if i = index then frames i &&& ~~~(1#32 <<< offset) else frames i

/-- Is the bit of frame number `n` set? -/
def marked (frames : Bitmap) (n : Nat) : Bool :=
  (frames (indexFromBit n)).getLsbD (offsetFromBit n)

theorem offsetFromBit_lt (b : Nat) : offsetFromBit b < 32 := Nat.mod_lt _ (by decide)

theorem index_offset_inj {b c : Nat} (hi : indexFromBit b = indexFromBit c)
    (ho : offsetFromBit b = offsetFromBit c) : b = c := by
  simp only [indexFromBit, offsetFromBit] at hi ho
  omega

theorem getLsbD_bit {i j : Nat} (hj : j < 32) : (1#32 <<< i).getLsbD j = decide (j = i) := by
  rw [BitVec.getLsbD_shiftLeft, BitVec.getLsbD_one]
  by_cases h : j < i
  · simp [h, show j ≠ i by omega]
  · simp [h, hj, show (j - i = 0 ↔ j = i) by omega]

theorem marked_setFrame (frames : Bitmap) (a n : Nat) :
    marked (setFrame frames a) n = (marked frames n || decide (n = a / 0x1000)) := by
  simp only [marked, setFrame]
  by_cases hi : indexFromBit n = indexFromBit (a / 0x1000)
  · rw [if_pos hi, BitVec.getLsbD_or, getLsbD_bit (offsetFromBit_lt n)]
    congr 1
    rw [decide_eq_decide]
    exact ⟨index_offset_inj hi, fun h => by rw [h]⟩
  · rw [if_neg hi, decide_eq_false fun h => hi (by rw [h]), Bool.or_false]

theorem marked_clearFrame (frames : Bitmap) (a n : Nat) :
    marked (clearFrame frames a) n = (marked frames n && decide (n ≠ a / 0x1000)) := by
  simp only [marked, clearFrame]
  by_cases hi : indexFromBit n = indexFromBit (a / 0x1000)
  · rw [if_pos hi, BitVec.getLsbD_and, BitVec.getLsbD_not, getLsbD_bit (offsetFromBit_lt n),
      decide_eq_true (offsetFromBit_lt n), Bool.true_and]
    congr 1
    rw [Bool.eq_iff_iff, Bool.not_eq_true', decide_eq_false_iff_not, decide_eq_true_eq]
    exact ⟨fun h e => h (by rw [e]), fun h e => h (index_offset_inj hi e)⟩
  · have hne : n ≠ a / 0x1000 := fun h => hi (by rw [h])
    rw [if_neg hi, decide_eq_true hne, Bool.and_true]

/-! ### `first_frame`

The outer loop skips full words.  Its invariant is that all frames of the words before are marked,
so that a frame that is found is the least one.  A word that is not full has a clear bit, and the
inner loop ends at the lowest; the code that would come after the inner loop is never reached from
such a word. -/

/-- The inner loop of `first_frame`: the first `j` whose bit is clear in the word. -/
def firstBit (word : BitVec 32) : Option Nat :=
  (List.range 32).find? fun j => word &&& (1#32 <<< j) == 0#32

/-- The outer loop of `first_frame`, from word `i` on, with `k` words left.  A `-1` is returned as
the `uint32_t` it is. -/
def firstFrameLoop (frames : Bitmap) : Nat → Nat → Nat
  | 0, _ => 0xFFFFFFFF
  | k + 1, i =>
    if frames i ≠ 0xFFFFFFFF#32 then
      match firstBit (frames i) with
      | some j => i * 0x20 + j
      | none => firstFrameLoop frames k (i + 1)
    else firstFrameLoop frames k (i + 1)

/-- `first_frame()`. -/
def firstFrame (nframes : Nat) (frames : Bitmap) : Nat :=
  firstFrameLoop frames (indexFromBit nframes) 0

theorem and_bit_eq_zero (word : BitVec 32) {j : Nat} (hj : j < 32) :
    (word &&& (1#32 <<< j) == 0#32) = !word.getLsbD j := by
  rw [Bool.eq_iff_iff, beq_iff_eq, Bool.not_eq_true']
  constructor
  · intro h
    have hbit := congrArg (fun w => BitVec.getLsbD w j) h
    simpa only [BitVec.getLsbD_and, getLsbD_bit hj, decide_true, Bool.and_true,
      BitVec.getLsbD_zero] using hbit
  · intro h
    apply BitVec.eq_of_getLsbD_eq
    intro i hi
    rw [BitVec.getLsbD_and, getLsbD_bit hi, BitVec.getLsbD_zero]
    by_cases hij : i = j
    · rw [hij, h, Bool.false_and]
    · rw [decide_eq_false hij, Bool.and_false]

/-- The inner loop succeeds on a word that is not all ones, at the lowest clear bit. -/
theorem firstBit_spec {word : BitVec 32} (h : word ≠ 0xFFFFFFFF#32) :
    ∃ j, firstBit word = some j ∧ j < 32 ∧ word.getLsbD j = false ∧
      ∀ i < j, word.getLsbD i = true := by
  cases hj : firstBit word with
  | none =>
    -- every bit is set, so the word is the one the caller has skipped
    refine absurd (BitVec.eq_of_getLsbD_eq fun i hi => ?_) h
    have hi' := List.find?_range_eq_none.mp hj i hi
    rw [and_bit_eq_zero word hi, Bool.not_not] at hi'
    rw [hi', show 0xFFFFFFFF#32 = BitVec.allOnes 32 from rfl, BitVec.getLsbD_allOnes,
      decide_eq_true hi]
  | some j =>
    obtain ⟨hz, hmem, hlow⟩ := List.find?_range_eq_some.mp hj
    have hj32 : j < 32 := List.mem_range.mp hmem
    rw [and_bit_eq_zero word hj32, Bool.not_eq_true'] at hz
    refine ⟨j, rfl, hj32, hz, fun i hij => ?_⟩
    have hi := hlow i hij
    rwa [and_bit_eq_zero word (by omega), Bool.not_not] at hi

theorem marked_of_allOnes {frames : Bitmap} {n : Nat}
    (h : frames (indexFromBit n) = 0xFFFFFFFF#32) : marked frames n = true := by
  rw [marked, h, show 0xFFFFFFFF#32 = BitVec.allOnes 32 from rfl, BitVec.getLsbD_allOnes,
    decide_eq_true (offsetFromBit_lt n)]

/-- What the scan finds, given that the words before `i` are full. -/
theorem firstFrameLoop_spec (frames : Bitmap) : ∀ k i,
    (∀ n < i * 0x20, marked frames n = true) →
      (firstFrameLoop frames k i = 0xFFFFFFFF ∧ ∀ n < (i + k) * 0x20, marked frames n = true) ∨
      (firstFrameLoop frames k i < (i + k) * 0x20 ∧
        marked frames (firstFrameLoop frames k i) = false ∧
        ∀ n < firstFrameLoop frames k i, marked frames n = true)
  | 0, i, hfull => Or.inl ⟨rfl, hfull⟩
  | k + 1, i, hfull => by
    rw [firstFrameLoop]
    split
    · next hne =>
      obtain ⟨j, hj, hj32, hclear, hlow⟩ := firstBit_spec hne
      rw [hj]
      have hidx : indexFromBit (i * 0x20 + j) = i := by simp only [indexFromBit]; omega
      have hoff : offsetFromBit (i * 0x20 + j) = j := by simp only [offsetFromBit]; omega
      refine Or.inr ⟨by simp only; omega, by rw [marked, hidx, hoff]; exact hclear, ?_⟩
      intro n hn
      rcases Nat.lt_or_ge n (i * 0x20) with hlt | hge
      · exact hfull n hlt
      · have hidx' : indexFromBit n = i := by simp only at hn; simp only [indexFromBit]; omega
        have hoff' : offsetFromBit n < j := by simp only at hn; simp only [offsetFromBit]; omega
        rw [marked, hidx']
        exact hlow _ hoff'
    · next hall =>
      have hnext := firstFrameLoop_spec frames k (i + 1) fun n hn => by
        rcases Nat.lt_or_ge n (i * 0x20) with hlt | hge
        · exact hfull n hlt
        · have hidx : indexFromBit n = i := by simp only [indexFromBit]; omega
          exact marked_of_allOnes (by rw [hidx]; exact Decidable.not_not.mp hall)
      rwa [show i + (k + 1) = i + 1 + k by omega]

/-- **What `first_frame` finds.**  Either every frame it looks at is taken, or it returns the least
one that is not.  It looks at whole words only, so at the first `32 * (nframes / 32)` frames. -/
theorem firstFrame_spec (nframes : Nat) (frames : Bitmap) :
    (firstFrame nframes frames = 0xFFFFFFFF ∧
      ∀ n < indexFromBit nframes * 0x20, marked frames n = true) ∨
    (firstFrame nframes frames < indexFromBit nframes * 0x20 ∧
      marked frames (firstFrame nframes frames) = false ∧
      ∀ n < firstFrame nframes frames, marked frames n = true) := by
  have h := firstFrameLoop_spec frames (indexFromBit nframes) 0 (by omega)
  rwa [Nat.zero_add] at h

/-- With the frames below `n` marked and no others, it finds frame `n`, or nothing. -/
theorem firstFrame_of_marked {nframes n : Nat} {frames : Bitmap}
    (h : ∀ f, marked frames f = true ↔ f < n) :
    firstFrame nframes frames = if n < indexFromBit nframes * 0x20 then n else 0xFFFFFFFF := by
  rcases firstFrame_spec nframes frames with ⟨hnone, hall⟩ | ⟨hlt, hfree, hlow⟩
  · rw [if_neg fun hn => absurd ((h n).mp (hall n hn)) (Nat.lt_irrefl n), hnone]
  · have hge : n ≤ firstFrame nframes frames := by
      by_contra hc
      rw [(h _).mpr (by omega)] at hfree
      exact Bool.noConfusion hfree
    have hle : firstFrame nframes frames ≤ n := by
      by_contra hc
      exact absurd ((h n).mp (hlow n (by omega))) (Nat.lt_irrefl n)
    rw [if_pos (by omega)]
    omega

/-- `first_frame` looks no further than the word of the frame it returns. -/
theorem firstFrame_congr {nframes words : Nat} {frames frames' : Bitmap}
    (h : ∀ i < words, frames' i = frames i) (hwords : words * 0x20 ≤ 0xFFFFFFFF)
    (hfound : firstFrame nframes frames < words * 0x20 ∨ indexFromBit nframes ≤ words) :
    firstFrame nframes frames' = firstFrame nframes frames := by
  have hmarked : ∀ n < words * 0x20, marked frames' n = marked frames n := fun n hn => by
    rw [marked, marked, h _ (by simp only [indexFromBit]; omega)]
  rcases firstFrame_spec nframes frames with ⟨hnone, hall⟩ | ⟨hlt, hfree, hlow⟩ <;>
    rcases firstFrame_spec nframes frames' with ⟨hnone', hall'⟩ | ⟨hlt', hfree', hlow'⟩
  · rw [hnone, hnone']
  · rw [hmarked _ (by omega), hall _ hlt'] at hfree'
    exact absurd hfree'.symm Bool.false_ne_true
  · rw [← hmarked _ (by omega), hall' _ hlt] at hfree
    exact absurd hfree.symm Bool.false_ne_true
  · refine Nat.le_antisymm (Nat.le_of_not_lt fun hc => ?_) (Nat.le_of_not_lt fun hc => ?_)
    · rw [← hmarked _ (by omega), hlow' _ hc] at hfree
      exact absurd hfree.symm Bool.false_ne_true
    · rw [hmarked _ (by omega), hlow _ hc] at hfree'
      exact absurd hfree'.symm Bool.false_ne_true

/-! ## Page entries

The two functions on a single entry, with the bitmap as an argument.  An entry has 20 bits for the
number of a frame, so a number that does not fit is cut down. -/

/-- `page_t`: one entry of a page table. -/
@[ext] structure Page where
  present : Bool
  rw : Bool
  user : Bool
  accessed : Bool
  dirty : Bool
  unused : BitVec 7
  frame : BitVec 20
  deriving DecidableEq, Repr

/-- The entry whose bits are all zero. -/
def Page.zero : Page := ⟨false, false, false, false, false, 0#7, 0#20⟩

/-- What `alloc_frame` writes into an entry once it has found the frame `index`. -/
def Page.assign (page : Page) (index : Nat) (isKernel isWriteable : Bool) : Page :=
  { page with
    present := true
    rw := isWriteable
    user := !isKernel
    frame := BitVec.ofNat 20 index }

/-- `alloc_frame(page, is_kernel, is_writeable)`. -/
def allocFrame (nframes : Nat) (frames : Bitmap) (page : Page) (isKernel isWriteable : Bool) :
    Except Stop (Bitmap × Page) :=
  if page.frame ≠ 0#20 then .ok (frames, page)
  else
    let index := firstFrame nframes frames
    if index = 0xFFFFFFFF then .error (.halt "Failed to allocate a frame: out of frames")
    else .ok (setFrame frames (u32 (index * 0x1000)), page.assign index isKernel isWriteable)

/-- `free_frame(page)`. -/
def freeFrame (frames : Bitmap) (page : Page) : Bitmap × Page :=
  let frame := page.frame.toNat
  if frame = 0 then (frames, page)
  else (clearFrame frames frame, { page with frame := 0#20 })

/-! ### The last word of the bitmap

The search looks at `nframes / 32` words, so up to 31 frames at the end are never found.  It is
right as long as another frame is free, or none of these is. -/

/-- `index` is the least free frame below `nframes`. -/
def LeastFree (nframes : Nat) (frames : Bitmap) (index : Nat) : Prop :=
  index < nframes ∧ marked frames index = false ∧ ∀ n < index, marked frames n = true

/-- What the search for a frame is to do: `first_frame` finds the least free frame, it returns `-1`
only if there is none, and so `alloc_frame` halts only if there is none. -/
structure Searches (nframes : Nat) (frames : Bitmap) : Prop where
  found : firstFrame nframes frames ≠ 0xFFFFFFFF →
    LeastFree nframes frames (firstFrame nframes frames)
  none : firstFrame nframes frames = 0xFFFFFFFF → ∀ n < nframes, marked frames n = true
  halts : ∀ page isKernel isWriteable,
    allocFrame nframes frames page isKernel isWriteable =
      .error (.halt "Failed to allocate a frame: out of frames") →
    ∀ n < nframes, marked frames n = true

/-- `alloc_frame` halts when `first_frame` has returned `-1`. -/
theorem firstFrame_of_halt {nframes : Nat} {frames : Bitmap} {page : Page} {e : Stop}
    {isKernel isWriteable : Bool}
    (h : allocFrame nframes frames page isKernel isWriteable = .error e) :
    firstFrame nframes frames = 0xFFFFFFFF := by
  rw [allocFrame] at h
  split at h
  · cases h
  · by_contra hsome
    simp only [if_neg hsome] at h
    cases h

/-- A clear bit in one of the whole words is found, and the least one. -/
theorem leastFree_of_clear {nframes : Nat} {frames : Bitmap} {n : Nat}
    (hn : n < indexFromBit nframes * 0x20) (hclear : marked frames n = false) :
    firstFrame nframes frames < indexFromBit nframes * 0x20 ∧
      LeastFree nframes frames (firstFrame nframes frames) := by
  rcases firstFrame_spec nframes frames with ⟨-, hall⟩ | ⟨hlt, hfree, hlow⟩
  · rw [hall n hn] at hclear
    cases hclear
  · have hwhole : indexFromBit nframes * 0x20 ≤ nframes := Nat.div_mul_le_self nframes 0x20
    exact ⟨hlt, Nat.lt_of_lt_of_le hlt hwhole, hfree, hlow⟩

/-- **The search misses the frames behind the last whole word.**  It is right if one of the frames
in the whole words is free, or if none of those behind them is. -/
theorem searches_iff (nframes : UInt32) (frames : Bitmap) :
    Searches nframes.toNat frames ↔
      (∃ n < nframes.toNat / 32 * 32, marked frames n = false) ∨
      ∀ n < nframes.toNat, nframes.toNat / 32 * 32 ≤ n → marked frames n = true := by
  have hsize : nframes.toNat < 0x100000000 := nframes.toNat_lt
  generalize nframes.toNat = count at hsize ⊢
  constructor
  · intro h
    rcases firstFrame_spec count frames with ⟨hnone, -⟩ | ⟨hlt, hfree, -⟩
    · exact Or.inr fun n hn _ => h.none hnone n hn
    · exact Or.inl ⟨_, hlt, hfree⟩
  · rintro (⟨n, hn, hclear⟩ | hrest)
    · obtain ⟨hlt, hleast⟩ := leastFree_of_clear hn hclear
      have hsome : firstFrame count frames ≠ 0xFFFFFFFF := by
        rw [indexFromBit] at hlt
        omega
      exact ⟨fun _ => hleast, fun hnone => absurd hnone hsome,
        fun _ _ _ hhalt => absurd (firstFrame_of_halt hhalt) hsome⟩
    · have hnone : firstFrame count frames = 0xFFFFFFFF →
          ∀ n < count, marked frames n = true := by
        intro hnone n hn
        rcases firstFrame_spec count frames with ⟨-, hall⟩ | ⟨hlt, -, -⟩
        · by_cases hword : n < count / 32 * 32
          · exact hall n hword
          · exact hrest n hn (Nat.not_lt.mp hword)
        · rw [hnone, indexFromBit] at hlt
          omega
      refine ⟨fun hsome => ?_, hnone, fun _ _ _ hhalt => hnone (firstFrame_of_halt hhalt)⟩
      obtain ⟨hlt, hfree, -⟩ := (firstFrame_spec count frames).resolve_left fun h => hsome h.1
      exact (leastFree_of_clear hlt hfree).2

/-- With 33 frames, of which the last one is free, `alloc_frame` is out of frames. -/
theorem not_searches :
    ¬ Searches 33 fun i => if i = 0 then 0xFFFFFFFF#32 else 0#32 := by
  intro h
  have hmarked := h.halts Page.zero false false rfl 32 (by decide)
  exact absurd hmarked (by decide)

/-! ## Runs over a collection of entries

The entries are those of any type of pages; nothing depends on where they are.  `FrameCall.Sound` is
the exact condition under which a call keeps the account, and it is a condition on the entry and the
bitmap before the call. -/

/-- The bitmap, and the entries of the pages `ι`.  How the pages are arranged in tables does not
matter to `alloc_frame` and `free_frame`, which get a pointer to an entry. -/
structure FrameState (ι : Type) where
  frames : Bitmap
  pages : ι → Page

/-- A call on the entry of page `p`. -/
inductive FrameCall (ι : Type) where
  | alloc (p : ι) (isKernel isWriteable : Bool)
  | free (p : ι)

variable {ι : Type} [DecidableEq ι]

/-- Replace the entry of page `p`. -/
def FrameState.setPage (s : FrameState ι) (p : ι) (page : Page) : ι → Page :=
  fun q => if q = p then page else s.pages q

/-- Perform a call. -/
def FrameCall.perform (nframes : Nat) : FrameCall ι → FrameState ι → Except Stop (FrameState ι)
  | .alloc p isKernel isWriteable, s =>
    match allocFrame nframes s.frames (s.pages p) isKernel isWriteable with
    | .ok (frames, page) => .ok ⟨frames, s.setPage p page⟩
    | .error e => .error e
  | .free p, s =>
    let (frames, page) := freeFrame s.frames (s.pages p)
    .ok ⟨frames, s.setPage p page⟩

/-- All bits clear, all entries zero. -/
def FrameState.initial (ι : Type) : FrameState ι := ⟨fun _ => 0#32, fun _ => Page.zero⟩

/-- Page `p` is present and holds frame number `n`.  A page that is not present holds none, whatever
number is left in its entry. -/
def FrameState.Holds (s : FrameState ι) (p : ι) (n : Nat) : Prop :=
  (s.pages p).present = true ∧ (s.pages p).frame.toNat = n

/-- The bitmap marks exactly the frames held by present pages, and no frame is held by two. -/
structure Accounted (s : FrameState ι) : Prop where
  /-- Marked means held. -/
  marked_iff : ∀ n, marked s.frames n = true ↔ ∃ p, s.Holds p n
  /-- A frame is held once. -/
  unique : ∀ p q n, s.Holds p n → s.Holds q n → p = q

/-- The calls that keep the frames accounted for.  `alloc_frame` has to be made on an entry that
holds a frame already, or run out of frames, or give a page that is not present a frame whose
number fits the 20 bits of the entry.  (A page present with frame 0 does come to no harm when the
number found is a multiple of `0x100000`, since the entry then keeps its 0.)  `free_frame` has to be
made on an entry with frame number 0, where it does nothing. -/
def FrameCall.Sound (nframes : Nat) : FrameCall ι → FrameState ι → Prop
  | .alloc p _ _, s =>
    (s.pages p).frame ≠ 0#20 ∨ firstFrame nframes s.frames = 0xFFFFFFFF ∨
      if (s.pages p).present then firstFrame nframes s.frames % 0x100000 = 0
      else firstFrame nframes s.frames < 0x100000
  | .free p, s => (s.pages p).frame = 0#20

/-! ### One call

What each call can do is said once, in `perform_alloc` and `perform_free`.  Of the ways that break
the account each has a lemma that says how, and these are the converse. -/

omit [DecidableEq ι] in
theorem accounted_initial : Accounted (FrameState.initial ι) where
  marked_iff n := by
    refine ⟨fun h => ?_, fun ⟨p, hp, _⟩ => ?_⟩
    · rw [marked, FrameState.initial, BitVec.getLsbD_zero] at h
      exact absurd h Bool.false_ne_true
    · exact absurd hp Bool.false_ne_true
  unique p q n hp := absurd hp.1 Bool.false_ne_true

/-- The state after `alloc_frame` has given page `p` the frame number `index`. -/
def FrameState.assign (s : FrameState ι) (p : ι) (index : Nat) (isKernel isWriteable : Bool) :
    FrameState ι :=
  ⟨setFrame s.frames (u32 (index * 0x1000)),
    s.setPage p ((s.pages p).assign index isKernel isWriteable)⟩

variable {s : FrameState ι} {p q : ι} {index n : Nat} {isKernel isWriteable : Bool}

theorem pages_assign_self : (s.assign p index isKernel isWriteable).pages p =
    (s.pages p).assign index isKernel isWriteable := if_pos rfl

theorem pages_assign_of_ne (h : q ≠ p) :
    (s.assign p index isKernel isWriteable).pages q = s.pages q := if_neg h

theorem marked_assign : marked (s.assign p index isKernel isWriteable).frames n =
    (marked s.frames n || decide (n = index % 0x100000)) := by
  rw [FrameState.assign, marked_setFrame,
    show u32 (index * 0x1000) / 0x1000 = index % 0x100000 by simp only [u32]; omega]

theorem holds_assign_self :
    (s.assign p index isKernel isWriteable).Holds p n ↔ n = index % 0x100000 := by
  simp only [FrameState.Holds, FrameState.assign, FrameState.setPage, Page.assign, ↓reduceIte,
    true_and, BitVec.toNat_ofNat]
  exact eq_comm

theorem holds_assign_of_ne (h : q ≠ p) :
    (s.assign p index isKernel isWriteable).Holds q n ↔ s.Holds q n := by
  simp only [FrameState.Holds, FrameState.assign, FrameState.setPage, if_neg h]

/-- A page that was not present may be given any unmarked frame whose number fits its entry. -/
theorem accounted_assign_of_not_present (h : Accounted s) (hp : (s.pages p).present = false)
    (hfree : marked s.frames index = false) (hfit : index < 0x100000) :
    Accounted (s.assign p index isKernel isWriteable) := by
  have hmod : index % 0x100000 = index := Nat.mod_eq_of_lt hfit
  have hnot : ∀ {n}, ¬ s.Holds p n := fun hh => by
    rw [FrameState.Holds, hp] at hh; exact Bool.false_ne_true hh.1
  refine ⟨fun n => ?_, fun q r n hq hr => ?_⟩
  · rw [marked_assign, Bool.or_eq_true, decide_eq_true_eq, h.marked_iff]
    constructor
    · rintro (⟨q, hq⟩ | hn)
      · exact ⟨q, (holds_assign_of_ne fun e => hnot (e ▸ hq)).mpr hq⟩
      · exact ⟨p, holds_assign_self.mpr hn⟩
    · rintro ⟨q, hq⟩
      by_cases hqp : q = p
      · subst hqp; exact Or.inr (holds_assign_self.mp hq)
      · exact Or.inl ⟨q, (holds_assign_of_ne hqp).mp hq⟩
  · -- a page other than `p` that held `index` would have had it marked
    have hother : ∀ {q}, q ≠ p → (s.assign p index isKernel isWriteable).Holds q n →
        n ≠ index % 0x100000 := fun hqp hq hn => by
      have hm := (h.marked_iff n).mpr ⟨_, (holds_assign_of_ne hqp).mp hq⟩
      rw [hn, hmod, hfree] at hm
      exact Bool.false_ne_true hm
    by_cases hqp : q = p <;> by_cases hrp : r = p
    · rw [hqp, hrp]
    · subst hqp; exact absurd (holds_assign_self.mp hq) (hother hrp hr)
    · subst hrp; exact absurd (holds_assign_self.mp hr) (hother hqp hq)
    · exact h.unique q r n ((holds_assign_of_ne hqp).mp hq) ((holds_assign_of_ne hrp).mp hr)

/-- A number too large for the entry is cut down to one that another page holds. -/
theorem fit_of_accounted_assign (h : Accounted s) (hp : (s.pages p).present = false)
    (hlow : ∀ n < index, marked s.frames n = true)
    (ht : Accounted (s.assign p index isKernel isWriteable)) : index < 0x100000 := by
  by_contra hbig
  obtain ⟨q, hq⟩ := (h.marked_iff (index % 0x100000)).mp (hlow _ (by omega))
  have hqp : q ≠ p := fun e => by rw [e, FrameState.Holds, hp] at hq; exact Bool.false_ne_true hq.1
  exact hqp (ht.unique q p _ ((holds_assign_of_ne hqp).mpr hq) (holds_assign_self.mpr rfl))

/-- A page present with frame 0 that is given another frame leaves frame 0 marked but not held. -/
theorem accounted_assign_iff_of_present (h : Accounted s) (hp : s.Holds p 0) :
    Accounted (s.assign p index isKernel isWriteable) ↔ index % 0x100000 = 0 := by
  have hzero : marked s.frames 0 = true := (h.marked_iff 0).mpr ⟨p, hp⟩
  constructor
  · intro ht
    obtain ⟨q, hq⟩ := (ht.marked_iff 0).mp (by rw [marked_assign, hzero, Bool.true_or])
    by_cases hqp : q = p
    · subst hqp; exact (holds_assign_self.mp hq).symm
    · exact absurd (h.unique q p 0 ((holds_assign_of_ne hqp).mp hq) hp) hqp
  · intro hmod
    -- nothing has changed: the page keeps frame 0, whose bit was set already
    have hholds : ∀ q n, (s.assign p index isKernel isWriteable).Holds q n ↔ s.Holds q n := by
      intro q n
      by_cases hqp : q = p
      · subst hqp
        rw [holds_assign_self, hmod]
        exact ⟨fun e => e ▸ hp, fun hn => hn.2.symm.trans hp.2⟩
      · exact holds_assign_of_ne hqp
    refine ⟨fun n => ?_, fun q r n hq hr =>
      h.unique q r n ((hholds q n).mp hq) ((hholds r n).mp hr)⟩
    rw [marked_assign, hmod]
    simp only [hholds, ← h.marked_iff]
    by_cases hn : n = 0
    · simp [hn, hzero]
    · simp [hn]

/-- A frame number handed to `clear_frame` as if it were an address clears the wrong bit, or none:
the frame stays marked although its page has let go of it. -/
theorem not_accounted_free (h : Accounted s) (hp : (s.pages p).present = true)
    (hf : (s.pages p).frame ≠ 0#20) :
    ¬ Accounted (⟨clearFrame s.frames (s.pages p).frame.toNat,
      s.setPage p { s.pages p with frame := 0#20 }⟩ : FrameState ι) := by
  intro ht
  have hpos : (s.pages p).frame.toNat ≠ 0 := fun e => hf (BitVec.eq_of_toNat_eq e)
  have hm : marked s.frames (s.pages p).frame.toNat = true := (h.marked_iff _).mpr ⟨p, hp, rfl⟩
  obtain ⟨q, hq⟩ := (ht.marked_iff (s.pages p).frame.toNat).mp (by
    rw [marked_clearFrame, hm, Bool.true_and, decide_eq_true_eq]; omega)
  by_cases hqp : q = p
  · simp only [FrameState.Holds, FrameState.setPage, if_pos hqp] at hq
    exact hpos hq.2.symm
  · simp only [FrameState.Holds, FrameState.setPage, if_neg hqp] at hq
    exact hqp (h.unique q p _ hq ⟨hp, rfl⟩)

/-- An entry that holds a frame number other than 0 is present.  Every call keeps this. -/
def HeldPresent (s : FrameState ι) : Prop := ∀ p, (s.pages p).frame ≠ 0#20 → (s.pages p).present

theorem setPage_self (s : FrameState ι) (p : ι) : s.setPage p (s.pages p) = s.pages := by
  funext q
  by_cases hq : q = p
  · rw [FrameState.setPage, if_pos hq, hq]
  · rw [FrameState.setPage, if_neg hq]

/-- What `alloc_frame` can do. -/
theorem perform_alloc (nframes : Nat) :
    (FrameCall.alloc p isKernel isWriteable).perform nframes s =
      if (s.pages p).frame ≠ 0#20 then .ok s
      else if firstFrame nframes s.frames = 0xFFFFFFFF then
        .error (.halt "Failed to allocate a frame: out of frames")
      else .ok (s.assign p (firstFrame nframes s.frames) isKernel isWriteable) := by
  rw [FrameCall.perform, allocFrame]
  by_cases hf : (s.pages p).frame ≠ 0#20
  · simp only [if_pos hf, setPage_self]
  · simp only [if_neg hf]
    by_cases hx : firstFrame nframes s.frames = 0xFFFFFFFF
    · simp only [if_pos hx]
    · simp only [if_neg hx, FrameState.assign]

/-- What `free_frame` does. -/
theorem perform_free (nframes : Nat) :
    (FrameCall.free p).perform nframes s =
      if (s.pages p).frame = 0#20 then .ok s
      else .ok ⟨clearFrame s.frames (s.pages p).frame.toNat,
        s.setPage p { s.pages p with frame := 0#20 }⟩ := by
  have hzero : (s.pages p).frame.toNat = 0 ↔ (s.pages p).frame = 0#20 :=
    ⟨fun e => BitVec.eq_of_toNat_eq e, fun e => by rw [e]; rfl⟩
  simp only [FrameCall.perform, freeFrame, hzero]
  by_cases hf : (s.pages p).frame = 0#20
  · simp only [if_pos hf, setPage_self]
  · simp only [if_neg hf]

theorem heldPresent_perform {nframes : Nat} (c : FrameCall ι) (s s' : FrameState ι)
    (h : HeldPresent s) (hs : c.perform nframes s = .ok s') : HeldPresent s' := by
  intro q hq
  cases c with
  | alloc p k w =>
    rw [perform_alloc] at hs
    split at hs
    · cases hs; exact h q hq
    · split at hs
      · cases hs
      · cases hs
        by_cases hqp : q = p
        · simp [FrameState.assign, FrameState.setPage, if_pos hqp, Page.assign]
        · simp only [FrameState.assign, FrameState.setPage, if_neg hqp] at hq ⊢
          exact h q hq
  | free p =>
    rw [perform_free] at hs
    split at hs
    · cases hs; exact h q hq
    · cases hs
      by_cases hqp : q = p
      · simp [FrameState.setPage, if_pos hqp] at hq
      · simp only [FrameState.setPage, if_neg hqp] at hq ⊢
        exact h q hq

/-- **One call keeps the frames accounted for exactly when it is sound**, in a state in which they
are accounted for. -/
theorem sound_iff {nframes : Nat} (c : FrameCall ι) (s : FrameState ι) (hheld : HeldPresent s)
    (h : Accounted s) :
    c.Sound nframes s ↔ ∀ s', c.perform nframes s = .ok s' → Accounted s' := by
  cases c with
  | alloc p k w =>
    rw [perform_alloc, FrameCall.Sound]
    by_cases hf : (s.pages p).frame ≠ 0#20
    · rw [if_pos hf]
      simp only [Except.ok.injEq, forall_eq', h, iff_true]
      exact Or.inl hf
    by_cases hx : firstFrame nframes s.frames = 0xFFFFFFFF
    · rw [if_neg hf, if_pos hx]
      simp only [reduceCtorEq, false_implies, implies_true, iff_true]
      exact Or.inr (Or.inl hx)
    obtain ⟨-, hfree, hlow⟩ := (firstFrame_spec nframes s.frames).resolve_left fun e => hx e.1
    rw [if_neg hf, if_neg hx, or_iff_right hf, or_iff_right hx]
    simp only [Except.ok.injEq, forall_eq']
    cases hp : (s.pages p).present with
    | true =>
      have hholds : s.Holds p 0 := ⟨hp, by rw [Decidable.not_not.mp hf]; rfl⟩
      exact (accounted_assign_iff_of_present h hholds).symm
    | false =>
      rw [if_neg Bool.false_ne_true]
      exact ⟨fun hfit => accounted_assign_of_not_present h hp hfree hfit,
        fun ht => fit_of_accounted_assign h hp hlow ht⟩
  | free p =>
    rw [perform_free, FrameCall.Sound]
    by_cases hf : (s.pages p).frame = 0#20
    · rw [if_pos hf]
      simp only [Except.ok.injEq, forall_eq', h, hf]
    · rw [if_neg hf]
      simp only [Except.ok.injEq, forall_eq', hf, false_iff]
      exact not_accounted_free h (hheld p hf) hf

/-! ### Whole runs

`HeldPresent` is kept by every call, sound or not, and `Accounted` by the sound ones only.  The
equivalence for a run follows from the one for a call by `Runs.always_iff_along`. -/

/-- **The frames of a run stay accounted for exactly when every call of it is sound.** -/
theorem accounted_always_iff (nframes : Nat) (calls : List (FrameCall ι)) :
    Runs.Always (FrameCall.perform nframes) Accounted calls (FrameState.initial ι) ↔
      Runs.Along (FrameCall.perform nframes) (FrameCall.Sound nframes) calls
        (FrameState.initial ι) :=
  Runs.always_iff_along (I := fun s => HeldPresent s ∧ Accounted s)
    (fun c s s' h hsound hs => ⟨heldPresent_perform c s s' h.1 hs,
      (sound_iff c s h.1 h.2).mp hsound s' hs⟩)
    (fun _ h => h.2)
    (fun c s h hns => by simpa using mt (sound_iff c s h.1 h.2).mpr hns)
    ⟨fun _ h => absurd rfl h, accounted_initial⟩

/-- Two pages are given frames 0 and 1 and the second one is freed: frame 1 stays marked, although
no page holds it any more. -/
theorem not_accounted_always_free :
    ¬ Runs.Always (FrameCall.perform 64) Accounted
      [.alloc false false false, .alloc true false false, .free true]
      (FrameState.initial Bool) := by
  intro h
  obtain ⟨s, hs, hmarked, hheld⟩ : ∃ s : FrameState Bool,
      Runs.run (FrameCall.perform 64) [.alloc false false false, .alloc true false false,
        .free true] (FrameState.initial Bool) = .ok s ∧ marked s.frames 1 = true ∧
      ∀ p, (s.pages p).frame ≠ 1#20 := ⟨_, rfl, by decide, by decide⟩
  obtain ⟨p, -, hp⟩ := ((h.last hs).marked_iff 1).mp hmarked
  exact hheld p (BitVec.eq_of_toNat_eq hp)

/-! ### A call of `alloc_frame` taken back

`free_frame` is meant to undo `alloc_frame`.  It clears the field `frame` and leaves `present` set,
so the entry is not what it was, whatever the bitmap is. -/

/-- The two calls on a page that has no frame. -/
theorem alloc_free_eq {nframes : Nat} {s' s'' : FrameState ι} (hzero : s.pages p = Page.zero)
    (halloc : (FrameCall.alloc p isKernel isWriteable).perform nframes s = .ok s')
    (hfree : (FrameCall.free p).perform nframes s' = .ok s'') :
    firstFrame nframes s.frames ≠ 0xFFFFFFFF ∧ (s''.pages p).present = true ∧
    ∀ n, marked s''.frames n =
      ((marked s.frames n || decide (n = firstFrame nframes s.frames % 0x100000)) &&
        decide (firstFrame nframes s.frames % 0x100000 = 0 ∨
          n ≠ firstFrame nframes s.frames % 0x100000 / 0x1000)) := by
  rw [perform_alloc, hzero, if_neg (by decide)] at halloc
  split_ifs at halloc with hnone
  obtain rfl := Except.ok.inj halloc
  have hframe : ((s.assign p (firstFrame nframes s.frames) isKernel isWriteable).pages p).frame =
      BitVec.ofNat 20 (firstFrame nframes s.frames) := by
    rw [pages_assign_self, Page.assign]
  have htoNat : (BitVec.ofNat 20 (firstFrame nframes s.frames)).toNat =
      firstFrame nframes s.frames % 0x100000 := BitVec.toNat_ofNat ..
  have hnil : BitVec.ofNat 20 (firstFrame nframes s.frames) = 0#20 ↔
      firstFrame nframes s.frames % 0x100000 = 0 := by
    rw [← htoNat]
    exact ⟨fun h => by rw [h]; rfl, fun h => BitVec.eq_of_toNat_eq h⟩
  rw [perform_free, hframe] at hfree
  simp only [hnil, htoNat] at hfree
  refine ⟨hnone, ?_⟩
  by_cases hf : firstFrame nframes s.frames % 0x100000 = 0
  · rw [if_pos hf] at hfree
    obtain rfl := Except.ok.inj hfree
    refine ⟨by rw [pages_assign_self, Page.assign], fun n => ?_⟩
    rw [marked_assign, decide_eq_true (Or.inl hf), Bool.and_true]
  · rw [if_neg hf] at hfree
    obtain rfl := Except.ok.inj hfree
    refine ⟨?_, fun n => ?_⟩
    · simp only [FrameState.setPage, pages_assign_self, Page.assign, ↓reduceIte]
    · simp only [marked_clearFrame, marked_assign, hf, false_or, ne_eq]

/-- The bitmap is what it marks. -/
theorem bitmap_ext {frames frames' : Bitmap} (h : ∀ n, marked frames n = marked frames' n) :
    frames = frames' := by
  funext i
  refine BitVec.eq_of_getLsbD_eq fun j hj => ?_
  have hbit := h (i * 0x20 + j)
  rwa [marked, marked, show indexFromBit (i * 0x20 + j) = i by rw [indexFromBit]; omega,
    show offsetFromBit (i * 0x20 + j) = j by rw [offsetFromBit]; omega] at hbit

/-- **`free_frame` does not take `alloc_frame` back.**  The page stays present, in every state, and
the bitmap is what it was only if the number of the frame is a multiple of `0x100000` other than 0:
the entry then holds frame 0, which was marked before. -/
theorem not_alloc_free (nframes : Nat) (s s' s'' : FrameState ι) (p : ι)
    (isKernel isWriteable : Bool) (hzero : s.pages p = Page.zero)
    (halloc : (FrameCall.alloc p isKernel isWriteable).perform nframes s = .ok s')
    (hfree : (FrameCall.free p).perform nframes s' = .ok s'') :
    (s''.pages p).present = true ∧
    (s''.frames = s.frames ↔ firstFrame nframes s.frames ≠ 0 ∧
      firstFrame nframes s.frames % 0x100000 = 0) := by
  obtain ⟨hnone, hpresent, hmarked⟩ := alloc_free_eq hzero halloc hfree
  obtain ⟨-, hclear, hlow⟩ := (firstFrame_spec nframes s.frames).resolve_left fun h => hnone h.1
  refine ⟨hpresent, ?_⟩
  generalize hindex : firstFrame nframes s.frames = index at *
  constructor
  · intro heq
    rw [heq] at hmarked
    by_cases hf : index % 0x100000 = 0
    · refine ⟨?_, hf⟩
      rintro rfl
      have hbit := hmarked 0
      rw [hclear] at hbit
      exact absurd hbit (by decide)
    · -- the bit that is cleared lies below the frame, where all are set
      have hbit := hmarked (index % 0x100000 / 0x1000)
      rw [hlow _ (by omega)] at hbit
      simp [hf] at hbit
  · rintro ⟨hpos, hf⟩
    refine bitmap_ext fun n => ?_
    rw [hmarked n, hf, decide_eq_true (Or.inl rfl), Bool.and_true]
    by_cases hn : n = 0
    · rw [hn, hlow 0 (Nat.pos_of_ne_zero hpos), Bool.true_or]
    · rw [decide_eq_false hn, Bool.or_false]

theorem not_alloc_free_first :
    ∃ s' s'' : FrameState Bool,
      (FrameCall.alloc true false false).perform 64 (FrameState.initial Bool) = .ok s' ∧
      (FrameCall.free true).perform 64 s' = .ok s'' ∧ (s''.pages true).present = true ∧
      (s''.frames = (FrameState.initial Bool).frames ↔
        firstFrame 64 (FrameState.initial Bool).frames ≠ 0 ∧
        firstFrame 64 (FrameState.initial Bool).frames % 0x100000 = 0) :=
  ⟨_, _, rfl, rfl, not_alloc_free 64 (FrameState.initial Bool) _ _ true false false rfl rfl rfl⟩

/-- The first frame is 0, and stays marked. -/
theorem alloc_free_leak :
    ∃ s : FrameState Bool, Runs.run (FrameCall.perform 64)
        [.alloc true false false, .free true] (FrameState.initial Bool) = .ok s ∧
      (s.pages true).present = true ∧ marked s.frames 0 = true ∧
      marked (FrameState.initial Bool).frames 0 = false :=
  ⟨_, rfl, by decide, by decide, by decide⟩

end MyaXOS
