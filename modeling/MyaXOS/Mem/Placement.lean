import MyaXOS.Lib.Run
import MyaXOS.System

/-!
# The placement allocator

Before the heap exists, `mem.c` hands out memory by moving `placement_pointer` upwards.  All four
entry points are `kmallocReal` with its two options set.

The alignment step rounds the pointer *down* to a page, and it leaves a pointer below `0x1000`
alone.  So an aligned request is served properly only when the pointer is page aligned already:
`placements_sound_iff` says that this condition, `PlacementCall.Aligned`, is enough for the regions
of a whole run to be disjoint, above the start and aligned, and that it is needed when no request is
empty.

**Why the condition is the right one.**  A region that is placed with the pointer on a page boundary
starts at the pointer, and all regions before it end there.  So the invariant of a run is that the
regions lie in order between the start and the pointer, and each call appends one.  If the pointer
is not on a boundary, then the new region starts below it.  What is there is the end of the last
region that was returned, or the memory in front of the start, and the region overlaps the one or
leaves the other — unless one of the two is empty, since an empty region overlaps nothing.  This is
the only reason why the converse asks for requests of some bytes.

The pointer is a number of 32 bits.  The statement is about runs in which it does not wrap around,
which is a condition on the sum of the sizes and on nothing else.

`kmalloc` is used for the first objects of the kernel, and later for page tables only; in each of
these places the pointer is known, and the lemmas on a single request say where the object is.
-/

set_option autoImplicit false

namespace MyaXOS

/-- What a placement allocation gives back: the address, what it stored through `phys` if that was
not `NULL`, and the new `placement_pointer`. -/
structure Placed where
  address : Nat
  phys : Option Nat
  pointer : Nat
  deriving DecidableEq, Repr

/-- `kmalloc_real(size, align, phys)`, started at `placement_pointer = pointer`. -/
def kmallocReal (pointer size : Nat) (align phys : Bool) : Placed :=
  let pointer := if align ∧ pointer &&& 0xFFFFF000 ≠ 0 then pointer &&& 0xFFFFF000 else pointer
  { address := pointer
    phys := if phys then some pointer else none
    pointer := u32 (pointer + size) }

/-- `kmalloc(size)`. -/
def kmalloc (pointer size : Nat) : Placed := kmallocReal pointer size false false

/-- `kvmalloc(size)`. -/
def kvmalloc (pointer size : Nat) : Placed := kmallocReal pointer size true false

/-- `kmalloc_p(size, phys)`. -/
def kmallocP (pointer size : Nat) : Placed := kmallocReal pointer size false true

/-- `kvmalloc_p(size, phys)`. -/
def kvmallocP (pointer size : Nat) : Placed := kmallocReal pointer size true true

/-! ## One request

There are three cases: a request that needs no rounding, one that is rounded down to the page below,
and an aligned one in the first page, which is not rounded at all. -/

section

/-- Masking with `0xFFFFF000` rounds a 32-bit number down to a page. -/
theorem and_page_mask {n : Nat} (h : n < 0x100000000) : n &&& 0xFFFFF000 = n / 0x1000 * 0x1000 := by
  apply Nat.eq_of_testBit_eq
  intro i
  rw [Nat.testBit_and, show (0xFFFFF000 : Nat) = (2 ^ 20 - 1) * 2 ^ 12 from rfl,
    show (0x1000 : Nat) = 2 ^ 12 from rfl, Nat.testBit_mul_two_pow, Nat.testBit_mul_two_pow,
    Nat.testBit_two_pow_sub_one, Nat.testBit_div_two_pow]
  by_cases hi : 12 ≤ i
  · by_cases hlt : i < 32
    · simp [hi, show i - 12 < 20 by omega]
    · have hpow : 2 ^ 32 ≤ 2 ^ i := Nat.pow_le_pow_right (by decide) (by omega)
      have hn : n.testBit i = false := Nat.testBit_lt_two_pow (Nat.lt_of_lt_of_le h hpow)
      simp [hi, hn]
  · simp [hi]

variable {pointer size : Nat} {align phys : Bool}

/-- An unaligned request, and an aligned one made at a page boundary, are served in place. -/
theorem kmallocReal_in_place (h : align = true → pointer % 0x1000 = 0)
    (hp : pointer + size < 0x100000000) :
    kmallocReal pointer size align phys =
      ⟨pointer, if phys then some pointer else none, pointer + size⟩ := by
  have hsame : (if align ∧ pointer &&& 0xFFFFF000 ≠ 0 then pointer &&& 0xFFFFF000 else pointer) =
      pointer := by
    split
    · next hc => rw [and_page_mask (by omega)]; have := h hc.1; omega
    · rfl
  simp only [kmallocReal, hsame, u32_eq hp]

/-- An aligned request at or above the first page is served at the page boundary below. -/
theorem kmallocReal_aligned (h : 0x1000 ≤ pointer) (hp : pointer < 0x100000000) :
    kmallocReal pointer size true phys =
      ⟨pointer / 0x1000 * 0x1000, if phys then some (pointer / 0x1000 * 0x1000) else none,
        u32 (pointer / 0x1000 * 0x1000 + size)⟩ := by
  have hmask := and_page_mask hp
  simp only [kmallocReal, hmask, true_and, if_pos (show pointer / 0x1000 * 0x1000 ≠ 0 by omega)]

/-- An aligned request below the first page is not aligned at all. -/
theorem kmallocReal_low (h : pointer < 0x1000) :
    kmallocReal pointer size true phys =
      ⟨pointer, if phys then some pointer else none, u32 (pointer + size)⟩ := by
  have hmask : pointer &&& 0xFFFFF000 = 0 := by rw [and_page_mask (by omega)]; omega
  simp only [kmallocReal, hmask, ne_eq, not_true_eq_false, and_false, if_false]

end

/-! ## Runs of requests

Regions overlap when the pointer moves back, and it moves back only when an aligned request is made
elsewhere than at a page boundary.  As long as it does not, the regions fill the space from the
start to the pointer without a gap, and this is the invariant of both directions: in the first the
regions lie one behind the other, and in the second there is no room for a pointer that has been
moved back. -/

/-- A request to one of the four entry points. -/
inductive PlacementCall where
  | kmalloc (size : Nat)
  | kvmalloc (size : Nat)
  | kmallocP (size : Nat)
  | kvmallocP (size : Nat)
  deriving DecidableEq, Repr

namespace PlacementCall

def size : PlacementCall → Nat
  | .kmalloc n | .kvmalloc n | .kmallocP n | .kvmallocP n => n

/-- Is it a request for an aligned region? -/
def align : PlacementCall → Bool
  | .kmalloc _ | .kmallocP _ => false
  | .kvmalloc _ | .kvmallocP _ => true

/-- Perform the request at a placement pointer. -/
def perform : PlacementCall → Nat → Placed
  | .kmalloc n, pointer => MyaXOS.kmalloc pointer n
  | .kvmalloc n, pointer => MyaXOS.kvmalloc pointer n
  | .kmallocP n, pointer => MyaXOS.kmallocP pointer n
  | .kvmallocP n, pointer => MyaXOS.kvmallocP pointer n

/-- The placement pointer after the request. -/
def step (c : PlacementCall) (pointer : Nat) : Except Stop Nat := .ok (c.perform pointer).pointer

/-- An aligned request is made at a page boundary only. -/
def Aligned (c : PlacementCall) (pointer : Nat) : Prop := c.align = true → pointer % 0x1000 = 0

end PlacementCall

/-- The requests of a run, each with the address it was given. -/
def placements : List PlacementCall → Nat → List (PlacementCall × Nat)
  | [], _ => []
  | c :: cs, pointer =>
    (c, (c.perform pointer).address) :: placements cs (c.perform pointer).pointer

/-- The bytes of a region: `size` bytes from its address on. -/
def InRegion (r : PlacementCall × Nat) (x : Nat) : Prop := r.2 ≤ x ∧ x < r.2 + r.1.size

instance (r : PlacementCall × Nat) (x : Nat) : Decidable (InRegion r x) :=
  inferInstanceAs (Decidable (_ ∧ _))

/-- What is asked of the regions of a run started at `start`. -/
structure Placements.Sound (start : Nat) (rs : List (PlacementCall × Nat)) : Prop where
  /-- No byte is in two regions. -/
  disjoint : rs.Pairwise fun r r' => ∀ x, InRegion r x → ¬ InRegion r' x
  /-- No region starts below the starting pointer. -/
  above : ∀ r ∈ rs, start ≤ r.2
  /-- An aligned request is given a page boundary. -/
  aligned : ∀ r ∈ rs, r.1.align = true → r.2 % 0x1000 = 0

/-- The sum of the sizes asked for. -/
def totalSize (cs : List PlacementCall) : Nat := (cs.map PlacementCall.size).sum

theorem perform_eq_kmallocReal (c : PlacementCall) (pointer : Nat) :
    ∃ phys, c.perform pointer = kmallocReal pointer c.size c.align phys := by
  cases c <;> exact ⟨_, rfl⟩

theorem perform_in_place {c : PlacementCall} {pointer : Nat} (h : c.Aligned pointer)
    (hp : pointer + c.size < 0x100000000) :
    (c.perform pointer).address = pointer ∧ (c.perform pointer).pointer = pointer + c.size := by
  obtain ⟨phys, hc⟩ := perform_eq_kmallocReal c pointer
  rw [hc, kmallocReal_in_place h hp]
  exact ⟨rfl, rfl⟩

/-- When every aligned request is made at a page boundary, the regions lie one after the other. -/
theorem placements_within : ∀ {cs : List PlacementCall} {pointer : Nat},
    pointer + totalSize cs < 0x100000000 →
    Runs.Along PlacementCall.step PlacementCall.Aligned cs pointer →
      Placements.Sound pointer (placements cs pointer)
  | [], _, _, _ => ⟨List.Pairwise.nil, by simp [placements], by simp [placements]⟩
  | c :: cs, pointer, hwrap, halong => by
    rw [totalSize, List.map_cons, List.sum_cons, ← totalSize] at hwrap
    obtain ⟨haddr, hnext⟩ := perform_in_place halong.1 (by omega)
    have hwrap' : pointer + c.size + totalSize cs < 0x100000000 := by omega
    have ih := placements_within hwrap' (hnext ▸ halong.2 _ rfl)
    rw [placements, haddr, hnext]
    refine ⟨List.Pairwise.cons ?_ ih.disjoint, ?_, ?_⟩
    · intro r hr x hx hx'
      have := ih.above r hr
      simp only [InRegion] at hx hx'
      omega
    · rintro r (_ | ⟨_, hr⟩)
      · exact Nat.le_refl _
      · have := ih.above r hr
        omega
    · rintro r (_ | ⟨_, hr⟩)
      · exact halong.1
      · exact ih.aligned r hr

/-- The converse, with `done` the regions handed out so far: as long as they fill all of
`[start, pointer)`, rounding the pointer down runs into one of them or goes below `start`. -/
theorem along_of_sound {start : Nat} : ∀ {cs : List PlacementCall} {pointer : Nat}
    {done : List (PlacementCall × Nat)},
    pointer + totalSize cs < 0x100000000 → (∀ c ∈ cs, 0 < c.size) →
    (∀ x, start ≤ x → x < pointer → ∃ r ∈ done, InRegion r x) →
    Placements.Sound start (done ++ placements cs pointer) →
      Runs.Along PlacementCall.step PlacementCall.Aligned cs pointer
  | [], _, _, _, _, _, _ => trivial
  | c :: cs, pointer, done, hwrap, hpos, hfull, hsound => by
    rw [totalSize, List.map_cons, List.sum_cons, ← totalSize] at hwrap
    have hc := hpos c (by simp)
    have haligned : c.Aligned pointer := by
      intro hal
      by_contra hoff
      have hmem : (c, (c.perform pointer).address) ∈ done ++ placements (c :: cs) pointer :=
        List.mem_append_right _ (by simp [placements])
      obtain ⟨phys, hperf⟩ := perform_eq_kmallocReal c pointer
      rw [hal] at hperf
      rcases Nat.lt_or_ge pointer 0x1000 with hlow | hhigh
      · have hal' := hsound.aligned _ hmem hal
        rw [hperf, kmallocReal_low hlow] at hal'
        exact hoff hal'
      · -- the new region starts inside what has been handed out, or below `start`
        rw [kmallocReal_aligned hhigh (by omega)] at hperf
        have hadd : (c.perform pointer).address = pointer / 0x1000 * 0x1000 := by rw [hperf]
        have habove := hsound.above _ hmem
        rw [hadd] at habove
        obtain ⟨r, hr, hx⟩ := hfull (pointer / 0x1000 * 0x1000) habove (by omega)
        have hdisj := (List.pairwise_append.mp hsound.disjoint).2.2 r hr
          (c, (c.perform pointer).address) (by simp [placements]) _ hx
        refine hdisj ⟨Nat.le_of_eq hadd, ?_⟩
        simp only [hadd]
        omega
    obtain ⟨haddr, hnext⟩ := perform_in_place haligned (by omega)
    refine ⟨haligned, fun p hp => ?_⟩
    cases hp
    show Runs.Along _ _ cs (c.perform pointer).pointer
    rw [hnext]
    have hwrap' : pointer + c.size + totalSize cs < 0x100000000 := by omega
    have hfull' : ∀ x, start ≤ x → x < pointer + c.size →
        ∃ r ∈ done ++ [(c, pointer)], InRegion r x := by
      intro x hx hlt
      rcases Nat.lt_or_ge x pointer with hxp | hxp
      · obtain ⟨r, hr, hin⟩ := hfull x hx hxp
        exact ⟨r, List.mem_append_left _ hr, hin⟩
      · exact ⟨(c, pointer), by simp, hxp, hlt⟩
    refine along_of_sound hwrap' (fun c' hc' => hpos c' (List.mem_cons_of_mem _ hc')) hfull' ?_
    rw [placements, haddr, hnext] at hsound
    rwa [List.append_assoc, List.singleton_append]

/-- **The regions of a run are disjoint, above the start and aligned** when every aligned request is
made at a page boundary; if no request is empty, then only when.  The hypothesis says that the
placement pointer does not wrap around. -/
theorem placements_sound_iff (start : Nat) (cs : List PlacementCall)
    (hwrap : start + totalSize cs < 0x100000000) :
    (Runs.Along PlacementCall.step PlacementCall.Aligned cs start →
      Placements.Sound start (placements cs start)) ∧
    ((∀ c ∈ cs, 0 < c.size) → Placements.Sound start (placements cs start) →
      Runs.Along PlacementCall.step PlacementCall.Aligned cs start) := by
  refine ⟨placements_within hwrap, fun hpos h => ?_⟩
  have hnone : ∀ x, start ≤ x → x < start →
      ∃ r ∈ ([] : List (PlacementCall × Nat)), InRegion r x :=
    fun x hx hlt => absurd hx (by omega)
  exact along_of_sound hwrap hpos hnone h

theorem placements_sound_iff_two :
    (Runs.Along PlacementCall.step PlacementCall.Aligned [.kvmalloc 0x2000, .kmalloc 5] 0x200000 →
      Placements.Sound 0x200000 (placements [.kvmalloc 0x2000, .kmalloc 5] 0x200000)) ∧
    ((∀ c ∈ [PlacementCall.kvmalloc 0x2000, .kmalloc 5], 0 < c.size) →
      Placements.Sound 0x200000 (placements [.kvmalloc 0x2000, .kmalloc 5] 0x200000) →
      Runs.Along PlacementCall.step PlacementCall.Aligned [.kvmalloc 0x2000, .kmalloc 5]
        0x200000) :=
  placements_sound_iff 0x200000 [.kvmalloc 0x2000, .kmalloc 5] (by decide)

/-- One byte, and then a page directory: the directory is placed over the byte. -/
theorem not_placements_sound :
    ¬ Placements.Sound 0x200000 (placements [.kmalloc 1, .kvmalloc 0x2004] 0x200000) := by
  intro h
  have hover := (List.pairwise_cons.mp h.disjoint).1 (.kvmalloc 0x2004, 0x200000)
    (by decide) 0x200000
  exact hover (by decide) (by decide)

end MyaXOS
