import Mathlib.Tactic.Positivity
import Mathlib.Tactic.Ring
import MyaXOS.System

/-!
# Bins and what is kept in memory

`klmalloc` has 10 small bins, for blocks of 4, 8, …, 2048 bytes, and bin 10 for everything bigger.
This file is about the arithmetic of these bins and about the words of memory that the allocator
keeps for itself; nothing in it calls the allocator.

* `klmallocBinSize` finds the bin of a request; `klmallocBinSize_spec` says that it is the smallest
  that is large enough.
* The headers of the bins and the links of the free stacks are in memory.  A `Place` is one of these
  words, named as the code names it, and `Mem.read` and `Mem.write` are the accesses.
* `cells` are the blocks that follow a header, `capacity` is how many bytes each of them has, and
  `extent` is the length of the whole.

The bin is computed with `__builtin_clzl`, so the specification is a statement about the length of a
number in binary.  It is proved from `Nat.log2`, whose powers of two are in the library, and this is
the only place where the bits of a size matter: from here on a bin is known by the inequalities of
`klmallocBinSize_spec`.

Why there is a type of places.  In the source a header is a C structure, and the same word is called
`header->next` in one function and `header->size` in another; a model with bare addresses would have
to say in every lemma that `p + 4` is not `q + 8`.  With `Place` this is said once, in
`Alloc/Arena.lean`: two places that the allocator may use have different addresses.  After that
`Mem.read_write_self` and `Mem.read_write_of_ne` are all that a proof needs to know of a write, and
the two cases of such a proof are whether the places are the same.

A small and a big bin have different headers, of 12 and of 44 bytes, but their first three fields
agree.  The code relies on this when it looks at `size` before it knows which of the two it has, and
so the places of these fields are shared here as well.
-/

set_option autoImplicit false

namespace MyaXOS

/-! ## The bin of a request

The blocks of a bin have 2^(2 + bin) bytes, the powers of two from 4 on.  The code takes the length
in binary of the request, and one more if the request is not a power of two, and turns this into the
number of a bin.  The proof names the least power of two that is large enough, and both steps are
then comparisons of exponents. -/

/-- `klmalloc_adjust_bin(bin)`. -/
def klmallocAdjustBin (bin : Nat) : Nat :=
  if bin ≤ 2 then 0
  else if 10 < bin - 3 then 10
  else bin - 3

/-- `klmalloc_bin_size(size)`.  `sizeof(size) * CHAR_BIT - __builtin_clzl(size)` is the length of
`size` in binary. -/
def klmallocBinSize (size : Nat) : Nat :=
  klmallocAdjustBin (Nat.log2 size + 1 + if size &&& (size - 1) ≠ 0 then 1 else 0)

/-- **The bin of a request** is the first whose blocks are large enough, and it is a small one
exactly for the sizes up to 2048. -/
theorem klmallocBinSize_spec {size : Nat} (h : 0 < size) :
    (klmallocBinSize size < 10 ↔ size ≤ 2048) ∧
    (klmallocBinSize size < 10 → size ≤ 2 ^ (2 + klmallocBinSize size)) ∧
    ∀ bin < klmallocBinSize size, 2 ^ (2 + bin) < size := by
  have hne : size ≠ 0 := by omega
  -- the bin, from the least `k` with `size ≤ 2 ^ k`
  obtain ⟨k, hbin, hle, hlt⟩ : ∃ k, klmallocBinSize size = min 10 (k - 2) ∧ size ≤ 2 ^ k ∧
      ∀ j < k, 2 ^ j < size := by
    have hlow := Nat.log2_self_le hne
    have hhigh : size < 2 ^ (Nat.log2 size + 1) := Nat.lt_log2_self
    by_cases hpow : size &&& (size - 1) = 0
    · obtain ⟨j, rfl⟩ := (Nat.and_sub_one_eq_zero_iff_isPowerOfTwo hne).mp hpow
      refine ⟨j, ?_, le_rfl, fun i hi => Nat.pow_lt_pow_right (by decide) hi⟩
      rw [klmallocBinSize, klmallocAdjustBin, if_neg (not_not.mpr hpow), Nat.log2_two_pow]
      split_ifs <;> omega
    · refine ⟨Nat.log2 size + 1, ?_, hhigh.le, fun j hj => ?_⟩
      · rw [klmallocBinSize, klmallocAdjustBin, if_pos hpow]
        split_ifs <;> omega
      · refine (Nat.pow_le_pow_right (by decide) (Nat.le_of_lt_succ hj)).trans_lt ?_
        refine lt_of_le_of_ne hlow fun he => hpow ?_
        exact (Nat.and_sub_one_eq_zero_iff_isPowerOfTwo hne).mpr ⟨Nat.log2 size, he.symm⟩
  have hmono : ∀ {i j : Nat}, i ≤ j → 2 ^ i ≤ 2 ^ j := fun hij =>
    Nat.pow_le_pow_right (by decide) hij
  rw [hbin]
  refine ⟨⟨fun hk => ?_, fun hs => ?_⟩, fun hk => ?_, fun bin hb => ?_⟩
  · exact hle.trans (hmono (show k ≤ 11 by omega))
  · by_contra hk
    have := hlt 11 (by omega)
    omega
  · exact hle.trans (hmono (by omega))
  · exact hlt (2 + bin) (by omega)

/-! ## Places

A place is named after the expression that the source uses for it, and `addr` is where the compiler
puts this field.  All places are words, so one read and one write serve for all of them. -/

/-- The words of memory that the allocator uses, as lvalues of the code.  The headers of small and
of big bins agree in their first three fields. -/
inductive Place where
  /-- `header->next`. -/
  | next (header : Nat)
  /-- `header->head`. -/
  | head (header : Nat)
  /-- `header->size`. -/
  | size (header : Nat)
  /-- `header->prev`, of a big bin. -/
  | prev (header : Nat)
  /-- `header->forward[i]`, of a big bin. -/
  | forward (header i : Nat)
  /-- `*ptr`, the link in a free block. -/
  | item (ptr : Nat)
  deriving DecidableEq, Repr

/-- The address of a place. -/
def Place.addr : Place → Nat
  | .next header => header
  | .head header => header + 4
  | .size header => header + 8
  | .prev header => header + 12
  | .forward header i => header + 16 + 4 * i
  | .item ptr => ptr

/-- The header that a place belongs to: a block in use or free is in the page of its header. -/
def Place.owner : Place → Nat
  | .next header => header
  | .head header => header
  | .size header => header
  | .prev header => header
  | .forward header _ => header
  | .item ptr => ptr / 0x1000 * 0x1000

/-- Read a place. -/
def read (m : Mem) (w : Place) : Nat := m.load32 w.addr

/-- Write to a place. -/
def write (m : Mem) (w : Place) (v : Nat) : Mem := m.store32 w.addr v

theorem read_lt (m : Mem) (w : Place) : read m w < 0x100000000 := Mem.load32_lt m w.addr

theorem read_write_self (m : Mem) (w : Place) {v : Nat} (hv : v < 0x100000000) :
    read (write m w v) w = v := Mem.load32_store32_self m w.addr hv

theorem read_write_of_ne (m : Mem) {w w' : Place} (v : Nat)
    (h : w.addr + 4 ≤ w'.addr ∨ w'.addr + 4 ≤ w.addr) : read (write m w v) w' = read m w' :=
  Mem.load32_store32_of_disjoint m v h

/-! ## Blocks

What lies behind a header.  For a small bin the page is cut into blocks of one length, as many as
there is room for behind the 12 bytes of the header; a big bin is one block.  A block is never
shorter than a word, which is why a free one can hold the link to the next. -/

/-- How many bytes a block has, by the `size` in its header: below 10 this is the number of the
bin. -/
def capacity (size : Nat) : Nat := if size < 10 then 2 ^ (2 + size) else size

/-- The length of a header. -/
def headerLength (size : Nat) : Nat := if size < 10 then 12 else 44

/-- The length of a header and its blocks. -/
def extent (size : Nat) : Nat := if size < 10 then 0x1000 else 44 + size

/-- The addresses of the blocks that follow a header. -/
def cells (header size : Nat) : List Nat :=
  if size < 10 then
    (List.range ((0x1000 - 12) >>> (2 + size))).map fun i => header + 12 + 4 * (i <<< size)
  else [header + 44]

variable {header size c c' : Nat}

theorem mem_cells_small (hs : size < 10) : c ∈ cells header size ↔
    ∃ i, (i + 1) * 2 ^ (2 + size) ≤ 4084 ∧ c = header + 12 + i * 2 ^ (2 + size) := by
  have hcell : ∀ i, 4 * (i <<< size) = i * 2 ^ (2 + size) := fun i => by
    rw [Nat.shiftLeft_eq, pow_add]
    ring
  have hcount : ∀ i, i < (0x1000 - 12) >>> (2 + size) ↔ (i + 1) * 2 ^ (2 + size) ≤ 4084 := by
    intro i
    rw [Nat.shiftRight_eq_div_pow, Nat.lt_iff_add_one_le, Nat.le_div_iff_mul_le (by positivity)]
  rw [cells, if_pos hs, List.mem_map]
  refine exists_congr fun i => ?_
  rw [List.mem_range, hcount, hcell]
  exact and_congr_right fun _ => eq_comm

theorem mem_cells_big (hs : ¬ size < 10) : c ∈ cells header size ↔ c = header + 44 := by
  rw [cells, if_neg hs, List.mem_singleton]

theorem capacity_small (hs : size < 10) : capacity size = 2 ^ (2 + size) := if_pos hs

theorem capacity_big (hs : ¬ size < 10) : capacity size = size := if_neg hs

/-- A block lies behind the header, and within the extent. -/
theorem cell_bounds (hc : c ∈ cells header size) :
    header + headerLength size ≤ c ∧ c + capacity size ≤ header + extent size := by
  by_cases hs : size < 10
  · obtain ⟨i, hi, rfl⟩ := (mem_cells_small hs).mp hc
    rw [Nat.add_mul, Nat.one_mul] at hi
    rw [headerLength, if_pos hs, capacity_small hs, extent, if_pos hs]
    omega
  · rw [mem_cells_big hs] at hc
    rw [headerLength, if_neg hs, capacity_big hs, extent, if_neg hs]
    omega

/-- Two blocks behind one header do not overlap. -/
theorem cells_disjoint (hc : c ∈ cells header size) (hc' : c' ∈ cells header size) (hne : c ≠ c') :
    c + capacity size ≤ c' ∨ c' + capacity size ≤ c := by
  by_cases hs : size < 10
  · obtain ⟨i, -, rfl⟩ := (mem_cells_small hs).mp hc
    obtain ⟨j, -, rfl⟩ := (mem_cells_small hs).mp hc'
    rw [capacity_small hs]
    rcases Nat.lt_trichotomy i j with hij | rfl | hij
    · have := Nat.mul_le_mul_right (2 ^ (2 + size)) (show i + 1 ≤ j from hij)
      rw [Nat.add_mul, Nat.one_mul] at this
      omega
    · exact absurd rfl hne
    · have := Nat.mul_le_mul_right (2 ^ (2 + size)) (show j + 1 ≤ i from hij)
      rw [Nat.add_mul, Nat.one_mul] at this
      omega
  · rw [mem_cells_big hs] at hc hc'
    exact absurd (hc.trans hc'.symm) hne

theorem cells_nodup {header size : Nat} : (cells header size).Nodup := by
  by_cases hs : size < 10
  · rw [cells, if_pos hs]
    refine List.Nodup.map (fun i j hij => ?_) List.nodup_range
    have hpos : 0 < 2 ^ size := by positivity
    simp only [Nat.shiftLeft_eq] at hij
    exact Nat.eq_of_mul_eq_mul_right hpos (by omega)
  · rw [cells, if_neg hs]
    exact List.nodup_singleton _

/-- Blocks are words, in the first page behind their header. -/
theorem cell_word (hc : c ∈ cells header size) :
    (c - header) % 4 = 0 ∧ c + 4 ≤ header + 0x1000 ∧ 4 ≤ capacity size := by
  by_cases hsmall : size < 10
  · have hbounds := cell_bounds hc
    obtain ⟨i, -, hi⟩ := (mem_cells_small hsmall).mp hc
    have hpow : 2 ^ (2 + size) = 4 * 2 ^ size := by rw [pow_add]; ring
    have hpos : 0 < 2 ^ size := by positivity
    rw [headerLength, if_pos hsmall, extent, if_pos hsmall, capacity_small hsmall] at hbounds
    rw [capacity_small hsmall]
    rw [hpow] at hbounds hi ⊢
    rw [show i * (4 * 2 ^ size) = 4 * (i * 2 ^ size) by ring] at hi
    omega
  · rw [mem_cells_big hsmall] at hc
    rw [capacity_big hsmall]
    omega

end MyaXOS
