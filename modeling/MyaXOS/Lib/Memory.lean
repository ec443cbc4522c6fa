import Mathlib.Algebra.Order.Ring.Nat
import Mathlib.Logic.Function.Basic

/-!
# Byte memories

A memory is a function from addresses to bytes.  This file gives it what a program does with a
memory: read and write one byte, read and write a little-endian 32-bit word, copy a run of bytes
forwards, and fill a run of bytes.

* `load32` and `store32` are the word accesses; `load32_store32_self` reads back what was written
  and `load32_store32_of_disjoint` skips a write somewhere else.
* `copyFwd m d s n` copies `n` bytes, the `i`-th from address `s i` to address `d i`, one at a time
  and in order.  Source and target may overlap; `copyFwd_apply` says the copy is faithful as long
  as no byte is overwritten *before* it is read, which is all a forward loop can promise.
* `fill m d b n` writes the byte `b` at `d 0, …, d (n - 1)`.
* `storeAll m ws` performs a list of writes, for those who want to know where a loop writes to and
  not only what memory it leaves; `copyFwd_eq_storeAll` lists the writes of a copy.

The addresses of a copy are given by functions so that a caller can let them wrap around at the
end of its address space.  A word access does not wrap: it touches `a`, `a + 1`, `a + 2`, `a + 3`.

Addresses are natural numbers without a bound.  A program whose addresses have 32 bits reduces them
before it comes here, and if it forgets to, then it is the program's arithmetic that says so.  There
is no notion of memory that is not there, and no access fails; what may be accessed is for those who
use the memory to say.

**Frames.**  For every operation that writes there is a lemma on the bytes that it does not write to
(`store8_of_ne`, `store32_of_outside`, `copyFwd_of_outside`, `fill_of_outside`), and for every
operation that reads one that says on which bytes the result depends (`load32_congr`).  All facts of
the form "this write does not matter to that read" are the two together, and a proof of such a fact
is a comparison of numbers, which `omega` does.

**Words.**  A word is the sum of its bytes with their weights.  That a word which was stored is read
back is an equation between a number and its digits to the base 256, and the four bytes are told
apart once, in the lemmas here.
-/

set_option autoImplicit false

/-- A memory: the byte at each address. -/
abbrev Mem := Nat → UInt8

namespace Mem

variable {m m' : Mem} {a b x v n : Nat} {d s : Nat → Nat}

/-! ## Single bytes -/

/-- Write one byte. -/
def store8 (m : Mem) (a : Nat) (b : UInt8) : Mem := fun x => if x = a then b else m x

@[simp] theorem store8_self (m : Mem) (a : Nat) (b : UInt8) : store8 m a b a = b := by
  simp [store8]

theorem store8_of_ne (b : UInt8) (h : x ≠ a) : store8 m a b x = m x := by
  simp [store8, h]

/-! ## Half words -/

/-- The 16-bit little-endian half word at `a`. -/
def load16 (m : Mem) (a : Nat) : Nat := (m a).toNat + 0x100 * (m (a + 1)).toNat

/-- Write the 16-bit little-endian half word `v` at `a`. -/
def store16 (m : Mem) (a v : Nat) : Mem := fun x =>
  if x = a then UInt8.ofNat v else if x = a + 1 then UInt8.ofNat (v / 0x100) else m x

theorem store16_of_outside (m : Mem) (v : Nat) (h : x < a ∨ a + 2 ≤ x) : store16 m a v x = m x := by
  rw [store16, if_neg (by omega), if_neg (by omega)]

@[simp] theorem store16_low (m : Mem) (a v : Nat) : store16 m a v a = UInt8.ofNat v := if_pos rfl

@[simp] theorem store16_high (m : Mem) (a v : Nat) :
    store16 m a v (a + 1) = UInt8.ofNat (v / 0x100) := by
  simp [store16]

/-- A half word depends on its two bytes only. -/
theorem load16_congr (h : ∀ x, a ≤ x → x < a + 2 → m x = m' x) : load16 m a = load16 m' a := by
  rw [load16, load16, h a (Nat.le_refl a) (by omega), h (a + 1) (Nat.le_succ a) (by omega)]

theorem load16_lt (m : Mem) (a : Nat) : load16 m a < 2 ^ 16 := by
  have h0 := (m a).toNat_lt
  have h1 := (m (a + 1)).toNat_lt
  rw [load16]
  omega

/-! ## Words

A word is four bytes, the lowest first.  What is stored is read back if it has 32 bits, a word that
does not overlap is left alone, and a word depends on its own four bytes; nothing else is used of
words anywhere. -/

/-- The 32-bit little-endian word at `a`. -/
def load32 (m : Mem) (a : Nat) : Nat :=
  (m a).toNat + 0x100 * (m (a + 1)).toNat + 0x10000 * (m (a + 2)).toNat +
    0x1000000 * (m (a + 3)).toNat

/-- Write the 32-bit little-endian word `v` at `a`. -/
def store32 (m : Mem) (a v : Nat) : Mem := fun x =>
  if x = a then UInt8.ofNat v
  else if x = a + 1 then UInt8.ofNat (v / 0x100)
  else if x = a + 2 then UInt8.ofNat (v / 0x10000)
  else if x = a + 3 then UInt8.ofNat (v / 0x1000000)
  else m x

theorem load32_lt (m : Mem) (a : Nat) : load32 m a < 2 ^ 32 := by
  have h0 := (m a).toNat_lt
  have h1 := (m (a + 1)).toNat_lt
  have h2 := (m (a + 2)).toNat_lt
  have h3 := (m (a + 3)).toNat_lt
  rw [load32]
  omega

/-- The low byte of a word is the first in memory. -/
theorem load32_mod (m : Mem) (a : Nat) : load32 m a % 0x100 = (m a).toNat := by
  have h0 := (m a).toNat_lt
  rw [load32]
  omega

/-- A word depends on its four bytes only. -/
theorem load32_congr (h : ∀ x, a ≤ x → x < a + 4 → m x = m' x) : load32 m a = load32 m' a := by
  rw [load32, load32, h a (by omega) (by omega), h (a + 1) (by omega) (by omega),
    h (a + 2) (by omega) (by omega), h (a + 3) (by omega) (by omega)]

theorem load32_eq_zero (h : ∀ x, a ≤ x → x < a + 4 → m x = 0) : load32 m a = 0 := by
  simp [load32, h a (by omega) (by omega), h (a + 1) (by omega) (by omega),
    h (a + 2) (by omega) (by omega), h (a + 3) (by omega) (by omega)]

theorem store32_of_outside (m : Mem) (v : Nat) (h : x < a ∨ a + 4 ≤ x) :
    store32 m a v x = m x := by
  rw [store32, if_neg (by omega), if_neg (by omega), if_neg (by omega), if_neg (by omega)]

theorem load32_store32_self (m : Mem) (a : Nat) (hv : v < 2 ^ 32) :
    load32 (store32 m a v) a = v := by
  have h0 : store32 m a v a = UInt8.ofNat v := by simp [store32]
  have h1 : store32 m a v (a + 1) = UInt8.ofNat (v / 0x100) := by simp [store32]
  have h2 : store32 m a v (a + 2) = UInt8.ofNat (v / 0x10000) := by simp [store32]
  have h3 : store32 m a v (a + 3) = UInt8.ofNat (v / 0x1000000) := by simp [store32]
  rw [load32, h0, h1, h2, h3]
  simp only [UInt8.toNat_ofNat']
  omega

/-- Two words that do not overlap do not disturb each other. -/
theorem load32_store32_of_disjoint (m : Mem) (v : Nat) (h : a + 4 ≤ b ∨ b + 4 ≤ a) :
    load32 (store32 m a v) b = load32 m b :=
  load32_congr fun _ _ _ => store32_of_outside m v (by omega)

theorem load32_store8 (m : Mem) (c : UInt8) (h : x < a ∨ a + 4 ≤ x) :
    load32 (store8 m x c) a = load32 m a :=
  load32_congr fun _ _ _ => store8_of_ne c (by omega)

/-! ## Copying forwards

The loop of a copy in ascending order, with the addresses as functions of the index, so that a copy
may wrap around and source and target may overlap.  If no byte of the source is written before it is
read then the target gets the bytes of the source. -/

/-- Copy `n` bytes in ascending order, the `i`-th from `s i` to `d i`. -/
def copyFwd (m : Mem) (d s : Nat → Nat) : Nat → Mem
  | 0 => m
  | n + 1 => store8 (copyFwd m d s n) (d n) (copyFwd m d s n (s n))

/-- A copy leaves every byte outside its target alone. -/
theorem copyFwd_of_outside (h : ∀ i < n, d i ≠ x) : copyFwd m d s n x = m x := by
  induction n with
  | zero => rfl
  | succ n ih =>
    rw [copyFwd, store8_of_ne _ (Ne.symm (h n (by omega)))]
    exact ih fun i hi => h i (by omega)

/-- What round `i` writes stays: the byte it found at its source. -/
theorem copyFwd_round (hinj : ∀ i j, i < j → j < n → d i ≠ d j) {i : Nat} (hi : i < n) :
    copyFwd m d s n (d i) = copyFwd m d s i (s i) := by
  induction n with
  | zero => omega
  | succ n ih =>
    rw [copyFwd]
    rcases Nat.lt_or_ge i n with hlt | hge
    · rw [store8_of_ne _ (hinj i n hlt (by omega))]
      exact ih (fun i j hij hj => hinj i j hij (by omega)) hlt
    · obtain rfl : i = n := by omega
      rw [store8_self]

/-- **A forward copy is faithful when nothing is overwritten before it is read.**  `hinj` says that
the target addresses are distinct, `hsafe` that the byte read in round `j` was not the target of an
earlier round. -/
theorem copyFwd_apply (hinj : ∀ i j, i < j → j < n → d i ≠ d j)
    (hsafe : ∀ i j, i < j → j < n → d i ≠ s j) {i : Nat} (hi : i < n) :
    copyFwd m d s n (d i) = m (s i) := by
  rw [copyFwd_round hinj hi]
  exact copyFwd_of_outside fun j hj => hsafe j i hj hi

/-- A byte whose source is the target of the first round is a copy of the first byte. -/
theorem copyFwd_overlap (hinj : ∀ i j, i < j → j < n → d i ≠ d j) {i : Nat} (hpos : 0 < i)
    (hi : i < n) (hover : s i = d 0) : copyFwd m d s n (d i) = m (s 0) := by
  rw [copyFwd_round hinj hi, hover,
    copyFwd_round (fun i j hij hj => hinj i j hij (by omega)) hpos]
  rfl

/-! ## Filling -/

/-- Write the byte `b` at `d 0, …, d (n - 1)`. -/
def fill (m : Mem) (d : Nat → Nat) (b : UInt8) : Nat → Mem
  | 0 => m
  | n + 1 => store8 (fill m d b n) (d n) b

theorem fill_of_outside (b : UInt8) (h : ∀ i < n, d i ≠ x) : fill m d b n x = m x := by
  induction n with
  | zero => rfl
  | succ n ih =>
    rw [fill, store8_of_ne _ (Ne.symm (h n (by omega)))]
    exact ih fun i hi => h i (by omega)

theorem fill_apply (b : UInt8) {i : Nat} (hi : i < n) : fill m d b n (d i) = b := by
  induction n with
  | zero => omega
  | succ n ih =>
    rw [fill]
    by_cases h : d i = d n
    · rw [h, store8_self]
    · rw [store8_of_ne _ h]
      exact ih (by
        rcases Nat.lt_or_ge i n with hlt | hge
        · exact hlt
        · exact absurd (by rw [show i = n by omega]) h)

/-! ## Lists of writes

Code that writes a list of bytes is compared with others by the memory it leaves.  Writing a list at
`a` leaves its bytes from `a` on, and nothing else changes. -/

/-- Perform the writes of single bytes, the first one first. -/
def storeAll (m : Mem) (ws : List (Nat × UInt8)) : Mem := ws.foldl (fun m w => m.store8 w.1 w.2) m

theorem storeAll_append (m : Mem) (ws ws' : List (Nat × UInt8)) :
    storeAll m (ws ++ ws') = storeAll (storeAll m ws) ws' := List.foldl_append

@[simp] theorem storeAll_singleton (m : Mem) (w : Nat × UInt8) :
    storeAll m [w] = m.store8 w.1 w.2 := rfl

/-- What is not written to stays. -/
theorem storeAll_of_forall_ne {ws : List (Nat × UInt8)} (h : ∀ w ∈ ws, w.1 ≠ x) :
    storeAll m ws x = m x := by
  induction ws generalizing m with
  | nil => rfl
  | cons w ws ih =>
    obtain ⟨hw, hws⟩ := List.forall_mem_cons.mp h
    rw [storeAll, List.foldl_cons, ← storeAll, ih hws, store8_of_ne _ hw.symm]

/-- A row of bytes that is written from `a` on. -/
theorem storeAll_zipIdx {bs : List UInt8} {i : Nat} (hi : i < bs.length) :
    storeAll m ((bs.zipIdx a).map Prod.swap) (a + i) = bs[i] := by
  induction bs generalizing m a i with
  | nil => exact absurd hi (Nat.not_lt_zero i)
  | cons b bs ih =>
    rw [List.zipIdx_cons, List.map_cons, storeAll, List.foldl_cons, ← storeAll]
    cases i with
    | zero =>
      rw [storeAll_of_forall_ne, Prod.swap_prod_mk, Nat.add_zero, store8_self,
        List.getElem_cons_zero]
      intro w hw
      obtain ⟨p, hp, rfl⟩ := List.mem_map.mp hw
      have hle := List.le_snd_of_mem_zipIdx hp
      rw [Prod.fst_swap]
      omega
    | succ i =>
      rw [List.getElem_cons_succ, show a + (i + 1) = a + 1 + i by omega]
      exact ih (by rwa [List.length_cons, Nat.add_lt_add_iff_right] at hi)

/-- The writes of a copy. -/
theorem copyFwd_eq_storeAll : copyFwd m d s n =
    storeAll m ((List.range n).map fun i => (d i, copyFwd m d s i (s i))) := by
  induction n with
  | zero => rfl
  | succ n ih =>
    rw [List.range_succ, List.map_append, storeAll_append, ← ih]
    rfl

end Mem
