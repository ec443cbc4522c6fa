import Mathlib.Algebra.BigOperators.Intervals
import Mathlib.Algebra.BigOperators.Ring.Finset
import Mathlib.Data.BitVec
import Mathlib.Tactic.LinearCombination
import Mathlib.Tactic.Ring
import MyaXOS.Kprintf

/-!
# `atoi`

`atoi` is to read a number from its decimal digits, the last one first.  Its loop counts `i` up from
the length of the string instead of down, so it goes on behind the string until `i` wraps around.

* `atoi` is the function.  The variables of the loop come with the addresses that it has read from.
* `atoi_eq` says what the loop does with any string: it makes a round for every `i` up to the end of
  the 32-bit range, and what it returns is a sum over the last digit and the seven bytes behind it,
  since `80 ^ 8` is 0 in 32 bits.
* `atoi_never` says that this is never what a decimal number asks for.

**A loop of four billion rounds** cannot be run, and what it computes cannot be read off its result.
It has an end, though, since `i` has 32 bits and is 0 again in the end.  `atoiLoop_eq` is an
induction on the number of rounds that are left, and says that the result is a sum of the bytes from
the last digit on, with weights.  The weight is multiplied by 80 in each round, not by 10, and in 32
bits eight factors of 80 are 0.  So all but eight bytes of the address space drop out of the sum.

**Never.**  The function reads behind the string whatever the string is: the first round is at the
last digit, and the third is already behind the terminator.  This is enough to say that it does not
do what it should.  It is also true of its result, in some memory: of the eight bytes one is behind
the terminator, and its weight is not 0, so that two memories that differ in this byte alone give
different numbers for the same string.  At most one of them can be right.
-/

set_option autoImplicit false

namespace MyaXOS

open Finset

/-- The variables of `atoi`, and the addresses the loop has read from. -/
structure Atoi where
  out : BitVec 32
  pow : BitVec 32
  i : Nat
  reads : List Nat

/-- `str[i-1] - 48`, as the number it is multiplied as. -/
def atoiDigit (c : UInt8) : BitVec 32 := BitVec.ofInt 32 (charValue c - 48)

/-- A round of the loop. -/
def Atoi.round (m : Mem) (str : Nat) (s : Atoi) : Atoi where
  out := s.out + atoiDigit (m (u32 (str + (s.i - 1)))) * s.pow
  pow := s.pow * 80
  i := u32 (s.i + 1)
  reads := u32 (str + (s.i - 1)) :: s.reads

/-- The loop of `atoi`.  The test is `i > 0`, and `i` goes up. -/
def atoiLoop (m : Mem) (str : Nat) : Nat → Atoi → Except Stop Atoi
  | 0, _ => .error .spin
  | fuel + 1, s => if 0 < s.i then atoiLoop m str fuel (s.round m str) else .ok s

/-- `atoi(str)`.  There are fewer than `2 ^ 32` rounds before `i` is 0 again. -/
def atoi (m : Mem) (str : Nat) : Except Stop Atoi := do
  let len ← strlen m str
  atoiLoop m str 0x100000000 { out := 0, pow := 1, i := len, reads := [] }

/-! ## What the loop computes

The counter goes up where it should go down, and stops only when it has wrapped around.  The digits
are weighted with powers of 80, of which the eighth has no bit left in 32, so that of the billions
of bytes that the loop reads eight count.  The induction is on the rounds that are left. -/

/-- The bytes from `a` on with the weights that the loop gives them. -/
def weighted (m : Mem) (a count : Nat) : BitVec 32 :=
  ∑ j ∈ range count, atoiDigit (m (u32 (a + j))) * 80 ^ j

section
variable {m m' : Mem} {str : Nat} {s : Atoi}

/-- The weight of the ninth byte is 0, and so is every weight behind it. -/
theorem weighted_eq (m : Mem) (a : Nat) {count : Nat} (hcount : 8 ≤ count) :
    weighted m a count = weighted m a 8 := by
  have hpow : (80 : BitVec 32) ^ 8 = 0 := by decide
  obtain ⟨rest, rfl⟩ := Nat.exists_eq_add_of_le hcount
  rw [weighted, sum_range_add, ← weighted]
  have hrest : ∀ j ∈ range rest,
      atoiDigit (m (u32 (a + (8 + j)))) * (80 : BitVec 32) ^ (8 + j) = 0 := by
    intro j _
    rw [pow_add, hpow, zero_mul, mul_zero]
  rw [sum_eq_zero hrest, add_zero]

/-- The first byte and the rest. -/
theorem weighted_succ (m : Mem) (a count : Nat) :
    weighted m a (count + 1) = atoiDigit (m (u32 a)) + 80 * weighted m (a + 1) count := by
  rw [weighted, sum_range_succ', Nat.add_zero, pow_zero, mul_one, add_comm, weighted, mul_sum]
  refine congrArg _ (sum_congr rfl fun j _ => ?_)
  rw [show a + (j + 1) = a + 1 + j by omega, pow_succ]
  ring

/-- **What the loop returns** when there are `left` rounds to come: `i` is then `2 ^ 32 - left`,
or 0 if there is none. -/
theorem atoiLoop_eq (m : Mem) (str : Nat) {s : Atoi} {left fuel : Nat} (hleft : left < 0x100000000)
    (hi : s.i = u32 (0x100000000 - left)) (hfuel : left < fuel) :
    ∃ r, atoiLoop m str fuel s = .ok r ∧
      r.out = s.out + s.pow * weighted m (str + (0xFFFFFFFF - left)) left ∧
      (∀ a ∈ s.reads, a ∈ r.reads) ∧
      ∀ j < left, u32 (str + (0xFFFFFFFF - left) + j) ∈ r.reads := by
  induction left generalizing s fuel with
  | zero =>
    obtain ⟨fuel, rfl⟩ := Nat.exists_eq_succ_of_ne_zero hfuel.ne'
    refine ⟨s, ?_, ?_, fun a ha => ha, fun j hj => absurd hj (Nat.not_lt_zero j)⟩
    · rw [atoiLoop, hi, if_neg (by decide)]
    · rw [weighted, range_zero, sum_empty, mul_zero, add_zero]
  | succ left ih =>
    obtain ⟨fuel, rfl⟩ := Nat.exists_eq_succ_of_ne_zero (Nat.ne_zero_of_lt hfuel)
    rw [u32_eq (by omega)] at hi
    have hnext : (s.round m str).i = u32 (0x100000000 - left) := by
      rw [Atoi.round, hi, show 0x100000000 - (left + 1) + 1 = 0x100000000 - left by omega]
    obtain ⟨r, hr, hout, hold, hnew⟩ := ih (Nat.lt_of_succ_lt hleft) hnext
      (Nat.lt_of_succ_lt_succ hfuel)
    have haddr : str + (s.i - 1) = str + (0xFFFFFFFF - (left + 1)) := by omega
    have hbehind : str + (0xFFFFFFFF - (left + 1)) + 1 = str + (0xFFFFFFFF - left) := by omega
    refine ⟨r, ?_, ?_, fun a ha => hold a (List.mem_cons_of_mem _ ha), fun j hj => ?_⟩
    · rw [atoiLoop, if_pos (by omega), hr]
    · rw [hout, weighted_succ, hbehind, Atoi.round, haddr]
      simp only
      ring
    · cases j with
      | zero =>
        refine hold _ ?_
        rw [Atoi.round, haddr]
        exact List.mem_cons_self
      | succ j =>
        have hread := hnew j (by omega)
        rwa [← hbehind, Nat.add_right_comm, Nat.add_assoc _ j 1] at hread

end

/-! ## Decimal numbers

The number a string of digits means, by Horner's rule, and what `atoi` would have to do to be said
to decode it.  The second byte it reads from is already behind the terminator. -/

/-- The number a string of decimal digits stands for. -/
def decimal (s : List UInt8) : Nat := s.foldl (fun v c => 10 * v + (c.toNat - 0x30)) 0

/-- A string of decimal digits.  It fits the address space, and `strlen` can count it in an `int`.
-/
structure DigitString (m : Mem) (str : Nat) (s : List UInt8) : Prop where
  holds : m.HoldsStr str s
  digit : ∀ c ∈ s, 0x30 ≤ c ∧ c ≤ 0x39
  ne_nil : s ≠ []
  length_lt : s.length < 0x80000000
  fits : str + s.length < 0x100000000

/-- What `atoi` is to do: return the number, having read the characters of the string only. -/
def Decodes (m : Mem) (str : Nat) (s : List UInt8) : Prop :=
  ∃ r, atoi m str = .ok r ∧ (∀ a ∈ r.reads, str ≤ a ∧ a ≤ str + s.length) ∧
    r.out = BitVec.ofNat 32 (decimal s)

section
variable {m : Mem} {str n : Nat} {s : List UInt8}

/-- **What `atoi` does instead**: it reads on behind the end of the string, and adds up the last
digit and the seven bytes behind it. -/
theorem atoi_eq (h : DigitString m str s) :
    ∃ r, atoi m str = .ok r ∧ u32 (str + s.length + 1) ∈ r.reads ∧
      r.out = weighted m (str + (s.length - 1)) 8 := by
  have hlength := h.length_lt
  have hpos : 0 < s.length := List.length_pos_iff.mpr h.ne_nil
  have hleft : 0x100000000 - s.length < 0x100000000 := Nat.sub_lt (by decide) hpos
  have hi : s.length = u32 (0x100000000 - (0x100000000 - s.length)) := by
    rw [u32_eq (by omega)]
    omega
  obtain ⟨r, hr, hout, -, hreads⟩ := atoiLoop_eq m str
    (s := { out := 0, pow := 1, i := s.length, reads := [] }) hleft hi hleft
  have hstart : 0xFFFFFFFF - (0x100000000 - s.length) = s.length - 1 := by omega
  rw [hstart] at hout hreads
  refine ⟨r, ?_, ?_, ?_⟩
  · rw [atoi, strlen_eq h.holds h.fits, ok_bind, hr]
  · have hbehind := hreads 2 (by omega)
    rwa [show str + (s.length - 1) + 2 = str + s.length + 1 by omega] at hbehind
  · rw [hout, weighted_eq _ _ (by omega), zero_add, one_mul]

/-- The address behind the terminator is not one of the string's, also where it wraps around. -/
theorem behind_outside (h : DigitString m str s) :
    ¬ (str ≤ u32 (str + s.length + 1) ∧ u32 (str + s.length + 1) ≤ str + s.length) := by
  have hlength := h.length_lt
  have hfits := h.fits
  rw [u32]
  omega

theorem not_decodes (h : DigitString m str s) : ¬ Decodes m str s := by
  rintro ⟨r, hr, hinside, -⟩
  obtain ⟨r', hr', hread, -⟩ := atoi_eq h
  rw [hr, Except.ok.injEq] at hr'
  subst hr'
  exact behind_outside h (hinside _ hread)

/-! ### The digits that `%d` writes

For each number there are two memories which have its digits and differ in the byte behind the
terminator only.  The weight of that byte is 80 squared, which leaves something of it in 32 bits; so
the two results differ, and at least one of them is wrong. -/

theorem digitsIn_digit {c : UInt8} (h : c ∈ digitsIn 10 n) : 0x30 ≤ c ∧ c ≤ 0x39 := by
  obtain ⟨d, hd, rfl⟩ := List.mem_map.mp h
  have hdigit := Nat.isDigit_of_mem_toDigits (by decide) (by decide) hd
  rw [Char.isDigit, Bool.and_eq_true, decide_eq_true_eq, decide_eq_true_eq] at hdigit
  have hlow : 0x30 ≤ d.toNat := UInt32.le_iff_toNat_le.mp hdigit.1
  have hhigh : d.toNat ≤ 0x39 := UInt32.le_iff_toNat_le.mp hdigit.2
  have htoNat : (UInt8.ofNat d.toNat).toNat = d.toNat := by
    rw [UInt8.toNat_ofNat']
    omega
  rw [UInt8.le_iff_toNat_le, UInt8.le_iff_toNat_le, htoNat]
  exact ⟨hlow, hhigh⟩

/-- The digits of `n` at 0x1000, and the byte `b` behind their terminator. -/
def printed (n : Nat) (b : UInt8) : Mem :=
  (Mem.storeAll (fun _ => 0) (((digitsIn 10 n ++ [0]).zipIdx 0x1000).map Prod.swap)).store8
    (0x1000 + (digitsIn 10 n).length + 1) b

theorem printed_digitString (hn : n < 0x100000000) (b : UInt8) :
    DigitString (printed n b) 0x1000 (digitsIn 10 n) := by
  have hlength : (digitsIn 10 n).length ≤ 10 := by
    rw [digitsIn, List.length_map, Nat.length_toDigits_le_iff (by decide) (by decide)]
    exact hn.trans (by decide)
  have hnonzero : 0 ∉ digitsIn 10 n := fun h => absurd (digitsIn_digit h).1 (by decide)
  refine ⟨(Mem.holdsStr_storeAll (fun _ => 0) 0x1000 hnonzero).congr fun i hi => ?_,
    fun c hc => digitsIn_digit hc, ?_, by omega, by omega⟩
  · rw [printed, Mem.store8_of_ne _ (by omega)]
  · rw [digitsIn, ne_eq, List.map_eq_nil_iff]
    exact Nat.toDigits_ne_nil

theorem weighted_congr {m m' : Mem} {a count : Nat}
    (h : ∀ j < count, m (u32 (a + j)) = m' (u32 (a + j))) :
    weighted m a count = weighted m' a count :=
  sum_congr rfl fun j hj => by rw [h j (mem_range.mp hj)]

/-- The byte behind the terminator decides what `atoi` returns. -/
theorem weighted_printed (hn : n < 0x100000000) :
    weighted (printed n 0) (0x1000 + ((digitsIn 10 n).length - 1)) 8 ≠
      weighted (printed n 1) (0x1000 + ((digitsIn 10 n).length - 1)) 8 := by
  have hdigits := printed_digitString hn 0
  have hpos : 0 < (digitsIn 10 n).length := List.length_pos_iff.mpr hdigits.ne_nil
  have hlength := hdigits.length_lt
  generalize hlen : 0x1000 + ((digitsIn 10 n).length - 1) = a
  have hbehind : a + 1 + 1 = 0x1000 + (digitsIn 10 n).length + 1 := by omega
  have hother : ∀ {x}, x ≠ a + 1 + 1 → printed n 0 x = printed n 1 x := by
    intro x hx
    rw [printed, printed, ← hbehind, Mem.store8_of_ne _ hx, Mem.store8_of_ne _ hx]
  have hself : ∀ b, printed n b (u32 (a + 1 + 1)) = b := by
    intro b
    rw [u32_eq (by omega), hbehind, printed, Mem.store8_self]
  have hrest : weighted (printed n 0) (a + 1 + 1 + 1) 5 =
      weighted (printed n 1) (a + 1 + 1 + 1) 5 :=
    weighted_congr fun j hj => hother (by rw [u32_eq (by omega)]; omega)
  intro h
  rw [weighted_succ, weighted_succ, weighted_succ, weighted_succ _ _ 7, weighted_succ _ _ 6,
    weighted_succ _ _ 5, hother (x := u32 a) (by rw [u32_eq (by omega)]; omega),
    hother (x := u32 (a + 1)) (by rw [u32_eq (by omega)]; omega), hself, hself, hrest] at h
  have hzero : (6400 : BitVec 32) * (atoiDigit 1 - atoiDigit 0) = 0 := by
    linear_combination -h
  exact absurd hzero (by decide)

/-- Whatever the number, there is a memory in which its digits are read as another one. -/
theorem not_decodes_printed (hn : n < 0x100000000) :
    ¬ ∀ m str, DigitString m str (digitsIn 10 n) →
      ∃ r, atoi m str = .ok r ∧ r.out = BitVec.ofNat 32 n := by
  intro h
  have hout : ∀ b, weighted (printed n b) (0x1000 + ((digitsIn 10 n).length - 1)) 8 =
      BitVec.ofNat 32 n := by
    intro b
    have hdigits := printed_digitString hn b
    obtain ⟨r, hr, hreturn⟩ := h _ _ hdigits
    obtain ⟨r', hr', -, hsum⟩ := atoi_eq hdigits
    rw [hr, Except.ok.injEq] at hr'
    rw [← hsum, ← hr', hreturn]
  exact weighted_printed hn ((hout 0).trans (hout 1).symm)

end

/-- **`atoi` never does what it is to do.**  On every string of decimal digits it reads behind the
end of the string, and returns the weighted sum of the last digit and the seven bytes behind it; and
for every number there is a memory where the digits of it do not come back as the number. -/
theorem atoi_never (m : Mem) (str : Nat) (s : List UInt8) (h : DigitString m str s) (n : Nat)
    (hn : n < 0x100000000) :
    ¬ Decodes m str s ∧
    (∃ r, atoi m str = .ok r ∧ u32 (str + s.length + 1) ∈ r.reads ∧
      r.out = weighted m (str + (s.length - 1)) 8) ∧
    ¬ ∀ m str, DigitString m str (digitsIn 10 n) →
      ∃ r, atoi m str = .ok r ∧ r.out = BitVec.ofNat 32 n :=
  ⟨not_decodes h, atoi_eq h, not_decodes_printed hn⟩

/-- The string `7`, and zeros behind it. -/
theorem digitString_seven : DigitString (printed 7 0) 0x1000 [0x37] :=
  printed_digitString (n := 7) (by decide) 0

theorem atoi_never_seven :
    ¬ Decodes (printed 7 0) 0x1000 [0x37] :=
  (atoi_never (printed 7 0) 0x1000 [0x37] digitString_seven 7 (by decide)).1

/-- With zeros behind it, the string `7` is not read as the number 7. -/
theorem not_decodes_seven :
    ¬ Decodes (printed 7 0) 0x1000 [0x37] ∧
    ∃ r, atoi (printed 7 0) 0x1000 = .ok r ∧ 0x1002 ∈ r.reads ∧ r.out ≠ 7 := by
  obtain ⟨r, hr, hread, hout⟩ := atoi_eq digitString_seven
  refine ⟨not_decodes digitString_seven, r, hr, hread, ?_⟩
  rw [hout]
  decide +kernel

end MyaXOS
