import MyaXOS.Lib.Memory

/-!
# What the kernel's C is written in

Numbers are natural numbers, and 32-bit arithmetic is made explicit by `u32`, which is where a
`uint32_t`, a `size_t` or a pointer wraps around.  A call that does not return ends in a `Stop`.

`memcpy` and `memset` are the byte loops of `system.c`.  Both are instances of the loops of `Mem`,
with the addresses `dest + i` and `src + i` taken modulo `2 ^ 32`.

**Why natural numbers.**  Most sums of the kernel do not wrap around, and where one does this is
usually what a theorem is about.  So a sum that may wrap around is written with `u32`, in the place
in which the source has it, and `u32_eq` takes it away when its argument is in range.  What is left
is linear arithmetic.  Numbers whose bits are taken apart — the words of the bitmap, scan codes, the
entries of tables — are bit vectors instead.

**How a call ends.**  There are several ways not to return: a halt or a failed assertion, with its
text; an access through `NULL`; a jump to an address where there is no function; and a loop that
never ends.  A function that cannot do any of these is a plain function.  For the others
`bind_eq_ok` takes a computation that has returned apart into its steps, and the lemmas on
assertions do the same for a check that has been passed.

**Overlapping copies.**  `memcpy` copies upwards, and it is called with ranges that overlap.  It is
faithful if the target is below the source (`memcpy_apply`), and if it is above then the first bytes
are copied again and again (`memcpy_overlap`); the screen depends on the first, and a boot module
that is loaded just below its place on the second.
-/

set_option autoImplicit false

namespace MyaXOS

/-- The value of `n` as an unsigned 32-bit number. -/
def u32 (n : Nat) : Nat := n % 0x100000000

theorem u32_lt (n : Nat) : u32 n < 0x100000000 := Nat.mod_lt _ (by decide)

theorem u32_eq {n : Nat} (h : n < 0x100000000) : u32 n = n := Nat.mod_eq_of_lt h

/-- The ways in which a call does not return. -/
inductive Stop where
  /-- `HALT_AND_CATCH_FIRE(message)`. -/
  | halt (message : String)
  /-- A failed `ASSERT` or `assert`, with the text of its condition. -/
  | assertFailed (desc : String)
  /-- An access through `NULL`. -/
  | nullPointer
  /-- A call through a pointer to something that is not a function. -/
  | wildCall (address : Nat)
  /-- A loop that had not finished when its fuel ran out. -/
  | spin
  deriving DecidableEq, Repr

/-- `assert(statement)`: go on if it holds, stop if it does not. -/
def assert (statement : Prop) [Decidable statement] (desc : String) : Except Stop Unit :=
  if statement then .ok () else .error (.assertFailed desc)

theorem assert_eq_ok {statement : Prop} [Decidable statement] {desc : String} (h : statement) :
    assert statement desc = .ok () := if_pos h

@[simp] theorem ok_bind {α β : Type} (a : α) (f : α → Except Stop β) :
    ((.ok a : Except Stop α) >>= f) = f a := rfl

@[simp] theorem error_bind {α β : Type} (e : Stop) (f : α → Except Stop β) :
    ((.error e : Except Stop α) >>= f) = .error e := rfl

/-- A computation that returns has returned from its first part. -/
theorem bind_eq_ok {α β : Type} {x : Except Stop α} {f : α → Except Stop β} {b : β}
    (h : (x >>= f) = .ok b) : ∃ a, x = .ok a ∧ f a = .ok b := by
  cases x with
  | ok a => exact ⟨a, rfl, h⟩
  | error e => cases h

theorem ok_ne_error {α : Type} (a : α) (e : Stop) : (.ok a : Except Stop α) ≠ .error e := nofun

/-- A computation does not stop with `e` if neither of its parts does. -/
theorem bind_ne_error {α β : Type} {x : Except Stop α} {f : α → Except Stop β} {e : Stop}
    (hx : x ≠ .error e) (hf : ∀ a, f a ≠ .error e) : (x >>= f) ≠ .error e := by
  cases x with
  | ok a => exact hf a
  | error e' => exact fun h => hx (congrArg Except.error (Except.error.inj h))

/-- An assertion that is passed holds. -/
theorem assert_ok {statement : Prop} [Decidable statement] {desc : String} {a : Unit}
    (h : assert statement desc = .ok a) : statement := by
  by_contra hnot
  rw [assert, if_neg hnot] at h
  cases h

/-- An assertion that holds is passed. -/
theorem assert_bind {β : Type} {statement : Prop} [Decidable statement] {desc : String}
    (h : statement) (f : Unit → Except Stop β) : (assert statement desc >>= f) = f () := by
  rw [assert_eq_ok h, ok_bind]

/-! ## `memcpy` and `memset`

Both go byte by byte from the lowest address up, and the order is part of the meaning: the driver of
the screen copies between ranges that overlap.  The general facts about such loops come from
`Lib/Memory.lean`; what is added here is the arithmetic of 32 bits, which does nothing for a range
that does not wrap. -/

/-- `memcpy(dest, src, count)`, byte by byte in ascending order. -/
def memcpy (m : Mem) (dest src count : Nat) : Mem :=
  m.copyFwd (fun i => u32 (dest + i)) (fun i => u32 (src + i)) count

/-- `memset(b, val, count)`. -/
def memset (m : Mem) (b val count : Nat) : Mem :=
  m.fill (fun i => u32 (b + i)) (UInt8.ofNat val) count

section
variable {m : Mem} {dest src b val count x : Nat}

theorem memcpy_of_outside (hd : dest + count ≤ 0x100000000) (hx : x < dest ∨ dest + count ≤ x) :
    memcpy m dest src count x = m x :=
  Mem.copyFwd_of_outside fun i hi => by rw [u32_eq (by omega)]; omega

/-- **`memcpy` copies** when its two ranges do not overlap, and also when they do but the target is
the lower of the two. -/
theorem memcpy_apply (hd : dest + count ≤ 0x100000000) (hs : src + count ≤ 0x100000000)
    (h : dest ≤ src ∨ src + count ≤ dest) {i : Nat} (hi : i < count) :
    memcpy m dest src count (dest + i) = m (src + i) := by
  have hcopy := Mem.copyFwd_apply (m := m) (d := fun i => u32 (dest + i))
    (s := fun i => u32 (src + i)) (n := count)
    (fun i j hij hj => by simp only [u32]; omega) (fun i j hij hj => by simp only [u32]; omega) hi
  rwa [u32_eq (by omega), u32_eq (by omega)] at hcopy

/-- When the target overlaps the source from above, the first byte comes round again. -/
theorem memcpy_overlap (hd : dest + count ≤ 0x100000000) (h : src < dest)
    (hlt : dest < src + count) : memcpy m dest src count (dest + (dest - src)) = m src := by
  have hcopy := Mem.copyFwd_overlap (m := m) (d := fun i => u32 (dest + i))
    (s := fun i => u32 (src + i)) (n := count) (i := dest - src)
    (fun i j hij hj => by simp only [u32]; omega) (by omega) (by omega)
    (by simp only [u32]; omega)
  rwa [u32_eq (by omega), u32_eq (by omega)] at hcopy

theorem memset_of_outside (hb : b + count ≤ 0x100000000) (hx : x < b ∨ b + count ≤ x) :
    memset m b val count x = m x :=
  Mem.fill_of_outside _ fun i hi => by rw [u32_eq (by omega)]; omega

/-- What is zero stays zero when zeros are written. -/
theorem memset_eq_zero (h : m x = 0) : memset m b 0 count x = 0 := by
  rw [memset]
  induction count with
  | zero => exact h
  | succ count ih =>
    rw [Mem.fill]
    by_cases hx : x = u32 (b + count)
    · rw [hx, Mem.store8_self]
      rfl
    · rw [Mem.store8_of_ne _ hx]
      exact ih

theorem memset_apply (hlt : x < 0x100000000) (h : b ≤ x) (hx : x < b + count) :
    memset m b val count x = UInt8.ofNat val := by
  have hfill := Mem.fill_apply (m := m) (d := fun i => u32 (b + i)) (UInt8.ofNat val)
    (show x - b < count by omega)
  rwa [u32_eq (by omega), show b + (x - b) = x by omega] at hfill

end

end MyaXOS
