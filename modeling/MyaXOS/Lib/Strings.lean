import Mathlib.Data.List.Basic
import MyaXOS.Lib.Memory

/-!
# Strings in a memory

A string is a list of bytes none of which is 0.  In a memory it starts at some address and ends at
the first 0.

* `HoldsStr m a s`: the memory has the string `s` at `a`.
* `HoldsCut sep m a s`: the memory has `s` at `a`, but a 0 stands for each separator.  What lies
  there is a row of strings, the pieces of `s` between the separators: `HoldsCut.cases` takes the
  first one off.

Programs cut strings in place: they overwrite the separators by zeros, and then go from one piece to
the next by adding its length and one.  `HoldsCut` is the memory after the first of these and before
the second.  It is stated about the whole of `s`, so that the loop that cuts has one invariant, and
it is read piece by piece, so that the loop that walks has one too: what is left behind a piece is
again a cut string, with one separator less.  The pieces are those of `List.splitOn`, and how many
there are is `length_splitOn`.

Both predicates depend on the bytes of the string alone, with its terminator (`HoldsStr.congr`,
`HoldsCut.congr`), and parts of a string are strings again (`tail`, `right`, `cut`).  So what is
written elsewhere leaves them alone, and a caller never has to look at single bytes.

The last section is about numbers that are printed: the digits of a number in some base, filled up
with zeros, are its last digits, which is how a loop that takes digits off the end has them.
-/

set_option autoImplicit false

namespace Mem

variable {m m' : Mem} {a : Nat} {s t : List UInt8} {sep : UInt8}

/-- The memory has the string `s` at `a`: its characters, none of which is NUL, and a NUL behind
them.  There is one such string at most for an address. -/
structure HoldsStr (m : Mem) (a : Nat) (s : List UInt8) : Prop where
  byte : ∀ i (hi : i < s.length), m (a + i) = s[i]
  terminator : m (a + s.length) = 0
  nonzero : 0 ∉ s

/-- The memory has `s` at `a`, with a 0 for each separator.  So there is a string at `a`, which is
the first piece of `s`, and behind its terminator it goes on in the same way with the other pieces.
-/
structure HoldsCut (sep : UInt8) (m : Mem) (a : Nat) (s : List UInt8) : Prop where
  byte : ∀ i (hi : i < s.length), m (a + i) = if s[i] = sep then 0 else s[i]
  terminator : m (a + s.length) = 0
  nonzero : 0 ∉ s

theorem HoldsStr.byte_ne (h : HoldsStr m a s) {i : Nat} (hi : i < s.length) : m (a + i) ≠ 0 := by
  rw [h.byte i hi]
  exact fun h0 => h.nonzero (h0 ▸ List.getElem_mem hi)

/-- A string depends on its own bytes only. -/
theorem HoldsStr.congr (h : HoldsStr m a s) (hsame : ∀ i ≤ s.length, m' (a + i) = m (a + i)) :
    HoldsStr m' a s where
  byte i hi := by rw [hsame i hi.le, h.byte i hi]
  terminator := by rw [hsame s.length le_rfl, h.terminator]
  nonzero := h.nonzero

/-- What follows the first byte is a string. -/
theorem HoldsStr.tail {c : UInt8} (h : HoldsStr m a (c :: t)) : HoldsStr m (a + 1) t where
  byte i hi := by
    have hbyte := h.byte (i + 1) (by rw [List.length_cons]; omega)
    rwa [List.getElem_cons_succ, show a + (i + 1) = a + 1 + i by omega] at hbyte
  terminator := by
    have hend := h.terminator
    rwa [List.length_cons, show a + (t.length + 1) = a + 1 + t.length by omega] at hend
  nonzero := fun h0 => h.nonzero (List.mem_cons_of_mem _ h0)

theorem HoldsStr.head {c : UInt8} (h : HoldsStr m a (c :: t)) : m a = c := by
  have hbyte := h.byte 0 (by rw [List.length_cons]; omega)
  rwa [Nat.add_zero, List.getElem_cons_zero] at hbyte

/-- What follows a part of the string is a string. -/
theorem HoldsStr.right (h : HoldsStr m a (s ++ t)) : HoldsStr m (a + s.length) t where
  byte i hi := by
    have hbyte := h.byte (s.length + i) (by rw [List.length_append]; omega)
    rw [List.getElem_append_right (Nat.le_add_right ..)] at hbyte
    simpa only [Nat.add_sub_cancel_left, ← Nat.add_assoc] using hbyte
  terminator := by
    have hend := h.terminator
    rwa [List.length_append, ← Nat.add_assoc] at hend
  nonzero := fun h0 => h.nonzero (List.mem_append_right _ h0)

/-- A string ends where a 0 is written. -/
theorem HoldsStr.cut (h : HoldsStr m a (s ++ t)) : HoldsStr (m.store8 (a + s.length) 0) a s where
  byte i hi := by
    have hbyte := h.byte i (by rw [List.length_append]; omega)
    rw [List.getElem_append_left hi] at hbyte
    rwa [store8_of_ne _ (by omega)]
  terminator := store8_self ..
  nonzero := fun h0 => h.nonzero (List.mem_append_left _ h0)

/-- A string that is written at `a`, with a 0 behind it. -/
theorem holdsStr_storeAll (m : Mem) (a : Nat) (h : 0 ∉ s) :
    HoldsStr (m.storeAll (((s ++ [0]).zipIdx a).map Prod.swap)) a s where
  byte i hi := by
    rw [storeAll_zipIdx (by rw [List.length_append]; omega), List.getElem_append_left hi]
  terminator := by
    rw [storeAll_zipIdx (by rw [List.length_append]; exact Nat.lt_succ_self _),
      List.getElem_append_right le_rfl]
    simp
  nonzero := h

/-- A cut string depends on its own bytes only. -/
theorem HoldsCut.congr (h : HoldsCut sep m a s) (hsame : ∀ i ≤ s.length, m' (a + i) = m (a + i)) :
    HoldsCut sep m' a s where
  byte i hi := by rw [hsame i hi.le, h.byte i hi]
  terminator := by rw [hsame s.length le_rfl, h.terminator]
  nonzero := h.nonzero

/-- Without a separator nothing is cut. -/
theorem HoldsCut.holdsStr (h : HoldsCut sep m a s) (hsep : sep ∉ s) : HoldsStr m a s where
  byte i hi := by
    rw [h.byte i hi, if_neg fun he : s[i] = sep => hsep (he ▸ List.getElem_mem hi)]
  terminator := h.terminator
  nonzero := h.nonzero

/-- The part up to the first separator is a string. -/
theorem HoldsCut.left (h : HoldsCut sep m a (s ++ sep :: t)) (hsep : sep ∉ s) :
    HoldsStr m a s where
  byte i hi := by
    have hbyte := h.byte i (by rw [List.length_append]; omega)
    rwa [List.getElem_append_left hi,
      if_neg fun he : s[i] = sep => hsep (he ▸ List.getElem_mem hi)] at hbyte
  terminator := by
    have hbyte := h.byte s.length (by rw [List.length_append, List.length_cons]; omega)
    rwa [List.getElem_append_right le_rfl, if_pos (by simp)] at hbyte
  nonzero := fun h0 => h.nonzero (List.mem_append_left _ h0)

/-- The part behind the first separator is cut as before. -/
theorem HoldsCut.right (h : HoldsCut sep m a (s ++ sep :: t)) :
    HoldsCut sep m (a + s.length + 1) t where
  byte i hi := by
    have hbyte := h.byte (s.length + (1 + i)) (by simp; omega)
    rw [List.getElem_append_right (Nat.le_add_right ..)] at hbyte
    simp only [Nat.add_sub_cancel_left, Nat.add_comm 1 i, List.getElem_cons_succ] at hbyte
    rwa [show a + s.length + 1 + i = a + (s.length + (i + 1)) by omega]
  terminator := by
    have hend := h.terminator
    rw [List.length_append, List.length_cons] at hend
    rwa [show a + s.length + 1 + t.length = a + (s.length + (t.length + 1)) by omega]
  nonzero := fun h0 => h.nonzero (List.mem_append_right _ (List.mem_cons_of_mem _ h0))

/-- What follows the first byte is cut as before. -/
theorem HoldsCut.tail {c : UInt8} (h : HoldsCut sep m a (c :: t)) : HoldsCut sep m (a + 1) t where
  byte i hi := by
    have hbyte := h.byte (i + 1) (by rw [List.length_cons]; omega)
    rwa [List.getElem_cons_succ, show a + (i + 1) = a + 1 + i by omega] at hbyte
  terminator := by
    have hend := h.terminator
    rwa [List.length_cons, show a + (t.length + 1) = a + 1 + t.length by omega] at hend
  nonzero := fun h0 => h.nonzero (List.mem_cons_of_mem _ h0)

/-- There is one piece more than there are separators. -/
theorem length_splitOn (sep : UInt8) (s : List UInt8) :
    (s.splitOn sep).length = s.count sep + 1 := by
  induction s with
  | nil => rfl
  | cons c s ih =>
    rw [List.splitOn_cons_eq_if_modifyHead, List.count_cons]
    split_ifs with hc
    · rw [List.length_cons, ih]
    · rw [List.length_modifyHead, ih]

/-- **The first piece of a cut string**, and what follows it. -/
theorem HoldsCut.cases (h : HoldsCut sep m a s) {c : List UInt8} {cs : List (List UInt8)}
    (hs : s.splitOn sep = c :: cs) :
    HoldsStr m a c ∧ (cs = [] ∧ c = s ∨
      ∃ t, s = c ++ sep :: t ∧ t.splitOn sep = cs ∧ HoldsCut sep m (a + c.length + 1) t) := by
  by_cases hsep : sep ∈ s
  · obtain ⟨c', t, rfl, hc'⟩ := List.eq_append_cons_of_mem hsep
    rw [List.splitOn_append_cons_self_of_not_mem hc', List.cons.injEq] at hs
    obtain ⟨rfl, rfl⟩ := hs
    exact ⟨h.left hc', Or.inr ⟨t, rfl, rfl, h.right⟩⟩
  · rw [List.splitOn_eq_singleton hsep, List.cons.injEq] at hs
    obtain ⟨rfl, rfl⟩ := hs
    exact ⟨h.holdsStr hsep, Or.inl ⟨rfl, rfl⟩⟩

end Mem

/-! ## Numbers as strings -/

/-- The digits of a number in base `b`, filled up with zeros to `k` digits, are its last `k` digits.
-/
theorem leftpad_toDigits {b : Nat} (hb : 1 < b) : ∀ {k v : Nat}, 0 < k → v < b ^ k →
    (Nat.toDigits b v).leftpad k '0' =
      ((List.range k).map fun j => (v / b ^ j % b).digitChar).reverse
  | 1, v, _, hv => by
    rw [pow_one] at hv
    rw [Nat.toDigits_of_lt_base hv]
    simp [List.leftpad, Nat.mod_eq_of_lt hv]
  | k + 2, v, _, hv => by
    have hdiv : v / b < b ^ (k + 1) := Nat.div_lt_of_lt_mul (by rwa [← Nat.pow_succ'])
    have ih := leftpad_toDigits hb (Nat.succ_pos k) hdiv
    have hdigit : ∀ j, v / b ^ (j + 1) % b = v / b / b ^ j % b := by
      intro j
      rw [Nat.div_div_eq_div_mul, ← Nat.pow_succ']
    rw [List.range_succ_eq_map, List.map_cons, List.reverse_cons, List.map_map, pow_zero,
      Nat.div_one]
    simp only [Function.comp_def, Nat.succ_eq_add_one, hdigit]
    rw [← ih, Nat.toDigits_eq_if hb]
    by_cases hlt : v < b
    · rw [if_pos hlt, Nat.div_eq_of_lt hlt, Nat.mod_eq_of_lt hlt, Nat.toDigits_zero]
      simp [List.leftpad, List.replicate_succ']
    · rw [if_neg hlt]
      simp [List.leftpad]
