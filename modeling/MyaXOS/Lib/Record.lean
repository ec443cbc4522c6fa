import MyaXOS.Lib.Memory

/-!
# Records in memory

A C program fills in a record field by field, and each value may be read from memory at the moment
it is stored.  What is in the record at the end is then a matter of order, unless the values come
from somewhere else than the record that is being written.

* `storeFields m base fs` stores the fields `fs`, each a 32-bit word with its offset from `base` and
  what is read for it, one after the other.
* `storeFields_of_outside` says that nothing else is written to.
* `load32_storeFields` reads a field back: it has the value that was there for it at the start, if
  the fields do not overlap and if what is read for this one lies outside the record.

The proof of the last one follows the list.  The stores in front of the field leave what is read for
it as it was, since they are in the record; the stores behind it leave the field, since they are at
other offsets.

A value is a function of the memory, and `SteadyOff` says of it that it does not depend on the
record.  For a constant this is trivial; for a field of another record it is that the two do not
overlap.  The fields are a list and not a structure, because their number and order are those of the
source, and a function that fills in a part of a record, or the same record in another order, is
another list.
-/

set_option autoImplicit false

namespace Mem

/-- Store words at offsets from `base`, one after the other. -/
def storeFields (m : Mem) (base : Nat) : List (Nat × (Mem → Nat)) → Mem
  | [] => m
  | f :: fs => storeFields (m.store32 (base + f.1) (f.2 m)) base fs

/-- What is read by `v` is `n`, whatever has been written to the `size` bytes at `base`. -/
def SteadyOff (m : Mem) (base size : Nat) (v : Mem → Nat) (n : Nat) : Prop :=
  ∀ m' : Mem, (∀ x, x < base ∨ base + size ≤ x → m' x = m x) → v m' = n

variable {m m' : Mem} {base size o n x : Nat} {v : Mem → Nat} {fs : List (Nat × (Mem → Nat))}

theorem SteadyOff.congr (h : m.SteadyOff base size v n)
    (hsame : ∀ x, x < base ∨ base + size ≤ x → m' x = m x) : m'.SteadyOff base size v n :=
  fun m'' hm'' => h m'' fun x hx => (hm'' x hx).trans (hsame x hx)

theorem storeFields_of_outside (h : ∀ f ∈ fs, x < base + f.1 ∨ base + f.1 + 4 ≤ x) :
    m.storeFields base fs x = m x := by
  induction fs generalizing m with
  | nil => rfl
  | cons f fs ih =>
    rw [storeFields, ih fun f' hf' => h f' (List.mem_cons_of_mem f hf')]
    exact store32_of_outside m _ (h f List.mem_cons_self)

/-- A field that is not stored is what it was. -/
theorem load32_storeFields_of_disjoint (h : ∀ f ∈ fs, o + 4 ≤ f.1 ∨ f.1 + 4 ≤ o) :
    (m.storeFields base fs).load32 (base + o) = m.load32 (base + o) :=
  load32_congr fun x hle hlt => storeFields_of_outside fun f hf => by
    have hf' := h f hf
    omega

/-- **A field is what was read for it.**  The fields do not overlap, so the stores for the others
leave it alone; and the value is steady, so it was the same when the store was made as it was at the
start. -/
theorem load32_storeFields (hin : ∀ f ∈ fs, f.1 + 4 ≤ size)
    (hapart : fs.Pairwise fun f f' => f.1 + 4 ≤ f'.1 ∨ f'.1 + 4 ≤ f.1) (hf : (o, v) ∈ fs)
    (hv : m.SteadyOff base size v n) (hn : n < 2 ^ 32) :
    (m.storeFields base fs).load32 (base + o) = n := by
  induction fs generalizing m with
  | nil => exact absurd hf List.not_mem_nil
  | cons f fs ih =>
    obtain ⟨hhead, hrest⟩ := List.pairwise_cons.mp hapart
    rw [storeFields]
    rcases List.mem_cons.mp hf with rfl | hmem
    · have hvalue : v m = n := hv m fun _ _ => rfl
      rw [load32_storeFields_of_disjoint hhead]
      simp only [hvalue]
      exact load32_store32_self _ _ hn
    · have hle := hin f List.mem_cons_self
      refine ih (fun f' hf' => hin f' (List.mem_cons_of_mem f hf')) hrest hmem (hv.congr ?_)
      exact fun x hx => store32_of_outside _ _ (by omega)

end Mem
