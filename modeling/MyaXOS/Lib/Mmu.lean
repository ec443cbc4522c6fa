import MyaXOS.Lib.Memory

/-!
# Two levels of page tables

The paging unit of a 32-bit x86 processor, with pages of 4 KB.  Bits 22 to 31 of an address choose
one of the 1024 words of the directory, bits 12 to 21 one of the 1024 words of the table that the
first word names, and the second word names the page.

* `translate` is the walk, `load` and `store` are accesses that go through it.  On the way the
  processor marks both words as accessed and the second as dirty, in memory: `mark`.
* `IdentityMap` says that the tables map the first `n` pages to themselves and nothing else.
  `IdentityMap.translate` is what each access then comes to.
* `IdentityMap.mark` says that marking goes unnoticed, as long as the tables are pages of their own
  (`Placed`).  So an access through the unit is an access to the memory itself (`IdentityMap.load`,
  `IdentityMap.store`).

**The tables are in the memory** that they map.  An access to one byte reads eight others, and
writes to some of them, so a program that runs under paging is not quite the program that it was
without.  To see that it is, one needs two things: that the words of the tables say what they
should, and that they go on to say it while they are marked.

The first is `IdentityMap`.  It does not ask for any word to have a certain value: an entry is what
the processor goes by (`Entry`), and the bits that it does not look at, among them the marks, may be
anything.  So marking a word does not change the entry that it stands for (`ofWord_or_mark`), which
is most of the second.  The rest is that a mark for one address does not fall on a word of another
table; for this the tables must not overlap, and `Placed` says that they are different pages.

Reads of the structures themselves are not disturbed by the marks in any way that matters, but the
bytes do change, and so `load` and `store` are compared with the memory outside of them.

Large pages, the caching of translations and a directory that changes while it is in use are left
out.
-/

set_option autoImplicit false

namespace Mmu

/-! ## The unit

A translation takes two steps, through a word of the directory and a word of a table.  It fails if
one of them is not present, or if the rights do not allow the access.  An access that succeeds sets
bits in the two words; this is a second function, as a translation itself changes nothing. -/

/-- What the processor goes by in a word of the directory or of a table. -/
structure Entry where
  present : Bool
  writable : Bool
  user : Bool
  /-- The address of the page or of the table. -/
  base : Nat
  deriving DecidableEq, Repr

/-- The entry that a word stands for. -/
def Entry.ofWord (w : Nat) : Entry :=
  ⟨w.testBit 0, w.testBit 1, w.testBit 2, w / 0x1000 * 0x1000⟩

/-- An access: does it write, and is it made by user code? -/
structure Access where
  write : Bool
  user : Bool
  deriving DecidableEq, Repr

/-- Why there is no translation. -/
inductive Fault where
  | notPresent
  | protection
  deriving DecidableEq, Repr

/-- The address of the word of the directory.  `cr3` is where the directory is. -/
def directoryEntry (cr3 a : Nat) : Nat := cr3 + 4 * (a / 0x400000)

/-- The address of the word of the table. -/
def tableEntry (table a : Nat) : Nat := table + 4 * (a / 0x1000 % 1024)

/-- Is the access allowed by both entries?  The supervisor may read everything, and write everything
unless `wp` is set. -/
def permits (wp : Bool) (access : Access) (table page : Entry) : Bool :=
  (!access.user || table.user && page.user) &&
    (!access.write || table.writable && page.writable || !access.user && !wp)

/-- The address that the access goes to. -/
def translate (m : Mem) (cr3 : Nat) (wp : Bool) (access : Access) (a : Nat) : Except Fault Nat :=
  let table := Entry.ofWord (m.load32 (directoryEntry cr3 a))
  let page := Entry.ofWord (m.load32 (tableEntry table.base a))
  if table.present && page.present then
    if permits wp access table page then .ok (page.base + a % 0x1000) else .error .protection
  else .error .notPresent

/-- Set bits in a word. -/
def setBits (m : Mem) (a bits : Nat) : Mem := m.store32 a (m.load32 a ||| bits)

/-- Mark the two words of a translated address: as accessed, and the page as dirty after a write. -/
def mark (m : Mem) (cr3 : Nat) (write : Bool) (a : Nat) : Mem :=
  let table := Entry.ofWord (m.load32 (directoryEntry cr3 a))
  let m := setBits m (directoryEntry cr3 a) 0x20
  setBits m (tableEntry table.base a) (if write then 0x60 else 0x20)

/-- Read a byte. -/
def load (m : Mem) (cr3 : Nat) (wp user : Bool) (a : Nat) : Except Fault (UInt8 × Mem) :=
  match translate m cr3 wp ⟨false, user⟩ a with
  | .ok physical => .ok (mark m cr3 false a physical, mark m cr3 false a)
  | .error fault => .error fault

/-- Write a byte. -/
def store (m : Mem) (cr3 : Nat) (wp user : Bool) (a : Nat) (b : UInt8) : Except Fault Mem :=
  match translate m cr3 wp ⟨true, user⟩ a with
  | .ok physical => .ok ((mark m cr3 true a).store8 physical b)
  | .error fault => .error fault

/-! ## Marks

The bits that are set are 5 and 6, and what the processor goes by are bits 0 to 2 and the address
from bit 12 on, so setting a mark gives the same entry. -/

/-- The marks are not among what the processor goes by. -/
theorem ofWord_or_mark (w : Nat) (write : Bool) :
    Entry.ofWord (w ||| if write then 0x60 else 0x20) = Entry.ofWord w := by
  have hbase : ∀ bits, bits < 2 ^ 12 → (w ||| bits) / 2 ^ 12 = w / 2 ^ 12 := fun bits hbits => by
    rw [Nat.or_div_two_pow, Nat.div_eq_of_lt hbits, Nat.or_zero]
  have hbase : (w ||| if write then 0x60 else 0x20) / 0x1000 = w / 0x1000 :=
    hbase _ (by split <;> decide)
  simp only [Entry.ofWord, Nat.testBit_or, hbase]
  cases write <;> simp [Nat.testBit]

theorem ofWord_or_accessed (w : Nat) : Entry.ofWord (w ||| 0x20) = Entry.ofWord w :=
  ofWord_or_mark w false

section
variable {m : Mem} {a b bits : Nat}

theorem load32_setBits_self (hbits : bits < 2 ^ 32) :
    (setBits m a bits).load32 a = m.load32 a ||| bits :=
  Mem.load32_store32_self _ _ (Nat.or_lt_two_pow (m.load32_lt a) hbits)

theorem load32_setBits_of_disjoint (h : a + 4 ≤ b ∨ b + 4 ≤ a) :
    (setBits m a bits).load32 b = m.load32 b :=
  Mem.load32_store32_of_disjoint _ _ h

end

/-! ## Identity maps

The first `n` pages are mapped to themselves and the others are not mapped.  The tables are
anywhere, as long as each is a page of its own.  Such a map stays one when anything outside of its
words is written to, and when an access marks some of them. -/

/-- The tables of the first `t` words of the directory are pages of their own, other than the
directory and other than each other.  A word that is written to one of them is then in none of the
others. -/
structure Placed (cr3 : Nat) (place : Nat → Nat) (t : Nat) : Prop where
  directory : cr3 % 0x1000 = 0
  aligned : ∀ k < t, place k % 0x1000 = 0
  ne_directory : ∀ k < t, place k ≠ cr3
  injective : ∀ j < t, ∀ k < t, place j = place k → j = k

/-- A byte of the directory or of a table.  An access changes bits in these, and a store to one of
them could change the translation. -/
def Structure (cr3 : Nat) (place : Nat → Nat) (t x : Nat) : Prop :=
  cr3 ≤ x ∧ x < cr3 + 0x1000 ∨ ∃ k < t, place k ≤ x ∧ x < place k + 0x1000

/-- The first `n` pages are mapped to themselves, with the same rights, and nothing else is mapped.
There are `t` tables, at the addresses `place`. -/
structure IdentityMap (m : Mem) (cr3 : Nat) (place : Nat → Nat) (t n : Nat)
    (writable user : Bool) : Prop where
  table : ∀ k < t, Entry.ofWord (m.load32 (cr3 + 4 * k)) = ⟨true, true, true, place k⟩
  no_table : ∀ k, t ≤ k → k < 1024 → (Entry.ofWord (m.load32 (cr3 + 4 * k))).present = false
  page : ∀ p < n, Entry.ofWord (m.load32 (place (p / 1024) + 4 * (p % 1024))) =
    ⟨true, writable, user, 0x1000 * p⟩
  no_page : ∀ p, n ≤ p → p < 1024 * t →
    (Entry.ofWord (m.load32 (place (p / 1024) + 4 * (p % 1024)))).present = false
  covered : n ≤ 1024 * t

namespace IdentityMap

variable {m m' : Mem} {cr3 t n a x : Nat} {place : Nat → Nat} {writable user wp : Bool}
  {access : Access}

/-- Only the directory and the tables matter. -/
theorem congr (h : IdentityMap m cr3 place t n writable user) (ht : t ≤ 1024)
    (hsame : ∀ x, Structure cr3 place t x → m' x = m x) :
    IdentityMap m' cr3 place t n writable user := by
  have hdirectory : ∀ k < 1024, m'.load32 (cr3 + 4 * k) = m.load32 (cr3 + 4 * k) := fun k hk =>
    Mem.load32_congr fun x _ _ => hsame x (Or.inl (by omega))
  have hpage : ∀ p < 1024 * t, m'.load32 (place (p / 1024) + 4 * (p % 1024)) =
      m.load32 (place (p / 1024) + 4 * (p % 1024)) := fun p hp =>
    Mem.load32_congr fun x _ _ => hsame x (Or.inr ⟨p / 1024, by omega, by omega, by omega⟩)
  refine ⟨fun k hk => ?_, fun k hk hlt => ?_, fun p hp => ?_, fun p hp hlt => ?_, h.covered⟩
  · rw [hdirectory k (by omega)]
    exact h.table k hk
  · rw [hdirectory k hlt]
    exact h.no_table k hk hlt
  · rw [hpage p (hp.trans_le h.covered)]
    exact h.page p hp
  · rw [hpage p hlt]
    exact h.no_page p hp hlt

/-- **Every access**, by the page it is to and the rights: below page `n` the address is its own
translation if the access is permitted, and behind it the page is not present. -/
theorem translate (h : IdentityMap m cr3 place t n writable user) (ha : a < 0x100000000) :
    Mmu.translate m cr3 wp access a =
      if a < 0x1000 * n then
        if permits wp access ⟨true, true, true, 0⟩ ⟨true, writable, user, 0⟩ then .ok a
        else .error .protection
      else .error .notPresent := by
  have hslot : a / 0x1000 / 1024 = a / 0x400000 := by omega
  rcases Nat.lt_or_ge (a / 0x400000) t with hk | hk
  · have htable := h.table _ hk
    have hentry : tableEntry (place (a / 0x400000)) a =
        place (a / 0x1000 / 1024) + 4 * (a / 0x1000 % 1024) := by
      rw [tableEntry, hslot]
    simp only [Mmu.translate, directoryEntry, htable, hentry, Bool.true_and]
    by_cases hp : a / 0x1000 < n
    · rw [h.page _ hp, if_pos rfl, if_pos (show a < 0x1000 * n by omega)]
      rw [show 0x1000 * (a / 0x1000) + a % 0x1000 = a by omega]
      rfl
    · rw [h.no_page _ (Nat.not_lt.mp hp) (by omega), if_neg Bool.false_ne_true,
        if_neg (show ¬ a < 0x1000 * n by omega)]
  · have hcovered := h.covered
    simp only [Mmu.translate, directoryEntry, h.no_table _ hk (by omega), Bool.false_and]
    rw [if_neg Bool.false_ne_true, if_neg (show ¬ a < 0x1000 * n by omega)]

/-- The two words of an address that is mapped. -/
theorem entries (h : IdentityMap m cr3 place t n writable user) (ha : a < 0x1000 * n) :
    a / 0x400000 < t ∧
      (Entry.ofWord (m.load32 (directoryEntry cr3 a))).base = place (a / 0x400000) := by
  have hk : a / 0x400000 < t := by
    have hcovered := h.covered
    omega
  rw [directoryEntry, h.table _ hk]
  exact ⟨hk, rfl⟩

/-- Only the directory and the tables are marked. -/
theorem mark_of_outside (h : IdentityMap m cr3 place t n writable user) (ht : t ≤ 1024)
    (ha : a < 0x1000 * n) (hx : ¬ Structure cr3 place t x) (write : Bool) :
    Mmu.mark m cr3 write a x = m x := by
  obtain ⟨hk, hbase⟩ := h.entries ha
  have hdirectory : x < directoryEntry cr3 a ∨ directoryEntry cr3 a + 4 ≤ x := by
    by_contra hc
    simp only [directoryEntry] at hc
    exact hx (Or.inl (by omega))
  have htable : x < tableEntry (place (a / 0x400000)) a ∨
      tableEntry (place (a / 0x400000)) a + 4 ≤ x := by
    by_contra hc
    simp only [tableEntry] at hc
    exact hx (Or.inr ⟨_, hk, by omega, by omega⟩)
  simp only [Mmu.mark, hbase, setBits]
  rw [Mem.store32_of_outside _ _ htable, Mem.store32_of_outside _ _ hdirectory]

/-- Marks leave the entries of the directory as they are. -/
theorem ofWord_mark_directory (h : IdentityMap m cr3 place t n writable user)
    (hplaced : Placed cr3 place t) (ha : a < 0x1000 * n) (write : Bool) {k : Nat} (hk : k < 1024) :
    Entry.ofWord ((Mmu.mark m cr3 write a).load32 (cr3 + 4 * k)) =
      Entry.ofWord (m.load32 (cr3 + 4 * k)) := by
  obtain ⟨hslot, hbase⟩ := h.entries ha
  have hdirectory := hplaced.directory
  have haligned := hplaced.aligned _ hslot
  have hne := hplaced.ne_directory _ hslot
  simp only [Mmu.mark, hbase]
  rw [load32_setBits_of_disjoint (by simp only [tableEntry]; omega)]
  by_cases hsame : k = a / 0x400000
  · rw [hsame, directoryEntry, load32_setBits_self (by decide), ofWord_or_accessed]
  · rw [load32_setBits_of_disjoint (by simp only [directoryEntry]; omega)]

/-- And those of the tables. -/
theorem ofWord_mark_table (h : IdentityMap m cr3 place t n writable user)
    (hplaced : Placed cr3 place t) (ht : t ≤ 1024) (ha : a < 0x1000 * n) (write : Bool) {p : Nat}
    (hp : p < 1024 * t) :
    Entry.ofWord ((Mmu.mark m cr3 write a).load32 (place (p / 1024) + 4 * (p % 1024))) =
      Entry.ofWord (m.load32 (place (p / 1024) + 4 * (p % 1024))) := by
  obtain ⟨hslot, hbase⟩ := h.entries ha
  have hj : p / 1024 < t := by omega
  have hdirectory := hplaced.directory
  have haligned := hplaced.aligned _ hslot
  have haligned' := hplaced.aligned _ hj
  have hne := hplaced.ne_directory _ hj
  have hmarks : (if write then 0x60 else 0x20) < 2 ^ 32 := by split <;> decide
  have hfirst : (setBits m (directoryEntry cr3 a) 0x20).load32
      (place (p / 1024) + 4 * (p % 1024)) = m.load32 (place (p / 1024) + 4 * (p % 1024)) :=
    load32_setBits_of_disjoint (by simp only [directoryEntry]; omega)
  simp only [Mmu.mark, hbase]
  by_cases hsame : p = a / 0x1000
  · have hentry : place (p / 1024) + 4 * (p % 1024) = tableEntry (place (a / 0x400000)) a := by
      rw [tableEntry, hsame, show a / 0x1000 / 1024 = a / 0x400000 by omega]
    rw [hentry] at hfirst ⊢
    rw [load32_setBits_self hmarks, ofWord_or_mark, hfirst]
  · rw [load32_setBits_of_disjoint, hfirst]
    simp only [tableEntry]
    by_cases hslot' : p / 1024 = a / 0x400000
    · rw [hslot']
      omega
    · have hapart := mt (hplaced.injective _ hj _ hslot) hslot'
      omega

/-- **Marks go unnoticed**: the map is the same afterwards, and so every later translation is. -/
theorem mark (h : IdentityMap m cr3 place t n writable user) (hplaced : Placed cr3 place t)
    (ht : t ≤ 1024) (ha : a < 0x1000 * n) (write : Bool) :
    IdentityMap (Mmu.mark m cr3 write a) cr3 place t n writable user := by
  refine ⟨fun k hk => ?_, fun k hk hlt => ?_, fun p hp => ?_, fun p hp hlt => ?_, h.covered⟩
  · rw [h.ofWord_mark_directory hplaced ha write (by omega)]
    exact h.table k hk
  · rw [h.ofWord_mark_directory hplaced ha write hlt]
    exact h.no_table k hk hlt
  · rw [h.ofWord_mark_table hplaced ht ha write (hp.trans_le h.covered)]
    exact h.page p hp
  · rw [h.ofWord_mark_table hplaced ht ha write hlt]
    exact h.no_page p hp hlt

/-! ### The supervisor

Code of the kernel, without write protection: every right is granted, and so an access succeeds
exactly if the page is mapped. -/

/-- The supervisor may do everything. -/
theorem permits_supervisor (write : Bool) (table page : Entry) :
    permits false ⟨write, false⟩ table page = true := by
  cases write <;> simp [permits]

theorem translate_supervisor (h : IdentityMap m cr3 place t n writable user)
    (ha : a < 0x100000000) (write : Bool) : Mmu.translate m cr3 false ⟨write, false⟩ a =
      if a < 0x1000 * n then .ok a else .error .notPresent := by
  rw [h.translate ha, permits_supervisor, if_pos rfl]

/-- **A byte that is read** is the byte in memory.  The processor marks the entries that it has gone
through, which changes the structures and nothing else. -/
theorem load (h : IdentityMap m cr3 place t n writable user) (ht : t ≤ 1024)
    (ha : a < 0x100000000) (houtside : ¬ Structure cr3 place t a) :
    Mmu.load m cr3 false false a =
      if a < 0x1000 * n then .ok (m a, Mmu.mark m cr3 false a) else .error .notPresent := by
  rw [Mmu.load, h.translate_supervisor ha]
  split_ifs with hlt
  · simp only [h.mark_of_outside ht hlt houtside]
  · rfl

/-- **A byte that is written** goes where it should, after the entries on the way have been marked
as accessed and the last one as dirty. -/
theorem store (h : IdentityMap m cr3 place t n writable user) (ha : a < 0x100000000) (b : UInt8) :
    Mmu.store m cr3 false false a b =
      if a < 0x1000 * n then .ok ((Mmu.mark m cr3 true a).store8 a b)
      else .error .notPresent := by
  rw [Mmu.store, h.translate_supervisor ha]
  split_ifs with hlt
  · rfl
  · rfl

end IdentityMap

end Mmu
