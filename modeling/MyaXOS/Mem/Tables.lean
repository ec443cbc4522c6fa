import MyaXOS.Lib.Mmu
import MyaXOS.Mem.FlatRefine

/-!
# What the processor makes of the page tables

The processor finds the page tables in memory, through `physical_tables`.  This file follows the
bytes of one memory, as the pager of `MyaXOS.Mem.Flat` writes them, from the side of the processor.

* `Page.ofWord_encode` says which bits of a `page_t` the processor goes by.
* `Machine.Maps` is the invariant: the tables are an identity map of the first `n` pages, and the
  bitmap and `tables` are what the pager needs to go on.  `Layout.place` is where the tables are:
  behind the directory those that boot makes, and from `0x1000` on those that `sbrk` makes, since
  `heap_install` has set the placement pointer to 0.
* `Maps.allocFrame` maps the next page; `Maps.made` adds a table.

**Three readers.**  A word of a page table has three of them.  The pager has written it as a
`page_t`, and looks for the number of its frame; the processor takes it for an entry, with rights
and an address; and the processor writes to it as well, when it marks the page as accessed or dirty.
The pager reads the word again when a page is mapped twice, so the marks must not change what it
finds there.  They are bits 5 and 6, which are among those that a `page_t` does not use; its own
`accessed` and `dirty` are bits 3 and 4, and no one reads them.

**Why one invariant is enough.**  `Maps` says of the directory, of the tables and of the bitmap what
is in their words, as far as either side depends on it.  Everything that happens afterwards is one
of four things: a frame is allocated for the next page, a table is made, an entry of the directory
is written once more, or an access goes through the tables and marks two words.  For each there is a
lemma that `Maps` is kept (`allocFrame`, `made`, `setEntry`, `mark`), and `store` for what is
written to memory that is not a structure of the pager.  Their proofs are about words that are
apart; where the words are is in the `Layout`.

`Keeps` is the frame condition of all of them: memory that is neither bitmap nor directory nor table
is what it was.  It is a statement of its own because the heap lives on it.
-/

set_option autoImplicit false

namespace MyaXOS

/-! ## `page_t` and the processor

The processor reads bits 0 to 2 of an entry and the address above bit 11, and these are the fields
`present`, `rw`, `user` and `frame` of the pager.  The other bits do not matter to it. -/

/-- **The bits that the processor goes by** are the fields of the same name. -/
theorem Page.ofWord_encode (p : Page) :
    Mmu.Entry.ofWord p.encode.toNat = ⟨p.present, p.rw, p.user, 0x1000 * p.frame.toNat⟩ := by
  have hdecode := p.decode_encode
  have hframe : p.encode.toNat / 0x1000 = p.frame.toNat := by
    have hbits := congrArg (fun q : Page => q.frame.toNat) hdecode
    simp only [decode, BitVec.extractLsb'_toNat, Nat.shiftRight_eq_div_pow] at hbits
    have hlt := p.encode.isLt
    omega
  rw [Mmu.Entry.ofWord, hframe, Nat.mul_comm, Mmu.Entry.mk.injEq]
  exact ⟨congrArg Page.present hdecode, congrArg Page.rw hdecode, congrArg Page.user hdecode, rfl⟩

/-- `page->frame` is 0 if the processor is sent to address 0. -/
theorem Page.frame_eq_zero {w : Nat} (hw : w < 2 ^ 32) (hbase : (Mmu.Entry.ofWord w).base = 0) :
    (Page.decode (BitVec.ofNat 32 w)).frame = 0#20 := by
  apply BitVec.eq_of_toNat_eq
  simp only [Mmu.Entry.ofWord] at hbase
  simp only [decode, BitVec.extractLsb'_toNat, BitVec.toNat_ofNat, Nat.shiftRight_eq_div_pow,
    Nat.mod_eq_of_lt hw]
  omega

theorem ofWord_or_seven {a : Nat} (ha : a % 0x1000 = 0) :
    Mmu.Entry.ofWord (a ||| 0x7) = ⟨true, true, true, a⟩ := by
  have hbase : (a ||| 0x7) / 0x1000 = a / 0x1000 := by
    rw [show 0x1000 = 2 ^ 12 from rfl, Nat.or_div_two_pow, Nat.div_eq_of_lt (by decide : 7 < 2 ^ 12),
      Nat.or_zero]
  have hbit : ∀ i, Nat.testBit 0x7 i = true → (a ||| 0x7).testBit i = true := fun i hi => by
    rw [Nat.testBit_or, hi, Bool.or_true]
  rw [Mmu.Entry.ofWord, hbase, show a / 0x1000 * 0x1000 = a by omega, hbit 0 rfl, hbit 1 rfl,
    hbit 2 rfl]

theorem ofWord_zero : Mmu.Entry.ofWord 0 = ⟨false, false, false, 0⟩ := by decide

/-! ## Where the tables are

Which slot has its table where is known in advance: the first ones are made at boot, behind the
directory, and the others by `sbrk`, from 0x1000 on in the order of the slots.  So the places are a
function of the slot, and being apart is arithmetic. -/

/-- The address of the table of a slot, when boot has made `boot` of them. -/
def Layout.place (L : Layout) (boot k : Nat) : Nat :=
  if k < boot then L.base + 0x1000 * k else 0x1000 * (k - boot + 1)

/-- There is room below the bitmap and the directory for the tables that are not made at boot.  They
are placed from address 0 on, since `heap_install` sets the placement pointer to 0, and the first of
them is placed twice. -/
structure Layout.Room (L : Layout) (boot : Nat) : Prop where
  boot_le : boot ≤ L.tables
  frames : 0x1000 * (L.tables - boot + 1) ≤ L.frames
  directory : 0x1000 * (L.tables - boot + 1) ≤ L.directory

/-- A byte that the pager has no use for: it is neither in the bitmap nor in the directory nor in a
table, and no table will be placed there. -/
structure Layout.Spare (L : Layout) (boot x : Nat) : Prop where
  bitmap : x < L.frames ∨ L.frames + 4 * L.words ≤ x
  directory : x < L.directory ∨ L.base + 0x1000 * boot ≤ x
  low : 0x1000 * (L.tables - boot + 1) ≤ x

namespace Layout

variable {L : Layout} {boot k t x : Nat}

theorem place_of_lt (hk : k < boot) : L.place boot k = L.base + 0x1000 * k := if_pos hk

theorem place_of_le (hk : boot ≤ k) : L.place boot k = 0x1000 * (k - boot + 1) :=
  if_neg (Nat.not_lt.mpr hk)

/-- A table is behind the directory, or in front of both the directory and the bitmap. -/
theorem place_cases (hroom : L.Room boot) (hk : k < L.tables) :
    k < boot ∧ L.place boot k = L.base + 0x1000 * k ∨
      boot ≤ k ∧ L.place boot k = 0x1000 * (k - boot + 1) ∧
        L.place boot k + 0x1000 ≤ 0x1000 * (L.tables - boot + 1) := by
  have hboot := hroom.boot_le
  rcases Nat.lt_or_ge k boot with hlt | hge
  · exact Or.inl ⟨hlt, place_of_lt hlt⟩
  · refine Or.inr ⟨hge, place_of_le hge, ?_⟩
    rw [place_of_le hge]
    omega

/-- The tables are pages of their own. -/
theorem placed (hroom : L.Room boot) (ht : t ≤ L.tables) :
    Mmu.Placed (L.directory + 0x1000) (L.place boot) t := by
  have haligned := L.aligned
  have hbase : L.base = L.directory + 0x2000 := rfl
  have hlow := hroom.directory
  have hfits := L.fits
  refine ⟨by omega, fun k hk => ?_, fun k hk => ?_, fun j hj k hk hsame => ?_⟩
  · rcases place_cases hroom (hk.trans_le ht) with ⟨-, hplace⟩ | ⟨-, hplace, -⟩ <;> omega
  · rcases place_cases hroom (hk.trans_le ht) with ⟨-, hplace⟩ | ⟨-, hplace, -⟩ <;> omega
  · rcases place_cases hroom (hj.trans_le ht) with ⟨hj', hplace⟩ | ⟨hj', hplace, hend⟩ <;>
      rcases place_cases hroom (hk.trans_le ht) with ⟨hk', hplace'⟩ | ⟨hk', hplace', hend'⟩ <;>
      omega

/-- What is spare is not in the directory or in a table. -/
theorem Spare.not_structure (h : L.Spare boot x) (hroom : L.Room boot) (ht : t ≤ L.tables) :
    ¬ Mmu.Structure (L.directory + 0x1000) (L.place boot) t x := by
  have hbase : L.base = L.directory + 0x2000 := rfl
  have hdirectory := h.directory
  have hlow := h.low
  rintro (hin | ⟨k, hk, hin⟩)
  · omega
  · rcases place_cases hroom (hk.trans_le ht) with ⟨hlt, hplace⟩ | ⟨-, hplace, hroom'⟩ <;> omega

end Layout

/-! ## The invariant -/

namespace Machine

/-- The first `n` pages are mapped to themselves, through `t` tables.  All of it is about the words
in memory, which the processor reads; the variables of the kernel have no part in it but for the two
addresses. -/
structure Maps (L : Layout) (boot t n : Nat) (m : Machine) : Prop where
  frames : m.frames = L.frames
  directory : m.kernelDirectory = L.directory
  bitmap : ∀ f < 0x20 * L.words, marked m.bitmap f = true ↔ f < n
  slot : ∀ k < t, m.mem.load32 (L.directory + 4 * k) = L.place boot k
  no_slot : ∀ k, t ≤ k → k < L.tables → m.mem.load32 (L.directory + 4 * k) = 0
  map : Mmu.IdentityMap m.mem (L.directory + 0x1000) (L.place boot) t n false true
  /-- What is not mapped yet has no frame. -/
  clean : ∀ p, n ≤ p → p < 1024 * t →
    (Mmu.Entry.ofWord (m.mem.load32 (L.place boot (p / 1024) + 4 * (p % 1024)))).base = 0
  le : t ≤ L.tables

/-- What a step of the pager leaves alone: two of its variables, and all the bytes that are not its
own.  With it the facts of clients pass through a call of `sbrk`. -/
structure Keeps (L : Layout) (boot : Nat) (m m' : Machine) : Prop where
  nframes : m'.nframes = m.nframes
  heapEnd : m'.heapEnd = m.heapEnd
  spare : ∀ x, L.Spare boot x → m'.mem x = m.mem x

variable {L : Layout} {boot t n : Nat} {m m' m'' : Machine}

theorem Keeps.refl (m : Machine) : Keeps L boot m m := ⟨rfl, rfl, fun _ _ => rfl⟩

theorem Keeps.trans (h : Keeps L boot m m') (h' : Keeps L boot m' m'') : Keeps L boot m m'' :=
  ⟨h'.nframes.trans h.nframes, h'.heapEnd.trans h.heapEnd,
    fun x hx => (h'.spare x hx).trans (h.spare x hx)⟩

namespace Maps

theorem word_eq (h : Maps L boot t n m) {i : Nat} (hi : i < L.words) :
    u32 (m.frames + 4 * i) = L.frames + 4 * i := by
  have := L.fits
  have := L.separate
  rw [h.frames]
  exact u32_eq (show L.frames + 4 * i < 0x100000000 by omega)

theorem tableSlot_eq (h : Maps L boot t n m) {k : Nat} (hk : k < L.tables) :
    m.tableSlot k = L.directory + 4 * k := by
  have := L.fits
  rw [tableSlot, h.directory]
  exact u32_eq (show L.directory + 4 * k < 0x100000000 by omega)

/-- The bits of the bitmap are in its words. -/
theorem marked_congr (m m' : Machine) (hframes : m.frames = L.frames)
    (hframes' : m'.frames = L.frames)
    (hsame : ∀ x, L.frames ≤ x → x < L.frames + 4 * L.words → m'.mem x = m.mem x) :
    ∀ f < 0x20 * L.words, marked m'.bitmap f = marked m.bitmap f := by
  intro f hf
  have hfits := L.fits
  have hsep := L.separate
  have hi : indexFromBit f < L.words := by
    rw [indexFromBit]
    omega
  have hword : m'.bitmap (indexFromBit f) = m.bitmap (indexFromBit f) := by
    rw [Machine.bitmap, Machine.bitmap, hframes, hframes']
    rw [u32_eq (show L.frames + 4 * indexFromBit f < 0x100000000 by omega)]
    exact congrArg _ (Mem.load32_congr fun x _ _ => hsame x (by omega) (by omega))
  rw [marked, marked, hword]

/-! ### The next frame

Writing an entry touches one word of one table.  The bitmap, the directory and the other tables are
elsewhere, and within the table the other entries are other words; so each part of `Maps` is either
about another word or about the one that has been written. -/

/-- `first_frame` finds frame `n`, or nothing. -/
theorem firstFrame_eq (h : Maps L boot t n m) (hn : n < 0x20 * L.words) :
    firstFrame m.nframes m.bitmap =
      if n < indexFromBit m.nframes * 0x20 then n else 0xFFFFFFFF := by
  rcases firstFrame_spec m.nframes m.bitmap with ⟨hnone, hall⟩ | ⟨hlt, hfree, hlow⟩
  · rw [if_neg fun hlt => absurd ((h.bitmap n hn).mp (hall n hlt)) (Nat.lt_irrefl n), hnone]
  · have hge : n ≤ firstFrame m.nframes m.bitmap := by
      by_contra hc
      rw [(h.bitmap _ (by omega)).mpr (by omega)] at hfree
      exact Bool.noConfusion hfree
    have hle : firstFrame m.nframes m.bitmap ≤ n := by
      by_contra hc
      exact absurd ((h.bitmap n hn).mp (hlow n (by omega))) (Nat.lt_irrefl n)
    rw [if_pos (by omega)]
    omega

/-- The bitmap does not lie on the directory's second half or on a table. -/
theorem bitmap_apart (hroom : L.Room boot) {k : Nat} (hk : k < L.tables) :
    L.frames + 4 * L.words ≤ L.directory + 0x1000 ∧
      (L.frames + 4 * L.words ≤ L.place boot k ∨ L.place boot k + 0x1000 ≤ L.frames) := by
  have hsep := L.separate
  have hframes := hroom.frames
  have hbase : L.base = L.directory + 0x2000 := rfl
  refine ⟨by omega, ?_⟩
  rcases Layout.place_cases hroom hk with ⟨-, hplace⟩ | ⟨-, -, hlow⟩ <;> omega

/-- Marking frame `n`. -/
theorem setFrame (h : Maps L boot t n m) (hn : n < 0x20 * L.words) :
    (∀ f < 0x20 * L.words,
        marked (m.setFrame (u32 (n * 0x1000))).bitmap f = true ↔ f < n + 1) ∧
      ∀ x, x < L.frames ∨ L.frames + 4 * L.words ≤ x →
        (m.setFrame (u32 (n * 0x1000))).mem x = m.mem x := by
  have hwords := L.words_le
  have hframe : u32 (n * 0x1000) / 0x1000 = n := by
    rw [u32_eq (show n * 0x1000 < 0x100000000 by omega)]
    omega
  have hmem : (m.setFrame (u32 (n * 0x1000))).mem = m.mem.store32 (L.frames + 4 * (n / 0x20))
      (MyaXOS.setFrame m.bitmap (u32 (n * 0x1000)) (n / 0x20)).toNat := by
    simp only [Machine.setFrame, hframe, indexFromBit, h.word_eq (show n / 0x20 < L.words by omega)]
  have hbitmap : ∀ i < L.words, (m.setFrame (u32 (n * 0x1000))).bitmap i =
      MyaXOS.setFrame m.bitmap (u32 (n * 0x1000)) i := by
    intro i hi
    have hword : (m.setFrame (u32 (n * 0x1000))).bitmap i =
        BitVec.ofNat 32 ((m.setFrame (u32 (n * 0x1000))).mem.load32 (L.frames + 4 * i)) := by
      rw [← h.word_eq hi]
      rfl
    rw [hword, hmem]
    by_cases hsame : i = n / 0x20
    · rw [hsame, Mem.load32_store32_self _ _ (BitVec.isLt _), BitVec.ofNat_toNat,
        BitVec.setWidth_eq]
    · rw [Mem.load32_store32_of_disjoint _ _ (by omega), ← h.word_eq hi]
      refine (if_neg ?_).symm
      rwa [hframe, indexFromBit]
  refine ⟨fun f hf => ?_, fun x hx => ?_⟩
  · have hset := marked_setFrame m.bitmap (u32 (n * 0x1000)) f
    rw [marked, ← hbitmap _ (by rw [indexFromBit]; omega), ← marked, hframe] at hset
    rw [hset, Bool.or_eq_true, decide_eq_true_eq, h.bitmap f hf]
    omega
  · rw [hmem]
    exact Mem.store32_of_outside _ _ (by omega)

/-- Writing the entry of page `n`, when its frame has been marked. -/
theorem setEntry (h : Maps L boot t n m) (hroom : L.Room boot) (ht : n < 1024 * t)
    (hframes : m'.frames = L.frames) (hdirectory : m'.kernelDirectory = L.directory)
    (hmarked : ∀ f < 0x20 * L.words, marked m'.bitmap f = true ↔ f < n + 1)
    (hsame : ∀ x, x < L.frames ∨ L.frames + 4 * L.words ≤ x → m'.mem x = m.mem x) {w : Nat}
    (hw : w < 2 ^ 32) (hentry : Mmu.Entry.ofWord w = ⟨true, false, true, 0x1000 * n⟩) :
    Maps L boot t (n + 1)
      { m' with mem := m'.mem.store32 (L.place boot (n / 1024) + 4 * (n % 1024)) w } := by
  have htables := L.tables_le
  have hsep := L.separate
  have haligned := L.aligned
  have hlow := hroom.directory
  have hbase : L.base = L.directory + 0x2000 := rfl
  have hle := h.le
  have hk : n / 1024 < t := by omega
  have hplaced := L.placed hroom hle
  have happ := bitmap_apart hroom (hk.trans_le hle)
  have hplace := Layout.place_cases hroom (hk.trans_le hle)
  have hne := hplaced.ne_directory _ hk
  have haligned' := hplaced.aligned _ hk
  obtain ⟨e, he⟩ : ∃ e, e = L.place boot (n / 1024) + 4 * (n % 1024) := ⟨_, rfl⟩
  rw [← he]
  -- a word that is neither in the bitmap nor the entry
  have hword : ∀ {a}, L.frames + 4 * L.words ≤ a ∨ a + 4 ≤ L.frames → e + 4 ≤ a ∨ a + 4 ≤ e →
      (m'.mem.store32 e w).load32 a = m.mem.load32 a := fun hbits hapart => by
    rw [Mem.load32_store32_of_disjoint _ _ hapart]
    exact Mem.load32_congr fun x _ _ => hsame x (by omega)
  have hslot : ∀ k < L.tables, (m'.mem.store32 e w).load32 (L.directory + 4 * k) =
      m.mem.load32 (L.directory + 4 * k) := fun k hk' => hword (by omega) (by omega)
  have hphysical : ∀ k < 1024, (m'.mem.store32 e w).load32 (L.directory + 0x1000 + 4 * k) =
      m.mem.load32 (L.directory + 0x1000 + 4 * k) := fun k hk' => hword (by omega) (by omega)
  -- the other entries
  have hother : ∀ q < 1024 * t, q ≠ n →
      (m'.mem.store32 e w).load32 (L.place boot (q / 1024) + 4 * (q % 1024)) =
        m.mem.load32 (L.place boot (q / 1024) + 4 * (q % 1024)) := by
    intro q hq hqn
    have hj : q / 1024 < t := by omega
    have happ' := (bitmap_apart hroom (hj.trans_le hle)).2
    refine hword (by omega) ?_
    by_cases hsame' : q / 1024 = n / 1024
    · rw [he, hsame']
      omega
    · have hapart := mt (hplaced.injective _ hj _ hk) hsame'
      have hq' := hplaced.aligned _ hj
      omega
  refine ⟨hframes, hdirectory, fun f hf => ?_, fun k hk' => ?_, fun k hk' hlt => ?_,
    ⟨fun k hk' => ?_, fun k hk' hlt => ?_, fun q hq => ?_, fun q hq hlt => ?_, ht⟩,
    fun q hq hlt => ?_, hle⟩
  · rw [marked_congr m' { m' with mem := m'.mem.store32 e w } hframes hframes
      (fun x _ _ => Mem.store32_of_outside _ _ (by omega)) f hf]
    exact hmarked f hf
  · rw [hslot k (by omega)]
    exact h.slot k hk'
  · rw [hslot k hlt]
    exact h.no_slot k hk' hlt
  · rw [hphysical k (by omega)]
    exact h.map.table k hk'
  · rw [hphysical k hlt]
    exact h.map.no_table k hk' hlt
  · by_cases hsame' : q = n
    · rw [hsame', ← he, Mem.load32_store32_self _ _ hw]
      exact hentry
    · rw [hother q (by omega) hsame']
      exact h.map.page q (by omega)
  · rw [hother q hlt (by omega)]
    exact h.map.no_page q (by omega) hlt
  · rw [hother q hlt (by omega)]
    exact h.clean q (by omega) hlt

/-- **Mapping the next page**, in a table that exists.  The frame that is found has the number of
the page, so the map stays an identity. -/
theorem allocFrame (h : Maps L boot t n m) (hroom : L.Room boot) (ht : n < 1024 * t)
    (hn : n < 0x20 * L.words) :
    if n < indexFromBit m.nframes * 0x20 then
      ∃ m', m.allocFrame (L.place boot (n / 1024) + 4 * (n % 1024)) false false = .ok m' ∧
        Maps L boot t (n + 1) m' ∧ Keeps L boot m m' ∧ m'.placementPointer = m.placementPointer
    else m.allocFrame (L.place boot (n / 1024) + 4 * (n % 1024)) false false =
      .error (.halt "Failed to allocate a frame: out of frames") := by
  have hwords := L.words_le
  obtain ⟨e, he⟩ : ∃ e, e = L.place boot (n / 1024) + 4 * (n % 1024) := ⟨_, rfl⟩
  have hzero : (Page.decode (BitVec.ofNat 32 (m.mem.load32 e))).frame = 0#20 :=
    Page.frame_eq_zero (Mem.load32_lt _ _) (he ▸ h.clean n le_rfl ht)
  rw [← he, Machine.allocFrame, hzero, if_neg (not_not_intro rfl)]
  simp only [h.firstFrame_eq hn]
  split
  · rw [if_neg (show n ≠ 0xFFFFFFFF by omega)]
    obtain ⟨hmarked, hsame⟩ := h.setFrame hn
    obtain ⟨m₁, hm₁⟩ : ∃ m₁, m₁ = m.setFrame (u32 (n * 0x1000)) := ⟨_, rfl⟩
    obtain ⟨p, hp⟩ : ∃ p : Page, p =
      (Page.decode (BitVec.ofNat 32 (m₁.mem.load32 e))).assign n false false := ⟨_, rfl⟩
    rw [← hm₁] at hmarked hsame ⊢
    rw [← hp]
    have hframes : m₁.frames = L.frames := by
      rw [hm₁]
      exact h.frames
    have hdirectory : m₁.kernelDirectory = L.directory := by
      rw [hm₁]
      exact h.directory
    have hentry : Mmu.Entry.ofWord p.encode.toNat = ⟨true, false, true, 0x1000 * n⟩ := by
      rw [Page.ofWord_encode, hp]
      simp only [Page.assign, BitVec.toNat_ofNat, Bool.not_false,
        Nat.mod_eq_of_lt (show n < 2 ^ 20 by omega)]
    have hset := h.setEntry hroom ht hframes hdirectory hmarked hsame (BitVec.isLt _) hentry
    rw [← he] at hset
    refine ⟨_, rfl, hset, ⟨?_, ?_, fun x hx => ?_⟩, ?_⟩
    · rw [hm₁]
      rfl
    · rw [hm₁]
      rfl
    · have hnot := hx.not_structure hroom h.le
      have hout : x < e ∨ e + 4 ≤ x := by
        by_contra hc
        exact hnot (Or.inr ⟨n / 1024, by omega, by omega, by omega⟩)
      exact (Mem.store32_of_outside _ _ hout).trans (hsame x hx.bitmap)
    · rw [hm₁]
      rfl
  · rw [if_pos rfl]

end Maps

/-! ### The next table

A table is made in the slot behind those in use.  It is `Made` for any address, since the first
table that `sbrk` makes is placed at 0 and made again; only when it is at its place does `Maps` hold
of one table more. -/

/-- `m'` is `m` with a new table at `address`, in slot `t`.  What is behind `cleared` and in front
of the end of the table may have changed too. -/
structure Made (L : Layout) (t cleared address : Nat) (m m' : Machine) : Prop where
  frames : m'.frames = m.frames
  nframes : m'.nframes = m.nframes
  directory : m'.kernelDirectory = m.kernelDirectory
  heapEnd : m'.heapEnd = m.heapEnd
  slot : m'.mem.load32 (L.directory + 4 * t) = address
  physical : m'.mem.load32 (L.directory + 0x1000 + 4 * t) = address ||| 0x7
  zero : ∀ x, address ≤ x → x < address + 0x1000 → m'.mem x = 0
  same : ∀ x, (x < L.directory + 4 * t ∨ L.directory + 4 * t + 4 ≤ x) →
    (x < L.directory + 0x1000 + 4 * t ∨ L.directory + 0x1000 + 4 * t + 4 ≤ x) →
    (x < cleared ∨ address + 0x1000 ≤ x) → m'.mem x = m.mem x

/-- `get_page` makes a table where `kvmalloc_p` says, if that is not in the directory. -/
theorem made_makeTable (hdirectory : m.kernelDirectory = L.directory) (ht : t < L.tables)
    {address next : Nat}
    (hplaced : kvmallocP m.placementPointer 0x1000 = ⟨address, some address, next⟩)
    (hapart : address + 0x1000 ≤ L.directory ∨ L.base ≤ address)
    (hend : address + 0x1000 ≤ 0xFFFFF000) :
    Made L t address address m (m.makeTable t) ∧ (m.makeTable t).placementPointer = next := by
  have hfits := L.fits
  have htables := L.tables_le
  have hbase : L.base = L.directory + 0x2000 := rfl
  have hlt : address < 2 ^ 32 := by omega
  have hseven : address ||| 0x7 < 2 ^ 32 := Nat.or_lt_two_pow hlt (by decide)
  have hslot : m.tableSlot t = L.directory + 4 * t := by
    rw [tableSlot, hdirectory]
    exact u32_eq (show L.directory + 4 * t < 0x100000000 by omega)
  have hphysical : m.physicalSlot t = L.directory + 0x1000 + 4 * t := by
    rw [physicalSlot, hdirectory]
    exact u32_eq (show L.directory + 0x1000 + 4 * t < 0x100000000 by omega)
  obtain ⟨m₁, hm₁⟩ : ∃ m₁, m₁ = m.mem.store32 (L.directory + 4 * t) address := ⟨_, rfl⟩
  have hload : m₁.load32 (L.directory + 4 * t) = address := by
    rw [hm₁, Mem.load32_store32_self _ _ hlt]
  have hmem : (m.makeTable t).mem = (memset m₁ address 0 0x1000).store32
      (L.directory + 0x1000 + 4 * t) (address ||| 0x7) := by
    simp only [Machine.makeTable, hplaced, hslot, hphysical, Option.getD_some, ← hm₁, hload]
  refine ⟨⟨rfl, rfl, rfl, rfl, ?_, ?_, fun x hle hlt' => ?_, fun x hx hx' hx'' => ?_⟩, ?_⟩
  · rw [hmem, Mem.load32_store32_of_disjoint _ _ (by omega)]
    refine (Mem.load32_congr fun x _ _ => ?_).trans hload
    exact memset_of_outside (by omega) (by omega)
  · rw [hmem, Mem.load32_store32_self _ _ hseven]
  · rw [hmem, Mem.store32_of_outside _ _ (by omega)]
    exact memset_apply (by omega) hle hlt'
  · rw [hmem, Mem.store32_of_outside _ _ hx', memset_of_outside (by omega) hx'', hm₁]
    exact Mem.store32_of_outside _ _ hx
  · simp only [Machine.makeTable, hplaced]

/-- **A table more**, for the page behind those that are mapped.  The new table is cleared, so its
pages are not present, and the tables before it are not touched. -/
theorem Maps.made (h : Maps L boot t (1024 * t) m) (hroom : L.Room boot) (ht : t < L.tables)
    {cleared : Nat} (hmade : Made L t cleared (L.place boot t) m m')
    (hbefore : ∀ k < t, L.place boot k + 0x1000 ≤ cleared ∨
      L.place boot t + 0x1000 ≤ L.place boot k)
    (hboot : t < boot → L.base ≤ cleared) :
    Maps L boot (t + 1) (1024 * t) m' ∧ Keeps L boot m m' := by
  have hfits := L.fits
  have htables := L.tables_le
  have hsep := L.separate
  have hbase : L.base = L.directory + 0x2000 := rfl
  have hframes := hroom.frames
  have hdirectory := hroom.directory
  have hle := h.le
  have hplace := Layout.place_cases hroom ht
  have haligned : L.place boot t % 0x1000 = 0 := (L.placed hroom ht).aligned t (Nat.lt_succ_self t)
  -- where the table is, with what is cleared in front of it
  have hregion : t < boot ∧ L.base ≤ cleared ∧ L.place boot t = L.base + 0x1000 * t ∨
      boot ≤ t ∧ L.place boot t + 0x1000 ≤ 0x1000 * (L.tables - boot + 1) := by
    rcases hplace with ⟨hlt, hplace⟩ | ⟨hge, -, hlow⟩
    · exact Or.inl ⟨hlt, hboot hlt, hplace⟩
    · exact Or.inr ⟨hge, hlow⟩
  have hword : ∀ {a}, (a + 4 ≤ L.directory + 4 * t ∨ L.directory + 4 * t + 4 ≤ a) →
      (a + 4 ≤ L.directory + 0x1000 + 4 * t ∨ L.directory + 0x1000 + 4 * t + 4 ≤ a) →
      (a + 4 ≤ cleared ∨ L.place boot t + 0x1000 ≤ a) → m'.mem.load32 a = m.mem.load32 a :=
    fun hslot hphysical htable => Mem.load32_congr fun x _ _ =>
      hmade.same x (by omega) (by omega) (by omega)
  have hpage : ∀ p < 1024 * t, m'.mem.load32 (L.place boot (p / 1024) + 4 * (p % 1024)) =
      m.mem.load32 (L.place boot (p / 1024) + 4 * (p % 1024)) := by
    intro p hp
    have hk : p / 1024 < t := by omega
    have happ := hbefore _ hk
    rcases Layout.place_cases hroom (hk.trans ht) with ⟨-, hplace'⟩ | ⟨-, -, hlow⟩
    · exact hword (by omega) (by omega) (by omega)
    · exact hword (by omega) (by omega) (by omega)
  have hnew : ∀ p, 1024 * t ≤ p → p < 1024 * (t + 1) →
      m'.mem.load32 (L.place boot (p / 1024) + 4 * (p % 1024)) = 0 := by
    intro p hp hlt
    rw [show p / 1024 = t by omega]
    exact Mem.load32_eq_zero fun x _ _ => hmade.zero x (by omega) (by omega)
  refine ⟨⟨hmade.frames.trans h.frames, hmade.directory.trans h.directory, fun f hf => ?_,
    fun k hk => ?_, fun k hk hlt => ?_, ⟨fun k hk => ?_, fun k hk hlt => ?_, fun p hp => ?_,
      fun p hp hlt => ?_, by omega⟩, fun p hp hlt => ?_, ht⟩,
    ⟨hmade.nframes, hmade.heapEnd, fun x hx => ?_⟩⟩
  · rw [marked_congr m m' h.frames (hmade.frames.trans h.frames)
      (fun x _ _ => hmade.same x (by omega) (by omega) (by omega)) f hf]
    exact h.bitmap f hf
  · rcases Nat.lt_or_eq_of_le (Nat.le_of_lt_succ hk) with hlt | rfl
    · rw [hword (by omega) (by omega) (by omega)]
      exact h.slot k hlt
    · exact hmade.slot
  · rw [hword (by omega) (by omega) (by omega)]
    exact h.no_slot k (by omega) hlt
  · rcases Nat.lt_or_eq_of_le (Nat.le_of_lt_succ hk) with hlt | rfl
    · rw [hword (by omega) (by omega) (by omega)]
      exact h.map.table k hlt
    · rw [hmade.physical, ofWord_or_seven haligned]
  · rw [hword (by omega) (by omega) (by omega)]
    exact h.map.no_table k (by omega) hlt
  · rw [hpage p hp]
    exact h.map.page p hp
  · rw [hnew p hp hlt, ofWord_zero]
  · rw [hnew p hp hlt, ofWord_zero]
  · have hdirectory' := hx.directory
    have hlow := hx.low
    have := hroom.boot_le
    exact hmade.same x (by omega) (by omega) (by omega)

/-! ### Accesses

An access changes memory, even a load: the processor sets bits in the entries that it has used.  It
also may not go to a structure of the pager.  These lemmas say that what the processor marks and
what a program stores leave the invariant as it is. -/

/-- The slots of the directory are not where the processor looks. -/
theorem slot_not_structure (hroom : L.Room boot) (ht : t ≤ L.tables) {x : Nat}
    (hle : L.directory ≤ x) (hlt : x < L.directory + 0x1000) :
    ¬ Mmu.Structure (L.directory + 0x1000) (L.place boot) t x := by
  have hbase : L.base = L.directory + 0x2000 := rfl
  have hlow := hroom.directory
  rintro (hin | ⟨k, hk, hin⟩)
  · omega
  · rcases Layout.place_cases hroom (hk.trans_le ht) with ⟨-, hplace⟩ | ⟨-, -, hend⟩ <;> omega

/-- Nor is the bitmap. -/
theorem bitmap_not_structure (hroom : L.Room boot) (ht : t ≤ L.tables) (hpos : 0 < L.tables)
    {x : Nat} (hle : L.frames ≤ x) (hlt : x < L.frames + 4 * L.words) :
    ¬ Mmu.Structure (L.directory + 0x1000) (L.place boot) t x := by
  rintro (hin | ⟨k, hk, hin⟩)
  · have hbelow := (Maps.bitmap_apart hroom hpos).1
    omega
  · have happ := (Maps.bitmap_apart hroom (hk.trans_le ht)).2
    omega

/-- **The marks of the processor** are made in entries of tables and of the directory, in bits that
neither side looks at. -/
theorem Maps.mark (h : Maps L boot t n m) (hroom : L.Room boot) {a : Nat} (ha : a < 0x1000 * n)
    (write : Bool) :
    Maps L boot t n { m with mem := Mmu.mark m.mem (L.directory + 0x1000) write a } := by
  have htables := L.tables_le
  have hle := h.le
  have hcovered := h.map.covered
  have hplaced := L.placed hroom hle
  have hpos : 0 < L.tables := by omega
  have hslot : ∀ k < L.tables, (Mmu.mark m.mem (L.directory + 0x1000) write a).load32
      (L.directory + 4 * k) = m.mem.load32 (L.directory + 4 * k) := fun k hk =>
    Mem.load32_congr fun x _ _ => h.map.mark_of_outside (by omega) ha
      (slot_not_structure hroom hle (by omega) (by omega)) write
  refine ⟨h.frames, h.directory, fun f hf => ?_, fun k hk => ?_, fun k hk hlt => ?_,
    h.map.mark hplaced (by omega) ha write, fun p hp hlt => ?_, hle⟩
  · rw [marked_congr m { m with mem := Mmu.mark m.mem (L.directory + 0x1000) write a } h.frames
      h.frames (fun x hle' hlt => h.map.mark_of_outside (by omega) ha
        (bitmap_not_structure hroom hle hpos hle' hlt) write) f hf]
    exact h.bitmap f hf
  · rw [hslot k (by omega)]
    exact h.slot k hk
  · rw [hslot k hlt]
    exact h.no_slot k hk hlt
  · rw [h.map.ofWord_mark_table hplaced (by omega) ha write hlt]
    exact h.clean p hp hlt

/-- Writing to a spare byte. -/
theorem Maps.store (h : Maps L boot t n m) (hroom : L.Room boot) {a : Nat} (ha : L.Spare boot a)
    (b : UInt8) : Maps L boot t n { m with mem := m.mem.store8 a b } := by
  have htables := L.tables_le
  have hle := h.le
  have hbase : L.base = L.directory + 0x2000 := rfl
  have hdirectory := ha.directory
  have hbits := ha.bitmap
  have hnot := ha.not_structure hroom hle
  have hne : ∀ x, Mmu.Structure (L.directory + 0x1000) (L.place boot) t x → x ≠ a := by
    rintro x hx rfl
    exact hnot hx
  have hpage : ∀ p < 1024 * t, (m.mem.store8 a b).load32
      (L.place boot (p / 1024) + 4 * (p % 1024)) =
      m.mem.load32 (L.place boot (p / 1024) + 4 * (p % 1024)) := fun p hp =>
    Mem.load32_congr fun x _ _ => Mem.store8_of_ne b (hne x (Or.inr ⟨p / 1024, by omega, by omega,
      by omega⟩))
  refine ⟨h.frames, h.directory, fun f hf => ?_, fun k hk => ?_, fun k hk hlt => ?_,
    h.map.congr (by omega) fun x hx => Mem.store8_of_ne b (hne x hx), fun p hp hlt => ?_, hle⟩
  · rw [marked_congr m { m with mem := m.mem.store8 a b } h.frames h.frames
      (fun x _ _ => Mem.store8_of_ne b (by omega)) f hf]
    exact h.bitmap f hf
  · rw [Mem.load32_store8 _ _ (by omega)]
    exact h.slot k hk
  · rw [Mem.load32_store8 _ _ (by omega)]
    exact h.no_slot k hk hlt
  · rw [hpage p hlt]
    exact h.clean p hp hlt

end Machine

end MyaXOS
