import MyaXOS.Lib.Run
import MyaXOS.Mem.Tables

/-!
# The kernel with paging on

`switch_page_directory` turns paging on at the end of boot, and from then on every access goes
through the tables, those by which `sbrk` extends them included.  `MyaXOS.Mem.Heap` has what `sbrk`
does to the objects of the pager; this file has what the processor makes of it, in one memory.

* `pagingInstall_maps`: boot leaves an identity map of all memory in use.
* `Grown.sbrk`: so does every `sbrk`, of the memory up to the new end of the heap, and it leaves
  alone what is in the heap.  The first table that it makes is placed at address 0, where neither
  `get_page` nor the processor makes use of it, and made once more (`Maps.getPage_sbrk`).
* `translates_always` says what any access comes to in any state of a run, and `paged_flat` that the
  runs are those of a memory without tables, `FlatRun`.

The placement of the pager's objects is a `Layout`, which keeps them apart.

**What is refined.**  A program sees addresses and bytes, and with an identity map these are the
addresses and bytes of the memory, as long as it stays below the end of the heap and out of the
structures of the pager.  `FlatRun` is this view: a memory, the end of the heap, and a limit.
`sbrk` moves the end up to the limit and does nothing else, a load reads a byte, and a store writes
one.  `Flattens` relates it to the machine: the bytes agree wherever the program may look, and what
the machine has besides is an identity map up to the end of the heap.  Both theorems are the
induction over a run with this relation, and the step lemma has a case for each of the three calls.

**Where the work is.**  The calls of a program are short, since `Mem/Tables.lean` has what an access
does.  The long case is `sbrk`.  It maps page after page, each by two calls of `get_page`, and a
table may have to be made on the way: the first at address 0, which counts as none, and the others
from `0x1000` on.  `Grown` is the invariant while it does so, with the number of pages as a
parameter, and `Grown.sbrkLoop` is the induction on the pages that are left.

Boot is different.  The directory is being filled in while paging is still off, and the tables come
to lie behind it (`BootPointer`), so its loop has an invariant of its own.  At its end the two meet.
-/

set_option autoImplicit false

namespace MyaXOS

namespace Machine

variable {L : Layout} {boot t n : Nat} {m m' m₁ : Machine}

/-! ## `get_page`

`get_page` on a machine that satisfies `Maps`: the slot of a page below the last table has its
address, and that of a page behind it is 0. -/

theorem getPage_make {p : Nat} (hslot : m.mem.load32 (m.tableSlot (p / 1024)) = 0) :
    Machine.getPage (p * 0x1000) true m =
      (some ((m.makeTable (p / 1024)).entry (p / 1024) (p % 1024)), m.makeTable (p / 1024)) := by
  have hpage : p * 0x1000 / 0x1000 = p := by omega
  simp only [Machine.getPage, hpage, hslot, ne_eq, not_true_eq_false, if_false, if_true]

namespace Maps

theorem place_pos (hroom : L.Room boot) {k : Nat} (hk : k < L.tables) : 0 < L.place boot k := by
  have hbase : L.base = L.directory + 0x2000 := rfl
  rcases Layout.place_cases hroom hk with ⟨-, hplace⟩ | ⟨-, hplace, -⟩ <;> omega

theorem entry_eq (h : Maps L boot t n m) (hroom : L.Room boot) {p : Nat} (hp : p < 1024 * t) :
    m.entry (p / 1024) (p % 1024) = L.place boot (p / 1024) + 4 * (p % 1024) := by
  have hfits := L.fits
  have hbase : L.base = L.directory + 0x2000 := rfl
  have hle := h.le
  have hlow := hroom.directory
  have hk : p / 1024 < t := by omega
  rw [entry, h.tableSlot_eq (hk.trans_le hle), h.slot _ hk]
  have hend : L.place boot (p / 1024) + 4 * (p % 1024) < 0x100000000 := by
    rcases Layout.place_cases hroom (hk.trans_le hle) with ⟨hlt, hplace⟩ | ⟨-, -, hend⟩ <;> omega
  exact u32_eq hend

/-- A page whose table exists. -/
theorem getPage_of_lt (h : Maps L boot t n m) (hroom : L.Room boot) {p : Nat} (hp : p < 1024 * t)
    (make : Bool) : Machine.getPage (p * 0x1000) make m =
      (some (L.place boot (p / 1024) + 4 * (p % 1024)), m) := by
  have hpage : p * 0x1000 / 0x1000 = p := by omega
  have hk : p / 1024 < t := by omega
  have hpos := place_pos hroom (hk.trans_le h.le)
  have hslot : m.mem.load32 (m.tableSlot (p / 1024)) ≠ 0 := by
    rw [h.tableSlot_eq (hk.trans_le h.le), h.slot _ hk]
    omega
  rw [← h.entry_eq hroom hp]
  simp only [Machine.getPage, hpage, ne_eq, hslot, not_false_eq_true, if_true]

/-- A page whose table does not exist. -/
theorem slot_eq_zero (h : Maps L boot t n m) {p : Nat} (hp : 1024 * t ≤ p)
    (hk : p / 1024 < L.tables) : m.mem.load32 (m.tableSlot (p / 1024)) = 0 := by
  rw [h.tableSlot_eq hk]
  exact h.no_slot _ (by omega) hk

/-- **The next page is mapped**, once `get_page` has returned its entry.  The first free frame is
the one with the number of the page, so the page is mapped to itself. -/
theorem mapPage (h : Maps L boot (n / 1024 + 1) n m₁) (hroom : L.Room boot)
    (hn : n < 0x20 * L.words) (hget : Machine.getPage (n * 0x1000) true m =
      (some (L.place boot (n / 1024) + 4 * (n % 1024)), m₁)) :
    if n < indexFromBit m₁.nframes * 0x20 then
      ∃ m', Machine.mapPage (n * 0x1000) m = .ok m' ∧ Maps L boot ((n + 1 + 1023) / 1024) (n + 1) m' ∧
        Keeps L boot m₁ m' ∧ m'.placementPointer = m₁.placementPointer
    else Machine.mapPage (n * 0x1000) m =
      .error (.halt "Failed to allocate a frame: out of frames") := by
  have hmap : Machine.mapPage (n * 0x1000) m =
      m₁.allocFrame (L.place boot (n / 1024) + 4 * (n % 1024)) false false := by
    rw [Machine.mapPage, hget]
  rw [hmap, show (n + 1 + 1023) / 1024 = n / 1024 + 1 by omega]
  exact h.allocFrame hroom (by omega) hn

end Maps

/-! ## Boot

The loop of `paging_install`, with `Maps` as its invariant.  Paging is off, so the tables are
written as any other memory, and nothing has been marked by the processor. -/

/-- The placement pointer at boot: the next table is placed behind the last one. -/
structure BootPointer (L : Layout) (t : Nat) (m : Machine) : Prop where
  page : m.placementPointer / 0x1000 * 0x1000 = L.base + 0x1000 * t
  aligned : 0 < t → m.placementPointer % 0x1000 = 0
  lt : m.placementPointer < 0x100000000

theorem BootPointer.kvmallocP (h : BootPointer L t m)
    (hwrap : L.base + 0x1000 * (t + 1) < 0x100000000) :
    MyaXOS.kvmallocP m.placementPointer 0x1000 =
      ⟨L.base + 0x1000 * t, some (L.base + 0x1000 * t), L.base + 0x1000 * (t + 1)⟩ := by
  have hp := h.page
  have hbase : L.base = L.directory + 0x2000 := rfl
  rw [MyaXOS.kvmallocP, kmallocReal_aligned (by omega) h.lt, hp, if_pos rfl]
  simp only [Placed.mk.injEq, true_and, u32]
  omega

/-- `get_page` at boot. -/
theorem Maps.getPage_boot (h : Maps L boot ((n + 1023) / 1024) n m) (hroom : L.Room boot)
    (hp : BootPointer L ((n + 1023) / 1024) m) (hn : n / 1024 < boot) :
    ∃ m₁, Machine.getPage (n * 0x1000) true m =
        (some (L.place boot (n / 1024) + 4 * (n % 1024)), m₁) ∧
      Maps L boot (n / 1024 + 1) n m₁ ∧ BootPointer L (n / 1024 + 1) m₁ ∧ Keeps L boot m m₁ := by
  have hfits := L.fits
  have hbase : L.base = L.directory + 0x2000 := rfl
  have haligned := L.aligned
  have hboot := hroom.boot_le
  by_cases hfirst : n % 1024 = 0
  · -- the first page of its table
    obtain ⟨t, rfl⟩ : ∃ t, n = 1024 * t := ⟨n / 1024, by omega⟩
    rw [show (1024 * t + 1023) / 1024 = t by omega] at h hp
    have hslot : 1024 * t / 1024 = t := by omega
    have hplaced := hp.kvmallocP (by omega)
    rw [← Layout.place_of_lt (show t < boot by omega)] at hplaced
    have hplace := Layout.place_of_lt (L := L) (show t < boot by omega)
    obtain ⟨hmade, hpointer⟩ := made_makeTable h.directory (show t < L.tables by omega)
      hplaced (by omega) (by omega)
    obtain ⟨hmaps, hkeeps⟩ := h.made hroom (by omega) hmade (fun k hk => by
      rw [Layout.place_of_lt (show k < boot by omega)]
      omega) (fun _ => by omega)
    have hget := getPage_make (h.slot_eq_zero (le_refl (1024 * t)) (by omega))
    rw [hslot] at hget ⊢
    have hentry := hmaps.entry_eq hroom (show 1024 * t < 1024 * (t + 1) by omega)
    rw [hslot] at hentry
    rw [hentry] at hget
    exact ⟨_, hget, hmaps, ⟨by omega, fun _ => by omega, by omega⟩, hkeeps⟩
  · have ht : (n + 1023) / 1024 = n / 1024 + 1 := by omega
    rw [ht] at h hp
    exact ⟨m, h.getPage_of_lt hroom (by omega) true, h, hp, Keeps.refl m⟩

/-- One round of the loop. -/
theorem Maps.mapPage_boot (h : Maps L boot ((n + 1023) / 1024) n m) (hroom : L.Room boot)
    (hp : BootPointer L ((n + 1023) / 1024) m) (hboot : n / 1024 < boot)
    (hn : n < 0x20 * L.words) :
    if n < indexFromBit m.nframes * 0x20 then
      ∃ m', Machine.mapPage (n * 0x1000) m = .ok m' ∧
        Maps L boot ((n + 1 + 1023) / 1024) (n + 1) m' ∧
        BootPointer L ((n + 1 + 1023) / 1024) m' ∧ Keeps L boot m m'
    else Machine.mapPage (n * 0x1000) m =
      .error (.halt "Failed to allocate a frame: out of frames") := by
  obtain ⟨m₁, hget, hmaps, hpointer, hkeeps⟩ := h.getPage_boot hroom hp hboot
  have hmap := hmaps.mapPage hroom hn hget
  rw [hkeeps.nframes] at hmap
  split
  · next hlt =>
    rw [if_pos hlt] at hmap
    obtain ⟨m', hm', hmaps', hkeeps', hsame⟩ := hmap
    refine ⟨m', hm', hmaps', ?_, hkeeps.trans hkeeps'⟩
    rw [show (n + 1 + 1023) / 1024 = n / 1024 + 1 by omega]
    exact ⟨hsame ▸ hpointer.page, hsame ▸ hpointer.aligned, hsame ▸ hpointer.lt⟩
  · next hge => rwa [if_neg hge] at hmap

/-- **The loop of `paging_install`**, from page `n` on. -/
theorem Maps.mapLoop {b : Nat} (hb : L.base = 0x1000 * b) (hboot : boot = (b + 1022) / 1023)
    (hroom : L.Room boot) (hwords : b + boot ≤ 0x20 * L.words) :
    ∀ {fuel n : Nat} {m : Machine}, Maps L boot ((n + 1023) / 1024) n m →
      BootPointer L ((n + 1023) / 1024) m → n ≤ b + boot → n ≤ indexFromBit m.nframes * 0x20 →
      b + boot - n < fuel →
      if b + boot ≤ indexFromBit m.nframes * 0x20 then
        ∃ m', Machine.mapLoop fuel (n * 0x1000) m = .ok m' ∧ Maps L boot boot (b + boot) m' ∧
          m'.placementPointer = 0x1000 * (b + boot) ∧ Keeps L boot m m'
      else Machine.mapLoop fuel (n * 0x1000) m =
        .error (.halt "Failed to allocate a frame: out of frames")
  | 0, _, _, _, _, _, _, hfuel => absurd hfuel (Nat.not_lt_zero _)
  | fuel + 1, n, m, h, hp, hle, hframes, hfuel => by
    have hfits := L.fits
    have hle' := hroom.boot_le
    have hbase : L.base = L.directory + 0x2000 := rfl
    have hpage := hp.page
    have htest : n * 0x1000 < m.placementPointer ↔ n < b + boot := by
      rcases Nat.eq_zero_or_pos n with rfl | hn
      · omega
      · have haligned := hp.aligned (by omega)
        omega
    rw [Machine.mapLoop]
    rcases Nat.lt_or_ge n (b + boot) with hlt | hge
    · have hround := h.mapPage_boot hroom hp (by omega) (by omega)
      rw [if_pos (htest.mpr hlt)]
      by_cases hn : n < indexFromBit m.nframes * 0x20
      · rw [if_pos hn] at hround
        obtain ⟨m', hm', hmaps, hpointer, hkeeps⟩ := hround
        have hi : u32 (n * 0x1000 + 0x1000) = (n + 1) * 0x1000 := by
          rw [u32_eq (show n * 0x1000 + 0x1000 < 0x100000000 by omega), ← Nat.succ_mul]
        have hfuel' : b + boot - (n + 1) < fuel := by omega
        have ih := mapLoop hb hboot hroom hwords hmaps hpointer hlt
          (by rw [hkeeps.nframes]; exact hn) hfuel'
        rw [hkeeps.nframes] at ih
        rw [hm']
        simp only [hi]
        split
        · next hall =>
          rw [if_pos hall] at ih
          obtain ⟨m'', hm'', hmaps', hpointer', hkeeps'⟩ := ih
          exact ⟨m'', hm'', hmaps', hpointer', hkeeps.trans hkeeps'⟩
        · next hall => rwa [if_neg hall] at ih
      · rw [if_neg hn] at hround
        rw [hround, if_neg (by omega)]
    · obtain rfl : n = b + boot := by omega
      have ht : (b + boot + 1023) / 1024 = boot := by omega
      rw [ht] at h hp
      have haligned := hp.aligned (by omega)
      rw [if_pos hframes, if_neg (by rw [htest]; omega)]
      exact ⟨m, rfl, h, by omega, Keeps.refl m⟩

/-- `paging_install` up to its loop. -/
theorem prepare_eq {memsize : Nat} (hframes : L.frames = m.placementPointer)
    (hdirectory : L.directory = Paging.directoryAddress memsize m.placementPointer)
    (hpp : 0x1000 ≤ m.placementPointer) :
    prepare memsize m =
      { m with
        mem := memset (memset m.mem L.frames 0 (indexFromBit (memsize / 4))) L.directory 0 0x2004
        placementPointer := L.base + 4
        frames := L.frames
        nframes := memsize / 4
        kernelDirectory := L.directory } := by
  have hfits := L.fits
  have hdir := hdirectory
  rw [Paging.directoryAddress, ← hframes] at hdir
  have hkmalloc : kmalloc m.placementPointer (indexFromBit (memsize / 4)) =
      ⟨L.frames, none, L.frames + indexFromBit (memsize / 4)⟩ := by
    rw [kmalloc, kmallocReal_in_place (by simp) (by omega), ← hframes]
    rfl
  have hkvmalloc : kvmalloc (L.frames + indexFromBit (memsize / 4)) 0x2004 =
      ⟨L.directory, none, L.base + 4⟩ := by
    rw [kvmalloc, kmallocReal_aligned (by omega) (by omega), ← hdir,
      u32_eq (show L.directory + 0x2004 < 0x100000000 by omega)]
    rfl
  simp only [prepare, hkmalloc, hkvmalloc]

/-- Nothing is mapped yet. -/
theorem prepare_maps {memsize : Nat} (hframes : L.frames = m.placementPointer)
    (hdirectory : L.directory = Paging.directoryAddress memsize m.placementPointer)
    (hpp : 0x1000 ≤ m.placementPointer) (boot : Nat) :
    Maps L boot 0 0 (prepare memsize m) ∧ BootPointer L 0 (prepare memsize m) ∧
      (prepare memsize m).nframes = memsize / 4 := by
  have hfits := L.fits
  have htables := L.tables_le
  have hsep := L.separate
  have hbase : L.base = L.directory + 0x2000 := rfl
  have hdir := hdirectory
  rw [Paging.directoryAddress, ← hframes] at hdir
  rw [prepare_eq hframes hdirectory hpp]
  obtain ⟨m₁, hm₁⟩ : ∃ m₁, m₁ =
    memset (memset m.mem L.frames 0 (indexFromBit (memsize / 4))) L.directory 0 0x2004 := ⟨_, rfl⟩
  rw [← hm₁]
  have hcleared : ∀ x, L.directory ≤ x → x < L.directory + 0x2004 → m₁ x = 0 := fun x _ _ => by
    rw [hm₁]
    exact memset_apply (by omega) (by omega) (by omega)
  have hword : ∀ a, L.directory ≤ a → a + 4 ≤ L.directory + 0x2004 → m₁.load32 a = 0 :=
    fun a _ _ => Mem.load32_eq_zero fun x _ _ => hcleared x (by omega) (by omega)
  have hbitmap : ∀ x, L.frames ≤ x → x < L.frames + 4 * L.words → m₁ x = 0 := by
    intro x hle hlt
    rcases Nat.lt_or_ge x L.directory with hx | hx
    · rw [hm₁, memset_of_outside (by omega) (Or.inl hx)]
      exact memset_apply (by omega) (by omega) (by omega)
    · exact hcleared x hx (by omega)
  refine ⟨⟨rfl, rfl, fun f hf => ?_, by omega, fun k _ hk => hword _ (by omega) (by omega),
    ⟨by omega, fun k _ hk => ?_, by omega, by omega, le_rfl⟩, by omega, Nat.zero_le _⟩,
    ⟨?_, by omega, ?_⟩, rfl⟩
  · have hi : indexFromBit f < L.words := by
      rw [indexFromBit]
      omega
    have hbits : m₁.load32 (u32 (L.frames + 4 * indexFromBit f)) = 0 := by
      rw [u32_eq (show L.frames + 4 * indexFromBit f < 0x100000000 by omega)]
      exact Mem.load32_eq_zero fun x _ _ => hbitmap x (by omega) (by omega)
    simp only [marked, bitmap, hbits]
    simp
  · rw [hword _ (by omega) (by omega), ofWord_zero]
  · show (L.base + 4) / 0x1000 * 0x1000 = L.base + 0x1000 * 0
    have haligned := L.aligned
    omega
  · show L.base + 4 < 0x100000000
    omega

/-- **Boot** leaves all memory in use mapped to itself, if there are frames for it: the kernel, the
bitmap, the directory and the tables that it has made. -/
theorem pagingInstall_maps (fuel memsize : Nat) (hpp : 0x1000 ≤ m.placementPointer)
    (hframes : L.frames = m.placementPointer)
    (hdirectory : L.directory = Paging.directoryAddress memsize m.placementPointer)
    (hboot : boot = Paging.bootTables memsize m.placementPointer) (hroom : L.Room boot)
    (hwords : Paging.bootPages memsize m.placementPointer ≤ 0x20 * L.words)
    (hfuel : Paging.bootPages memsize m.placementPointer < fuel) :
    if Paging.bootPages memsize m.placementPointer ≤ indexFromBit (memsize / 4) * 0x20 then
      ∃ m', pagingInstall fuel memsize m = .ok m' ∧
        Maps L boot boot (Paging.bootPages memsize m.placementPointer) m' ∧
        m'.placementPointer = 0x1000 * Paging.bootPages memsize m.placementPointer ∧
        m'.nframes = memsize / 4
    else pagingInstall fuel memsize m =
      .error (.halt "Failed to allocate a frame: out of frames") := by
  have haligned := L.aligned
  have hbase : Paging.tableBase memsize m.placementPointer = L.base := by
    rw [Paging.tableBase, ← hdirectory, Layout.base]
  have hbase' : L.base = L.directory + 0x2000 := rfl
  obtain ⟨hmaps, hpointer, hnframes⟩ := prepare_maps hframes hdirectory hpp boot
  rw [Paging.bootTables, hbase] at hboot
  rw [Paging.bootPages, Paging.bootTables, hbase, ← hboot] at hwords hfuel ⊢
  have hloop := hmaps.mapLoop (n := 0) (b := L.base / 0x1000) (by omega) hboot hroom hwords
    hpointer (Nat.zero_le _) (Nat.zero_le _) hfuel
  rw [hnframes, Nat.zero_mul] at hloop
  split
  · next hall =>
    rw [if_pos hall] at hloop
    obtain ⟨m', hm', hmaps', hpointer', hkeeps⟩ := hloop
    exact ⟨m', hm', hmaps', hpointer', hkeeps.nframes.trans hnframes⟩
  · next hall => rwa [if_neg hall] at hloop

/-! ## `sbrk`

With paging on `sbrk` writes to tables that the processor is using.  It only adds entries for pages
that were not present, so what has been translated before is translated in the same way; the
invariant says it of all pages below `n` in every round. -/

/-- The placement pointer after `heap_install`, when there are `t` tables.  The table that is placed
at address 0 is not seen, and made again. -/
def heapPointer (boot t : Nat) : Nat := if t = boot then 0 else 0x1000 * (t - boot + 1)

theorem kvmallocP_page {a : Nat} (ha : a % 0x1000 = 0) (hlt : a + 0x1000 < 0x100000000) :
    kvmallocP a 0x1000 = ⟨a, some a, a + 0x1000⟩ := by
  rw [kvmallocP, kmallocReal_in_place (fun _ => ha) hlt]
  rfl

/-- A table that is made again behind page 0. -/
theorem Made.again (h : Made L t 0 0 m m₁) (h' : Made L t 0x1000 0x1000 m₁ m') :
    Made L t 0 0x1000 m m' where
  frames := h'.frames.trans h.frames
  nframes := h'.nframes.trans h.nframes
  directory := h'.directory.trans h.directory
  heapEnd := h'.heapEnd.trans h.heapEnd
  slot := h'.slot
  physical := h'.physical
  zero := h'.zero
  same x hx hx' hx'' :=
    (h'.same x hx hx' (by omega)).trans (h.same x hx hx' (by omega))

/-- The two calls of `get_page` in the loop of `sbrk`. -/
theorem Maps.getPage_sbrk (h : Maps L boot ((n + 1023) / 1024) n m) (hroom : L.Room boot)
    (hp : m.placementPointer = heapPointer boot ((n + 1023) / 1024))
    (hboot : boot ≤ (n + 1023) / 1024) (hn : n / 1024 < L.tables) :
    ∃ m₁, Machine.getPage (n * 0x1000) true (Machine.getPage (n * 0x1000) true m).2 =
        (some (L.place boot (n / 1024) + 4 * (n % 1024)), m₁) ∧
      Maps L boot (n / 1024 + 1) n m₁ ∧ m₁.placementPointer = heapPointer boot (n / 1024 + 1) ∧
      Keeps L boot m m₁ := by
  have hfits := L.fits
  have htables := L.tables_le
  have hlow := hroom.directory
  by_cases hfirst : n % 1024 = 0
  · -- the first page of its table
    obtain ⟨t, rfl⟩ : ∃ t, n = 1024 * t := ⟨n / 1024, by omega⟩
    have hslot : 1024 * t / 1024 = t := by omega
    rw [show (1024 * t + 1023) / 1024 = t by omega] at h hp hboot
    have hplace := Layout.place_of_le (L := L) hboot
    have hget := getPage_make (h.slot_eq_zero (le_refl (1024 * t)) hn)
    rw [hslot] at hn hget ⊢
    -- once there is a table, it is found
    have hdone : ∀ {cleared m₁}, Made L t cleared (L.place boot t) m m₁ →
        (∀ k < t, L.place boot k + 0x1000 ≤ cleared ∨
          L.place boot t + 0x1000 ≤ L.place boot k) →
        Maps L boot (t + 1) (1024 * t) m₁ ∧ Keeps L boot m m₁ ∧
          m₁.entry t (1024 * t % 1024) = L.place boot t + 4 * (1024 * t % 1024) := by
      intro cleared m₁ hmade hbefore
      obtain ⟨hmaps, hkeeps⟩ := h.made hroom hn hmade hbefore fun hlt => by omega
      have hentry := hmaps.entry_eq hroom (show 1024 * t < 1024 * (t + 1) by omega)
      rw [hslot] at hentry
      exact ⟨hmaps, hkeeps, hentry⟩
    rw [hget]
    rcases Nat.eq_or_lt_of_le hboot with rfl | hlt
    · -- the first table that `sbrk` makes
      rw [heapPointer, if_pos rfl] at hp
      have hplaced : kvmallocP m.placementPointer 0x1000 = ⟨0, some 0, 0x1000⟩ := by
        rw [hp]
        exact kvmallocP_page (by decide) (by decide)
      obtain ⟨hmade, hpointer⟩ := made_makeTable h.directory hn hplaced (by omega) (by omega)
      obtain ⟨m₁, hm₁⟩ : ∃ m₁, m₁ = m.makeTable boot := ⟨_, rfl⟩
      rw [← hm₁] at hmade hpointer ⊢
      have hdirectory := hmade.directory.trans h.directory
      have hplaced' : kvmallocP m₁.placementPointer 0x1000 = ⟨0x1000, some 0x1000, 0x2000⟩ := by
        rw [hpointer]
        exact kvmallocP_page (by decide) (by decide)
      obtain ⟨hmade', hpointer'⟩ := made_makeTable hdirectory hn hplaced' (by omega) (by omega)
      rw [show L.place boot boot = 0x1000 by omega] at hdone ⊢
      obtain ⟨hmaps, hkeeps, hentry⟩ := hdone (hmade.again hmade') fun k hk => by
        rw [Layout.place_of_lt hk, Layout.base]
        omega
      have hmiss : m₁.mem.load32 (m₁.tableSlot (1024 * boot / 1024)) = 0 := by
        rw [hslot, tableSlot, hdirectory,
          u32_eq (show L.directory + 4 * boot < 0x100000000 by omega)]
        exact hmade.slot
      have hagain := getPage_make hmiss
      rw [hslot, hentry] at hagain
      refine ⟨_, hagain, hmaps, ?_, hkeeps⟩
      rw [hpointer', heapPointer, if_neg (by omega)]
      omega
    · -- a later one
      rw [heapPointer, if_neg (by omega), ← hplace] at hp
      have hend := Layout.place_cases hroom hn
      have hplaced : kvmallocP m.placementPointer 0x1000 =
          ⟨L.place boot t, some (L.place boot t), L.place boot t + 0x1000⟩ := by
        rw [hp]
        exact kvmallocP_page (by omega) (by omega)
      obtain ⟨hmade, hpointer⟩ := made_makeTable h.directory hn hplaced (by omega) (by omega)
      obtain ⟨hmaps, hkeeps, -⟩ := hdone hmade fun k hk => by
        rcases Layout.place_cases hroom (hk.trans hn) with ⟨-, hplace'⟩ | ⟨-, hplace', -⟩
        · rw [hplace', Layout.base]
          omega
        · omega
      have hfound := hmaps.getPage_of_lt hroom (show 1024 * t < 1024 * (t + 1) by omega) true
      rw [hslot] at hfound
      refine ⟨_, hfound, hmaps, ?_, hkeeps⟩
      rw [hpointer, hplace, heapPointer, if_neg (by omega)]
      omega
  · have ht : (n + 1023) / 1024 = n / 1024 + 1 := by omega
    rw [ht] at h hp
    have hget := h.getPage_of_lt hroom (show n < 1024 * (n / 1024 + 1) by omega) true
    refine ⟨m, ?_, h, hp, Keeps.refl m⟩
    rw [hget]
    exact hget

/-- The machine after `heap_install`, when the heap ends behind page `n - 1`.  The number of pages
says all about it: which tables there are, where they are, and where the next one will be placed. -/
structure Grown (L : Layout) (boot n : Nat) (m : Machine) : Prop where
  maps : Maps L boot ((n + 1023) / 1024) n m
  pointer : m.placementPointer = heapPointer boot ((n + 1023) / 1024)
  boot_le : boot ≤ (n + 1023) / 1024
  behind : L.base + 0x1000 * boot ≤ 0x1000 * n

theorem Grown.of_heapEnd (h : Grown L boot n m) (heapEnd : Nat) :
    Grown L boot n { m with heapEnd := heapEnd } :=
  ⟨⟨h.maps.frames, h.maps.directory, h.maps.bitmap, h.maps.slot, h.maps.no_slot, h.maps.map,
    h.maps.clean, h.maps.le⟩, h.pointer, h.boot_le, h.behind⟩

/-- One round of the loop. -/
theorem Grown.mapPage (h : Grown L boot n m) (hroom : L.Room boot) (hk : n / 1024 < L.tables)
    (hn : n < 0x20 * L.words) :
    if n < indexFromBit m.nframes * 0x20 then
      ∃ m', Machine.mapPage (n * 0x1000) (Machine.getPage (n * 0x1000) true m).2 = .ok m' ∧
        Grown L boot (n + 1) m' ∧ Keeps L boot m m'
    else Machine.mapPage (n * 0x1000) (Machine.getPage (n * 0x1000) true m).2 =
      .error (.halt "Failed to allocate a frame: out of frames") := by
  have hboot := h.boot_le
  have hbehind := h.behind
  obtain ⟨m₁, hget, hmaps, hpointer, hkeeps⟩ := h.maps.getPage_sbrk hroom h.pointer hboot hk
  have hmap := hmaps.mapPage hroom hn hget
  rw [hkeeps.nframes] at hmap
  split
  · next hlt =>
    rw [if_pos hlt] at hmap
    obtain ⟨m', hm', hmaps', hkeeps', hsame⟩ := hmap
    refine ⟨m', hm', ⟨hmaps', ?_, by omega, by omega⟩, hkeeps.trans hkeeps'⟩
    rw [show (n + 1 + 1023) / 1024 = n / 1024 + 1 by omega]
    exact hsame.trans hpointer
  · next hge => rwa [if_neg hge] at hmap

/-- **The loop of `sbrk`**, from page `n` to page `e`. -/
theorem Grown.sbrkLoop (hroom : L.Room boot) {e : Nat} (he : e < 0x100000)
    (htables : e ≤ 1024 * L.tables) (hwords : e ≤ 0x20 * L.words) :
    ∀ {fuel n : Nat} {m : Machine}, Grown L boot n m → m.heapEnd = e * 0x1000 → n ≤ e →
      e - n < fuel →
      if n = e ∨ e ≤ indexFromBit m.nframes * 0x20 then
        ∃ m', Machine.sbrkLoop fuel (n * 0x1000) m = .ok m' ∧ Grown L boot e m' ∧
          Keeps L boot m m'
      else Machine.sbrkLoop fuel (n * 0x1000) m =
        .error (.halt "Failed to allocate a frame: out of frames")
  | 0, _, _, _, _, _, hfuel => absurd hfuel (Nat.not_lt_zero _)
  | fuel + 1, n, m, h, hend, hle, hfuel => by
    rw [Machine.sbrkLoop, hend]
    rcases Nat.lt_or_ge n e with hlt | hge
    · have hround := h.mapPage hroom (by omega) (by omega)
      rw [if_pos (show n * 0x1000 < e * 0x1000 by omega)]
      by_cases hn : n < indexFromBit m.nframes * 0x20
      · rw [if_pos hn] at hround
        obtain ⟨m', hm', hgrown, hkeeps⟩ := hround
        have hi : u32 (n * 0x1000 + 0x1000) = (n + 1) * 0x1000 := by
          rw [u32_eq (show n * 0x1000 + 0x1000 < 0x100000000 by omega), ← Nat.succ_mul]
        have hcond : n = e ∨ e ≤ indexFromBit m.nframes * 0x20 ↔
            n + 1 = e ∨ e ≤ indexFromBit m.nframes * 0x20 := by omega
        have ih := sbrkLoop hroom he htables hwords hgrown (hkeeps.heapEnd.trans hend) hlt
          (show e - (n + 1) < fuel by omega)
        rw [hkeeps.nframes] at ih
        rw [hm']
        simp only [hi, hcond]
        split
        · next hall =>
          rw [if_pos hall] at ih
          obtain ⟨m'', hm'', hgrown', hkeeps'⟩ := ih
          exact ⟨m'', hm'', hgrown', hkeeps.trans hkeeps'⟩
        · next hall => rwa [if_neg hall] at ih
      · rw [if_neg hn] at hround
        rw [hround, if_neg (by omega)]
    · obtain rfl : n = e := by omega
      rw [if_neg (Nat.lt_irrefl _), if_pos (Or.inl rfl)]
      exact ⟨m, rfl, h, Keeps.refl m⟩

/-- **`sbrk`** maps the new pages, and leaves what is in the heap alone.  It stops when the bitmap
has no frame for one of them, and for no other reason. -/
theorem Grown.sbrk (h : Grown L boot n m) (hroom : L.Room boot) (hend : m.heapEnd = 0x1000 * n)
    {fuel increment : Nat} (hinc : increment % 0x1000 = 0)
    (hfit : m.heapEnd + increment < 0x100000000)
    (htables : m.heapEnd + increment ≤ 0x400000 * L.tables)
    (hwords : m.heapEnd + increment ≤ 0x20000 * L.words) (hfuel : 0x100000 < fuel) :
    if increment = 0 ∨ m.heapEnd + increment ≤ indexFromBit m.nframes * 0x20 * 0x1000 then
      ∃ m', Machine.sbrk fuel increment m = .ok (m.heapEnd, m') ∧
        Grown L boot ((m.heapEnd + increment) / 0x1000) m' ∧
        m'.heapEnd = m.heapEnd + increment ∧ m'.nframes = m.nframes ∧
        ∀ x, L.Spare boot x → m'.mem x = m.mem x
    else Machine.sbrk fuel increment m =
      .error (.halt "Failed to allocate a frame: out of frames") := by
  have hrounds : (m.heapEnd + increment) / 0x1000 - n < fuel := by omega
  have hloop := Grown.sbrkLoop hroom (e := (m.heapEnd + increment) / 0x1000) (by omega)
    (by omega) (by omega) (h.of_heapEnd (m.heapEnd + increment))
    (show m.heapEnd + increment = _ by omega) (by omega) hrounds
  have hcond : n = (m.heapEnd + increment) / 0x1000 ∨
      (m.heapEnd + increment) / 0x1000 ≤ indexFromBit m.nframes * 0x20 ↔
      increment = 0 ∨ m.heapEnd + increment ≤ indexFromBit m.nframes * 0x20 * 0x1000 := by omega
  simp only [hcond] at hloop
  rw [show n * 0x1000 = m.heapEnd by omega] at hloop
  simp only [Machine.sbrk, assert_eq_ok hinc, u32_eq hfit]
  split
  · next hframes =>
    rw [if_pos hframes] at hloop
    obtain ⟨m', hm', hgrown, hkeeps⟩ := hloop
    rw [hm']
    exact ⟨m', rfl, hgrown, hkeeps.heapEnd, hkeeps.nframes, hkeeps.spare⟩
  · next hframes =>
    rw [if_neg hframes] at hloop
    rw [hloop]

/-- The address that `switch_page_directory` loads into `cr3`:
`&kernel_directory->physical_tables`. -/
def physicalTables (m : Machine) : Nat := u32 (m.kernelDirectory + 0x1000)

theorem Maps.physicalTables_eq (h : Maps L boot t n m) :
    m.physicalTables = L.directory + 0x1000 := by
  have hfits := L.fits
  rw [physicalTables, h.directory]
  exact u32_eq (show L.directory + 0x1000 < 0x100000000 by omega)

/-- **What the processor makes of an address**: supervisor code may read and write all that is below
the end of the heap, unless write protection is on, and user code may read it. -/
theorem Maps.translate (h : Maps L boot t n m) (hend : m.heapEnd = 0x1000 * n) (wp : Bool)
    (access : Mmu.Access) {a : Nat} (ha : a < 0x100000000) :
    Mmu.translate m.mem m.physicalTables wp access a =
      if a < m.heapEnd then
        if access.write = true ∧ (access.user = true ∨ wp = true) then .error .protection else .ok a
      else .error .notPresent := by
  rw [h.physicalTables_eq, h.map.translate ha, hend]
  obtain ⟨write, user⟩ := access
  cases write <;> cases user <;> cases wp <;> rfl

theorem Grown.mark (h : Grown L boot n m) (hroom : L.Room boot) {a : Nat} (ha : a < 0x1000 * n)
    (write : Bool) :
    Grown L boot n { m with mem := Mmu.mark m.mem (L.directory + 0x1000) write a } :=
  ⟨h.maps.mark hroom ha write, h.pointer, h.boot_le, h.behind⟩

theorem Grown.store (h : Grown L boot n m) (hroom : L.Room boot) {a : Nat} (ha : L.Spare boot a)
    (b : UInt8) : Grown L boot n { m with mem := m.mem.store8 a b } :=
  ⟨h.maps.store hroom ha b, h.pointer, h.boot_le, h.behind⟩

end Machine

/-! ## Runs

The relation between the two memories is a function of the calls made so far: the end of the heap
and the bytes agree, and what has been returned is the same.  A call that cannot be made on the one
stops with the same error on the other. -/

/-- What the kernel does with its memory once paging is on and the heap installed. -/
inductive PagedCall where
  | sbrk (increment : BitVec 32)
  | load (a : BitVec 32)
  | store (a : BitVec 32) (b : UInt8)
  deriving DecidableEq, Repr

/-- The machine, and what the calls have returned: the addresses of `sbrk` and the bytes read,
latest first. -/
structure PagedRun where
  machine : Machine
  outputs : List Nat

/-- The state in which `heap_install` leaves the machine. -/
def PagedRun.start (m : Machine) : PagedRun := ⟨m.heapInstall, []⟩

/-- Perform a call.  Loads and stores are those of the processor, in supervisor mode and without
write protection; `page_fault` halts. -/
def PagedCall.step (fuel : Nat) : PagedCall → PagedRun → Except Stop PagedRun
  | .sbrk increment, s =>
    match s.machine.sbrk fuel increment.toNat with
    | .ok (address, m) => .ok ⟨m, address :: s.outputs⟩
    | .error e => .error e
  | .load a, s =>
    match Mmu.load s.machine.mem s.machine.physicalTables false false a.toNat with
    | .ok (b, mem) => .ok ⟨{ s.machine with mem := mem }, b.toNat :: s.outputs⟩
    | .error _ => .error (.halt "Page fault")
  | .store a b, s =>
    match Mmu.store s.machine.mem s.machine.physicalTables false false a.toNat b with
    | .ok mem => .ok { s with machine := { s.machine with mem := mem } }
    | .error _ => .error (.halt "Page fault")

/-- What it is for: a memory without tables, which ends at `heapEnd` and can grow up to `limit`.  An
access behind its end is a page fault, and an access below is an access. -/
structure FlatRun where
  mem : Mem
  heapEnd : Nat
  limit : Nat
  outputs : List Nat

/-- The memory that boot leaves. -/
def FlatRun.start (m : Machine) : FlatRun :=
  ⟨m.mem, m.placementPointer, indexFromBit m.nframes * 0x20 * 0x1000, []⟩

/-- What a call means for it. -/
def PagedCall.flat : PagedCall → FlatRun → Except Stop FlatRun
  | .sbrk increment, f =>
    if increment.toNat = 0 ∨ f.heapEnd + increment.toNat ≤ f.limit then
      .ok { f with heapEnd := f.heapEnd + increment.toNat, outputs := f.heapEnd :: f.outputs }
    else .error (.halt "Failed to allocate a frame: out of frames")
  | .load a, f =>
    if a.toNat < f.heapEnd then .ok { f with outputs := (f.mem a.toNat).toNat :: f.outputs }
    else .error (.halt "Page fault")
  | .store a b, f =>
    if a.toNat < f.heapEnd then .ok { f with mem := f.mem.store8 a.toNat b }
    else .error (.halt "Page fault")

/-- The calls that may be made: whole pages, as far as the placement has room for the bitmap and the
tables, and accesses to what the pager does not use. -/
def PagedCall.Valid (L : Layout) (boot : Nat) : PagedCall → PagedRun → Prop
  | .sbrk increment, s => increment.toNat % 0x1000 = 0 ∧
    s.machine.heapEnd + increment.toNat < 0x100000000 ∧
    s.machine.heapEnd + increment.toNat ≤ 0x400000 * L.tables ∧
    s.machine.heapEnd + increment.toNat ≤ 0x20000 * L.words
  | .load a, _ => L.Spare boot a.toNat
  | .store a _, _ => L.Spare boot a.toNat

/-- The machine and the memory without tables agree on everything but what the pager uses.  It is
the relation of the simulation; the bytes that the pager uses are left out, as no valid call goes
there and the flat memory has other values in them. -/
structure Flattens (L : Layout) (boot : Nat) (s : PagedRun) (f : FlatRun) : Prop where
  grown : ∃ n, s.machine.Grown L boot n ∧ s.machine.heapEnd = 0x1000 * n
  heapEnd : s.machine.heapEnd = f.heapEnd
  limit : indexFromBit s.machine.nframes * 0x20 * 0x1000 = f.limit
  mem : ∀ x, L.Spare boot x → s.machine.mem x = f.mem x
  outputs : s.outputs = f.outputs

namespace Flattens

variable {L : Layout} {boot fuel : Nat} {s : PagedRun} {f : FlatRun}

/-- **A call** does the same on both sides.  For an access this is the translation; for `sbrk` it is
that the new pages are those that the memory without tables grows by. -/
theorem step (h : Flattens L boot s f) (hroom : L.Room boot) (hfuel : 0x100000 < fuel)
    {call : PagedCall} (hvalid : call.Valid L boot s) :
    (∃ s' f', call.step fuel s = .ok s' ∧ call.flat f = .ok f' ∧ Flattens L boot s' f') ∨
      ∃ e, call.step fuel s = .error e ∧ call.flat f = .error e := by
  obtain ⟨⟨n, hgrown, hend⟩, hheap, hlimit, hmem, houtputs⟩ := h
  have hle := hgrown.maps.le
  have htables := L.tables_le
  -- what the processor marks is nothing to the flat memory
  have hmarks : ∀ {a write x}, a < 0x1000 * n → L.Spare boot x →
      Mmu.mark s.machine.mem (L.directory + 0x1000) write a x = s.machine.mem x :=
    fun ha hx => hgrown.maps.map.mark_of_outside (by omega) ha (hx.not_structure hroom hle) _
  cases call with
  | sbrk increment =>
    obtain ⟨hinc, hfit, hfit', hfit''⟩ := hvalid
    have hsbrk := hgrown.sbrk hroom hend hinc hfit hfit' hfit'' hfuel
    rw [PagedCall.step, PagedCall.flat, ← hheap, ← hlimit]
    split at hsbrk
    · next hframes =>
      obtain ⟨m', hm', hgrown', hend', hnframes, hspare⟩ := hsbrk
      rw [hm', if_pos hframes]
      refine Or.inl ⟨_, _, rfl, rfl, ⟨_, hgrown', ?_⟩, hend', ?_, fun x hx => ?_, ?_⟩
      · show m'.heapEnd = _
        rw [hend']
        omega
      · show indexFromBit m'.nframes * 0x20 * 0x1000 =
          indexFromBit s.machine.nframes * 0x20 * 0x1000
        rw [hnframes]
      · exact (hspare x hx).trans (hmem x hx)
      · exact congrArg _ houtputs
    · next hframes =>
      rw [hsbrk, if_neg hframes]
      exact Or.inr ⟨_, rfl, rfl⟩
  | load a =>
    have hload := hgrown.maps.map.load (by omega) a.isLt
      (Layout.Spare.not_structure hvalid hroom hle)
    rw [PagedCall.step, PagedCall.flat, hgrown.maps.physicalTables_eq, ← hheap, hend]
    by_cases hlt : a.toNat < 0x1000 * n
    · rw [hload, if_pos hlt, if_pos hlt]
      refine Or.inl ⟨_, _, rfl, rfl, ⟨n, hgrown.mark hroom hlt false, hend⟩, hend, hlimit,
        fun x hx => (hmarks hlt hx).trans (hmem x hx), ?_⟩
      show _ :: _ = _ :: _
      rw [hmem _ hvalid, houtputs]
    · rw [hload, if_neg hlt, if_neg hlt]
      exact Or.inr ⟨_, rfl, rfl⟩
  | store a b =>
    have hstore := hgrown.maps.map.store a.isLt b
    rw [PagedCall.step, PagedCall.flat, hgrown.maps.physicalTables_eq, ← hheap, hend]
    by_cases hlt : a.toNat < 0x1000 * n
    · rw [hstore, if_pos hlt, if_pos hlt]
      refine Or.inl ⟨_, _, rfl, rfl,
        ⟨n, (hgrown.mark hroom hlt true).store hroom hvalid b, hend⟩, hend, hlimit,
        fun x hx => ?_, houtputs⟩
      simp only [Mem.store8]
      split
      · rfl
      · exact (hmarks hlt hx).trans (hmem x hx)
    · rw [hstore, if_neg hlt, if_neg hlt]
      exact Or.inr ⟨_, rfl, rfl⟩

end Flattens

/-- What boot leaves is what the runs start with. -/
theorem flattens_start {L : Layout} {fuel memsize : Nat} {m₀ m₁ : Machine}
    (hpp : 0x1000 ≤ m₀.placementPointer) (hframes : L.frames = m₀.placementPointer)
    (hdirectory : L.directory = Paging.directoryAddress memsize m₀.placementPointer)
    (hroom : L.Room (Paging.bootTables memsize m₀.placementPointer))
    (hwords : Paging.bootPages memsize m₀.placementPointer ≤ 0x20 * L.words)
    (hfuel : 0x100000 < fuel) (hboot : m₀.pagingInstall fuel memsize = .ok m₁) :
    Flattens L (Paging.bootTables memsize m₀.placementPointer) (PagedRun.start m₁)
      (FlatRun.start m₁) := by
  have hfits := L.fits
  have hle := hroom.boot_le
  have hbase : Paging.tableBase memsize m₀.placementPointer = L.base := by
    rw [Paging.tableBase, ← hdirectory, Layout.base]
  have hbase' : L.base = L.directory + 0x2000 := rfl
  have haligned := L.aligned
  have hpages : Paging.bootPages memsize m₀.placementPointer =
      L.base / 0x1000 + Paging.bootTables memsize m₀.placementPointer := by
    rw [Paging.bootPages, hbase]
  have htables : Paging.bootTables memsize m₀.placementPointer = (L.base / 0x1000 + 1022) / 1023 := by
    rw [Paging.bootTables, hbase]
  have hinstall := Machine.pagingInstall_maps fuel memsize hpp hframes hdirectory rfl hroom hwords
    (by omega)
  rw [hboot] at hinstall
  split at hinstall
  · obtain ⟨m', hm', hmaps, hpointer, -⟩ := hinstall
    cases hm'
    generalize Paging.bootTables memsize m₀.placementPointer = boot at *
    generalize Paging.bootPages memsize m₀.placementPointer = n at *
    have ht : (n + 1023) / 1024 = boot := by omega
    have hmaps' : Machine.Maps L boot ((n + 1023) / 1024) n m₁.heapInstall := by
      rw [ht]
      exact ⟨hmaps.frames, hmaps.directory, hmaps.bitmap, hmaps.slot, hmaps.no_slot, hmaps.map,
        hmaps.clean, hmaps.le⟩
    have hzero : m₁.heapInstall.placementPointer =
        Machine.heapPointer boot ((n + 1023) / 1024) := by
      rw [ht, Machine.heapPointer, if_pos rfl]
      rfl
    exact ⟨⟨n, ⟨hmaps', hzero, ht.ge, by omega⟩, hpointer⟩, rfl, rfl, fun _ _ => rfl, rfl⟩
  · cases hinstall

/-- **The identity map.**  In every state of a run from `heap_install` on, whatever the heap has
grown to, the processor takes each address below the end of the heap to itself and has no page for
any other.  The tables that `sbrk` makes are in the first pages of memory. -/
theorem translates_always (L : Layout) (fuel memsize : Nat) (m₀ m₁ : Machine)
    (hpp : 0x1000 ≤ m₀.placementPointer) (hframes : L.frames = m₀.placementPointer)
    (hdirectory : L.directory = Paging.directoryAddress memsize m₀.placementPointer)
    (hroom : L.Room (Paging.bootTables memsize m₀.placementPointer))
    (hwords : Paging.bootPages memsize m₀.placementPointer ≤ 0x20 * L.words)
    (hfuel : 0x100000 < fuel) (hboot : m₀.pagingInstall fuel memsize = .ok m₁)
    (calls : List PagedCall)
    (hvalid : Runs.Along (PagedCall.step fuel)
      (PagedCall.Valid L (Paging.bootTables memsize m₀.placementPointer)) calls
      (PagedRun.start m₁)) :
    Runs.Always (PagedCall.step fuel)
      (fun s => ∀ (wp : Bool) (access : Mmu.Access) (a : Nat), a < 0x100000000 →
        Mmu.translate s.machine.mem s.machine.physicalTables wp access a =
          if a < s.machine.heapEnd then
            if access.write = true ∧ (access.user = true ∨ wp = true) then .error .protection
            else .ok a
          else .error .notPresent)
      calls (PagedRun.start m₁) := by
  have hstart := flattens_start hpp hframes hdirectory hroom hwords hfuel hboot
  refine (Runs.along_always (P := fun s => ∃ f, Flattens L _ s f)
    (fun call s s' hs hcall hstep => ?_)
    ⟨_, hstart⟩ hvalid).imp fun s hs wp access a ha => ?_
  · obtain ⟨f, hf⟩ := hs
    rcases hf.step hroom hfuel hcall with ⟨s'', f', hs'', -, hf'⟩ | ⟨e, he, -⟩
    · cases hstep.symm.trans hs''
      exact ⟨f', hf'⟩
    · cases hstep.symm.trans he
  · obtain ⟨f, ⟨n, hgrown, hend⟩, -⟩ := hs
    exact hgrown.maps.translate hend wp access ha

/-- **Paging goes unnoticed.**  With paging on, `sbrk`, loads and stores return what they return on
a memory without tables that ends at the end of the heap, or stop with the same error; and they
leave the same in it. -/
theorem paged_flat (L : Layout) (fuel memsize : Nat) (m₀ m₁ : Machine)
    (hpp : 0x1000 ≤ m₀.placementPointer) (hframes : L.frames = m₀.placementPointer)
    (hdirectory : L.directory = Paging.directoryAddress memsize m₀.placementPointer)
    (hroom : L.Room (Paging.bootTables memsize m₀.placementPointer))
    (hwords : Paging.bootPages memsize m₀.placementPointer ≤ 0x20 * L.words)
    (hfuel : 0x100000 < fuel) (hboot : m₀.pagingInstall fuel memsize = .ok m₁)
    (calls : List PagedCall)
    (hvalid : Runs.Along (PagedCall.step fuel)
      (PagedCall.Valid L (Paging.bootTables memsize m₀.placementPointer)) calls
      (PagedRun.start m₁)) :
    (∃ s f, Runs.run (PagedCall.step fuel) calls (PagedRun.start m₁) = .ok s ∧
      Runs.run PagedCall.flat calls (FlatRun.start m₁) = .ok f ∧
      s.outputs = f.outputs ∧ s.machine.heapEnd = f.heapEnd ∧
      ∀ x, L.Spare (Paging.bootTables memsize m₀.placementPointer) x →
        s.machine.mem x = f.mem x) ∨
    ∃ e, Runs.run (PagedCall.step fuel) calls (PagedRun.start m₁) = .error e ∧
      Runs.run PagedCall.flat calls (FlatRun.start m₁) = .error e := by
  have hstart := flattens_start hpp hframes hdirectory hroom hwords hfuel hboot
  rcases Runs.agree_iff.mp (Runs.run_agrees
    (fun call s f hs hcall => Runs.agree_iff.mpr (hs.step hroom hfuel hcall)) hstart hvalid) with
    ⟨s, f, hs, hf, hflat⟩ | herror
  · exact Or.inl ⟨s, f, hs, hf, hflat.outputs, hflat.heapEnd, hflat.mem⟩
  · exact Or.inr herror

/-! ### 64 MB of memory -/

/-- Boot with the kernel's end at `0x120800`: the bitmap is in the part of the directory that has no
tables. -/
def layout_64MB : Layout where
  frames := 0x120800
  directory := 0x120000
  words := 0x200
  tables := 16
  aligned := by decide
  separate := by decide
  words_le := by decide
  tables_le := by decide
  fits := by decide

theorem room_64MB : layout_64MB.Room 1 := ⟨by decide, by decide, by decide⟩

theorem boot_64MB : ∃ m₁,
    Machine.pagingInstall 0x100001 0x10000 ⟨fun _ => 0xFF, 0x120800, 0, 0, 0, 0⟩ = .ok m₁ ∧
    m₁.placementPointer = 0x123000 ∧ m₁.nframes = 0x4000 := by
  have hpages : Paging.bootPages 0x10000 0x120800 = 0x123 := by decide
  obtain ⟨m₀, hm₀⟩ : ∃ m₀ : Machine, m₀ = ⟨fun _ => 0xFF, 0x120800, 0, 0, 0, 0⟩ := ⟨_, rfl⟩
  have hpp : m₀.placementPointer = 0x120800 := by rw [hm₀]
  have hinstall := Machine.pagingInstall_maps (L := layout_64MB) (m := m₀) 0x100001 0x10000
    (by rw [hpp]; decide) (by rw [hpp]; rfl) (by rw [hpp]; decide) (by rw [hpp]; rfl)
    room_64MB (by rw [hpp]; decide) (by rw [hpp]; decide)
  rw [hpp, hpages, if_pos (by decide)] at hinstall
  obtain ⟨m₁, hm₁, -, hpointer, hnframes⟩ := hinstall
  exact ⟨m₁, hm₀ ▸ hm₁, hpointer, hnframes⟩

/-- The heap grows by 4 MB, and so into a table that is placed in page 1. -/
def fourMegabytes : List PagedCall := [.sbrk 0x400000, .store 0x500000 7, .load 0x500000]

theorem fourMegabytes_valid {m₁ : Machine} (hpointer : m₁.placementPointer = 0x123000) :
    Runs.Along (PagedCall.step 0x100001) (PagedCall.Valid layout_64MB 1) fourMegabytes
      (PagedRun.start m₁) := by
  have hspare : layout_64MB.Spare 1 0x500000 := ⟨by decide, by decide, by decide⟩
  refine ⟨⟨by decide, ?_⟩, fun _ _ => ⟨hspare, fun _ _ => ⟨hspare, fun _ _ => trivial⟩⟩⟩
  show m₁.placementPointer + 0x400000 < 0x100000000 ∧
    m₁.placementPointer + 0x400000 ≤ 0x400000 * 16 ∧
    m₁.placementPointer + 0x400000 ≤ 0x20000 * 0x200
  rw [hpointer]
  decide

theorem translates_always_64MB : ∃ m₁,
    Runs.Always (PagedCall.step 0x100001)
      (fun s => ∀ (wp : Bool) (access : Mmu.Access) (a : Nat), a < 0x100000000 →
        Mmu.translate s.machine.mem s.machine.physicalTables wp access a =
          if a < s.machine.heapEnd then
            if access.write = true ∧ (access.user = true ∨ wp = true) then .error .protection
            else .ok a
          else .error .notPresent)
      fourMegabytes (PagedRun.start m₁) := by
  obtain ⟨m₁, hboot, hpointer, -⟩ := boot_64MB
  exact ⟨m₁, translates_always layout_64MB 0x100001 0x10000 ⟨fun _ => 0xFF, 0x120800, 0, 0, 0, 0⟩ m₁
    (by decide) rfl (by decide) room_64MB (by decide) (by decide) hboot fourMegabytes
    (fourMegabytes_valid hpointer)⟩

/-- The byte is read back, and the heap was at `0x123000`. -/
theorem paged_flat_64MB : ∃ m₁ s,
    Runs.run (PagedCall.step 0x100001) fourMegabytes (PagedRun.start m₁) = .ok s ∧
      s.outputs = [7, 0x123000] := by
  obtain ⟨m₁, hboot, hpointer, hnframes⟩ := boot_64MB
  obtain ⟨f, hf, houtputs⟩ : ∃ f, Runs.run PagedCall.flat fourMegabytes (FlatRun.start m₁) = .ok f ∧
      f.outputs = [7, 0x123000] := by
    have hflat : FlatRun.start m₁ = ⟨m₁.mem, 0x123000, 0x4000000, []⟩ := by
      rw [FlatRun.start, hpointer, hnframes]
      rfl
    refine ⟨⟨m₁.mem.store8 0x500000 7, 0x523000, 0x4000000, [7, 0x123000]⟩, ?_, rfl⟩
    simp [hflat, fourMegabytes, Runs.run, PagedCall.flat]
  rcases paged_flat layout_64MB 0x100001 0x10000 ⟨fun _ => 0xFF, 0x120800, 0, 0, 0, 0⟩ m₁
    (by decide) rfl (by decide) room_64MB (by decide) (by decide) hboot fourMegabytes
    (fourMegabytes_valid hpointer) with ⟨s, f', hs, hf', hsame, -⟩ | ⟨e, -, he⟩
  · cases hf.symm.trans hf'
    exact ⟨m₁, s, hs, hsame.trans houtputs⟩
  · cases hf.symm.trans he

end MyaXOS
