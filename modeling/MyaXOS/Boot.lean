import MyaXOS.Mem.FlatRefine

/-!
# From `main` to the mounting of the ramdisk

`main` copies the boot module to `0x200000`, installs the pager and the heap right behind it, and
mounts the copy.  Nothing is said here about what `main` does in between with the screen, the
descriptor tables and the drivers, which stay out of the memory from `0x200000` on.

* `Boots` is what this is for: the copy mounted has the bytes the module had at the start.
* Two things can go wrong.  `memcpy` runs upwards, so a module that reaches into its own copy from
  below is overwritten before it is read.  And the directory is placed at the page boundary *below*
  the end of the bitmap, which may be in the middle of the bitmap or of the copy.
* `boots_of_safe` says that all is well when neither happens, and `boots_iff` that both conditions
  are needed.

**What lies where.**  The copy ends at any address.  The bitmap begins there, and the directory is
placed behind the bitmap, but rounded down to a page.  The bitmap is short: it has as many bytes as
it should have words.  So the page boundary may be before the end of the bitmap, and also before its
start, that is, in the copy.  The first case does no harm as long as the words in use are below the
directory or meet none of its slots in use; the second always overwrites the end of the ramdisk.

**Enough.**  If the objects are apart, then boot is what it is on separate objects, and this is
known from `Mem/Paging.lean`: the loop ends, or there are not enough frames.  `Mem/FlatRefine.lean`
carries it over, and says that everything below the bitmap is left alone, with the ramdisk in it.

**Needed.**  For the converse one byte is enough.  A module that reaches into its copy has a byte
that is copied twice, from itself to a place further up, so it is found where another should be; for
some content of the memory the two differ.  A directory in the copy has a slot there, and the low
byte of what is stored in it is known.  The statement is about every content of the memory, and it
is the content that is chosen for the converse.
-/

set_option autoImplicit false

namespace MyaXOS

/-- What `main` reads of `struct multiboot`, and the two words its `mods_addr` points to. -/
structure Multiboot where
  flags : Nat
  memUpper : Nat
  modsCount : Nat
  moduleStart : Nat
  moduleEnd : Nat
  deriving DecidableEq, Repr

/-- `enum BOOTMODE`. -/
inductive BootMode where
  | unknown
  | mrboots
  | multiboot
  deriving DecidableEq, Repr

/-- `MULTIBOOT_EAX_MAGIC`. -/
def multibootEaxMagic : Nat := 0x2BADB002

namespace Multiboot

/-- `module_end - module_start`. -/
def size (mboot : Multiboot) : Nat := u32 (mboot.moduleEnd + 0x100000000 - mboot.moduleStart)

/-- Copy the module to the placement pointer. -/
def loadModule (mboot : Multiboot) (m : Machine) : Nat × Machine :=
  let ramdisk := kmalloc m.placementPointer mboot.size
  (ramdisk.address,
    { m with
      placementPointer := ramdisk.pointer
      mem := memcpy m.mem ramdisk.address mboot.moduleStart mboot.size })

/-- `main` up to `gdt_install`: the boot mode, `ramdisk` and the machine. -/
def load (mboot : Multiboot) (magic : Nat) (m : Machine) : BootMode × Nat × Machine :=
  if magic = multibootEaxMagic then
    let m := { m with placementPointer := 0x200000 }
    if mboot.flags.testBit 3 then
      if 0 < mboot.modsCount then
        let (ramdisk, m) := mboot.loadModule m
        (.multiboot, ramdisk, m)
      else (.multiboot, 0, m)
    else (.mrboots, 0, m)
  else (.unknown, 0, m)

/-- `main` up to the point where it calls `initrd_mount(ramdisk, 0)`, or passes it by. -/
def main (fuel : Nat) (mboot : Multiboot) (magic : Nat) (m : Machine) :
    Except Stop (Option Nat × Machine) :=
  let (bootMode, ramdisk, m) := mboot.load magic m
  match m.pagingInstall fuel mboot.memUpper with
  | .error e => .error e
  | .ok m =>
    let m := m.heapInstall
    if bootMode = .multiboot ∧ mboot.flags.testBit 3 ∧ 0 < mboot.modsCount then
      .ok (some ramdisk, m)
    else .ok (none, m)

/-- A multiboot loader that passes a module.  `main` takes `mods_addr` on trust once the flag and
the count are right, so what the loader promises about the range is a hypothesis. -/
structure Loaded (mboot : Multiboot) : Prop where
  flags : mboot.flags.testBit 3 = true
  mods : 0 < mboot.modsCount
  range : mboot.moduleStart ≤ mboot.moduleEnd
  fits : mboot.moduleEnd < 0x100000000

/-- The address after the copy of the module, where the bitmap is placed. -/
def copyEnd (mboot : Multiboot) : Nat := 0x200000 + (mboot.moduleEnd - mboot.moduleStart)

/-- The number of pages mapped at boot. -/
def pages (mboot : Multiboot) : Nat := Paging.bootPages mboot.memUpper mboot.copyEnd

/-- The number of words of the bitmap that are in use at the end of boot. -/
def words (mboot : Multiboot) : Nat := (mboot.pages + 0x1F) / 0x20

/-- The address of the directory. -/
def directory (mboot : Multiboot) : Nat := Paging.directoryAddress mboot.memUpper mboot.copyEnd

/-- `main` mounts a ramdisk with the bytes the module had when it was entered, unless it runs out of
frames. -/
def Boots (fuel : Nat) (mboot : Multiboot) (m : Machine) : Prop :=
  mboot.main fuel multibootEaxMagic m =
      .error (.halt "Failed to allocate a frame: out of frames") ∨
    ∃ ramdisk m', mboot.main fuel multibootEaxMagic m = .ok (some ramdisk, m') ∧
      ∀ i < mboot.moduleEnd - mboot.moduleStart,
        m'.mem (ramdisk + i) = m.mem (mboot.moduleStart + i)

/-- The module does not reach into its copy from below.  It may reach into it from above, as
`memcpy` goes upwards. -/
def CopySafe (mboot : Multiboot) : Prop :=
  0x200000 ≤ mboot.moduleStart ∨ mboot.moduleEnd ≤ 0x200000

/-- The words of the bitmap in use are below the directory, although fewer bytes have been taken for
them. -/
def BitmapBelow (mboot : Multiboot) : Prop :=
  mboot.copyEnd + 4 * mboot.words ≤ mboot.directory

/-- The words of the bitmap in use are clear of the slots of the directory in use. -/
def BitmapApart (mboot : Multiboot) : Prop :=
  mboot.BitmapBelow ∨
    mboot.directory + 4 * Paging.bootTables mboot.memUpper mboot.copyEnd ≤ mboot.copyEnd ∧
      mboot.copyEnd + 4 * mboot.words ≤ mboot.directory + 0x1000

instance (mboot : Multiboot) : Decidable mboot.CopySafe := inferInstanceAs (Decidable (_ ∨ _))

instance (mboot : Multiboot) : Decidable mboot.BitmapBelow := inferInstanceAs (Decidable (_ ≤ _))

instance (mboot : Multiboot) : Decidable mboot.BitmapApart := inferInstanceAs (Decidable (_ ∨ _))

theorem words_le (mboot : Multiboot) (hwrap : 0x1000 * mboot.pages < 0x100000000) :
    mboot.words ≤ 0x8000 := by
  rw [words]
  omega

theorem bootTables_le (mboot : Multiboot) (hwrap : 0x1000 * mboot.pages < 0x100000000) :
    Paging.bootTables mboot.memUpper mboot.copyEnd ≤ 1024 := by
  rw [pages, Paging.bootPages, Paging.bootTables] at hwrap
  rw [Paging.bootTables]
  omega

theorem tables_fit (mboot : Multiboot) (hwrap : 0x1000 * mboot.pages < 0x100000000) :
    mboot.directory + 0x2000 + 0x1000 * Paging.bootTables mboot.memUpper mboot.copyEnd ≤
      0xFFFFF000 := by
  rw [pages, Paging.bootPages, Paging.tableBase, Paging.directoryAddress] at hwrap
  rw [directory, Paging.directoryAddress]
  omega

/-- The placement of the objects during boot. -/
def layout (mboot : Multiboot) (hwrap : 0x1000 * mboot.pages < 0x100000000)
    (hapart : mboot.BitmapApart) : Layout where
  frames := mboot.copyEnd
  directory := mboot.directory
  words := mboot.words
  tables := Paging.bootTables mboot.memUpper mboot.copyEnd
  aligned := Nat.mul_mod_left _ _
  separate := hapart
  words_le := mboot.words_le hwrap
  tables_le := mboot.bootTables_le hwrap
  fits := mboot.tables_fit hwrap

variable {mboot : Multiboot} {fuel : Nat} {m : Machine}

theorem Loaded.size_eq (h : mboot.Loaded) : mboot.size = mboot.moduleEnd - mboot.moduleStart := by
  have := h.range
  have := h.fits
  simp only [size, u32]
  omega

/-- The machine when `paging_install` is called. -/
def copied (mboot : Multiboot) (m : Machine) : Machine :=
  { m with
    placementPointer := mboot.copyEnd
    mem := memcpy m.mem 0x200000 mboot.moduleStart (mboot.moduleEnd - mboot.moduleStart) }

theorem copyEnd_lt (hwrap : 0x1000 * mboot.pages < 0x100000000) : mboot.copyEnd < 0xFFFFF000 := by
  rw [pages, Paging.bootPages, Paging.tableBase, Paging.directoryAddress] at hwrap
  omega

theorem Loaded.load_eq (h : mboot.Loaded) (hwrap : 0x1000 * mboot.pages < 0x100000000) :
    mboot.load multibootEaxMagic m = (.multiboot, 0x200000, mboot.copied m) := by
  have hlt := copyEnd_lt hwrap
  rw [copyEnd] at hlt
  simp only [load, if_true, h.flags, h.mods, loadModule, h.size_eq]
  rw [kmalloc, kmallocReal_in_place (by simp) (by omega)]
  rfl

/-- **`main` with the objects apart** reaches `initrd_mount`, with the directory and the tables in
their places and all below the bitmap and the directory as `memcpy` left it. -/
theorem Loaded.main_eq (h : mboot.Loaded) (hwrap : 0x1000 * mboot.pages < 0x100000000)
    (hfuel : mboot.pages < fuel) (hapart : mboot.BitmapApart) :
    if mboot.pages ≤ indexFromBit (mboot.memUpper / 4) * 0x20 then
      ∃ m' s', mboot.main fuel multibootEaxMagic m = .ok (some 0x200000, m'.heapInstall) ∧
        Represents (mboot.layout hwrap hapart) 0 (mboot.copied m).mem m' s' ∧
        Paging.Booting (mboot.layout hwrap hapart).base
          (Paging.bootTables mboot.memUpper mboot.copyEnd) mboot.pages s'
    else mboot.main fuel multibootEaxMagic m =
      .error (.halt "Failed to allocate a frame: out of frames") := by
  have hpointer : (mboot.copied m).placementPointer = mboot.copyEnd := rfl
  have hcopyEnd : 0x200000 ≤ mboot.copyEnd := Nat.le_add_right _ _
  have hpages : mboot.pages ≤ mboot.words * 0x20 := by
    rw [words]
    omega
  obtain ⟨s, hs⟩ : ∃ s : Paging, s = { Paging.unset mboot.copyEnd with heapEnd := m.heapEnd } :=
    ⟨_, rfl⟩
  have hspointer : s.placementPointer = mboot.copyEnd := by rw [hs]; rfl
  have hagree := Represents.pagingInstall (L := mboot.layout hwrap hapart) (m := mboot.copied m)
    (s := s) fuel mboot.memUpper hspointer (by rw [hs]; rfl) (by rw [hpointer]; omega) rfl rfl
    (Nat.le_refl _) hpages
  have hboot := Paging.pagingInstall_booting (s := s) fuel mboot.memUpper
    (by rw [hspointer]; omega) (by rwa [hspointer]) (by rwa [hspointer])
  rw [hspointer, ← pages] at hboot
  simp only [main, h.load_eq hwrap]
  split
  · next hframes =>
    rw [if_pos hframes] at hboot
    obtain ⟨s', hs', hboot', -⟩ := hboot
    obtain ⟨m', hm', hrep⟩ := hagree.of_ok' hs'
    refine ⟨m', s', ?_, hrep, hboot'⟩
    rw [hm']
    simp only [h.flags, h.mods, and_self, if_true]
  · next hframes =>
    rw [if_neg hframes] at hboot
    rw [hagree.of_error' hboot]

/-- The bytes of the copy below the directory are there when the ramdisk is mounted. -/
theorem image_eq (hwrap : 0x1000 * mboot.pages < 0x100000000) (hapart : mboot.BitmapApart)
    {m' : Machine} {s' : Paging}
    (hrep : Represents (mboot.layout hwrap hapart) 0 (mboot.copied m).mem m' s') {i : Nat}
    (hi : i < mboot.moduleEnd - mboot.moduleStart) (hdir : 0x200000 + i < mboot.directory) :
    m'.mem (0x200000 + i) =
      memcpy m.mem 0x200000 mboot.moduleStart (mboot.moduleEnd - mboot.moduleStart)
        (0x200000 + i) :=
  hrep.kept (0x200000 + i) (Nat.zero_le _) (Nat.add_lt_add_left hi _) hdir

/-- **A safe module is mounted as it was loaded**: the copy is the module, since it does not overlap
it from above, and neither the bitmap nor what paging writes comes near the copy. -/
theorem boots_of_safe (h : mboot.Loaded) (hwrap : 0x1000 * mboot.pages < 0x100000000)
    (hfuel : mboot.pages < fuel) (hcopy : mboot.CopySafe) (hbelow : mboot.BitmapBelow)
    (m : Machine) : mboot.Boots fuel m := by
  have hlt := copyEnd_lt hwrap
  rw [copyEnd] at hlt
  have hmain := h.main_eq (m := m) hwrap hfuel (Or.inl hbelow)
  split at hmain
  · obtain ⟨m', s', hm', hrep, -⟩ := hmain
    refine Or.inr ⟨0x200000, m'.heapInstall, hm', fun i hi => ?_⟩
    have hrange := h.range
    have hfits := h.fits
    have himage : m'.heapInstall.mem (0x200000 + i) = _ := image_eq hwrap _ hrep hi (by
      rw [BitmapBelow, copyEnd] at hbelow
      omega)
    rw [himage]
    rw [CopySafe] at hcopy
    exact memcpy_apply (by omega) (by omega) (by omega) hi
  · exact Or.inl hmain

/-- A directory in the middle of the copy: the first byte of its first slot is the low byte of a
page boundary. -/
theorem not_boots_of_directory_lt (h : mboot.Loaded) (hwrap : 0x1000 * mboot.pages < 0x100000000)
    (hfuel : mboot.pages < fuel) (hapart : mboot.BitmapApart)
    (hframes : mboot.pages ≤ indexFromBit (mboot.memUpper / 4) * 0x20)
    (hdir : mboot.directory < mboot.copyEnd) (hm : ∀ x, m.mem x = 0xFF) :
    ¬ mboot.Boots fuel m := by
  have hmain := h.main_eq (m := m) hwrap hfuel hapart
  rw [if_pos hframes] at hmain
  obtain ⟨m', s', hm', hrep, hboot⟩ := hmain
  have hdir' : 0x200000 ≤ mboot.directory := by
    rw [directory, Paging.directoryAddress, copyEnd]
    omega
  have haligned : mboot.directory % 0x1000 = 0 := Nat.mul_mod_left _ _
  have hpos := Paging.bootTables_pos mboot.memUpper mboot.copyEnd
  rintro (hb | ⟨ramdisk, m'', hb, himage⟩)
  · rw [hm'] at hb
    cases hb
  · rw [hm'] at hb
    cases hb
    have hL : (mboot.layout hwrap hapart).directory = mboot.directory := rfl
    have hword := hrep.tables 0 hpos
    rw [hboot.table_eq 0 hpos, Layout.base, hL, Nat.mul_zero, Nat.add_zero,
      Nat.add_zero] at hword
    have hbyte := himage (mboot.directory - 0x200000) (by rw [copyEnd] at hdir; omega)
    rw [hm, show 0x200000 + (mboot.directory - 0x200000) = mboot.directory by omega] at hbyte
    have hlow := m'.mem.load32_mod mboot.directory
    have hbyte' : m'.mem mboot.directory = 0xFF := hbyte
    rw [hword, hbyte', show (0xFF : UInt8).toNat = 0xFF from rfl] at hlow
    omega

/-- A module that reaches into its copy: the byte that is copied from the start of the copy is the
first byte of the module once more. -/
theorem not_boots_of_overlap (h : mboot.Loaded) (hwrap : 0x1000 * mboot.pages < 0x100000000)
    (hfuel : mboot.pages < fuel) (hapart : mboot.BitmapApart)
    (hframes : mboot.pages ≤ indexFromBit (mboot.memUpper / 4) * 0x20)
    (hdir : mboot.copyEnd ≤ mboot.directory) (hcopy : ¬ mboot.CopySafe)
    (hm : m.mem mboot.moduleStart ≠ m.mem 0x200000) : ¬ mboot.Boots fuel m := by
  have hlt := copyEnd_lt hwrap
  have hmain := h.main_eq (m := m) hwrap hfuel hapart
  rw [if_pos hframes] at hmain
  obtain ⟨m', s', hm', hrep, -⟩ := hmain
  rw [CopySafe] at hcopy
  rw [copyEnd] at hdir hlt
  rintro (hb | ⟨ramdisk, m'', hb, himage⟩)
  · rw [hm'] at hb
    cases hb
  · rw [hm'] at hb
    cases hb
    have hi : 0x200000 - mboot.moduleStart < mboot.moduleEnd - mboot.moduleStart := by omega
    have hbyte : m'.mem (0x200000 + (0x200000 - mboot.moduleStart)) = _ := himage _ hi
    rw [image_eq hwrap hapart hrep hi (by omega), memcpy_overlap (by omega) (by omega) (by omega),
      show mboot.moduleStart + (0x200000 - mboot.moduleStart) = 0x200000 by omega] at hbyte
    exact hm hbyte

/-- **When the ramdisk is what was loaded**, for every content of the memory: if the module does not
reach into its copy and the bitmap is below the directory; and, as long as the bitmap is clear of
the directory at all, only then. -/
theorem boots_iff (fuel : Nat) (mboot : Multiboot) (h : mboot.Loaded)
    (hwrap : 0x1000 * mboot.pages < 0x100000000) (hfuel : mboot.pages < fuel) :
    (mboot.CopySafe ∧ mboot.BitmapBelow → ∀ m, mboot.Boots fuel m) ∧
    (mboot.BitmapApart → mboot.pages ≤ indexFromBit (mboot.memUpper / 4) * 0x20 →
      (∀ m, mboot.Boots fuel m) → mboot.CopySafe ∧ mboot.BitmapBelow) := by
  refine ⟨fun hsafe => boots_of_safe h hwrap hfuel hsafe.1 hsafe.2,
    fun hapart hframes hall => ?_⟩
  have hdir : mboot.copyEnd ≤ mboot.directory := by
    by_contra hc
    exact not_boots_of_directory_lt h hwrap hfuel hapart hframes (by omega)
      (m := ⟨fun _ => 0xFF, 0, 0, 0, 0, 0⟩) (fun _ => rfl) (hall _)
  refine ⟨?_, hapart.resolve_right fun hc => ?_⟩
  · by_contra hcopy
    have hne : mboot.moduleStart ≠ 0x200000 := fun e => hcopy (Or.inl (by omega))
    refine not_boots_of_overlap h hwrap hfuel hapart hframes hdir hcopy
      (m := ⟨fun x => if x = 0x200000 then 1 else 0, 0, 0, 0, 0, 0⟩) ?_ (hall _)
    simp only [if_neg hne, if_true]
    decide
  · have := Paging.bootTables_pos mboot.memUpper mboot.copyEnd
    omega

/-- A module of `0xF80` bytes in 32 MB of memory. -/
theorem boots_iff_32MB :
    Boots 517 ⟨8, 0x8000, 1, 0x300000, 0x300F80⟩ ⟨fun _ => 0xFF, 0, 0, 0, 0, 0⟩ :=
  (boots_iff 517 ⟨8, 0x8000, 1, 0x300000, 0x300F80⟩ ⟨by decide, by decide, by decide, by decide⟩
    (by decide) (by decide)).1 (by decide) _

/-- A module of `0x123` bytes in the same memory: the directory is placed over all of the copy. -/
theorem not_boots : ¬ Boots 517 ⟨8, 0x8000, 1, 0x300000, 0x300123⟩ ⟨fun _ => 0xFF, 0, 0, 0, 0, 0⟩ :=
  not_boots_of_directory_lt ⟨by decide, by decide, by decide, by decide⟩ (by decide) (by decide)
    (by decide) (by decide) (by decide) fun _ => rfl

end Multiboot

end MyaXOS
