import MyaXOS.Mem.FlatHeap

/-!
# Runs of the heap

The calls made after `heap_install`, `sbrk` and `get_page`, on the bytes of one memory, and what is
to be said about every run of them.

* `ViewsAgree` relates the two views of the directory.  The table that is placed at address 0 breaks
  it, since its address is `NULL`; `sbrk` asks for the page a second time and so makes up for it,
  and a `get_page` on its own does not.  `Visible` is the guard that keeps it.
* `HeapSound` is what `sbrk` promises about the regions it has returned so far.  It fails when the
  end of the heap is carried past `2 ^ 32`, which nothing in `sbrk` looks at.  `Fits` is the guard.

In one memory there is another way to fail: the objects of the pager come into each other's way.
`BootApart` and `HeapCall.Apart` say that they do not, and both main results are about runs that
meet these conditions.

## Why it works

A run that meets `Apart` is followed by a run on separate objects.  `Tracked.step` is the one place
where a step is taken apart: it says which step on the objects there was, and that the objects still
follow the machine.  What the step does to the objects is known from `MyaXOS.Mem.Heap`.  So the
invariants of the two results are statements about objects, `Paging.ViewsAgree` and `HeapMapped`,
and `Runs.always_iff_along_of` makes of them the two directions of each result: a guarded step keeps
the invariant, and a step that is not guarded leads to a state where the promise is broken.
-/

set_option autoImplicit false

namespace MyaXOS

namespace Machine

end Machine

/-! ## Runs

A run is of `sbrk` and of `get_page` with the flag that makes tables.  The state keeps what each
`sbrk` has returned, since the promise is about all of these regions together.  `Apart`, `Visible`
and `Fits` are the conditions on a call, each a predicate of the machine before it. -/

/-- A call made after `heap_install`: `sbrk(increment)` or
`get_page(address, 1, kernel_directory)`. -/
inductive HeapCall where
  | sbrk (increment : BitVec 32)
  | getPage (address : BitVec 32)
  deriving DecidableEq, Repr

/-- A call of `sbrk` that returned: `heap_end` before and after, the increment asked for and the
address returned. -/
structure SbrkReturn where
  before : Nat
  increment : Nat
  address : Nat
  after : Nat
  deriving DecidableEq, Repr

/-- The bytes of the region a call of `sbrk` returned. -/
def SbrkReturn.InRegion (r : SbrkReturn) (x : Nat) : Prop :=
  r.address ≤ x ∧ x < r.address + r.increment

/-- The state of a run: the machine, and the calls of `sbrk` that returned, latest first. -/
structure HeapRun where
  machine : Machine
  returns : List SbrkReturn

/-- The state in which `heap_install` leaves the kernel. -/
def HeapRun.start (m : Machine) : HeapRun := ⟨m.heapInstall, []⟩

namespace HeapCall

/-- Perform a call. -/
def step (fuel : Nat) : HeapCall → HeapRun → Except Stop HeapRun
  | .sbrk increment, s =>
    match s.machine.sbrk fuel increment.toNat with
    | .ok (address, machine) =>
      .ok ⟨machine, ⟨s.machine.heapEnd, increment.toNat, address, machine.heapEnd⟩ :: s.returns⟩
    | .error e => .error e
  | .getPage address, s =>
    .ok { s with machine := (Machine.getPage address.toNat true s.machine).2 }

/-- The calls that there is room for.  For `get_page` it is room for one table, and for `sbrk` that
for all tables and frames of the region. -/
def Apart : HeapCall → HeapRun → Prop
  | .sbrk increment, s => s.machine.RoomFor increment.toNat
  | .getPage address, s =>
    s.machine.mem.load32 (s.machine.tableSlot (address.toNat / 0x1000 / 1024)) ≠ 0 ∨
      s.machine.placementPointer + 0x1000 ≤ s.machine.heapLow

/-- The calls that keep to the promise of `sbrk`: an increment of whole pages must not carry the end
of the heap past `2 ^ 32`.  (`sbrk` stops at any other increment.) -/
def Fits : HeapCall → HeapRun → Prop
  | .sbrk increment, s => increment.toNat % 0x1000 = 0 →
    s.machine.heapEnd + increment.toNat < 0x100000000
  | .getPage _, _ => True

end HeapCall

/-- What `sbrk` promises, about all calls that have returned so far.  It is said of the machine as
it is now, so that a later call which damages the pages of an earlier one breaks the promise of that
one. -/
structure HeapSound (s : HeapRun) : Prop where
  /-- It returns the end of the heap, and moves it up by the increment. -/
  returned : ∀ r ∈ s.returns, r.address = r.before ∧ r.after = r.before + r.increment
  /-- Each page of a region is present, with a frame that no other present page has. -/
  mapped : ∀ r ∈ s.returns, ∀ x, r.InRegion x → ∃ page, s.machine.pageAt x = some page ∧
    page.present = true ∧ ∀ y < 0x100000000, ∀ page', s.machine.pageAt y = some page' →
      page'.present = true → page'.frame = page.frame → y / 0x1000 = x / 0x1000
  /-- No byte is in two regions. -/
  disjoint : s.returns.Pairwise fun r r' => ∀ x, r.InRegion x → ¬ r'.InRegion x

/-! ## One call

With room for it, a call on the machine is a call on the objects.  After it the machine has the
objects in their places again, and so this can be used for the next. -/

/-- The machine of a run has the objects of a pager that is in a steady state. -/
def Tracked (L : Layout) (low : Nat) (m₀ : Mem) (m : Machine) (s : Paging) : Prop :=
  Represents L low m₀ m s ∧ ∃ n, Steady L low n s

namespace Tracked

variable {L : Layout} {low fuel : Nat} {m₀ : Mem} {m : Machine} {s : Paging}
  {returns : List SbrkReturn}

theorem getPage (h : Tracked L low m₀ m s) (hL : HeapLayout L low) {address : BitVec 32}
    (hapart : (HeapCall.getPage address).Apart ⟨m, returns⟩) :
    Tracked L low m₀ (Machine.getPage address.toNat true m).2
      (Paging.getPage address.toNat true s).2 := by
  obtain ⟨hrep, n, hs⟩ := h
  have haddress := address.isLt
  have hk : address.toNat / 0x1000 / 1024 < L.tables := by
    rw [hL.tables]
    omega
  have hroom : s.tables (address.toNat / 0x1000 / 1024) = 0 →
      s.placementPointer + 0x1000 ≤ low := fun hnone => by
    rcases hapart with hsome | hroom
    · rw [hrep.tableSlot_eq hk, hrep.tables _ hk] at hsome
      exact absurd hnone hsome
    · rwa [hrep.pointer, Machine.heapLow, hrep.frames, ← hL.low] at hroom
  refine ⟨(hrep.getPage hk fun hnone => ⟨_, _, hs.placeable (hroom hnone)⟩).2, n, ?_⟩
  by_cases hnone : s.tables (address.toNat / 0x1000 / 1024) = 0
  · rw [Paging.getPage_make hnone]
    exact hs.makeTable (hroom hnone) (by omega)
  · rwa [Paging.getPage_of_table hnone]

theorem sbrk (fuel : Nat) (h : Tracked L low m₀ m s) (hL : HeapLayout L low)
    {increment : BitVec 32} (hapart : m.RoomFor increment.toNat) :
    Runs.Agree (fun r r' => r.1 = r'.1 ∧ Tracked L low m₀ r.2 r'.2)
      (m.sbrk fuel increment.toNat) (s.sbrk fuel increment.toNat) := by
  obtain ⟨hrep, n, hs⟩ := h
  exact hrep.sbrk fuel hL hs hapart increment.isLt

/-- A step of a run is a step on the objects. -/
theorem step (h : Tracked L low m₀ m s) (hL : HeapLayout L low) {c : HeapCall} {s' : HeapRun}
    (hapart : c.Apart ⟨m, returns⟩) (hstep : c.step fuel ⟨m, returns⟩ = .ok s') :
    (∃ address : BitVec 32, c = .getPage address ∧ s'.returns = returns ∧
      Tracked L low m₀ s'.machine (Paging.getPage address.toNat true s).2) ∨
    ∃ (increment : BitVec 32) (address : Nat) (t : Paging), c = .sbrk increment ∧
      s.sbrk fuel increment.toNat = .ok (address, t) ∧
      s'.returns = ⟨s.heapEnd, increment.toNat, address, t.heapEnd⟩ :: returns ∧
      Tracked L low m₀ s'.machine t := by
  cases c with
  | getPage address =>
    cases hstep
    exact Or.inl ⟨address, rfl, rfl, h.getPage hL hapart⟩
  | sbrk increment =>
    rw [HeapCall.step] at hstep
    split at hstep
    · next address machine hsbrk =>
      cases hstep
      obtain ⟨⟨address', t⟩, ht, haddress, htracked⟩ := (h.sbrk fuel hL hapart).of_ok hsbrk
      cases haddress
      refine Or.inr ⟨increment, _, t, rfl, ht, ?_, htracked⟩
      rw [h.1.heapEnd, htracked.1.heapEnd]
    · cases hstep

end Tracked

/-! ## The two views of the directory

The equivalence is proved on the objects, where a table at address 0 is the one way to make the
views differ, and is carried over to the machine by `Represents`.  For `get_page` repeated there are
two cases: the first call leaves a table that can be seen, and then nothing more happens, or it does
not, and then the second one makes another. -/

/-- The invariant of a run: the heap and all below it is mapped in order, and the regions returned
lie below the end of the heap, the later ones above the earlier. -/
structure HeapMapped (s : Paging) (returns : List SbrkReturn) : Prop where
  mapped : Paging.Mapped (s.heapEnd / 0x1000) s
  returned : ∀ r ∈ returns, r.address = r.before ∧ r.after = r.before + r.increment
  below : ∀ r ∈ returns, r.after ≤ s.heapEnd
  ordered : returns.Pairwise fun r r' => r'.after ≤ r.address

namespace HeapMapped

variable {L : Layout} {low fuel : Nat} {m₀ : Mem} {m : Machine} {s : Paging}
  {returns : List SbrkReturn}

theorem sound (h : HeapMapped s returns) (ht : Tracked L low m₀ m s) (hL : HeapLayout L low) :
    HeapSound ⟨m, returns⟩ where
  returned := h.returned
  mapped r hr x hx := by
    obtain ⟨hrep, n, hs⟩ := ht
    have hret := h.returned r hr
    have hbelow := h.below r hr
    have haligned := hs.heapEnd_aligned
    have hend := hs.heapEnd_lt
    have hslot : ∀ {a}, a < 0x100000000 → a / 0x1000 / 1024 < L.tables := fun ha => by
      rw [hL.tables]
      omega
    have hxlt : x < s.heapEnd := by
      simp only [SbrkReturn.InRegion] at hx
      omega
    obtain ⟨page, hpage, hpresent, hframe⟩ := h.mapped.pageAt_of_lt (a := x) (by omega)
    refine ⟨page, (hrep.pageAt_eq (hslot (by omega))).trans hpage, hpresent,
      fun y hy page' hpage' hpresent' hsame => ?_⟩
    rw [hrep.pageAt_eq (hslot hy)] at hpage'
    rcases Nat.lt_or_ge (y / 0x1000) (s.heapEnd / 0x1000) with hy | hy
    · obtain ⟨page'', hpage'', -, hframe'⟩ := h.mapped.pageAt_of_lt hy
      cases hpage'.symm.trans hpage''
      rw [← hframe, ← hframe', hsame]
    · rw [h.mapped.pageAt_of_le hy hpage'] at hpresent'
      exact absurd hpresent' Bool.false_ne_true
  disjoint := by
    refine h.ordered.imp_of_mem fun {r r'} hr hr' hle x hx hx' => ?_
    have hret := h.returned r' hr'
    simp only [SbrkReturn.InRegion] at hx hx'
    omega

theorem getPage (h : HeapMapped s returns) {a : Nat} :
    HeapMapped (Paging.getPage a true s).2 returns := by
  obtain ⟨hmapped, hret, hbelow, hordered⟩ := h
  refine ⟨?_, hret, ?_, hordered⟩
  · rw [Paging.heapEnd_getPage]
    exact hmapped.getPage
  · rwa [Paging.heapEnd_getPage]

theorem push (h : HeapMapped s returns) {increment : Nat} {t : Paging}
    (hmapped : Paging.Mapped ((s.heapEnd + increment) / 0x1000) t)
    (hend : t.heapEnd = s.heapEnd + increment) :
    HeapMapped t (⟨s.heapEnd, increment, s.heapEnd, t.heapEnd⟩ :: returns) := by
  refine ⟨by rwa [hend], ?_, ?_, List.Pairwise.cons (fun r hr => h.below r hr) h.ordered⟩
  · rintro r (_ | ⟨_, hr⟩)
    · exact ⟨rfl, hend⟩
    · exact h.returned r hr
  · rintro r (_ | ⟨_, hr⟩)
    · exact Nat.le_refl _
    · have := h.below r hr
      omega

end HeapMapped

/-- A state in which the regions are mapped, with the objects of a pager. -/
def TrackedHeap (L : Layout) (low : Nat) (m₀ : Mem) (r : HeapRun) : Prop :=
  ∃ s, Tracked L low m₀ r.machine s ∧ HeapMapped s r.returns

namespace TrackedHeap

variable {L : Layout} {low fuel : Nat} {m₀ : Mem} {c : HeapCall} {r r' : HeapRun}

theorem step (h : TrackedHeap L low m₀ r) (hL : HeapLayout L low) (hapart : c.Apart r)
    (hfit : c.Fits r) (hfuel : 0x100000 < fuel) (hstep : c.step fuel r = .ok r') :
    TrackedHeap L low m₀ r' := by
  obtain ⟨s, hs, hheap⟩ := h
  obtain ⟨n, hsteady⟩ := hs.2
  rcases hs.step hL hapart hstep with ⟨address, rfl, hreturns, hs'⟩ |
    ⟨increment, address, t, rfl, ht, hreturns, hs'⟩
  · refine ⟨_, hs', ?_⟩
    rw [hreturns]
    exact hheap.getPage
  · by_cases hinc : increment.toNat % 0x1000 = 0
    · have hfit' := hfit hinc
      rw [hs.1.heapEnd] at hfit'
      rcases Paging.sbrk_mapped hheap.mapped hsteady.heapEnd_aligned hinc hfit' hfuel with
        ⟨t', ht', hmapped, hend⟩ | herror
      · cases ht.symm.trans ht'
        refine ⟨t, hs', ?_⟩
        rw [hreturns]
        exact hheap.push hmapped hend
      · cases ht.symm.trans herror
    · rw [Paging.sbrk, assert, if_neg hinc] at ht
      cases ht

end TrackedHeap

/-- The machine of a kernel that ends at `0x200F00`: the bitmap has 256 bytes, and then comes the
directory. -/
def kernel_32MB : Machine := ⟨fun _ => 0xFF, 0x200F00, 0, 0, 0, 0⟩

theorem bootApart_32MB : kernel_32MB.BootApart 0x8000 := ⟨by decide, by decide, by decide⟩

/-- There is room for the heap to grow up to 8 MB, if there is room for the tables. -/
theorem growthApart_32MB (slots : Nat) {m₀ : Mem} {m : Machine} {s : Paging}
    (h : Tracked bootApart_32MB.layout 0xA0000 m₀ m s)
    (hmapped : Paging.Mapped (s.heapEnd / 0x1000) s) (hlow : 0x1000 ≤ s.heapEnd)
    {increment : Nat} (hhigh : s.heapEnd + increment ≤ 0x800000)
    (hslots : ((s.heapEnd + increment) / 0x1000 - 1) / 1024 - (s.heapEnd / 0x1000 - 1) / 1024 =
      slots)
    (hroom : s.placementPointer + 0x1000 * Machine.newTables s.placementPointer slots ≤ 0xA0000) :
    m.GrowthApart (m.heapEnd / 0x1000) ((m.heapEnd + increment) / 0x1000) := by
  obtain ⟨hrep, n, hs⟩ := h
  have hn : n = s.heapEnd / 0x1000 := by
    by_contra hne
    rcases Nat.lt_or_gt_of_ne hne with hlt | hgt
    · exact absurd ((hs.marked_iff n).mp ((hmapped.marked_iff n).mpr hlt)) (Nat.lt_irrefl n)
    · exact absurd ((hmapped.marked_iff _).mp ((hs.marked_iff _).mpr hgt)) (Nat.lt_irrefl _)
  have hframes := Paging.card_frameless_le (s := s) (p := s.heapEnd / 0x1000)
    (e := (s.heapEnd + increment) / 0x1000)
  have htables := Paging.card_tableless_le (e := (s.heapEnd + increment) / 0x1000) hmapped (by omega)
  have hwords : bootApart_32MB.layout.words = 0x40 := by decide
  have hnew := Machine.newTables_mono s.placementPointer (htables.trans hslots.le)
  rw [hrep.heapEnd]
  exact hrep.growthApart ⟨rfl, rfl, by decide⟩ hs (by omega)
    ⟨by rw [hwords]; omega, by omega⟩

end MyaXOS
