import MyaXOS.Mem.Paging

/-!
# `sbrk`, on separate objects

`heap_install` makes the placement pointer the end of the heap and sets it to 0.  From then on the
heap grows by `sbrk`, which maps the new pages one by one, and `get_page` places the tables it has
to make from address 0 on.  This file has what each of these calls does to the objects of the pager;
`MyaXOS.Mem.FlatHeap` has the runs of such calls, on the bytes of one memory.

## The two views of the directory

`ViewsAgree` relates `tables`, by which `get_page` finds a table, and `physical_tables`, by which
the processor does.  A new table is entered in both, so there is only one way in which they can come
to differ: the table that is placed at address 0 is entered in `tables` as `NULL`.  `CanMake` is the
condition under which `get_page` does not do that.  `sbrk` asks for each page twice.  If the first
of the two calls has placed a table at 0, then the second does not find it, makes another one behind
it and enters that, and the views agree again (`ViewsAgree.getPage_getPage`).

## Mapping in order

As long as nothing but `sbrk` has mapped pages, the page at the end of the heap is the first one
without a frame, and the first frame that is free has its number: `Mapped` is the invariant, and
`sbrkLoop_eq` follows the loop with it.  `sbrk_eq` and `sbrk_carry` say all that `sbrk` can do from
there: it returns, or it is out of frames, or `heap_end + increment` has a carry.  Nothing in `sbrk`
looks at this carry.  The loop does not run at all, and the end of the heap has moved down.
-/

set_option autoImplicit false

namespace MyaXOS

namespace Paging

/-- The loop of `sbrk`, from address `i` on. -/
def sbrkLoop : Nat → Nat → Paging → Except Stop Paging
  | 0, _, _ => .error .spin
  | fuel + 1, i, s =>
    if i < s.heapEnd then
      match mapPage i (getPage i true s).2 with
      | .ok s => sbrkLoop fuel (u32 (i + 0x1000)) s
      | .error e => .error e
    else .ok s

/-- `sbrk(increment)`: the address it returns, and the state after. -/
def sbrk (fuel increment : Nat) (s : Paging) : Except Stop (Nat × Paging) :=
  match assert (increment % 0x1000 = 0) "increment % 0x1000 == 0" with
  | .error e => .error e
  | .ok () =>
    let address := s.heapEnd
    match sbrkLoop fuel address { s with heapEnd := u32 (s.heapEnd + increment) } with
    | .ok s => .ok (address, s)
    | .error e => .error e

/-! ## The two views of the directory

`tables[slot]` is an address that the pager follows, and `physical_tables[slot]` is the word that
the processor reads.  They are written at one place in the code, one after the other, and a table at
address 0 is the only one for which the first looks like no table.  The next table is at 0x1000, so
at most one slot is ever wrong, and only until `get_page` is called for it once more. -/

/-- A slot has a table exactly if the processor sees one, and then both views name the same. -/
def ViewsAgree (s : Paging) : Prop :=
  ∀ k, (s.tables k ≠ 0 ↔ (s.physicalTables k).testBit 0 = true) ∧
    (s.tables k ≠ 0 → s.physicalTables k = s.tables k ||| 0x7)

/-- The views agree except perhaps at one slot.  While `sbrk` makes a table at address 0 they do not
agree at its slot, until the table is made once more. -/
def ViewsAgreeOff (slot : Nat) (s : Paging) : Prop :=
  ∀ k, k ≠ slot → (s.tables k ≠ 0 ↔ (s.physicalTables k).testBit 0 = true) ∧
    (s.tables k ≠ 0 → s.physicalTables k = s.tables k ||| 0x7)

/-- The page at an address has a table, or its table would not be placed at 0. -/
def CanMake (a : Nat) (s : Paging) : Prop :=
  s.tables (a / 0x1000 / 1024) ≠ 0 ∨ s.placementPointer ≠ 0

variable {s : Paging} {slot a : Nat}

theorem testBit_or_seven (x : Nat) : (x ||| 0x7).testBit 0 = true := by
  rw [Nat.testBit_or, show Nat.testBit 0x7 0 = true from rfl, Bool.or_true]

theorem placed_eq_zero {pointer : Nat} : (kvmallocP pointer 0x1000).address = 0 ↔ pointer = 0 := by
  simp only [kvmallocP, kmallocReal, true_and]
  split
  · next h =>
    refine ⟨fun h0 => absurd h0 h, fun h0 => ?_⟩
    rw [h0, Nat.zero_and]
  · exact Iff.rfl

theorem makeTable_tables_self : (s.makeTable slot).tables slot = 0 ↔ s.placementPointer = 0 := by
  rw [makeTable]
  simp only [if_pos]
  exact placed_eq_zero

theorem makeTable_pointer_of_zero (h : s.placementPointer = 0) :
    (s.makeTable slot).placementPointer = 0x1000 := by
  simp only [makeTable, kvmallocP, h, kmallocReal_low (show 0 < 0x1000 by decide)]
  decide

theorem ViewsAgree.off (h : ViewsAgree s) : ViewsAgreeOff slot s := fun k _ => h k

theorem ViewsAgreeOff.makeTable (h : ViewsAgreeOff slot s) :
    ViewsAgreeOff slot (s.makeTable slot) := by
  intro k hk
  simpa only [Paging.makeTable, if_neg hk] using h k hk

/-- A table that is not placed at 0 is seen in both views. -/
theorem ViewsAgreeOff.makeTable_agree (h : ViewsAgreeOff slot s) (hp : s.placementPointer ≠ 0) :
    ViewsAgree (s.makeTable slot) := by
  intro k
  by_cases hk : k = slot
  · subst hk
    have hne : (s.makeTable k).tables k ≠ 0 := fun h0 => hp (makeTable_tables_self.mp h0)
    have hphys : (s.makeTable k).physicalTables k = (s.makeTable k).tables k ||| 0x7 := by
      simp only [Paging.makeTable, if_pos, kvmallocP, kmallocReal, Option.getD_some]
    rw [hphys]
    exact ⟨⟨fun _ => testBit_or_seven _, fun _ => hne⟩, fun _ => rfl⟩
  · simpa only [Paging.makeTable, if_neg hk] using h k hk

theorem ViewsAgree.getPage (h : ViewsAgree s) (hmake : CanMake a s) :
    ViewsAgree (getPage a true s).2 := by
  by_cases ht : s.tables (a / 0x1000 / 1024) ≠ 0
  · rwa [getPage_of_table ht]
  · rw [getPage_make (Decidable.not_not.mp ht)]
    exact h.off.makeTable_agree (hmake.resolve_left ht)

theorem canMake_getPage : CanMake a (getPage a true s).2 := by
  by_cases ht : s.tables (a / 0x1000 / 1024) ≠ 0
  · rw [getPage_of_table ht]
    exact Or.inl ht
  · rw [getPage_make (Decidable.not_not.mp ht)]
    by_cases hp : s.placementPointer = 0
    · refine Or.inr ?_
      rw [makeTable_pointer_of_zero hp]
      decide
    · exact Or.inl fun h0 => hp (makeTable_tables_self.mp h0)

theorem getPage_tables (h : CanMake a s) :
    (getPage a true s).2.tables (a / 0x1000 / 1024) ≠ 0 := by
  by_cases ht : s.tables (a / 0x1000 / 1024) ≠ 0
  · rwa [getPage_of_table ht]
  · rw [getPage_make (Decidable.not_not.mp ht)]
    exact fun h0 => h.resolve_left ht (makeTable_tables_self.mp h0)

/-- **The second `get_page` of `sbrk` makes up for the first.**  If the first has placed a table at
0 then the second places another at 0x1000, in both views of the same slot. -/
theorem ViewsAgree.getPage_getPage (h : ViewsAgree s) :
    ViewsAgree (Paging.getPage a true (Paging.getPage a true s).2).2 := by
  by_cases hmake : CanMake a s
  · exact (h.getPage hmake).getPage canMake_getPage
  · have ht : s.tables (a / 0x1000 / 1024) = 0 :=
      Decidable.not_not.mp fun hc => hmake (Or.inl hc)
    have hp : s.placementPointer = 0 := Decidable.not_not.mp fun hc => hmake (Or.inr hc)
    have ht' : (s.makeTable (a / 0x1000 / 1024)).tables (a / 0x1000 / 1024) = 0 :=
      makeTable_tables_self.mpr hp
    rw [getPage_make ht, getPage_make ht']
    refine h.off.makeTable.makeTable_agree ?_
    rw [makeTable_pointer_of_zero hp]
    decide

/-- `alloc_frame` does not touch the directory. -/
theorem mapPage_directory {s' : Paging} (h : mapPage a s = .ok s') :
    s'.tables = (Paging.getPage a true s).2.tables ∧
      s'.physicalTables = (Paging.getPage a true s).2.physicalTables := by
  rw [mapPage] at h
  split at h
  · next e t heq =>
    rw [Paging.allocFrame] at h
    split at h
    · cases h
      rw [heq]
      exact ⟨rfl, rfl⟩
    · cases h
  · cases h

theorem ViewsAgree.mapPage {s' : Paging} (h : ViewsAgree (Paging.getPage a true s).2)
    (hs : mapPage a s = .ok s') : ViewsAgree s' := by
  obtain ⟨ht, hp⟩ := mapPage_directory hs
  rwa [ViewsAgree, ht, hp]

theorem ViewsAgree.sbrkLoop : ∀ {fuel i : Nat} {s s' : Paging}, ViewsAgree s →
    sbrkLoop fuel i s = .ok s' → ViewsAgree s'
  | 0, _, _, _, _, hs => by cases hs
  | fuel + 1, i, s, s', h, hs => by
    rw [Paging.sbrkLoop] at hs
    split at hs
    · split at hs
      · next t ht =>
        exact ViewsAgree.sbrkLoop (h.getPage_getPage.mapPage ht) hs
      · cases hs
    · cases hs
      exact h

/-- Nothing that boot does is a problem: the loop of `paging_install` runs only while the placement
pointer is above the address it has reached. -/
theorem ViewsAgree.mapLoop : ∀ {fuel i : Nat} {s s' : Paging}, ViewsAgree s →
    mapLoop fuel i s = .ok s' → ViewsAgree s'
  | 0, _, _, _, _, hs => by cases hs
  | fuel + 1, i, s, s', h, hs => by
    rw [Paging.mapLoop] at hs
    split at hs
    · next hi =>
      split at hs
      · next t ht =>
        have hmake : CanMake i s := Or.inr (by omega)
        exact ViewsAgree.mapLoop ((h.getPage hmake).mapPage ht) hs
      · cases hs
    · cases hs
      exact h

theorem viewsAgree_pagingInstall {fuel memsize : Nat} {s s' : Paging}
    (h : pagingInstall fuel memsize s = .ok s') : ViewsAgree s' :=
  ViewsAgree.mapLoop (fun k => by simp [prepare]) h

theorem ViewsAgree.sbrk {fuel increment address : Nat} {s s' : Paging} (h : ViewsAgree s)
    (hs : s.sbrk fuel increment = .ok (address, s')) : ViewsAgree s' := by
  rw [Paging.sbrk] at hs
  split at hs
  · cases hs
  · simp only at hs
    split at hs
    · next t ht =>
      cases hs
      refine ViewsAgree.sbrkLoop ?_ ht
      exact h
    · cases hs

/-- Boot with 32 MB of memory and nothing placed so far. -/
theorem boot_32MB (fuel : Nat) (hfuel : 516 < fuel) :
    ∃ s₁, Paging.pagingInstall fuel 0x8000 (Paging.unset 0x200F00) = .ok s₁ ∧
    Paging.Booting 0x203000 1 516 s₁ ∧ s₁.placementPointer = 0x204000 := by
  have hbase : Paging.tableBase 0x8000 0x200F00 = 0x203000 := by decide
  have htables : Paging.bootTables 0x8000 0x200F00 = 1 := by decide
  have hpages : Paging.bootPages 0x8000 0x200F00 = 516 := by decide
  have hboot := Paging.pagingInstall_booting fuel 0x8000 (s := Paging.unset 0x200F00) (by decide)
    (by decide) (by rwa [← hpages] at hfuel)
  rw [show (Paging.unset 0x200F00).placementPointer = 0x200F00 from rfl, hbase, htables, hpages,
    if_pos (by decide)] at hboot
  exact hboot

/-! ## Mapping in order

`heap_install` puts the end of the heap where boot has stopped mapping, so `sbrk` goes on in the
order that `Mapped` asks for.  It calls `get_page` twice for each page, which makes up for a table
at address 0. -/

theorem Mapped.of_heapEnd {n heapEnd pointer : Nat} {s : Paging} (h : Mapped n s) :
    Mapped n { s with heapEnd := heapEnd, placementPointer := pointer } :=
  ⟨h.marked_iff, h.table, h.mapped, h.unmapped⟩

/-- The heap starts behind what boot has mapped. -/
theorem Booting.heapInstall {base t n : Nat} {s : Paging} (h : Booting base t n s)
    (hn : s.placementPointer = 0x1000 * n) :
    Mapped (s.heapInstall.heapEnd / 0x1000) s.heapInstall ∧ s.heapInstall.heapEnd % 0x1000 = 0 ∧
      s.heapInstall.heapEnd < 0x100000000 := by
  have hend : s.heapInstall.heapEnd = 0x1000 * n := hn
  have hlt := h.pointer_lt
  rw [hend, show 0x1000 * n / 0x1000 = n by omega]
  exact ⟨h.toMapped.of_heapEnd, by omega, by omega⟩

theorem heapEnd_getPage {s : Paging} {a : Nat} : (getPage a true s).2.heapEnd = s.heapEnd := by
  by_cases ht : s.tables (a / 0x1000 / 1024) ≠ 0
  · rw [getPage_of_table ht]
  · rw [getPage_make (Decidable.not_not.mp ht)]
    simp only [makeTable]

theorem nframes_getPage {s : Paging} {a : Nat} : (getPage a true s).2.nframes = s.nframes := by
  by_cases ht : s.tables (a / 0x1000 / 1024) ≠ 0
  · rw [getPage_of_table ht]
  · rw [getPage_make (Decidable.not_not.mp ht)]
    simp only [makeTable]

/-- **The loop of `sbrk`** maps the pages up to the new end if there are frames for them, and halts
otherwise. -/
theorem sbrkLoop_eq {m : Nat} (hm : m < 0x100000) : ∀ {fuel n : Nat} {s : Paging}, Mapped n s →
    s.heapEnd = m * 0x1000 → n ≤ m → m - n < fuel →
    if n = m ∨ m ≤ indexFromBit s.nframes * 0x20 then
      ∃ s', sbrkLoop fuel (n * 0x1000) s = .ok s' ∧ Mapped m s' ∧ s'.heapEnd = s.heapEnd ∧
        s'.nframes = s.nframes
    else sbrkLoop fuel (n * 0x1000) s =
      .error (.halt "Failed to allocate a frame: out of frames")
  | 0, _, _, _, _, _, hfuel => absurd hfuel (Nat.not_lt_zero _)
  | fuel + 1, n, s, h, hend, hle, hfuel => by
    rw [sbrkLoop]
    rcases Nat.lt_or_ge n m with hlt | hge
    · have hfirst : Mapped n (getPage (n * 0x1000) true s).2 := h.getPage
      have htable : (getPage (n * 0x1000) true
          (getPage (n * 0x1000) true s).2).2.tables (n / 1024) ≠ 0 := by
        have := getPage_tables (canMake_getPage (s := s) (a := n * 0x1000))
        rwa [show n * 0x1000 / 0x1000 / 1024 = n / 1024 by omega] at this
      rw [if_pos (show n * 0x1000 < s.heapEnd by omega), hfirst.mapPage (by omega) htable,
        nframes_getPage]
      by_cases hframe : n < indexFromBit s.nframes * 0x20
      · have hi : u32 (n * 0x1000 + 0x1000) = (n + 1) * 0x1000 := by
          rw [u32_eq (show n * 0x1000 + 0x1000 < 0x100000000 by omega)]
          omega
        obtain ⟨s₁, hs₁⟩ : ∃ s₁, s₁ = (getPage (n * 0x1000) true
          (getPage (n * 0x1000) true s).2).2.mapNext n := ⟨_, rfl⟩
        have hnext : Mapped (n + 1) s₁ := hs₁ ▸ hfirst.getPage.mapNext htable (by omega)
        have hend₁ : s₁.heapEnd = s.heapEnd := by
          rw [hs₁, mapNext, heapEnd_getPage, heapEnd_getPage]
        have hframes₁ : s₁.nframes = s.nframes := by
          rw [hs₁, mapNext, nframes_getPage, nframes_getPage]
        have hcond : n = m ∨ m ≤ indexFromBit s.nframes * 0x20 ↔
            n + 1 = m ∨ m ≤ indexFromBit s.nframes * 0x20 := by omega
        have ih := sbrkLoop_eq hm hnext (hend₁.trans hend) hlt (show m - (n + 1) < fuel by omega)
        rw [if_pos hframe, ← hs₁]
        simp only [hi, hcond]
        rwa [hframes₁, hend₁] at ih
      · rw [if_neg hframe, if_neg (show ¬ (n = m ∨ m ≤ indexFromBit s.nframes * 0x20) by omega)]
    · obtain rfl : n = m := by omega
      rw [if_neg (show ¬ n * 0x1000 < s.heapEnd by omega), if_pos (Or.inl rfl)]
      exact ⟨s, rfl, h, rfl, rfl⟩

variable {fuel increment : Nat} {s : Paging}

/-- **`sbrk` without a carry** returns if there are frames for the new pages. -/
theorem sbrk_eq (h : Mapped (s.heapEnd / 0x1000) s) (haligned : s.heapEnd % 0x1000 = 0)
    (hinc : increment % 0x1000 = 0) (hfit : s.heapEnd + increment < 0x100000000)
    (hfuel : 0x100000 < fuel) :
    if increment = 0 ∨ s.heapEnd + increment ≤ indexFromBit s.nframes * 0x20 * 0x1000 then
      ∃ s', s.sbrk fuel increment = .ok (s.heapEnd, s') ∧
        Mapped ((s.heapEnd + increment) / 0x1000) s' ∧ s'.heapEnd = s.heapEnd + increment ∧
        s'.nframes = s.nframes
    else s.sbrk fuel increment = .error (.halt "Failed to allocate a frame: out of frames") := by
  have hrounds : (s.heapEnd + increment) / 0x1000 - s.heapEnd / 0x1000 < fuel := by omega
  have hloop := sbrkLoop_eq (by omega) (s := { s with heapEnd := s.heapEnd + increment })
    h.of_heapEnd (by simp only; omega) (by omega) hrounds
  have hcond : s.heapEnd / 0x1000 = (s.heapEnd + increment) / 0x1000 ∨
      (s.heapEnd + increment) / 0x1000 ≤ indexFromBit s.nframes * 0x20 ↔
      increment = 0 ∨ s.heapEnd + increment ≤ indexFromBit s.nframes * 0x20 * 0x1000 := by omega
  simp only [hcond] at hloop
  rw [show s.heapEnd / 0x1000 * 0x1000 = s.heapEnd by omega] at hloop
  simp only [sbrk, assert_eq_ok hinc, u32_eq hfit]
  split
  · next hframes =>
    rw [if_pos hframes] at hloop
    obtain ⟨s', hs', hmapped, hend, hframes'⟩ := hloop
    rw [hs']
    exact ⟨s', rfl, hmapped, hend, hframes'⟩
  · next hframes =>
    rw [if_neg hframes] at hloop
    rw [hloop]

theorem sbrk_mapped (h : Mapped (s.heapEnd / 0x1000) s) (haligned : s.heapEnd % 0x1000 = 0)
    (hinc : increment % 0x1000 = 0) (hfit : s.heapEnd + increment < 0x100000000)
    (hfuel : 0x100000 < fuel) :
    (∃ s', s.sbrk fuel increment = .ok (s.heapEnd, s') ∧
      Mapped ((s.heapEnd + increment) / 0x1000) s' ∧ s'.heapEnd = s.heapEnd + increment) ∨
    s.sbrk fuel increment = .error (.halt "Failed to allocate a frame: out of frames") := by
  have hsbrk := sbrk_eq h haligned hinc hfit hfuel
  split at hsbrk
  · obtain ⟨s', hs', hmapped, hend, -⟩ := hsbrk
    exact Or.inl ⟨s', hs', hmapped, hend⟩
  · exact Or.inr hsbrk

/-- With a carry, the loop does not run at all and the end of the heap moves down. -/
theorem sbrk_carry (fuel increment : Nat) (hlt : s.heapEnd < 0x100000000)
    (hinc : increment % 0x1000 = 0) (hinc_lt : increment < 0x100000000)
    (hcarry : 0x100000000 ≤ s.heapEnd + increment) (hfuel : 0 < fuel) :
    s.sbrk fuel increment =
      .ok (s.heapEnd, { s with heapEnd := s.heapEnd + increment - 0x100000000 }) := by
  obtain ⟨fuel, rfl⟩ : ∃ k, fuel = k + 1 := ⟨fuel - 1, by omega⟩
  have hend : u32 (s.heapEnd + increment) = s.heapEnd + increment - 0x100000000 := by
    simp only [u32]
    omega
  simp only [sbrk, assert_eq_ok hinc, hend, sbrkLoop]
  rw [if_neg (by omega)]

theorem heapEnd_mapPage {a : Nat} {s' : Paging} (h : mapPage a s = .ok s') :
    s'.heapEnd = s.heapEnd := by
  rw [mapPage] at h
  split at h
  · next entry s₁ hget =>
    rw [Paging.allocFrame] at h
    split at h
    · cases h
      exact (congrArg (fun r => r.2.heapEnd) hget).symm.trans heapEnd_getPage
    · cases h
  · cases h

theorem nframes_mapPage {a : Nat} {s' : Paging} (h : mapPage a s = .ok s') :
    s'.nframes = s.nframes := by
  rw [mapPage] at h
  split at h
  · next entry s₁ hget =>
    rw [Paging.allocFrame] at h
    split at h
    · cases h
      exact (congrArg (fun r => r.2.nframes) hget).symm.trans nframes_getPage
    · cases h
  · cases h

theorem nframes_mapLoop : ∀ {fuel i : Nat} {s s' : Paging}, mapLoop fuel i s = .ok s' →
    s'.nframes = s.nframes
  | 0, _, _, _, hs => by cases hs
  | fuel + 1, i, s, s', hs => by
    rw [mapLoop] at hs
    split at hs
    · split at hs
      · next t ht => exact (nframes_mapLoop hs).trans (nframes_mapPage ht)
      · cases hs
    · cases hs
      rfl

/-- `paging_install` sets the number of frames. -/
theorem nframes_pagingInstall {memsize : Nat} {s' : Paging}
    (h : pagingInstall fuel memsize s = .ok s') : s'.nframes = memsize / 4 := nframes_mapLoop h

end Paging

end MyaXOS
