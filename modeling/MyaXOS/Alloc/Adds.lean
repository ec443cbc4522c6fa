import MyaXOS.Alloc.Outside

/-!
# Blocks that are added

A function that takes blocks from the heap, writes to them and gives some of them back leaves the
rest of the memory alone, as long as it keeps to its blocks.  That is a statement about bytes: what
somebody else holds, in a block or outside the heap, is what it was.

## What is here

* `AllocRun.Held` is a byte that is not the allocator's: it is outside the heap, or in a block in
  use.  A block is held to its end, also the bytes behind those that were asked for.
* `AllocRun.Adds new s t` says what a function has done that has come from `s` to `t`: the blocks
  `new` are in use besides those of `s`, and every byte that was held in `s` is held in `t` and is
  what it was.  The blocks `new` have none of these bytes.
* `AllocRun.Holds` says that something is true of bytes that are held.  It stays true: `Holds.adds`.
* `Adds` is put together from the calls: `Adds.refl`, `Adds.malloc` for one block, `Adds.write` for
  what is written to a new block, `Adds.free` for a new block that is given back, and `Adds.trans`.

## Why this composes

A byte that is held in `s` is held in `t`, so `t` may be the start of the next function, and what it
leaves alone is what was held in `s` and also what is in the blocks that have been taken since.
This is how a caller knows that what it has written to a block is still there after a call.  The
length of a block is read off its header, which is the allocator's: that it stays the same is a part
of `Adds`.

## `sbrk`

Small sizes ask `sbrk` for one page.  `SbrkBelow` says that it does not return a page at which
addresses wrap around, and `SbrkPages` that it can return a number of pages, one after the other; a
call of `malloc` takes one of them at most (`AllocRun.Inv.malloc_pages`).
-/

set_option autoImplicit false

namespace MyaXOS

variable {σ ρ : Type}

/-- `x` is a byte outside the heap, or of a block in use. -/
def AllocRun.Held (env : AllocEnv σ ρ) (heapEnd : σ → Nat) (s : AllocRun σ ρ) (x : Nat) : Prop :=
  s.Outside env heapEnd x ∨ ∃ b ∈ s.live, b.1 ≤ x ∧ x < b.1 + usable s.heap.mem b.1

/-- From `s` to `t` the blocks `new` have been added to those in use, and every byte that was held
is still held and is what it was. -/
structure AllocRun.Adds (env : AllocEnv σ ρ) (heapEnd : σ → Nat) (Ready : σ → Prop)
    (new : List (Nat × Nat)) (s t : AllocRun σ ρ) : Prop where
  inv : ∃ A, t.Inv env heapEnd Ready A
  live : t.live = new ++ s.live
  held : ∀ x, s.Held env heapEnd x → t.Held env heapEnd x ∧ t.heap.mem x = s.heap.mem x
  usable : ∀ b ∈ s.live, usable t.heap.mem b.1 = usable s.heap.mem b.1
  fresh : ∀ b ∈ new, ∀ x, b.1 ≤ x → x < b.1 + MyaXOS.usable t.heap.mem b.1 →
    ¬ s.Held env heapEnd x

namespace AllocRun.Adds

variable {env : AllocEnv σ ρ} {heapEnd : σ → Nat} {Ready : σ → Prop} {s t u : AllocRun σ ρ}
  {new new' pre post : List (Nat × Nat)} {n ptr x : Nat}

theorem refl {A : Arena} (h : s.Inv env heapEnd Ready A) : Adds env heapEnd Ready [] s s :=
  ⟨⟨A, h⟩, rfl, fun _ hx => ⟨hx, rfl⟩, fun _ _ => rfl, fun _ hb => absurd hb List.not_mem_nil⟩

/-- **One function after the other** adds what both add, and leaves alone what was held at the
start. -/
theorem trans (h : Adds env heapEnd Ready new s t) (h' : Adds env heapEnd Ready new' t u) :
    Adds env heapEnd Ready (new' ++ new) s u where
  inv := h'.inv
  live := by rw [h'.live, h.live, List.append_assoc]
  held x hx := by
    obtain ⟨hx', hsame⟩ := h.held x hx
    obtain ⟨hx'', hsame'⟩ := h'.held x hx'
    exact ⟨hx'', hsame'.trans hsame⟩
  usable b hb := by
    have hb' : b ∈ t.live := h.live ▸ List.mem_append_right new hb
    exact (h'.usable b hb').trans (h.usable b hb)
  fresh b hb x hle hlt hx := by
    rcases List.mem_append.mp hb with hb | hb
    · exact h'.fresh b hb x hle hlt (h.held x hx).1
    · have hb' : b ∈ t.live := h.live ▸ List.mem_append_left s.live hb
      rw [h'.usable b hb'] at hlt
      exact h.fresh b hb x hle hlt hx

/-- A block that has been added is long enough, and its bytes are held. -/
theorem mem_live (h : Adds env heapEnd Ready new s t) (hb : (ptr, n) ∈ new) :
    (ptr, n) ∈ t.live ∧ n ≤ MyaXOS.usable t.heap.mem ptr ∧
      ∀ x, ptr ≤ x → x < ptr + MyaXOS.usable t.heap.mem ptr → t.Held env heapEnd x := by
  obtain ⟨A, hinv⟩ := h.inv
  have hlive : (ptr, n) ∈ t.live := h.live ▸ List.mem_append_left s.live hb
  exact ⟨hlive, hinv.sound.long_enough _ hlive, fun x hle hlt => Or.inr ⟨_, hlive, hle, hlt⟩⟩

/-- **`malloc` adds a block.**  The bytes of the blocks in use are spared, and so are those in front
of the heap, while what the block is made of has not been held by anybody. -/
theorem malloc {A : Arena} (h : s.Inv env heapEnd Ready A)
    (hsbrk : SbrkFresh env.sbrk heapEnd Ready)
    (hn : 0 < n)
    (hfits : CallsSbrk env n s.heap → heapEnd s.heap.os + sbrkIncrement n < 0x100000000)
    (hok : s.malloc env heapEnd n = .ok (ptr, t)) :
    ptr ≠ 0 ∧ Adds env heapEnd Ready [(ptr, n)] s t := by
  obtain ⟨⟨ptr', heap⟩, hmalloc, hok⟩ := bind_eq_ok hok
  cases hok
  obtain ⟨hne, hlive, ⟨B, hinv⟩, hkept⟩ := h.allotted hsbrk hn hfits hmalloc
  refine ⟨hne, ⟨B, hinv⟩, hlive, fun x hx => ?_, fun b hb => (hkept b hb).2.1,
    fun b hb x hle hlt hx => ?_⟩
  · rcases hx with hout | ⟨b, hb, hle, hlt⟩
    · obtain ⟨hout', hsame⟩ := h.klmalloc_outside hsbrk hfits hmalloc ⟨hout, rfl⟩
      exact ⟨Or.inl hout', hsame⟩
    · obtain ⟨-, husable, hsame⟩ := hkept b hb
      refine ⟨Or.inr ⟨b, hlive ▸ List.mem_cons_of_mem _ hb, hle, ?_⟩, hsame x hle hlt⟩
      rw [← husable] at hlt
      exact hlt
  · rw [List.mem_singleton] at hb
    subst hb
    have hmem : (ptr, n) ∈ (s.allotted heapEnd n ptr heap).live := hlive ▸ List.mem_cons_self
    rcases hx with hout | ⟨b, hb, hle', hlt'⟩
    · exact absurd (hinv.outside_lt hmem (hout.allotted hinv)) (Nat.not_lt.mpr hle)
    · have hdisjoint := hinv.sound.disjoint
      rw [hlive] at hdisjoint
      have hapart : Apart ptr (MyaXOS.usable heap.mem ptr) b.1 (MyaXOS.usable heap.mem b.1) :=
        (List.pairwise_cons.mp hdisjoint).1 b hb
      have hlt₁ : x < ptr + MyaXOS.usable heap.mem ptr := hlt
      rw [(hkept b hb).2.1, Apart] at hapart
      simp only at hle
      omega

/-- The headers are not in the block that is written to. -/
theorem usable_write (h : Adds env heapEnd Ready new s t) (hb : (ptr, n) ∈ new) {m : Mem}
    (hsame : ∀ x, x < ptr ∨ ptr + MyaXOS.usable t.heap.mem ptr ≤ x → m x = t.heap.mem x) :
    ∀ b ∈ t.live, MyaXOS.usable m b.1 = MyaXOS.usable t.heap.mem b.1 := by
  obtain ⟨A, hinv⟩ := h.inv
  obtain ⟨-, hinv'⟩ := hinv.spares (h.mem_live hb).1 hsame
  exact fun b hb => hinv.usable_congr hinv' (fun p hp => hp) (fun p _ => rfl) hb

/-- **A new block may be written to**: its bytes were not held at the start, so nothing that `Adds`
promises is touched. -/
theorem write (h : Adds env heapEnd Ready new s t) (hb : (ptr, n) ∈ new) {m : Mem}
    (hsame : ∀ x, x < ptr ∨ ptr + MyaXOS.usable t.heap.mem ptr ≤ x → m x = t.heap.mem x) :
    Adds env heapEnd Ready new s (t.withMem m) := by
  obtain ⟨A, hinv⟩ := h.inv
  obtain ⟨hlive, -, -⟩ := h.mem_live hb
  obtain ⟨-, hinv'⟩ := hinv.spares hlive hsame
  have husable := h.usable_write hb hsame
  refine ⟨⟨A, hinv'⟩, h.live, fun x hx => ?_, fun b hb => ?_, fun b hb x hle hlt => ?_⟩
  · obtain ⟨hx', hsame'⟩ := h.held x hx
    have hout : x < ptr ∨ ptr + MyaXOS.usable t.heap.mem ptr ≤ x := by
      by_contra hin
      exact h.fresh _ hb x (by omega) (by simp only; omega) hx
    refine ⟨hx'.imp id fun hblock => ?_, (hsame x hout).trans hsame'⟩
    obtain ⟨b, hb, hle, hlt⟩ := hblock
    rw [← husable b hb] at hlt
    exact ⟨b, hb, hle, hlt⟩
  · exact (husable b (h.live ▸ List.mem_append_right new hb)).trans (h.usable b hb)
  · have hlt' : x < b.1 + MyaXOS.usable m b.1 := hlt
    rw [husable b (h.live ▸ List.mem_append_left s.live hb)] at hlt'
    exact h.fresh b hb x hle hlt'

/-- **A new block that is given back** is not there any more, and the others that were added still
are. -/
theorem free (h : Adds env heapEnd Ready (pre ++ (ptr, n) :: post) s t)
    (hok : t.free env ptr = .ok u) : Adds env heapEnd Ready (pre ++ post) s u := by
  obtain ⟨heap, hfree, hok⟩ := bind_eq_ok hok
  cases hok
  obtain ⟨A, hinv⟩ := h.inv
  have hmem : (ptr, n) ∈ pre ++ (ptr, n) :: post := by simp
  obtain ⟨hlive, -, -⟩ := h.mem_live hmem
  obtain ⟨heap', B, hfree', hsize, hinv', hspared⟩ := hinv.klfree hlive
  cases hfree.symm.trans hfree'
  have husable : ∀ b ∈ t.live, MyaXOS.usable heap.mem b.1 = MyaXOS.usable t.heap.mem b.1 :=
    fun b hb => hinv.usable_congr hinv' (fun p hp => hp) (fun p _ => by rw [hsize]) hb
  have hleft : (t.live.filter fun b => b.1 ≠ ptr) = pre ++ post ++ s.live := by
    have hnodup := hinv.live_nodup
    rw [h.live, List.append_assoc, List.cons_append, List.map_append, List.map_cons] at hnodup
    have hne : ∀ b ∈ pre ++ (post ++ s.live), decide (b.1 ≠ ptr) = true := fun b hb => by
      rw [decide_eq_true_eq]
      rintro rfl
      have hnot := (List.nodup_middle.mp hnodup).notMem
      rw [← List.map_append] at hnot
      exact hnot (List.mem_map.mpr ⟨b, hb, rfl⟩)
    rw [h.live, List.append_assoc, List.cons_append, List.filter_append,
      List.filter_cons_of_neg (by simp), ← List.filter_append, List.filter_eq_self.mpr hne,
      List.append_assoc]
  have hsub : ∀ b ∈ pre ++ post, b ∈ pre ++ (ptr, n) :: post := fun b hb => by
    rw [List.mem_append] at hb ⊢
    exact hb.imp id (List.mem_cons_of_mem _)
  refine ⟨⟨B, hinv'⟩, hleft, fun x hx => ?_, fun b hb => ?_, fun b hb x hle hlt => ?_⟩
  · obtain ⟨hx', hsame⟩ := h.held x hx
    rcases hx' with hout | ⟨b, hb, hle, hlt⟩
    · obtain ⟨hout', hsame'⟩ := hinv.klfree_outside hlive hfree ⟨hout, rfl⟩
      exact ⟨Or.inl hout', hsame'.trans hsame⟩
    · have hne : b.1 ≠ ptr := by
        intro he
        rw [he] at hle hlt
        exact h.fresh _ hmem x hle hlt hx
      have hb' : b ∈ t.live.filter fun b => b.1 ≠ ptr := List.mem_filter.mpr
        ⟨hb, decide_eq_true hne⟩
      rw [← husable b hb] at hlt
      exact ⟨Or.inr ⟨b, hb', hle, hlt⟩,
        (hspared x (Or.inl (hinv'.data_usable hb' hle hlt))).trans hsame⟩
  · exact (husable b (h.live ▸ List.mem_append_right _ hb)).trans (h.usable b hb)
  · have hlt' : x < b.1 + MyaXOS.usable heap.mem b.1 := hlt
    rw [husable b (h.live ▸ List.mem_append_left s.live (hsub b hb))] at hlt'
    exact h.fresh b (hsub b hb) x hle hlt'

/-- A block that is taken and given back leaves nothing. -/
theorem free_single (h : Adds env heapEnd Ready [(ptr, n)] s t) (hok : t.free env ptr = .ok u) :
    Adds env heapEnd Ready [] s u := by
  have hblock : Adds env heapEnd Ready ([] ++ (ptr, n) :: []) s t := h
  exact hblock.free hok

end AllocRun.Adds

/-! ## What is in the bytes

`Adds` says which bytes stay what they are.  `Holds` is for statements about them: a property of
memories that looks at a range of held bytes only.  It passes through any number of calls by
`Holds.adds`, and no proof about the file system has to say again why an allocation does not disturb
the image or a name. -/

/-- The `k` bytes at `a` are held, and `P` is true of every memory that has these bytes.  So `P`
depends on nothing else, and whatever leaves the held bytes alone leaves `P` true; a string, a node
and the image are all held in this sense, with a `P` of their own. -/
structure AllocRun.Holds (env : AllocEnv σ ρ) (heapEnd : σ → Nat) (s : AllocRun σ ρ) (a k : Nat)
    (P : Mem → Prop) : Prop where
  held : ∀ x, a ≤ x → x < a + k → s.Held env heapEnd x
  same : ∀ m : Mem, (∀ x, a ≤ x → x < a + k → m x = s.heap.mem x) → P m

namespace AllocRun.Holds

variable {env : AllocEnv σ ρ} {heapEnd : σ → Nat} {Ready : σ → Prop} {s t : AllocRun σ ρ}
  {new : List (Nat × Nat)} {a k n ptr : Nat} {P : Mem → Prop}

theorem now (h : s.Holds env heapEnd a k P) : P s.heap.mem := h.same _ fun _ _ _ => rfl

/-- **What is held stays.**  A call adds blocks and leaves the bytes that were held as they are, so
what is said of them is still true. -/
theorem adds (h : s.Holds env heapEnd a k P) (hadds : Adds env heapEnd Ready new s t) :
    t.Holds env heapEnd a k P where
  held x hle hlt := (hadds.held x (h.held x hle hlt)).1
  same m hm := h.same m fun x hle hlt =>
    (hm x hle hlt).trans (hadds.held x (h.held x hle hlt)).2

/-- What is held is not in a new block. -/
theorem apart (h : s.Holds env heapEnd a k P) (hk : 0 < k)
    (hadds : Adds env heapEnd Ready new s t) (hb : (ptr, n) ∈ new)
    (hn : 0 < usable t.heap.mem ptr) : a + k ≤ ptr ∨ ptr + usable t.heap.mem ptr ≤ a := by
  by_contra hoverlap
  have hfresh := hadds.fresh _ hb (max a ptr) (le_max_right _ _)
    (show max a ptr < ptr + usable t.heap.mem ptr by omega)
  exact hfresh (h.held _ (le_max_left _ _) (by omega))

/-- What is written to a new block is held. -/
theorem of_new (hadds : Adds env heapEnd Ready new s t) (hb : (ptr, n) ∈ new)
    (hk : k ≤ usable t.heap.mem ptr)
    (hP : ∀ m : Mem, (∀ x, ptr ≤ x → x < ptr + k → m x = t.heap.mem x) → P m) :
    t.Holds env heapEnd ptr k P :=
  ⟨fun x hle hlt => (hadds.mem_live hb).2.2 x hle (by omega), hP⟩

end AllocRun.Holds

/-! ## Small blocks

When does a call return, and not only what has it done if it returns? `sbrk` may stop, so what has
to be counted is how often it is called.  A block of a small bin takes one page at most, and a block
that is given back takes none; so a number of pages that `sbrk` can still return is enough for a
number of calls. -/

/-- `sbrk` returns no page at which addresses wrap around. -/
def SbrkBelow (sbrk : Nat → σ → Except Stop (Nat × σ)) (heapEnd : σ → Nat) (Ready : σ → Prop) :
    Prop :=
  ∀ os a os', Ready os → sbrk 0x1000 os = .ok (a, os') → heapEnd os + 0x1000 < 0x100000000

/-- `sbrk` can return `k` pages, one after the other. -/
def SbrkPages (sbrk : Nat → σ → Except Stop (Nat × σ)) : Nat → σ → Prop
  | 0, _ => True
  | k + 1, os => ∃ a os', sbrk 0x1000 os = .ok (a, os') ∧ SbrkPages sbrk k os'

section
variable {env : AllocEnv σ ρ} {heapEnd : σ → Nat} {Ready : σ → Prop} {s t : AllocRun σ ρ}
  {A : Arena} {k n ptr : Nat}

theorem SbrkPages.of_succ {sbrk : Nat → σ → Except Stop (Nat × σ)} {os : σ}
    (h : SbrkPages sbrk (k + 1) os) : SbrkPages sbrk k os := by
  induction k generalizing os with
  | zero => trivial
  | succ k ih =>
    obtain ⟨a, os', hsbrk, hrest⟩ := h
    exact ⟨a, os', hsbrk, ih hrest⟩

theorem SbrkPages.mono {k' : Nat} {sbrk : Nat → σ → Except Stop (Nat × σ)} {os : σ}
    (h : SbrkPages sbrk k' os) (hle : k ≤ k') : SbrkPages sbrk k os := by
  induction hle with
  | refl => exact h
  | step _ ih => exact ih h.of_succ

/-- A small block that has been given out had room in the address space. -/
theorem AllocRun.Inv.fits_small (h : s.Inv env heapEnd Ready A)
    (hbelow : SbrkBelow env.sbrk heapEnd Ready) (hn : 0 < n) (hsmall : n ≤ 2048)
    (hok : s.malloc env heapEnd n = .ok (ptr, t)) (hcalls : CallsSbrk env n s.heap) :
    heapEnd s.heap.os + sbrkIncrement n < 0x100000000 := by
  have hbin := (klmallocBinSize_spec hn).1.mpr hsmall
  have hhead := (h.kept.callsSbrk_iff hn).mp hcalls
  rw [if_pos hbin] at hhead
  rw [sbrkIncrement, if_pos hbin]
  obtain ⟨⟨ptr', heap⟩, hmalloc, -⟩ := bind_eq_ok hok
  rcases hsbrk : env.sbrk 0x1000 s.heap.os with e | ⟨a, os⟩
  · cases (Kept.klmalloc_unlisted_error hn hbin hhead hsbrk).symm.trans hmalloc
  · exact hbelow _ a os h.ready hsbrk

theorem AllocRun.Adds.malloc_small (h : s.Inv env heapEnd Ready A)
    (hsbrk : SbrkFresh env.sbrk heapEnd Ready) (hbelow : SbrkBelow env.sbrk heapEnd Ready)
    (hn : 0 < n) (hsmall : n ≤ 2048) (hok : s.malloc env heapEnd n = .ok (ptr, t)) :
    ptr ≠ 0 ∧ AllocRun.Adds env heapEnd Ready [(ptr, n)] s t :=
  AllocRun.Adds.malloc h hsbrk hn (h.fits_small hbelow hn hsmall hok) hok

/-- **A small block takes one page at most.**  If a page of its bin has a free block then it takes
none, and otherwise `sbrk` is called once. -/
theorem AllocRun.Inv.malloc_pages (h : s.Inv env heapEnd Ready A)
    (hsbrk : SbrkFresh env.sbrk heapEnd Ready) (hbelow : SbrkBelow env.sbrk heapEnd Ready)
    (hn : 0 < n) (hsmall : n ≤ 2048) (hpages : SbrkPages env.sbrk (k + 1) s.heap.os) :
    ∃ ptr t, s.malloc env heapEnd n = .ok (ptr, t) ∧ SbrkPages env.sbrk k t.heap.os := by
  have hbin := (klmallocBinSize_spec hn).1.mpr hsmall
  have hincrement : sbrkIncrement n = 0x1000 := if_pos hbin
  have hasked : askedIncrement n = 0x1000 := if_pos hbin
  obtain ⟨a, os, hos, hrest⟩ := hpages
  have hfits : CallsSbrk env n s.heap → heapEnd s.heap.os + sbrkIncrement n < 0x100000000 :=
    fun _ => hincrement ▸ hbelow _ a os h.ready hos
  rcases h.klmalloc hsbrk hn (h.round hn hfits) hfits with
    ⟨ptr, heap, -, hmalloc, -⟩ | ⟨e, -, -, he⟩
  · refine ⟨ptr, s.allotted heapEnd n ptr heap, by rw [AllocRun.malloc, hmalloc, ok_bind], ?_⟩
    show SbrkPages env.sbrk k heap.os
    rcases klmalloc_os hmalloc with hsame | ⟨a', hos'⟩
    · rw [hsame]
      exact SbrkPages.of_succ ⟨a, os, hos, hrest⟩
    · rw [hasked] at hos'
      cases hos.symm.trans hos'
      exact hrest
  · rw [hincrement] at he
    cases hos.symm.trans he

/-- **`free` takes none**: it returns for every block in use, and does not call `sbrk`, so that the
pages which are left are as many as before. -/
theorem AllocRun.Inv.free_pages (h : s.Inv env heapEnd Ready A) (hlive : (ptr, n) ∈ s.live) :
    ∃ t, s.free env ptr = .ok t ∧ t.heap.os = s.heap.os := by
  obtain ⟨heap, B, hfree, -⟩ := h.klfree hlive
  exact ⟨_, by rw [AllocRun.free, hfree, ok_bind], h.klfree_os hlive hfree⟩

end

/-! ## Reached states

States at the end of a run in which nothing has been overrun.  They have an arena, and from one that
is reached one gets to others by a call of `malloc` or by writing to a block.  This is how a state
with a certain memory, such as one with a path in a block, is shown to be reached. -/

/-- A state at the end of a run of valid calls in which every copy of `kopen` has room for its
terminator, and no block is moved to a lower bin. -/
def AllocRun.Reached (env : AllocEnv σ ρ) (heapEnd : σ → Nat) (Ready : σ → Prop)
    (s : AllocRun σ ρ) : Prop :=
  ∃ s₀ calls, s₀.Start env heapEnd Ready ∧
    Runs.Leads (KernelCall.step env heapEnd)
      (fun call s => (call.Valid env heapEnd s ∧ call.TerminatorFits s) ∧ call.KeepsBin s)
      calls s₀ s

namespace AllocRun.Reached

variable {env : AllocEnv σ ρ} {heapEnd : σ → Nat} {Ready : σ → Prop} {s t : AllocRun σ ρ}
  {n ptr : Nat}

theorem inv (h : s.Reached env heapEnd Ready) (hsbrk : SbrkFresh env.sbrk heapEnd Ready) :
    ∃ A, s.Inv env heapEnd Ready A := by
  obtain ⟨s₀, calls, hstart, hleads⟩ := h
  exact (Runs.along_always (KernelCall.step_exists_inv hsbrk) ⟨_, hstart.inv hsbrk⟩
    hleads.along).last hleads.run

theorem of_start (h : s.Start env heapEnd Ready) : s.Reached env heapEnd Ready :=
  ⟨s, [], h, Runs.Leads.refl s⟩

theorem malloc (h : s.Reached env heapEnd Ready) (hvalid : (AllocCall.malloc n).Valid env heapEnd s)
    (hok : s.malloc env heapEnd n = .ok (ptr, t)) : t.Reached env heapEnd Ready := by
  obtain ⟨s₀, calls, hstart, hleads⟩ := h
  obtain ⟨⟨ptr', heap⟩, hmalloc, hok⟩ := bind_eq_ok hok
  cases hok
  refine ⟨s₀, _, hstart,
    hleads.snoc (o := KernelCall.alloc (.malloc n)) ⟨⟨hvalid, trivial⟩, trivial⟩ ?_⟩
  rw [KernelCall.step, AllocCall.step, hmalloc]
  rfl

/-- What is in a block may be written byte by byte. -/
theorem write (h : s.Reached env heapEnd Ready) (hlive : (ptr, n) ∈ s.live) {m : Mem}
    (hsame : ∀ x, x < ptr ∨ ptr + n ≤ x → m x = s.heap.mem x) :
    (s.withMem m).Reached env heapEnd Ready := by
  have hbytes : ∀ k ≤ n, (s.withMem fun x => if ptr ≤ x ∧ x < ptr + k then m x else
      s.heap.mem x).Reached env heapEnd Ready := by
    intro k hk
    induction k with
    | zero =>
      have hnone : (fun x => if ptr ≤ x ∧ x < ptr + 0 then m x else s.heap.mem x) = s.heap.mem :=
        funext fun x => if_neg (by omega)
      rw [hnone]
      exact h
    | succ k ih =>
      obtain ⟨s₀, calls, hstart, hleads⟩ := ih (Nat.le_of_succ_le hk)
      refine ⟨s₀, _, hstart, hleads.snoc (o := KernelCall.alloc (.write (ptr + k) (m (ptr + k))))
        ⟨⟨⟨ptr, n, hlive, Nat.le_add_right .., by omega⟩, trivial⟩, trivial⟩ ?_⟩
      have hbyte : Mem.store8 (fun x => if ptr ≤ x ∧ x < ptr + k then m x else s.heap.mem x)
          (ptr + k) (m (ptr + k)) =
            fun x => if ptr ≤ x ∧ x < ptr + (k + 1) then m x else s.heap.mem x := by
        funext x
        by_cases hx : x = ptr + k
        · rw [hx, Mem.store8_self, if_pos (by omega)]
        · rw [Mem.store8_of_ne _ hx]
          simp only [show ptr ≤ x ∧ x < ptr + (k + 1) ↔ ptr ≤ x ∧ x < ptr + k by omega]
      rw [← hbyte]
      rfl
  have hall : (fun x => if ptr ≤ x ∧ x < ptr + n then m x else s.heap.mem x) = m := by
    funext x
    by_cases hx : ptr ≤ x ∧ x < ptr + n
    · rw [if_pos hx]
    · rw [if_neg hx, hsame x (by omega)]
  rw [← hall]
  exact hbytes n le_rfl

end AllocRun.Reached

/-! ## In the kernel

What the lemmas of this file ask of `sbrk`, for the kernel with 32 MB. -/

theorem kernel_sbrk_below : SbrkBelow kernelEnv.sbrk Paging.heapEnd KernelReady := by
  intro os a os' h _
  have hle := h.heapEnd_le
  omega

theorem KernelReady.pages {k : Nat} {os : Paging} (h : KernelReady os)
    (hend : os.heapEnd + 0x1000 * k ≤ 0x1000000) : SbrkPages kernelEnv.sbrk k os := by
  induction k generalizing os with
  | zero => trivial
  | succ k ih =>
    have hstep : os.heapEnd + 0x1000 + 0x1000 * k ≤ 0x1000000 := by
      rwa [Nat.mul_succ, Nat.add_comm (0x1000 * k), ← Nat.add_assoc] at hend
    obtain ⟨os', hsbrk, hready, hend'⟩ := kernel_sbrk h (show 0x1000 % 0x1000 = 0 by decide)
      ((Nat.le_add_right _ _).trans hstep)
    exact ⟨_, os', hsbrk, ih hready (hend' ▸ hstep)⟩

/-- A small block may be asked for in this kernel. -/
theorem KernelReady.valid_small {n : Nat} {s : AllocRun Paging SkipRand}
    (h : KernelReady s.heap.os) (hn : 0 < n) (hsmall : n ≤ 2048) :
    (AllocCall.malloc n).Valid kernelEnv Paging.heapEnd s := by
  refine ⟨by omega, fun _ => ?_⟩
  have hle := h.heapEnd_le
  rw [sbrkIncrement, if_pos ((klmallocBinSize_spec hn).1.mpr hsmall)]
  omega

end MyaXOS
