import MyaXOS.Alloc.Kernel

/-!
# What the allocator promises

The results about runs of `malloc` and `free`, with writes to the blocks in use in between.

* `alloc_sound`: a run of valid calls keeps the promise, and only `sbrk` can stop it.
* `malloc_fit`: in every state that such a run leads to, `malloc` grows the heap only if nothing
  free fits, and where a freed big block fits it returns one that fits best.

Both are read off the invariant of a run, which every call keeps (`AllocCall.step_inv`).  That
`sbrk` is called has been traced to the free blocks already: for a small size the list of its bin is
empty (`Kept.callsSbrk_iff`), and a page of this bin that is in no list has all its blocks in use
(`AllocRun.Inv.full`); for a large one nothing in the skip list is large enough, and the skip list
has the freed big blocks (`AllocRun.Inv.freedBig_iff`), sorted, so that the first which fits fits
best.
-/

set_option autoImplicit false

namespace MyaXOS

variable {σ ρ : Type}

/-- **The allocator is sound.**  In a run of valid calls the blocks in use never overlap each other,
a header or a free block, and each is as long as was asked for; and no assertion fails: if the run
stops, then in a call of `sbrk`. -/
theorem alloc_sound (env : AllocEnv σ ρ) (heapEnd : σ → Nat) (Ready : σ → Prop)
    (hsbrk : SbrkFresh env.sbrk heapEnd Ready) (s : AllocRun σ ρ)
    (hstart : s.Start env heapEnd Ready) (calls : List AllocCall)
    (hvalid : Runs.Along (AllocCall.step env heapEnd) (AllocCall.Valid env heapEnd) calls s) :
    Runs.Always (AllocCall.step env heapEnd) (AllocSound env) calls s ∧
    ∀ e, Runs.run (AllocCall.step env heapEnd) calls s = .error e →
      ∃ increment os, Ready os ∧ increment % 0x1000 = 0 ∧ heapEnd os + increment < 0x100000000 ∧
        env.sbrk increment os = .error e := by
  constructor
  · exact (hstart.always hsbrk hvalid).imp fun s ⟨A, hA⟩ => hA.sound
  · intro e he
    refine Runs.run_error_of_along (I := fun s => ∃ A, s.Inv env heapEnd Ready A)
      (Q := fun e => ∃ increment os, Ready os ∧ increment % 0x1000 = 0 ∧
        heapEnd os + increment < 0x100000000 ∧ env.sbrk increment os = .error e)
      (fun call s s' hinv hcall hs => ?_) (fun call _ s e hinv hcall hs => ?_)
      ⟨_, hstart.inv hsbrk⟩ hvalid he
    · obtain ⟨A, hA⟩ := hinv
      rcases AllocCall.step_inv hA hsbrk hcall with ⟨t, B, ht, hB⟩ | ⟨_, e, he, -⟩
      · cases hs.symm.trans ht
        exact ⟨B, hB⟩
      · cases hs.symm.trans he
    · obtain ⟨A, hA⟩ := hinv
      rcases AllocCall.step_inv hA hsbrk hcall with
        ⟨t, B, ht, -⟩ | ⟨increment, e', he', hinc, hfits, hs'⟩
      · cases hs.symm.trans ht
      · cases hs.symm.trans he'
        exact ⟨increment, s.heap.os, hA.ready, hinc, hfits, hs'⟩

/-- The three big blocks are given back, and then two blocks are taken once more.  The run returns.
-/
theorem alloc_sound_32MB : ∃ os a b c,
    Runs.Always (AllocCall.step kernelEnv Paging.heapEnd) (AllocSound kernelEnv)
      (threeFreed a b c ++ [.malloc 4500] ++ [.malloc 16]) (kernelStart os) ∧
    (∃ s, Runs.run (AllocCall.step kernelEnv Paging.heapEnd)
      (threeFreed a b c ++ [.malloc 4500] ++ [.malloc 16]) (kernelStart os) = .ok s) ∧
    ∀ e, Runs.run (AllocCall.step kernelEnv Paging.heapEnd)
      (threeFreed a b c ++ [.malloc 4500] ++ [.malloc 16]) (kernelStart os) = .error e →
        ∃ increment os, KernelReady os ∧ increment % 0x1000 = 0 ∧
          os.heapEnd + increment < 0x100000000 ∧ kernelEnv.sbrk increment os = .error e := by
  obtain ⟨os, a, b, c, s, hstart, hleads, hroom, -⟩ := kernel_threeFreed
  obtain ⟨d, t, ht, hroom', -⟩ := hroom.step_malloc (n := 4500) (by decide) (by decide)
  obtain ⟨d', t', ht', -⟩ := hroom'.step_malloc (n := 16) (by decide) (by decide)
  have hall := (hleads.snoc (hroom.valid_malloc (by decide) (by decide)) ht).snoc
    (hroom'.valid_malloc (by decide) (by decide)) ht'
  obtain ⟨halways, herror⟩ := alloc_sound kernelEnv Paging.heapEnd KernelReady kernel_sbrk_fresh _
    hstart _ hall.along
  exact ⟨os, a, b, c, halways, ⟨t', hall.run⟩, herror⟩

/-- **`malloc` calls `sbrk` only if nothing free fits.**  For a size up to 2048 every block of every
page of its bin is then in use, and for a larger one every freed big block is smaller.  If a freed
big block does fit, then `malloc` returns one that fits best. -/
theorem malloc_fit (env : AllocEnv σ ρ) (heapEnd : σ → Nat) (Ready : σ → Prop)
    (hsbrk : SbrkFresh env.sbrk heapEnd Ready) (s : AllocRun σ ρ)
    (hs : s.Reachable env heapEnd Ready) (size : Nat) (hsize : 0 < size) :
    (size ≤ 2048 → CallsSbrk env size s.heap → ∀ p ∈ s.headers,
      read s.heap.mem (.size p) = klmallocBinSize size →
      ∀ c ∈ cells p (klmallocBinSize size), ∃ n, (c, n) ∈ s.live) ∧
    (2048 < size → CallsSbrk env size s.heap → ∀ p, FreedBig s p →
      read s.heap.mem (.size p) < size) ∧
    (2048 < size → (∃ p, FreedBig s p ∧ size ≤ read s.heap.mem (.size p)) →
      ∃ p h', klmalloc env size s.heap = .ok (p + 44, h') ∧ FreedBig s p ∧
        size ≤ read s.heap.mem (.size p) ∧ ∀ q, FreedBig s q → size ≤ read s.heap.mem (.size q) →
          read s.heap.mem (.size p) ≤ read s.heap.mem (.size q)) := by
  obtain ⟨A, hA⟩ := hs.inv hsbrk
  have hbin := (klmallocBinSize_spec hsize).1
  have hcalls := hA.kept.callsSbrk_iff hsize
  have hchain := hA.kept.stored.chain
  have hread : ∀ p, FreedBig s p → read s.heap.mem (.size p) = A.size p := fun p hp =>
    hA.kept.stored.size p (hA.headers ▸ hp.1)
  refine ⟨fun hle hcall p hp hp' c hc => ?_, fun hlt hcall p hp => ?_, fun hlt hfits => ?_⟩
  · have hsmall := hbin.mpr hle
    rw [if_pos hsmall] at hcalls
    have hsizep : A.size p = klmallocBinSize size :=
      (hA.kept.stored.size p (hA.headers ▸ hp)).symm.trans hp'
    refine hA.full hp ?_ (hsizep ▸ hsmall) c (hsizep ▸ hc)
    rw [hsizep]
    exact (hA.kept.stored.listed _ hsmall).eq_nil_iff.mp (hcalls.mp hcall)
  · rw [if_neg fun hsmall => absurd (hbin.mp hsmall) (Nat.not_le_of_lt hlt)] at hcalls
    rw [hread p hp]
    exact (hchain.best_eq_nil_iff size).mp (hcalls.mp hcall) p (hA.freedBig_iff.mp hp)
  · obtain ⟨q, hq, hqfits⟩ := hfits
    have hbig : ¬ klmallocBinSize size < 10 := fun hsmall =>
      absurd (hbin.mp hsmall) (Nat.not_le_of_lt hlt)
    have hne : bestFit A env.bigBins size s.heap ≠ 0 := fun hzero => by
      have := (hchain.best_eq_nil_iff size).mp hzero q (hA.freedBig_iff.mp hq)
      rw [hread q hq] at hqfits
      omega
    obtain ⟨hmem, hfit, hleast⟩ := hchain.best_le rfl hne
    obtain ⟨h', B, hmalloc, -⟩ := Kept.klmalloc_found env hA.kept hsize hbig rfl hne
    have hfreed : FreedBig s (bestFit A env.bigBins size s.heap) := hA.freedBig_iff.mpr hmem
    refine ⟨_, h', hmalloc, hfreed, ?_, fun r hr hrfits => ?_⟩
    · rw [hread _ hfreed]
      exact hfit
    · rw [hread _ hfreed, hread r hr]
      rw [hread r hr] at hrfits
      exact hleast r (hA.freedBig_iff.mp hr) hrfits

/-- With the three big blocks given back, `malloc(4500)` returns one of the two that fit. -/
theorem malloc_fit_32MB : ∃ os a b c s,
    Runs.run (AllocCall.step kernelEnv Paging.heapEnd) (threeFreed a b c) (kernelStart os) = .ok s ∧
    ∃ p h', klmalloc kernelEnv 4500 s.heap = .ok (p + 44, h') ∧ FreedBig s p ∧
      4500 ≤ read s.heap.mem (.size p) ∧ (∀ q, FreedBig s q → 4500 ≤ read s.heap.mem (.size q) →
        read s.heap.mem (.size p) ≤ read s.heap.mem (.size q)) ∧
      ∃ q, FreedBig s q ∧ read s.heap.mem (.size q) < 4500 := by
  obtain ⟨os, a, b, c, s, hstart, hleads, -, p, q, r, -, hp, -, hr, hsizep, -, hsizer⟩ :=
    kernel_threeFreed
  obtain ⟨-, -, hfits⟩ := malloc_fit kernelEnv Paging.heapEnd KernelReady kernel_sbrk_fresh s
    ⟨_, _, hstart, hleads.along, hleads.run⟩ 4500 (by decide)
  obtain ⟨p', h', hmalloc, hfreed, hlong, hbest⟩ := hfits (by decide)
    ⟨p, hp, by rw [hsizep]; decide⟩
  exact ⟨os, a, b, c, s, hleads.run, p', h', hmalloc, hfreed, hlong, hbest, r, hr,
    by rw [hsizer]; decide⟩

end MyaXOS
