import MyaXOS.Alloc.Stored

/-!
# The skip list of `alloc.c`

The functions on `klmalloc_big_bins` do what `Chain.SkipList` says a skip list does.

* `Stored.search` is the search that all three begin with: it ends at the predecessors of the size
  it looks for, and the assertions on its way hold.
* `Stored.findbest` finds a best fit, `Stored.delete` takes it out, and `Stored.insert` puts
  a block in, at whatever level `klmalloc_random_level` says.

**The search.**  The code goes along a level while the next block is too small, then down one level,
and writes the node where it went down to `update[i]`.  On one level this is `skipAlong_eq`, an
induction on the part of the level that is still ahead: the loop ends at the last node whose key is
below the one that is looked for, or stays where it is.  From one level to the next it is
`SkipList.descend`: the node that has been reached is also on the level below, and the rest of that
level splits at the same key.  So the induction over the levels carries one fact, that the node is
the head or a node of the level with a key below the one that is looked for, and at its end
`update i` is `pred size i` for every level `i`.

**The assertions** of the code say that a node is at a page boundary and that its block ends at one.
Nodes of the list are free big blocks, whose sizes are set when the arena grows and never change, so
this is a fact about the arena (`SkipStored.node`).  The assertions are met on the way and not
assumed.

**Linking and unlinking** write to the levels one after the other, while the other levels are still
as they were.  Both loops have a specification that speaks of all levels at once: those that have
been done are changed and the others are not.  For `skipUnlink` one has to know where it stops.  It
stops at the first level on which the block is not behind its predecessor, and since each level is a
sublist of the one below, the levels above do not have the block either: nothing is left out.

**What `delete` needs.**  Only the first block of its size stands behind the predecessor on every
level that has it.  A deletion of any other member of the list is a different matter, which
`Alloc/BigBins.lean` is about.  `klmalloc` deletes what `findbest` has found, and this is the first
of its size; that is the reason why the proofs here can ask for it.

**The level of the list** is lowered at the end, as long as the highest level is empty.  An empty
level need not be searched, so this changes nothing that the list has to do (`SkipList.lower`).
-/

set_option autoImplicit false

namespace MyaXOS

open Chain (Linked SkipList below lastFrom pred)

variable {σ ρ : Type}

/-- Along one level of the list: the loop ends at the last node with a key below `s`, or at the node
it has started from if there is none. -/
theorem skipAlong_eq {m : Mem} {i s : Nat} {key : Nat → Nat} {post : List Nat} :
    ∀ {node fuel : Nat}, Linked 0 (fun p => read m (.forward p i)) (read m (.forward node i)) post →
    (∀ p ∈ post, read m (.size p) = key p ∧ u32 (key p + 44) % 0x1000 = 0) → post.length < fuel →
    skipAlong m i s fuel node = .ok (lastFrom node (below key s post)) := by
  induction post with
  | nil =>
    intro node fuel hlinked _ hfuel
    obtain ⟨fuel, rfl⟩ := Nat.exists_eq_add_one_of_ne_zero (Nat.ne_of_gt hfuel)
    rw [skipAlong, if_neg fun h => h.1 hlinked]
    rfl
  | cons a post ih =>
    intro node fuel hlinked hnodes hfuel
    obtain ⟨fuel, rfl⟩ := Nat.exists_eq_add_one_of_ne_zero (Nat.ne_of_gt (Nat.zero_lt_of_lt hfuel))
    obtain ⟨ha, hne, hrest⟩ := hlinked
    obtain ⟨hkey, hsize⟩ := hnodes a List.mem_cons_self
    simp only [skipAlong, ha, hkey]
    by_cases hs : key a < s
    · rw [if_pos ⟨hne, hs⟩, assert_bind hsize, Chain.below_cons_of_lt hs]
      exact ih hrest (fun p hp => hnodes p (List.mem_cons_of_mem a hp))
        (Nat.lt_of_succ_lt_succ hfuel)
    · rw [if_neg fun h => hs h.2, Chain.below_cons_of_le (Nat.le_of_not_lt hs)]
      rfl

/-- `klmalloc_random_level` is at most `SKIP_MAX_LEVEL`. -/
theorem randomLevelLoop_le (skipRand : ρ → Nat × ρ) (left : Nat) (rng : ρ) :
    (randomLevelLoop skipRand left rng).1 ≤ 6 := by
  induction left generalizing rng with
  | zero => exact le_rfl
  | succ left ih =>
    rw [randomLevelLoop]
    split_ifs
    · exact ih _
    · exact Nat.sub_le 6 _

namespace SkipStored

variable {A : Arena} {bigBins heapEnd x s : Nat} {h : AllocHeap σ ρ}

/-- What the assertions about a block in the list ask for. -/
theorem node (hst : SkipStored A bigBins h) (hA : A.Layout bigBins heapEnd) {i : Nat}
    (hx : x ∈ A.chain i) : x % 0x1000 = 0 ∧ read h.mem (.size x) = A.size x ∧
      u32 (A.size x + 44) % 0x1000 = 0 := by
  obtain ⟨hheader, hbig⟩ := hst.chain_header x (hst.chain.mem_bottom hx)
  have hbelow := hA.below x hheader
  have hend := hA.heapEnd_lt
  have hsize := (hA.size_cases x hheader).resolve_left hbig
  rw [extent, if_neg hbig] at hbelow
  refine ⟨hA.page x hheader, hst.size x (hst.chain.mem_bottom hx), ?_⟩
  rw [u32_eq (by omega)]
  exact hsize.2

/-- The fuel is enough for every level. -/
theorem length_lt (hst : SkipStored A bigBins h) (hA : A.Layout bigBins heapEnd) {i : Nat}
    {as : List Nat} (hnodup : as.Nodup) (hsub : as ⊆ A.chain i) : as.length < walkFuel := by
  refine Nat.lt_succ_of_le (Chain.length_le_of_nodup hnodup fun a ha => ?_)
  have hheader := (hst.chain_header a (hst.chain.mem_bottom (hsub ha))).1
  have := hA.header_lt hheader
  have := hA.heapEnd_lt
  omega

/-- **The search** from level `i - 1` down.  It does not stop on the way, it ends at the predecessor
on level 0, and `update` has the predecessor on every level it has passed. -/
theorem search (hst : SkipStored A bigBins h) (hA : A.Layout bigBins heapEnd) (s : Nat) {i : Nat}
    (hi : i ≤ h.level + 1) {node : Nat} (update : Nat → Nat)
    (hnode : node = bigBins ∨ node ∈ A.chain i ∧ A.size node < s) :
    skipSearch h.mem s i node update =
      .ok (if i = 0 then node else pred bigBins A.size A.chain s 0,
        fun j => if j < i then pred bigBins A.size A.chain s j else update j) := by
  induction i generalizing node update with
  | zero => rfl
  | succ i ih =>
    have htop := hst.chain.level_le
    have hbelow : node = bigBins ∨ node ∈ A.chain i ∧ A.size node < s :=
      hnode.imp_right fun h => ⟨(hst.chain.sublist i).mem h.1, h.2⟩
    obtain ⟨post, hlinked, hsub, hlast⟩ := hst.chain.descend (i := i) (by omega) hbelow
    rw [skipSearch, skipAlong_eq hlinked (fun p hp => (hst.node hA (hsub hp)).2)
      (hst.length_lt hA hlinked.nodup hsub), ok_bind, hlast,
      ih (by omega) _ (Chain.pred_cases bigBins A.size A.chain s i)]
    congr 1
    refine Prod.ext ?_ (funext fun j => ?_)
    · rw [if_neg (Nat.succ_ne_zero i)]
      split_ifs with hzero
      · rw [hzero]
      · rfl
    · simp only
      rcases Nat.lt_trichotomy j i with hj | rfl | hj
      · rw [if_pos hj, if_pos (by omega)]
      · rw [if_neg (Nat.lt_irrefl j), Function.update_self, if_pos (Nat.lt_succ_self j)]
      · rw [if_neg (by omega), Function.update_of_ne (by omega), if_neg (by omega)]

/-- The search from the head. -/
theorem search_head (hst : SkipStored A bigBins h) (hA : A.Layout bigBins heapEnd) (s : Nat) :
    skipSearch h.mem s (h.level + 1) bigBins (fun _ => 0) =
      .ok (pred bigBins A.size A.chain s 0,
        fun j => if j < h.level + 1 then pred bigBins A.size A.chain s j else 0) := by
  rw [hst.search hA s le_rfl _ (Or.inl rfl), if_neg (Nat.succ_ne_zero _)]

/-- **`klmalloc_skip_list_findbest`** returns what stands behind the predecessor.  Its two
assertions, about the node that it returns, hold because nodes of the list are big blocks of the
arena. -/
theorem findbest (hst : SkipStored A bigBins h) (hA : A.Layout bigBins heapEnd) (s : Nat) :
    klmallocSkipListFindbest bigBins s h =
      .ok (read h.mem (.forward (pred bigBins A.size A.chain s 0) 0)) := by
  have hnode : read h.mem (.forward (pred bigBins A.size A.chain s 0) 0) ≠ 0 →
      read h.mem (.forward (pred bigBins A.size A.chain s 0) 0) ∈ A.chain 0 := fun hne =>
    hst.chain.mem_of_next_pred (Nat.zero_le 6) rfl hne
  rw [klmallocSkipListFindbest, hst.search_head hA s, ok_bind]
  simp only
  rw [assert_bind fun hne => (hst.node hA (hnode hne)).1, assert_bind fun hne => ?_]
  rw [(hst.node hA (hnode hne)).2.1]
  exact (hst.node hA (hnode hne)).2.2

end SkipStored

/-! ## Linking and unlinking

The two loops are specified for an array `update` of which it is known only that its entries are
places and not the block itself.  That they are the predecessors is used by the callers.  Each
specification ends with what has not changed: all other places of the arena, and all bytes that are
spared.  The induction of the first is on the number of levels that have been linked; that of the
second is on the levels to go, since the loop may stop before it has seen all. -/

section
variable {A : Arena} {bigBins heapEnd : Nat} (x : Nat) (update : Nat → Nat)

/-- **The loop that links a block in**, behind `update i` on each level `i` below `k`. -/
theorem skipLink_spec {m : Mem} (hA : A.Layout bigBins heapEnd) (hx : x < 0x100000000) (k : Nat)
    (hplace : ∀ i < k, A.Has bigBins (.forward x i) ∧ A.Has bigBins (.forward (update i) i) ∧
      update i ≠ x)
    (hnext : ∀ i < k, ∀ y, y = read m (.forward (update i) i) → y ≠ 0 →
      A.Has bigBins (.size y) ∧ u32 (read m (.size y) + 44) % 0x1000 = 0) :
    ∃ m', skipLink x update k m = .ok m' ∧
      (∀ i < k, read m' (.forward x i) = read m (.forward (update i) i) ∧
        read m' (.forward (update i) i) = x) ∧
      (∀ w, A.Has bigBins w → (∀ i < k, w ≠ .forward x i ∧ w ≠ .forward (update i) i) →
        read m' w = read m w) ∧ ∀ a, A.Spared bigBins heapEnd a → m' a = m a := by
  induction k with
  | zero =>
    exact ⟨m, rfl, fun i hi => absurd hi (Nat.not_lt_zero i), fun w _ _ => rfl, fun a _ => rfl⟩
  | succ k ih =>
    obtain ⟨m₁, hm₁, hlinked, hsame, hdata⟩ := ih (fun i hi => hplace i (by omega))
      fun i hi => hnext i (by omega)
    obtain ⟨hhas, hhas', hne⟩ := hplace k (Nat.lt_succ_self k)
    -- this level is untouched so far
    have hlevel : ∀ p, A.Has bigBins (.forward p k) →
        read m₁ (.forward p k) = read m (.forward p k) := fun p hp => by
      refine hsame _ hp fun i hi => ⟨fun he => ?_, fun he => ?_⟩
      · exact absurd (Place.forward.inj he).2 (Nat.ne_of_gt hi)
      · exact absurd (Place.forward.inj he).2 (Nat.ne_of_gt hi)
    obtain ⟨m₂, hm₂⟩ : ∃ m₂, m₂ = write m₁ (.forward x k) (read m₁ (.forward (update k) k)) :=
      ⟨_, rfl⟩
    have hread₂ : ∀ w, A.Has bigBins w → read m₂ w =
        if w = .forward x k then read m (.forward (update k) k) else read m₁ w := fun w hw => by
      rw [hm₂, hA.read_write hhas hw (read_lt ..), hlevel _ hhas']
    have hread : ∀ w, A.Has bigBins w → read (write m₂ (.forward (update k) k) x) w =
        if w = .forward (update k) k then x else read m₂ w := fun w hw =>
      hA.read_write hhas' hw hx
    refine ⟨write m₂ (.forward (update k) k) x, ?_, fun i hi => ?_, fun w hw hne' => ?_,
      fun a ha => ?_⟩
    · have hassert : read m₂ (.forward x k) ≠ 0 →
          u32 (read m₂ (.size (read m₂ (.forward x k))) + 44) % 0x1000 = 0 := by
        rw [hread₂ _ hhas, if_pos rfl]
        intro hy
        obtain ⟨hsize, hwhole⟩ := hnext k (Nat.lt_succ_self k) _ rfl hy
        rwa [hread₂ _ hsize, if_neg (by simp), hsame _ hsize fun i _ => ⟨by simp, by simp⟩]
      rw [skipLink, hm₁, ok_bind, ← hm₂, assert_bind hassert]
    · obtain ⟨hhasi, hhasi', hnei⟩ := hplace i hi
      rcases Nat.lt_succ_iff_lt_or_eq.mp hi with hlt | rfl
      · have hik : ∀ p q, Place.forward p i ≠ .forward q k := fun p q he =>
          absurd (Place.forward.inj he).2 (Nat.ne_of_lt hlt)
        rw [hread _ hhasi, hread _ hhasi', if_neg (hik _ _), if_neg (hik _ _), hread₂ _ hhasi,
          hread₂ _ hhasi', if_neg (hik _ _), if_neg (hik _ _)]
        exact hlinked i hlt
      · rw [hread _ hhas, hread _ hhas', if_pos rfl,
          if_neg fun he => hne (Place.forward.inj he).1.symm, hread₂ _ hhas, if_pos rfl]
        exact ⟨rfl, rfl⟩
    · have hk := hne' k (Nat.lt_succ_self k)
      rw [hread w hw, if_neg hk.2, hread₂ w hw, if_neg hk.1]
      exact hsame w hw fun i hi => hne' i (by omega)
    · rw [hA.write_data hhas' (by simp) ha, hm₂, hA.write_data hhas (by simp) ha, hdata a ha]

/-- **The loop that unlinks a block**, from level `i` on.  It stops at the first level that does not
have the block; the levels above do not have it either. -/
theorem skipUnlink_spec (hA : A.Layout bigBins heapEnd) (has : Nat → Prop)
    (hdown : ∀ i, has (i + 1) → has i) :
    ∀ (left i : Nat) {m : Mem},
    (∀ j, i ≤ j → j < i + left → A.Has bigBins (.forward (update j) j) ∧
      A.Has bigBins (.forward x j) ∧ update j ≠ x ∧ (read m (.forward (update j) j) = x ↔ has j)) →
    (∀ j, i ≤ j → j < i + left → has j → ∀ y, y = read m (.forward x j) → y ≠ 0 →
      A.Has bigBins (.size y) ∧ y % 0x1000 = 0 ∧ u32 (read m (.size y) + 44) % 0x1000 = 0) →
    ∃ m', skipUnlink x update left i m = .ok m' ∧
      (∀ j, i ≤ j → j < i + left → has j →
        read m' (.forward (update j) j) = read m (.forward x j)) ∧
      (∀ w, A.Has bigBins w →
        (∀ j, i ≤ j → j < i + left → has j → w ≠ .forward (update j) j) → read m' w = read m w) ∧
      ∀ a, A.Spared bigBins heapEnd a → m' a = m a
  | 0, i, m, _, _ => ⟨m, rfl, fun j hj hj' => by omega, fun w _ _ => rfl, fun a _ => rfl⟩
  | left + 1, i, m, hplace, hnext => by
    obtain ⟨hhas, hhasx, hne, hiff⟩ := hplace i le_rfl (by omega)
    rw [skipUnlink]
    by_cases hi : has i
    · rw [if_neg (not_not.mpr (hiff.mpr hi))]
      have hread : ∀ w, A.Has bigBins w →
          read (write m (.forward (update i) i) (read m (.forward x i))) w =
          if w = .forward (update i) i then read m (.forward x i) else read m w := fun w hw =>
        hA.read_write hhas hw (read_lt ..)
      have hnexti := hnext i le_rfl (by omega) hi
      have hother : ∀ j, i + 1 ≤ j → ∀ p, Place.forward p j ≠ .forward (update i) i :=
        fun j hj p he => absurd (Place.forward.inj he).2 (by omega)
      obtain ⟨m', hm', hunlinked, hsame, hdata⟩ := skipUnlink_spec hA has hdown left
          (i + 1)
        (m := write m (.forward (update i) i) (read m (.forward x i)))
        (fun j hj hj' => by
          obtain ⟨h1, h2, h3, h4⟩ := hplace j (by omega) (by omega)
          rw [hread _ h1, if_neg (hother j hj _)]
          exact ⟨h1, h2, h3, h4⟩)
        (fun j hj hj' hhasj y hy hy0 => by
          have hplacej := hplace j (by omega) (by omega)
          rw [hread _ hplacej.2.1, if_neg (hother j hj _)] at hy
          obtain ⟨h1, h2, h3⟩ := hnext j (by omega) (by omega) hhasj y hy hy0
          rw [hread _ h1, if_neg (by simp)]
          exact ⟨h1, h2, h3⟩)
      refine ⟨m', ?_, fun j hj hj' hhasj => ?_, fun w hw hw' => ?_, fun a ha => ?_⟩
      · simp only [hread _ hhas, if_true]
        rw [assert_bind fun hy => (hnexti _ rfl hy).2.1, assert_bind fun hy => ?_]
        · exact hm'
        · obtain ⟨h1, -, h3⟩ := hnexti _ rfl hy
          rwa [hread _ h1, if_neg (by simp)]
      · rcases Nat.eq_or_lt_of_le hj with rfl | hlt
        · rw [hsame _ hhas fun j hj _ _ he => hother j hj _ he.symm, hread _ hhas, if_pos rfl]
        · rw [hunlinked j hlt (by omega) hhasj, hread _ (hplace j hj hj').2.1,
            if_neg (hother j hlt _)]
      · rw [hsame w hw fun j hj hj' hhasj => hw' j (by omega) (by omega) hhasj, hread w hw,
          if_neg (hw' i le_rfl (by omega) hi)]
      · rw [hdata a ha, hA.write_data hhas (by simp) ha]
    · rw [if_pos fun he => hi (hiff.mp he)]
      have hnone : ∀ j, i ≤ j → ¬ has j := fun j hj => by
        induction j, hj using Nat.le_induction with
        | base => exact hi
        | succ j _ ih => exact fun hj => ih (hdown j hj)
      exact ⟨m, rfl, fun j hj _ hhasj => absurd hhasj (hnone j hj), fun w _ _ => rfl,
        fun a _ => rfl⟩

end

namespace SkipStored

variable {A : Arena} {bigBins heapEnd x s : Nat} {h : AllocHeap σ ρ}

theorem bigBins_ne (hA : A.Layout bigBins heapEnd) (hx : x ∈ A.headers) : bigBins ≠ x := by
  have := hA.above x hx
  omega

/-- The places of the predecessors. -/
theorem has_pred (hst : SkipStored A bigBins h) (s : Nat) {i : Nat} (hi : i ≤ 6) :
    A.Has bigBins (.forward (pred bigBins A.size A.chain s i) i) := by
  refine hst.has_forward hi (List.mem_cons.mpr ?_)
  exact (Chain.pred_cases bigBins A.size A.chain s i).imp_right fun h => h.1

theorem pred_ne (hA : A.Layout bigBins heapEnd) (hx : x ∈ A.headers) (i : Nat) :
    pred bigBins A.size A.chain (A.size x) i ≠ x := fun he => by
  rcases Chain.pred_cases bigBins A.size A.chain (A.size x) i with
    hhead | ⟨-, hlt⟩
  · exact bigBins_ne hA hx (hhead.symm.trans he)
  · rw [he] at hlt
    exact Nat.lt_irrefl _ hlt

/-- What stands behind a block of the list meets the assertions. -/
theorem node_next (hst : SkipStored A bigBins h) (hA : A.Layout bigBins heapEnd) {i y : Nat}
    (hy : y ∈ A.chain i) : A.Has bigBins (.size y) ∧ y % 0x1000 = 0 ∧
      u32 (read h.mem (.size y) + 44) % 0x1000 = 0 := by
  obtain ⟨hpage, hsize, hwhole⟩ := hst.node hA hy
  refine ⟨(hst.chain_header y (hst.chain.mem_bottom hy)).1, hpage, ?_⟩
  rwa [hsize]

theorem skipLower_spec {m : Mem} {key : Nat → Nat} {chain : Nat → List Nat} {level : Nat}
    (hchain : SkipList 0 bigBins key (fun i p => read m (.forward p i)) level 6 chain) :
    SkipList 0 bigBins key (fun i p => read m (.forward p i)) (skipLower m bigBins level) 6
      chain := by
  induction level with
  | zero => exact hchain
  | succ level ih =>
    rw [skipLower]
    split_ifs with hempty
    · exact ih (hchain.lower hempty)
    · exact hchain

/-- **`klmalloc_skip_list_delete`** takes out the first block of its size, and changes nothing but
the list. -/
theorem delete (hst : SkipStored A bigBins h) (hA : A.Layout bigBins heapEnd)
    (hx : read h.mem (.forward (pred bigBins A.size A.chain (A.size x) 0) 0) = x) (hx0 : x ≠ 0)
    (hhead : read h.mem (.head x) ≠ 0) :
    ∃ m level, klmallocSkipListDelete bigBins x h = .ok { h with mem := m, level := level } ∧
      SkipList 0 bigBins A.size (fun i p => read m (.forward p i)) level 6
        (fun i => (A.chain i).erase x) ∧
      (∀ w, A.Has bigBins w → (∀ p i, w ≠ .forward p i) → read m w = read h.mem w) ∧
      ∀ a, A.Spared bigBins heapEnd a → m a = h.mem a := by
  have hmem : x ∈ A.chain 0 := hst.chain.mem_of_next_pred (Nat.zero_le 6) hx hx0
  obtain ⟨hheader, hbig⟩ := hst.chain_header x hmem
  have htop := hst.chain.level_le
  obtain ⟨update, hupdate⟩ : ∃ update : Nat → Nat, update = fun j =>
      if j < h.level + 1 then pred bigBins A.size A.chain (A.size x) j else 0 := ⟨_, rfl⟩
  have hpred : ∀ j < h.level + 1, update j = pred bigBins A.size A.chain (A.size x) j :=
    fun j hj => by rw [hupdate]; exact if_pos hj
  obtain ⟨m, hm, hunlinked, hsame, hdata⟩ := skipUnlink_spec (m := h.mem) x update hA
    (fun i => x ∈ A.chain i) (fun i hi => (hst.chain.sublist i).mem hi) (h.level + 1) 0
    (fun j _ hj => by
      rw [hpred j (by omega)]
      exact ⟨hst.has_pred _ (by omega), ⟨by omega, Or.inr ⟨hheader, hbig⟩⟩, pred_ne hA hheader j,
        hst.chain.next_pred_eq_iff (by omega) hx hx0⟩)
    (fun j _ hj hhas y hy hy0 => by
      refine hst.node_next hA (i := j) ?_
      rw [hy] at hy0 ⊢
      exact hst.chain.next_mem (by omega) hhas hy0)
  have hchain : SkipList 0 bigBins A.size (fun i p => read m (.forward p i)) h.level 6
      fun i => (A.chain i).erase x := by
    refine hst.chain.erase hx hx0 (fun i hi hhas => ?_) fun i hi a ha hne => ?_
    · have hlevel : i ≤ h.level := by
        by_contra hlt
        rw [hst.chain.above i (by omega)] at hhas
        cases hhas
      rw [← hpred i (by omega)]
      exact hunlinked i (Nat.zero_le i) (by omega) hhas
    · refine hsame _ (hst.has_forward hi ha) fun j _ hj hhas he => ?_
      obtain ⟨rfl, rfl⟩ := Place.forward.inj he
      exact hne hhas (hpred i (by omega))
  refine ⟨m, skipLower m bigBins h.level, ?_, skipLower_spec hchain, fun w hw hne => ?_, hdata⟩
  · rw [klmallocSkipListDelete, assert_bind hx0, assert_bind hhead, hst.size x hmem,
      hst.search_head hA, ok_bind]
    simp only [hx]
    rw [show skipTo h.mem x walkFuel x = .ok x from if_pos rfl, ok_bind, ← hupdate, hm, ok_bind]
  · exact hsame w hw fun j _ _ _ => hne _ _

end SkipStored

namespace Stored

variable {A : Arena} {bigBins heapEnd x s : Nat} {h : AllocHeap σ ρ}

/-- A change of the skip list alone. -/
theorem rechain (hst : Stored A bigBins h) (hA : A.Layout bigBins heapEnd) {m : Mem}
    {level : Nat} {chain : Nat → List Nat} (rng : ρ)
    (hsame : ∀ w, A.Has bigBins w → (∀ p i, w ≠ .forward p i) → read m w = read h.mem w)
    (hchain : SkipList 0 bigBins A.size (fun i p => read m (.forward p i)) level 6 chain)
    (hheader : ∀ p ∈ chain 0, p ∈ A.headers ∧ ¬ A.size p < 10) :
    Stored (A.relist A.listed chain) bigBins
      { h with mem := m, level := level, rng := rng } where
  size p hp := (hsame (.size p) hp (by simp)).trans (hst.size p hp)
  free p hp := by
    simp only [hsame (.head p) hp (by simp)]
    exact (hst.free p hp).congr fun c hc =>
      hsame (.item c) ⟨p, hp, hA.free_cell p hp c hc⟩ (by simp)
  listed b hb := (hst.listed b hb).congr fun p hp =>
    hsame (.next p) (hst.listed_header b hb p hp) (by simp)
  listed_header := hst.listed_header
  chain := hchain
  chain_header := hheader
  newest := hst.newest

theorem head_ne_zero (hst : Stored A bigBins h) (hx : x ∈ A.headers) (hfree : A.free x ≠ []) :
    read h.mem (.head x) ≠ 0 := fun he => hfree ((hst.free x hx).eq_nil_iff.mp he)

/-- **`klmalloc_skip_list_delete`** takes out the first block of its size.  It walks on as long as
the sizes are smaller, and so stops in front of this block on each level that has it. -/
theorem delete (hst : Stored A bigBins h) (hA : A.Layout bigBins heapEnd)
    (hx : read h.mem (.forward (pred bigBins A.size A.chain (A.size x) 0) 0) = x) (hx0 : x ≠ 0)
    (hfree : A.free x ≠ []) :
    ∃ m level, klmallocSkipListDelete bigBins x h = .ok { h with mem := m, level := level } ∧
      Stored (A.relist A.listed fun i => (A.chain i).erase x) bigBins
        { h with mem := m, level := level } ∧
      ∀ a, A.Spared bigBins heapEnd a → m a = h.mem a := by
  have hmem : x ∈ A.chain 0 := hst.chain.mem_of_next_pred (Nat.zero_le 6) hx hx0
  obtain ⟨m, level, hdelete, hchain, hsame, hdata⟩ :=
    hst.skip.delete hA hx hx0 (hst.head_ne_zero (hst.chain_header x hmem).1 hfree)
  exact ⟨m, level, hdelete, hst.rechain hA h.rng hsame hchain fun p hp =>
    hst.chain_header p (List.mem_of_mem_erase hp), hdata⟩

/-- **`klmalloc_skip_list_insert`** puts a block in, at some level.  Which one is up to the random
numbers, and the result is an arena that is in order for each of them. -/
theorem insert (hst : Stored A bigBins h) (hA : A.Layout bigBins heapEnd)
    (skipRand : ρ → Nat × ρ) (hheader : x ∈ A.headers) (hbig : ¬ A.size x < 10)
    (hnew : x ∉ A.chain 0) (hfree : A.free x ≠ []) :
    ∃ m level rng, level ≤ 6 ∧ klmallocSkipListInsert bigBins skipRand x h =
        .ok { h with mem := m, level := max h.level level, rng := rng } ∧
      Stored (A.relist A.listed (SkipList.inserted A.size A.chain x level)) bigBins
        { h with mem := m, level := max h.level level, rng := rng } ∧
      ∀ a, A.Spared bigBins heapEnd a → m a = h.mem a := by
  have hx0 := hA.header_pos hheader
  have htop := hst.chain.level_le
  have hlt := hA.header_lt hheader
  have hend := hA.heapEnd_lt
  have hsize := (hA.size_cases x hheader).resolve_left hbig
  have hbelow := hA.below x hheader
  rw [extent, if_neg hbig] at hbelow
  obtain ⟨level, rng, hrandom⟩ : ∃ level rng, klmallocRandomLevel skipRand h.rng = (level, rng) :=
    ⟨_, _, rfl⟩
  have hlevel : level ≤ 6 := by
    have := randomLevelLoop_le skipRand 6 h.rng
    rwa [show randomLevelLoop skipRand 6 h.rng = (level, rng) from hrandom] at this
  obtain ⟨update, hupdate⟩ : ∃ update : Nat → Nat, update = fun i =>
      if h.level < i then bigBins else
        if i < h.level + 1 then pred bigBins A.size A.chain (A.size x) i else 0 := ⟨_, rfl⟩
  -- the head is the predecessor in the levels that are empty
  have hpred : ∀ i, update i = pred bigBins A.size A.chain (A.size x) i := fun i => by
    rw [hupdate]
    simp only
    split_ifs with hi hi'
    · rw [pred, hst.chain.above i hi]
      rfl
    · rfl
    · omega
  have hnext : ∀ i ≤ 6, read h.mem (.forward (update i) i) ≠ 0 →
      read h.mem (.forward (update i) i) ∈ A.chain i := fun i hi hne => by
    rw [hpred] at hne ⊢
    exact hst.chain.mem_of_next_pred hi rfl hne
  obtain ⟨m, hm, hlinked, hsame, hdata⟩ := skipLink_spec (m := h.mem) x update hA
    (by omega : x < 0x100000000) (level + 1)
    (fun i hi => by
      rw [hpred]
      exact ⟨⟨by omega, Or.inr ⟨hheader, hbig⟩⟩, hst.skip.has_pred _ (by omega),
        SkipStored.pred_ne hA hheader i⟩)
    (fun i hi y hy hy0 => by
      rw [hy] at hy0 ⊢
      have hnode := hst.skip.node_next hA (hnext i (by omega) hy0)
      exact ⟨hnode.1, hnode.2.2⟩)
  have hchain : SkipList 0 bigBins A.size (fun i p => read m (.forward p i)) (max h.level level) 6
      (SkipList.inserted A.size A.chain x level) := by
    refine hst.chain.insert hlevel hx0 (SkipStored.bigBins_ne hA hheader).symm (fun i hi => ?_)
      fun i hi a ha hne => ?_
    · have := hlinked i (by omega)
      rwa [hpred] at this
    · refine hsame _ (hst.has_forward hi ha) fun j hj => ⟨fun he => ?_, fun he => ?_⟩
      · obtain ⟨rfl, rfl⟩ := Place.forward.inj he
        rcases List.mem_cons.mp ha with he | ha
        · exact SkipStored.bigBins_ne hA hheader he.symm
        · exact hnew (hst.chain.mem_bottom ha)
      · obtain ⟨rfl, rfl⟩ := Place.forward.inj he
        exact hne (by omega) (hpred i)
  refine ⟨m, level, rng, hlevel, ?_, ?_, hdata⟩
  · have hwhole : u32 (A.size x + 44) % 0x1000 = 0 := by
      rw [u32_eq (by omega)]
      exact hsize.2
    have hfirst : read h.mem (.forward (pred bigBins A.size A.chain (A.size x) 0) 0) ≠ x :=
      fun he => hnew (hst.chain.mem_of_next_pred (Nat.zero_le 6) he hx0)
    rw [klmallocSkipListInsert, assert_bind hx0, assert_bind (hst.head_ne_zero hheader hfree),
      assert_bind (hA.page x hheader), hst.size x hheader, assert_bind hwhole,
      assert_bind (by omega), hst.skip.search_head hA, ok_bind]
    simp only [if_neg hfirst, hrandom]
    rw [← hupdate, hm, ok_bind]
  · refine hst.rechain hA rng (fun w hw hne => hsame w hw fun j _ => ⟨hne _ _, hne _ _⟩) hchain
      fun p hp => ?_
    rw [SkipList.inserted, if_pos (Nat.zero_le level), List.mem_orderedInsert] at hp
    rcases hp with rfl | hp
    · exact ⟨hheader, hbig⟩
    · exact hst.chain_header p hp

end Stored

end MyaXOS
