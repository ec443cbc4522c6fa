import MyaXOS.Lib.Chain
import Mathlib.Data.List.Sort
import Mathlib.Data.List.TakeWhile
import Mathlib.Order.Basic

/-!
# Skip lists

A skip list is a tower of singly linked lists over the same nodes.  All of them start at `head`;
`next i` leads along level `i`, and `chain i` is the list of the nodes found there.  Each level is a
sublist of the one below, and level 0 is sorted by `key`.

A search for the place of a key `s` goes down from the highest level.  On each level it moves up to
the last node with a key below `s`, which is `pred s i` here, and goes on from this node one level
below: `SkipList.descend` is the step from one level to the next.  What stands behind `pred s 0` is
the first node with a key of at least `s` (`SkipList.best`).

`SkipList.insert` and `SkipList.erase` say that a skip list stays one when a node is linked in, or
taken out, behind these predecessors.

**Equal keys** are allowed, and they decide what can be said.  A level splits at `s` into the nodes
with a key below `s` and the others (`below` and `fromKey`), so a node with key `s` is inserted in
front of all the nodes with the same key.  A node can be erased behind its predecessors only if it
is the first of its key: then, on every level that has it, it is the first node that is not below
its key (`split_of_mem`).  `next_pred_self_iff` is the converse, so being the first of its key is
exactly what the erasure needs.

**Why splitting at a key is enough.**  A level is sorted, since it is a sublist of a sorted one.  So
`takeWhile` and `dropWhile` split it where a filter would (`below_append`), which is also where a
search stops; and since the levels are sublists of each other, the last node below `s` on one level
is a node below `s` on the next (`descend`).  The heights of the nodes do not matter anywhere, and
there is no balance to keep.

As in `Lib/Chain.lean` there is no memory: `next` and `chain` are functions of the level, and
`SkipList.congr` moves a skip list to another `next`.
-/

set_option autoImplicit false

namespace Chain

universe u v

variable {α : Type u} {κ : Type v} [LinearOrder κ]

/-- The levels `0, …, level` of a skip list that may have levels up to `top`.  Each level is a chain
of links from the head on, and a part of the level below; the lowest is sorted, with equal keys
allowed.  Levels which are not in use are there, and empty. -/
structure SkipList (nil head : α) (key : α → κ) (next : Nat → α → α) (level top : Nat)
    (chain : Nat → List α) : Prop where
  linked : ∀ i ≤ top, Linked nil (next i) (next i head) (chain i)
  sublist : ∀ i, (chain (i + 1)).Sublist (chain i)
  sorted : (chain 0).Pairwise fun a b => key a ≤ key b
  head_notMem : head ∉ chain 0
  above : ∀ i, level < i → chain i = []
  level_le : level ≤ top

/-- The nodes with a key below `s`, at the front of a list that is sorted. -/
def below (key : α → κ) (s : κ) (as : List α) : List α := as.takeWhile fun a => key a < s

/-- The rest of the list. -/
def fromKey (key : α → κ) (s : κ) (as : List α) : List α := as.dropWhile fun a => key a < s

/-- The node behind which the key `s` has its place in level `i`. -/
def pred (head : α) (key : α → κ) (chain : Nat → List α) (s : κ) (i : Nat) : α :=
  lastFrom head (below key s (chain i))

variable {nil head x a : α} {key : α → κ} {next next' : Nat → α → α} {level top i j : Nat}
  {chain : Nat → List α} {s : κ} {as pre post : List α}

theorem below_append_fromKey (key : α → κ) (s : κ) (as : List α) :
    below key s as ++ fromKey key s as = as :=
  List.takeWhile_append_dropWhile

theorem key_lt_of_mem_below (ha : a ∈ below key s as) : key a < s := by
  simpa using List.mem_takeWhile_imp ha

theorem mem_of_mem_below (ha : a ∈ below key s as) : a ∈ as :=
  (List.takeWhile_sublist _).mem ha

/-- Where the keys reach `s` is where the list splits. -/
theorem below_append (hpre : ∀ a ∈ pre, key a < s) :
    below key s (pre ++ post) = pre ++ below key s post :=
  List.takeWhile_append_of_pos fun a ha => by simpa using hpre a ha

theorem below_cons_of_lt (h : key x < s) : below key s (x :: as) = x :: below key s as :=
  List.takeWhile_cons_of_pos (by simpa using h)

theorem below_cons_of_le (h : s ≤ key x) : below key s (x :: as) = [] :=
  List.takeWhile_cons_of_neg (by simpa using h)

theorem le_key_of_fromKey (h : fromKey key s as = x :: post) : s ≤ key x := by
  have hx := List.head?_dropWhile_not (fun a => decide (key a < s)) as
  rw [show as.dropWhile (fun a => decide (key a < s)) = x :: post from h] at hx
  simpa using hx

/-- A node is in the rest that starts with its key. -/
theorem mem_fromKey (hmem : x ∈ as) : x ∈ fromKey key (key x) as := by
  rw [← below_append_fromKey key (key x) as] at hmem
  exact (List.mem_append.mp hmem).resolve_left fun hbelow =>
    lt_irrefl _ (key_lt_of_mem_below hbelow)

theorem pred_cases (head : α) (key : α → κ) (chain : Nat → List α) (s : κ) (i : Nat) :
    pred head key chain s i = head ∨
      pred head key chain s i ∈ chain i ∧ key (pred head key chain s i) < s := by
  rcases List.mem_cons.mp (lastFrom_mem head (below key s (chain i))) with hhead | hmem
  · exact Or.inl hhead
  · exact Or.inr ⟨mem_of_mem_below hmem, key_lt_of_mem_below hmem⟩

/-! ## The levels

Each level is a sublist of the one below and all are sorted, since the lowest is.  The head is in
none of them. -/

namespace SkipList

section
variable (h : SkipList nil head key next level top chain)

include h

theorem sublist_of_le (hij : i ≤ j) : (chain j).Sublist (chain i) := by
  induction j, hij using Nat.le_induction with
  | base => exact List.Sublist.refl _
  | succ j _ ih => exact (h.sublist j).trans ih

theorem sorted_level (i : Nat) : (chain i).Pairwise fun a b => key a ≤ key b :=
  h.sorted.sublist (h.sublist_of_le (Nat.zero_le i))

theorem mem_bottom (ha : a ∈ chain i) : a ∈ chain 0 := (h.sublist_of_le (Nat.zero_le i)).mem ha

theorem head_notMem_level (i : Nat) : head ∉ chain i :=
  fun hmem => h.head_notMem (h.mem_bottom hmem)

theorem nodup : (chain 0).Nodup := (h.linked 0 (Nat.zero_le top)).nodup

theorem next_eq_nil_iff (hi : i ≤ top) : next i head = nil ↔ chain i = [] :=
  (h.linked i hi).eq_nil_iff

/-- A level leads on within itself. -/
theorem next_mem (hi : i ≤ top) (ha : a ∈ chain i) (hne : next i a ≠ nil) : next i a ∈ chain i := by
  obtain ⟨pre, post, hchain⟩ := List.append_of_mem ha
  have hlinked := h.linked i hi
  rw [hchain] at hlinked ⊢
  obtain ⟨post, rfl, -⟩ := hlinked.suffix.2.2.exists_cons hne
  exact List.mem_append_right pre (List.mem_cons_of_mem a List.mem_cons_self)

/-! ## Searching

On one level the search stops at the last node with a key below `s`.  This node is on the level
below, too, and no node in front of it can be the one that is looked for there; so the search goes
on from it and need not go back. -/

/-- What stands behind the predecessor. -/
theorem linked_pred (hi : i ≤ top) (s : κ) : Linked nil (next i) (next i (pred head key chain s i))
    (fromKey key s (chain i)) :=
  Linked.next_lastFrom ((below_append_fromKey key s (chain i)).symm ▸ h.linked i hi)

/-- **One level of a search.**  From any node of the level with a key below `s`, or from the head,
there is a rest of the level, and its last node with a key below `s` is the predecessor. -/
theorem descend (hi : i ≤ top) (ha : a = head ∨ a ∈ chain i ∧ key a < s) :
    ∃ post, Linked nil (next i) (next i a) post ∧ post ⊆ chain i ∧
      lastFrom a (below key s post) = pred head key chain s i := by
  rcases ha with rfl | ⟨ha, hs⟩
  · exact ⟨chain i, h.linked i hi, fun _ hb => hb, rfl⟩
  · obtain ⟨pre, post, hchain⟩ := List.append_of_mem ha
    have hsorted := h.sorted_level i
    have hlinked := h.linked i hi
    rw [hchain] at hsorted hlinked
    have hpre : ∀ b ∈ pre, key b < s := fun b hb =>
      ((List.pairwise_append.mp hsorted).2.2 b hb a List.mem_cons_self).trans_lt hs
    refine ⟨post, hlinked.suffix.2.2, fun b hb => ?_, ?_⟩
    · rw [hchain]
      exact List.mem_append_right pre (List.mem_cons_of_mem a hb)
    · rw [pred, hchain, below_append hpre, below_cons_of_lt hs, lastFrom_append_cons]

/-- The search ends at `nil` if every key is below `s`. -/
theorem best_eq_nil_iff (s : κ) :
    next 0 (pred head key chain s 0) = nil ↔ ∀ a ∈ chain 0, key a < s := by
  rw [(h.linked_pred (Nat.zero_le top) s).eq_nil_iff, fromKey, List.dropWhile_eq_nil_iff]
  simp

/-- The search ends at the first node with a key of at least `s`. -/
theorem best (hx : next 0 (pred head key chain s 0) = x) (hnil : x ≠ nil) :
    ∃ post, chain 0 = below key s (chain 0) ++ x :: post ∧ s ≤ key x ∧
      ∀ b ∈ post, key x ≤ key b := by
  have hrest := h.linked_pred (Nat.zero_le top) s
  rw [hx] at hrest
  obtain ⟨post, hpost, -⟩ := hrest.exists_cons hnil
  have hchain : chain 0 = below key s (chain 0) ++ x :: post := by
    rw [← hpost, below_append_fromKey]
  refine ⟨post, hchain, le_key_of_fromKey hpost, ?_⟩
  have hsorted := h.sorted
  rw [hchain] at hsorted
  exact (List.pairwise_cons.mp (List.pairwise_append.mp hsorted).2.1).1

/-- The search for its own key ends at the same place. -/
theorem pred_best (hx : next 0 (pred head key chain s 0) = x) (hnil : x ≠ nil) :
    pred head key chain (key x) 0 = pred head key chain s 0 := by
  obtain ⟨post, hchain, hs, -⟩ := h.best hx hnil
  have hbelow : below key (key x) (chain 0) = below key s (chain 0) := by
    conv_lhs => rw [hchain]
    rw [below_append fun a ha => (key_lt_of_mem_below ha).trans_le hs, below_cons_of_le le_rfl,
      List.append_nil]
  rw [pred, pred, hbelow]

/-- It is a best fit. -/
theorem best_le (hx : next 0 (pred head key chain s 0) = x) (hnil : x ≠ nil) :
    x ∈ chain 0 ∧ s ≤ key x ∧ ∀ b ∈ chain 0, s ≤ key b → key x ≤ key b := by
  obtain ⟨post, hchain, hs, hpost⟩ := h.best hx hnil
  refine ⟨?_, hs, fun b hb hsb => ?_⟩
  · rw [hchain]
    exact List.mem_append_right _ List.mem_cons_self
  · rw [hchain] at hb
    rcases List.mem_append.mp hb with hb | hb
    · exact absurd (key_lt_of_mem_below hb) (not_lt.mpr hsb)
    · rcases List.mem_cons.mp hb with rfl | hb
      · exact le_rfl
      · exact hpost b hb

end

/-! ## Inserting

A new node is put behind its predecessor on each level up to its own.  Each level stays sorted, and
a sublist of the one below, because the node is in the same place among the keys on all of them. -/

/-- The levels after `x` has been linked into the levels `0, …, lvl`. -/
def inserted (key : α → κ) (chain : Nat → List α) (x : α) (lvl i : Nat) : List α :=
  if i ≤ lvl then (chain i).orderedInsert (fun a b => key a ≤ key b) x else chain i

theorem orderedInsert_eq (as : List α) :
    as.orderedInsert (fun a b => key a ≤ key b) x =
      below key (key x) as ++ x :: fromKey key (key x) as := by
  simp only [List.orderedInsert_eq_take_drop, below, fromKey, not_le]

/-- **Inserting.**  A node is linked in behind its predecessor in the levels up to `lvl`. -/
theorem insert (h : SkipList nil head key next level top chain) {lvl : Nat} (hlvl : lvl ≤ top)
    (hx : x ≠ nil) (hnew : x ≠ head)
    (hat : ∀ i ≤ lvl, next' i x = next i (pred head key chain (key x) i) ∧
      next' i (pred head key chain (key x) i) = x)
    (hsame : ∀ i ≤ top, ∀ a ∈ head :: chain i,
      (i ≤ lvl → a ≠ pred head key chain (key x) i) → next' i a = next i a) :
    SkipList nil head key next' (max level lvl) top (inserted key chain x lvl) where
  linked i hi := by
    by_cases hil : i ≤ lvl
    · have hlinked := h.linked i hi
      rw [← below_append_fromKey key (key x) (chain i)] at hlinked
      rw [inserted, if_pos hil, orderedInsert_eq]
      refine hlinked.insert ?_ hx (hat i hil).1 (hat i hil).2 fun a ha hne => ?_
      · rw [below_append_fromKey]
        exact h.head_notMem_level i
      · rw [below_append_fromKey] at ha
        exact hsame i hi a ha fun _ => hne
    · rw [inserted, if_neg hil, hsame i hi head List.mem_cons_self fun hle => absurd hle hil]
      exact (h.linked i hi).congr fun a ha =>
        hsame i hi a (List.mem_cons_of_mem head ha) fun hle => absurd hle hil
  sublist i := by
    have htrans : IsTrans α fun a b => key a ≤ key b := ⟨fun _ _ _ => le_trans⟩
    simp only [inserted]
    split_ifs with hsucc hi hi
    · exact (h.sublist i).orderedInsert_sublist x (h.sorted_level i)
    · omega
    · exact (h.sublist i).trans (List.sublist_orderedInsert x (chain i))
    · exact h.sublist i
  sorted := by
    have htotal : Std.Total fun a b : α => key a ≤ key b := ⟨fun a b => le_total (key a) (key b)⟩
    have htrans : IsTrans α fun a b => key a ≤ key b := ⟨fun _ _ _ => le_trans⟩
    rw [inserted, if_pos (Nat.zero_le lvl)]
    exact List.Pairwise.orderedInsert x _ h.sorted
  head_notMem := by
    rw [inserted, if_pos (Nat.zero_le lvl), List.mem_orderedInsert]
    exact not_or.mpr ⟨fun e => hnew e.symm, h.head_notMem⟩
  above i hi := by
    rw [inserted, if_neg (by omega)]
    exact h.above i (by omega)
  level_le := max_le h.level_le hlvl

/-! ## Erasing

Only the first node of its key is what the predecessor leads to on every level that has the node.
For this one, unlinking it behind the predecessor takes it out of the list. -/

section
variable (h : SkipList nil head key next level top chain)

include h

/-- Every level that has the first node of its key has it behind the predecessor. -/
theorem split_of_mem (hx : next 0 (pred head key chain (key x) 0) = x) (hnil : x ≠ nil)
    (hmem : x ∈ chain i) : ∃ post, chain i = below key (key x) (chain i) ++ x :: post := by
  obtain ⟨post, hchain, -, -⟩ := h.best hx hnil
  have hsub := h.sublist_of_le (Nat.zero_le i)
  have hnodup := h.nodup
  rw [hchain] at hsub hnodup
  obtain ⟨pre', post', heq, hpre, hpost⟩ := List.sublist_append_iff.mp hsub
  have hkeys : ∀ a ∈ pre', key a < key x := fun a ha => key_lt_of_mem_below (hpre.mem ha)
  have hx' : x ∈ post' := by
    rw [heq] at hmem
    exact (List.mem_append.mp hmem).resolve_left fun hpre' => lt_irrefl _ (hkeys x hpre')
  have hnotMem : x ∉ post := (List.nodup_cons.mp (List.nodup_append.mp hnodup).2.1).1
  rcases List.sublist_cons_iff.mp hpost with hpost | ⟨rest, rfl, -⟩
  · exact absurd (hpost.mem hx') hnotMem
  · refine ⟨rest, ?_⟩
    rw [heq, below_append hkeys, below_cons_of_le le_rfl, List.append_nil]

/-- Conversely, the node behind the predecessor is in the level. -/
theorem mem_of_next_pred (hi : i ≤ top) (hx : next i (pred head key chain s i) = x)
    (hnil : x ≠ nil) : x ∈ chain i := by
  have hrest := h.linked_pred hi s
  rw [hx] at hrest
  obtain ⟨post, hpost, -⟩ := hrest.exists_cons hnil
  rw [← below_append_fromKey key s (chain i), hpost]
  exact List.mem_append_right _ List.mem_cons_self

theorem next_pred_eq_iff (hi : i ≤ top) (hx : next 0 (pred head key chain (key x) 0) = x)
    (hnil : x ≠ nil) : next i (pred head key chain (key x) i) = x ↔ x ∈ chain i := by
  refine ⟨fun he => h.mem_of_next_pred hi he hnil, fun hmem => ?_⟩
  obtain ⟨post, hchain⟩ := h.split_of_mem hx hnil hmem
  have hlinked := h.linked i hi
  rw [hchain] at hlinked
  exact hlinked.next_lastFrom.1

/-- The search for its key ends in front of a node if the node is the first of its key. -/
theorem next_pred_self_iff (hnil : x ≠ nil) :
    next 0 (pred head key chain (key x) 0) = x ↔
      ∃ pre post, chain 0 = pre ++ x :: post ∧ ∀ a ∈ pre, key a ≠ key x := by
  constructor
  · intro hx
    obtain ⟨post, hchain, -, -⟩ := h.best hx hnil
    exact ⟨_, post, hchain, fun a ha => (key_lt_of_mem_below ha).ne⟩
  · rintro ⟨pre, post, hchain, hpre⟩
    have hsorted := h.sorted
    have hlinked := h.linked 0 (Nat.zero_le top)
    rw [hchain] at hsorted hlinked
    have hlt : ∀ a ∈ pre, key a < key x := fun a ha =>
      ((List.pairwise_append.mp hsorted).2.2 a ha x List.mem_cons_self).lt_of_ne (hpre a ha)
    rw [pred, hchain, below_append hlt, below_cons_of_le le_rfl, List.append_nil]
    exact hlinked.next_lastFrom.1

/-- **Erasing.**  The first node of its key is unlinked behind its predecessor in each level that
has it. -/
theorem erase [DecidableEq α] (hx : next 0 (pred head key chain (key x) 0) = x) (hnil : x ≠ nil)
    (hat : ∀ i ≤ top, x ∈ chain i → next' i (pred head key chain (key x) i) = next i x)
    (hsame : ∀ i ≤ top, ∀ a ∈ head :: chain i,
      (x ∈ chain i → a ≠ pred head key chain (key x) i) → next' i a = next i a) :
    SkipList nil head key next' level top fun i => (chain i).erase x where
  linked i hi := by
    by_cases hmem : x ∈ chain i
    · obtain ⟨post, hchain⟩ := h.split_of_mem hx hnil hmem
      have hlinked := h.linked i hi
      have hhead := h.head_notMem_level i
      have hnotMem : x ∉ below key (key x) (chain i) := fun hb =>
        lt_irrefl _ (key_lt_of_mem_below hb)
      have herase : (chain i).erase x = below key (key x) (chain i) ++ post := by
        conv_lhs => rw [hchain]
        rw [List.erase_append_right _ hnotMem, List.erase_cons_head]
      rw [hchain] at hlinked hhead
      rw [herase]
      refine hlinked.erase hhead (hat i hi hmem) fun a ha hne => ?_
      refine hsame i hi a ?_ fun _ => hne
      rw [hchain]
      rcases List.mem_cons.mp ha with rfl | ha
      · exact List.mem_cons_self
      · refine List.mem_cons_of_mem head ?_
        rcases List.mem_append.mp ha with ha | ha
        · exact List.mem_append_left _ ha
        · exact List.mem_append_right _ (List.mem_cons_of_mem x ha)
    · rw [List.erase_of_not_mem hmem,
        hsame i hi head List.mem_cons_self fun hm => absurd hm hmem]
      exact (h.linked i hi).congr fun a ha =>
        hsame i hi a (List.mem_cons_of_mem head ha) fun hm => absurd hm hmem
  sublist i := (h.sublist i).erase x
  sorted := h.sorted.sublist (List.erase_sublist)
  head_notMem hmem := h.head_notMem (List.mem_of_mem_erase hmem)
  above i hi := by rw [h.above i hi, List.erase_nil]
  level_le := h.level_le

end

/-- A level that is empty need not be searched. -/
theorem lower (h : SkipList nil head key next (level + 1) top chain)
    (hempty : next (level + 1) head = nil) : SkipList nil head key next level top chain where
  linked := h.linked
  sublist := h.sublist
  sorted := h.sorted
  head_notMem := h.head_notMem
  above i hi := by
    rcases Nat.lt_or_ge (level + 1) i with hlt | hge
    · exact h.above i hlt
    · rw [show i = level + 1 by omega]
      exact (h.next_eq_nil_iff h.level_le).mp hempty
  level_le := Nat.le_of_succ_le h.level_le

theorem congr (h : SkipList nil head key next level top chain) {key' : α → κ}
    (hkey : ∀ a ∈ chain 0, key' a = key a)
    (hsame : ∀ i ≤ top, ∀ a ∈ head :: chain i, next' i a = next i a) :
    SkipList nil head key' next' level top chain where
  linked i hi := by
    rw [hsame i hi head List.mem_cons_self]
    exact (h.linked i hi).congr fun a ha => hsame i hi a (List.mem_cons_of_mem head ha)
  sublist := h.sublist
  sorted := h.sorted.imp_of_mem fun ha hb hle => by rwa [hkey _ ha, hkey _ hb]
  head_notMem := h.head_notMem
  above := h.above
  level_le := h.level_le

end SkipList

end Chain
