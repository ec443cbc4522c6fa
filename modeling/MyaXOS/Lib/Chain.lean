import Mathlib.Data.List.Nodup
import Mathlib.Data.List.Perm.Subperm
import Mathlib.Data.List.Range

/-!
# Singly linked lists

A singly linked list is a function `next` that takes a node to the one after it, and a value `nil`
that ends the list.  `Linked nil next v as` says that the list that starts with `v` has the nodes
`as`, in this order.

* `Linked.congr` moves a list to another `next` that agrees on its nodes; this is how a write
  somewhere else is skipped.
* `Linked.nodup`: a list that ends does not meet a node twice.
* A list is changed behind one of its nodes.  `lastFrom h pre` is the last node of `pre`, or the
  head `h` if there is none, and `Linked.insert` and `Linked.erase` are the two edits behind it.

There is no heap here: `next` is any function, and a caller takes for it the reads of some word of
its memory.  So the lemmas do not depend on how the nodes are laid out, or on what else is in the
memory, and the caller's own lemmas about reads and writes are all that connects the two.

That the nodes are a list, and not a set that is reachable, is what makes the proofs short.  A list
determines its nodes (`Linked.unique`), so two descriptions of one list are equal, and the induction
is always on the list of nodes and never on a number of steps.  `Linked.nodup` is the one result
that needs an argument: what follows a node depends on the node alone, so a list that met a node
twice would go on in the same way after both, and would not end.  Its consequence
`length_le_of_nodup`, that a list of addresses below `n` has at most `n` nodes, is what shows that a
loop along it ends.
-/

set_option autoImplicit false

namespace Chain

universe u

variable {α : Type u}

/-- Following `next` from `v`, one meets the nodes of the list and then `nil`. -/
def Linked (nil : α) (next : α → α) : α → List α → Prop
  | v, [] => v = nil
  | v, a :: as => v = a ∧ a ≠ nil ∧ Linked nil next (next a) as

variable {nil : α} {next next' : α → α} {v h a b x : α} {as bs pre post : List α}

theorem Linked.congr (hl : Linked nil next v as) (hsame : ∀ a ∈ as, next' a = next a) :
    Linked nil next' v as := by
  induction as generalizing v with
  | nil => exact hl
  | cons a as ih =>
    refine ⟨hl.1, hl.2.1, ?_⟩
    rw [hsame a List.mem_cons_self]
    exact ih hl.2.2 fun b hb => hsame b (List.mem_cons_of_mem a hb)

/-- A list that does not start with `nil` starts with a node. -/
theorem Linked.exists_cons (hl : Linked nil next v as) (hv : v ≠ nil) :
    ∃ bs, as = v :: bs ∧ Linked nil next (next v) bs := by
  cases as with
  | nil => exact absurd hl hv
  | cons a as =>
    obtain ⟨rfl, -, hrest⟩ := hl
    exact ⟨as, rfl, hrest⟩

theorem Linked.eq_nil_iff (hl : Linked nil next v as) : v = nil ↔ as = [] := by
  cases as with
  | nil => exact ⟨fun _ => rfl, fun _ => hl⟩
  | cons a as => exact ⟨fun hv => absurd (hl.1.symm.trans hv) hl.2.1, fun h => by cases h⟩

/-- Where a list starts, it continues in one way only. -/
theorem Linked.unique (hl : Linked nil next v as) (hl' : Linked nil next v bs) : as = bs := by
  induction as generalizing v bs with
  | nil => exact (hl'.eq_nil_iff.mp hl).symm
  | cons a as ih =>
    have hv : v ≠ nil := fun e => hl.2.1 (hl.1.symm.trans e)
    obtain ⟨bs, rfl, hrest⟩ := hl'.exists_cons hv
    obtain ⟨rfl, -, hrest'⟩ := hl
    rw [ih hrest' hrest]

theorem Linked.suffix (hl : Linked nil next v (pre ++ x :: post)) :
    Linked nil next x (x :: post) := by
  induction pre generalizing v with
  | nil =>
    obtain ⟨rfl, hx, hrest⟩ := hl
    exact ⟨rfl, hx, hrest⟩
  | cons a pre ih => exact ih hl.2.2

/-- **A list that ends does not meet a node twice**: what follows the node is determined by it, so
it would not end. -/
theorem Linked.nodup (hl : Linked nil next v as) : as.Nodup := by
  induction as generalizing v with
  | nil => exact List.nodup_nil
  | cons a as ih =>
    refine List.nodup_cons.mpr ⟨fun ha => ?_, ih hl.2.2⟩
    obtain ⟨pre, post, rfl⟩ := List.append_of_mem ha
    obtain ⟨rfl, hnil, hrest⟩ := hl
    have hagain : v :: (pre ++ v :: post) = v :: post :=
      Linked.unique ⟨rfl, hnil, hrest⟩ hrest.suffix
    have hlength := congrArg List.length hagain
    simp only [List.length_cons, List.length_append] at hlength
    omega

/-- Addresses below `n` make a list of at most `n` nodes. -/
theorem length_le_of_nodup {as : List Nat} {n : Nat} (hnodup : as.Nodup) (hlt : ∀ a ∈ as, a < n) :
    as.length ≤ n := by
  have hsub := hnodup.subperm fun a ha => List.mem_range.mpr (hlt a ha)
  simpa using hsub.length_le

/-- A list given by its nodes: each leads to the next, and the last one to `nil`. -/
theorem linked_map_range {n : Nat} {f : Nat → α} (hstep : ∀ i < n, next (f i) = f (i + 1))
    (hlast : next (f n) = nil) (hne : ∀ i ≤ n, f i ≠ nil) :
    Linked nil next (f 0) ((List.range (n + 1)).map f) := by
  induction n generalizing f with
  | zero => exact ⟨rfl, hne 0 le_rfl, hlast⟩
  | succ n ih =>
    rw [List.range_succ_eq_map, List.map_cons, List.map_map]
    refine ⟨rfl, hne 0 (Nat.zero_le _), ?_⟩
    rw [hstep 0 (Nat.zero_lt_succ n)]
    exact ih (f := f ∘ Nat.succ) (fun i hi => hstep (i + 1) (by omega)) hlast
      fun i hi => hne (i + 1) (by omega)

/-! ## Changing a list

A list is linked by a function `next`, and a change is a change of this function at one node.  The
nodes are different from each other, so the other parts of the list are linked as before. -/

/-- The last node of a list with head `h`. -/
def lastFrom : α → List α → α
  | h, [] => h
  | _, a :: as => lastFrom a as

theorem lastFrom_mem (h : α) (as : List α) : lastFrom h as ∈ h :: as := by
  induction as generalizing h with
  | nil => exact List.mem_cons_self
  | cons a as ih => exact List.mem_cons_of_mem h (ih a)

theorem lastFrom_append_cons (h b : α) (as bs : List α) :
    lastFrom h (as ++ b :: bs) = lastFrom b bs := by
  induction as generalizing h with
  | nil => rfl
  | cons a as ih => exact ih a

/-- The node before a list is not the last one of its front part. -/
theorem ne_lastFrom (hh : h ∉ a :: pre ++ post) : h ≠ lastFrom a pre :=
  fun e => hh (List.mem_append_left post (e ▸ lastFrom_mem a pre))

theorem Linked.next_lastFrom (hl : Linked nil next (next h) (pre ++ post)) :
    Linked nil next (next (lastFrom h pre)) post := by
  induction pre generalizing h with
  | nil => exact hl
  | cons a pre ih =>
    obtain ⟨-, -, hrest⟩ := hl
    exact ih hrest

/-- Put a node behind the last of `pre`. -/
theorem Linked.insert (hl : Linked nil next (next h) (pre ++ post)) (hh : h ∉ pre ++ post)
    (hx : x ≠ nil) (hxnext : next' x = next (lastFrom h pre)) (hlast : next' (lastFrom h pre) = x)
    (hsame : ∀ a ∈ h :: (pre ++ post), a ≠ lastFrom h pre → next' a = next a) :
    Linked nil next' (next' h) (pre ++ x :: post) := by
  induction pre generalizing h with
  | nil =>
    refine ⟨hlast, hx, ?_⟩
    rw [hxnext]
    exact hl.congr fun a ha => hsame a (List.mem_cons_of_mem h ha) fun e => hh (by
      rw [show a = h from e] at ha
      exact ha)
  | cons a pre ih =>
    have hnodup := hl.nodup
    obtain ⟨hnext, ha, hrest⟩ := hl
    have hne : h ≠ lastFrom a pre := ne_lastFrom hh
    refine ⟨(hsame h List.mem_cons_self hne).trans hnext, ha, ?_⟩
    exact ih hrest (List.nodup_cons.mp hnodup).1 hxnext hlast
      fun b hb => hsame b (List.mem_cons_of_mem h hb)

/-- Take out the node behind the last of `pre`. -/
theorem Linked.erase (hl : Linked nil next (next h) (pre ++ x :: post)) (hh : h ∉ pre ++ x :: post)
    (hlast : next' (lastFrom h pre) = next x)
    (hsame : ∀ a ∈ h :: (pre ++ post), a ≠ lastFrom h pre → next' a = next a) :
    Linked nil next' (next' h) (pre ++ post) := by
  induction pre generalizing h with
  | nil =>
    obtain ⟨-, -, hrest⟩ := hl
    rw [show next' h = next x from hlast]
    exact hrest.congr fun a ha => hsame a (List.mem_cons_of_mem h ha) fun e => hh (by
      rw [show a = h from e] at ha
      exact List.mem_cons_of_mem x ha)
  | cons a pre ih =>
    have hnodup := hl.nodup
    obtain ⟨hnext, ha, hrest⟩ := hl
    have hne : h ≠ lastFrom a pre := ne_lastFrom hh
    refine ⟨(hsame h List.mem_cons_self hne).trans hnext, ha, ?_⟩
    exact ih hrest (List.nodup_cons.mp hnodup).1 hlast
      fun b hb => hsame b (List.mem_cons_of_mem h hb)

end Chain
