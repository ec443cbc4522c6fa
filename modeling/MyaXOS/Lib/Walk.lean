import MyaXOS.Lib.Chain

/-!
# Walks below a bound

A loop starts at a place, goes from each place `p` to `next p`, and goes on as long as it is below
`stop`.  `Visits next stop o ps o'` says that it visits the places `ps`, from `o` on, and is at `o'`
then.

* Walks are put together with `Visits.append`.
* A walk that gets out does not come twice to the same place, and so it visits at most `stop` places
  (`Visits.length_le`).
* `Tiles size ps stop o` says that the pieces at `ps`, with the sizes `size`, fill the room from `o`
  to `stop`; `Tiles.visits` is the walk over them.

Nothing is assumed of `next`.  It may lead backwards, beyond the bound, or to the same place again,
as the lengths in a damaged file do, and then there is either no list of places or a list that is
not in order.  What can be said about a walk that ends is that its places are different: where it
goes from a place depends on the place, so a walk that came to one twice would not end.  This is the
argument of `Chain.Linked.nodup`, and `Visits.linked` makes a walk a chain in order to use it.

`Tiles` is the case in which all is well: the pieces lie one behind the other, and the last one ends
at the bound.  It is a statement about sizes and not about a loop, and so it is what a description
of a well-formed layout is made of.
-/

set_option autoImplicit false

namespace Walk

variable {next : Nat → Nat} {stop o o' o'' p : Nat} {ps qs : List Nat}

/-- The loop visits `ps`, from `o` on, and is at `o'` then. -/
def Visits (next : Nat → Nat) (stop : Nat) : Nat → List Nat → Nat → Prop
  | o, [], o' => o = o'
  | o, p :: ps, o' => o = p ∧ p < stop ∧ Visits next stop (next p) ps o'

theorem Visits.append (h : Visits next stop o ps o') (h' : Visits next stop o' qs o'') :
    Visits next stop o (ps ++ qs) o'' := by
  induction ps generalizing o with
  | nil =>
    cases h
    exact h'
  | cons p ps ih => exact ⟨h.1, h.2.1, ih h.2.2⟩

theorem Visits.lt (h : Visits next stop o ps o') (hp : p ∈ ps) : p < stop := by
  induction ps generalizing o with
  | nil => cases hp
  | cons q ps ih =>
    rcases List.mem_cons.mp hp with rfl | hp
    · exact h.2.1
    · exact ih h.2.2 hp

/-- A walk that gets out has been wherever a shorter one has. -/
theorem Visits.subset (h : Visits next stop o ps o') (hout : stop ≤ o')
    (h' : Visits next stop o qs o'') : qs ⊆ ps := by
  induction qs generalizing o ps with
  | nil => exact List.nil_subset ps
  | cons q qs ih =>
    obtain ⟨rfl, hlt, hrest'⟩ := h'
    cases ps with
    | nil =>
      cases h
      exact absurd hlt (Nat.not_lt.mpr hout)
    | cons p ps =>
      obtain ⟨rfl, -, hrest⟩ := h
      exact List.cons_subset_cons o (ih hrest hrest')

/-- A walk that gets out is a chain that ends at the bound. -/
theorem Visits.linked (h : Visits next stop o ps o') (hout : stop ≤ o') :
    Chain.Linked stop (fun p => min (next p) stop) (min o stop) ps := by
  induction ps generalizing o with
  | nil =>
    cases h
    exact Nat.min_eq_right hout
  | cons p ps ih =>
    obtain ⟨rfl, hlt, hrest⟩ := h
    exact ⟨Nat.min_eq_left hlt.le, hlt.ne, ih hrest⟩

/-- **A walk that gets out is short.**  It never comes to a place twice, since it would then go
round for ever. -/
theorem Visits.length_le (h : Visits next stop o ps o') (hout : stop ≤ o') : ps.length ≤ stop :=
  Chain.length_le_of_nodup (h.linked hout).nodup fun _ => h.lt

/-- The pieces at the places `ps` fill the room from `o` to `stop`. -/
def Tiles (size : Nat → Nat) (stop : Nat) : Nat → List Nat → Prop
  | o, [] => o = stop
  | o, p :: ps => o = p ∧ 0 < size p ∧ Tiles size stop (p + size p) ps

theorem Tiles.le {size : Nat → Nat} (h : Tiles size stop o ps) : o ≤ stop := by
  induction ps generalizing o with
  | nil => exact Nat.le_of_eq h
  | cons p ps ih =>
    obtain ⟨rfl, -, hrest⟩ := h
    exact (Nat.le_add_right ..).trans (ih hrest)

theorem Tiles.length_le {size : Nat → Nat} (h : Tiles size stop o ps) : o + ps.length ≤ stop := by
  induction ps generalizing o with
  | nil => exact Nat.le_of_eq h
  | cons p ps ih =>
    obtain ⟨rfl, hpos, hrest⟩ := h
    have := ih hrest
    rw [List.length_cons]
    omega

theorem Tiles.head {size : Nat → Nat} (h : Tiles size stop o ps) (hlt : o < stop) :
    ∃ qs, ps = o :: qs := by
  cases ps with
  | nil => exact absurd h hlt.ne
  | cons p ps => exact ⟨ps, by rw [h.1]⟩

/-- **The walk over pieces** that are laid out from `base` on: a function which goes from each piece
to the one behind it visits them all, in order, and then stops. -/
theorem Tiles.visits {size : Nat → Nat} {room base : Nat} (h : Tiles size room o ps)
    (hstop : base + room ≤ stop)
    (hnext : ∀ p, p + size p ≤ room → next (base + p) = base + (p + size p)) :
    Visits next stop (base + o) (ps.map (base + ·)) (base + room) := by
  induction ps generalizing o with
  | nil =>
    rw [show o = room from h]
    rfl
  | cons p ps ih =>
    obtain ⟨rfl, hpos, hrest⟩ := h
    have hle := hrest.le
    refine ⟨rfl, ?_, by rw [hnext o hle]; exact ih hrest⟩
    show base + o < stop
    omega

end Walk
