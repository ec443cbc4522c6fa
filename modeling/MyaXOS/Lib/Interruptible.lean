import Mathlib.Order.Basic

/-!
# Code that is interrupted

A piece of straight-line code is a list of operations on a state.  Between any two of them something
else may happen to the state.

* `Steps rely ops s t`: the operations lead from `s` to `t`, and what happens between them is in the
  relation `rely`.  An assertion that `rely` does not disturb is `Stable`, and `Guarantees` is a
  triple of assertions around the code, with a rule for each way to put code together.
* `Nested traps ops s t`: the same, where what happens is a trap that runs code of its own, which
  may be trapped again.
* `Nested.steps` closes the circle.  If the code of a trap, disturbed by `rely` only, does no more
  than `rely` allows, then traps do no more than that however deep they are nested.
* `Steps.view` is what an undisturbed observer sees.

**The circle.**  One wants to show that an interrupt leaves things as they were.  Its code may be
interrupted too, by code of which the same has to be shown.  An induction on the depth would do, but
the depth is not bounded, and the code of a trap is not the code that it has interrupted.  The
relation `Nested` is inductive, with a trap as one of its constructors, so the induction is on how a
run has come about: inside a trap, the run of its code is a smaller run, and for it `rely` may be
used already.  What is left for a user of the library is to show that the code of a single trap,
with steps of `rely` between its operations, stays within `rely`, and for this there are the rules
of `Guarantees`.

`rely` is a relation and not an assertion, because what a trap leaves alone is stated by comparing
the state after it with the state before.  Nothing is asked of it but that the assertions around the
code are stable under it.
-/

set_option autoImplicit false

namespace Interruptible

universe u v

variable {σ : Type u}

/-- Perform the operations one after the other, with steps of `rely` in between. -/
inductive Steps (rely : σ → σ → Prop) : List (σ → σ) → σ → σ → Prop
  | nil (s : σ) : Steps rely [] s s
  | op {f : σ → σ} {ops : List (σ → σ)} {s t : σ} :
    Steps rely ops (f s) t → Steps rely (f :: ops) s t
  | other {ops : List (σ → σ)} {s s' t : σ} :
    rely s s' → Steps rely ops s' t → Steps rely ops s t

/-- Perform the operations one after the other, with traps in between.  In a state `s` there may be
a trap that starts in the state `s'` and runs `code`. -/
inductive Nested (traps : σ → σ → List (σ → σ) → Prop) : List (σ → σ) → σ → σ → Prop
  | nil (s : σ) : Nested traps [] s s
  | op {f : σ → σ} {ops : List (σ → σ)} {s t : σ} :
    Nested traps ops (f s) t → Nested traps (f :: ops) s t
  | trap {code ops : List (σ → σ)} {s s' s'' t : σ} :
    traps s s' code → Nested traps code s' s'' → Nested traps ops s'' t → Nested traps ops s t

/-- An assertion that `rely` does not disturb: however often others step in between, it goes on to
hold. -/
def Stable (rely : σ → σ → Prop) (P : σ → Prop) : Prop := ∀ s s', rely s s' → P s → P s'

/-- From a state in `P` the code leads to states in `Q` only. -/
def Guarantees (rely : σ → σ → Prop) (P : σ → Prop) (ops : List (σ → σ)) (Q : σ → Prop) : Prop :=
  ∀ s t, P s → Steps rely ops s t → Q t

variable {rely : σ → σ → Prop} {traps : σ → σ → List (σ → σ) → Prop} {P P' Q R : σ → Prop}
  {f : σ → σ} {ops ops' : List (σ → σ)} {s t : σ}

/-- Nothing need happen in between. -/
theorem Nested.plain (ops : List (σ → σ)) (s : σ) :
    Nested traps ops s (ops.foldl (fun s f => f s) s) := by
  induction ops generalizing s with
  | nil => exact .nil s
  | cons f ops ih => exact .op (ih (f s))

/-! ## Rules

Assertions must be stable, since anything that `rely` allows may happen before the next operation.
With this the rules are those for straight-line code. -/

/-- Code that does nothing keeps what is stable. -/
theorem Guarantees.nil (hP : Stable rely P) : Guarantees rely P [] P := by
  intro s t hs hst
  generalize hops : ([] : List (σ → σ)) = ops at hst
  induction hst with
  | nil s => exact hs
  | op _ _ => cases hops
  | other hrely _ ih => exact ih (hP _ _ hrely hs) hops

/-- **One operation, and the rest**: the assertion has to be stable under `rely`, since interrupts
may come before the operation. -/
theorem Guarantees.cons (hP : Stable rely P) (hf : ∀ s, P s → P' (f s))
    (h : Guarantees rely P' ops Q) : Guarantees rely P (f :: ops) Q := by
  intro s t hs hst
  generalize hops : f :: ops = code at hst
  induction hst with
  | nil s => cases hops
  | op hrest _ =>
    cases hops
    exact h _ _ (hf _ hs) hrest
  | other hrely _ ih => exact ih (hP _ _ hrely hs) hops

/-- A state between two pieces of code. -/
theorem Steps.of_append (h : Steps rely (ops ++ ops') s t) :
    ∃ m, Steps rely ops s m ∧ Steps rely ops' m t := by
  generalize hcode : ops ++ ops' = code at h
  induction h generalizing ops with
  | nil s =>
    obtain ⟨rfl, rfl⟩ := List.append_eq_nil_iff.mp hcode
    exact ⟨s, .nil s, .nil s⟩
  | op hrest ih =>
    cases ops with
    | nil =>
      cases hcode
      exact ⟨_, .nil _, .op hrest⟩
    | cons g ops =>
      rw [List.cons_append] at hcode
      cases hcode
      obtain ⟨m, hm, hm'⟩ := ih rfl
      exact ⟨m, .op hm, hm'⟩
  | other hrely _ ih =>
    obtain ⟨m, hm, hm'⟩ := ih hcode
    exact ⟨m, .other hrely hm, hm'⟩

/-- **One piece of code after another**: what the first one guarantees at its end is what the second
one starts from. -/
theorem Guarantees.append (h : Guarantees rely P ops Q) (h' : Guarantees rely Q ops' R) :
    Guarantees rely P (ops ++ ops') R := by
  intro s t hs hst
  obtain ⟨m, hm, hm'⟩ := hst.of_append
  exact h' _ _ (h _ _ hs hm) hm'

/-! ## Traps

A trap is code that runs between two operations and may be interrupted by traps in turn.  If each
does no more than `rely` as long as those inside of it do, then all do, by induction on how they are
nested. -/

/-- **Traps do no more than `rely`**, however deep they are nested, if the code of a trap does no
more than that while nothing else than `rely` happens to it. -/
theorem Nested.steps
    (h : ∀ s s' code t, traps s s' code → Steps rely code s' t → rely s t)
    (hst : Nested traps ops s t) : Steps rely ops s t := by
  induction hst with
  | nil s => exact .nil s
  | op _ ih => exact .op ih
  | trap htrap _ _ ihcode ihrest => exact .other (h _ _ _ _ htrap ihcode) ihrest

/-- **An observer that `rely` does not disturb** sees the operations, and nothing else. -/
theorem Steps.view {α : Type v} {view : σ → α} (hrely : ∀ s s', rely s s' → view s' = view s)
    {seen : (σ → σ) → α → α} (hops : ∀ f ∈ ops, ∀ s, view (f s) = seen f (view s))
    (hst : Steps rely ops s t) : view t = ops.foldl (fun a f => seen f a) (view s) := by
  induction hst with
  | nil s => rfl
  | op _ ih =>
    rw [List.foldl_cons, ← hops _ List.mem_cons_self,
      ih fun g hg => hops g (List.mem_cons_of_mem _ hg)]
  | other hs _ ih => rw [ih hops, hrely _ _ hs]

end Interruptible
