import Mathlib.Tactic.ByContra

/-!
# Runs of a machine that may stop

A machine is a function `step : ω → σ → Except ε σ`: an operation takes a state to the next one or
stops the run with an error.  `run` performs a list of operations.  Two ways of talking about every
state of a run are defined by recursion on the operations:

* `Along guard os s`: each operation of the run is performed in a state that meets `guard`;
* `Always P os s`: the state is in `P` at the start and after each operation.

`along_always` is the invariant rule: if the guarded steps preserve `P` then a run that is guarded
along the way is in `P` always.  `always_iff_along` is its exact form, for a guard that rules out
nothing but the steps that leave `P`.

What is to be said about an operation rather than about a state is a guard as well: `along_of_inv`
and `along_of_run` are the two directions between a guard and what it is good for.

**Why recursion and not a list of states.**  A run that stops has fewer states than operations, and
which it has is not known before it is run.  With `Along` and `Always` a run that has stopped simply
makes no further demands, so that a statement about "every state of the run" needs no case for it,
and a proof about a run is always the same induction: on the operations, with the state generalised.
It is done here, once for each rule, and everywhere else a rule is applied to a lemma on one step.

**Conditions of a run.**  Many functions do what they should only in some states.  A statement about
them has the form "if every operation of the run meets its condition, then the property holds all
along", and its converse says that the condition is the right one.  The invariant that carries the
proof is usually stronger than the property, and it is known to hold only as long as the conditions
have been met.  This is why the exact rules have three predicates, the invariant, the property that
it implies, and the guard: an operation that is not guarded has to lead out of the property, while
one that is guarded has to keep the invariant.

**Two machines.**  `run_follows` relates a machine to an abstract state that changes with it, and
`run_agrees` relates two machines that stop at the same time.  The relation may mention both states,
so a guard that keeps it is all that has to be found.  `balance` is another rule of this kind, for a
quantity that comes in and goes out with each step.
-/

set_option autoImplicit false

namespace Runs

universe u v w

variable {σ : Type u} {ω : Type v} {ε : Type w} (step : ω → σ → Except ε σ)

/-- Perform the operations one after the other. -/
def run : List ω → σ → Except ε σ
  | [], s => .ok s
  | o :: os, s =>
    match step o s with
    | .ok s' => run os s'
    | .error e => .error e

/-- Every operation of the run is performed in a state that meets `guard`. -/
def Along (guard : ω → σ → Prop) : List ω → σ → Prop
  | [], _ => True
  | o :: os, s => guard o s ∧ ∀ s', step o s = .ok s' → Along guard os s'

/-- The run starts in `P` and is in `P` after every operation. -/
def Always (P : σ → Prop) : List ω → σ → Prop
  | [], s => P s
  | o :: os, s => P s ∧ ∀ s', step o s = .ok s' → Always P os s'

variable {step} {guard : ω → σ → Prop} {P : σ → Prop}

theorem Always.head {os : List ω} {s : σ} (h : Always step P os s) : P s := by
  cases os with
  | nil => exact h
  | cons o os => exact h.1

theorem Always.imp {Q : σ → Prop} (hPQ : ∀ s, P s → Q s) {os : List ω} {s : σ}
    (h : Always step P os s) : Always step Q os s := by
  induction os generalizing s with
  | nil => exact hPQ s h
  | cons o os ih => exact ⟨hPQ s h.1, fun s' hs' => ih (h.2 s' hs')⟩

/-- What holds always holds at the end. -/
theorem Always.last {os : List ω} {s s' : σ} (h : Always step P os s)
    (hr : run step os s = .ok s') : P s' := by
  induction os generalizing s with
  | nil => cases hr; exact h
  | cons o os ih =>
    rw [run] at hr
    split at hr
    · next t ht => exact ih (h.2 t ht) hr
    · cases hr

/-- **The invariant rule.**  What every guarded step keeps holds always along a guarded run that
starts with it. -/
theorem along_always (hstep : ∀ o s s', P s → guard o s → step o s = .ok s' → P s')
    {os : List ω} {s : σ} (hs : P s) (h : Along step guard os s) : Always step P os s := by
  induction os generalizing s with
  | nil => exact hs
  | cons o os ih =>
    exact ⟨hs, fun s' hs' => ih (hstep o s s' hs h.1 hs') (h.2 s' hs')⟩

/-- The invariant rule for steps that need no guard. -/
theorem always_of_step (hstep : ∀ o s s', P s → step o s = .ok s' → P s') {os : List ω} {s : σ}
    (hs : P s) : Always step P os s := by
  induction os generalizing s with
  | nil => exact hs
  | cons o os ih => exact ⟨hs, fun s' hs' => ih (hstep o s s' hs hs')⟩

/-- A guard that says nothing about the state. -/
theorem along_of_forall {os : List ω} {s : σ} (h : ∀ o ∈ os, ∀ s, guard o s) :
    Along step guard os s := by
  induction os generalizing s with
  | nil => trivial
  | cons o os ih =>
    exact ⟨h o List.mem_cons_self s, fun _ _ => ih fun o' ho' => h o' (List.mem_cons_of_mem o ho')⟩

/-- **The invariant rule, exactly.**  Among the runs whose steps meet `S`: if the guarded steps
keep `I`, which implies `P`, and a step that is not guarded leads out of `P`, then the runs that
stay in `P` are precisely the guarded ones. -/
theorem always_iff_along_of {I : σ → Prop} {S : ω → σ → Prop}
    (hkeep : ∀ o s s', I s → S o s → guard o s → step o s = .ok s' → I s')
    (hgood : ∀ s, I s → P s)
    (hbad : ∀ o s, I s → S o s → ¬ guard o s → ∃ s', step o s = .ok s' ∧ ¬ P s')
    {os : List ω} {s : σ} (hs : I s) (hside : Along step S os s) :
    Always step P os s ↔ Along step guard os s := by
  induction os generalizing s with
  | nil => exact ⟨fun _ => trivial, fun _ => hgood s hs⟩
  | cons o os ih =>
    constructor
    · intro h
      have hg : guard o s := by
        by_contra hng
        obtain ⟨s', hs', hns'⟩ := hbad o s hs hside.1 hng
        exact hns' (h.2 s' hs').head
      exact ⟨hg, fun s' hs' =>
        (ih (hkeep o s s' hs hside.1 hg hs') (hside.2 s' hs')).mp (h.2 s' hs')⟩
    · intro h
      exact ⟨hgood s hs, fun s' hs' =>
        (ih (hkeep o s s' hs hside.1 h.1 hs') (hside.2 s' hs')).mpr (h.2 s' hs')⟩

/-- The same for steps of any kind. -/
theorem always_iff_along {I : σ → Prop}
    (hkeep : ∀ o s s', I s → guard o s → step o s = .ok s' → I s') (hgood : ∀ s, I s → P s)
    (hbad : ∀ o s, I s → ¬ guard o s → ∃ s', step o s = .ok s' ∧ ¬ P s')
    {os : List ω} {s : σ} (hs : I s) : Always step P os s ↔ Along step guard os s :=
  always_iff_along_of (S := fun _ _ => True) (fun o s s' h _ => hkeep o s s' h) hgood
    (fun o s h _ => hbad o s h) hs (along_of_forall fun _ _ _ => trivial)

/-- Along a run whose next state is known. -/
theorem along_cons_iff {o : ω} {os : List ω} {s s' : σ} (hs : step o s = .ok s') :
    Along step guard (o :: os) s ↔ guard o s ∧ Along step guard os s' := by
  refine and_congr_right fun _ => ⟨fun h => h s' hs, fun h t ht => ?_⟩
  cases hs.symm.trans ht
  exact h

theorem Along.imp {guard' : ω → σ → Prop} (h : ∀ o s, guard o s → guard' o s) {os : List ω} {s : σ}
    (hs : Along step guard os s) : Along step guard' os s := by
  induction os generalizing s with
  | nil => trivial
  | cons o os ih => exact ⟨h o s hs.1, fun s' hs' => ih (hs.2 s' hs')⟩

theorem Along.and {guard' : ω → σ → Prop} {os : List ω} {s : σ} (h : Along step guard os s)
    (h' : Along step guard' os s) : Along step (fun o s => guard o s ∧ guard' o s) os s := by
  induction os generalizing s with
  | nil => trivial
  | cons o os ih => exact ⟨⟨h.1, h'.1⟩, fun s' hs' => ih (h.2 s' hs') (h'.2 s' hs')⟩

/-- What holds of a guarded operation in a state of the invariant holds along a guarded run. -/
theorem along_of_inv {I : σ → Prop} {good : ω → σ → Prop}
    (hkeep : ∀ o s s', I s → guard o s → step o s = .ok s' → I s')
    (hgood : ∀ o s, I s → guard o s → good o s) {os : List ω} {s : σ} (hs : I s)
    (h : Along step guard os s) : Along step good os s := by
  induction os generalizing s with
  | nil => trivial
  | cons o os ih =>
    exact ⟨hgood o s hs h.1, fun s' hs' => ih (hkeep o s s' hs h.1 hs') (h.2 s' hs')⟩

/-- The converse, on a run that does not stop: if the operations it is made of are only good when
they meet `guard'`, and then keep the invariant, then all of them do. -/
theorem along_of_run {I : σ → Prop} {good guard' : ω → σ → Prop}
    (hkeep : ∀ o s s', I s → guard o s → guard' o s → step o s = .ok s' → I s')
    (hneeds : ∀ o s s', I s → guard o s → step o s = .ok s' → good o s → guard' o s)
    {os : List ω} {s t : σ} (hs : I s) (h : Along step guard os s) (hrun : run step os s = .ok t)
    (hgood : Along step good os s) : Along step guard' os s := by
  induction os generalizing s with
  | nil => trivial
  | cons o os ih =>
    rw [run] at hrun
    split at hrun
    · next s₁ hs₁ =>
      have hguard := hneeds o s s₁ hs h.1 hs₁ hgood.1
      refine ⟨hguard, fun s' hs' => ?_⟩
      cases hs₁.symm.trans hs'
      exact ih (hkeep o s s₁ hs h.1 hguard hs₁) (h.2 s₁ hs₁) hrun (hgood.2 s₁ hs₁)
    · cases hrun

/-- The run is guarded all along, and ends in `t`.  It is how a run on given inputs is put together
from runs that are known: the guards are collected along with the steps. -/
structure Leads (step : ω → σ → Except ε σ) (guard : ω → σ → Prop) (os : List ω) (s t : σ) :
    Prop where
  along : Along step guard os s
  run : Runs.run step os s = .ok t

theorem Leads.refl (s : σ) : Leads step guard [] s s := ⟨trivial, rfl⟩

/-- **One more step** at the end of a run. -/
theorem Leads.snoc {os : List ω} {o : ω} {s t u : σ} (h : Leads step guard os s t)
    (hguard : guard o t) (hstep : step o t = .ok u) : Leads step guard (os ++ [o]) s u := by
  induction os generalizing s with
  | nil =>
    obtain rfl : s = t := Except.ok.inj h.run
    exact ⟨⟨hguard, fun _ _ => trivial⟩, by simp only [List.nil_append, Runs.run, hstep]⟩
  | cons o' os ih =>
    obtain ⟨⟨hhead, hrest⟩, hrun⟩ := h
    rw [Runs.run] at hrun
    split at hrun
    · next s' hs' =>
      obtain ⟨halong, hrun'⟩ := ih ⟨hrest s' hs', hrun⟩
      refine ⟨⟨hhead, fun s'' hs'' => ?_⟩, ?_⟩
      · cases hs'.symm.trans hs''
        exact halong
      · simp only [List.cons_append, Runs.run, hs']
        exact hrun'
    · cases hrun

/-- **How a guarded run stops.**  If the guarded steps keep `I` and stop with an error in `Q` only,
then so does the run. -/
theorem run_error_of_along {I : σ → Prop} {Q : ε → Prop} {os : List ω} {s : σ}
    (hkeep : ∀ o s s', I s → guard o s → step o s = .ok s' → I s')
    (herr : ∀ o ∈ os, ∀ s e, I s → guard o s → step o s = .error e → Q e)
    (hs : I s) (h : Along step guard os s) {e : ε} (hr : run step os s = .error e) : Q e := by
  induction os generalizing s with
  | nil => cases hr
  | cons o os ih =>
    rw [run] at hr
    split at hr
    · next t ht =>
      exact ih (fun o' ho' => herr o' (List.mem_cons_of_mem o ho')) (hkeep o s t hs h.1 ht)
        (h.2 t ht) hr
    · next e' he' =>
      cases hr
      exact herr o List.mem_cons_self s e hs h.1 he'

/-- **Following a run.**  If a guarded step keeps the relation with what `next` makes of the
abstract state, or stops with an error in `Q`, then so does the run. -/
theorem run_follows {τ : Type*} {next : τ → ω → τ} {R : σ → τ → Prop} {Q : ε → Prop}
    (hstep : ∀ o s t, R s t → guard o s →
      (∃ s', step o s = .ok s' ∧ R s' (next t o)) ∨ ∃ e, step o s = .error e ∧ Q e)
    {os : List ω} {s : σ} {t : τ} (hR : R s t) (h : Along step guard os s) :
    (∃ s', run step os s = .ok s' ∧ R s' (os.foldl next t)) ∨
      ∃ e, run step os s = .error e ∧ Q e := by
  induction os generalizing s t with
  | nil => exact Or.inl ⟨s, rfl, hR⟩
  | cons o os ih =>
    rw [run, List.foldl_cons]
    rcases hstep o s t hR h.1 with ⟨s', hs', hR'⟩ | ⟨e, he, hQ⟩
    · rw [hs']
      exact ih hR' (h.2 s' hs')
    · rw [he]
      exact Or.inr ⟨e, rfl, hQ⟩

/-! ## Two machines side by side

`Agree` relates two results, and it counts an error as agreement if it is the same error on both
sides.  With it a simulation covers the runs that stop, and nothing needs to be known of when they
do. -/

/-- Two machines do alike: they reach related states, or stop with the same error. -/
inductive Agree {τ : Type*} (R : σ → τ → Prop) : Except ε σ → Except ε τ → Prop where
  | ok {s : σ} {t : τ} (h : R s t) : Agree R (.ok s) (.ok t)
  | error (e : ε) : Agree R (.error e) (.error e)

theorem agree_iff {τ : Type*} {R : σ → τ → Prop} {r : Except ε σ} {r' : Except ε τ} :
    Agree R r r' ↔ (∃ s t, r = .ok s ∧ r' = .ok t ∧ R s t) ∨ ∃ e, r = .error e ∧ r' = .error e := by
  constructor
  · rintro (h | e)
    · exact Or.inl ⟨_, _, rfl, rfl, h⟩
    · exact Or.inr ⟨e, rfl, rfl⟩
  · rintro (⟨s, t, rfl, rfl, h⟩ | ⟨e, rfl, rfl⟩)
    · exact .ok h
    · exact .error e

theorem Agree.of_ok {τ : Type*} {R : σ → τ → Prop} {r : Except ε σ} {r' : Except ε τ} {s : σ}
    (h : Agree R r r') (hs : r = .ok s) : ∃ t, r' = .ok t ∧ R s t := by
  subst hs
  cases h with
  | ok h => exact ⟨_, rfl, h⟩

theorem Agree.of_ok' {τ : Type*} {R : σ → τ → Prop} {r : Except ε σ} {r' : Except ε τ} {t : τ}
    (h : Agree R r r') (ht : r' = .ok t) : ∃ s, r = .ok s ∧ R s t := by
  subst ht
  cases h with
  | ok h => exact ⟨_, rfl, h⟩

theorem Agree.of_error' {τ : Type*} {R : σ → τ → Prop} {r : Except ε σ} {r' : Except ε τ} {e : ε}
    (h : Agree R r r') (he : r' = .error e) : r = .error e := by
  subst he
  cases h
  rfl

/-- If guarded steps from related states do alike, then so do the runs. -/
theorem run_agrees {τ : Type*} {step' : ω → τ → Except ε τ} {R : σ → τ → Prop}
    (hstep : ∀ o s t, R s t → guard o s → Agree R (step o s) (step' o t))
    {os : List ω} {s : σ} {t : τ} (hR : R s t) (h : Along step guard os s) :
    Agree R (run step os s) (run step' os t) := by
  induction os generalizing s t with
  | nil => exact .ok hR
  | cons o os ih =>
    have hfirst := hstep o s t hR h.1
    rw [run, run]
    split
    · next s' hs' =>
      obtain ⟨t', ht', hR'⟩ := hfirst.of_ok hs'
      rw [ht']
      exact ih hR' (h.2 s' hs')
    · next e he =>
      rw [he] at hfirst
      generalize step' o t = r at hfirst ⊢
      cases hfirst
      exact .error e

/-! ## Counting

A number may be attached to each operation, depending on the state in which it is performed, and
summed up along a run.  If a quantity of the state changes by what comes in less what goes out in
every step, then it does so over the run. -/

variable (step) in
/-- What the operations of the run count for, each in the state it is performed in. -/
def count (p : ω → σ → Nat) : List ω → σ → Nat
  | [], _ => 0
  | o :: os, s =>
    p o s + match step o s with
      | .ok s' => count p os s'
      | .error _ => 0

theorem count_add (p q : ω → σ → Nat) (os : List ω) (s : σ) :
    count step (fun o s => p o s + q o s) os s = count step p os s + count step q os s := by
  induction os generalizing s with
  | nil => rfl
  | cons o os ih =>
    rw [count, count, count]
    split
    · next s' _ =>
      rw [ih s']
      omega
    · omega

theorem count_eq_zero {I : σ → Prop} {p : ω → σ → Nat}
    (hkeep : ∀ o s s', I s → step o s = .ok s' → I s') (hp : ∀ o s, I s → p o s = 0)
    {os : List ω} {s : σ} (hs : I s) : count step p os s = 0 := by
  induction os generalizing s with
  | nil => rfl
  | cons o os ih =>
    rw [count, hp o s hs]
    split
    · next s' hs' => rw [ih (hkeep o s s' hs hs')]
    · rfl

/-- **The balance of a run.**  If every step balances what comes in with what goes out, then so does
the run. -/
theorem balance {I : σ → Prop} {f : σ → Nat} {p q : ω → σ → Nat}
    (hkeep : ∀ o s s', I s → step o s = .ok s' → I s')
    (hstep : ∀ o s s', I s → step o s = .ok s' → f s' + q o s = f s + p o s)
    {os : List ω} {s t : σ} (hs : I s) (hrun : run step os s = .ok t) :
    f t + count step q os s = f s + count step p os s := by
  induction os generalizing s with
  | nil =>
    cases hrun
    rfl
  | cons o os ih =>
    rw [run] at hrun
    rw [count, count]
    split at hrun
    · next s' hs' =>
      have hrest := ih (hkeep o s s' hs hs') hrun
      have hfirst := hstep o s s' hs hs'
      omega
    · cases hrun

end Runs
