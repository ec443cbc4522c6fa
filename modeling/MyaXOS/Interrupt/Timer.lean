import MyaXOS.Interrupt.Irq

/-!
# The timer

The routine of line 0 counts.  It counts in `timer_ticks`, and every eighteenth time in `ticker`.

* `timerHandler` is the routine.  `LeavesTimer` is what is asked of the rest of the kernel: it does
  not touch the two counters, nor the routine of line 0.
* `timer_counts` says what the counters come to in any run.
* `timer_wait_iff` is about `timer_wait`, which looks at a counter again and again.

That the timer counts every interrupt is a statement about the controllers and about `irq_handler`,
and only in the end about a counter.  It follows from `served_once`: the routine of a line has been
called as often as interrupts of the line have been requested, but for those that were taken back
and those that have not been handled yet.  What is added here is that a counter is the number of
calls.  So the invariant, `Counted`, compares the counters with the calls that `irq_handler` has
made, and each event either is such a call or leaves both alone.

The two counters have 32 bits, and one of them is signed.  `ticker` is incremented when `timer_ticks
% 18` is 0, where `%` is that of C, on a number that may be negative after a long time; this is
`srem_eq_zero_iff`.  Both counts are therefore stated modulo `2 ^ 32`.

`timer_wait` computes an end from the counter and waits until the counter has reached it.  Neither
the sum nor the comparison knows about a carry, and `timer_wait_iff` says how many interrupts it
waits for if there is none.
-/

set_option autoImplicit false

namespace MyaXOS

open Pic Runs

/-- The variables of `timer.c`. -/
structure Timer where
  /-- `timer_ticks`. -/
  ticks : BitVec 32
  ticker : BitVec 32
  deriving DecidableEq, Repr

/-- `timer_handler(r)`. -/
def timerHandler (t : Timer) : Timer :=
  let ticks := t.ticks + 1
  { ticks, ticker := if ticks.srem 18 = 0 then t.ticker + 1 else t.ticker }

/-- The condition of the loop in `timer_wait`, when `eticks` has been computed from the counter
`start`. -/
def timerWaiting (start ticks now : BitVec 32) : Bool :=
  let eticks := start + ticks
  now.slt eticks

namespace Irq

variable {W : Type} {p p' : Pair} {s t : Irq (Timer × W)} {es : List (Event (Timer × W))}
  {routines : Nat → Option (Timer × W → Timer × W)} {vars : Timer × W}

/-- The routine of line 0, which leaves the other variables alone. -/
def timerRoutine (vars : Timer × W) : Timer × W := (timerHandler vars.1, vars.2)

/-- A routine that is not the timer's, and that leaves the two counters as they are. -/
def LeavesCounters (handler : Timer × W → Timer × W) : Prop := ∀ vars, (handler vars).1 = vars.1

/-- Nobody but the timer's routine touches the counters. -/
def LeavesTimer : Event (Timer × W) → Prop
  | .program f => LeavesCounters f
  | .install irq handler => irq ≠ 0 ∧ LeavesCounters handler
  | .uninstall irq => irq ≠ 0
  | _ => True

/-- `timer_install` has been called, and the other routines are not the timer's: whatever else they
do, they leave its two counters alone. -/
structure TimerInstalled (routines : Nat → Option (Timer × W → Timer × W)) : Prop where
  timer : routines 0 = some timerRoutine
  others : ∀ irq ≠ 0, ∀ handler, routines irq = some handler → LeavesCounters handler

/-- The counters, when the routine has been called as often as `irq_handler` was told to.  They are
what the handler makes of them when it is iterated, so that the number of calls is all that a proof
has to follow. -/
structure Counted (start : Timer) (s : Irq (Timer × W)) : Prop where
  installed : TimerInstalled s.routines
  counters : s.vars.1 = timerHandler^[s.calls.count 0] start

/-- What is called for a line. -/
theorem TimerInstalled.handle (h : TimerInstalled routines) (irq : Nat) :
    (Irq.handle routines vars irq).1 = if irq = 0 then timerHandler vars.1 else vars.1 := by
  rw [Irq.handle]
  split_ifs with hirq
  · rw [hirq, h.timer]
    rfl
  · split
    · next handler hhandler => exact h.others irq hirq handler hhandler vars
    · rfl

theorem TimerInstalled.update (h : TimerInstalled routines) {irq : Fin 16} (hirq : irq ≠ 0)
    {handler : Option (Timer × W → Timer × W)} (hhandler : ∀ f ∈ handler, LeavesCounters f) :
    TimerInstalled (Function.update routines irq handler) where
  timer := by
    have hne : 0 ≠ irq.val := fun h => hirq (Fin.ext h.symm)
    rw [Function.update_of_ne hne]
    exact h.timer
  others n hn f hf := by
    by_cases hni : n = irq
    · rw [hni, Function.update_self] at hf
      exact hhandler f hf
    · rw [Function.update_of_ne hni] at hf
      exact h.others n hn f hf

theorem Counted.step {start : Timer} {e : Event (Timer × W)} (h : Counted start s)
    (he : LeavesTimer e) (hstep : Irq.step e s = .ok t) : Counted start t := by
  obtain ⟨hinstalled, hcounters⟩ := h
  cases e with
  | raise w => cases hstep; exact ⟨hinstalled, hcounters⟩
  | withdraw w => cases hstep; exact ⟨hinstalled, hcounters⟩
  | accept ir2 =>
    rw [Irq.step] at hstep
    split at hstep
    · cases hstep
    · cases hstep; exact ⟨hinstalled, hcounters⟩
    · cases hstep
  | program f => cases hstep; exact ⟨hinstalled, (he s.vars).trans hcounters⟩
  | install irq handler =>
    cases hstep
    refine ⟨hinstalled.update he.1 fun f hf => ?_, hcounters⟩
    cases hf
    exact he.2
  | uninstall irq =>
    cases hstep
    exact ⟨hinstalled.update he fun f hf => absurd hf (Option.not_mem_none f), hcounters⟩
  | go =>
    rw [Irq.step] at hstep
    split at hstep
    · cases hstep
    · cases hstep; exact ⟨hinstalled, hcounters⟩
    · next v a as hrunning =>
      cases a with
      | out port b =>
        rw [Irq.perform] at hstep
        dsimp only at hstep
        split at hstep
        · cases hstep; exact ⟨hinstalled, hcounters⟩
        · cases hstep
      | call =>
        rw [Irq.perform] at hstep
        split_ifs at hstep
        cases hstep
        refine ⟨hinstalled, ?_⟩
        dsimp only
        rw [hinstalled.handle, hcounters, List.count_append, List.count_singleton]
        by_cases hv : v - 32 = 0
        · rw [hv, if_pos rfl]
          exact (Function.iterate_succ_apply' ..).symm
        · rw [if_neg hv, if_neg (by rwa [beq_iff_eq]), Nat.add_zero]

/-- Every eighteenth time. -/
theorem srem_eq_zero_iff {n : Nat} (hn : n < 2 ^ 31) :
    (BitVec.ofNat 32 n).srem 18 = 0 ↔ n % 18 = 0 := by
  have hmsb : (BitVec.ofNat 32 n).msb = false := by
    rw [BitVec.msb_eq_false_iff_two_mul_lt, BitVec.toNat_ofNat]
    omega
  have hsrem : (BitVec.ofNat 32 n).srem 18 = BitVec.ofNat 32 n % 18#32 := by
    rw [BitVec.srem_eq, hmsb]
    rfl
  rw [hsrem, ← BitVec.toNat_inj, BitVec.toNat_umod, BitVec.toNat_ofNat,
    Nat.mod_eq_of_lt (show n < 2 ^ 32 by omega)]
  rfl

/-- **Counting to `n`**: the second counter goes up with every eighteenth interrupt.  Below 2^31 the
count is not negative as a signed number, so the remainder is the one of natural numbers. -/
theorem iterate_timerHandler {n : Nat} (hn : n < 2 ^ 31) :
    timerHandler^[n] ⟨0, 0⟩ = ⟨BitVec.ofNat 32 n, BitVec.ofNat 32 (n / 18)⟩ := by
  induction n with
  | zero => rfl
  | succ n ih =>
    have hticks : BitVec.ofNat 32 n + 1 = BitVec.ofNat 32 (n + 1) := (BitVec.ofNat_add n 1).symm
    have hticker : BitVec.ofNat 32 (n / 18) + 1 = BitVec.ofNat 32 (n / 18 + 1) :=
      (BitVec.ofNat_add (n / 18) 1).symm
    rw [Function.iterate_succ_apply', ih (by omega), timerHandler]
    dsimp only
    rw [hticks, if_congr (srem_eq_zero_iff hn) rfl rfl]
    split_ifs with h18
    · rw [hticker, show (n + 1) / 18 = n / 18 + 1 by omega]
    · rw [show (n + 1) / 18 = n / 18 by omega]

theorem toInt_count {n : Nat} (hn : n < 2 ^ 31) : (BitVec.ofNat 32 n).toInt = n := by
  have htoNat : (BitVec.ofNat 32 n).toNat = n := by
    rw [BitVec.toNat_ofNat, Nat.mod_eq_of_lt (by omega)]
  rw [BitVec.toInt_eq_toNat_of_lt (by omega), htoNat]

/-- The counters in a run. -/
theorem counted_of_run (hinstalled : TimerInstalled routines) (hvars : vars.1 = ⟨0, 0⟩)
    (hes : ∀ e ∈ es, LeavesTimer e) (hrun : run Irq.step es (booted p routines vars) = .ok s) :
    Counted ⟨0, 0⟩ s := by
  have hstart : Counted ⟨0, 0⟩ (booted p routines vars) := ⟨hinstalled, hvars⟩
  have halong : Along Irq.step (fun e _ => LeavesTimer e) es (booted p routines vars) :=
    along_of_forall fun e he _ => hes e he
  exact (along_always (fun e s s' h he hstep => h.step he hstep) hstart halong).last hrun

/-- **The timer counts every interrupt.**  In every run since `irq_remap`, `timer_ticks` is the
number of interrupts that the timer has requested, less those that wait and those that it has taken
back, and `ticker` is an eighteenth of that. -/
theorem timer_counts (hquiet : p.Quiet) (hp' : p.outs irqRemap = some p')
    (hinstalled : TimerInstalled routines) (hvars : vars.1 = ⟨0, 0⟩)
    (hes : ∀ e ∈ es, LeavesTimer e) (hrun : run Irq.step es (booted p' routines vars) = .ok s)
    (hlt : count Irq.step (raised (.master 0)) es (booted p' routines vars) < 2 ^ 31) :
    s.vars.1.ticks.toNat + s.accepted (.master 0) + (s.pics.requests (.master 0)).toNat +
        count Irq.step (withdrawn (.master 0)) es (booted p' routines vars) =
      count Irq.step (raised (.master 0)) es (booted p' routines vars) ∧
    s.vars.1.ticker.toNat = s.vars.1.ticks.toNat / 18 := by
  have haccount := account_run (w := .master 0) hquiet hp' (by decide) hrun
  rw [spurious_run hquiet hp' (by decide) (by decide), Nat.add_zero, account] at haccount
  change s.calls.count 0 + _ + _ + _ = _ at haccount
  have hcalls : s.calls.count 0 < 2 ^ 31 := by omega
  have hcounters := (counted_of_run hinstalled hvars hes hrun).counters
  rw [iterate_timerHandler hcalls] at hcounters
  have hticks : s.vars.1.ticks.toNat = s.calls.count 0 := by
    rw [hcounters, BitVec.toNat_ofNat, Nat.mod_eq_of_lt (by omega)]
  rw [hticks]
  refine ⟨haccount, ?_⟩
  rw [hcounters, BitVec.toNat_ofNat, Nat.mod_eq_of_lt (by omega)]

/-- The timer alone. -/
def timerOnly : Nat → Option (Timer × Unit → Timer × Unit) :=
  fun irq => if irq = 0 then some timerRoutine else none

theorem timerOnly_installed : TimerInstalled timerOnly where
  timer := rfl
  others _ hirq handler h := absurd (h.symm.trans (if_neg hirq)) (Option.some_ne_none handler)

/-- An interrupt is requested, accepted and handled. -/
def oneTick (w : Wire) : List (Event (Timer × Unit)) := [.raise w, .accept false, .go, .go, .go]

theorem oneTick_leaves (w : Wire) : ∀ e ∈ oneTick w, LeavesTimer e := by
  simp [oneTick, LeavesTimer]

theorem timer_counts_once :
    ∃ s, run Irq.step (oneTick (.master 0)) (booted remapped timerOnly (⟨0, 0⟩, ())) = .ok s ∧
      s.vars.1.ticks.toNat + s.accepted (.master 0) + (s.pics.requests (.master 0)).toNat +
          count Irq.step (withdrawn (.master 0)) (oneTick (.master 0))
            (booted remapped timerOnly (⟨0, 0⟩, ())) = 1 ∧
        s.vars.1.ticker.toNat = s.vars.1.ticks.toNat / 18 :=
  ⟨_, rfl, timer_counts firmware_quiet outs_irqRemap timerOnly_installed rfl (oneTick_leaves _) rfl
    (by decide)⟩

/-- **`timer_wait` waits for so many interrupts of the timer.**  When it has been called in the
state `s`, the loop goes on in the state `t` if and only if fewer have been handled in between. -/
theorem timer_wait_iff {es' : List (Event (Timer × W))} {ticks : BitVec 32}
    (hinstalled : TimerInstalled routines) (hvars : vars.1 = ⟨0, 0⟩)
    (hes : ∀ e ∈ es, LeavesTimer e) (hes' : ∀ e ∈ es', LeavesTimer e)
    (hrun : run Irq.step es (booted p routines vars) = .ok s)
    (hrun' : run Irq.step es' s = .ok t) (hlt : t.calls.count 0 < 2 ^ 31)
    (hticks : (s.calls.count 0 : Int) + ticks.toInt < 2 ^ 31) :
    timerWaiting s.vars.1.ticks ticks t.vars.1.ticks = true ↔
      (t.calls.count 0 : Int) < s.calls.count 0 + ticks.toInt := by
  have hrest : s.calls <+: t.calls := (always_of_step (P := fun t => s.calls <+: t.calls)
    (fun e u u' hu hstep => hu.trans (calls_step e u u' hstep)) List.prefix_rfl).last hrun'
  have hle : s.calls.count 0 ≤ t.calls.count 0 := hrest.sublist.count_le 0
  have hs := counted_of_run hinstalled hvars hes hrun
  have halong : Along Irq.step (fun e _ => LeavesTimer e) es' s :=
    along_of_forall fun e he _ => hes' e he
  have ht := (along_always (fun e s s' h he hstep => h.step he hstep) hs halong).last hrun'
  have hmin := BitVec.le_toInt ticks
  rw [timerWaiting, hs.counters, ht.counters, iterate_timerHandler hlt,
    iterate_timerHandler (hle.trans_lt hlt)]
  dsimp only
  rw [BitVec.slt_iff_toInt_lt, BitVec.toInt_add, toInt_count hlt, toInt_count (hle.trans_lt hlt),
    Int.bmod_eq_of_le (by omega) (by omega)]

/-- After one tick, somebody who waits for two is still waiting. -/
theorem timer_wait_two :
    ∃ t, run Irq.step (oneTick (.master 0)) (booted remapped timerOnly (⟨0, 0⟩, ())) = .ok t ∧
      timerWaiting 0 2 t.vars.1.ticks = true := by
  obtain ⟨t, ht, hcalls⟩ : ∃ t, run Irq.step (oneTick (.master 0))
      (booted remapped timerOnly (⟨0, 0⟩, ())) = .ok t ∧ t.calls = [0] := ⟨_, rfl, rfl⟩
  have hstart : run Irq.step [] (booted remapped timerOnly (⟨0, 0⟩, ())) =
      .ok (booted remapped timerOnly (⟨0, 0⟩, ())) := rfl
  refine ⟨t, ht, (timer_wait_iff timerOnly_installed rfl (List.forall_mem_nil _) (oneTick_leaves _)
    hstart ht (by rw [hcalls]; decide) (by decide)).mpr ?_⟩
  rw [hcalls]
  decide

end Irq

end MyaXOS
