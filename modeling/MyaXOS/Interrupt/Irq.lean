import MyaXOS.Interrupt.Tables
import MyaXOS.Lib.Pic
import MyaXOS.Lib.Run

/-!
# The hardware interrupts

`irq.c` programs the interrupt controllers, keeps one routine for each line, and when an interrupt
comes calls the routine and tells the controllers that it is over.

* `Irq` is the kernel with the controllers, and `Irq.step` what may happen: devices request
  interrupts and take requests back whenever they like, the processor accepts an interrupt,
  `irq_handler` goes on, and the program and the drivers do their part.
* `Sound` is the invariant.  It holds from `irq_remap` on.
* `never_blocked`, `served_once` and `drain` say that no interrupt is held back, none is lost or
  handled twice, and all are handled by priority.

**What is interleaved.**  `irq_handler` is a list of actions, and a step performs one of them, so
that devices may do something between any two: while the routine is called, before the slave has
been told that it is over, and before the master has.  The processor does not accept another
interrupt then, since the gates leave interrupts off; and this is the only thing that the order of
events is restricted by.  A run is any list of events.  An event that cannot happen in a state is
`Blocked`, and says why.

**The invariant** ties three things together: what the controllers have in service, which actions
`irq_handler` still has to do, and for which interrupt.  If it has nothing to do, nothing is in
service.  Otherwise what is in service is the line of the interrupt, and for a line of the slave the
line 2 of the master, and the ends that will be sent are among the actions that are left
(`Serving`).  Each action either leaves this as it is or ends something that is in service, so the
step lemma is by the position in the list.

**Requests that are taken back.**  A device may withdraw its request after the processor has been
told of it.  The controller then answers with its line 7, which may not be in service at all, and
`irq_handler` sends an end for it all the same.  That this does no harm — because nothing else is in
service at that moment — is the case in which `AtMostOne` is needed.

**Accounts.**  That nothing is lost or done twice is a balance: what has been requested is
withdrawn, or still requested, or accepted and not yet called, or called.  `account_step` says so
for each event, and `Runs.balance` adds it up over a run.  Spurious interrupts are counted on the
side of what comes in, and can only be those of line 7 of a controller.
-/

set_option autoImplicit false

namespace MyaXOS

open Pic Runs

/-! ## What the code does

The kernel's part are bytes written to ports, and the calls of the routines.  Devices and processor
are the other part: requests come and go, and an interrupt is accepted when the master has one and
`irq_handler` is not running.  A step that is not possible is an error that says why. -/

/-- `irq_remap()`: the ports, and what is written to them. -/
def irqRemap : List (Nat × UInt8) :=
  [(0x20, 0x11), (0xA0, 0x11), (0x21, 0x20), (0xA1, 0x28), (0x21, 0x04), (0xA1, 0x02),
    (0x21, 0x01), (0xA1, 0x01), (0x21, 0x0), (0xA1, 0x0)]

/-- What `irq_handler` does. -/
inductive Action where
  /-- Call the routine of the line, if it has one. -/
  | call
  | out (port : Nat) (b : UInt8)
  deriving DecidableEq, Repr

/-- `irq_handler(r)`, where `r->int_no` is `intNo`. -/
def irqHandler (intNo : Nat) : List Action :=
  [.call] ++ (if 40 ≤ intNo then [.out 0xA0 0x20] else []) ++ [.out 0x20 0x20]

/-- The controllers and the kernel.  `V` is all that the routines and the program work on. -/
structure Irq (V : Type) where
  pics : Pair
  /-- `irq_routines`. -/
  routines : Nat → Option (V → V)
  /-- The number of the interrupt that is handled, and what `irq_handler` has still to do. -/
  running : Option (Nat × List Action)
  vars : V
  /-- The lines for which `irq_handler` has looked up a routine, the first one first. -/
  calls : List Nat

/-- What happens. -/
inductive Event (V : Type) where
  /-- A device requests an interrupt. -/
  | raise (w : Wire)
  /-- It takes the request back. -/
  | withdraw (w : Wire)
  /-- The processor accepts an interrupt. -/
  | accept (ir2 : Bool)
  /-- `irq_handler` goes on, and returns at its end. -/
  | go
  /-- The program, or a routine, changes its variables. -/
  | program (f : V → V)
  /-- `irq_install_handler(irq, handler)`. -/
  | install (irq : Fin 16) (handler : V → V)
  /-- `irq_uninstall_handler(irq)`. -/
  | uninstall (irq : Fin 16)

/-- Why nothing happens. -/
inductive Blocked where
  /-- The interrupts are off. -/
  | off
  /-- `irq_handler` is not running. -/
  | idle
  /-- No controller tells a vector. -/
  | noVector
  /-- A controller is told something that is not modelled. -/
  | command
  /-- `irq_routines` is read out of its bounds. -/
  | outside
  deriving DecidableEq, Repr

namespace Irq

variable {V : Type}

/-- `handler = irq_routines[irq]; if (handler) handler(r);`. -/
def handle (routines : Nat → Option (V → V)) (vars : V) (irq : Nat) : V :=
  match routines irq with
  | some handler => handler vars
  | none => vars

/-- One action of `irq_handler`, with the interrupt `v`. -/
def perform (v : Nat) (s : Irq V) : Action → Except Blocked (Irq V)
  | .call =>
    if 32 ≤ v ∧ v < 48 then
      .ok { s with
        vars := handle s.routines s.vars (v - 32)
        calls := s.calls ++ [v - 32] }
    else .error .outside
  | .out port b =>
    match s.pics.out port b with
    | some p => .ok { s with pics := p }
    | none => .error .command

/-- Something happens.  The gates leave the interrupts off while `irq_handler` is running. -/
def step : Event V → Irq V → Except Blocked (Irq V)
  | .raise w, s => .ok { s with pics := s.pics.line w true }
  | .withdraw w, s => .ok { s with pics := s.pics.line w false }
  | .accept ir2, s =>
    match s.running, s.pics.ack ir2 with
    | some _, _ => .error .off
    | none, some (p, v) => .ok { s with pics := p, running := some (v, irqHandler v) }
    | none, none => .error .noVector
  | .go, s =>
    match s.running with
    | none => .error .idle
    | some (_, []) => .ok { s with running := none }
    | some (v, a :: as) => perform v { s with running := some (v, as) } a
  | .program f, s => .ok { s with vars := f s.vars }
  | .install irq handler, s =>
    .ok { s with routines := Function.update s.routines irq (some handler) }
  | .uninstall irq, s => .ok { s with routines := Function.update s.routines irq none }

/-- What has been called stays so. -/
theorem calls_step (e : Event V) (s s' : Irq V) (hstep : step e s = .ok s') :
    s.calls <+: s'.calls := by
  cases e with
  | go =>
    rw [step] at hstep
    split at hstep
    · cases hstep
    · cases hstep
      exact List.prefix_rfl
    · next v a as _ =>
      cases a with
      | call =>
        rw [perform] at hstep
        split_ifs at hstep
        cases hstep
        exact List.prefix_append ..
      | out port b =>
        rw [perform] at hstep
        dsimp only at hstep
        split at hstep
        · cases hstep
          exact List.prefix_rfl
        · cases hstep
  | accept ir2 =>
    rw [step] at hstep
    split at hstep
    · cases hstep
    · cases hstep
      exact List.prefix_rfl
    · cases hstep
  | _ =>
    cases hstep
    exact List.prefix_rfl

/-! ## The invariant

What is in service in the controllers has to be what `irq_handler` will still tell them the end of.
`Serving` says this for each point of the list of actions that is left: at most one line of each
controller is in service, and none of a controller whose end has been told, so that at the end of
the list nothing is. -/

/-- What is in service while `irq_handler` has `as` to do for the interrupt `v`.  A controller whose
end of interrupt is still in the list may have one line in service, and one whose end has been told
has none. -/
structure Serving (v : Nat) (as : List Action) (p : Pair) : Prop where
  vector : 32 ≤ v ∧ v < 48
  rest : as <:+ irqHandler v
  master : p.master.AtMostOne
  slave : p.slave.AtMostOne
  master_quiet : .out 0x20 0x20 ∉ as → p.master.Quiet
  slave_quiet : .out 0xA0 0x20 ∉ as → p.slave.Quiet

/-- The controllers are as `irq_remap` has left them, and `irq_handler` will tell them the end of
what is in service.  This is the invariant of all runs: every event keeps it, also those that the
devices and not the kernel make. -/
structure Sound (s : Irq V) : Prop where
  ready : s.pics.Ready 0x20 0x28
  idle : s.running = none → s.pics.Quiet
  serving : ∀ v as, s.running = some (v, as) → Serving v as s.pics

variable {s s' : Irq V} {v : Nat} {as : List Action} {p : Pair} {w : Wire}

theorem mem_irqHandler {a : Action} (h : a ∈ irqHandler v) :
    a = .call ∨ (a = .out 0xA0 0x20 ∧ 40 ≤ v) ∨ a = .out 0x20 0x20 := by
  rw [irqHandler, List.mem_append, List.mem_append, List.mem_singleton, List.mem_singleton] at h
  rcases h with (rfl | h) | rfl
  · exact Or.inl rfl
  · split_ifs at h with hv
    · exact Or.inr (Or.inl ⟨List.mem_singleton.mp h, hv⟩)
    · exact absurd h List.not_mem_nil
  · exact Or.inr (Or.inr rfl)

theorem master_eoi_mem (v : Nat) : .out 0x20 0x20 ∈ irqHandler v :=
  List.mem_append_right _ List.mem_cons_self

theorem slave_eoi_mem (h : 40 ≤ v) : .out 0xA0 0x20 ∈ irqHandler v := by
  rw [irqHandler, if_pos h]
  exact List.mem_append_left _ (List.mem_append_right _ List.mem_cons_self)

theorem Serving.line (h : Serving v as p) (level : Bool) : Serving v as (p.line w level) := by
  cases w with
  | master i => exact ⟨h.vector, h.rest, h.master, h.slave, h.master_quiet, h.slave_quiet⟩
  | slave j => exact ⟨h.vector, h.rest, h.master, h.slave, h.master_quiet, h.slave_quiet⟩

/-- What `irq_handler` starts with. -/
theorem Serving.start (hvector : 32 ≤ v ∧ v < 48) (hmaster : p.master.AtMostOne)
    (hslave : p.slave.AtMostOne) (hquiet : v < 40 → p.slave.Quiet) :
    Serving v (irqHandler v) p where
  vector := hvector
  rest := List.suffix_refl _
  master := hmaster
  slave := hslave
  master_quiet h := absurd (master_eoi_mem v) h
  slave_quiet h := hquiet (Nat.lt_of_not_le fun hle => h (slave_eoi_mem hle))

/-- **An interrupt is accepted**: what comes into service then is what `irq_handler` will end, once
for a line of the master and twice for one of the slave. -/
theorem serving_of_ack {r : Pair × Nat} (hready : p.Ready 0x20 0x28) (hquiet : p.Quiet)
    {ir2 : Bool} (hack : p.ack ir2 = some r) :
    r.1.Ready 0x20 0x28 ∧ Serving r.2 (irqHandler r.2) r.1 := by
  rcases Pair.ack_cases hready hquiet ir2 with ⟨w, -, hw⟩ | ⟨-, hw⟩ | ⟨-, hw⟩
  · cases hw.symm.trans hack
    refine ⟨hready.serve, ?_⟩
    cases w with
    | master i =>
      have hi := i.isLt
      exact .start ⟨by change 32 ≤ 32 + _; omega, by change 32 + _ < 48; omega⟩
        (Chip.serve_atMostOne hquiet.1) hquiet.2.atMostOne fun _ => hquiet.2
    | slave j =>
      have hj := j.isLt
      exact .start ⟨by change 32 ≤ 40 + _; omega, by change 40 + _ < 48; omega⟩
        (Chip.serve_atMostOne hquiet.1) (Chip.serve_atMostOne hquiet.2)
        fun h => absurd h (Nat.not_lt.mpr (Nat.le_add_right 40 _))
  · cases hw.symm.trans hack
    have hvector : 32 ≤ 32 + 7 ∧ 32 + 7 < 48 := by decide
    exact ⟨hready, .start hvector hquiet.1.atMostOne hquiet.2.atMostOne fun _ => hquiet.2⟩
  · cases hw.symm.trans hack
    have hvector : 32 ≤ 40 + 7 ∧ 40 + 7 < 48 := by decide
    exact ⟨⟨hready.1.serve, hready.2⟩, .start hvector (Chip.serve_atMostOne hquiet.1)
      hquiet.2.atMostOne fun _ => hquiet.2⟩

/-- The invariant while `irq_handler` is running. -/
theorem Sound.of_serving (hready : s.pics.Ready 0x20 0x28) (hrunning : s.running = some (v, as))
    (hserving : Serving v as s.pics) : s.Sound where
  ready := hready
  idle h := absurd (hrunning.symm.trans h) (Option.some_ne_none _)
  serving v' as' h := by
    cases hrunning.symm.trans h
    exact hserving

/-- **One action of `irq_handler`**, when the rest of it is `as`.  It is an end of interrupt for one
of the controllers, which has nothing in service from then on, or a call, which does not touch them.
-/
theorem Sound.perform {a : Action} (hready : s.pics.Ready 0x20 0x28)
    (hserving : Serving v (a :: as) s.pics) (hrunning : s.running = some (v, as)) :
    ∃ s', Irq.perform v s a = .ok s' ∧ s'.Sound := by
  obtain ⟨hvector, hrest, hmaster, hslave, hmaster', hslave'⟩ := hserving
  have hsuffix := (List.suffix_cons a as).trans hrest
  rcases mem_irqHandler (hrest.subset List.mem_cons_self) with rfl | ⟨rfl, -⟩ | rfl
  · refine ⟨_, if_pos hvector, .of_serving hready hrunning ⟨hvector, hsuffix, hmaster, hslave,
      ?_, ?_⟩⟩
    · exact fun h => hmaster' (List.not_mem_cons_of_ne_of_not_mem (fun h => Action.noConfusion h) h)
    · exact fun h => hslave' (List.not_mem_cons_of_ne_of_not_mem (fun h => Action.noConfusion h) h)
  · refine ⟨{ s with pics := { s.pics with slave := s.pics.slave.eoi } }, rfl,
      .of_serving ⟨hready.1, hready.2.eoi⟩ hrunning ⟨hvector, hsuffix, hmaster,
        (Chip.eoi_quiet hslave).atMostOne, fun h => hmaster' ?_, fun _ => Chip.eoi_quiet hslave⟩⟩
    exact List.not_mem_cons_of_ne_of_not_mem (by decide) h
  · refine ⟨{ s with pics := { s.pics with master := s.pics.master.eoi } }, rfl,
      .of_serving ⟨hready.1.eoi, hready.2⟩ hrunning ⟨hvector, hsuffix,
        (Chip.eoi_quiet hmaster).atMostOne, hslave, fun _ => Chip.eoi_quiet hmaster,
        fun h => hslave' ?_⟩⟩
    exact List.not_mem_cons_of_ne_of_not_mem (by decide) h

theorem Sound.line (h : s.Sound) (level : Bool) :
    ({ s with pics := s.pics.line w level } : Irq V).Sound where
  ready := h.ready.line level
  idle hnone := by
    cases w with
    | master i => exact h.idle hnone
    | slave j => exact h.idle hnone
  serving v as hsome := (h.serving v as hsome).line level

/-- **What may happen keeps the invariant**, and nothing is in the way of it but the state of the
processor. -/
theorem Sound.step (h : s.Sound) (e : Event V) :
    (∃ s', Irq.step e s = .ok s' ∧ s'.Sound) ∨
      (Irq.step e s = .error .off ∧ s.running ≠ none) ∨
      (Irq.step e s = .error .idle ∧ s.running = none) := by
  cases e with
  | raise w => exact Or.inl ⟨_, rfl, h.line true⟩
  | withdraw w => exact Or.inl ⟨_, rfl, h.line false⟩
  | program f => exact Or.inl ⟨_, rfl, h.ready, h.idle, h.serving⟩
  | install irq handler => exact Or.inl ⟨_, rfl, h.ready, h.idle, h.serving⟩
  | uninstall irq => exact Or.inl ⟨_, rfl, h.ready, h.idle, h.serving⟩
  | accept ir2 =>
    cases hrunning : s.running with
    | some r =>
      refine Or.inr (Or.inl ⟨?_, Option.some_ne_none _⟩)
      rw [Irq.step, hrunning]
    | none =>
      have hquiet := h.idle hrunning
      have hack : ∃ r, s.pics.ack ir2 = some r := by
        rcases Pair.ack_cases h.ready hquiet ir2 with ⟨w, -, hw⟩ | ⟨-, hw⟩ | ⟨-, hw⟩
        · exact ⟨_, hw⟩
        · exact ⟨_, hw⟩
        · exact ⟨_, hw⟩
      obtain ⟨⟨p, v⟩, hr⟩ := hack
      obtain ⟨hready, hserving⟩ := serving_of_ack h.ready hquiet hr
      refine Or.inl ⟨{ s with pics := p, running := some (v, irqHandler v) }, ?_,
        .of_serving hready rfl hserving⟩
      rw [Irq.step, hrunning, hr]
  | go =>
    cases hrunning : s.running with
    | none =>
      refine Or.inr (Or.inr ⟨?_, rfl⟩)
      rw [Irq.step, hrunning]
    | some r =>
      obtain ⟨v, as⟩ := r
      have hserving := h.serving v as hrunning
      cases as with
      | nil =>
        have hquiet : s.pics.Quiet :=
          ⟨hserving.master_quiet List.not_mem_nil, hserving.slave_quiet List.not_mem_nil⟩
        refine Or.inl ⟨{ s with running := none }, ?_, h.ready, fun _ => hquiet, ?_⟩
        · rw [Irq.step, hrunning]
        · exact fun v as h => absurd h (Option.some_ne_none _).symm
      | cons a as =>
        obtain ⟨s', hs', hsound⟩ :=
          Sound.perform (s := { s with running := some (v, as) }) h.ready hserving rfl
        refine Or.inl ⟨s', ?_, hsound⟩
        rw [Irq.step, hrunning]
        exact hs'

theorem sound_step (e : Event V) (s s' : Irq V) (h : s.Sound) (hstep : Irq.step e s = .ok s') :
    s'.Sound := by
  rcases h.step e with ⟨t, ht, hsound⟩ | ⟨herr, -⟩ | ⟨herr, -⟩
  · cases ht.symm.trans hstep
    exact hsound
  · cases herr.symm.trans hstep
  · cases herr.symm.trans hstep

theorem Sound.step_error (h : s.Sound) {e : Event V} {b : Blocked}
    (hstep : Irq.step e s = .error b) :
    (b = .off ∧ s.running ≠ none) ∨ (b = .idle ∧ s.running = none) := by
  rcases h.step e with ⟨t, ht, -⟩ | ⟨herr, hrunning⟩ | ⟨herr, hrunning⟩
  · cases ht.symm.trans hstep
  · cases herr.symm.trans hstep
    exact Or.inl ⟨rfl, hrunning⟩
  · cases herr.symm.trans hstep
    exact Or.inr ⟨rfl, hrunning⟩

/-! ## Nothing is held back

When `irq_handler` is not running nothing is in service, and nothing is masked since `irq_remap`.
So the priorities hold nothing back, and a request of any device makes the master interrupt the
processor. -/

/-- The kernel after `irq_remap`, with the controllers in the state `p`. -/
def booted (p : Pair) (routines : Nat → Option (V → V)) (vars : V) : Irq V :=
  ⟨p, routines, none, vars, []⟩

/-- **`irq_remap`** initializes the controllers, whatever state they are in as long as nothing is in
service: requests from before are forgotten, and nothing is masked afterwards. -/
theorem irqRemap_ready (hquiet : p.Quiet) : ∃ p', p.outs irqRemap = some p' ∧
    p'.Ready 0x20 0x28 ∧ p'.Quiet ∧ ∀ w, p'.requests w = false := by
  have hmask (i : Fin 8) : (0 : UInt8).toNat.testBit i = false := Nat.zero_testBit i
  have hmaster : (0x20 &&& 0xF8 : UInt8).toNat = 0x20 := by decide
  have hslave : (0x28 &&& 0xF8 : UInt8).toNat = 0x28 := by decide
  have hauto : (1 : UInt8).toNat.testBit 1 = false := by decide
  refine ⟨_, rfl, ⟨⟨hmaster, rfl, hmask, hauto, rfl⟩, ⟨hslave, rfl, hmask, hauto, rfl⟩⟩, hquiet,
    fun w => ?_⟩
  cases w with
  | master i => rfl
  | slave j => rfl

theorem booted_sound {p' : Pair} (routines : Nat → Option (V → V)) (vars : V) (hquiet : p.Quiet)
    (hp' : p.outs irqRemap = some p') :
    (booted p' routines vars).Sound ∧ ∀ w, p'.requests w = false := by
  obtain ⟨q, hq, hready, hquiet', hnone⟩ := irqRemap_ready hquiet
  cases hq.symm.trans hp'
  exact ⟨⟨hready, fun _ => hquiet', fun _ _ h => absurd h (Option.some_ne_none _).symm⟩, hnone⟩

/-- **No interrupt is held back.**  Whatever has happened since `irq_remap`, and in whatever order,
unless `irq_handler` is running a device that requests an interrupt interrupts the processor.  The
controllers always tell a vector, and `irq_handler` finds it within its table. -/
theorem never_blocked (hquiet : p.Quiet) (routines : Nat → Option (V → V)) (vars : V) :
    ∃ p', p.outs irqRemap = some p' ∧ ∀ es : List (Event V),
      Always Irq.step (fun s => s.running = none →
        (s.pics.int = true ↔ ∃ w, s.pics.requests w = true)) es (booted p' routines vars) ∧
      ∀ b, run Irq.step es (booted p' routines vars) = .error b → b = .off ∨ b = .idle := by
  obtain ⟨p', hp', -⟩ := irqRemap_ready hquiet
  obtain ⟨hsound, -⟩ := booted_sound routines vars hquiet hp'
  refine ⟨p', hp', fun es => ⟨?_, fun b hb => ?_⟩⟩
  · exact (always_of_step sound_step hsound).imp fun s hs hidle =>
      Pair.int_iff hs.ready (hs.idle hidle)
  · exact run_error_of_along (fun e s s' h _ => sound_step e s s' h)
      (fun e _ s b h _ hstep => (h.step_error hstep).imp And.left And.left) hsound
      (along_of_forall fun _ _ _ => trivial) hb

/-- The controllers as the firmware leaves them. -/
def firmware : Pair :=
  let chip : Chip :=
    { irr := fun _ => false, isr := fun _ => false, imr := fun _ => false, base := 8, cascade := 4
      autoEoi := false, single := false, four := true, expects := .mask }
  ⟨chip, { chip with base := 0x70, cascade := 2 }⟩

theorem firmware_quiet : firmware.Quiet := ⟨fun _ => rfl, fun _ => rfl⟩

/-- The keyboard, and nothing else. -/
def keyboardOnly : Nat → Option (Nat → Nat) := fun irq => if irq = 1 then some (· + 1) else none

theorem never_blocked_firmware : ∃ p', firmware.outs irqRemap = some p' ∧
    ∀ es : List (Event Nat),
      Always Irq.step (fun s => s.running = none →
        (s.pics.int = true ↔ ∃ w, s.pics.requests w = true)) es (booted p' keyboardOnly 0) ∧
      ∀ b, run Irq.step es (booted p' keyboardOnly 0) = .error b → b = .off ∨ b = .idle :=
  never_blocked firmware_quiet keyboardOnly 0

/-! ## Nothing is lost, and nothing is done twice

The account of a line is the number of calls of its routine and of the interrupts on their way to
one.  Each kind of event changes it by what has come in: a request that was not there adds one, a
request that is taken back takes one away, and accepting or calling moves an interrupt from one
place to the next.  The sum over a run is `Runs.balance`. -/

/-- A device requests an interrupt, and has not done so before. -/
def raised (w : Wire) : Event V → Irq V → Nat
  | .raise w', s => if w' = w ∧ s.pics.requests w = false then 1 else 0
  | _, _ => 0

/-- A device takes its request back. -/
def withdrawn (w : Wire) : Event V → Irq V → Nat
  | .withdraw w', s => if w' = w ∧ s.pics.requests w = true then 1 else 0
  | _, _ => 0

/-- The processor accepts an interrupt from a device that does not request one. -/
def spurious (w : Wire) : Event V → Irq V → Nat
  | .accept ir2, s =>
    match s.running, s.pics.ack ir2 with
    | none, some (_, v) => if v = 32 + w.number ∧ s.pics.requests w = false then 1 else 0
    | _, _ => 0
  | _, _ => 0

/-- The interrupt of the line has been accepted, and its routine has not been called yet. -/
def accepted (w : Wire) (s : Irq V) : Nat :=
  match s.running with
  | some (v, as) => if v = 32 + w.number ∧ .call ∈ as then 1 else 0
  | none => 0

/-- The interrupts of a line: those for which the routine has been called, and those that wait. -/
def account (w : Wire) (s : Irq V) : Nat :=
  s.calls.count w.number + s.accepted w + (s.pics.requests w).toNat

theorem number_injective {w w' : Wire} (h : w.number = w'.number) : w = w' := by
  cases w with
  | master i =>
    cases w' with
    | master k => exact congrArg _ (Fin.ext h)
    | slave k =>
      have hi := i.isLt
      change i.val = 8 + k.val at h
      omega
  | slave j =>
    cases w' with
    | master k =>
      have hk := k.isLt
      change 8 + j.val = k.val at h
      omega
    | slave k =>
      change 8 + j.val = 8 + k.val at h
      exact congrArg _ (Fin.ext (by omega))

theorem vector_eq (w : Wire) : Pair.vector 0x20 0x28 w = 32 + w.number := by
  cases w with
  | master i => rfl
  | slave j =>
    change 40 + j.val = 32 + (8 + j.val)
    omega

/-- What a device does to its own request, and to those of the others. -/
theorem requests_line_eq (hw : w ≠ .master 2) (w' : Wire) (level : Bool) :
    (p.line w' level).requests w = if w' = w then level else p.requests w := by
  by_cases h2 : w' = .master 2
  · rw [h2, Pair.requests_line_two, if_neg hw.symm]
  · rw [Pair.requests_line h2]
    by_cases h : w' = w
    · rw [h, Function.update_self, if_pos rfl]
    · rw [Function.update_of_ne (Ne.symm h), if_neg h]

/-- The actions after the call do not call. -/
theorem call_notMem (h : .call :: as <:+ irqHandler v) : .call ∉ as := by
  have hrest : .call ∉ (if 40 ≤ v then [Action.out 0xA0 0x20] else []) ++ [.out 0x20 0x20] := by
    split_ifs <;> decide
  rcases List.suffix_cons_iff.mp (show .call :: as <:+ .call :: _ from h) with heq | hsuffix
  · rw [(List.cons.inj heq).2]
    exact hrest
  · exact absurd (hsuffix.subset List.mem_cons_self) hrest

/-- The master serves the slave, which has nothing. -/
theorem requests_cascade :
    ({ p with master := p.master.serve 2 } : Pair).requests = p.requests := by
  rw [← Pair.requests_line_two (p := p) false]
  funext w
  cases w with
  | master i => rfl
  | slave j => rfl

/-- An interrupt is accepted: it leaves the requests and is handled, or it is spurious. -/
theorem account_accept (h : s.Sound) (hidle : s.running = none) {ir2 : Bool}
    (hack : s.pics.ack ir2 = some (p, v)) :
    ({ s with pics := p, running := some (v, irqHandler v) } : Irq V).account w =
      s.account w + spurious w (.accept ir2) s := by
  have hcall : .call ∈ irqHandler v := List.mem_cons_self
  have haccepted : s.accepted w = 0 := by rw [accepted, hidle]
  have haccepted' : ({ s with pics := p, running := some (v, irqHandler v) } : Irq V).accepted w =
      if v = 32 + w.number then 1 else 0 := by
    rw [accepted]
    exact if_congr (and_iff_left hcall) rfl rfl
  -- of the line that is said to be accepted there is no request
  have hspurious : ∀ w', v = 32 + w'.number → s.pics.requests w' = false →
      (if v = 32 + w.number then 1 else 0) =
        if v = 32 + w.number ∧ s.pics.requests w = false then 1 else 0 := by
    intro w' hw' hfalse
    refine if_congr ⟨fun hv => ⟨hv, ?_⟩, And.left⟩ rfl rfl
    have hww : w' = w := number_injective (by omega)
    rw [← hww]
    exact hfalse
  rw [account, account, haccepted, haccepted', spurious, hidle, hack]
  dsimp only
  rcases Pair.ack_cases h.ready (h.idle hidle) ir2 with ⟨w', hw', hw⟩ | ⟨h7, hw⟩ | ⟨h7, hw⟩
  · cases hw.symm.trans hack
    rw [Pair.requests_serve, vector_eq]
    by_cases hww : w = w'
    · subst hww
      rw [Function.update_self, hw', if_pos rfl, if_neg fun h => absurd h.2 (by decide)]
      rfl
    · rw [Function.update_of_ne hww, if_neg fun h => hww (number_injective (by omega)),
        if_neg fun h => hww (number_injective (by omega))]
      rfl
  · cases hw.symm.trans hack
    rw [hspurious _ rfl h7]
    omega
  · cases hw.symm.trans hack
    rw [requests_cascade, hspurious _ rfl h7]
    omega

/-- The end of an interrupt leaves the requests alone. -/
theorem requests_eoi : ({ p with master := p.master.eoi } : Pair).requests = p.requests ∧
    ({ p with slave := p.slave.eoi } : Pair).requests = p.requests := by
  constructor
  · funext w
    cases w with
    | master i => exact congrArg (· i && i ≠ 2) Chip.irr_eoi
    | slave j => rfl
  · funext w
    cases w with
    | master i => rfl
    | slave j => exact congrFun Chip.irr_eoi j

/-- What has been accepted is called. -/
theorem account_perform {a : Action} (hrest : a :: as <:+ irqHandler v)
    (hstep : Irq.perform v { s with running := some (v, as) } a = .ok s') :
    s'.account w = ({ s with running := some (v, a :: as) } : Irq V).account w := by
  have hout : ∀ (port : Nat) (b : UInt8), (.call ∈ .out port b :: as ↔ .call ∈ as) := by
    intro port b
    rw [List.mem_cons]
    exact or_iff_right fun h => Action.noConfusion h
  rcases mem_irqHandler (hrest.subset List.mem_cons_self) with rfl | ⟨rfl, -⟩ | rfl
  · rw [Irq.perform] at hstep
    split_ifs at hstep with hv
    cases hstep
    rw [account, account, accepted, accepted]
    dsimp only
    rw [if_neg fun h => call_notMem hrest h.2, List.count_append, List.count_singleton,
      if_congr (and_iff_left List.mem_cons_self) rfl rfl]
    have hnumber : (v - 32 == w.number) = decide (v = 32 + w.number) := by
      rw [Bool.eq_iff_iff, beq_iff_eq, decide_eq_true_iff]
      omega
    rw [hnumber]
    simp only [decide_eq_true_eq]
    rfl
  · cases hstep
    rw [account, account, accepted, accepted]
    dsimp only
    rw [requests_eoi.2, if_congr (and_congr_right fun _ => hout 0xA0 0x20) rfl rfl]
  · cases hstep
    rw [account, account, accepted, accepted]
    dsimp only
    rw [requests_eoi.1, if_congr (and_congr_right fun _ => hout 0x20 0x20) rfl rfl]

/-- **A step of the account**: what it is after the step, and what has been withdrawn, is what it
was before, and what has come in. -/
theorem Sound.account_step (h : s.Sound) (hw : w ≠ .master 2) {e : Event V}
    (hstep : Irq.step e s = .ok s') :
    s'.account w + withdrawn w e s = s.account w + (raised w e s + spurious w e s) := by
  cases e with
  | raise w' =>
    cases hstep
    change s.calls.count w.number + s.accepted w + ((s.pics.line w' true).requests w).toNat + 0 =
      s.account w + ((if w' = w ∧ s.pics.requests w = false then 1 else 0) + 0)
    rw [requests_line_eq hw, account]
    by_cases hww : w' = w
    · cases s.pics.requests w <;> simp [hww]
    · simp [hww]
  | withdraw w' =>
    cases hstep
    change s.calls.count w.number + s.accepted w + ((s.pics.line w' false).requests w).toNat +
      (if w' = w ∧ s.pics.requests w = true then 1 else 0) = s.account w + (0 + 0)
    rw [requests_line_eq hw, account]
    by_cases hww : w' = w
    · cases s.pics.requests w <;> simp [hww]
    · simp [hww]
  | program f => cases hstep; rfl
  | install irq handler => cases hstep; rfl
  | uninstall irq => cases hstep; rfl
  | accept ir2 =>
    change s'.account w + 0 = s.account w + (0 + spurious w (.accept ir2) s)
    rw [Irq.step] at hstep
    split at hstep
    · cases hstep
    · next p v hidle hack =>
      cases hstep
      rw [account_accept h hidle hack, Nat.add_zero, Nat.zero_add]
    · cases hstep
  | go =>
    change s'.account w = s.account w
    rw [Irq.step] at hstep
    split at hstep
    · cases hstep
    · next v hrunning =>
      cases hstep
      have haccepted : s.accepted w = 0 := by
        rw [accepted, hrunning]
        exact if_neg fun h => List.not_mem_nil h.2
      rw [account, account, haccepted]
      rfl
    · next v a as hrunning =>
      rw [account_perform (h.serving _ _ hrunning).rest hstep, ← hrunning]

/-- Only the last line of a controller has spurious interrupts. -/
theorem Sound.spurious_eq_zero (h : s.Sound) (h7 : w ≠ .master 7) (h15 : w ≠ .slave 7)
    (e : Event V) : spurious w e s = 0 := by
  cases e with
  | accept ir2 =>
    rw [spurious]
    split
    · next v hidle hack =>
      refine if_neg fun hv => ?_
      rcases Pair.ack_cases h.ready (h.idle hidle) ir2 with ⟨w', hw', hw⟩ | ⟨-, hw⟩ | ⟨-, hw⟩
      · cases hw.symm.trans hack
        have hww : w' = w := number_injective (by have := vector_eq w'; omega)
        rw [hww, hv.2] at hw'
        exact Bool.false_ne_true hw'
      · cases hw.symm.trans hack
        have hnumber : w.number = (Wire.master 7).number := (Nat.add_left_cancel hv.1).symm
        exact h7 (number_injective hnumber)
      · cases hw.symm.trans hack
        have hnumber : w.number = (Wire.slave 7).number := by
          have hvector := hv.1
          change w.number = 15
          omega
        exact h15 (number_injective hnumber)
    · rfl
  | _ => rfl

section
variable {p' : Pair} {routines : Nat → Option (V → V)} {vars : V} {es : List (Event V)}

/-- The account of a run. -/
theorem account_run (hquiet : p.Quiet) (hp' : p.outs irqRemap = some p') (hw : w ≠ .master 2)
    (hrun : run Irq.step es (booted p' routines vars) = .ok s) :
    s.account w + count Irq.step (withdrawn w) es (booted p' routines vars) =
      count Irq.step (raised w) es (booted p' routines vars) +
        count Irq.step (spurious w) es (booted p' routines vars) := by
  obtain ⟨hsound, hnone⟩ := booted_sound routines vars hquiet hp'
  have hbalance := balance (f := account w) sound_step
    (fun e s s' h => h.account_step hw) hsound hrun
  have hzero : (booted p' routines vars).account w = 0 := by
    change 0 + 0 + (p'.requests w).toNat = 0
    rw [hnone w]
    rfl
  rw [hbalance, hzero, Nat.zero_add, count_add]

/-- The last lines apart, no interrupt of a run is spurious. -/
theorem spurious_run (hquiet : p.Quiet) (hp' : p.outs irqRemap = some p') (h7 : w ≠ .master 7)
    (h15 : w ≠ .slave 7) : count Irq.step (spurious w) es (booted p' routines vars) = 0 :=
  count_eq_zero sound_step (fun e _ h => h.spurious_eq_zero h7 h15 e)
    (booted_sound _ _ hquiet hp').1

/-- **No interrupt is lost, and none is handled twice.**  In every run since `irq_remap`: the
interrupts for which the routine of a line has been called, and those that wait, are those that the
device has requested and not taken back.  There may be spurious ones besides, but for lines 7 and 15
only. -/
theorem served_once (hquiet : p.Quiet) (hp' : p.outs irqRemap = some p') (hw : w ≠ .master 2)
    (hrun : run Irq.step es (booted p' routines vars) = .ok s) :
    s.account w + count Irq.step (withdrawn w) es (booted p' routines vars) =
        count Irq.step (raised w) es (booted p' routines vars) +
          count Irq.step (spurious w) es (booted p' routines vars) ∧
      (w ≠ .master 7 → w ≠ .slave 7 →
        count Irq.step (spurious w) es (booted p' routines vars) = 0) :=
  ⟨account_run hquiet hp' hw hrun, spurious_run hquiet hp'⟩

end

/-- The controllers after `irq_remap`. -/
def remapped : Pair := (firmware.outs irqRemap).getD firmware

theorem outs_irqRemap : firmware.outs irqRemap = some remapped := rfl

/-- A key is pressed. -/
theorem served_once_keyboard : ∃ s, run Irq.step [.raise (.master 1), .accept false, .go]
      (booted remapped keyboardOnly 0) = .ok s ∧ s.vars = 1 ∧
    s.account (.master 1) + count Irq.step (withdrawn (.master 1))
        [.raise (.master 1), .accept false, .go] (booted remapped keyboardOnly 0) =
      count Irq.step (raised (.master 1)) [.raise (.master 1), .accept false, .go]
          (booted remapped keyboardOnly 0) +
        count Irq.step (spurious (.master 1)) [.raise (.master 1), .accept false, .go]
          (booted remapped keyboardOnly 0) :=
  ⟨_, rfl, rfl, (served_once firmware_quiet outs_irqRemap (by decide) rfl).1⟩

/-! ## Everything is handled

If no device does anything then what happens next is determined, so there is one run, and it can be
followed: accept, do what `irq_handler` does, return.  Each round serves the first request in the
order of priority, so by induction on the requests that are left they are served in this order. -/

/-- What happens when the devices and the program do nothing. -/
def next (s : Irq V) : Option (Event V) :=
  match s.running with
  | some _ => some .go
  | none => if s.pics.int then some (.accept s.pics.cascaded) else none

/-- So it goes on for at most `n` steps. -/
def silent : Nat → Irq V → Except Blocked (Irq V)
  | 0, s => .ok s
  | n + 1, s =>
    match s.next with
    | none => .ok s
    | some e => Irq.step e s >>= silent n

theorem silent_succ {n : Nat} {e : Event V} (hnext : s.next = some e)
    (hstep : Irq.step e s = .ok s') : silent (n + 1) s = silent n s' := by
  rw [silent, hnext]
  dsimp only
  rw [hstep]
  rfl

/-- The interrupt of the highest priority is accepted. -/
theorem silent_accept (hready : s.pics.Ready 0x20 0x28) (hquiet : s.pics.Quiet)
    (hidle : s.running = none) (hfirst : Wire.order.find? s.pics.requests = some w) (n : Nat) :
    silent (n + 1) s = silent n { s with
      pics := s.pics.serve w
      running := some (32 + w.number, irqHandler (32 + w.number)) } := by
  have hint : s.pics.int = true := (Pair.int_iff hready hquiet).mpr ⟨w, List.find?_some hfirst⟩
  refine silent_succ (e := .accept s.pics.cascaded) ?_ ?_
  · rw [next, hidle]
    exact if_pos hint
  · rw [Irq.step, hidle, Pair.ack_eq hready hquiet hfirst, ← vector_eq]

/-- The routine is called. -/
theorem silent_call (hv : 32 ≤ v ∧ v < 48) (hrunning : s.running = some (v, .call :: as)) (n : Nat) :
    silent (n + 1) s = silent n { s with
      running := some (v, as)
      vars := handle s.routines s.vars (v - 32)
      calls := s.calls ++ [v - 32] } := by
  refine silent_succ (e := .go) ?_ ?_
  · rw [next, hrunning]
  · rw [Irq.step, hrunning]
    exact if_pos hv

/-- The controllers are told. -/
theorem silent_out {port : Nat} {b : UInt8} (hout : s.pics.out port b = some p)
    (hrunning : s.running = some (v, .out port b :: as)) (n : Nat) :
    silent (n + 1) s = silent n { s with pics := p, running := some (v, as) } := by
  refine silent_succ (e := .go) ?_ ?_
  · rw [next, hrunning]
  · rw [Irq.step, hrunning]
    dsimp only
    rw [Irq.perform]
    dsimp only
    rw [hout]

theorem silent_return (hrunning : s.running = some (v, [])) (n : Nat) :
    silent (n + 1) s = silent n { s with running := none } := by
  refine silent_succ (e := .go) ?_ ?_
  · rw [next, hrunning]
  · rw [Irq.step, hrunning]

/-- **One interrupt is handled**: the routine of the first line in the order of priority is called,
and its request is gone. -/
theorem silent_handle (hready : s.pics.Ready 0x20 0x28) (hquiet : s.pics.Quiet)
    (hidle : s.running = none) (hfirst : Wire.order.find? s.pics.requests = some w) :
    ∃ k ≤ 5, ∃ p, (∀ n, silent (n + k) s = silent n { s with
        pics := p
        vars := handle s.routines s.vars w.number
        calls := s.calls ++ [w.number] }) ∧
      p.Ready 0x20 0x28 ∧ p.Quiet ∧ p.requests = Function.update s.pics.requests w false := by
  have hnumber : 32 + w.number - 32 = w.number := Nat.add_sub_cancel_left ..
  cases w with
  | master i =>
    have hi := i.isLt
    have hv : ¬ 40 ≤ 32 + (Wire.master i).number := by
      change ¬ 40 ≤ 32 + i.val
      omega
    have hrange : 32 ≤ 32 + (Wire.master i).number ∧ 32 + (Wire.master i).number < 48 := by omega
    refine ⟨4, by decide, { s.pics.serve (.master i) with master := (s.pics.master.serve i).eoi },
      fun n => ?_, ⟨hready.1.serve.eoi, hready.2⟩,
      ⟨Chip.eoi_quiet (Chip.serve_atMostOne hquiet.1), hquiet.2⟩, ?_⟩
    · rw [show n + 4 = n + 3 + 1 from rfl, silent_accept hready hquiet hidle hfirst, irqHandler,
        if_neg hv, silent_call hrange rfl, silent_out rfl rfl, silent_return rfl, hnumber, ← hidle]
      rfl
    · rw [← Pair.requests_serve]
      exact (requests_eoi (p := s.pics.serve (.master i))).1
  | slave j =>
    have hj := j.isLt
    have hv : 40 ≤ 32 + (Wire.slave j).number := by
      change 40 ≤ 32 + (8 + j.val)
      omega
    have hrange : 32 ≤ 32 + (Wire.slave j).number ∧ 32 + (Wire.slave j).number < 48 := by
      change 32 ≤ 32 + (8 + j.val) ∧ 32 + (8 + j.val) < 48
      omega
    refine ⟨5, by decide, ⟨(s.pics.master.serve 2).eoi, (s.pics.slave.serve j).eoi⟩, fun n => ?_,
      ⟨hready.1.serve.eoi, hready.2.serve.eoi⟩, ⟨Chip.eoi_quiet (Chip.serve_atMostOne hquiet.1),
        Chip.eoi_quiet (Chip.serve_atMostOne hquiet.2)⟩, ?_⟩
    · rw [show n + 5 = n + 4 + 1 from rfl, silent_accept hready hquiet hidle hfirst, irqHandler,
        if_pos hv, silent_call hrange rfl, silent_out rfl rfl, silent_out rfl rfl,
        silent_return rfl, hnumber, ← hidle]
      rfl
    · rw [← Pair.requests_serve]
      exact (requests_eoi (p := ⟨_, (s.pics.slave.serve j).eoi⟩)).1.trans
        (requests_eoi (p := s.pics.serve (.slave j))).2

/-- What is left of a list when its first member in `f` is served. -/
theorem filter_of_find? {α : Type} [DecidableEq α] {f : α → Bool} {a : α} {l : List α}
    (hl : l.Nodup) (h : l.find? f = some a) :
    l.filter f = a :: l.filter (Function.update f a false) := by
  induction l with
  | nil => cases h
  | cons b l ih =>
    obtain ⟨hb, hl⟩ := List.nodup_cons.mp hl
    rw [List.find?_cons] at h
    split at h
    · next hfb =>
      obtain rfl : b = a := Option.some.inj h
      have hrest : l.filter (Function.update f b false) = l.filter f := by
        refine List.filter_congr fun x hx => Function.update_of_ne ?_ ..
        rintro rfl
        exact hb hx
      rw [List.filter_cons_of_pos hfb, List.filter_cons_of_neg (by rw [Function.update_self]; decide),
        hrest]
    · next hfb =>
      have hab : b ≠ a := fun hba => by
        rw [hba, List.find?_some h] at hfb
        cases hfb
      rw [List.filter_cons_of_neg (by rw [hfb]; decide),
        List.filter_cons_of_neg (by rw [Function.update_of_ne hab, hfb]; decide), ih hl h]

/-- **From the device to its stub.**  Whatever has happened before, when the processor accepts an
interrupt, the device of the highest priority that requests one is served, and the descriptor tables
lead to the stub of its line. -/
theorem delivered (L : TableLayout) (c : Core) {p' : Pair} {routines : Nat → Option (V → V)}
    {vars : V} {es : List (Event V)} (hquiet : p.Quiet) (hp' : p.outs irqRemap = some p')
    (hrun : run Irq.step es (booted p' routines vars) = .ok s) (hidle : s.running = none)
    (hfirst : Wire.order.find? s.pics.requests = some w) :
    ∃ s' v, Irq.step (.accept s.pics.cascaded) s = .ok s' ∧
      s'.running = some (v, irqHandler v) ∧
      (installInterrupts L c).take v = .enters 0x08 (L.irqAt w.number) true ∧
      s'.pics.requests = Function.update s.pics.requests w false := by
  obtain ⟨hsound, -⟩ := booted_sound routines vars hquiet hp'
  have hs : s.Sound := (always_of_step sound_step hsound).last hrun
  have hnumber : w.number < 16 := by
    cases w with
    | master i => exact i.isLt.trans (by decide)
    | slave j => exact Nat.add_lt_add_left j.isLt 8
  refine ⟨{ s with
    pics := s.pics.serve w
    running := some (32 + w.number, irqHandler (32 + w.number)) }, 32 + w.number, ?_, rfl, ?_,
    Pair.requests_serve⟩
  · rw [Irq.step, hidle, Pair.ack_eq hs.ready (hs.idle hidle) hfirst, ← vector_eq]
  · rw [take_installInterrupts L c, if_neg (Nat.not_lt.mpr (Nat.le_add_right 32 _)),
      if_pos (Nat.add_lt_add_left hnumber 32), Nat.add_sub_cancel_left]

/-- Some place for the tables. -/
def someLayout : TableLayout where
  gdt := 0x110000
  gp := 0x110020
  idt := 0x111000
  idtp := 0x110030
  isrAt _ := 0x100200
  irqAt _ := 0x100400
  gdt_lt := by decide
  idt_lt := by decide
  isrAt_lt _ := by decide
  irqAt_lt _ := by decide
  apart := by decide

/-- The memory is empty. -/
def someCore : Core := ⟨fun _ => 0, ⟨0, 0⟩, ⟨0, 0⟩, fun _ => 0, false⟩

/-- The keyboard is heard before the mouse. -/
theorem delivered_keyboard : ∃ s s' v, run Irq.step [.raise (.slave 4), .raise (.master 1)]
      (booted remapped keyboardOnly 0) = .ok s ∧
    Irq.step (.accept s.pics.cascaded) s = .ok s' ∧ s'.running = some (v, irqHandler v) ∧
    (installInterrupts someLayout someCore).take v = .enters 0x08 (someLayout.irqAt 1) true := by
  obtain ⟨s, hrun, hs⟩ : ∃ s, run Irq.step [.raise (.slave 4), .raise (.master 1)]
      (booted remapped keyboardOnly 0) = .ok s ∧ s.running = none ∧
      Wire.order.find? s.pics.requests = some (.master 1) := ⟨_, rfl, by decide⟩
  obtain ⟨s', v, hstep, hrunning, hvectored, -⟩ :=
    delivered someLayout someCore firmware_quiet outs_irqRemap hrun hs.1 hs.2
  exact ⟨s, s', v, hrun, hstep, hrunning, hvectored⟩

/-- With nothing requested, nothing happens. -/
theorem silent_of_none (hready : s.pics.Ready 0x20 0x28) (hquiet : s.pics.Quiet)
    (hidle : s.running = none) (hnone : ∀ w, s.pics.requests w = false) (n : Nat) :
    silent n s = .ok s := by
  have hint : ¬ s.pics.int = true := fun h => by
    obtain ⟨w, hw⟩ := (Pair.int_iff hready hquiet).mp h
    exact Bool.false_ne_true ((hnone w).symm.trans hw)
  cases n with
  | zero => rfl
  | succ n =>
    rw [silent, next, hidle]
    dsimp only
    rw [if_neg hint]

theorem silent_all {ws : List Wire} {n : Nat} (hready : s.pics.Ready 0x20 0x28)
    (hquiet : s.pics.Quiet) (hidle : s.running = none)
    (hws : Wire.order.filter s.pics.requests = ws) (hn : 5 * ws.length ≤ n) :
    ∃ p, silent n s = .ok { s with
        pics := p
        vars := ws.foldl (fun vars w => handle s.routines vars w.number) s.vars
        calls := s.calls ++ ws.map Wire.number } ∧
      ∀ w, p.requests w = false := by
  induction ws generalizing s n with
  | nil =>
    have hnone (w : Wire) : s.pics.requests w = false := by
      rw [Bool.eq_false_iff]
      exact fun hw => List.filter_eq_nil_iff.mp hws w (Pair.mem_order hw) hw
    refine ⟨s.pics, ?_, hnone⟩
    rw [silent_of_none hready hquiet hidle hnone, List.map_nil, List.append_nil]
    rfl
  | cons w ws ih =>
    have hfirst : Wire.order.find? s.pics.requests = some w := by
      rw [← List.head?_filter, hws]
      rfl
    rw [List.length_cons] at hn
    obtain ⟨k, hk, p, hsilent, hready', hquiet', hrequests⟩ :=
      silent_handle hready hquiet hidle hfirst
    have hrest : Wire.order.filter p.requests = ws := by
      rw [hrequests]
      rw [filter_of_find? (by decide) hfirst] at hws
      exact (List.cons.inj hws).2
    let s' : Irq V := { s with
      pics := p
      vars := handle s.routines s.vars w.number
      calls := s.calls ++ [w.number] }
    obtain ⟨q, hq, hnone⟩ := ih (s := s') (n := n - k) hready' hquiet' hidle hrest (by omega)
    refine ⟨q, ?_, hnone⟩
    have hsub : n - k + k = n := Nat.sub_add_cancel (by omega)
    have hcalls : s'.calls ++ ws.map Wire.number = s.calls ++ (w :: ws).map Wire.number :=
      List.append_assoc ..
    rw [← hsub, hsilent, hq, hcalls]
    rfl

/-- **Everything is handled.**  Whatever has happened before, once the devices are silent, the
routines of all lines with a request are called, one after the other and by priority, and then
nothing is left to do. -/
theorem drain {p' : Pair} {routines : Nat → Option (V → V)} {vars : V} {es : List (Event V)}
    (hquiet : p.Quiet) (hp' : p.outs irqRemap = some p')
    (hrun : run Irq.step es (booted p' routines vars) = .ok s) (hidle : s.running = none)
    {n : Nat} (hn : 5 * (Wire.order.filter s.pics.requests).length ≤ n) :
    ∃ t, silent n s = .ok t ∧ t.running = none ∧ (∀ w, t.pics.requests w = false) ∧
      t.calls = s.calls ++ (Wire.order.filter s.pics.requests).map Wire.number ∧
      t.vars = (Wire.order.filter s.pics.requests).foldl
        (fun vars w => handle s.routines vars w.number) s.vars := by
  obtain ⟨hsound, -⟩ := booted_sound routines vars hquiet hp'
  have hs : s.Sound := (always_of_step sound_step hsound).last hrun
  obtain ⟨p, ht, hnone⟩ := silent_all hs.ready (hs.idle hidle) hidle rfl hn
  exact ⟨_, ht, hidle, hnone, rfl, rfl⟩

/-- Two keyboards at a time. -/
theorem drain_keyboards : ∃ s t, run Irq.step [.raise (.slave 4), .raise (.master 1)]
      (booted remapped keyboardOnly 0) = .ok s ∧
    silent 10 s = .ok t ∧ t.running = none ∧ t.calls = [1, 12] ∧ t.vars = 1 := by
  have hrun : run Irq.step [.raise (.slave 4), .raise (.master 1)] (booted remapped keyboardOnly 0) =
      .ok { booted remapped keyboardOnly 0 with
        pics := (remapped.line (.slave 4) true).line (.master 1) true } := rfl
  obtain ⟨t, ht, hidle, -, hcalls, hvars⟩ :=
    drain (n := 10) firmware_quiet outs_irqRemap hrun rfl (by decide)
  exact ⟨_, t, hrun, ht, hidle, hcalls, hvars⟩

end Irq

end MyaXOS
