import Mathlib.Data.List.Find
import Mathlib.Data.List.TakeWhile
import Mathlib.Data.List.FinRange
import Mathlib.Logic.Function.Basic

/-!
# Two interrupt controllers

The pair of 8259A controllers of a PC, as far as it is needed to say what becomes of an interrupt
between the device and the processor.

* `Chip` is one controller with its requests, the interrupts in service and the mask.
  `Chip.command` and `Chip.data` are the writes to its two ports.
* `Pair` is a master with a slave on its line 2.  A `Wire` is a line to a device, and `Wire.order`
  has them by priority.
* `Pair.ack` is what the pair does when the processor accepts an interrupt.  A request may be taken
  back in the meantime, and then there is a spurious interrupt.
* `ack_cases` and `ack_eq` say what that comes to when nothing is masked and nothing in service.

**What a controller decides, and when.**  A device raises a line and the controller tells the
processor that there is something.  Which interrupt it is, is decided later, when the processor
asks.  Until then the request may be gone, or one of higher priority may have come.  So `ack` is a
function of the requests at that moment, and when there are none it answers with line 7 and serves
nothing.  With two controllers this happens twice: the master finds out that something is on its
line 2 and hands over to the slave, which may have nothing any more.

**One order for fifteen lines.**  The lines of the slave come in between those of the master, where
line 2 would be.  `ack_eq` says that the pair serves the first line of `Wire.order` that requests,
so that nobody else has to know of the two steps.  It is proved by following the master, whose first
request is either on a line of a device or on line 2, and in the latter case the slave.

The programming of a controller is a row of bytes to its two ports, whose meaning depends on what
has been sent before (`Expects`).  Only `Ready` is used of it later: the vectors are set and nothing
is masked.

Priorities that rotate, the special mask mode, and polling are left out: the commands for these have
no result.
-/

set_option autoImplicit false

namespace Pic

/-- What the next byte to the data port is taken for. -/
inductive Expects where
  | mask
  | icw2
  | icw3
  | icw4
  deriving DecidableEq, Repr

/-- An interrupt controller. -/
structure Chip where
  /-- The requests. -/
  irr : Fin 8 → Bool
  /-- What is in service. -/
  isr : Fin 8 → Bool
  /-- What is masked. -/
  imr : Fin 8 → Bool
  /-- The vector of line 0. -/
  base : Nat
  /-- Which lines lead to a slave, or for a slave, which line it is on. -/
  cascade : UInt8
  autoEoi : Bool
  /-- There are no slaves. -/
  single : Bool
  /-- The fourth byte of the initialization will come. -/
  four : Bool
  expects : Expects

namespace Chip

/-- The request of the highest priority, when those in `irr` are seen.  What is in service holds
back its own line and the lower ones. -/
def top (c : Chip) (irr : Fin 8 → Bool) : Option (Fin 8) :=
  ((List.finRange 8).takeWhile fun i => !c.isr i).find? fun i => irr i && !c.imr i

/-- Serve a request. -/
def serve (c : Chip) (i : Fin 8) : Chip :=
  { c with
    irr := Function.update c.irr i false
    isr := if c.autoEoi then c.isr else Function.update c.isr i true }

/-- Serve what is requested.  If that is nothing, it will have been line 7, but line 7 is not in
service then. -/
def ack (c : Chip) (irr : Fin 8 → Bool) : Chip × Fin 8 :=
  match c.top irr with
  | some i => (c.serve i, i)
  | none => (c, 7)

/-- The end of the interrupt of the highest priority. -/
def eoi (c : Chip) : Chip :=
  match (List.finRange 8).find? c.isr with
  | some i => { c with isr := Function.update c.isr i false }
  | none => c

/-- A byte is written to the first port. -/
def command (b : UInt8) (c : Chip) : Option Chip :=
  if b.toNat.testBit 4 then
    -- the initialization starts
    some { c with
      irr := fun _ => false
      imr := fun _ => false
      autoEoi := false
      single := b.toNat.testBit 1
      four := b.toNat.testBit 0
      expects := .icw2 }
  else if b = 0x20 then some c.eoi
  else none

/-- A byte is written to the second port. -/
def data (b : UInt8) (c : Chip) : Option Chip :=
  match c.expects with
  | .mask => some { c with imr := fun i => b.toNat.testBit i }
  | .icw2 =>
    some { c with
      base := (b &&& 0xF8).toNat
      expects := if !c.single then .icw3 else if c.four then .icw4 else .mask }
  | .icw3 => some { c with cascade := b, expects := if c.four then .icw4 else .mask }
  | .icw4 =>
    -- the vectors are given in the way of the 8086 only if bit 0 is set
    if b.toNat.testBit 0 then some { c with autoEoi := b.toNat.testBit 1, expects := .mask }
    else none

/-- Nothing is in service. -/
def Quiet (c : Chip) : Prop := ∀ i, c.isr i = false

/-- No two lines are in service.  A kernel that answers each interrupt before the next can come
never has more, and one end of interrupt is then the end of all. -/
def AtMostOne (c : Chip) : Prop := ∃ i, ∀ j, c.isr j = true → j = i

/-- The chip is initialized, and nothing is masked. -/
structure Ready (base : Nat) (cascade : UInt8) (c : Chip) : Prop where
  base_eq : c.base = base
  cascade_eq : c.cascade = cascade
  unmasked : ∀ i, c.imr i = false
  autoEoi : c.autoEoi = false
  expects : c.expects = .mask

variable {c : Chip} {irr : Fin 8 → Bool} {base : Nat} {cascade : UInt8} {i : Fin 8}

theorem Quiet.atMostOne (h : c.Quiet) : c.AtMostOne :=
  ⟨0, fun j hj => absurd ((h j).symm.trans hj) Bool.false_ne_true⟩

/-- With nothing in service the first request is seen. -/
theorem top_eq (hquiet : c.Quiet) (hready : c.Ready base cascade) :
    c.top irr = (List.finRange 8).find? irr := by
  have hall : ∀ i ∈ List.finRange 8, (!c.isr i) = true := by
    intro i _
    rw [hquiet i]
    rfl
  have hseen : (fun i => irr i && !c.imr i) = irr := by
    funext i
    rw [hready.unmasked i, Bool.not_false, Bool.and_true]
  rw [top, hseen, List.takeWhile_eq_self_iff.mpr hall]

/-- What is served then. -/
theorem ack_eq (hquiet : c.Quiet) (hready : c.Ready base cascade) :
    c.ack irr = match (List.finRange 8).find? irr with
      | some i => (c.serve i, i)
      | none => (c, 7) := by
  rw [ack, top_eq hquiet hready]

/-- **The end of an interrupt** is the end of all that is in service, if that was one line at most;
with several of them, it would be the end of the first. -/
theorem eoi_quiet (h : c.AtMostOne) : c.eoi.Quiet := by
  obtain ⟨i, hi⟩ := h
  intro j
  rw [eoi]
  split
  · next k hk =>
    have hki := hi k (List.find?_some hk)
    by_cases hj : j = k
    · rw [hj]
      exact Function.update_self ..
    · change Function.update c.isr k false j = false
      rw [Function.update_of_ne hj, Bool.eq_false_iff]
      exact fun hisr => hj ((hi j hisr).trans hki.symm)
  · next hnone =>
    rw [Bool.eq_false_iff]
    exact List.find?_eq_none.mp hnone j (List.mem_finRange j)

theorem irr_eoi : c.eoi.irr = c.irr := by
  rw [eoi]
  split <;> rfl

theorem Ready.eoi (h : c.Ready base cascade) : c.eoi.Ready base cascade := by
  rw [Chip.eoi]
  split
  · exact ⟨h.base_eq, h.cascade_eq, h.unmasked, h.autoEoi, h.expects⟩
  · exact h

theorem Ready.serve (h : c.Ready base cascade) : (c.serve i).Ready base cascade :=
  ⟨h.base_eq, h.cascade_eq, h.unmasked, h.autoEoi, h.expects⟩

/-- One request is served. -/
theorem serve_atMostOne (h : c.Quiet) : (c.serve i).AtMostOne := by
  refine ⟨i, fun j hj => ?_⟩
  by_contra hne
  have hisr : (c.serve i).isr j = c.isr j := by
    rw [serve]
    dsimp only
    split
    · rfl
    · exact Function.update_of_ne hne ..
  rw [hisr, h j] at hj
  exact Bool.false_ne_true hj

end Chip

/-! ## Two of them

The slave is on line 2 of the master.  So a request of the slave is one of the master as long as the
slave has something to be seen, and what the processor is told when it accepts may be decided twice,
once by each.  The order of the devices has those of the slave in the place of line 2. -/

/-- A line that a device may be on. -/
inductive Wire where
  | master (i : Fin 8)
  | slave (j : Fin 8)
  deriving DecidableEq, Repr

/-- The number of a line. -/
def Wire.number : Wire → Nat
  | .master i => i
  | .slave j => 8 + j

/-- The lines of the devices, those of higher priority first.  Line 2 leads to the slave. -/
def Wire.order : List Wire :=
  [.master 0, .master 1] ++ (List.finRange 8).map .slave ++
    [.master 3, .master 4, .master 5, .master 6, .master 7]

/-- A master, and a slave on line 2. -/
structure Pair where
  master : Chip
  slave : Chip

namespace Pair

/-- The request of a device. -/
def requests (p : Pair) : Wire → Bool
  | .master i => p.master.irr i && i ≠ 2
  | .slave j => p.slave.irr j

/-- A device requests an interrupt, or takes its request back. -/
def line (w : Wire) (level : Bool) (p : Pair) : Pair :=
  match w with
  | .master i => { p with master := { p.master with irr := Function.update p.master.irr i level } }
  | .slave j => { p with slave := { p.slave with irr := Function.update p.slave.irr j level } }

/-- The slave has something for the master. -/
def cascaded (p : Pair) : Bool := (p.slave.top p.slave.irr).isSome

/-- The master has something for the processor. -/
def int (p : Pair) : Bool :=
  (p.master.top (Function.update p.master.irr 2 p.cascaded)).isSome

/-- The processor accepts an interrupt and is told its vector.  When the master decides on a line,
`ir2` is the level on its line 2; this is `cascaded`, unless a request comes or goes between the
master's decision and the slave's.  There is no vector if the slave does not listen. -/
def ack (ir2 : Bool) (p : Pair) : Option (Pair × Nat) :=
  let (master, i) := p.master.ack (Function.update p.master.irr 2 ir2)
  if i = 2 ∧ master.cascade.toNat.testBit 2 then
    if p.slave.cascade = 2 then
      let (slave, j) := p.slave.ack p.slave.irr
      some (⟨master, slave⟩, slave.base + j)
    else none
  else some ({ p with master := master }, master.base + i)

/-- A byte is written to a port. -/
def out (port : Nat) (b : UInt8) (p : Pair) : Option Pair :=
  match port with
  | 0x20 => (p.master.command b).map fun c => { p with master := c }
  | 0x21 => (p.master.data b).map fun c => { p with master := c }
  | 0xA0 => (p.slave.command b).map fun c => { p with slave := c }
  | 0xA1 => (p.slave.data b).map fun c => { p with slave := c }
  | _ => some p

/-- Bytes are written one after the other. -/
def outs : List (Nat × UInt8) → Pair → Option Pair
  | [], p => some p
  | (port, b) :: bs, p => p.out port b >>= outs bs

/-- Nothing is in service. -/
def Quiet (p : Pair) : Prop := p.master.Quiet ∧ p.slave.Quiet

/-- Both are initialized, and nothing is masked. -/
def Ready (b₁ b₂ : Nat) (p : Pair) : Prop := p.master.Ready b₁ 4 ∧ p.slave.Ready b₂ 2

/-- Serve the request of a device. -/
def serve (p : Pair) : Wire → Pair
  | .master i => { p with master := p.master.serve i }
  | .slave j => ⟨p.master.serve 2, p.slave.serve j⟩

/-- The vector of a line. -/
def vector (b₁ b₂ : Nat) : Wire → Nat
  | .master i => b₁ + i
  | .slave j => b₂ + j

variable {p : Pair} {b₁ b₂ : Nat} {ir2 : Bool} {w : Wire}

/-- The request that is served is gone, and the others are there. -/
theorem requests_serve : (p.serve w).requests = Function.update p.requests w false := by
  funext v
  cases w with
  | master i =>
    cases v with
    | master k =>
      change (Function.update p.master.irr i false k && k ≠ 2) = _
      by_cases hk : k = i
      · rw [hk, Function.update_self, Function.update_self, Bool.false_and]
      · rw [Function.update_of_ne hk, Function.update_of_ne fun h => hk (Wire.master.inj h)]
        rfl
    | slave k => exact (Function.update_of_ne (fun h => Wire.noConfusion h) ..).symm
  | slave j =>
    cases v with
    | master k =>
      change (Function.update p.master.irr 2 false k && k ≠ 2) = _
      rw [Function.update_of_ne fun h => Wire.noConfusion h, requests]
      by_cases hk : k = 2
      · rw [hk, Function.update_self]
        exact (Bool.and_false _).symm
      · rw [Function.update_of_ne hk]
    | slave k =>
      change Function.update p.slave.irr j false k = _
      by_cases hk : k = j
      · rw [hk, Function.update_self, Function.update_self]
      · rw [Function.update_of_ne hk, Function.update_of_ne fun h => hk (Wire.slave.inj h)]
        rfl

/-- A device changes its own request. -/
theorem requests_line (hw : w ≠ .master 2) (level : Bool) :
    (p.line w level).requests = Function.update p.requests w level := by
  funext v
  cases w with
  | master i =>
    have hi : i ≠ 2 := fun h => hw (congrArg _ h)
    cases v with
    | master k =>
      change (Function.update p.master.irr i level k && k ≠ 2) = _
      by_cases hk : k = i
      · rw [hk, Function.update_self, Function.update_self, decide_eq_true hi, Bool.and_true]
      · rw [Function.update_of_ne hk, Function.update_of_ne fun h => hk (Wire.master.inj h)]
        rfl
    | slave k => exact (Function.update_of_ne (fun h => Wire.noConfusion h) ..).symm
  | slave j =>
    cases v with
    | master k => exact (Function.update_of_ne (fun h => Wire.noConfusion h) ..).symm
    | slave k =>
      change Function.update p.slave.irr j level k = _
      by_cases hk : k = j
      · rw [hk, Function.update_self, Function.update_self]
      · rw [Function.update_of_ne hk, Function.update_of_ne fun h => hk (Wire.slave.inj h)]
        rfl

/-- There is no device on line 2. -/
theorem requests_line_two (level : Bool) : (p.line (.master 2) level).requests = p.requests := by
  funext v
  cases v with
  | master k =>
    change (Function.update p.master.irr 2 level k && k ≠ 2) = (p.master.irr k && k ≠ 2)
    by_cases hk : k = 2
    · rw [decide_eq_false (not_not_intro hk), Bool.and_false, Bool.and_false]
    · rw [Function.update_of_ne hk]
  | slave k => rfl

theorem Ready.line (h : p.Ready b₁ b₂) (level : Bool) : (p.line w level).Ready b₁ b₂ := by
  obtain ⟨h₁, h₂⟩ := h
  cases w with
  | master i => exact ⟨⟨h₁.base_eq, h₁.cascade_eq, h₁.unmasked, h₁.autoEoi, h₁.expects⟩, h₂⟩
  | slave j => exact ⟨h₁, ⟨h₂.base_eq, h₂.cascade_eq, h₂.unmasked, h₂.autoEoi, h₂.expects⟩⟩

theorem Ready.serve (h : p.Ready b₁ b₂) : (p.serve w).Ready b₁ b₂ := by
  cases w with
  | master i => exact ⟨h.1.serve, h.2⟩
  | slave j => exact ⟨h.1.serve, h.2.serve⟩

/-- The master answers for its own lines. -/
theorem ack_of_master (hready : p.Ready b₁ b₂) (hquiet : p.Quiet) {i : Fin 8}
    (hi : (List.finRange 8).find? (Function.update p.master.irr 2 ir2) = some i) (h2 : i ≠ 2) :
    p.ack ir2 = some (p.serve (.master i), vector b₁ b₂ (.master i)) := by
  rw [ack, Chip.ack_eq hquiet.1 hready.1, hi]
  dsimp only
  rw [if_neg fun h => h2 h.1, hready.1.serve.base_eq]
  rfl

/-- The slave answers for line 2. -/
theorem ack_of_slave (hready : p.Ready b₁ b₂) (hquiet : p.Quiet)
    (hi : (List.finRange 8).find? (Function.update p.master.irr 2 ir2) = some 2) :
    p.ack ir2 = match (List.finRange 8).find? p.slave.irr with
      | some j => some (p.serve (.slave j), vector b₁ b₂ (.slave j))
      | none => some ({ p with master := p.master.serve 2 }, b₂ + 7) := by
  have hcascade : (2 : Fin 8) = 2 ∧ (p.master.serve 2).cascade.toNat.testBit 2 := by
    rw [hready.1.serve.cascade_eq]
    decide
  rw [ack, Chip.ack_eq hquiet.1 hready.1, hi]
  dsimp only
  rw [if_pos hcascade, if_pos hready.2.cascade_eq, Chip.ack_eq hquiet.2 hready.2]
  split
  · rw [hready.2.serve.base_eq]
    rfl
  · rw [hready.2.base_eq]
    rfl

/-- **What may become of an interrupt** that the processor accepts while nothing is in service: a
request is served, or it has been taken back before the master or the slave could serve it. -/
theorem ack_cases (hready : p.Ready b₁ b₂) (hquiet : p.Quiet) (ir2 : Bool) :
    (∃ w, p.requests w = true ∧ p.ack ir2 = some (p.serve w, vector b₁ b₂ w)) ∨
      (p.requests (.master 7) = false ∧ p.ack ir2 = some (p, b₁ + 7)) ∨
      (p.requests (.slave 7) = false ∧
        p.ack ir2 = some ({ p with master := p.master.serve 2 }, b₂ + 7)) := by
  cases hi : (List.finRange 8).find? (Function.update p.master.irr 2 ir2) with
  | none =>
    have hirr : p.master.irr 7 = false :=
      Bool.eq_false_iff.mpr (List.find?_eq_none.mp hi 7 (List.mem_finRange 7))
    refine Or.inr (Or.inl ⟨by rw [requests, hirr, Bool.false_and], ?_⟩)
    rw [ack, Chip.ack_eq hquiet.1 hready.1, hi]
    dsimp only
    rw [if_neg fun h => absurd h.1 (by decide), hready.1.base_eq]
    rfl
  | some i =>
    have hirr := List.find?_some hi
    by_cases h2 : i = 2
    · subst h2
      have hack := ack_of_slave hready hquiet hi
      cases hj : (List.finRange 8).find? p.slave.irr with
      | none =>
        have hirr : p.slave.irr 7 = false :=
          Bool.eq_false_iff.mpr (List.find?_eq_none.mp hj 7 (List.mem_finRange 7))
        rw [hj] at hack
        exact Or.inr (Or.inr ⟨hirr, hack⟩)
      | some j =>
        have hirr : p.slave.irr j = true := List.find?_some hj
        rw [hj] at hack
        exact Or.inl ⟨.slave j, hirr, hack⟩
    · rw [Function.update_of_ne h2] at hirr
      refine Or.inl ⟨.master i, ?_, ack_of_master hready hquiet hi h2⟩
      rw [requests, hirr, decide_eq_true h2]
      rfl

/-- The lines of the master, with the level of the slave on line 2. -/
theorem find?_master (ir2 : Bool) (irr : Fin 8 → Bool) :
    (List.finRange 8).find? (Function.update irr 2 ir2) =
    ([0, 1].find? irr).or (if ir2 then some 2 else [3, 4, 5, 6, 7].find? irr) := by
  have hlist : List.finRange 8 = [0, 1] ++ [2, 3, 4, 5, 6, 7] := by decide
  have hlow : [0, 1].find? (Function.update irr 2 ir2) = [0, 1].find? irr := rfl
  have hhigh : [2, 3, 4, 5, 6, 7].find? (Function.update irr 2 ir2) =
      if ir2 then some 2 else [3, 4, 5, 6, 7].find? irr := by
    cases ir2 <;> rfl
  rw [hlist, List.find?_append, hlow, hhigh]

/-- Lines of the master other than line 2. -/
theorem find?_map_master {l : List (Fin 8)} (h : 2 ∉ l) :
    (l.map Wire.master).find? p.requests = (l.find? p.master.irr).map .master := by
  rw [List.find?_map]
  congr 1
  refine List.find?_congr fun i hi => ?_
  have hne : i ≠ 2 := fun heq => h (heq ▸ hi)
  rw [Function.comp_apply, requests, decide_eq_true hne, Bool.and_true]

/-- The request of the highest priority. -/
theorem find?_order : Wire.order.find? p.requests =
    (([0, 1].find? p.master.irr).map .master).or
      ((((List.finRange 8).find? p.slave.irr).map .slave).or
        (([3, 4, 5, 6, 7].find? p.master.irr).map .master)) := by
  have horder : Wire.order = [0, 1].map Wire.master ++ (List.finRange 8).map .slave ++
      [3, 4, 5, 6, 7].map .master := rfl
  have hslave : p.requests ∘ Wire.slave = p.slave.irr := rfl
  rw [horder, List.find?_append, List.find?_append, find?_map_master (by decide),
    find?_map_master (by decide), List.find?_map, hslave, Option.or_assoc]

theorem cascaded_eq (hready : p.Ready b₁ b₂) (hquiet : p.Quiet) :
    p.cascaded = ((List.finRange 8).find? p.slave.irr).isSome := by
  rw [cascaded, Chip.top_eq hquiet.2 hready.2]

/-- **The request of the highest priority is served**, when it is not taken back. -/
theorem ack_eq (hready : p.Ready b₁ b₂) (hquiet : p.Quiet)
    (hfirst : Wire.order.find? p.requests = some w) :
    p.ack p.cascaded = some (p.serve w, vector b₁ b₂ w) := by
  have hcascaded := cascaded_eq hready hquiet
  have hmaster := find?_master p.cascaded p.master.irr
  rw [find?_order] at hfirst
  cases hlow : [0, 1].find? p.master.irr with
  | some i =>
    have hne : i ≠ 2 := fun h => absurd (h ▸ List.mem_of_find?_eq_some hlow) (by decide)
    rw [hlow] at hfirst hmaster
    cases hfirst
    exact ack_of_master hready hquiet hmaster hne
  | none =>
    rw [hlow, Option.map_none, Option.none_or] at hfirst
    rw [hlow, Option.none_or] at hmaster
    cases hslave : (List.finRange 8).find? p.slave.irr with
    | some j =>
      rw [hslave] at hfirst hcascaded
      cases hfirst
      rw [hcascaded] at hmaster
      have hack := ack_of_slave hready hquiet hmaster
      rw [hslave] at hack
      rw [hcascaded]
      exact hack
    | none =>
      rw [hslave, Option.map_none, Option.none_or] at hfirst
      rw [hslave] at hcascaded
      rw [hcascaded] at hmaster
      obtain ⟨i, hhigh, rfl⟩ := Option.map_eq_some_iff.mp hfirst
      have hne : i ≠ 2 := fun h => absurd (h ▸ List.mem_of_find?_eq_some hhigh) (by decide)
      rw [hcascaded]
      exact ack_of_master hready hquiet (hmaster.trans hhigh) hne

/-- A line that requests has its place in the order. -/
theorem mem_order (h : p.requests w = true) : w ∈ Wire.order := by
  cases w with
  | master i =>
    have hmem : ∀ i : Fin 8, i ≠ 2 → Wire.master i ∈ Wire.order := by decide
    exact hmem i (of_decide_eq_true (Bool.and_eq_true_iff.mp h).2)
  | slave j =>
    have hj := List.mem_map_of_mem (f := Wire.slave) (List.mem_finRange j)
    exact List.mem_append_left _ (List.mem_append_right _ hj)

/-- **The processor is interrupted if a device requests it**, and only then: with nothing in service
no priority holds a request back, on the master or on the slave. -/
theorem int_iff (hready : p.Ready b₁ b₂) (hquiet : p.Quiet) :
    p.int = true ↔ ∃ w, p.requests w = true := by
  have hfind : p.int = (Wire.order.find? p.requests).isSome := by
    rw [int, Chip.top_eq hquiet.1 hready.1, find?_master, find?_order,
      cascaded_eq hready hquiet]
    cases [0, 1].find? p.master.irr with
    | some i => rfl
    | none =>
      cases (List.finRange 8).find? p.slave.irr with
      | some j => rfl
      | none =>
        cases [3, 4, 5, 6, 7].find? p.master.irr with
        | some i => rfl
        | none => rfl
  rw [hfind, List.find?_isSome]
  exact ⟨fun ⟨w, _, hw⟩ => ⟨w, hw⟩, fun ⟨w, hw⟩ => ⟨w, mem_order hw, hw⟩⟩

end Pair

end Pic
