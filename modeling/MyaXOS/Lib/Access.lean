import Mathlib.Data.Set.Basic
import MyaXOS.Lib.Memory

/-!
# Programs that access a memory

A program that reads and writes single bytes of a memory, with a record of the addresses.

* `Access ε α` is a program that returns an `α` or stops with an `ε`.
* `Does x R W m a m'`: from the memory `m` the program `x` returns `a` and leaves `m'`, and it has
  read in `R` and written in `W` only.  There is one rule for each way to build a program.

That a program does not touch a byte cannot be seen from the memory that it leaves: a read leaves no
trace, and a byte may be written with what it has been before.  So the addresses are recorded, in a
state next to the memory which no program can look at.

`Does` forgets the record and keeps two sets.  This is what makes the rules compose: the programs
that are put together have sets of their own, and `Does.bind` takes any sets that contain both.  The
sets are chosen once, for a whole function — the string and its terminator, say — and then every
access on the way has to be shown to be in them, which is a comparison of two addresses.  At the end
`Does.run` turns the sets into a statement about the record.
-/

set_option autoImplicit false

/-- A memory, with the addresses that were read and those that were written, the last one first.
The two lists have no influence on what is computed; they are the account from which bounds are read
off. -/
structure Accessed where
  mem : Mem
  reads : List Nat
  writes : List Nat

/-- A program on a memory. -/
abbrev Access (ε α : Type) := StateT Accessed (Except ε) α

namespace Access

variable {ε α β : Type}

/-- Read a byte. -/
def read (p : Nat) : Access ε UInt8 := fun s =>
  .ok (s.mem p, { s with reads := p :: s.reads })

/-- Write a byte. -/
def write (p : Nat) (b : UInt8) : Access ε Unit := fun s =>
  .ok ((), { s with mem := s.mem.store8 p b, writes := p :: s.writes })

/-- The program returns `a` and leaves the memory `m'`.  It reads in `R` and writes in `W`. -/
def Does (x : Access ε α) (R W : Set Nat) (m : Mem) (a : α) (m' : Mem) : Prop :=
  ∀ reads writes, ∃ rs ws, x ⟨m, reads, writes⟩ = .ok (a, ⟨m', rs ++ reads, ws ++ writes⟩) ∧
    (∀ p ∈ rs, p ∈ R) ∧ ∀ p ∈ ws, p ∈ W

variable {R W : Set Nat} {m m' m'' : Mem} {a : α} {b : β} {p : Nat}

theorem Does.pure : Does (pure a : Access ε α) R W m a m :=
  fun _ _ => ⟨[], [], rfl, List.forall_mem_nil _, List.forall_mem_nil _⟩

/-- One program after the other. -/
theorem Does.bind {x : Access ε α} {f : α → Access ε β} (hx : Does x R W m a m')
    (hf : Does (f a) R W m' b m'') : Does (x >>= f) R W m b m'' := by
  intro reads writes
  obtain ⟨rs, ws, hrun, hrs, hws⟩ := hx reads writes
  obtain ⟨rs', ws', hrun', hrs', hws'⟩ := hf (rs ++ reads) (ws ++ writes)
  refine ⟨rs' ++ rs, ws' ++ ws, ?_, ?_, ?_⟩
  · rw [List.append_assoc, List.append_assoc, ← hrun']
    change (x ⟨m, reads, writes⟩ >>= fun r => f r.1 r.2) = _
    rw [hrun]
    rfl
  · exact fun p hp => (List.mem_append.mp hp).elim (hrs' p) (hrs p)
  · exact fun p hp => (List.mem_append.mp hp).elim (hws' p) (hws p)

/-- A byte is read first. -/
theorem Does.read_bind {f : UInt8 → Access ε β} (hp : p ∈ R) (hf : Does (f (m p)) R W m b m') :
    Does (read p >>= f) R W m b m' :=
  Does.bind (fun _ _ => ⟨[p], [], rfl, by simpa using hp, List.forall_mem_nil _⟩) hf

/-- A byte is written first. -/
theorem Does.write_bind {f : Unit → Access ε β} {c : UInt8} (hp : p ∈ W)
    (hf : Does (f ()) R W (m.store8 p c) b m') : Does (write p c >>= f) R W m b m' :=
  Does.bind (fun _ _ => ⟨[], [p], rfl, List.forall_mem_nil _, by simpa using hp⟩) hf

/-- The run of a program with nothing recorded yet. -/
theorem Does.run {x : Access ε α} (h : Does x R W m a m') :
    ∃ reads writes, x ⟨m, [], []⟩ = .ok (a, ⟨m', reads, writes⟩) ∧
      (∀ p ∈ reads, p ∈ R) ∧ ∀ p ∈ writes, p ∈ W := by
  obtain ⟨rs, ws, hrun, hrs, hws⟩ := h [] []
  rw [List.append_nil, List.append_nil] at hrun
  exact ⟨rs, ws, hrun, hrs, hws⟩

end Access
