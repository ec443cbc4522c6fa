import Mathlib.Data.List.GetD
import MyaXOS.Kgets
import MyaXOS.Shell
import MyaXOS.Strtok

/-!
# The tokens of the shell

The shell cuts the line in its buffer into tokens with `strtok_r` and keeps pointers to them: `cmd`
to the first one, and `argv` to all of them.  Here these are pointers into the memory, and the
question is where the pointers lead that the branches of the shell use.

* `ReturnedLine` is a line that `kgets` may return.
* `dispatchUses` lists the pointers that the branch of a command uses.
* `Tokenizes` says that there is a token, and that every pointer in use leads into the line.  This
  is so unless the line is made of blanks (`tokenizes_iff`): `strcmp` then goes through `NULL`.

Every branch that needs an argument compares the number of tokens first, so the only pointer that is
used without a check is `cmd` itself.  `dispatchUses_subset` says so for all commands at once.  The
pointers that are stored are those of the segments of the line, by the result on `strtok_r`, and a
segment lies in the line; so what is in use leads into the line if there is a segment, and there is
one if there is a character that is not a blank.

The shell asks again for an empty line.  A line of blanks is not empty, and `kgets` does return it:
any printable characters can be typed, as long as they are fewer than the buffer has room for.
`ReturnedLine.typed` is the connection, so that the condition is about lines that really come.
-/

set_option autoImplicit false

namespace MyaXOS

/-- A line with which `kgets(buffer, 1023)` returns, so that the shell does not ask for another: it
is not empty, it has room in the buffer, and all its characters are printable. -/
structure ReturnedLine where
  text : List UInt8
  pos : 1 ≤ text.length
  fits : text.length ≤ 1023
  printable : ∀ c ∈ text, 0x20 ≤ c ∧ c ≤ 0x7F

/-- The pointers `argv[i]` from `i` on. -/
def argvFrom (argv : List Nat) (i : Nat) : List Nat :=
  (List.range' i (argv.length - i)).map fun i => argv.getD i 0

/-- The pointers that the branch of the command `cmd` uses.  `tokenid` is the length of `argv`, and
`argv[tokenid]` is `NULL`. -/
def dispatchUses (cmd : List UInt8) (argv : List Nat) : List Nat :=
  let tokenid := argv.length
  if strcmp cmd (ascii "cd") = 0 then (if tokenid < 2 then [] else [argv.getD 1 0])
  else if strcmp cmd (ascii "cat") = 0 then (if tokenid < 2 then [] else [argv.getD 1 0])
  else if strcmp cmd (ascii "echo") = 0 then (if tokenid < 2 then [] else argvFrom argv 1)
  else if strcmp cmd (ascii "ls") = 0 then []
  else if strcmp cmd (ascii "info") = 0 then []
  else if strcmp cmd (ascii "help") = 0 then []
  else if strcmp cmd (ascii "out") = 0 then
    (if tokenid < 3 then [] else [argv.getD 1 0, argv.getD 2 0])
  else if strcmp cmd (ascii "serial") = 0 then (if tokenid < 2 then [] else argvFrom argv 1)
  else if strcmp cmd (ascii "crash") = 0 then []
  else [argv.getD 0 0]

/-- The pointer `cmd`: what the first call of `strtok_r` has returned. -/
def cmdPointer (argv : List Nat) : Nat := argv.getD 0 0

/-- The pointer leads into the line at `buffer`, to one of its characters, and so it is not `NULL`.
-/
def IntoLine (buffer : Nat) (text : List UInt8) (p : Nat) : Prop :=
  p ≠ 0 ∧ buffer ≤ p ∧ p < buffer + text.length

/-- The buffer of the shell with the line, and the delimiter `" "` somewhere else. -/
structure ShellBuffer (m : Mem) (buffer delim : Nat) (text : List UInt8) : Prop where
  line : m.HoldsStr buffer text
  pos : buffer ≠ 0
  fits : buffer + text.length < 0x100000000
  delims : m.HoldsStr delim [0x20]
  delim_fits : delim + 1 < 0x100000000
  apart : delim + 1 < buffer ∨ buffer + text.length < delim

/-- **What the tokenizer is to do**: store a token at least, so that `cmd`, which the dispatch
compares, and every pointer that the branch of the command uses lead into the line. -/
structure Tokenizes (m : Mem) (buffer delim save : Nat) (text : List UInt8) (argv : List Nat)
    (accessed : Accessed) : Prop where
  ran : Strtok.tokenLoop delim 0x100000000 buffer save ⟨m, [], []⟩ = .ok (argv, accessed)
  stored : argv ≠ []
  cmd : IntoLine buffer text (cmdPointer argv)
  uses : ∀ cmd, accessed.mem.HoldsStr (cmdPointer argv) cmd →
    ∀ p ∈ dispatchUses cmd argv, IntoLine buffer text p

/-! ## The pointers in use

Each branch of the dispatch tests the number of arguments before it uses one.  This is checked here
once for all branches: whatever the command, the pointers in use are among those that the tokenizer
has stored, if it has stored one at all. -/

section
variable {argv : List Nat} {i : Nat} {cmd : List UInt8}

theorem getD_mem (hi : i < argv.length) : argv.getD i 0 ∈ argv := by
  rw [List.getD_eq_getElem _ _ hi]
  exact List.getElem_mem hi

theorem argvFrom_subset : argvFrom argv i ⊆ argv := by
  intro p hp
  obtain ⟨j, hj, rfl⟩ := List.mem_map.mp hp
  rw [List.mem_range'_1] at hj
  exact getD_mem (by omega)

theorem ite_subset {p : Prop} [Decidable p] {as bs cs : List Nat} (has : p → as ⊆ cs)
    (hbs : ¬ p → bs ⊆ cs) : (if p then as else bs) ⊆ cs := by
  split
  · next hp => exact has hp
  · next hp => exact hbs hp

/-- **Every branch checks for the arguments it uses**: with a token at least, no branch uses a
pointer that the tokenizer has not stored. -/
theorem dispatchUses_subset (hne : argv ≠ []) : dispatchUses cmd argv ⊆ argv := by
  have hpos : 0 < argv.length := List.length_pos_iff.mpr hne
  have hnone : [] ⊆ argv := List.nil_subset argv
  have hone : (if argv.length < 2 then [] else [argv.getD 1 0]) ⊆ argv :=
    ite_subset (fun _ => hnone) fun h => List.cons_subset.mpr ⟨getD_mem (by omega), hnone⟩
  have htwo : (if argv.length < 3 then [] else [argv.getD 1 0, argv.getD 2 0]) ⊆ argv :=
    ite_subset (fun _ => hnone) fun h => List.cons_subset.mpr
      ⟨getD_mem (by omega), List.cons_subset.mpr ⟨getD_mem (by omega), hnone⟩⟩
  have hall : (if argv.length < 2 then [] else argvFrom argv 1) ⊆ argv :=
    ite_subset (fun _ => hnone) fun _ => argvFrom_subset
  rw [dispatchUses]
  refine ite_subset (fun _ => hone) fun _ => ?cat
  refine ite_subset (fun _ => hone) fun _ => ?echo
  refine ite_subset (fun _ => hall) fun _ => ?ls
  refine ite_subset (fun _ => hnone) fun _ => ?info
  refine ite_subset (fun _ => hnone) fun _ => ?help
  refine ite_subset (fun _ => hnone) fun _ => ?out
  refine ite_subset (fun _ => htwo) fun _ => ?serial
  refine ite_subset (fun _ => hall) fun _ => ?crash
  refine ite_subset (fun _ => hnone) fun _ => ?unknown
  exact List.cons_subset.mpr ⟨getD_mem hpos, hnone⟩

end

/-! ## The tokens of a line

The loop of the shell is that of `Strtok`, with a blank as the delimiter.  Its pointers lead to the
segments of the line, which are not empty and lie in it. -/

section
variable {m : Mem} {buffer delim save i : Nat} {text t : List UInt8} {argv : List Nat}
  {accessed : Accessed}

theorem intoLine_of_isSegment (hpos : buffer ≠ 0) (h : List.IsSegment [0x20] text i t) :
    IntoLine buffer text (buffer + i) := by
  obtain ⟨before, after, rfl, rfl, hne, -⟩ := h
  have hlength : 0 < t.length := List.length_pos_iff.mpr hne
  simp only [IntoLine, List.length_append]
  omega

/-- What the loop of the shell leaves in `argv`. -/
theorem ShellBuffer.tokenLoop (h : ShellBuffer m buffer delim text) (save : Nat) :
    ∃ accessed, Strtok.tokenLoop delim 0x100000000 buffer save ⟨m, [], []⟩ =
      .ok ((List.segments [0x20] text).map (buffer + ·.1), accessed) := by
  have hready := Strtok.ready_of_apart h.line h.pos h.fits h.delims h.delim_fits h.apart
  have hlength := List.length_segmentsFrom_le [0x20] false 0 text
  have hfits := h.fits
  obtain ⟨m', hloop, -⟩ := Strtok.tokenLoop_does 0x100000000 (if_neg h.pos) hready (by omega)
  obtain ⟨reads, writes, hrun, -⟩ := hloop.run
  exact ⟨_, hrun⟩

/-- With a token, everything in use leads into the line. -/
theorem ShellBuffer.tokenizes (h : ShellBuffer m buffer delim text) (save : Nat)
    (hne : List.segments [0x20] text ≠ []) :
    ∃ argv accessed, Tokenizes m buffer delim save text argv accessed := by
  obtain ⟨accessed, hrun⟩ := h.tokenLoop save
  have hinto : ∀ p ∈ (List.segments [0x20] text).map (buffer + ·.1), IntoLine buffer text p := by
    intro p hp
    obtain ⟨seg, hseg, rfl⟩ := List.mem_map.mp hp
    exact intoLine_of_isSegment h.pos (List.mem_segments.mp (show (seg.1, seg.2) ∈ _ from hseg))
  have hargv : (List.segments [0x20] text).map (buffer + ·.1) ≠ [] :=
    fun hnil => hne (List.map_eq_nil_iff.mp hnil)
  exact ⟨_, accessed, {
    ran := hrun
    stored := hargv
    cmd := hinto _ (getD_mem (List.length_pos_iff.mpr hargv))
    uses := fun cmd _ p hp => hinto p (dispatchUses_subset hargv hp) }⟩

end

/-! ## What `kgets` returns

Not every string is a line: `kgets(buffer, 1023)` returns printable characters, 1023 of them at
most.  That whatever is typed makes such a line is proved here, so that a line of blanks, with which
the shell fails, is one that it can get. -/

/-- The lines that may be typed. -/
def Printable (n : Nat) (line : List UInt8) : Prop :=
  line.length ≤ n ∧ ∀ c ∈ line, 0x20 ≤ c ∧ c ≤ 0x7F

theorem Printable.edit {n : Nat} {line : List UInt8} (h : Printable n line) (ch : UInt8) :
    Printable n (editBounded n line ch) := by
  obtain ⟨hlength, hchars⟩ := h
  rw [editBounded]
  split_ifs with hback hprint hroom
  · refine ⟨?_, fun c hc => hchars c (List.dropLast_subset line hc)⟩
    rw [List.length_dropLast]
    omega
  · refine ⟨?_, fun c hc => ?_⟩
    · rw [List.length_append, List.length_singleton]
      exact hroom
    · rcases List.mem_append.mp hc with hc | hc
      · exact hchars c hc
      · rw [List.mem_singleton.mp hc]
        exact hprint
  · exact ⟨hlength, hchars⟩
  · exact ⟨hlength, hchars⟩

theorem boundedLine_printable (n : Nat) (chs : List UInt8) : Printable n (boundedLine n chs) := by
  have hfold : ∀ line, Printable n line → Printable n (chs.foldl (editBounded n) line) := by
    induction chs with
    | nil => exact fun line h => h
    | cons ch chs ih => exact fun line h => ih _ (h.edit ch)
  exact hfold [] ⟨Nat.zero_le n, List.forall_mem_nil _⟩

/-- What is typed, as a line that `kgets` returns. -/
def ReturnedLine.typed (chs : List UInt8) (h : boundedLine 1023 chs ≠ []) : ReturnedLine where
  text := boundedLine 1023 chs
  pos := List.length_pos_iff.mpr h
  fits := (boundedLine_printable 1023 chs).1
  printable := (boundedLine_printable 1023 chs).2

/-- **The shell stores a token unless the line is made of blanks**, and a line of blanks leaves
`NULL` in `cmd`. -/
theorem tokenizes_iff (line : ReturnedLine) (m : Mem) (buffer delim save : Nat)
    (h : ShellBuffer m buffer delim line.text) :
    (∃ argv accessed, Tokenizes m buffer delim save line.text argv accessed) ↔
      ∃ c ∈ line.text, c ≠ 0x20 := by
  have hblank : List.segments [0x20] line.text = [] ↔ ∀ c ∈ line.text, c = 0x20 := by
    rw [List.segments_eq_nil_iff]
    simp only [List.mem_singleton]
  constructor
  · rintro ⟨argv, accessed, htokens⟩
    by_contra hall
    push Not at hall
    obtain ⟨accessed', hrun⟩ := h.tokenLoop save
    rw [hblank.mpr hall, htokens.ran] at hrun
    exact htokens.stored (congrArg Prod.fst (Except.ok.inj hrun))
  · rintro ⟨c, hc, hne⟩
    exact h.tokenizes save fun hnil => hne (hblank.mp hnil c hc)

/-- A `b` behind a blank. -/
theorem tokenizes_iff_b :
    ∃ argv accessed, Tokenizes (fun a => if a = 0x1000 then 0x20 else if a = 0x1001 then 0x62 else
      if a = 0x2000 then 0x20 else 0) 0x1000 0x2000 0 [0x20, 0x62] argv accessed :=
  (tokenizes_iff (ReturnedLine.typed [0x20, 0x62] (by decide)) _ 0x1000 0x2000 0 {
    line := ⟨by decide, by decide, by decide⟩
    pos := by decide
    fits := by decide
    delims := ⟨by decide, by decide, by decide⟩
    delim_fits := by decide
    apart := Or.inr (by decide) }).mpr ⟨0x62, by decide, by decide⟩

/-- A line with a blank only has no token. -/
theorem not_tokenizes :
    ¬ ∃ argv accessed, Tokenizes (fun a => if a = 0x1000 then 0x20 else if a = 0x2000 then 0x20
      else 0) 0x1000 0x2000 0 (ReturnedLine.typed [0x20] (by decide)).text argv accessed := by
  rintro ⟨argv, accessed, htokens⟩
  have hbuffer : ShellBuffer (fun a => if a = 0x1000 then 0x20 else if a = 0x2000 then 0x20 else 0)
      0x1000 0x2000 [0x20] := {
    line := ⟨by decide, by decide, by decide⟩
    pos := by decide
    fits := by decide
    delims := ⟨by decide, by decide, by decide⟩
    delim_fits := by decide
    apart := Or.inr (by decide) }
  obtain ⟨accessed', hrun⟩ := hbuffer.tokenLoop 0
  have hran := htokens.ran
  rw [hrun] at hran
  exact htokens.stored (congrArg Prod.fst (Except.ok.inj hran)).symm

end MyaXOS
