import Mathlib.Data.List.Sort
import Mathlib.Order.Interval.Set.Basic
import MyaXOS.Lib.Access
import MyaXOS.Lib.Segments
import MyaXOS.Strings

/-!
# `strtok_r` on the memory

`strtok_r` cuts a string into tokens in place: it writes a NUL over the delimiter behind each token
and remembers where to go on.  Here the function and those it calls run on the memory, with a record
of where they read and write.

* `Strtok.strspn`, `Strtok.strpbrk`, `Strtok.lfind` and `Strtok.strtokR` are the functions.  Each
  has a lemma that says what it returns, in the words of the functions on lists in `MyaXOS.Strings`.
* `calls` is a number of calls, the first one with the string and the others with `NULL`;
  `tokenLoop` is the loop that goes on until `NULL` is returned.
* `strtok_segments` says that what is returned are the segments of the string.

**From call to call.**  A call finds a string at `*saveptr`, and leaves a shorter one there.  That
the second is a part of the first, and that its segments are those of the first without the one that
has been returned, is `Cut.next`; the sequence of calls is then an induction on the segments.  The
string is not the same in memory any more, since a NUL has been written into it, but only behind the
part that has been dealt with.  `SameOutside` is what is known of the memory in between, and it is
enough to find the delimiters unchanged, and later the tokens.

**The ends of the string.**  A call ends in one of four ways: there are only delimiters left; a
token ends at a delimiter; a token ends with the string, and then `lfind` has looked for the
terminator; or there is nothing left at all.  `Cut` is this case distinction, with the value of
`saveptr` in each of them.  The saved pointer may be the address of the terminator, so the function
can be called again and again, and goes on to return `NULL`.

**Where it reads and writes.**  All functions are programs of `Lib/Access.lean`, and their
specifications are of the form `Does x R W ..`, with the addresses of the two strings for `R` and
the characters of the first for `W`.  So the bounds are not proved in addition: they are a part of
each specification.
-/

set_option autoImplicit false

namespace MyaXOS

namespace Strtok

open Access

/-- The inner loop of `strspn` and of `strpbrk`: is `*ptr` one of the characters from `acc` on? -/
def acceptLoop (ptr : Nat) : Nat → Nat → Access Stop Bool
  | 0, _ => throw .spin
  | fuel + 1, acc => do
    let a ← Access.read acc
    if a = 0 then pure false
    else
      let c ← Access.read ptr
      if c = a then pure true else acceptLoop ptr fuel (u32 (acc + 1))

/-- The loop of `strspn`. -/
def strspnLoop (accept : Nat) : Nat → Nat → Nat → Access Stop Nat
  | 0, _, _ => throw .spin
  | fuel + 1, ptr, size => do
    let c ← Access.read ptr
    if c = 0 then pure size
    else
      let found ← acceptLoop ptr 0x100000000 accept
      if found then strspnLoop accept fuel (u32 (ptr + 1)) (size + 1) else pure size

/-- `strspn(str, accept)`. -/
def strspn (str accept : Nat) : Access Stop Nat := strspnLoop accept 0x100000000 str 0

/-- The loop of `strpbrk`. -/
def strpbrkLoop (accept : Nat) : Nat → Nat → Access Stop Nat
  | 0, _ => throw .spin
  | fuel + 1, str => do
    let c ← Access.read str
    if c = 0 then pure 0
    else
      let found ← acceptLoop str 0x100000000 accept
      if found then pure str else strpbrkLoop accept fuel (u32 (str + 1))

/-- `strpbrk(str, accept)`. -/
def strpbrk (str accept : Nat) : Access Stop Nat := strpbrkLoop accept 0x100000000 str

/-- The loop of `lfind`. -/
def lfindLoop (str : Nat) (accept : UInt8) : Nat → Nat → Access Stop Nat
  | 0, _ => throw .spin
  | fuel + 1, i => do
    let c ← Access.read (u32 (str + i))
    if c ≠ accept then lfindLoop str accept fuel (i + 1) else pure (u32 (str + i))

/-- `lfind(str, accept)`. -/
def lfind (str : Nat) (accept : UInt8) : Access Stop Nat := lfindLoop str accept 0x100000000 0

/-- `strtok_r(str, delim, &saveptr)`, with the new value of `saveptr` as second component. -/
def strtokR (str delim saveptr : Nat) : Access Stop (Nat × Nat) := do
  let str := if str = 0 then saveptr else str
  let span ← strspn str delim
  let token := u32 (str + span)
  let c ← Access.read token
  if c = 0 then pure (0, token)
  else
    let str ← strpbrk token delim
    if str = 0 then
      let saveptr ← lfind token 0
      pure (token, saveptr)
    else
      Access.write str 0
      pure (token, u32 (str + 1))

/-- A number of calls, the first one with `str` and the others with `NULL`: what they return, and
`saveptr` in the end. -/
def calls (str delim saveptr : Nat) : Nat → Access Stop (List Nat × Nat)
  | 0 => pure ([], saveptr)
  | n + 1 => do
    let (token, saveptr) ← strtokR str delim saveptr
    let (tokens, saveptr) ← calls 0 delim saveptr n
    pure (token :: tokens, saveptr)

/-- The calls up to the first one that returns `NULL`. -/
def tokenLoop (delim : Nat) : Nat → Nat → Nat → Access Stop (List Nat)
  | 0, _, _ => throw .spin
  | fuel + 1, str, saveptr => do
    let (pch, saveptr) ← strtokR str delim saveptr
    if pch = 0 then pure []
    else
      let tokens ← tokenLoop delim fuel 0 saveptr
      pure (pch :: tokens)

/-! ## What the functions return

Each loop is run on a string that it may read, and its result is that of the function on lists.
`Does` keeps the account of what was read and written on the way, so that the bounds of the accesses
come with the results and do not have to be proved again for the callers. -/

section
variable {R W : Set Nat} {m : Mem} {str accept ptr : Nat} {s d : List UInt8}

/-- The addresses of a string, with that of its terminator. -/
def addresses (str : Nat) (s : List UInt8) : Set Nat := Set.Icc str (str + s.length)

/-- A string in the address space that may be read, with its terminator.  As it does not wrap
around, its addresses can be counted up without a thought about 32 bits. -/
structure Readable (R : Set Nat) (m : Mem) (str : Nat) (s : List UInt8) : Prop where
  string : m.HoldsStr str s
  fits : str + s.length < 0x100000000
  inside : addresses str s ⊆ R

namespace Readable

variable {c : UInt8} {t : List UInt8}

theorem start_mem (h : Readable R m str s) : str ∈ R :=
  h.inside ⟨le_rfl, Nat.le_add_right _ _⟩

theorem ne_zero (h : Readable R m str (c :: s)) : c ≠ 0 :=
  fun h0 => h.string.nonzero (h0 ▸ List.mem_cons_self)

/-- What follows a part of the string can be read as well. -/
theorem right (h : Readable R m str (s ++ t)) : Readable R m (str + s.length) t := by
  have hfits := h.fits
  rw [List.length_append, ← Nat.add_assoc] at hfits
  refine ⟨h.string.right, hfits, (Set.Icc_subset_Icc (Nat.le_add_right ..) ?_).trans h.inside⟩
  rw [List.length_append, Nat.add_assoc]

theorem tail (h : Readable R m str (c :: s)) : Readable R m (str + 1) s :=
  right (s := [c]) h

/-- The address of the next character. -/
theorem next (h : Readable R m str (c :: s)) : u32 (str + 1) = str + 1 := by
  have hfits := h.fits
  rw [List.length_cons] at hfits
  exact u32_eq (by omega)

theorem length_lt (h : Readable R m str s) : s.length < 0x100000000 :=
  (Nat.le_add_left ..).trans_lt h.fits

end Readable

theorem acceptLoop_does (hd : Readable R m accept d) (hptr : ptr ∈ R) {fuel : Nat}
    (hfuel : d.length < fuel) :
    Does (acceptLoop ptr fuel accept) R W m (decide (m ptr ∈ d)) m := by
  induction d generalizing accept fuel with
  | nil =>
    obtain ⟨fuel, rfl⟩ := Nat.exists_eq_succ_of_ne_zero (Nat.ne_zero_of_lt hfuel)
    have hend : m accept = 0 := hd.string.terminator
    refine Does.read_bind hd.start_mem ?_
    rw [hend, if_pos rfl]
    exact Does.pure
  | cons c d ih =>
    obtain ⟨fuel, rfl⟩ := Nat.exists_eq_succ_of_ne_zero (Nat.ne_zero_of_lt hfuel)
    refine Does.read_bind hd.start_mem ?_
    rw [hd.string.head, if_neg hd.ne_zero]
    refine Does.read_bind hptr ?_
    by_cases hc : m ptr = c
    · rw [if_pos hc, hc, decide_eq_true List.mem_cons_self]
      exact Does.pure
    · have hmem : m ptr ∈ c :: d ↔ m ptr ∈ d := by rw [List.mem_cons, or_iff_right hc]
      rw [if_neg hc, hd.next, decide_eq_decide.mpr hmem]
      exact ih hd.tail (Nat.lt_of_succ_lt_succ hfuel)

/-- **`strspn` counts as the function on lists does**, and reads nothing but the two strings; it
writes nothing. -/
theorem strspnLoop_does (hs : Readable R m str s) (hd : Readable R m accept d) {fuel : Nat}
    (hfuel : s.length < fuel) (size : Nat) :
    Does (strspnLoop accept fuel str size) R W m (size + MyaXOS.strspn d s) m := by
  induction s generalizing str fuel size with
  | nil =>
    obtain ⟨fuel, rfl⟩ := Nat.exists_eq_succ_of_ne_zero (Nat.ne_zero_of_lt hfuel)
    have hend : m str = 0 := hs.string.terminator
    refine Does.read_bind hs.start_mem ?_
    rw [hend, if_pos rfl]
    exact Does.pure
  | cons c s ih =>
    obtain ⟨fuel, rfl⟩ := Nat.exists_eq_succ_of_ne_zero (Nat.ne_zero_of_lt hfuel)
    refine Does.read_bind hs.start_mem ?_
    rw [hs.string.head, if_neg hs.ne_zero]
    refine Does.bind (acceptLoop_does hd hs.start_mem hd.length_lt) ?_
    rw [hs.string.head, MyaXOS.strspn]
    by_cases hc : c ∈ d
    · rw [if_pos (decide_eq_true hc), if_pos hc, hs.next, ← Nat.add_assoc size,
        Nat.add_right_comm size]
      exact ih hs.tail (Nat.lt_of_succ_lt_succ hfuel) (size + 1)
    · rw [if_neg (by simpa using hc), if_neg hc]
      exact Does.pure

/-- **`strpbrk` finds what the function on lists finds**, as a pointer into the string, or returns
`NULL`.  It reads nothing but the two strings either. -/
theorem strpbrkLoop_does (hs : Readable R m str s) (hd : Readable R m accept d) {fuel : Nat}
    (hfuel : s.length < fuel) :
    Does (strpbrkLoop accept fuel str) R W m ((MyaXOS.strpbrk d s).elim 0 (str + ·)) m := by
  induction s generalizing str fuel with
  | nil =>
    obtain ⟨fuel, rfl⟩ := Nat.exists_eq_succ_of_ne_zero (Nat.ne_zero_of_lt hfuel)
    have hend : m str = 0 := hs.string.terminator
    refine Does.read_bind hs.start_mem ?_
    rw [hend, if_pos rfl]
    exact Does.pure
  | cons c s ih =>
    obtain ⟨fuel, rfl⟩ := Nat.exists_eq_succ_of_ne_zero (Nat.ne_zero_of_lt hfuel)
    refine Does.read_bind hs.start_mem ?_
    rw [hs.string.head, if_neg hs.ne_zero]
    refine Does.bind (acceptLoop_does hd hs.start_mem hd.length_lt) ?_
    rw [hs.string.head, MyaXOS.strpbrk]
    by_cases hc : c ∈ d
    · rw [if_pos (decide_eq_true hc), if_pos hc]
      exact Does.pure
    · have hnext : ((MyaXOS.strpbrk d s).map (· + 1)).elim 0 (str + ·) =
          (MyaXOS.strpbrk d s).elim 0 (str + 1 + ·) := by
        cases MyaXOS.strpbrk d s with
        | none => rfl
        | some i => exact show str + (i + 1) = str + 1 + i by omega
      rw [if_neg (by simpa using hc), if_neg hc, hs.next, hnext]
      exact ih hs.tail (Nat.lt_of_succ_lt_succ hfuel)

/-- `lfind` finds the terminator. -/
theorem lfindLoop_does (hs : Readable R m str s) {i fuel : Nat} (hi : i ≤ s.length)
    (hfuel : s.length - i < fuel) : Does (lfindLoop str 0 fuel i) R W m (str + s.length) m := by
  have hfits := hs.fits
  induction fuel generalizing i with
  | zero => exact absurd hfuel (Nat.not_lt_zero _)
  | succ fuel ih =>
    rw [lfindLoop, u32_eq (by omega)]
    refine Does.read_bind (hs.inside ⟨Nat.le_add_right _ _, by omega⟩) ?_
    rcases Nat.lt_or_eq_of_le hi with hlt | rfl
    · rw [if_pos (hs.string.byte_ne hlt)]
      exact ih hlt (by omega)
    · rw [if_neg (not_not.mpr hs.string.terminator)]
      exact Does.pure

theorem strspn_does (hs : Readable R m str s) (hd : Readable R m accept d) :
    Does (strspn str accept) R W m (MyaXOS.strspn d s) m := by
  have hloop := strspnLoop_does (W := W) hs hd hs.length_lt 0
  rwa [Nat.zero_add] at hloop

theorem strpbrk_does (hs : Readable R m str s) (hd : Readable R m accept d) :
    Does (strpbrk str accept) R W m ((MyaXOS.strpbrk d s).elim 0 (str + ·)) m :=
  strpbrkLoop_does hs hd hs.length_lt

theorem lfind_does (hs : Readable R m str s) :
    Does (lfind str 0) R W m (str + s.length) m :=
  lfindLoop_does hs (Nat.zero_le _) (Nat.lt_of_le_of_lt (Nat.sub_le ..) hs.length_lt)

end

/-! ## One call

A call skips delimiters, finds the end of the token, and writes a NUL there.  There are three
outcomes: no token, a token up to the end of the string, and a token with a delimiter behind it;
only the last one writes.  `Cut` has one constructor for each, with what a caller can rely on. -/

/-- The delimiters that `strspn` counts. -/
theorem strspn_split (d s : List UInt8) : ∃ skip rest, s = skip ++ rest ∧ (∀ c ∈ skip, c ∈ d) ∧
    MyaXOS.strspn d s = skip.length ∧ ∀ c ∈ rest.head?, c ∉ d := by
  induction s with
  | nil => exact ⟨[], [], rfl, List.forall_mem_nil _, rfl, by simp⟩
  | cons c s ih =>
    rw [MyaXOS.strspn]
    by_cases hc : c ∈ d
    · obtain ⟨skip, rest, rfl, hskip, hlength, hrest⟩ := ih
      rw [if_pos hc, hlength]
      exact ⟨c :: skip, rest, rfl, List.forall_mem_cons.mpr ⟨hc, hskip⟩, rfl, hrest⟩
    · rw [if_neg hc]
      exact ⟨[], c :: s, rfl, List.forall_mem_nil _, rfl, by simpa using hc⟩

/-- The delimiter that `strpbrk` finds. -/
theorem strpbrk_split (d t : List UInt8) : (∀ c ∈ t, c ∉ d) ∧ MyaXOS.strpbrk d t = none ∨
    ∃ token c rest, t = token ++ c :: rest ∧ (∀ c ∈ token, c ∉ d) ∧ c ∈ d ∧
      MyaXOS.strpbrk d t = some token.length := by
  induction t with
  | nil => exact Or.inl ⟨List.forall_mem_nil _, rfl⟩
  | cons c t ih =>
    rw [MyaXOS.strpbrk]
    by_cases hc : c ∈ d
    · rw [if_pos hc]
      exact Or.inr ⟨[], c, t, rfl, List.forall_mem_nil _, hc, rfl⟩
    · rw [if_neg hc]
      rcases ih with ⟨hall, hnone⟩ | ⟨token, c', rest, rfl, htoken, hc', hsome⟩
      · rw [hnone]
        exact Or.inl ⟨List.forall_mem_cons.mpr ⟨hc, hall⟩, rfl⟩
      · rw [hsome]
        exact Or.inr ⟨c :: token, c', rest, rfl, List.forall_mem_cons.mpr ⟨hc, htoken⟩, hc', rfl⟩

/-- What a call does with the string `s` at `str`, where the memory is `m`: what it returns, the new
value of `saveptr` and the memory. -/
inductive Cut (d : List UInt8) (m : Mem) (str : Nat) : List UInt8 → Nat × Nat → Mem → Prop
  /-- There is no token. -/
  | nothing {s : List UInt8} (hs : ∀ c ∈ s, c ∈ d) : Cut d m str s (0, str + s.length) m
  /-- The token is the rest of the string. -/
  | last {skip token : List UInt8} (hskip : ∀ c ∈ skip, c ∈ d) (hne : token ≠ [])
      (htoken : ∀ c ∈ token, c ∉ d) :
      Cut d m str (skip ++ token) (str + skip.length, str + skip.length + token.length) m
  /-- The token ends in a delimiter. -/
  | piece {skip token rest : List UInt8} {c : UInt8} (hskip : ∀ c ∈ skip, c ∈ d)
      (hne : token ≠ []) (htoken : ∀ c ∈ token, c ∉ d) (hc : c ∈ d) :
      Cut d m str (skip ++ (token ++ c :: rest))
        (str + skip.length, str + skip.length + token.length + 1)
        (m.store8 (str + skip.length + token.length) 0)

/-- What a call of `strtok_r` needs: the string `s` at `start`, the delimiters `d` apart from it,
and the right to read both and to write over the characters of the string. -/
structure Ready (R W : Set Nat) (m : Mem) (start : Nat) (s : List UInt8) (delim : Nat)
    (d : List UInt8) : Prop where
  string : m.HoldsStr start s
  pos : start ≠ 0
  fits : start + s.length < 0x100000000
  read : addresses start s ⊆ R
  write : Set.Ico start (start + s.length) ⊆ W
  delims : m.HoldsStr delim d
  delim_fits : delim + d.length < 0x100000000
  delim_read : addresses delim d ⊆ R
  apart : ∀ i ≤ d.length, delim + i < start ∨ start + s.length < delim + i

section
variable {R W : Set Nat} {m : Mem} {str start saveptr delim : Nat} {s d : List UInt8}

/-- The right to read the two strings, and to write over the characters of the first one. -/
theorem ready_of_apart (hs : m.HoldsStr start s) (hpos : start ≠ 0)
    (hfits : start + s.length < 0x100000000) (hd : m.HoldsStr delim d)
    (hdfits : delim + d.length < 0x100000000)
    (hapart : delim + d.length < start ∨ start + s.length < delim) :
    Ready (addresses start s ∪ addresses delim d) (Set.Ico start (start + s.length)) m
      (start + 0) s delim d where
  string := hs
  pos := hpos
  fits := hfits
  read := Set.subset_union_left
  write := Set.Subset.refl _
  delims := hd
  delim_fits := hdfits
  delim_read := Set.subset_union_right
  apart := fun i hi => by omega

/-- **One call of `strtok_r`.**  The string starts at `str`, or at `*saveptr` if `str` is `NULL`. -/
theorem strtokR_does (hstart : (if str = 0 then saveptr else str) = start)
    (h : Ready R W m start s delim d) :
    ∃ r m', Cut d m start s r m' ∧ Does (strtokR str delim saveptr) R W m r m' := by
  have hs : Readable R m start s := ⟨h.string, h.fits, h.read⟩
  have hd : Readable R m delim d := ⟨h.delims, h.delim_fits, h.delim_read⟩
  have hpos := h.pos
  have hfits := h.fits
  have hwrite := h.write
  obtain ⟨skip, rest, rfl, hskip, hspan, hhead⟩ := strspn_split d s
  have hright := hs.right
  rw [List.length_append] at hfits hwrite
  have hspn : Does (strspn start delim) R W m skip.length m := hspan ▸ strspn_does hs hd
  have htoken : u32 (start + skip.length) = start + skip.length := u32_eq (by omega)
  rw [strtokR, hstart]
  cases rest with
  | nil =>
    have hend : m (start + skip.length) = 0 := hright.string.terminator
    rw [List.append_nil]
    refine ⟨_, _, Cut.nothing hskip, Does.bind hspn ?_⟩
    rw [htoken]
    refine Does.read_bind hright.start_mem ?_
    rw [hend, if_pos rfl]
    exact Does.pure
  | cons c rest =>
    have hpbrk := strpbrk_does (W := W) hright hd
    rcases strpbrk_split d (c :: rest) with ⟨hall, hnone⟩ |
      ⟨token, c', rest', heq, htok, hc', hsome⟩
    · rw [hnone] at hpbrk
      refine ⟨_, _, Cut.last hskip (List.cons_ne_nil c rest) hall, Does.bind hspn ?_⟩
      rw [htoken]
      refine Does.read_bind hright.start_mem ?_
      rw [hright.string.head, if_neg hright.ne_zero]
      refine Does.bind hpbrk ?_
      rw [Option.elim_none, if_pos rfl]
      refine Does.bind (lfind_does hright) ?_
      exact Does.pure
    · have hne : token ≠ [] := by
        rintro rfl
        obtain ⟨rfl, -⟩ := List.cons.inj heq
        exact hhead c rfl hc'
      have hlength : (c :: rest).length = token.length + (rest'.length + 1) := by
        rw [heq, List.length_append, List.length_cons]
      rw [hsome] at hpbrk
      rw [heq]
      refine ⟨_, _, Cut.piece hskip hne htok hc', Does.bind hspn ?_⟩
      rw [htoken]
      refine Does.read_bind hright.start_mem ?_
      rw [hright.string.head, if_neg hright.ne_zero]
      refine Does.bind hpbrk ?_
      rw [Option.elim_some, if_neg (by omega)]
      refine Does.write_bind (hwrite ⟨by omega, by omega⟩) ?_
      rw [u32_eq (by omega)]
      exact Does.pure

end

/-! ## Many calls

A call leaves the rest of the string at `saveptr`, with the segments of the string but for the first
one, and from then on nothing in front of it is written to.  So the segment returned stays as it is,
and the induction on the number of calls goes through with the offset of the rest as the only thing
that changes. -/

section
variable {R W : Set Nat} {m m' : Mem} {str saveptr base off delim : Nat} {s d : List UInt8}
  {r : Nat × Nat}

/-- The two memories agree outside of the string `s` at `start`.  The terminator of the string is
outside in this sense: it may be read but is never written. -/
def SameOutside (start : Nat) (s : List UInt8) (m m' : Mem) : Prop :=
  ∀ x, x < start ∨ start + s.length ≤ x → m' x = m x

/-- The delimiters stay when only the string is written to. -/
theorem Ready.delim_congr (h : Ready R W m base s delim d) (hsame : SameOutside base s m m') :
    m'.HoldsStr delim d :=
  h.delims.congr fun i hi => hsame _ ((h.apart i hi).imp id Nat.le_of_lt)

/-- The part of the string behind `t`, in a memory that differs in the string only. -/
theorem Ready.rest {t rest : List UInt8} (h : Ready R W m base (t ++ rest) delim d)
    (hsame : SameOutside base (t ++ rest) m m') (hstring : m'.HoldsStr (base + t.length) rest) :
    Ready R W m' (base + t.length) rest delim d := by
  have hfits := h.fits
  have hpos := h.pos
  have hread := h.read
  have hwrite := h.write
  have happart := h.apart
  simp only [addresses, List.length_append, ← Nat.add_assoc] at hfits hread hwrite happart
  refine ⟨hstring, by omega, hfits, (Set.Icc_subset_Icc_left (Nat.le_add_right ..)).trans hread,
    (Set.Ico_subset_Ico_left (Nat.le_add_right ..)).trans hwrite, h.delim_congr hsame, h.delim_fits,
    h.delim_read, fun i hi => ?_⟩
  rcases happart i hi with hlt | hlt
  · exact Or.inl (by omega)
  · exact Or.inr hlt

/-- **What a call leaves for the next one**: a string `rest` at `saveptr`, that lies `off'` behind
the base.  Its segments are those of `s` without the first one, which was returned and will stay in
the memory as long as nothing outside of `rest` is written to. -/
theorem Cut.next (h : Cut d m (base + off) s r m') (hs : Ready R W m (base + off) s delim d) :
    SameOutside (base + off) s m m' ∧
    ∃ off' rest, r.2 = base + off' ∧ off ≤ off' ∧ off' + rest.length = off + s.length ∧
      Ready R W m' (base + off') rest delim d ∧
      (r.1 = 0 ∧ List.segmentsFrom d false off s = [] ∧
          List.segmentsFrom d false off' rest = [] ∨
        ∃ seg, List.segmentsFrom d false off s = seg :: List.segmentsFrom d false off' rest ∧
          r.1 = base + seg.1 ∧ r.1 ≠ 0 ∧
          ∀ m'', SameOutside (base + off') rest m' m'' → m''.HoldsStr (base + seg.1) seg.2) := by
  have hpos := hs.pos
  cases h with
  | nothing hall =>
    have hsegs := List.segmentsFrom_skip hall off []
    rw [List.append_nil] at hsegs
    rw [← List.append_nil s] at hs
    have hrest := hs.rest (fun _ _ => rfl) hs.string.right
    rw [Nat.add_assoc] at hrest
    exact ⟨fun _ _ => rfl, off + s.length, [], Nat.add_assoc .., Nat.le_add_right .., by simp,
      hrest, Or.inl ⟨rfl, hsegs, rfl⟩⟩
  | @last skip token hskip hne htoken =>
    have hsegs := List.segmentsFrom_skip hskip off token
    rw [List.segmentsFrom_last hne htoken] at hsegs
    have htok := hs.string.right
    rw [← List.append_nil (skip ++ token)] at hs
    have hrest := hs.rest (fun _ _ => rfl) hs.string.right
    have hlength : base + off + (skip ++ token).length =
        base + (off + skip.length + token.length) := by
      rw [List.length_append]
      omega
    rw [hlength] at hrest
    refine ⟨fun _ _ => rfl, off + skip.length + token.length, [], by omega, by omega,
      by simp [Nat.add_assoc], hrest,
      Or.inr ⟨(off + skip.length, token), hsegs, Nat.add_assoc .., ?_, fun m'' hsame => ?_⟩⟩
    · simp only [ne_eq]
      omega
    · rw [Nat.add_assoc] at htok
      exact htok.congr fun i _ => hsame _ (by simp only [List.length_nil]; omega)
  | @piece skip token rest c hskip hne htoken hc =>
    have hsegs := List.segmentsFrom_skip hskip off (token ++ c :: rest)
    rw [List.segmentsFrom_piece hne htoken hc] at hsegs
    have htok := hs.string.right.cut
    have hlist : skip ++ (token ++ c :: rest) = (skip ++ (token ++ [c])) ++ rest := by simp
    have hlength : base + off + (skip ++ (token ++ [c])).length =
        base + (off + skip.length + token.length + 1) := by
      simp only [List.length_append, List.length_singleton]
      omega
    have hsame : SameOutside (base + off) ((skip ++ (token ++ [c])) ++ rest) m
        (m.store8 (base + off + skip.length + token.length) 0) := by
      intro x hx
      simp only [List.length_append, List.length_singleton] at hx
      exact Mem.store8_of_ne _ (by omega)
    rw [hlist] at hs
    have hrest := hs.rest hsame (hs.string.right.congr fun i _ => Mem.store8_of_ne _ (by omega))
    rw [hlength] at hrest
    rw [hlist]
    refine ⟨hsame, off + skip.length + token.length + 1, rest, by omega, by omega, ?_, hrest,
      Or.inr ⟨(off + skip.length, token), ?_, Nat.add_assoc .., ?_, fun m'' hlater => ?_⟩⟩
    · simp only [List.length_append, List.length_singleton]
      omega
    · rw [← hlist, hsegs]
    · simp only [ne_eq]
      omega
    · rw [← Nat.add_assoc]
      exact htok.congr fun i hi => hlater (base + off + skip.length + i) (Or.inl (by omega))

theorem SameOutside.of_part {t rest : List UInt8} {start start' : Nat} {m'' : Mem}
    (h : SameOutside start t m m') (h' : SameOutside start' rest m' m'') (hstart : start ≤ start')
    (hlength : start' + rest.length = start + t.length) : SameOutside start t m m'' :=
  fun x hx => (h' x (by omega)).trans (h x hx)

/-- **The calls return the segments one after the other**, and `NULL` when there are no more. -/
theorem calls_does (n : Nat) (hstart : (if str = 0 then saveptr else str) = base + off)
    (h : Ready R W m (base + off) s delim d) :
    ∃ save m', Does (calls str delim saveptr n) R W m
        (((List.segmentsFrom d false off s).map (base + ·.1)).take n ++
          List.replicate (n - (List.segmentsFrom d false off s).length) 0, save) m' ∧
      SameOutside (base + off) s m m' ∧
      ∀ seg ∈ (List.segmentsFrom d false off s).take n, m'.HoldsStr (base + seg.1) seg.2 := by
  induction n generalizing str saveptr off s m with
  | zero =>
    refine ⟨saveptr, m, ?_, fun _ _ => rfl, fun seg hseg => ?_⟩
    · rw [List.take_zero, Nat.zero_sub]
      exact Does.pure
    · rw [List.take_zero] at hseg
      exact absurd hseg List.not_mem_nil
  | succ n ih =>
    obtain ⟨⟨token, save⟩, m', hcut, hcall⟩ := strtokR_does hstart h
    obtain ⟨hsame, off', rest, rfl, hle, hlength, hready, hsegs⟩ := hcut.next h
    have hnext : (if 0 = 0 then base + off' else 0) = base + off' := if_pos rfl
    obtain ⟨save', m'', hcalls, hsame', hholds⟩ := ih hnext hready
    have hdoes : Does (calls str delim saveptr (n + 1)) R W m _ m'' :=
      Does.bind hcall (Does.bind hcalls Does.pure)
    refine ⟨save', m'', ?_, hsame.of_part hsame' (by omega) (by omega), ?_⟩
    · rcases hsegs with ⟨rfl, hnil, hnil'⟩ | ⟨seg, hsegs, rfl, -, -⟩
      · rw [hnil'] at hdoes
        rw [hnil]
        simpa [List.replicate_succ] using hdoes
      · rw [hsegs, List.map_cons, List.take_succ_cons, List.length_cons, Nat.add_sub_add_right,
          List.cons_append]
        exact hdoes
    · rcases hsegs with ⟨-, hnil, -⟩ | ⟨seg, hsegs, -, -, hstays⟩
      · rw [hnil, List.take_nil]
        exact List.forall_mem_nil _
      · rw [hsegs, List.take_succ_cons]
        exact List.forall_mem_cons.mpr ⟨hstays m'' hsame', hholds⟩

/-- **The loop collects the segments**, and ends behind the last of them with the call that returns
`NULL`. -/
theorem tokenLoop_does (fuel : Nat) (hstart : (if str = 0 then saveptr else str) = base + off)
    (h : Ready R W m (base + off) s delim d)
    (hfuel : (List.segmentsFrom d false off s).length < fuel) :
    ∃ m', Does (tokenLoop delim fuel str saveptr) R W m
        ((List.segmentsFrom d false off s).map (base + ·.1)) m' ∧
      SameOutside (base + off) s m m' ∧
      ∀ seg ∈ List.segmentsFrom d false off s, m'.HoldsStr (base + seg.1) seg.2 := by
  induction fuel generalizing str saveptr off s m with
  | zero => exact absurd hfuel (Nat.not_lt_zero _)
  | succ fuel ih =>
    obtain ⟨⟨token, save⟩, m', hcut, hcall⟩ := strtokR_does hstart h
    obtain ⟨hsame, off', rest, rfl, hle, hlength, hready, hsegs⟩ := hcut.next h
    rcases hsegs with ⟨rfl, hnil, -⟩ | ⟨seg, hsegs, rfl, hne, hstays⟩
    · refine ⟨m', ?_, hsame, ?_⟩
      · rw [hnil, tokenLoop]
        refine Does.bind hcall ?_
        simp only [if_true]
        exact Does.pure
      · rw [hnil]
        exact List.forall_mem_nil _
    · rw [hsegs, List.length_cons] at hfuel
      have hnext : (if 0 = 0 then base + off' else 0) = base + off' := if_pos rfl
      obtain ⟨m'', hloop, hsame', hholds⟩ := ih hnext hready (Nat.lt_of_succ_lt_succ hfuel)
      refine ⟨m'', ?_, hsame.of_part hsame' (by omega) (by omega), ?_⟩
      · rw [hsegs, tokenLoop]
        refine Does.bind hcall ?_
        simp only [if_neg hne]
        exact Does.bind hloop Does.pure
      · rw [hsegs]
        exact List.forall_mem_cons.mpr ⟨hstays m'' hsame', hholds⟩

end

/-- **`strtok_r` cuts a string into its segments.**  The calls return the segments one after the
other, from the left to the right, and `NULL` from then on; the loop ends behind the last of them.
Each segment that was returned is a string of its own in the memory.  No character before the string
or past its terminator is read or written to. -/
theorem strtok_segments (m : Mem) (str delim saveptr : Nat) (s d : List UInt8)
    (hs : m.HoldsStr str s) (hpos : str ≠ 0) (hfits : str + s.length < 0x100000000)
    (hd : m.HoldsStr delim d) (hdfits : delim + d.length < 0x100000000)
    (hapart : delim + d.length < str ∨ str + s.length < delim) :
    ∃ segs : List (Nat × List UInt8),
      (∀ i t, (i, t) ∈ segs ↔ List.IsSegment d s i t) ∧ segs.Pairwise (·.1 < ·.1) ∧
      (∀ n, ∃ save m' reads writes,
        calls str delim saveptr n ⟨m, [], []⟩ =
          .ok (((segs.map (str + ·.1)).take n ++ List.replicate (n - segs.length) 0, save),
            ⟨m', reads, writes⟩) ∧
        (∀ seg ∈ segs.take n, m'.HoldsStr (str + seg.1) seg.2) ∧
        (∀ a ∈ reads, str ≤ a ∧ a ≤ str + s.length ∨ delim ≤ a ∧ a ≤ delim + d.length) ∧
        ∀ a ∈ writes, str ≤ a ∧ a < str + s.length) ∧
      ∀ fuel > segs.length, ∃ accessed,
        tokenLoop delim fuel str saveptr ⟨m, [], []⟩ = .ok (segs.map (str + ·.1), accessed) := by
  have hready := ready_of_apart hs hpos hfits hd hdfits hapart
  refine ⟨List.segments d s, fun i t => List.mem_segments, List.pairwise_segments d s,
    fun n => ?_, fun fuel hfuel => ?_⟩
  · obtain ⟨save, m', hcalls, -, hholds⟩ := calls_does n (if_neg hpos) hready
    obtain ⟨reads, writes, hrun, hreads, hwrites⟩ := hcalls.run
    exact ⟨save, m', reads, writes, hrun, hholds, hreads, hwrites⟩
  · obtain ⟨m', hloop, -⟩ := tokenLoop_does fuel (if_neg hpos) hready hfuel
    obtain ⟨reads, writes, hrun, -⟩ := hloop.run
    exact ⟨_, hrun⟩

/-- The string `  ab c`, and a space as the only delimiter. -/
def spaced : Mem := fun a =>
  match a with
  | 0x1000 => 0x20
  | 0x1001 => 0x20
  | 0x1002 => 0x61
  | 0x1003 => 0x62
  | 0x1004 => 0x20
  | 0x1005 => 0x63
  | 0x2000 => 0x20
  | _ => 0

/-- `ab`, `c`, and then `NULL` each time; and the loop ends after the two. -/
theorem strtok_segments_spaced :
    (∃ save m reads writes, calls 0x1000 0x2000 0 4 ⟨spaced, [], []⟩ =
        .ok (([0x1002, 0x1005, 0, 0], save), ⟨m, reads, writes⟩) ∧
      m.HoldsStr 0x1002 [0x61, 0x62] ∧ m.HoldsStr 0x1005 [0x63] ∧
      ∀ a ∈ writes, 0x1000 ≤ a ∧ a < 0x1006) ∧
    ∃ accessed, tokenLoop 0x2000 3 0x1000 0 ⟨spaced, [], []⟩ =
      .ok ([0x1002, 0x1005], accessed) := by
  obtain ⟨segs, hmem, hsorted, hcalls, hloop⟩ := strtok_segments spaced 0x1000 0x2000 0
    [0x20, 0x20, 0x61, 0x62, 0x20, 0x63] [0x20] ⟨by decide, rfl, by decide⟩ (by decide) (by decide)
    ⟨by decide, rfl, by decide⟩ (by decide) (Or.inr (by decide))
  have hsegs : segs = List.segments [0x20] [0x20, 0x20, 0x61, 0x62, 0x20, 0x63] :=
    hsorted.eq_of_mem_iff (List.pairwise_segments _ _) fun p =>
      (hmem p.1 p.2).trans List.mem_segments.symm
  rw [show List.segments [0x20] [0x20, 0x20, 0x61, 0x62, 0x20, 0x63] =
    ([(2, [0x61, 0x62]), (5, [0x63])] : List (Nat × List UInt8)) by decide] at hsegs
  subst hsegs
  obtain ⟨save, m, reads, writes, hrun, hholds, -, hwrites⟩ := hcalls 4
  refine ⟨⟨save, m, reads, writes, hrun, ?_, ?_, hwrites⟩, hloop 3 (by decide)⟩
  · exact hholds _ List.mem_cons_self
  · exact hholds _ (List.mem_cons_of_mem _ List.mem_cons_self)

end Strtok

end MyaXOS
