import MyaXOS.Lib.Strings
import MyaXOS.System

/-!
# The string functions of `system.c`

`strlen` runs on the memory; it is where the kernel finds out how long a string is.  The functions
that only compare or search take a string as the list of its characters, without the NUL.

* `string` reads off the string a pointer names, and `Mem.HoldsStr.string_eq` says what it reads.
* `strtokR` is `strtok_r`, with the string `*saveptr` points to as second component; `tokens` is the
  loop around it.

**Two levels.**  A function that reads a string and writes nothing depends on the characters only,
so it is a function of a list here, with the cases of the source's loop as the cases of the
recursion.  A caller that has a pointer reads the string off first.  If there is no NUL behind the
pointer then this does not return, as the loops of the source would not.  For `strtok_r`, which
writes to its string, there is a version on the memory as well, in `Strtok.lean`; the one here is
what it comes to.

**Characters are signed.**  `strcmp` compares `char`s, so that a byte from 128 on is less than all
others.  This is of no consequence for the question whether two strings are equal, which is all that
is asked of it (`strcmp_eq_zero`), but it is the source's comparison that decides.

**Tokens** are what is left of the pieces between the delimiters when the empty ones are dropped
(`tokens_eq`).  The function skips delimiters and then takes what comes up to the next one, so the
proof compares one round of the loop with one non-empty piece of `List.splitOn`, and the empty
pieces before it with the delimiters that are skipped.
-/

set_option autoImplicit false

namespace MyaXOS

/-- The characters of a string literal. -/
def ascii (text : String) : List UInt8 := text.toList.map fun c => UInt8.ofNat c.toNat

/-- The number a `char` stands for: `char` is signed. -/
def charValue (ch : UInt8) : Int := ch.toBitVec.toInt

theorem charValue_inj {a b : UInt8} : charValue a = charValue b ↔ a = b := by
  rw [charValue, charValue, BitVec.toInt_inj, UInt8.toBitVec_inj]

/-! ## Strings in memory

A string in the memory is a list of characters other than NUL with a NUL behind it, as `HoldsStr` of
`Lib/Strings.lean` has it.  `strlen` finds its length, and this is the only place where the loop is
looked at: whatever reads a string goes through `string`. -/

/-- The loop of `strlen`.  It goes round the address space once, after which it would not end. -/
def strlenLoop (m : Mem) (str : Nat) : Nat → Nat → Except Stop Nat
  | 0, _ => .error .spin
  | fuel + 1, i => if m (u32 (str + i)) ≠ 0 then strlenLoop m str fuel (i + 1) else .ok i

/-- `strlen(str)`. -/
def strlen (m : Mem) (str : Nat) : Except Stop Nat := strlenLoop m str 0x100000000 0

/-- The string at `str`. -/
def string (m : Mem) (str : Nat) : Except Stop (List UInt8) := do
  let len ← strlen m str
  .ok ((List.range len).map fun i => m (u32 (str + i)))

section
variable {m : Mem} {str : Nat} {s : List UInt8}

theorem strlenLoop_eq (h : m.HoldsStr str s) (hfits : str + s.length < 0x100000000) {fuel i : Nat}
    (hi : i ≤ s.length) (hfuel : s.length - i < fuel) : strlenLoop m str fuel i = .ok s.length := by
  induction fuel generalizing i with
  | zero => omega
  | succ fuel ih =>
    rw [strlenLoop, u32_eq (by omega)]
    rcases Nat.lt_or_eq_of_le hi with hlt | rfl
    · rw [if_pos (h.byte_ne hlt)]
      exact ih hlt (by omega)
    · rw [if_neg (not_not.mpr h.terminator)]

theorem strlenLoop_ne_error {e : Stop} (he : e ≠ .spin) {fuel i : Nat} :
    strlenLoop m str fuel i ≠ .error e := by
  induction fuel generalizing i with
  | zero => exact fun h => he (Except.error.inj h).symm
  | succ fuel ih =>
    rw [strlenLoop]
    split_ifs
    · exact ih
    · exact ok_ne_error _ _

/-- `strlen` stops, if at all, because it finds no NUL. -/
theorem strlen_ne_error {e : Stop} (he : e ≠ .spin) : strlen m str ≠ .error e :=
  strlenLoop_ne_error he

theorem string_ne_error {e : Stop} (he : e ≠ .spin) : string m str ≠ .error e :=
  bind_ne_error (strlen_ne_error he) fun _ => ok_ne_error _ _

theorem strlen_eq (h : m.HoldsStr str s) (hfits : str + s.length < 0x100000000) :
    strlen m str = .ok s.length :=
  strlenLoop_eq h hfits (Nat.zero_le _) (by omega)

/-- **A pointer to a string names that string**: reading up to the first NUL gives back its
characters, if it does not go beyond the end of the address space. -/
theorem string_eq (h : m.HoldsStr str s) (hfits : str + s.length < 0x100000000) :
    string m str = .ok s := by
  rw [string, strlen_eq h hfits, ok_bind]
  refine congrArg Except.ok (List.ext_getElem (by simp) fun i hi hi' => ?_)
  rw [List.getElem_map, List.getElem_range, u32_eq (by omega), h.byte i hi']

end

/-- A memory with a string in it. -/
def stringAt (a : Nat) (s : List UInt8) : Mem := fun x => if a ≤ x then s.getD (x - a) 0 else 0

theorem stringAt_holds (a : Nat) {s : List UInt8} (hs : 0 ∉ s) : (stringAt a s).HoldsStr a s where
  byte i hi := by
    simp [stringAt, hi]
  terminator := by
    simp [stringAt]
  nonzero := hs

/-! ## Comparing

Characters are signed, so that those from 0x80 on come before the others.  For the lookups only one
thing matters, which is when the result is 0. -/

/-- `strcmp(a, b)`. -/
def strcmp : List UInt8 → List UInt8 → Int
  | [], [] => 0
  | [], b :: _ => if 0 < charValue b then -1 else 1
  | a :: _, [] => if charValue a < 0 then -1 else 1
  | a :: as, b :: bs =>
    if charValue a < charValue b then -1 else if charValue b < charValue a then 1 else strcmp as bs

theorem strcmp_eq_zero {a b : List UInt8} : strcmp a b = 0 ↔ a = b := by
  induction a generalizing b with
  | nil =>
    cases b with
    | nil => simp [strcmp]
    | cons b bs =>
      rw [strcmp]
      split_ifs <;> simp
  | cons a as ih =>
    cases b with
    | nil =>
      rw [strcmp]
      split_ifs <;> simp
    | cons b bs =>
      rw [strcmp]
      split_ifs with hlt hgt
      · simp only [List.cons.injEq, false_iff]
        rintro ⟨rfl, -⟩
        exact Int.lt_irrefl _ hlt
      · simp only [List.cons.injEq, false_iff, show (1 : Int) ≠ 0 by decide]
        rintro ⟨rfl, -⟩
        exact Int.lt_irrefl _ hgt
      · rw [ih, List.cons.injEq, charValue_inj.mp (Int.le_antisymm (Int.not_lt.mp hgt)
          (Int.not_lt.mp hlt))]
        simp

/-! ## Tokens

The functions on lists that `strtok_r` and its helpers compute.  The shell has one delimiter, and
for one delimiter the tokens are the pieces between the delimiters without the empty ones, which is
`List.splitOn`.  The code, with its pointers and its NULs written into the string, is in
`Strtok.lean`. -/

/-- `strspn(str, accept)`. -/
def strspn (accept : List UInt8) : List UInt8 → Nat
  | [] => 0
  | c :: str => if c ∈ accept then strspn accept str + 1 else 0

/-- `strpbrk(str, accept)`, as an index into `str`. -/
def strpbrk (accept : List UInt8) : List UInt8 → Option Nat
  | [] => none
  | c :: str => if c ∈ accept then some 0 else (strpbrk accept str).map (· + 1)

/-- `strtok_r(str, delim, &saveptr)`: the token, and the string that `saveptr` then names. -/
def strtokR (delim str : List UInt8) : Option (List UInt8) × List UInt8 :=
  let str := str.drop (strspn delim str)
  if str = [] then (none, str)
  else match strpbrk delim str with
    | none => (some str, [])
    | some i => (some (str.take i), str.drop (i + 1))

/-- The loop that collects the tokens.  Each round takes a character at least. -/
def tokenLoop (delim : List UInt8) : Nat → List UInt8 → List (List UInt8)
  | 0, _ => []
  | fuel + 1, str =>
    match strtokR delim str with
    | (none, _) => []
    | (some pch, save) => pch :: tokenLoop delim fuel save

/-- The tokens of `str`. -/
def tokens (delim str : List UInt8) : List (List UInt8) := tokenLoop delim (str.length + 1) str

theorem strtokR_sublist {delim str token save : List UInt8}
    (h : strtokR delim str = (some token, save)) : token.Sublist str ∧ save.Sublist str := by
  rw [strtokR] at h
  have hdrop := List.drop_sublist (strspn delim str) str
  split_ifs at h with hnil
  · cases h
  · split at h
    · cases h
      exact ⟨hdrop, List.nil_sublist str⟩
    · cases h
      exact ⟨(List.take_sublist _ _).trans hdrop, (List.drop_sublist _ _).trans hdrop⟩

theorem tokenLoop_sublist {delim token : List UInt8} {fuel : Nat} {str : List UInt8}
    (h : token ∈ tokenLoop delim fuel str) : token.Sublist str := by
  induction fuel generalizing str with
  | zero => cases h
  | succ fuel ih =>
    rw [tokenLoop] at h
    split at h
    · cases h
    · next pch save heq =>
      obtain ⟨hpch, hsave⟩ := strtokR_sublist heq
      rcases List.mem_cons.mp h with rfl | h
      · exact hpch
      · exact (ih h).trans hsave

/-- A token is made of characters of the string. -/
theorem tokens_sublist {delim str token : List UInt8} (h : token ∈ tokens delim str) :
    token.Sublist str :=
  tokenLoop_sublist h

section
variable {sep c : UInt8} {str t : List UInt8}

theorem strtokR_sep (sep : UInt8) (t : List UInt8) :
    strtokR [sep] (sep :: t) = strtokR [sep] t := by
  rw [strtokR, strtokR, strspn, if_pos (List.mem_singleton_self sep), List.drop_succ_cons]

theorem strpbrk_of_notMem (h : sep ∉ str) : strpbrk [sep] str = none := by
  induction str with
  | nil => rfl
  | cons c str ih =>
    rw [List.mem_cons, not_or] at h
    rw [strpbrk, if_neg (by simpa using Ne.symm h.1), ih h.2]
    rfl

theorem strpbrk_append_cons (h : sep ∉ str) :
    strpbrk [sep] (str ++ sep :: t) = some str.length := by
  induction str with
  | nil => rw [List.nil_append, strpbrk, if_pos (List.mem_singleton_self sep), List.length_nil]
  | cons c str ih =>
    rw [List.mem_cons, not_or] at h
    rw [List.cons_append, strpbrk, if_neg (by simpa using Ne.symm h.1), ih h.2]
    rfl

/-- A string that does not start with the delimiter starts with a token. -/
theorem strtokR_cons (h : c ≠ sep) :
    strtokR [sep] (c :: t) = match strpbrk [sep] (c :: t) with
      | none => (some (c :: t), [])
      | some i => (some ((c :: t).take i), (c :: t).drop (i + 1)) := by
  have hspan : strspn [sep] (c :: t) = 0 := by
    rw [strspn, if_neg (by simpa using h)]
  rw [strtokR, hspan, List.drop_zero]
  simp only [List.cons_ne_nil, if_false]

theorem tokenLoop_nil (delim : List UInt8) (fuel : Nat) : tokenLoop delim fuel [] = [] := by
  cases fuel <;> rfl

theorem tokenLoop_eq (sep : UInt8) : ∀ {fuel : Nat} {str : List UInt8}, str.length < fuel →
    tokenLoop [sep] fuel str = (str.splitOn sep).filter (· ≠ [])
  | 0, _, hfuel => absurd hfuel (Nat.not_lt_zero _)
  | fuel + 1, [], _ => by
    rw [tokenLoop_nil]
    rfl
  | fuel + 1, c :: t, hfuel => by
    rw [List.length_cons] at hfuel
    by_cases hc : c = sep
    · have ih := tokenLoop_eq sep (show t.length < fuel + 1 by omega)
      have hsplit := List.splitOn_append_cons_self_of_not_mem (List.not_mem_nil (a := sep)) t
      rw [List.nil_append] at hsplit
      rw [hc, hsplit, List.filter_cons_of_neg (by simp), ← ih, tokenLoop, tokenLoop, strtokR_sep]
    · rw [tokenLoop, strtokR_cons hc]
      by_cases hmem : sep ∈ c :: t
      · obtain ⟨token, save, heq, htoken⟩ := List.eq_append_cons_of_mem hmem
        have hne : token ≠ [] := by
          rintro rfl
          exact hc (List.cons.inj heq).1
        have hlength := congrArg List.length heq
        rw [List.length_append, List.length_cons, List.length_cons] at hlength
        rw [heq, strpbrk_append_cons htoken, List.splitOn_append_cons_self_of_not_mem htoken,
          List.filter_cons_of_pos (by simpa using hne)]
        simp only [List.take_left']
        rw [List.drop_append, List.drop_of_length_le (by omega), Nat.add_sub_cancel_left,
          List.nil_append, List.drop_one, List.tail_cons, tokenLoop_eq sep (by omega)]
      · rw [strpbrk_of_notMem hmem, List.splitOn_eq_singleton hmem,
          List.filter_cons_of_pos (by simp)]
        simp only [tokenLoop_nil, List.filter_nil]

/-- **The tokens are the pieces between the delimiters**, without the empty ones. -/
theorem tokens_eq (sep : UInt8) (str : List UInt8) :
    tokens [sep] str = (str.splitOn sep).filter (· ≠ []) :=
  tokenLoop_eq sep (Nat.lt_succ_self _)

end

end MyaXOS
