import MyaXOS.Shell

/-!
# Formatted output

`kprintf` goes through its format and writes to `buf[ptr++]`, one character after the other, and
then hands `buf` to `puts`.  `parse_num` and `parse_hex` write to the same place.

* `PrintBuf` is what has been written so far; `PrintBuf.putAll` writes a row of characters.
* `pieces` and `expand` are what a format means.
* `Prints` says what is left to do in a state of the loop; `Prints.round` is one round of it.
* `kprintf_eq` says that `kprintf` prints the expansion, and `print_inside_iff` when it stays inside
  the format and the buffer.

**A format is a list of pieces**: text, and directives that take an argument.  That is how a format
is read, and it is not how the code goes through it.  The code has an index, and it steps over the
second character of a directive by hand, wherever it handles one.  `Prints` connects the two: at the
beginning of a round the index is at the beginning of a piece, the pieces from there on are those of
the rest of the format, and what has been written is what the pieces before it stand for.  A round
takes the first piece off.  Its cases are those of the source, and each is one line once the lemmas
on numbers are there.

**Numbers.**  `parse_num` calls itself for the quotient and then writes the remainder, so the digits
come out from the left to the right; the induction is on the number.  `parse_hex` has eight rounds.
Both are compared with `Nat.toDigits`.

**Where it goes wrong.**  A format that ends behind a percent sign or a backslash makes the loop
step over the NUL, and go on behind it.  That such a format is read beyond its end is not an effect
on the result, so the states that the loop comes through are a relation (`PrintReach`), and for each
of them there is a list of what is read and written.  The buffer is written to without a test, and
overflows if the expansion and the NUL are longer than it is.  `PrintCall.inside_iff` says that
these two are all that can happen.
-/

set_option autoImplicit false

namespace MyaXOS

/-! ## `kprintf`

The buffer is 1024 bytes on the stack, and nothing checks the index into it.  So the buffer of the
model is the list of all writes with their indices, inside or not, and it is read back as memory
only where the text is handed on.  The arguments are words; what they mean depends on the directive.
-/

/-- `buf` and `ptr`: what has been written to `buf`, each character with its index. -/
structure PrintBuf where
  writes : List (Nat × UInt8)
  ptr : Nat
  deriving DecidableEq, Repr

/-- `buf[ptr++] = ch`. -/
def PrintBuf.put (b : PrintBuf) (ch : UInt8) : PrintBuf := ⟨b.writes ++ [(b.ptr, ch)], b.ptr + 1⟩

/-- `parse_num(value, base)`.  The remainder is not negative: `base` is 10. -/
def parseNum (base : Nat) : Nat → Nat → PrintBuf → Except Stop PrintBuf
  | 0, _, _ => .error .spin
  | fuel + 1, value, b => do
    let n := value / base
    let r := value % base
    let b ← if base ≤ value then parseNum base fuel n b else .ok b
    .ok (b.put (UInt8.ofNat (r + 0x30)))

/-- The loop of `parse_hex(value)`, with `i` rounds to go. -/
def parseHex (value : Nat) : Nat → PrintBuf → PrintBuf
  | 0, b => b
  | i + 1, b =>
    parseHex value i (b.put ((ascii "0123456789abcdef").getD ((value >>> (i * 4)) &&& 0xF) 0))

/-- The loop that copies a string. -/
def putLoop (m : Mem) : Nat → Nat → PrintBuf → Except Stop PrintBuf
  | 0, _, _ => .error .spin
  | fuel + 1, s, b => if m s ≠ 0 then putLoop m fuel (u32 (s + 1)) (b.put (m s)) else .ok b

/-- What is written for a backslash and `ch`. -/
def putEscape (ch : UInt8) (b : PrintBuf) : PrintBuf :=
  if ch = 0x61 then b.put 0x07
  else if ch = 0x62 then b.put 0x08
  else if ch = 0x74 then b.put 0x09
  else if ch = 0x6E then b.put 0x0A
  else if ch = 0x72 then b.put 0x0D
  else if ch = 0x5C then b.put 0x5C
  else b

/-- What is written for a percent sign and `ch`, where the arguments are the words `va` and `arg` of
them have been taken. -/
def putDirective (m : Mem) (va : Nat → Nat) (ch : UInt8) (arg : Nat) (b : PrintBuf) :
    Except Stop (Nat × PrintBuf) :=
  if ch = 0x73 then do
    let b ← putLoop m 0x100000000 (va arg) b
    .ok (arg + 1, b)
  else if ch = 0x63 then .ok (arg + 1, b.put (UInt8.ofNat (va arg)))
  else if ch = 0x78 then .ok (arg + 1, parseHex (va arg) 8 b)
  else if ch = 0x64 then do
    let b ← parseNum 10 32 (va arg) b
    .ok (arg + 1, b)
  else if ch = 0x25 then .ok (arg, b.put 0x25)
  else .ok (arg, b.put ch)

/-- The variables of the loop: `i`, the number of arguments taken, and the buffer. -/
structure PrintState where
  i : Nat
  arg : Nat
  buf : PrintBuf

/-- One round of the loop over the format. -/
def kprintfRound (m : Mem) (fmt : Nat) (va : Nat → Nat) (s : PrintState) :
    Except Stop PrintState :=
  let ch := m (u32 (fmt + s.i))
  if ch ≠ 0x25 ∧ ch ≠ 0x5C then .ok ⟨s.i + 1, s.arg, s.buf.put ch⟩
  else if ch = 0x5C then
    .ok ⟨s.i + 1 + 1, s.arg, putEscape (m (u32 (fmt + (s.i + 1)))) s.buf⟩
  else do
    let (arg, buf) ← putDirective m va (m (u32 (fmt + (s.i + 1)))) s.arg s.buf
    .ok ⟨s.i + 1 + 1, arg, buf⟩

/-- The loop over the format. -/
def kprintfLoop (m : Mem) (fmt : Nat) (va : Nat → Nat) : Nat → PrintState → Except Stop PrintState
  | 0, _ => .error .spin
  | fuel + 1, s =>
    if m (u32 (fmt + s.i)) ≠ 0 then do
      let s ← kprintfRound m fmt va s
      kprintfLoop m fmt va fuel s
    else .ok s

/-- The state in which the loop starts. -/
def PrintState.start : PrintState := ⟨0, 0, ⟨[], 0⟩⟩

/-- `kprintf(fmt, ..)` with the arguments `va`: the text that `puts` gets.  Before the call `buf`
has the contents `buf`. -/
def kprintf (m buf : Mem) (fmt : Nat) (va : Nat → Nat) : Except Stop (List UInt8) := do
  let s ← kprintfLoop m fmt va 0x100000000 PrintState.start
  string (buf.storeAll (s.buf.put 0).writes) 0

/-! ## What a format means

The abstract side: a format is a row of parts, an argument is a string or a number, and the
expansion puts what they stand for side by side.  That a format may end in the middle of a directive
has to be said here as well, since such a format has parts but the loop does not come to its end. -/

/-- An argument: a string or a number. -/
inductive PrintArg where
  | string (s : List UInt8)
  | number (v : Nat)

/-- A part of a format: text, or a directive that takes an argument. -/
inductive Piece where
  | text (s : List UInt8)
  | string
  | char
  | hex
  | decimal
  deriving DecidableEq, Repr

/-- The control characters and the backslash, by the letters that stand for them. -/
def escapes : List (UInt8 × UInt8) :=
  [(0x61, 0x07), (0x62, 0x08), (0x74, 0x09), (0x6E, 0x0A), (0x72, 0x0D), (0x5C, 0x5C)]

/-- The character for a backslash and `ch`, if there is one. -/
def escaped (ch : UInt8) : List UInt8 := (escapes.lookup ch).toList

/-- The directive of a percent sign and `ch`. -/
def directive (ch : UInt8) : Piece :=
  if ch = 0x73 then .string
  else if ch = 0x63 then .char
  else if ch = 0x78 then .hex
  else if ch = 0x64 then .decimal
  else .text [ch]

/-- Is `ch` a percent sign or a backslash? -/
def StartsDirective (ch : UInt8) : Prop := ch = 0x25 ∨ ch = 0x5C

instance (ch : UInt8) : Decidable (StartsDirective ch) := inferInstanceAs (Decidable (_ ∨ _))

/-- The parts of a format. -/
def pieces : List UInt8 → List Piece
  | [] => []
  | [c] => if StartsDirective c then [] else [.text [c]]
  | c :: c' :: f =>
    if c = 0x5C then .text (escaped c') :: pieces f
    else if c = 0x25 then directive c' :: pieces f
    else .text [c] :: pieces (c' :: f)

/-- The format ends behind a percent sign or a backslash that starts a directive. -/
def Dangling : List UInt8 → Prop
  | [] => False
  | [c] => StartsDirective c
  | c :: c' :: f => if StartsDirective c then Dangling f else Dangling (c' :: f)

/-- The digits of a number in base `b`. -/
def digitsIn (b v : Nat) : List UInt8 := (Nat.toDigits b v).map fun c => UInt8.ofNat c.toNat

/-- The eight hexadecimal digits of a number. -/
def hexDigits (v : Nat) : List UInt8 :=
  ((Nat.toDigits 16 v).leftpad 8 '0').map fun c => UInt8.ofNat c.toNat

/-- What a part of a format stands for, and the arguments that are left. -/
def Piece.render : Piece → List PrintArg → Option (List UInt8 × List PrintArg)
  | .text s, args => some (s, args)
  | .string, .string s :: args => some (s, args)
  | .char, .number v :: args => some ([UInt8.ofNat v], args)
  | .hex, .number v :: args => some (hexDigits v, args)
  | .decimal, .number v :: args => some (digitsIn 10 v, args)
  | _, _ => none

/-- What the parts of a format stand for, one after the other.  It is `none` if the arguments do not
match. -/
def expand : List Piece → List PrintArg → Option (List UInt8)
  | [], _ => some []
  | p :: ps, args => do
    let (s, args) ← p.render args
    let out ← expand ps args
    some (s ++ out)

/-- The words `va`, from number `arg` on, are the arguments: a string by its address, a number by
its value. -/
def Passed (m : Mem) (va : Nat → Nat) : Nat → List PrintArg → Prop
  | _, [] => True
  | arg, .string s :: args =>
    m.HoldsStr (va arg) s ∧ va arg + s.length < 0x100000000 ∧ Passed m va (arg + 1) args
  | arg, .number v :: args => va arg = v ∧ v < 0x100000000 ∧ Passed m va (arg + 1) args

/-! ## Writing

The helpers that put digits and strings into the buffer only ever append to it.  Each of them is
therefore said to be `putAll` of some list of characters, and the lists are those of the abstract
side. -/

namespace PrintBuf

/-- Write the characters one after the other. -/
def putAll (b : PrintBuf) (s : List UInt8) : PrintBuf := s.foldl put b

variable {b : PrintBuf} {s t : List UInt8}

@[simp] theorem putAll_nil : b.putAll [] = b := rfl

@[simp] theorem putAll_cons (c : UInt8) : b.putAll (c :: s) = (b.put c).putAll s := rfl

theorem putAll_append : b.putAll (s ++ t) = (b.putAll s).putAll t := List.foldl_append

theorem ptr_putAll : (b.putAll s).ptr = b.ptr + s.length := by
  induction s generalizing b with
  | nil => rfl
  | cons c s ih =>
    rw [putAll_cons, ih, List.length_cons, Nat.add_comm s.length, ← Nat.add_assoc]
    rfl

/-- The characters go to the places behind the last one. -/
theorem writes_putAll : (b.putAll s).writes = b.writes ++ (s.zipIdx b.ptr).map Prod.swap := by
  induction s generalizing b with
  | nil => simp
  | cons c s ih =>
    rw [putAll_cons, ih, put, List.zipIdx_cons]
    simp

end PrintBuf

section
variable {m : Mem} {b : PrintBuf} {s : List UInt8} {v : Nat}

/-- The digit of `parse_hex`. -/
theorem hexDigit_eq (v i : Nat) :
    (ascii "0123456789abcdef").getD ((v >>> (i * 4)) &&& 0xF) 0 =
      UInt8.ofNat (v / 16 ^ i % 16).digitChar.toNat := by
  have hmask : (v >>> (i * 4)) &&& 0xF = v / 16 ^ i % 16 := by
    rw [show 0xF = 2 ^ 4 - 1 from rfl, Nat.and_two_pow_sub_one_eq_mod, Nat.shiftRight_eq_div_pow,
      Nat.mul_comm, Nat.pow_mul]
  have hdigit : ∀ d < 16, (ascii "0123456789abcdef").getD d 0 = UInt8.ofNat d.digitChar.toNat := by
    decide
  rw [hmask, hdigit _ (Nat.mod_lt _ (by decide))]

theorem parseHex_eq (v i : Nat) : parseHex v i b = b.putAll
    ((List.range i).map fun j => UInt8.ofNat (v / 16 ^ j % 16).digitChar.toNat).reverse := by
  induction i generalizing b with
  | zero => rfl
  | succ i ih =>
    rw [parseHex, ih, hexDigit_eq, List.range_succ, List.map_append, List.reverse_append]
    rfl

/-- **`parse_hex` writes the eight digits**, the highest first, with zeros in front if the number is
small. -/
theorem parseHex_eight (hv : v < 0x100000000) : parseHex v 8 b = b.putAll (hexDigits v) := by
  rw [parseHex_eq, hexDigits, leftpad_toDigits (by decide) (by decide) hv, List.map_reverse,
    List.map_map]
  rfl

/-- **`parse_num` writes the digits**: the recursion is on the number without its last digit, which
is written behind the others. -/
theorem parseNum_eq {fuel : Nat} (hfuel : 0 < fuel) (hv : v < 10 ^ fuel) :
    parseNum 10 fuel v b = .ok (b.putAll (digitsIn 10 v)) := by
  have hdigit : ∀ d < 10, UInt8.ofNat d.digitChar.toNat = UInt8.ofNat (d + 0x30) := by
    decide
  induction fuel generalizing v with
  | zero => exact absurd hfuel (Nat.lt_irrefl 0)
  | succ fuel ih =>
    rw [parseNum, digitsIn, Nat.toDigits_eq_if (by decide)]
    by_cases hlt : v < 10
    · rw [if_neg (Nat.not_le.mpr hlt), if_pos hlt, ok_bind, Nat.mod_eq_of_lt hlt, ← hdigit v hlt]
      rfl
    · have hdiv : v / 10 < 10 ^ fuel := Nat.div_lt_of_lt_mul (by rwa [← Nat.pow_succ'])
      have hpos : 0 < fuel := by
        refine Nat.pos_of_ne_zero fun hzero => hlt ?_
        rwa [hzero, Nat.zero_add, pow_one] at hv
      rw [if_pos (Nat.le_of_not_lt hlt), if_neg hlt, ih hpos hdiv, ok_bind, List.map_append,
        PrintBuf.putAll_append, ← hdigit _ (Nat.mod_lt v (by decide))]
      rfl

/-- **A string argument is copied**, up to its terminator.  The string is in the address space, so
that the loop comes to an end. -/
theorem putLoop_eq {a fuel : Nat} (hs : m.HoldsStr a s) (hfits : a + s.length < 0x100000000)
    (hfuel : s.length < fuel) : putLoop m fuel a b = .ok (b.putAll s) := by
  induction s generalizing a fuel b with
  | nil =>
    obtain _ | fuel := fuel
    · exact absurd hfuel (Nat.not_lt_zero _)
    have hzero : m a = 0 := hs.terminator
    rw [putLoop, if_neg (not_not.mpr hzero)]
    rfl
  | cons c s ih =>
    rw [List.length_cons] at hfits hfuel
    obtain _ | fuel := fuel
    · exact absurd hfuel (Nat.not_lt_zero _)
    have hne : m a ≠ 0 := hs.byte_ne (i := 0) (by rw [List.length_cons]; omega)
    rw [putLoop, if_pos hne, u32_eq (by omega), hs.head, PrintBuf.putAll_cons]
    exact ih hs.tail (by omega) (by omega)

theorem putEscape_eq (ch : UInt8) : putEscape ch b = b.putAll (escaped ch) := by
  rw [putEscape]
  split_ifs with ha hb ht hn hr hbackslash
  · rw [ha]
    rfl
  · rw [hb]
    rfl
  · rw [ht]
    rfl
  · rw [hn]
    rfl
  · rw [hr]
    rfl
  · rw [hbackslash]
    rfl
  · have hnone : escapes.lookup ch = none := by
      rw [List.lookup_eq_none_iff]
      simp [escapes, ha, hb, ht, hn, hr, hbackslash]
    rw [escaped, hnone]
    rfl

end

/-! ## One round

The loop takes one part off the format in each round.  `Prints` says what is left of the format and
of the arguments, and that the buffer has the rest of the expansion in front; a round keeps it, and
the induction on the length of what is left gives the loop. -/

section
variable {c : UInt8} {f : List UInt8}

theorem pieces_text (hc : ¬ StartsDirective c) : pieces (c :: f) = .text [c] :: pieces f := by
  obtain ⟨hpercent, hbackslash⟩ := not_or.mp hc
  cases f with
  | nil => simp only [pieces, if_neg hc]
  | cons c' f => rw [pieces, if_neg hbackslash, if_neg hpercent]

theorem dangling_text (hc : ¬ StartsDirective c) : Dangling (c :: f) ↔ Dangling f := by
  cases f with
  | nil => exact iff_of_false hc id
  | cons c' f => rw [Dangling, if_neg hc]

/-- The last character does not start a directive. -/
theorem not_starts_of_last (h : ¬ Dangling f) : ∀ c, f = [c] → ¬ StartsDirective c := by
  rintro c rfl hc
  exact h hc

theorem dangling_directive (hc : StartsDirective c) (c' : UInt8) :
    Dangling (c :: c' :: f) ↔ Dangling f := by
  rw [Dangling, if_pos hc]

instance decDangling : (f : List UInt8) → Decidable (Dangling f)
  | [] => .isFalse id
  | [c] => inferInstanceAs (Decidable (StartsDirective c))
  | c :: c' :: f =>
    if hc : StartsDirective c then
      @decidable_of_iff _ (Dangling f) (dangling_directive hc c').symm (decDangling f)
    else @decidable_of_iff _ (Dangling (c' :: f)) (dangling_text hc).symm (decDangling (c' :: f))

theorem pieces_backslash (c : UInt8) : pieces (0x5C :: c :: f) = .text (escaped c) :: pieces f := by
  rw [pieces, if_pos rfl]

theorem pieces_percent (c : UInt8) : pieces (0x25 :: c :: f) = directive c :: pieces f := by
  rw [pieces, if_neg (by decide), if_pos rfl]

theorem expand_cons {p : Piece} {ps : List Piece} {args : List PrintArg} {out : List UInt8} :
    expand (p :: ps) args = some out ↔ ∃ s args' out', p.render args = some (s, args') ∧
      expand ps args' = some out' ∧ s ++ out' = out := by
  simp [expand, Option.bind_eq_some_iff]

end

section
variable {m : Mem} {va : Nat → Nat} {arg : Nat} {args args' : List PrintArg} {b : PrintBuf}
  {t : List UInt8}

/-- **A directive writes what it stands for**, and takes the arguments that its meaning takes. -/
theorem putDirective_eq {ch : UInt8} (hpassed : Passed m va arg args)
    (hrender : (directive ch).render args = some (t, args')) :
    ∃ arg', putDirective m va ch arg b = .ok (arg', b.putAll t) ∧ Passed m va arg' args' := by
  rw [putDirective]
  rw [directive] at hrender
  split_ifs at hrender ⊢ with hs hc hx hd hpercent
  · rcases args with _ | ⟨s | v, args⟩
    · cases hrender
    · cases hrender
      obtain ⟨hholds, hfits, hrest⟩ := hpassed
      exact ⟨arg + 1, by rw [putLoop_eq hholds hfits (by omega), ok_bind], hrest⟩
    · cases hrender
  · rcases args with _ | ⟨s | v, args⟩
    · cases hrender
    · cases hrender
    · cases hrender
      obtain ⟨rfl, -, hrest⟩ := hpassed
      exact ⟨arg + 1, rfl, hrest⟩
  · rcases args with _ | ⟨s | v, args⟩
    · cases hrender
    · cases hrender
    · cases hrender
      obtain ⟨rfl, hlt, hrest⟩ := hpassed
      exact ⟨arg + 1, by rw [parseHex_eight hlt], hrest⟩
  · rcases args with _ | ⟨s | v, args⟩
    · cases hrender
    · cases hrender
    · cases hrender
      obtain ⟨rfl, hlt, hrest⟩ := hpassed
      exact ⟨arg + 1, by rw [parseNum_eq (by decide) (hlt.trans (by decide)), ok_bind], hrest⟩
  · cases hrender
    exact ⟨arg, by rw [hpercent]; rfl, hpassed⟩
  · cases hrender
    exact ⟨arg, rfl, hpassed⟩

end

/-- The loop is printing `out` for a format of `n` characters, and in the state `s` the rest `f` of
the format is left. -/
structure Prints (m : Mem) (fmt : Nat) (va : Nat → Nat) (n : Nat) (out : List UInt8)
    (s : PrintState) (f : List UInt8) : Prop where
  format : m.HoldsStr (fmt + s.i) f
  fits : fmt + n < 0x100000000
  position : s.i + f.length = n
  expands : ∃ args before rest, Passed m va s.arg args ∧ expand (pieces f) args = some rest ∧
    before ++ rest = out ∧ s.buf = PrintState.start.buf.putAll before

namespace Prints

variable {m : Mem} {fmt n : Nat} {va : Nat → Nat} {out f : List UInt8} {s : PrintState}

theorem char_eq {c : UInt8} (h : Prints m fmt va n out s (c :: f)) : m (u32 (fmt + s.i)) = c := by
  have hposition := h.position
  have hfits := h.fits
  rw [List.length_cons] at hposition
  rw [u32_eq (by omega), h.format.head]

theorem char_ne_zero (h : Prints m fmt va n out s f) (hne : f ≠ []) :
    m (u32 (fmt + s.i)) ≠ 0 := by
  obtain ⟨c, f, rfl⟩ := List.exists_cons_of_ne_nil hne
  rw [h.char_eq]
  exact fun hzero => h.format.nonzero (hzero ▸ List.mem_cons_self)

theorem next_eq {c c' : UInt8} (h : Prints m fmt va n out s (c :: c' :: f)) :
    m (u32 (fmt + (s.i + 1))) = c' := by
  have hposition := h.position
  have hfits := h.fits
  rw [List.length_cons, List.length_cons] at hposition
  rw [u32_eq (by omega), ← Nat.add_assoc, h.format.tail.head]

theorem end_eq (h : Prints m fmt va n out s []) : m (u32 (fmt + s.i)) = 0 := by
  have hposition := h.position
  have hfits := h.fits
  rw [List.length_nil] at hposition
  rw [u32_eq (by omega)]
  exact h.format.terminator

/-- A round that has written what the first part of the format stands for. -/
theorem next {s' : PrintState} {f' t : List UInt8} {args' : List PrintArg}
    {before rest : List UInt8} (h : Prints m fmt va n out s f)
    (hformat : m.HoldsStr (fmt + s'.i) f') (hposition : s'.i + f'.length = s.i + f.length)
    (hpassed : Passed m va s'.arg args') (hexpand : expand (pieces f') args' = some rest)
    (hout : before ++ (t ++ rest) = out) (hbefore : s.buf = PrintState.start.buf.putAll before)
    (hbuf : s'.buf = s.buf.putAll t) : Prints m fmt va n out s' f' where
  format := hformat
  fits := h.fits
  position := hposition.trans h.position
  expands := ⟨args', before ++ t, rest, hpassed, hexpand, by rw [List.append_assoc, hout], by
    rw [hbuf, hbefore, PrintBuf.putAll_append]⟩

/-- **One round** takes the first part off the format and writes what it stands for. -/
theorem round (h : Prints m fmt va n out s f) (hne : f ≠ [])
    (hlast : ∀ c, f = [c] → ¬ StartsDirective c) :
    ∃ s' f', kprintfRound m fmt va s = .ok s' ∧ Prints m fmt va n out s' f' ∧
      f'.length < f.length ∧ (Dangling f' ↔ Dangling f) := by
  obtain ⟨args, before, rest, hpassed, hexpand, hout, hbuf⟩ := h.expands
  obtain ⟨c, f, rfl⟩ := List.exists_cons_of_ne_nil hne
  rw [kprintfRound]
  simp only [h.char_eq]
  by_cases hc : StartsDirective c
  · obtain ⟨c', f, rfl⟩ : ∃ c' f', f = c' :: f' := by
      cases f with
      | nil => exact absurd hc (hlast c rfl)
      | cons c' f => exact ⟨c', f, rfl⟩
    have hlength : f.length < (c :: c' :: f).length := by
      rw [List.length_cons, List.length_cons]
      omega
    have hposition : s.i + 1 + 1 + f.length = s.i + (c :: c' :: f).length := by
      rw [List.length_cons, List.length_cons]
      omega
    have hformat : m.HoldsStr (fmt + (s.i + 1 + 1)) f := h.format.tail.tail
    rw [if_neg fun hboth => hc.elim hboth.1 hboth.2, h.next_eq]
    rcases hc with rfl | rfl
    · rw [pieces_percent, expand_cons] at hexpand
      obtain ⟨t, args', rest', hrender, hrest, rfl⟩ := hexpand
      obtain ⟨arg', hput, hpassed'⟩ := putDirective_eq hpassed hrender
      rw [if_neg (by decide), hput, ok_bind]
      exact ⟨_, f, rfl, h.next hformat hposition hpassed' hrest hout hbuf rfl, hlength,
        (dangling_directive (Or.inl rfl) c').symm⟩
    · rw [pieces_backslash, expand_cons] at hexpand
      obtain ⟨t, args', rest', hrender, hrest, rfl⟩ := hexpand
      cases hrender
      rw [if_pos rfl]
      exact ⟨_, f, rfl, h.next hformat hposition hpassed hrest hout hbuf (putEscape_eq c'), hlength,
        (dangling_directive (Or.inr rfl) c').symm⟩
  · rw [pieces_text hc, expand_cons] at hexpand
    obtain ⟨t, args', rest', hrender, hrest, rfl⟩ := hexpand
    cases hrender
    rw [if_pos (not_or.mp hc)]
    refine ⟨_, f, rfl, h.next h.format.tail ?_ hpassed hrest hout hbuf rfl,
      Nat.lt_succ_self _, (dangling_text hc).symm⟩
    rw [List.length_cons, Nat.add_assoc, Nat.add_comm 1]

/-- The state in which the loop ends. -/
theorem buf_eq (h : Prints m fmt va n out s []) :
    s.buf = PrintState.start.buf.putAll out := by
  obtain ⟨args, before, rest, -, hexpand, rfl, hbuf⟩ := h.expands
  cases hexpand
  rw [hbuf, List.append_nil]

/-- **The loop** prints all of it, unless the format ends in the middle of a directive. -/
theorem loop (h : Prints m fmt va n out s f) (hdangling : ¬ Dangling f) (fuel : Nat)
    (hfuel : f.length < fuel) :
    ∃ s', kprintfLoop m fmt va fuel s = .ok s' ∧ Prints m fmt va n out s' [] := by
  induction fuel generalizing s f with
  | zero => exact absurd hfuel (Nat.not_lt_zero _)
  | succ fuel ih =>
    rw [kprintfLoop]
    by_cases hnil : f = []
    · subst hnil
      rw [if_neg (not_not.mpr h.end_eq)]
      exact ⟨s, rfl, h⟩
    · obtain ⟨s', f', hround, hprints, hlength, hiff⟩ := h.round hnil (not_starts_of_last hdangling)
      rw [if_pos (h.char_ne_zero hnil), hround, ok_bind]
      exact ih hprints (mt hiff.mp hdangling) (by omega)

end Prints

/-- A call of `kprintf` with the format `f`, the arguments `args` and the expansion `out`.  That the
expansion exists says that the arguments are of the kinds which the directives ask for. -/
structure PrintCall (m : Mem) (fmt : Nat) (va : Nat → Nat) (f : List UInt8) (args : List PrintArg)
    (out : List UInt8) : Prop where
  format : m.HoldsStr fmt f
  fits : fmt + f.length < 0x100000000
  passed : Passed m va 0 args
  expands : expand (pieces f) args = some out

section
variable {m buf : Mem} {fmt : Nat} {va : Nat → Nat} {f out : List UInt8} {args : List PrintArg}

theorem PrintCall.prints (h : PrintCall m fmt va f args out) :
    Prints m fmt va f.length out PrintState.start f where
  format := h.format
  fits := h.fits
  position := Nat.zero_add _
  expands := ⟨args, [], out, h.passed, h.expands, rfl, rfl⟩

/-- **`kprintf` prints what its format stands for**, if that has room in the buffer, with the NUL
behind it. -/
theorem kprintf_eq (m buf : Mem) (fmt : Nat) (va : Nat → Nat) (f : List UInt8)
    (args : List PrintArg) (out : List UInt8) (hcall : PrintCall m fmt va f args out)
    (hdangling : ¬ Dangling f) (hout : out.length ≤ 1023) (hnul : 0 ∉ out) :
    kprintf m buf fmt va = .ok out := by
  have hfits := hcall.fits
  obtain ⟨s, hloop, hend⟩ := hcall.prints.loop hdangling 0x100000000 (by omega)
  have hwrites : (s.buf.put 0).writes = ((out ++ [0]).zipIdx 0).map Prod.swap := by
    rw [hend.buf_eq, ← PrintBuf.putAll_nil (b := PrintBuf.put _ _), ← PrintBuf.putAll_cons,
      ← PrintBuf.putAll_append, PrintBuf.writes_putAll]
    rfl
  rw [kprintf, hloop, ok_bind, hwrites]
  exact string_eq (Mem.holdsStr_storeAll buf 0 hnul) (by omega)

end

/-- A memory with a format in which the backslash is a character. -/
def formatMem : Mem := fun a => (ascii "0x%x: %d%% %c\\n").getD (a - 0x1000) 0

theorem formatCall : PrintCall formatMem 0x1000 (fun k => [255, 100, 0x6F].getD k 0)
    (ascii "0x%x: %d%% %c\\n") [.number 255, .number 100, .number 0x6F]
    (ascii "0x000000ff: 100% o\n") where
  format := ⟨by decide, by decide, by decide⟩
  fits := by decide
  passed := ⟨rfl, by decide, rfl, by decide, rfl, by decide, trivial⟩
  expands := by decide

theorem kprintf_eq_format :
    kprintf formatMem (fun _ => 0xFF) 0x1000 (fun k => [255, 100, 0x6F].getD k 0) =
      .ok (ascii "0x000000ff: 100% o\n") :=
  kprintf_eq formatMem (fun _ => 0xFF) 0x1000 _ _ _ _ formatCall (by decide) (by decide) (by decide)

/-! ## Where it reads and writes

For the question where the function reads and writes, the states of the loop are an inductive set,
and each has its reads and its writes.  Every state that is reached is one of those that the loop
was shown to go through, so that the greatest index written is that of the terminator; and a format
which ends in the middle of a directive is read behind its end. -/

/-- The states of the loop over the format. -/
inductive PrintReach (m : Mem) (fmt : Nat) (va : Nat → Nat) : PrintState → Prop
  | start : PrintReach m fmt va .start
  | round {s s' : PrintState} : PrintReach m fmt va s → m (u32 (fmt + s.i)) ≠ 0 →
      kprintfRound m fmt va s = .ok s' → PrintReach m fmt va s'

/-- The indices of the format that the loop reads in a state. -/
def fmtReads (m : Mem) (fmt : Nat) (s : PrintState) : List Nat :=
  if StartsDirective (m (u32 (fmt + s.i))) then [s.i, s.i + 1] else [s.i]

/-- What has been written to the buffer in a state, with the NUL when the loop ends there. -/
def bufWrites (m : Mem) (fmt : Nat) (s : PrintState) : List (Nat × UInt8) :=
  if m (u32 (fmt + s.i)) = 0 then (s.buf.put 0).writes else s.buf.writes

/-- `kprintf` reads nothing behind the NUL of its format, of length `n`, and writes to nothing but
the 1024 bytes of `buf`. -/
structure PrintsInside (m : Mem) (fmt : Nat) (va : Nat → Nat) (n : Nat) : Prop where
  reads : ∀ s, PrintReach m fmt va s → ∀ i ∈ fmtReads m fmt s, i ≤ n
  writes : ∀ s, PrintReach m fmt va s → ∀ w ∈ bufWrites m fmt s, w.1 < 1024

namespace Prints

variable {m : Mem} {fmt n : Nat} {va : Nat → Nat} {out f : List UInt8} {s : PrintState}

/-- The writes of a state go to the places of the expansion, and the NUL behind it. -/
theorem bufWrites_lt (h : Prints m fmt va n out s f) :
    ∀ w ∈ bufWrites m fmt s, w.1 < out.length + 1 := by
  obtain ⟨args, before, rest, -, hexpand, rfl, hbuf⟩ := h.expands
  intro w hw
  rw [bufWrites, hbuf] at hw
  rw [List.length_append]
  have hput : (PrintState.start.buf.putAll before).put 0 =
      PrintState.start.buf.putAll (before ++ [0]) := by
    rw [PrintBuf.putAll_append]
    rfl
  have hlt : w ∈ (PrintState.start.buf.putAll (before ++ [0])).writes := by
    split_ifs at hw
    · rwa [← hput]
    · rw [PrintBuf.putAll_append]
      exact List.mem_append_left _ hw
  rw [PrintBuf.writes_putAll] at hlt
  obtain ⟨p, hp, rfl⟩ := List.mem_map.mp hlt
  have hsnd := List.snd_lt_add_of_mem_zipIdx hp
  rw [List.length_append, List.length_singleton] at hsnd
  have hzero : PrintState.start.buf.ptr = 0 := rfl
  rw [Prod.fst_swap]
  omega

/-- A state that is reached: something of the format is left, and it does not end in the middle of a
directive. -/
theorem of_reach {f₀ : List UInt8} (hstart : Prints m fmt va n out .start f₀)
    (hdangling : ¬ Dangling f₀) (hreach : PrintReach m fmt va s) :
    ∃ f, Prints m fmt va n out s f ∧ ¬ Dangling f := by
  induction hreach with
  | start => exact ⟨f₀, hstart, hdangling⟩
  | round _ hne hround ih =>
    obtain ⟨f, hprints, hnot⟩ := ih
    have hnil : f ≠ [] := by
      rintro rfl
      exact hne hprints.end_eq
    obtain ⟨s', f', hround', hprints', -, hiff⟩ := hprints.round hnil (not_starts_of_last hnot)
    cases hround.symm.trans hround'
    exact ⟨f', hprints', mt hiff.mp hnot⟩

/-- The end of the format is reached. -/
theorem reach_end (h : Prints m fmt va n out s f) (hdangling : ¬ Dangling f)
    (hreach : PrintReach m fmt va s) :
    ∃ s', PrintReach m fmt va s' ∧ Prints m fmt va n out s' [] := by
  induction hk : f.length using Nat.strong_induction_on generalizing s f with
  | _ k ih =>
    by_cases hnil : f = []
    · subst hnil
      exact ⟨s, hreach, h⟩
    · obtain ⟨s', f', hround, hprints, hlength, hiff⟩ := h.round hnil (not_starts_of_last hdangling)
      exact ih f'.length (hk ▸ hlength) hprints (mt hiff.mp hdangling)
        (.round hreach (h.char_ne_zero hnil) hround) rfl

/-- A format that ends in the middle of a directive is read beyond its NUL. -/
theorem reach_beyond (h : Prints m fmt va n out s f) (hdangling : Dangling f)
    (hreach : PrintReach m fmt va s) :
    ∃ s', PrintReach m fmt va s' ∧ s'.i = n + 1 := by
  induction hk : f.length using Nat.strong_induction_on generalizing s f with
  | _ k ih =>
    have hnil : f ≠ [] := by
      rintro rfl
      exact hdangling
    by_cases hlast : ∃ c, f = [c] ∧ StartsDirective c
    · obtain ⟨c, rfl, hc⟩ := hlast
      have hposition := h.position
      have hfits := h.fits
      have hend : m (u32 (fmt + (s.i + 1))) = 0 := by
        rw [List.length_singleton] at hposition
        rw [u32_eq (by omega), ← Nat.add_assoc]
        exact h.format.tail.terminator
      -- the NUL is taken for the character of the directive, and the loop goes on behind it
      have hround : ∃ arg b, kprintfRound m fmt va s = .ok ⟨s.i + 1 + 1, arg, b⟩ := by
        rw [kprintfRound]
        simp only [h.char_eq, hend]
        rcases hc with rfl | rfl
        · exact ⟨_, _, rfl⟩
        · exact ⟨_, _, rfl⟩
      obtain ⟨arg, b, hround⟩ := hround
      exact ⟨_, .round hreach (h.char_ne_zero hnil) hround, congrArg (· + 1) hposition⟩
    · obtain ⟨s', f', hround, hprints, hlength, hiff⟩ := h.round hnil
        fun c hc hstarts => hlast ⟨c, hc, hstarts⟩
      exact ih f'.length (hk ▸ hlength) hprints (hiff.mpr hdangling)
        (.round hreach (h.char_ne_zero hnil) hround) rfl

end Prints

/-- **A call stays inside its format and its buffer** when it comes to the end of the format and the
text has room. -/
theorem PrintCall.inside_iff {m : Mem} {fmt : Nat} {va : Nat → Nat} {f out : List UInt8}
    {args : List PrintArg} (hcall : PrintCall m fmt va f args out) :
    PrintsInside m fmt va f.length ↔ ¬ Dangling f ∧ out.length ≤ 1023 := by
  constructor
  · intro hinside
    have hdangling : ¬ Dangling f := by
      intro hdangling
      obtain ⟨s, hreach, hs⟩ := hcall.prints.reach_beyond hdangling .start
      have hmem : s.i ∈ fmtReads m fmt s := by
        rw [fmtReads]
        split_ifs
        · exact List.mem_cons_self
        · exact List.mem_cons_self
      have hle := hinside.reads s hreach s.i hmem
      omega
    refine ⟨hdangling, ?_⟩
    obtain ⟨s, hreach, hend⟩ := hcall.prints.reach_end hdangling .start
    have hmem : (out.length, 0) ∈ bufWrites m fmt s := by
      have hptr : s.buf.ptr = out.length := by
        rw [hend.buf_eq, PrintBuf.ptr_putAll]
        exact Nat.zero_add _
      rw [bufWrites, if_pos hend.end_eq, ← hptr]
      exact List.mem_append_right _ (List.mem_singleton_self _)
    exact Nat.le_of_lt_succ (hinside.writes s hreach _ hmem)
  · rintro ⟨hdangling, hout⟩
    refine ⟨fun s hreach i hi => ?_, fun s hreach w hw => ?_⟩
    · obtain ⟨f', hprints, hnot⟩ := hcall.prints.of_reach hdangling hreach
      have hposition := hprints.position
      rw [fmtReads] at hi
      split_ifs at hi with hc
      · -- there is a character behind the one that starts a directive
        have hlength : f' ≠ [] := by
          rintro rfl
          rw [hprints.end_eq] at hc
          exact absurd hc (by decide)
        have hpos := List.length_pos_iff.mpr hlength
        simp only [List.mem_cons, List.not_mem_nil, or_false] at hi
        omega
      · rw [List.mem_singleton.mp hi]
        omega
    · obtain ⟨f', hprints, -⟩ := hcall.prints.of_reach hdangling hreach
      have hlt := hprints.bufWrites_lt w hw
      omega

/-! ## The messages of the shell

The formats of the shell with a string in them have one directive and text around it.  They do not
end in the middle of a directive, and their expansion is the text with the string put in, so that
what is left of the condition is a bound on the length of the string. -/

section
variable {f t s : List UInt8} {ps : List Piece} {args : List PrintArg}

/-- Text in front of a format. -/
theorem pieces_append (ht : ∀ c ∈ t, ¬ StartsDirective c) :
    pieces (t ++ f) = t.map (fun c => .text [c]) ++ pieces f := by
  induction t with
  | nil => rfl
  | cons c t ih =>
    obtain ⟨hc, ht⟩ := List.forall_mem_cons.mp ht
    rw [List.cons_append, pieces_text hc, ih ht]
    rfl

theorem dangling_append (ht : ∀ c ∈ t, ¬ StartsDirective c) :
    Dangling (t ++ f) ↔ Dangling f := by
  induction t with
  | nil => rfl
  | cons c t ih =>
    obtain ⟨hc, ht⟩ := List.forall_mem_cons.mp ht
    rw [List.cons_append, dangling_text hc, ih ht]

theorem expand_append (t : List UInt8) {out : List UInt8} (h : expand ps args = some out) :
    expand (t.map (fun c => .text [c]) ++ ps) args = some (t ++ out) := by
  induction t with
  | nil => exact h
  | cons c t ih =>
    rw [List.map_cons, List.cons_append, expand_cons]
    exact ⟨[c], args, t ++ out, rfl, ih, rfl⟩

/-- A format with one `%s` in it. -/
def stringFormat (before after : List UInt8) : List UInt8 := before ++ 0x25 :: 0x73 :: after

variable {before after : List UInt8}

theorem expand_stringFormat (hbefore : ∀ c ∈ before, ¬ StartsDirective c)
    (hafter : ∀ c ∈ after, ¬ StartsDirective c) :
    expand (pieces (stringFormat before after)) [.string s] = some (before ++ (s ++ after)) := by
  have hend : expand (pieces after) [] = some after := by
    have hplain := pieces_append (f := []) hafter
    have hexpand : expand (after.map (fun c => .text [c]) ++ pieces []) [] = some (after ++ []) :=
      expand_append after rfl
    rwa [← hplain, List.append_nil] at hexpand
  rw [stringFormat, pieces_append hbefore, pieces_percent]
  exact expand_append before (expand_cons.mpr ⟨s, [], after, rfl, hend, rfl⟩)

theorem not_dangling_stringFormat (hbefore : ∀ c ∈ before, ¬ StartsDirective c)
    (hafter : ∀ c ∈ after, ¬ StartsDirective c) : ¬ Dangling (stringFormat before after) := by
  have hplain := dangling_append (f := []) hafter
  rw [List.append_nil] at hplain
  rw [stringFormat, dangling_append hbefore, dangling_directive (Or.inl rfl), hplain]
  exact id

end

/-- The texts around the string in the messages that the shell prints with one. -/
def shellMessages : List (List UInt8 × List UInt8) :=
  [(ascii "MyaXOS ", ascii "> "), (ascii "cd: ", ascii " is not a directory\n"),
    (ascii "cat: could not open file `", ascii "`\n"), ([], ascii " "), ([], ascii "\n"),
    (ascii "Unrecognized command: ", ascii "\n")]

theorem shellMessages_plain : ∀ message ∈ shellMessages,
    (∀ c ∈ message.1, ¬ StartsDirective c) ∧ ∀ c ∈ message.2, ¬ StartsDirective c := by
  decide +kernel

/-- **`kprintf` stays inside its format and its buffer exactly when** the format does not end in the
middle of a directive and the text has at most 1023 characters; so for a message of the shell
exactly when there is room for the string in it. -/
theorem print_inside_iff (m : Mem) (fmt : Nat) (va : Nat → Nat) (f : List UInt8)
    (args : List PrintArg) (out : List UInt8) (hcall : PrintCall m fmt va f args out) :
    (PrintsInside m fmt va f.length ↔ ¬ Dangling f ∧ out.length ≤ 1023) ∧
    ∀ before after s, (before, after) ∈ shellMessages → f = stringFormat before after →
      args = [.string s] → (PrintsInside m fmt va f.length ↔
        before.length + s.length + after.length ≤ 1023) := by
  refine ⟨hcall.inside_iff, fun before after s hmem hf hargs => ?_⟩
  obtain ⟨hbefore, hafter⟩ := shellMessages_plain _ hmem
  have hexpand := hcall.expands
  rw [hf, hargs, expand_stringFormat hbefore hafter] at hexpand
  rw [hcall.inside_iff, hf, ← Option.some.inj hexpand, List.length_append, List.length_append,
    ← Nat.add_assoc]
  exact and_iff_right (not_dangling_stringFormat hbefore hafter)

/-- A memory with the message for a command that the shell does not know, and with a line. -/
def messageMem (line : List UInt8) : Mem := fun a =>
  if 0x2000 ≤ a then line.getD (a - 0x2000) 0
  else (stringFormat (ascii "Unrecognized command: ") (ascii "\n")).getD (a - 0x1000) 0

theorem messageCall (line : ShellLine) :
    PrintCall (messageMem line.text) 0x1000 (fun _ => 0x2000)
      (stringFormat (ascii "Unrecognized command: ") (ascii "\n")) [.string line.text]
      (ascii "Unrecognized command: " ++ (line.text ++ ascii "\n")) where
  format := by
    have hlength : (stringFormat (ascii "Unrecognized command: ") (ascii "\n")).length = 25 := by
      decide
    refine ⟨fun i hi => ?_, ?_, by decide⟩
    · rw [messageMem, if_neg (by omega), Nat.add_sub_cancel_left, List.getD_eq_getElem?_getD,
        List.getElem?_eq_getElem hi, Option.getD_some]
    · rw [messageMem, if_neg (by omega), Nat.add_sub_cancel_left, List.getD_eq_getElem?_getD,
        List.getElem?_eq_none le_rfl, Option.getD_none]
  fits := by decide
  passed := by
    have hfits := line.fits
    refine ⟨⟨fun i hi => ?_, ?_, line.nonzero⟩, ?_, trivial⟩
    · rw [messageMem, if_pos (Nat.le_add_right ..), Nat.add_sub_cancel_left,
        List.getD_eq_getElem?_getD, List.getElem?_eq_getElem hi, Option.getD_some]
    · rw [messageMem, if_pos (Nat.le_add_right ..), Nat.add_sub_cancel_left,
        List.getD_eq_getElem?_getD, List.getElem?_eq_none le_rfl, Option.getD_none]
    · change 0x2000 + line.text.length < 0x100000000
      omega
  expands :=
    have hplain := shellMessages_plain (ascii "Unrecognized command: ", ascii "\n") (by
      simp [shellMessages])
    expand_stringFormat hplain.1 hplain.2

theorem print_inside_short :
    PrintsInside (messageMem (ascii "dir")) 0x1000 (fun _ => 0x2000) 25 :=
  ((print_inside_iff _ 0x1000 (fun _ => 0x2000)
    (stringFormat (ascii "Unrecognized command: ") (ascii "\n")) _ _
    (messageCall ⟨ascii "dir", by decide, by decide⟩)).2 (ascii "Unrecognized command: ")
      (ascii "\n") (ascii "dir") (by decide) rfl rfl).mpr (by decide)

/-- A row of 1001 characters. -/
def longText : List UInt8 := List.replicate 1001 0x78

theorem longText_fits : longText.length ≤ 1023 :=
  List.length_replicate.trans_le (Nat.le_of_ble_eq_true rfl)

theorem longText_nonzero : 0 ∉ longText := fun h =>
  absurd (List.eq_of_mem_replicate h) (by decide)

/-- The line of these characters. -/
def longLine : ShellLine := ⟨longText, longText_fits, longText_nonzero⟩

theorem length_longLine : longLine.text.length = 1001 := List.length_replicate

/-- The line is one command, and its message has 1024 characters. -/
theorem not_print_inside :
    (tokens [0x20] longLine.text).head? = some longLine.text ∧
    PrintCall (messageMem longLine.text) 0x1000 (fun _ => 0x2000)
      (stringFormat (ascii "Unrecognized command: ") (ascii "\n")) [.string longLine.text]
      (ascii "Unrecognized command: " ++ (longLine.text ++ ascii "\n")) ∧
    ¬ PrintsInside (messageMem longLine.text) 0x1000 (fun _ => 0x2000) 25 := by
  refine ⟨?_, messageCall longLine, fun hinside => ?_⟩
  · have hnotMem : (0x20 : UInt8) ∉ longLine.text := fun h =>
      absurd (List.eq_of_mem_replicate h) (by decide)
    rw [tokens_eq, List.splitOn_eq_singleton hnotMem]
    rfl
  · have hlength := ((messageCall longLine).inside_iff.mp hinside).2
    rw [List.length_append, List.length_append, length_longLine] at hlength
    exact absurd hlength (by decide)

/-- `%` at the end is enough as well, whatever the length. -/
example : Dangling (ascii "100%") := by
  decide

end MyaXOS
