import MyaXOS.Lib.Run
import MyaXOS.Strings

/-!
# The keyboard

A key sends its scan code when it is pressed and again and again while it is held, and the code with
the bit `0x80` when it is released.  `keyboard_handler` looks the code up in `key_method`, where the
modifier keys have handlers that flip a bit.

* `Keyboard` is the state of the driver, and `Keyboard.handler` its answer to a scan code.
* `Typing` is the driver together with the keys that are down.  `Typing.step` is a code that the
  keys can send.
* `Typing.Agrees` says that the bits tell which modifiers are down, and that ordinary keys are
  translated accordingly.  Flipping gets this right as long as no modifier repeats and only one
  shift key is used at a time, `Typing.Single`, and `agrees_always_iff` says: no longer.

**What is compared.**  The driver does not know which keys are down; it has three bits.  The keys
are the other side of the relation, and they are not a part of the kernel.  A stream of codes is one
that keys can send if a key is released only when it is down.  Everything else is allowed: several
keys at once, codes in any order, and a key that is held, which goes on sending its code.

**Flipping.**  A handler that flips a bit is right if each code of its key changes whether the key
is down.  A code that is repeated does not change it, and neither does a code of one of the shift
keys while the other is down.  So in both cases the bit is wrong afterwards, and this is the
converse: the proof follows one code (`Agrees.not_agrees`).  There is no way back that would make
the bit right in the same step.  The step lemma for the other direction goes by the handler of the
key, and `handler_bits` is what each handler does to each bit.

The tables are those of the source, with their zeros at the end left out; an entry that is looked up
beyond them is 0, or no handler.
-/

set_option autoImplicit false

namespace MyaXOS

/-- The handlers in `key_method`. -/
inductive KeyMethod where
  | norm
  | shft
  | altk
  | ctlk
  | func
  deriving DecidableEq, Repr

/-- `kbd_us`, without the zeros at the end. -/
def kbdUs : List UInt8 :=
  List.flatten [[0, 27], ascii "1234567890-=", [8, 9], ascii "qwertyuiop[]", [10, 0],
    ascii "asdfghjkl;'`", [0], ascii "\\zxcvbnm,./", [0], ascii "*", [0], ascii " ",
    List.replicate 16 0, ascii "-", [0, 0, 0], ascii "+"]

/-- `kbd_us_l2`, without the zeros at the end. -/
def kbdUsL2 : List UInt8 :=
  List.flatten [[0, 27], ascii "!@#$%^&*()_+", [8, 9], ascii "QWERTYUIOP\x7b\x7d", [10, 0],
    ascii "ASDFGHJKL:\"~", [0], ascii "|ZXCVBNM<>?", [0], ascii "*", [0], ascii " ",
    List.replicate 16 0, ascii "-", [0, 0, 0], ascii "+"]

/-- `key_method`, without the `NULL`s at the end. -/
def keyMethods : List (Option KeyMethod) :=
  List.flatten [[none, none], List.replicate 27 (some .norm), [some .ctlk],
    List.replicate 12 (some .norm), [some .shft], List.replicate 11 (some .norm),
    [some .shft, some .norm, some .altk, some .norm, none], List.replicate 10 (some .func),
    List.replicate 18 none, [some .func, some .func]]

/-- `kbd_us[scancode]`. -/
def plainChar (scancode : Nat) : UInt8 := kbdUs.getD scancode 0

/-- `kbd_us_l2[scancode]`. -/
def shiftedChar (scancode : Nat) : UInt8 := kbdUsL2.getD scancode 0

/-- `key_method[key]`. -/
def keyMethod (key : Nat) : Option KeyMethod := keyMethods.getD key none

/-- `keyboard_state`, and the characters given to `putch`. -/
structure Keyboard where
  shift : Bool
  alt : Bool
  ctrl : Bool
  sent : List UInt8
  deriving DecidableEq, Repr

namespace Keyboard

/-- `putch(c)`. -/
def putch (c : UInt8) (k : Keyboard) : Keyboard := { k with sent := k.sent ++ [c] }

/-- The character that `norm` sends when the control key is down. -/
def controlChar (c : UInt8) : UInt8 :=
  let out := charValue c - 0x40
  if out < 0 ∨ 0x1F < out then c else UInt8.ofNat out.toNat

/-- `norm(scancode)`. -/
def norm (scancode : UInt8) (k : Keyboard) : Keyboard :=
  if scancode &&& 0x80 ≠ 0 then k
  else if plainChar scancode.toNat = 0 then k
  else if k.shift then k.putch (shiftedChar scancode.toNat)
  else if k.ctrl then k.putch (controlChar (plainChar scancode.toNat))
  else k.putch (plainChar scancode.toNat)

/-- `shft(scancode)`. -/
def shft (k : Keyboard) : Keyboard := { k with shift := !k.shift }

/-- `altk(scancode)`. -/
def altk (k : Keyboard) : Keyboard := { k with alt := !k.alt }

/-- `ctlk(scancode)`. -/
def ctlk (k : Keyboard) : Keyboard := { k with ctrl := !k.ctrl }

/-- `keyboard_handler`, when `inportb(0x60)` is `scancode`. -/
def handler (scancode : UInt8) (k : Keyboard) : Keyboard :=
  match keyMethod (scancode &&& 0x7F).toNat with
  | none => k
  | some .norm => k.norm scancode
  | some .shft => k.shft
  | some .altk => k.altk
  | some .ctlk => k.ctlk
  | some .func => k

end Keyboard

/-! ## Keys

What the driver is for: keys go down and up, and at each moment some of them are down.  A scan code
is sensible if it is one that keys in such a state can send; a key that is held repeats its make
code. -/

/-- The key that a scan code is about. -/
def scanKey (scancode : UInt8) : Nat := (scancode &&& 0x7F).toNat

/-- Is it the code of a key that is released? -/
def isBreak (scancode : UInt8) : Bool := scancode &&& 0x80 ≠ 0

/-- The driver, and the keys that are down.  Which keys are down is known to the keyboard and not to
the driver, whose three bits are to tell it. -/
structure Typing where
  keyboard : Keyboard
  down : Nat → Bool

namespace Typing

/-- No key is down. -/
def start : Typing where
  keyboard := { shift := false, alt := false, ctrl := false, sent := [] }
  down := fun _ => false

/-- The keys can send this code: only a key that is down sends a break code. -/
def Sends (scancode : UInt8) (s : Typing) : Prop := isBreak scancode → s.down (scanKey scancode)

instance (scancode : UInt8) (s : Typing) : Decidable (s.Sends scancode) :=
  inferInstanceAs (Decidable (_ → _))

/-- A scan code arrives, if the keys can send it. -/
def step (scancode : UInt8) (s : Typing) : Except Unit Typing :=
  if s.Sends scancode then
    .ok {
      keyboard := s.keyboard.handler scancode
      down := Function.update s.down (scanKey scancode) !isBreak scancode }
  else .error ()

/-- One of the two shift keys is down. -/
def shiftDown (s : Typing) : Bool := s.down 0x2A || s.down 0x36

/-- What the make code of an ordinary key sends. -/
def translation (s : Typing) (key : Nat) : List UInt8 :=
  if plainChar key = 0 then []
  else if s.shiftDown then [shiftedChar key]
  else if s.down 0x1D then [Keyboard.controlChar (plainChar key)]
  else [plainChar key]

/-- The bits tell which modifiers are down, and the ordinary keys are translated accordingly.  The
last field follows from the other three, since the translation goes by the bits alone
(`agrees_of_bits`). -/
structure Agrees (s : Typing) : Prop where
  shift : s.keyboard.shift = s.shiftDown
  ctrl : s.keyboard.ctrl = s.down 0x1D
  alt : s.keyboard.alt = s.down 0x38
  translated : ∀ scancode, ¬ isBreak scancode → keyMethod (scanKey scancode) = some .norm →
    (s.keyboard.handler scancode).sent =
      s.keyboard.sent ++ s.translation scancode.toNat

/-- No modifier key repeats, and no shift key is pressed or released while the other is down.  It is
a condition on the next scan code and on the keys, and it does not mention the bits of the driver.
-/
structure Single (scancode : UInt8) (s : Typing) : Prop where
  noRepeat : ¬ isBreak scancode → scanKey scancode ∈ [0x1D, 0x2A, 0x36, 0x38] →
    s.down (scanKey scancode) = false
  left : scanKey scancode = 0x2A → s.down 0x36 = false
  right : scanKey scancode = 0x36 → s.down 0x2A = false

/-! ## The bits

The handlers of the modifiers turn their bits over at every code, and do not look whether it is a
make or a break code.  This is right as long as the codes of a modifier alternate, and as long as
the two shift keys are not down together, since they share one bit.  Otherwise the next code leaves
a bit wrong, and this gives both directions of the condition. -/

variable {scancode : UInt8} {k : Keyboard} {s s' : Typing}

theorem scanKey_lt (scancode : UInt8) : scanKey scancode < 128 := by
  rw [scanKey, UInt8.toNat_and]
  exact Nat.and_lt_two_pow _ (show (0x7F : UInt8).toNat < 2 ^ 7 by decide)

/-- The modifier keys. -/
theorem keyMethod_modifier : ∀ key < 128,
    (keyMethod key = some .shft ↔ key = 0x2A ∨ key = 0x36) ∧
    (keyMethod key = some .ctlk ↔ key = 0x1D) ∧ (keyMethod key = some .altk ↔ key = 0x38) := by
  decide

theorem norm_bits (scancode : UInt8) (k : Keyboard) : (k.norm scancode).shift = k.shift ∧
    (k.norm scancode).ctrl = k.ctrl ∧ (k.norm scancode).alt = k.alt := by
  rw [Keyboard.norm]
  split_ifs <;> exact ⟨rfl, rfl, rfl⟩

/-- **What a scan code does to the bits**: a code of a modifier turns its bit over, be it a make or
a break code, and no other code changes any. -/
theorem handler_bits (scancode : UInt8) (k : Keyboard) :
    (k.handler scancode).shift =
      (if scanKey scancode = 0x2A ∨ scanKey scancode = 0x36 then !k.shift else k.shift) ∧
    (k.handler scancode).ctrl = (if scanKey scancode = 0x1D then !k.ctrl else k.ctrl) ∧
    (k.handler scancode).alt = (if scanKey scancode = 0x38 then !k.alt else k.alt) := by
  obtain ⟨hshft, hctlk, haltk⟩ := keyMethod_modifier _ (scanKey_lt scancode)
  simp only [← hshft, ← hctlk, ← haltk]
  rw [Keyboard.handler, ← scanKey]
  cases keyMethod (scanKey scancode) with
  | none => exact ⟨rfl, rfl, rfl⟩
  | some method =>
    cases method with
    | norm => exact norm_bits scancode k
    | shft => exact ⟨rfl, rfl, rfl⟩
    | altk => exact ⟨rfl, rfl, rfl⟩
    | ctlk => exact ⟨rfl, rfl, rfl⟩
    | func => exact ⟨rfl, rfl, rfl⟩

/-- When the bits are right, so is the translation. -/
theorem agrees_of_bits (hshift : s.keyboard.shift = s.shiftDown)
    (hctrl : s.keyboard.ctrl = s.down 0x1D) (halt : s.keyboard.alt = s.down 0x38) :
    s.Agrees where
  shift := hshift
  ctrl := hctrl
  alt := halt
  translated scancode hmake hnorm := by
    rw [isBreak, decide_eq_true_eq] at hmake
    rw [Keyboard.handler, ← scanKey, hnorm]
    simp only [Keyboard.norm, if_neg hmake, translation, hshift, hctrl]
    split_ifs
    · rw [List.append_nil]
    · rfl
    · rfl
    · rfl

theorem agrees_start : start.Agrees := agrees_of_bits rfl rfl rfl

theorem step_eq_ok (h : s.step scancode = .ok s') : s.Sends scancode ∧
    s' = { keyboard := s.keyboard.handler scancode
           down := Function.update s.down (scanKey scancode) !isBreak scancode } := by
  rw [step] at h
  split_ifs at h with hsends
  exact ⟨hsends, (Except.ok.inj h).symm⟩

/-- A modifier that does not repeat changes with every code it sends. -/
theorem Single.down_eq (h : Single scancode s) (hsends : s.Sends scancode)
    (hkey : scanKey scancode ∈ [0x1D, 0x2A, 0x36, 0x38]) :
    s.down (scanKey scancode) = isBreak scancode := by
  cases hbreak : isBreak scancode with
  | true => exact hsends hbreak
  | false => exact h.noRepeat (by rw [hbreak]; decide) hkey

/-- **A single modifier keeps the bits right**: its key was up before a make code and down before a
break code, so turning the bit over is what is needed. -/
theorem Agrees.step (h : s.Agrees) (hsingle : Single scancode s)
    (hstep : s.step scancode = .ok s') : s'.Agrees := by
  obtain ⟨hsends, rfl⟩ := step_eq_ok hstep
  obtain ⟨hshift, hctrl, halt⟩ := handler_bits scancode s.keyboard
  have hdown := hsingle.down_eq hsends
  refine agrees_of_bits ?_ ?_ ?_
  · show (s.keyboard.handler scancode).shift = _
    rw [hshift, h.shift]
    by_cases hleft : scanKey scancode = 0x2A
    · rw [if_pos (Or.inl hleft)]
      rw [hleft] at hdown
      simp [shiftDown, hleft, hsingle.left hleft, hdown]
    · by_cases hright : scanKey scancode = 0x36
      · rw [if_pos (Or.inr hright)]
        rw [hright] at hdown
        simp [shiftDown, hright, hsingle.right hright, hdown]
      · rw [if_neg (not_or.mpr ⟨hleft, hright⟩)]
        simp [shiftDown, Function.update_of_ne (Ne.symm hleft),
          Function.update_of_ne (Ne.symm hright)]
  · show (s.keyboard.handler scancode).ctrl = _
    rw [hctrl, h.ctrl]
    by_cases hkey : scanKey scancode = 0x1D
    · rw [hkey] at hdown
      simp [hkey, hdown]
    · simp [hkey, Function.update_of_ne (Ne.symm hkey)]
  · show (s.keyboard.handler scancode).alt = _
    rw [halt, h.alt]
    by_cases hkey : scanKey scancode = 0x38
    · rw [hkey] at hdown
      simp [hkey, hdown]
    · simp [hkey, Function.update_of_ne (Ne.symm hkey)]

/-- **Otherwise a bit is wrong** right after the code: it has been turned over, while what it stands
for has not changed. -/
theorem Agrees.not_agrees (h : s.Agrees) (hsends : s.Sends scancode)
    (hsingle : ¬ Single scancode s) : ∃ s', s.step scancode = .ok s' ∧ ¬ s'.Agrees := by
  refine ⟨_, if_pos hsends, fun h' => hsingle ?_⟩
  obtain ⟨hshift, hctrl, halt⟩ := handler_bits scancode s.keyboard
  have hshift' := hshift.symm.trans h'.shift
  have hctrl' := hctrl.symm.trans h'.ctrl
  have halt' := halt.symm.trans h'.alt
  rw [h.shift] at hshift'
  rw [h.ctrl] at hctrl'
  rw [h.alt] at halt'
  simp only [shiftDown] at hshift' hctrl' halt'
  refine ⟨fun hmake hkey => ?_, fun hleft => ?_, fun hright => ?_⟩
  · rw [Bool.not_eq_true] at hmake
    simp only [List.mem_cons, List.not_mem_nil, or_false] at hkey
    rcases hkey with hkey | hkey | hkey | hkey
    · simpa [hkey, hmake] using hctrl'
    · have := hshift'
      simp [hkey, hmake] at this
      rw [hkey]
      exact this.1
    · have := hshift'
      simp [hkey, hmake] at this
      rw [hkey]
      exact this.2
    · simpa [hkey, hmake] using halt'
  · by_contra hright
    rw [Bool.not_eq_false] at hright
    simp [hleft, hright] at hshift'
  · by_contra hleft
    rw [Bool.not_eq_false] at hleft
    simp [hright, hleft] at hshift'

end Typing

/-- **The bits tell which modifiers are down, exactly as long as every modifier is single.** -/
theorem agrees_always_iff (codes : List UInt8) :
    Runs.Always Typing.step Typing.Agrees codes Typing.start ↔
      Runs.Along Typing.step (fun scancode s => s.Sends scancode → Typing.Single scancode s) codes
        Typing.start := by
  refine Runs.always_iff_along (I := Typing.Agrees) (fun scancode s s' h hsingle hstep => ?_)
    (fun s h => h) (fun scancode s h hsingle => ?_) Typing.agrees_start
  · exact h.step (hsingle (Typing.step_eq_ok hstep).1) hstep
  · rw [Classical.not_imp] at hsingle
    exact h.not_agrees hsingle.1 hsingle.2

/-- The left shift key is held until it repeats. -/
theorem not_agrees_always : ¬ Runs.Always Typing.step Typing.Agrees [0x2A, 0x2A] Typing.start := by
  intro h
  have h₁ := h.2 _ rfl
  have h₂ := h₁.2 _ rfl
  exact absurd h₂.shift (by decide)

end MyaXOS
