import MyaXOS.Lib.Run
import MyaXOS.Vfs

/-!
# The shell

The shell keeps its working directory twice, as a path to display and as a node.  `cd` and `cat`
build a file name from the path and their argument; a `cd` that succeeds makes the name the new
path.

* `ShellLine` is a line as `kgets` leaves it in the buffer, and `ShellLine.command` says which
  branch of the shell it selects.
* `Shell.answered` is what a line does when `kopen` has returned, and `Shell.answered_cases` says it
  once, for all that follows: the shell stays where it is or moves to the file name it has built.
* `Fits` says that the path and the file name are within the 1024 bytes each has got.  Nothing
  checks this.  `RoomFor` is the check that is missing, and `fits_always_iff` says so.  What `kopen`
  returns does not matter for it, so the rounds of that theorem come with any answers.
* `Shell.Names` says that the path names the node.  It does from the first successful `cd` on, and
  before that only if the root has an entry without a name (`names_iff`).  Here the answers are
  those of the walk through the tree, as `kopen` gives them while its copies have room.

**Where a path can come from.**  The shell never builds a path by itself.  It starts with `/`, and
from then on the path is a file name with which `cd` has succeeded.  So the path fits as long as the
file names do, and a file name is as long as the path, the argument and a slash together, or as the
argument alone.  Lines are no longer than their buffer, so an absolute name always fits; a relative
one fits if the path in front of it leaves room.  A path that grows with each `cd .` is never cut
back, and this is why a condition on every line is needed and no bound on the lines is enough.

**What names a node.**  `cd` keeps the file name and the node that `kopen` has returned for it, so
the two belong together by construction, as long as the lookup is the same the next time.  The
invariant is `Moved`: the shell is where it started, or where a `cd` has led to, with the path that
was looked up.  At the start the path is `/` and the node is the root, and these do not belong
together.  `kopen` takes `/` for a path with one name, which is empty, and looks it up in the root
(`kopenPath_root`).
-/

set_option autoImplicit false

namespace MyaXOS

/-- A line that `kgets` has read into the buffer of 1024 bytes.  It leaves room for the terminator,
as `kgets` is called with 1023. -/
structure ShellLine where
  text : List UInt8
  fits : text.length ≤ 1023
  nonzero : 0 ∉ text

/-- What a line makes the shell do. -/
inductive ShellCommand where
  | cd (arg : List UInt8)
  | cat (arg : List UInt8)
  /-- A `cd` or `cat` without an argument. -/
  | noArgument (cmd : String)
  /-- Another command, or none: the path and the node stay as they are. -/
  | other
  deriving DecidableEq

/-- The branch that a line selects.  A line of blanks has no tokens, and then `strcmp(cmd, ..)` goes
through `NULL` and compares `nullString`, the string at address 0. -/
def ShellLine.command (nullString : List UInt8) (line : ShellLine) : ShellCommand :=
  if line.text.length < 1 then .other
  else
    let argv := tokens [0x20] line.text
    let cmd := argv.head?.getD nullString
    if strcmp cmd (ascii "cd") = 0 then
      match argv with
      | _ :: arg :: _ => .cd arg
      | _ => .noArgument "cd"
    else if strcmp cmd (ascii "cat") = 0 then
      match argv with
      | _ :: arg :: _ => .cat arg
      | _ => .noArgument "cat"
    else .other

/-- The variables of the shell. -/
structure Shell (ν : Type) where
  path : List UInt8
  node : ν
  /-- The file name that the last `cd` or `cat` has built. -/
  built : Option (List UInt8)
  /-- What the last `cd` or `cat` has complained about. -/
  complaint : List UInt8

variable {ν : Type}

/-- The file name that `cd` and `cat` build. -/
def fileName (path arg : List UInt8) : List UInt8 :=
  if arg.head? = some 0x2F then arg
  else if strcmp path [0x2F] = 0 then path ++ arg
  else path ++ 0x2F :: arg

namespace Shell

/-- The shell when it starts. -/
def start (root : ν) : Shell ν where
  path := [0x2F]
  node := root
  built := none
  complaint := []

/-- `cd arg`, when `kopen` has returned `found`. -/
def cdTo (fs : Vfs ν) (arg : List UInt8) (found : Option ν) (s : Shell ν) : Shell ν :=
  let filename := fileName s.path arg
  match found with
  | some chd =>
    if fs.flags chd &&& fsDirectory = 0 then
      { s with
        built := some filename
        complaint := ascii "cd: " ++ filename ++ ascii " is not a directory\n" }
    else { path := filename, node := chd, built := some filename, complaint := [] }
  | none =>
    { s with
      built := some filename
      complaint := ascii "cd: could not change directory\n" }

/-- `cat arg`, when `kopen` has returned `found`, without the contents that it prints. -/
def catOf (arg : List UInt8) (found : Option ν) (s : Shell ν) : Shell ν :=
  let filename := fileName s.path arg
  match found with
  | some _ => { s with built := some filename, complaint := [] }
  | none =>
    { s with
      built := some filename
      complaint := ascii "cat: could not open file `" ++ arg ++ ascii "`\n" }

/-- One round of the shell, when `kopen` returns `found` if the line makes the shell call it. -/
def answered (fs : Vfs ν) (nullString : List UInt8) (line : ShellLine) (found : Option ν)
    (s : Shell ν) : Shell ν :=
  match line.command nullString with
  | .cd arg => s.cdTo fs arg found
  | .cat arg => s.catOf arg found
  | .noArgument cmd => { s with complaint := ascii cmd ++ ascii ": argument expected\n" }
  | .other => s

/-- `cd arg`. -/
def cd (fs : Vfs ν) (root : ν) (arg : List UInt8) (s : Shell ν) : Except Stop (Shell ν) := do
  let found ← fs.kopenPath root (fileName s.path arg)
  .ok (s.cdTo fs arg found)

/-- `cat arg`. -/
def cat (fs : Vfs ν) (root : ν) (arg : List UInt8) (s : Shell ν) : Except Stop (Shell ν) := do
  let found ← fs.kopenPath root (fileName s.path arg)
  .ok (s.catOf arg found)

/-- One round of the shell. -/
def perform (fs : Vfs ν) (root : ν) (nullString : List UInt8) (line : ShellLine) (s : Shell ν) :
    Except Stop (Shell ν) :=
  match line.command nullString with
  | .cd arg => s.cd fs root arg
  | .cat arg => s.cat fs root arg
  | .noArgument cmd => .ok { s with complaint := ascii cmd ++ ascii ": argument expected\n" }
  | .other => .ok s

/-- A round with whatever `kopen` returns in it. -/
def round (fs : Vfs ν) (nullString : List UInt8) (r : ShellLine × Option ν) (s : Shell ν) :
    Except Stop (Shell ν) := .ok (s.answered fs nullString r.1 r.2)

/-- The path and the file name are within their buffers. -/
structure Fits (s : Shell ν) : Prop where
  path : s.path.length ≤ 1023
  built : ∀ filename, s.built = some filename → filename.length + 1 ≤ 1024

end Shell

/-- A relative name, the path in front of it, the slash between them and the terminator have room in
1024 bytes. -/
def RoomFor (path arg : List UInt8) : Prop :=
  arg.head? ≠ some 0x2F → path.length + arg.length + (if path = [0x2F] then 1 else 2) ≤ 1024

/-- Every `cd` and every `cat` has room.  Where the name begins with a slash there is nothing to
ask, since the line itself is short enough. -/
def ShellLine.Room (nullString : List UInt8) (line : ShellLine) (s : Shell ν) : Prop :=
  ∀ arg, line.command nullString = .cd arg ∨ line.command nullString = .cat arg →
    RoomFor s.path arg

/-! ## File names

The length of what `cd` and `cat` build, in each of the three ways of building it.  The only name
that cannot overflow is an absolute one, which is a part of the line. -/

section
variable {path arg nullString : List UInt8} {line : ShellLine}

theorem fileName_length (path : List UInt8) (h : arg.head? ≠ some 0x2F) :
    (fileName path arg).length + 1 =
      path.length + arg.length + if path = [0x2F] then 1 else 2 := by
  rw [fileName, if_neg h]
  simp only [strcmp_eq_zero]
  split_ifs with hroot
  · rw [List.length_append]
  · rw [List.length_append, List.length_cons]
    omega

/-- The argument is no longer than the line. -/
theorem ShellLine.arg_length
    (h : line.command nullString = .cd arg ∨ line.command nullString = .cat arg) :
    arg.length ≤ 1023 := by
  have hmem : arg ∈ tokens [0x20] line.text := by
    rw [ShellLine.command] at h
    simp only at h
    split_ifs at h with hempty hcd hcat
    · rcases h with h | h <;> cases h
    · split at h
      · next heq =>
        rcases h with h | h
        · cases h
          rw [heq]
          exact List.mem_cons_of_mem _ List.mem_cons_self
        · cases h
      · rcases h with h | h <;> cases h
    · split at h
      · next heq =>
        rcases h with h | h
        · cases h
        · cases h
          rw [heq]
          exact List.mem_cons_of_mem _ List.mem_cons_self
      · rcases h with h | h <;> cases h
    · rcases h with h | h <;> cases h
  exact (tokens_sublist hmem).length_le.trans line.fits

/-- **A file name fits exactly when there is room for it**; an absolute one always does. -/
theorem fileName_fits_iff (path : List UInt8)
    (h : line.command nullString = .cd arg ∨ line.command nullString = .cat arg) :
    (fileName path arg).length + 1 ≤ 1024 ↔ RoomFor path arg := by
  by_cases habs : arg.head? = some 0x2F
  · have hlength := ShellLine.arg_length h
    rw [fileName, if_pos habs]
    exact iff_of_true (by omega) fun hrel => absurd habs hrel
  · rw [fileName_length path habs]
    exact ⟨fun hle _ => hle, fun hroom => hroom habs⟩

end

/-! ## The buffers

Whether the names fit depends on the path and the argument, and not on what `kopen` returns; so the
answer of `kopen` is part of the input here, and the result holds for any file system.  A round
keeps what fits, and a command without room builds a name that does not. -/

section
variable {fs : Vfs ν} {root : ν} {nullString arg : List UInt8} {line : ShellLine} {s s' : Shell ν}

/-- What `cd` does: it builds a file name, and moves to a directory that has been found. -/
theorem Shell.cdTo_cases (fs : Vfs ν) (arg : List UInt8) (found : Option ν) (s : Shell ν) :
    (s.cdTo fs arg found).built = some (fileName s.path arg) ∧
    (((s.cdTo fs arg found).path = s.path ∧ (s.cdTo fs arg found).node = s.node) ∨
      (s.cdTo fs arg found).path = fileName s.path arg ∧
        fs.flags (s.cdTo fs arg found).node &&& fsDirectory ≠ 0 ∧
        found = some (s.cdTo fs arg found).node) := by
  rcases found with _ | chd
  · exact ⟨rfl, Or.inl ⟨rfl, rfl⟩⟩
  · simp only [cdTo]
    split_ifs with hdir
    · exact ⟨rfl, Or.inl ⟨rfl, rfl⟩⟩
    · exact ⟨rfl, Or.inr ⟨rfl, hdir, rfl⟩⟩

/-- `cat` builds a file name, and stays where it is. -/
theorem Shell.catOf_cases (arg : List UInt8) (found : Option ν) (s : Shell ν) :
    (s.catOf arg found).built = some (fileName s.path arg) ∧
      (s.catOf arg found).path = s.path ∧ (s.catOf arg found).node = s.node := by
  cases found with
  | none => exact ⟨rfl, rfl, rfl⟩
  | some file => exact ⟨rfl, rfl, rfl⟩

/-- **What a round does.**  It stays where it is or moves to a directory, and it builds at most one
file name. -/
theorem Shell.answered_cases (fs : Vfs ν) (nullString : List UInt8) (line : ShellLine)
    (found : Option ν) (s : Shell ν) :
    ((s.answered fs nullString line found).built = s.built ∧
      (s.answered fs nullString line found).path = s.path ∧
      (s.answered fs nullString line found).node = s.node) ∨
    ∃ arg, (line.command nullString = .cd arg ∨ line.command nullString = .cat arg) ∧
      (s.answered fs nullString line found).built = some (fileName s.path arg) ∧
      (((s.answered fs nullString line found).path = s.path ∧
          (s.answered fs nullString line found).node = s.node) ∨
        (s.answered fs nullString line found).path = fileName s.path arg ∧
          fs.flags (s.answered fs nullString line found).node &&& fsDirectory ≠ 0 ∧
          found = some (s.answered fs nullString line found).node) := by
  rw [answered]
  split
  · next arg hcommand => exact Or.inr ⟨arg, Or.inl hcommand, cdTo_cases fs arg found s⟩
  · next arg hcommand =>
    obtain ⟨hbuilt, hstay⟩ := catOf_cases arg found s
    exact Or.inr ⟨arg, Or.inr hcommand, hbuilt, Or.inl hstay⟩
  · exact Or.inl ⟨rfl, rfl, rfl⟩
  · exact Or.inl ⟨rfl, rfl, rfl⟩

/-- A command is a round in which `kopen` returns what the walk finds. -/
theorem Shell.perform_eq_answered (h : s.perform fs root nullString line = .ok s') :
    ∃ found, s' = s.answered fs nullString line found ∧
      ∀ arg, line.command nullString = .cd arg ∨ line.command nullString = .cat arg →
        fs.kopenPath root (fileName s.path arg) = .ok found := by
  rw [perform] at h
  simp only [answered]
  split at h
  · next arg hcommand =>
    obtain ⟨found, hfound, hs'⟩ := bind_eq_ok h
    cases hs'
    refine ⟨found, rfl, fun arg' harg' => ?_⟩
    rcases harg' with harg' | harg' <;> cases hcommand.symm.trans harg'
    exact hfound
  · next arg hcommand =>
    obtain ⟨found, hfound, hs'⟩ := bind_eq_ok h
    cases hs'
    refine ⟨found, rfl, fun arg' harg' => ?_⟩
    rcases harg' with harg' | harg' <;> cases hcommand.symm.trans harg'
    exact hfound
  · next cmd hcommand =>
    cases h
    exact ⟨none, rfl, fun arg' harg' => by rcases harg' with h | h <;> cases hcommand.symm.trans h⟩
  · next hcommand =>
    cases h
    exact ⟨none, rfl, fun arg' harg' => by rcases harg' with h | h <;> cases hcommand.symm.trans h⟩

/-- A command that has room keeps everything within its buffer. -/
theorem Shell.Fits.answered (hs : s.Fits) (hroom : line.Room nullString s) (found : Option ν) :
    (s.answered fs nullString line found).Fits := by
  rcases answered_cases fs nullString line found s with
    ⟨hbuilt, hpath, -⟩ | ⟨arg, hcommand, hbuilt, hwhere⟩
  · exact ⟨hpath ▸ hs.path, hbuilt ▸ hs.built⟩
  · have hname := (fileName_fits_iff s.path hcommand).mpr (hroom arg hcommand)
    refine ⟨?_, fun filename hfilename => ?_⟩
    · rcases hwhere with ⟨hpath, -⟩ | ⟨hpath, -⟩
      · exact hpath ▸ hs.path
      · rw [hpath]
        omega
    · rw [hbuilt] at hfilename
      cases hfilename
      exact hname

/-- A command that has no room builds a file name that does not fit. -/
theorem Shell.not_fits_answered (hroom : ¬ line.Room nullString s) (found : Option ν) :
    ¬ (s.answered fs nullString line found).Fits := by
  simp only [ShellLine.Room, not_forall] at hroom
  obtain ⟨arg, hcommand, hroom⟩ := hroom
  have hname := mt (fileName_fits_iff s.path hcommand).mp hroom
  have hbuilt : (s.answered fs nullString line found).built = some (fileName s.path arg) := by
    rcases hcommand with hcommand | hcommand
    · simp only [answered, hcommand]
      exact (cdTo_cases fs arg found s).1
    · simp only [answered, hcommand]
      exact (catOf_cases arg found s).1
  exact fun hfits => hname (hfits.built _ hbuilt)

end

/-- **Every file name and every path fits exactly as long as every `cd` and `cat` has room**,
whatever `kopen` returns. -/
theorem fits_always_iff (fs : Vfs ν) (root : ν) (nullString : List UInt8)
    (rounds : List (ShellLine × Option ν)) :
    Runs.Always (Shell.round fs nullString) Shell.Fits rounds (Shell.start root) ↔
      Runs.Along (Shell.round fs nullString) (fun r => r.1.Room nullString) rounds
        (Shell.start root) := by
  refine Runs.always_iff_along (I := Shell.Fits) (fun r s s' hs hroom h => ?_) (fun s hs => hs)
    (fun r s _ hroom => ⟨_, rfl, Shell.not_fits_answered hroom r.2⟩)
    ⟨by simp [Shell.start], fun _ h => by cases h⟩
  cases h
  exact hs.answered hroom r.2

/-- A root directory in which only `.` is found. -/
def emptyRoot : Vfs Unit where
  flags _ := fsDirectory
  inode _ := 2
  hasReaddir _ := true
  finddir _ name := .ok (if name = [0x2E] then some () else none)

/-- The line `cd .`. -/
def cdDot : ShellLine := ⟨ascii "cd .", by decide, by decide⟩

/-- The line `cd ./.`. -/
def cdDotDot : ShellLine := ⟨ascii "cd ./.", by decide, by decide⟩

/-- The line `cat aaa…`, with all the 1023 characters that `kgets` takes. -/
def catLong : ShellLine where
  text := ascii "cat" ++ 0x20 :: List.replicate 1019 0x61
  fits := by rw [List.length_append, List.length_cons, List.length_replicate]; decide
  nonzero := by
    intro h
    rcases List.mem_append.mp h with h | h
    · exact absurd h (by decide)
    · rcases List.mem_cons.mp h with h | h
      · exact absurd h (by decide)
      · exact absurd (List.eq_of_mem_replicate h) (by decide)

theorem command_catLong : catLong.command [] = .cat (List.replicate 1019 0x61) := by
  have htokens : tokens [0x20] catLong.text = [ascii "cat", List.replicate 1019 0x61] := by
    rw [tokens_eq, catLong, List.splitOn_append_cons_self_of_not_mem (by decide),
      List.splitOn_eq_singleton fun h => absurd (List.eq_of_mem_replicate h) (by decide)]
    rfl
  have hlength : ¬ catLong.text.length < 1 := by
    rw [catLong, List.length_append, List.length_cons]
    omega
  rw [ShellLine.command, if_neg hlength]
  simp only [htokens]
  rfl

/-- After `cd .` and `cd ./.`, both of which find their directory, the name of a long argument does
not fit. -/
theorem not_fits_always :
    emptyRoot.kopenPath () (ascii "/.") = .ok (some ()) ∧
    emptyRoot.kopenPath () (ascii "/././.") = .ok (some ()) ∧
    ¬ Runs.Always (Shell.round emptyRoot []) Shell.Fits
      [(cdDot, some ()), (cdDotDot, some ()), (catLong, none)] (Shell.start ()) := by
  refine ⟨rfl, rfl, fun h => ?_⟩
  have hround : ∀ (s : Shell Unit) line arg path, line.command [] = .cd arg →
      fileName s.path arg = path → s.answered emptyRoot [] line (some ()) =
        { path := path, node := (), built := some path, complaint := [] } := by
    intro s line arg path hcommand hpath
    simp only [Shell.answered, hcommand, Shell.cdTo, hpath]
    rfl
  have h₁ := h.2 _ rfl
  rw [hround (Shell.start ()) cdDot [0x2E] (ascii "/.") rfl rfl] at h₁
  have h₂ := h₁.2 _ rfl
  rw [hround _ cdDotDot (ascii "./.") (ascii "/././.") rfl rfl] at h₂
  have hnoroom : ∀ n, n = 1019 → ∀ s : Shell Unit, s.path = ascii "/././." →
      catLong.command [] = .cat (List.replicate n 0x61) → ¬ catLong.Room [] s := by
    intro n hn s hpath hcommand hroom
    have hle := hroom _ (Or.inr hcommand) (by rw [List.head?_replicate, if_neg (by omega)]; decide)
    rw [List.length_replicate, hn, hpath] at hle
    exact absurd hle (by decide)
  exact Shell.not_fits_answered (hnoroom 1019 rfl _ rfl command_catLong) none (h₂.2 _ rfl)

/-! ## The working directory

Now the answers are those of a file system.  A `cd` that succeeds stores the name it has opened
along with the node that this name has opened, so that the same name opens it again; what is left is
the path `/`, with which the shell starts without having opened it. -/

/-- The path names the node, and `cd` to it changes nothing.  Nodes are compared by their inodes,
since each `kopen` makes a new node. -/
structure Shell.Names (fs : Vfs ν) (root : ν) (s : Shell ν) : Prop where
  opens : ∃ d, fs.kopenPath root s.path = .ok (some d) ∧ fs.inode d = fs.inode s.node
  cd : ∃ s', s.cd fs root s.path = .ok s' ∧ s'.complaint = [] ∧ s'.path = s.path ∧
    fs.inode s'.node = fs.inode s.node

/-- The shell is where it started, or where a `cd` has led to.  This is the invariant: in the second
case the path has opened the very node, and the tree does not change, so that it will do so again.
-/
structure Shell.Moved (fs : Vfs ν) (root : ν) (s : Shell ν) : Prop where
  absolute : s.path.head? = some 0x2F
  opened : s.path = [0x2F] ∨
    fs.kopenPath root s.path = .ok (some s.node) ∧ fs.flags s.node &&& fsDirectory ≠ 0

section
variable {fs : Vfs ν} {root d : ν} {path nullString arg : List UInt8} {line : ShellLine}
  {s s' : Shell ν}

theorem fileName_absolute (h : path.head? = some 0x2F) :
    (fileName path arg).head? = some 0x2F := by
  rw [fileName]
  split_ifs with harg hroot
  · exact harg
  · rw [List.head?_append, h]
    rfl
  · rw [List.head?_append, h]
    rfl

theorem Shell.Moved.perform (hs : s.Moved fs root)
    (h : s.perform fs root nullString line = .ok s') : s'.Moved fs root := by
  obtain ⟨found, rfl, hfound⟩ := perform_eq_answered h
  have hstay : (s.answered fs nullString line found).path = s.path ∧
      (s.answered fs nullString line found).node = s.node →
      (s.answered fs nullString line found).Moved fs root := by
    rintro ⟨hpath, hnode⟩
    exact ⟨hpath ▸ hs.absolute, by rw [hpath, hnode]; exact hs.opened⟩
  rcases answered_cases fs nullString line found s with
    ⟨-, hwhere⟩ | ⟨arg, hcommand, -, hwhere | ⟨hpath, hdir, hsome⟩⟩
  · exact hstay hwhere
  · exact hstay hwhere
  · refine ⟨hpath ▸ fileName_absolute hs.absolute, Or.inr ⟨?_, hdir⟩⟩
    rw [hpath, hfound arg hcommand]
    exact congrArg _ hsome

/-- `cd` to an absolute name that is a directory. -/
theorem Shell.cd_of_found (hpath : path.head? = some 0x2F)
    (hfound : fs.kopenPath root path = .ok (some d)) (hdir : fs.flags d &&& fsDirectory ≠ 0) :
    s.cd fs root path = .ok { path := path, node := d, built := some path, complaint := [] } := by
  have hname : fileName s.path path = path := by
    rw [fileName, if_pos hpath]
  rw [cd, hname, hfound, ok_bind]
  simp only [cdTo, hname, if_neg hdir]

/-- A path that opens a directory with the inode of the node names the node. -/
theorem Shell.names_of_found (hpath : s.path.head? = some 0x2F)
    (hfound : fs.kopenPath root s.path = .ok (some d)) (hinode : fs.inode d = fs.inode s.node)
    (hdir : fs.flags d &&& fsDirectory ≠ 0) : s.Names fs root :=
  ⟨⟨d, hfound, hinode⟩, _, cd_of_found hpath hfound hdir, rfl, rfl, hinode⟩

/-- `kopen` takes `/` for a name in the root. -/
theorem kopenPath_root (fs : Vfs ν) (root : ν) :
    fs.kopenPath root [0x2F] = fs.finddirFs root [] := by
  rw [← fs.lookup_singleton]
  rfl

theorem Shell.Moved.names (hs : s.Moved fs root) :
    s.Names fs root ↔ s.path ≠ [0x2F] ∨ ∃ d, fs.finddirFs root [] = .ok (some d) ∧
      fs.inode d = fs.inode s.node ∧ fs.flags d &&& fsDirectory ≠ 0 := by
  constructor
  · rintro ⟨⟨d, hfound, hinode⟩, s', hs', hcomplaint, -⟩
    by_cases hpath : s.path = [0x2F]
    · have hname : fileName s.path s.path = s.path := by
        rw [fileName, if_pos hs.absolute]
      refine Or.inr ⟨d, by rw [← kopenPath_root, ← hpath, hfound], hinode, fun hdir => ?_⟩
      rw [cd, hname, hfound, ok_bind] at hs'
      simp only [cdTo, if_pos hdir] at hs'
      cases hs'
      -- the complaint says that it is not a directory
      exact absurd hcomplaint (by simp [ascii])
    · exact Or.inl hpath
  · intro h
    by_cases hpath : s.path = [0x2F]
    · obtain ⟨d, hfound, hinode, hdir⟩ := h.resolve_left (not_not.mpr hpath)
      exact names_of_found hs.absolute (by rw [hpath, kopenPath_root, hfound]) hinode hdir
    · obtain ⟨hfound, hdir⟩ := hs.opened.resolve_left hpath
      exact names_of_found hs.absolute hfound rfl hdir

end

/-- **The path names the node once a `cd` has succeeded.**  The path `/` does only if there is an
entry in the root that has no name and leads back to the node. -/
theorem names_iff (fs : Vfs ν) (root : ν) (nullString : List UInt8) (lines : List ShellLine) :
    Runs.Always (Shell.perform fs root nullString)
      (fun s => s.Names fs root ↔ s.path ≠ [0x2F] ∨ ∃ d, fs.finddirFs root [] = .ok (some d) ∧
        fs.inode d = fs.inode s.node ∧ fs.flags d &&& fsDirectory ≠ 0)
      lines (Shell.start root) := by
  have hstart : (Shell.start root).Moved fs root := ⟨rfl, Or.inl rfl⟩
  have halways : Runs.Always (Shell.perform fs root nullString) (Shell.Moved fs root) lines
      (Shell.start root) :=
    Runs.always_of_step (fun _ _ _ hs h => hs.perform h) hstart
  exact halways.imp fun s hs => hs.names

/-- The path `/` does not name the root. -/
theorem not_names :
    ¬ Runs.Always (Shell.perform emptyRoot () []) (Shell.Names emptyRoot ()) []
      (Shell.start ()) := by
  rintro ⟨⟨d, hfound, -⟩, -⟩
  have hnone : emptyRoot.kopenPath () [0x2F] = .ok none := rfl
  rw [Shell.start, hnone] at hfound
  cases hfound

end MyaXOS
