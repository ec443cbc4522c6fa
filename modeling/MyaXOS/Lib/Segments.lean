import Mathlib.Data.List.TakeWhile

/-!
# The segments of a list

Some of the elements of a list are delimiters.  The segments are what lies between them: the longest
pieces without a delimiter, except for the empty ones.

* `IsSegment d s i t`: `t` is such a piece of `s`, and `i` elements come before it.
* `segments d s` lists them from the left to the right; `mem_segments` and `pairwise_segments` say
  so.
* `segmentsFrom` is the list for a part of a longer list.  What a scan from the left needs to know
  is how it goes on behind some delimiters (`segmentsFrom_skip`), behind a piece that ends in a
  delimiter (`segmentsFrom_piece`), and with a piece that nothing follows (`segmentsFrom_last`).

`IsSegment` is what is meant, and `segments` what can be computed.  The first is symmetric, it looks
at the element before a piece and at the one after it, while the second goes from the left to the
right.  So the induction needs to know of a part of a list whether a piece is under way when the
part begins: if the element before is not a delimiter, then what the part starts with is the rest of
a piece, and not a segment.  This is `inside`, and `IsSegmentFrom` is the notion that the induction
is about; without anything before the part the two are the same.

Unlike `List.splitOn` this does not make lists of lists that are filtered afterwards: the positions
are part of the result, for a program that does not copy its pieces but points to them.
-/

set_option autoImplicit false

namespace List

variable {α : Type} {d s t : List α} {c : α} {inside : Bool} {i n off : Nat}

/-- `t` lies in `s` behind the first `i` elements, it has no delimiter, and it cannot be made longer
on either side. -/
def IsSegment (d s : List α) (i : Nat) (t : List α) : Prop :=
  ∃ before after, s = before ++ t ++ after ∧ before.length = i ∧ t ≠ [] ∧ (∀ c ∈ t, c ∉ d) ∧
    (∀ c ∈ before.getLast?, c ∈ d) ∧ ∀ c ∈ after.head?, c ∈ d

/-- A segment of a part of a list.  With `inside`, the element before the part is not a delimiter,
so that no segment starts with the part. -/
def IsSegmentFrom (d : List α) (inside : Bool) (s : List α) (i : Nat) (t : List α) : Prop :=
  IsSegment d s i t ∧ (i = 0 → inside = false)

variable [DecidableEq α]

/-- The segments of a part that comes behind `off` elements. -/
def segmentsFrom (d : List α) : Bool → Nat → List α → List (Nat × List α)
  | _, _, [] => []
  | inside, off, c :: s =>
    let rest := segmentsFrom d (c ∉ d) (off + 1) s
    if c ∉ d ∧ inside = false then (off, (c :: s).takeWhile (· ∉ d)) :: rest else rest

/-- The segments of a list. -/
def segments (d s : List α) : List (Nat × List α) := segmentsFrom d false 0 s

/-! ## What is listed

`segmentsFrom` goes through the list once, and knows whether the element before was a delimiter.
The proofs follow this recursion, with the flag and the offset as parameters of what is proved. -/

theorem isSegmentFrom_zero :
    IsSegmentFrom d inside (c :: s) 0 t ↔
      (c ∉ d ∧ inside = false) ∧ t = (c :: s).takeWhile (· ∉ d) := by
  constructor
  · rintro ⟨⟨before, after, hs, hbefore, hne, ht, -, hafter⟩, hinside⟩
    obtain rfl := length_eq_zero_iff.mp hbefore
    obtain ⟨c', t, rfl⟩ := exists_cons_of_ne_nil hne
    have hhead := hs
    rw [nil_append, cons_append, cons.injEq] at hhead
    refine ⟨⟨hhead.1 ▸ ht c' mem_cons_self, hinside rfl⟩, ?_⟩
    rw [hs, nil_append, takeWhile_append_of_pos fun c hc => decide_eq_true (ht c hc)]
    cases after with
    | nil => rw [takeWhile_nil, append_nil]
    | cons c after =>
      rw [takeWhile_cons_of_neg (by simpa using hafter c rfl), append_nil]
  · rintro ⟨⟨hc, hinside⟩, rfl⟩
    refine ⟨⟨[], (c :: s).dropWhile (· ∉ d), ?_, rfl, ?_, fun x hx => ?_, ?_, fun x hx => ?_⟩,
      fun _ => hinside⟩
    · rw [nil_append, takeWhile_append_dropWhile]
    · rw [takeWhile_cons_of_pos (by simpa using hc)]
      exact cons_ne_nil _ _
    · simpa using mem_takeWhile_imp hx
    · simp
    · have hhead := head?_dropWhile_not (p := (· ∉ d)) (c :: s)
      rw [Option.mem_def.mp hx] at hhead
      simpa using hhead

theorem isSegmentFrom_succ :
    IsSegmentFrom d inside (c :: s) (i + 1) t ↔ IsSegmentFrom d (c ∉ d) s i t := by
  constructor
  · rintro ⟨⟨before, after, hs, hbefore, hne, ht, hlast, hafter⟩, -⟩
    obtain ⟨c', before, rfl⟩ := exists_cons_of_length_eq_add_one hbefore
    rw [cons_append, cons_append, cons.injEq] at hs
    obtain ⟨rfl, rfl⟩ := hs
    refine ⟨⟨before, after, rfl, Nat.succ.inj hbefore, hne, ht, fun x hx => ?_, hafter⟩, ?_⟩
    · exact hlast x (by rw [getLast?_cons, Option.mem_def.mp hx]; rfl)
    · rintro rfl
      obtain rfl := length_eq_zero_iff.mp (Nat.succ.inj hbefore)
      simpa using hlast c rfl
  · rintro ⟨⟨before, after, rfl, rfl, hne, ht, hlast, hafter⟩, hinside⟩
    refine ⟨⟨c :: before, after, rfl, rfl, hne, ht, fun x hx => ?_, hafter⟩,
      fun h => absurd h (Nat.succ_ne_zero _)⟩
    cases before with
    | nil =>
      rw [getLast?_singleton, Option.mem_some] at hx
      simpa [← hx] using hinside rfl
    | cons c' before =>
      rw [getLast?_cons_cons] at hx
      exact hlast x hx

theorem mem_segmentsFrom :
    (n, t) ∈ segmentsFrom d inside off s ↔ ∃ i, n = off + i ∧ IsSegmentFrom d inside s i t := by
  induction s generalizing inside off with
  | nil =>
    refine ⟨fun h => (not_mem_nil h).elim, ?_⟩
    rintro ⟨i, -, ⟨before, after, hs, -, hne, -⟩, -⟩
    exact absurd (append_eq_nil_iff.mp (append_eq_nil_iff.mp hs.symm).1).2 hne
  | cons c s ih =>
    have hmem : (n, t) ∈ segmentsFrom d inside off (c :: s) ↔
        ((c ∉ d ∧ inside = false) ∧ n = off ∧ t = (c :: s).takeWhile (· ∉ d)) ∨
        (n, t) ∈ segmentsFrom d (c ∉ d) (off + 1) s := by
      rw [segmentsFrom]
      split_ifs with hstart
      · rw [mem_cons, Prod.mk.injEq, and_iff_right hstart]
      · rw [or_iff_right fun h => hstart h.1]
    rw [hmem, ih]
    constructor
    · rintro (⟨hstart, rfl, ht⟩ | ⟨i, rfl, hi⟩)
      · exact ⟨0, rfl, isSegmentFrom_zero.mpr ⟨hstart, ht⟩⟩
      · exact ⟨i + 1, by omega, isSegmentFrom_succ.mpr hi⟩
    · rintro ⟨i, rfl, hi⟩
      cases i with
      | zero =>
        obtain ⟨hstart, ht⟩ := isSegmentFrom_zero.mp hi
        exact Or.inl ⟨hstart, rfl, ht⟩
      | succ i => exact Or.inr ⟨i, by omega, isSegmentFrom_succ.mp hi⟩

/-- **`segments` lists the segments**, each with its index: the maximal parts without a delimiter
that are not empty. -/
theorem mem_segments : (i, t) ∈ segments d s ↔ IsSegment d s i t := by
  rw [segments, mem_segmentsFrom]
  constructor
  · rintro ⟨i', rfl, h, -⟩
    rwa [Nat.zero_add]
  · exact fun h => ⟨i, (Nat.zero_add i).symm, h, fun _ => rfl⟩

theorem pairwise_segmentsFrom (d : List α) (inside : Bool) (off : Nat) (s : List α) :
    (segmentsFrom d inside off s).Pairwise (·.1 < ·.1) := by
  induction s generalizing inside off with
  | nil => exact Pairwise.nil
  | cons c s ih =>
    rw [segmentsFrom]
    split_ifs
    · refine Pairwise.cons (fun seg hseg => ?_) (ih _ _)
      obtain ⟨i, hi, -⟩ := mem_segmentsFrom.mp (show (seg.1, seg.2) ∈ _ from hseg)
      omega
    · exact ih _ _

/-- They are listed from the left to the right. -/
theorem pairwise_segments (d s : List α) : (segments d s).Pairwise (·.1 < ·.1) :=
  pairwise_segmentsFrom d false 0 s

theorem length_segmentsFrom_le (d : List α) (inside : Bool) (off : Nat) (s : List α) :
    (segmentsFrom d inside off s).length ≤ s.length := by
  induction s generalizing inside off with
  | nil => exact le_rfl
  | cons c s ih =>
    rw [segmentsFrom]
    split_ifs
    · exact Nat.succ_le_succ (ih _ _)
    · exact Nat.le_succ_of_le (ih _ _)

/-- There is no segment when there are only delimiters. -/
theorem segments_eq_nil_iff : segments d s = [] ↔ ∀ c ∈ s, c ∈ d := by
  have hfrom : ∀ off, segmentsFrom d false off s = [] ↔ ∀ c ∈ s, c ∈ d := by
    induction s with
    | nil => exact fun _ => iff_of_true rfl (forall_mem_nil _)
    | cons c s ih =>
      intro off
      rw [segmentsFrom, forall_mem_cons]
      by_cases hc : c ∈ d
      · rw [if_neg fun h => h.1 hc, decide_eq_false (not_not.mpr hc), ih, and_iff_right hc]
      · rw [if_pos ⟨hc, rfl⟩]
        exact iff_of_false (cons_ne_nil _ _) fun h => hc h.1
  exact hfrom 0

/-! ## How a scan goes on

What a tokenizer does with the front of a list: skip delimiters, or take a piece up to the next one.
Each is an equation between the segments of the whole and those of the rest. -/

/-- Delimiters are skipped. -/
theorem segmentsFrom_skip {skip : List α} (hskip : ∀ c ∈ skip, c ∈ d) (off : Nat) (s : List α) :
    segmentsFrom d false off (skip ++ s) = segmentsFrom d false (off + skip.length) s := by
  induction skip generalizing off with
  | nil => rfl
  | cons c skip ih =>
    obtain ⟨hc, hskip⟩ := forall_mem_cons.mp hskip
    rw [cons_append, segmentsFrom, if_neg fun h => h.1 hc, decide_eq_false (not_not.mpr hc),
      ih hskip, length_cons, Nat.add_assoc, Nat.add_comm 1]

/-- Inside of a piece no segment starts, up to the next delimiter. -/
theorem segmentsFrom_inside (ht : ∀ c ∈ t, c ∉ d) (off : Nat) (s : List α) :
    segmentsFrom d true off (t ++ s) = segmentsFrom d true (off + t.length) s := by
  induction t generalizing off with
  | nil => rfl
  | cons c t ih =>
    obtain ⟨hc, ht⟩ := forall_mem_cons.mp ht
    rw [cons_append, segmentsFrom, if_neg fun h => Bool.noConfusion h.2, decide_eq_true hc, ih ht,
      length_cons, Nat.add_assoc, Nat.add_comm 1]

theorem segmentsFrom_start (hne : t ≠ []) (ht : ∀ c ∈ t, c ∉ d) (off : Nat) (s : List α) :
    segmentsFrom d false off (t ++ s) =
      (off, t ++ s.takeWhile (· ∉ d)) :: segmentsFrom d true (off + t.length) s := by
  obtain ⟨c, t, rfl⟩ := exists_cons_of_ne_nil hne
  obtain ⟨hc, htail⟩ := forall_mem_cons.mp ht
  rw [cons_append, segmentsFrom, if_pos ⟨hc, rfl⟩, decide_eq_true hc, segmentsFrom_inside htail,
    ← cons_append, takeWhile_append_of_pos fun c hc => decide_eq_true (ht c hc), length_cons,
    Nat.add_assoc, Nat.add_comm 1]

/-- A piece that ends in a delimiter. -/
theorem segmentsFrom_piece (hne : t ≠ []) (ht : ∀ c ∈ t, c ∉ d) (hc : c ∈ d) (off : Nat)
    (s : List α) :
    segmentsFrom d false off (t ++ c :: s) =
      (off, t) :: segmentsFrom d false (off + t.length + 1) s := by
  rw [segmentsFrom_start hne ht, takeWhile_cons_of_neg (by simpa using hc), append_nil,
    segmentsFrom, if_neg fun h => h.1 hc, decide_eq_false (not_not.mpr hc)]

/-- A piece that nothing follows. -/
theorem segmentsFrom_last (hne : t ≠ []) (ht : ∀ c ∈ t, c ∉ d) (off : Nat) :
    segmentsFrom d false off t = [(off, t)] := by
  have hstart := segmentsFrom_start hne ht off []
  rwa [append_nil, takeWhile_nil, append_nil] at hstart

end List
