/-
# Searching lists

The searches of a string class, over lists of any type: the first occurrence of
a pattern, the last occurrence of a symbol.  Both return positions, as the
originals do; the lemmas turn a position into the decomposition of the list
that it stands for, and back.

A first occurrence survives appending, and a decomposition at a pattern is the
first occurrence exactly when the pattern does not also start earlier.  What
stands before and after the first and the last occurrence of a symbol also has
names of its own, which do not mention positions.
-/

import Mathlib.Data.List.Infix
import Mathlib.Data.List.DropRight

namespace EpollHttpServer.Lib

universe u

variable {α : Type u} [DecidableEq α]

/-- Position of the first occurrence of `pattern`. -/
def find (pattern : List α) : List α → Option ℕ
  | [] => if pattern = [] then some 0 else none
  | x :: xs => if pattern <+: x :: xs then some 0 else (find pattern xs).map (· + 1)

/-- Position of the last occurrence of `symbol`. -/
def rfind (symbol : α) : List α → Option ℕ
  | [] => none
  | x :: xs =>
    match rfind symbol xs with
    | some position => some (position + 1)
    | none => if x = symbol then some 0 else none

/-! ## First occurrence of a pattern -/

theorem find_of_starts {pattern s : List α} (hstarts : pattern <+: s) :
    find pattern s = some 0 := by
  cases s with
  | nil => simp [find, List.prefix_nil.mp hstarts]
  | cons x xs => simp [find, hstarts]

theorem find_eq_zero_iff {pattern s : List α} :
    find pattern s = some 0 ↔ pattern <+: s := by
  refine ⟨fun hfind => ?_, find_of_starts⟩
  cases s with
  | nil =>
      by_cases hempty : pattern = []
      · simp [hempty]
      · simp [find, hempty] at hfind
  | cons x xs =>
      by_contra hstarts
      simp [find, hstarts] at hfind

theorem find_cons_of_not_starts {pattern xs : List α} {x : α}
    (hstarts : ¬ pattern <+: x :: xs) :
    find pattern (x :: xs) = (find pattern xs).map (· + 1) := by
  simp [find, hstarts]

/-- A position that was found splits the list around the pattern. -/
theorem eq_of_find {pattern s : List α} {position : ℕ}
    (hfind : find pattern s = some position) :
    s = s.take position ++ pattern ++ s.drop (position + pattern.length) := by
  induction s generalizing position with
  | nil =>
      by_cases hempty : pattern = []
      · subst hempty
        simp
      · simp [find, hempty] at hfind
  | cons x xs ih =>
      by_cases hstarts : pattern <+: x :: xs
      · rw [find_of_starts hstarts] at hfind
        cases hfind
        obtain ⟨rest, hrest⟩ := hstarts
        simp [← hrest]
      · rw [find_cons_of_not_starts hstarts, Option.map_eq_some_iff] at hfind
        obtain ⟨previous, hprevious, rfl⟩ := hfind
        have hsplit := ih hprevious
        rw [show previous + 1 + pattern.length = previous + pattern.length + 1 by omega,
          List.take_succ_cons, List.drop_succ_cons]
        simpa using hsplit

theorem find_le {pattern s : List α} {position : ℕ}
    (hfind : find pattern s = some position) :
    position + pattern.length ≤ s.length := by
  induction s generalizing position with
  | nil =>
      by_cases hempty : pattern = []
      · subst hempty
        simp [find] at hfind
        simp [← hfind]
      · simp [find, hempty] at hfind
  | cons x xs ih =>
      by_cases hstarts : pattern <+: x :: xs
      · rw [find_of_starts hstarts] at hfind
        cases hfind
        simpa using hstarts.length_le
      · rw [find_cons_of_not_starts hstarts, Option.map_eq_some_iff] at hfind
        obtain ⟨previous, hprevious, rfl⟩ := hfind
        have hle := ih hprevious
        simp only [List.length_cons]
        omega

theorem find_eq_none_iff {pattern s : List α} :
    find pattern s = none ↔ ¬ pattern <:+: s := by
  induction s with
  | nil => simp [find]
  | cons x xs ih =>
      by_cases hstarts : pattern <+: x :: xs
      · simp [find_of_starts hstarts, hstarts.isInfix]
      · simp [find_cons_of_not_starts hstarts, ih, List.infix_cons_iff, hstarts]

/-- What is appended behind a list does not move a first occurrence. -/
theorem find_append {pattern s : List α} {position : ℕ}
    (hfind : find pattern s = some position) (more : List α) :
    find pattern (s ++ more) = some position := by
  induction s generalizing position with
  | nil =>
      by_cases hempty : pattern = []
      · subst hempty
        simp [find] at hfind
        simpa [← hfind] using find_of_starts (List.nil_prefix (l := more))
      · simp [find, hempty] at hfind
  | cons x xs ih =>
      by_cases hstarts : pattern <+: x :: xs
      · rw [find_of_starts hstarts] at hfind
        cases hfind
        exact find_of_starts (hstarts.trans (List.prefix_append _ _))
      · rw [find_cons_of_not_starts hstarts, Option.map_eq_some_iff] at hfind
        obtain ⟨previous, hprevious, rfl⟩ := hfind
        have hlonger : ¬ pattern <+: x :: (xs ++ more) := by
          intro hlong
          have hfits := find_le hprevious
          exact hstarts (List.prefix_of_prefix_length_le hlong
            (List.prefix_append (x :: xs) more) (by simp only [List.length_cons]; omega))
        rw [List.cons_append, find_cons_of_not_starts hlonger, ih hprevious]
        rfl

/-- A pattern is found where it stands if it does not start earlier, not even
with its own first symbols. -/
theorem find_append_pattern {pattern before : List α} (hne : pattern ≠ [])
    (hearlier : ¬ pattern <:+: before ++ pattern.dropLast) (after : List α) :
    find pattern (before ++ pattern ++ after) = some before.length := by
  induction before with
  | nil => exact find_of_starts (by simp)
  | cons x before ih =>
      have hlast : pattern = pattern.dropLast ++ [pattern.getLast hne] :=
        (List.dropLast_append_getLast hne).symm
      have hnotStarts : ¬ pattern <+: x :: (before ++ pattern ++ after) := by
        intro hstarts
        have hshort : pattern <+: x :: before ++ pattern.dropLast := by
          refine List.prefix_of_prefix_length_le hstarts ?_ ?_
          · refine ⟨pattern.getLast hne :: after, ?_⟩
            nth_rewrite 3 [hlast]
            simp
          · have hpos := List.length_pos_of_ne_nil hne
            simp only [List.length_append, List.length_cons, List.length_dropLast]
            omega
        exact hearlier hshort.isInfix
      have htail : ¬ pattern <:+: before ++ pattern.dropLast := fun hoccurs =>
        hearlier (hoccurs.trans (List.suffix_cons x _).isInfix)
      rw [List.cons_append, List.cons_append, find_cons_of_not_starts hnotStarts, ih htail]
      rfl

/-- Nothing before a first occurrence contains the pattern. -/
theorem not_infix_take_of_find {pattern s : List α} {position : ℕ} (hne : pattern ≠ [])
    (hfind : find pattern s = some position) : ¬ pattern <:+: s.take position := by
  intro hoccurs
  have hfound : find pattern (s.take position) ≠ none := fun hnone =>
    find_eq_none_iff.mp hnone hoccurs
  obtain ⟨earlier, hearlier⟩ := Option.ne_none_iff_exists'.mp hfound
  have hagain := find_append hearlier (s.drop position)
  rw [List.take_append_drop, hfind] at hagain
  cases hagain
  have hle := find_le hearlier
  have hpos := List.length_pos_of_ne_nil hne
  rw [List.length_take] at hle
  omega

/-! ### Patterns of one symbol and of two different symbols -/

omit [DecidableEq α] in
theorem infix_singleton_iff {symbol : α} {s : List α} : [symbol] <:+: s ↔ symbol ∈ s := by
  constructor
  · intro hoccurs
    exact hoccurs.subset (by simp)
  · intro hmem
    obtain ⟨before, after, rfl⟩ := List.append_of_mem hmem
    exact ⟨before, after, by simp⟩

theorem find_symbol {symbol : α} {before : List α} (hmem : symbol ∉ before) (after : List α) :
    find [symbol] (before ++ symbol :: after) = some before.length := by
  have hearlier : ¬ [symbol] <:+: before ++ [symbol].dropLast := by
    simpa [infix_singleton_iff] using hmem
  simpa using find_append_pattern (by simp) hearlier after

theorem not_mem_take_of_find {symbol : α} {s : List α} {position : ℕ}
    (hfind : find [symbol] s = some position) : symbol ∉ s.take position := fun hmem =>
  not_infix_take_of_find (by simp) hfind (infix_singleton_iff.mpr hmem)

theorem find_symbol_eq_none_iff {symbol : α} {s : List α} :
    find [symbol] s = none ↔ symbol ∉ s := by
  rw [find_eq_none_iff, infix_singleton_iff]

/-- Two different symbols cannot overlap themselves, so it is enough that they
do not occur before. -/
theorem find_pair {first second : α} (hne : first ≠ second) {before : List α}
    (hbefore : ¬ [first, second] <:+: before) (after : List α) :
    find [first, second] (before ++ [first, second] ++ after) = some before.length := by
  refine find_append_pattern (by simp) ?_ after
  rintro ⟨u, v, huv⟩
  cases v using List.reverseRecOn with
  | nil =>
      have hend := congrArg List.getLast? huv
      simp at hend
      exact hne hend.symm
  | append_singleton v last _ =>
      have hinit := congrArg List.dropLast huv
      simp only [← List.append_assoc, List.dropLast_concat] at hinit
      refine hbefore ⟨u, v, ?_⟩
      simpa using hinit

/-! ## Last occurrence of a symbol -/

theorem rfind_eq_none_iff {symbol : α} {s : List α} :
    rfind symbol s = none ↔ symbol ∉ s := by
  induction s with
  | nil => simp [rfind]
  | cons x xs ih =>
      cases hrest : rfind symbol xs with
      | some position =>
          have hmem : symbol ∈ xs := by
            by_contra hnot
            simp [ih.mpr hnot] at hrest
          simp [rfind, hrest, hmem]
      | none =>
          have hmem := ih.mp hrest
          by_cases hx : x = symbol
          · simp [rfind, hrest, hx]
          · simp [rfind, hrest, hx, hmem, Ne.symm hx]

theorem rfind_append {symbol : α} (before : List α) {after : List α} (hmem : symbol ∉ after) :
    rfind symbol (before ++ symbol :: after) = some before.length := by
  induction before with
  | nil => simp [rfind, rfind_eq_none_iff.mpr hmem]
  | cons x before ih => simp [rfind, ih]

omit [DecidableEq α] in
/-- A list with a symbol splits around its last occurrence. -/
theorem exists_last_split {symbol : α} {s : List α} (hmem : symbol ∈ s) :
    ∃ before after, s = before ++ symbol :: after ∧ symbol ∉ after := by
  obtain ⟨front, back, hsplit, hfront⟩ :=
    List.eq_append_cons_of_mem (List.mem_reverse.mpr hmem)
  refine ⟨back.reverse, front.reverse, ?_, by simpa using hfront⟩
  have hreverse := congrArg List.reverse hsplit
  simpa using hreverse

/-- The position found splits the list around the last occurrence. -/
theorem eq_of_rfind {symbol : α} {s : List α} {position : ℕ}
    (hfind : rfind symbol s = some position) :
    s = s.take position ++ symbol :: s.drop (position + 1) ∧
      symbol ∉ s.drop (position + 1) := by
  have hmem : symbol ∈ s := by
    by_contra hnot
    simp [rfind_eq_none_iff.mpr hnot] at hfind
  obtain ⟨before, after, rfl, hafter⟩ := exists_last_split hmem
  rw [rfind_append before hafter] at hfind
  cases hfind
  simpa using hafter

/-! ## The text around an occurrence -/

/-- The list up to the first `symbol`. -/
def beforeFirst (symbol : α) (s : List α) : List α :=
  s.takeWhile (· ≠ symbol)

/-- The list behind the first `symbol`. -/
def afterFirst (symbol : α) (s : List α) : List α :=
  (s.dropWhile (· ≠ symbol)).drop 1

/-- The list up to the last `symbol`. -/
def beforeLast (symbol : α) (s : List α) : List α :=
  (s.rdropWhile (· ≠ symbol)).dropLast

/-- The list behind the last `symbol`. -/
def afterLast (symbol : α) (s : List α) : List α :=
  s.rtakeWhile (· ≠ symbol)

theorem beforeFirst_append {symbol : α} {before : List α} (hmem : symbol ∉ before)
    (after : List α) : beforeFirst symbol (before ++ symbol :: after) = before := by
  have hall : ∀ x ∈ before, decide (x ≠ symbol) = true := fun x hx => by
    simpa using fun heq : x = symbol => hmem (heq ▸ hx)
  rw [beforeFirst, List.takeWhile_append_of_pos hall]
  simp

theorem afterFirst_append {symbol : α} {before : List α} (hmem : symbol ∉ before)
    (after : List α) : afterFirst symbol (before ++ symbol :: after) = after := by
  have hall : ∀ x ∈ before, decide (x ≠ symbol) = true := fun x hx => by
    simpa using fun heq : x = symbol => hmem (heq ▸ hx)
  rw [afterFirst, List.dropWhile_append_of_pos hall]
  simp

theorem beforeLast_append {symbol : α} (before : List α) {after : List α}
    (hmem : symbol ∉ after) : beforeLast symbol (before ++ symbol :: after) = before := by
  have hall : ∀ x ∈ after.reverse, decide (x ≠ symbol) = true := fun x hx => by
    simpa using fun heq : x = symbol => hmem (heq ▸ List.mem_reverse.mp hx)
  rw [beforeLast, List.rdropWhile, List.reverse_append, List.reverse_cons, List.append_assoc,
    List.dropWhile_append_of_pos hall]
  simp

theorem afterLast_append {symbol : α} (before : List α) {after : List α}
    (hmem : symbol ∉ after) : afterLast symbol (before ++ symbol :: after) = after := by
  have hall : ∀ x ∈ after.reverse, decide (x ≠ symbol) = true := fun x hx => by
    simpa using fun heq : x = symbol => hmem (heq ▸ List.mem_reverse.mp hx)
  rw [afterLast, List.rtakeWhile, List.reverse_append, List.reverse_cons, List.append_assoc,
    List.takeWhile_append_of_pos hall]
  simp

/-- The position of the first occurrence cuts off the text before and behind it. -/
theorem text_of_find {symbol : α} {s : List α} {position : ℕ}
    (hfind : find [symbol] s = some position) :
    s.take position = beforeFirst symbol s ∧ s.drop (position + 1) = afterFirst symbol s := by
  have hsplit := eq_of_find hfind
  have hmem := not_mem_take_of_find hfind
  rw [List.append_assoc, List.singleton_append, List.length_singleton] at hsplit
  constructor
  · conv_rhs => rw [hsplit, beforeFirst_append hmem]
  · conv_rhs => rw [hsplit, afterFirst_append hmem]

/-- The position of the last occurrence cuts off the text before and behind it. -/
theorem text_of_rfind {symbol : α} {s : List α} {position : ℕ}
    (hfind : rfind symbol s = some position) :
    s.take position = beforeLast symbol s ∧ s.drop (position + 1) = afterLast symbol s := by
  obtain ⟨hsplit, hmem⟩ := eq_of_rfind hfind
  constructor
  · conv_rhs => rw [hsplit, beforeLast_append _ hmem]
  · conv_rhs => rw [hsplit, afterLast_append _ hmem]

/-- Two occurrences are an occurrence, text without it on both sides, and
arbitrary text between. -/
theorem two_le_count_iff {symbol : α} {s : List α} :
    2 ≤ s.count symbol ↔ ∃ first middle last,
      s = first ++ symbol :: (middle ++ symbol :: last) ∧ symbol ∉ first ∧ symbol ∉ last := by
  constructor
  · intro hcount
    have hmem : symbol ∈ s := List.count_pos_iff.mp (by omega)
    obtain ⟨first, rest, rfl, hfirst⟩ := List.eq_append_cons_of_mem hmem
    have hrest : symbol ∈ rest := by
      rw [List.count_append, List.count_eq_zero_of_not_mem hfirst, List.count_cons_self] at hcount
      exact List.count_pos_iff.mp (by omega)
    obtain ⟨middle, last, rfl, hlast⟩ := exists_last_split hrest
    exact ⟨first, middle, last, rfl, hfirst, hlast⟩
  · rintro ⟨first, middle, last, rfl, -, -⟩
    simp only [List.count_append, List.count_cons_self]
    omega

omit [DecidableEq α] in
/-- A list with a match has a last match. -/
theorem exists_find_reverse (matching : α → Bool) {s : List α} {x : α} (hmem : x ∈ s)
    (hx : matching x = true) :
    ∃ last ∈ s, s.reverse.find? matching = some last ∧ matching last = true := by
  have hfound : (s.reverse.find? matching).isSome := by
    rw [List.find?_isSome]
    exact ⟨x, List.mem_reverse.mpr hmem, hx⟩
  obtain ⟨last, hlast⟩ := Option.isSome_iff_exists.mp hfound
  exact ⟨last, List.mem_reverse.mp (List.mem_of_find?_eq_some hlast), hlast,
    List.find?_some hlast⟩

end EpollHttpServer.Lib
