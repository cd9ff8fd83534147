/-
# Decimal numerals

`operator<<` writes a number as its decimal numeral and `strtol` reads one
back.  The reader is the more liberal of the two: it skips white space, takes a
sign and stops at the first byte that is not a digit.  On a text that consists
of white space, digits and something else, it returns the number of the digits.
-/

import EpollHttpServer.Http.Response

namespace EpollHttpServer.Http

/-! ## Writing -/

theorem decimal_of_lt {n : ℕ} (hlt : n < 10) : decimal n = [UInt8.ofNat (48 + n)] := by
  unfold decimal
  split
  · next hzero =>
    subst hzero
    rfl
  · next hne =>
    rw [Nat.digits_of_lt 10 n hne hlt]
    rfl

theorem decimal_of_le {n : ℕ} (hle : 10 ≤ n) :
    decimal n = decimal (n / 10) ++ [UInt8.ofNat (48 + n % 10)] := by
  have hne : n ≠ 0 := by omega
  have hrest : n / 10 ≠ 0 := by omega
  unfold decimal
  rw [if_neg hne, if_neg hrest, Nat.digits_def' (by decide) (by omega)]
  simp

theorem toNat_digit {d : ℕ} (hlt : d < 10) : (UInt8.ofNat (48 + d)).toNat = 48 + d := by
  rw [UInt8.toNat_ofNat']
  omega

theorem isDigit_iff {b : UInt8} : isDigit b = true ↔ 48 ≤ b.toNat ∧ b.toNat ≤ 57 := by
  rw [isDigit, decide_eq_true_iff, UInt8.le_iff_toNat_le, UInt8.le_iff_toNat_le]
  exact Iff.rfl

theorem isDigit_digit {d : ℕ} (hlt : d < 10) : isDigit (UInt8.ofNat (48 + d)) = true := by
  rw [isDigit_iff, toNat_digit hlt]
  omega

theorem decimal_ne_nil (n : ℕ) : decimal n ≠ [] := by
  by_cases hlt : n < 10
  · rw [decimal_of_lt hlt]
    exact List.cons_ne_nil _ _
  · rw [decimal_of_le (not_lt.mp hlt)]
    exact List.append_ne_nil_of_right_ne_nil _ (List.cons_ne_nil _ _)

theorem isDigit_of_mem_decimal {n : ℕ} {b : UInt8} (hmem : b ∈ decimal n) :
    isDigit b = true := by
  induction n using Nat.strongRecOn with
  | _ n ih =>
      by_cases hlt : n < 10
      · rw [decimal_of_lt hlt, List.mem_singleton] at hmem
        rw [hmem]
        exact isDigit_digit hlt
      · rw [decimal_of_le (not_lt.mp hlt), List.mem_append, List.mem_singleton] at hmem
        rcases hmem with hfront | hlast
        · exact ih (n / 10) (by omega) hfront
        · rw [hlast]
          exact isDigit_digit (Nat.mod_lt n (by decide))

theorem digitsValue_concat (digits : Bytes) (b : UInt8) :
    digitsValue (digits ++ [b]) = 10 * digitsValue digits + (b.toNat - 48) := by
  simp [digitsValue]

/-- The numeral of a number denotes it. -/
theorem digitsValue_decimal (n : ℕ) : digitsValue (decimal n) = n := by
  induction n using Nat.strongRecOn with
  | _ n ih =>
      by_cases hlt : n < 10
      · rw [decimal_of_lt hlt]
        have hdigit := toNat_digit hlt
        simp only [digitsValue, List.foldl_cons, List.foldl_nil]
        omega
      · have hdigit := toNat_digit (Nat.mod_lt n (by decide : 0 < 10))
        rw [decimal_of_le (not_lt.mp hlt), digitsValue_concat, ih (n / 10) (by omega)]
        omega

/-- The bytes of a number, sign included, are printable. -/
theorem lt_of_mem_decimalInt {z : ℤ} {b : UInt8} (hmem : b ∈ decimalInt z) : 32 < b.toNat := by
  have hdigits {n : ℕ} (hmem : b ∈ decimal n) : 32 < b.toNat := by
    have hdigit := isDigit_iff.mp (isDigit_of_mem_decimal hmem)
    omega
  unfold decimalInt at hmem
  split at hmem
  · rcases List.mem_cons.mp hmem with rfl | hrest
    · decide
    · exact hdigits hrest
  · exact hdigits hmem

/-! ## Reading -/

theorem isSpace_of_isDigit {b : UInt8} (hdigit : isDigit b = true) : isSpace b = false := by
  rw [isDigit_iff] at hdigit
  rw [isSpace, decide_eq_false_iff_not]
  rintro (rfl | ⟨-, hle⟩)
  · exact absurd hdigit.1 (by decide)
  · have htoNat : b.toNat ≤ 13 := UInt8.le_iff_toNat_le.mp hle
    omega

theorem splitSign_of_isDigit {b : UInt8} (hdigit : isDigit b = true) (rest : Bytes) :
    splitSign (b :: rest) = (false, b :: rest) := by
  rw [isDigit_iff] at hdigit
  have hminus : b ≠ 45 := by
    rintro rfl
    exact absurd hdigit.1 (by decide)
  have hplus : b ≠ 43 := by
    rintro rfl
    exact absurd hdigit.1 (by decide)
  rw [splitSign, if_neg hminus, if_neg hplus]

/-- `strtol` on a text that begins with digits reads all of them. -/
theorem strtol_of_digits {digits : Bytes} (rest : Bytes) (hne : digits ≠ [])
    (hdigits : ∀ b ∈ digits, isDigit b = true) (hrest : ∀ b ∈ rest.head?, isDigit b = false) :
    strtol (digits ++ rest) = some (min longMax (digitsValue digits)) := by
  have hnonzero : ∀ b ∈ digits, decide (b ≠ 0) = true := by
    intro b hmem
    have hdigit := isDigit_iff.mp (hdigits b hmem)
    rw [decide_eq_true_iff]
    rintro rfl
    exact absurd hdigit.1 (by decide)
  have hstop : (rest.takeWhile (· ≠ 0)).takeWhile isDigit = [] := by
    cases rest with
    | nil => rfl
    | cons b rest =>
        have hb := hrest b rfl
        by_cases hzero : b = 0
        · simp [hzero]
        · rw [List.takeWhile_cons_of_pos (by simpa using hzero),
            List.takeWhile_cons_of_neg (by simp [hb])]
  obtain ⟨first, others, hsplit⟩ := List.exists_cons_of_ne_nil hne
  have hfirst : isDigit first = true := hdigits first (hsplit ▸ List.mem_cons_self ..)
  have htext : ((digits ++ rest).takeWhile (· ≠ 0)).dropWhile isSpace =
      first :: (others ++ rest.takeWhile (· ≠ 0)) := by
    rw [List.takeWhile_append_of_pos hnonzero, hsplit, List.cons_append,
      List.dropWhile_cons_of_neg (by simp [isSpace_of_isDigit hfirst])]
  have hread : (first :: (others ++ rest.takeWhile (· ≠ 0))).takeWhile isDigit = digits := by
    rw [← List.cons_append, ← hsplit, List.takeWhile_append_of_pos hdigits, hstop,
      List.append_nil]
  have hnonneg : (0 : ℤ) ≤ digitsValue digits := Int.natCast_nonneg _
  have hmax : longMin ≤ min longMax (digitsValue digits) :=
    le_min (by decide) (le_trans (by decide) hnonneg)
  unfold strtol
  simp only [htext, splitSign_of_isDigit hfirst, hread, hne, if_false, Bool.false_eq_true,
    max_eq_right hmax]

/-- `strtol` reads back what `operator<<` has written. -/
theorem strtol_decimal {n : ℕ} (hle : (n : ℤ) ≤ longMax) : strtol (decimal n) = some (n : ℤ) := by
  have hread := strtol_of_digits [] (decimal_ne_nil n)
    (fun b hmem => isDigit_of_mem_decimal hmem) (by simp)
  rw [List.append_nil, digitsValue_decimal, min_eq_right hle] at hread
  exact hread

end EpollHttpServer.Http
