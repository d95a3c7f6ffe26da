import Mathlib

/-!
# Decimal fields

Numbers written with a fixed number of decimal digits, and read back from the front of a text; and
decimal fractions, written without the zeros at their end.
-/

namespace Decimal

/-- The last `w` decimal digits of `n`, zeros included. -/
def pad : ℕ → ℕ → List Char
  | 0, _ => []
  | w + 1, n => pad w (n / 10) ++ [(n % 10).digitChar]

@[simp] theorem length_pad (w n : ℕ) : (pad w n).length = w := by
  induction w generalizing n with
  | zero => rfl
  | succ w ih => rw [pad, List.length_append, ih, List.length_singleton]

theorem isDigit_of_mem_pad {w n : ℕ} {c : Char} (h : c ∈ pad w n) : c.isDigit = true := by
  induction w generalizing n with
  | zero => cases h
  | succ w ih =>
    rw [pad, List.mem_append, List.mem_singleton] at h
    rcases h with h | rfl
    · exact ih h
    · rw [Nat.isDigit_digitChar, decide_eq_true_eq]
      omega

theorem exists_pad_eq_cons {w : ℕ} (h : 0 < w) (n : ℕ) :
    ∃ c cs, pad w n = c :: cs ∧ c.isDigit = true := by
  cases hpad : pad w n with
  | nil =>
    have hlen := length_pad w n
    rw [hpad, List.length_nil] at hlen
    omega
  | cons c cs => exact ⟨c, cs, rfl, isDigit_of_mem_pad (hpad ▸ List.mem_cons_self)⟩

/-- The digits of a number that fits into the field give the number back. -/
theorem ofDigitChars_pad {w n : ℕ} (h : n < 10 ^ w) : Nat.ofDigitChars 10 (pad w n) 0 = n := by
  induction w generalizing n with
  | zero =>
    rw [pow_zero] at h
    obtain rfl : n = 0 := by omega
    rfl
  | succ w ih =>
    rw [pad, Nat.ofDigitChars_append, ih (by omega),
      Nat.ofDigitChars_cons_digitChar_of_lt_ten (Nat.mod_lt _ (by omega)), Nat.ofDigitChars_nil]
    omega

/-! ## Reading -/

/-- Reads `w` digits from the front of a text. -/
def readExactly (w : ℕ) (input : List Char) : Option (ℕ × List Char) :=
  if (input.take w).length = w ∧ (input.take w).all Char.isDigit = true then
    some (Nat.ofDigitChars 10 (input.take w) 0, input.drop w)
  else none

theorem readExactly_pad {w n : ℕ} (h : n < 10 ^ w) (rest : List Char) :
    readExactly w (pad w n ++ rest) = some (n, rest) := by
  have htake : (pad w n ++ rest).take w = pad w n := List.take_left' (length_pad w n)
  have hdrop : (pad w n ++ rest).drop w = rest := List.drop_left' (length_pad w n)
  unfold readExactly
  rw [htake, hdrop, ofDigitChars_pad h, if_pos]
  exact ⟨length_pad w n, List.all_eq_true.mpr fun c hc => isDigit_of_mem_pad hc⟩

/-- Reads the digits of a fraction from the front of a text, one at least, as a number of units of
the digit at place `places`. What comes after that digit is read over. -/
def readFraction (places : ℕ) (input : List Char) : Option (ℕ × List Char) :=
  let digits := input.takeWhile Char.isDigit
  if digits = [] then none
  else
    some (Nat.ofDigitChars 10 (digits.take places) 0 * 10 ^ (places - digits.length),
      input.dropWhile Char.isDigit)

theorem readFraction_pad {places w n : ℕ} (hw : 0 < w) (hle : w ≤ places) (h : n < 10 ^ w)
    {rest : List Char} (hrest : ∀ c ∈ rest.head?, c.isDigit = false) :
    readFraction places (pad w n ++ rest) = some (n * 10 ^ (places - w), rest) := by
  have hall : ∀ c ∈ pad w n, c.isDigit = true := fun c hc => isDigit_of_mem_pad hc
  have hnil : rest.takeWhile Char.isDigit = [] ∧ rest.dropWhile Char.isDigit = rest := by
    cases rest with
    | nil => exact ⟨rfl, rfl⟩
    | cons c rest =>
      have hc := hrest c rfl
      exact ⟨List.takeWhile_cons_of_neg (by simp [hc]), List.dropWhile_cons_of_neg (by simp [hc])⟩
  have htake : (pad w n ++ rest).takeWhile Char.isDigit = pad w n := by
    rw [List.takeWhile_append_of_pos hall, hnil.1, List.append_nil]
  have hdrop : (pad w n ++ rest).dropWhile Char.isDigit = rest := by
    rw [List.dropWhile_append_of_pos hall, hnil.2]
  have hne : pad w n ≠ [] := by
    obtain ⟨c, cs, hcons, -⟩ := exists_pad_eq_cons hw n
    rw [hcons]
    exact List.cons_ne_nil c cs
  unfold readFraction
  simp only
  rw [htake, hdrop, if_neg hne, List.take_of_length_le (by rw [length_pad]; exact hle),
    ofDigitChars_pad h, length_pad]

/-! ## Fractions without zeros at the end -/

/-- The fraction `n` of `w + 1` digits with as few digits as give its value, one at least. -/
def trimmed : ℕ → ℕ → List Char
  | 0, n => pad 1 n
  | w + 1, n => if n % 10 = 0 then trimmed w (n / 10) else pad (w + 2) n

/-- A trimmed fraction is a field of at most its digits, and has no zero at its end unless it has
one digit only. -/
theorem trimmed_spec (w n : ℕ) : ∃ k m, 0 < k ∧ k ≤ w + 1 ∧ n = m * 10 ^ (w + 1 - k) ∧
    (k = 1 ∨ m % 10 ≠ 0) ∧ trimmed w n = pad k m := by
  induction w generalizing n with
  | zero => exact ⟨1, n, Nat.one_pos, le_refl 1, (Nat.mul_one n).symm, .inl rfl, rfl⟩
  | succ w ih =>
    unfold trimmed
    split_ifs with hzero
    · obtain ⟨k, m, hk, hle, hn, hlast, htext⟩ := ih (n / 10)
      refine ⟨k, m, hk, by omega, ?_, hlast, htext⟩
      rw [show w + 1 + 1 - k = w + 1 - k + 1 by omega, pow_succ, ← mul_assoc, ← hn]
      omega
    · exact ⟨w + 2, n, by omega, le_refl _, by simp, .inr hzero, rfl⟩

end Decimal
