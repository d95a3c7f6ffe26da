import Mathlib

/-!
# Dividing a number into parts

`n` things are divided into `c` parts whose sizes differ by at most one, the larger ones first
(`share`), and laid out one part after the other (`offset`).
-/

namespace Division

variable {n c i x : ℕ}

/-! ## Shares -/

/-- The size of part `i`. -/
def share (n c i : ℕ) : ℕ := n / c + if i < n % c then 1 else 0

/-- Where part `i` starts. -/
def offset (n c i : ℕ) : ℕ := i * (n / c) + min i (n % c)

@[simp] theorem offset_zero : offset n c 0 = 0 := by simp [offset]

theorem offset_succ : offset n c (i + 1) = offset n c i + share n c i := by
  unfold offset share
  rw [Nat.succ_mul]
  split_ifs <;> omega

/-- The last part ends where everything does. -/
theorem offset_self (hc : 0 < c) : offset n c c = n := by
  unfold offset
  rw [min_eq_right (Nat.mod_lt n hc).le]
  exact Nat.div_add_mod n c

theorem offset_mono : Monotone (offset n c) :=
  monotone_nat_of_le_succ fun i => by
    rw [offset_succ]
    exact Nat.le_add_right _ _

/-- Where there is something to divide, the first part gets some of it. -/
theorem share_zero_pos (hn : 0 < n) : 0 < share n c 0 := by
  unfold share
  rcases Nat.eq_zero_or_pos (n % c) with hmod | hmod
  · have hdiv : 0 < n / c := by
      refine Nat.pos_of_ne_zero fun hdiv => ?_
      have hsum := Nat.div_add_mod n c
      rw [hdiv, hmod] at hsum
      omega
    omega
  · rw [if_pos hmod]
    exact Nat.succ_pos _

/-- No part is empty exactly if there are no more parts than things. -/
theorem forall_share_pos (hc : 0 < c) : (∀ i < c, 0 < share n c i) ↔ c ≤ n := by
  unfold share
  constructor
  · intro h
    have hlast := h (c - 1) (by omega)
    have hmod := Nat.mod_lt n hc
    rw [if_neg (by omega)] at hlast
    exact (Nat.div_pos_iff.mp hlast).2
  · intro hle i _
    have hdiv : 0 < n / c := Nat.div_pos hle hc
    omega

/-! ## Layouts -/

/-- What lies between two values of a monotone sequence lies between two successive ones, and only
there. -/
theorem existsUnique_between {f : ℕ → ℕ} (hf : Monotone f) (h₀ : f 0 ≤ x) (hc : x < f c) :
    ∃! i, f i ≤ x ∧ x < f (i + 1) := by
  have hex : ∃ i, f i ≤ x ∧ x < f (i + 1) := by
    induction c with
    | zero => exact absurd hc (not_lt.mpr h₀)
    | succ c ih =>
      by_cases hlt : x < f c
      · exact ih hlt
      · exact ⟨c, not_lt.mp hlt, hc⟩
  obtain ⟨i, hi, hi'⟩ := hex
  refine ⟨i, ⟨hi, hi'⟩, fun j ⟨hj, hj'⟩ => ?_⟩
  rcases lt_trichotomy j i with hlt | rfl | hlt
  · exact absurd ((hf hlt).trans hi) (not_le.mpr hj')
  · rfl
  · exact absurd ((hf hlt).trans hj) (not_le.mpr hi')

end Division
