import Mathlib.Algebra.Order.Monoid.Defs
import Mathlib.Tactic.GCongr

/-!
# Pacing

A server takes what arrives in turn and leaves a gap after each. `slot gap arrival k` is the earliest
time at which it can serve the `k`th: no sooner than it arrives, and no sooner than a gap after the one
before (`slot_le_of_paced`).
-/

namespace Pace

variable {τ : Type*} [AddCommMonoid τ] [LinearOrder τ] {gap : τ} {arrival arrival' : ℕ → τ}
  {k l : ℕ}

/-- The earliest time for the `k`th. -/
def slot (gap : τ) (arrival : ℕ → τ) : ℕ → τ
  | 0 => arrival 0
  | k + 1 => max (arrival (k + 1)) (slot gap arrival k + gap)

theorem arrival_le_slot (gap : τ) (arrival : ℕ → τ) (k : ℕ) : arrival k ≤ slot gap arrival k := by
  cases k with
  | zero => exact le_refl _
  | succ k => exact le_max_left _ _

theorem slot_add_le (gap : τ) (arrival : ℕ → τ) (k : ℕ) :
    slot gap arrival k + gap ≤ slot gap arrival (k + 1) :=
  le_max_right _ _

variable [IsOrderedAddMonoid τ]

theorem slot_le_slot (hgap : 0 ≤ gap) (arrival : ℕ → τ) (h : k ≤ l) :
    slot gap arrival k ≤ slot gap arrival l := by
  induction h with
  | refl => exact le_refl _
  | step _ ih => exact ih.trans ((le_add_of_nonneg_right hgap).trans (slot_add_le _ _ _))

/-- What arrives later is not served sooner. -/
theorem slot_mono (h : ∀ j ≤ k, arrival j ≤ arrival' j) : slot gap arrival k ≤ slot gap arrival' k := by
  induction k with
  | zero => exact h 0 (le_refl 0)
  | succ k ih =>
    refine max_le_max (h _ (le_refl _)) ?_
    gcongr
    exact ih fun j hj => h j (Nat.le_succ_of_le hj)

/-- Whoever serves in turn and leaves the gaps serves nothing before its slot. -/
theorem slot_le_of_paced {time : ℕ → τ} (harrival : ∀ j ≤ k, arrival j ≤ time j)
    (hgap : ∀ j < k, time j + gap ≤ time (j + 1)) : slot gap arrival k ≤ time k := by
  induction k with
  | zero => exact harrival 0 (le_refl 0)
  | succ k ih =>
    have hbefore : slot gap arrival k ≤ time k :=
      ih (fun j hj => harrival j (Nat.le_succ_of_le hj)) fun j hj => hgap j (Nat.lt_succ_of_lt hj)
    refine max_le (harrival _ (le_refl _)) (le_trans ?_ (hgap k (Nat.lt_succ_self k)))
    gcongr

end Pace
