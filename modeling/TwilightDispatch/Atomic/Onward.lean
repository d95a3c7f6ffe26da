import TwilightDispatch.Atomic.Succeeds

/-!
# Pools that go on

What happens to a pool from one moment to a later one (`Onward`). If every command that the programs may
issue is a move they all rely on, each program still meets its postcondition, and the state has moved along
what is relied on (`Onward.sound`).
-/

namespace Atomic

variable {I : Interface} {α S : Type} {exec : Exec I S} {ok : Prog I α → Prop}

/-- `Onward exec ok tasks s tasks' s'`: programs with `ok` are started and commands are executed, in any
order, which leads from the pool `tasks` and the state `s` to `tasks'` and `s'`. -/
inductive Onward (exec : Exec I S) (ok : Prog I α → Prop) (tasks : List (Prog I α)) (s : S) :
    List (Prog I α) → S → Prop
  | refl : Onward exec ok tasks s tasks s
  | start {p : Prog I α} {tasks' : List (Prog I α)} {s' : S} (hp : ok p)
      (h : Onward exec ok tasks s tasks' s') : Onward exec ok tasks s (tasks' ++ [p]) s'
  | step {i : ℕ} {c : I.Cmd} {k : I.Reply c → Prog I α} {tasks' : List (Prog I α)} {s' : S}
      (hi : tasks'[i]? = some (.cmd c k)) (h : Onward exec ok tasks s tasks' s') :
      Onward exec ok tasks s (tasks'.set i (k (exec c s').1)) (exec c s').2

/-- A pool that is reached is one that the empty pool goes on to. -/
theorem Reached.onward {s₀ s : S} {tasks : List (Prog I α)} (h : Reached exec ok s₀ tasks s) :
    Onward exec ok [] s₀ tasks s := by
  induction h with
  | init => exact .refl
  | start hp _ ih => exact ih.start hp
  | step hi _ ih => exact ih.step hi

theorem Onward.length_le {tasks tasks' : List (Prog I α)} {s s' : S}
    (h : Onward exec ok tasks s tasks' s') : tasks.length ≤ tasks'.length := by
  induction h with
  | refl => exact le_refl _
  | start _ _ ih =>
    rw [List.length_append]
    exact Nat.le_add_right_of_le ih
  | step _ _ ih => rwa [List.length_set]

/-- A program of the pool may be run to its end at once. -/
theorem Onward.returns {tasks tasks' : List (Prog I α)} {s s' : S} {i : ℕ} {p : Prog I α}
    (h : Onward exec ok tasks s tasks' s') (hi : tasks'[i]? = some p) :
    ∃ tasks'', Onward exec ok tasks s tasks'' (p.run exec s').2 ∧
      tasks''[i]? = some (.ret (p.run exec s').1) := by
  induction p generalizing s' tasks' with
  | ret a => exact ⟨tasks', h, hi⟩
  | cmd c k ih =>
    have hlt : i < tasks'.length := (List.getElem?_eq_some_iff.mp hi).1
    exact ih _ (h.step hi) (List.getElem?_set_self hlt)

section Sound

variable {rely : S → S → Prop} {allow : I.Cmd → Prop} {Q : ℕ → α → S → Prop} {Inv : S → Prop}
  {tasks tasks' : List (Prog I α)} {s s' : S} {i : ℕ} [Std.Refl rely] [IsTrans S rely]

/-- Every program of the pool meets its postcondition if the others only make moves along `rely`. -/
def Meets (exec : Exec I S) (rely : S → S → Prop) (allow : I.Cmd → Prop) (Q : ℕ → α → S → Prop)
    (tasks : List (Prog I α)) (s : S) : Prop :=
  ∀ i p, tasks[i]? = some p → Wp exec rely (fun c _ => allow c) p (Q i) s

omit [IsTrans S rely] in
theorem Meets.of_ret {a : α} (h : Meets exec rely allow Q tasks s) (ha : tasks[i]? = some (.ret a)) :
    Q i a s := h i _ ha s (Std.Refl.refl s)

omit [Std.Refl rely] [IsTrans S rely] in
theorem Meets.start {p : Prog I α} (h : Meets exec rely allow Q tasks s)
    (hp : Wp exec rely (fun c _ => allow c) p (Q tasks.length) s) :
    Meets exec rely allow Q (tasks ++ [p]) s := by
  intro j q hj
  rcases lt_or_ge j tasks.length with hlt | hge
  · rw [List.getElem?_append_left hlt] at hj
    exact h j q hj
  · have hlength := (List.getElem?_eq_some_iff.mp hj).1
    rw [List.length_append, List.length_singleton] at hlength
    obtain rfl : j = tasks.length := by omega
    rw [List.getElem?_concat_length] at hj
    obtain rfl := Option.some.inj hj
    exact hp

/-- A command of a program is a move, after which every program still meets its postcondition. -/
theorem Meets.step {c : I.Cmd} {k : I.Reply c → Prog I α} (h : Meets exec rely allow Q tasks s)
    (hmove : allow c → rely s (exec c s).2) (hi : tasks[i]? = some (.cmd c k)) :
    rely s (exec c s).2 ∧ Meets exec rely allow Q (tasks.set i (k (exec c s).1)) (exec c s).2 := by
  obtain ⟨hc, hk⟩ := h i _ hi s (Std.Refl.refl s)
  refine ⟨hmove hc, fun j q hj => ?_⟩
  by_cases hij : i = j
  · subst hij
    rw [List.getElem?_set_self (List.getElem?_eq_some_iff.mp hi).1] at hj
    obtain rfl := Option.some.inj hj
    exact hk
  · rw [List.getElem?_set_ne hij] at hj
    exact (h j q hj).of_rely (hmove hc)

/-- What the programs rely on leads from each moment to every later one. -/
theorem Onward.sound (hok : ∀ i, tasks.length ≤ i → ∀ p, ok p → ∀ s, Inv s →
      Wp exec rely (fun c _ => allow c) p (Q i) s)
    (hmove : ∀ c s, Inv s → allow c → rely s (exec c s).2)
    (hInv : ∀ s s', rely s s' → Inv s → Inv s') (h : Onward exec ok tasks s tasks' s') (hs : Inv s)
    (hmeets : Meets exec rely allow Q tasks s) :
    rely s s' ∧ Meets exec rely allow Q tasks' s' := by
  induction h with
  | refl => exact ⟨Std.Refl.refl s, hmeets⟩
  | @start p tasks' s' hp h ih =>
    obtain ⟨hrely, hall⟩ := ih
    exact ⟨hrely, hall.start (hok _ h.length_le p hp s' (hInv s s' hrely hs))⟩
  | @step i c k tasks' s' hi _ ih =>
    obtain ⟨hrely, hall⟩ := ih
    obtain ⟨hnext, hall'⟩ := hall.step (hmove c s' (hInv s s' hrely hs)) hi
    exact ⟨IsTrans.trans _ _ _ hrely hnext, hall'⟩

end Sound

end Atomic
