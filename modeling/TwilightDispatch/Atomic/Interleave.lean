import TwilightDispatch.Atomic.Prog

/-!
# Interleavings and rely-guarantee reasoning

A pool is a list of programs over one state. A schedule names, step by step, the program whose
next command is executed; `Interleave` is the relation between a pool, its schedule and what is
left when every program has returned. In `Reached`, programs are started at any time.

`Wp` is a weakest precondition under interference: before each command the state may have moved
along `rely`, and each command issued must be allowed.
-/

namespace Atomic

variable {I : Interface} {α β S ε : Type} {exec : Exec I S}

/-! ## Pools and schedules -/

/-- `Interleave exec σ tasks s as s'`: executing, from `s`, the commands of `tasks` in the order
of the schedule `σ` lets every task finish, with results `as` and final state `s'`. -/
inductive Interleave (exec : Exec I S) :
    List ℕ → List (Prog I α) → S → List α → S → Prop
  | done (as : List α) (s : S) : Interleave exec [] (as.map .ret) s as s
  | step {i : ℕ} {c : I.Cmd} {k : I.Reply c → Prog I α} {σ : List ℕ} {tasks : List (Prog I α)}
      {s s' : S} {as : List α} (hi : tasks[i]? = some (.cmd c k))
      (h : Interleave exec σ (tasks.set i (k (exec c s).1)) (exec c s).2 as s') :
      Interleave exec (i :: σ) tasks s as s'

/-- Run the programs one after another. -/
def runAll (exec : Exec I S) : List (Prog I α) → S → List α × S
  | [], s => ([], s)
  | p :: ps, s =>
    ((p.run exec s).1 :: (runAll exec ps (p.run exec s).2).1, (runAll exec ps (p.run exec s).2).2)

@[simp] theorem runAll_nil (s : S) : runAll exec ([] : List (Prog I α)) s = ([], s) := rfl

@[simp] theorem runAll_cons (p : Prog I α) (ps : List (Prog I α)) (s : S) :
    runAll exec (p :: ps) s = ((p.run exec s).1 :: (runAll exec ps (p.run exec s).2).1,
      (runAll exec ps (p.run exec s).2).2) := rfl

/-- The result of each program, run after those before it. -/
theorem getElem?_runAll (tasks : List (Prog I α)) (s : S) (i : ℕ) :
    (runAll exec tasks s).1[i]? =
      tasks[i]?.map fun p => (p.run exec (runAll exec (tasks.take i) s).2).1 := by
  induction tasks generalizing s i with
  | nil => rfl
  | cons p ps ih =>
    cases i with
    | zero => rfl
    | succ i => exact ih _ _

theorem Interleave.cons_ret {σ : List ℕ} {tasks : List (Prog I α)} {s s' : S} {as : List α}
    (h : Interleave exec σ tasks s as s') (a : α) :
    Interleave exec (σ.map (· + 1)) (.ret a :: tasks) s (a :: as) s' := by
  induction h with
  | done as s => exact .done (a :: as) s
  | step hi _ ih => exact .step (by simpa using hi) ih

theorem Interleave.run_head {p : Prog I α} {σ : List ℕ} {tasks : List (Prog I α)} {s s' : S}
    {as : List α} (h : Interleave exec σ (.ret (p.run exec s).1 :: tasks) (p.run exec s).2 as s') :
    Interleave exec ((p.trace exec s).map (fun _ => 0) ++ σ) (p :: tasks) s as s' := by
  induction p generalizing s with
  | ret a => exact h
  | cmd c k ih => exact .step rfl (ih _ h)

/-- Running the programs one after another is one of their interleavings. -/
theorem exists_interleave (exec : Exec I S) (tasks : List (Prog I α)) (s : S) :
    ∃ σ, Interleave exec σ tasks s (runAll exec tasks s).1 (runAll exec tasks s).2 := by
  induction tasks generalizing s with
  | nil => exact ⟨[], .done [] s⟩
  | cons p ps ih =>
    obtain ⟨σ, hσ⟩ := ih (p.run exec s).2
    exact ⟨_, (hσ.cons_ret _).run_head⟩

/-- The pools and states reached from `s₀` when programs with `ok` are started at any time and
the commands of those started are executed in any order. -/
inductive Reached (exec : Exec I S) (ok : Prog I α → Prop) (s₀ : S) : List (Prog I α) → S → Prop
  | init : Reached exec ok s₀ [] s₀
  | start {p : Prog I α} {tasks : List (Prog I α)} {s : S} (hp : ok p)
      (h : Reached exec ok s₀ tasks s) : Reached exec ok s₀ (tasks ++ [p]) s
  | step {i : ℕ} {c : I.Cmd} {k : I.Reply c → Prog I α} {tasks : List (Prog I α)} {s : S}
      (hi : tasks[i]? = some (.cmd c k)) (h : Reached exec ok s₀ tasks s) :
      Reached exec ok s₀ (tasks.set i (k (exec c s).1)) (exec c s).2

/-- A started program may be run to its end at once. -/
theorem Reached.run {ok : Prog I α → Prop} {s₀ s : S} {tasks : List (Prog I α)} {i : ℕ}
    {p : Prog I α} (h : Reached exec ok s₀ tasks s) (hi : tasks[i]? = some p) :
    ∃ tasks', Reached exec ok s₀ tasks' (p.run exec s).2 := by
  induction p generalizing s tasks with
  | ret a => exact ⟨tasks, h⟩
  | cmd c k ih =>
    have hlt : i < tasks.length := (List.getElem?_eq_some_iff.mp hi).1
    exact ih _ (h.step hi) (List.getElem?_set_self hlt)

/-! ## Weakest preconditions under interference -/

/-- `Wp exec rely allow p Q s`: from `s`, with the state moving along `rely` before each command
and before the return, every command of `p` is allowed where it is issued, and `Q` holds of the
result and the state in which it is returned. -/
def Wp (exec : Exec I S) (rely : S → S → Prop) (allow : I.Cmd → S → Prop) :
    Prog I α → (α → S → Prop) → S → Prop
  | .ret a, Q, s => ∀ s', rely s s' → Q a s'
  | .cmd c k, Q, s => ∀ s', rely s s' →
      allow c s' ∧ Wp exec rely allow (k (exec c s').1) Q (exec c s').2

section Wp

variable {rely : S → S → Prop} {allow : I.Cmd → S → Prop} {Q Q' : α → S → Prop} {s s' : S}

theorem Wp.of_rely [IsTrans S rely] {p : Prog I α} (h : Wp exec rely allow p Q s)
    (hs : rely s s') : Wp exec rely allow p Q s' := by
  cases p with
  | ret a => exact fun s'' h' => h s'' (IsTrans.trans _ _ _ hs h')
  | cmd c k => exact fun s'' h' => h s'' (IsTrans.trans _ _ _ hs h')

theorem Wp.mono {allow' : I.Cmd → S → Prop} {p : Prog I α} (h : Wp exec rely allow p Q s)
    (ha : ∀ c s, allow c s → allow' c s) (hQ : ∀ a s, Q a s → Q' a s) :
    Wp exec rely allow' p Q' s := by
  induction p generalizing s with
  | ret a => exact fun s' hs => hQ _ _ (h s' hs)
  | cmd c k ih => exact fun s' hs => ⟨ha _ _ (h s' hs).1, ih _ (h s' hs).2⟩

theorem Wp.bind [Std.Refl rely] {p : Prog I α} {f : α → Prog I β} {Q : β → S → Prop}
    (h : Wp exec rely allow p (fun a s => Wp exec rely allow (f a) Q s) s) :
    Wp exec rely allow (p >>= f) Q s := by
  induction p generalizing s with
  | ret a => exact h s (refl s)
  | cmd c k ih => exact fun s' hs => ⟨(h s' hs).1, ih _ (h s' hs).2⟩

end Wp

/-! ## Fallible programs -/

/-- `Wp` of a fallible program, with one postcondition for its results and its errors. -/
abbrev Fallible.Wp (exec : Exec I S) (rely : S → S → Prop) (allow : I.Cmd → S → Prop)
    (x : Fallible I ε α) (Q : Except ε α → S → Prop) (s : S) : Prop :=
  Atomic.Wp exec rely allow (ExceptT.run x) Q s

section FallibleWp

variable {rely : S → S → Prop} {allow : I.Cmd → S → Prop} {s : S}

theorem Fallible.wp_pure {a : α} {Q : Except ε α → S → Prop}
    (h : ∀ s', rely s s' → Q (.ok a) s') :
    Fallible.Wp exec rely allow (pure a : Fallible I ε α) Q s := h

theorem Fallible.wp_throw {e : ε} {Q : Except ε α → S → Prop}
    (h : ∀ s', rely s s' → Q (.error e) s') :
    Fallible.Wp exec rely allow (throw e : Fallible I ε α) Q s := h

theorem Fallible.wp_bind [Std.Refl rely] {x : Fallible I ε α} {f : α → Fallible I ε β}
    {Q : Except ε β → S → Prop}
    (h : Fallible.Wp exec rely allow x (fun r s => match r with
      | .ok a => Fallible.Wp exec rely allow (f a) Q s
      | .error e => ∀ s', rely s s' → Q (.error e) s') s) :
    Fallible.Wp exec rely allow (x >>= f) Q s := by
  unfold Fallible.Wp
  rw [ExceptT.run_bind]
  refine Wp.bind (Wp.mono h (fun _ _ h => h) fun r s hr => ?_)
  rcases r with e | a <;> exact hr

end FallibleWp

end Atomic
