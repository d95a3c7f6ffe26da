import TwilightDispatch.Atomic.Interleave

/-!
# Servers that are lost

A server that is lost after some number of commands answers every later command with an error and
changes no more. What a program leaves on it is what the first commands of its complete run leave
(`Prog.run_losing`), so a property of all failures is one of all beginnings of the run
(`Wp.beginning`).
-/

namespace Atomic

variable {I : Interface} {α S ε : Type} {exec : Exec I S}

/-! ## Losing the server -/

/-- A server that is lost after as many commands as the state says. -/
def losing (exec : Exec I S) (lost : (c : I.Cmd) → I.Reply c) : Exec I (S × ℕ)
  | c, (s, 0) => (lost c, (s, 0))
  | c, (s, n + 1) => ((exec c s).1, ((exec c s).2, n))

/-- A program leaves on a server that is lost what the first commands of its run leave. -/
theorem Prog.run_losing (lost : (c : I.Cmd) → I.Reply c) (p : Prog I α) (s : S) (n : ℕ) :
    (p.run (losing exec lost) (s, n)).2.1 = after exec ((p.trace exec s).take n) s := by
  induction p generalizing s n with
  | ret a => cases n <;> rfl
  | cmd c k ih =>
    cases n with
    | zero =>
      have hkeep : ∀ c (s' : S × ℕ), s' = (s, 0) → (losing exec lost c s').2 = (s, 0) := by
        rintro c _ rfl
        rfl
      exact congrArg Prod.fst (Prog.run_invariant hkeep (cmd c k) rfl)
    | succ n => exact ih _ _ n

/-! ## What a run issues -/

/-- Run alone, the program issues every command in a state in which it is allowed, and what it returns
satisfies `Q`. -/
def Heeds (exec : Exec I S) (allow : I.Cmd → S → Prop) (x : Fallible I ε α) (Q : α → Prop) : Prop :=
  ∀ s, Fallible.Wp exec Eq allow x (fun r _ => ∀ a, r = .ok a → Q a) s

/-- To heed a rule is a program logic. -/
theorem Heeds.logic (exec : Exec I S) (allow : I.Cmd → S → Prop) :
    Logic (I := I) (ε := ε) fun x Q => Heeds exec allow x Q where
  pure ha _ := Fallible.wp_pure fun _ _ _ h => Except.ok.inj h ▸ ha
  throw _ := Fallible.wp_throw fun _ _ => nofun
  bind hx hf s := by
    refine Fallible.wp_bind ((hx s).mono (fun _ _ hc => hc) ?_)
    rintro (e | a) s' ha
    · exact fun _ _ => nofun
    · exact hf a (ha a rfl) s'
  attempt hx s := by
    unfold Fallible.Wp
    rw [ExceptT.run_lift, ← bind_pure_comp]
    refine Wp.bind ((hx s).mono (fun _ _ hc => hc) fun r s' hr => ?_)
    rintro s'' _ r' hr' a rfl
    exact hr a (Except.ok.inj hr')

/-- What holds of no commands, and of one more if it is allowed, holds of every beginning of the run. -/
theorem Wp.beginning {allow : I.Cmd → S → Prop} {R : List I.Cmd → S → Prop} {p : Prog I α}
    {Q : α → S → Prop} {s : S} (h : Wp exec Eq allow p Q s)
    (hstep : ∀ l c s, R l s → allow c s → R (l ++ [c]) (exec c s).2) {l : List I.Cmd} (hl : R l s)
    (n : ℕ) : R (l ++ (p.trace exec s).take n) (after exec ((p.trace exec s).take n) s) := by
  induction p generalizing s l n with
  | ret a => simpa [after] using hl
  | cmd c k ih =>
    obtain ⟨hc, hk⟩ := h s rfl
    cases n with
    | zero => simpa [after] using hl
    | succ n =>
      have hrest := ih _ hk (hstep l c s hl hc) n
      rw [List.append_assoc] at hrest
      exact hrest

/-- What a program that heeds a rule leaves on a server that is lost. -/
theorem Heeds.run_losing {allow : I.Cmd → S → Prop} {R : List I.Cmd → S → Prop} {x : Fallible I ε α}
    {Q : α → Prop} (h : Heeds exec allow x Q) (lost : (c : I.Cmd) → I.Reply c)
    (hstep : ∀ l c s, R l s → allow c s → R (l ++ [c]) (exec c s).2) {s : S} (hs : R [] s) (n : ℕ) :
    R ((Fallible.trace exec x s).take n) (Fallible.run (losing exec lost) x (s, n)).2.1 := by
  have hrun : (Fallible.run (losing exec lost) x (s, n)).2.1 =
      after exec ((Fallible.trace exec x s).take n) s := Prog.run_losing lost _ s n
  rw [hrun]
  exact (h s).beginning hstep hs n

end Atomic
