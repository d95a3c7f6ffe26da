import Mathlib

/-!
# Programs over atomic commands

A program either returns or issues one command of an interface and goes on from the reply. The
same program is run alone (`Prog.run`), is watched while it runs (`Prog.trace`), and is
interleaved with others command by command (see `Interleave`).

`Keeps` is the rule for invariants of complete runs: an invariant may be broken between two
commands as long as the operation that breaks it restores it.
-/

namespace Atomic

/-- An interface of atomic commands: what can be asked, and the type of the answer. -/
structure Interface where
  Cmd : Type
  Reply : Cmd → Type

/-- A program over the commands of `I`. -/
inductive Prog (I : Interface) (α : Type) where
  | ret (a : α)
  | cmd (c : I.Cmd) (k : I.Reply c → Prog I α)

/-- What a command does to a state, and what it answers. -/
abbrev Exec (I : Interface) (S : Type) := (c : I.Cmd) → S → I.Reply c × S

namespace Prog

variable {I : Interface} {α β S ε : Type}

/-! ## Sequencing -/

def bind (p : Prog I α) (f : α → Prog I β) : Prog I β :=
  match p with
  | ret a => f a
  | cmd c k => cmd c fun r => (k r).bind f

instance : Monad (Prog I) where
  pure := ret
  bind := bind

@[simp] theorem ret_bind (a : α) (f : α → Prog I β) : (ret a : Prog I α) >>= f = f a := rfl

@[simp] theorem cmd_bind (c : I.Cmd) (k : I.Reply c → Prog I α) (f : α → Prog I β) :
    cmd c k >>= f = cmd c fun r => k r >>= f := rfl

theorem bind_ret (p : Prog I α) : p >>= ret = p := by
  induction p with
  | ret a => rfl
  | cmd c k ih =>
    rw [cmd_bind]
    exact congrArg (cmd c) (funext ih)

theorem bind_bind {γ : Type} (p : Prog I α) (f : α → Prog I β) (g : β → Prog I γ) :
    p >>= f >>= g = p >>= fun a => f a >>= g := by
  induction p with
  | ret a => rfl
  | cmd c k ih =>
    simp only [cmd_bind]
    exact congrArg (cmd c) (funext ih)

instance : LawfulMonad (Prog I) :=
  LawfulMonad.mk' _ bind_ret (fun _ _ => rfl) bind_bind

/-- Issue one command and return its reply. -/
def perform (c : I.Cmd) : Prog I (I.Reply c) := cmd c ret

/-! ## Running alone -/

/-- Run to completion from a state. -/
def run (exec : Exec I S) : Prog I α → S → α × S
  | ret a, s => (a, s)
  | cmd c k, s => (k (exec c s).1).run exec (exec c s).2

/-- The commands a run issues, in order. -/
def trace (exec : Exec I S) : Prog I α → S → List I.Cmd
  | ret _, _ => []
  | cmd c k, s => c :: (k (exec c s).1).trace exec (exec c s).2

variable {exec : Exec I S}

@[simp] theorem run_ret (a : α) (s : S) : (ret a : Prog I α).run exec s = (a, s) := rfl

@[simp] theorem run_issue (c : I.Cmd) (k : I.Reply c → Prog I α) (s : S) :
    (cmd c k).run exec s = (k (exec c s).1).run exec (exec c s).2 := rfl

@[simp] theorem run_pure (a : α) (s : S) : (pure a : Prog I α).run exec s = (a, s) := rfl

@[simp] theorem run_perform (c : I.Cmd) (s : S) : (perform c).run exec s = exec c s := rfl

@[simp] theorem run_bind (p : Prog I α) (f : α → Prog I β) (s : S) :
    (p >>= f).run exec s = (f (p.run exec s).1).run exec (p.run exec s).2 := by
  induction p generalizing s with
  | ret a => rfl
  | cmd c k ih => exact ih _ _

@[simp] theorem trace_ret (a : α) (s : S) : (ret a : Prog I α).trace exec s = [] := rfl

@[simp] theorem trace_pure (a : α) (s : S) : (pure a : Prog I α).trace exec s = [] := rfl

@[simp] theorem trace_perform (c : I.Cmd) (s : S) : (perform c).trace exec s = [c] := rfl

@[simp] theorem trace_bind (p : Prog I α) (f : α → Prog I β) (s : S) :
    (p >>= f).trace exec s =
      p.trace exec s ++ (f (p.run exec s).1).trace exec (p.run exec s).2 := by
  induction p generalizing s with
  | ret a => rfl
  | cmd c k ih =>
    rw [cmd_bind, trace, trace, ih, List.cons_append]
    rfl

variable (exec) in
/-- The state after a run is the state after the commands it issued. -/
theorem run_snd_eq_foldl (p : Prog I α) (s : S) :
    (p.run exec s).2 = (p.trace exec s).foldl (fun s c => (exec c s).2) s := by
  induction p generalizing s with
  | ret a => rfl
  | cmd c k ih => exact ih _ _

/-- What every command keeps, a run keeps. -/
theorem run_invariant {Inv : S → Prop} (h : ∀ c s, Inv s → Inv (exec c s).2) (p : Prog I α)
    {s : S} (hs : Inv s) : Inv (p.run exec s).2 := by
  induction p generalizing s with
  | ret a => exact hs
  | cmd c k ih => exact ih _ (h c s hs)

/-! ## Execution among other programs -/

/-- `Issues exec p l p'`: executing the commands of `l`, each in the state it is listed with, leads
from `p` to `p'`. -/
inductive Issues (exec : Exec I S) : Prog I α → List (I.Cmd × S) → Prog I α → Prop
  | refl (p : Prog I α) : Issues exec p [] p
  | step {c : I.Cmd} {k : I.Reply c → Prog I α} {s : S} {l : List (I.Cmd × S)} {p' : Prog I α}
      (h : Issues exec (k (exec c s).1) l p') : Issues exec (cmd c k) ((c, s) :: l) p'

theorem Issues.snoc {p : Prog I α} {l : List (I.Cmd × S)} {c : I.Cmd} {k : I.Reply c → Prog I α}
    (h : Issues exec p l (cmd c k)) (s : S) : Issues exec p (l ++ [(c, s)]) (k (exec c s).1) := by
  generalize hq : cmd c k = q at h
  induction h with
  | refl p =>
    subst hq
    exact .step (.refl _)
  | step _ ih => exact .step (ih hq)

theorem Issues.eq_ret {a : α} {l : List (I.Cmd × S)} {p : Prog I α}
    (h : Issues exec (ret a) l p) : p = ret a := by
  cases h
  rfl

/-- A program may be executed alone. -/
theorem issues_run (exec : Exec I S) (p : Prog I α) (s : S) : ∃ l, Issues exec p l (ret (p.run exec s).1) := by
  induction p generalizing s with
  | ret a => exact ⟨[], .refl _⟩
  | cmd c k ih =>
    obtain ⟨l, hl⟩ := ih (exec c s).1 (exec c s).2
    exact ⟨(c, s) :: l, .step hl⟩

/-- What follows by a return only has issued nothing. -/
theorem Issues.of_bind_ret {p : Prog I α} {f : α → β} {l : List (I.Cmd × S)} {q : Prog I β}
    (h : Issues exec (p >>= fun a => ret (f a)) l q) :
    ∃ p', Issues exec p l p' ∧ q = p' >>= fun a => ret (f a) := by
  induction p generalizing l with
  | ret a =>
    cases h with
    | refl => exact ⟨ret a, .refl _, rfl⟩
  | cmd c k ih =>
    cases h with
    | refl => exact ⟨cmd c k, .refl _, rfl⟩
    | step h =>
      obtain ⟨p', hp, hq⟩ := ih _ h
      exact ⟨p', .step hp, hq⟩

/-! ## What can be returned -/

/-- Whatever is answered to its commands, what the program returns satisfies `Q`. -/
def Returns (Q : α → Prop) : Prog I α → Prop
  | ret a => Q a
  | cmd _ k => ∀ r, (k r).Returns Q

theorem Returns.bind {p : Prog I α} {f : α → Prog I β} {Q : β → Prop}
    (h : ∀ a, (f a).Returns Q) : (p >>= f).Returns Q := by
  induction p with
  | ret a => exact h a
  | cmd c k ih => exact fun r => ih r

end Prog

/-! ## Replay -/

section Replay

variable {I : Interface} {S : Type} {exec : Exec I S}

/-- The state after commands. -/
def after (exec : Exec I S) (l : List I.Cmd) (s : S) : S := l.foldl (fun s c => (exec c s).2) s

@[simp] theorem after_nil (s : S) : after exec [] s = s := rfl

@[simp] theorem after_cons (c : I.Cmd) (l : List I.Cmd) (s : S) :
    after exec (c :: l) s = after exec l (exec c s).2 := rfl

@[simp] theorem after_append (l l' : List I.Cmd) (s : S) :
    after exec (l ++ l') s = after exec l' (after exec l s) := List.foldl_append

/-- What holds of a state holds after commands each of which keeps it. -/
theorem after_keeps {Inv : S → Prop} {l : List I.Cmd} (h : ∀ c ∈ l, ∀ s, Inv s → Inv (exec c s).2)
    {s : S} (hs : Inv s) : Inv (after exec l s) := by
  induction l generalizing s with
  | nil => exact hs
  | cons c l ih =>
    exact ih (fun c' hc' => h c' (List.mem_cons_of_mem _ hc')) (h c List.mem_cons_self s hs)

end Replay

/-! ## Recording -/

section Recording

variable {I : Interface} {α S τ : Type}

/-- Execute and record: the state is followed by the commands so far, each with a tag. -/
def recorded (exec : Exec I S) (t : τ) : Exec I (S × List (τ × I.Cmd)) :=
  fun c s => ((exec c s.1).1, (exec c s.1).2, s.2 ++ [(t, c)])

/-- Recording does not interfere: it appends the trace of the run. -/
theorem Prog.run_recorded {exec : Exec I S} (t : τ) (p : Prog I α) (s : S)
    (log : List (τ × I.Cmd)) :
    p.run (recorded exec t) (s, log) =
      ((p.run exec s).1, (p.run exec s).2, log ++ (p.trace exec s).map (t, ·)) := by
  induction p generalizing s log with
  | ret a => simp
  | cmd c k ih =>
    rw [Prog.run_issue, Prog.run_issue, Prog.trace]
    refine (ih _ _ _).trans ?_
    simp [recorded]

end Recording

/-! ## Programs that may fail -/

/-- Programs whose commands stand under a `?`: the first error ends them. -/
abbrev Fallible (I : Interface) (ε α : Type) := ExceptT ε (Prog I) α

namespace Fallible

variable {I : Interface} {α β S ε : Type} {exec : Exec I S}

/-- Run a fallible program to its result or its error. -/
def run (exec : Exec I S) (x : Fallible I ε α) (s : S) : Except ε α × S :=
  Prog.run exec (ExceptT.run x) s

/-- The commands a fallible program issues. -/
def trace (exec : Exec I S) (x : Fallible I ε α) (s : S) : List I.Cmd :=
  Prog.trace exec (ExceptT.run x) s

@[simp] theorem run_pure (a : α) (s : S) :
    run exec (pure a : Fallible I ε α) s = (.ok a, s) := rfl

@[simp] theorem run_throw (e : ε) (s : S) :
    run exec (throw e : Fallible I ε α) s = (.error e, s) := rfl

@[simp] theorem run_lift (p : Prog I α) (s : S) :
    run exec (ExceptT.lift p : Fallible I ε α) s =
      (.ok (p.run exec s).1, (p.run exec s).2) := by
  unfold run
  rw [ExceptT.run_lift, ← bind_pure_comp, Prog.run_bind]
  rfl

theorem run_bind (x : Fallible I ε α) (f : α → Fallible I ε β) (s : S) :
    run exec (x >>= f) s =
      match run exec x s with
      | (.ok a, s') => run exec (f a) s'
      | (.error e, s') => (.error e, s') := by
  unfold run
  rw [ExceptT.run_bind, Prog.run_bind]
  rcases Prog.run exec (ExceptT.run x) s with ⟨_ | _, s'⟩ <;> rfl

/-- A step that succeeds hands its value and its state to what follows. -/
theorem run_bind_ok {x : Fallible I ε α} {f : α → Fallible I ε β} {s s' : S} {a : α}
    (h : run exec x s = (.ok a, s')) : run exec (x >>= f) s = run exec (f a) s' := by
  rw [run_bind, h]

/-- The first error ends a program. -/
theorem run_bind_error {x : Fallible I ε α} {f : α → Fallible I ε β} {s s' : S} {e : ε}
    (h : run exec x s = (.error e, s')) : run exec (x >>= f) s = (.error e, s') := by
  rw [run_bind, h]

theorem trace_bind (x : Fallible I ε α) (f : α → Fallible I ε β) (s : S) :
    trace exec (x >>= f) s = trace exec x s ++
      match run exec x s with
      | (.ok a, s') => trace exec (f a) s'
      | (.error _, _) => [] := by
  unfold run trace
  rw [ExceptT.run_bind, Prog.trace_bind]
  rcases Prog.run exec (ExceptT.run x) s with ⟨_ | _, s'⟩ <;> rfl

theorem trace_bind_ok {x : Fallible I ε α} {f : α → Fallible I ε β} {s s' : S} {a : α}
    (h : run exec x s = (.ok a, s')) :
    trace exec (x >>= f) s = trace exec x s ++ trace exec (f a) s' := by
  rw [trace_bind, h]

variable (exec) in
/-- A loop of which every round succeeds issues what its rounds issue, one after the other. -/
theorem trace_forM {f : α → Fallible I ε PUnit} {R : α → List I.Cmd → Prop} {l : List α}
    (h : ∀ a ∈ l, ∀ s, (run exec (f a) s).1 = .ok () ∧ R a (trace exec (f a) s)) (s : S) :
    (run exec (l.forM f) s).1 = .ok () ∧
      ∃ traces, List.Forall₂ R l traces ∧ trace exec (l.forM f) s = traces.flatten := by
  induction l generalizing s with
  | nil => exact ⟨rfl, [], .nil, rfl⟩
  | cons a l ih =>
    obtain ⟨hok, hR⟩ := h a List.mem_cons_self s
    have hrun : run exec (f a) s = (.ok (), (run exec (f a) s).2) := Prod.ext hok rfl
    obtain ⟨hrest, traces, htraces, heq⟩ :=
      ih (fun b hb => h b (List.mem_cons_of_mem a hb)) (run exec (f a) s).2
    refine ⟨?_, trace exec (f a) s :: traces, .cons hR htraces, ?_⟩
    · exact (congrArg Prod.fst (run_bind_ok hrun)).trans hrest
    · exact (trace_bind_ok hrun).trans (congrArg _ heq)

theorem run_recorded {τ : Type} (t : τ) (x : Fallible I ε α) (s : S) (log : List (τ × I.Cmd)) :
    run (recorded exec t) x (s, log) =
      ((run exec x s).1, (run exec x s).2, log ++ (trace exec x s).map (t, ·)) :=
  Prog.run_recorded t _ s log

end Fallible

/-! ## Program logics -/

/-- `P x Q` says that `x` behaves well and that what it returns, if it returns, satisfies `Q`; the
rules are those by which `P` passes from the parts of a program to the whole. -/
structure Logic {I : Interface} {ε : Type}
    (P : {α : Type} → Fallible I ε α → (α → Prop) → Prop) : Prop where
  pure : ∀ {α : Type} {a : α} {Q : α → Prop}, Q a → P (pure a) Q
  throw : ∀ {α : Type} {e : ε} {Q : α → Prop}, P (throw e) Q
  bind : ∀ {α β : Type} {x : Fallible I ε α} {f : α → Fallible I ε β} {Q : α → Prop}
    {Q' : β → Prop}, P x Q → (∀ a, Q a → P (f a) Q') → P (x >>= f) Q'
  attempt : ∀ {α : Type} {x : Fallible I ε α} {Q : α → Prop}, P x Q →
    P (ExceptT.lift (ExceptT.run x)) fun r => ∀ a, r = .ok a → Q a

namespace Logic

variable {I : Interface} {ε α β : Type} {P : {α : Type} → Fallible I ε α → (α → Prop) → Prop}

theorem ite (_ : Logic P) {c : Prop} [Decidable c] {x y : Fallible I ε α} {Q : α → Prop} (hx : c → P x Q)
    (hy : ¬ c → P y Q) : P (if c then x else y) Q := by
  split_ifs with hc
  · exact hx hc
  · exact hy hc

variable (h : Logic P)
include h

/-- A step that says nothing about its result. -/
theorem andThen {x : Fallible I ε α} {f : α → Fallible I ε β} {Q : β → Prop}
    (hx : P x fun _ => True) (hf : ∀ a, P (f a) Q) : P (x >>= f) Q := h.bind hx fun a _ => hf a

/-- What is known of a result may be forgotten in part. -/
theorem weaken {x : Fallible I ε α} {Q Q' : α → Prop} (hx : P x Q) (hQ : ∀ a, Q a → Q' a) :
    P x Q' := by
  have hb := h.bind hx fun a ha => h.pure (hQ a ha)
  rwa [bind_pure] at hb

theorem mapM {f : α → Fallible I ε β} {R : α → β → Prop} {l : List α}
    (hf : ∀ a ∈ l, P (f a) (R a)) : P (l.mapM f) fun bs => ∀ b ∈ bs, ∃ a ∈ l, R a b := by
  induction l with
  | nil => exact h.pure fun b hb => nomatch hb
  | cons a l ih =>
    rw [List.mapM_cons]
    refine h.bind (hf a List.mem_cons_self) fun b hb => ?_
    refine h.bind (ih fun a ha => hf a (List.mem_cons_of_mem _ ha)) fun bs hbs => h.pure ?_
    rintro b' (_ | ⟨_, hb'⟩)
    · exact ⟨a, List.mem_cons_self, hb⟩
    · obtain ⟨a', ha', hr⟩ := hbs b' hb'
      exact ⟨a', List.mem_cons_of_mem _ ha', hr⟩

theorem foldlM {f : β → α → Fallible I ε β} {Q : β → Prop} {l : List α}
    (hf : ∀ b, Q b → ∀ a ∈ l, P (f b a) Q) {b : β} (hb : Q b) : P (l.foldlM f b) Q := by
  induction l generalizing b with
  | nil => exact h.pure hb
  | cons a l ih =>
    rw [List.foldlM_cons]
    exact h.bind (hf b hb a List.mem_cons_self) fun b' hb' =>
      ih (fun b hb a ha => hf b hb a (List.mem_cons_of_mem _ ha)) hb'

theorem forM {f : α → Fallible I ε PUnit} {l : List α} (hf : ∀ a ∈ l, P (f a) fun _ => True) :
    P (l.forM f) fun _ => True := by
  induction l with
  | nil => exact h.pure trivial
  | cons a l ih =>
    change P (f a >>= fun _ => l.forM f) _
    exact h.andThen (hf a List.mem_cons_self) fun _ =>
      ih fun a ha => hf a (List.mem_cons_of_mem _ ha)

end Logic

/-! ## Invariants of complete runs -/

section Keeps

variable {I : Interface} {α β S ε : Type} {exec : Exec I S} {Inv : S → Prop}

/-- A complete run of `x` keeps `Inv`, and its result satisfies `Q`. -/
def Keeps (exec : Exec I S) (Inv : S → Prop) (x : Fallible I ε α) (Q : α → Prop) : Prop :=
  ∀ s, Inv s → Inv (Fallible.run exec x s).2 ∧ ∀ a, (Fallible.run exec x s).1 = .ok a → Q a

/-- Keeping an invariant is a program logic. -/
theorem Keeps.logic (exec : Exec I S) (Inv : S → Prop) :
    Logic (I := I) (ε := ε) fun x Q => Keeps exec Inv x Q where
  pure ha s hs := ⟨hs, fun a h => Except.ok.inj h ▸ ha⟩
  throw s hs := ⟨hs, nofun⟩
  bind hx hf s hs := by
    obtain ⟨hs', ha⟩ := hx s hs
    rw [Fallible.run_bind]
    rcases hr : Fallible.run exec _ s with ⟨e | a, s'⟩
    · rw [hr] at hs'
      exact ⟨hs', nofun⟩
    · rw [hr] at hs' ha
      exact hf a (ha a rfl) s' hs'
  attempt hx s hs := by
    obtain ⟨hs', ha⟩ := hx s hs
    rw [Fallible.run_lift]
    refine ⟨hs', fun r hr a hra => ha a ?_⟩
    exact (Except.ok.inj hr).trans hra

/-- What a program that says nothing about its result keeps. -/
theorem Keeps.of_run {x : Fallible I ε α} (h : ∀ s, Inv s → Inv (Fallible.run exec x s).2) :
    Keeps exec Inv x fun _ => True :=
  fun s hs => ⟨h s hs, fun _ _ => trivial⟩

end Keeps

end Atomic
