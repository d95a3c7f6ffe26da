import TwilightDispatch.Atomic.Interleave

/-!
# Interleavings with their log

The log of an interleaving lists every command with the program that issued it and the state it was
executed in. The entries of a program are what it issues in that run (`Logged.issues`), and the states
are those that the commands before lead to (`Logged.state`); so what an interleaving ends with is found
from the shape of what each program issues, whatever the others do (`Fallible.Yields`).
-/

namespace Atomic

variable {I : Interface} {α β S ε : Type} {exec : Exec I S}

/-! ## Logs -/

/-- A command that was executed: the program that issued it, and the state before. -/
structure Entry (I : Interface) (S : Type) where
  task : ℕ
  cmd : I.Cmd
  state : S

/-- `Logged exec tasks s log as s'`: the commands of `tasks` can be executed from `s` as `log` says, and
then every task has finished, with results `as` and final state `s'`. -/
inductive Logged (exec : Exec I S) :
    List (Prog I α) → S → List (Entry I S) → List α → S → Prop
  | done (as : List α) (s : S) : Logged exec (as.map .ret) s [] as s
  | step {i : ℕ} {c : I.Cmd} {k : I.Reply c → Prog I α} {tasks : List (Prog I α)}
      {s s' : S} {log : List (Entry I S)} {as : List α} (hi : tasks[i]? = some (.cmd c k))
      (h : Logged exec (tasks.set i (k (exec c s).1)) (exec c s).2 log as s') :
      Logged exec tasks s (⟨i, c, s⟩ :: log) as s'

/-- The entries of a program. -/
def own (i : ℕ) (log : List (Entry I S)) : List (I.Cmd × S) :=
  (log.filter (·.task = i)).map fun e => (e.cmd, e.state)

theorem mem_own {i : ℕ} {log : List (Entry I S)} {c : I.Cmd} {s : S} :
    (c, s) ∈ own i log ↔ ⟨i, c, s⟩ ∈ log := by
  unfold own
  simp only [List.mem_map, List.mem_filter, decide_eq_true_eq, Prod.mk.injEq]
  constructor
  · rintro ⟨⟨_, _, _⟩, ⟨he, rfl⟩, rfl, rfl⟩
    exact he
  · exact fun h => ⟨_, ⟨h, rfl⟩, rfl, rfl⟩

/-- Where the entries of a program split, the log splits. -/
theorem own_eq_append {i : ℕ} {log : List (Entry I S)} {l l' : List (I.Cmd × S)} {c : I.Cmd} {s : S}
    (h : own i log = l ++ (c, s) :: l') :
    ∃ log₁ log₂, log = log₁ ++ ⟨i, c, s⟩ :: log₂ ∧ own i log₁ = l ∧ own i log₂ = l' := by
  induction log generalizing l with
  | nil => cases l <;> cases h
  | cons e log ih =>
    by_cases he : e.task = i
    · have hcons : own i (e :: log) = (e.cmd, e.state) :: own i log := by
        unfold own
        rw [List.filter_cons_of_pos (by simpa using he), List.map_cons]
      rw [hcons] at h
      cases l with
      | nil =>
        obtain ⟨hhead, htail⟩ := List.cons.inj h
        obtain ⟨rfl, rfl⟩ := Prod.mk.inj hhead
        exact ⟨[], log, by rw [← he]; rfl, rfl, htail⟩
      | cons x l =>
        obtain ⟨rfl, htail⟩ := List.cons.inj h
        obtain ⟨log₁, log₂, rfl, hlog₁, hlog₂⟩ := ih htail
        refine ⟨e :: log₁, log₂, rfl, ?_, hlog₂⟩
        unfold own at hlog₁ ⊢
        rw [List.filter_cons_of_pos (by simpa using he), List.map_cons, hlog₁]
    · have hcons (log : List (Entry I S)) : own i (e :: log) = own i log := by
        unfold own
        rw [List.filter_cons_of_neg (by simpa using he)]
      rw [hcons] at h
      obtain ⟨log₁, log₂, rfl, hlog₁, hlog₂⟩ := ih h
      exact ⟨e :: log₁, log₂, rfl, (hcons log₁).trans hlog₁, hlog₂⟩

namespace Logged

variable {tasks : List (Prog I α)} {s s' : S} {log : List (Entry I S)} {as : List α} {i : ℕ}
  {p : Prog I α}

/-- The entries of a program are what it issues. -/
theorem issues (h : Logged exec tasks s log as s') (hi : tasks[i]? = some p) :
    ∃ a, as[i]? = some a ∧ Prog.Issues exec p (own i log) (.ret a) := by
  induction h generalizing p with
  | done as s =>
    rw [List.getElem?_map, Option.map_eq_some_iff] at hi
    obtain ⟨a, ha, rfl⟩ := hi
    exact ⟨a, ha, .refl _⟩
  | @step j c k tasks s s' log as hj h ih =>
    by_cases hij : i = j
    · subst hij
      obtain rfl := Option.some.inj (hj.symm.trans hi)
      have hlt : i < tasks.length := (List.getElem?_eq_some_iff.mp hi).1
      obtain ⟨a, ha, hissues⟩ := ih (List.getElem?_set_self hlt)
      refine ⟨a, ha, ?_⟩
      have hown : own i (⟨i, c, s⟩ :: log) = (c, s) :: own i log := by simp [own]
      rw [hown]
      exact .step hissues
    · obtain ⟨a, ha, hissues⟩ := ih (by rwa [List.getElem?_set_ne (Ne.symm hij)])
      refine ⟨a, ha, ?_⟩
      have hown : own i (⟨j, c, s⟩ :: log) = own i log := by simp [own, Ne.symm hij]
      rwa [hown]

theorem task_lt (h : Logged exec tasks s log as s') {e : Entry I S} (he : e ∈ log) :
    e.task < tasks.length := by
  induction h with
  | done as s => cases he
  | @step j c k tasks s s' log as hj h ih =>
    rcases List.mem_cons.mp he with rfl | he
    · exact (List.getElem?_eq_some_iff.mp hj).1
    · simpa using ih he

/-- The final state is that after the commands of the log. -/
theorem final (h : Logged exec tasks s log as s') : s' = after exec (log.map Entry.cmd) s := by
  induction h with
  | done as s => rfl
  | step _ _ ih => exact ih

/-- A command is executed in the state after those before it. -/
theorem state (h : Logged exec tasks s log as s') {log₁ log₂ : List (Entry I S)} {e : Entry I S}
    (hlog : log = log₁ ++ e :: log₂) : e.state = after exec (log₁.map Entry.cmd) s := by
  induction h generalizing log₁ with
  | done as s => cases log₁ <;> cases hlog
  | @step j c k tasks s s' log as hj h ih =>
    cases log₁ with
    | nil =>
      obtain ⟨rfl, -⟩ := List.cons.inj hlog
      rfl
    | cons e' log₁ =>
      obtain ⟨rfl, hrest⟩ := List.cons.inj hlog
      exact ih hrest

end Logged

/-! ## Logs of pools that grow -/

/-- `Reached`, with the log of what has been executed. -/
inductive Recorded (exec : Exec I S) (ok : Prog I α → Prop) (s₀ : S) :
    List (Entry I S) → List (Prog I α) → S → Prop
  | init : Recorded exec ok s₀ [] [] s₀
  | start {p : Prog I α} {log : List (Entry I S)} {tasks : List (Prog I α)} {s : S} (hp : ok p)
      (h : Recorded exec ok s₀ log tasks s) : Recorded exec ok s₀ log (tasks ++ [p]) s
  | step {i : ℕ} {c : I.Cmd} {k : I.Reply c → Prog I α} {log : List (Entry I S)}
      {tasks : List (Prog I α)} {s : S} (hi : tasks[i]? = some (.cmd c k))
      (h : Recorded exec ok s₀ log tasks s) :
      Recorded exec ok s₀ (log ++ [⟨i, c, s⟩]) (tasks.set i (k (exec c s).1)) (exec c s).2

theorem Reached.recorded {ok : Prog I α → Prop} {s₀ s : S} {tasks : List (Prog I α)}
    (h : Reached exec ok s₀ tasks s) : ∃ log, Recorded exec ok s₀ log tasks s := by
  induction h with
  | init => exact ⟨[], .init⟩
  | start hp _ ih =>
    obtain ⟨log, hlog⟩ := ih
    exact ⟨log, .start hp hlog⟩
  | step hi _ ih =>
    obtain ⟨log, hlog⟩ := ih
    exact ⟨_, .step hi hlog⟩

namespace Recorded

variable {ok : Prog I α → Prop} {s₀ s : S} {log : List (Entry I S)} {tasks : List (Prog I α)} {i : ℕ}
  {p : Prog I α}

theorem reached (h : Recorded exec ok s₀ log tasks s) : Reached exec ok s₀ tasks s := by
  induction h with
  | init => exact .init
  | start hp _ ih => exact .start hp ih
  | step hi _ ih => exact .step hi ih

theorem task_lt (h : Recorded exec ok s₀ log tasks s) {e : Entry I S} (he : e ∈ log) :
    e.task < tasks.length := by
  induction h with
  | init => cases he
  | start _ _ ih =>
    rw [List.length_append]
    exact (ih he).trans_le (Nat.le_add_right _ _)
  | step hi _ ih =>
    rw [List.length_set]
    rcases List.mem_append.mp he with he | he
    · exact ih he
    · rw [List.mem_singleton.mp he]
      exact (List.getElem?_eq_some_iff.mp hi).1

/-- What is left of a program is what its entries have left of one that was started. -/
theorem issues (h : Recorded exec ok s₀ log tasks s) (hi : tasks[i]? = some p) :
    ∃ p₀, ok p₀ ∧ Prog.Issues exec p₀ (own i log) p := by
  induction h generalizing p with
  | init => cases hi
  | @start q log tasks s hq h ih =>
    rw [List.getElem?_append] at hi
    split_ifs at hi with hlt
    · exact ih hi
    · obtain rfl := List.mem_singleton.mp (List.mem_of_getElem? hi)
      have hnone : own i log = [] := by
        have hfilter : log.filter (·.task = i) = [] := List.filter_eq_nil_iff.mpr fun e he => by
          simpa using ((h.task_lt he).trans_le (not_lt.mp hlt)).ne
        rw [own, hfilter, List.map_nil]
      exact ⟨p, hq, hnone ▸ .refl p⟩
  | @step j c k log tasks s hj h ih =>
    have hown : own i (log ++ [⟨j, c, s⟩]) = own i log ++ if j = i then [(c, s)] else [] := by
      unfold own
      rw [List.filter_append, List.map_append, List.filter_singleton]
      split_ifs <;> simp_all
    rw [hown]
    by_cases hij : j = i
    · subst hij
      rw [List.getElem?_set_self (List.getElem?_eq_some_iff.mp hj).1] at hi
      obtain rfl := Option.some.inj hi
      obtain ⟨p₀, hp₀, hissues⟩ := ih hj
      exact ⟨p₀, hp₀, by rw [if_pos rfl]; exact hissues.snoc s⟩
    · rw [List.getElem?_set_ne hij] at hi
      obtain ⟨p₀, hp₀, hissues⟩ := ih hi
      exact ⟨p₀, hp₀, by rwa [if_neg hij, List.append_nil]⟩

end Recorded

/-! ## The last command that matters -/

/-- A list with an element that satisfies `P` splits at the last one. -/
theorem exists_last {γ : Type} {P : γ → Prop} {l : List γ} (h : ∃ x ∈ l, P x) :
    ∃ l₁ x l₂, l = l₁ ++ x :: l₂ ∧ P x ∧ ∀ y ∈ l₂, ¬ P y := by
  induction l with
  | nil =>
    obtain ⟨x, hx, -⟩ := h
    cases hx
  | cons a l ih =>
    by_cases hl : ∃ x ∈ l, P x
    · obtain ⟨l₁, x, l₂, rfl, hx, hl₂⟩ := ih hl
      exact ⟨a :: l₁, x, l₂, rfl, hx, hl₂⟩
    · obtain ⟨x, hx, hP⟩ := h
      rcases List.mem_cons.mp hx with rfl | hx
      · exact ⟨[], x, l, rfl, hP, fun y hy hPy => hl ⟨y, hy, hPy⟩⟩
      · exact absurd ⟨x, hx, hP⟩ hl

section Settles

variable {Inv : S → Prop} {Touches : I.Cmd → Prop}

/-- The command is one that touches, and what holds after it is `Inv`. -/
def Establishes (exec : Exec I S) (Inv : S → Prop) (Touches : I.Cmd → Prop) (c : I.Cmd) : Prop :=
  Touches c ∧ ∀ s, Inv (exec c s).2

/-- The commands end up with one that establishes `Inv`, and none touches after it but to establish `Inv`
again. -/
def Settles (exec : Exec I S) (Inv : S → Prop) (Touches : I.Cmd → Prop) (cmds : List I.Cmd) : Prop :=
  ∃ before c rest, cmds = before ++ c :: rest ∧ Establishes exec Inv Touches c ∧
    ∀ c' ∈ rest, Touches c' → Establishes exec Inv Touches c'

/-- The last command that touches is one that establishes `Inv`. -/
theorem Settles.last {l₁ l₂ : List I.Cmd} {c : I.Cmd}
    (h : Settles exec Inv Touches (l₁ ++ c :: l₂)) (hc : Touches c) (hl₂ : ∀ c' ∈ l₂, ¬ Touches c') :
    Establishes exec Inv Touches c := by
  obtain ⟨before, c₀, rest, heq, hc₀, hrest⟩ := h
  rcases List.append_eq_append_iff.mp heq with ⟨m, rfl, hm⟩ | ⟨m, rfl, hm⟩
  · cases m with
    | nil =>
      obtain ⟨rfl, -⟩ := List.cons.inj hm
      exact hc₀
    | cons c' m =>
      obtain ⟨-, rfl⟩ := List.cons.inj hm
      exact absurd hc₀.1 (hl₂ c₀ (List.mem_append_right _ List.mem_cons_self))
  · cases m with
    | nil =>
      obtain ⟨rfl, -⟩ := List.cons.inj hm
      exact hc₀
    | cons c' m =>
      obtain ⟨-, rfl⟩ := List.cons.inj hm
      exact hrest c (List.mem_append_right _ List.mem_cons_self) hc

/-- What a program settles holds in the end, if whatever the others do to it is followed by a command of
the program that touches it. -/
theorem Logged.settled {tasks : List (Prog I α)} {s s' : S} {log : List (Entry I S)} {as : List α}
    {i : ℕ} (h : Logged exec tasks s log as s')
    (hframe : ∀ c s, ¬ Touches c → Inv s → Inv (exec c s).2)
    (hown : Settles exec Inv Touches ((own i log).map Prod.fst))
    (hothers : ∀ log₁ e log₂, log = log₁ ++ e :: log₂ → e.task ≠ i → Touches e.cmd →
      ∃ e' ∈ log₂, e'.task = i ∧ Touches e'.cmd) : Inv s' := by
  have hex : ∃ e ∈ log, Touches e.cmd := by
    obtain ⟨before, c, rest, heq, hc, -⟩ := hown
    have hmem : c ∈ (own i log).map Prod.fst := by
      rw [heq]
      exact List.mem_append_right _ List.mem_cons_self
    obtain ⟨⟨c', st⟩, hown, rfl⟩ := List.mem_map.mp hmem
    exact ⟨_, mem_own.mp hown, hc.1⟩
  obtain ⟨log₁, e, log₂, hlog, he, hlog₂⟩ := exists_last hex
  have hi : e.task = i := by
    by_contra hne
    obtain ⟨e', he', -, htouch⟩ := hothers log₁ e log₂ hlog hne he
    exact hlog₂ e' he' htouch
  have hsplit : (own i log).map Prod.fst =
      (own i log₁).map Prod.fst ++ e.cmd :: (own i log₂).map Prod.fst := by
    rw [hlog]
    simp [own, hi]
  rw [hsplit] at hown
  have hlast : Establishes exec Inv Touches e.cmd := by
    refine hown.last he fun c hc htouch => ?_
    obtain ⟨⟨c', st⟩, hmem, rfl⟩ := List.mem_map.mp hc
    exact hlog₂ _ (mem_own.mp hmem) htouch
  rw [h.final, hlog, List.map_append, List.map_cons, after_append, after_cons]
  refine after_keeps (fun c hc s => hframe c s fun htouch => ?_) (hlast.2 _)
  obtain ⟨e', he', rfl⟩ := List.mem_map.mp hc
  exact hlog₂ e' he' htouch

end Settles

/-! ## Logs of schedules -/

/-- Execute the next commands of the programs that a schedule names. -/
def follow (exec : Exec I S) : List ℕ → List (Prog I α) → S → Option (List (Entry I S) × S)
  | [], tasks, s => if tasks.all fun p => p matches .ret _ then some ([], s) else none
  | i :: σ, tasks, s => match tasks[i]? with
    | some (.cmd c k) =>
      (follow exec σ (tasks.set i (k (exec c s).1)) (exec c s).2).map fun r =>
        (⟨i, c, s⟩ :: r.1, r.2)
    | _ => none

theorem logged_of_follow {σ : List ℕ} {tasks : List (Prog I α)} {s : S}
    {r : List (Entry I S) × S} (h : follow exec σ tasks s = some r) :
    ∃ as, Logged exec tasks s r.1 as r.2 := by
  induction σ generalizing tasks s r with
  | nil =>
    unfold follow at h
    split_ifs at h with hret
    obtain rfl := Option.some.inj h
    have hmap : ∃ as : List α, tasks = as.map .ret := by
      induction tasks with
      | nil => exact ⟨[], rfl⟩
      | cons p tasks ih =>
        rw [List.all_cons, Bool.and_eq_true] at hret
        obtain ⟨as, rfl⟩ := ih hret.2
        cases p with
        | ret a => exact ⟨a :: as, rfl⟩
        | cmd c k => cases hret.1
    obtain ⟨as, rfl⟩ := hmap
    exact ⟨as, .done as s⟩
  | cons i σ ih =>
    unfold follow at h
    cases hi : tasks[i]? with
    | none =>
      rw [hi] at h
      cases h
    | some p =>
      cases p with
      | ret a =>
        rw [hi] at h
        cases h
      | cmd c k =>
        rw [hi] at h
        obtain ⟨r', hr', rfl⟩ := Option.map_eq_some_iff.mp h
        obtain ⟨as, hlogged⟩ := ih hr'
        exact ⟨as, .step hi hlogged⟩

/-! ## What a program issues whatever the others do -/

/-- A program that is executed in parts issues what the parts issue. -/
theorem Prog.Issues.bind {p : Prog I α} {f : α → Prog I β} {l : List (I.Cmd × S)} {b : β}
    (h : Issues exec (p >>= f) l (.ret b)) : ∃ a l₁ l₂, l = l₁ ++ l₂ ∧
      Issues exec p l₁ (.ret a) ∧ Issues exec (f a) l₂ (.ret b) := by
  induction p generalizing l with
  | ret a => exact ⟨a, [], l, rfl, .refl _, h⟩
  | cmd c k ih =>
    cases h with
    | step h =>
      obtain ⟨a, l₁, l₂, rfl, hp, hf⟩ := ih _ h
      exact ⟨a, _ :: l₁, l₂, rfl, .step hp, hf⟩

/-- Whatever other programs do in between, what the program has issued when it returns, and what it
returns, satisfy `Q`. -/
def Fallible.Yields (exec : Exec I S) (x : Fallible I ε α)
    (Q : List (I.Cmd × S) → Except ε α → Prop) : Prop :=
  ∀ l r, Prog.Issues exec (ExceptT.run x) l (.ret r) → Q l r

namespace Fallible

variable {x : Fallible I ε α} {f : α → Fallible I ε β}
  {Q Q' : List (I.Cmd × S) → Except ε α → Prop}

theorem Yields.mono (h : Yields exec x Q) (hQ : ∀ l r, Q l r → Q' l r) : Yields exec x Q' :=
  fun l r hissues => hQ l r (h l r hissues)

theorem yields_ret {r : Except ε α} (h : Q [] r) : Yields exec (ExceptT.mk (.ret r)) Q := by
  intro l r' hissues
  cases hissues
  exact h

theorem yields_pure {a : α} (h : Q [] (.ok a)) : Yields exec (pure a : Fallible I ε α) Q :=
  yields_ret h

theorem yields_bind {Q : List (I.Cmd × S) → Except ε β → Prop}
    (h : Yields exec x fun l r => match r with
      | .ok a => Yields exec (f a) fun l' r' => Q (l ++ l') r'
      | .error e => Q l (.error e)) : Yields exec (x >>= f) Q := by
  intro l r hissues
  rw [ExceptT.run_bind] at hissues
  obtain ⟨r', l₁, l₂, rfl, hx, hf⟩ := hissues.bind
  have hQ := h l₁ r' hx
  cases r' with
  | ok a => exact hQ l₂ r hf
  | error e =>
    cases hf
    rwa [List.append_nil]

end Fallible

end Atomic
