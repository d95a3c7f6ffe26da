import TwilightDispatch.Atomic.Footprint
import TwilightDispatch.Atomic.Logged

/-!
# Programs that do not fail

A program succeeds under an invariant (`Succeeds`) if, whatever others do that keeps the invariant, it
keeps the invariant itself and returns a value, not an error. A pool of programs that succeed never holds
one that has failed, in whatever order they take their steps (`Safe.reached`).
-/

namespace Atomic

variable {I : Interface} {ε α β S : Type} {exec : Exec I S} {Inv : S → Prop}

/-! ## Programs -/

/-- Under interference that keeps `Inv`, the program keeps `Inv` and returns what satisfies `Q`. -/
def Safe (exec : Exec I S) (Inv : S → Prop) (p : Prog I α) (Q : α → Prop) : Prop :=
  ∀ s, Inv s → Wp exec (Maintains Inv) (fun c s => Maintains Inv s (exec c s).2) p (fun a _ => Q a) s

namespace Safe

variable {p : Prog I α} {Q Q' : α → Prop}

theorem ret {a : α} (h : Q a) : Safe exec Inv (.ret a : Prog I α) Q := fun _ _ _ _ => h

theorem cmd {c : I.Cmd} {k : I.Reply c → Prog I α}
    (h : ∀ s, Inv s → Inv (exec c s).2 ∧ Safe exec Inv (k (exec c s).1) Q) :
    Safe exec Inv (.cmd c k) Q := by
  intro s hs s' hm
  obtain ⟨hkeeps, hk⟩ := h s' (hm hs)
  exact ⟨fun _ => hkeeps, hk _ hkeeps⟩

theorem mono (h : Safe exec Inv p Q) (hQ : ∀ a, Q a → Q' a) : Safe exec Inv p Q' :=
  fun s hs => (h s hs).mono (fun _ _ hc => hc) fun a _ ha => hQ a ha

theorem keeps {c : I.Cmd} {k : I.Reply c → Prog I α} (h : Safe exec Inv (.cmd c k) Q) {s : S}
    (hs : Inv s) : Inv (exec c s).2 := (h s hs s fun hs => hs).1 hs

theorem next {c : I.Cmd} {k : I.Reply c → Prog I α} (h : Safe exec Inv (.cmd c k) Q) {s : S}
    (hs : Inv s) : Safe exec Inv (k (exec c s).1) Q :=
  fun _ hs' => ((h s hs s fun hs => hs).2).of_rely fun _ => hs'

theorem of_ret {a : α} (h : Safe exec Inv (.ret a : Prog I α) Q) {s : S} (hs : Inv s) : Q a :=
  h s hs s fun hs => hs

theorem bind {f : α → Prog I β} {Q : β → Prop} {R : α → Prop} (hp : Safe exec Inv p R)
    (hf : ∀ a, R a → Safe exec Inv (f a) Q) : Safe exec Inv (p >>= f) Q := by
  induction p with
  | ret a =>
    intro s hs
    exact hf a (hp.of_ret hs) s hs
  | cmd c k ih => exact .cmd fun s hs => ⟨hp.keeps hs, ih _ (hp.next hs)⟩

/-- What a program returns that has issued its commands among others that keep `Inv`. -/
theorem of_issues {a : α} {l : List (I.Cmd × S)} (h : Safe exec Inv p Q)
    (hissues : Prog.Issues exec p l (.ret a)) (hl : ∀ x ∈ l, Inv x.2) {s : S} (hs : Inv s) : Q a := by
  generalize hq : Prog.ret a = q at hissues
  induction hissues with
  | refl p =>
    subst hq
    exact h.of_ret hs
  | step _ ih =>
    obtain ⟨hfirst, hrest⟩ := List.forall_mem_cons.mp hl
    exact ih (h.next hfirst) hrest hq

/-- Programs that are safe may be started at any time and take their steps in any order. -/
theorem reached {ok : Prog I α → Prop} (hok : ∀ p, ok p → Safe exec Inv p Q) {s₀ s : S}
    {tasks : List (Prog I α)} (h : Reached exec ok s₀ tasks s) (h₀ : Inv s₀) :
    Inv s ∧ ∀ p ∈ tasks, Safe exec Inv p Q := by
  induction h with
  | init => exact ⟨h₀, fun _ hp => nomatch hp⟩
  | start hp _ ih =>
    refine ⟨ih.1, fun q hq => ?_⟩
    rcases List.mem_append.mp hq with hq | hq
    · exact ih.2 q hq
    · rw [List.mem_singleton.mp hq]
      exact hok _ hp
  | step hi _ ih =>
    have hp := ih.2 _ (List.mem_of_getElem? hi)
    refine ⟨hp.keeps ih.1, fun q hq => ?_⟩
    rcases List.mem_or_eq_of_mem_set hq with hq | rfl
    · exact ih.2 q hq
    · exact hp.next ih.1

/-- Every command of programs that are safe is executed where `Inv` holds. -/
theorem recorded {ok : Prog I α → Prop} (hok : ∀ p, ok p → Safe exec Inv p Q) {s₀ s : S}
    {log : List (Entry I S)} {tasks : List (Prog I α)} (h : Recorded exec ok s₀ log tasks s)
    (h₀ : Inv s₀) : ∀ e ∈ log, Inv e.state := by
  induction h with
  | init => exact fun _ he => nomatch he
  | start _ _ ih => exact ih
  | @step i c k log tasks s hi h ih =>
    intro e he
    rcases List.mem_append.mp he with he | he
    · exact ih e he
    · rw [List.mem_singleton.mp he]
      exact (reached hok h.reached h₀).1

end Safe

/-- A started program may be run to its end at once, and is then left with its result. -/
theorem Reached.returns {ok : Prog I α → Prop} {s₀ s : S} {tasks : List (Prog I α)} {i : ℕ}
    {p : Prog I α} (h : Reached exec ok s₀ tasks s) (hi : tasks[i]? = some p) :
    ∃ tasks', Reached exec ok s₀ tasks' (p.run exec s).2 ∧ .ret (p.run exec s).1 ∈ tasks' := by
  induction p generalizing s tasks with
  | ret a => exact ⟨tasks, h, List.mem_of_getElem? hi⟩
  | cmd c k ih =>
    have hlt : i < tasks.length := (List.getElem?_eq_some_iff.mp hi).1
    exact ih _ (h.step hi) (List.getElem?_set_self hlt)

/-! ## Fallible programs -/

/-- The program keeps `Inv` and returns a value that satisfies `Q`. -/
def Succeeds (exec : Exec I S) (Inv : S → Prop) (x : Fallible I ε α) (Q : α → Prop) : Prop :=
  Safe exec Inv (ExceptT.run x) fun r => ∃ a, r = .ok a ∧ Q a

namespace Succeeds

variable {x : Fallible I ε α} {Q Q' : α → Prop}

theorem pure {a : α} (h : Q a) : Succeeds exec Inv (pure a : Fallible I ε α) Q :=
  Safe.ret ⟨a, rfl, h⟩

theorem bind {f : α → Fallible I ε β} {Q : β → Prop} {R : α → Prop} (hx : Succeeds exec Inv x R)
    (hf : ∀ a, R a → Succeeds exec Inv (f a) Q) : Succeeds exec Inv (x >>= f) Q := by
  refine Safe.bind hx ?_
  rintro _ ⟨a, rfl, ha⟩
  exact hf a ha

theorem andThen {f : α → Fallible I ε β} {Q : β → Prop} (hx : Succeeds exec Inv x fun _ => True)
    (hf : ∀ a, Succeeds exec Inv (f a) Q) : Succeeds exec Inv (x >>= f) Q := hx.bind fun a _ => hf a

theorem mono (hx : Succeeds exec Inv x Q) (hQ : ∀ a, Q a → Q' a) : Succeeds exec Inv x Q' :=
  Safe.mono hx fun _ ⟨a, hr, ha⟩ => ⟨a, hr, hQ a ha⟩

theorem ite {c : Prop} [Decidable c] {y : Fallible I ε α} (hx : c → Succeeds exec Inv x Q)
    (hy : ¬ c → Succeeds exec Inv y Q) : Succeeds exec Inv (if c then x else y) Q := by
  split_ifs with hc
  · exact hx hc
  · exact hy hc

/-- The result of a program that succeeds, taken as a value. -/
theorem lift (hx : Succeeds exec Inv x Q) :
    Succeeds exec Inv (ExceptT.lift (ExceptT.run x) : Fallible I ε (Except ε α))
      fun r => ∃ a, r = .ok a ∧ Q a :=
  Safe.bind hx fun r hr => Safe.ret ⟨r, rfl, hr⟩

theorem mapM {f : α → Fallible I ε β} {R : β → Prop} {l : List α}
    (hf : ∀ a ∈ l, Succeeds exec Inv (f a) R) :
    Succeeds exec Inv (l.mapM f) fun bs => ∀ b ∈ bs, R b := by
  induction l with
  | nil => exact .pure fun b hb => nomatch hb
  | cons a l ih =>
    rw [List.mapM_cons]
    obtain ⟨ha, hl⟩ := List.forall_mem_cons.mp hf
    exact ha.bind fun b hb => (ih hl).bind fun bs hbs => .pure (List.forall_mem_cons.mpr ⟨hb, hbs⟩)

theorem forM {f : α → Fallible I ε PUnit} {l : List α}
    (hf : ∀ a ∈ l, Succeeds exec Inv (f a) fun _ => True) :
    Succeeds exec Inv (l.forM f) fun _ => True := by
  induction l with
  | nil => exact .pure trivial
  | cons a l ih =>
    obtain ⟨ha, hl⟩ := List.forall_mem_cons.mp hf
    exact ha.andThen fun _ => ih hl

theorem foldlM {f : β → α → Fallible I ε β} {R : β → Prop} {l : List α}
    (hf : ∀ b, R b → ∀ a ∈ l, Succeeds exec Inv (f b a) R) {b : β} (hb : R b) :
    Succeeds exec Inv (l.foldlM f b) R := by
  induction l generalizing b with
  | nil => exact .pure hb
  | cons a l ih =>
    rw [List.foldlM_cons]
    exact (hf b hb a List.mem_cons_self).bind fun b' hb' =>
      ih (fun b hb a ha => hf b hb a (List.mem_cons_of_mem _ ha)) hb'

end Succeeds

/-- The program keeps `Inv`, and returns a value that satisfies `Q` or fails with an error in `F`. -/
def Ends (exec : Exec I S) (Inv : S → Prop) (F : ε → Prop) (x : Fallible I ε α) (Q : α → Prop) : Prop :=
  Safe exec Inv (ExceptT.run x) fun r => (∃ a, r = .ok a ∧ Q a) ∨ ∃ e, r = .error e ∧ F e

namespace Ends

variable {x : Fallible I ε α} {Q : α → Prop} {F : ε → Prop}

theorem of_succeeds (hx : Succeeds exec Inv x Q) : Ends exec Inv F x Q := Safe.mono hx fun _ => .inl

theorem throw {e : ε} (h : F e) : Ends exec Inv F (throw e : Fallible I ε α) Q :=
  Safe.ret (.inr ⟨e, rfl, h⟩)

theorem bind {f : α → Fallible I ε β} {Q : β → Prop} {R : α → Prop} (hx : Ends exec Inv F x R)
    (hf : ∀ a, R a → Ends exec Inv F (f a) Q) : Ends exec Inv F (x >>= f) Q := by
  refine Safe.bind hx ?_
  rintro _ (⟨a, rfl, ha⟩ | ⟨e, rfl, he⟩)
  · exact hf a ha
  · exact .ret (.inr ⟨e, rfl, he⟩)

theorem ite {c : Prop} [Decidable c] {y : Fallible I ε α} (hx : c → Ends exec Inv F x Q)
    (hy : ¬ c → Ends exec Inv F y Q) : Ends exec Inv F (if c then x else y) Q := by
  split_ifs with hc
  · exact hx hc
  · exact hy hc

/-- A program that has no error to fail with succeeds. -/
theorem succeeds (hx : Ends exec Inv F x Q) (hF : ∀ e, ¬ F e) : Succeeds exec Inv x Q :=
  Safe.mono hx fun _ hr => hr.resolve_right fun ⟨e, _, he⟩ => hF e he

end Ends

end Atomic
