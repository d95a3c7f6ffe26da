import TwilightDispatch.Atomic.Footprint

/-!
# Isolation

Two states agree on a region. A command that answers and acts on the region by what is there keeps them
so if it is executed in both (`Respects`), and one that leaves the region alone if it is executed in one
of them (`Spares`). What the programs do that respect a region can thus be repeated without those that
spare it.
-/

namespace Atomic

variable {I : Interface} {ε α β S L : Type} {exec : Exec I S} {cells : Cells S L} {J : S → Prop}
  {R R' : Set L} {allow allow' : I.Cmd → Prop}

/-! ## Commands -/

/-- What the command answers, and what it leaves in the region, is determined by what is there. -/
structure Respects (exec : Exec I S) (cells : Cells S L) (R : Set L) (c : I.Cmd) : Prop where
  reply : ∀ s s', cells.Agree R s s' → (exec c s).1 = (exec c s').1
  effect : ∀ s s', cells.Agree R s s' → cells.Agree R (exec c s).2 (exec c s').2

/-- The command leaves the region as it is. -/
def Spares (exec : Exec I S) (cells : Cells S L) (R : Set L) (c : I.Cmd) : Prop :=
  ∀ s, cells.Agree R s (exec c s).2

theorem Local.respects {c : I.Cmd} (h : Local exec cells R c) : Respects exec cells R c :=
  ⟨h.reply, h.effect⟩

/-! ## Programs -/

/-- From every state with `J`, under any interference that keeps `J`, the program issues only the
commands that are allowed, and keeps `J` itself. -/
def Only (exec : Exec I S) (J : S → Prop) (allow : I.Cmd → Prop) (p : Prog I α) : Prop :=
  ∀ s, J s → Wp exec (Maintains J) (fun c s => allow c ∧ Maintains J s (exec c s).2) p
    (fun _ _ => True) s

theorem Confined.only {p : Prog I α} (h : Confined exec cells J R p)
    (hallow : ∀ c, Local exec cells R c → allow c) : Only exec J allow p :=
  fun s hs => (h s hs).mono (fun _ _ hc => ⟨hallow _ hc.1, hc.2⟩) fun _ _ h => h

namespace Only

variable {c : I.Cmd} {k : I.Reply c → Prog I α} {s : S}

theorem ret (a : α) : Only exec J allow (.ret a : Prog I α) := fun _ _ _ _ => trivial

theorem allowed (h : Only exec J allow (.cmd c k)) (hs : J s) : allow c := (h s hs s fun h => h).1.1

theorem keeps (h : Only exec J allow (.cmd c k)) (hs : J s) : J (exec c s).2 :=
  (h s hs s fun h => h).1.2 hs

theorem next (h : Only exec J allow (.cmd c k)) (hs : J s) : Only exec J allow (k (exec c s).1) :=
  fun _ hs' => ((h s hs s fun h => h).2).of_rely fun _ => hs'

theorem bind {p : Prog I α} {f : α → Prog I β} (hp : Only exec J allow p)
    (hf : ∀ a, Only exec J allow (f a)) : Only exec J allow (p >>= f) := by
  induction p with
  | ret a => exact hf a
  | cmd c k ih =>
    intro s hs s' hm
    exact ⟨(hp s hs s' hm).1, ih _ (hp.next (hm hs)) _ (hp.keeps (hm hs))⟩

end Only

/-! ## All that a program can issue -/

/-- Whatever is answered, the program issues only the commands that are allowed, and returns what
satisfies `Q`. -/
def Prog.Each (allow : I.Cmd → Prop) (Q : α → Prop) : Prog I α → Prop
  | .ret a => Q a
  | .cmd c k => allow c ∧ ∀ r, (k r).Each allow Q

theorem Prog.Each.bind {p : Prog I α} {f : α → Prog I β} {Q : α → Prop} {Q' : β → Prop}
    (hp : p.Each allow Q) (hf : ∀ a, Q a → (f a).Each allow Q') : (p >>= f).Each allow Q' := by
  induction p with
  | ret a => exact hf a hp
  | cmd c k ih => exact ⟨hp.1, fun r => ih r (hp.2 r)⟩

/-- What every program can issue is a program logic. -/
theorem Prog.Each.logic (allow : I.Cmd → Prop) : Logic (I := I) (ε := ε) fun x Q =>
    (ExceptT.run x).Each allow fun r => ∀ a, r = .ok a → Q a where
  pure ha := fun _ h => Except.ok.inj h ▸ ha
  throw := fun _ => nofun
  bind hx hf := by
    refine Prog.Each.bind hx ?_
    rintro (e | a) ha
    · exact fun _ => nofun
    · exact hf a (ha a rfl)
  attempt hx := by
    rw [ExceptT.run_lift, ← bind_pure_comp]
    refine Prog.Each.bind hx fun r hr => ?_
    rintro r' hr' a rfl
    exact hr a (Except.ok.inj hr')

/-- A program that keeps the invariant and issues nothing else. -/
theorem Only.of_each {p : Prog I α} {Q : α → Prop} (h : Only exec J allow p)
    (hp : p.Each allow' Q) : Only exec J allow' p := by
  intro s hs
  induction p generalizing s with
  | ret a => exact fun _ _ => trivial
  | cmd c k ih =>
    intro s' hm
    exact ⟨⟨hp.1, (h s hs s' hm).1.2⟩, ih _ (h.next (hm hs)) (hp.2 _) _ (h.keeps (hm hs))⟩

end Atomic
