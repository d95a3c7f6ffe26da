import TwilightDispatch.Atomic.Interleave

/-!
# Footprints, commutation and serialisation

A state is read cell by cell (`Cells`). A command is local to a region when it changes no cell
outside and when its answer and its effect are determined by the cells inside. A program is
confined to a region, under an invariant, when every command it can issue is.

Programs confined to disjoint regions commute (`run_comm`), and every interleaving in which the
programs whose regions meet keep the order of the pool is equivalent to running the pool one
program after another (`Interleave.serial`).
-/

namespace Atomic

/-- How a state splits into cells: when two states agree at a cell, and that states which agree
everywhere are equal. -/
structure Cells (S L : Type) where
  same : L → S → S → Prop
  equiv : ∀ l, Equivalence (same l)
  ext : ∀ s s', (∀ l, same l s s') → s = s'

variable {I : Interface} {α β S L ε : Type} {exec : Exec I S} {cells : Cells S L}

/-- Agreement on every cell of a region. -/
def Cells.Agree (cells : Cells S L) (R : Set L) (s s' : S) : Prop :=
  ∀ l ∈ R, cells.same l s s'

theorem Cells.Agree.symm {R : Set L} {s s' : S} (h : cells.Agree R s s') :
    cells.Agree R s' s := fun l hl => (cells.equiv l).symm (h l hl)

theorem Cells.Agree.trans {R : Set L} {s s' s'' : S} (h : cells.Agree R s s')
    (h' : cells.Agree R s' s'') : cells.Agree R s s'' :=
  fun l hl => (cells.equiv l).trans (h l hl) (h' l hl)

/-! ## Local commands -/

/-- The command reads and writes only cells of `R`. -/
structure Local (exec : Exec I S) (cells : Cells S L) (R : Set L) (c : I.Cmd) : Prop where
  frame : ∀ s l, l ∉ R → cells.same l s (exec c s).2
  reply : ∀ s s', cells.Agree R s s' → (exec c s).1 = (exec c s').1
  effect : ∀ s s', cells.Agree R s s' → cells.Agree R (exec c s).2 (exec c s').2

theorem Local.mono {R R' : Set L} {c : I.Cmd} (h : Local exec cells R c) (hR : R ⊆ R') :
    Local exec cells R' c where
  frame s l hl := h.frame s l fun hl' => hl (hR hl')
  reply s s' hs := h.reply s s' fun l hl => hs l (hR hl)
  effect s s' hs := by
    intro l hl
    by_cases hl' : l ∈ R
    · exact h.effect s s' (fun l hl => hs l (hR hl)) l hl'
    · have hE := cells.equiv l
      exact hE.trans (hE.symm (h.frame s l hl')) (hE.trans (hs l hl) (h.frame s' l hl'))

/-- A command local to `R` leaves a region disjoint from `R` as it is. -/
theorem Local.agree_of_disjoint {R R' : Set L} {c : I.Cmd} (h : Local exec cells R c)
    (hd : Disjoint R R') (s : S) : cells.Agree R' s (exec c s).2 :=
  fun l hl => h.frame s l fun hl' => Set.disjoint_left.mp hd hl' hl

section Commute

variable {R R' : Set L} {c d : I.Cmd}

theorem Local.reply_comm (hc : Local exec cells R c) (hd : Local exec cells R' d)
    (h : Disjoint R R') (s : S) : (exec c (exec d s).2).1 = (exec c s).1 :=
  (hc.reply _ _ (hd.agree_of_disjoint h.symm s)).symm

/-- Commands local to disjoint regions commute. -/
theorem Local.effect_comm (hc : Local exec cells R c) (hd : Local exec cells R' d)
    (h : Disjoint R R') (s : S) : (exec c (exec d s).2).2 = (exec d (exec c s).2).2 := by
  refine cells.ext _ _ fun l => ?_
  have hE := cells.equiv l
  by_cases hl : l ∈ R
  · -- inside `R` both orders leave what `c` alone leaves
    have hl' : l ∉ R' := fun h' => Set.disjoint_left.mp h hl h'
    exact hE.trans (hE.symm (hc.effect _ _ (hd.agree_of_disjoint h.symm s) l hl))
      (hd.frame _ l hl')
  · have h₁ := hE.symm (hc.frame (exec d s).2 l hl)
    by_cases hl' : l ∈ R'
    · exact hE.trans h₁ (hd.effect _ _ (hc.agree_of_disjoint h s) l hl')
    · exact hE.trans h₁ (hE.trans (hE.symm (hd.frame s l hl'))
        (hE.trans (hc.frame s l hl) (hd.frame _ l hl')))

end Commute

/-! ## Confined programs -/

/-- Moves that keep an invariant. -/
def Maintains (J : S → Prop) (s s' : S) : Prop := J s → J s'

instance (J : S → Prop) : Std.Refl (Maintains J) := ⟨fun _ h => h⟩

instance (J : S → Prop) : IsTrans S (Maintains J) := ⟨fun _ _ _ h h' hs => h' (h hs)⟩

/-- What a confined program is allowed to do: commands local to `R`, keeping `J`. -/
def Within (exec : Exec I S) (cells : Cells S L) (J : S → Prop) (R : Set L) (c : I.Cmd)
    (s : S) : Prop :=
  Local exec cells R c ∧ Maintains J s (exec c s).2

/-- From every state with `J`, under any interference that keeps `J`, the program issues only
commands local to `R` and keeps `J` itself. -/
def Confined (exec : Exec I S) (cells : Cells S L) (J : S → Prop) (R : Set L)
    (p : Prog I α) : Prop :=
  ∀ s, J s → Wp exec (Maintains J) (Within exec cells J R) p (fun _ _ => True) s

section Confined

variable {J : S → Prop} {R R' : Set L}

theorem Confined.mono {p : Prog I α} (h : Confined exec cells J R p) (hR : R ⊆ R') :
    Confined exec cells J R' p :=
  fun s hs => (h s hs).mono (fun _ _ hc => ⟨hc.1.mono hR, hc.2⟩) fun _ _ h => h

theorem confined_ret (a : α) : Confined exec cells J R (.ret a : Prog I α) :=
  fun _ _ _ _ => trivial

/-- Every command is local to the whole state. -/
theorem local_univ (cells : Cells S L) (c : I.Cmd) : Local exec cells Set.univ c where
  frame _ l hl := absurd (Set.mem_univ l) hl
  reply s s' hs := by rw [cells.ext s s' fun l => hs l (Set.mem_univ l)]
  effect s s' hs := by
    rw [cells.ext s s' fun l => hs l (Set.mem_univ l)]
    exact fun l _ => (cells.equiv l).refl _

/-- Every program is confined to the whole state. -/
theorem confined_univ (cells : Cells S L) (p : Prog I α) :
    Confined exec cells (fun _ => True) Set.univ p := by
  intro s _
  induction p generalizing s with
  | ret a => exact fun _ _ => trivial
  | cmd c k ih => exact fun s' _ => ⟨⟨local_univ cells c, fun h => h⟩, ih _ _⟩

theorem Confined.local {c : I.Cmd} {k : I.Reply c → Prog I α}
    (h : Confined exec cells J R (.cmd c k)) {s : S} (hs : J s) : Local exec cells R c :=
  (h s hs s fun h => h).1.1

theorem Confined.keeps {c : I.Cmd} {k : I.Reply c → Prog I α}
    (h : Confined exec cells J R (.cmd c k)) {s : S} (hs : J s) : J (exec c s).2 :=
  (h s hs s fun h => h).1.2 hs

theorem Confined.next {c : I.Cmd} {k : I.Reply c → Prog I α}
    (h : Confined exec cells J R (.cmd c k)) {s : S} (hs : J s) :
    Confined exec cells J R (k (exec c s).1) :=
  fun _ hs' => ((h s hs s fun h => h).2).of_rely fun _ => hs'

theorem Confined.run_keeps {p : Prog I α} (h : Confined exec cells J R p) {s : S} (hs : J s) :
    J (p.run exec s).2 := by
  induction p generalizing s with
  | ret a => exact hs
  | cmd c k ih => exact ih _ (h.next hs) (h.keeps hs)

/-- Every command of a run is local to the region. -/
theorem Confined.trace_local {p : Prog I α} (h : Confined exec cells J R p) {s : S} (hs : J s) :
    ∀ c ∈ p.trace exec s, Local exec cells R c := by
  induction p generalizing s with
  | ret a => exact fun _ hc => nomatch hc
  | cmd c k ih =>
    intro d hd
    rcases List.mem_cons.mp hd with rfl | hd
    · exact h.local hs
    · exact ih _ (h.next hs) (h.keeps hs) d hd

/-- A command commutes with a whole run confined to a disjoint region. -/
theorem Confined.run_comm_cmd {p : Prog I α} (hp : Confined exec cells J R p) {c : I.Cmd}
    (hc : Local exec cells R' c) (hd : Disjoint R R') {s : S} (hs : J s) :
    (p.run exec (exec c s).2).1 = (p.run exec s).1 ∧
      (p.run exec (exec c s).2).2 = (exec c (p.run exec s).2).2 ∧
      (exec c (p.run exec s).2).1 = (exec c s).1 := by
  induction p generalizing s with
  | ret a => exact ⟨rfl, rfl, rfl⟩
  | cmd d k ih =>
    have hl := hp.local hs
    have hnext := hp.next hs
    obtain ⟨h₁, h₂, h₃⟩ := ih _ hnext (hp.keeps hs)
    rw [hc.effect_comm hl hd.symm] at h₁ h₂
    rw [hc.reply_comm hl hd.symm] at h₃
    rw [Prog.run_issue, Prog.run_issue, hl.reply_comm hc hd]
    exact ⟨h₁, h₂, h₃⟩

/-- Programs confined to disjoint regions commute, results included. -/
theorem Confined.run_comm {p : Prog I α} {q : Prog I β} (hp : Confined exec cells J R p)
    (hq : Confined exec cells J R' q) (hd : Disjoint R R') {s : S} (hs : J s) :
    (p.run exec (q.run exec s).2).1 = (p.run exec s).1 ∧
      (q.run exec (p.run exec s).2).1 = (q.run exec s).1 ∧
      (p.run exec (q.run exec s).2).2 = (q.run exec (p.run exec s).2).2 := by
  induction q generalizing s with
  | ret b => exact ⟨rfl, rfl, rfl⟩
  | cmd c k ih =>
    have hc := hq.local hs
    obtain ⟨h₁, h₂, h₃⟩ := hp.run_comm_cmd hc hd hs
    obtain ⟨i₁, i₂, i₃⟩ := ih _ (hq.next hs) (hq.keeps hs)
    rw [Prog.run_issue, Prog.run_issue, h₃, ← h₂]
    exact ⟨i₁.trans h₁, i₂, i₃⟩

/-- A confined program may rely on the invariant where it returns. -/
theorem Wp.with_invariant {p : Prog I α} {Q : α → S → Prop} {s : S}
    (h : Wp exec (Maintains J) (Within exec cells J R) p Q s) (hs : J s) :
    Wp exec (Maintains J) (Within exec cells J R) p (fun a s => Q a s ∧ J s) s := by
  induction p generalizing s with
  | ret a => exact fun s' hm => ⟨h s' hm, hm hs⟩
  | cmd c k ih =>
    intro s' hm
    obtain ⟨hc, hk⟩ := h s' hm
    exact ⟨hc, ih _ hk (hc.2 (hm hs))⟩

theorem Confined.bind {p : Prog I α} {f : α → Prog I β} (hp : Confined exec cells J R p)
    (hf : ∀ a, Confined exec cells J R (f a)) : Confined exec cells J R (p >>= f) :=
  fun s hs => Wp.bind (((hp s hs).with_invariant hs).mono (fun _ _ hc => hc)
    fun a s' ha => hf a s' ha.2)

/-- Started programs that are confined stay so, and keep the invariant. -/
theorem Confined.reached {ok : Prog I α → Prop} (hok : ∀ p, ok p → Confined exec cells J R p)
    {s₀ s : S} {tasks : List (Prog I α)} (h : Reached exec ok s₀ tasks s) (h₀ : J s₀) :
    J s ∧ ∀ p ∈ tasks, Confined exec cells J R p := by
  induction h with
  | init => exact ⟨h₀, fun _ hp => nomatch hp⟩
  | start hp _ ih =>
    refine ⟨ih.1, fun q hq => ?_⟩
    rcases List.mem_append.mp hq with hq | hq
    · exact ih.2 q hq
    · rw [List.mem_singleton.mp hq]
      exact hok _ hp
  | step hi _ ih =>
    have hp := ih.2 _ (List.mem_of_getElem? hi)
    refine ⟨hp.keeps ih.1, fun q hq => ?_⟩
    rcases List.mem_or_eq_of_mem_set hq with hq | rfl
    · exact ih.2 q hq
    · exact hp.next ih.1

end Confined

/-! ## Confinement of fallible programs -/

section Confines

variable {J : S → Prop} {R : Set L}

/-- The program is confined, and what it returns satisfies `Q`. -/
def Confines (exec : Exec I S) (cells : Cells S L) (J : S → Prop) (R : Set L)
    (x : Fallible I ε α) (Q : α → Prop) : Prop :=
  ∀ s, J s → Fallible.Wp exec (Maintains J) (Within exec cells J R) x
    (fun r _ => ∀ a, r = .ok a → Q a) s

theorem Confines.confined {x : Fallible I ε α} {Q : α → Prop}
    (h : Confines exec cells J R x Q) : Confined exec cells J R (ExceptT.run x) :=
  fun s hs => (h s hs).mono (fun _ _ hc => hc) fun _ _ _ => trivial

/-- What follows a fallible program may rely on what it returns. -/
theorem Confines.bind_run {x : Fallible I ε α} {Q : α → Prop} {f : Except ε α → Prog I β}
    (hx : Confines exec cells J R x Q)
    (hf : ∀ r, (∀ a, r = .ok a → Q a) → Confined exec cells J R (f r)) :
    Confined exec cells J R (ExceptT.run x >>= f) :=
  fun s hs => Wp.bind (((hx s hs).with_invariant hs).mono (fun _ _ hc => hc)
    fun r s' hr => hf r hr.1 s' hr.2)

/-- Confinement is a program logic. -/
theorem Confines.logic (exec : Exec I S) (cells : Cells S L) (J : S → Prop) (R : Set L) :
    Logic (I := I) (ε := ε) fun x Q => Confines exec cells J R x Q where
  pure ha s _ := Fallible.wp_pure fun _ _ _ h => Except.ok.inj h ▸ ha
  throw s _ := Fallible.wp_throw fun _ _ => nofun
  bind hx hf s hs := by
    refine Fallible.wp_bind ((hx s hs).with_invariant hs |>.mono (fun _ _ hc => hc) ?_)
    rintro (e | a) s' ⟨ha, hs'⟩
    · exact fun _ _ => nofun
    · exact hf a (ha a rfl) s' hs'
  attempt hx s hs := by
    unfold Fallible.Wp
    rw [ExceptT.run_lift, ← bind_pure_comp]
    refine Wp.bind ((hx s hs).mono (fun _ _ hc => hc) fun r s' hr => ?_)
    rintro s'' _ r' hr' a rfl
    exact hr a (Except.ok.inj hr')

end Confines

/-! ## Serialisation -/

section Serial

variable {J : S → Prop}

/-- The part of a schedule that belongs to the tail of the pool. -/
def tailSchedule (σ : List ℕ) : List ℕ := (σ.filter (· ≠ 0)).map (· - 1)

@[simp] theorem tailSchedule_nil : tailSchedule [] = [] := rfl

@[simp] theorem tailSchedule_zero (σ : List ℕ) : tailSchedule (0 :: σ) = tailSchedule σ := rfl

@[simp] theorem tailSchedule_succ (i : ℕ) (σ : List ℕ) :
    tailSchedule ((i + 1) :: σ) = i :: tailSchedule σ := rfl

theorem mem_tailSchedule {σ : List ℕ} {i : ℕ} : i ∈ tailSchedule σ ↔ i + 1 ∈ σ := by
  induction σ with
  | nil => simp
  | cons j σ ih =>
    cases j with
    | zero => simp [ih]
    | succ j => simp [ih]

theorem tailSchedule_pairwise {T : ℕ → ℕ → Prop} {σ : List ℕ} (h : σ.Pairwise T) :
    (tailSchedule σ).Pairwise fun a b => T (a + 1) (b + 1) := by
  induction σ with
  | nil => exact .nil
  | cons j σ ih =>
    obtain ⟨hj, hσ⟩ := List.pairwise_cons.mp h
    cases j with
    | zero => exact ih hσ
    | succ j =>
      rw [tailSchedule_succ, List.pairwise_cons]
      exact ⟨fun a ha => hj _ (mem_tailSchedule.mp ha), ih hσ⟩

/-- A task that still has a command to issue appears in the schedule. -/
theorem Interleave.mem_of_cmd {σ : List ℕ} {tasks : List (Prog I α)} {s s' : S} {as : List α}
    (h : Interleave exec σ tasks s as s') {i : ℕ} {c : I.Cmd} {k : I.Reply c → Prog I α}
    (hi : tasks[i]? = some (.cmd c k)) : i ∈ σ := by
  induction h with
  | done as s =>
    rw [List.getElem?_map, Option.map_eq_some_iff] at hi
    obtain ⟨a, _, ha⟩ := hi
    cases ha
  | @step j _ _ σ tasks s s' as hj h ih =>
    by_cases hij : i = j
    · exact hij ▸ List.mem_cons_self
    · exact List.mem_cons_of_mem _ (ih (by rwa [List.getElem?_set_ne (Ne.symm hij)]))

/-- The first program of the pool can be run to its end before the others start, if every task
that moves before it has finished is confined to a region disjoint from its own. -/
theorem Interleave.pull_head {R : ℕ → Set L} {σ : List ℕ} {p : Prog I α}
    {ps : List (Prog I α)} {s s' : S} {as : List α}
    (h : Interleave exec σ (p :: ps) s as s')
    (hp : Confined exec cells J (R 0) p)
    (hps : ∀ i q, ps[i]? = some q → Confined exec cells J (R (i + 1)) q)
    (hσ : σ.Pairwise fun a b => a ≤ b ∨ Disjoint (R a) (R b)) (hs : J s) :
    ∃ as', as = (p.run exec s).1 :: as' ∧
      Interleave exec (tailSchedule σ) ps (p.run exec s).2 as' s' := by
  generalize ht : p :: ps = tasks at h
  induction h generalizing p ps with
  | done as s =>
    cases as with
    | nil => cases ht
    | cons a as =>
      obtain ⟨rfl, rfl⟩ := List.cons.inj ht
      exact ⟨as, rfl, .done as s⟩
  | @step j c k σ tasks s s' as hj h ih =>
    subst ht
    obtain ⟨hhead, htail⟩ := List.pairwise_cons.mp hσ
    cases j with
    | zero =>
      obtain rfl : p = .cmd c k := by simpa using hj
      exact ih (hp.next hs) hps htail (hp.keeps hs) rfl
    | succ j =>
      have hq : ps[j]? = some (.cmd c k) := by simpa using hj
      have hqc := hps j _ hq
      have hlt : j < ps.length := (List.getElem?_eq_some_iff.mp hq).1
      have hps' : ∀ i q, (ps.set j (k (exec c s).1))[i]? = some q →
          Confined exec cells J (R (i + 1)) q := by
        intro i q hi
        by_cases hij : i = j
        · subst hij
          rw [List.getElem?_set_self hlt, Option.some.injEq] at hi
          exact hi ▸ hqc.next hs
        · rw [List.getElem?_set_ne (Ne.symm hij)] at hi
          exact hps i q hi
      obtain ⟨as', has, hrun⟩ := ih hp hps' htail (hqc.keeps hs) rfl
      rw [tailSchedule_succ]
      cases p with
      | ret a => exact ⟨as', has, .step hq hrun⟩
      | cmd d k' =>
        -- the head still has commands to issue, so what moves before it is independent of it
        have h0 : 0 ∈ σ := h.mem_of_cmd (i := 0) rfl
        have hd : Disjoint (R 0) (R (j + 1)) := by
          rcases hhead 0 h0 with h' | h'
          · omega
          · exact h'.symm
        obtain ⟨h₁, h₂, h₃⟩ := hp.run_comm_cmd (hqc.local hs) hd hs
        refine ⟨as', h₁ ▸ has, .step hq ?_⟩
        rw [h₃, ← h₂]
        exact hrun

/-- **Serialisation.** An interleaving in which programs whose regions meet take their steps in
pool order ends with the results and the state of running the pool in order. -/
theorem Interleave.serial {R : ℕ → Set L} {σ : List ℕ} {tasks : List (Prog I α)} {s s' : S}
    {as : List α} (h : Interleave exec σ tasks s as s')
    (hconf : ∀ i p, tasks[i]? = some p → Confined exec cells J (R i) p)
    (hσ : σ.Pairwise fun a b => a ≤ b ∨ Disjoint (R a) (R b)) (hs : J s) :
    runAll exec tasks s = (as, s') := by
  induction tasks generalizing σ s as R with
  | nil =>
    generalize ht : ([] : List (Prog I α)) = tasks at h
    cases h with
    | done as s =>
      obtain rfl : as = [] := List.map_eq_nil_iff.mp ht.symm
      rfl
    | step hi _ => rw [← ht] at hi; cases hi
  | cons p ps ih =>
    have hp := hconf 0 p rfl
    have hps : ∀ i q, ps[i]? = some q → Confined exec cells J (R (i + 1)) q :=
      fun i q hi => hconf (i + 1) q (by simpa using hi)
    obtain ⟨as', rfl, hrest⟩ := h.pull_head hp hps hσ hs
    have hσ' : (tailSchedule σ).Pairwise fun a b =>
        a ≤ b ∨ Disjoint (R (a + 1)) (R (b + 1)) :=
      (tailSchedule_pairwise hσ).imp fun h => h.imp_left fun h => by omega
    have := ih hrest (R := fun i => R (i + 1)) hps hσ' (hp.run_keeps hs)
    rw [runAll_cons, this]

/-- Every interleaving of programs confined to disjoint regions is equivalent to running the pool
in order. -/
theorem Interleave.serial_of_disjoint {R : ℕ → Set L} {σ : List ℕ} {tasks : List (Prog I α)}
    {s s' : S} {as : List α} (h : Interleave exec σ tasks s as s')
    (hconf : ∀ i p, tasks[i]? = some p → Confined exec cells J (R i) p)
    (hd : ∀ i j, i ≠ j → Disjoint (R i) (R j)) (hs : J s) : runAll exec tasks s = (as, s') := by
  refine h.serial hconf (List.pairwise_of_forall fun a b => ?_) hs
  by_cases hab : a = b
  · exact Or.inl hab.le
  · exact Or.inr (hd a b hab)

/-- Two programs confined to disjoint regions do not interfere: interleaved in any way, they end as
when one is run after the other, in either order. -/
theorem Interleave.comm_of_disjoint {R R' : Set L} {σ : List ℕ} {p q : Prog I α} {s s' : S}
    {a b : α} (h : Interleave exec σ [p, q] s [a, b] s') (hp : Confined exec cells J R p)
    (hq : Confined exec cells J R' q) (hd : Disjoint R R') (hs : J s) :
    runAll exec [p, q] s = ([a, b], s') ∧ runAll exec [q, p] s = ([b, a], s') := by
  have hserial : runAll exec [p, q] s = ([a, b], s') := by
    have hconf : ∀ i r, [p, q][i]? = some r →
        Confined exec cells J (if i = 0 then R else if i = 1 then R' else ∅) r := by
      rintro (_ | _ | i) r hr
      · obtain rfl := Option.some.inj hr
        exact hp
      · obtain rfl := Option.some.inj hr
        exact hq
      · cases hr
    refine h.serial_of_disjoint hconf ?_ hs
    · rintro (_ | _ | i) (_ | _ | j) hij
      · exact absurd rfl hij
      · exact hd
      · exact Set.disjoint_empty _
      · exact hd.symm
      · exact absurd rfl hij
      · exact Set.disjoint_empty _
      all_goals exact Set.empty_disjoint _
  refine ⟨hserial, ?_⟩
  obtain ⟨h₁, h₂, h₃⟩ := hp.run_comm hq hd hs
  simp only [runAll_cons, runAll_nil, Prod.mk.injEq, List.cons.injEq, and_true] at hserial ⊢
  rw [h₂] at hserial
  rw [h₁, h₃]
  exact ⟨⟨hserial.1.2, hserial.1.1⟩, hserial.2⟩

end Serial

end Atomic
