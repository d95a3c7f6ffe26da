import TwilightDispatch.Atomic.Isolation
import TwilightDispatch.Independence
import TwilightDispatch.Handler

/-!
# What is done for a guild

Whatever events come in between, and in whatever order the tasks take their steps, what the handler does
for the events about a guild, and what it leaves of the guild in the cache, is what it does and leaves for
these events alone (`guild_isolated`). The events for which it could not tell are those of a guild and the
ready events, which list guilds but read nothing.
-/

namespace TwilightDispatch

open Atomic Redis

variable {T V : Type} {J : Json T V} {P : PayloadJson V} {cfg : Config} {botId : Id .user}
  {home : Id .channel → Option (Id .guild)} {G : Id .guild}

/-! ## Part of a call -/

/-- The loop, if it is at an event that is kept. -/
def Loop.restrict (keep : Received → Bool) : Loop T V → Loop T V
  | .waiting => .waiting
  | .updating item prog => if keep item then .updating item prog else .waiting

/-- The effects of the tasks of the events that are kept, in order. -/
def effectsFor (keep : Received → Bool) (items : List Received) (sent : List (ℕ × Effect)) :
    List Effect :=
  sent.filterMap fun (i, effect) => if (items[i]?).any keep then some effect else none

/-- What a call is doing for the events that are kept, with other effects behind it. -/
def Outgoing.restrict (keep : Received → Bool) (o : Outgoing T V) (sent : List (ℕ × Effect)) :
    Outgoing T V :=
  ⟨o.events.filter keep, o.loop.restrict keep, o.tasks.filter fun t => keep t.item, sent⟩

/-- A second call does the same for the events that are kept, and nothing else. -/
structure Outgoing.Restricts (keep : Received → Bool) (o o₀ : Outgoing T V) : Prop where
  events : o₀.events = o.events.filter keep
  loop : o₀.loop = o.loop.restrict keep
  tasks : o₀.tasks = o.tasks.filter fun t => keep t.item
  sent : o₀.sent.map Prod.snd = effectsFor keep o.items o.sent

theorem Outgoing.Restricts.eq_restrict {keep : Received → Bool} {o o₀ : Outgoing T V}
    (h : o.Restricts keep o₀) : o₀ = o.restrict keep o₀.sent := by
  obtain ⟨events₀, loop₀, tasks₀, sent₀⟩ := o₀
  obtain ⟨rfl, rfl, rfl, -⟩ := h
  rfl

/-- Nothing is left to be done for part of the events if nothing is left for all. -/
theorem Outgoing.Restricts.finished {keep : Received → Bool} {o o₀ : Outgoing T V}
    (h : o.Restricts keep o₀) (hfin : o.finished = true) : o₀.finished = true := by
  rw [h.eq_restrict]
  simp only [Outgoing.finished, Bool.and_eq_true, List.isEmpty_iff, List.all_eq_true] at hfin ⊢
  obtain ⟨⟨hevents, hloop⟩, htasks⟩ := hfin
  refine ⟨⟨by simp [Outgoing.restrict, hevents], ?_⟩, fun t ht =>
    htasks t (List.mem_of_mem_filter ht)⟩
  rcases o with ⟨_, _ | _, _, _⟩
  · rfl
  · cases hloop

/-! ## Tasks that are kept -/

/-- A task that is kept is found among those that are, and goes on there as it does among all. -/
theorem exists_getElem?_filter {α : Type} {p : α → Bool} {l : List α} {i : ℕ} {a : α}
    (h : l[i]? = some a) (ha : p a = true) : ∃ j, (l.filter p)[j]? = some a ∧
      ∀ a', p a' = true → (l.set i a').filter p = (l.filter p).set j a' := by
  obtain ⟨hi, rfl⟩ := List.getElem?_eq_some_iff.mp h
  have hsplit : l.filter p = (l.take i).filter p ++ l[i] :: (l.drop (i + 1)).filter p := by
    rw [← List.filter_cons_of_pos ha, ← List.filter_append, List.getElem_cons_drop,
      List.take_append_drop]
  refine ⟨((l.take i).filter p).length, ?_, fun a' ha' => ?_⟩
  · rw [hsplit, List.getElem?_append_right (Nat.le_refl _)]
    simp
  · rw [hsplit, List.set_append_right _ _ (Nat.le_refl _), List.set_eq_take_append_cons_drop,
      if_pos hi, List.filter_append, List.filter_cons_of_pos ha']
    simp

/-- A task that is not kept does not show among those that are. -/
theorem filter_set_of_not {α : Type} {p : α → Bool} {l : List α} {i : ℕ} {a a' : α}
    (h : l[i]? = some a) (ha : p a = false) (ha' : p a' = false) :
    (l.set i a').filter p = l.filter p := by
  obtain ⟨hi, rfl⟩ := List.getElem?_eq_some_iff.mp h
  have hsplit : l.filter p = (l.take i).filter p ++ (l.drop (i + 1)).filter p := by
    conv_lhs => rw [← List.take_append_drop i l, ← List.getElem_cons_drop hi]
    rw [List.filter_append, List.filter_cons_of_neg (by simp [ha])]
  rw [hsplit, List.set_eq_take_append_cons_drop, if_pos hi, List.filter_append,
    List.filter_cons_of_neg (by simp [ha'])]

/-! ## Steps -/

/-- The commands for an event that is kept respect the region, and those for another spare it. -/
def Allows (R : Set Cell) (kept : Bool) (c : Cmd T) : Prop :=
  if kept then Respects exec (cells T) R c else Spares exec (cells T) R c

variable (J cfg botId) in
/-- The commands that are left for the events, and all for those that have not come, are allowed. -/
structure Outgoing.Obeys (keep : Received → Bool) (R : Set Cell) (Inv : Store T → Prop)
    (o : Outgoing T V) : Prop where
  items : ∀ item ∈ o.items, Only exec Inv (Allows R (keep item)) (item.cacheUpdate J cfg botId)
  loop : ∀ item prog, o.loop = .updating item prog → Only exec Inv (Allows R (keep item)) prog
  tasks : ∀ t ∈ o.tasks, Only exec Inv (Allows R (keep t.item)) t.prog

section Steps

variable {keep : Received → Bool} {R : Set Cell} {Inv : Store T → Prop} {o o' : Outgoing T V}
  {s s' s₀ : Store T} {issue : Option (ℕ × Cmd T)} {sent₀ : List (ℕ × Effect)}

theorem Received.only_task {item : Received} {allow : Cmd T → Prop}
    (h : Only exec Inv allow (item.cacheUpdate J cfg botId)) :
    Only exec Inv allow (item.task J P cfg botId) := by
  unfold Received.task
  split_ifs
  · refine h.bind fun r => ?_
    rcases r with (_ | _) | _
    all_goals exact .ret _
  · exact .ret _

theorem Outgoing.Obeys.moves (h : o.Obeys J cfg botId keep R Inv)
    (hm : Outgoing.Moves J P cfg botId o s issue o' s') (hs : Inv s) :
    o'.Obeys J cfg botId keep R Inv ∧ Inv s' := by
  have hitems' := hm.items
  obtain ⟨hitems, hloop, htasks⟩ := h
  rw [← hitems'] at hitems
  have hspawn (item : Received) (tasks : List (Task T))
      (hitem : Only exec Inv (Allows R (keep item)) (item.cacheUpdate J cfg botId))
      (htasks : ∀ t ∈ tasks, Only exec Inv (Allows R (keep t.item)) t.prog) :
      ∀ t ∈ tasks ++ [⟨item, item.task J P cfg botId, 0⟩],
        Only exec Inv (Allows R (keep t.item)) t.prog := by
    intro t ht
    rcases List.mem_append.mp ht with ht | ht
    · exact htasks t ht
    · rw [List.mem_singleton.mp ht]
      exact Received.only_task hitem
  have hset (i : ℕ) (tasks : List (Task T)) (t' : Task T)
      (htasks : ∀ t ∈ tasks, Only exec Inv (Allows R (keep t.item)) t.prog)
      (ht' : Only exec Inv (Allows R (keep t'.item)) t'.prog) :
      ∀ t ∈ tasks.set i t', Only exec Inv (Allows R (keep t.item)) t.prog := by
    intro t ht
    rcases List.mem_or_eq_of_mem_set ht with ht | rfl
    · exact htasks t ht
    · exact ht'
  cases hm with
  | @receive item events tasks sent s hin =>
    refine ⟨⟨hitems, ?_, htasks⟩, hs⟩
    rintro _ _ ⟨⟩
    exact hitems item (by simp [Outgoing.items, Loop.item])
  | @spawn item events tasks sent s hin =>
    have hitem := hitems item (by simp [Outgoing.items])
    exact ⟨⟨hitems, hloop, hspawn item tasks hitem htasks⟩, hs⟩
  | @command item c k events tasks sent s =>
    have hprog := hloop item _ rfl
    refine ⟨⟨hitems, ?_, htasks⟩, hprog.keeps hs⟩
    rintro _ _ ⟨⟩
    exact hprog.next hs
  | @updated item r events tasks sent s =>
    have hitem := hitems item (by simp [Outgoing.items])
    refine ⟨⟨hitems, ?_, hspawn item tasks hitem htasks⟩, hs⟩
    rintro _ _ ⟨⟩
  | @task i item c k n events loop tasks sent s hi =>
    have hprog := htasks _ (List.mem_of_getElem? hi)
    exact ⟨⟨hitems, hloop, hset i tasks _ htasks (hprog.next hs)⟩, hprog.keeps hs⟩
  | @effect i item effects n effect events loop tasks sent s hi he =>
    exact ⟨⟨hitems, hloop, hset i tasks _ htasks (.ret effects)⟩, hs⟩

/-- A command in both stores, if it respects the region. -/
theorem agree_of_allows {c : Cmd T} (h : Allows R true c) (hs : (cells T).Agree R s s₀) :
    (exec c s).1 = (exec c s₀).1 ∧ (cells T).Agree R (exec c s).2 (exec c s₀).2 :=
  ⟨Respects.reply h s s₀ hs, Respects.effect h s s₀ hs⟩

/-- A command in one store, if it spares the region. -/
theorem agree_of_not_allows {c : Cmd T} (h : Allows R false c) (hs : (cells T).Agree R s s₀) :
    (cells T).Agree R (exec c s).2 s₀ :=
  (Cells.Agree.symm ((if_neg Bool.false_ne_true).mp h s)).trans hs

theorem effectsFor_append (items : List Received) (sent more : List (ℕ × Effect)) :
    effectsFor keep items (sent ++ more) = effectsFor keep items sent ++ effectsFor keep items more :=
  List.filterMap_append ..

/-- A step of a call is one of the call for the events that are kept, or none. -/
theorem Outgoing.Moves.restrict (hm : Outgoing.Moves J P cfg botId o s issue o' s')
    (h : o.Obeys J cfg botId keep R Inv) (hs : Inv s) (hagree : (cells T).Agree R s s₀)
    (hsent : sent₀.map Prod.snd = effectsFor keep o.items o.sent) :
    ∃ log₀ sent₀' s₀', Outgoing.Run J P cfg botId (o.restrict keep sent₀) s₀ log₀
        (o'.restrict keep sent₀') s₀' ∧ (cells T).Agree R s' s₀' ∧
      sent₀'.map Prod.snd = effectsFor keep o'.items o'.sent := by
  rw [← hm.items] at hsent
  have hone {o₀ o₀' : Outgoing T V} {s₀ s₀' : Store T} (action : Action)
      (hstep : Outgoing.step J P cfg botId o₀ s₀ action = some (o₀', s₀')) :
      Outgoing.Run J P cfg botId o₀ s₀ _ o₀' s₀' := .step action hstep (.refl _ _)
  cases hm with
  | @receive item events tasks sent s hin =>
    cases hk : keep item with
    | false =>
      refine ⟨[], sent₀, s₀, ?_, hagree, hsent⟩
      simpa [Outgoing.restrict, Loop.restrict, hk] using Outgoing.Run.refl _ s₀
    | true =>
      refine ⟨_, sent₀, s₀, hone .loop ?_, hagree, hsent⟩
      simp [Outgoing.step, Outgoing.restrict, Loop.restrict, hk, hin]
  | @spawn item events tasks sent s hin =>
    cases hk : keep item with
    | false =>
      refine ⟨[], sent₀, s₀, ?_, hagree, hsent⟩
      simpa [Outgoing.restrict, Loop.restrict, hk] using Outgoing.Run.refl _ s₀
    | true =>
      refine ⟨_, sent₀, s₀, hone .loop ?_, hagree, hsent⟩
      simp [Outgoing.step, Outgoing.restrict, Outgoing.spawn, Loop.restrict, hk, hin]
  | @command item c k events tasks sent s =>
    have hprog := h.loop item _ rfl
    cases hk : keep item with
    | false =>
      rw [hk] at hprog
      refine ⟨[], sent₀, s₀, ?_, agree_of_not_allows (hprog.allowed hs) hagree, hsent⟩
      simpa [Outgoing.restrict, Loop.restrict, hk] using Outgoing.Run.refl _ s₀
    | true =>
      rw [hk] at hprog
      obtain ⟨hreply, hagree'⟩ := agree_of_allows (hprog.allowed hs) hagree
      refine ⟨_, sent₀, (exec c s₀).2, hone .loop ?_, hagree', hsent⟩
      rw [hreply]
      simp [Outgoing.step, Outgoing.restrict, Loop.restrict, hk]
  | @updated item r events tasks sent s =>
    cases hk : keep item with
    | false =>
      refine ⟨[], sent₀, s₀, ?_, hagree, hsent⟩
      simpa [Outgoing.restrict, Loop.restrict, hk] using Outgoing.Run.refl _ s₀
    | true =>
      refine ⟨_, sent₀, s₀, hone .loop ?_, hagree, hsent⟩
      simp [Outgoing.step, Outgoing.restrict, Outgoing.spawn, Loop.restrict, hk]
  | @task i item c k n events loop tasks sent s hi =>
    have hprog := h.tasks _ (List.mem_of_getElem? hi)
    cases hk : keep item with
    | false =>
      simp only [hk] at hprog
      refine ⟨[], sent₀, s₀, ?_, agree_of_not_allows (hprog.allowed hs) hagree, hsent⟩
      unfold Outgoing.restrict
      rw [filter_set_of_not hi hk hk]
      exact .refl _ s₀
    | true =>
      simp only [hk] at hprog
      obtain ⟨hreply, hagree'⟩ := agree_of_allows (hprog.allowed hs) hagree
      obtain ⟨j, hj, hset⟩ := exists_getElem?_filter (p := fun t : Task T => keep t.item) hi hk
      refine ⟨_, sent₀, (exec c s₀).2, hone (.task j) ?_, hagree', hsent⟩
      unfold Outgoing.restrict
      rw [hset _ hk, hreply]
      simp [Outgoing.step, hj]
  | @effect i item effects n effect events loop tasks sent s hi he =>
    have hitem : (Outgoing.items ⟨events, loop, tasks.set i ⟨item, .ret effects, n + 1⟩,
        sent ++ [(i, effect)]⟩ : List Received)[i]? = some item := by
      have hlt := (List.getElem?_eq_some_iff.mp hi).1
      unfold Outgoing.items
      rw [List.append_assoc, List.getElem?_append_left (by simpa using hlt), List.getElem?_map,
        List.getElem?_set_self hlt]
      rfl
    cases hk : keep item with
    | false =>
      refine ⟨[], sent₀, s₀, ?_, hagree, ?_⟩
      · unfold Outgoing.restrict
        rw [filter_set_of_not hi hk hk]
        exact .refl _ s₀
      · rw [hsent, effectsFor_append]
        simp [effectsFor, hitem, hk]
    | true =>
      obtain ⟨j, hj, hset⟩ := exists_getElem?_filter (p := fun t : Task T => keep t.item) hi hk
      refine ⟨_, sent₀ ++ [(j, effect)], s₀, hone (.task j) ?_, hagree, ?_⟩
      · unfold Outgoing.restrict
        rw [hset _ hk]
        simp [Outgoing.step, hj, he]
      · rw [List.map_append, hsent, effectsFor_append]
        simp [effectsFor, hitem, hk]

end Steps

/-! ## Calls under way together -/

/-- Calls take their steps in any order, on the same store. -/
inductive Calls.Run (J : Json T V) (P : PayloadJson V) (cfg : Config) (botId : Id .user) :
    List (Outgoing T V) → Store T → List (Outgoing T V) → Store T → Prop
  | refl (calls : List (Outgoing T V)) (s : Store T) : Run J P cfg botId calls s calls s
  | step {calls calls' : List (Outgoing T V)} {o o' : Outgoing T V} {s s' s'' : Store T} {k : ℕ}
      (action : Action) (hk : calls[k]? = some o)
      (h : Outgoing.step J P cfg botId o s action = some (o', s'))
      (rest : Run J P cfg botId (calls.set k o') s' calls' s'') :
      Run J P cfg botId calls s calls' s''

/-- Perform the actions of a schedule, each with the call it is of. -/
def Calls.perform (J : Json T V) (P : PayloadJson V) (cfg : Config) (botId : Id .user) :
    List (ℕ × Action) → List (Outgoing T V) → Store T → Option (List (Outgoing T V) × Store T)
  | [], calls, s => some (calls, s)
  | (k, action) :: actions, calls, s => do
    let o ← calls[k]?
    let (o', s') ← Outgoing.step J P cfg botId o s action
    Calls.perform J P cfg botId actions (calls.set k o') s'

theorem Calls.run_of_perform {actions : List (ℕ × Action)} {calls calls' : List (Outgoing T V)}
    {s s' : Store T} (h : Calls.perform J P cfg botId actions calls s = some (calls', s')) :
    Calls.Run J P cfg botId calls s calls' s' := by
  induction actions generalizing calls s with
  | nil =>
    cases h
    exact .refl _ _
  | cons action actions ih =>
    obtain ⟨o, hk, h⟩ := Option.bind_eq_some_iff.mp h
    obtain ⟨⟨o', s₁⟩, hstep, h⟩ := Option.bind_eq_some_iff.mp h
    exact .step action.2 hk hstep (ih h)

section Calls

variable {keep : Received → Bool} {R : Set Cell} {Inv : Store T → Prop}
  {calls calls' calls₀ : List (Outgoing T V)} {o o' : Outgoing T V} {s s' s'' s₀ : Store T} {k : ℕ}

theorem Calls.Run.trans_run {log : List (Issue T)} (h : Outgoing.Run J P cfg botId o s log o' s')
    (hk : calls[k]? = some o) (rest : Calls.Run J P cfg botId (calls.set k o') s' calls' s'') :
    Calls.Run J P cfg botId calls s calls' s'' := by
  induction h generalizing calls with
  | refl o s =>
    obtain ⟨hlt, rfl⟩ := List.getElem?_eq_some_iff.mp hk
    rwa [List.set_getElem_self] at rest
  | step action hstep _ ih =>
    have hlt := (List.getElem?_eq_some_iff.mp hk).1
    refine .step action hk hstep (ih (List.getElem?_set_self hlt) ?_)
    rwa [List.set_set]

/-- Each call has one that does the same for the events that are kept. -/
def Calls.Restrict (keep : Received → Bool) (calls calls₀ : List (Outgoing T V)) : Prop :=
  ∀ (k : ℕ) (o : Outgoing T V), calls[k]? = some o →
    ∃ o₀, calls₀[k]? = some o₀ ∧ o.Restricts keep o₀

/-- What calls do for the events that are kept can be done without the others. -/
theorem Calls.Run.restrict (hrun : Calls.Run J P cfg botId calls s calls' s')
    (h : ∀ o ∈ calls, o.Obeys J cfg botId keep R Inv) (hs : Inv s) (hagree : (cells T).Agree R s s₀)
    (hcalls : Calls.Restrict keep calls calls₀) :
    ∃ calls₀' s₀', Calls.Run J P cfg botId calls₀ s₀ calls₀' s₀' ∧ (cells T).Agree R s' s₀' ∧
      Calls.Restrict keep calls' calls₀' := by
  induction hrun generalizing calls₀ s₀ with
  | refl => exact ⟨calls₀, s₀, .refl _ _, hagree, hcalls⟩
  | @step calls calls' o o' s s₁ s'' k action hk hstep _ ih =>
    have hm := Outgoing.moves_of_step hstep
    have hobeys := h o (List.mem_of_getElem? hk)
    obtain ⟨hobeys', hinv⟩ := hobeys.moves hm hs
    obtain ⟨o₀, hk₀, hrestricts⟩ := hcalls k o hk
    obtain ⟨log₀, sent₀, s₀', hrun₀, hagree', hsent⟩ :=
      hm.restrict hobeys hs hagree hrestricts.sent
    rw [← hrestricts.eq_restrict] at hrun₀
    have hnext : Calls.Restrict keep (calls.set k o') (calls₀.set k (o'.restrict keep sent₀)) := by
      intro j u hj
      by_cases hkj : k = j
      · subst hkj
        rw [List.getElem?_set_self (List.getElem?_eq_some_iff.mp hk).1] at hj
        obtain rfl := Option.some.inj hj
        exact ⟨_, List.getElem?_set_self (List.getElem?_eq_some_iff.mp hk₀).1, rfl, rfl, rfl, hsent⟩
      · rw [List.getElem?_set_ne hkj] at hj ⊢
        exact hcalls j u hj
    have hall : ∀ u ∈ calls.set k o', u.Obeys J cfg botId keep R Inv := by
      intro u hu
      rcases List.mem_or_eq_of_mem_set hu with hu | rfl
      · exact h u hu
      · exact hobeys'
    obtain ⟨calls₂, s₂, hrun₂, hagree₂, hcalls₂⟩ := ih hall hinv hagree' hnext
    exact ⟨calls₂, s₂, .trans_run hrun₀ hk₀ hrun₂, hagree₂, hcalls₂⟩

end Calls

/-! ## Guilds -/

section Guilds

variable {event : Event}

/-- What an event touches is of the guild it is about. A ready event touches guilds and is about none. -/
theorem Event.owner_eq_about {e : Entity} (hready : event.kind ≠ .ready) (he : event.Touches e) :
    e.owner home = event.about home := by
  cases habout : event.about home with
  | some G => exact event.owner_of_touches habout he
  | none =>
    cases event with
    | channelCreate | channelDelete | channelPinsUpdate | channelUpdate | messageCreate |
      messageDelete | messageUpdate =>
      obtain rfl := he
      exact habout
    | messageDeleteBulk data =>
      obtain ⟨id, -, rfl⟩ := he
      exact habout
    | voiceStateUpdate data =>
      obtain ⟨g, hg, rfl⟩ := he
      exact absurd (hg.symm.trans habout) (Option.some_ne_none g)
    | userUpdate data =>
      obtain rfl := he
      rfl
    | ready data => exact absurd rfl hready
    | _ => first | exact absurd habout (Option.some_ne_none _) | exact he.elim

/-- An event lists the index of the guild it is about. -/
theorem Event.about_of_lists {g : Id .guild} (h : event.lists = some g) :
    event.about home = some g := by
  cases event <;> first | exact h | cases h

/-- An event that is about another guild, or about none, does not reach the region of a guild. -/
theorem region_disjoint (hready : event.kind ≠ .ready)
    (hok : ∀ e, event.Touches e → HomeOnly home e) (habout : event.about home ≠ some G) :
    Disjoint (region home event) (guildRegion home G) := by
  have hreach : ∀ e, event.Reaches home e → HomeOnly home e ∧ e.owner home ≠ some G := by
    rintro e (he | ⟨g, hg, he, hgo⟩)
    · exact ⟨hok e he, event.owner_eq_about hready he ▸ habout⟩
    · refine ⟨he, ?_⟩
      rw [Entity.owner_eq_of_guildOf hgo]
      exact fun h => habout ((event.about_of_lists hg).trans h)
  have hstored : ∀ e, event.Reaches home e → ∀ e', HomeOnly home e' → e'.owner home = some G →
      e.stored ≠ e'.stored := by
    intro e he e' he' ho hs
    obtain ⟨hhome, hne⟩ := hreach e he
    exact hne ((Entity.owner_eq_of_stored hhome he' hs).trans ho)
  rw [Set.disjoint_left]
  rintro (k | ⟨S, k⟩ | ⟨x, f⟩) hl hl'
  · obtain ⟨e, he, hk⟩ := hl
    obtain ⟨e', he', ho', hk'⟩ := hl'
    refine hstored e he e' he' ho' (Eq.trans ?_ hk')
    rcases hk with rfl | rfl
    · exact (newKey_key e).symm
    · exact (newKey_stored e).symm
  · rcases hl with ⟨g, hg, rfl⟩ | ⟨e, he, hm⟩
    · rcases hl' with ⟨g', hg', rfl⟩ | ⟨hS, -⟩
      · obtain rfl := Id.toString_inj.mp (guildKeys_inj.mp hg')
        exact habout (event.about_of_lists hg)
      · exact hS g rfl
    · rcases hl' with ⟨g', rfl, rfl⟩ | ⟨-, e', he', ho', hk'⟩
      · exact (hreach e he).2 (Entity.owner_eq_of_guildOf (guildOf_of_mem_setMembers hm))
      · refine hstored e he e' he' ho' (Eq.trans ?_ hk')
        rw [eq_newKey_of_mem_setMembers hm, newKey_key]
  · obtain ⟨-, e, he, rfl⟩ := hl
    obtain ⟨e', he', ho', hk'⟩ := hl'
    exact hstored e (.inl he) e' he' ho' ((newKey_key e).symm.trans hk')

/-- Values and index entries are written whatever was there. -/
theorem each_setAll {R : Set Cell} (orders : Orders) (kvs : List (String × Item)) :
    (ExceptT.run (setAll J orders kvs)).Each (Respects exec (cells T) R)
      fun r => ∀ a, r = .ok a → True := by
  have hl := Prog.Each.logic (ε := Failure) (Respects exec (cells T) R)
  have hwrite (c : Cmd T) (hc : ∀ s s', reply c s = reply c s') :
      (ExceptT.run (redis c)).Each (Respects exec (cells T) R) fun r => ∀ a, r = .ok a → True :=
    ⟨⟨fun s s' _ => congrArg Except.ok (hc s s'), fun s s' hs l hl => sameAt_apply_congr (hs l hl)⟩,
      fun _ _ _ => trivial⟩
  unfold setAll
  refine hl.ite (fun _ => hl.pure trivial) fun _ => ?_
  exact hl.andThen (hwrite _ fun _ _ => rfl) fun _ => hl.forM fun kv _ => hwrite _ fun _ _ => rfl

/-- A ready event reads nothing. -/
theorem each_update_ready {R : Set Cell} (env : Env) (data : Ready) :
    (ExceptT.run (update J cfg botId env (.ready data))).Each (Respects exec (cells T) R)
      fun r => ∀ a, r = .ok a → True := by
  have hl := Prog.Each.logic (ε := Failure) (Respects exec (cells T) R)
  exact hl.andThen (each_setAll ..) fun _ => hl.andThen (each_setAll ..) fun _ => hl.pure trivial

/-- Whether an event can have to do with a guild: it is about it, or it lists guilds. -/
def Received.concerns (home : Id .channel → Option (Id .guild)) (G : Id .guild) (item : Received) :
    Bool := item.event.kind = .ready || item.event.about home = some G

/-- The commands for an event that concerns a guild respect its region, and those for another spare it. -/
theorem Received.only_cacheUpdate {item : Received}
    (hok : ∀ e, item.event.Touches e → HomeOnly home e) :
    Only exec (Listing home) (Allows (guildRegion home G) (item.concerns home G))
      (item.cacheUpdate J cfg botId) := by
  have hconfined : Confined exec (cells T) (Listing home) _ (item.cacheUpdate J cfg botId) :=
    update_confined hok
  by_cases hready : item.event.kind = .ready
  · have hconcerns : item.concerns home G = true := by simp [Received.concerns, hready]
    rw [hconcerns]
    obtain ⟨shard, event, env⟩ := item
    cases event with
    | ready data => exact (hconfined.only fun _ h => h).of_each (each_update_ready env data)
    | _ => cases hready
  · by_cases habout : item.event.about home = some G
    · have hconcerns : item.concerns home G = true := by simp [Received.concerns, habout]
      rw [hconcerns]
      exact (hconfined.mono (region_subset habout hok)).only fun c hc => hc.respects
    · have hconcerns : item.concerns home G = false := by
        simp [Received.concerns, hready, habout]
      rw [hconcerns]
      exact hconfined.only fun c hc s => hc.agree_of_disjoint (region_disjoint hready hok habout) s

/-- **Isolation of guilds.** However the calls and their tasks take their steps, and whatever else is in
the streams and in the store: with only the events that concern a guild in the streams, the calls can take
the same steps for these, have the same effects in the same order, and leave the same of the guild. -/
theorem guild_isolated {streams : List (List Received)}
    (hok : ∀ events ∈ streams, ∀ item ∈ events, ∀ e, item.event.Touches e → HomeOnly home e)
    {s s' s₀ : Store T} {calls : List (Outgoing T V)} (hs : Reachable J cfg botId home s)
    (hagree : (cells T).Agree (guildRegion home G) s s₀)
    (hrun : Calls.Run J P cfg botId (streams.map .start) s calls s') :
    ∃ calls₀ s₀', Calls.Run J P cfg botId
        (streams.map fun events => .start (events.filter (Received.concerns home G))) s₀ calls₀ s₀' ∧
      (cells T).Agree (guildRegion home G) s' s₀' ∧
      Calls.Restrict (Received.concerns home G) calls calls₀ := by
  have hobeys : ∀ o ∈ streams.map (Outgoing.start : List Received → Outgoing T V),
      o.Obeys J cfg botId (Received.concerns home G) (guildRegion home G) (Listing home) := by
    intro o ho
    obtain ⟨events, hevents, rfl⟩ := List.mem_map.mp ho
    refine ⟨fun item hitem => item.only_cacheUpdate (hok events hevents item hitem), ?_,
      fun _ ht => absurd ht List.not_mem_nil⟩
    rintro _ _ ⟨⟩
  refine hrun.restrict hobeys hs.listing hagree fun k o hk => ?_
  rw [List.getElem?_map] at hk ⊢
  obtain ⟨events, hevents, rfl⟩ := Option.map_eq_some_iff.mp hk
  exact ⟨_, congrArg (Option.map _) hevents, rfl, rfl, rfl, rfl⟩

/-- Roles of two guilds are created, in two streams. -/
def twoRoles : List (List Received) :=
  [[⟨0, .roleCreate ⟨.of 1, ⟨.of 3, ""⟩⟩, .at (.of 0)⟩],
    [⟨1, .roleCreate ⟨.of 2, ⟨.of 4, ""⟩⟩, .at (.of 0)⟩]]

/-- The tasks take turns, and the first is as if it were alone. -/
theorem guild_isolated_twoRoles : ∃ calls s' o, Calls.Run Json.plain .empty .full (.of 9)
      (twoRoles.map .start) Store.empty calls s' ∧ calls[0]? = some o ∧ o.finished = true ∧
    ∃ calls₀ s₀' o₀, Calls.Run Json.plain .empty .full (.of 9)
        ((twoRoles.take 1 ++ [[]]).map .start) Store.empty calls₀ s₀' ∧
      calls₀[0]? = some o₀ ∧ o₀.finished = true ∧
      (cells _).Agree (guildRegion (fun _ => none) (.of 1)) s' s₀' := by
  have hdone : (Calls.perform Json.plain .empty .full (.of 9)
      ((.loop :: List.replicate 3 (.task 0)).flatMap fun action => [(0, action), (1, action)])
      (twoRoles.map .start) Store.empty).any (fun r => (r.1[0]?).any Outgoing.finished) = true := by
    decide +kernel
  obtain ⟨⟨calls, s'⟩, hr, hdone⟩ := (Option.any_eq_true _ _).mp hdone
  obtain ⟨o, ho, hfin⟩ := (Option.any_eq_true _ _).mp hdone
  have hrun := Calls.run_of_perform hr
  have hok : ∀ events ∈ twoRoles, ∀ item ∈ events, ∀ e, item.event.Touches e →
      HomeOnly (fun _ => none) e := by
    intro events hevents item hitem e he
    rcases List.mem_pair.mp hevents with rfl | rfl
    all_goals
      obtain rfl := List.mem_singleton.mp hitem
      obtain rfl := he
      trivial
  obtain ⟨calls₀, s₀', hrun₀, hagree, hcalls⟩ := guild_isolated (G := .of 1) hok ⟨[], .init⟩
    (fun l _ => ((cells _).equiv l).refl _) hrun
  obtain ⟨o₀, ho₀, hrestricts⟩ := hcalls 0 o ho
  exact ⟨calls, s', o, hrun, ho, hfin, calls₀, s₀', o₀, hrun₀, ho₀, hrestricts.finished hfin, hagree⟩

end Guilds

end TwilightDispatch
