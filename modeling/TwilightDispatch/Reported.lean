import TwilightDispatch.Published

/-!
# What has been reported

What a task has had effects on so far are the first of the effects that it returns, in order and
without repetition (`Outgoing.Accounted`). So a dispatch has been published exactly when its task has
finished (`published_iff`).
-/

namespace TwilightDispatch

open Atomic Redis

variable {T V : Type} {J : Json T V} {P : PayloadJson V} {cfg : Config} {botId : Id .user}
  {o o' : Outgoing T V} {s s' : Store T} {i j : ℕ} {t : Task T} {item : Received}

/-! ## Effects of one task -/

/-- The effects of the task at a position so far. -/
def Outgoing.sentBy (o : Outgoing T V) (i : ℕ) : List Effect :=
  (o.sent.filter fun entry => entry.1 = i).map Prod.snd

theorem mem_sentBy {effect : Effect} : effect ∈ o.sentBy i ↔ (i, effect) ∈ o.sent := by
  simp [Outgoing.sentBy]

/-- The effects a task has had, of those it returns. -/
def Task.reported (t : Task T) : List Effect :=
  match t.prog with
  | .ret effects => effects.take t.done
  | .cmd _ _ => []

theorem Task.reported_of_done (h : t.done = 0) : t.reported = [] := by
  unfold Task.reported
  split
  · rw [h, List.take_zero]
  · rfl

/-- A task has had the effects that are counted, and a task that still has commands to execute has had
none. The task of a payload has nothing but effects. -/
structure Task.Counted (P : PayloadJson V) (t : Task T) : Prop where
  waits : ∀ c k, t.prog = .cmd c k → t.done = 0
  bounded : ∀ effects, t.prog = .ret effects → t.done ≤ effects.length
  payload : t.item.event.kind = .shardPayload → t.prog = .ret (t.item.report P none)

theorem Task.counted_spawn (item : Received) :
    Task.Counted P (⟨item, item.task J P cfg botId, 0⟩ : Task T) where
  waits _ _ _ := rfl
  bounded _ _ := Nat.zero_le _
  payload hkind := Received.task_of_inTask (Received.inTask_of_payload hkind)

/-- What has been sent is what the tasks have reported. -/
structure Outgoing.Accounted (P : PayloadJson V) (o : Outgoing T V) : Prop where
  sent : ∀ i, o.sentBy i = (o.tasks[i]?.map Task.reported).getD []
  tasks : ∀ t ∈ o.tasks, t.Counted P

theorem Outgoing.Accounted.start (events : List Received) :
    Outgoing.Accounted P (.start events : Outgoing T V) where
  sent _ := rfl
  tasks _ ht := nomatch ht

theorem Outgoing.Accounted.receive (h : o.Accounted P) (events : List Received) :
    Outgoing.Accounted P { o with events := events } := ⟨h.sent, h.tasks⟩

/-- The task that is spawned has reported nothing. -/
theorem Outgoing.Accounted.spawn {events : List Received} {loop loop' : Loop T V}
    {tasks : List (Task T)} {sent : List (ℕ × Effect)}
    (h : Outgoing.Accounted P ⟨events, loop, tasks, sent⟩) {events' : List Received}
    (item : Received) : Outgoing.Accounted P
      ⟨events', loop', tasks ++ [⟨item, item.task J P cfg botId, 0⟩], sent⟩ := by
  refine ⟨fun i => (h.sent i).trans ?_, fun t ht => ?_⟩
  · change (tasks[i]?.map Task.reported).getD [] = ((tasks ++ [_])[i]?.map Task.reported).getD []
    rcases lt_trichotomy i tasks.length with hi | rfl | hi
    · rw [List.getElem?_append_left hi]
    · simp [Task.reported_of_done]
    · rw [List.getElem?_eq_none hi.le, List.getElem?_eq_none (by simp; omega)]
  · rcases List.mem_append.mp ht with ht | ht
    · exact h.tasks t ht
    · rw [List.mem_singleton.mp ht]
      exact Task.counted_spawn item

theorem Outgoing.Accounted.moves {issue : Option (ℕ × Cmd T)} (h : o.Accounted P)
    (hm : Outgoing.Moves J P cfg botId o s issue o' s') : o'.Accounted P := by
  cases hm with
  | receive => exact ⟨h.sent, h.tasks⟩
  | command => exact ⟨h.sent, h.tasks⟩
  | @spawn item => exact h.spawn item
  | @updated item => exact h.spawn item
  | @task i item c k n events loop tasks sent s hi =>
    have hcounted := h.tasks _ (List.mem_of_getElem? hi)
    obtain rfl : n = 0 := hcounted.waits c k rfl
    have hlt : i < tasks.length := (List.getElem?_eq_some_iff.mp hi).1
    refine ⟨fun j => (h.sent j).trans ?_, fun t ht => ?_⟩
    · change (tasks[j]?.map Task.reported).getD [] =
        ((tasks.set i ⟨item, k (exec c s).1, 0⟩)[j]?.map Task.reported).getD []
      by_cases hij : i = j
      · subst hij
        rw [hi, List.getElem?_set_self hlt]
        have hold : (⟨item, .cmd c k, 0⟩ : Task T).reported = [] := Task.reported_of_done rfl
        have hnew : (⟨item, k (exec c s).1, 0⟩ : Task T).reported = [] := Task.reported_of_done rfl
        exact hold.trans hnew.symm
      · rw [List.getElem?_set_ne hij]
    · rcases List.mem_or_eq_of_mem_set ht with ht | rfl
      · exact h.tasks t ht
      · exact ⟨fun _ _ _ => rfl, fun _ _ => Nat.zero_le _, fun hkind =>
          nomatch hcounted.payload hkind⟩
  | @effect i item effects n effect events loop tasks sent s hi he =>
    have hcounted := h.tasks _ (List.mem_of_getElem? hi)
    have hlt : i < tasks.length := (List.getElem?_eq_some_iff.mp hi).1
    have hn : n < effects.length := (List.getElem?_eq_some_iff.mp he).1
    refine ⟨fun j => ?_, fun t ht => ?_⟩
    · have hsent := h.sent j
      change ((sent ++ [(i, effect)]).filter fun entry => entry.1 = j).map Prod.snd =
        ((tasks.set i ⟨item, .ret effects, n + 1⟩)[j]?.map Task.reported).getD []
      change (sent.filter fun entry => entry.1 = j).map Prod.snd = _ at hsent
      rw [List.filter_append, List.map_append, hsent]
      by_cases hij : i = j
      · subst hij
        change (tasks[i]?.map Task.reported).getD [] ++ _ = _
        rw [hi, List.getElem?_set_self hlt]
        change effects.take n ++ _ = effects.take (n + 1)
        rw [List.take_add_one, he]
        simp
      · change (tasks[j]?.map Task.reported).getD [] ++ _ = _
        rw [List.getElem?_set_ne hij]
        simp [hij]
    · rcases List.mem_or_eq_of_mem_set ht with ht | rfl
      · exact h.tasks t ht
      · exact ⟨nofun, fun effects' he' => by cases he'; exact hn, hcounted.payload⟩

theorem Outgoing.Run.accounted {events : List Received} {log : List (Issue T)}
    (h : Outgoing.Run J P cfg botId (.start events) s log o s') : o.Accounted P :=
  h.invariant _ (fun _ _ _ _ _ hm ho => ho.moves hm) (.start events)

/-! ## Finished tasks -/

/-- The task of an event is found at the position of the event. -/
theorem Outgoing.getElem?_items (ht : o.tasks[i]? = some t) : o.items[i]? = some t.item := by
  unfold Outgoing.items
  rw [List.append_assoc]
  exact getElem?_append_of_some (by rw [List.getElem?_map, ht]; rfl)

/-- When everything is done, every event has a task that has finished. -/
theorem Outgoing.task_of_finished (hfin : o.finished = true) (hi : o.items[i]? = some item) :
    ∃ t, o.tasks[i]? = some t ∧ t.item = item ∧ t.finished = true := by
  obtain ⟨events, loop, tasks, sent⟩ := o
  simp only [Outgoing.finished, Bool.and_eq_true, List.isEmpty_iff, List.all_eq_true] at hfin
  obtain ⟨⟨rfl, hloop⟩, htasks⟩ := hfin
  rcases loop with _ | _
  · simp only [Outgoing.items, Loop.item, List.append_nil, List.getElem?_map,
      Option.map_eq_some_iff] at hi
    obtain ⟨t, ht, hitem⟩ := hi
    exact ⟨t, ht, hitem, htasks t (List.mem_of_getElem? ht)⟩
  · cases hloop

theorem Task.prog_of_finished (h : t.finished = true) :
    ∃ effects, t.prog = .ret effects ∧ t.done = effects.length := by
  unfold Task.finished at h
  split at h
  · next effects hp => exact ⟨effects, hp, of_decide_eq_true h⟩
  · cases h

/-- A finished task has had all its effects. -/
theorem Outgoing.Accounted.sentBy_of_finished (h : o.Accounted P) (ht : o.tasks[i]? = some t)
    (hfin : t.finished = true) : ∃ effects, t.prog = .ret effects ∧ o.sentBy i = effects := by
  obtain ⟨effects, hp, hdone⟩ := Task.prog_of_finished hfin
  refine ⟨effects, hp, ?_⟩
  rw [h.sent, ht]
  change t.reported = effects
  simp [Task.reported, hp, hdone]

/-- A payload that is published is counted first. -/
theorem Received.Publishes.report (h : item.Publishes P) : ∃ kind body,
    item.report P none =
      [.gatewayEvent kind (toString item.shard), .publish EXCHANGE kind body] := by
  obtain ⟨bytes, ⟨op, _, d, old⟩, kind, body, hevent, hfrom, rfl, hto⟩ := h
  exact ⟨kind, body, by simp [Received.report, hevent, hfrom, hto]⟩

/-- **A dispatch has been published** exactly when its task has finished, if it is one that is
published at all. -/
theorem published_iff (h : o.Accounted P) (ht : o.tasks[i]? = some t)
    (hkind : t.item.event.kind = .shardPayload) :
    Published o i ↔ t.finished = true ∧ t.item.Publishes P := by
  have hcounted := h.tasks t (List.mem_of_getElem? ht)
  have hprog := hcounted.payload hkind
  have hsent : o.sentBy i = (t.item.report P none).take t.done := by
    rw [h.sent, ht]
    simp [Task.reported, hprog]
  constructor
  · rintro ⟨exchange, kind, body, hmem⟩
    have htake := mem_sentBy.mpr hmem
    rw [hsent] at htake
    have hreports : t.item.Reports P (.publish exchange kind body) :=
      ⟨none, List.mem_of_mem_take htake, fun _ => rfl⟩
    obtain ⟨bytes, payload, hevent, hfrom, -, hkind', hto⟩ := hreports.publish
    have hp : t.item.Publishes P := ⟨bytes, payload, kind, body, hevent, hfrom, hkind', hto⟩
    refine ⟨?_, hp⟩
    obtain ⟨kind', body', hreport⟩ := hp.report
    have hbound := hcounted.bounded _ hprog
    rw [hreport] at htake hbound
    -- one effect is the count, and there are no more than two
    have hdone : t.done = 2 := by
      rcases hn : t.done with _ | _ | n
      · simp [hn] at htake
      · simp [hn] at htake
      · simp only [hn, List.length_cons, List.length_nil] at hbound
        omega
    unfold Task.finished
    rw [hprog, hreport]
    exact decide_eq_true hdone
  · rintro ⟨hfin, hp⟩
    obtain ⟨effects, hp', heffects⟩ := h.sentBy_of_finished ht hfin
    obtain ⟨kind, body, hreport⟩ := hp.report
    obtain rfl := Prog.ret.inj (hprog.symm.trans hp')
    refine ⟨EXCHANGE, kind, body, mem_sentBy.mp ?_⟩
    rw [heffects, hreport]
    simp

end TwilightDispatch
