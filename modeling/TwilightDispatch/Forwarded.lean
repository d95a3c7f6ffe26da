import TwilightDispatch.Reported
import TwilightDispatch.UpdatedFirst

/-!
# Forwarding

Every dispatch is published once, as what it was, and nothing else is published: the task of a
dispatch does not depend on the other events, and no event can keep a task from going on
(`forwarded_exactly`).
-/

namespace TwilightDispatch

open Atomic Redis

variable {T V : Type} {J : Json T V} {P : PayloadJson V} {cfg : Config} {botId : Id .user}

/-! ## Finishing -/

section Finish

variable {events : List Received} {loop : Loop T V} {tasks : List (Task T)}
  {sent : List (ℕ × Effect)} {s : Store T} {i : ℕ}

/-- A task can always have the effects it has left. -/
theorem Outgoing.run_effects {item : Received} {effects : List Effect} {n : ℕ}
    (hi : tasks[i]? = some ⟨item, .ret effects, n⟩) (hn : n ≤ effects.length) :
    ∃ sent', Outgoing.Run J P cfg botId ⟨events, loop, tasks, sent⟩ s []
      ⟨events, loop, tasks.set i ⟨item, .ret effects, effects.length⟩, sent'⟩ s := by
  obtain ⟨m, hm⟩ := Nat.exists_eq_add_of_le hn
  induction m generalizing n tasks sent with
  | zero =>
    obtain ⟨hlt, hget⟩ := List.getElem?_eq_some_iff.mp hi
    have hset : tasks.set i ⟨item, .ret effects, effects.length⟩ = tasks := by
      rw [hm, Nat.add_zero, ← hget, List.set_getElem_self]
    rw [hset]
    exact ⟨sent, .refl _ _⟩
  | succ m ih =>
    have hlt : n < effects.length := by omega
    have hstep := Outgoing.run_effect J P cfg botId events sent s loop hi (List.getElem?_eq_getElem hlt)
    have hset : (tasks.set i ⟨item, .ret effects, n + 1⟩)[i]? = some ⟨item, .ret effects, n + 1⟩ :=
      List.getElem?_set_self (List.getElem?_eq_some_iff.mp hi).1
    obtain ⟨sent', hrun⟩ := @ih _ (sent ++ [(i, effects[n])]) (n + 1) hset hlt (by omega)
    rw [List.set_set] at hrun
    exact ⟨sent', hstep.trans hrun⟩

variable (J cfg botId events loop sent s) in
/-- A task can always go on to its end. -/
theorem Outgoing.run_task {t : Task T} (hi : tasks[i]? = some t) (ht : t.Counted P) :
    ∃ log s' t' sent', Outgoing.Run J P cfg botId ⟨events, loop, tasks, sent⟩ s log
      ⟨events, loop, tasks.set i t', sent'⟩ s' ∧ t'.finished = true := by
  obtain ⟨item, prog, n⟩ := t
  induction prog generalizing n tasks s with
  | ret effects =>
    obtain ⟨sent', hrun⟩ := Outgoing.run_effects hi (ht.bounded effects rfl)
    exact ⟨[], s, _, sent', hrun, decide_eq_true rfl⟩
  | cmd c k ih =>
    obtain rfl : n = 0 := ht.waits c k rfl
    have hstep : Outgoing.step J P cfg botId ⟨events, loop, tasks, sent⟩ s (.task i) =
        some (⟨events, loop, tasks.set i ⟨item, k (exec c s).1, 0⟩, sent⟩, (exec c s).2) := by
      simp [Outgoing.step, hi]
    have hset : (tasks.set i ⟨item, k (exec c s).1, 0⟩)[i]? = some ⟨item, k (exec c s).1, 0⟩ :=
      List.getElem?_set_self (List.getElem?_eq_some_iff.mp hi).1
    have hcounted : Task.Counted P (⟨item, k (exec c s).1, 0⟩ : Task T) :=
      ⟨fun _ _ _ => rfl, fun _ _ => Nat.zero_le _, fun hkind => by cases ht.payload hkind⟩
    obtain ⟨log, s', t', sent', hrun, hfin⟩ := ih _ (exec c s).2 0 hset hcounted
    rw [List.set_set] at hrun
    exact ⟨_, s', t', sent', .step (.task i) hstep hrun, hfin⟩

variable (J P cfg botId s) in
/-- One task after the other can go on to its end. -/
theorem Outgoing.run_tasks (h : Outgoing.Accounted P ⟨events, loop, tasks, sent⟩) (n : ℕ) :
    ∃ log s' tasks' sent', Outgoing.Run J P cfg botId ⟨events, loop, tasks, sent⟩ s log
      ⟨events, loop, tasks', sent'⟩ s' ∧ ∀ i < n, ∀ t, tasks'[i]? = some t → t.finished = true := by
  induction n with
  | zero => exact ⟨[], s, tasks, sent, .refl _ _, fun _ hi => absurd hi (Nat.not_lt_zero _)⟩
  | succ n ih =>
    obtain ⟨log, s₁, tasks₁, sent₁, hrun, hfin⟩ := ih
    rcases hn : tasks₁[n]? with _ | t
    · refine ⟨log, s₁, tasks₁, sent₁, hrun, fun i hi t ht => ?_⟩
      rcases Nat.lt_succ_iff_lt_or_eq.mp hi with hi | rfl
      · exact hfin i hi t ht
      · exact nomatch hn.symm.trans ht
    · have haccounted : Outgoing.Accounted P ⟨events, loop, tasks₁, sent₁⟩ :=
        hrun.invariant (Outgoing.Accounted P) (fun _ _ _ _ _ hm ho => ho.moves hm) h
      obtain ⟨log', s₂, t', sent₂, hrun', hfin'⟩ :=
        Outgoing.run_task J cfg botId events loop sent₁ s₁ hn (haccounted.tasks t (List.mem_of_getElem? hn))
      refine ⟨log ++ log', s₂, tasks₁.set n t', sent₂, hrun.trans hrun', fun i hi u hu => ?_⟩
      by_cases hin : n = i
      · subst hin
        rw [List.getElem?_set_self (List.getElem?_eq_some_iff.mp hn).1] at hu
        exact Option.some.inj hu ▸ hfin'
      · rw [List.getElem?_set_ne hin] at hu
        exact hfin i (by omega) u hu

end Finish

/-- **Nothing gets stuck**: whatever has happened, the rest of the stream can be received, and every
task can finish. -/
theorem Outgoing.Run.completes {events : List Received} {s s' : Store T} {log : List (Issue T)}
    {o : Outgoing T V} (h : Outgoing.Run J P cfg botId (.start events) s log o s') :
    ∃ log' o' s'', Outgoing.Run J P cfg botId o s' log' o' s'' ∧ o'.finished = true := by
  have hwaiting : ∃ log' tasks s₁, Outgoing.Run J P cfg botId o s' log'
      ⟨o.events, .waiting, tasks, o.sent⟩ s₁ := by
    obtain ⟨events, loop, tasks, sent⟩ := o
    rcases loop with _ | ⟨item, p⟩
    · exact ⟨[], tasks, s', .refl _ _⟩
    · obtain ⟨log', s₁, hrun⟩ := Outgoing.run_updating J P cfg botId events tasks sent s' item p
      exact ⟨log', _, s₁, hrun⟩
  obtain ⟨log₁, tasks₁, s₁, hrun₁⟩ := hwaiting
  obtain ⟨log₂, s₂, hrun₂⟩ := Outgoing.run_receive J P cfg botId tasks₁ o.sent s₁ o.events []
  rw [List.append_nil] at hrun₂
  have haccounted := (h.trans (hrun₁.trans hrun₂)).accounted
  obtain ⟨log₃, s₃, tasks₃, sent₃, hrun₃, hfin⟩ := Outgoing.run_tasks J P cfg botId s₂ haccounted
    (tasks₁ ++ o.events.map fun item => (⟨item, item.task J P cfg botId, 0⟩ : Task T)).length
  have hlength : tasks₃.length =
      (tasks₁ ++ o.events.map fun item => (⟨item, item.task J P cfg botId, 0⟩ : Task T)).length := by
    have hitems := congrArg List.length hrun₃.items
    simpa [Outgoing.items, Loop.item] using hitems
  refine ⟨_, _, s₃, hrun₁.trans (hrun₂.trans hrun₃), ?_⟩
  simp only [Outgoing.finished, List.isEmpty_nil, Bool.and_true, List.all_eq_true, Bool.true_and]
  intro t ht
  obtain ⟨i, hi⟩ := List.mem_iff_getElem?.mp ht
  exact hfin i (hlength ▸ (List.getElem?_eq_some_iff.mp hi).1) t hi

/-! ## Messages -/

/-- The exchange, the routing key and the body of a published message. -/
def Effect.message : Effect → Option (String × String × List UInt8)
  | .publish exchange kind payload => some (exchange, kind, payload)
  | _ => none

/-- The messages that have been published, in order. -/
def Outgoing.published (o : Outgoing T V) : List (String × String × List UInt8) :=
  o.sent.filterMap fun entry => entry.2.message

/-- The payload of an event that is a dispatch: it decodes, and it has a type. -/
def Received.dispatch (P : PayloadJson V) (item : Received) : Option (PayloadInfo V) :=
  match item.event with
  | .shardPayload bytes =>
    match P.fromSlice bytes with
    | .ok payload => if payload.t.isSome then some payload else none
    | .error _ => none
  | _ => none

/-- The message is published under the type of the payload, and decodes to the same payload but for
the old value. -/
def Carries (P : PayloadJson V) (payload : PayloadInfo V) (message : String × String × List UInt8) :
    Prop :=
  message.1 = EXCHANGE ∧ payload.t = some message.2.1 ∧ ∃ payload',
    P.fromSlice message.2.2 = .ok payload' ∧ payload'.op = payload.op ∧ payload'.t = payload.t ∧
      payload'.d = payload.d

/-- A payload that has been read can be written without its old value. -/
def PayloadJson.Rewrites (P : PayloadJson V) : Prop :=
  ∀ bytes payload, P.fromSlice bytes = .ok payload →
    ∃ body, P.toVec { payload with old := none } = .ok body

section Messages

variable {item : Received} {i : ℕ}

theorem Received.kind_of_dispatch {payload : PayloadInfo V} (h : item.dispatch P = some payload) :
    item.event.kind = .shardPayload := by
  unfold Received.dispatch at h
  split at h
  · next bytes hevent => rw [hevent]; rfl
  · cases h

/-- The report of a dispatch carries its payload. -/
theorem Received.carries_report (hP : P.Lawful) (hwrite : P.Rewrites)
    (hkind : item.event.kind = .shardPayload) :
    List.Forall₂ (Carries P) (item.dispatch P).toList
      ((item.report P none).filterMap Effect.message) := by
  obtain ⟨shard, event, env⟩ := item
  cases event with
  | shardPayload bytes =>
    rcases hread : P.fromSlice bytes with err | ⟨op, _ | t, d, old⟩
    · simp [Received.dispatch, Received.report, hread]
    · simp [Received.dispatch, Received.report, hread]
    · obtain ⟨body, hbody⟩ := hwrite bytes _ hread
      have hcarries : Carries P ⟨op, some t, d, old⟩ (EXCHANGE, t, body) :=
        ⟨rfl, rfl, _, hP _ _ hbody, rfl, rfl, rfl⟩
      simpa [Received.dispatch, Received.report, hread, hbody, List.filterMap_cons, Effect.message]
        using hcarries
  | _ => cases hkind

variable {events : List Received} {s s' : Store T} {log : List (Issue T)} {o : Outgoing T V}

/-- What is published belongs to a dispatch. -/
theorem Outgoing.Run.dispatch_of_message
    (h : Outgoing.Run J P cfg botId (.start events) s log o s') {effect : Effect}
    {message : String × String × List UInt8} (he : (i, effect) ∈ o.sent)
    (hmessage : effect.message = some message) :
    ∃ item payload, events[i]? = some item ∧ item.dispatch P = some payload := by
  obtain ⟨item, hi, hr⟩ := h.reports he
  cases effect with
  | publish exchange kind body =>
    obtain ⟨bytes, payload, hevent, hread, -, ht, -⟩ := hr.publish
    refine ⟨item, payload, hi, ?_⟩
    simp [Received.dispatch, hevent, hread, ht]
  | _ => cases hmessage

/-- When everything is done, the task of an event has published its dispatch, if it is one. -/
theorem Outgoing.Run.carries_sentBy (hP : P.Lawful) (hwrite : P.Rewrites)
    (h : Outgoing.Run J P cfg botId (.start events) s log o s') (hfin : o.finished = true)
    (hi : events[i]? = some item) :
    List.Forall₂ (Carries P) (item.dispatch P).toList ((o.sentBy i).filterMap Effect.message) := by
  have hitems : o.items[i]? = some item := by
    rw [h.items]
    exact hi
  obtain ⟨t, ht, rfl, htfin⟩ := Outgoing.task_of_finished hfin hitems
  by_cases hkind : t.item.event.kind = .shardPayload
  · obtain ⟨effects, hret, hsent⟩ := h.accounted.sentBy_of_finished ht htfin
    have hprog := (h.accounted.tasks t (List.mem_of_getElem? ht)).payload hkind
    obtain rfl := Prog.ret.inj (hprog.symm.trans hret)
    rw [hsent]
    exact Received.carries_report hP hwrite hkind
  · have hnone : (o.sentBy i).filterMap Effect.message = [] := by
      refine List.filterMap_eq_nil_iff.mpr fun effect he => ?_
      rcases hmessage : effect.message with _ | message
      · rfl
      · obtain ⟨item', payload, hi', hdispatch⟩ :=
          h.dispatch_of_message (mem_sentBy.mp he) hmessage
        obtain rfl := Option.some.inj (hi.symm.trans hi')
        exact absurd (Received.kind_of_dispatch hdispatch) hkind
    rcases hdispatch : t.item.dispatch P with _ | payload
    · rw [hnone]
      exact .nil
    · exact absurd (Received.kind_of_dispatch hdispatch) hkind

/-- A list is a rearrangement of its parts under a numbering. -/
theorem perm_flatMap_filter {α : Type} {f : α → ℕ} {n : ℕ} {l : List α} (h : ∀ a ∈ l, f a < n) :
    l.Perm ((List.range n).flatMap fun i => l.filter fun a => f a = i) := by
  induction n generalizing l with
  | zero =>
    rw [List.eq_nil_iff_forall_not_mem.mpr fun a ha => absurd (h a ha) (Nat.not_lt_zero _)]
    rfl
  | succ n ih =>
    have hlow := ih (l := l.filter fun a => f a < n) fun a ha =>
      of_decide_eq_true (List.mem_filter.mp ha).2
    have hpart : ∀ i ∈ List.range n, (l.filter fun a => f a < n).filter (fun a => f a = i) =
        l.filter fun a => f a = i := by
      intro i hi
      rw [List.filter_filter]
      refine List.filter_congr fun a _ => ?_
      have := List.mem_range.mp hi
      simp only [decide_eq_decide, ← Bool.decide_and]
      omega
    have hhigh : (l.filter fun a => !decide (f a < n)) = l.filter fun a => f a = n := by
      refine List.filter_congr fun a ha => ?_
      have := h a ha
      simp only [← decide_not, decide_eq_decide]
      omega
    rw [List.flatMap_congr hpart] at hlow
    rw [List.range_succ, List.flatMap_append, List.flatMap_singleton, ← hhigh]
    exact (List.filter_append_perm (fun a => decide (f a < n)) l).symm.trans (hlow.append_right _)

/-- When everything is done, there is one message for every dispatch. -/
theorem Outgoing.Run.carries_published (hP : P.Lawful) (hwrite : P.Rewrites)
    (h : Outgoing.Run J P cfg botId (.start events) s log o s') (hfin : o.finished = true) :
    ∃ messages, o.published.Perm messages ∧
      List.Forall₂ (Carries P) (events.filterMap (Received.dispatch P)) messages := by
  have hbound : ∀ entry ∈ o.sent, entry.1 < events.length := fun entry he => by
    obtain ⟨item, hi, -⟩ := h.reports he
    exact (List.getElem?_eq_some_iff.mp hi).1
  have hnumbered : List.Forall₂ (fun item i => events[i]? = some item) events
      (List.range events.length) := by
    refine List.forall₂_iff_get.mpr ⟨List.length_range.symm, fun i hi hi' => ?_⟩
    simp
  have hperm := (perm_flatMap_filter hbound).filterMap fun entry => entry.2.message
  rw [List.filterMap_flatMap] at hperm
  refine ⟨_, hperm, ?_⟩
  rw [List.filterMap_eq_flatMap_toList]
  refine List.rel_flatMap hnumbered fun item i hi => ?_
  have hcarries := h.carries_sentBy hP hwrite hfin hi
  unfold Outgoing.sentBy at hcarries
  rwa [List.filterMap_map] at hcarries

end Messages

/-- **Forwarding is exactly once and faithful.** When everything is done, the published messages are
one for each dispatch, which it carries. No other event publishes anything, and none keeps the rest of
the stream from being received and handled. -/
theorem forwarded_exactly (hP : P.Lawful) (hwrite : P.Rewrites) {events : List Received}
    {s s' : Store T} {log : List (Issue T)} {o : Outgoing T V}
    (hrun : Outgoing.Run J P cfg botId (.start events) s log o s') :
    (o.finished = true → ∃ messages, o.published.Perm messages ∧
      List.Forall₂ (Carries P) (events.filterMap (Received.dispatch P)) messages) ∧
    (∀ i item, events[i]? = some item → item.dispatch P = none → ¬ Published o i) ∧
    ∃ log' o' s'', Outgoing.Run J P cfg botId o s' log' o' s'' ∧ o'.finished = true := by
  refine ⟨hrun.carries_published hP hwrite, ?_, hrun.completes⟩
  rintro i item hi hnone ⟨exchange, kind, body, he⟩
  obtain ⟨item', payload, hi', hdispatch⟩ := hrun.dispatch_of_message he rfl
  obtain rfl := Option.some.inj (hi.symm.trans hi')
  exact nomatch hnone.symm.trans hdispatch

theorem PayloadJson.roles_rewrites : PayloadJson.roles.Rewrites := by
  intro bytes payload h
  simp only [PayloadJson.roles] at h ⊢
  have hnone : { payload with old := none } = rolePayload none := by
    split_ifs at h
    · obtain rfl := Except.ok.inj h
      rfl
    · obtain rfl := Except.ok.inj h
      rfl
  exact ⟨_, if_pos hnone⟩

theorem dispatch_roleDispatch :
    roleDispatch.filterMap (Received.dispatch PayloadJson.roles) = [rolePayload none] := by
  simp [roleDispatch, List.filterMap_cons, Received.dispatch, PayloadJson.roles, rolePayload]

/-- The update of a role is published once. -/
theorem forwarded_exactly_role : ∃ log o s' message,
    Outgoing.Run Json.roles .roles .full (.of 9) (.start roleDispatch) Store.empty log o s' ∧
      o.finished = true ∧ o.published = [message] ∧ Carries .roles (rolePayload none) message := by
  obtain ⟨log, o, s', hrun, hfin⟩ := (Outgoing.Run.refl (.start roleDispatch) Store.empty :
    Outgoing.Run Json.roles .roles .full (.of 9) _ _ _ _ _).completes
  obtain ⟨messages, hperm, hcarries⟩ :=
    (forwarded_exactly PayloadJson.roles_lawful PayloadJson.roles_rewrites hrun).1 hfin
  rw [dispatch_roleDispatch] at hcarries
  obtain ⟨message, rest, hmessage, hrest, rfl⟩ := List.forall₂_cons_left_iff.mp hcarries
  obtain rfl := List.forall₂_nil_left_iff.mp hrest
  exact ⟨log, o, s', message, hrun, hfin, List.perm_singleton.mp hperm, hmessage⟩

end TwilightDispatch
