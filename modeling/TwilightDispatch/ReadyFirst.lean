import TwilightDispatch.Handler

/-!
# Ready events come first

A ready event is handled by the loop before it receives the next event: its update of the cache is
executed once, and every command of it comes before every command of a later event, whatever the
tasks of earlier events do meanwhile (`ready_first`). So what a ready event writes as a placeholder
never replaces what a later event has written.
-/

namespace TwilightDispatch

open Atomic Redis

variable {T V α : Type} {J : Json T V} {P : PayloadJson V} {cfg : Config} {botId : Id .user}
  {events : List Received} {log : List (Issue T)} {o o' : Outgoing T V} {s s' : Store T}

/-! ## Progress of a call -/

/-- Of a call that started with `events` and executed the commands `log`: only events received have
commands in the log, and the task of an event that the loop handles has none to execute. -/
structure Progress (cfg : Config) (events : List Received) (log : List (Issue T))
    (o : Outgoing T V) : Prop where
  items : o.items = events
  received : ∀ issue ∈ log, issue.position < o.tasks.length + o.loop.item.length
  tasks : ∀ t ∈ o.tasks, t.item.inLoop cfg = true → ∃ effects, t.prog = .ret effects

theorem Progress.moves {issue : Option (ℕ × Cmd T)}
    (hm : Outgoing.Moves J P cfg botId o s issue o' s') (h : Progress cfg events log o) :
    Progress cfg events (log ++ (issue.map fun (i, c) => ⟨i, c, s⟩).toList) o' := by
  obtain ⟨hitems, hreceived, htasks⟩ := h
  refine ⟨hm.items.trans hitems, fun x hx => ?_, fun t ht hin => ?_⟩
  · rcases List.mem_append.mp hx with hx | hx
    · have := hreceived x hx
      cases hm <;> simp only [Loop.item, List.length_append, List.length_set, List.length_cons,
        List.length_nil] at this ⊢ <;> omega
    · cases hm with
      | command =>
        obtain rfl := List.mem_singleton.mp hx
        simp [Loop.item]
      | task hi =>
        obtain rfl := List.mem_singleton.mp hx
        have := (List.getElem?_eq_some_iff.mp hi).1
        simp only [List.length_set]
        omega
      | receive | spawn | updated | effect => cases hx
  · have hspawn : ∀ (item : Received) (tasks : List (Task T)),
        (∀ t ∈ tasks, t.item.inLoop cfg = true → ∃ effects, t.prog = .ret effects) →
        t ∈ tasks ++ [⟨item, item.task J P cfg botId, 0⟩] → ∃ effects, t.prog = .ret effects := by
      intro item tasks htasks ht
      rcases List.mem_append.mp ht with ht | ht
      · exact htasks t ht hin
      · obtain rfl := List.mem_singleton.mp ht
        exact ⟨_, Received.task_of_inTask (Received.inTask_of_inLoop hin)⟩
    cases hm with
    | receive => exact htasks t ht hin
    | command => exact htasks t ht hin
    | spawn => exact hspawn _ _ htasks ht
    | updated => exact hspawn _ _ htasks ht
    | task hi =>
      rcases List.mem_or_eq_of_mem_set ht with ht | rfl
      · exact htasks t ht hin
      · obtain ⟨effects, he⟩ := htasks _ (List.mem_of_getElem? hi) hin
        cases he
    | effect hi =>
      rcases List.mem_or_eq_of_mem_set ht with ht | rfl
      · exact htasks t ht hin
      · exact ⟨_, rfl⟩

theorem Outgoing.Run.progress (h : Outgoing.Run J P cfg botId (.start events) s log o s') :
    Progress cfg events log o :=
  h.keeps (Progress cfg events) ⟨rfl, fun _ hx => (List.not_mem_nil hx).elim, fun _ ht => nomatch ht⟩
    fun _ _ _ _ _ _ _ hm hp => hp.moves hm

theorem Loop.length_item_le (loop : Loop T V) : loop.item.length ≤ 1 := by
  cases loop <;> simp [Loop.item]

/-- Commands are executed for the event in the loop or for one with a task. -/
theorem Outgoing.Moves.position_le {i : ℕ} {c : Cmd T}
    (h : Outgoing.Moves J P cfg botId o s (some (i, c)) o' s') : i ≤ o.tasks.length := by
  generalize hissue : some (i, c) = issue at h
  cases h with
  | command => exact (Prod.mk.inj (Option.some.inj hissue)).1.le
  | task hi =>
    rw [(Prod.mk.inj (Option.some.inj hissue)).1]
    exact (List.getElem?_eq_some_iff.mp hi).1.le
  | receive | spawn | updated | effect => cases hissue

variable (J P botId) in
/-- An event that the loop has handled has no command left. -/
theorem Progress.pool {r : ℕ} {item : Received} (h : Progress cfg events log o)
    (hr : events[r]? = some item) (hin : item.inLoop cfg = true) (hlt : r < o.tasks.length) :
    ∃ effects, (Outgoing.pool J P cfg botId o)[r]? = some (.ret effects) := by
  obtain ⟨t, ht⟩ : ∃ t, o.tasks[r]? = some t := ⟨_, List.getElem?_eq_getElem hlt⟩
  have hitem : t.item = item := by
    rw [← h.items] at hr
    unfold Outgoing.items at hr
    rw [List.append_assoc, List.getElem?_append_left (by rwa [List.length_map]), List.getElem?_map,
      ht] at hr
    exact Option.some.inj hr
  obtain ⟨effects, he⟩ := h.tasks t (List.mem_of_getElem? ht) (hitem ▸ hin)
  exact ⟨effects, he ▸ getElem?_pool_task ht⟩

/-! ## Order of the commands -/

/-- The program `p` is executed to its end at position `r` before the first command at a later
position, and no command at `r` follows. -/
def HandledFirst (p : Prog (interface T) α) (log : List (Issue T)) (r : ℕ) : Prop :=
  ∀ l₁ issue l₂, log = l₁ ++ issue :: l₂ → r < issue.position →
    (∃ a, Prog.Issues exec p (commandsOf l₁ r) (.ret a)) ∧ commandsOf l₂ r = []

theorem HandledFirst.nil {p : Prog (interface T) α} {r : ℕ} : HandledFirst p [] r :=
  fun l₁ issue l₂ h => absurd h (by simp)

/-- Extending the log by one command. -/
theorem HandledFirst.snoc {p : Prog (interface T) α} {r i : ℕ} {c : Cmd T}
    (h : HandledFirst p log r)
    (hlast : r < i → ∃ a, Prog.Issues exec p (commandsOf log r) (.ret a))
    (hsame : ∀ issue ∈ log, r < issue.position → i ≠ r) : HandledFirst p (log ++ [⟨i, c, s⟩]) r := by
  intro l₁ issue l₂ hlog hlt
  rcases List.eq_nil_or_concat l₂ with rfl | ⟨l₂, last, rfl⟩
  · obtain ⟨rfl, hissue⟩ := List.append_inj' hlog rfl
    obtain rfl := (List.cons.inj hissue).1
    exact ⟨hlast hlt, rfl⟩
  · rw [List.concat_eq_append, ← List.cons_append, ← List.append_assoc] at hlog
    obtain ⟨rfl, hissue⟩ := List.append_inj' hlog rfl
    obtain rfl := (List.cons.inj hissue).1
    obtain ⟨hdone, hnone⟩ := h l₁ issue l₂ rfl hlt
    refine ⟨hdone, ?_⟩
    rw [List.concat_eq_append, commandsOf_append, hnone, commandsOf_ne (hsame issue (by simp) hlt), List.append_nil]

/-- **Ready events come first.** The commands for a ready event are those of one update, which ends
when everything is done, and they are all executed before the first command of a later event. -/
theorem ready_first (hen : cfg.stateEnabled = true)
    (hrun : Outgoing.Run J P cfg botId (.start events) s log o s') {r : ℕ} {item : Received}
    (hr : events[r]? = some item) (hready : item.event.kind = .ready) :
    (∃ p, Prog.Issues exec (item.cacheUpdate J cfg botId) (commandsOf log r) p ∧
      (o.finished = true → ∃ old, p = .ret old)) ∧
    HandledFirst (item.cacheUpdate J cfg botId) log r := by
  have hin : item.inLoop cfg = true := by
    simp [Received.inLoop, hen, hready]
  have hprog : item.prog J P cfg botId = item.cacheUpdate J cfg botId >>= fun _ =>
      .ret (item.report P none) := by
    unfold Received.prog
    rw [if_pos hin, Received.task_of_inTask (Received.inTask_of_inLoop hin)]
  -- what is known of the commands at position `r` in every state of the run
  have hissues : ∀ {l o₁ s₁}, Outgoing.Run J P cfg botId (.start events) s l o₁ s₁ →
      ∃ p, Prog.Issues exec (item.cacheUpdate J cfg botId) (commandsOf l r) p ∧
        (∀ effects, (Outgoing.pool J P cfg botId o₁)[r]? = some (.ret effects) →
          ∃ old, p = .ret old) := by
    intro l o₁ s₁ hrun₁
    obtain ⟨q, hq, hissues⟩ := hrun₁.issues hr
    rw [hprog] at hissues
    obtain ⟨p, hp, rfl⟩ := hissues.of_bind_ret
    refine ⟨p, hp, fun effects he => ?_⟩
    have hret := Option.some.inj (hq.symm.trans he)
    cases p with
    | ret old => exact ⟨old, rfl⟩
    | cmd c k => cases hret
  obtain ⟨p, hp, hend⟩ := hissues hrun
  refine ⟨⟨p, hp, fun hfin => ?_⟩, ?_⟩
  · obtain ⟨as, has⟩ := Outgoing.pool_of_finished J P cfg botId hfin
    obtain ⟨q, hq, -⟩ := hrun.issues hr
    rw [has, List.getElem?_map, Option.map_eq_some_iff] at hq
    obtain ⟨effects, ha, rfl⟩ := hq
    refine hend effects ?_
    rw [has, List.getElem?_map, ha]
    rfl
  · refine hrun.keeps (fun l _ => HandledFirst (item.cacheUpdate J cfg botId) l r) .nil ?_
    rintro l o₁ s₁ (_ | ⟨i, c⟩) o₂ s₂ hrun₁ hm hfirst
    · simpa using hfirst
    have hprogress := hrun₁.progress
    obtain ⟨k, hi, -, -⟩ := hm.pool_set
    refine hfirst.snoc (fun hlt => ?_) fun issue hissue hlt => ?_
    · obtain ⟨q, hq, hret⟩ := hissues hrun₁
      obtain ⟨effects, he⟩ := hprogress.pool J P botId hr hin (hlt.trans_le hm.position_le)
      obtain ⟨old, rfl⟩ := hret effects he
      exact ⟨old, hq⟩
    · -- `r` has been handled, so `i` is another event
      rintro rfl
      have hbound := hprogress.received issue hissue
      have hloop := o₁.loop.length_item_le
      obtain ⟨effects, he⟩ := hprogress.pool J P botId hr hin (by omega)
      exact nomatch Option.some.inj (hi.symm.trans he)

/-- The bot user is ready in guild 1, and the guild is updated. -/
def readyThenUpdate : List Received :=
  [⟨0, .ready ⟨⟨.of 9, ""⟩, [⟨.of 1, true⟩], ""⟩, .at (.of 0)⟩,
    ⟨0, .guildUpdate ⟨.of 1, ""⟩, .at (.of 0)⟩]

/-- The three commands for the ready event come before those for the update of the guild. -/
theorem ready_first_guild :
    ∃ log o s', Outgoing.Run Json.plain .empty .full (.of 9) (.start readyThenUpdate) Store.empty log
        o s' ∧ log.map Issue.position = [0, 0, 0, 1, 1, 1] ∧
      HandledFirst ((⟨0, .ready ⟨⟨.of 9, ""⟩, [⟨.of 1, true⟩], ""⟩, .at (.of 0)⟩ : Received).cacheUpdate
        Json.plain .full (.of 9)) log 0 := by
  have hpos : (Outgoing.perform Json.plain .empty .full (.of 9)
      (List.replicate 6 .loop ++ List.replicate 3 (.task 1)) (.start readyThenUpdate)
      Store.empty).any (fun r => r.1.map Issue.position == [0, 0, 0, 1, 1, 1]) = true := by
    decide +kernel
  obtain ⟨⟨log, o, s'⟩, hr, hpos⟩ := (Option.any_eq_true _ _).mp hpos
  have hrun := Outgoing.run_of_perform hr
  exact ⟨log, o, s', hrun, beq_iff_eq.mp hpos, (ready_first rfl hrun rfl rfl).2⟩

end TwilightDispatch
