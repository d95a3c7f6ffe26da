import TwilightDispatch.Handler
import TwilightDispatch.Independence

/-!
# The order of the events of a stream

Every event of a stream has a task of its own, so the commands of later events may be executed
before those of earlier ones: of two updates of one role the first may win (`outgoing_outOfOrder`).

The program of an event is confined to the region of the event. So the store ends up as if the
events had been handled one after another whenever the schedule keeps the order of the events
whose regions meet (`outgoing_inSequence`).
-/

namespace TwilightDispatch

open Atomic Redis

variable {T V : Type}

/-! ## Confinement to the events' regions -/

section Order

variable {J : Json T V} {P : PayloadJson V} {cfg : Config} {botId : Id .user}
  {home : Id .channel → Option (Id .guild)} {item : Received} {s : Store T}

/-- The store after the events have been handled one after another. -/
def inSequence (J : Json T V) (cfg : Config) (botId : Id .user) (items : List Received)
    (s : Store T) : Store T :=
  items.foldl (fun s item =>
    (Fallible.run exec (update J cfg botId item.env item.event) s).2) s

section Confined

variable {Inv : Store T → Prop} {R : Set Cell}
  (h : Confined exec (cells T) Inv R (item.cacheUpdate J cfg botId))
include h

/-- The task of an event is confined as the update of the cache is. -/
theorem Received.task_confined : Confined exec (cells T) Inv R (item.task J P cfg botId) := by
  unfold Received.task
  split_ifs
  · refine h.bind fun r => ?_
    rcases r with (_ | _) | _ <;> exact confined_ret _
  · exact confined_ret _

theorem Received.prog_confined : Confined exec (cells T) Inv R (item.prog J P cfg botId) := by
  unfold Received.prog
  split_ifs
  · exact h.bind fun _ => Received.task_confined h
  · exact Received.task_confined h

end Confined

/-- An event is handled by one update of the cache, in the loop or in its task. -/
theorem Received.run_prog (hen : cfg.stateEnabled = true) :
    ((item.prog J P cfg botId).run exec s).2 =
      (Fallible.run exec (update J cfg botId item.env item.event) s).2 := by
  unfold Received.prog
  by_cases hloop : item.inLoop cfg = true
  · rw [if_pos hloop, Prog.run_bind, Received.task_of_inTask (Received.inTask_of_inLoop hloop)]
    rfl
  rw [if_neg hloop]
  by_cases htask : item.inTask cfg = true
  · unfold Received.task
    rw [if_pos htask, Prog.run_bind]
    rcases hr : (item.cacheUpdate J cfg botId).run exec s with ⟨(_ | _) | _, s'⟩ <;>
      exact (congrArg Prod.snd hr).symm
  · -- neither the loop nor the task updates the cache: the update does nothing
    have hkind : item.event.kind = .shardPayload := by
      simp only [Received.inLoop, Received.inTask, hen, Bool.true_and, decide_eq_true_eq,
        Bool.and_eq_true, ne_eq, not_and, not_not] at hloop htask
      by_contra hne
      exact hloop (htask hne)
    rw [Received.task_of_inTask (Received.inTask_of_payload hkind)]
    rcases item with ⟨shard, event, env⟩
    cases event with
    | shardPayload => rfl
    | _ => cases hkind

theorem runAll_progs (hen : cfg.stateEnabled = true) (items : List Received) :
    (runAll exec (items.map (Received.prog J P cfg botId)) s).2 = inSequence J cfg botId items s := by
  induction items generalizing s with
  | nil => rfl
  | cons item items ih =>
    rw [List.map_cons, runAll_cons, ih, Received.run_prog hen]
    rfl

/-! ## Schedules that keep the order of related events -/

/-- The commands of events whose regions meet are executed in the order of the stream. -/
def InOrder (home : Id .channel → Option (Id .guild)) (items : List Received)
    (log : List (Issue T)) : Prop :=
  log.Pairwise fun a b => a.position ≤ b.position ∨
    ∀ x y, items[a.position]? = some x → items[b.position]? = some y →
      Disjoint (region home x.event) (region home y.event)

/-- The region of the event at a position. -/
def regionAt (home : Id .channel → Option (Id .guild)) (items : List Received) (i : ℕ) : Set Cell :=
  match items[i]? with
  | some item => region home item.event
  | none => ∅

theorem InOrder.regionAt {items : List Received} {log : List (Issue T)}
    (h : InOrder home items log) : (log.map Issue.position).Pairwise fun a b =>
      a ≤ b ∨ Disjoint (regionAt home items a) (regionAt home items b) := by
  rw [List.pairwise_map]
  refine h.imp fun hab => hab.imp_right fun hd => ?_
  unfold TwilightDispatch.regionAt
  rcases ha : items[_]? with _ | x
  · exact Set.empty_disjoint _
  rcases hb : items[_]? with _ | y
  · exact Set.disjoint_empty _
  exact hd x y ha hb

/-- **Order of events.** If the commands of events whose regions meet are executed in the order of
the stream, a call of `outgoing` leaves the store as if the events had been handled one after
another. -/
theorem outgoing_inSequence (hen : cfg.stateEnabled = true) {events : List Received}
    (hs : Reachable J cfg botId home s)
    (hok : ∀ item ∈ events, ∀ e, item.event.Touches e → HomeOnly home e)
    {log : List (Issue T)} {o : Outgoing T V} {s' : Store T}
    (hrun : Outgoing.Run J P cfg botId (.start events) s log o s') (hfin : o.finished = true)
    (hord : InOrder home events log) : s' = inSequence J cfg botId events s := by
  obtain ⟨as, -, has⟩ := hrun.interleave hfin
  have hpool : Outgoing.pool J P cfg botId (.start events) =
      events.map (Received.prog J P cfg botId) := rfl
  rw [hpool] at has
  have hconf : ∀ i p, (events.map (Received.prog J P cfg botId))[i]? = some p →
      Confined exec (cells T) (Listing home) (regionAt home events i) p := by
    intro i p hp
    rw [List.getElem?_map, Option.map_eq_some_iff] at hp
    obtain ⟨item, hi, rfl⟩ := hp
    have hregion : regionAt home events i = region home item.event := by
      unfold regionAt
      rw [hi]
    rw [hregion]
    exact Received.prog_confined (update_confined (hok item (List.mem_of_getElem? hi)))
  have hserial := has.serial hconf hord.regionAt hs.listing
  rw [← runAll_progs (P := P) hen, hserial]

end Order

/-! ## Two role updates -/

/-- An update of role 3 of a guild. -/
def roleUpdateOf (g : Id .guild) (extra : Extra) : Received :=
  ⟨0, .roleUpdate ⟨g, ⟨.of 3, extra⟩⟩, .at (.of 0)⟩

/-- Both events are received, and the second task is run before the first. -/
def lastFirst : List Action :=
  [.loop, .loop] ++ List.replicate 4 (.task 1) ++ List.replicate 4 (.task 0)

theorem roleUpdateOf_ok (g : Id .guild) (extra : Extra) :
    ∀ e, (roleUpdateOf g extra).event.Touches e → HomeOnly (fun _ => none) e := by
  rintro e rfl
  trivial

theorem roleUpdateOf_disjoint {g g' : Id .guild} (h : g ≠ g') (extra extra' : Extra) :
    Disjoint (region (fun _ => none) (roleUpdateOf g extra).event)
      (region (fun _ => none) (roleUpdateOf g' extra').event) :=
  (guildRegion_disjoint h).mono (region_subset rfl (roleUpdateOf_ok g extra))
    (region_subset rfl (roleUpdateOf_ok g' extra'))

/-- Roles of different guilds: the order in which the tasks run makes no difference. -/
theorem outgoing_inSequence_guilds :
    let events := [roleUpdateOf (.of 1) "first", roleUpdateOf (.of 2) "second"]
    ∃ log o s', Outgoing.Run Json.plain .empty .full (.of 9) (.start events) Store.empty log o s' ∧
      s' = inSequence Json.plain .full (.of 9) events Store.empty := by
  intro events
  have hfin : (Outgoing.perform Json.plain .empty .full (.of 9) lastFirst (.start events)
      Store.empty).any (fun r => r.2.1.finished) = true := by decide +kernel
  obtain ⟨⟨log, o, s'⟩, hr, hfin⟩ := (Option.any_eq_true _ _).mp hfin
  have hrun := Outgoing.run_of_perform hr
  have hok : ∀ item ∈ events, ∀ e, item.event.Touches e → HomeOnly (fun _ => none) e := by
    intro item hitem
    rcases List.mem_pair.mp hitem with rfl | rfl <;> exact roleUpdateOf_ok _ _
  refine ⟨log, o, s', hrun, outgoing_inSequence rfl ⟨[], .init⟩ hok hrun hfin ?_⟩
  · refine List.pairwise_of_forall fun a b => or_iff_not_imp_left.mpr fun hab x y hx hy => ?_
    -- only the second event can come before the first one
    obtain ⟨i, c, s⟩ := a
    obtain ⟨j, c', s'⟩ := b
    rcases i with _ | _ | i
    · exact absurd (Nat.zero_le j) hab
    · obtain rfl := Option.some.inj hx
      rcases j with _ | j
      · obtain rfl := Option.some.inj hy
        exact roleUpdateOf_disjoint (by decide) _ _
      · exact absurd (Nat.succ_le_succ (Nat.zero_le j)) hab
    · cases hx

/-- What is stored of role 3 of guild 1. -/
def roleExtra (s : Store Item) : Option Extra :=
  match s.strings (roleKey (.of 1) (.of 3)) with
  | some (.role role) => some role.extra
  | _ => none

/-- **Events may be reordered.** Both updates are of one role, and the first one wins. -/
theorem outgoing_outOfOrder :
    let events := [roleUpdateOf (.of 1) "first", roleUpdateOf (.of 1) "second"]
    ∃ log o s', Outgoing.Run Json.plain .empty .full (.of 9) (.start events) Store.empty log o s' ∧
      o.finished = true ∧ s' ≠ inSequence Json.plain .full (.of 9) events Store.empty := by
  intro events
  have hfin : (Outgoing.perform Json.plain .empty .full (.of 9) lastFirst (.start events)
      Store.empty).any (fun r => r.2.1.finished && roleExtra r.2.2 == some "first") = true := by
    decide +kernel
  have hseq : roleExtra (inSequence Json.plain .full (.of 9) events Store.empty) = some "second" := by
    decide +kernel
  obtain ⟨⟨log, o, s'⟩, hr, hfin⟩ := (Option.any_eq_true _ _).mp hfin
  obtain ⟨hfin, hname⟩ := (Bool.and_eq_true _ _).mp hfin
  refine ⟨log, o, s', Outgoing.run_of_perform hr, hfin, ?_⟩
  rintro rfl
  have hsame : some "second" = some "first" := hseq.symm.trans (beq_iff_eq.mp hname)
  exact absurd hsame (by decide)

end TwilightDispatch
