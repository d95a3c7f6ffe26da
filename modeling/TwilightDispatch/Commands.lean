import TwilightDispatch.Incoming

/-!
# Commands across restarts

A command for the gateway is published to the queue of the broker, which delivers it, keeps it until its
acknowledgement arrives, and puts it back when the connection is lost before. `incoming` acknowledges each
delivery and then executes its command. Processes that consume follow one another, and a connection may be
lost or a process end at any point (`Inbox.Moves`).

So no command gets lost at the broker, commands are executed in the order of their deliveries, each delivery
once at most, none after a delivery of the same command has been acknowledged, and a process that ends takes
along one acknowledged command at most (`commands_handled`).
-/

namespace TwilightDispatch

open Atomic

variable {V H : Type}

/-! ## The program of a delivery -/

/-- The calls, one after another, whatever is replied. -/
def performAll : List GatewayCall → Prog gateway (Except Failure Unit)
  | [] => .ret (.ok ())
  | c :: calls => .cmd c fun _ => performAll calls

section Program

variable {D : DeliveryJson V} {shard : Cluster → UInt64 → Option H} {clusters : List Cluster}
  {settings : Settings} {calls : List GatewayCall}

/-- The calls for a delivery begin with its acknowledgement, and that is the only one. -/
theorem Answered.eq_cons {delivery : Delivery}
    (h : Answered D settings clusters (.ok delivery) calls) :
    ∃ rest, calls = .basicAck delivery.deliveryTag :: rest ∧ ∀ tag, .basicAck tag ∉ rest := by
  cases h with
  | malformed => exact ⟨[], rfl, fun _ => List.not_mem_nil⟩
  | foreign => exact ⟨[], rfl, fun _ => List.not_mem_nil⟩
  | @routed tag data payload =>
    refine ⟨_, rfl, fun tag' hmem => ?_⟩
    have heq := List.mem_singleton.mp hmem
    cases hop : payload.op <;> rw [hop] at heq <;> cases heq

/-- The program for a delivery performs the calls that answer it. -/
theorem run_receive_eq (hP : settings.Partitions clusters)
    (hshard : ∀ cluster ∈ clusters, ∀ id, (shard cluster id).isSome ↔ cluster.Has id)
    (delivery : Delivery) : ∃ calls, Answered D settings clusters (.ok delivery) calls ∧
      ExceptT.run (receive D shard clusters (.ok delivery)) = performAll calls := by
  obtain ⟨tag, data⟩ := delivery
  rcases hdata : D.fromSlice data with err | payload
  · refine ⟨_, .malformed hdata, ?_⟩
    simp only [receive, hdata]
    rfl
  have hreceive : ExceptT.run (receive D shard clusters (.ok ⟨tag, data⟩)) =
      .cmd (.basicAck tag) fun _ => ExceptT.run (route D shard clusters payload) := by
    simp only [receive, hdata]
    rfl
  rw [hreceive]
  rcases hfind : clusters.find? (fun cluster => (shard cluster payload.shard).isSome) with
    _ | cluster
  · have hnone : ∀ cluster ∈ clusters, ¬ (shard cluster payload.shard).isSome = true :=
      fun cluster hcluster => List.find?_eq_none.mp hfind cluster hcluster
    refine ⟨[.basicAck tag], .foreign hdata fun hinside => ?_, ?_⟩
    · obtain ⟨i, ⟨cluster, hi, hhas⟩, -⟩ := hP.owner payload.shard hinside.1 hinside.2
      have hcluster := List.mem_of_getElem? hi
      exact hnone cluster hcluster ((hshard cluster hcluster payload.shard).mpr hhas)
    · unfold route
      rw [hfind]
      rfl
  · have hcluster := List.mem_of_find?_eq_some hfind
    have hsome := List.find?_some (p := fun cluster => (shard cluster payload.shard).isSome) hfind
    have hhas := (hshard cluster hcluster payload.shard).mp hsome
    obtain ⟨hstart, hend⟩ := hP.inside cluster hcluster payload.shard hhas
    obtain ⟨i, hi⟩ := List.mem_iff_getElem?.mp hcluster
    obtain ⟨j, -, hunique⟩ := hP.owner payload.shard hstart hend
    refine ⟨_, .routed hdata hstart hend hi hhas fun k cluster' hk hk' =>
      (hunique k ⟨cluster', hk, hk'⟩).trans (hunique i ⟨cluster, hi, hhas⟩).symm, ?_⟩
    unfold route
    rw [hfind]
    obtain ⟨handle, hhandle⟩ := Option.isSome_iff_exists.mp hsome
    rcases payload with ⟨_ | _, id, value⟩
    · rfl
    · dsimp only at hhandle ⊢
      rw [hhandle]
      rfl

end Program

/-! ## The queue and its consumer -/

/-- A command, with its number in the order in which commands are published. -/
structure Command where
  number : ℕ
  data : List UInt8
  deriving DecidableEq

/-- A delivery of a command, with its place among all deliveries. -/
structure Handover where
  place : ℕ
  tag : UInt64
  command : Command
  deriving DecidableEq

def Handover.delivery (d : Handover) : Delivery := ⟨d.tag, d.command.data⟩

/-- The queue of the broker and the process that consumes it. `ready` are the commands to be delivered,
`unacked` the deliveries whose acknowledgement the broker waits for, `acks` the acknowledgements that are
on their way to it, and `acked` those that have arrived. Deliveries wait in `buffer` until `incoming` takes
them, and it is at `current`. The rest is history: all that has been published, delivered and called, the
deliveries that the end of a process has interrupted, and the number of ends. -/
structure Inbox where
  ready : List Command
  unacked : List Handover
  acks : List UInt64
  acked : List Handover
  connected : Bool
  buffer : List Handover
  current : Option (Handover × Prog gateway (Except Failure Unit))
  published : List Command
  handed : List Handover
  log : List (Handover × GatewayCall)
  interrupted : List Handover
  restarts : ℕ

/-- Before the first command. -/
def Inbox.empty : Inbox := ⟨[], [], [], [], true, [], none, [], [], [], [], 0⟩

/-- The tags that a call acknowledges. -/
def GatewayCall.tags : GatewayCall → List UInt64
  | .basicAck tag => [tag]
  | .basicConsume _ | .send _ _ _ | .shutdown _ _ => []

theorem GatewayCall.eq_of_mem_tags {c : GatewayCall} {tag : UInt64} (h : tag ∈ c.tags) :
    c = .basicAck tag := by
  cases c with
  | basicAck => rw [List.mem_singleton.mp h]
  | _ => cases h

/-- The delivery that is interrupted when the process ends. -/
def Inbox.underWay (b : Inbox) : List Handover :=
  match b.current with
  | some (d, .cmd _ _) => [d]
  | some (_, .ret _) | none => []

section Moves

variable (D : DeliveryJson V) (shard : Cluster → UInt64 → Option H) (clusters : List Cluster)

/-- What can happen next. -/
inductive Inbox.Moves : Inbox → Inbox → Prop
  | publish {b : Inbox} (data : List UInt8) : Moves b { b with
      ready := b.ready ++ [⟨b.published.length, data⟩]
      published := b.published ++ [⟨b.published.length, data⟩] }
  /-- The broker delivers a command, under a tag that is not in use. -/
  | deliver {b : Inbox} {command : Command} {ready : List Command} {tag : UInt64}
      (hopen : b.connected = true) (h : b.ready = command :: ready)
      (hunacked : ∀ d ∈ b.unacked, d.tag ≠ tag) (hacks : tag ∉ b.acks) : Moves b { b with
        ready := ready
        unacked := b.unacked ++ [⟨b.handed.length, tag, command⟩]
        buffer := b.buffer ++ [⟨b.handed.length, tag, command⟩]
        handed := b.handed ++ [⟨b.handed.length, tag, command⟩] }
  /-- `incoming` takes the next delivery. -/
  | take {b : Inbox} {d : Handover} {buffer : List Handover}
      (hidle : b.current = none ∨ ∃ d, b.current = some (d, .ret (.ok ())))
      (h : b.buffer = d :: buffer) : Moves b { b with
        buffer := buffer
        current := some (d, ExceptT.run (receive D shard clusters (.ok d.delivery))) }
  /-- `incoming` makes a call. An acknowledgement is on its way if it could be sent. -/
  | call {b : Inbox} {d : Handover} {c : GatewayCall} {k : gateway.Reply c → Prog gateway _}
      (h : b.current = some (d, .cmd c k)) (reply : gateway.Reply c) (sent : Bool)
      (hsent : sent = true → b.connected = true) : Moves b { b with
        current := some (d, k reply)
        acks := b.acks ++ if sent then c.tags else []
        log := b.log ++ [(d, c)] }
  | ackArrives {b : Inbox} {tag : UInt64} (h : tag ∈ b.acks) : Moves b { b with
      unacked := b.unacked.filter fun d => d.tag ≠ tag
      acks := b.acks.erase tag
      acked := b.acked ++ b.unacked.filter fun d => d.tag = tag }
  /-- The connection is lost: what has not been acknowledged is to be delivered again. -/
  | disconnect {b : Inbox} : Moves b { b with
      ready := b.unacked.map Handover.command ++ b.ready
      unacked := []
      acks := []
      connected := false }
  /-- The process ends, and another one consumes the queue. -/
  | restart {b : Inbox} : Moves b { b with
      ready := b.unacked.map Handover.command ++ b.ready
      unacked := []
      acks := []
      connected := true
      buffer := []
      current := none
      interrupted := b.interrupted ++ b.underWay
      restarts := b.restarts + 1 }

/-- What can be reached before the first command. -/
inductive Inbox.Reached : Inbox → Prop
  | init : Reached .empty
  | step {b b' : Inbox} (h : Reached b) (hm : Inbox.Moves D shard clusters b b') : Reached b'

end Moves

namespace Inbox

variable {D : DeliveryJson V} {shard : Cluster → UInt64 → Option H} {clusters : List Cluster}
  {settings : Settings} {b b' : Inbox}

/-! ## What the broker keeps -/

/-- Every command that has been published is in one place: ready, delivered or acknowledged, and a
delivery that is not forgotten is the last one of its command. -/
structure Stored (b : Inbox) : Prop where
  numbered : ∀ c ∈ b.published, c.number < b.published.length
  nodup : b.published.Nodup
  placed : ∀ d ∈ b.handed, d.place < b.handed.length
  unacked : ∀ d ∈ b.unacked, d ∈ b.handed
  acked : ∀ d ∈ b.acked, d ∈ b.handed
  tags : (b.unacked.map Handover.tag).Nodup
  count : ∀ c, b.ready.count c + (b.unacked.map Handover.command).count c +
    (b.acked.map Handover.command).count c = b.published.count c
  last : ∀ d, d ∈ b.unacked ∨ d ∈ b.acked → ∀ d' ∈ b.handed, d'.command = d.command →
    d'.place ≤ d.place

/-- A command that is ready has no delivery that the broker remembers. -/
theorem Stored.ne_of_ready (h : b.Stored) {c : Command} (hc : c ∈ b.ready) {d : Handover}
    (hd : d ∈ b.unacked ∨ d ∈ b.acked) : c ≠ d.command := by
  rintro rfl
  have hready := List.count_pos_iff.mpr hc
  have hone := List.nodup_iff_count_le_one.mp h.nodup d.command
  have hcount := h.count d.command
  rcases hd with hd | hd
  · have := List.count_pos_iff.mpr (List.mem_map_of_mem (f := Handover.command) hd)
    omega
  · have := List.count_pos_iff.mpr (List.mem_map_of_mem (f := Handover.command) hd)
    omega

/-- What is not acknowledged is ready again. -/
theorem Stored.requeue (h : b.Stored) {c : Command} :
    (b.unacked.map Handover.command ++ b.ready).count c + (List.map Handover.command []).count c +
      (b.acked.map Handover.command).count c = b.published.count c := by
  rw [List.count_append, ← h.count c]
  simp only [List.map_nil, List.count_nil]
  omega

theorem Stored.moves (h : b.Stored) (hm : Moves D shard clusters b b') : b'.Stored := by
  cases hm with
  | publish data =>
    have hnew : (⟨b.published.length, data⟩ : Command) ∉ b.published := fun hmem =>
      Nat.lt_irrefl _ (h.numbered _ hmem)
    refine ⟨fun c hc => ?_, List.nodup_append.mpr ⟨h.nodup, List.nodup_singleton _, ?_⟩, h.placed,
      h.unacked, h.acked, h.tags, fun c => ?_, h.last⟩
    · rw [List.length_append, List.length_singleton]
      rcases List.mem_append.mp hc with hc | hc
      · exact Nat.lt_succ_of_lt (h.numbered c hc)
      · rw [List.mem_singleton.mp hc]
        exact Nat.lt_succ_self _
    · rintro c hc _ hc' rfl
      exact hnew (List.mem_singleton.mp hc' ▸ hc)
    · have hcount := h.count c
      simp only [List.count_append]
      omega
  | @deliver command ready tag hopen hready hunacked hacks =>
    have hmem : command ∈ b.ready := hready ▸ List.mem_cons_self
    have hplaced : ∀ d ∈ b.handed ++ [⟨b.handed.length, tag, command⟩],
        d.place < (b.handed ++ [(⟨b.handed.length, tag, command⟩ : Handover)]).length := by
      intro d hd
      rw [List.length_append, List.length_singleton]
      rcases List.mem_append.mp hd with hd | hd
      · exact Nat.lt_succ_of_lt (h.placed d hd)
      · rw [List.mem_singleton.mp hd]
        exact Nat.lt_succ_self _
    have hlast : ∀ d, d ∈ b.unacked ∨ d ∈ b.acked →
        ∀ d' ∈ b.handed ++ [⟨b.handed.length, tag, command⟩], d'.command = d.command →
          d'.place ≤ d.place := by
      intro d hd d' hd' heq
      rcases List.mem_append.mp hd' with hd' | hd'
      · exact h.last d hd d' hd' heq
      · rw [List.mem_singleton.mp hd'] at heq
        exact absurd heq (h.ne_of_ready hmem hd)
    refine ⟨h.numbered, h.nodup, hplaced, fun d hd => ?_,
      fun d hd => List.mem_append_left _ (h.acked d hd), ?_, fun c => ?_, fun d hd => ?_⟩
    · exact (List.mem_append.mp hd).elim (fun hd => List.mem_append_left _ (h.unacked d hd))
        fun hd => List.mem_append_right _ hd
    · rw [List.map_append, List.nodup_append]
      refine ⟨h.tags, List.nodup_singleton _, ?_⟩
      rintro t ht _ ht' rfl
      obtain ⟨d, hd, rfl⟩ := List.mem_map.mp ht
      exact hunacked d hd (List.mem_singleton.mp ht')
    · have hcount := h.count c
      rw [hready, List.count_cons] at hcount
      simp only [List.map_append, List.count_append, List.map_singleton, List.count_singleton]
      omega
    · rcases hd with hd | hd
      · rcases List.mem_append.mp hd with hd | hd
        · exact hlast d (.inl hd)
        · rw [List.mem_singleton.mp hd]
          intro d' hd' _
          have := hplaced d' hd'
          rw [List.length_append, List.length_singleton] at this
          exact Nat.le_of_lt_succ this
      · exact hlast d (.inr hd)
  | take | call => exact ⟨h.numbered, h.nodup, h.placed, h.unacked, h.acked, h.tags, h.count, h.last⟩
  | @ackArrives tag htag =>
    have hsub : ∀ d, d ∈ (b.unacked.filter fun d => d.tag ≠ tag) ∨
        d ∈ (b.acked ++ b.unacked.filter fun d => d.tag = tag) → d ∈ b.unacked ∨ d ∈ b.acked := by
      rintro d (hd | hd)
      · exact .inl (List.mem_filter.mp hd).1
      · exact (List.mem_append.mp hd).elim .inr fun hd => .inl (List.mem_filter.mp hd).1
    refine ⟨h.numbered, h.nodup, h.placed, fun d hd => h.unacked d (List.mem_filter.mp hd).1,
      fun d hd => ?_, h.tags.sublist (List.filter_sublist.map _), fun c => ?_,
      fun d hd => h.last d (hsub d hd)⟩
    · exact (hsub d (.inr hd)).elim (h.unacked d) (h.acked d)
    · have hperm := List.filter_append_perm (fun d : Handover => decide (d.tag = tag)) b.unacked
      have hcount := (hperm.map Handover.command).count_eq c
      rw [List.map_append, List.count_append] at hcount
      rw [← h.count c, ← hcount, List.map_append, List.count_append]
      simp only [decide_not]
      omega
  | disconnect =>
    exact ⟨h.numbered, h.nodup, h.placed, fun _ hd => absurd hd List.not_mem_nil, h.acked,
      List.nodup_nil, fun _ => h.requeue,
      fun d hd => h.last d (.inr (hd.resolve_left List.not_mem_nil))⟩
  | restart =>
    exact ⟨h.numbered, h.nodup, h.placed, fun _ hd => absurd hd List.not_mem_nil, h.acked,
      List.nodup_nil, fun _ => h.requeue,
      fun d hd => h.last d (.inr (hd.resolve_left List.not_mem_nil))⟩

/-! ## What the processes do -/

/-- The calls for a delivery so far. -/
def callsOf (b : Inbox) (d : Handover) : List GatewayCall :=
  (b.log.filter fun x => x.1 = d).map Prod.snd

theorem mem_callsOf {d : Handover} {c : GatewayCall} : c ∈ b.callsOf d ↔ (d, c) ∈ b.log := by
  simp [callsOf]

theorem callsOf_eq_nil {d : Handover} (h : ∀ x ∈ b.log, x.1 ≠ d) : b.callsOf d = [] := by
  refine List.eq_nil_iff_forall_not_mem.mpr fun c hc => h _ (mem_callsOf.mp hc) rfl

theorem callsOf_append {d : Handover} {c : GatewayCall} (h : b'.log = b.log ++ [(d, c)])
    (d' : Handover) : b'.callsOf d' = b.callsOf d' ++ if d = d' then [c] else [] := by
  unfold callsOf
  rw [h, List.filter_append, List.map_append]
  congr 1
  split_ifs with hd <;> simp [hd]

variable (D clusters settings) in
/-- Deliveries are taken in order, the calls for one are the first of those that answer it, and they are
all of them unless the delivery is under way or was interrupted. -/
structure Followed (b : Inbox) : Prop where
  buffer : ∀ d ∈ b.buffer, d ∈ b.handed
  sorted : b.buffer.Pairwise fun d d' => d.place < d'.place
  later : ∀ d ∈ b.buffer, (∀ x ∈ b.log, x.1.place < d.place) ∧
    ∀ x, b.current = some x → x.1.place < d.place
  log : ∀ x ∈ b.log, x.1 ∈ b.handed
  ordered : b.log.Pairwise fun x y => x.1.place ≤ y.1.place
  current : ∀ d p, b.current = some (d, p) → d ∈ b.handed ∧ (∀ x ∈ b.log, x.1.place ≤ d.place) ∧
    ∃ rest, p = performAll rest ∧
      Answered D settings clusters (.ok d.delivery) (b.callsOf d ++ rest)
  begun : ∀ d, ∃ rest, Answered D settings clusters (.ok d.delivery) (b.callsOf d ++ rest)
  done : ∀ x ∈ b.log, (∃ p, b.current = some (x.1, p)) ∨ x.1 ∈ b.interrupted ∨
    Answered D settings clusters (.ok x.1.delivery) (b.callsOf x.1)
  interrupted : b.interrupted.length ≤ b.restarts

/-- A delivery that still waits has no calls. -/
theorem Followed.callsOf_buffer (h : b.Followed D clusters settings) {d : Handover}
    (hd : d ∈ b.buffer) : b.callsOf d = [] :=
  callsOf_eq_nil fun x hx heq => Nat.lt_irrefl _ (heq ▸ (h.later d hd).1 x hx)

/-- What has returned has made all its calls. -/
theorem Followed.answered_of_ret (h : b.Followed D clusters settings) {d : Handover}
    {r : Except Failure Unit} (hd : b.current = some (d, .ret r)) :
    Answered D settings clusters (.ok d.delivery) (b.callsOf d) := by
  obtain ⟨-, -, rest, hrest, hanswered⟩ := h.current d _ hd
  cases rest with
  | nil => rwa [List.append_nil] at hanswered
  | cons c rest => cases hrest

theorem Followed.moves (h : b.Followed D clusters settings) (hs : b.Stored)
    (hP : settings.Partitions clusters)
    (hshard : ∀ cluster ∈ clusters, ∀ id, (shard cluster id).isSome ↔ cluster.Has id)
    (hm : Moves D shard clusters b b') : b'.Followed D clusters settings := by
  cases hm with
  | publish | ackArrives | disconnect =>
    exact ⟨h.buffer, h.sorted, h.later, h.log, h.ordered, h.current, h.begun, h.done, h.interrupted⟩
  | @deliver command ready tag =>
    have hold {d : Handover} (hd : d ∈ b.handed) :
        d ∈ b.handed ++ [⟨b.handed.length, tag, command⟩] := List.mem_append_left _ hd
    refine ⟨fun d hd => ?_, List.pairwise_append.mpr ⟨h.sorted, List.pairwise_singleton _ _, ?_⟩,
      fun d hd => ?_, fun x hx => hold (h.log x hx), h.ordered, fun d p hd => ?_, h.begun, h.done,
      h.interrupted⟩
    · exact (List.mem_append.mp hd).elim (fun hd => hold (h.buffer d hd))
        fun hd => List.mem_append_right _ hd
    · rintro d hd d' hd'
      rw [List.mem_singleton.mp hd']
      exact hs.placed d (h.buffer d hd)
    · rcases List.mem_append.mp hd with hd | hd
      · exact h.later d hd
      · rw [List.mem_singleton.mp hd]
        exact ⟨fun x hx => hs.placed _ (h.log x hx),
          fun x hx => hs.placed _ (h.current x.1 x.2 hx).1⟩
    · obtain ⟨hmem, hrest⟩ := h.current d p hd
      exact ⟨hold hmem, hrest⟩
  | @take d buffer hidle hbuffer =>
    have hmem : d ∈ b.buffer := hbuffer ▸ List.mem_cons_self
    have hsorted := h.sorted
    rw [hbuffer] at hsorted
    obtain ⟨hfirst, hsorted⟩ := List.pairwise_cons.mp hsorted
    refine ⟨fun d' hd' => h.buffer d' (hbuffer ▸ List.mem_cons_of_mem _ hd'), hsorted,
      fun d' hd' => ⟨(h.later d' (hbuffer ▸ List.mem_cons_of_mem _ hd')).1, ?_⟩, h.log, h.ordered, ?_,
      h.begun, fun x hx => ?_, h.interrupted⟩
    · rintro _ ⟨⟩
      exact hfirst d' hd'
    · rintro _ _ ⟨⟩
      obtain ⟨calls, hanswered, hprogram⟩ := run_receive_eq hP hshard d.delivery
      refine ⟨h.buffer d hmem, fun x hx => ((h.later d hmem).1 x hx).le, calls, hprogram, ?_⟩
      change Answered D settings clusters _ (b.callsOf d ++ calls)
      rwa [h.callsOf_buffer hmem]
    · -- the delivery before has been answered
      rcases h.done x hx with ⟨p, hp⟩ | hx | hx
      · rcases hidle with hnone | ⟨d', hret⟩
        · exact absurd (hnone.symm.trans hp) (Option.some_ne_none _).symm
        · obtain ⟨rfl, rfl⟩ := Prod.mk.inj (Option.some.inj (hret.symm.trans hp))
          exact .inr (.inr (h.answered_of_ret hret))
      · exact .inr (.inl hx)
      · exact .inr (.inr hx)
  | @call d c k hcurrent reply sent =>
    obtain ⟨hmem, hplace, rest, hrest, hanswered⟩ := h.current d _ hcurrent
    cases rest with
    | nil => cases hrest
    | cons c' rest =>
      obtain ⟨rfl, hk⟩ := Prog.cmd.inj hrest
      obtain rfl := eq_of_heq hk
      have hnext : Answered D settings clusters (.ok d.delivery)
          ((b.callsOf d ++ if d = d then [c] else []) ++ rest) := by
        rw [if_pos rfl, List.append_assoc]
        exact hanswered
      refine ⟨h.buffer, h.sorted, fun d' hd' => ⟨fun x hx => ?_, ?_⟩, fun x hx => ?_,
        List.pairwise_append.mpr ⟨h.ordered, List.pairwise_singleton _ _, ?_⟩, ?_, fun d' => ?_,
        fun x hx => ?_, h.interrupted⟩
      · rcases List.mem_append.mp hx with hx | hx
        · exact (h.later d' hd').1 x hx
        · rw [List.mem_singleton.mp hx]
          exact (h.later d' hd').2 _ hcurrent
      · rintro _ ⟨⟩
        have hlater : d.place < d'.place := (h.later d' hd').2 _ hcurrent
        exact hlater
      · rcases List.mem_append.mp hx with hx | hx
        · exact h.log x hx
        · rw [List.mem_singleton.mp hx]
          exact hmem
      · rintro x hx _ hy
        rw [List.mem_singleton.mp hy]
        exact hplace x hx
      · rintro _ _ ⟨⟩
        refine ⟨hmem, fun x hx => ?_, rest, rfl, ?_⟩
        · rcases List.mem_append.mp hx with hx | hx
          · exact hplace x hx
          · rw [List.mem_singleton.mp hx]
        · rw [callsOf_append (b := b) rfl]
          exact hnext
      · rw [callsOf_append (b := b) rfl]
        by_cases hd : d = d'
        · subst hd
          exact ⟨rest, hnext⟩
        · rw [if_neg hd, List.append_nil]
          exact h.begun d'
      · by_cases hd : d = x.1
        · exact .inl ⟨performAll rest, by rw [hd]⟩
        · have hold : x ∈ b.log := by
            refine (List.mem_append.mp hx).resolve_right fun hx => hd ?_
            rw [List.mem_singleton.mp hx]
          rw [callsOf_append (b := b) rfl, if_neg hd, List.append_nil]
          rcases h.done x hold with ⟨p, hp⟩ | hx | hx
          · exact absurd (congrArg Prod.fst (Option.some.inj (hcurrent.symm.trans hp))) hd
          · exact .inr (.inl hx)
          · exact .inr (.inr hx)
  | restart =>
    refine ⟨fun _ hd => absurd hd List.not_mem_nil, List.Pairwise.nil,
      fun _ hd => absurd hd List.not_mem_nil, h.log, h.ordered,
      fun _ _ hd => absurd hd.symm (Option.some_ne_none _), h.begun, fun x hx => .inr ?_, ?_⟩
    · rcases h.done x hx with ⟨p, hp⟩ | hx | hx
      · cases p with
        | ret r => exact .inr (h.answered_of_ret hp)
        | cmd c k =>
          refine .inl (List.mem_append_right _ ?_)
          simp [underWay, hp]
      · exact .inl (List.mem_append_left _ hx)
      · exact .inr hx
    · have hone : b.underWay.length ≤ 1 := by
        unfold underWay
        split <;> simp
      have hle := h.interrupted
      change (b.interrupted ++ b.underWay).length ≤ b.restarts + 1
      rw [List.length_append]
      omega

/-! ## Acknowledgements -/

/-- The acknowledgement that a process calls for is that of the delivery, and its first call. -/
theorem Followed.first_of_basicAck (h : b.Followed D clusters settings) {d : Handover}
    {c : GatewayCall} {k : gateway.Reply c → Prog gateway (Except Failure Unit)} {tag : UInt64}
    (hd : b.current = some (d, .cmd c k)) (hc : c = .basicAck tag) :
    b.callsOf d = [] ∧ d.tag = tag := by
  obtain ⟨-, -, rest, hrest, hanswered⟩ := h.current d _ hd
  cases rest with
  | nil => cases hrest
  | cons c' rest =>
    obtain ⟨rfl, -⟩ := Prog.cmd.inj hrest
    obtain ⟨rest', heq, hnone⟩ := hanswered.eq_cons
    rw [hc] at heq
    cases hcalls : b.callsOf d with
    | nil =>
      rw [hcalls, List.nil_append] at heq
      exact ⟨rfl, (GatewayCall.basicAck.inj (List.cons.inj heq).1).symm⟩
    | cons first calls =>
      rw [hcalls, List.cons_append] at heq
      obtain ⟨-, rfl⟩ := List.cons.inj heq
      exact absurd (List.mem_append_right _ List.mem_cons_self) (hnone tag)

/-- A delivery that has not been acknowledged yet is one that the broker remembers, and an acknowledgement
that is on its way or has arrived has been called for. -/
structure Linked (b : Inbox) : Prop where
  held : b.connected = true → ∀ d, (d ∈ b.buffer ∨ ∃ p, b.current = some (d, p)) →
    b.callsOf d = [] → d ∈ b.unacked
  sent : ∀ d, d ∈ b.unacked ∧ d.tag ∈ b.acks ∨ d ∈ b.acked → .basicAck d.tag ∈ b.callsOf d

theorem Linked.moves (h : b.Linked) (hs : b.Stored) (hf : b.Followed D clusters settings)
    (hm : Moves D shard clusters b b') : b'.Linked := by
  cases hm with
  | publish => exact ⟨h.held, h.sent⟩
  | deliver hopen hready hunacked hacks =>
    refine ⟨fun hconnected d hd hnil => ?_, fun d hd => ?_⟩
    · rcases hd with hd | hd
      · rcases List.mem_append.mp hd with hd | hd
        · exact List.mem_append_left _ (h.held hconnected d (.inl hd) hnil)
        · exact List.mem_append_right _ hd
      · exact List.mem_append_left _ (h.held hconnected d (.inr hd) hnil)
    · refine h.sent d (hd.imp_left fun hd => ⟨?_, hd.2⟩)
      refine (List.mem_append.mp hd.1).resolve_right fun hnew => hacks ?_
      have htag := hd.2
      rwa [List.mem_singleton.mp hnew] at htag
  | @take d buffer hidle hbuffer =>
    refine ⟨fun hconnected d' hd' hnil => ?_, h.sent⟩
    have hmem : d' ∈ b.buffer := by
      rw [hbuffer]
      rcases hd' with hd' | ⟨_, ⟨⟩⟩
      · exact List.mem_cons_of_mem _ hd'
      · exact List.mem_cons_self
    exact h.held hconnected d' (.inl hmem) hnil
  | @call d c k hcurrent reply sent hsent =>
    refine ⟨fun hconnected d' hd' hnil => ?_, fun d' hd' => ?_⟩
    · rw [callsOf_append (b := b) rfl, List.append_eq_nil_iff] at hnil
      refine h.held hconnected d' (hd'.imp_right fun ⟨p, hp⟩ => ?_) hnil.1
      obtain rfl := congrArg Prod.fst (Option.some.inj hp)
      exact ⟨_, hcurrent⟩
    · rw [callsOf_append (b := b) rfl, List.mem_append]
      rcases hd' with ⟨hmem, htag⟩ | hd'
      · rcases List.mem_append.mp htag with htag | htag
        · exact .inl (h.sent d' (.inl ⟨hmem, htag⟩))
        · split_ifs at htag with hsent'
          · have hc : c = .basicAck d'.tag := GatewayCall.eq_of_mem_tags htag
            obtain ⟨hcalls, htags⟩ := hf.first_of_basicAck hcurrent hc
            have hheld := h.held (hsent hsent') d (.inr ⟨_, hcurrent⟩) hcalls
            obtain rfl := List.inj_on_of_nodup_map hs.tags hheld hmem htags
            rw [if_pos rfl, hc]
            exact .inr (List.mem_singleton_self _)
          · cases htag
      · exact .inl (h.sent d' (.inr hd'))
  | @ackArrives tag htag =>
    refine ⟨fun hconnected d hd hnil => ?_, fun d hd => ?_⟩
    · have hmem := h.held hconnected d hd hnil
      refine List.mem_filter.mpr ⟨hmem, decide_eq_true fun heq => ?_⟩
      have hcalled := h.sent d (.inl ⟨hmem, heq ▸ htag⟩)
      have hnil : b.callsOf d = [] := hnil
      rw [hnil] at hcalled
      cases hcalled
    · rcases hd with ⟨hd, hacks⟩ | hd
      · exact h.sent d (.inl ⟨(List.mem_filter.mp hd).1, List.mem_of_mem_erase hacks⟩)
      · rcases List.mem_append.mp hd with hd | hd
        · exact h.sent d (.inr hd)
        · obtain ⟨hmem, heq⟩ := List.mem_filter.mp hd
          exact h.sent d (.inl ⟨hmem, of_decide_eq_true heq ▸ htag⟩)
  | disconnect =>
    exact ⟨fun hconnected => absurd hconnected Bool.false_ne_true,
      fun d hd => h.sent d (.inr (hd.resolve_left fun hd => List.not_mem_nil hd.1))⟩
  | restart =>
    refine ⟨fun _ d hd => ?_,
      fun d hd => h.sent d (.inr (hd.resolve_left fun hd => List.not_mem_nil hd.1))⟩
    rcases hd with hd | ⟨p, hp⟩
    · exact absurd hd List.not_mem_nil
    · exact absurd hp.symm (Option.some_ne_none _)

/-! ## Runs -/

section Runs

variable (hP : settings.Partitions clusters)
  (hshard : ∀ cluster ∈ clusters, ∀ id, (shard cluster id).isSome ↔ cluster.Has id)
include hP hshard

theorem Reached.sound (h : Reached D shard clusters b) :
    b.Stored ∧ b.Followed D clusters settings ∧ b.Linked := by
  induction h with
  | init =>
    refine ⟨⟨?_, List.nodup_nil, ?_, ?_, ?_, List.nodup_nil, fun _ => rfl, ?_⟩,
      ⟨?_, List.Pairwise.nil, ?_, ?_, List.Pairwise.nil, ?_, fun d => ?_, ?_, Nat.le_refl _⟩, ?_, ?_⟩
    all_goals try exact fun _ hc => absurd hc List.not_mem_nil
    · rintro d (hd | hd) <;> cases hd
    · rintro d p ⟨⟩
    · obtain ⟨calls, hcalls, -⟩ := run_receive_eq (D := D) hP hshard d.delivery
      exact ⟨calls, hcalls⟩
    · rintro - d (hd | ⟨p, ⟨⟩⟩)
      cases hd
    · rintro d (⟨hd, -⟩ | hd) <;> cases hd
  | step _ hm ih =>
    obtain ⟨hs, hf, hl⟩ := ih
    exact ⟨hs.moves hm, hf.moves hs hP hshard hm, hl.moves hs hf hm⟩

end Runs

end Inbox

/-- **Commands across restarts.** Whatever is published, and wherever connections are lost and processes
end: every command is ready, delivered or acknowledged; the calls follow the order of the deliveries; the
calls for a delivery are the first of those that answer it; no delivery of a command comes after one that
has been acknowledged; and an acknowledged delivery has been answered, unless it is under way or is one of
those, at most one for each end of a process, that have been interrupted. -/
theorem commands_handled {settings : Settings} {clusters : List Cluster} {D : DeliveryJson V}
    {shard : Cluster → UInt64 → Option H} {b : Inbox} (hP : settings.Partitions clusters)
    (hshard : ∀ cluster ∈ clusters, ∀ id, (shard cluster id).isSome ↔ cluster.Has id)
    (h : Inbox.Reached D shard clusters b) :
    (b.ready ++ b.unacked.map Handover.command ++ b.acked.map Handover.command).Perm b.published ∧
    b.log.Pairwise (fun x y => x.1.place ≤ y.1.place) ∧
    (∀ d, ∃ rest, Answered D settings clusters (.ok d.delivery) (b.callsOf d ++ rest)) ∧
    (∀ d ∈ b.acked, ∀ d' ∈ b.handed, d'.command = d.command → d'.place ≤ d.place) ∧
    (∀ d ∈ b.acked, (∃ p, b.current = some (d, p)) ∨ d ∈ b.interrupted ∨
      Answered D settings clusters (.ok d.delivery) (b.callsOf d)) ∧
    b.interrupted.length ≤ b.restarts := by
  obtain ⟨hs, hf, hl⟩ := h.sound hP hshard
  refine ⟨List.perm_iff_count.mpr fun c => ?_, hf.ordered, hf.begun, fun d hd => hs.last d (.inr hd),
    fun d hd => ?_, hf.interrupted⟩
  · rw [List.count_append, List.count_append]
    exact hs.count c
  · exact hf.done _ (Inbox.mem_callsOf.mp (hl.sent d (.inr hd)))

/-- The first acknowledgement of a command is lost when the process ends, so it is delivered twice, and then
it is sent to its shard. -/
theorem commands_handled_twice :
    let settings : Settings := ⟨0, 4, 5, 2, false, .full, .of 9⟩
    let D : DeliveryJson Unit := ⟨fun _ => .ok ⟨.send, 3, none⟩, fun _ => .ok [2], ()⟩
    let shard (cluster : Cluster) (id : UInt64) : Option Unit :=
      if cluster.fromShard ≤ id ∧ id ≤ cluster.toShard then some () else none
    let again : Handover := ⟨1, 1, ⟨0, []⟩⟩
    ∃ (b : Inbox) (cluster : Cluster), Inbox.Reached D shard (settings.layout ∅) b ∧
      b.handed.length = 2 ∧ again ∈ b.acked ∧ cluster.Has 3 ∧
      b.callsOf again = [.basicAck 1, .send cluster 3 [2]] ∧
      (∀ d' ∈ b.handed, d'.command = again.command → d'.place ≤ again.place) ∧
      ∃ rest, Answered D settings (settings.layout ∅) (.ok again.delivery) (b.callsOf again ++ rest) := by
  intro settings D shard again
  have hP := (show settings.Valid from ⟨by decide, by decide, by decide⟩).partitions ∅
  have hshard : ∀ cluster ∈ settings.layout ∅, ∀ id, (shard cluster id).isSome ↔ cluster.Has id :=
    fun cluster _ id => by simp [shard, Cluster.Has]
  obtain ⟨cluster, hhas, hroute⟩ : ∃ cluster : Cluster, cluster.Has 3 ∧
      ExceptT.run (receive D shard (settings.layout ∅) (.ok again.delivery)) =
        performAll [.basicAck 1, .send cluster 3 [2]] := by
    obtain ⟨calls, hanswered, hrun⟩ := run_receive_eq (D := D) hP hshard again.delivery
    cases hanswered with
    | malformed h => cases h
    | foreign h hinside =>
      obtain rfl := Except.ok.inj h
      exact absurd ⟨by decide, by decide⟩ hinside
    | @routed _ _ _ _ cluster h _ _ _ hhas =>
      obtain rfl := Except.ok.inj h
      exact ⟨cluster, hhas, hrun⟩
  have htaken (d : Handover) : some (d, ExceptT.run (receive D shard (settings.layout ∅)
      (.ok again.delivery))) = some (d, .cmd (.basicAck 1) fun _ => performAll [.send cluster 3 [2]]) :=
    congrArg (fun p => some (d, p)) hroute
  have hdelivered : ∀ d ∈ ([] : List Handover), d.tag ≠ 1 := fun _ hd => absurd hd List.not_mem_nil
  have hinit : Inbox.Reached D shard (settings.layout ∅) .empty := .init
  have hlost := ((((hinit.step (.publish [])).step
    (.deliver rfl rfl hdelivered List.not_mem_nil)).step (.take (.inl rfl) rfl)).step
    (.call (htaken _) (Except.ok ()) true fun _ => rfl)).step .restart
  have hacked := (((hlost.step (.deliver rfl rfl hdelivered List.not_mem_nil)).step
    (.take (.inl rfl) rfl)).step (.call (htaken _) (Except.ok ()) true fun _ => rfl)).step
    (.ackArrives (List.mem_singleton_self (1 : UInt64)))
  have hsent := hacked.step (.call (c := .send cluster 3 [2]) rfl (Except.ok ()) true fun _ => rfl)
  obtain ⟨-, -, hbegun, hlast, -⟩ := commands_handled hP hshard hsent
  exact ⟨_, cluster, hsent, rfl, List.mem_singleton_self _, hhas, rfl,
    hlast _ (List.mem_singleton_self _), hbegun again⟩

end TwilightDispatch
