import TwilightDispatch.Shards

/-!
# Commands for the gateway

`handler::incoming` takes one delivery after another off a queue, acknowledges it, and hands its
command to the cluster that has the shard. Every delivery is answered, whatever is in it and whatever
the broker and the clusters reply (`deliveries_routed`).
-/

namespace TwilightDispatch

open Atomic Redis

variable {T U V W S H : Type}

/-! ## Deliveries -/

structure Delivery where
  deliveryTag : UInt64
  data : List UInt8

inductive DeliveryOpcode where
  | send
  | reconnect
  deriving DecidableEq

/-- The content of a well-formed delivery. -/
structure DeliveryInfo (V : Type) where
  op : DeliveryOpcode
  shard : UInt64
  data : Option V

/-- The JSON library on deliveries. -/
structure DeliveryJson (V : Type) where
  fromSlice : List UInt8 → Except SimdJsonError (DeliveryInfo V)
  toVec : V → Except SimdJsonError (List UInt8)
  null : V

/-- `simd_json::to_vec(&payload.data.unwrap_or_default()).unwrap_or_default()`. -/
def DeliveryInfo.binary (D : DeliveryJson V) (payload : DeliveryInfo V) : List UInt8 :=
  match D.toVec (payload.data.getD D.null) with
  | .ok bytes => bytes
  | .error _ => []

/-! ## The loop -/

/-- What is asked of the broker and of the clusters. -/
inductive GatewayCall where
  | basicConsume (queue : String)
  | basicAck (deliveryTag : UInt64)
  | send (cluster : Cluster) (shard : UInt64) (message : List UInt8)
  | shutdown (cluster : Cluster) (shard : UInt64)

/-- An error of the broker or of a cluster. -/
structure GatewayError where
  message : String

abbrev GatewayCall.Reply : GatewayCall → Type
  | .basicConsume _ | .basicAck _ | .send _ _ _ => Except GatewayError Unit
  | .shutdown _ _ => Unit

abbrev gateway : Interface where
  Cmd := GatewayCall
  Reply := GatewayCall.Reply

def call (c : GatewayCall) : Fallible gateway Failure c.Reply :=
  ExceptT.lift (Prog.perform (I := gateway) c)

section Loop

variable (D : DeliveryJson V) (shard : Cluster → UInt64 → Option H) (clusters : List Cluster)

/-- What is done about a command. -/
def route (payload : DeliveryInfo V) : Fallible gateway Failure Unit := do
  match clusters.find? fun cluster => (shard cluster payload.shard).isSome with
  | some cluster =>
    match payload.op with
    | .send =>
      -- an error is only logged
      let _ ← call (.send cluster payload.shard (payload.binary D))
      return ()
    | .reconnect =>
      match shard cluster payload.shard with
      | some _ => call (.shutdown cluster payload.shard)
      | none => throw .panic
  | none => return ()

/-- What is done about a message of the consumer. -/
def receive : Except GatewayError Delivery → Fallible gateway Failure Unit
  | .ok delivery => do
    let _ ← call (.basicAck delivery.deliveryTag)
    match D.fromSlice delivery.data with
    | .ok payload => route D shard clusters payload
    | .error _ => return ()
  | .error _ => return ()

/-- `incoming`, over the messages the consumer yields once it has been set up. -/
def incoming (consumer : List (Except GatewayError Delivery)) : Fallible gateway Failure Unit := do
  match ← call (.basicConsume QUEUE_SEND) with
  | .ok () => consumer.forM (receive D shard clusters)
  | .error _ => return ()

end Loop

/-! ## Routing -/

/-- What the deliveries have to cause. A delivery is acknowledged, and if it is well formed and its
shard is one of the process, the one cluster that has the shard gets the command. -/
inductive Answered (D : DeliveryJson V) (settings : Settings) (clusters : List Cluster) :
    Except GatewayError Delivery → List GatewayCall → Prop
  | failed (err : GatewayError) : Answered D settings clusters (.error err) []
  | malformed {tag : UInt64} {data : List UInt8} {err : SimdJsonError}
      (h : D.fromSlice data = .error err) :
      Answered D settings clusters (.ok ⟨tag, data⟩) [.basicAck tag]
  | foreign {tag : UInt64} {data : List UInt8} {payload : DeliveryInfo V}
      (h : D.fromSlice data = .ok payload)
      (hshard : ¬ (settings.shardsStart ≤ payload.shard ∧ payload.shard ≤ settings.shardsEnd)) :
      Answered D settings clusters (.ok ⟨tag, data⟩) [.basicAck tag]
  | routed {tag : UInt64} {data : List UInt8} {payload : DeliveryInfo V} {i : ℕ} {cluster : Cluster}
      (h : D.fromSlice data = .ok payload) (hstart : settings.shardsStart ≤ payload.shard)
      (hend : payload.shard ≤ settings.shardsEnd) (hi : clusters[i]? = some cluster)
      (hhas : cluster.Has payload.shard)
      (hunique : ∀ j cluster', clusters[j]? = some cluster' → cluster'.Has payload.shard → j = i) :
      Answered D settings clusters (.ok ⟨tag, data⟩) [.basicAck tag,
        match payload.op with
        | .send => .send cluster payload.shard (payload.binary D)
        | .reconnect => .shutdown cluster payload.shard]

section Routing

variable {D : DeliveryJson V} {shard : Cluster → UInt64 → Option H} {clusters : List Cluster}
  {settings : Settings} {gw : Exec gateway W}

/-- A command for a shard that no cluster has is dropped. -/
theorem route_foreign {payload : DeliveryInfo V}
    (h : ∀ cluster ∈ clusters, shard cluster payload.shard = none) :
    route D shard clusters payload = pure () := by
  have hnone : clusters.find? (fun cluster => (shard cluster payload.shard).isSome) = none := by
    refine List.find?_eq_none.mpr fun cluster hcluster => ?_
    rw [h cluster hcluster]
    exact Bool.false_ne_true
  unfold route
  rw [hnone]

variable (D gw) in
/-- A command goes to the first cluster that has its shard. -/
theorem trace_route {payload : DeliveryInfo V} {cluster : Cluster}
    (h : clusters.find? (fun cluster => (shard cluster payload.shard).isSome) = some cluster) (w : W) :
    (Fallible.run gw (route D shard clusters payload) w).1 = .ok () ∧
      Fallible.trace gw (route D shard clusters payload) w = [match payload.op with
        | .send => .send cluster payload.shard (payload.binary D)
        | .reconnect => .shutdown cluster payload.shard] := by
  have hsome := List.find?_some (p := fun cluster => (shard cluster payload.shard).isSome) h
  obtain ⟨handle, hhandle⟩ := Option.isSome_iff_exists.mp hsome
  unfold route
  rw [h]
  rcases payload with ⟨_ | _, id, data⟩
  · exact ⟨rfl, rfl⟩
  · dsimp only at hhandle ⊢
    rw [hhandle]
    exact ⟨rfl, rfl⟩

/-- Every message of the consumer is answered, whatever the broker and the clusters reply. -/
theorem receive_answered (hP : settings.Partitions clusters)
    (hshard : ∀ cluster ∈ clusters, ∀ id, (shard cluster id).isSome ↔ cluster.Has id)
    (message : Except GatewayError Delivery) (w : W) :
    (Fallible.run gw (receive D shard clusters message) w).1 = .ok () ∧
      Answered D settings clusters message
        (Fallible.trace gw (receive D shard clusters message) w) := by
  rcases message with err | ⟨tag, data⟩
  · exact ⟨rfl, .failed err⟩
  rcases hdata : D.fromSlice data with err | payload
  · have hreceive : receive D shard clusters (.ok ⟨tag, data⟩) = (do
        let _ ← call (.basicAck tag)
        return () : Fallible gateway Failure Unit) := by
      simp only [receive, hdata]
    rw [hreceive]
    exact ⟨rfl, .malformed hdata⟩
  have hreceive : receive D shard clusters (.ok ⟨tag, data⟩) = (do
      let _ ← call (.basicAck tag)
      route D shard clusters payload : Fallible gateway Failure Unit) := by
    simp only [receive, hdata]
  have hack : Fallible.run gw (call (.basicAck tag)) w =
      (.ok (gw (.basicAck tag) w).1, (gw (.basicAck tag) w).2) := rfl
  rw [hreceive, Fallible.run_bind_ok hack, Fallible.trace_bind_ok hack]
  by_cases hinside : settings.shardsStart ≤ payload.shard ∧ payload.shard ≤ settings.shardsEnd
  · obtain ⟨i, ⟨cluster, hi, hhas⟩, hunique⟩ := hP.owner payload.shard hinside.1 hinside.2
    have hsome : (clusters.find? fun cluster => (shard cluster payload.shard).isSome).isSome := by
      rw [List.find?_isSome]
      exact ⟨cluster, List.mem_of_getElem? hi,
        (hshard cluster (List.mem_of_getElem? hi) payload.shard).mpr hhas⟩
    obtain ⟨found, hfound⟩ := Option.isSome_iff_exists.mp hsome
    have hmem := List.mem_of_find?_eq_some hfound
    obtain ⟨j, hj⟩ := List.mem_iff_getElem?.mp hmem
    have hfoundHas := (hshard found hmem payload.shard).mp
      (List.find?_some (p := fun cluster => (shard cluster payload.shard).isSome) hfound)
    -- the cluster that is found is the one that has the shard
    obtain rfl := hunique j ⟨found, hj, hfoundHas⟩
    obtain ⟨hok, htrace⟩ := trace_route D gw hfound (gw (.basicAck tag) w).2
    rw [htrace]
    exact ⟨hok, .routed hdata hinside.1 hinside.2 hj hfoundHas
      fun k cluster' hk hk' => hunique k ⟨cluster', hk, hk'⟩⟩
  · have hnone : ∀ cluster ∈ clusters, shard cluster payload.shard = none := by
      refine fun cluster hcluster => Option.not_isSome_iff_eq_none.mp fun hsome => hinside ?_
      exact hP.inside cluster hcluster _ ((hshard cluster hcluster payload.shard).mp hsome)
    rw [route_foreign hnone]
    exact ⟨rfl, .foreign hdata hinside⟩

/-- **Every command reaches its cluster.** Over the clusters that `get_clusters` has returned,
`incoming` runs to its end, and answers the messages of its consumer one after the other. -/
theorem deliveries_routed (h : settings.Valid) {J : Json T U} {orders : Orders}
    {exec : Exec (interface T) S} {s : S} {info : ClusterInfo}
    (hclusters : (Fallible.run exec (getClusters J settings orders) s).1 = .ok (clusters, info))
    (shard : Cluster → UInt64 → Option H)
    (hshard : ∀ cluster ∈ clusters, ∀ id, (shard cluster id).isSome ↔ cluster.Has id)
    (D : DeliveryJson V) (consumer : List (Except GatewayError Delivery)) (gw : Exec gateway W)
    (w : W) :
    (Fallible.run gw (incoming D shard clusters consumer) w).1 = .ok () ∧
      ∃ answers, List.Forall₂ (Answered D settings clusters)
          (match (gw (.basicConsume QUEUE_SEND) w).1 with
            | .ok () => consumer
            | .error _ => []) answers ∧
        Fallible.trace gw (incoming D shard clusters consumer) w =
          .basicConsume QUEUE_SEND :: answers.flatten := by
  have hP : settings.Partitions clusters := by
    rw [h.getClusters_eq, Fallible.run_bind] at hclusters
    rcases hresumes : Fallible.run exec (getResumes J settings orders) s with ⟨_ | resumes, s'⟩
    · rw [hresumes] at hclusters
      cases hclusters
    · rw [hresumes] at hclusters
      obtain ⟨rfl, -⟩ := Prod.mk.inj (Except.ok.inj hclusters)
      exact h.partitions resumes
  have hconsume : Fallible.run gw (call (.basicConsume QUEUE_SEND)) w =
      (.ok (gw (.basicConsume QUEUE_SEND) w).1, (gw (.basicConsume QUEUE_SEND) w).2) := rfl
  unfold incoming
  rw [Fallible.run_bind_ok hconsume, Fallible.trace_bind_ok hconsume]
  rcases (gw (.basicConsume QUEUE_SEND) w).1 with err | ⟨⟩
  · exact ⟨rfl, [], .nil, rfl⟩
  · obtain ⟨hok, answers, hanswers, htrace⟩ := Fallible.trace_forM gw
      (f := receive D shard clusters) (l := consumer)
      (fun message _ w => receive_answered hP hshard message w) (gw (.basicConsume QUEUE_SEND) w).2
    refine ⟨hok, answers, hanswers, ?_⟩
    rw [htrace]
    rfl

/-- A failure of the consumer, a malformed delivery, and a command for the shard 3 of five shards in
two clusters. -/
theorem deliveries_routed_three :
    let settings : Settings := ⟨0, 4, 5, 2, false, .full, .of 9⟩
    let D : DeliveryJson Unit :=
      ⟨fun bytes => if bytes = [1] then .ok ⟨.send, 3, none⟩ else .error ⟨"delivery"⟩,
        fun _ => .ok [2], ()⟩
    let consumer : List (Except GatewayError Delivery) :=
      [.error ⟨"consumer"⟩, .ok ⟨1, []⟩, .ok ⟨2, [1]⟩]
    let gw : Exec gateway Unit
      | .basicConsume _, w | .basicAck _, w | .send _ _ _, w => (.ok (), w)
      | .shutdown _ _, w => ((), w)
    ∃ clusters answers, List.Forall₂ (Answered D settings clusters) consumer answers ∧
      Fallible.trace gw (incoming D
        (fun cluster id => if cluster.fromShard ≤ id ∧ id ≤ cluster.toShard then some () else none)
        clusters consumer) () = .basicConsume QUEUE_SEND :: answers.flatten := by
  intro settings D consumer gw
  have hvalid : settings.Valid := ⟨by decide, by decide, by decide⟩
  have hclusters : (Fallible.run exec (getClusters Json.plain settings .sorted) Store.empty).1 =
      .ok (settings.layout ∅, ⟨2, UInt64.ofNat settings.shards, 0⟩) := by
    rw [hvalid.getClusters_eq]
    rfl
  obtain ⟨-, answers, hanswers, htrace⟩ := deliveries_routed hvalid hclusters
    (fun cluster id => if cluster.fromShard ≤ id ∧ id ≤ cluster.toShard then some () else none)
    (fun cluster _ id => by simp [Cluster.Has]) D consumer gw ()
  exact ⟨settings.layout ∅, answers, hanswers, htrace⟩

end Routing

end TwilightDispatch
