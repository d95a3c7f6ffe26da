import Mathlib

/-!
# The identify queues

Before a shard identifies, it awaits a request to the queue of its cluster. A request puts the sender of
a one-shot channel into the channel of a bucket, where one `waiter` takes the senders out in turn, sends
to each and then sleeps. The sends, the drops of the receivers, the steps of the waiters and the clock
are interleaved in any order (`Queue.run`).

`LargeBotQueue` has a bucket for each remainder of the shard, `LocalQueue` a single one.
-/

namespace TwilightDispatch

/-! ## Buckets -/

/-- A call of `Queue::request`: the cluster and the shard it is for, and which of the shard's calls
it is. -/
structure Request where
  cluster : ℕ
  shardId : UInt64
  attempt : ℕ
  deriving DecidableEq

/-- Where a `waiter` stands: before it receives, before it sends to what it has received, before it
sleeps, or asleep until the clock shows a time. -/
inductive Waiter where
  | receiving
  | received (req : Request)
  | sent
  | sleeping (deadline : ℕ)

/-- A send of the waiter: it fails if the receiver has been dropped. -/
structure Release where
  request : Request
  time : ℕ
  granted : Bool

/-- A channel and its waiter. `entered` lists the requests whose senders have entered the channel,
`dropped` those whose receivers have been dropped. -/
structure Bucket where
  channel : List Request
  waiter : Waiter
  entered : List Request
  dropped : List Request
  released : List Release

/-- An empty channel and a waiter that has just been spawned. -/
def Bucket.new : Bucket := ⟨[], .receiving, [], [], []⟩

/-- The sender of a request enters the channel. The waiter never ends while the queue is there, so the
send does not fail. -/
def Bucket.send (req : Request) (b : Bucket) : Option Bucket :=
  if req ∈ b.entered ∨ req ∈ b.dropped then none
  else some { b with channel := b.channel ++ [req], entered := b.entered ++ [req] }

/-- The receiver of a request is dropped. -/
def Bucket.drop (req : Request) (b : Bucket) : Bucket := { b with dropped := req :: b.dropped }

/-- The next step of the waiter. -/
def Bucket.advance (duration now : ℕ) (b : Bucket) : Option Bucket :=
  match b.waiter with
  | .receiving => match b.channel with
    | req :: channel => some { b with channel := channel, waiter := .received req }
    | [] => none
  | .received req =>
    let release : Release := ⟨req, now, decide (req ∉ b.dropped)⟩
    some { b with waiter := .sent, released := b.released ++ [release] }
  | .sent => some { b with waiter := .sleeping (now + duration) }
  | .sleeping deadline => if deadline ≤ now then some { b with waiter := .receiving } else none

/-! ## Queues -/

/-- A queue: its buckets, and whether it is a `LocalQueue`, with a single bucket, or a
`LargeBotQueue`. -/
structure Queue where
  isLocal : Bool
  buckets : List Bucket

def LocalQueue.new : Queue := ⟨true, [.new]⟩

def LargeBotQueue.new (buckets : ℕ) : Queue := ⟨false, List.replicate buckets .new⟩

/-- The queue that `get_clusters` chooses. -/
def Queue.choose (shardsConcurrency : ℕ) : Queue :=
  if shardsConcurrency = 1 then LocalQueue.new else LargeBotQueue.new shardsConcurrency

/-- The bucket that a request for a shard enters. -/
def Queue.bucket (q : Queue) (shardId : UInt64) : ℕ :=
  if q.isLocal then 0 else shardId.toNat % q.buckets.length

namespace Queue

/-- Replace a bucket. -/
def update (i : ℕ) (f : Bucket → Option Bucket) (q : Queue) : Option Queue := do
  let b ← q.buckets[i]?
  let b' ← f b
  return { q with buckets := q.buckets.set i b' }

/-- A step of the system: time passes, the future of a request is polled for the first time or dropped,
or a waiter goes on. -/
inductive Action where
  | tick (elapsed : ℕ)
  | send (req : Request)
  | drop (req : Request)
  | waiter (bucket : ℕ)

/-- The queue and the clock. -/
@[ext] structure State where
  now : ℕ
  queue : Queue

def step (duration : ℕ) (a : Action) (s : State) : Option State :=
  match a with
  | .tick elapsed => some { s with now := s.now + elapsed }
  | .send req => do
    return { s with queue := ← s.queue.update (s.queue.bucket req.shardId) (Bucket.send req) }
  | .drop req => do
    return { s with
      queue := ← s.queue.update (s.queue.bucket req.shardId) fun b => some (b.drop req) }
  | .waiter i => do
    return { s with queue := ← s.queue.update i (Bucket.advance duration s.now) }

/-- The state after actions, if each can take place. -/
def run (duration : ℕ) : List Action → State → Option State
  | [], s => some s
  | a :: actions, s => do run duration actions (← step duration a s)

variable {duration now : ℕ} {i : ℕ} {q q' : Queue} {s s' : State} {a : Action}
  {actions : List Action}

theorem run_cons {actions : List Action} : run duration (a :: actions) s = some s' ↔
    ∃ s₁, step duration a s = some s₁ ∧ run duration actions s₁ = some s' :=
  Option.bind_eq_some_iff

theorem update_eq_some {f : Bucket → Option Bucket} : q.update i f = some q' ↔
    ∃ b b', q.buckets[i]? = some b ∧ f b = some b' ∧
      q' = { q with buckets := q.buckets.set i b' } := by
  unfold update
  refine Option.bind_eq_some_iff.trans (exists_congr fun b => ?_)
  rw [exists_and_left]
  refine and_congr_right fun _ => Option.bind_eq_some_iff.trans (exists_congr fun b' => ?_)
  exact and_congr_right fun _ => Option.some_inj.trans eq_comm

/-! ## What a waiter keeps -/

end Queue

theorem Bucket.send_eq_some {req : Request} {b b' : Bucket} : b.send req = some b' ↔
    (req ∉ b.entered ∧ req ∉ b.dropped) ∧
      b' = { b with channel := b.channel ++ [req], entered := b.entered ++ [req] } := by
  unfold send
  split_ifs with h
  · simp only [false_iff, not_and]
    exact fun hnew => absurd h (not_or.mpr hnew)
  · rw [Option.some_inj, and_iff_right (not_or.mp h), eq_comm]

theorem Bucket.advance_keeps {duration now : ℕ} {b b' : Bucket}
    (h : b.advance duration now = some b') : b'.entered = b.entered ∧ b'.dropped = b.dropped := by
  unfold advance at h
  grind

/-- The requests that a waiter has received and not yet sent to. -/
def Waiter.holding : Waiter → List Request
  | received req => [req]
  | _ => []

/-- The time before which the waiter receives no more. -/
def Waiter.Waits (duration now time : ℕ) : Waiter → Prop
  | receiving | received _ => time + duration ≤ now
  | sent => time ≤ now
  | sleeping deadline => time + duration ≤ deadline

theorem Waiter.Waits.tick {duration now time : ℕ} {w : Waiter} (h : w.Waits duration now time)
    (elapsed : ℕ) : w.Waits duration (now + elapsed) time := by
  cases w with
  | sleeping deadline => exact h
  | _ => exact Nat.le_add_right_of_le h

/-- What the waiter of a bucket keeps: senders are taken in the order in which they entered, each is
entered once, the sends are apart, and one fails only if its receiver has been dropped. -/
structure Bucket.Paced (duration now : ℕ) (b : Bucket) : Prop where
  fifo : b.entered = b.released.map Release.request ++ b.waiter.holding ++ b.channel
  nodup : b.entered.Nodup
  spaced : b.released.Pairwise fun r r' => r.time + duration ≤ r'.time
  waits : ∀ r ∈ b.released, b.waiter.Waits duration now r.time
  granted : ∀ r ∈ b.released, r.granted = false → r.request ∈ b.dropped

namespace Bucket.Paced

variable {duration now : ℕ} {b b' : Bucket}

theorem new : Bucket.new.Paced duration now :=
  ⟨rfl, .nil, .nil, nofun, nofun⟩

theorem tick (h : b.Paced duration now) (elapsed : ℕ) : b.Paced duration (now + elapsed) where
  fifo := h.fifo
  nodup := h.nodup
  spaced := h.spaced
  waits r hr := (h.waits r hr).tick elapsed
  granted := h.granted

theorem send (h : b.Paced duration now) {req : Request} (hb : b.send req = some b') :
    b'.Paced duration now := by
  obtain ⟨⟨hfresh, -⟩, rfl⟩ := Bucket.send_eq_some.mp hb
  refine ⟨?_, ?_, h.spaced, h.waits, h.granted⟩
  · show b.entered ++ [req] = _
    rw [h.fifo, List.append_assoc]
  · exact List.nodup_append.mpr ⟨h.nodup, List.nodup_singleton req, by
      rintro x hx y hy rfl
      exact hfresh (List.mem_singleton.mp hy ▸ hx)⟩

theorem drop (h : b.Paced duration now) (req : Request) : (b.drop req).Paced duration now :=
  ⟨h.fifo, h.nodup, h.spaced, h.waits, fun r hr hg => List.mem_cons_of_mem _ (h.granted r hr hg)⟩

theorem advance (h : b.Paced duration now) (hb : b.advance duration now = some b') :
    b'.Paced duration now := by
  obtain ⟨hfifo, hnodup, hspaced, hwaits, hgranted⟩ := h
  unfold Bucket.advance at hb
  rcases b with ⟨channel, waiter, entered, dropped, released⟩
  cases waiter with
  | receiving =>
    cases channel with
    | nil => cases hb
    | cons req channel =>
      obtain rfl := Option.some.inj hb
      exact ⟨by simpa [Waiter.holding] using hfifo, hnodup, hspaced, hwaits, hgranted⟩
  | received req =>
    obtain rfl := Option.some.inj hb
    refine ⟨by simpa [Waiter.holding] using hfifo, hnodup, ?_, fun r hr => ?_, fun r hr hg => ?_⟩
    · -- before it received, the waiter had slept after every earlier send
      refine List.pairwise_append.mpr ⟨hspaced, List.pairwise_singleton _ _, fun r hr r' hr' => ?_⟩
      rw [List.mem_singleton.mp hr']
      exact hwaits r hr
    · rcases List.mem_append.mp hr with hr | hr
      · exact (Nat.le_add_right _ _).trans (hwaits r hr)
      · rw [List.mem_singleton.mp hr]
        exact le_refl now
    · rcases List.mem_append.mp hr with hr | hr
      · exact hgranted r hr hg
      · rw [List.mem_singleton.mp hr] at hg ⊢
        simpa using hg
  | sent =>
    obtain rfl := Option.some.inj hb
    exact ⟨hfifo, hnodup, hspaced, fun r hr => Nat.add_le_add_right (hwaits r hr) duration, hgranted⟩
  | sleeping deadline =>
    simp only at hb
    split_ifs at hb with hle
    obtain rfl := Option.some.inj hb
    exact ⟨hfifo, hnodup, hspaced, fun r hr => (hwaits r hr).trans hle, hgranted⟩

/-- The requests that have been sent to are the first that entered. -/
theorem isPrefix (h : b.Paced duration now) : b.released.map Release.request <+: b.entered :=
  ⟨b.waiter.holding ++ b.channel, by rw [h.fifo, List.append_assoc]⟩

end Bucket.Paced

namespace Queue

variable {c duration now i : ℕ} {q q' : Queue} {s s' t : State} {a : Action}
  {actions : List Action} {b b' : Bucket}

/-! ## Steps -/

/-- The bucket an action is about. -/
def Action.target (q : Queue) : Action → Option ℕ
  | tick _ => none
  | send req | drop req => some (q.bucket req.shardId)
  | waiter i => some i

/-- What an action does to its bucket. -/
def Action.effect (duration now : ℕ) : Action → Bucket → Option Bucket
  | tick _ => some
  | send req => Bucket.send req
  | drop req => fun b => some (b.drop req)
  | waiter _ => Bucket.advance duration now

/-- The clock after an action. -/
def Action.clock (now : ℕ) : Action → ℕ
  | tick elapsed => now + elapsed
  | _ => now

theorem step_eq_some : step duration a s = some s' ↔
    s'.now = a.clock s.now ∧ ((a.target s.queue = none ∧ s'.queue = s.queue) ∨
      ∃ i, a.target s.queue = some i ∧
        s.queue.update i (a.effect duration s.now) = some s'.queue) := by
  have hupdate {i : ℕ} {f : Bucket → Option Bucket} :
      (do return { s with queue := ← s.queue.update i f } : Option State) = some s' ↔
        s'.now = s.now ∧ s.queue.update i f = some s'.queue := by
    refine Option.bind_eq_some_iff.trans ?_
    constructor
    · rintro ⟨q, hq, h⟩
      obtain rfl := Option.some.inj h
      exact ⟨rfl, hq⟩
    · rintro ⟨hnow, hq⟩
      exact ⟨s'.queue, hq, congrArg some (State.ext hnow.symm rfl)⟩
  cases a with
  | tick elapsed =>
    unfold step Action.clock Action.target
    rw [Option.some_inj]
    constructor
    · rintro rfl
      exact ⟨rfl, .inl ⟨rfl, rfl⟩⟩
    · rintro ⟨hnow, ⟨-, hq⟩ | ⟨i, hi, -⟩⟩
      · exact State.ext hnow.symm hq.symm
      · cases hi
  | send req => exact hupdate.trans (by simp [Action.clock, Action.target, Action.effect])
  | drop req => exact hupdate.trans (by simp [Action.clock, Action.target, Action.effect])
  | waiter i => exact hupdate.trans (by simp [Action.clock, Action.target, Action.effect])

/-- A request for a shard enters the bucket of its remainder. -/
def Routes (c : ℕ) (q : Queue) : Prop := ∀ shardId, q.bucket shardId = shardId.toNat % c

theorem routes_largeBotQueue (c : ℕ) : (LargeBotQueue.new c).Routes c :=
  fun shardId => congrArg (shardId.toNat % ·) List.length_replicate

theorem routes_choose (c : ℕ) : (choose c).Routes c := by
  intro shardId
  unfold choose
  split_ifs with hc
  · subst hc
    exact (Nat.mod_one _).symm
  · exact routes_largeBotQueue c shardId

theorem buckets_choose (hi : i < c) : (choose c).buckets[i]? = some .new := by
  unfold choose
  split_ifs with hc
  · subst hc
    obtain rfl : i = 0 := by omega
    rfl
  · simp [LargeBotQueue.new, hi]

theorem Routes.update {f : Bucket → Option Bucket} (h : q.Routes c) (hq : q.update i f = some q') :
    q'.Routes c := by
  obtain ⟨b, b', -, -, rfl⟩ := update_eq_some.mp hq
  intro shardId
  rw [← h shardId]
  simp [bucket]

theorem Routes.step (h : s.queue.Routes c) (hstep : step duration a s = some s') :
    s'.queue.Routes c := by
  obtain ⟨-, ⟨-, hq⟩ | ⟨i, -, hq⟩⟩ := step_eq_some.mp hstep
  · rwa [hq]
  · exact h.update hq

/-- The action is about the bucket, or about the clock. -/
def Action.concerns (c i : ℕ) : Action → Bool
  | tick _ => true
  | send req | drop req => req.shardId.toNat % c = i
  | waiter j => j = i

theorem Action.concerns_iff (h : q.Routes c) :
    a.concerns c i = true ↔ a.target q = none ∨ a.target q = some i := by
  cases a <;> simp [concerns, target, h _]

/-- The requests whose senders enter a bucket, in order. -/
def arrivals (c i : ℕ) (actions : List Action) : List Request :=
  actions.flatMap fun a => match a with
    | .send req => if req.shardId.toNat % c = i then [req] else []
    | _ => []

theorem step_length (hstep : step duration a s = some s') :
    s'.queue.buckets.length = s.queue.buckets.length := by
  obtain ⟨-, ⟨-, hq⟩ | ⟨i, -, hq⟩⟩ := step_eq_some.mp hstep
  · rw [hq]
  · obtain ⟨b, b', -, -, hq⟩ := update_eq_some.mp hq
    rw [hq, List.length_set]

theorem run_length (hrun : run duration actions s = some s') :
    s'.queue.buckets.length = s.queue.buckets.length := by
  induction actions generalizing s with
  | nil =>
    obtain rfl := Option.some.inj hrun
    rfl
  | cons a actions ih =>
    obtain ⟨s₁, hstep, hrest⟩ := run_cons.mp hrun
    exact (ih hrest).trans (step_length hstep)

/-! ## What holds of a bucket -/

theorem Action.effect_paced (h : b.Paced duration now) (hb : a.effect duration now b = some b') :
    b'.Paced duration now := by
  cases a with
  | tick elapsed => exact Option.some.inj hb ▸ h
  | send req => exact h.send hb
  | drop req => exact Option.some.inj hb ▸ h.drop req
  | waiter i => exact h.advance hb

theorem Action.effect_entered (h : q.Routes c) (ha : a.target q = some i)
    (hb : a.effect duration now b = some b') : b'.entered = b.entered ++ arrivals c i [a] := by
  cases a with
  | tick elapsed => cases ha
  | send req =>
    have hi : req.shardId.toNat % c = i := (h _).symm.trans (Option.some.inj ha)
    obtain ⟨-, rfl⟩ := Bucket.send_eq_some.mp hb
    simp [arrivals, hi]
  | drop req =>
    obtain rfl := Option.some.inj hb
    exact (List.append_nil _).symm
  | waiter j =>
    exact (Bucket.advance_keeps hb).1.trans (List.append_nil _).symm

theorem Action.effect_dropped (hb : a.effect duration now b = some b') {req : Request}
    (hreq : req ∈ b'.dropped) : req ∈ b.dropped ∨ a = .drop req := by
  cases a with
  | drop req' =>
    obtain rfl := Option.some.inj hb
    exact (List.mem_cons.mp hreq).symm.imp_right (congrArg Action.drop ·.symm)
  | tick elapsed =>
    obtain rfl := Option.some.inj hb
    exact .inl hreq
  | send req' =>
    obtain ⟨-, rfl⟩ := Bucket.send_eq_some.mp hb
    exact .inl hreq
  | waiter j => exact .inl ((Bucket.advance_keeps hb).2 ▸ hreq)

theorem Action.clock_eq (ha : a.target q = some i) : a.clock now = now := by
  cases a <;> first | rfl | cases ha

theorem arrivals_eq_nil (h : q.Routes c) (ha : a.target q ≠ some i) : arrivals c i [a] = [] := by
  cases a with
  | send req =>
    have hi : req.shardId.toNat % c ≠ i := fun hi => ha (congrArg some ((h _).trans hi))
    simp [arrivals, hi]
  | _ => rfl

theorem arrivals_cons (a : Action) (actions : List Action) :
    arrivals c i (a :: actions) = arrivals c i [a] ++ arrivals c i actions := by
  simp [arrivals]

/-- How a bucket comes from an earlier one, in a run with the actions. -/
structure Follows (duration c i : ℕ) (actions : List Action) (now : ℕ) (b : Bucket) (now' : ℕ)
    (b' : Bucket) : Prop where
  paced : b.Paced duration now → b'.Paced duration now'
  entered : b'.entered = b.entered ++ arrivals c i actions
  dropped : ∀ req ∈ b'.dropped, req ∈ b.dropped ∨ .drop req ∈ actions

theorem step_follows (h : s.queue.Routes c) (hstep : step duration a s = some s')
    (hb' : s'.queue.buckets[i]? = some b') :
    ∃ b, s.queue.buckets[i]? = some b ∧ Follows duration c i [a] s.now b s'.now b' := by
  obtain ⟨hnow, ⟨ha, hq⟩ | ⟨j, ha, hq⟩⟩ := step_eq_some.mp hstep
  · rw [hq] at hb'
    have htick : ∃ elapsed, a = .tick elapsed := by
      cases a <;> first | exact ⟨_, rfl⟩ | cases ha
    obtain ⟨elapsed, rfl⟩ := htick
    rw [hnow]
    exact ⟨b', hb', (·.tick elapsed), (List.append_nil _).symm, fun _ hreq => .inl hreq⟩
  · obtain ⟨b, b₁, hb, heffect, hq⟩ := update_eq_some.mp hq
    rw [hnow, Action.clock_eq ha]
    rw [hq] at hb'
    by_cases hij : j = i
    · subst hij
      rw [List.getElem?_set_self (List.getElem?_eq_some_iff.mp hb).1] at hb'
      obtain rfl := Option.some.inj hb'
      exact ⟨b, hb, fun h => Action.effect_paced h heffect, Action.effect_entered h ha heffect,
        fun req hreq => (Action.effect_dropped heffect hreq).imp_right fun ha =>
          List.mem_singleton.mpr ha.symm⟩
    · rw [List.getElem?_set_ne hij] at hb'
      have hnone : a.target s.queue ≠ some i := fun hi => hij (Option.some.inj (ha.symm.trans hi))
      refine ⟨b', hb', id, ?_, fun _ hreq => .inl hreq⟩
      rw [arrivals_eq_nil h hnone, List.append_nil]

theorem run_follows (h : s.queue.Routes c) (hrun : run duration actions s = some s')
    (hb' : s'.queue.buckets[i]? = some b') :
    ∃ b, s.queue.buckets[i]? = some b ∧ Follows duration c i actions s.now b s'.now b' := by
  induction actions generalizing s with
  | nil =>
    obtain rfl := Option.some.inj hrun
    exact ⟨b', hb', id, (List.append_nil _).symm, fun _ hreq => .inl hreq⟩
  | cons a actions ih =>
    obtain ⟨s₁, hstep, hrest⟩ := run_cons.mp hrun
    obtain ⟨b₁, hb₁, h₁⟩ := ih (h.step hstep) hrest
    obtain ⟨b, hb, h₀⟩ := step_follows h hstep hb₁
    refine ⟨b, hb, fun hpaced => h₁.paced (h₀.paced hpaced), ?_, fun req hreq => ?_⟩
    · rw [h₁.entered, h₀.entered, List.append_assoc, ← arrivals_cons]
    · rcases h₁.dropped req hreq with hreq | hreq
      · exact (h₀.dropped req hreq).imp_right fun ha => List.mem_cons.mpr (.inl (List.mem_singleton.mp ha))
      · exact .inr (List.mem_cons_of_mem _ hreq)

/-! ## Buckets do not depend on each other -/

/-- The clock and a bucket are the same. -/
structure Agree (i : ℕ) (s t : State) : Prop where
  now : s.now = t.now
  bucket : s.queue.buckets[i]? = t.queue.buckets[i]?

/-- An action that is not about a bucket leaves it and the clock alone. -/
theorem step_other (h : s.queue.Routes c) (ha : a.concerns c i = false)
    (hstep : step duration a s = some s') : Agree i s s' := by
  have hnot := (Action.concerns_iff h (a := a)).not.mp (ne_true_of_eq_false ha)
  obtain ⟨hnow, ⟨ha, -⟩ | ⟨j, ha, hq⟩⟩ := step_eq_some.mp hstep
  · exact absurd (.inl ha) hnot
  · obtain ⟨b, b', -, -, hq⟩ := update_eq_some.mp hq
    have hij : j ≠ i := fun hij => hnot (.inr (ha.trans (congrArg some hij)))
    rw [Action.clock_eq ha] at hnow
    exact ⟨hnow.symm, by rw [hq, List.getElem?_set_ne hij]⟩

/-- An action that is about a bucket does the same wherever the clock and the bucket are the same. -/
theorem step_own (h : s.queue.Routes c) (ht : t.queue.Routes c) (ha : a.concerns c i = true)
    (hagree : Agree i s t) (hstep : step duration a s = some s') :
    ∃ t', step duration a t = some t' ∧ Agree i s' t' := by
  have htarget : a.target t.queue = a.target s.queue := by
    cases a <;> simp [Action.target, h _, ht _]
  obtain ⟨hnow, ⟨hnone, hq⟩ | ⟨j, hj, hq⟩⟩ := step_eq_some.mp hstep
  · refine ⟨⟨a.clock t.now, t.queue⟩, step_eq_some.mpr ⟨rfl, .inl ⟨htarget.trans hnone, rfl⟩⟩, ?_⟩
    exact ⟨hnow.trans (congrArg a.clock hagree.now), by rw [hq, hagree.bucket]⟩
  · obtain rfl : j = i := by
      have hi := (Action.concerns_iff h).mp ha
      rw [hj] at hi
      exact Option.some.inj (hi.resolve_left nofun)
    obtain ⟨b, b', hb, heffect, hq⟩ := update_eq_some.mp hq
    have hbt : t.queue.buckets[j]? = some b := hagree.bucket ▸ hb
    refine ⟨⟨a.clock t.now, { t.queue with buckets := t.queue.buckets.set j b' }⟩,
      step_eq_some.mpr ⟨rfl, .inr ⟨j, htarget.trans hj, update_eq_some.mpr
        ⟨b, b', hbt, hagree.now ▸ heffect, rfl⟩⟩⟩, hnow.trans (congrArg a.clock hagree.now), ?_⟩
    rw [hq, List.getElem?_set_self (List.getElem?_eq_some_iff.mp hb).1,
      List.getElem?_set_self (List.getElem?_eq_some_iff.mp hbt).1]

/-- A bucket ends as it does in the run with only the actions that are about it. -/
theorem run_own (h : s.queue.Routes c) (ht : t.queue.Routes c) (hagree : Agree i s t)
    (hrun : run duration actions s = some s') :
    ∃ t', run duration (actions.filter (·.concerns c i)) t = some t' ∧ Agree i s' t' := by
  induction actions generalizing s t with
  | nil =>
    obtain rfl := Option.some.inj hrun
    exact ⟨t, rfl, hagree⟩
  | cons a actions ih =>
    obtain ⟨s₁, hstep, hrest⟩ := run_cons.mp hrun
    cases ha : a.concerns c i with
    | false =>
      rw [List.filter_cons_of_neg (by simp [ha])]
      have hother := step_other h ha hstep
      exact ih (h.step hstep) ht
        ⟨hother.now.symm.trans hagree.now, hother.bucket.symm.trans hagree.bucket⟩ hrest
    | true =>
      rw [List.filter_cons_of_pos ha]
      obtain ⟨t₁, hstep', hagree₁⟩ := step_own h ht ha hagree hstep
      obtain ⟨t', hrun', hagree'⟩ := ih (h.step hstep) (ht.step hstep') hagree₁ hrest
      exact ⟨t', run_cons.mpr ⟨t₁, hstep', hrun'⟩, hagree'⟩

/-! ## Queues with one bucket -/

/-- What there is of a state apart from the kind of the queue. -/
def State.view (s : State) : ℕ × List Bucket := (s.now, s.queue.buckets)

theorem step_view (h : s.queue.Routes c) (ht : t.queue.Routes c) (hview : s.view = t.view)
    (hstep : step duration a s = some s') :
    ∃ t', step duration a t = some t' ∧ s'.view = t'.view := by
  obtain ⟨hclock, hbuckets⟩ := Prod.mk.inj hview
  have htarget : a.target t.queue = a.target s.queue := by
    cases a <;> simp [Action.target, h _, ht _]
  obtain ⟨hnow, ⟨hnone, hq⟩ | ⟨j, hj, hq⟩⟩ := step_eq_some.mp hstep
  · refine ⟨⟨a.clock t.now, t.queue⟩, step_eq_some.mpr ⟨rfl, .inl ⟨htarget.trans hnone, rfl⟩⟩, ?_⟩
    exact Prod.ext (hnow.trans (congrArg a.clock hclock)) ((congrArg buckets hq).trans hbuckets)
  · obtain ⟨b, b', hb, heffect, hq⟩ := update_eq_some.mp hq
    refine ⟨⟨a.clock t.now, { t.queue with buckets := t.queue.buckets.set j b' }⟩,
      step_eq_some.mpr ⟨rfl, .inr ⟨j, htarget.trans hj, update_eq_some.mpr
        ⟨b, b', hbuckets ▸ hb, hclock ▸ heffect, rfl⟩⟩⟩, ?_⟩
    refine Prod.ext (hnow.trans (congrArg a.clock hclock)) ?_
    show s'.queue.buckets = t.queue.buckets.set j b'
    rw [hq, ← hbuckets]

theorem run_view (h : s.queue.Routes c) (ht : t.queue.Routes c) (hview : s.view = t.view)
    (hrun : run duration actions s = some s') :
    ∃ t', run duration actions t = some t' ∧ s'.view = t'.view := by
  induction actions generalizing s t with
  | nil =>
    obtain rfl := Option.some.inj hrun
    exact ⟨t, rfl, hview⟩
  | cons a actions ih =>
    obtain ⟨s₁, hstep, hrest⟩ := run_cons.mp hrun
    obtain ⟨t₁, hstep', hview₁⟩ := step_view h ht hview hstep
    obtain ⟨t', hrun', hview'⟩ := ih (h.step hstep) (ht.step hstep') hview₁ hrest
    exact ⟨t', run_cons.mpr ⟨t₁, hstep', hrun'⟩, hview'⟩

/-- Queues that route alike and look alike behave alike. -/
theorem run_congr (h : s.queue.Routes c) (ht : t.queue.Routes c) (hview : s.view = t.view)
    (duration : ℕ) (actions : List Action) :
    (run duration actions s).map State.view = (run duration actions t).map State.view := by
  refine Option.ext fun v => ?_
  rw [Option.map_eq_some_iff, Option.map_eq_some_iff]
  constructor
  · rintro ⟨s', hrun, rfl⟩
    obtain ⟨t', hrun', hview'⟩ := run_view h ht hview hrun
    exact ⟨t', hrun', hview'.symm⟩
  · rintro ⟨t', hrun, rfl⟩
    obtain ⟨s', hrun', hview'⟩ := run_view ht h hview.symm hrun
    exact ⟨s', hrun', hview'.symm⟩

/-- **Identify rate limiting.** In every run of the queue that is chosen, the waiter of a bucket sends to
the requests of the bucket in the order in which their senders entered, to each at most once, the sends
at least the duration apart, and a send fails only if the request has been dropped. The bucket ends as
in the run with only its own requests. A `LocalQueue` behaves as a `LargeBotQueue` with one bucket. -/
theorem identify_rate_limited {c duration : ℕ} {actions : List Action} {start : ℕ} {s : State}
    (hrun : run duration actions ⟨start, choose c⟩ = some s) :
    (∀ i < c, ∃ b, s.queue.buckets[i]? = some b ∧
      b.released.map Release.request <+: arrivals c i actions ∧
      (b.released.map Release.request).Nodup ∧
      (b.released.Pairwise fun r r' => r.time + duration ≤ r'.time) ∧
      (∀ r ∈ b.released, r.granted = true ∨ .drop r.request ∈ actions) ∧
      ∃ s', run duration (actions.filter (·.concerns c i)) ⟨start, choose c⟩ = some s' ∧
        s'.queue.buckets[i]? = some b ∧ s'.now = s.now) ∧
    (run duration actions ⟨start, LocalQueue.new⟩).map State.view =
      (run duration actions ⟨start, LargeBotQueue.new 1⟩).map State.view := by
  have hroutes : (choose c).Routes c := routes_choose c
  have hlocal : LocalQueue.new.Routes 1 := routes_choose 1
  have halike : State.view ⟨start, LocalQueue.new⟩ = State.view ⟨start, LargeBotQueue.new 1⟩ := rfl
  refine ⟨fun i hi => ?_, run_congr hlocal (routes_largeBotQueue 1) halike duration actions⟩
  obtain ⟨s', hrun', hagree⟩ := run_own (i := i) hroutes hroutes ⟨rfl, rfl⟩ hrun
  have hlt : i < s.queue.buckets.length := by
    rw [run_length hrun]
    exact (List.getElem?_eq_some_iff.mp (buckets_choose hi)).1
  have hb := List.getElem?_eq_getElem hlt
  obtain ⟨b, hb₀, hfollows⟩ := run_follows hroutes hrun hb
  obtain rfl := Option.some.inj ((buckets_choose hi).symm.trans hb₀)
  have hpaced := hfollows.paced .new
  have hprefix := hpaced.isPrefix
  have hentered : (s.queue.buckets[i]).entered = arrivals c i actions := hfollows.entered
  refine ⟨_, hb, hentered ▸ hprefix, hprefix.sublist.nodup hpaced.nodup, hpaced.spaced,
    fun r hr => ?_, s', hrun', hagree.bucket ▸ hb, hagree.now.symm⟩
  cases hg : r.granted with
  | true => exact .inl rfl
  | false => exact .inr ((hfollows.dropped _ (hpaced.granted r hr hg)).resolve_left nofun)

/-- Four requests: three of them are for the first bucket, and the second of these is dropped. -/
def fourRequests : List Action :=
  [.send ⟨0, 0, 0⟩, .send ⟨0, 2, 0⟩, .send ⟨1, 1, 0⟩, .send ⟨0, 4, 0⟩, .drop ⟨0, 2, 0⟩] ++
    [.waiter 0, .waiter 0, .waiter 0, .waiter 1, .waiter 1, .tick 5] ++
    [.waiter 0, .waiter 0, .waiter 0, .waiter 0, .tick 7, .waiter 0, .waiter 0, .waiter 0]

/-- In the first bucket the second send fails, and the third still comes a sleep later. -/
theorem identify_rate_limited_four : ∃ s b, run 5 fourRequests ⟨0, choose 2⟩ = some s ∧
    s.queue.buckets[0]? = some b ∧ b.released.map Release.granted = [true, false, true] ∧
    b.released.map Release.request <+: arrivals 2 0 fourRequests ∧
    b.released.Pairwise fun r r' => r.time + 5 ≤ r'.time := by
  have h : (run 5 fourRequests ⟨0, choose 2⟩).any (fun s => (s.queue.buckets[0]?).any fun b =>
      decide (b.released.map Release.granted = [true, false, true])) = true := by decide +kernel
  obtain ⟨s, hrun, h⟩ := (Option.any_eq_true _ _).mp h
  obtain ⟨b, hb, hgranted⟩ := (Option.any_eq_true _ _).mp h
  obtain ⟨b', hb', hprefix, -, hspaced, -⟩ := (identify_rate_limited hrun).1 0 (by decide)
  obtain rfl := Option.some.inj (hb.symm.trans hb')
  exact ⟨s, b, hrun, hb, of_decide_eq_true hgranted, hprefix, hspaced⟩

end Queue

end TwilightDispatch
