import TwilightDispatch.Pace
import TwilightDispatch.Queue

/-!
# Requests are answered in time

A waiter sends to what has entered its bucket no sooner than the pace allows, in any run. If it always
goes on within a latency of when it could, each request is answered by a slower pace, four latencies
longer, plus twice the latency: a waiter is late at most when it wakes, receives, sends and goes to
sleep. Without latency the two agree.
-/

namespace TwilightDispatch

open Pace

namespace Queue

variable {c duration latency now wake wake' i : ℕ} {q : Queue} {s s' : State} {a : Action}
  {actions : List Action} {b b' : Bucket} {requests : List (Request × ℕ)}

/-! ## Arrivals -/

/-- What an action adds to the requests of its bucket. -/
def Action.adds (c i now : ℕ) (a : Action) : List (Request × ℕ) := (arrivals c i [a]).map (·, now)

/-- The requests whose senders enter a bucket, and when. -/
def timedArrivals (c i : ℕ) : ℕ → List Action → List (Request × ℕ)
  | _, [] => []
  | now, a :: actions => a.adds c i now ++ timedArrivals c i (a.clock now) actions

/-- When the `k`th of the requests has entered. -/
def arrivalTime (requests : List (Request × ℕ)) (k : ℕ) : ℕ :=
  (requests[k]?).elim 0 Prod.snd

theorem arrivalTime_append_of_lt {k : ℕ} (h : k < requests.length) (more : List (Request × ℕ)) :
    arrivalTime (requests ++ more) k = arrivalTime requests k := by
  unfold arrivalTime
  rw [List.getElem?_append_left h]

theorem arrivalTime_le_append (requests more : List (Request × ℕ)) (k : ℕ) :
    arrivalTime requests k ≤ arrivalTime (requests ++ more) k := by
  rcases Nat.lt_or_ge k requests.length with h | h
  · rw [arrivalTime_append_of_lt h]
  · unfold arrivalTime
    rw [List.getElem?_eq_none h]
    exact Nat.zero_le _

theorem arrivalTime_length (req : Request) :
    arrivalTime (requests ++ [(req, now)]) requests.length = now := by
  unfold arrivalTime
  rw [List.getElem?_concat_length]
  rfl

/-! ## Before the pace -/

/-- What has entered a bucket has done so by now, and before it is sent to. -/
structure Arrived (now : ℕ) (requests : List (Request × ℕ)) (b : Bucket) : Prop where
  entered : requests.map Prod.fst = b.entered
  byNow : ∀ x ∈ requests, x.2 ≤ now
  before : ∀ (k : ℕ) (r : Release), b.released[k]? = some r →
    ∃ time, requests[k]? = some (r.request, time) ∧ time ≤ r.time

theorem Action.adds_eq_nil (h : q.Routes c) (ha : a.target q ≠ some i) : a.adds c i now = [] := by
  rw [adds, arrivals_eq_nil h ha]
  rfl

theorem Action.adds_send {req : Request} (h : q.Routes c) (ha : (send req).target q = some i) :
    (send req).adds c i now = [(req, now)] := by
  have hi : req.shardId.toNat % c = i := (h _).symm.trans (Option.some.inj ha)
  simp [adds, arrivals, hi]

/-- What a step does to a bucket. -/
theorem step_bucket (hstep : step duration a s = some s') (hb : s.queue.buckets[i]? = some b) :
    s'.now = a.clock s.now ∧ ∃ b', s'.queue.buckets[i]? = some b' ∧
      ((a.target s.queue = some i ∧ a.effect duration s.now b = some b') ∨
        (a.target s.queue ≠ some i ∧ b' = b)) := by
  obtain ⟨hnow, ⟨ha, hq⟩ | ⟨j, ha, hq⟩⟩ := step_eq_some.mp hstep
  · exact ⟨hnow, b, hq ▸ hb, .inr ⟨ha ▸ nofun, rfl⟩⟩
  · refine ⟨hnow, ?_⟩
    obtain ⟨b₀, b', hb₀, heffect, hq⟩ := update_eq_some.mp hq
    rw [hq]
    by_cases hij : j = i
    · subst hij
      obtain rfl := Option.some.inj (hb₀.symm.trans hb)
      exact ⟨b', List.getElem?_set_self (List.getElem?_eq_some_iff.mp hb).1, .inl ⟨ha, heffect⟩⟩
    · refine ⟨b, (List.getElem?_set_ne hij).trans hb, .inr ⟨fun hi => hij ?_, rfl⟩⟩
      exact Option.some.inj (ha.symm.trans hi)

theorem Action.le_clock (a : Action) : now ≤ a.clock now := by
  cases a with
  | tick elapsed => exact Nat.le_add_right now elapsed
  | _ => exact le_refl now

namespace Arrived

theorem new : Arrived now [] .new := ⟨rfl, nofun, fun _ _ => nofun⟩

theorem later (h : Arrived now requests b) {now' : ℕ} (hnow : now ≤ now') :
    Arrived now' requests b := ⟨h.entered, fun x hx => (h.byNow x hx).trans hnow, h.before⟩

theorem send (h : Arrived now requests b) {req : Request} (hb : b.send req = some b') :
    Arrived now (requests ++ [(req, now)]) b' := by
  obtain ⟨-, rfl⟩ := Bucket.send_eq_some.mp hb
  refine ⟨?_, fun x hx => ?_, fun k r hr => ?_⟩
  · rw [List.map_append, h.entered]
    rfl
  · rcases List.mem_append.mp hx with hx | hx
    · exact h.byNow x hx
    · rw [List.mem_singleton.mp hx]
  · obtain ⟨time, hk, hle⟩ := h.before k r hr
    exact ⟨time, List.getElem?_append_left (List.getElem?_eq_some_iff.mp hk).1 ▸ hk, hle⟩

/-- The request that the waiter holds is the first that it has not sent to. -/
theorem next (h : Arrived now requests b) (hpaced : b.Paced duration now) {req : Request}
    (hb : b.waiter = .received req) : ∃ time, requests[b.released.length]? = some (req, time) := by
  have hentered : (requests.map Prod.fst)[b.released.length]? = some req := by
    rw [h.entered, hpaced.fifo, hb, Waiter.holding, List.append_assoc,
      List.getElem?_append_right (by simp)]
    simp
  rw [List.getElem?_map] at hentered
  obtain ⟨⟨req', time⟩, htime, rfl⟩ := Option.map_eq_some_iff.mp hentered
  exact ⟨time, htime⟩

theorem advance (h : Arrived now requests b) (hpaced : b.Paced duration now)
    (hb : b.advance duration now = some b') : Arrived now requests b' := by
  obtain ⟨hentered, -⟩ := Bucket.advance_keeps hb
  refine ⟨hentered ▸ h.entered, h.byNow, fun k r hr => ?_⟩
  have hreleased : b'.released = b.released ∨ ∃ req, b.waiter = .received req ∧
      b'.released = b.released ++ [⟨req, now, decide (req ∉ b.dropped)⟩] := by
    unfold Bucket.advance at hb
    grind
  rcases hreleased with hsame | ⟨req, hreq, hmore⟩
  · exact h.before k r (hsame ▸ hr)
  · rw [hmore] at hr
    rcases Nat.lt_trichotomy k b.released.length with hk | rfl | hk
    · exact h.before k r (List.getElem?_append_left hk ▸ hr)
    · obtain ⟨time, htime⟩ := h.next hpaced hreq
      rw [List.getElem?_concat_length] at hr
      obtain rfl := Option.some.inj hr
      exact ⟨time, htime, h.byNow _ (List.mem_of_getElem? htime)⟩
    · rw [List.getElem?_eq_none (by simp; omega)] at hr
      cases hr

/-- One step of a queue, for a bucket and the requests that have entered it. -/
theorem step (h : Arrived s.now requests b) (hpaced : b.Paced duration s.now)
    (hroutes : s.queue.Routes c) (hstep : Queue.step duration a s = some s')
    (hb : s.queue.buckets[i]? = some b) :
    ∃ b', s'.queue.buckets[i]? = some b' ∧ b'.Paced duration s'.now ∧
      Arrived s'.now (requests ++ a.adds c i s.now) b' := by
  obtain ⟨hnow, b', hb', ⟨ha, heffect⟩ | ⟨ha, rfl⟩⟩ := step_bucket hstep hb
  · rw [Action.clock_eq ha] at hnow
    rw [hnow]
    refine ⟨b', hb', Action.effect_paced hpaced heffect, ?_⟩
    cases a with
    | tick elapsed => cases ha
    | send req =>
      rw [Action.adds_send hroutes ha]
      exact h.send heffect
    | drop req =>
      obtain rfl := Option.some.inj heffect
      exact (List.append_nil requests).symm ▸ ⟨h.entered, h.byNow, h.before⟩
    | waiter j => exact (List.append_nil requests).symm ▸ h.advance hpaced heffect
  · rw [Action.adds_eq_nil hroutes ha, List.append_nil, hnow]
    refine ⟨b', hb', ?_, h.later (Action.le_clock _)⟩
    cases a with
    | tick elapsed => exact hpaced.tick elapsed
    | _ => exact hpaced

/-- A paced waiter sends to nothing before its slot. -/
theorem slot_le (h : Arrived now requests b) (hpaced : b.Paced duration now) {k : ℕ} {r : Release}
    (hr : b.released[k]? = some r) : slot duration (arrivalTime requests) k ≤ r.time := by
  have htime {j : ℕ} (hj : j ≤ k) : ∃ r', b.released[j]? = some r' :=
    ⟨_, List.getElem?_eq_getElem (Nat.lt_of_le_of_lt hj (List.getElem?_eq_some_iff.mp hr).1)⟩
  let times (j : ℕ) : ℕ := (b.released[j]?).elim 0 Release.time
  have harrival (j : ℕ) (hj : j ≤ k) : arrivalTime requests j ≤ times j := by
    obtain ⟨r', hr'⟩ := htime hj
    obtain ⟨time, hrequest, hle⟩ := h.before j r' hr'
    simpa [arrivalTime, times, hr', hrequest] using hle
  have hgap (j : ℕ) (hj : j < k) : times j + duration ≤ times (j + 1) := by
    obtain ⟨r', hr'⟩ := htime (Nat.le_of_lt hj)
    obtain ⟨r'', hr''⟩ := htime (Nat.succ_le_of_lt hj)
    have hspaced := List.pairwise_iff_getElem.mp hpaced.spaced
    obtain ⟨hlt', rfl⟩ := List.getElem?_eq_some_iff.mp hr'
    obtain ⟨hlt'', rfl⟩ := List.getElem?_eq_some_iff.mp hr''
    simpa [times, hr', hr''] using hspaced j (j + 1) hlt' hlt'' (Nat.lt_succ_self j)
  have hslot := slot_le_of_paced harrival hgap
  simpa [times, hr] using hslot

end Arrived

/-! ## In time -/

end Queue

/-- The waiter goes on soon enough for the slot of the request that it sends to next. If it waits for one
to enter, nothing is due. -/
def Bucket.InTime (duration latency wake slot : ℕ) (b : Bucket) : Prop :=
  match b.waiter with
  | .receiving => b.channel ≠ [] → wake ≤ slot + latency
  | .received _ => wake ≤ slot + 2 * latency
  | .sent => wake + latency + duration ≤ slot
  | .sleeping _ => wake ≤ slot

theorem Bucket.InTime.mono {duration latency wake slot slot' : ℕ} {b : Bucket}
    (h : b.InTime duration latency wake slot) (hslot : slot ≤ slot') :
    b.InTime duration latency wake slot' := by
  unfold Bucket.InTime at *
  cases hw : b.waiter with
  | receiving =>
    simp only [hw] at h ⊢
    exact fun hne => (h hne).trans (Nat.add_le_add_right hslot latency)
  | _ =>
    simp only [hw] at h ⊢
    omega

namespace Queue

/-- Whether the waiter of a bucket takes a step. -/
def Action.goesOn (i : ℕ) : Action → Bool
  | waiter j => j = i
  | _ => false

/-- The clock when the waiter of a bucket goes on, or at the end. -/
def awake (i : ℕ) : ℕ → List Action → ℕ
  | now, [] => now
  | now, a :: actions => if a.goesOn i then now else awake i (a.clock now) actions

/-- The waiter of a bucket goes on within the latency of any time from now at which it can. -/
def OnTime (duration latency i : ℕ) (actions : List Action) (s : State) : Prop :=
  ∀ b ∈ s.queue.buckets[i]?, ∀ t, s.now ≤ t → (b.advance duration t).isSome →
    awake i s.now actions ≤ t + latency

/-- Throughout the actions the waiter of a bucket goes on within the latency. -/
def Punctual (duration latency i : ℕ) : List Action → State → Prop
  | [], s => OnTime duration latency i [] s
  | a :: actions, s => OnTime duration latency i (a :: actions) s ∧
    ∀ s' ∈ step duration a s, Punctual duration latency i actions s'

/-- What a waiter that goes on in time keeps: it is late by twice the latency when it sends, and goes
on before the slot of the next request is missed. -/
structure Timely (duration latency wake : ℕ) (requests : List (Request × ℕ)) (b : Bucket) :
    Prop where
  late : ∀ (k : ℕ) (r : Release), b.released[k]? = some r →
    r.time ≤ slot (duration + 4 * latency) (arrivalTime requests) k + 2 * latency
  inTime : b.InTime duration latency wake
    (slot (duration + 4 * latency) (arrivalTime requests) b.released.length)

namespace Timely

theorem new : Timely duration latency wake [] .new := ⟨fun _ _ => nofun, fun h => absurd rfl h⟩

/-- More requests leave the slots of the others, and at most delay the next. -/
theorem append (h : Timely duration latency wake requests b) (more : List (Request × ℕ)) :
    Timely duration latency wake (requests ++ more) b := by
  have hslot (k : ℕ) : slot (duration + 4 * latency) (arrivalTime requests) k ≤
      slot (duration + 4 * latency) (arrivalTime (requests ++ more)) k :=
    slot_mono fun j _ => arrivalTime_le_append requests more j
  exact ⟨fun k r hr => (h.late k r hr).trans (Nat.add_le_add_right (hslot k) _),
    h.inTime.mono (hslot _)⟩

/-- If the request is the first in the channel, the waiter receives it within the latency. -/
theorem send (h : Timely duration latency wake requests b) (harrived : Arrived now requests b)
    (hpaced : b.Paced duration now) {req : Request} (hb : b.send req = some b')
    (hontime : ∀ t, now ≤ t → (b'.advance duration t).isSome → wake ≤ t + latency) :
    Timely duration latency wake (requests ++ [(req, now)]) b' := by
  have hmore := h.append [(req, now)]
  obtain ⟨-, rfl⟩ := Bucket.send_eq_some.mp hb
  refine ⟨hmore.late, ?_⟩
  cases hw : b.waiter with
  | receiving =>
    unfold Bucket.InTime
    simp only
    rintro -
    rcases hchannel : b.channel with _ | ⟨req₀, channel⟩
    · -- everything that had entered has been sent to, so the request is the next
      have hlength : b.released.length = requests.length := by
        have hentered := congrArg List.length (harrived.entered.trans hpaced.fifo)
        simpa [hw, hchannel, Waiter.holding] using hentered.symm
      have hslot : now ≤ slot (duration + 4 * latency) (arrivalTime (requests ++ [(req, now)]))
          b.released.length := by
        have harrival := arrival_le_slot (duration + 4 * latency)
          (arrivalTime (requests ++ [(req, now)])) b.released.length
        rw [hlength, arrivalTime_length] at harrival
        rwa [hlength]
      have hdue := hontime now (le_refl now) (by simp [Bucket.advance, hw, hchannel])
      omega
    · have hinTime := hmore.inTime
      unfold Bucket.InTime at hinTime
      simp only [hw, hchannel] at hinTime
      exact hinTime (List.cons_ne_nil _ _)
  | _ => simpa [Bucket.InTime, hw] using hmore.inTime

theorem drop (h : Timely duration latency wake requests b) (req : Request) :
    Timely duration latency wake requests (b.drop req) := ⟨h.late, h.inTime⟩

/-- When the waiter goes on, what was due by then gives what is due next. -/
theorem advance (h : Timely duration latency now requests b)
    (hb : b.advance duration now = some b')
    (hontime : ∀ t, now ≤ t → (b'.advance duration t).isSome → wake' ≤ t + latency) :
    Timely duration latency wake' requests b' := by
  obtain ⟨hlate, hinTime⟩ := h
  rcases b with ⟨channel, waiter, entered, dropped, released⟩
  unfold Bucket.advance at hb
  unfold Bucket.InTime at hinTime
  cases waiter with
  | receiving =>
    cases channel with
    | nil => cases hb
    | cons req channel =>
      obtain rfl := Option.some.inj hb
      have hnow := hinTime (List.cons_ne_nil _ _)
      have hdue := hontime now (le_refl now) rfl
      refine ⟨hlate, ?_⟩
      simp only [Bucket.InTime] at hnow ⊢
      omega
  | received req =>
    obtain rfl := Option.some.inj hb
    have hdue := hontime now (le_refl now) rfl
    have hnext := slot_add_le (duration + 4 * latency) (arrivalTime requests) released.length
    simp only at hinTime
    refine ⟨fun k r hr => ?_, ?_⟩
    · rcases Nat.lt_trichotomy k released.length with hk | rfl | hk
      · exact hlate k r (List.getElem?_append_left hk ▸ hr)
      · simp only [List.getElem?_concat_length] at hr
        obtain rfl := Option.some.inj hr
        exact hinTime
      · simp only at hr
        rw [List.getElem?_eq_none (by simp; omega)] at hr
        cases hr
    · simp only [Bucket.InTime, List.length_append, List.length_singleton]
      omega
  | sent =>
    obtain rfl := Option.some.inj hb
    have hdue := hontime (now + duration) (Nat.le_add_right now duration)
      (by simp [Bucket.advance])
    refine ⟨hlate, ?_⟩
    simp only [Bucket.InTime] at hinTime ⊢
    omega
  | sleeping deadline =>
    simp only at hb
    split_ifs at hb
    obtain rfl := Option.some.inj hb
    refine ⟨hlate, ?_⟩
    simp only [Bucket.InTime] at hinTime ⊢
    intro hchannel
    obtain ⟨req, channel, rfl⟩ := List.exists_cons_of_ne_nil hchannel
    have hdue := hontime now (le_refl now) rfl
    omega

/-- A step of a queue in which the waiter goes on in time. -/
theorem step (h : Timely duration latency (awake i s.now (a :: actions)) requests b)
    (harrived : Arrived s.now requests b) (hpaced : b.Paced duration s.now)
    (hroutes : s.queue.Routes c) (hstep : Queue.step duration a s = some s')
    (hb : s.queue.buckets[i]? = some b) (hb' : s'.queue.buckets[i]? = some b')
    (hontime : OnTime duration latency i actions s') :
    Timely duration latency (awake i s'.now actions) (requests ++ a.adds c i s.now) b' := by
  obtain ⟨hnow, b₁, hb₁, hcase⟩ := step_bucket hstep hb
  obtain rfl := Option.some.inj (hb₁.symm.trans hb')
  have hdue := hontime b₁ hb'
  rcases hcase with ⟨ha, heffect⟩ | ⟨ha, rfl⟩
  · rw [Action.clock_eq ha] at hnow
    rw [hnow] at hdue ⊢
    cases a with
    | tick elapsed => cases ha
    | send req =>
      rw [Action.adds_send hroutes ha]
      exact h.send harrived hpaced heffect hdue
    | drop req =>
      obtain rfl := Option.some.inj heffect
      exact (h.drop req).append _
    | waiter j =>
      obtain rfl := Option.some.inj ha
      have hgoes : (Action.waiter j).goesOn j = true := decide_eq_true rfl
      rw [awake, if_pos hgoes] at h
      exact (h.advance heffect hdue).append _
  · have hother : a.goesOn i = false := by
      cases a with
      | waiter j => exact decide_eq_false fun hij => ha (congrArg some hij)
      | _ => rfl
    rw [awake, hother, if_neg Bool.false_ne_true, ← hnow] at h
    exact h.append _

/-- A request that has entered has been sent to, unless it is not yet that late. -/
theorem sent_to (h : Timely duration latency now requests b) (harrived : Arrived now requests b)
    (hpaced : b.Paced duration now) {k : ℕ} (hk : k < requests.length) :
    (∃ r, b.released[k]? = some r ∧
      r.time ≤ slot (duration + 4 * latency) (arrivalTime requests) k + 2 * latency) ∨
    now ≤ slot (duration + 4 * latency) (arrivalTime requests) k + 2 * latency := by
  rcases Nat.lt_or_ge k b.released.length with hlt | hge
  · exact .inl ⟨_, List.getElem?_eq_getElem hlt, h.late k _ (List.getElem?_eq_getElem hlt)⟩
  · right
    have hslot := slot_le_slot (Nat.zero_le (duration + 4 * latency)) (arrivalTime requests) hge
    have hinTime := h.inTime
    have hentered := congrArg List.length (harrived.entered.trans hpaced.fifo)
    unfold Bucket.InTime at hinTime
    cases hw : b.waiter with
    | receiving =>
      have hchannel : b.channel ≠ [] := by
        intro hnil
        simp [hw, hnil, Waiter.holding] at hentered
        omega
      simp only [hw] at hinTime
      have hnow := hinTime hchannel
      omega
    | _ =>
      simp only [hw] at hinTime
      omega

end Timely

end Queue

/-- The first time from now at which the waiter can go on. -/
def Bucket.due (now : ℕ) (b : Bucket) : Option ℕ :=
  match b.waiter with
  | .receiving => if b.channel = [] then none else some now
  | .received _ | .sent => some now
  | .sleeping deadline => some (max now deadline)

/-- From then on it can go on. -/
theorem Bucket.advance_isSome {duration now t : ℕ} {b : Bucket} (ht : now ≤ t) :
    (b.advance duration t).isSome ↔ ∃ u ∈ b.due now, u ≤ t := by
  rcases b with ⟨channel, waiter, entered, dropped, released⟩
  cases waiter with
  | receiving => cases channel <;> simp [advance, due, ht]
  | sleeping deadline =>
    simp only [advance, due, Option.mem_some_iff, exists_eq_left']
    split_ifs with hle
    · simp only [Option.isSome_some, true_iff]
      omega
    · simp only [Option.isSome_none, Bool.false_eq_true, false_iff]
      omega
  | _ => simp [advance, due, ht]

namespace Queue

theorem onTime_iff : OnTime duration latency i actions s ↔
    ∀ b ∈ s.queue.buckets[i]?, ∀ t ∈ b.due s.now, awake i s.now actions ≤ t + latency := by
  constructor
  · intro h b hb t ht
    have hle : s.now ≤ t := by
      unfold Bucket.due at ht
      grind
    exact h b hb t hle ((Bucket.advance_isSome hle).mpr ⟨t, ht, le_refl t⟩)
  · intro h b hb t hle hsome
    obtain ⟨u, hu, hut⟩ := (Bucket.advance_isSome hle).mp hsome
    exact (h b hb u hu).trans (Nat.add_le_add_right hut latency)

instance (actions : List Action) (s : State) :
    Decidable (OnTime duration latency i actions s) :=
  decidable_of_iff _ onTime_iff.symm

instance Punctual.decidable (duration latency i : ℕ) (actions : List Action) (s : State) :
    Decidable (Punctual duration latency i actions s) :=
  match actions with
  | [] => inferInstanceAs (Decidable (OnTime duration latency i [] s))
  | a :: actions =>
    have := Punctual.decidable duration latency i actions
    inferInstanceAs (Decidable (_ ∧ ∀ s' ∈ step duration a s, Punctual duration latency i actions s'))

/-! ## Runs -/

theorem Punctual.onTime (h : Punctual duration latency i actions s) :
    OnTime duration latency i actions s := by
  cases actions with
  | nil => exact h
  | cons a actions => exact h.1

/-- What a run makes of a bucket and of the requests that have entered it. -/
theorem run_arrived (hroutes : s.queue.Routes c) (hrun : run duration actions s = some s')
    (hb : s.queue.buckets[i]? = some b) (hpaced : b.Paced duration s.now)
    (harrived : Arrived s.now requests b) :
    ∃ b', s'.queue.buckets[i]? = some b' ∧ b'.Paced duration s'.now ∧
      Arrived s'.now (requests ++ timedArrivals c i s.now actions) b' ∧
      ∀ latency, Punctual duration latency i actions s →
        Timely duration latency (awake i s.now actions) requests b →
        Timely duration latency s'.now (requests ++ timedArrivals c i s.now actions) b' := by
  induction actions generalizing s b requests with
  | nil =>
    obtain rfl := Option.some.inj hrun
    simp only [timedArrivals, List.append_nil]
    exact ⟨b, hb, hpaced, harrived, fun _ _ h => h⟩
  | cons a actions ih =>
    obtain ⟨s₁, hstep, hrest⟩ := run_cons.mp hrun
    obtain ⟨b₁, hb₁, hpaced₁, harrived₁⟩ := harrived.step hpaced hroutes hstep hb
    obtain ⟨b', hb', hpaced', harrived', htimely⟩ :=
      ih (hroutes.step hstep) hrest hb₁ hpaced₁ harrived₁
    have hrequests : requests ++ a.adds c i s.now ++ timedArrivals c i s₁.now actions =
        requests ++ timedArrivals c i s.now (a :: actions) := by
      rw [timedArrivals, List.append_assoc, (step_bucket hstep hb).1]
    rw [hrequests] at harrived' htimely
    refine ⟨b', hb', hpaced', harrived', fun latency hpunctual h => ?_⟩
    have hpunctual₁ := hpunctual.2 s₁ hstep
    exact htimely latency hpunctual₁
      (h.step harrived hpaced hroutes hstep hb hb₁ hpunctual₁.onTime)

/-- **Requests are answered in time.** In every run of the queue that is chosen, no request is sent to
before its slot, which is when it enters or the duration after the slot before, whichever is later. If
the waiter of its bucket goes on within a latency of when it can, it has been sent to by its slot at a
pace slower by four latencies and another two latencies, unless it is not yet that late. -/
theorem identify_prompt {c duration : ℕ} {actions : List Action} {start : ℕ} {s : State}
    (hrun : run duration actions ⟨start, choose c⟩ = some s) {i : ℕ} (hi : i < c) :
    let requests := timedArrivals c i start actions
    ∃ b, s.queue.buckets[i]? = some b ∧
      (∀ (k : ℕ) (r : Release), b.released[k]? = some r →
        ∃ time, requests[k]? = some (r.request, time) ∧
          slot duration (arrivalTime requests) k ≤ r.time) ∧
      ∀ latency, Punctual duration latency i actions ⟨start, choose c⟩ → ∀ k < requests.length,
        let latest := slot (duration + 4 * latency) (arrivalTime requests) k + 2 * latency
        (∃ r, b.released[k]? = some r ∧ r.time ≤ latest) ∨ s.now ≤ latest := by
  intro requests
  obtain ⟨b, hb, hpaced, harrived, htimely⟩ :=
    run_arrived (routes_choose c) hrun (buckets_choose hi) .new .new
  rw [List.nil_append] at harrived htimely
  refine ⟨b, hb, fun k r hr => ?_, fun latency hpunctual k hk => ?_⟩
  · obtain ⟨time, htime, -⟩ := harrived.before k r hr
    exact ⟨time, htime, harrived.slot_le hpaced hr⟩
  · exact (htimely latency hpunctual .new).sent_to harrived hpaced hk

/-- Two requests for the first bucket, whose waiter is never late. -/
def twoOnTime : List Action :=
  [.send ⟨0, 0, 0⟩, .send ⟨0, 2, 0⟩] ++ List.replicate 3 (.waiter 0) ++ [.tick 5] ++
    List.replicate 4 (.waiter 0) ++ [.tick 1]

/-- The second request is sent to a sleep after the first. -/
theorem identify_prompt_two : ∃ s b r, run 5 twoOnTime ⟨0, choose 2⟩ = some s ∧
    s.queue.buckets[0]? = some b ∧ b.released[1]? = some r ∧ r.time = 5 := by
  have hsome : (run 5 twoOnTime ⟨0, choose 2⟩).isSome = true := by decide +kernel
  have hnow : ∀ s ∈ run 5 twoOnTime ⟨0, choose 2⟩, s.now = 6 := by decide +kernel
  have hpunctual : Punctual 5 0 0 twoOnTime ⟨0, choose 2⟩ := by decide +kernel
  have hslot : slot 5 (arrivalTime (timedArrivals 2 0 0 twoOnTime)) 1 = 5 := by decide +kernel
  obtain ⟨s, hrun⟩ := Option.isSome_iff_exists.mp hsome
  obtain ⟨b, hb, hslots, htimely⟩ := identify_prompt hrun (i := 0) (by decide)
  rcases htimely 0 hpunctual 1 (by decide +kernel) with ⟨r, hr, hle⟩ | hle
  · obtain ⟨-, -, hge⟩ := hslots 1 r hr
    exact ⟨s, b, r, hrun, hb, hr, Nat.le_antisymm (hslot ▸ hle) (hslot ▸ hge)⟩
  · rw [hnow s hrun] at hle
    exact absurd (hslot ▸ hle : 6 ≤ 5) (by decide)

end Queue

end TwilightDispatch
