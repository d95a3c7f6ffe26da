import TwilightDispatch.Amqp.Memory
import TwilightDispatch.Forwarded

/-!
# The exchange and its queues

Before a process connects to the gateway it declares the exchange that events are published to, the queue
that commands come from and, with `default_queue`, a queue for all events (`declareQueues`). It may do so
again and again, while other clients use the same broker.

Nobody asks for anything else under these names or takes them back (`Proper`), so no declaration fails, and
the default queue is given every event that is published from then on (`events_received`), one for each
dispatch that is handled (`dispatches_received`).
-/

namespace TwilightDispatch

open Atomic

variable {M V : Type}

/-! ## `declare_queues` -/

/-- A call of the broker; an error is a `LapinError`. -/
def declare (c : Amqp.Cmd M) : Fallible (Amqp.interface M) Amqp.Error Unit :=
  ExceptT.mk (.perform c)

def declareQueues (defaultQueue : Bool) : Fallible (Amqp.interface M) Amqp.Error Unit := do
  declare (.exchangeDeclare EXCHANGE .topic
    { passive := false, durable := true, autoDelete := false, internal := false, nowait := false } [])
  declare (.queueDeclare QUEUE_SEND
    { passive := false, durable := true, exclusive := false, autoDelete := false, nowait := false } [])
  if defaultQueue then
    declare (.queueDeclare QUEUE_RECV
      { passive := false, durable := true, exclusive := false, autoDelete := false, nowait := false } [])
    declare (.queueBind ⟨QUEUE_RECV, EXCHANGE, "#"⟩)

/-- The publications among the effects are made; an error is only logged. -/
def publishAll : List Effect → Prog (Amqp.interface (List UInt8)) Unit
  | [] => .ret ()
  | effect :: effects =>
    match effect.message with
    | some (exchange, kind, payload) =>
      .cmd (.publish ⟨exchange, kind, payload⟩) fun _ => publishAll effects
    | none => publishAll effects

/-! ## What is agreed upon -/

def eventExchange : Amqp.Exchange := ⟨.topic, true, false, false, []⟩

def durableQueue : Amqp.Queue := ⟨true, false, false, []⟩

/-- A client asks for the same under the names of the service, and takes nothing back that leads events to
the default queue and nothing else to it. -/
def Proper (c : Amqp.Cmd M) : Prop :=
  c.Leaves EXCHANGE QUEUE_RECV ∧ match c with
    | .exchangeDeclare name kind options arguments =>
      name = EXCHANGE → options.exchange kind arguments = eventExchange
    | .queueDeclare name options arguments =>
      name = QUEUE_SEND ∨ name = QUEUE_RECV → options.queue arguments = durableQueue
    | _ => True

section Agreement

variable {D : Amqp.Broker M} {b b' : D.State}

/-- What the broker has under the names of the service. -/
structure Agreed (D : Amqp.Broker M) (b : D.State) : Prop where
  exchange : ∀ x, D.exchange b EXCHANGE = some x → x = eventExchange
  queues : ∀ name, name = QUEUE_SEND ∨ name = QUEUE_RECV → ∀ q, D.queue b name = some q →
    q = durableQueue
  bindings : ∀ binding, D.bound b binding → binding.queue = QUEUE_RECV →
    binding = ⟨QUEUE_RECV, EXCHANGE, "#"⟩
  unlinked : ¬ D.linked b EXCHANGE
  unlinked_default : ¬ D.linked b ""

/-- Proper commands keep what has been agreed upon. -/
theorem Agreed.exec (hD : D.Lawful) (h : Agreed D b) {c : Amqp.Cmd M} (hc : Proper c) :
    Agreed D (D.exec c b).2 where
  exchange x hx := by
    rcases hD.exchange_new b c EXCHANGE x hx with hx | ⟨kind, options, arguments, rfl, rfl⟩
    · exact h.exchange x hx
    · exact hc.2 rfl
  queues name hname q hq := by
    rcases hD.queue_new b c name q hq with hq | ⟨options, arguments, rfl, rfl⟩
    · exact h.queues name hname q hq
    · exact hc.2 hname
  bindings binding hbound hq := by
    rcases hD.bound_new b c binding hbound with hbound | rfl
    · exact h.bindings binding hbound hq
    · exact hc.1.2.2 hq
  unlinked hlinked := (hD.linked_new b c EXCHANGE hlinked).elim h.unlinked hc.1.1
  unlinked_default hlinked := (hD.linked_new b c "" hlinked).elim h.unlinked_default hc.1.2.1

/-- The exchange for events is there. -/
def HasExchange (D : Amqp.Broker M) (b : D.State) : Prop := D.exchange b EXCHANGE = some eventExchange

/-- The exchange for events and the default queue are there. -/
def HasQueue (D : Amqp.Broker M) (b : D.State) : Prop :=
  HasExchange D b ∧ D.queue b QUEUE_RECV = some durableQueue

theorem HasExchange.exec (hD : D.Lawful) (h : HasExchange D b) {c : Amqp.Cmd M} (hc : Proper c) :
    HasExchange D (D.exec c b).2 :=
  hD.exchange_stays b c EXCHANGE eventExchange h rfl (by rintro rfl; exact hc.1.2.2 rfl)

theorem HasQueue.exec (hD : D.Lawful) (h : HasQueue D b) {c : Amqp.Cmd M} (hc : Proper c) :
    HasQueue D (D.exec c b).2 :=
  ⟨h.1.exec hD hc,
    hD.queue_stays b c QUEUE_RECV durableQueue h.2 rfl rfl rfl (by rintro rfl; exact hc.1.2.2 rfl)⟩

/-- What the programs may rely on: what is agreed upon stays so, what is declared stays, and a default
queue is given all events. -/
structure Onwards (D : Amqp.Broker M) (b b' : D.State) : Prop where
  agreed : Agreed D b → Agreed D b'
  exchange : HasExchange D b → HasExchange D b'
  queue : HasQueue D b → HasQueue D b'
  published : D.published b <+: D.published b'
  feeds : D.Feeds EXCHANGE QUEUE_RECV b →
    D.Feeds EXCHANGE QUEUE_RECV b' ∧ D.Fed EXCHANGE QUEUE_RECV b b'

instance : Std.Refl (Onwards D) :=
  ⟨fun _ => ⟨id, id, id, List.prefix_rfl, fun h => ⟨h, .of_eq rfl rfl⟩⟩⟩

instance : IsTrans D.State (Onwards D) where
  trans _ _ _ h h' := by
    refine ⟨h'.agreed ∘ h.agreed, h'.exchange ∘ h.exchange, h'.queue ∘ h.queue,
      h.published.trans h'.published, fun hfeeds => ?_⟩
    obtain ⟨hfeeds₁, hfed⟩ := h.feeds hfeeds
    obtain ⟨hfeeds₂, hfed'⟩ := h'.feeds hfeeds₁
    exact ⟨hfeeds₂, hfed.trans hfed'⟩

/-- A proper command is a move that the programs rely on. -/
theorem Proper.onwards (hD : D.Lawful) {c : Amqp.Cmd M} (hc : Proper c) (b : D.State) :
    Onwards D b (D.exec c b).2 where
  agreed h := h.exec hD hc
  exchange h := h.exec hD hc
  queue h := h.exec hD hc
  published := hD.published_prefix c b
  feeds h := h.exec hD (by decide) hc.1

/-! ## Declarations do not fail -/

/-- From a state with `R`, the declarations succeed and lead to one with `R'`, whatever others do. -/
def Leads (D : Amqp.Broker M) (R : D.State → Prop) (x : Fallible (Amqp.interface M) Amqp.Error Unit)
    (R' : D.State → Prop) : Prop :=
  ∀ b, Agreed D b → R b → Fallible.Wp D.exec (Onwards D) (fun c _ => Proper c) x
    (fun r b => r = .ok () ∧ Agreed D b ∧ R' b) b

/-- Others do not undo it. -/
def Lasting (D : Amqp.Broker M) (R : D.State → Prop) : Prop := ∀ b b', Onwards D b b' → R b → R b'

section Leads

variable {R R' R'' : D.State → Prop} {x y : Fallible (Amqp.interface M) Amqp.Error Unit}

theorem leads_declare (hD : D.Lawful) {c : Amqp.Cmd M} (hc : Proper c) (hR : Lasting D R)
    (hR' : Lasting D R')
    (hexec : ∀ b, Agreed D b → R b → (D.exec c b).1 = .ok () ∧ R' (D.exec c b).2) :
    Leads D R (declare c) R' := by
  intro b hb hr b₁ h₁
  obtain ⟨hok, hr'⟩ := hexec b₁ (h₁.agreed hb) (hR b b₁ h₁ hr)
  refine ⟨hc, fun b₂ h₂ => ⟨hok, ?_, hR' _ b₂ h₂ hr'⟩⟩
  exact h₂.agreed ((h₁.agreed hb).exec hD hc)

theorem Leads.andThen (hx : Leads D R x R') (hy : Leads D R' y R'') :
    Leads D R (x >>= fun _ => y) R'' := by
  intro b hb hr
  refine Fallible.wp_bind (Wp.mono (hx b hb hr) (fun _ _ h => h) fun r b₁ hpost => ?_)
  obtain ⟨rfl, hb₁, hr₁⟩ := hpost
  exact hy b₁ hb₁ hr₁

end Leads

theorem lasting_hasExchange : Lasting D (HasExchange D) := fun _ _ h => h.exchange

theorem lasting_hasQueue : Lasting D (HasQueue D) := fun _ _ h => h.queue

theorem lasting_feeds : Lasting D (D.Feeds EXCHANGE QUEUE_RECV) := fun _ _ h hb => (h.feeds hb).1

theorem lasting_true : Lasting D fun _ => True := fun _ _ _ _ => trivial

/-- A declaration of the service is proper. -/
theorem proper_exchangeDeclare (options : Amqp.ExchangeDeclareOptions)
    (h : options.exchange .topic [] = eventExchange) :
    Proper (.exchangeDeclare EXCHANGE .topic options [] : Amqp.Cmd M) :=
  ⟨⟨by simp [Amqp.Cmd.Links], by simp [Amqp.Cmd.Links], trivial⟩, fun _ => h⟩

theorem proper_queueDeclare {name : String} (options : Amqp.QueueDeclareOptions)
    (h : options.queue [] = durableQueue) :
    Proper (.queueDeclare name options [] : Amqp.Cmd M) :=
  ⟨⟨by simp [Amqp.Cmd.Links], by simp [Amqp.Cmd.Links], trivial⟩, fun _ => h⟩

theorem proper_queueBind : Proper (.queueBind ⟨QUEUE_RECV, EXCHANGE, "#"⟩ : Amqp.Cmd M) :=
  ⟨⟨id, id, fun _ => rfl⟩, trivial⟩

/-- The service publishes to its exchange. -/
theorem proper_publish (key : String) (body : M) : Proper (.publish ⟨EXCHANGE, key, body⟩ : Amqp.Cmd M) :=
  ⟨⟨id, id, fun hdefault => absurd (show EXCHANGE = "" from hdefault) (by decide)⟩, trivial⟩

theorem Agreed.exec_queueDeclare (hD : D.Lawful) (hb : Agreed D b) {name : String}
    {options : Amqp.QueueDeclareOptions} (hname : name = QUEUE_SEND ∨ name = QUEUE_RECV)
    (hpassive : options.passive = false) (hexclusive : options.exclusive = false)
    (hoptions : options.queue [] = durableQueue) :
    (D.exec (.queueDeclare name options []) b).1 = .ok () ∧
      D.queue (D.exec (.queueDeclare name options []) b).2 name = some durableQueue := by
  have h := hb.queues name hname
  rw [← hoptions] at h ⊢
  refine hD.queueDeclare b name options ?_ hpassive hexclusive h
  rcases hname with rfl | rfl <;> decide +kernel

/-- Whatever others do, `declare_queues` succeeds, and with `default_queue` the default queue is given all
events. -/
theorem leads_declareQueues (hD : D.Lawful) (defaultQueue : Bool) :
    Leads D (fun _ => True) (declareQueues defaultQueue)
      fun b => defaultQueue = true → D.Feeds EXCHANGE QUEUE_RECV b := by
  unfold declareQueues
  refine (leads_declare hD (proper_exchangeDeclare _ rfl) lasting_true lasting_hasExchange
    fun b hb _ => ?_).andThen ?_
  · exact hD.exchangeDeclare b EXCHANGE .topic _ (by decide +kernel) rfl hb.exchange
  refine (leads_declare hD (proper_queueDeclare _ rfl) lasting_hasExchange lasting_hasExchange
    fun b hb hx => ?_).andThen ?_
  · exact And.imp_right (fun _ => hx.exec hD (proper_queueDeclare _ rfl))
      (hb.exec_queueDeclare hD (.inl rfl) rfl rfl rfl)
  split_ifs with hdefault
  · refine (leads_declare hD (proper_queueDeclare _ rfl) lasting_hasExchange lasting_hasQueue
      fun b hb hx => ?_).andThen ?_
    · exact And.imp_right (fun hq => ⟨hx.exec hD (proper_queueDeclare _ rfl), hq⟩)
        (hb.exec_queueDeclare hD (.inr rfl) rfl rfl rfl)
    refine leads_declare hD proper_queueBind lasting_hasQueue
      (fun b b' h hb hd => lasting_feeds b b' h (hb hd)) fun b hb hq => ?_
    obtain ⟨hx', hq'⟩ := hq.exec hD (proper_queueBind (M := M))
    have hagreed := hb.exec hD (proper_queueBind (M := M))
    have hexchange : D.exchange b EXCHANGE ≠ none := Option.ne_none_iff_exists'.mpr ⟨_, hq.1⟩
    have hbind := hD.queueBind b ⟨QUEUE_RECV, EXCHANGE, "#"⟩ durableQueue hq.2 rfl
      (show EXCHANGE ≠ "" by decide) hexchange
    refine And.imp_right (fun hbound _ => ?_) hbind
    exact ⟨⟨_, hx', rfl, rfl⟩, ⟨_, hq', rfl, rfl, rfl⟩, hbound, hagreed.bindings, hagreed.unlinked,
      hagreed.unlinked_default⟩
  · intro b hb _
    exact Fallible.wp_pure fun b' h => ⟨rfl, h.agreed hb, fun hd => absurd hd hdefault⟩

end Agreement

/-! ## Events are received -/

/-- A task publishes to the exchange for events. -/
theorem Received.Reports.exchange {P : PayloadJson V} {item : Received} {effect : Effect}
    {message : String × String × List UInt8} (h : item.Reports P effect)
    (hm : effect.message = some message) : message.1 = EXCHANGE := by
  cases effect with
  | publish exchange kind payload =>
    obtain ⟨-, -, -, -, rfl, -⟩ := h.publish
    obtain rfl := Option.some.inj hm
    rfl
  | _ => cases hm

/-- The bodies of the messages among the effects. -/
def bodies (effects : List Effect) : List (List UInt8) :=
  effects.filterMap fun effect => effect.message.map fun message => message.2.2

/-- A client of the broker. One that declares the queues returns what has come of it. -/
abbrev BrokerClient := Prog (Amqp.interface (List UInt8)) (Option (Bool × Except Amqp.Error Unit))

section Events

variable {D : Amqp.Broker (List UInt8)} {P : PayloadJson V} {tasks tasks' : List BrokerClient}
  {b₀ b b' b'' : D.State}

/-- The messages among the effects have been published since, in order, with others before, between and
after them. -/
def PublishedSince (D : Amqp.Broker (List UInt8)) (effects : List Effect) (b b' : D.State) : Prop :=
  ∃ more, D.published b' = D.published b ++ more ∧
    (bodies effects).Sublist ((more.filter (·.exchange = EXCHANGE)).map Amqp.Message.body)

theorem PublishedSince.onwards {effects : List Effect} (h : PublishedSince D effects b b')
    (h' : Onwards D b' b'') : PublishedSince D effects b b'' := by
  obtain ⟨more, hmore, hsub⟩ := h
  obtain ⟨rest, hrest⟩ := h'.published
  refine ⟨more ++ rest, by rw [← hrest, hmore, List.append_assoc], ?_⟩
  rw [List.filter_append, List.map_append]
  exact hsub.trans (List.sublist_append_left ..)

/-- Whatever others do, the messages are published in order, if the exchange is there. -/
theorem wp_publishAll (hD : D.Lawful) {effects : List Effect} (h : ∀ effect ∈ effects, ∀ message,
    effect.message = some message → message.1 = EXCHANGE) (b : D.State) (hb : Agreed D b) :
    Wp D.exec (Onwards D) (fun c _ => Proper c) (publishAll effects)
      (fun _ b' => HasExchange D b → PublishedSince D effects b b') b := by
  induction effects generalizing b with
  | nil =>
    intro b' h' _
    exact PublishedSince.onwards ⟨[], (List.append_nil _).symm, List.nil_sublist _⟩ h'
  | cons effect effects ih =>
    have ih := ih fun e he => h e (List.mem_cons_of_mem _ he)
    unfold publishAll PublishedSince bodies
    rcases hm : effect.message with _ | ⟨exchange, kind, payload⟩
    · rw [List.filterMap_cons_none (by rw [hm]; rfl)]
      exact ih b hb
    · obtain rfl : exchange = EXCHANGE := h effect List.mem_cons_self _ hm
      rw [List.filterMap_cons_some (by rw [hm]; rfl)]
      intro b₁ h₁
      have hproper := proper_publish kind payload
      refine ⟨hproper, ?_⟩
      refine Wp.mono (ih _ ((h₁.agreed hb).exec hD hproper)) (fun _ _ h => h) fun _ b₂ hpost hx => ?_
      have hx₁ := h₁.exchange hx
      have htaken := hD.publish b₁ ⟨EXCHANGE, kind, payload⟩ eventExchange
        (show EXCHANGE ≠ "" by decide) hx₁ rfl
      obtain ⟨before, hbefore⟩ := h₁.published
      obtain ⟨more, hmore, hsub⟩ := hpost (hx₁.exec hD hproper)
      refine ⟨before ++ ⟨EXCHANGE, kind, payload⟩ :: more, ?_, ?_⟩
      · calc D.published b₂ = D.published b₁ ++ [⟨EXCHANGE, kind, payload⟩] ++ more := by
              rw [hmore, htaken]
          _ = D.published b ++ (before ++ ⟨EXCHANGE, kind, payload⟩ :: more) := by
            rw [← hbefore, List.append_assoc, List.append_assoc]
            rfl
      · rw [List.filter_append, List.map_append, List.filter_cons_of_pos (by simp), List.map_cons]
        exact (hsub.cons_cons payload).trans (List.sublist_append_right ..)

/-- What uses the broker: processes that declare their queues and report events, and other clients whose
commands are proper. -/
inductive Uses (P : PayloadJson V) : BrokerClient → Prop
  | declareQueues (defaultQueue : Bool) : Uses P
      (ExceptT.run (declareQueues defaultQueue) >>= fun r => .ret (some (defaultQueue, r)))
  | report {effects : List Effect} (h : ∀ effect ∈ effects, ∃ item, Received.Reports P item effect) :
      Uses P (publishAll effects >>= fun _ => .ret none)
  | command {c : Amqp.Cmd (List UInt8)} (h : Proper c) : Uses P (.cmd c fun _ => .ret none)

/-- What has come of a declaration. -/
def Declared (D : Amqp.Broker (List UInt8)) (a : Option (Bool × Except Amqp.Error Unit)) (b : D.State) :
    Prop :=
  ∀ defaultQueue r, a = some (defaultQueue, r) →
    r = .ok () ∧ (defaultQueue = true → D.Feeds EXCHANGE QUEUE_RECV b)

theorem Uses.wp (hD : D.Lawful) {p : BrokerClient} (hp : Uses P p) (b : D.State) (hb : Agreed D b) :
    Wp D.exec (Onwards D) (fun c _ => Proper c) p (Declared D) b := by
  cases hp with
  | declareQueues defaultQueue =>
    refine Wp.bind (Wp.mono (leads_declareQueues hD defaultQueue b hb trivial) (fun _ _ h => h) ?_)
    rintro r b₁ ⟨rfl, hb₁, hfeeds⟩ b₂ h₂ _ _ ⟨⟩
    exact ⟨rfl, fun hd => (h₂.feeds (hfeeds hd)).1⟩
  | @report effects h =>
    have hexchange : ∀ effect ∈ effects, ∀ message, effect.message = some message →
        message.1 = EXCHANGE := by
      intro effect he message hm
      obtain ⟨item, hreports⟩ := h effect he
      exact hreports.exchange hm
    refine Wp.bind (Wp.mono (wp_publishAll hD hexchange b hb) (fun _ _ h => h) ?_)
    rintro _ b₁ - b₂ - _ _ ⟨⟩
  | command hc =>
    refine fun b₁ _ => ⟨hc, fun b₂ _ => ?_⟩
    rintro _ _ ⟨⟩

theorem Uses.sound (hD : D.Lawful) {Q : ℕ → Option (Bool × Except Amqp.Error Unit) → D.State → Prop}
    (hQ : ∀ i, tasks.length ≤ i → Q i = Declared D) (h : Onward D.exec (Uses P) tasks b tasks' b')
    (hb : Agreed D b) (hmeets : Meets D.exec (Onwards D) Proper Q tasks b) :
    Onwards D b b' ∧ Meets D.exec (Onwards D) Proper Q tasks' b' := by
  refine h.sound (fun i hi p hp b hb => ?_) (fun c b _ hc => hc.onwards hD b) (fun _ _ h => h.agreed)
    hb hmeets
  rw [hQ i hi]
  exact hp.wp hD b hb

/-- In every state that is reached, the programs do as they should. -/
theorem Uses.reached (hD : D.Lawful) (hb₀ : Agreed D b₀) (h : Reached D.exec (Uses P) b₀ tasks b) :
    Agreed D b ∧ Meets D.exec (Onwards D) Proper (fun _ => Declared D) tasks b := by
  obtain ⟨hrely, hmeets⟩ := Uses.sound hD (fun _ _ => rfl) h.onward hb₀ fun _ _ hp => by cases hp
  exact ⟨hrely.agreed hb₀, hmeets⟩

/-- **Events are received once and in order.** On a broker that does what is documented, whatever clients
do that is proper: `declare_queues` does not fail, and once it has returned with `default_queue`, the
default queue is given exactly the messages that are published to the exchange for events, in the order in
which they are published. -/
theorem events_received (hD : D.Lawful) (hb₀ : Agreed D b₀) (h : Reached D.exec (Uses P) b₀ tasks b)
    {defaultQueue : Bool} {r : Except Amqp.Error Unit} (hr : .ret (some (defaultQueue, r)) ∈ tasks)
    (hon : Onward D.exec (Uses P) tasks b tasks' b') :
    r = .ok () ∧ (defaultQueue = true → D.Fed EXCHANGE QUEUE_RECV b b') := by
  obtain ⟨hb, hmeets⟩ := Uses.reached hD hb₀ h
  obtain ⟨i, hi⟩ := List.mem_iff_getElem?.mp hr
  obtain ⟨hrely, -⟩ := Uses.sound hD (fun _ _ => rfl) hon hb hmeets
  obtain ⟨rfl, hfeeds⟩ := hmeets.of_ret hi defaultQueue r rfl
  exact ⟨rfl, fun hd => (hrely.feeds (hfeeds hd)).2⟩

end Events

/-- On a broker without declarations, everything is agreed upon. -/
theorem agreed_empty : Agreed (Amqp.Memory.broker M) Amqp.Memory.empty where
  exchange _ h := by cases h
  queues _ _ _ h := by cases h
  bindings _ h := absurd h List.not_mem_nil
  unlinked h := h
  unlinked_default h := h

/-- The message of a ready event. -/
def readyMessage : Amqp.Message (List UInt8) := ⟨EXCHANGE, "READY", [1]⟩

/-- The queues are declared, another client deletes a queue of its own, and then an event is published. -/
theorem events_received_ready : ∃ tasks b tasks' b',
    Reached Amqp.Memory.exec (Uses (PayloadJson.empty : PayloadJson Item)) .empty tasks b ∧
      Onward Amqp.Memory.exec (Uses (PayloadJson.empty : PayloadJson Item)) tasks b tasks' b' ∧
      b'.published = [readyMessage] ∧ b'.received QUEUE_RECV = [[1]] := by
  have hstart : Reached Amqp.Memory.exec (Uses (PayloadJson.empty : PayloadJson Item)) .empty [_] .empty :=
    Reached.init.start (.declareQueues true)
  have hdelete : Proper (.queueDelete "other" : Amqp.Cmd (List UInt8)) :=
    ⟨⟨id, id, show "other" ≠ QUEUE_RECV by decide⟩, trivial⟩
  obtain ⟨tasks, h, hr⟩ := hstart.returns (List.getElem?_cons_zero ..)
  rw [Prog.run_bind] at h hr
  have hother (b : Amqp.Memory (List UInt8)) : Onward Amqp.Memory.exec
      (Uses (PayloadJson.empty : PayloadJson Item)) tasks b _ (Amqp.Memory.exec (.queueDelete "other") b).2 :=
    (Onward.refl.start (.command hdelete)).step List.getElem?_concat_length
  have hon (b : Amqp.Memory (List UInt8)) : Onward Amqp.Memory.exec
      (Uses (PayloadJson.empty : PayloadJson Item)) tasks b _
        (Amqp.Memory.exec (.publish readyMessage) (Amqp.Memory.exec (.queueDelete "other") b).2).2 :=
    ((hother b).start (.command (proper_publish "READY" [1]))).step List.getElem?_concat_length
  obtain ⟨-, hfed⟩ := events_received Amqp.Memory.broker_lawful agreed_empty h hr (hon _)
  obtain ⟨more, hpublished, hreceived⟩ := hfed rfl
  have hmore : [readyMessage] = more := Eq.trans (by decide +kernel) hpublished
  subst hmore
  exact ⟨tasks, _, _, _, h, hon _, hpublished, hreceived⟩

/-- **Dispatches are received.** On a broker that does what is documented, whatever else clients do that is
proper: what a call of `outgoing` publishes after the default queue has been declared has been given to
this queue in the order of publication, and it is one message for each dispatch of the call. -/
theorem dispatches_received {D : Amqp.Broker (List UInt8)} (hD : D.Lawful) {T : Type} {J : Json T V}
    {P : PayloadJson V} {cfg : Config} {botId : Id .user} (hP : P.Lawful) (hwrite : P.Rewrites)
    {events : List Received} {s s' : Redis.Store T} {log : List (Issue T)} {o : Outgoing T V}
    (hrun : Outgoing.Run J P cfg botId (.start events) s log o s') (hfin : o.finished = true)
    {tasks tasks' : List BrokerClient} {b₀ b b' : D.State} (hb₀ : Agreed D b₀)
    (h : Reached D.exec (Uses P) b₀ tasks b) {r : Except Amqp.Error Unit}
    (hr : .ret (some (true, r)) ∈ tasks)
    (hon : Onward D.exec (Uses P)
      (tasks ++ [publishAll (o.sent.map Prod.snd) >>= fun _ => .ret none]) b tasks' b')
    (ha : tasks'[tasks.length]? = some (.ret none)) :
    ∃ given messages, D.received b' QUEUE_RECV = D.received b QUEUE_RECV ++ given ∧
      (o.published.map fun message => message.2.2).Sublist given ∧ o.published.Perm messages ∧
      List.Forall₂ (Carries P) (events.filterMap (Received.dispatch P)) messages := by
  obtain ⟨messages, hperm, hcarries⟩ := hrun.carries_published hP hwrite hfin
  obtain ⟨hb, hmeets⟩ := Uses.reached hD hb₀ h
  obtain ⟨i, hi⟩ := List.mem_iff_getElem?.mp hr
  obtain ⟨-, hfeeds⟩ := hmeets.of_ret hi true r rfl
  obtain ⟨⟨x, hx, -⟩, -⟩ := hfeeds rfl
  have hexchange : HasExchange D b := hx.trans (congrArg some (hb.exchange x hx))
  have hnew : ∀ effect ∈ o.sent.map Prod.snd, ∀ message, effect.message = some message →
      message.1 = EXCHANGE := by
    intro effect he message hm
    obtain ⟨entry, hentry, rfl⟩ := List.mem_map.mp he
    obtain ⟨item, -, hreports⟩ := hrun.reports hentry
    exact hreports.exchange hm
  -- the call is the program after those that have been started before
  have hcall : Meets D.exec (Onwards D) Proper (fun i => if i = tasks.length then
      fun _ b' => PublishedSince D (o.sent.map Prod.snd) b b' else Declared D)
      (tasks ++ [publishAll (o.sent.map Prod.snd) >>= fun _ => .ret none]) b := by
    refine Meets.start (fun j p hj => ?_) ?_
    · rw [if_neg (List.getElem?_eq_some_iff.mp hj).1.ne]
      exact hmeets j p hj
    · rw [if_pos rfl]
      refine Wp.bind (Wp.mono (wp_publishAll hD hnew b hb) (fun _ _ h => h)
        fun _ b₁ hpost b₂ h₂ => ?_)
      exact (hpost hexchange).onwards h₂
  obtain ⟨hrely, hmeets'⟩ := Uses.sound hD (fun j hj => if_neg (by
    rw [List.length_append, List.length_singleton] at hj
    omega)) hon hb hcall
  have hsince := hmeets'.of_ret ha
  rw [if_pos rfl] at hsince
  obtain ⟨more, hmore, hsub⟩ := hsince
  obtain ⟨more', hmore', hreceived⟩ := (hrely.feeds (hfeeds rfl)).2
  obtain rfl := List.append_cancel_left (hmore.symm.trans hmore')
  refine ⟨_, messages, hreceived, ?_, hperm, hcarries⟩
  have hbodies : bodies (o.sent.map Prod.snd) = o.published.map fun message => message.2.2 := by
    unfold bodies Outgoing.published
    rw [List.filterMap_map, List.map_filterMap]
    rfl
  exact hbodies ▸ hsub

/-- The update of a role is published and received. -/
theorem dispatches_received_role : ∃ (o : Outgoing Item String) (b b' : Amqp.Memory (List UInt8))
    (given : List (List UInt8)) (messages : List (String × String × List UInt8)), o.finished = true ∧
      b'.received QUEUE_RECV = b.received QUEUE_RECV ++ given ∧
      (o.published.map fun message => message.2.2).Sublist given ∧ o.published.Perm messages ∧
      List.Forall₂ (Carries .roles) [rolePayload none] messages := by
  obtain ⟨log, o, s', hrun, hfin⟩ := (Outgoing.Run.refl (.start roleDispatch) Redis.Store.empty :
    Outgoing.Run Json.roles .roles .full (.of 9) _ _ _ _ _).completes
  have hstart : Reached Amqp.Memory.exec (Uses PayloadJson.roles) .empty [_] .empty :=
    Reached.init.start (.declareQueues true)
  obtain ⟨tasks, h, hr⟩ := hstart.returns (List.getElem?_cons_zero ..)
  rw [Prog.run_bind] at h hr
  have hrefl (b : Amqp.Memory (List UInt8)) : Onward Amqp.Memory.exec (Uses PayloadJson.roles)
      (tasks ++ [publishAll (o.sent.map Prod.snd) >>= fun _ => .ret none]) b _ b := .refl
  obtain ⟨tasks', hon, ha⟩ := (hrefl _).returns List.getElem?_concat_length
  rw [Prog.run_bind] at ha
  have hreceived := dispatches_received Amqp.Memory.broker_lawful PayloadJson.roles_lawful
    PayloadJson.roles_rewrites hrun hfin agreed_empty h hr hon ha
  rw [dispatch_roleDispatch] at hreceived
  obtain ⟨given, messages, hgiven⟩ := hreceived
  simp only [Amqp.Memory.broker] at hgiven
  exact ⟨o, _, _, given, messages, hfin, hgiven⟩

end TwilightDispatch
