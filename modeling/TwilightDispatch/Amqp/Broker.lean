import TwilightDispatch.Atomic.Onward

/-!
# Message brokers

Exchanges, queues and the bindings between them, as the clients of a broker declare, use and delete them.
What a broker does with a command is left open (`Broker`), and what its documentation says of it are the
laws that are relied on (`Broker.Lawful`): a declaration of what is there already succeeds if it asks for
the same, a message is put once into every queue to which a binding of its exchange leads, and nothing
changes but what a command names. Consumers are left out: what a queue has received is what has been put
into it, whoever takes it out.

A queue that is bound to a topic exchange by `#`, and by nothing else, is given all that is published to
the exchange (`Broker.Feeds`), until a client sends one of the commands that take this back
(`Cmd.Leaves`).
-/

namespace Amqp

open Atomic

/-! ## Routing -/

/-- Whether words fit the words of a pattern, in which `*` stands for a word and `#` for any number. -/
def fits : List String → List String → Bool
  | [], words => words.isEmpty
  | p :: pattern, words =>
    if p = "#" then words.tails.any (fits pattern)
    else match words with
      | [] => false
      | word :: words => (p = "*" || p = word) && fits pattern words

/-- The words of a routing key. -/
def words (key : String) : List String := (key.toList.splitOn '.').map String.ofList

/-- Everything fits `#`. -/
theorem fits_hash (key : String) : fits (words "#") (words key) = true := by
  have hwords : words "#" = ["#"] := by decide +kernel
  rw [hwords]
  unfold fits
  rw [if_pos rfl, List.any_eq_true]
  exact ⟨[], (List.mem_tails _ _).mpr List.nil_suffix, rfl⟩

inductive ExchangeKind where
  | direct
  | fanout
  | topic
  deriving DecidableEq

/-- Whether a message with a routing key takes a binding with another. -/
def ExchangeKind.routes (kind : ExchangeKind) (binding key : String) : Bool :=
  match kind with
  | direct => binding = key
  | fanout => true
  | topic => fits (words binding) (words key)

/-! ## Declarations -/

structure ExchangeDeclareOptions where
  passive : Bool
  durable : Bool
  autoDelete : Bool
  internal : Bool
  nowait : Bool
  deriving DecidableEq

structure QueueDeclareOptions where
  passive : Bool
  durable : Bool
  exclusive : Bool
  autoDelete : Bool
  nowait : Bool
  deriving DecidableEq

/-- The further arguments of a declaration. -/
abbrev FieldTable := List (String × String)

/-- An exchange that has been declared. -/
structure Exchange where
  kind : ExchangeKind
  durable : Bool
  autoDelete : Bool
  internal : Bool
  arguments : FieldTable
  deriving DecidableEq

/-- A queue that has been declared. -/
structure Queue where
  durable : Bool
  exclusive : Bool
  autoDelete : Bool
  arguments : FieldTable
  deriving DecidableEq

def ExchangeDeclareOptions.exchange (kind : ExchangeKind) (options : ExchangeDeclareOptions)
    (arguments : FieldTable) : Exchange :=
  ⟨kind, options.durable, options.autoDelete, options.internal, arguments⟩

def QueueDeclareOptions.queue (options : QueueDeclareOptions) (arguments : FieldTable) : Queue :=
  ⟨options.durable, options.exclusive, options.autoDelete, arguments⟩

/-- Whether the broker keeps the name for itself. -/
def reserved (name : String) : Bool := name = "" || name.toList.take 4 = ['a', 'm', 'q', '.']

structure Binding where
  queue : String
  exchange : String
  routingKey : String
  deriving DecidableEq

/-- A message, as it is published. None names further routing keys in its headers. -/
structure Message (M : Type) where
  exchange : String
  routingKey : String
  body : M
  deriving DecidableEq

/-- The errors with which a channel is closed. -/
inductive Error where
  | notFound
  | preconditionFailed
  | accessRefused
  | notImplemented
  deriving DecidableEq

/-- The commands, with the names that the broker fills in where a client leaves them out. Names and
routing keys are not longer than the protocol has them. -/
inductive Cmd (M : Type) where
  | exchangeDeclare (exchange : String) (kind : ExchangeKind) (options : ExchangeDeclareOptions)
    (arguments : FieldTable)
  | exchangeDelete (exchange : String)
  | exchangeBind (destination source routingKey : String)
  | exchangeUnbind (destination source routingKey : String)
  | queueDeclare (queue : String) (options : QueueDeclareOptions) (arguments : FieldTable)
  | queueBind (binding : Binding)
  | queueUnbind (binding : Binding)
  | queuePurge (queue : String)
  | queueDelete (queue : String)
  | publish (message : Message M)

@[reducible] def interface (M : Type) : Interface where
  Cmd := Cmd M
  Reply _ := Except Error Unit

/-! ## Brokers -/

/-- A broker, with what is seen of its state. -/
structure Broker (M : Type) where
  State : Type
  exec : Exec (interface M) State
  exchange : State → String → Option Exchange
  queue : State → String → Option Queue
  bound : State → Binding → Prop
  /-- Messages are passed on to the exchange by another one, or by a queue that drops them. -/
  linked : State → String → Prop
  /-- All messages that have been taken. -/
  published : State → List (Message M)
  /-- The messages that have been put into a queue since it was last purged or declared. -/
  received : State → String → List M

variable {M : Type}

/-- The command lets messages be passed on to the exchange. -/
def Cmd.Links (e : String) : Cmd M → Prop
  | .exchangeDeclare _ _ _ arguments => arguments.lookup "alternate-exchange" = some e
  | .exchangeBind destination _ _ => destination = e
  | .queueDeclare _ _ arguments => arguments.lookup "x-dead-letter-exchange" = some e
  | _ => False

namespace Broker

variable {D : Broker M}

/-- A message leads to a queue. The default exchange leads to the queue that the routing key names. -/
def Routes (D : Broker M) (b : D.State) (message : Message M) (queue : String) : Prop :=
  if message.exchange = "" then message.routingKey = queue
  else ∃ binding x, D.bound b binding ∧ binding.queue = queue ∧ binding.exchange = message.exchange ∧
    D.exchange b message.exchange = some x ∧ x.kind.routes binding.routingKey message.routingKey = true

/-- What is documented of a broker. -/
structure Lawful (D : Broker M) : Prop where
  /-- An exchange is declared if there is none by its name, or the same. -/
  exchangeDeclare : ∀ (b : D.State) name kind options, reserved name = false →
    options.passive = false →
    (∀ x, D.exchange b name = some x → x = options.exchange kind []) →
    (D.exec (.exchangeDeclare name kind options []) b).1 = .ok () ∧
      D.exchange (D.exec (.exchangeDeclare name kind options []) b).2 name =
        some (options.exchange kind [])
  /-- A queue is declared if there is none by its name, or the same. One that belongs to a connection is
  locked for others. -/
  queueDeclare : ∀ (b : D.State) name options, reserved name = false → options.passive = false →
    options.exclusive = false → (∀ x, D.queue b name = some x → x = options.queue []) →
    (D.exec (.queueDeclare name options []) b).1 = .ok () ∧
      D.queue (D.exec (.queueDeclare name options []) b).2 name = some (options.queue [])
  /-- A queue that is there is bound to an exchange that is there. -/
  queueBind : ∀ (b : D.State) binding x, D.queue b binding.queue = some x → x.exclusive = false →
    binding.exchange ≠ "" → D.exchange b binding.exchange ≠ none → (D.exec (.queueBind binding) b).1 = .ok () ∧
      D.bound (D.exec (.queueBind binding) b).2 binding
  /-- An exchange takes the messages of clients, unless it is internal. -/
  publish : ∀ (b : D.State) message x, message.exchange ≠ "" →
    D.exchange b message.exchange = some x → x.internal = false →
    D.published (D.exec (.publish message) b).2 = D.published b ++ [message]
  /-- A message that is not taken changes nothing. -/
  refused : ∀ (b : D.State) message,
    D.published (D.exec (.publish message) b).2 = D.published b ++ [message] ∨
      D.published (D.exec (.publish message) b).2 = D.published b ∧
        ∀ q, D.received (D.exec (.publish message) b).2 q = D.received b q
  /-- A message is put once into every queue to which it leads, and otherwise only into those to whose
  exchanges, or to the default exchange, messages are passed on. The arguments of a queue can limit what
  is put into it. -/
  received : ∀ (b : D.State) message q x,
    D.published (D.exec (.publish message) b).2 = D.published b ++ [message] →
    D.queue b q = some x → x.arguments = [] →
    (∀ binding, D.bound b binding → binding.queue = q → ¬ D.linked b binding.exchange) →
    ¬ D.linked b "" →
    (D.Routes b message q →
      D.received (D.exec (.publish message) b).2 q = D.received b q ++ [message.body]) ∧
    (¬ D.Routes b message q → D.received (D.exec (.publish message) b).2 q = D.received b q)
  /-- An exchange stays until it is deleted. -/
  exchange_stays : ∀ (b : D.State) c e x, D.exchange b e = some x → x.autoDelete = false →
    c ≠ .exchangeDelete e → D.exchange (D.exec c b).2 e = some x
  exchange_new : ∀ (b : D.State) c e x, D.exchange (D.exec c b).2 e = some x →
    D.exchange b e = some x ∨ ∃ kind options arguments,
      c = .exchangeDeclare e kind options arguments ∧ x = options.exchange kind arguments
  /-- A queue stays until it is deleted, unless it belongs to a connection or to its consumers, or its
  arguments say otherwise. -/
  queue_stays : ∀ (b : D.State) c q x, D.queue b q = some x → x.autoDelete = false →
    x.exclusive = false → x.arguments = [] → c ≠ .queueDelete q → D.queue (D.exec c b).2 q = some x
  queue_new : ∀ (b : D.State) c q x, D.queue (D.exec c b).2 q = some x →
    D.queue b q = some x ∨ ∃ options arguments,
      c = .queueDeclare q options arguments ∧ x = options.queue arguments
  /-- A binding stays while its queue and its exchange do, until it is undone. -/
  bound_stays : ∀ (b : D.State) c binding, D.bound b binding →
    D.queue (D.exec c b).2 binding.queue ≠ none → D.exchange (D.exec c b).2 binding.exchange ≠ none →
    c ≠ .queueUnbind binding → D.bound (D.exec c b).2 binding
  bound_new : ∀ (b : D.State) c binding, D.bound (D.exec c b).2 binding →
    D.bound b binding ∨ c = .queueBind binding
  linked_new : ∀ (b : D.State) c e, D.linked (D.exec c b).2 e → D.linked b e ∨ c.Links e
  /-- Other commands than publications take no message and put none into a queue. -/
  published_stays : ∀ (b : D.State) c, (∀ message, c ≠ .publish message) →
    D.published (D.exec c b).2 = D.published b
  received_stays : ∀ (b : D.State) c q, (∀ message, c ≠ .publish message) → c ≠ .queuePurge q →
    c ≠ .queueDelete q → D.received (D.exec c b).2 q = D.received b q

theorem Lawful.published_prefix (hD : D.Lawful) (c : Cmd M) (b : D.State) :
    D.published b <+: D.published (D.exec c b).2 := by
  by_cases hc : ∃ message, c = .publish message
  · obtain ⟨message, rfl⟩ := hc
    rcases hD.refused b message with h | ⟨h, -⟩
    · exact h ▸ List.prefix_append _ _
    · exact h ▸ List.prefix_rfl
  · exact hD.published_stays b c (not_exists.mp hc) ▸ List.prefix_rfl

/-! ## Queues that are fed -/

/-- The queue is bound to the exchange by `#` and to nothing else, and nothing is passed on to the
exchange or to the default one. -/
structure Feeds (D : Broker M) (e q : String) (b : D.State) : Prop where
  exchange : ∃ x, D.exchange b e = some x ∧ x.kind = .topic ∧ x.autoDelete = false
  queue : ∃ x, D.queue b q = some x ∧ x.autoDelete = false ∧ x.exclusive = false ∧ x.arguments = []
  bound : D.bound b ⟨q, e, "#"⟩
  only : ∀ binding, D.bound b binding → binding.queue = q → binding = ⟨q, e, "#"⟩
  unlinked : ¬ D.linked b e
  unlinked_default : ¬ D.linked b ""

/-- The queue has been given all that has been published to the exchange in the meantime, in order. -/
def Fed (D : Broker M) (e q : String) (b b' : D.State) : Prop :=
  ∃ more, D.published b' = D.published b ++ more ∧
    D.received b' q = D.received b q ++ (more.filter (·.exchange = e)).map Message.body

variable {b b' b'' : D.State} {e q : String}

theorem Fed.of_eq (hp : D.published b' = D.published b) (hr : D.received b' q = D.received b q) :
    D.Fed e q b b' := ⟨[], hp.trans (List.append_nil _).symm, hr.trans (List.append_nil _).symm⟩

theorem Fed.trans (h : D.Fed e q b b') (h' : D.Fed e q b' b'') : D.Fed e q b b'' := by
  obtain ⟨more, hp, hr⟩ := h
  obtain ⟨more', hp', hr'⟩ := h'
  refine ⟨more ++ more', by rw [hp', hp, List.append_assoc], ?_⟩
  rw [hr', hr, List.filter_append, List.map_append, List.append_assoc]

end Broker

/-- The command does not take back that the exchange feeds the queue: it deletes neither of them, does not
undo their binding and lets nothing else lead to the queue, neither by another binding or a link nor by its
name. -/
def Cmd.Leaves (e q : String) (c : Cmd M) : Prop :=
  ¬ c.Links e ∧ ¬ c.Links "" ∧ match c with
    | .exchangeDelete exchange => exchange ≠ e
    | .queueBind binding => binding.queue = q → binding = ⟨q, e, "#"⟩
    | .queueUnbind binding => binding ≠ ⟨q, e, "#"⟩
    | .queuePurge queue => queue ≠ q
    | .queueDelete queue => queue ≠ q
    | .publish message => message.exchange = "" → message.routingKey ≠ q
    | _ => True

namespace Broker

variable {D : Broker M} {b b' : D.State} {e q : String}

theorem Feeds.routes (h : D.Feeds e q b) (he : e ≠ "") {message : Message M}
    (hm : message.exchange = "" → message.routingKey ≠ q) :
    D.Routes b message q ↔ message.exchange = e := by
  obtain ⟨x, hx, hkind, -⟩ := h.exchange
  unfold Routes
  split_ifs with hdefault
  · exact iff_of_false (hm hdefault) fun heq => he (heq.symm.trans hdefault)
  constructor
  · rintro ⟨binding, -, hbound, hq, hexchange, -⟩
    rw [← hexchange, h.only binding hbound hq]
  · rintro rfl
    refine ⟨_, x, h.bound, rfl, rfl, hx, ?_⟩
    rw [hkind]
    exact fits_hash message.routingKey

theorem Feeds.fed_publish (hD : D.Lawful) (h : D.Feeds e q b) (he : e ≠ "") {message : Message M}
    (hm : message.exchange = "" → message.routingKey ≠ q) :
    D.Fed e q b (D.exec (.publish message) b).2 := by
  rcases hD.refused b message with htaken | ⟨hp, hr⟩
  · obtain ⟨x, hx, -, -, harguments⟩ := h.queue
    have hunlinked : ∀ binding, D.bound b binding → binding.queue = q →
        ¬ D.linked b binding.exchange := by
      intro binding hbound hq
      rw [h.only binding hbound hq]
      exact h.unlinked
    obtain ⟨hput, hskip⟩ :=
      hD.received b message q x htaken hx harguments hunlinked h.unlinked_default
    refine ⟨[message], htaken, ?_⟩
    by_cases hme : message.exchange = e
    · rw [hput ((h.routes he hm).mpr hme)]
      simp [hme]
    · rw [hskip (mt (h.routes he hm).mp hme)]
      simp [hme]
  · exact .of_eq hp (hr q)

/-- A command that leaves the queue to its binding. -/
theorem Feeds.exec (hD : D.Lawful) (h : D.Feeds e q b) (he : e ≠ "") {c : Cmd M} (hc : c.Leaves e q) :
    D.Feeds e q (D.exec c b).2 ∧ D.Fed e q b (D.exec c b).2 := by
  obtain ⟨hlinks, hdefault, hc⟩ := hc
  obtain ⟨x, hx, hkind, hauto⟩ := h.exchange
  obtain ⟨y, hy, hyauto, hexclusive, harguments⟩ := h.queue
  have hx' : D.exchange (D.exec c b).2 e = some x :=
    hD.exchange_stays b c e x hx hauto (by rintro rfl; exact hc rfl)
  have hy' : D.queue (D.exec c b).2 q = some y :=
    hD.queue_stays b c q y hy hyauto hexclusive harguments (by rintro rfl; exact hc rfl)
  refine ⟨⟨⟨x, hx', hkind, hauto⟩, ⟨y, hy', hyauto, hexclusive, harguments⟩, ?_, ?_, ?_, ?_⟩, ?_⟩
  · refine hD.bound_stays b c _ h.bound ?_ ?_ (by rintro rfl; exact hc rfl)
    · exact Option.ne_none_iff_exists'.mpr ⟨y, hy'⟩
    · exact Option.ne_none_iff_exists'.mpr ⟨x, hx'⟩
  · intro binding hbound hq
    rcases hD.bound_new b c binding hbound with hbound | rfl
    · exact h.only binding hbound hq
    · exact hc hq
  · intro hlinked
    exact (hD.linked_new b c e hlinked).elim h.unlinked hlinks
  · intro hlinked
    exact (hD.linked_new b c "" hlinked).elim h.unlinked_default hdefault
  · by_cases hpublish : ∃ message, c = .publish message
    · obtain ⟨message, rfl⟩ := hpublish
      exact h.fed_publish hD he hc
    · have hne := not_exists.mp hpublish
      refine .of_eq (hD.published_stays b c hne) (hD.received_stays b c q hne ?_ ?_)
      · rintro rfl
        exact hc rfl
      · rintro rfl
        exact hc rfl

end Broker

end Amqp
