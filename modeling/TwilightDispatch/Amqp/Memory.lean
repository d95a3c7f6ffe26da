import TwilightDispatch.Amqp.Broker

/-!
# A broker in memory

A broker that can be run. It has no arguments of declarations and no bindings between exchanges, and what
it does with the other commands is as documented (`Memory.broker_lawful`).
-/

namespace Amqp

open Atomic

variable {M : Type}

/-- What the broker keeps. -/
structure Memory (M : Type) where
  exchanges : String → Option Exchange
  queues : String → Option Queue
  bindings : List Binding
  published : List (Message M)
  received : String → List M

namespace Memory

def empty : Memory M := ⟨fun _ => none, fun _ => none, [], [], fun _ => []⟩

/-- Whether a message is put into a queue. -/
def routes (b : Memory M) (message : Message M) (queue : String) : Bool :=
  (b.queues queue).isSome &&
    if message.exchange = "" then message.routingKey = queue
    else b.bindings.any fun binding =>
      binding.queue = queue && binding.exchange = message.exchange &&
        (b.exchanges message.exchange).any fun e =>
          e.kind.routes binding.routingKey message.routingKey

def deliver (b : Memory M) (message : Message M) : Memory M :=
  { b with
    published := b.published ++ [message]
    received := fun queue =>
      if b.routes message queue then b.received queue ++ [message.body] else b.received queue }

def exec : Exec (interface M) (Memory M)
  | .exchangeDeclare name kind options arguments, b =>
    match b.exchanges name with
    | none =>
      if options.passive then (.error .notFound, b)
      else if reserved name then (.error .accessRefused, b)
      else if arguments ≠ [] then (.error .notImplemented, b)
      else (.ok (), { b with
        exchanges := Function.update b.exchanges name (some (options.exchange kind arguments)) })
    | some e =>
      if options.passive || e = options.exchange kind arguments then (.ok (), b)
      else (.error .preconditionFailed, b)
  | .exchangeDelete name, b =>
    (.ok (), { b with
      exchanges := Function.update b.exchanges name none
      bindings := b.bindings.filter (·.exchange ≠ name) })
  | .exchangeBind _ _ _, b | .exchangeUnbind _ _ _, b => (.error .notImplemented, b)
  | .queueDeclare name options arguments, b =>
    match b.queues name with
    | none =>
      if options.passive then (.error .notFound, b)
      else if reserved name then (.error .accessRefused, b)
      else if arguments ≠ [] then (.error .notImplemented, b)
      else (.ok (), { b with
        queues := Function.update b.queues name (some (options.queue arguments)) })
    | some q =>
      if options.passive || q = options.queue arguments then (.ok (), b)
      else (.error .preconditionFailed, b)
  | .queueBind binding, b =>
    if (b.queues binding.queue).isSome && (b.exchanges binding.exchange).isSome then
      (.ok (), { b with bindings := b.bindings.insert binding })
    else (.error .notFound, b)
  | .queueUnbind binding, b => (.ok (), { b with bindings := b.bindings.filter (· ≠ binding) })
  | .queuePurge name, b => (.ok (), { b with received := Function.update b.received name [] })
  | .queueDelete name, b =>
    (.ok (), { b with
      queues := Function.update b.queues name none
      bindings := b.bindings.filter (·.queue ≠ name)
      received := Function.update b.received name [] })
  | .publish message, b =>
    if message.exchange = "" then (.ok (), b.deliver message)
    else match b.exchanges message.exchange with
      | none => (.error .notFound, b)
      | some e => if e.internal then (.error .accessRefused, b) else (.ok (), b.deliver message)

def broker (M : Type) : Broker M where
  State := Memory M
  exec := exec
  exchange := exchanges
  queue := queues
  bound b binding := binding ∈ b.bindings
  linked _ _ := False
  published := published
  received := received

section Lawful

variable {b : Memory M} {c : Cmd M}

theorem exchanges_exec (e : String) : (exec c b).2.exchanges e = b.exchanges e ∨
    (∃ kind options arguments, c = .exchangeDeclare e kind options arguments ∧ b.exchanges e = none ∧
      (exec c b).2.exchanges e = some (options.exchange kind arguments)) ∨
    c = .exchangeDelete e ∧ (exec c b).2.exchanges e = none := by
  cases c with
  | exchangeDeclare name kind options arguments =>
    simp only [exec]
    rcases hx : b.exchanges name with _ | x
    · simp only
      split_ifs
      · exact .inl rfl
      · exact .inl rfl
      · exact .inl rfl
      · by_cases he : e = name
        · subst he
          exact .inr (.inl ⟨kind, options, arguments, rfl, hx, Function.update_self ..⟩)
        · exact .inl (Function.update_of_ne he ..)
    · simp only
      split_ifs <;> exact .inl rfl
  | exchangeDelete name =>
    by_cases he : e = name
    · subst he
      exact .inr (.inr ⟨rfl, Function.update_self ..⟩)
    · exact .inl (Function.update_of_ne he ..)
  | _ =>
    refine .inl ?_
    simp only [exec]
    repeat' split
    all_goals rfl

theorem queues_exec (q : String) : (exec c b).2.queues q = b.queues q ∨
    (∃ options arguments, c = .queueDeclare q options arguments ∧ b.queues q = none ∧
      (exec c b).2.queues q = some (options.queue arguments)) ∨
    c = .queueDelete q ∧ (exec c b).2.queues q = none := by
  cases c with
  | queueDeclare name options arguments =>
    simp only [exec]
    rcases hx : b.queues name with _ | x
    · simp only
      split_ifs
      · exact .inl rfl
      · exact .inl rfl
      · exact .inl rfl
      · by_cases hq : q = name
        · subst hq
          exact .inr (.inl ⟨options, arguments, rfl, hx, Function.update_self ..⟩)
        · exact .inl (Function.update_of_ne hq ..)
    · simp only
      split_ifs <;> exact .inl rfl
  | queueDelete name =>
    by_cases hq : q = name
    · subst hq
      exact .inr (.inr ⟨rfl, Function.update_self ..⟩)
    · exact .inl (Function.update_of_ne hq ..)
  | _ =>
    refine .inl ?_
    simp only [exec]
    repeat' split
    all_goals rfl

theorem mem_bindings_exec {binding : Binding} (h : binding ∈ (exec c b).2.bindings) :
    binding ∈ b.bindings ∨ c = .queueBind binding := by
  cases c with
  | queueBind binding' =>
    simp only [exec] at h
    split_ifs at h
    · rcases List.mem_insert_iff.mp h with rfl | h
      · exact .inr rfl
      · exact .inl h
    · exact .inl h
  | exchangeDelete | queueUnbind | queueDelete => exact .inl (List.mem_of_mem_filter h)
  | _ =>
    simp only [exec] at h
    repeat' split at h
    all_goals exact .inl h

theorem mem_bindings_of_stays {binding : Binding} (h : binding ∈ b.bindings)
    (hqueue : (exec c b).2.queues binding.queue ≠ none)
    (hexchange : (exec c b).2.exchanges binding.exchange ≠ none) (hc : c ≠ .queueUnbind binding) :
    binding ∈ (exec c b).2.bindings := by
  cases c with
  | queueBind binding' =>
    simp only [exec]
    split_ifs
    · exact List.mem_insert_of_mem h
    · exact h
  | exchangeDelete name =>
    refine List.mem_filter.mpr ⟨h, decide_eq_true fun heq => hexchange ?_⟩
    rw [heq]
    exact Function.update_self ..
  | queueDelete name =>
    refine List.mem_filter.mpr ⟨h, decide_eq_true fun heq => hqueue ?_⟩
    rw [heq]
    exact Function.update_self ..
  | queueUnbind binding' =>
    exact List.mem_filter.mpr ⟨h, decide_eq_true fun heq => hc (heq ▸ rfl)⟩
  | _ =>
    simp only [exec]
    repeat' split
    all_goals exact h

theorem exec_queueBind {binding : Binding} (hqueue : b.queues binding.queue ≠ none)
    (hexchange : b.exchanges binding.exchange ≠ none) :
    (exec (.queueBind binding) b).1 = .ok () ∧ binding ∈ (exec (.queueBind binding) b).2.bindings := by
  simp only [exec, Option.isSome_iff_ne_none.mpr hqueue, Option.isSome_iff_ne_none.mpr hexchange,
    Bool.and_self, if_true]
  exact ⟨trivial, List.mem_insert_self⟩

theorem exec_publish (message : Message M) : (exec (.publish message) b).2 = b.deliver message ∨
    (exec (.publish message) b).2 = b := by
  simp only [exec]
  repeat' split
  all_goals first | exact .inl rfl | exact .inr rfl

theorem routes_iff {message : Message M} {q : String} (hq : b.queues q ≠ none) :
    b.routes message q = true ↔ (broker M).Routes b message q := by
  have hq : (b.queues q).isSome = true := Option.isSome_iff_ne_none.mpr hq
  unfold routes Broker.Routes
  rw [hq, Bool.true_and]
  split_ifs with hdefault
  · exact decide_eq_true_iff
  rw [List.any_eq_true]
  constructor
  · rintro ⟨binding, hmem, h⟩
    simp only [Bool.and_eq_true, decide_eq_true_eq, Option.any_eq_true] at h
    obtain ⟨⟨hqueue, hexchange⟩, x, hx, hroutes⟩ := h
    exact ⟨binding, x, hmem, hqueue, hexchange, hx, hroutes⟩
  · rintro ⟨binding, x, hmem, hqueue, hexchange, hx, hroutes⟩
    refine ⟨binding, hmem, ?_⟩
    have hx : b.exchanges message.exchange = some x := hx
    simp [hqueue, hexchange, hx, hroutes]

/-- What the broker does is as documented. -/
theorem broker_lawful : (broker M).Lawful where
  exchangeDeclare b name kind options hname hpassive h := by
    simp only [broker, exec] at h ⊢
    rcases hx : b.exchanges name with _ | x
    · simp [hpassive, hname]
    · obtain rfl := h x hx
      simp [hx]
  queueDeclare b name options hname hpassive _ h := by
    simp only [broker, exec] at h ⊢
    rcases hx : b.queues name with _ | x
    · simp [hpassive, hname]
    · obtain rfl := h x hx
      simp [hx]
  queueBind _ _ _ hqueue _ _ := exec_queueBind (Option.ne_none_iff_exists'.mpr ⟨_, hqueue⟩)
  publish b message x hname hx hinternal := by
    have hx : b.exchanges message.exchange = some x := hx
    simp only [broker, exec, if_neg hname, hx, hinternal, Bool.false_eq_true, if_false]
    rfl
  refused b message := by
    rcases exec_publish (b := b) message with h | h
    · exact .inl (congrArg published h)
    · exact .inr ⟨congrArg published h, fun q => congrArg (received · q) h⟩
  received b message q x htaken hx _ _ _ := by
    have hdeliver : (exec (.publish message) b).2 = b.deliver message := by
      refine (exec_publish message).resolve_right fun h => ?_
      have hsame : b.published = b.published ++ [message] := (congrArg published h).symm.trans htaken
      exact absurd (congrArg List.length hsame) (by simp)
    have hreceived : (exec (.publish message) b).2.received q =
        if b.routes message q then b.received q ++ [message.body] else b.received q :=
      congrArg (received · q) hdeliver
    have hroutes : b.routes message q = true ↔ (broker M).Routes b message q :=
      routes_iff (Option.ne_none_iff_exists'.mpr ⟨x, hx⟩)
    exact ⟨fun h => hreceived.trans (if_pos (hroutes.mpr h)),
      fun h => hreceived.trans (if_neg (mt hroutes.mp h))⟩
  exchange_stays b c e x hx _ hc := by
    rcases exchanges_exec (c := c) (b := b) e with h | ⟨_, _, _, -, hnone, -⟩ | ⟨rfl, -⟩
    · exact h.trans hx
    · exact absurd (hnone.symm.trans hx) (by simp)
    · exact absurd rfl hc
  exchange_new b c e x hx := by
    rcases exchanges_exec (c := c) (b := b) e with h | ⟨kind, options, arguments, hc, -, h⟩ | ⟨-, h⟩
    · exact .inl (h.symm.trans hx)
    · exact .inr ⟨kind, options, arguments, hc, Option.some.inj (hx.symm.trans h)⟩
    · exact absurd (h.symm.trans hx) (by simp)
  queue_stays b c q x hx _ _ _ hc := by
    rcases queues_exec (c := c) (b := b) q with h | ⟨_, _, -, hnone, -⟩ | ⟨rfl, -⟩
    · exact h.trans hx
    · exact absurd (hnone.symm.trans hx) (by simp)
    · exact absurd rfl hc
  queue_new b c q x hx := by
    rcases queues_exec (c := c) (b := b) q with h | ⟨options, arguments, hc, -, h⟩ | ⟨-, h⟩
    · exact .inl (h.symm.trans hx)
    · exact .inr ⟨options, arguments, hc, Option.some.inj (hx.symm.trans h)⟩
    · exact absurd (h.symm.trans hx) (by simp)
  bound_stays _ _ _ := mem_bindings_of_stays
  bound_new _ _ _ := mem_bindings_exec
  linked_new _ _ _ h := h.elim
  published_stays b c hc := by
    cases c with
    | publish message => exact absurd rfl (hc message)
    | _ =>
      simp only [broker, exec]
      repeat' split
      all_goals rfl
  received_stays b c q hc hpurge hdelete := by
    cases c with
    | publish message => exact absurd rfl (hc message)
    | queuePurge name => exact Function.update_of_ne (fun h => hpurge (by rw [h])) ..
    | queueDelete name => exact Function.update_of_ne (fun h => hdelete (by rw [h])) ..
    | _ =>
      simp only [broker, exec]
      repeat' split
      all_goals rfl

end Lawful

end Memory

end Amqp
