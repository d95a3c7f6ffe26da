import TwilightDispatch.Enabled
import TwilightDispatch.OldValue

/-!
# Messages

Updates of a message are merged into the cached message field by field, so of several updates each field
has the value that the last one to carry it gives it (`messageUpdates_compose`). Deleting messages in
bulk leaves what deleting them one by one leaves, in any order (`bulk_deletes`).
-/

namespace TwilightDispatch

open Atomic Redis

variable {T V α : Type} {J : Json T V} {cfg : Config} {botId : Id .user} {s : Store T}
  {c : Id .channel} {m : Id .message} {message : Message}

/-! ## Merging -/

/-- The last value that the updates carry for a field. -/
def lastCarried (field : MessageUpdate → Option α) (updates : List MessageUpdate) : Option α :=
  (updates.filterMap field).getLast?

/-- The update that carries for every field the last value carried. -/
def MessageUpdate.combined (m : Id .message) (c : Id .channel) (updates : List MessageUpdate) :
    MessageUpdate where
  id := m
  channelId := c
  attachments := lastCarried (·.attachments) updates
  content := lastCarried (·.content) updates
  editedTimestamp := lastCarried (·.editedTimestamp) updates
  embeds := lastCarried (·.embeds) updates
  mentionEveryone := lastCarried (·.mentionEveryone) updates
  mentionRoles := lastCarried (·.mentionRoles) updates
  mentions := lastCarried (·.mentions) updates
  pinned := lastCarried (·.pinned) updates
  timestamp := lastCarried (·.timestamp) updates
  tts := lastCarried (·.tts) updates

@[simp] theorem lastCarried_nil (field : MessageUpdate → Option α) : lastCarried field [] = none := rfl

@[simp] theorem lastCarried_append (field : MessageUpdate → Option α) (updates : List MessageUpdate)
    (data : MessageUpdate) :
    lastCarried field (updates ++ [data]) = (field data).or (lastCarried field updates) := by
  unfold lastCarried
  rw [List.filterMap_append, List.getLast?_append]
  cases h : field data <;> simp [h]

/-- Merging updates one after another is merging their combination. -/
theorem foldl_merge (m : Id .message) (c : Id .channel) (updates : List MessageUpdate)
    (message : Message) :
    updates.foldl (fun message data => data.merge message) message =
      (MessageUpdate.combined m c updates).merge message := by
  induction updates using List.reverseRecOn with
  | nil => rfl
  | append_singleton updates data ih =>
    rw [List.foldl_append, ih]
    simp [MessageUpdate.merge, MessageUpdate.combined, Option.or_assoc]

/-- A message is cached only where messages are. -/
theorem stateMessage_of_has {steps : List Step}
    (h : (stateAfter J cfg botId steps).Has (messageKey c m)) : cfg.stateMessage = true := by
  obtain ⟨e, -, hkind, hon⟩ := (OnlyEnabled.stateAfter steps).switchedOn (.inl h)
  refine hon.message (hkind.symm.trans ?_)
  exact kindOf_key (.message c m)

/-- An update of a cached message leaves the merged message. -/
theorem strings_messageUpdate (hJ : J.Lawful) (hon : cfg.stateMessage = true) (env : Env)
    {data : MessageUpdate} (hdata : data.channelId = c ∧ data.id = m)
    (hm : s.strings (messageKey c m) = some (J.text (.message message))) :
    (Step.next J cfg botId s ⟨env, .event (.messageUpdate data)⟩).strings (messageKey c m) =
      some (J.text (.message (data.merge message))) := by
  obtain ⟨rfl, rfl⟩ := hdata
  have hup : update J cfg botId env (.messageUpdate data) = _ := if_pos hon
  rw [Step.next_event, hup, Fallible.run_bind_ok (run_get_some hm (hJ.message message))]
  exact strings_refresh hJ env (.message message) _ (.message data.channelId data.id) _

/-- The state after updates of messages, each with what it observes of its surroundings. -/
def afterUpdates (J : Json T V) (cfg : Config) (botId : Id .user) (s : Store T)
    (updates : List (Env × MessageUpdate)) : Store T :=
  updates.foldl (fun s u => Step.next J cfg botId s ⟨u.1, .event (.messageUpdate u.2)⟩) s

theorem strings_afterUpdates (hJ : J.Lawful) (hon : cfg.stateMessage = true)
    {updates : List (Env × MessageUpdate)} (hfor : ∀ u ∈ updates, u.2.channelId = c ∧ u.2.id = m)
    (hm : s.strings (messageKey c m) = some (J.text (.message message))) :
    (afterUpdates J cfg botId s updates).strings (messageKey c m) = some (J.text (.message
      ((updates.map Prod.snd).foldl (fun message data => data.merge message) message))) := by
  induction updates generalizing s message with
  | nil => exact hm
  | cons u updates ih =>
    exact ih (fun u' hu' => hfor u' (List.mem_cons_of_mem _ hu'))
      (strings_messageUpdate hJ hon u.1 (hfor u List.mem_cons_self) hm)

/-- Merging an update twice changes nothing more. -/
theorem merge_merge (data : MessageUpdate) (message : Message) :
    data.merge (data.merge message) = data.merge message := by
  have hgetD {β : Type} (o : Option β) (x : β) : o.getD (o.getD x) = o.getD x := by cases o <;> rfl
  simp [MessageUpdate.merge, hgetD, ← Option.or_assoc]

/-- **Updates of a message compose.** After updates of a cached message one after another, each of the
fields they may carry has the value that the last update to carry it gives it, and the others are as
before. A single update that carries all these values leaves the same message, and so do the updates with
one of them repeated at once. -/
theorem messageUpdates_compose {J : Json T V} (hJ : J.Lawful) {cfg : Config} {botId : Id .user}
    {steps : List Step} {c : Id .channel} {m : Id .message} {message : Message}
    (hcached : (stateAfter J cfg botId steps).strings (messageKey c m) =
      some (J.text (.message message)))
    {updates : List (Env × MessageUpdate)}
    (hfor : ∀ u ∈ updates, u.2.channelId = c ∧ u.2.id = m) :
    let s := stateAfter J cfg botId steps
    let us := updates.map Prod.snd
    let final : Message := { message with
      attachments := (lastCarried (·.attachments) us).getD message.attachments
      content := (lastCarried (·.content) us).getD message.content
      editedTimestamp := (lastCarried (·.editedTimestamp) us).or message.editedTimestamp
      embeds := (lastCarried (·.embeds) us).getD message.embeds
      mentionEveryone := (lastCarried (·.mentionEveryone) us).getD message.mentionEveryone
      mentionRoles := (lastCarried (·.mentionRoles) us).getD message.mentionRoles
      mentions := (lastCarried (·.mentions) us).getD message.mentions
      pinned := (lastCarried (·.pinned) us).getD message.pinned
      timestamp := (lastCarried (·.timestamp) us).getD message.timestamp
      tts := (lastCarried (·.tts) us).getD message.tts }
    (afterUpdates J cfg botId s updates).strings (messageKey c m) =
      some (J.text (.message final)) ∧
    (∀ env, (Step.next J cfg botId s
      ⟨env, .event (.messageUpdate (.combined m c us))⟩).strings (messageKey c m) =
        some (J.text (.message final))) ∧
    ∀ before u env after, updates = before ++ u :: after →
      (afterUpdates J cfg botId s (before ++ u :: (env, u.2) :: after)).strings (messageKey c m) =
        some (J.text (.message final)) := by
  intro s us final
  have hon : cfg.stateMessage = true :=
    stateMessage_of_has fun hnone => nomatch hnone.symm.trans hcached
  have hfinal : us.foldl (fun message data => data.merge message) message = final :=
    foldl_merge m c us message
  refine ⟨?_, fun env => ?_, fun before u env after hu => ?_⟩
  · rw [strings_afterUpdates hJ hon hfor hcached, hfinal]
  · exact strings_messageUpdate hJ hon env ⟨rfl, rfl⟩ hcached
  · have hfor' : ∀ u' ∈ before ++ u :: (env, u.2) :: after, u'.2.channelId = c ∧ u'.2.id = m := by
      intro u' hu'
      have hmem : u ∈ updates := by
        rw [hu]
        exact List.mem_append_right _ List.mem_cons_self
      rw [hu] at hfor
      simp only [List.mem_append, List.mem_cons] at hu'
      rcases hu' with h | rfl | rfl | h
      · exact hfor u' (List.mem_append_left _ h)
      · exact hfor _ (List.mem_append_right _ List.mem_cons_self)
      · exact hfor u (List.mem_append_right _ List.mem_cons_self)
      · exact hfor u' (List.mem_append_right _ (List.mem_cons_of_mem _ h))
    rw [strings_afterUpdates hJ hon hfor' hcached, ← hfinal]
    have hus : us = before.map Prod.snd ++ u.2 :: after.map Prod.snd := by
      show updates.map Prod.snd = _
      rw [hu, List.map_append, List.map_cons]
    rw [hus]
    simp [merge_merge]

/-- A message, and the steps that create it. -/
def firstMessage : Message :=
  ⟨.of 2, .of 1, [], "a", none, [], false, [], [], false, 0, false, ""⟩

def created : List Step := [⟨.at (.of 0), .event (.messageCreate firstMessage)⟩]

/-- Its content is changed, and then it is pinned. -/
def changed : List (Env × MessageUpdate) :=
  [(.at (.of 1), ⟨.of 2, .of 1, none, some "b", none, none, none, none, none, none, none, none⟩),
    (.at (.of 2), ⟨.of 2, .of 1, none, none, none, none, none, none, none, some true, none, none⟩)]

theorem created_cached : (stateAfter Json.plain .full (.of 9) created).strings
    (messageKey (.of 1) (.of 2)) = some (Json.plain.text (.message firstMessage)) := by
  have hany : ((stateAfter Json.plain .full (.of 9) created).strings
      (messageKey (.of 1) (.of 2))).any (fun item =>
        decide ((Json.plain.message item).toOption = some firstMessage)) = true := by
    decide +kernel
  obtain ⟨item, hitem, hmessage⟩ := (Option.any_eq_true _ _).mp hany
  rw [hitem]
  cases item with
  | message message =>
    obtain rfl := Option.some.inj (of_decide_eq_true hmessage)
    rfl
  | _ => cases of_decide_eq_true hmessage

/-- Both changes are found. -/
theorem messageUpdates_compose_two : ∃ final : Message, final.content = "b" ∧ final.pinned = true ∧
    (afterUpdates Json.plain .full (.of 9) (stateAfter Json.plain .full (.of 9) created)
      changed).strings (messageKey (.of 1) (.of 2)) = some (.message final) := by
  have hfor : ∀ u ∈ changed, u.2.channelId = (.of 1 : Id .channel) ∧ u.2.id = (.of 2 : Id .message) := by
    simp [changed]
  exact ⟨_, rfl, rfl, (messageUpdates_compose Json.plain_lawful created_cached hfor).1⟩

/-! ## Deleting -/

/-- The state after deletions of messages of a channel, each with what it observes of its surroundings. -/
def afterDeletes (J : Json T V) (cfg : Config) (botId : Id .user) (s : Store T) (c : Id .channel)
    (deletes : List (Env × Id .message)) : Store T :=
  deletes.foldl (fun s x => Step.next J cfg botId s ⟨x.1, .event (.messageDelete ⟨c, x.2⟩)⟩) s

section Deletes

variable {ok : Entity → Prop} (hJ : J.Lawful) (hon : cfg.stateMessage = true) (hk : Known J ok s)
include hJ hon hk

/-- Deleting a message removes its key. -/
theorem next_messageDelete (env : Env) (c : Id .channel) (m : Id .message) :
    Step.next J cfg botId s ⟨env, .event (.messageDelete ⟨c, m⟩)⟩ = dropAll [messageKey c m] s := by
  have hup : update J cfg botId env (.messageDelete ⟨c, m⟩) = _ := if_pos hon
  obtain ⟨old, hrun⟩ := getOld_ok cfg hk hJ (messageKey c m)
  rw [Step.next_event, hup, Fallible.run_bind_ok hrun, Fallible.run_bind_ok (run_del _)]
  rfl

theorem afterDeletes_eq (c : Id .channel) (deletes : List (Env × Id .message)) :
    afterDeletes J cfg botId s c deletes =
      dropAll ((deletes.map Prod.snd).map (messageKey c)) s := by
  induction deletes generalizing s with
  | nil => exact dropAll_nil.symm
  | cons x deletes ih =>
    have hdrop : Known J ok (dropAll [messageKey c x.2] s) := (Known.stable ok).drop _ s hk
    have hcons : afterDeletes J cfg botId s c (x :: deletes) =
        afterDeletes J cfg botId (Step.next J cfg botId s ⟨x.1, .event (.messageDelete ⟨c, x.2⟩)⟩) c
          deletes := rfl
    rw [hcons, next_messageDelete hJ hon hk, ih hdrop, ← dropAll_append]
    rfl

omit hJ hon in
/-- What is cached under the keys of messages are messages. -/
theorem Known.cachedMessage (c : Id .channel) (m : Id .message) : ∃ message : Option Message,
    s.strings (messageKey c m) = message.map fun message => J.text (.message message) := by
  refine hk.cached (.message c m) (by decide : MESSAGE_KEY ≠ CHANNEL_KEY) fun i hi => ?_
  cases i with
  | message message => exact ⟨message, rfl⟩
  | _ => exact hi.elim

variable (botId) in
/-- Deleting in bulk reads the messages, if the only one is not read as a single value, and removes their
keys. -/
theorem run_messageDeleteBulk {env : Env} {c : Id .channel} {ids : List (Id .message)}
    (hone : env.oneKey = .list ∨ ∀ id, ids = [id] → s.strings (messageKey c id) = none) :
    ∃ messages : List Message,
      messages.map (fun message => J.text (.message message)) =
        ids.filterMap (fun id => s.strings (messageKey c id)) ∧
      Fallible.run exec (update J cfg botId env (.messageDeleteBulk ⟨c, ids⟩)) s =
        Fallible.run exec (oldValue J cfg (.messages messages))
          (dropAll (ids.map (messageKey c)) s) := by
  choose message hmessage using hk.cachedMessage c
  have hread : ∃ values, Fallible.run exec (getAll env.oneKey J.message (ids.map (messageKey c))) s =
      (.ok values, s) ∧ values.filterMap id = ids.filterMap message := by
    by_cases hlist : env.oneKey = .list ∨ ids.length ≠ 1
    · refine ⟨ids.map message, run_getAll (hlist.imp_right fun h => by rwa [List.length_map]) ?_,
        by rw [List.filterMap_map]; rfl⟩
      rw [List.forall₂_map_left_iff, List.forall₂_map_right_iff, List.forall₂_same]
      intro id _
      rw [hmessage id]
      cases message id with
      | none => rfl
      | some message => exact congrArg some (hJ.message message)
    · obtain ⟨hsingle, hlength⟩ := not_or.mp hlist
      obtain ⟨id, rfl⟩ := List.length_eq_one_iff.mp (not_not.mp hlength)
      have hnone : s.strings (messageKey c id) = none := hone.resolve_left hsingle id rfl
      have habsent : message id = none := Option.map_eq_none_iff.mp ((hmessage id).symm.trans hnone)
      rw [OneKey.eq_single hsingle]
      exact ⟨[], run_getAll_none hnone, by simp [habsent]⟩
  refine ⟨ids.filterMap message, ?_, ?_⟩
  · rw [List.map_filterMap]
    exact List.filterMap_congr fun id _ => (hmessage id).symm
  · have hup : update J cfg botId env (.messageDeleteBulk ⟨c, ids⟩) = _ := if_pos hon
    obtain ⟨values, hrun, hvalues⟩ := hread
    rw [hup, Fallible.run_bind_ok hrun, Fallible.run_bind_ok (run_delAll _), hvalues]

omit hJ hk in
variable (botId) in
/-- The only message is not read as a list, and nothing is removed. -/
theorem run_messageDeleteBulk_single {env : Env} (hone : env.oneKey = .single) {c : Id .channel}
    {id : Id .message} (h : s.strings (messageKey c id) ≠ none) :
    (Fallible.run exec (update J cfg botId env (.messageDeleteBulk ⟨c, [id]⟩)) s).2 = s := by
  have hup : update J cfg botId env (.messageDeleteBulk ⟨c, [id]⟩) = _ := if_pos hon
  obtain ⟨err, herr⟩ : ∃ err, Fallible.run exec (getAll .single J.message [messageKey c id]) s =
      (.error (.error (.redis err)), s) := run_getAll_some h
  rw [hup, hone]
  exact congrArg Prod.snd (Fallible.run_bind_error herr)

end Deletes

/-- **Deleting in bulk is deleting one by one**: it leaves what deletions of the messages leave, in any
order, and it returns the messages that were cached, in the order of the ids. It is assumed that a list of
one key is read as a list. -/
theorem bulk_deletes {J : Json T V} (hJ : J.Lawful) {cfg : Config} (hon : cfg.stateMessage = true)
    (botId : Id .user) (steps : List Step) {env : Env} (hone : env.oneKey = .list) (c : Id .channel)
    (ids : List (Id .message)) :
    let s := stateAfter J cfg botId steps
    let bulk := Fallible.run exec (update J cfg botId env (.messageDeleteBulk ⟨c, ids⟩)) s
    (∀ deletes : List (Env × Id .message), (deletes.map Prod.snd).Perm ids →
      bulk.2 = afterDeletes J cfg botId s c deletes) ∧
    (cfg.stateOld = true → ∃ messages v, bulk.1 = .ok (some v) ∧
      J.value (J.text (.messages messages)) = .ok v ∧
      messages.map (fun message => J.text (.message message)) =
        ids.filterMap fun id => s.strings (messageKey c id)) := by
  intro s bulk
  have hk : Known J (fun _ => True) s :=
    (Known.stable _).stateAfter .empty fun step _ => step.ok_true
  obtain ⟨messages, htexts, hrun⟩ := run_messageDeleteBulk botId hJ hon hk (.inl hone)
  refine ⟨fun deletes hperm => ?_, fun hold => ?_⟩
  · have hstate : bulk.2 = dropAll (ids.map (messageKey c)) s := by
      show (Fallible.run exec (update J cfg botId env (.messageDeleteBulk ⟨c, ids⟩)) s).2 = _
      obtain ⟨old, hold⟩ := oldValue_ok (s := dropAll (ids.map (messageKey c)) s) cfg
        hJ (.messages messages)
      rw [hrun, hold]
    rw [hstate, afterDeletes_eq hJ hon hk]
    exact dropAll_perm (hperm.symm.map _)
  · obtain ⟨v, hv, hold⟩ := run_oldValue (s := dropAll (ids.map (messageKey c)) s) hJ hold
      (.messages messages)
    exact ⟨messages, v, congrArg Prod.fst (hrun.trans hold), hv, htexts⟩

/-- Of two messages one is cached, and both are deleted: the message is returned, and what is left is what
the two deletions leave, the other way round. -/
theorem bulk_deletes_two :
    let s := stateAfter Json.plain .full (.of 9) created
    let bulk := Fallible.run exec (update Json.plain .full (.of 9) (.at (.of 1)) (.messageDeleteBulk
      ⟨.of 1, [.of 3, .of 2]⟩)) s
    bulk.2 = afterDeletes Json.plain .full (.of 9) s (.of 1) [(.at (.of 1), .of 2), (.at (.of 2), .of 3)] ∧
      ∃ v, bulk.1 = .ok (some v) ∧
        Json.plain.value (Json.plain.text (.messages [firstMessage])) = .ok v := by
  intro s bulk
  have hon : Config.full.stateMessage = true := rfl
  have hold : Config.full.stateOld = true := rfl
  obtain ⟨hstate, hreturned⟩ := bulk_deletes Json.plain_lawful hon (.of 9) created
    (rfl : (Env.at (.of 1)).oneKey = .list) (.of 1) [.of 3, .of 2]
  obtain ⟨messages, v, hrun, hv, htexts⟩ := hreturned hold
  have hnone : s.strings (messageKey (.of 1) (.of 3)) = none :=
    Option.isNone_iff_eq_none.mp (by decide +kernel)
  have hsome : s.strings (messageKey (.of 1) (.of 2)) = some (.message firstMessage) := created_cached
  have hfound : [Id.of 3, Id.of 2].filterMap (fun id => s.strings (messageKey (.of 1) id)) =
      [.message firstMessage] := by
    simp only [List.filterMap, hnone, hsome]
  have hcached : messages.map Item.message = [.message firstMessage] := htexts.trans hfound
  obtain ⟨message, rfl, hmessage⟩ := List.map_eq_singleton_iff.mp hcached
  obtain rfl : message = firstMessage := Item.message.inj hmessage
  exact ⟨hstate _ (List.Perm.swap _ _ _), v, hrun, hv⟩

end TwilightDispatch
