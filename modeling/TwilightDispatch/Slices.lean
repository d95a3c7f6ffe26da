import TwilightDispatch.CacheRefinement

/-!
# Slices of a run

What is cached of an object depends on those steps of a run only that concern the object
(`slice_exact`): events about it, the clearing of a guild it is in, and sweeps, if it can expire. So
runs that agree on these steps, object by object, leave the same store, however they order the steps
otherwise (`stateAfter_eq_of_slices`).
-/

namespace TwilightDispatch

open Atomic Redis

variable {T V : Type} {J : Json T V} {cfg : Config} {botId : Id .user} {c c' c'' : Cache}
  {o : CacheObject} {places : Id .channel → Id .guild → Bool} {oneKey : OneKey}
  {now : FormattedDateTime}

/-! ## What concerns an object -/

/-- A channel occurs only with guilds that are among its places. -/
def PlacedIn (places : Id .channel → Id .guild → Bool) : Entity → Prop
  | .channel (some g) ch => places ch g = true
  | _ => True

/-- An object is removed with a guild, if it is cached and listed. -/
def CacheObject.clearedBy (places : Id .channel → Id .guild → Bool) (g : Id .guild) : CacheObject → Bool
  | guild g' => g' = g
  | channel ch => places ch g
  | o => o.guildOf = some g

/-- An event is about an object, or clears a guild it is in. -/
def Event.concerns (places : Id .channel → Id .guild → Bool) (o : CacheObject) : Event → Bool
  | channelCreate data | channelDelete data | channelUpdate data => o = .channel data.id
  | channelPinsUpdate data => o = .channel data.channelId
  | guildCreate data => o.clearedBy places data.id
  | guildDelete data => o.clearedBy places data.id
  | guildEmojisUpdate data => o.isEmojiOf data.guildId
  | guildUpdate data => o = .guild data.id
  | memberAdd data => o = .member data.guildId data.user.id
  | memberRemove data =>
    o = .member data.guildId data.user.id || o = .presence data.guildId data.user.id
  | memberUpdate data => o = .member data.guildId data.user.id
  | memberChunk data => data.members.any fun member => o = .member data.guildId member.user.id
  | messageCreate data => o = .message data.channelId data.id
  | messageDelete data => o = .message data.channelId data.id
  | messageDeleteBulk data => data.ids.any fun id => o = .message data.channelId id
  | messageUpdate data => o = .message data.channelId data.id
  | presenceUpdate data => o = .presence data.guildId data.userId
  | ready data => o = .botUser || data.guilds.any fun guild => o = .guild guild.id
  | roleCreate data | roleUpdate data => o = .role data.guildId data.role.id
  | roleDelete data => o = .role data.guildId data.roleId
  | unavailableGuild data => o.clearedBy places data.id
  | userUpdate _ => o = .botUser
  | voiceStateUpdate data => data.guildId.any fun g => o = .voice g data.userId
  | _ => false

/-- A sweep concerns what can expire. -/
def Step.concerns (places : Id .channel → Id .guild → Bool) (o : CacheObject) (step : Step) : Bool :=
  match step.job with
  | .event event => event.concerns places o
  | .sweep => o.entity.expirable

/-- What concerns an emoji concerns every emoji of its guild. -/
theorem Step.concerns_emoji (step : Step) (g : Id .guild) (id id' : Id .emoji) :
    step.concerns places (.emoji g id) = step.concerns places (.emoji g id') := by
  rcases step with ⟨env, event | _⟩
  · cases event <;> simp [Step.concerns, Event.concerns, CacheObject.clearedBy, CacheObject.guildOf,
      CacheObject.isEmojiOf]
  · rfl

/-! ## Caches that agree on an object -/

/-- Two caches hold the same of an object. -/
structure Cache.SameFor (o : CacheObject) (c c' : Cache) : Prop where
  value : c.value o = c'.value o
  deadline : c.deadline o = c'.deadline o
  listed : ∀ g ch, o = .channel ch → (ch ∈ c.listed g ↔ ch ∈ c'.listed g)

namespace Cache.SameFor

theorem refl (o : CacheObject) (c : Cache) : SameFor o c c := ⟨rfl, rfl, fun _ _ _ => .rfl⟩

theorem symm (h : SameFor o c c') : SameFor o c' c :=
  ⟨h.value.symm, h.deadline.symm, fun g ch ho => (h.listed g ch ho).symm⟩

theorem trans (h : SameFor o c c') (h' : SameFor o c' c'') : SameFor o c c'' :=
  ⟨h.value.trans h'.value, h.deadline.trans h'.deadline, fun g ch ho =>
    (h.listed g ch ho).trans (h'.listed g ch ho)⟩

/-! ### The operations keep the agreement -/

theorem set (h : SameFor o c c') (entry : CacheEntry) : SameFor o (c.set entry) (c'.set entry) where
  value := by
    by_cases ho : o = entry.1.object
    · subst ho
      rw [value_set_self, value_set_self]
    · rw [value_set_of_ne ho, value_set_of_ne ho, h.value]
  deadline := h.deadline
  listed g ch ho := by rw [mem_listed_set, mem_listed_set, h.listed g ch ho]

theorem setAll (h : SameFor o c c') (entries : List CacheEntry) :
    SameFor o (c.setAll entries) (c'.setAll entries) := by
  induction entries generalizing c c' with
  | nil => exact h
  | cons entry entries ih => exact ih (h.set entry)

theorem dropWhere (h : SameFor o c c') {p p' : CacheObject → Bool} (hp : p o = p' o) :
    SameFor o (c.dropWhere p) (c'.dropWhere p') where
  value := by rw [value_dropWhere, value_dropWhere, hp, h.value]
  deadline := h.deadline
  listed := h.listed

theorem del (h : SameFor o c c') (e : Entity) : SameFor o (c.del e) (c'.del e) where
  value := by rw [value_del, value_del, h.value]
  deadline := h.deadline
  listed g ch ho := by rw [mem_listed_del, mem_listed_del, h.listed g ch ho]

theorem delAll (h : SameFor o c c') (entities : List Entity) :
    SameFor o (c.delAll entities) (c'.delAll entities) := by
  induction entities generalizing c c' with
  | nil => exact h
  | cons e entities ih => exact ih (h.del e)

theorem clear (h : SameFor o c c') (g : Id .guild) : SameFor o (c.clear g) (c'.clear g) := by
  refine h.dropWhere ?_
  cases o with
  | channel ch => exact decide_eq_decide.mpr (h.listed g ch rfl)
  | _ => rfl

theorem modify (h : SameFor o c c') (o' : CacheObject) (f : o'.Value → o'.Value) :
    SameFor o (c.modify o' f) (c'.modify o' f) where
  value := by
    unfold Cache.modify
    by_cases ho : o = o'
    · subst ho
      simp only [Function.update_self, h.value]
    · simp only [Function.update_of_ne ho, h.value]
  deadline := h.deadline
  listed := h.listed

theorem stamp (h : SameFor o c c') (objects : List CacheObject) (d : Option FormattedDateTime) :
    SameFor o (c.stamp objects d) (c'.stamp objects d) where
  value := h.value
  deadline := by
    unfold Cache.stamp
    simp only [h.deadline]
  listed := h.listed

theorem expire (h : SameFor o c c') (now : FormattedDateTime) :
    SameFor o (c.expire now) (c'.expire now) := by
  have hoverdue : c.overdue now o = c'.overdue now o := by
    unfold Cache.overdue
    rw [h.deadline]
  exact ⟨(h.dropWhere hoverdue).value, by simp only [Cache.expire, hoverdue, h.deadline], h.listed⟩

/-! ### What the operations leave alone -/

theorem of_set {entry : CacheEntry} (ho : o ≠ entry.1.object) : SameFor o (c.set entry) c where
  value := value_set_of_ne ho
  deadline := rfl
  listed g ch hch := by
    rw [mem_listed_set, or_iff_left]
    rintro he
    exact ho (by rw [hch, he])

theorem of_setAll {entries : List CacheEntry} (ho : ∀ entry ∈ entries, o ≠ entry.1.object) :
    SameFor o (c.setAll entries) c := by
  induction entries generalizing c with
  | nil => exact .refl o c
  | cons entry entries ih =>
    obtain ⟨hentry, hrest⟩ := List.forall_mem_cons.mp ho
    exact (ih hrest).trans (of_set hentry)

theorem of_dropWhere {p : CacheObject → Bool} (hp : p o = false) : SameFor o (c.dropWhere p) c where
  value := by simp [hp]
  deadline := rfl
  listed _ _ _ := .rfl

theorem of_del {e : Entity} (ho : o ≠ e.object) : SameFor o (c.del e) c where
  value := by rw [value_del, if_neg ho]
  deadline := rfl
  listed g ch hch := by
    rw [mem_listed_del, and_iff_left]
    rintro he
    exact ho (by rw [hch, he])

theorem of_delAll {entities : List Entity} (ho : ∀ e ∈ entities, o ≠ e.object) :
    SameFor o (c.delAll entities) c := by
  induction entities generalizing c with
  | nil => exact .refl o c
  | cons e entities ih =>
    obtain ⟨he, hrest⟩ := List.forall_mem_cons.mp ho
    exact (ih hrest).trans (of_del he)

theorem of_modify {o' : CacheObject} (ho : o ≠ o') (f : o'.Value → o'.Value) :
    SameFor o (c.modify o' f) c where
  value := Function.update_of_ne ho _ _
  deadline := rfl
  listed _ _ _ := .rfl

theorem of_stamp {objects : List CacheObject} (ho : o ∉ objects) (d : Option FormattedDateTime) :
    SameFor o (c.stamp objects d) c where
  value := rfl
  deadline := if_neg ho
  listed _ _ _ := .rfl

theorem ite {p : Prop} [Decidable p] {d d' : Cache} (h : SameFor o c c') (h' : SameFor o d d') :
    SameFor o (if p then c else d) (if p then c' else d') := by
  split_ifs
  · exact h
  · exact h'

theorem ite_left {p : Prop} [Decidable p] {d : Cache} (h : p → SameFor o c d) (h' : SameFor o c' d) :
    SameFor o (if p then c else c') d := by
  split_ifs with hp
  · exact h hp
  · exact h'

/-- A change for which a list of keys is read. -/
theorem changeTo {one one' : Prop} {d d' : Cache} (h : SameFor o c c') (hone : one ↔ one')
    (hd : SameFor o d d') : SameFor o (c.changeTo oneKey one d) (c'.changeTo oneKey one' d') := by
  obtain rfl := propext hone
  unfold Cache.changeTo
  split_ifs
  · exact h
  · exact hd

theorem of_changeTo {one : Prop} {d : Cache} (h : SameFor o d c) :
    SameFor o (c.changeTo oneKey one d) c := by
  unfold Cache.changeTo
  split_ifs
  · exact .refl o c
  · exact h

/-- An object that is read, changed and written back. -/
theorem refresh (h : SameFor o c c') (o' : CacheObject) (f : o'.Value → o'.Value)
    (d : Option FormattedDateTime) :
    SameFor o (if (c.value o').isSome then (c.modify o' f).stamp [o'] d else c)
      (if (c'.value o').isSome then (c'.modify o' f).stamp [o'] d else c') := by
  by_cases ho : o = o'
  · subst ho
    rw [h.value]
    exact .ite ((h.modify _ _).stamp _ _) h
  · have hother (c : Cache) :
        SameFor o (if (c.value o').isSome then (c.modify o' f).stamp [o'] d else c) c :=
      .ite_left (fun _ => .trans (.of_stamp (by simpa using ho) _) (.of_modify ho _)) (.refl o c)
    exact (hother c).trans (h.trans (hother c').symm)

end Cache.SameFor

/-! ## Events -/

/-- What a created guild stores is cleared with the guild. -/
theorem clearedBy_of_mem_entries {data : Guild} {entry : CacheEntry}
    (hevent : ∀ e, (Event.guildCreate data).Touches e → PlacedIn places e)
    (hentry : entry ∈ data.entries cfg botId) : entry.1.object.clearedBy places data.id = true := by
  unfold Guild.entries at hentry
  simp only [List.mem_append, List.mem_map, List.mem_filter, List.mem_singleton] at hentry
  rcases hentry with (((((⟨x, hx, rfl⟩ | ⟨x, hx, rfl⟩) | ⟨x, hx, rfl⟩) | ⟨x, hx, rfl⟩) |
    ⟨x, hx, rfl⟩) | ⟨x, hx, rfl⟩) | rfl
  on_goal 1 =>
    refine hevent (.channel (some data.id) x.id) (.inr ⟨rfl, ?_⟩)
    rintro g ch he
    exact ⟨x, hx, (Entity.channel.inj he).2⟩
  all_goals exact decide_eq_true rfl

/-- The channels that are listed are at their places. -/
def Cache.Placed (places : Id .channel → Id .guild → Bool) (c : Cache) : Prop :=
  ∀ g ch, ch ∈ c.listed g → places ch g = true

/-- An emoji update leaves alone what is not an emoji of its guild. -/
theorem Cache.SameFor.of_guildEmojisUpdate {data : GuildEmojisUpdate}
    (ho : o.isEmojiOf data.guildId = false) :
    Cache.SameFor o (Event.effect cfg botId oneKey now (.guildEmojisUpdate data) c) c := by
  refine .ite_left (fun _ => .of_changeTo ?_) (.refl o c)
  refine .trans (.of_setAll fun entry hentry heq => ?_) (.of_dropWhere ho)
  obtain ⟨emoji, -, rfl⟩ := List.mem_map.mp hentry
  obtain rfl : o = .emoji data.guildId emoji.id := heq
  simp [CacheObject.isEmojiOf] at ho

/-- A deletion in bulk leaves alone what is not a message in its list. -/
theorem Cache.SameFor.of_messageDeleteBulk {data : MessageDeleteBulk}
    (ho : ∀ id ∈ data.ids, o ≠ .message data.channelId id) :
    Cache.SameFor o (Event.effect cfg botId oneKey now (.messageDeleteBulk data) c) c := by
  refine .ite_left (fun _ => .of_changeTo (.of_delAll ?_)) (.refl o c)
  simpa using ho

/-- **What an event leaves alone.** -/
theorem Event.effect_of_not_concerns {event : Event} (ho : event.concerns places o = false)
    (hevent : ∀ e, event.Touches e → PlacedIn places e) (hc : c.Placed places) :
    Cache.SameFor o (event.effect cfg botId oneKey now c) c := by
  have hcleared {g : Id .guild} (h : o.clearedBy places g = false) : Cache.SameFor o (c.clear g) c := by
    refine .of_dropWhere ?_
    cases o with
    | channel ch =>
      have hplace : places ch g = false := h
      refine decide_eq_false fun hl => ?_
      rw [hc g ch hl] at hplace
      cases hplace
    | _ => exact h
  cases event with
  | channelCreate data => exact .of_set (of_decide_eq_false ho)
  | channelDelete data => exact .of_del (of_decide_eq_false ho)
  | channelPinsUpdate data =>
    exact .ite_left (fun _ => .of_modify (of_decide_eq_false ho) _) (.refl o c)
  | channelUpdate data => exact .of_set (of_decide_eq_false ho)
  | guildCreate data =>
    have hput : Cache.SameFor o ((c.clear data.id).setAll (data.entries cfg botId)) c := by
      refine .trans (.of_setAll fun entry hentry heq => ?_) (hcleared ho)
      have htrue := clearedBy_of_mem_entries hevent hentry
      rw [← heq] at htrue
      exact Bool.false_ne_true (ho.symm.trans htrue)
    refine .ite_left (fun _ => .trans (.of_stamp ?_ _) hput) hput
    rintro hmem
    obtain ⟨member, -, rfl⟩ := List.mem_map.mp hmem
    simp [Event.concerns, CacheObject.clearedBy, CacheObject.guildOf] at ho
  | guildDelete data => exact hcleared ho
  | guildEmojisUpdate data => exact .of_guildEmojisUpdate ho
  | guildUpdate data => exact .of_set (of_decide_eq_false ho)
  | memberAdd data =>
    have hne := of_decide_eq_false ho
    exact .ite_left (fun _ => .trans (.of_stamp (by simpa using hne) _) (.of_set hne)) (.refl o c)
  | memberRemove data =>
    obtain ⟨hmember, hpresence⟩ := Bool.or_eq_false_iff.mp ho
    have hdel : Cache.SameFor o
        (if cfg.stateMember then c.del (.member data.guildId data.user.id) else c) c :=
      .ite_left (fun _ => .of_del (of_decide_eq_false hmember)) (.refl o c)
    exact .ite_left (fun _ => .trans (.of_del (of_decide_eq_false hpresence)) hdel) hdel
  | memberUpdate data =>
    have hne := of_decide_eq_false ho
    exact .ite_left (fun _ => .ite_left (fun _ => .trans (.of_stamp (by simpa using hne) _)
      (.of_modify hne _)) (.refl o c)) (.refl o c)
  | memberChunk data =>
    have hne : ∀ member ∈ data.members, o ≠ .member data.guildId member.user.id := by
      simpa [Event.concerns] using ho
    refine .ite_left (fun _ => ?_) (.refl o c)
    refine .trans (.of_stamp ?_ _) (.of_setAll ?_)
    · rintro hmem
      obtain ⟨member, hmember, heq⟩ := List.mem_map.mp hmem
      exact hne member hmember heq.symm
    · simpa using hne
  | messageCreate data =>
    have hne := of_decide_eq_false ho
    exact .ite_left (fun _ => .trans (.of_stamp (by simpa using hne) _) (.of_set hne)) (.refl o c)
  | messageDelete data =>
    exact .ite_left (fun _ => .of_del (of_decide_eq_false ho)) (.refl o c)
  | messageDeleteBulk data => exact .of_messageDeleteBulk (by simpa [Event.concerns] using ho)
  | messageUpdate data =>
    have hne := of_decide_eq_false ho
    exact .ite_left (fun _ => .ite_left (fun _ => .trans (.of_stamp (by simpa using hne) _)
      (.of_modify hne _)) (.refl o c)) (.refl o c)
  | presenceUpdate data =>
    exact .ite_left (fun _ => .of_set (of_decide_eq_false ho)) (.refl o c)
  | ready data =>
    obtain ⟨huser, hguilds⟩ := Bool.or_eq_false_iff.mp ho
    refine .trans (.of_setAll ?_) (.of_set (of_decide_eq_false huser))
    simpa using hguilds
  | roleCreate data => exact .of_set (of_decide_eq_false ho)
  | roleDelete data => exact .of_del (of_decide_eq_false ho)
  | roleUpdate data => exact .of_set (of_decide_eq_false ho)
  | unavailableGuild data =>
    refine .trans (.of_set ?_) (hcleared ho)
    rintro rfl
    simp [Event.concerns, CacheObject.clearedBy] at ho
  | userUpdate data => exact .of_set (of_decide_eq_false ho)
  | voiceStateUpdate data =>
    rcases data with ⟨_ | g, _ | ch, u, extra⟩
    · exact .ite_left (fun _ => .refl o c) (.refl o c)
    · exact .ite_left (fun _ => .refl o c) (.refl o c)
    · exact .ite_left (fun _ => .of_del (of_decide_eq_false ho)) (.refl o c)
    · exact .ite_left (fun _ => .of_set (of_decide_eq_false ho)) (.refl o c)
  | _ => exact .refl o c

/-- Two caches that agree on an emoji agree on the others of its guild. -/
def Cache.SameBeside (o : CacheObject) (c c' : Cache) : Prop :=
  ∀ g id, o = .emoji g id → ∀ id', c.value (.emoji g id') = c'.value (.emoji g id')

/-- **What an event does to an object depends on what is held of the object**, and for an emoji on which
others of its guild are held. -/
theorem Cache.SameFor.effect (h : Cache.SameFor o c c') (hbeside : Cache.SameBeside o c c')
    (event : Event) :
    Cache.SameFor o (event.effect cfg botId oneKey now c) (event.effect cfg botId oneKey now c') := by
  cases event with
  | channelCreate data => exact h.set _
  | channelDelete data => exact h.del _
  | channelPinsUpdate data => exact .ite (h.modify _ _) h
  | channelUpdate data => exact h.set _
  | guildCreate data =>
    have hput := (h.clear data.id).setAll (data.entries cfg botId)
    exact .ite (hput.stamp _ _) hput
  | guildDelete data => exact h.clear data.id
  | guildEmojisUpdate data =>
    cases ho : o.isEmojiOf data.guildId with
    | true =>
      refine .ite (h.changeTo ?_ ((h.dropWhere rfl).setAll _)) h
      cases o with
      | emoji g id =>
        obtain rfl : g = data.guildId := of_decide_eq_true ho
        simp only [Cache.OneEmoji, hbeside _ id rfl]
      | _ => cases ho
    | false => exact .trans (.of_guildEmojisUpdate ho) (h.trans (.symm (.of_guildEmojisUpdate ho)))
  | guildUpdate data => exact h.set _
  | memberAdd data => exact .ite ((h.set _).stamp _ _) h
  | memberRemove data =>
    have hdel : Cache.SameFor o
        (if cfg.stateMember then c.del (.member data.guildId data.user.id) else c)
        (if cfg.stateMember then c'.del (.member data.guildId data.user.id) else c') :=
      .ite (h.del _) h
    exact .ite (hdel.del _) hdel
  | memberUpdate data => exact .ite (h.refresh _ _ _) h
  | memberChunk data => exact .ite ((h.setAll _).stamp _ _) h
  | messageCreate data => exact .ite ((h.set _).stamp _ _) h
  | messageDelete data => exact .ite (h.del _) h
  | messageDeleteBulk data =>
    by_cases ho : ∀ id ∈ data.ids, o ≠ .message data.channelId id
    · exact .trans (.of_messageDeleteBulk ho) (h.trans (.symm (.of_messageDeleteBulk ho)))
    · -- the object is a message of the list: if this has one, it is the object that decides
      obtain ⟨id, hid, rfl⟩ : ∃ id ∈ data.ids, o = .message data.channelId id := by simpa using ho
      refine .ite (h.changeTo (exists_congr fun id' => and_congr_right fun hids => ?_) (h.delAll _)) h
      obtain rfl : id = id' := List.mem_singleton.mp (hids ▸ hid)
      rw [h.value]
  | messageUpdate data => exact .ite (h.refresh _ _ _) h
  | presenceUpdate data => exact .ite (h.set _) h
  | ready data => exact (h.set _).setAll _
  | roleCreate data => exact h.set _
  | roleDelete data => exact h.del _
  | roleUpdate data => exact h.set _
  | unavailableGuild data => exact (h.clear data.id).set _
  | userUpdate data => exact h.set _
  | voiceStateUpdate data =>
    rcases data with ⟨_ | g, _ | ch, u, extra⟩
    · exact .ite h h
    · exact .ite h h
    · exact .ite (h.del _) h
    · exact .ite (h.set _) h
  | _ => exact h

/-! ## Runs -/

/-- The index of a guild lists channels at their places only. -/
theorem placed_stable : Stable J (PlacedIn places) fun s : Store T =>
    ∀ (g : Id .guild) (ch : Id .channel),
      privateChannelKey ch ∈ s.sets (guildKeys (toString g)) → places ch g = true where
  put kvs s hkvs hs g ch hl := by
    rcases mem_sets_putAll.mp hl with hl | ⟨kv, hkv, hm⟩
    · exact hs g ch hl
    · obtain ⟨e, he, hkey, -⟩ := hkvs kv hkv
      rw [← hkey] at hm
      obtain ⟨hch, hS | ⟨g', ch', rfl, hg⟩⟩ := mem_setMembers_written.mp hm
      · have hobject : CacheObject.channel ch = e.object := CacheObject.key_inj.mp hch
        rw [← hobject] at hS
        exact absurd (List.mem_singleton.mp hS) (guildKeys_ne_kindKeys (by decide) _)
      · obtain rfl := privateChannelKey_inj.mp hch
        obtain rfl := Id.toString_inj.mp (guildKeys_inj.mp hg)
        exact he
  drop keys s hs g ch hl := hs g ch (mem_sets_dropAll.mp hl).1
  hash s s' _ hset hs g ch hl := hs g ch (by rwa [hset])

variable (cfg botId) in
theorem placed_cacheAfter {steps : List Step} (hok : ∀ step ∈ steps, step.Ok (PlacedIn places)) :
    (cacheAfter cfg botId steps).Placed places := by
  intro g ch hl
  have hstore : ∀ (g : Id .guild) (ch : Id .channel), privateChannelKey ch ∈
      (stateAfter Json.plain cfg botId steps).sets (guildKeys (toString g)) → places ch g = true :=
    placed_stable.stateAfter (by simp [Store.empty]) hok
  have hrep := represents_stateAfter Json.plain_lawful cfg botId steps
  exact hstore g ch ((hrep.sets _ (.channel ch)).mpr (.inr ⟨g, ch, rfl, hl, rfl⟩))

@[simp] theorem cacheAfter_append (steps : List Step) (step : Step) :
    cacheAfter cfg botId (steps ++ [step]) = step.effect cfg botId (cacheAfter cfg botId steps) := by
  simp [cacheAfter]

theorem Cache.SameFor.step (h : Cache.SameFor o c c') (hbeside : Cache.SameBeside o c c') (step : Step) :
    Cache.SameFor o (step.effect cfg botId c) (step.effect cfg botId c') := by
  rcases step with ⟨env, event | _⟩
  · exact h.effect hbeside event
  · exact h.expire env.now

variable (cfg botId) in
/-- Only what can expire has a deadline. -/
theorem deadline_cacheAfter (steps : List Step) (ho : o.entity.expirable = false) :
    (cacheAfter cfg botId steps).deadline o = none := by
  have hrep := represents_stateAfter Json.plain_lawful cfg botId steps
  by_contra hd
  obtain ⟨d, hd⟩ := Option.ne_none_iff_exists'.mp hd
  have hfield := hrep.deadlines o
  rw [hd] at hfield
  obtain ⟨e, -, he, hkey, -⟩ := Deadlined.stateAfter steps _ _ hfield
  obtain rfl : e.object = o := CacheObject.key_inj.mp (e.stored_eq.symm.trans hkey)
  have hexpirable : e.object.entity.expirable = e.expirable := by cases e <;> rfl
  rw [hexpirable, he] at ho
  cases ho

variable (cfg botId) in
/-- The steps that do not concern an object can be left out. -/
theorem sameFor_slice {steps : List Step} (hok : ∀ step ∈ steps, step.Ok (PlacedIn places))
    (o : CacheObject) :
    Cache.SameFor o (cacheAfter cfg botId steps)
      (cacheAfter cfg botId (steps.filter (Step.concerns places o))) := by
  induction steps using List.reverseRecOn generalizing o with
  | nil => exact .refl o _
  | append_singleton steps step ih =>
    have hsteps : ∀ step ∈ steps, step.Ok (PlacedIn places) :=
      fun step hstep => hok step (List.mem_append_left _ hstep)
    have hstep : step.Ok (PlacedIn places) := hok step (by simp)
    rw [List.filter_append, cacheAfter_append]
    cases hconcerns : step.concerns places o with
    | true =>
      rw [List.filter_cons_of_pos hconcerns, List.filter_nil, cacheAfter_append]
      refine (ih hsteps o).step ?_ step
      rintro g id rfl id'
      -- the steps that concern an emoji are those that concern another one of the guild
      have hconcerns' : Step.concerns places (.emoji g id') = Step.concerns places (.emoji g id) :=
        funext fun step => step.concerns_emoji g id' id
      exact hconcerns' ▸ (ih hsteps (.emoji g id')).value
    | false =>
      rw [List.filter_cons_of_neg (by simp [hconcerns]), List.filter_nil, List.append_nil]
      refine .trans ?_ (ih hsteps o)
      rcases step with ⟨env, event | _⟩
      · exact event.effect_of_not_concerns hconcerns hstep (placed_cacheAfter cfg botId hsteps)
      · -- what cannot expire has no deadline
        have hdeadline := deadline_cacheAfter cfg botId steps hconcerns
        have hoverdue : (cacheAfter cfg botId steps).overdue env.now o = false := by
          rw [Cache.overdue, hdeadline]
          rfl
        exact ⟨(Cache.SameFor.of_dropWhere hoverdue).value,
          if_neg (by rw [hoverdue]; exact Bool.false_ne_true), fun _ _ _ => .rfl⟩

/-- **Slices.** After every run, what the store holds of an object (its value, its places in the
indexes, its deadline) is what the steps that concern the object leave of it alone. -/
theorem slice_exact {J : Json T V} (hJ : J.Lawful) (cfg : Config) (botId : Id .user)
    {places : Id .channel → Id .guild → Bool} {steps : List Step}
    (hok : ∀ step ∈ steps, step.Ok (PlacedIn places)) (o : CacheObject) :
    let s := stateAfter J cfg botId steps
    let s' := stateAfter J cfg botId (steps.filter (Step.concerns places o))
    s.strings o.key = s'.strings o.key ∧ (∀ S, o.key ∈ s.sets S ↔ o.key ∈ s'.sets S) ∧
      (s.hashes EXPIRY_KEYS).lookup o.key = (s'.hashes EXPIRY_KEYS).lookup o.key := by
  intro s s'
  have h : Represents J _ s := represents_stateAfter hJ cfg botId steps
  have h' : Represents J _ s' := represents_stateAfter hJ cfg botId _
  have hsame := sameFor_slice cfg botId hok o
  refine ⟨?_, fun S => ?_, ?_⟩
  · rw [h.strings, h'.strings, hsame.value]
  · rw [h.sets, h'.sets]
    unfold Cache.Lists
    rw [hsame.value]
    refine or_congr_right (exists_congr fun g => exists_congr fun ch => and_congr_right fun hch => ?_)
    rw [hsame.listed g ch hch]
  · rw [h.deadlines, h'.deadlines, hsame.deadline]

/-- A role of guild 1 is created. -/
def roleStep : Step := ⟨.at (.of 0), .event (.roleCreate ⟨.of 1, ⟨.of 3, ""⟩⟩)⟩

/-- A channel and a role of guild 2 are written, and the guild is deleted. -/
def guildTwoRun : List Step :=
  [⟨.at (.of 0), .event (.channelUpdate ⟨.of 5, some (.of 2), none, ""⟩)⟩,
    ⟨.at (.of 1), .event (.roleCreate ⟨.of 2, ⟨.of 4, ""⟩⟩)⟩,
    ⟨.at (.of 2), .event (.guildDelete ⟨.of 2, false⟩)⟩]

theorem guildTwoRun_ok : ∀ step ∈ roleStep :: guildTwoRun,
    step.Ok (PlacedIn fun _ g => decide (g = .of 2)) := by
  intro step hstep
  fin_cases hstep
  on_goal 2 =>
    rintro e rfl
    exact decide_eq_true rfl
  all_goals
    rintro e rfl
    trivial

/-- What happens in guild 2 does not concern the role of guild 1. -/
theorem slice_exact_role :
    (stateAfter Json.plain .full (.of 9) (roleStep :: guildTwoRun)).strings
        (CacheObject.role (.of 1) (.of 3)).key =
      (stateAfter Json.plain .full (.of 9) [roleStep]).strings
        (CacheObject.role (.of 1) (.of 3)).key := by
  have hslice : (roleStep :: guildTwoRun).filter
      (Step.concerns (fun _ g => decide (g = .of 2)) (.role (.of 1) (.of 3))) = [roleStep] := rfl
  rw [← hslice]
  exact (slice_exact Json.plain_lawful .full (.of 9) guildTwoRun_ok (.role (.of 1) (.of 3))).1

/-- **Only the order within an object matters.** Two runs leave the same store if for every object the
same steps that concern it come at the same times in the same order, however they are interleaved with
steps that concern others and in whatever orders hash maps and sets are iterated. -/
theorem stateAfter_eq_of_slices {J : Json T V} (hJ : J.Lawful) (cfg : Config) (botId : Id .user)
    {places : Id .channel → Id .guild → Bool} {steps steps' : List Step}
    (hok : ∀ step ∈ steps, step.Ok (PlacedIn places))
    (hok' : ∀ step ∈ steps', step.Ok (PlacedIn places))
    (h : ∀ o, (steps.filter (Step.concerns places o)).map Step.timed =
      (steps'.filter (Step.concerns places o)).map Step.timed) :
    stateAfter J cfg botId steps = stateAfter J cfg botId steps' := by
  have hsame (o : CacheObject) :
      Cache.SameFor o (cacheAfter cfg botId steps) (cacheAfter cfg botId steps') := by
    have hslice := sameFor_slice cfg botId hok o
    rw [cacheAfter_of_timed (h o)] at hslice
    exact hslice.trans (sameFor_slice cfg botId hok' o).symm
  have hcache : cacheAfter cfg botId steps = cacheAfter cfg botId steps' := by
    refine Cache.ext (funext fun o => (hsame o).value) (funext fun o => (hsame o).deadline) ?_
    funext g
    ext ch
    exact (hsame (.channel ch)).listed g ch rfl
  have hrep := represents_stateAfter hJ cfg botId steps
  rw [hcache] at hrep
  exact hrep.unique (represents_stateAfter hJ cfg botId steps')

/-- The role may as well be created at the end. -/
theorem stateAfter_roleStep_last :
    stateAfter Json.plain .full (.of 9) (roleStep :: guildTwoRun) =
      stateAfter Json.plain .full (.of 9) (guildTwoRun ++ [roleStep]) := by
  refine stateAfter_eq_of_slices Json.plain_lawful .full (.of 9) guildTwoRun_ok
    (fun step hstep => guildTwoRun_ok step (by simpa [or_comm] using hstep)) fun o => ?_
  by_cases ho : o = .role (.of 1) (.of 3)
  · subst ho
    rfl
  · have hrole : Step.concerns (fun _ g => decide (g = .of 2)) o roleStep = false :=
      decide_eq_false ho
    simp [List.filter_append, hrole]

end TwilightDispatch
