import TwilightDispatch.Overwrite
import TwilightDispatch.Slices

/-!
# Events that are delivered again

After a resume the gateway may deliver events again that were handled before. What an event does to the
value of an object is to store one, to remove it, or to replace some of its fields, and what it does to
the index of a guild is to enter or to remove a channel (`Event.acts`). Such updates overwrite: of events
that are handled twice only the later handling counts (`redelivered`). This is so where lists of keys are
read as lists: an update that fails on a single key overwrites nothing.
-/

namespace TwilightDispatch

open Atomic Redis Overwrite

variable {T V α : Type} {J : Json T V} {cfg : Config} {botId : Id .user} {c : Cache}
  {o : CacheObject} {home : Id .channel → Option (Id .guild)}

/-! ## Changes of fields -/

/-- The changes of a message: an update replaces the fields it carries. -/
def messageEdits : Submonoid (Function.End Message) where
  carrier := {f | ∃ data : MessageUpdate, f = data.merge}
  one_mem' := ⟨.combined (.of 1) (.of 1) [], rfl⟩
  mul_mem' := by
    rintro f g ⟨a, rfl⟩ ⟨b, rfl⟩
    exact ⟨.combined (.of 1) (.of 1) [b, a], funext (foldl_merge (.of 1) (.of 1) [b, a])⟩

theorem overwriting_messageEdits : Overwriting messageEdits where
  absorb := by
    rintro f ⟨a, rfl⟩ g ⟨b, rfl⟩
    funext message
    change a.merge (b.merge (a.merge message)) = a.merge (b.merge message)
    have hgetD {β : Type} (x y : Option β) (z : β) :
        x.getD (y.getD (x.getD z)) = x.getD (y.getD z) := by cases x <;> cases y <;> rfl
    have hor {β : Type} (x y z : Option β) : x.or (y.or (x.or z)) = x.or (y.or z) := by
      cases x <;> cases y <;> rfl
    simp only [MessageUpdate.merge, hgetD, hor]

/-- The changes of a member: an update replaces the same fields as every other. -/
def memberEdits : Submonoid (Function.End Member) :=
  orNothing {f | ∃ data : MemberUpdate, f = data.merge} (by
    rintro f ⟨a, rfl⟩ g ⟨b, rfl⟩
    rfl)

theorem overwriting_memberEdits : Overwriting memberEdits := overwriting_orNothing _

/-- The change of the pins of a channel. -/
def pinEdits : Submonoid (Function.End Channel) :=
  orNothing {f | ∃ pins, f = fun channel : Channel => { channel with lastPinTimestamp := pins }} (by
    rintro f ⟨a, rfl⟩ g ⟨b, rfl⟩
    rfl)

theorem overwriting_pinEdits : Overwriting pinEdits := overwriting_orNothing _

/-- The changes of the value of an object. -/
def CacheObject.edits : (o : CacheObject) → Submonoid (Function.End o.Value)
  | message _ _ => messageEdits
  | member _ _ => memberEdits
  | channel _ => pinEdits
  | botUser | guild _ | role _ _ | emoji _ _ | presence _ _ | voice _ _ => ⊥

theorem CacheObject.overwriting_edits (o : CacheObject) : Overwriting o.edits := by
  cases o with
  | message c m => exact overwriting_messageEdits
  | member g u => exact overwriting_memberEdits
  | channel c => exact overwriting_pinEdits
  | _ => exact overwriting_bot

/-! ## Views of a cache -/

/-- Every channel that is cached is listed in its home and in no other guild. -/
def Cache.Homed (home : Id .channel → Option (Id .guild)) (c : Cache) : Prop :=
  ∀ g ch, c.value (.channel ch) ≠ none → (ch ∈ c.listed g ↔ home ch = some g)

theorem Cache.Homed.value_clear (hc : c.Homed home) (g : Id .guild) :
    (c.clear g).value o =
      if o.clearedBy (fun ch g => home ch = some g) g then none else c.value o := by
  rw [clear, value_dropWhere]
  cases o with
  | channel ch =>
    by_cases hv : c.value (.channel ch) = none
    · rw [hv, ite_self, ite_self]
    · have hcleared : c.clearedWith g (.channel ch) = decide (home ch = some g) :=
        decide_eq_decide.mpr (hc g ch hv)
      rw [hcleared]
      rfl
  | _ => rfl

/-- What is seen of a cache, with the updates that the operations do to it. -/
structure View (home : Id .channel → Option (Id .guild)) (α : Type) where
  see : Cache → α
  updates : Submonoid (Function.End α)
  overwriting : Overwriting updates
  set : ∀ entry, ∃ f ∈ updates, ∀ c, see (c.set entry) = f (see c)
  del : ∀ e, ∃ f ∈ updates, ∀ c, see (c.del e) = f (see c)
  dropWhere : ∀ p, ∃ f ∈ updates, ∀ c, see (c.dropWhere p) = f (see c)
  clear : ∀ g, ∃ f ∈ updates, ∀ c : Cache, c.Homed home → see (c.clear g) = f (see c)
  modify : ∀ (o : CacheObject) (f : o.Value → o.Value), f ∈ o.edits →
    ∃ g ∈ updates, ∀ c, see (c.modify o f) = g (see c)
  stamp : ∀ c objects d, see (Cache.stamp c objects d) = see c

/-- The value of an object. -/
def CacheObject.view (home : Id .channel → Option (Id .guild)) (o : CacheObject) :
    View home (Option o.Value) where
  see c := c.value o
  updates := onOption o.edits
  overwriting := o.overwriting_edits.option
  set entry := by
    by_cases ho : o = entry.1.object
    · subst ho
      exact ⟨fun _ => some entry.2, const_mem_onOption _, fun c => Cache.value_set_self⟩
    · exact ⟨1, one_mem _, fun c => Cache.value_set_of_ne ho⟩
  del e := by
    by_cases ho : o = e.object
    · exact ⟨fun _ => none, const_mem_onOption _, fun c => Cache.value_del.trans (if_pos ho)⟩
    · exact ⟨1, one_mem _, fun c => Cache.value_del.trans (if_neg ho)⟩
  dropWhere p := by
    by_cases ho : p o
    · exact ⟨fun _ => none, const_mem_onOption _, fun c => if_pos ho⟩
    · exact ⟨1, one_mem _, fun c => if_neg ho⟩
  clear g := by
    by_cases ho : o.clearedBy (fun ch g => home ch = some g) g
    · exact ⟨fun _ => none, const_mem_onOption _, fun c hc => (hc.value_clear g).trans (if_pos ho)⟩
    · exact ⟨1, one_mem _, fun c hc => (hc.value_clear g).trans (if_neg ho)⟩
  modify o' f hf := by
    by_cases ho : o = o'
    · subst ho
      exact ⟨Option.map f, map_mem_onOption hf, fun c => Function.update_self _ _ _⟩
    · exact ⟨1, one_mem _, fun c => Function.update_of_ne ho _ _⟩
  stamp _ _ _ := rfl

/-- Whether a channel is listed in a guild. -/
def listedView (home : Id .channel → Option (Id .guild)) (g : Id .guild) (ch : Id .channel) :
    View home Prop where
  see c := ch ∈ c.listed g
  updates := orNothing {f | ∃ p, f = fun _ => p} (by
    rintro f ⟨p, rfl⟩ g -
    rfl)
  overwriting := overwriting_orNothing _
  set entry := by
    by_cases he : entry.1 = .channel (some g) ch
    · exact ⟨fun _ => True, .inr ⟨_, rfl⟩, fun c => by simp [he]⟩
    · exact ⟨1, one_mem _, fun c => propext (Cache.mem_listed_set.trans (or_iff_left he))⟩
  del e := by
    by_cases he : e = .channel (some g) ch
    · exact ⟨fun _ => False, .inr ⟨_, rfl⟩, fun c => by simp [he]⟩
    · exact ⟨1, one_mem _, fun c => propext (Cache.mem_listed_del.trans (and_iff_left he))⟩
  dropWhere p := ⟨1, one_mem _, fun _ => rfl⟩
  clear g := ⟨1, one_mem _, fun _ _ => rfl⟩
  modify o f _ := ⟨1, one_mem _, fun _ => rfl⟩
  stamp _ _ _ := rfl

/-! ## What an event does to a view -/

/-- On caches that satisfy `P`, the operation does to the view what one of its updates does, at whatever
time. -/
def View.ActsOn (w : View home α) (P : Cache → Prop) (F : FormattedDateTime → Cache → Cache) : Prop :=
  ∃ f ∈ w.updates, ∀ now c, P c → w.see (F now c) = f (w.see c)

namespace View.ActsOn

variable {w : View home α} {P : Cache → Prop} {F G : FormattedDateTime → Cache → Cache}

theorem id : w.ActsOn P fun _ c => c := ⟨1, one_mem _, fun _ _ _ => rfl⟩

theorem comp (hG : w.ActsOn (fun _ => True) G) (hF : w.ActsOn P F) :
    w.ActsOn P fun now c => G now (F now c) := by
  obtain ⟨g, hg, hgv⟩ := hG
  obtain ⟨f, hf, hfv⟩ := hF
  refine ⟨g * f, mul_mem hg hf, fun now c hc => ?_⟩
  rw [hgv now _ trivial, hfv now c hc]
  rfl

theorem ite {p : Prop} [Decidable p] (hF : w.ActsOn P F) (hG : w.ActsOn P G) :
    w.ActsOn P fun now c => if p then F now c else G now c := by
  split_ifs
  · exact hF
  · exact hG

theorem set (entry : CacheEntry) : w.ActsOn P fun _ c => c.set entry := by
  obtain ⟨f, hf, hfv⟩ := w.set entry
  exact ⟨f, hf, fun _ c _ => hfv c⟩

theorem setAll (entries : List CacheEntry) : w.ActsOn P fun _ c => c.setAll entries := by
  induction entries generalizing P with
  | nil => exact id
  | cons entry entries ih => exact comp ih (set entry)

theorem dropWhere (p : CacheObject → Bool) : w.ActsOn P fun _ c => c.dropWhere p := by
  obtain ⟨f, hf, hfv⟩ := w.dropWhere p
  exact ⟨f, hf, fun _ c _ => hfv c⟩

theorem del (e : Entity) : w.ActsOn P fun _ c => c.del e := by
  obtain ⟨f, hf, hfv⟩ := w.del e
  exact ⟨f, hf, fun _ c _ => hfv c⟩

theorem delAll (entities : List Entity) : w.ActsOn P fun _ c => c.delAll entities := by
  induction entities generalizing P with
  | nil => exact id
  | cons e entities ih => exact comp ih (del e)

theorem clear (g : Id .guild) : w.ActsOn (Cache.Homed home) fun _ c => c.clear g := by
  obtain ⟨f, hf, hfv⟩ := w.clear g
  exact ⟨f, hf, fun _ c => hfv c⟩

theorem modify {o : CacheObject} {f : o.Value → o.Value} (hf : f ∈ o.edits) :
    w.ActsOn P fun _ c => c.modify o f := by
  obtain ⟨g, hg, hgv⟩ := w.modify o f hf
  exact ⟨g, hg, fun _ c _ => hgv c⟩

theorem stamp {objects : List CacheObject} {d : FormattedDateTime → Option FormattedDateTime}
    (hF : w.ActsOn P F) : w.ActsOn P fun now c => (F now c).stamp objects (d now) := by
  obtain ⟨f, hf, hfv⟩ := hF
  exact ⟨f, hf, fun now c hc => (w.stamp _ _ _).trans (hfv now c hc)⟩

/-- A value that is read, changed and written back. -/
theorem refresh {o : CacheObject} {f : o.Value → o.Value}
    {d : FormattedDateTime → Option FormattedDateTime} (hf : f ∈ o.edits) : w.ActsOn P fun now c =>
      if (c.value o).isSome then (c.modify o f).stamp [o] (d now) else c := by
  obtain ⟨g, hg, hgv⟩ := w.modify o f hf
  refine ⟨g, hg, fun now c _ => ?_⟩
  rw [← hgv c]
  dsimp only
  split_ifs with hv
  · exact w.stamp _ _ _
  · rw [Cache.modify_of_none (by simpa using hv)]

end View.ActsOn

variable (cfg botId) in
/-- **What an event does to a view** is one of its updates, the same at all times and on all caches, where
a list of one key is read as a list. -/
theorem Event.acts (w : View home α) (event : Event) :
    w.ActsOn (Cache.Homed home) fun now c => event.effect cfg botId .list now c := by
  cases event with
  | channelCreate data => exact .set _
  | channelDelete data => exact .del _
  | channelPinsUpdate data => exact .ite (.modify (.inr ⟨_, rfl⟩)) .id
  | channelUpdate data => exact .set _
  | guildCreate data =>
    have hput : w.ActsOn (Cache.Homed home) fun _ c =>
        (c.clear data.id).setAll (data.entries cfg botId) := .comp (.setAll _) (.clear data.id)
    exact .ite hput.stamp hput
  | guildDelete data => exact .clear data.id
  | guildEmojisUpdate data =>
    simp only [Event.effect, Cache.changeTo_list]
    exact .ite (.comp (.setAll _) (.dropWhere _)) .id
  | guildUpdate data => exact .set _
  | memberAdd data => exact .ite (.stamp (.set _)) .id
  | memberRemove data =>
    have hmember : w.ActsOn (Cache.Homed home) fun _ c =>
        if cfg.stateMember then c.del (.member data.guildId data.user.id) else c := .ite (.del _) .id
    exact .ite (.comp (.del _) hmember) hmember
  | memberUpdate data => exact .ite (.refresh (.inr ⟨data, rfl⟩)) .id
  | memberChunk data => exact .ite (.stamp (.setAll _)) .id
  | messageCreate data => exact .ite (.stamp (.set _)) .id
  | messageDelete data => exact .ite (.del _) .id
  | messageDeleteBulk data =>
    simp only [Event.effect, Cache.changeTo_list]
    exact .ite (.delAll _) .id
  | messageUpdate data => exact .ite (.refresh ⟨data, rfl⟩) .id
  | presenceUpdate data => exact .ite (.set _) .id
  | ready data =>
    have hput : w.ActsOn (Cache.Homed home) fun _ c => (c.set ⟨.botUser, data.user⟩).setAll
        (data.guilds.map fun guild => ⟨.guild guild.id, .unavailable guild⟩) :=
      .comp (.setAll _) (.set _)
    exact hput
  | roleCreate data => exact .set _
  | roleDelete data => exact .del _
  | roleUpdate data => exact .set _
  | unavailableGuild data =>
    have hput : w.ActsOn (Cache.Homed home) fun _ c =>
        (c.clear data.id).set ⟨.guild data.id, .unavailable data⟩ := .comp (.set _) (.clear data.id)
    exact hput
  | userUpdate data => exact .set _
  | voiceStateUpdate data =>
    rcases data with ⟨_ | g, _ | ch, u, extra⟩
    · exact .ite .id .id
    · exact .ite .id .id
    · exact .ite (.del _) .id
    · exact .ite (.set _) .id
  | _ => exact .id

/-! ## Runs -/

variable (cfg botId) in
theorem homed_cacheAfter {steps : List Step} (hok : ∀ step ∈ steps, step.Ok (HomeOnly home)) :
    (cacheAfter cfg botId steps).Homed home := by
  intro g ch hv
  have hrep := represents_stateAfter Json.plain_lawful cfg botId steps
  have hhomed : Homed home (stateAfter Json.plain cfg botId steps) := (WellFormed.stateAfter hok).homed
  have hsets (g : Id .guild) := hrep.sets (guildKeys (toString g)) (.channel ch)
  constructor
  · intro hl
    obtain ⟨ch', hhome, hk⟩ := hhomed.home g (privateChannelKey ch) (kindOf_privateChannelKey ch)
      ((hsets g).mpr (.inr ⟨g, ch, rfl, hl, rfl⟩))
    obtain rfl := privateChannelKey_inj.mp hk
    exact hhome
  · intro hhome
    have hhas : (stateAfter Json.plain cfg botId steps).Has (privateChannelKey ch) := by
      intro hnone
      exact hv (Option.map_eq_none_iff.mp ((hrep.strings (.channel ch)).symm.trans hnone))
    obtain ⟨-, hS⟩ | ⟨g', ch', hch, hl, hg⟩ := (hsets g).mp (hhomed.listed g ch hhome hhas)
    · exact absurd (List.mem_singleton.mp hS) (guildKeys_ne_kindKeys (by decide) _)
    · obtain rfl := CacheObject.channel.inj hch
      obtain rfl := Id.toString_inj.mp (guildKeys_inj.mp hg)
      exact hl

/-- The steps that handle events. -/
def handling (events : List (Env × Event)) : List Step :=
  events.map fun event => ⟨event.1, .event event.2⟩

@[simp] theorem handling_append (events events' : List (Env × Event)) :
    handling (events ++ events') = handling events ++ handling events' := List.map_append

variable (cfg botId) in
/-- What handling events does to a view is what the events do, one after the other. -/
theorem View.see_handling (w : View home α) {f : Event → Function.End α}
    (hf : ∀ event now c, Cache.Homed home c →
      w.see (event.effect cfg botId .list now c) = f event (w.see c))
    {before : List Step} {events : List (Env × Event)}
    (hok : ∀ step ∈ before ++ handling events, step.Ok (HomeOnly home))
    (hone : ∀ event ∈ events, event.2.readsMany = true → event.1.oneKey = .list) :
    w.see (cacheAfter cfg botId (before ++ handling events)) =
      through ((events.map Prod.snd).map f) (w.see (cacheAfter cfg botId before)) := by
  induction events using List.reverseRecOn with
  | nil => simp [handling, through]
  | append_singleton events event ih =>
    have hprefix : ∀ step ∈ before ++ handling events, step.Ok (HomeOnly home) := by
      intro step hstep
      refine hok step ?_
      rw [handling_append, ← List.append_assoc]
      exact List.mem_append_left _ hstep
    obtain ⟨hones, hlast⟩ := List.forall_mem_append.mp hone
    rw [handling_append, ← List.append_assoc]
    calc w.see (cacheAfter cfg botId (before ++ handling events ++ handling [event]))
        = w.see (event.2.effect cfg botId event.1.oneKey event.1.now
            (cacheAfter cfg botId (before ++ handling events))) :=
          congrArg w.see (cacheAfter_append _ ⟨event.1, .event event.2⟩)
      _ = w.see (event.2.effect cfg botId .list event.1.now
            (cacheAfter cfg botId (before ++ handling events))) := by
          rw [Event.effect_of_list (hlast event (List.mem_singleton_self event))]
      _ = f event.2 (w.see (cacheAfter cfg botId (before ++ handling events))) :=
          hf _ _ _ (homed_cacheAfter cfg botId hprefix)
      _ = f event.2 (through ((events.map Prod.snd).map f)
            (w.see (cacheAfter cfg botId before))) := by rw [ih hprefix hones]
      _ = through (((events ++ [event]).map Prod.snd).map f) (w.see (cacheAfter cfg botId before)) := by
          simp only [List.map_append, through_append]
          rfl

variable (cfg botId) in
theorem View.see_redelivered (w : View home α) {before : List Step} {us vs us' : List (Env × Event)}
    (hok : ∀ step ∈ before ++ handling (us ++ vs ++ us'), step.Ok (HomeOnly home))
    (hone : ∀ event ∈ us ++ vs ++ us', event.2.readsMany = true → event.1.oneKey = .list)
    (hsame : us'.map Prod.snd = us.map Prod.snd) :
    w.see (cacheAfter cfg botId (before ++ handling (us ++ vs ++ us'))) =
      w.see (cacheAfter cfg botId (before ++ handling (vs ++ us'))) := by
  choose f hf hacts using Event.acts cfg botId w
  have hmem (events : List Event) : ∀ g ∈ events.map f, g ∈ w.updates := by
    simpa using fun event _ => hf event
  have hrest : ∀ step ∈ before ++ handling (vs ++ us'), step.Ok (HomeOnly home) := by
    intro step hstep
    refine hok step ?_
    simp only [handling_append, List.mem_append] at hstep ⊢
    tauto
  have hones : ∀ event ∈ vs ++ us', event.2.readsMany = true → event.1.oneKey = .list :=
    fun event he => hone event (by rw [List.append_assoc]; exact List.mem_append_right us he)
  rw [w.see_handling cfg botId hacts hok hone, w.see_handling cfg botId hacts hrest hones]
  simp only [List.map_append, hsame]
  rw [w.overwriting.absorb_through (hmem _) (hmem _)]

/-- **Events may be delivered again.** Events that have been handled may all come again, at other times
and with others in between: the values and the indexes are then those that handling them the second time
only would have left, if every list of keys is read as a list. -/
theorem redelivered {J : Json T V} (hJ : J.Lawful) (cfg : Config) (botId : Id .user)
    {home : Id .channel → Option (Id .guild)} {before : List Step} {us vs us' : List (Env × Event)}
    (hok : ∀ step ∈ before ++ handling (us ++ vs ++ us'), step.Ok (HomeOnly home))
    (hone : ∀ event ∈ us ++ vs ++ us', event.2.readsMany = true → event.1.oneKey = .list)
    (hsame : us'.map Prod.snd = us.map Prod.snd) :
    let s := stateAfter J cfg botId (before ++ handling (us ++ vs ++ us'))
    let s' := stateAfter J cfg botId (before ++ handling (vs ++ us'))
    s.strings = s'.strings ∧ s.sets = s'.sets := by
  intro s s'
  have h : Represents J _ s := represents_stateAfter hJ cfg botId _
  have h' : Represents J _ s' := represents_stateAfter hJ cfg botId _
  have hvalue (o : CacheObject) := (o.view home).see_redelivered cfg botId hok hone hsame
  have hlisted (g : Id .guild) (ch : Id .channel) :=
    (listedView home g ch).see_redelivered cfg botId hok hone hsame
  constructor
  · funext k
    by_cases hk : ∃ o : CacheObject, o.key = k
    · obtain ⟨o, rfl⟩ := hk
      rw [h.strings, h'.strings]
      exact congrArg (Option.map _) (hvalue o)
    · rw [not_exists] at hk
      rw [(h.others k hk).1, (h'.others k hk).1]
  · funext S
    ext k
    by_cases hk : ∃ o : CacheObject, o.key = k
    · obtain ⟨o, rfl⟩ := hk
      rw [h.sets, h'.sets]
      refine or_congr (and_congr_left' (not_congr (Eq.congr_left (hvalue o)))) ?_
      refine exists_congr fun g => exists_congr fun ch => and_congr_right fun _ => and_congr_left' ?_
      exact iff_of_eq (hlisted g ch)
    · rw [not_exists] at hk
      exact iff_of_false ((h.others k hk).2.1 S) ((h'.others k hk).2.1 S)

/-- A role of guild 1 is created and changed. -/
def roleEvents (now : FormattedDateTime) : List (Env × Event) :=
  [(.at now, .roleCreate ⟨.of 1, ⟨.of 3, "{}"⟩⟩), (.at now, .roleUpdate ⟨.of 1, ⟨.of 3, ""⟩⟩)]

/-- The guild is deleted, and the events about its role come again. -/
theorem redelivered_role :
    let guildDelete : List (Env × Event) := [(.at (.of 1), .guildDelete ⟨.of 1, false⟩)]
    (stateAfter Json.plain .full (.of 9)
        (handling (roleEvents (.of 0) ++ guildDelete ++ roleEvents (.of 2)))).strings =
      (stateAfter Json.plain .full (.of 9) (handling (guildDelete ++ roleEvents (.of 2)))).strings := by
  intro guildDelete
  have hok : ∀ step ∈ [] ++ handling (roleEvents (.of 0) ++ guildDelete ++ roleEvents (.of 2)),
      step.Ok (HomeOnly fun _ => none) := by
    intro step hstep
    fin_cases hstep <;>
    · rintro e rfl
      trivial
  have hone : ∀ event ∈ roleEvents (.of 0) ++ guildDelete ++ roleEvents (.of 2),
      event.2.readsMany = true → event.1.oneKey = .list := by
    intro event he _
    fin_cases he <;> rfl
  have hsame : (roleEvents (.of 2)).map Prod.snd = (roleEvents (.of 0)).map Prod.snd := rfl
  exact (redelivered Json.plain_lawful .full (.of 9) hok hone hsame).1

end TwilightDispatch
