import TwilightDispatch.Created
import TwilightDispatch.Expiry
import TwilightDispatch.OldValue

/-!
# The bot's own member

When members are not cached, the bot's own member is: the creation of a guild stores it, without a
deadline, and a member update of the bot changes it and gives it one. So it stays until its guild is
cleared, unless a sweep finds that deadline past (`bot_member_survives_iff`).
-/

namespace TwilightDispatch

open Atomic Redis

variable {T V : Type} {J : Json T V} {cfg : Config} {botId : Id .user} {env : Env} {s : Store T}
  {g : Id .guild} {member : Member}

/-! ## What an event does to it -/

/-- The member a created guild carries for a user: of several, the last is stored. -/
def Guild.carried (data : Guild) (userId : Id .user) : Option Member :=
  (data.members.filter fun member => member.user.id = userId).getLast?

/-- The member of the bot in a guild after an event. -/
def Event.botMember (g : Id .guild) (botId : Id .user) (member : Member) : Event → Member
  | memberUpdate data => if data.guildId = g ∧ data.user.id = botId then data.merge member else member
  | _ => member

/-- The member of the bot in a guild after the steps of a run. -/
def botMemberAfter (g : Id .guild) (botId : Id .user) (steps : List Step) (member : Member) : Member :=
  steps.foldl (fun member step => match step.job with
    | .event event => event.botMember g botId member
    | .sweep => member) member

/-- The step clears the guild: it is created, deleted or becomes unavailable. -/
def Step.Clears (g : Id .guild) (step : Step) : Prop :=
  ∃ event, step.job = .event event ∧ event.clears = some g

theorem kind_member (g : Id .guild) (u : Id .user) : (Entity.member g u).kind ≠ CHANNEL_KEY :=
  (by decide : MEMBER_KEY ≠ CHANNEL_KEY)

/-! ## The creation of its guild -/

/-- The creation of a guild that carries the bot's member stores it. -/
theorem lastOf_guildItems_bot {data : Guild} (hmember : data.carried botId = some member) :
    lastOf (storedPairs J (guildItems cfg botId data)) (memberKey data.id botId) =
      some (J.text (.member member)) := by
  have hlisted : data.listed cfg botId (.member data.id botId) = some (.member member) := by
    have hlast : (data.members.filter fun member => member.user.id = botId).getLast? = some member :=
      hmember
    simp only [Guild.listed, decide_true, Bool.or_true, if_true, hlast, Option.map_some]
  have he : Entity.member data.id botId = .guild data.id ∨
      (Entity.member data.id botId).guildOf = some data.id := Or.inr rfl
  exact (lastOf_guildItems J cfg botId he).trans (congrArg (Option.map J.text) hlisted)

theorem strings_guildCreate_bot {ok : Entity → Prop} (hJ : J.Lawful) (hoff : cfg.stateMember = false)
    (hs : Indexed s) (hk : Known J ok s) (env : Env) {data : Guild}
    (hmember : data.carried botId = some member) :
    (Fallible.run exec (update J cfg botId env (.guildCreate data)) s).2.strings
      (memberKey data.id botId) = some (J.text (.member member)) := by
  obtain ⟨old, hclear, -⟩ := hs.run_clearGuild hk hJ env.orders data.id
  have hup : update J cfg botId env (.guildCreate data) = (do
      let old ← clearGuild J.value env.orders data.id
      setAll J env.orders (guildItems cfg botId data)
      return old) := by
    unfold update
    rw [hoff]
    rfl
  rw [hup, Fallible.run_bind_ok hclear, Fallible.run_bind_ok (run_setAll _)]
  show (putAll J (guildItems cfg botId data) _).strings _ = _
  rw [strings_putAll, lastOf_guildItems_bot hmember, Option.some_or]

/-! ## The other events -/

/-- An event that does not clear the guild leaves the bot's member there, with the event's update. -/
theorem strings_update_bot (hJ : J.Lawful) (hoff : cfg.stateMember = false) (hs : Indexed s)
    {event : Event} (hclears : event.clears ≠ some g)
    (hm : s.strings (memberKey g botId) = some (J.text (.member member))) :
    (Fallible.run exec (update J cfg botId env event) s).2.strings (memberKey g botId) =
      some (J.text (.member (event.botMember g botId member))) := by
  have helsewhere (htouch : ¬ event.Touches (.member g botId)) :
      (Fallible.run exec (update J cfg botId env event) s).2.strings (memberKey g botId) =
        some (J.text (.member member)) := by
    have hframe : (Fallible.run exec (update J cfg botId env event) s).2.strings (memberKey g botId) =
        s.strings (memberKey g botId) :=
      strings_update_elsewhere hs (kind_member g botId) (fun e' he' _ heq => htouch (heq ▸ he'))
        fun g' hg' heq => hclears (hg'.trans heq.symm)
    exact hframe.trans hm
  cases event with
  | memberUpdate data =>
    by_cases hdata : data.guildId = g ∧ data.user.id = botId
    · obtain ⟨rfl, rfl⟩ := hdata
      have hup : update J cfg data.user.id env (.memberUpdate data) = _ := if_pos (by simp)
      rw [hup, Fallible.run_bind_ok (run_get_some hm (hJ.member member))]
      have hafter : Event.botMember data.guildId data.user.id member (.memberUpdate data) =
          data.merge member := if_pos ⟨rfl, rfl⟩
      rw [hafter]
      exact strings_refresh hJ env (.member member) _ (.member data.guildId data.user.id) _
    · have hafter : Event.botMember g botId member (.memberUpdate data) = member := if_neg hdata
      rw [hafter]
      refine helsewhere fun htouch => hdata ?_
      obtain ⟨rfl, rfl⟩ := Entity.member.inj htouch
      exact ⟨rfl, rfl⟩
  | memberAdd data =>
    unfold update
    rw [hoff]
    exact hm
  | memberChunk data =>
    unfold update
    rw [hoff]
    exact hm
  | memberRemove data =>
    unfold update
    simp only [hoff]
    cases cfg.statePresence with
    | false => exact hm
    | true =>
      show (Fallible.run exec (del env.orders (presenceKey data.guildId data.user.id) >>= _)
        s).2.strings _ = _
      rw [Fallible.run_bind_ok (run_del _)]
      have hpresence : memberKey g botId ∉ [presenceKey data.guildId data.user.id].map newKey := by
        intro hmem
        have hkey : (Entity.member g botId).stored =
            (Entity.presence data.guildId data.user.id).stored :=
          (List.mem_singleton.mp hmem).trans (newKey_stored (.presence _ _))
        cases Entity.stored_inj hkey (kind_member g botId)
      show (dropAll [presenceKey data.guildId data.user.id] s).strings (memberKey g botId) = _
      rw [strings_dropAll, if_neg hpresence]
      exact hm
  | guildCreate data =>
    refine helsewhere ?_
    rintro (heq | ⟨hg, -⟩)
    · cases heq
    · exact hclears hg.symm
  | guildEmojisUpdate data => exact helsewhere fun ⟨_, heq⟩ => nomatch heq
  | messageDeleteBulk data => exact helsewhere fun ⟨_, _, heq⟩ => nomatch heq
  | ready data => exact helsewhere fun | .inr ⟨_, _, heq⟩ => nomatch heq
  | voiceStateUpdate data => exact helsewhere fun ⟨_, _, heq⟩ => nomatch heq
  | _ => exact helsewhere nofun

/-! ## Whole runs -/

/-- A step that does not clear the guild leaves the bot's member there, unless it is a sweep that
finds its deadline past. -/
theorem Step.strings_bot (hJ : J.Lawful) (hoff : cfg.stateMember = false) (hs : Indexed s)
    (hd : Deadlined J s) {step : Step} (hclears : ¬ step.Clears g)
    (hdue : step.job = .sweep → ¬ Due J step.env.now s (memberKey g botId))
    (hm : s.strings (memberKey g botId) = some (J.text (.member member))) :
    (step.next J cfg botId s).strings (memberKey g botId) =
      some (J.text (.member (botMemberAfter g botId [step] member))) := by
  rcases step with ⟨env, event | _⟩
  · rw [Step.next_event]
    exact strings_update_bot hJ hoff hs (fun hg => hclears ⟨event, rfl, hg⟩) hm
  · rw [(hd.strings_sweep hJ env _).2 (hdue rfl)]
    exact hm

/-- **The bot's own member.** From the creation of a guild that carries it until the guild is cleared,
the member of the bot stays in the cache, with its updates, exactly if no sweep in between finds a
deadline of it past. -/
theorem bot_member_survives_iff (hJ : J.Lawful) (hoff : cfg.stateMember = false) (botId : Id .user)
    (steps : List Step) (env : Env) {data : Guild} {member : Member}
    (hmember : data.carried botId = some member) {span : List Step}
    (hspan : ∀ step ∈ span, ¬ step.Clears data.id) :
    let after := fun n =>
      stateAfter J cfg botId (steps ++ ⟨env, .event (.guildCreate data)⟩ :: span.take n)
    (∀ n ≤ span.length, (after n).strings (memberKey data.id botId) =
      some (J.text (.member (botMemberAfter data.id botId (span.take n) member)))) ↔
        ∀ n env', span[n]? = some ⟨env', .sweep⟩ →
          ¬ Due J env'.now (after n) (memberKey data.id botId) := by
  intro after
  have hindexed (steps : List Step) : Indexed (stateAfter J cfg botId steps) :=
    (Indexed.stable (J := J) _).stateAfter .empty fun step _ => step.ok_true
  have hdead (steps : List Step) : Deadlined J (stateAfter J cfg botId steps) :=
    Deadlined.stateAfter steps
  have hnext {n : ℕ} {step : Step} (hstep : span[n]? = some step) :
      after (n + 1) = step.next J cfg botId (after n) := by
    show stateAfter J cfg botId _ = step.next J cfg botId (stateAfter J cfg botId _)
    rw [List.take_add_one, hstep, ← stateAfter_append]
    simp
  constructor
  · intro h n env' hsweep hdue
    have hlt : n < span.length := (List.getElem?_eq_some_iff.mp hsweep).1
    have hgone : (after (n + 1)).strings (memberKey data.id botId) = none := by
      rw [hnext hsweep]
      exact ((hdead _).strings_sweep hJ env' _).1 hdue
    rw [h (n + 1) hlt] at hgone
    cases hgone
  · intro h n
    induction n with
    | zero =>
      intro _
      have hzero : after 0 = Step.next J cfg botId (stateAfter J cfg botId steps)
          ⟨env, .event (.guildCreate data)⟩ := stateAfter_append _ _
      rw [hzero, Step.next_event]
      have hknown : Known J (fun _ => True) (stateAfter J cfg botId steps) :=
        (Known.stable _).stateAfter .empty fun step _ => step.ok_true
      exact strings_guildCreate_bot hJ hoff (hindexed steps) hknown env hmember
    | succ n ih =>
      intro hlt
      have hstep : span[n]? = some span[n] := List.getElem?_eq_getElem hlt
      have hmerged : botMemberAfter data.id botId (span.take (n + 1)) member =
          botMemberAfter data.id botId [span[n]]
            (botMemberAfter data.id botId (span.take n) member) := by
        rw [List.take_add_one, hstep]
        exact List.foldl_append
      rw [hnext hstep, hmerged]
      refine Step.strings_bot hJ hoff (hindexed _) (hdead _) (hspan _ (List.getElem_mem hlt)) ?_
        (ih (Nat.le_of_succ_le hlt))
      intro hsweep
      refine h n span[n].env ?_
      rw [hstep, ← hsweep]

/-- Everything but members is cached. -/
def Config.withoutMembers : Config := { Config.full with stateMember := false }

/-- A guild with the bot as its only member. -/
def botGuild : Guild :=
  ⟨.of 1, "", [], [], [⟨.of 1, 0, none, none, [], ⟨.of 9, ""⟩, ""⟩], [], [], [], ""⟩

/-- The bot's member is given a nickname, and a sweep follows. -/
def renamedThenSwept (now : FormattedDateTime) : List Step :=
  [⟨.at (.of 0), .event (.memberUpdate ⟨.of 1, 0, some "bot", none, [], ⟨.of 9, ""⟩⟩)⟩,
    ⟨.at now, .sweep⟩]

theorem renamedThenSwept_clears (now : FormattedDateTime) :
    ∀ step ∈ renamedThenSwept now, ¬ step.Clears (.of 1) := by
  intro step hstep
  rcases List.mem_cons.mp hstep with rfl | hstep
  · rintro ⟨event, hevent, hclears⟩
    cases hevent
    cases hclears
  · obtain rfl := List.mem_singleton.mp hstep
    rintro ⟨event, hevent, -⟩
    cases hevent

/-- The bot's member survives a sweep at the moment of its update. -/
theorem bot_member_survives_at_once :
    (stateAfter Json.plain .withoutMembers (.of 9)
      (⟨.at (.of 0), .event (.guildCreate botGuild)⟩ :: renamedThenSwept (.of 0))).strings
        (memberKey (.of 1) (.of 9)) =
      some (.member ⟨.of 1, 0, some "bot", none, [], ⟨.of 9, ""⟩, ""⟩) := by
  have hcarried : botGuild.carried (.of 9) =
      some ⟨.of 1, 0, none, none, [], ⟨.of 9, ""⟩, ""⟩ := by decide
  have hoff : Config.withoutMembers.stateMember = false := rfl
  refine (bot_member_survives_iff Json.plain_lawful hoff (.of 9) [] (.at (.of 0)) hcarried
    (renamedThenSwept_clears (.of 0))).mpr ?_ 2 le_rfl
  rintro (_ | _ | n) env' hsweep
  · cases hsweep
  · cases hsweep
    rintro ⟨d, hlt, hd⟩
    have hdeadline : (((stateAfter Json.plain .withoutMembers (.of 9)
        (⟨.at (.of 0), .event (.guildCreate botGuild)⟩ ::
          (renamedThenSwept (.of 0)).take 1)).hashes EXPIRY_KEYS).lookup
            (memberKey (.of 1) (.of 9))).all (fun item =>
              (Json.plain.timestamp item).toOption.all fun d => decide (0 ≤ d.nanos)) = true := by
      decide +kernel
    have hle := of_decide_eq_true ((congrArg (Option.all _) hd).symm.trans hdeadline)
    exact absurd hlt (not_lt.mpr hle)
  · cases hsweep

/-- A sweep after the time to live of members removes the bot's member. -/
theorem bot_member_swept : (botGuild.carried (.of 9)).isSome = true ∧
    (∀ step ∈ renamedThenSwept (.of 2000000000), ¬ step.Clears botGuild.id) ∧
    ¬ ∀ n ≤ (renamedThenSwept (.of 2000000000)).length,
      (stateAfter Json.plain .withoutMembers (.of 9)
        (⟨.at (.of 0), .event (.guildCreate botGuild)⟩ ::
          (renamedThenSwept (.of 2000000000)).take n)).strings (memberKey (.of 1) (.of 9)) ≠ none := by
  refine ⟨rfl, renamedThenSwept_clears _, fun h => h 2 le_rfl ?_⟩
  decide +kernel

end TwilightDispatch
