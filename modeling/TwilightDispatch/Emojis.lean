import TwilightDispatch.Frame
import TwilightDispatch.OldValue

/-!
# Emoji updates

An emoji update of a guild lists all its emojis. The cached ones are found by the index of the guild,
which also lists everything else of it; those that are not listed any more are deleted and the listed
ones are written. So the emojis of the guild become what the update lists (`emojisUpdate_exact`).
-/

namespace TwilightDispatch

open Atomic Redis

variable {T V : Type} {J : Json T V} {cfg : Config} {botId : Id .user} {s : Store T}
  {ok : Entity → Prop} {g : Id .guild} {k S : String} {emojis : List Emoji}

/-! ## The keys of the emojis of a guild -/

/-- The key is one of the keys `emoji:g:*`. -/
def EmojiOf (g : Id .guild) (k : String) : Prop :=
  ∃ rest, k = EMOJI_KEY ++ ":" ++ toString g ++ ":" ++ rest

theorem kind_emoji (g : Id .guild) (id : Id .emoji) : (Entity.emoji g id).kind ≠ CHANNEL_KEY :=
  (by decide : EMOJI_KEY ≠ CHANNEL_KEY)

@[simp] theorem newKey_emojiKey (g : Id .guild) (id : Id .emoji) :
    newKey (emojiKey g id) = emojiKey g id := newKey_stored (.emoji g id)

theorem emojiKey_inj {id id' : Id .emoji} : emojiKey g id = emojiKey g id' ↔ id = id' := by
  refine ⟨fun h => ?_, congrArg _⟩
  have hstored : (Entity.emoji g id).stored = (Entity.emoji g id').stored := h
  exact (Entity.emoji.inj (Entity.stored_inj hstored (kind_emoji g id))).2

theorem emojiOf_emojiKey (g : Id .guild) (id : Id .emoji) : EmojiOf g (emojiKey g id) :=
  ⟨toString id, rfl⟩

theorem EmojiOf.split (h : EmojiOf g k) : ∃ rest, split k = EMOJI_KEY :: toString g :: rest := by
  obtain ⟨rest, rfl⟩ := h
  have hassoc : EMOJI_KEY ++ ":" ++ toString g ++ ":" ++ rest =
      EMOJI_KEY ++ ":" ++ (toString g ++ ":" ++ rest) := by simp [String.append_assoc]
  rw [hassoc, split_append_colon (by decide), split_append_colon g.colon_notMem]
  exact ⟨_, rfl⟩

theorem EmojiOf.kindOf_eq (h : EmojiOf g k) : kindOf k = EMOJI_KEY := by
  obtain ⟨rest, hsplit⟩ := h.split
  rw [kindOf, hsplit]
  rfl

/-- What is stored under such a key is an emoji of the guild. -/
theorem Known.eq_emojiKey (h : Known J ok s) (hk : s.Has k) (he : EmojiOf g k) :
    ∃ id, k = emojiKey g id := by
  obtain ⟨e, -, rfl⟩ := h.entity hk
  have hkind : e.kind = EMOJI_KEY := (kindOf_stored e).symm.trans he.kindOf_eq
  cases e with
  | emoji g' id =>
    obtain ⟨rest, hsplit⟩ := he.split
    simp only [Entity.stored, Entity.key, split_emojiKey, List.cons.injEq] at hsplit
    obtain rfl := Id.toString_inj.mp hsplit.2.1
    exact ⟨id, rfl⟩
  | _ => exact absurd hkind (by simp only [Entity.kind]; decide)

/-- The emojis of a guild are in the index of the emojis and in that of the guild. -/
theorem Indexed.mem_emoji (h : Indexed s) (hS : S = kindKeys EMOJI_KEY ∨ S = guildKeys (toString g))
    (hk : Known J ok s) (he : EmojiOf g k) : k ∈ s.sets S ↔ s.Has k := by
  have hkind : kindOf k ≠ CHANNEL_KEY :=
    he.kindOf_eq.trans_ne (by decide : EMOJI_KEY ≠ CHANNEL_KEY)
  rw [h.listed S k fun hc => absurd hc hkind, and_iff_left_iff_imp]
  intro hhas
  obtain ⟨id, rfl⟩ := hk.eq_emojiKey hhas he
  refine (mem_setMembers_stored (.emoji g id)).mpr ?_
  rcases hS with rfl | rfl <;> simp [Entity.indexes]

/-! ## The cached emojis -/

/-- The list is that of the cached emojis of the guild. -/
structure Cached (J : Json T V) (s : Store T) (g : Id .guild) (emojis : List Emoji) : Prop where
  nodup : (emojis.map fun emoji => emojiKey g emoji.id).Nodup
  text : ∀ emoji ∈ emojis, s.strings (emojiKey g emoji.id) = some (J.text (.emoji emoji))
  mem : ∀ k, EmojiOf g k → (s.Has k ↔ ∃ emoji ∈ emojis, emojiKey g emoji.id = k)

/-- A key of an emoji of the guild holds an emoji with the identifier of the key. -/
theorem Known.emoji_text (hk : Known J ok s) (hhas : s.Has k) (he : EmojiOf g k) :
    ∃ emoji, emojiKey g emoji.id = k ∧ s.strings k = some (J.text (.emoji emoji)) := by
  obtain ⟨id, rfl⟩ := hk.eq_emojiKey hhas he
  obtain ⟨t, ht⟩ := Option.ne_none_iff_exists'.mp hhas
  obtain ⟨i, hi, rfl⟩ := hk.text (kind_emoji g id) ht
  cases i with
  | emoji emoji =>
    obtain rfl : emoji.id = id := hi
    exact ⟨emoji, rfl, ht⟩
  | _ => cases hi

/-- What the index of a guild lists and is an emoji is an emoji of the guild. -/
theorem Indexed.emojiOf_of_listed (hi : Indexed s) (hk : Known J ok s)
    (hl : k ∈ s.sets (guildKeys (toString g))) (hkind : kindOf k = EMOJI_KEY) : EmojiOf g k := by
  obtain ⟨hhas, hm⟩ := (hi.listed _ _ fun hc => absurd (hkind.symm.trans hc) (by decide)).mp hl
  obtain ⟨e, -, rfl⟩ := hk.entity hhas
  have hg := (guildKeys_mem_indexes.mp ((mem_setMembers_stored e).mp hm)).2
  rw [kindOf_stored] at hkind
  cases e with
  | emoji g' id =>
    obtain rfl := Option.some.inj hg
    exact emojiOf_emojiKey _ id
  | _ => exact absurd hkind (by simp only [Entity.kind]; decide)

/-- The keys of the emojis in the index of the guild are those of the cached emojis. -/
theorem Known.exists_cached (hk : Known J ok s) (hi : Indexed s) (orders : Orders) (g : Id .guild) :
    ∃ emojis, Cached J s g emojis ∧
      (orders.listing (s.sets (guildKeys (toString g)))).filter
        (fun key => (split key).headD "" = EMOJI_KEY) =
          emojis.map fun emoji => emojiKey g emoji.id := by
  generalize hkeys : (orders.listing (s.sets (guildKeys (toString g)))).filter
    (fun key => (split key).headD "" = EMOJI_KEY) = keys
  have hmem (key : String) : key ∈ keys ↔
      key ∈ s.sets (guildKeys (toString g)) ∧ kindOf key = EMOJI_KEY := by
    rw [← hkeys, List.mem_filter, orders.mem_listing, decide_eq_true_eq]
    rfl
  have hhas (key : String) (he : EmojiOf g key) : key ∈ keys ↔ s.Has key := by
    rw [hmem, hi.mem_emoji (Or.inr rfl) hk he, and_iff_left_iff_imp]
    exact fun _ => he.kindOf_eq
  -- every key is that of an emoji that is stored under it
  have hrange : keys ∈ Set.range (List.map fun emoji : { emoji : Emoji //
      s.strings (emojiKey g emoji.id) = some (J.text (.emoji emoji)) } => emojiKey g emoji.val.id) := by
    rw [Set.range_list_map]
    intro key hkey
    have he := hi.emojiOf_of_listed hk ((hmem key).mp hkey).1 ((hmem key).mp hkey).2
    obtain ⟨emoji, rfl, htext⟩ := hk.emoji_text ((hhas key he).mp hkey) he
    exact ⟨⟨emoji, htext⟩, rfl⟩
  obtain ⟨cached, hcached⟩ := hrange
  have hmap : (cached.map Subtype.val).map (fun emoji : Emoji => emojiKey g emoji.id) = keys := by
    rw [List.map_map]
    exact hcached
  refine ⟨cached.map Subtype.val, ⟨?_, fun emoji hemoji => ?_, fun key he => ?_⟩, hmap.symm⟩
  · rw [hmap, ← hkeys]
    exact (orders.listing_nodup _).filter _
  · obtain ⟨⟨emoji, htext⟩, -, rfl⟩ := List.mem_map.mp hemoji
    exact htext
  · rw [← hhas key he, ← List.mem_map, hmap]

/-! ## The update -/

/-- The emojis that are cached and not listed. -/
def unlistedEmojis (emojis listed : List Emoji) : List Emoji :=
  emojis.filter fun emoji => !listed.any fun e => e.id = emoji.id

/-- The store after an emoji update. -/
def emojisUpdated (J : Json T V) (emojis : List Emoji) (data : GuildEmojisUpdate) (s : Store T) :
    Store T :=
  putAll J (data.emojis.map fun emoji => (emojiKey data.guildId emoji.id, .emoji emoji))
    (dropAll ((unlistedEmojis emojis data.emojis).map fun emoji => emojiKey data.guildId emoji.id) s)

/-- An emoji update reads the cached emojis. Where these are read as a list it succeeds, and returns them
if the old value is wanted; where a single one is not read as a list, nothing is written. -/
theorem Known.run_emojisUpdate (hk : Known J ok s) (hi : Indexed s) (hJ : J.Lawful)
    (hcfg : cfg.stateEmoji = true) (botId : Id .user) (env : Env) (data : GuildEmojisUpdate) :
    ∃ emojis, Cached J s data.guildId emojis ∧
      (env.oneKey = .list ∨ emojis.length ≠ 1 → ∃ old,
        Fallible.run exec (update J cfg botId env (.guildEmojisUpdate data)) s =
          (.ok old, emojisUpdated J emojis data s) ∧
        (cfg.stateOld = true → ∃ v, toValue J (.emojis emojis) = .ok v ∧ old = some v)) ∧
      (env.oneKey = .single → emojis.length = 1 →
        (Fallible.run exec (update J cfg botId env (.guildEmojisUpdate data)) s).2 = s) := by
  obtain ⟨emojis, hcached, hkeys⟩ := hk.exists_cached hi env.orders data.guildId
  have hup : update J cfg botId env (.guildEmojisUpdate data) = _ := if_pos hcfg
  refine ⟨emojis, hcached, fun hone => ?_, fun hone hlength => ?_⟩
  · have hread : Fallible.run exec (getAll env.oneKey J.emoji
        (emojis.map fun emoji => emojiKey data.guildId emoji.id)) s = (.ok (emojis.map some), s) := by
      refine run_getAll (hone.imp_right fun h => by rwa [List.length_map]) ?_
      refine List.forall₂_map_left_iff.mpr (List.forall₂_map_right_iff.mpr ?_)
      refine List.forall₂_same.mpr fun emoji hemoji => ?_
      rw [hcached.text emoji hemoji]
      exact congrArg some (hJ.emoji emoji)
    obtain ⟨old, hold⟩ := oldValue_ok (s := emojisUpdated J emojis data s) cfg hJ (.emojis emojis)
    refine ⟨old, ?_, fun hstate => ?_⟩
    · rw [hup, Fallible.run_bind_ok (run_getMembers _)]
      simp only [hkeys]
      rw [Fallible.run_bind_ok hread]
      simp only [List.filterMap_map, Function.comp_def, id_eq, List.filterMap_some]
      rw [Fallible.run_bind_ok (run_delAll _), Fallible.run_bind_ok (run_setAll _)]
      exact hold
    · obtain ⟨v, hv, hrun⟩ :=
        run_oldValue (s := emojisUpdated J emojis data s) hJ hstate (.emojis emojis)
      rw [hrun] at hold
      exact ⟨v, hv, (Except.ok.inj (congrArg Prod.fst hold)).symm⟩
  · obtain ⟨emoji, rfl⟩ := List.length_eq_one_iff.mp hlength
    have hhas : s.strings (emojiKey data.guildId emoji.id) ≠ none := by
      rw [hcached.text emoji List.mem_cons_self]
      exact Option.some_ne_none _
    obtain ⟨err, herr⟩ : ∃ err, Fallible.run exec
        (getAll .single J.emoji [emojiKey data.guildId emoji.id]) s =
          (.error (.error (.redis err)), s) := run_getAll_some hhas
    rw [hup, Fallible.run_bind_ok (run_getMembers _)]
    simp only [hkeys, hone]
    exact congrArg Prod.snd (Fallible.run_bind_error herr)

section Effects

variable {data : GuildEmojisUpdate} (hc : Cached J s data.guildId emojis)
include hc

theorem Cached.has_emojisUpdated (he : EmojiOf data.guildId k) :
    (emojisUpdated J emojis data s).Has k ↔
      ∃ emoji ∈ data.emojis, emojiKey data.guildId emoji.id = k := by
  unfold emojisUpdated
  rw [has_putAll, has_dropAll, hc.mem k he]
  constructor
  · rintro (⟨⟨emoji, hemoji, rfl⟩, hkept⟩ | ⟨kv, hkv, rfl⟩)
    · by_contra hno
      refine hkept ⟨_, List.mem_map_of_mem (List.mem_filter.mpr ⟨hemoji, ?_⟩), newKey_emojiKey _ _⟩
      rw [Bool.not_eq_true', List.any_eq_false]
      exact fun e hmem hid => hno ⟨e, hmem, congrArg _ (of_decide_eq_true hid)⟩
    · obtain ⟨emoji, hemoji, rfl⟩ := List.mem_map.mp hkv
      exact ⟨emoji, hemoji, (newKey_emojiKey _ _).symm⟩
  · rintro ⟨emoji, hemoji, rfl⟩
    exact Or.inr ⟨_, List.mem_map_of_mem hemoji, newKey_emojiKey _ _⟩

theorem Cached.strings_emojisUpdated (id : Id .emoji) :
    (emojisUpdated J emojis data s).strings (emojiKey data.guildId id) =
      ((data.emojis.filter fun emoji => emoji.id = id).getLast?).map
        fun emoji => J.text (.emoji emoji) := by
  have hlast : lastOf (storedPairs J (data.emojis.map fun emoji =>
      (emojiKey data.guildId emoji.id, .emoji emoji))) (emojiKey data.guildId id) =
        ((data.emojis.filter fun emoji =>
          emojiKey data.guildId emoji.id = emojiKey data.guildId id).getLast?).map
            fun emoji => J.text (.emoji emoji) :=
    lastOf_part data.emojis (fun emoji => .emoji data.guildId emoji.id) .emoji
      (.emoji data.guildId id)
  simp only [emojiKey_inj] at hlast
  cases hlisted : (data.emojis.filter fun emoji => emoji.id = id).getLast? with
  | some emoji =>
    rw [hlisted] at hlast
    unfold emojisUpdated
    rw [strings_putAll, hlast]
    rfl
  | none =>
    -- an emoji that is not listed is not cached any more
    refine not_not.mp fun hhas => ?_
    obtain ⟨emoji, hemoji, hkey⟩ := (hc.has_emojisUpdated (emojiOf_emojiKey _ id)).mp hhas
    exact List.filter_eq_nil_iff.mp (List.getLast?_eq_none_iff.mp hlisted) emoji hemoji
      (decide_eq_true (emojiKey_inj.mp hkey))

end Effects

/-- An emoji update leaves alone what is not an emoji of its guild. -/
theorem emojisUpdated_elsewhere (emojis : List Emoji) {data : GuildEmojisUpdate}
    (he : ¬ EmojiOf data.guildId k) :
    (emojisUpdated J emojis data s).strings k = s.strings k ∧
      ∀ S, k ∈ (emojisUpdated J emojis data s).sets S ↔ k ∈ s.sets S := by
  have hne (id : Id .emoji) : newKey (emojiKey data.guildId id) ≠ k := by
    rintro rfl
    rw [newKey_emojiKey] at he
    exact he (emojiOf_emojiKey _ id)
  have hmember (S : String) (id : Id .emoji) : (S, k) ∉ setMembers (emojiKey data.guildId id) :=
    fun hm => hne id (eq_newKey_of_mem_setMembers hm).symm
  unfold emojisUpdated
  constructor
  · have hnone : lastOf (storedPairs J (data.emojis.map fun emoji =>
        (emojiKey data.guildId emoji.id, .emoji emoji))) k = none := by
      refine lastOf_storedPairs_eq_none fun kv hkv heq => ?_
      obtain ⟨emoji, -, rfl⟩ := List.mem_map.mp hkv
      exact hne emoji.id heq
    rw [strings_putAll, hnone, Option.none_or, strings_dropAll, if_neg]
    intro hmem
    obtain ⟨key, hkey, heq⟩ := List.mem_map.mp hmem
    obtain ⟨emoji, -, rfl⟩ := List.mem_map.mp hkey
    exact hne emoji.id heq
  · intro S
    rw [mem_sets_putAll, mem_sets_dropAll]
    constructor
    · rintro (⟨hk, -⟩ | ⟨kv, hkv, hm⟩)
      · exact hk
      · obtain ⟨emoji, -, rfl⟩ := List.mem_map.mp hkv
        exact absurd hm (hmember S emoji.id)
    · refine fun hk => Or.inl ⟨hk, ?_⟩
      rintro ⟨key, hkey, hm⟩
      obtain ⟨emoji, -, rfl⟩ := List.mem_map.mp hkey
      exact hmember S emoji.id hm

/-- **An emoji update synchronises the emojis of its guild.** In every state a run reaches, the keys
`emoji:g:*` that are cached afterwards, and those in the index of the emojis and in the index of the
guild, are the keys of the listed emojis, each with the last listed emoji. Every other key keeps its
value and its indexes. The old value, where it is wanted, is that of the emojis that were cached. It is
assumed that a list of one key is read as a list. -/
theorem emojisUpdate_exact {J : Json T V} (hJ : J.Lawful) (cfg : Config)
    (hcfg : cfg.stateEmoji = true) (botId : Id .user) (steps : List Step) {env : Env}
    (hone : env.oneKey = .list) (data : GuildEmojisUpdate) :
    let s := stateAfter J cfg botId steps
    let s' := stateAfter J cfg botId (steps ++ [⟨env, .event (.guildEmojisUpdate data)⟩])
    (∀ k, EmojiOf data.guildId k →
      (s'.Has k ↔ ∃ emoji ∈ data.emojis, emojiKey data.guildId emoji.id = k) ∧
      (k ∈ s'.sets (kindKeys EMOJI_KEY) ↔
        ∃ emoji ∈ data.emojis, emojiKey data.guildId emoji.id = k) ∧
      (k ∈ s'.sets (guildKeys (toString data.guildId)) ↔
        ∃ emoji ∈ data.emojis, emojiKey data.guildId emoji.id = k)) ∧
    (∀ id, s'.strings (emojiKey data.guildId id) =
      ((data.emojis.filter fun emoji => emoji.id = id).getLast?).map fun emoji =>
        J.text (.emoji emoji)) ∧
    (∀ k, ¬ EmojiOf data.guildId k → s'.strings k = s.strings k ∧
      ∀ S, k ∈ s'.sets S ↔ k ∈ s.sets S) ∧
    (cfg.stateOld = true → ∃ emojis v,
      (Fallible.run exec (update J cfg botId env (.guildEmojisUpdate data)) s).1 = .ok (some v) ∧
      toValue J (.emojis emojis) = .ok v ∧ Cached J s data.guildId emojis) := by
  intro s s'
  have hok (steps : List Step) : ∀ step ∈ steps, step.Ok fun _ => True := fun step _ => step.ok_true
  have hk : Known J (fun _ => True) s := (Known.stable _).stateAfter .empty (hok _)
  have hi : Indexed s := (Indexed.stable (J := J) _).stateAfter .empty (hok _)
  have hk' : Known J (fun _ => True) s' := (Known.stable _).stateAfter .empty (hok _)
  have hi' : Indexed s' := (Indexed.stable (J := J) _).stateAfter .empty (hok _)
  obtain ⟨emojis, hcached, hlist, -⟩ := hk.run_emojisUpdate hi hJ hcfg botId env data
  obtain ⟨old, hrun, hold⟩ := hlist (.inl hone)
  have hs' : s' = emojisUpdated J emojis data s := by
    have hnext : s' = Step.next J cfg botId s ⟨env, .event (.guildEmojisUpdate data)⟩ :=
      stateAfter_append _ _
    rw [hnext, Step.next_event, hrun]
  have hhas (k : String) (he : EmojiOf data.guildId k) :
      s'.Has k ↔ ∃ emoji ∈ data.emojis, emojiKey data.guildId emoji.id = k := by
    rw [hs']
    exact hcached.has_emojisUpdated he
  refine ⟨fun k he => ⟨hhas k he, ?_, ?_⟩, fun id => ?_, fun k he => ?_, fun hstate => ?_⟩
  · exact (hi'.mem_emoji (Or.inl rfl) hk' he).trans (hhas k he)
  · exact (hi'.mem_emoji (Or.inr rfl) hk' he).trans (hhas k he)
  · rw [hs']
    exact hcached.strings_emojisUpdated id
  · rw [hs']
    exact emojisUpdated_elsewhere emojis he
  · obtain ⟨v, hv, rfl⟩ := hold hstate
    exact ⟨emojis, v, congrArg Prod.fst hrun, hv, hcached⟩

/-- Of two cached emojis one is listed again. -/
theorem emojisUpdate_exact_two :
    let s := stateAfter Json.plain .full (.of 9)
      ([⟨.at (.of 0), .event (.guildEmojisUpdate ⟨.of 1, [⟨.of 5, "a"⟩, ⟨.of 6, "b"⟩]⟩)⟩] ++
        [⟨.at (.of 0), .event (.guildEmojisUpdate ⟨.of 1, [⟨.of 6, "c"⟩]⟩)⟩])
    ¬ s.Has (emojiKey (.of 1) (.of 5)) ∧
      s.strings (emojiKey (.of 1) (.of 6)) = some (Json.plain.text (.emoji ⟨.of 6, "c"⟩)) := by
  intro s
  obtain ⟨-, htext, -⟩ := emojisUpdate_exact Json.plain_lawful .full rfl (.of 9)
    [⟨.at (.of 0), .event (.guildEmojisUpdate ⟨.of 1, [⟨.of 5, "a"⟩, ⟨.of 6, "b"⟩]⟩)⟩]
    (rfl : (Env.at (.of 0)).oneKey = .list) ⟨.of 1, [⟨.of 6, "c"⟩]⟩
  exact ⟨fun hk => hk (htext (.of 5)), htext (.of 6)⟩

end TwilightDispatch
