import Mathlib

/-!
# Keys

The key constants and the key builders of `constants.rs`, over identifiers that are non-zero
64-bit numbers printed in decimal, and `split`, the `key.split(':')` of the cache.

A builder's key splits back into what it was built from (`split_guildKey` and its siblings), so
everything the cache reads off a key is computed by `simp`.
-/

namespace TwilightDispatch

/-! ## Constants -/

def EXCHANGE : String := "gateway"
def QUEUE_RECV : String := "gateway.recv"
def QUEUE_SEND : String := "gateway.send"

def SESSIONS_KEY : String := "gateway_sessions"
def STATUSES_KEY : String := "gateway_statuses"
def STARTED_KEY : String := "gateway_started"
def SHARDS_KEY : String := "gateway_shards"

def BOT_USER_KEY : String := "bot_user"
def GUILD_KEY : String := "guild"
def CHANNEL_KEY : String := "channel"
def MESSAGE_KEY : String := "message"
def ROLE_KEY : String := "role"
def EMOJI_KEY : String := "emoji"
def MEMBER_KEY : String := "member"
def PRESENCE_KEY : String := "presence"
def VOICE_KEY : String := "voice"

def KEYS_SUFFIX : String := "_keys"
def EXPIRY_KEYS : String := "expiry_keys"

def CONNECT_COLOR : ℕ := 0x00FF00
def DISCONNECT_COLOR : ℕ := 0xFF0000
def READY_COLOR : ℕ := 0x00FF00
def RESUME_COLOR : ℕ := 0x1E90FF
def JOIN_COLOR : ℕ := 0x00FF00
def LEAVE_COLOR : ℕ := 0xFF0000

/-! ## Identifiers -/

/-- What an identifier identifies. -/
inductive Marker where
  | guild | channel | message | role | emoji | user
  deriving DecidableEq, Repr

/-- A non-zero 64-bit identifier. -/
structure Id (m : Marker) where
  value : ℕ
  pos : 0 < value
  lt : value < 2 ^ 64
  deriving DecidableEq

/-- The identifier with a given number. -/
def Id.of {m : Marker} (n : ℕ) (h : decide (0 < n ∧ n < 2 ^ 64) = true := by exact Eq.refl true) :
    Id m := ⟨n, (of_decide_eq_true h).1, (of_decide_eq_true h).2⟩

instance {m : Marker} : ToString (Id m) := ⟨fun id => toString id.value⟩

theorem Id.toString_eq {m : Marker} (id : Id m) : toString id = id.value.repr := rfl

theorem Id.ext {m : Marker} {a b : Id m} (h : a.value = b.value) : a = b := by
  cases a
  cases b
  subst h
  rfl

@[simp] theorem Id.toString_inj {m : Marker} {a b : Id m} : toString a = toString b ↔ a = b := by
  rw [Id.toString_eq, Id.toString_eq, Nat.repr_inj]
  exact ⟨Id.ext, congrArg _⟩

theorem Id.colon_notMem {m : Marker} (id : Id m) : ':' ∉ (toString id).toList := by
  rw [Id.toString_eq, Nat.toList_repr]
  intro h
  have := Nat.isDigit_of_mem_toDigits (by omega) (by omega) h
  revert this
  decide

/-! ## Key builders -/

def guildKey (guild : Id .guild) : String := GUILD_KEY ++ ":" ++ toString guild

def guildChannelKey (guild : Id .guild) (channel : Id .channel) : String :=
  CHANNEL_KEY ++ ":" ++ toString guild ++ ":" ++ toString channel

def privateChannelKey (channel : Id .channel) : String := CHANNEL_KEY ++ ":" ++ toString channel

def channelKey (guild : Option (Id .guild)) (channel : Id .channel) : String :=
  match guild with
  | some guild => guildChannelKey guild channel
  | none => privateChannelKey channel

def messageKey (channel : Id .channel) (message : Id .message) : String :=
  MESSAGE_KEY ++ ":" ++ toString channel ++ ":" ++ toString message

def roleKey (guild : Id .guild) (role : Id .role) : String :=
  ROLE_KEY ++ ":" ++ toString guild ++ ":" ++ toString role

def emojiKey (guild : Id .guild) (emoji : Id .emoji) : String :=
  EMOJI_KEY ++ ":" ++ toString guild ++ ":" ++ toString emoji

def memberKey (guild : Id .guild) (member : Id .user) : String :=
  MEMBER_KEY ++ ":" ++ toString guild ++ ":" ++ toString member

def presenceKey (guild : Id .guild) (member : Id .user) : String :=
  PRESENCE_KEY ++ ":" ++ toString guild ++ ":" ++ toString member

def voiceKey (guild : Id .guild) (member : Id .user) : String :=
  VOICE_KEY ++ ":" ++ toString guild ++ ":" ++ toString member

/-- The index of the keys of one kind. -/
def kindKeys (kind : String) : String := kind ++ KEYS_SUFFIX

/-- The index of the keys of one guild, named by its printed id. -/
def guildKeys (guild : String) : String := GUILD_KEY ++ KEYS_SUFFIX ++ ":" ++ guild

/-- The index of the message keys of one channel, named by its printed id. -/
def channelKeys (channel : String) : String := CHANNEL_KEY ++ KEYS_SUFFIX ++ ":" ++ channel

section IndexNames

variable {kind kind' g g' c c' : String}

@[simp] theorem kindKeys_inj : kindKeys kind = kindKeys kind' ↔ kind = kind' :=
  String.append_left_inj _

@[simp] theorem guildKeys_inj : guildKeys g = guildKeys g' ↔ g = g' :=
  String.append_right_inj _

@[simp] theorem channelKeys_inj : channelKeys c = channelKeys c' ↔ c = c' :=
  String.append_right_inj _

theorem colon_mem_guildKeys (g : String) : ':' ∈ (guildKeys g).toList := by
  simp [guildKeys]

theorem colon_mem_channelKeys (c : String) : ':' ∈ (channelKeys c).toList := by
  simp [channelKeys]

theorem colon_notMem_kindKeys (h : ':' ∉ kind.toList) : ':' ∉ (kindKeys kind).toList := by
  simp [kindKeys, KEYS_SUFFIX, h]

theorem kindKeys_ne_guildKeys (h : ':' ∉ kind.toList) (g : String) :
    kindKeys kind ≠ guildKeys g :=
  fun he => colon_notMem_kindKeys h (he ▸ colon_mem_guildKeys g)

theorem kindKeys_ne_channelKeys (h : ':' ∉ kind.toList) (c : String) :
    kindKeys kind ≠ channelKeys c :=
  fun he => colon_notMem_kindKeys h (he ▸ colon_mem_channelKeys c)

theorem guildKeys_ne_kindKeys (h : ':' ∉ kind.toList) (g : String) :
    guildKeys g ≠ kindKeys kind := (kindKeys_ne_guildKeys h g).symm

theorem channelKeys_ne_kindKeys (h : ':' ∉ kind.toList) (c : String) :
    channelKeys c ≠ kindKeys kind := (kindKeys_ne_channelKeys h c).symm

@[simp] theorem guildKeys_ne_channelKeys (g c : String) : guildKeys g ≠ channelKeys c := by
  intro he
  have := congrArg (fun key => key.toList.head?) he
  simp [guildKeys, channelKeys, GUILD_KEY, CHANNEL_KEY] at this

@[simp] theorem channelKeys_ne_guildKeys (c g : String) : channelKeys c ≠ guildKeys g :=
  (guildKeys_ne_channelKeys g c).symm

end IndexNames

/-! ## Splitting -/

/-- The parts of a key between its colons. -/
def split (key : String) : List String := (key.toList.splitOn ':').map String.ofList

theorem split_eq_singleton {a : String} (ha : ':' ∉ a.toList) : split a = [a] := by
  unfold split
  rw [List.splitOn_eq_singleton ha]
  simp

theorem split_append_colon {a b : String} (ha : ':' ∉ a.toList) :
    split (a ++ ":" ++ b) = a :: split b := by
  unfold split
  have h : (a ++ ":" ++ b).toList = a.toList ++ ':' :: b.toList := by simp
  rw [h, List.splitOn_append_cons_self_of_not_mem ha]
  simp

theorem split_pair {a b : String} (ha : ':' ∉ a.toList) (hb : ':' ∉ b.toList) :
    split (a ++ ":" ++ b) = [a, b] := by
  rw [split_append_colon ha, split_eq_singleton hb]

theorem split_triple {a b c : String} (ha : ':' ∉ a.toList) (hb : ':' ∉ b.toList)
    (hc : ':' ∉ c.toList) : split (a ++ ":" ++ b ++ ":" ++ c) = [a, b, c] := by
  rw [show a ++ ":" ++ b ++ ":" ++ c = a ++ ":" ++ (b ++ ":" ++ c) by simp [String.append_assoc],
    split_append_colon ha, split_pair hb hc]

theorem notMem_of_mem_splitOn {x : Char} {l part : List Char} (h : part ∈ l.splitOn x) :
    x ∉ part := by
  induction l generalizing part with
  | nil =>
    obtain rfl : part = [] := by simpa using h
    simp
  | cons a l ih =>
    rw [List.splitOn_cons_eq_if_modifyHead] at h
    split_ifs at h with ha
    · rcases List.mem_cons.mp h with rfl | h
      · simp
      · exact ih h
    · obtain ⟨hd, tl, hsp⟩ := List.exists_cons_of_ne_nil (List.splitOn_ne_nil x l)
      rw [hsp, List.modifyHead_cons] at h
      rcases List.mem_cons.mp h with rfl | h
      · have : x ∉ hd := ih (by rw [hsp]; exact List.mem_cons_self)
        simp only [List.mem_cons, not_or]
        exact ⟨fun e => ha (by simp [e]), this⟩
      · exact ih (by rw [hsp]; exact List.mem_cons_of_mem _ h)

theorem colon_notMem_of_mem_split {key part : String} (h : part ∈ split key) :
    ':' ∉ part.toList := by
  obtain ⟨l, hl, rfl⟩ := List.mem_map.mp h
  rw [String.toList_ofList]
  exact notMem_of_mem_splitOn hl

section Builders

variable (g : Id .guild) (c : Id .channel) (m : Id .message) (r : Id .role) (e : Id .emoji)
  (u : Id .user)

@[simp] theorem split_guildKey : split (guildKey g) = [GUILD_KEY, toString g] :=
  split_pair (by decide) g.colon_notMem

@[simp] theorem split_guildChannelKey :
    split (guildChannelKey g c) = [CHANNEL_KEY, toString g, toString c] :=
  split_triple (by decide) g.colon_notMem c.colon_notMem

@[simp] theorem split_privateChannelKey :
    split (privateChannelKey c) = [CHANNEL_KEY, toString c] :=
  split_pair (by decide) c.colon_notMem

@[simp] theorem split_messageKey :
    split (messageKey c m) = [MESSAGE_KEY, toString c, toString m] :=
  split_triple (by decide) c.colon_notMem m.colon_notMem

@[simp] theorem split_roleKey : split (roleKey g r) = [ROLE_KEY, toString g, toString r] :=
  split_triple (by decide) g.colon_notMem r.colon_notMem

@[simp] theorem split_emojiKey : split (emojiKey g e) = [EMOJI_KEY, toString g, toString e] :=
  split_triple (by decide) g.colon_notMem e.colon_notMem

@[simp] theorem split_memberKey : split (memberKey g u) = [MEMBER_KEY, toString g, toString u] :=
  split_triple (by decide) g.colon_notMem u.colon_notMem

@[simp] theorem split_presenceKey :
    split (presenceKey g u) = [PRESENCE_KEY, toString g, toString u] :=
  split_triple (by decide) g.colon_notMem u.colon_notMem

@[simp] theorem split_voiceKey : split (voiceKey g u) = [VOICE_KEY, toString g, toString u] :=
  split_triple (by decide) g.colon_notMem u.colon_notMem

@[simp] theorem split_BOT_USER_KEY : split BOT_USER_KEY = [BOT_USER_KEY] :=
  split_eq_singleton (by decide)

end Builders

end TwilightDispatch
