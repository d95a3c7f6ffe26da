import TwilightDispatch.Event
import TwilightDispatch.Redis.Store

/-!
# Configuration, errors, dates and JSON

The configuration the cache reads, the errors its functions return, the dates it computes
deadlines with, and what it relies on of the JSON library (`Json`, `Json.Lawful`).
-/

namespace TwilightDispatch

open Atomic Redis

/-! ## Configuration -/

/-- The configuration of the state cache. -/
structure Config where
  stateEnabled : Bool
  stateMember : Bool
  stateMemberTtl : UInt64
  stateMessage : Bool
  stateMessageTtl : UInt64
  statePresence : Bool
  stateEmoji : Bool
  stateVoice : Bool
  stateOld : Bool

/-- Everything is cached, for one second where it expires, and old values are wanted. -/
def Config.full : Config where
  stateEnabled := true
  stateMember := true
  stateMemberTtl := 1000
  stateMessage := true
  stateMessageTtl := 1000
  statePresence := true
  stateEmoji := true
  stateVoice := true
  stateOld := true

/-! ## Errors -/

/-- An error of the JSON library. -/
structure SimdJsonError where
  message : String
  deriving DecidableEq, Repr

inductive ApiError where
  | simdJson (err : SimdJsonError)
  | redis (err : RedisError)
  deriving DecidableEq, Repr

/-- How a function ends without a result: with an error for its caller, or in a panic, which ends
the process. -/
inductive Failure where
  | error (err : ApiError)
  | panic
  deriving DecidableEq, Repr

/-- The asynchronous functions of the cache that return an `ApiResult`. -/
abbrev Api (T α : Type) := Fallible (interface T) Failure α

/-! ## Dates -/

/-- Nanoseconds from the epoch to the first and the last representable date. -/
def FormattedDateTime.min : ℤ := -377705116800 * 1000000000
def FormattedDateTime.max : ℤ := 253402300800 * 1000000000 - 1

/-- A UTC date and time, in nanoseconds from the epoch. -/
structure FormattedDateTime where
  nanos : ℤ
  min_le : FormattedDateTime.min ≤ nanos
  le_max : nanos ≤ FormattedDateTime.max
  deriving DecidableEq

/-- The date `n` nanoseconds after the epoch. -/
def FormattedDateTime.of (n : ℤ)
    (h : decide (FormattedDateTime.min ≤ n ∧ n ≤ FormattedDateTime.max) = true := by
      exact Eq.refl true) :
    FormattedDateTime := ⟨n, (of_decide_eq_true h).1, (of_decide_eq_true h).2⟩

/-- Nanoseconds in `n` milliseconds. -/
def milliseconds (n : ℤ) : ℤ := n * 1000000

/-- `self + rhs`; outside the representable dates the addition panics. -/
def FormattedDateTime.add (self : FormattedDateTime) (rhs : ℤ) : Option FormattedDateTime :=
  if h : FormattedDateTime.min ≤ self.nanos + rhs ∧ self.nanos + rhs ≤ FormattedDateTime.max then
    some ⟨self.nanos + rhs, h.1, h.2⟩
  else none

/-- `self - rhs`, a duration in nanoseconds. -/
def FormattedDateTime.sub (self rhs : FormattedDateTime) : ℤ := self.nanos - rhs.nanos

/-! ## JSON -/

structure SessionInfo where
  sessionId : String
  sequence : ℕ
  deriving DecidableEq

structure StatusInfo where
  shard : ℕ
  status : String
  latency : ℕ
  lastAck : FormattedDateTime
  deriving DecidableEq

/-- The values the service serialises. A `GuildItem` is untagged: it serialises as its content,
so the guild items are among them as they are. -/
inductive Item where
  | currentUser (data : CurrentUser)
  | guild (data : Guild)
  | partialGuild (data : PartialGuild)
  | unavailableGuild (data : UnavailableGuild)
  | channel (data : Channel)
  | role (data : Role)
  | emoji (data : Emoji)
  | voice (data : VoiceState)
  | member (data : Member)
  | presence (data : Presence)
  | message (data : Message)
  | emojis (data : List Emoji)
  | messages (data : List Message)
  | timestamp (data : FormattedDateTime)
  | statuses (data : List StatusInfo)
  | sessions (data : Finmap fun _ : String => SessionInfo)
  | shardsTotal (data : UInt64)

/-- The JSON library, over the type `T` of JSON texts and the type `V` of decoded JSON values:
the text of each serialisable value, and the decoders the service uses. -/
structure Json (T V : Type) where
  text : Item → T
  value : T → Except SimdJsonError V
  channel : T → Except SimdJsonError Channel
  emoji : T → Except SimdJsonError Emoji
  member : T → Except SimdJsonError Member
  message : T → Except SimdJsonError Message
  timestamp : T → Except SimdJsonError FormattedDateTime
  sessions : T → Except SimdJsonError (Finmap fun _ : String => SessionInfo)
  shardsTotal : T → Except SimdJsonError UInt64

/-- Decoding inverts encoding, and every text written is a JSON value. -/
structure Json.Lawful {T V : Type} (J : Json T V) : Prop where
  value : ∀ i, ∃ v, J.value (J.text i) = .ok v
  channel : ∀ c, J.channel (J.text (.channel c)) = .ok c
  emoji : ∀ e, J.emoji (J.text (.emoji e)) = .ok e
  member : ∀ m, J.member (J.text (.member m)) = .ok m
  message : ∀ m, J.message (J.text (.message m)) = .ok m
  timestamp : ∀ d, J.timestamp (J.text (.timestamp d)) = .ok d
  sessions : ∀ m, J.sessions (J.text (.sessions m)) = .ok m
  shardsTotal : ∀ n, J.shardsTotal (J.text (.shardsTotal n)) = .ok n

/-- The JSON library whose texts are the values themselves. -/
def Json.plain : Json Item Item where
  text i := i
  value i := .ok i
  channel | .channel c => .ok c | _ => .error ⟨"channel"⟩
  emoji | .emoji e => .ok e | _ => .error ⟨"emoji"⟩
  member | .member m => .ok m | _ => .error ⟨"member"⟩
  message | .message m => .ok m | _ => .error ⟨"message"⟩
  timestamp | .timestamp d => .ok d | _ => .error ⟨"timestamp"⟩
  sessions | .sessions m => .ok m | _ => .error ⟨"sessions"⟩
  shardsTotal | .shardsTotal n => .ok n | _ => .error ⟨"shardsTotal"⟩

theorem Json.plain_lawful : Json.plain.Lawful where
  value i := ⟨i, rfl⟩
  channel _ := rfl
  emoji _ := rfl
  member _ := rfl
  message _ := rfl
  timestamp _ := rfl
  sessions _ := rfl
  shardsTotal _ := rfl

/-- `utils::to_value`: serialise, then parse the text as a JSON value. -/
def toValue {T V : Type} (J : Json T V) (i : Item) : Except SimdJsonError V := J.value (J.text i)

/-! ## Iteration orders and clock readings -/

/-- The orders one task sees: in which order its `members` hash map is iterated, and in which
order it receives the elements of a set or the entries of a hash. -/
structure Orders where
  members : List (String × List String) → List (String × List String)
  members_perm : ∀ l, (members l).Perm l
  listing : Finset String → List String
  listing_nodup : ∀ s, (listing s).Nodup
  mem_listing : ∀ s k, k ∈ listing s ↔ k ∈ s

/-- Sets come in increasing order, and the hash map is iterated as it was filled. -/
def Orders.sorted : Orders where
  members l := l
  members_perm _ := .refl _
  listing s := s.sort
  listing_nodup s := s.sort_nodup _
  mem_listing _ _ := Finset.mem_sort _

/-- How the Redis client reads a list of one key: as a list, with one value for it, which is what is
expected of it, or as a single key, as redis 0.22.1 does, whose value is not a list. -/
inductive OneKey where
  | list
  | single
  deriving DecidableEq

theorem OneKey.eq_single {oneKey : OneKey} (h : oneKey ≠ .list) : oneKey = .single := by
  cases oneKey with
  | list => exact absurd rfl h
  | single => rfl

/-- What one task observes of its surroundings: the time, the orders of its collections, and how the
Redis client reads a list of one key. -/
structure Env where
  now : FormattedDateTime
  orders : Orders
  oneKey : OneKey

/-- At a given time, with collections in order, where every list of keys is read as a list. -/
def Env.at (now : FormattedDateTime) : Env := ⟨now, .sorted, .list⟩

end TwilightDispatch
