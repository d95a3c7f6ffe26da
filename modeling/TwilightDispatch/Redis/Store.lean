import TwilightDispatch.Atomic.Footprint

/-!
# A Redis server as an interface of atomic commands

The store keeps three kinds of values, strings, sets and hashes, each in a keyspace of its own.
`Cmd` lists the commands, `reply` and `apply` say what each answers and does, and `exec` is a
server on which no command fails.
-/

namespace Redis

open Atomic

/-- An error reported by the server or the connection. -/
structure RedisError where
  message : String
  deriving DecidableEq, Repr

/-- A hash value: fields and their texts. -/
abbrev Hash (T : Type) := Finmap fun _ : String => T

/-- The commands, over the type `T` of the texts stored. -/
inductive Cmd (T : Type) where
  | get (key : String)
  | mget (keys : List String)
  | mset (items : List (String × T))
  | del (keys : List String)
  | smembers (key : String)
  | scard (key : String)
  | sadd (key : String) (members : List String)
  | srem (key : String) (members : List String)
  | hgetall (key : String)
  | hset (key : String) (fields : List (String × T))
  | hdel (key : String) (fields : List String)
  deriving DecidableEq

variable {T : Type}

/-- What a command answers when it succeeds. -/
@[reducible] def Cmd.Answer : Cmd T → Type
  | get _ => Option T
  | mget _ => List (Option T)
  | smembers _ => Finset String
  | scard _ => ℕ
  | hgetall _ => Hash T
  | mset _ | del _ | sadd _ _ | srem _ _ | hset _ _ | hdel _ _ => Unit

/-- The interface: every command may also fail. -/
@[reducible] def interface (T : Type) : Interface where
  Cmd := Cmd T
  Reply c := Except RedisError c.Answer

/-- The store. A set or hash that is not there is an empty one. -/
@[ext] structure Store (T : Type) where
  strings : String → Option T
  sets : String → Finset String
  hashes : String → Hash T

/-- The store without any key. -/
def Store.empty : Store T where
  strings _ := none
  sets _ := ∅
  hashes _ := ∅

/-- A string key is present. -/
def Store.Has (s : Store T) (k : String) : Prop := s.strings k ≠ none

@[simp] theorem Store.not_has_empty (k : String) : ¬ (Store.empty : Store T).Has k :=
  fun h => h rfl

/-! ## Association lists, the last entry winning -/

/-- The value the last pair naming `k` gives it. -/
def lastOf : List (String × T) → String → Option T
  | [], _ => none
  | kv :: kvs, k => (lastOf kvs k).or (if kv.1 = k then some kv.2 else none)

@[simp] theorem lastOf_nil (k : String) : lastOf ([] : List (String × T)) k = none := rfl

@[simp] theorem lastOf_cons (kv : String × T) (kvs : List (String × T)) (k : String) :
    lastOf (kv :: kvs) k = (lastOf kvs k).or (if kv.1 = k then some kv.2 else none) := rfl

theorem lastOf_append (kvs kvs' : List (String × T)) (k : String) :
    lastOf (kvs ++ kvs') k = (lastOf kvs' k).or (lastOf kvs k) := by
  induction kvs with
  | nil => simp
  | cons kv kvs ih => rw [List.cons_append, lastOf_cons, ih, lastOf_cons, Option.or_assoc]

/-- The last value under a key is that of the last element with the key. -/
theorem lastOf_map {β : Type} (l : List β) (name : β → String) (value : β → T) (k : String) :
    lastOf (l.map fun b => (name b, value b)) k =
      ((l.filter fun b => name b = k).getLast?).map value := by
  induction l using List.reverseRecOn with
  | nil => rfl
  | append_singleton l b ih =>
    rw [List.map_append, lastOf_append, List.filter_append, List.getLast?_append, ih]
    by_cases hb : name b = k <;> simp [hb]

theorem mem_of_lastOf {kvs : List (String × T)} {k : String} {v : T}
    (h : lastOf kvs k = some v) : (k, v) ∈ kvs := by
  induction kvs with
  | nil => cases h
  | cons kv kvs ih =>
    rw [lastOf_cons, Option.or_eq_some_iff] at h
    rcases h with h | ⟨_, h⟩
    · exact List.mem_cons_of_mem _ (ih h)
    · split_ifs at h with hk
      obtain rfl := Option.some.inj h
      obtain rfl := hk
      exact List.mem_cons_self

theorem lastOf_eq_none_iff {kvs : List (String × T)} {k : String} :
    lastOf kvs k = none ↔ k ∉ kvs.map Prod.fst := by
  induction kvs with
  | nil => simp
  | cons kv kvs ih =>
    rw [lastOf_cons, Option.or_eq_none_iff, ih, List.map_cons, List.mem_cons, not_or]
    constructor
    · rintro ⟨h, hk⟩
      split_ifs at hk with hk'
      exact ⟨fun e => hk' e.symm, h⟩
    · rintro ⟨hk, h⟩
      exact ⟨h, if_neg fun e => hk e.symm⟩

theorem exists_lastOf {kvs : List (String × T)} {k : String} (h : k ∈ kvs.map Prod.fst) :
    ∃ v, lastOf kvs k = some v := by
  rw [← Option.ne_none_iff_exists']
  exact fun hn => lastOf_eq_none_iff.mp hn h

/-- Write the pairs into a hash, in order. -/
def setFields (kvs : List (String × T)) (m : Hash T) : Hash T :=
  kvs.foldl (fun m kv => m.insert kv.1 kv.2) m

/-- Remove fields from a hash. -/
def eraseFields (ks : List String) (m : Hash T) : Hash T :=
  ks.foldl (fun m k => m.erase k) m

@[simp] theorem lookup_setFields (kvs : List (String × T)) (m : Hash T) (k : String) :
    (setFields kvs m).lookup k = (lastOf kvs k).or (m.lookup k) := by
  induction kvs generalizing m with
  | nil => rfl
  | cons kv kvs ih =>
    have h : (m.insert kv.1 kv.2).lookup k =
        (if kv.1 = k then some kv.2 else none).or (m.lookup k) := by
      by_cases hk : kv.1 = k
      · rw [if_pos hk, ← hk, Finmap.lookup_insert]
        rfl
      · rw [if_neg hk, Finmap.lookup_insert_of_ne _ (Ne.symm hk)]
        rfl
    rw [lastOf_cons, Option.or_assoc, ← h]
    exact ih _

@[simp] theorem lookup_eraseFields (ks : List String) (m : Hash T) (k : String) :
    (eraseFields ks m).lookup k = if k ∈ ks then none else m.lookup k := by
  induction ks generalizing m with
  | nil => simp [eraseFields]
  | cons k' ks ih =>
    have h : (m.erase k').lookup k = if k = k' then none else m.lookup k := by
      by_cases hk : k = k'
      · rw [if_pos hk, hk, Finmap.lookup_erase]
      · rw [if_neg hk, Finmap.lookup_erase_ne hk]
    rw [show eraseFields (k' :: ks) m = eraseFields ks (m.erase k') from rfl, ih, h]
    by_cases hk : k = k' <;> by_cases hks : k ∈ ks <;> simp [hk, hks]

/-! ## What the commands do -/

/-- The answer of a command. -/
def reply : (c : Cmd T) → Store T → c.Answer
  | .get k, s => s.strings k
  | .mget ks, s => ks.map s.strings
  | .smembers k, s => s.sets k
  | .scard k, s => (s.sets k).card
  | .hgetall k, s => s.hashes k
  | .mset _, _ | .del _, _ | .sadd _ _, _ | .srem _ _, _ | .hset _ _, _ | .hdel _ _, _ => ()

/-- The effect of a command. -/
def apply : Cmd T → Store T → Store T
  | .mset kvs, s => { s with strings := fun k => (lastOf kvs k).or (s.strings k) }
  | .del ks, s => { s with strings := fun k => if k ∈ ks then none else s.strings k }
  | .sadd k ms, s => { s with sets := Function.update s.sets k (s.sets k ∪ ms.toFinset) }
  | .srem k ms, s => { s with sets := Function.update s.sets k (s.sets k \ ms.toFinset) }
  | .hset k kvs, s => { s with hashes := Function.update s.hashes k (setFields kvs (s.hashes k)) }
  | .hdel k fs, s => { s with hashes := Function.update s.hashes k (eraseFields fs (s.hashes k)) }
  | .get _, s | .mget _, s | .smembers _, s | .scard _, s | .hgetall _, s => s

/-- A server on which every command succeeds. -/
def exec : Exec (interface T) (Store T) := fun c s => (.ok (reply c s), apply c s)

@[simp] theorem exec_fst (c : Cmd T) (s : Store T) : (exec c s).1 = .ok (reply c s) := rfl

@[simp] theorem exec_snd (c : Cmd T) (s : Store T) : (exec c s).2 = apply c s := rfl

section Apply

variable {s : Store T} {k k' m : String} {ks ms : List String} {kvs : List (String × T)}

@[simp] theorem apply_get : apply (.get k) s = s := rfl
@[simp] theorem apply_mget : apply (.mget ks) s = s := rfl
@[simp] theorem apply_smembers : apply (.smembers k) s = s := rfl
@[simp] theorem apply_scard : apply (.scard k) s = s := rfl
@[simp] theorem apply_hgetall : apply (.hgetall k) s = s := rfl

@[simp] theorem strings_mset :
    (apply (.mset kvs) s).strings k = (lastOf kvs k).or (s.strings k) := rfl
@[simp] theorem sets_mset : (apply (.mset kvs) s).sets = s.sets := rfl
@[simp] theorem hashes_mset : (apply (.mset kvs) s).hashes = s.hashes := rfl

@[simp] theorem strings_del :
    (apply (.del ks) s).strings k = if k ∈ ks then none else s.strings k := rfl
@[simp] theorem sets_del : (apply (.del ks) s).sets = s.sets := rfl
@[simp] theorem hashes_del : (apply (.del ks) s).hashes = s.hashes := rfl

@[simp] theorem strings_sadd : (apply (.sadd k ms) s).strings = s.strings := rfl
@[simp] theorem hashes_sadd : (apply (.sadd k ms) s).hashes = s.hashes := rfl

@[simp] theorem mem_sets_sadd : m ∈ (apply (.sadd k ms) s).sets k' ↔
    m ∈ s.sets k' ∨ k' = k ∧ m ∈ ms := by
  unfold apply
  by_cases h : k' = k
  · subst h
    simp
  · simp [h]

@[simp] theorem strings_srem : (apply (.srem k ms) s).strings = s.strings := rfl
@[simp] theorem hashes_srem : (apply (.srem k ms) s).hashes = s.hashes := rfl

@[simp] theorem mem_sets_srem : m ∈ (apply (.srem k ms) s).sets k' ↔
    m ∈ s.sets k' ∧ ¬ (k' = k ∧ m ∈ ms) := by
  unfold apply
  by_cases h : k' = k
  · subst h
    simp
  · simp [h]

@[simp] theorem strings_hset : (apply (.hset k kvs) s).strings = s.strings := rfl
@[simp] theorem sets_hset : (apply (.hset k kvs) s).sets = s.sets := rfl

@[simp] theorem lookup_hset : ((apply (.hset k kvs) s).hashes k').lookup m =
    if k' = k then (lastOf kvs m).or ((s.hashes k').lookup m) else (s.hashes k').lookup m := by
  unfold apply
  by_cases h : k' = k
  · subst h
    simp
  · simp [h]

@[simp] theorem strings_hdel : (apply (.hdel k ms) s).strings = s.strings := rfl
@[simp] theorem sets_hdel : (apply (.hdel k ms) s).sets = s.sets := rfl

@[simp] theorem lookup_hdel : ((apply (.hdel k ms) s).hashes k').lookup m =
    if k' = k ∧ m ∈ ms then none else (s.hashes k').lookup m := by
  unfold apply
  by_cases h : k' = k
  · subst h
    simp
  · simp [h]

end Apply

/-- Stores with the same strings, set members and hash fields are equal. -/
theorem Store.ext_cells {s s' : Store T} (hstr : ∀ k, s.strings k = s'.strings k)
    (hset : ∀ k m, m ∈ s.sets k ↔ m ∈ s'.sets k)
    (hhash : ∀ k f, (s.hashes k).lookup f = (s'.hashes k).lookup f) : s = s' := by
  ext1
  · exact funext hstr
  · exact funext fun k => Finset.ext (hset k)
  · exact funext fun k => Finmap.ext_lookup (hhash k)

/-- The command writes or deletes a string key. -/
def Cmd.Replaces : Cmd T → String → Prop
  | .mset items, k => k ∈ items.map Prod.fst
  | .del keys, k => k ∈ keys
  | _, _ => False

instance (k : String) : (c : Cmd T) → Decidable (c.Replaces k)
  | .mset items => inferInstanceAs (Decidable (k ∈ items.map Prod.fst))
  | .del keys => inferInstanceAs (Decidable (k ∈ keys))
  | .get _ | .mget _ | .smembers _ | .scard _ | .sadd .. | .srem .. | .hgetall _ | .hset ..
  | .hdel .. => isFalse id

/-! ## Cells and footprints -/

/-- The cells of a store. -/
inductive Cell where
  | str (key : String)
  | mem (key member : String)
  | field (key name : String)

/-- Agreement of two stores at a cell. -/
def SameAt : Cell → Store T → Store T → Prop
  | .str k, s, s' => s.strings k = s'.strings k
  | .mem k m, s, s' => m ∈ s.sets k ↔ m ∈ s'.sets k
  | .field k f, s, s' => (s.hashes k).lookup f = (s'.hashes k).lookup f

/-- The cells of a store. -/
def cells (T : Type) : Cells (Store T) Cell where
  same := SameAt
  equiv l := by
    cases l with
    | str k => exact ⟨fun _ => rfl, fun h => h.symm, fun h h' => h.trans h'⟩
    | mem k m => exact ⟨fun _ => Iff.rfl, fun h => h.symm, fun h h' => h.trans h'⟩
    | field k f => exact ⟨fun _ => rfl, fun h => h.symm, fun h h' => h.trans h'⟩
  ext s s' h := Store.ext_cells (fun k => h (.str k)) (fun k m => h (.mem k m))
    fun k f => h (.field k f)

/-- The cells a command reads or writes. -/
def footprint : Cmd T → Set Cell
  | .get k => {.str k}
  | .mget ks => {l | ∃ k ∈ ks, l = .str k}
  | .mset kvs => {l | ∃ kv ∈ kvs, l = .str kv.1}
  | .del ks => {l | ∃ k ∈ ks, l = .str k}
  | .smembers k | .scard k => {l | ∃ m, l = .mem k m}
  | .sadd k ms | .srem k ms => {l | ∃ m ∈ ms, l = .mem k m}
  | .hgetall k => {l | ∃ f, l = .field k f}
  | .hset k kvs => {l | ∃ kv ∈ kvs, l = .field k kv.1}
  | .hdel k fs => {l | ∃ f ∈ fs, l = .field k f}

/-- A command changes no cell outside its footprint. -/
theorem sameAt_apply {c : Cmd T} {l : Cell} (hl : l ∉ footprint c) (s : Store T) :
    SameAt l s (apply c s) := by
  cases c <;> cases l <;>
    simp only [SameAt, apply_get, apply_mget, apply_smembers, apply_scard, apply_hgetall,
      strings_mset, sets_mset, hashes_mset, strings_del, sets_del, hashes_del, strings_sadd,
      hashes_sadd, mem_sets_sadd, strings_srem, hashes_srem, mem_sets_srem, strings_hset, sets_hset,
      lookup_hset, strings_hdel, sets_hdel, lookup_hdel]
  case mset.str kvs k =>
    have : k ∉ kvs.map Prod.fst := fun h => by
      obtain ⟨kv, hkv, rfl⟩ := List.mem_map.mp h
      exact hl ⟨kv, hkv, rfl⟩
    rw [lastOf_eq_none_iff.mpr this]
    rfl
  case del.str ks k => exact (if_neg fun h => hl ⟨k, h, rfl⟩).symm
  case sadd.mem k ms k' m =>
    have : ¬ (k' = k ∧ m ∈ ms) := fun ⟨h, hm⟩ => hl ⟨m, hm, by rw [h]⟩
    simp [this]
  case srem.mem k ms k' m =>
    have : ¬ (k' = k ∧ m ∈ ms) := fun ⟨h, hm⟩ => hl ⟨m, hm, by rw [h]⟩
    simp [this]
  case hset.field k kvs k' f =>
    split_ifs with h
    · subst h
      have : f ∉ kvs.map Prod.fst := fun h => by
        obtain ⟨kv, hkv, rfl⟩ := List.mem_map.mp h
        exact hl ⟨kv, hkv, rfl⟩
      rw [lastOf_eq_none_iff.mpr this]
      rfl
    · rfl
  case hdel.field k fs k' f =>
    have : ¬ (k' = k ∧ f ∈ fs) := fun ⟨h, hf⟩ => hl ⟨f, hf, by rw [h]⟩
    rw [if_neg this]

/-- The cells a command fills. -/
def writes : Cmd T → Set Cell
  | .mset kvs => {l | ∃ kv ∈ kvs, l = .str kv.1}
  | .sadd k ms => {l | ∃ m ∈ ms, l = .mem k m}
  | .hset k kvs => {l | ∃ kv ∈ kvs, l = .field k kv.1}
  | _ => ∅

/-- The cells a command empties. -/
def deletes : Cmd T → Set Cell
  | .del ks => {l | ∃ k ∈ ks, l = .str k}
  | .srem k ms => {l | ∃ m ∈ ms, l = .mem k m}
  | .hdel k fs => {l | ∃ f ∈ fs, l = .field k f}
  | _ => ∅

/-- There is something in a cell. -/
def Filled : Cell → Store T → Prop
  | .str k, s => s.strings k ≠ none
  | .mem k m, s => m ∈ s.sets k
  | .field k f, s => (s.hashes k).lookup f ≠ none

theorem SameAt.filled {l : Cell} {s s' : Store T} (h : SameAt l s s') : Filled l s ↔ Filled l s' := by
  cases l with
  | str k => exact not_congr (by rw [show s.strings k = s'.strings k from h])
  | mem k m => exact h
  | field k f => exact not_congr (by rw [show (s.hashes k).lookup f = (s'.hashes k).lookup f from h])

/-- A command changes only the cells it fills or empties. -/
theorem sameAt_of_untouched {c : Cmd T} {l : Cell} (hl : l ∉ writes c ∪ deletes c) (s : Store T) :
    SameAt l s (apply c s) := by
  obtain ⟨hw, hd⟩ := not_or.mp hl
  cases c with
  | mset kvs => exact sameAt_apply hw s
  | sadd k ms => exact sameAt_apply hw s
  | hset k kvs => exact sameAt_apply hw s
  | del ks => exact sameAt_apply hd s
  | srem k ms => exact sameAt_apply hd s
  | hdel k fs => exact sameAt_apply hd s
  | _ => exact ((cells T).equiv l).refl s

theorem not_filled_of_deletes {c : Cmd T} {l : Cell} (hl : l ∈ deletes c) (s : Store T) :
    ¬ Filled l (apply c s) := by
  cases c with
  | del ks =>
    obtain ⟨k, hk, rfl⟩ := hl
    simp [Filled, hk]
  | srem k ms =>
    obtain ⟨m, hm, rfl⟩ := hl
    simp [Filled, hm]
  | hdel k fs =>
    obtain ⟨f, hf, rfl⟩ := hl
    simp [Filled, hf]
  | _ => cases hl

/-- An empty cell stays empty until it is written. -/
theorem not_filled_apply {c : Cmd T} {l : Cell} {s : Store T} (hw : l ∉ writes c)
    (h : ¬ Filled l s) : ¬ Filled l (apply c s) := by
  by_cases hd : l ∈ deletes c
  · exact not_filled_of_deletes hd s
  · rwa [← (sameAt_of_untouched (fun hl => hl.elim hw hd) s).filled]

/-- The answer of a command depends on its footprint only. -/
theorem reply_congr {c : Cmd T} {s s' : Store T} (h : (cells T).Agree (footprint c) s s') :
    reply c s = reply c s' := by
  cases c with
  | get k => exact h (.str k) rfl
  | mget ks => exact List.map_congr_left fun k hk => h (.str k) ⟨k, hk, rfl⟩
  | smembers k => exact Finset.ext fun m => h (.mem k m) ⟨m, rfl⟩
  | scard k => exact congrArg Finset.card (Finset.ext fun m => h (.mem k m) ⟨m, rfl⟩)
  | hgetall k => exact Finmap.ext_lookup fun f => h (.field k f) ⟨f, rfl⟩
  | _ => rfl

/-- Stores that agree at a cell still agree there after the same command. -/
theorem sameAt_apply_congr {c : Cmd T} {s s' : Store T} {l : Cell} (hl : SameAt l s s') :
    SameAt l (apply c s) (apply c s') := by
  cases c <;> cases l <;>
    simp only [SameAt, apply_get, apply_mget, apply_smembers, apply_scard, apply_hgetall,
      strings_mset, sets_mset, hashes_mset, strings_del, sets_del, hashes_del, strings_sadd,
      hashes_sadd, mem_sets_sadd, strings_srem, hashes_srem, mem_sets_srem, strings_hset, sets_hset,
      lookup_hset, strings_hdel, sets_hdel, lookup_hdel] at hl ⊢ <;>
    simp only [hl]

/-- Every command is local to its footprint. -/
theorem local_footprint (c : Cmd T) : Local exec (cells T) (footprint c) c where
  frame s _ hl := sameAt_apply hl s
  reply _ _ h := congrArg Except.ok (reply_congr h)
  effect _ _ h := fun l hl => sameAt_apply_congr (h l hl)

end Redis
