import TwilightDispatch.Redis.KeyTypes

/-!
# One keyspace

A Redis server has one keyspace: a key holds one value, of one type, and a set or a hash is removed
when it becomes empty (`Keyspace`). What a server holds is seen as a store (`Keyspace.view`). A command
that meets no key of another type is answered as on that store, and has the effect it has there
(`serve_refines`).
-/

namespace Redis

open Atomic

variable {T α : Type}

/-- A value of a server. -/
inductive Value (T : Type) where
  | string (text : T)
  | set (members : Finset String) (nonempty : members.Nonempty)
  | hash (fields : Hash T) (nonempty : fields.keys.Nonempty)

namespace Value

def type : Value T → ValueType
  | string _ => .string
  | set _ _ => .set
  | hash _ _ => .hash

def text : Value T → Option T
  | string text => some text
  | _ => none

def members : Value T → Finset String
  | set members _ => members
  | _ => ∅

def fields : Value T → Hash T
  | hash fields _ => fields
  | _ => ∅

/-- The value of a key that holds a set with these members. -/
def ofMembers (members : Finset String) : Option (Value T) :=
  if h : members.Nonempty then some (.set members h) else none

/-- The value of a key that holds a hash with these fields. -/
def ofFields (fields : Hash T) : Option (Value T) :=
  if h : fields.keys.Nonempty then some (.hash fields h) else none

end Value

/-- What a server holds. -/
abbrev Keyspace (T : Type) := String → Option (Value T)

namespace Keyspace

def empty : Keyspace T := fun _ => none

/-- What a server holds, as a store. -/
def view (σ : Keyspace T) : Store T where
  strings k := (σ k).bind Value.text
  sets k := (σ k).elim ∅ Value.members
  hashes k := (σ k).elim ∅ Value.fields

/-- A key holds a value of the type, or none. -/
def Holds (σ : Keyspace T) (type : ValueType) (k : String) : Prop := ∀ v ∈ σ k, v.type = type

instance (σ : Keyspace T) (type : ValueType) (k : String) : Decidable (σ.Holds type k) :=
  match h : σ k with
  | none => isTrue fun v hv => by simp [h] at hv
  | some v => decidable_of_iff (v.type = type) (by simp [Holds, h])

/-- A command on a key that is for values of a type. -/
def on (σ : Keyspace T) (type : ValueType) (k : String) (answer : α) (σ' : Keyspace T) :
    Except RedisError α × Keyspace T :=
  if σ.Holds type k then (.ok answer, σ')
  else (.error ⟨"WRONGTYPE: Operation against a key holding the wrong kind of value"⟩, σ)

end Keyspace

/-- What a server answers and does. It replaces or deletes a key whatever that holds, and for a key of
another type it answers `mget` with nothing and every other command with an error. Without members or
fields a command does nothing here: the cache issues none. -/
def serve : Exec (interface T) (Keyspace T)
  | .get k, σ => σ.on .string k (σ.view.strings k) σ
  | .mget ks, σ => (.ok (ks.map σ.view.strings), σ)
  | .mset kvs, σ => (.ok (), fun k => ((lastOf kvs k).map .string).or (σ k))
  | .del ks, σ => (.ok (), fun k => if k ∈ ks then none else σ k)
  | .smembers k, σ => σ.on .set k (σ.view.sets k) σ
  | .scard k, σ => σ.on .set k (σ.view.sets k).card σ
  | .sadd k ms, σ =>
    if ms = [] then (.ok (), σ)
    else σ.on .set k () (Function.update σ k (Value.ofMembers (σ.view.sets k ∪ ms.toFinset)))
  | .srem k ms, σ =>
    if ms = [] then (.ok (), σ)
    else σ.on .set k () (Function.update σ k (Value.ofMembers (σ.view.sets k \ ms.toFinset)))
  | .hgetall k, σ => σ.on .hash k (σ.view.hashes k) σ
  | .hset k kvs, σ =>
    if kvs = [] then (.ok (), σ)
    else σ.on .hash k () (Function.update σ k (Value.ofFields (setFields kvs (σ.view.hashes k))))
  | .hdel k fs, σ =>
    if fs = [] then (.ok (), σ)
    else σ.on .hash k () (Function.update σ k (Value.ofFields (eraseFields fs (σ.view.hashes k))))

variable {σ : Keyspace T} {type : ValueType} {k : String} {c : Cmd T}

/-! ## The view of a value -/

namespace Value

@[simp] theorem text_ofMembers (ms : Finset String) :
    (ofMembers (T := T) ms).bind text = none := by
  unfold ofMembers
  split_ifs <;> rfl

@[simp] theorem members_ofMembers (ms : Finset String) :
    (ofMembers (T := T) ms).elim ∅ members = ms := by
  unfold ofMembers
  split_ifs with h
  · rfl
  · exact (Finset.not_nonempty_iff_eq_empty.mp h).symm

@[simp] theorem fields_ofMembers (ms : Finset String) :
    (ofMembers (T := T) ms).elim ∅ fields = ∅ := by
  unfold ofMembers
  split_ifs <;> rfl

@[simp] theorem text_ofFields (m : Hash T) : (ofFields m).bind text = none := by
  unfold ofFields
  split_ifs <;> rfl

@[simp] theorem members_ofFields (m : Hash T) : (ofFields m).elim ∅ members = ∅ := by
  unfold ofFields
  split_ifs <;> rfl

@[simp] theorem fields_ofFields (m : Hash T) : (ofFields m).elim ∅ fields = m := by
  unfold ofFields
  split_ifs with h
  · rfl
  · refine (Finmap.ext_lookup fun f => ?_).symm
    change m.lookup f = (∅ : Hash T).lookup f
    rw [Finmap.lookup_empty, Finmap.lookup_eq_none, ← Finmap.mem_keys,
      Finset.not_nonempty_iff_eq_empty.mp h]
    exact Finset.notMem_empty f

/-- Something of a value is seen in the cells of its key. -/
theorem exists_filled {v : Value T} (h : σ k = some v) :
    ∃ l, Filled l σ.view ∧ l.key = k ∧ l.type = v.type := by
  cases v with
  | string t => exact ⟨.str k, by simp [Filled, Keyspace.view, h, text], rfl, rfl⟩
  | set ms hms =>
    obtain ⟨m, hm⟩ := hms
    exact ⟨.mem k m, by simpa [Filled, Keyspace.view, h, members] using hm, rfl, rfl⟩
  | hash fs hfs =>
    obtain ⟨f, hf⟩ := hfs
    refine ⟨.field k f, ?_, rfl, rfl⟩
    rw [Finmap.mem_keys, ← Finmap.lookup_isSome] at hf
    simpa [Filled, Keyspace.view, h, fields, ← Option.isSome_iff_ne_none] using hf

end Value

/-! ## Keys of one type -/

@[simp] theorem Keyspace.view_empty : (Keyspace.empty : Keyspace T).view = Store.empty := rfl

/-- The keys of a command that meets no key of another type hold values of its type. -/
theorem holds_of_not_mistyped {l : Cell} (h : ¬ Mistyped c σ.view) (hl : l ∈ footprint c) :
    σ.Holds l.type l.key := by
  intro v hv
  obtain ⟨l', hfilled, hkey, htype⟩ := Value.exists_filled hv
  by_contra hne
  exact h ⟨l, hl, l', hfilled, hkey, fun heq => hne (htype.symm.trans heq)⟩

namespace Keyspace.Holds

theorem on_eq (h : σ.Holds type k) (answer : α) (σ' : Keyspace T) :
    σ.on type k answer σ' = (.ok answer, σ') := if_pos h

theorem strings (h : σ.Holds type k) (htype : type ≠ .string) : σ.view.strings k = none := by
  change (σ k).bind Value.text = none
  rcases hv : σ k with _ | _ | _ | _
  · rfl
  · exact absurd (h _ hv).symm htype
  · rfl
  · rfl

theorem sets (h : σ.Holds type k) (htype : type ≠ .set) : σ.view.sets k = ∅ := by
  change (σ k).elim ∅ Value.members = ∅
  rcases hv : σ k with _ | _ | _ | _
  · rfl
  · rfl
  · exact absurd (h _ hv).symm htype
  · rfl

theorem hashes (h : σ.Holds type k) (htype : type ≠ .hash) : σ.view.hashes k = ∅ := by
  change (σ k).elim ∅ Value.fields = ∅
  rcases hv : σ k with _ | _ | _ | _
  · rfl
  · rfl
  · rfl
  · exact absurd (h _ hv).symm htype

/-- Replacing a set is seen as that. -/
theorem view_setMembers (h : σ.Holds .set k) (ms : Finset String) :
    view (Function.update σ k (Value.ofMembers ms)) =
      { σ.view with sets := Function.update σ.view.sets k ms } := by
  ext1 <;> funext k'
  all_goals by_cases hk : k' = k
  all_goals simp only [view, hk, Function.update_self, Function.update_of_ne, ne_eq,
    not_false_eq_true, Value.text_ofMembers, Value.members_ofMembers, Value.fields_ofMembers]
  · exact (h.strings nofun).symm
  · exact (h.hashes nofun).symm

/-- Replacing a hash is seen as that. -/
theorem view_setFields (h : σ.Holds .hash k) (m : Hash T) :
    view (Function.update σ k (Value.ofFields m)) =
      { σ.view with hashes := Function.update σ.view.hashes k m } := by
  ext1 <;> funext k'
  all_goals by_cases hk : k' = k
  all_goals simp only [view, hk, Function.update_self, Function.update_of_ne, ne_eq,
    not_false_eq_true, Value.text_ofFields, Value.members_ofFields, Value.fields_ofFields]
  · exact (h.strings nofun).symm
  · exact (h.sets nofun).symm

end Keyspace.Holds

/-- Writing strings where strings were is seen as that. -/
theorem view_mset {kvs : List (String × T)} (h : ∀ kv ∈ kvs, σ.Holds .string kv.1) :
    Keyspace.view (fun k => ((lastOf kvs k).map .string).or (σ k)) =
      apply (.mset kvs) σ.view := by
  have hkey : ∀ {k t}, lastOf kvs k = some t → σ.Holds .string k :=
    fun hlast => h _ (mem_of_lastOf hlast)
  ext1 <;> funext k
  all_goals
    rcases hlast : lastOf kvs k with _ | t
    all_goals simp only [Keyspace.view, strings_mset, sets_mset, hashes_mset, hlast,
      Option.map_none, Option.none_or, Option.map_some, Option.some_or]
  · rfl
  · exact ((hkey hlast).sets nofun).symm
  · exact ((hkey hlast).hashes nofun).symm

/-- Deleting strings is seen as that. -/
theorem view_del {ks : List String} (h : ∀ k ∈ ks, σ.Holds .string k) :
    Keyspace.view (fun k => if k ∈ ks then none else σ k) = apply (.del ks) σ.view := by
  ext1 <;> funext k
  all_goals
    by_cases hk : k ∈ ks
    all_goals simp only [Keyspace.view, strings_del, sets_del, hashes_del, hk, if_true, if_false,
      Option.bind_none]
  · exact ((h k hk).sets nofun).symm
  · exact ((h k hk).hashes nofun).symm

/-- A command that meets no key of another type is served as on the store. -/
theorem serve_refines (h : ¬ Mistyped c σ.view) :
    ∃ σ', serve c σ = (.ok (reply c σ.view), σ') ∧ σ'.view = apply c σ.view := by
  have hholds : ∀ l ∈ footprint c, σ.Holds l.type l.key := fun l => holds_of_not_mistyped h
  cases c with
  | get k => exact ⟨σ, (hholds (.str k) rfl).on_eq _ _, rfl⟩
  | mget ks => exact ⟨σ, rfl, rfl⟩
  | mset kvs => exact ⟨_, rfl, view_mset fun kv hkv => hholds (.str kv.1) ⟨kv, hkv, rfl⟩⟩
  | del ks => exact ⟨_, rfl, view_del fun k hk => hholds (.str k) ⟨k, hk, rfl⟩⟩
  | smembers k => exact ⟨σ, (hholds (.mem k "") ⟨"", rfl⟩).on_eq _ _, rfl⟩
  | scard k => exact ⟨σ, (hholds (.mem k "") ⟨"", rfl⟩).on_eq _ _, rfl⟩
  | hgetall k => exact ⟨σ, (hholds (.field k "") ⟨"", rfl⟩).on_eq _ _, rfl⟩
  | sadd k ms =>
    rcases ms with _ | ⟨m, ms⟩
    · exact ⟨σ, rfl, by simp [apply]⟩
    · have hk := hholds (.mem k m) ⟨m, List.mem_cons_self, rfl⟩
      exact ⟨_, hk.on_eq _ _, hk.view_setMembers _⟩
  | srem k ms =>
    rcases ms with _ | ⟨m, ms⟩
    · exact ⟨σ, rfl, by simp [apply]⟩
    · have hk := hholds (.mem k m) ⟨m, List.mem_cons_self, rfl⟩
      exact ⟨_, hk.on_eq _ _, hk.view_setMembers _⟩
  | hset k kvs =>
    rcases kvs with _ | ⟨kv, kvs⟩
    · exact ⟨σ, rfl, by simp [apply, setFields]⟩
    · have hk := hholds (.field k kv.1) ⟨kv, List.mem_cons_self, rfl⟩
      exact ⟨_, hk.on_eq _ _, hk.view_setFields _⟩
  | hdel k fs =>
    rcases fs with _ | ⟨f, fs⟩
    · exact ⟨σ, rfl, by simp [apply, eraseFields]⟩
    · have hk := hholds (.field k f) ⟨f, List.mem_cons_self, rfl⟩
      exact ⟨_, hk.on_eq _ _, hk.view_setFields _⟩

end Redis
