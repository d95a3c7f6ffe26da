import TwilightDispatch.Cache

/-!
# What the store operations do

One lemma for each operation of the cache: what it returns and the store it leaves. `putAll` and
`dropAll` are the effects of `setAll` and `delAll`, whatever the order of their index commands.
-/

namespace TwilightDispatch

open Atomic Redis

variable {T V α β : Type} {J : Json T V} {orders : Orders} {s : Store T}

/-! ## Single commands and reads -/

@[simp] theorem run_redis (c : Cmd T) :
    Fallible.run exec (redis c) s = (.ok (reply c s), apply c s) := rfl

@[simp] theorem run_orSimdJson (r : Except SimdJsonError α) :
    Fallible.run exec (orSimdJson r : Api T α) s =
      (r.mapError fun err => .error (.simdJson err), s) := by
  cases r <;> rfl

theorem run_redis_bind (c : Cmd T) (f : c.Answer → Api T β) :
    Fallible.run exec (redis c >>= f) s = Fallible.run exec (f (reply c s)) (apply c s) :=
  Fallible.run_bind_ok (run_redis c)

theorem run_get_none {decode : T → Except SimdJsonError α} {key : String}
    (h : s.strings key = none) : Fallible.run exec (get decode key) s = (.ok none, s) := by
  unfold get
  rw [run_redis_bind]
  simp [reply, h]

theorem run_get_some {decode : T → Except SimdJsonError α} {key : String} {t : T} {a : α}
    (h : s.strings key = some t) (ha : decode t = .ok a) :
    Fallible.run exec (get decode key) s = (.ok (some a), s) := by
  unfold get
  rw [run_redis_bind]
  simp only [reply, h, ha, apply_get]
  rfl

theorem run_get_error {decode : T → Except SimdJsonError α} {key : String} {t : T}
    {err : SimdJsonError} (h : s.strings key = some t) (ha : decode t = .error err) :
    Fallible.run exec (get decode key) s = (.error (.error (.simdJson err)), s) := by
  unfold get
  rw [run_redis_bind]
  simp only [reply, h, ha, apply_get]
  rfl

@[simp] theorem run_getMembers (key : String) :
    Fallible.run exec (getMembers orders key) s = (.ok (orders.listing (s.sets key)), s) := rfl

/-- A list of keys is read as a list, unless it has one key and this is read as a single one. -/
theorem getKeys_eq {oneKey : OneKey} {keys : List String} (h : oneKey = .list ∨ keys.length ≠ 1) :
    getKeys oneKey keys = (redis (.mget keys) : Api T _) := by
  rcases oneKey with _ | _
  · rfl
  · match keys, h with
    | [], _ => rfl
    | [_], h => simp at h
    | _ :: _ :: _, _ => rfl

/-- Where every text that is found decodes, `getAll` returns the values in the order of the keys. -/
theorem run_getAll {oneKey : OneKey} {decode : T → Except SimdJsonError α} {keys : List String}
    (hkeys : oneKey = .list ∨ keys.length ≠ 1) {values : List (Option α)}
    (h : List.Forall₂ (fun key value => (s.strings key).map decode = value.map .ok) keys values) :
    Fallible.run exec (getAll oneKey decode keys) s = (.ok values, s) := by
  unfold getAll
  split_ifs with hempty
  · obtain rfl := List.isEmpty_iff.mp hempty
    cases h
    rfl
  · rw [getKeys_eq hkeys, run_redis_bind]
    simp only [apply_mget]
    change Fallible.run exec (List.mapM _ (keys.map s.strings)) s = _
    clear hkeys hempty
    induction h with
    | nil => rfl
    | @cons key value keys values hv _ ih =>
      rw [List.map_cons, List.mapM_cons]
      cases ht : s.strings key with
      | none =>
        rw [ht] at hv
        obtain rfl : value = none := by simpa using hv.symm
        rw [Fallible.run_bind_ok (Fallible.run_pure _ _), Fallible.run_bind_ok ih]
        rfl
      | some t =>
        rw [ht] at hv
        obtain ⟨a, rfl, ha⟩ := Option.map_eq_some_iff.mp hv.symm
        have hdec : Fallible.run exec (do return some (← orSimdJson (decode t))) s =
            (.ok (some a), s) := by
          rw [← ha]
          rfl
        rw [Fallible.run_bind_ok hdec, Fallible.run_bind_ok ih]
        rfl

theorem run_getAll_none {decode : T → Except SimdJsonError α} {key : String}
    (h : s.strings key = none) :
    Fallible.run exec (getAll .single decode [key]) s = (.ok [], s) := by
  have hget : Fallible.run exec (getKeys .single [key]) s = (.ok [], s) := by
    unfold getKeys
    rw [run_redis_bind]
    simp only [reply, h, apply_get]
    rfl
  exact Fallible.run_bind_ok hget

/-- The value of a single key is not a list. -/
theorem run_getAll_some {decode : T → Except SimdJsonError α} {key : String}
    (h : s.strings key ≠ none) :
    ∃ err, Fallible.run exec (getAll .single decode [key]) s = (.error (.error (.redis err)), s) := by
  obtain ⟨t, ht⟩ := Option.ne_none_iff_exists'.mp h
  have hget : ∃ err, Fallible.run exec (getKeys .single [key]) s =
      (.error (.error (.redis err)), s) := by
    unfold getKeys
    rw [run_redis_bind]
    simp only [reply, ht, apply_get]
    exact ⟨_, rfl⟩
  obtain ⟨err, herr⟩ := hget
  exact ⟨err, Fallible.run_bind_error herr⟩

theorem run_attempt_ok {x : Api T α} {a : α} {s' : Store T}
    (h : Fallible.run exec x s = (.ok a, s')) :
    Fallible.run exec (attempt x) s = (.ok (.ok a), s') := by
  unfold attempt
  have hl : Fallible.run exec (ExceptT.lift (ExceptT.run x) : Api T _) s = (.ok (.ok a), s') := by
    rw [Fallible.run_lift]
    unfold Fallible.run at h
    rw [h]
  rw [Fallible.run_bind_ok hl]
  rfl

theorem run_attempt_error {x : Api T α} {err : ApiError} {s' : Store T}
    (h : Fallible.run exec x s = (.error (.error err), s')) :
    Fallible.run exec (attempt x) s = (.ok (.error err), s') := by
  unfold attempt
  have hl : Fallible.run exec (ExceptT.lift (ExceptT.run x) : Api T _) s =
      (.ok (.error (.error err)), s') := by
    rw [Fallible.run_lift]
    unfold Fallible.run at h
    rw [h]
  rw [Fallible.run_bind_ok hl]
  rfl

/-! ## Index bookkeeping -/

/-- Grouping by index loses and invents no entry. -/
theorem mem_pushMember {members : List (String × List String)} {entry : String × String}
    {index member : String} :
    (∃ values, (index, values) ∈ pushMember members entry ∧ member ∈ values) ↔
      (∃ values, (index, values) ∈ members ∧ member ∈ values) ∨ (index, member) = entry := by
  obtain ⟨index', member'⟩ := entry
  induction members with
  | nil =>
    simp [pushMember]
  | cons head rest ih =>
    obtain ⟨i, values⟩ := head
    unfold pushMember
    split_ifs with h
    · subst h
      simp only [List.mem_cons, Prod.mk.injEq, or_and_right, exists_or, and_assoc]
      simp only [exists_and_left, exists_eq_left, List.mem_append, List.mem_singleton]
      grind
    · simp only [List.mem_cons, Prod.mk.injEq, or_and_right, exists_or, and_assoc] at ih ⊢
      rw [ih]
      exact or_assoc.symm

theorem mem_foldl_pushMember {entries : List (String × String)} {index member : String} :
    (∃ values, (index, values) ∈ entries.foldl pushMember [] ∧ member ∈ values) ↔
      (index, member) ∈ entries := by
  have h : ∀ members, (∃ values, (index, values) ∈ entries.foldl pushMember members ∧
      member ∈ values) ↔ (∃ values, (index, values) ∈ members ∧ member ∈ values) ∨
      (index, member) ∈ entries := by
    induction entries with
    | nil => simp
    | cons entry entries ih =>
      intro members
      rw [List.foldl_cons, ih, mem_pushMember, List.mem_cons, or_assoc]
  rw [h]
  simp

/-- The two ways in which `set_all` and `del_all` name the indexes of a key agree. -/
theorem delMembers_eq (key : String) : delMembers key = setMembers key := by
  unfold delMembers setMembers
  by_cases h : (split key).length > 2
  · simp [h]
  · simp [h]

/-! ## Writing -/

/-- The pairs a batch stores. -/
def storedPairs (J : Json T V) (keys : List (String × Item)) : List (String × T) :=
  keys.map fun kv => (newKey kv.1, J.text kv.2)

/-- The effect of `setAll`. -/
def putAll (J : Json T V) (keys : List (String × Item)) (s : Store T) : Store T where
  strings k := (lastOf (storedPairs J keys) k).or (s.strings k)
  sets S := s.sets S ∪
    (((keys.flatMap fun kv => setMembers kv.1).filter (·.1 = S)).map Prod.snd).toFinset
  hashes := s.hashes

/-- The effect of `delAll`. -/
def dropAll (keys : List String) (s : Store T) : Store T where
  strings k := if k ∈ keys.map newKey then none else s.strings k
  sets S := s.sets S \ (((keys.flatMap setMembers).filter (·.1 = S)).map Prod.snd).toFinset
  hashes := s.hashes

section Effects

variable {keys : List (String × Item)} {ks : List String} {k S m : String}

@[simp] theorem strings_putAll :
    (putAll J keys s).strings k = (lastOf (storedPairs J keys) k).or (s.strings k) := rfl

@[simp] theorem hashes_putAll : (putAll J keys s).hashes = s.hashes := rfl

@[simp] theorem mem_sets_putAll : m ∈ (putAll J keys s).sets S ↔
    m ∈ s.sets S ∨ ∃ kv ∈ keys, (S, m) ∈ setMembers kv.1 := by
  simp [putAll, and_comm]

@[simp] theorem strings_dropAll :
    (dropAll ks s).strings k = if k ∈ ks.map newKey then none else s.strings k := rfl

@[simp] theorem hashes_dropAll : (dropAll ks s).hashes = s.hashes := rfl

@[simp] theorem mem_sets_dropAll : m ∈ (dropAll ks s).sets S ↔
    m ∈ s.sets S ∧ ¬ ∃ k ∈ ks, (S, m) ∈ setMembers k := by
  simp [dropAll, and_comm]

@[simp] theorem has_putAll : (putAll J keys s).Has k ↔ s.Has k ∨ ∃ kv ∈ keys, newKey kv.1 = k := by
  have hmem : k ∈ (storedPairs J keys).map Prod.fst ↔ ∃ kv ∈ keys, newKey kv.1 = k := by
    simp [storedPairs]
  unfold Store.Has
  rw [strings_putAll, ne_eq, Option.or_eq_none_iff, lastOf_eq_none_iff, not_and_or, not_not, hmem,
    or_comm]

@[simp] theorem has_dropAll : (dropAll ks s).Has k ↔ s.Has k ∧ ¬ ∃ key ∈ ks, newKey key = k := by
  unfold Store.Has
  rw [strings_dropAll, ← List.mem_map]
  split_ifs with h <;> simp [h]

theorem dropAll_nil : dropAll [] s = s :=
  Store.ext_cells (by simp) (by simp) (by simp)

/-- Deletions can be batched. -/
theorem dropAll_append (ks ks' : List String) : dropAll (ks ++ ks') s = dropAll ks' (dropAll ks s) := by
  refine Store.ext_cells (fun k => ?_) (fun S m => ?_) fun _ _ => rfl
  · simp only [strings_dropAll, List.map_append, List.mem_append]
    by_cases h : k ∈ ks.map newKey <;> by_cases h' : k ∈ ks'.map newKey <;> simp [h, h']
  · simp only [mem_sets_dropAll, List.mem_append, or_and_right, exists_or, not_or, and_assoc]

/-- The order of deletions does not matter. -/
theorem dropAll_perm {ks ks' : List String} (h : ks.Perm ks') : dropAll ks s = dropAll ks' s := by
  refine Store.ext_cells (fun k => ?_) (fun S m => ?_) fun _ _ => rfl
  · simp only [strings_dropAll, (h.map newKey).mem_iff]
  · simp only [mem_sets_dropAll, h.mem_iff]

theorem storedPairs_append (keys keys' : List (String × Item)) :
    storedPairs J (keys ++ keys') = storedPairs J keys ++ storedPairs J keys' := List.map_append

/-- Writes can be batched. -/
theorem putAll_append (keys keys' : List (String × Item)) :
    putAll J (keys ++ keys') s = putAll J keys' (putAll J keys s) := by
  refine Store.ext_cells (fun k => ?_) (fun S m => ?_) fun _ _ => rfl
  · simp only [strings_putAll, storedPairs_append, lastOf_append, Option.or_assoc]
  · simp only [mem_sets_putAll, List.mem_append, or_and_right, exists_or, or_assoc]

theorem putAll_nil : putAll J [] s = s :=
  Store.ext_cells (by simp [storedPairs]) (by simp) (by simp)

end Effects

/-- Index commands issued one after another. -/
theorem run_sadd_all (l : List (String × List String)) :
    Fallible.run exec (l.forM fun kv => (redis (.sadd kv.1 kv.2) : Api T Unit)) s =
      (.ok (), l.foldl (fun s kv => apply (.sadd kv.1 kv.2) s) s) := by
  induction l generalizing s with
  | nil => rfl
  | cons kv l ih => exact (Fallible.run_bind_ok (run_redis (.sadd kv.1 kv.2))).trans ih

theorem run_srem_all (l : List (String × List String)) :
    Fallible.run exec (l.forM fun kv => (redis (.srem kv.1 kv.2) : Api T Unit)) s =
      (.ok (), l.foldl (fun s kv => apply (.srem kv.1 kv.2) s) s) := by
  induction l generalizing s with
  | nil => rfl
  | cons kv l ih => exact (Fallible.run_bind_ok (run_redis (.srem kv.1 kv.2))).trans ih

theorem sadd_all_spec (l : List (String × List String)) (s : Store T) :
    let s' := l.foldl (fun s kv => apply (.sadd kv.1 kv.2) s) s
    s'.strings = s.strings ∧ s'.hashes = s.hashes ∧ ∀ S m, m ∈ s'.sets S ↔
      m ∈ s.sets S ∨ ∃ values, (S, values) ∈ l ∧ m ∈ values := by
  induction l generalizing s with
  | nil => simp
  | cons kv l ih =>
    obtain ⟨hstr, hhash, hset⟩ := ih (apply (.sadd kv.1 kv.2) s)
    refine ⟨hstr, hhash, fun S m => ?_⟩
    rw [List.foldl_cons, hset, mem_sets_sadd, or_assoc]
    refine or_congr_right ⟨?_, ?_⟩
    · rintro (⟨rfl, hm⟩ | ⟨values, hl, hm⟩)
      · exact ⟨kv.2, List.mem_cons_self, hm⟩
      · exact ⟨values, List.mem_cons_of_mem _ hl, hm⟩
    · rintro ⟨values, hl, hm⟩
      rcases List.mem_cons.mp hl with h | hl
      · exact Or.inl ⟨congrArg Prod.fst h, congrArg Prod.snd h ▸ hm⟩
      · exact Or.inr ⟨values, hl, hm⟩

theorem srem_all_spec (l : List (String × List String)) (s : Store T) :
    let s' := l.foldl (fun s kv => apply (.srem kv.1 kv.2) s) s
    s'.strings = s.strings ∧ s'.hashes = s.hashes ∧ ∀ S m, m ∈ s'.sets S ↔
      m ∈ s.sets S ∧ ¬ ∃ values, (S, values) ∈ l ∧ m ∈ values := by
  induction l generalizing s with
  | nil => simp
  | cons kv l ih =>
    obtain ⟨hstr, hhash, hset⟩ := ih (apply (.srem kv.1 kv.2) s)
    refine ⟨hstr, hhash, fun S m => ?_⟩
    rw [List.foldl_cons, hset, mem_sets_srem, and_assoc, ← not_or]
    refine and_congr_right fun _ => not_congr ⟨?_, ?_⟩
    · rintro (⟨rfl, hm⟩ | ⟨values, hl, hm⟩)
      · exact ⟨kv.2, List.mem_cons_self, hm⟩
      · exact ⟨values, List.mem_cons_of_mem _ hl, hm⟩
    · rintro ⟨values, hl, hm⟩
      rcases List.mem_cons.mp hl with h | hl
      · exact Or.inl ⟨congrArg Prod.fst h, congrArg Prod.snd h ▸ hm⟩
      · exact Or.inr ⟨values, hl, hm⟩

/-- An entry is in the hash map `members`, in whatever order it is iterated, if it was pushed. -/
theorem exists_mem_members {entries : List (String × String)} {S m : String} :
    (∃ values, (S, values) ∈ orders.members (entries.foldl pushMember []) ∧ m ∈ values) ↔
      (S, m) ∈ entries := by
  rw [← mem_foldl_pushMember]
  simp only [(orders.members_perm _).mem_iff]

/-- `setAll` succeeds and stores every pair and its index entries. -/
theorem run_setAll (keys : List (String × Item)) :
    Fallible.run exec (setAll J orders keys) s = (.ok (), putAll J keys s) := by
  unfold setAll
  by_cases h : keys = []
  · subst h
    rw [putAll_nil]
    rfl
  · simp only [List.isEmpty_map, List.isEmpty_iff, h, if_false]
    rw [run_redis_bind, run_sadd_all]
    obtain ⟨hstr, hhash, hset⟩ := sadd_all_spec (orders.members
      ((keys.flatMap fun kv => setMembers kv.1).foldl pushMember []))
      (apply (.mset (storedPairs J keys)) s)
    refine congrArg (Prod.mk _) (Store.ext_cells (fun k => ?_) (fun S m => ?_) fun k f => ?_)
    · exact congrFun hstr k
    · rw [mem_sets_putAll]
      refine (hset S m).trans ?_
      rw [exists_mem_members, sets_mset, List.mem_flatMap]
    · exact congrArg (Finmap.lookup f) (congrFun hhash k)

theorem run_set (key : String) (value : Item) :
    Fallible.run exec (set J orders key value) s = (.ok (), putAll J [(key, value)] s) :=
  run_setAll _

/-- `delAll` succeeds and removes every key and its index entries. -/
theorem run_delAll (keys : List String) :
    Fallible.run exec (delAll orders keys) s = (.ok (), dropAll keys s) := by
  unfold delAll
  by_cases h : keys = []
  · subst h
    rw [dropAll_nil]
    rfl
  · simp only [List.isEmpty_map, List.isEmpty_iff, h, if_false]
    rw [run_redis_bind, run_srem_all]
    obtain ⟨hstr, hhash, hset⟩ := srem_all_spec (orders.members
      ((keys.flatMap delMembers).foldl pushMember [])) (apply (.del (keys.map newKey)) s)
    refine congrArg (Prod.mk _) (Store.ext_cells (fun k => ?_) (fun S m => ?_) fun k f => ?_)
    · exact congrFun hstr k
    · rw [mem_sets_dropAll]
      refine (hset S m).trans ?_
      rw [exists_mem_members, sets_del, List.mem_flatMap]
      simp only [delMembers_eq]
    · exact congrArg (Finmap.lookup f) (congrFun hhash k)

theorem run_del (key : String) :
    Fallible.run exec (del orders key) s = (.ok (), dropAll [key] s) := run_delAll _

/-! ## Deadlines -/

/-- The fields `expireAll` writes, if every deadline is a representable date. -/
def deadlines (J : Json T V) (now : FormattedDateTime) (keys : List (String × UInt64)) :
    Option (List (String × T)) :=
  keys.mapM fun kv =>
    (now.add (milliseconds (asI64 kv.2))).map fun timestamp => (kv.1, J.text (.timestamp timestamp))

theorem apply_hset_nil (key : String) : apply (.hset key []) s = s :=
  Store.ext_cells (by simp) (by simp) (by simp)

@[simp] theorem deadlines_nil (now : FormattedDateTime) : deadlines J now [] = some [] := rfl

theorem deadlines_cons (now : FormattedDateTime) (kv : String × UInt64)
    (keys : List (String × UInt64)) :
    deadlines J now (kv :: keys) = (now.add (milliseconds (asI64 kv.2))).bind fun timestamp =>
      (deadlines J now keys).map fun fields => (kv.1, J.text (.timestamp timestamp)) :: fields := by
  unfold deadlines
  rw [List.mapM_cons]
  cases now.add (milliseconds (asI64 kv.2)) with
  | none => rfl
  | some timestamp =>
    simp only [Option.map_some, Option.bind_some]
    exact Option.map_eq_bind.symm

theorem run_deadlineField (now : FormattedDateTime) (kv : String × UInt64) :
    Fallible.run exec (deadlineField J now kv : Api T _) s =
      match now.add (milliseconds (asI64 kv.2)) with
      | some timestamp => (.ok (kv.1, J.text (.timestamp timestamp)), s)
      | none => (.error .panic, s) := by
  unfold deadlineField
  cases now.add (milliseconds (asI64 kv.2)) <;> rfl

theorem run_mapM_deadlineField (now : FormattedDateTime) (keys : List (String × UInt64)) :
    Fallible.run exec (keys.mapM (deadlineField J now) : Api T _) s =
      match deadlines J now keys with
      | some fields => (.ok fields, s)
      | none => (.error .panic, s) := by
  induction keys with
  | nil => rfl
  | cons kv keys ih =>
    rw [List.mapM_cons, Fallible.run_bind, run_deadlineField, deadlines_cons]
    cases now.add (milliseconds (asI64 kv.2)) with
    | none => rfl
    | some timestamp =>
      simp only [Option.bind_some]
      rw [Fallible.run_bind, ih]
      cases deadlines J now keys <;> rfl

/-- `expireAll` writes the deadlines, or panics and writes nothing. -/
theorem run_expireAll (now : FormattedDateTime) (keys : List (String × UInt64)) :
    Fallible.run exec (expireAll J now keys) s =
      match deadlines J now keys with
      | some fields => (.ok (), apply (.hset EXPIRY_KEYS fields) s)
      | none => (.error .panic, s) := by
  unfold expireAll
  rw [Fallible.run_bind, run_mapM_deadlineField]
  cases deadlines J now keys with
  | none => rfl
  | some fields =>
    cases fields with
    | nil => exact congrArg (Prod.mk _) (apply_hset_nil EXPIRY_KEYS).symm
    | cons field fields => rfl

theorem run_delHashmap (key : String) (keys : List String) :
    Fallible.run exec (delHashmap key keys) s = (.ok (), apply (.hdel key keys) s) := by
  unfold delHashmap
  cases keys with
  | nil => exact congrArg (Prod.mk _) (Store.ext_cells (by simp) (by simp) (by simp))
  | cons k keys => rfl

/-! ## The sweep and the clearing of a guild -/

/-- The keys a sweep at `now` treats as expired. -/
def expired (J : Json T V) (env : Env) (s : Store T) : List String :=
  expiredKeys J env.now (((env.orders.listing (s.hashes EXPIRY_KEYS).keys)).filterMap fun field =>
    ((s.hashes EXPIRY_KEYS).lookup field).map (field, ·))

theorem mem_expired {env : Env} {k : String} : k ∈ expired J env s ↔
    ∃ t d, (s.hashes EXPIRY_KEYS).lookup k = some t ∧ J.timestamp t = .ok d ∧
      d.nanos < env.now.nanos := by
  unfold expired expiredKeys
  simp only [List.mem_filterMap, Option.map_eq_some_iff, env.orders.mem_listing, Finmap.mem_keys]
  constructor
  · rintro ⟨⟨k', t⟩, ⟨field, hfield, t', ht, heq⟩, h⟩
    obtain ⟨rfl, rfl⟩ := Prod.mk.inj heq
    cases hd : J.timestamp t' with
    | error err => rw [hd] at h; cases h
    | ok d =>
      rw [hd] at h
      simp only at h
      split_ifs at h with hlt
      obtain rfl := Option.some.inj h
      unfold FormattedDateTime.sub at hlt
      exact ⟨t', d, ht, hd, by omega⟩
  · rintro ⟨t, d, ht, hd, hlt⟩
    refine ⟨(k, t), ⟨k, Finmap.mem_of_lookup_eq_some ht, t, ht, rfl⟩, ?_⟩
    rw [hd]
    simp only
    unfold FormattedDateTime.sub
    rw [if_pos (by omega)]

theorem run_deleteExpired (keys : List String) : (deleteExpired orders keys).run exec s =
    ((), apply (.hdel EXPIRY_KEYS keys) (dropAll keys s)) := by
  have hdel : (ExceptT.run (delAll orders keys)).run exec s = (.ok (), dropAll keys s) :=
    run_delAll _
  have hhash : (ExceptT.run (delHashmap EXPIRY_KEYS keys)).run exec (dropAll keys s) =
      (.ok (), apply (.hdel EXPIRY_KEYS keys) (dropAll keys s)) := run_delHashmap _ _
  unfold deleteExpired
  rw [Prog.run_bind, hdel]
  simp only
  rw [Prog.run_bind, hhash]
  rfl

/-- A sweep removes the expired keys, their index entries and their deadlines. -/
theorem run_sweep (env : Env) : (sweep J env).run exec s =
    ((), apply (.hdel EXPIRY_KEYS (expired J env s)) (dropAll (expired J env s) s)) :=
  run_deleteExpired _

/-- The store after the entries a guild's index lists have been deleted. -/
def unlisted (orders : Orders) (g : Id .guild) (s : Store T) : Store T :=
  dropAll (orders.listing (s.sets (guildKeys (toString g)))) s

/-- The store after a guild has been cleared. -/
def cleared (orders : Orders) (g : Id .guild) (s : Store T) : Store T :=
  dropAll [guildKey g] (unlisted orders g s)

/-- Clearing a guild whose value decodes returns that value and leaves nothing its index lists. -/
theorem run_clearGuild {decode : T → Except SimdJsonError α} {g : Id .guild} {old : Option α}
    (h : Fallible.run exec (get decode (guildKey g)) (unlisted orders g s) =
      (.ok old, unlisted orders g s)) :
    Fallible.run exec (clearGuild decode orders g) s = (.ok old, cleared orders g s) := by
  unfold clearGuild
  rw [Fallible.run_bind_ok (run_attempt_ok (run_getMembers (guildKeys (toString g))))]
  simp only
  have hdrop : Fallible.run exec (delAll orders (orders.listing (s.sets (guildKeys (toString g))))) s =
      (.ok (), unlisted orders g s) := run_delAll _
  rw [Fallible.run_bind_ok hdrop, Fallible.run_bind_ok (run_attempt_ok h)]
  simp only
  rw [Fallible.run_bind_ok (run_del (guildKey g))]
  rfl

end TwilightDispatch
