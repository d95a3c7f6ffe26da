import TwilightDispatch.KeyNames
import TwilightDispatch.ProcessRule
import TwilightDispatch.Redis.Keyspace

/-!
# One type for every key

The service uses three families of names: keys of values, names of indexes, and the name of the
expiry hash. Whatever processes run, one after another and each with all its tasks, nothing else is
in Redis, the indexes and the expiry hash list stored keys of entities only, and every command uses
a name for its own type (`Classified`). So the type of a key never changes, and no command meets a
key of another type.
-/

namespace TwilightDispatch

open Atomic Redis

variable {T V : Type} {J : Json T V} {P : PayloadJson V} {cfg : Config} {botId : Id .user}
  {env : Env} {orders : Orders} {s : Store T} {k S : String}

/-- The cells whose names are of their type. -/
def named : Set Cell
  | .str k => StringName k
  | .mem S _ => SetName S
  | .field h _ => h = EXPIRY_KEYS

theorem typed_named : Typed named := by
  have hstr : ∀ {k S}, StringName k → SetName S → k ≠ S := fun hk hS => hk.ne_setName hS
  rintro (k | ⟨S, m⟩ | ⟨h, f⟩) hl (k' | ⟨S', m'⟩ | ⟨h', f'⟩) hl' hkey
  · rfl
  · exact absurd hkey.symm (hstr hl hl')
  · exact absurd (hkey.symm.trans hl') (StringName.ne_expiryKeys hl)
  · exact absurd hkey (hstr hl' hl)
  · rfl
  · exact absurd (hkey.symm.trans hl') (SetName.ne_expiryKeys hl)
  · exact absurd (hkey.trans hl) (StringName.ne_expiryKeys hl')
  · exact absurd (hkey.trans hl) (SetName.ne_expiryKeys hl')
  · rfl

/-! ## The invariant -/

/-- What is in Redis has a name of its type, an index lists stored keys of entities that are entered
there, and the expiry hash those of entities that expire. -/
structure Classified (s : Store T) : Prop where
  strings : ∀ k, s.Has k → StringName k
  listed : ∀ S k, k ∈ s.sets S → ∃ e : Entity, k = e.stored ∧ (S, k) ∈ setMembers e.key
  fields : ∀ h f, (s.hashes h).lookup f ≠ none →
    h = EXPIRY_KEYS ∧ ∃ e : Entity, e.expirable = true ∧ f = e.stored

namespace Classified

theorem empty : Classified (Store.empty : Store T) where
  strings k hk := (Store.not_has_empty k hk).elim
  listed _ k hk := (Finset.notMem_empty k hk).elim
  fields _ _ hf := (hf rfl).elim

theorem mem_named (h : Classified s) (l : Cell) (hl : Filled l s) : l ∈ named := by
  cases l with
  | str k => exact h.strings k hl
  | mem S m =>
    obtain ⟨e, -, hm⟩ := h.listed S m hl
    exact setName_of_mem_setMembers hm
  | field name f => exact (h.fields name f hl).1

theorem shrinks : Shrinks (Classified : Store T → Prop) where
  del keys s h := by
    refine ⟨fun k hk => h.strings k fun hnone => hk ?_, h.listed, h.fields⟩
    rw [strings_del, hnone, ite_self]
  srem S ms s h := by
    refine ⟨h.strings, fun S' k hk => h.listed S' k (mem_sets_srem.mp hk).1, h.fields⟩
  hdel name fields s h := by
    refine ⟨h.strings, h.listed, fun name' f hf => h.fields name' f fun hnone => hf ?_⟩
    rw [lookup_hdel, hnone, ite_self]

theorem mset (h : Classified s) {kvs : List (String × T)} (hkvs : ∀ kv ∈ kvs, StringName kv.1) :
    Classified (apply (.mset kvs) s) := by
  refine ⟨fun k hk => ?_, h.listed, h.fields⟩
  by_cases hmem : k ∈ kvs.map Prod.fst
  · obtain ⟨kv, hkv, rfl⟩ := List.mem_map.mp hmem
    exact hkvs kv hkv
  · refine h.strings k fun hnone => hk ?_
    rw [strings_mset, lastOf_eq_none_iff.mpr hmem, hnone]
    rfl

end Classified

/-! ## The programs of the service -/

theorem confines_setAll_named {kvs : List (String × Item)} {ok : Entity → Prop}
    (hkvs : ∀ kv ∈ kvs, Writes ok kv) :
    Confines exec (cells T) Classified named (setAll J orders kvs) fun _ => True := by
  have hentity : ∀ kv ∈ kvs, ∃ e : Entity, e.key = kv.1 ∧ newKey kv.1 = e.stored := by
    intro kv hkv
    obtain ⟨e, -, hkey, -⟩ := hkvs kv hkv
    exact ⟨e, hkey, hkey ▸ newKey_key e⟩
  refine confines_setAll (fun kv hkv => ?_) (fun kv hkv S k hm => ?_)
    (fun s hs => hs.mset fun kv hkv => ?_) fun S ms s hms hs => ?_
  · obtain ⟨e, -, hnew⟩ := hentity kv hkv
    exact hnew ▸ StringName.stored e
  · obtain ⟨e, hkey, -⟩ := hentity kv hkv
    exact setName_of_mem_setMembers (hkey ▸ hm)
  · obtain ⟨kv', hkv', rfl⟩ := List.mem_map.mp hkv
    obtain ⟨e, -, hnew⟩ := hentity kv' hkv'
    exact hnew ▸ StringName.stored e
  · refine ⟨hs.strings, fun S' k hk => ?_, hs.fields⟩
    rcases mem_sets_sadd.mp hk with hold | ⟨rfl, hadded⟩
    · exact hs.listed S' k hold
    · obtain ⟨kv, hkv, hm⟩ := hms k hadded
      obtain ⟨e, hkey, hnew⟩ := hentity kv hkv
      exact ⟨e, (eq_newKey_of_mem_setMembers hm).trans hnew, hkey ▸ hm⟩

/-- What an event works on, as far as names are concerned. -/
def nameScope : Scope where
  entity _ := True
  index _ := True
  listed _ key := ∃ e : Entity, key = e.stored

theorem StringName.of_reads {key : String} (h : nameScope.Reads key) : StringName key := by
  rcases h with ⟨e, -, rfl⟩ | ⟨g, -, e, rfl⟩
  · exact .key e
  · exact .stored e

theorem confines_delAll_named {keys : List String}
    (hkeys : ∀ key ∈ keys, ∃ e : Entity, key = e.key) :
    Confines exec (cells T) Classified named (delAll orders keys) fun _ => True := by
  refine confines_delAll Classified.shrinks (fun key hkey => ?_) fun key hkey S k hm => ?_
  all_goals obtain ⟨e, rfl⟩ := hkeys key hkey
  · exact newKey_key e ▸ StringName.stored e
  · exact setName_of_mem_setMembers hm

theorem closed_named :
    Closed (fun x Q => Confines exec (cells T) Classified named x Q) J cfg env nameScope where
  toLogic := Confines.logic _ _ _ _
  get key hkey := by
    refine confines_redis ?_ (fun _ hs => hs) fun _ _ => trivial
    rintro l rfl
    exact StringName.of_reads hkey
  mget keys hkeys := by
    refine confines_redis ?_ (fun _ hs => hs) fun _ _ => trivial
    rintro l ⟨key, hkey, rfl⟩
    exact StringName.of_reads (hkeys key hkey)
  members g _ := by
    refine (Confines.logic _ _ _ _).bind (Q := fun keys => ∀ key ∈ keys, ∃ e : Entity, key = e.stored)
      (confines_redis ?_ (fun _ hs => hs) fun s hs key hkey => ?_) fun keys hkeys =>
        (Confines.logic _ _ _ _).pure fun key hkey => hkeys key ((env.orders.mem_listing _ _).mp hkey)
    · rintro l ⟨k, rfl⟩
      exact .inr (.inl ⟨g, rfl⟩)
    · obtain ⟨e, he, -⟩ := hs.listed _ key hkey
      exact ⟨e, he⟩
  set kvs hkvs := confines_setAll_named fun kv hkv => (hkvs kv hkv).1
  setExpire kvs exps hkvs hexps := by
    refine (Confines.logic _ _ _ _).andThen (confines_setAll_named hkvs) fun _ =>
      confines_expireAll (fun _ _ => rfl) fun fields s hfields hs => ?_
    refine ⟨hs.strings, hs.listed, fun h f hf => ?_⟩
    rw [lookup_hset] at hf
    split_ifs at hf with hh
    · by_cases hmem : f ∈ fields.map Prod.fst
      · -- a field that is written is the key of an entity that expires
        obtain ⟨field, hfield, rfl⟩ := List.mem_map.mp hmem
        obtain ⟨x, hx, hname⟩ := hfields field hfield
        obtain ⟨kv, hkv, hkey⟩ := List.mem_map.mp (hexps.written x hx)
        obtain ⟨e, -, he, -⟩ := hkvs kv hkv
        have hek : e.key = field.1 := he.trans (hkey.trans hname.symm)
        have hkind := hexps.kind x hx
        rw [← hname, ← hek, kindOf_key] at hkind
        have hexpirable := Entity.expirable_of_kind hkind
        exact ⟨hh, e, hexpirable, by rw [Entity.stored_of_expirable hexpirable, hek]⟩
      · rw [lastOf_eq_none_iff.mpr hmem] at hf
        exact hs.fields h f hf
    · exact hs.fields h f hf
  del keys hkeys := confines_delAll_named fun key hkey => by
    obtain ⟨e, -, rfl⟩ := hkeys key hkey
    exact ⟨e, rfl⟩

/-- Whatever a process does, it uses names for their type. -/
theorem bounded_named : Bounded (Classified (T := T)) named J where
  empty := .empty
  get key hkey := by
    refine confines_redis ?_ (fun _ hs => hs) fun _ _ => trivial
    rintro l rfl
    exact .inr hkey
  set key hkey t := by
    have hname : ∀ kv ∈ [(key, t)], StringName kv.1 := by
      intro kv hkv
      obtain rfl := List.mem_singleton.mp hkv
      exact .inr hkey
    refine confines_redis ?_ (fun _ hs => hs.mset hname) fun _ _ => trivial
    rintro l ⟨kv, hkv, rfl⟩
    exact hname kv hkv
  update cfg botId env event := by
    have hadmits : Scope.Admits cfg botId nameScope event := ⟨fun _ _ _ => trivial, fun _ _ => trivial⟩
    refine (closed_named.update_of_drop hadmits fun g _ keys hkeys => ?_).confined
    refine confines_delAll_named fun key hkey => ?_
    obtain ⟨e, rfl⟩ := hkeys key hkey
    exact exists_key_eq_stored e
  sweep env := by
    refine sweep_confined Classified.shrinks (fun _ => rfl) fun s hs f hf => ?_
    obtain ⟨-, e, hexpirable, rfl⟩ := hs.fields _ f hf
    rw [Entity.stored_of_expirable hexpirable, newKey_key]
    exact ⟨StringName.stored e, fun S k hm => setName_of_mem_setMembers hm⟩

/-- The counting of the state gauges uses names of indexes. -/
theorem getStateStats_named :
    Confines exec (cells T) Classified named (getStateStats : Api T StateStats) fun _ => True := by
  have hl := Confines.logic (ε := Failure) exec (cells T) Classified named
  have hlen : ∀ kind ∈ KINDS, Confines exec (cells T) Classified named
      (getMembersLen (kind ++ KEYS_SUFFIX)) fun _ => True := by
    intro kind hkind
    refine confines_redis ?_ (fun _ hs => hs) fun _ _ => trivial
    rintro l ⟨m, rfl⟩
    exact .inl ⟨kind, hkind, rfl⟩
  unfold getStateStats
  exact hl.andThen (hlen _ (by decide)) fun _ => hl.andThen (hlen _ (by decide)) fun _ =>
    hl.andThen (hlen _ (by decide)) fun _ => hl.andThen (hlen _ (by decide)) fun _ =>
    hl.andThen (hlen _ (by decide)) fun _ => hl.andThen (hlen _ (by decide)) fun _ =>
    hl.andThen (hlen _ (by decide)) fun _ => hl.andThen (hlen _ (by decide)) fun _ =>
    hl.pure trivial

/-- A command that uses names for their type meets no key of another type. -/
theorem not_mistyped_of_local [Nonempty T] {c : Cmd T} (hs : Classified s)
    (hc : Local exec (cells T) named c) : ¬ Mistyped c s :=
  typed_named.not_mistyped (footprint_subset hc) hs.mem_named

theorem World.Bounded.not_mistyped {w w' : World T V} {move : Move} {c : Cmd T}
    (h : w.Bounded Classified named J P) (hstep : w.step J P move = some w')
    (hc : w.issued move = some c) : ¬ Mistyped c w.store := by
  have : Nonempty T := ⟨J.text (.shardsTotal 0)⟩
  exact not_mistyped_of_local h.store (h.local (World.moves_of_step hstep) hc)

/-- A command that uses names for their type writes string keys only. -/
theorem stringName_of_written {c : Cmd T} (hc : Local exec (cells T) named c)
    (hk : k ∈ writtenKeys c) : StringName k := by
  cases c with
  | mset items =>
    obtain ⟨item, hitem, rfl⟩ := List.mem_map.mp hk
    have : Nonempty T := ⟨item.2⟩
    exact footprint_subset hc ⟨item, hitem, rfl⟩
  | _ => cases hk

/-! ## A server with one keyspace -/

variable (J P) in
/-- Processes run with a server, which answers every command as they take it. -/
inductive World.Served : World T V → Keyspace T → Prop
  | init : Served .init .empty
  | silent {w w' σ move} (h : Served w σ) (hstep : w.step J P move = some w')
      (hissued : w.issued move = none) : Served w' σ
  | command {w w' σ σ' move c} (h : Served w σ) (hstep : w.step J P move = some w')
      (hissued : w.issued move = some c) (hserve : serve c σ = (.ok (reply c w.store), σ')) :
      Served w' σ'

namespace World.Served

variable {w w' : World T V} {σ : Keyspace T}

theorem reached (h : w.Served J P σ) : World.Reached J P (fun _ _ => True) w := by
  induction h with
  | init => exact .init
  | silent _ hstep _ ih => exact .step ih trivial hstep
  | command _ hstep _ _ ih => exact .step ih trivial hstep

/-- The server answers the command of a step as on the store. -/
theorem serve_eq (h : w.Served J P σ) (hview : σ.view = w.store) {move : Move} {c : Cmd T}
    (hstep : w.step J P move = some w') (hissued : w.issued move = some c) :
    ∃ σ', serve c σ = (.ok (reply c w.store), σ') ∧ σ'.view = w'.store := by
  have hbounded : w.Bounded Classified named J P := bounded_named.reached h.reached
  have hc : ¬ Mistyped c σ.view := hview ▸ hbounded.not_mistyped hstep hissued
  have hstore := (World.moves_of_step hstep).store_eq
  rw [hissued, Option.elim_some, ← hview] at hstore
  rw [← hview, hstore]
  exact serve_refines hc

/-- The store that processes work on is the view of what the server holds. -/
theorem view_eq (h : w.Served J P σ) : σ.view = w.store := by
  induction h with
  | init => rfl
  | silent h hstep hissued ih =>
    have hstore := (World.moves_of_step hstep).store_eq
    rw [hissued, Option.elim_none] at hstore
    exact ih.trans hstore.symm
  | command h hstep hissued hserve ih =>
    obtain ⟨σ', hserve', hview⟩ := h.serve_eq ih hstep hissued
    obtain rfl := (Prod.mk.inj (hserve.symm.trans hserve')).2
    exact hview

/-- The server holds up no step. -/
theorem step (h : w.Served J P σ) {move : Move} (hstep : w.step J P move = some w') :
    ∃ σ', w'.Served J P σ' := by
  rcases hissued : w.issued move with _ | c
  · exact ⟨σ, .silent h hstep hissued⟩
  · obtain ⟨σ', hserve, -⟩ := h.serve_eq h.view_eq hstep hissued
    exact ⟨σ', .command h hstep hissued hserve⟩

/-- Every run of processes is one with a server. -/
theorem of_reached (h : World.Reached J P (fun _ _ => True) w) : ∃ σ, w.Served J P σ := by
  induction h with
  | init => exact ⟨_, .init⟩
  | step _ _ hstep ih =>
    obtain ⟨σ, hσ⟩ := ih
    exact hσ.step hstep

end World.Served

/-! ## Keys -/

/-- **Keys are unambiguous.** Two objects have one stored key only if they have the same kind and the
same identifying numbers, and a stored key splits into these. Whatever processes have run: what the
indexes and the expiry hash list are stored keys, which the cache reads correctly, and every command
writes string keys that are no names of indexes or of the expiry hash, and meets no key that holds a
value of another type. -/
theorem keys_unambiguous (J : Json T V) (P : PayloadJson V) :
    (∀ e e' : Entity, e.stored = e'.stored ↔ e.kind = e'.kind ∧ e.ids = e'.ids) ∧
    (∀ e : Entity, split e.stored = e.kind :: e.ids.map toString ∧ ReadsAs e.stored e) ∧
    ∀ w : World T V, World.Reached J P (fun _ _ => True) w →
      (∀ S k, k ∈ w.store.sets S → SetName S ∧
        ∃ e : Entity, k = e.stored ∧ (S, k) ∈ setMembers e.key ∧ ReadsAs k e) ∧
      (∀ h f, (w.store.hashes h).lookup f ≠ none → h = EXPIRY_KEYS ∧
        ∃ e : Entity, e.expirable = true ∧ f = e.stored ∧ ReadsAs f e) ∧
      (∀ move w' c, w.step J P move = some w' → w.issued move = some c →
        w'.store = apply c w.store ∧
        (∀ k ∈ writtenKeys c, k ≠ EXPIRY_KEYS ∧
          ∀ name, k ≠ kindKeys name ∧ k ≠ guildKeys name ∧ k ≠ channelKeys name) ∧
        ¬ Mistyped c w.store) ∧
      ∀ c ∈ Fallible.trace exec (getStateStats : Api T StateStats) w.store,
        ¬ Mistyped c w.store := by
  refine ⟨fun e e' => stored_eq_iff, fun e => ⟨split_stored e, readsAs_stored e⟩, fun w hw => ?_⟩
  have hbounded : w.Bounded Classified named J P := bounded_named.reached hw
  have hs := hbounded.store
  refine ⟨fun S k hk => ?_, fun h f hf => ?_, fun move w' c hstep hc => ?_, fun c hc => ?_⟩
  · obtain ⟨e, rfl, hm⟩ := hs.listed S k hk
    exact ⟨setName_of_mem_setMembers hm, e, rfl, hm, readsAs_stored e⟩
  · obtain ⟨hh, e, hexpirable, rfl⟩ := hs.fields h f hf
    exact ⟨hh, e, hexpirable, rfl, readsAs_stored e⟩
  · have hm := World.moves_of_step hstep
    refine ⟨?_, fun k hk => ?_, hbounded.not_mistyped hstep hc⟩
    · rw [hm.store_eq, hc, Option.elim_some]
    · have hname := stringName_of_written (hbounded.local hm hc) hk
      exact ⟨hname.ne_expiryKeys, fun name =>
        ⟨hname.ne_kindKeys name, hname.ne_guildKeys name, hname.ne_channelKeys name⟩⟩
  · have : Nonempty T := ⟨J.text (.shardsTotal 0)⟩
    exact not_mistyped_of_local hs (getStateStats_named.confined.trace_local hs c hc)

/-- A process caches a role and begins to change it. -/
def roleMoves : List Move :=
  .start ⟨0, 0, 1, 1, true, .full, .of 9⟩ .sorted :: List.replicate 5 (.main (.at (.of 0))) ++
    [.event 0 ⟨0, .roleCreate ⟨.of 1, ⟨.of 3, "{}"⟩⟩, .at (.of 0)⟩, .outgoing 0 .loop] ++
    List.replicate 3 (.outgoing 0 (.task 0)) ++
    [.event 0 ⟨0, .roleUpdate ⟨.of 1, ⟨.of 3, ""⟩⟩, .at (.of 0)⟩, .outgoing 0 .loop] ++
    List.replicate 2 (.outgoing 0 (.task 1))

/-- The command that lists the role among all roles. -/
def listsRole : Cmd Item → Bool
  | .sadd index members => index = kindKeys ROLE_KEY && members = [roleKey (.of 1) (.of 3)]
  | _ => false

/-- The key of the role is listed in an index, and the next command adds it there again. -/
theorem keys_unambiguous_role : ∃ (w w' : World Item Item) (c : Cmd Item) (e : Entity),
    roleKey (.of 1) (.of 3) ∈ w.store.sets (kindKeys ROLE_KEY) ∧
    roleKey (.of 1) (.of 3) = e.stored ∧ ReadsAs (roleKey (.of 1) (.of 3)) e ∧
    w.step Json.plain .empty (.outgoing 0 (.task 1)) = some w' ∧
    w.issued (.outgoing 0 (.task 1)) = some c ∧ listsRole c = true ∧ w'.store = apply c w.store ∧
    ¬ Mistyped c w.store := by
  have h : (World.perform Json.plain .empty (fun _ _ => True) roleMoves .init).any
      (fun w => roleKey (.of 1) (.of 3) ∈ w.store.sets (kindKeys ROLE_KEY) &&
        (w.step Json.plain .empty (.outgoing 0 (.task 1))).isSome &&
        (w.issued (.outgoing 0 (.task 1))).any listsRole) = true := by decide +kernel
  obtain ⟨w, hw, h⟩ := (Option.any_eq_true _ _).mp h
  simp only [Bool.and_eq_true, decide_eq_true_eq] at h
  obtain ⟨⟨hlisted, hstep⟩, hissued⟩ := h
  obtain ⟨w', hstep⟩ := Option.isSome_iff_exists.mp hstep
  obtain ⟨c, hissued, hc⟩ := (Option.any_eq_true _ _).mp hissued
  obtain ⟨hsets, -, hcommand, -⟩ := (keys_unambiguous Json.plain .empty).2.2 w
    (World.Reached.init.perform hw)
  obtain ⟨-, e, hkey, -, hreads⟩ := hsets _ _ hlisted
  obtain ⟨hstore, -, htyped⟩ := hcommand _ w' c hstep hissued
  exact ⟨w, w', c, e, hlisted, hkey, hreads, hstep, hissued, hc, hstore, htyped⟩

end TwilightDispatch
