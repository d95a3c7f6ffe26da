import TwilightDispatch.History

/-!
# Expiry

A member or message that is written gets a deadline, and a sweep removes what is past its
deadline. `Stamped` says that the deadline in force is that of the last write; it is kept by every
operation as long as the deadlines are representable dates.
-/

namespace TwilightDispatch

open Atomic Redis

variable {T V : Type} {J : Json T V} {cfg : Config} {botId : Id .user} {orders : Orders}
  {now : FormattedDateTime} {s : Store T} {k : String}

/-! ## Deadlines -/

/-- `now + TTL` is a representable date for both configured times to live. -/
structure Representable (cfg : Config) (now : FormattedDateTime) : Prop where
  member : now.nanos + milliseconds cfg.stateMemberTtl.toNat ≤ FormattedDateTime.max
  message : now.nanos + milliseconds cfg.stateMessageTtl.toNat ≤ FormattedDateTime.max

theorem Representable.ttlOf (h : Representable cfg now) (k : String) :
    now.nanos + milliseconds (ttlOf cfg k).toNat ≤ FormattedDateTime.max := by
  unfold TwilightDispatch.ttlOf
  split_ifs
  · exact h.message
  · exact h.member

theorem asI64_of_lt {value : UInt64} (h : value.toNat < 2 ^ 63) : asI64 value = value.toNat := by
  unfold asI64
  show value.toBitVec.toInt = _
  rw [BitVec.toInt_eq_toNat_of_lt (by simpa using by omega)]
  rfl

/-- A representable deadline is computed without wrapping. -/
theorem add_ttl {ttl : UInt64} (h : now.nanos + milliseconds ttl.toNat ≤ FormattedDateTime.max) :
    ∃ d, now.add (milliseconds (asI64 ttl)) = some d ∧
      d.nanos = now.nanos + milliseconds ttl.toNat := by
  have hmin := now.min_le
  have hlt : ttl.toNat < 2 ^ 63 := by
    unfold milliseconds FormattedDateTime.max at h
    unfold FormattedDateTime.min at hmin
    omega
  rw [asI64_of_lt hlt]
  have hpos : (0 : ℤ) ≤ milliseconds ttl.toNat := by
    unfold milliseconds
    omega
  unfold FormattedDateTime.add
  rw [dif_pos ⟨by omega, h⟩]
  exact ⟨_, rfl, rfl⟩

/-- The deadlines of the expiring pairs of a batch are written, and each is its key's own. -/
theorem exists_deadlines {ttl : String → UInt64} {exps : List (String × UInt64)}
    (h : ∀ e ∈ exps, now.nanos + milliseconds (ttl e.1).toNat ≤ FormattedDateTime.max)
    (httl : ∀ e ∈ exps, e.2 = ttl e.1) :
    ∃ fields, deadlines J now exps = some fields ∧
      (∀ k, lastOf fields k ≠ none ↔ k ∈ exps.map Prod.fst) ∧
      ∀ k t, lastOf fields k = some t → ∃ d : FormattedDateTime,
        d.nanos = now.nanos + milliseconds (ttl k).toNat ∧ t = J.text (.timestamp d) := by
  induction exps with
  | nil => exact ⟨[], rfl, by simp, nofun⟩
  | cons e exps ih =>
    obtain ⟨fields, hfields, hmem, hval⟩ := ih (fun e he => h e (List.mem_cons_of_mem _ he))
      fun e he => httl e (List.mem_cons_of_mem _ he)
    have he := httl e List.mem_cons_self
    obtain ⟨d, hadd, hd⟩ := add_ttl (he ▸ h e List.mem_cons_self)
    refine ⟨(e.1, J.text (.timestamp d)) :: fields, ?_, fun k => ?_, fun k t ht => ?_⟩
    · rw [deadlines_cons, hadd, hfields]
      rfl
    · rw [lastOf_cons, ne_eq, Option.or_eq_none_iff, not_and_or, ← ne_eq, hmem, List.map_cons,
        List.mem_cons, or_comm]
      simp [eq_comm]
    · rw [lastOf_cons, Option.or_eq_some_iff] at ht
      rcases ht with ht | ⟨-, ht⟩
      · exact hval k t ht
      · split_ifs at ht with hk
        obtain rfl := Option.some.inj ht
        exact ⟨d, by rw [hd, he, hk], rfl⟩

theorem trace_mapM_deadlineField (keys : List (String × UInt64)) :
    Fallible.trace exec (keys.mapM (deadlineField J now) : Api T _) s = [] := by
  induction keys generalizing s with
  | nil => rfl
  | cons kv keys ih =>
    rw [List.mapM_cons, Fallible.trace_bind, run_deadlineField]
    have hfield : Fallible.trace exec (deadlineField J now kv : Api T _) s = [] := by
      unfold deadlineField
      cases now.add (milliseconds (asI64 kv.2)) <;> rfl
    rw [hfield]
    cases now.add (milliseconds (asI64 kv.2)) with
    | none => rfl
    | some timestamp =>
      simp only [List.nil_append]
      rw [Fallible.trace_bind, ih, run_mapM_deadlineField]
      cases deadlines J now keys <;> rfl

/-- Writing deadlines writes no string. -/
theorem lastWrite_expireAll {log : List (FormattedDateTime × Cmd T)} (t : FormattedDateTime)
    (exps : List (String × UInt64)) :
    lastWrite (log ++ (Fallible.trace exec (expireAll J now exps) s).map (t, ·)) =
      lastWrite log := by
  rw [lastWrite_append, foldl_note_of_quiet]
  unfold expireAll
  rw [Fallible.trace_bind, trace_mapM_deadlineField, run_mapM_deadlineField]
  intro c
  cases deadlines J now exps with
  | none => exact nofun
  | some fields =>
    cases fields with
    | nil => exact nofun
    | cons field fields =>
      intro hc
      obtain rfl := List.mem_singleton.mp hc
      trivial

/-! ## The deadline of the last write is in force -/

theorem kindOf_of_expires (h : Expires cfg k) : kindOf k ≠ CHANNEL_KEY := by
  intro hk
  unfold Expires at h
  rw [hk] at h
  rcases h with h | ⟨h, -⟩ <;> exact absurd h (by decide)

@[simp] theorem expires_newKey : Expires cfg (newKey k) ↔ Expires cfg k := by
  unfold Expires
  rw [kindOf_newKey]

/-- The deadline in force for a cached key that expires is that of its last write. -/
def Stamped (J : Json T V) (cfg : Config) (l : Ledger T) : Prop :=
  ∀ k, Expires cfg k → l.1.Has k → ∃ (t : FormattedDateTime) (text : T) (d : FormattedDateTime),
    lastWrite l.2 k = some (t, text) ∧
    d.nanos = t.nanos + milliseconds (ttlOf cfg k).toNat ∧
    (l.1.hashes EXPIRY_KEYS).lookup k = some (J.text (.timestamp d))

/-- A program that removes keys, issues no write and moves no deadline of what it leaves keeps
the deadlines in force. -/
theorem Stamped.of_removal {l l' : Ledger T} (hl : Stamped J cfg l)
    (hhas : ∀ k, l'.1.Has k → l.1.Has k)
    (hlast : ∀ k, l'.1.Has k → lastWrite l'.2 k = lastWrite l.2 k)
    (hfield : ∀ k, Expires cfg k → l'.1.Has k →
      (l'.1.hashes EXPIRY_KEYS).lookup k = (l.1.hashes EXPIRY_KEYS).lookup k) :
    Stamped J cfg l' := by
  intro k hx hk
  rw [hlast k hk, hfield k hx hk]
  exact hl k hx (hhas k hk)

theorem Stamped.delAll (keys : List String) :
    Keeps (recorded exec now) (Stamped J cfg) (TwilightDispatch.delAll orders keys)
      fun _ => True := by
  refine .of_run ?_
  rintro ⟨s, log⟩ hl
  rw [Fallible.run_recorded, run_delAll]
  refine hl.of_removal (fun k hk => (has_dropAll.mp hk).1) (fun k hk => ?_) fun k _ _ => rfl
  refine (lastWrite_delAll keys k).trans (if_neg ?_)
  rw [List.mem_map]
  exact (has_dropAll.mp hk).2

/-- A batch with its deadlines stamps what it writes. -/
theorem Stamped.setExpire {ok : Entity → Prop} {env : Env}
    (hrep : Representable cfg env.now) {kvs : List (String × Item)}
    {exps : List (String × UInt64)} (hkvs : ∀ kv ∈ kvs, Writes ok kv)
    (hexps : Refreshes cfg kvs exps) :
    Keeps (recorded exec env.now) (Stamped J cfg)
      (setAll J env.orders kvs >>= fun _ => expireAll J env.now exps) fun _ => True := by
  refine .of_run ?_
  rintro ⟨s, log⟩ hl
  obtain ⟨fields, hfields, hmem, hval⟩ := exists_deadlines (J := J) (fun e _ => hrep.ttlOf e.1)
    hexps.ttl
  have hrun : Fallible.run exec (setAll J env.orders kvs >>= fun _ => expireAll J env.now exps) s =
      (.ok (), apply (.hset EXPIRY_KEYS fields) (putAll J kvs s)) := by
    rw [Fallible.run_bind_ok (run_setAll kvs), run_expireAll, hfields]
  have htrace := Fallible.trace_bind_ok (f := fun _ => expireAll J env.now exps)
    (show Fallible.run exec (setAll J env.orders kvs) s = _ from run_setAll kvs)
  rw [Fallible.run_recorded, hrun, htrace, List.map_append, ← List.append_assoc]
  intro k hx hk
  show ∃ t text d, lastWrite (_ ++ _) k = _ ∧ _ ∧ _
  rw [lastWrite_expireAll, lastWrite_setAll, lookup_hset, if_pos rfl, hashes_putAll]
  have hnew : ∀ kv ∈ kvs, newKey kv.1 = k → kv.1 = k := by
    rintro kv hkv rfl
    obtain ⟨e, -, hkey, -⟩ := hkvs kv hkv
    have hkind := kindOf_of_expires hx
    rw [kindOf_newKey] at hkind
    exact (newKey_eq_of_kind_ne hkind).symm
  by_cases hw : k ∈ kvs.map Prod.fst
  · -- written by the batch: stamped now, with the deadline the batch writes
    obtain ⟨kv, hkv, rfl⟩ := List.mem_map.mp hw
    have hstored : kv.1 ∈ (storedPairs J kvs).map Prod.fst := by
      refine List.mem_map.mpr ⟨(newKey kv.1, J.text kv.2), List.mem_map_of_mem hkv, ?_⟩
      exact newKey_eq_of_kind_ne (kindOf_of_expires hx)
    obtain ⟨text, htext⟩ := exists_lastOf hstored
    have hexp : kv.1 ∈ exps.map Prod.fst := List.mem_map_of_mem (hexps.covers kv hkv hx)
    obtain ⟨t, ht⟩ := Option.ne_none_iff_exists'.mp ((hmem kv.1).mpr hexp)
    obtain ⟨d, hd, rfl⟩ := hval kv.1 t ht
    exact ⟨env.now, text, d, by rw [htext]; rfl, hd, by rw [ht]; rfl⟩
  · -- not written by the batch: neither stamped nor given a deadline
    have hstored : lastOf (storedPairs J kvs) k = none := by
      rw [lastOf_eq_none_iff, storedPairs, List.map_map]
      rintro hm
      obtain ⟨kv, hkv, hkk⟩ := List.mem_map.mp hm
      exact hw (hnew kv hkv hkk ▸ List.mem_map_of_mem hkv)
    have hfield : lastOf fields k = none := by
      rw [← not_not (a := lastOf fields k = none), ← ne_eq, hmem]
      rintro hm
      obtain ⟨e, he, rfl⟩ := List.mem_map.mp hm
      exact hw (hexps.written e he)
    have hold : s.Has k := by
      rcases has_putAll.mp hk with hk | ⟨kv, hkv, hkk⟩
      · exact hk
      · exact absurd (hnew kv hkv hkk ▸ List.mem_map_of_mem hkv) hw
    rw [hstored, hfield]
    exact hl k hx hold

/-- A batch whose keys do not expire stamps nothing. -/
theorem Stamped.set {kvs : List (String × Item)} (hkvs : ∀ kv ∈ kvs, ¬ Expires cfg kv.1) :
    Keeps (recorded exec now) (Stamped J cfg) (setAll J orders kvs) fun _ => True := by
  refine .of_run ?_
  rintro ⟨s, log⟩ hl
  rw [Fallible.run_recorded, run_setAll]
  intro k hx hk
  have hne : ¬ ∃ kv ∈ kvs, newKey kv.1 = k := by
    rintro ⟨kv, hkv, rfl⟩
    exact hkvs kv hkv (expires_newKey.mp hx)
  have hstored : lastOf (storedPairs J kvs) k = none := by
    rw [lastOf_eq_none_iff, storedPairs, List.map_map]
    rintro hm
    obtain ⟨kv, hkv, hkk⟩ := List.mem_map.mp hm
    exact hne ⟨kv, hkv, hkk⟩
  rw [lastWrite_setAll, hstored]
  exact hl k hx ((has_putAll.mp hk).resolve_right hne)

theorem Stamped.read (c : Cmd T) (hc : IsRead c) :
    Keeps (recorded exec now) (Stamped J cfg) (redis c) fun _ => True := by
  refine .of_run ?_
  rintro ⟨s, log⟩ hl
  rw [Fallible.run_recorded]
  have hquiet : lastWrite (log ++ [(now, c)]) = lastWrite log := by
    refine (lastWrite_append log now [c]).trans (foldl_note_of_quiet ?_ _)
    intro c' hc'
    obtain rfl := List.mem_singleton.mp hc'
    cases c' with
    | get | mget | smembers | scard | hgetall => trivial
    | _ => exact hc.elim
  have hsame : apply c s = s := by
    cases c with
    | get | mget | smembers | scard | hgetall => rfl
    | _ => exact hc.elim
  have hrun : (Fallible.run exec (redis c) s).2 = s := hsame
  intro k hx hk
  rw [hrun] at hk ⊢
  show ∃ t text d, lastWrite (log ++ [(now, c)]) k = _ ∧ _ ∧ _
  rw [hquiet]
  exact hl k hx hk

theorem Stamped.closed {ok : Entity → Prop} {env : Env} (hrep : Representable cfg env.now) :
    Closed (fun x Q => Keeps (recorded exec env.now) (Stamped (T := T) J cfg) x Q) J cfg env
      (.any ok) :=
  .of_keeps Stamped.read (fun _ hkvs => Stamped.set fun kv hkv => (hkvs kv hkv).2)
    (fun _ _ hkvs hexps => Stamped.setExpire hrep hkvs hexps) fun keys _ => Stamped.delAll keys

theorem trace_sweep (env : Env) : (sweep J env).trace exec s = .hgetall EXPIRY_KEYS ::
    (Fallible.trace exec (TwilightDispatch.delAll env.orders (expired J env s)) s ++
      Fallible.trace exec (delHashmap EXPIRY_KEYS (expired J env s)) (dropAll (expired J env s) s)) := by
  have hdel : (ExceptT.run (TwilightDispatch.delAll env.orders (expired J env s))).run exec s =
      (.ok (), dropAll (expired J env s) s) := run_delAll _
  have hbody : (deleteExpired env.orders (expired J env s)).trace exec s =
      Fallible.trace exec (TwilightDispatch.delAll env.orders (expired J env s)) s ++
        Fallible.trace exec (delHashmap EXPIRY_KEYS (expired J env s))
          (dropAll (expired J env s) s) := by
    unfold deleteExpired
    rw [Prog.trace_bind, hdel]
    simp only
    rw [Prog.trace_bind]
    exact congrArg _ (List.append_nil _)
  exact congrArg (_ :: ·) hbody

/-- A sweep removes the expired keys from the record of the last writes. -/
theorem lastWrite_sweep {log : List (FormattedDateTime × Cmd T)} (env : Env) :
    lastWrite (log ++ ((sweep J env).trace exec s).map (now, ·)) k =
      if k ∈ (expired J env s).map newKey then none else lastWrite log k := by
  have hhead : lastWrite (log ++ [(now, .hgetall EXPIRY_KEYS)]) = lastWrite log :=
    lastWrite_append log now [.hgetall EXPIRY_KEYS]
  have htail : ∀ c ∈ Fallible.trace exec (delHashmap EXPIRY_KEYS (expired J env s))
      (dropAll (expired J env s) s), Quiet c := by
    unfold delHashmap
    split_ifs
    · exact nofun
    · intro c hc
      obtain rfl := List.mem_singleton.mp hc
      trivial
  rw [trace_sweep, List.map_cons, List.map_append, ← List.singleton_append, ← List.append_assoc,
    ← List.append_assoc, lastWrite_append, foldl_note_of_quiet htail, lastWrite_delAll, hhead]

/-- A sweep takes the deadlines of what it removes. -/
theorem Stamped.sweep {env : Env} {l : Ledger T} (hl : Stamped J cfg l) :
    Stamped J cfg ((TwilightDispatch.sweep J env).run (recorded exec now) l).2 := by
  obtain ⟨s, log⟩ := l
  rw [Prog.run_recorded, run_sweep]
  refine hl.of_removal (fun k hk => (has_dropAll.mp hk).1) (fun k hk => ?_) fun k hx hk => ?_
  · rw [lastWrite_sweep, if_neg]
    rw [List.mem_map]
    exact (has_dropAll.mp hk).2
  · rw [lookup_hdel, if_neg, hashes_dropAll]
    rintro ⟨-, hk'⟩
    exact (has_dropAll.mp hk).2 ⟨k, hk', newKey_eq_of_kind_ne (kindOf_of_expires hx)⟩

theorem Stamped.record {l : Ledger T} (hl : Stamped J cfg l) {step : Step}
    (hrep : Representable cfg step.env.now) : Stamped J cfg (step.record J cfg botId l) := by
  rcases step with ⟨env, event | _⟩
  · have hclosed : Closed (fun x Q => Keeps (recorded exec env.now) (Stamped J cfg) x Q) J cfg env
        (.any fun _ => True) := Stamped.closed hrep
    have hup : Keeps (recorded exec env.now) (Stamped J cfg) (update J cfg botId env event)
        fun _ => True := hclosed.update_of_drop (Scope.any_covers fun _ _ => trivial).admits
      fun _ _ keys _ => Stamped.delAll keys
    unfold Step.record Step.prog
    rw [Prog.run_bind]
    exact (hup l hl).1
  · exact hl.sweep

theorem Stamped.ledgerAfter {steps : List Step}
    (hrep : ∀ step ∈ steps, Representable cfg step.env.now) :
    Stamped J cfg (ledgerAfter J cfg botId steps) := by
  induction steps using List.reverseRecOn with
  | nil => exact fun k _ hk => (Store.not_has_empty k hk).elim
  | append_singleton steps step ih =>
    rw [ledgerAfter_append]
    exact (ih fun step hstep => hrep step (List.mem_append_left _ hstep)).record
      (hrep step (by simp))

/-! ## A sweep removes what is past its deadline -/

/-- The key has a deadline, and it lies before `now`. -/
def Due (J : Json T V) (now : FormattedDateTime) (s : Store T) (k : String) : Prop :=
  ∃ d : FormattedDateTime, d.nanos < now.nanos ∧
    (s.hashes EXPIRY_KEYS).lookup k = some (J.text (.timestamp d))

theorem mem_expired_iff_due (hJ : J.Lawful) (hs : Deadlined J s) {env : Env} :
    k ∈ expired J env s ↔ Due J env.now s k := by
  rw [mem_expired]
  constructor
  · rintro ⟨t, d, ht, hd, hlt⟩
    obtain ⟨-, d', -, -, rfl⟩ := hs k t ht
    rw [hJ.timestamp] at hd
    obtain rfl := Except.ok.inj hd
    exact ⟨d', hlt, ht⟩
  · rintro ⟨d, hlt, ht⟩
    exact ⟨_, d, ht, hJ.timestamp d, hlt⟩

theorem Deadlined.newKey_eq (hs : Deadlined J s) {now : FormattedDateTime} (hk : Due J now s k) :
    newKey k = k := by
  obtain ⟨d, -, hd⟩ := hk
  obtain ⟨e, -, -, rfl, -⟩ := hs k _ hd
  exact newKey_stored e

theorem Deadlined.kindOf_ne (hs : Deadlined J s) {now : FormattedDateTime} (hk : Due J now s k) :
    kindOf k ≠ CHANNEL_KEY := by
  obtain ⟨d, -, hd⟩ := hk
  obtain ⟨e, -, he, rfl, -⟩ := hs k _ hd
  rw [kindOf_stored]
  cases e with
  | message c m => exact (show MESSAGE_KEY ≠ CHANNEL_KEY by decide)
  | member g u => exact (show MEMBER_KEY ≠ CHANNEL_KEY by decide)
  | _ => cases he

/-- A sweep removes the values that are past their deadline, and no other. -/
theorem Deadlined.strings_sweep (hs : Deadlined J s) (hJ : J.Lawful) (env : Env) (k : String) :
    (Due J env.now s k → (Step.next J cfg botId s ⟨env, .sweep⟩).strings k = none) ∧
      (¬ Due J env.now s k →
        (Step.next J cfg botId s ⟨env, .sweep⟩).strings k = s.strings k) := by
  have hdue : ∀ k, k ∈ expired J env s ↔ Due J env.now s k := fun k => mem_expired_iff_due hJ hs
  rw [Step.next_sweep, strings_hdel, strings_dropAll]
  constructor
  · intro hk
    exact if_pos (List.mem_map.mpr ⟨k, (hdue k).mpr hk, hs.newKey_eq hk⟩)
  · intro hk
    refine if_neg fun hmem => ?_
    obtain ⟨key, hkey, rfl⟩ := List.mem_map.mp hmem
    rw [hs.newKey_eq ((hdue key).mp hkey)] at hk
    exact hk ((hdue key).mp hkey)

/-- **Expiry over whole runs.** After every run whose deadlines are representable dates, every
cached message, and every cached member if members are cached, has the time of its last write plus
its time to live as its deadline; and a sweep removes exactly the keys past their deadline, from
the string map, every index and the expiry hash. -/
theorem expiry_exact {J : Json T V} (hJ : J.Lawful) {cfg : Config} (botId : Id .user)
    {steps : List Step} (hrep : ∀ step ∈ steps, Representable cfg step.env.now) (env : Env) :
    let l := ledgerAfter J cfg botId steps
    let s := l.1
    let s' := Step.next J cfg botId s ⟨env, .sweep⟩
    (∀ c m, s.Has (messageKey c m) → ∃ (t : FormattedDateTime) (text : T) (d : FormattedDateTime),
      lastWrite l.2 (messageKey c m) = some (t, text) ∧
      d.nanos = t.nanos + milliseconds cfg.stateMessageTtl.toNat ∧
      (s.hashes EXPIRY_KEYS).lookup (messageKey c m) = some (J.text (.timestamp d))) ∧
    (cfg.stateMember = true → ∀ g u, s.Has (memberKey g u) →
      ∃ (t : FormattedDateTime) (text : T) (d : FormattedDateTime),
        lastWrite l.2 (memberKey g u) = some (t, text) ∧
        d.nanos = t.nanos + milliseconds cfg.stateMemberTtl.toNat ∧
        (s.hashes EXPIRY_KEYS).lookup (memberKey g u) = some (J.text (.timestamp d))) ∧
    (∀ k, Due J env.now s k → s'.strings k = none ∧ (∀ S, k ∉ s'.sets S) ∧
      (s'.hashes EXPIRY_KEYS).lookup k = none) ∧
    ∀ k, ¬ Due J env.now s k → s'.strings k = s.strings k ∧ (∀ S, k ∈ s'.sets S ↔ k ∈ s.sets S) ∧
      (s'.hashes EXPIRY_KEYS).lookup k = (s.hashes EXPIRY_KEYS).lookup k := by
  intro l s s'
  have hstamped : Stamped J cfg l := Stamped.ledgerAfter hrep
  have hs : s = stateAfter J cfg botId steps := ledgerAfter_fst steps
  have hindexed : Indexed s := by
    rw [hs]
    exact (Indexed.stable (J := J) _).stateAfter .empty fun step _ => step.ok_true
  have hdead : Deadlined J s := by
    rw [hs]
    exact Deadlined.stateAfter steps
  have hs' : s' = apply (.hdel EXPIRY_KEYS (expired J env s)) (dropAll (expired J env s) s) :=
    Step.next_sweep s
  have hdue : ∀ k, k ∈ expired J env s ↔ Due J env.now s k := fun k => mem_expired_iff_due hJ hdead
  refine ⟨fun c m hk => ?_, fun hm g u hk => ?_, fun k hk => ?_, fun k hk => ?_⟩
  · obtain ⟨t, text, d, hlast, hd, hfield⟩ :=
      hstamped (messageKey c m) (Or.inl (kindOf_key (.message c m))) hk
    rw [ttlOf_messageKey] at hd
    exact ⟨t, text, d, hlast, hd, hfield⟩
  · obtain ⟨t, text, d, hlast, hd, hfield⟩ :=
      hstamped (memberKey g u) (Or.inr ⟨kindOf_key (.member g u), hm⟩) hk
    rw [ttlOf_memberKey] at hd
    exact ⟨t, text, d, hlast, hd, hfield⟩
  · have hmem := (hdue k).mpr hk
    refine ⟨(hdead.strings_sweep hJ env k).1 hk, fun S hS => ?_, ?_⟩
    · rw [hs', sets_hdel] at hS
      obtain ⟨hS, hn⟩ := mem_sets_dropAll.mp hS
      have hlisted := (hindexed.listed S k fun hc => absurd hc (hdead.kindOf_ne hk)).mp hS
      exact hn ⟨k, hmem, hlisted.2⟩
    · rw [hs', lookup_hdel, if_pos ⟨rfl, hmem⟩]
  · -- every removed key is its own stored key
    have hother : ∀ key ∈ expired J env s, newKey key ≠ k := by
      rintro key hkey rfl
      rw [hdead.newKey_eq ((hdue key).mp hkey)] at hk
      exact hk ((hdue key).mp hkey)
    refine ⟨(hdead.strings_sweep hJ env k).2 hk, fun S => ?_, ?_⟩
    · rw [hs', sets_hdel, mem_sets_dropAll, and_iff_left]
      rintro ⟨key, hkey, hm⟩
      exact hother key hkey (eq_newKey_of_mem_setMembers hm).symm
    · rw [hs', lookup_hdel, if_neg, hashes_dropAll]
      exact fun h => hk ((hdue k).mp h.2)

/-- A message that is created at the epoch has its deadline a second later. -/
theorem expiry_exact_message : ∃ (t : FormattedDateTime) (text : Item) (d : FormattedDateTime),
    lastWrite (ledgerAfter Json.plain .full (.of 9) [⟨.at (.of 0), .event (.messageCreate
      ⟨.of 2, .of 1, [], "", none, [], false, [], [], false, 0, false, ""⟩)⟩]).2
      (messageKey (.of 1) (.of 2)) = some (t, text) ∧ d.nanos = t.nanos + milliseconds 1000 := by
  have hrep : ∀ step ∈ [(⟨.at (.of 0), .event (.messageCreate
      ⟨.of 2, .of 1, [], "", none, [], false, [], [], false, 0, false, ""⟩)⟩ : Step)],
      Representable .full step.env.now := by
    intro step hstep
    obtain rfl := List.mem_singleton.mp hstep
    exact ⟨by decide, by decide⟩
  obtain ⟨t, text, d, hlast, hd, -⟩ :=
    (expiry_exact Json.plain_lawful (.of 9) hrep (.at (.of 0))).1 (.of 1) (.of 2)
      (Option.isSome_iff_ne_none.mp (by decide +kernel))
  exact ⟨t, text, d, hlast, hd⟩

end TwilightDispatch
