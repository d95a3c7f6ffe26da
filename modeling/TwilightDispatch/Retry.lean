import TwilightDispatch.Atomic.Failing
import TwilightDispatch.Expiry

/-!
# Sweeps that fail

A sweep deletes the expired keys, their index entries and then their deadlines, so that whatever it has
not got to is found by its deadline again. The next sweep leaves what it would have left without the
failure (`sweep_retried`).
-/

namespace TwilightDispatch

open Atomic Redis

variable {T V : Type} {J : Json T V} {env : Env} {s s₁ : Store T} {orders : Orders}
  {keys : List String}

/-! ## What a failed sweep leaves -/

/-- Of the keys, some values and some index entries may be gone. -/
structure Dropping (keys : List String) (s s₁ : Store T) : Prop where
  strings : ∀ k, s₁.strings k = s.strings k ∨ k ∈ keys.map newKey ∧ s₁.strings k = none
  sets : ∀ S m, m ∈ s₁.sets S → m ∈ s.sets S
  removed : ∀ S m, m ∈ s.sets S → m ∉ s₁.sets S → ∃ key ∈ keys, (S, m) ∈ setMembers key

theorem Dropping.refl (keys : List String) (s : Store T) : Dropping keys s s where
  strings _ := .inl rfl
  sets _ _ h := h
  removed _ _ h hn := absurd h hn

theorem Dropping.dropAll (keys : List String) (s : Store T) : Dropping keys s (dropAll keys s) where
  strings k := by
    rw [strings_dropAll]
    split_ifs with h
    · exact .inr ⟨h, rfl⟩
    · exact .inl rfl
  sets _ _ h := (mem_sets_dropAll.mp h).1
  removed S m h hn := by
    by_contra hex
    exact hn (mem_sets_dropAll.mpr ⟨h, hex⟩)

theorem Dropping.del (h : Dropping keys s s₁) :
    Dropping keys s (apply (.del (keys.map newKey)) s₁) where
  strings k := by
    rw [strings_del]
    split_ifs with hk
    · exact .inr ⟨hk, rfl⟩
    · exact h.strings k
  sets := h.sets
  removed := h.removed

theorem Dropping.srem (h : Dropping keys s s₁) {S : String} {ms : List String}
    (hms : ∀ m ∈ ms, ∃ key ∈ keys, (S, m) ∈ setMembers key) :
    Dropping keys s (apply (.srem S ms) s₁) where
  strings := h.strings
  sets S' m hm := h.sets S' m (mem_sets_srem.mp hm).1
  removed S' m hm hn := by
    by_cases hkept : m ∈ s₁.sets S'
    · have hdel : S' = S ∧ m ∈ ms := by
        by_contra hne
        exact hn (mem_sets_srem.mpr ⟨hkept, hne⟩)
      obtain ⟨rfl, hmem⟩ := hdel
      exact hms m hmem
    · exact h.removed S' m hm hkept

/-- Of the keys, some values, index entries and deadlines may be gone, and where the deadline is gone
everything is. -/
structure Swept (keys : List String) (s s₁ : Store T) : Prop extends Dropping keys s s₁ where
  hashes : ∀ h f, (s₁.hashes h).lookup f = (s.hashes h).lookup f ∨
    h = EXPIRY_KEYS ∧ f ∈ keys ∧ (s₁.hashes h).lookup f = none ∧ s₁.strings (newKey f) = none ∧
      ∀ S m, (S, m) ∈ setMembers f → m ∉ s₁.sets S

theorem mem_trace_delAll {c : Cmd T} (hc : c ∈ Fallible.trace exec (delAll orders keys) s) :
    c = .del (keys.map newKey) ∨
      ∃ S ms, c = .srem S ms ∧ ∀ m ∈ ms, ∃ key ∈ keys, (S, m) ∈ setMembers key := by
  unfold delAll at hc
  by_cases hne : keys = []
  · subst hne
    cases hc
  · simp only [List.isEmpty_map, List.isEmpty_iff, hne, if_false] at hc
    rw [Fallible.trace_bind_ok (run_redis _), trace_srem_all] at hc
    rcases List.mem_append.mp hc with hc | hc
    · exact .inl (List.mem_singleton.mp hc)
    · obtain ⟨kv, hkv, rfl⟩ := List.mem_map.mp hc
      refine .inr ⟨kv.1, kv.2, rfl, fun m hm => ?_⟩
      have hmem : (kv.1, m) ∈ keys.flatMap delMembers := exists_mem_members.mp ⟨kv.2, hkv, hm⟩
      obtain ⟨key, hkey, hm⟩ := List.mem_flatMap.mp hmem
      exact ⟨key, hkey, by rwa [← delMembers_eq]⟩

/-- What the first commands of a deletion leave. -/
theorem dropping_take (orders : Orders) (keys : List String) (s : Store T) (n : ℕ) :
    let s₁ := after exec ((Fallible.trace exec (delAll orders keys) s).take n) s
    Dropping keys s s₁ ∧ s₁.hashes = s.hashes := by
  have hkeeps : ∀ c ∈ (Fallible.trace exec (delAll orders keys) s).take n, ∀ s₁ : Store T,
      Dropping keys s s₁ ∧ s₁.hashes = s.hashes →
        Dropping keys s (exec c s₁).2 ∧ (exec c s₁).2.hashes = s.hashes := by
    intro c hc s₁ hs₁
    rcases mem_trace_delAll (List.mem_of_mem_take hc) with rfl | ⟨S, ms, rfl, hms⟩
    · exact ⟨hs₁.1.del, hs₁.2⟩
    · exact ⟨hs₁.1.srem hms, hs₁.2⟩
  exact after_keeps hkeeps ⟨.refl keys s, rfl⟩

theorem after_trace_delAll (orders : Orders) (keys : List String) (s : Store T) :
    after exec (Fallible.trace exec (delAll orders keys) s) s = dropAll keys s := by
  have hrun := Prog.run_snd_eq_foldl exec (ExceptT.run (delAll orders keys)) s
  exact hrun.symm.trans (congrArg Prod.snd (run_delAll keys))

theorem Dropping.swept (h : Dropping keys s s₁) (hhash : s₁.hashes = s.hashes) : Swept keys s s₁ where
  toDropping := h
  hashes H f := .inl (by rw [hhash])

/-- What a complete sweep leaves. -/
theorem swept_complete (keys : List String) (s : Store T) :
    Swept keys s (apply (.hdel EXPIRY_KEYS keys) (dropAll keys s)) where
  strings := (Dropping.dropAll keys s).strings
  sets := (Dropping.dropAll keys s).sets
  removed := (Dropping.dropAll keys s).removed
  hashes H f := by
    rw [lookup_hdel]
    split_ifs with h
    · obtain ⟨rfl, hf⟩ := h
      refine .inr ⟨rfl, hf, rfl, ?_, fun S m hm hmem => ?_⟩
      · rw [strings_hdel, strings_dropAll, if_pos (List.mem_map_of_mem hf)]
      · exact (mem_sets_dropAll.mp hmem).2 ⟨f, hf, hm⟩
    · exact .inl rfl

/-- What the first commands of a sweep leave. -/
theorem swept_take (env : Env) (s : Store T) (n : ℕ) :
    Swept (expired J env s) s (after exec (((sweep J env).trace exec s).take n) s) := by
  cases n with
  | zero => exact (Dropping.refl _ s).swept rfl
  | succ n =>
    rw [trace_sweep, List.take_succ_cons, after_cons, List.take_append, after_append]
    change Swept _ s (after exec _ (after exec _ s))
    set A := Fallible.trace exec (delAll env.orders (expired J env s)) s with hA
    rcases Nat.lt_or_ge n A.length with hn | hn
    -- the deletion is cut off
    · rw [Nat.sub_eq_zero_of_le hn.le, List.take_zero, after_nil]
      obtain ⟨hdrop, hhash⟩ := dropping_take env.orders (expired J env s) s n
      exact hdrop.swept hhash
    -- only the deadlines may be left
    · rw [List.take_of_length_le hn, after_trace_delAll]
      have htrace : Fallible.trace exec (delHashmap EXPIRY_KEYS (expired J env s))
          (dropAll (expired J env s) s) = [] ∨
          Fallible.trace exec (delHashmap EXPIRY_KEYS (expired J env s)) (dropAll (expired J env s) s) =
            [.hdel EXPIRY_KEYS (expired J env s)] := by
        unfold delHashmap
        split_ifs
        · exact .inl rfl
        · exact .inr rfl
      rcases htrace with htrace | htrace
      · rw [htrace, List.take_nil]
        exact (Dropping.dropAll _ s).swept rfl
      · rw [htrace]
        cases n - A.length with
        | zero => exact (Dropping.dropAll _ s).swept rfl
        | succ i =>
          rw [List.take_succ_cons, List.take_nil]
          exact swept_complete _ s

/-! ## The next sweep -/

/-- Deleting keys from what a failed sweep of some of them has left. -/
theorem Swept.drop_eq {keys' keys₁ : List String} (h : Swept keys s s₁) (hsub : keys ⊆ keys')
    (hkeys : ∀ f, f ∈ keys₁ ↔ f ∈ keys' ∧
      (s₁.hashes EXPIRY_KEYS).lookup f = (s.hashes EXPIRY_KEYS).lookup f) :
    apply (.hdel EXPIRY_KEYS keys₁) (dropAll keys₁ s₁) =
      apply (.hdel EXPIRY_KEYS keys') (dropAll keys' s) := by
  -- the deadline of a key that is not found again is gone, and with it everything else
  have hgone : ∀ f ∈ keys', f ∉ keys₁ → (s₁.hashes EXPIRY_KEYS).lookup f = none ∧
      s₁.strings (newKey f) = none ∧ ∀ S m, (S, m) ∈ setMembers f → m ∉ s₁.sets S := by
    intro f hf hn
    rcases h.hashes EXPIRY_KEYS f with heq | ⟨-, -, hnone⟩
    · exact absurd ((hkeys f).mpr ⟨hf, heq⟩) hn
    · exact hnone
  have hsub₁ : keys₁ ⊆ keys' := fun f hf => ((hkeys f).mp hf).1
  refine Store.ext_cells (fun k => ?_) (fun S m => ?_) fun H f => ?_
  · rw [strings_hdel, strings_hdel, strings_dropAll, strings_dropAll]
    by_cases hk : k ∈ keys'.map newKey
    · rw [if_pos hk]
      obtain ⟨f, hf, rfl⟩ := List.mem_map.mp hk
      split_ifs with hk₁
      · rfl
      · exact (hgone f hf fun hf₁ => hk₁ (List.mem_map_of_mem hf₁)).2.1
    · rw [if_neg hk, if_neg fun hk₁ => hk (List.map_subset newKey hsub₁ hk₁)]
      exact (h.strings k).resolve_right fun hnone => hk (List.map_subset newKey hsub hnone.1)
  · rw [sets_hdel, sets_hdel, mem_sets_dropAll, mem_sets_dropAll]
    constructor
    · rintro ⟨hm, hn⟩
      refine ⟨h.sets S m hm, fun ⟨f, hf, hmf⟩ => ?_⟩
      by_cases hf₁ : f ∈ keys₁
      · exact hn ⟨f, hf₁, hmf⟩
      · exact (hgone f hf hf₁).2.2 S m hmf hm
    · rintro ⟨hm, hn⟩
      refine ⟨?_, fun ⟨f, hf, hmf⟩ => hn ⟨f, hsub₁ hf, hmf⟩⟩
      by_contra hm₁
      obtain ⟨f, hf, hmf⟩ := h.removed S m hm hm₁
      exact hn ⟨f, hsub hf, hmf⟩
  · rw [lookup_hdel, lookup_hdel]
    by_cases hH : H = EXPIRY_KEYS ∧ f ∈ keys'
    · obtain ⟨rfl, hf⟩ := hH
      rw [if_pos (show EXPIRY_KEYS = EXPIRY_KEYS ∧ f ∈ keys' from ⟨rfl, hf⟩)]
      split_ifs with hf₁
      · rfl
      · exact (hgone f hf fun hmem => hf₁ ⟨rfl, hmem⟩).1
    · rw [if_neg hH, if_neg fun hf₁ => hH ⟨hf₁.1, hsub₁ hf₁.2⟩]
      exact (h.hashes H f).resolve_right fun hnone => hH ⟨hnone.1, hsub hnone.2.1⟩

/-- **A failed sweep is repaired by the next one.** In every state, a sweep that has failed after any
number of its commands, followed by a complete sweep at the same time or later, leaves what the complete
sweep alone leaves. -/
theorem sweep_retried (J : Json T V) (lost : (c : Cmd T) → Except RedisError c.Answer) (s : Store T)
    (n : ℕ) {env env₁ env₂ : Env} (hle : env.now.nanos ≤ env₁.now.nanos) (hnow : env₂.now = env₁.now) :
    ((sweep J env₁).run exec ((sweep J env).run (losing exec lost) (s, n)).2.1).2 =
      ((sweep J env₂).run exec s).2 := by
  rw [Prog.run_losing, run_sweep, run_sweep]
  refine (swept_take env s n).drop_eq (fun f hf => ?_) fun f => ?_
  · obtain ⟨t, d, ht, hd, hlt⟩ := mem_expired.mp hf
    exact mem_expired.mpr ⟨t, d, ht, hd, by rw [hnow]; omega⟩
  · rw [mem_expired, mem_expired, hnow]
    constructor
    · rintro ⟨t, d, ht, hd, hlt⟩
      rcases (swept_take (J := J) env s n).hashes EXPIRY_KEYS f with heq | ⟨-, -, hnone, -⟩
      · exact ⟨⟨t, d, heq ▸ ht, hd, hlt⟩, heq⟩
      · exact nomatch hnone.symm.trans ht
    · rintro ⟨⟨t, d, ht, hd, hlt⟩, heq⟩
      exact ⟨t, d, heq ▸ ht, hd, hlt⟩

/-- A sweep that fails after it has deleted an expired message keeps the deadline, and the next sweep
deletes it. -/
theorem sweep_retried_message :
    let k := messageKey (.of 1) (.of 2)
    let env : Env := .at (.of 2000000000)
    let s := stateAfter Json.plain .full (.of 9) [⟨.at (.of 0), .event (.messageCreate
      ⟨.of 2, .of 1, [], "", none, [], false, [], [], false, 0, false, ""⟩)⟩]
    let s₁ := ((sweep Json.plain env).run (losing exec fun _ => .error ⟨"io"⟩) (s, 2)).2.1
    s₁.strings k = none ∧ ((s₁.hashes EXPIRY_KEYS).lookup k).isSome ∧
      ((sweep Json.plain env).run exec s₁).2 = ((sweep Json.plain env).run exec s).2 := by
  intro k env s s₁
  exact ⟨Option.isNone_iff_eq_none.mp (by decide +kernel), by decide +kernel,
    sweep_retried Json.plain (fun _ => .error ⟨"io"⟩) s 2 le_rfl rfl⟩

end TwilightDispatch
