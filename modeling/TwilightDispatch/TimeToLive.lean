import TwilightDispatch.Expiry

/-!
# Times to live

A configured time to live is an unsigned number of milliseconds, and is cast to a signed one when
it is added to the clock. From `2 ^ 63` on the cast gives a deadline in the past; below that a
deadline after the last representable date is a panic. What is left are the times to live whose
deadline is a date: with them a key is kept for its whole time.
-/

namespace TwilightDispatch

open Atomic Redis

variable {T V : Type} {J : Json T V} {now : FormattedDateTime} {s : Store T} {k : String}
  {ttl : String → UInt64} {keys : List String}

/-- A batch in which the time to live goes by the key. -/
def expiring (ttl : String → UInt64) (keys : List String) : List (String × UInt64) :=
  keys.map fun key => (key, ttl key)

/-- The batch is written without a panic, no deadline is before `now`, and as long as a key has the
deadline written, no sweep before its time to live is over treats it as expired. -/
def KeptFor (J : Json T V) (now : FormattedDateTime) (ttl : String → UInt64)
    (keys : List String) (s : Store T) : Prop :=
  let r := Fallible.run exec (expireAll J now (expiring ttl keys)) s
  r.1 = .ok () ∧ ∀ k ∈ keys, ∃ d : FormattedDateTime,
    (r.2.hashes EXPIRY_KEYS).lookup k = some (J.text (.timestamp d)) ∧ now.nanos ≤ d.nanos ∧
    ∀ (env : Env) (s' : Store T),
      (s'.hashes EXPIRY_KEYS).lookup k = some (J.text (.timestamp d)) →
      now.nanos ≤ env.now.nanos →
      env.now.nanos < now.nanos + milliseconds (ttl k).toNat → k ∉ expired J env s'

/-! ## The cast -/

theorem asI64_neg {value : UInt64} (h : 2 ^ 63 ≤ value.toNat) : asI64 value < 0 := by
  have hmsb : value.toBitVec.msb = true := by
    rw [BitVec.msb_eq_decide]
    exact decide_eq_true h
  unfold asI64
  show value.toBitVec.toInt < 0
  exact BitVec.toInt_neg_of_msb_true hmsb

/-- A deadline that is not before `now` was computed without wrapping. -/
theorem representable_of_add {ttl : UInt64} {d : FormattedDateTime}
    (hadd : now.add (milliseconds (asI64 ttl)) = some d) (hle : now.nanos ≤ d.nanos) :
    now.nanos + milliseconds ttl.toNat ≤ FormattedDateTime.max := by
  have hd : d.nanos = now.nanos + milliseconds (asI64 ttl) := by
    unfold FormattedDateTime.add at hadd
    split_ifs at hadd
    rw [← Option.some.inj hadd]
  have hlt : ttl.toNat < 2 ^ 63 := by
    by_contra hge
    have hneg := asI64_neg (not_lt.mp hge)
    unfold milliseconds at hd
    omega
  rw [asI64_of_lt hlt] at hd
  exact hd ▸ d.le_max

/-! ## The deadlines of a batch -/

/-- The value written for a key is the deadline that its own time to live gives. -/
theorem lastOf_deadlines {fields : List (String × T)}
    (h : deadlines J now (expiring ttl keys) = some fields) (hk : k ∈ keys) :
    ∃ d, now.add (milliseconds (asI64 (ttl k))) = some d ∧
      lastOf fields k = some (J.text (.timestamp d)) := by
  induction keys generalizing fields with
  | nil => cases hk
  | cons key keys ih =>
    unfold expiring at h
    rw [List.map_cons, deadlines_cons, Option.bind_eq_some_iff] at h
    obtain ⟨d, hadd, h⟩ := h
    obtain ⟨rest, hrest, rfl⟩ := Option.map_eq_some_iff.mp h
    by_cases hmem : k ∈ keys
    · -- a later pair of the batch has the same key, and the same time to live
      obtain ⟨d', hadd', hlast⟩ := ih hrest hmem
      exact ⟨d', hadd', by rw [lastOf_cons, hlast, Option.some_or]⟩
    · obtain rfl := (List.mem_cons.mp hk).resolve_right hmem
      have hnone : lastOf rest k = none := by
        rw [lastOf_eq_none_iff]
        intro hk
        obtain ⟨kv, hkv, rfl⟩ := List.mem_map.mp hk
        obtain ⟨-, ⟨e, he, hek⟩, -⟩ := mem_deadlines hrest hkv
        obtain ⟨key, hkey, rfl⟩ := List.mem_map.mp he
        exact hmem (hek ▸ hkey)
      exact ⟨d, hadd, by rw [lastOf_cons, hnone, if_pos rfl, Option.none_or]⟩

/-- A sweep that is not past the deadline of a key leaves it. -/
theorem not_mem_expired (hJ : J.Lawful) {env : Env} {d : FormattedDateTime}
    (hd : (s.hashes EXPIRY_KEYS).lookup k = some (J.text (.timestamp d)))
    (hle : env.now.nanos ≤ d.nanos) : k ∉ expired J env s := by
  rw [mem_expired]
  rintro ⟨t, d', ht, hd', hlt⟩
  obtain rfl := Option.some.inj (hd.symm.trans ht)
  rw [hJ.timestamp] at hd'
  obtain rfl := Except.ok.inj hd'
  omega

/-- **A key is kept for its time to live exactly when its deadline is a date.** The deadlines of a
batch are written without a panic and not before `now`, and no key is swept before its time to live
is over, if and only if for each key `now` plus its time to live is a representable date. -/
theorem kept_for_ttl (hJ : J.Lawful) (now : FormattedDateTime) (ttl : String → UInt64)
    (keys : List String) (s : Store T) : KeptFor J now ttl keys s ↔
      ∀ k ∈ keys, now.nanos + milliseconds (ttl k).toNat ≤ FormattedDateTime.max := by
  constructor
  · rintro ⟨hok, hkept⟩ k hk
    obtain ⟨d, hd, hle, -⟩ := hkept k hk
    rw [run_expireAll] at hok hd
    cases hdead : deadlines J now (expiring ttl keys) with
    | none =>
      rw [hdead] at hok
      cases hok
    | some fields =>
      obtain ⟨d', hadd, hlast⟩ := lastOf_deadlines hdead hk
      rw [hdead, lookup_hset, if_pos rfl, hlast, Option.some_or] at hd
      have hdecode := hJ.timestamp d'
      rw [Option.some.inj hd, hJ.timestamp] at hdecode
      obtain rfl := Except.ok.inj hdecode
      exact representable_of_add hadd hle
  · intro hrep
    have hkeys : ∀ e ∈ expiring ttl keys, e.1 ∈ keys ∧ e.2 = ttl e.1 := by
      intro e he
      obtain ⟨key, hkey, rfl⟩ := List.mem_map.mp he
      exact ⟨hkey, rfl⟩
    obtain ⟨fields, hdead, hmem, hval⟩ := exists_deadlines (J := J)
      (fun e he => hrep e.1 (hkeys e he).1) fun e he => (hkeys e he).2
    unfold KeptFor
    rw [run_expireAll, hdead]
    refine ⟨rfl, fun k hk => ?_⟩
    have hfirst : k ∈ (expiring ttl keys).map Prod.fst :=
      List.mem_map.mpr ⟨(k, ttl k), List.mem_map_of_mem hk, rfl⟩
    obtain ⟨t, ht⟩ := Option.ne_none_iff_exists'.mp ((hmem k).mpr hfirst)
    obtain ⟨d, hd, rfl⟩ := hval k t ht
    refine ⟨d, by rw [lookup_hset, if_pos rfl, ht, Option.some_or], ?_, ?_⟩
    · unfold milliseconds at hd
      omega
    · intro env s' hs' _ hlt
      exact not_mem_expired hJ hs' (by omega)

/-- With a second as its time to live, a message is kept for that second. -/
theorem kept_for_ttl_second :
    KeptFor Json.plain (.of 0) (fun _ => 1000) ["message:1:2"] .empty :=
  (kept_for_ttl Json.plain_lawful (.of 0) (fun _ => 1000) ["message:1:2"] .empty).mpr (by decide)

/-- The largest time to live is cast to minus one: the deadline lies a millisecond before `now`, and
the next sweep removes the message. -/
theorem not_kept_for_ttl :
    ¬ KeptFor Json.plain (.of 0) (fun _ => 18446744073709551615) ["message:1:2"] .empty := by
  rintro ⟨-, hkept⟩
  obtain ⟨d, hd, hle, -⟩ := hkept "message:1:2" List.mem_cons_self
  have hrun : ((Fallible.run exec (expireAll Json.plain (.of 0)
      (expiring (fun _ => 18446744073709551615) ["message:1:2"])) .empty).2.hashes
      EXPIRY_KEYS).lookup "message:1:2" = some (Item.timestamp (.of (-1000000))) := by
    rfl
  obtain rfl := Item.timestamp.inj (Option.some.inj (hrun.symm.trans hd))
  exact absurd hle (by decide)

end TwilightDispatch
