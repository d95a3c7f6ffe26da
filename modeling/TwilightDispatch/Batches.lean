import TwilightDispatch.Index

/-!
# Batches

`set_all` and `del_all` handle a list of keys with one command for the string keys and one for each
index. The result is that of handling the keys one by one, in whatever order the indexes are served
(`batches`).
-/

namespace TwilightDispatch

open Atomic Redis

variable {T V : Type} {J : Json T V} {orders : Orders} {s : Store T}

/-- Keys set one after another. -/
theorem run_set_forM (keys : List (String × Item)) :
    Fallible.run exec (keys.forM fun kv => set J orders kv.1 kv.2) s =
      (.ok (), putAll J keys s) := by
  induction keys generalizing s with
  | nil => exact congrArg (Prod.mk _) putAll_nil.symm
  | cons kv keys ih =>
    rw [show kv :: keys = [kv] ++ keys from rfl, putAll_append, ← ih]
    exact Fallible.run_bind_ok (run_set kv.1 kv.2)

/-- Keys deleted one after another. -/
theorem run_del_forM (keys : List String) :
    Fallible.run exec (keys.forM (del orders)) s = (.ok (), dropAll keys s) := by
  induction keys generalizing s with
  | nil => exact congrArg (Prod.mk _) dropAll_nil.symm
  | cons key keys ih =>
    rw [show key :: keys = [key] ++ keys from rfl, dropAll_append, ← ih]
    exact Fallible.run_bind_ok (run_del key)

/-- **Batches.** `set_all` and `del_all` of two lists are those of the one and then of the other, and
those of every key by itself, whatever the order in which the indexes are served. Deleting the keys of
a batch removes from the indexes what the batch has added, and nothing that is not the stored key of
one of its keys. -/
theorem batches (J : Json T V) (orders orders₁ orders₂ : Orders) (xs ys : List (String × Item))
    (keys keys' : List String) (s : Store T) :
    (Fallible.run exec (setAll J orders (xs ++ ys)) s =
        Fallible.run exec (do setAll J orders₁ xs; setAll J orders₂ ys) s ∧
      Fallible.run exec (setAll J orders xs) s =
        Fallible.run exec (xs.forM fun kv => set J orders₁ kv.1 kv.2) s ∧
      Fallible.run exec (setAll J orders xs) s = Fallible.run exec (setAll J orders₁ xs) s) ∧
    (Fallible.run exec (delAll orders (keys ++ keys')) s =
        Fallible.run exec (do delAll orders₁ keys; delAll orders₂ keys') s ∧
      Fallible.run exec (delAll orders keys) s = Fallible.run exec (keys.forM (del orders₁)) s ∧
      Fallible.run exec (delAll orders keys) s = Fallible.run exec (delAll orders₁ keys) s) ∧
    ∀ S k,
      (k ∈ (Fallible.run exec (setAll J orders xs) s).2.sets S → k ∉ s.sets S → ∀ s' : Store T,
        k ∉ (Fallible.run exec (delAll orders₁ (xs.map Prod.fst)) s').2.sets S) ∧
      (k ∉ xs.map (fun kv => newKey kv.1) →
        (k ∈ (Fallible.run exec (delAll orders₁ (xs.map Prod.fst)) s).2.sets S ↔ k ∈ s.sets S)) := by
  refine ⟨⟨?_, ?_, ?_⟩, ⟨?_, ?_, ?_⟩, fun S k => ⟨fun hk hnot s' => ?_, fun hnone => ?_⟩⟩
  · rw [run_setAll, putAll_append, Fallible.run_bind_ok (run_setAll xs), run_setAll]
  · rw [run_setAll, run_set_forM]
  · rw [run_setAll, run_setAll]
  · rw [run_delAll, dropAll_append, Fallible.run_bind_ok (run_delAll keys), run_delAll]
  · rw [run_delAll, run_del_forM]
  · rw [run_delAll, run_delAll]
  · rw [run_setAll, mem_sets_putAll] at hk
    obtain ⟨kv, hkv, hmem⟩ := hk.resolve_left hnot
    rw [run_delAll, mem_sets_dropAll]
    exact fun h => h.2 ⟨kv.1, List.mem_map_of_mem hkv, hmem⟩
  · rw [run_delAll, mem_sets_dropAll, and_iff_left_iff_imp]
    rintro - ⟨key, hkey, hmem⟩
    obtain ⟨kv, hkv, rfl⟩ := List.mem_map.mp hkey
    exact hnone (List.mem_map.mpr ⟨kv, hkv, (eq_newKey_of_mem_setMembers hmem).symm⟩)

end TwilightDispatch
