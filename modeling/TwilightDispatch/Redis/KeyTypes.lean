import TwilightDispatch.Redis.Store

/-!
# Types of keys

The store keeps its three kinds of values in keyspaces of their own. A Redis server has one keyspace
for all of them: a key holds a value of one type, and a command that is for another type fails.
`Mistyped` says that a command meets a key that holds a value of another type than the command is
for. Programs that are confined to a region in which every key has one type issue no such command,
because a command that is local to a region has its footprint there (`footprint_subset`).
-/

namespace Redis

open Atomic

variable {T : Type} {R : Set Cell} {c : Cmd T} {s : Store T}

/-- The types of values. -/
inductive ValueType where
  | string | set | hash
  deriving DecidableEq

/-- The key of the value that a cell is part of. -/
def Cell.key : Cell → String
  | .str k | .mem k _ | .field k _ => k

def Cell.type : Cell → ValueType
  | .str _ => .string
  | .mem _ _ => .set
  | .field _ _ => .hash

/-- The command meets a key that holds a value of another type. -/
def Mistyped (c : Cmd T) (s : Store T) : Prop :=
  ∃ l ∈ footprint c, ∃ l', Filled l' s ∧ l'.key = l.key ∧ l'.type ≠ l.type

/-- A key has one type in the region. -/
def Typed (R : Set Cell) : Prop := ∀ l ∈ R, ∀ l' ∈ R, l'.key = l.key → l'.type = l.type

theorem Typed.not_mistyped (hR : Typed R) (hc : footprint c ⊆ R) (hs : ∀ l, Filled l s → l ∈ R) :
    ¬ Mistyped c s := by
  rintro ⟨l, hl, l', hl', hkey, htype⟩
  exact htype (hR l (hc hl) l' (hs l' hl') hkey)

/-! ## A local command has its footprint in the region -/

theorem not_filled_empty (l : Cell) : ¬ Filled l (Store.empty : Store T) := by
  cases l with
  | str k => exact fun h => h rfl
  | mem k m => exact Finset.notMem_empty m
  | field k f => exact fun h => h rfl

theorem filled_of_writes {l : Cell} (hl : l ∈ writes c) (s : Store T) : Filled l (apply c s) := by
  cases c with
  | mset kvs =>
    obtain ⟨kv, hkv, rfl⟩ := hl
    obtain ⟨v, hv⟩ := exists_lastOf (List.mem_map_of_mem (f := Prod.fst) hkv)
    simp [Filled, hv]
  | sadd k ms =>
    obtain ⟨m, hm, rfl⟩ := hl
    simp [Filled, hm]
  | hset k kvs =>
    obtain ⟨kv, hkv, rfl⟩ := hl
    obtain ⟨v, hv⟩ := exists_lastOf (List.mem_map_of_mem (f := Prod.fst) hkv)
    simp [Filled, hv]
  | _ => cases hl

/-- A command that fills one cell. -/
def fill (t : T) : Cell → Cmd T
  | .str k => .mset [(k, t)]
  | .mem k m => .sadd k [m]
  | .field k f => .hset k [(f, t)]

theorem footprint_fill (t : T) (l : Cell) : footprint (fill t l) = {l} := by
  cases l <;> simp [fill, footprint]

theorem filled_fill (t : T) (l : Cell) (s : Store T) : Filled l (apply (fill t l) s) := by
  refine filled_of_writes ?_ s
  cases l <;> simp [fill, writes]

/-- What a command answers tells whether a cell that it reads is filled. -/
theorem reply_ne_of_filled {l : Cell} (hl : l ∈ footprint c) (hw : l ∉ writes c)
    (hd : l ∉ deletes c) (t : T) :
    reply c Store.empty ≠ reply c (apply (fill t l) Store.empty) := by
  intro heq
  cases c with
  | get k =>
    obtain rfl := hl
    simp [reply, fill, Store.empty] at heq
  | mget ks =>
    obtain ⟨k, hk, rfl⟩ := hl
    have := List.map_inj_left.mp heq k hk
    simp [fill, Store.empty] at this
  | smembers k =>
    obtain ⟨m, rfl⟩ := hl
    have : m ∈ (Store.empty : Store T).sets k := by
      change (Store.empty : Store T).sets k = _ at heq
      rw [heq]
      exact filled_fill t (.mem k m) _
    exact Finset.notMem_empty m this
  | scard k =>
    obtain ⟨m, rfl⟩ := hl
    have hmem : m ∈ (apply (fill t (.mem k m)) (Store.empty : Store T)).sets k :=
      filled_fill t (.mem k m) _
    exact Finset.card_ne_zero_of_mem hmem heq.symm
  | hgetall k =>
    obtain ⟨f, rfl⟩ := hl
    have hlookup := congrArg (Finmap.lookup f) heq
    exact filled_fill t (.field k f) (Store.empty : Store T) hlookup.symm
  | mset | sadd | hset => exact hw hl
  | del | srem | hdel => exact hd hl

/-- A command that is local to a region reads and writes nothing outside it. -/
theorem footprint_subset [Nonempty T] (h : Local exec (cells T) R c) : footprint c ⊆ R := by
  intro l hl
  obtain ⟨t⟩ := ‹Nonempty T›
  by_contra hR
  by_cases hw : l ∈ writes c
  · -- it would change the cell where that is empty
    have hsame : SameAt l (Store.empty : Store T) (apply c Store.empty) := h.frame _ l hR
    exact not_filled_empty l (hsame.filled.mpr (filled_of_writes hw _))
  by_cases hd : l ∈ deletes c
  · -- it would change the cell where that is filled
    have hsame : SameAt l (apply (fill t l) (Store.empty : Store T)) (apply c _) := h.frame _ l hR
    exact not_filled_of_deletes hd _ (hsame.filled.mp (filled_fill t l _))
  · -- its answer would depend on the cell
    have hagree : (cells T).Agree R Store.empty (apply (fill t l) Store.empty) := by
      intro l' hl'
      refine sameAt_apply ?_ _
      rw [footprint_fill]
      rintro rfl
      exact hR hl'
    exact reply_ne_of_filled hl hw hd t (Except.ok.inj (h.reply _ _ hagree))

end Redis
