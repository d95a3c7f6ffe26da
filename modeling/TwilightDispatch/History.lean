import TwilightDispatch.Index

/-!
# The history of a key

The ledger of a run has every command with its time, so it tells when and with what text a key was
last written and whether it was deleted since (`lastWrite`). The string map holds exactly these
texts (`ledger_strings`).
-/

namespace TwilightDispatch

open Atomic Redis

variable {T V α : Type} {J : Json T V} {cfg : Config} {botId : Id .user} {orders : Orders}
  {now : FormattedDateTime} {s : Store T} {log : List (FormattedDateTime × Cmd T)}

/-! ## Last writes -/

/-- The last writes after one more command. -/
def note (now : FormattedDateTime) (c : Cmd T) (w : String → Option (FormattedDateTime × T))
    (k : String) : Option (FormattedDateTime × T) :=
  match c with
  | .mset kvs => ((lastOf kvs k).map (now, ·)).or (w k)
  | .del ks => if k ∈ ks then none else w k
  | _ => w k

/-- When and with what text a key was last written, unless it was deleted since. -/
def lastWrite (log : List (FormattedDateTime × Cmd T)) : String → Option (FormattedDateTime × T) :=
  log.foldl (fun w entry => note entry.1 entry.2 w) fun _ => none

theorem lastWrite_append (log : List (FormattedDateTime × Cmd T)) (now : FormattedDateTime)
    (cs : List (Cmd T)) :
    lastWrite (log ++ cs.map (now, ·)) = cs.foldl (fun w c => note now c w) (lastWrite log) := by
  unfold lastWrite
  rw [List.foldl_append, List.foldl_map]

/-- The string map holds what was last written. -/
theorem ledger_strings (steps : List Step) (k : String) :
    (lastWrite (ledgerAfter J cfg botId steps).2 k).map Prod.snd =
      (ledgerAfter J cfg botId steps).1.strings k := by
  let Inv : Ledger T → Prop := fun l => ∀ k, (lastWrite l.2 k).map Prod.snd = l.1.strings k
  suffices h : Inv (ledgerAfter J cfg botId steps) from h k
  induction steps using List.reverseRecOn with
  | nil => exact fun k => rfl
  | append_singleton steps step ih =>
    rw [ledgerAfter_append]
    refine Prog.run_invariant (fun c l hl k => ?_) _ ih
    have happ : lastWrite (l.2 ++ [(step.env.now, c)]) k = note step.env.now c (lastWrite l.2) k :=
      congrFun (lastWrite_append l.2 step.env.now [c]) k
    show (lastWrite (l.2 ++ [(step.env.now, c)]) k).map Prod.snd = (apply c l.1).strings k
    rw [happ]
    cases c with
    | mset kvs =>
      show (((lastOf kvs k).map (step.env.now, ·)).or (lastWrite l.2 k)).map Prod.snd = _
      rw [strings_mset, ← hl k]
      cases lastOf kvs k <;> rfl
    | del ks =>
      show (if k ∈ ks then none else lastWrite l.2 k).map Prod.snd = _
      rw [strings_del, ← hl k]
      split_ifs <;> rfl
    | _ => exact hl k

/-! ## What the operations issue -/

/-- Commands that neither write nor delete a string. -/
def Quiet : Cmd T → Prop
  | .mset _ | .del _ => False
  | _ => True

theorem foldl_note_of_quiet {cs : List (Cmd T)} (h : ∀ c ∈ cs, Quiet c)
    (w : String → Option (FormattedDateTime × T)) :
    cs.foldl (fun w c => note now c w) w = w := by
  induction cs generalizing w with
  | nil => rfl
  | cons c cs ih =>
    have hc : note now c w = w := by
      have := h c List.mem_cons_self
      cases c with
      | mset | del => exact this.elim
      | _ => rfl
    rw [List.foldl_cons, hc]
    exact ih (fun c hc => h c (List.mem_cons_of_mem _ hc)) w

theorem trace_sadd_all (l : List (String × List String)) :
    Fallible.trace exec (l.forM fun kv => (redis (.sadd kv.1 kv.2) : Api T Unit)) s =
      l.map fun kv => .sadd kv.1 kv.2 := by
  induction l generalizing s with
  | nil => rfl
  | cons kv l ih =>
    have h := Fallible.trace_bind_ok (f := fun _ => l.forM fun kv => redis (.sadd kv.1 kv.2))
      (run_redis (s := s) (.sadd kv.1 kv.2))
    exact h.trans (congrArg (_ :: ·) ih)

theorem trace_srem_all (l : List (String × List String)) :
    Fallible.trace exec (l.forM fun kv => (redis (.srem kv.1 kv.2) : Api T Unit)) s =
      l.map fun kv => .srem kv.1 kv.2 := by
  induction l generalizing s with
  | nil => rfl
  | cons kv l ih =>
    have h := Fallible.trace_bind_ok (f := fun _ => l.forM fun kv => redis (.srem kv.1 kv.2))
      (run_redis (s := s) (.srem kv.1 kv.2))
    exact h.trans (congrArg (_ :: ·) ih)

/-- A batch of writes stamps its keys with the time. -/
theorem lastWrite_setAll (kvs : List (String × Item)) (k : String) :
    lastWrite (log ++ (Fallible.trace exec (setAll J orders kvs) s).map (now, ·)) k =
      ((lastOf (storedPairs J kvs) k).map (now, ·)).or (lastWrite log k) := by
  rw [lastWrite_append]
  unfold setAll
  by_cases h : kvs = []
  · subst h
    rfl
  · simp only [List.isEmpty_map, List.isEmpty_iff, h, if_false]
    rw [Fallible.trace_bind_ok (run_redis _), trace_sadd_all, List.foldl_append,
      foldl_note_of_quiet]
    · rfl
    · intro c hc
      obtain ⟨kv, -, rfl⟩ := List.mem_map.mp hc
      trivial

/-- A batch of deletions removes its keys. -/
theorem lastWrite_delAll (keys : List String) (k : String) :
    lastWrite (log ++ (Fallible.trace exec (delAll orders keys) s).map (now, ·)) k =
      if k ∈ keys.map newKey then none else lastWrite log k := by
  rw [lastWrite_append]
  unfold delAll
  by_cases h : keys = []
  · subst h
    rfl
  · simp only [List.isEmpty_map, List.isEmpty_iff, h, if_false]
    rw [Fallible.trace_bind_ok (run_redis _), trace_srem_all, List.foldl_append,
      foldl_note_of_quiet]
    · rfl
    · intro c hc
      obtain ⟨kv, -, rfl⟩ := List.mem_map.mp hc
      trivial

end TwilightDispatch
