import TwilightDispatch.Sessions

/-!
# The session map

The sessions are stored under the printed numbers of their shards. What `real_main` saves of all
clusters is what `get_clusters` of the next process reads back, session by session, and no name that
is ever stored makes it panic (`sessions_resumed`).
-/

namespace TwilightDispatch

open Atomic Redis

variable {T V : Type} {J : Json T V} {settings : Settings} {orders : Orders} {s : Store T}
  {shard shard' : UInt64}

/-! ## Stored sessions -/

theorem toString_shard_inj : toString shard = toString shard' ↔ shard = shard' := by
  refine ⟨fun h => ?_, congrArg toString⟩
  have hparse := congrArg parse h
  rw [parse_toString, parse_toString] at hparse
  exact Option.some.inj hparse

/-- Every session is stored under the printed number of a shard. -/
def Named (sessions : Sessions) : Prop := ∀ key ∈ sessions, ∃ shard : UInt64, key = toString shard

theorem named_savedSessions (resumable : List (UInt64 × ResumeSession)) :
    Named (savedSessions resumable) := by
  intro key hkey
  obtain ⟨v, hv⟩ := Finmap.mem_iff.mp hkey
  obtain ⟨r, -, hname, -⟩ := lookup_savedSessions hv
  exact ⟨r.1, hname.symm⟩

theorem named_dumpedSessions (info : List (UInt64 × ShardInfo)) : Named (dumpedSessions info) := by
  intro key hkey
  obtain ⟨v, hv⟩ := Finmap.mem_iff.mp hkey
  obtain ⟨shard, -, hname, -⟩ := lookup_dumpedSessions hv
  exact ⟨shard.1, hname.symm⟩

/-- Of entries with different names, the last one with a name is the only one. -/
theorem getLast?_filter_eq_lookup {β : Type} {l : List (UInt64 × β)}
    (h : (l.map Prod.fst).Nodup) (shard : UInt64) :
    ((l.filter fun r => r.1 = shard).getLast?).map Prod.snd = l.lookup shard := by
  induction l with
  | nil => rfl
  | cons r l ih =>
    obtain ⟨hnot, hl⟩ := List.nodup_cons.mp h
    obtain ⟨shard', b⟩ := r
    by_cases heq : shard' = shard
    · subst heq
      have hnone : (l.filter fun r => r.1 = shard') = [] := List.filter_eq_nil_iff.mpr
        fun r hr hname => hnot (List.mem_map.mpr ⟨r, hr, of_decide_eq_true hname⟩)
      simp [hnone]
    · have hne : (shard == shard') = false := beq_false_of_ne (Ne.symm heq)
      rw [List.filter_cons_of_neg (by simpa using heq), ih hl, List.lookup_cons, hne]

/-- Shards of different clusters are saved side by side. -/
theorem lookup_savedSessions_eq {resumable : List (UInt64 × ResumeSession)}
    (h : (resumable.map Prod.fst).Nodup) (shard : UInt64) :
    (savedSessions resumable).lookup (toString shard) =
      (resumable.lookup shard).map fun r => ⟨r.sessionId, r.sequence⟩ := by
  rw [savedSessions_eq, lookup_setFields, Finmap.lookup_empty, Option.or_none]
  refine (lastOf_map resumable (fun r => toString r.1)
    (fun r => (⟨r.2.sessionId, r.2.sequence⟩ : SessionInfo)) (toString shard)).trans ?_
  simp only [toString_shard_inj]
  rw [← getLast?_filter_eq_lookup h, Option.map_map]
  rfl

/-! ## Reading them back -/

/-- A stored session, as it is resumed. -/
def SessionInfo.resume (value : SessionInfo) : ResumeSession := ⟨none, value.sessionId, value.sequence⟩

/-- Entering sessions under the printed numbers of shards does not panic. -/
theorem run_insertResume {entries : List (String × SessionInfo)}
    (h : ∀ entry ∈ entries, ∃ shard : UInt64, entry.1 = toString shard) (resumes : Resumes) :
    ∃ resumes', Fallible.run exec (entries.foldlM insertResume resumes) s = (.ok resumes', s) ∧
      ∀ shard, resumes'.lookup shard =
        ((lastOf entries (toString shard)).map SessionInfo.resume).or (resumes.lookup shard) := by
  induction entries generalizing resumes with
  | nil => exact ⟨resumes, rfl, fun _ => rfl⟩
  | cons entry entries ih =>
    obtain ⟨shard', hname⟩ := h entry List.mem_cons_self
    have hstep : Fallible.run exec (insertResume resumes entry) s =
        (.ok (resumes.insert shard' entry.2.resume), s) := by
      unfold insertResume
      rw [hname, parse_toString]
      rfl
    obtain ⟨resumes', hrun, hlookup⟩ :=
      ih (fun e he => h e (List.mem_cons_of_mem _ he)) (resumes.insert shard' entry.2.resume)
    refine ⟨resumes', (Fallible.run_bind_ok hstep).trans hrun, fun shard => ?_⟩
    rw [hlookup, lastOf_cons, hname]
    simp only [toString_shard_inj]
    rcases hrest : lastOf entries (toString shard) with _ | v
    · by_cases heq : shard' = shard
      · subst heq
        simp
      · simp [heq, Finmap.lookup_insert_of_ne _ (Ne.symm heq)]
    · rfl

/-- The entries of a hash map, in whatever order it is iterated. -/
theorem lastOf_entries (orders : Orders) (sessions : Sessions) (key : String) :
    lastOf ((orders.listing sessions.keys).filterMap fun key =>
      (sessions.lookup key).map (key, ·)) key = sessions.lookup key := by
  rcases hv : lastOf ((orders.listing sessions.keys).filterMap fun key =>
      (sessions.lookup key).map (key, ·)) key with _ | v
  · rcases hlookup : sessions.lookup key with _ | v
    · rfl
    · refine absurd (List.mem_map.mpr ⟨(key, v), List.mem_filterMap.mpr ⟨key, ?_, ?_⟩, rfl⟩)
        (lastOf_eq_none_iff.mp hv)
      · exact (orders.mem_listing _ _).mpr (Finmap.mem_keys.mpr (Finmap.mem_of_lookup_eq_some hlookup))
      · rw [hlookup]
        rfl
  · obtain ⟨key', -, h⟩ := List.mem_filterMap.mp (mem_of_lastOf hv)
    obtain ⟨v', hv', heq⟩ := Option.map_eq_some_iff.mp h
    obtain ⟨rfl, rfl⟩ := Prod.mk.inj heq
    exact hv'.symm

variable (settings orders) in
/-- What `get_clusters` resumes, where the stored texts decode. -/
theorem run_getResumes {total : Option UInt64} {sessions : Option Sessions}
    (htotal : Fallible.run exec (get J.shardsTotal SHARDS_KEY) s = (.ok total, s))
    (hsessions : Fallible.run exec (get J.sessions SESSIONS_KEY) s = (.ok sessions, s))
    (hnamed : ∀ m, sessions = some m → Named m) :
    ∃ resumes, Fallible.run exec (getResumes J settings orders) s = (.ok resumes, s) ∧
      ∀ shard, resumes.lookup shard =
        if settings.resume = true ∧ total = some settings.shardsTotal then
          ((sessions.getD ∅).lookup (toString shard)).map SessionInfo.resume
        else none := by
  unfold getResumes
  by_cases hresume : settings.resume = true
  · rw [if_pos hresume, Fallible.run_bind_ok htotal]
    by_cases heq : total = some settings.shardsTotal
    · rw [if_pos heq, Fallible.run_bind_ok hsessions]
      have hentries : ∀ entry ∈ (orders.listing (sessions.getD ∅).keys).filterMap fun key =>
          ((sessions.getD ∅).lookup key).map (key, ·), ∃ shard : UInt64, entry.1 = toString shard := by
        intro entry hentry
        obtain ⟨key, hkey, h⟩ := List.mem_filterMap.mp hentry
        obtain ⟨v, -, rfl⟩ := Option.map_eq_some_iff.mp h
        have hmem := Finmap.mem_keys.mp ((orders.mem_listing _ _).mp hkey)
        rcases sessions with _ | m
        · exact absurd hmem (Finmap.notMem_empty)
        · exact hnamed m rfl key hmem
      obtain ⟨resumes, hrun, hlookup⟩ := run_insertResume hentries ∅
      refine ⟨resumes, hrun, fun shard => ?_⟩
      rw [hlookup, lastOf_entries, if_pos ⟨hresume, heq⟩, Finmap.lookup_empty, Option.or_none]
    · rw [if_neg heq]
      exact ⟨∅, rfl, fun shard => by rw [if_neg fun h => heq h.2, Finmap.lookup_empty]⟩
  · rw [if_neg hresume]
    exact ⟨∅, rfl, fun shard => by rw [if_neg fun h => hresume h.1, Finmap.lookup_empty]⟩

/-- Every cluster is given what has been read. -/
theorem resumeSessions_of_getClusters {resumes : Resumes}
    (h : Fallible.run exec (getResumes J settings orders) s = (.ok resumes, s))
    {r : List Cluster × ClusterInfo}
    (hr : (Fallible.run exec (getClusters J settings orders) s).1 = .ok r) :
    ∀ cluster ∈ r.1, cluster.resumeSessions = resumes := by
  have hl := Keeps.logic (ε := Failure) (exec (T := T)) (· = s)
  have hkeeps : Keeps exec (· = s) (getClusters J settings orders) fun r =>
      ∀ cluster ∈ r.1, cluster.resumeSessions = resumes := by
    refine hl.bind (Q := (· = resumes)) ?_ ?_
    · rintro _ rfl
      rw [h]
      exact ⟨rfl, fun _ ha => (Except.ok.inj ha).symm⟩
    · rintro _ rfl
      refine hl.andThen (hl.ite (fun _ => hl.pure trivial) fun _ => hl.throw) fun n => ?_
      refine hl.andThen (hl.ite (fun _ => hl.pure trivial) fun _ => hl.throw) fun shards => ?_
      exact hl.bind (logic_buildClusters hl) fun clusters hclusters => hl.pure hclusters
  exact (hkeeps s rfl).2 r hr

/-- What is stored, if anything is, decodes. -/
theorem run_get_map {α : Type} {decode : T → Except SimdJsonError α} {key : String} {text : α → T}
    {value : Option α} (h : s.strings key = value.map text)
    (hdecode : ∀ a, decode (text a) = .ok a) :
    Fallible.run exec (get decode key) s = (.ok value, s) := by
  cases value with
  | none => exact run_get_none h
  | some a => exact run_get_some h (hdecode a)

/-- A round of `run_jobs` leaves the sessions it dumps, if a deadline does not name their key. -/
theorem strings_jobsRound (env : Env) (statuses : List StatusInfo) (sessions : Sessions) :
    ∃ stored : Option Sessions, (∀ m, stored = some m → m = sessions) ∧
      ((jobsRound J env statuses sessions).run exec s).2.strings SESSIONS_KEY =
        stored.map fun m => J.text (.sessions m) := by
  rw [jobsRound_eq, Prog.run_issue, Prog.run_issue, run_sweep, strings_hdel, strings_dropAll]
  split_ifs
  · exact ⟨none, nofun, rfl⟩
  · refine ⟨some sessions, fun m hm => (Option.some.inj hm).symm, ?_⟩
    simp

/-- Where the names of the stored sessions are numbers, `get_clusters` does not panic over them. -/
theorem getResumes_ne_panic (hJ : J.Lawful) (settings : Settings) (orders : Orders)
    {stored : Option Sessions} (hnamed : ∀ m, stored = some m → Named m)
    (h : s.strings SESSIONS_KEY = stored.map fun m => J.text (.sessions m)) :
    (Fallible.run exec (getResumes J settings orders) s).1 ≠ .error .panic := by
  have hok : ∀ total, Fallible.run exec (get J.shardsTotal SHARDS_KEY) s = (.ok total, s) →
      (Fallible.run exec (getResumes J settings orders) s).1 ≠ .error .panic := by
    intro total htotal
    obtain ⟨resumes, hrun, -⟩ := run_getResumes settings orders htotal (run_get_map h hJ.sessions) hnamed
    rw [hrun]
    exact nofun
  rcases htotal : s.strings SHARDS_KEY with _ | t
  · exact hok none (run_get_none htotal)
  · rcases hdecode : J.shardsTotal t with err | n
    · unfold getResumes
      split_ifs
      · rw [Fallible.run_bind, run_get_error htotal hdecode]
        exact nofun
      · exact nofun
    · exact hok (some n) (run_get_some htotal hdecode)

/-- `real_main` stores the sessions in one command. -/
theorem run_saveSessions (orders : Orders) (resumable : List (UInt64 × ResumeSession))
    (s : Store T) : Fallible.run exec (saveSessions J orders resumable) s =
      (.ok (), apply (.mset [(SESSIONS_KEY, J.text (.sessions (savedSessions resumable)))]) s) := by
  unfold saveSessions Fallible.run
  rw [run_set_eq (by decide)]
  rfl

/-- No shard is twice among those of clusters that have none in common. -/
theorem nodup_flatten {β : Type} {downs : List (List (UInt64 × β))}
    (hkeys : ∀ down ∈ downs, (down.map Prod.fst).Nodup)
    (hdisjoint : downs.Pairwise fun down down' =>
      (down.map Prod.fst).Disjoint (down'.map Prod.fst)) :
    (downs.flatten.map Prod.fst).Nodup := by
  rw [List.map_flatten, List.nodup_flatten, List.pairwise_map]
  refine ⟨fun l hl => ?_, hdisjoint⟩
  obtain ⟨down, hdown, rfl⟩ := List.mem_map.mp hl
  exact hkeys down hdown

/-- **Sessions survive a restart.** If `real_main` saves what the clusters, which have no shard in
common, return when they are brought down, then `get_clusters` of a process that resumes with the
stored number of shards gives every cluster the same sessions, and otherwise none. The names of the
sessions that a round of `run_jobs` dumps do not make it panic either. -/
theorem sessions_resumed (hJ : J.Lawful) (settings : Settings) (orders orders' : Orders)
    {downs : List (List (UInt64 × ResumeSession))}
    (hkeys : ∀ down ∈ downs, (down.map Prod.fst).Nodup)
    (hdisjoint : downs.Pairwise fun down down' =>
      (down.map Prod.fst).Disjoint (down'.map Prod.fst)) {total : Option UInt64}
    (htotal : s.strings SHARDS_KEY = total.map fun n => J.text (.shardsTotal n)) :
    (∃ s' resumes,
      Fallible.run exec (saveSessions J orders downs.flatten) s = (.ok (), s') ∧
      Fallible.run exec (getResumes J settings orders') s' = (.ok resumes, s') ∧
      (∀ r, (Fallible.run exec (getClusters J settings orders') s').1 = .ok r →
        ∀ cluster ∈ r.1, cluster.resumeSessions = resumes) ∧
      ∀ shard, resumes.lookup shard =
        if settings.resume = true ∧ total = some settings.shardsTotal then
          (downs.flatten.lookup shard).map fun r => ⟨none, r.sessionId, r.sequence⟩
        else none) ∧
    ∀ env statuses info (s : Store T), (Fallible.run exec (getResumes J settings orders')
      ((jobsRound J env statuses (dumpedSessions info)).run exec s).2).1 ≠ .error .panic := by
  refine ⟨?_, fun env statuses info s => ?_⟩
  · have hsaved := run_saveSessions (J := J) orders downs.flatten s
    have hshards : SESSIONS_KEY ≠ SHARDS_KEY := by decide
    generalize hs' : apply (.mset [(SESSIONS_KEY,
      J.text (.sessions (savedSessions downs.flatten)))]) s = s' at hsaved
    have hnumber : s'.strings SHARDS_KEY = total.map fun n => J.text (.shardsTotal n) := by
      rw [← hs', ← htotal]
      simp [hshards]
    have hsessions : s'.strings SESSIONS_KEY =
        (some (savedSessions downs.flatten)).map fun m => J.text (.sessions m) := by
      rw [← hs']
      simp
    obtain ⟨resumes, hrun, hlookup⟩ := run_getResumes settings orders'
      (run_get_map hnumber hJ.shardsTotal) (run_get_map hsessions hJ.sessions)
      fun m hm => Option.some.inj hm ▸ named_savedSessions _
    refine ⟨s', resumes, hsaved, hrun, fun r hr => resumeSessions_of_getClusters hrun hr,
      fun shard => ?_⟩
    rw [hlookup, Option.getD_some, lookup_savedSessions_eq (nodup_flatten hkeys hdisjoint),
      Option.map_map]
    rfl
  · obtain ⟨stored, hstored, h⟩ := strings_jobsRound (J := J) (s := s) env statuses
      (dumpedSessions info)
    exact getResumes_ne_panic hJ settings orders'
      (fun m hm => hstored m hm ▸ named_dumpedSessions info) h

/-- Two clusters of one shard each are brought down, and a process with two shards resumes. -/
theorem sessions_resumed_two : ∃ s' resumes,
    Fallible.run exec (saveSessions Json.plain .sorted
      [(0, ⟨none, "first", 1⟩), (1, ⟨none, "second", 2⟩)])
      (apply (.mset [(SHARDS_KEY, .shardsTotal 2)]) Store.empty) = (.ok (), s') ∧
    Fallible.run exec (getResumes Json.plain ⟨0, 1, 2, 2, true, .full, .of 9⟩ .sorted) s' =
      (.ok resumes, s') ∧
    resumes.lookup 0 = some ⟨none, "first", 1⟩ ∧ resumes.lookup 1 = some ⟨none, "second", 2⟩ := by
  have hkeys : ∀ down ∈ ([[(0, ⟨none, "first", 1⟩)], [(1, ⟨none, "second", 2⟩)]] :
      List (List (UInt64 × ResumeSession))), (down.map Prod.fst).Nodup := by decide
  have hdisjoint : ([[(0, ⟨none, "first", 1⟩)], [(1, ⟨none, "second", 2⟩)]] :
      List (List (UInt64 × ResumeSession))).Pairwise fun down down' =>
        (down.map Prod.fst).Disjoint (down'.map Prod.fst) := by simp
  have htotal : (apply (.mset [(SHARDS_KEY, .shardsTotal 2)]) Store.empty).strings SHARDS_KEY =
      (some 2).map fun n => Json.plain.text (.shardsTotal n) := rfl
  obtain ⟨⟨s', resumes, hsaved, hrun, -, hlookup⟩, -⟩ := sessions_resumed Json.plain_lawful
    ⟨0, 1, 2, 2, true, .full, .of 9⟩ .sorted .sorted hkeys hdisjoint htotal
  exact ⟨s', resumes, hsaved, hrun, (hlookup 0).trans rfl, (hlookup 1).trans rfl⟩

end TwilightDispatch
