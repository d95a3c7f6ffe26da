import TwilightDispatch.Division
import TwilightDispatch.Sessions

/-!
# Shards

`get_clusters` lays its clusters out over the shards one after the other. Its arithmetic never leaves
the unsigned 64-bit numbers, and every shard of the process is in one cluster
(`shards_partitioned`).
-/

namespace TwilightDispatch

open Atomic Redis Division

variable {T V S : Type}

/-! ## The layout -/

/-- The settings a process can serve: some of the shards there are, by at least one cluster. -/
structure Settings.Valid (settings : Settings) : Prop where
  start_le : settings.shardsStart ≤ settings.shardsEnd
  end_lt : settings.shardsEnd < settings.shardsTotal
  clusters_pos : 1 ≤ settings.clusters

/-- The number of shards of the process. -/
def Settings.shards (settings : Settings) : ℕ :=
  settings.shardsEnd.toNat - settings.shardsStart.toNat + 1

/-- Where the cluster `i` starts. -/
def Settings.first (settings : Settings) (i : ℕ) : ℕ :=
  settings.shardsStart.toNat + offset settings.shards settings.clusters.toNat i

/-- The cluster `i`. -/
def Settings.cluster (settings : Settings) (resumes : Resumes) (i : ℕ) : Cluster where
  fromShard := UInt64.ofNat (settings.first i)
  toShard := UInt64.ofNat (settings.first (i + 1) - 1)
  total := settings.shardsTotal
  resumeSessions := resumes

/-- All clusters. -/
def Settings.layout (settings : Settings) (resumes : Resumes) : List Cluster :=
  (List.range settings.clusters.toNat).map (settings.cluster resumes)

section Layout

variable {settings : Settings} {resumes : Resumes} {i : ℕ}

theorem Settings.first_zero : settings.first 0 = settings.shardsStart.toNat := by
  simp [Settings.first]

theorem Settings.first_succ : settings.first (i + 1) =
    settings.first i + share settings.shards settings.clusters.toNat i := by
  unfold Settings.first
  rw [offset_succ, Nat.add_assoc]

theorem Settings.first_mono (settings : Settings) : Monotone settings.first := fun _ _ h =>
  Nat.add_le_add_left (offset_mono h) _

/-- Every cluster but the first one comes after some shard. -/
theorem Settings.first_succ_pos : 0 < settings.first (i + 1) := by
  have hshards : 0 < settings.shards := Nat.succ_pos _
  have hshare := share_zero_pos (c := settings.clusters.toNat) hshards
  have hone : settings.first 1 ≤ settings.first (i + 1) := settings.first_mono (by omega)
  rw [Settings.first_succ, Settings.first_zero] at hone
  omega

namespace Settings.Valid

variable (h : settings.Valid)
include h

theorem clusters_toNat_pos : 0 < settings.clusters.toNat := UInt64.le_iff_toNat_le.mp h.clusters_pos

/-- The last cluster ends with the last shard. -/
theorem first_clusters : settings.first settings.clusters.toNat = settings.shardsEnd.toNat + 1 := by
  have hle := UInt64.le_iff_toNat_le.mp h.start_le
  unfold Settings.first
  rw [offset_self h.clusters_toNat_pos]
  unfold Settings.shards
  omega

theorem first_lt (hi : i ≤ settings.clusters.toNat) : settings.first i < 2 ^ 64 := by
  have hfirst := settings.first_mono hi
  have hend := UInt64.lt_iff_toNat_lt.mp h.end_lt
  have htotal := settings.shardsTotal.toNat_lt
  rw [h.first_clusters] at hfirst
  omega

theorem toNat_fromShard (hi : i ≤ settings.clusters.toNat) :
    (settings.cluster resumes i).fromShard.toNat = settings.first i :=
  UInt64.toNat_ofNat_of_lt' (h.first_lt hi)

theorem toNat_toShard (hi : i < settings.clusters.toNat) :
    (settings.cluster resumes i).toShard.toNat + 1 = settings.first (i + 1) := by
  have hlt : settings.first (i + 1) < 2 ^ 64 := h.first_lt hi
  have hpos : 0 < settings.first (i + 1) := Settings.first_succ_pos
  change (UInt64.ofNat _).toNat + 1 = _
  rw [UInt64.toNat_ofNat_of_lt' (show settings.first (i + 1) - 1 < 2 ^ 64 by omega)]
  omega

end Settings.Valid

theorem Settings.getElem?_layout {cluster : Cluster} :
    (settings.layout resumes)[i]? = some cluster ↔
      i < settings.clusters.toNat ∧ cluster = settings.cluster resumes i := by
  unfold Settings.layout
  rw [List.getElem?_map, Option.map_eq_some_iff]
  constructor
  · rintro ⟨j, hj, rfl⟩
    obtain ⟨hlt, rfl⟩ := List.getElem?_eq_some_iff.mp hj
    rw [List.length_range] at hlt
    rw [List.getElem_range]
    exact ⟨hlt, rfl⟩
  · rintro ⟨hlt, rfl⟩
    exact ⟨i, List.getElem?_range hlt, rfl⟩

end Layout

/-! ## The loop -/

section Loop

variable {settings : Settings} {resumes : Resumes} {i : ℕ}

theorem checkedAdd_ofNat {a b : ℕ} (h : a + b < 2 ^ 64) :
    (checkedAdd (UInt64.ofNat a) (UInt64.ofNat b) : Api T UInt64) = pure (UInt64.ofNat (a + b)) := by
  unfold checkedAdd
  rw [UInt64.toNat_ofNat_of_lt' (show a < 2 ^ 64 by omega),
    UInt64.toNat_ofNat_of_lt' (show b < 2 ^ 64 by omega), if_pos h, UInt64.ofNat_add]

theorem checkedSub_ofNat {a b : ℕ} (ha : a < 2 ^ 64) (h : b ≤ a) :
    (checkedSub (UInt64.ofNat a) (UInt64.ofNat b) : Api T UInt64) = pure (UInt64.ofNat (a - b)) := by
  have hle : UInt64.ofNat b ≤ UInt64.ofNat a := by
    rw [UInt64.le_iff_toNat_le, UInt64.toNat_ofNat_of_lt' ha,
      UInt64.toNat_ofNat_of_lt' (show b < 2 ^ 64 by omega)]
    exact h
  unfold checkedSub
  rw [if_pos hle, UInt64.ofNat_sub h]

/-- What the loop computes for the end of the cluster `i`. -/
theorem Settings.Valid.clusterEnd_eq (h : settings.Valid) (hi : i < settings.clusters.toNat)
    {base extra : UInt64} (hbase : base = UInt64.ofNat (settings.shards / settings.clusters.toNat))
    (hextra : extra.toNat = settings.shards % settings.clusters.toNat) :
    (clusterEnd base extra (UInt64.ofNat (settings.first i)) i : Api T UInt64) =
      pure (UInt64.ofNat (settings.first (i + 1) - 1)) := by
  have hlt : settings.first (i + 1) < 2 ^ 64 := h.first_lt hi
  have hpos : 0 < settings.first (i + 1) := Settings.first_succ_pos
  have hsucc : settings.first (i + 1) = settings.first i +
    (settings.shards / settings.clusters.toNat +
      if i < settings.shards % settings.clusters.toNat then 1 else 0) := Settings.first_succ
  unfold clusterEnd
  rw [hextra, hbase]
  split_ifs at hsucc ⊢ with hlarge
  · rw [checkedAdd_ofNat (by omega), hsucc]
    rfl
  · rw [checkedAdd_ofNat (by omega), pure_bind, show (1 : UInt64) = UInt64.ofNat 1 from rfl,
      checkedSub_ofNat (by omega) (by omega), hsucc]
    rfl

/-- After `k` rounds the loop has laid out the first `k` clusters. -/
theorem Settings.Valid.foldlM_layout (h : settings.Valid) {base extra : UInt64}
    (hbase : base = UInt64.ofNat (settings.shards / settings.clusters.toNat))
    (hextra : extra.toNat = settings.shards % settings.clusters.toNat) {k : ℕ}
    (hk : k ≤ settings.clusters.toNat) :
    ((List.range k).foldlM (fun (clusters, lastIndex) i => do
      let index ← clusterEnd base extra lastIndex i
      let cluster : Cluster := ⟨lastIndex, index, settings.shardsTotal, resumes⟩
      return (clusters ++ [cluster], ← checkedAdd index 1))
      (([] : List Cluster), settings.shardsStart) : Api T (List Cluster × UInt64)) =
      pure ((List.range k).map (settings.cluster resumes), UInt64.ofNat (settings.first k)) := by
  induction k with
  | zero =>
    rw [Settings.first_zero, UInt64.ofNat_toNat]
    rfl
  | succ k ih =>
    have hlt := h.first_lt hk
    have hpos : 0 < settings.first (k + 1) := Settings.first_succ_pos
    have hnext : settings.first (k + 1) - 1 + 1 = settings.first (k + 1) := Nat.sub_add_cancel hpos
    rw [List.range_succ, List.foldlM_append, ih (Nat.le_of_succ_le hk), pure_bind, List.foldlM_cons]
    dsimp only
    rw [h.clusterEnd_eq hk hbase hextra, pure_bind, show (1 : UInt64) = UInt64.ofNat 1 from rfl,
      checkedAdd_ofNat (by omega), hnext, pure_bind, pure_bind, List.foldlM_nil, List.map_append]
    rfl

theorem Settings.Valid.buildClusters_eq (h : settings.Valid) :
    (buildClusters settings (UInt64.ofNat settings.shards) resumes : Api T (List Cluster)) =
      pure (settings.layout resumes) := by
  have hne : settings.clusters ≠ 0 := by
    rintro hzero
    have hpos := h.clusters_toNat_pos
    rw [hzero] at hpos
    exact absurd hpos (by decide)
  have hshards : settings.shards < 2 ^ 64 := by
    have hlast := h.first_lt le_rfl
    rw [h.first_clusters] at hlast
    unfold Settings.shards
    omega
  have hbase : UInt64.ofNat settings.shards / settings.clusters =
      UInt64.ofNat (settings.shards / settings.clusters.toNat) := by
    rw [← UInt64.ofNat_toNat (x := UInt64.ofNat settings.shards / settings.clusters),
      UInt64.toNat_div, UInt64.toNat_ofNat_of_lt' hshards]
  have hextra : (UInt64.ofNat settings.shards % settings.clusters).toNat =
      settings.shards % settings.clusters.toNat := by
    rw [UInt64.toNat_mod, UInt64.toNat_ofNat_of_lt' hshards]
  unfold buildClusters
  rw [if_neg hne]
  exact congrArg (· >>= _) (h.foldlM_layout hbase hextra le_rfl)

/-- **`get_clusters` lays out the clusters**, and fails only if it cannot read the sessions. -/
theorem Settings.Valid.getClusters_eq (h : settings.Valid) (J : Json T V) (orders : Orders) :
    getClusters J settings orders = do
      let resumes ← getResumes J settings orders
      return (settings.layout resumes, ⟨settings.clusters, UInt64.ofNat settings.shards,
        UInt64.ofNat resumes.keys.card⟩) := by
  have hlast := h.first_lt le_rfl
  rw [h.first_clusters] at hlast
  have hle := UInt64.le_iff_toNat_le.mp h.start_le
  have hsub : (checkedSub settings.shardsEnd settings.shardsStart : Api T UInt64) =
      pure (UInt64.ofNat (settings.shardsEnd.toNat - settings.shardsStart.toNat)) := by
    rw [← checkedSub_ofNat settings.shardsEnd.toNat_lt hle, UInt64.ofNat_toNat, UInt64.ofNat_toNat]
  unfold getClusters
  refine bind_congr fun resumes => ?_
  rw [hsub, pure_bind, show (1 : UInt64) = UInt64.ofNat 1 from rfl, checkedAdd_ofNat (by omega),
    pure_bind, show settings.shardsEnd.toNat - settings.shardsStart.toNat + 1 = settings.shards from rfl,
    h.buildClusters_eq, pure_bind]

end Loop

/-! ## The partition -/

/-- The shard is in the range of the cluster. -/
def Cluster.Has (cluster : Cluster) (shard : UInt64) : Prop :=
  cluster.fromShard ≤ shard ∧ shard ≤ cluster.toShard

/-- The clusters divide the shards of the process among them, in order and as evenly as possible. -/
structure Settings.Partitions (settings : Settings) (clusters : List Cluster) : Prop where
  length : clusters.length = settings.clusters.toNat
  first : ∀ cluster, clusters[0]? = some cluster → cluster.fromShard = settings.shardsStart
  next : ∀ i cluster cluster', clusters[i]? = some cluster → clusters[i + 1]? = some cluster' →
    cluster'.fromShard.toNat = cluster.toShard.toNat + 1
  size : ∀ i cluster, clusters[i]? = some cluster → cluster.toShard.toNat + 1 =
    cluster.fromShard.toNat + (settings.shards / settings.clusters.toNat +
      if i < settings.shards % settings.clusters.toNat then 1 else 0)
  owner : ∀ shard, settings.shardsStart ≤ shard → shard ≤ settings.shardsEnd →
    ∃! i : ℕ, ∃ cluster, clusters[i]? = some cluster ∧ cluster.Has shard
  inside : ∀ cluster ∈ clusters, ∀ shard, cluster.Has shard →
    settings.shardsStart ≤ shard ∧ shard ≤ settings.shardsEnd
  nonempty : (∀ cluster ∈ clusters, cluster.fromShard ≤ cluster.toShard) ↔
    settings.clusters.toNat ≤ settings.shards
  empty : ∀ cluster ∈ clusters, cluster.toShard < cluster.fromShard →
    cluster.fromShard.toNat = cluster.toShard.toNat + 1

section Partition

variable {settings : Settings} {resumes : Resumes} {i : ℕ} {shard : UInt64}

namespace Settings.Valid

variable (h : settings.Valid)
include h

theorem size_eq (resumes : Resumes) (hi : i < settings.clusters.toNat) :
    (settings.cluster resumes i).toShard.toNat + 1 =
      (settings.cluster resumes i).fromShard.toNat + share settings.shards settings.clusters.toNat i := by
  rw [h.toNat_toShard hi, h.toNat_fromShard hi.le, Settings.first_succ]

theorem has_iff (hi : i < settings.clusters.toNat) : (settings.cluster resumes i).Has shard ↔
    settings.first i ≤ shard.toNat ∧ shard.toNat < settings.first (i + 1) := by
  have hto : (settings.cluster resumes i).toShard.toNat + 1 = settings.first (i + 1) :=
    h.toNat_toShard hi
  unfold Cluster.Has
  rw [UInt64.le_iff_toNat_le, UInt64.le_iff_toNat_le, h.toNat_fromShard hi.le, ← hto,
    Nat.lt_succ_iff]

theorem owner (hstart : settings.shardsStart ≤ shard) (hend : shard ≤ settings.shardsEnd) :
    ∃! i : ℕ, ∃ cluster, (settings.layout resumes)[i]? = some cluster ∧ cluster.Has shard := by
  have hfirst : settings.first 0 ≤ shard.toNat := by
    rw [Settings.first_zero]
    exact UInt64.le_iff_toNat_le.mp hstart
  have hlast : shard.toNat < settings.first settings.clusters.toNat := by
    rw [h.first_clusters]
    exact Nat.lt_succ_of_le (UInt64.le_iff_toNat_le.mp hend)
  obtain ⟨i, ⟨hi, hi'⟩, hunique⟩ := existsUnique_between settings.first_mono hfirst hlast
  have hlt : i < settings.clusters.toNat := by
    by_contra hge
    exact absurd (hlast.trans_le (settings.first_mono (not_lt.mp hge))) (not_lt.mpr hi)
  refine ⟨i, ⟨_, Settings.getElem?_layout.mpr ⟨hlt, rfl⟩, (h.has_iff hlt).mpr ⟨hi, hi'⟩⟩, ?_⟩
  rintro j ⟨cluster, hj, hhas⟩
  obtain ⟨hltj, rfl⟩ := Settings.getElem?_layout.mp hj
  exact hunique j ((h.has_iff hltj).mp hhas)

theorem inside (hi : i < settings.clusters.toNat) (hhas : (settings.cluster resumes i).Has shard) :
    settings.shardsStart ≤ shard ∧ shard ≤ settings.shardsEnd := by
  obtain ⟨hle, hlt⟩ := (h.has_iff hi).mp hhas
  have hstart := settings.first_mono (Nat.zero_le i)
  have hend := settings.first_mono (Nat.succ_le_of_lt hi)
  rw [Settings.first_zero] at hstart
  rw [h.first_clusters] at hend
  exact ⟨UInt64.le_iff_toNat_le.mpr (hstart.trans hle),
    UInt64.le_iff_toNat_le.mpr (Nat.lt_succ_iff.mp (hlt.trans_le hend))⟩

theorem from_le_to (hi : i < settings.clusters.toNat) :
    (settings.cluster resumes i).fromShard ≤ (settings.cluster resumes i).toShard ↔
      0 < share settings.shards settings.clusters.toNat i := by
  have hsize := h.size_eq resumes hi
  rw [UInt64.le_iff_toNat_le]
  omega

theorem partitions (resumes : Resumes) : settings.Partitions (settings.layout resumes) where
  length := by simp [Settings.layout]
  first cluster hcluster := by
    obtain ⟨hlt, rfl⟩ := Settings.getElem?_layout.mp hcluster
    rw [← UInt64.toNat_inj, h.toNat_fromShard hlt.le, Settings.first_zero]
  next i cluster cluster' hi hi' := by
    obtain ⟨hlt, rfl⟩ := Settings.getElem?_layout.mp hi
    obtain ⟨hlt', rfl⟩ := Settings.getElem?_layout.mp hi'
    rw [h.toNat_toShard hlt, h.toNat_fromShard hlt'.le]
  size i cluster hi := by
    obtain ⟨hlt, rfl⟩ := Settings.getElem?_layout.mp hi
    exact h.size_eq resumes hlt
  owner _ := h.owner
  inside cluster hcluster shard hhas := by
    obtain ⟨i, hi⟩ := List.mem_iff_getElem?.mp hcluster
    obtain ⟨hlt, rfl⟩ := Settings.getElem?_layout.mp hi
    exact h.inside hlt hhas
  nonempty := by
    rw [← forall_share_pos h.clusters_toNat_pos]
    constructor
    · intro hall i hi
      have hget : (settings.layout resumes)[i]? = some (settings.cluster resumes i) :=
        Settings.getElem?_layout.mpr ⟨hi, rfl⟩
      exact (h.from_le_to hi).mp (hall _ (List.mem_of_getElem? hget))
    · intro hshare cluster hcluster
      obtain ⟨i, hi⟩ := List.mem_iff_getElem?.mp hcluster
      obtain ⟨hlt, rfl⟩ := Settings.getElem?_layout.mp hi
      exact (h.from_le_to hlt).mpr (hshare i hlt)
  empty cluster hcluster hempty := by
    obtain ⟨i, hi⟩ := List.mem_iff_getElem?.mp hcluster
    obtain ⟨hlt, rfl⟩ := Settings.getElem?_layout.mp hi
    have hsize := h.size_eq resumes hlt
    have hlt := UInt64.lt_iff_toNat_lt.mp hempty
    omega

end Settings.Valid

/-- **The clusters partition the shards.** Whatever sessions it finds, `get_clusters` computes the
clusters without leaving the unsigned 64-bit numbers, and every shard of the process is in exactly
one of them. -/
theorem shards_partitioned {settings : Settings} (h : settings.Valid) (J : Json T V)
    (orders : Orders) :
    ∃ layout : Resumes → List Cluster,
      (getClusters J settings orders = do
        let resumes ← getResumes J settings orders
        return (layout resumes, ⟨settings.clusters, UInt64.ofNat settings.shards,
          UInt64.ofNat resumes.keys.card⟩)) ∧
      ∀ resumes, settings.Partitions (layout resumes) :=
  ⟨settings.layout, h.getClusters_eq J orders, h.partitions⟩

/-- Seven shards, and more clusters than shards. -/
theorem shards_partitioned_seven : ∃ layout : Resumes → List Cluster,
    ∀ resumes, (Settings.mk 3 9 16 10 true .full (.of 9)).Partitions (layout resumes) := by
  have hvalid : (Settings.mk 3 9 16 10 true .full (.of 9)).Valid :=
    ⟨by decide, by decide, by decide⟩
  obtain ⟨layout, -, h⟩ := shards_partitioned hvalid Json.plain .sorted
  exact ⟨layout, h⟩

end Partition

end TwilightDispatch
