import Vextro.Model.Zim
import Vextro.Verification.Shared.Run

/-! A blob is the same from the cluster in the buffer as from one that is loaded for it. -/

namespace Vextro.Zim

variable {z : Archive} {c c' : Cache} {n blob : UInt32} {comp : UInt8}
  {payload dbuf bytes : List UInt8}

/-- The load of a cluster gets through, or empties the buffer, as zstd does, or leaves everything as
it is. -/
def Cache.Survives (z : Archive) (c : Cache) (info : UInt8) (payload : List UInt8) : Prop :=
  (info &&& 0x0F = 0 ∨ info &&& 0x0F = 1) ∧ payload.length ≤ zimDbufMax ∨
    info &&& 0x0F = 4 ∧ (z.xzDecode payload).isOk ∨ info &&& 0x0F = 5 ∨
    info &&& 0x0F ≠ 4 ∧ (info &&& 0x10 != 0) = c.cachedExt

theorem unpackCluster_ok (h : unpackCluster z comp payload dbuf = .ok bytes) (dbuf' : List UInt8) :
    unpackCluster z comp payload dbuf' = .ok bytes := by
  unfold unpackCluster at h ⊢
  split at h
  case h_1 | h_2 => split at h <;> simp_all
  case h_3 => exact h
  case h_4 => cases hx : z.xzDecode payload <;> simp_all [Except.mapError]
  all_goals cases h

theorem unpackCluster_failed
    {info : UInt8} {e : String} {left : List UInt8} (hc : c.Survives z info payload)
    (h : unpackCluster z (info &&& 0x0F) payload dbuf = .error (e, left)) :
    left = [] ∨ left = dbuf ∧ (info &&& 0x10 != 0) = c.cachedExt := by
  rw [Cache.Survives] at hc
  generalize info &&& 0x0F = comp at hc h
  rcases hc with ⟨rfl | rfl, hlen⟩ | ⟨rfl, hok⟩ | rfl | ⟨hne, hext⟩
  · simp [unpackCluster, Nat.not_lt.mpr hlen] at h
  · simp [unpackCluster, Nat.not_lt.mpr hlen] at h
  · rw [unpackCluster] at h
    cases hx : z.xzDecode payload <;> simp_all [Except.mapError, Except.isOk, Except.toBool]
  · rw [unpackCluster] at h
    cases hx : z.zstdDecode payload <;> simp_all [Except.mapError]
  · unfold unpackCluster at h
    split at h
    case h_1 | h_2 => split at h <;> simp_all
    case h_3 => cases hx : z.zstdDecode payload <;> simp_all [Except.mapError]
    all_goals simp_all

/-- The buffer is empty, or as if its cluster had been loaded first. -/
def Cache.Right (z : Archive) (c : Cache) : Prop :=
  c.dbuf = [] ∨ zimLoadCluster z .fresh c.cached = (c, .ok ())

theorem readCluster_last (z : Archive) :
    readCluster z 0xFFFFFFFF = .error "cluster out of range" := by
  have hle : z.clusterCount ≤ 0xFFFFFFFF :=
    UInt32.le_iff_toNat_le.mpr (Nat.le_of_lt_succ z.clusterCount.toNat_lt)
  rw [readCluster, zimClusterRange, if_pos hle]
  rfl

/-- A load that gets through leaves nothing of what was there before. -/
theorem zimLoadCluster_fresh (hne : c.cached ≠ n) (h : zimLoadCluster z c n = (c', .ok ())) :
    zimLoadCluster z .fresh n = (c', .ok ()) ∧ c'.cached = n := by
  rw [zimLoadCluster, if_neg hne] at h
  have hlast : Cache.fresh.cached ≠ n := by
    rintro rfl
    simp [Cache.fresh, readCluster_last] at h
  rw [zimLoadCluster, if_neg hlast]
  split at h
  · cases h
  split at h
  · cases h
  · rename_i hu
    cases h
    rw [unpackCluster_ok hu]
    exact ⟨rfl, rfl⟩

theorem Cache.Right.load (h : c.Right z) (hc : c.cached ≠ n →
      ∀ info payload, readCluster z n = .ok (info, payload) → c.Survives z info payload) :
    (zimLoadCluster z c n).1.Right z := by
  by_cases hne : c.cached = n
  · rwa [zimLoadCluster, if_pos hne]
  rcases hl : zimLoadCluster z c n with ⟨c', _ | _⟩
  · rw [zimLoadCluster, if_neg hne] at hl
    split at hl
    · cases hl
      exact h
    rename_i hr
    split at hl <;> cases hl
    rename_i hu
    rcases unpackCluster_failed (hc hne _ _ hr) hu with hempty | ⟨rfl, hext⟩
    · exact .inl hempty
    · rwa [hext]
  · obtain ⟨hfresh, hcached⟩ := zimLoadCluster_fresh hne hl
    exact .inr (hcached ▸ hfresh)

theorem findBlob_empty (h : c.dbuf = []) (i : UInt32) :
    findBlob c i = .error "cluster is empty" := by
  have hlt : c.dbuf.length < if c.cachedExt then 8 else 4 := by
    rw [h]
    split <;> decide
  rw [findBlob, if_pos hlt]
  rfl

theorem zimBlob_fresh (h : c.Right z) (hok : (zimBlob z c n blob).2 = .ok bytes) :
    (zimBlob z .fresh n blob).2 = .ok bytes := by
  rw [zimBlob] at hok ⊢
  rcases hl : zimLoadCluster z c n with ⟨c', _ | _⟩ <;> rw [hl] at hok
  · cases hok
  by_cases hne : c.cached = n
  · rw [zimLoadCluster, if_pos hne] at hl
    cases hl
    rcases h with hempty | hright
    · simp [findBlob_empty hempty] at hok
    · rw [← hne, hright]
      exact hok
  · rw [(zimLoadCluster_fresh hne hl).1]
    exact hok

/-- The cache after a call. -/
def called (z : Archive) (c : Cache) (call : UInt32 × UInt32) : Cache :=
  (zimBlob z c call.1 call.2).1

/-- As long as the cache survives every load, a blob does not depend on the calls before. -/
theorem cluster_cache_transparent (z : Archive) (calls : List (UInt32 × UInt32))
    (hcalls : Run.Meets (called z) (fun c call => c.cached ≠ call.1 → ∀ info payload,
      readCluster z call.1 = .ok (info, payload) → c.Survives z info payload) .fresh calls)
    (k : ℕ) (cluster blob : UInt32) (bytes : List UInt8)
    (hok : (zimBlob z ((calls.take k).foldl (called z) .fresh) cluster blob).2 = .ok bytes) :
    (zimBlob z .fresh cluster blob).2 = .ok bytes := by
  refine zimBlob_fresh
    (Run.invariant_take (I := Cache.Right z) (fun c call hI hcall => ?_) (.inl rfl) hcalls k) hok
  have hload := hI.load hcall
  rw [called, zimBlob]
  split <;> simp_all

/-- Two clusters: one stored as it is, and an extended one that is said to be zlib. -/
def twoClusters : Archive where
  clusterCount := 2
  clusterPtrPos := 0
  checksumPos := 42
  fsPread off len := some (([16, 0, 0, 0, 0, 0, 0, 0, 41, 0, 0, 0, 0, 0, 0, 0, 1,
    24, 0, 0, 0, 0, 0, 0, 0, 1, 0, 0, 0, 0, 0, 0, 0, 2, 0, 0, 0, 0, 0, 0, 0,
    0x12].drop off.toNat).take len)
  zstdDecode _ := .error "not a zstd frame"
  xzDecode _ := .error "not an xz stream"
  xzLeaves _ dbuf := dbuf

theorem cluster_cache_transparent_again :
    (zimBlob twoClusters ([(0, 1)].foldl (called twoClusters) .fresh) 0 1).2 = .ok [24] ∧
      (zimBlob twoClusters .fresh 0 1).2 = .ok [24] := by
  have hok : (zimBlob twoClusters ([(0, 1)].foldl (called twoClusters) .fresh) 0 1).2 =
      .ok [24] := by decide +kernel
  have hstored : (readCluster twoClusters 0).toOption.all
      (fun r => r.1 &&& 0x0F == 1 && r.2.length ≤ zimDbufMax) := by decide +kernel
  refine ⟨hok,
    cluster_cache_transparent _ [(0, 1)] ⟨fun _ info payload hread => .inl ?_, trivial⟩ 1 0 1 _ hok⟩
  rw [hread] at hstored
  exact And.imp_left .inr (by simpa [Except.toOption] using hstored)

/-- The second load fails: the buffer still counts as the first cluster, and is read with the flag
of the second. -/
theorem failed_load_relabels :
    (zimBlob twoClusters ([(0, 1), (1, 0)].foldl (called twoClusters) .fresh) 0 1).2 = .ok [0] ∧
      (zimBlob twoClusters .fresh 0 1).2 = .ok [24] := by
  decide +kernel

end Vextro.Zim
