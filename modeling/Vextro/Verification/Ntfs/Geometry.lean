import Vextro.Model.NtfsMount
import Vextro.Verification.Ntfs.Journal
import Vextro.Model.SectorWrites

/-! What a mount leaves of an earlier journal, and where a record of the MFT is read from and
written to.

The reader goes by clusters of `bytes_per_cluster` bytes and reads `sectors_per_cluster` sectors of
512 bytes of the one that the record starts in; the writer goes by sectors of 512 bytes from the
start of the MFT. -/

namespace Vextro.Ntfs

/-! ## Looking for a volume writes nothing -/

theorem ntfsReadRecord_disk (d : Drive) (s : Driver) (number : UInt64) :
    (ntfsReadRecord d s number).1.disk = s.disk := by
  simp only [ntfsReadRecord]
  split
  · rfl
  split
  · rfl
  · split <;> rfl

theorem ntfsTry_disk (d : Drive) (s : Driver) (partLba : Lba) :
    (ntfsTry d s partLba).1.disk = s.disk := by
  simp only [ntfsTry]
  split
  · rfl
  repeat' split
  all_goals first | rfl | skip
  all_goals
    rename_i hread
    exact (congrArg (fun r => r.1.disk) hread).symm.trans (ntfsReadRecord_disk d _ 0)

theorem tryVolumes_disk (d : Drive) (s : Driver) (lbas : List Lba) :
    (tryVolumes d s lbas).1.disk = s.disk := by
  induction lbas generalizing s with
  | nil => rfl
  | cons lba lbas ih =>
    have hone := ntfsTry_disk d s lba
    unfold tryVolumes
    split
    · next h => rw [h] at hone; exact hone
    · next h => rw [h] at hone; rw [ih, hone]

theorem ntfsMount_disk (d : Drive) (s : Driver) : (ntfsMount d s).disk = s.disk := by
  unfold ntfsMount
  split
  · rfl
  have htry := tryVolumes_disk d s (0 :: d.partTable.map Partition.start)
  split
  · next h => rw [h] at htry; exact htry
  next h =>
    rw [h] at htry
    rwa [ntfsReadRecord_disk]

/-! ## The records of an earlier session -/

/-- The sequence number in a slot's header. -/
def slotSeq (base : Lba) (disk : Disk) (i : ℕ) : UInt32 := (readHdr (disk (slotLba base i))).seq

/-- Slot `i` has the latest committed record for a sector, with this payload. -/
def IsLatest (base : Lba) (disk : Disk) (i : ℕ) (target : Lba) (payload : Sector) : Prop :=
  i < 128 ∧ slotRecord base disk i = some (target, payload) ∧
    ∀ j < 128, ∀ p, slotRecord base disk j = some (target, p) →
    slotSeq base disk j ≤ slotSeq base disk i

/-- The sectors of `after` hold what the log on `disk` has for them. -/
def Repaired (base : Lba) (disk after : Disk) : Prop :=
  ∀ i target payload, IsLatest base disk i target payload → after target = payload

/-- Wherever the volume is and whatever its size, a mount repairs just what needs no repair: it
leaves every sector as it is. -/
theorem mount_repairs_iff (d : Drive) (s : Driver) (partLba : Lba) (partSectors : UInt64) :
    Repaired (logBase partLba partSectors) s.disk (ntfsMount d s).disk ↔
      ∀ i target payload, IsLatest (logBase partLba partSectors) s.disk i target payload →
        s.disk target = payload := by
  unfold Repaired
  rw [ntfsMount_disk]

/-- The bytes of a sector that is zero but for some of them. -/
def sectorOf (bytes : List (ℕ × UInt8)) : Sector := fun i =>
  ((bytes.find? fun b => b.1 = i.val).map Prod.snd).getD 0

/-- Sixteen megabytes with an NTFS volume: clusters of eight sectors, records of 1024 bytes and
the first of them in cluster four. The first slot of its log has a committed record for
sector 48, which is still zero. -/
def interruptedDisk : Disk := fun lba =>
  if lba = 0 then
    sectorOf (((List.range 8).map (· + 3)).zip ntfsOem ++ [(12, 2), (13, 8), (48, 4), (64, 0xF6)])
  else if lba = 32 then
    sectorOf ((List.range 4).zip fileMagic ++ [(4, 48), (6, 3), (48, 1), (510, 1)])
  else if lba = 33 then sectorOf [(510, 1)]
  else if lba = 32511 then (jrnlHdr 1 48 (fun _ => 7) 1).sector
  else if lba = 32512 then fun _ => 7
  else fun _ => 0

def interrupted : Driver where
  mounted := false
  partLba := 0
  bytesPerCluster := 0
  bytesPerRecord := 0
  sectorsPerCluster := 0
  mftLcn := 0
  serial := 0
  recordsSeen := 0
  status := "not probed"
  record := fun _ => 0
  cluster := fun _ => 0
  jrnl := blankVolume.jrnl
  disk := interruptedDisk

theorem interrupted_latest : IsLatest (logBase 0 32768) interrupted.disk 0 48 fun _ => 7 := by
  have hseq : ∀ j < 128, slotSeq (logBase 0 32768) interruptedDisk j ≤
      slotSeq (logBase 0 32768) interruptedDisk 0 := by decide +kernel
  exact ⟨by decide, by decide +kernel, fun j hj _ _ => hseq j hj⟩

/-- The volume is mounted, and the write that was interrupted is still not there. -/
theorem mount_leaves_record_pending :
    let s := ntfsMount ⟨true, 32768, []⟩ interrupted
    s.mounted = true ∧ s.partLba = 0 ∧
    IsLatest (logBase 0 32768) interrupted.disk 0 48 (fun _ => 7) ∧
      ¬ Repaired (logBase 0 32768) interrupted.disk s.disk := by
  refine ⟨by decide +kernel, by decide +kernel, interrupted_latest, fun h => ?_⟩
  have hseven := h 0 48 _ interrupted_latest
  exact absurd (congrFun hseven 0) (by decide)

/-! ## Records of the MFT -/

open List

variable {d : Drive} {s : Driver} {number : UInt64} {raw : Bytes} {i k n : ℕ}

namespace Driver

/-- The record is inside the sectors that are read of its cluster, and a cluster is as long as they
are unless it is the first. -/
def aligned (s : Driver) (number : UInt64) : Bool :=
  s.within number + s.bytesPerRecord.toNat ≤ s.sectorsPerCluster.toNat * 512 &&
    (s.bytesPerCluster.toNat = s.sectorsPerCluster.toNat * 512 ||
      (s.byteOff number).toNat < s.bytesPerCluster.toNat)

end Driver

/-- What `ntfs_try` makes sure of. -/
structure Sized (s : Driver) : Prop where
  sector : s.bytesPerCluster.toNat = 512 * s.sectorsPerCluster.toNat ∨
    s.bytesPerCluster.toNat = 4096 * s.sectorsPerCluster.toNat
  cluster : 0 < s.sectorsPerCluster.toNat ∧ s.bytesPerCluster.toNat ≤ 65536
  record : 512 ≤ s.bytesPerRecord.toNat ∧ s.bytesPerRecord.toNat ≤ 4096
  whole : s.bytesPerRecord.toNat % 512 = 0

theorem recordBytes_whole {cpr : UInt8} {bpc : UInt32} (hbpc : bpc.toNat % 512 = 0)
    (hmax : bpc.toNat ≤ 65536) (h512 : 512 ≤ (recordBytes cpr bpc).toNat) :
    (recordBytes cpr bpc).toNat % 512 = 0 := by
  unfold recordBytes at h512 ⊢
  split_ifs at h512 ⊢ with hneg
  · generalize hj : (0 - cpr).toUInt32.toNat % 32 = j
    have hpow : ((1 : UInt32) <<< (0 - cpr).toUInt32).toNat = 2 ^ j := by
      have hlt : 2 ^ j < 2 ^ 32 := Nat.pow_lt_pow_right (by decide) (by omega)
      rw [UInt32.toNat_shiftLeft, hj, Nat.shiftLeft_eq, UInt32.toNat_one, Nat.one_mul,
        Nat.mod_eq_of_lt hlt]
    rw [hpow] at h512 ⊢
    have h9 : 9 ≤ j := (Nat.pow_le_pow_iff_right (a := 2) (by decide)).mp h512
    exact Nat.mod_eq_zero_of_dvd (Nat.pow_dvd_pow 2 h9)
  · have hcpr := cpr.toNat_lt
    have hlt : cpr.toNat * bpc.toNat < 2 ^ 32 :=
      (Nat.mul_le_mul hcpr.le hmax).trans_lt (by decide)
    rw [UInt32.toNat_mul, UInt8.toNat_toUInt32, Nat.mod_eq_of_lt hlt, Nat.mul_mod, hbpc]
    simp

theorem ntfsReadRecord_geometry {t : Driver} {ok : Bool} (h : ntfsReadRecord d s number = (t, ok)) :
    t.bytesPerCluster = s.bytesPerCluster ∧ t.sectorsPerCluster = s.sectorsPerCluster ∧
      t.bytesPerRecord = s.bytesPerRecord := by
  obtain rfl : (ntfsReadRecord d s number).1 = t := congrArg Prod.fst h
  simp only [ntfsReadRecord]
  repeat' split
  all_goals exact ⟨rfl, rfl, rfl⟩

theorem ntfsTry_sized {s₀ : Driver} {lba : Lba} (h : ntfsTry d s₀ lba = (s, true)) : Sized s := by
  simp only [ntfsTry] at h
  split at h
  · cases h
  rename_i boot _
  split_ifs at h with hoem hsector hspc hrecord hcluster
  any_goals cases h
  split at h
  · cases h
  rename_i t hread
  cases h
  obtain ⟨hbpc, hspt, hbpr⟩ := ntfsReadRecord_geometry hread
  simp only [Bool.or_eq_true, decide_eq_true_eq, not_or, UInt32.not_lt,
    UInt32.le_iff_toNat_le] at hrecord hcluster
  have hpos : 0 < (boot 13).toNat := Nat.pos_of_ne_zero fun h => hspc (UInt8.toNat_inj.mp h)
  have hlt := (boot 13).toNat_lt
  have hmul : ((le16 boot 11).toUInt32 * (boot 13).toUInt32).toNat = (le16 boot 11).toNat *
      (boot 13).toNat := by
    have hle := (le16 boot 11).toNat_lt
    exact Nat.mod_eq_of_lt ((Nat.mul_le_mul hle.le hlt.le).trans_lt (by decide))
  have hsize : (le16 boot 11).toNat = 512 ∨ (le16 boot 11).toNat = 4096 := by
    simp only [Bool.and_eq_true, decide_eq_true_eq, not_and, not_not] at hsector
    by_cases h512 : le16 boot 11 = 512
    · exact .inl (congrArg UInt16.toNat h512)
    · exact .inr (congrArg UInt16.toNat (hsector h512))
  have hwhole : (le16 boot 11).toNat * (boot 13).toNat % 512 = 0 := by
    rcases hsize with h | h <;> rw [h] <;> omega
  rw [hmul] at hcluster
  refine ⟨?_, ?_, ?_, ?_⟩ <;> simp only [hbpc, hspt, hbpr, hmul]
  · rcases hsize with h | h <;> simp [h]
  · exact ⟨hpos, hcluster⟩
  · exact hrecord
  · exact recordBytes_whole (by rwa [hmul]) (by rwa [hmul]) hrecord.1

/-! ## The same sectors -/

theorem Sized.byteOff_mod (h : Sized s) (number : UInt64) : (s.byteOff number).toNat % 512 = 0 := by
  have hwhole := h.whole
  rw [Driver.byteOff, UInt64.toNat_mul, UInt32.toNat_toUInt64, Nat.mod_mod_of_dvd _ (by decide),
    Nat.mul_mod, hwhole]
  rfl

theorem Driver.within_eq (s : Driver) (number : UInt64) :
    s.within number = (s.byteOff number).toNat % s.bytesPerCluster.toNat := UInt64.toNat_mod _ _

theorem Sized.within_mod (h : Sized s) (number : UInt64) : s.within number % 512 = 0 := by
  rw [Driver.within_eq, Nat.mod_mod_of_dvd _ (by rcases h.sector with h | h <;> rw [h] <;> omega)]
  exact h.byteOff_mod number

/-- The two ways to a byte of the MFT, in sectors from its start. -/
theorem start_eq_iff {b c : ℕ} (hn : 0 < n) (hc : c = 512 * n ∨ c = 4096 * n) :
    b / c * n + b % c / 512 = b / 512 ↔ c = n * 512 ∨ b < c := by
  have hdiv := Nat.div_add_mod b c
  have hlt : b % c < c := Nat.mod_lt b (by omega)
  generalize b / c = q at hdiv ⊢
  rcases hc with rfl | rfl <;> rw [Nat.mul_assoc, Nat.mul_comm n] at hdiv
  · exact iff_of_true (by omega) (.inl (by omega))
  · rcases Nat.eq_zero_or_pos q with rfl | hq
    · exact iff_of_true (by omega) (.inr (by omega))
    · have hle : n ≤ q * n := Nat.le_mul_of_pos_left _ hq
      exact iff_of_false (by omega) (by omega)

theorem Sized.sector_eq_iff (h : Sized s) (number : UInt64) (k : ℕ) :
    s.partLba + s.recordLcn number * s.sectorsPerCluster.toUInt64 + UInt64.ofNat
      ((s.within number + 512 * k) / 512) =
        s.recordLba number + UInt64.ofNat k ↔
      s.bytesPerCluster.toNat = s.sectorsPerCluster.toNat * 512 ∨
        (s.byteOff number).toNat < s.bytesPerCluster.toNat := by
  have hcancel : ∀ p m q c w b x : UInt64, p + (m + q) * c + (w + x) = p + m * c + b + x ↔
      q * c + w = b := by
    grind
  have hlt := (s.byteOff number).toNat_lt
  have hdiv := Nat.div_add_mod' (s.byteOff number).toNat s.bytesPerCluster.toNat
  have hle : (s.byteOff number).toNat / s.bytesPerCluster.toNat * s.sectorsPerCluster.toNat * 512 ≤
      (s.byteOff number).toNat / s.bytesPerCluster.toNat * s.bytesPerCluster.toNat := by
    rw [Nat.mul_assoc]
    exact Nat.mul_le_mul_left _ (by rcases h.sector with h | h <;> omega)
  rw [← start_eq_iff h.cluster.1 h.sector, Nat.add_mul_div_left _ _ (by decide), UInt64.ofNat_add,
    Driver.recordLcn, Driver.recordLba, hcancel,
    ← UInt64.toNat_inj, UInt64.toNat_add, UInt64.toNat_mul, UInt64.toNat_div, UInt64.toNat_div,
    UInt64.toNat_ofNat', UInt32.toNat_toUInt64, UInt32.toNat_toUInt64, Driver.within_eq,
    show UInt64.toNat 512 = 512 from rfl]
  omega

theorem Sized.sectors_agree_iff (h : Sized s) (number : UInt64) :
    s.readSectors number = (s.writeSectors number).map some ↔ s.aligned number := by
  have h512 := h.record.1
  have hwhole := h.whole
  have hwithin := h.within_mod number
  unfold Driver.readSectors Driver.writeSectors sectorsFrom Driver.aligned
  rw [map_map, map_inj_left, Bool.and_eq_true, Bool.or_eq_true, decide_eq_true_eq,
    decide_eq_true_eq, decide_eq_true_eq]
  constructor
  · intro hall
    have hlast := hall (s.bytesPerRecord.toNat / 512 - 1) (mem_range.mpr (by omega))
    split at hlast
    · exact ⟨by omega, (h.sector_eq_iff number _).mp (Option.some.inj hlast)⟩
    · cases hlast
  · rintro ⟨hfits, hstart⟩ k hk
    rw [mem_range] at hk
    rw [if_pos (by omega)]
    exact congrArg some ((h.sector_eq_iff number k).mpr hstart)

/-! ## Reading back -/

/-- The bytes of a record come from the sectors named, and where there is none from what was in the
buffer. -/
theorem Sized.recordAt_eq
    (h : Sized s) (number : UInt64) {cluster : Bytes} (hi : i < s.bytesPerRecord.toNat)
    (hread : ntfsReadClusters d s (s.recordLcn number) 1 = some cluster) :
    recordAt s cluster (s.within number) i = match (s.readSectors number)[i / 512]? with
      | some (some lba) => byteAt (s.disk lba) (i % 512)
      | _ => s.cluster (s.within number + i) := by
  have hwithin := h.within_mod number
  have hwhole := h.whole
  simp only [ntfsReadClusters, blkRead] at hread
  split at hread
  · cases hread
  obtain rfl := Option.some.inj hread
  rw [recordAt, if_pos hi, Driver.readSectors, getElem?_map, getElem?_range (by omega),
    Option.map_some, UInt32.one_mul]
  have hmod : (s.within number + i) % 512 = i % 512 := by omega
  have hdiv : (s.within number + i) / 512 = (s.within number + 512 * (i / 512)) / 512 := by omega
  by_cases hlt : s.within number + i < s.sectorsPerCluster.toNat * 512
  · rw [if_pos hlt, if_pos (by omega), hmod, hdiv]
  · rw [if_neg hlt, if_neg (by omega)]

theorem ntfsJournalWrite_plain {v : Volume} (h : v.jrnl.ready = false) (target : Lba)
    (data : Sector) :
    ntfsJournalWrite v target data = ⟨v.jrnl, Function.update v.disk target data⟩ := by
  simp [ntfsJournalWrite, journalSectors, applyWrites, h]

/-- Without a journal the sectors are written and nothing else. -/
theorem journalRun_disk {v : Volume} (hready : v.jrnl.ready = false) (lba : Lba) (f : ℕ → Sector)
    (hn : n ≤ 2 ^ 64) :
    let v' := (range n).foldl (fun v k => ntfsJournalWrite v (lba + UInt64.ofNat k) (f k)) v
    v'.jrnl.ready = false ∧ ∀ k < n, v'.disk (lba + UInt64.ofNat k) = f k := by
  induction n with
  | zero => exact ⟨hready, fun k hk => absurd hk (Nat.not_lt_zero k)⟩
  | succ n ih =>
    obtain ⟨hr, hd⟩ := ih (by omega)
    rw [range_succ, foldl_append, foldl_cons, ntfsJournalWrite_plain hr]
    refine ⟨hr, fun k hk => ?_⟩
    by_cases hkn : k = n
    · rw [hkn]
      exact Function.update_self _ _ _
    · have hne : lba + UInt64.ofNat k ≠ lba + UInt64.ofNat n := by
        rw [Ne, UInt64.add_right_inj, ← UInt64.toNat_inj, UInt64.toNat_ofNat', UInt64.toNat_ofNat']
        omega
      exact (Function.update_of_ne hne _ _).trans (hd k (by omega))

/-- Reader and writer go to the same sectors just for the records that lie in the part of a cluster
that is read; those are read back as they were written. -/
theorem record_geometry {s₀ : Driver} {lba : Lba} (h : ntfsTry d s₀ lba = (s, true))
    (number : UInt64) :
    (s.readSectors number = (s.writeSectors number).map some ↔ s.aligned number = true) ∧
      (s.aligned number = true → ∀ raw cluster,
        ntfsReadClusters d (s.replay.putRecord number raw) (s.recordLcn number) 1 = some cluster →
          ∀ i < s.bytesPerRecord.toNat, recordAt s cluster (s.within number) i = raw i) := by
  have hsized := ntfsTry_sized h
  have hagree := hsized.sectors_agree_iff number
  refine ⟨hagree, fun haligned raw cluster hread i hi => ?_⟩
  have hmax := hsized.record.2
  have hwhole := hsized.whole
  have hready : s.replay.jrnl.ready = false := by
    simp [Driver.replay, mountJournal, ntfsJournalInit, ntfsJournalReplay]
  have hput : Sized (s.replay.putRecord number raw) :=
    ⟨hsized.sector, hsized.cluster, hsized.record, hwhole⟩
  have hdisk := (journalRun_disk hready (s.recordLba number) (fun k i => raw (512 * k + i))
    (n := s.bytesPerRecord.toNat / 512) (by omega)).2 (i / 512) (by omega)
  have hsectors : (s.readSectors number)[i / 512]? = some
      (some (s.recordLba number + UInt64.ofNat (i / 512))) := by
    rw [hagree.mpr haligned, Driver.writeSectors, sectorsFrom, map_map, getElem?_map,
      getElem?_range (by omega)]
    rfl
  have hat := hput.recordAt_eq number hi hread
  rw [show (s.replay.putRecord number raw).readSectors number = s.readSectors number from rfl,
    hsectors] at hat
  have hbyte : byteAt
      ((s.replay.putRecord number raw).disk (s.recordLba number + UInt64.ofNat (i / 512)))
      (i % 512) = raw i := by
    rw [show (s.replay.putRecord number raw).disk (s.recordLba number + UInt64.ofNat (i / 512)) =
      _ from hdisk, byteAt, dif_pos (Nat.mod_lt i (by decide)), Nat.div_add_mod]
  refine Eq.trans ?_ (hat.trans hbyte)
  rw [recordAt, if_pos hi]
  exact (if_pos hi).symm

/-- Four records of 1024 bytes to a cluster. -/
theorem record_geometry_small : let s := (ntfsTry ⟨true, 32768, []⟩ interrupted 0).1
    s.readSectors 5 = (s.writeSectors 5).map some :=
  (record_geometry (Prod.ext rfl (by decide +kernel)) 5).1.mpr (by decide +kernel)

/-- The same volume with sectors of 4096 bytes: a cluster has 32768, and 4096 of them are read. -/
def largeSectors : Driver :=
  { interrupted with
    disk := Function.update interruptedDisk 0
      (sectorOf (((range 8).map (· + 3)).zip ntfsOem ++ [(12, 0x10), (13, 8), (48, 4), (64, 0xF6)]))
        }

/-- Record 4 is written to the sectors after the ones that are read for it. -/
theorem large_sectors_not_read : (ntfsTry ⟨true, 32768, []⟩ largeSectors 0).2 = true ∧
    let s := (ntfsTry ⟨true, 32768, []⟩ largeSectors 0).1
    s.writeSectors 4 = [40, 41] ∧ s.readSectors 4 = [none, none] := by
  decide +kernel

end Vextro.Ntfs
