import Vextro.Model.Journal
import Vextro.Model.Regions

/-! Finding an NTFS volume and mounting it, and the update sequences of what is written to it, after
`ntfs_ops.c`. The drive reports no errors. -/

namespace Vextro.Ntfs

/-- The entry of `part_table` for a partition. -/
structure Partition where
  start : Lba
  sectors : UInt64

/-- The selected drive, if there is one, with the partitions that were found on it. -/
structure Drive where
  present : Bool
  sectors : UInt64
  partTable : List Partition

/-- A static buffer of the driver, by offset. -/
abbrev Bytes := ℕ → UInt8

/-- The state of the driver and of the disk under it. -/
structure Driver where
  mounted : Bool
  partLba : Lba
  bytesPerCluster : UInt32
  bytesPerRecord : UInt32
  sectorsPerCluster : UInt32
  mftLcn : UInt64
  serial : UInt64
  recordsSeen : UInt64
  status : String
  /-- `ntfs_rec` -/
  record : Bytes
  /-- `ntfs_clu` -/
  cluster : Bytes
  jrnl : Jrnl
  disk : Disk

/-- `blk_read`: the buffer, with the sectors at its start. -/
def blkRead (d : Drive) (disk : Disk) (lba : Lba) (count : UInt32) (buf : Bytes) : Option Bytes :=
  if !d.present || d.sectors < lba + count.toUInt64 then none
  else some fun i =>
    if i < count.toNat * 512 then byteAt (disk (lba + UInt64.ofNat (i / 512))) (i % 512) else buf i

def le16 (b : Bytes) (offset : ℕ) : UInt16 :=
  UInt16.ofNat ((b offset).toNat + 256 * (b (offset + 1)).toNat)

def le64 (b : Bytes) (offset : ℕ) : UInt64 :=
  UInt64.ofNat ((List.range 8).foldr (fun i x => (b (offset + i)).toNat + 256 * x) 0)

/-! ## Records -/

/-- One round of the loop of `ntfs_apply_fixups`; none is a torn record. -/
def fixTail (size : UInt32) (fix : ℕ) (usn : UInt16) (raw : Bytes) (i : ℕ) : Option Bytes :=
  let off := i * 512 - 2
  if size.toNat < off + 2 then none
  else if le16 raw off ≠ usn then none
  else some (Function.update (Function.update raw off (raw (fix + 2 * i)))
    (off + 1) (raw (fix + 2 * i + 1)))

/-- `ntfs_apply_fixups`, with sectors of 512 bytes. -/
def ntfsApplyFixups (raw : Bytes) (size : UInt32) : Option Bytes :=
  let fixupOffset := (le16 raw 4).toNat
  let fixupCount := (le16 raw 6).toNat
  if fixupCount = 0 || size.toNat < fixupOffset + fixupCount * 2 then none
  else
    (List.range' 1 (fixupCount - 1)).foldlM (fixTail size fixupOffset (le16 raw fixupOffset)) raw

/-- `ntfs_read_clusters` into `ntfs_clu`. -/
def ntfsReadClusters (d : Drive) (s : Driver) (lcn : UInt64) (count : UInt32) : Option Bytes :=
  blkRead d s.disk (s.partLba + lcn * s.sectorsPerCluster.toUInt64) (count * s.sectorsPerCluster)
    s.cluster

def fileMagic : List UInt8 := [0x46, 0x49, 0x4C, 0x45]

/-- The record cut out of its cluster. -/
def recordAt (s : Driver) (cluster : Bytes) (within : ℕ) : Bytes := fun i =>
  if i < s.bytesPerRecord.toNat then cluster (within + i) else s.record i

/-- `ntfs_read_record` into `ntfs_rec`, and whether the record is sound. One cluster is read,
even for a record that is longer. -/
def ntfsReadRecord (d : Drive) (s : Driver) (number : UInt64) : Driver × Bool :=
  let byteOff := number * s.bytesPerRecord.toUInt64
  let lcn := s.mftLcn + byteOff / s.bytesPerCluster.toUInt64
  let within := (byteOff % s.bytesPerCluster.toUInt64).toNat
  match ntfsReadClusters d s lcn 1 with
  | none => (s, false)
  | some cluster =>
    let raw := recordAt s cluster within
    if (List.range 4).map raw ≠ fileMagic then
      ({ s with cluster := cluster, record := raw }, false)
    else
      match ntfsApplyFixups raw s.bytesPerRecord with
      | none => ({ s with cluster := cluster, record := raw }, false)
      | some fixed =>
        ({ s with cluster := cluster, record := fixed, recordsSeen := s.recordsSeen + 1 }, true)

/-! ## The boot sector -/

/-- `"NTFS    "` -/
def ntfsOem : List UInt8 := [0x4E, 0x54, 0x46, 0x53, 0x20, 0x20, 0x20, 0x20]

/-- The size of a record, from `clusters_per_record`: below zero it is the power of two in
bytes. A shift by more than 31 goes by its low five bits, as the processor does it. -/
def recordBytes (clustersPerRecord : UInt8) (bytesPerCluster : UInt32) : UInt32 :=
  if 0x80 ≤ clustersPerRecord then 1 <<< (0 - clustersPerRecord).toUInt32
  else clustersPerRecord.toUInt32 * bytesPerCluster

/-- `ntfs_try`. What it found out about a volume stays behind when it gives it up. -/
def ntfsTry (d : Drive) (s : Driver) (partLba : Lba) : Driver × Bool :=
  match blkRead d s.disk partLba 1 fun _ => 0 with
  | none => (s, false)
  | some boot =>
    let bytesPerSector := le16 boot 11
    let sectorsPerCluster := boot 13
    if (List.range 8).map (fun i => boot (3 + i)) ≠ ntfsOem then (s, false)
    else if bytesPerSector ≠ 512 && bytesPerSector ≠ 4096 then (s, false)
    else if sectorsPerCluster = 0 then (s, false)
    else
      let bytesPerCluster := bytesPerSector.toUInt32 * sectorsPerCluster.toUInt32
      let s := { s with
        partLba := partLba
        sectorsPerCluster := sectorsPerCluster.toUInt32
        bytesPerCluster := bytesPerCluster
        mftLcn := le64 boot 48
        serial := le64 boot 72
        bytesPerRecord := recordBytes (boot 64) bytesPerCluster }
      if s.bytesPerRecord < 512 || 4096 < s.bytesPerRecord then (s, false)
      else if 65536 < s.bytesPerCluster then (s, false)
      else
        match ntfsReadRecord d s 0 with
        | (s, false) => (s, false)
        | (s, true) => ({ s with mounted := true, status := "mounted read/write" }, true)

/-- The volumes that are offered to `ntfs_try`, up to the first it takes. -/
def tryVolumes (d : Drive) : Driver → List Lba → Driver × Bool
  | s, [] => (s, false)
  | s, lba :: lbas =>
    match ntfsTry d s lba with
    | (s, true) => (s, true)
    | (s, false) => tryVolumes d s lbas

/-- The journal of a volume just found, which `ntfs_mount` sets up for no sectors at all. -/
def Driver.replay (s : Driver) : Driver :=
  let v := mountJournal s.partLba 0 ⟨s.jrnl, s.disk⟩
  { s with jrnl := v.jrnl, disk := v.disk }

/-- `ntfs_mount`: the whole drive, then its partitions. The name in the root's
record, number five, is only printed. -/
def ntfsMount (d : Drive) (s : Driver) : Driver :=
  if !d.present then { s with status := "no disk" }
  else
    match tryVolumes d s (0 :: d.partTable.map Partition.start) with
    | (s, false) => { s with status := "no NTFS volume found" }
    | (s, true) => (ntfsReadRecord d s.replay 5).1

/-! ## Update sequences -/

def put16 (b : Bytes) (offset : ℕ) (x : UInt16) : Bytes := Regions.wrLE 2 b offset x.toNat

/-- It changes with every write, and is never zero. -/
def nextUsn (usn : UInt16) : UInt16 := if usn + 1 = 0 then 1 else usn + 1

/-- The loop of `ntfs_install_fixups` from `i` on. -/
def saveTails (size : UInt32) (fix : ℕ) (usn : UInt16) : ℕ → ℕ → Bytes → Option Bytes
  | 0, _, rec => some rec
  | fuel + 1, i, rec =>
      if i < (le16 rec 6).toNat then
        let off := i * 512 - 2
        if size.toNat < off + 2 then none
        else
          saveTails size fix usn fuel (i + 1)
          (put16 (put16 rec (fix + 2 * i) (le16 rec off)) off usn)
      else some rec

/-- `ntfs_install_fixups`, with sectors of 512 bytes. -/
def ntfsInstallFixups (rec : Bytes) (size : UInt32) : Option Bytes :=
  let fixupOffset := (le16 rec 4).toNat
  let fixupCount := (le16 rec 6).toNat
  if fixupCount = 0 || size.toNat < fixupOffset + fixupCount * 2 ||
    fixupCount ≠ size.toNat / 512 + 1 then none
  else
    let usn := nextUsn (le16 rec fixupOffset)
    saveTails size fixupOffset usn (fixupCount + 1) 1 (put16 rec fixupOffset usn)

/-- A write that has reached some sectors and not the others. -/
def torn (reached : ℕ → Bool) (new old : Bytes) : Bytes :=
  fun k => if reached (k / 512) then new k else old k

/-! ## Where a record is -/

namespace Driver

/-- How far into the MFT a record starts. -/
def byteOff (s : Driver) (number : UInt64) : UInt64 := number * s.bytesPerRecord.toUInt64

/-- How far into its cluster a record starts. -/
def within (s : Driver) (number : UInt64) : ℕ :=
  (s.byteOff number % s.bytesPerCluster.toUInt64).toNat

/-- `ntfs_record_lba` -/
def recordLba (s : Driver) (number : UInt64) : Lba :=
  s.partLba + s.mftLcn * s.sectorsPerCluster.toUInt64 + s.byteOff number / 512

/-- The cluster that `ntfs_read_record` reads. -/
def recordLcn (s : Driver) (number : UInt64) : UInt64 :=
  s.mftLcn + s.byteOff number / s.bytesPerCluster.toUInt64

/-- The sectors `ntfs_read_record` takes a record from; none is one it has not read. -/
def readSectors (s : Driver) (number : UInt64) : List (Option Lba) :=
  (List.range (s.bytesPerRecord.toNat / 512)).map fun k =>
    if s.within number + 512 * k < s.sectorsPerCluster.toNat * 512 then
      some (s.partLba + s.recordLcn number * s.sectorsPerCluster.toUInt64 +
        UInt64.ofNat ((s.within number + 512 * k) / 512))
    else none

/-- The sectors `ntfs_write_record` writes. -/
def writeSectors (s : Driver) (number : UInt64) : List Lba :=
  sectorsFrom (s.recordLba number) (s.bytesPerRecord.toNat / 512)

/-- `ntfs_write_record`, from `ntfs_journal_write_run` on. -/
def putRecord (s : Driver) (number : UInt64) (raw : Bytes) : Driver :=
  let v := (List.range (s.bytesPerRecord.toNat / 512)).foldl (fun v k =>
    ntfsJournalWrite v (s.recordLba number + UInt64.ofNat k) fun i => raw (512 * k + i))
    ⟨s.jrnl, s.disk⟩
  { s with jrnl := v.jrnl, disk := v.disk }

end Driver

end Vextro.Ntfs
