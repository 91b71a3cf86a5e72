import Mathlib.Data.List.Basic

/-! The write-ahead journal of the NTFS driver, after `ntfs_ops.c`. -/

namespace Vextro.Ntfs

/-! ## Sectors -/

abbrev Lba := UInt64

abbrev Sector := Fin 512 → UInt8

abbrev Disk := Lba → Sector

def byteAt (s : Sector) (i : ℕ) : UInt8 := if h : i < 512 then s ⟨i, h⟩ else 0

/-- The low `n` bytes of a number, least significant first. -/
def leBytes : ℕ → ℕ → List UInt8
  | 0, _ => []
  | n + 1, x => UInt8.ofNat x :: leBytes n (x / 256)

/-- The number in `n` bytes from an offset on, least significant first. -/
def readLe (s : Sector) : ℕ → ℕ → ℕ
  | _, 0 => 0
  | offset, n + 1 => (byteAt s offset).toNat + 256 * readLe s (offset + 1) n

/-- Sectors written one after the other, as they reach the disk. -/
def applyWrites (disk : Disk) (writes : List (Lba × Sector)) : Disk :=
  writes.foldl (fun disk w => Function.update disk w.1 w.2) disk

def sectorsFrom (lba : Lba) (count : ℕ) : List Lba :=
  (List.range count).map fun k => lba + UInt64.ofNat k

/-! ## The log -/

def jrnlMagic : UInt32 := 0x564A524E

def jrnlSectors : ℕ := 256

def jrnlPayload : UInt32 := 512

structure JrnlHdr where
  magic : UInt32
  seq : UInt32
  targetLba : Lba
  length : UInt32
  checksum : UInt32
  committed : UInt32
  reserved : UInt32
deriving DecidableEq

/-- The packed header, in memory order. -/
def JrnlHdr.bytes (h : JrnlHdr) : List UInt8 :=
  leBytes 4 h.magic.toNat ++ leBytes 4 h.seq.toNat ++ leBytes 8 h.targetLba.toNat ++
    leBytes 4 h.length.toNat ++ leBytes 4 h.checksum.toNat ++ leBytes 4 h.committed.toNat ++
    leBytes 4 h.reserved.toNat

/-- The first sector of a slot: the header, then zeros. -/
def JrnlHdr.sector (h : JrnlHdr) : Sector := fun i => h.bytes.getD i 0

def readHdr (s : Sector) : JrnlHdr where
  magic := UInt32.ofNat (readLe s 0 4)
  seq := UInt32.ofNat (readLe s 4 4)
  targetLba := UInt64.ofNat (readLe s 8 8)
  length := UInt32.ofNat (readLe s 16 4)
  checksum := UInt32.ofNat (readLe s 20 4)
  committed := UInt32.ofNat (readLe s 24 4)
  reserved := UInt32.ofNat (readLe s 28 4)

/-- FNV-1a -/
def ntfsChecksum (s : Sector) : UInt32 :=
  (List.ofFn s).foldl (fun h b => (h ^^^ b.toUInt32) * 16777619) 2166136261

structure Jrnl where
  ready : Bool
  baseLba : Lba
  next : UInt32
  seq : UInt32
  replayed : UInt32
  writes : UInt32

structure Volume where
  jrnl : Jrnl
  disk : Disk

/-- `ntfs_journal_init`: the last sectors of the partition but one, if it is big enough. -/
def ntfsJournalInit (j : Jrnl) (partLba partSectors : UInt64) : Jrnl × Bool :=
  let j := { j with ready := false, next := 0, seq := 1, replayed := 0, writes := 0 }
  if partSectors < 256 * 2 + 16 then (j, false)
  else ({ j with baseLba := partLba + partSectors - 256 - 1, ready := true }, true)

def slotLba (base : Lba) (i : ℕ) : Lba := base + UInt64.ofNat i * 2

/-- Whether replay takes a record: committed, whole, with a payload that matches. -/
def applies (h : JrnlHdr) (payload : Sector) : Bool :=
  h.magic = jrnlMagic && h.committed ≠ 0 && h.length = jrnlPayload &&
    ntfsChecksum payload = h.checksum

/-- One round of the loop in `ntfs_journal_replay`: the disk, the number of records applied
and the highest sequence number among them. -/
def replaySlot (base : Lba) (r : Disk × UInt32 × UInt32) (i : ℕ) : Disk × UInt32 × UInt32 :=
  let h := readHdr (r.1 (slotLba base i))
  let payload := r.1 (slotLba base i + 1)
  if applies h payload then
    (Function.update r.1 h.targetLba payload, r.2.1 + 1, if r.2.2 < h.seq then h.seq else r.2.2)
  else r

def ntfsJournalReplay (v : Volume) : Volume :=
  if !v.jrnl.ready then v
  else
    let r := (List.range (jrnlSectors / 2)).foldl (replaySlot v.jrnl.baseLba) (v.disk, 0, 0)
    { disk := r.1, jrnl := { v.jrnl with replayed := r.2.1, seq := r.2.2 + 1 } }

/-- The header `ntfs_journal_write` puts in its slot. -/
def jrnlHdr (seq : UInt32) (target : Lba) (data : Sector) (committed : UInt32) : JrnlHdr where
  magic := jrnlMagic
  seq := seq
  targetLba := target
  length := jrnlPayload
  checksum := ntfsChecksum data
  committed := committed
  reserved := 0

/-- The slot the next record goes to. -/
def Jrnl.slot (j : Jrnl) : ℕ := j.next.toNat % (jrnlSectors / 2)

/-- The sectors `ntfs_journal_write` writes, in order. There is a flush after the second, the
third and the fourth, so what a crash leaves is a first part of the list. -/
def journalSectors (j : Jrnl) (target : Lba) (data : Sector) : List (Lba × Sector) :=
  if !j.ready then [(target, data)]
  else
    let lba := slotLba j.baseLba j.slot
    [(lba, (jrnlHdr j.seq target data 0).sector), (lba + 1, data),
      (lba, (jrnlHdr j.seq target data 1).sector), (target, data)]

def ntfsJournalWrite (v : Volume) (target : Lba) (data : Sector) : Volume :=
  { disk := applyWrites v.disk (journalSectors v.jrnl target data)
    jrnl := if !v.jrnl.ready then v.jrnl
      else { v.jrnl with
        next := v.jrnl.next + 1, seq := v.jrnl.seq + 1, writes := v.jrnl.writes + 1 } }

/-! ## Sessions -/

/-- What happens to a volume between two crashes. -/
inductive Call where
  | mount
  | write (target : Lba) (data : Sector)

/-- `ntfs_journal_init` and `ntfs_journal_replay`, as at every mount. -/
def mountJournal (partLba partSectors : UInt64) (v : Volume) : Volume :=
  ntfsJournalReplay { v with jrnl := (ntfsJournalInit v.jrnl partLba partSectors).1 }

def Call.step (partLba partSectors : UInt64) (v : Volume) : Call → Volume
  | .mount => mountJournal partLba partSectors v
  | .write target data => ntfsJournalWrite v target data

/-- The disk after a crash that lets the first `k` sectors of a write through. -/
def crashDisk (v : Volume) (target : Lba) (data : Sector) (k : ℕ) : Disk :=
  applyWrites v.disk ((journalSectors v.jrnl target data).take k)

end Vextro.Ntfs
