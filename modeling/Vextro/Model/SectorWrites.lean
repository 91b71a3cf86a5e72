import Vextro.Model.FileCalls
import Vextro.Model.Journal
import Vextro.Verification.Shared.Run

/-! The sectors that the calls of `ntfs_ops.c` put on the disk, and which of them go through the
journal.

How a record or an index block is packed into its sectors is left open, so that a sector of
metadata may hold anything; file data is what the call was given. -/

namespace Vextro.Ntfs

/-! ## Where things are -/

structure Layout where
  partLba : Lba
  sectorsPerCluster : ℕ
  mftLcn : ℕ
  bitmapLcn : ℕ

def Layout.clusterLba (l : Layout) (lcn : ℕ) : Lba :=
  l.partLba + UInt64.ofNat (lcn * l.sectorsPerCluster)

def ntfsRecordLba (v : Mount) (l : Layout) (number : ℕ) : Lba :=
  l.clusterLba l.mftLcn + UInt64.ofNat (number * v.bytesPerRecord) / 512

/-! ## Changes -/

/-- One write of a call to the volume, with what it is meant to change. -/
inductive Change where
  | record (number : ℕ) (r : Record)
  | bitmap (lcn count : ℕ) (b : Bool)
  | block (lcn size : ℕ) (n : IxNode)
  | data (lcn : ℕ) (bytes : List UInt8)

/-- The clusters of an index block; a block smaller than a cluster has one. -/
def blockClusters (v : Mount) (size : ℕ) : ℕ :=
  if size / v.bytesPerCluster = 0 then 1 else size / v.bytesPerCluster

def Change.apply (v : Mount) (img : Image) : Change → Image
  | .record number r => img.setRecord number r
  | .bitmap lcn count b => img.mark lcn count b
  | .block lcn size n => img.setBlock lcn (blockClusters v size) n
  | .data lcn bytes => img.setBytes lcn bytes

/-- Everything but file data is metadata. -/
def Change.journaled : Change → Bool
  | .data _ _ => false
  | _ => true

/-- The sectors of `$Bitmap` with the bits of a run. -/
def bitmapTargets (v : Mount) (l : Layout) (lcn count : ℕ) : List Lba :=
  let bitsPerChunk := v.bytesPerCluster * 8
  let bit := lcn % bitsPerChunk
  let first := bit / 8 / 512
  let last := (bit + count - 1) / 8 / 512
  (List.range' first (last + 1 - first)).map fun s =>
    l.clusterLba (l.bitmapLcn + lcn / bitsPerChunk) + UInt64.ofNat s

def Change.targets (v : Mount) (l : Layout) : Change → List Lba
  | .record number _ => sectorsFrom (ntfsRecordLba v l number) (v.bytesPerRecord / 512)
  | .bitmap lcn count _ => bitmapTargets v l lcn count
  | .block lcn size _ => sectorsFrom (l.clusterLba lcn) (size / 512)
  | .data lcn _ => sectorsFrom (l.clusterLba lcn) l.sectorsPerCluster

/-- Sector `k` of some bytes. -/
def sectorAt (bytes : List UInt8) (k : ℕ) : Sector := fun i => bytes.getD (k * 512 + i) 0

/-- A change as it is carried out. -/
structure Issued (v : Mount) (l : Layout) where
  change : Change
  payload : List Sector
  whole : payload.length = (change.targets v l).length
  contents : ∀ lcn bytes, change = .data lcn bytes →
    payload = (List.range l.sectorsPerCluster).map (sectorAt bytes)

/-! ## Writes -/

structure Write where
  journaled : Bool
  target : Lba
  data : Sector

/-- `ntfs_journal_write` or `blk_write`, for one sector. -/
def Write.step (vol : Volume) (w : Write) : Volume :=
  if w.journaled then ntfsJournalWrite vol w.target w.data
  else { vol with disk := Function.update vol.disk w.target w.data }

def Issued.writes {v : Mount} {l : Layout} (i : Issued v l) : List Write :=
  (i.change.targets v l).zipWith (fun t p => ⟨i.change.journaled, t, p⟩) i.payload

/-- A call that completed, and the changes it was made of. -/
structure Traced (v : Mount) (l : Layout) where
  call : FsCall
  issued : List (Issued v l)

def Traced.writes {v : Mount} {l : Layout} (t : Traced v l) : List Write :=
  t.issued.flatMap Issued.writes

/-- The changes take the volume through just the states that the call takes it through. -/
def Traced.Follows {v : Mount} {l : Layout} (img : Image) (t : Traced v l) : Prop :=
  (t.issued.map Issued.change).scanl (Change.apply v) img = (t.call.crashImages v img).reverse

/-! ## Sessions -/

/-- What is on the volume, and the sectors it is in. -/
structure Session where
  img : Image
  vol : Volume

def Traced.step {v : Mount} {l : Layout} (s : Session) (t : Traced v l) : Session :=
  ⟨t.call.step v s.img, t.writes.foldl Write.step s.vol⟩

end Vextro.Ntfs
