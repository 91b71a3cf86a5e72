import Vextro.Verification.Shared.BlockTree

/-! The volume the NTFS driver works on, and how it hands out clusters and FILE records:
`ntfs_ops.c`.

A FILE record and an index block are kept as what they say rather than as bytes: the sizes the
driver computes from them are computed here from their contents. `$Bitmap` is kept as the set
of clusters it marks used: a chunk of it is a whole cluster, as it is on a disk with sectors of
512 bytes. A disk with larger sectors, of whose clusters `ntfs_read_clusters` then fills a part
only, is not modelled. -/

namespace Vextro.Ntfs

open BlockTree (Node)

/-! ## Names -/

def upcase (c : UInt16) : UInt16 := if 0x61 ≤ c ∧ c ≤ 0x7A then c - 0x61 + 0x41 else c

/-- The collation of a directory: a name of the volume against a C string. -/
def ntfsNameCmp : List UInt16 → List UInt8 → Ordering
  | [], [] => .eq
  | [], _ :: _ => .lt
  | _ :: _, [] => .gt
  | a :: as, b :: bs =>
    if upcase a = upcase b.toUInt16 then ntfsNameCmp as bs
    else if upcase a < upcase b.toUInt16 then .lt else .gt

/-- The name as bytes, into a buffer of 256: what does not fit a byte becomes `?`. -/
def ntfsNameToAscii (name : List UInt16) : List UInt8 :=
  (name.take 255).map fun c => if c ≠ 0 ∧ c < 0x80 then c.toUInt8 else 0x3F

/-! ## Records and blocks -/

/-- A directory entry: the reference and the `$FILE_NAME` value beside it. -/
structure Entry where
  ref : ℕ
  name : List UInt16
  space : UInt8
  isDir : Bool
  realSize : ℕ
  allocSize : ℕ
  time : ℕ
  short : name.length ≤ 255
  deriving DecidableEq

/-- A node of a directory index: `$INDEX_ROOT` or an index block. -/
abbrev IxNode := Node Entry ℕ

structure Run where
  lcn : ℕ
  length : ℕ
  sparse : Bool
  deriving DecidableEq

inductive Data where
  | resident (bytes : List UInt8)
  | nonResident (runs : List Run) (allocSize realSize : ℕ)
  deriving DecidableEq

/-- A resident `$INDEX_ROOT`. -/
structure IndexRoot where
  blockSize : ℕ
  node : IxNode
  deriving DecidableEq

/-- A FILE record. `otherBytes` counts what is in use besides index entries, the run list of
the index and its bitmap. -/
structure Record where
  inUse : Bool
  isDir : Bool
  sequence : ℕ
  otherBytes : ℕ
  data : Option Data
  indexRoot : Option IndexRoot
  indexAlloc : Option (List Run)
  bitmap : Option (List Bool)
  deriving DecidableEq

/-- What a cluster holds: bytes, or one part of an index block. -/
inductive Cluster where
  | bytes (data : List UInt8)
  | indx (node : IxNode) (part : ℕ)
  deriving DecidableEq

/-- The contents of the volume; a record that does not read is `none`. -/
structure Image where
  mft : ℕ → Option Record
  cluster : ℕ → Cluster
  used : ℕ → Bool

/-- Where `$Bitmap` says the clusters of the volume end. -/
structure Bitmap where
  clusters : ℕ
  totalClusters : ℕ
  deriving DecidableEq

/-- The mounted volume. `bitmap` is what `ntfs_bitmap_load` finds, and `loaded` that it has done
so. The last two are what it leaves in the buffer of a record whose runs are being walked: the
runs the walk goes on to read in the bytes of `$Bitmap`'s record, and the record there if that one
does not read. -/
structure Mount where
  mounted : Bool
  bytesPerCluster : ℕ
  bytesPerRecord : ℕ
  bitmap : Option Bitmap
  loaded : Bool
  strayRuns : List Run
  strayRecord : Record

/-! ## Operations -/

inductive Status where
  | nospace | io | nameExists | notFound | tooBig | readOnly
  deriving DecidableEq

/-- What an operation returns when it does not return `NTFS_W_OK`: its status, and the message
it leaves in `ntfs_w_errstr` if it leaves one. -/
structure Refusal where
  status : Status
  errstr : Option String
  deriving DecidableEq

/-- The state of an operation: the directory record it has in memory, the volume, what the volume
was before each write so far, the latest first, and whether `$Bitmap` is loaded. -/
structure Work where
  dir : Record
  img : Image
  past : List Image
  loaded : Bool

abbrev Op := EStateM Refusal Work

def refuse {α : Type} (status : Status) (errstr : String) : Op α := throw ⟨status, some errstr⟩

/-- A refusal that sets no message. -/
def refuseQuietly {α : Type} (status : Status) : Op α := throw ⟨status, none⟩

/-- Go on if `c` holds. -/
def require (c : Prop) [Decidable c] (status : Status) (errstr : String) : Op Unit :=
  if c then pure () else refuse status errstr

def requireQuietly (c : Prop) [Decidable c] (status : Status) : Op Unit :=
  if c then pure () else refuseQuietly status

/-- Run `m`, and `undo` before passing a refusal on. -/
def undoing {α : Type} (undo : Op Unit) (m : Op α) : Op α := fun s =>
  match m s with
  | .ok a s => .ok a s
  | .error e s =>
    match undo s with
    | .ok _ s => .error e s
    | .error _ s => .error e s

/-- One write to the volume. -/
def write (f : Image → Image) : Op Unit :=
  modify fun s => { s with img := f s.img, past := s.img :: s.past }

/-- Change the directory record in memory. -/
def modifyDir (f : Record → Record) : Op Unit := modify fun s => { s with dir := f s.dir }

def Image.setRecord (number : ℕ) (r : Record) (img : Image) : Image :=
  { img with mft := Function.update img.mft number (some r) }

def ntfsWriteRecord (number : ℕ) (r : Record) : Op Unit := write (Image.setRecord number r)

/-! ## `$Bitmap` -/

def Image.mark (lcn count : ℕ) (b : Bool) (img : Image) : Image :=
  { img with used := fun c => if lcn ≤ c ∧ c < lcn + count then b else img.used c }

/-- The first used cluster of a run. -/
def firstUsed (used : ℕ → Bool) (lcn count : ℕ) : Option ℕ :=
  (List.range count).find? fun k => used (lcn + k)

/-- The search for a free run inside one chunk, from `bit` on. -/
def scanChunk (used : ℕ → Bool) (bitsPerChunk total base count : ℕ) : ℕ → ℕ → Option ℕ
  | 0, _ => none
  | fuel + 1, bit =>
    if bit + count ≤ bitsPerChunk ∧ base + bit + count ≤ total then
      match firstUsed used (base + bit) count with
      | none => some (base + bit)
      | some k => scanChunk used bitsPerChunk total base count fuel (bit + k + 1)
    else none

/-- The first fit, one chunk of the bitmap after the other. -/
def findRun (used : ℕ → Bool) (bitsPerChunk : ℕ) (b : Bitmap) (count : ℕ) : Option ℕ :=
  (List.range b.clusters).findSome? fun chunk =>
    scanChunk used bitsPerChunk b.totalClusters (chunk * bitsPerChunk) count (bitsPerChunk + 1) 0

/-- `ntfs_bitmap_load`, unless it has been called with success. -/
def ntfsBitmapLoad (v : Mount) : Op (Option Bitmap) := do
  modify fun s => { s with loaded := v.bitmap.isSome }
  return v.bitmap

def ntfsClustersAlloc (v : Mount) (count : ℕ) : Op ℕ := do
  let some b ← ntfsBitmapLoad v | refuse .io "cannot read $Bitmap"
  if count = 0 then return 0
  else
    let some lcn := findRun (← get).img.used (v.bytesPerCluster * 8) b count
      | refuse .nospace "no free space"
    write (Image.mark lcn count true)
    return lcn

/-- The loop of `ntfs_clusters_free`: one chunk of the bitmap at a time. -/
def clearRun (b : Bitmap) (bitsPerChunk : ℕ) : ℕ → ℕ → ℕ → Op Unit
  | 0, _, _ => pure ()
  | fuel + 1, lcn, count =>
    let within := min (bitsPerChunk - lcn % bitsPerChunk) count
    if count = 0 then pure ()
    else if b.clusters ≤ lcn / bitsPerChunk then pure ()
    else do
      write (Image.mark lcn within false)
      clearRun b bitsPerChunk fuel (lcn + within) (count - within)

/-- Every caller ignores what `ntfs_clusters_free` returns. -/
def ntfsClustersFree (v : Mount) (lcn count : ℕ) : Op Unit := do
  match ← ntfsBitmapLoad v with
  | none => pure ()
  | some b => clearRun b (v.bytesPerCluster * 8) (count + 1) lcn count

/-! ## `$MFT` -/

/-- A record that does not read or is not in use is free. -/
def recordFree (img : Image) (n : ℕ) : Bool :=
  match img.mft n with
  | none => true
  | some r => !r.inUse

def findRecord (img : Image) : ℕ → ℕ → Option ℕ
  | 0, _ => none
  | fuel + 1, n => if recordFree img n then some n else findRecord img fuel (n + 1)

/-- The first record past the system files that is free. Nothing is marked. -/
def ntfsMftAlloc (v : Mount) : Op ℕ := do
  let img := (← get).img
  let some mft := img.mft 0 | refuse .io "cannot read $MFT"
  match mft.data with
  | some (.nonResident _ allocSize _) =>
    let total := allocSize / v.bytesPerRecord
    let some n := findRecord img (total - 16) 16 | refuse .nospace "the MFT is full"
    return n
  | _ => refuse .io "$MFT has no non-resident data"

/-! ## Sizes -/

def align8 (n : ℕ) : ℕ := (n + 7) / 8 * 8

/-- The bytes of a run's length. -/
def lengthBytes : ℕ → ℕ → List UInt8
  | 0, _ => []
  | fuel + 1, len => if len = 0 then [] else UInt8.ofNat len :: lengthBytes fuel (len / 256)

/-- The bytes of the signed distance between two runs. -/
def offsetBytes (neg : Bool) : ℕ → Int → List UInt8
  | 0, _ => []
  | fuel + 1, d =>
    let b := UInt8.ofNat (d % 256).toNat
    let d := d / 256
    if !neg && d = 0 then (if 0x80 ≤ b then [b, 0x00] else [b])
    else if neg && d = -1 then (if 0x80 ≤ b then [b] else [b, 0xFF])
    else b :: offsetBytes neg fuel d

def encodeRunsFrom (cap : ℕ) : List Run → Int → List UInt8 → Option (List UInt8)
  | [], _, out => if cap < out.length + 1 then none else some (out ++ [0])
  | r :: runs, prev, out =>
    let lb := if r.length = 0 then [0] else lengthBytes 8 r.length
    let delta := Int.ofNat r.lcn - prev
    let ob := if delta = 0 then [0] else offsetBytes (delta < 0) 8 delta
    if cap < out.length + 1 + lb.length + ob.length + 1 then none
    else encodeRunsFrom cap runs (Int.ofNat r.lcn)
      (out ++ UInt8.ofNat (ob.length * 16 + lb.length) :: (lb ++ ob))

/-- A run list as the volume keeps it; `none` if it does not fit the buffer. -/
def ntfsEncodeRuns (runs : List Run) (cap : ℕ) : Option (List UInt8) :=
  encodeRunsFrom cap runs 0 []

end Vextro.Ntfs
