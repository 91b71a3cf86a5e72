import Vextro.Model.DirectoryIndex

/-! Creating, deleting and looking up files: the operations of `ntfs_ops.c`. -/

namespace Vextro.Ntfs

/-! ## Building records -/

def packRef (number sequence : ℕ) : ℕ := number ||| (sequence <<< 48)

def attrsOff (v : Mount) : ℕ := align8 (0x30 + (v.bytesPerRecord / 512 + 1) * 2)

def stdinfoLen : ℕ := align8 (24 + 48)

def filenameLen (name : List UInt8) : ℕ := align8 (24 + (0x42 + min name.length 255 * 2))

/-- The `$DATA` attribute; `none` if its run list does not fit. -/
def dataLen : Data → Option ℕ
  | .resident bytes => some (align8 (24 + bytes.length))
  | .nonResident runs _ _ => (ntfsEncodeRuns runs 256).map fun enc => align8 (0x40 + enc.length)

/-- The record of a new file. -/
def fileRecord (used : ℕ) (data : Data) : Record where
  inUse := true
  isDir := false
  sequence := 1
  otherBytes := align8 used
  data := some data
  indexRoot := none
  indexAlloc := none
  bitmap := none

/-- The record of a new directory, whose index holds nothing but its end. -/
def directoryRecord (v : Mount) (used : ℕ) : Record where
  inUse := true
  isDir := true
  sequence := 1
  otherBytes := align8 used - endLen false
  data := none
  indexRoot := some ⟨v.bytesPerCluster, ⟨false, [], 0⟩⟩
  indexAlloc := none
  bitmap := none

/-! ## Creating -/

/-- How many clusters the contents take; up to 700 bytes stay in the record. The sum is taken
in 32 bits. -/
def dataClusters (v : Mount) (len : ℕ) : ℕ :=
  if len ≤ 700 then 0 else (len + v.bytesPerCluster - 1) % 2 ^ 32 / v.bytesPerCluster

def Image.setBytes (lcn : ℕ) (bytes : List UInt8) (img : Image) : Image :=
  { img with cluster := Function.update img.cluster lcn (.bytes bytes) }

/-- The bytes of one cluster of the contents, the last one filled up with zeroes. -/
def clusterBytes (bytesPerCluster : ℕ) (data : List UInt8) (c : ℕ) : List UInt8 :=
  let here := (data.drop (c * bytesPerCluster)).take bytesPerCluster
  here ++ List.replicate (bytesPerCluster - here.length) 0

/-- Write `count` clusters of the contents, from the `c`-th on. -/
def writeData (v : Mount) (data : List UInt8) (lcn : ℕ) : ℕ → ℕ → Op Unit
  | 0, _ => pure ()
  | count + 1, c => do
      write (Image.setBytes (lcn + c) (clusterBytes v.bytesPerCluster data c))
      writeData v data lcn count (c + 1)

/-- Give the contents clusters and write them, unless they stay in the record. -/
def placeData (v : Mount) (data : List UInt8) : Op ℕ := do
  if data.length ≤ 700 then return 0
  else
    let lcn ← ntfsClustersAlloc v (dataClusters v data.length)
    writeData v data lcn (dataClusters v data.length) 0
    return lcn

def fileData (v : Mount) (data : List UInt8) (lcn : ℕ) : Data :=
  if data.length ≤ 700 then .resident data
  else .nonResident [⟨lcn, dataClusters v data.length, false⟩]
    (dataClusters v data.length * v.bytesPerCluster) data.length

/-- A record that is ready to be written, and the clusters its contents were given. -/
structure NewRecord where
  number : ℕ
  record : Record
  lcn : ℕ

def giveBackData (v : Mount) (data : List UInt8) (lcn : ℕ) : Op Unit :=
  if dataClusters v data.length = 0 then pure ()
  else ntfsClustersFree v lcn (dataClusters v data.length)

def fileUsed (v : Mount) (name : List UInt8) (dlen : ℕ) : ℕ :=
  attrsOff v + (stdinfoLen + filenameLen name + dlen + 8)

/-- The part of `ntfs_create_file` that comes before the record is written. -/
def newFile (v : Mount) (name data : List UInt8) : Op NewRecord := do
  let lcn ← placeData v data
  undoing (giveBackData v data lcn) do
    let number ← ntfsMftAlloc v
    let some dlen := dataLen (fileData v data lcn) | refuse .tooBig "run list did not fit"
    require (fileUsed v name dlen ≤ v.bytesPerRecord) .tooBig "attributes do not fit in one record"
    return ⟨number, fileRecord (fileUsed v name dlen) (fileData v data lcn), lcn⟩

def dirUsed (v : Mount) (name : List UInt8) : ℕ :=
  attrsOff v + (stdinfoLen + filenameLen name + align8 (24 + 8 + 0x30) + 8)

/-- The part of `ntfs_mkdir_at` that comes before the record is written. -/
def newDirectory (v : Mount) (name : List UInt8) : Op NewRecord := do
  let number ← ntfsMftAlloc v
  requireQuietly (dirUsed v name ≤ v.bytesPerRecord) .tooBig
  return ⟨number, directoryRecord v (dirUsed v name), 0⟩

/-- Link a new record into its directory, and write the directory's record last. -/
def linkRecord (v : Mount) (now dirRecord number : ℕ) (name : List UInt8) (isDir : Bool)
    (realSize allocSize : ℕ) (unreadable : Refusal) (undo : Op Unit) : Op Unit := do
  let some r := (← get).img.mft dirRecord | throw unreadable
  modifyDir fun _ => r
  undoing undo (ntfsIndexInsert v (packRef number 1) name isDir realSize allocSize now)
  ntfsWriteRecord dirRecord (← get).dir

def ntfsCreateFile (v : Mount) (now dirRecord : ℕ) (name data : List UInt8) : Op Unit := do
  require v.mounted .readOnly "no NTFS volume"
  let new ← newFile v name data
  ntfsWriteRecord new.number new.record
  linkRecord v now dirRecord new.number name false data.length
    (dataClusters v data.length * v.bytesPerCluster) ⟨.io, some "cannot read the directory"⟩
    (giveBackData v data new.lcn)

def ntfsMkdirAt (v : Mount) (now dirRecord : ℕ) (name : List UInt8) : Op Unit := do
  requireQuietly v.mounted .readOnly
  let new ← newDirectory v name
  ntfsWriteRecord new.number new.record
  linkRecord v now dirRecord new.number name true 0 0 ⟨.io, none⟩ (pure ())

/-! ## Deleting -/

def freeRuns (v : Mount) : List Run → Op Unit
  | [] => pure ()
  | r :: runs => do
      (if r.sparse then pure () else ntfsClustersFree v r.lcn r.length)
      freeRuns v runs

/-- The runs a record gives back: those of its index if it is a directory, and its data. -/
def Record.ownedRuns (r : Record) : List Run :=
  (if r.isDir then r.indexAlloc.getD [] else []) ++
    match r.data with
    | some (.nonResident runs _ _) => runs
    | _ => []

/-- Give back what a record owns, and what its buffer holds then. If this is what loads `$Bitmap`,
its record is read over the one whose runs are walked, after the first of them. -/
def freeOwned (v : Mount) (r : Record) : Op Record := do
  match r.ownedRuns.filter (!·.sparse), (← get).loaded with
  | run :: _, false => do
      ntfsClustersFree v run.lcn run.length
      freeRuns v v.strayRuns
      return ((← get).img.mft 6).getD v.strayRecord
  | runs, _ => do
      freeRuns v runs
      return r

/-- The record once it is free: the next sequence number is never zero. -/
def Record.released (r : Record) : Record :=
  { r with
    inUse := false
    sequence := if (r.sequence + 1) % 2 ^ 16 = 0 then 1 else (r.sequence + 1) % 2 ^ 16 }

def ntfsDeleteFile (v : Mount) (dirRecord : ℕ) (name : List UInt8) : Op Unit := do
  requireQuietly v.mounted .readOnly
  let img := (← get).img
  let some r := img.mft dirRecord | refuseQuietly .io
  modifyDir fun _ => r
  let number := (ixFindRef v r img name).getD 0
  require (number ≠ 0) .notFound "no such file"
  ntfsIndexRemove v name
  ntfsWriteRecord dirRecord (← get).dir
  match (← get).img.mft number with
  | none => pure ()
  | some r => do
      let r ← freeOwned v r
      ntfsWriteRecord number r.released

/-! ## Looking up -/

def upcaseByte (c : UInt8) : UInt8 := if 0x61 ≤ c ∧ c ≤ 0x7A then c - 0x61 + 0x41 else c

/-- The comparison of `ntfs_find_cb`. -/
def nameMatches (want : List UInt8) (e : Entry) : Bool :=
  want.map upcaseByte = (ntfsNameToAscii e.name).map upcaseByte

/-- The entry of a directory that a walk finds under a name. -/
def findName (v : Mount) (img : Image) (record : ℕ) (want : List UInt8) : Option Entry :=
  (img.mft record).bind fun r => (ntfsIndexWalk v r img).find? (nameMatches want)

structure Found where
  record : ℕ
  parent : ℕ
  isDir : Bool
  size : ℕ
  deriving DecidableEq

def skipSlashes (path : List UInt8) : List UInt8 := path.dropWhile (· = 0x2F)

/-- The components of a path, of 255 characters at most. -/
def pathComponents : ℕ → List UInt8 → List (List UInt8)
  | 0, _ => []
  | fuel + 1, path =>
    let comp := (path.takeWhile (· ≠ 0x2F)).take 255
    if comp = [] then []
    else comp :: pathComponents fuel (skipSlashes (path.drop comp.length))

def lookupFrom (v : Mount) (img : Image) : List (List UInt8) → Found → Option Found
  | [], f => some f
  | comp :: comps, f =>
    if !f.isDir then none
    else
      match findName v img f.record comp with
      | none => none
      | some e => lookupFrom v img comps ⟨recordOfRef e.ref, f.record, e.isDir, e.realSize⟩

def ntfsMftRoot : ℕ := 5

def ntfsLookup (v : Mount) (img : Image) (path : List UInt8) : Option Found :=
  if !v.mounted then none
  else lookupFrom v img (pathComponents (path.length + 1) (skipSlashes path))
    ⟨ntfsMftRoot, ntfsMftRoot, true, 0⟩

/-! ## Calls -/

/-- The calls that change the names of a volume. -/
inductive FsCall where
  | create (now dirRecord : ℕ) (name data : List UInt8)
  | mkdir (now dirRecord : ℕ) (name : List UInt8)
  | delete (dirRecord : ℕ) (name : List UInt8)

def FsCall.op (v : Mount) : FsCall → Op Unit
  | .create now dirRecord name data => ntfsCreateFile v now dirRecord name data
  | .mkdir now dirRecord name => ntfsMkdirAt v now dirRecord name
  | .delete dirRecord name => ntfsDeleteFile v dirRecord name

/-- The directory buffer before a call; every call fills it before it uses it. -/
def blankRecord : Record := ⟨false, false, 0, 0, none, none, none, none⟩

def FsCall.run (v : Mount) (img : Image) (call : FsCall) : EStateM.Result Refusal Work Unit :=
  call.op v ⟨blankRecord, img, [], v.loaded⟩

def finalWork : EStateM.Result Refusal Work Unit → Work
  | .ok _ s => s
  | .error _ s => s

/-- What a call leaves on the volume. -/
def FsCall.step (v : Mount) (img : Image) (call : FsCall) : Image :=
  (finalWork (call.run v img)).img

/-- What a crash may leave on the volume: its contents between two writes of the call. -/
def FsCall.crashImages (v : Mount) (img : Image) (call : FsCall) : List Image :=
  (finalWork (call.run v img)).img :: (finalWork (call.run v img)).past

/-- The status a call returns is not `NTFS_W_OK`. -/
def FsCall.refused (v : Mount) (img : Image) (call : FsCall) : Bool :=
  match call.run v img with
  | .ok _ _ => false
  | .error _ _ => true

end Vextro.Ntfs
