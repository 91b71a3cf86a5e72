import Mathlib.Algebra.GroupWithZero.Nat
import Vextro.Model.Volume

/-! The index of a directory, after the `ix_` functions of `ntfs_ops.c`.

The root of the tree is the resident `$INDEX_ROOT` of the directory's record; every other node
is a block of `$INDEX_ALLOCATION`, addressed by its number. The functions change the record in
memory and the blocks on the volume; the caller writes the record. -/

namespace Vextro.Ntfs

open BlockTree (Node)

/-! ## Sizes -/

def ixMaxDepth : ℕ := 8

def ixGrowClusters : ℕ := 8

/-- An entry, with the address of a subtree in a node that has them. -/
def entryLen (large : Bool) (e : Entry) : ℕ :=
  align8 (0x10 + (0x42 + e.name.length * 2) + if large then 8 else 0)

/-- The longest entry. -/
def ixMaxEntry : ℕ := align8 (0x10 + 0x42 + 255 * 2 + 8)

def endLen (large : Bool) : ℕ := if large then 0x18 else 0x10

def slotsLen (large : Bool) (slots : List (Entry × ℕ)) : ℕ :=
  (slots.map fun s => entryLen large s.1).sum

/-- The entries of a node, the end entry included. -/
def nodeLen (n : IxNode) : ℕ := slotsLen n.large n.slots + endLen n.large

def ixBlockEntriesOff (bsize : ℕ) : ℕ := align8 (0x28 + (bsize / 512 + 1) * 2) - 0x18

/-- The node fits a block. -/
def fitsBlock (bsize : ℕ) (n : IxNode) : Bool := ixBlockEntriesOff bsize + nodeLen n ≤ bsize - 0x18

def ixRoom (bsize : ℕ) (n : IxNode) : ℕ := (bsize - 0x18) - (ixBlockEntriesOff bsize + nodeLen n)

def indexAllocLen (runs : List Run) : ℕ :=
  align8 (0x40 + 8 + ((ntfsEncodeRuns runs 4096).getD []).length)

def bitmapLen (bits : List Bool) : ℕ := align8 (0x18 + 8 + bits.length / 8)

def Record.usedSize (r : Record) : ℕ :=
  r.otherBytes + (r.indexRoot.map fun ir => nodeLen ir.node).getD 0 +
    (r.indexAlloc.map indexAllocLen).getD 0 + (r.bitmap.map bitmapLen).getD 0

/-! ## Blocks on the volume -/

def ixBlockSize (v : Mount) (ir : IndexRoot) : ℕ :=
  if ir.blockSize = 0 then v.bytesPerCluster else ir.blockSize

def clustersPerBlock (v : Mount) (ir : IndexRoot) : ℕ :=
  if ixBlockSize v ir / v.bytesPerCluster = 0 then 1 else ixBlockSize v ir / v.bytesPerCluster

def ixVcnToLcn : List Run → ℕ → Option ℕ
  | [], _ => none
  | r :: runs, vcn =>
    if vcn < r.length then (if r.sparse then none else some (r.lcn + vcn))
    else ixVcnToLcn runs (vcn - r.length)

def ixAllocClusters (runs : List Run) : ℕ := (runs.map Run.length).sum

/-- The index block that starts at a cluster, if its parts are all there. -/
def Image.block (img : Image) (lcn per : ℕ) : Option IxNode :=
  match img.cluster lcn with
  | .indx n 0 =>
    if (List.range (per - 1)).all fun k => img.cluster (lcn + (k + 1)) = .indx n (k + 1)
    then some n else none
  | _ => none

def Image.setBlock (lcn per : ℕ) (n : IxNode) (img : Image) : Image :=
  { img with cluster := fun c =>
      if lcn ≤ c ∧ c < lcn + per then .indx n (c - lcn) else img.cluster c }

/-- The first cluster of a block, and how many it has. -/
def ixBlockAt (v : Mount) (r : Record) (vcn : ℕ) : Option (ℕ × ℕ) :=
  match r.indexAlloc, r.indexRoot with
  | some runs, some ir =>
    (ixVcnToLcn runs (vcn * clustersPerBlock v ir)).map fun lcn => (lcn, clustersPerBlock v ir)
  | _, _ => none

def ixBlockRead (v : Mount) (r : Record) (img : Image) (vcn : ℕ) : Option IxNode :=
  (ixBlockAt v r vcn).bind fun b => img.block b.1 b.2

def ixBlockWrite (v : Mount) (vcn : ℕ) (n : IxNode) : Op Unit := do
  let some (lcn, per) := ixBlockAt v (← get).dir vcn | refuseQuietly .io
  write (Image.setBlock lcn per n)

/-! ## Which blocks are in use -/

def setBit (i : ℕ) (b : Bool) (r : Record) : Record :=
  { r with bitmap := r.bitmap.map fun bits => bits.set i b }

/-- Take the first block whose bit is clear. -/
def takeFirstBit : Op ℕ := do
  match (← get).dir.bitmap with
  | none => refuseQuietly .io
  | some bits =>
    match bits.findIdx? (!·) with
    | none => refuse .nospace "index bitmap is full"
    | some i => do
        modifyDir (setBit i true)
        return i

/-- The run list with another chunk of clusters; the encoder keeps no hole. -/
def appendRun (runs : List Run) (lcn : ℕ) : List Run :=
  let runs := runs.map fun r => { r with sparse := false }
  match runs.getLast? with
  | none => [⟨lcn, ixGrowClusters, false⟩]
  | some r =>
    if r.lcn + r.length = lcn then
      runs.dropLast ++ [{ r with length := r.length + ixGrowClusters }]
    else runs ++ [⟨lcn, ixGrowClusters, false⟩]

/-- The run list may need more room than the old one had. -/
def ixRunsRoom (v : Mount) (r : Record) (runs grown : List Run) : Bool :=
  indexAllocLen grown ≤ indexAllocLen runs ||
    r.usedSize + (indexAllocLen grown - indexAllocLen runs) ≤ v.bytesPerRecord

/-- The bitmap may need another eight bytes for its blocks. -/
def ixGrowBitmap (v : Mount) (nblocks : ℕ) : Op Unit := do
  let r := (← get).dir
  if (r.bitmap.getD []).length < nblocks then
    require (r.usedSize + 8 ≤ v.bytesPerRecord) .nospace "no room to grow the index bitmap"
    modifyDir fun r => { r with bitmap := r.bitmap.map (· ++ List.replicate 64 false) }
  else pure ()

/-- Give `$INDEX_ALLOCATION` another chunk, which is the part of `ix_alloc_block` between its
two scans of the bitmap. -/
def ixExtend (v : Mount) (per : ℕ) : Op Unit := do
  let r := (← get).dir
  let some runs := r.indexAlloc | refuseQuietly .io
  require (runs.length ≤ 15) .nospace "index run list too fragmented"
  let lcn ← ntfsClustersAlloc v ixGrowClusters
  let grown := appendRun runs lcn
  undoing (ntfsClustersFree v lcn ixGrowClusters) do
    require (ntfsEncodeRuns grown 256).isSome .nospace "index run list does not fit"
    require (ixRunsRoom v r runs grown) .nospace "no room to grow the index run list"
  modifyDir fun r => { r with indexAlloc := some grown }
  ixGrowBitmap v ((ixAllocClusters runs + ixGrowClusters) / per)

def ixAllocBlock (v : Mount) : Op ℕ := do
  let r := (← get).dir
  match r.bitmap, r.indexRoot with
  | some bits, some ir =>
    let per := clustersPerBlock v ir
    match bits.findIdx? (!·), r.indexAlloc with
    | some _, none => refuseQuietly .io
    | some i, some runs =>
      if (i + 1) * per ≤ ixAllocClusters runs then
        modifyDir (setBit i true)
        return i
      else
        ixExtend v per
        takeFirstBit
    | none, _ =>
      ixExtend v per
      takeFirstBit
  | _, _ => refuseQuietly .io

def ixFreeBlock (vcn : ℕ) : Op Unit := modifyDir (setBit vcn false)

/-- Add `$INDEX_ALLOCATION` and `$BITMAP` to a directory that has neither. -/
def ixAddAllocAttrs (v : Mount) : Op Unit := do
  let r := (← get).dir
  requireQuietly r.indexRoot.isSome .io
  if r.indexAlloc.isSome then pure ()
  else
    let lcn ← ntfsClustersAlloc v ixGrowClusters
    let runs : List Run := [⟨lcn, ixGrowClusters, false⟩]
    undoing (ntfsClustersFree v lcn ixGrowClusters) do
      requireQuietly (ntfsEncodeRuns runs 64).isSome .nospace
      require (r.usedSize + indexAllocLen runs + align8 (0x18 + 8 + 8) ≤ v.bytesPerRecord) .nospace
        "no room for an index allocation attribute"
    modifyDir fun r => { r with indexAlloc := some runs, bitmap := some (List.replicate 64 false) }

/-! ## Entries -/

/-- The entry for a name, of which a record keeps 255 characters. -/
def ixMakeEntry (ref : ℕ) (name : List UInt8) (isDir : Bool) (realSize allocSize now : ℕ) :
    Entry where
  ref := ref
  name := (name.take 255).map (·.toUInt16)
  space := 0
  isDir := isDir
  realSize := realSize
  allocSize := allocSize
  time := now
  short := by simp only [List.length_map, List.length_take]; omega

/-- The first slot that does not sort before the name, and whether it has that name. -/
def ixSeek (name : List UInt8) : List (Entry × ℕ) → ℕ × Bool
  | [] => (0, false)
  | s :: slots =>
    match ntfsNameCmp s.1.name name with
    | .eq => (0, true)
    | .gt => (0, false)
    | .lt => ((ixSeek name slots).1 + 1, (ixSeek name slots).2)

/-! ## The root -/

def setRootNode (n : IxNode) : Op Unit :=
  modifyDir fun r => { r with indexRoot := r.indexRoot.map fun ir => { ir with node := n } }

/-- The check of `ix_root_resize`, when the root grows by `delta` bytes. -/
def ixRootResize (v : Mount) (delta : ℕ) : Op Unit := do
  require (delta = 0 ∨ (← get).dir.usedSize + delta ≤ v.bytesPerRecord) .nospace
    "no room in the directory record"

def ixRootPut (v : Mount) (name : List UInt8) (s : Entry × ℕ) : Op Unit := do
  let some ir := (← get).dir.indexRoot | refuseQuietly .io
  ixRootResize v (entryLen ir.node.large s.1)
  setRootNode (ir.node.putAt (ixSeek name ir.node.slots).1 s)

def ixRootTake (i : ℕ) : Op Unit := do
  let some ir := (← get).dir.indexRoot | refuseQuietly .io
  setRootNode (ir.node.takeAt i)

/-! ## Growing the tree -/

/-- Move what the root holds to a block, and leave it with a single downlink. -/
def ixMakeLarge (v : Mount) : Op Unit := do
  let some ir := (← get).dir.indexRoot | refuseQuietly .io
  require (fitsBlock (ixBlockSize v ir) ir.node) .nospace
    "index block too small for the root's entries"
  ixRootResize v (endLen true - nodeLen ir.node)
  setRootNode ⟨true, [], 0⟩
  ixAddAllocAttrs v
  let vcn ← ixAllocBlock v
  undoing (ixFreeBlock vcn) (ixBlockWrite v vcn { ir.node with large := false })
  setRootNode ⟨true, [], vcn⟩

/-- The slot that puts about half the bytes on each side. -/
def ixMedian (large : Bool) (half : ℕ) : ℕ → List (Entry × ℕ) → Option ℕ
  | _, [] => none
  | acc, s :: slots =>
    if half < acc + entryLen large s.1 then some 0
    else (ixMedian large half (acc + entryLen large s.1) slots).map (· + 1)

/-- The halves of a node and the entry between them, if it can be split. -/
def ixSplitNode (bsize : ℕ) (n : IxNode) : Option (IxNode × Entry × IxNode) :=
  if slotsLen n.large n.slots = 0 then none
  else
    match n.cutAt ((ixMedian n.large (slotsLen n.large n.slots / 2) 0 n.slots).getD 0) with
    | none => none
    | some (left, median, right) =>
      if fitsBlock bsize right then some (left, median, right) else none

/-- Both halves of the root become blocks. -/
def ixSplitRoot (v : Mount) : Op Unit := do
  requireQuietly (← get).dir.indexRoot.isSome .io
  let leftVcn ← ixAllocBlock v
  let rightVcn ← ixAllocBlock v
  let some ir := (← get).dir.indexRoot | refuseQuietly .io
  let bsize := ixBlockSize v ir
  requireQuietly (fitsBlock bsize ir.node) .nospace
  let some (left, median, right) := ixSplitNode bsize ir.node | refuseQuietly .nospace
  ixBlockWrite v leftVcn left
  ixBlockWrite v rightVcn right
  ixRootResize v (entryLen true median + endLen true - nodeLen ir.node)
  setRootNode ⟨true, [(median, leftVcn)], rightVcn⟩

/-- Put the median of a split child into its parent, between the halves. In the root its place
is found again by name. -/
def ixPromote (v : Mount) (bsize : ℕ) (place : Option ℕ) (n : IxNode) (i child newVcn : ℕ)
    (median : Entry) : Op IxNode :=
  match place with
  | none => do
      let name := ntfsNameToAscii median.name
      ixRootPut v name (median, child)
      let some ir := (← get).dir.indexRoot | refuseQuietly .io
      let n' := ir.node.setChild ((ixSeek name ir.node.slots).1 + 1) newVcn
      setRootNode n'
      return n'
  | some vcn => do
      require (entryLen true median ≤ ixRoom bsize n) .nospace "index parent full after a split"
      let n' := (n.putAt i (median, child)).setChild (i + 1) newVcn
      ixBlockWrite v vcn n'
      return n'

/-- Split the child at slot `i` of a node if it could not take the longest entry, and promote
its median; the node is the root or, at `some vcn`, a block. Returns the node as the split
leaves it. -/
def ixSplitChildIfFull (v : Mount) (bsize : ℕ) (place : Option ℕ) (n : IxNode) (i : ℕ)
    (child : ℕ) (c : IxNode) : Op (Option IxNode) :=
  if ixMaxEntry ≤ ixRoom bsize c then pure none
  else do
    let newVcn ← ixAllocBlock v
    match ixSplitNode bsize c with
    | none => do
        ixFreeBlock newVcn
        refuseQuietly .nospace
    | some (left, median, right) => do
        ixBlockWrite v child left
        ixBlockWrite v newVcn right
        some <$> ixPromote v bsize place n i child newVcn median

/-! ## The descent -/

/-- Where a descent ends: the node, where it is kept, and the slot found in it. -/
structure Landing where
  place : Option ℕ
  node : IxNode
  slot : ℕ
  exact : Bool

/-- One level of the descents of `ntfs_index_insert` and `ntfs_index_remove`: the child is split
until it has room, then entered. Every split leaves fewer entries in the child, and a block
has fewer entries than bytes. -/
def ixLevel (v : Mount) (bsize : ℕ) (name : List UInt8)
    (enter : Option ℕ → IxNode → Op Landing) : ℕ → Option ℕ → IxNode → Op Landing
  | 0, _, _ => refuseQuietly .io
  | tries + 1, place, n =>
    let i := (ixSeek name n.slots).1
    if (ixSeek name n.slots).2 then pure ⟨place, n, i, true⟩
    else if n.large then do
      let s ← get
      let some c := ixBlockRead v s.dir s.img (n.child i) | refuse .io "index block will not read"
      match ← ixSplitChildIfFull v bsize place n i (n.child i) c with
      | some n' => ixLevel v bsize name enter tries place n'
      | none => enter (some (n.child i)) c
    else pure ⟨place, n, i, false⟩

/-- The descent, `levels` blocks deep at most. -/
def ixDescend (v : Mount) (bsize : ℕ) (name : List UInt8) (limit : Refusal) :
    ℕ → Option ℕ → IxNode → Op Landing
  | 0, place, n =>
    if (ixSeek name n.slots).2 then pure ⟨place, n, (ixSeek name n.slots).1, true⟩
    else if n.large then throw limit
    else pure ⟨place, n, (ixSeek name n.slots).1, false⟩
  | levels + 1, place, n => ixLevel v bsize name (ixDescend v bsize name limit levels) bsize place n

/-! ## Insertion -/

def tooDeep (status : Status) : Refusal := ⟨status, some "directory index deeper than the limit"⟩

/-- Put the entry where the descent ended. -/
def ixInsertAt (v : Mount) (bsize : ℕ) (name : List UInt8) (e : Entry) (land : Landing) :
    Op Unit := do
  require (!land.exact) .nameExists "a file of that name already exists"
  match land.place with
  | none => ixRootPut v name (e, 0)
  | some vcn => do
      require (entryLen false e ≤ ixRoom bsize land.node) .nospace
        "index leaf full after a pre-emptive split"
      ixBlockWrite v vcn (land.node.putAt land.slot (e, 0))

/-- Split the root if it could not take the longest entry. -/
def ixSplitRootIfFull (v : Mount) : Op Unit := do
  if v.bytesPerRecord < (← get).dir.usedSize + ixMaxEntry then ixSplitRoot v else pure ()

/-- The part of `ntfs_index_insert` for a directory that has a tree. -/
def ixInsertLarge (v : Mount) (bsize : ℕ) (name : List UInt8) (e : Entry) : Op Unit := do
  ixSplitRootIfFull v
  let some ir := (← get).dir.indexRoot | refuseQuietly .io
  let land ← ixDescend v bsize name (tooDeep .nospace) ixMaxDepth none ir.node
  ixInsertAt v bsize name e land

def ntfsIndexInsert (v : Mount) (ref : ℕ) (name : List UInt8) (isDir : Bool)
    (realSize allocSize now : ℕ) : Op Unit := do
  let r := (← get).dir
  let some ir := r.indexRoot | refuse .io "directory index is not resident"
  let bsize := ixBlockSize v ir
  let e := ixMakeEntry ref name isDir realSize allocSize now
  if ir.node.large then ixInsertLarge v bsize name e
  else
    require (!(ixSeek name ir.node.slots).2) .nameExists "a file of that name already exists"
    if r.usedSize + entryLen false e ≤ v.bytesPerRecord then ixRootPut v name (e, 0)
    else
      ixMakeLarge v
      ixInsertLarge v bsize name e

/-! ## Removal -/

/-- The first entry of a block, taken out of it. -/
def takeFirst (v : Mount) (vcn : ℕ) (n : IxNode) : Op (Option Entry) :=
  match n.slots with
  | [] => pure none
  | s :: slots => do
      ixBlockWrite v vcn { n with slots := slots }
      return some s.1

/-- Take the smallest entry out of the subtree at `vcn`; `none` if it could find none. -/
def ixTakeLeftmost (v : Mount) : ℕ → ℕ → Op (Option Entry)
  | 0, _ => return none
  | levels + 1, vcn => do
      let s ← get
      let some n := ixBlockRead v s.dir s.img vcn | return none
      if n.large then
        match ← ixTakeLeftmost v levels (n.child 0) with
        | some e => return some e
        | none => takeFirst v vcn n
      else takeFirst v vcn n

/-- Put a changed node back: the root in memory, a block on the volume. -/
def putBack (v : Mount) (place : Option ℕ) (n : IxNode) : Op Unit :=
  match place with
  | none => setRootNode n
  | some vcn => ixBlockWrite v vcn n

/-- Put a separator's successor in its place. -/
def ixPromoteSuccessor (v : Mount) (bsize : ℕ) (place : Option ℕ) (n : IxNode) (i : ℕ)
    (succ : Entry) : Op Unit :=
  match place with
  | none => do
      ixRootTake i
      ixRootPut v (ntfsNameToAscii succ.name) (succ, n.child i)
  | some vcn => do
      let freed := ((n.slots.drop i).head?.map fun s => entryLen n.large s.1).getD 0
      require (entryLen true succ ≤ ixRoom bsize n + freed) .nospace
        "no room to promote the successor"
      ixBlockWrite v vcn ((n.takeAt i).putAt i (succ, n.child i))

/-- Replace the separator at slot `i` by its successor, or drop it if there is none. -/
def ixReplaceSeparator (v : Mount) (bsize : ℕ) (place : Option ℕ) (n : IxNode) (i : ℕ) :
    Op Unit := do
  match ← ixTakeLeftmost v ixMaxDepth (n.child (i + 1)) with
  | none => putBack v place ((n.setChild (i + 1) (n.child i)).takeAt i)
  | some succ => ixPromoteSuccessor v bsize place n i succ

/-- Take the name out where the descent ended. -/
def ixRemoveAt (v : Mount) (bsize : ℕ) (land : Landing) : Op Unit := do
  require land.exact .notFound "no such entry in the directory"
  if land.node.large then ixReplaceSeparator v bsize land.place land.node land.slot
  else putBack v land.place (land.node.takeAt land.slot)

def ntfsIndexRemove (v : Mount) (name : List UInt8) : Op Unit := do
  let some ir := (← get).dir.indexRoot | refuseQuietly .io
  (if ir.node.large then ixSplitRootIfFull v else pure ())
  let some ir' := (← get).dir.indexRoot | refuseQuietly .io
  let land ← ixDescend v (ixBlockSize v ir) name (tooDeep .io) ixMaxDepth none ir'.node
  ixRemoveAt v (ixBlockSize v ir) land

/-! ## Reading -/

/-- The entries below a node in order, down to the depth limit. -/
def ixWalkNode (v : Mount) (r : Record) (img : Image) : ℕ → IxNode → List Entry
  | 0, _ => []
  | levels + 1, n => n.flat fun vcn =>
    match ixBlockRead v r img vcn with
    | none => []
    | some c => ixWalkNode v r img levels c

/-- The entries a walk shows its caller, which leaves out DOS names. -/
def ntfsIndexWalk (v : Mount) (r : Record) (img : Image) : List Entry :=
  match r.indexRoot with
  | none => []
  | some ir => (ixWalkNode v r img ixMaxDepth ir.node).filter fun e => e.space ≠ 2

def recordOfRef (ref : ℕ) : ℕ := ref % 2 ^ 48

def ixFindFrom (v : Mount) (r : Record) (img : Image) (name : List UInt8) : ℕ → IxNode → Option ℕ
  | 0, n => if (ixSeek name n.slots).2 then
      ((n.slots.drop (ixSeek name n.slots).1).head?).map fun s => recordOfRef s.1.ref else none
  | levels + 1, n =>
    if (ixSeek name n.slots).2 then
      ((n.slots.drop (ixSeek name n.slots).1).head?).map fun s => recordOfRef s.1.ref
    else if !n.large then none
    else
      match ixBlockRead v r img (n.child (ixSeek name n.slots).1) with
      | none => none
      | some c => ixFindFrom v r img name levels c

/-- The record a name resolves to, by descending. -/
def ixFindRef (v : Mount) (r : Record) (img : Image) (name : List UInt8) : Option ℕ :=
  r.indexRoot.bind fun ir => ixFindFrom v r img name ixMaxDepth ir.node

end Vextro.Ntfs
