import Vextro.Model.Regions

/-! The cluster cache of an archive after `zim.h`. The file is what `fs_pread` gives of it; the
decoders start afresh with each payload, and are given. -/

namespace Vextro.Zim

open Regions

def zimCbufMax : ℕ := 6291456
def zimDbufMax : ℕ := 12582912

structure Archive where
  clusterCount : UInt32
  clusterPtrPos : UInt64
  checksumPos : UInt64
  /-- The bytes that a read of so many at an offset gets. -/
  fsPread : UInt64 → ℕ → Option (List UInt8)
  zstdDecode : List UInt8 → Except String (List UInt8)
  xzDecode : List UInt8 → Except String (List UInt8)
  /-- What a payload that `xz_decode` gives up on makes of the buffer. -/
  xzLeaves : List UInt8 → List UInt8 → List UInt8

/-- The one cluster that is kept. Of the buffer there are the `zim_dlen` bytes in use. -/
structure Cache where
  cached : UInt32
  cachedExt : Bool
  dbuf : List UInt8

def Cache.fresh : Cache := ⟨0xFFFFFFFF, false, []⟩

def zimR32 (p : List UInt8) (i : ℕ) : ℕ := rdLE 4 (fun k => p.getD k 0) i
def zimR64 (p : List UInt8) (i : ℕ) : ℕ := rdLE 8 (fun k => p.getD k 0) i

variable (z : Archive)

def zimRead (off : UInt64) (len : ℕ) : Option (List UInt8) :=
  (z.fsPread off len).filter fun p => p.length = len

/-- An entry of the cluster pointer list. -/
def clusterPtr (n : UInt32) : Except String UInt64 :=
  match zimRead z (z.clusterPtrPos + n.toUInt64 * 8) 8 with
  | some p => .ok (.ofNat (zimR64 p 0))
  | none => .error "cannot read the cluster pointer list"

def zimClusterRange (n : UInt32) : Except String (UInt64 × UInt64) := do
  if z.clusterCount ≤ n then throw "cluster out of range"
  let off ← clusterPtr z n
  let stop ← if n + 1 < z.clusterCount then clusterPtr z (n + 1) else pure z.checksumPos
  if stop ≤ off then throw "bad cluster extent"
  return (off, stop)

/-- The first part of `zim_load_cluster`: the information byte and the payload. -/
def readCluster (n : UInt32) : Except String (UInt8 × List UInt8) := do
  let (off, stop) ← zimClusterRange z n
  if zimCbufMax < (stop - off).toNat then throw "cluster larger than the read buffer"
  match z.fsPread off (stop - off).toNat with
  | some (info :: payload) => return (info, payload)
  | _ => throw "cannot read cluster"

/-- Its last part: what the payload decodes to, or the error and what the buffer is left with. -/
def unpackCluster (comp : UInt8)
    (payload dbuf : List UInt8) : Except (String × List UInt8) (List UInt8) :=
  match comp with
  | 0 | 1 => if zimDbufMax < payload.length then .error ("cluster too large", dbuf) else .ok payload
  | 5 => (z.zstdDecode payload).mapError fun e => (e, [])
  | 4 => (z.xzDecode payload).mapError fun e => (e, z.xzLeaves payload dbuf)
  | 2 => .error ("cluster uses zlib, which this reader does not support", dbuf)
  | 3 => .error ("cluster uses bzip2, which this reader does not support", dbuf)
  | _ => .error ("unknown cluster compression", dbuf)

def zimLoadCluster (c : Cache) (n : UInt32) : Cache × Except String Unit :=
  if c.cached = n then (c, .ok ())
  else
    match readCluster z n with
    | .error e => (c, .error e)
    | .ok (info, payload) =>
      match unpackCluster z (info &&& 0x0F) payload c.dbuf with
      -- the flag and the buffer have changed, and the number has not
      | .error (e, left) => ({ c with cachedExt := info &&& 0x10 != 0, dbuf := left }, .error e)
      | .ok bytes => (⟨n, info &&& 0x10 != 0, bytes⟩, .ok ())

/-- The second part of `zim_blob`: a blob of the cluster in the buffer. -/
def findBlob (c : Cache) (blob : UInt32) : Except String (List UInt8) := do
  let esize := if c.cachedExt then 8 else 4
  let entry := fun i => if c.cachedExt then zimR64 c.dbuf (i * 8) else zimR32 c.dbuf (i * 4)
  if c.dbuf.length < esize then throw "cluster is empty"
  if entry 0 < esize ∨ c.dbuf.length < entry 0 then throw "bad blob table"
  if entry 0 / esize - 1 ≤ blob.toNat then throw "blob index out of range"
  let a := entry blob.toNat
  let b := entry (blob.toNat + 1)
  if b < a ∨ c.dbuf.length < b then throw "bad blob extent"
  return (c.dbuf.take b).drop a

def zimBlob (c : Cache) (cluster blob : UInt32) : Cache × Except String (List UInt8) :=
  match zimLoadCluster z c cluster with
  | (c, .error e) => (c, .error e)
  | (c, .ok _) => (c, findBlob c blob)

end Vextro.Zim
