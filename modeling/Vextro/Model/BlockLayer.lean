import Vextro.Verification.Shared.Slices

/-! Disks and the layer in front of them: `blk.h`.

The layer copies whole sectors and does not look into them, so that what a sector holds is a type
of its own. Sectors are counted in 64 bits, and sums of them wrap. A drive refuses a command that
goes past its last sector. -/

namespace Vextro.Blocks

open Slices (slice patch)

variable {α : Type*}

/-- The sum of two 64-bit numbers. -/
def sum64 (a b : ℕ) : ℕ := (a + b) % 2 ^ 64

/-- A disk, and the sectors of it that fail every access. -/
structure Disk (α : Type*) where
  sectors : ℕ
  fits : sectors < 2 ^ 64
  data : ℕ → α
  bad : ℕ → Bool

/-- The drive can carry out a command on these sectors. -/
def Disk.sound (d : Disk α) (lba count : ℕ) : Bool :=
  lba + count ≤ d.sectors && (List.range count).all fun k => !d.bad (lba + k)

/-- `blk_read_raw` -/
def Disk.readRaw (d : Disk α) (lba count : ℕ) : Option (List α) :=
  if d.sound lba count then some (slice d.data lba count) else none

/-- `blk_write_raw`, and whether it succeeds. If not, some of the sectors may have been written
all the same. -/
def Disk.writeRaw (d : Disk α) (lba : ℕ) (data : List α) (torn : ℕ → Bool) : Disk α × Bool :=
  if d.sound lba data.length then ({ d with data := patch d.data lba data }, true)
  else ({ d with data := fun k => if torn k then patch d.data lba data k else d.data k }, false)

/-! ## Bad sectors -/

def blkRemapMax : ℕ := 256

def blkCacheSectors : ℕ := 64

/-- `blk_cache_line_t`; an empty line has no first sector. -/
structure Line (α : Type*) where
  base : Option ℕ
  count : ℕ
  used : ℕ
  data : List α

/-- What the layer keeps in memory: the lines of the cache, if there was memory for them, and the
sectors that were retired. -/
structure Front (α : Type*) where
  cache : Option (List (Line α))
  clock : ℕ
  /-- Failed sectors and their spares, the oldest first. -/
  remap : List (ℕ × ℕ)
  /-- The next spare sector, or zero before the first is needed. -/
  spareNext : ℕ
  /-- What lies in memory past the sectors of a line. -/
  beyond : ℕ → α

def blkRemapLookup (f : Front α) (lba : ℕ) : ℕ :=
  ((f.remap.find? fun r => r.1 = lba).map Prod.snd).getD lba

/-- `blk_retire_sector`, and whether the sector could be read after all. A sector that fails,
fails all three attempts. -/
def blkRetireSector (d : Disk α) (f : Front α) (lba : ℕ) : Front α × Bool :=
  if (d.readRaw lba 1).isSome then (f, true)
  else if blkRemapMax ≤ f.remap.length then (f, false)
  else if f.spareNext = 0 ∧ d.sectors < 4096 then (f, false)
  else
    let spare := if f.spareNext = 0 then d.sectors - 1024 else f.spareNext
    ({ f with remap := f.remap ++ [(lba, spare)], spareNext := spare + 1 }, false)

/-! ## The cache -/

/-- The line holds all sectors of a request. -/
def Line.holds (l : Line α) (lba count : ℕ) : Bool :=
  l.base.any fun base => base ≤ lba && sum64 lba count ≤ sum64 base l.count

/-- The line holds some sector of a request. -/
def Line.overlaps (l : Line α) (lba count : ℕ) : Bool :=
  l.base.any fun base => !(sum64 lba count ≤ base || sum64 base l.count ≤ lba)

def Line.empty (l : Line α) : Line α := { l with base := none }

/-- What `blk_read` copies out of a line. -/
def Line.copied (l : Line α) (beyond : ℕ → α) (lba count : ℕ) : List α :=
  slice (fun k => l.data.getD k (beyond k)) (lba - l.base.getD 0) count

def blkCacheDrop (f : Front α) (lba count : ℕ) : Front α :=
  { f with cache := f.cache.map fun lines =>
      lines.map fun l => if l.overlaps lba count then { l.empty with count := 0 } else l }

/-- The line to fill: the first that is empty, or the one used least recently. -/
def victimFrom : ℕ → ℕ → ℕ → List (Line α) → ℕ
  | _, victim, _, [] => victim
  | i, victim, oldest, l :: lines =>
    if l.base.isNone then i
    else if l.used < oldest then victimFrom (i + 1) i l.used lines
    else victimFrom (i + 1) victim oldest lines

/-! ## Reading -/

/-- The loop of `blk_read` that reads one sector at a time, with what it has read so far. -/
def readEach (d : Disk α) (lba : ℕ) : ℕ → Front α → List α → Front α × Option (List α)
  | 0, f, done => (f, some done)
  | count + 1, f, done =>
    let s := blkRemapLookup f (sum64 lba done.length)
    match d.readRaw s 1 with
    | some x => readEach d lba count f (done ++ x)
    | none =>
      let (f, retried) := blkRetireSector d f s
      if !retried then (f, none)
      else
        match d.readRaw (blkRemapLookup f (sum64 lba done.length)) 1 with
        | some x => readEach d lba count f (done ++ x)
        | none => (f, none)

/-- The part of `blk_read` that goes straight to the disk. -/
def readDirect (d : Disk α) (f : Front α) (lba count : ℕ) : Front α × Option (List α) :=
  let real := blkRemapLookup f lba
  match d.readRaw real count with
  | some x => (f, some x)
  | none =>
    if count ≠ 1 then (f, none)
    else
      let (f, retried) := blkRetireSector d f real
      (f, if retried then d.readRaw real 1 else none)

/-- How many sectors are fetched for a request that no line holds. -/
def Disk.want (d : Disk α) (lba count : ℕ) : ℕ :=
  let want := if d.sectors < sum64 lba blkCacheSectors then (d.sectors + 2 ^ 64 - lba) % 2 ^ 32
    else blkCacheSectors
  max want count

/-- The part for a request that no line holds. -/
def readMiss (d : Disk α) (f : Front α) (lines : List (Line α)) (lba count : ℕ) :
    Front α × Option (List α) :=
  let victim := victimFrom 0 0 (2 ^ 64 - 1) lines
  let want := d.want lba count
  match d.readRaw (blkRemapLookup f lba) want with
  | none =>
    let f := { f with cache := some (lines.modify victim Line.empty) }
    readEach d lba count f []
  | some x =>
    ({ f with
        cache := some (lines.modify victim fun _ => ⟨some lba, want, f.clock + 1, x⟩)
        clock := f.clock + 1 }, some (x.take count))

/-- `blk_read` on the selected disk. -/
def blkRead (d : Disk α) (f : Front α) (lba count : ℕ) : Front α × Option (List α) :=
  if d.sectors < sum64 lba count then (f, none)
  else
    match f.cache with
    | none => readDirect d f lba count
    | some lines =>
      if blkCacheSectors < count then readDirect d f lba count
      else
        match lines.findIdx? fun l => l.holds lba count with
        | some i =>
          let f := { f with
            cache := some (lines.modify i fun l => { l with used := f.clock + 1 })
            clock := f.clock + 1 }
          (f, lines[i]?.map fun l => l.copied f.beyond lba count)
        | none => readMiss d f lines lba count

/-! ## Writing -/

/-- `blk_write` on the selected disk, and whether it succeeds. -/
def blkWrite (d : Disk α) (f : Front α) (lba : ℕ) (data : List α) (torn : ℕ → Bool) :
    Disk α × Front α × Bool :=
  if d.sectors < sum64 lba data.length then (d, f, false)
  else
    let f := blkCacheDrop f lba data.length
    let (d, ok) := d.writeRaw (blkRemapLookup f lba) data torn
    (d, f, ok)

/-! ## Several disks -/

/-- `blk_devs`, `blk_cur` and the rest. -/
structure Layer (α : Type*) where
  disks : List (Disk α)
  cur : Option ℕ
  front : Front α

/-- The selected disk. -/
def Layer.disk (b : Layer α) : Option (Disk α) := b.cur.bind fun i => b.disks[i]?

def blkSelect (b : Layer α) (idx : ℤ) : Layer α :=
  if 0 ≤ idx ∧ idx < b.disks.length then { b with cur := some idx.toNat } else b

inductive Step (α : Type*) where
  | select (idx : ℤ)
  | read (lba count : ℕ)
  | write (lba : ℕ) (data : List α) (torn : ℕ → Bool)
  /-- From now on, these sectors of the selected disk fail. -/
  | fail (sectors : ℕ → Bool)

/-- What a read returns. -/
def Layer.read (b : Layer α) (lba count : ℕ) : Option (List α) :=
  b.disk.bind fun d => (blkRead d b.front lba count).2

def Layer.setDisk (b : Layer α) (d : Disk α) : Layer α :=
  { b with disks := match b.cur with
      | none => b.disks
      | some i => b.disks.set i d }

def Layer.step (b : Layer α) : Step α → Layer α
  | .select idx => blkSelect b idx
  | .read lba count =>
    match b.disk with
    | none => b
    | some d => { b with front := (blkRead d b.front lba count).1 }
  | .write lba data torn =>
    match b.disk with
    | none => b
    | some d =>
      let (d, front, _) := blkWrite d b.front lba data torn
      { b.setDisk d with front := front }
  | .fail sectors =>
    match b.disk with
    | none => b
    | some d => b.setDisk { d with bad := fun k => d.bad k || sectors k }

end Vextro.Blocks
